import Xv6Fcfs.Sched.Writes

/-!
# The locks of the whole machine

`Core` ties the lock words, the stacks and the CPUs together: a lock is held by the
CPU whose stack says so, `noff` counts the locks, a thread that no CPU executes holds
none, and what a CPU executes is what its scheduler's program point says.  Under it
no `release` and no `pop_off` panics, so a step has only the outcomes listed here.
-/

set_option autoImplicit false

namespace Xv6Fcfs.Sched

open Xv6Fcfs.Lib
open Xv6Fcfs.Process (Slot ProcState)

/-! ## The point a scheduler is at -/

/-- The point of the scheduler whose stack is given; under an interrupt it counts as `top`. -/
def pcOf : List Frame → SchedPc
  | [.scheduler pc] => pc
  | _ => .top

/-- `c->proc`, as far as the point decides it. -/
def SchedPc.proc : SchedPc → Option Slot
  | .swtching first | .away first | .back first => some first
  | _ => none

def SchedPc.host (c : Nat) : SchedPc → Thread
  | .away first => .proc first
  | _ => .sched c

def State.pc (s : State) (c : Nat) : SchedPc := pcOf (s.stack (.sched c))

def Thread.me : Thread → Option Slot
  | .sched _ => none
  | .proc p => some p

def State.held (s : State) (c : Nat) : List Lock := locksOf (s.stack (s.on c))

structure Core (s : State) : Prop where
  ledger : Ledger s.lock s.held
  fit : ∀ t, Fit t.me (s.stack t)
  parked : ∀ t, (∀ c, s.on c ≠ t) → locksOf (s.stack t) = []
  apart : ∀ c d, s.on c = s.on d → c = d
  on : ∀ c, s.on c = (s.pc c).host c
  proc : ∀ c, (s.cpu c).proc = (s.pc c).proc
  noff : ∀ c, s.halted c = none → (s.cpu c).noff = (s.held c).length
  intr : ∀ c, s.halted c = none → 0 < (s.cpu c).noff → (s.cpu c).intr = false

theorem pcOf_ne {stack : List Frame} {pc : SchedPc} (at_pc : pcOf stack = pc) (busy : pc ≠ .top) :
    stack = [.scheduler pc] := by
  unfold pcOf at at_pc
  split at at_pc
  · rw [at_pc]
  · exact absurd at_pc.symm busy

theorem Core.at_pc {s : State} (_ : Core s) {c : Nat} (busy : s.pc c ≠ .top) :
    s.stack (.sched c) = [.scheduler (s.pc c)] := pcOf_ne rfl busy

theorem Core.myproc {s : State} (core : Core s) {c : Nat} {p : Slot} (here : s.on c = .proc p) :
    (s.cpu c).proc = some p := by
  have host := core.on c
  rw [here] at host
  rw [core.proc c]
  cases at_pc : s.pc c <;> simp_all [SchedPc.host, SchedPc.proc]

theorem Core.mine {s : State} (core : Core s) (c : Nat) :
    ∀ p, (s.on c).me = some p → (s.cpu c).proc = some p := by
  intro p own
  cases here : s.on c with
  | sched d => rw [here] at own; cases own
  | proc q =>
      rw [here] at own
      cases own
      exact core.myproc here

theorem Core.legal {s : State} (core : Core s) {c : Nat} {choice : Choice} {mv : Move}
    (run : fetch (s.cpu c) s.mem choice (s.stack (s.on c)) = some mv) :
    Legal (s.on c).me (s.stack (s.on c)) mv :=
  fetch_legal (core.fit _) (core.mine c) run

/-! ## Outcomes -/

/-- What an operation does to the CPU and to the lock words. -/
inductive Does (c : Nat) (cpu : Cpu) (lock : Lock → Option Nat) :
    Op → Cpu → (Lock → Option Nat) → Prop where
  | plain : Does c cpu lock .plain cpu lock
  | acquire (l : Lock) (free : lock l = none) :
      Does c cpu lock (.acquire l) cpu.pushOff (Function.update lock l (some c))
  | release (l : Lock) (owned : lock l = some c) (after : Cpu) (pop : cpu.popOff = .ok after) :
      Does c cpu lock (.release l) after (Function.update lock l none)
  | setproc (p : Option Slot) : Does c cpu lock (.setproc p) { cpu with proc := p } lock
  | intr (on : Bool) : Does c cpu lock (.intr on) { cpu with intr := on } lock
  | intena (was : Bool) : Does c cpu lock (.intena was) { cpu with intena := was } lock
  | context (np : Slot) : Does c cpu lock (.context np) cpu lock

/-- `p->context` of a new process. -/
def Op.place : Op → (Thread → List Frame) → Thread → List Frame
  | .context np, stack => Function.update stack (.proc np) [.forkret np false]
  | _, stack => stack

def State.moved (s : State) (c : Nat) (mv : Move) (cpu : Cpu) (lock : Lock → Option Nat) : State :=
  { s with
    cpu := Function.update s.cpu c cpu
    stack := mv.op.place (Function.update s.stack (s.on c) mv.stack)
    lock := lock
    mem := mv.mem }

def State.interrupted (s : State) (c : Nat) : State :=
  (s.setStack (s.on c) (.handler [] :: s.stack (s.on c))).setCpu c { s.cpu c with intr := false }

/-- The state after `swtch` to thread `t`. -/
def State.switched (s : State) (c : Nat) (mv : Move) (t : Thread) : State :=
  ({ s with mem := mv.mem }.setStack (s.on c) mv.stack).swtchTo c t (resume (s.stack t))

inductive Outcome (s : State) (c : Nat) (mv : Move) : State → Prop where
  | halts (why : Panic) (cpu : Cpu) (same : cpu.proc = (s.cpu c).proc)
      (check : (mv.op = .sched ∧ ∃ p, (s.cpu c).proc = some p ∧ schedCheck s c p = some why) ∨
        (why = .acquire ∧ ∃ l, mv.op = .acquire l ∧ s.lock l = some c) ∨
        mv.op = .panic why ∧ (why = .initExiting ∨ why = .zombieExit)) :
      Outcome s c mv ((s.setCpu c cpu).halt c why)
  | moves (cpu : Cpu) (lock : Lock → Option Nat) (does : Does c (s.cpu c) s.lock mv.op cpu lock) :
      Outcome s c mv (s.moved c mv cpu lock)
  | sched (op : mv.op = .sched) (p : Slot) (self : (s.cpu c).proc = some p)
      (check : schedCheck s c p = none) :
      Outcome s c mv (s.switched c mv (.sched c))
  | swtch (p : Slot) (op : mv.op = .swtch p) :
      Outcome s c mv (s.switched c mv (.proc p))

theorem setCpu_self (s : State) (c : Nat) : s.setCpu c (s.cpu c) = s := by
  simp [State.setCpu]

theorem Cpu.popOff_ok {cpu : Cpu} (some_ : 0 < cpu.noff) (off : cpu.intr = false) :
    cpu.popOff = .ok { cpu with
      noff := cpu.noff - 1, intr := decide (cpu.noff - 1 = 0) && cpu.intena } := by
  have enough : ¬ cpu.noff < 1 := by omega
  simp [Cpu.popOff, off, enough]

/-- A released lock is one the CPU holds, so `pop_off` has something to undo. -/
theorem Core.releases {s : State} (core : Core s) {c : Nat} {choice : Choice} {mv : Move} {l : Lock}
    (alive : s.halted c = none)
    (run : fetch (s.cpu c) s.mem choice (s.stack (s.on c)) = some mv) (op : mv.op = .release l) :
    s.lock l = some c ∧ 0 < (s.cpu c).noff ∧ (s.cpu c).intr = false := by
  have books := (core.legal run).books
  rw [op] at books
  have mem : l ∈ s.held c := books.mem_iff.mpr (by simp)
  have some_ : 0 < (s.cpu c).noff := by
    rw [core.noff c alive]
    exact List.length_pos_of_mem mem
  exact ⟨(core.ledger.owns l c).mp mem, some_, core.intr c alive some_⟩

theorem step_outcome {s s' : State} (core : Core s) {c : Nat} {choice : Choice}
    (run : step s (.step c choice) = some s') :
    s.halted c = none ∧ ∃ mv, fetch (s.cpu c) s.mem choice (s.stack (s.on c)) = some mv ∧
      Outcome s c mv s' := by
  simp only [step] at run
  split at run
  swap
  · cases run
  next alive =>
  obtain ⟨mv, fetched, run⟩ := Option.bind_eq_some_iff.mp run
  refine ⟨alive, mv, fetched, ?_⟩
  have comes := fetch_comes fetched
  unfold perform at run
  obtain ⟨op, mem, stack⟩ := mv
  cases op with
  | plain =>
      cases Option.some.inj run
      have moves : Outcome s c ⟨.plain, mem, stack⟩ _ := .moves (s.cpu c) s.lock .plain
      simpa [State.moved, State.setStack, Op.place] using moves
  | acquire l =>
      cases comes
      simp only at run
      split at run
      · next mine =>
        cases Option.some.inj run
        exact .halts .acquire _ rfl (Or.inr (Or.inl ⟨rfl, l, rfl, mine⟩))
      · split at run
        · next free =>
          cases Option.some.inj run
          exact .moves _ _ (.acquire l free)
        · cases run
  | release l =>
      obtain ⟨owned, some_, off⟩ := core.releases alive fetched rfl
      have pop := Cpu.popOff_ok some_ off
      simp only [owned, ne_eq, not_true_eq_false, if_false, pop] at run
      cases Option.some.inj run
      exact .moves _ _ (.release l owned _ pop)
  | sched =>
      obtain ⟨rfl, -⟩ := comes
      obtain ⟨p, self, run⟩ := Option.bind_eq_some_iff.mp run
      cases check : schedCheck s c p with
      | some why =>
          simp only [check] at run
          cases Option.some.inj run
          have halts : Outcome s c ⟨.sched, s.mem, stack⟩ _ :=
            .halts why (s.cpu c) rfl (Or.inl ⟨rfl, p, self, check⟩)
          rwa [setCpu_self] at halts
      | none =>
          simp only [check] at run
          cases Option.some.inj run
          exact .sched rfl p self check
  | swtch p =>
      cases Option.some.inj run
      exact .swtch p rfl
  | setproc p =>
      cases Option.some.inj run
      exact .moves _ _ (.setproc p)
  | intr on =>
      cases Option.some.inj run
      exact .moves _ _ (.intr on)
  | intena was =>
      cases Option.some.inj run
      exact .moves _ _ (.intena was)
  | context np =>
      cases Option.some.inj run
      have moves : Outcome s c ⟨.context np, mem, stack⟩ _ := .moves (s.cpu c) s.lock (.context np)
      simpa [State.moved, State.setStack, Op.place] using moves
  | panic why =>
      obtain ⟨rfl, kind⟩ := comes
      cases Option.some.inj run
      have halts : Outcome s c ⟨.panic why, s.mem, stack⟩ _ :=
        .halts why (s.cpu c) rfl (Or.inr (Or.inr ⟨rfl, kind⟩))
      rwa [setCpu_self] at halts

theorem step_interrupt {s s' : State} {c : Nat} (run : step s (.interrupt c) = some s') :
    s.halted c = none ∧ (s.cpu c).intr = true ∧ s' = s.interrupted c := by
  simp only [step] at run
  split at run
  · next enabled => exact ⟨enabled.1, enabled.2, (Option.some.inj run).symm⟩
  · cases run

/-! ## How the point of a scheduler changes -/

theorem SchedPc.Idle.host {pc : SchedPc} (idle : pc.Idle) (c : Nat) : pc.host c = .sched c := by
  cases pc <;> first | rfl | exact idle.elim

theorem SchedPc.Idle.proc {pc : SchedPc} (idle : pc.Idle) : pc.proc = none := by
  cases pc <;> first | rfl | exact idle.elim

theorem pcOf_other {stack : List Frame} (other : ∀ pc rest, stack ≠ .scheduler pc :: rest) :
    pcOf stack = .top := by
  unfold pcOf
  split
  · exact absurd rfl (other _ _)
  · rfl

theorem Wakes.pcOf {chan : Option Chan} {rest : List Frame} (wakes : Wakes chan rest) :
    (pcOf rest).Idle := by
  unfold Wakes at wakes
  split at wakes <;> first | exact wakes.elim | (rw [pcOf_other (by simp)]; trivial)

theorem Asks.not_sched {rest : List Frame} (asks : Asks rest) (below : Fit none rest) : False := by
  unfold Asks at asks
  split at asks
  · cases below.1.1
  · cases below.1.1
  · exact asks

/-- A handler on the stack of a scheduler returns to a point where it holds nothing. -/
theorem fetch_idle {cpu : Cpu} {m : Mem} {choice : Choice} {stack : List Frame} {mv : Move}
    (fit : Fit none stack) (other : ∀ pc rest, stack ≠ .scheduler pc :: rest)
    (run : fetch cpu m choice stack = some mv) : (pcOf mv.stack).Idle := by
  have above : ∀ frame rest, (∀ pc, frame ≠ .scheduler pc) → (pcOf (frame :: rest)).Idle := by
    intro frame rest differs
    rw [pcOf_other (by intro pc below same; cases same; exact differs pc rfl)]
    trivial
  cases stack with
  | nil => cases run
  | cons frame rest =>
      obtain ⟨fits, below⟩ := fit
      cases frame with
      | scheduler pc => exact absurd rfl (other pc rest)
      | handler locks =>
          simp only [fetch] at run
          revert run
          fun_cases handler
          all_goals
            intro run
            simp only [Option.some.injEq, reduceCtorEq] at run
            try subst mv
          case case5 =>
            cases rest with
            | nil => trivial
            | cons next deeper =>
                by_cases home : ∃ pc, next = .scheduler pc
                · obtain ⟨pc, rfl⟩ := home
                  have idle := fits.1.2 pc deeper rfl
                  cases deeper with
                  | nil => exact idle
                  | cons => trivial
                · exact above _ _ fun pc same => home ⟨pc, same⟩
          all_goals exact above _ _ (by rintro _ ⟨⟩)
      | wakeup chan todo =>
          simp only [fetch] at run
          revert run
          fun_cases wakeup
          all_goals
            intro run
            cases Option.some.inj run
          · exact fits.2.pcOf
          all_goals exact above _ _ (by rintro _ ⟨⟩)
      | waking chan p todo =>
          cases Option.some.inj run
          exact above _ _ (by rintro _ ⟨⟩)
      | body locks inside => cases fits.1
      | forkret k resumed => cases fits.1
      | sleep p chan lk pc => cases fits.1
      | kkill pid todo =>
          obtain ⟨inside, rfl⟩ := fits
          cases below.1.1
      | killing pid p todo =>
          obtain ⟨inside, rfl⟩ := fits
          cases below.1.1
      | setkilled q locked => exact (fits.2.not_sched below).elim
      | killed q locked => exact (fits.2.not_sched below).elim
      | kexit p status pc => cases fits.1
      | kwait p pc => cases fits.1
      | kfork p pc => cases fits.1
      | acquiresleep l pc =>
          obtain ⟨locks, inside, rfl⟩ := fits
          cases below.1.1
      | releasesleep l pc =>
          obtain ⟨locks, inside, rfl, _⟩ := fits
          cases below.1.1
      | holdingsleep l locked =>
          obtain ⟨locks, inside, rfl⟩ := fits
          cases below.1.1

/-- The moves of a scheduler other than `swtch` stay on its stack, and only `setproc`
changes `c->proc`. -/
theorem scheduler_pc {m : Mem} {pc : SchedPc} {mv : Move} (c : Nat)
    (run : scheduler m [] pc = some mv) (stays : ∀ p, mv.op ≠ .swtch p) :
    ∃ next, mv.stack = [.scheduler next] ∧ pc.host c = .sched c ∧ next.host c = .sched c ∧
      ((∀ p, mv.op ≠ .setproc p) → next.proc = pc.proc) ∧
      ∀ p, mv.op = .setproc p → next.proc = p := by
  revert run
  fun_cases scheduler m [] pc
  all_goals
    intro run
    simp only [goes, Option.some.injEq, reduceCtorEq] at run
    try subst mv
  all_goals simp_all [SchedPc.host, SchedPc.proc]

/-! ## Steps keep the core -/

section Steps
variable {s : State} {c : Nat}

theorem Core.halts (core : Core s) (why : Panic) {cpu : Cpu} (same : cpu.proc = (s.cpu c).proc) :
    Core ((s.setCpu c cpu).halt c why) where
  ledger := core.ledger
  fit := core.fit
  parked := core.parked
  apart := core.apart
  on := core.on
  proc := by
    intro d
    change (Function.update s.cpu c cpu d).proc = (s.pc d).proc
    by_cases here : d = c
    · subst here
      simpa [same] using core.proc d
    · simpa [here] using core.proc d
  noff := by
    intro d alive
    by_cases here : d = c
    · subst here; simp [State.halt] at alive
    · simpa [State.setCpu, State.halt, here, State.held] using
        core.noff d (by simpa [State.halt, here, State.setCpu] using alive)
  intr := by
    intro d alive
    by_cases here : d = c
    · subst here; simp [State.halt] at alive
    · simpa [State.setCpu, State.halt, here] using
        core.intr d (by simpa [State.halt, here, State.setCpu] using alive)

/-! The stacks after an ordinary move: its own, that of a process just made, the others. -/

theorem moved_own {mv : Move} {cpu : Cpu} {lock : Lock → Option Nat}
    (old : ∀ np, mv.op = .context np → s.on c ≠ .proc np) :
    (s.moved c mv cpu lock).stack (s.on c) = mv.stack := by
  unfold State.moved
  cases op : mv.op with
  | context np => exact (Function.update_of_ne (old np op) ..).trans (Function.update_self ..)
  | _ => exact Function.update_self ..

theorem moved_made {mv : Move} {cpu : Cpu} {lock : Lock → Option Nat} {np : Slot}
    (op : mv.op = .context np) : (s.moved c mv cpu lock).stack (.proc np) = [.forkret np false] := by
  unfold State.moved
  rw [op]
  exact Function.update_self ..

theorem moved_other {mv : Move} {cpu : Cpu} {lock : Lock → Option Nat} {t : Thread}
    (other : t ≠ s.on c) (old : ∀ np, mv.op = .context np → t ≠ .proc np) :
    (s.moved c mv cpu lock).stack t = s.stack t := by
  unfold State.moved
  cases op : mv.op with
  | context np => exact (Function.update_of_ne (old np op) ..).trans (Function.update_of_ne other ..)
  | _ => exact Function.update_of_ne other ..

theorem Does.counted {cpu cpu' : Cpu} {lock lock' : Lock → Option Nat} {op : Op}
    {before after : List Lock} (does : Does c cpu lock op cpu' lock') (books : op.Books before after)
    (noff : cpu.noff = before.length) : cpu'.noff = after.length := by
  cases does with
  | acquire l free => simp [Cpu.pushOff, books.length_eq, noff]
  | release l owned cpu' pop =>
      have length : before.length = after.length + 1 := by simpa using books.length_eq
      unfold Cpu.popOff at pop
      split at pop
      · cases pop
      · split at pop
        · cases pop
        · cases pop
          simp [noff, length]
  | _ => exact noff.trans (List.Perm.length_eq books).symm

theorem Does.masked {cpu cpu' : Cpu} {lock lock' : Lock → Option Nat} {op : Op}
    {before after : List Lock} (does : Does c cpu lock op cpu' lock') (books : op.Books before after)
    (noff : cpu.noff = before.length) (intr : 0 < cpu.noff → cpu.intr = false)
    (masked : ∀ on, op = .intr on → before = []) : 0 < cpu'.noff → cpu'.intr = false := by
  intro some_
  cases does with
  | acquire l free => rfl
  | release l owned cpu' pop =>
      unfold Cpu.popOff at pop
      split at pop
      · cases pop
      · split at pop
        · cases pop
        · cases pop
          simp only at some_
          simp [Nat.ne_of_gt some_]
  | intr on =>
      have empty := masked on rfl
      subst empty
      simp only [noff, List.length_nil, Nat.lt_irrefl] at some_
  | _ => exact intr some_

theorem Does.ledger {cpu cpu' : Cpu} {lock lock' : Lock → Option Nat} {op : Op}
    {held held' : Nat → List Lock} (does : Does c cpu lock op cpu' lock')
    (ledger : Ledger lock held) (books : op.Books (held c) (held' c))
    (rest : ∀ d, d ≠ c → held' d = held d) : Ledger lock' held' := by
  have keeps : (held' c).Perm (held c) → Ledger lock held' := by
    intro same
    refine ledger.keep ?_
    intro d
    by_cases here : d = c
    · subst here; exact same
    · rw [rest d here]
  cases does with
  | acquire l free =>
      exact ledger.acquire free (Function.update_self ..)
        (fun k other => Function.update_of_ne other ..)
        books rest
  | release l owned cpu' pop =>
      exact ledger.release (Function.update_self ..) (fun k other => Function.update_of_ne other ..)
        books rest
  | _ => exact keeps books

theorem Does.proc {cpu cpu' : Cpu} {lock lock' : Lock → Option Nat} {op : Op}
    (does : Does c cpu lock op cpu' lock') :
    ((∀ p, op ≠ .setproc p) → cpu'.proc = cpu.proc) ∧ ∀ p, op = .setproc p → cpu'.proc = p := by
  cases does with
  | release l owned cpu' pop =>
      unfold Cpu.popOff at pop
      split at pop
      · cases pop
      · split at pop
        · cases pop
        · cases pop
          exact ⟨fun _ => rfl, by rintro _ ⟨⟩⟩
  | setproc p => exact ⟨fun other => absurd rfl (other p), fun q same => by cases same; rfl⟩
  | _ => exact ⟨fun _ => rfl, by rintro _ ⟨⟩⟩

theorem Fit.scheduler_alone {me : Option Slot} {pc : SchedPc} {rest : List Frame}
    (fit : Fit me (.scheduler pc :: rest)) : rest = [] := by
  obtain ⟨fits, _⟩ := fit
  cases pc <;> first | exact fits.2 | exact fits.2.1

theorem Fit.me_none {me : Option Slot} {pc : SchedPc} {rest : List Frame}
    (fit : Fit me (.scheduler pc :: rest)) : me = none := by
  obtain ⟨fits, _⟩ := fit
  cases pc <;> exact fits.1

theorem Core.seat (core : Core s) (c : Nat) : s.on c = .sched c ∨ ∃ p, s.on c = .proc p := by
  rw [core.on c]
  cases s.pc c <;> simp [SchedPc.host]

theorem Core.sched_own (core : Core s) {c d : Nat} (here : s.on c = .sched d) : d = c := by
  rcases core.seat c with own | ⟨p, other⟩
  · rw [here] at own; cases own; rfl
  · rw [here] at other; cases other

/-- A CPU with a frame of `scheduler` on top executes the stack of its scheduler. -/
theorem Core.scheduler_on (core : Core s) {pc : SchedPc} {rest : List Frame}
    (top : s.stack (s.on c) = .scheduler pc :: rest) :
    s.on c = .sched c ∧ rest = [] ∧ s.pc c = pc := by
  have fit := core.fit (s.on c)
  rw [top] at fit
  have on : s.on c = .sched c := by
    rcases core.seat c with own | ⟨p, own⟩
    · exact own
    · have none := fit.me_none
      rw [own] at none
      cases none
  cases fit.scheduler_alone
  refine ⟨on, rfl, ?_⟩
  unfold State.pc
  rw [← on, top]
  rfl

variable {choice : Choice} {mv : Move} {cpu : Cpu} {lock : Lock → Option Nat}

theorem Core.pc_moved (core : Core s) (here : s.on c = .sched c)
    (run : fetch (s.cpu c) s.mem choice (s.stack (s.on c)) = some mv)
    (stays : ∀ p, mv.op ≠ .swtch p) :
    (pcOf mv.stack).host c = .sched c ∧
      ((∀ p, mv.op ≠ .setproc p) → (pcOf mv.stack).proc = (s.pc c).proc) ∧
      ∀ p, mv.op = .setproc p → (pcOf mv.stack).proc = p := by
  have fit := core.fit (.sched c)
  rw [here] at run
  unfold State.pc
  by_cases top : ∃ pc rest, s.stack (.sched c) = .scheduler pc :: rest
  · obtain ⟨pc, rest, stack⟩ := top
    rw [stack] at fit run
    cases fit.scheduler_alone
    obtain ⟨next, after, _, host, proc⟩ := scheduler_pc c run stays
    rw [stack, after]
    exact ⟨host, proc⟩
  · have other : ∀ pc rest, s.stack (.sched c) ≠ .scheduler pc :: rest := fun pc rest same =>
      top ⟨pc, rest, same⟩
    have idle := fetch_idle fit other run
    rw [pcOf_other other]
    refine ⟨idle.host c, fun _ => idle.proc, ?_⟩
    intro p op
    have comes := fetch_comes run
    rw [op] at comes
    cases p with
    | none => obtain ⟨_, q, rest, stack, _⟩ := comes; exact absurd stack (other _ _)
    | some p => obtain ⟨_, rest, stack, _⟩ := comes; exact absurd stack (other _ _)

theorem Core.intr_quiet (core : Core s)
    (run : fetch (s.cpu c) s.mem choice (s.stack (s.on c)) = some mv) {on : Bool}
    (op : mv.op = .intr on) : locksOf (s.stack (s.on c)) = [] := by
  have fit := core.fit (s.on c)
  have comes := fetch_comes run
  rw [op] at comes
  obtain ⟨_, ⟨inside, rest, stack⟩ | ⟨rest, stack⟩ | ⟨pc, rest, stack, point⟩⟩ := comes
  · rw [stack] at fit ⊢
    obtain ⟨⟨_, rfl, _⟩, _⟩ := fit
    rfl
  · rw [stack] at fit ⊢
    simpa [Frame.held] using fit.1.1.1
  · rw [stack] at fit ⊢
    cases fit.scheduler_alone
    rcases point with rfl | rfl <;> rfl

theorem Core.moved_pc (core : Core s) (c : Nat) (mv : Move) (cpu : Cpu)
    (lock : Lock → Option Nat) (d : Nat) :
    (s.on c = .sched c ∧ d = c ∧ (s.moved c mv cpu lock).pc d = pcOf mv.stack) ∨
      (s.on c ≠ .sched d ∧ (s.moved c mv cpu lock).pc d = s.pc d) := by
  unfold State.pc
  by_cases here : s.on c = .sched d
  · cases core.sched_own here
    refine Or.inl ⟨here, rfl, ?_⟩
    rw [← here, moved_own]
    intro np _ same
    rw [here] at same
    cases same
  · refine Or.inr ⟨here, ?_⟩
    rw [moved_other (Ne.symm here)]
    intro np _ same
    cases same

theorem Core.moved_held (core : Core s)
    (fresh : ∀ np, mv.op = .context np → ∀ d, s.on d ≠ .proc np) (d : Nat) :
    (s.moved c mv cpu lock).held d = if d = c then locksOf mv.stack else s.held d := by
  change locksOf ((s.moved c mv cpu lock).stack (s.on d)) = _
  split
  · next here =>
    subst here
    rw [moved_own fun np op => fresh np op d]
  · next other =>
    rw [moved_other (fun same => other (core.apart d c same)) fun np op => fresh np op d]
    rfl

theorem Core.moves (core : Core s) (alive : s.halted c = none)
    (run : fetch (s.cpu c) s.mem choice (s.stack (s.on c)) = some mv)
    (does : Does c (s.cpu c) s.lock mv.op cpu lock)
    (fresh : ∀ np, mv.op = .context np → ∀ d, s.on d ≠ .proc np) :
    Core (s.moved c mv cpu lock) := by
  have legal := core.legal run
  have stays : ∀ p, mv.op ≠ .swtch p := by
    intro p op
    rw [op] at does
    cases does
  have heldSelf : (s.moved c mv cpu lock).held c = locksOf mv.stack := by
    rw [core.moved_held fresh, if_pos rfl]
  have heldOther : ∀ d, d ≠ c → (s.moved c mv cpu lock).held d = s.held d := by
    intro d other
    rw [core.moved_held fresh, if_neg other]
  refine ⟨?_, ?_, ?_, core.apart, ?_, ?_, ?_, ?_⟩
  · refine does.ledger core.ledger ?_ heldOther
    rw [heldSelf]
    exact legal.books
  · intro t
    by_cases made : ∃ np, mv.op = .context np ∧ t = .proc np
    · obtain ⟨np, op, rfl⟩ := made
      rw [moved_made op]
      exact ⟨⟨rfl, rfl⟩, trivial⟩
    · have notFresh : ∀ np, mv.op = .context np → t ≠ .proc np := fun np op same =>
        made ⟨np, op, same⟩
      by_cases own : t = s.on c
      · subst own
        rw [moved_own notFresh]
        exact legal.fit
      · rw [moved_other own notFresh]
        exact core.fit t
  · intro t off
    by_cases made : ∃ np, mv.op = .context np ∧ t = .proc np
    · obtain ⟨np, op, rfl⟩ := made
      rw [moved_made op]
      rfl
    · have other : t ≠ s.on c := fun same => off c same.symm
      rw [moved_other other fun np op same => made ⟨np, op, same⟩]
      exact core.parked t off
  · intro d
    change s.on d = _
    rcases core.moved_pc c mv cpu lock d with ⟨here, rfl, pc⟩ | ⟨_, pc⟩
    · rw [pc, here, (core.pc_moved here run stays).1]
    · rw [pc]
      exact core.on d
  · intro d
    have procs := does.proc
    rcases core.moved_pc c mv cpu lock d with ⟨here, rfl, pc⟩ | ⟨other, pc⟩
    · obtain ⟨_, same, set⟩ := core.pc_moved here run stays
      rw [pc]
      simp only [State.moved, Function.update_self]
      by_cases op : ∃ p, mv.op = .setproc p
      · obtain ⟨p, op⟩ := op
        rw [procs.2 p op, set p op]
      · have none : ∀ p, mv.op ≠ .setproc p := fun p same => op ⟨p, same⟩
        rw [procs.1 none, same none]
        exact core.proc d
    · rw [pc]
      by_cases here : d = c
      · subst here
        have none : ∀ p, mv.op ≠ .setproc p := by
          -- `setproc` is a move of the scheduler, which this CPU does not execute
          intro p op
          have comes := fetch_comes run
          rw [op] at comes
          have top : ∃ pc rest, s.stack (s.on d) = .scheduler pc :: rest := by
            cases p with
            | none => obtain ⟨_, q, rest, stack, _⟩ := comes; exact ⟨_, _, stack⟩
            | some p => obtain ⟨_, rest, stack, _⟩ := comes; exact ⟨_, _, stack⟩
          obtain ⟨pc, rest, stack⟩ := top
          exact other (core.scheduler_on stack).1
        simp only [State.moved, Function.update_self, procs.1 none]
        exact core.proc d
      · simp only [State.moved, Function.update_of_ne here]
        exact core.proc d
  · intro d alive'
    by_cases here : d = c
    · subst here
      rw [heldSelf]
      simp only [State.moved, Function.update_self]
      exact does.counted legal.books (core.noff d alive)
    · rw [heldOther d here]
      simp only [State.moved, Function.update_of_ne here]
      exact core.noff d alive'
  · intro d alive'
    by_cases here : d = c
    · subst here
      simp only [State.moved, Function.update_self]
      refine does.masked legal.books (core.noff d alive) (core.intr d alive) ?_
      intro on op
      exact core.intr_quiet run op
    · simp only [State.moved, Function.update_of_ne here]
      exact core.intr d alive'

/-! The stacks after a context switch to thread `t`. -/

section Switch
variable {t : Thread}

theorem switched_to : (s.switched c mv t).stack t = resume (s.stack t) :=
  Function.update_self ..

theorem switched_from (differ : s.on c ≠ t) : (s.switched c mv t).stack (s.on c) = mv.stack :=
  (Function.update_of_ne differ ..).trans (Function.update_self ..)

theorem switched_other {u : Thread} (target : u ≠ t) (source : u ≠ s.on c) :
    (s.switched c mv t).stack u = s.stack u :=
  (Function.update_of_ne target ..).trans (Function.update_of_ne source ..)

theorem switched_on (d : Nat) : (s.switched c mv t).on d = if d = c then t else s.on d := by
  by_cases here : d = c
  · subst here
    simp [State.switched, State.swtchTo]
  · simp [State.switched, State.swtchTo, State.setStack, here]

theorem switched_pc_other {d : Nat} (target : t ≠ .sched d) (source : s.on c ≠ .sched d) :
    (s.switched c mv t).pc d = s.pc d := by
  unfold State.pc
  rw [switched_other (Ne.symm target) (Ne.symm source)]

/-- The lock of a context switch passes from the thread that leaves the CPU to the one that
takes it over. -/
theorem Core.switched (core : Core s) (off : ∀ d, s.on d ≠ t) (fit : Fit t.me (resume (s.stack t)))
    (fitLeft : Fit (s.on c).me mv.stack) (left : locksOf mv.stack = [])
    (handed : (locksOf (resume (s.stack t))).Perm (s.held c))
    (host : ∀ d, (s.switched c mv t).on d = ((s.switched c mv t).pc d).host d)
    (proc : ∀ d, (s.cpu d).proc = ((s.switched c mv t).pc d).proc) : Core (s.switched c mv t) := by
  have away : s.on c ≠ t := off c
  have heldSelf : (s.switched c mv t).held c = locksOf (resume (s.stack t)) := by
    unfold State.held
    rw [switched_on, if_pos rfl, switched_to]
  have heldOther : ∀ d, d ≠ c → (s.switched c mv t).held d = s.held d := by
    intro d other
    unfold State.held
    rw [switched_on, if_neg other, switched_other (off d) fun same => other (core.apart d c same)]
  refine ⟨?_, ?_, ?_, ?_, host, proc, ?_, ?_⟩
  · refine core.ledger.keep ?_
    intro d
    by_cases here : d = c
    · subst here
      rw [heldSelf]
      exact handed
    · rw [heldOther d here]
  · intro u
    by_cases target : u = t
    · subst target
      rw [switched_to]
      exact fit
    · by_cases source : u = s.on c
      · subst source
        rw [switched_from away]
        exact fitLeft
      · rw [switched_other target source]
        exact core.fit u
  · intro u idle
    have target : u ≠ t := by
      intro same
      have := idle c
      rw [switched_on, if_pos rfl] at this
      exact this same.symm
    by_cases source : u = s.on c
    · subst source
      rw [switched_from away]
      exact left
    · rw [switched_other target source]
      refine core.parked u ?_
      intro d here
      by_cases own : d = c
      · subst own
        exact source here.symm
      · have := idle d
        rw [switched_on, if_neg own] at this
        exact this here
  · intro d e same
    rw [switched_on, switched_on] at same
    by_cases dHere : d = c <;> by_cases eHere : e = c
    · rw [dHere, eHere]
    · rw [if_pos dHere, if_neg eHere] at same
      exact absurd same.symm (off e)
    · rw [if_neg dHere, if_pos eHere] at same
      exact absurd same (off d)
    · rw [if_neg dHere, if_neg eHere] at same
      exact core.apart d e same
  · intro d alive
    by_cases here : d = c
    · subst here
      rw [heldSelf, handed.length_eq]
      exact core.noff d alive
    · rw [heldOther d here]
      exact core.noff d alive
  · exact core.intr

end Switch

theorem Core.interrupt_quiet (core : Core s) (alive : s.halted c = none)
    (on : (s.cpu c).intr = true) : s.held c = [] := by
  have none : ¬ 0 < (s.cpu c).noff := by
    intro some_
    rw [core.intr c alive some_] at on
    cases on
  have counted := core.noff c alive
  exact List.eq_nil_of_length_eq_zero (by omega)

theorem interrupted_own : (s.interrupted c).stack (s.on c) = .handler [] :: s.stack (s.on c) :=
  Function.update_self ..

theorem interrupted_other {t : Thread} (other : t ≠ s.on c) :
    (s.interrupted c).stack t = s.stack t := Function.update_of_ne other ..

theorem Core.quiet_idle (core : Core s) (quiet : s.held c = []) (here : s.on c = .sched c) :
    (s.pc c).Idle := by
  have host := core.on c
  rw [here] at host
  by_cases top : s.pc c = .top
  · rw [top]; trivial
  · have empty : (s.pc c).held = [] := by
      unfold State.held at quiet
      rw [here, core.at_pc top] at quiet
      simpa [Frame.held] using quiet
    cases point : s.pc c with
    | scan todo first =>
        cases first with
        | none => trivial
        | some f => rw [point] at empty; cases empty
    | top => trivial
    | window => trivial
    | away f => rw [point] at host; cases host
    | _ => rw [point] at empty; cases empty

theorem Core.interrupted_pc (core : Core s) (quiet : s.held c = []) (d : Nat) :
    (s.interrupted c).pc d = s.pc d ∨
      (d = c ∧ (s.interrupted c).pc d = .top ∧ (s.pc d).Idle) := by
  by_cases here : s.on c = .sched d
  · cases core.sched_own here
    refine Or.inr ⟨rfl, ?_, core.quiet_idle quiet here⟩
    unfold State.pc
    rw [← here, interrupted_own]
    rfl
  · refine Or.inl ?_
    unfold State.pc
    rw [interrupted_other (Ne.symm here)]

theorem Core.interrupt (core : Core s) (alive : s.halted c = none) (on : (s.cpu c).intr = true) :
    Core (s.interrupted c) := by
  have quiet := core.interrupt_quiet alive on
  have pc := core.interrupted_pc quiet
  have held : ∀ d, (s.interrupted c).held d = s.held d := by
    intro d
    change locksOf ((s.interrupted c).stack (s.on d)) = locksOf (s.stack (s.on d))
    by_cases here : s.on d = s.on c
    · rw [here, interrupted_own]; rfl
    · rw [interrupted_other here]
  refine ⟨?_, ?_, ?_, core.apart, ?_, ?_, ?_, ?_⟩
  · refine core.ledger.keep ?_
    intro d
    rw [held d]
  · intro t
    by_cases here : t = s.on c
    · subst here
      rw [interrupted_own]
      refine ⟨⟨⟨quiet, ?_⟩, ?_⟩, core.fit _⟩
      · intro pc below stack
        have fit := core.fit (s.on c)
        rw [stack] at fit
        cases fit.scheduler_alone
        rcases core.seat c with sched | ⟨p, proc⟩
        · have := core.quiet_idle quiet sched
          unfold State.pc at this
          rw [← sched, stack] at this
          exact this
        · have none := fit.me_none
          rw [proc] at none
          cases none
      · intro l inside
        cases inside
    · rw [interrupted_other here]
      exact core.fit t
  · intro t off
    have here : t ≠ s.on c := fun same => off c same.symm
    rw [interrupted_other here]
    exact core.parked t off
  · intro d
    change s.on d = _
    rcases pc d with same | ⟨rfl, top, wasIdle⟩
    · rw [same]; exact core.on d
    · rw [top, core.on d, wasIdle.host]; rfl
  · intro d
    have proc : ((s.interrupted c).cpu d).proc = (s.cpu d).proc := by
      by_cases here : d = c
      · subst here
        simp [State.interrupted, State.setCpu]
      · simp [State.interrupted, State.setCpu, State.setStack, here]
    rw [proc, core.proc d]
    rcases pc d with same | ⟨rfl, top, wasIdle⟩
    · rw [same]
    · rw [top, wasIdle.proc]; rfl
  · intro d aliveD
    rw [held d]
    by_cases here : d = c
    · subst here
      simpa [State.interrupted, State.setCpu] using core.noff d alive
    · simpa [State.interrupted, State.setCpu, State.setStack, here] using core.noff d aliveD
  · intro d aliveD
    by_cases here : d = c
    · subst here
      simp [State.interrupted, State.setCpu]
    · simpa [State.interrupted, State.setCpu, State.setStack, here] using core.intr d aliveD

end Steps

end Xv6Fcfs.Sched
