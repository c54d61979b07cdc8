import Xv6Fcfs.Sched.Order

/-!
# One CPU for each process

A process whose lock is free is `RUNNING` exactly when one CPU has it as `c->proc`.  The lock
with which a scheduler enters `swtch` is released once by the process it switches to, and the
lock with which a process calls `sched` once by the scheduler.  None of the checks of `sched`
fails when it is called from `kexit`, or from a `sleep` whose caller held no lock but `lk`.
-/

set_option autoImplicit false

namespace Xv6Fcfs.Sched

open Xv6Fcfs.Lib
open Xv6Fcfs.Process (Slot ProcState)

/-! ## At the call of `sched` -/

/-- The process is about to call `sched`. -/
inductive AtSched : List Frame → Prop where
  | sleep (p : Slot) (chan : Chan) (lk : Lock) (rest : List Frame) :
      AtSched (.sleep p chan lk .sched :: rest)
  | kexit (p : Slot) (status : Int) (rest : List Frame) : AtSched (.kexit p status .sched :: rest)

theorem AtSched.holds {stack : List Frame} (here : AtSched stack) :
    ∃ p, Lock.proc p ∈ locksOf stack := by
  cases here with
  | sleep p chan lk rest => exact ⟨p, by simp [Frame.held, SleepPc.held]⟩
  | kexit p status rest => exact ⟨p, by simp [Frame.held, KexitPc.held]⟩

theorem AtSched.not_free {stack : List Frame} (here : AtSched stack) (free : NoProc (locksOf stack)) :
    False := by
  obtain ⟨p, inside⟩ := here.holds
  cases free _ inside

theorem fetch_sched {cpu : Cpu} {m : Mem} {choice : Choice} {me : Option Slot}
    {stack : List Frame} {mv : Move} (fit : Fit me stack)
    (run : fetch cpu m choice stack = some mv) (here : AtSched mv.stack) :
    ∃ p, me = some p ∧ ((mv.mem.view p).1 = .sleeping ∨ (mv.mem.view p).1 = .zombie) := by
  revert run
  fun_cases fetch cpu m choice stack
  all_goals
    intro run
    try simp only [Option.bind_eq_some_iff, reduceCtorEq] at run
  case case2 =>
    revert run
    fun_cases scheduler
    all_goals
      intro run
      simp only [goes, Option.some.injEq, reduceCtorEq] at run
      try subst mv
    all_goals cases here
  case case3 =>
    obtain ⟨self, _, run⟩ := run
    revert run
    fun_cases body
    all_goals
      intro run
      simp only [Option.some.injEq, reduceCtorEq] at run
      try subst mv
    all_goals cases here
  case case4 =>
    revert run
    fun_cases handler
    all_goals
      intro run
      simp only [Option.some.injEq, reduceCtorEq] at run
      try subst mv
    case case5 => exact (here.not_free (fit.1.1.1 ▸ noProc_nil)).elim
    all_goals cases here
  case case6 =>
    obtain ⟨self, _, run⟩ := run
    cases Option.some.inj run
    cases here
  case case7 p chan lk pc rest =>
    obtain ⟨⟨own, free, caller, _⟩, below⟩ := fit
    cases pc <;> simp only [sleep, Option.some.injEq, reduceCtorEq] at run <;> subst mv
    case mark => exact ⟨p, own, Or.inl (by rw [view_setProc, if_pos rfl])⟩
    case reacquire =>
      rcases caller.cases with
        ⟨_, _, _, _, rfl, _, _⟩ | ⟨_, rfl, rfl, _⟩ | ⟨_, _, rfl, rfl, _⟩ <;> cases here
    all_goals cases here
  case case8 =>
    revert run
    fun_cases wakeup
    all_goals
      intro run
      cases Option.some.inj run
    · exact (here.not_free fit.1.1).elim
    all_goals cases here
  case case9 =>
    cases Option.some.inj run
    cases here
  case case10 pid todo rest =>
    obtain ⟨⟨inside, rfl⟩, _⟩ := fit
    cases todo <;> cases Option.some.inj run <;> cases here
  case case11 =>
    obtain ⟨⟨inside, rfl⟩, _⟩ := fit
    rw [killing] at run
    split at run <;> cases Option.some.inj run <;> cases here
  case case12 q locked rest =>
    cases locked <;> cases Option.some.inj run
    · cases here
    · exact (here.not_free fit.1.1).elim
  case case13 q locked rest =>
    obtain ⟨self, _, run⟩ := run
    cases locked <;> cases Option.some.inj run
    · cases here
    · exact (here.not_free fit.1.1).elim
  case case14 p status pc rest =>
    obtain ⟨⟨own, inside, rfl⟩, below⟩ := fit
    revert run
    fun_cases kexit
    all_goals
      intro run
      cases Option.some.inj run
    case case7 => exact ⟨p, own, Or.inr (by rw [view_setProc, if_pos rfl])⟩
    all_goals cases here
  case case15 =>
    obtain ⟨⟨own, inside, rfl⟩, below⟩ := fit
    revert run
    fun_cases kwait
    all_goals
      intro run
      simp only [goes, Option.some.injEq, reduceCtorEq] at run
      try subst mv
    all_goals cases here
  case case16 =>
    obtain ⟨⟨own, inside, rfl⟩, below⟩ := fit
    revert run
    fun_cases kfork
    all_goals
      intro run
      cases Option.some.inj run
      cases here
  case case17 =>
    obtain ⟨self, _, run⟩ := run
    obtain ⟨⟨locks, inside, rfl⟩, below⟩ := fit
    revert run
    fun_cases acquiresleep
    all_goals
      intro run
      simp only [Option.some.injEq, reduceCtorEq] at run
      try subst mv
    all_goals cases here
  case case18 l pc rest =>
    obtain ⟨⟨locks, inside, rfl, _⟩, below⟩ := fit
    cases pc <;> cases Option.some.inj run <;> cases here
  case case19 l locked rest =>
    obtain ⟨self, _, run⟩ := run
    obtain ⟨⟨locks, inside, rfl⟩, below⟩ := fit
    cases locked <;> cases Option.some.inj run <;> cases here

/-- Why a CPU may have panicked, and where it then stands: of the checks of `sched` only the one
of `noff` can fail, in a `sleep` whose caller holds another lock. -/
inductive Panicked (stack : List Frame) : Panic → Prop where
  | acquire : Panicked stack .acquire
  | initExiting : Panicked stack .initExiting
  | zombieExit : Panicked stack .zombieExit
  | locks (p : Slot) (chan : Chan) (lk : Lock) (rest : List Frame)
      (point : stack = .sleep p chan lk .sched :: rest) (more : locksOf rest ≠ []) :
      Panicked stack .schedLocks

structure Calls (s : State) : Prop where
  marked : ∀ p, AtSched (s.stack (.proc p)) → s.procState p ≠ .running
  panicked : ∀ c why, s.halted c = some why → Panicked (s.stack (s.on c)) why

theorem AtSched.own {p : Slot} {stack : List Frame} (here : AtSched stack) (fit : Fit (some p) stack) :
    Lock.proc p ∈ locksOf stack := by
  cases here with
  | sleep q chan lk rest =>
      cases fit.1.1
      simp [Frame.held, SleepPc.held]
  | kexit q status rest =>
      cases fit.1.1
      simp [Frame.held, KexitPc.held]

section Steps
variable {s s' : State} {c : Nat} {mv : Move} {choice : Choice}

/-- A process about to call `sched` is executed by a CPU that holds its lock. -/
theorem Core.at_sched (core : Core s) {p : Slot} (here : AtSched (s.stack (.proc p))) :
    ∃ d, s.on d = .proc p ∧ s.lock (.proc p) = some d := by
  have inside := here.own (core.fit (.proc p))
  by_cases running : ∃ d, s.on d = .proc p
  · obtain ⟨d, on⟩ := running
    refine ⟨d, on, (core.ledger.owns _ _).mp ?_⟩
    unfold State.held
    rw [on]
    exact inside
  · rw [core.parked (.proc p) fun d on => running ⟨d, on⟩] at inside
    cases inside

theorem step_marked {e : Event} (run : step s e = some s') (inv : Inv s) (calls : Calls s) (p : Slot)
    (here : AtSched (s'.stack (.proc p))) : s'.procState p ≠ .running := by
  have inv' := step_inv run inv
  obtain ⟨d, on, _⟩ := inv'.core.at_sched here
  -- a step of another CPU changes neither the stack nor the state of the process
  have elsewhere : (∀ choice, e ≠ .step d choice) → e ≠ .interrupt d → s'.procState p ≠ .running := by
    intro other quiet now
    obtain ⟨sameOn, sameStack, _, _⟩ := step_elsewhere run inv other quiet
    rw [on] at sameOn
    rw [← sameOn] at sameStack
    rw [sameStack] at here
    obtain ⟨c, choice, rfl, onC, point, _⟩ := step_running run inv (calls.marked p here) now
    obtain ⟨d', onD, owned⟩ := inv.core.at_sched here
    have mine := (chosen_unclaimed inv.core inv.table point).2.1
    rw [owned] at mine
    cases Option.some.inj mine
    rw [onC] at onD
    cases onD
  cases e with
  | interrupt c =>
      by_cases own : c = d
      · subst own
        obtain ⟨_, _, rfl⟩ := step_interrupt run
        have home : s.on c = .proc p := on
        rw [← home, interrupted_own] at here
        cases here
      · exact elsewhere (by rintro _ ⟨⟩) (by intro same; cases same; exact own rfl)
  | step c choice =>
      by_cases own : c = d
      swap
      · exact elsewhere (by intro _ same; cases same; exact own rfl) (by rintro ⟨⟩)
      subst own
      obtain ⟨core, table⟩ := inv
      obtain ⟨alive, mv, fetched, outcome⟩ := step_outcome core run
      cases outcome with
      | halts why cpu same => exact calls.marked p here
      | moves cpu lock does =>
          have home : s.on c = .proc p := on
          rw [← home, moved_own fun np op => core.context_off table fetched np op c] at here
          obtain ⟨q, me, state⟩ := fetch_sched (core.fit _) fetched here
          rw [home] at me
          cases me
          intro now
          change (mv.mem.view p).1 = _ at now
          rw [now] at state
          rcases state with state | state <;> cases state
      | sched op q self check =>
          rw [switched_on, if_pos rfl] at on
          cases on
      | swtch q op =>
          rw [switched_on, if_pos rfl] at on
          cases on
          obtain ⟨_, _, _, _, _, _, _, ready⟩ := swtch_target core table fetched op
          rw [switched_to] at here
          cases ready with
          | fresh same => rw [same] at here; cases here
          | asleep chan lk was rest same => rw [same] at here; cases here

theorem schedCheck_some {p : Slot} {why : Panic} (check : schedCheck s c p = some why)
    (owned : s.lock (.proc p) = some c) (stopped : s.procState p ≠ .running)
    (off : (s.cpu c).intr = false) : why = .schedLocks ∧ (s.cpu c).noff ≠ 1 := by
  have state : ¬ (s.mem.proc p).state = .running := stopped
  unfold schedCheck at check
  simp only [owned, ne_eq, not_true_eq_false, if_false, state, off, Bool.false_eq_true] at check
  split at check
  · next more =>
    cases check
    exact ⟨rfl, more⟩
  · cases check

/-- A failing check of `sched` is that of `noff`, in a `sleep` with another lock held. -/
theorem sched_panics (core : Core s) (calls : Calls s) (alive : s.halted c = none)
    (run : fetch (s.cpu c) s.mem choice (s.stack (s.on c)) = some mv) (op : mv.op = .sched)
    {p : Slot} (self : (s.cpu c).proc = some p) {why : Panic} (check : schedCheck s c p = some why) :
    Panicked (s.stack (s.on c)) why := by
  obtain ⟨_, q, rest, on, _, held, _, source⟩ := sched_source core run op
  rw [core.myproc on] at self
  cases Option.some.inj self
  have here : AtSched (s.stack (.proc p)) := by
    rcases source with ⟨chan, lk, was, stack, _⟩ | ⟨status, stack, _⟩
    · rw [stack]; exact .sleep ..
    · rw [stack]; exact .kexit ..
  have owned : s.lock (.proc p) = some c := (core.ledger.owns _ _).mp (by rw [held]; simp)
  have counted := core.noff c alive
  rw [held, List.length_cons] at counted
  have off := core.intr c alive (by omega)
  obtain ⟨rfl, more⟩ := schedCheck_some check owned (calls.marked p here) off
  have below : locksOf rest ≠ [] := by
    intro empty
    rw [empty] at counted
    exact more counted
  rw [on]
  rcases source with ⟨chan, lk, was, stack, _⟩ | ⟨status, stack, _⟩
  · exact .locks p chan lk rest stack below
  · have fit := core.fit (.proc p)
    rw [stack] at fit
    obtain ⟨⟨_, inside, rfl⟩, _⟩ := fit
    exact absurd rfl below

theorem step_calls {e : Event} (run : step s e = some s') (inv : Inv s) (calls : Calls s) :
    Calls s' := by
  refine ⟨step_marked run inv calls, ?_⟩
  intro d why stopped
  by_cases acts : (∃ choice, e = .step d choice) ∨ e = .interrupt d
  swap
  · obtain ⟨on, stack, _, halted⟩ := step_elsewhere run inv
      (fun choice same => acts (Or.inl ⟨choice, same⟩)) (fun same => acts (Or.inr same))
    rw [halted] at stopped
    rw [on, stack]
    exact calls.panicked d why stopped
  rcases acts with ⟨choice, rfl⟩ | rfl
  · obtain ⟨alive, mv, fetched, outcome⟩ := step_outcome inv.core run
    cases outcome with
    | halts reason cpu same check =>
        have : reason = why := by simpa [State.halt] using stopped
        subst this
        change Panicked (s.stack (s.on d)) reason
        rcases check with ⟨op, p, self, check⟩ | ⟨rfl, _⟩ | ⟨_, rfl | rfl⟩
        · exact sched_panics inv.core calls alive fetched op self check
        · exact .acquire
        · exact .initExiting
        · exact .zombieExit
    | moves => exact absurd alive (by rw [show s.halted d = some why from stopped]; rintro ⟨⟩)
    | sched => exact absurd alive (by rw [show s.halted d = some why from stopped]; rintro ⟨⟩)
    | swtch => exact absurd alive (by rw [show s.halted d = some why from stopped]; rintro ⟨⟩)
  · obtain ⟨alive, _, rfl⟩ := step_interrupt run
    exact absurd alive (by rw [show s.halted d = some why from stopped]; rintro ⟨⟩)

end Steps

/-! ## The lock of a context switch -/

/-- CPU `c` holds `l` and nothing else. -/
def HoldsOnly (s : State) (c : Nat) (l : Lock) : Prop :=
  (∀ k, s.lock k = some c ↔ k = l) ∧ (s.cpu c).noff = 1

def HoldsNone (s : State) (c : Nat) : Prop := (∀ k, s.lock k ≠ some c) ∧ (s.cpu c).noff = 0

/-- The scheduler of CPU `c` is at the given point and the CPU executes it. -/
def At (s : State) (c : Nat) (pc : SchedPc) : Prop :=
  s.on c = .sched c ∧ s.stack (.sched c) = [.scheduler pc]

/-- The process has been switched to and has not released its lock: it is in `forkret` or in the
tail of `sleep`. -/
inductive Handed (s : State) (c : Nat) (p : Slot) : Prop where
  | forkret (on : s.on c = .proc p) (top : s.stack (.proc p) = [.forkret p true])
  | sleep (on : s.on c = .proc p) (chan : Chan) (lk : Lock) (pc : SleepPc) (rest : List Frame)
      (top : s.stack (.proc p) = .sleep p chan lk pc :: rest)
      (tail : (∃ was, pc = .woken was) ∨ pc = .tidy)

/-- The scheduler has been switched back to and has not released the lock of `p`. -/
def HandedBack (s : State) (c : Nat) (p : Slot) : Prop := At s c (.back p) ∨ At s c (.done p)

section Switches
variable {s s' : State} {c : Nat} {p : Slot}

theorem Core.holdsOnly {l : Lock} (core : Core s) (alive : s.halted c = none)
    (held : s.held c = [l]) : HoldsOnly s c l := by
  refine ⟨?_, ?_⟩
  · intro k
    rw [← core.ledger.owns k c, held]
    exact List.mem_singleton
  · rw [core.noff c alive, held]
    rfl

theorem Core.holdsNone (core : Core s) (alive : s.halted c = none) (held : s.held c = []) :
    HoldsNone s c := by
  refine ⟨?_, ?_⟩
  · intro k owned
    have := (core.ledger.owns k c).mpr owned
    rw [held] at this
    cases this
  · rw [core.noff c alive, held]
    rfl

theorem At.pc {pc : SchedPc} (here : At s c pc) : s.pc c = pc := by
  unfold State.pc
  rw [here.2]
  rfl

theorem At.held {pc : SchedPc} (here : At s c pc) : s.held c = pc.held := by
  unfold State.held
  rw [here.1, here.2]
  simp [Frame.held]

theorem Handed.held (core : Core s) (handed : Handed s c p) : s.held c = [.proc p] := by
  unfold State.held
  have fit := core.fit (.proc p)
  cases handed with
  | forkret on top =>
      rw [on, top]
      rfl
  | sleep on chan lk pc rest top tail =>
      rw [top] at fit
      rw [on, top]
      rcases tail with ⟨was, rfl⟩ | rfl
      · simp [Frame.held, SleepPc.held, fit.1.2.2.2 trivial]
      · simp [Frame.held, SleepPc.held, fit.1.2.2.2 trivial]

theorem Handed.on (handed : Handed s c p) : s.on c = .proc p := by
  cases handed <;> assumption

def Op.Plain : Op → Prop
  | .plain | .release _ | .setproc _ | .intr _ | .intena _ => True
  | _ => False

theorem Outcome.plain {mv : Move} {choice : Choice} (outcome : Outcome s c mv s')
    (op : mv.op.Plain) (core : Core s) (table : Table s) (alive : s.halted c = none)
    (fetched : fetch (s.cpu c) s.mem choice (s.stack (s.on c)) = some mv) :
    s'.on c = s.on c ∧ s'.stack (s.on c) = mv.stack ∧ s'.halted c = none ∧ s'.mem = mv.mem := by
  cases outcome with
  | halts why cpu same check =>
      rcases check with ⟨bad, _⟩ | ⟨_, l, bad, _⟩ | ⟨bad, _⟩ <;> rw [bad] at op <;> exact op.elim
  | moves cpu lock does =>
      exact ⟨rfl, moved_own fun np made => core.context_off table fetched np made c, alive, rfl⟩
  | sched bad => rw [bad] at op; exact op.elim
  | swtch q bad => rw [bad] at op; exact op.elim

/-- The process side of a switch: the lock is kept until it is released, which leaves the CPU
with no lock. -/
theorem handed_step {choice : Choice} (run : step s (.step c choice) = some s') (inv : Inv s)
    (handed : Handed s c p) :
    HoldsOnly s c (.proc p) ∧ (Handed s' c p ∨ HoldsNone s' c) := by
  have core' := (step_inv run inv).core
  obtain ⟨core, table⟩ := inv
  have on := handed.on
  obtain ⟨alive, mv, fetched, outcome⟩ := step_outcome core run
  have fit := core.fit (.proc p)
  refine ⟨core.holdsOnly alive (handed.held core), ?_⟩
  have top := fetched
  rw [on] at top
  -- a release leaves a stack without locks
  have released : mv.op.Plain → locksOf mv.stack = [] → HoldsNone s' c := by
    intro op empty
    obtain ⟨on', stack, alive', _⟩ := outcome.plain op core table alive fetched
    refine core'.holdsNone alive' ?_
    unfold State.held
    rw [on', stack]
    exact empty
  cases handed with
  | forkret _ stack =>
      rw [stack] at top
      simp only [fetch, core.myproc on, Option.bind_some, Option.some.injEq] at top
      subst mv
      exact Or.inr (released trivial rfl)
  | sleep _ chan lk pc rest stack tail =>
      rw [stack] at top fit
      have below := fit.1.2.2.2
      rcases tail with ⟨was, rfl⟩ | rfl
      · cases Option.some.inj top
        obtain ⟨on', stack', _, _⟩ := outcome.plain trivial core table alive fetched
        rw [on] at on' stack'
        exact Or.inl (.sleep on' chan lk .tidy rest stack' (Or.inr rfl))
      · cases Option.some.inj top
        exact Or.inr (released trivial (by simp [Frame.held, SleepPc.held, below trivial]))

theorem handedBack_step {choice : Choice} (run : step s (.step c choice) = some s') (inv : Inv s)
    (handed : HandedBack s c p) :
    HoldsOnly s c (.proc p) ∧ (HandedBack s' c p ∨ HoldsNone s' c) := by
  have core' := (step_inv run inv).core
  obtain ⟨core, table⟩ := inv
  obtain ⟨alive, mv, fetched, outcome⟩ := step_outcome core run
  rcases handed with here | here
  · refine ⟨core.holdsOnly alive here.held, Or.inl (Or.inr ?_)⟩
    have top := fetched
    rw [here.1, here.2] at top
    cases Option.some.inj top
    obtain ⟨on', stack', _, _⟩ := outcome.plain trivial core table alive fetched
    rw [here.1] at on' stack'
    exact ⟨on', stack'⟩
  · refine ⟨core.holdsOnly alive here.held, Or.inr ?_⟩
    have top := fetched
    rw [here.1, here.2] at top
    cases Option.some.inj top
    obtain ⟨on', stack', alive', _⟩ := outcome.plain trivial core table alive fetched
    refine core'.holdsNone alive' ?_
    unfold State.held
    rw [on', stack']
    rfl

/-- A scheduler enters `swtch` with the lock of the process it has chosen. -/
theorem swtch_step {choice : Choice} (run : step s (.step c choice) = some s') (inv : Inv s)
    (here : At s c (.swtching p)) : HoldsOnly s c (.proc p) ∧ Handed s' c p := by
  obtain ⟨core, table⟩ := inv
  obtain ⟨alive, mv, fetched, outcome⟩ := step_outcome core run
  refine ⟨core.holdsOnly alive here.held, ?_⟩
  have top := fetched
  rw [here.1, here.2] at top
  cases Option.some.inj top
  obtain ⟨_, _, _, _, _, _, _, ready⟩ := swtch_target core table fetched rfl
  cases outcome with
  | halts why cpu same check =>
      rcases check with ⟨bad, _⟩ | ⟨_, l, bad, _⟩ | ⟨bad, _⟩ <;> cases bad
  | moves cpu lock does => cases does
  | sched bad => cases bad
  | swtch q op =>
      cases op
      have on : (s.switched c ⟨.swtch p, s.mem, [.scheduler (.away p)]⟩ (.proc p)).on c = .proc p := by
        rw [switched_on, if_pos rfl]
      cases ready with
      | fresh same => exact .forkret on (by rw [switched_to, same]; rfl)
      | asleep chan lk was rest same =>
          exact .sleep on chan lk (.woken was) rest (by rw [switched_to, same]; rfl) (Or.inl ⟨was, rfl⟩)

/-- A process that leaves the CPU does so with its own lock, and the scheduler goes on. -/
theorem sched_step {choice : Choice} (run : step s (.step c choice) = some s') (inv : Inv s)
    (on : s.on c = .proc p) (left : s'.on c ≠ .proc p) :
    HoldsOnly s c (.proc p) ∧ HandedBack s' c p := by
  obtain ⟨core, table⟩ := inv
  obtain ⟨alive, mv, fetched, outcome⟩ := step_outcome core run
  cases outcome with
  | halts => exact absurd on left
  | moves => exact absurd on left
  | swtch q op =>
      have sched := (swtch_target core table fetched op).1
      rw [on] at sched
      cases sched
  | sched op q self check =>
      obtain ⟨_, p', rest, on', point, held, _, _⟩ := sched_source core fetched op
      rw [on] at on'
      cases on'
      rw [core.myproc on] at self
      cases Option.some.inj self
      obtain ⟨_, one, _⟩ := schedCheck_none check
      have below : locksOf rest = [] := by
        have counted := core.noff c alive
        rw [one, held, List.length_cons] at counted
        exact List.eq_nil_of_length_eq_zero (by omega)
      rw [below] at held
      refine ⟨core.holdsOnly alive held, Or.inl ⟨?_, ?_⟩⟩
      · rw [switched_on, if_pos rfl]
      · rw [switched_to, core.at_pc (by rw [point]; rintro ⟨⟩), point]
        rfl

/-- A dispatch makes its candidate `RUNNING` and changes no other process. -/
theorem dispatch_step {choice : Choice} (run : step s (.step c choice) = some s') (inv : Inv s)
    (here : At s c (.chosen p)) :
    s.procState p = .runnable ∧ s'.procState p = .running ∧
      ∀ q, q ≠ p → s'.procState q = s.procState q := by
  obtain ⟨core, table⟩ := inv
  obtain ⟨alive, mv, fetched, outcome⟩ := step_outcome core run
  have top := fetched
  rw [here.1, here.2] at top
  cases Option.some.inj top
  obtain ⟨_, _, _, mem⟩ := outcome.plain trivial core table alive fetched
  unfold State.procState
  rw [mem]
  refine ⟨(chosen_unclaimed core table here.pc).1, ?_, ?_⟩
  · rw [view_setProc, if_pos rfl]
  · intro q differ
    rw [view_setProc, if_neg differ]

theorem free_running (inv : Inv s) (free : s.lock (.proc p) = none) :
    s.procState p = .running ↔ ∃! c, (s.cpu c).proc = some p := by
  obtain ⟨core, table⟩ := inv
  have claimed : ∀ c, (s.cpu c).proc = some p ↔ (s.pc c).claims = some p := by
    intro c
    rw [core.proc c]
    have unlocked : Lock.proc p ∉ (s.pc c).held := by
      intro inside
      rw [(core.pc_locks inside).1] at free
      cases free
    cases point : s.pc c with
    | running f =>
        have differ : f ≠ p := by
          intro same
          subst same
          exact unlocked (by rw [point]; simp [SchedPc.held])
        simp [SchedPc.proc, SchedPc.claims, differ]
    | _ => simp [SchedPc.proc, SchedPc.claims]
  constructor
  · intro running
    obtain ⟨c, claim⟩ := table.runs p running
    refine ⟨c, (claimed c).mpr claim, ?_⟩
    intro d self
    exact table.sole d c p ((claimed d).mp self) claim
  · rintro ⟨c, self, _⟩
    by_contra stopped
    rw [table.busy c p ((claimed c).mp self) stopped] at free
    cases free

end Switches

/-! ## Whole runs -/

/-- What a run on any number of CPUs says about processes and the CPUs that execute them. -/
structure OneCpu (r : Run step) : Prop where
  /-- A process whose lock is free is `RUNNING` exactly when one CPU has it as `c->proc`. -/
  exclusive : ∀ i, i ≤ r.len → ∀ p, (r.state i).lock (.proc p) = none →
    ((r.state i).procState p = .running ↔ ∃! c, ((r.state i).cpu c).proc = some p)
  /-- A dispatch takes one process from `RUNNABLE` to `RUNNING` and leaves the others alone. -/
  dispatch : ∀ i, i < r.len → ∀ c choice p, r.event i = .step c choice →
    At (r.state i) c (.chosen p) → (r.state i).procState p = .runnable ∧
      (r.state (i + 1)).procState p = .running ∧
      ∀ q, q ≠ p → (r.state (i + 1)).procState q = (r.state i).procState q
  /-- Nothing else makes a process `RUNNING`. -/
  dispatched : ∀ i, i < r.len → ∀ p, (r.state i).procState p ≠ .running →
    (r.state (i + 1)).procState p = .running →
      ∃ c choice, r.event i = .step c choice ∧ At (r.state i) c (.chosen p)
  /-- A scheduler enters `swtch` with the lock of the chosen process alone, and `noff` is 1. -/
  enters : ∀ i, i < r.len → ∀ c choice p, r.event i = .step c choice →
    At (r.state i) c (.swtching p) →
      HoldsOnly (r.state i) c (.proc p) ∧ Handed (r.state (i + 1)) c p
  /-- The process keeps that lock until its one release. -/
  processSide : ∀ i, i < r.len → ∀ c choice p, r.event i = .step c choice →
    Handed (r.state i) c p → HoldsOnly (r.state i) c (.proc p) ∧
      (Handed (r.state (i + 1)) c p ∨ HoldsNone (r.state (i + 1)) c)
  /-- A process leaves its CPU with its own lock alone, which the scheduler takes over. -/
  leaves : ∀ i, i < r.len → ∀ c choice p, r.event i = .step c choice →
    (r.state i).on c = .proc p → (r.state (i + 1)).on c ≠ .proc p →
      HoldsOnly (r.state i) c (.proc p) ∧ HandedBack (r.state (i + 1)) c p
  /-- The scheduler keeps that lock until its one release. -/
  schedulerSide : ∀ i, i < r.len → ∀ c choice p, r.event i = .step c choice →
    HandedBack (r.state i) c p → HoldsOnly (r.state i) c (.proc p) ∧
      (HandedBack (r.state (i + 1)) c p ∨ HoldsNone (r.state (i + 1)) c)
  /-- No `release` panics, and `sched` only in a `sleep` called with another lock than `lk` held. -/
  panics : ∀ i, i ≤ r.len → ∀ c why, (r.state i).halted c = some why →
    Panicked ((r.state i).stack ((r.state i).on c)) why

theorem run_calls (r : Run step) (start : r.state 0 = boot) :
    ∀ i, i ≤ r.len → Inv (r.state i) ∧ Calls (r.state i) := by
  refine r.invariant (fun s => Inv s ∧ Calls s) ?_ ?_
  · rw [start]
    refine ⟨⟨boot_core, boot_table⟩, ?_, by rintro _ _ ⟨⟩⟩
    intro p here
    rw [(boot_state p).2] at here
    split at here <;> cases here
  · intro s e s' run inv
    exact ⟨step_inv run inv.1, step_calls run inv.1 inv.2⟩

theorem one_cpu_per_process (r : Run step) (start : r.state 0 = boot) : OneCpu r := by
  have inv : ∀ i, i ≤ r.len → Inv (r.state i) := fun i le => (run_calls r start i le).1
  have ran : ∀ i, i < r.len → ∀ {e}, r.event i = e →
      step (r.state i) e = some (r.state (i + 1)) := by
    intro i lt e event
    rw [← event]
    exact r.next i lt
  refine ⟨?_, ?_, ?_, ?_, ?_, ?_, ?_, ?_⟩
  · intro i le p free
    exact free_running (inv i le) free
  · intro i lt c choice p event here
    exact dispatch_step (ran i lt event) (inv i (by omega)) here
  · intro i lt p was now
    obtain ⟨c, choice, event, on, point, _⟩ :=
      step_running (ran i lt rfl) (inv i (by omega)) was now
    exact ⟨c, choice, event, on, pcOf_ne point (by rintro ⟨⟩)⟩
  · intro i lt c choice p event here
    exact swtch_step (ran i lt event) (inv i (by omega)) here
  · intro i lt c choice p event here
    exact handed_step (ran i lt event) (inv i (by omega)) here
  · intro i lt c choice p event on left
    exact sched_step (ran i lt event) (inv i (by omega)) on left
  · intro i lt c choice p event here
    exact handedBack_step (ran i lt event) (inv i (by omega)) here
  · intro i le c why stopped
    exact (run_calls r start i le).2.panicked c why stopped

/-- CPU 0 scans the table, dispatches the first process and `forkret` releases its lock. -/
def firstDispatch : List Event := List.replicate 135 (.step 0 .go)

theorem firstDispatch_exclusive :
    ∃ r : Run step, r.state 0 = boot ∧ (r.state r.len).lock (.proc 0) = none ∧
      (r.state r.len).procState 0 = .running ∧ ∃! c, ((r.state r.len).cpu c).proc = some 0 := by
  obtain ⟨r, start, ends⟩ := Run.exists_of_exec step boot firstDispatch (.step 0 .go)
    (fun s => s.lock (.proc 0) == none && s.procState 0 == .running) (by decide +kernel)
  simp only [Bool.and_eq_true, beq_iff_eq] at ends
  obtain ⟨free, running⟩ := ends
  have exclusive := (one_cpu_per_process r start).exclusive r.len (Nat.le_refl _) 0 free
  exact ⟨r, start, free, running, exclusive.mp running⟩

end Xv6Fcfs.Sched
