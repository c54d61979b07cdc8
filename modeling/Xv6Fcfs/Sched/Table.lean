import Xv6Fcfs.Sched.Machine

/-!
# Who runs which process

The scheduler of a CPU lays claim to a process from the moment it writes `RUNNING` until it has
cleared `c->proc`.  `Table` says that no two CPUs claim one process, that a claimed process is
`RUNNING` unless its lock is still held by the claiming CPU, and that a process nobody executes
has a stack `swtch` can go on with.
-/

set_option autoImplicit false

namespace Xv6Fcfs.Sched

open Xv6Fcfs.Lib
open Xv6Fcfs.Process (Slot ProcState)

/-! ## The child a `kfork` is making -/

def KforkPc.child : KforkPc → Option Slot
  | .found np | .copy np | .link np | .parent np | .start np | .ready np => some np
  | _ => none

def KforkPc.made : KforkPc → Option Slot
  | .copy np | .link np | .parent np | .start np | .ready np => some np
  | _ => none

def Frame.child : Frame → Option Slot
  | .kfork _ pc => pc.child
  | _ => none

def Frame.made : Frame → Option Slot
  | .kfork _ pc => pc.made
  | _ => none

def children (stack : List Frame) : List Slot := stack.filterMap Frame.child

def madeBy (stack : List Frame) : List Slot := stack.filterMap Frame.made

theorem children_cons (frame : Frame) (rest : List Frame) :
    children (frame :: rest) = frame.child.toList ++ children rest := by
  unfold children
  cases here : frame.child <;> simp [here]

theorem madeBy_cons (frame : Frame) (rest : List Frame) :
    madeBy (frame :: rest) = frame.made.toList ++ madeBy rest := by
  unfold madeBy
  cases here : frame.made <;> simp [here]

section Returns
variable (rest : List Frame)

attribute [local simp] children_cons madeBy_cons Frame.child Frame.made

theorem frames_regain (lk : Lock) :
    children (regain lk rest) = children rest ∧ madeBy (regain lk rest) = madeBy rest := by
  unfold regain
  split <;> simp

theorem children_regain (lk : Lock) : children (regain lk rest) = children rest :=
  (frames_regain rest lk).1

theorem madeBy_regain (lk : Lock) : madeBy (regain lk rest) = madeBy rest :=
  (frames_regain rest lk).2

theorem frames_entered (l : Nat) :
    children (entered l rest) = children rest ∧ madeBy (entered l rest) = madeBy rest := by
  unfold entered
  split <;> simp

theorem children_entered (l : Nat) : children (entered l rest) = children rest :=
  (frames_entered rest l).1

theorem madeBy_entered (l : Nat) : madeBy (entered l rest) = madeBy rest :=
  (frames_entered rest l).2

theorem frames_left (l : Nat) :
    children (left l rest) = children rest ∧ madeBy (left l rest) = madeBy rest := by
  unfold left
  split <;> simp

theorem children_left (l : Nat) : children (left l rest) = children rest :=
  (frames_left rest l).1

theorem madeBy_left (l : Nat) : madeBy (left l rest) = madeBy rest :=
  (frames_left rest l).2

theorem frames_resume :
    children (resume rest) = children rest ∧ madeBy (resume rest) = madeBy rest := by
  unfold resume
  split <;> simp

theorem children_resume : children (resume rest) = children rest :=
  (frames_resume rest).1

theorem madeBy_resume : madeBy (resume rest) = madeBy rest :=
  (frames_resume rest).2

end Returns

/-- A move adds a child only when it takes an unused slot, and sets up a context only by its
operation. -/
def Forks (m : Mem) (stack : List Frame) (mv : Move) : Prop :=
  (∀ np ∈ children mv.stack, np ∈ children stack ∨
    ((m.proc np).state = .unused ∧ (mv.mem.proc np).state = .used)) ∧
  ∀ np ∈ madeBy mv.stack, np ∈ madeBy stack ∨ mv.op = .context np

theorem kfork_forks {m : Mem} {rest : List Frame} {choice : Choice} {p : Slot} {pc : KforkPc}
    {mv : Move} (run : kfork m rest choice p pc = some mv) : Forks m (.kfork p pc :: rest) mv := by
  revert run
  fun_cases kfork m rest choice p pc
  all_goals
    intro run
    cases Option.some.inj run
    simp_all [Forks, children_cons, madeBy_cons, Frame.child, Frame.made, KforkPc.child,
      KforkPc.made, allocpid, Mem.setProc]

theorem Forks.of_same {m mem : Mem} {stack after : List Frame} {op : Op}
    (kids : children after = children stack) (made : madeBy after = madeBy stack) :
    Forks m stack ⟨op, mem, after⟩ :=
  ⟨fun _ inside => Or.inl (kids ▸ inside), fun _ inside => Or.inl (made ▸ inside)⟩

/-- The other functions leave the children alone. -/
theorem fetch_forks {cpu : Cpu} {m : Mem} {choice : Choice} {stack : List Frame} {mv : Move}
    (run : fetch cpu m choice stack = some mv) : Forks m stack mv := by
  revert run
  fun_cases fetch cpu m choice stack
  case case16 => exact kfork_forks
  all_goals
    intro run
    try simp only [Option.bind_eq_some_iff, reduceCtorEq] at run
  case case2 =>
    revert run
    fun_cases scheduler
    all_goals
      intro run
      simp only [goes, Option.some.injEq, reduceCtorEq] at run
      try subst mv
    all_goals exact .of_same rfl rfl
  case case3 =>
    obtain ⟨self, _, run⟩ := run
    revert run
    fun_cases body
    all_goals
      intro run
      simp only [Option.some.injEq, reduceCtorEq] at run
      try subst mv
    all_goals exact .of_same rfl rfl
  case case4 =>
    revert run
    fun_cases handler
    all_goals
      intro run
      simp only [Option.some.injEq, reduceCtorEq] at run
      try subst mv
    all_goals exact .of_same rfl rfl
  case case6 =>
    obtain ⟨self, _, run⟩ := run
    cases Option.some.inj run
    exact .of_same rfl rfl
  case case7 p chan lk pc rest =>
    cases pc <;> simp only [sleep, Option.some.injEq, reduceCtorEq] at run <;> subst mv
    case reacquire => exact .of_same (children_regain rest lk) (madeBy_regain rest lk)
    all_goals exact .of_same rfl rfl
  case case8 =>
    revert run
    fun_cases wakeup
    all_goals
      intro run
      cases Option.some.inj run
      exact .of_same rfl rfl
  case case9 => cases Option.some.inj run; exact .of_same rfl rfl
  case case10 pid todo rest => cases todo <;> cases Option.some.inj run <;> exact .of_same rfl rfl
  case case11 =>
    rw [killing] at run
    split at run <;> cases Option.some.inj run <;> exact .of_same rfl rfl
  case case12 q locked rest => cases locked <;> cases Option.some.inj run <;> exact .of_same rfl rfl
  case case13 q locked rest =>
    obtain ⟨self, _, run⟩ := run
    cases locked <;> cases Option.some.inj run <;> exact .of_same rfl rfl
  case case14 =>
    revert run
    fun_cases kexit
    all_goals
      intro run
      cases Option.some.inj run
      exact .of_same rfl rfl
  case case15 =>
    revert run
    fun_cases kwait
    all_goals
      intro run
      simp only [goes, Option.some.injEq, reduceCtorEq] at run
      try subst mv
    all_goals exact .of_same rfl rfl
  case case17 l pc rest =>
    obtain ⟨self, _, run⟩ := run
    revert run
    fun_cases acquiresleep
    all_goals
      intro run
      simp only [Option.some.injEq, reduceCtorEq] at run
      try subst mv
    case case3 => exact .of_same (children_entered rest l) (madeBy_entered rest l)
    all_goals exact .of_same rfl rfl
  case case18 l pc rest =>
    cases pc <;> cases Option.some.inj run
    case leave => exact .of_same (children_left rest l) (madeBy_left rest l)
    all_goals exact .of_same rfl rfl
  case case19 l locked rest =>
    obtain ⟨self, _, run⟩ := run
    cases locked <;> cases Option.some.inj run <;> exact .of_same rfl rfl

/-! ## The invariant -/

/-- The process a scheduler at this point has taken and not yet given up. -/
def SchedPc.claims : SchedPc → Option Slot
  | .running first | .swtching first | .away first | .back first => some first
  | _ => none

def SchedPc.Expects (state : Slot → ProcState) : SchedPc → Prop
  | .scan _ (some first) | .look _ _ (some first) | .chosen first => state first = .runnable
  | .running first | .swtching first => state first = .running
  | .back first | .done first => state first ≠ .running
  | _ => True

/-- A stack `swtch` can go on with. -/
inductive Resumable (p : Slot) (stack : List Frame) : Prop where
  | fresh (same : stack = [.forkret p false])
  | asleep (chan : Chan) (lk : Lock) (was : Bool) (rest : List Frame)
      (same : stack = .sleep p chan lk (.asleep was) :: rest)

/-- The state of a process a CPU executes. -/
inductive Live (state : ProcState) (stack : List Frame) : Prop where
  | running (is : state = .running)
  | dozing (is : state = .sleeping) (p : Slot) (chan : Chan) (lk : Lock) (rest : List Frame)
      (same : stack = .sleep p chan lk .sched :: rest)
  | dying (is : state = .zombie) (p : Slot) (status : Int) (rest : List Frame)
      (same : stack = .kexit p status .sched :: rest)

/-- A sleeper is in `sleep` on its channel, past the write of its state. -/
def Slept (p : Slot) (chan : Option Chan) (stack : List Frame) : Prop :=
  ∃ ch lk pc rest, stack = .sleep p ch lk pc :: rest ∧ (pc = .sched ∨ ∃ was, pc = .asleep was) ∧
    chan = some ch

def State.procState (s : State) (p : Slot) : ProcState := (s.mem.view p).1

structure Table (s : State) : Prop where
  sole : ∀ c d p, (s.pc c).claims = some p → (s.pc d).claims = some p → c = d
  busy : ∀ c p, (s.pc c).claims = some p → s.procState p ≠ .running → s.lock (.proc p) = some c
  runs : ∀ p, s.procState p = .running → ∃ c, (s.pc c).claims = some p
  expects : ∀ c, (s.pc c).Expects s.procState
  ready : ∀ p, s.procState p = .runnable ∨ s.procState p = .running → (∀ c, s.on c ≠ .proc p) →
    Resumable p (s.stack (.proc p))
  live : ∀ c p, s.on c = .proc p → Live (s.procState p) (s.stack (.proc p))
  slept : ∀ p, s.procState p = .sleeping → Slept p (s.mem.view p).2 (s.stack (.proc p))
  child : ∀ p np, np ∈ children (s.stack (.proc p)) → s.procState np = .used
  made : ∀ p np, np ∈ madeBy (s.stack (.proc p)) → s.stack (.proc np) = [.forkret np false]
  single : ∀ p q np, np ∈ children (s.stack (.proc p)) → np ∈ children (s.stack (.proc q)) → p = q

theorem KforkPc.made_child {pc : KforkPc} {np : Slot} (made : pc.made = some np) :
    pc.child = some np := by
  cases pc <;> simp_all [KforkPc.made, KforkPc.child]

theorem madeBy_children {stack : List Frame} {np : Slot} (made : np ∈ madeBy stack) :
    np ∈ children stack := by
  simp only [madeBy, children, List.mem_filterMap] at made ⊢
  obtain ⟨frame, inside, here⟩ := made
  refine ⟨frame, inside, ?_⟩
  cases frame with
  | kfork p pc => exact KforkPc.made_child here
  | _ => cases here

theorem Thread.owner {t : Thread} {p : Slot} (me : t.me = some p) : t = .proc p := by
  cases t with
  | sched d => cases me
  | proc q => cases me; rfl

section Facts
variable {s : State} {c : Nat}

theorem Table.child_off (table : Table s) {p np : Slot} (kid : np ∈ children (s.stack (.proc p)))
    (d : Nat) : s.on d ≠ .proc np := by
  intro here
  have used := table.child p np kid
  cases table.live d np here with
  | running is => rw [used] at is; cases is
  | dozing is => rw [used] at is; cases is
  | dying is => rw [used] at is; cases is

theorem Core.claims_on (core : Core s) {p : Slot} (here : s.on c = .proc p) :
    (s.pc c).claims = some p := by
  have host := core.on c
  rw [here] at host
  cases point : s.pc c <;> simp_all [SchedPc.host, SchedPc.claims]

variable {choice : Choice} {mv : Move} {cpu : Cpu} {lock : Lock → Option Nat}

theorem Table.own_running (table : Table s) {p : Slot} (here : s.on c = .proc p)
    (run : fetch (s.cpu c) s.mem choice (s.stack (s.on c)) = some mv)
    (does : Does c (s.cpu c) s.lock mv.op cpu lock) : s.procState p = .running := by
  rw [here] at run
  cases table.live c p here with
  | running is => exact is
  | dozing is q chan lk rest same =>
      rw [same] at run
      cases Option.some.inj run
      cases does
  | dying is q status rest same =>
      rw [same] at run
      cases Option.some.inj run
      cases does

theorem Core.context_kid (core : Core s)
    (run : fetch (s.cpu c) s.mem choice (s.stack (s.on c)) = some mv) {np : Slot}
    (op : mv.op = .context np) : ∃ p, np ∈ children (s.stack (.proc p)) := by
  have comes := fetch_comes run
  rw [op] at comes
  obtain ⟨_, p, rest, stack, _⟩ := comes
  have fit := core.fit (s.on c)
  rw [stack] at fit
  refine ⟨p, ?_⟩
  rw [← Thread.owner fit.1.1, stack, children_cons]
  simp [Frame.child, KforkPc.child]

theorem Core.context_used (core : Core s) (table : Table s)
    (run : fetch (s.cpu c) s.mem choice (s.stack (s.on c)) = some mv) {np : Slot}
    (op : mv.op = .context np) : s.procState np = .used := by
  obtain ⟨p, kid⟩ := core.context_kid run op
  exact table.child p np kid

theorem Core.context_off (core : Core s) (table : Table s)
    (run : fetch (s.cpu c) s.mem choice (s.stack (s.on c)) = some mv) :
    ∀ np, mv.op = .context np → ∀ d, s.on d ≠ .proc np := by
  intro np op
  obtain ⟨p, kid⟩ := core.context_kid run op
  exact table.child_off kid

theorem Does.lock_other {cpu' : Cpu} {old : Lock → Option Nat} {op : Op} {d : Nat} {l : Lock}
    (does : Does c cpu old op cpu' lock) (owned : old l = some d) (other : d ≠ c) :
    lock l = some d := by
  cases does with
  | acquire k free =>
      have differ : l ≠ k := by
        intro same
        subst same
        rw [free] at owned
        cases owned
      rw [Function.update_of_ne differ]
      exact owned
  | release k mine after pop =>
      have differ : l ≠ k := by
        intro same
        subst same
        rw [mine] at owned
        exact other (Option.some.inj owned).symm
      rw [Function.update_of_ne differ]
      exact owned
  | _ => exact owned

end Facts

/-! ## The moves of processes and interrupts -/

/-- How a move outside the scheduler changes the state of process `q`. -/
inductive Turn (s : State) (c : Nat) (after : List Frame) (q : Slot) :
    ProcState × Option Chan → Prop where
  | wakes (was : s.procState q = .sleeping) (chan : Option Chan) : Turn s c after q (.runnable, chan)
  | dozes (own : s.on c = .proc q) (chan : Chan) (lk : Lock) (rest : List Frame)
      (next : after = .sleep q chan lk .sched :: rest) : Turn s c after q (.sleeping, some chan)
  | stays (own : s.on c = .proc q) (chan : Option Chan) : Turn s c after q (s.procState q, chan)
  | dies (own : s.on c = .proc q) (status : Int) (rest : List Frame) (chan : Option Chan)
      (next : after = .kexit q status .sched :: rest) : Turn s c after q (.zombie, chan)
  | frees (was : s.procState q = .zombie) (chan : Option Chan) : Turn s c after q (.unused, chan)
  | takes (was : s.procState q = .unused) (chan : Option Chan) : Turn s c after q (.used, chan)
  | drops (p : Slot) (own : s.on c = .proc p) (kid : q ∈ children (s.stack (.proc p)))
      (none : children after = []) (chan : Option Chan) : Turn s c after q (.unused, chan)
  | readies (p : Slot) (own : s.on c = .proc p) (kid : q ∈ madeBy (s.stack (.proc p)))
      (none : children after = []) (chan : Option Chan) : Turn s c after q (.runnable, chan)

section Quiet
variable {s : State} {c : Nat} {choice : Choice} {mv : Move} {cpu : Cpu} {lock : Lock → Option Nat}

theorem Core.turn (core : Core s) {after : List Frame} {q : Slot} {now : ProcState × Option Chan}
    (other : ∀ pc rest, s.stack (s.on c) ≠ .scheduler pc :: rest)
    (write : Write (s.stack (s.on c)) after q (s.mem.view q) now) : Turn s c after q now := by
  have fit := core.fit (s.on c)
  -- the stack of a `kfork` below which only `body` is left
  have forked : ∀ {p : Slot} {pc : KforkPc} {rest : List Frame},
      s.stack (s.on c) = .kfork p pc :: rest →
        s.on c = .proc p ∧ children rest = [] ∧ s.stack (.proc p) = .kfork p pc :: rest := by
    intro p pc rest stack
    rw [stack] at fit
    obtain ⟨⟨me, inside, rfl⟩, _⟩ := fit
    have own := Thread.owner me
    exact ⟨own, rfl, own ▸ stack⟩
  generalize views : s.mem.view q = was at write
  have state : s.procState q = was.1 := by unfold State.procState; rw [views]
  cases write with
  | woken chan todo rest point => exact .wakes state _
  | killed pid todo rest chan point => exact .wakes state _
  | dispatched rest was chan point => exact absurd point (other _ _)
  | dozed chan lk rest was point next =>
      rw [point] at fit
      exact .dozes (Thread.owner fit.1.1) chan lk rest next
  | tidied chan lk rest was old point =>
      rw [point] at fit
      have stays : Turn s c after q (s.procState q, none) := .stays (Thread.owner fit.1.1) none
      rwa [state] at stays
  | died status rest was chan point next =>
      rw [point] at fit
      exact .dies (Thread.owner fit.1.1) status rest _ next
  | reaped p todo rest chan point => exact .frees state _
  | taken p todo rest chan point next => exact .takes state _
  | dropped p rest was point next =>
      rcases point with point | point
      all_goals
        obtain ⟨own, none, stack⟩ := forked point
        refine .drops p own ?_ (next ▸ none) _
        rw [stack, children_cons]
        simp [Frame.child, KforkPc.child]
  | readied p rest was chan point next =>
      obtain ⟨own, none, stack⟩ := forked point
      refine .readies p own ?_ (next ▸ none) _
      rw [stack, madeBy_cons]
      simp [Frame.made, KforkPc.made]

/-- After a move outside the scheduler a process has its state and channel or took a `Turn`
under its lock. -/
theorem Core.quiet_view (core : Core s)
    (run : fetch (s.cpu c) s.mem choice (s.stack (s.on c)) = some mv)
    (other : ∀ pc rest, s.stack (s.on c) ≠ .scheduler pc :: rest) (q : Slot) :
    mv.mem.view q = s.mem.view q ∨
      (s.lock (.proc q) = some c ∧ Turn s c mv.stack q (mv.mem.view q)) := by
  rcases fetch_changes run with same | ⟨r, others, write⟩
  · exact Or.inl (same q)
  · by_cases here : q = r
    · subst here
      exact Or.inr ⟨(core.ledger.owns _ _).mp write.locked, core.turn other write⟩
    · exact Or.inl (others q here)

theorem Core.quiet_pc (core : Core s)
    (run : fetch (s.cpu c) s.mem choice (s.stack (s.on c)) = some mv)
    (other : ∀ pc rest, s.stack (s.on c) ≠ .scheduler pc :: rest) (cpu : Cpu)
    (lock : Lock → Option Nat) (d : Nat) :
    ((s.moved c mv cpu lock).pc d = s.pc d ∧ s.on c ≠ .sched d) ∨
      (d = c ∧ (s.pc d).Idle ∧ ((s.moved c mv cpu lock).pc d).Idle) := by
  rcases core.moved_pc c mv cpu lock d with ⟨here, rfl, pc⟩ | ⟨away, pc⟩
  · refine Or.inr ⟨rfl, ?_, ?_⟩
    · unfold State.pc
      rw [← here, pcOf_other other]
      trivial
    · rw [pc]
      have fit := core.fit (s.on d)
      rw [here] at fit
      rw [here] at run other
      exact fetch_idle fit other run
  · exact Or.inl ⟨pc, away⟩

theorem SchedPc.Idle.claims {pc : SchedPc} (idle : pc.Idle) : pc.claims = none := by
  cases pc <;> first | rfl | exact idle.elim

theorem SchedPc.Idle.expects {pc : SchedPc} (idle : pc.Idle) (state : Slot → ProcState) :
    pc.Expects state := by
  cases pc with
  | scan todo first => cases first <;> trivial
  | _ => trivial

theorem SchedPc.Expects.congr {pc : SchedPc} {state state' : Slot → ProcState}
    (expects : pc.Expects state) (same : ∀ f, Lock.proc f ∈ pc.held → state' f = state f) :
    pc.Expects state' := by
  cases pc with
  | scan todo first =>
      cases first with
      | none => trivial
      | some f => exact (same f (by simp [SchedPc.held])).trans expects
  | look p todo first =>
      cases first with
      | none => trivial
      | some f => exact (same f (by simp [SchedPc.held])).trans expects
  | chosen f => exact (same f (by simp [SchedPc.held])).trans expects
  | running f => exact (same f (by simp [SchedPc.held])).trans expects
  | swtching f => exact (same f (by simp [SchedPc.held])).trans expects
  | back f =>
      have := same f (by simp [SchedPc.held])
      exact fun now => expects (this ▸ now)
  | done f =>
      have := same f (by simp [SchedPc.held])
      exact fun now => expects (this ▸ now)
  | _ => trivial

theorem Core.pc_locks (core : Core s) {d : Nat} {f : Slot} (inside : Lock.proc f ∈ (s.pc d).held) :
    s.lock (.proc f) = some d ∧ s.on d = .sched d := by
  have busy : s.pc d ≠ .top := by
    intro top
    rw [top] at inside
    cases inside
  have stack := core.at_pc busy
  have host : s.on d = .sched d := by
    rw [core.on d]
    cases point : s.pc d <;> first | rfl | (rw [point] at inside; cases inside)
  refine ⟨(core.ledger.owns _ _).mp ?_, host⟩
  unfold State.held
  rw [host, stack]
  simpa [Frame.held] using inside

end Quiet

end Xv6Fcfs.Sched
