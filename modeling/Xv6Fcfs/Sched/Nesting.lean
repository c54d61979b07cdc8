import Xv6Fcfs.Sched.Machine
import Mathlib.Tactic.IntervalCases

/-!
# Interrupts and nested critical sections

The frames of `Sched.Model` are left out here: what a kernel thread executes is any sequence of
`acquire`, `release` and `sched`, and of `intr_on` and `intr_off` outside critical sections; the
thread of a scheduler executes `swtch` in place of `sched`.  An `acquire` is two steps, before
and after its loop.  `phase` says where the thread of a process stands in its last `sched`.
-/

set_option autoImplicit false

namespace Xv6Fcfs.Sched

open Xv6Fcfs.Lib
open Xv6Fcfs.Process (Slot)

/-! ## The machine -/

namespace Nesting

inductive Phase where
  /-- The context that `allocproc` made. -/
  | fresh
  | running
  /-- In the `swtch` of `sched`, with its local `intena`. -/
  | parked (intena : Bool)
  /-- Back from that `swtch`. -/
  | back (intena : Bool)
  deriving DecidableEq, Repr

def Phase.away : Phase → Bool
  | .fresh | .parked _ => true
  | .running | .back _ => false

structure State where
  cpu : Nat → Cpu
  on : Nat → Thread
  lock : Lock → Option Nat
  /-- The lock for which a CPU loops in `acquire`. -/
  spins : Nat → Option Lock
  phase : Slot → Phase
  halted : Nat → Option Panic

inductive Event where
  | intr (c : Nat) (on : Bool)
  | acquire (c : Nat) (l : Lock)
  | take (c : Nat)
  | release (c : Nat) (l : Lock)
  | sched (c : Nat)
  | swtch (c : Nat) (p : Slot)
  | restore (c : Nat)
  /-- `allocproc` makes the context of a process. -/
  | context (c : Nat) (p : Slot)
  deriving DecidableEq, Repr

namespace State

def setCpu (s : State) (c : Nat) (cpu : Cpu) : State := { s with cpu := Function.update s.cpu c cpu }

def setLock (s : State) (l : Lock) (owner : Option Nat) : State :=
  { s with lock := Function.update s.lock l owner }

def setSpins (s : State) (c : Nat) (l : Option Lock) : State :=
  { s with spins := Function.update s.spins c l }

def halt (s : State) (c : Nat) (why : Panic) : State :=
  { s with halted := Function.update s.halted c (some why) }

def move (s : State) (c : Nat) (t : Thread) (p : Slot) (phase : Phase) : State :=
  { s with on := Function.update s.on c t, phase := Function.update s.phase p phase }

end State

def Ready (s : State) (c : Nat) : Prop :=
  s.halted c = none ∧ s.spins c = none ∧
    match s.on c with
    | .sched _ => True
    | .proc p => s.phase p = .running

instance (s : State) (c : Nat) : Decidable (Ready s c) := by
  unfold Ready
  cases s.on c <;> infer_instance

/-- `push_off` and the test of `holding`. -/
def acquire (s : State) (c : Nat) (l : Lock) : State :=
  let off := s.setCpu c (s.cpu c).pushOff
  if s.lock l = some c then off.halt c .acquire else off.setSpins c (some l)

def release (s : State) (c : Nat) (l : Lock) : State :=
  if s.lock l ≠ some c then s.halt c .release
  else
    match (s.cpu c).popOff with
    | .ok cpu => (s.setLock l none).setCpu c cpu
    | .error why => (s.setLock l none).halt c why

/-- `sched` up to its `swtch`; the state of the process is not part of this machine. -/
def sched (s : State) (c : Nat) (p : Slot) : State :=
  if s.lock (.proc p) ≠ some c then s.halt c .schedLock
  else if (s.cpu c).noff ≠ 1 then s.halt c .schedLocks
  else if (s.cpu c).intr then s.halt c .schedInterruptible
  else s.move c (.sched c) p (.parked (s.cpu c).intena)

def step (s : State) : Event → Option State
  | .intr c on =>
      if Ready s c ∧ (s.cpu c).noff = 0 then some (s.setCpu c { s.cpu c with intr := on }) else none
  | .acquire c l => if Ready s c then some (acquire s c l) else none
  | .take c =>
      if s.halted c = none then
        (s.spins c).bind fun l =>
          if s.lock l = none then some ((s.setLock l (some c)).setSpins c none) else none
      else none
  | .release c l => if Ready s c then some (release s c l) else none
  | .sched c =>
      match s.on c with
      | .sched _ => none
      | .proc p => if Ready s c then some (sched s c p) else none
  | .swtch c p =>
      if Ready s c ∧ s.on c = .sched c ∧ s.lock (.proc p) = some c ∧ (s.cpu c).noff = 1 then
        match s.phase p with
        | .fresh => some (s.move c (.proc p) p .running)
        | .parked was => some (s.move c (.proc p) p (.back was))
        | _ => none
      else none
  | .restore c =>
      match s.on c with
      | .sched _ => none
      | .proc p =>
          match s.phase p with
          | .back was =>
              some ((s.setCpu c { s.cpu c with intena := was }).move c (.proc p) p .running)
          | _ => none
  | .context c p =>
      if Ready s c ∧ s.lock (.proc p) = some c ∧ (s.phase p).away then
        some { s with phase := Function.update s.phase p .fresh }
      else none

def boot : State where
  cpu := fun _ => ⟨none, 0, false, false⟩
  on := .sched
  lock := fun _ => none
  spins := fun _ => none
  phase := fun _ => .fresh
  halted := fun _ => none

/-! ## What a step does -/

inductive Turn (s : State) : Event → State → Prop where
  | intr (c : Nat) (on : Bool) (ready : Ready s c) (outside : (s.cpu c).noff = 0) :
      Turn s (.intr c on) (s.setCpu c { s.cpu c with intr := on })
  | acquire (c : Nat) (l : Lock) (ready : Ready s c) : Turn s (.acquire c l) (acquire s c l)
  | take (c : Nat) (l : Lock) (alive : s.halted c = none) (spins : s.spins c = some l)
      (free : s.lock l = none) : Turn s (.take c) ((s.setLock l (some c)).setSpins c none)
  | release (c : Nat) (l : Lock) (ready : Ready s c) : Turn s (.release c l) (release s c l)
  | sched (c : Nat) (p : Slot) (ready : Ready s c) (on : s.on c = .proc p) :
      Turn s (.sched c) (sched s c p)
  | swtch (c : Nat) (p : Slot) (ready : Ready s c) (on : s.on c = .sched c)
      (one : (s.cpu c).noff = 1) (away : (s.phase p).away) (phase : Phase)
      (arrives : s.phase p = .fresh ∧ phase = .running ∨ ∃ was, s.phase p = .parked was ∧
        phase = .back was) :
      Turn s (.swtch c p) (s.move c (.proc p) p phase)
  | restore (c : Nat) (p : Slot) (on : s.on c = .proc p) (was : Bool) (back : s.phase p = .back was) :
      Turn s (.restore c) ((s.setCpu c { s.cpu c with intena := was }).move c (.proc p) p .running)
  | context (c : Nat) (p : Slot) (away : (s.phase p).away) :
      Turn s (.context c p) { s with phase := Function.update s.phase p .fresh }

theorem step_turn {s s' : State} {e : Event} (run : step s e = some s') : Turn s e s' := by
  cases e with
  | intr c on =>
      simp only [step] at run
      split at run <;> cases run
      next can => exact .intr c on can.1 can.2
  | acquire c l =>
      simp only [step] at run
      split at run <;> cases run
      next ready => exact .acquire c l ready
  | take c =>
      simp only [step] at run
      split at run
      · next alive =>
        obtain ⟨l, spins, run⟩ := Option.bind_eq_some_iff.mp run
        split at run <;> cases run
        next free => exact .take c l alive spins free
      · cases run
  | release c l =>
      simp only [step] at run
      split at run <;> cases run
      next ready => exact .release c l ready
  | sched c =>
      simp only [step] at run
      split at run
      · cases run
      · next p on =>
        split at run <;> cases run
        next ready => exact .sched c p ready on
  | swtch c p =>
      simp only [step] at run
      split at run
      · next can =>
        obtain ⟨ready, on, -, one⟩ := can
        split at run
        · next fresh =>
          cases run
          exact .swtch c p ready on one (by rw [fresh]; rfl) _ (Or.inl ⟨fresh, rfl⟩)
        · next was parked =>
          cases run
          exact .swtch c p ready on one (by rw [parked]; rfl) _ (Or.inr ⟨was, parked, rfl⟩)
        · cases run
      · cases run
  | restore c =>
      simp only [step] at run
      split at run
      · cases run
      · next p on =>
        split at run <;> cases run
        next was back => exact .restore c p on was back
  | context c p =>
      simp only [step] at run
      split at run <;> cases run
      next can => exact .context c p can.2.2

/-! ## The count of the held locks -/

structure Nested (held : Nat → List Lock) (s : State) : Prop where
  ledger : Ledger s.lock held
  noff : ∀ c, s.halted c = none →
    (s.cpu c).noff = (held c).length + (if (s.spins c).isSome then 1 else 0)
  intr : ∀ c, 0 < (s.cpu c).noff → (s.cpu c).intr = false
  here : ∀ c p, s.on c = .proc p → (s.phase p).away = false
  home : ∀ c d, s.on c = .sched d → d = c
  apart : ∀ c d, s.on c = s.on d → c = d
  popped : ∀ c, s.halted c ≠ some .popOff ∧ s.halted c ≠ some .popOffInterruptible

section Steps
variable {s s' : State} {held : Nat → List Lock} {c : Nat} {l : Lock} {p : Slot}

theorem Nested.halt (nested : Nested held s) {why : Panic}
    (other : why ≠ .popOff ∧ why ≠ .popOffInterruptible)
    (c : Nat) : Nested held (s.halt c why) := by
  obtain ⟨ledger, noff, intr, here, home, apart, popped⟩ := nested
  refine ⟨ledger, ?_, intr, here, home, apart, ?_⟩ <;>
    (simp only [State.halt, Function.update_apply]; grind)

theorem Nested.intr_set (nested : Nested held s) (outside : (s.cpu c).noff = 0) (on : Bool) :
    Nested held (s.setCpu c { s.cpu c with intr := on }) := by
  obtain ⟨ledger, noff, intr, here, home, apart, popped⟩ := nested
  refine ⟨ledger, ?_, ?_, here, home, apart, popped⟩ <;>
    (simp only [State.setCpu, Function.update_apply]; grind)

theorem Nested.acquire (nested : Nested held s) (ready : Ready s c) (l : Lock) :
    Nested held (acquire s c l) := by
  obtain ⟨ledger, noff, intr, here, home, apart, popped⟩ := nested
  have quiet := ready.2.1
  unfold Nesting.acquire
  split
  · refine ⟨ledger, ?_, ?_, here, home, apart, ?_⟩ <;>
      (simp only [State.setCpu, State.halt, Function.update_apply]; grind [Cpu.pushOff])
  · refine ⟨ledger, ?_, ?_, here, home, apart, popped⟩ <;>
      (simp only [State.setCpu, State.setSpins, Function.update_apply]; grind [Cpu.pushOff])

theorem Nested.take (nested : Nested held s) (alive : s.halted c = none) (spins : s.spins c = some l)
    (free : s.lock l = none) :
    Nested (Function.update held c (l :: held c)) ((s.setLock l (some c)).setSpins c none) := by
  obtain ⟨ledger, noff, intr, here, home, apart, popped⟩ := nested
  refine ⟨?_, ?_, intr, here, home, apart, popped⟩
  · refine ledger.acquire free (Function.update_self ..)
      (fun k differ => Function.update_of_ne differ ..) ?_
      fun d differ => Function.update_of_ne differ ..
    rw [Function.update_self]
  · (simp only [State.setLock, State.setSpins, Function.update_apply]; grind)

theorem Nested.counted (nested : Nested held s) (alive : s.halted c = none) (mine : s.lock l = some c) :
    0 < (s.cpu c).noff := by
  have inside := (nested.ledger.owns l c).mpr mine
  have some_ := List.length_pos_of_mem inside
  rw [nested.noff c alive]
  omega

theorem release_cases (nested : Nested held s) (ready : Ready s c) (l : Lock) :
    (s.lock l ≠ some c ∧ release s c l = s.halt c .release) ∨
    (s.lock l = some c ∧ 0 < (s.cpu c).noff ∧
      release s c l = (s.setLock l none).setCpu c { s.cpu c with
        noff := (s.cpu c).noff - 1, intr := decide ((s.cpu c).noff - 1 = 0) && (s.cpu c).intena }) := by
  unfold release
  by_cases mine : s.lock l = some c
  · have some_ := nested.counted ready.1 mine
    refine Or.inr ⟨mine, some_, ?_⟩
    rw [if_neg (not_not_intro mine), Cpu.popOff_ok some_ (nested.intr c some_)]
  · exact Or.inl ⟨mine, if_pos mine⟩

theorem Nested.release (nested : Nested held s) (ready : Ready s c) (l : Lock) :
    ∃ held', Nested held' (release s c l) := by
  rcases release_cases nested ready l with ⟨-, halts⟩ | ⟨mine, some_, frees⟩
  · rw [halts]
    exact ⟨held, nested.halt (by decide) c⟩
  · rw [frees]
    obtain ⟨ledger, noff, intr, here, home, apart, popped⟩ := nested
    have inside := (ledger.owns l c).mpr mine
    have shuffle := List.perm_cons_erase inside
    refine ⟨Function.update held c ((held c).erase l), ?_, ?_, ?_, here, home, apart, popped⟩
    · refine ledger.release (Function.update_self ..)
        (fun k differ => Function.update_of_ne differ ..) ?_
        fun d differ => Function.update_of_ne differ ..
      rwa [Function.update_self]
    · have length := shuffle.length_eq
      have quiet := ready.2.1
      (simp only [State.setCpu, State.setLock, Function.update_apply]; grind)
    · (simp only [State.setCpu, State.setLock, Function.update_apply]; grind)

theorem Nested.sched (nested : Nested held s) (on : s.on c = .proc p) : Nested held (sched s c p) := by
  unfold Nesting.sched
  split
  · exact nested.halt (by decide) c
  split
  · exact nested.halt (by decide) c
  split
  · exact nested.halt (by decide) c
  · obtain ⟨ledger, noff, intr, here, home, apart, popped⟩ := nested
    refine ⟨ledger, noff, intr, ?_, ?_, ?_, popped⟩ <;>
      (simp only [State.move, Function.update_apply]; grind)

theorem Nested.swtch (nested : Nested held s) (away : (s.phase p).away)
    {phase : Phase} (arrives : phase.away = false) : Nested held (s.move c (.proc p) p phase) := by
  obtain ⟨ledger, noff, intr, here, home, apart, popped⟩ := nested
  refine ⟨ledger, noff, intr, ?_, ?_, ?_, popped⟩ <;>
    (simp only [State.move, Function.update_apply]; grind)

theorem Nested.restore (nested : Nested held s) (on : s.on c = .proc p) (was : Bool) :
    Nested held ((s.setCpu c { s.cpu c with intena := was }).move c (.proc p) p .running) := by
  obtain ⟨ledger, noff, intr, here, home, apart, popped⟩ := nested
  refine ⟨ledger, ?_, ?_, ?_, ?_, ?_, popped⟩ <;>
    (simp only [State.move, State.setCpu, Function.update_apply]; grind [Phase.away])

theorem Nested.context (nested : Nested held s) (away : (s.phase p).away) :
    Nested held { s with phase := Function.update s.phase p .fresh } := by
  obtain ⟨ledger, noff, intr, here, home, apart, popped⟩ := nested
  refine ⟨ledger, noff, intr, ?_, home, apart, popped⟩
  (simp only [Function.update_apply]; grind)

theorem Nested.step (nested : Nested held s) {e : Event} (turn : Turn s e s') :
    ∃ held', Nested held' s' := by
  cases turn with
  | intr c on ready outside => exact ⟨held, nested.intr_set outside on⟩
  | acquire c l ready => exact ⟨held, nested.acquire ready l⟩
  | take c l alive spins free => exact ⟨_, nested.take alive spins free⟩
  | release c l ready => exact nested.release ready l
  | sched c p ready on => exact ⟨held, nested.sched on⟩
  | swtch c p ready on one away phase arrives =>
      refine ⟨held, nested.swtch away ?_⟩
      rcases arrives with ⟨-, rfl⟩ | ⟨was, -, rfl⟩ <;> rfl
  | restore c p on was back => exact ⟨held, nested.restore on was⟩
  | context c p away => exact ⟨held, nested.context away⟩

end Steps

theorem boot_nested : Nested (fun _ => []) boot where
  ledger := ⟨fun l c => by simp [boot], fun c => List.nodup_nil⟩
  noff := fun c _ => rfl
  intr := fun c no => absurd no (Nat.lt_irrefl 0)
  here := fun c p on => by cases on
  home := fun c d on => by cases on; rfl
  apart := fun c d same => by cases same; rfl
  popped := fun c => ⟨by simp [boot], by simp [boot]⟩

/-! ## Sections of a process -/

/-- Its thread does the outermost `push_off` of a section. -/
def Enters (s s' : State) (p : Slot) (c : Nat) : Prop :=
  s.on c = .proc p ∧ (s.cpu c).noff = 0 ∧ 0 < (s'.cpu c).noff

/-- `noff` returns to 0 in its thread. -/
def Leaves (s s' : State) (p : Slot) (c : Nat) : Prop :=
  s.on c = .proc p ∧ 0 < (s.cpu c).noff ∧ (s'.cpu c).noff = 0

/-- The thread is in a section that it entered when the interrupt bit was `b`.  The bit is in the
CPU's `intena`, or in the local variable of `sched` until that is restored. -/
def Within (p : Slot) (b : Bool) (s : State) : Prop :=
  s.phase p = .parked b ∨ ∃ c, s.on c = .proc p ∧ 0 < (s.cpu c).noff ∧
    (s.phase p = .back b ∨ s.phase p = .running ∧ (s.cpu c).intena = b)

section Sections
variable {s s' : State} {held : Nat → List Lock} {c d : Nat} {p : Slot} {b : Bool} {e : Event}

theorem acquire_same (s : State) (c : Nat) (l : Lock) :
    (acquire s c l).on = s.on ∧ (acquire s c l).phase = s.phase ∧
    (acquire s c l).cpu = Function.update s.cpu c (s.cpu c).pushOff := by
  unfold acquire
  split <;> exact ⟨rfl, rfl, rfl⟩

theorem release_same (nested : Nested held s) (ready : Ready s c) (l : Lock) :
    (release s c l).on = s.on ∧ (release s c l).phase = s.phase ∧
    ((release s c l).cpu = s.cpu ∨ (release s c l).cpu = Function.update s.cpu c { s.cpu c with
      noff := (s.cpu c).noff - 1, intr := decide ((s.cpu c).noff - 1 = 0) && (s.cpu c).intena }) := by
  rcases release_cases nested ready l with ⟨-, halts⟩ | ⟨-, -, frees⟩
  · rw [halts]
    exact ⟨rfl, rfl, Or.inl rfl⟩
  · rw [frees]
    exact ⟨rfl, rfl, Or.inr rfl⟩

theorem sched_same (s : State) (c : Nat) (p : Slot) : (sched s c p).cpu = s.cpu ∧
    ((sched s c p).on = s.on ∧ (sched s c p).phase = s.phase ∨
      sched s c p = s.move c (.sched c) p (.parked (s.cpu c).intena)) := by
  unfold sched
  split
  · exact ⟨rfl, Or.inl ⟨rfl, rfl⟩⟩
  split
  · exact ⟨rfl, Or.inl ⟨rfl, rfl⟩⟩
  split
  · exact ⟨rfl, Or.inl ⟨rfl, rfl⟩⟩
  · exact ⟨rfl, Or.inr rfl⟩

theorem raises (nested : Nested held s) (turn : Turn s e s') (more : (s.cpu c).noff < (s'.cpu c).noff) :
    ∃ l, Ready s c ∧ s' = acquire s c l := by
  cases turn with
  | acquire d l ready =>
      obtain ⟨-, -, cpu⟩ := acquire_same s d l
      rw [cpu] at more
      by_cases same : c = d
      · exact ⟨l, same ▸ ready, by rw [same]⟩
      · rw [Function.update_of_ne same] at more
        exact absurd more (Nat.lt_irrefl _)
  | release d l ready =>
      obtain ⟨-, -, cpu | cpu⟩ := release_same nested ready l
      · rw [cpu] at more
        exact absurd more (Nat.lt_irrefl _)
      · rw [cpu] at more
        simp only [Function.update_apply] at more
        grind
  | sched d p ready on =>
      rw [(sched_same s d p).1] at more
      exact absurd more (Nat.lt_irrefl _)
  | take => exact absurd more (Nat.lt_irrefl _)
  | swtch => exact absurd more (Nat.lt_irrefl _)
  | context => exact absurd more (Nat.lt_irrefl _)
  | intr d on ready outside =>
      simp only [State.setCpu, Function.update_apply] at more
      grind
  | restore d p on was back =>
      simp only [State.move, State.setCpu, Function.update_apply] at more
      grind

theorem lowers (nested : Nested held s) (turn : Turn s e s') (less : (s'.cpu c).noff < (s.cpu c).noff) :
    (∃ l, e = .release c l) ∧ Ready s c ∧
    (s'.cpu c).intr = (decide ((s'.cpu c).noff = 0) && (s.cpu c).intena) := by
  cases turn with
  | acquire d l ready =>
      obtain ⟨-, -, cpu⟩ := acquire_same s d l
      rw [cpu] at less
      simp only [Function.update_apply] at less
      grind [Cpu.pushOff]
  | release d l ready =>
      obtain ⟨-, -, cpu | cpu⟩ := release_same nested ready l
      · rw [cpu] at less
        exact absurd less (Nat.lt_irrefl _)
      · rw [cpu] at less ⊢
        by_cases same : c = d
        · subst same
          refine ⟨⟨l, rfl⟩, ready, ?_⟩
          rw [Function.update_self]
        · rw [Function.update_of_ne same] at less
          exact absurd less (Nat.lt_irrefl _)
  | sched d p ready on =>
      rw [(sched_same s d p).1] at less
      exact absurd less (Nat.lt_irrefl _)
  | take => exact absurd less (Nat.lt_irrefl _)
  | swtch => exact absurd less (Nat.lt_irrefl _)
  | context => exact absurd less (Nat.lt_irrefl _)
  | intr d on ready outside =>
      simp only [State.setCpu, Function.update_apply] at less
      grind
  | restore d p on was back =>
      simp only [State.move, State.setCpu, Function.update_apply] at less
      grind

theorem Ready.running (ready : Ready s c) (on : s.on c = .proc p) : s.phase p = .running := by
  have phase := ready.2.2
  rwa [on] at phase

theorem enters_within (nested : Nested held s) (turn : Turn s e s') (enters : Enters s s' p c) :
    Within p (s.cpu c).intr s' := by
  obtain ⟨on, outside, inside⟩ := enters
  obtain ⟨l, ready, rfl⟩ := raises nested turn (by rw [outside]; exact inside)
  obtain ⟨on', phase', cpu'⟩ := acquire_same s c l
  refine Or.inr ⟨c, by rw [on', on], inside, Or.inr ⟨by rw [phase', ready.running on], ?_⟩⟩
  rw [cpu', Function.update_self]
  exact if_pos outside

theorem Within.cpu (within : Within p b s) (nested : Nested held s) (on : s.on c = .proc p) :
    0 < (s.cpu c).noff ∧ (s.phase p = .back b ∨ s.phase p = .running ∧ (s.cpu c).intena = b) := by
  rcases within with parked | ⟨d, on', inside, phase⟩
  · have here := nested.here c p on
    rw [parked] at here
    cases here
  · cases nested.apart c d (on.trans on'.symm)
    exact ⟨inside, phase⟩

theorem Within.leaves (within : Within p b s) (nested : Nested held s) (turn : Turn s e s')
    (leaves : Leaves s s' p c) : (s'.cpu c).intr = b := by
  obtain ⟨on, inside, outside⟩ := leaves
  obtain ⟨-, ready, bit⟩ := lowers nested turn (by rw [outside]; exact inside)
  obtain ⟨-, back | ⟨-, intena⟩⟩ := within.cpu nested on
  · have running := ready.running on
    rw [back] at running
    cases running
  · rw [bit, outside, intena, decide_eq_true rfl, Bool.true_and]

theorem Within.turn (within : Within p b s) (nested : Nested held s) (turn : Turn s e s')
    (same : ∀ c, e ≠ .context c p) (stays : ∀ c, ¬ Leaves s s' p c) : Within p b s' := by
  have executed := fun c (on : s.on c = .proc p) => within.cpu nested on
  unfold Leaves at stays
  unfold Within at within ⊢
  cases turn with
  | intr d on ready outside =>
      simp only [State.setCpu, Function.update_apply]
      grind
  | acquire d l ready =>
      obtain ⟨on', phase', cpu'⟩ := acquire_same s d l
      rw [on', phase', cpu']
      simp only [Function.update_apply]
      grind [Cpu.pushOff]
  | take d l alive spins free => exact within
  | release d l ready =>
      obtain ⟨on', phase', cpu'⟩ := release_same nested ready l
      rw [on', phase']
      rcases cpu' with cpu' | cpu'
      · rwa [cpu']
      · simp only [cpu', Function.update_apply] at stays ⊢
        grind
  | sched d q ready on =>
      obtain ⟨cpu', ⟨on', phase'⟩ | moved⟩ := sched_same s d q
      · rwa [on', phase', cpu']
      · rw [moved]
        have running := ready.running on
        simp only [State.move, Function.update_apply]
        grind
  | swtch d q ready on one away phase arrives =>
      simp only [State.move, Function.update_apply]
      grind [Phase.away]
  | restore d q on was back =>
      simp only [State.move, State.setCpu, Function.update_apply]
      grind
  | context d q away =>
      simp only [Function.update_apply]
      grind

end Sections

/-! ## Runs -/

theorem nested_run (r : Run step) (start : r.state 0 = boot) :
    ∀ i, i ≤ r.len → ∃ held, Nested held (r.state i) := by
  refine r.invariant (fun s => ∃ held, Nested held s) ⟨_, start ▸ boot_nested⟩ ?_
  rintro s e s' run ⟨held, nested⟩
  exact nested.step (step_turn run)

/-- Interrupts are off whenever `noff` is not zero, `pop_off` never panics, and a thread that leaves
a section it entered finds the interrupt bit as it was at the outermost `push_off`, on whichever
CPU it is then. -/
theorem interrupts_nested (r : Run step) (start : r.state 0 = boot) :
    (∀ i, i ≤ r.len → ∀ c, 0 < ((r.state i).cpu c).noff → ((r.state i).cpu c).intr = false) ∧
    (∀ i, i ≤ r.len → ∀ c,
      (r.state i).halted c ≠ some .popOff ∧ (r.state i).halted c ≠ some .popOffInterruptible) ∧
    (∀ i j p c d, i < j → j < r.len → Enters (r.state i) (r.state (i + 1)) p c →
      Leaves (r.state j) (r.state (j + 1)) p d →
      (∀ k, i < k → k < j →
        (∀ a, ¬ Leaves (r.state k) (r.state (k + 1)) p a) ∧ ∀ a, r.event k ≠ .context a p) →
      ((r.state (j + 1)).cpu d).intr = ((r.state i).cpu c).intr) := by
  have nested := nested_run r start
  refine ⟨?_, ?_, ?_⟩
  · intro i low c inside
    obtain ⟨held, nested⟩ := nested i low
    exact nested.intr c inside
  · intro i low c
    obtain ⟨held, nested⟩ := nested i low
    exact nested.popped c
  · intro i j p c d before low enters leaves stays
    have within := r.between (fun k => Within p ((r.state i).cpu c).intr (r.state k)) (i + 1) j
      (Nat.le_of_lt low) ?_ ?_ j before (Nat.le_refl j)
    · obtain ⟨held, nested⟩ := nested j (Nat.le_of_lt low)
      exact within.leaves nested (step_turn (r.next j low)) leaves
    · obtain ⟨held, nested⟩ := nested i (by omega)
      exact enters_within nested (step_turn (r.next i (by omega))) enters
    · intro k after below run within
      obtain ⟨held, nested⟩ := nested k (by omega)
      obtain ⟨inside, thread⟩ := stays k after below
      exact within.turn nested (step_turn run) thread inside

/-- A process sleeps: CPU 0 leaves its thread and CPU 1 goes on with it. -/
def wander : List Event :=
  [.acquire 0 (.proc 0), .take 0, .swtch 0 0, .release 0 (.proc 0), .intr 0 true,
    .acquire 0 (.cond 0), .take 0, .acquire 0 (.proc 0), .take 0, .release 0 (.cond 0), .sched 0,
    .release 0 (.proc 0), .acquire 1 (.proc 0), .take 1, .swtch 1 0, .restore 1, .release 1 (.proc 0)]

def wanderRun : Run step := Run.ofEvents step boot wander (.take 0) (by decide +kernel)

theorem wander_enabled : ((wanderRun.state 17).cpu 1).intr = ((wanderRun.state 5).cpu 0).intr ∧
    ((wanderRun.state 5).cpu 0).intr = true ∧ ((wanderRun.state 12).cpu 1).intr = false := by
  have start : wanderRun.state 0 = boot := Run.ofEvents_zero step boot wander (.take 0)
    (by decide +kernel)
  refine ⟨(interrupts_nested wanderRun start).2.2 5 16 0 0 1 (by decide) (by decide)
    ⟨by decide +kernel, by decide +kernel, by decide +kernel⟩
    ⟨by decide +kernel, by decide +kernel, by decide +kernel⟩ ?_, by decide +kernel, by decide +kernel⟩
  intro k after before
  have inside : k < wanderRun.len := Nat.lt_trans before (by decide)
  obtain ⟨held, nested⟩ := nested_run wanderRun start k (Nat.le_of_lt inside)
  have turn := step_turn (wanderRun.next k inside)
  refine ⟨?_, ?_⟩
  · intro a leaves
    obtain ⟨⟨l, is⟩, -⟩ := lowers nested turn (by rw [leaves.2.2]; exact leaves.2.1)
    have check : ∀ k, k < 16 → 5 < k → ∀ a l, wander.getD k (.take 0) = .release a l →
        ¬ ((wanderRun.state k).on a = .proc 0 ∧ ((wanderRun.state (k + 1)).cpu a).noff = 0) := by
      intro k before after a l is
      interval_cases k <;> cases is <;> decide +kernel
    exact check k before after a l is ⟨leaves.1, leaves.2.2⟩
  · intro a is
    have check : ∀ k, k < 16 → 5 < k → wander.getD k (.take 0) ≠ .context a 0 := by
      intro k before after is
      interval_cases k <;> cases is
    exact check k before after is

end Nesting

end Xv6Fcfs.Sched
