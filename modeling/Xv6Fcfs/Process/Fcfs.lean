import Xv6Fcfs.Process.Machine
import Mathlib.Tactic.IntervalCases

/-!
# First come, first served on one CPU

`scheduler()` runs the runnable process of least pid and nothing takes the CPU
from a running process but its own call of `sleep` or `kexit`.  Pids grow with
each fork, so the order of service is the order of creation.  It is not the order
in which processes become ready: a process that sleeps keeps its pid and, when
woken, overtakes every younger process that was ready before it.
-/

set_option autoImplicit false

namespace Xv6Fcfs.Process

open Xv6Fcfs.Lib

section Step
variable {m m' : Machine} {e : Event}

/-- Timer interrupts included, nothing but its own call of `sleep` or `kexit`
takes the CPU from a process. -/
theorem effect_keeps_cpu {p : Slot} (running : m.cpu = some p) (effect : Effect m e m') :
    m'.cpu = some p ∨ CallsSleep m e ∨ CallsExit e := by
  cases effect with
  | idle => exact Or.inl running
  | booted => exact Or.inl running
  | forkFailed => exact Or.inl running
  | forked => exact Or.inl running
  | exited => exact Or.inr (Or.inr trivial)
  | reaped => exact Or.inl running
  | slept e q chan holds calls =>
      right; left
      rcases calls with rfl | ⟨⟨copied, rfl, blocks⟩, _⟩
      · trivial
      · exact ⟨q, holds, blocks⟩
  | killed => exact Or.inl running
  | dispatched q free => simp [free] at running

/-- A runnable process stays so, with its pid, until `scheduler()` picks it. -/
theorem effect_runnable {p : Slot} (ok : CpuOk m) (effect : Effect m e m')
    (ready : (m.kernel.proc p).state = .runnable) :
    ((m'.kernel.proc p).state = .runnable ∧
      (m'.kernel.proc p).pid = (m.kernel.proc p).pid) ∨
    (e = .dispatch ∧ m'.cpu = some p ∧ firstProc m.kernel = some p ∧
      (m'.kernel.proc p).pid = (m.kernel.proc p).pid) := by
  cases effect with
  | idle e k' quiet wakes => exact Or.inl ⟨wakes.runnable p ready, wakes.pid p⟩
  | booted mem rootInode np first free =>
      have differ : p ≠ np := fun same => by simp [same, unusedSlot_some free] at ready
      simp [differ, ready]
  | forkFailed mem q np running free =>
      have differ : p ≠ np := fun same => by simp [same, unusedSlot_some free] at ready
      simp [differ, ready, freeproc]
  | forked mem q np running free =>
      have differ : p ≠ np := fun same => by simp [same, unusedSlot_some free] at ready
      simp [differ, ready]
  | exited status q k' running notInit exit =>
      have differ : p ≠ q := fun same => by simp [same, (ok q).mpr running] at ready
      obtain ⟨s, shape, moved⟩ := exit.others p differ
      simp only [Kernel.setProc_other _ _ _ _ differ] at shape moved
      left
      rw [shape]
      rcases moved with same | ⟨asleep, _⟩
      · exact ⟨same.trans ready, rfl⟩
      · simp [asleep] at ready
  | reaped q pp running found =>
      have differ : p ≠ pp := fun same => by simp [same, (zombieChild_some found).2] at ready
      simp [differ, ready, freeproc]
  | slept e q chan running calls =>
      have differ : p ≠ q := fun same => by simp [same, (ok q).mpr running] at ready
      simp [differ, ready, sleep]
  | killed pid q pp running found =>
      left
      rw [kkill_proc found]
      by_cases same : p = pp
      · subst same
        simp [ready]
      · simp [same, ready]
  | dispatched q free chosen =>
      by_cases same : p = q
      · subst same
        exact Or.inr ⟨rfl, rfl, chosen, by simp⟩
      · simp [same, ready]

theorem effect_becomes_runnable {q : Slot} (ok : CpuOk m) (effect : Effect m e m')
    (before : (m.kernel.proc q).state ≠ .runnable)
    (after : (m'.kernel.proc q).state = .runnable) :
    ((m.kernel.proc q).state = .sleeping ∧
      (m'.kernel.proc q).pid = (m.kernel.proc q).pid) ∨
    (m'.kernel.proc q).pid = m.kernel.nextpid := by
  rcases effect_live ok effect q (by simp [after]) with ⟨live, pid⟩ | ⟨_, pid, _⟩
  · left
    refine ⟨?_, pid⟩
    cases effect with
    | idle e k' quiet wakes =>
        rcases wakes.proc q with same | ⟨asleep, _⟩
        · exact absurd (same ▸ after) before
        · exact asleep
    | booted mem rootInode np first free =>
        have differ : q ≠ np := fun same => live (same ▸ unusedSlot_some free)
        exact absurd (by simpa [differ] using after) before
    | forkFailed mem p np running free =>
        have differ : q ≠ np := fun same => live (same ▸ unusedSlot_some free)
        exact absurd (by simpa [differ, freeproc] using after) before
    | forked mem p np running free =>
        have differ : q ≠ np := fun same => live (same ▸ unusedSlot_some free)
        exact absurd (by simpa [differ] using after) before
    | exited status p k' running notInit exit =>
        have differ : q ≠ p := fun same => by
          subst same
          simp [exit.caller] at after
        obtain ⟨s, shape, moved⟩ := exit.others q differ
        simp only [Kernel.setProc_other _ _ _ _ differ] at shape moved
        rcases moved with same | ⟨asleep, _⟩
        · rw [shape] at after
          exact absurd (same ▸ after) before
        · exact asleep
    | reaped p pp running found =>
        by_cases same : q = pp
        · subst same
          simp [freeproc] at after
        · exact absurd (by simpa [same, freeproc] using after) before
    | slept e p chan running calls =>
        by_cases same : q = p
        · subst same
          simp [sleep] at after
        · exact absurd (by simpa [same, sleep] using after) before
    | killed pid p pp running found =>
        rw [kkill_proc found] at after
        by_cases same : q = pp
        · subst same
          by_contra awake
          exact before (by simpa [awake] using after)
        · exact absurd (by simpa [same] using after) before
    | dispatched p free chosen =>
        by_cases same : q = p
        · subst same
          simp at after
        · exact absurd (by simpa [same] using after) before
  · exact Or.inr pid

end Step

/-! ## Order of service -/

/-- Event `i` of the run is a turn of `scheduler()` that runs `p`. -/
def Dispatches (r : Run step) (i : Nat) (p : Slot) : Prop :=
  i < r.len ∧ r.event i = .dispatch ∧ (r.state (i + 1)).cpu = some p

/-- Event `i` is a `kfork` that creates the process `pid` in slot `p`. -/
def Forks (r : Run step) (i : Nat) (p : Slot) (pid : Int) : Prop :=
  i < r.len ∧ (∃ mem, r.event i = .kfork mem) ∧
    ((r.state i).kernel.proc p).state = .unused ∧
    ((r.state (i + 1)).kernel.proc p).state = .runnable ∧
    ((r.state (i + 1)).kernel.proc p).pid = pid

/-- The process `pid` calls `sleep` nowhere in the run. -/
def NeverSleeps (r : Run step) (pid : Int) : Prop :=
  ∀ i p, i < r.len → (r.state i).cpu = some p → ((r.state i).kernel.proc p).pid = pid →
    ¬ CallsSleep (r.state i) (r.event i)

/-- `p` holds the CPU in all states of `(i, t]`. -/
def Holds (r : Run step) (p : Slot) (i t : Nat) : Prop :=
  ∀ v, i < v → v ≤ t → (r.state v).cpu = some p

/-- The process `pid`, created in slot `p` by event `i`, runs for the first time
at event `d` and from then on without a break until its `kexit`, event `e`, which
leaves it a zombie. -/
structure RunsToExit (r : Run step) (i : Nat) (p : Slot) (pid : Int) (d e : Nat) : Prop where
  created : i < d
  order : d < e
  dispatched : Dispatches r d p
  first : ∀ t, i < t → t < d → ¬ Dispatches r t p
  holds : Holds r p d e
  exits : ∃ status, r.event e = .kexit status
  zombie : ((r.state (e + 1)).kernel.proc p).state = .zombie
  pid : ((r.state (e + 1)).kernel.proc p).pid = pid

section Runs
variable {r : Run step}

theorem dispatches_chosen {i : Nat} {p : Slot}
    (d : Dispatches r i p) : firstProc (r.state i).kernel = some p ∧
      (r.state i).cpu = none := by
  obtain ⟨inside, turn, taken⟩ := d
  have run := r.next i inside
  rw [turn] at run
  by_cases free : (r.state i).cpu = none
  · refine ⟨?_, free⟩
    simp only [step, if_pos free, Option.some.injEq] at run
    rw [← run] at taken
    unfold scheduler at taken
    cases chosen : firstProc (r.state i).kernel with
    | none => simp [chosen, free] at taken
    | some q => simpa [chosen] using taken
  · simp [step, free] at run

theorem dispatches_least (start : r.state 0 = boot) (noOverflow : NoOverflow r)
    {i : Nat} {p q : Slot} (d : Dispatches r i p)
    (ready : ((r.state i).kernel.proc q).state = .runnable) (differ : q ≠ p) :
    ((r.state i).kernel.proc p).pid < ((r.state i).kernel.proc q).pid := by
  have pids := run_pidsOk r start noOverflow i (by have := d.1; omega)
  obtain ⟨chosen, _⟩ := dispatches_chosen d
  obtain ⟨picked, first⟩ := firstProc_some.mp chosen
  rcases first q ready differ with smaller | ⟨same, _⟩
  · exact smaller
  · exact absurd (pids.distinct p q (by simp [picked]) (by simp [ready]) same).symm differ

theorem Holds.extend {p : Slot} {i t : Nat} (held : Holds r p i t)
    (next : (r.state (t + 1)).cpu = some p) : Holds r p i (t + 1) := by
  intro v above below
  rcases Nat.lt_or_ge v (t + 1) with inside | edge
  · exact held v above (by omega)
  · have : v = t + 1 := by omega
    rw [this]
    exact next

theorem Holds.single {p : Slot} {t : Nat} (next : (r.state (t + 1)).cpu = some p) :
    Holds r p t (t + 1) :=
  Holds.extend (fun v above below => by omega) next

/-- At some point of `(i, t)` the process `p`, on the CPU since `i`, calls `sleep`
or `kexit`. -/
def GivesUp (r : Run step) (p : Slot) (i t : Nat) : Prop :=
  ∃ u, i < u ∧ u < t ∧ Holds r p i u ∧
    (CallsSleep (r.state u) (r.event u) ∨ CallsExit (r.event u))

/-- Once dispatched, a process keeps the CPU until it calls `sleep` or `kexit`. -/
theorem holds_or_givesUp (start : r.state 0 = boot) {i : Nat} {p : Slot}
    (d : Dispatches r i p) :
    ∀ t, i + 1 ≤ t → t ≤ r.len → Holds r p i t ∨ GivesUp r p i t := by
  refine r.between (fun t => Holds r p i t ∨ GivesUp r p i t) (i + 1) r.len (Nat.le_refl _)
    (Or.inl (Holds.single d.2.2)) ?_
  intro t low high _ held
  rcases held with held | ⟨u, first, before, cpu, call⟩
  · have running := held t (by omega) (Nat.le_refl t)
    rcases effect_keeps_cpu running (run_effect r start high) with kept | called
    · exact Or.inl (held.extend kept)
    · exact Or.inr ⟨t, by omega, by omega, held, called⟩
  · exact Or.inr ⟨u, first, by omega, cpu, call⟩

theorem dispatch_after_givesUp (start : r.state 0 = boot) {i t : Nat} {p q : Slot}
    (d : Dispatches r i p) (d' : Dispatches r t q) (later : i < t) : GivesUp r p i t := by
  rcases holds_or_givesUp start d t later (by have := d'.1; omega) with held | called
  · have := held t later (Nat.le_refl t)
    simp [(dispatches_chosen d').2] at this
  · exact called

/-- The life of a process that never sleeps, seen at position `t`: not yet
dispatched, running since its first dispatch, or gone after one unbroken
stretch. -/
inductive Life (r : Run step) (i : Nat) (p : Slot) (pid : Int) (t : Nat) : Prop where
  | waiting (ready : ((r.state t).kernel.proc p).state = .runnable)
      (same : ((r.state t).kernel.proc p).pid = pid)
      (fresh : ∀ u, i < u → u < t → ¬ Dispatches r u p)
  | running (d : Nat) (same : ((r.state t).kernel.proc p).pid = pid) (created : i < d)
      (order : d < t) (dispatched : Dispatches r d p)
      (first : ∀ u, i < u → u < d → ¬ Dispatches r u p) (holds : Holds r p d t)
  | gone (d e : Nat) (past : e < t) (ran : RunsToExit r i p pid d e)

theorem life_step (start : r.state 0 = boot) {i : Nat} {p : Slot} {pid : Int}
    (never : NeverSleeps r pid) (t : Nat) (after : i < t) (inside : t < r.len)
    (life : Life r i p pid t) : Life r i p pid (t + 1) := by
  have ok := run_cpuOk r start t (by omega)
  have ok' := run_cpuOk r start (t + 1) (by omega)
  have effect := run_effect r start inside
  cases life with
  | waiting ready same fresh =>
      rcases effect_runnable ok effect ready with ⟨still, pid'⟩ | ⟨turn, taken, _, pid'⟩
      · refine .waiting still (pid'.trans same) ?_
        intro u above below
        rcases Nat.lt_or_ge u t with before | edge
        · exact fresh u above before
        · have : u = t := by omega
          subst this
          intro d
          simp [(ok' p).mpr d.2.2] at still
      · exact .running t (pid'.trans same) after (by omega) ⟨inside, turn, taken⟩ fresh
          (Holds.single taken)
  | running d same created order dispatched first holds =>
      have running := holds t order (Nat.le_refl t)
      rcases effect_keeps_cpu running effect with kept | sleeps | exits
      · refine .running d ?_ created (by omega) dispatched first (holds.extend kept)
        rcases effect_live ok effect p (by simp [(ok' p).mpr kept]) with ⟨_, pid'⟩ | ⟨free, _⟩
        · exact pid'.trans same
        · have := unusedSlot_some free
          simp [(ok p).mpr running] at this
      · exact absurd sleeps (never t p inside running same)
      · have ends : (∃ status, r.event t = .kexit status) ∧
            ((r.state (t + 1)).kernel.proc p).state = .zombie ∧
            ((r.state (t + 1)).kernel.proc p).pid = pid := by
          generalize r.event t = e, r.state (t + 1) = m' at effect exits
          cases effect with
          | exited status q k' taken notInit exit =>
              have : q = p := Option.some.inj (taken.symm.trans running)
              subst this
              refine ⟨⟨status, rfl⟩, by simp [exit.caller], ?_⟩
              simpa [exit.caller, closeFiles] using same
          | idle e k' quiet wakes => exact absurd exits quiet
          | slept e q chan taken calls =>
              rcases calls with rfl | ⟨⟨copied, rfl, _⟩, _⟩ <;> simp [CallsExit] at exits
          | _ => simp [CallsExit] at exits
        exact .gone d t (by omega)
          ⟨created, order, dispatched, first, holds, ends.1, ends.2.1, ends.2.2⟩
  | gone d e past ran => exact .gone d e (by omega) ran

theorem life_of_forks (start : r.state 0 = boot) {i : Nat} {p : Slot} {pid : Int}
    (forks : Forks r i p pid) (never : NeverSleeps r pid) :
    ∀ t, i + 1 ≤ t → t ≤ r.len → Life r i p pid t := by
  refine r.between (Life r i p pid) (i + 1) r.len (Nat.le_refl _) ?_ ?_
  · exact .waiting forks.2.2.2.1 forks.2.2.2.2 (fun u above below => by omega)
  · intro t low high _ life
    exact life_step start never t (by omega) high life

theorem nextpid_mono (start : r.state 0 = boot) (noOverflow : NoOverflow r) {i j : Nat}
    (order : i ≤ j) (within : j ≤ r.len) :
    (r.state i).kernel.nextpid ≤ (r.state j).kernel.nextpid := by
  refine r.between (fun t => (r.state i).kernel.nextpid ≤ (r.state t).kernel.nextpid) i j within
    (le_refl _) ?_ j order (Nat.le_refl j)
  intro t low high _ le
  exact le.trans (effect_nextpid_mono (run_pidsOk r start noOverflow t (by omega))
    (run_effect r start (by omega)) (noOverflow (t + 1) (by omega)))

theorem forks_pid_lt (start : r.state 0 = boot) (noOverflow : NoOverflow r) {i j : Nat}
    {a b : Slot} {x y : Int} (forkA : Forks r i a x) (forkB : Forks r j b y) (order : i < j) :
    x < y := by
  obtain ⟨insideA, _, _, readyA, rfl⟩ := forkA
  obtain ⟨insideB, _, unusedB, readyB, rfl⟩ := forkB
  have pids := run_pidsOk r start noOverflow (i + 1) (by omega)
  have low := (pids.range a (by simp [readyA])).2
  have mono := nextpid_mono start noOverflow (i := i + 1) (j := j) (by omega) (by omega)
  rcases effect_live (run_cpuOk r start j (by omega)) (run_effect r start insideB) b
    (by simp [readyB]) with ⟨live, _⟩ | ⟨_, new, _⟩
  · exact absurd unusedB live
  · omega

/-- A process that never sleeps has run and exited before any process forked
after it is dispatched. -/
theorem older_runs_first (start : r.state 0 = boot) (noOverflow : NoOverflow r) {i j k : Nat}
    {a b : Slot} {x y : Int} (forkA : Forks r i a x) (forkB : Forks r j b y) (order : i < j)
    (neverA : NeverSleeps r x) (later : j < k) (d : Dispatches r k b)
    (isB : ((r.state k).kernel.proc b).pid = y) :
    ∃ d e, e < k ∧ RunsToExit r i a x d e := by
  have pidLt := forks_pid_lt start noOverflow forkA forkB order
  have within : k ≤ r.len := by have := d.1; omega
  obtain ⟨_, free⟩ := dispatches_chosen d
  cases life_of_forks start forkA neverA k (by omega) within with
  | waiting ready same _ =>
      by_cases slot : a = b
      · subst slot
        omega
      · have := dispatches_least start noOverflow d ready slot
        omega
  | running d' same created order' dispatched first holds =>
      have := holds k order' (Nat.le_refl k)
      simp [free] at this
  | gone d' e past ran => exact ⟨d', e, past, ran⟩

end Runs

/-- What the scheduler guarantees along a run. -/
structure FcfsLaw (r : Run step) : Prop where
  /-- Every dispatch picks the runnable process of least pid. -/
  least : ∀ i p, Dispatches r i p → ((r.state i).kernel.proc p).state = .runnable ∧
    ∀ q, ((r.state i).kernel.proc q).state = .runnable → q ≠ p →
      ((r.state i).kernel.proc p).pid < ((r.state i).kernel.proc q).pid
  /-- A turn of the scheduler runs some process whenever one is runnable. -/
  serves : ∀ i q, i < r.len → r.event i = .dispatch →
    ((r.state i).kernel.proc q).state = .runnable → ∃ p, Dispatches r i p
  /-- Between two dispatches the first process calls `sleep` or `kexit`. -/
  noPreemption : ∀ i t p q, Dispatches r i p → Dispatches r t q → i < t → GivesUp r p i t
  /-- Processes that never sleep run one after the other in the order of their
  forks. -/
  inOrder : ∀ i j k a b x y, Forks r i a x → Forks r j b y → i < j →
    NeverSleeps r x → NeverSleeps r y → j < k → Dispatches r k b →
    ((r.state k).kernel.proc b).pid = y → ∃ d e, e < k ∧ RunsToExit r i a x d e

theorem scheduler_serves (r : Run step) (i : Nat) (q : Slot) (inside : i < r.len)
    (turn : r.event i = .dispatch) (ready : ((r.state i).kernel.proc q).state = .runnable) :
    ∃ p, Dispatches r i p := by
  have run := r.next i inside
  rw [turn] at run
  by_cases free : (r.state i).cpu = none
  · simp only [step, if_pos free, Option.some.injEq] at run
    cases chosen : firstProc (r.state i).kernel with
    | none => exact absurd ready (firstProc_none.mp chosen q)
    | some p =>
        refine ⟨p, inside, turn, ?_⟩
        rw [← run]
        simp [scheduler, chosen]
  · simp [step, free] at run

/-- First come, first served by order of creation, on every run from boot. -/
theorem scheduler_fcfs (r : Run step) (start : r.state 0 = boot) (noOverflow : NoOverflow r) :
    FcfsLaw r where
  least := by
    intro i p d
    refine ⟨(firstProc_some.mp (dispatches_chosen d).1).1, ?_⟩
    intro q ready differ
    exact dispatches_least start noOverflow d ready differ
  serves := scheduler_serves r
  noPreemption := fun _ _ _ _ d d' later => dispatch_after_givesUp start d d' later
  inOrder := by
    intro i j k a b x y forkA forkB order neverA _ later d isB
    exact older_runs_first start noOverflow forkA forkB order neverA later d isB

def someMem : ForkMem := ⟨some 1, some 2, true⟩

/-- `init` forks two children and waits; the first runs through a timer interrupt
to its exit, then the second runs. -/
def twoChildren : Run step :=
  Run.ofEvents step boot
    [.userinit someMem 1, .dispatch, .kfork someMem, .kfork someMem, .sleep (.other 0),
      .dispatch, .timer, .kexit 0, .dispatch] .timer (by decide +kernel)

theorem twoChildren_noOverflow : NoOverflow twoChildren := by
  intro i within
  have bound : i < 10 := Nat.lt_succ_of_le within
  interval_cases i <;> decide +kernel

theorem twoChildren_fcfs : FcfsLaw twoChildren ∧ Dispatches twoChildren 8 2 ∧
    Forks twoChildren 2 1 2 ∧ Forks twoChildren 3 2 3 := by
  refine ⟨scheduler_fcfs twoChildren rfl twoChildren_noOverflow, ?_, ?_, ?_⟩
  · exact ⟨by decide, rfl, by decide +kernel⟩
  · exact ⟨by decide, ⟨someMem, rfl⟩, by decide +kernel⟩
  · exact ⟨by decide, ⟨someMem, rfl⟩, by decide +kernel⟩

/-! ## Order of arrival -/

/-- Event `i` marks `p` runnable. -/
def Arrives (r : Run step) (i : Nat) (p : Slot) : Prop :=
  i < r.len ∧ ((r.state i).kernel.proc p).state ≠ .runnable ∧
    ((r.state (i + 1)).kernel.proc p).state = .runnable

/-- Of two processes waiting for the CPU, the one that became ready first is
dispatched first. -/
def ArrivalOrder (r : Run step) : Prop :=
  ∀ p q i j k, Arrives r i p → Arrives r j q → i < j → j < k →
    (∀ t, i < t → t < k → ¬ Dispatches r t p) →
    (∀ t, j < t → t < k → ¬ Dispatches r t q) → ¬ Dispatches r k q

/-- No event wakes a process while a process of larger pid is runnable. -/
def WakesYoungest (r : Run step) : Prop :=
  ∀ t, t < r.len → ∀ q, ((r.state t).kernel.proc q).state = .sleeping →
    ((r.state (t + 1)).kernel.proc q).state = .runnable →
    ∀ p, ((r.state t).kernel.proc p).state = .runnable →
      ((r.state t).kernel.proc p).pid < ((r.state t).kernel.proc q).pid

section Arrival
variable {r : Run step}

/-- A process that has arrived and has not been dispatched is still runnable,
under the pid it arrived with. -/
theorem waits_since_arrival (start : r.state 0 = boot) {p : Slot} {i k : Nat}
    (arrives : Arrives r i p) (within : k ≤ r.len)
    (waits : ∀ t, i < t → t < k → ¬ Dispatches r t p) :
    ∀ t, i + 1 ≤ t → t ≤ k → ((r.state t).kernel.proc p).state = .runnable ∧
      ((r.state t).kernel.proc p).pid = ((r.state (i + 1)).kernel.proc p).pid := by
  refine r.between (fun t => ((r.state t).kernel.proc p).state = .runnable ∧
      ((r.state t).kernel.proc p).pid = ((r.state (i + 1)).kernel.proc p).pid)
    (i + 1) k within ⟨arrives.2.2, rfl⟩ ?_
  intro t low high _ ⟨ready, same⟩
  rcases effect_runnable (run_cpuOk r start t (by omega)) (run_effect r start (by omega)) ready
    with ⟨still, pid⟩ | ⟨turn, taken, _, _⟩
  · exact ⟨still, pid.trans same⟩
  · exact absurd ⟨by omega, turn, taken⟩ (waits t (by omega) high)

/-- The arrival of `q` while `p` waits puts `q` behind `p` in pid order. -/
theorem arrives_behind (start : r.state 0 = boot) (noOverflow : NoOverflow r)
    (youngest : WakesYoungest r) {p q : Slot} {j : Nat} (arrives : Arrives r j q)
    (ready : ((r.state j).kernel.proc p).state = .runnable) :
    ((r.state j).kernel.proc p).pid < ((r.state (j + 1)).kernel.proc q).pid := by
  obtain ⟨inside, before, after⟩ := arrives
  rcases effect_becomes_runnable (run_cpuOk r start j (by omega)) (run_effect r start inside)
    before after with ⟨asleep, pid⟩ | new
  · rw [pid]
    exact youngest j inside q asleep after p ready
  · rw [new]
    exact ((run_pidsOk r start noOverflow j (by omega)).range p (by simp [ready])).2

end Arrival

/-- Service follows arrival as long as every process that is woken is younger
than all processes then ready. -/
theorem arrivalOrder_of_wakesYoungest (r : Run step) (start : r.state 0 = boot)
    (noOverflow : NoOverflow r) (youngest : WakesYoungest r) : ArrivalOrder r := by
  intro p q i j k arrivesP arrivesQ order later waitsP waitsQ dispatched
  have within : k ≤ r.len := by have := dispatched.1; omega
  have waitingP := waits_since_arrival start arrivesP within waitsP
  have waitingQ := waits_since_arrival start arrivesQ within waitsQ
  have behind := arrives_behind start noOverflow youngest arrivesQ
    (waitingP j (by omega) (by omega)).1
  have pidP : ((r.state k).kernel.proc p).pid = ((r.state j).kernel.proc p).pid :=
    (waitingP k (by omega) (Nat.le_refl k)).2.trans (waitingP j (by omega) (by omega)).2.symm
  have pidQ := (waitingQ k (by omega) (Nat.le_refl k)).2
  have differ : p ≠ q := by
    intro same
    subst same
    exact arrivesQ.2.1 (waitingP j (by omega) (by omega)).1
  have := dispatches_least start noOverflow dispatched
    (waitingP k (by omega) (Nat.le_refl k)).1 differ
  omega

/-- `init` and its child sleep and are woken in the order of their pids. -/
def orderlyWakes : Run step :=
  Run.ofEvents step boot
    [.userinit someMem 1, .dispatch, .kfork someMem, .sleep (.other 0), .dispatch,
      .sleep (.other 1), .device [.other 0], .device [.other 1], .dispatch] .timer
    (by decide +kernel)

theorem orderlyWakes_arrivalOrder : ArrivalOrder orderlyWakes := by
  refine arrivalOrder_of_wakesYoungest orderlyWakes rfl ?_ ?_
  · intro i within
    have bound : i < 10 := Nat.lt_succ_of_le within
    interval_cases i <;> decide +kernel
  · intro t inside
    have bound : t < 9 := inside
    interval_cases t <;> decide +kernel

/-- `init` waits; its child forks a process, which is ready at event 5, and exits,
which wakes `init` at event 6. -/
def wokenParent : Run step :=
  Run.ofEvents step boot
    [.userinit someMem 1, .dispatch, .kfork someMem, .kwait true, .dispatch, .kfork someMem,
      .kexit 0, .dispatch] .timer (by decide +kernel)

/-- `init` is dispatched although the grandchild became ready before it. -/
theorem wokenParent_overtakes : wokenParent.state 0 = boot ∧ ¬ ArrivalOrder wokenParent := by
  refine ⟨rfl, ?_⟩
  intro law
  apply law 2 0 5 6 7
  · exact ⟨by decide, by decide +kernel⟩
  · exact ⟨by decide, by decide +kernel⟩
  · decide
  · decide
  · intro t above below
    have : t = 6 := by omega
    subst this
    rintro ⟨_, turn, _⟩
    exact absurd turn (by decide)
  · intro t above below
    omega
  · exact ⟨by decide, rfl, by decide +kernel⟩

end Xv6Fcfs.Process
