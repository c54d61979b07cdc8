import Xv6Fcfs.Sched.Preserve

/-!
# No deadlock among the process locks

`scheduler` holds the lock of its candidate while it spins for the locks of later slots;
everybody else holds at most `wait_lock` when taking a process lock.  So `wait_lock` comes
first, the process locks follow in the order of the table, and no CPU waits against that order.
-/

set_option autoImplicit false

namespace Xv6Fcfs.Sched

open Xv6Fcfs.Lib
open Xv6Fcfs.Process (Slot ProcState)

/-- CPU `c` is about to acquire `l`, or spins for it. -/
def Wants (s : State) (c : Nat) (l : Lock) : Prop :=
  s.halted c = none ∧ ∃ choice mv,
    fetch (s.cpu c) s.mem choice (s.stack (s.on c)) = some mv ∧ mv.op = .acquire l

theorem Core.ordered {s : State} (core : Core s) : Ordered Lock.Table Lock.rank (Wants s) s.held := by
  intro c l table wants k inside tableK
  obtain ⟨_, choice, mv, run, op⟩ := wants
  exact (core.legal run).order l op table k inside tableK

theorem run_inv (r : Run step) (start : r.state 0 = boot) : ∀ i, i ≤ r.len → Inv (r.state i) := by
  refine r.invariant Inv ?_ fun _ _ _ run inv => step_inv run inv
  rw [start]
  exact ⟨boot_core, boot_table⟩

/-- In every reachable state the CPUs that spin for `wait_lock` or a process lock do not wait in
a circle, and none of them spins for a lock it holds itself. -/
theorem process_locks_acyclic (r : Run step) (start : r.state 0 = boot) (i : Nat) (le : i ≤ r.len) :
    (∀ c, ¬ Relation.TransGen
      (WaitsFor Lock.Table (Wants (r.state i)) (r.state i).lock) c c) ∧
    ∀ c l, l.Table → Wants (r.state i) c l → (r.state i).lock l ≠ some c := by
  have core := (run_inv r start i le).core
  refine ⟨core.ordered.acyclic core.ledger, ?_⟩
  intro c l table wants
  exact core.ordered.not_held core.ledger table wants

/-- Both CPUs start to scan the table and the second one spins for the lock of slot 0. -/
def twoScans : List Event :=
  [.step 0 .go, .step 0 .go, .step 0 .go, .step 1 .go, .step 1 .go]

theorem twoScans_acyclic :
    ∃ r : Run step, r.state 0 = boot ∧
      WaitsFor Lock.Table (Wants (r.state r.len)) (r.state r.len).lock 1 0 ∧
      ∀ c, ¬ Relation.TransGen
        (WaitsFor Lock.Table (Wants (r.state r.len)) (r.state r.len).lock) c c := by
  obtain ⟨r, start, ends⟩ := Run.exists_of_exec step boot twoScans (.step 0 .go)
    (fun s => s.lock (.proc 0) == some 0 && s.halted 1 == none &&
      s.stack (s.on 1) == [.scheduler (.scan table none)]) (by decide +kernel)
  simp only [Bool.and_eq_true, beq_iff_eq] at ends
  obtain ⟨⟨owned, alive⟩, stack⟩ := ends
  refine ⟨r, start, ?_, (process_locks_acyclic r start r.len (Nat.le_refl _)).1⟩
  refine ⟨.proc 0, trivial, ⟨alive, .go, ?_⟩, owned⟩
  rw [stack]
  exact ⟨_, rfl, rfl⟩

end Xv6Fcfs.Sched
