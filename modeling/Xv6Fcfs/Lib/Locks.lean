import Mathlib.Logic.Relation
import Mathlib.Data.List.Nodup
import Mathlib.Tactic.Common

/-!
# Spinlocks and the threads that hold them

`holder` is what the lock words say, `held` what each thread believes it holds.
A `Ledger` is the agreement between the two.  Taking a free lock and giving one
back keep it, and when every thread takes its locks in increasing rank nobody
waits in a circle.
-/

set_option autoImplicit false

namespace Xv6Fcfs.Lib

variable {L C : Type}

structure Ledger (holder : L → Option C) (held : C → List L) : Prop where
  owns : ∀ l c, l ∈ held c ↔ holder l = some c
  nodup : ∀ c, (held c).Nodup

namespace Ledger

variable {holder holder' : L → Option C} {held held' : C → List L} {c : C} {l : L}

theorem keep (ledger : Ledger holder held) (same : ∀ d, (held' d).Perm (held d)) :
    Ledger holder held' := by
  refine ⟨?_, ?_⟩
  · intro k d
    rw [(same d).mem_iff]
    exact ledger.owns k d
  · intro d
    exact (same d).nodup_iff.mpr (ledger.nodup d)

theorem acquire (ledger : Ledger holder held) (free : holder l = none)
    (taken : holder' l = some c) (others : ∀ k, k ≠ l → holder' k = holder k)
    (mine : (held' c).Perm (l :: held c)) (rest : ∀ d, d ≠ c → held' d = held d) :
    Ledger holder' held' := by
  have nobody : ∀ d, l ∉ held d := by
    intro d holds
    have := (ledger.owns l d).mp holds
    rw [free] at this
    cases this
  refine ⟨?_, ?_⟩
  · intro k d
    by_cases own : d = c
    · subst d
      rw [mine.mem_iff]
      by_cases here : k = l
      · subst k; simp [taken]
      · simp [here, others k here, ledger.owns k c]
    · rw [rest d own]
      by_cases here : k = l
      · subst k
        simp only [nobody d, taken, Option.some.injEq, false_iff]
        exact fun same => own same.symm
      · rw [others k here]
        exact ledger.owns k d
  · intro d
    by_cases own : d = c
    · subst d
      rw [mine.nodup_iff]
      exact List.nodup_cons.mpr ⟨nobody c, ledger.nodup c⟩
    · rw [rest d own]
      exact ledger.nodup d

theorem release (ledger : Ledger holder held) (gone : holder' l = none)
    (others : ∀ k, k ≠ l → holder' k = holder k)
    (mine : (held c).Perm (l :: held' c)) (rest : ∀ d, d ≠ c → held' d = held d) :
    Ledger holder' held' := by
  have mineNodup : (l :: held' c).Nodup := mine.nodup_iff.mp (ledger.nodup c)
  have owned : holder l = some c := (ledger.owns l c).mp (mine.mem_iff.mpr (by simp))
  refine ⟨?_, ?_⟩
  · intro k d
    by_cases own : d = c
    · subst d
      by_cases here : k = l
      · subst k
        simp only [gone, (List.nodup_cons.mp mineNodup).1, reduceCtorEq]
      · have := ledger.owns k c
        rw [mine.mem_iff] at this
        simpa [here, others k here] using this
    · rw [rest d own]
      by_cases here : k = l
      · subst k
        have elsewhere : l ∉ held d := by
          intro holds
          have := (ledger.owns l d).mp holds
          rw [owned] at this
          exact own (Option.some.inj this).symm
        simp [gone, elsewhere]
      · rw [others k here]
        exact ledger.owns k d
  · intro d
    by_cases own : d = c
    · subst d
      exact (List.nodup_cons.mp mineNodup).2
    · rw [rest d own]
      exact ledger.nodup d

end Ledger

/-! ## Waiting in a circle -/

/-- `c` spins on a lock of the given set that `d` holds. -/
def WaitsFor (Of : L → Prop) (wants : C → L → Prop) (holder : L → Option C) (c d : C) : Prop :=
  ∃ l, Of l ∧ wants c l ∧ holder l = some d

/-- Every lock of the set that a thread wants ranks above those of the set it holds. -/
def Ordered (Of : L → Prop) (rank : L → Nat) (wants : C → L → Prop) (held : C → List L) : Prop :=
  ∀ c l, Of l → wants c l → ∀ k ∈ held c, Of k → rank k < rank l

section Circle
variable {Of : L → Prop} {rank : L → Nat} {wants : C → L → Prop}
  {holder : L → Option C} {held : C → List L}

theorem Ordered.not_held (ordered : Ordered Of rank wants held) (ledger : Ledger holder held)
    {c : C} {l : L} (inside : Of l) (wanted : wants c l) : holder l ≠ some c := by
  intro mine
  have := ordered c l inside wanted l ((ledger.owns l c).mpr mine) inside
  omega

/-- Along a chain of waiting threads the wanted locks rank higher and higher. -/
theorem Ordered.climbs (ordered : Ordered Of rank wants held) (ledger : Ledger holder held)
    {c d : C} (chain : Relation.TransGen (WaitsFor Of wants holder) c d) :
    ∃ first last, Of first ∧ wants c first ∧ Of last ∧ holder last = some d ∧
      rank first ≤ rank last := by
  induction chain with
  | single edge =>
      obtain ⟨l, inside, wanted, owner⟩ := edge
      exact ⟨l, l, inside, wanted, inside, owner, Nat.le_refl _⟩
  | tail _ edge ih =>
      obtain ⟨first, last, insideFirst, wantedFirst, insideLast, ownerLast, up⟩ := ih
      obtain ⟨l, inside, wanted, owner⟩ := edge
      have above := ordered _ l inside wanted last ((ledger.owns _ _).mpr ownerLast) insideLast
      exact ⟨first, l, insideFirst, wantedFirst, inside, owner, by omega⟩

theorem Ordered.acyclic (ordered : Ordered Of rank wants held) (ledger : Ledger holder held)
    (c : C) :
    ¬ Relation.TransGen (WaitsFor Of wants holder) c c := by
  intro circle
  obtain ⟨first, last, insideFirst, wantedFirst, insideLast, ownerLast, up⟩ :=
    ordered.climbs ledger circle
  have above := ordered c first insideFirst wantedFirst last
    ((ledger.owns _ _).mpr ownerLast) insideLast
  omega

end Circle

end Xv6Fcfs.Lib
