import Mathlib.Data.List.FinRange
import Mathlib.Data.Fintype.Basic
import Mathlib.Order.Lattice
import Mathlib.Tactic.Common

/-!
# Scans over a fixed table

Two loops over a table of `n` entries: the search for the first entry with a
property, and the search for the entry of least key, where a later entry
replaces the candidate only if its key is strictly smaller.
-/

set_option autoImplicit false

namespace Xv6Fcfs.Lib

section First
variable {n : Nat}

/-- The first index at which `P` holds. -/
def firstIdx (P : Fin n → Bool) : Option (Fin n) := (List.finRange n).find? P

theorem firstIdx_some {P : Fin n → Bool} {i : Fin n} (found : firstIdx P = some i) :
    P i = true := by
  simpa using List.find?_some found

theorem firstIdx_none {P : Fin n → Bool} : firstIdx P = none ↔ ∀ i, P i = false := by
  simp [firstIdx, List.find?_eq_none]

theorem firstIdx_isSome_of {P : Fin n → Bool} {i : Fin n} (holds : P i = true) :
    ∃ j, firstIdx P = some j := by
  cases found : firstIdx P with
  | none => simp [firstIdx_none.mp found i] at holds
  | some j => exact ⟨j, rfl⟩

end First

section Least
variable {n : Nat} {K : Type} [LinearOrder K]

/-- `m` comes before `i`: a smaller key, or the same key at a smaller index. -/
def Precedes (key : Fin n → K) (m i : Fin n) : Prop :=
  key m < key i ∨ (key m = key i ∧ m < i)

instance (key : Fin n → K) (m i : Fin n) : Decidable (Precedes key m i) :=
  inferInstanceAs (Decidable (key m < key i ∨ (key m = key i ∧ m < i)))

theorem Precedes.trans {key : Fin n → K} {a b c : Fin n} (first : Precedes key a b)
    (second : Precedes key b c) : Precedes key a c := by
  unfold Precedes at *
  grind

theorem Precedes.asymm {key : Fin n → K} {a b : Fin n} (first : Precedes key a b) :
    ¬ Precedes key b a := by
  unfold Precedes at *
  grind

theorem Precedes.irrefl {key : Fin n → K} (a : Fin n) : ¬ Precedes key a a :=
  fun h => h.asymm h

/-- One iteration: keep the candidate unless entry `i` is selected and there is
no candidate yet or its key is strictly smaller. -/
def leastStep (sel : Fin n → Bool) (key : Fin n → K) (best : Option (Fin n)) (i : Fin n) :
    Option (Fin n) :=
  if sel i then
    match best with
    | none => some i
    | some b => if key i < key b then some i else some b
  else best

def least (sel : Fin n → Bool) (key : Fin n → K) : Option (Fin n) :=
  (List.finRange n).foldl (leastStep sel key) none

/-- What the candidate is after the entries of `seen`. -/
def LeastOf (sel : Fin n → Bool) (key : Fin n → K) (seen : List (Fin n)) :
    Option (Fin n) → Prop
  | none => ∀ i ∈ seen, sel i = false
  | some m => m ∈ seen ∧ sel m = true ∧ ∀ i ∈ seen, sel i = true → i ≠ m → Precedes key m i

theorem leastStep_leastOf (sel : Fin n → Bool) (key : Fin n → K) (seen : List (Fin n))
    (best : Option (Fin n)) (i : Fin n) (later : ∀ j ∈ seen, j < i)
    (inv : LeastOf sel key seen best) :
    LeastOf sel key (seen ++ [i]) (leastStep sel key best i) := by
  unfold leastStep
  cases chosen : sel i with
  | false =>
      simp only [Bool.false_eq_true, if_false]
      cases best with
      | none =>
          intro j member
          rcases List.mem_append.mp member with old | new
          · exact inv j old
          · simp_all
      | some m =>
          refine ⟨List.mem_append_left _ inv.1, inv.2.1, ?_⟩
          intro j member selected differ
          rcases List.mem_append.mp member with old | new
          · exact inv.2.2 j old selected differ
          · simp_all
  | true =>
      simp only [if_true]
      cases best with
      | none =>
          refine ⟨by simp, chosen, ?_⟩
          intro j member selected differ
          rcases List.mem_append.mp member with old | new
          · simp [inv j old] at selected
          · exact absurd (by simpa using new) differ
      | some m =>
          obtain ⟨mSeen, mSel, mLeast⟩ := inv
          by_cases smaller : key i < key m
          · simp only [if_pos smaller]
            refine ⟨by simp, chosen, ?_⟩
            intro j member selected differ
            rcases List.mem_append.mp member with old | new
            · by_cases same : j = m
              · subst same; exact Or.inl smaller
              · exact Precedes.trans (Or.inl smaller) (mLeast j old selected same)
            · exact absurd (by simpa using new) differ
          · simp only [if_neg smaller]
            refine ⟨List.mem_append_left _ mSeen, mSel, ?_⟩
            intro j member selected differ
            rcases List.mem_append.mp member with old | new
            · exact mLeast j old selected differ
            · have same : j = i := by simpa using new
              subst same
              rcases lt_or_eq_of_le (not_lt.mp smaller) with h | h
              · exact Or.inl h
              · exact Or.inr ⟨h, later m mSeen⟩

theorem foldl_leastOf (sel : Fin n → Bool) (key : Fin n → K) :
    ∀ (rest seen : List (Fin n)) (best : Option (Fin n)),
      (seen ++ rest).Pairwise (· < ·) → LeastOf sel key seen best →
        LeastOf sel key (seen ++ rest) (rest.foldl (leastStep sel key) best) := by
  intro rest
  induction rest with
  | nil => intro seen best _ inv; simpa using inv
  | cons i rest ih =>
      intro seen best sorted inv
      have later : ∀ j ∈ seen, j < i := by
        intro j member
        exact (List.pairwise_append.mp sorted).2.2 j member i (List.mem_cons_self ..)
      have grown := leastStep_leastOf sel key seen best i later inv
      have := ih (seen ++ [i]) (leastStep sel key best i) (by simpa using sorted) grown
      simpa using this

theorem least_leastOf (sel : Fin n → Bool) (key : Fin n → K) :
    LeastOf sel key (List.finRange n) (least sel key) :=
  foldl_leastOf sel key (List.finRange n) [] none
    (by simpa using List.pairwise_lt_finRange n) (by intro i h; simp at h)

theorem least_none {sel : Fin n → Bool} {key : Fin n → K} :
    least sel key = none ↔ ∀ i, sel i = false := by
  have spec := least_leastOf sel key
  constructor
  · intro empty i
    rw [empty] at spec
    exact spec i (List.mem_finRange i)
  · intro none
    cases found : least sel key with
    | none => rfl
    | some m =>
        rw [found] at spec
        exact absurd spec.2.1 (by simp [none m])

/-- The scan ends with the entry that precedes every other selected one. -/
theorem least_some {sel : Fin n → Bool} {key : Fin n → K} {m : Fin n} :
    least sel key = some m ↔
      sel m = true ∧ ∀ i, sel i = true → i ≠ m → Precedes key m i := by
  have spec := least_leastOf sel key
  constructor
  · intro found
    rw [found] at spec
    exact ⟨spec.2.1, fun i => spec.2.2 i (List.mem_finRange i)⟩
  · rintro ⟨selected, first⟩
    cases found : least sel key with
    | none => simp [least_none.mp found m] at selected
    | some k =>
        rw [found] at spec
        by_contra differ
        have ne : k ≠ m := fun h => differ (by rw [h])
        exact (first k spec.2.1 ne).asymm
          (spec.2.2 m (List.mem_finRange m) selected (Ne.symm ne))

end Least

end Xv6Fcfs.Lib
