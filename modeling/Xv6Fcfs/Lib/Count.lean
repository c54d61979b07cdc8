import Mathlib.Data.Nat.Count
import Mathlib.Tactic.Common

/-!
# Counting under a change at one point
-/

set_option autoImplicit false

namespace Xv6Fcfs.Lib

section Count
variable {p q : Nat → Prop} [DecidablePred p] [DecidablePred q]

theorem count_congr (n : Nat) (same : ∀ b, b < n → (q b ↔ p b)) : Nat.count q n = Nat.count p n :=
  Nat.le_antisymm (Nat.count_mono_left fun b bound => (same b bound).mp)
    (Nat.count_mono_left fun b bound => (same b bound).mpr)

/-- Two predicates that differ at `a` only have counts that differ by what they say
of `a`. -/
theorem count_change {a : Nat} : ∀ n : Nat, a < n → (∀ b, b < n → b ≠ a → (q b ↔ p b)) →
    Nat.count q n + (if p a then 1 else 0) = Nat.count p n + (if q a then 1 else 0) := by
  intro n
  induction n with
  | zero => intro bound; omega
  | succ n ih =>
      intro bound same
      rw [Nat.count_succ, Nat.count_succ]
      by_cases here : a = n
      · subst here
        rw [count_congr a fun b below => same b (by omega) (by omega)]
        omega
      · have rest := ih (by omega) fun b below => same b (by omega)
        simp only [same n (by omega) (Ne.symm here)]
        omega

end Count

end Xv6Fcfs.Lib
