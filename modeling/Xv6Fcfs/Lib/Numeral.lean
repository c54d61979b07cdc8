import Mathlib.Data.Nat.Digits.Lemmas
import Mathlib.Tactic.Common

/-!
# Digits written from the lowest to the highest

A loop that divides at least once writes one digit for zero; of every other number it writes the
digits of `Nat.digits`.  A numeral is read from the highest digit to the lowest.
-/

set_option autoImplicit false

namespace Xv6Fcfs.Lib

def doDigits (b x : Nat) : List Nat := if x = 0 then [0] else Nat.digits b x

def readDigits (b : Nat) (ds : List Nat) : Nat := ds.foldl (fun acc d => acc * b + d) 0

section Digits
variable {b x k : Nat}

theorem readDigits_reverse (b : Nat) (ds : List Nat) : readDigits b ds.reverse = Nat.ofDigits b ds := by
  rw [readDigits, List.foldl_reverse, Nat.ofDigits_eq_foldr]
  congr 1
  funext d acc
  rw [Nat.add_comm, Nat.mul_comm, Nat.cast_id]

theorem doDigits_step (many : 1 < b) :
    doDigits b x = x % b :: if x / b = 0 then [] else doDigits b (x / b) := by
  unfold doDigits
  by_cases zero : x = 0
  · simp [zero]
  · rw [if_neg zero, Nat.digits_def' many (Nat.pos_of_ne_zero zero)]
    by_cases last : x / b = 0
    · rw [if_pos last, last, Nat.digits_zero]
    · rw [if_neg last, if_neg last]

theorem ofDigits_doDigits (b x : Nat) : Nat.ofDigits b (doDigits b x) = x := by
  unfold doDigits
  by_cases zero : x = 0
  · rw [if_pos zero, zero, Nat.ofDigits_singleton]
  · rw [if_neg zero, Nat.ofDigits_digits]

theorem doDigits_lt (many : 1 < b) {d : Nat} (written : d ∈ doDigits b x) : d < b := by
  unfold doDigits at written
  by_cases zero : x = 0
  · rw [if_pos zero, List.mem_singleton] at written
    omega
  · rw [if_neg zero] at written
    exact Nat.digits_lt_base many written

theorem doDigits_length (many : 1 < b) (some : k ≠ 0) (bound : x < b ^ k) :
    (doDigits b x).length ≤ k := by
  unfold doDigits
  by_cases zero : x = 0
  · rw [if_pos zero, List.length_singleton]
    omega
  · rw [if_neg zero]
    exact (Nat.digits_length_le_iff many x).mpr bound

theorem doDigits_highest (many : 1 < b) : x = 0 ∧ doDigits b x = [0] ∨
    ∃ low d, doDigits b x = low ++ [d] ∧ d ≠ 0 ∧ d < b := by
  by_cases zero : x = 0
  · exact Or.inl ⟨zero, if_pos zero⟩
  · have full : Nat.digits b x ≠ [] := Nat.digits_ne_nil_iff_ne_zero.mpr zero
    have split := List.dropLast_append_getLast full
    refine Or.inr ⟨(Nat.digits b x).dropLast, _, ?_, Nat.getLast_digit_ne_zero b zero,
      Nat.digits_lt_base many (List.getLast_mem full)⟩
    rw [doDigits, if_neg zero, split]

end Digits

end Xv6Fcfs.Lib
