import Mathlib.Algebra.GroupWithZero.Nat
import Mathlib.Data.List.Basic
import Mathlib.Tactic.Common

/-!
# A queue in a ring with wrapping counters

The ring has `n` places.  Two counters that wrap at `modulus` tell where the queue begins
and where it ends; a counter is turned into a place by taking it modulo `n`, which is
right as long as `n` divides `modulus`.
-/

set_option autoImplicit false

namespace Xv6Fcfs.Lib

variable {α : Type} {n modulus : Nat} [NeZero n]

/-- The places from `lo` on hold the list `l`, and `hi` is behind it. -/
structure Queued (modulus : Nat) (ring : Fin n → α) (lo hi : Nat) (l : List α) : Prop where
  short : l.length ≤ n
  low : lo < modulus
  count : hi = (lo + l.length) % modulus
  entries : ∀ j a, l[j]? = some a → ring (Fin.ofNat n (lo + j)) = a

theorem ofNat_mod (divides : n ∣ modulus) (i : Nat) : Fin.ofNat n (i % modulus) = Fin.ofNat n i :=
  Fin.ext (Nat.mod_mod_of_dvd i divides)

theorem ofNat_add_ne {i j k : Nat} (less : j < k) (near : k < n + j) :
    Fin.ofNat n (i + j) ≠ Fin.ofNat n (i + k) := by
  intro same
  have eq : (i + j) % n = (i + k) % n := congrArg Fin.val same
  have shift : (i + k) % n = ((i + j) % n + (k - j) % n) % n := by
    rw [← Nat.add_mod]
    congr 1
    omega
  have small : (k - j) % n = k - j := Nat.mod_eq_of_lt (by omega)
  have bound : (i + j) % n < n := Nat.mod_lt _ (Nat.pos_of_ne_zero (NeZero.ne n))
  rw [small] at shift
  by_cases wraps : (i + j) % n + (k - j) < n
  · have whole : ((i + j) % n + (k - j)) % n = (i + j) % n + (k - j) := Nat.mod_eq_of_lt wraps
    omega
  · have less : ((i + j) % n + (k - j)) % n = (i + j) % n + (k - j) - n := by
      rw [Nat.mod_eq_sub_mod (by omega), Nat.mod_eq_of_lt (by omega)]
    omega

namespace Queued
variable {ring : Fin n → α} {lo hi : Nat} {l : List α} {a : α}

theorem nil (low : lo < modulus) : Queued modulus ring lo lo [] where
  short := Nat.zero_le n
  low := low
  count := by simp [Nat.mod_eq_of_lt low]
  entries := by simp

theorem push (queue : Queued modulus ring lo hi l) (divides : n ∣ modulus) (room : l.length < n)
    (a : α) :
    Queued modulus (Function.update ring (Fin.ofNat n hi) a) lo ((hi + 1) % modulus) (l ++ [a]) := by
  have last : Fin.ofNat n hi = Fin.ofNat n (lo + l.length) := by
    rw [queue.count, ofNat_mod divides]
  refine ⟨?_, queue.low, ?_, ?_⟩
  · rw [List.length_append, List.length_singleton]
    exact room
  · rw [queue.count, List.length_append, List.length_singleton, Nat.mod_add_mod, Nat.add_assoc]
  · intro j b found
    rw [last]
    by_cases inside : j < l.length
    · rw [List.getElem?_append_left inside] at found
      rw [Function.update_of_ne (ofNat_add_ne inside (by omega))]
      exact queue.entries j b found
    · rw [List.getElem?_append_right (by omega)] at found
      have here : j = l.length := by
        by_contra differ
        rw [List.getElem?_eq_none (by simp; omega)] at found
        cases found
      subst here
      rw [Nat.sub_self] at found
      rw [Function.update_self]
      exact Option.some.inj found

theorem first (queue : Queued modulus ring lo hi (a :: l)) : ring (Fin.ofNat n lo) = a :=
  queue.entries 0 a rfl

theorem pop (queue : Queued modulus ring lo hi (a :: l)) (divides : n ∣ modulus) :
    Queued modulus ring ((lo + 1) % modulus) hi l := by
  have short := queue.short
  rw [List.length_cons] at short
  refine ⟨by omega, Nat.mod_lt _ (Nat.zero_lt_of_lt queue.low), ?_, ?_⟩
  · rw [queue.count, List.length_cons, Nat.mod_add_mod]
    congr 1
    omega
  · intro j b found
    have next := queue.entries (j + 1) b (by simpa using found)
    have place : Fin.ofNat n ((lo + 1) % modulus + j) = Fin.ofNat n (lo + (j + 1)) := by
      rw [← ofNat_mod divides, Nat.mod_add_mod, ofNat_mod divides]
      congr 1
      omega
    rw [place]
    exact next

theorem last (queue : Queued modulus ring lo hi (l ++ [a])) (divides : n ∣ modulus)
    (large : 0 < modulus) : ring (Fin.ofNat n ((hi + modulus - 1) % modulus)) = a ∧
      Queued modulus ring lo ((hi + modulus - 1) % modulus) l := by
  have short := queue.short
  have count := queue.count
  rw [List.length_append, List.length_singleton] at short count
  have back : (hi + modulus - 1) % modulus = (lo + l.length) % modulus := by
    rw [count]
    rcases Nat.eq_zero_or_pos ((lo + (l.length + 1)) % modulus) with zero | pos
    · obtain ⟨k, exact⟩ := Nat.dvd_of_mod_eq_zero zero
      have some : 0 < k := by
        rcases Nat.eq_zero_or_pos k with none | some
        · rw [none, Nat.mul_zero] at exact
          omega
        · exact some
      obtain ⟨k, rfl⟩ := Nat.exists_eq_succ_of_ne_zero (Nat.pos_iff_ne_zero.mp some)
      have total : lo + l.length = modulus - 1 + modulus * k := by
        rw [Nat.mul_succ] at exact
        omega
      rw [zero, total, Nat.add_mul_mod_self_left, Nat.zero_add]
    · have parts := Nat.div_add_mod (lo + (l.length + 1)) modulus
      have small := Nat.mod_lt (lo + (l.length + 1)) large
      have total : lo + l.length = (lo + (l.length + 1)) % modulus - 1 +
          modulus * ((lo + (l.length + 1)) / modulus) := by omega
      rw [total, Nat.add_mul_mod_self_left,
        show (lo + (l.length + 1)) % modulus + modulus - 1 =
          (lo + (l.length + 1)) % modulus - 1 + modulus by omega, Nat.add_mod_right]
  refine ⟨?_, by omega, queue.low, back, ?_⟩
  · rw [back, ofNat_mod divides]
    exact queue.entries l.length a (by simp)
  · intro j b found
    refine queue.entries j b ?_
    have inside : j < l.length := by
      by_contra outside
      rw [List.getElem?_eq_none (by omega)] at found
      cases found
    rw [List.getElem?_append_left inside]
    exact found

theorem empty_iff (queue : Queued modulus ring lo hi l) (larger : n < modulus) :
    lo = hi ↔ l = [] := by
  have short := queue.short
  have low := queue.low
  have count := queue.count
  constructor
  · intro same
    by_contra some
    have pos : 0 < l.length := List.length_pos_iff.mpr some
    by_cases wraps : lo + l.length < modulus
    · rw [Nat.mod_eq_of_lt wraps] at count
      omega
    · rw [Nat.mod_eq_sub_mod (by omega), Nat.mod_eq_of_lt (by omega)] at count
      omega
  · rintro rfl
    rw [count, List.length_nil, Nat.add_zero, Nat.mod_eq_of_lt low]

end Queued

end Xv6Fcfs.Lib
