import Mathlib.Algebra.Order.Group.Nat
import Mathlib.Tactic.Ring
import Mathlib.Tactic.Common

/-!
# Little-endian integers in byte arrays

The fields of an on-disk structure are integers of a fixed width at fixed offsets.
A byte array is a function of the offset; only the bytes of a field decide its
value, so fields that do not overlap can be read and written independently.
-/

set_option autoImplicit false

namespace Xv6Fcfs.Lib

/-! ## Tables -/

section Tables
variable {α : Type}

/-- Store `v` at `a`.  `Function.update` says the same, but its transport along the
equation of the keys makes it slow to evaluate. -/
def upd (t : Nat → α) (a : Nat) (v : α) : Nat → α := fun x => if x = a then v else t x

@[simp] theorem upd_self (a : Nat) (v : α) (t : Nat → α) : upd t a v a = v := if_pos rfl

@[simp] theorem upd_of_ne {a x : Nat} (differ : x ≠ a) (v : α) (t : Nat → α) :
    upd t a v x = t x := if_neg differ

theorem upd_cases (t : Nat → α) (a : Nat) (v : α) (x : Nat) :
    (x = a ∧ upd t a v x = v) ∨ (x ≠ a ∧ upd t a v x = t x) := by
  by_cases here : x = a
  · exact Or.inl ⟨here, if_pos here⟩
  · exact Or.inr ⟨here, if_neg here⟩

theorem upd_eq_self (t : Nat → α) (a : Nat) : upd t a (t a) = t := by
  funext x
  by_cases here : x = a
  · rw [here, upd_self]
  · rw [upd_of_ne here]

@[simp] theorem upd_upd (t : Nat → α) (a : Nat) (v w : α) : upd (upd t a v) a w = upd t a w := by
  funext x
  by_cases here : x = a
  · rw [here, upd_self, upd_self]
  · rw [upd_of_ne here, upd_of_ne here, upd_of_ne here]

end Tables

/-! ## Fields -/

abbrev Bytes := Nat → UInt8

/-- The integer of `w` bytes at offset `o`, lowest byte first. -/
def getLE (b : Bytes) (o : Nat) : Nat → Nat
  | 0 => 0
  | w + 1 => (b o).toNat + 256 * getLE b (o + 1) w

/-- Store the low `w` bytes of `v` at offset `o`. -/
def putLE (b : Bytes) (o w v : Nat) : Bytes := fun i =>
  if o ≤ i ∧ i < o + w then UInt8.ofNat (v / 256 ^ (i - o)) else b i

section Fields
variable {b b' : Bytes} {o w : Nat}

theorem getLE_congr : ∀ (w o : Nat), (∀ i, o ≤ i → i < o + w → b i = b' i) →
    getLE b o w = getLE b' o w := by
  intro w
  induction w with
  | zero => intro o _; rfl
  | succ w ih =>
      intro o same
      simp only [getLE]
      rw [same o (Nat.le_refl o) (by omega), ih (o + 1)]
      intro i low high
      exact same i (by omega) (by omega)

theorem getLE_lt (b : Bytes) : ∀ (w o : Nat), getLE b o w < 256 ^ w := by
  intro w
  induction w with
  | zero => intro o; simp [getLE]
  | succ w ih =>
      intro o
      have byte : (b o).toNat < 256 := (b o).toNat_lt
      have rest := ih (o + 1)
      simp only [getLE, pow_succ]
      omega

theorem getLE_putLE_same (b : Bytes) : ∀ (w o v : Nat), getLE (putLE b o w v) o w = v % 256 ^ w := by
  intro w
  induction w generalizing b with
  | zero => intro o v; simp [getLE, Nat.mod_one]
  | succ w ih =>
      intro o v
      have first : (putLE b o (w + 1) v o).toNat = v % 256 := by
        simp [putLE, UInt8.toNat_ofNat']
      have rest : getLE (putLE b o (w + 1) v) (o + 1) w =
          getLE (putLE b (o + 1) w (v / 256)) (o + 1) w := by
        apply getLE_congr
        intro i low high
        have inside : o ≤ i ∧ i < o + (w + 1) := by omega
        have inside' : o + 1 ≤ i ∧ i < o + 1 + w := by omega
        simp only [putLE, if_pos inside, if_pos inside']
        rw [Nat.div_div_eq_div_mul, ← pow_succ']
        congr 3
        omega
      simp only [getLE]
      rw [first, rest, ih, pow_succ', Nat.mod_mul]

theorem getLE_putLE_other (b : Bytes) {o w o' w' : Nat} (v : Nat)
    (apart : o + w ≤ o' ∨ o' + w' ≤ o) : getLE (putLE b o' w' v) o w = getLE b o w := by
  apply getLE_congr
  intro i low high
  have outside : ¬ (o' ≤ i ∧ i < o' + w') := by omega
  simp only [putLE, if_neg outside]

theorem putLE_outside (b : Bytes) {i o w : Nat} (v : Nat) (apart : i < o ∨ o + w ≤ i) :
    putLE b o w v i = b i := by
  have outside : ¬ (o ≤ i ∧ i < o + w) := by omega
  simp only [putLE, if_neg outside]

end Fields

/-! ## Arrays of integers -/

/-- The array of `n` integers of `w` bytes at offset `o`. -/
def putArray (b : Bytes) (o w : Nat) (v : Nat → Nat) (n : Nat) : Bytes :=
  (List.range n).foldl (fun b k => putLE b (o + w * k) w (v k)) b

section Arrays
variable {o w : Nat} (v : Nat → Nat)

theorem putArray_succ (b : Bytes) (n : Nat) :
    putArray b o w v (n + 1) = putLE (putArray b o w v n) (o + w * n) w (v n) := by
  simp only [putArray, List.range_succ, List.foldl_append, List.foldl_cons, List.foldl_nil]

theorem putArray_outside (b : Bytes) {i : Nat} : ∀ n : Nat, (i < o ∨ o + w * n ≤ i) →
    putArray b o w v n i = b i := by
  intro n
  induction n with
  | zero => intro _; rfl
  | succ n ih =>
      intro apart
      rw [Nat.mul_succ] at apart
      have before := Nat.zero_le (w * n)
      rw [putArray_succ, putLE_outside _ _ (by omega)]
      exact ih (by omega)

theorem getLE_putArray (b : Bytes) {k : Nat} : ∀ n : Nat, k < n →
    getLE (putArray b o w v n) (o + w * k) w = v k % 256 ^ w := by
  intro n
  induction n with
  | zero => intro bound; omega
  | succ n ih =>
      intro bound
      rw [putArray_succ]
      rcases Nat.lt_or_ge k n with below | edge
      · have step : w * k + w ≤ w * n := by
          rw [← Nat.mul_succ]
          exact Nat.mul_le_mul_left w below
        rw [getLE_putLE_other _ _ (by omega)]
        exact ih below
      · have : k = n := by omega
        rw [this, getLE_putLE_same]

end Arrays

end Xv6Fcfs.Lib
