import Xv6Fcfs.Lib.Bytes
import Mathlib.Tactic.Common

/-!
# Overlapping moves (`kernel/string.c`, `user/ulib.c`)

A pointer is a 64-bit number and pointer arithmetic wraps.  A memory gives the byte at each
address it has; loading or storing at another address faults, which is `none`.
-/

set_option autoImplicit false

namespace Xv6Fcfs.Clib

open Xv6Fcfs.Lib

abbrev Memory := Nat → Option UInt8

def load (m : Memory) (p : Nat) : Option UInt8 := m p

def store (m : Memory) (p : Nat) (c : UInt8) : Option Memory :=
  if (m p).isSome then some (upd m p (some c)) else none

/-- `p + n` for a pointer `p` -/
def advance (p : Nat) (n : Int) : Nat := ((p + n) % 2 ^ 64).toNat

/-- `while(n-- > 0) *d++ = *s++;` -/
def copyUp (m : Memory) (d s : Nat) : Nat → Option Memory
  | 0 => some m
  | n + 1 => do
      let c ← load m s
      let m ← store m d c
      copyUp m (advance d 1) (advance s 1) n

/-- `while(n-- > 0) *--d = *--s;` -/
def copyDown (m : Memory) (d s : Nat) : Nat → Option Memory
  | 0 => some m
  | n + 1 => do
      let c ← load m (advance s (-1))
      let m ← store m (advance d (-1)) c
      copyDown m (advance d (-1)) (advance s (-1)) n

/-- The kernel's `memmove`; `n` is unsigned.  The result is the pointer returned and the memory. -/
def Kernel.memmove (m : Memory) (dst src n : Nat) : Option (Nat × Memory) :=
  if n = 0 then some (dst, m)
  else if src < dst ∧ dst < advance src n then
    (copyDown m (advance dst n) (advance src n) n).map fun m => (dst, m)
  else (copyUp m dst src n).map fun m => (dst, m)

/-- The user library's `memmove`; `n` is signed. -/
def User.memmove (m : Memory) (vdst vsrc : Nat) (n : Int) : Option (Nat × Memory) :=
  if vdst < vsrc then (copyUp m vdst vsrc n.toNat).map fun m => (vdst, m)
  else (copyDown m (advance vdst n) (advance vsrc n) n.toNat).map fun m => (vdst, m)

/-! ## What a move is -/

/-- The memory after the bytes at `src` have been moved to `dst`. -/
def moved (m : Memory) (dst src n : Nat) : Memory := fun i =>
  if dst ≤ i ∧ i < dst + n then m (src + (i - dst)) else m i

def Mapped (m : Memory) (dst src n : Nat) : Prop :=
  ∀ i, i < n → (m (src + i)).isSome ∧ (m (dst + i)).isSome

instance (m : Memory) (dst src n : Nat) : Decidable (Mapped m dst src n) :=
  inferInstanceAs (Decidable (∀ i, i < n → _))

/-- A call moves the whole range, or faults at a byte that the memory does not have. -/
def moving (m : Memory) (dst src n : Nat) : Option (Nat × Memory) :=
  if Mapped m dst src n then some (dst, moved m dst src n) else none

@[simp] theorem moved_zero (m : Memory) (dst src : Nat) : moved m dst src 0 = m := by
  funext i
  exact if_neg fun inside => by omega

theorem mapped_zero (m : Memory) (dst src : Nat) : Mapped m dst src 0 :=
  fun i less => absurd less (Nat.not_lt_zero i)

section Moves
variable {m : Memory} {d s n p : Nat} {c : UInt8}

theorem advance_one (small : p + 1 < 2 ^ 64) : advance p 1 = p + 1 := by
  unfold advance
  omega

theorem advance_end (fits : p + (n + 1) ≤ 2 ^ 64) : advance (advance p (n + 1 : Nat)) (-1) = p + n := by
  unfold advance
  omega

theorem advance_fits (fits : p + n < 2 ^ 64) : advance p n = p + n := by
  unfold advance
  omega

theorem store_mapped (here : (m p).isSome) : store m p c = some (upd m p (some c)) := if_pos here

theorem store_unmapped (missing : m p = none) : store m p c = none :=
  if_neg (by rw [missing]; exact Bool.false_ne_true)

theorem isSome_store (here : (m p).isSome) (i : Nat) : (upd m p (some c) i).isSome = (m i).isSome := by
  rcases upd_cases m p (some c) i with ⟨rfl, new⟩ | ⟨_, old⟩
  · rw [new, here]
    rfl
  · rw [old]

/-! ### Upwards -/

theorem moved_first (safe : d ≤ s ∨ s + (n + 1) ≤ d) :
    moved (upd m d (m s)) (d + 1) (s + 1) n = moved m d s (n + 1) := by
  funext i
  unfold moved
  by_cases above : d + 1 ≤ i ∧ i < d + 1 + n
  · have whole : d ≤ i ∧ i < d + (n + 1) := by omega
    have unread : s + 1 + (i - (d + 1)) ≠ d := by omega
    rw [if_pos above, if_pos whole, upd_of_ne unread]
    congr 1
    omega
  · rw [if_neg above]
    by_cases first : i = d
    · have whole : d ≤ i ∧ i < d + (n + 1) := by omega
      rw [if_pos whole, first, upd_self, Nat.sub_self, Nat.add_zero]
    · have outside : ¬ (d ≤ i ∧ i < d + (n + 1)) := by omega
      rw [if_neg outside, upd_of_ne first]

theorem mapped_first (source : m s = some c) (here : (m d).isSome) :
    Mapped (upd m d (some c)) (d + 1) (s + 1) n ↔ Mapped m d s (n + 1) := by
  simp only [Mapped, isSome_store here]
  constructor
  · intro rest i less
    cases i with
    | zero => exact ⟨by rw [Nat.add_zero, source]; rfl, here⟩
    | succ i =>
        rw [show s + (i + 1) = s + 1 + i by omega, show d + (i + 1) = d + 1 + i by omega]
        exact rest i (by omega)
  · intro all i less
    rw [show s + 1 + i = s + (i + 1) by omega, show d + 1 + i = d + (i + 1) by omega]
    exact all (i + 1) (by omega)

theorem copyUp_moving : ∀ (n d s : Nat) (m : Memory), s + n ≤ 2 ^ 64 → d + n ≤ 2 ^ 64 →
    (d ≤ s ∨ s + n ≤ d) →
    copyUp m d s n = if Mapped m d s n then some (moved m d s n) else none := by
  intro n
  induction n with
  | zero =>
      intro d s m _ _ _
      rw [if_pos (mapped_zero m d s), moved_zero]
      rfl
  | succ n ih =>
      intro d s m source target safe
      rw [copyUp, load]
      cases read : m s with
      | none =>
          rw [if_neg fun all => by simpa [read] using (all 0 (Nat.succ_pos n)).1]
          rfl
      | some c =>
          cases here : (m d).isSome with
          | false =>
              have missing : m d = none := Option.isSome_eq_false_iff.mp here |>
                Option.isNone_iff_eq_none.mp
              rw [if_neg fun all => by simpa [missing] using (all 0 (Nat.succ_pos n)).2]
              simp only [store_unmapped missing, Option.bind_eq_bind, Option.bind_some,
                Option.bind_none]
          | true =>
              simp only [store_mapped here, Option.bind_eq_bind, Option.bind_some]
              cases n with
              | zero =>
                  have all : Mapped m d s 1 := (mapped_first read here).mp (mapped_zero _ _ _)
                  rw [if_pos all, ← moved_first safe, read, moved_zero, copyUp]
              | succ k =>
                  rw [advance_one (by omega), advance_one (by omega),
                    ih _ _ _ (by omega) (by omega) (by omega),
                    ← moved_first safe, read]
                  exact if_congr (mapped_first read here) rfl rfl

/-! ### Downwards -/

theorem moved_last (safe : s ≤ d ∨ d + (n + 1) ≤ s) :
    moved (upd m (d + n) (m (s + n))) d s n = moved m d s (n + 1) := by
  funext i
  unfold moved
  by_cases below : d ≤ i ∧ i < d + n
  · have whole : d ≤ i ∧ i < d + (n + 1) := by omega
    have unread : s + (i - d) ≠ d + n := by omega
    rw [if_pos below, if_pos whole, upd_of_ne unread]
  · rw [if_neg below]
    by_cases last : i = d + n
    · have whole : d ≤ i ∧ i < d + (n + 1) := by omega
      rw [if_pos whole, last, upd_self, Nat.add_sub_cancel_left]
    · have outside : ¬ (d ≤ i ∧ i < d + (n + 1)) := by omega
      rw [if_neg outside, upd_of_ne last]

theorem mapped_last (source : m (s + n) = some c) (here : (m (d + n)).isSome) :
    Mapped (upd m (d + n) (some c)) d s n ↔ Mapped m d s (n + 1) := by
  simp only [Mapped, isSome_store here]
  constructor
  · intro rest i less
    rcases Nat.lt_succ_iff_lt_or_eq.mp less with below | rfl
    · exact rest i below
    · exact ⟨by rw [source]; rfl, here⟩
  · intro all i less
    exact all i (by omega)

theorem copyDown_moving (d s : Nat) : ∀ (n : Nat) (m : Memory), s + n ≤ 2 ^ 64 → d + n ≤ 2 ^ 64 →
    (s ≤ d ∨ d + n ≤ s) →
    copyDown m (advance d n) (advance s n) n =
      if Mapped m d s n then some (moved m d s n) else none := by
  intro n
  induction n with
  | zero =>
      intro m _ _ _
      rw [if_pos (mapped_zero m d s), moved_zero]
      rfl
  | succ n ih =>
      intro m source target safe
      rw [copyDown, advance_end source, advance_end target, load]
      cases read : m (s + n) with
      | none =>
          rw [if_neg fun all => by simpa [read] using (all n (Nat.lt_succ_self n)).1]
          rfl
      | some c =>
          cases here : (m (d + n)).isSome with
          | false =>
              have missing : m (d + n) = none :=
                Option.isSome_eq_false_iff.mp here |> Option.isNone_iff_eq_none.mp
              rw [if_neg fun all => by simpa [missing] using (all n (Nat.lt_succ_self n)).2]
              simp only [store_unmapped missing, Option.bind_eq_bind, Option.bind_some,
                Option.bind_none]
          | true =>
              have next := ih (upd m (d + n) (some c)) (by omega) (by omega) (by omega)
              rw [advance_fits (by omega), advance_fits (by omega)] at next
              simp only [store_mapped here, Option.bind_eq_bind, Option.bind_some]
              rw [next, ← moved_last safe, read]
              exact if_congr (mapped_last read here) rfl rfl

/-! ## The two functions -/

theorem map_moving : (if Mapped m d s n then some (moved m d s n) else none).map (fun m => (d, m)) =
    moving m d s n := by
  unfold moving
  split <;> rfl

theorem Kernel.memmove_moving (source : s + n ≤ 2 ^ 64) (target : d + n ≤ 2 ^ 64) :
    Kernel.memmove m d s n = moving m d s n := by
  unfold Kernel.memmove
  by_cases empty : n = 0
  · subst empty
    rw [if_pos rfl, moving, if_pos (mapped_zero m d s), moved_zero]
  rw [if_neg empty]
  by_cases behind : s < d ∧ d < advance s n
  · rw [if_pos behind, copyDown_moving d s n m source target
      (Or.inl (Nat.le_of_lt behind.1)), map_moving]
  · have safe : d ≤ s ∨ s + n ≤ d := by
      by_contra overlap
      -- the end of the source is below the end of the target, so it has not wrapped
      have fits : advance s n = s + n := advance_fits (by omega)
      rw [fits] at behind
      omega
    rw [if_neg behind, copyUp_moving n d s m source target safe, map_moving]

theorem User.memmove_moving {n : Int} (source : s + n.toNat ≤ 2 ^ 64) (target : d + n.toNat ≤ 2 ^ 64) :
    User.memmove m d s n = moving m d s n.toNat := by
  unfold User.memmove
  by_cases above : d < s
  · rw [if_pos above, copyUp_moving _ d s m source target (Or.inl (Nat.le_of_lt above)), map_moving]
  rw [if_neg above]
  rcases Int.le_total 0 n with positive | negative
  · obtain ⟨k, rfl⟩ := Int.eq_ofNat_of_zero_le positive
    rw [Int.toNat_natCast] at source target ⊢
    rw [copyDown_moving d s k m source target (by omega), map_moving]
  · have none : n.toNat = 0 := by omega
    rw [none, copyDown, moving, if_pos (mapped_zero m d s), moved_zero]
    rfl

end Moves

/-- Whatever the overlap of the two ranges, both functions move the bytes that were in the source
and change no other byte; they fault only if the memory lacks a byte of the ranges. -/
theorem memmoves_exact (m : Memory) (dst src : Nat) :
    (∀ n : Nat, src + n ≤ 2 ^ 64 → dst + n ≤ 2 ^ 64 →
      Kernel.memmove m dst src n = moving m dst src n) ∧
    (∀ n : Int, src + n.toNat ≤ 2 ^ 64 → dst + n.toNat ≤ 2 ^ 64 →
      User.memmove m dst src n = moving m dst src n.toNat) :=
  ⟨fun _ source target => Kernel.memmove_moving source target,
    fun _ source target => User.memmove_moving source target⟩

def topMemory : Memory := fun i => if 2 ^ 64 - 8 ≤ i ∧ i < 2 ^ 64 then some (UInt8.ofNat i) else none

theorem memmoves_top :
    Kernel.memmove topMemory (2 ^ 64 - 6) (2 ^ 64 - 8) 6 = moving topMemory (2 ^ 64 - 6)
      (2 ^ 64 - 8) 6 ∧
    User.memmove topMemory (2 ^ 64 - 6) (2 ^ 64 - 8) 6 = moving topMemory (2 ^ 64 - 6) (2 ^ 64 - 8) 6 ∧
    (moving topMemory (2 ^ 64 - 6) (2 ^ 64 - 8) 6).isSome := by
  obtain ⟨kernel, user⟩ := memmoves_exact topMemory (2 ^ 64 - 6) (2 ^ 64 - 8)
  exact ⟨kernel 6 (by decide) (by decide), user 6 (by decide) (by decide), by decide⟩

end Xv6Fcfs.Clib
