import Xv6Fcfs.Clib.Memmove

/-!
# Strings in memory (`user/ulib.c`)

`strchr`, and what a memory holds at an address.  The fuel of a loop over a string is the
number of bytes it may read; without enough of it the result is `none`, as it is for a byte
that the memory does not have.
-/

set_option autoImplicit false

namespace Xv6Fcfs.Clib

open Xv6Fcfs.Lib

/-- `for(; *s; s++) if(*s == c) return s; return 0;` -/
def strchr (m : Memory) (c : UInt8) : Nat → Nat → Option Nat
  | 0, _ => none
  | fuel + 1, s => do
      let b ← load m s
      if b = 0 then some 0
      else if b = c then some s
      else strchr m c fuel (advance s 1)

/-- The string at `s`, without its NUL. -/
def stringAt (m : Memory) : Nat → Nat → Option (List UInt8)
  | 0, _ => none
  | fuel + 1, s => do
      let b ← load m s
      if b = 0 then some []
      else (stringAt m fuel (advance s 1)).map (b :: ·)

def bytesAt (m : Memory) (s : Nat) : Nat → Option (List UInt8)
  | 0 => some []
  | n + 1 => do
      let b ← load m s
      (bytesAt m (advance s 1) n).map (b :: ·)

def storeBytes (m : Memory) (p : Nat) : List UInt8 → Option Memory
  | [] => some m
  | b :: bs => do
      let m ← store m p b
      storeBytes m (advance p 1) bs

/-! ## What a memory holds -/

/-- The memory has the bytes at `p`. -/
def Holds (m : Memory) (p : Nat) (bs : List UInt8) : Prop := ∀ i, i < bs.length → m (p + i) = bs[i]?

def Spans (m : Memory) (lo hi : Nat) : Prop := ∀ a, (m a).isSome ↔ lo ≤ a ∧ a < hi

section Strings
variable {m : Memory} {p lo hi fuel : Nat} {b c : UInt8} {bs as : List UInt8}

theorem holds_nil (m : Memory) (p : Nat) : Holds m p [] := fun _ less => absurd less (Nat.not_lt_zero _)

theorem holds_cons : Holds m p (b :: bs) ↔ m p = some b ∧ Holds m (p + 1) bs := by
  constructor
  · intro all
    refine ⟨all 0 (Nat.succ_pos _), ?_⟩
    intro i less
    have next := all (i + 1) (Nat.succ_lt_succ less)
    rwa [Nat.add_comm i 1, ← Nat.add_assoc, Nat.add_comm 1 i, List.getElem?_cons_succ] at next
  · rintro ⟨first, rest⟩ i less
    cases i with
    | zero => exact first
    | succ i =>
        have next := rest i (Nat.lt_of_succ_lt_succ less)
        rwa [Nat.add_assoc, Nat.add_comm 1 i] at next

theorem holds_append : ∀ {as : List UInt8} {p : Nat},
    Holds m p (as ++ bs) ↔ Holds m p as ∧ Holds m (p + as.length) bs := by
  intro as
  induction as with
  | nil =>
      intro p
      exact ⟨fun all => ⟨holds_nil m p, all⟩, fun both => both.2⟩
  | cons a as ih =>
      intro p
      rw [List.cons_append, holds_cons, holds_cons, ih, List.length_cons, and_assoc, Nat.add_assoc,
        Nat.add_comm 1 as.length]

theorem holds_upd {a : Nat} {v : Option UInt8} (outside : a < p ∨ p + bs.length ≤ a) :
    Holds (upd m a v) p bs ↔ Holds m p bs := by
  unfold Holds
  refine forall_congr' fun i => forall_congr' fun less => ?_
  rw [upd_of_ne (by omega)]

theorem spans_upd (spans : Spans m lo hi) {a : Nat} (low : lo ≤ a) (high : a < hi) (v : UInt8) :
    Spans (upd m a (some v)) lo hi := by
  intro x
  rcases upd_cases m a (some v) x with ⟨rfl, new⟩ | ⟨_, old⟩
  · rw [new]
    exact ⟨fun _ => ⟨low, high⟩, fun _ => rfl⟩
  · rw [old, spans]

theorem store_spans (spans : Spans m lo hi) {a : Nat} (low : lo ≤ a) (high : a < hi) (v : UInt8) :
    store m a v = some (upd m a (some v)) := store_mapped ((spans a).mpr ⟨low, high⟩)

theorem strchr_found (nonzero : c ≠ 0) : ∀ {as : List UInt8} {fuel p : Nat}, c ∉ as → 0 ∉ as →
    Holds m p (as ++ [c]) → as.length < fuel → p + as.length < 2 ^ 64 →
    strchr m c fuel p = some (p + as.length) := by
  intro as
  induction as with
  | nil =>
      intro fuel p _ _ holds enough _
      obtain ⟨fuel, rfl⟩ := Nat.exists_eq_succ_of_ne_zero (Nat.ne_of_gt enough)
      have here := (holds_cons.mp holds).1
      simp only [strchr, load, here, Option.bind_eq_bind, Option.bind_some, if_neg nonzero, if_true,
        List.length_nil, Nat.add_zero]
  | cons a as ih =>
      intro fuel p plain text holds enough fits
      obtain ⟨fuel, rfl⟩ := Nat.exists_eq_succ_of_ne_zero
        (Nat.ne_of_gt (Nat.lt_of_le_of_lt (Nat.zero_le _) enough))
      rw [List.length_cons] at enough fits
      obtain ⟨here, holds⟩ := holds_cons.mp holds
      have letter : a ≠ 0 := fun is => text (is ▸ List.mem_cons_self)
      have other : a ≠ c := fun is => plain (is ▸ List.mem_cons_self)
      have later := @ih fuel (p + 1) (fun inside => plain (List.mem_cons_of_mem a inside))
        (fun inside => text (List.mem_cons_of_mem a inside)) holds (by omega) (by omega)
      simp only [strchr, load, here, Option.bind_eq_bind, Option.bind_some, if_neg letter, if_neg other]
      rw [advance_one (by omega), later, List.length_cons]
      congr 1
      omega

theorem strchr_none : ∀ {as : List UInt8} {fuel p : Nat}, c ∉ as → 0 ∉ as → Holds m p (as ++ [0]) →
    as.length < fuel → p + as.length < 2 ^ 64 → strchr m c fuel p = some 0 := by
  intro as
  induction as with
  | nil =>
      intro fuel p _ _ holds enough _
      obtain ⟨fuel, rfl⟩ := Nat.exists_eq_succ_of_ne_zero (Nat.ne_of_gt enough)
      have here := (holds_cons.mp holds).1
      simp only [strchr, load, here, Option.bind_eq_bind, Option.bind_some, if_true]
  | cons a as ih =>
      intro fuel p plain text holds enough fits
      obtain ⟨fuel, rfl⟩ := Nat.exists_eq_succ_of_ne_zero
        (Nat.ne_of_gt (Nat.lt_of_le_of_lt (Nat.zero_le _) enough))
      rw [List.length_cons] at enough fits
      obtain ⟨here, holds⟩ := holds_cons.mp holds
      have letter : a ≠ 0 := fun is => text (is ▸ List.mem_cons_self)
      have other : a ≠ c := fun is => plain (is ▸ List.mem_cons_self)
      simp only [strchr, load, here, Option.bind_eq_bind, Option.bind_some, if_neg letter, if_neg other]
      rw [advance_one (by omega)]
      exact ih (fun inside => plain (List.mem_cons_of_mem a inside))
        (fun inside => text (List.mem_cons_of_mem a inside)) holds (by omega) (by omega)

theorem stringAt_holds : ∀ {as : List UInt8} {fuel p : Nat}, 0 ∉ as → Holds m p (as ++ [0]) →
    as.length < fuel → p + as.length < 2 ^ 64 → stringAt m fuel p = some as := by
  intro as
  induction as with
  | nil =>
      intro fuel p _ holds enough _
      obtain ⟨fuel, rfl⟩ := Nat.exists_eq_succ_of_ne_zero (Nat.ne_of_gt enough)
      have here := (holds_cons.mp holds).1
      simp only [stringAt, load, here, Option.bind_eq_bind, Option.bind_some, if_true]
  | cons a as ih =>
      intro fuel p text holds enough fits
      obtain ⟨fuel, rfl⟩ := Nat.exists_eq_succ_of_ne_zero
        (Nat.ne_of_gt (Nat.lt_of_le_of_lt (Nat.zero_le _) enough))
      rw [List.length_cons] at enough fits
      obtain ⟨here, holds⟩ := holds_cons.mp holds
      have letter : a ≠ 0 := fun is => text (is ▸ List.mem_cons_self)
      simp only [stringAt, load, here, Option.bind_eq_bind, Option.bind_some, if_neg letter]
      rw [advance_one (by omega), ih (fun inside => text (List.mem_cons_of_mem a inside))
        holds (by omega)
        (by omega), Option.map_some]

theorem bytesAt_holds : ∀ {bs : List UInt8} {p : Nat}, Holds m p bs → p + bs.length ≤ 2 ^ 64 →
    bytesAt m p bs.length = some bs := by
  intro bs
  induction bs with
  | nil => intro p _ _; rfl
  | cons b bs ih =>
      intro p holds fits
      rw [List.length_cons] at fits ⊢
      obtain ⟨here, holds⟩ := holds_cons.mp holds
      simp only [bytesAt, load, here, Option.bind_eq_bind, Option.bind_some]
      cases bs with
      | nil => rfl
      | cons c bs =>
          rw [List.length_cons] at fits
          rw [advance_one (by omega), ih holds (by rw [List.length_cons]; omega), Option.map_some]

/-- Bytes stored within the memory are there afterwards, and only they change. -/
theorem storeBytes_holds : ∀ {bs : List UInt8} {p : Nat} {m : Memory}, Spans m lo hi → lo ≤ p →
    p + bs.length ≤ hi → hi ≤ 2 ^ 64 → ∃ m', storeBytes m p bs = some m' ∧ Spans m' lo hi ∧
      Holds m' p bs ∧ ∀ a, a < p ∨ p + bs.length ≤ a → m' a = m a := by
  intro bs
  induction bs with
  | nil => intro p m spans _ _ _; exact ⟨m, rfl, spans, holds_nil m p, fun _ _ => rfl⟩
  | cons b bs ih =>
      intro p m spans low high top
      rw [List.length_cons] at high
      have stored := store_spans spans low (by omega) b
      have spans' := spans_upd spans low (show p < hi by omega) b
      cases bs with
      | nil =>
          refine ⟨_, by rw [storeBytes, stored]; rfl, spans', ?_, ?_⟩
          · rw [holds_cons]
            exact ⟨upd_self _ _ _, holds_nil _ _⟩
          · intro a outside
            rw [List.length_singleton] at outside
            exact upd_of_ne (by omega) _ _
      | cons c bs =>
          obtain ⟨m', run, spans2, holds, same⟩ := ih spans' (show lo ≤ p + 1 by omega) (by omega) top
          rw [List.length_cons] at high
          refine ⟨m', ?_, spans2, ?_, ?_⟩
          · rw [storeBytes, stored]
            simp only [Option.bind_eq_bind, Option.bind_some]
            rwa [advance_one (by omega)]
          · rw [holds_cons]
            exact ⟨by rw [same p (by omega), upd_self], holds⟩
          · intro a outside
            rw [List.length_cons] at outside
            rw [same a (by omega), upd_of_ne (by omega)]

theorem moving_holds {d s : Nat} (spans : Spans m lo hi) (holds : Holds m s bs) (low : lo ≤ d)
    (high : d + bs.length ≤ hi) : ∃ m', moving m d s bs.length = some (d, m') ∧ Spans m' lo hi ∧
      Holds m' d bs := by
  have mapped : Mapped m d s bs.length := by
    intro i less
    rw [holds i less, spans, List.getElem?_eq_getElem less]
    exact ⟨rfl, by omega, by omega⟩
  refine ⟨_, if_pos mapped, ?_, ?_⟩
  · intro a
    unfold moved
    split
    · next inside =>
      have source := (mapped (a - d) (by omega)).1
      exact ⟨fun _ => ⟨by omega, by omega⟩, fun _ => source⟩
    · exact spans a
  · intro i less
    have inside : d ≤ d + i ∧ d + i < d + bs.length := by omega
    unfold moved
    rw [if_pos inside, Nat.add_sub_cancel_left, holds i less]

end Strings

end Xv6Fcfs.Clib
