import Mathlib.Tactic.Common
import Mathlib.Order.Basic

/-!
# Numbered resources with one owner each

Resources are the numbers below `size`; those below `reserved` belong to nobody and are
never handed out.  A slot holds the number of the resource it owns, or 0.  `used` is
the allocator's own record, and `Owned` says that it agrees with the slots and that no
resource is held twice.
-/

set_option autoImplicit false

namespace Xv6Fcfs.Lib

variable {ι : Type}

structure Owned (reserved size : Nat) (used : Nat → Bool) (slot : ι → Nat) : Prop where
  pos : 0 < reserved
  exact : ∀ b, b < size → (used b = true ↔ b < reserved ∨ ∃ x, slot x = b)
  range : ∀ x, slot x ≠ 0 → reserved ≤ slot x ∧ slot x < size
  inj : ∀ x y, slot x ≠ 0 → slot x = slot y → x = y

namespace Owned
variable {reserved size : Nat} {used used' : Nat → Bool} {slot slot' : ι → Nat}

theorem used_of_slot (owned : Owned reserved size used slot) {x : ι} (held : slot x ≠ 0) :
    used (slot x) = true :=
  (owned.exact _ (owned.range x held).2).mpr (Or.inr ⟨x, rfl⟩)

theorem slot_ne_of_free (owned : Owned reserved size used slot) {b : Nat} (bound : b < size)
    (free : used b = false) (x : ι) : slot x ≠ b := by
  intro same
  have taken := (owned.exact b bound).mpr (Or.inr ⟨x, same⟩)
  rw [free] at taken
  cases taken

theorem free_range (owned : Owned reserved size used slot) {b : Nat} (bound : b < size)
    (free : used b = false) : reserved ≤ b := by
  by_contra low
  have taken := (owned.exact b bound).mpr (Or.inl (by omega))
  rw [free] at taken
  cases taken

theorem congr (owned : Owned reserved size used slot) (same : ∀ b, b < size → used' b = used b)
    (slots : ∀ x, slot' x = slot x) : Owned reserved size used' slot' := by
  have eq : slot' = slot := funext slots
  subst eq
  refine ⟨owned.pos, ?_, owned.range, owned.inj⟩
  intro b bound
  rw [same b bound]
  exact owned.exact b bound

theorem alloc (owned : Owned reserved size used slot) {b : Nat} {x : ι} (bound : b < size)
    (free : used b = false) (empty : slot x = 0)
    (mark : ∀ c, c < size → used' c = if c = b then true else used c)
    (taken : slot' x = b) (others : ∀ y, y ≠ x → slot' y = slot y) :
    Owned reserved size used' slot' := by
  have above := owned.free_range bound free
  have fresh := owned.slot_ne_of_free bound free
  have pos := owned.pos
  refine ⟨pos, ?_, ?_, ?_⟩
  · intro c limit
    rw [mark c limit]
    by_cases here : c = b
    · subst here
      simp only [if_true, true_iff]
      exact Or.inr ⟨x, taken⟩
    · rw [if_neg here, owned.exact c limit]
      constructor
      · rintro (low | ⟨y, rfl⟩)
        · exact Or.inl low
        · by_cases same : y = x
          · subst same
            rw [empty]
            exact Or.inl pos
          · exact Or.inr ⟨y, others y same⟩
      · rintro (low | ⟨y, rfl⟩)
        · exact Or.inl low
        · by_cases same : y = x
          · subst same
            exact absurd taken here
          · exact Or.inr ⟨y, (others y same).symm⟩
  · intro y held
    by_cases same : y = x
    · subst same
      rw [taken]
      exact ⟨above, bound⟩
    · rw [others y same] at held ⊢
      exact owned.range y held
  · intro y z held same
    by_cases atY : y = x
    · by_cases atZ : z = x
      · rw [atY, atZ]
      · subst atY
        rw [taken, others z atZ] at same
        exact absurd same.symm (fresh z)
    · rw [others y atY] at held same
      by_cases atZ : z = x
      · subst atZ
        rw [taken] at same
        exact absurd same (fresh y)
      · rw [others z atZ] at same
        exact owned.inj y z held same

theorem release (owned : Owned reserved size used slot) {x : ι} (held : slot x ≠ 0)
    (clear : ∀ c, c < size → used' c = if c = slot x then false else used c)
    (emptied : slot' x = 0) (others : ∀ y, y ≠ x → slot' y = slot y) :
    Owned reserved size used' slot' := by
  have range := owned.range x held
  refine ⟨owned.pos, ?_, ?_, ?_⟩
  · intro c limit
    rw [clear c limit]
    by_cases here : c = slot x
    · subst here
      simp only [if_true, Bool.false_eq_true, false_iff, not_or, not_exists]
      refine ⟨Nat.not_lt.mpr range.1, ?_⟩
      intro y same
      by_cases at' : y = x
      · subst at'
        exact held (same.symm.trans emptied)
      · rw [others y at'] at same
        exact at' (owned.inj x y held same.symm).symm
    · rw [if_neg here, owned.exact c limit]
      constructor
      · rintro (low | ⟨y, rfl⟩)
        · exact Or.inl low
        · by_cases at' : y = x
          · subst at'
            exact absurd rfl here
          · exact Or.inr ⟨y, others y at'⟩
      · rintro (low | ⟨y, rfl⟩)
        · exact Or.inl low
        · by_cases at' : y = x
          · subst at'
            rw [emptied]
            exact Or.inl owned.pos
          · exact Or.inr ⟨y, (others y at').symm⟩
  · intro y held'
    by_cases at' : y = x
    · subst at'
      exact absurd emptied held'
    · rw [others y at'] at held' ⊢
      exact owned.range y held'
  · intro y z held' same
    have atY : y ≠ x := by
      rintro rfl
      exact held' emptied
    have atZ : z ≠ x := by
      rintro rfl
      exact held' (same.trans emptied)
    rw [others y atY] at held' same
    rw [others z atZ] at same
    exact owned.inj y z held' same

end Owned

end Xv6Fcfs.Lib
