import Mathlib.Algebra.GroupWithZero.Nat
import Mathlib.Data.List.Pairwise
import Mathlib.Order.Interval.Finset.Nat
import Mathlib.Tactic.Common

/-!
# Blocks that tile regions of memory

A block is a number of units from an address on.  `Tiles` says that blocks are disjoint and
make up exactly some regions; it is kept when a block is cut in two, when two blocks that
touch are joined and when a block comes with a region of its own.
-/

set_option autoImplicit false

namespace Xv6Fcfs.Lib

structure Block where
  addr : Nat
  size : Nat
deriving DecidableEq

section Tiles
variable {unit : Nat}

def Block.stop (unit : Nat) (b : Block) : Nat := b.addr + unit * b.size

/-- The byte at `x` belongs to the block. -/
def Block.Has (unit : Nat) (b : Block) (x : Nat) : Prop := b.addr ≤ x ∧ x < b.stop unit

def Block.Clear (unit : Nat) (b c : Block) : Prop := b.stop unit ≤ c.addr ∨ c.stop unit ≤ b.addr

def total (blocks : List Block) : Nat := (blocks.map Block.size).sum

/-- The blocks are disjoint and make up exactly the regions. -/
structure Tiles (unit : Nat) (blocks regions : List Block) : Prop where
  full : ∀ b ∈ blocks, 0 < unit * b.size
  clear : blocks.Pairwise (Block.Clear unit)
  cover : ∀ x, (∃ b ∈ blocks, b.Has unit x) ↔ ∃ r ∈ regions, r.Has unit x
  amount : total blocks = total regions

theorem Block.Clear.symm {b c : Block} (clear : b.Clear unit c) : c.Clear unit b := Or.symm clear

theorem total_cons (b : Block) (l : List Block) : total (b :: l) = b.size + total l := List.sum_cons

theorem total_append (l m : List Block) : total (l ++ m) = total l + total m := by
  rw [total, List.map_append, List.sum_append]
  rfl

theorem size_le_total {b : Block} {l : List Block} (inside : b ∈ l) : b.size ≤ total l := by
  induction l with
  | nil => cases inside
  | cons c l ih =>
      rw [total_cons]
      rcases List.mem_cons.mp inside with rfl | later
      · exact Nat.le_add_right _ _
      · exact Nat.le_trans (ih later) (Nat.le_add_left _ _)

theorem card_le_total (regions : List Block) : ∀ S : Finset Nat,
    (∀ x ∈ S, ∃ r ∈ regions, r.Has unit x) → S.card ≤ unit * total regions := by
  induction regions with
  | nil =>
      intro S cover
      have none : S = ∅ := Finset.eq_empty_of_forall_notMem fun x inside => by
        obtain ⟨r, no, -⟩ := cover x inside
        exact List.not_mem_nil no
      rw [none]
      exact Nat.zero_le _
  | cons r l ih =>
      intro S cover
      have mine : (S ∩ Finset.Ico r.addr (r.stop unit)).card ≤ unit * r.size := by
        refine Nat.le_trans (Finset.card_le_card Finset.inter_subset_right) ?_
        rw [Nat.card_Ico, Block.stop]
        exact Nat.le_of_eq (Nat.add_sub_cancel_left _ _)
      have others : (S \ Finset.Ico r.addr (r.stop unit)).card ≤ unit * total l := by
        refine ih _ fun x inside => ?_
        obtain ⟨mem, outside⟩ := Finset.mem_sdiff.mp inside
        obtain ⟨s, known, has⟩ := cover x mem
        rcases List.mem_cons.mp known with rfl | later
        · exact absurd (Finset.mem_Ico.mpr has) outside
        · exact ⟨s, later, has⟩
      calc S.card = (S ∩ Finset.Ico r.addr (r.stop unit)).card +
        (S \ Finset.Ico r.addr (r.stop unit)).card :=
            (Finset.card_inter_add_card_sdiff S _).symm
        _ ≤ unit * r.size + unit * total l := Nat.add_le_add mine others
        _ = unit * total (r :: l) := by rw [total_cons, Nat.mul_add]

theorem span_le_total {lo hi : Nat} {regions : List Block}
    (cover : ∀ x, lo ≤ x → x < hi → ∃ r ∈ regions, r.Has unit x) : hi - lo ≤ unit * total regions := by
  rw [← Nat.card_Ico]
  refine card_le_total regions _ fun x inside => ?_
  obtain ⟨low, high⟩ := Finset.mem_Ico.mp inside
  exact cover x low high

namespace Tiles
variable {blocks blocks' regions : List Block} {b c r : Block}

theorem below (tiles : Tiles unit blocks regions) (inside : b ∈ blocks) {hi : Nat}
    (ends : ∀ r ∈ regions, r.stop unit ≤ hi) : b.stop unit ≤ hi := by
  have full := tiles.full b inside
  have last : b.Has unit (b.stop unit - 1) := by
    unfold Block.Has Block.stop
    omega
  obtain ⟨r, mem, has⟩ := (tiles.cover _).mp ⟨b, inside, last⟩
  have far := ends r mem
  have near := has.2
  omega

theorem nil : Tiles unit [] [] :=
  ⟨fun _ no => absurd no List.not_mem_nil, List.Pairwise.nil, fun _ => Iff.rfl, rfl⟩

theorem perm (tiles : Tiles unit blocks regions) (same : blocks.Perm blocks') :
    Tiles unit blocks' regions where
  full := fun b inside => tiles.full b (same.mem_iff.mpr inside)
  clear := (same.pairwise_iff fun clear => clear.symm).mp tiles.clear
  cover := by
    intro x
    rw [← tiles.cover x]
    constructor
    · rintro ⟨b, inside, has⟩
      exact ⟨b, same.mem_iff.mpr inside, has⟩
    · rintro ⟨b, inside, has⟩
      exact ⟨b, same.mem_iff.mp inside, has⟩
  amount := by
    rw [← tiles.amount, total, total, (same.map Block.size).sum_nat]

theorem cons (tiles : Tiles unit blocks regions)
    (fresh : ∀ s ∈ regions, ∀ x, s.Has unit x → ¬ r.Has unit x) (some : 0 < unit * r.size) :
    Tiles unit (r :: blocks) (r :: regions) where
  full := List.forall_mem_cons.mpr ⟨some, tiles.full⟩
  clear := by
    refine List.Pairwise.cons ?_ tiles.clear
    intro b inside
    have outside : ∀ x, b.Has unit x → ¬ r.Has unit x := by
      intro x has
      obtain ⟨s, mem, here⟩ := (tiles.cover x).mp ⟨b, inside, has⟩
      exact fresh s mem x here
    have pos := tiles.full b inside
    -- neither block may hold the first byte of the other
    have first := outside b.addr ⟨Nat.le_refl _, by unfold Block.stop; omega⟩
    have second : ¬ (b.addr ≤ r.addr ∧ r.addr < b.stop unit) := fun has =>
      outside r.addr has ⟨Nat.le_refl _, by unfold Block.stop; omega⟩
    unfold Block.Has Block.stop at first
    unfold Block.stop at second
    unfold Block.Clear Block.stop
    omega
  cover := by
    intro x
    simp only [List.mem_cons, or_and_right, exists_or, exists_eq_left]
    rw [tiles.cover x]
  amount := by
    rw [total_cons, total_cons, tiles.amount]

theorem join (tiles : Tiles unit (b :: c :: blocks) regions) (touch : b.stop unit = c.addr) :
    Tiles unit (⟨b.addr, b.size + c.size⟩ :: blocks) regions := by
  have stop : Block.stop unit ⟨b.addr, b.size + c.size⟩ = c.stop unit := by
    unfold Block.stop at touch ⊢
    rw [Nat.mul_add, ← Nat.add_assoc, touch]
  have less : b.stop unit ≤ c.stop unit := by
    rw [touch]
    exact Nat.le_add_right _ _
  obtain ⟨first, second⟩ := List.pairwise_cons.mp tiles.clear
  obtain ⟨third, rest⟩ := List.pairwise_cons.mp second
  obtain ⟨here, later⟩ := List.forall_mem_cons.mp tiles.full
  refine ⟨List.forall_mem_cons.mpr ⟨?_, (List.forall_mem_cons.mp later).2⟩,
    List.Pairwise.cons ?_ rest, ?_, ?_⟩
  · rw [Nat.mul_add]
    exact Nat.add_pos_left here _
  · intro d inside
    have left := first d (List.mem_cons_of_mem _ inside)
    have right := third d inside
    have some := (List.forall_mem_cons.mp later).2 d inside
    unfold Block.Clear at left right ⊢
    rw [stop]
    unfold Block.stop at *
    simp only at touch ⊢
    omega
  · intro x
    rw [← tiles.cover x]
    simp only [List.mem_cons, or_and_right, exists_or, exists_eq_left, ← or_assoc]
    refine or_congr_left ?_
    unfold Block.Has
    rw [stop]
    have low : b.addr ≤ b.stop unit := Nat.le_add_right _ _
    simp only
    omega
  · rw [← tiles.amount, total_cons, total_cons, total_cons, Nat.add_assoc]

theorem cut (tiles : Tiles unit (b :: blocks) regions) {n : Nat} (some : 0 < n)
    (less : n < b.size) : Tiles unit
    (⟨b.addr, b.size - n⟩ :: ⟨b.addr + unit * (b.size - n), n⟩ :: blocks) regions := by
  have whole : unit * (b.size - n) + unit * n = unit * b.size := by
    rw [← Nat.mul_add, Nat.sub_add_cancel (Nat.le_of_lt less)]
  have pos : 0 < unit := Nat.pos_of_mul_pos_right ((List.forall_mem_cons.mp tiles.full).1)
  obtain ⟨first, rest⟩ := List.pairwise_cons.mp tiles.clear
  refine ⟨?_, ?_, ?_, ?_⟩
  · refine List.forall_mem_cons.mpr
      ⟨?_, List.forall_mem_cons.mpr ⟨?_, (List.forall_mem_cons.mp tiles.full).2⟩⟩
    · exact Nat.mul_pos pos (Nat.sub_pos_of_lt less)
    · exact Nat.mul_pos pos some
  · refine List.Pairwise.cons ?_ (List.Pairwise.cons ?_ rest)
    · intro d inside
      rcases List.mem_cons.mp inside with rfl | other
      · exact Or.inl (Nat.le_refl _)
      · have clear := first d other
        unfold Block.Clear Block.stop at clear ⊢
        simp only
        omega
    · intro d inside
      have clear := first d inside
      unfold Block.Clear Block.stop at clear ⊢
      simp only
      omega
  · intro x
    rw [← tiles.cover x]
    simp only [List.mem_cons, or_and_right, exists_or, exists_eq_left, ← or_assoc]
    refine or_congr_left ?_
    unfold Block.Has Block.stop
    simp only
    omega
  · rw [← tiles.amount, total_cons, total_cons, total_cons]
    simp only
    omega

end Tiles

end Tiles

end Xv6Fcfs.Lib
