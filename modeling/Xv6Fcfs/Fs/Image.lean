import Xv6Fcfs.Fs.Ops
import Xv6Fcfs.Param

/-!
# The image of `mkfs/mkfs.c`

`mkfs` lays the disk out as `fs.h` says and puts an empty root directory on it.  The
invariant holds of that disk with the first process at its root.
-/

set_option autoImplicit false

namespace Xv6Fcfs.Fs

open Xv6Fcfs.Lib

def NINODES : Nat := 200

/-- `[ boot block | sb block | log | inode blocks | free bit map | data blocks ]` -/
def mkfsSb : Superblock where
  size := FSSIZE
  nblocks := FSSIZE - (2 + (LOGBLOCKS + 1) + (NINODES / IPB + 1) + (FSSIZE / BPB + 1))
  ninodes := NINODES
  nlog := LOGBLOCKS + 1
  logstart := 2
  inodestart := 2 + (LOGBLOCKS + 1)
  bmapstart := 2 + (LOGBLOCKS + 1) + (NINODES / IPB + 1)

/-- `ialloc(T_DIR)` with the block of its two entries and the size rounded up. -/
def rootDinode : Dinode := ⟨T_DIR, 0, 0, 1, BSIZE, fun k => if k = 0 then 47 else 0⟩

/-- The entries `.` and `..`. -/
def rootBlock : Block := fun o =>
  if o < 16 then mkDirent ROOTINO dot o
  else if o < 32 then mkDirent ROOTINO dotdot (o - 16)
  else 0

/-- `balloc(48)` -/
def usedBits : Block := fun o => if o < 6 then 255 else 0

def mkfsDisk : Disk :=
  setDinode mkfsSb (upd (upd (fun _ _ => 0) 46 usedBits) 47 rootBlock) ROOTINO rootDinode

/-- `initproc` after `namei("/")`. -/
def mkfsState : FsState where
  disk := mkfsDisk
  log := []
  journal := { home := mkfsDisk, commits := [] }
  itable a := ⟨if a = 0 then ROOTINO else 0, if a = 0 then 1 else 0, false, false, freshDinode 0⟩
  ftable _ := ⟨.none, 0, false, false, 0, 0, 0⟩
  proc p := if p = 0 then some ⟨0, fun _ => none⟩ else none
  gen _ := 0
  stamp _ _ := 0

theorem mkfs_geometry : Geometry mkfsSb := by
  refine ⟨?_, ?_, ?_, ?_, ?_, ?_, ?_⟩ <;> decide

section Image

theorem rootDinode_fits : rootDinode.Fits := by
  refine ⟨by decide, by decide, by decide, by decide, by decide, ?_, ?_⟩
  · intro k
    simp only [rootDinode]
    split <;> decide
  · intro k large
    simp only [NDIRECT] at large
    exact if_neg (by omega)

theorem mkfs_root : dinode mkfsSb mkfsDisk ROOTINO = rootDinode :=
  dinode_setDinode_self _ rootDinode_fits

theorem mkfs_free {i : Nat} (bound : i < NINODES) (differ : i ≠ ROOTINO) :
    (dinode mkfsSb mkfsDisk i).type = 0 := by
  have low : IBLOCK mkfsSb i < 46 := IBLOCK_lt mkfs_geometry bound
  simp only [mkfsDisk]
  rw [dinode_setDinode_ne _ _ differ]
  simp only [dinode]
  rw [upd_of_ne (by omega), upd_of_ne (by omega)]
  rfl

theorem mkfs_alloc {i : Nat} (bound : i < mkfsSb.ninodes)
    (alloc : (dinode mkfsSb mkfsDisk i).type ≠ 0) : i = ROOTINO := by
  by_contra differ
  exact alloc (mkfs_free bound differ)

theorem mkfs_data : mkfsDisk 47 = rootBlock := by
  have data : mkfsDisk 47 = upd (upd (fun _ _ => 0) 46 usedBits) 47 rootBlock 47 :=
    data_setDinode mkfs_geometry _ _ (by decide) (by decide)
  rw [data, upd_self]

theorem mkfs_bitmap {b : Nat} (bound : b < FSSIZE) :
    bitmap mkfsSb mkfsDisk b = decide (b < 48) := by
  have small : b / BPB = 0 := by
    simp only [FSSIZE, BPB, BSIZE] at bound ⊢
    omega
  have bit : b % BPB = b := by
    simp only [FSSIZE, BPB, BSIZE] at bound ⊢
    omega
  have block : BBLOCK mkfsSb b = 46 := by
    simp only [BBLOCK, small]
    decide
  have same : bitmap mkfsSb mkfsDisk b =
      bitmap mkfsSb (upd (upd (fun _ _ => 0) 46 usedBits) 47 rootBlock) b :=
    bitmap_setDinode mkfs_geometry _ _ (by decide) bound
  rw [same, bitmap, block, bit, upd_of_ne (by decide), upd_self, testBit_eq]
  simp only [usedBits]
  by_cases low : b < 48
  · have ones : ∀ j, j < 8 → Nat.testBit 255 j = true := by decide
    rw [if_pos (by omega)]
    simp only [low, decide_true]
    exact ones (b % 8) (Nat.mod_lt _ (by decide))
  · rw [if_neg (by omega)]
    simp [low]

theorem mkfs_slot {i k : Nat} (bound : i < mkfsSb.ninodes)
    (alloc : (dinode mkfsSb mkfsDisk i).type ≠ 0)
    (held : slotOf (dinode mkfsSb mkfsDisk i) mkfsDisk k ≠ 0) :
    i = ROOTINO ∧ k = 0 ∧ slotOf (dinode mkfsSb mkfsDisk i) mkfsDisk k = 47 := by
  obtain rfl := mkfs_alloc bound alloc
  rw [mkfs_root] at held ⊢
  by_cases first : k = 0
  · subst first
    exact ⟨rfl, rfl, rfl⟩
  · exfalso
    apply held
    by_cases low : k ≤ NDIRECT
    · rw [slotOf_addr low]
      exact if_neg first
    · exact slotOf_none (by omega) (by simp [rootDinode, NDIRECT])

theorem mkfs_structured : Structured mkfsSb (dinode mkfsSb mkfsDisk) mkfsDisk := by
  have root : slots mkfsSb (dinode mkfsSb mkfsDisk) mkfsDisk (ROOTINO, 0) = 47 := by
    rw [slots_eq (by decide) (by rw [mkfs_root]; decide), mkfs_root]
    rfl
  have only : ∀ x, slots mkfsSb (dinode mkfsSb mkfsDisk) mkfsDisk x ≠ 0 →
      x = (ROOTINO, 0) := by
    rintro ⟨i, k⟩ held
    by_cases inside : i < mkfsSb.ninodes ∧ (dinode mkfsSb mkfsDisk i).type ≠ 0
    · rw [slots_eq inside.1 inside.2] at held
      obtain ⟨rfl, rfl, -⟩ := mkfs_slot inside.1 inside.2 held
      rfl
    · exact absurd (if_neg inside) held
  have edge : nmeta mkfsSb = 47 := by decide
  refine ⟨⟨by rw [edge]; decide, ?_, ?_, ?_⟩, ?_, ?_⟩
  · intro b bound
    rw [mkfs_bitmap bound, edge, decide_eq_true_iff]
    constructor
    · intro low
      by_cases last : b = 47
      · exact Or.inr ⟨(ROOTINO, 0), by rw [root, last]⟩
      · exact Or.inl (by omega)
    · rintro (low | ⟨x, rfl⟩)
      · omega
      · by_cases held : slots mkfsSb (dinode mkfsSb mkfsDisk) mkfsDisk x = 0
        · omega
        · rw [only x held, root]
          decide
  · intro x held
    rw [only x held, root, edge]
    decide
  · intro x y held same
    rw [only x held, only y (by rwa [← same])]
  · intro i bound alloc bn inside
    obtain rfl := mkfs_alloc bound alloc
    rw [mkfs_root] at inside ⊢
    have first : bn = 0 := by
      simp only [rootDinode, BSIZE] at inside
      omega
    rw [first]
    decide
  · intro i bound alloc
    obtain rfl := mkfs_alloc bound alloc
    rw [mkfs_root]
    decide

theorem mkfs_node : nodes mkfsSb mkfsDisk ROOTINO =
    ⟨T_DIR, 0, 0, 1, BSIZE, fun o => if o < BSIZE then rootBlock o else 0⟩ := by
  rw [nodes_eq (by decide) (by rw [mkfs_root]; decide), mkfs_root]
  refine Node.ext rfl rfl rfl rfl rfl ?_
  funext o
  simp only [nodeOf]
  by_cases inside : o < BSIZE
  · have first : o / BSIZE = 0 := Nat.div_eq_of_lt inside
    have block : blockOf rootDinode mkfsDisk 0 = 47 := rfl
    have size : o < rootDinode.size := inside
    rw [if_pos size, if_pos inside, byteOf, first, block, if_neg (by decide), mkfs_data,
      Nat.mod_eq_of_lt inside]
  · have size : ¬ o < rootDinode.size := inside
    rw [if_neg size, if_neg inside]

theorem rootBlock_inum {k : Nat} (low : k < 64) : getLE (fun o => if o < BSIZE then rootBlock o
    else 0) (16 * k) 2 = if k < 2 then ROOTINO else 0 := by
  revert k
  decide

theorem mkfs_disk_inv : DiskInv mkfsSb mkfsDisk := by
  refine ⟨mkfs_structured, ?_, mkfs_free (by decide) (by decide)⟩
  intro i isDir
  have alloc : (nodes mkfsSb mkfsDisk i).type ≠ 0 := by
    rw [isDir]
    decide
  have bound := nodes_range alloc
  rw [nodes_type bound] at alloc
  obtain rfl := mkfs_alloc bound alloc
  rw [mkfs_node]
  refine ⟨by decide, ?_⟩
  intro k low
  simp only [Node.entInum]
  have near : k < 64 := low
  rw [rootBlock_inum near]
  split <;> decide

theorem mkfs_uses {a : Nat} : uses mkfsState a = if a = 0 then 1 else 0 := by
  have files : fileUses mkfsState.ftable a = 0 := by
    apply Nat.count_of_forall_not
    rintro f - ⟨⟨pos, -⟩, -⟩
    exact absurd pos (Nat.lt_irrefl 0)
  by_cases first : a = 0
  · subst first
    simp only [uses, files]
    decide
  · have cwds : cwdUses mkfsState.proc a = 0 := by
      apply Nat.count_of_forall_not
      intro p _ same
      simp only [mkfsState] at same
      split at same
      · exact first (Option.some.inj same).symm
      · cases same
    rw [if_neg first, uses, files, cwds]

theorem mkfs_inv : FsInv mkfsSb (fun _ => 0) (fun _ => False) mkfsState := by
  have used : ∀ {a}, 0 < (mkfsState.itable a).ref → a = 0 := by
    intro a pos
    by_contra differ
    simp only [mkfsState, if_neg differ] at pos
    omega
  have root : (mkfsState.itable 0).inum = ROOTINO := rfl
  refine ⟨mkfs_disk_inv, ⟨?_, ?_, ?_, ?_, ?_, ?_⟩, ⟨?_, ?_, ?_, ?_⟩, List.nodup_nil,
    fun _ _ => Or.inl rfl⟩
  · intro a b _ _ posA posB _
    rw [used posA, used posB]
  · intro a _ pos
    rw [used pos, root]
    decide
  · intro a _ _ valid
    cases valid
  · intro a _ pos
    rw [used pos, root]
    simp only [mkfsState]
    rw [mkfs_root]
    decide
  · intro i bound alloc none
    obtain rfl := mkfs_alloc bound alloc
    simp only [mkfsState] at none
    rw [mkfs_root] at none
    cases none
  · intro a _
    rw [mkfs_uses]
    rfl
  · intro f _ _
    rfl
  · rintro f _ ⟨pos, -⟩
    exact absurd pos (Nat.lt_irrefl 0)
  · rintro f _ ⟨pos, -⟩
    exact absurd pos (Nat.lt_irrefl 0)
  · intro p files proc
    simp only [mkfsState] at proc
    split at proc
    · rename_i first
      obtain rfl := Option.some.inj proc
      refine ⟨by rw [first]; decide, by decide, ?_⟩
      intro fd f none
      cases none
    · cases proc

end Image

end Xv6Fcfs.Fs
