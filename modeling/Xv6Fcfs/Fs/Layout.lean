import Xv6Fcfs.Lib.Bytes

/-!
# The disk layout of `kernel/fs.h`

The disk is a sequence of blocks of bytes.  The super block says where the inodes and
the free map lie; dinodes, the bits of the free map and the entries of an indirect block
are fields of blocks.  The disk here is the one the kernel sees through its buffers.
-/

set_option autoImplicit false

namespace Xv6Fcfs.Fs

open Xv6Fcfs.Lib

def ROOTINO : Nat := 1
def BSIZE : Nat := 1024
def NDIRECT : Nat := 12
def NINDIRECT : Nat := BSIZE / 4
def MAXFILE : Nat := NDIRECT + NINDIRECT
def DIRSIZ : Nat := 14

def T_DIR : Nat := 1
def T_FILE : Nat := 2
def T_DEVICE : Nat := 3

/-- `struct superblock` after `readsb`. -/
structure Superblock where
  size : Nat
  nblocks : Nat
  ninodes : Nat
  nlog : Nat
  logstart : Nat
  inodestart : Nat
  bmapstart : Nat

abbrev Block := Bytes
abbrev Disk := Nat → Block

/-- Inodes per block: `sizeof(struct dinode)` is 64. -/
def IPB : Nat := BSIZE / 64

def BPB : Nat := BSIZE * 8

def IBLOCK (sb : Superblock) (i : Nat) : Nat := i / IPB + sb.inodestart

def BBLOCK (sb : Superblock) (b : Nat) : Nat := b / BPB + sb.bmapstart

def nmeta (sb : Superblock) : Nat := sb.size - sb.nblocks

/-- `[ boot block | super block | log | inode blocks | free bit map | data blocks ]` -/
structure Geometry (sb : Superblock) : Prop where
  boot : 2 ≤ sb.logstart
  log : sb.logstart + sb.nlog ≤ sb.inodestart
  inodes : sb.inodestart + sb.ninodes / IPB + 1 ≤ sb.bmapstart
  bitmap : sb.bmapstart + sb.size / BPB + 1 ≤ nmeta sb
  small : sb.size < 2 ^ 31
  manyInodes : sb.ninodes < 2 ^ 31
  root : ROOTINO < sb.ninodes

theorem Geometry.positive {sb : Superblock} (geo : Geometry sb) : 0 < sb.ninodes := by
  have root := geo.root
  omega

/-! ## Dinodes -/

/-- `struct dinode`; the `short` fields are kept as their 16 bits. -/
@[ext]
structure Dinode where
  type : Nat
  major : Nat
  minor : Nat
  nlink : Nat
  size : Nat
  addrs : Nat → Nat

/-- The value of 16 bits read as a `short`. -/
def short (v : Nat) : Int := if v < 2 ^ 15 then v else (v : Int) - 2 ^ 16

structure Dinode.Fits (d : Dinode) : Prop where
  type : d.type < 2 ^ 16
  major : d.major < 2 ^ 16
  minor : d.minor < 2 ^ 16
  nlink : d.nlink < 2 ^ 16
  size : d.size < 2 ^ 32
  addrs : ∀ k, d.addrs k < 2 ^ 32
  outside : ∀ k, NDIRECT < k → d.addrs k = 0

def getDinode (b : Block) (o : Nat) : Dinode where
  type := getLE b o 2
  major := getLE b (o + 2) 2
  minor := getLE b (o + 4) 2
  nlink := getLE b (o + 6) 2
  size := getLE b (o + 8) 4
  addrs k := if k ≤ NDIRECT then getLE b (o + 12 + 4 * k) 4 else 0

def putDinode (b : Block) (o : Nat) (d : Dinode) : Block :=
  let b := putLE b o 2 d.type
  let b := putLE b (o + 2) 2 d.major
  let b := putLE b (o + 4) 2 d.minor
  let b := putLE b (o + 6) 2 d.nlink
  let b := putLE b (o + 8) 4 d.size
  putArray b (o + 12) 4 d.addrs (NDIRECT + 1)

/-- `(struct dinode *)bp->data + inum % IPB`, in bytes. -/
def dinodeOffset (i : Nat) : Nat := 64 * (i % IPB)

def dinode (sb : Superblock) (disk : Disk) (i : Nat) : Dinode :=
  getDinode (disk (IBLOCK sb i)) (dinodeOffset i)

def setDinode (sb : Superblock) (disk : Disk) (i : Nat) (d : Dinode) : Disk :=
  upd disk (IBLOCK sb i) (putDinode (disk (IBLOCK sb i)) (dinodeOffset i) d)

/-! ## The free map -/

/-- `m = 1 << (bi % 8)` -/
def bitMask (bi : Nat) : UInt8 := UInt8.ofNat (2 ^ (bi % 8))

/-- `(bp->data[bi / 8] & m) != 0` -/
def testBit (d : Block) (bi : Nat) : Bool := d (bi / 8) &&& bitMask bi != 0

def setBit (d : Block) (bi : Nat) : Block :=
  upd d (bi / 8) (d (bi / 8) ||| bitMask bi)

def clearBit (d : Block) (bi : Nat) : Block :=
  upd d (bi / 8) (d (bi / 8) &&& ~~~ bitMask bi)

def bitmap (sb : Superblock) (disk : Disk) (b : Nat) : Bool :=
  testBit (disk (BBLOCK sb b)) (b % BPB)

/-- Entry `j` of an indirect block. -/
def indirect (d : Block) (j : Nat) : Nat := getLE d (4 * j) 4

/-! ## Fields of blocks -/

section Blocks
variable {b b' : Block} {o : Nat} {d : Dinode}

theorem getDinode_fits (b : Block) (o : Nat) : (getDinode b o).Fits := by
  have narrow : ∀ at', getLE b at' 2 < 2 ^ 16 := fun at' => getLE_lt b 2 at'
  have wide : ∀ at', getLE b at' 4 < 2 ^ 32 := fun at' => getLE_lt b 4 at'
  refine ⟨narrow _, narrow _, narrow _, narrow _, wide _, ?_, ?_⟩
  · intro k
    simp only [getDinode]
    split
    · exact wide _
    · decide
  · intro k large
    simp only [getDinode, if_neg (Nat.not_le.mpr large)]

theorem getDinode_congr (same : ∀ i, o ≤ i → i < o + 64 → b i = b' i) :
    getDinode b o = getDinode b' o := by
  have field : ∀ at' w, o ≤ at' → at' + w ≤ o + 64 → getLE b at' w = getLE b' at' w := by
    intro at' w low high
    apply getLE_congr
    intro i from' to'
    exact same i (by omega) (by omega)
  ext k
  · exact field _ _ (by omega) (by omega)
  · exact field _ _ (by omega) (by omega)
  · exact field _ _ (by omega) (by omega)
  · exact field _ _ (by omega) (by omega)
  · exact field _ _ (by omega) (by omega)
  · simp only [getDinode]
    by_cases low : k ≤ NDIRECT
    · simp only [if_pos low]
      simp only [NDIRECT] at low
      exact field _ _ (by omega) (by omega)
    · simp only [if_neg low]

theorem putDinode_outside (b : Block) (d : Dinode) {i : Nat} (apart : i < o ∨ o + 64 ≤ i) :
    putDinode b o d i = b i := by
  simp only [putDinode]
  rw [putArray_outside _ _ _ (by simp only [NDIRECT]; omega), putLE_outside _ _ (by omega),
    putLE_outside _ _ (by omega), putLE_outside _ _ (by omega), putLE_outside _ _ (by omega),
    putLE_outside _ _ (by omega)]

theorem getDinode_putDinode (b : Block) (o : Nat) (fits : d.Fits) :
    getDinode (putDinode b o d) o = d := by
  -- the addresses lie behind the other fields
  have head : ∀ {c : Block} {at' w : Nat}, at' + w ≤ o + 12 →
      getLE (putArray c (o + 12) 4 d.addrs (NDIRECT + 1)) at' w = getLE c at' w := by
    intro c at' w low
    apply getLE_congr
    intro i _ high
    exact putArray_outside _ _ _ (by omega)
  ext k
  · simp only [getDinode, putDinode]
    rw [head (by omega), getLE_putLE_other _ _ (by omega), getLE_putLE_other _ _ (by omega),
      getLE_putLE_other _ _ (by omega), getLE_putLE_other _ _ (by omega), getLE_putLE_same]
    exact Nat.mod_eq_of_lt fits.type
  · simp only [getDinode, putDinode]
    rw [head (by omega), getLE_putLE_other _ _ (by omega), getLE_putLE_other _ _ (by omega),
      getLE_putLE_other _ _ (by omega), getLE_putLE_same]
    exact Nat.mod_eq_of_lt fits.major
  · simp only [getDinode, putDinode]
    rw [head (by omega), getLE_putLE_other _ _ (by omega), getLE_putLE_other _ _ (by omega),
      getLE_putLE_same]
    exact Nat.mod_eq_of_lt fits.minor
  · simp only [getDinode, putDinode]
    rw [head (by omega), getLE_putLE_other _ _ (by omega), getLE_putLE_same]
    exact Nat.mod_eq_of_lt fits.nlink
  · simp only [getDinode, putDinode]
    rw [head (by omega), getLE_putLE_same]
    exact Nat.mod_eq_of_lt fits.size
  · simp only [getDinode, putDinode]
    split
    · rename_i low
      rw [getLE_putArray _ _ _ (by omega)]
      exact Nat.mod_eq_of_lt (fits.addrs k)
    · rename_i high
      exact (fits.outside k (by omega)).symm

theorem bitMask_toNat (bi : Nat) : (bitMask bi).toNat = 2 ^ (bi % 8) := by
  have small : 2 ^ (bi % 8) < 2 ^ 8 := Nat.pow_lt_pow_right (by decide) (Nat.mod_lt _ (by decide))
  simp only [bitMask, UInt8.toNat_ofNat']
  exact Nat.mod_eq_of_lt small

theorem testBit_eq (d : Block) (bi : Nat) :
    Fs.testBit d bi = (d (bi / 8)).toNat.testBit (bi % 8) := by
  have bits : ∀ j, (d (bi / 8) &&& bitMask bi).toNat.testBit j =
      ((d (bi / 8)).toNat.testBit j && decide (bi % 8 = j)) := by
    intro j
    rw [UInt8.toNat_and, Nat.testBit_and, bitMask_toNat, Nat.testBit_two_pow]
  unfold Fs.testBit
  cases value : (d (bi / 8)).toNat.testBit (bi % 8) with
  | false =>
      have zero : d (bi / 8) &&& bitMask bi = 0 := by
        apply UInt8.toNat_inj.mp
        apply Nat.eq_of_testBit_eq
        intro j
        rw [bits]
        by_cases here : bi % 8 = j
        · simp [← here, value]
        · simp [here]
      simp [zero]
  | true =>
      have nonzero : d (bi / 8) &&& bitMask bi ≠ 0 := by
        intro zero
        have one := bits (bi % 8)
        rw [zero, value] at one
        simp at one
      simp [nonzero]

theorem testBit_setBit (d : Block) (bi bj : Nat) :
    Fs.testBit (setBit d bi) bj = if bj = bi then true else Fs.testBit d bj := by
  simp only [testBit_eq, setBit]
  by_cases byte : bj / 8 = bi / 8
  · rw [byte, upd_self, UInt8.toNat_or, Nat.testBit_or, bitMask_toNat,
      Nat.testBit_two_pow]
    by_cases here : bj = bi
    · simp [here]
    · have apart : bi % 8 ≠ bj % 8 := by omega
      simp [here, apart]
  · have here : bj ≠ bi := fun same => byte (by rw [same])
    rw [upd_of_ne byte, if_neg here]

theorem testBit_clearBit (d : Block) (bi bj : Nat) :
    Fs.testBit (clearBit d bi) bj = if bj = bi then false else Fs.testBit d bj := by
  simp only [testBit_eq, clearBit]
  by_cases byte : bj / 8 = bi / 8
  · have small : 2 ^ (bi % 8) < 2 ^ 8 := by
      rw [← bitMask_toNat]
      exact (bitMask bi).toNat_lt
    have complement : (~~~ bitMask bi).toNat = 2 ^ 8 - (2 ^ (bi % 8) + 1) := by
      rw [UInt8.toNat_not, bitMask_toNat, UInt8.size]
      omega
    rw [byte, upd_self, UInt8.toNat_and, Nat.testBit_and, complement,
      Nat.testBit_two_pow_sub_succ small, Nat.testBit_two_pow]
    by_cases here : bj = bi
    · simp [here]
    · have apart : bi % 8 ≠ bj % 8 := by omega
      have low : bj % 8 < 8 := Nat.mod_lt _ (by decide)
      simp [here, apart, low]
  · have here : bj ≠ bi := fun same => byte (by rw [same])
    rw [upd_of_ne byte, if_neg here]

theorem indirect_put (d : Block) (j j' v : Nat) (small : v < 2 ^ 32) :
    indirect (putLE d (4 * j) 4 v) j' = if j' = j then v else indirect d j' := by
  unfold indirect
  by_cases here : j' = j
  · rw [if_pos here, here, getLE_putLE_same]
    exact Nat.mod_eq_of_lt small
  · rw [if_neg here, getLE_putLE_other _ _ (by omega)]

end Blocks

/-! ## The areas of the disk do not overlap -/

section Areas
variable {sb : Superblock} {disk : Disk} {i j b c : Nat}

theorem IBLOCK_lt (geo : Geometry sb) (bound : i < sb.ninodes) : IBLOCK sb i < sb.bmapstart := by
  have area := geo.inodes
  have block : i / IPB ≤ sb.ninodes / IPB := Nat.div_le_div_right (by omega)
  unfold IBLOCK
  omega

theorem BBLOCK_range (geo : Geometry sb) (bound : b < sb.size) :
    sb.bmapstart ≤ BBLOCK sb b ∧ BBLOCK sb b < nmeta sb := by
  have area := geo.bitmap
  simp only [BBLOCK, BPB, BSIZE] at area ⊢
  omega

theorem IBLOCK_ne_BBLOCK (geo : Geometry sb) (inode : i < sb.ninodes) (block : b < sb.size) :
    IBLOCK sb i ≠ BBLOCK sb b := by
  have low := IBLOCK_lt geo inode
  have high := (BBLOCK_range geo block).1
  omega

theorem IBLOCK_lt_nmeta (geo : Geometry sb) (bound : i < sb.ninodes) :
    IBLOCK sb i < nmeta sb := by
  have low := IBLOCK_lt geo bound
  have area := geo.bitmap
  simp only [BPB, BSIZE] at area
  omega

theorem dinode_fits (sb : Superblock) (disk : Disk) (i : Nat) : (dinode sb disk i).Fits :=
  getDinode_fits _ _

theorem dinode_setDinode_self (disk : Disk) {d : Dinode} (fits : d.Fits) :
    dinode sb (setDinode sb disk i d) i = d := by
  simp only [dinode, setDinode, upd_self]
  exact getDinode_putDinode _ _ fits

theorem dinode_setDinode_ne (disk : Disk) (d : Dinode) (differ : j ≠ i) :
    dinode sb (setDinode sb disk i d) j = dinode sb disk j := by
  simp only [dinode, setDinode]
  by_cases block : IBLOCK sb j = IBLOCK sb i
  · rw [block, upd_self]
    apply getDinode_congr
    intro k low high
    apply putDinode_outside
    simp only [IBLOCK, dinodeOffset, IPB, BSIZE] at block low high ⊢
    omega
  · rw [upd_of_ne block]

theorem bitmap_setDinode (geo : Geometry sb) (disk : Disk) (d : Dinode) (inode : i < sb.ninodes)
    (block : b < sb.size) : bitmap sb (setDinode sb disk i d) b = bitmap sb disk b := by
  simp only [bitmap, setDinode]
  rw [upd_of_ne (IBLOCK_ne_BBLOCK geo inode block).symm]

theorem data_setDinode (geo : Geometry sb) (disk : Disk) (d : Dinode) (inode : i < sb.ninodes)
    (data : nmeta sb ≤ b) : setDinode sb disk i d b = disk b := by
  have low := IBLOCK_lt_nmeta geo inode
  exact upd_of_ne (by omega) _ _

/-! Writing a data block. -/

theorem dinode_update_data (geo : Geometry sb) (disk : Disk) (v : Block) (inode : i < sb.ninodes)
    (data : nmeta sb ≤ c) : dinode sb (upd disk c v) i = dinode sb disk i := by
  have low := IBLOCK_lt_nmeta geo inode
  simp only [dinode]
  rw [upd_of_ne (by omega)]

theorem bitmap_update_data (geo : Geometry sb) (disk : Disk) (v : Block) (block : b < sb.size)
    (data : nmeta sb ≤ c) : bitmap sb (upd disk c v) b = bitmap sb disk b := by
  have low := (BBLOCK_range geo block).2
  simp only [bitmap]
  rw [upd_of_ne (by omega)]

/-! Writing a block of the free map. -/

theorem dinode_update_bitmap (geo : Geometry sb) (disk : Disk) (v : Block) (inode : i < sb.ninodes)
    (block : b < sb.size) :
    dinode sb (upd disk (BBLOCK sb b) v) i = dinode sb disk i := by
  simp only [dinode]
  rw [upd_of_ne (IBLOCK_ne_BBLOCK geo inode block)]

theorem data_update_bitmap (geo : Geometry sb) (disk : Disk) (v : Block) (block : b < sb.size)
    (data : nmeta sb ≤ c) : upd disk (BBLOCK sb b) v c = disk c := by
  have low := (BBLOCK_range geo block).2
  exact upd_of_ne (by omega) _ _

theorem bitmap_setBit (sb : Superblock) (disk : Disk) (b c : Nat) :
    bitmap sb (upd disk (BBLOCK sb b) (setBit (disk (BBLOCK sb b)) (b % BPB))) c =
      if c = b then true else bitmap sb disk c := by
  simp only [bitmap]
  by_cases block : BBLOCK sb c = BBLOCK sb b
  · rw [block, upd_self, testBit_setBit]
    congr 1
    simp only [BBLOCK, BPB, BSIZE] at block ⊢
    apply propext
    constructor <;> intro same <;> omega
  · have differ : c ≠ b := fun same => block (by rw [same])
    rw [upd_of_ne block, if_neg differ]

theorem bitmap_clearBit (sb : Superblock) (disk : Disk) (b c : Nat) :
    bitmap sb (upd disk (BBLOCK sb b) (clearBit (disk (BBLOCK sb b)) (b % BPB))) c =
      if c = b then false else bitmap sb disk c := by
  simp only [bitmap]
  by_cases block : BBLOCK sb c = BBLOCK sb b
  · rw [block, upd_self, testBit_clearBit]
    congr 1
    simp only [BBLOCK, BPB, BSIZE] at block ⊢
    apply propext
    constructor <;> intro same <;> omega
  · have differ : c ≠ b := fun same => block (by rw [same])
    rw [upd_of_ne block, if_neg differ]

end Areas

end Xv6Fcfs.Fs
