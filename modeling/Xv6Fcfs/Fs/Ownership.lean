import Xv6Fcfs.Lib.Owned
import Xv6Fcfs.Fs.Blocks

/-!
# Who owns which block

The slots of an inode are its direct addresses, the address of its indirect block and
the entries of that block.  `Structured` is the on-disk structure invariant: the free map
marks the metadata and what the slots hold, no block is in two slots, and the blocks of a
file are mapped up to its size.  `balloc`, `bfree` and `bmap` are specified by what they
do to the slots and to the bytes of the files.
-/

set_option autoImplicit false

namespace Xv6Fcfs.Fs

open Xv6Fcfs.Lib

/-- Slot `k` of a dinode: `addrs[k]`, then the entries of the indirect block. -/
def slotOf (d : Dinode) (disk : Disk) (k : Nat) : Nat :=
  if k ≤ NDIRECT then d.addrs k
  else if k ≤ NDIRECT + NINDIRECT ∧ d.addrs NDIRECT ≠ 0 then
    indirect (disk (d.addrs NDIRECT)) (k - (NDIRECT + 1))
  else 0

/-- The slot of block `bn` of the file. -/
def blockSlot (bn : Nat) : Nat := if bn < NDIRECT then bn else bn + 1

def blockOf (d : Dinode) (disk : Disk) (bn : Nat) : Nat := slotOf d disk (blockSlot bn)

/-- Byte `off` of the file; a byte of a block that is not mapped is 0. -/
def byteOf (d : Dinode) (disk : Disk) (off : Nat) : UInt8 :=
  if blockOf d disk (off / BSIZE) = 0 then 0
  else disk (blockOf d disk (off / BSIZE)) (off % BSIZE)

/-- The slots of the allocated inodes, the inodes being given by `inodes`. -/
def slots (sb : Superblock) (inodes : Nat → Dinode) (disk : Disk) (x : Nat × Nat) : Nat :=
  if x.1 < sb.ninodes ∧ (inodes x.1).type ≠ 0 then slotOf (inodes x.1) disk x.2 else 0

structure Structured (sb : Superblock) (inodes : Nat → Dinode) (disk : Disk) : Prop where
  owned : Owned (nmeta sb) sb.size (bitmap sb disk) (slots sb inodes disk)
  mapped : ∀ i, i < sb.ninodes → (inodes i).type ≠ 0 →
    ∀ bn, bn * BSIZE < (inodes i).size → blockOf (inodes i) disk bn ≠ 0
  bound : ∀ i, i < sb.ninodes → (inodes i).type ≠ 0 → (inodes i).size ≤ MAXFILE * BSIZE

def current (sb : Superblock) (f : FileState) : Nat → Dinode :=
  upd (dinode sb f.disk) f.inum f.ip

/-! ## Reading slots -/

section Slots
variable {sb : Superblock} {d d' : Dinode} {disk disk' : Disk} {inodes inodes' : Nat → Dinode}

theorem blockSlot_ne (bn : Nat) : blockSlot bn ≠ NDIRECT := by
  unfold blockSlot
  split <;> omega

theorem blockSlot_inj {bn bn' : Nat} (same : blockSlot bn = blockSlot bn') : bn = bn' := by
  unfold blockSlot at same
  split at same <;> split at same <;> omega

theorem slotOf_addr {k : Nat} (low : k ≤ NDIRECT) : slotOf d disk k = d.addrs k := by
  simp only [slotOf, if_pos low]

theorem addrs_eq_slotOf (disk : Disk) {k : Nat} (low : k ≤ NDIRECT) : d.addrs k = slotOf d disk k :=
  (slotOf_addr low).symm

theorem slotOf_entry {k : Nat} (low : NDIRECT < k) (high : k ≤ NDIRECT + NINDIRECT)
    (has : d.addrs NDIRECT ≠ 0) :
    slotOf d disk k = indirect (disk (d.addrs NDIRECT)) (k - (NDIRECT + 1)) := by
  simp only [slotOf, if_neg (Nat.not_le.mpr low), if_pos (And.intro high has)]

theorem slotOf_none {k : Nat} (low : NDIRECT < k)
    (none : ¬ (k ≤ NDIRECT + NINDIRECT ∧ d.addrs NDIRECT ≠ 0)) : slotOf d disk k = 0 := by
  simp only [slotOf, if_neg (Nat.not_le.mpr low), if_neg none]

theorem slotOf_congr {k : Nat} (addrs : d'.addrs = d.addrs)
    (same : d.addrs NDIRECT ≠ 0 → disk' (d.addrs NDIRECT) = disk (d.addrs NDIRECT)) :
    slotOf d' disk' k = slotOf d disk k := by
  simp only [slotOf, addrs]
  by_cases has : d.addrs NDIRECT = 0
  · simp [has]
  · rw [same has]

theorem byteOf_congr {off : Nat}
    (block : blockOf d' disk' (off / BSIZE) = blockOf d disk (off / BSIZE))
    (same : blockOf d disk (off / BSIZE) ≠ 0 →
      disk' (blockOf d disk (off / BSIZE)) = disk (blockOf d disk (off / BSIZE))) :
    byteOf d' disk' off = byteOf d disk off := by
  simp only [byteOf, block]
  by_cases unmapped : blockOf d disk (off / BSIZE) = 0
  · simp [unmapped]
  · rw [same unmapped]

theorem file_same
    (same : ∀ k, slotOf d disk k ≠ 0 → disk' (slotOf d disk k) = disk (slotOf d disk k)) :
    (∀ k, slotOf d disk' k = slotOf d disk k) ∧
      ∀ off, byteOf d disk' off = byteOf d disk off := by
  have slot : ∀ k, slotOf d disk' k = slotOf d disk k := by
    intro k
    apply slotOf_congr rfl
    intro has
    have block := same NDIRECT
    rw [slotOf_addr (Nat.le_refl _)] at block
    exact block has
  refine ⟨slot, ?_⟩
  intro off
  exact byteOf_congr (slot _) (same _)

theorem slots_eq {i k : Nat} (bound : i < sb.ninodes) (alloc : (inodes i).type ≠ 0) :
    slots sb inodes disk (i, k) = slotOf (inodes i) disk k := by
  simp only [slots, if_pos (And.intro bound alloc)]

theorem slots_congr (types : ∀ i, i < sb.ninodes → (inodes' i).type = (inodes i).type)
    (same : ∀ i, i < sb.ninodes → (inodes i).type ≠ 0 →
      ∀ k, slotOf (inodes' i) disk' k = slotOf (inodes i) disk k) (x : Nat × Nat) :
    slots sb inodes' disk' x = slots sb inodes disk x := by
  obtain ⟨i, k⟩ := x
  simp only [slots]
  by_cases bound : i < sb.ninodes
  · rw [types i bound]
    by_cases alloc : (inodes i).type ≠ 0
    · rw [if_pos ⟨bound, alloc⟩, if_pos ⟨bound, alloc⟩, same i bound alloc]
    · rw [if_neg fun both => alloc both.2, if_neg fun both => alloc both.2]
  · rw [if_neg fun both => bound both.1, if_neg fun both => bound both.1]

end Slots

namespace Structured
variable {sb : Superblock} {inodes : Nat → Dinode} {disk : Disk} {i j k l : Nat}

theorem slot_range (str : Structured sb inodes disk) (bound : i < sb.ninodes)
    (alloc : (inodes i).type ≠ 0) (held : slotOf (inodes i) disk k ≠ 0) :
    nmeta sb ≤ slotOf (inodes i) disk k ∧ slotOf (inodes i) disk k < sb.size := by
  have range := str.owned.range (i, k)
  rw [slots_eq bound alloc] at range
  exact range held

theorem slot_inj (str : Structured sb inodes disk) (bound : i < sb.ninodes)
    (alloc : (inodes i).type ≠ 0) (bound' : j < sb.ninodes) (alloc' : (inodes j).type ≠ 0)
    (held : slotOf (inodes i) disk k ≠ 0)
    (same : slotOf (inodes i) disk k = slotOf (inodes j) disk l) : i = j ∧ k = l := by
  have inj := str.owned.inj (i, k) (j, l)
  rw [slots_eq bound alloc, slots_eq bound' alloc'] at inj
  exact Prod.mk.inj (inj held same)

theorem slot_ne_free (str : Structured sb inodes disk) (bound : i < sb.ninodes)
    (alloc : (inodes i).type ≠ 0) {b : Nat} (limit : b < sb.size) (free : bitmap sb disk b = false) :
    slotOf (inodes i) disk k ≠ b := by
  have apart := str.owned.slot_ne_of_free limit free (i, k)
  rwa [slots_eq bound alloc] at apart

end Structured

/-! ## `balloc` and `bfree` -/

section Allocation
variable {sb : Superblock}

theorem freeBit_some {data : Block} {b : Nat} : ∀ (n bi r : Nat),
    freeBit sb data b bi n = some r →
      b + r < sb.size ∧ Fs.testBit data r = false ∧ r < bi + n := by
  intro n
  induction n with
  | zero => intro bi r found; simp [freeBit] at found
  | succ n ih =>
      intro bi r found
      simp only [freeBit] at found
      split at found
      · rename_i inside
        split at found
        · obtain ⟨limit, free, near⟩ := ih (bi + 1) r found
          exact ⟨limit, free, by omega⟩
        · rename_i free
          obtain rfl := Option.some.inj found
          exact ⟨inside, by simpa using free, by omega⟩
      · simp at found

theorem freeBlock_some {disk : Disk} : ∀ (n b b' r : Nat), b % BPB = 0 →
    freeBlock sb disk b n = some (b', r) →
      b' + r < sb.size ∧ BBLOCK sb (b' + r) = BBLOCK sb b' ∧ (b' + r) % BPB = r ∧
        Fs.testBit (disk (BBLOCK sb b')) r = false := by
  intro n
  induction n with
  | zero => intro b b' r _ found; simp [freeBlock] at found
  | succ n ih =>
      intro b b' r aligned found
      simp only [freeBlock] at found
      split at found
      · split at found
        · rename_i bi first
          obtain ⟨limit, free, near⟩ := freeBit_some _ _ _ first
          obtain ⟨rfl, rfl⟩ := Prod.mk.inj (Option.some.inj found)
          simp only [BBLOCK, BPB, BSIZE] at aligned near ⊢
          refine ⟨limit, by omega, by omega, free⟩
        · exact ih (b + BPB) b' r (by simpa using aligned) found
      · simp at found

theorem freeBit_none {data : Block} {b : Nat} : ∀ (n bi : Nat),
    freeBit sb data b bi n = none →
      ∀ r, bi ≤ r → r < bi + n → b + r < sb.size → Fs.testBit data r = true := by
  intro n
  induction n with
  | zero => intro bi _ r low high; omega
  | succ n ih =>
      intro bi missing r low high limit
      simp only [freeBit] at missing
      rw [if_pos (by omega)] at missing
      split at missing
      · rename_i taken
        by_cases here : r = bi
        · rw [here]
          exact taken
        · exact ih (bi + 1) missing r (by omega) (by omega) limit
      · cases missing

theorem freeBlock_none {disk : Disk} : ∀ (n b : Nat), b % BPB = 0 →
    freeBlock sb disk b n = none →
      ∀ c, b ≤ c → c < b + n * BPB → c < sb.size → bitmap sb disk c = true := by
  intro n
  induction n with
  | zero => intro b _ _ c low high; omega
  | succ n ih =>
      intro b aligned missing c low high limit
      simp only [freeBlock] at missing
      rw [if_pos (by omega)] at missing
      split at missing
      · cases missing
      · rename_i none
        by_cases here : c < b + BPB
        · have taken := freeBit_none _ _ none (c - b) (by omega) (by omega) (by omega)
          rw [bitmap]
          have block : BBLOCK sb c = BBLOCK sb b := by
            simp only [BBLOCK, BPB, BSIZE] at aligned here ⊢
            omega
          have bit : c % BPB = c - b := by
            simp only [BPB, BSIZE] at aligned here ⊢
            omega
          rw [block, bit]
          exact taken
        · rw [Nat.add_mul] at high
          exact ih (b + BPB) (by simpa using aligned) missing c (by omega) (by omega) limit

def Full (sb : Superblock) (disk : Disk) : Prop := ∀ b, b < sb.size → bitmap sb disk b = true

/-- What `balloc` does to the disk when it finds block `addr`. -/
structure Allocated (sb : Superblock) (disk : Disk) (addr : Nat) (disk' : Disk) : Prop where
  low : nmeta sb ≤ addr
  high : addr < sb.size
  free : bitmap sb disk addr = false
  marked : ∀ c, c < sb.size → bitmap sb disk' c = if c = addr then true else bitmap sb disk c
  inodes : ∀ i, i < sb.ninodes → dinode sb disk' i = dinode sb disk i
  zero : disk' addr = fun _ => 0
  others : ∀ c, nmeta sb ≤ c → c ≠ addr → disk' c = disk c

theorem balloc_spec (geo : Geometry sb) {slot : Nat × Nat → Nat} (f : FileState)
    (owned : Owned (nmeta sb) sb.size (bitmap sb f.disk) slot) :
    wp (balloc sb) (fun _ => False) (fun addr f' => (addr = 0 ∧ f' = f ∧ Full sb f.disk) ∨
      (addr ≠ 0 ∧ f'.inum = f.inum ∧ f'.ip = f.ip ∧ Allocated sb f.disk addr f'.disk)) f := by
  simp only [balloc, wp_bind, wp_get]
  split
  · rename_i none
    refine Or.inl ⟨rfl, rfl, ?_⟩
    intro b limit
    apply freeBlock_none _ _ (by simp) none b (by omega) _ limit
    simp only [BPB, BSIZE]
    omega
  · rename_i b bi found
    obtain ⟨limit, block, bit, free⟩ := freeBlock_some _ _ _ _ (by simp) found
    have free' : bitmap sb f.disk (b + bi) = false := by
      rw [bitmap, block, bit]
      exact free
    have low := owned.free_range limit free'
    have pos := owned.pos
    simp only [wp_bind, wp_set, bzero, wp_modify, wp_pure]
    refine Or.inr ⟨by omega, rfl, rfl, low, limit, free', ?_, ?_, ?_, ?_⟩
    · intro c inside
      have marked := bitmap_setBit sb f.disk (b + bi) c
      rw [block, bit] at marked
      simp only [writeBlock]
      rw [bitmap_update_data geo _ _ inside low, marked]
    · intro i inside
      simp only [writeBlock]
      rw [dinode_update_data geo _ _ inside low, ← block]
      exact dinode_update_bitmap geo _ _ inside limit
    · simp only [writeBlock, upd_self]
    · intro c data differ
      simp only [writeBlock]
      rw [upd_of_ne differ, ← block]
      exact data_update_bitmap geo _ _ limit data

/-- What `bfree` does to the disk. -/
structure Freed (sb : Superblock) (disk : Disk) (b : Nat) (disk' : Disk) : Prop where
  cleared : ∀ c, c < sb.size → bitmap sb disk' c = if c = b then false else bitmap sb disk c
  inodes : ∀ i, i < sb.ninodes → dinode sb disk' i = dinode sb disk i
  data : ∀ c, nmeta sb ≤ c → disk' c = disk c

theorem bfree_spec (geo : Geometry sb) (f : FileState) {b : Nat} (limit : b < sb.size)
    (used : bitmap sb f.disk b = true) :
    wp (bfree sb b) (fun _ => False)
      (fun _ f' => f'.inum = f.inum ∧ f'.ip = f.ip ∧ Freed sb f.disk b f'.disk) f := by
  simp only [bfree, wp_bind, wp_get, wp_ite, wp_set, wp_throw]
  refine ⟨?_, fun unset => absurd used unset⟩
  intro _
  refine ⟨rfl, rfl, ?_, ?_, ?_⟩
  · intro c _
    exact bitmap_clearBit sb f.disk b c
  · intro i inside
    exact dinode_update_bitmap geo _ _ inside limit
  · intro c data
    exact data_update_bitmap geo _ _ limit data

end Allocation

/-! ## `bmap` -/

/-- The inode worked on, with the structure of the whole disk. -/
structure Working (sb : Superblock) (f : FileState) : Prop where
  inum : f.inum < sb.ninodes
  alloc : f.ip.type ≠ 0
  fits : f.ip.Fits
  str : Structured sb (current sb f) f.disk

/-- Blocks were added to the inode; no byte of any file changed. -/
structure Grown (sb : Superblock) (f f' : FileState) : Prop where
  inum : f'.inum = f.inum
  fields : f'.ip = { f.ip with addrs := f'.ip.addrs }
  inodes : ∀ i, i < sb.ninodes → dinode sb f'.disk i = dinode sb f.disk i
  keeps : ∀ k, slotOf f.ip f.disk k ≠ 0 → slotOf f'.ip f'.disk k = slotOf f.ip f.disk k
  bytes : ∀ off, byteOf f'.ip f'.disk off = byteOf f.ip f.disk off
  others : ∀ i, i < sb.ninodes → i ≠ f.inum → (dinode sb f.disk i).type ≠ 0 →
    ∀ off, byteOf (dinode sb f.disk i) f'.disk off = byteOf (dinode sb f.disk i) f.disk off

theorem Grown.refl (sb : Superblock) (f : FileState) : Grown sb f f :=
  ⟨rfl, rfl, fun _ _ => rfl, fun _ _ => rfl, fun _ => rfl, fun _ _ _ _ _ => rfl⟩

theorem Grown.trans {sb : Superblock} {f g h : FileState} (first : Grown sb f g)
    (second : Grown sb g h) : Grown sb f h where
  inum := second.inum.trans first.inum
  fields := by rw [second.fields, first.fields]
  inodes i bound := (second.inodes i bound).trans (first.inodes i bound)
  keeps k held := by
    have one := first.keeps k held
    rw [second.keeps k (by rwa [one]), one]
  bytes off := (second.bytes off).trans (first.bytes off)
  others i bound differ alloc off := by
    have same := first.inodes i bound
    have two := second.others i bound (by rwa [first.inum]) (by rwa [same]) off
    rw [same] at two
    exact two.trans (first.others i bound differ alloc off)

section Bmap
variable {sb : Superblock} {f f' : FileState}

theorem current_self (sb : Superblock) (f : FileState) : current sb f f.inum = f.ip :=
  upd_self _ _ _

theorem current_ne {i : Nat} (differ : i ≠ f.inum) : current sb f i = dinode sb f.disk i :=
  upd_of_ne differ _ _

namespace Working

theorem slot_range (work : Working sb f) {k : Nat} (held : slotOf f.ip f.disk k ≠ 0) :
    nmeta sb ≤ slotOf f.ip f.disk k ∧ slotOf f.ip f.disk k < sb.size := by
  have range := work.str.slot_range (k := k) work.inum
  rw [current_self] at range
  exact range work.alloc held

theorem slot_inj (work : Working sb f) {k l : Nat} (held : slotOf f.ip f.disk k ≠ 0)
    (same : slotOf f.ip f.disk k = slotOf f.ip f.disk l) : k = l := by
  have inj := work.str.slot_inj (k := k) (l := l) work.inum (j := f.inum)
  rw [current_self] at inj
  exact (inj work.alloc work.inum work.alloc held same).2

theorem slot_ne_other (work : Working sb f) {i k l : Nat} (bound : i < sb.ninodes)
    (differ : i ≠ f.inum) (alloc : (dinode sb f.disk i).type ≠ 0)
    (held : slotOf (dinode sb f.disk i) f.disk k ≠ 0) :
    slotOf (dinode sb f.disk i) f.disk k ≠ slotOf f.ip f.disk l := by
  intro same
  have inj := work.str.slot_inj (k := k) (l := l) bound (j := f.inum)
  rw [current_self, current_ne differ] at inj
  exact differ (inj alloc work.inum work.alloc held same).1

theorem slot_ne_free (work : Working sb f) {b k : Nat} (limit : b < sb.size)
    (free : bitmap sb f.disk b = false) : slotOf f.ip f.disk k ≠ b := by
  have apart := work.str.slot_ne_free (k := k) work.inum (b := b)
  rw [current_self] at apart
  exact apart work.alloc limit free

theorem other_ne_free (work : Working sb f) {i b k : Nat} (bound : i < sb.ninodes)
    (differ : i ≠ f.inum) (alloc : (dinode sb f.disk i).type ≠ 0) (limit : b < sb.size)
    (free : bitmap sb f.disk b = false) : slotOf (dinode sb f.disk i) f.disk k ≠ b := by
  have apart := work.str.slot_ne_free (i := i) (k := k) bound (b := b)
  rw [current_ne differ] at apart
  exact apart alloc limit free

theorem other_range (work : Working sb f) {i k : Nat} (bound : i < sb.ninodes)
    (differ : i ≠ f.inum) (alloc : (dinode sb f.disk i).type ≠ 0)
    (held : slotOf (dinode sb f.disk i) f.disk k ≠ 0) :
    nmeta sb ≤ slotOf (dinode sb f.disk i) f.disk k := by
  have range := work.str.slot_range (i := i) (k := k) bound
  rw [current_ne differ] at range
  exact (range alloc held).1

theorem size_le (work : Working sb f) : f.ip.size ≤ MAXFILE * BSIZE := by
  have limit := work.str.bound f.inum work.inum
  rw [current_self] at limit
  exact limit work.alloc

theorem mapped (work : Working sb f) {bn : Nat} (inside : bn * BSIZE < f.ip.size) :
    blockOf f.ip f.disk bn ≠ 0 := by
  have mapped := work.str.mapped f.inum work.inum
  rw [current_self] at mapped
  exact mapped work.alloc bn inside

/-- The block `addr`, fresh from `balloc`, is put into the empty slot `k`. -/
theorem insert (work : Working sb f) {addr k : Nat} {disk₁ : Disk}
    (new : Allocated sb f.disk addr disk₁) (empty : slotOf f.ip f.disk k = 0)
    (inum : f'.inum = f.inum) (fields : f'.ip = { f.ip with addrs := f'.ip.addrs })
    (fits : f'.ip.Fits) (slot : slotOf f'.ip f'.disk k = addr)
    (slots : ∀ l, l ≠ k → slotOf f'.ip f'.disk l = slotOf f.ip f.disk l)
    (bits : ∀ c, c < sb.size → bitmap sb f'.disk c = bitmap sb disk₁ c)
    (inodes : ∀ i, i < sb.ninodes → dinode sb f'.disk i = dinode sb f.disk i)
    (zero : f'.disk addr = fun _ => 0)
    (data : ∀ c, nmeta sb ≤ c → c ≠ addr → c ≠ f.ip.addrs NDIRECT → f'.disk c = f.disk c) :
    Grown sb f f' ∧ Working sb f' := by
  have pos := work.str.owned.pos
  have nonzero : addr ≠ 0 := by
    have low := new.low
    omega
  have type : f'.ip.type = f.ip.type := by rw [fields]
  have size : f'.ip.size = f.ip.size := by rw [fields]
  -- the other files have neither the new block nor the indirect block of this one
  have other : ∀ i, i < sb.ninodes → i ≠ f.inum → (dinode sb f.disk i).type ≠ 0 →
      (∀ l, slotOf (dinode sb f.disk i) f'.disk l = slotOf (dinode sb f.disk i) f.disk l) ∧
        ∀ off, byteOf (dinode sb f.disk i) f'.disk off = byteOf (dinode sb f.disk i) f.disk off := by
    intro i bound differ alloc
    apply file_same
    intro l held
    apply data _ (work.other_range bound differ alloc held)
    · exact work.other_ne_free bound differ alloc new.high new.free
    · have apart := work.slot_ne_other (l := NDIRECT) bound differ alloc held
      rwa [slotOf_addr (Nat.le_refl _)] at apart
  have now : ∀ i, i < sb.ninodes → i ≠ f.inum → current sb f' i = dinode sb f.disk i := by
    intro i bound differ
    rw [current_ne (by rwa [inum]), inodes i bound]
  have self : current sb f' f.inum = f'.ip := by
    rw [← inum]
    exact current_self sb f'
  refine ⟨⟨inum, fields, inodes, ?_, ?_, fun i bound differ alloc => (other i bound differ alloc).2⟩,
    ⟨by rw [inum]; exact work.inum, by rw [type]; exact work.alloc, fits, ?_, ?_, ?_⟩⟩
  · intro l held
    exact slots l fun same => held (by rw [same]; exact empty)
  · intro off
    by_cases here : blockSlot (off / BSIZE) = k
    · have before : blockOf f.ip f.disk (off / BSIZE) = 0 := by rw [blockOf, here, empty]
      have after : blockOf f'.ip f'.disk (off / BSIZE) = addr := by rw [blockOf, here, slot]
      simp only [byteOf, before, after, zero, if_pos, if_neg nonzero]
    · apply byteOf_congr (slots _ here)
      intro held
      apply data _ (work.slot_range held).1
      · exact work.slot_ne_free new.high new.free
      · intro same
        rw [addrs_eq_slotOf f.disk (Nat.le_refl _)] at same
        exact blockSlot_ne _ (work.slot_inj held same)
  · apply work.str.owned.alloc (x := (f.inum, k)) new.high new.free
    · rw [slots_eq work.inum (by rw [current_self]; exact work.alloc), current_self]
      exact empty
    · intro c inside
      rw [bits c inside, new.marked c inside]
    · rw [slots_eq work.inum (by rw [self, type]; exact work.alloc), self]
      exact slot
    · rintro ⟨i, l⟩ differ
      simp only [Fs.slots]
      by_cases own : i = f.inum
      · subst own
        rw [self, current_self, type, slots l fun same => differ (by rw [same])]
      · by_cases bound : i < sb.ninodes
        · rw [now i bound own, current_ne own]
          by_cases alloc : (dinode sb f.disk i).type ≠ 0
          · rw [(other i bound own alloc).1 l]
          · rw [if_neg fun both => alloc both.2, if_neg fun both => alloc both.2]
        · rw [if_neg fun both => bound both.1, if_neg fun both => bound both.1]
  · intro i bound alloc bn inside
    by_cases own : i = f.inum
    · subst own
      rw [self] at inside ⊢
      by_cases here : blockSlot bn = k
      · rw [blockOf, here, slot]
        exact nonzero
      · rw [blockOf, slots _ here]
        have mapped := work.str.mapped f.inum bound
        rw [current_self] at mapped
        exact mapped work.alloc bn (by rwa [size] at inside)
    · rw [now i bound own] at alloc inside ⊢
      rw [blockOf, (other i bound own alloc).1]
      have mapped := work.str.mapped i bound
      rw [current_ne own] at mapped
      exact mapped alloc bn inside
  · intro i bound alloc
    by_cases own : i = f.inum
    · subst own
      have limit := work.str.bound f.inum bound
      rw [current_self] at limit
      rw [self, size]
      exact limit work.alloc
    · have limit := work.str.bound i bound
      rw [current_ne own] at limit
      rw [now i bound own] at alloc ⊢
      exact limit alloc

end Working

theorem indirect_zero (j : Nat) : indirect (fun _ => 0) j = 0 := by
  simp [indirect, getLE]

theorem setAddr_fits {d : Dinode} (fits : d.Fits) {k addr : Nat} (low : k ≤ NDIRECT)
    (small : addr < 2 ^ 32) :
    Dinode.Fits { d with addrs := upd d.addrs k addr } := by
  refine ⟨fits.type, fits.major, fits.minor, fits.nlink, fits.size, ?_, ?_⟩
  · intro l
    by_cases here : l = k
    · simp only [here, upd_self]
      exact small
    · simp only [upd_of_ne here]
      exact fits.addrs l
  · intro l high
    simp only [upd_of_ne (show l ≠ k by omega)]
    exact fits.outside l high

/-- What `bmap` and its parts leave for slot `k`. -/
structure Mapped (sb : Superblock) (f : FileState) (k addr : Nat) (f' : FileState) : Prop where
  grown : Grown sb f f'
  work : Working sb f'
  slot : addr ≠ 0 → slotOf f'.ip f'.disk k = addr
  present : slotOf f.ip f.disk k ≠ 0 → f' = f ∧ addr ≠ 0
  full : addr = 0 → Full sb f'.disk

theorem bmapAddr_spec (geo : Geometry sb) (work : Working sb f) {k : Nat} (low : k ≤ NDIRECT) :
    wp (bmapAddr sb k) (fun _ => False) (Mapped sb f k) f := by
  simp only [bmapAddr, wp_bind, wp_get, wp_ite, wp_pure, wp_modify]
  refine ⟨?_, ?_⟩
  · intro empty
    rw [addrs_eq_slotOf f.disk low] at empty
    apply wp_post (balloc_spec geo f work.str.owned)
    rintro addr f₁ (⟨rfl, rfl, full⟩ | ⟨nonzero, inum, ip, new⟩)
    · refine ⟨fun _ => ?_, fun nonzero => absurd rfl nonzero⟩
      exact ⟨Grown.refl sb f₁, work, fun nonzero => absurd rfl nonzero, fun held => absurd empty held,
        fun _ => full⟩
    · refine ⟨fun zero => absurd zero nonzero, fun _ => ?_⟩
      have pos := work.str.owned.pos
      have small : addr < 2 ^ 32 := by
        have limit := geo.small
        have high := new.high
        omega
      have slot : slotOf (setAddr k addr f₁).ip (setAddr k addr f₁).disk k = addr := by
        rw [slotOf_addr low]
        simp only [setAddr, upd_self]
      have step : Grown sb f (setAddr k addr f₁) ∧ Working sb (setAddr k addr f₁) := by
        apply work.insert new empty
        · exact inum
        · simp only [setAddr, ip]
        · simp only [setAddr, ip]
          exact setAddr_fits work.fits low small
        · exact slot
        · intro l differ
          simp only [setAddr, ip]
          by_cases head : l ≤ NDIRECT
          · rw [slotOf_addr head, slotOf_addr head]
            simp only [upd_of_ne differ]
          · -- an entry: nothing before and a zeroed block now, or an old indirect block
            rw [Nat.not_le] at head
            by_cases last : k = NDIRECT
            · subst last
              rw [slotOf_addr low] at empty
              have before : slotOf f.ip f.disk l = 0 := slotOf_none head (by simp [empty])
              rw [before]
              by_cases inside : l ≤ NDIRECT + NINDIRECT
              · rw [slotOf_entry head inside (by simpa using nonzero)]
                simp only [upd_self, new.zero]
                exact indirect_zero _
              · exact slotOf_none head (by simp [inside])
            · by_cases has : f.ip.addrs NDIRECT = 0
              · have before : slotOf f.ip f.disk l = 0 := slotOf_none head (by simp [has])
                rw [before]
                exact slotOf_none head (by simp [upd_of_ne (Ne.symm last), has])
              · have held : slotOf f.ip f.disk NDIRECT ≠ 0 := by
                  rwa [slotOf_addr (Nat.le_refl _)]
                have same : f₁.disk (f.ip.addrs NDIRECT) = f.disk (f.ip.addrs NDIRECT) := by
                  have range := (work.slot_range held).1
                  have apart := work.slot_ne_free (k := NDIRECT) new.high new.free
                  rw [slotOf_addr (Nat.le_refl _)] at range apart
                  exact new.others _ range apart
                simp only [slotOf, if_neg (Nat.not_le.mpr head), upd_of_ne (Ne.symm last),
                  same]
        · exact fun c _ => rfl
        · exact new.inodes
        · exact new.zero
        · intro c data differ _
          exact new.others c data differ
      exact ⟨step.1, step.2, fun _ => slot, fun held => absurd empty held,
        fun zero => absurd zero nonzero⟩
  · intro held
    exact ⟨Grown.refl sb f, work, fun _ => slotOf_addr low, fun _ => ⟨rfl, held⟩,
      fun zero => absurd zero held⟩

theorem bmapEntry_spec (geo : Geometry sb) (work : Working sb f) {bn : Nat} (low : bn < NINDIRECT)
    (has : f.ip.addrs NDIRECT ≠ 0) :
    wp (bmapEntry sb (f.ip.addrs NDIRECT) bn) (fun _ => False)
      (Mapped sb f (NDIRECT + 1 + bn)) f := by
  have head : NDIRECT < NDIRECT + 1 + bn := by omega
  have inside : NDIRECT + 1 + bn ≤ NDIRECT + NINDIRECT := by omega
  have index : NDIRECT + 1 + bn - (NDIRECT + 1) = bn := by omega
  have here : slotOf f.ip f.disk (NDIRECT + 1 + bn) =
      indirect (f.disk (f.ip.addrs NDIRECT)) bn := by
    rw [slotOf_entry head inside has, index]
  simp only [bmapEntry, wp_bind, wp_get, wp_ite, wp_pure, wp_modify, ← here]
  refine ⟨?_, ?_⟩
  · intro empty
    apply wp_post (balloc_spec geo f work.str.owned)
    rintro addr f₁ (⟨rfl, rfl, full⟩ | ⟨nonzero, inum, ip, new⟩)
    · refine ⟨fun _ => ?_, fun nonzero => absurd rfl nonzero⟩
      exact ⟨Grown.refl sb f₁, work, fun nonzero => absurd rfl nonzero, fun held => absurd empty held,
        fun _ => full⟩
    · refine ⟨fun zero => absurd zero nonzero, fun _ => ?_⟩
      have small : addr < 2 ^ 32 := by
        have limit := geo.small
        have high := new.high
        omega
      have range := work.slot_range (k := NDIRECT) (by rwa [slotOf_addr (Nat.le_refl _)])
      have apart := work.slot_ne_free (k := NDIRECT) new.high new.free
      rw [slotOf_addr (Nat.le_refl _)] at range apart
      have same : f₁.disk (f.ip.addrs NDIRECT) = f.disk (f.ip.addrs NDIRECT) :=
        new.others _ range.1 apart
      -- the indirect block after the entry is stored
      have entry : ∀ j, j < NINDIRECT → slotOf f.ip (upd f₁.disk (f.ip.addrs NDIRECT)
          (putLE (f₁.disk (f.ip.addrs NDIRECT)) (4 * bn) 4 addr)) (NDIRECT + 1 + j) =
          if j = bn then addr else slotOf f.ip f.disk (NDIRECT + 1 + j) := by
        intro j bound
        rw [slotOf_entry (by omega) (by omega) has, slotOf_entry (by omega) (by omega) has,
          upd_self, same, indirect_put _ _ _ _ small]
        congr 1
        apply propext
        omega
      have step : Grown sb f (writeBlock (f.ip.addrs NDIRECT)
            (putLE (f₁.disk (f.ip.addrs NDIRECT)) (4 * bn) 4 addr) f₁) ∧
          Working sb (writeBlock (f.ip.addrs NDIRECT)
            (putLE (f₁.disk (f.ip.addrs NDIRECT)) (4 * bn) 4 addr) f₁) := by
        apply work.insert new empty
        · exact inum
        · simp only [writeBlock, ip]
        · simp only [writeBlock, ip]
          exact work.fits
        · simp only [writeBlock, ip]
          rw [entry bn low, if_pos rfl]
        · intro l differ
          simp only [writeBlock, ip]
          by_cases addrs : l ≤ NDIRECT
          · rw [slotOf_addr addrs, slotOf_addr addrs]
          · by_cases within : l ≤ NDIRECT + NINDIRECT
            · obtain ⟨j, rfl⟩ : ∃ j, l = NDIRECT + 1 + j := ⟨l - (NDIRECT + 1), by omega⟩
              rw [entry j (by omega), if_neg fun eq => differ (by rw [eq])]
            · rw [slotOf_none (by omega) (by simp [within]), slotOf_none (by omega) (by simp [within])]
        · intro c limit
          exact bitmap_update_data geo _ _ limit range.1
        · intro i bound
          simp only [writeBlock]
          rw [dinode_update_data geo _ _ bound range.1]
          exact new.inodes i bound
        · simp only [writeBlock]
          rw [upd_of_ne (Ne.symm apart)]
          exact new.zero
        · intro c data differ away
          simp only [writeBlock]
          rw [upd_of_ne away]
          exact new.others c data differ
      refine ⟨step.1, step.2, fun _ => ?_, fun held => absurd empty held,
        fun zero => absurd zero nonzero⟩
      simp only [writeBlock, ip]
      rw [entry bn low, if_pos rfl]
  · intro held
    exact ⟨Grown.refl sb f, work, fun _ => rfl, fun _ => ⟨rfl, held⟩, fun zero => absurd zero held⟩

theorem bmap_spec (geo : Geometry sb) (work : Working sb f) {bn : Nat} (low : bn < MAXFILE) :
    wp (bmap sb bn) (fun _ => False) (Mapped sb f (blockSlot bn)) f := by
  simp only [bmap, wp_ite, wp_bind, wp_throw, wp_pure]
  refine ⟨?_, ?_⟩
  · intro direct
    have slot : blockSlot bn = bn := if_pos direct
    rw [slot]
    exact bmapAddr_spec geo work (by omega)
  · intro indirect
    have slot : blockSlot bn = NDIRECT + 1 + (bn - NDIRECT) := by
      rw [blockSlot, if_neg indirect]
      omega
    rw [slot]
    refine ⟨fun inside => ?_, fun outside => ?_⟩
    · apply wp_post (bmapAddr_spec geo work (Nat.le_refl _))
      intro addr f₁ first
      refine ⟨?_, ?_⟩
      · rintro rfl
        refine ⟨first.grown, first.work, fun nonzero => absurd rfl nonzero, ?_, first.full⟩
        intro held
        -- an entry that is there has its indirect block
        have has : slotOf f.ip f.disk NDIRECT ≠ 0 := by
          intro none
          rw [slotOf_addr (Nat.le_refl _)] at none
          exact held (slotOf_none (by omega) (by simp [none]))
        exact absurd rfl (first.present has).2
      · intro nonzero
        have block := first.slot nonzero
        rw [slotOf_addr (Nat.le_refl _)] at block
        rw [← block] at nonzero ⊢
        apply wp_post (bmapEntry_spec geo first.work inside nonzero)
        intro addr' f₂ second
        refine ⟨first.grown.trans second.grown, second.work, second.slot, ?_, second.full⟩
        intro held
        have has : slotOf f.ip f.disk NDIRECT ≠ 0 := by
          intro none
          rw [slotOf_addr (Nat.le_refl _)] at none
          exact held (slotOf_none (by omega) (by simp [none]))
        obtain ⟨rfl, -⟩ := first.present has
        exact second.present held
    · simp only [MAXFILE] at low
      omega

end Bmap

end Xv6Fcfs.Fs
