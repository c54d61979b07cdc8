import Xv6Fcfs.Fs.Contents
import Mathlib.Data.Finset.Card
import Mathlib.Data.Finset.Image

/-!
# Room on the disk

A write needs a free block for every slot it goes through that is still empty.  As long as
there are at least as many free blocks as empty slots to come, `bmap` finds one: each block
that it takes fills one of these slots.
-/

set_option autoImplicit false

namespace Xv6Fcfs.Fs

open Xv6Fcfs.Lib

def freeBlocks (sb : Superblock) (disk : Disk) : Nat :=
  ((Finset.range sb.size).filter fun b => bitmap sb disk b = false).card

/-- The slots that the bytes from `off` to `off + n` go through. -/
def needed (off n : Nat) : Finset Nat :=
  ((Finset.range MAXFILE).filter fun bn => off / BSIZE ≤ bn ∧ bn * BSIZE < off + n).image blockSlot ∪
    if NDIRECT * BSIZE < off + n then {NDIRECT} else ∅

theorem needed_mono {off off' n n' : Nat} (first : off ≤ off') (last : off' + n' ≤ off + n) :
    needed off' n' ⊆ needed off n := by
  apply Finset.union_subset_union
  · apply Finset.image_subset_image
    intro bn inside
    simp only [Finset.mem_filter] at inside ⊢
    exact ⟨inside.1, Nat.le_trans (Nat.div_le_div_right first) inside.2.1, by omega⟩
  · by_cases indirect : NDIRECT * BSIZE < off' + n'
    · rw [if_pos indirect, if_pos (by omega)]
    · rw [if_neg indirect]
      exact Finset.empty_subset _

/-- How many of the slots `N` are empty. -/
def missing (d : Dinode) (disk : Disk) (N : Finset Nat) : Nat :=
  (N.filter fun k => slotOf d disk k = 0).card

/-- There are enough free blocks for the slots `N`. -/
def Room (sb : Superblock) (N : Finset Nat) (f : FileState) : Prop :=
  missing f.ip f.disk N ≤ freeBlocks sb f.disk

section Counting
variable {sb : Superblock} {f g : FileState} {N : Finset Nat} {k : Nat}

theorem freeBlocks_congr {disk disk' : Disk}
    (same : ∀ b, b < sb.size → bitmap sb disk' b = bitmap sb disk b) :
    freeBlocks sb disk' = freeBlocks sb disk := by
  unfold freeBlocks
  congr 1
  apply Finset.filter_congr
  intro b inside
  rw [same b (Finset.mem_range.mp inside)]

theorem le_freeBlocks {disk : Disk} {first n : Nat} (inside : first + n ≤ sb.size)
    (free : ∀ i, i < n → bitmap sb disk (first + i) = false) : n ≤ freeBlocks sb disk := by
  have distinct : ((Finset.range n).image (first + ·)).card = n := by
    rw [Finset.card_image_of_injective _ fun i j same => Nat.add_left_cancel same, Finset.card_range]
  rw [← distinct]
  refine Finset.card_le_card ?_
  intro b member
  obtain ⟨i, below, rfl⟩ := Finset.mem_image.mp member
  rw [Finset.mem_range] at below
  exact Finset.mem_filter.mpr ⟨Finset.mem_range.mpr (by omega), free i below⟩

theorem Full.none_free {disk : Disk} (full : Full sb disk) : freeBlocks sb disk = 0 := by
  unfold freeBlocks
  rw [Finset.card_eq_zero, Finset.filter_eq_empty_iff]
  intro b inside free
  rw [full b (Finset.mem_range.mp inside)] at free
  cases free

theorem Allocated.free_less {disk disk' : Disk} {addr : Nat} (new : Allocated sb disk addr disk') :
    freeBlocks sb disk ≤ freeBlocks sb disk' + 1 := by
  have still : ((Finset.range sb.size).filter fun b => bitmap sb disk b = false).erase addr ⊆
      (Finset.range sb.size).filter fun b => bitmap sb disk' b = false := by
    intro b inside
    obtain ⟨differ, old⟩ := Finset.mem_erase.mp inside
    obtain ⟨bound, free⟩ := Finset.mem_filter.mp old
    refine Finset.mem_filter.mpr ⟨bound, ?_⟩
    rw [new.marked b (Finset.mem_range.mp bound), if_neg differ]
    exact free
  have count := Finset.card_le_card still
  have erased := Finset.pred_card_le_card_erase (s := (Finset.range sb.size).filter fun b =>
    bitmap sb disk b = false) (a := addr)
  unfold freeBlocks
  omega

theorem missing_lt (keeps : ∀ l, slotOf f.ip f.disk l ≠ 0 → slotOf g.ip g.disk l ≠ 0) (member : k ∈ N)
    (empty : slotOf f.ip f.disk k = 0) (filled : slotOf g.ip g.disk k ≠ 0) :
    missing g.ip g.disk N < missing f.ip f.disk N := by
  apply Finset.card_lt_card
  refine Finset.ssubset_iff_of_subset ?_ |>.mpr ⟨k, Finset.mem_filter.mpr ⟨member, empty⟩, ?_⟩
  · intro l inside
    obtain ⟨inN, none⟩ := Finset.mem_filter.mp inside
    exact Finset.mem_filter.mpr ⟨inN, by_contra fun held => keeps l held none⟩
  · intro inside
    exact filled (Finset.mem_filter.mp inside).2

theorem Mapped.keeps {addr : Nat} (found : Mapped sb f k addr g) (l : Nat)
    (held : slotOf f.ip f.disk l ≠ 0) : slotOf g.ip g.disk l ≠ 0 := by
  rw [found.grown.keeps l held]
  exact held

/-- A slot filled at the cost of at most one block leaves room for the others. -/
theorem Room.mapped {addr : Nat} (room : Room sb N f) (found : Mapped sb f k addr g) (member : k ∈ N)
    (none : addr = 0 → freeBlocks sb f.disk = 0)
    (cost : freeBlocks sb f.disk ≤ freeBlocks sb g.disk + 1) : addr ≠ 0 ∧ Room sb N g := by
  by_cases held : slotOf f.ip f.disk k = 0
  · have some : 0 < missing f.ip f.disk N :=
      Finset.card_pos.mpr ⟨k, Finset.mem_filter.mpr ⟨member, held⟩⟩
    have found' : addr ≠ 0 := by
      intro zero
      have out := none zero
      unfold Room at room
      omega
    have less := missing_lt (N := N) found.keeps member held (by rw [found.slot found']; exact found')
    unfold Room at *
    exact ⟨found', by omega⟩
  · obtain ⟨rfl, some⟩ := found.present held
    exact ⟨some, room⟩

end Counting

section Programs
variable {sb : Superblock} {f : FileState} {N : Finset Nat}

theorem bmapAddr_room (geo : Geometry sb) (work : Working sb f) {k : Nat} (low : k ≤ NDIRECT)
    (member : k ∈ N) (room : Room sb N f) :
    wp (bmapAddr sb k) (fun _ => False)
      (fun addr g => Mapped sb f k addr g ∧ addr ≠ 0 ∧ Room sb N g) f := by
  have cost : wp (bmapAddr sb k) (fun _ => True) (fun addr g =>
      (addr = 0 → freeBlocks sb f.disk = 0) ∧ freeBlocks sb f.disk ≤ freeBlocks sb g.disk + 1) f := by
    simp only [bmapAddr, wp_bind, wp_get, wp_ite, wp_pure, wp_modify]
    refine ⟨fun _ => ?_, fun held => ⟨fun zero => absurd zero held, Nat.le_succ _⟩⟩
    apply wp_mono (balloc_spec geo f work.str.owned) _ (fun _ no => no.elim)
    rintro addr g (⟨rfl, rfl, full⟩ | ⟨nonzero, -, -, new⟩)
    · exact ⟨fun _ => ⟨fun _ => full.none_free, Nat.le_succ _⟩, fun no => absurd rfl no⟩
    · exact ⟨fun zero => absurd zero nonzero, fun _ => ⟨fun zero => absurd zero nonzero, new.free_less⟩⟩
  apply wp_post (wp_and (bmapAddr_spec geo work low) cost)
  rintro addr g ⟨found, none, most⟩
  exact ⟨found, room.mapped found member none most⟩

theorem bmapEntry_room (geo : Geometry sb) (work : Working sb f) {bn : Nat} (low : bn < NINDIRECT)
    (has : f.ip.addrs NDIRECT ≠ 0) (member : NDIRECT + 1 + bn ∈ N) (room : Room sb N f) :
    wp (bmapEntry sb (f.ip.addrs NDIRECT) bn) (fun _ => False)
      (fun addr g => Mapped sb f (NDIRECT + 1 + bn) addr g ∧ addr ≠ 0 ∧ Room sb N g) f := by
  have range := work.slot_range (k := NDIRECT) (by rwa [slotOf_addr (Nat.le_refl _)])
  rw [slotOf_addr (Nat.le_refl _)] at range
  have cost : wp (bmapEntry sb (f.ip.addrs NDIRECT) bn) (fun _ => True) (fun addr g =>
      (addr = 0 → freeBlocks sb f.disk = 0) ∧ freeBlocks sb f.disk ≤ freeBlocks sb g.disk + 1) f := by
    simp only [bmapEntry, wp_bind, wp_get, wp_ite, wp_pure, wp_modify]
    refine ⟨fun _ => ?_, fun held => ⟨fun zero => absurd zero held, Nat.le_succ _⟩⟩
    apply wp_mono (balloc_spec geo f work.str.owned) _ (fun _ no => no.elim)
    rintro addr g (⟨rfl, rfl, full⟩ | ⟨nonzero, -, -, new⟩)
    · exact ⟨fun _ => ⟨fun _ => full.none_free, Nat.le_succ _⟩, fun no => absurd rfl no⟩
    · refine ⟨fun zero => absurd zero nonzero, fun _ => ⟨fun zero => absurd zero nonzero, ?_⟩⟩
      -- the indirect block is no block of the free map
      have same : freeBlocks sb (writeBlock (f.ip.addrs NDIRECT)
          (putLE (g.disk (f.ip.addrs NDIRECT)) (4 * bn) 4 addr) g).disk = freeBlocks sb g.disk :=
        freeBlocks_congr fun b limit => bitmap_update_data geo _ _ limit range.1
      rw [same]
      exact new.free_less
  apply wp_post (wp_and (bmapEntry_spec geo work low has) cost)
  rintro addr g ⟨found, none, most⟩
  exact ⟨found, room.mapped found member none most⟩

theorem bmap_room (geo : Geometry sb) (work : Working sb f) {bn : Nat} (low : bn < MAXFILE)
    (member : blockSlot bn ∈ N) (indirect : NDIRECT ≤ bn → NDIRECT ∈ N) (room : Room sb N f) :
    wp (bmap sb bn) (fun _ => False) (fun addr g => addr ≠ 0 ∧ Room sb N g) f := by
  simp only [bmap, wp_ite, wp_bind, wp_throw, wp_pure]
  refine ⟨fun direct => ?_, fun high => ⟨fun inside => ?_, fun outside => ?_⟩⟩
  · have slot : blockSlot bn = bn := if_pos direct
    rw [slot] at member
    apply wp_post (bmapAddr_room geo work (by omega) member room)
    rintro addr g ⟨-, result⟩
    exact result
  · have slot : blockSlot bn = NDIRECT + 1 + (bn - NDIRECT) := by
      rw [blockSlot, if_neg high]
      omega
    rw [slot] at member
    apply wp_post (bmapAddr_room geo work (Nat.le_refl _) (indirect (by omega)) room)
    rintro addr g ⟨first, nonzero, room'⟩
    refine ⟨fun zero => absurd zero nonzero, fun _ => ?_⟩
    have block := first.slot nonzero
    rw [slotOf_addr (Nat.le_refl _)] at block
    rw [← block] at nonzero ⊢
    apply wp_post (bmapEntry_room geo first.work inside nonzero member room')
    rintro addr' h ⟨-, result⟩
    exact result
  · simp only [MAXFILE] at low
    omega

theorem writeLoop_room (geo : Geometry sb) (src : Bytes) (n : Nat) :
    ∀ (fuel tot off : Nat) (f : FileState), Working sb f → n ≤ tot + fuel → tot ≤ n →
    off + (n - tot) ≤ MAXFILE * BSIZE → needed off (n - tot) ⊆ N → Room sb N f →
    wp (writeLoop sb (fun i => some (src i)) n fuel tot off) (fun _ => False)
      (fun r g => r = n ∧ Room sb N g) f := by
  intro fuel
  induction fuel with
  | zero =>
      intro tot off f work enough within fit slots room
      have done : tot = n := by omega
      exact ⟨done, room⟩
  | succ fuel ih =>
      intro tot off f work enough within fit slots room
      simp only [writeLoop, wp_ite, wp_bind, wp_pure, wp_modify]
      refine ⟨fun more => ?_, fun done => ⟨by omega, room⟩⟩
      have low : off / BSIZE < MAXFILE := by
        apply Nat.div_lt_of_lt_mul
        rw [Nat.mul_comm]
        omega
      have floor := Nat.div_mul_le_self off BSIZE
      have member : blockSlot (off / BSIZE) ∈ N := by
        apply slots
        refine Finset.mem_union_left _ (Finset.mem_image_of_mem _ (Finset.mem_filter.mpr ?_))
        exact ⟨Finset.mem_range.mpr low, Nat.le_refl _, by omega⟩
      have indirect : NDIRECT ≤ off / BSIZE → NDIRECT ∈ N := by
        intro high
        apply slots
        apply Finset.mem_union_right
        have past := Nat.mul_le_mul_right BSIZE high
        rw [if_pos (by omega)]
        exact Finset.mem_singleton_self _
      apply wp_post (wp_and (bmap_spec geo work low)
        (wp_mono (bmap_room geo work low member indirect room) (fun _ _ => id) fun _ _ => trivial))
      rintro addr g ⟨found, nonzero, room'⟩
      refine ⟨fun zero => absurd zero nonzero, fun _ => ?_⟩
      have some := chunk_pos off more
      have most := chunk_le n tot off
      obtain ⟨work', -, slot, -⟩ := found.work.writeData geo
        (copyin (fun i => Option.some (src i)) tot (off % BSIZE) (chunk n tot off) (g.disk addr))
        (found.slot nonzero) nonzero
      have low' : nmeta sb ≤ addr := by
        have held := found.slot nonzero
        rw [← held] at nonzero ⊢
        exact (found.work.slot_range nonzero).1
      refine ⟨fun _ => ?_, fun bad => absurd (fun j _ => rfl) bad⟩
      refine ih _ _ _ ⟨work'.inum, work'.alloc, work'.fits, work'.str⟩ (by omega) (by omega)
        (by omega) ?_ ?_
      · exact (needed_mono (by omega) (by omega)).trans slots
      · -- the copy and `log_write` touch neither a slot nor the free map
        have free : freeBlocks sb (storeBlock addr (copyin (fun i => Option.some (src i)) tot
            (off % BSIZE) (chunk n tot off) (g.disk addr)) g).disk = freeBlocks sb g.disk :=
          freeBlocks_congr fun b limit => bitmap_update_data geo _ _ limit low'
        have kept : missing g.ip (storeBlock addr (copyin (fun i => Option.some (src i)) tot
            (off % BSIZE) (chunk n tot off) (g.disk addr)) g).disk N = missing g.ip g.disk N := by
          unfold missing
          simp only [slot]
        exact kept.le.trans (room'.trans free.ge)

/-- With room for its slots `writei` stores everything, and leaves room for later writes. -/
theorem writei_room (geo : Geometry sb) (settled : Settled sb f) (alloc : f.ip.type ≠ 0) (src : Bytes)
    {off n : Nat} (start : off ≤ f.ip.size) (fit : off + n ≤ MAXFILE * BSIZE)
    (slots : needed off n ⊆ N) (room : Room sb N f) :
    wp (writei sb (fun i => some (src i)) off n) (fun _ => False)
      (fun r g => r = n ∧ Room sb N g) f := by
  have work := settled.working alloc
  have sum : addU32 off n = off + n := by
    apply Nat.mod_eq_of_lt
    simp only [MAXFILE, NDIRECT, NINDIRECT, BSIZE] at fit
    omega
  simp only [writei, wp_bind, wp_get, wp_ite, wp_pure, sum]
  refine ⟨fun out => by omega, fun _ => ⟨fun large => by omega, fun _ => ?_⟩⟩
  apply wp_post (wp_and (writeLoop_spec geo (fun i => some (src i)) n n 0 off f work (by omega)
    (by omega) (by omega)) (wp_mono (writeLoop_room geo src n n 0 off f work (by omega) (by omega)
      (by omega) slots room) (fun _ _ => id) fun _ _ => trivial))
  rintro r g ⟨⟨k, -, written⟩, all, room'⟩
  simp only [wp_modify, iupdate]
  refine ⟨by rw [all], ?_⟩
  have inum : (growSize (off + r) g).inum < sb.ninodes := by
    rw [growSize_inum]
    exact written.work.inum
  have free : freeBlocks sb (setDinode sb (growSize (off + r) g).disk (growSize (off + r) g).inum
      (growSize (off + r) g).ip) = freeBlocks sb g.disk := by
    rw [← growSize_disk (off + r) (f := g)]
    exact freeBlocks_congr fun b limit => bitmap_setDinode geo _ _ inum limit
  have same : ∀ l, slotOf (growSize (off + r) g).ip (setDinode sb (growSize (off + r) g).disk
      (growSize (off + r) g).inum (growSize (off + r) g).ip) l = slotOf g.ip g.disk l := by
    intro l
    have addrs : (growSize (off + r) g).ip.addrs = g.ip.addrs := by rw [growSize_ip]
    apply slotOf_congr addrs
    intro has
    have range := written.work.slot_range (k := NDIRECT) (by rwa [slotOf_addr (Nat.le_refl _)])
    rw [slotOf_addr (Nat.le_refl _)] at range
    rw [data_setDinode geo _ _ inum range.1, growSize_disk]
  change missing (growSize (off + r) g).ip _ N ≤ freeBlocks sb _
  rw [free]
  unfold missing
  simp only [same]
  exact room'

end Programs

end Xv6Fcfs.Fs
