import Xv6Fcfs.Fs.Ownership

/-!
# Which blocks an operation logs

A block that changes must be passed to `log_write`, or the change is not part of the
transaction.  `Noted` says of a run which blocks it may have logged and which it may have
changed without logging them: only the failing copy of `writei` does the latter.
-/

set_option autoImplicit false

namespace Xv6Fcfs.Fs

open Xv6Fcfs.Lib

/-! ## The list of logged blocks -/

section Absorb
variable {b c : Nat} {log : List Nat}

theorem mem_absorb : c ∈ absorb b log ↔ c = b ∨ c ∈ log := by
  unfold absorb
  split
  · rename_i old
    constructor
    · exact Or.inr
    · rintro (rfl | listed)
      · exact old
      · exact listed
  · exact List.mem_cons

theorem absorb_nodup (nodup : log.Nodup) : (absorb b log).Nodup := by
  unfold absorb
  split
  · exact nodup
  · rename_i new
    exact List.nodup_cons.mpr ⟨new, nodup⟩

end Absorb

/-- `b` is a block of the free map. -/
def IsBitmap (sb : Superblock) (b : Nat) : Prop := ∃ c, c < sb.size ∧ b = BBLOCK sb c

/-- The inode holds `b` in one of the slots `K`. -/
def Holds (f : FileState) (K : Nat → Prop) (b : Nat) : Prop :=
  b ≠ 0 ∧ ∃ k, K k ∧ slotOf f.ip f.disk k = b

theorem Holds.keep {f g : FileState} {K K' : Nat → Prop} {b : Nat} (holds : Holds f K b)
    (keeps : ∀ k, slotOf f.ip f.disk k ≠ 0 → slotOf g.ip g.disk k = slotOf f.ip f.disk k)
    (wider : ∀ k, K k → K' k) : Holds g K' b := by
  obtain ⟨nonzero, k, inside, rfl⟩ := holds
  exact ⟨nonzero, k, wider k inside, keeps k nonzero⟩

/-- From `f` to `f'` only the blocks `allowed` were logged, and every block that changed was
logged, except those of `lost`. -/
structure Noted (allowed lost : Nat → Prop) (f f' : FileState) : Prop where
  nodup : f.log.Nodup → f'.log.Nodup
  grows : ∀ b, b ∈ f.log → b ∈ f'.log
  only : ∀ b, b ∈ f'.log → b ∈ f.log ∨ allowed b
  same : ∀ b, b ∉ f'.log → f'.disk b = f.disk b ∨ lost b
  indirect : f'.ip.addrs NDIRECT = f.ip.addrs NDIRECT ∨ f'.ip.addrs NDIRECT = 0 ∨
    f'.ip.addrs NDIRECT ∈ f'.log

namespace Noted
variable {allowed allowed' lost lost' : Nat → Prop} {f g h : FileState}

theorem refl (allowed lost : Nat → Prop) (f : FileState) : Noted allowed lost f f where
  nodup := id
  grows _ := id
  only _ := Or.inl
  same _ _ := Or.inl rfl
  indirect := Or.inl rfl

theorem trans (first : Noted allowed lost f g) (second : Noted allowed lost g h) :
    Noted allowed lost f h where
  nodup start := second.nodup (first.nodup start)
  grows b listed := second.grows b (first.grows b listed)
  only b listed := by
    rcases second.only b listed with early | late
    · exact first.only b early
    · exact Or.inr late
  same b unlisted := by
    rcases second.same b unlisted with kept | gone
    · rw [kept]
      exact first.same b fun listed => unlisted (second.grows b listed)
    · exact Or.inr gone
  indirect := by
    rcases second.indirect with kept | new
    · rw [kept]
      rcases first.indirect with old | none | listed
      · exact Or.inl old
      · exact Or.inr (Or.inl none)
      · exact Or.inr (Or.inr (second.grows _ listed))
    · exact Or.inr new

theorem mono (noted : Noted allowed lost f g) (wider : ∀ b, allowed b → allowed' b)
    (loses : ∀ b, lost b → lost' b) : Noted allowed' lost' f g where
  nodup := noted.nodup
  grows := noted.grows
  only b listed := (noted.only b listed).imp_right (wider b)
  same b unlisted := (noted.same b unlisted).imp_right (loses b)
  indirect := noted.indirect

theorem writeBlock (lost : Nat → Prop) (f : FileState) {b : Nat} (data : Block)
    (may : allowed b) : Noted allowed lost f (writeBlock b data f) where
  nodup := absorb_nodup
  grows c listed := mem_absorb.mpr (Or.inr listed)
  only c listed := by
    rcases mem_absorb.mp listed with rfl | old
    · exact Or.inr may
    · exact Or.inl old
  same c unlisted := by
    have differ : c ≠ b := fun same => unlisted (mem_absorb.mpr (Or.inl same))
    exact Or.inl (upd_of_ne differ _ _)
  indirect := Or.inl rfl

/-- The addresses of the inode in memory change; the indirect block is not a new one. -/
theorem setAddrs (noted : Noted allowed lost f g) (disk : h.disk = g.disk) (log : h.log = g.log)
    (block : h.ip.addrs NDIRECT = g.ip.addrs NDIRECT ∨
      h.ip.addrs NDIRECT = 0 ∨ h.ip.addrs NDIRECT ∈ h.log) : Noted allowed lost f h := by
  refine noted.trans ⟨?_, ?_, ?_, ?_, block⟩
  · rw [log]
    exact id
  · rw [log]
    exact fun _ => id
  · rw [log]
    exact fun _ => Or.inl
  · rw [disk]
    exact fun _ _ => Or.inl rfl

end Noted

/-! ## `balloc` and `bmap` -/

section Programs
variable {sb : Superblock} {f : FileState}

/-- `balloc` logs a block of the free map and the block that it zeroes. -/
theorem balloc_noted {slot : Nat × Nat → Nat} (f : FileState)
    (owned : Owned (nmeta sb) sb.size (bitmap sb f.disk) slot) :
    wp (balloc sb) (fun _ => True) (fun addr f' =>
      Noted (fun b => IsBitmap sb b ∨ (b ≠ 0 ∧ b = addr)) (fun _ => False) f f' ∧
        f'.ip = f.ip ∧ (addr ≠ 0 → addr ∈ f'.log)) f := by
  simp only [balloc, wp_bind, wp_get]
  split
  · exact ⟨Noted.refl _ _ f, rfl, fun nonzero => absurd rfl nonzero⟩
  · rename_i b bi found
    obtain ⟨limit, block, bit, free⟩ := freeBlock_some _ _ _ _ (by simp) found
    have low : nmeta sb ≤ b + bi := by
      apply owned.free_range limit
      rw [bitmap, block, bit]
      exact free
    have nonzero : b + bi ≠ 0 := by
      have pos := owned.pos
      omega
    simp only [wp_bind, wp_set, bzero, wp_modify, wp_pure]
    refine ⟨?_, rfl, fun _ => mem_absorb.mpr (Or.inl rfl)⟩
    have first : Noted (fun c => IsBitmap sb c ∨ (c ≠ 0 ∧ c = b + bi)) (fun _ => False) f
        (writeBlock (BBLOCK sb b) (setBit (f.disk (BBLOCK sb b)) bi) f) :=
      Noted.writeBlock _ f _ (Or.inl ⟨b + bi, limit, block.symm⟩)
    exact first.trans (Noted.writeBlock _ _ _ (Or.inr ⟨nonzero, rfl⟩))

theorem bmapAddr_noted (work : Working sb f) (k : Nat) :
    wp (bmapAddr sb k) (fun _ => True) (fun addr f' =>
      Noted (fun b => IsBitmap sb b ∨ (b ≠ 0 ∧ b = addr)) (fun _ => False) f f') f := by
  simp only [bmapAddr, wp_bind, wp_get, wp_ite, wp_pure, wp_modify]
  refine ⟨fun _ => ?_, fun _ => Noted.refl _ _ f⟩
  apply wp_post (balloc_noted f work.str.owned)
  rintro addr g ⟨noted, ip, listed⟩
  refine ⟨?_, fun nonzero => ?_⟩
  · rintro rfl
    exact noted
  · refine noted.setAddrs rfl rfl ?_
    by_cases last : k = NDIRECT
    · right
      right
      simp only [setAddr, last, upd_self]
      exact listed nonzero
    · left
      simp only [setAddr, upd_of_ne (Ne.symm last)]

theorem bmapEntry_noted (work : Working sb f) (a bn : Nat) :
    wp (bmapEntry sb a bn) (fun _ => True) (fun addr f' =>
      Noted (fun b => IsBitmap sb b ∨ (b ≠ 0 ∧ b = addr) ∨ b = a) (fun _ => False) f f') f := by
  simp only [bmapEntry, wp_bind, wp_get, wp_ite, wp_pure, wp_modify]
  refine ⟨fun _ => ?_, fun _ => Noted.refl _ _ f⟩
  apply wp_post (balloc_noted f work.str.owned)
  rintro addr g ⟨noted, -, -⟩
  have wide : Noted (fun b => IsBitmap sb b ∨ (b ≠ 0 ∧ b = addr) ∨ b = a) (fun _ => False) f g :=
    noted.mono (fun b may => may.imp_right Or.inl) fun _ => id
  refine ⟨?_, fun _ => wide.trans (Noted.writeBlock _ _ _ (Or.inr (Or.inr rfl)))⟩
  rintro rfl
  exact wide

theorem bmap_noted (geo : Geometry sb) (work : Working sb f) {bn : Nat} (low : bn < MAXFILE) :
    wp (bmap sb bn) (fun _ => False) (fun addr f' => Mapped sb f (blockSlot bn) addr f' ∧
      Noted (fun b => IsBitmap sb b ∨ Holds f' (fun k => k = NDIRECT ∨ k = blockSlot bn) b)
        (fun _ => False) f f') f := by
  have parts : wp (bmap sb bn) (fun _ => True) (fun addr f' =>
      Noted (fun b => IsBitmap sb b ∨ (b ≠ 0 ∧ (b = addr ∨ b = f'.ip.addrs NDIRECT)))
        (fun _ => False) f f') f := by
    simp only [bmap, wp_ite, wp_bind, wp_throw, wp_pure]
    refine ⟨fun _ => ?_, fun _ => ⟨fun inside => ?_, fun _ => trivial⟩⟩
    · apply wp_post (bmapAddr_noted work bn)
      intro addr g noted
      exact noted.mono (fun b may => may.imp_right fun one => ⟨one.1, Or.inl one.2⟩) fun _ => id
    · have spec := bmapAddr_spec geo work (Nat.le_refl NDIRECT)
      apply wp_mono (wp_and spec (bmapAddr_noted work NDIRECT)) _ (fun _ _ => trivial)
      rintro addr g ⟨first, noted⟩
      refine ⟨?_, fun nonzero => ?_⟩
      · rintro rfl
        exact noted.mono (fun b may => may.imp_right fun one => ⟨one.1, Or.inl one.2⟩) fun _ => id
      · have block := first.slot nonzero
        rw [slotOf_addr (Nat.le_refl _)] at block
        rw [← block] at nonzero noted ⊢
        have entry := bmapEntry_spec geo first.work inside nonzero
        apply wp_mono (wp_and entry (bmapEntry_noted first.work _ _)) _ (fun _ _ => trivial)
        rintro addr' h ⟨second, noted'⟩
        have kept : h.ip.addrs NDIRECT = g.ip.addrs NDIRECT := by
          have keeps := second.grown.keeps NDIRECT
          rw [slotOf_addr (Nat.le_refl _), slotOf_addr (Nat.le_refl _)] at keeps
          exact keeps nonzero
        rw [kept]
        refine (noted.mono ?_ fun _ => id).trans (noted'.mono ?_ fun _ => id)
        · exact fun b may => may.imp_right fun one => ⟨one.1, Or.inr one.2⟩
        · rintro b (bit | ⟨some, rfl⟩ | rfl)
          · exact Or.inl bit
          · exact Or.inr ⟨some, Or.inl rfl⟩
          · exact Or.inr ⟨nonzero, Or.inr rfl⟩
  apply wp_post (wp_and (bmap_spec geo work low) parts)
  rintro addr g ⟨found, noted⟩
  refine ⟨found, noted.mono ?_ fun _ => id⟩
  rintro b (bit | ⟨some, rfl | rfl⟩)
  · exact Or.inl bit
  · exact Or.inr ⟨some, blockSlot bn, Or.inr rfl, found.slot some⟩
  · exact Or.inr ⟨some, NDIRECT, Or.inl rfl, slotOf_addr (Nat.le_refl _)⟩

theorem bfree_noted (lost : Nat → Prop) {b : Nat} (limit : b < sb.size) :
    wp (bfree sb b) (fun _ => True) (fun _ f' => Noted (IsBitmap sb) lost f f') f := by
  simp only [bfree, wp_bind, wp_get, wp_ite, wp_set, wp_throw]
  exact ⟨fun _ => Noted.writeBlock _ f _ ⟨b, limit, rfl⟩, fun _ => trivial⟩

end Programs

end Xv6Fcfs.Fs
