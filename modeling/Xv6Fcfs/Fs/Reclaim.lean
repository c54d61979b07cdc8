import Xv6Fcfs.Fs.Commit

/-!
# `fsinit`

`userinit` takes a reference to the root directory before the file system is read.  Then
`fsinit` recovers the log and `ireclaim` frees the inodes that have a type and no link, each
in a transaction of its own.  The disk at that moment is what a crash left, so that only its
structure is known; nothing but the root is in use.
-/

set_option autoImplicit false

namespace Xv6Fcfs.Fs

open Xv6Fcfs.Lib

def ireclaimInode (sb : Superblock) (inum : Nat) : FsM Unit := do
  let s ← get
  let d := dinode sb s.disk inum
  if d.type ≠ 0 ∧ d.nlink = 0 then do
    let ip ← iget inum
    transaction do
      ilock sb ip
      iunlock ip
      iput sb ip
  else return

def ireclaim (sb : Superblock) : FsM Unit := forFrom (ireclaimInode sb) 1 (sb.ninodes - 1)

/-- The kernel's tables when `fsinit` has recovered the log: `initproc` is at the root. -/
def bootState (disk : Disk) : FsState where
  disk := disk
  log := []
  journal := { home := disk, commits := [] }
  itable a := ⟨if a = 0 then ROOTINO else 0, if a = 0 then 1 else 0, false, false, freshDinode 0⟩
  ftable _ := ⟨.none, 0, false, false, 0, 0, 0⟩
  proc p := if p = 0 then some ⟨0, fun _ => none⟩ else none
  gen _ := 0
  stamp _ _ := 0

def Orphan (d : Dinode) : Prop := d.type ≠ 0 ∧ d.nlink = 0

/-- A state of `ireclaim` between two turns. -/
structure Booted (sb : Superblock) (s : FsState) : Prop where
  str : Structured sb (dinode sb s.disk) s.disk
  root : (s.itable 0).inum = ROOTINO
  refs : ∀ a, a < NINODE → (s.itable a).ref = if a = 0 then 1 else 0
  unlocked : ∀ a, a < NINODE → (s.itable a).locked = false
  log : s.log = []
  home : s.journal.home = s.disk

/-- What one turn does: it frees the inode, unless that is the root. -/
structure Turn (sb : Superblock) (inum : Nat) (s s' : FsState) : Prop where
  freed : Orphan (dinode sb s.disk inum) → inum ≠ ROOTINO → (dinode sb s'.disk inum).type = 0
  stays : ¬ (Orphan (dinode sb s.disk inum) ∧ inum ≠ ROOTINO) → s'.disk = s.disk
  others : ∀ j, j < sb.ninodes → j ≠ inum → dinode sb s'.disk j = dinode sb s.disk j
  data : ∀ c, nmeta sb ≤ c → s'.disk c = s.disk c
  low : ∀ b, b < sb.inodestart → s'.disk b = s.disk b
  refs : ∀ a, (s'.itable a).ref = (s.itable a).ref
  commits : ∃ new, s'.journal.commits = new ++ s.journal.commits ∧
    ∀ c, c ∈ new → c.1.Nodup ∧ ∀ b, b ∈ c.1 → b = IBLOCK sb inum ∨ IsBitmap sb b

section Turns
variable {sb : Superblock} {s : FsState} {inum : Nat}

theorem Turn.refl (done : ¬ (Orphan (dinode sb s.disk inum) ∧ inum ≠ ROOTINO)) :
    Turn sb inum s s where
  freed orphan other := absurd ⟨orphan, other⟩ done
  stays _ := rfl
  others _ _ _ := rfl
  data _ _ := rfl
  low _ _ := rfl
  refs _ := rfl
  commits := ⟨[], rfl, by simp⟩

theorem iget_boot (boot : Booted sb s) (other : inum ≠ ROOTINO) :
    wp (iget inum) (fun _ => False) (fun a s' => a < NINODE ∧ a ≠ 0 ∧
      s' = setInode a { s.itable a with inum := inum, ref := 1, valid := false } s) s := by
  have only : ∀ a, a < NINODE → 0 < (s.itable a).ref → a = 0 := by
    intro a bound pos
    rw [boot.refs a bound] at pos
    by_contra differ
    rw [if_neg differ] at pos
    omega
  have scan := igetScan_spec s.itable inum NINODE 0 none
  simp only [iget, wp_bind, wp_get]
  generalize igetScan s.itable inum 0 NINODE none = result at scan ⊢
  obtain ⟨found, empty⟩ := result
  cases found with
  | some a =>
      simp only at scan
      obtain rfl := only a (by omega) scan.2.2.1
      rw [boot.root] at scan
      exact absurd scan.2.2.2.symm other
  | none =>
      cases empty with
      | none =>
          have full := (scan.2.2 rfl).2 1 (by decide) (by decide)
          rw [boot.refs 1 (by decide)] at full
          exact full rfl
      | some a =>
          simp only [wp_bind, wp_modify, wp_pure]
          rcases scan.2.1 a rfl with old | ⟨-, bound, zero⟩
          · cases old
          · rw [Nat.zero_add] at bound
            refine ⟨bound, ?_, trivial⟩
            rintro rfl
            rw [boot.refs 0 bound] at zero
            cases zero

theorem iget_boot_root (boot : Booted sb s) :
    wp (iget ROOTINO) (fun _ => False) (fun a s' => a = 0 ∧ s' = addRef 0 s) s := by
  have pos : 0 < (s.itable 0).ref := by
    rw [boot.refs 0 (by decide)]
    decide
  have scan : igetScan s.itable ROOTINO 0 NINODE none = (some 0, none) := by
    have here : 0 < (s.itable 0).ref ∧ (s.itable 0).inum = ROOTINO := ⟨pos, boot.root⟩
    simp only [NINODE, igetScan, if_pos here]
  simp only [iget, wp_bind, wp_get, scan, wp_modify, wp_pure]
  exact ⟨trivial, trivial⟩

theorem reclaim_entry (geo : Geometry sb) {a : Nat} {e : Inode} (entry : s.itable a = e)
    (str : Structured sb (dinode sb s.disk) s.disk) (ref : e.ref = 1) (unlocked : e.locked = false)
    (unread : e.valid = false) (range : e.inum < sb.ninodes)
    (orphan : Orphan (dinode sb s.disk e.inum)) (log : s.log = []) :
    wp (transaction do ilock sb a; iunlock a; iput sb a) (fun _ => False)
      (fun _ s' => ∃ g, Released sb ⟨e.inum, dinode sb s.disk e.inum, s.disk, []⟩ g ∧
        s' = closed (withInode a ⟨e.inum, 0, false, false, g.ip⟩ g.disk g.log s)) s := by
  apply wp_transaction log
  obtain ⟨inum, r, locked, valid, din⟩ := e
  simp only at ref unlocked unread range orphan ⊢
  subst ref unlocked unread
  simp only [ilock, wp_bind, wp_get, entry, wp_ite, wp_throw, wp_set, wp_pure]
  refine ⟨fun no => absurd no (by decide), fun _ => ⟨fun no => (by cases no), fun _ =>
    ⟨fun no => (by cases no), fun _ => ⟨fun no => absurd no orphan.1, fun _ => ?_⟩⟩⟩⟩
  simp only [iunlock, iput, wp_bind, wp_get, wp_ite, wp_throw, wp_set, wp_modify, setInode, upd_self]
  refine ⟨fun no => (by simp at no), fun _ => ⟨fun _ => ⟨fun no => (by cases no), fun _ => ?_⟩,
    fun no => absurd ⟨trivial, trivial, orphan.2⟩ no⟩⟩
  have settled : Settled sb (fileState { s with
      itable := upd (upd s.itable a ⟨inum, 1, true, true, dinode sb s.disk inum⟩) a
        ⟨inum, 1, false, true, dinode sb s.disk inum⟩ } a) := by
    simp only [fileState, upd_self]
    exact ⟨range, rfl, str⟩
  apply wp_mono (iputFree_run geo settled (by simp only [fileState, upd_self]; exact orphan.1)) _
    (fun e no => no)
  rintro _ t ⟨g, freed, rfl⟩
  simp only [fileState, upd_self, log] at freed
  refine ⟨g, freed, ?_⟩
  simp only [withInode, setInode, upd_self, upd_upd]

theorem reclaim_root {e : Inode} (entry : s.itable 0 = e) (ref : e.ref = 2)
    (unlocked : e.locked = false) (alloc : (dinode sb s.disk e.inum).type ≠ 0) (log : s.log = []) :
    wp (transaction do ilock sb 0; iunlock 0; iput sb 0) (fun _ => False)
      (fun _ s' => ∃ e', e'.inum = e.inum ∧ e'.ref = 1 ∧ e'.locked = false ∧
        s' = closed (setInode 0 e' s)) s := by
  apply wp_transaction log
  obtain ⟨inum, r, locked, valid, din⟩ := e
  simp only at ref unlocked alloc ⊢
  subst ref unlocked
  simp only [ilock, wp_bind, wp_get, entry, wp_ite, wp_throw, wp_set, wp_pure]
  refine ⟨fun no => absurd no (by decide), fun _ => ⟨fun no => (by cases no), fun _ =>
    ⟨fun _ => ?_, fun _ => ⟨fun no => absurd no alloc, fun _ => ?_⟩⟩⟩⟩ <;>
  · simp only [iunlock, iput, wp_bind, wp_get, wp_ite, wp_throw, wp_set, wp_modify, setInode,
      upd_self, upd_upd]
    refine ⟨fun no => (by simp at no), fun _ => ⟨fun no => (by simp at no), fun _ => ?_⟩⟩
    exact ⟨_, rfl, rfl, rfl, rfl⟩

theorem Released.low {f g : FileState} (freed : Released sb f g) (geo : Geometry sb)
    (start : f.log = []) {b : Nat} (low : b < sb.inodestart) :
    g.disk b = f.disk b := by
  have outside : b ∉ g.log := by
    intro listed
    rcases freed.noted.only b listed with old | rfl | ⟨c, bound, rfl⟩
    · rw [start] at old
      cases old
    · simp only [IBLOCK] at low
      exact absurd low (Nat.not_lt.mpr (Nat.le_add_left _ _))
    · have area := (BBLOCK_range geo bound).1
      have inodes := geo.inodes
      have some := Nat.zero_le (sb.ninodes / IPB)
      omega
  rcases freed.noted.same b outside with same | no
  · exact same
  · exact no.elim

theorem ireclaimInode_spec (geo : Geometry sb) (range : inum < sb.ninodes) (boot : Booted sb s) :
    wp (ireclaimInode sb inum) (fun _ => False)
      (fun _ s' => Booted sb s' ∧ Turn sb inum s s') s := by
  simp only [ireclaimInode, wp_bind, wp_get, wp_ite, wp_pure]
  refine ⟨fun orphan => ?_, fun linked => ⟨boot, .refl fun both => linked both.1⟩⟩
  have orphan : Orphan (dinode sb s.disk inum) := orphan
  by_cases root : inum = ROOTINO
  · subst root
    apply wp_post (iget_boot_root boot)
    rintro _ t ⟨rfl, rfl⟩
    have entry := boot.refs 0 (by decide)
    rw [if_pos rfl] at entry
    apply wp_post (reclaim_root (s := addRef 0 s) rfl (by simp [addRef, setInode, entry])
      (by simp [addRef, setInode, boot.unlocked 0 (by decide)]) (by
        have alloc := orphan.1
        rw [← boot.root] at alloc
        simpa [addRef, setInode] using alloc) boot.log)
    rintro _ t ⟨e, inum, ref, unlocked, rfl⟩
    have inum : e.inum = ROOTINO := by
      rw [inum, ← boot.root]
      simp [addRef, setInode]
    have home : (closed (setInode 0 e (addRef 0 s))).journal.home = s.disk := by
      funext b
      simp [closed, Journal.commit, install, setInode, ← boot.home, addRef]
    refine ⟨⟨boot.str, ?_, ?_, ?_, rfl, home⟩, ⟨fun _ no => absurd rfl no, fun _ => rfl,
      fun _ _ _ => rfl, fun _ _ => rfl, fun _ _ => rfl, ?_, ?_⟩⟩
    · simpa [closed, setInode] using inum
    · intro b bound
      by_cases first : b = 0
      · subst first
        simpa [closed, setInode] using ref
      · rw [← boot.refs b bound]
        simp [closed, setInode, addRef, upd_of_ne first]
    · intro b bound
      by_cases first : b = 0
      · subst first
        simpa [closed, setInode] using unlocked
      · rw [← boot.unlocked b bound]
        simp [closed, setInode, addRef, upd_of_ne first]
    · intro b
      by_cases first : b = 0
      · subst first
        rw [entry]
        simpa [closed, setInode] using ref
      · simp [closed, setInode, addRef, upd_of_ne first]
    · refine ⟨[(s.log, _)], rfl, ?_⟩
      intro c member
      rw [List.mem_singleton] at member
      subst member
      simp [boot.log]
  · apply wp_post (iget_boot boot root)
    rintro a t ⟨bound, differ, rfl⟩
    have zero := boot.refs a bound
    rw [if_neg differ] at zero
    apply wp_post (reclaim_entry geo
      (e := ⟨inum, 1, (s.itable a).locked, false, (s.itable a).din⟩)
      (s := setInode a ⟨inum, 1, (s.itable a).locked, false, (s.itable a).din⟩ s)
      (upd_self _ _ _) boot.str rfl (boot.unlocked a bound) rfl range orphan boot.log)
    rintro _ t ⟨g, freed, rfl⟩
    have self := freed.settled.ip
    rw [freed.inum] at self
    have home : (closed (withInode a ⟨inum, 0, false, false, g.ip⟩ g.disk g.log
        (setInode a { s.itable a with inum := inum, ref := 1, valid := false } s))).journal.home =
        g.disk := by
      funext b
      simp only [closed, Journal.commit, install, withInode, setInode]
      split
      · rfl
      · rename_i outside
        rw [boot.home]
        rcases freed.noted.same b outside with same | no
        · exact same.symm
        · exact no.elim
    have table : ∀ b, b ≠ a → (closed (withInode a ⟨inum, 0, false, false, g.ip⟩ g.disk g.log
        (setInode a { s.itable a with inum := inum, ref := 1, valid := false } s))).itable b =
        s.itable b := by
      intro b other
      simp only [closed, withInode, setInode, upd_of_ne other]
    have here : (closed (withInode a ⟨inum, 0, false, false, g.ip⟩ g.disk g.log
        (setInode a { s.itable a with inum := inum, ref := 1, valid := false } s))).itable a =
        ⟨inum, 0, false, false, g.ip⟩ := by
      simp only [closed, withInode, setInode, upd_self]
    refine ⟨⟨freed.settled.str, ?_, ?_, ?_, rfl, home⟩, ⟨?_, fun no => absurd ⟨orphan, root⟩ no,
      freed.inodes, freed.data, fun b low => freed.low geo rfl low, ?_, ?_⟩⟩
    · rw [table 0 (Ne.symm differ)]
      exact boot.root
    · intro b limit
      by_cases own : b = a
      · subst own
        rw [here, if_neg differ]
      · rw [table b own]
        exact boot.refs b limit
    · intro b limit
      by_cases own : b = a
      · subst own
        rw [here]
      · rw [table b own]
        exact boot.unlocked b limit
    · intro _ _
      have gone : (dinode sb g.disk inum).type = 0 := by
        rw [← self]
        exact freed.type
      exact gone
    · intro b
      by_cases own : b = a
      · subst own
        rw [here, zero]
      · rw [table b own]
    · refine ⟨[(g.log, _)], rfl, ?_⟩
      intro c member
      rw [List.mem_singleton] at member
      subst member
      refine ⟨freed.noted.nodup List.nodup_nil, ?_⟩
      intro b listed
      rcases freed.noted.only b listed with old | may
      · cases old
      · exact may

end Turns

end Xv6Fcfs.Fs
