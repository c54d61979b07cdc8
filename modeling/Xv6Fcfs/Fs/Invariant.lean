import Xv6Fcfs.Lib.Count
import Xv6Fcfs.Fs.Node
import Xv6Fcfs.Fs.Syscalls

/-!
# The invariant of the file system

`FsInv sb held loose s` holds inside calls as well as between them.  `held a` is the
number of references to entry `a` of the inode table that the running call has taken and
not yet given back; every other reference is an open file or a working directory.  An
allocated inode without links is in use by one of these, except for the inodes in `loose`,
which the running call must see to.  Between calls nothing is held and nothing is loose.
-/

set_option autoImplicit false

namespace Xv6Fcfs.Fs

open Xv6Fcfs.Lib

structure DiskInv (sb : Superblock) (disk : Disk) : Prop where
  str : Structured sb (dinode sb disk) disk
  dirs : ∀ i, (nodes sb disk i).type = T_DIR → DirOk sb (nodes sb disk i)
  /-- An entry of inode 0 is an empty one. -/
  zero : (dinode sb disk 0).type = 0

def File.onInode (ff : File) : Prop := 0 < ff.ref ∧ (ff.type = .inode ∨ ff.type = .device)

instance (ff : File) : Decidable ff.onInode :=
  inferInstanceAs (Decidable (0 < ff.ref ∧ (ff.type = .inode ∨ ff.type = .device)))

def fileUses (ftable : Nat → File) (a : Nat) : Nat :=
  Nat.count (fun f => (ftable f).onInode ∧ (ftable f).ip = a) NFILE

def cwdUses (proc : Nat → Option ProcFiles) (a : Nat) : Nat :=
  Nat.count (fun p => (proc p).map ProcFiles.cwd = some a) NPROC

/-- The open files and working directories on entry `a`. -/
def uses (s : FsState) (a : Nat) : Nat := fileUses s.ftable a + cwdUses s.proc a

structure TableInv (sb : Superblock) (held : Nat → Nat) (loose : Nat → Prop) (s : FsState) :
    Prop where
  unique : ∀ a b, a < NINODE → b < NINODE → 0 < (s.itable a).ref → 0 < (s.itable b).ref →
    (s.itable a).inum = (s.itable b).inum → a = b
  inums : ∀ a, a < NINODE → 0 < (s.itable a).ref → (s.itable a).inum < sb.ninodes
  cached : ∀ a, a < NINODE → 0 < (s.itable a).ref → (s.itable a).valid = true →
    (s.itable a).din = dinode sb s.disk (s.itable a).inum ∧ (s.itable a).din.type ≠ 0
  live : ∀ a, a < NINODE → held a < (s.itable a).ref →
    (dinode sb s.disk (s.itable a).inum).type ≠ 0
  orphan : ∀ i, i < sb.ninodes → (dinode sb s.disk i).type ≠ 0 → (dinode sb s.disk i).nlink = 0 →
    ¬ loose i → ∃ a, a < NINODE ∧ (s.itable a).inum = i ∧ (s.itable a).valid = true ∧
      held a < (s.itable a).ref
  refs : ∀ a, a < NINODE → (s.itable a).ref = uses s a + held a

structure FilesInv (sb : Superblock) (s : FsState) : Prop where
  closed : ∀ f, f < NFILE → (s.ftable f).ref = 0 → (s.ftable f).type = .none
  opened : ∀ f, f < NFILE → (s.ftable f).onInode → (s.ftable f).ip < NINODE
  writes : ∀ f, f < NFILE → (s.ftable f).onInode → (s.ftable f).type = .inode →
    (s.ftable f).writable = true →
    (dinode sb s.disk (s.itable (s.ftable f).ip).inum).type = T_FILE
  procs : ∀ p files, s.proc p = some files → p < NPROC ∧ files.cwd < NINODE ∧
    ∀ fd f, files.ofile fd = some f → f < NFILE

/-- `b` is the indirect block of an allocated inode. -/
def IsIndirect (sb : Superblock) (inodes : Nat → Dinode) (b : Nat) : Prop :=
  ∃ i, i < sb.ninodes ∧ (inodes i).type ≠ 0 ∧ (inodes i).addrs NDIRECT = b

/-- A block that the transaction has not logged is at home what it is in memory, unless
it holds data. -/
structure LogInv (sb : Superblock) (home disk : Disk) (log : List Nat) : Prop where
  nodup : log.Nodup
  lags : ∀ b, b ∉ log →
    disk b = home b ∨ (nmeta sb ≤ b ∧ ¬ IsIndirect sb (dinode sb disk) b)

structure FsInv (sb : Superblock) (held : Nat → Nat) (loose : Nat → Prop) (s : FsState) :
    Prop where
  disk : DiskInv sb s.disk
  table : TableInv sb held loose s
  files : FilesInv sb s
  logs : LogInv sb s.journal.home s.disk s.log

def OnlyTable (s s' : FsState) : Prop := s' = { s with itable := s'.itable }

/-- What the call knows of entry `b` is still so. -/
def Kept (s s' : FsState) (b : Nat) : Prop :=
  (s'.itable b).inum = (s.itable b).inum ∧
    ((s.itable b).valid = true → (s'.itable b).valid = true) ∧
    (s'.itable b).locked = (s.itable b).locked

theorem Kept.refl (s : FsState) (b : Nat) : Kept s s b := ⟨rfl, id, rfl⟩

theorem Kept.trans {s t u : FsState} {b : Nat} (first : Kept s t b) (second : Kept t u b) :
    Kept s u b :=
  ⟨second.1.trans first.1, fun valid => second.2.1 (first.2.1 valid),
    second.2.2.trans first.2.2⟩

namespace OnlyTable
variable {s t u : FsState}

theorem refl (s : FsState) : OnlyTable s s := rfl

theorem trans (first : OnlyTable s t) (second : OnlyTable t u) : OnlyTable s u := by
  unfold OnlyTable at *
  rw [second, first]

theorem setInode (a : Nat) (e : Inode) : OnlyTable s (setInode a e s) := rfl

theorem disk (only : OnlyTable s t) : t.disk = s.disk := by rw [only]

theorem ftable (only : OnlyTable s t) : t.ftable = s.ftable := by rw [only]

theorem proc (only : OnlyTable s t) : t.proc = s.proc := by rw [only]

theorem gen (only : OnlyTable s t) : t.gen = s.gen := by rw [only]

theorem stamp (only : OnlyTable s t) : t.stamp = s.stamp := by rw [only]

theorem log (only : OnlyTable s t) : t.log = s.log := by rw [only]

theorem journal (only : OnlyTable s t) : t.journal = s.journal := by rw [only]

theorem uses (only : OnlyTable s t) (a : Nat) : uses t a = uses s a := by
  simp only [Fs.uses, only.ftable, only.proc]

end OnlyTable

/-! ## Facts about entries -/

section Entry
variable {sb : Superblock} {held : Nat → Nat} {loose : Nat → Prop} {s s' : FsState} {a b : Nat}

theorem TableInv.ref_of_held (inv : TableInv sb held loose s) (bound : a < NINODE)
    (holds : 0 < held a) : 0 < (s.itable a).ref := by
  rw [inv.refs a bound]
  omega

theorem TableInv.ref_of_uses (inv : TableInv sb held loose s) (bound : a < NINODE)
    (used : 0 < uses s a) : held a < (s.itable a).ref := by
  rw [inv.refs a bound]
  omega

theorem uses_of_file {f : Nat} (bound : f < NFILE) (open' : (s.ftable f).onInode) :
    0 < uses s (s.ftable f).ip := by
  have one : fileUses s.ftable (s.ftable f).ip ≠ 0 :=
    Nat.count_ne_iff_exists.mpr ⟨f, bound, open', rfl⟩
  unfold uses
  omega

theorem uses_of_cwd {p : Nat} {files : ProcFiles} (bound : p < NPROC)
    (proc : s.proc p = some files) : 0 < uses s files.cwd := by
  have one : cwdUses s.proc files.cwd ≠ 0 :=
    Nat.count_ne_iff_exists.mpr ⟨p, bound, by simp [proc]⟩
  unfold uses
  omega

/-- Entry `a` keeps its number and its references and becomes more valid, if anything. -/
theorem FsInv.setEntry (inv : FsInv sb held loose s) {e : Inode} (inum : e.inum = (s.itable a).inum)
    (ref : e.ref = (s.itable a).ref) (grows : (s.itable a).valid = true → e.valid = true)
    (fresh : 0 < (s.itable a).ref → e.valid = true →
      e.din = dinode sb s.disk (s.itable a).inum ∧ e.din.type ≠ 0) :
    FsInv sb held loose (setInode a e s) := by
  have same : ∀ b, (upd s.itable a e b).inum = (s.itable b).inum ∧
      (upd s.itable a e b).ref = (s.itable b).ref ∧
      ((s.itable b).valid = true → (upd s.itable a e b).valid = true) := by
    intro b
    by_cases here : b = a
    · subst here
      rw [upd_self]
      exact ⟨inum, ref, grows⟩
    · rw [upd_of_ne here]
      exact ⟨rfl, rfl, id⟩
  have table := inv.table
  refine ⟨inv.disk, ⟨?_, ?_, ?_, ?_, ?_, ?_⟩,
    ⟨inv.files.closed, inv.files.opened, ?_, inv.files.procs⟩, inv.logs⟩
  · intro b c
    simp only [setInode, (same b).1, (same b).2.1, (same c).1, (same c).2.1]
    exact table.unique b c
  · intro b
    simp only [setInode, (same b).1, (same b).2.1]
    exact table.inums b
  · intro b bound pos valid
    simp only [setInode] at pos valid ⊢
    by_cases here : b = a
    · subst here
      rw [upd_self] at pos valid ⊢
      rw [inum]
      exact fresh (by omega) valid
    · rw [upd_of_ne here] at pos valid ⊢
      exact table.cached b bound pos valid
  · intro b
    simp only [setInode, (same b).1, (same b).2.1]
    exact table.live b
  · intro i bound alloc none strict
    obtain ⟨b, index, at', valid, more⟩ := table.orphan i bound alloc none strict
    refine ⟨b, index, ?_, (same b).2.2 valid, ?_⟩
    · exact (same b).1.trans at'
    · simp only [setInode, (same b).2.1]
      exact more
  · intro b
    simp only [setInode, (same b).2.1]
    exact table.refs b
  · intro f
    simp only [setInode, (same _).1]
    exact inv.files.writes f

theorem FsInv.addRef (inv : FsInv sb held loose s) (pos : 0 < (s.itable a).ref) :
    FsInv sb (upd held a (held a + 1)) loose (addRef a s) := by
  have table := inv.table
  have inum : ∀ b, ((Fs.addRef a s).itable b).inum = (s.itable b).inum ∧
      ((Fs.addRef a s).itable b).valid = (s.itable b).valid ∧
      ((Fs.addRef a s).itable b).din = (s.itable b).din := by
    intro b
    by_cases here : b = a
    · subst here
      simp only [Fs.addRef, setInode, upd_self]
      exact ⟨trivial, trivial, trivial⟩
    · simp only [Fs.addRef, setInode, upd_of_ne here]
      exact ⟨trivial, trivial, trivial⟩
  have self : ((Fs.addRef a s).itable a).ref = (s.itable a).ref + 1 := by
    simp only [Fs.addRef, setInode, upd_self]
  have other : ∀ b, b ≠ a → ((Fs.addRef a s).itable b).ref = (s.itable b).ref := by
    intro b differ
    simp only [Fs.addRef, setInode, upd_of_ne differ]
  have used : ∀ b, 0 < ((Fs.addRef a s).itable b).ref → 0 < (s.itable b).ref := by
    intro b more
    by_cases here : b = a
    · rw [here]
      exact pos
    · rwa [other b here] at more
  have spare : ∀ b, upd held a (held a + 1) b < ((Fs.addRef a s).itable b).ref ↔
      held b < (s.itable b).ref := by
    intro b
    by_cases here : b = a
    · rw [here, upd_self, self]
      omega
    · rw [upd_of_ne here, other b here]
  refine ⟨inv.disk, ⟨?_, ?_, ?_, ?_, ?_, ?_⟩,
    ⟨inv.files.closed, inv.files.opened, ?_, inv.files.procs⟩, inv.logs⟩
  · intro b c boundB boundC posB posC
    rw [(inum b).1, (inum c).1]
    exact table.unique b c boundB boundC (used b posB) (used c posC)
  · intro b bound more
    rw [(inum b).1]
    exact table.inums b bound (used b more)
  · intro b bound more
    rw [(inum b).1, (inum b).2.1, (inum b).2.2]
    exact table.cached b bound (used b more)
  · intro b bound more
    rw [(inum b).1]
    exact table.live b bound ((spare b).mp more)
  · intro i bound alloc none strict
    obtain ⟨b, index, at', valid, more⟩ := table.orphan i bound alloc none strict
    exact ⟨b, index, (inum b).1.trans at', (inum b).2.1.trans valid, (spare b).mpr more⟩
  · intro b bound
    have count := table.refs b bound
    have same : uses (Fs.addRef a s) b = uses s b := rfl
    by_cases here : b = a
    · subst here
      rw [self, upd_self, same]
      omega
    · rw [other b here, upd_of_ne here, same]
      exact count
  · intro f
    rw [(inum _).1]
    exact inv.files.writes f

end Entry

/-! ## `iget`, `idup`, `ilock` and `iunlock` -/

section Table
variable {sb : Superblock} {held : Nat → Nat} {loose : Nat → Prop} {s : FsState} {a : Nat}

def TableFull (s : FsState) : Prop := ∀ b, b < NINODE → (s.itable b).ref ≠ 0

theorem igetScan_spec (itable : Nat → Inode) (inum : Nat) : ∀ (n ip : Nat) (empty : Option Nat),
    match igetScan itable inum ip n empty with
    | (some a, _) => ip ≤ a ∧ a < ip + n ∧ 0 < (itable a).ref ∧ (itable a).inum = inum
    | (none, e) => (∀ b, ip ≤ b → b < ip + n → 0 < (itable b).ref → (itable b).inum ≠ inum) ∧
        (∀ a, e = some a → empty = some a ∨ (ip ≤ a ∧ a < ip + n ∧ (itable a).ref = 0)) ∧
        (e = none → empty = none ∧ ∀ b, ip ≤ b → b < ip + n → (itable b).ref ≠ 0) := by
  intro n
  induction n with
  | zero =>
      intro ip empty
      exact ⟨fun b low high => by omega, fun a eq => Or.inl eq,
        fun none => ⟨none, fun b low high => by omega⟩⟩
  | succ n ih =>
      intro ip empty
      simp only [igetScan]
      by_cases here : 0 < (itable ip).ref ∧ (itable ip).inum = inum
      · simp only [if_pos here]
        exact ⟨Nat.le_refl ip, by omega, here.1, here.2⟩
      · simp only [if_neg here]
        have rest := ih (ip + 1) (if empty = none ∧ (itable ip).ref = 0 then some ip else empty)
        generalize igetScan itable inum (ip + 1) n
          (if empty = none ∧ (itable ip).ref = 0 then some ip else empty) = result at rest ⊢
        obtain ⟨found, e⟩ := result
        cases found with
        | some a =>
            simp only at rest ⊢
            exact ⟨by omega, by omega, rest.2.2.1, rest.2.2.2⟩
        | none =>
            simp only at rest ⊢
            refine ⟨?_, ?_, ?_⟩
            · intro b low high pos same
              by_cases first : b = ip
              · subst first
                exact here ⟨pos, same⟩
              · exact rest.1 b (by omega) (by omega) pos same
            · intro a eq
              rcases rest.2.1 a eq with old | ⟨low, high, zero⟩
              · split at old
                · rename_i both
                  obtain rfl := Option.some.inj old
                  exact Or.inr ⟨Nat.le_refl _, by omega, both.2⟩
                · exact Or.inl old
              · exact Or.inr ⟨by omega, by omega, zero⟩
            · intro none
              obtain ⟨before, taken⟩ := rest.2.2 none
              split at before
              · cases before
              · rename_i not
                refine ⟨before, ?_⟩
                intro b low high
                by_cases first : b = ip
                · rw [first]
                  exact fun zero => not ⟨before, zero⟩
                · exact taken b (by omega) (by omega)

theorem FsInv.recycle (inv : FsInv sb held loose s) {inum : Nat} (range : inum < sb.ninodes)
    (bound : a < NINODE) (empty : (s.itable a).ref = 0)
    (absent : ∀ b, b < NINODE → 0 < (s.itable b).ref → (s.itable b).inum ≠ inum) :
    FsInv sb (upd held a (held a + 1)) loose
      (setInode a { s.itable a with inum := inum, ref := 1, valid := false } s) := by
  have table := inv.table
  have unused : held a = 0 ∧ uses s a = 0 := by
    have count := table.refs a bound
    omega
  have other : ∀ b, b ≠ a → upd s.itable a
      { s.itable a with inum := inum, ref := 1, valid := false } b = s.itable b :=
    fun b differ => upd_of_ne differ _ _
  refine ⟨inv.disk, ⟨?_, ?_, ?_, ?_, ?_, ?_⟩,
    ⟨inv.files.closed, inv.files.opened, ?_, inv.files.procs⟩, inv.logs⟩
  · intro b c boundB boundC posB posC same
    simp only [setInode] at posB posC same
    by_cases atB : b = a <;> by_cases atC : c = a
    · rw [atB, atC]
    · subst atB
      rw [upd_self, other c atC] at same
      rw [other c atC] at posC
      exact absurd same.symm (absent c boundC posC)
    · subst atC
      rw [upd_self, other b atB] at same
      rw [other b atB] at posB
      exact absurd same (absent b boundB posB)
    · rw [other b atB] at posB same
      rw [other c atC] at posC same
      exact table.unique b c boundB boundC posB posC same
  · intro b boundB pos
    simp only [setInode] at pos ⊢
    by_cases here : b = a
    · subst here
      rw [upd_self]
      exact range
    · rw [other b here] at pos ⊢
      exact table.inums b boundB pos
  · intro b boundB pos valid
    simp only [setInode] at pos valid ⊢
    by_cases here : b = a
    · subst here
      rw [upd_self] at valid
      cases valid
    · rw [other b here] at pos valid ⊢
      exact table.cached b boundB pos valid
  · intro b boundB more
    simp only [setInode] at more ⊢
    by_cases here : b = a
    · subst here
      rw [upd_self, upd_self] at more
      simp only at more
      omega
    · rw [upd_of_ne here, other b here] at more
      rw [other b here]
      exact table.live b boundB more
  · intro i boundI alloc none strict
    obtain ⟨b, index, at', valid, more⟩ := table.orphan i boundI alloc none strict
    have differ : b ≠ a := by
      rintro rfl
      omega
    refine ⟨b, index, ?_, ?_, ?_⟩
    · simp only [setInode, other b differ]
      exact at'
    · simp only [setInode, other b differ]
      exact valid
    · simp only [setInode, other b differ, upd_of_ne differ]
      exact more
  · intro b boundB
    have same : uses (setInode a { s.itable a with inum := inum, ref := 1, valid := false } s) b =
        uses s b := rfl
    by_cases here : b = a
    · subst here
      simp only [setInode, upd_self, unused.1]
      have zero := unused.2
      rw [← same] at zero
      simp only [setInode] at zero
      omega
    · rw [same]
      simp only [setInode, other b here, upd_of_ne here]
      exact table.refs b boundB
  · intro f boundF open' type writable
    simp only [setInode] at open' type writable ⊢
    have used := table.ref_of_uses (inv.files.opened f boundF open') (uses_of_file boundF open')
    rw [other _ fun same => by rw [same] at used; omega]
    exact inv.files.writes f boundF open' type writable

/-- What `iget` and `idup` give: a reference of the call to entry `a`. -/
structure Got (sb : Superblock) (held : Nat → Nat) (loose : Nat → Prop) (s : FsState) (inum a : Nat)
    (s' : FsState) : Prop where
  bound : a < NINODE
  only : OnlyTable s s'
  inv : FsInv sb (upd held a (held a + 1)) loose s'
  inum : (s'.itable a).inum = inum
  kept : ∀ b, 0 < (s.itable b).ref → Kept s s' b

theorem addRef_kept (a b : Nat) : Kept s (addRef a s) b := by
  by_cases here : b = a
  · subst here
    simp only [Kept, addRef, setInode, upd_self]
    exact ⟨trivial, id, trivial⟩
  · simp only [Kept, addRef, setInode, upd_of_ne here]
    exact ⟨trivial, id, trivial⟩

theorem iget_spec (inv : FsInv sb held loose s) {inum : Nat} (range : inum < sb.ninodes) :
    wp (iget inum) (fun e => e = .igetNoInodes ∧ TableFull s)
      (fun a s' => Got sb held loose s inum a s') s := by
  have scan := igetScan_spec s.itable inum NINODE 0 none
  simp only [iget, wp_bind, wp_get]
  generalize igetScan s.itable inum 0 NINODE none = result at scan ⊢
  obtain ⟨found, empty⟩ := result
  cases found with
  | some a =>
      simp only [wp_bind, wp_modify, wp_pure] at scan ⊢
      refine ⟨by omega, OnlyTable.setInode _ _, inv.addRef scan.2.2.1, ?_, fun b _ => addRef_kept a b⟩
      exact (addRef_kept a a).1.trans scan.2.2.2
  | none =>
      cases empty with
      | none =>
          simp only [wp_throw]
          exact ⟨trivial, fun b bound => (scan.2.2 rfl).2 b (Nat.zero_le b) (by omega)⟩
      | some a =>
          simp only [wp_bind, wp_modify, wp_pure] at scan ⊢
          rcases scan.2.1 a rfl with old | ⟨-, bound, zero⟩
          · cases old
          · rw [Nat.zero_add] at bound
            refine ⟨bound, OnlyTable.setInode _ _, ?_, ?_, ?_⟩
            · exact inv.recycle range bound zero fun b limit => scan.1 b (by omega) (by omega)
            · simp only [setInode, upd_self]
            · intro b pos
              have differ : b ≠ a := by
                rintro rfl
                omega
              simp only [Kept, setInode, upd_of_ne differ]
              exact ⟨trivial, id, trivial⟩

theorem idup_spec (inv : FsInv sb held loose s) (bound : a < NINODE) (pos : 0 < (s.itable a).ref) :
    wp (idup a) (fun _ => False)
      (fun b s' => b = a ∧ Got sb held loose s (s.itable a).inum a s') s := by
  simp only [idup, wp_bind, wp_modify, wp_pure]
  exact ⟨trivial, bound, OnlyTable.setInode _ _, inv.addRef pos, (addRef_kept a a).1,
    fun b _ => addRef_kept a b⟩

/-- What `ilock` gives. -/
structure Locked (sb : Superblock) (held : Nat → Nat) (loose : Nat → Prop) (s : FsState) (a : Nat)
    (s' : FsState) : Prop where
  only : OnlyTable s s'
  inv : FsInv sb held loose s'
  inum : (s'.itable a).inum = (s.itable a).inum
  valid : (s'.itable a).valid = true
  locked : (s'.itable a).locked = true
  before : (s.itable a).locked = false
  kept : ∀ b, b ≠ a → Kept s s' b

theorem ilock_spec (inv : FsInv sb held loose s) (bound : a < NINODE) (pos : 0 < (s.itable a).ref) :
    wp (ilock sb a) (fun e => e = .deadlock ∨
        (e = .ilockNoType ∧ (dinode sb s.disk (s.itable a).inum).type = 0))
      (fun _ s' => Locked sb held loose s a s') s := by
  have kept : ∀ (e : Inode) (b : Nat), b ≠ a → Kept s (setInode a e s) b := by
    intro e b differ
    simp only [Kept, setInode, upd_of_ne differ]
    exact ⟨trivial, id, trivial⟩
  simp only [ilock, wp_bind, wp_get, wp_ite, wp_throw, wp_set]
  refine ⟨fun none => by omega, fun _ => ⟨fun _ => Or.inl trivial, fun free => ⟨fun valid => ?_, ?_⟩⟩⟩
  · refine ⟨OnlyTable.setInode _ _, ?_, ?_, ?_, ?_, by simpa using free, kept _⟩
    · refine inv.setEntry ?_ ?_ ?_ ?_
      · rfl
      · rfl
      · exact fun old => old
      · exact fun _ _ => inv.table.cached a bound pos valid
    · simp only [setInode, upd_self]
    · simpa only [setInode, upd_self] using valid
    · simp only [setInode, upd_self]
  · intro stale
    refine ⟨fun none => Or.inr ⟨trivial, none⟩, fun alloc => ?_⟩
    refine ⟨OnlyTable.setInode _ _, ?_, ?_, ?_, ?_, by simpa using free, kept _⟩
    · refine inv.setEntry ?_ ?_ ?_ ?_
      · rfl
      · rfl
      · exact fun _ => rfl
      · exact fun _ _ => ⟨rfl, alloc⟩
    · simp only [setInode, upd_self]
    · simp only [setInode, upd_self]
    · simp only [setInode, upd_self]

/-- What `iunlock` gives. -/
structure Unlocked (sb : Superblock) (held : Nat → Nat) (loose : Nat → Prop) (s : FsState) (a : Nat)
    (s' : FsState) : Prop where
  only : OnlyTable s s'
  inv : FsInv sb held loose s'
  inum : (s'.itable a).inum = (s.itable a).inum
  valid : (s'.itable a).valid = (s.itable a).valid
  kept : ∀ b, b ≠ a → Kept s s' b

theorem iunlock_spec (inv : FsInv sb held loose s) (bound : a < NINODE) :
    wp (iunlock a) (fun e => e = .iunlock) (fun _ s' => Unlocked sb held loose s a s') s := by
  simp only [iunlock, wp_bind, wp_get, wp_ite, wp_throw, wp_set]
  refine ⟨fun _ => trivial, fun _ => ⟨OnlyTable.setInode _ _, ?_, ?_, ?_, ?_⟩⟩
  · refine inv.setEntry ?_ ?_ ?_ ?_
    · rfl
    · rfl
    · exact fun old => old
    · exact fun pos valid => inv.table.cached a bound pos valid
  · simp only [setInode, upd_self]
  · simp only [setInode, upd_self]
  · intro b differ
    simp only [Kept, setInode, upd_of_ne differ]
    exact ⟨trivial, id, trivial⟩

end Table

/-! ## Changing an inode on the disk -/

section Disk
variable {sb : Superblock} {held : Nat → Nat} {loose loose' : Nat → Prop} {s : FsState} {a : Nat}

/-- A part of the state replaced: the disk, the log and entry `a`. -/
def withInode (a : Nat) (e : Inode) (disk : Disk) (log : List Nat) (s : FsState) : FsState :=
  { setInode a e s with disk := disk, log := log }

theorem withInode_kept {e : Inode} {disk : Disk} {log : List Nat} {b : Nat} (differ : b ≠ a) :
    Kept s (withInode a e disk log s) b := by
  simp only [Kept, withInode, setInode, upd_of_ne differ]
  exact ⟨trivial, id, trivial⟩

theorem onInode_wp {α : Type} {m : InodeM α} {E : Stop → Prop} {Q : α → FsState → Prop} :
    wp (onInode a m) E Q s ↔
      wp m E (fun r f => Q r (withInode a { s.itable a with din := f.ip } f.disk f.log s))
        { inum := (s.itable a).inum, ip := (s.itable a).din, disk := s.disk, log := s.log } :=
  wp_zoom _ _ m

/-- The inode of entry `a`, as the programs of `Fs.Blocks` see it. -/
def fileState (s : FsState) (a : Nat) : FileState :=
  { inum := (s.itable a).inum, ip := (s.itable a).din, disk := s.disk, log := s.log }

theorem FsInv.settled (inv : FsInv sb held loose s) (bound : a < NINODE)
    (pos : 0 < (s.itable a).ref) (valid : (s.itable a).valid = true) :
    Settled sb (fileState s a) ∧ (fileState s a).ip.type ≠ 0 :=
  ⟨⟨inv.table.inums a bound pos, (inv.table.cached a bound pos valid).1, inv.disk.str⟩,
    (inv.table.cached a bound pos valid).2⟩

theorem FsInv.node (inv : FsInv sb held loose s) (bound : a < NINODE)
    (pos : 0 < (s.itable a).ref) (valid : (s.itable a).valid = true) :
    nodes sb s.disk (s.itable a).inum = nodeOf (s.itable a).din s.disk := by
  obtain ⟨cached, alloc⟩ := inv.table.cached a bound pos valid
  rw [cached] at alloc ⊢
  exact nodes_eq (inv.table.inums a bound pos) alloc

/-! What is logged. -/

theorem LogInv.noted {home : Disk} {f f' : FileState} {allowed lost : Nat → Prop}
    (logs : LogInv sb home f.disk f.log) (noted : Noted allowed lost f f') (pos : 0 < nmeta sb)
    (old : ∀ b, b ≠ 0 → b ∉ f'.log → IsIndirect sb (dinode sb f'.disk) b →
      IsIndirect sb (dinode sb f.disk) b)
    (gone : ∀ b, lost b → nmeta sb ≤ b ∧ ¬ IsIndirect sb (dinode sb f'.disk) b) :
    LogInv sb home f'.disk f'.log := by
  refine ⟨noted.nodup logs.nodup, ?_⟩
  intro b unlisted
  rcases noted.same b unlisted with kept | lost
  · rw [kept]
    rcases logs.lags b fun listed => unlisted (noted.grows b listed) with same | ⟨data, none⟩
    · exact Or.inl same
    · exact Or.inr ⟨data, fun block => none (old b (by omega) unlisted block)⟩
  · exact Or.inr (gone b lost)

/-- The other inodes are as they were and this one took no indirect block silently. -/
theorem Noted.indirect_old {f f' : FileState} {allowed lost : Nat → Prop}
    (noted : Noted allowed lost f f') (settled : Settled sb f)
    (others : ∀ i, i < sb.ninodes → i ≠ f.inum → dinode sb f'.disk i = dinode sb f.disk i)
    (self : (dinode sb f'.disk f.inum).type ≠ 0 →
      f.ip.type ≠ 0 ∧ (dinode sb f'.disk f.inum).addrs NDIRECT = f'.ip.addrs NDIRECT) :
    ∀ b, b ≠ 0 → b ∉ f'.log → IsIndirect sb (dinode sb f'.disk) b →
      IsIndirect sb (dinode sb f.disk) b := by
  rintro b nonzero unlisted ⟨i, bound, alloc, rfl⟩
  by_cases own : i = f.inum
  · subst own
    obtain ⟨kind, addrs⟩ := self alloc
    rw [addrs] at nonzero unlisted ⊢
    rcases noted.indirect with same | none | listed
    · refine ⟨f.inum, bound, ?_, ?_⟩
      · rw [← settled.ip]
        exact kind
      · rw [← settled.ip]
        exact same.symm
    · exact absurd none nonzero
    · exact absurd listed unlisted
  · rw [others i bound own] at alloc ⊢
    exact ⟨i, bound, alloc, rfl⟩

/-- The data blocks of a file are not metadata and not indirect blocks. -/
theorem Settled.data_block {f : FileState} (settled : Settled sb f) (alloc : f.ip.type ≠ 0) {b : Nat}
    (holds : Holds f (· ≠ NDIRECT) b) : nmeta sb ≤ b ∧ ¬ IsIndirect sb (dinode sb f.disk) b := by
  obtain ⟨nonzero, k, data, rfl⟩ := holds
  have work := settled.working alloc
  refine ⟨(work.slot_range nonzero).1, ?_⟩
  rintro ⟨i, bound, some, same⟩
  rw [settled.ip] at alloc nonzero same
  rw [addrs_eq_slotOf f.disk (Nat.le_refl _)] at same
  have both := settled.str.slot_inj settled.inum alloc bound some nonzero same.symm
  exact data both.2

/-- The dinode of entry `a` changes on the disk, and in memory with it. -/
theorem FsInv.withInode (inv : FsInv sb held loose s) (bound : a < NINODE)
    (pos : 0 < (s.itable a).ref) {e : Inode} {disk : Disk} {log : List Nat}
    (ok : DiskInv sb disk) (logs : LogInv sb s.journal.home disk log)
    (others : ∀ j, j < sb.ninodes → j ≠ (s.itable a).inum → dinode sb disk j = dinode sb s.disk j)
    (inum : e.inum = (s.itable a).inum) (ref : e.ref = (s.itable a).ref)
    (cached : e.valid = true → e.din = dinode sb disk (s.itable a).inum ∧ e.din.type ≠ 0)
    (type : (dinode sb disk (s.itable a).inum).type = (dinode sb s.disk (s.itable a).inum).type ∨
      held a = (s.itable a).ref)
    (orphan : (dinode sb disk (s.itable a).inum).type ≠ 0 →
      (dinode sb disk (s.itable a).inum).nlink = 0 → ¬ loose' (s.itable a).inum →
      e.valid = true ∧ held a < (s.itable a).ref)
    (rest : ∀ j, j ≠ (s.itable a).inum → ¬ loose' j → ¬ loose j) :
    FsInv sb held loose' (withInode a e disk log s) := by
  have table := inv.table
  have same : ∀ b, (upd s.itable a e b).inum = (s.itable b).inum ∧
      (upd s.itable a e b).ref = (s.itable b).ref := by
    intro b
    by_cases here : b = a
    · subst here
      rw [upd_self]
      exact ⟨inum, ref⟩
    · rw [upd_of_ne here]
      exact ⟨rfl, rfl⟩
  have away : ∀ b, b < NINODE → b ≠ a → 0 < (s.itable b).ref →
      dinode sb disk (s.itable b).inum = dinode sb s.disk (s.itable b).inum := by
    intro b boundB differ posB
    apply others _ (table.inums b boundB posB)
    exact fun eq => differ (table.unique b a boundB bound posB pos eq)
  -- entries with an outside reference keep the type of their inode
  have kind : ∀ b, b < NINODE → held b < (s.itable b).ref →
      (dinode sb disk (s.itable b).inum).type = (dinode sb s.disk (s.itable b).inum).type := by
    intro b boundB more
    by_cases here : b = a
    · subst here
      rcases type with eq | none
      · exact eq
      · omega
    · rw [away b boundB here (by omega)]
  refine ⟨ok, ⟨?_, ?_, ?_, ?_, ?_, ?_⟩, ⟨inv.files.closed, inv.files.opened, ?_, inv.files.procs⟩, logs⟩
  · intro b c
    simp only [Fs.withInode, setInode, (same b).1, (same b).2, (same c).1, (same c).2]
    exact table.unique b c
  · intro b
    simp only [Fs.withInode, setInode, (same b).1, (same b).2]
    exact table.inums b
  · intro b boundB posB validB
    simp only [Fs.withInode, setInode] at posB validB ⊢
    by_cases here : b = a
    · subst here
      rw [upd_self] at validB ⊢
      rw [inum]
      exact cached validB
    · rw [upd_of_ne here] at posB validB ⊢
      rw [away b boundB here posB]
      exact table.cached b boundB posB validB
  · intro b boundB more
    simp only [Fs.withInode, setInode, (same b).1, (same b).2] at more ⊢
    rw [kind b boundB more]
    exact table.live b boundB more
  · intro i boundI alloc none strict
    simp only [Fs.withInode] at alloc none ⊢
    by_cases own : i = (s.itable a).inum
    · subst own
      obtain ⟨valid, more⟩ := orphan alloc none strict
      refine ⟨a, bound, (same a).1, ?_, ?_⟩
      · simp only [setInode, upd_self]
        exact valid
      · simp only [setInode, (same a).2]
        exact more
    · rw [others i boundI own] at alloc none
      obtain ⟨b, index, at', valid, more⟩ := table.orphan i boundI alloc none (rest i own strict)
      have differ : b ≠ a := by
        rintro rfl
        exact own at'.symm
      refine ⟨b, index, (same b).1.trans at', ?_, ?_⟩
      · simp only [setInode, upd_of_ne differ]
        exact valid
      · simp only [setInode, (same b).2]
        exact more
  · intro b boundB
    simp only [Fs.withInode, setInode, (same b).2]
    exact table.refs b boundB
  · intro f boundF open' kindF writable
    simp only [Fs.withInode, setInode, (same _).1] at open' kindF writable ⊢
    have index := inv.files.opened f boundF open'
    rw [kind _ index (table.ref_of_uses index (uses_of_file boundF open'))]
    exact inv.files.writes f boundF open' kindF writable

/-- The disk after the dinode of a settled inode is replaced, its blocks staying. -/
theorem DiskInv.setDinode (geo : Geometry sb) {disk : Disk} (ok : DiskInv sb disk) {i : Nat}
    {d : Dinode} (bound : i < sb.ninodes) (alloc : (dinode sb disk i).type ≠ 0) (fits : d.Fits)
    (type : d.type = (dinode sb disk i).type) (size : d.size = (dinode sb disk i).size)
    (addrs : d.addrs = (dinode sb disk i).addrs) :
    DiskInv sb (setDinode sb disk i d) ∧
      nodes sb (Fs.setDinode sb disk i d) = upd (nodes sb disk) i
        { nodes sb disk i with major := d.major, minor := d.minor, nlink := d.nlink } := by
  have slot : ∀ k, slotOf d disk k = slotOf (dinode sb disk i) disk k :=
    fun k => slotOf_congr addrs fun _ => rfl
  have bytes : ∀ o, byteOf d disk o = byteOf (dinode sb disk i) disk o :=
    fun o => byteOf_congr (slot _) fun _ => rfl
  have data : ∀ k, slotOf d disk k ≠ 0 → nmeta sb ≤ slotOf d disk k := by
    intro k taken
    rw [slot] at taken ⊢
    exact (ok.str.slot_range bound alloc taken).1
  have node : nodeOf d disk =
      { nodes sb disk i with major := d.major, minor := d.minor, nlink := d.nlink } := by
    rw [nodes_eq bound alloc]
    simp only [nodeOf, type, size, bytes]
  have after := nodes_setDinode geo ok.str bound fits (by rw [type]; exact alloc) data
  rw [node] at after
  refine ⟨⟨?_, ?_, ?_⟩, after⟩
  · -- the structure looks at the type, the size and the addresses only
    have self : dinode sb (Fs.setDinode sb disk i d) i = d := dinode_setDinode_self disk fits
    have keep : ∀ j, j ≠ i → dinode sb (Fs.setDinode sb disk i d) j = dinode sb disk j :=
      fun j differ => dinode_setDinode_ne disk d differ
    have slot' : ∀ j, j < sb.ninodes → (dinode sb disk j).type ≠ 0 → ∀ k,
        slotOf (dinode sb (Fs.setDinode sb disk i d) j) (Fs.setDinode sb disk i d) k =
          slotOf (dinode sb disk j) disk k := by
      intro j boundJ allocJ
      by_cases own : j = i
      · subst own
        intro k
        rw [self, ← slot k]
        apply (file_same _).1
        intro l taken
        exact data_setDinode geo disk d bound (data l taken)
      · rw [keep j own]
        apply (file_same _).1
        intro l taken
        exact data_setDinode geo disk d bound (ok.str.slot_range boundJ allocJ taken).1
    have types : ∀ j, (dinode sb (Fs.setDinode sb disk i d) j).type = (dinode sb disk j).type ∧
        (dinode sb (Fs.setDinode sb disk i d) j).size = (dinode sb disk j).size := by
      intro j
      by_cases own : j = i
      · rw [own, self]
        exact ⟨type, size⟩
      · rw [keep j own]
        exact ⟨rfl, rfl⟩
    refine ⟨?_, ?_, ?_⟩
    · apply ok.str.owned.congr
      · exact fun b limit => bitmap_setDinode geo disk d bound limit
      · exact slots_congr (fun j _ => (types j).1) slot'
    · intro j boundJ allocJ bn inside
      rw [(types j).1] at allocJ
      rw [(types j).2] at inside
      rw [blockOf, slot' j boundJ allocJ]
      exact ok.str.mapped j boundJ allocJ bn inside
    · intro j boundJ allocJ
      rw [(types j).1] at allocJ
      rw [(types j).2]
      exact ok.str.bound j boundJ allocJ
  · intro j isDir
    rw [after] at isDir ⊢
    by_cases own : j = i
    · subst own
      rw [upd_self] at isDir ⊢
      have old := ok.dirs j isDir
      exact ⟨old.whole, old.range⟩
    · rw [upd_of_ne own] at isDir ⊢
      exact ok.dirs j isDir
  · have differ : 0 ≠ i := fun same => alloc (same ▸ ok.zero)
    rw [dinode_setDinode_ne disk d differ]
    exact ok.zero

end Disk

end Xv6Fcfs.Fs
