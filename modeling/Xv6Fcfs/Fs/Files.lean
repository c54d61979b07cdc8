import Xv6Fcfs.Fs.Parts
import Xv6Fcfs.Fs.Commit

/-!
# Open files and working directories

A reference of the running call becomes that of an open file or of a working directory,
and back.
-/

set_option autoImplicit false

namespace Xv6Fcfs.Fs

open Xv6Fcfs.Lib

section Refile
variable {sb : Superblock} {held held' : Nat → Nat} {loose loose' : Nat → Prop} {s s' : FsState}

def OnlyUses (s s' : FsState) : Prop := s' = { s with ftable := s'.ftable, proc := s'.proc }

theorem FsInv.refile (inv : FsInv sb held loose s) (only : OnlyUses s s') (files : FilesInv sb s')
    (count : ∀ b, b < NINODE → uses s' b + held' b = uses s b + held b)
    (alive : ∀ b, b < NINODE → 0 < uses s' b → uses s b = 0 →
      (dinode sb s.disk (s.itable b).inum).type ≠ 0)
    (orphans : ∀ b, b < NINODE → 0 < uses s b → uses s' b = 0 → loose' (s.itable b).inum)
    (wider : ∀ i, loose i → loose' i) : FsInv sb held' loose' s' := by
  have itable : s'.itable = s.itable := by rw [only]
  have disk : s'.disk = s.disk := by rw [only]
  have log : s'.log = s.log := by rw [only]
  have journal : s'.journal = s.journal := by rw [only]
  have table := inv.table
  refine ⟨by rw [disk]; exact inv.disk, ⟨?_, ?_, ?_, ?_, ?_, ?_⟩, files, ?_⟩
  · rw [itable]
    exact table.unique
  · rw [itable]
    exact table.inums
  · rw [itable, disk]
    exact table.cached
  · intro b bound more
    rw [itable] at more ⊢
    rw [disk]
    have refs := table.refs b bound
    have same := count b bound
    by_cases used : uses s b = 0
    · exact alive b bound (by omega) used
    · exact table.live b bound (by omega)
  · intro i bound alloc none strict
    rw [disk] at alloc none
    obtain ⟨b, index, at', valid, more⟩ :=
      table.orphan i bound alloc none fun old => strict (wider i old)
    refine ⟨b, index, ?_, ?_, ?_⟩
    · rw [itable]
      exact at'
    · rw [itable]
      exact valid
    · have refs := table.refs b index
      have same := count b index
      have used : uses s' b ≠ 0 := by
        intro gone
        apply strict
        rw [← at']
        exact orphans b index (by omega) gone
      rw [itable]
      omega
  · intro b bound
    rw [itable, table.refs b bound]
    exact (count b bound).symm
  · rw [disk, log, journal]
    exact inv.logs

theorem FsInv.refile_same (inv : FsInv sb held loose s) (only : OnlyUses s s')
    (files : FilesInv sb s') (same : ∀ b, uses s' b = uses s b) : FsInv sb held loose s' := by
  refine inv.refile only files (fun b _ => by rw [same b]) ?_ ?_ fun _ old => old
  · intro b _ some none
    rw [same b] at some
    omega
  · intro b _ some none
    rw [same b] at none
    omega

end Refile

/-! ## Counting -/

section Counting
variable {s : FsState} {f p b : Nat} {ff : File} {files : Option ProcFiles}

/-- What a file counts for entry `b`. -/
def File.weight (ff : File) (b : Nat) : Nat := if ff.onInode ∧ ff.ip = b then 1 else 0

def cwdWeight (files : Option ProcFiles) (b : Nat) : Nat :=
  if files.map ProcFiles.cwd = some b then 1 else 0

theorem uses_setFile (bound : f < NFILE) (ff : File) (s : FsState) (b : Nat) :
    uses (setFile f ff s) b + (s.ftable f).weight b = uses s b + ff.weight b := by
  have change : fileUses (upd s.ftable f ff) b + (s.ftable f).weight b =
      fileUses s.ftable b + ff.weight b := by
    have counts := count_change (p := fun g => (s.ftable g).onInode ∧ (s.ftable g).ip = b)
      (q := fun g => (upd s.ftable f ff g).onInode ∧ (upd s.ftable f ff g).ip = b) NFILE bound
      (fun g _ differ => by rw [upd_of_ne differ])
    simp only [upd_self] at counts
    exact counts
  have after : uses (setFile f ff s) b = fileUses (upd s.ftable f ff) b + cwdUses s.proc b := rfl
  have before : uses s b = fileUses s.ftable b + cwdUses s.proc b := rfl
  omega

theorem uses_setProc (bound : p < NPROC) (files : Option ProcFiles) (s : FsState) (b : Nat) :
    uses (setProc p files s) b + cwdWeight (s.proc p) b = uses s b + cwdWeight files b := by
  have change : cwdUses (upd s.proc p files) b + cwdWeight (s.proc p) b =
      cwdUses s.proc b + cwdWeight files b := by
    have counts := count_change (p := fun q => (s.proc q).map ProcFiles.cwd = some b)
      (q := fun q => (upd s.proc p files q).map ProcFiles.cwd = some b) NPROC bound
      (fun q _ differ => by rw [upd_of_ne differ])
    simp only [upd_self] at counts
    exact counts
  have after : uses (setProc p files s) b = fileUses s.ftable b + cwdUses (upd s.proc p files) b := rfl
  have before : uses s b = fileUses s.ftable b + cwdUses s.proc b := rfl
  omega

theorem File.weight_of_not (not : ¬ ff.onInode) (b : Nat) : ff.weight b = 0 :=
  if_neg fun both => not both.1

theorem File.weight_of_on (on : ff.onInode) (b : Nat) : ff.weight b = if ff.ip = b then 1 else 0 := by
  simp [File.weight, on]

theorem bump_apply (held : Nat → Nat) (a b : Nat) :
    bump held a b = held b + if a = b then 1 else 0 := by
  by_cases here : b = a
  · rw [here, if_pos rfl]
    exact upd_self _ _ _
  · rw [if_neg (Ne.symm here)]
    exact upd_of_ne here _ _

end Counting

/-! ## Files -/

section Files
variable {sb : Superblock} {held : Nat → Nat} {loose : Nat → Prop} {s : FsState} {f a : Nat}

theorem FilesInv.setFile (files : FilesInv sb s) (f : Nat) {ff : File}
    (closed : ff.ref = 0 → ff.type = .none) (opened : ff.onInode → ff.ip < NINODE)
    (writes : ff.onInode → ff.type = .inode → ff.writable = true →
      (dinode sb s.disk (s.itable ff.ip).inum).type = T_FILE) :
    FilesInv sb (setFile f ff s) := by
  have cases' : ∀ g, (Fs.setFile f ff s).ftable g = ff ∨ (Fs.setFile f ff s).ftable g = s.ftable g := by
    intro g
    by_cases here : g = f
    · rw [here]
      exact Or.inl (upd_self _ _ _)
    · exact Or.inr (upd_of_ne here _ _)
  refine ⟨?_, ?_, ?_, files.procs⟩
  · intro g index
    rcases cases' g with new | old
    · rw [new]
      exact closed
    · rw [old]
      exact files.closed g index
  · intro g index on
    rcases cases' g with new | old
    · rw [new] at on ⊢
      exact opened on
    · rw [old] at on ⊢
      exact files.opened g index on
  · intro g index on type write
    rcases cases' g with new | old
    · rw [new] at on type write ⊢
      exact writes on type write
    · rw [old] at on type write ⊢
      exact files.writes g index on type write

theorem FsInv.setFile_same (inv : FsInv sb held loose s) (bound : f < NFILE) {ff : File}
    (closed : ff.ref = 0 → ff.type = .none) (same : ff.onInode ↔ (s.ftable f).onInode)
    (ip : ff.onInode → ff.ip = (s.ftable f).ip) (kind : ff.onInode → ff.type = (s.ftable f).type)
    (writable : ff.onInode → ff.writable = (s.ftable f).writable) :
    FsInv sb held loose (setFile f ff s) := by
  have weight : ∀ b, ff.weight b = (s.ftable f).weight b := by
    intro b
    by_cases on : ff.onInode
    · rw [File.weight_of_on on, File.weight_of_on (same.mp on), ip on]
    · rw [File.weight_of_not on, File.weight_of_not fun old => on (same.mpr old)]
  refine inv.refile_same rfl (inv.files.setFile f closed ?_ ?_) ?_
  · intro on
    rw [ip on]
    exact inv.files.opened f bound (same.mp on)
  · intro on type write
    rw [kind on] at type
    rw [writable on] at write
    rw [ip on]
    exact inv.files.writes f bound (same.mp on) type write
  · intro b
    have count := uses_setFile bound ff s b
    rw [weight b] at count
    omega

theorem FsInv.closeFile (inv : FsInv sb held loose s) (bound : f < NFILE) {ff : File}
    (open' : (s.ftable f).onInode) (gone : ff.ref = 0) (type : ff.type = .none) :
    FsInv sb (bump held (s.ftable f).ip)
      (fun i => loose i ∨ i = (s.itable (s.ftable f).ip).inum) (setFile f ff s) := by
  have not : ¬ ff.onInode := by
    rintro ⟨pos, -⟩
    omega
  have count : ∀ b, uses (setFile f ff s) b + (if (s.ftable f).ip = b then 1 else 0) = uses s b := by
    intro b
    have change := uses_setFile bound ff s b
    rw [File.weight_of_not not, File.weight_of_on open'] at change
    omega
  refine inv.refile rfl (inv.files.setFile f (fun _ => type) (fun on => absurd on not)
    fun on => absurd on not) ?_ ?_ ?_ fun _ old => Or.inl old
  · intro b _
    rw [bump_apply]
    have change := count b
    omega
  · intro b _ some none
    have change := count b
    omega
  · intro b _ some none
    have change := count b
    by_cases here : (s.ftable f).ip = b
    · rw [here]
      exact Or.inr rfl
    · rw [if_neg here] at change
      omega

theorem FsInv.openFile (inv : FsInv sb (bump held a) loose s) (bound : f < NFILE) {ff : File}
    (free : ¬ (s.ftable f).onInode) (on : ff.onInode) (ip : ff.ip = a) (index : a < NINODE)
    (alloc : (dinode sb s.disk (s.itable a).inum).type ≠ 0)
    (writes : ff.type = .inode → ff.writable = true →
      (dinode sb s.disk (s.itable a).inum).type = T_FILE) :
    FsInv sb held loose (setFile f ff s) := by
  have count : ∀ b, uses (setFile f ff s) b = uses s b + if a = b then 1 else 0 := by
    intro b
    have change := uses_setFile bound ff s b
    rw [File.weight_of_not free, File.weight_of_on on, ip] at change
    omega
  have pos := on.1
  refine inv.refile rfl (inv.files.setFile f (fun none => by omega) (fun _ => by rw [ip]; exact index)
    fun _ => by rw [ip]; exact writes) ?_ ?_ ?_ fun _ old => old
  · intro b _
    rw [count b, bump_apply]
    omega
  · intro b _ some none
    rw [count b, none] at some
    by_cases here : a = b
    · rw [← here]
      exact alloc
    · rw [if_neg here] at some
      omega
  · intro b _ some none
    rw [count b] at none
    omega

end Files

/-! ## Processes -/

section Procs
variable {sb : Superblock} {held held' : Nat → Nat} {loose loose' : Nat → Prop} {s : FsState}
  {p : Nat} {new : Option ProcFiles}

def ProcFiles.Ok (files : ProcFiles) : Prop :=
  files.cwd < NINODE ∧ ∀ fd f, files.ofile fd = some f → f < NFILE

theorem FilesInv.setProc (files : FilesInv sb s) (bound : p < NPROC)
    (ok : ∀ held, new = some held → held.Ok) : FilesInv sb (setProc p new s) := by
  refine ⟨files.closed, files.opened, files.writes, ?_⟩
  intro q held has
  simp only [Fs.setProc] at has
  by_cases here : q = p
  · rw [here, upd_self] at has
    exact ⟨by omega, ok held has⟩
  · rw [upd_of_ne here] at has
    exact files.procs q held has

theorem FsInv.setProc_same (inv : FsInv sb held loose s) (bound : p < NPROC)
    (ok : ∀ held, new = some held → held.Ok)
    (cwd : new.map ProcFiles.cwd = (s.proc p).map ProcFiles.cwd) :
    FsInv sb held loose (setProc p new s) := by
  refine inv.refile_same rfl (inv.files.setProc bound ok) ?_
  intro b
  have count := uses_setProc bound new s b
  have same : cwdWeight new b = cwdWeight (s.proc p) b := by
    simp only [cwdWeight, cwd]
  omega

theorem FsInv.setProc (inv : FsInv sb held loose s) (bound : p < NPROC)
    (ok : ∀ held, new = some held → held.Ok)
    (shift : ∀ b, held' b + cwdWeight new b = held b + cwdWeight (s.proc p) b)
    (alive : ∀ b, b < NINODE → cwdWeight new b ≠ 0 →
      (dinode sb s.disk (s.itable b).inum).type ≠ 0)
    (orphans : ∀ b, cwdWeight (s.proc p) b ≠ 0 → loose' (s.itable b).inum)
    (wider : ∀ i, loose i → loose' i) : FsInv sb held' loose' (setProc p new s) := by
  refine inv.refile rfl (inv.files.setProc bound ok) ?_ ?_ ?_ wider
  · intro b _
    have count := uses_setProc bound new s b
    have moved := shift b
    omega
  · intro b index some none
    have count := uses_setProc bound new s b
    exact alive b index (by omega)
  · intro b _ some none
    have count := uses_setProc bound new s b
    exact orphans b (by omega)

theorem cwdWeight_some (files : ProcFiles) (b : Nat) :
    cwdWeight (some files) b = if files.cwd = b then 1 else 0 := by
  simp [cwdWeight]

theorem cwdWeight_none (b : Nat) : cwdWeight none b = 0 := rfl

end Procs

end Xv6Fcfs.Fs
