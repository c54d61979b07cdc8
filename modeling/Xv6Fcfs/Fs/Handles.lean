import Xv6Fcfs.Fs.Calls
import Xv6Fcfs.Fs.Reclaim

/-!
# The calls and the open files

Most of the file system does not touch the file table, but for the offsets, or the
descriptors of processes: `Keeps` is closed under the constructs of programs.  What the calls
on paths and descriptors do to them is one of three things, `HandleEffect`.
-/

set_option autoImplicit false

namespace Xv6Fcfs.Fs

open Xv6Fcfs.Lib

def File.bare (ff : File) : File := { ff with off := 0 }

structure Handles where
  file : Nat → File
  proc : Nat → Option ProcFiles

def handles (s : FsState) : Handles := ⟨fun f => (s.ftable f).bare, s.proc⟩

/-- The program leaves the open files and the processes alone. -/
def Keeps {α : Type} (m : FsM α) : Prop :=
  ∀ s, wp m (fun _ => True) (fun _ s' => handles s' = handles s) s

namespace Keeps
variable {α β : Type}

theorem pure (a : α) : Keeps (pure a : FsM α) := fun _ => rfl

theorem throw (e : Stop) : Keeps (throw e : FsM α) := fun _ => trivial

theorem bind {m : FsM α} {f : α → FsM β} (first : Keeps m) (rest : ∀ a, Keeps (f a)) :
    Keeps (m >>= f) := by
  intro s
  refine wp_seq (first s) ?_
  intro a s' same
  refine wp_post (rest a s') ?_
  intro _ s'' same'
  exact same'.trans same

theorem get : Keeps (get : FsM FsState) := fun _ => rfl

theorem modify {g : FsState → FsState} (same : ∀ s, handles (g s) = handles s) :
    Keeps (modify g : FsM Unit) := fun s => same s

theorem ite {c : Prop} [Decidable c] {m m' : FsM α} (yes : Keeps m) (no : Keeps m') :
    Keeps (if c then m else m') := by
  split
  · exact yes
  · exact no

theorem onInode (ip : Nat) (m : InodeM α) : Keeps (onInode ip m) := by
  intro s
  rw [Fs.onInode, wp_zoom]
  exact wp_intro (fun _ _ _ => rfl) fun _ _ => trivial

theorem changeInode (sb : Superblock) (ip : Nat) (change : Dinode → Dinode) :
    Keeps (changeInode sb ip change) := onInode ip _

theorem iget (inum : Nat) : Keeps (iget inum) := by
  intro s
  rw [Fs.iget, wp_bind, wp_get]
  split
  · exact rfl
  · exact rfl
  · trivial

theorem idup (ip : Nat) : Keeps (idup ip) := fun _ => rfl

theorem ilock (sb : Superblock) (ip : Nat) : Keeps (ilock sb ip) := by
  intro s
  simp only [Fs.ilock, wp_bind, wp_get, wp_ite, wp_throw, wp_set, wp_pure]
  exact ⟨fun _ => trivial, fun _ => ⟨fun _ => trivial, fun _ => ⟨fun _ => rfl,
    fun _ => ⟨fun _ => trivial, fun _ => rfl⟩⟩⟩⟩

theorem iunlock (ip : Nat) : Keeps (iunlock ip) := by
  intro s
  simp only [Fs.iunlock, wp_bind, wp_get, wp_ite, wp_throw, wp_set]
  exact ⟨fun _ => trivial, fun _ => rfl⟩

theorem iputFree (sb : Superblock) (ip : Nat) : Keeps (iputFree sb ip) :=
  (onInode ip _).bind fun _ => (onInode ip _).bind fun _ => (onInode ip _).bind fun _ =>
    modify fun _ => rfl

theorem iput (sb : Superblock) (ip : Nat) : Keeps (iput sb ip) := by
  refine get.bind fun s => ?_
  simp only
  split
  · split
    · exact (throw _).bind fun _ => modify fun _ => rfl
    · exact (iputFree sb ip).bind fun _ => modify fun _ => rfl
  · exact modify fun _ => rfl

theorem iunlockput (sb : Superblock) (ip : Nat) : Keeps (iunlockput sb ip) :=
  (iunlock ip).bind fun _ => iput sb ip

theorem ialloc (sb : Superblock) (type : Nat) : Keeps (ialloc sb type) := by
  intro s
  rw [Fs.ialloc, wp_bind, wp_get]
  split
  · exact rfl
  · rw [wp_bind, wp_set, wp_bind]
    exact wp_post (iget _ _) fun _ _ same => same

theorem dirlookupLoop (sb : Superblock) (dp : Nat) (name : Bytes) :
    ∀ fuel off, Keeps (dirlookupLoop sb dp name fuel off) := by
  intro fuel
  induction fuel with
  | zero => intro off; exact pure none
  | succ fuel ih =>
      intro off
      refine get.bind fun s => ite ((onInode dp _).bind fun r => ?_) (pure none)
      refine ite (throw _) (ite (ih _) (ite ?_ (ih _)))
      exact (iget _).bind fun ip => pure _

theorem dirlookup (sb : Superblock) (dp : Nat) (name : Bytes) : Keeps (dirlookup sb dp name) :=
  get.bind fun _ => ite (throw _) (dirlookupLoop sb dp name _ _)

theorem emptyDirent (sb : Superblock) (dp : Nat) : ∀ fuel off, Keeps (emptyDirent sb dp fuel off) := by
  intro fuel
  induction fuel with
  | zero => intro off; exact pure off
  | succ fuel ih =>
      intro off
      refine get.bind fun s => ite ((onInode dp _).bind fun r => ?_) (pure off)
      exact ite (throw _) (ite (pure off) (ih _))

theorem dirlink (sb : Superblock) (dp : Nat) (name : Bytes) (inum : Nat) :
    Keeps (dirlink sb dp name inum) := by
  refine (dirlookup sb dp name).bind fun found => ?_
  split
  · exact (iput sb _).bind fun _ => pure false
  · refine get.bind fun s => (emptyDirent sb dp _ _).bind fun off => (onInode dp _).bind fun r => ?_
    exact ite (pure false) ((modify fun _ => rfl).bind fun _ => pure true)

theorem isdirempty (sb : Superblock) (dp : Nat) : Keeps (isdirempty sb dp) := by
  have loop : ∀ fuel off, Keeps (isdiremptyLoop sb dp fuel off) := by
    intro fuel
    induction fuel with
    | zero => intro off; exact pure true
    | succ fuel ih =>
        intro off
        refine get.bind fun s => ite ((onInode dp _).bind fun r => ?_) (pure true)
        exact ite (throw _) (ite (pure false) (ih _))
  exact get.bind fun _ => loop _ _

theorem namexLoop (sb : Superblock) (parent : Bool) :
    ∀ fuel ip path, Keeps (namexLoop sb parent fuel ip path) := by
  intro fuel
  induction fuel with
  | zero => intro ip path; exact pure none
  | succ fuel ih =>
      intro ip path
      rw [Fs.namexLoop]
      split
      · exact ite ((iput sb ip).bind fun _ => pure none) (pure _)
      · refine (ilock sb ip).bind fun _ => get.bind fun s => ite ?_ (ite ?_ ?_)
        · exact (iunlockput sb ip).bind fun _ => pure none
        · exact (iunlock ip).bind fun _ => pure _
        · refine (dirlookup sb ip _).bind fun found => ?_
          split
          · exact (iunlockput sb ip).bind fun _ => pure none
          · exact (iunlockput sb ip).bind fun _ => ih _ _

theorem namex (sb : Superblock) (cwd : Nat) (path : Path) (parent : Bool) :
    Keeps (namex sb cwd path parent) := by
  rw [Fs.namex]
  split
  · exact (iget _).bind fun ip => namexLoop sb parent _ ip path
  · exact (idup _).bind fun ip => namexLoop sb parent _ ip path

theorem namei (sb : Superblock) (cwd : Nat) (path : Path) : Keeps (namei sb cwd path) :=
  (namex sb cwd path false).bind fun _ => pure _

theorem nameiparent (sb : Superblock) (cwd : Nat) (path : Path) : Keeps (nameiparent sb cwd path) :=
  namex sb cwd path true

theorem beginOp : Keeps beginOp := fun _ => rfl

theorem endOp : Keeps endOp := fun _ => rfl

theorem transaction {m : FsM α} (keeps : Keeps m) : Keeps (transaction m) :=
  beginOp.bind fun _ => keeps.bind fun _ => endOp.bind fun _ => pure _

theorem createExisting (sb : Superblock) (dp ip type : Nat) : Keeps (createExisting sb dp ip type) :=
  (iunlockput sb dp).bind fun _ => (ilock sb ip).bind fun _ => get.bind fun _ =>
    ite (pure _) ((iunlockput sb ip).bind fun _ => pure none)

theorem createEntries (sb : Superblock) (dp ip : Nat) (name : Bytes) (type : Nat) :
    Keeps (createEntries sb dp ip name type) := by
  refine get.bind fun s => ite ?_ (dirlink sb dp name _)
  refine (dirlink sb ip dot _).bind fun ok => ite ?_ (pure false)
  exact (dirlink sb ip dotdot _).bind fun ok => ite (dirlink sb dp name _) (pure false)

theorem createNew (sb : Superblock) (dp : Nat) (name : Bytes) (type major minor : Nat) :
    Keeps (createNew sb dp name type major minor) := by
  refine (ialloc sb type).bind fun found => ?_
  split
  · exact (iunlockput sb dp).bind fun _ => pure none
  · rename_i ip
    refine (ilock sb ip).bind fun _ => (changeInode sb ip _).bind fun _ =>
      (createEntries sb dp ip name type).bind fun ok => ite ?_ ?_
    · simp only
      split
      · exact (changeInode sb dp _).bind fun _ => (iunlockput sb dp).bind fun _ => pure _
      · exact (iunlockput sb dp).bind fun _ => pure _
    · exact (changeInode sb ip _).bind fun _ => (iunlockput sb ip).bind fun _ =>
        (iunlockput sb dp).bind fun _ => pure none

theorem create (sb : Superblock) (cwd : Nat) (path : Path) (type major minor : Nat) :
    Keeps (create sb cwd path type major minor) := by
  refine (nameiparent sb cwd path).bind fun found => ?_
  split
  · exact pure none
  · rename_i dp name
    refine (ilock sb dp).bind fun _ => (dirlookup sb dp name).bind fun found => ?_
    split
    · exact createExisting sb dp _ type
    · exact createNew sb dp name type major minor

theorem linkBad (sb : Superblock) (ip : Nat) : Keeps (linkBad sb ip) :=
  (ilock sb ip).bind fun _ => (changeInode sb ip _).bind fun _ =>
    (iunlockput sb ip).bind fun _ => pure _

theorem sysLink (sb : Superblock) (cwd : Nat) (old new : Path) : Keeps (sysLink sb cwd old new) := by
  refine (namei sb cwd old).bind fun found => ?_
  split
  · exact pure _
  · rename_i ip
    refine (ilock sb ip).bind fun _ => get.bind fun s =>
      ite ((iunlockput sb ip).bind fun _ => pure _) ?_
    refine (changeInode sb ip _).bind fun _ => (iunlock ip).bind fun _ =>
      (nameiparent sb cwd new).bind fun found => ?_
    split
    · exact linkBad sb ip
    · rename_i dp name
      refine (ilock sb dp).bind fun _ => (dirlink sb dp name _).bind fun ok => ite ?_ ?_
      · exact (iunlockput sb dp).bind fun _ => (iput sb ip).bind fun _ => pure _
      · exact (iunlockput sb dp).bind fun _ => linkBad sb ip

theorem unlinkEntry (sb : Superblock) (dp ip off : Nat) : Keeps (unlinkEntry sb dp ip off) := by
  have last : Keeps (do
      Fs.iunlockput sb dp
      Fs.changeInode sb ip fun d => { d with nlink := (d.nlink + (2 ^ 16 - 1)) % 2 ^ 16 }
      Fs.iunlockput sb ip
      return (0 : Int)) :=
    (iunlockput sb dp).bind fun _ => (changeInode sb ip _).bind fun _ =>
      (iunlockput sb ip).bind fun _ => pure _
  have busy : Keeps (do
      Fs.iunlockput sb ip
      Fs.iunlockput sb dp
      return (-1 : Int)) :=
    (iunlockput sb ip).bind fun _ => (iunlockput sb dp).bind fun _ => pure _
  refine get.bind fun s => ite (throw _) ?_
  simp only
  split
  · refine (isdirempty sb ip).bind fun empty => ite busy ((onInode dp _).bind fun r => ite (throw _) ?_)
    exact (changeInode sb dp _).bind fun _ => last
  · refine (pure true).bind fun empty => ite busy ((onInode dp _).bind fun r => ite (throw _) ?_)
    exact last

theorem sysUnlink (sb : Superblock) (cwd : Nat) (path : Path) : Keeps (sysUnlink sb cwd path) := by
  refine (nameiparent sb cwd path).bind fun found => ?_
  split
  · exact pure _
  · rename_i dp name
    refine (ilock sb dp).bind fun _ => ite ((iunlockput sb dp).bind fun _ => pure _) ?_
    refine (dirlookup sb dp name).bind fun found => ?_
    split
    · exact (iunlockput sb dp).bind fun _ => pure _
    · exact (ilock sb _).bind fun _ => unlinkEntry sb dp _ _

theorem makeNode (sb : Superblock) (cwd : Nat) (path : Path) (type major minor : Nat) :
    Keeps (makeNode sb cwd path type major minor) := by
  refine (create sb cwd path type major minor).bind fun found => ?_
  split
  · exact pure _
  · exact (iunlockput sb _).bind fun _ => pure _

theorem chdirLookup (sb : Superblock) (cwd : Nat) (path : Path) : Keeps (chdirLookup sb cwd path) := by
  refine (namei sb cwd path).bind fun found => ?_
  split
  · exact pure none
  · rename_i ip
    refine (ilock sb ip).bind fun _ => get.bind fun s => ite ?_ ?_
    · exact (iunlockput sb ip).bind fun _ => pure none
    · exact (iunlock ip).bind fun _ => (iput sb cwd).bind fun _ => pure _

theorem openExisting (sb : Superblock) (cwd : Nat) (path : Path) (omode : Nat) :
    Keeps (openExisting sb cwd path omode) := by
  refine (namei sb cwd path).bind fun found => ?_
  split
  · exact pure none
  · rename_i ip
    exact (ilock sb ip).bind fun _ => get.bind fun s =>
      ite ((iunlockput sb ip).bind fun _ => pure none) (pure _)

theorem advance (f : Nat) (r : Int) :
    Keeps (MonadState.modifyGet fun s => ((), Fs.advance f r s) : FsM Unit) := by
  refine modify fun s => ?_
  rw [Fs.advance]
  split
  · refine congrArg (Handles.mk · s.proc) (funext fun g => ?_)
    simp only [setFile]
    by_cases here : g = f
    · rw [here, upd_self]
      rfl
    · rw [upd_of_ne here]
  · rfl

theorem fileread (sb : Superblock) (f : Nat) (writable : Nat → Bool) (n io : Int) :
    Keeps (fileread sb f writable n io) := by
  refine get.bind fun s => ite (pure _) ?_
  split
  · exact pure _
  · exact pure _
  · exact (ilock sb _).bind fun _ => (onInode _ _).bind fun r => (advance f _).bind fun _ =>
      (iunlock _).bind fun _ => pure _
  · exact throw _

theorem filewriteLoop (sb : Superblock) (f : Nat) (src : Nat → Option UInt8) (n : Nat) :
    ∀ fuel i, Keeps (filewriteLoop sb f src n fuel i) := by
  intro fuel
  induction fuel with
  | zero => intro i; exact pure i
  | succ fuel ih =>
      intro i
      refine ite (bind (transaction ?_) fun r => ite (pure _) (ih _)) (pure _)
      exact get.bind fun s => (ilock sb _).bind fun _ => (onInode _ _).bind fun r =>
        (advance f _).bind fun _ => (iunlock _).bind fun _ => pure _

theorem filewrite (sb : Superblock) (f : Nat) (src : Nat → Option UInt8) (n io : Int) :
    Keeps (filewrite sb f src n io) := by
  refine get.bind fun s => ite (pure _) ?_
  split
  · exact pure _
  · exact pure _
  · exact (filewriteLoop sb f src _ _ _).bind fun i => ite (pure _) (pure _)
  · exact throw _

theorem forFrom {m : Nat → FsM Unit} (keeps : ∀ i, Keeps (m i)) : ∀ n lo, Keeps (forFrom m lo n) := by
  intro n
  induction n with
  | zero => exact fun lo => pure ()
  | succ n ih => exact fun lo => (keeps lo).bind fun _ => ih (lo + 1)

theorem ireclaim (sb : Superblock) : Keeps (ireclaim sb) := by
  refine forFrom (fun inum => ?_) _ _
  refine get.bind fun s => ite ((iget inum).bind fun ip => transaction ?_) (pure ())
  exact (ilock sb ip).bind fun _ => (iunlock ip).bind fun _ => iput sb ip

end Keeps

/-! ## What a call does to them -/

/-- Calls that close no file and touch no process but their own. -/
def Call.plain : Call → Prop
  | .exec _ _ _ => False
  | .close _ => False
  | .fork _ => False
  | .exit => False
  | _ => True

/-- The descriptor `fd` of process `p`, which was free, is `f` now. -/
structure FdGiven (p f fd : Nat) (h h' : Handles) : Prop where
  bound : fd < NOFILE
  free : ∃ files, h.proc p = some files ∧ files.ofile fd = none ∧
    h'.proc = upd h.proc p (some { files with ofile := upd files.ofile fd (some f) })

/-- What a call of process `p` does to the open files. -/
inductive HandleEffect (p : Nat) (h h' : Handles) : Prop where
  | same (files : h'.file = h.file)
      (fds : ∀ i, (h'.proc i).map ProcFiles.ofile = (h.proc i).map ProcFiles.ofile)
  | opened (f fd : Nat) (ff : File) (bound : f < NFILE) (closed : (h.file f).ref = 0) (ref : ff.ref = 1)
      (type : ff.type = .inode ∨ ff.type = .device) (file : h'.file = upd h.file f ff)
      (given : FdGiven p f fd h h')
  | dup (f fd fd0 : Nat) (old : fd0 < NOFILE)
      (holds : ∃ files, h.proc p = some files ∧ files.ofile fd0 = some f) (pos : 0 < (h.file f).ref)
      (file : h'.file = upd h.file f { h.file f with ref := (h.file f).ref + 1 })
      (given : FdGiven p f fd h h')

section Effects
variable {sb : Superblock} {s s' : FsState} {p f : Nat} {files : ProcFiles}

theorem HandleEffect.refl (p : Nat) (h : Handles) : HandleEffect p h h := .same rfl fun _ => rfl

theorem HandleEffect.of_keeps (same : handles s' = handles s) :
    HandleEffect p (handles s) (handles s') := by
  rw [same]
  exact .refl p _

theorem Keeps.effect {α : Type} {m : FsM α} (keeps : Keeps m) :
    wp m (fun _ => True) (fun _ s' => HandleEffect p (handles s) (handles s')) s :=
  wp_post (keeps s) fun _ _ same => .of_keeps same

theorem closeOnce_last {ftable : Nat → File} (last : ¬ 1 < (ftable f).ref) :
    closeOnce ftable f = upd ftable f { ftable f with ref := 0, type := .none } := by
  rw [closeOnce, if_neg last]

theorem fileclose_files (sb : Superblock) (f : Nat) (s : FsState) :
    wp (fileclose sb f) (fun _ => True) (fun _ s' => 0 < (s.ftable f).ref ∧
      handles s' = ⟨fun g => (closeOnce s.ftable f g).bare, s.proc⟩) s := by
  simp only [fileclose, wp_bind, wp_get, wp_ite, wp_throw, wp_set, wp_pure]
  refine ⟨fun _ => trivial, fun pos => ⟨fun more => ?_, fun one => ⟨fun _ => ?_, fun _ => ?_⟩⟩⟩
  · refine ⟨by omega, ?_⟩
    simp only [handles, setFile, closeOnce, if_pos more]
  · refine wp_post ((Keeps.iput sb _).transaction _) ?_
    intro _ s' same
    refine ⟨by omega, same.trans ?_⟩
    simp only [handles, setFile, closeOnce, if_neg one]
  · refine ⟨by omega, ?_⟩
    simp only [handles, setFile, closeOnce, if_neg one]

theorem setFd_eq (proc : s.proc p = some files) (fd : Nat) (new : Option Nat) :
    setFd p fd new s = setProc p (some { files with ofile := upd files.ofile fd new }) s := by
  simp only [setFd, proc]

theorem openInode_handles (proc : s.proc p = some files)
    (closed : ∀ f, f < NFILE → (s.ftable f).ref = 0 → (s.ftable f).type = .none) (ip omode : Nat) :
    wp (openInode sb p files ip omode) (fun _ => True)
      (fun _ s' => HandleEffect p (handles s) (handles s')) s := by
  have undone : ∀ {t : FsState}, handles t = handles s →
      wp (do Fs.iunlockput sb ip; return (-1 : Int)) (fun _ => True)
        (fun _ s' => HandleEffect p (handles s) (handles s')) t := by
    intro t same
    refine wp_post (((Keeps.iunlockput sb ip).bind fun _ => Keeps.pure _) t) ?_
    intro _ s' back
    exact .of_keeps (back.trans same)
  rw [openInode, wp_bind, wp_get]
  simp only [wp_ite]
  refine ⟨fun _ => undone rfl, fun _ => ?_⟩
  rw [filealloc, wp_bind, wp_bind, wp_get]
  cases found : freeFile s.ftable 0 NFILE with
  | none => exact undone rfl
  | some f =>
      obtain ⟨-, bound, free⟩ := freeFile_some _ _ _ found
      rw [Nat.zero_add] at bound
      simp only [wp_bind, wp_set, wp_pure, fdalloc]
      cases slot : freeFd files.ofile 0 NOFILE with
      | none =>
          simp only [wp_pure, wp_bind]
          refine wp_post (fileclose_files sb f _) ?_
          rintro _ t ⟨-, same⟩
          have back : handles t = handles s := by
            rw [same, closeOnce_last (by simp [setFile])]
            refine congrArg (Handles.mk · s.proc) (funext fun g => ?_)
            simp only [setFile]
            by_cases here : g = f
            · rw [here, upd_self, upd_self]
              simp only [File.bare]
              rw [free, closed f bound free]
            · rw [upd_of_ne here, upd_of_ne here]
          exact wp_bind _ _ |>.mp (undone back)
      | some fd =>
          obtain ⟨-, boundFd, freeFd⟩ := freeFd_some _ _ _ slot
          rw [Nat.zero_add] at boundFd
          simp only [wp_bind, wp_modify, wp_pure]
          set opened := setFile f (openedFile (s.itable ip).din ip omode
            ((setFd p fd (some f) (setFile f { s.ftable f with ref := 1 } s)).ftable f))
            (setFd p fd (some f) (setFile f { s.ftable f with ref := 1 } s)) with def'
          have last : Keeps (do Fs.iunlock ip; return (fd : Int)) :=
            (Keeps.iunlock ip).bind fun _ => Keeps.pure _
          refine wp_post (Keeps.ite ((Keeps.onInode ip _).bind fun _ => last) last opened) ?_
          intro _ s' same
          have middle := setFd_eq (s := setFile f { s.ftable f with ref := 1 } s) proc fd (some f)
          rw [middle] at def'
          have mine : (handles opened).file = upd (handles s).file f
              (openedFile (s.itable ip).din ip omode { s.ftable f with ref := 1 }).bare := by
            funext g
            rw [def']
            simp only [handles, setFile, setProc]
            by_cases here : g = f
            · rw [here, upd_self, upd_self, upd_self]
            · rw [upd_of_ne here, upd_of_ne here, upd_of_ne here]
          rw [same]
          refine .opened f fd _ bound free rfl ?_ mine ⟨boundFd, files, proc, freeFd, ?_⟩
          · simp only [File.bare, openedFile]
            split
            · exact Or.inr rfl
            · exact Or.inl rfl
          · rw [def']
            rfl

theorem sysOpen_handles (proc : s.proc p = some files)
    (closed : ∀ f, f < NFILE → (s.ftable f).ref = 0 → (s.ftable f).type = .none) (path : Path)
    (omode : Nat) :
    wp (sysOpen sb p files path omode) (fun _ => True)
      (fun _ s' => HandleEffect p (handles s) (handles s')) s := by
  have opened : ∀ (ip : Nat) (t : FsState), handles t = handles s → wp (openInode sb p files ip omode)
      (fun _ => True) (fun _ s' => HandleEffect p (handles s) (handles s')) t := by
    intro ip t same
    have procs : t.proc = s.proc := congrArg Handles.proc same
    rw [← same]
    refine openInode_handles (by rw [procs]; exact proc) ?_ ip omode
    intro f bound free
    have bare := congrFun (congrArg Handles.file same) f
    exact (congrArg File.type bare).trans (closed f bound ((congrArg File.ref bare).symm.trans free))
  rw [sysOpen]
  split
  · refine wp_seq (Keeps.create sb _ path T_FILE 0 0 s) ?_
    intro found t same
    cases found with
    | none => exact .of_keeps same
    | some ip => exact opened ip t same
  · refine wp_seq (Keeps.openExisting sb _ path omode s) ?_
    intro found t same
    cases found with
    | none => exact .of_keeps same
    | some ip => exact opened ip t same

theorem sysDup_handles (proc : s.proc p = some files) (fd : Int) :
    wp (sysDup p files fd) (fun _ => True) (fun _ s' => HandleEffect p (handles s) (handles s')) s := by
  unfold sysDup
  cases found : argfd files fd with
  | none => exact .of_keeps rfl
  | some f =>
      have place : fd.toNat < NOFILE ∧ files.ofile fd.toNat = some f := by
        unfold argfd at found
        split at found
        next => cases found
        next inside => exact ⟨by omega, found⟩
      simp only [fdalloc, wp_bind]
      cases slot : freeFd files.ofile 0 NOFILE with
      | none => exact .of_keeps rfl
      | some new =>
          obtain ⟨-, boundFd, free⟩ := freeFd_some _ _ _ slot
          rw [Nat.zero_add] at boundFd
          simp only [wp_bind, wp_modify, wp_pure, filedup, wp_get, wp_ite, wp_throw, wp_set]
          rw [setFd_eq proc]
          refine ⟨fun _ => trivial, fun pos => ?_⟩
          have pos' : 0 < (s.ftable f).ref := Nat.lt_of_not_le fun no => pos (Nat.lt_succ_of_le no)
          refine .dup f new fd.toNat place.1 ⟨files, proc, place.2⟩ pos' ?_
            ⟨boundFd, files, proc, free, rfl⟩
          funext g
          simp only [handles, setFile, setProc]
          by_cases here : g = f
          · rw [here, upd_self, upd_self]
            rfl
          · rw [upd_of_ne here, upd_of_ne here]

theorem sysChdir_handles (proc : s.proc p = some files) (path : Path) :
    wp (sysChdir sb p files path) (fun _ => True)
      (fun _ s' => HandleEffect p (handles s) (handles s')) s := by
  rw [sysChdir]
  refine wp_seq ((Keeps.chdirLookup sb files.cwd path).transaction s) ?_
  intro found t same
  cases found with
  | none => exact .of_keeps same
  | some ip =>
      simp only [wp_bind, wp_modify, wp_pure]
      have procs : t.proc = s.proc := congrArg Handles.proc same
      have bares : (handles t).file = (handles s).file := congrArg Handles.file same
      refine .same bares ?_
      intro i
      simp only [handles, setProc, procs]
      by_cases here : i = p
      · rw [here, upd_self, proc]
        rfl
      · rw [upd_of_ne here]

theorem runCall_handles (proc : s.proc p = some files)
    (closed : ∀ f, f < NFILE → (s.ftable f).ref = 0 → (s.ftable f).type = .none) {c : Call}
    (plain : c.plain) :
    wp (runCall sb p files c) (fun _ => True)
      (fun _ s' => HandleEffect p (handles s) (handles s')) s := by
  have empty : Keeps (transaction (return (-1 : Int))) := (Keeps.pure _).transaction
  have self := HandleEffect.refl p (handles s)
  cases c with
  | «open» path omode =>
      cases path with
      | none => exact self
      | some path =>
          rw [runCall, transaction, beginOp, wp_bind, wp_modify]
          refine wp_seq (sysOpen_handles (s := { s with log := [] }) proc closed path omode) ?_
          intro r t effect
          refine wp_post ((Keeps.endOp.bind fun _ => Keeps.pure r) t) ?_
          intro _ s' same
          rw [same]
          exact effect
  | read fd n writable io =>
      simp only [runCall, sysRead]
      cases argfd files fd with
      | none => exact self
      | some f => exact (Keeps.fileread sb f writable n io).effect
  | write fd n src io =>
      simp only [runCall, sysWrite]
      cases argfd files fd with
      | none => exact self
      | some f => exact (Keeps.filewrite sb f src n io).effect
  | mkdir path =>
      cases path with
      | none => exact empty.effect
      | some path => exact (Keeps.makeNode sb files.cwd path T_DIR 0 0).transaction.effect
  | mknod path major minor =>
      cases path with
      | none => exact empty.effect
      | some path => exact (Keeps.makeNode sb files.cwd path T_DEVICE _ _).transaction.effect
  | link old new =>
      cases old with
      | none => exact self
      | some old =>
          cases new with
          | none => exact self
          | some new => exact (Keeps.sysLink sb files.cwd old new).transaction.effect
  | unlink path =>
      cases path with
      | none => exact self
      | some path => exact (Keeps.sysUnlink sb files.cwd path).transaction.effect
  | chdir path =>
      cases path with
      | none => exact empty.effect
      | some path => exact sysChdir_handles proc path
  | dup fd => exact sysDup_handles proc fd
  | exec path reads io => exact plain.elim
  | close fd => exact plain.elim
  | fork child => exact plain.elim
  | exit => exact plain.elim

end Effects

end Xv6Fcfs.Fs
