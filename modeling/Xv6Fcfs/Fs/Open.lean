import Xv6Fcfs.Fs.Create
import Xv6Fcfs.Fs.Files

/-!
# `sys_open`

An inode that the call has found or made is given a file and a descriptor.  Without one of
these the call lets go of the inode, whether it has just made it or not.
-/

set_option autoImplicit false

namespace Xv6Fcfs.Fs

open Xv6Fcfs.Lib

section Free

theorem freeFile_some {ftable : Nat → File} : ∀ (n lo f : Nat), freeFile ftable lo n = some f →
    lo ≤ f ∧ f < lo + n ∧ (ftable f).ref = 0 := by
  intro n
  induction n with
  | zero => intro lo f found; cases found
  | succ n ih =>
      intro lo f found
      simp only [freeFile] at found
      split at found
      · rename_i free
        obtain rfl := Option.some.inj found
        exact ⟨Nat.le_refl _, by omega, free⟩
      · have rest := ih (lo + 1) f found
        exact ⟨by omega, by omega, rest.2.2⟩

theorem freeFd_some {ofile : Nat → Option Nat} : ∀ (n lo fd : Nat), freeFd ofile lo n = some fd →
    lo ≤ fd ∧ fd < lo + n ∧ ofile fd = none := by
  intro n
  induction n with
  | zero => intro lo fd found; cases found
  | succ n ih =>
      intro lo fd found
      simp only [freeFd] at found
      split at found
      · rename_i free
        obtain rfl := Option.some.inj found
        exact ⟨Nat.le_refl _, by omega, free⟩
      · have rest := ih (lo + 1) fd found
        exact ⟨by omega, by omega, rest.2.2⟩

end Free

/-- The inodes have the types of `kernel/stat.h`. -/
def Kinds (tree : Nat → Node) : Prop :=
  ∀ i, (tree i).type = 0 ∨ (tree i).type = T_DIR ∨ (tree i).type = T_FILE ∨ (tree i).type = T_DEVICE

def BadMajor (n : Node) : Prop := n.type = T_DEVICE ∧ (short n.major < 0 ∨ NDEV ≤ short n.major)

/-- The node after `itrunc`, if the mode asks for it. -/
def Node.truncated (n : Node) (omode : Nat) : Node :=
  if hasFlag omode O_TRUNC ∧ n.type = T_FILE then { n with size := 0, data := fun _ => 0 } else n

/-- The file, the descriptor and the contents after an `open` that succeeds. -/
structure Installed (sb : Superblock) (s : FsState) (p : Nat) (files : ProcFiles) (i omode : Nat)
    (r : Int) (s' : FsState) : Prop where
  inv : FsInv sb idle (fun _ => False) s'
  result : 0 ≤ r
  view : view sb s' = (view sb s).setNode i ((nodes sb s.disk i).truncated omode)
  journal : s'.journal = s.journal
  logs : Logs sb [i] 0 s s'
  uses : ∀ j, InUse s' j → InUse s j ∨ j = i
  proc : ∀ q, (s'.proc q).map ProcFiles.cwd = (s.proc q).map ProcFiles.cwd

/-- What `sys_open` leaves when it has the inode `i`. -/
def OpenResult (sb : Superblock) (s : FsState) (p : Nat) (files : ProcFiles) (i omode : Nat)
    (r : Int) (s' : FsState) : Prop :=
  (r = -1 ∧ Looked sb idle idle (fun _ => False) s s' ∧
    (BadMajor (nodes sb s.disk i) ∨ freeFile s.ftable 0 NFILE = none ∨
      freeFd files.ofile 0 NOFILE = none)) ∨
  (¬ BadMajor (nodes sb s.disk i) ∧ Installed sb s p files i omode r s')

section Install
variable {sb : Superblock} {s : FsState} {p a i omode : Nat} {files : ProcFiles}

theorem Node.truncated_same {n : Node} (not : ¬ (hasFlag omode O_TRUNC ∧ n.type = T_FILE)) :
    n.truncated omode = n := if_neg not

def withFile (s : FsState) (p : Nat) (files : ProcFiles) (a omode f fd : Nat) : FsState :=
  setFile f (openedFile (s.itable a).din a omode { s.ftable f with ref := 1 })
    (setProc p (some { files with ofile := upd files.ofile fd (some f) }) s)

theorem withFile_eq {f fd : Nat} (proc : s.proc p = some files) :
    setFile f (openedFile (s.itable a).din a omode
        ((setFd p fd (some f) (setFile f { s.ftable f with ref := 1 } s)).ftable f))
      (setFd p fd (some f) (setFile f { s.ftable f with ref := 1 } s)) =
      withFile s p files a omode f fd := by
  simp only [withFile, setFd, setFile, setProc, proc, upd_self, upd_upd]

theorem withFile_inv {f : Nat} (fd : Nat) (inv : FsInv sb (bump idle a) (fun _ => False) s)
    (on : On (bump idle a) s a) (proc : s.proc p = some files)
    (kinds : Kinds (nodes sb s.disk))
    (dirs : (nodes sb s.disk (s.itable a).inum).type = T_DIR → omode = 0)
    (free : freeFile s.ftable 0 NFILE = some f) :
    FsInv sb idle (fun _ => False) (withFile s p files a omode f fd) ∧
      ∀ b, uses (withFile s p files a omode f fd) b = uses s b + if a = b then 1 else 0 := by
  obtain ⟨-, low, unused⟩ := freeFile_some _ _ _ free
  have bound : f < NFILE := by omega
  have closed := inv.files.closed f bound unused
  obtain ⟨boundP, boundCwd, range⟩ := inv.files.procs p files proc
  have pos := inv.table.ref_of_held on.bound on.holds
  obtain ⟨cached, alloc⟩ := inv.table.cached a on.bound pos on.valid
  have type : (s.itable a).din.type = (nodes sb s.disk (s.itable a).inum).type := by
    rw [inv.node on.bound pos on.valid]
    rfl
  have closedFile : ¬ (s.ftable f).onInode := by
    rintro ⟨more, -⟩
    omega
  have opened : (openedFile (s.itable a).din a omode { s.ftable f with ref := 1 }).onInode := by
    refine ⟨Nat.one_pos, ?_⟩
    by_cases device : (s.itable a).din.type = T_DEVICE
    · exact Or.inr (if_pos device)
    · exact Or.inl (if_neg device)
  have first : FsInv sb (bump idle a) (fun _ => False)
      (setProc p (some { files with ofile := upd files.ofile fd (some f) }) s) := by
    refine inv.setProc_same boundP ?_ (by rw [proc]; rfl)
    intro held eq
    obtain rfl := Option.some.inj eq
    refine ⟨boundCwd, ?_⟩
    intro fd' g has
    simp only at has
    by_cases here : fd' = fd
    · rw [here, upd_self] at has
      obtain rfl := Option.some.inj has
      exact bound
    · rw [upd_of_ne here] at has
      exact range fd' g has
  refine ⟨first.openFile bound closedFile opened rfl on.bound ?_ ?_, ?_⟩
  · show (dinode sb s.disk (s.itable a).inum).type ≠ 0
    rw [← cached]
    exact alloc
  · intro inode writable
    have notDevice : (s.itable a).din.type ≠ T_DEVICE := by
      intro device
      simp only [openedFile, if_pos device] at inode
      cases inode
    show (dinode sb s.disk (s.itable a).inum).type = T_FILE
    rw [← cached, type]
    rw [type] at alloc notDevice
    rcases kinds (s.itable a).inum with none | dir | file | device
    · exact absurd none alloc
    · simp only [openedFile, dirs dir] at writable
      cases writable
    · exact file
    · exact absurd device notDevice
  · intro b
    have procs := uses_setProc boundP (some { files with ofile := upd files.ofile fd (some f) }) s b
    simp only [proc, cwdWeight_some] at procs
    have count := uses_setFile bound (openedFile (s.itable a).din a omode { s.ftable f with ref := 1 })
      (setProc p (some { files with ofile := upd files.ofile fd (some f) }) s) b
    rw [File.weight_of_on opened] at count
    have none : ((setProc p (some { files with ofile := upd files.ofile fd (some f) }) s).ftable
        f).weight b = 0 := File.weight_of_not closedFile b
    have target : (openedFile (s.itable a).din a omode { s.ftable f with ref := 1 }).ip = a := rfl
    rw [target] at count
    unfold withFile
    omega

theorem install_spec (geo : Geometry sb) {f : Nat} (fd : Nat)
    (inv : FsInv sb (bump idle a) (fun _ => False) s)
    (on : On (bump idle a) s a) (inum : (s.itable a).inum = i) (proc : s.proc p = some files)
    (kinds : Kinds (nodes sb s.disk)) (dirs : (nodes sb s.disk i).type = T_DIR → omode = 0)
    (free : freeFile s.ftable 0 NFILE = some f) :
    wp (do
        modify (setFd p fd (some f))
        modify fun t => setFile f (openedFile (s.itable a).din a omode (t.ftable f)) t
        if hasFlag omode O_TRUNC ∧ (s.itable a).din.type = T_FILE then onInode a (itrunc sb)
        iunlock a
        return (fd : Int))
      (fun e => e = .iunlock)
      (fun r s' => Installed sb s p files i omode r s')
      (setFile f { s.ftable f with ref := 1 } s) := by
  have pos := inv.table.ref_of_held on.bound on.holds
  have type : (s.itable a).din.type = (nodes sb s.disk i).type := by
    rw [← inum, inv.node on.bound pos on.valid]
    rfl
  obtain ⟨ready, count⟩ := withFile_inv fd inv on proc kinds (by rw [inum]; exact dirs) free
  simp only [wp_bind, wp_modify, wp_ite, wp_pure]
  rw [withFile_eq proc, type]
  have used : 0 < uses (withFile s p files a omode f fd) a := by
    rw [count a, if_pos rfl]
    omega
  have posA : 0 < ((withFile s p files a omode f fd).itable a).ref := pos
  have validA : ((withFile s p files a omode f fd).itable a).valid = true := on.valid
  have inumA : ((withFile s p files a omode f fd).itable a).inum = i := inum
  have diskA : nodes sb (withFile s p files a omode f fd).disk = nodes sb s.disk := rfl
  -- what is in use afterwards
  have inUse : ∀ {t : FsState}, (∀ b, uses t b = uses (withFile s p files a omode f fd) b) →
      (∀ b, 0 < uses (withFile s p files a omode f fd) b → b < NINODE →
        (t.itable b).inum = (s.itable b).inum) → ∀ j, InUse t j → InUse s j ∨ j = i := by
    rintro t same kept j ⟨b, index, at', more⟩
    rw [same b] at more
    rw [kept b more index] at at'
    rw [count b] at more
    by_cases here : a = b
    · rw [← at', ← here]
      exact Or.inr inum
    · rw [if_neg here] at more
      exact Or.inl ⟨b, index, at', by omega⟩
  have cwds : ∀ q, ((withFile s p files a omode f fd).proc q).map ProcFiles.cwd =
      (s.proc q).map ProcFiles.cwd := by
    intro q
    simp only [withFile, setFile, setProc]
    by_cases here : q = p
    · rw [here, upd_self, proc]
      rfl
    · rw [upd_of_ne here]
  refine ⟨fun trunc => ?_, fun keep => ?_⟩
  · apply wp_mono (itrunc_on geo ready on.bound posA validA) _ (fun e no => no.elim)
    intro _ t altered
    have effect : Effect sb idle idle (fun _ => False)
        [((withFile s p files a omode f fd).itable a).inum] 0 _ _ t := altered.effect
    apply wp_post (iunlock_looked altered.inv on.bound idle)
    rintro _ u ⟨unlocked, -, -⟩
    have whole := effect.look unlocked fun _ => Nat.le_refl _
    rw [inumA, diskA] at whole
    refine ⟨whole.inv, Int.natCast_nonneg fd, ?_, whole.journal, whole.logs, ?_, ?_⟩
    · rw [whole.view, Node.truncated, if_pos trunc]
      rfl
    · exact inUse whole.uses fun b more index => (whole.stays b index (by omega)).1
    · intro q
      rw [whole.proc]
      exact cwds q
  · apply wp_post (iunlock_looked ready on.bound idle)
    rintro _ u ⟨unlocked, -, -⟩
    refine ⟨unlocked.inv, Int.natCast_nonneg fd, ?_, unlocked.only.journal,
      Logs.of_log unlocked.only.log, ?_, ?_⟩
    · rw [unlocked.view, Node.truncated_same keep]
      exact (View.setNode_self (view sb s) i).symm
    · exact inUse unlocked.only.uses fun b more index => (unlocked.stays b index (by omega)).1
    · intro q
      rw [unlocked.only.proc]
      exact cwds q

theorem fileclose_new {f : Nat} {E : Stop → Prop} {Q : Unit → FsState → Prop}
    (unused : (s.ftable f).ref = 0) (closed : (s.ftable f).type = .none) (back : Q () s) :
    wp (fileclose sb f) E Q (setFile f { s.ftable f with ref := 1 } s) := by
  have same : setFile f { s.ftable f with ref := 0, type := .none }
      (setFile f { s.ftable f with ref := 1 } s) = s := by
    have eq : ({ s.ftable f with ref := 0, type := .none } : File) = s.ftable f := by
      rw [← unused, ← closed]
    rw [eq]
    simp only [setFile, upd_upd, upd_eq_self]
  have file : (setFile f { s.ftable f with ref := 1 } s).ftable f =
      { s.ftable f with ref := 1 } := upd_self _ _ _
  simp only [fileclose, wp_bind, wp_get, wp_ite, wp_set, wp_throw, wp_pure, file]
  refine ⟨fun no => absurd no (by decide), fun _ =>
    ⟨fun no => absurd no (by decide), fun _ => ⟨?_, ?_⟩⟩⟩
  · rintro (kind | kind)
    · rw [closed] at kind
      cases kind
    · rw [closed] at kind
      cases kind
  · intro _
    rw [same]
    exact back

theorem openInode_spec (geo : Geometry sb) (inv : FsInv sb (bump idle a) (fun _ => False) s)
    (on : On (bump idle a) s a) (inum : (s.itable a).inum = i) (proc : s.proc p = some files)
    (kinds : Kinds (nodes sb s.disk)) (dirs : (nodes sb s.disk i).type = T_DIR → omode = 0) :
    wp (openInode sb p files a omode) (fun e => e = .iunlock)
      (OpenResult sb s p files i omode) s := by
  have pos := inv.table.ref_of_held on.bound on.holds
  have node : nodes sb s.disk i = nodeOf (s.itable a).din s.disk := by
    rw [← inum]
    exact inv.node on.bound pos on.valid
  have bad : BadMajor (nodes sb s.disk i) ↔ ((s.itable a).din.type = T_DEVICE ∧
      (short (s.itable a).din.major < 0 ∨ NDEV ≤ short (s.itable a).din.major)) := by
    rw [node]
    rfl
  have back : (BadMajor (nodes sb s.disk i) ∨ freeFile s.ftable 0 NFILE = none ∨
      freeFd files.ofile 0 NOFILE = none) →
      wp (iunlockput sb a) (fun e => e = .iunlock)
        (fun _ t => OpenResult sb s p files i omode (-1) t) s := by
    intro reason
    apply wp_post (iunlockput_back geo inv (guarded_none idle s) on.bound)
    intro _ t looked
    exact Or.inl ⟨rfl, looked, reason⟩
  simp only [openInode, filealloc, fdalloc, wp_bind, wp_get, wp_ite, wp_pure]
  refine ⟨fun major => ?_, fun good => ?_⟩
  · exact back (Or.inl (bad.mpr major))
  cases free : freeFile s.ftable 0 NFILE with
  | none =>
      simp only [wp_bind, wp_pure]
      exact back (Or.inr (Or.inl free))
  | some f =>
      simp only [wp_bind, wp_set, wp_pure]
      obtain ⟨-, low, unused⟩ := freeFile_some _ _ _ free
      have bound : f < NFILE := by omega
      cases slot : freeFd files.ofile 0 NOFILE with
      | none =>
          simp only [wp_bind, wp_pure]
          exact fileclose_new unused (inv.files.closed f bound unused) (back (Or.inr (Or.inr slot)))
      | some fd =>
          have done := wp_post (install_spec geo fd inv on inum proc kinds dirs free)
            (P := OpenResult sb s p files i omode)
            (fun r t installed => Or.inr ⟨fun major => good (bad.mp major), installed⟩)
          simp only [wp_bind, wp_modify, wp_ite, wp_pure] at done ⊢
          exact done

end Install

/-! ## The call -/

section Call
variable {sb : Superblock} {s : FsState} {p omode : Nat} {files : ProcFiles}

def ExistingResult (sb : Superblock) (s : FsState) (cwd : Nat) (path : Path) (omode : Nat)
    (r : Option Nat) (s' : FsState) : Prop :=
  match walk sb s cwd path false with
  | none => r = none ∧ Looked sb idle idle (fun _ => False) s s'
  | some (i, _) =>
      if (nodes sb s.disk i).type = T_DIR ∧ omode ≠ 0 then
        r = none ∧ Looked sb idle idle (fun _ => False) s s'
      else Opened sb s i r s'

theorem lockPath_spec {i a : Nat} {t : FsState} (bound : a < NINODE) (inum : (t.itable a).inum = i)
    (live : (nodes sb s.disk i).type = 0 → Dangling (nodes sb s.disk))
    (looked : Looked sb idle (bump idle a) (fun _ => False) s t) :
    wp (ilock sb a) (LookupStop (nodes sb s.disk))
      (fun _ u => On (bump idle a) u a ∧ (u.itable a).inum = i ∧
        (u.itable a).din.type = (nodes sb s.disk i).type ∧ (nodes sb s.disk i).type ≠ 0 ∧
        Looked sb idle (bump idle a) (fun _ => False) s u) t := by
  apply wp_mono (ilock_looked looked.inv bound (bump_pos idle a) idle)
  · rintro _ u ⟨locked, same, valid, alloc⟩
    have whole := looked.trans locked
    have pos := whole.inv.table.ref_of_held bound (bump_pos idle a)
    refine ⟨⟨bound, bump_pos idle a, valid⟩, same.trans inum, ?_, ?_, whole⟩
    · rw [← inum, ← same, ← whole.only.disk, whole.inv.node bound pos valid]
      rfl
    · rw [← inum, ← looked.only.disk]
      exact alloc
  · rintro e (stop | ⟨stop, none⟩)
    · exact Or.inr (Or.inl stop)
    · rw [looked.only.disk, inum] at none
      exact Or.inr (Or.inr (Or.inr ⟨stop, live none⟩))

theorem openExisting_spec (geo : Geometry sb) (inv : FsInv sb idle (fun _ => False) s) {cwd : Nat}
    (bound : cwd < NINODE) (used : 0 < uses s cwd) (path : Path) (omode : Nat) :
    wp (openExisting sb cwd path omode) (LookupStop (nodes sb s.disk))
      (ExistingResult sb s cwd path omode) s := by
  simp only [openExisting, namei, wp_bind, wp_pure]
  apply wp_post (namex_spec geo inv (guarded_none idle s) bound used path false)
  unfold ExistingResult
  intro r t arrived
  cases target : walk sb s cwd path false with
  | none =>
      simp only [Arrived, target] at arrived
      obtain ⟨rfl, looked⟩ := arrived
      exact ⟨rfl, looked⟩
  | some target' =>
      obtain ⟨i, rest⟩ := target'
      simp only [Arrived, target] at arrived
      obtain ⟨live, a, rfl, boundA, inum, looked⟩ := arrived
      simp only [Option.map_some, wp_bind, wp_get, wp_ite, wp_pure]
      apply wp_post (lockPath_spec boundA inum live looked)
      rintro _ u ⟨on, same, type, -, whole⟩
      rw [type]
      refine ⟨fun refuse => ?_, fun accept => ?_⟩
      · simp only [if_pos refuse]
        apply wp_mono (iunlockput_back geo whole.inv (guarded_none idle u) boundA) _
          (fun e stop => Or.inr (Or.inr (Or.inl stop)))
        intro _ w back
        exact ⟨trivial, whole.trans back⟩
      · rw [if_neg accept]
        exact ⟨a, rfl, on, same, whole⟩

def OpenEnd (sb : Superblock) (p : Nat) (files : ProcFiles) (omode : Nat) (found : Option Nat)
    (t : FsState) (r : Int) (s' : FsState) : Prop :=
  match found with
  | none => r = -1 ∧ s' = t
  | some a => OpenResult sb t p files (t.itable a).inum omode r s'

def SysOpenResult (sb : Superblock) (s : FsState) (p : Nat) (files : ProcFiles) (path : Path)
    (omode : Nat) (r : Int) (s' : FsState) : Prop :=
  ∃ found t, OpenEnd sb p files omode found t r s' ∧
    if hasFlag omode O_CREATE then CreateResult sb s files.cwd path T_FILE 0 0 found t
    else ExistingResult sb s files.cwd path omode found t

theorem Kinds.retype {tree tree' : Nat → Node} (kinds : Kinds tree)
    (same : ∀ i, (tree' i).type = (tree i).type ∨ (tree' i).type = 0 ∨ (tree' i).type = T_DIR ∨
      (tree' i).type = T_FILE ∨ (tree' i).type = T_DEVICE) : Kinds tree' := by
  intro i
  rcases same i with old | new
  · rw [old]
    exact kinds i
  · exact new

theorem Kinds.make {v : View} (kinds : Kinds v.tree) (d : Nat) (name : Bytes)
    {i type major minor used : Nat} (some : type = T_DIR ∨ type = T_FILE ∨ type = T_DEVICE) :
    Kinds ((v.make d name i type major minor).drop d used).tree := by
  apply kinds.retype
  intro j
  rcases View.drop_type (v.make d name i type major minor) d used j with gone | same
  · exact Or.inr (Or.inl gone)
  · rw [same, View.make_type]
    split
    · exact Or.inr (Or.inr some)
    · exact Or.inl rfl

theorem sysOpen_spec (geo : Geometry sb) (inv : FsInv sb idle (fun _ => False) s)
    (proc : s.proc p = some files) (kinds : Kinds (nodes sb s.disk)) (path : Path) (omode : Nat) :
    wp (sysOpen sb p files path omode) (LookupStop (nodes sb s.disk))
      (SysOpenResult sb s p files path omode) s := by
  obtain ⟨boundP, bound, -⟩ := inv.files.procs p files proc
  have used := uses_of_cwd boundP proc
  simp only [sysOpen]
  have finish : ∀ {found : Option Nat} {t : FsState}, (∀ a, found = some a →
      FsInv sb (bump idle a) (fun _ => False) t ∧ On (bump idle a) t a ∧ t.proc = s.proc ∧
      Kinds (nodes sb t.disk) ∧ ((nodes sb t.disk (t.itable a).inum).type = T_DIR → omode = 0)) →
      (if hasFlag omode O_CREATE then CreateResult sb s files.cwd path T_FILE 0 0 found t
        else ExistingResult sb s files.cwd path omode found t) →
      wp (match found with | none => pure (-1) | some ip => openInode sb p files ip omode)
        (LookupStop (nodes sb s.disk)) (SysOpenResult sb s p files path omode) t := by
    intro found t ready from'
    cases found with
    | none => exact ⟨none, t, ⟨rfl, rfl⟩, from'⟩
    | some a =>
        obtain ⟨invT, on, procT, kindsT, dirs⟩ := ready a rfl
        apply wp_mono (openInode_spec geo invT on rfl (by rw [procT]; exact proc) kindsT dirs) _
          (fun e stop => Or.inr (Or.inr (Or.inl stop)))
        intro r s' result
        exact ⟨some a, t, result, from'⟩
  have opened : ∀ {i : Nat} {found : Option Nat} {t : FsState}, Opened sb s i found t →
      ((nodes sb s.disk i).type = T_DIR → omode = 0) → ∀ a, found = some a →
      FsInv sb (bump idle a) (fun _ => False) t ∧ On (bump idle a) t a ∧ t.proc = s.proc ∧
      Kinds (nodes sb t.disk) ∧ ((nodes sb t.disk (t.itable a).inum).type = T_DIR → omode = 0) := by
    rintro i found t ⟨b, rfl, on, inum, looked⟩ dirs a eq
    obtain rfl := Option.some.inj eq
    refine ⟨looked.inv, on, looked.only.proc, ?_, ?_⟩
    · rw [looked.only.disk]
      exact kinds
    · rw [looked.only.disk, inum]
      exact dirs
  by_cases creates : hasFlag omode O_CREATE = true
  · simp only [if_pos creates, wp_bind]
    apply wp_post (create_spec geo inv bound used path T_FILE 0 0
      (by decide) (by decide) (by decide) (by decide))
    intro found t result
    refine finish ?_ (by rw [if_pos creates]; exact result)
    intro a eq
    subst eq
    unfold CreateResult at result
    split at result
    · cases result.1
    · rename_i d name target
      obtain ⟨isDir, result⟩ := result
      split at result
      · rename_i k hit
        split at result
        · rename_i file
          refine opened result ?_ a rfl
          intro dir
          rcases file.2 with type | type
          · rw [type] at dir
            exact absurd dir (by decide)
          · rw [type] at dir
            exact absurd dir (by decide)
        · cases result.1
      · obtain ⟨used, -, result⟩ := result
        rcases result with ⟨no, -⟩ | ⟨no, -⟩ | ⟨b, i, eq, -, on, inum, differ, -, -, -, effect⟩
        · cases no
        · cases no
        · obtain rfl := Option.some.inj eq
          refine ⟨effect.inv, on, effect.proc, ?_, ?_⟩
          · rw [effect.tree]
            exact Kinds.make (v := view sb s) kinds d name (Or.inr (Or.inl rfl))
          · rw [effect.tree, inum, View.drop_tree_of_ne differ, View.make_type, if_pos rfl]
            exact fun no => absurd no (by decide)
  · simp only [if_neg creates, wp_bind]
    apply wp_post (openExisting_spec geo inv bound used path omode)
    intro found t result
    refine finish ?_ (by rw [if_neg creates]; exact result)
    intro a eq
    subst eq
    unfold ExistingResult at result
    split at result
    · cases result.1
    · split at result
      · cases result.1
      · rename_i accept
        refine opened result ?_ a rfl
        intro dir
        by_contra mode
        exact accept ⟨dir, mode⟩

end Call

end Xv6Fcfs.Fs
