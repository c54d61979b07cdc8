import Xv6Fcfs.Fs.Ran

/-!
# The system calls

Every call that completes leaves the invariant between calls, commits only sound
transactions and changes the tree by one edit and drift.
-/

set_option autoImplicit false

namespace Xv6Fcfs.Fs

open Xv6Fcfs.Lib

/-! ## Descriptors and processes -/

section Descriptors
variable {sb : Superblock} {s : FsState} {p fd f : Nat} {files : ProcFiles}

theorem argfd_bound (inv : FsInv sb idle (fun _ => False) s) (proc : s.proc p = some files)
    {fd : Int} (found : argfd files fd = some f) : f < NFILE := by
  unfold argfd at found
  split at found
  · cases found
  · exact (inv.files.procs p files proc).2.2 _ f found

theorem setFd_ran (quiet : Quiet sb s) (proc : s.proc p = some files) (fd : Nat) (new : Option Nat)
    (range : ∀ g, new = some g → g < NFILE) :
    Ran sb s (setFd p fd new s) ∧
      (setFd p fd new s).proc p = some { files with ofile := upd files.ofile fd new } ∧
      (setFd p fd new s).ftable = s.ftable := by
  have same : setFd p fd new s =
      setProc p (some { files with ofile := upd files.ofile fd new }) s := by
    simp only [setFd, proc]
  obtain ⟨bound, boundCwd, old⟩ := quiet.inv.files.procs p files proc
  rw [same]
  refine ⟨.of_same ?_ quiet.log rfl rfl rfl ?_, upd_self _ _ _, rfl⟩
  · refine quiet.inv.setProc_same bound ?_ (by rw [proc]; rfl)
    intro held eq
    obtain rfl := Option.some.inj eq
    refine ⟨boundCwd, ?_⟩
    intro fd' g has
    simp only at has
    by_cases here : fd' = fd
    · rw [here, upd_self] at has
      exact range g has
    · rw [upd_of_ne here] at has
      exact old fd' g has
  · intro b _ used
    have count := uses_setProc bound (some { files with ofile := upd files.ofile fd new }) s b
    simp only [proc, cwdWeight_some] at count
    exact ⟨by omega, rfl⟩

theorem filedup_spec (quiet : Quiet sb s) (bound : f < NFILE) :
    wp (filedup f) (fun e => e = .filedup)
      (fun _ s' => Ran sb s s' ∧ s'.proc = s.proc ∧ s'.itable = s.itable) s := by
  simp only [filedup, wp_bind, wp_get, wp_ite, wp_throw, wp_set]
  refine ⟨fun _ => trivial, fun pos => ⟨.of_same ?_ quiet.log rfl rfl rfl (.setFile bound ?_), rfl,
    rfl⟩⟩
  · refine quiet.inv.setFile_same bound (fun no => ?_) ?_ (fun _ => rfl) (fun _ => rfl) fun _ => rfl
    · simp only at no
      omega
    · constructor
      · rintro ⟨-, kind⟩
        exact ⟨by omega, kind⟩
      · rintro ⟨-, kind⟩
        exact ⟨Nat.succ_pos _, kind⟩
  · intro b
    unfold File.weight
    split
    · rename_i both
      rw [if_pos ⟨⟨by omega, both.1.2⟩, both.2⟩]
    · exact Nat.zero_le _

theorem sysClose_spec (geo : Geometry sb) (quiet : Quiet sb s) (proc : s.proc p = some files)
    (fd : Int) :
    wp (sysClose sb p files fd) (fun e => e = .fileclose ∨ e = .deadlock)
      (fun _ s' => Ran sb s s') s := by
  unfold sysClose
  cases found : argfd files fd with
  | none => exact Ran.refl quiet
  | some f =>
      simp only [wp_bind, wp_modify, wp_pure]
      obtain ⟨ran, -, -⟩ := setFd_ran quiet proc fd.toNat none fun g no => by cases no
      apply wp_post (fileclose_spec geo ran.quiet (argfd_bound quiet.inv proc found))
      rintro _ s' ⟨closes, -, -⟩
      exact ran.trans closes

theorem sysDup_spec (quiet : Quiet sb s) (proc : s.proc p = some files) (fd : Int) :
    wp (sysDup p files fd) (fun e => e = .filedup) (fun _ s' => Ran sb s s') s := by
  unfold sysDup
  cases found : argfd files fd with
  | none => exact Ran.refl quiet
  | some f =>
      have bound := argfd_bound quiet.inv proc found
      simp only [fdalloc, wp_bind]
      cases slot : freeFd files.ofile 0 NOFILE with
      | none => exact Ran.refl quiet
      | some new =>
          simp only [wp_bind, wp_modify, wp_pure]
          obtain ⟨ran, -, -⟩ := setFd_ran quiet proc new (some f) fun g same => by
            obtain rfl := Option.some.inj same
            exact bound
          apply wp_post (filedup_spec ran.quiet bound)
          rintro _ s' ⟨dups, -, -⟩
          exact ran.trans dups

theorem sysRead_spec (geo : Geometry sb) (quiet : Quiet sb s) (proc : s.proc p = some files)
    (fd n : Int) (writable : Nat → Bool) (io : Int) :
    wp (sysRead sb files fd n writable io)
      (fun e => e = .fileread ∨ e = .deadlock ∨ e = .iunlock) (fun _ s' => Ran sb s s') s := by
  unfold sysRead
  cases found : argfd files fd with
  | none => exact Ran.refl quiet
  | some f => exact fileread_spec geo quiet (argfd_bound quiet.inv proc found) writable n io

theorem sysWrite_spec (geo : Geometry sb) (quiet : Quiet sb s) (proc : s.proc p = some files)
    (fd n : Int) (src : Nat → Option UInt8) (io : Int) :
    wp (sysWrite sb files fd n src io)
      (fun e => e = .filewrite ∨ e = .deadlock ∨ e = .iunlock) (fun _ s' => Ran sb s s') s := by
  unfold sysWrite
  cases found : argfd files fd with
  | none => exact Ran.refl quiet
  | some f => exact filewrite_spec geo quiet (argfd_bound quiet.inv proc found) src n io

theorem kfork_spec (quiet : Quiet sb s) (proc : s.proc p = some files) (child : Nat) :
    wp (kfork files child) (fun e => e = .filedup) (fun _ s' => Ran sb s s') s := by
  obtain ⟨boundP, boundCwd, range⟩ := quiet.inv.files.procs p files proc
  simp only [kfork, wp_bind, wp_get, wp_ite, wp_pure, wp_modify]
  refine ⟨fun _ => Ran.refl quiet, fun free => ?_⟩
  rw [not_or] at free
  have loop := wp_forFrom (E := fun e => e = .filedup) (m := forkFd files)
    (fun _ t => Ran sb s t ∧ t.proc = s.proc ∧ t.itable = s.itable) NOFILE 0 s
    (by
      rintro fd t - - ⟨ran, procT, itableT⟩
      unfold forkFd
      cases has : files.ofile fd with
      | none => exact ⟨ran, procT, itableT⟩
      | some f =>
          apply wp_post (filedup_spec ran.quiet (range fd f has))
          rintro _ u ⟨dups, procU, itableU⟩
          exact ⟨ran.trans dups, procU.trans procT, itableU.trans itableT⟩)
    ⟨Ran.refl quiet, rfl, rfl⟩
  apply wp_post loop
  rintro _ t ⟨ran, procT, -⟩
  have inv := ran.quiet.inv
  have used : 0 < uses t files.cwd := uses_of_cwd boundP (by rw [procT]; exact proc)
  have more := inv.table.ref_of_uses boundCwd used
  apply wp_mono (idup_spec inv boundCwd (by omega)) _ (fun e no => no.elim)
  rintro a u ⟨rfl, got⟩
  have looked := got.looked (c := idle) inv fun _ => Nat.zero_le _
  have none : u.proc child = none := by
    rw [looked.only.proc, procT]
    simpa using free.2
  have low : child < NPROC := by omega
  have count := uses_setProc low (some { files with cwd := files.cwd }) u
  simp only [none, cwdWeight_some, cwdWeight_none] at count
  have last : Ran sb t (setProc child (some { files with cwd := files.cwd }) u) := by
    refine .of_same ?_ ran.quiet.log looked.only.log looked.only.journal looked.view ?_
    · refine looked.inv.setProc low ?_ ?_ ?_ ?_ fun _ no => no
      · intro held eq
        obtain rfl := Option.some.inj eq
        exact ⟨boundCwd, range⟩
      · intro b
        rw [none, cwdWeight_some, cwdWeight_none]
        exact (bump_apply idle files.cwd b).symm
      · intro b _ weight
        rw [cwdWeight_some] at weight
        obtain rfl : files.cwd = b := by
          by_contra differ
          rw [if_neg differ] at weight
          exact weight rfl
        rw [looked.only.disk, got.inum]
        exact inv.table.live _ boundCwd more
      · intro b weight
        rw [none, cwdWeight_none] at weight
        exact absurd rfl weight
    · intro b index referred
      have change := count b
      have before : 0 < uses t b := by
        rw [← looked.only.uses]
        by_cases here : files.cwd = b
        · rw [← here, looked.only.uses]
          exact used
        · rw [if_neg here] at change
          omega
      exact ⟨before, (looked.stays b index (by omega)).1⟩
  exact ran.trans last

end Descriptors

/-! ## The reference of a working directory -/

def Blind {α : Type} (m : FsM α) : Prop :=
  ∀ s p new, m (setProc p new s) = (m s).map fun x => (x.1, setProc p new x.2)

namespace Blind
variable {α β : Type}

theorem bind {m : FsM α} {f : α → FsM β} (first : Blind m) (rest : ∀ a, Blind (f a)) :
    Blind (m >>= f) := by
  intro s p new
  show (m (setProc p new s)).bind (fun x => f x.1 x.2) =
    ((m s).bind fun x => f x.1 x.2).map fun x => (x.1, setProc p new x.2)
  rw [first s p new]
  cases m s with
  | error e => rfl
  | ok x => exact rest x.1 x.2 p new

theorem read {f : FsState → FsM β} (same : ∀ s p new, f (setProc p new s) = f s)
    (rest : ∀ s, Blind (f s)) : Blind (get >>= f) := by
  intro s p new
  show f (setProc p new s) (setProc p new s) = (f s s).map fun x => (x.1, setProc p new x.2)
  rw [same s p new, rest s s p new]

theorem modify {g : FsState → FsState} (same : ∀ s p new, g (setProc p new s) = setProc p new (g s)) :
    Blind (modify g : FsM Unit) := by
  intro s p new
  show Except.ok ((), g (setProc p new s)) = Except.ok ((), setProc p new (g s))
  rw [same]

theorem throw (e : Stop) : Blind (throw e : FsM α) := fun _ _ _ => rfl

theorem onInode (a : Nat) (m : InodeM α) : Blind (onInode a m) := by
  intro s p new
  simp only [Fs.onInode, zoom, setProc]
  cases m ⟨(s.itable a).inum, (s.itable a).din, s.disk, s.log⟩ with
  | error e => rfl
  | ok x => rfl

theorem iputFree (sb : Superblock) (a : Nat) : Blind (iputFree sb a) :=
  (onInode a _).bind fun _ => (onInode a _).bind fun _ => (onInode a _).bind fun _ =>
    modify fun _ _ _ => rfl

theorem iput (sb : Superblock) (a : Nat) : Blind (iput sb a) := by
  unfold Fs.iput
  refine read (fun _ _ _ => rfl) ?_
  intro s
  simp only
  split
  · split
    · exact throw _
    · exact (iputFree sb a).bind fun _ => modify fun _ _ _ => rfl
  · exact modify fun _ _ _ => rfl

theorem wp_setProc {m : FsM α} (blind : Blind m) {E : Stop → Prop} {Q : α → FsState → Prop}
    {s : FsState} (p : Nat) (new : Option ProcFiles) (run : wp m E Q (setProc p new s)) :
    wp m E (fun r t => Q r (setProc p new t)) s := by
  unfold wp at run ⊢
  rw [blind s p new] at run
  cases result : m s with
  | error e =>
      rw [result] at run
      exact run
  | ok x =>
      rw [result] at run
      exact run

end Blind

section Cwd
variable {sb : Superblock} {held : Nat → Nat} {s t : FsState} {p : Nat} {files : ProcFiles}

/-- `iput` of a working directory, seen from the state in which the process has left it. -/
theorem leaveCwd_spec (new : Option ProcFiles) (geo : Geometry sb)
    (inv : FsInv sb held (fun _ => False) t)
    (proc : t.proc p = some files) (ok : ∀ held, new = some held → held.Ok)
    (shift : ∀ b, bump idle files.cwd b + cwdWeight new b = held b + cwdWeight (some files) b)
    (alive : ∀ b, b < NINODE → cwdWeight new b ≠ 0 →
      (dinode sb t.disk (t.itable b).inum).type ≠ 0) :
    wp (iput sb files.cwd) (fun e => e = .deadlock)
      (fun _ u => Effect sb idle idle (fun _ => False) [(t.itable files.cwd).inum] 0 (setProc p new t)
        ((view sb t).drop (t.itable files.cwd).inum (uses (setProc p new t) files.cwd)) u ∧
        (uses (setProc p new t) files.cwd = 0 ↔
          ¬ InUse (setProc p new t) (t.itable files.cwd).inum))
      (setProc p new t) := by
  obtain ⟨boundP, bound, -⟩ := inv.files.procs p files proc
  have more := inv.table.ref_of_uses bound (uses_of_cwd boundP proc)
  have after : FsInv sb (bump idle files.cwd) (fun i => i = (t.itable files.cwd).inum)
      (setProc p new t) := by
    refine inv.setProc boundP ok ?_ alive ?_ fun _ no => no.elim
    · rw [proc]
      exact shift
    · intro b weight
      rw [proc, cwdWeight_some] at weight
      by_cases here : files.cwd = b
      · rw [here]
      · rw [if_neg here] at weight
        exact absurd rfl weight
  apply wp_post (iput_release idle geo after bound ?_ rfl fun _ => Nat.zero_le _)
  · intro _ u effect
    refine ⟨{ effect with inv := effect.inv.settle ?_ }, after.unused_iff bound (bump_pos idle _)⟩
    rintro j - ⟨own, not⟩ - - -
    exact absurd own not
  · intro none
    have none : (nodes sb t.disk (t.itable files.cwd).inum).nlink = 0 := none
    have alloc := inv.table.live _ bound more
    rw [nodes_eq (inv.table.inums _ bound (by omega)) alloc] at none
    exact (inv.orphan_self bound (by omega) alloc none fun no => no).1

theorem kexit_spec (geo : Geometry sb) (quiet : Quiet sb s) (proc : s.proc p = some files) :
    wp (kexit sb p files) (fun e => e = .initExiting ∨ e = .fileclose ∨ e = .deadlock)
      (fun _ s' => Ran sb s s') s := by
  obtain ⟨boundP, bound, range⟩ := quiet.inv.files.procs p files proc
  simp only [kexit, wp_ite, wp_throw, wp_bind, wp_modify, wp_pure]
  refine ⟨fun _ => Or.inl trivial, fun _ => ?_⟩
  have loop := wp_forFrom (E := fun e => e = .initExiting ∨ e = .fileclose ∨ e = .deadlock)
    (m := exitFd sb p files)
    (fun _ t => Ran sb s t ∧ ∃ left, t.proc p = some left ∧ left.cwd = files.cwd) NOFILE 0 s
    (by
      rintro fd t - - ⟨ran, left, procT, cwd⟩
      unfold exitFd
      cases has : files.ofile fd with
      | none => exact ⟨ran, left, procT, cwd⟩
      | some f =>
          simp only [wp_bind, wp_modify]
          apply wp_mono (fileclose_spec geo ran.quiet (range fd f has)) _ (fun e stop => Or.inr stop)
          rintro _ u ⟨closes, same, -⟩
          obtain ⟨sets, procU, -⟩ := setFd_ran closes.quiet
            (by rw [same]; exact procT) fd none fun g no => by cases no
          exact ⟨(ran.trans closes).trans sets, _, procU, cwd⟩)
    ⟨Ran.refl quiet, files, proc, rfl⟩
  apply wp_post loop
  rintro _ t ⟨ran, left, procT, cwd⟩
  apply wp_transaction ran.quiet.log
  have leave := leaveCwd_spec none geo ran.quiet.inv procT (fun _ no => by cases no)
    (fun b => by rw [cwdWeight_none, cwdWeight_some, bump_apply, Nat.add_zero])
    fun b _ no => absurd rfl no
  rw [cwd] at leave
  refine (Blind.iput sb files.cwd).wp_setProc p none
    (Q := fun _ u => Ran sb s (closed u)) ?_
  apply wp_mono leave _ (fun e stop => Or.inr (Or.inr stop))
  rintro _ u ⟨effect, unused⟩
  have last := effect.ran geo (s := setProc p none t) ran.quiet.log (by simp [MAXOPBLOCKS])
    (Drift.drop _ fun none inUse => unused.mp none (effect.still.inUse inUse))
  refine ran.trans ⟨last.quiet, last.committed, last.drift, .trans ?_ last.still⟩
  intro b index more
  have count := uses_setProc boundP none t b
  rw [cwdWeight_none] at count
  exact ⟨by omega, rfl⟩

/-- The process is in the directory `i` now. -/
structure Moved (sb : Superblock) (s : FsState) (p : Nat) (files : ProcFiles) (i : Nat)
    (s' : FsState) : Prop where
  quiet : Quiet sb s'
  committed : Committed sb s s'
  drift : Drift (InUse s') (view sb s) (view sb s')
  ftable : s'.ftable = s.ftable
  target : ∃ a, a < NINODE ∧ (s'.itable a).inum = i ∧
    s'.proc = upd s.proc p (some { files with cwd := a }) ∧
    ∀ b, b < NINODE → 0 < uses s' b →
      b = a ∨ (0 < uses s b ∧ (s'.itable b).inum = (s.itable b).inum)

def ChdirResult (sb : Superblock) (s : FsState) (p : Nat) (files : ProcFiles) (path : Path) (r : Int)
    (s' : FsState) : Prop :=
  match walk sb s files.cwd path false with
  | none => r = -1 ∧ ∃ t, Looked sb idle idle (fun _ => False) s t ∧ s' = closed t
  | some (i, _) =>
      if (nodes sb s.disk i).type ≠ T_DIR then
        r = -1 ∧ ∃ t, Looked sb idle idle (fun _ => False) s t ∧ s' = closed t
      else r = 0 ∧ Moved sb s p files i s'

theorem sysChdir_spec (geo : Geometry sb) (quiet : Quiet sb s) (proc : s.proc p = some files)
    (path : Path) :
    wp (sysChdir sb p files path) (LookupStop (nodes sb s.disk))
      (ChdirResult sb s p files path) s := by
  have inv := quiet.inv
  obtain ⟨boundP, bound, range⟩ := inv.files.procs p files proc
  have used := uses_of_cwd boundP proc
  unfold sysChdir
  rw [wp_bind]
  apply wp_transaction quiet.log
  simp only [chdirLookup, namei, wp_bind, wp_pure]
  apply wp_post (namex_spec geo inv (guarded_none idle s) bound used path false)
  unfold ChdirResult
  intro r t arrived
  cases target : walk sb s files.cwd path false with
  | none =>
      simp only [Arrived, target] at arrived
      obtain ⟨rfl, looked⟩ := arrived
      exact ⟨rfl, t, looked, rfl⟩
  | some target' =>
      obtain ⟨i, rest⟩ := target'
      simp only [Arrived, target] at arrived
      obtain ⟨live, a, rfl, boundA, inum, looked⟩ := arrived
      simp only [Option.map_some, wp_bind, wp_get, wp_ite, wp_pure]
      apply wp_post (lockPath_spec boundA inum live looked)
      rintro _ u ⟨on, same, type, alloc, whole⟩
      rw [type]
      refine ⟨fun refuse => ?_, fun accept => ?_⟩
      · simp only [if_pos refuse]
        apply wp_mono (iunlockput_back geo whole.inv (guarded_none idle u) boundA) _
          (fun e stop => Or.inr (Or.inr (Or.inl stop)))
        intro _ w back
        exact ⟨trivial, w, whole.trans back, rfl⟩
      · simp only [if_neg accept, wp_modify]
        apply wp_mono (iunlock_looked whole.inv boundA idle) _
          (fun e stop => Or.inr (Or.inr (Or.inl stop)))
        rintro _ w ⟨unlocked, same', -⟩
        have seen := whole.trans unlocked
        have procW : w.proc p = some files := by
          rw [seen.only.proc]
          exact proc
        have leave := leaveCwd_spec (some { files with cwd := a }) geo seen.inv procW
          (by
            intro held eq
            obtain rfl := Option.some.inj eq
            exact ⟨boundA, range⟩)
          (fun b => by simp only [cwdWeight_some, bump_apply]; omega)
          (by
            intro b index weight
            rw [cwdWeight_some] at weight
            obtain rfl : a = b := by
              by_contra differ
              rw [if_neg differ] at weight
              exact weight rfl
            have range := seen.inv.table.inums a boundA
              (seen.inv.table.ref_of_held boundA (bump_pos idle a))
            rw [← nodes_type range, seen.only.disk, same'.trans same]
            exact alloc)
        refine (Blind.iput sb files.cwd).wp_setProc p (some { files with cwd := a })
          (Q := fun _ x => True ∧ Moved sb s p files i (closed x)) ?_
        apply wp_mono leave _ (fun e stop => Or.inr (Or.inl stop))
        rintro _ x ⟨effect, unused⟩
        have last := effect.ran geo (s := setProc p (some { files with cwd := a }) w)
          (seen.only.log.trans quiet.log) (by simp [MAXOPBLOCKS])
          (Drift.drop _ fun none inUse => unused.mp none (effect.still.inUse inUse))
        have viewS : view sb (setProc p (some { files with cwd := a }) w) = view sb s := seen.view
        have journalS : (setProc p (some { files with cwd := a }) w).journal = s.journal :=
          seen.only.journal
        have count := uses_setProc boundP (some { files with cwd := a }) w
        have usedA : 0 < uses (setProc p (some { files with cwd := a }) w) a := by
          have change := count a
          simp only [procW, cwdWeight_some, if_true] at change
          by_cases here : files.cwd = a
          · have before := uses_of_cwd boundP procW
            rw [here] at before
            rw [if_pos here] at change
            omega
          · rw [if_neg here] at change
            omega
        have driftS := last.drift
        rw [viewS] at driftS
        refine ⟨trivial, last.quiet, ?_, driftS, ?_, a, boundA, ?_, ?_, ?_⟩
        · obtain ⟨new, eq, all⟩ := last.committed
          rw [journalS] at eq
          exact ⟨new, eq, all⟩
        · exact effect.ftable.trans seen.only.ftable
        · exact (effect.stays a boundA (by omega)).1.trans (same'.trans same)
        · have after := effect.proc
          simp only [setProc, seen.only.proc] at after
          exact after
        · intro b index more
          by_cases here : b = a
          · exact Or.inl here
          · right
            obtain ⟨before, inumB⟩ := last.still b index more
            have change := count b
            rw [procW, cwdWeight_some, cwdWeight_some, if_neg (Ne.symm here), seen.only.uses] at change
            refine ⟨by omega, inumB.trans ?_⟩
            exact (seen.stays b index (by omega)).1

end Cwd

/-! ## `sys_mkdir`, `sys_mknod` and `kexec` -/

section Others
variable {sb : Superblock} {s : FsState} {cwd : Nat}

def MakeResult (sb : Superblock) (s : FsState) (cwd : Nat) (path : Path) (type major minor : Nat)
    (r : Int) (s' : FsState) : Prop :=
  ∃ found t, CreateResult sb s cwd path type major minor found t ∧
    match found with
    | none => r = -1 ∧ s' = t
    | some _ => r = 0 ∧ Looked sb idle idle (fun _ => False) t s'

theorem makeNode_spec (geo : Geometry sb) (inv : FsInv sb idle (fun _ => False) s)
    (bound : cwd < NINODE) (used : 0 < uses s cwd) (path : Path) {type major minor : Nat}
    (kind : type = T_DIR ∨ type = T_DEVICE) (smallMajor : major < 2 ^ 16)
    (smallMinor : minor < 2 ^ 16) :
    wp (makeNode sb cwd path type major minor) (LookupStop (nodes sb s.disk))
      (MakeResult sb s cwd path type major minor) s := by
  have notFile : type ≠ T_FILE := by
    rcases kind with rfl | rfl
    · decide
    · decide
  have some' : type ≠ 0 ∧ type < 2 ^ 16 := by
    rcases kind with rfl | rfl
    · exact ⟨by decide, by decide⟩
    · exact ⟨by decide, by decide⟩
  simp only [makeNode, wp_bind]
  apply wp_post (create_spec geo inv bound used path type major minor some'.2 some'.1 smallMajor
    smallMinor)
  intro found t result
  cases found with
  | none => exact ⟨none, t, result, rfl, rfl⟩
  | some a =>
      simp only [wp_bind, wp_pure]
      have new : a < NINODE ∧ FsInv sb (bump idle a) (fun _ => False) t := by
        unfold CreateResult at result
        split at result
        · cases result.1
        · obtain ⟨-, result⟩ := result
          split at result
          · split at result
            · rename_i file
              exact absurd file.1 notFile
            · cases result.1
          · obtain ⟨outside, -, ⟨no, -⟩ | ⟨no, -⟩ | ⟨b, i, eq, -, on, -, -, -, -, -, effect⟩⟩ := result
            · cases no
            · cases no
            · obtain rfl := Option.some.inj eq
              exact ⟨on.bound, effect.inv⟩
      apply wp_mono (iunlockput_back geo new.2 (guarded_none idle t) new.1) _
        (fun e stop => Or.inr (Or.inr (Or.inl stop)))
      intro _ s' back
      exact ⟨some a, t, result, rfl, back⟩

theorem execReads_spec (geo : Geometry sb) {held : Nat → Nat} {loose : Nat → Prop} {a : Nat}
    (inv : FsInv sb held loose s) (on : On held s a) : ∀ reads : List (UInt32 × UInt32),
    wp (execReads sb a reads) (fun _ => False) (fun _ s' => s' = s) s := by
  have pos := inv.table.ref_of_held on.bound on.holds
  intro reads
  induction reads with
  | nil => rfl
  | cons first rest ih =>
      obtain ⟨off, n⟩ := first
      simp only [execReads, wp_bind, wp_ite, wp_pure]
      apply wp_post (readi_on geo inv on.bound pos on.valid (fun _ => true) off.toNat n.toNat_lt)
      rintro r t ⟨rfl, -⟩
      exact ⟨fun _ => rfl, fun _ => ih⟩

theorem execLookup_spec (geo : Geometry sb) (inv : FsInv sb idle (fun _ => False) s)
    (bound : cwd < NINODE) (used : 0 < uses s cwd) (path : Path) (reads : List (UInt32 × UInt32)) :
    wp (execLookup sb cwd path reads) (LookupStop (nodes sb s.disk))
      (fun _ s' => Looked sb idle idle (fun _ => False) s s') s := by
  simp only [execLookup, namei, wp_bind, wp_pure]
  apply wp_post (namex_spec geo inv (guarded_none idle s) bound used path false)
  intro r t arrived
  cases target : walk sb s cwd path false with
  | none =>
      simp only [Arrived, target] at arrived
      obtain ⟨rfl, looked⟩ := arrived
      exact looked
  | some target' =>
      obtain ⟨i, rest⟩ := target'
      simp only [Arrived, target] at arrived
      obtain ⟨live, a, rfl, boundA, inum, looked⟩ := arrived
      simp only [Option.map_some, wp_bind, wp_pure]
      apply wp_post (lockPath_spec boundA inum live looked)
      rintro _ u ⟨on, -, -, -, whole⟩
      apply wp_mono (execReads_spec geo whole.inv on reads) _ (fun e no => no.elim)
      rintro _ w rfl
      apply wp_mono (iunlockput_back geo whole.inv (guarded_none idle w) boundA) _
        (fun e stop => Or.inr (Or.inr (Or.inl stop)))
      intro _ x back
      exact whole.trans back

end Others

/-! ## The outcome of a call -/

def parentOf (sb : Superblock) (s : FsState) (cwd : Nat) (path : Path) : Option Nat :=
  match walk sb s cwd path true with
  | none => none
  | some (d, name) => if (nodes sb s.disk d).lookup name = none then some d else none

def addsTo (sb : Superblock) (s : FsState) (files : ProcFiles) : Call → Option Nat
  | .open (some path) omode =>
      if hasFlag omode O_CREATE then parentOf sb s files.cwd path else none
  | .mkdir (some path) => parentOf sb s files.cwd path
  | .mknod (some path) _ _ => parentOf sb s files.cwd path
  | .link (some _) (some new) => parentOf sb s files.cwd new
  | _ => none

def raisesOf (sb : Superblock) (s : FsState) (files : ProcFiles) : Call → Option Nat
  | .mkdir (some path) => parentOf sb s files.cwd path
  | .link (some old) (some _) => (walk sb s files.cwd old false).map Prod.fst
  | _ => none

structure Outcome (sb : Superblock) (s : FsState) (files : ProcFiles) (c : Call) (s' : FsState) :
    Prop where
  quiet : Quiet sb s'
  committed : Committed sb s s'
  edit : ∃ adds raises w, Edit sb (view sb s) adds raises w ∧
    (∀ d, adds = some d → addsTo sb s files c = some d) ∧
    (∀ i, raises = some i → raisesOf sb s files c = some i) ∧ Drift (InUse s') w (view sb s')

section Outcomes
variable {sb : Superblock} {s s' t : FsState} {p : Nat} {files : ProcFiles} {c : Call}

theorem planned_none {P : Nat → Prop} (d : Nat) (no : none = some d) : P d := by cases no

theorem Ran.outcome (ran : Ran sb s s') : Outcome sb s files c s' :=
  ⟨ran.quiet, ran.committed, none, none, view sb s, .same, planned_none,
    planned_none, ran.drift⟩

theorem Looked.ran (geo : Geometry sb) (start : s.log = [])
    (looked : Looked sb idle idle (fun _ => False) s t) : Ran sb s (closed t) :=
  (looked.effect (l := []) (k := 0)).ran geo start (by decide) (.refl _)

theorem Effect.outcome (geo : Geometry sb) {is : List Nat} {k : Nat} {v w : View}
    {adds raises : Option Nat} (start : s.log = [])
    (effect : Effect sb idle idle (fun _ => False) is k s v t)
    (few : is.length + k + 1 ≤ MAXOPBLOCKS) (edit : Edit sb (Fs.view sb s) adds raises w)
    (plannedAdds : ∀ d, adds = some d → addsTo sb s files c = some d)
    (plannedRaises : ∀ i, raises = some i → raisesOf sb s files c = some i)
    (drift : Drift (InUse s) w v) : Outcome sb s files c (closed t) := by
  refine ⟨⟨effect.inv.endOp, rfl⟩,
    closed_committed geo effect.inv effect.logs effect.journal start few, adds, raises, w, edit,
    plannedAdds, plannedRaises, ?_⟩
  have same : Fs.view sb (closed t) = v := effect.view
  rw [same]
  exact drift.mono fun _ used => effect.still.inUse used

theorem parentOf_eq {cwd d : Nat} {path : Path} {name : Bytes}
    (target : walk sb s cwd path true = some (d, name))
    (absent : (nodes sb s.disk d).lookup name = none) : parentOf sb s cwd path = some d := by
  simp only [parentOf, target, if_pos absent]

theorem freeInode_free {sb : Superblock} {disk : Disk} {i : Nat}
    (found : freeInode sb disk 1 (sb.ninodes - 1) = some i) : nodes sb disk i = .free := by
  obtain ⟨-, -, free⟩ := freeInode_some _ _ _ found
  exact if_neg fun both => both.2 free

/-- The first part of a call made the edit to `w` and holds the inode it found. -/
def Begun (sb : Superblock) (s : FsState) (found : Option Nat) (t : FsState) (w : View) : Prop :=
  ∃ held is v, Effect sb idle held (fun _ => False) is 6 s v t ∧ is.length ≤ 2 ∧
    (found = none → held = idle) ∧
    Drift (fun j => InUse s j ∨ ∃ a, found = some a ∧ j = (t.itable a).inum) w v

theorem Looked.begun {held : Nat → Nat} {found : Option Nat}
    (looked : Looked sb idle held (fun _ => False) s t) (none' : found = none → held = idle) :
    Begun sb s found t (Fs.view sb s) :=
  ⟨held, [], Fs.view sb s, looked.effect, by simp, none', .refl _⟩

theorem CreateResult.edit {cwd : Nat} {path : Path} {type major minor : Nat} {found : Option Nat}
    (kind : type = T_DIR ∨ type = T_FILE ∨ type = T_DEVICE)
    (result : CreateResult sb s cwd path type major minor found t) :
    ∃ adds raises w, Edit sb (view sb s) adds raises w ∧
      (∀ d, adds = some d → parentOf sb s cwd path = some d) ∧
      (∀ d, raises = some d → type = T_DIR ∧ parentOf sb s cwd path = some d) ∧
      Begun sb s found t w := by
  have looked : ∀ {held : Nat → Nat}, Looked sb idle held (fun _ => False) s t →
      (found = none → held = idle) →
      ∃ adds raises w, Edit sb (view sb s) adds raises w ∧
        (∀ d, adds = some d → parentOf sb s cwd path = some d) ∧
        (∀ d, raises = some d → type = T_DIR ∧ parentOf sb s cwd path = some d) ∧
        Begun sb s found t w := fun looked none' =>
    ⟨none, none, view sb s, .same, planned_none, planned_none, looked.begun none'⟩
  unfold CreateResult at result
  split at result
  · exact looked result.2 fun _ => rfl
  · rename_i d name target
    obtain ⟨isDir, result⟩ := result
    split at result
    · split at result
      · obtain ⟨a, rfl, -, -, rest⟩ := result
        exact looked rest fun no => (by cases no)
      · exact looked result.2 fun _ => rfl
    · rename_i absent
      have parent := parentOf_eq target absent
      obtain ⟨outside, unused, ⟨rfl, -, rest⟩ | ⟨rfl, i, w, free, retired, effect⟩ |
        ⟨a, i, rfl, -, -, inum, differ, free, low, high, effect⟩⟩ := result
      · exact looked rest fun _ => rfl
      · have none' : ((view sb s).tree i).type = 0 := by
          show (nodes sb s.disk i).type = 0
          rw [freeInode_free free]
          rfl
        exact ⟨none, none, w, .retire none' retired, planned_none, planned_none, idle, _, w, effect,
          by simp, fun _ => rfl, .refl _⟩
      · refine ⟨some d, _, _, .make name major minor isDir absent free low high differ kind, ?_, ?_,
          _, _, _, effect, by simp, fun no => (by cases no), ?_⟩
        · intro e same
          rwa [Option.some.inj same] at parent
        · intro e same
          split at same
          · rename_i dir
            exact ⟨dir, by rwa [Option.some.inj same] at parent⟩
          · cases same
        · refine Drift.drop _ fun zero used => ?_
          rcases used with used | ⟨b, eq, same⟩
          · exact unused.mp zero used
          · obtain rfl := Option.some.inj eq
            exact differ (inum.symm.trans same.symm)

theorem ExistingResult.begun {cwd omode : Nat} {path : Path} {found : Option Nat}
    (result : ExistingResult sb s cwd path omode found t) :
    Begun sb s found t (view sb s) := by
  unfold ExistingResult at result
  split at result
  · exact result.2.begun fun _ => rfl
  · split at result
    · exact result.2.begun fun _ => rfl
    · obtain ⟨a, rfl, -, -, looked⟩ := result
      exact looked.begun fun no => (by cases no)

theorem Begun.outcome (geo : Geometry sb) {found : Option Nat} {adds raises : Option Nat} {w : View}
    (start : s.log = []) (begun : Begun sb s found t w) (edit : Edit sb (view sb s) adds raises w)
    (plannedAdds : ∀ d, adds = some d → addsTo sb s files c = some d)
    (plannedRaises : ∀ i, raises = some i → raisesOf sb s files c = some i)
    (back : (found = none ∧ s' = t) ∨ Looked sb idle idle (fun _ => False) t s') :
    Outcome sb s files c (closed s') := by
  obtain ⟨held, is, v, effect, few, none', drift⟩ := begun
  have last : Effect sb idle idle (fun _ => False) is 6 s v s' := by
    rcases back with ⟨none, rfl⟩ | looked
    · rw [none' none] at effect
      exact effect
    · exact effect.look looked fun _ => Nat.le_refl _
  refine ⟨⟨last.inv.endOp, rfl⟩,
    closed_committed geo last.inv last.logs last.journal start (by simp only [MAXOPBLOCKS]; omega),
    adds, raises, w, edit, plannedAdds, plannedRaises, ?_⟩
  have same : view sb (closed s') = v := last.view
  rw [same]
  exact drift.mono fun _ used => Or.inl (last.still.inUse used)

theorem Begun.installed (geo : Geometry sb) {a omode : Nat} {r : Int} {adds raises : Option Nat}
    {w : View} (start : s.log = []) (begun : Begun sb s (some a) t w)
    (edit : Edit sb (view sb s) adds raises w)
    (plannedAdds : ∀ d, adds = some d → addsTo sb s files c = some d)
    (plannedRaises : ∀ i, raises = some i → raisesOf sb s files c = some i)
    (installed : Installed sb t p files (t.itable a).inum omode r s') :
    Outcome sb s files c (closed s') := by
  obtain ⟨held, is, v, effect, few, -, drift⟩ := begun
  have logs : Logs sb (is ++ [(t.itable a).inum]) 6 s s' :=
    (effect.logs.mono (by simp +contextual) (Nat.le_refl 6)).trans
      (installed.logs.mono (by simp) (Nat.le_refl 0))
  refine ⟨⟨installed.inv.endOp, rfl⟩,
    closed_committed geo installed.inv logs (installed.journal.trans effect.journal) start ?_,
    adds, raises, w, edit, plannedAdds, plannedRaises, ?_⟩
  · simp only [List.length_append, List.length_singleton, MAXOPBLOCKS]
    omega
  · have first : Drift (InUse (closed s')) w v := by
      refine drift.mono ?_
      intro j used
      rcases installed.uses j used with old | new
      · exact Or.inl (effect.still.inUse old)
      · exact Or.inr ⟨a, rfl, new⟩
    have same : view sb (closed s') = v.setNode (t.itable a).inum
        ((v.tree (t.itable a).inum).truncated omode) := by
      rw [← effect.view]
      exact installed.view
    rw [same]
    exact first.trans (.truncated v _ omode)

theorem SysOpenResult.outcome (geo : Geometry sb) {path : Path} {omode : Nat} {r : Int}
    (start : s.log = []) (result : SysOpenResult sb s p files path omode r t) :
    Outcome sb s files (.open (some path) omode) (closed t) := by
  obtain ⟨found, u, last, begin⟩ := result
  have edited : ∃ adds raises w, Edit sb (view sb s) adds raises w ∧
      (∀ d, adds = some d → addsTo sb s files (.open (some path) omode) = some d) ∧
      (∀ i, raises = some i → raisesOf sb s files (.open (some path) omode) = some i) ∧
      Begun sb s found u w := by
    by_cases creates : hasFlag omode O_CREATE = true
    · rw [if_pos creates] at begin
      obtain ⟨adds, raises, w, edit, plannedAdds, plannedRaises, begun⟩ :=
        begin.edit (Or.inr (Or.inl rfl))
      refine ⟨adds, raises, w, edit, ?_, ?_, begun⟩
      · intro d same
        simp only [addsTo, if_pos creates]
        exact plannedAdds d same
      · intro i same
        exact absurd (plannedRaises i same).1 (by decide)
    · rw [if_neg creates] at begin
      exact ⟨none, none, view sb s, .same, planned_none, planned_none, begin.begun⟩
  obtain ⟨adds, raises, w, edit, plannedAdds, plannedRaises, begun⟩ := edited
  unfold OpenEnd at last
  split at last
  · exact begun.outcome geo start edit plannedAdds plannedRaises (Or.inl ⟨rfl, last.2⟩)
  · rcases last with ⟨-, back, -⟩ | ⟨-, installed⟩
    · exact begun.outcome geo start edit plannedAdds plannedRaises (Or.inr back)
    · exact begun.installed geo start edit plannedAdds plannedRaises installed

theorem MakeResult.outcome (geo : Geometry sb) {path : Path} {type major minor : Nat} {r : Int}
    (start : s.log = []) (kind : type = T_DIR ∨ type = T_FILE ∨ type = T_DEVICE)
    (adds : addsTo sb s files c = parentOf sb s files.cwd path)
    (raises : type = T_DIR → raisesOf sb s files c = parentOf sb s files.cwd path)
    (result : MakeResult sb s files.cwd path type major minor r t) :
    Outcome sb s files c (closed t) := by
  obtain ⟨found, u, created, last⟩ := result
  obtain ⟨into, up, w, edit, plannedAdds, plannedRaises, begun⟩ := created.edit kind
  have first : ∀ d, into = some d → addsTo sb s files c = some d := by
    intro d same
    rw [adds]
    exact plannedAdds d same
  have second : ∀ d, up = some d → raisesOf sb s files c = some d := by
    intro d same
    obtain ⟨dir, parent⟩ := plannedRaises d same
    rw [raises dir]
    exact parent
  cases found with
  | none => exact begun.outcome geo start edit first second (Or.inl ⟨rfl, last.2⟩)
  | some a => exact begun.outcome geo start edit first second (Or.inr last.2)

theorem LinkResult.outcome (geo : Geometry sb) {old new : Path} {r : Int} (start : s.log = [])
    (result : LinkResult sb s files.cwd old new r t) :
    Outcome sb s files (.link (some old) (some new)) (closed t) := by
  unfold LinkResult at result
  split at result
  · exact (result.2.ran geo start).outcome
  · rename_i i rest source
    obtain ⟨alloc, result⟩ := result
    split at result
    · exact (result.2.ran geo start).outcome
    · rename_i file
      split at result
      · exact (result.2.ran geo start (by simp [MAXOPBLOCKS]) (.refl _)).outcome
      · rename_i d name target
        obtain ⟨isDir, ⟨-, effect⟩ | ⟨-, absent, used, unused, effect⟩⟩ := result
        · exact (effect.ran geo start (by simp [MAXOPBLOCKS]) (.refl _)).outcome
        · refine effect.outcome geo start (by simp [MAXOPBLOCKS])
            (.link name isDir absent alloc file) ?_ ?_ (.drop _ unused.mp)
          · intro e same
            simp only [addsTo]
            rw [parentOf_eq target absent]
            exact same
          · intro j same
            simp only [raisesOf, source, Option.map_some]
            exact same

theorem UnlinkResult.outcome (geo : Geometry sb) {path : Path} {r : Int} (start : s.log = [])
    (result : UnlinkResult sb s files.cwd path r t) :
    Outcome sb s files (.unlink (some path)) (closed t) := by
  unfold UnlinkResult at result
  split at result
  · exact (result.2.ran geo start).outcome
  · rename_i d name target
    obtain ⟨isDir, result⟩ := result
    split at result
    · exact (result.2.ran geo start).outcome
    · rename_i regular
      split at result
      · exact (result.2.ran geo start).outcome
      · rename_i k found
        obtain ⟨alloc, differ, ⟨-, looked⟩ | ⟨-, links, empty, usedD, usedI, unusedD, unusedI,
          effect⟩⟩ := result
        · exact (looked.ran geo start).outcome
        · exact effect.outcome geo start (by simp [MAXOPBLOCKS])
            (.unlink name isDir found regular alloc differ links empty) planned_none planned_none
            ((Drift.drop _ unusedD.mp).trans (.drop _ unusedI.mp))

theorem ChdirResult.outcome (geo : Geometry sb) {path : Path} {r : Int} (start : s.log = [])
    (result : ChdirResult sb s p files path r s') : Outcome sb s files (.chdir (some path)) s' := by
  unfold ChdirResult at result
  split at result
  · obtain ⟨-, t, looked, rfl⟩ := result
    exact (looked.ran geo start).outcome
  · split at result
    · obtain ⟨-, t, looked, rfl⟩ := result
      exact (looked.ran geo start).outcome
    · obtain ⟨-, moved⟩ := result
      exact ⟨moved.quiet, moved.committed, none, none, view sb s, .same, planned_none, planned_none,
        moved.drift⟩

/-- Every call: it stops only as `CallStop` allows, and what it leaves is an outcome. -/
theorem runCall_spec (geo : Geometry sb) (quiet : Quiet sb s) (kinds : Kinds (nodes sb s.disk))
    (proc : s.proc p = some files) (c : Call) :
    wp (runCall sb p files c) (CallStop (nodes sb s.disk)) (fun _ s' => Outcome sb s files c s') s := by
  have inv := quiet.inv
  have start := quiet.log
  obtain ⟨boundP, bound, -⟩ := inv.files.procs p files proc
  have used := uses_of_cwd boundP proc
  have self : Outcome sb s files c s := (Ran.refl quiet).outcome
  have empty : wp (transaction (return (-1 : Int))) (CallStop (nodes sb s.disk))
      (fun _ s' => Outcome sb s files c s') s :=
    wp_transaction start ((Looked.refl inv).ran geo start).outcome
  cases c with
  | «open» path omode =>
      cases path with
      | none => exact self
      | some path =>
          apply wp_transaction start
          exact wp_mono (sysOpen_spec geo inv proc kinds path omode)
            (fun r t result => result.outcome geo start) (fun e stop => stop.call)
  | read fd n writable io =>
      apply wp_mono (sysRead_spec geo quiet proc fd n writable io) (fun _ _ ran => ran.outcome)
      rintro e (rfl | rfl | rfl)
      · exact .other (by decide) (by decide) (by decide)
      · exact .other (by decide) (by decide) (by decide)
      · exact .other (by decide) (by decide) (by decide)
  | write fd n src io =>
      apply wp_mono (sysWrite_spec geo quiet proc fd n src io) (fun _ _ ran => ran.outcome)
      rintro e (rfl | rfl | rfl)
      · exact .other (by decide) (by decide) (by decide)
      · exact .other (by decide) (by decide) (by decide)
      · exact .other (by decide) (by decide) (by decide)
  | mkdir path =>
      cases path with
      | none => exact empty
      | some path =>
          apply wp_transaction start
          exact wp_mono (makeNode_spec geo inv bound used path (Or.inl rfl) (by decide) (by decide))
            (fun r t result => result.outcome geo start (Or.inl rfl) rfl fun _ => rfl)
            (fun e stop => stop.call)
  | mknod path major minor =>
      cases path with
      | none => exact empty
      | some path =>
          apply wp_transaction start
          exact wp_mono (makeNode_spec geo inv bound used path (Or.inr rfl)
              (Nat.mod_lt _ (by decide)) (Nat.mod_lt _ (by decide)))
            (fun r t result => result.outcome geo start (Or.inr (Or.inr rfl)) rfl
              fun no => absurd no (by decide))
            (fun e stop => stop.call)
  | link old new =>
      cases old with
      | none => exact self
      | some old =>
          cases new with
          | none => exact self
          | some new =>
              apply wp_transaction start
              exact wp_mono (sysLink_spec geo inv bound used old new)
                (fun r t result => result.outcome geo start) (fun e stop => stop.call)
  | unlink path =>
      cases path with
      | none => exact self
      | some path =>
          apply wp_transaction start
          exact wp_post (sysUnlink_spec geo inv bound used path)
            (fun r t result => result.outcome geo start)
  | chdir path =>
      cases path with
      | none => exact empty
      | some path =>
          exact wp_mono (sysChdir_spec geo quiet proc path)
            (fun r t result => result.outcome geo start) (fun e stop => stop.call)
  | exec path reads io =>
      cases path with
      | none => exact self
      | some path =>
          simp only [runCall, wp_bind, wp_pure]
          apply wp_transaction start
          exact wp_mono (execLookup_spec geo inv bound used path reads)
            (fun r t looked => (looked.ran geo start).outcome) (fun e stop => stop.call)
  | close fd =>
      apply wp_mono (sysClose_spec geo quiet proc fd) (fun _ _ ran => ran.outcome)
      rintro e (rfl | rfl)
      · exact .other (by decide) (by decide) (by decide)
      · exact .other (by decide) (by decide) (by decide)
  | dup fd =>
      apply wp_mono (sysDup_spec quiet proc fd) (fun _ _ ran => ran.outcome)
      rintro e rfl
      exact .other (by decide) (by decide) (by decide)
  | fork child =>
      apply wp_mono (kfork_spec quiet proc child) (fun _ _ ran => ran.outcome)
      rintro e rfl
      exact .other (by decide) (by decide) (by decide)
  | exit =>
      apply wp_mono (kexit_spec geo quiet proc) (fun _ _ ran => ran.outcome)
      rintro e (rfl | rfl | rfl)
      · exact .other (by decide) (by decide) (by decide)
      · exact .other (by decide) (by decide) (by decide)
      · exact .other (by decide) (by decide) (by decide)

end Outcomes

end Xv6Fcfs.Fs
