import Xv6Fcfs.Fs.Account
import Xv6Fcfs.Fs.Reach
import Xv6Fcfs.Sys.Fork

/-!
# `kexec` is all or nothing

Whatever the file holds and whichever call of `kalloc` fails, `kexec` leaves the account of the
file system and the count of open transactions as they were.  When it fails the process and
the free pages are as before, too.
-/

set_option autoImplicit false

namespace Xv6Fcfs.Sys

open Xv6Fcfs.Lib Xv6Fcfs.Vm Xv6Fcfs.Fs

/-- The account of the file system, and the transactions that are open. -/
def books (s : System) : Account × Int := (account s.fs, s.outstanding)

def Steady {α : Type} (m : SysM α) : Prop :=
  ∀ s, wp m (fun _ => True) (fun _ s' => books s' = books s) s

namespace Steady
variable {α β : Type} {sb : Superblock}

theorem pure (a : α) : Steady (Pure.pure a : SysM α) := fun _ => rfl

theorem throw (e : Halt) : Steady (MonadExcept.throw e : SysM α) := fun _ => trivial

theorem bind {m : SysM α} {f : α → SysM β} (first : Steady m) (rest : ∀ a, Steady (f a)) :
    Steady (m >>= f) := by
  intro s
  refine wp_seq (first s) fun a t same => ?_
  rw [← same]
  exact rest a t

theorem ite {c : Prop} [Decidable c] {m m' : SysM α} (yes : Steady m) (no : Steady m') :
    Steady (if c then m else m') := by
  split
  · exact yes
  · exact no

theorem get : Steady (MonadState.get : SysM System) := fun _ => rfl

theorem onVm (m : VmM α) : Steady (Sys.onVm m) := by
  intro s
  rw [wp_onVm]
  exact wp_intro (fun _ _ _ => rfl) fun _ _ => trivial

theorem setTask (i : Nat) (f : Task → Task) : Steady (Sys.setTask i f) := fun _ => rfl

theorem readFile (ip off n : Nat) : Steady (readFile sb ip off n) := by
  intro s
  rw [Sys.readFile, wp_onFs]
  refine wp_post (onInode_account _) fun _ fs same => ?_
  exact congrArg (·, s.outstanding) same

theorem loadsegLoop (pagetable va ip offset sz : Nat) : ∀ k i,
    Steady (loadsegLoop sb pagetable va ip offset sz k i) := by
  intro k
  induction k with
  | zero => exact fun i => pure true
  | succ k ih =>
      intro i
      rw [Sys.loadsegLoop]
      refine (onVm _).bind fun pa => ite (throw _) ?_
      refine (readFile _ _ _).bind ?_
      rintro ⟨r, bytes⟩
      exact (onVm _).bind fun _ => ite (pure false) (ih _)

theorem loadSegments (pagetable ip : Nat) :
    ∀ n off sz, Steady (loadSegments sb pagetable ip n off sz) := by
  intro n
  induction n with
  | zero => exact fun off sz => pure _
  | succ n ih =>
      intro off sz
      rw [Sys.loadSegments]
      refine (readFile _ _ _).bind ?_
      rintro ⟨r, ph⟩
      dsimp only
      split
      · exact pure _
      split
      · exact ih _ _
      split
      · exact pure _
      split
      · exact pure _
      split
      · exact pure _
      refine (onVm _).bind fun sz1 => ?_
      split
      · exact pure _
      refine (loadsegLoop _ _ _ _ _ _ _).bind fun ok => ?_
      exact ite (ih _ _) (pure _)

theorem pushArgs (p : Space) (pagetable lo : Nat) : ∀ argv sp ustack,
    Steady (pushArgs p pagetable lo argv sp ustack) := by
  intro argv
  induction argv with
  | nil => exact fun sp ustack => pure _
  | cons arg rest ih =>
      intro sp ustack
      rw [Sys.pushArgs]
      refine ite (pure _) (ite (pure _) ?_)
      exact (onVm _).bind fun r => ite (pure _) (ih _ _)

theorem pushStack (p : Space) (pagetable lo sp : Nat) (argv : List (List UInt8)) :
    Steady (pushStack p pagetable lo sp argv) := by
  rw [Sys.pushStack]
  refine (pushArgs _ _ _ _ _ _).bind fun found => ?_
  cases found with
  | none => exact pure _
  | some pushed => exact ite (pure _) ((onVm _).bind fun r => ite (pure _) (pure _))

theorem kexecImage (p : Nat) (path : Path) (argv : List (List UInt8)) (pagetable entry sz : Nat) :
    Steady (kexecImage p path argv pagetable entry sz) := by
  rw [Sys.kexecImage]
  refine get.bind fun s => ?_
  dsimp only
  refine (onVm _).bind fun sz1 => ?_
  split
  · exact (onVm _).bind fun _ => pure _
  generalize sz1 - (USERSTACK + 1) * PGSIZE = guard, sz1 - USERSTACK * PGSIZE = stackbase
  refine (onVm _).bind fun _ => ?_
  refine (pushStack _ _ _ _ _).bind fun found => ?_
  cases found with
  | none => exact (onVm _).bind fun _ => pure _
  | some stack => exact (setTask _ _).bind fun _ => (onVm _).bind fun _ => (onVm _).bind fun _ => pure _

end Steady

section Books
variable {sb : Superblock} {s : System} {l : Account} {n : Int} {ip : Nat}

theorem giveUp_books (own : books s = ((l.take ip).lock ip, n + 1)) (free : l.locked ip = false) :
    wp (giveUp sb ip) (fun _ => True) (fun _ s' => books s' = (l, n)) s := by
  obtain ⟨held, open'⟩ := Prod.mk.inj own
  rw [giveUp, wp_bind, wp_onFs]
  refine wp_post (iunlockput_account held free) fun _ fs back => ?_
  simp only [endExec, wp_bind, wp_modify, wp_onFs, endOp]
  have closed : s.outstanding - 1 = n := by omega
  exact Prod.ext back closed

/-- On every exit the inode has been given up and the transaction is over. -/
theorem kexec_steady (tramp p cwd : Nat) (path : Path) (argv : List (List UInt8)) :
    Steady (kexec tramp sb p cwd path argv) := by
  intro s
  simp only [kexec, beginExec, wp_bind, wp_modify, wp_onFs, beginOp]
  refine wp_post (namei_account cwd path _) ?_
  intro r fs found
  have start : account fs = (account s.fs).gained r := found
  cases r with
  | none =>
      simp only [endExec, wp_bind, wp_modify, wp_onFs, endOp, wp_pure]
      exact Prod.ext start (Int.add_sub_cancel ..)
  | some ip =>
      simp only [wp_bind, wp_onFs]
      refine wp_post ilock_account ?_
      rintro _ fs1 ⟨free, locked⟩
      rw [start] at free locked
      have leave : ∀ t : System, books t = (((account s.fs).take ip).lock ip, s.outstanding + 1) →
          wp (giveUp sb ip) (fun _ => True) (fun _ t' => books t' = books s) t :=
        fun t own => giveUp_books own free
      have bad : ∀ t : System, books t = (((account s.fs).take ip).lock ip, s.outstanding + 1) →
          wp (do giveUp sb ip; return (-1 : Int)) (fun _ => True) (fun _ t' => books t' = books s) t :=
        fun t own => wp_seq (leave t own) fun _ _ back => back
      refine wp_post (Steady.readFile ip 0 ELFHDR _) ?_
      rintro ⟨r, elf⟩ s2 same2
      have own2 := same2.trans (congrArg (·, s.outstanding + 1) locked)
      simp only [wp_ite]
      refine ⟨fun _ => bad s2 own2, fun _ => ?_⟩
      rw [wp_bind, wp_get, wp_bind]
      refine wp_post (Steady.onVm _ s2) ?_
      intro table s3 same3
      have own3 := same3.trans own2
      cases table with
      | none => exact bad s3 own3
      | some pagetable =>
          refine wp_seq (Steady.loadSegments pagetable ip _ _ _ s3) ?_
          rintro ⟨ok, sz⟩ s4 same4
          have own4 := same4.trans own3
          simp only [wp_ite]
          refine ⟨fun _ => ?_, fun _ => ?_⟩
          · refine wp_seq (Steady.onVm _ s4) fun _ s5 same5 => ?_
            exact bad s5 (same5.trans own4)
          · refine wp_seq (leave s4 own4) fun _ s5 back => ?_
            exact wp_post (Steady.kexecImage _ _ _ _ _ _ s5) fun _ _ same => same.trans back

end Books

/-! ## All or nothing -/

/-- Process `p` has a space, and its trap frame is a page of its own. -/
structure Loaded (tramp : Nat) (s : System) (p : Nat) : Prop where
  space : ∃ T L M, SpaceInv tramp s.phys (s.task p).space T L M ∧
    (s.task p).space.trapframe ∉ s.phys.free ∧ (s.task p).space.trapframe ∉ T ∧
    (s.task p).space.trapframe ∉ L
  kernel : 0 < s.phys.low
  text : tramp < 2 ^ 44
  frame : (s.task p).space.trapframe < 2 ^ 44

/-- Nothing has changed that anyone could notice. -/
structure Refused (s s' : System) (p : Nat) : Prop where
  pages : ∀ va, pages s'.phys (s.task p).space va = pages s.phys (s.task p).space va
  memory : ∀ q, q ∉ s.phys.free → s'.phys.mem q = s.phys.mem q
  free : s'.phys.free.Perm s.phys.free
  account : account s'.fs = account s.fs
  rest : s' = { s with phys := s'.phys, fs := s'.fs }

/-- The process has a new image, of pages that were free, and the pages of the old one are
free again. -/
structure Replaced (tramp : Nat) (s s' : System) (p : Nat) : Prop where
  loaded : Loaded tramp s' p
  frame : (s'.task p).space.trapframe = (s.task p).space.trapframe
  image : ∃ T T' L L' M M', SpaceInv tramp s.phys (s.task p).space T L M ∧
    SpaceInv tramp s'.phys (s'.task p).space T' L' M' ∧
    (∀ q, q ∈ T' ∨ q ∈ L' → q ∈ s.phys.free) ∧
    (∀ q, q ∈ s'.phys.free ↔ (q ∈ s.phys.free ∧ q ∉ T' ∧ q ∉ L') ∨ q ∈ T ∨ q ∈ L) ∧
    ∀ q, q ∉ s.phys.free → q ∉ T → q ∉ L → q ≠ (s.task p).space.trapframe →
      s'.phys.mem q = s.phys.mem q
  others : ∀ i, i ≠ p → s'.task i = s.task i
  account : account s'.fs = account s.fs
  rest : s' = { s with phys := s'.phys, fs := s'.fs, task := s'.task }

variable {tramp : Nat} {sb : Superblock} {s : System} {p : Nat}

/-- `kexec` replaces the image or changes nothing, and only the file system can stop it. -/
theorem exec_all_or_nothing (loaded : Loaded tramp s p) (cwd : Nat) (path : Path)
    (argv : List (List UInt8)) (short : ∀ arg, arg ∈ argv → arg.length < PGSIZE) :
    wp (kexec tramp sb p cwd path argv) FsOnly (fun r s' =>
      (r = -1 ∧ Refused s s' p) ∨ (0 ≤ r ∧ Replaced tramp s s' p)) s := by
  obtain ⟨T, L, M, inv, notFree, notTable, notLeaf⟩ := loaded.space
  have spec : wp (kexec tramp sb p cwd path argv) FsOnly (fun r s' => Executed tramp s s' p T L r) s :=
    kexec_spec inv ⟨notFree, notTable, notLeaf⟩ loaded.kernel loaded.text loaded.frame short
  refine wp_post (wp_and spec (kexec_steady tramp p cwd path argv s)) ?_
  rintro r s' ⟨executed, same⟩
  obtain ⟨account, open'⟩ := Prod.mk.inj same
  cases executed with
  | failed sets kept beside =>
      obtain ⟨inv', own⟩ := inv.away kept sets fun q _ => ⟨by simp, by simp⟩
      refine Or.inl ⟨rfl, pages_same inv inv' own, ?_, ?_, account, ?_⟩
      · exact fun q free => kept.frame q free (by simp) (by simp)
      · refine (List.perm_ext_iff_of_nodup sets.nodup inv.nodup).mpr fun q => ?_
        simpa using kept.pages q
      · unfold Beside at beside
        rw [beside, open']
  | done argc root sz name T' L' M' inv' apart fresh kept beside =>
      have task : s'.task = upd s.task p
          { s.task p with name := name, pagetable := some root, sz := sz } := beside.task
      have space : (s'.task p).space = ⟨root, sz, (s.task p).space.trapframe⟩ := by
        rw [task, upd_self]
        rfl
      rw [← space] at inv'
      refine Or.inr ⟨by omega, ⟨⟨T', L', M', inv', ?_⟩, ?_, loaded.text, ?_⟩, ?_, ?_, ?_, account, ?_⟩
      · rw [space]
        exact apart
      · rw [kept.low]
        exact loaded.kernel
      · rw [space]
        exact loaded.frame
      · rw [space]
      · refine ⟨T, T', L, L', M, M', inv, inv', fresh, fun q => ⟨fun free => ?_, ?_⟩, ?_⟩
        · have old := (kept.pages q).mp (Or.inl free)
          have differ : q ≠ (s.task p).space.trapframe := fun same => apart.1 (same ▸ free)
          simp only [Finset.mem_insert, differ, false_or] at old
          exact old.imp (fun was => ⟨was, inv'.freeT q free, inv'.freeL q free⟩) id
        · -- a page of the new image is neither left over nor of the old one
          intro own
          have was : q ∈ s.phys.free ∨ q ∈ T ∨ q ∈ L := own.imp And.left id
          have now := (kept.pages q).mpr (was.imp id (Or.imp id Finset.mem_insert_of_mem))
          have differ : q ≠ (s.task p).space.trapframe := by
            rintro rfl
            exact was.elim notFree fun old => old.elim notTable notLeaf
          simp only [Finset.mem_insert, differ, false_or] at now
          refine now.resolve_right fun image => ?_
          rcases own with ⟨-, noTable, noLeaf⟩ | table | leaf
          · exact image.elim noTable noLeaf
          · exact inv.freeT q (fresh q image) table
          · exact inv.freeL q (fresh q image) leaf
        · intro q free table leaf differ
          exact kept.frame q free table (by simp [differ, leaf])
      · intro i other
        rw [task, upd_of_ne other]
      · unfold Beside at beside
        rw [beside, open']

/-! ## A program that is written and then run -/

def littleEndian (n k : Nat) : List UInt8 :=
  (List.range n).map fun i => UInt8.ofNat (k / 256 ^ i % 256)

def program : List UInt8 :=
  littleEndian 4 ELF_MAGIC ++ littleEndian 28 0 ++ littleEndian 8 64 ++ littleEndian 16 0 ++
  littleEndian 8 1 ++ littleEndian 4 1 ++ littleEndian 4 7 ++ littleEndian 24 0 ++
  littleEndian 8 120 ++ littleEndian 8 120 ++ littleEndian 8 0

/-- The file `a` holds the program. -/
def makeProgram : List (Nat × Call) :=
  [(0, .open (some [97]) 0x202), (0, .write 0 120 (fun i => some (program.getD i 0)) 100000)]

def freshTable : Option Nat × Phys := ended (procPagetable (0x80007 * PGSIZE) 0x80050) freshPages

/-- Process 0 has the empty space that `userinit` makes. -/
def execSystem (fs : FsState) : System :=
  { forkSystem with
    task := upd forkSystem.task 0 { forkSystem.task 0 with sz := 0 }, phys := freshTable.2, fs := fs }

theorem execSystem_loaded (fs : FsState) : Loaded 0x80007 (execSystem fs) 0 := by
  have root : freshTable.1 = some 0x80100 := by decide +kernel
  obtain ⟨T, L, M, inv, kept, -⟩ := ended_building freshPages_sets (by decide) (by decide) root
  have free : 0x80050 ∉ freshPages.free := by decide
  have away := mt (kept.pages 0x80050).mp (by simpa using free)
  simp only [not_or] at away
  refine ⟨⟨T, L, M, inv, away⟩, ?_, by decide, (by decide : 0x80050 < 2 ^ 44)⟩
  rw [show (execSystem fs).phys.low = freshPages.low from kept.low]
  decide

/-- The answer of `kexec` for process 0. -/
def answers (fs : FsState) (path : Path) (answer : Int) : Bool :=
  match kexec 0x80007 mkfsSb 0 0 path [[120]] (execSystem fs) with
  | .ok (r, _) => decide (r = answer)
  | .error _ => false

theorem answers_run {fs : FsState} {path : Path} {answer : Int} (yes : answers fs path answer = true) :
    ∃ s', kexec 0x80007 mkfsSb 0 0 path [[120]] (execSystem fs) = .ok (answer, s') := by
  unfold answers at yes
  split at yes
  · next r s' run => exact ⟨s', by rw [run, of_decide_eq_true yes]⟩
  · cases yes

/-- `a` is run, and there is no `b`. -/
theorem execSystem_execs : ∃ fs s' s'',
    kexec 0x80007 mkfsSb 0 0 [97] [[120]] (execSystem fs) = .ok (1, s') ∧
    Replaced 0x80007 (execSystem fs) s' 0 ∧
    kexec 0x80007 mkfsSb 0 0 [98] [[120]] (execSystem fs) = .ok (-1, s'') ∧
    Refused (execSystem fs) s'' 0 := by
  obtain ⟨r, -, ends⟩ := Run.exists_of_exec (Fs.step mkfsSb) mkfsState makeProgram (0, .exit)
    (fun fs => answers fs [97] 1 && answers fs [98] (-1)) (by decide +kernel)
  rw [Bool.and_eq_true] at ends
  obtain ⟨s', run⟩ := answers_run ends.1
  obtain ⟨s'', run'⟩ := answers_run ends.2
  have loaded := execSystem_loaded (r.state r.len)
  refine ⟨r.state r.len, s', s'', run, ?_, run', ?_⟩
  · rcases wp_ok (exec_all_or_nothing loaded 0 [97] [[120]] (by decide)) run with ⟨no, -⟩ | ⟨-, new⟩
    · exact absurd no (by decide)
    · exact new
  · rcases wp_ok (exec_all_or_nothing loaded 0 [98] [[120]] (by decide)) run' with ⟨-, same⟩ | ⟨no, -⟩
    · exact same
    · exact absurd no (by decide)

end Xv6Fcfs.Sys
