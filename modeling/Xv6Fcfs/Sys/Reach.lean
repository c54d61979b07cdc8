import Xv6Fcfs.Sys.Pipe

/-!
# Reachable states

In every state of a run from `userinit` each page behind the kernel has one use, each slot has
the pages its state asks for, each open file has as many references as there are descriptors,
and no action of a process runs into a panic of the page tables or of the page allocator.
-/

set_option autoImplicit false

namespace Xv6Fcfs.Sys

open Xv6Fcfs.Lib Xv6Fcfs.Vm Xv6Fcfs.Fs
open Xv6Fcfs.Process (ProcState wrapInt)

/-- What the slot of a process has. -/
inductive SlotOk (t : Task) (files : Option ProcFiles) (e : Option Fetched) : Prop where
  | unused (state : t.state = .unused) (frame : t.trapframe = none) (table : t.pagetable = none)
      (size : t.sz = 0) (closed : files = none) (idle : e = none)
  | live (root f : Nat) (state : t.state = .runnable) (frame : t.trapframe = some f)
      (table : t.pagetable = some root) (opened : files.isSome = true)
  | zombie (root f : Nat) (state : t.state = .zombie) (frame : t.trapframe = some f)
      (table : t.pagetable = some root) (closed : files = none) (idle : e = none)

structure SameSpace (t t' : Task) : Prop where
  state : t'.state = t.state
  frame : t'.trapframe = t.trapframe
  table : t'.pagetable = t.pagetable
  size : t'.sz = t.sz

/-- A state between two actions. -/
structure Good (tramp : Nat) (G : Guard) (s : System) : Prop where
  sound : Sound tramp G [] (fun _ => 0) s
  slots : ∀ i, SlotOk (s.task i) (s.fs.proc i) (s.exec i)
  held : ∀ j, G.slot j → (s.task j).state = .runnable ∧ SameSpace (G.task j) (s.task j)

/-- What can stop an action: a panic of the file system, or of `forkret` without an `/init`. -/
def Calm (e : Halt) : Prop := FsOnly e ∨ e = .noInit

section Slots
variable {t t' : Task} {files files' : Option ProcFiles} {e e' : Option Fetched}

theorem SameSpace.refl (t : Task) : SameSpace t t := ⟨rfl, rfl, rfl, rfl⟩

theorem SameSpace.of_eq (same : t' = t) : SameSpace t t' := by
  rw [same]
  exact .refl t

theorem SlotOk.congr (ok : SlotOk t files e) (space : SameSpace t t')
    (same : files'.isSome = files.isSome)
    (exec : e' = e) : SlotOk t' files' e' := by
  obtain ⟨state, frame, table, size⟩ := space
  have closed : files = none → files' = none := by
    rintro rfl
    exact Option.not_isSome_iff_eq_none.mp (by rw [same]; simp)
  cases ok with
  | unused isUnused noFrame noTable zero shut idle =>
      exact .unused (state.trans isUnused) (frame.trans noFrame) (table.trans noTable) (size.trans zero)
        (closed shut) (exec.trans idle)
  | live root f isLive hasFrame hasTable opened =>
      exact .live root f (state.trans isLive) (frame.trans hasFrame) (table.trans hasTable)
        (same.trans opened)
  | zombie root f isZombie hasFrame hasTable shut idle =>
      exact .zombie root f (state.trans isZombie) (frame.trans hasFrame)
        (table.trans hasTable) (closed shut)
        (exec.trans idle)

theorem SlotOk.of_live (ok : SlotOk t files e) (live : t.state = .runnable) :
    ∃ root f, t.trapframe = some f ∧ t.pagetable = some root ∧ ∃ opened, files = some opened := by
  cases ok with
  | unused isUnused => cases isUnused.symm.trans live
  | live root f _ frame table opened =>
      exact ⟨root, f, frame, table, Option.isSome_iff_exists.mp opened⟩
  | zombie root f isZombie => cases isZombie.symm.trans live

theorem SlotOk.of_zombie (ok : SlotOk t files e) (zombie : t.state = .zombie) :
    (∃ root f, t.trapframe = some f ∧ t.pagetable = some root) ∧ files = none ∧ e = none := by
  cases ok with
  | unused isUnused => cases isUnused.symm.trans zombie
  | live root f isLive => cases isLive.symm.trans zombie
  | zombie root f _ frame table closed idle => exact ⟨⟨root, f, frame, table⟩, closed, idle⟩

theorem SlotOk.of_unused (ok : SlotOk t files e) (unused : t.state = .unused) :
    (t.trapframe = none ∧ t.pagetable = none ∧ t.sz = 0) ∧ files = none ∧ e = none := by
  cases ok with
  | unused _ frame table size closed idle => exact ⟨⟨frame, table, size⟩, closed, idle⟩
  | live root f isLive => cases isLive.symm.trans unused
  | zombie root f isZombie => cases isZombie.symm.trans unused

end Slots

section Steps
variable {tramp : Nat} {G : Guard} {s s' : System} {sb : Superblock} {p : Nat} {files : ProcFiles}

theorem Good.hold (good : Good tramp G s)
    (task : ∀ i, G.slot i → SameSpace (s.task i) (s'.task i)) (j : Nat)
    (inside : G.slot j) : (s'.task j).state = .runnable ∧ SameSpace (G.task j) (s'.task j) := by
  obtain ⟨live, space⟩ := good.held j inside
  obtain ⟨state, frame, table, size⟩ := task j inside
  exact ⟨state.trans live, state.trans space.state, frame.trans space.frame, table.trans space.table,
    size.trans space.size⟩

theorem Good.spared (good : Good tramp G s) (notLive : (s.task p).state ≠ .runnable) : ¬ G.slot p :=
  fun inside => notLive (good.held p inside).1

theorem Good.update (good : Good tramp G s) (p : Nat) (spared : ¬ G.slot p)
    (sound : Sound tramp G [] (fun _ => 0) s')
    (task : ∀ i, i ≠ p → SameSpace (s.task i) (s'.task i))
    (holders : ∀ i, i ≠ p → (s'.fs.proc i).isSome = (s.fs.proc i).isSome)
    (exec : ∀ i, i ≠ p → s'.exec i = s.exec i) (mine : SlotOk (s'.task p) (s'.fs.proc p) (s'.exec p)) :
    Good tramp G s' := by
  refine ⟨sound, fun i => ?_, good.hold fun i inside => task i ?_⟩
  · by_cases here : i = p
    · rw [here]
      exact mine
    · exact (good.slots i).congr (task i here) (holders i here) (exec i here)
  · rintro rfl
    exact spared inside

theorem Good.clean (good : Good tramp G s) (clean : Clean tramp G s s') : Good tramp G s' := by
  have only := clean.only
  unfold OnlyFiles at only
  have task : s'.task = s.task := by rw [only]
  have exec : s'.exec = s.exec := by rw [only]
  have still : ∀ i, SameSpace (s.task i) (s'.task i) := fun i => .of_eq (by rw [task])
  exact ⟨clean.sound, fun i => (good.slots i).congr (still i) (clean.holders i) (by rw [exec]),
    good.hold fun i _ => still i⟩

theorem Good.withPhys {v : Phys} (good : Good tramp G s)
    (paged : Paged tramp G [] { s with phys := v }) :
    Good tramp G { s with phys := v } := ⟨good.sound.withPhys paged, good.slots, good.held⟩

theorem Good.blank (good : Good tramp G s) : Blank s :=
  fun i unused => ((good.slots i).of_unused unused).1

theorem Good.actor (good : Good tramp G s) (live : (s.task p).state = .runnable) :
    ∃ root f files, Mapped s p root f ∧ s.fs.proc p = some files := by
  obtain ⟨root, f, frame, table, files, opened⟩ := (good.slots p).of_live live
  exact ⟨root, f, files, ⟨frame, table⟩, opened⟩

/-! ## The calls -/

theorem call_good (good : Good tramp G s) (bound : p < NPROC) (proc : s.fs.proc p = some files)
    {c : Call} (plain : c.plain) :
    wp (onFs (runCall sb p files c)) FsOnly (fun _ s' => Good tramp G s') s := by
  rw [wp_onFs]
  have sound := good.sound
  refine wp_mono (runCall_handles proc (fun f _ => sound.piped.closed f) plain) ?_ fun e _ => ⟨e, rfl⟩
  intro r fs effect
  have after : Sound tramp G [] (fun _ => 0) { s with fs := fs } :=
    sound.withFs (sound.piped.effect effect) (effect.balanced sound.counted bound)
  have given : ∀ {f fd : Nat}, FdGiven p f fd (handles s.fs) (handles fs) →
    SameHolders s { s with fs := fs } := by
    intro f fd given
    obtain ⟨files', proc', -, new⟩ := given.free
    intro i
    show ((handles fs).proc i).isSome = ((handles s.fs).proc i).isSome
    rw [new]
    by_cases here : i = p
    · rw [here, upd_self, proc']
      rfl
    · rw [upd_of_ne here]
  refine good.clean ⟨after, ?_, rfl⟩
  cases effect with
  | same file fds =>
      intro i
      have same := congrArg Option.isSome (fds i)
      rw [Option.isSome_map, Option.isSome_map] at same
      exact same
  | opened f fd ff _ _ _ _ _ new => exact given new
  | dup f fd fd0 _ _ _ _ new => exact given new

theorem fork_good (good : Good tramp G s) (bound : p < NPROC) (live : (s.task p).state = .runnable)
    (proc : s.fs.proc p = some files) {root f : Nat} (mapped : Mapped s p root f) :
    wp (kfork tramp p files) FsOnly (fun _ s' => Good tramp G s') s := by
  have sound := good.sound
  refine wp_post (kfork_paged sound.paged mapped good.blank (by rw [live]; decide)
    (fun i unused => ((good.slots i).of_unused unused).2.1) ?_) ?_
  · exact fun fd g inside has => sound.counted.opened rfl bound proc inside has
  · rintro _ s' ⟨paged, ⟨np, forks⟩ | ⟨rest, same⟩⟩
    · obtain ⟨-, closed, idle⟩ := (good.slots np).of_unused forks.unused
      have procs : s'.fs.proc = upd s.fs.proc np (some files) := by rw [forks.shared.rest]
      have rest := forks.rest
      have task : s'.task = upd s.task np (s'.task np) := by
        conv_lhs => rw [rest]
      have exec : s'.exec = s.exec := by rw [rest]
      have pipe : s'.pipe = s.pipe := by rw [rest]
      have ends : s'.ends = s.ends := by rw [rest]
      refine good.update np (good.spared (by rw [forks.unused]; decide)) ⟨paged, ?_, ?_⟩ ?_ ?_ ?_ ?_
      · rw [pipe, ends]
        refine sound.piped.of_same ?_ ?_ ?_
        · intro g
          simp only [handles, File.bare, forks.shared.file g]
        · intro g _
          simp only [handles, File.bare, forks.shared.file g]
        · intro g zero
          simp only [handles, File.bare, forks.shared.file g] at zero ⊢
          exact sound.piped.closed g (show (s.fs.ftable g).ref = 0 by omega)
      · intro g
        have before := sound.counted g
        have total := holders_upd (handles s.fs).fds forks.slot (some files.ofile) g
        have empty : (handles s.fs).fds np = none := congrArg (Option.map ProcFiles.ofile) closed
        have fds : (handles s'.fs).fds = upd (handles s.fs).fds np (some files.ofile) := by
          have same := fds_upd (h := handles s.fs) np (some files)
          rw [Option.map_some] at same
          rw [← same]
          funext i
          exact congrArg (fun proc => (proc i).map ProcFiles.ofile) procs
        rw [empty, row_none] at total
        rw [fds]
        have ref : ((handles s'.fs).file g).ref =
          ((handles s.fs).file g).ref + row (some files.ofile) g := by
          simp only [handles, File.bare, forks.shared.file g]
          rfl
        show _ = (_ : Int) + 0
        omega
      · exact fun i other => .of_eq (by rw [task, upd_of_ne other])
      · intro i other
        rw [procs, upd_of_ne other]
      · exact fun i _ => by rw [exec]
      · obtain ⟨root', f', mapped'⟩ := forks.mapped
        refine .live root' f' forks.state mapped'.frame mapped'.table ?_
        rw [procs, upd_self]
        rfl
    · have fs : s'.fs = s.fs := by rw [rest]
      have exec : s'.exec = s.exec := by rw [rest]
      have after : Sound tramp G [] (fun _ => 0) s' := by
        refine ⟨paged, ?_, ?_⟩
        · have pipe : s'.pipe = s.pipe := by rw [rest]
          have ends : s'.ends = s.ends := by rw [rest]
          rw [fs, pipe, ends]
          exact sound.piped
        · rw [fs]
          exact sound.counted
      rcases same with task | ⟨np, unused, task⟩
      · refine ⟨after, fun i => ?_, ?_⟩
        · rw [task, fs, exec]
          exact good.slots i
        · rw [task]
          exact good.held
      · obtain ⟨-, closed, idle⟩ := (good.slots np).of_unused unused
        refine good.update np (good.spared (by rw [unused]; decide)) after ?_ ?_ ?_ ?_
        · exact fun i other => .of_eq (by rw [task, upd_of_ne other])
        · exact fun i _ => by rw [fs]
        · exact fun i _ => by rw [exec]
        · rw [task, upd_self, fs, exec]
          exact .unused rfl rfl rfl rfl closed idle

theorem Good.own (good : Good tramp G s) (spared : ¬ G.slot p) (live : (s.task p).state = .runnable)
    (proc : s.fs.proc p = some files) (sound : Sound tramp G [] (fun _ => 0) s') {root f : Nat}
    (mapped : Mapped s' p root f) (state : (s'.task p).state = (s.task p).state)
    (task : ∀ i, i ≠ p → s'.task i = s.task i) (procs : s'.fs.proc = s.fs.proc)
    (exec : ∀ i, i ≠ p → s'.exec i = s.exec i) : Good tramp G s' := by
  refine good.update p spared sound (fun i other => .of_eq (task i other))
    (fun i _ => by rw [procs]) exec ?_
  · refine .live root f (state.trans live) mapped.frame mapped.table ?_
    rw [procs, proc]
    rfl

theorem Sound.same {x : Nat → Int} {C : List Nat} (sound : Sound tramp G C x s)
    (paged : Paged tramp G C s')
    (handles : handles s'.fs = handles s.fs) (pipe : s'.pipe = s.pipe) (ends : s'.ends = s.ends) :
    Sound tramp G C x s' := by
  refine ⟨paged, ?_, ?_⟩
  · rw [handles, pipe, ends]
    exact sound.piped
  · rw [handles]
    exact sound.counted

theorem handles_of_account {fs fs' : FsState} (same : account fs' = account fs) :
    handles fs' = handles fs := by
  have ftable : fs'.ftable = fs.ftable := congrArg Account.ftable same
  have proc : fs'.proc = fs.proc := congrArg Account.proc same
  simp only [handles, ftable, proc]

section Actor
variable {root f : Nat}

theorem sbrk_good (good : Good tramp G s) (spared : ¬ G.slot p) (live : (s.task p).state = .runnable)
    (proc : s.fs.proc p = some files) (mapped : Mapped s p root f) (n t : Int) :
    wp (sysSbrk p (wrapInt n) t) FsOnly (fun _ s' => Good tramp G s') s := by
  refine wp_post (sysSbrk_paged good.sound.paged spared mapped n t) ?_
  rintro _ s' ⟨paged, rest⟩
  have task : s'.task = upd s.task p { s.task p with sz := (s'.task p).sz } := by
    conv_lhs => rw [rest]
  have mapped' : Mapped s' p root f := by
    refine ⟨?_, ?_⟩ <;> rw [task, upd_self]
    · exact mapped.frame
    · exact mapped.table
  refine good.own spared live proc (good.sound.same paged ?_ ?_ ?_) mapped' ?_ ?_ ?_ ?_
  · rw [rest]
  · rw [rest]
  · rw [rest]
  · rw [task, upd_self]
  · exact fun i other => by rw [task, upd_of_ne other]
  · rw [rest]
  · exact fun i _ => by rw [rest]

theorem fetch_good (good : Good tramp G s) (spared : ¬ G.slot p) (live : (s.task p).state = .runnable)
    (proc : s.fs.proc p = some files) (mapped : Mapped s p root f) (idle : s.exec p = none)
    (path uargv : Nat) :
    wp (sysExecFetch p path uargv) FsOnly (fun _ s' => Good tramp G s') s := by
  refine wp_post (sysExecFetch_paged good.sound.paged spared mapped idle path uargv) ?_
  rintro _ s' ⟨paged, rest⟩
  have exec : s'.exec = upd s.exec p (s'.exec p) := by
    conv_lhs => rw [rest]
  have mapped' : Mapped s' p root f := by
    refine ⟨?_, ?_⟩ <;> rw [rest]
    · exact mapped.frame
    · exact mapped.table
  refine good.own spared live proc (good.sound.same paged ?_ ?_ ?_) mapped' ?_ ?_ ?_ ?_
  · rw [rest]
  · rw [rest]
  · rw [rest]
  · rw [rest]
  · exact fun i _ => by rw [rest]
  · rw [rest]
  · exact fun i other => by rw [exec, upd_of_ne other]

theorem run_good (good : Good tramp G s) (spared : ¬ G.slot p) (live : (s.task p).state = .runnable)
    (proc : s.fs.proc p = some files) (mapped : Mapped s p root f) {fetched : Fetched}
    (has : s.exec p = some fetched) (cwd : Nat) :
    wp (sysExecRun tramp sb p cwd fetched) FsOnly (fun _ s' => Good tramp G s') s := by
  refine wp_post (sysExecRun_paged good.sound.paged spared mapped has sb) ?_
  rintro _ s' ⟨paged, ⟨root', mapped'⟩, state, account, rest⟩
  have files := handles_of_account account
  have task : s'.task = upd s.task p (s'.task p) := by
    conv_lhs => rw [rest]
  have exec : s'.exec = upd s.exec p none := by rw [rest]
  refine good.own spared live proc (good.sound.same paged files ?_ ?_) mapped' state ?_ ?_ ?_
  · rw [rest]
  · rw [rest]
  · exact fun i other => by rw [task, upd_of_ne other]
  · exact congrArg Handles.proc files
  · exact fun i other => by rw [exec, upd_of_ne other]

theorem forkret_good (good : Good tramp G s) (spared : ¬ G.slot p) (live : (s.task p).state = .runnable)
    (proc : s.fs.proc p = some files) (mapped : Mapped s p root f) (cwd : Nat) :
    wp (forkret tramp sb p cwd) Calm (fun _ s' => Good tramp G s') s := by
  rw [forkret, wp_bind, wp_get, wp_ite]
  refine ⟨fun _ => ?_, fun _ => good⟩
  rw [wp_bind, wp_onFs]
  have keeps : Keeps (initFs sb) := by
    refine Keeps.bind (Keeps.modify ?_) fun _ => Keeps.ireclaim sb
    exact fun _ => rfl
  refine wp_mono (keeps s.fs) ?_ fun e _ => Or.inl ⟨e, rfl⟩
  intro _ fs same
  rw [wp_bind, wp_modify, wp_bind]
  have paged : Paged tramp G [] { s with fs := fs, first := false } :=
    good.sound.paged.same rfl (fun _ => ⟨rfl, rfl, rfl⟩) rfl rfl
  have loaded := kexec_paged (p := p) (f := f) paged spared ⟨mapped.frame, mapped.table⟩ sb cwd
    initPath [initPath]
    (by decide)
  refine wp_mono loaded ?_ fun e stop => Or.inl stop
  rintro r s1 ⟨paged1, ⟨root', mapped1⟩, state, account, rest⟩
  have files1 : handles s1.fs = handles s.fs := (handles_of_account account).trans same
  have task : s1.task = upd s.task p (s1.task p) := by
    conv_lhs => rw [rest]
  have exec : s1.exec = s.exec := by rw [rest]
  have good1 : Good tramp G s1 := by
    refine good.own spared live proc (good.sound.same paged1 files1 ?_ ?_) mapped1 state ?_ ?_ ?_
    · rw [rest]
    · rw [rest]
    · exact fun i other => by rw [task, upd_of_ne other]
    · exact congrArg Handles.proc files1
    · exact fun i _ => by rw [exec]
  simp only [wp_bind, wp_onVm, wp_modify, wp_ite, wp_throw, wp_pure]
  rw [mapped.space]
  exact ⟨fun _ => Or.inr rfl, fun _ => good1.withPhys (paged1.writeFrame spared mapped1 _)⟩

theorem zombieChild_some {task : Nat → Task} {p i : Nat} :
    ∀ {n lo : Nat}, zombieChild task p lo n = some i →
    (task i).state = .zombie := by
  intro n
  induction n with
  | zero => intro lo found; cases found
  | succ n ih =>
      intro lo found
      rw [zombieChild] at found
      split at found
      · next both =>
        cases found
        exact both.2
      · exact ih found

theorem wait_good (good : Good tramp G s) (spared : ¬ G.slot p) (mapped : Mapped s p root f)
    (addr : Nat) :
    wp (kwait p addr) FsOnly (fun _ s' => Good tramp G s') s := by
  rw [kwait, wp_bind, wp_get]
  cases found : zombieChild s.task p 0 NPROC with
  | none =>
      simp only [wp_ite, wp_pure]
      exact ⟨fun _ => good, fun _ => good⟩
  | some i =>
      have zombie := zombieChild_some found
      obtain ⟨⟨rootI, g, frame, table⟩, closed, idle⟩ := (good.slots i).of_zombie zombie
      -- the rest, with whatever `copyout` has done to the memory
      have rest : ∀ (r : Int) (v : Phys), Paged tramp G [] { s with phys := v } →
          wp (if r < 0 then return some (-1) else do
            freeproc i
            return some (s.task i).pid : SysM (Option Int)) FsOnly (fun _ s' => Good tramp G s')
            { s with phys := v } := by
        intro r v paged
        rw [wp_ite]
        refine ⟨fun _ => good.withPhys paged, fun _ => ?_⟩
        rw [wp_bind]
        refine wp_post (freeproc_paged (i := i) paged (good.spared (by rw [zombie]; decide))
          ⟨frame, table⟩) ?_
        rintro _ s' ⟨after, rest⟩
        have task : s'.task = upd s.task i (s.task i).freed := by rw [rest]
        have fs : s'.fs = s.fs := by rw [rest]
        have exec : s'.exec = s.exec := by rw [rest]
        refine good.update i (good.spared (by rw [zombie]; decide))
          (good.sound.same after ?_ ?_ ?_) ?_ ?_ ?_ ?_
        · rw [fs]
        · rw [rest]
        · rw [rest]
        · exact fun j other => .of_eq (by rw [task, upd_of_ne other])
        · exact fun j _ => by rw [fs]
        · exact fun j _ => by rw [exec]
        · rw [task, upd_self, fs, exec]
          exact .unused rfl rfl rfl rfl closed idle
      simp only
      by_cases copies : addr ≠ 0
      · rw [if_pos copies, wp_bind, wp_onVm]
        refine wp_post (good.sound.paged.copyout spared mapped addr _) ?_
        exact fun r v paged => rest r v paged
      · rw [if_neg copies, wp_bind]
        exact rest 0 s.phys good.sound.paged

end Actor

theorem exit_good (good : Good tramp G s) (spared : ¬ G.slot p) (bound : p < NPROC)
    (live : (s.task p).state = .runnable)
    (proc : s.fs.proc p = some files) (idle : s.exec p = none) (status : Int) :
    wp (kexit sb p files status) FsOnly (fun _ s' => Good tramp G s') s := by
  obtain ⟨root, f, frame, table, -⟩ := (good.slots p).of_live live
  refine wp_post (kexit_exited good.sound bound proc status) ?_
  rintro _ s' ⟨sound, holders, rest⟩
  have task : s'.task = upd (reparent p s.task) p
      { reparent p s.task p with xstate := status, state := .zombie } := by rw [rest]
  have exec : s'.exec = s.exec := by rw [rest]
  refine good.update p spared sound ?_ ?_ ?_ ?_
  · intro i other
    obtain ⟨sameFrame, sameTable, size, state⟩ := reparent_same p i s.task
    rw [task, upd_of_ne other]
    exact ⟨state, sameFrame, sameTable, size⟩
  · exact fun i other => (holders i).trans (if_neg other)
  · exact fun i _ => by rw [exec]
  · obtain ⟨sameFrame, sameTable, -, -⟩ := reparent_same p p s.task
    have closed := holders p
    rw [if_pos rfl, Option.isSome_eq_false_iff, Option.isNone_iff_eq_none] at closed
    rw [task, upd_self, closed, exec]
    exact .zombie root f rfl (sameFrame.trans frame) (sameTable.trans table) rfl idle

/-- An action keeps the invariant, and only the file system can stop it. -/
theorem runAct_good (good : Good tramp G s) (spared : ¬ G.slot p) {a : Act} (enabled : Enabled s p a) :
    wp (runAct tramp sb p a) Calm (fun _ s' => Good tramp G s') s := by
  obtain ⟨bound, live, phase⟩ := enabled
  obtain ⟨root, f, files, mapped, proc⟩ := good.actor live
  have calm : ∀ {α : Type} {m : SysM α}, wp m FsOnly (fun _ s' => Good tramp G s') s →
      wp m Calm (fun _ s' => Good tramp G s') s := fun spec =>
    wp_mono spec (fun _ _ after => after) fun e stop => Or.inl stop
  have idle : a.resumes = false → s.exec p = none := by
    intro no
    rw [no] at phase
    exact Option.not_isSome_iff_eq_none.mp (by rw [phase]; decide)
  cases a with
  | call c =>
      simp only [runAct, filesOf, wp_bind, wp_get, wp_pure, proc, Option.getD_some]
      exact calm (call_good good bound proc c.2)
  | user c =>
      simp only [runAct, wp_bind, wp_get, wp_pure, wp_onVm]
      exact wp_post (good.sound.paged.user spared mapped c) fun _ _ paged => good.withPhys paged
  | save regs =>
      simp only [runAct, wp_bind, wp_get, wp_pure, wp_onVm, wp_modify]
      rw [mapped.space]
      exact good.withPhys (good.sound.paged.writeFrame spared mapped regs)
  | fault va =>
      simp only [runAct, usertrapFault, wp_bind, wp_get, wp_pure, wp_onVm]
      refine wp_post (good.sound.paged.vmfault spared mapped va.toNat) ?_
      intro pa v paged
      have good1 := good.withPhys paged
      simp only [wp_ite, wp_setTask, wp_pure]
      refine ⟨fun _ => ?_, fun _ => good1⟩
      have same : ∀ i, SameSpace (s.task i) (upd s.task p { s.task p with killed := true } i) := by
        intro i
        by_cases here : i = p
        · rw [here, upd_self]
          exact ⟨rfl, rfl, rfl, rfl⟩
        · rw [upd_of_ne here]
          exact ⟨rfl, rfl, rfl, rfl⟩
      refine ⟨good1.sound.same (good1.sound.paged.same rfl (fun i => ?_) rfl rfl) rfl rfl rfl,
        fun i => (good.slots i).congr (same i) rfl rfl, good.hold fun i _ => same i⟩
      exact ⟨(same i).frame, (same i).table, (same i).size⟩
  | sbrk n t =>
      simp only [runAct, wp_bind, wp_pure]
      exact calm (sbrk_good good spared live proc mapped n _)
  | fork =>
      simp only [runAct, filesOf, wp_bind, wp_get, wp_pure, proc, Option.getD_some]
      exact calm (fork_good good bound live proc mapped)
  | pipe fdarray =>
      simp only [runAct, wp_bind, wp_pure]
      exact calm (wp_post (sysPipe_clean good.sound bound proc spared mapped _) fun _ _ clean =>
        good.clean clean)
  | close fd =>
      simp only [runAct, filesOf, wp_bind, wp_get, wp_pure, proc, Option.getD_some]
      exact calm (wp_post (sysClose_clean good.sound bound proc fd) fun _ _ clean => good.clean clean)
  | execFetch path uargv =>
      simp only [runAct, wp_bind, wp_pure]
      exact calm (fetch_good good spared live proc mapped (idle rfl) _ _)
  | execRun =>
      simp only [runAct, wp_bind, wp_get]
      cases has : s.exec p with
      | none => exact good
      | some fetched =>
          simp only [filesOf, wp_bind, wp_get, wp_pure, proc, Option.getD_some]
          exact calm (run_good good spared live proc mapped has _)
  | wait addr =>
      rw [runAct]
      exact calm (wait_good good spared mapped _)
  | exit status =>
      simp only [runAct, filesOf, wp_bind, wp_get, wp_pure, proc, Option.getD_some]
      exact calm (exit_good good spared bound live proc (idle rfl) status)
  | forkret =>
      simp only [runAct, filesOf, wp_bind, wp_get, wp_pure, proc, Option.getD_some]
      exact forkret_good good spared live proc mapped _

theorem Good.refuse (good : Good tramp G s) (refusals : List Bool) :
    Good tramp G (s.refuse refusals) := by
  obtain ⟨own, inv⟩ := good.sound.paged
  have paged : Paged tramp G [] (s.refuse refusals) :=
    ⟨own, inv.stay rfl rfl (fun _ _ => rfl) (fun _ => ⟨rfl, rfl, rfl⟩) rfl rfl⟩
  exact ⟨good.sound.same paged rfl rfl rfl, good.slots, good.held⟩

theorem step_good (good : Good tramp G s) {e : Event} (spared : ¬ G.slot e.proc)
    (run : step tramp sb s e = some s') :
    Good tramp G s' := by
  unfold step at run
  split at run
  · next enabled =>
    have spec : wp (runAct tramp sb e.proc e.act) Calm (fun _ s' => Good tramp G s')
      (s.refuse e.refusals) :=
      runAct_good (good.refuse e.refusals) spared ⟨enabled.slot, enabled.live, enabled.phase⟩
    split at run
    · next r t done =>
      obtain rfl := Option.some.inj run
      have after := wp_ok spec done
      exact after
    · cases run
  · cases run

/-! ## The start -/

variable {fixed : Finset Nat}

def noGuard (fixed : Finset Nat) : Guard :=
    ⟨fixed, fun _ => False, fun _ => .outside, fun _ _ => 0, fun _ => emptyTask⟩

def firstOwner (s : System) (fixed : Finset Nat) : Nat → Owner := fun q =>
  if q ∈ s.phys.free then .free else if q ∈ fixed then .fixed else .outside

theorem Before.owned (before : Before tramp fixed s) :
    Owned tramp (noGuard fixed) (firstOwner s fixed) [] s := by
  have cases' : ∀ q, (q ∈ s.phys.free ∧ q ∉ fixed ∧ firstOwner s fixed q = .free) ∨
      (q ∉ s.phys.free ∧ q ∈ fixed ∧ firstOwner s fixed q = .fixed) ∨
      (q ∉ s.phys.free ∧ q ∉ fixed ∧ firstOwner s fixed q = .outside) := by
    intro q
    unfold firstOwner
    by_cases free : q ∈ s.phys.free
    · exact Or.inl ⟨free, before.apart q free, if_pos free⟩
    · rw [if_neg free]
      by_cases inside : q ∈ fixed
      · exact Or.inr (Or.inl ⟨free, inside, if_pos inside⟩)
      · exact Or.inr (Or.inr ⟨free, inside, if_neg inside⟩)
  have never : ∀ o : Owner, o ≠ .free → o ≠ .fixed → o ≠ .outside → ∀ q, firstOwner s fixed q ≠ o := by
    intro o notFree notFixed notOutside q
    rcases cases' q with ⟨-, -, eq⟩ | ⟨-, -, eq⟩ | ⟨-, -, eq⟩ <;> rw [eq]
    · exact notFree.symm
    · exact notFixed.symm
    · exact notOutside.symm
  refine ⟨before.text, before.nodup, ?_, ?_, ?_, ?_, ?_, ?_, ?_, List.nodup_nil, ?_⟩
  · intro q
    rcases cases' q with ⟨free, -, eq⟩ | ⟨free, -, eq⟩ | ⟨free, -, eq⟩ <;> simp [eq, free]
  · intro q
    rw [← before.pages]
    rcases cases' q with ⟨free, inside, eq⟩ | ⟨free, inside, eq⟩ |
      ⟨free, inside, eq⟩ <;> simp [eq, free, inside]
  · intro q
    rcases cases' q with ⟨-, inside, eq⟩ | ⟨-, inside, eq⟩ |
      ⟨-, inside, eq⟩ <;> simp [noGuard, eq, inside]
  · intro i
    refine ⟨∅, ∅, ?_, ?_, ?_, .empty ?_ ?_⟩
    · exact fun q => iff_of_false (never _ (by simp) (by simp) (by simp) q)
        (by simp [before.task, emptyTask])
    · exact fun q => iff_of_false (never _ (by simp) (by simp) (by simp) q) (by simp)
    · exact fun q => iff_of_false (never _ (by simp) (by simp) (by simp) q) (by simp)
    · rw [before.task]; rfl
    · rw [before.task]; rfl
  · intro i
    refine ⟨fun q => iff_of_false (never _ (by simp) (by simp) (by simp) q) ?_, ?_, ?_⟩ <;>
      simp [before.exec]
  · exact fun q => iff_of_false (never _ (by decide) (by decide) (by decide) q) (by simp [before.ends])
  · exact fun q => iff_of_false (never _ (by decide) (by decide) (by decide) q) (by simp)
  · rintro q ⟨j, ⟨⟩, -⟩

theorem Before.good (before : Before tramp fixed s) : Good tramp (noGuard fixed) s := by
  have noFds : ∀ i, (handles s.fs).fds i = none := fun i => congrArg (Option.map ProcFiles.ofile)
    (before.procs i)
  refine ⟨⟨⟨_, before.owned⟩, ⟨?_, ?_, ?_, ?_⟩, ?_⟩, ?_, by rintro j ⟨⟩⟩
  · exact fun f _ => (before.files f).2
  · intro f q w isEnd
    cases (before.files f).2.symm.trans isEnd.1
  · intro f g q w isEnd
    cases (before.files f).2.symm.trans isEnd.1
  · intro q w opened
    rw [before.ends] at opened
    cases w <;> cases opened
  · intro f
    have zero : ((handles s.fs).file f).ref = 0 := (before.files f).1
    have none : holders (handles s.fs).fds f = 0 := by
      refine Finset.sum_eq_zero fun i _ => ?_
      rw [noFds i, row_none]
    rw [zero, none]
    rfl
  · intro i
    rw [before.task, before.procs, before.exec]
    exact .unused rfl rfl rfl rfl rfl rfl

theorem userinit_good (before : Before tramp fixed s) :
    wp (userinit tramp sb) (fun _ => True) (fun _ s' => Good tramp (noGuard fixed) s') s := by
  have good := before.good
  have inv := before.owned
  have small : tramp < 2 ^ 44 := by
    have top : PHYSTOP / PGSIZE = 0x88000 := by decide
    have text := before.text
    have high := before.top
    omega
  have noSlot : ∀ i, SlotOwns tramp (firstOwner s fixed) s.phys i (s.task i) ∅ ∅ := by
    intro i
    exact (inv.unmapped (by rw [before.task]; rfl)).2
  have sets : Sets s.phys ∅ ∅ := by
    have mine := inv.sets (noSlot 0)
    rw [before.task] at mine
    exact mine
  rw [userinit, wp_bind]
  refine wp_post (allocproc_spec sets good.blank small) ?_
  rintro r s1 allotted
  cases allotted with
  | full same => trivial
  | failed => trivial
  | made p f root T M unused slot sets1 space kept empty rest =>
      have memory : ∀ L0, (s.task p).memory L0 = L0 := by
        intro L0
        simp only [Task.memory, before.task, emptyTask]
      have free : ¬ (noGuard fixed).slot p := id
      have paged : Paged tramp (noGuard fixed) [] { s with
          phys := s1.phys, task := upd s.task p ((s.task p).taken s.nextpid f root) } := by
        refine inv.reslot (fun _ => Guard.clear _ free) (noSlot p) (A := T)
          (B := ∅) ?_ ?_ ?_ (.space root f T ∅ M rfl rfl ?_)
        · exact sets1
        · exact fun g _ => Finset.notMem_empty g
        · rw [memory]
          exact kept
        · rw [before.task]
          exact space
      rw [wp_bind, wp_onFs]
      have fs1 : s1.fs = s.fs := by rw [rest]
      rw [fs1]
      refine wp_mono (Keeps.namei sb 0 [slash] s.fs) ?_ fun _ _ => trivial
      intro found fs same
      cases found with
      | none => trivial
      | some cwd =>
          simp only [wp_bind, wp_onFs, wp_modify, wp_setTask]
          have bare : handles (setProc p (some ⟨cwd, fun _ => none⟩) fs) =
              { handles s.fs with proc := upd (handles s.fs).proc p (some ⟨cwd, fun _ => none⟩) } := by
            rw [← same]
            rfl
          have task : s1.task = upd s.task p ((s.task p).taken s.nextpid f root) := by rw [rest]
          have exec : s1.exec = s.exec := by rw [rest]
          have pipe : s1.pipe = s.pipe := by rw [rest]
          have ends : s1.ends = s.ends := by rw [rest]
          have procs : fs.proc = s.fs.proc := congrArg Handles.proc same
          refine good.update p free ⟨?_, ?_, ?_⟩ ?_ ?_ ?_ ?_
          · refine paged.same rfl ?_ exec ends
            intro i
            simp only [task]
            by_cases here : i = p
            · simp only [here, upd_self, and_self]
            · simp only [upd_of_ne here, and_self]
          · simp only [bare, pipe, ends]
            exact good.sound.piped.procs _
          · simp only [bare]
            intro g
            have counts := good.sound.counted g
            have total := holders_upd (handles s.fs).fds slot (some fun _ => none) g
            have old : (handles s.fs).fds p = none := congrArg (Option.map ProcFiles.ofile)
              (before.procs p)
            have new : row (some fun _ => none) g = 0 :=
              Nat.count_of_forall_not fun _ _ no => by cases no
            rw [old, row_none, new] at total
            rw [fds_upd]
            simp only [Option.map_some]
            omega
          · exact fun i other => .of_eq (by simp only [task, upd_of_ne other])
          · intro i other
            simp only [setProc, upd_of_ne other, procs]
          · exact fun i _ => by rw [exec]
          · simp only [task, upd_self, setProc]
            exact .live root f rfl rfl rfl rfl

theorem Started.good {r : Run (step tramp sb)} (started : Started tramp sb fixed r) :
    ∀ n, n ≤ r.len → Good tramp (noGuard fixed) (r.state n) := by
  obtain ⟨s, before, run⟩ := started
  have spec : wp (userinit tramp sb) (fun _ => True) (fun _ s' => Good tramp (noGuard fixed) s') s :=
    userinit_good before
  have start := wp_ok spec run
  exact r.invariant (Good tramp (noGuard fixed)) start fun _ _ _ run good => step_good good id run

end Steps

end Xv6Fcfs.Sys
