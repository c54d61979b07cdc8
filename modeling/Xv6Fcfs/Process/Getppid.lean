import Xv6Fcfs.Process.Tree

/-!
# `getppid` on several CPUs

`sys_getppid` takes no lock: the null test of `p->parent`, the second load of
`p->parent` and the load of `->pid` are three steps of the caller, and processes
on other CPUs may run any locked section between them.  The machine here has no
`cpu` component; every process in state RUNNING may take the next step.

A slot keeps its pid until `freeproc`, so the value returned is the pid of a
parent unless the slot is reaped between the last two loads.
-/

set_option autoImplicit false

namespace Xv6Fcfs.Process

open Xv6Fcfs.Lib

/-- Where a process stands inside `kfork` or `sys_getppid`. -/
inductive Pc where
  | outside
  | forkCopied (np : Slot)
  | forkLinked (np : Slot)
  | ppidTested
  | ppidLoaded (parent : Slot)
  deriving DecidableEq

structure Smp where
  kernel : Kernel
  pc : Slot → Pc
  deriving DecidableEq

/-- The steps; the first argument is the process that takes the step. -/
inductive SmpEvent where
  | userinit (m : ForkMem) (rootInode : Nat)
  | dispatch (p : Slot)
  | forkCopy (p : Slot) (m : ForkMem)
  | forkLink (p : Slot)
  | forkReady (p : Slot)
  | kexit (p : Slot) (status : Int)
  | kwait (p : Slot) (copied : Bool)
  | sleep (p : Slot) (chan : Chan)
  | wakeup (p : Slot) (chan : Chan)
  | kkill (p : Slot) (pid : Int)
  | interrupt (cpu : Option Slot) (chan : Chan)
  | ppidTest (p : Slot)
  | ppidLoad (p : Slot)
  | ppidPid (p : Slot)
  deriving DecidableEq

def Smp.boot : Smp := ⟨procinit, fun _ => .outside⟩

def Smp.goto (s : Smp) (p : Slot) (pc : Pc) (k : Kernel) : Smp :=
  ⟨k, Function.update s.pc p pc⟩

/-- `op` is a step of the running process `p` that starts at `pc`. -/
def Smp.byProcess (s : Smp) (p : Slot) (pc : Pc) (op : Option Smp) : Option Smp :=
  if (s.kernel.proc p).state = .running ∧ s.pc p = pc then op else none

def Smp.step (s : Smp) : SmpEvent → Option Smp
  | .userinit mem rootInode =>
      if s.kernel.initproc = none then
        (Process.userinit mem rootInode s.kernel).map fun k => { s with kernel := k }
      else none
  | .dispatch p =>
      -- scans on other CPUs overlap, so any runnable process may be the one chosen
      if (s.kernel.proc p).state = .runnable then
        let run := fun q : Proc => { q with state := .running, chan := none }
        some { s with kernel := s.kernel.setProc p run }
      else none
  | .forkCopy p mem => s.byProcess p .outside
      (match Process.forkCopy mem p s.kernel with
      | (none, k) => some { s with kernel := k }
      | (some np, k) => some (s.goto p (.forkCopied np) k))
  | .forkLink p =>
      match s.pc p with
      | .forkCopied np => s.byProcess p (.forkCopied np) (some (s.goto p (.forkLinked np)
          (s.kernel.setProc np fun q => { q with parent := some p })))
      | _ => none
  | .forkReady p =>
      match s.pc p with
      | .forkLinked np => s.byProcess p (.forkLinked np) (some (s.goto p .outside
          (s.kernel.setProc np fun q => { q with state := .runnable })))
      | _ => none
  | .kexit p status => s.byProcess p .outside
      ((Process.kexit status p s.kernel).map fun k => { s with kernel := k })
  | .kwait p copied => s.byProcess p .outside
      (some { s with kernel := (Process.kwait copied p s.kernel).2 })
  | .sleep p chan => s.byProcess p .outside
      (some { s with kernel := Process.sleep chan p s.kernel })
  | .wakeup p chan => s.byProcess p .outside
      (some { s with kernel := Process.wakeup (some p) (some chan) s.kernel })
  | .kkill p pid => s.byProcess p .outside
      (some { s with kernel := (Process.kkill pid s.kernel).2 })
  | .interrupt cpu chan => some { s with kernel := Process.wakeup cpu (some chan) s.kernel }
  | .ppidTest p => s.byProcess p .outside
      (some (if (s.kernel.proc p).parent = none then s else s.goto p .ppidTested s.kernel))
  | .ppidLoad p => s.byProcess p .ppidTested
      -- a null pointer here would be dereferenced by the next load
      ((s.kernel.proc p).parent.map fun q => s.goto p (.ppidLoaded q) s.kernel)
  | .ppidPid p =>
      match s.pc p with
      | .ppidLoaded q => s.byProcess p (.ppidLoaded q) (some (s.goto p .outside s.kernel))
      | _ => none

/-- The value with which a step ends `sys_getppid`. -/
def Smp.ppidResult (s : Smp) : SmpEvent → Option Int
  | .ppidTest p => if (s.kernel.proc p).parent = none then some 1 else none
  | .ppidPid p =>
      match s.pc p with
      | .ppidLoaded q => some (s.kernel.proc q).pid
      | _ => none
  | _ => none

/-! ## What a step can do -/

/-- Parents and pids stay, and a process moves only between the states of a
living one. -/
structure Quiet (k k' : Kernel) : Prop where
  initproc : k'.initproc = k.initproc
  parent : ∀ q, (k'.proc q).parent = (k.proc q).parent
  pid : ∀ q, (k'.proc q).pid = (k.proc q).pid
  state : ∀ q, (k'.proc q).state = (k.proc q).state ∨
    (Alive (k.proc q).state ∧ Alive (k'.proc q).state)

theorem WakesOnly.quiet {k k' : Kernel} (wakes : WakesOnly k k') : Quiet k k' := by
  refine ⟨wakes.initproc, wakes.parent, wakes.pid, ?_⟩
  intro q
  rcases wakes.proc q with same | ⟨asleep, woken⟩
  · exact Or.inl (by rw [same])
  · exact Or.inr ⟨Or.inl asleep, by simp [woken, Alive]⟩

theorem quiet_setProc (k : Kernel) (p : Slot) (f : Proc → Proc)
    (alive : Alive (k.proc p).state) (alive' : Alive (f (k.proc p)).state)
    (parent : (f (k.proc p)).parent = (k.proc p).parent)
    (pid : (f (k.proc p)).pid = (k.proc p).pid) : Quiet k (k.setProc p f) := by
  refine ⟨rfl, ?_, ?_, ?_⟩ <;> intro q <;> by_cases same : q = p
  · subst same; simpa using parent
  · simp [same]
  · subst same; simpa using pid
  · simp [same]
  · subst same; exact Or.inr ⟨alive, by simpa using alive'⟩
  · simp [same]

theorem kkill_quiet (pid : Int) (k : Kernel) : Quiet k (kkill pid k).2 := by
  cases found : firstIdx (fun q => decide ((k.proc q).pid = pid)) with
  | none => simpa [kkill, found] using (WakesOnly.refl k).quiet
  | some pp =>
      refine ⟨by simp [kkill, found], ?_, ?_, ?_⟩ <;> intro q <;> rw [kkill_proc found] <;>
        by_cases same : q = pp
      · subst same; simp
      · simp [same]
      · subst same; simp
      · simp [same]
      · subst same
        by_cases asleep : (k.proc q).state = .sleeping
        · exact Or.inr ⟨Or.inl asleep, by simp [asleep, Alive]⟩
        · simp [asleep]
      · simp [same]

/-- The running processes inside `kfork` or `sys_getppid` go on running. -/
def KeepsBusy (s : Smp) (k' : Kernel) : Prop :=
  ∀ q, s.pc q ≠ .outside → (s.kernel.proc q).state = .running →
    (k'.proc q).state = .running

inductive SmpEffect (s : Smp) : SmpEvent → Smp → Prop where
  | quiet (e : SmpEvent) (k' : Kernel) (change : Quiet s.kernel k') (busy : KeepsBusy s k') :
      SmpEffect s e { s with kernel := k' }
  | booted (mem : ForkMem) (rootInode : Nat) (np : Slot) (first : s.kernel.initproc = none)
      (free : unusedSlot s.kernel = some np) :
      SmpEffect s (.userinit mem rootInode)
        { s with kernel :=
          { s.kernel.setProc np (firstProcess s.kernel.nextpid mem rootInode) with
            initproc := some np
            nextpid := wrapInt (s.kernel.nextpid + 1) } }
  | forkFailed (p np : Slot) (mem : ForkMem) (running : (s.kernel.proc p).state = .running)
      (free : unusedSlot s.kernel = some np) :
      SmpEffect s (.forkCopy p mem)
        { s with kernel :=
          { freeproc np s.kernel with nextpid := wrapInt (s.kernel.nextpid + 1) } }
  | forkCopied (p np : Slot) (mem : ForkMem) (running : (s.kernel.proc p).state = .running)
      (free : unusedSlot s.kernel = some np) :
      SmpEffect s (.forkCopy p mem) (s.goto p (.forkCopied np)
        { s.kernel.setProc np (fun q =>
            { forkChild (s.kernel.proc p) p s.kernel.nextpid mem q with
              state := .used, parent := q.parent }) with
          nextpid := wrapInt (s.kernel.nextpid + 1) })
  | forkLinked (p np : Slot) (running : (s.kernel.proc p).state = .running)
      (at_ : s.pc p = .forkCopied np) :
      SmpEffect s (.forkLink p) (s.goto p (.forkLinked np)
        (s.kernel.setProc np fun q => { q with parent := some p }))
  | forkReady (p np : Slot) (running : (s.kernel.proc p).state = .running)
      (at_ : s.pc p = .forkLinked np) :
      SmpEffect s (.forkReady p) (s.goto p .outside
        (s.kernel.setProc np fun q => { q with state := .runnable }))
  | exited (p : Slot) (status : Int) (k' : Kernel) (running : (s.kernel.proc p).state = .running)
      (outside : s.pc p = .outside) (notInit : s.kernel.initproc ≠ some p)
      (exit : Exited status p (s.kernel.setProc p closeFiles) k') :
      SmpEffect s (.kexit p status) { s with kernel := k' }
  | reaped (p pp : Slot) (running : (s.kernel.proc p).state = .running)
      (found : zombieChild p s.kernel = some pp) :
      SmpEffect s (.kwait p true) { s with kernel := freeproc pp s.kernel }
  | ppidTested (p : Slot) (running : (s.kernel.proc p).state = .running)
      (outside : s.pc p = .outside) (parent : (s.kernel.proc p).parent ≠ none) :
      SmpEffect s (.ppidTest p) (s.goto p .ppidTested s.kernel)
  | ppidLoaded (p q : Slot) (running : (s.kernel.proc p).state = .running)
      (at_ : s.pc p = .ppidTested) (parent : (s.kernel.proc p).parent = some q) :
      SmpEffect s (.ppidLoad p) (s.goto p (.ppidLoaded q) s.kernel)
  | ppidDone (p q : Slot) (running : (s.kernel.proc p).state = .running)
      (at_ : s.pc p = .ppidLoaded q) :
      SmpEffect s (.ppidPid p) (s.goto p .outside s.kernel)

theorem byProcess_some {s s' : Smp} {p : Slot} {pc : Pc} {op : Option Smp}
    (run : s.byProcess p pc op = some s') :
    (s.kernel.proc p).state = .running ∧ s.pc p = pc ∧ op = some s' := by
  unfold Smp.byProcess at run
  split at run
  · rename_i here
    exact ⟨here.1, here.2, run⟩
  · cases run

theorem Quiet.effect {s : Smp} {e : SmpEvent} {k' : Kernel} (change : Quiet s.kernel k')
    (same : ∀ q, (s.kernel.proc q).state = .running → (k'.proc q).state = .running) :
    SmpEffect s e { s with kernel := k' } :=
  .quiet e k' change fun q _ running => same q running

theorem kwait_smpEffect (s : Smp) (p : Slot) (copied : Bool)
    (running : (s.kernel.proc p).state = .running) (outside : s.pc p = .outside) :
    SmpEffect s (.kwait p copied) { s with kernel := (kwait copied p s.kernel).2 } := by
  cases found : zombieChild p s.kernel with
  | some pp =>
      cases copied with
      | true =>
          simp only [kwait, found, if_true]
          exact .reaped p pp running found
      | false =>
          simp only [kwait, found, Bool.false_eq_true, if_false]
          exact (WakesOnly.refl _).quiet.effect fun _ running => running
  | none =>
      by_cases alone : havekids p s.kernel = false ∨ (s.kernel.proc p).killed = true
      · simp only [kwait, found, if_pos alone]
        exact (WakesOnly.refl _).quiet.effect fun _ running => running
      · simp only [kwait, found, if_neg alone]
        refine .quiet _ _ (quiet_setProc _ _ _ (Or.inr (Or.inr running)) (Or.inl rfl) rfl rfl) ?_
        intro q inside running
        have differ : q ≠ p := fun same => inside (same ▸ outside)
        simpa [sleep, differ] using running

theorem forkCopy_smpEffect {s s' : Smp} {p : Slot} {mem : ForkMem}
    (running : (s.kernel.proc p).state = .running)
    (run : (match forkCopy mem p s.kernel with
      | (none, k) => some { s with kernel := k }
      | (some np, k) => some (s.goto p (.forkCopied np) k)) = some s') :
    SmpEffect s (.forkCopy p mem) s' := by
  have live : (s.kernel.proc p).state ≠ .unused := by simp [running]
  rcases forkCopy_cases mem s.kernel p live with out | ⟨np, free, out⟩ | ⟨np, free, out⟩
  · simp only [out, Option.some.injEq] at run
    rw [← run]
    exact (WakesOnly.refl _).quiet.effect fun _ running => running
  · simp only [out, Option.some.injEq] at run
    rw [← run]
    exact .forkFailed p np mem running free
  · simp only [out, Option.some.injEq] at run
    rw [← run]
    exact .forkCopied p np mem running free

theorem running_of_wakes {k k' : Kernel} (wakes : WakesOnly k k') (q : Slot)
    (running : (k.proc q).state = .running) : (k'.proc q).state = .running :=
  (wakes.state_iff q .running (by simp) (by simp)).mpr running

theorem smp_effect {s s' : Smp} {e : SmpEvent} (run : s.step e = some s') : SmpEffect s e s' := by
  cases e with
  | userinit mem rootInode =>
      by_cases first : s.kernel.initproc = none
      · simp only [Smp.step, if_pos first, Option.map_eq_some_iff] at run
        obtain ⟨k', made, same⟩ := run
        have effect := userinit_effect ⟨s.kernel, none⟩ mem rootInode k' first made
        rw [← same]
        generalize lift : ({ kernel := k', cpu := none } : Machine) = m' at effect
        cases effect with
        | booted _ _ np _ free =>
            simp only [Machine.mk.injEq, and_true] at lift
            rw [lift]
            exact .booted mem rootInode np first free
        | idle _ k'' _ wakes =>
            simp only [Machine.mk.injEq, and_true] at lift
            subst lift
            exact wakes.quiet.effect (running_of_wakes wakes)
        | slept _ p _ none => cases none
      · simp [Smp.step, first] at run
  | dispatch p =>
      by_cases ready : (s.kernel.proc p).state = .runnable
      · simp only [Smp.step, if_pos ready, Option.some.injEq] at run
        rw [← run]
        refine (quiet_setProc _ _ _ (Or.inr (Or.inl ready)) (Or.inr (Or.inr rfl)) rfl rfl).effect ?_
        intro q running
        by_cases same : q = p
        · subst same; simp
        · simpa [same] using running
      · simp [Smp.step, ready] at run
  | forkCopy p mem =>
      obtain ⟨running, _, made⟩ := byProcess_some run
      exact forkCopy_smpEffect running made
  | forkLink p =>
      cases at_ : s.pc p with
      | forkCopied np =>
          simp only [Smp.step, at_] at run
          obtain ⟨running, _, made⟩ := byProcess_some run
          rw [← Option.some.inj made]
          exact .forkLinked p np running at_
      | _ => simp [Smp.step, at_] at run
  | forkReady p =>
      cases at_ : s.pc p with
      | forkLinked np =>
          simp only [Smp.step, at_] at run
          obtain ⟨running, _, made⟩ := byProcess_some run
          rw [← Option.some.inj made]
          exact .forkReady p np running at_
      | _ => simp [Smp.step, at_] at run
  | kexit p status =>
      obtain ⟨running, outside, made⟩ := byProcess_some run
      by_cases isInit : some p = s.kernel.initproc
      · simp [kexit, isInit] at made
      · simp only [kexit, if_neg isInit, Option.map_some, Option.some.injEq] at made
        rw [← made]
        exact .exited p status _ running outside (fun h => isInit h.symm)
          (exitSection_exited _ _ _)
  | kwait p copied =>
      obtain ⟨running, outside, made⟩ := byProcess_some run
      rw [← Option.some.inj made]
      exact kwait_smpEffect s p copied running outside
  | sleep p chan =>
      obtain ⟨running, outside, made⟩ := byProcess_some run
      rw [← Option.some.inj made]
      refine .quiet _ _ (quiet_setProc _ _ _ (Or.inr (Or.inr running)) (Or.inl rfl) rfl rfl) ?_
      intro q inside running
      have differ : q ≠ p := fun same => inside (same ▸ outside)
      simpa [sleep, differ] using running
  | wakeup p chan =>
      obtain ⟨_, _, made⟩ := byProcess_some run
      rw [← Option.some.inj made]
      have wakes := wakeup_wakesOnly (some p) (some chan) s.kernel
      exact wakes.quiet.effect (running_of_wakes wakes)
  | kkill p pid =>
      obtain ⟨_, _, made⟩ := byProcess_some run
      rw [← Option.some.inj made]
      refine (kkill_quiet pid s.kernel).effect ?_
      intro q running
      cases found : firstIdx (fun q => decide ((s.kernel.proc q).pid = pid)) with
      | none => simpa [kkill, found] using running
      | some pp =>
          rw [kkill_proc found]
          by_cases same : q = pp
          · subst same; simp [running]
          · simpa [same] using running
  | interrupt cpu chan =>
      rw [← Option.some.inj run]
      have wakes := wakeup_wakesOnly cpu (some chan) s.kernel
      exact wakes.quiet.effect (running_of_wakes wakes)
  | ppidTest p =>
      obtain ⟨running, outside, made⟩ := byProcess_some run
      rw [← Option.some.inj made]
      by_cases null : (s.kernel.proc p).parent = none
      · rw [if_pos null]
        exact (WakesOnly.refl _).quiet.effect fun _ running => running
      · rw [if_neg null]
        exact .ppidTested p running outside null
  | ppidLoad p =>
      obtain ⟨running, at_, made⟩ := byProcess_some run
      obtain ⟨q, parent, same⟩ := Option.map_eq_some_iff.mp made
      rw [← same]
      exact .ppidLoaded p q running at_ parent
  | ppidPid p =>
      cases at_ : s.pc p with
      | ppidLoaded q =>
          simp only [Smp.step, at_] at run
          obtain ⟨running, _, made⟩ := byProcess_some run
          rw [← Option.some.inj made]
          exact .ppidDone p q running at_
      | _ => simp [Smp.step, at_] at run

/-! ## The tree while forks are under way -/

/-- Every slot but `initproc` has no parent and no process, or a living parent. -/
structure Rooted (k : Kernel) : Prop where
  empty : k.initproc = none → ∀ q, (k.proc q).state = .unused
  root : ∀ root, k.initproc = some root →
    Alive (k.proc root).state ∧ (k.proc root).parent = none
  parents : ∀ q, k.initproc ≠ some q →
    ((k.proc q).parent = none ∧ ¬ InUse (k.proc q).state) ∨
    (∃ p, (k.proc q).parent = some p ∧ Alive (k.proc p).state ∧ (k.proc q).state ≠ .unused)

/-- A slot that `kfork` is filling, and by whom. -/
def Filling (pc : Pc) (np : Slot) : Prop := pc = .forkCopied np ∨ pc = .forkLinked np

structure PcOk (s : Smp) : Prop where
  busy : ∀ p, s.pc p ≠ .outside → (s.kernel.proc p).state = .running
  copied : ∀ p np, s.pc p = .forkCopied np →
    (s.kernel.proc np).state = .used ∧ (s.kernel.proc np).parent = none
  linked : ∀ p np, s.pc p = .forkLinked np →
    (s.kernel.proc np).state = .used ∧ (s.kernel.proc np).parent = some p
  owner : ∀ p p' np, Filling (s.pc p) np → Filling (s.pc p') np → p = p'
  caller : ∀ p, s.pc p = .ppidTested → s.kernel.initproc ≠ some p

structure SmpInv (s : Smp) : Prop where
  rooted : Rooted s.kernel
  pcOk : PcOk s

@[simp] theorem goto_kernel (s : Smp) (p : Slot) (pc : Pc) (k : Kernel) :
    (s.goto p pc k).kernel = k := rfl

@[simp] theorem goto_pc_same (s : Smp) (p : Slot) (pc : Pc) (k : Kernel) :
    (s.goto p pc k).pc p = pc := by
  simp [Smp.goto]

@[simp] theorem goto_pc_other (s : Smp) (p q : Slot) (pc : Pc) (k : Kernel) (differ : q ≠ p) :
    (s.goto p pc k).pc q = s.pc q := by
  simp [Smp.goto, differ]

section Invariant
variable {s s' : Smp} {e : SmpEvent}

theorem not_inUse_used {t : ProcState} (used : t = .used) : ¬ InUse t := by simp [InUse, used]

theorem Quiet.rooted {k k' : Kernel} (change : Quiet k k') (inv : Rooted k) : Rooted k' := by
  have alive : ∀ q, Alive (k.proc q).state → Alive (k'.proc q).state := by
    intro q before
    rcases change.state q with same | ⟨_, after⟩
    · rwa [same]
    · exact after
  refine ⟨?_, ?_, ?_⟩
  · intro none q
    have unused := inv.empty (change.initproc ▸ none) q
    rcases change.state q with same | ⟨before, _⟩
    · exact same.trans unused
    · exact absurd unused before.inUse.1
  · intro root init
    obtain ⟨before, parent⟩ := inv.root root (change.initproc ▸ init)
    exact ⟨alive root before, (change.parent root).trans parent⟩
  · intro q notInit
    rw [change.initproc] at notInit
    rcases inv.parents q notInit with ⟨parent, unused⟩ | ⟨p, parent, living, used⟩
    · refine Or.inl ⟨(change.parent q).trans parent, ?_⟩
      rcases change.state q with same | ⟨before, _⟩
      · rwa [same]
      · exact absurd before.inUse unused
    · refine Or.inr ⟨p, (change.parent q).trans parent, alive p living, ?_⟩
      rcases change.state q with same | ⟨_, after⟩
      · rwa [same]
      · exact after.inUse.1

theorem used_of_filling (inv : PcOk s) {p np : Slot} (fills : Filling (s.pc p) np) :
    (s.kernel.proc np).state = .used := by
  rcases fills with at_ | at_
  · exact (inv.copied p np at_).1
  · exact (inv.linked p np at_).1

/-- A change that spares the processes under way and the slots being filled. -/
theorem pcOk_frame (inv : PcOk s) (k' : Kernel) (init : k'.initproc = s.kernel.initproc)
    (busy : ∀ q, s.pc q ≠ .outside → (s.kernel.proc q).state = .running →
      (k'.proc q).state = .running)
    (filled : ∀ p q, Filling (s.pc p) q → (s.kernel.proc q).state = .used →
      (k'.proc q).state = .used ∧ (k'.proc q).parent = (s.kernel.proc q).parent) :
    PcOk { s with kernel := k' } := by
  refine ⟨?_, ?_, ?_, inv.owner, ?_⟩
  · intro p inside
    exact busy p inside (inv.busy p inside)
  · intro p np at_
    obtain ⟨used, parent⟩ := inv.copied p np at_
    obtain ⟨state, kept⟩ := filled p np (Or.inl at_) used
    exact ⟨state, kept.trans parent⟩
  · intro p np at_
    obtain ⟨used, parent⟩ := inv.linked p np at_
    obtain ⟨state, kept⟩ := filled p np (Or.inr at_) used
    exact ⟨state, kept.trans parent⟩
  · intro p at_
    exact init ▸ inv.caller p at_

theorem Quiet.pcOk {k' : Kernel} (change : Quiet s.kernel k') (busy : KeepsBusy s k')
    (inv : PcOk s) : PcOk { s with kernel := k' } := by
  refine pcOk_frame inv k' change.initproc busy ?_
  intro p q fills used
  refine ⟨?_, change.parent q⟩
  rcases change.state q with same | ⟨alive, _⟩
  · exact same.trans used
  · exact absurd alive.inUse (not_inUse_used used)

theorem pcOk_freeproc (inv : PcOk s) (np : Slot) (nextpid : Int)
    (idle : (s.kernel.proc np).state ≠ .running) (empty : (s.kernel.proc np).state ≠ .used) :
    PcOk { s with kernel := { freeproc np s.kernel with nextpid := nextpid } } := by
  refine pcOk_frame inv _ rfl ?_ ?_
  · intro q _ running
    have differ : q ≠ np := fun same => idle (same ▸ running)
    simpa [freeproc, differ] using running
  · intro p q _ used
    have differ : q ≠ np := fun same => empty (same ▸ used)
    simpa [freeproc, differ] using used

theorem initproc_of_running {k : Kernel} (inv : Rooted k) {p : Slot}
    (running : (k.proc p).state = .running) : k.initproc ≠ none := by
  intro none
  simp [inv.empty none p] at running

theorem rooted_frame {k k' : Kernel} (inv : Rooted k) (np : Slot) (some : k.initproc ≠ none)
    (dead : ¬ Alive (k.proc np).state) (init : k'.initproc = k.initproc)
    (others : ∀ q, q ≠ np → k'.proc q = k.proc q)
    (own : ((k'.proc np).parent = none ∧ ¬ InUse (k'.proc np).state) ∨
      (∃ p, (k'.proc np).parent = Option.some p ∧ Alive (k.proc p).state ∧
        (k'.proc np).state ≠ .unused)) : Rooted k' := by
  have alive : ∀ q, Alive (k.proc q).state → Alive (k'.proc q).state := by
    intro q before
    have differ : q ≠ np := fun same => dead (same ▸ before)
    rwa [others q differ]
  refine ⟨?_, ?_, ?_⟩
  · intro none
    exact absurd (init ▸ none) some
  · intro root isRoot
    obtain ⟨before, parent⟩ := inv.root root (init ▸ isRoot)
    have differ : root ≠ np := fun same => dead (same ▸ before)
    exact ⟨alive root before, by rw [others root differ, parent]⟩
  · intro q notInit
    by_cases same : q = np
    · subst same
      rcases own with none | ⟨p, parent, living, used⟩
      · exact Or.inl none
      · exact Or.inr ⟨p, parent, alive p living, used⟩
    · rw [init] at notInit
      rw [others q same]
      rcases inv.parents q notInit with none | ⟨p, parent, living, used⟩
      · exact Or.inl none
      · exact Or.inr ⟨p, parent, alive p living, used⟩

theorem not_alive_of_unused {k : Kernel} {np : Slot} (free : unusedSlot k = some np) :
    ¬ Alive (k.proc np).state := by
  simp [Alive, unusedSlot_some free]

theorem rooted_booted {k : Kernel} (inv : Rooted k) (mem : ForkMem) (rootInode : Nat) (np : Slot)
    (first : k.initproc = none) :
    Rooted { k.setProc np (firstProcess k.nextpid mem rootInode) with
      initproc := some np
      nextpid := wrapInt (k.nextpid + 1) } := by
  have noParent : ∀ q, (k.proc q).parent = none := by
    intro q
    rcases inv.parents q (by simp [first]) with ⟨none, _⟩ | ⟨p, _, _, used⟩
    · exact none
    · exact absurd (inv.empty first q) used
  refine ⟨by simp, ?_, ?_⟩
  · intro root isRoot
    simp only [Option.some.injEq] at isRoot
    subst isRoot
    simp [firstProcess, Alive, noParent]
  · intro q notInit
    have differ : q ≠ np := fun same => notInit (by rw [same])
    left
    simp [differ, noParent, InUse, inv.empty first q]

theorem rooted_exited {k k' : Kernel} {p : Slot} {status : Int} (inv : Rooted k)
    (running : (k.proc p).state = .running) (notInit : k.initproc ≠ some p)
    (exit : Exited status p (k.setProc p closeFiles) k') : Rooted k' := by
  have some := initproc_of_running inv running
  -- a living process other than the caller stays alive
  have alive : ∀ q, q ≠ p → Alive (k.proc q).state → Alive (k'.proc q).state := by
    intro q differ before
    obtain ⟨t, shape, moved⟩ := exit.others q differ
    simp only [Kernel.setProc_other _ _ _ _ differ] at shape moved
    rw [shape]
    rcases moved with kept | ⟨_, ready⟩
    · simpa only [kept] using before
    · simp [Alive, ready]
  obtain ⟨root, isRoot⟩ := Option.ne_none_iff_exists'.mp some
  have rootDiffers : root ≠ p := fun same => notInit (same ▸ isRoot)
  obtain ⟨rootAlive, rootParent⟩ := inv.root root isRoot
  have init : k'.initproc = k.initproc := exit.initproc
  -- the parent after the exit is the parent before, or the root
  have handed : ∀ q r, (k.proc q).parent = Option.some r → Alive (k.proc r).state →
      (k'.proc q).parent = (if (k.proc q).parent = Option.some p then k.initproc
        else (k.proc q).parent) →
      ∃ r', (k'.proc q).parent = Option.some r' ∧ Alive (k'.proc r').state := by
    intro q r parent living moved
    by_cases child : r = p
    · subst child
      exact ⟨root, by rw [moved, if_pos parent, isRoot], alive root rootDiffers rootAlive⟩
    · refine ⟨r, ?_, alive r child living⟩
      rw [moved, parent, if_neg (by simpa using child)]
  refine ⟨?_, ?_, ?_⟩
  · intro none
    exact absurd (init ▸ none) some
  · intro root' isRoot'
    have : root' = root := Option.some.inj ((init ▸ isRoot').symm.trans isRoot)
    subst this
    refine ⟨alive root' rootDiffers rootAlive, ?_⟩
    obtain ⟨t, shape, _⟩ := exit.others root' rootDiffers
    simp [shape, rootDiffers, rootParent]
  · intro q notRoot
    rw [init] at notRoot
    by_cases same : q = p
    · subst same
      right
      rcases inv.parents q notRoot with ⟨_, unused⟩ | ⟨r, parent, living, _⟩
      · simp [InUse, running] at unused
      · obtain ⟨r', parent', living'⟩ := handed q r parent living (by simp [exit.caller, closeFiles])
        exact ⟨r', parent', living', by simp [exit.caller]⟩
    · obtain ⟨t, shape, moved⟩ := exit.others q same
      simp only [Kernel.setProc_other _ _ _ _ same, Kernel.setProc_initproc] at shape moved
      rcases inv.parents q notRoot with ⟨none, unused⟩ | ⟨r, parent, living, used⟩
      · left
        refine ⟨by simp [shape, none], ?_⟩
        rcases moved with kept | ⟨asleep, _⟩
        · simpa [shape, kept] using unused
        · simp [InUse, asleep] at unused
      · right
        obtain ⟨r', parent', living'⟩ := handed q r parent living (by simp [shape])
        refine ⟨r', parent', living', ?_⟩
        rcases moved with kept | ⟨_, ready⟩
        · simpa [shape, kept] using used
        · simp [shape, ready]

theorem rooted_effect (inv : SmpInv s) (effect : SmpEffect s e s') : Rooted s'.kernel := by
  obtain ⟨rooted, pcOk⟩ := inv
  cases effect with
  | quiet e k' change busy => exact change.rooted rooted
  | booted mem rootInode np first free => exact rooted_booted rooted mem rootInode np first
  | forkFailed p np mem running free =>
      refine rooted_frame rooted np (initproc_of_running rooted running)
        (not_alive_of_unused free) rfl ?_ ?_
      · intro q differ; simp [freeproc, differ]
      · left; simp [freeproc, InUse]
  | forkCopied p np mem running free =>
      have some := initproc_of_running rooted running
      refine rooted_frame rooted np some (not_alive_of_unused free) rfl ?_ ?_
      · intro q differ; simp [differ]
      · left
        have notInit : s.kernel.initproc ≠ Option.some np := fun isInit =>
          not_alive_of_unused free (rooted.root np isInit).1
        rcases rooted.parents np notInit with ⟨none, _⟩ | ⟨_, _, _, used⟩
        · simp [none, InUse]
        · exact absurd (unusedSlot_some free) used
  | forkLinked p np running at_ =>
      obtain ⟨used, none⟩ := pcOk.copied p np at_
      refine rooted_frame rooted np (initproc_of_running rooted running) (by simp [Alive, used])
        rfl ?_ ?_
      · intro q differ; simp [differ]
      · right
        exact ⟨p, by simp, Or.inr (Or.inr running), by simp [used]⟩
  | forkReady p np running at_ =>
      obtain ⟨used, parent⟩ := pcOk.linked p np at_
      refine rooted_frame rooted np (initproc_of_running rooted running) (by simp [Alive, used])
        rfl ?_ ?_
      · intro q differ; simp [differ]
      · right
        exact ⟨p, by simpa using parent, Or.inr (Or.inr running), by simp⟩
  | exited p status k' running outside notInit exit =>
      exact rooted_exited rooted running notInit exit
  | reaped p pp running found =>
      have zombie := (zombieChild_some found).2
      refine rooted_frame rooted pp (initproc_of_running rooted running) (by simp [Alive, zombie])
        rfl ?_ ?_
      · intro q differ; simp [freeproc, differ]
      · left; simp [freeproc, InUse]
  | ppidTested p running outside parent => exact rooted
  | ppidLoaded p q running at_ parent => exact rooted
  | ppidDone p q running at_ => exact rooted

theorem pcOk_goto (inv : PcOk s) (p : Slot) (pc : Pc) (running : (s.kernel.proc p).state = .running)
    (notFilling : ∀ np, ¬ Filling pc np)
    (caller : pc = .ppidTested → s.kernel.initproc ≠ some p) :
    PcOk (s.goto p pc s.kernel) := by
  refine ⟨?_, ?_, ?_, ?_, ?_⟩
  · intro q inside
    by_cases same : q = p
    · subst same; exact running
    · exact inv.busy q (by simpa [same] using inside)
  · intro q np at_
    by_cases same : q = p
    · subst same
      exact absurd (Or.inl (by simpa using at_)) (notFilling np)
    · exact inv.copied q np (by simpa [same] using at_)
  · intro q np at_
    by_cases same : q = p
    · subst same
      exact absurd (Or.inr (by simpa using at_)) (notFilling np)
    · exact inv.linked q np (by simpa [same] using at_)
  · intro q q' np fills fills'
    have other : ∀ x, Filling ((s.goto p pc s.kernel).pc x) np → Filling (s.pc x) np := by
      intro x fills
      by_cases same : x = p
      · subst same
        exact absurd (by simpa using fills) (notFilling np)
      · simpa [same] using fills
    exact inv.owner q q' np (other q fills) (other q' fills')
  · intro q at_
    by_cases same : q = p
    · subst same
      exact caller (by simpa using at_)
    · exact inv.caller q (by simpa [same] using at_)

/-- Process `p` takes a step of `kfork` on slot `np`, which nobody else fills. -/
theorem pcOk_fork (inv : PcOk s) (p np : Slot) (pc : Pc) (k' : Kernel)
    (init : k'.initproc = s.kernel.initproc)
    (running : (s.kernel.proc p).state = .running)
    (others : ∀ q, q ≠ np → k'.proc q = s.kernel.proc q)
    (idle : (s.kernel.proc np).state ≠ .running)
    (only : ∀ q, q ≠ p → ¬ Filling (s.pc q) np)
    (fills : ∀ x, Filling pc x → x = np)
    (caller : pc ≠ .ppidTested)
    (copied : pc = .forkCopied np → (k'.proc np).state = .used ∧ (k'.proc np).parent = none)
    (linked : pc = .forkLinked np → (k'.proc np).state = .used ∧ (k'.proc np).parent = some p) :
    PcOk (s.goto p pc k') := by
  have kept : ∀ q, (s.kernel.proc q).state = .running → k'.proc q = s.kernel.proc q := by
    intro q busy
    exact others q fun same => idle (same ▸ busy)
  refine ⟨?_, ?_, ?_, ?_, ?_⟩
  · intro q inside
    by_cases same : q = p
    · subst same
      simpa [kept q running] using running
    · have busy := inv.busy q (by simpa [same] using inside)
      simpa [kept q busy] using busy
  · intro q x at_
    by_cases same : q = p
    · subst same
      simp only [goto_pc_same] at at_
      have : x = np := fills x (Or.inl at_)
      subst this
      exact copied at_
    · simp only [goto_pc_other _ _ _ _ _ same] at at_
      have differ : x ≠ np := fun eq => only q same (eq ▸ Or.inl at_)
      simpa [others x differ] using inv.copied q x at_
  · intro q x at_
    by_cases same : q = p
    · subst same
      simp only [goto_pc_same] at at_
      have : x = np := fills x (Or.inr at_)
      subst this
      exact linked at_
    · simp only [goto_pc_other _ _ _ _ _ same] at at_
      have differ : x ≠ np := fun eq => only q same (eq ▸ Or.inr at_)
      simpa [others x differ] using inv.linked q x at_
  · intro q q' x fillsQ fillsQ'
    by_cases same : q = p <;> by_cases same' : q' = p
    · rw [same, same']
    · subst same
      simp only [goto_pc_same] at fillsQ
      simp only [goto_pc_other _ _ _ _ _ same'] at fillsQ'
      exact absurd (fills x fillsQ ▸ fillsQ') (only q' same')
    · subst same'
      simp only [goto_pc_same] at fillsQ'
      simp only [goto_pc_other _ _ _ _ _ same] at fillsQ
      exact absurd (fills x fillsQ' ▸ fillsQ) (only q same)
    · simp only [goto_pc_other _ _ _ _ _ same] at fillsQ
      simp only [goto_pc_other _ _ _ _ _ same'] at fillsQ'
      exact inv.owner q q' x fillsQ fillsQ'
  · intro q at_
    by_cases same : q = p
    · subst same
      exact absurd (by simpa using at_) caller
    · simp only [goto_pc_other _ _ _ _ _ same] at at_
      exact init ▸ inv.caller q at_

theorem pcOk_effect (inv : SmpInv s) (effect : SmpEffect s e s') : PcOk s' := by
  obtain ⟨rooted, pcOk⟩ := inv
  cases effect with
  | quiet e k' change busy => exact change.pcOk busy pcOk
  | booted mem rootInode np first free =>
      have idle : ∀ q, s.pc q = .outside := by
        intro q
        by_contra inside
        have := pcOk.busy q inside
        simp [rooted.empty first q] at this
      refine ⟨?_, ?_, ?_, ?_, ?_⟩
      · intro q inside; exact absurd (idle q) inside
      · intro q x at_; simp [idle q] at at_
      · intro q x at_; simp [idle q] at at_
      · intro q q' x fills; simp [idle q, Filling] at fills
      · intro q at_; simp [idle q] at at_
  | forkFailed p np mem running free =>
      have unused := unusedSlot_some free
      exact pcOk_freeproc pcOk np _ (by simp [unused]) (by simp [unused])
  | forkCopied p np mem running free =>
      have unused := unusedSlot_some free
      have only : ∀ q, ¬ Filling (s.pc q) np := by
        intro q fills
        simp [used_of_filling pcOk fills] at unused
      have notInit : s.kernel.initproc ≠ some np := fun isInit =>
        not_alive_of_unused free (rooted.root np isInit).1
      refine pcOk_fork pcOk p np _ _ rfl running ?_ (by simp [unused]) (fun q _ => only q) ?_
        (by simp) ?_ (by simp)
      · intro q differ; simp [differ]
      · intro x fills; simpa [Filling, eq_comm] using fills
      · intro _
        rcases rooted.parents np notInit with ⟨none, _⟩ | ⟨_, _, _, used⟩
        · simp [none]
        · exact absurd unused used
  | forkLinked p np running at_ =>
      have used := (pcOk.copied p np at_).1
      refine pcOk_fork pcOk p np _ _ rfl running ?_ (by simp [used]) ?_ ?_
        (by simp) (by simp) ?_
      · intro q differ; simp [differ]
      · intro q differ fills
        exact differ (pcOk.owner q p np fills (Or.inl at_))
      · intro x fills; simpa [Filling, eq_comm] using fills
      · intro _; simp [used]
  | forkReady p np running at_ =>
      have used := (pcOk.linked p np at_).1
      refine pcOk_fork pcOk p np _ _ rfl running ?_ (by simp [used]) ?_ ?_
        (by simp) (by simp) (by simp)
      · intro q differ; simp [differ]
      · intro q differ fills
        exact differ (pcOk.owner q p np fills (Or.inr at_))
      · intro x fills; simp [Filling] at fills
  | exited p status k' running outside notInit exit =>
      refine pcOk_frame pcOk k' exit.initproc ?_ ?_
      · intro q inside busy
        have differ : q ≠ p := fun same => inside (same ▸ outside)
        obtain ⟨t, shape, moved⟩ := exit.others q differ
        simp only [Kernel.setProc_other _ _ _ _ differ] at shape moved
        simpa [shape, busy] using moved
      · intro f q fills used
        have differ : q ≠ p := fun same => by simp [← same, used] at running
        obtain ⟨t, shape, moved⟩ := exit.others q differ
        simp only [Kernel.setProc_other _ _ _ _ differ] at shape moved
        -- the caller is outside `kfork`, so the slot is not its child
        have notChild : (s.kernel.proc q).parent ≠ some p := by
          rcases fills with at_ | at_
          · simp [(pcOk.copied f q at_).2]
          · have other : f ≠ p := fun same => by simp [same, outside] at at_
            simpa [(pcOk.linked f q at_).2] using other
        exact ⟨by simpa [shape, used] using moved, by simp [shape, notChild]⟩
  | reaped p pp running found =>
      have zombie := (zombieChild_some found).2
      exact pcOk_freeproc pcOk pp s.kernel.nextpid (by simp [zombie]) (by simp [zombie])
  | ppidTested p running outside parent =>
      refine pcOk_goto pcOk p _ running (by simp [Filling]) ?_
      intro _ isInit
      exact parent (rooted.root p isInit).2
  | ppidLoaded p q running at_ parent =>
      exact pcOk_goto pcOk p _ running (by simp [Filling]) (by simp)
  | ppidDone p q running at_ =>
      exact pcOk_goto pcOk p _ running (by simp [Filling]) (by simp)

theorem boot_smpInv : SmpInv Smp.boot := by
  refine ⟨⟨fun _ _ => rfl, ?_, ?_⟩, ⟨?_, ?_, ?_, ?_, ?_⟩⟩
  · intro root init; cases init
  · intro q _; exact Or.inl ⟨rfl, by simp [Smp.boot, procinit, Proc.zero, InUse]⟩
  · intro p inside; exact absurd rfl inside
  · intro p np at_; cases at_
  · intro p np at_; cases at_
  · intro p p' np fills; rcases fills with at_ | at_ <;> cases at_
  · intro p at_; cases at_

theorem smpInv_step (run : s.step e = some s') (inv : SmpInv s) : SmpInv s' :=
  ⟨rooted_effect inv (smp_effect run), pcOk_effect inv (smp_effect run)⟩

theorem run_smpInv (r : Run Smp.step) (start : r.state 0 = Smp.boot) :
    ∀ i, i ≤ r.len → SmpInv (r.state i) :=
  r.invariant SmpInv (start ▸ boot_smpInv) (fun _ _ _ run inv => smpInv_step run inv)

theorem effect_keeps_pid (inv : SmpInv s) (effect : SmpEffect s e s') (q : Slot)
    (inUse : InUse (s.kernel.proc q).state) :
    (InUse (s'.kernel.proc q).state ∧ (s'.kernel.proc q).pid = (s.kernel.proc q).pid) ∨
    (∃ f, e = .kwait f true ∧ zombieChild f s.kernel = some q) := by
  cases effect with
  | quiet e k' change busy =>
      left
      refine ⟨?_, change.pid q⟩
      rcases change.state q with same | ⟨_, after⟩
      · simpa only [same] using inUse
      · exact after.inUse
  | booted mem rootInode np first free =>
      have differ : q ≠ np := fun same => inUse.1 (same ▸ unusedSlot_some free)
      simp [differ, inUse]
  | forkFailed p np mem running free =>
      have differ : q ≠ np := fun same => inUse.1 (same ▸ unusedSlot_some free)
      simp [differ, inUse, freeproc]
  | forkCopied p np mem running free =>
      have differ : q ≠ np := fun same => inUse.1 (same ▸ unusedSlot_some free)
      simp [differ, inUse]
  | forkLinked p np running at_ =>
      have differ : q ≠ np := fun same => inUse.2 (same ▸ (inv.pcOk.copied p np at_).1)
      simp [differ, inUse]
  | forkReady p np running at_ =>
      have differ : q ≠ np := fun same => inUse.2 (same ▸ (inv.pcOk.linked p np at_).1)
      simp [differ, inUse]
  | exited p status k' running outside notInit exit =>
      left
      by_cases same : q = p
      · subst same
        simp [exit.caller, closeFiles, InUse]
      · obtain ⟨t, shape, moved⟩ := exit.others q same
        simp only [Kernel.setProc_other _ _ _ _ same] at shape moved
        refine ⟨?_, by rw [shape]⟩
        rcases moved with kept | ⟨_, ready⟩
        · simpa [shape, kept] using inUse
        · simp [shape, ready, InUse]
  | reaped p pp running found =>
      by_cases same : q = pp
      · subst same
        exact Or.inr ⟨p, rfl, found⟩
      · simp [same, inUse, freeproc]
  | ppidTested p running outside parent => exact Or.inl ⟨inUse, rfl⟩
  | ppidLoaded p x running at_ parent => exact Or.inl ⟨inUse, rfl⟩
  | ppidDone p x running at_ => exact Or.inl ⟨inUse, rfl⟩

theorem step_ppidTest {p : Slot} (run : s.step (.ppidTest p) = some s') :
    (s.kernel.proc p).state = .running ∧ ∀ q, s'.pc p ≠ .ppidLoaded q := by
  obtain ⟨running, outside, made⟩ := byProcess_some run
  refine ⟨running, ?_⟩
  intro q
  rw [← Option.some.inj made]
  split
  · simp [outside]
  · simp

/-- A slot taken is one of those taken before, under the same pid, or has the pid
that was next. -/
theorem effect_pid (inv : SmpInv s) (effect : SmpEffect s e s') (q : Slot)
    (live : (s'.kernel.proc q).state ≠ .unused) :
    ((s.kernel.proc q).state ≠ .unused ∧ (s'.kernel.proc q).pid = (s.kernel.proc q).pid) ∨
    (s'.kernel.proc q).pid = s.kernel.nextpid := by
  cases effect with
  | quiet e k' change busy =>
      left
      refine ⟨?_, change.pid q⟩
      rcases change.state q with same | ⟨before, _⟩
      · rwa [← same]
      · exact before.inUse.1
  | booted mem rootInode np first free =>
      by_cases same : q = np
      · subst same; simp [firstProcess]
      · left; simpa [same] using live
  | forkFailed p np mem running free =>
      by_cases same : q = np
      · subst same; simp [freeproc] at live
      · left; simpa [same, freeproc] using live
  | forkCopied p np mem running free =>
      by_cases same : q = np
      · subst same; simp [forkChild]
      · left; simpa [same] using live
  | forkLinked p np running at_ =>
      by_cases same : q = np
      · subst same; simp [(inv.pcOk.copied p q at_).1]
      · left; simpa [same] using live
  | forkReady p np running at_ =>
      by_cases same : q = np
      · subst same; simp [(inv.pcOk.linked p q at_).1]
      · left; simpa [same] using live
  | exited p status k' running outside notInit exit =>
      left
      by_cases same : q = p
      · subst same; simp [running, exit.caller, closeFiles]
      · obtain ⟨t, shape, moved⟩ := exit.others q same
        simp only [Kernel.setProc_other _ _ _ _ same] at shape moved
        refine ⟨?_, by rw [shape]⟩
        rcases moved with kept | ⟨asleep, _⟩
        · simpa [shape, kept] using live
        · simp [asleep]
  | reaped p pp running found =>
      by_cases same : q = pp
      · subst same; simp [freeproc] at live
      · left; simpa [same, freeproc] using live
  | ppidTested p running outside parent => exact Or.inl ⟨live, rfl⟩
  | ppidLoaded p x running at_ parent => exact Or.inl ⟨live, rfl⟩
  | ppidDone p x running at_ => exact Or.inl ⟨live, rfl⟩

theorem run_pid_positive (r : Run Smp.step) (start : r.state 0 = Smp.boot)
    (noOverflow : ∀ t, t ≤ r.len → 1 ≤ (r.state t).kernel.nextpid) :
    ∀ t, t ≤ r.len → ∀ q, ((r.state t).kernel.proc q).state ≠ .unused →
      1 ≤ ((r.state t).kernel.proc q).pid := by
  intro t
  induction t with
  | zero =>
      intro _ q live
      rw [start] at live
      exact absurd rfl live
  | succ t ih =>
      intro within q live
      have inv := run_smpInv r start t (by omega)
      rcases effect_pid inv (smp_effect (r.next t (by omega))) q live with ⟨before, same⟩ | new
      · rw [same]
        exact ih (by omega) q before
      · rw [new]
        exact noOverflow t (by omega)

theorem step_loaded (run : s.step e = some s') (p q : Slot) (loaded : s'.pc p = .ppidLoaded q) :
    (s.pc p = .ppidLoaded q ∧ e ≠ .ppidTest p) ∨
    (e = .ppidLoad p ∧ (s.kernel.proc p).parent = some q ∧ s.pc p = .ppidTested) := by
  have notTest : e ≠ .ppidTest p := by
    intro same
    subst same
    exact (step_ppidTest run).2 q loaded
  -- a step that moves another process, or moves `p` elsewhere
  have moved : ∀ x pc k, s' = s.goto x pc k → pc ≠ .ppidLoaded q → s.pc p = .ppidLoaded q := by
    intro x pc k shape differ
    rw [shape] at loaded
    by_cases same : p = x
    · subst same
      exact absurd (by simpa using loaded) differ
    · simpa [same] using loaded
  generalize target : s' = t at run
  have effect := smp_effect run
  cases effect with
  | ppidLoaded x q' running at_ parent =>
      by_cases same : p = x
      · subst same
        rw [target] at loaded
        simp only [goto_pc_same, Pc.ppidLoaded.injEq] at loaded
        exact Or.inr ⟨rfl, loaded ▸ parent, at_⟩
      · rw [target] at loaded
        exact Or.inl ⟨by simpa [same] using loaded, notTest⟩
  | forkCopied x np mem running free => exact Or.inl ⟨moved _ _ _ target (by simp), notTest⟩
  | forkLinked x np running at_ => exact Or.inl ⟨moved _ _ _ target (by simp), notTest⟩
  | forkReady x np running at_ => exact Or.inl ⟨moved _ _ _ target (by simp), notTest⟩
  | ppidTested x running outside parent => exact Or.inl ⟨moved _ _ _ target (by simp), notTest⟩
  | ppidDone x q' running at_ => exact Or.inl ⟨moved _ _ _ target (by simp), notTest⟩
  | _ => exact Or.inl ⟨by simpa [target] using loaded, notTest⟩

end Invariant

/-! ## The value returned -/

/-- A `kwait` frees a slot that some process holds as its parent's, with `pid` not
yet loaded. -/
def ReapsUnread (s : Smp) : SmpEvent → Prop
  | .kwait f copied => copied = true ∧
      ∃ p q, s.pc p = .ppidLoaded q ∧ zombieChild f s.kernel = some q
  | _ => False

/-- The call of `sys_getppid` that `p` makes at event `i` returns `v` at event `k`. -/
structure Returns (r : Run Smp.step) (p : Slot) (i k : Nat) (v : Int) : Prop where
  order : i ≤ k
  inside : k < r.len
  called : r.event i = .ppidTest p
  last : ∀ t, i < t → t ≤ k → r.event t ≠ .ppidTest p
  ends : r.event k = .ppidTest p ∨ r.event k = .ppidPid p
  value : (r.state k).ppidResult (r.event k) = some v

/-- At position `t`, `q` is the parent of `p`, alive, with pid `v`. -/
def ParentIs (r : Run Smp.step) (t : Nat) (p q : Slot) (v : Int) : Prop :=
  ((r.state t).kernel.proc p).parent = some q ∧ Alive ((r.state t).kernel.proc q).state ∧
    ((r.state t).kernel.proc q).pid = v

/-- `sys_getppid` returns to every process but `initproc` the pid of a process
that was alive and its parent at some instant of the call; it is not 0 unless
`nextpid` has overflowed. -/
def GetppidLaw (r : Run Smp.step) : Prop :=
  ∀ p i k v, Returns r p i k v → (r.state k).kernel.initproc ≠ some p →
    (∃ t q, i ≤ t ∧ t ≤ k ∧ ParentIs r t p q v) ∧
    ((∀ t, t ≤ r.len → 1 ≤ (r.state t).kernel.nextpid) → v ≠ 0)

section Value
variable {r : Run Smp.step}

/-- The process in `p` loaded `q` at event `j`, and `q` has kept its pid. -/
structure LoadedAt (r : Run Smp.step) (p q : Slot) (j t : Nat) : Prop where
  before : j < t
  parent : ParentIs r j p q ((r.state t).kernel.proc q).pid
  inUse : InUse ((r.state t).kernel.proc q).state
  load : r.event j = .ppidLoad p
  noTest : ∀ u, j ≤ u → u < t → r.event u ≠ .ppidTest p

theorem loadedAt_step (start : r.state 0 = Smp.boot)
    (read : ∀ t, t < r.len → ¬ ReapsUnread (r.state t) (r.event t)) {t : Nat} (inside : t < r.len)
    (before : ∀ p q, (r.state t).pc p = .ppidLoaded q → ∃ j, LoadedAt r p q j t) :
    ∀ p q, (r.state (t + 1)).pc p = .ppidLoaded q → ∃ j, LoadedAt r p q j (t + 1) := by
  intro p q loaded
  have run := r.next t inside
  have inv := run_smpInv r start t (by omega)
  -- the slot `q` is not freed by this step
  have keeps : InUse ((r.state t).kernel.proc q).state →
      (r.state t).pc p = .ppidLoaded q ∨ r.event t = .ppidLoad p →
      InUse ((r.state (t + 1)).kernel.proc q).state ∧
        ((r.state (t + 1)).kernel.proc q).pid = ((r.state t).kernel.proc q).pid := by
    intro inUse held
    rcases effect_keeps_pid inv (smp_effect run) q inUse with kept | ⟨f, reaps, found⟩
    · exact kept
    · rcases held with at_ | load
      · have unread := read t inside
        rw [reaps] at unread
        exact absurd ⟨rfl, p, q, at_, found⟩ unread
      · simp [load] at reaps
  rcases step_loaded run p q loaded with ⟨at_, notTest⟩ | ⟨load, parent, at_⟩
  · obtain ⟨j, held⟩ := before p q at_
    obtain ⟨inUse, pid⟩ := keeps held.inUse (Or.inl at_)
    refine ⟨j, Nat.lt_succ_of_lt held.before, pid ▸ held.parent, inUse, held.load, ?_⟩
    intro u low high
    rcases Nat.lt_or_ge u t with below | edge
    · exact held.noTest u low below
    · have : u = t := by omega
      subst this
      exact notTest
  · have running := inv.pcOk.busy p (by simp [at_])
    have alive : Alive ((r.state t).kernel.proc q).state := by
      rcases inv.rooted.parents p (inv.pcOk.caller p at_) with ⟨none, _⟩ | ⟨q', parent', alive, _⟩
      · simp [none] at parent
      · rw [parent] at parent'
        exact Option.some.inj parent' ▸ alive
    obtain ⟨inUse, pid⟩ := keeps alive.inUse (Or.inr load)
    refine ⟨t, Nat.lt_succ_self t, ⟨parent, alive, pid.symm⟩, inUse, load, ?_⟩
    intro u low high
    have : u = t := by omega
    subst this
    simp [load]

theorem run_loadedAt (start : r.state 0 = Smp.boot)
    (read : ∀ t, t < r.len → ¬ ReapsUnread (r.state t) (r.event t)) :
    ∀ t, t ≤ r.len → ∀ p q, (r.state t).pc p = .ppidLoaded q → ∃ j, LoadedAt r p q j t := by
  intro t
  induction t with
  | zero =>
      intro _ p q loaded
      rw [start] at loaded
      cases loaded
  | succ t ih =>
      intro within
      exact loadedAt_step start read (by omega) (ih (by omega))

theorem returns_parent (start : r.state 0 = Smp.boot)
    (read : ∀ t, t < r.len → ¬ ReapsUnread (r.state t) (r.event t)) {p : Slot} {i k : Nat} {v : Int}
    (returns : Returns r p i k v) (notInit : (r.state k).kernel.initproc ≠ some p) :
    ∃ t q, i ≤ t ∧ t ≤ k ∧ ParentIs r t p q v := by
  have inv := run_smpInv r start k (by have := returns.inside; omega)
  have value := returns.value
  rcases returns.ends with test | last
  · -- a null parent belongs to `initproc` alone
    have run := r.next k returns.inside
    rw [test] at run value
    have running := (step_ppidTest run).1
    rcases inv.rooted.parents p notInit with ⟨_, unused⟩ | ⟨q, parent, _, _⟩
    · simp [InUse, running] at unused
    · simp [Smp.ppidResult, parent] at value
  · rw [last] at value
    cases at_ : (r.state k).pc p with
    | ppidLoaded q =>
        obtain ⟨j, held⟩ := run_loadedAt start read k (by have := returns.inside; omega) p q at_
        simp only [Smp.ppidResult, at_, Option.some.injEq] at value
        refine ⟨j, q, ?_, by have := held.before; omega, value ▸ held.parent⟩
        by_contra late
        have order : i < k := by
          rcases Nat.lt_or_ge i k with below | edge
          · exact below
          · have called := returns.called
            have : i = k := by have := returns.order; omega
            rw [this, last] at called
            cases called
        exact held.noTest i (by omega) order returns.called
    | _ => simp [Smp.ppidResult, at_] at value

end Value

/-- In every run in which no parent slot is freed between the load of the pointer
and the load of its pid, `sys_getppid` names a parent. -/
theorem getppid_of_noReap (r : Run Smp.step) (start : r.state 0 = Smp.boot)
    (read : ∀ t, t < r.len → ¬ ReapsUnread (r.state t) (r.event t)) : GetppidLaw r := by
  intro p i k v returns notInit
  obtain ⟨t, q, low, high, parent⟩ := returns_parent start read returns notInit
  refine ⟨⟨t, q, low, high, parent⟩, ?_⟩
  intro noOverflow zero
  have within : t ≤ r.len := by have := returns.inside; omega
  have := run_pid_positive r start noOverflow t within q parent.2.1.inUse.1
  have := parent.2.2
  omega

/-- `init`, its child in slot 1 and the grandchild in slot 2 run on three CPUs, and
the grandchild has loaded its parent pointer. -/
def threeRunning : List SmpEvent :=
  [.userinit ⟨some 1, some 2, true⟩ 1, .dispatch 0,
    .forkCopy 0 ⟨some 1, some 2, true⟩, .forkLink 0, .forkReady 0, .dispatch 1,
    .forkCopy 1 ⟨some 1, some 2, true⟩, .forkLink 1, .forkReady 1, .dispatch 2,
    .ppidTest 2, .ppidLoad 2]

/-- The parent exits before its pid is loaded and is reaped afterwards. -/
def reapedLater : Run Smp.step :=
  Run.ofEvents Smp.step Smp.boot
    (threeRunning ++ [.kexit 1 0, .ppidPid 2, .kwait 0 true]) (.dispatch 0) (by decide +kernel)

theorem reapedLater_getppid : GetppidLaw reapedLater ∧ Returns reapedLater 2 10 13 2 := by
  refine ⟨getppid_of_noReap reapedLater rfl ?_, ?_⟩
  · intro t inside reaps
    have bound : t < 15 := inside
    -- the one `kwait` comes when nobody holds a loaded pointer
    have unheld : ∀ p q, (reapedLater.state 14).pc p ≠ .ppidLoaded q := by decide +kernel
    interval_cases t <;> first | exact reaps | skip
    obtain ⟨_, p, q, held, _⟩ := reaps
    exact unheld p q held
  · refine ⟨by decide, by decide, rfl, ?_, Or.inr rfl, by decide +kernel⟩
    intro t above below
    interval_cases t <;> decide

/-- The parent exits and `init` reaps it before its pid is loaded. -/
def reapedUnread : Run Smp.step :=
  Run.ofEvents Smp.step Smp.boot
    (threeRunning ++ [.kexit 1 0, .kwait 0 true, .ppidPid 2]) (.dispatch 0) (by decide +kernel)

/-- The grandchild is told 0, which is the pid of no process. -/
theorem reapedUnread_returns_zero : reapedUnread.state 0 = Smp.boot ∧
    Returns reapedUnread 2 10 14 0 ∧ ¬ GetppidLaw reapedUnread := by
  have returns : Returns reapedUnread 2 10 14 0 := by
    refine ⟨by decide, by decide, rfl, ?_, Or.inr rfl, by decide +kernel⟩
    intro t above below
    interval_cases t <;> decide
  refine ⟨rfl, returns, ?_⟩
  intro law
  refine (law 2 10 14 0 returns (by decide +kernel)).2 ?_ rfl
  intro t within
  have bound : t < 16 := Nat.lt_succ_of_le within
  interval_cases t <;> decide +kernel

end Xv6Fcfs.Process
