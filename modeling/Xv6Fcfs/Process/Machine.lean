import Xv6Fcfs.Process.Table
import Xv6Fcfs.Lib.Runs

/-!
# One CPU running the process table

The configuration the README asks for (`CPUS=1`).  The machine holds the kernel's
table and `c->proc`.  A process event is an operation of the process that is
running; `dispatch` is one turn of the loop of `scheduler()`, possible only when
no process holds the CPU.  Interrupts may arrive at any point and run on whatever
holds the CPU.

`Effect` says once what a step can do; every invariant of the machine is proved
from it.
-/

set_option autoImplicit false

namespace Xv6Fcfs.Process

open Xv6Fcfs.Lib

structure Machine where
  kernel : Kernel
  cpu : Option Slot
  deriving DecidableEq

inductive Event where
  | userinit (m : ForkMem) (rootInode : Nat)
  | kfork (m : ForkMem)
  | kexit (status : Int)
  | kwait (copied : Bool)
  | sleep (chan : Chan)
  | wakeup (chan : Chan)
  | kkill (pid : Int)
  | timer
  | device (chans : List Chan)
  | dispatch
  deriving DecidableEq

/-- The machine when `main` reaches `scheduler()`, before `userinit`. -/
def boot : Machine := ⟨procinit, none⟩

/-- `yield` has an empty body in this kernel. -/
def yield (m : Machine) : Machine := m

/-- `ticks++` on a 32-bit `uint`. -/
def tick (k : Kernel) : Kernel := { k with ticks := (k.ticks + 1) % 2 ^ 32 }

def clockintr (m : Machine) : Machine :=
  { m with kernel := wakeup m.cpu (some .ticks) (tick m.kernel) }

/-- `usertrap` and `kerneltrap` on a timer interrupt. -/
def timerTrap (m : Machine) : Machine :=
  let m := clockintr m
  if m.cpu = none then m else yield m

/-- A device interrupt handler wakes the sleepers of some channels. -/
def deviceTrap (chans : List Chan) (m : Machine) : Machine :=
  { m with kernel := chans.foldl (fun k c => Process.wakeup m.cpu (some c) k) m.kernel }

/-- One turn of the loop of `scheduler()`.  The chosen process continues in
`sleep`, which clears `chan` before anything else can happen; a process that
runs for the first time has no channel. -/
def scheduler (m : Machine) : Machine :=
  match firstProc m.kernel with
  | none => m
  | some p =>
      ⟨m.kernel.setProc p fun q => { q with state := .running, chan := none }, some p⟩

/-- The operation `op` of the running process. -/
def byRunning (m : Machine) (op : Slot → Option Machine) : Option Machine :=
  match m.cpu with
  | none => none
  | some p => op p

def step (m : Machine) : Event → Option Machine
  | .userinit mem rootInode =>
      if m.kernel.initproc = none then
        (userinit mem rootInode m.kernel).map fun k => { m with kernel := k }
      else none
  | .kfork mem => byRunning m fun p => some { m with kernel := (kfork mem p m.kernel).2 }
  | .kexit status => byRunning m fun p => (kexit status p m.kernel).map fun k => ⟨k, none⟩
  | .kwait copied => byRunning m fun p =>
      match kwait copied p m.kernel with
      | (some _, k) => some { m with kernel := k }
      | (none, k) => some ⟨k, none⟩
  | .sleep chan => byRunning m fun p => some ⟨sleep chan p m.kernel, none⟩
  | .wakeup chan => byRunning m fun p =>
      some { m with kernel := wakeup (some p) (some chan) m.kernel }
  | .kkill pid => byRunning m fun _ => some { m with kernel := (kkill pid m.kernel).2 }
  | .timer => some (timerTrap m)
  | .device chans => some (deviceTrap chans m)
  | .dispatch => if m.cpu = none then some (scheduler m) else none

def CpuOk (m : Machine) : Prop :=
  ∀ p, (m.kernel.proc p).state = .running ↔ m.cpu = some p

/-- `kexit` closes the caller's files before it takes `wait_lock`. -/
def closeFiles (q : Proc) : Proc := { q with ofile := fun _ => none, cwd := none }

/-- The slot `userinit` fills. -/
def firstProcess (pid : Int) (m : ForkMem) (rootInode : Nat) (q : Proc) : Proc :=
  { q with
    pid := pid
    state := .runnable
    trapframe := m.trapframe
    pagetable := m.pagetable
    cwd := some rootInode }

/-- The running process calls `sleep`, directly or from `kwait`. -/
def CallsSleep (m : Machine) : Event → Prop
  | .sleep _ => True
  | .kwait copied => ∃ p, m.cpu = some p ∧ (kwait copied p m.kernel).1 = none
  | _ => False

def CallsExit : Event → Prop
  | .kexit _ => True
  | _ => False

inductive Effect (m : Machine) : Event → Machine → Prop where
  | idle (e : Event) (k' : Kernel) (quiet : ¬ CallsExit e) (wakes : WakesOnly m.kernel k') :
      Effect m e { m with kernel := k' }
  | booted (mem : ForkMem) (rootInode : Nat) (np : Slot) (first : m.kernel.initproc = none)
      (free : unusedSlot m.kernel = some np) :
      Effect m (.userinit mem rootInode)
        { m with kernel :=
          { m.kernel.setProc np (firstProcess m.kernel.nextpid mem rootInode) with
            initproc := some np
            nextpid := wrapInt (m.kernel.nextpid + 1) } }
  | forkFailed (mem : ForkMem) (p np : Slot) (running : m.cpu = some p)
      (free : unusedSlot m.kernel = some np) :
      Effect m (.kfork mem)
        { m with kernel :=
          { freeproc np m.kernel with nextpid := wrapInt (m.kernel.nextpid + 1) } }
  | forked (mem : ForkMem) (p np : Slot) (running : m.cpu = some p)
      (free : unusedSlot m.kernel = some np) :
      Effect m (.kfork mem)
        { m with kernel :=
          { m.kernel.setProc np (forkChild (m.kernel.proc p) p m.kernel.nextpid mem) with
            nextpid := wrapInt (m.kernel.nextpid + 1) } }
  | exited (status : Int) (p : Slot) (k' : Kernel) (running : m.cpu = some p)
      (notInit : m.kernel.initproc ≠ some p)
      (exit : Exited status p (m.kernel.setProc p closeFiles) k') :
      Effect m (.kexit status) ⟨k', none⟩
  | reaped (p pp : Slot) (running : m.cpu = some p)
      (found : zombieChild p m.kernel = some pp) :
      Effect m (.kwait true) { m with kernel := freeproc pp m.kernel }
  | slept (e : Event) (p : Slot) (chan : Chan) (running : m.cpu = some p)
      (calls : e = .sleep chan ∨
        (∃ copied, e = .kwait copied ∧ (kwait copied p m.kernel).1 = none) ∧ chan = .proc p) :
      Effect m e ⟨sleep chan p m.kernel, none⟩
  | killed (pid : Int) (p pp : Slot) (running : m.cpu = some p)
      (found : firstIdx (fun q => decide ((m.kernel.proc q).pid = pid)) = some pp) :
      Effect m (.kkill pid) { m with kernel := (kkill pid m.kernel).2 }
  | dispatched (p : Slot) (free : m.cpu = none) (chosen : firstProc m.kernel = some p) :
      Effect m .dispatch
        ⟨m.kernel.setProc p fun q => { q with state := .running, chan := none }, some p⟩

theorem timerTrap_effect (m : Machine) : Effect m .timer (timerTrap m) := by
  have wakes := wakeup_wakesOnly m.cpu (some .ticks) (tick m.kernel)
  have same : timerTrap m =
      { m with kernel := wakeup m.cpu (some .ticks) (tick m.kernel) } := by
    simp only [timerTrap, yield]
    split <;> rfl
  rw [same]
  exact .idle _ _ id ⟨wakes.initproc, wakes.nextpid, wakes.proc⟩

theorem scheduler_effect (m : Machine) (free : m.cpu = none) :
    Effect m .dispatch (scheduler m) := by
  unfold scheduler
  cases chosen : firstProc m.kernel with
  | none => exact .idle _ _ id (WakesOnly.refl _)
  | some p => exact .dispatched p free chosen

theorem userinit_effect (m : Machine) (mem : ForkMem) (rootInode : Nat) (k' : Kernel)
    (first : m.kernel.initproc = none) (run : userinit mem rootInode m.kernel = some k') :
    Effect m (.userinit mem rootInode) { m with kernel := k' } := by
  rcases allocproc_cases mem m.kernel with ⟨_, out⟩ | ⟨np, _, out⟩ | ⟨np, free, _, _, out⟩
  · simp [userinit, out] at run
  · simp [userinit, out] at run
  · simp only [userinit, out, Option.some.injEq] at run
    have same : k' = { m.kernel.setProc np (firstProcess m.kernel.nextpid mem rootInode) with
        initproc := some np
        nextpid := wrapInt (m.kernel.nextpid + 1) } := by
      rw [← run]
      simp [Kernel.setProc, allocated, firstProcess]
    rw [same]
    exact .booted mem rootInode np first free

theorem kwait_effect (m : Machine) (copied : Bool) (p : Slot) (running : m.cpu = some p)
    (m' : Machine)
    (run : (match kwait copied p m.kernel with
      | (some _, k) => some { m with kernel := k }
      | (none, k) => some ⟨k, none⟩) = some m') :
    Effect m (.kwait copied) m' := by
  cases found : zombieChild p m.kernel with
  | some pp =>
      cases copied with
      | true =>
          simp only [kwait, found, if_true, Option.some.injEq] at run
          rw [← run]
          exact .reaped p pp running found
      | false =>
          simp only [kwait, found, Bool.false_eq_true, if_false, Option.some.injEq] at run
          rw [← run]
          exact .idle _ _ id (WakesOnly.refl _)
  | none =>
      by_cases alone : havekids p m.kernel = false ∨ (m.kernel.proc p).killed = true
      · simp only [kwait, found, if_pos alone, Option.some.injEq] at run
        rw [← run]
        exact .idle _ _ id (WakesOnly.refl _)
      · have blocks : (kwait copied p m.kernel).1 = none := by
          simp only [kwait, found, if_neg alone]
        simp only [kwait, found, if_neg alone, Option.some.injEq] at run
        rw [← run]
        exact .slept _ p _ running (Or.inr ⟨⟨copied, rfl, blocks⟩, rfl⟩)

theorem kfork_effect (m : Machine) (mem : ForkMem) (p : Slot) (running : m.cpu = some p)
    (live : (m.kernel.proc p).state ≠ .unused) :
    Effect m (.kfork mem) { m with kernel := (kfork mem p m.kernel).2 } := by
  rcases kfork_cases mem m.kernel p live with out | ⟨np, free, out⟩ | ⟨np, free, out⟩
  · rw [out]
    exact .idle _ _ id (WakesOnly.refl _)
  · rw [out]
    exact .forkFailed mem p np running free
  · rw [out]
    exact .forked mem p np running free

theorem byRunning_some {m m' : Machine} {op : Slot → Option Machine}
    (run : byRunning m op = some m') : ∃ p, m.cpu = some p ∧ op p = some m' := by
  unfold byRunning at run
  cases running : m.cpu with
  | none => simp [running] at run
  | some p => exact ⟨p, rfl, by simpa [running] using run⟩

theorem step_effect {m m' : Machine} {e : Event} (ok : CpuOk m) (run : step m e = some m') :
    Effect m e m' := by
  cases e with
  | userinit mem rootInode =>
      by_cases first : m.kernel.initproc = none
      · simp only [step, if_pos first, Option.map_eq_some_iff] at run
        obtain ⟨k', made, same⟩ := run
        rw [← same]
        exact userinit_effect m mem rootInode k' first made
      · simp [step, first] at run
  | kfork mem =>
      obtain ⟨p, running, run⟩ := byRunning_some run
      have live : (m.kernel.proc p).state ≠ .unused := by simp [(ok p).mpr running]
      rw [← Option.some.inj run]
      exact kfork_effect m mem p running live
  | kexit status =>
      obtain ⟨p, running, run⟩ := byRunning_some run
      by_cases isInit : some p = m.kernel.initproc
      · simp [kexit, isInit] at run
      · simp only [kexit, if_neg isInit, Option.map_some, Option.some.injEq] at run
        rw [← run]
        exact .exited status p _ running (fun h => isInit h.symm) (exitSection_exited _ _ _)
  | kwait copied =>
      obtain ⟨p, running, run⟩ := byRunning_some run
      exact kwait_effect m copied p running m' run
  | sleep chan =>
      obtain ⟨p, running, run⟩ := byRunning_some run
      rw [← Option.some.inj run]
      exact .slept _ p chan running (Or.inl rfl)
  | wakeup chan =>
      obtain ⟨p, running, run⟩ := byRunning_some run
      rw [← Option.some.inj run]
      exact .idle _ _ id (wakeup_wakesOnly _ _ _)
  | kkill pid =>
      obtain ⟨p, running, run⟩ := byRunning_some run
      rw [← Option.some.inj run]
      cases found : firstIdx (fun q => decide ((m.kernel.proc q).pid = pid)) with
      | none =>
          have same : (kkill pid m.kernel).2 = m.kernel := by simp [kkill, found]
          rw [same]
          exact .idle _ _ id (WakesOnly.refl _)
      | some pp => exact .killed pid p pp running found
  | timer =>
      rw [← Option.some.inj run]
      exact timerTrap_effect m
  | device chans =>
      rw [← Option.some.inj run]
      exact .idle _ _ id (foldl_wakeup_wakesOnly _ _ _)
  | dispatch =>
      by_cases free : m.cpu = none
      · simp only [step, if_pos free, Option.some.injEq] at run
        rw [← run]
        exact scheduler_effect m free
      · simp [step, free] at run

/-! ## The CPU and the pids -/

section Invariants
variable {m m' : Machine} {e : Event}

theorem zombieChild_some {p pp : Slot} {k : Kernel} (found : zombieChild p k = some pp) :
    (k.proc pp).parent = some p ∧ (k.proc pp).state = .zombie := by
  simpa using firstIdx_some found

theorem kkill_proc {k : Kernel} {pid : Int} {pp : Slot}
    (found : firstIdx (fun q => decide ((k.proc q).pid = pid)) = some pp) (q : Slot) :
    (kkill pid k).2.proc q =
      if q = pp then
        { k.proc pp with
          killed := true
          state := if (k.proc pp).state = .sleeping then .runnable else (k.proc pp).state }
      else k.proc q := by
  simp only [kkill, found]
  exact Kernel.setProc_proc _ _ _ _

theorem boot_cpuOk : CpuOk boot := by
  intro p
  simp [boot, procinit, Proc.zero]

theorem cpuOk_effect (ok : CpuOk m) (effect : Effect m e m') : CpuOk m' := by
  intro q
  cases effect with
  | idle e k' quiet wakes =>
      exact (wakes.state_iff q .running (by simp) (by simp)).trans (ok q)
  | booted mem rootInode np first free =>
      have unused := unusedSlot_some free
      have := ok q
      by_cases same : q = np
      · subst same
        simp_all [firstProcess]
      · simpa [same] using this
  | forkFailed mem p np running free =>
      have unused := unusedSlot_some free
      have := ok q
      by_cases same : q = np
      · subst same
        simp_all [freeproc]
      · simpa [same, freeproc] using this
  | forked mem p np running free =>
      have unused := unusedSlot_some free
      have := ok q
      by_cases same : q = np
      · subst same
        simp_all [forkChild]
      · simpa [same] using this
  | exited status p k' running notInit exit =>
      by_cases same : q = p
      · subst same
        simp [exit.caller]
      · obtain ⟨s, shape, moved⟩ := exit.others q same
        have idle : (m.kernel.proc q).state ≠ .running := by
          rw [Ne, ok q, running]
          simpa using Ne.symm same
        rw [shape]
        simp only [Kernel.setProc_other _ _ _ _ same] at moved
        rcases moved with unchanged | ⟨_, ready⟩
        · simp [unchanged, idle]
        · simp [ready]
  | reaped p pp running found =>
      have zombie := (zombieChild_some found).2
      have := ok q
      by_cases same : q = pp
      · subst same
        simp_all [freeproc]
      · simpa [same, freeproc] using this
  | slept e p chan running calls =>
      by_cases same : q = p
      · subst same
        simp [sleep]
      · have := ok q
        simp_all [sleep, Ne.symm same]
  | killed pid p pp running found =>
      have := ok q
      rw [kkill_proc found]
      by_cases same : q = pp
      · subst same
        by_cases asleep : (m.kernel.proc q).state = .sleeping
        · simp_all
        · simpa [asleep] using this
      · simpa [same] using this
  | dispatched p free chosen =>
      by_cases same : q = p
      · subst same
        simp
      · have := ok q
        simp_all [Ne.symm same]

theorem cpuOk_step (ok : CpuOk m) (run : step m e = some m') : CpuOk m' :=
  cpuOk_effect ok (step_effect ok run)

theorem run_cpuOk (r : Run step) (start : r.state 0 = boot) :
    ∀ i, i ≤ r.len → CpuOk (r.state i) :=
  r.invariant CpuOk (start ▸ boot_cpuOk) (fun _ _ _ run ok => cpuOk_step ok run)

theorem run_effect (r : Run step) (start : r.state 0 = boot) {i : Nat} (inside : i < r.len) :
    Effect (r.state i) (r.event i) (r.state (i + 1)) :=
  step_effect (run_cpuOk r start i (by omega)) (r.next i inside)

/-- A slot in use after a step was in use before with the same pid, or has just
been filled and took its pid from `nextpid`. -/
theorem effect_live (ok : CpuOk m) (effect : Effect m e m') (q : Slot)
    (live : (m'.kernel.proc q).state ≠ .unused) :
    ((m.kernel.proc q).state ≠ .unused ∧ (m'.kernel.proc q).pid = (m.kernel.proc q).pid) ∨
    (unusedSlot m.kernel = some q ∧ (m'.kernel.proc q).pid = m.kernel.nextpid ∧
      m'.kernel.nextpid = wrapInt (m.kernel.nextpid + 1)) := by
  cases effect with
  | idle e k' quiet wakes =>
      left
      refine ⟨?_, wakes.pid q⟩
      rwa [Ne, wakes.state_iff q .unused (by simp) (by simp)] at live
  | booted mem rootInode np first free =>
      by_cases same : q = np
      · subst same
        exact Or.inr ⟨free, by simp [firstProcess], rfl⟩
      · left
        simpa [same] using live
  | forkFailed mem p np running free =>
      by_cases same : q = np
      · subst same
        simp [freeproc] at live
      · left
        simpa [same, freeproc] using live
  | forked mem p np running free =>
      by_cases same : q = np
      · subst same
        exact Or.inr ⟨free, by simp [forkChild], rfl⟩
      · left
        simpa [same] using live
  | exited status p k' running notInit exit =>
      left
      by_cases same : q = p
      · subst same
        exact ⟨by simp [(ok q).mpr running], by simp [exit.caller, closeFiles]⟩
      · obtain ⟨s, shape, moved⟩ := exit.others q same
        simp only [Kernel.setProc_other _ _ _ _ same] at moved shape
        rw [shape] at live ⊢
        rcases moved with unchanged | ⟨asleep, _⟩
        · exact ⟨by simpa [unchanged] using live, rfl⟩
        · exact ⟨by simp [asleep], rfl⟩
  | reaped p pp running found =>
      by_cases same : q = pp
      · subst same
        simp [freeproc] at live
      · left
        simpa [same, freeproc] using live
  | slept e p chan running calls =>
      left
      by_cases same : q = p
      · subst same
        simp [(ok q).mpr running, sleep]
      · simpa [same, sleep] using live
  | killed pid p pp running found =>
      left
      rw [kkill_proc found] at live ⊢
      by_cases same : q = pp
      · subst same
        by_cases asleep : (m.kernel.proc q).state = .sleeping
        · simp [asleep]
        · simpa [asleep] using live
      · simpa [same] using live
  | dispatched p free chosen =>
      left
      by_cases same : q = p
      · subst same
        simp [(firstProc_some.mp chosen).1]
      · simpa [same] using live

theorem effect_nextpid (effect : Effect m e m') :
    m'.kernel.nextpid = m.kernel.nextpid ∨
      m'.kernel.nextpid = wrapInt (m.kernel.nextpid + 1) := by
  cases effect with
  | idle e k' quiet wakes => exact Or.inl wakes.nextpid
  | booted => exact Or.inr rfl
  | forkFailed => exact Or.inr rfl
  | forked => exact Or.inr rfl
  | exited status p k' running notInit exit => exact Or.inl exit.nextpid
  | reaped => exact Or.inl rfl
  | slept => exact Or.inl rfl
  | killed pid p pp running found => left; simp [kkill, found]
  | dispatched => exact Or.inl rfl

/-- Pids before `nextpid` overflows: positive, below `nextpid`, one slot each. -/
structure PidsOk (k : Kernel) : Prop where
  positive : 1 ≤ k.nextpid
  bounded : k.nextpid < 2 ^ 31
  range : ∀ p, (k.proc p).state ≠ .unused → 1 ≤ (k.proc p).pid ∧ (k.proc p).pid < k.nextpid
  distinct : ∀ p q, (k.proc p).state ≠ .unused → (k.proc q).state ≠ .unused →
    (k.proc p).pid = (k.proc q).pid → p = q

theorem boot_pidsOk : PidsOk boot.kernel := by
  refine ⟨by decide, by decide, ?_, ?_⟩
  · intro p live; exact absurd rfl live
  · intro p q live; exact absurd rfl live

theorem effect_nextpid_mono (pids : PidsOk m.kernel) (effect : Effect m e m')
    (kept : 1 ≤ m'.kernel.nextpid) : m.kernel.nextpid ≤ m'.kernel.nextpid := by
  rcases effect_nextpid effect with same | moved
  · omega
  · rw [moved] at kept ⊢
    rw [wrapInt_succ pids.positive pids.bounded kept]
    omega

theorem pidsOk_effect (ok : CpuOk m) (pids : PidsOk m.kernel) (effect : Effect m e m')
    (kept : 1 ≤ m'.kernel.nextpid) : PidsOk m'.kernel := by
  have mono := effect_nextpid_mono pids effect kept
  have created : ∀ q, unusedSlot m.kernel = some q →
      m'.kernel.nextpid = wrapInt (m.kernel.nextpid + 1) →
        m'.kernel.nextpid = m.kernel.nextpid + 1 := by
    intro q _ moved
    rw [moved] at kept ⊢
    exact wrapInt_succ pids.positive pids.bounded kept
  refine ⟨kept, ?_, ?_, ?_⟩
  · rcases effect_nextpid effect with same | moved
    · rw [same]; exact pids.bounded
    · rw [moved]; exact wrapInt_lt _
  · intro p live
    rcases effect_live ok effect p live with ⟨before, same⟩ | ⟨free, new, moved⟩
    · have := pids.range p before
      omega
    · have := created p free moved
      have := pids.positive
      omega
  · intro p q liveP liveQ equal
    rcases effect_live ok effect p liveP with ⟨beforeP, sameP⟩ | ⟨freeP, newP, _⟩
    · rcases effect_live ok effect q liveQ with ⟨beforeQ, sameQ⟩ | ⟨freeQ, newQ, _⟩
      · exact pids.distinct p q beforeP beforeQ (by rw [← sameP, ← sameQ, equal])
      · have := pids.range p beforeP
        omega
    · rcases effect_live ok effect q liveQ with ⟨beforeQ, sameQ⟩ | ⟨freeQ, _, _⟩
      · have := pids.range q beforeQ
        omega
      · rw [freeP] at freeQ
        exact Option.some.inj freeQ

/-- `nextpid` has not overflowed: an overflow makes it negative. -/
def NoOverflow (r : Run step) : Prop := ∀ i, i ≤ r.len → 1 ≤ (r.state i).kernel.nextpid

theorem run_pidsOk (r : Run step) (start : r.state 0 = boot) (noOverflow : NoOverflow r) :
    ∀ i, i ≤ r.len → PidsOk (r.state i).kernel := by
  intro i
  induction i with
  | zero => intro _; rw [start]; exact boot_pidsOk
  | succ i ih =>
      intro within
      exact pidsOk_effect (run_cpuOk r start i (by omega)) (ih (by omega))
        (run_effect r start (by omega)) (noOverflow (i + 1) within)

end Invariants

end Xv6Fcfs.Process
