import Xv6Fcfs.Process.Machine

/-!
# The round-robin scheduler (`kernel/proc_RR_backup.c`)

One CPU with the scheduler and the `yield` that the FCFS kernel replaced; the other functions are
those of `Process.Table`.  The timer can take the CPU from a process between any two of the sections
that locks protect, so the sections of `kfork` and the turns of the loop of `kkill` are steps of
their own; which section a process executes next, and at which slot, is left open.
-/

set_option autoImplicit false

namespace Xv6Fcfs.Process.RoundRobin

open Xv6Fcfs.Lib

/-! ## The machine -/

/-- Where the thread of the scheduler is. -/
inductive Point where
  /-- Before `for(p = proc; ...)`, with `found = 0`. -/
  | top
  /-- At the test of the loop. -/
  | turn (p : Nat) (found : Bool)
  /-- In the `swtch` to a process. -/
  | away (p : Slot)
  | wfi
  deriving DecidableEq

structure State where
  kernel : Kernel
  cpu : Option Slot
  point : Point
  deriving DecidableEq

inductive Event where
  | userinit (mem : ForkMem) (rootInode : Nat)
  | kfork (mem : ForkMem) (np : Slot)
  | adopt (np : Slot)
  | start (np : Slot)
  | kexit (status : Int)
  | kwait (copied : Bool)
  | sleep (chan : Chan)
  | wakeup (chan : Chan)
  | kkill (pid : Int) (pp : Slot)
  | timer
  | device (chans : List Chan)
  | scheduler

/-- `kfork` under the lock of the child, for the unused slot at which the scan of `allocproc` ended. -/
def forkAt (mem : ForkMem) (p np : Slot) (k : Kernel) : Kernel :=
  let (pid, k) := allocpid k
  let k := k.setProc np fun q => { q with pid := pid, state := .used }
  let k := k.setProc np fun q => { q with trapframe := mem.trapframe }
  if mem.trapframe = none then freeproc np k
  else
    let k := k.setProc np fun q => { q with pagetable := mem.pagetable }
    if mem.pagetable = none then freeproc np k
    else if mem.uvmcopy then
      let par := k.proc p
      k.setProc np fun q =>
        { q with
          sz := par.sz
          ofile := fun i => if par.ofile i = none then q.ofile i else par.ofile i
          cwd := par.cwd
          name := par.name }
    else freeproc np k

/-- One turn of the loop of `kkill`. -/
def killAt (pid : Int) (pp : Slot) (k : Kernel) : Kernel :=
  if (k.proc pp).pid = pid then
    k.setProc pp fun q =>
      { q with
        killed := true
        state := if q.state = .sleeping then .runnable else q.state }
  else k

/-- `yield` of the running process, up to the switch to the scheduler. -/
def yield (s : State) : State :=
  match s.cpu with
  | none => s
  | some p => { s with kernel := s.kernel.setProc p fun q =>
      { q with state := .runnable }, cpu := none }

/-- An interrupt ends the wait of `wfi`. -/
def Point.woken : Point → Point
  | .wfi => .top
  | point => point

/-- `clockintr`, and the `yield` of `usertrap` and `kerneltrap`. -/
def timerTrap (s : State) : State :=
  yield { s with kernel := wakeup s.cpu (some .ticks) (tick s.kernel), point := s.point.woken }

def deviceTrap (chans : List Chan) (s : State) : State :=
  { s with
    kernel := chans.foldl (fun k c => Process.wakeup s.cpu (some c) k) s.kernel
    point := s.point.woken }

/-- A step of the scheduler.  A process that was asleep clears its `chan` before anything else
can happen. -/
def scheduler (s : State) : State :=
  match s.point with
  | .top => { s with point := .turn 0 false }
  | .turn p found =>
      if inside : p < NPROC then
        if (s.kernel.proc ⟨p, inside⟩).state = .runnable then
          { kernel := s.kernel.setProc ⟨p, inside⟩ fun q => { q with state := .running, chan := none }
            cpu := some ⟨p, inside⟩
            point := .away ⟨p, inside⟩ }
        else { s with point := .turn (p + 1) found }
      else { s with point := if found then .top else .wfi }
  | .away p => { s with point := .turn (p + 1) true }
  | .wfi => s

/-- The operation `op` of the running process. -/
def byRunning (s : State) (op : Slot → Option State) : Option State := s.cpu.bind op

def step (s : State) : Event → Option State
  | .userinit mem rootInode =>
      if s.kernel.initproc = none then
        (userinit mem rootInode s.kernel).map fun k => { s with kernel := k }
      else none
  | .kfork mem np => byRunning s fun p =>
      if (s.kernel.proc np).state = .unused then some { s with kernel := forkAt mem p np s.kernel }
      else none
  | .adopt np => byRunning s fun p =>
      some { s with kernel := s.kernel.setProc np fun q => { q with parent := some p } }
  | .start np => byRunning s fun _ =>
      if (s.kernel.proc np).state = .used then
        some { s with kernel := s.kernel.setProc np fun q => { q with state := .runnable } }
      else none
  | .kexit status => byRunning s fun p =>
      (kexit status p s.kernel).map fun k => { s with kernel := k, cpu := none }
  | .kwait copied => byRunning s fun p =>
      match kwait copied p s.kernel with
      | (some _, k) => some { s with kernel := k }
      | (none, k) => some { s with kernel := k, cpu := none }
  | .sleep chan => byRunning s fun p => some { s with kernel := sleep chan p s.kernel, cpu := none }
  | .wakeup chan => byRunning s fun p =>
      some { s with kernel := wakeup (some p) (some chan) s.kernel }
  | .kkill pid pp => byRunning s fun _ => some { s with kernel := killAt pid pp s.kernel }
  | .timer => some (timerTrap s)
  | .device chans => some (deviceTrap chans s)
  | .scheduler => if s.cpu = none then some (scheduler s) else none

/-- The machine when `main` reaches `scheduler()`, before `userinit`. -/
def boot : State := ⟨procinit, none, .top⟩

/-! ## What a section does to a process that holds or awaits the CPU -/

/-- The process in slot `q`, if it runs or can run, is left as it is. -/
def Spares (q : Slot) (k k' : Kernel) : Prop :=
  (k.proc q).state = .running ∨ (k.proc q).state = .runnable →
    (k'.proc q).state = (k.proc q).state ∧ (k'.proc q).pid = (k.proc q).pid

section Sections
variable {k k' k'' : Kernel} {p q np : Slot}

theorem Spares.refl (q : Slot) (k : Kernel) : Spares q k k := fun _ => ⟨rfl, rfl⟩

theorem Spares.trans (first : Spares q k k') (second : Spares q k' k'') : Spares q k k'' := by
  intro live
  obtain ⟨state, pid⟩ := first live
  obtain ⟨state', pid'⟩ := second (by rwa [state])
  exact ⟨state'.trans state, pid'.trans pid⟩

theorem WakesOnly.spares (wakes : WakesOnly k k') (q : Slot) : Spares q k k' := by
  intro live
  refine ⟨?_, wakes.pid q⟩
  rcases wakes.proc q with same | ⟨asleep, -⟩
  · rw [same]
  · rw [asleep] at live
    rcases live with no | no <;> cases no

theorem setProc_spares (k : Kernel) (f : Proc → Proc) (idle : (k.proc np).state ≠ .running)
    (unready : (k.proc np).state ≠ .runnable) (q : Slot) : Spares q k (k.setProc np f) := by
  intro live
  have other : q ≠ np := by
    rintro rfl
    exact live.elim idle unready
  rw [Kernel.setProc_other _ _ _ _ other]
  exact ⟨rfl, rfl⟩

theorem setProc_keeps (k : Kernel) (f : Proc → Proc) (state : (f (k.proc np)).state = (k.proc np).state)
    (pid : (f (k.proc np)).pid = (k.proc np).pid) (q : Slot) : Spares q k (k.setProc np f) := by
  intro _
  rw [Kernel.setProc_proc]
  split
  · next same =>
    rw [same]
    exact ⟨state, pid⟩
  · exact ⟨rfl, rfl⟩

theorem forkAt_other (mem : ForkMem) (k : Kernel) (other : q ≠ np) :
    (forkAt mem p np k).proc q = k.proc q := by
  unfold forkAt allocpid freeproc
  simp only
  split
  · simp [other]
  · split
    · simp [other]
    · split <;> simp [other]

theorem forkAt_spares (mem : ForkMem) (p : Slot) (unused : (k.proc np).state = .unused) (q : Slot) :
    Spares q k (forkAt mem p np k) := by
  intro live
  have other : q ≠ np := by
    rintro rfl
    rw [unused] at live
    rcases live with no | no <;> cases no
  rw [forkAt_other mem k other]
  exact ⟨rfl, rfl⟩

theorem killAt_spares (pid : Int) (pp : Slot) (k : Kernel) (q : Slot) :
    Spares q k (killAt pid pp k) := by
  unfold killAt
  split
  · intro live
    rw [Kernel.setProc_proc]
    split
    · next same =>
      subst same
      have awake : (k.proc q).state ≠ .sleeping := by
        intro asleep
        rw [asleep] at live
        rcases live with no | no <;> cases no
      exact ⟨if_neg awake, rfl⟩
    · exact ⟨rfl, rfl⟩
  · exact Spares.refl q k

theorem Exited.spares {status : Int} (exit : Exited status p k k') (other : q ≠ p) : Spares q k k' := by
  intro live
  obtain ⟨s, shape, moved⟩ := exit.others q other
  rw [shape]
  rcases moved with same | ⟨asleep, -⟩
  · exact ⟨same, rfl⟩
  · rw [asleep] at live
    rcases live with no | no <;> cases no

theorem userinit_spares {mem : ForkMem} {rootInode : Nat}
    (run : userinit mem rootInode k = some k') (q : Slot) :
    Spares q k k' := by
  rcases allocproc_cases mem k with ⟨_, out⟩ | ⟨np, _, out⟩ | ⟨np, free, _, _, out⟩
  · simp [userinit, out] at run
  · simp [userinit, out] at run
  · simp only [userinit, out, Option.some.injEq] at run
    intro live
    have other : q ≠ np := by
      rintro rfl
      rw [unusedSlot_some free] at live
      rcases live with no | no <;> cases no
    rw [← run]
    simp [Kernel.setProc, other]

end Sections

/-! ## What a step does -/

/-- The scheduler goes on without a process. -/
inductive Passes (k : Kernel) : Point → Point → Prop where
  | enter : Passes k .top (.turn 0 false)
  | skip (p : Nat) (found : Bool) (inside : p < NPROC) (idle : (k.proc ⟨p, inside⟩).state ≠ .runnable) :
      Passes k (.turn p found) (.turn (p + 1) found)
  | ends (p : Nat) (found : Bool) (outside : NPROC ≤ p) (point : Point)
      (next : point = .top ∨ point = .wfi) :
      Passes k (.turn p found) point
  | back (p : Slot) : Passes k (.away p) (.turn (p + 1) true)
  | waits : Passes k .wfi .wfi

inductive Turn (s : State) : State → Prop where
  | keeps (k' : Kernel) (point : Point) (same : point = s.point ∨ point = s.point.woken)
      (spares : ∀ q, Spares q s.kernel k') : Turn s ⟨k', s.cpu, point⟩
  | leaves (p : Slot) (k' : Kernel) (point : Point) (running : s.cpu = some p)
      (same : point = s.point ∨ point = s.point.woken)
      (spares : ∀ q, q ≠ p → Spares q s.kernel k') : Turn s ⟨k', none, point⟩
  | passes (point : Point) (free : s.cpu = none) (goes : Passes s.kernel s.point point) :
      Turn s ⟨s.kernel, none, point⟩
  | dispatches (p : Slot) (found : Bool) (free : s.cpu = none) (here : s.point = .turn p found)
      (ready : (s.kernel.proc p).state = .runnable) :
      Turn s ⟨s.kernel.setProc p fun q => { q with state := .running, chan := none }, some p, .away p⟩

def Runs (s : State) : Prop := ∀ p, s.cpu = some p → (s.kernel.proc p).state = .running

section Steps
variable {s s' : State}

theorem setProc_leaves (s : State) {p : Slot} (running : s.cpu = some p) (f : Proc → Proc) :
    Turn s { s with kernel := s.kernel.setProc p f, cpu := none } := by
  refine .leaves p _ s.point running (Or.inl rfl) ?_
  intro q other _
  rw [Kernel.setProc_other _ _ _ _ other]
  exact ⟨rfl, rfl⟩

theorem timerTrap_turn (s : State) : Turn s (timerTrap s) := by
  have wakes := wakeup_wakesOnly s.cpu (some .ticks) (tick s.kernel)
  have spares : ∀ q, Spares q s.kernel (wakeup s.cpu (some .ticks) (tick s.kernel)) := fun q =>
    (Spares.refl q s.kernel : Spares q s.kernel (tick s.kernel)).trans (WakesOnly.spares wakes q)
  unfold timerTrap yield
  split
  · next free => exact .keeps _ _ (Or.inr rfl) spares
  · next p running =>
    refine .leaves p _ _ running (Or.inr rfl) ?_
    intro q other
    refine (spares q).trans ?_
    intro _
    rw [Kernel.setProc_other _ _ _ _ other]
    exact ⟨rfl, rfl⟩

theorem scheduler_turn (free : s.cpu = none) : Turn s (scheduler s) := by
  obtain ⟨kernel, cpu, point⟩ := s
  cases free
  unfold scheduler
  cases point with
  | top => exact .passes _ rfl .enter
  | wfi => exact .passes _ rfl .waits
  | away p => exact .passes _ rfl (.back p)
  | turn p found =>
      simp only
      split
      · next inside =>
        split
        · next ready => exact .dispatches ⟨p, inside⟩ found rfl rfl ready
        · next idle => exact .passes _ rfl (.skip p found inside idle)
      · next outside =>
        refine .passes _ rfl (.ends p found (Nat.le_of_not_lt outside) _ ?_)
        cases found with
        | true => exact Or.inl rfl
        | false => exact Or.inr rfl

theorem kwait_turn {p : Slot} (running : s.cpu = some p) (copied : Bool)
    (run : (match kwait copied p s.kernel with
      | (some _, k) => some { s with kernel := k }
      | (none, k) => some { s with kernel := k, cpu := none }) = some s') : Turn s s' := by
  cases found : zombieChild p s.kernel with
  | some pp =>
      have zombie := (zombieChild_some found).2
      cases copied with
      | true =>
          simp only [kwait, found, if_true, Option.some.injEq] at run
          rw [← run]
          exact .keeps _ _ (Or.inl rfl) (setProc_spares _ _ (by rw [zombie]; decide)
            (by rw [zombie]; decide))
      | false =>
          simp only [kwait, found, Bool.false_eq_true, if_false, Option.some.injEq] at run
          rw [← run]
          exact .keeps _ _ (Or.inl rfl) fun q => Spares.refl q _
  | none =>
      by_cases alone : havekids p s.kernel = false ∨ (s.kernel.proc p).killed = true
      · simp only [kwait, found, if_pos alone, Option.some.injEq] at run
        rw [← run]
        exact .keeps _ _ (Or.inl rfl) fun q => Spares.refl q _
      · simp only [kwait, found, if_neg alone, Option.some.injEq] at run
        rw [← run]
        exact setProc_leaves s running _

theorem step_turn {e : Event} (run : step s e = some s') : Turn s s' := by
  cases e with
  | userinit mem rootInode =>
      simp only [step] at run
      split at run
      · obtain ⟨k', made, rfl⟩ := Option.map_eq_some_iff.mp run
        exact .keeps _ _ (Or.inl rfl) (userinit_spares made)
      · cases run
  | kfork mem np =>
      obtain ⟨p, running, run⟩ := Option.bind_eq_some_iff.mp run
      split at run <;> cases run
      next unused => exact .keeps _ _ (Or.inl rfl) (forkAt_spares mem p unused)
  | adopt np =>
      obtain ⟨p, running, run⟩ := Option.bind_eq_some_iff.mp run
      cases run
      exact .keeps _ _ (Or.inl rfl) (setProc_keeps _ _ rfl rfl)
  | start np =>
      obtain ⟨p, running, run⟩ := Option.bind_eq_some_iff.mp run
      split at run <;> cases run
      next used =>
        exact .keeps _ _ (Or.inl rfl)
          (setProc_spares _ _ (by rw [used]; decide) (by rw [used]; decide))
  | kexit status =>
      obtain ⟨p, running, run⟩ := Option.bind_eq_some_iff.mp run
      obtain ⟨k', exits, rfl⟩ := Option.map_eq_some_iff.mp run
      refine .leaves p _ _ running (Or.inl rfl) ?_
      intro q other
      unfold kexit at exits
      split at exits
      · cases exits
      · cases exits
        exact (setProc_keeps _ _ rfl rfl q).trans (Exited.spares (exitSection_exited _ _ _) other)
  | kwait copied =>
      obtain ⟨p, running, run⟩ := Option.bind_eq_some_iff.mp run
      exact kwait_turn running copied run
  | sleep chan =>
      obtain ⟨p, running, run⟩ := Option.bind_eq_some_iff.mp run
      cases run
      exact setProc_leaves s running _
  | wakeup chan =>
      obtain ⟨p, running, run⟩ := Option.bind_eq_some_iff.mp run
      cases run
      exact .keeps _ _ (Or.inl rfl) (WakesOnly.spares (wakeup_wakesOnly _ _ _))
  | kkill pid pp =>
      obtain ⟨p, running, run⟩ := Option.bind_eq_some_iff.mp run
      cases run
      exact .keeps _ _ (Or.inl rfl) (killAt_spares pid pp _)
  | timer =>
      cases run
      exact timerTrap_turn s
  | device chans =>
      cases run
      exact .keeps _ _ (Or.inr rfl) (WakesOnly.spares (foldl_wakeup_wakesOnly _ _ _))
  | scheduler =>
      simp only [step] at run
      split at run <;> cases run
      next free => exact scheduler_turn free

theorem Turn.runs (turn : Turn s s') (runs : Runs s) : Runs s' := by
  intro p on
  cases turn with
  | keeps k' point same spares => exact ((spares p (Or.inl (runs p on))).1).trans (runs p on)
  | leaves => cases on
  | passes => cases on
  | dispatches q found free here ready =>
      cases on
      rw [Kernel.setProc_same]

end Steps

/-! ## Waiting for the CPU -/

def Dispatches (s s' : State) (p : Slot) : Prop := s.cpu = none ∧ s'.cpu = some p

/-- Since the dispatch of `p` the scheduler has not come to slot `q`. -/
def Ahead (p q : Slot) : Point → Prop
  | .top | .wfi => q < p
  | .turn i _ => p.val < i ∧ (p < q → i ≤ q.val) ∨ i ≤ q.val ∧ q < p
  | .away r => r = p ∨ p < r ∧ (p < q → r < q) ∨ r < q ∧ q < p

/-- The process in slot `q`, whose pid is given, can run, and the scheduler will come to it before
it comes to slot `p` again. -/
structure Waits (p q : Slot) (pid : Int) (s : State) : Prop where
  ready : (s.kernel.proc q).state = .runnable
  pid : (s.kernel.proc q).pid = pid
  ahead : Ahead p q s.point

section Waiting
variable {s s' : State} {p q : Slot} {pid : Int}

theorem Ahead.woken {point : Point} (ahead : Ahead p q point) : Ahead p q point.woken := by
  cases point <;> exact ahead

theorem Ahead.passes {k : Kernel} {point point' : Point} (ahead : Ahead p q point) (other : q ≠ p)
    (ready : (k.proc q).state = .runnable) (goes : Passes k point point') : Ahead p q point' := by
  have apart : q.val ≠ p.val := fun same => other (Fin.ext same)
  cases goes with
  | enter => exact Or.inr ⟨Nat.zero_le _, ahead⟩
  | skip i found inside idle =>
      have passed : i ≠ q.val := by
        rintro rfl
        exact idle ready
      simp only [Ahead, Fin.lt_def] at ahead ⊢
      omega
  | ends i found outside point next =>
      have below := q.isLt
      have behind : q < p := by
        simp only [Ahead, Fin.lt_def] at ahead ⊢
        omega
      rcases next with rfl | rfl <;> exact behind
  | back r =>
      simp only [Ahead, Fin.lt_def, Fin.ext_iff] at ahead ⊢
      omega
  | waits => exact ahead

/-- A process waits until its own dispatch, and slot `p` is not dispatched before. -/
theorem Waits.turn (waits : Waits p q pid s) (runs : Runs s) (other : q ≠ p) (turn : Turn s s') :
    Waits p q pid s' ∧ ¬ Dispatches s s' p ∨ Dispatches s s' q := by
  obtain ⟨ready, is, ahead⟩ := waits
  have live := Or.inr (a := (s.kernel.proc q).state = .running) ready
  cases turn with
  | keeps k' point same spares =>
      obtain ⟨state, pid'⟩ := spares q live
      refine Or.inl ⟨⟨state.trans ready, pid'.trans is, ?_⟩, ?_⟩
      · rcases same with rfl | rfl
        · exact ahead
        · exact ahead.woken
      · rintro ⟨free, on⟩
        have on : s.cpu = some p := on
        rw [free] at on
        cases on
  | leaves r k' point running same spares =>
      have idle : q ≠ r := by
        rintro rfl
        rw [runs q running] at ready
        cases ready
      obtain ⟨state, pid'⟩ := spares q idle live
      refine Or.inl ⟨⟨state.trans ready, pid'.trans is, ?_⟩, fun both => by cases both.2⟩
      rcases same with rfl | rfl
      · exact ahead
      · exact ahead.woken
  | passes point free goes =>
      exact Or.inl ⟨⟨ready, is, ahead.passes other ready goes⟩, fun both => by cases both.2⟩
  | dispatches r found free here ready' =>
      by_cases mine : r = q
      · exact Or.inr ⟨free, by rw [mine]⟩
      · have apart : r.val ≠ q.val := fun same => mine (Fin.ext same)
        rw [here] at ahead
        refine Or.inl ⟨⟨?_, ?_, ?_⟩, ?_⟩
        · rw [Kernel.setProc_other _ _ _ _ (Ne.symm mine), ready]
        · rw [Kernel.setProc_other _ _ _ _ (Ne.symm mine), is]
        · simp only [Ahead, Fin.lt_def, Fin.ext_iff] at ahead ⊢
          omega
        · rintro ⟨-, on⟩
          cases on
          simp only [Ahead, Fin.lt_def] at ahead
          omega

theorem waits_first (turn : Turn s s') (first : Dispatches s s' p) (other : q ≠ p)
    (ready : (s.kernel.proc q).state = .runnable) : Waits p q (s.kernel.proc q).pid s' := by
  obtain ⟨free, on⟩ := first
  cases turn with
  | keeps k' point same spares =>
      have on : s.cpu = some p := on
      rw [free] at on
      cases on
  | leaves => cases on
  | passes => cases on
  | dispatches r found free here ready' =>
      cases on
      refine ⟨?_, ?_, Or.inl rfl⟩
      · rw [Kernel.setProc_other _ _ _ _ other, ready]
      · rw [Kernel.setProc_other _ _ _ _ other]

end Waiting

/-! ## Runs -/

theorem run_runs (r : Run step) (start : r.state 0 = boot) : ∀ i, i ≤ r.len → Runs (r.state i) :=
  r.invariant Runs (by rw [start]; intro p on; cases on) fun _ _ _ run runs => (step_turn run).runs runs

theorem waits_until (r : Run step) (start : r.state 0 = boot) {i n : Nat} {p q : Slot} (after : i < n)
    (inside : n ≤ r.len) (first : Dispatches (r.state i) (r.state (i + 1)) p) (other : q ≠ p)
    (ready : ((r.state i).kernel.proc q).state = .runnable)
    (none : ∀ k, i < k → k < n → ¬ Dispatches (r.state k) (r.state (k + 1)) q) :
    ∀ k, i + 1 ≤ k → k ≤ n → Waits p q ((r.state i).kernel.proc q).pid (r.state k) := by
  refine r.between (fun k => Waits p q ((r.state i).kernel.proc q).pid (r.state k)) (i + 1) n inside
    (waits_first (step_turn (r.next i (by omega))) first other ready) ?_
  intro k low high run waits
  rcases waits.turn (run_runs r start k (by omega)) other (step_turn run) with ⟨stays, -⟩ | mine
  · exact stays
  · exact absurd mine (none k low high)

/-- Between two dispatches of a process every other process that could run at the first of them is
dispatched; until then it is the same process and can run. -/
theorem overtaken_once (r : Run step) (start : r.state 0 = boot) {i j : Nat} {p q : Slot}
    (before : i < j)
    (inside : j < r.len) (first : Dispatches (r.state i) (r.state (i + 1)) p)
    (second : Dispatches (r.state j) (r.state (j + 1)) p) (other : q ≠ p)
    (ready : ((r.state i).kernel.proc q).state = .runnable) :
    ∃ k, i < k ∧ k < j ∧ Dispatches (r.state k) (r.state (k + 1)) q ∧
      ∀ l, i ≤ l → l ≤ k → ((r.state l).kernel.proc q).state = .runnable ∧
        ((r.state l).kernel.proc q).pid = ((r.state i).kernel.proc q).pid := by
  classical
  by_cases some_ : ∃ k, i < k ∧ k < j ∧ Dispatches (r.state k) (r.state (k + 1)) q
  · obtain ⟨after, least, mine⟩ := Nat.find_spec some_
    refine ⟨Nat.find some_, after, least, mine, ?_⟩
    have waits := waits_until r start after (by omega) first other ready fun k low high both =>
      Nat.find_min some_ high ⟨low, by omega, both⟩
    intro l low high
    rcases Nat.eq_or_lt_of_le low with rfl | later
    · exact ⟨ready, rfl⟩
    · have waiting := waits l later high
      exact ⟨waiting.ready, waiting.pid⟩
  · have waits := waits_until r start before (Nat.le_of_lt inside) first other ready
      fun k low high both =>
      some_ ⟨k, low, high, both⟩
    rcases (waits j before (Nat.le_refl j)).turn (run_runs r start j (Nat.le_of_lt inside)) other
      (step_turn (r.next j inside)) with ⟨-, no⟩ | mine
    · exact absurd second no
    · have same := second.2.symm.trans mine.2
      exact absurd (Option.some.inj same).symm other

def laps : List Event :=
  [.userinit ⟨some 1, some 2, true⟩ 1, .scheduler, .scheduler,
    .kfork ⟨some 3, some 4, true⟩ 1, .adopt 1,
    .start 1, .timer, .scheduler, .scheduler, .timer] ++
  List.replicate 66 .scheduler ++ [.timer, .scheduler, .scheduler]

def lapsRun : Run step := Run.ofEvents step boot laps .timer (by decide +kernel)

theorem laps_overtaken : ∃ k, 8 < k ∧ k < 78 ∧ Dispatches (lapsRun.state k) (lapsRun.state (k + 1)) 0 ∧
    ∀ l, 8 ≤ l → l ≤ k → ((lapsRun.state l).kernel.proc 0).state = .runnable ∧
      ((lapsRun.state l).kernel.proc 0).pid = ((lapsRun.state 8).kernel.proc 0).pid :=
  @overtaken_once lapsRun (Run.ofEvents_zero step boot laps .timer (by decide +kernel)) 8 78
    1 0 (by decide)
    (by decide) ⟨by decide +kernel, by decide +kernel⟩
      ⟨by decide +kernel, by decide +kernel⟩ (by decide)
    (by decide +kernel)

end Xv6Fcfs.Process.RoundRobin
