import Xv6Fcfs.Process.Machine

/-!
# `kexit` and `kwait` on several CPUs

`wait_lock` is held over a whole scan of the table, and inside it the lock of one process
is taken at a time; the sections under those inner locks are the steps here.  Between two
of them any other process may run a section that does not need `wait_lock`, so the loops
of `reparent`, `wakeup` and `kwait` are taken one slot at a time.

A process in state RUNNING may take the next step, whatever the number of CPUs.
-/

set_option autoImplicit false

namespace Xv6Fcfs.Process

open Xv6Fcfs.Lib

/-- The status address of `kwait`: null, writable, or not writable. -/
inductive Copyout where
  | null
  | ok
  | fails
  deriving DecidableEq

/-- Where a process stands in `kfork`, `kexit` or `kwait`, with the live local variables. -/
inductive WaitPc where
  | outside
  | forkCopied (np : Slot)
  | forkLinked (np : Slot)
  | reparent (status : Int) (pp : Nat)
  | wakeInit (status : Int) (pp j : Nat)
  | wakeParent (status : Int) (chan : Option Chan) (j : Nat)
  | exiting (status : Int)
  | scan (addr : Copyout) (pp : Nat) (havekids : Bool)
  | toSleep (addr : Copyout)
  | asleep (addr : Copyout)
  deriving DecidableEq

structure WaitState where
  kernel : Kernel
  waitLock : Option Slot
  pc : Slot → WaitPc
  deriving DecidableEq

inductive WaitEvent where
  | userinit (m : ForkMem) (rootInode : Nat)
  | dispatch (p : Slot)
  | sleep (p : Slot) (chan : Chan)
  | wake (q : Slot)
  | kkill (p : Slot) (pid : Int) (q : Slot)
  | fork (p np : Slot) (m : ForkMem)
  | kexit (p : Slot) (status : Int)
  | kwait (p : Slot) (addr : Copyout)
  | go (p : Slot)
  deriving DecidableEq

def WaitState.boot : WaitState := ⟨procinit, none, fun _ => .outside⟩

def WaitState.goto (s : WaitState) (p : Slot) (pc : WaitPc) : WaitState :=
  { s with pc := Function.update s.pc p pc }

/-- One slot of the loop of `wakeup`. -/
def wakeSlot (me : Slot) (chan : Option Chan) (q : Slot) (k : Kernel) : Kernel :=
  if q ≠ me ∧ (k.proc q).state = .sleeping ∧ (k.proc q).chan = chan then
    k.setProc q fun x => { x with state := .runnable }
  else k

def slotAt (i : Nat) : Option Slot := if h : i < NPROC then some ⟨i, h⟩ else none

/-- The child's slot after `allocproc` and the copies of `kfork`. -/
def forkSlot (p np : Slot) (m : ForkMem) (k : Kernel) : Kernel :=
  let par := k.proc p
  { k.setProc np fun q =>
      { q with
        pid := k.nextpid
        state := .used
        trapframe := m.trapframe
        pagetable := m.pagetable
        sz := par.sz
        ofile := fun i => if par.ofile i = none then q.ofile i else par.ofile i
        cwd := par.cwd
        name := par.name } with
    nextpid := wrapInt (k.nextpid + 1) }

def ForkMem.enough (m : ForkMem) : Bool :=
  m.trapframe.isSome && m.pagetable.isSome && m.uvmcopy

/-- The next section of a process inside one of the three calls. -/
def WaitState.advance (s : WaitState) (p : Slot) : Option WaitState :=
  let k := s.kernel
  match s.pc p with
  | .outside => none
  | .forkCopied np =>
      if s.waitLock = none then
        some { s.goto p (.forkLinked np) with
          kernel := k.setProc np fun q => { q with parent := some p } }
      else none
  | .forkLinked np =>
      some { s.goto p .outside with kernel := k.setProc np fun q => { q with state := .runnable } }
  | .reparent status i =>
      match slotAt i with
      | some pp =>
          if (k.proc pp).parent = some p then
            some { s.goto p (.wakeInit status i 0) with
              kernel := k.setProc pp fun q => { q with parent := k.initproc } }
          else some (s.goto p (.reparent status (i + 1)))
      | none => some (s.goto p (.wakeParent status ((k.proc p).parent.map .proc) 0))
  | .wakeInit status i j =>
      match slotAt j with
      | some q =>
          some { s.goto p (.wakeInit status i (j + 1)) with
            kernel := wakeSlot p (k.initproc.map .proc) q k }
      | none => some (s.goto p (.reparent status (i + 1)))
  | .wakeParent status chan j =>
      match slotAt j with
      | some q =>
          some { s.goto p (.wakeParent status chan (j + 1)) with kernel := wakeSlot p chan q k }
      | none => some (s.goto p (.exiting status))
  | .exiting status =>
      some { s.goto p .outside with
        waitLock := none
        kernel := k.setProc p fun q => { q with xstate := status, state := .zombie } }
  | .scan addr i havekids =>
      match slotAt i with
      | some pp =>
          if (k.proc pp).parent = some p then
            if (k.proc pp).state = .zombie then
              if addr = .fails then some { s.goto p .outside with waitLock := none }
              else some { s.goto p .outside with waitLock := none, kernel := freeproc pp k }
            else some (s.goto p (.scan addr (i + 1) true))
          else some (s.goto p (.scan addr (i + 1) havekids))
      | none =>
          if havekids = false ∨ (k.proc p).killed = true then
            some { s.goto p .outside with waitLock := none }
          else some (s.goto p (.toSleep addr))
  | .toSleep addr =>
      some { s.goto p (.asleep addr) with
        waitLock := none
        kernel := Process.sleep (.proc p) p k }
  | .asleep addr =>
      if s.waitLock = none then
        some { s.goto p (.scan addr 0 false) with waitLock := some p }
      else none

/-- Only `kwait` sleeps on a process. -/
def Chan.isProc : Chan → Bool
  | .proc _ => true
  | _ => false

def WaitState.step (s : WaitState) : WaitEvent → Option WaitState
  | .userinit mem rootInode =>
      if s.kernel.initproc = none then
        (Process.userinit mem rootInode s.kernel).map fun k => { s with kernel := k }
      else none
  | .dispatch p =>
      -- scans on other CPUs overlap, so any runnable process may be the one chosen
      if (s.kernel.proc p).state = .runnable then
        let run := fun q : Proc => { q with state := .running, chan := none }
        some { s with kernel := s.kernel.setProc p run }
      else none
  | .sleep p chan =>
      if (s.kernel.proc p).state = .running ∧ s.pc p = .outside ∧ chan.isProc = false then
        some { s with kernel := Process.sleep chan p s.kernel }
      else none
  | .wake q =>
      -- a slot of some other `wakeup`, of a process or an interrupt, on any channel
      if (s.kernel.proc q).state = .sleeping then
        some { s with kernel := s.kernel.setProc q fun x => { x with state := .runnable } }
      else none
  | .kkill p pid q =>
      if (s.kernel.proc p).state = .running ∧ s.pc p = .outside ∧ (s.kernel.proc q).pid = pid then
        some { s with kernel := s.kernel.setProc q fun x =>
          { x with
            killed := true
            state := if x.state = .sleeping then .runnable else x.state } }
      else none
  | .fork p np mem =>
      -- the scan of `allocproc` may end at any free slot, since slots are freed behind it
      if (s.kernel.proc p).state = .running ∧ s.pc p = .outside ∧
          (s.kernel.proc np).state = .unused then
        if mem.enough then
          some { s.goto p (.forkCopied np) with kernel := forkSlot p np mem s.kernel }
        else
          some { s with kernel :=
            { freeproc np s.kernel with nextpid := wrapInt (s.kernel.nextpid + 1) } }
      else none
  | .kexit p status =>
      if (s.kernel.proc p).state = .running ∧ s.pc p = .outside ∧ s.waitLock = none ∧
          s.kernel.initproc ≠ some p then
        some { s.goto p (.reparent status 0) with
          waitLock := some p
          kernel := s.kernel.setProc p closeFiles }
      else none
  | .kwait p addr =>
      if (s.kernel.proc p).state = .running ∧ s.pc p = .outside ∧ s.waitLock = none then
        some { s.goto p (.scan addr 0 false) with waitLock := some p }
      else none
  | .go p => if (s.kernel.proc p).state = .running then s.advance p else none

/-- What `kwait` returns: a pid, with the status stored if there is an address, or -1. -/
inductive WaitResult where
  | reaped (pid : Int) (status : Option Int)
  | minusOne
  deriving DecidableEq

/-- The value with which the next section of `p` ends `kwait`. -/
def WaitState.result (s : WaitState) (p : Slot) : Option WaitResult :=
  match s.pc p with
  | .scan addr i havekids =>
      match slotAt i with
      | some pp =>
          if (s.kernel.proc pp).parent = some p ∧ (s.kernel.proc pp).state = .zombie then
            match addr with
            | .fails => some .minusOne
            | .null => some (.reaped (s.kernel.proc pp).pid none)
            | .ok => some (.reaped (s.kernel.proc pp).pid (some (s.kernel.proc pp).xstate))
          else none
      | none =>
          if havekids = false ∨ (s.kernel.proc p).killed = true then some .minusOne else none
  | _ => none

/-! ## What holds between the sections -/

def Naps (k : Kernel) (P : Slot) : Prop :=
  (k.proc P).state = .sleeping ∧ (k.proc P).chan = some (.proc P)

/-- `c` is an exited child of `P`. -/
def Gone (k : Kernel) (c P : Slot) : Prop :=
  (k.proc c).parent = some P ∧ (k.proc c).state = .zombie

def Fills (pc : WaitPc) (np : Slot) : Prop := pc = .forkCopied np ∨ pc = .forkLinked np

/-- What holds of `p` at each place; `wait_lock` is held from the first section of a call
to its last. -/
def WaitPc.Ok (k : Kernel) (lock : Option Slot) (p : Slot) : WaitPc → Prop
  | .outside => lock ≠ some p
  | .forkCopied _ => lock ≠ some p
  | .forkLinked _ => lock ≠ some p
  | .reparent _ _ => lock = some p
  | .wakeInit _ _ _ => lock = some p
  | .wakeParent _ chan j => lock = some p ∧ chan = (k.proc p).parent.map .proc ∧
      ∀ P : Slot, (k.proc p).parent = some P → P < j → ¬ Naps k P
  | .exiting _ => lock = some p ∧ ∀ P, (k.proc p).parent = some P → ¬ Naps k P
  | .scan _ i havekids => lock = some p ∧
      ∀ pp : Slot, pp < i → (k.proc pp).parent = some p →
        (k.proc pp).state ≠ .zombie ∧ havekids = true
  | .toSleep _ => lock = some p ∧ ∀ pp, (k.proc pp).parent = some p → (k.proc pp).state ≠ .zombie
  | .asleep _ => lock ≠ some p

/-- The life of the slots: a process inside a call runs, except where `kwait` sleeps. -/
structure Lives (s : WaitState) : Prop where
  busy : ∀ p, s.pc p ≠ .outside → (s.kernel.proc p).state = .running ∨
    ((∃ addr, s.pc p = .asleep addr) ∧
      ((s.kernel.proc p).state = .sleeping ∨ (s.kernel.proc p).state = .runnable))
  fills : ∀ p q np, Fills (s.pc p) np → Fills (s.pc q) np → p = q
  used : ∀ p np, Fills (s.pc p) np → (s.kernel.proc np).state = .used
  clean : ∀ p, (s.kernel.proc p).state = .unused → (s.kernel.proc p).parent = none
  first : s.kernel.initproc = none → ∀ p, (s.kernel.proc p).state = .unused

structure WaitInv (s : WaitState) : Prop where
  lives : Lives s
  places : ∀ p, (s.pc p).Ok s.kernel s.waitLock p
  /-- An exited child of a sleeper is one that `reparent` has just given to init, which
  it is about to wake. -/
  missed : ∀ P c, Naps s.kernel P → Gone s.kernel c P →
    ∃ h status i j, s.waitLock = some h ∧ s.pc h = .wakeInit status i j ∧
      s.kernel.initproc = some P ∧ j ≤ P.val

/-- A change of the table that no scan under `wait_lock` can see. -/
structure Mild (k k' : Kernel) : Prop where
  parent : ∀ q, (k'.proc q).parent = (k.proc q).parent
  zombie : ∀ q, (k'.proc q).state = .zombie ↔ (k.proc q).state = .zombie
  naps : ∀ q, Naps k' q → Naps k q

theorem Mild.refl (k : Kernel) : Mild k k := ⟨fun _ => rfl, fun _ => Iff.rfl, fun _ naps => naps⟩

section Places
variable {k k' : Kernel} {lock lock' : Option Slot} {q : Slot} {pc : WaitPc}

theorem WaitPc.Ok.mild (ok : pc.Ok k lock q) (mild : Mild k k')
    (same : lock' = some q ↔ lock = some q) : pc.Ok k' lock' q := by
  cases pc with
  | outside => exact fun held => ok (same.mp held)
  | forkCopied np => exact fun held => ok (same.mp held)
  | forkLinked np => exact fun held => ok (same.mp held)
  | reparent => exact same.mpr ok
  | wakeInit => exact same.mpr ok
  | wakeParent status chan j =>
      obtain ⟨held, eq, woken⟩ := ok
      refine ⟨same.mpr held, ?_, ?_⟩
      · rw [eq, mild.parent]
      · intro P isParent below naps
        rw [mild.parent] at isParent
        exact woken P isParent below (mild.naps P naps)
  | exiting =>
      obtain ⟨held, woken⟩ := ok
      refine ⟨same.mpr held, ?_⟩
      intro P isParent naps
      rw [mild.parent] at isParent
      exact woken P isParent (mild.naps P naps)
  | scan addr i havekids =>
      obtain ⟨held, seen⟩ := ok
      refine ⟨same.mpr held, ?_⟩
      intro pp below child
      rw [mild.parent] at child
      obtain ⟨alive, have_⟩ := seen pp below child
      exact ⟨fun gone => alive ((mild.zombie pp).mp gone), have_⟩
  | toSleep =>
      obtain ⟨held, seen⟩ := ok
      refine ⟨same.mpr held, ?_⟩
      intro pp child gone
      rw [mild.parent] at child
      exact seen pp child ((mild.zombie pp).mp gone)
  | asleep => exact fun held => ok (same.mp held)

/-- A process that does not hold the lock does not mind what the holder does. -/
theorem WaitPc.Ok.unheld (ok : pc.Ok k lock q) (free : lock ≠ some q) (free' : lock' ≠ some q) :
    pc.Ok k' lock' q := by
  cases pc with
  | outside => exact free'
  | forkCopied np => exact free'
  | forkLinked np => exact free'
  | asleep => exact free'
  | reparent => exact absurd ok free
  | wakeInit => exact absurd ok free
  | wakeParent => exact absurd ok.1 free
  | exiting => exact absurd ok.1 free
  | scan => exact absurd ok.1 free
  | toSleep => exact absurd ok.1 free

end Places

/-! ## What a step can do -/

/-- One process moves between the states of a living one, or keeps its state; its parent,
pid and status stay, and it does not fall asleep in `kwait`. -/
structure Shift (s : WaitState) (q : Slot) (x : Proc) : Prop where
  parent : x.parent = (s.kernel.proc q).parent
  pid : x.pid = (s.kernel.proc q).pid
  xstate : x.xstate = (s.kernel.proc q).xstate
  state : x.state = (s.kernel.proc q).state ∨
    ((s.kernel.proc q).state = .sleeping ∧ x.state = .runnable) ∨
    ((s.kernel.proc q).state = .runnable ∧ x.state = .running) ∨
    ((s.kernel.proc q).state = .running ∧ x.state = .sleeping ∧ s.pc q = .outside)
  naps : x.state = .sleeping → x.chan = some (.proc q) → Naps s.kernel q

/-- The sections of the holder of `wait_lock` that change nothing but its own place. -/
inductive Moves (k : Kernel) (p : Slot) : WaitPc → WaitPc → Prop where
  | otherChild (status : Int) (pp : Slot) (other : (k.proc pp).parent ≠ some p) :
      Moves k p (.reparent status pp) (.reparent status (pp + 1))
  | reparented (status : Int) (i : Nat) (last : NPROC ≤ i) :
      Moves k p (.reparent status i) (.wakeParent status ((k.proc p).parent.map .proc) 0)
  | initWoken (status : Int) (i j : Nat) (last : NPROC ≤ j) :
      Moves k p (.wakeInit status i j) (.reparent status (i + 1))
  | parentWoken (status : Int) (chan : Option Chan) (j : Nat) (last : NPROC ≤ j) :
      Moves k p (.wakeParent status chan j) (.exiting status)
  | child (addr : Copyout) (pp : Slot) (havekids : Bool) (child : (k.proc pp).parent = some p)
      (alive : (k.proc pp).state ≠ .zombie) :
      Moves k p (.scan addr pp havekids) (.scan addr (pp + 1) true)
  | noChild (addr : Copyout) (pp : Slot) (havekids : Bool)
      (other : (k.proc pp).parent ≠ some p) :
      Moves k p (.scan addr pp havekids) (.scan addr (pp + 1) havekids)
  | scanned (addr : Copyout) (i : Nat) (last : NPROC ≤ i) :
      Moves k p (.scan addr i true) (.toSleep addr)

inductive WaitEffect (s : WaitState) : WaitEvent → WaitState → Prop where
  | booted (mem : ForkMem) (rootInode : Nat) (np : Slot) (first : s.kernel.initproc = none) :
      WaitEffect s (.userinit mem rootInode) { s with kernel :=
        { s.kernel.setProc np (firstProcess s.kernel.nextpid mem rootInode) with
          initproc := some np
          nextpid := wrapInt (s.kernel.nextpid + 1) } }
  | shifted (e : WaitEvent) (quiet : ∀ p, e ≠ .go p) (q : Slot) (f : Proc → Proc)
      (shift : Shift s q (f (s.kernel.proc q))) :
      WaitEffect s e { s with kernel := s.kernel.setProc q f }
  | forkFailed (p np : Slot) (mem : ForkMem) (free : (s.kernel.proc np).state = .unused) :
      WaitEffect s (.fork p np mem) { s with kernel :=
        { freeproc np s.kernel with nextpid := wrapInt (s.kernel.nextpid + 1) } }
  | forked (p np : Slot) (mem : ForkMem) (running : (s.kernel.proc p).state = .running)
      (place : s.pc p = .outside) (free : (s.kernel.proc np).state = .unused) :
      WaitEffect s (.fork p np mem)
        { s.goto p (.forkCopied np) with kernel := forkSlot p np mem s.kernel }
  | linked (p np : Slot) (running : (s.kernel.proc p).state = .running)
      (place : s.pc p = .forkCopied np) (unlocked : s.waitLock = none) :
      WaitEffect s (.go p) { s.goto p (.forkLinked np) with
        kernel := s.kernel.setProc np fun q => { q with parent := some p } }
  | readied (p np : Slot) (running : (s.kernel.proc p).state = .running)
      (place : s.pc p = .forkLinked np) :
      WaitEffect s (.go p) { s.goto p .outside with
        kernel := s.kernel.setProc np fun q => { q with state := .runnable } }
  | exitBegun (p : Slot) (status : Int) (running : (s.kernel.proc p).state = .running)
      (place : s.pc p = .outside) (unlocked : s.waitLock = none) :
      WaitEffect s (.kexit p status) { s.goto p (.reparent status 0) with
        waitLock := some p
        kernel := s.kernel.setProc p closeFiles }
  | moved (p : Slot) (pc : WaitPc) (running : (s.kernel.proc p).state = .running)
      (moves : Moves s.kernel p (s.pc p) pc) : WaitEffect s (.go p) (s.goto p pc)
  | handedOver (p : Slot) (status : Int) (pp : Slot)
      (running : (s.kernel.proc p).state = .running) (place : s.pc p = .reparent status pp)
      (child : (s.kernel.proc pp).parent = some p) :
      WaitEffect s (.go p) { s.goto p (.wakeInit status pp 0) with
        kernel := s.kernel.setProc pp fun q => { q with parent := s.kernel.initproc } }
  | wokeInit (p : Slot) (status : Int) (i : Nat) (q : Slot)
      (running : (s.kernel.proc p).state = .running) (place : s.pc p = .wakeInit status i q) :
      WaitEffect s (.go p) { s.goto p (.wakeInit status i (q + 1)) with
        kernel := wakeSlot p (s.kernel.initproc.map .proc) q s.kernel }
  | wokeParent (p : Slot) (status : Int) (chan : Option Chan) (q : Slot)
      (running : (s.kernel.proc p).state = .running)
      (place : s.pc p = .wakeParent status chan q) :
      WaitEffect s (.go p) { s.goto p (.wakeParent status chan (q + 1)) with
        kernel := wakeSlot p chan q s.kernel }
  | exited (p : Slot) (status : Int) (running : (s.kernel.proc p).state = .running)
      (place : s.pc p = .exiting status) :
      WaitEffect s (.go p) { s.goto p .outside with
        waitLock := none
        kernel := s.kernel.setProc p fun q => { q with xstate := status, state := .zombie } }
  | locked (e : WaitEvent) (p : Slot) (addr : Copyout)
      (running : (s.kernel.proc p).state = .running)
      (place : s.pc p = .outside ∧ e = .kwait p addr ∨ s.pc p = .asleep addr ∧ e = .go p)
      (unlocked : s.waitLock = none) :
      WaitEffect s e { s.goto p (.scan addr 0 false) with waitLock := some p }
  | gaveUp (p : Slot) (addr : Copyout) (i : Nat) (havekids : Bool)
      (running : (s.kernel.proc p).state = .running) (place : s.pc p = .scan addr i havekids) :
      WaitEffect s (.go p) { s.goto p .outside with waitLock := none }
  | reaped (p : Slot) (addr : Copyout) (pp : Slot) (havekids : Bool)
      (running : (s.kernel.proc p).state = .running) (place : s.pc p = .scan addr pp havekids)
      (child : (s.kernel.proc pp).parent = some p) (gone : (s.kernel.proc pp).state = .zombie) :
      WaitEffect s (.go p) { s.goto p .outside with
        waitLock := none
        kernel := freeproc pp s.kernel }
  | slept (p : Slot) (addr : Copyout) (running : (s.kernel.proc p).state = .running)
      (place : s.pc p = .toSleep addr) :
      WaitEffect s (.go p) { s.goto p (.asleep addr) with
        waitLock := none
        kernel := Process.sleep (.proc p) p s.kernel }

section Inversion
variable {s s' : WaitState} {p : Slot}

theorem slotAt_some {i : Nat} {q : Slot} (found : slotAt i = some q) : i = q.val := by
  unfold slotAt at found
  split at found
  · rw [← Option.some.inj found]
  · cases found

theorem slotAt_none {i : Nat} (ended : slotAt i = none) : NPROC ≤ i := by
  unfold slotAt at ended
  split at ended
  · cases ended
  · omega

theorem advance_effect (running : (s.kernel.proc p).state = .running)
    (run : s.advance p = some s') : WaitEffect s (.go p) s' := by
  unfold WaitState.advance at run
  simp only at run
  split at run
  · cases run
  · rename_i np place
    split at run
    · rename_i unlocked
      obtain rfl := Option.some.inj run
      exact .linked p np running place unlocked
    · cases run
  · rename_i np place
    obtain rfl := Option.some.inj run
    exact .readied p np running place
  · rename_i status i place
    split at run
    · rename_i pp found
      obtain rfl := slotAt_some found
      split at run
      · rename_i child
        obtain rfl := Option.some.inj run
        exact .handedOver p status pp running place child
      · rename_i other
        obtain rfl := Option.some.inj run
        exact .moved p _ running (place ▸ .otherChild status pp other)
    · rename_i ended
      obtain rfl := Option.some.inj run
      exact .moved p _ running (place ▸ .reparented status i (slotAt_none ended))
  · rename_i status i j place
    split at run
    · rename_i q found
      obtain rfl := slotAt_some found
      obtain rfl := Option.some.inj run
      exact .wokeInit p status i q running place
    · rename_i ended
      obtain rfl := Option.some.inj run
      exact .moved p _ running (place ▸ .initWoken status i j (slotAt_none ended))
  · rename_i status chan j place
    split at run
    · rename_i q found
      obtain rfl := slotAt_some found
      obtain rfl := Option.some.inj run
      exact .wokeParent p status chan q running place
    · rename_i ended
      obtain rfl := Option.some.inj run
      exact .moved p _ running (place ▸ .parentWoken status chan j (slotAt_none ended))
  · rename_i status place
    obtain rfl := Option.some.inj run
    exact .exited p status running place
  · rename_i addr i havekids place
    split at run
    · rename_i pp found
      obtain rfl := slotAt_some found
      split at run
      · rename_i child
        split at run
        · rename_i gone
          split at run
          · obtain rfl := Option.some.inj run
            exact .gaveUp p addr pp havekids running place
          · obtain rfl := Option.some.inj run
            exact .reaped p addr pp havekids running place child gone
        · rename_i alive
          obtain rfl := Option.some.inj run
          exact .moved p _ running (place ▸ .child addr pp havekids child alive)
      · rename_i other
        obtain rfl := Option.some.inj run
        exact .moved p _ running (place ▸ .noChild addr pp havekids other)
    · rename_i ended
      split at run
      · obtain rfl := Option.some.inj run
        exact .gaveUp p addr i havekids running place
      · rename_i more
        obtain rfl := Option.some.inj run
        have kids : havekids = true := by simpa using fun no => more (Or.inl no)
        subst kids
        exact .moved p _ running (place ▸ .scanned addr i (slotAt_none ended))
  · rename_i addr place
    obtain rfl := Option.some.inj run
    exact .slept p addr running place
  · rename_i addr place
    split at run
    · rename_i unlocked
      obtain rfl := Option.some.inj run
      exact .locked _ p addr running (Or.inr ⟨place, rfl⟩) unlocked
    · cases run

theorem wait_effect {e : WaitEvent} (run : s.step e = some s') : WaitEffect s e s' := by
  cases e with
  | userinit mem rootInode =>
      simp only [WaitState.step] at run
      split at run
      · rename_i first
        obtain ⟨k', made, rfl⟩ := Option.map_eq_some_iff.mp run
        rcases allocproc_cases mem s.kernel with ⟨_, out⟩ | ⟨np, _, out⟩ | ⟨np, free, _, _, out⟩
        · simp [userinit, out] at made
        · simp [userinit, out] at made
        · simp only [userinit, out, Option.some.injEq] at made
          have same : k' = { s.kernel.setProc np (firstProcess s.kernel.nextpid mem rootInode) with
              initproc := some np
              nextpid := wrapInt (s.kernel.nextpid + 1) } := by
            rw [← made]
            simp [Kernel.setProc, allocated, firstProcess]
          rw [same]
          exact .booted mem rootInode np first
      · cases run
  | dispatch p =>
      simp only [WaitState.step] at run
      split at run
      · rename_i ready
        obtain rfl := Option.some.inj run
        refine .shifted _ (fun q no => by cases no) p _ ⟨rfl, rfl, rfl, ?_, ?_⟩
        · exact Or.inr (Or.inr (Or.inl ⟨ready, rfl⟩))
        · intro no
          cases no
      · cases run
  | sleep p chan =>
      simp only [WaitState.step] at run
      split at run
      · rename_i able
        obtain ⟨running, place, foreign⟩ := able
        obtain rfl := Option.some.inj run
        refine .shifted _ (fun q no => by cases no) p _ ⟨rfl, rfl, rfl, ?_, ?_⟩
        · exact Or.inr (Or.inr (Or.inr ⟨running, rfl, place⟩))
        · intro _ same
          obtain rfl := Option.some.inj same
          cases foreign
      · cases run
  | wake q =>
      simp only [WaitState.step] at run
      split at run
      · rename_i asleep
        obtain rfl := Option.some.inj run
        refine .shifted _ (fun q no => by cases no) q _ ⟨rfl, rfl, rfl, ?_, ?_⟩
        · exact Or.inr (Or.inl ⟨asleep, rfl⟩)
        · intro no
          cases no
      · cases run
  | kkill p pid q =>
      simp only [WaitState.step] at run
      split at run
      · obtain rfl := Option.some.inj run
        refine .shifted _ (fun q no => by cases no) q _ ⟨rfl, rfl, rfl, ?_, ?_⟩
        · by_cases asleep : (s.kernel.proc q).state = .sleeping
          · exact Or.inr (Or.inl ⟨asleep, by simp [asleep]⟩)
          · exact Or.inl (by simp [asleep])
        · intro still
          by_cases asleep : (s.kernel.proc q).state = .sleeping
          · simp [asleep] at still
          · simp [asleep] at still
      · cases run
  | fork p np mem =>
      simp only [WaitState.step] at run
      split at run
      · rename_i able
        obtain ⟨running, place, free⟩ := able
        split at run
        · obtain rfl := Option.some.inj run
          exact .forked p np mem running place free
        · obtain rfl := Option.some.inj run
          exact .forkFailed p np mem free
      · cases run
  | kexit p status =>
      simp only [WaitState.step] at run
      split at run
      · rename_i able
        obtain ⟨running, place, unlocked, -⟩ := able
        obtain rfl := Option.some.inj run
        exact .exitBegun p status running place unlocked
      · cases run
  | kwait p addr =>
      simp only [WaitState.step] at run
      split at run
      · rename_i able
        obtain ⟨running, place, unlocked⟩ := able
        obtain rfl := Option.some.inj run
        exact .locked _ p addr running (Or.inl ⟨place, rfl⟩) unlocked
      · cases run
  | go p =>
      simp only [WaitState.step] at run
      split at run
      · rename_i running
        exact advance_effect running run
      · cases run

end Inversion

section Lives
variable {s s' : WaitState} {e : WaitEvent}

theorem wakeSlot_proc (me : Slot) (chan : Option Chan) (q r : Slot) (k : Kernel) :
    (wakeSlot me chan q k).proc r = k.proc r ∨
      (r = q ∧ (k.proc r).state = .sleeping ∧
        (wakeSlot me chan q k).proc r = { k.proc r with state := .runnable }) := by
  unfold wakeSlot
  split
  · rename_i hit
    by_cases same : r = q
    · subst same
      exact Or.inr ⟨rfl, hit.2.1, by simp⟩
    · exact Or.inl (by simp [same])
  · exact Or.inl rfl

theorem forkSlot_proc (p np r : Slot) (m : ForkMem) (k : Kernel) :
    ((forkSlot p np m k).proc r).state = (if r = np then .used else (k.proc r).state) ∧
      ((forkSlot p np m k).proc r).parent = (k.proc r).parent ∧
      ((forkSlot p np m k).proc r).chan = (k.proc r).chan := by
  simp only [forkSlot, Kernel.setProc_proc]
  split
  · rename_i same
    subst same
    exact ⟨rfl, rfl, rfl⟩
  · exact ⟨rfl, rfl, rfl⟩

theorem forkSlot_other (p np r : Slot) (m : ForkMem) (k : Kernel) (differ : r ≠ np) :
    (forkSlot p np m k).proc r = k.proc r := by
  simp only [forkSlot, Kernel.setProc_other _ _ _ _ differ]

theorem forkSlot_initproc (p np : Slot) (m : ForkMem) (k : Kernel) :
    (forkSlot p np m k).initproc = k.initproc := rfl

theorem wakeSlot_initproc (me : Slot) (chan : Option Chan) (q : Slot) (k : Kernel) :
    (wakeSlot me chan q k).initproc = k.initproc := by
  unfold wakeSlot
  split <;> rfl

theorem goto_pc (s : WaitState) (p q : Slot) (pc : WaitPc) :
    (s.goto p pc).pc q = if q = p then pc else s.pc q := by
  simp only [WaitState.goto, Function.update_apply]

theorem Moves.not_fills {k : Kernel} {p : Slot} {pc pc' : WaitPc} (moves : Moves k p pc pc')
    (np : Slot) : ¬ Fills pc' np := by
  intro fill
  cases moves <;> rcases fill with no | no <;> cases no

theorem Moves.inside {k : Kernel} {p : Slot} {pc pc' : WaitPc} (moves : Moves k p pc pc') :
    pc ≠ .outside ∧ ∀ addr, pc ≠ .asleep addr := by
  cases moves <;> simp

theorem Lives.busy_effect (lives : Lives s) (effect : WaitEffect s e s') :
    ∀ p, s'.pc p ≠ .outside → (s'.kernel.proc p).state = .running ∨
      ((∃ addr, s'.pc p = .asleep addr) ∧
        ((s'.kernel.proc p).state = .sleeping ∨ (s'.kernel.proc p).state = .runnable)) := by
  obtain ⟨busy, fills, used, clean, first⟩ := lives
  cases effect with
  | booted mem rootInode np none =>
      have idle := first none
      grind [Kernel.setProc_proc, firstProcess, Fills]
  | shifted e quiet q f shift =>
      obtain ⟨parent, pid, xstate, state, naps⟩ := shift
      grind [Kernel.setProc_proc, Fills, Kernel.setProc_initproc]
  | forkFailed p np mem free =>
      grind [Kernel.setProc_proc, Fills, freeproc, Kernel.setProc_initproc]
  | forked p np mem running place free =>
      grind [forkSlot_proc, Fills, forkSlot_initproc, goto_pc, WaitState.goto]
  | linked p np running place unlocked =>
      grind [Kernel.setProc_proc, Fills, Kernel.setProc_initproc, goto_pc, WaitState.goto]
  | readied p np running place =>
      grind [Kernel.setProc_proc, Fills, Kernel.setProc_initproc, goto_pc, WaitState.goto]
  | exitBegun p status running place unlocked =>
      grind [Kernel.setProc_proc, Fills, Kernel.setProc_initproc, goto_pc, WaitState.goto, closeFiles]
  | moved p pc running moves =>
      have plain : ∀ np, ¬ Fills pc np := fun np => moves.not_fills np
      have inside := moves.inside
      grind [goto_pc, WaitState.goto]
  | handedOver p status pp running place child =>
      grind [Kernel.setProc_proc, Fills, Kernel.setProc_initproc, goto_pc, WaitState.goto]
  | wokeInit p status i q running place =>
      grind [wakeSlot_proc, Fills, wakeSlot_initproc, goto_pc, WaitState.goto]
  | wokeParent p status chan q running place =>
      grind [wakeSlot_proc, Fills, wakeSlot_initproc, goto_pc, WaitState.goto]
  | exited p status running place =>
      grind [Kernel.setProc_proc, Fills, Kernel.setProc_initproc, goto_pc, WaitState.goto]
  | locked e p addr running place unlocked =>
      grind [Fills, goto_pc, WaitState.goto]
  | gaveUp p addr i havekids running place =>
      grind [Fills, goto_pc, WaitState.goto]
  | reaped p addr pp havekids running place child gone =>
      grind [Kernel.setProc_proc, freeproc, Fills, Kernel.setProc_initproc, goto_pc, WaitState.goto]
  | slept p addr running place =>
      grind [Kernel.setProc_proc, Process.sleep, Fills, Kernel.setProc_initproc, goto_pc,
        WaitState.goto]

theorem Lives.fills_effect (lives : Lives s) (effect : WaitEffect s e s') :
    ∀ p q np, Fills (s'.pc p) np → Fills (s'.pc q) np → p = q := by
  obtain ⟨busy, fills, used, clean, first⟩ := lives
  cases effect with
  | booted mem rootInode np none =>
      have idle := first none
      grind [Kernel.setProc_proc, firstProcess, Fills]
  | shifted e quiet q f shift =>
      obtain ⟨parent, pid, xstate, state, naps⟩ := shift
      grind [Kernel.setProc_proc, Fills, Kernel.setProc_initproc]
  | forkFailed p np mem free =>
      grind [Kernel.setProc_proc, Fills, freeproc, Kernel.setProc_initproc]
  | forked p np mem running place free =>
      grind [forkSlot_proc, Fills, forkSlot_initproc, goto_pc, WaitState.goto]
  | linked p np running place unlocked =>
      grind [Kernel.setProc_proc, Fills, Kernel.setProc_initproc, goto_pc, WaitState.goto]
  | readied p np running place =>
      grind [Kernel.setProc_proc, Fills, Kernel.setProc_initproc, goto_pc, WaitState.goto]
  | exitBegun p status running place unlocked =>
      grind [Kernel.setProc_proc, Fills, Kernel.setProc_initproc, goto_pc, WaitState.goto, closeFiles]
  | moved p pc running moves =>
      have plain : ∀ np, ¬ Fills pc np := fun np => moves.not_fills np
      have inside := moves.inside
      grind [goto_pc, WaitState.goto]
  | handedOver p status pp running place child =>
      grind [Kernel.setProc_proc, Fills, Kernel.setProc_initproc, goto_pc, WaitState.goto]
  | wokeInit p status i q running place =>
      grind [wakeSlot_proc, Fills, wakeSlot_initproc, goto_pc, WaitState.goto]
  | wokeParent p status chan q running place =>
      grind [wakeSlot_proc, Fills, wakeSlot_initproc, goto_pc, WaitState.goto]
  | exited p status running place =>
      grind [Kernel.setProc_proc, Fills, Kernel.setProc_initproc, goto_pc, WaitState.goto]
  | locked e p addr running place unlocked =>
      grind [Fills, goto_pc, WaitState.goto]
  | gaveUp p addr i havekids running place =>
      grind [Fills, goto_pc, WaitState.goto]
  | reaped p addr pp havekids running place child gone =>
      grind [Kernel.setProc_proc, freeproc, Fills, Kernel.setProc_initproc, goto_pc, WaitState.goto]
  | slept p addr running place =>
      grind [Kernel.setProc_proc, Process.sleep, Fills, Kernel.setProc_initproc, goto_pc,
        WaitState.goto]

theorem Lives.used_effect (lives : Lives s) (effect : WaitEffect s e s') :
    ∀ p np, Fills (s'.pc p) np → (s'.kernel.proc np).state = .used := by
  obtain ⟨busy, fills, used, clean, first⟩ := lives
  cases effect with
  | booted mem rootInode np none =>
      have idle := first none
      grind [Kernel.setProc_proc, firstProcess, Fills]
  | shifted e quiet q f shift =>
      obtain ⟨parent, pid, xstate, state, naps⟩ := shift
      grind [Kernel.setProc_proc, Fills, Kernel.setProc_initproc]
  | forkFailed p np mem free =>
      grind [Kernel.setProc_proc, Fills, freeproc, Kernel.setProc_initproc]
  | forked p np mem running place free =>
      grind [forkSlot_proc, Fills, forkSlot_initproc, goto_pc, WaitState.goto]
  | linked p np running place unlocked =>
      grind [Kernel.setProc_proc, Fills, Kernel.setProc_initproc, goto_pc, WaitState.goto]
  | readied p np running place =>
      grind [Kernel.setProc_proc, Fills, Kernel.setProc_initproc, goto_pc, WaitState.goto]
  | exitBegun p status running place unlocked =>
      grind [Kernel.setProc_proc, Fills, Kernel.setProc_initproc, goto_pc, WaitState.goto, closeFiles]
  | moved p pc running moves =>
      have plain : ∀ np, ¬ Fills pc np := fun np => moves.not_fills np
      have inside := moves.inside
      grind [goto_pc, WaitState.goto]
  | handedOver p status pp running place child =>
      grind [Kernel.setProc_proc, Fills, Kernel.setProc_initproc, goto_pc, WaitState.goto]
  | wokeInit p status i q running place =>
      grind [wakeSlot_proc, Fills, wakeSlot_initproc, goto_pc, WaitState.goto]
  | wokeParent p status chan q running place =>
      grind [wakeSlot_proc, Fills, wakeSlot_initproc, goto_pc, WaitState.goto]
  | exited p status running place =>
      grind [Kernel.setProc_proc, Fills, Kernel.setProc_initproc, goto_pc, WaitState.goto]
  | locked e p addr running place unlocked =>
      grind [Fills, goto_pc, WaitState.goto]
  | gaveUp p addr i havekids running place =>
      grind [Fills, goto_pc, WaitState.goto]
  | reaped p addr pp havekids running place child gone =>
      grind [Kernel.setProc_proc, freeproc, Fills, Kernel.setProc_initproc, goto_pc, WaitState.goto]
  | slept p addr running place =>
      grind [Kernel.setProc_proc, Process.sleep, Fills, Kernel.setProc_initproc, goto_pc,
        WaitState.goto]

theorem Lives.clean_effect (lives : Lives s) (effect : WaitEffect s e s') :
    ∀ p, (s'.kernel.proc p).state = .unused → (s'.kernel.proc p).parent = none := by
  obtain ⟨busy, fills, used, clean, first⟩ := lives
  cases effect with
  | booted mem rootInode np none =>
      have idle := first none
      grind [Kernel.setProc_proc, firstProcess, Fills]
  | shifted e quiet q f shift =>
      obtain ⟨parent, pid, xstate, state, naps⟩ := shift
      grind [Kernel.setProc_proc, Fills, Kernel.setProc_initproc]
  | forkFailed p np mem free =>
      grind [Kernel.setProc_proc, Fills, freeproc, Kernel.setProc_initproc]
  | forked p np mem running place free =>
      grind [forkSlot_proc, Fills, forkSlot_initproc, goto_pc, WaitState.goto]
  | linked p np running place unlocked =>
      grind [Kernel.setProc_proc, Fills, Kernel.setProc_initproc, goto_pc, WaitState.goto]
  | readied p np running place =>
      grind [Kernel.setProc_proc, Fills, Kernel.setProc_initproc, goto_pc, WaitState.goto]
  | exitBegun p status running place unlocked =>
      grind [Kernel.setProc_proc, Fills, Kernel.setProc_initproc, goto_pc, WaitState.goto, closeFiles]
  | moved p pc running moves =>
      have plain : ∀ np, ¬ Fills pc np := fun np => moves.not_fills np
      have inside := moves.inside
      grind [goto_pc, WaitState.goto]
  | handedOver p status pp running place child =>
      grind [Kernel.setProc_proc, Fills, Kernel.setProc_initproc, goto_pc, WaitState.goto]
  | wokeInit p status i q running place =>
      grind [wakeSlot_proc, Fills, wakeSlot_initproc, goto_pc, WaitState.goto]
  | wokeParent p status chan q running place =>
      grind [wakeSlot_proc, Fills, wakeSlot_initproc, goto_pc, WaitState.goto]
  | exited p status running place =>
      grind [Kernel.setProc_proc, Fills, Kernel.setProc_initproc, goto_pc, WaitState.goto]
  | locked e p addr running place unlocked =>
      grind [Fills, goto_pc, WaitState.goto]
  | gaveUp p addr i havekids running place =>
      grind [Fills, goto_pc, WaitState.goto]
  | reaped p addr pp havekids running place child gone =>
      grind [Kernel.setProc_proc, freeproc, Fills, Kernel.setProc_initproc, goto_pc, WaitState.goto]
  | slept p addr running place =>
      grind [Kernel.setProc_proc, Process.sleep, Fills, Kernel.setProc_initproc, goto_pc,
        WaitState.goto]

theorem Lives.first_effect (lives : Lives s) (effect : WaitEffect s e s') :
    s'.kernel.initproc = none → ∀ p, (s'.kernel.proc p).state = .unused := by
  obtain ⟨busy, fills, used, clean, first⟩ := lives
  cases effect with
  | booted mem rootInode np none =>
      have idle := first none
      grind [Kernel.setProc_proc, firstProcess, Fills]
  | shifted e quiet q f shift =>
      obtain ⟨parent, pid, xstate, state, naps⟩ := shift
      grind [Kernel.setProc_proc, Fills, Kernel.setProc_initproc]
  | forkFailed p np mem free =>
      grind [Kernel.setProc_proc, Fills, freeproc, Kernel.setProc_initproc]
  | forked p np mem running place free =>
      grind [forkSlot_proc, Fills, forkSlot_initproc, goto_pc, WaitState.goto]
  | linked p np running place unlocked =>
      grind [Kernel.setProc_proc, Fills, Kernel.setProc_initproc, goto_pc, WaitState.goto]
  | readied p np running place =>
      grind [Kernel.setProc_proc, Fills, Kernel.setProc_initproc, goto_pc, WaitState.goto]
  | exitBegun p status running place unlocked =>
      grind [Kernel.setProc_proc, Fills, Kernel.setProc_initproc, goto_pc, WaitState.goto, closeFiles]
  | moved p pc running moves =>
      have plain : ∀ np, ¬ Fills pc np := fun np => moves.not_fills np
      have inside := moves.inside
      grind [goto_pc, WaitState.goto]
  | handedOver p status pp running place child =>
      grind [Kernel.setProc_proc, Fills, Kernel.setProc_initproc, goto_pc, WaitState.goto]
  | wokeInit p status i q running place =>
      grind [wakeSlot_proc, Fills, wakeSlot_initproc, goto_pc, WaitState.goto]
  | wokeParent p status chan q running place =>
      grind [wakeSlot_proc, Fills, wakeSlot_initproc, goto_pc, WaitState.goto]
  | exited p status running place =>
      grind [Kernel.setProc_proc, Fills, Kernel.setProc_initproc, goto_pc, WaitState.goto]
  | locked e p addr running place unlocked =>
      grind [Fills, goto_pc, WaitState.goto]
  | gaveUp p addr i havekids running place =>
      grind [Fills, goto_pc, WaitState.goto]
  | reaped p addr pp havekids running place child gone =>
      grind [Kernel.setProc_proc, freeproc, Fills, Kernel.setProc_initproc, goto_pc, WaitState.goto]
  | slept p addr running place =>
      grind [Kernel.setProc_proc, Process.sleep, Fills, Kernel.setProc_initproc, goto_pc,
        WaitState.goto]

theorem lives_effect (lives : Lives s) (effect : WaitEffect s e s') : Lives s' :=
  ⟨lives.busy_effect effect, lives.fills_effect effect, lives.used_effect effect,
    lives.clean_effect effect, lives.first_effect effect⟩

end Lives

section Invariant
variable {s s' : WaitState} {e : WaitEvent} {k k' : Kernel} {p q : Slot}

theorem mild_setProc {f : Proc → Proc} (parent : (f (k.proc q)).parent = (k.proc q).parent)
    (zombie : (f (k.proc q)).state = .zombie ↔ (k.proc q).state = .zombie)
    (naps : (f (k.proc q)).state = .sleeping → (f (k.proc q)).chan = some (.proc q) → Naps k q) :
    Mild k (k.setProc q f) := by
  refine ⟨?_, ?_, ?_⟩ <;> intro r <;> by_cases same : r = q
  · subst same
    simpa using parent
  · simp [same]
  · subst same
    simpa using zombie
  · simp [same]
  · subst same
    simpa [Naps] using naps
  · simp [same, Naps]

theorem Shift.mild {x : Proc → Proc} (shift : Shift s q (x (s.kernel.proc q))) :
    Mild s.kernel (s.kernel.setProc q x) := by
  refine mild_setProc shift.parent ?_ shift.naps
  rcases shift.state with same | ⟨before, after⟩ | ⟨before, after⟩ | ⟨before, after, -⟩
  · rw [same]
  · simp [before, after]
  · simp [before, after]
  · simp [before, after]

theorem wakeSlot_mild (me : Slot) (chan : Option Chan) (q : Slot) (k : Kernel) :
    Mild k (wakeSlot me chan q k) := by
  unfold wakeSlot
  split
  · rename_i hit
    refine mild_setProc rfl ?_ ?_
    · simp [hit.2.1]
    · intro no
      cases no
  · exact Mild.refl k

theorem wakeSlot_woken (me : Slot) (q : Slot) (k : Kernel) (running : (k.proc me).state = .running) :
    ¬ Naps (wakeSlot me (some (.proc q)) q k) q := by
  rintro ⟨asleep, chan⟩
  unfold wakeSlot at asleep chan
  split at asleep
  · simp at asleep
  · rename_i miss
    rw [if_neg miss] at chan
    apply miss
    refine ⟨?_, asleep, chan⟩
    rintro rfl
    rw [running] at asleep
    cases asleep

/-- With the lock free, or held elsewhere than in `reparent`, no exit is missed. -/
theorem WaitInv.caught (inv : WaitInv s)
    (holder : ∀ h, s.waitLock = some h → ∀ status i j, s.pc h ≠ .wakeInit status i j)
    {P c : Slot} (naps : Naps s.kernel P) : ¬ Gone s.kernel c P := by
  intro gone
  obtain ⟨h, status, i, j, held, place, -⟩ := inv.missed P c naps gone
  exact holder h held status i j place

theorem WaitInv.caughtBy (inv : WaitInv s) (held : s.waitLock = some p)
    (elsewhere : ∀ status i j, s.pc p ≠ .wakeInit status i j) {P c : Slot}
    (naps : Naps s.kernel P) : ¬ Gone s.kernel c P := by
  refine inv.caught ?_ naps
  intro h other
  rw [held] at other
  obtain rfl := Option.some.inj other
  exact elsewhere

theorem not_held {lock : Option Slot} (held : lock = some p) (q : Slot) (differ : q ≠ p) :
    lock ≠ some q := by
  rw [held]
  exact fun same => differ (Option.some.inj same).symm

theorem WaitInv.mild (inv : WaitInv s) (p : Slot) (lives : Lives s') (mild : Mild s.kernel s'.kernel)
    (init : s.kernel.initproc ≠ none → s'.kernel.initproc = s.kernel.initproc)
    (pcs : ∀ q, q ≠ p → s'.pc q = s.pc q)
    (locks : ∀ q, q ≠ p → (s'.waitLock = some q ↔ s.waitLock = some q))
    (own : (s'.pc p).Ok s'.kernel s'.waitLock p)
    (waking : ∀ status i j, s.pc p = .wakeInit status i j → ∀ P c, s.kernel.initproc = some P →
      j ≤ P.val → Naps s'.kernel P → Gone s.kernel c P →
      ∃ j', s'.waitLock = some p ∧ s'.pc p = .wakeInit status i j' ∧ j' ≤ P.val) : WaitInv s' := by
  refine ⟨lives, ?_, ?_⟩
  · intro q
    by_cases same : q = p
    · subst same
      exact own
    · rw [pcs q same]
      exact (inv.places q).mild mild (locks q same)
  · intro P c naps gone
    have before : Gone s.kernel c P := ⟨(mild.parent c).symm.trans gone.1, (mild.zombie c).mp gone.2⟩
    obtain ⟨h, status, i, j, held, place, isInit, below⟩ := inv.missed P c (mild.naps P naps) before
    have still : s'.kernel.initproc = some P := by
      rw [init (by simp [isInit])]
      exact isInit
    by_cases same : h = p
    · subst same
      obtain ⟨j', held', place', below'⟩ := waking status i j place P c isInit below naps before
      exact ⟨h, status, i, j', held', place', still, below'⟩
    · exact ⟨h, status, i, j, (locks h same).mpr held, (pcs h same).trans place, still, below⟩

/-- A step of the holder of the lock, or of a process that takes it for one section. -/
theorem WaitInv.holder (inv : WaitInv s) (p : Slot) (lives : Lives s')
    (free : ∀ q, q ≠ p → s.waitLock ≠ some q) (free' : ∀ q, q ≠ p → s'.waitLock ≠ some q)
    (pcs : ∀ q, q ≠ p → s'.pc q = s.pc q) (own : (s'.pc p).Ok s'.kernel s'.waitLock p)
    (missed : ∀ P c, Naps s'.kernel P → Gone s'.kernel c P →
      ∃ h status i j, s'.waitLock = some h ∧ s'.pc h = .wakeInit status i j ∧
        s'.kernel.initproc = some P ∧ j ≤ P.val) : WaitInv s' := by
  refine ⟨lives, ?_, missed⟩
  intro q
  by_cases same : q = p
  · subst same
    exact own
  · rw [pcs q same]
    exact (inv.places q).unheld (free q same) (free' q same)

theorem WaitInv.quiet (inv : WaitInv s) (lives : Lives s') (mild : Mild s.kernel s'.kernel)
    (init : s.kernel.initproc ≠ none → s'.kernel.initproc = s.kernel.initproc)
    (pc : s'.pc = s.pc) (lock : s'.waitLock = s.waitLock) : WaitInv s' := by
  refine ⟨lives, ?_, ?_⟩
  · intro q
    rw [pc]
    exact (inv.places q).mild mild (by rw [lock])
  · intro P c naps gone
    have before : Gone s.kernel c P := ⟨(mild.parent c).symm.trans gone.1, (mild.zombie c).mp gone.2⟩
    obtain ⟨h, status, i, j, held, place, isInit, below⟩ := inv.missed P c (mild.naps P naps) before
    refine ⟨h, status, i, j, lock.trans held, ?_, ?_, below⟩
    · rw [pc]
      exact place
    · rw [init (by simp [isInit])]
      exact isInit

theorem goto_self (s : WaitState) (p : Slot) (pc : WaitPc) : (s.goto p pc).pc p = pc := by
  simp [goto_pc]

theorem goto_other (s : WaitState) {p q : Slot} (pc : WaitPc) (differ : q ≠ p) :
    (s.goto p pc).pc q = s.pc q := by
  simp [goto_pc, differ]

theorem Moves.ok {pc pc' : WaitPc} {lock : Option Slot} (moves : Moves k p pc pc')
    (ok : pc.Ok k lock p) : pc'.Ok k lock p := by
  cases moves with
  | otherChild => exact ok
  | reparented => exact ⟨ok, rfl, fun P _ below => absurd below (Nat.not_lt_zero _)⟩
  | initWoken => exact ok
  | parentWoken status chan j last =>
      exact ⟨ok.1, fun P isParent => ok.2.2 P isParent (Nat.lt_of_lt_of_le P.isLt last)⟩
  | child addr pp havekids child alive =>
      refine ⟨ok.1, ?_⟩
      intro c below isChild
      by_cases same : c = pp
      · subst same
        exact ⟨alive, rfl⟩
      · have less : c.val < pp.val := by
          have differ : c.val ≠ pp.val := fun eq => same (Fin.ext eq)
          omega
        exact ⟨(ok.2 c less isChild).1, rfl⟩
  | noChild addr pp havekids other =>
      refine ⟨ok.1, ?_⟩
      intro c below isChild
      have differ : c.val ≠ pp.val := by
        intro eq
        obtain rfl := Fin.ext eq
        exact other isChild
      exact ok.2 c (by omega) isChild
  | scanned addr i last =>
      exact ⟨ok.1, fun c isChild => (ok.2 c (Nat.lt_of_lt_of_le c.isLt last) isChild).1⟩

theorem inv_effect (inv : WaitInv s) (effect : WaitEffect s e s') : WaitInv s' := by
  have lives := lives_effect inv.lives effect
  cases effect with
  | booted mem rootInode np first =>
      have idle := inv.lives.first first np
      have mild : Mild s.kernel
          (s.kernel.setProc np (firstProcess s.kernel.nextpid mem rootInode)) := by
        refine mild_setProc rfl ?_ ?_
        · simp [firstProcess, idle]
        · intro no
          cases no
      exact inv.quiet lives ⟨mild.parent, mild.zombie, mild.naps⟩ (fun no => absurd first no) rfl rfl
  | shifted e quiet q f shift => exact inv.quiet lives shift.mild (fun _ => rfl) rfl rfl
  | forkFailed p np mem free =>
      have mild : Mild s.kernel (freeproc np s.kernel) := by
        refine mild_setProc ?_ ?_ ?_
        · exact (inv.lives.clean np free).symm
        · simp [free]
        · intro no
          cases no
      exact inv.quiet lives ⟨mild.parent, mild.zombie, mild.naps⟩ (fun _ => rfl) rfl rfl
  | forked p np mem running place free =>
      have ok := inv.places p
      rw [place] at ok
      refine inv.mild p lives ?_ (fun _ => rfl) (fun q differ => goto_other s _ differ)
        (fun _ _ => Iff.rfl) ?_ ?_
      · refine ⟨fun r => (forkSlot_proc p np r mem s.kernel).2.1, fun r => ?_, fun r naps => ?_⟩
        · rw [(forkSlot_proc p np r mem s.kernel).1]
          split
          · rename_i same
            simp [same, free]
          · rfl
        · obtain ⟨state, -, chan⟩ := forkSlot_proc p np r mem s.kernel
          rw [Naps, state, chan] at naps
          split at naps
          · cases naps.1
          · exact naps
      · rw [goto_self]
        exact ok
      · intro status i j no
        rw [place] at no
        cases no
  | linked p np running place unlocked =>
      have used := inv.lives.used p np (Or.inl place)
      refine inv.holder p lives ?_ ?_ (fun q differ => goto_other s _ differ) ?_ ?_
      · intro q _
        simp [unlocked]
      · intro q _
        simp [WaitState.goto, unlocked]
      · rw [goto_self]
        simp [WaitPc.Ok, WaitState.goto, unlocked]
      · intro P c naps gone
        exfalso
        have still : (s.kernel.proc c).state = .zombie := by
          have state := gone.2
          rw [Kernel.setProc_proc] at state
          split at state
          · rename_i same
            rw [same]
            exact state
          · exact state
        have differ : c ≠ np := by
          rintro rfl
          rw [used] at still
          cases still
        have parent := gone.1
        rw [Kernel.setProc_other _ _ _ _ differ] at parent
        have before : Naps s.kernel P := by
          rw [Naps, Kernel.setProc_proc] at naps
          split at naps
          · rename_i same
            rw [Naps, same]
            rw [same] at naps
            exact naps
          · exact naps
        refine inv.caught ?_ before ⟨parent, still⟩
        intro h held
        rw [unlocked] at held
        cases held
  | readied p np running place =>
      have used := inv.lives.used p np (Or.inr place)
      have ok := inv.places p
      rw [place] at ok
      refine inv.mild p lives ?_ (fun _ => rfl) (fun q differ => goto_other s _ differ)
        (fun _ _ => Iff.rfl) ?_ ?_
      · refine mild_setProc (f := fun q => { q with state := .runnable }) rfl ?_ ?_
        · simp [used]
        · intro no
          cases no
      · rw [goto_self]
        exact ok
      · intro status i j no
        rw [place] at no
        cases no
  | exitBegun p status running place unlocked =>
      refine inv.mild p lives ?_ (fun _ => rfl) (fun q differ => goto_other s _ differ) ?_ ?_ ?_
      · exact mild_setProc (f := closeFiles) rfl Iff.rfl fun asleep chan => ⟨asleep, chan⟩
      · intro q differ
        simp [unlocked, Ne.symm differ]
      · rw [goto_self]
        rfl
      · intro status i j no
        rw [place] at no
        cases no
  | moved p pc running moves =>
      refine inv.mild p lives (Mild.refl _) (fun _ => rfl) (fun q differ => goto_other s _ differ)
        (fun _ _ => Iff.rfl) ?_ ?_
      · rw [goto_self]
        exact moves.ok (inv.places p)
      · intro status i j place P c isInit below naps gone
        rw [place] at moves
        cases moves with
        | initWoken status i j last => omega
  | handedOver p status pp running place child =>
      have held := inv.places p
      rw [place] at held
      refine inv.holder p lives ?_ ?_ (fun q differ => goto_other s _ differ) ?_ ?_
      · exact not_held held
      · exact not_held held
      · rw [goto_self]
        exact held
      · intro P c naps gone
        have before : Naps s.kernel P := by
          rw [Naps, Kernel.setProc_proc] at naps
          split at naps
          · rename_i same
            rw [Naps, same]
            rw [same] at naps
            exact naps
          · exact naps
        by_cases same : c = pp
        · subst same
          have parent := gone.1
          rw [Kernel.setProc_same] at parent
          exact ⟨p, status, c, 0, held, goto_self s p _, parent, Nat.zero_le _⟩
        · exfalso
          rw [Gone, Kernel.setProc_other _ _ _ _ same] at gone
          refine inv.caughtBy held ?_ before gone
          rw [place]
          intro _ _ _ no
          cases no
  | wokeInit p status i q running place =>
      have held := inv.places p
      rw [place] at held
      refine inv.mild p lives (wakeSlot_mild _ _ _ _) (fun _ => wakeSlot_initproc _ _ _ _)
        (fun r differ => goto_other s _ differ) (fun _ _ => Iff.rfl) ?_ ?_
      · rw [goto_self]
        exact held
      · intro status' i' j at_ P c isInit below naps gone
        rw [place] at at_
        cases at_
        refine ⟨q + 1, held, goto_self s p _, ?_⟩
        have differ : P ≠ q := by
          rintro rfl
          rw [isInit] at naps
          exact wakeSlot_woken p P s.kernel running naps
        have apart : P.val ≠ q.val := fun same => differ (Fin.ext same)
        omega
  | wokeParent p status chan q running place =>
      have ok := inv.places p
      rw [place] at ok
      obtain ⟨held, eq, woken⟩ := ok
      have mild := wakeSlot_mild p chan q s.kernel
      refine inv.mild p lives mild (fun _ => wakeSlot_initproc _ _ _ _)
        (fun r differ => goto_other s _ differ) (fun _ _ => Iff.rfl) ?_ ?_
      · rw [goto_self]
        refine ⟨held, ?_, ?_⟩
        · rw [mild.parent]
          exact eq
        · intro P isParent below naps
          rw [mild.parent] at isParent
          by_cases same : P = q
          · subst same
            rw [eq, isParent] at naps
            exact wakeSlot_woken p P s.kernel running naps
          · have apart : P.val ≠ q.val := fun eq => same (Fin.ext eq)
            exact woken P isParent (by omega) (mild.naps P naps)
      · intro status' i' j no
        rw [place] at no
        cases no
  | exited p status running place =>
      have ok := inv.places p
      rw [place] at ok
      obtain ⟨held, woken⟩ := ok
      refine inv.holder p lives ?_ ?_ (fun q differ => goto_other s _ differ) ?_ ?_
      · exact not_held held
      · intro q _ no
        cases no
      · rw [goto_self]
        intro no
        cases no
      · intro P c naps gone
        exfalso
        have awake : P ≠ p := by
          rintro rfl
          simp [Naps] at naps
        rw [Naps, Kernel.setProc_other _ _ _ _ awake] at naps
        by_cases same : c = p
        · subst same
          have parent := gone.1
          rw [Kernel.setProc_same] at parent
          exact woken P parent naps
        · rw [Gone, Kernel.setProc_other _ _ _ _ same] at gone
          refine inv.caughtBy held ?_ naps gone
          rw [place]
          intro _ _ _ no
          cases no
  | locked e p addr running place unlocked =>
      refine inv.mild p lives (Mild.refl _) (fun _ => rfl) (fun q differ => goto_other s _ differ)
        ?_ ?_ ?_
      · intro q differ
        simp [unlocked, Ne.symm differ]
      · rw [goto_self]
        exact ⟨rfl, fun pp below => absurd below (Nat.not_lt_zero _)⟩
      · intro status i j no
        rcases place with ⟨at_, -⟩ | ⟨at_, -⟩ <;> rw [at_] at no <;> cases no
  | gaveUp p addr i havekids running place =>
      have held := (inv.places p)
      rw [place] at held
      refine inv.mild p lives (Mild.refl _) (fun _ => rfl) (fun q differ => goto_other s _ differ)
        ?_ ?_ ?_
      · intro q differ
        simp [held.1, Ne.symm differ]
      · rw [goto_self]
        intro no
        cases no
      · intro status i j no
        rw [place] at no
        cases no
  | reaped p addr pp havekids running place child gone =>
      have ok := inv.places p
      rw [place] at ok
      obtain ⟨held, -⟩ := ok
      refine inv.holder p lives ?_ ?_ (fun q differ => goto_other s _ differ) ?_ ?_
      · exact not_held held
      · intro q _ no
        cases no
      · rw [goto_self]
        intro no
        cases no
      · intro P c naps gone'
        exfalso
        have awake : P ≠ pp := by
          rintro rfl
          simp [Naps, freeproc] at naps
        have differ : c ≠ pp := by
          rintro rfl
          simp [Gone, freeproc] at gone'
        rw [Naps, freeproc, Kernel.setProc_other _ _ _ _ awake] at naps
        rw [Gone, freeproc, Kernel.setProc_other _ _ _ _ differ] at gone'
        refine inv.caughtBy held ?_ naps gone'
        rw [place]
        intro _ _ _ no
        cases no
  | slept p addr running place =>
      have ok := (inv.places p)
      rw [place] at ok
      obtain ⟨held, seen⟩ := ok
      refine inv.holder p lives ?_ ?_ (fun q differ => goto_other s _ differ) ?_ ?_
      · exact not_held held
      · intro q _ no
        cases no
      · rw [goto_self]
        intro no
        cases no
      · intro P c naps gone
        exfalso
        have differ : c ≠ p := by
          rintro rfl
          simp [Gone, Process.sleep] at gone
        rw [Gone, Process.sleep, Kernel.setProc_other _ _ _ _ differ] at gone
        by_cases same : P = p
        · subst same
          exact seen c gone.1 gone.2
        · rw [Naps, Process.sleep, Kernel.setProc_other _ _ _ _ same] at naps
          refine inv.caughtBy held ?_ naps gone
          rw [place]
          intro _ _ _ no
          cases no

end Invariant

/-! ## From `kexit` to `kwait` -/

/-- A place of `kexit(status)`. -/
def WaitPc.exits (status : Int) : WaitPc → Prop
  | .reparent st _ => st = status
  | .wakeInit st _ _ => st = status
  | .wakeParent st _ _ => st = status
  | .exiting st => st = status
  | _ => False

/-- The process of slot `c` is in `kexit(status)`, or has gone through it. -/
def InExit (s : WaitState) (c : Slot) (status pid : Int) : Prop :=
  (s.kernel.proc c).pid = pid ∧ ((s.pc c).exits status ∨
    ((s.kernel.proc c).state = .zombie ∧ (s.kernel.proc c).xstate = status))

section Exits
variable {s s' : WaitState} {e : WaitEvent} {c : Slot} {status pid : Int}

theorem Moves.exits {k : Kernel} {p : Slot} {pc pc' : WaitPc} (moves : Moves k p pc pc') :
    pc'.exits status ↔ pc.exits status := by
  cases moves <;> exact Iff.rfl

theorem exit_effect (lives : Lives s) (effect : WaitEffect s e s') (inside : InExit s' c status pid) :
    InExit s c status pid ∨ (e = .kexit c status ∧ (s.kernel.proc c).pid = pid) := by
  obtain ⟨samePid, where_⟩ := inside
  cases effect with
  | booted mem rootInode np first =>
      have idle := lives.first first
      grind [Kernel.setProc_proc, firstProcess, InExit, lives.busy, WaitPc.exits]
  | shifted e quiet q f shift =>
      obtain ⟨parent, pid, xstate, state, naps⟩ := shift
      grind [Kernel.setProc_proc, InExit]
  | forkFailed p np mem free => grind [Kernel.setProc_proc, InExit, freeproc, lives.busy, WaitPc.exits]
  | forked p np mem running place free =>
      grind [forkSlot_proc, forkSlot_other, InExit, goto_pc, lives.busy, WaitPc.exits]
  | linked p np running place unlocked =>
      grind [Kernel.setProc_proc, InExit, goto_pc, WaitPc.exits]
  | readied p np running place =>
      grind [Kernel.setProc_proc, InExit, goto_pc, WaitPc.exits]
  | exitBegun p status running place unlocked =>
      grind [Kernel.setProc_proc, InExit, goto_pc, WaitPc.exits, closeFiles]
  | moved p pc running moves =>
      have same : pc.exits status ↔ (s.pc p).exits status := moves.exits
      grind [InExit, goto_pc, WaitState.goto]
  | handedOver p status pp running place child =>
      grind [Kernel.setProc_proc, InExit, goto_pc, WaitPc.exits]
  | wokeInit p status i q running place =>
      grind [wakeSlot_proc, wakeSlot_mild, InExit, goto_pc, WaitPc.exits]
  | wokeParent p status chan q running place =>
      grind [wakeSlot_proc, wakeSlot_mild, InExit, goto_pc, WaitPc.exits]
  | exited p status running place =>
      grind [Kernel.setProc_proc, InExit, goto_pc, WaitPc.exits]
  | locked e p addr running place unlocked =>
      grind [InExit, goto_pc, WaitPc.exits, WaitState.goto]
  | gaveUp p addr i havekids running place =>
      grind [InExit, goto_pc, WaitPc.exits, WaitState.goto]
  | reaped p addr pp havekids running place child gone =>
      grind [Kernel.setProc_proc, InExit, goto_pc, WaitPc.exits, freeproc, lives.busy]
  | slept p addr running place =>
      grind [Kernel.setProc_proc, InExit, goto_pc, WaitPc.exits, Process.sleep]

end Exits

/-! ## Runs -/

section Runs
variable {r : Run WaitState.step}

theorem boot_waitInv : WaitInv WaitState.boot := by
  refine ⟨⟨?_, ?_, ?_, ?_, ?_⟩, ?_, ?_⟩
  · intro p inside
    exact absurd rfl inside
  · intro p q np fill
    rcases fill with no | no <;> cases no
  · intro p np fill
    rcases fill with no | no <;> cases no
  · intro p _
    rfl
  · intro _ p
    rfl
  · intro p no
    cases no
  · intro P c naps
    cases naps.1

theorem run_waitInv (start : r.state 0 = WaitState.boot) : ∀ i, i ≤ r.len → WaitInv (r.state i) :=
  r.invariant WaitInv (start ▸ boot_waitInv) fun _ _ _ run inv => inv_effect inv (wait_effect run)

theorem run_exit (start : r.state 0 = WaitState.boot) (c : Slot) (status pid : Int) :
    ∀ t, t ≤ r.len → InExit (r.state t) c status pid →
      ∃ b, b < t ∧ r.event b = .kexit c status ∧ ((r.state b).kernel.proc c).pid = pid ∧
        ∀ u, b < u → u ≤ t → InExit (r.state u) c status pid := by
  intro t
  induction t with
  | zero =>
      intro _ inside
      rw [start] at inside
      rcases inside.2 with no | ⟨no, -⟩
      · exact no.elim
      · cases no
  | succ t ih =>
      intro within inside
      have inv := run_waitInv start t (by omega)
      rcases exit_effect inv.lives (wait_effect (r.next t within)) inside with before | ⟨event, same⟩
      · obtain ⟨b, earlier, event, same, during⟩ := ih (by omega) before
        refine ⟨b, by omega, event, same, ?_⟩
        intro u after upto
        rcases Nat.lt_or_ge t u with last | old
        · obtain rfl : u = t + 1 := by omega
          exact inside
        · exact during u after old
      · refine ⟨t, by omega, event, same, ?_⟩
        intro u after upto
        obtain rfl : u = t + 1 := by omega
        exact inside

/-- Step `t` ends a `kwait` of `P` with this result. -/
structure Returned (r : Run WaitState.step) (t : Nat) (P : Slot) (result : WaitResult) : Prop where
  step : t < r.len
  event : r.event t = .go P
  result : (r.state t).result P = some result

/-- The call `kexit(status)` at step `b` is consumed at step `t` by a `kwait` of `P`: it is
the parent then, and `c` has not been reaped in between. -/
structure Consumed (r : Run WaitState.step) (b t : Nat) (P c : Slot) (pid status : Int) : Prop where
  exit : r.event b = .kexit c status
  samePid : ((r.state b).kernel.proc c).pid = pid
  before : b < t
  during : ∀ u, b < u → u ≤ t → InExit (r.state u) c status pid
  child : Gone (r.state t).kernel c P
  returned : Returned r t P (.reaped pid none) ∨ Returned r t P (.reaped pid (some status))
  freed : ((r.state (t + 1)).kernel.proc c).state = .unused ∧ (r.state (t + 1)).pc c = .outside

structure WaitLaw (r : Run WaitState.step) : Prop where
  caught : ∀ t, t ≤ r.len → (r.state t).waitLock = none → ∀ P c, Naps (r.state t).kernel P →
    ¬ Gone (r.state t).kernel c P
  consumed : ∀ t P pid stored, Returned r t P (.reaped pid stored) →
    ∃ b c status, Consumed r b t P c pid status ∧
      (stored = some status ∨ stored = none ∧ ∃ i kids, (r.state t).pc P = .scan .null i kids)
  once : ∀ b t t' P P' c c' pid pid' status status', Consumed r b t P c pid status →
    Consumed r b t' P' c' pid' status' → t = t' ∧ P = P'
  minusOne : ∀ t P, Returned r t P .minusOne →
    (∀ c, ((r.state t).kernel.proc c).parent ≠ some P) ∨
    ((r.state t).kernel.proc P).killed = true ∨
    (∃ c i kids, (r.state t).pc P = .scan .fails i kids ∧ Gone (r.state t).kernel c P ∧
      (r.state (t + 1)).kernel = (r.state t).kernel)

theorem Returned.advance {t : Nat} {P : Slot} {result : WaitResult} (returned : Returned r t P result) :
    (r.state t).advance P = some (r.state (t + 1)) ∧
      ((r.state t).kernel.proc P).state = .running := by
  have run := r.next t returned.step
  rw [returned.event] at run
  simp only [WaitState.step] at run
  split at run
  · rename_i running
    exact ⟨run, running⟩
  · cases run

theorem result_reaped {s : WaitState} {P : Slot} {pid : Int} {stored : Option Int}
    (result : s.result P = some (.reaped pid stored)) :
    ∃ addr c kids, s.pc P = .scan addr c.val kids ∧ Gone s.kernel c P ∧ addr ≠ .fails ∧
      (s.kernel.proc c).pid = pid ∧
      (stored = some (s.kernel.proc c).xstate ∨ stored = none ∧ addr = .null) := by
  unfold WaitState.result at result
  split at result
  · rename_i addr i kids place
    split at result
    · rename_i c found
      obtain rfl := slotAt_some found
      split at result
      · rename_i gone
        cases addr with
        | fails => cases result
        | null =>
            simp only [Option.some.injEq, WaitResult.reaped.injEq] at result
            exact ⟨.null, c, kids, place, gone, (fun no => by cases no), result.1,
              Or.inr ⟨result.2.symm, rfl⟩⟩
        | ok =>
            simp only [Option.some.injEq, WaitResult.reaped.injEq] at result
            exact ⟨.ok, c, kids, place, gone, (fun no => by cases no), result.1,
              Or.inl result.2.symm⟩
      · cases result
    · split at result <;> cases result
  · cases result

theorem advance_reaps {s s' : WaitState} {P c : Slot} {addr : Copyout} {kids : Bool}
    (place : s.pc P = .scan addr c.val kids) (gone : Gone s.kernel c P) (writable : addr ≠ .fails)
    (run : s.advance P = some s') : s'.kernel = freeproc c s.kernel ∧
      s'.pc = Function.update s.pc P .outside := by
  have found : slotAt c.val = some c := by simp [slotAt]
  simp only [WaitState.advance, place, found, gone.1, gone.2, if_true, if_neg writable] at run
  obtain rfl := Option.some.inj run
  exact ⟨rfl, rfl⟩

theorem returned_consumed (start : r.state 0 = WaitState.boot) {t : Nat} {P : Slot} {pid : Int}
    {stored : Option Int} (returned : Returned r t P (.reaped pid stored)) :
    ∃ b c status, Consumed r b t P c pid status ∧
      (stored = some status ∨ stored = none ∧ ∃ i kids, (r.state t).pc P = .scan .null i kids) := by
  obtain ⟨addr, c, kids, place, gone, writable, samePid, status⟩ := result_reaped returned.result
  obtain ⟨run, running⟩ := returned.advance
  obtain ⟨kernel, pcs⟩ := advance_reaps place gone writable run
  have within := Nat.le_of_lt returned.step
  have inv := run_waitInv start t within
  obtain ⟨b, earlier, event, samePid', during⟩ := run_exit start c
    ((r.state t).kernel.proc c).xstate pid t within ⟨samePid, Or.inr ⟨gone.2, rfl⟩⟩
  refine ⟨b, c, _, ⟨event, samePid', earlier, during, gone, ?_, ?_, ?_⟩, ?_⟩
  · rcases status with rfl | ⟨rfl, -⟩
    · exact Or.inr returned
    · exact Or.inl returned
  · rw [kernel]
    simp [freeproc]
  · have differ : c ≠ P := by
      rintro rfl
      rw [gone.2] at running
      cases running
    rw [pcs, Function.update_of_ne differ]
    by_contra inside
    rcases inv.lives.busy c inside with no | ⟨-, no | no⟩ <;> rw [gone.2] at no <;> cases no
  · rcases status with same | ⟨same, rfl⟩
    · exact Or.inl same
    · exact Or.inr ⟨same, c.val, kids, place⟩

theorem Consumed.not_later {b t t' : Nat} {P P' c : Slot} {pid pid' status status' : Int}
    (first : Consumed r b t P c pid status) (second : Consumed r b t' P' c pid' status') :
    t' ≤ t := by
  by_contra later
  have inside := second.during (t + 1) (by have := first.before; omega) (by omega)
  rcases inside.2 with no | ⟨no, -⟩
  · rw [first.freed.2] at no
    exact no
  · rw [first.freed.1] at no
    cases no

theorem consumed_once {b t t' : Nat} {P P' c c' : Slot} {pid pid' status status' : Int}
    (first : Consumed r b t P c pid status) (second : Consumed r b t' P' c' pid' status') :
    t = t' ∧ P = P' := by
  have same : c = c' := by
    have event := first.exit.symm.trans second.exit
    simp only [WaitEvent.kexit.injEq] at event
    exact event.1
  subst same
  have time : t = t' := Nat.le_antisymm (second.not_later first) (first.not_later second)
  subst time
  have event : r.event t = .go P ∧ r.event t = .go P' := by
    refine ⟨?_, ?_⟩
    · rcases first.returned with returned | returned <;> exact returned.event
    · rcases second.returned with returned | returned <;> exact returned.event
  have who := event.1.symm.trans event.2
  simp only [WaitEvent.go.injEq] at who
  exact ⟨rfl, who⟩

theorem returned_minusOne (start : r.state 0 = WaitState.boot) {t : Nat} {P : Slot}
    (returned : Returned r t P .minusOne) :
    (∀ c, ((r.state t).kernel.proc c).parent ≠ some P) ∨
    ((r.state t).kernel.proc P).killed = true ∨
    (∃ c i kids, (r.state t).pc P = .scan .fails i kids ∧ Gone (r.state t).kernel c P ∧
      (r.state (t + 1)).kernel = (r.state t).kernel) := by
  have result := returned.result
  have inv := run_waitInv start t (Nat.le_of_lt returned.step)
  have ok := inv.places P
  unfold WaitState.result at result
  split at result
  · rename_i addr i kids place
    rw [place] at ok
    split at result
    · rename_i c found
      split at result
      · rename_i gone
        cases addr with
        | null => cases result
        | ok => cases result
        | fails =>
            refine Or.inr (Or.inr ⟨c, i, kids, place, gone, ?_⟩)
            have run := returned.advance.1
            simp only [WaitState.advance, place, found, gone.1, gone.2, if_true] at run
            rw [← Option.some.inj run]
            rfl
      · cases result
    · rename_i ended
      split at result
      · rename_i alone
        rcases alone with none | killed
        · left
          intro c child
          have below : c.val < i := Nat.lt_of_lt_of_le c.isLt (slotAt_none ended)
          have kids' := (ok.2 c below child).2
          rw [none] at kids'
          cases kids'
        · exact Or.inr (Or.inl killed)
      · cases result
  · cases result

/-- Exit and wait, over every interleaving of their sections. -/
theorem exit_and_wait (r : Run WaitState.step) (start : r.state 0 = WaitState.boot) : WaitLaw r where
  caught t within unlocked P c naps := by
    refine (run_waitInv start t within).caught ?_ naps
    intro h held
    rw [unlocked] at held
    cases held
  consumed _ _ _ _ returned := returned_consumed start returned
  once _ _ _ _ _ _ _ _ _ _ _ first second := consumed_once first second
  minusOne _ _ returned := returned_minusOne start returned

/-- Init waits for its child, which exits with status 7 and is reaped. -/
def waited : List WaitEvent :=
  [.userinit ⟨some 0, some 1, true⟩ 1, .dispatch 0, .fork 0 1 ⟨some 2, some 3, true⟩, .go 0, .go 0,
    .kwait 0 .ok] ++ List.replicate (NPROC + 2) (.go 0) ++ [.dispatch 1, .kexit 1 7] ++
    List.replicate (2 * NPROC + 3) (.go 1) ++ [.dispatch 0, .go 0, .go 0, .go 0]

theorem waited_law : ∃ r : Run WaitState.step, r.state 0 = WaitState.boot ∧
    r.len = waited.length ∧ WaitLaw r := by
  have runs : (exec WaitState.step WaitState.boot waited).isSome := by decide +kernel
  have start := Run.ofEvents_zero WaitState.step WaitState.boot waited (.go 0) runs
  refine ⟨Run.ofEvents WaitState.step WaitState.boot waited (.go 0) runs, start, rfl, ?_⟩
  exact exit_and_wait _ start

end Runs

end Xv6Fcfs.Process
