import Xv6Fcfs.Lib.Scan
import Mathlib.Algebra.GroupWithZero.Nat
import Mathlib.Data.Fintype.Pi
import Xv6Fcfs.Param

/-!
# The process table of `kernel/proc.c`

The table, its entries and the functions that change them.  A `struct proc *` is
the index of its slot, and the null pointer is `none`.  Each function takes the
slot that `myproc()` would return as an argument, so that the same definitions
serve one CPU and several.

Kernel stacks, saved contexts and the spinlocks are left out: the functions here
are the sections those locks make atomic.  The page allocator appears through its
answers (`ForkMem`), which may be a failure at any call.
-/

set_option autoImplicit false

namespace Xv6Fcfs.Process

open Xv6Fcfs.Lib

abbrev Slot := Fin NPROC

instance : NeZero NPROC := ⟨by decide⟩

inductive ProcState where
  | unused
  | used
  | sleeping
  | runnable
  | running
  | zombie
  deriving DecidableEq, Repr

/-- The addresses processes sleep on. -/
inductive Chan where
  | proc (p : Slot)
  | ticks
  | diskFree
  | buf (b : Fin NBUF)
  | other (addr : Nat)
  deriving DecidableEq, Repr

structure Proc where
  state : ProcState
  chan : Option Chan
  killed : Bool
  xstate : Int
  pid : Int
  parent : Option Slot
  sz : Nat
  pagetable : Option Nat
  trapframe : Option Nat
  ofile : Fin NOFILE → Option Nat
  cwd : Option Nat
  name : String
  deriving DecidableEq

/-- A zeroed `struct proc`, as static storage starts out. -/
def Proc.zero : Proc where
  state := .unused
  chan := none
  killed := false
  xstate := 0
  pid := 0
  parent := none
  sz := 0
  pagetable := none
  trapframe := none
  ofile := fun _ => none
  cwd := none
  name := ""

@[ext] structure Kernel where
  proc : Slot → Proc
  initproc : Option Slot
  nextpid : Int
  ticks : Nat
  deriving DecidableEq

/-- The state `procinit` leaves. -/
def procinit : Kernel where
  proc := fun _ => Proc.zero
  initproc := none
  nextpid := 1
  ticks := 0

namespace Kernel

def setProc (k : Kernel) (p : Slot) (f : Proc → Proc) : Kernel :=
  { k with proc := Function.update k.proc p (f (k.proc p)) }

variable (k : Kernel) (p q : Slot) (f g : Proc → Proc)

@[simp] theorem setProc_same : (k.setProc p f).proc p = f (k.proc p) := by
  simp [setProc]

@[simp] theorem setProc_other (differ : q ≠ p) : (k.setProc p f).proc q = k.proc q := by
  simp [setProc, differ]

theorem setProc_proc : (k.setProc p f).proc q = if q = p then f (k.proc p) else k.proc q := by
  by_cases same : q = p
  · subst same; simp
  · simp [same]

@[simp] theorem setProc_initproc : (k.setProc p f).initproc = k.initproc := rfl
@[simp] theorem setProc_nextpid : (k.setProc p f).nextpid = k.nextpid := rfl
@[simp] theorem setProc_ticks : (k.setProc p f).ticks = k.ticks := rfl

end Kernel

/-- `nextpid` is a 32-bit `int`. -/
def wrapInt (x : Int) : Int := Int.bmod x (2 ^ 32)

theorem wrapInt_succ {x : Int} (low : 1 ≤ x) (high : x < 2 ^ 31) (kept : 1 ≤ wrapInt (x + 1)) :
    wrapInt (x + 1) = x + 1 := by
  unfold wrapInt at *
  rw [Int.bmod_def] at *
  omega

theorem wrapInt_lt (x : Int) : wrapInt x < 2 ^ 31 := by
  unfold wrapInt
  rw [Int.bmod_def]
  omega

def allocpid (k : Kernel) : Int × Kernel :=
  (k.nextpid, { k with nextpid := wrapInt (k.nextpid + 1) })

/-- What the page allocator answers while a process is created: the trapframe
page, the page table of `proc_pagetable`, and whether `uvmcopy` finds all the
pages it needs. -/
structure ForkMem where
  trapframe : Option Nat
  pagetable : Option Nat
  uvmcopy : Bool
  deriving DecidableEq

/-- `freeproc` leaves `ofile` and `cwd` as they are. -/
def freeproc (p : Slot) (k : Kernel) : Kernel :=
  k.setProc p fun q =>
    { q with
      trapframe := none
      pagetable := none
      sz := 0
      pid := 0
      parent := none
      name := ""
      chan := none
      killed := false
      xstate := 0
      state := .unused }

def unusedSlot (k : Kernel) : Option Slot :=
  firstIdx fun p => decide ((k.proc p).state = .unused)

def allocproc (m : ForkMem) (k : Kernel) : Option Slot × Kernel :=
  match unusedSlot k with
  | none => (none, k)
  | some p =>
      let (pid, k) := allocpid k
      let k := k.setProc p fun q => { q with pid := pid, state := .used }
      let k := k.setProc p fun q => { q with trapframe := m.trapframe }
      if m.trapframe = none then (none, freeproc p k)
      else
        let k := k.setProc p fun q => { q with pagetable := m.pagetable }
        if m.pagetable = none then (none, freeproc p k) else (some p, k)

/-- `userinit`: the first process.  `namei("/")` is the root inode, `rootInode`. -/
def userinit (m : ForkMem) (rootInode : Nat) (k : Kernel) : Option Kernel :=
  match allocproc m k with
  | (none, _) => none
  | (some p, k) =>
      let k := { k with initproc := some p }
      some (k.setProc p fun q => { q with cwd := some rootInode, state := .runnable })

/-- The part of `kfork` under the child's lock: the slot, the copy of the
parent's memory, files and directory. -/
def forkCopy (m : ForkMem) (p : Slot) (k : Kernel) : Option Slot × Kernel :=
  match allocproc m k with
  | (none, k) => (none, k)
  | (some np, k) =>
      if m.uvmcopy then
        let par := k.proc p
        (some np, k.setProc np fun q =>
          { q with
            sz := par.sz
            ofile := fun i => if par.ofile i = none then q.ofile i else par.ofile i
            cwd := par.cwd
            name := par.name })
      else (none, freeproc np k)

def kfork (m : ForkMem) (p : Slot) (k : Kernel) : Int × Kernel :=
  match forkCopy m p k with
  | (none, k) => (-1, k)
  | (some np, k) =>
      let pid := (k.proc np).pid
      let k := k.setProc np fun q => { q with parent := some p }
      (pid, k.setProc np fun q => { q with state := .runnable })

/-- `wakeup(chan)` run by `me`. -/
def wakeup (me : Option Slot) (chan : Option Chan) (k : Kernel) : Kernel :=
  { k with
    proc := fun p =>
      if some p ≠ me ∧ (k.proc p).state = .sleeping ∧ (k.proc p).chan = chan then
        { k.proc p with state := .runnable }
      else k.proc p }

/-- One iteration of the loop of `reparent`. -/
def reparentStep (p : Slot) (k : Kernel) (pp : Slot) : Kernel :=
  if (k.proc pp).parent = some p then
    wakeup (some p) (k.initproc.map .proc)
      (k.setProc pp fun q => { q with parent := k.initproc })
  else k

def reparent (p : Slot) (k : Kernel) : Kernel :=
  (List.finRange NPROC).foldl (reparentStep p) k

/-- The section of `kexit` under `wait_lock`. -/
def exitSection (status : Int) (p : Slot) (k : Kernel) : Kernel :=
  let k := reparent p k
  let k := wakeup (some p) ((k.proc p).parent.map .proc) k
  k.setProc p fun q => { q with xstate := status, state := .zombie }

/-- `kexit`; `none` is `panic("init exiting")`. -/
def kexit (status : Int) (p : Slot) (k : Kernel) : Option Kernel :=
  if some p = k.initproc then none
  else
    let k := k.setProc p fun q => { q with ofile := fun _ => none, cwd := none }
    some (exitSection status p k)

/-- `sleep(chan, lk)` up to the switch to the scheduler. -/
def sleep (chan : Chan) (p : Slot) (k : Kernel) : Kernel :=
  k.setProc p fun q => { q with chan := some chan, state := .sleeping }

def zombieChild (p : Slot) (k : Kernel) : Option Slot :=
  firstIdx fun pp => decide ((k.proc pp).parent = some p ∧ (k.proc pp).state = .zombie)

def havekids (p : Slot) (k : Kernel) : Bool :=
  decide (∃ pp, (k.proc pp).parent = some p)

/-- One turn of the loop of `kwait`; the result `none` means that the caller goes
to sleep on its own slot.  `copied` tells whether the status could be stored (it
is true when `addr` is 0). -/
def kwait (copied : Bool) (p : Slot) (k : Kernel) : Option Int × Kernel :=
  match zombieChild p k with
  | some pp =>
      if copied then (some (k.proc pp).pid, freeproc pp k) else (some (-1), k)
  | none =>
      if havekids p k = false ∨ (k.proc p).killed = true then (some (-1), k)
      else (none, sleep (.proc p) p k)

def kkill (pid : Int) (k : Kernel) : Int × Kernel :=
  match firstIdx fun p => decide ((k.proc p).pid = pid) with
  | none => (-1, k)
  | some p =>
      (0, k.setProc p fun q =>
        { q with
          killed := true
          state := if q.state = .sleeping then .runnable else q.state })

/-- One iteration of the selection loop of `scheduler`. -/
def scanStep (k : Kernel) (firstProc : Option Slot) (p : Slot) : Option Slot :=
  if (k.proc p).state = .runnable then
    match firstProc with
    | none => some p
    | some f => if (k.proc p).pid < (k.proc f).pid then some p else some f
  else firstProc

/-- `first_proc` when the selection loop ends. -/
def firstProc (k : Kernel) : Option Slot :=
  (List.finRange NPROC).foldl (scanStep k) none

/-- `sys_getppid` run by `p`. -/
def sysGetppid (p : Slot) (k : Kernel) : Int :=
  match (k.proc p).parent with
  | some q => (k.proc q).pid
  | none => 1

/-! ## What each function can do to the table -/

section Wakes

/-- `k'` is `k` with some sleeping processes made runnable. -/
structure WakesOnly (k k' : Kernel) : Prop where
  initproc : k'.initproc = k.initproc
  nextpid : k'.nextpid = k.nextpid
  proc : ∀ q, k'.proc q = k.proc q ∨
    ((k.proc q).state = .sleeping ∧ k'.proc q = { k.proc q with state := .runnable })

variable {k k' k'' : Kernel}

theorem WakesOnly.refl (k : Kernel) : WakesOnly k k := ⟨rfl, rfl, fun _ => Or.inl rfl⟩

theorem WakesOnly.trans (first : WakesOnly k k') (second : WakesOnly k' k'') :
    WakesOnly k k'' := by
  refine ⟨second.initproc.trans first.initproc, second.nextpid.trans first.nextpid, ?_⟩
  intro q
  rcases first.proc q with same | ⟨asleep, woken⟩
  · rcases second.proc q with same' | ⟨asleep', woken'⟩
    · exact Or.inl (same'.trans same)
    · rw [same] at asleep' woken'
      exact Or.inr ⟨asleep', woken'⟩
  · rcases second.proc q with same' | ⟨asleep', woken'⟩
    · exact Or.inr ⟨asleep, same'.trans woken⟩
    · simp [woken] at asleep'

theorem wakeup_wakesOnly (me : Option Slot) (chan : Option Chan) (k : Kernel) :
    WakesOnly k (wakeup me chan k) := by
  refine ⟨rfl, rfl, ?_⟩
  intro q
  by_cases hit : some q ≠ me ∧ (k.proc q).state = .sleeping ∧ (k.proc q).chan = chan
  · right
    exact ⟨hit.2.1, by simp only [wakeup, if_pos hit]⟩
  · left
    simp only [wakeup, if_neg hit]

theorem wakeup_self (p : Slot) (chan : Option Chan) (k : Kernel) :
    (wakeup (some p) chan k).proc p = k.proc p := by
  simp [wakeup]

theorem foldl_wakeup_wakesOnly (me : Option Slot) : ∀ (chans : List Chan) (k : Kernel),
    WakesOnly k (chans.foldl (fun k c => wakeup me (some c) k) k) := by
  intro chans
  induction chans with
  | nil => intro k; exact WakesOnly.refl k
  | cons c rest ih =>
      intro k
      exact (wakeup_wakesOnly me (some c) k).trans (ih _)

variable (wakes : WakesOnly k k') (q : Slot)
include wakes

theorem WakesOnly.pid : (k'.proc q).pid = (k.proc q).pid := by
  rcases wakes.proc q with same | ⟨_, woken⟩ <;> simp [*]

theorem WakesOnly.parent : (k'.proc q).parent = (k.proc q).parent := by
  rcases wakes.proc q with same | ⟨_, woken⟩ <;> simp [*]

/-- A state other than `sleeping` and `runnable` is neither entered nor left. -/
theorem WakesOnly.state_iff (s : ProcState) (notAsleep : s ≠ .sleeping)
    (notReady : s ≠ .runnable) : (k'.proc q).state = s ↔ (k.proc q).state = s := by
  rcases wakes.proc q with same | ⟨asleep, woken⟩
  · rw [same]
  · simp [asleep, woken, notAsleep.symm, notReady.symm]

theorem WakesOnly.runnable (ready : (k.proc q).state = .runnable) :
    (k'.proc q).state = .runnable := by
  rcases wakes.proc q with same | ⟨_, woken⟩ <;> simp [*]

end Wakes

section Reparent

/-- After a prefix of the loop of `reparent p`: the slots of the prefix that had
`p` as parent have `initproc`, and some sleeping processes other than `p` have
been made runnable. -/
structure Reparented (p : Slot) (done : Slot → Prop) [DecidablePred done]
    (k k' : Kernel) : Prop where
  initproc : k'.initproc = k.initproc
  nextpid : k'.nextpid = k.nextpid
  proc : ∀ q, ∃ s, k'.proc q =
      { k.proc q with
        parent := if done q ∧ (k.proc q).parent = some p then k.initproc else (k.proc q).parent
        state := s } ∧
    (s = (k.proc q).state ∨ ((k.proc q).state = .sleeping ∧ s = .runnable ∧ q ≠ p))

theorem reparentStep_reparented (p : Slot) (seen : List Slot) (k k' : Kernel) (pp : Slot)
    (fresh : pp ∉ seen) (inv : Reparented p (· ∈ seen) k k') :
    Reparented p (· ∈ seen ++ [pp]) k (reparentStep p k' pp) := by
  have parentSame : (k'.proc pp).parent = (k.proc pp).parent := by
    obtain ⟨s, shape, _⟩ := inv.proc pp
    simp [shape, fresh]
  unfold reparentStep
  by_cases child : (k'.proc pp).parent = some p
  · rw [if_pos child]
    have wakes := wakeup_wakesOnly (some p) (k'.initproc.map .proc)
      (k'.setProc pp fun q => { q with parent := k'.initproc })
    refine ⟨wakes.initproc.trans inv.initproc, wakes.nextpid.trans inv.nextpid, ?_⟩
    intro q
    obtain ⟨s, shape, moved⟩ := inv.proc q
    have before : (k'.setProc pp fun q => { q with parent := k'.initproc }).proc q =
        { k.proc q with
          parent := if q ∈ seen ++ [pp] ∧ (k.proc q).parent = some p then k.initproc
            else (k.proc q).parent
          state := s } := by
      by_cases same : q = pp
      · subst same
        rw [parentSame] at child
        simp [shape, fresh, child, inv.initproc]
      · simp [same, shape]
    by_cases self : q = p
    · subst self
      exact ⟨s, by rw [wakeup_self, before], moved⟩
    · rcases wakes.proc q with unchanged | ⟨asleep, woken⟩
      · exact ⟨s, by rw [unchanged, before], moved⟩
      · rw [before] at asleep woken
        have asleep : s = .sleeping := asleep
        refine ⟨.runnable, by rw [woken], Or.inr ⟨?_, rfl, self⟩⟩
        rcases moved with same | ⟨_, ready, _⟩
        · rw [← same, asleep]
        · simp [asleep] at ready
  · rw [if_neg child]
    refine ⟨inv.initproc, inv.nextpid, ?_⟩
    intro q
    obtain ⟨s, shape, moved⟩ := inv.proc q
    refine ⟨s, ?_, moved⟩
    rw [shape]
    by_cases same : q = pp
    · subst same
      rw [parentSame] at child
      simp [child]
    · simp [same]

theorem foldl_reparented (p : Slot) (k : Kernel) : ∀ (rest seen : List Slot) (k' : Kernel),
    (seen ++ rest).Nodup → Reparented p (· ∈ seen) k k' →
      Reparented p (· ∈ seen ++ rest) k (rest.foldl (reparentStep p) k') := by
  intro rest
  induction rest with
  | nil => intro seen k' _ inv; simpa using inv
  | cons pp rest ih =>
      intro seen k' nodup inv
      have fresh : pp ∉ seen := by
        intro member
        exact (List.nodup_append.mp nodup).2.2 pp member pp (List.mem_cons_self ..) rfl
      have grown := reparentStep_reparented p seen k k' pp fresh inv
      have := ih (seen ++ [pp]) _ (by simpa using nodup) grown
      simpa using this

theorem reparent_reparented (p : Slot) (k : Kernel) :
    Reparented p (fun _ => True) k (reparent p k) := by
  have start : Reparented p (· ∈ ([] : List Slot)) k k :=
    ⟨rfl, rfl, fun q => ⟨(k.proc q).state, by simp, Or.inl rfl⟩⟩
  have done := foldl_reparented p k (List.finRange NPROC) [] k
    (by simpa using List.nodup_finRange NPROC) start
  refine ⟨done.initproc, done.nextpid, ?_⟩
  intro q
  obtain ⟨s, shape, moved⟩ := done.proc q
  exact ⟨s, by simpa [reparent] using shape, moved⟩

end Reparent

section Exit

/-- The section of `kexit` under `wait_lock`: the caller is a zombie, its
children belong to `initproc`, some sleepers are runnable, nothing else moves. -/
structure Exited (status : Int) (p : Slot) (k k' : Kernel) : Prop where
  initproc : k'.initproc = k.initproc
  nextpid : k'.nextpid = k.nextpid
  caller : k'.proc p =
    { k.proc p with
      parent := if (k.proc p).parent = some p then k.initproc else (k.proc p).parent
      xstate := status
      state := .zombie }
  others : ∀ q, q ≠ p → ∃ s, k'.proc q =
      { k.proc q with
        parent := if (k.proc q).parent = some p then k.initproc else (k.proc q).parent
        state := s } ∧
    (s = (k.proc q).state ∨ ((k.proc q).state = .sleeping ∧ s = .runnable))

theorem exitSection_exited (status : Int) (p : Slot) (k : Kernel) :
    Exited status p k (exitSection status p k) := by
  have handed := reparent_reparented p k
  have wakes := wakeup_wakesOnly (some p) (((reparent p k).proc p).parent.map .proc)
    (reparent p k)
  refine ⟨?_, ?_, ?_, ?_⟩
  · rw [exitSection, Kernel.setProc_initproc, wakes.initproc, handed.initproc]
  · rw [exitSection, Kernel.setProc_nextpid, wakes.nextpid, handed.nextpid]
  · obtain ⟨s, shape, _⟩ := handed.proc p
    simp only [exitSection, Kernel.setProc_same, wakeup_self, shape, true_and]
  · intro q differ
    obtain ⟨s, shape, moved⟩ := handed.proc q
    simp only [exitSection, Kernel.setProc_other _ _ _ _ differ]
    rcases wakes.proc q with same | ⟨asleep, woken⟩
    · refine ⟨s, by rw [same, shape]; simp, ?_⟩
      rcases moved with same | ⟨asleep, ready, _⟩
      · exact Or.inl same
      · exact Or.inr ⟨asleep, ready⟩
    · rw [shape] at asleep woken
      have asleep : s = .sleeping := asleep
      refine ⟨.runnable, by rw [woken]; simp, Or.inr ⟨?_, rfl⟩⟩
      rcases moved with same | ⟨_, ready, _⟩
      · rw [← same, asleep]
      · simp [asleep] at ready

end Exit

section Create

/-- The slot a successful `allocproc` returns. -/
def allocated (pid : Int) (m : ForkMem) (q : Proc) : Proc :=
  { q with pid := pid, state := .used, trapframe := m.trapframe, pagetable := m.pagetable }

/-- The child a successful `kfork` leaves. -/
def forkChild (par : Proc) (parent : Slot) (pid : Int) (m : ForkMem) (q : Proc) : Proc :=
  { q with
    pid := pid
    state := .runnable
    trapframe := m.trapframe
    pagetable := m.pagetable
    sz := par.sz
    ofile := fun i => if par.ofile i = none then q.ofile i else par.ofile i
    cwd := par.cwd
    name := par.name
    parent := some parent }

variable (m : ForkMem) (k : Kernel)

theorem unusedSlot_some {k : Kernel} {p : Slot} (found : unusedSlot k = some p) :
    (k.proc p).state = .unused := by
  simpa using firstIdx_some found

theorem allocproc_cases :
    (unusedSlot k = none ∧ allocproc m k = (none, k)) ∨
    (∃ np, unusedSlot k = some np ∧
      allocproc m k = (none, { freeproc np k with nextpid := wrapInt (k.nextpid + 1) })) ∨
    (∃ np, unusedSlot k = some np ∧ m.trapframe ≠ none ∧ m.pagetable ≠ none ∧
      allocproc m k = (some np,
        { k.setProc np (allocated k.nextpid m) with nextpid := wrapInt (k.nextpid + 1) })) := by
  cases found : unusedSlot k with
  | none => exact Or.inl ⟨rfl, by simp [allocproc, found]⟩
  | some np =>
      right
      by_cases noFrame : m.trapframe = none
      · left
        refine ⟨np, rfl, ?_⟩
        simp [allocproc, found, noFrame, allocpid, freeproc, Kernel.setProc]
      · by_cases noTable : m.pagetable = none
        · left
          refine ⟨np, rfl, ?_⟩
          simp [allocproc, found, noFrame, noTable, allocpid, freeproc, Kernel.setProc]
        · right
          refine ⟨np, rfl, noFrame, noTable, ?_⟩
          simp [allocproc, found, noFrame, noTable, allocpid, Kernel.setProc, allocated]

theorem forkCopy_cases (p : Slot) (live : (k.proc p).state ≠ .unused) :
    (forkCopy m p k = (none, k)) ∨
    (∃ np, unusedSlot k = some np ∧
      forkCopy m p k = (none, { freeproc np k with nextpid := wrapInt (k.nextpid + 1) })) ∨
    (∃ np, unusedSlot k = some np ∧
      forkCopy m p k = (some np,
        { k.setProc np (fun q =>
            { forkChild (k.proc p) p k.nextpid m q with state := .used, parent := q.parent }) with
          nextpid := wrapInt (k.nextpid + 1) })) := by
  rcases allocproc_cases m k with ⟨_, out⟩ | ⟨np, found, out⟩ | ⟨np, found, _, _, out⟩
  · exact Or.inl (by simp [forkCopy, out])
  · exact Or.inr (Or.inl ⟨np, found, by simp [forkCopy, out]⟩)
  · have differ : p ≠ np := fun same => live (same ▸ unusedSlot_some found)
    cases copied : m.uvmcopy with
    | false =>
        refine Or.inr (Or.inl ⟨np, found, ?_⟩)
        simp [forkCopy, out, copied, freeproc, Kernel.setProc, allocated]
    | true =>
        refine Or.inr (Or.inr ⟨np, found, ?_⟩)
        simp [forkCopy, out, copied, Kernel.setProc, allocated, forkChild, differ]

/-- `kfork` leaves the table alone, or clears the slot it had taken, or creates a
runnable child in the first unused slot. -/
theorem kfork_cases (p : Slot) (live : (k.proc p).state ≠ .unused) :
    (kfork m p k = (-1, k)) ∨
    (∃ np, unusedSlot k = some np ∧
      kfork m p k = (-1, { freeproc np k with nextpid := wrapInt (k.nextpid + 1) })) ∨
    (∃ np, unusedSlot k = some np ∧
      kfork m p k = (k.nextpid,
        { k.setProc np (forkChild (k.proc p) p k.nextpid m) with
          nextpid := wrapInt (k.nextpid + 1) })) := by
  rcases forkCopy_cases m k p live with out | ⟨np, found, out⟩ | ⟨np, found, out⟩
  · exact Or.inl (by simp [kfork, out])
  · exact Or.inr (Or.inl ⟨np, found, by simp [kfork, out]⟩)
  · refine Or.inr (Or.inr ⟨np, found, ?_⟩)
    simp [kfork, out, Kernel.setProc, forkChild]

end Create

section Scheduler

/-- The selection loop is the search for the least pid among runnable slots. -/
theorem firstProc_eq_least (k : Kernel) :
    firstProc k = least (fun p => decide ((k.proc p).state = .runnable))
      (fun p => (k.proc p).pid) := by
  have same : scanStep k = leastStep (fun p => decide ((k.proc p).state = .runnable))
      (fun p => (k.proc p).pid) := by
    funext first p
    cases first <;> simp only [scanStep, leastStep, decide_eq_true_eq]
  unfold firstProc least
  rw [same]

/-- `p` is preferred to `q`: a smaller pid, or the same pid in an earlier slot. -/
def Before (k : Kernel) (p q : Slot) : Prop := Precedes (fun p => (k.proc p).pid) p q

theorem firstProc_some {k : Kernel} {p : Slot} :
    firstProc k = some p ↔ (k.proc p).state = .runnable ∧
      ∀ q, (k.proc q).state = .runnable → q ≠ p → Before k p q := by
  rw [firstProc_eq_least, least_some]
  simp [Before]

theorem firstProc_none {k : Kernel} :
    firstProc k = none ↔ ∀ p, (k.proc p).state ≠ .runnable := by
  rw [firstProc_eq_least, least_none]
  simp

end Scheduler

end Xv6Fcfs.Process
