import Xv6Fcfs.Log.Atomicity
import Xv6Fcfs.Fs.Handles
import Xv6Fcfs.Sys.Image

/-!
# Runs of system calls, page faults and exits

One process acts at a time, and an action that stops or sleeps is not completed and leaves no
state.  Between the two halves of `sys_exec` other processes act.  With every action comes
the list of the calls of `kalloc` that fail in it.

A system call that copies from or to its process does so in an action `user` of its own, and
the file system is given what could be copied; so a write of the process to its memory is
an action `user` too.  A process runs the first time through `forkret`.
-/

set_option autoImplicit false

namespace Xv6Fcfs.Sys

open Xv6Fcfs.Lib Xv6Fcfs.Vm Xv6Fcfs.Fs
open Xv6Fcfs.Process (ProcState wrapInt)

inductive Act where
  /-- A call of the file system. -/
  | call (c : { c : Call // c.plain })
  | user (c : UserCall Unit)
  /-- A trap saves the registers of the process. -/
  | save (regs : Bytes)
  | fault (va : UInt64)
  | sbrk (n t : Int)
  | fork
  | pipe (fdarray : UInt64)
  | close (fd : Int)
  | execFetch (path uargv : UInt64)
  | execRun
  | wait (addr : UInt64)
  | exit (status : Int)
  | forkret

def Act.resumes : Act → Bool
  | .execRun => true
  | _ => false

/-- "/init" -/
def initPath : Path := [47, 105, 110, 105, 116]

/-- `fsinit` behind `readsb`: the log is installed, and inodes without links are freed. -/
def initFs (sb : Superblock) : FsM Unit := do
  modify fun s => { s with
    disk := Log.recovered sb.logstart s.disk, log := [],
    journal := ⟨Log.recovered sb.logstart s.disk, []⟩ }
  ireclaim sb

/-- The first process initialises the file system and replaces itself. -/
def forkret (tramp : Nat) (sb : Superblock) (p cwd : Nat) : SysM Unit := do
  let s ← get
  if s.first then do
    onFs (initFs sb)
    modify fun s => { s with first := false }
    let r ← kexec tramp sb p cwd initPath [initPath]
    let frame := (s.task p).space.trapframe
    onVm (modify fun v =>
      { v with mem := upd v.mem frame (putLE (v.mem frame) A0 8 (r % 2 ^ 64).toNat) })
    if r = -1 then throw .noInit else pure ()
  else pure ()

def usertrapFault (p va : Nat) : SysM Unit := do
  let s ← get
  let pa ← onVm (vmfault (s.task p).space (s.task p).space.pagetable va)
  if pa = 0 then setTask p fun t => { t with killed := true } else pure ()

/-- What process `p` does; `none` is a sleep. -/
def runAct (tramp : Nat) (sb : Superblock) (p : Nat) : Act → SysM (Option Int)
  | .call c => do
      let files ← filesOf p
      let r ← onFs (runCall sb p files c)
      return some r
  | .user c => do
      let s ← get
      onVm (c.run (s.task p).space)
      return some 0
  | .save regs => do
      let s ← get
      onVm (modify fun v => { v with mem := upd v.mem (s.task p).space.trapframe regs })
      return some 0
  | .fault va => do
      usertrapFault p va.toNat
      return some 0
  | .sbrk n t => do
      let r ← sysSbrk p (wrapInt n) (wrapInt t)
      return some r
  | .fork => do
      let files ← filesOf p
      let r ← kfork tramp p files
      return some r
  | .pipe fdarray => do
      let r ← sysPipe sb p fdarray.toNat
      return some r
  | .close fd => do
      let files ← filesOf p
      let r ← sysClose sb p files fd
      return some r
  | .execFetch path uargv => do
      let r ← sysExecFetch p path.toNat uargv.toNat
      return some (r.getD 0)
  | .execRun => do
      let s ← get
      match s.exec p with
      | none => return none
      | some fetched => do
          let files ← filesOf p
          let r ← sysExecRun tramp sb p files.cwd fetched
          return some r
  | .wait addr => kwait p addr.toNat
  | .exit status => do
      let files ← filesOf p
      kexit sb p files status
      return some 0
  | .forkret => do
      let files ← filesOf p
      forkret tramp sb p files.cwd
      return some 0

structure Event where
  proc : Nat
  act : Act
  refusals : List Bool

/-- Process `p` can do this now. -/
structure Enabled (s : System) (p : Nat) (a : Act) : Prop where
  slot : p < NPROC
  live : (s.task p).state = .runnable
  phase : (s.exec p).isSome = a.resumes

instance (s : System) (p : Nat) (a : Act) : Decidable (Enabled s p a) :=
  decidable_of_iff (p < NPROC ∧ (s.task p).state = .runnable ∧ (s.exec p).isSome = a.resumes)
    ⟨fun ⟨slot, live, phase⟩ => ⟨slot, live, phase⟩, fun on => ⟨on.slot, on.live, on.phase⟩⟩

/-- The coming calls of `kalloc` fail as the event says. -/
def System.refuse (s : System) (refusals : List Bool) : System :=
  { s with phys := { s.phys with refusals := refusals } }

def step (tramp : Nat) (sb : Superblock) (s : System) (e : Event) : Option System :=
  if Enabled s e.proc e.act then
    match runAct tramp sb e.proc e.act (s.refuse e.refusals) with
    | .ok (some _, s') => some s'
    | _ => none
  else none

/-! ## The start -/

def userinit (tramp : Nat) (sb : Superblock) : SysM Unit := do
  match ← allocproc tramp with
  | none => throw .userinit
  | some p => do
      match ← onFs (namei sb 0 [slash]) with
      | none => throw .userinit
      | some cwd => do
          onFs (modify (setProc p (some ⟨cwd, fun _ => none⟩)))
          setTask p fun t => { t with state := .runnable }

def emptyTask : Task := ⟨.unused, false, 0, 0, none, 0, none, none, []⟩

/-- The kernel before `userinit`: the pages `fixed` hold its stacks, its page table and the
rings of the disk, and the other pages behind it are free. -/
structure Before (tramp : Nat) (fixed : Finset Nat) (s : System) : Prop where
  text : tramp < s.phys.low
  top : s.phys.low ≤ PHYSTOP / PGSIZE
  nodup : s.phys.free.Nodup
  pages : ∀ q, (q ∈ s.phys.free ∨ q ∈ fixed) ↔ (s.phys.low ≤ q ∧ q < PHYSTOP / PGSIZE)
  apart : ∀ q, q ∈ s.phys.free → q ∉ fixed
  task : ∀ i, s.task i = emptyTask
  exec : ∀ i, s.exec i = none
  ends : ∀ q, s.ends q = ⟨false, false⟩
  files : ∀ f, (s.fs.ftable f).ref = 0 ∧ (s.fs.ftable f).type = .none
  procs : ∀ i, s.fs.proc i = none

def Started (tramp : Nat) (sb : Superblock) (fixed : Finset Nat) (r : Run (step tramp sb)) : Prop :=
  ∃ s, Before tramp fixed s ∧ userinit tramp sb s = .ok ((), r.state 0)

end Xv6Fcfs.Sys
