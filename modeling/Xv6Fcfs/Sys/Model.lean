import Xv6Fcfs.Process.Table
import Xv6Fcfs.Fs.Syscalls
import Xv6Fcfs.Vm.Lazy
import Xv6Fcfs.Param

/-!
# Processes, their memory and their files

The process table of `kernel/proc.c` over the page allocator and the file system, with
`kernel/exec.c`, `kernel/pipe.c` and the calls of `kernel/sysproc.c` and `kernel/sysfile.c`
that take or give pages.  System calls run one after the other; only `sys_exec` is cut in
two, its arguments being fetched before the file is read, so that other processes run while
it holds its argument pages.

The open files and the working directory of slot `i` are `fs.proc i`.  A pipe is known by its
page; of its fields `readopen` and `writeopen` are kept.  `chan` and the contents of pipes
are left out.  `tramp` is the page of the trampoline.
-/

set_option autoImplicit false

namespace Xv6Fcfs.Sys

open Xv6Fcfs.Lib Xv6Fcfs.Vm Xv6Fcfs.Fs
open Xv6Fcfs.Process (ProcState wrapInt)

/-- `struct proc` without its files. -/
structure Task where
  state : ProcState
  killed : Bool
  xstate : Int
  pid : Int
  parent : Option Nat
  sz : Nat
  pagetable : Option Nat
  trapframe : Option Nat
  name : List UInt8

/-- `struct pipe` -/
structure Ends where
  readopen : Bool
  writeopen : Bool

/-- What `sys_exec` has fetched: the path and the pages of `argv` with their strings. -/
structure Fetched where
  path : Path
  argv : List (Nat × List UInt8)

structure System where
  task : Nat → Task
  nextpid : Int
  phys : Phys
  fs : FsState
  /-- `f->pipe` -/
  pipe : Nat → Nat
  ends : Nat → Ends
  exec : Nat → Option Fetched
  /-- `log.outstanding`, as `kexec` counts it; other calls are whole transactions. -/
  outstanding : Int
  /-- `forkret` has not run yet. -/
  first : Bool

inductive Halt where
  | fs (stop : Stop)
  | vm (panic : Panic)
  /-- "loadseg: address should exist" -/
  | loadseg
  /-- "exec" of `forkret`: `kexec` of `/init` has failed. -/
  | noInit
  /-- `userinit` without memory for a process. -/
  | userinit
  deriving DecidableEq

abbrev SysM := Prog System Halt

section Parts
variable {α : Type}

def onVm (m : VmM α) : SysM α := embed System.phys (fun t s => { s with phys := t }) .vm m

def onFs (m : FsM α) : SysM α := embed System.fs (fun t s => { s with fs := t }) .fs m

end Parts

def setTask (i : Nat) (f : Task → Task) : SysM Unit :=
  modify fun s => { s with task := upd s.task i (f (s.task i)) }

def Task.space (t : Task) : Space := ⟨t.pagetable.getD 0, t.sz, t.trapframe.getD 0⟩

/-! ## `kernel/proc.c` -/

/-- The first slot that is `UNUSED`. -/
def unusedSlot (task : Nat → Task) : Nat → Nat → Option Nat
  | _, 0 => none
  | i, n + 1 => if (task i).state = .unused then some i else unusedSlot task (i + 1) n

def freeproc (i : Nat) : SysM Unit := do
  let s ← get
  match (s.task i).trapframe with
  | some t => onVm (kfree (t * PGSIZE))
  | none => pure ()
  setTask i fun t => { t with trapframe := none }
  match (s.task i).pagetable with
  | some root => onVm (procFreepagetable root (s.task i).sz)
  | none => pure ()
  setTask i fun t => { t with
    pagetable := none, sz := 0, pid := 0, parent := none, name := [], killed := false, xstate := 0,
    state := .unused }

def allocproc (tramp : Nat) : SysM (Option Nat) := do
  let s ← get
  match unusedSlot s.task 0 NPROC with
  | none => return none
  | some i => do
      set { s with nextpid := wrapInt (s.nextpid + 1) }
      setTask i fun t => { t with pid := s.nextpid, state := .used }
      match ← onVm kalloc with
      | none => do
          freeproc i
          return none
      | some t => do
          setTask i fun task => { task with trapframe := some t }
          match ← onVm (procPagetable (tramp * PGSIZE) t) with
          | none => do
              freeproc i
              return none
          | some root => do
              setTask i fun task => { task with pagetable := some root }
              return some i

/-- `sizeof(struct trapframe)` and the places of its fields -/
def TRAPFRAME_SIZE : Nat := 288
def EPC : Nat := 24
def SP : Nat := 48
def A0 : Nat := 112
def A1 : Nat := 120

/-- `*(np->trapframe) = *(p->trapframe); np->trapframe->a0 = 0;` -/
def forkFrame (mem : Nat → Bytes) (parent child : Nat) : Bytes :=
  putLE (fun i => if i < TRAPFRAME_SIZE then mem parent i else mem child i) A0 8 0

def kfork (tramp p : Nat) (files : ProcFiles) : SysM Int := do
  match ← allocproc tramp with
  | none => return -1
  | some np => do
      let s ← get
      let r ← onVm (uvmcopy (s.task p).space.pagetable (s.task np).space.pagetable (s.task p).sz)
      if r < 0 then do
        freeproc np
        return -1
      else do
        setTask np fun t => { t with sz := (s.task p).sz }
        let child := (s.task np).space.trapframe
        onVm (modify fun v => { v with
          mem := upd v.mem child (forkFrame v.mem (s.task p).space.trapframe child) })
        let _ ← onFs (Fs.kfork files np)
        setTask np fun t => { t with name := (s.task p).name, parent := some p, state := .runnable }
        return (s.task np).pid

/-- `growproc` and `sys_sbrk` -/
def sysSbrk (p : Nat) (n t : Int) : SysM Int := do
  let s ← get
  let (r, sz) ← onVm (Vm.sysSbrk (s.task p).space n t)
  setTask p fun task => { task with sz := sz }
  return r

def zombieChild (task : Nat → Task) (p : Nat) : Nat → Nat → Option Nat
  | _, 0 => none
  | i, n + 1 =>
      if (task i).parent = some p ∧ (task i).state = .zombie then some i
      else zombieChild task p (i + 1) n

def havekids (task : Nat → Task) (p : Nat) : Prop := ∃ i, i < NPROC ∧ (task i).parent = some p

instance (task : Nat → Task) (p : Nat) : Decidable (havekids task p) :=
  inferInstanceAs (Decidable (∃ i, i < NPROC ∧ (task i).parent = some p))

def intBytes (x : Int) : List UInt8 :=
  (List.range 4).map fun i => UInt8.ofNat ((x % 2 ^ 32).toNat / 256 ^ i % 256)

/-- `kwait`; `none` is a sleep. -/
def kwait (p addr : Nat) : SysM (Option Int) := do
  let s ← get
  match zombieChild s.task p 0 NPROC with
  | some i => do
      let r ← if addr ≠ 0 then onVm (copyout (s.task p).space (s.task p).space.pagetable addr
          (intBytes (s.task i).xstate))
        else pure 0
      if r < 0 then return some (-1)
      else do
        freeproc i
        return some (s.task i).pid
  | none =>
      if ¬ havekids s.task p ∨ (s.task p).killed = true then return some (-1) else return none

/-! ## `kernel/pipe.c` and open files -/

def setPipe (f q : Nat) : SysM Unit := modify fun s => { s with pipe := upd s.pipe f q }

def setEnds (q : Nat) (e : Ends) : SysM Unit := modify fun s => { s with ends := upd s.ends q e }

def pipeclose (q : Nat) (writable : Bool) : SysM Unit := do
  let s ← get
  let e : Ends := if writable then { s.ends q with writeopen := false }
    else { s.ends q with readopen := false }
  setEnds q e
  if e.readopen = false ∧ e.writeopen = false then onVm (kfree (q * PGSIZE)) else pure ()

/-- `fileclose` with its pipe. -/
def fileclose (sb : Superblock) (f : Nat) : SysM Unit := do
  let s ← get
  onFs (Fs.fileclose sb f)
  if (s.fs.ftable f).ref = 1 ∧ (s.fs.ftable f).type = .pipe then
    pipeclose (s.pipe f) (s.fs.ftable f).writable
  else pure ()

def pipeFile (writable : Bool) (ff : File) : File :=
  { ff with type := .pipe, readable := !writable, writable := writable }

def pipealloc (sb : Superblock) : SysM (Option (Nat × Nat)) := do
  match ← onFs filealloc with
  | none => return none
  | some f0 => do
      match ← onFs filealloc with
      | none => do
          fileclose sb f0
          return none
      | some f1 => do
          match ← onVm kalloc with
          | none => do
              fileclose sb f0
              fileclose sb f1
              return none
          | some q => do
              setEnds q ⟨true, true⟩
              onFs (modify fun s => setFile f0 (pipeFile false (s.ftable f0)) s)
              setPipe f0 q
              onFs (modify fun s => setFile f1 (pipeFile true (s.ftable f1)) s)
              setPipe f1 q
              return some (f0, f1)

def pipeBad (sb : Superblock) (p rf wf : Nat) (fd0 fd1 : Option Nat) : SysM Int := do
  match fd0 with
  | some fd => onFs (modify (setFd p fd none))
  | none => pure ()
  match fd1 with
  | some fd => onFs (modify (setFd p fd none))
  | none => pure ()
  fileclose sb rf
  fileclose sb wf
  return -1

def filesOf (p : Nat) : SysM ProcFiles := do
  let s ← get
  return (s.fs.proc p).getD ⟨0, fun _ => none⟩

def sysPipe (sb : Superblock) (p fdarray : Nat) : SysM Int := do
  match ← pipealloc sb with
  | none => return -1
  | some (rf, wf) => do
      let files ← filesOf p
      match ← onFs (fdalloc p files rf) with
      | none => pipeBad sb p rf wf none none
      | some fd0 => do
          let files ← filesOf p
          match ← onFs (fdalloc p files wf) with
          | none => pipeBad sb p rf wf (some fd0) none
          | some fd1 => do
              let s ← get
              let space := (s.task p).space
              let r ← onVm (copyout space space.pagetable fdarray (intBytes fd0))
              if r < 0 then pipeBad sb p rf wf (some fd0) (some fd1)
              else do
                let r ← onVm (copyout space space.pagetable (wrap64 (fdarray + 4)) (intBytes fd1))
                if r < 0 then pipeBad sb p rf wf (some fd0) (some fd1) else return 0

def sysClose (sb : Superblock) (p : Nat) (files : ProcFiles) (fd : Int) : SysM Int :=
  match argfd files fd with
  | none => return -1
  | some f => do
      onFs (modify (setFd p fd.toNat none))
      fileclose sb f
      return 0

/-- The loop of `kexit` over the descriptors. -/
def exitFd (sb : Superblock) (p : Nat) (files : ProcFiles) (fd : Nat) : SysM Unit :=
  match files.ofile fd with
  | none => return ()
  | some f => do
      fileclose sb f
      onFs (modify (setFd p fd none))

/-- `reparent`: slot 0 is `initproc`. -/
def reparent (p : Nat) (task : Nat → Task) : Nat → Task := fun i =>
  if i < NPROC ∧ (task i).parent = some p then { task i with parent := some 0 } else task i

def kexit (sb : Superblock) (p : Nat) (files : ProcFiles) (status : Int) : SysM Unit :=
  if p = 0 then throw (.fs .initExiting)
  else do
    forFrom (exitFd sb p files) 0 NOFILE
    onFs (transaction (iput sb files.cwd))
    onFs (modify (setProc p none))
    modify fun s => { s with task := reparent p s.task }
    setTask p fun t => { t with xstate := status, state := .zombie }

end Xv6Fcfs.Sys
