import Xv6Fcfs.Vm.Model

/-!
# User memory (`kernel/vm.c`, `kernel/proc.c`)

The functions that copy, clear and fault in the pages of a process, and those that make and
free its page table.  `Space` is what they read of `struct proc`.
-/

set_option autoImplicit false

namespace Xv6Fcfs.Vm

open Xv6Fcfs.Lib

/-- `p->pagetable`, `p->sz` and `p->trapframe`. -/
structure Space where
  pagetable : Nat
  sz : Nat
  trapframe : Nat
  deriving DecidableEq

/-! ## Copying an address space -/

/-- The loop of `uvmcopy` with `n` pages to go; the result is the address at which it failed,
if it did. -/
def copyLoop (old new : Nat) : Nat → Nat → VmM (Option Nat)
  | 0, _ => return none
  | n + 1, i => do
      match ← walk old i false with
      | none => copyLoop old new n (i + PGSIZE)
      | some (t, j) => do
          let pte ← readPte t j
          if pte &&& PTE_V = 0 then copyLoop old new n (i + PGSIZE)
          else
            match ← kalloc with
            | none => return some i
            | some mem => do
                let s ← get
                set { s with mem := upd s.mem mem (s.mem (PTE2PA pte / PGSIZE)) }
                let r ← mappages new i PGSIZE (mem * PGSIZE) (PTE_FLAGS pte)
                if r ≠ 0 then do
                  kfree (mem * PGSIZE)
                  return some i
                else copyLoop old new n (i + PGSIZE)

def uvmcopy (old new sz : Nat) : VmM Int := do
  match ← copyLoop old new (pagesBelow 0 sz) 0 with
  | none => return 0
  | some i => do
      uvmunmap new 0 (i / PGSIZE) true
      return -1

def uvmclear (pagetable va : Nat) : VmM Unit := do
  match ← walk pagetable va false with
  | none => throw .uvmclear
  | some (t, i) => do
      let pte ← readPte t i
      -- `&= ~PTE_U`
      storePte t i (pte - (pte &&& PTE_U))

/-! ## Page faults -/

def ismapped (pagetable va : Nat) : VmM Bool := do
  match ← walk pagetable va false with
  | none => return false
  | some (t, i) => do
      let pte ← readPte t i
      return pte &&& PTE_V ≠ 0

/-- `vmfault` run by the process with the space `p`; the answer is a physical address or 0. -/
def vmfault (p : Space) (pagetable va : Nat) : VmM Nat :=
  if p.sz ≤ va then return 0
  else do
    let va := PGROUNDDOWN va
    if ← ismapped pagetable va then return 0
    else
      match ← kalloc with
      | none => return 0
      | some mem => do
          fill mem 0
          let r ← mappages p.pagetable va PGSIZE (mem * PGSIZE) (PTE_W ||| PTE_U ||| PTE_R)
          if r ≠ 0 then do
            kfree (mem * PGSIZE)
            return 0
          else return mem * PGSIZE

/-! ## Copies between the kernel and a user -/

/-- `walkaddr`, and `vmfault` where it gives 0. -/
def userAddr (p : Space) (pagetable va0 : Nat) : VmM Nat := do
  let pa0 ← walkaddr pagetable va0
  if pa0 = 0 then vmfault p pagetable va0 else return pa0

def chunk (va len : Nat) : Nat := min (PGSIZE - (va - PGROUNDDOWN va)) len

/-- `copyout` of the bytes `src`; each turn copies at least one byte, so that `src.length`
turns are enough. -/
def copyoutLoop (p : Space) (pagetable : Nat) : Nat → Nat → List UInt8 → VmM Int
  | 0, _, _ => return 0
  | fuel + 1, dstva, src =>
      if src = [] then return 0
      else do
        let va0 := PGROUNDDOWN dstva
        if MAXVA ≤ va0 then return -1
        else do
          let pa0 ← userAddr p pagetable va0
          if pa0 = 0 then return -1
          else
            match ← walk pagetable va0 false with
            | none => throw .nullPte
            | some (t, i) => do
                let pte ← readPte t i
                if pte &&& PTE_W = 0 then return -1
                else do
                  let n := chunk dstva src.length
                  blit (pa0 / PGSIZE) (dstva - va0) (fun k => src.getD k 0) n
                  copyoutLoop p pagetable fuel (wrap64 (va0 + PGSIZE)) (src.drop n)

def copyout (p : Space) (pagetable dstva : Nat) (src : List UInt8) : VmM Int :=
  copyoutLoop p pagetable src.length dstva src

/-- The bytes at `off` of a page. -/
def slice (b : Bytes) (off n : Nat) : List UInt8 := (List.range n).map fun k => b (off + k)

/-- `copyin` of `len` bytes; the second result is what has been written to `dst`. -/
def copyinLoop (p : Space) (pagetable : Nat) : Nat → Nat → Nat → List UInt8 → VmM (Int × List UInt8)
  | 0, _, _, dst => return (0, dst)
  | fuel + 1, srcva, len, dst =>
      if len = 0 then return (0, dst)
      else do
        let va0 := PGROUNDDOWN srcva
        let pa0 ← userAddr p pagetable va0
        if pa0 = 0 then return (-1, dst)
        else do
          let n := chunk srcva len
          let s ← get
          copyinLoop p pagetable fuel (wrap64 (va0 + PGSIZE)) (len - n)
            (dst ++ slice (s.mem (pa0 / PGSIZE)) (srcva - va0) n)

def copyin (p : Space) (pagetable srcva len : Nat) : VmM (Int × List UInt8) :=
  copyinLoop p pagetable len srcva len []

/-- `copyinstr` of at most `max` bytes. -/
def copyinstrLoop (pagetable : Nat) : Nat → Nat → Nat → List UInt8 → VmM (Int × List UInt8)
  | 0, _, _, dst => return (-1, dst)
  | fuel + 1, srcva, max, dst =>
      if max = 0 then return (-1, dst)
      else do
        let va0 := PGROUNDDOWN srcva
        let pa0 ← walkaddr pagetable va0
        if pa0 = 0 then return (-1, dst)
        else do
          let n := chunk srcva max
          let s ← get
          let bytes := slice (s.mem (pa0 / PGSIZE)) (srcva - va0) n
          let text := bytes.takeWhile (· ≠ 0)
          if text.length < n then return (0, dst ++ text ++ [0])
          else copyinstrLoop pagetable fuel (wrap64 (va0 + PGSIZE)) (max - n) (dst ++ text)

def copyinstr (pagetable srcva max : Nat) : VmM (Int × List UInt8) :=
  copyinstrLoop pagetable (max + 1) srcva max []

/-! ## Page tables of processes -/

/-- `trampoline` is the physical address of the trampoline page, in the kernel's text. -/
def procPagetable (trampoline trapframe : Nat) : VmM (Option Nat) := do
  match ← uvmcreate with
  | none => return none
  | some pagetable => do
      let r ← mappages pagetable TRAMPOLINE PGSIZE trampoline (PTE_R ||| PTE_X)
      if r < 0 then do
        uvmfree pagetable 0
        return none
      else do
        let r ← mappages pagetable TRAPFRAME PGSIZE (trapframe * PGSIZE) (PTE_R ||| PTE_W)
        if r < 0 then do
          uvmunmap pagetable TRAMPOLINE 1 false
          uvmfree pagetable 0
          return none
        else return some pagetable

def procFreepagetable (pagetable sz : Nat) : VmM Unit := do
  uvmunmap pagetable TRAMPOLINE 1 false
  uvmunmap pagetable TRAPFRAME 1 false
  uvmfree pagetable sz

/-- `growproc(n)`: the return value and the new `p->sz`. -/
def growproc (p : Space) (n : Int) : VmM (Int × Nat) :=
  let newsz := ((p.sz + n) % 2 ^ 64).toNat
  if 0 < n then
    if TRAPFRAME < newsz then return (-1, p.sz)
    else do
      let sz ← uvmalloc p.pagetable p.sz newsz PTE_W
      if sz = 0 then return (-1, p.sz) else return (0, sz)
  else if n < 0 then do
    let sz ← uvmdealloc p.pagetable p.sz newsz
    return (0, sz)
  else return (0, p.sz)

def SBRK_EAGER : Int := 1

/-- `sys_sbrk` with the arguments `n` and `t`: the return value and the new `p->sz`. -/
def sysSbrk (p : Space) (n t : Int) : VmM (Int × Nat) :=
  if t = SBRK_EAGER ∨ n < 0 then do
    let (r, sz) ← growproc p n
    if r < 0 then return (-1, sz) else return (p.sz, sz)
  else
    let newsz := ((p.sz + n) % 2 ^ 64).toNat
    if newsz < p.sz then return (-1, p.sz)
    else if TRAPFRAME < newsz then return (-1, p.sz)
    else return (p.sz, newsz)

end Xv6Fcfs.Vm
