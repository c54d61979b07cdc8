import Xv6Fcfs.Lib.Bytes
import Xv6Fcfs.Lib.Wp
import Mathlib.Data.Fin.Basic

/-!
# Physical pages and page tables (`kernel/kalloc.c`, `kernel/vm.c`)

A page is its number, the physical address divided by `PGSIZE`, and holds `PGSIZE` bytes;
a page-table page is read as 512 little-endian integers.  `kmem.freelist` is the list of
the free pages, in the order of their `next` pointers.  Null pointers are `none`.

`kalloc` may also fail with pages left: `refusals` tells which of the coming calls do.
`low` is the first page behind the kernel, `PGROUNDUP(end)`.  An error is a panic.
-/

set_option autoImplicit false

namespace Xv6Fcfs.Vm

open Xv6Fcfs.Lib

def PGSIZE : Nat := 4096
def MAXVA : Nat := 2 ^ (9 + 9 + 9 + 12 - 1)
def KERNBASE : Nat := 0x80000000
def PHYSTOP : Nat := KERNBASE + 128 * 1024 * 1024
def TRAMPOLINE : Nat := MAXVA - PGSIZE
def TRAPFRAME : Nat := TRAMPOLINE - PGSIZE

def PTE_V : Nat := 1 <<< 0
def PTE_R : Nat := 1 <<< 1
def PTE_W : Nat := 1 <<< 2
def PTE_X : Nat := 1 <<< 3
def PTE_U : Nat := 1 <<< 4

def wrap64 (x : Nat) : Nat := x % 2 ^ 64

def PGROUNDUP (sz : Nat) : Nat := wrap64 (sz + PGSIZE - 1) / PGSIZE * PGSIZE
def PGROUNDDOWN (a : Nat) : Nat := a / PGSIZE * PGSIZE

def PA2PTE (pa : Nat) : Nat := pa >>> 12 <<< 10
def PTE2PA (pte : Nat) : Nat := wrap64 (pte >>> 10 <<< 12)
def PTE_FLAGS (pte : Nat) : Nat := pte &&& 0x3FF

def PXMASK : Nat := 0x1FF
def PXSHIFT (level : Nat) : Nat := 12 + 9 * level
def PX (level va : Nat) : Fin 512 := Fin.ofNat 512 (va >>> PXSHIFT level &&& PXMASK)

inductive Panic where
  | kfree
  | walk
  | mappagesVa
  | mappagesSize
  | mappagesZero
  | remap
  | uvmunmap
  | freewalkLeaf
  /-- A table below the third level. -/
  | freewalkDeep
  | uvmclear
  /-- The entry that `copyout` reads does not exist. -/
  | nullPte
  deriving DecidableEq

structure Phys where
  mem : Nat → Bytes
  free : List Nat
  refusals : List Bool
  low : Nat

abbrev VmM := Prog Phys Panic

/-! ## Pages -/

def kfree (pa : Nat) : VmM Unit := do
  let s ← get
  if pa % PGSIZE ≠ 0 ∨ pa / PGSIZE < s.low ∨ PHYSTOP ≤ pa then throw .kfree
  else set { s with mem := upd s.mem (pa / PGSIZE) fun _ => 1, free := pa / PGSIZE :: s.free }

def kalloc : VmM (Option Nat) := do
  let s ← get
  match s.refusals.headD false, s.free with
  | true, _ => do
      set { s with refusals := s.refusals.tail }
      return none
  | false, [] => do
      set { s with refusals := s.refusals.tail }
      return none
  | false, p :: rest => do
      set { s with mem := upd s.mem p fun _ => 5, free := rest, refusals := s.refusals.tail }
      return some p

/-- `memset` of a whole page. -/
def fill (p : Nat) (c : UInt8) : VmM Unit :=
  modify fun s => { s with mem := upd s.mem p fun _ => c }

/-- `memmove` of `n` bytes into a page. -/
def blit (p off : Nat) (src : Nat → UInt8) (n : Nat) : VmM Unit :=
  modify fun s => { s with
    mem := upd s.mem p fun i => if off ≤ i ∧ i < off + n then src (i - off) else s.mem p i }

def loadPte (mem : Nat → Bytes) (t : Nat) (i : Fin 512) : Nat := getLE (mem t) (8 * i.val) 8

def storePte (t : Nat) (i : Fin 512) (v : Nat) : VmM Unit :=
  modify fun s => { s with mem := upd s.mem t (putLE (s.mem t) (8 * i.val) 8 v) }

def readPte (t : Nat) (i : Fin 512) : VmM Nat := do
  let s ← get
  return loadPte s.mem t i

/-! ## Page tables -/

/-- The loop of `walk`, at `level` and below. -/
def walkLoop (va : Nat) (alloc : Bool) : Nat → Nat → VmM (Option (Nat × Fin 512))
  | 0, pagetable => return some (pagetable, PX 0 va)
  | level + 1, pagetable => do
      let pte ← readPte pagetable (PX (level + 1) va)
      if pte &&& PTE_V ≠ 0 then walkLoop va alloc level (PTE2PA pte / PGSIZE)
      else if alloc then
        match ← kalloc with
        | none => return none
        | some q => do
            fill q 0
            storePte pagetable (PX (level + 1) va) (PA2PTE (q * PGSIZE) ||| PTE_V)
            walkLoop va alloc level q
      else return none

def walk (pagetable va : Nat) (alloc : Bool) : VmM (Option (Nat × Fin 512)) :=
  if MAXVA ≤ va then throw .walk else walkLoop va alloc 2 pagetable

def walkaddr (pagetable va : Nat) : VmM Nat :=
  if MAXVA ≤ va then return 0
  else do
    match ← walk pagetable va false with
    | none => return 0
    | some (t, i) => do
        let pte ← readPte t i
        if pte &&& PTE_V = 0 then return 0
        else if pte &&& PTE_U = 0 then return 0
        else return PTE2PA pte

/-- The loop of `mappages` with `n` pages to go; the last one is `a == last`. -/
def mapLoop (pagetable perm : Nat) : Nat → Nat → Nat → VmM Int
  | 0, _, _ => return 0
  | n + 1, a, pa => do
      match ← walk pagetable a true with
      | none => return -1
      | some (t, i) => do
          let pte ← readPte t i
          if pte &&& PTE_V ≠ 0 then throw .remap
          else do
            storePte t i (PA2PTE pa ||| perm ||| PTE_V)
            mapLoop pagetable perm n (wrap64 (a + PGSIZE)) (wrap64 (pa + PGSIZE))

def mappages (pagetable va size pa perm : Nat) : VmM Int :=
  if va % PGSIZE ≠ 0 then throw .mappagesVa
  else if size % PGSIZE ≠ 0 then throw .mappagesSize
  else if size = 0 then throw .mappagesZero
  else mapLoop pagetable perm (size / PGSIZE) va pa

def uvmcreate : VmM (Option Nat) := do
  match ← kalloc with
  | none => return none
  | some p => do
      fill p 0
      return some p

/-- One page of the loop of `uvmunmap`. -/
def unmapPage (pagetable a : Nat) (doFree : Bool) : VmM Unit := do
  match ← walk pagetable a false with
  | none => return ()
  | some (t, i) => do
      let pte ← readPte t i
      if pte &&& PTE_V = 0 then return ()
      else do
        if doFree then kfree (PTE2PA pte) else pure ()
        storePte t i 0

def unmapLoop (pagetable : Nat) (doFree : Bool) : Nat → Nat → VmM Unit
  | 0, _ => return ()
  | n + 1, a => do
      unmapPage pagetable a doFree
      unmapLoop pagetable doFree n (a + PGSIZE)

/-- The loop ends at `va + npages*PGSIZE`, which may have wrapped. -/
def uvmunmap (pagetable va npages : Nat) (doFree : Bool) : VmM Unit :=
  if va % PGSIZE ≠ 0 then throw .uvmunmap
  else unmapLoop pagetable doFree ((wrap64 (va + npages * PGSIZE) - va) / PGSIZE) va

/-- A 64-bit value stored in an `int` and used as a 64-bit value again. -/
def asInt (n : Nat) : Nat := (Int.bmod n (2 ^ 32) % 2 ^ 64).toNat

def uvmdealloc (pagetable oldsz newsz : Nat) : VmM Nat :=
  if oldsz ≤ newsz then return oldsz
  else do
    if PGROUNDUP newsz < PGROUNDUP oldsz then
      let npages := asInt ((PGROUNDUP oldsz - PGROUNDUP newsz) / PGSIZE)
      uvmunmap pagetable (PGROUNDUP newsz) npages true
    return newsz

/-- The loop of `uvmalloc` with `n` pages to go; the result is whether it got them. -/
def allocLoop (pagetable oldsz xperm : Nat) : Nat → Nat → VmM Bool
  | 0, _ => return true
  | n + 1, a => do
      match ← kalloc with
      | none => do
          let _ ← uvmdealloc pagetable a oldsz
          return false
      | some mem => do
          fill mem 0
          let r ← mappages pagetable a PGSIZE (mem * PGSIZE) (PTE_R ||| PTE_U ||| xperm)
          if r ≠ 0 then do
            kfree (mem * PGSIZE)
            let _ ← uvmdealloc pagetable a oldsz
            return false
          else allocLoop pagetable oldsz xperm n (a + PGSIZE)

/-- The number of pages from `a` on that begin below `top`. -/
def pagesBelow (a top : Nat) : Nat := (top - a + PGSIZE - 1) / PGSIZE

def uvmalloc (pagetable oldsz newsz xperm : Nat) : VmM Nat :=
  if newsz < oldsz then return oldsz
  else do
    let oldsz := PGROUNDUP oldsz
    let done ← allocLoop pagetable oldsz xperm (pagesBelow oldsz newsz) oldsz
    return if done then newsz else 0

/-- `freewalk` of a table with `n` levels. -/
def freewalk : Nat → Nat → VmM Unit
  | 0, _ => throw .freewalkDeep
  | n + 1, pagetable => do
      forFrom (fun i => do
        let pte ← readPte pagetable (Fin.ofNat 512 i)
        if pte &&& PTE_V ≠ 0 ∧ pte &&& (PTE_R ||| PTE_W ||| PTE_X) = 0 then do
          freewalk n (PTE2PA pte / PGSIZE)
          storePte pagetable (Fin.ofNat 512 i) 0
        else if pte &&& PTE_V ≠ 0 then throw .freewalkLeaf
        else pure ()) 0 512
      kfree (pagetable * PGSIZE)

def uvmfree (pagetable sz : Nat) : VmM Unit := do
  if 0 < sz then uvmunmap pagetable 0 (PGROUNDUP sz / PGSIZE) true
  freewalk 3 pagetable

end Xv6Fcfs.Vm
