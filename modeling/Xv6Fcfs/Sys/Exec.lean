import Xv6Fcfs.Sys.Model

/-!
# `kernel/exec.c` and `sys_exec`

The file is read with the inode locked and inside a transaction.  The label `bad` frees the
new page table, if there is one, and gives up the inode, if it is still held.
-/

set_option autoImplicit false

namespace Xv6Fcfs.Sys

open Xv6Fcfs.Lib Xv6Fcfs.Vm Xv6Fcfs.Fs

def ELF_MAGIC : Nat := 0x464C457F
def ELF_PROG_LOAD : Nat := 1

/-- `sizeof(struct elfhdr)` and `sizeof(struct proghdr)` -/
def ELFHDR : Nat := 64
def PROGHDR : Nat := 56

namespace Elf

def magic (h : Bytes) : Nat := getLE h 0 4
def entry (h : Bytes) : Nat := getLE h 24 8
def phoff (h : Bytes) : Nat := getLE h 32 8
def phnum (h : Bytes) : Nat := getLE h 56 2

end Elf

namespace Proghdr

def type (h : Bytes) : Nat := getLE h 0 4
def flags (h : Bytes) : Nat := getLE h 4 4
def off (h : Bytes) : Nat := getLE h 8 8
def vaddr (h : Bytes) : Nat := getLE h 16 8
def filesz (h : Bytes) : Nat := getLE h 32 8
def memsz (h : Bytes) : Nat := getLE h 40 8

end Proghdr

def flags2perm (flags : Nat) : Nat :=
  (if flags &&& 1 ≠ 0 then PTE_X else 0) ||| (if flags &&& 2 ≠ 0 then PTE_W else 0)

def wrap32 (x : Nat) : Nat := x % 2 ^ 32

/-- `readi` of the locked inode into the kernel. -/
def readFile (sb : Superblock) (ip off n : Nat) : SysM (Int × Bytes) :=
  onFs (onInode ip (readi sb (fun _ => true) off n))

/-- The loop of `loadseg` with `k` pages to go: `i` is the place in the segment of `sz` bytes. -/
def loadsegLoop (sb : Superblock) (pagetable va ip offset sz : Nat) : Nat → Nat → SysM Bool
  | 0, _ => return true
  | k + 1, i => do
      let pa ← onVm (walkaddr pagetable (wrap64 (va + i)))
      if pa = 0 then throw .loadseg
      else do
        let n := if sz - i < PGSIZE then sz - i else PGSIZE
        let (r, bytes) ← readFile sb ip (wrap32 (offset + i)) n
        onVm (blit (pa / PGSIZE) 0 bytes r.toNat)
        if r ≠ n then return false
        else loadsegLoop sb pagetable va ip offset sz k (i + PGSIZE)

/-- `loadseg`; its last two arguments are `uint`. -/
def loadseg (sb : Superblock) (pagetable va ip offset sz : Nat) : SysM Bool :=
  loadsegLoop sb pagetable va ip offset sz (pagesBelow 0 sz) 0

/-- The loop over the program headers, `n` to go: whether all went well, and `sz`. -/
def loadSegments (sb : Superblock) (pagetable ip : Nat) : Nat → Nat → Nat → SysM (Bool × Nat)
  | 0, _, sz => return (true, sz)
  | n + 1, off, sz => do
      let (r, ph) ← readFile sb ip off PROGHDR
      let vaddr := Proghdr.vaddr ph
      let memsz := Proghdr.memsz ph
      let filesz := Proghdr.filesz ph
      if r ≠ PROGHDR then return (false, sz)
      else if Proghdr.type ph ≠ ELF_PROG_LOAD then
        loadSegments sb pagetable ip n (wrap32 (off + PROGHDR)) sz
      else if memsz < filesz then return (false, sz)
      else if wrap64 (vaddr + memsz) < vaddr then return (false, sz)
      else if vaddr % PGSIZE ≠ 0 then return (false, sz)
      else do
        let sz1 ← onVm (uvmalloc pagetable sz (wrap64 (vaddr + memsz)) (flags2perm (Proghdr.flags ph)))
        if sz1 = 0 then return (false, sz)
        else if ← loadseg sb pagetable vaddr ip (wrap32 (Proghdr.off ph)) (wrap32 filesz) then
          loadSegments sb pagetable ip n (wrap32 (off + PROGHDR)) sz1
        else return (false, sz1)

/-- `sp -= n; sp -= sp % 16;` -/
def pushDown (sp n : Nat) : Nat := wrap64 (sp + 2 ^ 64 - n) / 16 * 16

/-- The loop over `argv`: `sp` and the addresses of the strings, or nothing at `goto bad`. -/
def pushArgs (p : Space) (pagetable stackbase : Nat) :
    List (List UInt8) → Nat → List Nat → SysM (Option (Nat × List Nat))
  | [], sp, ustack => return some (sp, ustack)
  | arg :: rest, sp, ustack => do
      if MAXARG ≤ ustack.length then return none
      else if pushDown sp (arg.length + 1) < stackbase then return none
      else do
        let sp := pushDown sp (arg.length + 1)
        let r ← onVm (copyout p pagetable sp (arg ++ [0]))
        if r < 0 then return none
        else pushArgs p pagetable stackbase rest sp (ustack ++ [sp])

def wordBytes (x : Nat) : List UInt8 := (List.range 8).map fun i => UInt8.ofNat (x / 256 ^ i % 256)

/-- `ustack` with the strings and the array pushed. -/
def pushStack (p : Space) (pagetable stackbase sp : Nat) (argv : List (List UInt8)) :
    SysM (Option (Nat × Nat)) := do
  match ← pushArgs p pagetable stackbase argv sp [] with
  | none => return none
  | some (sp, ustack) => do
      if pushDown sp ((ustack.length + 1) * 8) < stackbase then return none
      else do
        let sp := pushDown sp ((ustack.length + 1) * 8)
        let r ← onVm (copyout p pagetable sp (((ustack ++ [0]).map wordBytes).flatten))
        if r < 0 then return none else return some (sp, ustack.length)

/-- The path behind its last slash, as `safestrcpy` cuts it. -/
def lastElem (path : Path) : List UInt8 := ((path.reverse.takeWhile (· ≠ slash)).reverse).take 15

/-- The registers that `kexec` sets in the trap frame. -/
def execFrame (frame : Bytes) (entry sp : Nat) : Bytes :=
  putLE (putLE (putLE frame A1 8 sp) EPC 8 entry) SP 8 sp

/-- `kexec` behind the file: the stack, and the new image in the place of the old one. -/
def kexecImage (p : Nat) (path : Path) (argv : List (List UInt8)) (pagetable entry sz : Nat) :
    SysM Int := do
  let s ← get
  let old := (s.task p).space
  let base := PGROUNDUP sz
  let sz1 ← onVm (uvmalloc pagetable base (wrap64 (base + (USERSTACK + 1) * PGSIZE)) PTE_W)
  if sz1 = 0 then do
    onVm (procFreepagetable pagetable base)
    return -1
  else do
    onVm (uvmclear pagetable (sz1 - (USERSTACK + 1) * PGSIZE))
    match ← pushStack old pagetable (sz1 - USERSTACK * PGSIZE) sz1 argv with
    | none => do
        onVm (procFreepagetable pagetable sz1)
        return -1
    | some (sp, argc) => do
        setTask p fun t => { t with name := lastElem path, pagetable := some pagetable, sz := sz1 }
        onVm (modify fun v =>
          { v with mem := upd v.mem old.trapframe (execFrame (v.mem old.trapframe) entry sp) })
        onVm (procFreepagetable old.pagetable old.sz)
        return argc

/-- `begin_op` and `end_op` of `kexec` -/
def beginExec : SysM Unit := do
  modify fun s => { s with outstanding := s.outstanding + 1 }
  onFs beginOp

def endExec : SysM Unit := do
  modify fun s => { s with outstanding := s.outstanding - 1 }
  onFs endOp

/-- The inode given up at `bad` or when the file has been read. -/
def giveUp (sb : Superblock) (ip : Nat) : SysM Unit := do
  onFs (iunlockput sb ip)
  endExec

def kexec (tramp : Nat) (sb : Superblock) (p : Nat) (cwd : Nat) (path : Path)
    (argv : List (List UInt8)) : SysM Int := do
  beginExec
  match ← onFs (namei sb cwd path) with
  | none => do
      endExec
      return -1
  | some ip => do
      onFs (ilock sb ip)
      let (r, elf) ← readFile sb ip 0 ELFHDR
      if r ≠ ELFHDR ∨ Elf.magic elf ≠ ELF_MAGIC then do
        giveUp sb ip
        return -1
      else do
        let s ← get
        match ← onVm (procPagetable (tramp * PGSIZE) (s.task p).space.trapframe) with
        | none => do
            giveUp sb ip
            return -1
        | some pagetable => do
            let (ok, sz) ← loadSegments sb pagetable ip (Elf.phnum elf) (wrap32 (Elf.phoff elf)) 0
            if ok = false then do
              onVm (procFreepagetable pagetable sz)
              giveUp sb ip
              return -1
            else do
              giveUp sb ip
              kexecImage p path argv pagetable (Elf.entry elf) sz

/-! ## `sys_exec` -/

def fetchaddr (p : Space) (addr : Nat) : VmM (Option Nat) :=
  if p.sz ≤ addr ∨ p.sz < wrap64 (addr + 8) then return none
  else do
    let (r, bytes) ← copyin p p.pagetable addr 8
    if r ≠ 0 then return none else return some (getLE (fun i => bytes.getD i 0) 0 8)

/-- `fetchstr` into a buffer: the string without its NUL, and all that was written. -/
def fetchstr (p : Space) (addr max : Nat) : VmM (Option (List UInt8) × List UInt8) := do
  let (r, bytes) ← copyinstr p.pagetable addr max
  if r < 0 then return (none, bytes) else return (some (bytes.takeWhile (· ≠ 0)), bytes)

/-- `for(i = 0; i < NELEM(argv) && argv[i] != 0; i++) kfree(argv[i]);` -/
def freeArgs : List Nat → VmM Unit
  | [] => return ()
  | q :: rest => do
      kfree (q * PGSIZE)
      freeArgs rest

/-- The loop of `sys_exec`, `n` turns to go: the pages so far, and whether it ended well. -/
def fetchArgs (p : Space) (uargv : Nat) :
    Nat → Nat → List (Nat × List UInt8) → VmM (Bool × List (Nat × List UInt8))
  | 0, _, argv => return (false, argv)
  | n + 1, i, argv => do
      match ← fetchaddr p (wrap64 (uargv + 8 * i)) with
      | none => return (false, argv)
      | some uarg =>
          if uarg = 0 then return (true, argv)
          else
            match ← kalloc with
            | none => return (false, argv)
            | some q => do
                let (str, bytes) ← fetchstr p uarg PGSIZE
                blit q 0 (fun k => bytes.getD k 0) bytes.length
                match str with
                | none => return (false, argv ++ [(q, [])])
                | some text => fetchArgs p uargv n (i + 1) (argv ++ [(q, text)])

/-- `sys_exec` up to its call of `kexec`; the answer is that of a call that ends here. -/
def sysExecFetch (p path uargv : Nat) : SysM (Option Int) := do
  let s ← get
  let space := (s.task p).space
  match ← onVm (fetchstr space path MAXPATH) with
  | (none, _) => return some (-1)
  | (some path, _) => do
      let (ok, argv) ← onVm (fetchArgs space uargv MAXARG 0 [])
      if ok = false then do
        onVm (freeArgs (argv.map Prod.fst))
        return some (-1)
      else do
        modify fun s => { s with exec := upd s.exec p (some ⟨path, argv⟩) }
        return none

/-- The rest of `sys_exec`. -/
def sysExecRun (tramp : Nat) (sb : Superblock) (p cwd : Nat) (fetched : Fetched) : SysM Int := do
  let ret ← kexec tramp sb p cwd fetched.path (fetched.argv.map Prod.snd)
  onVm (freeArgs (fetched.argv.map Prod.fst))
  modify fun s => { s with exec := upd s.exec p none }
  return ret

end Xv6Fcfs.Sys
