import Xv6Fcfs.Fs.Blocks
import Xv6Fcfs.Param

/-!
# The file system of `kernel/fs.c`, `kernel/file.c` and `kernel/sysfile.c`

System calls run one after the other.  The inode table, the file table and the working
directory and descriptors of each process are the state; an inode is known by its index
in the table.  A call that panics, or that waits for a lock its own process holds, does
not complete.

`disk` is what the kernel sees through its buffers and `home` what a crash leaves: a
transaction moves the blocks it has logged there when its last `end_op` commits, and with
one call at a time that is every `end_op`.

`gen`, `stamp` and `commits` are not part of the program: `gen i` counts the allocations
of inode `i`, `stamp d off` is the count of the inode named by the entry at `off` of
directory `d` when that entry was written, and `commits` lists the transactions, the
latest first, each with its blocks and the disk it left.  Nothing reads them.
-/

set_option autoImplicit false

namespace Xv6Fcfs.Fs

open Xv6Fcfs.Lib

def O_WRONLY : Nat := 1
def O_RDWR : Nat := 2
def O_CREATE : Nat := 0x200
def O_TRUNC : Nat := 0x400

/-- `struct inode`; `din` is the copy of the disk inode. -/
structure Inode where
  inum : Nat
  ref : Nat
  locked : Bool
  valid : Bool
  din : Dinode

inductive FdType where
  | none
  | pipe
  | inode
  | device
  deriving DecidableEq

/-- `struct file`; `ip` is an index of the inode table. -/
structure File where
  type : FdType
  ref : Nat
  readable : Bool
  writable : Bool
  ip : Nat
  off : Nat
  major : Nat

structure ProcFiles where
  cwd : Nat
  ofile : Nat → Option Nat

structure Journal where
  home : Disk
  commits : List (List Nat × Disk)

@[ext]
structure FsState where
  disk : Disk
  log : List Nat
  journal : Journal
  itable : Nat → Inode
  ftable : Nat → File
  proc : Nat → Option ProcFiles
  gen : Nat → Nat
  stamp : Nat → Nat → Nat

abbrev FsM := Prog FsState Stop

def setInode (ip : Nat) (e : Inode) (s : FsState) : FsState :=
  { s with itable := upd s.itable ip e }

def setFile (f : Nat) (ff : File) (s : FsState) : FsState :=
  { s with ftable := upd s.ftable f ff }

def setProc (p : Nat) (files : Option ProcFiles) (s : FsState) : FsState :=
  { s with proc := upd s.proc p files }

/-- Run a program of `Fs.Blocks` on an inode of the table. -/
def onInode {α : Type} (ip : Nat) (m : InodeM α) : FsM α :=
  zoom
    (fun s =>
      { inum := (s.itable ip).inum, ip := (s.itable ip).din, disk := s.disk, log := s.log })
    (fun f s =>
      { setInode ip { s.itable ip with din := f.ip } s with disk := f.disk, log := f.log }) m

/-! ## Transactions -/

def beginOp : FsM Unit := modify fun s => { s with log := [] }

/-- The home locations after the blocks of `log` are installed. -/
def install (disk : Disk) (log : List Nat) (home : Disk) : Disk := fun b =>
  if b ∈ log then disk b else home b

def Journal.commit (j : Journal) (disk : Disk) (log : List Nat) : Journal where
  home := install disk log j.home
  commits := (log, install disk log j.home) :: j.commits

def endOp : FsM Unit :=
  modify fun s => { s with log := [], journal := s.journal.commit s.disk s.log }

/-- `begin_op(); m; end_op();`, whichever way `m` is left. -/
def transaction {α : Type} (m : FsM α) : FsM α := do
  beginOp
  let r ← m
  endOp
  return r

/-! ## The inode table -/

/-- The loop of `iget`: the entry with this number, if any, and the first empty one
passed on the way. -/
def igetScan (itable : Nat → Inode) (inum : Nat) : Nat → Nat → Option Nat → Option Nat × Option Nat
  | _, 0, empty => (none, empty)
  | ip, n + 1, empty =>
      if 0 < (itable ip).ref ∧ (itable ip).inum = inum then (some ip, empty)
      else igetScan itable inum (ip + 1) n
        (if empty = none ∧ (itable ip).ref = 0 then some ip else empty)

def addRef (ip : Nat) (s : FsState) : FsState :=
  setInode ip { s.itable ip with ref := (s.itable ip).ref + 1 } s

def iget (inum : Nat) : FsM Nat := do
  let s ← get
  match igetScan s.itable inum 0 NINODE none with
  | (some ip, _) =>
      modify (addRef ip)
      return ip
  | (none, some ip) =>
      modify fun s =>
        setInode ip { s.itable ip with inum := inum, ref := 1, valid := false } s
      return ip
  | (none, none) => throw .igetNoInodes

def idup (ip : Nat) : FsM Nat := do
  modify (addRef ip)
  return ip

def ilock (sb : Superblock) (ip : Nat) : FsM Unit := do
  let s ← get
  let e := s.itable ip
  if e.ref < 1 then throw .ilock
  else if e.locked then throw .deadlock
  else if e.valid then set (setInode ip { e with locked := true } s)
  else
    let d := dinode sb s.disk e.inum
    set (setInode ip { e with locked := true, valid := true, din := d } s)
    if d.type = 0 then throw .ilockNoType

def iunlock (ip : Nat) : FsM Unit := do
  let s ← get
  let e := s.itable ip
  if e.locked = false ∨ e.ref < 1 then throw .iunlock
  else set (setInode ip { e with locked := false } s)

/-- The body of the `if` in `iput`, between `acquiresleep` and `releasesleep`. -/
def iputFree (sb : Superblock) (ip : Nat) : FsM Unit := do
  onInode ip (itrunc sb)
  onInode ip (modify fun f => { f with ip := { f.ip with type := 0 } })
  onInode ip (iupdate sb)
  modify fun s => setInode ip { s.itable ip with valid := false } s

def iput (sb : Superblock) (ip : Nat) : FsM Unit := do
  let s ← get
  let e := s.itable ip
  if e.ref = 1 ∧ e.valid ∧ e.din.nlink = 0 then
    if e.locked then throw .deadlock else iputFree sb ip
  modify fun s => setInode ip { s.itable ip with ref := (s.itable ip).ref - 1 } s

def iunlockput (sb : Superblock) (ip : Nat) : FsM Unit := do
  iunlock ip
  iput sb ip

/-- The loop of `ialloc`. -/
def freeInode (sb : Superblock) (disk : Disk) : Nat → Nat → Option Nat
  | _, 0 => none
  | inum, n + 1 =>
      if (dinode sb disk inum).type = 0 then some inum else freeInode sb disk (inum + 1) n

/-- `memset(dip, 0, sizeof(*dip)); dip->type = type;` -/
def freshDinode (type : Nat) : Dinode := ⟨type, 0, 0, 0, 0, fun _ => 0⟩

def ialloc (sb : Superblock) (type : Nat) : FsM (Option Nat) := do
  let s ← get
  match freeInode sb s.disk 1 (sb.ninodes - 1) with
  | none => return none
  | some inum =>
      set { s with
        disk := setDinode sb s.disk inum (freshDinode type)
        log := absorb (IBLOCK sb inum) s.log
        gen := upd s.gen inum (s.gen inum + 1) }
      let ip ← iget inum
      return some ip

/-- A change of fields of a locked inode, followed by `iupdate`. -/
def changeInode (sb : Superblock) (ip : Nat) (change : Dinode → Dinode) : FsM Unit :=
  onInode ip do
    modify fun f => { f with ip := change f.ip }
    iupdate sb

/-! ## Directories -/

/-- `strncmp(p, q, n) == 0`, from index `i` on. -/
def strncmpEq (p q : Bytes) : Nat → Nat → Bool
  | _, 0 => true
  | i, n + 1 => if p i ≠ 0 ∧ p i = q i then strncmpEq p q (i + 1) n else p i = q i

/-- `namecmp(s, t) == 0` -/
def namecmp (s t : Bytes) : Bool := strncmpEq s t 0 DIRSIZ

/-- What `strncpy` stores: the string, then zeros. -/
def strncpy (t : Bytes) : Bytes := fun i => if ∀ j < i, t j ≠ 0 then t i else 0

def direntInum (de : Bytes) : Nat := getLE de 0 2

def direntName (de : Bytes) : Bytes := fun i => de (2 + i)

/-- `strncpy(de.name, name, DIRSIZ); de.inum = inum;`, the inum cut to a `ushort`. -/
def mkDirent (inum : Nat) (name : Bytes) : Bytes :=
  putLE (fun i => strncpy name (i - 2)) 0 2 inum

def charName (cs : List UInt8) : Bytes := fun i => cs.getD i 0

def dot : Bytes := charName [46]

def dotdot : Bytes := charName [46, 46]

def dirlookupLoop (sb : Superblock) (dp : Nat) (name : Bytes) : Nat → Nat → FsM (Option (Nat × Nat))
  | 0, _ => return none
  | fuel + 1, off => do
      let s ← get
      if off < (s.itable dp).din.size then
        let (r, de) ← onInode dp (readi sb (fun _ => true) off 16)
        if r ≠ 16 then throw .dirlookupRead
        else if direntInum de = 0 then dirlookupLoop sb dp name fuel (off + 16)
        else if namecmp name (direntName de) then
          let ip ← iget (direntInum de)
          return some (ip, off)
        else dirlookupLoop sb dp name fuel (off + 16)
      else return none

/-- `dirlookup`: the inode and the offset of the entry. -/
def dirlookup (sb : Superblock) (dp : Nat) (name : Bytes) : FsM (Option (Nat × Nat)) := do
  let s ← get
  if (s.itable dp).din.type ≠ T_DIR then throw .dirlookupNotDir
  else dirlookupLoop sb dp name ((s.itable dp).din.size / 16 + 1) 0

/-- "Look for an empty dirent." -/
def emptyDirent (sb : Superblock) (dp : Nat) : Nat → Nat → FsM Nat
  | 0, off => return off
  | fuel + 1, off => do
      let s ← get
      if off < (s.itable dp).din.size then
        let (r, de) ← onInode dp (readi sb (fun _ => true) off 16)
        if r ≠ 16 then throw .dirlinkRead
        else if direntInum de = 0 then return off
        else emptyDirent sb dp fuel (off + 16)
      else return off

/-- The entry at `off` of directory `d` now names the present inode `inum`. -/
def noteEntry (d off inum : Nat) (s : FsState) : FsState :=
  { s with stamp := upd s.stamp d (upd (s.stamp d) off (s.gen inum)) }

/-- `dirlink`; true stands for 0 and false for -1. -/
def dirlink (sb : Superblock) (dp : Nat) (name : Bytes) (inum : Nat) : FsM Bool := do
  match ← dirlookup sb dp name with
  | some (ip, _) =>
      iput sb ip
      return false
  | none =>
      let s ← get
      let off ← emptyDirent sb dp ((s.itable dp).din.size / 16 + 1) 0
      let r ← onInode dp (writei sb (fun i => some (mkDirent inum name i)) off 16)
      if r ≠ 16 then return false
      else
        modify fun s => noteEntry (s.itable dp).inum off inum s
        return true

def isdiremptyLoop (sb : Superblock) (dp : Nat) : Nat → Nat → FsM Bool
  | 0, _ => return true
  | fuel + 1, off => do
      let s ← get
      if off < (s.itable dp).din.size then
        let (r, de) ← onInode dp (readi sb (fun _ => true) off 16)
        if r ≠ 16 then throw .isdiremptyReadi
        else if direntInum de ≠ 0 then return false
        else isdiremptyLoop sb dp fuel (off + 16)
      else return true

def isdirempty (sb : Superblock) (dp : Nat) : FsM Bool := do
  let s ← get
  isdiremptyLoop sb dp ((s.itable dp).din.size / 16 + 1) 32

/-! ## Paths -/

/-- A path as `argstr` delivers it, without its terminating NUL. -/
abbrev Path := List UInt8

def slash : UInt8 := 47

/-- `skipelem`: the name of the first element and the path behind it. -/
def skipelem (path : Path) : Option (Bytes × Path) :=
  match path.dropWhile (· == slash) with
  | [] => none
  | c :: cs =>
      some (charName (((c :: cs).takeWhile (· != slash)).take DIRSIZ),
        ((c :: cs).dropWhile (· != slash)).dropWhile (· == slash))

def namexLoop (sb : Superblock) (nameiparent : Bool) :
    Nat → Nat → Path → FsM (Option (Nat × Bytes))
  | 0, _, _ => return none
  | fuel + 1, ip, path =>
      match skipelem path with
      | none =>
          if nameiparent then do
            iput sb ip
            return none
          else return some (ip, fun _ => 0)
      | some (name, path) => do
          ilock sb ip
          let s ← get
          if (s.itable ip).din.type ≠ T_DIR then
            iunlockput sb ip
            return none
          else if nameiparent ∧ path = [] then
            iunlock ip
            return some (ip, name)
          else
            match ← dirlookup sb ip name with
            | none =>
                iunlockput sb ip
                return none
            | some (next, _) =>
                iunlockput sb ip
                namexLoop sb nameiparent fuel next path

/-- `namex` for a process whose working directory is `cwd`. -/
def namex (sb : Superblock) (cwd : Nat) (path : Path) (nameiparent : Bool) :
    FsM (Option (Nat × Bytes)) := do
  let ip ← if path.head? = some slash then iget ROOTINO else idup cwd
  namexLoop sb nameiparent (path.length + 1) ip path

def namei (sb : Superblock) (cwd : Nat) (path : Path) : FsM (Option Nat) := do
  let r ← namex sb cwd path false
  return r.map Prod.fst

def nameiparent (sb : Superblock) (cwd : Nat) (path : Path) : FsM (Option (Nat × Bytes)) :=
  namex sb cwd path true

end Xv6Fcfs.Fs
