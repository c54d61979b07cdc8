import Xv6Fcfs.Lib.Runs
import Xv6Fcfs.Fs.Model

/-!
# The file-system calls

`kernel/file.c` and `kernel/sysfile.c` with what `kfork` and `kexit` do to files.  The
arguments of a call are what the kernel can fetch: a path is missing when `argstr` fails,
and user buffers are given by the bytes that can be stored or read.  `io` stands for a
result that the file system does not decide.
-/

set_option autoImplicit false

namespace Xv6Fcfs.Fs

open Xv6Fcfs.Lib

/-! ## Open files -/

def freeFile (ftable : Nat → File) : Nat → Nat → Option Nat
  | _, 0 => none
  | f, n + 1 => if (ftable f).ref = 0 then some f else freeFile ftable (f + 1) n

def filealloc : FsM (Option Nat) := do
  let s ← get
  match freeFile s.ftable 0 NFILE with
  | none => return none
  | some f =>
      set (setFile f { s.ftable f with ref := 1 } s)
      return some f

def filedup (f : Nat) : FsM Unit := do
  let s ← get
  if (s.ftable f).ref < 1 then throw .filedup
  else set (setFile f { s.ftable f with ref := (s.ftable f).ref + 1 } s)

/-- `fileclose`; `pipeclose` does not touch the file system. -/
def fileclose (sb : Superblock) (f : Nat) : FsM Unit := do
  let s ← get
  let ff := s.ftable f
  if ff.ref < 1 then throw .fileclose
  else if 1 < ff.ref then set (setFile f { ff with ref := ff.ref - 1 } s)
  else
    set (setFile f { ff with ref := 0, type := .none } s)
    if ff.type = .inode ∨ ff.type = .device then transaction (iput sb ff.ip)

/-- An `int` passed as a `uint`. -/
def toU32 (n : Int) : Nat := (n % 2 ^ 32).toNat

/-- `f->off += r` if `r > 0` -/
def advance (f : Nat) (r : Int) (s : FsState) : FsState :=
  if 0 < r then setFile f { s.ftable f with off := (s.ftable f).off + r.toNat } s else s

/-- `fileread`; `io` is what a pipe or a device returns. -/
def fileread (sb : Superblock) (f : Nat) (writable : Nat → Bool) (n io : Int) : FsM Int := do
  let s ← get
  let ff := s.ftable f
  if ff.readable = false then return -1
  else
    match ff.type with
    | .pipe => return io
    | .device => return io
    | .inode =>
        ilock sb ff.ip
        let (r, _) ← onInode ff.ip (readi sb writable ff.off (toU32 n))
        modify (advance f r)
        iunlock ff.ip
        return r
    | .none => throw .fileread

/-- `((MAXOPBLOCKS-1-1-2) / 2) * BSIZE` -/
def writeMax : Nat := (MAXOPBLOCKS - 1 - 1 - 2) / 2 * BSIZE

/-- One transaction of `filewrite`. -/
def filewriteChunk (sb : Superblock) (f : Nat) (src : Nat → Option UInt8) (n1 : Nat) : FsM Int := do
  let s ← get
  let ip := (s.ftable f).ip
  ilock sb ip
  let r ← onInode ip (writei sb src (s.ftable f).off n1)
  modify (advance f r)
  iunlock ip
  return r

/-- The loop of `filewrite`; the result is `i`. -/
def filewriteLoop (sb : Superblock) (f : Nat) (src : Nat → Option UInt8) (n : Nat) :
    Nat → Nat → FsM Nat
  | 0, i => return i
  | fuel + 1, i =>
      if i < n then do
        let n1 := min (n - i) writeMax
        let r ← transaction (filewriteChunk sb f (fun j => src (i + j)) n1)
        if r ≠ n1 then return i
        else filewriteLoop sb f src n fuel (i + n1)
      else return i

def filewrite (sb : Superblock) (f : Nat) (src : Nat → Option UInt8) (n io : Int) : FsM Int := do
  let s ← get
  let ff := s.ftable f
  if ff.writable = false then return -1
  else
    match ff.type with
    | .pipe => return io
    | .device => return io
    | .inode =>
        let i ← filewriteLoop sb f src n.toNat n.toNat 0
        if (i : Int) = n then return n else return -1
    | .none => throw .filewrite

/-! ## Descriptors -/

def argfd (files : ProcFiles) (fd : Int) : Option Nat :=
  if fd < 0 ∨ NOFILE ≤ fd then none else files.ofile fd.toNat

def freeFd (ofile : Nat → Option Nat) : Nat → Nat → Option Nat
  | _, 0 => none
  | fd, n + 1 => if ofile fd = none then some fd else freeFd ofile (fd + 1) n

def setFd (p fd : Nat) (f : Option Nat) (s : FsState) : FsState :=
  match s.proc p with
  | some files => setProc p (some { files with ofile := upd files.ofile fd f }) s
  | none => s

def fdalloc (p : Nat) (files : ProcFiles) (f : Nat) : FsM (Option Nat) :=
  match freeFd files.ofile 0 NOFILE with
  | none => return none
  | some fd => do
      modify (setFd p fd (some f))
      return some fd

/-! ## `create`, `link` and `unlink` -/

/-- The part of `create` for a name that exists. -/
def createExisting (sb : Superblock) (dp ip type : Nat) : FsM (Option Nat) := do
  iunlockput sb dp
  ilock sb ip
  let s ← get
  let found := (s.itable ip).din.type
  if type = T_FILE ∧ (found = T_FILE ∨ found = T_DEVICE) then return some ip
  else
    iunlockput sb ip
    return none

/-- `dirlink` of `.` and `..` in a new directory and of `name` in its parent. -/
def createEntries (sb : Superblock) (dp ip : Nat) (name : Bytes) (type : Nat) : FsM Bool := do
  let s ← get
  let inum := (s.itable ip).inum
  let parent := (s.itable dp).inum
  if type = T_DIR then
    if ← dirlink sb ip dot inum then
      if ← dirlink sb ip dotdot parent then dirlink sb dp name inum
      else return false
    else return false
  else dirlink sb dp name inum

def createNew (sb : Superblock) (dp : Nat) (name : Bytes) (type major minor : Nat) :
    FsM (Option Nat) := do
  match ← ialloc sb type with
  | none =>
      iunlockput sb dp
      return none
  | some ip =>
      ilock sb ip
      changeInode sb ip fun d => { d with major := major, minor := minor, nlink := 1 }
      if ← createEntries sb dp ip name type then
        if type = T_DIR then
          changeInode sb dp fun d => { d with nlink := (d.nlink + 1) % 2 ^ 16 }
        iunlockput sb dp
        return some ip
      else
        changeInode sb ip fun d => { d with nlink := 0 }
        iunlockput sb ip
        iunlockput sb dp
        return none

def create (sb : Superblock) (cwd : Nat) (path : Path) (type major minor : Nat) :
    FsM (Option Nat) := do
  match ← nameiparent sb cwd path with
  | none => return none
  | some (dp, name) =>
      ilock sb dp
      match ← dirlookup sb dp name with
      | some (ip, _) => createExisting sb dp ip type
      | none => createNew sb dp name type major minor

/-- The label `bad` of `sys_link`. -/
def linkBad (sb : Superblock) (ip : Nat) : FsM Int := do
  ilock sb ip
  changeInode sb ip fun d => { d with nlink := (d.nlink + (2 ^ 16 - 1)) % 2 ^ 16 }
  iunlockput sb ip
  return -1

def sysLink (sb : Superblock) (cwd : Nat) (old new : Path) : FsM Int := do
  match ← namei sb cwd old with
  | none => return -1
  | some ip =>
      ilock sb ip
      let s ← get
      if (s.itable ip).din.type = T_DIR then
        iunlockput sb ip
        return -1
      else
        changeInode sb ip fun d => { d with nlink := (d.nlink + 1) % 2 ^ 16 }
        iunlock ip
        match ← nameiparent sb cwd new with
        | none => linkBad sb ip
        | some (dp, name) =>
            ilock sb dp
            if ← dirlink sb dp name (s.itable ip).inum then
              iunlockput sb dp
              iput sb ip
              return 0
            else
              iunlockput sb dp
              linkBad sb ip

/-- `sys_unlink` once the entry of `ip` is found at `off` and `ip` is locked. -/
def unlinkEntry (sb : Superblock) (dp ip off : Nat) : FsM Int := do
  let s ← get
  let d := (s.itable ip).din
  if short d.nlink < 1 then throw .unlinkNlink
  else
    let empty ← if d.type = T_DIR then isdirempty sb ip else pure true
    if empty = false then
      iunlockput sb ip
      iunlockput sb dp
      return -1
    else
      let r ← onInode dp (writei sb (fun _ => some 0) off 16)
      if r ≠ 16 then throw .unlinkWritei
      else
        if d.type = T_DIR then
          changeInode sb dp fun d => { d with nlink := (d.nlink + (2 ^ 16 - 1)) % 2 ^ 16 }
        iunlockput sb dp
        changeInode sb ip fun d => { d with nlink := (d.nlink + (2 ^ 16 - 1)) % 2 ^ 16 }
        iunlockput sb ip
        return 0

def sysUnlink (sb : Superblock) (cwd : Nat) (path : Path) : FsM Int := do
  match ← nameiparent sb cwd path with
  | none => return -1
  | some (dp, name) =>
      ilock sb dp
      if namecmp name dot ∨ namecmp name dotdot then
        iunlockput sb dp
        return -1
      else
        match ← dirlookup sb dp name with
        | none =>
            iunlockput sb dp
            return -1
        | some (ip, off) =>
            ilock sb ip
            unlinkEntry sb dp ip off

/-! ## `open` -/

/-- `omode & flag`, for a flag of one bit -/
def hasFlag (omode flag : Nat) : Bool := omode &&& flag ≠ 0

/-- The part of `sys_open` for a path that must exist. -/
def openExisting (sb : Superblock) (cwd : Nat) (path : Path) (omode : Nat) :
    FsM (Option Nat) := do
  match ← namei sb cwd path with
  | none => return none
  | some ip =>
      ilock sb ip
      let s ← get
      if (s.itable ip).din.type = T_DIR ∧ omode ≠ 0 then
        iunlockput sb ip
        return none
      else return some ip

/-- The fields `sys_open` fills in; the offset of a device file stays as it was. -/
def openedFile (d : Dinode) (ip omode : Nat) (old : File) : File :=
  { old with
    type := if d.type = T_DEVICE then .device else .inode
    major := if d.type = T_DEVICE then d.major else old.major
    off := if d.type = T_DEVICE then old.off else 0
    ip := ip
    readable := !hasFlag omode O_WRONLY
    writable := hasFlag omode O_WRONLY || hasFlag omode O_RDWR }

/-- `sys_open` from the locked inode on. -/
def openInode (sb : Superblock) (p : Nat) (files : ProcFiles) (ip omode : Nat) : FsM Int := do
  let s ← get
  let d := (s.itable ip).din
  if d.type = T_DEVICE ∧ (short d.major < 0 ∨ NDEV ≤ short d.major) then
    iunlockput sb ip
    return -1
  else
    match ← filealloc with
    | none =>
        iunlockput sb ip
        return -1
    | some f =>
        match ← fdalloc p files f with
        | none =>
            fileclose sb f
            iunlockput sb ip
            return -1
        | some fd =>
            modify fun s => setFile f (openedFile d ip omode (s.ftable f)) s
            if hasFlag omode O_TRUNC ∧ d.type = T_FILE then onInode ip (itrunc sb)
            iunlock ip
            return fd

def sysOpen (sb : Superblock) (p : Nat) (files : ProcFiles) (path : Path) (omode : Nat) :
    FsM Int := do
  let found ← if hasFlag omode O_CREATE then create sb files.cwd path T_FILE 0 0
    else openExisting sb files.cwd path omode
  match found with
  | none => return -1
  | some ip => openInode sb p files ip omode

/-! ## The other calls -/

/-- `sys_mkdir` and `sys_mknod` behind their arguments. -/
def makeNode (sb : Superblock) (cwd : Nat) (path : Path) (type major minor : Nat) : FsM Int := do
  match ← create sb cwd path type major minor with
  | none => return -1
  | some ip =>
      iunlockput sb ip
      return 0

/-- The transaction of `sys_chdir`. -/
def chdirLookup (sb : Superblock) (cwd : Nat) (path : Path) : FsM (Option Nat) := do
  match ← namei sb cwd path with
  | none => return none
  | some ip =>
      ilock sb ip
      let s ← get
      if (s.itable ip).din.type ≠ T_DIR then
        iunlockput sb ip
        return none
      else
        iunlock ip
        iput sb cwd
        return some ip

def sysChdir (sb : Superblock) (p : Nat) (files : ProcFiles) (path : Path) : FsM Int := do
  match ← transaction (chdirLookup sb files.cwd path) with
  | none => return -1
  | some ip =>
      modify (setProc p (some { files with cwd := ip }))
      return 0

/-- The reads of `kexec`, which end at the first that does not deliver what it asks for. -/
def execReads (sb : Superblock) (ip : Nat) : List (UInt32 × UInt32) → FsM Unit
  | [] => return
  | (off, n) :: rest => do
      let (r, _) ← onInode ip (readi sb (fun _ => true) off.toNat n.toNat)
      if r ≠ n.toNat then return else execReads sb ip rest

/-- `kexec` as far as it works on the file: the header, the program headers and the
segments are read, at the places and lengths that `reads` tells. -/
def execLookup (sb : Superblock) (cwd : Nat) (path : Path) (reads : List (UInt32 × UInt32)) :
    FsM Bool := do
  match ← namei sb cwd path with
  | none => return false
  | some ip =>
      ilock sb ip
      execReads sb ip reads
      iunlockput sb ip
      return true

def sysClose (sb : Superblock) (p : Nat) (files : ProcFiles) (fd : Int) : FsM Int :=
  match argfd files fd with
  | none => return -1
  | some f => do
      modify (setFd p fd.toNat none)
      fileclose sb f
      return 0

def sysDup (p : Nat) (files : ProcFiles) (fd : Int) : FsM Int :=
  match argfd files fd with
  | none => return -1
  | some f => do
      match ← fdalloc p files f with
      | none => return -1
      | some fd' =>
          filedup f
          return fd'

def sysRead (sb : Superblock) (files : ProcFiles) (fd n : Int) (writable : Nat → Bool) (io : Int) :
    FsM Int :=
  match argfd files fd with
  | none => return -1
  | some f => fileread sb f writable n io

def sysWrite (sb : Superblock) (files : ProcFiles) (fd n : Int) (src : Nat → Option UInt8)
    (io : Int) : FsM Int :=
  match argfd files fd with
  | none => return -1
  | some f => filewrite sb f src n io

/-- The loop of `kfork` over the descriptors. -/
def forkFd (files : ProcFiles) (fd : Nat) : FsM Unit :=
  match files.ofile fd with
  | none => return
  | some f => filedup f

/-- `kfork` into the slot `child` of the process table. -/
def kfork (files : ProcFiles) (child : Nat) : FsM Int := do
  let s ← get
  if NPROC ≤ child ∨ (s.proc child).isSome then return -1
  else
    forFrom (forkFd files) 0 NOFILE
    let cwd ← idup files.cwd
    modify (setProc child (some { files with cwd := cwd }))
    return child

/-- The loop of `kexit` over the descriptors. -/
def exitFd (sb : Superblock) (p : Nat) (files : ProcFiles) (fd : Nat) : FsM Unit :=
  match files.ofile fd with
  | none => return
  | some f => do
      fileclose sb f
      modify (setFd p fd none)

/-- `kexit`; process 0 is `initproc`. -/
def kexit (sb : Superblock) (p : Nat) (files : ProcFiles) : FsM Int := do
  if p = 0 then throw .initExiting
  else
    forFrom (exitFd sb p files) 0 NOFILE
    transaction (iput sb files.cwd)
    modify (setProc p none)
    return 0

inductive Call where
  | open (path : Option Path) (omode : Nat)
  | read (fd n : Int) (writable : Nat → Bool) (io : Int)
  | write (fd n : Int) (src : Nat → Option UInt8) (io : Int)
  | mkdir (path : Option Path)
  | mknod (path : Option Path) (major minor : Nat)
  | link (old new : Option Path)
  | unlink (path : Option Path)
  | chdir (path : Option Path)
  | exec (path : Option Path) (reads : List (UInt32 × UInt32)) (io : Int)
  | close (fd : Int)
  | dup (fd : Int)
  | fork (child : Nat)
  | exit

/-- A call by process `p`, which holds `files`.  `sys_mkdir`, `sys_mknod` and `sys_chdir`
fetch their arguments inside the transaction. -/
def runCall (sb : Superblock) (p : Nat) (files : ProcFiles) : Call → FsM Int
  | .open (some path) omode => transaction (sysOpen sb p files path omode)
  | .open none _ => return -1
  | .read fd n writable io => sysRead sb files fd n writable io
  | .write fd n src io => sysWrite sb files fd n src io
  | .mkdir (some path) => transaction (makeNode sb files.cwd path T_DIR 0 0)
  | .mkdir none => transaction (return -1)
  | .mknod (some path) major minor =>
      transaction (makeNode sb files.cwd path T_DEVICE (major % 2 ^ 16) (minor % 2 ^ 16))
  | .mknod none _ _ => transaction (return -1)
  | .link (some old) (some new) => transaction (sysLink sb files.cwd old new)
  | .link _ _ => return -1
  | .unlink (some path) => transaction (sysUnlink sb files.cwd path)
  | .unlink none => return -1
  | .chdir (some path) => sysChdir sb p files path
  | .chdir none => transaction (return -1)
  | .exec (some path) reads io => do
      let found ← transaction (execLookup sb files.cwd path reads)
      return if found then io else -1
  | .exec none _ _ => return -1
  | .close fd => sysClose sb p files fd
  | .dup fd => sysDup p files fd
  | .fork child => kfork files child
  | .exit => kexit sb p files

/-- Process `p` calls; a call that does not complete leaves no state. -/
def step (sb : Superblock) (s : FsState) (e : Nat × Call) : Option FsState :=
  match s.proc e.1 with
  | none => none
  | some files =>
      match runCall sb e.1 files e.2 s with
      | .ok (_, s') => some s'
      | .error _ => none

end Xv6Fcfs.Fs
