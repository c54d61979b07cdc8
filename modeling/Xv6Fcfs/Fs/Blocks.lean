import Xv6Fcfs.Lib.Wp
import Xv6Fcfs.Fs.Layout

/-!
# Blocks and inode contents of `kernel/fs.c`

`balloc`, `bfree`, `iupdate`, `bmap`, `itrunc`, `readi` and `writei` touch one inode in
memory and the disk, and pass block numbers to `log_write`.  They are programs over these
three.
-/

set_option autoImplicit false

namespace Xv6Fcfs.Fs

open Xv6Fcfs.Lib

/-- How a call can end without returning: a `panic`, or sleeping for ever on a lock
that the sleeper holds itself. -/
inductive Stop where
  | freeingFreeBlock
  | igetNoInodes
  | ilock
  | ilockNoType
  | iunlock
  | bmapOutOfRange
  | dirlookupNotDir
  | dirlookupRead
  | dirlinkRead
  | isdiremptyReadi
  | unlinkNlink
  | unlinkWritei
  | filedup
  | fileclose
  | fileread
  | filewrite
  | initExiting
  | deadlock
  deriving DecidableEq

/-- `struct inode *ip`, with what `fs.c` caches of its dinode, the disk, and the blocks
that the transaction has passed to `log_write`. -/
structure FileState where
  inum : Nat
  ip : Dinode
  disk : Disk
  log : List Nat

abbrev InodeM := Prog FileState Stop

/-- The loop of `log_write` over `log.lh.block`: a block is listed once. -/
def absorb (b : Nat) (log : List Nat) : List Nat := if b ∈ log then log else b :: log

def logWrite (b : Nat) (f : FileState) : FileState := { f with log := absorb b f.log }

/-- A buffer is changed without `log_write`. -/
def storeBlock (b : Nat) (data : Block) (f : FileState) : FileState :=
  { f with disk := upd f.disk b data }

/-- A buffer is changed and passed to `log_write`. -/
def writeBlock (b : Nat) (data : Block) (f : FileState) : FileState :=
  { f with disk := upd f.disk b data, log := absorb b f.log }

def setAddr (k addr : Nat) (f : FileState) : FileState :=
  { f with ip := { f.ip with addrs := upd f.ip.addrs k addr } }

def setSize (size : Nat) (f : FileState) : FileState :=
  { f with ip := { f.ip with size := size } }

/-! ## Blocks -/

def bzero (b : Nat) : InodeM Unit := modify (writeBlock b fun _ => 0)

/-- The inner loop of `balloc` on one block of the free map, from bit `bi` on. -/
def freeBit (sb : Superblock) (data : Block) (b : Nat) : Nat → Nat → Option Nat
  | _, 0 => none
  | bi, n + 1 =>
      if b + bi < sb.size then
        if testBit data bi then freeBit sb data b (bi + 1) n else some bi
      else none

/-- The outer loop of `balloc`. -/
def freeBlock (sb : Superblock) (disk : Disk) : Nat → Nat → Option (Nat × Nat)
  | _, 0 => none
  | b, n + 1 =>
      if b < sb.size then
        match freeBit sb (disk (BBLOCK sb b)) b 0 BPB with
        | some bi => some (b, bi)
        | none => freeBlock sb disk (b + BPB) n
      else none

def balloc (sb : Superblock) : InodeM Nat := do
  let f ← get
  match freeBlock sb f.disk 0 (sb.size / BPB + 1) with
  | none => return 0
  | some (b, bi) =>
      set (writeBlock (BBLOCK sb b) (setBit (f.disk (BBLOCK sb b)) bi) f)
      bzero (b + bi)
      return b + bi

def bfree (sb : Superblock) (b : Nat) : InodeM Unit := do
  let f ← get
  let bi := b % BPB
  if testBit (f.disk (BBLOCK sb b)) bi then
    set (writeBlock (BBLOCK sb b) (clearBit (f.disk (BBLOCK sb b)) bi) f)
  else throw .freeingFreeBlock

def iupdate (sb : Superblock) : InodeM Unit :=
  modify fun f =>
    { f with
      disk := setDinode sb f.disk f.inum f.ip
      log := absorb (IBLOCK sb f.inum) f.log }

/-! ## The blocks of an inode -/

/-- `if ((addr = ip->addrs[k]) == 0) { addr = balloc(..); .. ip->addrs[k] = addr; }` -/
def bmapAddr (sb : Superblock) (k : Nat) : InodeM Nat := do
  let f ← get
  if f.ip.addrs k = 0 then
    let addr ← balloc sb
    if addr = 0 then return 0
    else
      modify (setAddr k addr)
      return addr
  else return f.ip.addrs k

/-- `if ((addr = a[bn]) == 0) ..` on the indirect block at `a`. -/
def bmapEntry (sb : Superblock) (a bn : Nat) : InodeM Nat := do
  let f ← get
  if indirect (f.disk a) bn = 0 then
    let addr ← balloc sb
    if addr = 0 then return 0
    else
      modify fun f => writeBlock a (putLE (f.disk a) (4 * bn) 4 addr) f
      return addr
  else return indirect (f.disk a) bn

def bmap (sb : Superblock) (bn : Nat) : InodeM Nat :=
  if bn < NDIRECT then bmapAddr sb bn
  else if bn - NDIRECT < NINDIRECT then do
    let addr ← bmapAddr sb NDIRECT
    if addr = 0 then return 0 else bmapEntry sb addr (bn - NDIRECT)
  else throw .bmapOutOfRange

def itruncDirect (sb : Superblock) (i : Nat) : InodeM Unit := do
  let f ← get
  if f.ip.addrs i = 0 then return
  else
    bfree sb (f.ip.addrs i)
    modify (setAddr i 0)

def itruncEntry (sb : Superblock) (a : Block) (j : Nat) : InodeM Unit :=
  if indirect a j = 0 then return else bfree sb (indirect a j)

def itruncIndirect (sb : Superblock) : InodeM Unit := do
  let f ← get
  if f.ip.addrs NDIRECT = 0 then return
  else
    forFrom (itruncEntry sb (f.disk (f.ip.addrs NDIRECT))) 0 NINDIRECT
    bfree sb (f.ip.addrs NDIRECT)
    modify (setAddr NDIRECT 0)

def itrunc (sb : Superblock) : InodeM Unit := do
  forFrom (itruncDirect sb) 0 NDIRECT
  itruncIndirect sb
  modify (setSize 0)
  iupdate sb

/-! ## Contents -/

def addU32 (off n : Nat) : Nat := (off + n) % 2 ^ 32

/-- What one turn of `readi` and `writei` moves. -/
def chunk (n tot off : Nat) : Nat := min (n - tot) (BSIZE - off % BSIZE)

/-- `m` bytes of `src` from `o` on copied to `dst + tot`. -/
def copyBytes (dst src : Bytes) (tot o m : Nat) : Bytes := fun i =>
  if tot ≤ i ∧ i < tot + m then src (o + (i - tot)) else dst i

/-- The loop of `readi`.  `writable` tells the bytes of the destination that
`either_copyout` can store; the result is `tot` and the destination. -/
def readLoop (sb : Superblock) (writable : Nat → Bool) (n : Nat) :
    Nat → Nat → Nat → Bytes → InodeM (Int × Bytes)
  | 0, tot, _, dst => return (tot, dst)
  | fuel + 1, tot, off, dst =>
      if tot < n then do
        let addr ← bmap sb (off / BSIZE)
        if addr = 0 then return (tot, dst)
        else
          let f ← get
          let m := chunk n tot off
          if ∀ j < m, writable (tot + j) then
            readLoop sb writable n fuel (tot + m) (off + m)
              (copyBytes dst (f.disk addr) tot (off % BSIZE) m)
          else return (-1, dst)
      else return (tot, dst)

def readi (sb : Superblock) (writable : Nat → Bool) (off n : Nat) : InodeM (Int × Bytes) := do
  let f ← get
  if f.ip.size < off ∨ addU32 off n < off then return (0, fun _ => 0)
  else
    let n := if f.ip.size < addU32 off n then f.ip.size - off else n
    readLoop sb writable n n 0 off fun _ => 0

/-- `either_copyin` of `m` bytes at `src + tot` to offset `o` of a buffer: bytes in front
of the first unreadable one arrive even when the copy fails. -/
def copyin (src : Nat → Option UInt8) (tot o m : Nat) (data : Block) : Block := fun i =>
  if o ≤ i ∧ i < o + m ∧ ∀ j < i - o + 1, (src (tot + j)).isSome then
    (src (tot + (i - o))).getD 0
  else data i

def writeLoop (sb : Superblock) (src : Nat → Option UInt8) (n : Nat) :
    Nat → Nat → Nat → InodeM Nat
  | 0, tot, _ => return tot
  | fuel + 1, tot, off =>
      if tot < n then do
        let addr ← bmap sb (off / BSIZE)
        if addr = 0 then return tot
        else
          let m := chunk n tot off
          modify fun f => storeBlock addr (copyin src tot (off % BSIZE) m (f.disk addr)) f
          if ∀ j < m, (src (tot + j)).isSome then
            modify (logWrite addr)
            writeLoop sb src n fuel (tot + m) (off + m)
          else return tot
      else return tot

/-- `if (off > ip->size) ip->size = off;` -/
def growSize (off : Nat) (f : FileState) : FileState :=
  if f.ip.size < off then setSize off f else f

def writei (sb : Superblock) (src : Nat → Option UInt8) (off n : Nat) : InodeM Int := do
  let f ← get
  if f.ip.size < off ∨ addU32 off n < off then return -1
  else if MAXFILE * BSIZE < addU32 off n then return -1
  else
    let tot ← writeLoop sb src n n 0 off
    modify (growSize (off + tot))
    iupdate sb
    return tot

end Xv6Fcfs.Fs
