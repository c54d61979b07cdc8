import Xv6Fcfs.Lib.Bytes
import Xv6Fcfs.Lib.Runs
import Xv6Fcfs.Param

/-!
# The log of `kernel/log.c`

The disk survives a crash; the buffer cache, the header in memory and the counters
do not.  Each step writes at most one block, so the machine can stop between any two
block writes of `commit` and of recovery.  A buffer that is not pinned may be
recycled at any time.

`History` is not part of the program: it records what the operations asked for, so
that the disk can be compared with it.
-/

set_option autoImplicit false

namespace Xv6Fcfs.Log

open Xv6Fcfs.Lib

abbrev Block := Bytes
abbrev Disk := Nat → Block

/-- `struct logheader`; `block` is used below `LOGBLOCKS` only. -/
structure LogHeader where
  n : Int
  block : Nat → Nat

/-- How far the process in `commit()`, or recovery, has come. -/
inductive Phase where
  | running
  | writeLog (tail : Nat)
  | install (tail : Nat)
  | finishing
  | reading
  | reinstall (tail : Nat)
  deriving DecidableEq

structure LogSys where
  disk : Disk
  cache : Nat → Option Block
  refcnt : Nat → Nat
  lh : LogHeader
  outstanding : Int
  committing : Bool
  ncommit : Nat
  phase : Phase

def LogSys.reset (disk : Disk) (phase : Phase) : LogSys where
  disk := disk
  cache := fun _ => none
  refcnt := fun _ => 0
  lh := ⟨0, fun _ => 0⟩
  outstanding := 0
  committing := false
  ncommit := 0
  phase := phase

/-! ## Buffers -/

/-- `bread`: the contents of the block, which is cached from now on. -/
def bread (b : Nat) (s : LogSys) : Block × LogSys :=
  match s.cache b with
  | some data => (data, s)
  | none => (s.disk b, { s with cache := Function.update s.cache b (some (s.disk b)) })

/-- The buffer of block `b` is filled with `data` and written. -/
def bwrite (b : Nat) (data : Block) (s : LogSys) : LogSys :=
  { s with
    disk := Function.update s.disk b data
    cache := Function.update s.cache b (some data) }

def bpin (b : Nat) (s : LogSys) : LogSys :=
  { s with refcnt := Function.update s.refcnt b (s.refcnt b + 1) }

def bunpin (b : Nat) (s : LogSys) : LogSys :=
  { s with refcnt := Function.update s.refcnt b (s.refcnt b - 1) }

/-! ## The header block -/

def u32 (x : Int) : Nat := (x % 2 ^ 32).toNat

def s32 (v : Nat) : Int := if v < 2 ^ 31 then v else (v : Int) - 2 ^ 32

def readHead (start : Nat) (s : LogSys) : LogSys :=
  let (buf, s) := bread start s
  let n := s32 (getLE buf 0 4)
  { s with
    lh :=
      { n := n
        block := fun i => if i < n.toNat then getLE buf (4 + 4 * i) 4 else s.lh.block i } }

def headBytes (lh : LogHeader) (buf : Block) : Block :=
  (List.range lh.n.toNat).foldl (fun hb i => putLE hb (4 + 4 * i) 4 (lh.block i))
    (putLE buf 0 4 (u32 lh.n))

def writeHead (start : Nat) (s : LogSys) : LogSys :=
  let (buf, s) := bread start s
  bwrite start (headBytes s.lh buf) s

/-- `log.lh.n = 0; write_head();`. -/
def clearHead (start : Nat) (s : LogSys) : LogSys :=
  writeHead start { s with lh := { s.lh with n := 0 } }

/-! ## Commit and recovery -/

/-- One iteration of `write_log`. -/
def writeLogStep (start tail : Nat) (s : LogSys) : LogSys :=
  let (_, s) := bread (start + tail + 1) s
  let (data, s) := bread (s.lh.block tail) s
  bwrite (start + tail + 1) data s

/-- One iteration of `install_trans`. -/
def installStep (recovering : Bool) (start tail : Nat) (s : LogSys) : LogSys :=
  let (data, s) := bread (start + tail + 1) s
  let (_, s) := bread (s.lh.block tail) s
  let s := bwrite (s.lh.block tail) data s
  if recovering then s else bunpin (s.lh.block tail) s

/-- The steps of `commit()` and of the end of `end_op`. -/
def commitStep (start : Nat) (s : LogSys) : Option LogSys :=
  match s.phase with
  | .writeLog tail =>
      if (tail : Int) < s.lh.n then
        some { writeLogStep start tail s with phase := .writeLog (tail + 1) }
      else some { writeHead start s with phase := .install 0 }
  | .install tail =>
      if (tail : Int) < s.lh.n then
        some { installStep false start tail s with phase := .install (tail + 1) }
      else some { clearHead start s with phase := .finishing }
  | .finishing =>
      some { s with committing := false, ncommit := s.ncommit + 1, phase := .running }
  | _ => none

/-- The steps of `recover_from_log`. -/
def recoverStep (start : Nat) (s : LogSys) : Option LogSys :=
  match s.phase with
  | .reading => some { readHead start s with phase := .reinstall 0 }
  | .reinstall tail =>
      if (tail : Int) < s.lh.n then
        some { installStep true start tail s with phase := .reinstall (tail + 1) }
      else some { clearHead start s with phase := .running }
  | _ => none

/-- `recover_from_log` from beginning to end. -/
def recoverFromLog (start : Nat) (s : LogSys) : LogSys :=
  let s := readHead start s
  let s := (List.range s.lh.n.toNat).foldl (fun s tail => installStep true start tail s) s
  clearHead start s

/-- The disk after a machine that stopped with `disk` has recovered. -/
def recovered (start : Nat) (disk : Disk) : Disk :=
  (recoverFromLog start (LogSys.reset disk .reading)).disk

/-! ## Operations -/

/-- `begin_op`; `none` means that the caller sleeps. -/
def beginOp (s : LogSys) : Option LogSys :=
  if s.committing then none
  else if s.lh.n + (s.outstanding + 1) * MAXOPBLOCKS > LOGBLOCKS then none
  else some { s with outstanding := s.outstanding + 1 }

/-- The index at which the loop of `log_write` stops. -/
def absorbIdx (lh : LogHeader) (blockno : Nat) : Nat :=
  ((List.range lh.n.toNat).find? fun i => lh.block i == blockno).getD lh.n.toNat

/-- `log_write` of a buffer that the caller has filled with `data`; `none` is a
panic. -/
def logWrite (blockno : Nat) (data : Block) (s : LogSys) : Option LogSys :=
  let s := { s with cache := Function.update s.cache blockno (some data) }
  if s.lh.n ≥ (LOGBLOCKS : Int) then none
  else if s.outstanding < 1 then none
  else
    let i := absorbIdx s.lh blockno
    let s := { s with lh := { s.lh with block := Function.update s.lh.block i blockno } }
    if i = s.lh.n.toNat then
      let s := bpin blockno s
      some { s with lh := { s.lh with n := s.lh.n + 1 } }
    else some s

/-- `end_op` up to the first block write of `commit()`. -/
def endOp (s : LogSys) : Option LogSys :=
  let s := { s with outstanding := s.outstanding - 1 }
  if s.committing then none
  else if s.outstanding = 0 then
    some { s with
      committing := true
      phase := if s.lh.n > 0 then .writeLog 0 else .finishing }
  else some s

/-! ## Runs with a history -/

structure Write where
  op : Nat
  blockno : Nat
  data : Block

structure History where
  nextOp : Nat
  active : List Nat
  ended : List Nat
  issued : List Write
  current : List Write
  committed : List (List Write)

def History.empty : History := ⟨0, [], [], [], [], []⟩

def History.crash (h : History) : History := { h with active := [], current := [] }

/-- The header of the current transaction has reached the disk. -/
def History.commit (h : History) : History :=
  { h with current := [], committed := h.committed ++ [h.current] }

structure World where
  sys : LogSys
  hist : History

inductive Event where
  | beginOp
  | logWrite (op blockno : Nat) (data : Block)
  | endOp (op : Nat)
  | commit
  | bread (b : Nat)
  | evict (b : Nat)
  | crash
  | recover

def Home (start b : Nat) : Prop := b < start ∨ start + LOGBLOCKS < b

instance (start b : Nat) : Decidable (Home start b) :=
  inferInstanceAs (Decidable (b < start ∨ start + LOGBLOCKS < b))

def LogSys.usable (s : LogSys) : Bool :=
  match s.phase with
  | .reading => false
  | .reinstall _ => false
  | _ => true

/-- `write_head` is the commit; the other steps of `commit()` are not. -/
def History.afterCommitStep (s : LogSys) (h : History) : History :=
  match s.phase with
  | .writeLog tail => if (tail : Int) < s.lh.n then h else h.commit
  | _ => h

def step (start : Nat) (w : World) : Event → Option World
  | .beginOp =>
      if w.sys.usable then
        (beginOp w.sys).map fun s => ⟨s, { w.hist with
          nextOp := w.hist.nextOp + 1
          active := w.hist.nextOp :: w.hist.active }⟩
      else none
  | .logWrite op blockno data =>
      -- an operation under way writes a block of the file system
      if op ∈ w.hist.active ∧ Home start blockno ∧ blockno < 2 ^ 32 then
        (logWrite blockno data w.sys).map fun s => ⟨s, { w.hist with
          issued := w.hist.issued ++ [⟨op, blockno, data⟩]
          current := w.hist.current ++ [⟨op, blockno, data⟩] }⟩
      else none
  | .endOp op =>
      if op ∈ w.hist.active then
        (endOp w.sys).map fun s => ⟨s, { w.hist with
          active := w.hist.active.erase op
          ended := op :: w.hist.ended }⟩
      else none
  | .commit =>
      (commitStep start w.sys).map fun s => ⟨s, w.hist.afterCommitStep w.sys⟩
  | .bread b => some ⟨(bread b w.sys).2, w.hist⟩
  | .evict b =>
      if w.sys.refcnt b = 0 then
        some { w with sys := { w.sys with cache := Function.update w.sys.cache b none } }
      else none
  | .crash => some ⟨LogSys.reset w.sys.disk .reading, w.hist.crash⟩
  | .recover => (recoverStep start w.sys).map fun s => ⟨s, w.hist⟩

def replay (disk : Disk) (ws : List Write) : Disk :=
  ws.foldl (fun d w => Function.update d w.blockno w.data) disk

def ofOp (op : Nat) (ws : List Write) : List Write := ws.filter fun w => w.op == op

end Xv6Fcfs.Log
