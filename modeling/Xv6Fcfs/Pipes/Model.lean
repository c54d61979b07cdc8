import Xv6Fcfs.Lib.Bytes
import Xv6Fcfs.Lib.Queue
import Xv6Fcfs.Lib.Runs

/-!
# Pipes (`kernel/pipe.c`)

Any number of processes read, write and close one pipe.  `pi->lock` is held from its
acquisition to `sleep` or to the return; under it the loops that read `killed` are taken one
turn at a time, and each turn up to that test and from there on, since `kkill` may come at any
moment.  The other sections read nothing that can change under the lock and are one step.

What user memory lets `copyin` and `copyout` do is given with each call, for each of its
bytes.  `stored` and `delivered` are not part of the program: they list the bytes put into
and taken out of the ring.
-/

set_option autoImplicit false

namespace Xv6Fcfs.Pipes

open Xv6Fcfs.Lib

def PIPESIZE : Nat := 512

instance : NeZero PIPESIZE := ⟨by decide⟩

/-- `struct pipe`; the counters are 32 bits wide. -/
structure Pipe where
  data : Fin PIPESIZE → UInt8
  nread : Nat
  nwrite : Nat
  readopen : Bool
  writeopen : Bool
  stored : List UInt8
  delivered : List UInt8

def wrap32 (x : Nat) : Nat := x % 2 ^ 32

def Pipe.empty (pi : Pipe) : Prop := pi.nread = pi.nwrite

def Pipe.full (pi : Pipe) : Prop := pi.nwrite = wrap32 (pi.nread + PIPESIZE)

instance (pi : Pipe) : Decidable pi.empty := inferInstanceAs (Decidable (_ = _))

instance (pi : Pipe) : Decidable pi.full := inferInstanceAs (Decidable (_ = _))

/-- `pi->data[pi->nwrite++ % PIPESIZE] = ch;` -/
def Pipe.put (pi : Pipe) (ch : UInt8) : Pipe :=
  { pi with
    data := Function.update pi.data (Fin.ofNat PIPESIZE pi.nwrite) ch
    nwrite := wrap32 (pi.nwrite + 1)
    stored := pi.stored ++ [ch] }

/-- `pi->data[pi->nread % PIPESIZE]` -/
def Pipe.next (pi : Pipe) : UInt8 := pi.data (Fin.ofNat PIPESIZE pi.nread)

/-- `pi->nread++` after the byte has been copied out. -/
def Pipe.take (pi : Pipe) : Pipe :=
  { pi with nread := wrap32 (pi.nread + 1), delivered := pi.delivered ++ [pi.next] }

/-- The loop of `piperead` that copies, with `k` turns left: the value of `i` and the pipe.
`dst i` tells whether `copyout` to the address `addr + i` works. -/
def copyLoop (dst : Nat → Bool) : Nat → Nat → Pipe → Int × Pipe
  | 0, i, pi => (i, pi)
  | k + 1, i, pi =>
      if pi.empty then (i, pi)
      else if dst i then copyLoop dst k (i + 1) pi.take
      else if i = 0 then (-1, pi) else (i, pi)

/-- What a process does with the pipe. -/
inductive Pc where
  /-- It is in no call; `result` is what its last `piperead` returned and `taken` the number
  of bytes that call has taken, which is history. -/
  | outside (result : Option Int) (taken : Nat)
  /-- It waits for `pi->lock` to (go on to) write. -/
  | writeLock (src : Nat → Option UInt8) (n : Int) (i : Nat)
  /-- At the head of the loop of `pipewrite`, with the lock since `i` was `mark`. -/
  | writing (src : Nat → Option UInt8) (n : Int) (i mark : Nat)
  /-- In the loop of `pipewrite`, not found killed. -/
  | storing (src : Nat → Option UInt8) (n : Int) (i mark : Nat)
  /-- SLEEPING on `&pi->nwrite` -/
  | writeSleep (src : Nat → Option UInt8) (n : Int) (i : Nat)
  | readLock (dst : Nat → Bool) (n : Int)
  /-- At the head of the first loop of `piperead`. -/
  | reading (dst : Nat → Bool) (n : Int)
  /-- In the first loop of `piperead`, not found killed. -/
  | resting (dst : Nat → Bool) (n : Int)
  /-- SLEEPING on `&pi->nread` -/
  | readSleep (dst : Nat → Bool) (n : Int)

structure State where
  pipe : Pipe
  lock : Option Nat
  killed : Nat → Bool
  pc : Nat → Pc

def State.goto (s : State) (p : Nat) (pc : Pc) : State := { s with pc := upd s.pc p pc }

/-- `wakeup(&pi->nread)` -/
def wakeReader : Pc → Pc
  | .readSleep dst n => .readLock dst n
  | pc => pc

/-- `wakeup(&pi->nwrite)` -/
def wakeWriter : Pc → Pc
  | .writeSleep src n i => .writeLock src n i
  | pc => pc

def State.wakeReaders (s : State) : State := { s with pc := fun p => wakeReader (s.pc p) }

def State.wakeWriters (s : State) : State := { s with pc := fun p => wakeWriter (s.pc p) }

/-- `release(&pi->lock)`, and the process goes on at `pc`. -/
def State.leave (s : State) (p : Nat) (pc : Pc) : State := { s.goto p pc with lock := none }

/-- The loop of `pipewrite` up to the test for `killed`, or its end. -/
def writeTurn (s : State) (p : Nat) (src : Nat → Option UInt8) (n : Int) (i mark : Nat) : State :=
  if (i : Int) < n then
    if s.pipe.readopen = false ∨ s.killed p = true then s.leave p (.outside none 0)
    else s.goto p (.storing src n i mark)
  else s.wakeReaders.leave p (.outside none 0)

/-- The rest of its turn. -/
def storeTurn (s : State) (p : Nat) (src : Nat → Option UInt8) (n : Int) (i mark : Nat) : State :=
  if s.pipe.full then s.wakeReaders.leave p (.writeSleep src n i)
  else
    match src i with
    | none => s.wakeReaders.leave p (.outside none 0)
    | some ch => { s with pipe := s.pipe.put ch }.goto p (.writing src n (i + 1) mark)

/-- `piperead` from the head of its first loop up to the test for `killed`, or to the return. -/
def readTurn (s : State) (p : Nat) (dst : Nat → Bool) (n : Int) : State :=
  if s.pipe.empty ∧ s.pipe.writeopen = true then
    if s.killed p then s.leave p (.outside (some (-1)) 0)
    else s.goto p (.resting dst n)
  else
    let (r, pipe) := copyLoop dst n.toNat 0 s.pipe
    let taken := pipe.delivered.length - s.pipe.delivered.length
    { s with pipe := pipe }.wakeWriters.leave p (.outside (some r) taken)

inductive Event where
  /-- `pipewrite(pi, addr, n)`, `src i` being what `copyin` finds at `addr + i` -/
  | pipewrite (p : Nat) (src : Nat → Option UInt8) (n : Int)
  | piperead (p : Nat) (dst : Nat → Bool) (n : Int)
  /-- The process gets `pi->lock` or runs on under it. -/
  | go (p : Nat)
  | pipeclose (writable : Bool)
  | kkill (p : Nat)

def State.close (s : State) (writable : Bool) : State :=
  if writable then { s with pipe := { s.pipe with writeopen := false } }.wakeReaders
  else { s with pipe := { s.pipe with readopen := false } }.wakeWriters

def step (s : State) : Event → Option State
  | .pipewrite p src n =>
      match s.pc p with
      | .outside _ _ => some (s.goto p (.writeLock src n 0))
      | _ => none
  | .piperead p dst n =>
      match s.pc p with
      | .outside _ _ => some (s.goto p (.readLock dst n))
      | _ => none
  | .go p =>
      match s.pc p with
      | .writeLock src n i =>
          if s.lock = none then some { s.goto p (.writing src n i i) with lock := some p } else none
      | .readLock dst n =>
          if s.lock = none then some { s.goto p (.reading dst n) with lock := some p } else none
      | .writing src n i mark => some (writeTurn s p src n i mark)
      | .storing src n i mark => some (storeTurn s p src n i mark)
      | .reading dst n => some (readTurn s p dst n)
      | .resting dst n => some (s.leave p (.readSleep dst n))
      | _ => none
  | .pipeclose writable => if s.lock = none then some (s.close writable) else none
  | .kkill p =>
      some { s with
        killed := upd s.killed p true
        pc := upd s.pc p (wakeWriter (wakeReader (s.pc p))) }

/-- `pipealloc`, with no process in a call. -/
def fresh (data : Fin PIPESIZE → UInt8) (killed : Nat → Bool) : State :=
  ⟨⟨data, 0, 0, true, true, [], []⟩, none, killed, fun _ => .outside none 0⟩

end Xv6Fcfs.Pipes
