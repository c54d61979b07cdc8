import Xv6Fcfs.Lib.Bytes
import Xv6Fcfs.Lib.Queue
import Xv6Fcfs.Lib.Runs

/-!
# Console input (`kernel/console.c`)

`consoleintr` edits the input line under `cons.lock`; `consoleread` holds the lock from its
acquisition to `sleep` or to the return, so that each such section is one step.  Any number
of processes read, `kkill` may come between any two steps, and `dst` tells for each byte of a
call whether `either_copyout` can store it.

`committed`, `taken` and `returned` are not part of the program: they list the bytes handed
to the readers when `cons.w` moves, those that went past `cons.r` with the call that took
them, and the finished calls.
-/

set_option autoImplicit false

namespace Xv6Fcfs.Console

open Xv6Fcfs.Lib

def INPUT_BUF_SIZE : Nat := 128

instance : NeZero INPUT_BUF_SIZE := ⟨by decide⟩

/-- `C(x)` -/
def ctrl (x : Char) : UInt8 := x.toUInt8 - '@'.toUInt8

def newline : UInt8 := 10

def carriageReturn : UInt8 := 13

def delete : UInt8 := 0x7f

/-- A byte that went past `cons.r`, and the call that took it. -/
structure Taken where
  call : Nat
  byte : UInt8
deriving DecidableEq

/-- `cons`; the indices are 32 bits wide. -/
structure Cons where
  buf : Fin INPUT_BUF_SIZE → UInt8
  r : Nat
  w : Nat
  e : Nat
  committed : List UInt8
  taken : List Taken

def wrap32 (x : Nat) : Nat := x % 2 ^ 32

def minus32 (x y : Nat) : Nat := if y ≤ x then x - y else x + 2 ^ 32 - y

/-- `cons.buf[i % INPUT_BUF_SIZE]` -/
def Cons.byteAt (c : Cons) (i : Nat) : UInt8 := c.buf (Fin.ofNat INPUT_BUF_SIZE i)

/-- The bytes between `cons.w` and `cons.e`. -/
def Cons.edited (c : Cons) : List UInt8 :=
  (List.range (minus32 c.e c.w)).map fun j => c.byteAt (c.w + j)

/-- The bytes between `cons.r` and `cons.w`. -/
def Cons.ready (c : Cons) : List UInt8 :=
  (List.range (minus32 c.w c.r)).map fun j => c.byteAt (c.r + j)

/-! ## The interrupt handler -/

/-- `cons.e--;` -/
def Cons.erase (c : Cons) : Cons := { c with e := minus32 c.e 1 }

/-- The loop at `C('U')`, which ends after at most `e - w` turns. -/
def killLine : Nat → Cons → Cons
  | 0, c => c
  | k + 1, c => if c.e ≠ c.w ∧ c.byteAt (minus32 c.e 1) ≠ newline then killLine k c.erase else c

/-- `cons.buf[cons.e++ % INPUT_BUF_SIZE] = c;` -/
def Cons.store (c : Cons) (b : UInt8) : Cons :=
  { c with
    buf := Function.update c.buf (Fin.ofNat INPUT_BUF_SIZE c.e) b
    e := wrap32 (c.e + 1) }

/-- `cons.w = cons.e;` -/
def Cons.commit (c : Cons) : Cons := { c with w := c.e, committed := c.committed ++ c.edited }

/-- The switch of `consoleintr`; the flag tells whether it calls `wakeup(&cons.r)`. -/
def Cons.input (c : Cons) (b : UInt8) : Cons × Bool :=
  if b = ctrl 'P' then (c, false)
  else if b = ctrl 'U' then (killLine (minus32 c.e c.w) c, false)
  else if b = ctrl 'H' ∨ b = delete then
    if c.e ≠ c.w then (c.erase, false) else (c, false)
  else if b ≠ 0 ∧ minus32 c.e c.r < INPUT_BUF_SIZE then
    let b := if b = carriageReturn then newline else b
    let c := c.store b
    if b = newline ∨ b = ctrl 'D' ∨ minus32 c.e c.r = INPUT_BUF_SIZE then (c.commit, true)
    else (c, false)
  else (c, false)

/-! ## Reading -/

/-- `c = cons.buf[cons.r++ % INPUT_BUF_SIZE];` -/
def Cons.take (c : Cons) (call : Nat) : Cons :=
  { c with r := wrap32 (c.r + 1), taken := c.taken ++ [⟨call, c.byteAt c.r⟩] }

/-- `cons.r--;` -/
def Cons.putBack (c : Cons) : Cons := { c with r := minus32 c.r 1, taken := c.taken.dropLast }

/-- A call of `consoleread`: its number, `dst`, the length asked for, what is left of it and
the bytes copied so far. -/
structure Call where
  id : Nat
  dst : Nat → Bool
  len : Int
  n : Nat
  got : List UInt8

def Call.target (k : Call) : Nat := k.len.toNat

inductive Outcome where
  | sleep (k : Call)
  | ret (got : List UInt8) (result : Int)

/-- `consoleread` from the head of its loop with `n` bytes left. -/
def readLoop (k : Call) (killed : Bool) : Nat → List UInt8 → Cons → Outcome × Cons
  | 0, got, c => (.ret got k.target, c)
  | n + 1, got, c =>
      if c.r = c.w then
        if killed then (.ret got (-1), c) else (.sleep { k with n := n + 1, got := got }, c)
      else
        let b := c.byteAt c.r
        let c := c.take k.id
        if b = ctrl 'D' then
          (.ret got (k.target - (n + 1)), if n + 1 < k.target then c.putBack else c)
        else if k.dst (k.target - (n + 1)) then
          if b = newline then (.ret (got ++ [b]) (k.target - n), c)
          else readLoop k killed n (got ++ [b]) c
        else (.ret got (k.target - (n + 1)), c)

/-! ## Processes -/

inductive Pc where
  | outside
  /-- It waits for `cons.lock`. -/
  | lock (k : Call)
  /-- SLEEPING on `&cons.r` -/
  | sleep (k : Call)

/-- A finished call; `killed` tells whether its process had been killed by then. -/
structure Returned where
  call : Nat
  len : Int
  got : List UInt8
  result : Int
  killed : Bool

structure State where
  cons : Cons
  killed : Nat → Bool
  pc : Nat → Pc
  calls : Nat
  returned : List Returned

def wakeReader : Pc → Pc
  | .sleep k => .lock k
  | pc => pc

inductive Event where
  /-- `consoleintr(c)` -/
  | consoleintr (c : UInt8)
  | consoleread (p : Nat) (dst : Nat → Bool) (n : Int)
  /-- The process gets `cons.lock` and runs to `sleep` or to the return. -/
  | go (p : Nat)
  | kkill (p : Nat)

def readTurn (s : State) (p : Nat) (k : Call) : State :=
  match readLoop k (s.killed p) k.n k.got s.cons with
  | (.sleep k, c) => { s with cons := c, pc := upd s.pc p (.sleep k) }
  | (.ret got result, c) =>
      { s with
        cons := c
        pc := upd s.pc p .outside
        returned := s.returned ++ [⟨k.id, k.len, got, result, s.killed p⟩] }

def step (s : State) : Event → Option State
  | .consoleintr b =>
      let (c, wakes) := s.cons.input b
      some { s with cons := c, pc := if wakes then fun p => wakeReader (s.pc p) else s.pc }
  | .consoleread p dst n =>
      match s.pc p with
      | .outside => some { s with
          pc := upd s.pc p (.lock ⟨s.calls, dst, n, n.toNat, []⟩)
          calls := s.calls + 1 }
      | _ => none
  | .go p =>
      match s.pc p with
      | .lock k => some (readTurn s p k)
      | _ => none
  | .kkill p =>
      some { s with killed := upd s.killed p true, pc := upd s.pc p (wakeReader (s.pc p)) }

/-- `cons` is zeroed with the kernel's data; nobody reads yet. -/
def boot (killed : Nat → Bool) : State :=
  ⟨⟨fun _ => 0, 0, 0, 0, [], []⟩, killed, fun _ => .outside, 0, []⟩

end Xv6Fcfs.Console
