import Xv6Fcfs.Lib.Ring
import Xv6Fcfs.Lib.Runs
import Xv6Fcfs.Param

/-!
# The buffer cache of `kernel/bio.c`

The buffers are `bcache.buf[0..NBUF)`, and node `NBUF` of the list is `bcache.head`.  A
section under `bcache.lock` is one step.  `bget` ends in `acquiresleep`, so a caller waits
for the buffer's sleep-lock from the first step of the call to the second.

`now` and `released` are not part of the program: they record when a `brelse` last brought
the reference count of a buffer to 0, and 0 stands for never.
-/

set_option autoImplicit false

namespace Xv6Fcfs.Bio

open Xv6Fcfs.Lib

abbrev Block := Bytes

/-- `struct buf`, without its links and its lock. -/
structure Buf where
  valid : Bool
  dev : Nat
  blockno : Nat
  refcnt : Nat
  data : Block

structure Bcache where
  buf : Nat → Buf
  links : Links

/-- `&bcache.head` -/
def head : Nat := NBUF

def binit : Bcache where
  buf _ := ⟨false, 0, 0, 0, fun _ => 0⟩
  links := (List.range NBUF).foldl (fun k b => k.push head b)
    { next := upd (fun _ => 0) head head, prev := upd (fun _ => 0) head head }

def setBuf (b : Nat) (bp : Buf) (c : Bcache) : Bcache := { c with buf := upd c.buf b bp }

/-- "Is the block already cached?" -/
def cached (dev blockno : Nat) (c : Bcache) : Option Nat :=
  walk c.links.next head (fun b => (c.buf b).dev == dev && (c.buf b).blockno == blockno) (NBUF + 1)
    (c.links.next head)

/-- "Recycle the least recently used (LRU) unused buffer." -/
def unused (c : Bcache) : Option Nat :=
  walk c.links.prev head (fun b => (c.buf b).refcnt == 0) (NBUF + 1) (c.links.prev head)

def recycle (b dev blockno : Nat) (c : Bcache) : Bcache :=
  setBuf b { c.buf b with dev := dev, blockno := blockno, valid := false, refcnt := 1 } c

def bpin (b : Nat) (c : Bcache) : Bcache :=
  setBuf b { c.buf b with refcnt := (c.buf b).refcnt + 1 } c

def bunpin (b : Nat) (c : Bcache) : Bcache :=
  setBuf b { c.buf b with refcnt := (c.buf b).refcnt - 1 } c

/-- `bget` up to `acquiresleep`; `none` is the panic. -/
def bget (dev blockno : Nat) (c : Bcache) : Option (Nat × Bcache) :=
  match cached dev blockno c with
  | some b => some (b, bpin b c)
  | none =>
      match unused c with
      | some b => some (b, recycle b dev blockno c)
      | none => none

/-- `brelse` behind `releasesleep`. -/
def brelse (b : Nat) (c : Bcache) : Bcache :=
  let c := bunpin b c
  if (c.buf b).refcnt = 0 then { c with links := (c.links.remove b).push head b } else c

/-! ## Processes at work -/

/-- `waiters` are the processes in `acquiresleep` with the buffer each waits for, and
`log` the block numbers of `ROOTDEV` that `log_write` has pinned. -/
structure World where
  cache : Bcache
  disk : Nat → Block
  holder : Nat → Option Nat
  waiters : List (Nat × Nat)
  log : List Nat
  now : Nat
  released : Nat → Nat

def World.boot (disk : Nat → Block) : World where
  cache := binit
  disk := disk
  holder _ := none
  waiters := []
  log := []
  now := 0
  released _ := 0

inductive Event where
  | bget (p dev blockno : Nat)
  | acquire (p b : Nat)
  | fill (p b : Nat)
  | store (p b : Nat) (data : Block)
  | bwrite (p b : Nat)
  | brelse (p b : Nat)
  | bpin (p b : Nat)
  | bunpin (p b : Nat)

/-- Process `p` has buffer `b` from `bread`. -/
def World.has (w : World) (p b : Nat) : Prop :=
  w.holder b = some p ∧ (w.cache.buf b).valid = true

instance (w : World) (p b : Nat) : Decidable (w.has p b) :=
  inferInstanceAs (Decidable (w.holder b = some p ∧ (w.cache.buf b).valid = true))

/-- `brelse` by process `p`. -/
def World.release (w : World) (b : Nat) : World :=
  let last := ((bunpin b w.cache).buf b).refcnt = 0
  { w with
    cache := brelse b w.cache
    holder := upd w.holder b none
    now := w.now + 1
    released := if last then upd w.released b (w.now + 1) else w.released }

def step (w : World) : Event → Option World
  | .bget p dev blockno =>
      -- a process in `acquiresleep` makes no other call
      if p ∈ w.waiters.map Prod.fst then none
      else (bget dev blockno w.cache).map fun (b, c) =>
        { w with cache := c, waiters := (p, b) :: w.waiters }
  | .acquire p b =>
      if (p, b) ∈ w.waiters ∧ w.holder b = none then
        some { w with holder := upd w.holder b (some p), waiters := w.waiters.erase (p, b) }
      else none
  | .fill p b =>
      -- the rest of `bread`: `virtio_disk_rw(b, 0); b->valid = 1;`
      if w.holder b = some p ∧ (w.cache.buf b).valid = false then
        let bp := w.cache.buf b
        some { w with
          cache := setBuf b { bp with data := w.disk bp.blockno, valid := true } w.cache }
      else none
  | .store p b data =>
      if w.has p b then
        some { w with cache := setBuf b { w.cache.buf b with data := data } w.cache }
      else none
  | .bwrite p b =>
      if w.has p b then
        some { w with disk := upd w.disk (w.cache.buf b).blockno (w.cache.buf b).data }
      else none
  | .brelse p b => if w.holder b = some p then some (w.release b) else none
  | .bpin p b =>
      -- `log_write` of a block that is not in the log
      if w.has p b ∧ (w.cache.buf b).dev = ROOTDEV ∧ (w.cache.buf b).blockno ∉ w.log then
        some { w with cache := bpin b w.cache, log := w.log ++ [(w.cache.buf b).blockno] }
      else none
  | .bunpin p b =>
      -- `install_trans`
      if w.has p b ∧ (w.cache.buf b).dev = ROOTDEV ∧ (w.cache.buf b).blockno ∈ w.log then
        some { w with cache := bunpin b w.cache, log := w.log.erase (w.cache.buf b).blockno }
      else none

end Xv6Fcfs.Bio
