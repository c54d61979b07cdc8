import Mathlib.Algebra.BigOperators.Group.List.Basic
import Mathlib.Data.Finset.Card
import Xv6Fcfs.Bio.Lru
import Xv6Fcfs.Log.Model
import Xv6Fcfs.Param

/-!
# Log space and buffers for `commit`

`begin_op` reserves `MAXOPBLOCKS` entries of the log for each operation under way, and
`log_write` pins a buffer for each block in the log.  The log has as many entries as the
cache has buffers.  Operations and `commit` work on the buffer cache of `Bio.Model`; the
list of pinned blocks is `log.lh.block[0..n)`.

`active` and `blocks` are not part of the program: they are the operations between
`begin_op` and `end_op` and the distinct blocks each has logged.
-/

set_option autoImplicit false

namespace Xv6Fcfs.Bio

open Xv6Fcfs.Lib

/-! ## `commit` on the cache -/

/-- `bread` by a process that finds the sleep-lock free; `none` is the panic of `bget`, or
sleeping on a lock that the process holds itself. -/
def bread (p blockno : Nat) (w : World) : Option (Nat × World) :=
  match bget ROOTDEV blockno w.cache with
  | none => none
  | some (b, c) =>
      if w.holder b = none then
        let bp := c.buf b
        let c := if bp.valid then c
          else setBuf b { bp with data := w.disk bp.blockno, valid := true } c
        some (b, { w with cache := c, holder := upd w.holder b (some p) })
      else none

def storeData (b : Nat) (data : Block) (w : World) : World :=
  { w with cache := setBuf b { w.cache.buf b with data := data } w.cache }

def bwrite (b : Nat) (w : World) : World :=
  { w with disk := upd w.disk (w.cache.buf b).blockno (w.cache.buf b).data }

def unpin (b : Nat) (w : World) : World :=
  { w with cache := bunpin b w.cache, log := w.log.erase (w.cache.buf b).blockno }

/-- `write_log`, from entry `tail` on. -/
def writeLog (start p : Nat) : Nat → List Nat → World → Option World
  | _, [], w => some w
  | tail, blockno :: rest, w =>
      match bread p (start + tail + 1) w with
      | none => none
      | some (dst, w) =>
          match bread p blockno w with
          | none => none
          | some (src, w) =>
              let w := bwrite dst (storeData dst (w.cache.buf src).data w)
              writeLog start p (tail + 1) rest ((w.release src).release dst)

/-- `install_trans(0)`, from entry `tail` on. -/
def installTrans (start p : Nat) : Nat → List Nat → World → Option World
  | _, [], w => some w
  | tail, blockno :: rest, w =>
      match bread p (start + tail + 1) w with
      | none => none
      | some (lbuf, w) =>
          match bread p blockno w with
          | none => none
          | some (dbuf, w) =>
              let w := bwrite dbuf (storeData dbuf (w.cache.buf lbuf).data w)
              installTrans start p (tail + 1) rest (((unpin dbuf w).release lbuf).release dbuf)

/-- `write_head` with the blocks of the header in memory. -/
def writeHead (start p : Nat) (blocks : List Nat) (w : World) : Option World :=
  match bread p start w with
  | none => none
  | some (b, w) =>
      let lh : Log.LogHeader := ⟨blocks.length, fun i => blocks.getD i 0⟩
      some ((bwrite b (storeData b (Log.headBytes lh (w.cache.buf b).data) w)).release b)

def commit (start p : Nat) (w : World) : Option World :=
  if w.log = [] then some w
  else
    match writeLog start p 0 w.log w with
    | none => none
    | some w₁ =>
        match writeHead start p w.log w₁ with
        | none => none
        | some w₂ =>
            match installTrans start p 0 w.log w₂ with
            | none => none
            | some w₃ => writeHead start p [] w₃

/-! ## Operations -/

structure LogWorld where
  bio : World
  outstanding : Nat
  committing : Bool
  active : List Nat
  blocks : Nat → List Nat

def LogWorld.boot (disk : Nat → Block) : LogWorld where
  bio := World.boot disk
  outstanding := 0
  committing := false
  active := []
  blocks _ := []

inductive LogEvent where
  | cache (e : Event)
  | beginOp (op : Nat)
  | logWrite (op p b : Nat)
  | endOp (op : Nat)
  | commit (p : Nat)

/-- The blocks of an operation after `log_write` of one more. -/
def addBlock (n : Nat) (bs : List Nat) : List Nat := if n ∈ bs then bs else n :: bs

/-- `begin_op` does not sleep. -/
def mayBegin (w : LogWorld) : Prop :=
  w.committing = false ∧ w.bio.log.length + (w.outstanding + 1) * MAXOPBLOCKS ≤ LOGBLOCKS

def Home (start n : Nat) : Prop := n < start ∨ start + LOGBLOCKS < n

/-- The calls that processes make: `log_write` by the holder of the buffer, inside an
operation, on at most `MAXOPBLOCKS` distinct blocks of the file system; `commit` when the
last operation has ended and no other buffer is in use.  Pinning is left to the log. -/
def Allowed (start : Nat) (w : LogWorld) : LogEvent → Prop
  | .cache (.bpin _ _) => False
  | .cache (.bunpin _ _) => False
  | .cache _ => True
  | .beginOp op => op ∉ w.active ∧ mayBegin w
  | .logWrite op p b => op ∈ w.active ∧ w.bio.has p b ∧ (w.bio.cache.buf b).dev = ROOTDEV ∧
      Home start (w.bio.cache.buf b).blockno ∧
      (addBlock (w.bio.cache.buf b).blockno (w.blocks op)).length ≤ MAXOPBLOCKS
  | .endOp op => op ∈ w.active
  | .commit _ => w.committing = true ∧ w.bio.waiters = [] ∧ ∀ b, b < NBUF → w.bio.holder b = none

instance (w : LogWorld) : Decidable (mayBegin w) := inferInstanceAs (Decidable (_ ∧ _))

instance (start n : Nat) : Decidable (Home start n) := inferInstanceAs (Decidable (_ ∨ _))

instance (start : Nat) (w : LogWorld) : (e : LogEvent) → Decidable (Allowed start w e)
  | .cache e => match e with
    | .bpin _ _ => inferInstanceAs (Decidable False)
    | .bunpin _ _ => inferInstanceAs (Decidable False)
    | .bget _ _ _ => inferInstanceAs (Decidable True)
    | .acquire _ _ => inferInstanceAs (Decidable True)
    | .fill _ _ => inferInstanceAs (Decidable True)
    | .store _ _ _ => inferInstanceAs (Decidable True)
    | .bwrite _ _ => inferInstanceAs (Decidable True)
    | .brelse _ _ => inferInstanceAs (Decidable True)
  | .beginOp _ => inferInstanceAs (Decidable (_ ∧ _))
  | .logWrite _ _ _ => inferInstanceAs (Decidable (_ ∧ _ ∧ _ ∧ _ ∧ _))
  | .endOp _ => inferInstanceAs (Decidable (_ ∈ _))
  | .commit _ => inferInstanceAs (Decidable (_ ∧ _ ∧ _))

/-- `log_write`; `none` is a panic. -/
def logWrite (op b : Nat) (w : LogWorld) : Option LogWorld :=
  let n := (w.bio.cache.buf b).blockno
  if LOGBLOCKS ≤ w.bio.log.length then none
  else if w.outstanding < 1 then none
  else
    let w := { w with blocks := upd w.blocks op (addBlock n (w.blocks op)) }
    if n ∈ w.bio.log then some w
    else some { w with bio := { w.bio with
      cache := bpin b w.bio.cache
      log := w.bio.log ++ [n] } }

/-- `end_op` without the call of `commit`; `none` is the panic. -/
def endOp (op : Nat) (w : LogWorld) : Option LogWorld :=
  if w.committing then none
  else some { w with
    outstanding := w.outstanding - 1
    active := w.active.erase op
    committing := w.outstanding - 1 = 0 }

/-- The effect of an event; `none` is a panic, or an event of the cache that cannot happen. -/
def perform (start : Nat) (w : LogWorld) : LogEvent → Option LogWorld
  | .cache e => (step w.bio e).map fun bio => { w with bio := bio }
  | .beginOp op => some { w with
      outstanding := w.outstanding + 1
      active := op :: w.active
      blocks := upd w.blocks op [] }
  | .logWrite op _ b => logWrite op b w
  | .endOp op => endOp op w
  | .commit p => (commit start p w.bio).map fun bio => { w with bio := bio, committing := false }

def logStep (start : Nat) (w : LogWorld) (e : LogEvent) : Option LogWorld :=
  if Allowed start w e then perform start w e else none

/-! ## Buffers -/

section Buffers
variable {w : World} {p n b : Nat}

structure Quiet (w : World) : Prop where
  inv : Inv w
  free : ∀ b, w.holder b = none
  idle : w.waiters = []

theorem Quiet.refs (quiet : Quiet w) (bound : b < NBUF) :
    (w.cache.buf b).refcnt = logRef w.log (w.cache.buf b) := by
  rw [quiet.inv.counted.refs b bound]
  simp [World.users, quiet.free b, quiet.idle]

def pinnedBufs (w : World) : Finset Nat :=
  (Finset.range NBUF).filter fun b => InLog w.log (w.cache.buf b)

theorem card_pinnedBufs (inv : Inv w) : (pinnedBufs w).card = w.log.length := by
  rw [← List.toFinset_card_of_nodup inv.keyed.once]
  apply Finset.card_bij fun b _ => (w.cache.buf b).blockno
  · intro b inside
    exact List.mem_toFinset.mpr (Finset.mem_filter.mp inside).2.2
  · intro a inA b inB same
    rw [pinnedBufs, Finset.mem_filter, Finset.mem_range] at inA inB
    exact inv.keyed.alone inA.1 inB.1 inB.2.1 inA.2.1 same
  · intro m inside
    have logged := List.mem_toFinset.mp inside
    obtain ⟨b, bound, dev, block, -⟩ := inv.keyed.logged m logged
    refine ⟨b, Finset.mem_filter.mpr ⟨Finset.mem_range.mpr bound, dev, ?_⟩, block⟩
    rw [block]
    exact logged

theorem Quiet.room (quiet : Quiet w) (short : w.log.length < NBUF) :
    ∃ b, b < NBUF ∧ (w.cache.buf b).refcnt = 0 := by
  rw [← card_pinnedBufs quiet.inv] at short
  have proper : (pinnedBufs w).card < (Finset.range NBUF).card := by simpa using short
  obtain ⟨b, inside, outside⟩ := Finset.exists_mem_notMem_of_card_lt_card proper
  have bound := Finset.mem_range.mp inside
  refine ⟨b, bound, ?_⟩
  rw [quiet.refs bound, logRef, if_neg]
  exact fun logged => outside (Finset.mem_filter.mpr ⟨inside, logged⟩)

theorem inLog_of_full (inv : Inv w) (full : w.log.length = NBUF) (bound : b < NBUF) :
    InLog w.log (w.cache.buf b) := by
  have all : pinnedBufs w = Finset.range NBUF := by
    have many : (Finset.range NBUF).card ≤ (pinnedBufs w).card := by
      rw [card_pinnedBufs inv, full, Finset.card_range]
    exact Finset.eq_of_subset_of_card_le (Finset.filter_subset _ _) many
  have inside : b ∈ pinnedBufs w := by
    rw [all]
    exact Finset.mem_range.mpr bound
  exact (Finset.mem_filter.mp inside).2

/-- What `bread` gives. -/
structure Read (w : World) (p n b : Nat) (w' : World) : Prop where
  inv : Inv w'
  bound : b < NBUF
  dev : (w'.cache.buf b).dev = ROOTDEV
  blockno : (w'.cache.buf b).blockno = n
  before : w.holder b = none
  holder : w'.holder = upd w.holder b (some p)
  waiters : w'.waiters = w.waiters
  log : w'.log = w.log

theorem Read.of_bget {c : Bcache} (waiting : Inv { w with cache := c, waiters := (p, b) :: w.waiters })
    (bound : b < NBUF) (dev : (c.buf b).dev = ROOTDEV) (blockno : (c.buf b).blockno = n)
    (free : w.holder b = none) (found : bget ROOTDEV n w.cache = some (b, c)) :
    ∃ w', bread p n w = some (b, w') ∧ Read w p n b w' := by
  have locked := waiting.acquire (List.mem_cons_self) free
  simp only [List.erase_cons_head] at locked
  simp only [bread, found, if_pos free]
  refine ⟨_, rfl, ?_⟩
  by_cases valid : (c.buf b).valid = true
  · rw [if_pos valid]
    exact ⟨locked, bound, dev, blockno, free, rfl, rfl, rfl⟩
  · rw [if_neg valid]
    refine ⟨locked.setData rfl rfl rfl fun _ => rfl, bound, ?_, ?_, free, rfl, rfl, rfl⟩
    · simp only [setBuf, upd_self]
      exact dev
    · simp only [setBuf, upd_self]
      exact blockno

theorem bread_cached (inv : Inv w) (bound : b < NBUF) (dev : (w.cache.buf b).dev = ROOTDEV)
    (blockno : (w.cache.buf b).blockno = n) (free : w.holder b = none) :
    ∃ w', bread p n w = some (b, w') ∧ Read w p n b w' := by
  cases took : bget ROOTDEV n w.cache with
  | none =>
      unfold bget at took
      cases hit : cached ROOTDEV n w.cache with
      | some a => rw [hit] at took; cases took
      | none => exact absurd ⟨dev, blockno⟩ (cached_eq_none inv.listed hit bound)
  | some r =>
      obtain ⟨a, c⟩ := r
      rcases bget_cases inv.listed took with ⟨boundA, devA, blockA, rfl⟩ | ⟨-, -, missed, -, -⟩
      · obtain rfl := inv.keyed.alone boundA bound dev devA (blockA.trans blockno.symm)
        refine Read.of_bget (inv.hit bound) bound ?_ ?_ free took
        · simp only [bpin, setBuf, upd_self]
          exact dev
        · simp only [bpin, setBuf, upd_self]
          exact blockno
      · exact absurd ⟨dev, blockno⟩ (missed b bound)

theorem bread_quiet (quiet : Quiet w) (short : w.log.length < NBUF) (n : Nat) :
    ∃ b w', bread p n w = some (b, w') ∧ Read w p n b w' := by
  cases took : bget ROOTDEV n w.cache with
  | none =>
      unfold bget at took
      cases hit : cached ROOTDEV n w.cache with
      | some a => rw [hit] at took; cases took
      | none =>
          rw [hit] at took
          cases free : unused w.cache with
          | some a => simp only [free] at took; cases took
          | none =>
              obtain ⟨b, bound, zero⟩ := quiet.room short
              have busy := unused_eq_none quiet.inv.listed free bound
              omega
  | some r =>
      obtain ⟨b, c⟩ := r
      refine ⟨b, ?_⟩
      rcases bget_cases quiet.inv.listed took with ⟨bound, dev, block, rfl⟩ |
        ⟨bound, zero, missed, -, rfl⟩
      · exact bread_cached quiet.inv bound dev block (quiet.free b)
      · refine Read.of_bget (quiet.inv.recycled bound zero missed) bound ?_ ?_ (quiet.free b) took
        · simp only [recycle, setBuf, upd_self]
        · simp only [recycle, setBuf, upd_self]

theorem bread_full (inv : Inv w) (full : w.log.length = NBUF) (outside : n ∉ w.log) :
    bread p n w = none := by
  have missed : cached ROOTDEV n w.cache = none := by
    cases hit : cached ROOTDEV n w.cache with
    | none => rfl
    | some b =>
        have found := cached_eq_some inv.listed hit
        have logged := (inLog_of_full inv full found.1).2
        rw [found.2.2] at logged
        exact absurd logged outside
  have busy : unused w.cache = none := by
    cases free : unused w.cache with
    | none => rfl
    | some b =>
        have found := unused_eq_some inv.listed free
        have count := inv.counted.refs b found.1
        rw [logRef, if_pos (inLog_of_full inv full found.1)] at count
        omega
  simp only [bread, bget, missed, busy]

theorem Inv.withDisk (inv : Inv w) (disk : Nat → Block) : Inv { w with disk := disk } :=
  ⟨inv.listed, inv.clock, inv.keyed, ⟨inv.counted.refs, inv.counted.holds, inv.counted.waits⟩⟩

theorem Inv.written (inv : Inv w) (b : Nat) (data : Block) : Inv (bwrite b (storeData b data w)) :=
  (inv.setData (b := b) (e := { w.cache.buf b with data := data }) rfl rfl rfl id).withDisk _

theorem release_log (w : World) (b : Nat) : (w.release b).log = w.log := rfl

theorem release_holder (w : World) (b : Nat) : (w.release b).holder = upd w.holder b none := rfl

end Buffers

/-! ## `commit` finds its buffers -/

section Commit
variable {w : World} {start p n : Nat}

/-- The block of the log area and the home block that an iteration of `write_log` or
`install_trans` works on. -/
theorem bread_pair (quiet : Quiet w) (short : w.log.length < NBUF) {m : Nat} (outside : m ∉ w.log)
    (inside : n ∈ w.log) :
    ∃ b w₁ b' w₂, bread p m w = some (b, w₁) ∧ bread p n w₁ = some (b', w₂) ∧ Inv w₂ ∧ b' ≠ b ∧
      w₂.holder b = some p ∧ w₂.holder b' = some p ∧ (∀ a, a ≠ b → a ≠ b' → w₂.holder a = none) ∧
      w₂.waiters = [] ∧ w₂.log = w.log ∧ b' < NBUF ∧ (w₂.cache.buf b').dev = ROOTDEV ∧
      (w₂.cache.buf b').blockno = n := by
  obtain ⟨b, w₁, first, read⟩ := bread_quiet (p := p) quiet short m
  have logged : n ∈ w₁.log := by
    rw [read.log]
    exact inside
  obtain ⟨b', bound, dev, block, -⟩ := read.inv.keyed.logged n logged
  have differ : b' ≠ b := by
    rintro rfl
    rw [read.blockno] at block
    exact outside (block ▸ inside)
  have free : w₁.holder b' = none := by
    rw [read.holder, upd_of_ne differ]
    exact quiet.free b'
  obtain ⟨w₂, second, read'⟩ := bread_cached (p := p) read.inv bound dev block free
  refine ⟨b, w₁, b', w₂, first, second, read'.inv, differ, ?_, ?_, ?_, ?_, ?_, bound, read'.dev,
    read'.blockno⟩
  · rw [read'.holder, upd_of_ne differ.symm, read.holder, upd_self]
  · rw [read'.holder, upd_self]
  · intro a awayB awayB'
    rw [read'.holder, upd_of_ne awayB', read.holder, upd_of_ne awayB]
    exact quiet.free a
  · rw [read'.waiters, read.waiters, quiet.idle]
  · rw [read'.log, read.log]

theorem Quiet.of_release {b b' : Nat} (inv : Inv w) (differ : b' ≠ b) (held : w.holder b = some p)
    (held' : w.holder b' = some p) (others : ∀ a, a ≠ b → a ≠ b' → w.holder a = none)
    (idle : w.waiters = []) : Quiet ((w.release b').release b) := by
  have first := inv.release held'
  have still : (w.release b').holder b = some p := by
    rw [release_holder, upd_of_ne differ.symm]
    exact held
  refine ⟨first.release still, ?_, idle⟩
  intro a
  rw [release_holder, release_holder]
  by_cases atB : a = b
  · rw [atB, upd_self]
  · rw [upd_of_ne atB]
    by_cases atB' : a = b'
    · rw [atB', upd_self]
    · rw [upd_of_ne atB']
      exact others a atB atB'

theorem not_logged {m : Nat} (home : ∀ n, n ∈ w.log → Home start n) (low : start ≤ m)
    (high : m ≤ start + LOGBLOCKS) : m ∉ w.log := by
  intro inside
  rcases home m inside with under | above
  · omega
  · omega

theorem writeLog_some (start p : Nat) : ∀ (l : List Nat) (tail : Nat) (w : World), Quiet w →
    (∀ n, n ∈ l → n ∈ w.log) → (∀ n, n ∈ w.log → Home start n) → w.log.length < NBUF →
    tail + l.length ≤ LOGBLOCKS →
    ∃ w', writeLog start p tail l w = some w' ∧ Quiet w' ∧ w'.log = w.log := by
  intro l
  induction l with
  | nil => intro tail w quiet _ _ _ _; exact ⟨w, rfl, quiet, rfl⟩
  | cons n rest ih =>
      intro tail w quiet sub home short fits
      simp only [List.length_cons] at fits
      obtain ⟨b, w₁, b', w₂, first, second, inv, differ, held, held', others, idle, log, -⟩ :=
        bread_pair (p := p) quiet short (not_logged home (m := start + tail + 1) (by omega) (by omega))
          (sub n (by simp))
      have next : Quiet (((bwrite b (storeData b (w₂.cache.buf b').data w₂)).release b').release b) :=
        Quiet.of_release (inv.written b _) differ held held' others idle
      obtain ⟨w', run, done, kept⟩ := ih (tail + 1)
        (((bwrite b (storeData b (w₂.cache.buf b').data w₂)).release b').release b) next
        (fun m inside => by
          rw [release_log, release_log]
          exact log ▸ sub m (List.mem_cons_of_mem n inside))
        (fun m inside => home m (log ▸ inside)) (by rw [release_log, release_log]; exact log ▸ short)
        (by omega)
      refine ⟨w', ?_, done, kept.trans log⟩
      simp only [writeLog, first, second]
      exact run

theorem writeHead_some (start p : Nat) (quiet : Quiet w) (short : w.log.length < NBUF)
    (blocks : List Nat) :
    ∃ w', writeHead start p blocks w = some w' ∧ Quiet w' ∧ w'.log = w.log := by
  obtain ⟨b, w₁, first, read⟩ := bread_quiet (p := p) quiet short start
  have held : w₁.holder b = some p := by rw [read.holder, upd_self]
  simp only [writeHead, first]
  refine ⟨_, rfl, ⟨(read.inv.written b _).release held, ?_, ?_⟩, read.log⟩
  · intro a
    rw [release_holder, show (bwrite b (storeData b _ w₁)).holder = w₁.holder from rfl, read.holder]
    by_cases here : a = b
    · rw [here, upd_self]
    · rw [upd_of_ne here, upd_of_ne here]
      exact quiet.free a
  · exact read.waiters.trans quiet.idle

theorem installTrans_some (start p : Nat) : ∀ (l : List Nat) (tail : Nat) (w : World),
    Quiet w → w.log = l →
    (∀ n, n ∈ w.log → Home start n) → w.log.length < NBUF → tail + l.length ≤ LOGBLOCKS →
    ∃ w', installTrans start p tail l w = some w' ∧ Quiet w' ∧ w'.log = [] := by
  intro l
  induction l with
  | nil => intro tail w quiet empty _ _ _; exact ⟨w, rfl, quiet, empty⟩
  | cons n rest ih =>
      intro tail w quiet shape home short fits
      simp only [List.length_cons] at fits
      obtain ⟨b, w₁, b', w₂, first, second, inv, differ, held, held', others, idle, log, -,
        dev, block⟩ :=
        bread_pair (p := p) quiet short (not_logged home (m := start + tail + 1) (by omega) (by omega))
          (n := n) (by rw [shape]; simp)
      have stored : ((storeData b' (w₂.cache.buf b).data w₂).cache.buf b') =
          { w₂.cache.buf b' with data := (w₂.cache.buf b).data } := upd_self _ _ _
      have valid : (w₂.cache.buf b').valid = true := by
        obtain ⟨a, bound, devA, blockA, ok⟩ := inv.keyed.logged n (by rw [log, shape]; simp)
        obtain rfl := inv.keyed.alone bound (inv.counted.holds b' p held') dev devA
          (blockA.trans block.symm)
        exact ok
      have free := (inv.written b' (w₂.cache.buf b).data).unpinned (p := p) (b := b')
        ⟨held', by simp only [bwrite, stored]; exact valid⟩
        (by simp only [bwrite, stored]; exact dev)
        (by simp only [bwrite, stored, block]; rw [show (storeData b' _ w₂).log = w₂.log from rfl,
          log, shape]; simp)
      have next : Quiet (((unpin b' (bwrite b' (storeData b' (w₂.cache.buf b).data w₂))).release
          b).release b') :=
        Quiet.of_release free differ.symm held' held (fun a away away' => others a away' away) idle
      have left : (((unpin b' (bwrite b' (storeData b' (w₂.cache.buf b).data w₂))).release
          b).release b').log = rest := by
        rw [release_log, release_log]
        simp only [unpin, bwrite, stored, block]
        rw [show (storeData b' _ w₂).log = w₂.log from rfl, log, shape, List.erase_cons_head]
      obtain ⟨w', run, done, empty⟩ := ih (tail + 1) _ next left
        (fun m inside => home m (by
          rw [left] at inside
          rw [shape]
          exact List.mem_cons_of_mem n inside))
        (by rw [left]; rw [shape, List.length_cons] at short; omega) (by omega)
      refine ⟨w', ?_, done, empty⟩
      simp only [installTrans, first, second]
      exact run

theorem commit_some (quiet : Quiet w) (home : ∀ n, n ∈ w.log → Home start n)
    (short : w.log.length < NBUF) :
    ∃ w', commit start p w = some w' ∧ Quiet w' ∧ w'.log = [] := by
  have fits : w.log.length ≤ LOGBLOCKS := by
    simp only [NBUF, LOGBLOCKS] at *
    omega
  by_cases empty : w.log = []
  · exact ⟨w, by rw [commit, if_pos empty], quiet, empty⟩
  · obtain ⟨w₁, wrote, quiet₁, log₁⟩ := writeLog_some start p w.log 0 w quiet
      (fun _ inside => inside) home short (by omega)
    obtain ⟨w₂, head₂, quiet₂, log₂⟩ := writeHead_some start p quiet₁
      (by rw [log₁]; exact short) w.log
    obtain ⟨w₃, done, quiet₃, log₃⟩ := installTrans_some start p w.log 0 w₂ quiet₂
      (by rw [log₂, log₁]) (by rw [log₂, log₁]; exact home) (by rw [log₂, log₁]; exact short)
      (by omega)
    obtain ⟨w₄, head₄, quiet₄, log₄⟩ := writeHead_some start p quiet₃
      (by rw [log₃]; decide) []
    refine ⟨w₄, ?_, quiet₄, by rw [log₄, log₃]⟩
    rw [commit, if_neg empty]
    simp only [wrote, head₂, done]
    exact head₄

theorem commit_full (inv : Inv w) (home : ∀ n, n ∈ w.log → Home start n)
    (full : w.log.length = NBUF) : commit start p w = none := by
  have some : w.log ≠ [] := by
    intro empty
    rw [empty] at full
    cases full
  obtain ⟨n, rest, shape⟩ := List.exists_cons_of_ne_nil some
  have none : bread p (start + 0 + 1) w = none :=
    bread_full inv full (not_logged home (by omega) (by simp only [LOGBLOCKS, MAXOPBLOCKS]; omega))
  rw [commit, if_neg some]
  simp only [shape, writeLog, none]

end Commit

/-! ## Reservations -/

section Reserve
variable {w w' : LogWorld} {start op p b : Nat} {e : LogEvent}

def reserved (w : LogWorld) : Nat :=
  (w.active.map fun op => MAXOPBLOCKS - (w.blocks op).length).sum

structure LogInv (start : Nat) (w : LogWorld) : Prop where
  inv : Inv w.bio
  home : ∀ n, n ∈ w.bio.log → Home start n
  count : w.outstanding = w.active.length
  nodup : w.active.Nodup
  logged : ∀ op, op ∈ w.active → ∀ n, n ∈ w.blocks op → n ∈ w.bio.log
  idle : w.committing = true → w.active = []
  space : w.bio.log.length + reserved w ≤ LOGBLOCKS

theorem sum_le_length (f : Nat → Nat) (bound : Nat) (small : ∀ x, f x ≤ bound) (l : List Nat) :
    (l.map f).sum ≤ l.length * bound := by
  induction l with
  | nil => simp
  | cons x rest ih =>
      have here := small x
      rw [List.map_cons, List.sum_cons, List.length_cons, Nat.succ_mul]
      omega

theorem sum_erase (f : Nat → Nat) {l : List Nat} (inside : op ∈ l) :
    (l.map f).sum = f op + ((l.erase op).map f).sum := by
  rw [((List.perm_cons_erase inside).map f).sum_eq, List.map_cons, List.sum_cons]

theorem step_log {w w' : World} {e : Event} (run : step w e = some w')
    (allowed : ∀ p b, e ≠ .bpin p b ∧ e ≠ .bunpin p b) : w'.log = w.log := by
  cases e with
  | bpin p b => exact absurd rfl (allowed p b).1
  | bunpin p b => exact absurd rfl (allowed p b).2
  | bget p dev n =>
      simp only [step] at run
      split at run
      · cases run
      · obtain ⟨r, -, rfl⟩ := Option.map_eq_some_iff.mp run
        rfl
  | acquire p b | fill p b | store p b data | bwrite p b | brelse p b =>
      simp only [step] at run
      split at run
      · obtain rfl := Option.some.inj run
        rfl
      · cases run

theorem LogInv.beginOp (inv : LogInv start w) (fresh : op ∉ w.active) (may : mayBegin w) :
    LogInv start { w with
      outstanding := w.outstanding + 1
      active := op :: w.active
      blocks := upd w.blocks op [] } := by
  have other : ∀ x, x ∈ w.active → x ≠ op := by
    rintro x inside rfl
    exact fresh inside
  refine ⟨inv.inv, inv.home, ?_, List.nodup_cons.mpr ⟨fresh, inv.nodup⟩, ?_, ?_, ?_⟩
  · simp only [List.length_cons, inv.count]
  · intro x inside n logged
    rcases List.mem_cons.mp inside with rfl | old
    · simp only [upd_self] at logged
      cases logged
    · simp only [upd_of_ne (other x old)] at logged
      exact inv.logged x old n logged
  · intro busy
    rw [may.1] at busy
    cases busy
  · -- the test of `begin_op` leaves room for every operation under way
    have bound := sum_le_length (fun x => MAXOPBLOCKS - (upd w.blocks op [] x).length) MAXOPBLOCKS
      (fun _ => Nat.sub_le _ _) (op :: w.active)
    have test := may.2
    rw [inv.count] at test
    simp only [reserved, List.length_cons] at bound ⊢
    omega

theorem LogInv.logWrite (inv : LogInv start w) (allowed : Allowed start w (.logWrite op p b))
    (run : logWrite op b w = some w') : LogInv start w' := by
  obtain ⟨active, has, dev, home, small⟩ := allowed
  have split := sum_erase (fun x => MAXOPBLOCKS - (w.blocks x).length) active
  have space := inv.space
  rw [reserved, split] at space
  simp only [Bio.logWrite] at run
  split at run
  · cases run
  split at run
  · cases run
  have rest : ((w.active.erase op).map fun x => MAXOPBLOCKS -
      (upd w.blocks op (addBlock (w.bio.cache.buf b).blockno (w.blocks op)) x).length).sum =
      ((w.active.erase op).map fun x => MAXOPBLOCKS - (w.blocks x).length).sum := by
    congr 1
    apply List.map_congr_left
    intro x inside
    rw [upd_of_ne]
    rintro rfl
    exact inv.nodup.not_mem_erase inside
  have grown : ∀ bio : World, reserved { w with
      bio := bio, blocks := upd w.blocks op (addBlock (w.bio.cache.buf b).blockno (w.blocks op)) } =
      MAXOPBLOCKS - (addBlock (w.bio.cache.buf b).blockno (w.blocks op)).length +
        ((w.active.erase op).map fun x => MAXOPBLOCKS - (w.blocks x).length).sum := by
    intro bio
    rw [reserved, sum_erase _ active, rest]
    simp only [upd_self]
  have member : ∀ log : List Nat, (∀ n, n ∈ w.bio.log → n ∈ log) →
      (w.bio.cache.buf b).blockno ∈ log → ∀ x, x ∈ w.active → ∀ n,
      n ∈ upd w.blocks op (addBlock (w.bio.cache.buf b).blockno (w.blocks op)) x → n ∈ log := by
    intro log sub new x inside n logged
    by_cases here : x = op
    · subst here
      rw [upd_self, addBlock] at logged
      split at logged
      · exact sub n (inv.logged x inside n logged)
      · rcases List.mem_cons.mp logged with rfl | old
        · exact new
        · exact sub n (inv.logged x inside n old)
    · rw [upd_of_ne here] at logged
      exact sub n (inv.logged x inside n logged)
  by_cases absorbed : (w.bio.cache.buf b).blockno ∈ w.bio.log
  · rw [if_pos absorbed] at run
    obtain rfl := Option.some.inj run
    refine ⟨inv.inv, inv.home, inv.count, inv.nodup, member _ (fun _ old => old) absorbed, inv.idle, ?_⟩
    rw [grown w.bio]
    have more : (w.blocks op).length ≤
        (addBlock (w.bio.cache.buf b).blockno (w.blocks op)).length := by
      simp only [addBlock]
      split
      · exact Nat.le_refl _
      · simp
    simp only
    omega
  · rw [if_neg absorbed] at run
    obtain rfl := Option.some.inj run
    -- a block that is not in the log is new to its operation too
    have new : (w.bio.cache.buf b).blockno ∉ w.blocks op :=
      fun old => absorbed (inv.logged op active _ old)
    have length : (addBlock (w.bio.cache.buf b).blockno (w.blocks op)).length =
        (w.blocks op).length + 1 := by
      rw [addBlock, if_neg new, List.length_cons]
    refine ⟨inv.inv.pinned has dev absorbed, ?_, inv.count, inv.nodup,
      member _ (fun _ old => List.mem_append_left _ old) (by simp), inv.idle, ?_⟩
    · intro n inside
      rcases List.mem_append.mp inside with old | last
      · exact inv.home n old
      · rw [List.mem_singleton.mp last]
        exact home
    · rw [grown]
      rw [length] at small ⊢
      simp only [List.length_append, List.length_singleton]
      omega

theorem LogInv.endOp (inv : LogInv start w) (active : op ∈ w.active) (run : endOp op w = some w') :
    LogInv start w' := by
  unfold Bio.endOp at run
  split at run
  · cases run
  obtain rfl := Option.some.inj run
  have length : (w.active.erase op).length = w.active.length - 1 := List.length_erase_of_mem active
  refine ⟨inv.inv, inv.home, ?_, inv.nodup.erase op, ?_, ?_, ?_⟩
  · simp only [length, inv.count]
  · exact fun x inside => inv.logged x (List.mem_of_mem_erase inside)
  · intro last
    simp only [decide_eq_true_eq, inv.count, ← length] at last
    exact List.eq_nil_of_length_eq_zero last
  · have split := sum_erase (fun x => MAXOPBLOCKS - (w.blocks x).length) active
    have space := inv.space
    simp only [reserved] at space ⊢
    omega

theorem LogInv.quiet (inv : LogInv start w) (allowed : Allowed start w (.commit p)) : Quiet w.bio where
  inv := inv.inv
  free b := by
    cases held : w.bio.holder b with
    | none => rfl
    | some q =>
        rw [allowed.2.2 b (inv.inv.counted.holds b q held)] at held
        cases held
  idle := allowed.2.1

theorem LogInv.length_le (inv : LogInv start w) : w.bio.log.length ≤ LOGBLOCKS := by
  have space := inv.space
  omega

theorem perform_none (inv : LogInv start w) (allowed : Allowed start w e)
    (call : (∃ op p b, e = .logWrite op p b) ∨ ∃ p, e = .commit p) :
    perform start w e = none ↔ w.bio.log.length = LOGBLOCKS := by
  have most := inv.length_le
  rcases call with ⟨op, p, b, rfl⟩ | ⟨p, rfl⟩
  · have under : ¬ w.outstanding < 1 := by
      have pos := List.length_pos_of_mem allowed.1
      rw [inv.count]
      omega
    simp only [perform, logWrite]
    by_cases full : LOGBLOCKS ≤ w.bio.log.length
    · rw [if_pos full]
      exact ⟨fun _ => by omega, fun _ => rfl⟩
    · rw [if_neg full, if_neg under]
      refine ⟨fun stops => ?_, fun eq => by omega⟩
      split at stops <;> cases stops
  · simp only [perform, Option.map_eq_none_iff]
    constructor
    · intro stops
      by_contra short
      have less : w.bio.log.length < NBUF := by
        simp only [LOGBLOCKS, NBUF] at *
        omega
      obtain ⟨v, done, -⟩ := commit_some (p := p) (inv.quiet allowed) inv.home less
      rw [done] at stops
      cases stops
    · exact fun full => commit_full inv.inv inv.home full

theorem LogInv.step (inv : LogInv start w) (run : logStep start w e = some w') : LogInv start w' := by
  unfold logStep at run
  split at run
  · rename_i allowed
    cases e with
    | cache e =>
        obtain ⟨v, moved, rfl⟩ := Option.map_eq_some_iff.mp run
        have log : v.log = w.bio.log := by
          apply step_log moved
          intro p b
          constructor
          · rintro rfl
            exact allowed
          · rintro rfl
            exact allowed
        refine ⟨step_inv inv.inv moved, ?_, inv.count, inv.nodup, ?_, inv.idle, ?_⟩
        · simp only [log]
          exact inv.home
        · simp only [log]
          exact inv.logged
        · simp only [log]
          exact inv.space
    | beginOp op =>
        obtain rfl := Option.some.inj run
        exact inv.beginOp allowed.1 allowed.2
    | logWrite op p b => exact inv.logWrite allowed run
    | endOp op => exact inv.endOp allowed run
    | commit p =>
        obtain ⟨v, done, rfl⟩ := Option.map_eq_some_iff.mp run
        have less : w.bio.log.length < NBUF := by
          by_contra more
          have most := inv.length_le
          rw [commit_full inv.inv inv.home (by simp only [LOGBLOCKS, NBUF] at *; omega)] at done
          cases done
        obtain ⟨v', done', quiet, empty⟩ := commit_some (p := p) (inv.quiet allowed) inv.home less
        obtain rfl : v' = v := Option.some.inj (done'.symm.trans done)
        have none := inv.idle allowed.1
        refine ⟨quiet.inv, ?_, inv.count, inv.nodup, ?_, ?_, ?_⟩
        · intro n inside
          simp only [empty] at inside
          cases inside
        · intro x inside
          simp only [none] at inside
          cases inside
        · intro busy
          cases busy
        · simp only [reserved, none, empty, List.map_nil, List.sum_nil, List.length_nil]
          omega
  · cases run

theorem boot_logInv (start : Nat) (disk : Nat → Block) : LogInv start (LogWorld.boot disk) where
  inv := boot_inv disk
  home n inside := by cases inside
  count := rfl
  nodup := List.nodup_nil
  logged op inside := by cases inside
  idle _ := rfl
  space := Nat.zero_le _

end Reserve

/-! ## Every run -/

/-- The log never holds more than `LOGBLOCKS` blocks, and no `log_write` and no `commit`
that processes can make in this state panics. -/
def NoPanic (start : Nat) (w : LogWorld) : Prop :=
  w.bio.log.length ≤ LOGBLOCKS ∧ ∀ e, Allowed start w e →
    ((∃ op p b, e = .logWrite op p b) ∨ ∃ p, e = .commit p) → perform start w e ≠ none

/-- In every run the log stays within `LOGBLOCKS`, and a `log_write` or a `commit` panics
exactly when it is made with `LOGBLOCKS` blocks in the log. -/
theorem panic_iff_full (start : Nat) (disk : Nat → Block) (r : Run (logStep start))
    (boot : r.state 0 = LogWorld.boot disk) (i : Nat) (bound : i ≤ r.len) :
    (r.state i).bio.log.length ≤ LOGBLOCKS ∧
      (∀ e, Allowed start (r.state i) e →
        ((∃ op p b, e = .logWrite op p b) ∨ ∃ p, e = .commit p) →
        (perform start (r.state i) e ≠ none ↔ (r.state i).bio.log.length ≠ LOGBLOCKS)) ∧
      ((r.state i).bio.log.length ≠ LOGBLOCKS → NoPanic start (r.state i)) := by
  have inv : LogInv start (r.state i) := by
    apply r.invariant (LogInv start) _ _ i bound
    · rw [boot]
      exact boot_logInv start disk
    · exact fun _ _ _ run inv => inv.step run
  refine ⟨inv.length_le, ?_, ?_⟩
  · exact fun e allowed call => (perform_none inv allowed call).not
  · intro short
    refine ⟨inv.length_le, ?_⟩
    exact fun e allowed call stops => short ((perform_none inv allowed call).mp stops)

/-- Operation `op` logs block `40 + k`, which buffer `k` is recycled for. -/
def logOne (op k : Nat) : List LogEvent :=
  [.cache (.bget op ROOTDEV (40 + k)), .cache (.acquire op k), .cache (.fill op k),
    .logWrite op op k, .cache (.brelse op k)]

def oneOp : List LogEvent :=
  [.beginOp 0] ++ logOne 0 0 ++ [.cache (.bget 0 ROOTDEV 40), .cache (.acquire 0 0), .logWrite 0 0 0,
    .cache (.brelse 0 0), .endOp 0]

theorem oneOp_noPanic : ∃ r : Run (logStep 2), r.state 0 = LogWorld.boot (fun _ _ => 0) ∧
    Allowed 2 (r.state r.len) (.commit 0) ∧ NoPanic 2 (r.state r.len) := by
  obtain ⟨r, boot, ends⟩ := Run.exists_of_exec (logStep 2) (LogWorld.boot fun _ _ => 0) oneOp
    (.commit 0) (fun w => decide (Allowed 2 w (.commit 0) ∧ w.bio.log.length ≠ LOGBLOCKS))
      (by decide +kernel)
  rw [decide_eq_true_eq] at ends
  have result := panic_iff_full 2 (fun _ _ => 0) r boot r.len (Nat.le_refl _)
  exact ⟨r, boot, ends.1, result.2.2 ends.2⟩

/-- Three operations log ten blocks each, and the first has one of its blocks in hand
again. -/
def threeOps : List LogEvent :=
  [.beginOp 0, .beginOp 1, .beginOp 2] ++ (List.range 30).flatMap (fun k => logOne (k / 10) k) ++
    [.cache (.bget 0 ROOTDEV 40), .cache (.acquire 0 0)]

/-- Writing the block again panics. -/
theorem threeOps_panic :
    ¬ ∀ r : Run (logStep 2), r.state 0 = LogWorld.boot (fun _ _ => 0) →
      ∀ i, i ≤ r.len → NoPanic 2 (r.state i) := by
  intro claim
  obtain ⟨r, boot, ends⟩ := Run.exists_of_exec (logStep 2) (LogWorld.boot fun _ _ => 0) threeOps
    (.commit 0) (fun w => decide (Allowed 2 w (.logWrite 0 0 0)) &&
      (perform 2 w (.logWrite 0 0 0)).isNone)
    (by decide +kernel)
  rw [Bool.and_eq_true, decide_eq_true_eq, Option.isNone_iff_eq_none] at ends
  exact (claim r boot r.len (Nat.le_refl _)).2 _ ends.1 (Or.inl ⟨0, 0, 0, rfl⟩) ends.2

end Xv6Fcfs.Bio
