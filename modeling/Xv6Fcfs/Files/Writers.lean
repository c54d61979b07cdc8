import Xv6Fcfs.Fs.Write
import Xv6Fcfs.Lib.Roster
import Xv6Fcfs.Lib.Runs
import Mathlib.Algebra.Order.BigOperators.Group.List

/-!
# Writers of one open file (`filewrite`)

Any number of processes write through one `struct file` on an inode.  Every statement of
`filewrite` and every round of the loop of `writei` is a step, so that the others can run in
between; `begin_op`, `ilock` and the disk may keep a process waiting anywhere.  The sources can
be read, the disk has room, and only these calls change the inode; others may lock it.
-/

set_option autoImplicit false

namespace Xv6Fcfs.Files

open Xv6Fcfs.Lib

/-- Where a process is in `filewrite(f, buf, n)`, with its local variables. -/
inductive Pc where
  | outside
  /-- In some other call, with the inode locked. -/
  | visiting
  | beginOp (buf : List UInt8) (i : Nat)
  | ilock (buf : List UInt8) (i : Nat)
  | writei (buf : List UInt8) (i : Nat)
  /-- In the loop of `writei`. -/
  | copying (buf : List UInt8) (i off tot : Nat)
  /-- `writei` has returned `r`. -/
  | wrote (buf : List UInt8) (i : Nat) (r : Int)
  /-- `f->off` has been read. -/
  | adding (buf : List UInt8) (i : Nat) (r : Int) (old : Nat)
  | iunlock (buf : List UInt8) (i : Nat) (r : Int)
  | endOp (buf : List UInt8) (i : Nat) (r : Int)
deriving DecidableEq

/-- `f->off`, the inode with its lock, and the processes. -/
structure State where
  off : Nat
  size : Nat
  data : Bytes
  lock : Option Nat
  pc : Nat → Pc
  /-- The buffers of all calls so far. -/
  called : List (List UInt8)
  /-- The buffers of the calls that have returned, with what they returned. -/
  returned : List (List UInt8 × Int)

inductive Act where
  | call (buf : List UInt8)
  | visit
  | go
deriving DecidableEq

def State.goes (s : State) (p : Nat) (pc : Pc) : State := { s with pc := upd s.pc p pc }

/-- `return ret;` -/
def State.returns (s : State) (p : Nat) (buf : List UInt8) (ret : Int) : State :=
  { s.goes p .outside with returned := (buf, ret) :: s.returned }

/-- `while (i < n)`, and behind it `ret = (i == n ? n : -1)`. -/
def State.loop (s : State) (p : Nat) (buf : List UInt8) (i : Nat) : State :=
  if i < buf.length then s.goes p (.beginOp buf i)
  else s.returns p buf (if i = buf.length then buf.length else -1)

/-- `n1` -/
def piece (buf : List UInt8) (i : Nat) : Nat := min (buf.length - i) Fs.writeMax

/-- The length of a round of `writei`. -/
def round (buf : List UInt8) (i off tot : Nat) : Nat :=
  min (piece buf i - tot) (Fs.BSIZE - off % Fs.BSIZE)

def State.copyin (s : State) (buf : List UInt8) (i off tot : Nat) : State :=
  { s with data := fun o =>
      if off ≤ o ∧ o < off + round buf i off tot then buf.getD (i + tot + (o - off)) 0 else s.data o }

/-- `if (off > ip->size) ip->size = off;` -/
def State.grow (s : State) (off : Nat) : State :=
  { s with size := if s.size < off then off else s.size }

def step (s : State) (e : Nat × Act) : Option State :=
  let p := e.1
  match s.pc p, e.2 with
  | .outside, .call buf => some ({ s with called := buf :: s.called }.loop p buf 0)
  | .outside, .visit => if s.lock = none then some { s.goes p .visiting with lock := some p } else none
  | .visiting, .go => some { s.goes p .outside with lock := none }
  | .beginOp buf i, .go => some (s.goes p (.ilock buf i))
  | .ilock buf i, .go =>
      if s.lock = none then some { s.goes p (.writei buf i) with lock := some p } else none
  | .writei buf i, .go =>
      let n := piece buf i
      if s.size < s.off ∨ Fs.addU32 s.off n < s.off ∨ Fs.MAXFILE * Fs.BSIZE < Fs.addU32 s.off n then
        some (s.goes p (.wrote buf i (-1)))
      else some (s.goes p (.copying buf i s.off 0))
  | .copying buf i off tot, .go =>
      if tot < piece buf i then
        let m := round buf i off tot
        some ((s.copyin buf i off tot).goes p (.copying buf i (off + m) (tot + m)))
      else some ((s.grow off).goes p (.wrote buf i tot))
  | .wrote buf i r, .go =>
      if 0 < r then some (s.goes p (.adding buf i r s.off))
      else some (s.goes p (.iunlock buf i r))
  | .adding buf i r old, .go => some ({ s with off := old + r.toNat }.goes p (.iunlock buf i r))
  | .iunlock buf i r, .go => some { s.goes p (.endOp buf i r) with lock := none }
  | .endOp buf i r, .go =>
      if r ≠ piece buf i then some (s.returns p buf (-1)) else some (s.loop p buf (i + piece buf i))
  | _, _ => none

def fresh (data : Bytes) : State where
  off := 0
  size := 0
  data := data
  lock := none
  pc _ := .outside
  called := []
  returned := []

def State.content (s : State) : List UInt8 := Fs.firstBytes s.data s.size

/-! ## The invariant -/

def Pc.holds : Pc → Prop
  | .visiting | .writei _ _ | .copying _ _ _ _ | .wrote _ _ _ | .adding _ _ _ _ | .iunlock _ _ _ => True
  | _ => False

def Pc.waiting : Pc → Option (List UInt8)
  | .beginOp buf _ | .ilock buf _ | .writei buf _ | .copying buf _ _ _ => some buf
  | _ => none

def Pc.stored : Pc → Option (List UInt8)
  | .wrote buf _ _ | .adding buf _ _ _ | .iunlock buf _ _ | .endOp buf _ _ => some buf
  | _ => none

def Pc.behind : Pc → Prop
  | .wrote _ _ _ | .adding _ _ _ _ => True
  | _ => False

def Fits (s : State) : Pc → Prop
  | .outside | .visiting => True
  | .beginOp _ i | .ilock _ i | .writei _ i => i = 0
  | .copying buf i off tot => i = 0 ∧ off = s.size + tot ∧ tot ≤ buf.length ∧
      ∀ j, j < tot → s.data (s.size + j) = buf.getD j 0
  | .wrote buf i r => i = 0 ∧ r = buf.length ∧ s.off + buf.length = s.size
  | .adding buf i r old => i = 0 ∧ r = buf.length ∧ old = s.off ∧ s.off + buf.length = s.size
  | .iunlock buf i r | .endOp buf i r => i = 0 ∧ r = buf.length

/-- The buffers that are in the file, in the order in which they got there; those of the calls
that have yet to store theirs, and of those that have and go on. -/
structure Accounts (s : State) (order : List (List UInt8))
    (waiting stored : List (Nat × List UInt8)) : Prop where
  called : s.called.Perm (order ++ waiting.map Prod.snd)
  come : order.Perm (s.returned.map Prod.fst ++ stored.map Prod.snd)
  waits : Roster (fun p => (s.pc p).waiting) waiting
  goes : Roster (fun p => (s.pc p).stored) stored
  content : s.content = order.flatten

structure Good (s : State) : Prop where
  accounts : ∃ order waiting stored, Accounts s order waiting stored
  whole : ∀ x ∈ s.returned, x.2 = x.1.length
  lock : ∀ p, s.lock = some p ↔ (s.pc p).holds
  fits : ∀ p, Fits s (s.pc p)
  off : (∀ p, ¬ (s.pc p).behind) → s.off = s.size

/-- The calls so far are for at most three blocks each, and together for no more than a file
can hold. -/
def Modest (s : State) : Prop :=
  (∀ buf ∈ s.called, buf.length ≤ 3 * Fs.BSIZE) ∧ (s.called.map List.length).sum ≤ Fs.MAXFILE * Fs.BSIZE

section Steps
variable {s s' : State} {p : Nat} {pc : Pc} {order : List (List UInt8)}
    {waiting stored : List (Nat × List UInt8)}
  {buf : List UInt8} {i off tot old : Nat} {r : Int}

theorem writeMax_eq : Fs.writeMax = 3 * Fs.BSIZE := rfl

theorem Fits.other (free : ¬ pc.holds) (fits : Fits s pc) : Fits s' pc := by
  cases pc <;> first | exact fits | exact absurd trivial free

theorem Fits.same (off : s'.off = s.off) (size : s'.size = s.size) (data : s'.data = s.data)
    (fits : Fits s pc) :
    Fits s' pc := by
  have eq : Fits s' pc ↔ Fits s pc := by
    cases pc <;> simp only [Fits, off, size, data]
  exact eq.mpr fits

theorem Pc.behind.holds (behind : pc.behind) : pc.holds := by
  cases pc <;> first | exact trivial | exact behind

theorem Good.move (good : Good s) (pcs : s'.pc = upd s.pc p pc)
    (accounts : ∃ order waiting stored, Accounts s' order waiting stored)
    (whole : ∀ x ∈ s'.returned, x.2 = x.1.length)
    (lock : (s'.lock = s.lock ∧ (pc.holds ↔ (s.pc p).holds)) ∨
    (s.lock = none ∧ s'.lock = some p ∧ pc.holds) ∨
      ((s.pc p).holds ∧ s'.lock = none ∧ ¬ pc.holds))
    (shared : (s'.off = s.off ∧ s'.size = s.size ∧ s'.data = s.data) ∨ (s.pc p).holds)
    (fits : Fits s' pc)
    (off : pc.behind ∨ s'.off = s'.size ∨ (¬ (s.pc p).behind ∧ s'.off = s.off ∧ s'.size = s.size)) :
    Good s' := by
  have here : s'.pc p = pc := by rw [pcs, upd_self]
  have others : ∀ q, q ≠ p → s'.pc q = s.pc q := fun q differ => by rw [pcs, upd_of_ne differ]
  refine ⟨accounts, whole, ?_, ?_, ?_⟩
  · intro q
    by_cases own : q = p
    · subst own
      rw [here]
      rcases lock with ⟨same, holds⟩ | ⟨-, mine, holds⟩ | ⟨-, free, not⟩
      · rw [same, holds]
        exact good.lock q
      · simp [mine, holds]
      · simp [free, not]
    · rw [others q own]
      rcases lock with ⟨same, -⟩ | ⟨free, mine, -⟩ | ⟨held, free, -⟩
      · rw [same]
        exact good.lock q
      · rw [← good.lock q, free, mine]
        simp [Ne.symm own]
      · rw [← good.lock q, (good.lock p).mpr held, free]
        simp [Ne.symm own]
  · intro q
    by_cases own : q = p
    · rw [own, here]
      exact fits
    · rw [others q own]
      rcases shared with ⟨sameOff, sameSize, sameData⟩ | held
      · exact (good.fits q).same sameOff sameSize sameData
      · refine (good.fits q).other fun holds => ?_
        have both := ((good.lock q).mpr holds).symm.trans ((good.lock p).mpr held)
        exact own (Option.some.inj both)
  · intro calm
    rcases off with behind | level | ⟨before, sameOff, sameSize⟩
    · exact absurd behind (by rw [← here]; exact calm p)
    · exact level
    · rw [sameOff, sameSize]
      apply good.off
      intro q
      by_cases own : q = p
      · rw [own]
        exact before
      · rw [← others q own]
        exact calm q

theorem Accounts.mem_called (acc : Accounts s order waiting stored)
    (carries : (s.pc p).waiting = some buf ∨ (s.pc p).stored = some buf) : buf ∈ s.called := by
  rw [acc.called.mem_iff, List.mem_append]
  rcases carries with waits | goes
  · exact Or.inr (List.mem_map.mpr ⟨(p, buf), (acc.waits.mem p buf).mpr waits, rfl⟩)
  · left
    rw [acc.come.mem_iff, List.mem_append]
    exact Or.inr (List.mem_map.mpr ⟨(p, buf), (acc.goes.mem p buf).mpr goes, rfl⟩)

theorem Accounts.keep (acc : Accounts s order waiting stored) (pcs : s'.pc = upd s.pc p pc)
    (waits : pc.waiting = (s.pc p).waiting) (goes : pc.stored = (s.pc p).stored)
    (called : s'.called = s.called)
    (returned : s'.returned = s.returned) (content : s'.content = s.content) :
    Accounts s' order waiting stored := by
  have same : ∀ {α : Type} (f : Pc → α), f pc = f (s.pc p) → ∀ q, f (s'.pc q) = f (s.pc q) := by
    intro α f here q
    rw [pcs]
    rcases upd_cases s.pc p pc q with ⟨rfl, new⟩ | ⟨-, old⟩
    · rw [new, here]
    · rw [old]
  refine ⟨by rw [called]; exact acc.called, by rw [returned]; exact acc.come,
    acc.waits.congr (same Pc.waiting waits),
    acc.goes.congr (same Pc.stored goes), by rw [content]; exact acc.content⟩

theorem Good.goes (good : Good s) (waits : pc.waiting = (s.pc p).waiting)
    (stores : pc.stored = (s.pc p).stored)
    (holds : pc.holds ↔ (s.pc p).holds) (behind : pc.behind ↔ (s.pc p).behind) (fits : Fits s pc) :
    Good (s.goes p pc) := by
  obtain ⟨order, waiting, stored, acc⟩ := good.accounts
  refine good.move rfl ⟨order, waiting, stored, acc.keep rfl waits stores rfl rfl rfl⟩ good.whole
    (Or.inl ⟨rfl, holds⟩) (Or.inl ⟨rfl, rfl, rfl⟩) (fits.same rfl rfl rfl) ?_
  by_cases now : pc.behind
  · exact Or.inl now
  · exact Or.inr (Or.inr ⟨fun before => now (behind.mpr before), rfl, rfl⟩)

theorem Good.takes (good : Good s) (free : s.lock = none) (waits : pc.waiting = (s.pc p).waiting)
    (stores : pc.stored = (s.pc p).stored) (holds : pc.holds) (before : ¬ (s.pc p).behind)
    (fits : Fits s pc) :
    Good { s.goes p pc with lock := some p } := by
  obtain ⟨order, waiting, stored, acc⟩ := good.accounts
  exact good.move rfl ⟨order, waiting, stored, acc.keep rfl waits stores rfl rfl rfl⟩ good.whole
    (Or.inr (Or.inl ⟨free, rfl, holds⟩)) (Or.inl ⟨rfl, rfl, rfl⟩) (fits.same rfl rfl rfl)
    (Or.inr (Or.inr ⟨before, rfl, rfl⟩))

theorem Good.gives (good : Good s) (held : (s.pc p).holds) (waits : pc.waiting = (s.pc p).waiting)
    (stores : pc.stored = (s.pc p).stored) (holds : ¬ pc.holds) (before : ¬ (s.pc p).behind)
    (fits : Fits s pc) :
    Good { s.goes p pc with lock := none } := by
  obtain ⟨order, waiting, stored, acc⟩ := good.accounts
  exact good.move rfl ⟨order, waiting, stored, acc.keep rfl waits stores rfl rfl rfl⟩ good.whole
    (Or.inr (Or.inr ⟨held, rfl, holds⟩)) (Or.inl ⟨rfl, rfl, rfl⟩) (fits.same rfl rfl rfl)
    (Or.inr (Or.inr ⟨before, rfl, rfl⟩))

theorem Good.level (good : Good s) (held : (s.pc p).holds) (before : ¬ (s.pc p).behind) :
    s.off = s.size := by
  apply good.off
  intro q behind
  have both := ((good.lock q).mpr behind.holds).symm.trans ((good.lock p).mpr held)
  obtain rfl := Option.some.inj both
  exact before behind

theorem Good.call (good : Good s) (here : s.pc p = .outside) (buf : List UInt8) :
    Good ({ s with called := buf :: s.called }.loop p buf 0) := by
  obtain ⟨order, waiting, stored, acc⟩ := good.accounts
  have others : ∀ {α : Type} (f : Pc → α) (pc : Pc) (q : Nat), q ≠ p →
    f (upd s.pc p pc q) = f (s.pc q) := by
    intro α f pc q differ
    rw [upd_of_ne differ]
  unfold State.loop
  split
  next more =>
    refine good.move rfl ⟨order, (p, buf) :: waiting, stored, ?_⟩ good.whole
      (Or.inl ⟨rfl, by rw [here]; rfl⟩)
      (Or.inl ⟨rfl, rfl, rfl⟩) rfl (Or.inr (Or.inr ⟨by rw [here]; exact id, rfl, rfl⟩))
    refine ⟨?_, acc.come, ?_, ?_, acc.content⟩
    · rw [List.map_cons]
      exact (acc.called.cons buf).trans List.perm_middle.symm
    · refine acc.waits.add (i := p) (a := buf) (by rw [here]; rfl) ?_ (others Pc.waiting _)
      simp only [State.goes, upd_self, Pc.waiting]
    · refine acc.goes.congr fun q => ?_
      by_cases own : q = p
      · subst own
        rw [here]
        simp only [State.goes, upd_self, Pc.stored]
      · exact others Pc.stored _ q own
  next none =>
    obtain rfl : buf = [] := List.length_eq_zero_iff.mp (by omega)
    refine good.move rfl ⟨[] :: order, waiting, stored, ?_⟩ ?_ (Or.inl ⟨rfl, by rw [here]⟩)
      (Or.inl ⟨rfl, rfl, rfl⟩) trivial (Or.inr (Or.inr ⟨by rw [here]; exact id, rfl, rfl⟩))
    · have same : ∀ {α : Type} (f : Pc → α) (q : Nat), f (upd s.pc p .outside q) = f (s.pc q) := by
        intro α f q
        rw [← here, upd_eq_self]
      exact ⟨acc.called.cons [], acc.come.cons [], acc.waits.congr (same Pc.waiting),
        acc.goes.congr (same Pc.stored), acc.content⟩
    · intro x inside
      rcases List.mem_cons.mp inside with rfl | before
      · rfl
      · exact good.whole x before

theorem Good.returns (good : Good s) (here : s.pc p = .endOp buf i r) :
    Good (s.returns p buf buf.length) := by
  obtain ⟨order, waiting, stored, acc⟩ := good.accounts
  have others : ∀ {α : Type} (f : Pc → α) (q : Nat), q ≠ p →
    f (upd s.pc p .outside q) = f (s.pc q) := by
    intro α f q differ
    rw [upd_of_ne differ]
  obtain ⟨rest, shuffle, goes⟩ := acc.goes.remove (i := p) (a := buf) (by rw [here]; rfl)
    (by rw [upd_self]; rfl) (others Pc.stored)
  refine good.move rfl ⟨order, waiting, rest, acc.called, ?_, ?_, goes, acc.content⟩ ?_
    (Or.inl ⟨rfl, by rw [here]; rfl⟩) (Or.inl ⟨rfl, rfl, rfl⟩) trivial
    (Or.inr (Or.inr ⟨by rw [here]; exact id, rfl, rfl⟩))
  · have come := acc.come.trans ((List.Perm.refl _).append (shuffle.map Prod.snd))
    rw [List.map_cons] at come
    exact come.trans List.perm_middle
  · refine acc.waits.congr fun q => ?_
    by_cases own : q = p
    · subst own
      rw [here]
      simp only [State.returns, State.goes, upd_self, Pc.waiting]
    · exact others Pc.waiting q own
  · intro x inside
    rcases List.mem_cons.mp inside with rfl | before
    · rfl
    · exact good.whole x before

theorem length_content : s.content.length = s.size := Fs.length_firstBytes

theorem Good.fits_in (good : Good s) (modest : Modest s) (carries : (s.pc p).waiting = some buf) :
    s.size + buf.length ≤ Fs.MAXFILE * Fs.BSIZE ∧ piece buf 0 = buf.length := by
  obtain ⟨order, waiting, stored, acc⟩ := good.accounts
  obtain ⟨short, total⟩ := modest
  have sums := (acc.called.map List.length).sum_nat
  rw [List.map_append, List.sum_append] at sums
  have listed : (p, buf) ∈ waiting := (acc.waits.mem p buf).mpr carries
  have one : buf.length ≤ ((waiting.map Prod.snd).map List.length).sum :=
    List.le_sum_of_mem (List.mem_map.mpr ⟨buf, List.mem_map.mpr ⟨_, listed, rfl⟩, rfl⟩)
  have all : s.size = (order.map List.length).sum := by
    rw [← length_content, acc.content, List.length_flatten]
  have most := short buf (acc.mem_called (Or.inl carries))
  refine ⟨by omega, ?_⟩
  rw [piece, writeMax_eq]
  omega

theorem Good.writei (good : Good s) (modest : Modest s) (here : s.pc p = .writei buf i) :
    ¬ (s.size < s.off ∨ Fs.addU32 s.off (piece buf i) < s.off ∨
      Fs.MAXFILE * Fs.BSIZE < Fs.addU32 s.off (piece buf i)) ∧
        Good (s.goes p (.copying buf i s.off 0)) := by
  have level : s.off = s.size := good.level (p := p) (by rw [here]; trivial) (by rw [here]; exact id)
  have zero := good.fits p
  rw [here] at zero
  obtain rfl : i = 0 := zero
  obtain ⟨room, all⟩ := good.fits_in modest (p := p) (by rw [here]; rfl)
  constructor
  · rw [all, level]
    have sum : Fs.addU32 s.size buf.length = s.size + buf.length := by
      simp only [Fs.addU32, Fs.MAXFILE, Fs.NDIRECT, Fs.NINDIRECT, Fs.BSIZE] at room ⊢
      omega
    rw [sum]
    omega
  · refine good.goes (by rw [here]; rfl) (by rw [here]; rfl) (by rw [here]; rfl) (by rw [here]; rfl) ?_
    exact ⟨rfl, by rw [level, Nat.add_zero], Nat.zero_le _, fun j no => absurd no (Nat.not_lt_zero j)⟩

theorem Good.copying (good : Good s) (modest : Modest s) (here : s.pc p = .copying buf i off tot) :
    Good ((s.copyin buf i off tot).goes p
      (.copying buf i (off + round buf i off tot) (tot + round buf i off tot))) := by
  obtain ⟨order, waiting, stored, acc⟩ := good.accounts
  have fits := good.fits p
  rw [here] at fits
  obtain ⟨rfl, rfl, short, bytes⟩ := fits
  obtain ⟨-, all⟩ := good.fits_in modest (p := p) (by rw [here]; rfl)
  have most : tot + round buf 0 (s.size + tot) tot ≤ buf.length := by
    rw [round, all]
    omega
  have content : ((s.copyin buf 0 (s.size + tot) tot).goes p
      (.copying buf 0 (s.size + tot + round buf 0 (s.size + tot) tot)
        (tot + round buf 0 (s.size + tot) tot))).content = s.content := by
    refine List.map_congr_left fun o inside => ?_
    have before := List.mem_range.mp inside
    exact if_neg (by simp only [State.goes, State.copyin] at before; omega)
  refine good.move rfl ⟨order, waiting, stored, acc.keep rfl (by rw [here]; rfl)
    (by rw [here]; rfl) rfl rfl content⟩
    good.whole (Or.inl ⟨rfl, by rw [here]; rfl⟩) (Or.inr (by rw [here]; trivial)) ?_
    (Or.inr (Or.inr ⟨by rw [here]; exact id, rfl, rfl⟩))
  refine ⟨rfl, by simp only [State.goes, State.copyin]; omega, most, ?_⟩
  intro j inside
  simp only [State.goes, State.copyin]
  by_cases new : tot ≤ j
  · rw [if_pos (by omega)]
    congr 1
    omega
  · rw [if_neg (by omega)]
    exact bytes j (by omega)

theorem firstBytes_grow (data : Bytes) (size : Nat)
    (bytes : ∀ j, j < buf.length → data (size + j) = buf.getD j 0) :
    Fs.firstBytes data (size + buf.length) = Fs.firstBytes data size ++ buf := by
  rw [← Fs.firstBytes_append]
  congr 1
  apply List.ext_getElem (by simp [Fs.length_firstBytes])
  intro j _ inside
  simp [Fs.firstBytes, bytes j inside, inside]

theorem Good.stores (good : Good s) (modest : Modest s) (here : s.pc p = .copying buf i off tot)
    (done : ¬ tot < piece buf i) : Good ((s.grow off).goes p (.wrote buf i tot)) := by
  obtain ⟨order, waiting, stored, acc⟩ := good.accounts
  have level : s.off = s.size := good.level (p := p) (by rw [here]; trivial) (by rw [here]; exact id)
  have fits := good.fits p
  rw [here] at fits
  obtain ⟨rfl, rfl, short, bytes⟩ := fits
  obtain ⟨-, all⟩ := good.fits_in modest (p := p) (by rw [here]; rfl)
  obtain rfl : tot = buf.length := by omega
  have size : (s.grow (s.size + buf.length)).size = s.size + buf.length := by
    simp only [State.grow]
    split <;> omega
  have others : ∀ {α : Type} (f : Pc → α) (pc : Pc) (q : Nat), q ≠ p →
    f (upd s.pc p pc q) = f (s.pc q) := by
    intro α f pc q differ
    rw [upd_of_ne differ]
  obtain ⟨rest, shuffle, waits⟩ := acc.waits.remove (i := p) (a := buf) (by rw [here]; rfl)
    (by rw [upd_self]; rfl) (others Pc.waiting (.wrote buf 0 buf.length))
  refine good.move rfl ⟨order ++ [buf], rest, (p, buf) :: stored, ?_, ?_, waits, ?_, ?_⟩ good.whole
    (Or.inl ⟨rfl, by rw [here]; rfl⟩) (Or.inr (by rw [here]; trivial)) ?_ (Or.inl trivial)
  · have called := acc.called.trans ((List.Perm.refl _).append (shuffle.map Prod.snd))
    show s.called.Perm _
    rw [List.append_assoc]
    exact called
  · rw [List.map_cons]
    exact (List.perm_append_singleton buf order).trans ((acc.come.cons buf).trans List.perm_middle.symm)
  · refine acc.goes.add (i := p) (a := buf) (by rw [here]; rfl) ?_ (others Pc.stored _)
    simp only [State.goes, upd_self, Pc.stored]
  · show Fs.firstBytes s.data (s.grow (s.size + buf.length)).size = _
    rw [size, firstBytes_grow s.data s.size bytes]
    simp only [List.flatten_append, List.flatten_singleton]
    rw [← acc.content]
    rfl
  · exact ⟨rfl, rfl, by rw [State.goes, size]; exact congrArg (· + buf.length) level⟩

theorem Good.added (good : Good s) (here : s.pc p = .adding buf i r old) :
    Good ({ s with off := old + r.toNat }.goes p (.iunlock buf i r)) := by
  obtain ⟨order, waiting, stored, acc⟩ := good.accounts
  have fits := good.fits p
  rw [here] at fits
  obtain ⟨rfl, rfl, rfl, end'⟩ := fits
  exact good.move rfl ⟨order, waiting, stored, acc.keep rfl (by rw [here]; rfl)
    (by rw [here]; rfl) rfl rfl rfl⟩
    good.whole (Or.inl ⟨rfl, by rw [here]; rfl⟩) (Or.inr (by rw [here]; trivial)) ⟨rfl, rfl⟩
    (Or.inr (Or.inl end'))

theorem Good.ends (good : Good s) (modest : Modest s) (here : s.pc p = .endOp buf i r) :
    r = piece buf i ∧ Good (s.loop p buf (i + piece buf i)) := by
  obtain ⟨order, waiting, stored, acc⟩ := good.accounts
  have fits := good.fits p
  rw [here] at fits
  obtain ⟨rfl, rfl⟩ := fits
  have short := modest.1 buf (acc.mem_called (p := p) (Or.inr (by rw [here]; rfl)))
  have all : piece buf 0 = buf.length := by
    rw [piece, writeMax_eq]
    omega
  rw [all, Nat.zero_add, State.loop, if_neg (Nat.lt_irrefl _), if_pos rfl]
  exact ⟨rfl, good.returns here⟩

theorem step_good {e : Nat × Act} (run : step s e = some s') (modest : Modest s)
    (good : Good s) : Good s' := by
  obtain ⟨p, act⟩ := e
  have fits := good.fits p
  cases here : s.pc p with
  | outside =>
      cases act with
      | call buf =>
          simp only [step, here, Option.some.injEq] at run
          rw [← run]
          exact good.call here buf
      | visit =>
          simp only [step, here] at run
          split at run
          next free =>
            cases run
            exact good.takes free (by rw [here]; rfl) (by rw [here]; rfl) trivial
              (by rw [here]; exact id) trivial
          next => cases run
      | go => simp only [step, here, reduceCtorEq] at run
  | visiting =>
      cases act <;> simp only [step, here, Option.some.injEq, reduceCtorEq] at run
      rw [← run]
      exact good.gives (by rw [here]; trivial) (by rw [here]; rfl) (by rw [here]; rfl) id
        (by rw [here]; exact id)
        trivial
  | beginOp buf i =>
      cases act <;> simp only [step, here, Option.some.injEq, reduceCtorEq] at run
      rw [here] at fits
      rw [← run]
      exact good.goes (by rw [here]; rfl) (by rw [here]; rfl) (by rw [here]; rfl)
        (by rw [here]; rfl) fits
  | ilock buf i =>
      cases act <;> simp only [step, here, reduceCtorEq] at run
      rw [here] at fits
      split at run
      next free =>
        cases run
        exact good.takes free (by rw [here]; rfl) (by rw [here]; rfl) trivial
          (by rw [here]; exact id) fits
      next => cases run
  | writei buf i =>
      cases act <;> simp only [step, here, reduceCtorEq] at run
      obtain ⟨inside, next⟩ := good.writei modest here
      rw [if_neg inside] at run
      cases run
      exact next
  | copying buf i off tot =>
      cases act <;> simp only [step, here, reduceCtorEq] at run
      split at run
      next more =>
        cases run
        exact good.copying modest here
      next done =>
        cases run
        exact good.stores modest here done
  | wrote buf i r =>
      cases act <;> simp only [step, here, reduceCtorEq] at run
      rw [here] at fits
      obtain ⟨zero, count, level⟩ := fits
      split at run
      next some =>
        cases run
        exact good.goes (by rw [here]; rfl) (by rw [here]; rfl) (by rw [here]; rfl) (by rw [here]; rfl)
          ⟨zero, count, rfl, level⟩
      next none =>
        cases run
        obtain ⟨order, waiting, stored, acc⟩ := good.accounts
        refine good.move rfl ⟨order, waiting, stored, acc.keep rfl (by rw [here]; rfl)
          (by rw [here]; rfl) rfl rfl rfl⟩
          good.whole (Or.inl ⟨rfl, by rw [here]; rfl⟩) (Or.inl ⟨rfl, rfl, rfl⟩)
            ⟨zero, count⟩ (Or.inr (Or.inl ?_))
        show s.off = s.size
        omega
  | adding buf i r old =>
      cases act <;> simp only [step, here, Option.some.injEq, reduceCtorEq] at run
      rw [← run]
      exact good.added here
  | iunlock buf i r =>
      cases act <;> simp only [step, here, Option.some.injEq, reduceCtorEq] at run
      rw [here] at fits
      rw [← run]
      exact good.gives (by rw [here]; trivial) (by rw [here]; rfl) (by rw [here]; rfl) id
        (by rw [here]; exact id) fits
  | endOp buf i r =>
      cases act <;> simp only [step, here, reduceCtorEq] at run
      obtain ⟨all, next⟩ := good.ends modest here
      rw [if_neg (not_not.mpr all)] at run
      cases run
      exact next

theorem State.loop_called (s : State) (p : Nat) (buf : List UInt8) (i : Nat) :
    (s.loop p buf i).called = s.called := by
  unfold State.loop
  split <;> rfl

theorem step_called {e : Nat × Act} (run : step s e = some s') :
    s'.called = s.called ∨ ∃ buf, s'.called = buf :: s.called := by
  obtain ⟨p, act⟩ := e
  cases act with
  | call buf =>
      cases here : s.pc p <;> simp only [step, here, Option.some.injEq, reduceCtorEq] at run
      rw [← run, State.loop_called]
      exact Or.inr ⟨buf, rfl⟩
  | visit =>
      cases here : s.pc p <;> simp only [step, here, reduceCtorEq] at run
      split at run <;> cases run
      exact Or.inl rfl
  | go =>
      left
      cases here : s.pc p <;> simp only [step, here, Option.some.injEq, reduceCtorEq] at run <;>
        first
        | (rw [← run]; rfl)
        | (split at run <;> cases run <;> first | rfl | exact State.loop_called ..)

theorem step_modest {e : Nat × Act} (run : step s e = some s') (modest : Modest s') : Modest s := by
  obtain ⟨short, total⟩ := modest
  rcases step_called run with same | ⟨buf, more⟩
  · rw [same] at short total
    exact ⟨short, total⟩
  · rw [more] at short total
    rw [List.map_cons, List.sum_cons] at total
    exact ⟨fun b inside => short b (List.mem_cons_of_mem _ inside), by omega⟩

theorem fresh_good (data : Bytes) : Good (fresh data) where
  accounts := ⟨[], [], [], .refl _, .refl _, .nil fun _ => rfl, .nil fun _ => rfl, rfl⟩
  whole x inside := absurd inside (List.not_mem_nil)
  lock p := by simp [fresh, Pc.holds]
  fits p := trivial
  off _ := rfl

theorem run_good {data : Bytes} (run : Run step) (start : run.state 0 = fresh data) {k : Nat}
    (within : k ≤ run.len)
    (modest : Modest (run.state k)) : Good (run.state k) := by
  have before : ∀ j, j ≤ k → Modest (run.state j) := by
    intro j low
    by_contra large
    refine run.between (fun i => ¬ Modest (run.state i)) j k within large ?_ k low
      (Nat.le_refl k) modest
    exact fun i _ _ next no yes => no (step_modest next yes)
  refine run.between (fun i => Good (run.state i)) 0 k within ?_ ?_ k (Nat.zero_le k) (Nat.le_refl k)
  · rw [start]
    exact fresh_good data
  · exact fun i _ inside next good => step_good next (before i (by omega)) good

end Steps

/-- At every moment the file is a sequence of whole buffers, those of all calls that have
returned among them, and these returned their full length.  When all calls have returned, it
is the buffers of all of them in some order, and the offset is the size. -/
theorem writers_lose_nothing {data : Bytes} (run : Run step)
    (start : run.state 0 = fresh data) {k : Nat}
    (within : k ≤ run.len) (modest : Modest (run.state k)) :
    (∀ x ∈ (run.state k).returned, x.2 = x.1.length) ∧
    ∃ order : List (List UInt8), (run.state k).content = order.flatten ∧
      ((run.state k).returned.map Prod.fst).Subperm order ∧
      ((run.state k).returned.length = (run.state k).called.length →
        order.Perm ((run.state k).returned.map Prod.fst) ∧ order.Perm (run.state k).called ∧
          (run.state k).off = (run.state k).size) := by
  have good := run_good run start within modest
  obtain ⟨order, waiting, stored, acc⟩ := good.accounts
  refine ⟨good.whole, order, acc.content, ?_, ?_⟩
  · exact (List.sublist_append_left _ _).subperm.trans acc.come.symm.subperm
  · intro all
    have called := acc.called.length_eq
    have come := acc.come.length_eq
    simp only [List.length_append, List.length_map] at called come
    obtain rfl : waiting = [] := List.length_eq_zero_iff.mp (by omega)
    obtain rfl : stored = [] := List.length_eq_zero_iff.mp (by omega)
    refine ⟨by simpa using acc.come, by simpa using acc.called.symm, ?_⟩
    apply good.off
    intro p behind
    obtain ⟨buf, carries⟩ : ∃ buf, ((run.state k).pc p).stored = some buf := by
      cases here : (run.state k).pc p <;> rw [here] at behind <;>
        first | exact ⟨_, rfl⟩ | exact behind.elim
    cases (acc.goes.mem p buf).mpr carries

/-- Two writers; the second begins while the first has the lock. -/
def twoWriters : List (Nat × Act) :=
  [(0, .call [1, 2]), (1, .call [3]), (0, .go), (1, .go), (0, .go), (0, .go), (0, .go),
    (0, .go), (0, .go),
    (0, .go), (0, .go), (1, .go), (0, .go), (1, .go), (1, .go), (1, .go), (1, .go), (1, .go),
      (1, .go), (1, .go)]

theorem two_writers_lose_nothing : ∃ s : State, s.called = [[3], [1, 2]] ∧ s.off = s.size ∧
    ∃ order : List (List UInt8), s.content = order.flatten ∧ order.Perm [[3], [1, 2]] := by
  obtain ⟨run, start, ends⟩ := Run.exists_of_exec step (fresh fun _ => 0) twoWriters (0, .go)
    (fun s => decide (s.called = [[3], [1, 2]] ∧ s.returned.length = 2)) (by decide +kernel)
  obtain ⟨called, count⟩ := of_decide_eq_true ends
  have modest : Modest (run.state run.len) := by
    rw [Modest, called]
    decide
  obtain ⟨-, order, content, -, all⟩ := writers_lose_nothing run start (Nat.le_refl _) modest
  obtain ⟨-, perm, off⟩ := all (by rw [called, count]; rfl)
  exact ⟨run.state run.len, called, off, order, content, by rw [called] at perm; exact perm⟩

end Xv6Fcfs.Files
