import Mathlib.Data.List.Perm.Basic
import Xv6Fcfs.Bio.Model

/-!
# The structure of the buffer cache

The list of all buffers, the keys and the reference counts are three separate parts of the
state, and each event touches few of them.  The invariant is the conjunction of one
predicate on each part.
-/

set_option autoImplicit false

namespace Xv6Fcfs.Bio

open Xv6Fcfs.Lib

/-- Buffer `a` was released later than buffer `b`; buffers never released come last. -/
def Newer (released : Nat → Nat) (a b : Nat) : Prop :=
  released b < released a ∨ (released a = 0 ∧ released b = 0)

/-- One cyclic list of all buffers in the order of their release. -/
def Listed (k : Links) (released : Nat → Nat) : Prop :=
  ∃ l, IsRing k head l ∧ l.Perm (List.range NBUF) ∧ l.Pairwise (Newer released)

def InLog (log : List Nat) (bp : Buf) : Prop := bp.dev = ROOTDEV ∧ bp.blockno ∈ log

instance (log : List Nat) (bp : Buf) : Decidable (InLog log bp) :=
  inferInstanceAs (Decidable (bp.dev = ROOTDEV ∧ bp.blockno ∈ log))

def logRef (log : List Nat) (bp : Buf) : Nat := if InLog log bp then 1 else 0

/-- Holders and waiters of buffer `b`. -/
def World.users (w : World) (b : Nat) : Nat :=
  (if (w.holder b).isSome then 1 else 0) + w.waiters.countP fun x => x.2 == b

structure Keyed (buf : Nat → Buf) (log : List Nat) : Prop where
  unique : ∀ a b, a < NBUF → b < NBUF → (buf a).dev ≠ 0 → (buf a).dev = (buf b).dev →
    (buf a).blockno = (buf b).blockno → a = b
  logged : ∀ n, n ∈ log → ∃ b, b < NBUF ∧ (buf b).dev = ROOTDEV ∧ (buf b).blockno = n ∧
    (buf b).valid = true
  once : log.Nodup

structure Counted (w : World) : Prop where
  refs : ∀ b, b < NBUF → (w.cache.buf b).refcnt = w.users b + logRef w.log (w.cache.buf b)
  holds : ∀ b p, w.holder b = some p → b < NBUF
  waits : ∀ p b, (p, b) ∈ w.waiters → b < NBUF

structure Inv (w : World) : Prop where
  listed : Listed w.cache.links w.released
  clock : ∀ b, w.released b ≤ w.now
  keyed : Keyed w.cache.buf w.log
  counted : Counted w

/-! ## The list -/

section List
variable {k : Links} {released : Nat → Nat} {c : Bcache} {b dev blockno now : Nat}

theorem binit_ring : ∀ (l : List Nat) (k : Links) (m : List Nat), IsRing k head m →
    (∀ b, b ∈ l → b ∉ head :: m) → l.Nodup →
    IsRing (l.foldl (fun k b => k.push head b) k) head (l.reverse ++ m) := by
  intro l
  induction l with
  | nil => intro k m ring _ _; exact ring
  | cons b rest ih =>
      intro k m ring fresh nodup
      rw [List.nodup_cons] at nodup
      have next := ih (k.push head b) (b :: m) (ring.push (fresh b (by simp))) ?_ nodup.2
      · simpa using next
      · intro x inside
        have old := fresh x (List.mem_cons_of_mem b inside)
        have differ : x ≠ b := by
          rintro rfl
          exact nodup.1 inside
        simp only [List.mem_cons, not_or] at old ⊢
        exact ⟨old.1, differ, old.2⟩

theorem binit_listed : Listed binit.links fun _ => 0 := by
  refine ⟨(List.range NBUF).reverse, ?_, List.reverse_perm _, ?_⟩
  · have ring := binit_ring (List.range NBUF)
      { next := upd (fun _ => 0) head head, prev := upd (fun _ => 0) head head } []
      (IsRing.empty (upd_self head head fun _ => 0) (upd_self head head fun _ => 0)) ?_
      List.nodup_range
    · simpa [binit] using ring
    · intro b inside
      have low := List.mem_range.mp inside
      simp only [List.mem_singleton, head]
      omega
  · exact List.Pairwise.imp (fun _ => Or.inr ⟨rfl, rfl⟩) (List.pairwise_of_forall fun _ _ => trivial)

theorem Listed.length {l : List Nat} (perm : l.Perm (List.range NBUF)) : l.length < NBUF + 1 := by
  rw [perm.length_eq, List.length_range]
  omega

theorem Listed.toFront (listed : Listed k released) (clock : ∀ b, released b ≤ now)
    (bound : b < NBUF) : Listed ((k.remove b).push head b) (upd released b (now + 1)) := by
  obtain ⟨l, ring, perm, order⟩ := listed
  have member : b ∈ l := perm.mem_iff.mpr (List.mem_range.mpr bound)
  obtain ⟨l₁, l₂, rfl⟩ := List.append_of_mem member
  have nodup : (b :: (l₁ ++ l₂)).Nodup :=
    List.nodup_middle.mp (List.nodup_cons.mp ring.nodup).2
  refine ⟨b :: (l₁ ++ l₂), ring.toFront, List.perm_middle.symm.trans perm, ?_⟩
  have away : ∀ x, x ∈ l₁ ++ l₂ → upd released b (now + 1) x = released x := by
    intro x inside
    apply upd_of_ne
    rintro rfl
    exact (List.nodup_cons.mp nodup).1 inside
  refine List.pairwise_cons.mpr ⟨?_, ?_⟩
  · intro x inside
    left
    rw [away x inside, upd_self]
    exact Nat.lt_succ_of_le (clock x)
  · have rest : (l₁ ++ l₂).Pairwise (Newer released) :=
      order.sublist ((List.Sublist.refl l₁).append (List.sublist_cons_self b l₂))
    refine rest.imp_of_mem ?_
    intro x y inX inY newer
    simpa only [Newer, away x inX, away y inY] using newer

/-- The first loop of `bget` finds the block if and only if it is cached. -/
theorem cached_eq_some (listed : Listed c.links released) (found : cached dev blockno c = some b) :
    b < NBUF ∧ (c.buf b).dev = dev ∧ (c.buf b).blockno = blockno := by
  obtain ⟨l, ring, perm, -⟩ := listed
  rw [cached, ring.walk (Listed.length perm)] at found
  have test := List.find?_some found
  simp only [Bool.and_eq_true, beq_iff_eq] at test
  exact ⟨List.mem_range.mp (perm.mem_iff.mp (List.mem_of_find?_eq_some found)), test⟩

theorem cached_eq_none (listed : Listed c.links released) (missed : cached dev blockno c = none)
    (bound : b < NBUF) : ¬ ((c.buf b).dev = dev ∧ (c.buf b).blockno = blockno) := by
  obtain ⟨l, ring, perm, -⟩ := listed
  rw [cached, ring.walk (Listed.length perm), List.find?_eq_none] at missed
  have test := missed b (perm.mem_iff.mpr (List.mem_range.mpr bound))
  simpa using test

theorem unused_eq_some (listed : Listed c.links released) (found : unused c = some b) :
    b < NBUF ∧ (c.buf b).refcnt = 0 ∧
      ∀ a, a < NBUF → (c.buf a).refcnt = 0 → released b ≤ released a := by
  obtain ⟨l, ring, perm, order⟩ := listed
  rw [unused, ring.walkBack (Listed.length perm)] at found
  obtain ⟨test, as, bs, shape, before⟩ := List.find?_eq_some_iff_append.mp found
  have back : l = bs.reverse ++ b :: as.reverse := by
    rw [← List.reverse_reverse l, shape]
    simp
  refine ⟨?_, by simpa using test, ?_⟩
  · have inside : b ∈ l := by rw [back]; simp
    exact List.mem_range.mp (perm.mem_iff.mp inside)
  · intro a bound zero
    have inside : a ∈ l := perm.mem_iff.mpr (List.mem_range.mpr bound)
    rw [back, List.mem_append, List.mem_cons, List.mem_reverse, List.mem_reverse] at inside
    rcases inside with early | rfl | late
    · rw [back, List.pairwise_append] at order
      rcases order.2.2 a (List.mem_reverse.mpr early) b (by simp) with less | ⟨-, never⟩
      · omega
      · omega
    · exact Nat.le_refl _
    · have busy := before a late
      simp [zero] at busy

theorem unused_eq_none (listed : Listed c.links released) (missed : unused c = none)
    (bound : b < NBUF) : 0 < (c.buf b).refcnt := by
  obtain ⟨l, ring, perm, -⟩ := listed
  rw [unused, ring.walkBack (Listed.length perm), List.find?_eq_none] at missed
  have test := missed b (List.mem_reverse.mpr (perm.mem_iff.mpr (List.mem_range.mpr bound)))
  simp only [beq_iff_eq] at test
  omega

end List

/-! ## Keys -/

section Keys
variable {buf buf' : Nat → Buf} {log log' : List Nat} {b : Nat}

theorem logRef_congr {bp bp' : Buf} (same : InLog log' bp' ↔ InLog log bp) :
    logRef log' bp' = logRef log bp := by
  simp only [logRef, same]

theorem logRef_same {bp bp' : Buf} (dev : bp'.dev = bp.dev) (blockno : bp'.blockno = bp.blockno) :
    logRef log bp' = logRef log bp := by
  apply logRef_congr
  rw [InLog, InLog, dev, blockno]

theorem Keyed.same (keyed : Keyed buf log)
    (keys : ∀ a, (buf' a).dev = (buf a).dev ∧ (buf' a).blockno = (buf a).blockno)
    (valid : ∀ a, (buf a).valid = true → (buf' a).valid = true) : Keyed buf' log where
  unique a b := by
    rw [(keys a).1, (keys a).2, (keys b).1, (keys b).2]
    exact keyed.unique a b
  logged n inside := by
    obtain ⟨a, bound, dev, blockno, ok⟩ := keyed.logged n inside
    exact ⟨a, bound, by rw [(keys a).1, dev], by rw [(keys a).2, blockno], valid a ok⟩
  once := keyed.once

theorem Keyed.alone (keyed : Keyed buf log) {a : Nat} (boundA : a < NBUF) (boundB : b < NBUF)
    (dev : (buf b).dev = ROOTDEV) (same : (buf a).dev = ROOTDEV)
    (block : (buf a).blockno = (buf b).blockno) : a = b :=
  keyed.unique a b boundA boundB (by rw [same]; decide) (by rw [same, dev]) block

end Keys

/-! ## Events -/

section Events
variable {w w' : World} {p b dev blockno : Nat}

theorem Inv.setData (inv : Inv w) {e : Buf} {disk : Nat → Block}
    (dev : e.dev = (w.cache.buf b).dev) (blockno : e.blockno = (w.cache.buf b).blockno)
    (refcnt : e.refcnt = (w.cache.buf b).refcnt)
    (valid : (w.cache.buf b).valid = true → e.valid = true) :
    Inv { w with cache := setBuf b e w.cache, disk := disk } := by
  have same : ∀ a, (upd w.cache.buf b e a).dev = (w.cache.buf a).dev ∧
      (upd w.cache.buf b e a).blockno = (w.cache.buf a).blockno ∧
      (upd w.cache.buf b e a).refcnt = (w.cache.buf a).refcnt ∧
      ((w.cache.buf a).valid = true → (upd w.cache.buf b e a).valid = true) := by
    intro a
    by_cases here : a = b
    · rw [here, upd_self]
      exact ⟨dev, blockno, refcnt, valid⟩
    · rw [upd_of_ne here]
      exact ⟨rfl, rfl, rfl, id⟩
  refine ⟨inv.listed, inv.clock, ?_, ?_, inv.counted.holds, inv.counted.waits⟩
  · exact inv.keyed.same (fun a => ⟨(same a).1, (same a).2.1⟩) fun a => (same a).2.2.2
  · intro a bound
    simp only [setBuf, (same a).2.2.1]
    rw [logRef_same (same a).1 (same a).2.1]
    exact inv.counted.refs a bound

theorem users_wait (w : World) (c : Bcache) (p b a : Nat) :
    World.users { w with cache := c, waiters := (p, b) :: w.waiters } a =
      w.users a + if a = b then 1 else 0 := by
  simp only [World.users, List.countP_cons, beq_iff_eq, @eq_comm Nat b a]
  omega

/-- The block was cached: one more reference, and a process that waits. -/
theorem Inv.hit (inv : Inv w) (bound : b < NBUF) :
    Inv { w with cache := bpin b w.cache, waiters := (p, b) :: w.waiters } := by
  have same : ∀ a, ((bpin b w.cache).buf a).dev = (w.cache.buf a).dev ∧
      ((bpin b w.cache).buf a).blockno = (w.cache.buf a).blockno ∧
      ((bpin b w.cache).buf a).valid = (w.cache.buf a).valid ∧
      ((bpin b w.cache).buf a).refcnt = (w.cache.buf a).refcnt + if a = b then 1 else 0 := by
    intro a
    by_cases here : a = b
    · subst here
      simp [bpin, setBuf]
    · simp [bpin, setBuf, here]
  refine ⟨inv.listed, inv.clock, ?_, ?_, inv.counted.holds, ?_⟩
  · exact inv.keyed.same (fun a => ⟨(same a).1, (same a).2.1⟩) fun a ok => by rw [(same a).2.2.1, ok]
  · intro a boundA
    have count := inv.counted.refs a boundA
    rw [users_wait, logRef_same (same a).1 (same a).2.1, (same a).2.2.2]
    simp only
    omega
  · intro q a inside
    rcases List.mem_cons.mp inside with here | old
    · rw [(Prod.mk.inj here).2]
      exact bound
    · exact inv.counted.waits q a old

/-- The block was not cached and the unused buffer `b` is recycled for it. -/
theorem Inv.recycled (inv : Inv w) (bound : b < NBUF) (zero : (w.cache.buf b).refcnt = 0)
    (missed : ∀ a, a < NBUF → ¬ ((w.cache.buf a).dev = dev ∧ (w.cache.buf a).blockno = blockno)) :
    Inv { w with cache := recycle b dev blockno w.cache, waiters := (p, b) :: w.waiters } := by
  have self : (recycle b dev blockno w.cache).buf b =
      { w.cache.buf b with dev := dev, blockno := blockno, valid := false, refcnt := 1 } :=
    upd_self _ _ _
  have other : ∀ a, a ≠ b → (recycle b dev blockno w.cache).buf a = w.cache.buf a :=
    fun a differ => upd_of_ne differ _ _
  have idle := inv.counted.refs b bound
  have unlogged : ¬ InLog w.log (w.cache.buf b) := by
    intro inside
    rw [logRef, if_pos inside] at idle
    omega
  rw [logRef, if_neg unlogged] at idle
  -- the new key is not in the log: its buffer would have been found
  have fresh : ¬ InLog w.log ((recycle b dev blockno w.cache).buf b) := by
    rw [self]
    rintro ⟨root, inside⟩
    obtain ⟨a, boundA, devA, blockA, -⟩ := inv.keyed.logged _ inside
    exact missed a boundA ⟨devA.trans root.symm, blockA⟩
  refine ⟨inv.listed, inv.clock, ⟨?_, ?_, inv.keyed.once⟩, ⟨?_, inv.counted.holds, ?_⟩⟩
  · intro a c boundA boundC some sameDev sameBlock
    by_cases atA : a = b <;> by_cases atC : c = b
    · rw [atA, atC]
    · rw [atA, self, other c atC] at sameDev sameBlock
      exact absurd ⟨sameDev.symm, sameBlock.symm⟩ (missed c boundC)
    · rw [atC, self, other a atA] at sameDev sameBlock
      exact absurd ⟨sameDev, sameBlock⟩ (missed a boundA)
    · rw [other a atA] at some sameDev sameBlock
      rw [other c atC] at sameDev sameBlock
      exact inv.keyed.unique a c boundA boundC some sameDev sameBlock
  · intro n inside
    obtain ⟨a, boundA, devA, blockA, ok⟩ := inv.keyed.logged n inside
    have differ : a ≠ b := by
      rintro rfl
      exact unlogged ⟨devA, by rw [blockA]; exact inside⟩
    refine ⟨a, boundA, ?_⟩
    rw [other a differ]
    exact ⟨devA, blockA, ok⟩
  · intro a boundA
    rw [users_wait]
    by_cases here : a = b
    · subst here
      rw [logRef, if_neg fresh, self, if_pos rfl]
      simp only
      omega
    · have count := inv.counted.refs a boundA
      simp only [other a here, if_neg here]
      omega
  · intro q a inside
    rcases List.mem_cons.mp inside with here | old
    · rw [(Prod.mk.inj here).2]
      exact bound
    · exact inv.counted.waits q a old

theorem Inv.acquire (inv : Inv w) (waits : (p, b) ∈ w.waiters) (free : w.holder b = none) :
    Inv { w with holder := upd w.holder b (some p), waiters := w.waiters.erase (p, b) } := by
  refine ⟨inv.listed, inv.clock, inv.keyed, ?_, ?_, ?_⟩
  · intro a bound
    have count := inv.counted.refs a bound
    have erased : (w.waiters.erase (p, b)).countP (fun x => x.2 == a) + (if a = b then 1 else 0) =
        w.waiters.countP fun x => x.2 == a := by
      rw [(List.perm_cons_erase waits).countP_eq, List.countP_cons]
      simp only [beq_iff_eq, @eq_comm Nat b a]
    simp only [World.users] at count ⊢
    by_cases here : a = b
    · subst here
      simp only [upd_self, free, Option.isSome_some, Option.isSome_none, if_true, Bool.false_eq_true,
        if_false] at count erased ⊢
      omega
    · rw [if_neg here] at erased
      simp only [upd_of_ne here]
      omega
  · intro a q held
    by_cases here : a = b
    · rw [here]
      exact inv.counted.waits p b waits
    · simp only [upd_of_ne here] at held
      exact inv.counted.holds a q held
  · exact fun q a inside => inv.counted.waits q a (List.mem_of_mem_erase inside)

theorem Inv.release (inv : Inv w) (held : w.holder b = some p) : Inv (w.release b) := by
  have bound := inv.counted.holds b p held
  have count := inv.counted.refs b bound
  have one : 1 ≤ w.users b := by
    simp only [World.users, held, Option.isSome_some, if_true]
    omega
  have buf : (w.release b).cache.buf = (bunpin b w.cache).buf := by
    simp only [World.release, brelse]
    split <;> rfl
  have same : ∀ a, ((bunpin b w.cache).buf a).dev = (w.cache.buf a).dev ∧
      ((bunpin b w.cache).buf a).blockno = (w.cache.buf a).blockno ∧
      ((bunpin b w.cache).buf a).valid = (w.cache.buf a).valid ∧
      ((bunpin b w.cache).buf a).refcnt = (w.cache.buf a).refcnt - if a = b then 1 else 0 := by
    intro a
    by_cases here : a = b
    · subst here
      simp [bunpin, setBuf]
    · simp [bunpin, setBuf, here]
  refine ⟨?_, ?_, ?_, ?_, ?_, inv.counted.waits⟩
  · simp only [World.release, brelse]
    split
    · exact inv.listed.toFront inv.clock bound
    · exact inv.listed
  · intro a
    have old := inv.clock a
    simp only [World.release]
    split
    · by_cases here : a = b
      · rw [here, upd_self]
      · rw [upd_of_ne here]
        omega
    · omega
  · rw [buf]
    exact inv.keyed.same (fun a => ⟨(same a).1, (same a).2.1⟩) fun a ok => by rw [(same a).2.2.1, ok]
  · intro a boundA
    have countA := inv.counted.refs a boundA
    have users : (w.release b).users a = w.users a - if a = b then 1 else 0 := by
      simp only [World.users, World.release]
      by_cases here : a = b
      · subst here
        simp [held]
      · simp [here]
    have log : (w.release b).log = w.log := rfl
    rw [buf, users, log, logRef_same (same a).1 (same a).2.1, (same a).2.2.2]
    by_cases here : a = b
    · subst here
      simp only [if_true]
      omega
    · simp only [here, if_false]
      omega
  · intro a q heldA
    by_cases here : a = b
    · rw [here]
      exact bound
    · simp only [World.release, upd_of_ne here] at heldA
      exact inv.counted.holds a q heldA

theorem Inv.pinned (inv : Inv w) (has : w.has p b) (root : (w.cache.buf b).dev = ROOTDEV)
    (fresh : (w.cache.buf b).blockno ∉ w.log) :
    Inv { w with cache := bpin b w.cache, log := w.log ++ [(w.cache.buf b).blockno] } := by
  have bound := inv.counted.holds b p has.1
  have same : ∀ a, ((bpin b w.cache).buf a).dev = (w.cache.buf a).dev ∧
      ((bpin b w.cache).buf a).blockno = (w.cache.buf a).blockno ∧
      ((bpin b w.cache).buf a).valid = (w.cache.buf a).valid ∧
      ((bpin b w.cache).buf a).refcnt = (w.cache.buf a).refcnt + if a = b then 1 else 0 := by
    intro a
    by_cases here : a = b
    · subst here
      simp [bpin, setBuf]
    · simp [bpin, setBuf, here]
  refine ⟨inv.listed, inv.clock, ⟨?_, ?_, ?_⟩, ⟨?_, inv.counted.holds, inv.counted.waits⟩⟩
  · intro a c
    rw [(same a).1, (same a).2.1, (same c).1, (same c).2.1]
    exact inv.keyed.unique a c
  · intro n inside
    rcases List.mem_append.mp inside with old | new
    · obtain ⟨a, boundA, dev, block, ok⟩ := inv.keyed.logged n old
      exact ⟨a, boundA, by rw [(same a).1, dev], by rw [(same a).2.1, block],
        by rw [(same a).2.2.1, ok]⟩
    · exact ⟨b, bound, by rw [(same b).1, root],
        by rw [(same b).2.1, List.mem_singleton.mp new], by rw [(same b).2.2.1, has.2]⟩
  · rw [List.nodup_append]
    refine ⟨inv.keyed.once, by simp, ?_⟩
    intro n old m new equal
    rw [equal, List.mem_singleton.mp new] at old
    exact fresh old
  · intro a boundA
    have count := inv.counted.refs a boundA
    have users : ∀ c l, World.users { w with cache := c, log := l } a = w.users a := fun _ _ => rfl
    rw [users, (same a).2.2.2]
    by_cases here : a = b
    · subst here
      rw [logRef, if_neg fun both => fresh both.2] at count
      rw [if_pos rfl, logRef, if_pos ⟨(same a).1.trans root, by simp [(same a).2.1]⟩]
      omega
    · -- another buffer of the same block would be the same buffer
      have apart : (w.cache.buf a).dev = ROOTDEV → (w.cache.buf a).blockno ≠ (w.cache.buf b).blockno :=
        fun dev block => here (inv.keyed.alone boundA bound root dev block)
      have iff : InLog (w.log ++ [(w.cache.buf b).blockno]) ((bpin b w.cache).buf a) ↔
          InLog w.log (w.cache.buf a) := by
        rw [InLog, InLog, (same a).1, (same a).2.1, List.mem_append, List.mem_singleton]
        constructor
        · rintro ⟨dev, old | new⟩
          · exact ⟨dev, old⟩
          · exact absurd new (apart dev)
        · rintro ⟨dev, old⟩
          exact ⟨dev, Or.inl old⟩
      rw [logRef_congr iff, if_neg here]
      exact count

theorem Inv.unpinned (inv : Inv w) (has : w.has p b) (root : (w.cache.buf b).dev = ROOTDEV)
    (inside : (w.cache.buf b).blockno ∈ w.log) :
    Inv { w with cache := bunpin b w.cache, log := w.log.erase (w.cache.buf b).blockno } := by
  have bound := inv.counted.holds b p has.1
  have same : ∀ a, ((bunpin b w.cache).buf a).dev = (w.cache.buf a).dev ∧
      ((bunpin b w.cache).buf a).blockno = (w.cache.buf a).blockno ∧
      ((bunpin b w.cache).buf a).valid = (w.cache.buf a).valid ∧
      ((bunpin b w.cache).buf a).refcnt = (w.cache.buf a).refcnt - if a = b then 1 else 0 := by
    intro a
    by_cases here : a = b
    · subst here
      simp [bunpin, setBuf]
    · simp [bunpin, setBuf, here]
  refine ⟨inv.listed, inv.clock, ⟨?_, ?_, inv.keyed.once.erase _⟩,
    ⟨?_, inv.counted.holds, inv.counted.waits⟩⟩
  · intro a c
    rw [(same a).1, (same a).2.1, (same c).1, (same c).2.1]
    exact inv.keyed.unique a c
  · intro n left
    obtain ⟨a, boundA, dev, block, ok⟩ := inv.keyed.logged n (List.mem_of_mem_erase left)
    exact ⟨a, boundA, by rw [(same a).1, dev], by rw [(same a).2.1, block],
      by rw [(same a).2.2.1, ok]⟩
  · intro a boundA
    have count := inv.counted.refs a boundA
    have users : ∀ c l, World.users { w with cache := c, log := l } a = w.users a := fun _ _ => rfl
    rw [users, (same a).2.2.2]
    have iff : InLog (w.log.erase (w.cache.buf b).blockno) ((bunpin b w.cache).buf a) ↔
        (w.cache.buf a).dev = ROOTDEV ∧ (w.cache.buf a).blockno ≠ (w.cache.buf b).blockno ∧
          (w.cache.buf a).blockno ∈ w.log := by
      rw [InLog, (same a).1, (same a).2.1, inv.keyed.once.mem_erase_iff]
    by_cases here : a = b
    · subst here
      rw [logRef, if_pos ⟨root, inside⟩] at count
      rw [if_pos rfl, logRef, if_neg fun both => (iff.mp both).2.1 rfl]
      omega
    · have apart : (w.cache.buf a).dev = ROOTDEV → (w.cache.buf a).blockno ≠ (w.cache.buf b).blockno :=
        fun dev block => here (inv.keyed.alone boundA bound root dev block)
      rw [logRef_congr (iff.trans
        ⟨fun all => ⟨all.1, all.2.2⟩, fun both => ⟨both.1, apart both.1, both.2⟩⟩), if_neg here]
      exact count

theorem boot_inv (disk : Nat → Block) : Inv (World.boot disk) := by
  refine ⟨binit_listed, fun _ => Nat.le_refl _, ⟨?_, ?_, List.nodup_nil⟩, ⟨?_, ?_, ?_⟩⟩
  · intro a b _ _ some
    exact absurd rfl some
  · intro n inside
    cases inside
  · intro b _
    have none : logRef [] (binit.buf b) = 0 := if_neg fun inside => by cases inside.2
    exact none.symm
  · intro b p held
    cases held
  · intro p b inside
    cases inside

theorem bget_cases {c : Bcache} (listed : Listed w.cache.links w.released)
    (run : bget dev blockno w.cache = some (b, c)) :
    (b < NBUF ∧ (w.cache.buf b).dev = dev ∧ (w.cache.buf b).blockno = blockno ∧
        c = bpin b w.cache) ∨
      (b < NBUF ∧ (w.cache.buf b).refcnt = 0 ∧
        (∀ a, a < NBUF → ¬ ((w.cache.buf a).dev = dev ∧ (w.cache.buf a).blockno = blockno)) ∧
        (∀ a, a < NBUF → (w.cache.buf a).refcnt = 0 → w.released b ≤ w.released a) ∧
        c = recycle b dev blockno w.cache) := by
  unfold bget at run
  cases hit : cached dev blockno w.cache with
  | some a =>
      rw [hit] at run
      obtain ⟨rfl, rfl⟩ := Prod.mk.inj (Option.some.inj run)
      have found := cached_eq_some listed hit
      exact Or.inl ⟨found.1, found.2.1, found.2.2, rfl⟩
  | none =>
      rw [hit] at run
      cases free : unused w.cache with
      | none => simp only [free] at run; cases run
      | some a =>
          simp only [free] at run
          obtain ⟨rfl, rfl⟩ := Prod.mk.inj (Option.some.inj run)
          have found := unused_eq_some listed free
          exact Or.inr ⟨found.1, found.2.1, fun x bound => cached_eq_none listed hit bound,
            found.2.2, rfl⟩

theorem step_inv {e : Event} (inv : Inv w) (run : step w e = some w') : Inv w' := by
  cases e with
  | bget p dev blockno =>
      simp only [step] at run
      split at run
      · cases run
      · obtain ⟨⟨b, c⟩, took, rfl⟩ := Option.map_eq_some_iff.mp run
        rcases bget_cases inv.listed took with ⟨bound, -, -, rfl⟩ | ⟨bound, zero, missed, -, rfl⟩
        · exact inv.hit bound
        · exact inv.recycled bound zero missed
  | acquire p b =>
      simp only [step] at run
      split at run
      · rename_i both
        obtain rfl := Option.some.inj run
        exact inv.acquire both.1 both.2
      · cases run
  | fill p b =>
      simp only [step] at run
      split at run
      · obtain rfl := Option.some.inj run
        exact inv.setData rfl rfl rfl fun _ => rfl
      · cases run
  | store p b data =>
      simp only [step] at run
      split at run
      · obtain rfl := Option.some.inj run
        exact inv.setData rfl rfl rfl id
      · cases run
  | bwrite p b =>
      simp only [step] at run
      split at run
      · obtain rfl := Option.some.inj run
        exact ⟨inv.listed, inv.clock, inv.keyed, ⟨inv.counted.refs, inv.counted.holds,
          inv.counted.waits⟩⟩
      · cases run
  | brelse p b =>
      simp only [step] at run
      split at run
      · rename_i held
        obtain rfl := Option.some.inj run
        exact inv.release held
      · cases run
  | bpin p b =>
      simp only [step] at run
      split at run
      · rename_i all
        obtain rfl := Option.some.inj run
        exact inv.pinned all.1 all.2.1 all.2.2
      · cases run
  | bunpin p b =>
      simp only [step] at run
      split at run
      · rename_i all
        obtain rfl := Option.some.inj run
        exact inv.unpinned all.1 all.2.1 all.2.2
      · cases run

/-- What an event does to the contents of buffer `b`: nothing to its key, unless `bget`
recycles it, and nothing to its data, unless its holder stores into it or `bread` fills it. -/
theorem step_buf {e : Event} (inv : Inv w) (run : step w e = some w') (b : Nat) :
    ((w'.cache.buf b).dev = (w.cache.buf b).dev ∧ (w'.cache.buf b).blockno = (w.cache.buf b).blockno ∧
      ((w.cache.buf b).valid = true → (w'.cache.buf b).valid = true ∧
        ((w'.cache.buf b).data = (w.cache.buf b).data ∨
          ∃ p data, e = .store p b data ∧ w.holder b = some p))) ∨
      ∃ p dev blockno, e = .bget p dev blockno ∧ b < NBUF ∧ (w.cache.buf b).refcnt = 0 ∧
        ∀ a, a < NBUF → (w.cache.buf a).refcnt = 0 → w.released b ≤ w.released a := by
  have stays : ∀ (w' : World) (a : Nat) (bp : Buf), w'.cache.buf = upd w.cache.buf a bp →
      bp.dev = (w.cache.buf a).dev → bp.blockno = (w.cache.buf a).blockno →
      (a = b → (w.cache.buf b).valid = true → bp.valid = true ∧ (bp.data = (w.cache.buf b).data ∨
          ∃ p data, e = .store p b data ∧ w.holder b = some p)) →
      (w'.cache.buf b).dev = (w.cache.buf b).dev ∧ (w'.cache.buf b).blockno = (w.cache.buf b).blockno ∧
      ((w.cache.buf b).valid = true → (w'.cache.buf b).valid = true ∧
        ((w'.cache.buf b).data = (w.cache.buf b).data ∨
          ∃ p data, e = .store p b data ∧ w.holder b = some p)) := by
    intro w' a bp eq dev blockno contents
    rw [eq]
    by_cases here : b = a
    · subst here
      rw [upd_self]
      exact ⟨dev, blockno, contents rfl⟩
    · rw [upd_of_ne here]
      exact ⟨rfl, rfl, fun ok => ⟨ok, Or.inl rfl⟩⟩
  cases e with
  | bget p dev blockno =>
      simp only [step] at run
      split at run
      · cases run
      · obtain ⟨⟨a, c⟩, took, rfl⟩ := Option.map_eq_some_iff.mp run
        rcases bget_cases inv.listed took with ⟨-, -, -, rfl⟩ | ⟨bound, zero, -, oldest, rfl⟩
        · exact Or.inl (stays _ a _ rfl rfl rfl fun here ok =>
            ⟨by rw [here]; exact ok, Or.inl (by rw [here])⟩)
        · by_cases here : b = a
          · subst here
            exact Or.inr ⟨p, dev, blockno, rfl, bound, zero, oldest⟩
          · left
            simp only [recycle, setBuf, upd_of_ne here]
            exact ⟨trivial, trivial, fun ok => ⟨ok, Or.inl trivial⟩⟩
  | acquire p a =>
      simp only [step] at run
      split at run
      · obtain rfl := Option.some.inj run
        exact Or.inl ⟨rfl, rfl, fun ok => ⟨ok, Or.inl rfl⟩⟩
      · cases run
  | fill p a =>
      simp only [step] at run
      split at run
      · rename_i both
        obtain rfl := Option.some.inj run
        refine Or.inl (stays _ a _ rfl rfl rfl fun here ok => ?_)
        rw [here, ok] at both
        cases both.2
      · cases run
  | store p a data =>
      simp only [step] at run
      split at run
      · rename_i has
        obtain rfl := Option.some.inj run
        refine Or.inl (stays _ a _ rfl rfl rfl fun here ok => ⟨by rw [here]; exact ok, Or.inr ?_⟩)
        exact ⟨p, data, by rw [here], by rw [← here]; exact has.1⟩
      · cases run
  | bwrite p a =>
      simp only [step] at run
      split at run
      · obtain rfl := Option.some.inj run
        exact Or.inl ⟨rfl, rfl, fun ok => ⟨ok, Or.inl rfl⟩⟩
      · cases run
  | brelse p a =>
      simp only [step] at run
      split at run
      · obtain rfl := Option.some.inj run
        have buf : (w.release a).cache.buf = (bunpin a w.cache).buf := by
          simp only [World.release, brelse]
          split <;> rfl
        exact Or.inl (stays _ a _ buf rfl rfl fun here ok =>
          ⟨by rw [here]; exact ok, Or.inl (by rw [here])⟩)
      · cases run
  | bpin p a =>
      simp only [step] at run
      split at run
      · obtain rfl := Option.some.inj run
        exact Or.inl (stays _ a _ rfl rfl rfl fun here ok =>
          ⟨by rw [here]; exact ok, Or.inl (by rw [here])⟩)
      · cases run
  | bunpin p a =>
      simp only [step] at run
      split at run
      · obtain rfl := Option.some.inj run
        exact Or.inl (stays _ a _ rfl rfl rfl fun here ok =>
          ⟨by rw [here]; exact ok, Or.inl (by rw [here])⟩)
      · cases run

end Events

/-! ## Every run -/

/-- The state of the cache between two events. -/
structure CacheOk (w : World) : Prop where
  list : ∃ l, IsRing w.cache.links head l ∧ l.Perm (List.range NBUF) ∧
    l.Pairwise (Newer w.released)
  unique : ∀ a b, a < NBUF → b < NBUF → (w.cache.buf a).dev ≠ 0 →
    (w.cache.buf a).dev = (w.cache.buf b).dev → (w.cache.buf a).blockno = (w.cache.buf b).blockno →
    a = b
  refs : ∀ b, b < NBUF → (w.cache.buf b).refcnt =
    (if (w.holder b).isSome then 1 else 0) + (w.waiters.countP fun x => x.2 == b) +
      if InLog w.log (w.cache.buf b) then 1 else 0
  logged : ∀ n, n ∈ w.log → ∃ b, b < NBUF ∧ (w.cache.buf b).dev = ROOTDEV ∧
    (w.cache.buf b).blockno = n ∧ (w.cache.buf b).valid = true

/-- What an event may do.  A block stays in the log until `install_trans` unpins it. -/
structure StepOk (w : World) (e : Event) (w' : World) : Prop where
  busy : ∀ b, b < NBUF → 0 < (w.cache.buf b).refcnt →
    (w'.cache.buf b).dev = (w.cache.buf b).dev ∧ (w'.cache.buf b).blockno = (w.cache.buf b).blockno
  data : ∀ b, b < NBUF → InLog w.log (w.cache.buf b) → (w'.cache.buf b).valid = true ∧
    ((w'.cache.buf b).data = (w.cache.buf b).data ∨
      ∃ p data, e = .store p b data ∧ w.holder b = some p)
  oldest : ∀ b, b < NBUF →
    ((w'.cache.buf b).dev, (w'.cache.buf b).blockno) ≠ ((w.cache.buf b).dev, (w.cache.buf b).blockno) →
    (∃ p dev blockno, e = .bget p dev blockno) ∧ (w.cache.buf b).refcnt = 0 ∧
      ∀ a, a < NBUF → (w.cache.buf a).refcnt = 0 → w.released b ≤ w.released a

theorem Inv.cacheOk {w : World} (inv : Inv w) : CacheOk w :=
  ⟨inv.listed, inv.keyed.unique, inv.counted.refs, inv.keyed.logged⟩

theorem Inv.stepOk {w w' : World} {e : Event} (inv : Inv w) (run : step w e = some w') :
    StepOk w e w' := by
  refine ⟨?_, ?_, ?_⟩
  · intro b _ pos
    rcases step_buf inv run b with ⟨dev, blockno, -⟩ | ⟨-, -, -, -, -, zero, -⟩
    · exact ⟨dev, blockno⟩
    · omega
  · intro b bound inside
    obtain ⟨a, boundA, dev, block, ok⟩ := inv.keyed.logged _ inside.2
    obtain rfl := inv.keyed.alone boundA bound inside.1 dev block
    rcases step_buf inv run a with ⟨-, -, contents⟩ | ⟨-, -, -, -, -, zero, -⟩
    · exact contents ok
    · have count := inv.counted.refs a bound
      rw [logRef, if_pos inside] at count
      omega
  · intro b _ changed
    rcases step_buf inv run b with ⟨dev, blockno, -⟩ | ⟨p, dev, blockno, eq, -, zero, oldest⟩
    · exact absurd (by rw [dev, blockno]) changed
    · exact ⟨⟨p, dev, blockno, eq⟩, zero, oldest⟩

/-- The structure of the cache in every run from `binit`. -/
theorem bcache_structure (disk : Nat → Block) (r : Run step) (boot : r.state 0 = World.boot disk) :
    (∀ i, i ≤ r.len → CacheOk (r.state i)) ∧
      ∀ i, i < r.len → StepOk (r.state i) (r.event i) (r.state (i + 1)) := by
  have inv : ∀ i, i ≤ r.len → Inv (r.state i) := by
    apply r.invariant
    · rw [boot]
      exact boot_inv disk
    · exact fun _ _ _ run inv => step_inv inv run
  exact ⟨fun i bound => (inv i bound).cacheOk,
    fun i bound => (inv i (by omega)).stepOk (r.next i bound)⟩

def pinAndWait : List Event :=
  [.bget 1 1 40, .acquire 1 0, .fill 1 0, .bpin 1 0, .bget 2 1 40, .brelse 1 0, .acquire 2 0,
    .brelse 2 0, .bget 1 1 41]

theorem pinAndWait_structure :
    ∃ r : Run step, r.len = 9 ∧ r.state 0 = World.boot (fun _ _ => 0) ∧ CacheOk (r.state 9) ∧
      StepOk (r.state 8) (r.event 8) (r.state 9) := by
  let r := Run.ofEvents step (World.boot fun _ _ => 0) pinAndWait (.bwrite 0 0) (by decide +kernel)
  have ok := bcache_structure (fun _ _ => 0) r rfl
  exact ⟨r, rfl, rfl, ok.1 9 (by decide), ok.2 8 (by decide)⟩

end Xv6Fcfs.Bio
