import Xv6Fcfs.Fs.Ops

/-!
# The loops over directory entries

They compute functions of the node: `dirlookup` finds the entry that `Node.lookup` names
and `dirlink` takes the first free one.
-/

set_option autoImplicit false

namespace Xv6Fcfs.Fs

open Xv6Fcfs.Lib

/-- The entry that `dirlink` uses: the first free one, or the one behind the last. -/
def Node.firstFree (n : Node) : Nat :=
  ((List.range n.nents).find? fun k => n.entInum k = 0).getD n.nents

section FirstFree
variable {n : Node}

theorem firstFree_le (n : Node) : n.firstFree ≤ n.nents := by
  unfold Node.firstFree
  cases found : (List.range n.nents).find? fun k => n.entInum k = 0 with
  | none => exact Nat.le_refl _
  | some k =>
      have member := List.mem_of_find?_eq_some found
      exact Nat.le_of_lt (List.mem_range.mp member)

theorem firstFree_free (below : n.firstFree < n.nents) : n.entInum n.firstFree = 0 := by
  unfold Node.firstFree at below ⊢
  cases found : (List.range n.nents).find? fun k => n.entInum k = 0 with
  | none =>
      rw [found] at below
      exact absurd below (Nat.lt_irrefl _)
  | some k => simpa using List.find?_some found

theorem firstFree_used {k : Nat} (below : k < n.firstFree) : n.entInum k ≠ 0 := by
  unfold Node.firstFree at below
  cases found : (List.range n.nents).find? fun k => n.entInum k = 0 with
  | none =>
      rw [found] at below
      have none := List.find?_eq_none.mp found k (List.mem_range.mpr below)
      simpa using none
  | some j =>
      rw [found] at below
      rw [List.find?_range_eq_some] at found
      have early := found.2.2 k below
      simpa using early

theorem firstFree_eq {k : Nat} (below : ∀ j, j < k → n.entInum j ≠ 0)
    (last : k = n.nents ∨ (k < n.nents ∧ n.entInum k = 0)) : n.firstFree = k := by
  rcases Nat.lt_trichotomy n.firstFree k with less | same | more
  · exfalso
    have inside : n.firstFree < n.nents := by omega
    exact below _ less (firstFree_free inside)
  · exact same
  · exfalso
    have most := firstFree_le n
    rcases last with rfl | ⟨-, free⟩
    · omega
    · exact firstFree_used more free

end FirstFree

/-! ## The loops over entries -/

section Entries
variable {sb : Superblock} {held : Nat → Nat} {loose : Nat → Prop} {s : FsState} {dp : Nat}

/-- The call holds the directory of entry `dp`, read from the disk. -/
structure OnDir (sb : Superblock) (s : FsState) (dp : Nat) : Prop where
  bound : dp < NINODE
  pos : 0 < (s.itable dp).ref
  valid : (s.itable dp).valid = true
  isDir : (nodes sb s.disk (s.itable dp).inum).type = T_DIR

theorem OnDir.size (on : OnDir sb s dp) (inv : FsInv sb held loose s) :
    (s.itable dp).din.size = (nodes sb s.disk (s.itable dp).inum).size := by
  rw [inv.node on.bound on.pos on.valid]
  rfl

theorem OnDir.type (on : OnDir sb s dp) (inv : FsInv sb held loose s) :
    (s.itable dp).din.type = T_DIR := by
  rw [← on.isDir, inv.node on.bound on.pos on.valid]
  rfl

theorem OnDir.whole (on : OnDir sb s dp) (inv : FsInv sb held loose s) :
    (nodes sb s.disk (s.itable dp).inum).size =
      16 * (nodes sb s.disk (s.itable dp).inum).nents := by
  have whole := (inv.disk.dirs _ on.isDir).whole
  simp only [Node.nents]
  omega

/-- What `dirlookup` gives for a name. -/
def Found (sb : Superblock) (held : Nat → Nat) (loose : Nat → Prop) (s : FsState) (n : Node)
    (name : Bytes) (r : Option (Nat × Nat)) (s' : FsState) : Prop :=
  match n.lookup name with
  | none => r = none ∧ s' = s
  | some k => ∃ a, r = some (a, 16 * k) ∧ Got sb held loose s (n.entInum k) a s'

theorem dirlookupLoop_spec (geo : Geometry sb) (inv : FsInv sb held loose s) (on : OnDir sb s dp)
    (name : Bytes) : ∀ (fuel k : Nat),
    (nodes sb s.disk (s.itable dp).inum).nents < k + fuel →
    k ≤ (nodes sb s.disk (s.itable dp).inum).nents →
    (∀ j, j < k → (nodes sb s.disk (s.itable dp).inum).hit name j = false) →
    wp (dirlookupLoop sb dp name fuel (16 * k)) (fun e => e = .igetNoInodes ∧ TableFull s)
      (Found sb held loose s (nodes sb s.disk (s.itable dp).inum) name) s := by
  have whole := on.whole inv
  have size := on.size inv
  intro fuel
  induction fuel with
  | zero => intro k enough low; omega
  | succ fuel ih =>
      intro k enough low before
      simp only [dirlookupLoop, wp_bind, wp_get, wp_ite, wp_pure, wp_throw]
      rw [size, whole]
      refine ⟨fun inside => ?_, fun done => ?_⟩
      · have within : k < (nodes sb s.disk (s.itable dp).inum).nents := by omega
        apply wp_mono (readEntry_spec geo inv on.bound on.pos on.valid (k := k) (by omega)) _
          (fun _ no => no.elim)
        rintro ⟨r, de⟩ s' ⟨rfl, count, inum, cmp⟩
        simp only at count inum cmp
        have next := ih (k + 1) (by omega) within
        rw [Nat.mul_succ] at next
        have past : (nodes sb s'.disk (s'.itable dp).inum).hit name k = false →
            ∀ j, j < k + 1 → (nodes sb s'.disk (s'.itable dp).inum).hit name j = false := by
          intro miss j near
          by_cases last : j = k
          · rw [last]
            exact miss
          · exact before j (by omega)
        rw [inum, cmp name]
        refine ⟨fun bad => absurd count bad, fun _ => ⟨fun free => next (past ?_), fun used =>
          ⟨fun same => ?_, fun other => next (past ?_)⟩⟩⟩
        · simp only [Node.hit, free]
          rfl
        · have range := (inv.disk.dirs _ on.isDir).range k within
          have hit : (nodes sb s'.disk (s'.itable dp).inum).lookup name = some k := by
            refine lookup_eq_some.mpr ⟨within, ?_, before⟩
            simp only [Node.hit, same, Bool.and_true, ne_eq, used, not_false_eq_true, decide_true]
          apply wp_post (iget_spec inv range)
          intro a s'' got
          simp only [Found, hit]
          exact ⟨a, rfl, got⟩
        · simp only [Node.hit, Bool.not_eq_true] at other ⊢
          rw [other, Bool.and_false]
      · have none : (nodes sb s.disk (s.itable dp).inum).lookup name = none := by
          refine lookup_eq_none.mpr ?_
          intro j near
          exact before j (by omega)
        simp only [Found, none]
        exact ⟨trivial, trivial⟩

theorem dirlookup_spec (geo : Geometry sb) (inv : FsInv sb held loose s) (on : OnDir sb s dp)
    (name : Bytes) :
    wp (dirlookup sb dp name) (fun e => e = .igetNoInodes ∧ TableFull s)
      (Found sb held loose s (nodes sb s.disk (s.itable dp).inum) name) s := by
  simp only [dirlookup, wp_bind, wp_get, wp_ite, wp_throw]
  refine ⟨fun bad => absurd (on.type inv) bad, fun _ => ?_⟩
  rw [on.size inv]
  apply dirlookupLoop_spec geo inv on name _ 0
  · simp only [Node.nents]
    omega
  · exact Nat.zero_le _
  · intro j bound
    omega

theorem emptyDirent_spec (geo : Geometry sb) (inv : FsInv sb held loose s) (on : OnDir sb s dp) :
    ∀ (fuel k : Nat), (nodes sb s.disk (s.itable dp).inum).nents < k + fuel →
    k ≤ (nodes sb s.disk (s.itable dp).inum).nents →
    (∀ j, j < k → (nodes sb s.disk (s.itable dp).inum).entInum j ≠ 0) →
    wp (emptyDirent sb dp fuel (16 * k)) (fun _ => False)
      (fun off s' => s' = s ∧ off = 16 * (nodes sb s.disk (s.itable dp).inum).firstFree) s := by
  have whole := on.whole inv
  have size := on.size inv
  intro fuel
  induction fuel with
  | zero => intro k enough low; omega
  | succ fuel ih =>
      intro k enough low before
      simp only [emptyDirent, wp_bind, wp_get, wp_ite, wp_pure, wp_throw]
      rw [size, whole]
      refine ⟨fun inside => ?_, fun done => ?_⟩
      · have within : k < (nodes sb s.disk (s.itable dp).inum).nents := by omega
        apply wp_post (readEntry_spec geo inv on.bound on.pos on.valid (k := k) (by omega))
        rintro ⟨r, de⟩ s' ⟨rfl, count, inum, -⟩
        simp only at count inum
        rw [inum]
        refine ⟨fun bad => absurd count bad, fun _ => ⟨fun free => ⟨rfl, ?_⟩, fun used => ?_⟩⟩
        · rw [firstFree_eq before (Or.inr ⟨within, free⟩)]
        · have next := ih (k + 1) (by omega) within
          rw [Nat.mul_succ] at next
          apply next
          intro j near
          by_cases last : j = k
          · rw [last]
            exact used
          · exact before j (by omega)
      · have last : k = (nodes sb s.disk (s.itable dp).inum).nents := by omega
        rw [firstFree_eq before (Or.inl last)]
        exact ⟨trivial, rfl⟩

end Entries

end Xv6Fcfs.Fs
