import Xv6Fcfs.Fs.Effect

/-!
# Paths

`namex` computes `resolve` on the tree and leaves everything but the inode table as it
was.  It can stop on its way: the inode table may be full, a lock may be taken, and an
entry or the root may stand for an inode that is not allocated.
-/

set_option autoImplicit false

namespace Xv6Fcfs.Fs

open Xv6Fcfs.Lib

/-- One more reference to entry `a`. -/
abbrev bump (held : Nat → Nat) (a : Nat) : Nat → Nat := upd held a (held a + 1)

section Bump
variable (held : Nat → Nat) (a b : Nat)

theorem bump_comm : bump (bump held a) b = bump (bump held b) a := by
  funext c
  by_cases same : a = b
  · rw [same]
  · by_cases atA : c = a
    · subst atA
      simp [upd_of_ne same]
    · by_cases atB : c = b
      · subst atB
        simp [upd_of_ne (Ne.symm same)]
      · simp [upd_of_ne atA, upd_of_ne atB]

theorem le_bump (c : Nat) : held c ≤ bump held a c := by
  by_cases here : c = a
  · simp only [here, upd_self]
    omega
  · simp only [upd_of_ne here]
    exact Nat.le_refl _

theorem bump_pos : 0 < bump held a a := by
  simp only [upd_self]
  omega

end Bump

/-- Somewhere a path can lead to an inode that is not allocated. -/
def Dangling (tree : Nat → Node) : Prop :=
  (tree ROOTINO).type = 0 ∨
    ∃ d k, (tree d).type = T_DIR ∧ k < (tree d).nents ∧ (tree d).entInum k ≠ 0 ∧
      (tree ((tree d).entInum k)).type = 0

def LookupStop (tree : Nat → Node) (e : Stop) : Prop :=
  e = .igetNoInodes ∨ e = .deadlock ∨ e = .iunlock ∨ (e = .ilockNoType ∧ Dangling tree)

section Locks
variable {sb : Superblock} {base held : Nat → Nat} {loose : Nat → Prop} {s t : FsState} {a : Nat}

theorem ilock_used (inv : FsInv sb held loose s) (bound : a < NINODE) (pos : 0 < (s.itable a).ref)
    (base : Nat → Nat) :
    wp (ilock sb a) (fun e => e = .deadlock ∨
        (e = .ilockNoType ∧ (nodes sb s.disk (s.itable a).inum).type = 0))
      (fun _ s' => Looked sb base held loose s s' ∧ (s'.itable a).inum = (s.itable a).inum ∧
        (s'.itable a).valid = true ∧ (nodes sb s.disk (s.itable a).inum).type ≠ 0 ∧
        0 < (s'.itable a).ref) s := by
  have range := inv.table.inums a bound pos
  apply wp_mono (ilock_spec inv bound pos)
  · intro _ s' done
    have pos' : 0 < (s'.itable a).ref := by
      rw [done.inv.table.refs a bound, done.only.uses, ← inv.table.refs a bound]
      exact pos
    refine ⟨⟨done.inv, done.only, ?_⟩, done.inum, done.valid, ?_, pos'⟩
    · intro b _ _
      by_cases here : b = a
      · rw [here]
        exact ⟨done.inum, fun _ => done.valid⟩
      · exact ⟨(done.kept b here).1, (done.kept b here).2.1⟩
    · obtain ⟨cached, alloc⟩ := done.inv.table.cached a bound pos' done.valid
      rw [nodes_type range, ← done.only.disk, ← done.inum, ← cached]
      exact alloc
  · intro e stop
    rw [nodes_type range]
    exact stop

theorem ilock_looked (inv : FsInv sb held loose s) (bound : a < NINODE) (holds : 0 < held a)
    (base : Nat → Nat) :
    wp (ilock sb a) (fun e => e = .deadlock ∨
        (e = .ilockNoType ∧ (nodes sb s.disk (s.itable a).inum).type = 0))
      (fun _ s' => Looked sb base held loose s s' ∧ (s'.itable a).inum = (s.itable a).inum ∧
        (s'.itable a).valid = true ∧ (nodes sb s.disk (s.itable a).inum).type ≠ 0) s := by
  apply wp_post (ilock_used inv bound (inv.table.ref_of_held bound holds) base)
  rintro _ s' ⟨looked, inum, valid, alloc, -⟩
  exact ⟨looked, inum, valid, alloc⟩

theorem iunlock_looked (inv : FsInv sb held loose s) (bound : a < NINODE) (base : Nat → Nat) :
    wp (iunlock a) (fun e => e = .iunlock)
      (fun _ s' => Looked sb base held loose s s' ∧ (s'.itable a).inum = (s.itable a).inum ∧
        (s'.itable a).valid = (s.itable a).valid) s := by
  apply wp_post (iunlock_spec inv bound)
  intro _ s' done
  refine ⟨⟨done.inv, done.only, ?_⟩, done.inum, done.valid⟩
  intro b _ _
  by_cases here : b = a
  · rw [here]
    exact ⟨done.inum, fun valid => done.valid.trans valid⟩
  · exact ⟨(done.kept b here).1, (done.kept b here).2.1⟩

theorem ilock_ready (inv : FsInv sb held loose s) (bound : a < NINODE) (pos : 0 < (s.itable a).ref)
    (unlocked : (s.itable a).locked = false)
    (alloc : (dinode sb s.disk (s.itable a).inum).type ≠ 0) :
    wp (ilock sb a) (fun _ => False) (fun _ s' => Locked sb held loose s a s') s := by
  have free : wp (ilock sb a) (fun e => e ≠ .deadlock) (fun _ _ => True) s := by
    simp only [ilock, wp_bind, wp_get, wp_ite, wp_throw, wp_set, unlocked]
    refine ⟨fun none => by omega, fun _ =>
      ⟨fun no => absurd no (by rintro ⟨⟩), fun _ => ⟨fun _ => trivial, ?_⟩⟩⟩
    exact fun _ => ⟨fun _ => by rintro ⟨⟩, fun _ => trivial⟩
  have spec := ilock_spec inv bound pos
  apply wp_intro
  · intro r s' run
    have locked := wp_ok spec run
    exact locked
  · intro e run
    rcases wp_error spec run with waits | ⟨-, none⟩
    · exact wp_error free run waits
    · exact alloc none

theorem iunlock_ready (inv : FsInv sb held loose s) (bound : a < NINODE) (pos : 0 < (s.itable a).ref)
    (locked : (s.itable a).locked = true) :
    wp (iunlock a) (fun _ => False) (fun _ s' => Unlocked sb held loose s a s' ∧
      (s'.itable a).locked = false ∧ s'.ftable = s.ftable ∧ s'.disk = s.disk) s := by
  have runs : wp (iunlock a) (fun _ => False) (fun _ s' =>
      (s'.itable a).locked = false ∧ s'.ftable = s.ftable ∧ s'.disk = s.disk) s := by
    simp only [iunlock, wp_bind, wp_get, wp_ite, wp_throw, wp_set, locked]
    refine ⟨fun bad => ?_, fun _ => ⟨?_, rfl, rfl⟩⟩
    · rcases bad with no | none
      · exact absurd no (by rintro ⟨⟩)
      · omega
    simp only [setInode, upd_self]
  apply wp_intro
  · intro r s' run
    have unlocks := wp_ok (iunlock_spec inv bound) run
    have after := wp_ok runs run
    exact ⟨unlocks, after⟩
  · intro e run
    exact wp_error runs run

theorem iunlockput_back (geo : Geometry sb) (inv : FsInv sb (bump held a) loose s)
    (guard : Guarded held loose s) (bound : a < NINODE) :
    wp (iunlockput sb a) (fun e => e = .iunlock)
      (fun _ s' => Looked sb held held loose s s') s := by
  unfold iunlockput
  rw [wp_bind]
  apply wp_post (iunlock_looked inv bound held)
  rintro _ t ⟨unlocked, -⟩
  have guard' := guard.stays unlocked.stays
  apply wp_mono (iput_back geo unlocked.inv guard' bound held) _ (fun e stop => stop.elim)
  intro _ u back
  exact unlocked.trans back

theorem Guarded.bump (guard : Guarded held loose s) (b : Nat) : Guarded (bump held b) loose s := by
  intro i strict
  obtain ⟨a, bound, inum, holds⟩ := guard i strict
  have more := le_bump held b a
  exact ⟨a, bound, inum, by omega⟩

end Locks

/-! ## `namex` -/

theorem skipelem_shorter {path rest : Path} {name : Bytes} (found : skipelem path = some (name, rest)) :
    rest.length < path.length := by
  have first := (List.dropWhile_suffix (l := path) (· == slash)).length_le
  unfold skipelem at found
  split at found
  · cases found
  · rename_i c cs eq
    have head : (c == slash) = false := by
      have not := List.head_dropWhile_not (· == slash) (l := path) (by rw [eq]; simp)
      simpa [eq] using not
    have differs : (c != slash) = true := by
      simp only [bne, head, Bool.not_false]
    simp only [Option.some.injEq, Prod.mk.injEq] at found
    rw [← found.2]
    have second := (List.dropWhile_suffix (l := (c :: cs).dropWhile (· != slash))
      (· == slash)).length_le
    have third : ((c :: cs).dropWhile (· != slash)).length ≤ cs.length := by
      rw [List.dropWhile_cons_of_pos (p := (· != slash)) differs]
      exact (List.dropWhile_suffix _).length_le
    rw [eq] at first
    simp only [List.length_cons] at first
    omega

section Namex
variable {sb : Superblock} {held : Nat → Nat} {loose : Nat → Prop}

/-- What `namex` gives for a path that leads to `target`. -/
def Arrived (sb : Superblock) (held : Nat → Nat) (loose : Nat → Prop) (s : FsState)
    (target : Option (Nat × Bytes)) (r : Option (Nat × Bytes)) (s' : FsState) : Prop :=
  match target with
  | none => r = none ∧ Looked sb held held loose s s'
  | some (i, name) => ((nodes sb s.disk i).type = 0 → Dangling (nodes sb s.disk)) ∧
      ∃ a, r = some (a, name) ∧ a < NINODE ∧ (s'.itable a).inum = i ∧
        Looked sb held (bump held a) loose s s'

theorem Arrived.after {s t u : FsState} {target r : Option (Nat × Bytes)} {held' : Nat → Nat}
    (looked : Looked sb held held' loose s t) (arrived : Arrived sb held loose t target r u) :
    Arrived sb held loose s target r u := by
  have tree : nodes sb t.disk = nodes sb s.disk := by rw [looked.only.disk]
  cases target with
  | none =>
      simp only [Arrived] at arrived ⊢
      exact ⟨arrived.1, looked.trans arrived.2⟩
  | some target =>
      obtain ⟨i, name⟩ := target
      simp only [Arrived, tree] at arrived ⊢
      obtain ⟨live, a, eq, bound, inum, rest⟩ := arrived
      exact ⟨live, a, eq, bound, inum, looked.trans rest⟩

theorem namexLoop_spec (geo : Geometry sb) (parent : Bool) : ∀ (fuel a : Nat) (path : Path)
    (s : FsState), path.length < fuel → FsInv sb (bump held a) loose s → Guarded held loose s →
    a < NINODE → ((nodes sb s.disk (s.itable a).inum).type = 0 → Dangling (nodes sb s.disk)) →
    wp (namexLoop sb parent fuel a path) (LookupStop (nodes sb s.disk))
      (Arrived sb held loose s (resolve (nodes sb s.disk) parent fuel (s.itable a).inum path)) s := by
  intro fuel
  induction fuel with
  | zero => intro a path s enough; omega
  | succ fuel ih =>
      intro a path s enough inv guard bound live
      simp only [namexLoop, resolve]
      cases elem : skipelem path with
      | none =>
          simp only [wp_ite, wp_bind, wp_pure]
          refine ⟨fun isParent => ?_, fun notParent => ?_⟩
          · simp only [if_pos isParent]
            apply wp_mono (iput_back geo inv guard bound held) _ (fun e stop => stop.elim)
            intro _ s' back
            exact ⟨rfl, back⟩
          · simp only [if_neg notParent]
            exact ⟨live, a, rfl, bound, rfl, Looked.refl inv⟩
      | some found =>
          obtain ⟨name, rest⟩ := found
          have shorter := skipelem_shorter elem
          simp only [wp_bind, wp_get, wp_ite, wp_pure]
          apply wp_mono (ilock_looked inv bound (bump_pos held a) held)
          rotate_left
          · rintro e (stop | ⟨stop, none⟩)
            · exact Or.inr (Or.inl stop)
            · exact Or.inr (Or.inr (Or.inr ⟨stop, live none⟩))
          rintro _ s₁ ⟨locked, inum, valid, alloc⟩
          have pos := locked.inv.table.ref_of_held bound (bump_pos held a)
          have disk := locked.only.disk
          have type : (s₁.itable a).din.type = (nodes sb s.disk (s.itable a).inum).type := by
            rw [← disk, ← inum, locked.inv.node bound pos valid]
            rfl
          have guard₁ := guard.stays locked.stays
          have release : ∀ {t : FsState}, FsInv sb (bump held a) loose t → Guarded held loose t →
              wp (iunlockput sb a) (LookupStop (nodes sb s.disk))
                (fun _ u => Looked sb held held loose t u) t := by
            intro t inv' guard'
            apply wp_mono (iunlockput_back geo inv' guard' bound) (fun _ _ done => done)
            exact fun e stop => Or.inr (Or.inr (Or.inl stop))
          rw [type]
          refine ⟨fun file => ?_, fun dir => ⟨fun last => ?_, fun more => ?_⟩⟩
          · rw [if_pos file]
            apply wp_post (release locked.inv guard₁)
            intro _ u back
            exact ⟨rfl, locked.trans back⟩
          · rw [if_neg dir, if_pos last]
            apply wp_mono (iunlock_looked locked.inv bound held)
            · rintro _ u ⟨unlocked, same, -⟩
              exact ⟨live, a, rfl, bound, same.trans inum, locked.trans unlocked⟩
            · exact fun e stop => Or.inr (Or.inr (Or.inl stop))
          · rw [if_neg dir, if_neg more]
            have isDir : (nodes sb s₁.disk (s₁.itable a).inum).type = T_DIR := by
              rw [disk, inum]
              exact not_not.mp dir
            have on : OnDir sb s₁ a := ⟨bound, pos, valid, isDir⟩
            apply wp_mono (dirlookup_spec geo locked.inv on name)
            rotate_left
            · exact fun e stop => Or.inl stop.1
            intro r s₂ result
            simp only [Found, inum, disk] at result
            cases hit : (nodes sb s.disk (s.itable a).inum).lookup name with
            | none =>
                simp only [hit] at result
                obtain ⟨rfl, rfl⟩ := result
                simp only [wp_bind, wp_pure]
                apply wp_post (release locked.inv guard₁)
                intro _ u back
                exact ⟨rfl, locked.trans back⟩
            | some k =>
                simp only [hit] at result
                obtain ⟨b, rfl, got⟩ := result
                have looked := got.looked locked.inv (le_bump held a)
                have inv₂ : FsInv sb (bump (bump held a) b) loose s₂ := got.inv
                rw [bump_comm] at inv₂
                have guard₂ := (guard₁.stays looked.stays).bump b
                simp only [wp_bind]
                apply wp_mono (iunlockput_back geo inv₂ guard₂ bound)
                rotate_left
                · exact fun e stop => Or.inr (Or.inr (Or.inl stop))
                intro _ s₃ back
                have whole : Looked sb held (bump held b) loose s s₃ :=
                  (locked.trans looked).trans
                    ⟨back.inv, back.only, back.stays.mono (le_bump held b)⟩
                have next : (s₃.itable b).inum =
                    (nodes sb s.disk (s.itable a).inum).entInum k := by
                  rw [(back.stays b got.bound (by have := bump_pos held b; omega)).1, got.inum]
                have tree : nodes sb s₃.disk = nodes sb s.disk := by rw [whole.only.disk]
                have found := ih b rest s₃ (by omega) whole.inv (guard.stays whole.stays) got.bound (by
                  rw [next, tree]
                  intro none
                  obtain ⟨inside, used, -⟩ := lookup_eq_some.mp hit
                  refine Or.inr ⟨_, k, not_not.mp dir, inside, ?_, none⟩
                  simp only [Node.hit, Bool.and_eq_true, decide_eq_true_eq] at used
                  exact used.1)
                rw [next, tree] at found
                exact wp_post found fun r u arrived => arrived.after whole

def startOf (s : FsState) (cwd : Nat) (path : Path) : Nat :=
  if path.head? = some slash then ROOTINO else (s.itable cwd).inum

/-- Where a path leads for a process with working directory `cwd`. -/
def walk (sb : Superblock) (s : FsState) (cwd : Nat) (path : Path) (parent : Bool) :
    Option (Nat × Bytes) :=
  resolve (nodes sb s.disk) parent (path.length + 1) (startOf s cwd path) path

theorem namex_spec (geo : Geometry sb) {s : FsState} (inv : FsInv sb held loose s)
    (guard : Guarded held loose s) {cwd : Nat} (bound : cwd < NINODE) (used : 0 < uses s cwd)
    (path : Path) (parent : Bool) :
    wp (namex sb cwd path parent) (LookupStop (nodes sb s.disk))
      (Arrived sb held loose s (walk sb s cwd path parent)) s := by
  -- from the entry that the lookup starts with on
  have start : ∀ {a i : Nat} {t : FsState}, Got sb held loose s i a t →
      ((nodes sb s.disk i).type = 0 → Dangling (nodes sb s.disk)) → startOf s cwd path = i →
      wp (namexLoop sb parent (path.length + 1) a path) (LookupStop (nodes sb s.disk))
        (Arrived sb held loose s (walk sb s cwd path parent)) t := by
    intro a i t got live begin
    have looked : Looked sb held (bump held a) loose s t := got.looked inv fun _ => Nat.le_refl _
    have tree : nodes sb t.disk = nodes sb s.disk := by rw [looked.only.disk]
    have loop := namexLoop_spec geo parent (path.length + 1) a path t (Nat.lt_succ_self _)
      looked.inv (guard.stays looked.stays) got.bound (by rw [tree, got.inum]; exact live)
    rw [tree, got.inum] at loop
    unfold walk
    rw [begin]
    exact wp_post loop fun r u arrived => arrived.after looked
  unfold namex
  by_cases absolute : path.head? = some slash
  · simp only [if_pos absolute, wp_bind]
    apply wp_mono (iget_spec inv geo.root)
    · intro a t got
      exact start got Or.inl (if_pos absolute)
    · exact fun e stop => Or.inl stop.1
  · simp only [if_neg absolute, wp_bind]
    have more := inv.table.ref_of_uses bound used
    apply wp_mono (idup_spec inv bound (by omega))
    · rintro a t ⟨rfl, got⟩
      apply start got _ (if_neg absolute)
      intro none
      have pos : 0 < (s.itable a).ref := by omega
      rw [nodes_type (inv.table.inums a bound pos)] at none
      exact absurd none (inv.table.live a bound more)
    · exact fun e stop => stop.elim

end Namex

end Xv6Fcfs.Fs
