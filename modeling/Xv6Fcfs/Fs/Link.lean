import Xv6Fcfs.Fs.Create

/-!
# `sys_link`

The count of the file is raised before the new name is entered.  When the name cannot be
entered the count is put back, and the tree is what it was.
-/

set_option autoImplicit false

namespace Xv6Fcfs.Fs

open Xv6Fcfs.Lib

/-! ## Lookups look at types and contents -/

def SameShape (tree tree' : Nat → Node) : Prop :=
  ∀ i, (tree' i).type = (tree i).type ∧ (tree' i).size = (tree i).size ∧
    (tree' i).data = (tree i).data

section Shape
variable {tree tree' : Nat → Node}

theorem SameShape.nents (same : SameShape tree tree') (i : Nat) :
    (tree' i).nents = (tree i).nents := by
  simp only [Node.nents, (same i).2.1]

theorem SameShape.entInum (same : SameShape tree tree') (i k : Nat) :
    (tree' i).entInum k = (tree i).entInum k := by
  simp only [Node.entInum, (same i).2.2]

theorem SameShape.lookup (same : SameShape tree tree') (i : Nat) (name : Bytes) :
    (tree' i).lookup name = (tree i).lookup name := by
  have hit : (tree' i).hit name = (tree i).hit name := by
    funext k
    have names : (tree' i).entName k = (tree i).entName k := by
      funext j
      simp only [Node.entName, (same i).2.2]
    simp only [Node.hit, same.entInum, names]
  simp only [Node.lookup, same.nents, hit]

theorem SameShape.resolve (same : SameShape tree tree') (parent : Bool) : ∀ (fuel i : Nat)
    (path : Path), resolve tree' parent fuel i path = resolve tree parent fuel i path := by
  intro fuel
  induction fuel with
  | zero => intro i path; rfl
  | succ fuel ih =>
      intro i path
      simp only [Fs.resolve, (same i).1, same.lookup, same.entInum, ih]

theorem SameShape.dangling (same : SameShape tree tree') (dangling : Dangling tree') :
    Dangling tree := by
  rcases dangling with root | ⟨d, k, isDir, inside, used, none⟩
  · exact Or.inl ((same _).1.symm.trans root)
  · refine Or.inr ⟨d, k, ?_, ?_, ?_, ?_⟩
    · exact (same d).1.symm.trans isDir
    · rwa [same.nents] at inside
    · rwa [same.entInum] at used
    · rwa [same.entInum, (same _).1] at none

theorem SameShape.stop (same : SameShape tree tree') {e : Stop} (stop : LookupStop tree' e) :
    LookupStop tree e := by
  rcases stop with one | two | three | ⟨four, dangling⟩
  · exact Or.inl one
  · exact Or.inr (Or.inl two)
  · exact Or.inr (Or.inr (Or.inl three))
  · exact Or.inr (Or.inr (Or.inr ⟨four, same.dangling dangling⟩))

theorem View.setLinks_shape (v : View) (i nlink : Nat) :
    SameShape v.tree (v.setLinks i nlink).tree := by
  intro j
  by_cases here : j = i
  · subst here
    simp only [View.setLinks, View.setNode_tree, upd_self]
    exact ⟨trivial, trivial, trivial⟩
  · simp only [View.setLinks, View.setNode_tree, upd_of_ne here]
    exact ⟨trivial, trivial, trivial⟩

end Shape

section Counts
variable {sb : Superblock} {held : Nat → Nat} {s : FsState} {i : Nat}

theorem nodes_nlink_lt (sb : Superblock) (disk : Disk) (i : Nat) :
    (nodes sb disk i).nlink < 2 ^ 16 := by
  unfold nodes
  split
  · exact (dinode_fits sb disk i).nlink
  · exact Nat.two_pow_pos 16

theorem FsInv.linked (inv : FsInv sb held (fun _ => False) s) (alloc : (nodes sb s.disk i).type ≠ 0)
    (unused : ¬ InUse s i) : (nodes sb s.disk i).nlink ≠ 0 := by
  intro none
  have node := node_eq alloc
  have bound := nodes_range alloc
  rw [node] at alloc none
  obtain ⟨a, index, inum, -, more⟩ := inv.table.orphan i bound alloc none (fun no => no)
  rw [inv.table.refs a index] at more
  exact unused ⟨a, index, inum, by omega⟩

theorem FsInv.drop_view (inv : FsInv sb held (fun _ => False) s)
    (alloc : (nodes sb s.disk i).type ≠ 0) {used : Nat} (same : used = 0 ↔ ¬ InUse s i) :
    (view sb s).drop i used = view sb s :=
  if_neg fun both => inv.linked alloc (same.mp both.2) both.1

end Counts

/-! ## The label `bad` -/

section Bad
variable {sb : Superblock} {s t : FsState} {ip i k : Nat} {is : List Nat} {loose : Nat → Prop}

theorem linkBad_spec (geo : Geometry sb) (inv : FsInv sb idle (fun _ => False) s)
    (alloc : (nodes sb s.disk i).type ≠ 0) (on : On (bump idle ip) t ip)
    (inum : (t.itable ip).inum = i) (strict : ∀ j, loose j → j = i) (member : i ∈ is)
    (effect : Effect sb idle (bump idle ip) loose is k s
      ((view sb s).setLinks i (((nodes sb s.disk i).nlink + 1) % 2 ^ 16)) t) :
    wp (linkBad sb ip) (fun e => e = .deadlock ∨ e = .iunlock)
      (fun r u => r = -1 ∧ Effect sb idle idle (fun _ => False) is k s (view sb s) u) t := by
  have shape := View.setLinks_shape (view sb s) i (((nodes sb s.disk i).nlink + 1) % 2 ^ 16)
  simp only [linkBad, wp_bind, wp_pure]
  apply wp_mono (ilock_looked effect.inv on.bound on.holds (bump idle ip))
  rotate_left
  · rintro e (stop | ⟨-, none⟩)
    · exact Or.inl stop
    · rw [effect.tree, inum, (shape i).1] at none
      exact absurd none alloc
  rintro _ u ⟨locked, inum', valid, -⟩
  have pos := locked.inv.table.ref_of_held on.bound on.holds
  apply wp_mono (setLinks_spec (bump idle ip) geo locked.inv on.bound pos valid
    (fun n => (n + (2 ^ 16 - 1)) % 2 ^ 16) (fun n _ => Nat.mod_lt _ (by decide))) _
    (fun e no => no.elim)
  rintro _ w ⟨lowered, kept⟩
  have small := nodes_nlink_lt sb s.disk i
  have restored : (view sb u).setLinks (u.itable ip).inum
      (((nodes sb u.disk (u.itable ip).inum).nlink + (2 ^ 16 - 1)) % 2 ^ 16) = view sb s := by
    rw [locked.view, locked.only.disk, inum', inum, effect.view, effect.tree]
    simp only [View.setLinks, View.setNode, upd_self, upd_upd]
    have back : (((nodes sb s.disk i).nlink + 1) % 2 ^ 16 + (2 ^ 16 - 1)) % 2 ^ 16 =
        (nodes sb s.disk i).nlink := by omega
    rw [back]
    exact View.setNode_self (view sb s) i
  rw [restored, inum', inum] at lowered
  have first := effect.and (locked.then lowered) (fun _ => Nat.zero_le _) (by simpa using member)
  have same := (kept ip).1.trans (inum'.trans inum)
  have on' : On (bump idle ip) w ip := ⟨on.bound, on.holds, (kept ip).2.1 valid⟩
  apply wp_mono (iunlockput_release idle geo first.inv on'.bound on'.valid rfl
    fun _ => Nat.zero_le _)
  rotate_left
  · rintro e (stop | stop)
    · exact Or.inr stop
    · exact Or.inl stop
  intro _ x last
  have unused := first.unused_iff on.bound on.holds
  rw [same] at unused
  rw [same, first.view, first.uses, inv.drop_view alloc unused] at last
  have whole := first.and last (fun _ => Nat.le_refl _) (by simpa using member)
  refine ⟨trivial, { whole with inv := whole.inv.settle ?_ }⟩
  rintro j - ⟨(own | own), not⟩ - - -
  · exact absurd (strict j own) not
  · exact absurd own not

end Bad

/-! ## The call -/

section Call
variable {sb : Superblock} {s : FsState}

/-- The tree after the link of inode `i` as `name` in directory `d`. -/
def View.link (v : View) (d : Nat) (name : Bytes) (i : Nat) : View :=
  (v.setLinks i (((v.tree i).nlink + 1) % 2 ^ 16)).enter d name i

def LinkResult (sb : Superblock) (s : FsState) (cwd : Nat) (old new : Path) (r : Int)
    (s' : FsState) : Prop :=
  match walk sb s cwd old false with
  | none => r = -1 ∧ Looked sb idle idle (fun _ => False) s s'
  | some (i, _) => (nodes sb s.disk i).type ≠ 0 ∧
      if (nodes sb s.disk i).type = T_DIR then
        r = -1 ∧ Looked sb idle idle (fun _ => False) s s'
      else
        match walk sb s cwd new true with
        | none => r = -1 ∧ Effect sb idle idle (fun _ => False) [i] 0 s (view sb s) s'
        | some (d, name) => (nodes sb s.disk d).type = T_DIR ∧
            ((r = -1 ∧ Effect sb idle idle (fun _ => False) [i, d] 2 s (view sb s) s') ∨
              (r = 0 ∧ (nodes sb s.disk d).lookup name = none ∧ ∃ used, (used = 0 ↔ ¬ InUse s i) ∧
                Effect sb idle idle (fun _ => False) [i, d] 2 s
                  (((view sb s).link d name i).drop i used) s'))

theorem raise_spec (geo : Geometry sb) {ip i : Nat} {t : FsState}
    (looked : Looked sb idle (bump idle ip) (fun _ => False) s t) (on : On (bump idle ip) t ip)
    (inum : (t.itable ip).inum = i) :
    wp (do
        changeInode sb ip fun d => { d with nlink := (d.nlink + 1) % 2 ^ 16 }
        iunlock ip)
      (fun e => e = .iunlock)
      (fun _ u => On (bump idle ip) u ip ∧ (u.itable ip).inum = i ∧
        Effect sb idle (bump idle ip) (fun j => j = i) [i] 0 s
          ((view sb s).setLinks i (((nodes sb s.disk i).nlink + 1) % 2 ^ 16)) u) t := by
  have pos := looked.inv.table.ref_of_held on.bound on.holds
  rw [wp_bind]
  apply wp_mono (setLinks_spec (bump idle ip) geo looked.inv on.bound pos on.valid
    (fun n => (n + 1) % 2 ^ 16) (fun n _ => Nat.mod_lt _ (by decide))) _ (fun e no => no.elim)
  rintro _ u ⟨raised, -⟩
  obtain ⟨on', same⟩ := on.after on.holds (Nat.le_refl _) raised
  apply wp_post (iunlock_looked raised.inv on.bound (bump idle ip))
  rintro _ w ⟨unlocked, same', valid⟩
  refine ⟨⟨on.bound, on.holds, valid.trans on'.valid⟩, same'.trans (same.trans inum), ?_⟩
  rw [inum, looked.view, looked.only.disk] at raised
  have part := raised.look unlocked fun _ => Nat.le_refl _
  have whole := looked.then (part.mono (fun _ => Nat.zero_le _) (fun _ h => h) (Nat.le_refl 0))
  refine { whole with inv := whole.inv.settle ?_ }
  rintro j - (no | own) not - -
  · exact no.elim
  · exact absurd (own.trans inum) not

theorem enterLink_spec (geo : Geometry sb) (name : Bytes) (inv : FsInv sb idle (fun _ => False) s)
    {ip dp i d : Nat} {t : FsState} (alloc : (nodes sb s.disk i).type ≠ 0)
    (file : (nodes sb s.disk i).type ≠ T_DIR) (isDir : (nodes sb s.disk d).type = T_DIR)
    (onIp : On (bump (bump idle ip) dp) t ip) (bound : dp < NINODE)
    (inum : (t.itable ip).inum = i) (parent : (t.itable dp).inum = d)
    (effect : Effect sb idle (bump (bump idle ip) dp) (fun j => j = i) [i, d] 0 s
      ((view sb s).setLinks i (((nodes sb s.disk i).nlink + 1) % 2 ^ 16)) t) :
    wp (do
        ilock sb dp
        if ← dirlink sb dp name i then
          iunlockput sb dp
          iput sb ip
          return 0
        else
          iunlockput sb dp
          linkBad sb ip)
      (fun e => e = .igetNoInodes ∨ e = .deadlock ∨ e = .iunlock)
      (fun r u => (r = -1 ∧ Effect sb idle idle (fun _ => False) [i, d] 2 s (view sb s) u) ∨
        (r = 0 ∧ (nodes sb s.disk d).lookup name = none ∧ ∃ used, (used = 0 ↔ ¬ InUse s i) ∧
          Effect sb idle idle (fun _ => False) [i, d] 2 s
            (((view sb s).link d name i).drop i used) u)) t := by
  have differ : d ≠ i := by
    rintro rfl
    exact file isDir
  have apart : ip ≠ dp := by
    rintro rfl
    exact differ (parent.symm.trans inum)
  have shape := View.setLinks_shape (view sb s) i (((nodes sb s.disk i).nlink + 1) % 2 ^ 16)
  have dirType : (nodes sb t.disk d).type = T_DIR := by
    rw [effect.tree, (shape d).1]
    exact isDir
  have range := nodes_range alloc
  rw [wp_bind]
  apply wp_mono (ilock_looked effect.inv bound (bump_pos _ dp) (bump (bump idle ip) dp))
  rotate_left
  · rintro e (stop | ⟨-, none⟩)
    · exact Or.inr (Or.inl stop)
    · rw [parent, dirType] at none
      exact absurd none (by decide)
  rintro _ u ⟨locked, parent', valid, -⟩
  have lockedE := locked.effect (l := [i, d]) (k := 0)
  obtain ⟨onIp₁, inum₁⟩ := onIp.after onIp.holds (Nat.le_refl _) lockedE
  have onDp : OnDir sb u dp := by
    refine ⟨bound, locked.inv.table.ref_of_held bound (bump_pos _ dp), valid, ?_⟩
    rw [locked.only.disk, parent', parent]
    exact dirType
  have first := effect.look locked fun _ => Nat.zero_le _
  have guard : ∀ {w : FsState}, (w.itable ip).inum = i →
      Guarded (bump idle ip) (fun j => j = i) w := by
    rintro w own j rfl
    exact ⟨ip, onIp.bound, own, bump_pos idle ip⟩
  have low := Nat.mod_le i (2 ^ 16)
  rw [wp_bind]
  apply wp_mono (dirlink_spec geo first.inv ((guard (inum₁.trans inum)).bump dp) onDp name i
    (by omega)) _ (fun e stop => Or.inl stop.1)
  rw [parent', parent, first.view, first.tree]
  rintro r w (⟨rfl, absent, entered⟩ | ⟨rfl, kept⟩)
  · obtain ⟨onIp₂, inum₂⟩ := onIp₁.after onIp₁.holds (Nat.le_refl _) entered
    have second := first.and entered (fun _ => Nat.zero_le _) (by simp)
    have same := inum₂.trans (inum₁.trans inum)
    simp only [if_true, wp_bind, wp_pure]
    apply wp_mono (iunlockput_back geo second.inv (guard same) bound) _
      (fun e stop => Or.inr (Or.inr stop))
    intro _ x back
    have backE := back.effect (l := [i, d]) (k := 0)
    obtain ⟨onIp₃, inum₃⟩ := onIp₂.after (bump_pos idle ip) (Nat.le_refl _) backE
    have third := second.look back fun _ => Nat.zero_le _
    apply wp_mono (iput_release idle geo third.inv onIp.bound (fun _ => onIp₃.valid) rfl
      fun _ => Nat.zero_le _) _ (fun e stop => Or.inr (Or.inl stop))
    intro _ y last
    have unused := third.unused_iff onIp.bound (bump_pos idle ip)
    rw [inum₃, same] at unused
    rw [inum₃, same, third.view, third.uses] at last
    have whole := third.and last (fun _ => Nat.le_refl _) (by simp)
    refine Or.inr ⟨trivial, ?_, uses s ip, unused, { whole with inv := whole.inv.settle ?_ }⟩
    · rw [shape.lookup] at absent
      exact absent
    · rintro j - ⟨own, not⟩ - - -
      exact absurd own not
  · obtain ⟨onIp₂, inum₂⟩ := onIp₁.after onIp₁.holds (Nat.le_refl _) kept
    have second := first.and kept (fun _ => Nat.zero_le _) (by simp)
    have same := inum₂.trans (inum₁.trans inum)
    simp only [Bool.false_eq_true, if_false, wp_bind]
    apply wp_mono (iunlockput_back geo second.inv (guard same) bound) _
      (fun e stop => Or.inr (Or.inr stop))
    intro _ x back
    have backE := back.effect (l := [i, d]) (k := 0)
    obtain ⟨onIp₃, inum₃⟩ := onIp₂.after (bump_pos idle ip) (Nat.le_refl _) backE
    have third := second.look back fun _ => Nat.zero_le _
    apply wp_mono (linkBad_spec geo inv alloc onIp₃ (inum₃.trans same) (fun j own => own) (by simp)
      third)
    · rintro r y ⟨minus, effect⟩
      exact Or.inl ⟨minus, effect⟩
    · rintro e (stop | stop)
      · exact Or.inr (Or.inl stop)
      · exact Or.inr (Or.inr stop)

theorem sysLink_spec (geo : Geometry sb) (inv : FsInv sb idle (fun _ => False) s) {cwd : Nat}
    (bound : cwd < NINODE) (used : 0 < uses s cwd) (old new : Path) :
    wp (sysLink sb cwd old new) (LookupStop (nodes sb s.disk)) (LinkResult sb s cwd old new) s := by
  simp only [sysLink, namei, wp_bind, wp_pure]
  apply wp_post (namex_spec geo inv (guarded_none idle s) bound used old false)
  unfold LinkResult
  intro r t arrived
  cases target : walk sb s cwd old false with
  | none =>
      simp only [Arrived, target] at arrived
      obtain ⟨rfl, looked⟩ := arrived
      exact ⟨rfl, looked⟩
  | some target' =>
      obtain ⟨i, rest⟩ := target'
      simp only [Arrived, target] at arrived
      obtain ⟨live, ip, rfl, boundIp, inum, looked⟩ := arrived
      simp only [Option.map_some, wp_bind, wp_get]
      apply wp_mono (ilock_looked looked.inv boundIp (bump_pos idle ip) idle)
      rotate_left
      · rintro e (stop | ⟨stop, none⟩)
        · exact Or.inr (Or.inl stop)
        · rw [looked.only.disk, inum] at none
          exact Or.inr (Or.inr (Or.inr ⟨stop, live none⟩))
      rintro _ u ⟨locked, inum', valid, alloc⟩
      rw [looked.only.disk, inum] at alloc
      have whole := looked.trans locked
      have same := inum'.trans inum
      have on : On (bump idle ip) u ip := ⟨boundIp, bump_pos idle ip, valid⟩
      have pos := whole.inv.table.ref_of_held boundIp on.holds
      have type : (u.itable ip).din.type = (nodes sb s.disk i).type := by
        rw [← same, ← whole.only.disk, whole.inv.node boundIp pos valid]
        rfl
      refine wp_mono ?_ (fun _ _ done => ⟨alloc, done⟩) (fun e stop => stop)
      simp only [wp_ite, wp_bind, wp_pure, type]
      refine ⟨fun dir => ?_, fun file => ?_⟩
      · simp only [if_pos dir]
        apply wp_mono (iunlockput_back geo whole.inv (guarded_none idle u) boundIp) _
          (fun e stop => Or.inr (Or.inr (Or.inl stop)))
        intro _ w back
        exact ⟨trivial, whole.trans back⟩
      simp only [if_neg file]
      have begin := wp_mono (raise_spec geo whole on same) (F := LookupStop (nodes sb s.disk))
        (fun _ _ done => done) (fun e stop => Or.inr (Or.inr (Or.inl stop)))
      rw [wp_bind] at begin
      apply wp_post begin
      intro _ w outer
      apply wp_post outer
      rintro _ w ⟨on', inum₁, raised⟩
      have shape := View.setLinks_shape (view sb s) i (((nodes sb s.disk i).nlink + 1) % 2 ^ 16)
      have usedW : 0 < uses w cwd := by
        rw [raised.uses]
        exact used
      have path : walk sb w cwd new true = walk sb s cwd new true := by
        have start := (raised.stays cwd bound (by omega)).1
        simp only [walk, startOf, start, raised.tree, shape.resolve]
        rfl
      have guard : Guarded (bump idle ip) (fun j => j = i) w := by
        rintro j rfl
        exact ⟨ip, boundIp, inum₁, bump_pos idle ip⟩
      simp only [nameiparent]
      apply wp_mono (namex_spec geo raised.inv guard bound usedW new true)
      rotate_left
      · intro e stop
        rw [raised.tree] at stop
        exact shape.stop stop
      rw [path]
      intro r x arrived
      cases goal : walk sb s cwd new true with
      | none =>
          simp only [Arrived, goal] at arrived
          obtain ⟨rfl, searched⟩ := arrived
          have searchedE := searched.effect (l := [i]) (k := 0)
          obtain ⟨on₂, inum₂⟩ := on'.after on'.holds (Nat.le_refl _) searchedE
          have second := raised.look searched fun _ => Nat.zero_le _
          apply wp_mono (linkBad_spec geo inv alloc on₂ (inum₂.trans inum₁) (fun j own => own)
            (by simp) second) (fun _ _ done => done)
          rintro e (stop | stop)
          · exact Or.inr (Or.inl stop)
          · exact Or.inr (Or.inr (Or.inl stop))
      | some goal' =>
          obtain ⟨d, name⟩ := goal'
          simp only [Arrived, goal] at arrived
          obtain ⟨-, dp, rfl, boundDp, parent, searched⟩ := arrived
          have isDir : (nodes sb s.disk d).type = T_DIR := resolve_parent _ _ _ goal
          have searchedE := searched.effect (l := [i, d]) (k := 0)
          obtain ⟨on₂, inum₂⟩ := on'.after on'.holds (le_bump _ dp ip) searchedE
          have second := (raised.mono (l := [i, d]) (fun _ => Nat.le_refl _) (by simp)
            (Nat.le_refl 0)).look searched fun _ => Nat.zero_le _
          have enter := enterLink_spec geo name inv alloc file isDir on₂ boundDp
            (inum₂.trans inum₁) parent second
          rw [same]
          refine wp_mono enter (fun r y done => ⟨isDir, done⟩) ?_
          rintro e (stop | stop | stop)
          · exact Or.inl stop
          · exact Or.inr (Or.inl stop)
          · exact Or.inr (Or.inr (Or.inl stop))

end Call

end Xv6Fcfs.Fs
