import Xv6Fcfs.Fs.Parts

/-!
# `create`

A new inode gets its fields and, if it is a directory, its entries `.` and `..` before its
name is entered in the parent.  When one of the entries does not fit, the inode is given
back and the tree is what it was.
-/

set_option autoImplicit false

namespace Xv6Fcfs.Fs

open Xv6Fcfs.Lib

/-- A new inode with the fields that `create` fills in. -/
def madeNode (type major minor : Nat) : Node :=
  { freshNode type with major := major, minor := minor, nlink := 1 }

namespace View

def born (v : View) (i type major minor : Nat) : View :=
  (v.alloc i type).setNode i (madeNode type major minor)

/-- The entries `.` and `..` of a new directory. -/
def dots (v : View) (i d : Nat) : View := (v.enter i dot i).enter i dotdot d

/-- `create` of `name` in directory `d`. -/
def make (v : View) (d : Nat) (name : Bytes) (i type major minor : Nat) : View :=
  if type = T_DIR then
    let w := ((v.born i type major minor).dots i d).enter d name i
    w.setLinks d (((w.tree d).nlink + 1) % 2 ^ 16)
  else (v.born i type major minor).enter d name i

theorem enter_type (v : View) (d inum j : Nat) (name : Bytes) :
    ((v.enter d name inum).tree j).type = (v.tree j).type := by
  rw [enter_tree]
  by_cases here : j = d
  · rw [here, upd_self]
    rfl
  · rw [upd_of_ne here]

theorem setLinks_type (v : View) (i nlink j : Nat) :
    ((v.setLinks i nlink).tree j).type = (v.tree j).type := by
  rw [setLinks, setNode_tree]
  by_cases here : j = i
  · rw [here, upd_self]
  · rw [upd_of_ne here]

theorem born_type (v : View) (i type major minor j : Nat) :
    ((v.born i type major minor).tree j).type = if j = i then type else (v.tree j).type := by
  rw [born, setNode_tree, alloc_tree, upd_upd]
  by_cases here : j = i
  · rw [here, upd_self, if_pos rfl]
    rfl
  · rw [upd_of_ne here, if_neg here]

theorem make_type (v : View) (d : Nat) (name : Bytes) (i type major minor j : Nat) :
    ((v.make d name i type major minor).tree j).type = if j = i then type else (v.tree j).type := by
  unfold make
  split
  · simp only [setLinks_type, enter_type, dots, born_type]
  · rw [enter_type, born_type]

theorem drop_tree_of_ne {v : View} {i j used : Nat} (differ : j ≠ i) :
    (v.drop i used).tree j = v.tree j := by
  unfold drop
  split
  · rw [setNode_tree, upd_of_ne differ]
  · rfl

theorem drop_type (v : View) (i used j : Nat) :
    ((v.drop i used).tree j).type = 0 ∨ ((v.drop i used).tree j).type = (v.tree j).type := by
  unfold drop
  split
  · rw [setNode_tree]
    by_cases here : j = i
    · rw [here, upd_self]
      exact Or.inl rfl
    · rw [upd_of_ne here]
      exact Or.inr rfl
  · exact Or.inr rfl

/-- Apart from the contents and the entries of inode `i` nothing differs. -/
structure Inside (i : Nat) (v w : View) : Prop where
  tree : ∀ j, j ≠ i → w.tree j = v.tree j
  stamp : ∀ j, j ≠ i → w.stamp j = v.stamp j
  gen : w.gen = v.gen
  type : (w.tree i).type = (v.tree i).type

theorem Inside.refl (i : Nat) (v : View) : Inside i v v := ⟨fun _ _ => rfl, fun _ _ => rfl, rfl, rfl⟩

theorem Inside.trans {i : Nat} {u v w : View} (first : Inside i u v) (second : Inside i v w) :
    Inside i u w :=
  ⟨fun j differ => (second.tree j differ).trans (first.tree j differ),
    fun j differ => (second.stamp j differ).trans (first.stamp j differ),
    second.gen.trans first.gen, second.type.trans first.type⟩

theorem enter_inside (v : View) (i : Nat) (name : Bytes) (inum : Nat) :
    Inside i v (v.enter i name inum) := by
  refine ⟨?_, ?_, rfl, ?_⟩
  · intro j differ
    simp only [enter, upd_of_ne differ]
  · intro j differ
    simp only [enter, upd_of_ne differ]
  · simp only [enter, upd_self, Node.writeEnt]

/-- Inode `i` was taken and given back. -/
structure Retired (v : View) (i : Nat) (w : View) : Prop where
  tree : w.tree = v.tree
  gen : w.gen = upd v.gen i (v.gen i + 1)
  stamp : ∀ j, j ≠ i → w.stamp j = v.stamp j

end View

section Entries
variable {sb : Superblock} {held : Nat → Nat} {s : FsState} {dp a : Nat} {name : Bytes}

/-- The call holds a valid reference to the inode of entry `a`. -/
structure On (held : Nat → Nat) (s : FsState) (a : Nat) : Prop where
  bound : a < NINODE
  holds : 0 < held a
  valid : (s.itable a).valid = true

theorem On.after {base : Nat → Nat} {held' : Nat → Nat} {loose : Nat → Prop} {is : List Nat}
    {k : Nat} {v : View} {t : FsState} (on : On held s a) (keeps : 0 < base a) (less : base a ≤ held' a)
    (effect : Effect sb base held' loose is k s v t) :
    On held' t a ∧ (t.itable a).inum = (s.itable a).inum := by
  obtain ⟨inum, valid⟩ := effect.stays a on.bound (by omega)
  exact ⟨⟨on.bound, by omega, valid on.valid⟩, inum⟩

theorem On.dir {loose : Nat → Prop} (on : On held s a) (inv : FsInv sb held loose s)
    (isDir : (nodes sb s.disk (s.itable a).inum).type = T_DIR) : OnDir sb s a :=
  ⟨on.bound, inv.table.ref_of_held on.bound on.holds, on.valid, isDir⟩

/-- What `createEntries` leaves: all entries, or some in the new inode only. -/
def Entered (sb : Superblock) (held : Nat → Nat) (s : FsState) (d i : Nat) (name : Bytes)
    (type : Nat) (r : Bool) (s' : FsState) : Prop :=
  (r = true ∧ Effect sb held held (fun _ => False) [d, i] 6 s
    ((if type = T_DIR then (view sb s).dots i d else view sb s).enter d name i) s') ∨
  (r = false ∧ ∃ w, View.Inside i (view sb s) w ∧
    Effect sb held held (fun _ => False) [d, i] 6 s w s')

/-- `dirlink` of the name in the parent, after `k` blocks were logged. -/
theorem dirlink_last (geo : Geometry sb) {s t : FsState} {d i k : Nat} {v : View}
    (effect : Effect sb held held (fun _ => False) [d, i] k s v t) (small : k ≤ 4)
    (inside : View.Inside i (view sb s) v) (on : OnDir sb t dp) (inum : (t.itable dp).inum = d)
    (range : i < sb.ninodes) :
    wp (dirlink sb dp name i) (fun e => e = .igetNoInodes)
      (fun r u => (r = true ∧ Effect sb held held (fun _ => False) [d, i] 6 s (v.enter d name i) u) ∨
        (r = false ∧ ∃ w, View.Inside i (view sb s) w ∧
          Effect sb held held (fun _ => False) [d, i] 6 s w u)) t := by
  have low := Nat.mod_le i (2 ^ 16)
  apply wp_mono (dirlink_spec geo effect.inv (guarded_none held t) on name i (by omega)) _
    (fun e stop => stop.1)
  rintro r u (⟨rfl, -, more⟩ | ⟨rfl, more⟩)
  · left
    rw [inum, effect.view] at more
    exact ⟨rfl, (effect.and more (fun _ => Nat.le_refl _) (by simp)).mono
      (fun _ => Nat.le_refl _) (fun _ member => member) (by omega)⟩
  · right
    rw [inum, effect.view] at more
    exact ⟨rfl, v, inside, (effect.and more (fun _ => Nat.le_refl _) (by simp)).mono
      (fun _ => Nat.le_refl _) (fun _ member => member) (by omega)⟩

theorem createEntries_spec (geo : Geometry sb) (inv : FsInv sb held (fun _ => False) s)
    (onDp : On held s dp) (onIp : On held s a)
    (isDir : (nodes sb s.disk (s.itable dp).inum).type = T_DIR)
    (differ : (s.itable dp).inum ≠ (s.itable a).inum) (name : Bytes) {type : Nat}
    (kind : (nodes sb s.disk (s.itable a).inum).type = type) :
    wp (createEntries sb dp a name type) (fun e => e = .igetNoInodes)
      (Entered sb held s (s.itable dp).inum (s.itable a).inum name type) s := by
  have range : ∀ b, On held s b → (s.itable b).inum < sb.ninodes := fun b on =>
    inv.table.inums b on.bound (inv.table.ref_of_held on.bound on.holds)
  have rangeA := range a onIp
  unfold Entered
  simp only [createEntries, wp_bind, wp_get, wp_ite, wp_pure]
  refine ⟨fun dirType => ?_, fun other => ?_⟩
  · simp only [if_pos dirType]
    have lowA := Nat.mod_le (s.itable a).inum (2 ^ 16)
    have lowD := Nat.mod_le (s.itable dp).inum (2 ^ 16)
    have rangeD := range dp onDp
    have self : OnDir sb s a := onIp.dir inv (kind.trans dirType)
    apply wp_mono (dirlink_spec geo inv (guarded_none held s) self dot
      (s.itable a).inum (by omega)) _ (fun e stop => stop.1)
    rintro r t (⟨rfl, -, first⟩ | ⟨rfl, first⟩)
    rotate_left
    · refine ⟨fun no => (by cases no), fun _ => Or.inr ⟨trivial, view sb s, View.Inside.refl _ _, ?_⟩⟩
      exact first.mono (fun _ => Nat.le_refl _) (by simp) (by omega)
    refine ⟨fun _ => ?_, fun no => absurd rfl no⟩
    obtain ⟨onIp₁, inum₁⟩ := onIp.after onIp.holds (Nat.le_refl _) first
    obtain ⟨onDp₁, inumD₁⟩ := onDp.after onDp.holds (Nat.le_refl _) first
    have in₁ := View.enter_inside (view sb s) (s.itable a).inum dot (s.itable a).inum
    have self₁ : OnDir sb t a := onIp₁.dir first.inv (by
      rw [first.tree, inum₁, in₁.type]
      exact kind.trans dirType)
    apply wp_mono (dirlink_spec geo first.inv (guarded_none held t) self₁ dotdot
      (s.itable dp).inum (by omega)) _ (fun e stop => stop.1)
    rw [inum₁, first.view]
    rintro r u (⟨rfl, -, second⟩ | ⟨rfl, second⟩)
    rotate_left
    · refine ⟨fun no => (by cases no), fun _ => Or.inr ⟨trivial, _, in₁, ?_⟩⟩
      exact (first.trans second).mono (fun _ => Nat.le_refl _) (by simp) (by omega)
    refine ⟨fun _ => ?_, fun no => absurd rfl no⟩
    have both := (first.trans second).mono (l := [(s.itable dp).inum, (s.itable a).inum])
      (fun _ => Nat.le_refl _) (by simp) (Nat.le_refl 4)
    have in₂ := in₁.trans (View.enter_inside ((view sb s).enter (s.itable a).inum dot
      (s.itable a).inum) (s.itable a).inum dotdot (s.itable dp).inum)
    obtain ⟨onDp₂, inumD₂⟩ := onDp₁.after onDp₁.holds (Nat.le_refl _) second
    have parent : OnDir sb u dp := onDp₂.dir both.inv (by
      rw [both.tree, inumD₂, inumD₁, in₂.tree _ differ]
      exact isDir)
    exact dirlink_last geo both (by omega) in₂ parent (inumD₂.trans inumD₁) rangeA
  · simp only [if_neg other]
    have start : Effect sb held held (fun _ => False) [(s.itable dp).inum, (s.itable a).inum] 0 s
        (view sb s) s := Effect.refl inv
    exact dirlink_last geo start (by omega) (View.Inside.refl _ _) (onDp.dir inv isDir) rfl rangeA

end Entries

/-! ## A new inode -/

section New
variable {sb : Superblock} {s : FsState} {dp : Nat}

theorem Mild.of_made {major minor : Nat} (smallMajor : major < 2 ^ 16) (smallMinor : minor < 2 ^ 16) :
    Mild fun d => { d with major := major, minor := minor, nlink := 1 } where
  type _ := rfl
  size _ := rfl
  addrs _ := rfl
  fits d fits := ⟨fits.type, smallMajor, smallMinor, by simp, fits.size, fits.addrs,
    fits.outside⟩

/-- What `createNew` leaves in the parent `d`, to which `used` other references exist. -/
def Created (sb : Superblock) (s : FsState) (d used : Nat) (name : Bytes) (type major minor : Nat)
    (r : Option Nat) (s' : FsState) : Prop :=
  (r = none ∧ freeInode sb s.disk 1 (sb.ninodes - 1) = none ∧
    Looked sb idle idle (fun _ => False) s s') ∨
  (r = none ∧ ∃ i w, freeInode sb s.disk 1 (sb.ninodes - 1) = some i ∧
    View.Retired (view sb s) i w ∧ Effect sb idle idle (fun _ => False) [d, i] 6 s w s') ∨
  ∃ a i, r = some a ∧ freeInode sb s.disk 1 (sb.ninodes - 1) = some i ∧ On (bump idle a) s' a ∧
    (s'.itable a).inum = i ∧ i ≠ d ∧ nodes sb s.disk i = .free ∧ 1 ≤ i ∧ i < sb.ninodes ∧
    Effect sb idle (bump idle a) (fun _ => False) [d, i] 6 s
      (((view sb s).make d name i type major minor).drop d used) s'

theorem bump_of_ne {held : Nat → Nat} {a b : Nat} (differ : b ≠ a) : bump held a b = held b :=
  upd_of_ne differ _ _

structure Born (sb : Superblock) (s : FsState) (dp a i type major minor : Nat) (t : FsState) :
    Prop where
  onDp : On (bump (bump idle dp) a) t dp
  onIp : On (bump (bump idle dp) a) t a
  parent : (t.itable dp).inum = (s.itable dp).inum
  inum : (t.itable a).inum = i
  differ : (s.itable dp).inum ≠ i
  effect : Effect sb idle (bump (bump idle dp) a) (fun _ => False) [(s.itable dp).inum, i] 0 s
    ((view sb s).born i type major minor) t

theorem born_spec (geo : Geometry sb) (inv : FsInv sb (bump idle dp) (fun _ => False) s)
    (on : OnDir sb s dp) {type major minor a i : Nat} {t : FsState} (kind : type ≠ 0)
    (smallMajor : major < 2 ^ 16) (smallMinor : minor < 2 ^ 16)
    (fresh : Fresh sb (bump idle dp) (fun _ => False) s type a i t) :
    wp (do
        ilock sb a
        changeInode sb a fun d => { d with major := major, minor := minor, nlink := 1 })
      (fun e => e = .deadlock) (fun _ u => Born sb s dp a i type major minor u) t := by
  have start : On (bump idle dp) s dp := ⟨on.bound, bump_pos idle dp, on.valid⟩
  have taken : Effect sb (bump idle dp) _ _ [i] 0 s ((view sb s).alloc i type) t :=
    fresh.effect inv fun _ => Nat.le_refl _
  obtain ⟨onDp, inumD⟩ := start.after start.holds (le_bump _ a dp) taken
  have differ : (s.itable dp).inum ≠ i := by
    intro same
    have isDir := on.isDir
    rw [same, fresh.free] at isDir
    exact absurd isDir (by decide)
  rw [wp_bind]
  apply wp_mono (ilock_looked fresh.inv fresh.bound (bump_pos _ a) (bump (bump idle dp) a))
  rotate_left
  · rintro e (stop | ⟨-, none⟩)
    · exact stop
    · rw [fresh.inum, fresh.tree, upd_self] at none
      exact absurd none kind
  rintro _ u ⟨locked, inum, valid, -⟩
  have onIp : On (bump (bump idle dp) a) u a := ⟨fresh.bound, bump_pos _ a, valid⟩
  have pos := locked.inv.table.ref_of_held onIp.bound onIp.holds
  apply wp_mono (changeInode_spec geo locked.inv onIp.bound pos valid
    (Mild.of_made smallMajor smallMinor)) _ (fun e no => no.elim)
  rintro _ w ⟨-, altered⟩
  have made : ({ nodes sb u.disk (u.itable a).inum with
      major := major, minor := minor, nlink := 1 } : Node) = madeNode type major minor := by
    rw [inum, fresh.inum, locked.only.disk, fresh.tree, upd_self]
    rfl
  rw [made] at altered
  have filled : Effect sb (bump (bump idle dp) a) _ _ [(u.itable a).inum] 0 u _ w := altered.effect
  have same := (altered.kept a).1.trans (inum.trans fresh.inum)
  rw [inum, fresh.inum, locked.view, taken.view] at filled
  have whole := locked.then filled
  have settled : FsInv sb (bump (bump idle dp) a) (fun _ => False) w := by
    refine filled.inv.settle ?_
    intro j _ strict _ _ zero
    obtain rfl : j = i := by
      rcases strict with (no | own) | own
      · exact no.elim
      · exact own
      · exact own
    rw [filled.tree] at zero
    simp [madeNode] at zero
  obtain ⟨onDp', inumD'⟩ := onDp.after onDp.holds (Nat.le_refl _) whole
  obtain ⟨onIp', -⟩ := onIp.after onIp.holds (Nat.le_refl _) filled
  refine ⟨onDp', onIp', inumD'.trans inumD, same, differ, ?_⟩
  have both := (taken.mono (c := idle) (fun b => Nat.zero_le _) (fun _ h => h)
    (Nat.le_refl 0)).trans (whole.mono (fun b => Nat.zero_le _) (fun _ h => h) (Nat.le_refl 0))
  have wide := both.mono (l := [(s.itable dp).inum, i]) (fun b => Nat.le_refl _) (by simp)
    (Nat.le_refl 0)
  exact { wide with inv := settled }

/-- The reference to the parent is given back; the one to the inode stays. -/
theorem giveParent_spec (geo : Geometry sb) {t : FsState} {dp a d i k : Nat} {v : View}
    {loose : Nat → Prop} (strict : ∀ j, loose j → j = d)
    (onDp : On (bump (bump idle dp) a) t dp) (onIp : On (bump (bump idle dp) a) t a)
    (parent : (t.itable dp).inum = d) (inum : (t.itable a).inum = i) (differ : d ≠ i)
    (effect : Effect sb idle (bump (bump idle dp) a) loose [d, i] k s v t) :
    wp (iunlockput sb dp) (fun e => e = .iunlock ∨ e = .deadlock)
      (fun _ u => On (bump idle a) u a ∧ (u.itable a).inum = i ∧
        Effect sb idle (bump idle a) (fun _ => False) [d, i] k s (v.drop d (uses s dp)) u) t := by
  have apart : dp ≠ a := by
    rintro rfl
    exact differ (parent.symm.trans inum)
  have inv := effect.inv
  rw [bump_comm] at inv
  apply wp_post (iunlockput_release (bump idle a) geo inv onDp.bound onDp.valid
    (bump_of_ne apart) fun _ => Nat.le_refl _)
  intro _ u last
  obtain ⟨onIp', inum'⟩ := onIp.after (bump_pos idle a) (Nat.le_refl _) last
  refine ⟨onIp', inum'.trans inum, ?_⟩
  rw [parent, effect.view, effect.uses] at last
  have both := effect.and last (fun _ => Nat.zero_le _) (by simp)
  refine { both with inv := both.inv.settle ?_ }
  rintro j - ⟨own, not⟩ - - -
  exact absurd (strict j own) not

/-- The parent's count changes for a directory, and the parent is given back. -/
theorem parentLinks_spec (geo : Geometry sb) {t : FsState} {dp a d i k : Nat} (type : Nat) {v : View}
    (g : Nat → Nat) (small : ∀ n, g n < 2 ^ 16)
    (onDp : On (bump (bump idle dp) a) t dp) (onIp : On (bump (bump idle dp) a) t a)
    (parent : (t.itable dp).inum = d) (inum : (t.itable a).inum = i) (differ : d ≠ i)
    (effect : Effect sb idle (bump (bump idle dp) a) (fun _ => False) [d, i] k s v t) :
    wp (do
        if type = T_DIR then changeInode sb dp fun d => { d with nlink := g d.nlink }
        iunlockput sb dp)
      (fun e => e = .iunlock ∨ e = .deadlock)
      (fun _ u => On (bump idle a) u a ∧ (u.itable a).inum = i ∧
        Effect sb idle (bump idle a) (fun _ => False) [d, i] k s
          ((if type = T_DIR then v.setLinks d (g (v.tree d).nlink) else v).drop d (uses s dp)) u)
      t := by
  simp only [wp_bind, wp_ite]
  refine ⟨fun dir => ?_, fun other => ?_⟩
  · simp only [if_pos dir]
    have pos := effect.inv.table.ref_of_held onDp.bound onDp.holds
    apply wp_mono (setLinks_spec (bump (bump idle dp) a) geo effect.inv onDp.bound pos
      onDp.valid g (fun n _ => small n)) _ (fun e no => no.elim)
    rintro _ w ⟨changed, -⟩
    obtain ⟨onDp', parent'⟩ := onDp.after onDp.holds (Nat.le_refl _) changed
    obtain ⟨onIp', inum'⟩ := onIp.after onIp.holds (Nat.le_refl _) changed
    rw [parent, effect.view, effect.tree] at changed
    have both := effect.and changed (fun _ => Nat.zero_le _) (by simp)
    refine giveParent_spec geo ?_ onDp' onIp' (parent'.trans parent) (inum'.trans inum) differ both
    rintro j (no | own)
    · exact no.elim
    · exact own
  · simp only [if_neg other]
    exact giveParent_spec geo (fun j no => no.elim) onDp onIp parent inum differ effect

theorem fail_spec (geo : Geometry sb) {t : FsState} {dp a d i k : Nat} {v : View}
    (onDp : On (bump (bump idle dp) a) t dp) (onIp : On (bump (bump idle dp) a) t a)
    (parent : (t.itable dp).inum = d) (inum : (t.itable a).inum = i) (differ : d ≠ i)
    (unused : uses s a = 0)
    (effect : Effect sb idle (bump (bump idle dp) a) (fun _ => False) [d, i] k s v t) :
    wp (do
        changeInode sb a fun d => { d with nlink := 0 }
        iunlockput sb a
        iunlockput sb dp)
      (fun e => e = .iunlock ∨ e = .deadlock)
      (fun _ u => Effect sb idle idle (fun _ => False) [d, i] k s (v.setNode i .free) u) t := by
  have apart : a ≠ dp := by
    rintro rfl
    exact differ (parent.symm.trans inum)
  simp only [wp_bind]
  have pos := effect.inv.table.ref_of_held onIp.bound onIp.holds
  apply wp_mono (setLinks_spec (bump (bump idle dp) a) geo effect.inv onIp.bound pos
    onIp.valid (fun _ => 0) (fun _ _ => by decide)) _ (fun e no => no.elim)
  rintro _ w ⟨lowered, kept⟩
  obtain ⟨onDp', parent'⟩ := onDp.after onDp.holds (Nat.le_refl _) lowered
  obtain ⟨onIp', inum'⟩ := onIp.after onIp.holds (Nat.le_refl _) lowered
  rw [inum, effect.view] at lowered
  have first := effect.and lowered (fun _ => Nat.zero_le _) (by simp)
  apply wp_post (iunlockput_release (bump idle dp) geo first.inv onIp'.bound onIp'.valid
    (bump_of_ne apart) fun _ => Nat.le_refl _)
  intro _ x freed
  obtain ⟨onDp'', parent''⟩ := onDp'.after (bump_pos idle dp) (Nat.le_refl _) freed
  rw [inum', inum, first.view, first.uses, unused] at freed
  have gone : (v.setLinks i 0).drop i 0 = v.setNode i .free := by
    unfold View.drop
    rw [if_pos ⟨by simp [View.setLinks], rfl⟩]
    simp only [View.setLinks, View.setNode, upd_upd]
  rw [gone] at freed
  have second := first.and freed (fun _ => Nat.zero_le _) (by simp)
  have settled : FsInv sb (bump idle dp) (fun _ => False) x := by
    refine second.inv.settle ?_
    rintro j - ⟨own | own, not⟩ - - -
    · exact own.elim
    · exact absurd own not
  apply wp_mono (iunlockput_back geo settled (guarded_none idle x) onDp.bound) _
    (fun e stop => Or.inl stop)
  intro _ u back
  exact second.look back fun _ => Nat.le_refl _

theorem createNew_spec (geo : Geometry sb) (inv : FsInv sb (bump idle dp) (fun _ => False) s)
    (on : OnDir sb s dp) (name : Bytes) {type major minor : Nat} (small : type < 2 ^ 16)
    (kind : type ≠ 0) (smallMajor : major < 2 ^ 16) (smallMinor : minor < 2 ^ 16) :
    wp (createNew sb dp name type major minor)
      (fun e => e = .igetNoInodes ∨ e = .deadlock ∨ e = .iunlock)
      (Created sb s (s.itable dp).inum (uses s dp) name type major minor) s := by
  simp only [createNew, wp_bind]
  apply wp_mono (ialloc_spec geo inv small kind) _ (fun e stop => Or.inl stop)
  rintro r t (⟨rfl, none, rfl⟩ | ⟨a, i, rfl, found, fresh⟩)
  · simp only [wp_bind, wp_pure]
    apply wp_mono (iunlockput_back geo inv (guarded_none idle _) on.bound) _
      (fun e stop => Or.inr (Or.inr stop))
    intro _ s' back
    exact Or.inl ⟨rfl, none, back⟩
  have begin := wp_mono (born_spec geo inv on kind smallMajor smallMinor fresh)
    (P := fun _ u => Born sb s dp a i type major minor u)
    (F := fun e => e = .igetNoInodes ∨ e = .deadlock ∨ e = .iunlock)
    (fun _ _ born => born) (fun e stop => Or.inr (Or.inl stop))
  simp only [wp_bind] at begin ⊢
  apply wp_post begin
  intro _ u outer
  apply wp_post outer
  intro _ u born
  have unused := fresh.unused inv
  have isDir : (nodes sb u.disk (u.itable dp).inum).type = T_DIR := by
    rw [born.effect.tree, born.parent]
    simp only [View.born, View.setNode_tree, View.alloc_tree, upd_of_ne born.differ]
    exact on.isDir
  have made : (nodes sb u.disk (u.itable a).inum).type = type := by
    rw [born.effect.tree, born.inum]
    simp [View.born, madeNode, freshNode]
  apply wp_mono (createEntries_spec geo born.effect.inv born.onDp born.onIp isDir
    (by rw [born.parent, born.inum]; exact born.differ) name made) _ (fun e stop => Or.inl stop)
  rw [born.parent, born.inum]
  rintro r w (⟨rfl, entered⟩ | ⟨rfl, x, inside, entered⟩)
  · obtain ⟨onDp, parent⟩ := born.onDp.after born.onDp.holds (Nat.le_refl _) entered
    obtain ⟨onIp, inum⟩ := born.onIp.after born.onIp.holds (Nat.le_refl _) entered
    rw [born.effect.view] at entered
    have whole := born.effect.and entered (fun _ => Nat.zero_le _) fun _ h => h
    have finish := wp_mono (parentLinks_spec geo type (fun n => (n + 1) % 2 ^ 16)
      (fun n => Nat.mod_lt _ (by decide)) onDp onIp (parent.trans born.parent)
      (inum.trans born.inum) born.differ whole)
      (P := fun _ => Created sb s (s.itable dp).inum (uses s dp) name type major minor (some a))
      (F := fun e => e = .igetNoInodes ∨ e = .deadlock ∨ e = .iunlock)
      (by
        rintro _ s' ⟨on', inum', effect⟩
        refine Or.inr (Or.inr ⟨a, i, rfl, found, on', inum', born.differ.symm, fresh.free, fresh.low,
          fresh.high, ?_⟩)
        by_cases dir : type = T_DIR
        · simp only [if_pos dir] at effect
          simp only [View.make, if_pos dir]
          exact effect
        · simp only [if_neg dir] at effect
          simp only [View.make, if_neg dir]
          exact effect)
      (by
        rintro e (stop | stop)
        · exact Or.inr (Or.inr stop)
        · exact Or.inr (Or.inl stop))
    simp only [wp_bind, wp_ite, wp_pure] at finish ⊢
    exact ⟨fun _ => finish, fun no => absurd trivial no⟩
  · obtain ⟨onDp, parent⟩ := born.onDp.after born.onDp.holds (Nat.le_refl _) entered
    obtain ⟨onIp, inum⟩ := born.onIp.after born.onIp.holds (Nat.le_refl _) entered
    rw [born.effect.view] at inside
    have whole := born.effect.and entered (fun _ => Nat.zero_le _) fun _ h => h
    have undo := wp_mono (fail_spec geo onDp onIp (parent.trans born.parent)
      (inum.trans born.inum) born.differ unused whole)
      (P := fun _ => Created sb s (s.itable dp).inum (uses s dp) name type major minor none)
      (F := fun e => e = .igetNoInodes ∨ e = .deadlock ∨ e = .iunlock)
      (by
        intro _ s' effect
        refine Or.inr (Or.inl ⟨rfl, i, _, found, ⟨?_, ?_, ?_⟩, effect⟩)
        · funext j
          by_cases here : j = i
          · rw [here, View.setNode_tree, upd_self]
            exact fresh.free.symm
          · rw [View.setNode_tree, upd_of_ne here, inside.tree j here]
            simp only [View.born, View.setNode_tree, View.alloc_tree, upd_of_ne here]
        · rw [View.setNode_gen, inside.gen]
          rfl
        · intro j differ
          rw [View.setNode_stamp, inside.stamp j differ]
          rfl)
      (by
        rintro e (stop | stop)
        · exact Or.inr (Or.inr stop)
        · exact Or.inr (Or.inl stop))
    simp only [wp_bind, wp_ite, wp_pure] at undo ⊢
    exact ⟨fun no => (by cases no), fun _ => undo⟩

end New

/-! ## A name that exists -/

section Existing
variable {sb : Superblock} {s : FsState}

/-- The call ends up with the inode `i`, locked. -/
def Opened (sb : Superblock) (s : FsState) (i : Nat) (r : Option Nat) (s' : FsState) : Prop :=
  ∃ a, r = some a ∧ On (bump idle a) s' a ∧ (s'.itable a).inum = i ∧
    Looked sb idle (bump idle a) (fun _ => False) s s'

theorem createExisting_spec (geo : Geometry sb) {dp ip : Nat} (type : Nat)
    (inv : FsInv sb (bump (bump idle dp) ip) (fun _ => False) s) (boundDp : dp < NINODE)
    (bound : ip < NINODE)
    (live : (nodes sb s.disk (s.itable ip).inum).type = 0 → Dangling (nodes sb s.disk)) :
    wp (createExisting sb dp ip type) (LookupStop (nodes sb s.disk))
      (fun r s' => if type = T_FILE ∧ ((nodes sb s.disk (s.itable ip).inum).type = T_FILE ∨
          (nodes sb s.disk (s.itable ip).inum).type = T_DEVICE) then
        Opened sb s (s.itable ip).inum r s'
      else r = none ∧ Looked sb idle idle (fun _ => False) s s') s := by
  simp only [createExisting, wp_bind, wp_get]
  rw [bump_comm] at inv
  apply wp_mono (iunlockput_back geo inv (guarded_none _ s) boundDp) _
    (fun e stop => Or.inr (Or.inr (Or.inl stop)))
  intro _ t given
  have inum₁ := (given.stays ip bound (by have := bump_pos idle ip; omega)).1
  apply wp_mono (ilock_looked given.inv bound (bump_pos idle ip) (bump idle ip))
  rotate_left
  · rintro e (stop | ⟨stop, none⟩)
    · exact Or.inr (Or.inl stop)
    · rw [given.only.disk, inum₁] at none
      exact Or.inr (Or.inr (Or.inr ⟨stop, live none⟩))
  rintro _ u ⟨locked, inum₂, valid, -⟩
  have whole := given.trans locked
  have low : Looked sb idle (bump idle ip) (fun _ => False) s u :=
    ⟨whole.inv, whole.only, whole.stays.mono fun _ => Nat.zero_le _⟩
  have pos := whole.inv.table.ref_of_held bound (bump_pos idle ip)
  have found : (u.itable ip).din.type = (nodes sb s.disk (s.itable ip).inum).type := by
    rw [← inum₁, ← inum₂, ← whole.only.disk, whole.inv.node bound pos valid]
    rfl
  simp only [wp_ite, wp_bind, wp_pure, found]
  refine ⟨fun file => ?_, fun other => ?_⟩
  · rw [if_pos file]
    exact ⟨ip, rfl, ⟨bound, bump_pos idle ip, valid⟩, inum₂.trans inum₁, low⟩
  · simp only [if_neg other]
    apply wp_mono (iunlockput_back geo whole.inv (guarded_none idle u) bound) _
      (fun e stop => Or.inr (Or.inr (Or.inl stop)))
    intro _ w back
    exact ⟨trivial, low.trans back⟩

def CreateResult (sb : Superblock) (s : FsState) (cwd : Nat) (path : Path) (type major minor : Nat)
    (r : Option Nat) (s' : FsState) : Prop :=
  match walk sb s cwd path true with
  | none => r = none ∧ Looked sb idle idle (fun _ => False) s s'
  | some (d, name) => (nodes sb s.disk d).type = T_DIR ∧
      match (nodes sb s.disk d).lookup name with
      | some k =>
          if type = T_FILE ∧ ((nodes sb s.disk ((nodes sb s.disk d).entInum k)).type = T_FILE ∨
              (nodes sb s.disk ((nodes sb s.disk d).entInum k)).type = T_DEVICE) then
            Opened sb s ((nodes sb s.disk d).entInum k) r s'
          else r = none ∧ Looked sb idle idle (fun _ => False) s s'
      | none => ∃ used, (used = 0 ↔ ¬ InUse s d) ∧
          Created sb s d used name type major minor r s'

theorem Opened.after {held : Nat → Nat} {t s' : FsState} {i : Nat} {r : Option Nat}
    (looked : Looked sb idle held (fun _ => False) s t) (opened : Opened sb t i r s') :
    Opened sb s i r s' := by
  obtain ⟨a, rfl, on, inum, rest⟩ := opened
  exact ⟨a, rfl, on, inum, looked.trans rest⟩

theorem Created.after {held : Nat → Nat} {t s' : FsState} {d used type major minor : Nat}
    {name : Bytes} {r : Option Nat} (looked : Looked sb idle held (fun _ => False) s t)
    (created : Created sb t d used name type major minor r s') :
    Created sb s d used name type major minor r s' := by
  unfold Created at created ⊢
  rw [looked.only.disk, looked.view] at created
  rcases created with ⟨rfl, none, back⟩ | ⟨rfl, i, w, found, retired, effect⟩ |
    ⟨a, i, rfl, found, on, inum, differ, free, low, high, effect⟩
  · exact Or.inl ⟨rfl, none, looked.trans back⟩
  · exact Or.inr (Or.inl ⟨rfl, i, w, found, retired, looked.then effect⟩)
  · exact Or.inr (Or.inr ⟨a, i, rfl, found, on, inum, differ, free, low, high, looked.then effect⟩)

theorem resolve_parent {tree : Nat → Node} : ∀ (fuel i : Nat) (path : Path) {d : Nat} {name : Bytes},
    resolve tree true fuel i path = some (d, name) → (tree d).type = T_DIR := by
  intro fuel
  induction fuel with
  | zero => intro i path d name found; cases found
  | succ fuel ih =>
      intro i path d name found
      simp only [resolve] at found
      cases elem : skipelem path with
      | none =>
          rw [elem] at found
          simp only [if_true] at found
          cases found
      | some pair =>
          obtain ⟨first, rest⟩ := pair
          simp only [elem, ne_eq, ite_not] at found
          by_cases dir : (tree i).type = T_DIR
          · rw [if_pos dir] at found
            by_cases last : True ∧ rest = []
            · rw [if_pos last] at found
              obtain ⟨rfl, -⟩ := Prod.mk.inj (Option.some.inj found)
              exact dir
            · rw [if_neg last] at found
              cases hit : (tree i).lookup first with
              | none => simp [hit] at found
              | some k =>
                  simp only [hit] at found
                  exact ih _ _ found
          · rw [if_neg dir] at found
            cases found

theorem lookup_dangling {tree : Nat → Node} {d k : Nat} {name : Bytes} (isDir : (tree d).type = T_DIR)
    (hit : (tree d).lookup name = some k) (none : (tree ((tree d).entInum k)).type = 0) :
    Dangling tree := by
  obtain ⟨inside, used, -⟩ := lookup_eq_some.mp hit
  simp only [Node.hit, Bool.and_eq_true, decide_eq_true_eq] at used
  exact Or.inr ⟨d, k, isDir, inside, used.1, none⟩

theorem create_spec (geo : Geometry sb) (inv : FsInv sb idle (fun _ => False) s) {cwd : Nat}
    (bound : cwd < NINODE) (used : 0 < uses s cwd) (path : Path) (type major minor : Nat)
    (small : type < 2 ^ 16) (kind : type ≠ 0) (smallMajor : major < 2 ^ 16)
    (smallMinor : minor < 2 ^ 16) :
    wp (create sb cwd path type major minor) (LookupStop (nodes sb s.disk))
      (CreateResult sb s cwd path type major minor) s := by
  simp only [create, nameiparent, wp_bind]
  apply wp_post (namex_spec geo inv (guarded_none idle s) bound used path true)
  unfold CreateResult
  intro r t arrived
  cases target : walk sb s cwd path true with
  | none =>
      simp only [Arrived, target] at arrived
      obtain ⟨rfl, looked⟩ := arrived
      exact ⟨rfl, looked⟩
  | some target' =>
      obtain ⟨d, name⟩ := target'
      simp only [Arrived, target] at arrived
      obtain ⟨live, dp, rfl, boundDp, inum, looked⟩ := arrived
      have isDir : (nodes sb s.disk d).type = T_DIR := resolve_parent _ _ _ target
      simp only [wp_bind]
      apply wp_mono (ilock_looked looked.inv boundDp (bump_pos idle dp) idle)
      rotate_left
      · rintro e (stop | ⟨stop, none⟩)
        · exact Or.inr (Or.inl stop)
        · rw [looked.only.disk, inum] at none
          exact Or.inr (Or.inr (Or.inr ⟨stop, live none⟩))
      rintro _ u ⟨locked, inum', valid, -⟩
      have whole := looked.trans locked
      have disk := whole.only.disk
      have parent := inum'.trans inum
      have on : OnDir sb u dp := by
        refine ⟨boundDp, whole.inv.table.ref_of_held boundDp (bump_pos idle dp), valid, ?_⟩
        rw [disk, parent]
        exact isDir
      apply wp_mono (dirlookup_spec geo whole.inv on name) _ (fun e stop => Or.inl stop.1)
      intro r w result
      simp only [Found, parent, disk] at result
      refine wp_mono ?_ (fun _ _ done => ⟨isDir, done⟩) (fun e stop => stop)
      cases hit : (nodes sb s.disk d).lookup name with
      | some k =>
          simp only [hit] at result
          obtain ⟨ip, rfl, got⟩ := result
          have more := whole.trans (got.looked (c := idle) whole.inv fun _ => Nat.zero_le _)
          have same : nodes sb w.disk = nodes sb s.disk := by rw [more.only.disk]
          have existing := createExisting_spec geo type got.inv boundDp got.bound (by
            rw [got.inum, same]
            exact lookup_dangling isDir hit)
          rw [got.inum, same] at existing
          apply wp_post existing
          intro r s' done
          split at done
          · rename_i file
            simp only [if_pos file]
            exact done.after more
          · rename_i other
            simp only [if_neg other]
            exact ⟨done.1, more.trans done.2⟩
      | none =>
          simp only [hit] at result
          obtain ⟨rfl, rfl⟩ := result
          apply wp_mono (createNew_spec geo whole.inv on name small kind smallMajor smallMinor)
          rotate_left
          · rintro e (stop | stop | stop)
            · exact Or.inl stop
            · exact Or.inr (Or.inl stop)
            · exact Or.inr (Or.inr (Or.inl stop))
          intro r s' created
          rw [parent, whole.only.uses] at created
          refine ⟨uses s dp, ?_, created.after whole⟩
          have visited : Effect sb idle (bump idle dp) (fun _ => False) [] 0 s (view sb s) w :=
            whole.effect
          rw [← parent]
          exact visited.unused_iff boundDp (bump_pos idle dp)

end Existing

end Xv6Fcfs.Fs
