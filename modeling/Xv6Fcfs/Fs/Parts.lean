import Xv6Fcfs.Fs.Path

/-!
# The parts of the calls

`dirlink`, `isdirempty`, the changes of link counts and the `iput` that may free an inode,
each with its effect on the view.
-/

set_option autoImplicit false

namespace Xv6Fcfs.Fs

open Xv6Fcfs.Lib

/-- Some directory names, other than as `.` or `..`, an inode whose link count is not
positive as a `short`. -/
def Underlinked (tree : Nat → Node) : Prop :=
  ∃ d name k, (tree d).type = T_DIR ∧ (tree d).lookup name = some k ∧
    namecmp name dot = false ∧ namecmp name dotdot = false ∧
    short (tree ((tree d).entInum k)).nlink < 1

/-- How a call can stop: never in `bfree`, at an inode without a type only when some path
dangles, and at a link count only when one is too small. -/
structure CallStop (tree : Nat → Node) (e : Stop) : Prop where
  blocks : e ≠ .freeingFreeBlock
  types : e = .ilockNoType → Dangling tree
  links : e = .unlinkNlink → Underlinked tree

theorem CallStop.other {tree : Nat → Node} {e : Stop} (blocks : e ≠ .freeingFreeBlock)
    (types : e ≠ .ilockNoType) (links : e ≠ .unlinkNlink) : CallStop tree e :=
  ⟨blocks, fun no => absurd no types, fun no => absurd no links⟩

theorem LookupStop.call {tree : Nat → Node} {e : Stop} (stop : LookupStop tree e) :
    CallStop tree e := by
  rcases stop with rfl | rfl | rfl | ⟨rfl, dangling⟩
  · exact .other (by decide) (by decide) (by decide)
  · exact .other (by decide) (by decide) (by decide)
  · exact .other (by decide) (by decide) (by decide)
  · exact ⟨by decide, fun _ => dangling, fun no => by cases no⟩

/-- The entries behind `.` and `..` are free. -/
def Node.Empty (n : Node) : Prop := ∀ k, 2 ≤ k → k < n.nents → n.entInum k = 0

section OnDir
variable {sb : Superblock} {base held : Nat → Nat} {loose : Nat → Prop} {s s' : FsState} {dp : Nat}

theorem OnDir.effect {is : List Nat} {k : Nat} {v : View} (on : OnDir sb s dp)
    (effect : Effect sb base held loose is k s v s') (kept : 0 < uses s dp + base dp)
    (less : base dp ≤ held dp) (isDir : (v.tree (s.itable dp).inum).type = T_DIR) :
    OnDir sb s' dp ∧ (s'.itable dp).inum = (s.itable dp).inum := by
  have count := effect.inv.table.refs dp on.bound
  have uses := effect.uses dp
  obtain ⟨inum, valid⟩ := effect.stays dp on.bound kept
  refine ⟨⟨on.bound, by omega, valid on.valid, ?_⟩, inum⟩
  rw [effect.tree, inum]
  exact isDir

theorem OnDir.kept (on : OnDir sb s dp) (inv : FsInv sb held loose s) : 0 < uses s dp + held dp := by
  have pos := on.pos
  rw [inv.table.refs dp on.bound] at pos
  exact pos

end OnDir

section Parts
variable {sb : Superblock} {base held : Nat → Nat} {loose : Nat → Prop} {s : FsState} {a dp : Nat}

theorem isdiremptyLoop_spec (geo : Geometry sb) (inv : FsInv sb held loose s) (on : OnDir sb s dp) :
    ∀ (fuel k : Nat), (nodes sb s.disk (s.itable dp).inum).nents < k + fuel →
    (∀ j, 2 ≤ j → j < k → j < (nodes sb s.disk (s.itable dp).inum).nents →
      (nodes sb s.disk (s.itable dp).inum).entInum j = 0) → 2 ≤ k →
    wp (isdiremptyLoop sb dp fuel (16 * k)) (fun _ => False)
      (fun r s' => s' = s ∧ (r = true ↔ (nodes sb s.disk (s.itable dp).inum).Empty)) s := by
  have whole := on.whole inv
  have size := on.size inv
  intro fuel
  induction fuel with
  | zero =>
      intro k enough before _
      refine ⟨rfl, fun _ => ?_, fun _ => rfl⟩
      intro j low high
      exact before j low (by omega) high
  | succ fuel ih =>
      intro k enough before low
      simp only [isdiremptyLoop, wp_bind, wp_get, wp_ite, wp_pure, wp_throw]
      rw [size, whole]
      refine ⟨fun inside => ?_, fun done => ?_⟩
      · have within : k < (nodes sb s.disk (s.itable dp).inum).nents := by omega
        apply wp_post (readEntry_spec geo inv on.bound on.pos on.valid (k := k) (by omega))
        rintro ⟨r, de⟩ s' ⟨rfl, count, inum, -⟩
        simp only at count inum
        rw [inum]
        refine ⟨fun bad => absurd count bad, fun _ => ⟨fun used => ⟨rfl, ?_⟩, fun free => ?_⟩⟩
        · constructor
          · intro no
            cases no
          · intro empty
            exact absurd (empty k low within) used
        · have next := ih (k + 1) (by omega) ?_ (by omega)
          · rw [Nat.mul_succ] at next
            exact next
          · intro j from' near high
            by_cases last : j = k
            · rw [last]
              exact not_not.mp free
            · exact before j from' (by omega) high
      · refine ⟨trivial, fun _ => ?_, fun _ => trivial⟩
        intro j from' high
        exact before j from' (by omega) high

theorem isdirempty_spec (geo : Geometry sb) (inv : FsInv sb held loose s) (on : OnDir sb s dp) :
    wp (isdirempty sb dp) (fun _ => False)
      (fun r s' => s' = s ∧ (r = true ↔ (nodes sb s.disk (s.itable dp).inum).Empty)) s := by
  simp only [isdirempty, wp_bind, wp_get]
  rw [on.size inv]
  apply isdiremptyLoop_spec geo inv on _ 2
  · simp only [Node.nents]
    omega
  · intro j low high
    omega
  · exact Nat.le_refl 2

theorem dirlink_spec (geo : Geometry sb) (inv : FsInv sb held loose s) (guard : Guarded held loose s)
    (on : OnDir sb s dp) (name : Bytes) (inum : Nat) (range : inum % 2 ^ 16 < sb.ninodes) :
    wp (dirlink sb dp name inum) (fun e => e = .igetNoInodes ∧ TableFull s)
      (fun r s' =>
        (r = true ∧ (nodes sb s.disk (s.itable dp).inum).lookup name = none ∧
          Effect sb held held loose [(s.itable dp).inum] 2 s
            ((view sb s).enter (s.itable dp).inum name inum) s') ∨
        (r = false ∧ Effect sb held held loose [(s.itable dp).inum] 2 s (view sb s) s')) s := by
  simp only [dirlink, wp_bind]
  apply wp_post (dirlookup_spec geo inv on name)
  intro r t found
  cases hit : (nodes sb s.disk (s.itable dp).inum).lookup name with
  | some k =>
      simp only [Found, hit] at found
      obtain ⟨b, rfl, got⟩ := found
      have looked : Looked sb held (bump held b) loose s t := got.looked inv fun _ => Nat.le_refl _
      simp only [wp_bind, wp_pure]
      apply wp_mono (iput_back geo got.inv (guard.stays looked.stays) got.bound held) _
        (fun e stop => stop.elim)
      intro _ u back
      exact Or.inr ⟨trivial, (looked.trans back).effect⟩
  | none =>
      simp only [Found, hit] at found
      obtain ⟨rfl, rfl⟩ := found
      simp only [wp_bind, wp_get]
      have empty := emptyDirent_spec geo inv on ((t.itable dp).din.size / 16 + 1) 0 (by
        rw [on.size inv]
        simp only [Node.nents]
        omega) (Nat.zero_le _) (fun j bound => by omega)
      apply wp_mono empty _ (fun e no => no.elim)
      rintro off u ⟨rfl, rfl⟩
      have start : 16 * (nodes sb u.disk (u.itable dp).inum).firstFree ≤
          (nodes sb u.disk (u.itable dp).inum).size := by
        have most := firstFree_le (nodes sb u.disk (u.itable dp).inum)
        have whole := on.whole inv
        omega
      apply wp_mono (writeEntry_spec geo inv on.bound on.pos on.valid on.isDir (mkDirent inum name)
        start (by rw [direntInum_mkDirent]; exact range)) _ (fun e no => no.elim)
      rintro r w (⟨rfl, altered⟩ | ⟨short, -, altered⟩)
      · simp only [wp_ite, wp_bind, wp_modify, wp_pure]
        refine ⟨fun bad => absurd rfl bad, fun _ => Or.inl ⟨trivial, trivial, ?_⟩⟩
        have effect : Effect sb held held loose [(u.itable dp).inum] 2 u _ w := altered.effect
        have same : (w.itable dp).inum = (u.itable dp).inum := (altered.kept dp).1
        refine ⟨⟨effect.inv.disk, ⟨effect.inv.table.unique, effect.inv.table.inums,
          effect.inv.table.cached, effect.inv.table.live, effect.inv.table.orphan,
          effect.inv.table.refs⟩, ⟨effect.inv.files.closed, effect.inv.files.opened,
          effect.inv.files.writes, effect.inv.files.procs⟩, effect.inv.logs⟩, ?_, effect.ftable,
          effect.proc, effect.journal, effect.logs, effect.stays⟩
        refine View.ext altered.nodes altered.gen ?_
        simp only [view, noteEntry, View.enter, same, altered.gen, altered.stamp]
      · simp only [wp_ite, wp_pure]
        refine ⟨fun _ => Or.inr ⟨trivial, ?_⟩, fun full => absurd short full⟩
        have effect : Effect sb held held loose [(u.itable dp).inum] 2 u _ w := altered.effect
        have self : (view sb u).setNode (u.itable dp).inum
            (nodes sb u.disk (u.itable dp).inum) = view sb u := View.setNode_self (view sb u) _
        rw [self] at effect
        exact effect

/-- What `iput` leaves when it frees the inode and when it does not. -/
def Dropped (sb : Superblock) (base held : Nat → Nat) (loose : Nat → Prop) (s : FsState) (a : Nat)
    (s' : FsState) : Prop :=
  (lastRef s a ∧ Effect sb base held loose [(s.itable a).inum] 0 s
    ((view sb s).setNode (s.itable a).inum .free) s') ∨
  (¬ lastRef s a ∧ Looked sb base held loose s s')

theorem iput_dropped (geo : Geometry sb) (inv : FsInv sb (bump held a) loose s)
    (bound : a < NINODE) (less : ∀ b, base b ≤ held b) :
    wp (iput sb a) (fun e => e = .deadlock) (fun _ s' => Dropped sb base held loose s a s') s := by
  apply wp_mono (iput_spec geo inv bound (bump_pos held a)) _ (fun e stop => stop.1)
  intro _ s' put
  have back := put.inv
  rw [upd_back] at back
  by_cases last : lastRef s a
  · refine Or.inl ⟨last, back, View.ext (put.nodes last) put.gen put.stamp, put.ftable, put.proc,
      put.journal, put.logs, ?_⟩
    intro b index kept
    have differ : b ≠ a := by
      rintro rfl
      have count := inv.table.refs b index
      have one := last.1
      have fewer := less b
      simp only [upd_self] at count
      omega
    exact ⟨(put.kept b (Or.inl differ)).1, (put.kept b (Or.inl differ)).2.1⟩
  · refine Or.inr ⟨last, back, ?_, ?_⟩
    · exact FsState.ext (put.disk last) (put.log last) put.journal rfl put.ftable put.proc put.gen
        put.stamp
    · intro b index _
      exact ⟨(put.kept b (Or.inr last)).1, (put.kept b (Or.inr last)).2.1⟩

/-- What the last reference to an inode without links leaves: nothing. -/
def View.drop (v : View) (i used : Nat) : View :=
  if (v.tree i).nlink = 0 ∧ used = 0 then v.setNode i .free else v

theorem iput_release (base : Nat → Nat) (geo : Geometry sb) (inv : FsInv sb (bump held a) loose s)
    (bound : a < NINODE)
    (valid : (nodes sb s.disk (s.itable a).inum).nlink = 0 → (s.itable a).valid = true)
    (only : held a = 0) (less : ∀ b, base b ≤ held b) :
    wp (iput sb a) (fun e => e = .deadlock)
      (fun _ s' => Effect sb base held (fun i => loose i ∧ i ≠ (s.itable a).inum)
        [(s.itable a).inum] 0 s ((view sb s).drop (s.itable a).inum (uses s a)) s') s := by
  have count := inv.table.refs a bound
  simp only [upd_self, only] at count
  have links : (s.itable a).valid = true →
      (nodes sb s.disk (s.itable a).inum).nlink = (s.itable a).din.nlink := by
    intro read
    rw [inv.node bound (by omega) read]
    rfl
  have last : lastRef s a ↔
      (nodes sb s.disk (s.itable a).inum).nlink = 0 ∧ uses s a = 0 := by
    constructor
    · rintro ⟨one, read, zero⟩
      exact ⟨(links read).trans zero, by omega⟩
    · rintro ⟨zero, unused⟩
      have read := valid zero
      exact ⟨by omega, read, (links read).symm.trans zero⟩
  apply wp_post (iput_dropped geo inv bound less)
  rintro _ s' (⟨freed, effect⟩ | ⟨kept, looked⟩)
  · have dropped : (view sb s).drop (s.itable a).inum (uses s a) =
        (view sb s).setNode (s.itable a).inum .free := if_pos (last.mp freed)
    rw [dropped]
    refine { effect with inv := effect.inv.settle ?_ }
    intro i _ strict own alloc _
    obtain rfl : i = (s.itable a).inum := by
      by_contra differ
      exact own ⟨strict, differ⟩
    rw [effect.tree] at alloc
    simp only [View.setNode, upd_self] at alloc
    exact absurd rfl alloc
  · have same : (view sb s).drop (s.itable a).inum (uses s a) = view sb s :=
      if_neg fun both => kept (last.mpr both)
    rw [same]
    have effect : Effect sb base held loose [(s.itable a).inum] 0 s (view sb s) s' := looked.effect
    refine { effect with inv := effect.inv.settle ?_ }
    intro i _ strict own _ zero
    obtain rfl : i = (s.itable a).inum := by
      by_contra differ
      exact own ⟨strict, differ⟩
    rw [looked.only.disk] at zero
    have used : uses s a ≠ 0 := fun none => kept (last.mpr ⟨zero, none⟩)
    obtain ⟨inum, still⟩ := looked.stays a bound (by omega)
    refine ⟨a, bound, inum, still (valid zero), ?_⟩
    rw [looked.inv.table.refs a bound, looked.only.uses, only]
    omega

theorem iunlockput_release (base : Nat → Nat) (geo : Geometry sb) (inv : FsInv sb (bump held a) loose s)
    (bound : a < NINODE) (valid : (s.itable a).valid = true) (only : held a = 0)
    (less : ∀ b, base b ≤ held b) :
    wp (iunlockput sb a) (fun e => e = .iunlock ∨ e = .deadlock)
      (fun _ s' => Effect sb base held (fun i => loose i ∧ i ≠ (s.itable a).inum)
        [(s.itable a).inum] 0 s ((view sb s).drop (s.itable a).inum (uses s a)) s') s := by
  unfold iunlockput
  rw [wp_bind]
  apply wp_mono (iunlock_looked inv bound base) _ (fun e stop => Or.inl stop)
  rintro _ t ⟨unlocked, inum, still⟩
  apply wp_mono (iput_release base geo unlocked.inv bound (fun _ => still.trans valid) only less) _
    (fun e stop => Or.inr stop)
  intro _ s' effect
  rw [inum, unlocked.view, unlocked.only.uses] at effect
  exact unlocked.then effect

def InUse (s : FsState) (i : Nat) : Prop :=
  ∃ b, b < NINODE ∧ (s.itable b).inum = i ∧ 0 < uses s b

/-- An entry that the call holds has no other reference iff its inode was not in use. -/
theorem Effect.unused_iff {is : List Nat} {k : Nat} {v : View} {t : FsState}
    (effect : Effect sb base held loose is k s v t) (bound : a < NINODE) (holds : 0 < held a) :
    Fs.uses s a = 0 ↔ ¬ InUse s (t.itable a).inum := by
  constructor
  · rintro unused ⟨b, index, inum, used⟩
    have posA := effect.inv.table.ref_of_held bound holds
    have posB : 0 < (t.itable b).ref := by
      rw [effect.inv.table.refs b index, effect.uses]
      omega
    obtain rfl := effect.inv.table.unique b a index bound posB posA
      ((effect.stays b index (by omega)).1.trans inum)
    omega
  · intro none
    by_contra some
    have used : 0 < Fs.uses s a := Nat.pos_of_ne_zero some
    exact none ⟨a, bound, (effect.stays a bound (by omega)).1.symm, used⟩

theorem Fresh.effect {type i : Nat} {s' : FsState} (fresh : Fresh sb held loose s type a i s')
    (inv : FsInv sb held loose s) (less : ∀ b, base b ≤ held b) :
    Effect sb base (bump held a) (fun j => loose j ∨ j = i) [i] 0 s ((view sb s).alloc i type) s' where
  inv := fresh.inv
  view := View.ext fresh.tree fresh.gen fresh.stamp
  ftable := fresh.ftable
  proc := fresh.proc
  journal := fresh.journal
  logs := fresh.logs
  stays := by
    intro b bound kept
    have fewer := less b
    have pos : 0 < (s.itable b).ref := by
      rw [inv.table.refs b bound]
      omega
    exact ⟨(fresh.kept b pos).1, (fresh.kept b pos).2.1⟩

theorem Fresh.unused {type i : Nat} {s' : FsState} (fresh : Fresh sb held loose s type a i s')
    (inv : FsInv sb held loose s) : uses s a = 0 := by
  by_contra some
  have more := inv.table.ref_of_uses fresh.bound (Nat.pos_of_ne_zero some)
  have alloc := inv.table.live a fresh.bound more
  rw [← (fresh.kept a (by omega)).1, fresh.inum, ← nodes_type fresh.high, fresh.free] at alloc
  exact alloc rfl

theorem setLinks_spec (base : Nat → Nat) (geo : Geometry sb) (inv : FsInv sb held loose s)
    (bound : a < NINODE)
    (pos : 0 < (s.itable a).ref) (valid : (s.itable a).valid = true) (g : Nat → Nat)
    (small : ∀ v, v < 2 ^ 16 → g v < 2 ^ 16) :
    wp (changeInode sb a fun d => { d with nlink := g d.nlink }) (fun _ => False)
      (fun _ s' => Effect sb base held (fun i => loose i ∨ i = (s.itable a).inum)
        [(s.itable a).inum] 0 s ((view sb s).setLinks (s.itable a).inum
          (g (nodes sb s.disk (s.itable a).inum).nlink)) s' ∧ ∀ b, Kept s s' b) s := by
  apply wp_post (changeInode_spec geo inv bound pos valid (Mild.of_nlink g small))
  rintro _ s' ⟨-, altered⟩
  have node := inv.node bound pos valid
  refine ⟨?_, altered.kept⟩
  have same : ({ nodes sb s.disk (s.itable a).inum with
      major := (s.itable a).din.major, minor := (s.itable a).din.minor,
      nlink := g (s.itable a).din.nlink } : Node) =
      { nodes sb s.disk (s.itable a).inum with
        nlink := g (nodes sb s.disk (s.itable a).inum).nlink } := by
    rw [node]
    rfl
  have effect : Effect sb base held (fun i => loose i ∨ i = (s.itable a).inum)
    [(s.itable a).inum] 0 s _ s' := altered.effect
  simp only [same] at effect
  exact effect

end Parts

end Xv6Fcfs.Fs
