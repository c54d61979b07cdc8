import Xv6Fcfs.Fs.Link

/-!
# `sys_unlink`
-/

set_option autoImplicit false

namespace Xv6Fcfs.Fs

open Xv6Fcfs.Lib

namespace View

/-- Entry `k` of directory `d`, of an inode of this type, is cleared. -/
def cut (v : View) (d k type : Nat) : View :=
  if type = T_DIR then
    (v.clear d k).setLinks d ((((v.clear d k).tree d).nlink + (2 ^ 16 - 1)) % 2 ^ 16)
  else v.clear d k

/-- Entry `k` of directory `d` is cleared and the counts are lowered. -/
def unlink (v : View) (d k : Nat) : View :=
  (v.cut d k (v.tree ((v.tree d).entInum k)).type).setLinks ((v.tree d).entInum k)
    (((v.tree ((v.tree d).entInum k)).nlink + (2 ^ 16 - 1)) % 2 ^ 16)

theorem cut_tree_of_ne {v : View} {d k type j : Nat} (differ : j ≠ d) :
    (v.cut d k type).tree j = v.tree j := by
  unfold cut
  split
  · simp only [setLinks, clear, setNode_tree, upd_of_ne differ]
  · simp only [clear, setNode_tree, upd_of_ne differ]

theorem drop_setLinks {v : View} {d i used nlink : Nat} (differ : d ≠ i) :
    (v.drop d used).setLinks i nlink = (v.setLinks i nlink).drop d used := by
  have same : ((v.setLinks i nlink).tree d).nlink = (v.tree d).nlink := by
    simp only [setLinks, setNode_tree, upd_of_ne differ]
  unfold drop
  rw [same]
  split
  · simp only [setLinks, setNode, upd_of_ne differ.symm]
    congr 1
    funext j
    by_cases atI : j = i
    · rw [atI, upd_self, upd_of_ne differ.symm, upd_self]
    · by_cases atD : j = d
      · rw [atD, upd_of_ne differ, upd_self, upd_self]
      · rw [upd_of_ne atI, upd_of_ne atD, upd_of_ne atD, upd_of_ne atI]
  · rfl

end View

section Tail
variable {sb : Superblock} {s : FsState} {dp ip d i k : Nat}

/-- The count of the unlinked inode is lowered and the reference given back. -/
theorem lower_spec (geo : Geometry sb) {t : FsState} {v : View} (on : On (bump idle ip) t ip)
    (inum : (t.itable ip).inum = i)
    (effect : Effect sb idle (bump idle ip) (fun _ => False) [d, i] 2 s v t) :
    wp (do
        changeInode sb ip fun d => { d with nlink := (d.nlink + (2 ^ 16 - 1)) % 2 ^ 16 }
        iunlockput sb ip)
      (fun e => e = .iunlock ∨ e = .deadlock)
      (fun _ u => Effect sb idle idle (fun _ => False) [d, i] 2 s
        ((v.setLinks i (((v.tree i).nlink + (2 ^ 16 - 1)) % 2 ^ 16)).drop i (uses s ip)) u) t := by
  have pos := effect.inv.table.ref_of_held on.bound on.holds
  rw [wp_bind]
  apply wp_mono (setLinks_spec (bump idle ip) geo effect.inv on.bound pos on.valid
    (fun n => (n + (2 ^ 16 - 1)) % 2 ^ 16) (fun n _ => Nat.mod_lt _ (by decide))) _
    (fun e no => no.elim)
  rintro _ u ⟨lowered, -⟩
  obtain ⟨on', inum'⟩ := on.after on.holds (Nat.le_refl _) lowered
  rw [inum, effect.view, effect.tree] at lowered
  have first := effect.and lowered (fun _ => Nat.zero_le _) (by simp)
  apply wp_post (iunlockput_release idle geo first.inv on.bound on'.valid rfl
    fun _ => Nat.zero_le _)
  intro _ w last
  rw [inum', inum, first.view, first.uses] at last
  have whole := first.and last (fun _ => Nat.le_refl _) (by simp)
  refine { whole with inv := whole.inv.settle ?_ }
  rintro j - ⟨(own | own), not⟩ - - -
  · exact own.elim
  · exact absurd own not

theorem clearEntry_spec (geo : Geometry sb) {t : FsState} {type : Nat}
    (inv : FsInv sb idle (fun _ => False) s)
    (onDp : On (bump (bump idle dp) ip) t dp) (onIp : On (bump (bump idle dp) ip) t ip)
    (parent : (t.itable dp).inum = d) (inum : (t.itable ip).inum = (nodes sb s.disk d).entInum k)
    (differ : d ≠ (nodes sb s.disk d).entInum k) (isDir : (nodes sb s.disk d).type = T_DIR)
    (inside : k < (nodes sb s.disk d).nents)
    (kind : type = (nodes sb s.disk ((nodes sb s.disk d).entInum k)).type)
    (looked : Looked sb idle (bump (bump idle dp) ip) (fun _ => False) s t) :
    wp (do
        let r ← onInode dp (writei sb (fun _ => some 0) (16 * k) 16)
        if r ≠ 16 then throw .unlinkWritei
        else
          if type = T_DIR then
            changeInode sb dp fun d => { d with nlink := (d.nlink + (2 ^ 16 - 1)) % 2 ^ 16 }
          iunlockput sb dp
          changeInode sb ip fun d => { d with nlink := (d.nlink + (2 ^ 16 - 1)) % 2 ^ 16 }
          iunlockput sb ip
          return (0 : Int))
      (fun e => e = .iunlock ∨ e = .deadlock)
      (fun r u => r = 0 ∧ ∃ usedD usedI, (usedD = 0 ↔ ¬ InUse s d) ∧
        (usedI = 0 ↔ ¬ InUse s ((nodes sb s.disk d).entInum k)) ∧
        Effect sb idle idle (fun _ => False) [d, (nodes sb s.disk d).entInum k] 2 s
          ((((view sb s).unlink d k).drop d usedD).drop ((nodes sb s.disk d).entInum k) usedI) u)
      t := by
  have disk : nodes sb t.disk = nodes sb s.disk := by rw [looked.only.disk]
  have whole : (nodes sb s.disk d).size = 16 * (nodes sb s.disk d).nents := by
    have even := (inv.disk.dirs d isDir).whole
    simp only [Node.nents]
    omega
  have pos := looked.inv.table.ref_of_held onDp.bound onDp.holds
  have zero : direntInum (fun _ => 0) < sb.ninodes := geo.positive
  rw [wp_bind]
  apply wp_mono (writeEntry_spec geo looked.inv onDp.bound pos onDp.valid
    (by rw [parent, disk]; exact isDir) (fun _ => 0) (k := k)
    (by rw [parent, disk, whole]; omega) zero) _ (fun e no => no.elim)
  rw [parent, disk]
  rintro r u (⟨rfl, altered⟩ | ⟨-, short, -⟩)
  rotate_left
  · omega
  have cleared : Effect sb (bump (bump idle dp) ip) _ _ [(t.itable dp).inum] 2 t _ u :=
    altered.effect
  obtain ⟨onDp₁, parent₁⟩ := onDp.after onDp.holds (Nat.le_refl _) cleared
  obtain ⟨onIp₁, inum₁⟩ := onIp.after onIp.holds (Nat.le_refl _) cleared
  rw [parent, looked.view] at cleared
  have first := looked.then (cleared.mono (l := [d, (nodes sb s.disk d).entInum k])
    (fun _ => Nat.zero_le _) (by simp) (Nat.le_refl 2))
  have usedD := first.unused_iff onDp.bound onDp.holds
  have usedI := first.unused_iff onIp.bound onIp.holds
  rw [parent₁, parent] at usedD
  rw [inum₁, inum] at usedI
  have leave := parentLinks_spec geo type (fun n => (n + (2 ^ 16 - 1)) % 2 ^ 16)
    (fun n => Nat.mod_lt _ (by decide)) onDp₁ onIp₁ (parent₁.trans parent) (inum₁.trans inum) differ
    first
  have finish := wp_post leave (P := fun _ w => wp (do
      changeInode sb ip fun d => { d with nlink := (d.nlink + (2 ^ 16 - 1)) % 2 ^ 16 }
      iunlockput sb ip) (fun e => e = .iunlock ∨ e = .deadlock)
      (fun _ x => (0 : Int) = 0 ∧ ∃ usedD usedI, (usedD = 0 ↔ ¬ InUse s d) ∧
        (usedI = 0 ↔ ¬ InUse s ((nodes sb s.disk d).entInum k)) ∧
        Effect sb idle idle (fun _ => False) [d, (nodes sb s.disk d).entInum k] 2 s
          ((((view sb s).unlink d k).drop d usedD).drop ((nodes sb s.disk d).entInum k) usedI) x)
      w) ?_
  · simp only [ne_eq, not_true_eq_false, if_false, wp_ite, wp_bind, wp_pure] at finish ⊢
    exact finish
  rintro _ w ⟨on, own, effect⟩
  have cut : Effect sb idle (bump idle ip) (fun _ => False) [d, (nodes sb s.disk d).entInum k] 2 s
      (((view sb s).cut d k type).drop d (uses s dp)) w := effect
  apply wp_post (lower_spec geo on own cut)
  intro _ x last
  refine ⟨rfl, uses s dp, uses s ip, usedD, usedI, ?_⟩
  rw [View.drop_tree_of_ne differ.symm, View.drop_setLinks differ, View.cut_tree_of_ne differ.symm,
    kind] at last
  exact last

end Tail

/-! ## The call -/

section Call
variable {sb : Superblock} {s : FsState} {dp ip d k : Nat}

/-- `sys_unlink` of entry `k` of directory `d`. -/
def EntryResult (sb : Superblock) (s : FsState) (d k : Nat) (r : Int) (s' : FsState) : Prop :=
  (nodes sb s.disk ((nodes sb s.disk d).entInum k)).type ≠ 0 ∧ d ≠ (nodes sb s.disk d).entInum k ∧
  ((r = -1 ∧ Looked sb idle idle (fun _ => False) s s') ∨
    (r = 0 ∧ 1 ≤ short (nodes sb s.disk ((nodes sb s.disk d).entInum k)).nlink ∧
      ((nodes sb s.disk ((nodes sb s.disk d).entInum k)).type = T_DIR →
        (nodes sb s.disk ((nodes sb s.disk d).entInum k)).Empty) ∧
      ∃ usedD usedI, (usedD = 0 ↔ ¬ InUse s d) ∧
        (usedI = 0 ↔ ¬ InUse s ((nodes sb s.disk d).entInum k)) ∧
        Effect sb idle idle (fun _ => False) [d, (nodes sb s.disk d).entInum k] 2 s
          ((((view sb s).unlink d k).drop d usedD).drop ((nodes sb s.disk d).entInum k) usedI) s'))

theorem unlinkEntry_spec (geo : Geometry sb) {t : FsState} {name : Bytes}
    (inv : FsInv sb idle (fun _ => False) s)
    (onDp : On (bump (bump idle dp) ip) t dp) (onIp : On (bump (bump idle dp) ip) t ip)
    (parent : (t.itable dp).inum = d) (inum : (t.itable ip).inum = (nodes sb s.disk d).entInum k)
    (apart : dp ≠ ip) (isDir : (nodes sb s.disk d).type = T_DIR)
    (found : (nodes sb s.disk d).lookup name = some k)
    (regular : ¬ (namecmp name dot ∨ namecmp name dotdot))
    (alloc : (nodes sb s.disk ((nodes sb s.disk d).entInum k)).type ≠ 0)
    (looked : Looked sb idle (bump (bump idle dp) ip) (fun _ => False) s t) :
    wp (unlinkEntry sb dp ip (16 * k)) (CallStop (nodes sb s.disk)) (EntryResult sb s d k) t := by
  have disk : nodes sb t.disk = nodes sb s.disk := by rw [looked.only.disk]
  have posD := looked.inv.table.ref_of_held onDp.bound onDp.holds
  have pos := looked.inv.table.ref_of_held onIp.bound onIp.holds
  have node : nodes sb s.disk ((nodes sb s.disk d).entInum k) = nodeOf (t.itable ip).din t.disk := by
    rw [← inum, ← disk]
    exact looked.inv.node onIp.bound pos onIp.valid
  have type : (t.itable ip).din.type =
      (nodes sb s.disk ((nodes sb s.disk d).entInum k)).type := by
    rw [node]
    rfl
  have links : (t.itable ip).din.nlink =
      (nodes sb s.disk ((nodes sb s.disk d).entInum k)).nlink := by
    rw [node]
    rfl
  have differ : d ≠ (nodes sb s.disk d).entInum k := by
    intro same
    apply apart
    apply looked.inv.table.unique dp ip onDp.bound onIp.bound posD pos
    rw [parent, inum, ← same]
  have inside := (lookup_eq_some.mp found).1
  simp only [unlinkEntry, wp_bind, wp_get, wp_throw, wp_ite, type, links]
  refine ⟨fun low => ?_, fun enough => ?_⟩
  · refine ⟨by decide, fun no => (by cases no), fun _ => ⟨d, name, k, isDir, found, ?_, ?_, low⟩⟩
    · simpa using fun yes => regular (Or.inl yes)
    · simpa using fun yes => regular (Or.inr yes)
  -- the tail, when the inode may go
  have finish : ((nodes sb s.disk ((nodes sb s.disk d).entInum k)).type = T_DIR →
      (nodes sb s.disk ((nodes sb s.disk d).entInum k)).Empty) → _ := fun empty =>
    wp_mono (clearEntry_spec geo inv onDp onIp parent inum differ isDir inside rfl looked)
      (P := EntryResult sb s d k) (F := CallStop (nodes sb s.disk))
      (fun r u done => ⟨alloc, differ, Or.inr ⟨done.1, by omega, empty, done.2⟩⟩)
      (by
        rintro e (rfl | rfl)
        · exact .other (by decide) (by decide) (by decide)
        · exact .other (by decide) (by decide) (by decide))
  -- and when it is a directory with entries
  have keep : wp (do iunlockput sb ip; iunlockput sb dp; return (-1 : Int))
      (CallStop (nodes sb s.disk)) (EntryResult sb s d k) t := by
    simp only [wp_bind, wp_pure]
    apply wp_mono (iunlockput_back geo looked.inv (guarded_none _ t) onIp.bound)
    rotate_left
    · rintro e rfl
      exact .other (by decide) (by decide) (by decide)
    intro _ u back
    apply wp_mono (iunlockput_back geo back.inv (guarded_none idle u) onDp.bound)
    rotate_left
    · rintro e rfl
      exact .other (by decide) (by decide) (by decide)
    intro _ w last
    have given : Looked sb idle (bump idle dp) (fun _ => False) t u :=
      back.mono fun _ => Nat.zero_le _
    exact ⟨alloc, differ, Or.inl ⟨rfl, (looked.trans given).trans last⟩⟩
  simp only [wp_bind, wp_pure] at keep
  refine ⟨fun dir => ?_, fun other => ?_⟩
  · have onDir : OnDir sb t ip := onIp.dir looked.inv (by rw [inum, disk]; exact dir)
    apply wp_mono (isdirempty_spec geo looked.inv onDir) _ (fun e no => no.elim)
    rintro r u ⟨rfl, empty⟩
    rw [inum, disk] at empty
    refine ⟨fun _ => keep, fun yes => ?_⟩
    have done := finish fun _ => empty.mp (by simpa using yes)
    simp only [wp_bind, wp_ite, wp_throw, wp_pure] at done
    exact done
  · have done := finish fun yes => absurd yes other
    simp only [wp_bind, wp_ite, wp_throw, wp_pure] at done
    exact ⟨fun no => (by cases no), fun _ => done⟩

def UnlinkResult (sb : Superblock) (s : FsState) (cwd : Nat) (path : Path) (r : Int)
    (s' : FsState) : Prop :=
  match walk sb s cwd path true with
  | none => r = -1 ∧ Looked sb idle idle (fun _ => False) s s'
  | some (d, name) => (nodes sb s.disk d).type = T_DIR ∧
      if namecmp name dot ∨ namecmp name dotdot then
        r = -1 ∧ Looked sb idle idle (fun _ => False) s s'
      else
        match (nodes sb s.disk d).lookup name with
        | none => r = -1 ∧ Looked sb idle idle (fun _ => False) s s'
        | some k => EntryResult sb s d k r s'

theorem sysUnlink_spec (geo : Geometry sb) (inv : FsInv sb idle (fun _ => False) s) {cwd : Nat}
    (bound : cwd < NINODE) (used : 0 < uses s cwd) (path : Path) :
    wp (sysUnlink sb cwd path) (CallStop (nodes sb s.disk)) (UnlinkResult sb s cwd path) s := by
  have unlocks : ∀ {dp : Nat} {t : FsState}, dp < NINODE →
      Looked sb idle (bump idle dp) (fun _ => False) s t →
      wp (do iunlockput sb dp; return (-1 : Int)) (CallStop (nodes sb s.disk))
        (fun r u => r = -1 ∧ Looked sb idle idle (fun _ => False) s u) t := by
    intro dp t boundDp looked
    simp only [wp_bind, wp_pure]
    apply wp_mono (iunlockput_back geo looked.inv (guarded_none idle t) boundDp)
    · intro _ u back
      exact ⟨trivial, looked.trans back⟩
    · rintro e rfl
      exact .other (by decide) (by decide) (by decide)
  simp only [sysUnlink, nameiparent, wp_bind]
  apply wp_mono (namex_spec geo inv (guarded_none idle s) bound used path true) _
    (fun e stop => stop.call)
  unfold UnlinkResult
  intro r t arrived
  cases target : walk sb s cwd path true with
  | none =>
      simp only [Arrived, target] at arrived
      obtain ⟨rfl, looked⟩ := arrived
      exact ⟨rfl, looked⟩
  | some target' =>
      obtain ⟨d, name⟩ := target'
      simp only [Arrived, target] at arrived
      obtain ⟨live, dp, rfl, boundDp, inum, looked⟩ := arrived
      have isDir : (nodes sb s.disk d).type = T_DIR := resolve_parent _ _ _ target
      have holds := bump_pos idle dp
      refine wp_mono ?_ (fun _ _ done => ⟨isDir, done⟩) (fun e stop => stop)
      simp only [wp_bind]
      apply wp_mono (wp_and (ilock_looked looked.inv boundDp holds idle)
        (wp_mono (ilock_spec looked.inv boundDp (looked.inv.table.ref_of_held boundDp holds))
          (fun _ _ done => done) (fun _ _ => trivial)))
      rotate_left
      · rintro e (rfl | ⟨-, none⟩)
        · exact .other (by decide) (by decide) (by decide)
        · rw [looked.only.disk, inum, isDir] at none
          exact absurd none (by decide)
      rintro _ u ⟨⟨locked, inum', valid, -⟩, lockedBit⟩
      have whole := looked.trans locked
      have disk := whole.only.disk
      have parent := inum'.trans inum
      have onDp : On (bump idle dp) u dp := ⟨boundDp, holds, valid⟩
      simp only [wp_ite]
      refine ⟨fun dots => ?_, fun regular => ?_⟩
      · simp only [if_pos dots]
        exact unlocks boundDp whole
      simp only [if_neg regular, wp_bind]
      have onDir : OnDir sb u dp := onDp.dir whole.inv (by rw [parent, disk]; exact isDir)
      apply wp_mono (dirlookup_spec geo whole.inv onDir name)
      rotate_left
      · rintro e ⟨rfl, -⟩
        exact .other (by decide) (by decide) (by decide)
      intro r w result
      simp only [Found, parent, disk] at result
      cases hit : (nodes sb s.disk d).lookup name with
      | none =>
          simp only [hit] at result
          obtain ⟨rfl, rfl⟩ := result
          exact unlocks boundDp whole
      | some k =>
          simp only [hit] at result
          obtain ⟨ip, rfl, got⟩ := result
          have gotten : Looked sb (bump idle dp) (bump (bump idle dp) ip) (fun _ => False) u w :=
            got.looked whole.inv fun _ => Nat.le_refl _
          have more := whole.trans (gotten.mono fun _ => Nat.zero_le _)
          have same : nodes sb w.disk = nodes sb s.disk := by rw [more.only.disk]
          obtain ⟨onDp', parent'⟩ := onDp.after onDp.holds (le_bump _ ip dp)
            (gotten.effect (l := []) (k := 0))
          have held := (got.kept dp onDir.pos).2.2.trans lockedBit.locked
          simp only [wp_bind]
          have holdsIp := bump_pos (bump idle dp) ip
          apply wp_mono (wp_and
            (ilock_looked got.inv got.bound holdsIp (bump (bump idle dp) ip))
            (wp_mono (ilock_spec got.inv got.bound (got.inv.table.ref_of_held got.bound holdsIp))
              (fun _ _ done => done) (fun _ _ => trivial)))
          rotate_left
          · rintro e (rfl | ⟨rfl, none⟩)
            · exact .other (by decide) (by decide) (by decide)
            · rw [same, got.inum] at none
              exact ⟨by decide, fun _ => lookup_dangling isDir hit none, fun no => by cases no⟩
          rintro _ x ⟨⟨lockedIp, inumIp, validIp, alloc⟩, lockedIpBit⟩
          -- `ip` was not locked before, the directory was
          have apart : dp ≠ ip := by
            rintro rfl
            rw [lockedIpBit.before] at held
            cases held
          rw [same, got.inum] at alloc
          obtain ⟨onDp'', parent''⟩ := onDp'.after onDp'.holds (Nat.le_refl _)
            (lockedIp.effect (l := []) (k := 0))
          exact unlinkEntry_spec geo inv onDp'' ⟨got.bound, holdsIp, validIp⟩
            (parent''.trans (parent'.trans parent)) (inumIp.trans got.inum) apart isDir hit regular
            alloc (more.trans (lockedIp.mono fun _ => Nat.zero_le _))

end Call

end Xv6Fcfs.Fs
