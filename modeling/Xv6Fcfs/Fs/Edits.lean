import Xv6Fcfs.Fs.Unlink
import Xv6Fcfs.Fs.Open

/-!
# What calls do to the tree

A call makes at most one change of names, an `Edit`, and besides this the tree drifts: the
contents of files change, and an inode without links that is not in use is freed.  An edit
tells the directory that gets an entry and the inode whose count is raised.
-/

set_option autoImplicit false

namespace Xv6Fcfs.Fs

open Xv6Fcfs.Lib

inductive Edit (sb : Superblock) (v : View) : Option Nat → Option Nat → View → Prop
  | same : Edit sb v none none v
  | retire {i : Nat} {w : View} (free : (v.tree i).type = 0) (retired : View.Retired v i w) :
      Edit sb v none none w
  | make {d i type : Nat} (name : Bytes) (major minor : Nat) (isDir : (v.tree d).type = T_DIR)
      (absent : (v.tree d).lookup name = none) (free : v.tree i = .free) (low : 1 ≤ i)
      (high : i < sb.ninodes) (differ : i ≠ d)
      (kind : type = T_DIR ∨ type = T_FILE ∨ type = T_DEVICE) :
      Edit sb v (some d) (if type = T_DIR then some d else none) (v.make d name i type major minor)
  | link {d i : Nat} (name : Bytes) (isDir : (v.tree d).type = T_DIR)
      (absent : (v.tree d).lookup name = none) (alloc : (v.tree i).type ≠ 0)
      (file : (v.tree i).type ≠ T_DIR) : Edit sb v (some d) (some i) (v.link d name i)
  | unlink {d k : Nat} (name : Bytes) (isDir : (v.tree d).type = T_DIR)
      (found : (v.tree d).lookup name = some k)
      (regular : ¬ (namecmp name dot ∨ namecmp name dotdot))
      (alloc : (v.tree ((v.tree d).entInum k)).type ≠ 0) (differ : d ≠ (v.tree d).entInum k)
      (links : 1 ≤ short (v.tree ((v.tree d).entInum k)).nlink)
      (empty : (v.tree ((v.tree d).entInum k)).type = T_DIR →
        (v.tree ((v.tree d).entInum k)).Empty) :
      Edit sb v none none (v.unlink d k)

inductive Drift (busy : Nat → Prop) : View → View → Prop
  | refl (v : View) : Drift busy v v
  | write {v w : View} (i size : Nat) (data : Bytes) (file : (v.tree i).type = T_FILE)
      (rest : Drift busy (v.setNode i { v.tree i with size := size, data := data }) w) :
      Drift busy v w
  | free {v w : View} (i : Nat) (none : (v.tree i).nlink = 0) (unused : ¬ busy i)
      (rest : Drift busy (v.setNode i .free) w) : Drift busy v w

namespace Drift
variable {busy busy' : Nat → Prop} {u v w : View}

theorem trans (first : Drift busy u v) (second : Drift busy v w) : Drift busy u w := by
  induction first with
  | refl => exact second
  | write i size data file _ ih => exact .write i size data file (ih second)
  | free i none unused _ ih => exact .free i none unused (ih second)

theorem mono (fewer : ∀ i, busy' i → busy i) (drift : Drift busy v w) : Drift busy' v w := by
  induction drift with
  | refl v => exact .refl v
  | write i size data file _ ih => exact .write i size data file ih
  | free i none unused _ ih => exact .free i none (fun still => unused (fewer i still)) ih

theorem drop (v : View) {i used : Nat} (unused : used = 0 → ¬ busy i) :
    Drift busy v (v.drop i used) := by
  unfold View.drop
  split
  · rename_i gone
    exact .free i gone.1 (unused gone.2) (.refl _)
  · exact .refl v

theorem truncated (v : View) (i omode : Nat) :
    Drift busy v (v.setNode i ((v.tree i).truncated omode)) := by
  unfold Node.truncated
  split
  · rename_i trunc
    exact .write i 0 (fun _ => 0) trunc.2 (.refl _)
  · rw [View.setNode_self]
    exact .refl v

theorem kinds (drift : Drift busy v w) (kinds : Kinds v.tree) : Kinds w.tree := by
  induction drift with
  | refl => exact kinds
  | @write v w i size data file _ ih =>
      apply ih
      apply kinds.retype
      intro j
      left
      by_cases here : j = i
      · rw [here, View.setNode_tree, upd_self]
      · rw [View.setNode_tree, upd_of_ne here]
  | @free v w i none unused _ ih =>
      apply ih
      apply kinds.retype
      intro j
      by_cases here : j = i
      · rw [here, View.setNode_tree, upd_self]
        exact Or.inr (Or.inl rfl)
      · rw [View.setNode_tree, upd_of_ne here]
        exact Or.inl rfl

end Drift

theorem View.cut_type (v : View) (d k type j : Nat) :
    ((v.cut d k type).tree j).type = (v.tree j).type := by
  have clear : ∀ j, ((v.clear d k).tree j).type = (v.tree j).type := by
    intro j
    rw [View.clear, View.setNode_tree]
    by_cases here : j = d
    · rw [here, upd_self]
      rfl
    · rw [upd_of_ne here]
  unfold View.cut
  split
  · rw [View.setLinks_type, clear]
  · rw [clear]

theorem Edit.kinds {sb : Superblock} {v w : View} {adds raises : Option Nat}
    (edit : Edit sb v adds raises w) (kinds : Kinds v.tree) : Kinds w.tree := by
  cases edit with
  | same => exact kinds
  | retire free retired =>
      rw [retired.tree]
      exact kinds
  | make name major minor isDir absent free low high differ kind =>
      apply kinds.retype
      intro j
      rw [View.make_type]
      split
      · exact Or.inr (Or.inr kind)
      · exact Or.inl rfl
  | link name isDir absent alloc file =>
      apply kinds.retype
      intro j
      rw [View.link, View.enter_type, View.setLinks_type]
      exact Or.inl rfl
  | unlink name isDir found regular alloc differ links empty =>
      apply kinds.retype
      intro j
      rw [View.unlink, View.setLinks_type, View.cut_type]
      exact Or.inl rfl

end Xv6Fcfs.Fs
