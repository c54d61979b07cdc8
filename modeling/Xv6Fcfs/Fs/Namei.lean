import Mathlib.Data.List.TakeWhile
import Xv6Fcfs.Fs.Path
import Xv6Fcfs.Fs.Reach

/-!
# Path resolution

A path is the list of its elements, the runs of characters between slashes, each cut to
`DIRSIZ` bytes.  `namei` and `nameiparent` follow that list from directory to directory and
leave the inode table as it was but for the reference that they return.  They come back if
nothing is locked and two entries of the table are free.
-/

set_option autoImplicit false

namespace Xv6Fcfs.Fs

open Xv6Fcfs.Lib

/-! ## Elements -/

def runs (path : Path) : List Path := (path.splitOn slash).filter (· ≠ [])

/-- An element as `skipelem` copies it. -/
def element (run : Path) : Bytes := charName (run.take DIRSIZ)

def elements (path : Path) : List Bytes := (runs path).map element

section Runs
variable {path front back : Path}

theorem dropWhile_head {p : UInt8 → Bool} {c : UInt8} {cs : Path} (drop : path.dropWhile p = c :: cs) :
    p c = false := by
  have first := List.head?_dropWhile_not p path
  rw [drop] at first
  simpa using first

theorem runs_slash (path : Path) : runs (slash :: path) = runs path := by
  unfold runs
  rw [List.splitOn_eq_splitOnP, List.splitOn_eq_splitOnP]
  have split := @List.splitOnP_append_cons_of_forall_mem UInt8 (· == slash) []
    (fun _ no => absurd no List.not_mem_nil) slash (by decide) path
  rw [List.nil_append] at split
  rw [split, List.filter_cons_of_neg (by simp)]

theorem runs_dropWhile (path : Path) : runs (path.dropWhile (· == slash)) = runs path := by
  induction path with
  | nil => rfl
  | cons c path ih =>
      by_cases here : c = slash
      · subst here
        rw [List.dropWhile_cons_of_pos (by simp), ih, runs_slash]
      · rw [List.dropWhile_cons_of_neg (by simpa using here)]

theorem runs_element (some : front ≠ []) (plain : ∀ c ∈ front, (c == slash) = false)
    (ends : back = [] ∨ ∃ rest, back = slash :: rest) : runs (front ++ back) = front :: runs back := by
  have empty : runs [] = [] := rfl
  rcases ends with rfl | ⟨rest, rfl⟩
  · rw [List.append_nil, empty, runs, List.splitOn_eq_splitOnP, List.splitOnP_eq_singleton plain,
      List.filter_cons_of_pos (by simpa using some)]
    rfl
  · rw [runs_slash]
    unfold runs
    rw [List.splitOn_eq_splitOnP, List.splitOn_eq_splitOnP,
      List.splitOnP_append_cons_of_forall_mem plain slash (by decide) rest,
      List.filter_cons_of_pos (by simpa using some)]

theorem elements_skipelem (path : Path) : elements path = match skipelem path with
    | none => []
    | some (name, rest) => name :: elements rest := by
  rw [elements, ← runs_dropWhile path, skipelem]
  cases lead : path.dropWhile (· == slash) with
  | nil => rfl
  | cons c cs =>
      have head : (c == slash) = false := dropWhile_head (p := (· == slash)) lead
      have first : (c :: cs).takeWhile (· != slash) ≠ [] := by
        rw [List.takeWhile_cons_of_pos (by simp [bne, head])]
        exact List.cons_ne_nil _ _
      have plain : ∀ d ∈ (c :: cs).takeWhile (· != slash), (d == slash) = false := by
        intro d inside
        have other : (d != slash) = true := List.mem_takeWhile_imp (p := (· != slash)) inside
        simpa only [bne, Bool.not_eq_true'] using other
      have ends : (c :: cs).dropWhile (· != slash) = [] ∨
          ∃ rest, (c :: cs).dropWhile (· != slash) = slash :: rest := by
        cases tail : (c :: cs).dropWhile (· != slash) with
        | nil => exact Or.inl rfl
        | cons d ds =>
            have same : (d != slash) = false := dropWhile_head (p := (· != slash)) tail
            simp only [bne, Bool.not_eq_false', beq_iff_eq] at same
            exact Or.inr ⟨ds, by rw [same]⟩
      have cut := runs_element first plain ends
      rw [List.takeWhile_append_dropWhile] at cut
      simp only
      rw [cut, elements, runs_dropWhile]
      rfl

theorem elements_nil (path : Path) : elements path = [] ↔ skipelem path = none := by
  rw [elements_skipelem]
  cases skipelem path with
  | none => exact iff_of_true rfl rfl
  | some found => exact iff_of_false (List.cons_ne_nil _ _) (by rintro ⟨⟩)

theorem skipelem_rest {name : Bytes} {rest : Path} (found : skipelem path = some (name, rest)) :
    rest = [] ↔ elements rest = [] := by
  have lead : ∃ l : Path, rest = l.dropWhile (· == slash) := by
    unfold skipelem at found
    split at found
    · cases found
    · exact ⟨_, (Prod.mk.inj (Option.some.inj found)).2.symm⟩
  constructor
  · rintro rfl
    rfl
  · intro none
    obtain ⟨l, same⟩ := lead
    rw [elements_nil, skipelem] at none
    cases rest with
    | nil => rfl
    | cons c cs =>
        have head : (c == slash) = false := dropWhile_head (p := (· == slash)) same.symm
        rw [List.dropWhile_cons_of_neg (by simpa using head)] at none
        cases none

end Runs

/-! ## Following the elements -/

/-- One step by `dirlookup`. -/
def descend (tree : Nat → Node) (i : Nat) (name : Bytes) : Option Nat :=
  if (tree i).type ≠ T_DIR then none else ((tree i).lookup name).map (tree i).entInum

def follow (tree : Nat → Node) (i : Nat) (names : List Bytes) : Option Nat :=
  names.foldlM (descend tree) i

def followParent (tree : Nat → Node) (i : Nat) (names : List Bytes) : Option (Nat × Bytes) := do
  let name ← names.getLast?
  let d ← follow tree i names.dropLast
  if (tree d).type ≠ T_DIR then none else some (d, name)

section Follow
variable {tree : Nat → Node}

theorem follow_cons (i : Nat) (name : Bytes) (names : List Bytes) :
    follow tree i (name :: names) = (descend tree i name).bind fun j => follow tree j names := rfl

theorem followParent_cons (i : Nat) (name : Bytes) {names : List Bytes} (more : names ≠ []) :
    followParent tree i (name :: names) = (descend tree i name).bind fun j =>
      followParent tree j names := by
  obtain ⟨second, rest, rfl⟩ := List.exists_cons_of_ne_nil more
  simp only [followParent, List.getLast?_cons_cons, List.dropLast_cons_cons, follow_cons, bind]
  cases (second :: rest).getLast? with
  | none =>
      cases descend tree i name with
      | none => rfl
      | some j => rfl
  | some last => exact Option.bind_assoc _ _ _

theorem resolve_follow : ∀ (fuel i : Nat) (path : Path), path.length < fuel →
    (resolve tree false fuel i path).map Prod.fst = follow tree i (elements path) ∧
    resolve tree true fuel i path = followParent tree i (elements path) := by
  intro fuel
  induction fuel with
  | zero => intro i path enough; omega
  | succ fuel ih =>
      intro i path enough
      rw [elements_skipelem]
      simp only [resolve]
      cases elem : skipelem path with
      | none => exact ⟨rfl, rfl⟩
      | some found =>
          obtain ⟨name, rest⟩ := found
          have shorter := skipelem_shorter elem
          have last := skipelem_rest elem
          simp only [follow_cons, descend, Bool.false_eq_true, false_and, if_false, true_and]
          by_cases dir : (tree i).type ≠ T_DIR
          · simp only [if_pos dir]
            refine ⟨rfl, ?_⟩
            by_cases only : elements rest = []
            · rw [only]
              simp only [followParent, List.getLast?_singleton, List.dropLast_singleton, follow,
                List.foldlM_nil, bind, Option.bind, pure, if_pos dir]
            · rw [followParent_cons i name only, descend, if_pos dir]
              rfl
          · simp only [if_neg dir]
            refine ⟨?_, ?_⟩
            · cases (tree i).lookup name with
              | none => rfl
              | some k => exact (ih _ rest (by omega)).1
            · by_cases only : rest = []
              · rw [if_pos only, last.mp only]
                simp only [followParent, List.getLast?_singleton, List.dropLast_singleton, follow,
                  List.foldlM_nil, bind, Option.bind, pure, if_neg dir]
              · rw [if_neg only, followParent_cons i name fun none => only (last.mpr none), descend,
                  if_neg dir]
                cases (tree i).lookup name with
                | none => rfl
                | some k => exact (ih _ rest (by omega)).2

theorem follow_parent (i : Nat) : ∀ (names : List Bytes), names ≠ [] →
    follow tree i names = (followParent tree i names).bind fun r => descend tree r.1 r.2 := by
  intro names
  induction names generalizing i with
  | nil => exact fun no => absurd rfl no
  | cons name names ih =>
      intro _
      rw [follow_cons]
      by_cases only : names = []
      · subst only
        simp only [followParent, List.getLast?_singleton, List.dropLast_singleton, follow,
          List.foldlM_nil, bind, Option.bind, pure, descend]
        by_cases dir : (tree i).type ≠ T_DIR
        · simp only [if_pos dir]
        · simp only [if_neg dir]
          cases (tree i).lookup name <;> rfl
      · rw [followParent_cons i name only]
        cases descend tree i name with
        | none => rfl
        | some j => exact ih j only

/-- There is no inode at the end exactly if some step meets a file or a name that is not there. -/
theorem follow_none : ∀ (names : List Bytes) (i : Nat), follow tree i names = none ↔
    ∃ front name back j, names = front ++ name :: back ∧ follow tree i front = some j ∧
      ((tree j).type ≠ T_DIR ∨ (tree j).lookup name = none) := by
  intro names
  induction names with
  | nil =>
      intro i
      refine iff_of_false (by rintro ⟨⟩) ?_
      rintro ⟨front, name, back, -, no, -⟩
      cases front <;> cases no
  | cons name names ih =>
      intro i
      rw [follow_cons]
      constructor
      · intro none
        cases step : descend tree i name with
        | none =>
            refine ⟨[], name, names, i, rfl, rfl, ?_⟩
            rw [descend] at step
            split at step
            next file => exact Or.inl file
            next => exact Or.inr (Option.map_eq_none_iff.mp step)
        | some j =>
            rw [step, Option.bind_some] at none
            obtain ⟨front, name', back, k, rfl, reach, stuck⟩ := (ih j).mp none
            exact ⟨name :: front, name', back, k, rfl, by rw [follow_cons, step]; exact reach, stuck⟩
      · rintro ⟨front, name', back, k, split, reach, stuck⟩
        cases front with
        | nil =>
            obtain ⟨rfl, rfl⟩ := List.cons.inj split
            obtain rfl := Option.some.inj reach
            have step : descend tree i name = none := by
              rw [descend]
              rcases stuck with file | missing
              · rw [if_pos file]
              · rw [missing, Option.map_none, ite_self]
            rw [step]
            rfl
        | cons first front =>
            obtain ⟨rfl, rfl⟩ := List.cons.inj split
            rw [follow_cons] at reach
            cases step : descend tree i name with
            | none => rfl
            | some j =>
                rw [step] at reach
                exact (ih j).mpr ⟨front, name', back, k, rfl, reach, stuck⟩

end Follow

/-! ## Locks -/

def lockOf (s : FsState) (b : Nat) : Bool := (s.itable b).locked

theorem setInode_lockOf (s : FsState) {a : Nat} {e : Inode} (same : e.locked = (s.itable a).locked) :
    lockOf (setInode a e s) = lockOf s := by
  funext b
  by_cases here : b = a
  · simp only [lockOf, setInode, here, upd_self, same]
  · simp only [lockOf, setInode, upd_of_ne here]

def KeepsLocks {α : Type} (m : FsM α) : Prop :=
  ∀ s, wp m (fun _ => True) (fun _ s' => lockOf s' = lockOf s) s

namespace KeepsLocks
variable {α β : Type} {m m' : FsM α}

theorem bind {f : α → FsM β} (first : KeepsLocks m) (rest : ∀ a, KeepsLocks (f a)) :
    KeepsLocks (m >>= f) := by
  intro s
  refine wp_seq (first s) fun a t same => ?_
  rw [← same]
  exact rest a t

theorem ite {c : Prop} [Decidable c] (yes : KeepsLocks m) (no : KeepsLocks m') :
    KeepsLocks (if c then m else m') := by
  intro s
  rw [wp_ite]
  exact ⟨fun _ => yes s, fun _ => no s⟩

theorem pure (a : α) : KeepsLocks (Pure.pure a : FsM α) := fun _ => rfl

theorem throw (e : Stop) : KeepsLocks (MonadExcept.throw e : FsM α) := fun _ => trivial

theorem get : KeepsLocks (MonadState.get : FsM FsState) := fun _ => rfl

theorem onInode (a : Nat) (m : InodeM α) : KeepsLocks (Fs.onInode a m) := by
  intro s
  rw [onInode_wp]
  exact wp_intro (fun _ _ _ => setInode_lockOf s rfl) fun _ _ => trivial

end KeepsLocks

theorem iget_locks (inum : Nat) : KeepsLocks (iget inum) := by
  intro s
  simp only [iget, wp_bind, wp_get]
  split
  · exact setInode_lockOf s rfl
  · exact setInode_lockOf s rfl
  · trivial

theorem dirlookup_locks (sb : Superblock) (dp : Nat) (name : Bytes) :
    KeepsLocks (dirlookup sb dp name) := by
  have loop : ∀ fuel off, KeepsLocks (dirlookupLoop sb dp name fuel off) := by
    intro fuel
    induction fuel with
    | zero => exact fun off => KeepsLocks.pure none
    | succ fuel ih =>
        intro off
        refine KeepsLocks.get.bind fun s => KeepsLocks.ite ?_ (KeepsLocks.pure _)
        refine (KeepsLocks.onInode dp _).bind fun r => ?_
        refine KeepsLocks.ite (KeepsLocks.throw _) (KeepsLocks.ite (ih _) (KeepsLocks.ite ?_ (ih _)))
        exact (iget_locks _).bind fun ip => KeepsLocks.pure _
  exact KeepsLocks.get.bind fun s => KeepsLocks.ite (KeepsLocks.throw _) (loop _ _)

theorem iput_locks (sb : Superblock) (a : Nat) : KeepsLocks (iput sb a) := by
  have free : KeepsLocks (iputFree sb a) := by
    refine (KeepsLocks.onInode a _).bind fun _ => (KeepsLocks.onInode a _).bind fun _ =>
      (KeepsLocks.onInode a _).bind fun _ => ?_
    exact fun s => setInode_lockOf s rfl
  refine KeepsLocks.get.bind fun s => ?_
  have last : KeepsLocks (modify fun s =>
    setInode a { s.itable a with ref := (s.itable a).ref - 1 } s) :=
    fun t => setInode_lockOf t rfl
  refine KeepsLocks.ite (KeepsLocks.ite ?_ (free.bind fun _ => last)) last
  exact KeepsLocks.throw _

/-- The program gives back the lock of entry `a` and no other. -/
def Releases {α : Type} (a : Nat) (m : FsM α) : Prop :=
  ∀ s, wp m (fun _ => True) (fun _ s' => lockOf s' = upd (lockOf s) a false) s

section Releases
variable {α β : Type} {m m' : FsM α} {f : α → FsM β} {a : Nat}

theorem iunlock_releases (a : Nat) : Releases a (iunlock a) := by
  intro s
  simp only [iunlock, wp_bind, wp_get, wp_ite, wp_set, wp_throw]
  refine ⟨fun _ => trivial, fun _ => ?_⟩
  funext b
  by_cases here : b = a
  · simp only [lockOf, setInode, here, upd_self]
  · simp only [lockOf, setInode, upd_of_ne here]

theorem Releases.first (first : Releases a m) (rest : ∀ x, KeepsLocks (f x)) :
    Releases a (m >>= f) := by
  intro s
  refine wp_seq (first s) fun x t same => ?_
  rw [← same]
  exact rest x t

theorem Releases.last (first : KeepsLocks m) (rest : ∀ x, Releases a (f x)) :
    Releases a (m >>= f) := by
  intro s
  refine wp_seq (first s) fun x t same => ?_
  rw [← same]
  exact rest x t

theorem Releases.ite {c : Prop} [Decidable c] (yes : Releases a m) (no : Releases a m') :
    Releases a (if c then m else m') := by
  intro s
  rw [wp_ite]
  exact ⟨fun _ => yes s, fun _ => no s⟩

theorem iunlockput_releases (sb : Superblock) (a : Nat) : Releases a (iunlockput sb a) :=
  (iunlock_releases a).first fun _ => iput_locks sb a

theorem KeepsLocks.locked (sb : Superblock) (rest : Releases a m) :
    KeepsLocks (ilock sb a >>= fun _ => m) := by
  have taken : ∀ s, wp (ilock sb a) (fun _ => True)
      (fun _ t => lockOf s a = false ∧ lockOf t = upd (lockOf s) a true) s := by
    intro s
    have moves : ∀ e : Inode, e.locked = true → lockOf (setInode a e s) = upd (lockOf s) a true := by
      intro e locked
      funext b
      by_cases here : b = a
      · simp only [lockOf, setInode, here, upd_self, locked]
      · simp only [lockOf, setInode, upd_of_ne here]
    simp only [ilock, wp_bind, wp_get, wp_ite, wp_set, wp_throw]
    refine ⟨fun _ => trivial, fun _ => ⟨fun _ => trivial, fun free => ?_⟩⟩
    have free : lockOf s a = false := Bool.not_eq_true _ ▸ free
    exact ⟨fun _ => ⟨free, moves _ rfl⟩, fun _ => ⟨fun _ => trivial, fun _ => ⟨free, moves _ rfl⟩⟩⟩
  intro s
  refine wp_seq (taken s) fun _ t done => ?_
  refine wp_post (rest t) fun _ u same => ?_
  rw [same, done.2]
  funext b
  by_cases here : b = a
  · rw [here, upd_self, done.1]
  · rw [upd_of_ne here, upd_of_ne here]

end Releases

theorem namexLoop_locks (sb : Superblock) (parent : Bool) : ∀ (fuel a : Nat) (path : Path),
    KeepsLocks (namexLoop sb parent fuel a path) := by
  intro fuel
  induction fuel with
  | zero => exact fun a path => KeepsLocks.pure none
  | succ fuel ih =>
      intro a path
      simp only [namexLoop]
      cases skipelem path with
      | none =>
          exact KeepsLocks.ite ((iput_locks sb a).bind fun _ => KeepsLocks.pure _)
            (KeepsLocks.pure _)
      | some found =>
          obtain ⟨name, rest⟩ := found
          refine KeepsLocks.locked sb (Releases.last KeepsLocks.get fun s => ?_)
          refine Releases.ite ?_ (Releases.ite ?_ ?_)
          · exact (iunlockput_releases sb a).first fun _ => KeepsLocks.pure _
          · exact (iunlock_releases a).first fun _ => KeepsLocks.pure _
          · refine Releases.last (dirlookup_locks sb a name) fun r => ?_
            cases r with
            | none => exact (iunlockput_releases sb a).first fun _ => KeepsLocks.pure _
            | some hit => exact (iunlockput_releases sb a).first fun _ => ih hit.1 rest

theorem namex_locks (sb : Superblock) (cwd : Nat) (path : Path) (parent : Bool) :
    KeepsLocks (namex sb cwd path parent) := by
  have rest : ∀ a, KeepsLocks (namexLoop sb parent (path.length + 1) a path) :=
    fun a => namexLoop_locks sb parent _ a path
  have dup : KeepsLocks (idup cwd) := fun s => setInode_lockOf s rfl
  exact KeepsLocks.ite ((iget_locks ROOTINO).bind rest) (dup.bind rest)

/-! ## `namex` comes back -/

section Ends
variable {sb : Superblock} {held : Nat → Nat} {loose : Nat → Prop} {s t : FsState} {a : Nat}

def Spare (held : Nat → Nat) (s : FsState) : Prop :=
  ∃ b c, b < NINODE ∧ c < NINODE ∧ b ≠ c ∧ uses s b + held b = 0 ∧ uses s c + held c = 0

theorem Spare.only (spare : Spare held s) (only : OnlyTable s t) : Spare held t := by
  obtain ⟨b, c, boundB, boundC, differ, freeB, freeC⟩ := spare
  exact ⟨b, c, boundB, boundC, differ, by rw [only.uses, freeB], by rw [only.uses, freeC]⟩

theorem Spare.room (spare : Spare held s) (inv : FsInv sb (bump held a) loose s) : ¬ TableFull s := by
  obtain ⟨b, c, boundB, boundC, differ, freeB, freeC⟩ := spare
  intro full
  by_cases here : b = a
  · refine full c boundC ?_
    rw [inv.table.refs c boundC, bump, upd_of_ne (fun same => differ (here.trans same.symm)), freeC]
  · refine full b boundB ?_
    rw [inv.table.refs b boundB, bump, upd_of_ne here, freeB]

theorem lockOf_upd {l : Bool} (here : lockOf t a = l)
    (others : ∀ b, b ≠ a → lockOf t b = lockOf s b) : lockOf t = upd (lockOf s) a l := by
  funext b
  rcases upd_cases (lockOf s) a l b with ⟨rfl, new⟩ | ⟨other, old⟩
  · rw [new, here]
  · rw [old, others b other]

/-- If nothing dangles, what a directory has an entry for is allocated. -/
theorem lookup_allocated {tree : Nat → Node} {d k : Nat} {name : Bytes} (whole : ¬ Dangling tree)
    (isDir : (tree d).type = T_DIR) (hit : (tree d).lookup name = some k) :
    (tree ((tree d).entInum k)).type ≠ 0 := by
  obtain ⟨inside, used, -⟩ := lookup_eq_some.mp hit
  simp only [Node.hit, Bool.and_eq_true, decide_eq_true_eq] at used
  intro none
  exact whole (Or.inr ⟨d, k, isDir, inside, used.1, none⟩)

theorem iunlockput_ends (geo : Geometry sb) (inv : FsInv sb (bump held a) loose s)
    (guard : Guarded held loose s) (bound : a < NINODE) (locked : lockOf s a = true) :
    wp (iunlockput sb a) (fun _ => False)
      (fun _ s' => Looked sb held held loose s s' ∧ lockOf s' = upd (lockOf s) a false) s := by
  have pos := inv.table.ref_of_held bound (bump_pos held a)
  have ends : wp (iunlockput sb a) (fun _ => False)
    (fun _ s' => lockOf s' = upd (lockOf s) a false) s := by
    unfold iunlockput
    rw [wp_bind]
    refine wp_intro (fun r u run => ?_) fun e run => wp_error (iunlock_ready inv bound pos locked) run
    obtain ⟨unlocked, free, -⟩ := wp_ok (iunlock_ready inv bound pos locked) run
    obtain ⟨looked, -⟩ := wp_ok (iunlock_looked inv bound held) run
    have same := lockOf_upd free fun b other => (unlocked.kept b other).2.2
    have put := wp_and (iput_back geo looked.inv (guard.stays looked.stays) bound held)
      (iput_locks sb a u)
    exact wp_post put fun _ v done => done.2.trans same
  refine wp_intro (fun r u run => ?_) fun e run => wp_error ends run
  have back := wp_ok (iunlockput_back geo inv guard bound) run
  have gone := wp_ok ends run
  exact ⟨back, gone⟩

/-- Nothing is locked, and nothing leads to an inode that is not allocated. -/
theorem namexLoop_ends (geo : Geometry sb) (parent : Bool) : ∀ (fuel a : Nat) (path : Path)
    (s : FsState), FsInv sb (bump held a) loose s → Guarded held loose s → a < NINODE →
    (∀ b, b < NINODE → lockOf s b = false) → Spare held s → ¬ Dangling (nodes sb s.disk) →
    (nodes sb s.disk (s.itable a).inum).type ≠ 0 →
    wp (namexLoop sb parent fuel a path) (fun _ => False) (fun _ _ => True) s := by
  intro fuel
  induction fuel with
  | zero =>
      intro a path s _ _ _ _ _ _ _
      exact trivial
  | succ fuel ih =>
      intro a path s inv guard bound unlocked spare whole live
      have free := unlocked a bound
      have pos := inv.table.ref_of_held bound (bump_pos held a)
      simp only [namexLoop]
      cases elem : skipelem path with
      | none =>
          simp only [wp_ite, wp_bind, wp_pure]
          refine ⟨fun _ => ?_, fun _ => trivial⟩
          exact wp_post (iput_back geo inv guard bound held) fun _ _ _ => trivial
      | some found =>
          obtain ⟨name, rest⟩ := found
          simp only [wp_bind, wp_get, wp_ite, wp_pure]
          have range := inv.table.inums a bound pos
          rw [nodes_type range] at live
          refine wp_intro (fun r s₁ run => ?_) fun e run =>
            wp_error (ilock_ready inv bound pos free live) run
          have locks := wp_ok (ilock_ready inv bound pos free live) run
          obtain ⟨locked, inum, valid, alloc⟩ :=
            wp_ok (ilock_looked inv bound (bump_pos held a) held) run
          have disk := locked.only.disk
          have guard₁ := guard.stays locked.stays
          have lock₁ := lockOf_upd locks.locked fun b other => (locks.kept b other).2.2
          have back : upd (upd (lockOf s) a true) a false = lockOf s := by
            rw [upd_upd]
            exact (lockOf_upd free fun _ _ => rfl).symm
          have held₁ : lockOf s₁ a = true := by rw [lock₁, upd_self]
          -- whatever `dirlookup` leaves, `iunlockput` gives the lock back
          have release : ∀ {held' : Nat → Nat} {u : FsState}, FsInv sb (bump held' a) loose u →
              Guarded held' loose u → lockOf u = lockOf s₁ →
              wp (iunlockput sb a) (fun _ => False) (fun _ v => Looked sb held' held' loose u v ∧
                lockOf v = lockOf s) u := by
            intro held' u inv' guard' same
            refine wp_post (iunlockput_ends geo inv' guard' bound (by rw [same, held₁])) ?_
            rintro _ v ⟨looked, gone⟩
            refine ⟨looked, ?_⟩
            rw [gone, same, lock₁, back]
          refine ⟨fun _ => ?_, fun dir => ⟨fun _ => ?_, fun _ => ?_⟩⟩
          · exact wp_post (release locked.inv guard₁ rfl) fun _ _ _ => trivial
          · have pos₁ := locked.inv.table.ref_of_held bound (bump_pos held a)
            exact wp_post (iunlock_ready locked.inv bound pos₁ held₁) fun _ _ _ => trivial
          · have pos₁ := locked.inv.table.ref_of_held bound (bump_pos held a)
            have type : (s₁.itable a).din.type = (nodes sb s₁.disk (s₁.itable a).inum).type := by
              rw [locked.inv.node bound pos₁ valid]
              rfl
            have on : OnDir sb s₁ a := ⟨bound, pos₁, valid, type.symm.trans (not_not.mp dir)⟩
            have room := (spare.only locked.only).room locked.inv
            refine wp_mono (wp_and (dirlookup_spec geo locked.inv on name)
              (dirlookup_locks sb a name s₁)) ?_
              fun e stop => room stop.2
            rintro r s₂ ⟨result, lock₂⟩
            cases hit : (nodes sb s₁.disk (s₁.itable a).inum).lookup name with
            | none =>
                simp only [Found, hit] at result
                obtain ⟨rfl, rfl⟩ := result
                simp only [wp_bind, wp_pure]
                exact wp_post (release locked.inv guard₁ rfl) fun _ _ _ => trivial
            | some k =>
                simp only [Found, hit] at result
                obtain ⟨b, rfl, got⟩ := result
                have looked := got.looked locked.inv (le_bump held a)
                have inv₂ : FsInv sb (bump (bump held a) b) loose s₂ := got.inv
                rw [bump_comm] at inv₂
                have guard₂ := (guard₁.stays looked.stays).bump b
                simp only [wp_bind]
                refine wp_post (release inv₂ guard₂ lock₂) ?_
                rintro _ s₃ ⟨put, lock₃⟩
                have whole₃ : OnlyTable s s₃ := locked.only.trans (looked.only.trans put.only)
                have tree : nodes sb s₃.disk = nodes sb s.disk := by rw [whole₃.disk]
                have next : (s₃.itable b).inum = (nodes sb s.disk (s.itable a).inum).entInum k := by
                  rw [(put.stays b got.bound (by have := bump_pos held b; omega)).1,
                    got.inum, disk, inum]
                have stays : Stays held s₂ s₃ := put.stays.mono (le_bump held b)
                refine wp_post (ih b rest s₃ put.inv ((guard₁.stays looked.stays).stays stays) got.bound
                  (by rw [lock₃]; exact unlocked) (spare.only whole₃) (by rw [tree]; exact whole) ?_)
                  fun _ _ _ => trivial
                have isDir := on.isDir
                rw [disk, inum] at hit isDir
                rw [tree, next]
                exact lookup_allocated whole isDir hit

/-- A consistent state, with the working directory `cwd` of the process. -/
structure Resolvable (sb : Superblock) (held : Nat → Nat) (loose : Nat → Prop) (s : FsState)
    (cwd : Nat) : Prop where
  inv : FsInv sb held loose s
  guard : Guarded held loose s
  bound : cwd < NINODE
  used : 0 < uses s cwd

/-- Nothing keeps `namex` from coming back. -/
structure Clear (sb : Superblock) (held : Nat → Nat) (s : FsState) : Prop where
  entries : ¬ Dangling (nodes sb s.disk)
  unlocked : ∀ b, b < NINODE → lockOf s b = false
  spare : Spare held s

theorem namex_ends (geo : Geometry sb) {cwd : Nat} (ok : Resolvable sb held loose s cwd)
    (clear : Clear sb held s) (path : Path) (parent : Bool) :
    wp (namex sb cwd path parent) (fun _ => False) (fun _ _ => True) s := by
  have start : ∀ {a i : Nat} {t : FsState}, Got sb held loose s i a t → lockOf t = lockOf s →
      (nodes sb s.disk i).type ≠ 0 → wp (namexLoop sb parent (path.length + 1) a path)
        (fun _ => False) (fun _ _ => True) t := by
    intro a i t got same live
    have looked : Looked sb held (bump held a) loose s t := got.looked ok.inv fun _ => Nat.le_refl _
    have tree : nodes sb t.disk = nodes sb s.disk := by rw [looked.only.disk]
    exact namexLoop_ends geo parent _ a path t looked.inv (ok.guard.stays looked.stays) got.bound
      (by rw [same]; exact clear.unlocked) (clear.spare.only looked.only)
      (by rw [tree]; exact clear.entries) (by rw [tree, got.inum]; exact live)
  unfold namex
  by_cases absolute : path.head? = some slash
  · simp only [if_pos absolute, wp_bind]
    have room : ¬ TableFull s := by
      obtain ⟨b, c, boundB, -, -, freeB, -⟩ := clear.spare
      exact fun full => full b boundB (by rw [ok.inv.table.refs b boundB, freeB])
    refine wp_mono (wp_and (iget_spec ok.inv geo.root) (iget_locks ROOTINO s)) ?_
      fun e stop => room stop.2
    rintro a t ⟨got, same⟩
    exact start got same fun none => clear.entries (Or.inl none)
  · simp only [if_neg absolute, wp_bind]
    have more := ok.inv.table.ref_of_uses ok.bound ok.used
    have dup : wp (idup cwd) (fun _ => True) (fun _ t => lockOf t = lockOf s) s :=
      setInode_lockOf s rfl
    refine wp_post (wp_and (idup_spec ok.inv ok.bound (by omega)) dup) ?_
    rintro a t ⟨⟨rfl, got⟩, same⟩
    refine start got same ?_
    have pos : 0 < (s.itable a).ref := by omega
    rw [nodes_type (ok.inv.table.inums a ok.bound pos)]
    exact ok.inv.table.live a ok.bound more

/-- What is left when entry `r` is returned: one more reference to it and nothing else. -/
structure Left (s s' : FsState) (r : Option Nat) : Prop where
  only : OnlyTable s s'
  locks : lockOf s' = lockOf s
  refs : ∀ b, b < NINODE → (s'.itable b).ref = (s.itable b).ref + if r = some b then 1 else 0
  inums : ∀ b, b < NINODE → 0 < (s.itable b).ref → (s'.itable b).inum = (s.itable b).inum

theorem Arrived.left {cwd : Nat} {target r : Option (Nat × Bytes)} (ok : Resolvable sb held loose s cwd)
    (arrived : Arrived sb held loose s target r t) (locks : lockOf t = lockOf s) :
    Left s t (r.map Prod.fst) ∧ (r.map fun x => ((t.itable x.1).inum, x.2)) = target := by
  have stays : ∀ {held' : Nat → Nat}, Looked sb held held' loose s t → ∀ b, b < NINODE →
    0 < (s.itable b).ref →
      (t.itable b).inum = (s.itable b).inum := by
    intro held' looked b bound pos
    rw [ok.inv.table.refs b bound] at pos
    exact (looked.stays b bound pos).1
  cases target with
  | none =>
      obtain ⟨rfl, looked⟩ := arrived
      refine ⟨⟨looked.only, locks, fun b bound => ?_, stays looked⟩, rfl⟩
      rw [looked.inv.table.refs b bound, looked.only.uses, ok.inv.table.refs b bound]
      rfl
  | some target =>
      obtain ⟨i, name⟩ := target
      obtain ⟨-, a, rfl, bound, inum, looked⟩ := arrived
      refine ⟨⟨looked.only, locks, fun b bound => ?_, stays looked⟩, ?_⟩
      · rw [looked.inv.table.refs b bound, looked.only.uses, ok.inv.table.refs b bound]
        by_cases here : b = a
        · rw [here, bump, upd_self, Option.map_some, if_pos rfl, Nat.add_assoc]
        · rw [bump, upd_of_ne here, Option.map_some, if_neg fun same =>
            here (Option.some.inj same).symm]
          rfl
      · rw [Option.map_some, inum]

theorem namex_left (geo : Geometry sb) {cwd : Nat} (ok : Resolvable sb held loose s cwd)
    (path : Path) (parent : Bool) : wp (namex sb cwd path parent) (fun _ => True)
      (fun r t => Left s t (r.map Prod.fst) ∧
        (r.map fun x => ((t.itable x.1).inum, x.2)) = walk sb s cwd path parent) s := by
  have both := wp_and (namex_spec geo ok.inv ok.guard ok.bound ok.used path parent)
    (namex_locks sb cwd path parent s)
  refine wp_mono both ?_ fun _ _ => trivial
  rintro r t ⟨arrived, locks⟩
  exact arrived.left ok locks

end Ends

/-- Whenever `namei` or `nameiparent` returns, the result is what following the elements of the
path gives, and the references and locks are as before but for the entry returned.  Both return
if nothing is locked, two entries of the inode table are free and all directory entries name
allocated inodes. -/
theorem path_resolution {sb : Superblock} {held : Nat → Nat} {loose : Nat → Prop} {s : FsState}
    {cwd : Nat} (geo : Geometry sb) (ok : Resolvable sb held loose s cwd) (path : Path) :
    (∀ r s₁, namei sb cwd path s = .ok (r, s₁) → Left s s₁ r ∧
      (r.map fun a => (s₁.itable a).inum) =
        follow (nodes sb s.disk) (startOf s cwd path) (elements path) ∧
      (r = none ↔ ∃ front name back j, elements path = front ++ name :: back ∧
        follow (nodes sb s.disk) (startOf s cwd path) front = some j ∧
        ((nodes sb s.disk j).type ≠ T_DIR ∨ (nodes sb s.disk j).lookup name = none))) ∧
    (∀ q s₂, nameiparent sb cwd path s = .ok (q, s₂) → Left s s₂ (q.map Prod.fst) ∧
      (q.map fun x => ((s₂.itable x.1).inum, x.2)) =
        followParent (nodes sb s.disk) (startOf s cwd path) (elements path) ∧
      (elements path = [] → q = none) ∧
      (elements path ≠ [] → ∀ r s₁, namei sb cwd path s = .ok (r, s₁) →
        (r.map fun a => (s₁.itable a).inum) =
          (q.map fun x => ((s₂.itable x.1).inum, x.2)).bind fun x =>
            descend (nodes sb s.disk) x.1 x.2)) ∧
    (Clear sb held s → ∃ r s₁ q s₂, namei sb cwd path s = .ok (r, s₁) ∧
      nameiparent sb cwd path s = .ok (q, s₂)) := by
  have resolves := @resolve_follow (nodes sb s.disk) (path.length + 1) (startOf s cwd path) path
    (Nat.lt_succ_self _)
  have first : ∀ r s₁, namei sb cwd path s = .ok (r, s₁) → Left s s₁ r ∧
      (r.map fun a => (s₁.itable a).inum) =
        follow (nodes sb s.disk) (startOf s cwd path) (elements path) := by
    intro r s₁ run
    have done : wp (namei sb cwd path) (fun _ => True) (fun r t => Left s t r ∧
        (r.map fun a => (t.itable a).inum) =
          follow (nodes sb s.disk) (startOf s cwd path) (elements path)) s := by
      simp only [namei, wp_bind, wp_pure]
      refine wp_post (namex_left geo ok path false) ?_
      rintro r t ⟨left, target⟩
      refine ⟨left, ?_⟩
      have inums := congrArg (Option.map Prod.fst) target
      rw [Option.map_map] at inums
      rw [Option.map_map, ← resolves.1]
      exact inums
    have after := wp_ok done run
    exact after
  refine ⟨fun r s₁ run => ?_, fun q s₂ run => ?_, fun clear => ?_⟩
  · obtain ⟨left, inums⟩ := first r s₁ run
    refine ⟨left, inums, ?_⟩
    rw [← follow_none, ← inums]
    exact Option.map_eq_none_iff.symm
  · obtain ⟨left, target⟩ := wp_ok (namex_left geo ok path true) run
    have parent : (q.map fun x => ((s₂.itable x.1).inum, x.2)) =
        followParent (nodes sb s.disk) (startOf s cwd path) (elements path) :=
      target.trans resolves.2
    refine ⟨left, parent, ?_, ?_⟩
    · intro none
      rw [none] at parent
      exact Option.map_eq_none_iff.mp parent
    · intro some r s₁ run'
      rw [(first r s₁ run').2, parent]
      exact follow_parent _ _ some
  · obtain ⟨r, s₁, run₁, -⟩ := wp_total (namex_ends geo ok clear path false)
    obtain ⟨q, s₂, run₂, -⟩ := wp_total (namex_ends geo ok clear path true)
    refine ⟨r.map Prod.fst, s₁, q, s₂, ?_, run₂⟩
    simp only [namei, bind, StateT.bind, Except.bind, run₁]
    rfl

/-! ## A directory -/

def checkEntries (sb : Superblock) (disk : Disk) : Bool :=
  decide ((nodes sb disk ROOTINO).type ≠ 0) && (List.range sb.ninodes).all fun d =>
    decide ((nodes sb disk d).type ≠ T_DIR) || (List.range (nodes sb disk d).nents).all fun k =>
      decide ((nodes sb disk d).entInum k = 0) ||
        decide ((nodes sb disk ((nodes sb disk d).entInum k)).type ≠ 0)

theorem not_dangling_of_check {sb : Superblock} {disk : Disk} (check : checkEntries sb disk = true) :
    ¬ Dangling (nodes sb disk) := by
  simp only [checkEntries, Bool.and_eq_true, decide_eq_true_eq, List.all_eq_true, List.mem_range,
    Bool.or_eq_true] at check
  obtain ⟨root, dirs⟩ := check
  rintro (none | ⟨d, k, isDir, inside, some, none⟩)
  · exact root none
  · have range : d < sb.ninodes := @nodes_range sb disk d (by rw [isDir]; decide)
    rcases dirs d range with other | entries
    · exact other isDir
    · rcases entries k inside with zero | live
      · exact some zero
      · exact live none

def makeA : List (Nat × Call) := [(0, .mkdir (some [97]))]

/-- `/a//../a` -/
def around : Path := [47, 97, 47, 47, 46, 46, 47, 97]

/-- The rest of the inode table filled with references. -/
def fillTable : FsM Unit := forFrom (fun i => do let _ ← iget i) 100 49

def unlinked (s : FsState) : FsState :=
  { s with disk := setDinode mkfsSb s.disk 2 { dinode mkfsSb s.disk 2 with nlink := 0 } }

theorem Dangling.congr {tree tree' : Nat → Node} (type : ∀ i, (tree' i).type = (tree i).type)
    (size : ∀ i, (tree' i).size = (tree i).size) (data : ∀ i, (tree' i).data = (tree i).data)
    (dangling : Dangling tree') : Dangling tree := by
  simp only [Dangling, Node.nents, Node.entInum, type, size, data] at dangling ⊢
  exact dangling

/-- The entries are the same whatever the number of links. -/
theorem unlinked_not_dangling {s : FsState} (ok : DiskInv mkfsSb s.disk)
    (alloc : (dinode mkfsSb s.disk 2).type ≠ 0) (entries : ¬ Dangling (nodes mkfsSb s.disk)) :
    ¬ Dangling (nodes mkfsSb (unlinked s).disk) := by
  have fits : ({ dinode mkfsSb s.disk 2 with nlink := 0 } : Dinode).Fits :=
    { dinode_fits mkfsSb s.disk 2 with nlink := Nat.two_pow_pos 16 }
  obtain ⟨-, same⟩ := ok.setDinode mkfs_geometry (by decide) alloc fits rfl rfl rfl
  have only : ∀ i, ∃ n, nodes mkfsSb (unlinked s).disk i =
      { nodes mkfsSb s.disk i with nlink := n } := by
    intro i
    rw [unlinked, same]
    rcases upd_cases (nodes mkfsSb s.disk) 2 _ i with ⟨rfl, new⟩ | ⟨-, old⟩
    · rw [new]
      exact ⟨0, by rw [nodes_eq (by decide) alloc]; rfl⟩
    · rw [old]
      exact ⟨_, rfl⟩
  refine mt (Dangling.congr ?_ ?_ ?_) entries <;> intro i <;> obtain ⟨n, node⟩ := only i <;>
    rw [node]

/-- `namei` does not come back. -/
def stops (path : Path) (s : FsState) : Bool :=
  match namei mkfsSb 0 path s with
  | .error _ => true
  | .ok _ => false

theorem not_stops {path : Path} {s : FsState} (returns : ∃ r s', namei mkfsSb 0 path s = .ok (r, s')) :
    stops path s = false := by
  obtain ⟨r, s', run⟩ := returns
  rw [stops, run]

/-- What the state after `mkdir("/a")` is evaluated for. -/
structure MadeA (s : FsState) : Prop where
  ok : Consistent mkfsSb s
  unlocked : ∀ b, b < NINODE → lockOf s b = false
  spare : Spare idle s
  used : 0 < uses s 0
  entries : ¬ Dangling (nodes mkfsSb s.disk)
  target : follow (nodes mkfsSb s.disk) ROOTINO (elements around) = some 2
  parent : (followParent (nodes mkfsSb s.disk) ROOTINO (elements around)).map Prod.fst = some ROOTINO
  full : ∃ t, fillTable s = .ok (⟨⟩, t) ∧ stops [47, 97] t = true
  entries' : ¬ Dangling (nodes mkfsSb (unlinked s).disk)
  freed : stops [47, 97, 47, 46, 46, 47, 97, 47, 98] (unlinked s) = true

theorem makeA_ends : ∃ s, MadeA s := by
  obtain ⟨r, start, ends⟩ := Run.exists_of_exec (step mkfsSb) mkfsState makeA (0, .exit)
    (fun s => decide (((∀ b, b < NINODE → lockOf s b = false) ∧ uses s 1 = 0 ∧ uses s 2 = 0 ∧
      0 < uses s 0) ∧
      checkEntries mkfsSb s.disk = true ∧
      follow (nodes mkfsSb s.disk) ROOTINO (elements around) = some 2 ∧
      (followParent (nodes mkfsSb s.disk) ROOTINO (elements around)).map Prod.fst = some ROOTINO ∧
      (match fillTable s with
        | .ok (_, t) => stops [47, 97] t
        | .error _ => false) = true ∧
      (dinode mkfsSb s.disk 2).type ≠ 0 ∧
      stops [47, 97, 47, 46, 46, 47, 97, 47, 98] (unlinked s) = true)) (by decide +kernel)
  have ok := run_consistent mkfs_geometry r (by rw [start]; exact mkfs_consistent) r.len (Nat.le_refl _)
  obtain ⟨⟨unlocked, one, two, used⟩, entries, target, parent, full, alloc, freed⟩ :=
    of_decide_eq_true ends
  refine ⟨_, ok, unlocked, ⟨1, 2, by decide, by decide, by decide, one, two⟩, used,
    not_dangling_of_check entries, target, parent, ?_,
    unlinked_not_dangling ok.quiet.inv.disk alloc (not_dangling_of_check entries), freed⟩
  split at full
  next t filled => exact ⟨t, filled, full⟩
  · cases full

/-- `namei("/a//../a")` and `nameiparent` of the same. -/
theorem makeA_resolution : ∃ s r s₁ q s₂, namei mkfsSb 0 around s = .ok (some r, s₁) ∧
    nameiparent mkfsSb 0 around s = .ok (some q, s₂) ∧ (s₁.itable r).inum = 2 ∧
    (s₂.itable q.1).inum = ROOTINO ∧ Left s s₁ (some r) ∧ Left s s₂ (some q.1) := by
  obtain ⟨s, made⟩ := makeA_ends
  obtain ⟨first, second, ends⟩ := path_resolution mkfs_geometry
    ⟨made.ok.quiet.inv, guarded_none idle s, by decide, made.used⟩ around
  obtain ⟨r, s₁, q, s₂, run₁, run₂⟩ := ends ⟨made.entries, made.unlocked, made.spare⟩
  obtain ⟨left₁, inum₁, -⟩ := first r s₁ run₁
  obtain ⟨left₂, inum₂, -⟩ := second q s₂ run₂
  have start : startOf s 0 around = ROOTINO := rfl
  rw [start, made.target, Option.map_eq_some_iff] at inum₁
  obtain ⟨a, rfl, inum⟩ := inum₁
  have parent := made.parent
  rw [start] at inum₂
  rw [← inum₂, Option.map_map, Option.map_eq_some_iff] at parent
  obtain ⟨b, rfl, root⟩ := parent
  exact ⟨s, a, s₁, b, s₂, run₁, run₂, inum, root, left₁, left₂⟩

theorem fillTable_inv {s : FsState} (inv : FsInv mkfsSb idle (fun _ => False) s) :
    wp fillTable (fun _ => True) (fun _ t => (∃ held, FsInv mkfsSb held (fun _ => False) t) ∧
      OnlyTable s t ∧ lockOf t = lockOf s) s := by
  refine wp_forFrom (fun _ t => (∃ held, FsInv mkfsSb held (fun _ => False) t) ∧ OnlyTable s t ∧
    lockOf t = lockOf s) 49 100 s ?_ ⟨⟨_, inv⟩, OnlyTable.refl s, rfl⟩
  rintro i t - below ⟨⟨held, inv⟩, only, same⟩
  have range : i < mkfsSb.ninodes := Nat.lt_of_lt_of_le below (by decide)
  simp only [wp_bind, wp_pure]
  refine wp_mono (wp_and (iget_spec inv range) (iget_locks i t)) ?_ fun _ _ => trivial
  rintro a u ⟨got, locks⟩
  exact ⟨⟨_, got.inv⟩, only.trans got.only, locks.trans same⟩

/-- A consistent state is not enough, for the inode table may be full; neither is an inode table
with free entries, for the disk may hold an entry of an inode that has no links. -/
theorem resolution_stops :
    (¬ ∀ (sb : Superblock) (held : Nat → Nat) (loose : Nat → Prop) (s : FsState) (cwd : Nat)
    (path : Path),
      Geometry sb → FsInv sb held loose s → Guarded held loose s → ¬ Dangling (nodes sb s.disk) →
      (∀ b, b < NINODE → lockOf s b = false) → cwd < NINODE → 0 < uses s cwd →
      ∃ r s', namei sb cwd path s = .ok (r, s')) ∧
    (¬ ∀ (sb : Superblock) (s : FsState) (cwd : Nat) (path : Path),
      Geometry sb → ¬ Dangling (nodes sb s.disk) → (∀ b, b < NINODE → lockOf s b = false) →
        Spare idle s →
      cwd < NINODE → 0 < uses s cwd → ∃ r s', namei sb cwd path s = .ok (r, s')) := by
  obtain ⟨s, made⟩ := makeA_ends
  constructor
  · intro claim
    obtain ⟨t, filled, full⟩ := made.full
    obtain ⟨⟨held, inv⟩, only, locks⟩ := wp_ok (fillTable_inv made.ok.quiet.inv) filled
    have returns := claim mkfsSb held (fun _ => False) t 0 [47, 97] mkfs_geometry inv
      (guarded_none held t)
      (by rw [only.disk]; exact made.entries) (by rw [locks]; exact made.unlocked) (by decide)
      (by rw [only.uses]; exact made.used)
    rw [not_stops returns] at full
    cases full
  · intro claim
    have freed := made.freed
    rw [not_stops (claim mkfsSb (unlinked s) 0 _ mkfs_geometry made.entries' made.unlocked made.spare
      (by decide) made.used)] at freed
    cases freed

end Xv6Fcfs.Fs
