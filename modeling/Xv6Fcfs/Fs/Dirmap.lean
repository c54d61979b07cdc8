import Xv6Fcfs.Lib.Runs
import Xv6Fcfs.Fs.Image
import Xv6Fcfs.Fs.Parts

/-!
# A directory is a finite map

The keys are names cut at `DIRSIZ` characters or at their NUL.  `dirlink` and the clearing
of an entry in `sys_unlink` keep the names of a directory distinct, whatever their length
and whichever of the reads and writes below them fail, so each changes the map at its own
name only.
-/

set_option autoImplicit false

namespace Xv6Fcfs.Fs

open Xv6Fcfs.Lib

/-- What `strncpy(de.name, name, DIRSIZ)` stores of a name. -/
def nameKey (name : Bytes) : List UInt8 := (List.range DIRSIZ).map (strncpy name)

def Node.Unique (n : Node) : Prop :=
  ∀ j k, j < n.nents → k < n.nents → n.entInum j ≠ 0 → n.entInum k ≠ 0 →
    nameKey (n.entName j) = nameKey (n.entName k) → j = k

def Node.map (n : Node) (name : Bytes) : Option Nat := (n.lookup name).map n.entInum

/-- Only `.` and `..`, as `mkfs` writes them. -/
structure DotsOnly (n : Node) : Prop where
  two : 2 ≤ n.nents
  dot : n.entInum 0 ≠ 0 ∧ nameKey (n.entName 0) = nameKey Fs.dot
  dotdot : n.entInum 1 ≠ 0 ∧ nameKey (n.entName 1) = nameKey Fs.dotdot
  rest : ∀ k, 2 ≤ k → k < n.nents → n.entInum k = 0

/-! ## Names -/

section Names
variable {p q : Bytes}

theorem strncpy_of_front {i : Nat} (before : ∀ j, j < i → p j ≠ 0) : strncpy p i = p i :=
  if_pos before

theorem strncpy_after {i j : Nat} (zero : p i = 0) (after : i < j) : strncpy p j = 0 :=
  if_neg fun all => all i after zero

theorem strncmpEq_iff : ∀ (n i : Nat), (∀ j, j < i → p j ≠ 0 ∧ p j = q j) →
    (strncmpEq p q i n = true ↔ ∀ j, i ≤ j → j < i + n → strncpy p j = strncpy q j) := by
  intro n
  induction n with
  | zero =>
      intro i _
      exact ⟨fun _ j low high => by omega, fun _ => rfl⟩
  | succ n ih =>
      intro i before
      have copyP : strncpy p i = p i := strncpy_of_front fun j low => (before j low).1
      have copyQ : strncpy q i = q i := by
        apply strncpy_of_front
        intro j low
        rw [← (before j low).2]
        exact (before j low).1
      simp only [strncmpEq]
      by_cases both : p i ≠ 0 ∧ p i = q i
      · rw [if_pos both, ih (i + 1)]
        · constructor
          · intro rest j low high
            by_cases here : j = i
            · rw [here, copyP, copyQ]
              exact both.2
            · exact rest j (by omega) (by omega)
          · intro all j low high
            exact all j (by omega) (by omega)
        · intro j low
          by_cases here : j = i
          · rw [here]
            exact both
          · exact before j (by omega)
      · rw [if_neg both, decide_eq_true_iff]
        constructor
        · intro same j low high
          have zero : p i = 0 := by
            by_contra nonzero
            exact both ⟨nonzero, same⟩
          by_cases here : j = i
          · rw [here, copyP, copyQ]
            exact same
          · rw [strncpy_after zero (by omega), strncpy_after (by rwa [same] at zero) (by omega)]
        · intro all
          rw [← copyP, ← copyQ]
          exact all i (Nat.le_refl i) (by omega)

theorem nameKey_eq_iff : nameKey p = nameKey q ↔ ∀ j, j < DIRSIZ → strncpy p j = strncpy q j := by
  simp only [nameKey, List.map_inj_left, List.mem_range]

theorem namecmp_iff : namecmp p q = true ↔ nameKey p = nameKey q := by
  rw [nameKey_eq_iff, namecmp, strncmpEq_iff DIRSIZ 0 fun j low => by omega]
  constructor
  · intro all j low
    exact all j (Nat.zero_le j) (by omega)
  · intro all j _ high
    exact all j (by omega)

theorem nameKey_congr (same : ∀ j, j < DIRSIZ → p j = q j) : nameKey p = nameKey q := by
  rw [nameKey_eq_iff]
  intro j low
  have before : (∀ i, i < j → p i ≠ 0) ↔ ∀ i, i < j → q i ≠ 0 := by
    constructor
    · intro all i less
      rw [← same i (by omega)]
      exact all i less
    · intro all i less
      rw [same i (by omega)]
      exact all i less
  simp only [strncpy, before, same j low]

theorem nameKey_mkDirent (inum : Nat) (name : Bytes) :
    nameKey (direntName (mkDirent inum name)) = nameKey name := by
  rw [nameKey_eq_iff]
  intro j _
  have stored : direntName (mkDirent inum name) = strncpy name :=
    funext (direntName_mkDirent inum name)
  rw [stored]
  -- a copy of a copy
  by_cases zeros : ∀ i, i < j → strncpy name i ≠ 0
  · exact strncpy_of_front zeros
  · push Not at zeros
    obtain ⟨i, less, zero⟩ := zeros
    rw [strncpy_after zero less]
    by_cases all : ∀ l, l < i → name l ≠ 0
    · rw [strncpy_of_front all] at zero
      exact (strncpy_after zero less).symm
    · push Not at all
      obtain ⟨l, early, none⟩ := all
      exact (strncpy_after none (by omega)).symm

theorem hit_iff {n : Node} {name : Bytes} {k : Nat} :
    n.hit name k = true ↔ n.entInum k ≠ 0 ∧ nameKey name = nameKey (n.entName k) := by
  simp only [Node.hit, Bool.and_eq_true, decide_eq_true_iff, namecmp_iff]

end Names

/-! ## The map -/

section Map
variable {n : Node} {name : Bytes} {k inum : Nat}

theorem map_eq_some (unique : n.Unique) {i : Nat} : n.map name = some i ↔
    ∃ k, k < n.nents ∧ n.entInum k ≠ 0 ∧ nameKey (n.entName k) = nameKey name ∧ n.entInum k = i := by
  simp only [Node.map, Option.map_eq_some_iff]
  constructor
  · rintro ⟨k, found, eq⟩
    obtain ⟨inside, hit, -⟩ := lookup_eq_some.mp found
    obtain ⟨used, same⟩ := hit_iff.mp hit
    exact ⟨k, inside, used, same.symm, eq⟩
  · rintro ⟨k, inside, used, same, eq⟩
    refine ⟨k, lookup_eq_some.mpr ⟨inside, hit_iff.mpr ⟨used, same.symm⟩, ?_⟩, eq⟩
    intro j less
    by_contra hit
    obtain ⟨used', same'⟩ := hit_iff.mp (by simpa using hit)
    have equal := unique j k (by omega) inside used' used (by rw [same, same'])
    omega

theorem map_eq_none (unique : n.Unique) : n.map name = none ↔
    ∀ k, k < n.nents → n.entInum k ≠ 0 → nameKey (n.entName k) ≠ nameKey name := by
  constructor
  · intro none k inside used same
    have some := (map_eq_some unique).mpr ⟨k, inside, used, same, rfl⟩
    rw [none] at some
    cases some
  · intro all
    cases found : n.map name with
    | none => rfl
    | some i =>
        obtain ⟨k, inside, used, same, -⟩ := (map_eq_some unique).mp found
        exact absurd same (all k inside used)

theorem writeEnt_used {de : Bytes} {j : Nat} : (n.writeEnt k de).entInum j ≠ 0 ↔
    (j = k ∧ direntInum de ≠ 0) ∨ (j ≠ k ∧ n.entInum j ≠ 0) := by
  rw [entInum_writeEnt]
  by_cases here : j = k
  · simp [here]
  · simp [here]

theorem writeEnt_key {de : Bytes} {j : Nat} : nameKey ((n.writeEnt k de).entName j) =
    if j = k then nameKey (direntName de) else nameKey (n.entName j) := by
  by_cases here : j = k
  · rw [if_pos here]
    apply nameKey_congr
    intro i low
    rw [entName_writeEnt low, if_pos here]
  · rw [if_neg here]
    apply nameKey_congr
    intro i low
    rw [entName_writeEnt low, if_neg here]

theorem writeEnt_inside (whole : n.size % 16 = 0) (most : k ≤ n.nents) {de : Bytes} {j : Nat} :
    j < (n.writeEnt k de).nents ↔ j = k ∨ j < n.nents := by
  rw [writeEnt_nents whole]
  omega

theorem enter_unique (whole : n.size % 16 = 0) (unique : n.Unique) (none : n.lookup name = none) :
    (n.writeEnt n.firstFree (mkDirent inum name)).Unique := by
  have absent : ∀ j, j < n.nents → n.entInum j ≠ 0 → nameKey (n.entName j) ≠ nameKey name := by
    intro j inside used same
    have miss := lookup_eq_none.mp none j inside
    rw [hit_iff.mpr ⟨used, same.symm⟩] at miss
    cases miss
  intro j l insideJ insideL usedJ usedL same
  rw [writeEnt_inside whole (firstFree_le n)] at insideJ insideL
  rw [writeEnt_used] at usedJ usedL
  rw [writeEnt_key, writeEnt_key, nameKey_mkDirent] at same
  by_cases atJ : j = n.firstFree <;> by_cases atL : l = n.firstFree
  · rw [atJ, atL]
  · rw [if_pos atJ, if_neg atL] at same
    exact absurd same.symm (absent l (by tauto) (by tauto))
  · rw [if_neg atJ, if_pos atL] at same
    exact absurd same (absent j (by tauto) (by tauto))
  · rw [if_neg atJ, if_neg atL] at same
    exact unique j l (by tauto) (by tauto) (by tauto) (by tauto) same

theorem clear_unique (whole : n.size % 16 = 0) (unique : n.Unique) (inside : k < n.nents) :
    (n.writeEnt k fun _ => 0).Unique := by
  have zero : direntInum (fun _ => 0) = 0 := rfl
  intro j l insideJ insideL usedJ usedL same
  rw [writeEnt_inside whole (Nat.le_of_lt inside)] at insideJ insideL
  simp only [writeEnt_used, zero] at usedJ usedL
  rw [writeEnt_key, writeEnt_key] at same
  have atJ : j ≠ k := by tauto
  have atL : l ≠ k := by tauto
  rw [if_neg atJ, if_neg atL] at same
  exact unique j l (by tauto) (by tauto) (by tauto) (by tauto) same

theorem map_enter (whole : n.size % 16 = 0) (unique : n.Unique) (none : n.lookup name = none)
    (some' : inum ≠ 0) (small : inum < 2 ^ 16) (name' : Bytes) :
    (n.writeEnt n.firstFree (mkDirent inum name)).map name' =
      if nameKey name' = nameKey name then some inum else n.map name' := by
  have unique' : (n.writeEnt n.firstFree (mkDirent inum name)).Unique :=
    enter_unique whole unique none
  have stored : direntInum (mkDirent inum name) = inum := by
    rw [direntInum_mkDirent, Nat.mod_eq_of_lt small]
  have most := firstFree_le n
  by_cases here : nameKey name' = nameKey name
  · rw [if_pos here, map_eq_some unique']
    refine ⟨n.firstFree, (writeEnt_inside whole most).mpr (Or.inl rfl), ?_, ?_, ?_⟩
    · exact writeEnt_used.mpr (Or.inl ⟨rfl, by rwa [stored]⟩)
    · rw [writeEnt_key, if_pos rfl, nameKey_mkDirent, here]
    · rw [entInum_writeEnt, if_pos rfl, stored]
  · rw [if_neg here]
    apply Option.ext
    intro i
    rw [map_eq_some unique', map_eq_some unique]
    constructor
    · rintro ⟨j, inside, used, same, eq⟩
      have away : j ≠ n.firstFree := by
        intro at'
        rw [writeEnt_key, if_pos at', nameKey_mkDirent] at same
        exact here same.symm
      rw [writeEnt_inside whole most] at inside
      rw [writeEnt_used] at used
      rw [writeEnt_key, if_neg away] at same
      rw [entInum_writeEnt, if_neg away] at eq
      exact ⟨j, by tauto, by tauto, same, eq⟩
    · rintro ⟨j, inside, used, same, eq⟩
      have away : j ≠ n.firstFree := by
        intro at'
        rw [at'] at used inside
        exact used (firstFree_free inside)
      refine ⟨j, (writeEnt_inside whole most).mpr (Or.inr inside),
        writeEnt_used.mpr (Or.inr ⟨away, used⟩), ?_, ?_⟩
      · rw [writeEnt_key, if_neg away, same]
      · rw [entInum_writeEnt, if_neg away, eq]

theorem map_clear (whole : n.size % 16 = 0) (unique : n.Unique) (found : n.lookup name = some k)
    (name' : Bytes) : (n.writeEnt k fun _ => 0).map name' =
      if nameKey name' = nameKey name then none else n.map name' := by
  obtain ⟨inside, hit, -⟩ := lookup_eq_some.mp found
  obtain ⟨used, same⟩ := hit_iff.mp hit
  have unique' := clear_unique whole unique inside
  have most := Nat.le_of_lt inside
  have zero : direntInum (fun _ => 0) = 0 := rfl
  by_cases here : nameKey name' = nameKey name
  · rw [if_pos here, map_eq_none unique']
    intro j insideJ usedJ sameJ
    rw [writeEnt_inside whole most] at insideJ
    simp only [writeEnt_used, zero] at usedJ
    have away : j ≠ k := by tauto
    rw [writeEnt_key, if_neg away] at sameJ
    exact away (unique j k (by tauto) inside (by tauto) used (by rw [sameJ, here, same]))
  · rw [if_neg here]
    apply Option.ext
    intro i
    rw [map_eq_some unique', map_eq_some unique]
    constructor
    · rintro ⟨j, insideJ, usedJ, sameJ, eq⟩
      simp only [writeEnt_used, zero] at usedJ
      have away : j ≠ k := by tauto
      rw [writeEnt_inside whole most] at insideJ
      rw [writeEnt_key, if_neg away] at sameJ
      rw [entInum_writeEnt, if_neg away] at eq
      exact ⟨j, by tauto, by tauto, sameJ, eq⟩
    · rintro ⟨j, insideJ, usedJ, sameJ, eq⟩
      have away : j ≠ k := by
        intro at'
        rw [at', ← same] at sameJ
        exact here sameJ.symm
      refine ⟨j, (writeEnt_inside whole most).mpr (Or.inr insideJ),
        writeEnt_used.mpr (Or.inr ⟨away, usedJ⟩), ?_, ?_⟩
      · rw [writeEnt_key, if_neg away, sameJ]
      · rw [entInum_writeEnt, if_neg away, eq]

theorem DotsOnly.unique (dots : DotsOnly n) : n.Unique := by
  have differ : nameKey Fs.dot ≠ nameKey Fs.dotdot := by decide
  have low : ∀ j, j < n.nents → n.entInum j ≠ 0 → j = 0 ∨ j = 1 := by
    intro j inside used
    by_contra high
    exact used (dots.rest j (by omega) inside)
  intro j k insideJ insideK usedJ usedK same
  rcases low j insideJ usedJ with rfl | rfl <;> rcases low k insideK usedK with rfl | rfl
  · rfl
  · rw [dots.dot.2, dots.dotdot.2] at same
    exact absurd same differ
  · rw [dots.dot.2, dots.dotdot.2] at same
    exact absurd same.symm differ
  · rfl

end Map

/-! ## Histories of one directory -/

/-- The part of `sys_unlink` that removes an entry. -/
def clearEntry (sb : Superblock) (dp : Nat) (name : Bytes) : FsM Bool := do
  match ← dirlookup sb dp name with
  | none => return false
  | some (ip, off) =>
      let r ← onInode dp (writei sb (fun _ => some 0) off 16)
      if r ≠ 16 then throw .unlinkWritei
      else
        iput sb ip
        return true

inductive DirOp where
  | link (name : Bytes) (inum : Nat)
  | clear (name : Bytes)

def runDirOp (sb : Superblock) (dp : Nat) : DirOp → FsM Bool
  | .link name inum => dirlink sb dp name inum
  | .clear name => clearEntry sb dp name

/-- The number given to `dirlink` is that of an inode and fits a `ushort`. -/
def DirOp.Proper (sb : Superblock) : DirOp → Prop
  | .link _ inum => 0 < inum ∧ inum < sb.ninodes ∧ inum < 2 ^ 16
  | .clear _ => True

def dirStep (sb : Superblock) (dp : Nat) (s : FsState) (op : DirOp) : Option FsState :=
  match runDirOp sb dp op s with
  | .ok (_, s') => some s'
  | .error _ => none

/-- The directory that a call works on through entry `dp`. -/
def dirNode (sb : Superblock) (s : FsState) (dp : Nat) : Node := nodes sb s.disk (s.itable dp).inum

section History
variable {sb : Superblock} {held : Nat → Nat} {s s' : FsState} {dp : Nat}

theorem OnDir.whole_dir {loose : Nat → Prop} (on : OnDir sb s dp) (inv : FsInv sb held loose s) :
    (dirNode sb s dp).size % 16 = 0 := (inv.disk.dirs _ on.isDir).whole

theorem dirlink_map (geo : Geometry sb) (inv : FsInv sb held (fun _ => False) s)
    (on : OnDir sb s dp) (unique : (dirNode sb s dp).Unique) (name : Bytes) {inum : Nat}
    (proper : 0 < inum ∧ inum < sb.ninodes ∧ inum < 2 ^ 16) :
    wp (dirlink sb dp name inum) (fun e => e = .igetNoInodes ∧ TableFull s)
      (fun r s' => (FsInv sb held (fun _ => False) s' ∧ OnDir sb s' dp ∧
          (dirNode sb s' dp).Unique) ∧
        (r = true → dirNode sb s' dp =
            (dirNode sb s dp).writeEnt (dirNode sb s dp).firstFree (mkDirent inum name) ∧
          ∀ name', (dirNode sb s' dp).map name' =
            if nameKey name' = nameKey name then some inum else (dirNode sb s dp).map name') ∧
        (r = false → (dirNode sb s' dp).map = (dirNode sb s dp).map)) s := by
  have whole := on.whole_dir inv
  have range : inum % 2 ^ 16 < sb.ninodes := by
    rw [Nat.mod_eq_of_lt proper.2.2]
    exact proper.2.1
  apply wp_post (dirlink_spec geo inv (guarded_none held s) on name inum range)
  rintro r t (⟨rfl, none, effect⟩ | ⟨rfl, effect⟩)
  · have after : ((view sb s).enter (s.itable dp).inum name inum).tree (s.itable dp).inum =
        (dirNode sb s dp).writeEnt (dirNode sb s dp).firstFree (mkDirent inum name) := by
      simp only [View.enter, upd_self]
      rfl
    obtain ⟨on', inum'⟩ := on.effect effect (on.kept inv) (Nat.le_refl _)
      (by rw [after]; exact on.isDir)
    have node : dirNode sb t dp =
        (dirNode sb s dp).writeEnt (dirNode sb s dp).firstFree (mkDirent inum name) := by
      rw [dirNode, effect.tree, inum', after]
    refine ⟨⟨effect.inv, on', ?_⟩, fun _ => ⟨node, ?_⟩, fun no => by cases no⟩
    · rw [node]
      exact enter_unique whole unique none
    · intro name'
      rw [node]
      exact map_enter whole unique none (by omega) proper.2.2 name'
  · obtain ⟨on', inum'⟩ := on.effect effect (on.kept inv) (Nat.le_refl _) on.isDir
    have same : dirNode sb t dp = dirNode sb s dp := by
      rw [dirNode, effect.tree, inum']
      rfl
    refine ⟨⟨effect.inv, on', ?_⟩, ?_, ?_⟩
    · rw [same]
      exact unique
    · intro no
      cases no
    · intro _
      rw [same]

theorem clearEntry_map (geo : Geometry sb) (inv : FsInv sb held (fun _ => False) s)
    (on : OnDir sb s dp) (unique : (dirNode sb s dp).Unique) (name : Bytes) :
    wp (clearEntry sb dp name) (fun e => e = .igetNoInodes ∧ TableFull s)
      (fun r s' => (FsInv sb held (fun _ => False) s' ∧ OnDir sb s' dp ∧
          (dirNode sb s' dp).Unique) ∧
        (r = true ↔ (dirNode sb s dp).map name ≠ none) ∧
        ∀ name', (dirNode sb s' dp).map name' =
          if nameKey name' = nameKey name then none else (dirNode sb s dp).map name') s := by
  have whole := on.whole_dir inv
  simp only [clearEntry, wp_bind]
  apply wp_post (dirlookup_spec geo inv on name)
  intro r t found
  have node : nodes sb s.disk (s.itable dp).inum = dirNode sb s dp := rfl
  rw [node] at found
  cases hit : (dirNode sb s dp).lookup name with
  | none =>
      simp only [Found, hit] at found
      obtain ⟨rfl, rfl⟩ := found
      have absent : (dirNode sb t dp).map name = none := by simp only [Node.map, hit, Option.map_none]
      refine ⟨⟨inv, on, unique⟩, by simp [absent], ?_⟩
      intro name'
      by_cases here : nameKey name' = nameKey name
      · rw [if_pos here, map_eq_none unique, here]
        exact (map_eq_none unique).mp absent
      · rw [if_neg here]
  | some k =>
      simp only [Found, hit] at found
      obtain ⟨b, rfl, got⟩ := found
      obtain ⟨inside, -⟩ := lookup_eq_some.mp hit
      have looked : Looked sb held (bump held b) (fun _ => False) s t :=
        got.looked inv fun _ => Nat.le_refl _
      have first : Effect sb held (bump held b) (fun _ => False) [] 0 s (view sb s) t := looked.effect
      obtain ⟨on₁, inum₁⟩ := on.effect first (on.kept inv) (le_bump held b dp) on.isDir
      have node₁ : nodes sb t.disk (t.itable dp).inum = dirNode sb s dp := by
        rw [inum₁, looked.only.disk]
        rfl
      have size : 16 * k + 16 ≤ (dirNode sb s dp).size := by
        have count := on.whole inv
        rw [node] at count
        omega
      simp only [wp_bind]
      apply wp_mono (writeEntry_spec geo got.inv on₁.bound on₁.pos on₁.valid on₁.isDir (fun _ => 0)
        (k := k) (by rw [node₁]; omega) geo.positive) _ (fun e no => no.elim)
      rw [node₁]
      rintro r u (⟨rfl, altered⟩ | ⟨-, short, -⟩)
      · simp only [wp_ite, wp_throw, wp_bind, wp_pure]
        refine ⟨fun bad => absurd rfl bad, fun _ => ?_⟩
        apply wp_mono (iput_back geo altered.inv (guarded_none held u) got.bound held) _
          (fun e no => no.elim)
        intro _ w back
        have second : Effect sb held (bump held b) (fun _ => False) [(t.itable dp).inum] 2 t
          ((view sb t).setNode (t.itable dp).inum ((dirNode sb s dp).writeEnt k fun _ => 0)) u :=
          altered.effect
        have third : Effect sb held held (fun _ => False) [(t.itable dp).inum] 0 u (view sb u) w :=
          back.effect
        have both := (looked.then second).trans third
        have after : (view sb u).tree (s.itable dp).inum =
            (dirNode sb s dp).writeEnt k fun _ => 0 := by
          simp only [view, second.tree, View.setNode, inum₁, upd_self]
        obtain ⟨on₂, inum₂⟩ := on.effect both (on.kept inv) (Nat.le_refl _) (by
          rw [after]
          exact on.isDir)
        have node₂ : dirNode sb w dp = (dirNode sb s dp).writeEnt k fun _ => 0 := by
          rw [dirNode, both.tree, inum₂, after]
        have present : (dirNode sb s dp).map name ≠ none := by
          simp only [Node.map, hit, Option.map_some, ne_eq, reduceCtorEq, not_false_eq_true]
        refine ⟨⟨back.inv, on₂, ?_⟩, by simp [present], ?_⟩
        · rw [node₂]
          exact clear_unique whole unique inside
        · intro name'
          rw [node₂]
          exact map_clear whole unique hit name'
      · omega

/-- What holds of a directory at any time. -/
structure DirLaws (sb : Superblock) (s : FsState) (dp : Nat) : Prop where
  distinct : ∀ j k, j < (dirNode sb s dp).nents → k < (dirNode sb s dp).nents →
    (dirNode sb s dp).entInum j ≠ 0 → (dirNode sb s dp).entInum k ≠ 0 →
    (∀ l, l < DIRSIZ → (dirNode sb s dp).entName j l = (dirNode sb s dp).entName k l) → j = k
  lookup : ∀ name, wp (dirlookup sb dp name) (fun e => e = .igetNoInodes ∧ TableFull s)
    (fun r s' => nodes sb s'.disk = nodes sb s.disk ∧
      (r = none ↔ ∀ k, k < (dirNode sb s dp).nents → (dirNode sb s dp).entInum k ≠ 0 →
        nameKey ((dirNode sb s dp).entName k) ≠ nameKey name) ∧
      ∀ a off, r = some (a, off) → ∃ k, off = 16 * k ∧ k < (dirNode sb s dp).nents ∧
        (dirNode sb s dp).entInum k ≠ 0 ∧
        nameKey ((dirNode sb s dp).entName k) = nameKey name ∧
        (s'.itable a).inum = (dirNode sb s dp).entInum k) s
  link : ∀ name inum, 0 < inum ∧ inum < sb.ninodes ∧ inum < 2 ^ 16 →
    wp (dirlink sb dp name inum) (fun e => e = .igetNoInodes ∧ TableFull s)
      (fun r s' =>
        (r = true → dirNode sb s' dp =
            (dirNode sb s dp).writeEnt (dirNode sb s dp).firstFree (mkDirent inum name) ∧
          ∀ name', (dirNode sb s' dp).map name' =
            if nameKey name' = nameKey name then some inum else (dirNode sb s dp).map name') ∧
        (r = false → (dirNode sb s' dp).map = (dirNode sb s dp).map)) s
  clear : ∀ name, wp (clearEntry sb dp name) (fun e => e = .igetNoInodes ∧ TableFull s)
    (fun r s' => (r = true ↔ (dirNode sb s dp).map name ≠ none) ∧
      ∀ name', (dirNode sb s' dp).map name' =
        if nameKey name' = nameKey name then none else (dirNode sb s dp).map name') s

theorem dirLaws_of_unique (geo : Geometry sb) (inv : FsInv sb held (fun _ => False) s)
    (on : OnDir sb s dp) (unique : (dirNode sb s dp).Unique) : DirLaws sb s dp where
  distinct j k insideJ insideK usedJ usedK same :=
    unique j k insideJ insideK usedJ usedK (nameKey_congr same)
  lookup name := by
    apply wp_post (dirlookup_spec geo inv on name)
    intro r t found
    have node : nodes sb s.disk (s.itable dp).inum = dirNode sb s dp := rfl
    rw [node] at found
    cases hit : (dirNode sb s dp).lookup name with
    | none =>
        simp only [Found, hit] at found
        obtain ⟨rfl, rfl⟩ := found
        have absent : (dirNode sb t dp).map name = none := by
          simp only [Node.map, hit, Option.map_none]
        exact ⟨rfl, ⟨fun _ => (map_eq_none unique).mp absent, fun _ => rfl⟩,
          fun a off no => by cases no⟩
    | some k =>
        simp only [Found, hit] at found
        obtain ⟨b, rfl, got⟩ := found
        obtain ⟨inside, used, -⟩ := lookup_eq_some.mp hit
        obtain ⟨used, same⟩ := hit_iff.mp used
        refine ⟨by rw [got.only.disk], ⟨fun no => (by cases no), ?_⟩, ?_⟩
        · intro all
          exact absurd same.symm (all k inside used)
        · intro a off eq
          obtain ⟨rfl, rfl⟩ := Prod.mk.inj (Option.some.inj eq)
          exact ⟨k, rfl, inside, used, same.symm, got.inum⟩
  link name inum proper :=
    wp_post (dirlink_map geo inv on unique name proper) fun _ _ result => result.2
  clear name := wp_post (clearEntry_map geo inv on unique name) fun _ _ result => result.2

/-- A directory made with `.` and `..` stays a finite map under every sequence of entries
added by `dirlink` and cleared by `sys_unlink`. -/
theorem directory_is_map (geo : Geometry sb) (r : Run (dirStep sb dp))
    (inv : FsInv sb held (fun _ => False) (r.state 0)) (on : OnDir sb (r.state 0) dp)
    (dots : DotsOnly (dirNode sb (r.state 0) dp))
    (proper : ∀ i, i < r.len → (r.event i).Proper sb) :
    ∀ i, i ≤ r.len → DirLaws sb (r.state i) dp := by
  have every := r.invariant_of (fun _ op => op.Proper sb)
    (fun s => FsInv sb held (fun _ => False) s ∧ OnDir sb s dp ∧ (dirNode sb s dp).Unique)
    ⟨inv, on, dots.unique⟩ ?_ proper
  · intro i within
    obtain ⟨inv', on', unique⟩ := every i within
    exact dirLaws_of_unique geo inv' on' unique
  · rintro s op s' moved good ⟨inv', on', unique⟩
    unfold dirStep at moved
    cases result : runDirOp sb dp op s with
    | error e => simp [result] at moved
    | ok pair =>
        simp only [result, Option.some.injEq] at moved
        subst moved
        cases op with
        | link name inum => exact (wp_ok (dirlink_map geo inv' on' unique name good) result).1
        | clear name => exact (wp_ok (clearEntry_map geo inv' on' unique name) result).1

end History

def rootLocked : FsState :=
  setInode 0 { mkfsState.itable 0 with locked := true, valid := true, din := rootDinode } mkfsState

theorem rootLocked_inv : FsInv mkfsSb (fun _ => 0) (fun _ => False) rootLocked := by
  refine mkfs_inv.setEntry rfl rfl (fun _ => rfl) fun _ _ => ⟨?_, by decide⟩
  exact mkfs_root.symm

theorem rootLocked_on : OnDir mkfsSb rootLocked 0 := by
  refine ⟨by decide, by decide, rfl, ?_⟩
  have node : nodes mkfsSb rootLocked.disk (rootLocked.itable 0).inum =
      nodes mkfsSb mkfsDisk ROOTINO := rfl
  rw [node, mkfs_node]

theorem rootLocked_dots : DotsOnly (dirNode mkfsSb rootLocked 0) := by
  have node : dirNode mkfsSb rootLocked 0 =
      ⟨T_DIR, 0, 0, 1, BSIZE, fun o => if o < BSIZE then rootBlock o else 0⟩ := mkfs_node
  rw [node]
  refine ⟨by decide, by decide, by decide, ?_⟩
  intro k low high
  have near : k < 64 := high
  simp only [Node.entInum]
  rw [rootBlock_inum near, if_neg (by omega)]

def longName : Bytes := charName (List.replicate 16 97)

def linkTwice : List DirOp := [.link longName 1, .link longName 1, .clear longName]

theorem linkTwice_laws : ∃ r : Run (dirStep mkfsSb 0), r.len = 3 ∧
    r.state 0 = rootLocked ∧ ∀ i, i ≤ r.len → DirLaws mkfsSb (r.state i) 0 := by
  have runs : (exec (dirStep mkfsSb 0) rootLocked linkTwice).isSome := by decide +kernel
  have first : (Run.ofEvents (dirStep mkfsSb 0) rootLocked linkTwice (.clear longName) runs).state 0 =
      rootLocked := by
    simp [Run.ofEvents, passed_head]
  refine ⟨Run.ofEvents (dirStep mkfsSb 0) rootLocked linkTwice (.clear longName) runs, rfl, first, ?_⟩
  apply directory_is_map mkfs_geometry
  · rw [first]
    exact rootLocked_inv
  · rw [first]
    exact rootLocked_on
  · rw [first]
    exact rootLocked_dots
  · intro i bound
    have all : ∀ op ∈ linkTwice, op.Proper mkfsSb := by
      intro op member
      simp only [linkTwice, List.mem_cons, List.not_mem_nil, or_false] at member
      rcases member with rfl | rfl | rfl
      · exact ⟨by decide, by decide⟩
      · exact ⟨by decide, by decide⟩
      · trivial
    exact all _ (Run.ofEvents_mem (dirStep mkfsSb 0) rootLocked linkTwice (.clear longName) runs i
      bound)

end Xv6Fcfs.Fs
