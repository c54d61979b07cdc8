import Xv6Fcfs.Fs.Lookup

/-!
# What the parts of a call do to the tree

A `View` is what the file system stands for: the nodes, with the counts that tell the
inodes of one number apart.  `Effect` says of a part of a call which view it leaves, that
the invariant holds there and what it logged; the effects of parts in sequence compose.
-/

set_option autoImplicit false

namespace Xv6Fcfs.Fs

open Xv6Fcfs.Lib

@[ext]
structure View where
  tree : Nat → Node
  gen : Nat → Nat
  stamp : Nat → Nat → Nat

def view (sb : Superblock) (s : FsState) : View := ⟨nodes sb s.disk, s.gen, s.stamp⟩

namespace View

def setNode (v : View) (i : Nat) (n : Node) : View := { v with tree := upd v.tree i n }

def setLinks (v : View) (i nlink : Nat) : View := v.setNode i { v.tree i with nlink := nlink }

def alloc (v : View) (i type : Nat) : View :=
  { v with tree := upd v.tree i (freshNode type), gen := upd v.gen i (v.gen i + 1) }

/-- The name of an inode is entered in directory `d`. -/
def enter (v : View) (d : Nat) (name : Bytes) (inum : Nat) : View :=
  { v with
    tree := upd v.tree d ((v.tree d).writeEnt (v.tree d).firstFree (mkDirent inum name))
    stamp := upd v.stamp d (upd (v.stamp d) (16 * (v.tree d).firstFree) (v.gen inum)) }

/-- Entry `k` of directory `d` is cleared. -/
def clear (v : View) (d k : Nat) : View := v.setNode d ((v.tree d).writeEnt k fun _ => 0)

theorem setNode_self (v : View) (i : Nat) : v.setNode i (v.tree i) = v := by
  simp only [setNode, upd_eq_self]

section Fields
variable (v : View) (i d inum type : Nat) (n : Node) (name : Bytes)

@[simp] theorem setNode_tree : (v.setNode i n).tree = upd v.tree i n := rfl

@[simp] theorem setNode_gen : (v.setNode i n).gen = v.gen := rfl

@[simp] theorem setNode_stamp : (v.setNode i n).stamp = v.stamp := rfl

@[simp] theorem alloc_tree : (v.alloc i type).tree = upd v.tree i (freshNode type) := rfl

@[simp] theorem alloc_gen : (v.alloc i type).gen = upd v.gen i (v.gen i + 1) := rfl

@[simp] theorem alloc_stamp : (v.alloc i type).stamp = v.stamp := rfl

@[simp] theorem enter_tree : (v.enter d name inum).tree =
    upd v.tree d ((v.tree d).writeEnt (v.tree d).firstFree (mkDirent inum name)) := rfl

@[simp] theorem enter_gen : (v.enter d name inum).gen = v.gen := rfl

@[simp] theorem enter_stamp : (v.enter d name inum).stamp =
    upd v.stamp d (upd (v.stamp d) (16 * (v.tree d).firstFree) (v.gen inum)) := rfl

end Fields

end View

/-! ## Effects -/

abbrev idle : Nat → Nat := fun _ => 0

/-- Entries to which a reference is kept, an open file's, a working directory's or one of
`base`, stand for the same inode. -/
def Stays (base : Nat → Nat) (s s' : FsState) : Prop :=
  ∀ b, b < NINODE → 0 < uses s b + base b →
    (s'.itable b).inum = (s.itable b).inum ∧ ((s.itable b).valid = true → (s'.itable b).valid = true)

structure Effect (sb : Superblock) (base held : Nat → Nat) (loose : Nat → Prop) (is : List Nat)
    (k : Nat) (s : FsState) (v : View) (s' : FsState) : Prop where
  inv : FsInv sb held loose s'
  view : view sb s' = v
  ftable : s'.ftable = s.ftable
  proc : s'.proc = s.proc
  journal : s'.journal = s.journal
  logs : Logs sb is k s s'
  stays : Stays base s s'

/-- Only the inode table changed, and no entry that is still referred to. -/
structure Looked (sb : Superblock) (base held : Nat → Nat) (loose : Nat → Prop) (s s' : FsState) :
    Prop where
  inv : FsInv sb held loose s'
  only : OnlyTable s s'
  stays : Stays base s s'

section Effects
variable {sb : Superblock} {base held held' : Nat → Nat} {loose loose' : Nat → Prop}
  {is is' : List Nat} {k k' : Nat} {s t u : FsState} {v w : View} {a : Nat}

theorem uses_congr (ftable : t.ftable = s.ftable) (proc : t.proc = s.proc) (b : Nat) :
    uses t b = uses s b := by
  simp only [uses, ftable, proc]

theorem Stays.refl (base : Nat → Nat) (s : FsState) : Stays base s s := fun _ _ _ => ⟨rfl, id⟩

theorem Stays.trans (first : Stays base s t) (second : Stays base t u)
    (same : ∀ b, uses t b = uses s b) : Stays base s u := by
  intro b bound kept
  have one := first b bound kept
  have two := second b bound (by rwa [same b])
  exact ⟨two.1.trans one.1, fun valid => two.2 (one.2 valid)⟩

theorem Stays.mono {base' : Nat → Nat} (stays : Stays base s t) (less : ∀ b, base' b ≤ base b) :
    Stays base' s t := by
  intro b bound kept
  have fewer := less b
  exact stays b bound (by omega)

theorem Stays.of_kept (kept : ∀ b, Kept s t b) : Stays base s t :=
  fun b _ _ => ⟨(kept b).1, (kept b).2.1⟩

theorem Looked.refl (inv : FsInv sb held loose s) : Looked sb base held loose s s :=
  ⟨inv, OnlyTable.refl s, Stays.refl base s⟩

theorem Looked.trans (first : Looked sb base held loose s t)
    (second : Looked sb base held' loose' t u) : Looked sb base held' loose' s u :=
  ⟨second.inv, first.only.trans second.only, first.stays.trans second.stays first.only.uses⟩

theorem Looked.mono {base' : Nat → Nat} (looked : Looked sb base held loose s t)
    (less : ∀ b, base' b ≤ base b) : Looked sb base' held loose s t :=
  ⟨looked.inv, looked.only, looked.stays.mono less⟩

theorem Looked.view (looked : Looked sb base held loose s t) : Fs.view sb t = Fs.view sb s := by
  simp only [Fs.view, looked.only.disk, looked.only.gen, looked.only.stamp]

theorem Looked.effect {l : List Nat} (looked : Looked sb base held loose s t) :
    Effect sb base held loose l k s (Fs.view sb s) t :=
  ⟨looked.inv, looked.view, looked.only.ftable, looked.only.proc, looked.only.journal,
    Logs.of_log looked.only.log, looked.stays⟩

theorem Effect.refl (inv : FsInv sb held loose s) :
    Effect sb base held loose is k s (Fs.view sb s) s := (Looked.refl inv).effect

theorem Effect.trans (first : Effect sb base held loose is k s v t)
    (second : Effect sb base held' loose' is k' t w u) :
    Effect sb base held' loose' is (k + k') s w u where
  inv := second.inv
  view := second.view
  ftable := second.ftable.trans first.ftable
  proc := second.proc.trans first.proc
  journal := second.journal.trans first.journal
  logs := first.logs.trans second.logs
  stays := first.stays.trans second.stays (uses_congr first.ftable first.proc)

theorem Looked.then (looked : Looked sb base held loose s t)
    (second : Effect sb base held' loose' is k t w u) :
    Effect sb base held' loose' is k s w u := by
  have both := (looked.effect (l := is) (k := 0)).trans second
  rwa [Nat.zero_add] at both

theorem Effect.mono {c : Nat → Nat} {l : List Nat} (effect : Effect sb base held loose is k s v t)
    (less : ∀ b, c b ≤ base b) (wider : ∀ i, i ∈ is → i ∈ l) (more : k ≤ k') :
    Effect sb c held loose l k' s v t where
  inv := effect.inv
  view := effect.view
  ftable := effect.ftable
  proc := effect.proc
  journal := effect.journal
  logs := effect.logs.mono wider more
  stays := effect.stays.mono less

theorem Effect.look {base' : Nat → Nat} (effect : Effect sb base held loose is k s v t)
    (looked : Looked sb base' held' loose' t u) (less : ∀ b, base b ≤ base' b) :
    Effect sb base held' loose' is k s v u := by
  have both := effect.trans ((looked.effect (l := is) (k := 0)).mono less (fun _ h => h)
    (Nat.le_refl 0))
  rwa [effect.view] at both

/-- The effect of a second part, which keeps more references and logs less. -/
theorem Effect.and {base' : Nat → Nat} (effect : Effect sb base held loose is k s v t)
    (second : Effect sb base' held' loose' is' k' t w u) (less : ∀ b, base b ≤ base' b)
    (within : ∀ i, i ∈ is' → i ∈ is) : Effect sb base held' loose' is (k + k') s w u :=
  effect.trans (second.mono less within (Nat.le_refl k'))

theorem Effect.tree (effect : Effect sb base held loose is k s v t) :
    nodes sb t.disk = v.tree := congrArg View.tree effect.view

theorem Effect.uses (effect : Effect sb base held loose is k s v t) (b : Nat) :
    uses t b = Fs.uses s b := uses_congr effect.ftable effect.proc b

theorem Altered.effect {n : Node} (altered : Altered sb held loose s a n k t) :
    Effect sb base held loose [(s.itable a).inum] k s
      ((Fs.view sb s).setNode (s.itable a).inum n) t where
  inv := altered.inv
  view := View.ext altered.nodes altered.gen altered.stamp
  ftable := altered.ftable
  proc := altered.proc
  journal := altered.journal
  logs := altered.logs
  stays := Stays.of_kept altered.kept

end Effects

/-! ## References taken and given back -/

def Guarded (held : Nat → Nat) (loose : Nat → Prop) (s : FsState) : Prop :=
  ∀ i, loose i → ∃ a, a < NINODE ∧ (s.itable a).inum = i ∧ 0 < held a

section References
variable {sb : Superblock} {base held : Nat → Nat} {loose : Nat → Prop} {s t : FsState} {a : Nat}

theorem guarded_none (held : Nat → Nat) (s : FsState) : Guarded held (fun _ => False) s :=
  fun _ none => none.elim

theorem Guarded.stays (guard : Guarded held loose s) (stays : Stays held s t) :
    Guarded held loose t := by
  intro i strict
  obtain ⟨a, bound, inum, holds⟩ := guard i strict
  exact ⟨a, bound, (stays a bound (by omega)).1.trans inum, holds⟩

theorem Got.looked {inum : Nat} {c : Nat → Nat} (got : Got sb held loose s inum a t)
    (inv : FsInv sb held loose s)
    (less : ∀ b, c b ≤ held b) : Looked sb c (upd held a (held a + 1)) loose s t := by
  refine ⟨got.inv, got.only, ?_⟩
  intro b bound kept
  have fewer := less b
  have pos : 0 < (s.itable b).ref := by
    rw [inv.table.refs b bound]
    omega
  exact ⟨(got.kept b pos).1, (got.kept b pos).2.1⟩

theorem FsInv.not_lastRef_of_guarded (inv : FsInv sb (upd held a (held a + 1)) loose s)
    (guard : Guarded held loose s) (bound : a < NINODE) : ¬ lastRef s a := by
  have holds : 0 < upd held a (held a + 1) a := by
    rw [upd_self]
    omega
  by_cases strict : loose (s.itable a).inum
  · obtain ⟨b, index, inum, other⟩ := guard _ strict
    have pos := inv.table.ref_of_held bound holds
    have posB : 0 < (s.itable b).ref := by
      rw [inv.table.refs b index]
      by_cases here : b = a
      · rw [here, upd_self]
        omega
      · rw [upd_of_ne here]
        omega
    obtain rfl := inv.table.unique b a index bound posB pos inum
    have count := inv.table.refs b index
    rw [upd_self] at count
    rintro ⟨one, -, -⟩
    omega
  · exact inv.not_lastRef bound holds strict

theorem upd_back (held : Nat → Nat) (a : Nat) :
    upd (upd held a (held a + 1)) a (upd held a (held a + 1) a - 1) = held := by
  funext b
  by_cases here : b = a
  · rw [here, upd_self, upd_self]
    omega
  · rw [upd_of_ne here, upd_of_ne here]

theorem iput_back (geo : Geometry sb) (inv : FsInv sb (upd held a (held a + 1)) loose s)
    (guard : Guarded held loose s) (bound : a < NINODE) (base : Nat → Nat) :
    wp (iput sb a) (fun _ => False) (fun _ s' => Looked sb base held loose s s') s := by
  have alive := inv.not_lastRef_of_guarded guard bound
  apply wp_mono (iput_spec geo inv bound (by rw [upd_self]; omega)) _ (fun e stop => alive stop.2)
  intro _ s' put
  have back := put.inv
  rw [upd_back] at back
  refine ⟨back, ?_, ?_⟩
  · exact FsState.ext (put.disk alive) (put.log alive) put.journal rfl put.ftable put.proc put.gen
      put.stamp
  · intro b index _
    have kept := put.kept b (Or.inr alive)
    exact ⟨kept.1, kept.2.1⟩

end References

end Xv6Fcfs.Fs
