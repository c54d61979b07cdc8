import Xv6Fcfs.Sys.Atomic
import Xv6Fcfs.Sys.Machine

/-!
# Who owns a page

`own` tells for each page what it is used for; `Owned` ties it to the system: the free list,
the page tables, the trap frames, the pipes and the arguments of `sys_exec` are just the pages
that `own` says.  Since `own` is a function, a page has one use.  The pages that a running call
has taken and not yet placed are its list `C`.
-/

set_option autoImplicit false

namespace Xv6Fcfs.Sys

open Xv6Fcfs.Lib Xv6Fcfs.Vm Xv6Fcfs.Fs

inductive Owner where
  /-- Not a page of the allocator. -/
  | outside
  | free
  | fixed
  | table (i : Nat)
  | leaf (i : Nat)
  | frame (i : Nat)
  | args (i : Nat)
  | pipe
  | call
  deriving DecidableEq

/-- The pages of a slot beside its tables: the user's, and the trap frame. -/
def Task.memory (t : Task) (L : Finset Nat) : Finset Nat :=
  match t.trapframe with
  | none => L
  | some f => insert f L

/-- The tables `T` and the user pages `L` of a slot. -/
inductive Spaced (tramp : Nat) (v : Phys) (t : Task) : Finset Nat → Finset Nat → Prop where
  | empty (frame : t.trapframe = none) (table : t.pagetable = none) : Spaced tramp v t ∅ ∅
  | space (root f : Nat) (T L : Finset Nat) (M : Nat → Option Nat) (frame : t.trapframe = some f)
      (table : t.pagetable = some root) (inv : SpaceInv tramp v ⟨root, t.sz, f⟩ T L M) :
      Spaced tramp v t T L

/-- The pages of slot `i`. -/
structure SlotOwns (tramp : Nat) (own : Nat → Owner) (v : Phys) (i : Nat) (t : Task)
    (T L : Finset Nat) : Prop where
  frame : ∀ q, own q = .frame i ↔ t.trapframe = some q
  table : ∀ q, own q = .table i ↔ q ∈ T
  leaf : ∀ q, own q = .leaf i ↔ q ∈ L
  spaced : Spaced tramp v t T L

/-- The pages of the arguments that slot `i` has fetched. -/
structure ArgsOwn (own : Nat → Owner) (i : Nat) (e : Option Fetched) : Prop where
  pages : ∀ q, own q = .args i ↔ ∃ fetched, e = some fetched ∧ q ∈ fetched.argv.map Prod.fst
  nodup : ∀ fetched, e = some fetched → (fetched.argv.map Prod.fst).Nodup
  short : ∀ fetched, e = some fetched → ∀ a, a ∈ fetched.argv → a.2.length < PGSIZE

/-- The pages `fixed` of the kernel, and processes that are left as they are: the slots `slot`
with their pages. -/
structure Guard where
  fixed : Finset Nat
  slot : Nat → Prop
  own : Nat → Owner
  mem : Nat → Bytes
  task : Nat → Task

def Guard.Covers (G : Guard) (o : Owner) : Prop :=
  ∃ j, G.slot j ∧ (o = .table j ∨ o = .leaf j ∨ o = .frame j)

structure Owned (tramp : Nat) (G : Guard) (own : Nat → Owner) (C : List Nat) (s : System) :
    Prop where
  text : tramp < s.phys.low
  nodup : s.phys.free.Nodup
  free : ∀ q, own q = .free ↔ q ∈ s.phys.free
  outside : ∀ q, own q = .outside ↔ ¬ (s.phys.low ≤ q ∧ q < PHYSTOP / PGSIZE)
  fixed : ∀ q, own q = .fixed ↔ q ∈ G.fixed
  slots : ∀ i, ∃ T L, SlotOwns tramp own s.phys i (s.task i) T L
  args : ∀ i, ArgsOwn own i (s.exec i)
  pipe : ∀ q, own q = .pipe ↔ (s.ends q).readopen = true ∨ (s.ends q).writeopen = true
  calls : ∀ q, own q = .call ↔ q ∈ C
  taken : C.Nodup
  guard : ∀ q, G.Covers (G.own q) → own q = G.own q ∧ s.phys.mem q = G.mem q

/-- Every page has one use, and the running call has the pages `C`. -/
def Paged (tramp : Nat) (G : Guard) (C : List Nat) (s : System) : Prop :=
  ∃ own, Owned tramp G own C s

section Change
variable {tramp : Nat} {G : Guard} {own own' : Nat → Owner} {C C' : List Nat} {s s' : System}
  {v v' : Phys} {i : Nat} {t : Task} {T L A B : Finset Nat}

theorem Owned.range (inv : Owned tramp G own C s) {q : Nat} (inside : own q ≠ .outside) :
    s.phys.low ≤ q ∧ q < PHYSTOP / PGSIZE := by
  by_contra out
  exact inside ((inv.outside q).mpr out)

theorem SlotOwns.memory (slot : SlotOwns tramp own v i t T L) (q : Nat) :
    q ∈ t.memory L ↔ own q = .frame i ∨ own q = .leaf i := by
  rw [slot.frame, slot.leaf, Task.memory]
  cases t.trapframe with
  | none => simp
  | some f => rw [Finset.mem_insert, Option.some.injEq, eq_comm]

theorem sets_of_owners (nodup : v.free.Nodup) (free : ∀ q, own q = .free ↔ q ∈ v.free)
    (range : ∀ q, own q ≠ .outside → v.low ≤ q ∧ q < PHYSTOP / PGSIZE) {P Q : Owner → Prop}
    (tables : ∀ q, q ∈ T ↔ P (own q)) (pages : ∀ q, q ∈ L ↔ Q (own q)) (apart : ∀ o, P o → ¬ Q o)
    (notP : ¬ P .free ∧ ¬ P .outside) (notQ : ¬ Q .free ∧ ¬ Q .outside) : Sets v T L := by
  refine ⟨nodup, ?_, ?_, ?_, ?_⟩
  · rintro q (isFree | inT | inL)
    · exact range q (by rw [(free q).mpr isFree]; decide)
    · exact range q fun out => notP.2 (out ▸ (tables q).mp inT)
    · exact range q fun out => notQ.2 (out ▸ (pages q).mp inL)
  · exact fun q isFree inT => notP.1 ((free q).mpr isFree ▸ (tables q).mp inT)
  · exact fun q isFree inL => notQ.1 ((free q).mpr isFree ▸ (pages q).mp inL)
  · exact fun q inT inL => apart (own q) ((tables q).mp inT) ((pages q).mp inL)

theorem Owned.sets (inv : Owned tramp G own C s) (slot : SlotOwns tramp own s.phys i t T L) :
    Sets s.phys T (t.memory L) := by
  refine sets_of_owners (P := fun o => o = .table i)
    (Q := fun o => o = .frame i ∨ o = .leaf i) inv.nodup
    inv.free (fun q => inv.range) (fun q => (slot.table q).symm) slot.memory ?_ (by simp) (by simp)
  rintro o rfl (no | no) <;> cases no

/-! ## Moves -/

/-- Pages of the uses `K` get other uses of `K`. -/
def Moves (K : Owner → Prop) (own own' : Nat → Owner) : Prop :=
  ∀ q, own' q = own q ∨ (K (own q) ∧ K (own' q))

theorem Moves.iff {K : Owner → Prop} (moves : Moves K own own') {o : Owner} (still : ¬ K o) (q : Nat) :
    own' q = o ↔ own q = o := by
  rcases moves q with same | ⟨old, new⟩
  · rw [same]
  · exact iff_of_false (fun eq => still (eq ▸ new)) fun eq => still (eq ▸ old)

theorem SlotOwns.moved {K : Owner → Prop} (slot : SlotOwns tramp own v i t T L)
    (moves : Moves K own own')
    (still : ¬ K (.table i) ∧ ¬ K (.leaf i) ∧ ¬ K (.frame i))
    (mem : ∀ q, own q = .table i → v'.mem q = v.mem q) (nodup : v'.free.Nodup)
    (free : ∀ q, own' q = .free ↔ q ∈ v'.free)
    (range : ∀ q, own' q ≠ .outside → v'.low ≤ q ∧ q < PHYSTOP / PGSIZE) :
    SlotOwns tramp own' v' i t T L := by
  have table : ∀ q, own' q = .table i ↔ q ∈ T := fun q => (moves.iff still.1 q).trans (slot.table q)
  have leaf : ∀ q, own' q = .leaf i ↔ q ∈ L := fun q => (moves.iff still.2.1 q).trans (slot.leaf q)
  refine ⟨fun q => (moves.iff still.2.2 q).trans (slot.frame q), table, leaf, ?_⟩
  obtain ⟨-, oldTable, -, spaced⟩ := slot
  cases spaced with
  | empty frame none => exact .empty frame none
  | space root f T L M frame some inv =>
      refine .space root f T L M frame some (inv.rebase ?_ fun q inT => mem q ((oldTable q).mpr inT))
      exact sets_of_owners (P := fun o => o = .table i) (Q := fun o => o = .leaf i) nodup free range
        (fun q => (table q).symm) (fun q => (leaf q).symm) (by rintro o rfl ⟨⟩) (by simp) (by simp)

theorem Owned.move (inv : Owned tramp G own C s) (K : Owner → Prop) (moves : Moves K own own')
    (still : ¬ K .outside ∧ ¬ K .fixed) (clear : ∀ q, G.Covers (own q) → ¬ K (own q))
    (low : s'.phys.low = s.phys.low) (nodup : s'.phys.free.Nodup)
    (free : ∀ q, own' q = .free ↔ q ∈ s'.phys.free)
    (mem : ∀ q, ¬ K (own q) → s'.phys.mem q = s.phys.mem q)
    (slots : ∀ i, (¬ K (.table i) ∧ ¬ K (.leaf i) ∧ ¬ K (.frame i) ∧ s'.task i = s.task i) ∨
      ∃ T L, SlotOwns tramp own' s'.phys i (s'.task i) T L)
    (args : ∀ i, (¬ K (.args i) ∧ s'.exec i = s.exec i) ∨ ArgsOwn own' i (s'.exec i))
    (pipe : ∀ q, own' q = .pipe ↔ (s'.ends q).readopen = true ∨ (s'.ends q).writeopen = true)
    (calls : ∀ q, own' q = .call ↔ q ∈ C') (taken : C'.Nodup) : Owned tramp G own' C' s' := by
  have outside : ∀ q, own' q = .outside ↔ ¬ (s'.phys.low ≤ q ∧ q < PHYSTOP / PGSIZE) := by
    intro q
    rw [moves.iff still.1, low]
    exact inv.outside q
  refine ⟨by rw [low]; exact inv.text, nodup, free, outside, ?_, ?_, ?_, pipe, calls, taken, ?_⟩
  · exact fun q => (moves.iff still.2 q).trans (inv.fixed q)
  · intro i
    obtain ⟨notTable, notLeaf, notFrame, same⟩ | slot := slots i
    · obtain ⟨T, L, slot⟩ := inv.slots i
      rw [same]
      refine ⟨T, L, slot.moved moves ⟨notTable, notLeaf, notFrame⟩ ?_ nodup free ?_⟩
      · exact fun q table => mem q (by rw [table]; exact notTable)
      · intro q inside
        by_contra out
        exact inside ((outside q).mpr out)
    · exact slot
  · intro i
    obtain ⟨notArgs, same⟩ | args := args i
    · obtain ⟨pages, nodup, short⟩ := inv.args i
      rw [same]
      exact ⟨fun q => (moves.iff notArgs q).trans (pages q), nodup, short⟩
    · exact args
  · intro q covered
    obtain ⟨owner, bytes⟩ := inv.guard q covered
    have far : ¬ K (own q) := clear q (owner ▸ covered)
    refine ⟨?_, (mem q far).trans bytes⟩
    rcases moves q with same | ⟨moved, -⟩
    · exact same.trans owner
    · exact absurd moved far

theorem Owned.stay (inv : Owned tramp G own C s) (low : s'.phys.low = s.phys.low)
    (free : s'.phys.free = s.phys.free)
    (mem : ∀ q, (∃ i, own q = .table i) ∨ G.Covers (own q) → s'.phys.mem q = s.phys.mem q)
    (task : ∀ i, (s'.task i).trapframe = (s.task i).trapframe ∧
      (s'.task i).pagetable = (s.task i).pagetable ∧ (s'.task i).sz = (s.task i).sz)
    (exec : s'.exec = s.exec) (ends : s'.ends = s.ends) : Owned tramp G own C s' := by
  refine ⟨by rw [low]; exact inv.text, by rw [free]; exact inv.nodup, ?_, ?_, inv.fixed, ?_, ?_, ?_,
    inv.calls, inv.taken, ?_⟩
  · rw [free]
    exact inv.free
  · rw [low]
    exact inv.outside
  · intro i
    obtain ⟨sameFrame, sameTable, sameSize⟩ := task i
    obtain ⟨T, L, ⟨frame, table, leaf, spaced⟩⟩ := inv.slots i
    refine ⟨T, L, by rw [sameFrame]; exact frame, table, leaf, ?_⟩
    cases spaced with
    | empty frame none => exact .empty (sameFrame.trans frame) (sameTable.trans none)
    | space root f T L M frame some space =>
        refine .space root f T L M (sameFrame.trans frame) (sameTable.trans some) ?_
        rw [sameSize]
        refine space.rebase ⟨?_, ?_, ?_, ?_, space.apart⟩ fun q inT =>
          mem q (Or.inl ⟨i, (table q).mpr inT⟩)
        · rw [free]
          exact space.nodup
        · rw [free, low]
          exact space.range
        · rw [free]
          exact space.freeT
        · rw [free]
          exact space.freeL
  · rw [exec]
    exact inv.args
  · rw [ends]
    exact inv.pipe
  · intro q covered
    obtain ⟨owner, bytes⟩ := inv.guard q covered
    exact ⟨owner, (mem q (Or.inr (owner ▸ covered))).trans bytes⟩

/-! ## The pages of a slot -/

/-- The uses that an operation on slot `i` changes. -/
def OfSlot (i : Nat) (o : Owner) : Prop := o = .free ∨ o = .table i ∨ o = .leaf i ∨ o = .frame i

theorem Guard.clear (G : Guard) (spared : ¬ G.slot i) {o : Owner} : G.Covers o → ¬ OfSlot i o := by
  rintro ⟨j, inside, rfl | rfl | rfl⟩ (no | no | no | no) <;> cases no <;> exact spared inside

/-- Slot `i` has the tables `T`, the user pages `L` and the trap frame `f` now. -/
def relabel (own : Nat → Owner) (i : Nat) (free : List Nat) (T L : Finset Nat) (f : Option Nat) :
    Nat → Owner := fun q =>
  if q ∈ free then .free else if q ∈ T then .table i else if q ∈ L then .leaf i
  else if f = some q then .frame i else own q

theorem mem_memory (t : Task) (L : Finset Nat) (q : Nat) :
    q ∈ t.memory L ↔ q ∈ L ∨ t.trapframe = some q := by
  rw [Task.memory]
  cases t.trapframe with
  | none => simp
  | some f => rw [Finset.mem_insert, Option.some.injEq, or_comm, eq_comm]

theorem relabel_cases (own : Nat → Owner) (i : Nat) (free : List Nat) (T L : Finset Nat) (t : Task)
    (q : Nat) : (q ∈ free ∧ relabel own i free T L t.trapframe q = .free) ∨
    (q ∈ T ∧ relabel own i free T L t.trapframe q = .table i) ∨
    (q ∈ L ∧ relabel own i free T L t.trapframe q = .leaf i) ∨
    (t.trapframe = some q ∧ relabel own i free T L t.trapframe q = .frame i) ∨
    (¬ (q ∈ free ∨ q ∈ T ∨ q ∈ t.memory L) ∧ relabel own i free T L t.trapframe q = own q) := by
  unfold relabel
  rw [mem_memory]
  by_cases isFree : q ∈ free
  · exact Or.inl ⟨isFree, if_pos isFree⟩
  · rw [if_neg isFree]
    by_cases inT : q ∈ T
    · exact Or.inr (Or.inl ⟨inT, if_pos inT⟩)
    · rw [if_neg inT]
      by_cases inL : q ∈ L
      · exact Or.inr (Or.inr (Or.inl ⟨inL, if_pos inL⟩))
      · rw [if_neg inL]
        by_cases frame : t.trapframe = some q
        · exact Or.inr (Or.inr (Or.inr (Or.inl ⟨frame, if_pos frame⟩)))
        · refine Or.inr (Or.inr (Or.inr (Or.inr ⟨?_, if_neg frame⟩)))
          simp only [isFree, inT, inL, frame, or_self, not_false_eq_true]

/-- Slot `i` gets other pages, from the free list and from what it had. -/
theorem Owned.reslot (inv : Owned tramp G own C s)
    (clear : ∀ q, G.Covers (own q) → ¬ OfSlot i (own q))
    (slot : SlotOwns tramp own s.phys i (s.task i) T L)
    (sets : Sets v' A (t.memory B)) (apart : ∀ f, t.trapframe = some f → f ∉ B)
    (kept : Vm.Kept s.phys v' T A ((s.task i).memory L) (t.memory B)) (spaced : Spaced tramp v' t A B) :
    Paged tramp G C { s with phys := v', task := upd s.task i t } := by
  have cases' := relabel_cases own i v'.free A B t
  -- what was with slot `i` or free is so still
  have was : ∀ q, q ∈ v'.free ∨ q ∈ A ∨ q ∈ t.memory B ↔ OfSlot i (own q) := by
    intro q
    rw [kept.pages, ← inv.free, ← slot.table, slot.memory, OfSlot, or_comm (a := own q = .frame i)]
  have inside : ∀ q, q ∈ v'.free ∨ q ∈ A ∨ q ∈ B ∨ t.trapframe = some q → OfSlot i (own q) := by
    intro q new
    rw [← was, mem_memory]
    exact new
  have free : ∀ q, relabel own i v'.free A B t.trapframe q = .free ↔ q ∈ v'.free := by
    intro q
    refine ⟨fun label => ?_, fun isFree => if_pos isFree⟩
    rcases cases' q with ⟨isFree, -⟩ | ⟨-, other⟩ | ⟨-, other⟩ | ⟨-, other⟩ | ⟨out, same⟩
    · exact isFree
    · cases other.symm.trans label
    · cases other.symm.trans label
    · cases other.symm.trans label
    · rw [was] at out
      exact absurd (Or.inl (same.symm.trans label)) out
  have table : ∀ q, relabel own i v'.free A B t.trapframe q = .table i ↔ q ∈ A := by
    intro q
    refine ⟨fun label => ?_, fun inT => ?_⟩
    · rcases cases' q with ⟨-, other⟩ | ⟨inT, -⟩ | ⟨-, other⟩ | ⟨-, other⟩ | ⟨out, same⟩
      · cases other.symm.trans label
      · exact inT
      · cases other.symm.trans label
      · cases other.symm.trans label
      · rw [was] at out
        exact absurd (Or.inr (Or.inl (same.symm.trans label))) out
    · exact (if_neg fun isFree => sets.freeT q isFree inT).trans (if_pos inT)
  have notFree : ∀ q, q ∈ t.memory B → q ∉ v'.free ∧ q ∉ A := fun q mine =>
    ⟨fun isFree => sets.freeL q isFree mine, fun inT => sets.apart q inT mine⟩
  have leaf : ∀ q, relabel own i v'.free A B t.trapframe q = .leaf i ↔ q ∈ B := by
    intro q
    refine ⟨fun label => ?_, fun inL => ?_⟩
    · rcases cases' q with ⟨-, other⟩ | ⟨-, other⟩ | ⟨inL, -⟩ | ⟨-, other⟩ | ⟨out, same⟩
      · cases other.symm.trans label
      · cases other.symm.trans label
      · exact inL
      · cases other.symm.trans label
      · rw [was] at out
        exact absurd (Or.inr (Or.inr (Or.inl (same.symm.trans label)))) out
    · obtain ⟨noFree, noTable⟩ := notFree q ((mem_memory t B q).mpr (Or.inl inL))
      exact (if_neg noFree).trans ((if_neg noTable).trans (if_pos inL))
  have frame : ∀ q, relabel own i v'.free A B t.trapframe q = .frame i ↔ t.trapframe = some q := by
    intro q
    refine ⟨fun label => ?_, fun mine => ?_⟩
    · rcases cases' q with ⟨-, other⟩ | ⟨-, other⟩ | ⟨-, other⟩ | ⟨mine, -⟩ | ⟨out, same⟩
      · cases other.symm.trans label
      · cases other.symm.trans label
      · cases other.symm.trans label
      · exact mine
      · rw [was] at out
        exact absurd (Or.inr (Or.inr (Or.inr (same.symm.trans label)))) out
    · obtain ⟨noFree, noTable⟩ := notFree q ((mem_memory t B q).mpr (Or.inr mine))
      exact (if_neg noFree).trans ((if_neg noTable).trans ((if_neg (apart q mine)).trans (if_pos mine)))
  have moves : Moves (OfSlot i) own (relabel own i v'.free A B t.trapframe) := by
    intro q
    rcases cases' q with ⟨new, label⟩ | ⟨new, label⟩ | ⟨new, label⟩ | ⟨new, label⟩ | ⟨-, label⟩
    · exact Or.inr ⟨inside q (Or.inl new), Or.inl label⟩
    · exact Or.inr ⟨inside q (Or.inr (Or.inl new)), Or.inr (Or.inl label)⟩
    · exact Or.inr ⟨inside q (Or.inr (Or.inr (Or.inl new))), Or.inr (Or.inr (Or.inl label))⟩
    · exact Or.inr ⟨inside q (Or.inr (Or.inr (Or.inr new))), Or.inr (Or.inr (Or.inr label))⟩
    · exact Or.inl label
  have still : ∀ o : Owner, o ≠ .free → (∀ j, o ≠ .table j ∧ o ≠ .leaf j ∧ o ≠ .frame j) →
    ¬ OfSlot i o := by
    rintro o noFree noSlot (no | no | no | no)
    · exact noFree no
    · exact (noSlot i).1 no
    · exact (noSlot i).2.1 no
    · exact (noSlot i).2.2 no
  refine ⟨_, inv.move (OfSlot i) moves
    ⟨still _ (by decide) (by simp), still _ (by decide) (by simp)⟩ clear
    kept.low sets.nodup free ?_ ?_ ?_ ?_ ?_ inv.taken⟩
  · intro q far
    rw [← was, kept.pages, not_or, not_or] at far
    exact kept.frame q far.1 far.2.1 far.2.2
  · intro j
    by_cases here : j = i
    · subst here
      refine Or.inr ⟨A, B, ?_⟩
      simp only [upd_self]
      exact ⟨frame, table, leaf, spaced⟩
    · refine Or.inl ⟨?_, ?_, ?_, upd_of_ne here _ _⟩
      all_goals
        rintro (no | no | no | no) <;> cases no
        exact here rfl
  · exact fun j => Or.inl ⟨still _ (by simp) (by simp), rfl⟩
  · exact fun q => (moves.iff (still _ (by decide) (by simp)) q).trans (inv.pipe q)
  · exact fun q => (moves.iff (still _ (by decide) (by simp)) q).trans (inv.calls q)

/-- The process has another space now, of pages that were its own or free. -/
theorem Owned.became (inv : Owned tramp G own C s) (spared : ¬ G.slot i) {root f sz : Nat}
    (frame : (s.task i).trapframe = some f) (slot : SlotOwns tramp own s.phys i (s.task i) T L)
    (became : Became tramp s.phys v' ⟨root, sz, f⟩ T L) (table : (s.task i).pagetable = some root) :
    Paged tramp G C { s with phys := v', task := upd s.task i { s.task i with sz := sz } } := by
  obtain ⟨T', L', M', space, kept⟩ := became
  have mine := (slot.frame f).mpr frame
  have away : ¬ (f ∈ s.phys.free ∨ f ∈ T ∨ f ∈ L) := by
    rw [← inv.free, ← slot.table, ← slot.leaf, mine]
    simp
  obtain ⟨sets, kept', outside⟩ := space.toSets.beside kept (inv.range (by rw [mine]; simp)) away
  refine inv.reslot (fun _ => G.clear spared) slot (A := T') (B := L') ?_ ?_ ?_ ?_
  · simp only [Task.memory, frame]
    exact sets
  · intro g same
    obtain rfl := Option.some.inj (frame.symm.trans same)
    exact outside
  · simp only [Task.memory, frame]
    exact kept'
  · exact .space root f T' L' M' frame table space

/-! ## Single pages -/

def Loose (o : Owner) : Prop := o = .free ∨ o = .call ∨ o = .pipe ∨ ∃ j, o = .args j

theorem not_loose {o : Owner} (free : o ≠ .free) (call : o ≠ .call) (pipe : o ≠ .pipe)
    (args : ∀ j, o ≠ .args j) : ¬ Loose o := by
  rintro (no | no | no | ⟨j, no⟩)
  · exact free no
  · exact call no
  · exact pipe no
  · exact args j no

theorem Guard.loose (G : Guard) {o : Owner} : G.Covers o → ¬ Loose o := by
  rintro ⟨j, -, rfl | rfl | rfl⟩ <;> exact not_loose (by simp) (by simp) (by simp) (by simp)

theorem moves_upd {q : Nat} {o : Owner} (old : Loose (own q)) (new : Loose o) :
    Moves Loose own (upd own q o) := by
  intro x
  by_cases here : x = q
  · rw [here, upd_self]
    exact Or.inr ⟨old, new⟩
  · exact Or.inl (upd_of_ne here _ _)

theorem upd_iff {q x : Nat} {o o' : Owner} (new : o ≠ o') (old : own q ≠ o') :
    upd own q o x = o' ↔ own x = o' := by
  by_cases here : x = q
  · rw [here, upd_self]
    exact iff_of_false new old
  · rw [upd_of_ne here]

theorem ArgsOwn.upd {q : Nat} {o : Owner} {e : Option Fetched} (args : ArgsOwn own i e)
    (new : o ≠ .args i) (old : own q ≠ .args i) : ArgsOwn (Lib.upd own q o) i e :=
  ⟨fun x => (upd_iff new old).trans (args.pages x), args.nodup, args.short⟩

theorem Owned.pass (inv : Owned tramp G own C s) (moves : Moves Loose own own')
    (low : s'.phys.low = s.phys.low) (nodup : s'.phys.free.Nodup)
    (free : ∀ q, own' q = .free ↔ q ∈ s'.phys.free)
    (mem : ∀ q, ¬ Loose (own q) → s'.phys.mem q = s.phys.mem q) (task : s'.task = s.task)
    (args : ∀ i, ArgsOwn own' i (s'.exec i))
    (pipe : ∀ q, own' q = .pipe ↔ (s'.ends q).readopen = true ∨ (s'.ends q).writeopen = true)
    (calls : ∀ q, own' q = .call ↔ q ∈ C') (taken : C'.Nodup) : Owned tramp G own' C' s' := by
  refine inv.move Loose moves ⟨?_, ?_⟩ (fun _ => G.loose) low nodup free mem ?_
    (fun i => Or.inr (args i)) pipe calls taken
  · exact not_loose (by decide) (by decide) (by decide) (by simp)
  · exact not_loose (by decide) (by decide) (by decide) (by simp)
  · intro i
    refine Or.inl ⟨?_, ?_, ?_, by rw [task]⟩ <;>
      exact not_loose (by simp) (by simp) (by simp) (by simp)

theorem calls_cons (inv : Owned tramp G own C s) (q x : Nat) :
    upd own q .call x = .call ↔ x ∈ q :: C := by
  rw [List.mem_cons]
  by_cases here : x = q
  · rw [here, upd_self]
    exact iff_of_true rfl (Or.inl rfl)
  · rw [upd_of_ne here, inv.calls]
    exact ⟨Or.inr, fun old => old.resolve_left here⟩

theorem calls_erase (inv : Owned tramp G own C s) {q : Nat} {o : Owner} (new : o ≠ .call) (x : Nat) :
    upd own q o x = .call ↔ x ∈ C.erase q := by
  rw [inv.taken.mem_erase_iff]
  by_cases here : x = q
  · rw [here, upd_self]
    exact iff_of_false new fun both => both.1 rfl
  · rw [upd_of_ne here, inv.calls]
    exact ⟨fun old => ⟨here, old⟩, fun both => both.2⟩

theorem nodup_cons_of (inv : Owned tramp G own C s) {q : Nat} (other : own q ≠ .call) :
    (q :: C).Nodup := by
  rw [List.nodup_cons, ← inv.calls]
  exact ⟨other, inv.taken⟩

theorem loose_free (inv : Owned tramp G own C s) {q : Nat} (free : q ∈ s.phys.free) : Loose (own q) :=
  Or.inl ((inv.free q).mpr free)

theorem Paged.kalloc (paged : Paged tramp G C s) {E : Panic → Prop} :
    wp Vm.kalloc E (fun r v => (r = none ∧ Paged tramp G C { s with phys := v } ∧ v.low = s.phys.low) ∨
      ∃ q, r = some q ∧ Paged tramp G (q :: C) { s with phys := v } ∧ v.low = s.phys.low ∧
        q ∈ s.phys.free) s.phys := by
  obtain ⟨own, inv⟩ := paged
  refine wp_kalloc ?_ ?_
  · exact Or.inl ⟨rfl, ⟨own, inv.stay rfl rfl (fun _ _ => rfl) (fun _ => ⟨rfl, rfl, rfl⟩) rfl rfl⟩, rfl⟩
  · intro q rest list
    have nodup := inv.nodup
    rw [list] at nodup
    obtain ⟨gone, nodup'⟩ := List.nodup_cons.mp nodup
    have member : q ∈ s.phys.free := by rw [list]; exact List.mem_cons_self ..
    have isFree := (inv.free q).mpr member
    refine Or.inr ⟨q, rfl, ⟨upd own q .call, ?_⟩, rfl, member⟩
    refine inv.pass (moves_upd (loose_free inv member) (Or.inr (Or.inl rfl))) rfl nodup' ?_ ?_ rfl ?_ ?_
      (calls_cons inv q) (nodup_cons_of inv (by rw [isFree]; decide))
    · intro x
      by_cases here : x = q
      · rw [here, upd_self]
        exact iff_of_false (by decide) gone
      · rw [upd_of_ne here, inv.free, list, List.mem_cons]
        exact ⟨fun old => old.resolve_left here, Or.inr⟩
    · intro x far
      refine upd_of_ne ?_ _ _
      rintro rfl
      exact far (loose_free inv member)
    · exact fun j => (inv.args j).upd (by simp) (by rw [isFree]; simp)
    · exact fun x => (upd_iff (by decide) (by rw [isFree]; decide)).trans (inv.pipe x)

theorem Paged.kfree (paged : Paged tramp G C s) {q : Nat} (member : q ∈ C) {E : Panic → Prop} :
    wp (Vm.kfree (q * PGSIZE)) E
      (fun _ v => Paged tramp G (C.erase q) { s with phys := v } ∧ v.low = s.phys.low) s.phys := by
  obtain ⟨own, inv⟩ := paged
  have mine : own q = .call := (inv.calls q).mpr member
  have page : q * PGSIZE / PGSIZE = q := Nat.mul_div_cancel q (by decide)
  obtain ⟨low, high⟩ := inv.range (q := q) (by rw [mine]; decide)
  rw [wp_kfree (Nat.mul_mod_left q PGSIZE) (by rw [page]; exact low) (by rw [page]; exact high), page]
  have loose : Loose (own q) := Or.inr (Or.inl mine)
  refine ⟨⟨upd own q .free, ?_⟩, rfl⟩
  refine inv.pass (moves_upd loose (Or.inl rfl)) rfl ?_ ?_ ?_ rfl ?_ ?_ (calls_erase inv (by decide))
    (inv.taken.erase q)
  · refine List.nodup_cons.mpr ⟨?_, inv.nodup⟩
    rw [← inv.free, mine]
    decide
  · intro x
    rw [List.mem_cons]
    by_cases here : x = q
    · rw [here, upd_self]
      exact iff_of_true rfl (Or.inl rfl)
    · rw [upd_of_ne here, inv.free]
      exact ⟨Or.inr, fun new => new.resolve_left here⟩
  · intro x far
    refine upd_of_ne ?_ _ _
    rintro rfl
    exact far loose
  · exact fun j => (inv.args j).upd (by simp) (by rw [mine]; simp)
  · exact fun x => (upd_iff (by decide) (by rw [mine]; decide)).trans (inv.pipe x)

theorem Paged.write (paged : Paged tramp G C s) {q : Nat} (member : q ∈ C) (b : Bytes) :
    Paged tramp G C { s with phys := { s.phys with mem := upd s.phys.mem q b } } := by
  obtain ⟨own, inv⟩ := paged
  refine ⟨own, inv.stay rfl rfl ?_ (fun _ => ⟨rfl, rfl, rfl⟩) rfl rfl⟩
  intro x used
  refine upd_of_ne ?_ _ _
  rintro rfl
  rw [(inv.calls x).mpr member] at used
  rcases used with ⟨i, no⟩ | covered
  · cases no
  · exact G.loose covered (Or.inr (Or.inl rfl))

/-! ## Pipes -/

def Ends.opened (e : Ends) : Prop := e.readopen = true ∨ e.writeopen = true

theorem pipe_upd (inv : Owned tramp G own C s) {q : Nat} {o : Owner} {e : Ends}
    (new : o = .pipe ↔ e.opened) (x : Nat) :
    upd own q o x = .pipe ↔ (upd s.ends q e x).readopen = true ∨
      (upd s.ends q e x).writeopen = true := by
  by_cases here : x = q
  · rw [here, upd_self, upd_self]
    exact new
  · rw [upd_of_ne here, upd_of_ne here]
    exact inv.pipe x

theorem Paged.openPipe (paged : Paged tramp G C s) {q : Nat} (member : q ∈ C) {e : Ends}
    (opened : e.opened) : Paged tramp G (C.erase q) { s with ends := upd s.ends q e } := by
  obtain ⟨own, inv⟩ := paged
  have mine : own q = .call := (inv.calls q).mpr member
  refine ⟨upd own q .pipe, inv.pass
    (moves_upd (Or.inr (Or.inl mine)) (Or.inr (Or.inr (Or.inl rfl)))) rfl
    inv.nodup ?_ (fun _ _ => rfl) rfl ?_ ?_ (calls_erase inv (by decide)) (inv.taken.erase q)⟩
  · exact fun x => (upd_iff (by decide) (by rw [mine]; decide)).trans (inv.free x)
  · exact fun j => (inv.args j).upd (by simp) (by rw [mine]; simp)
  · exact pipe_upd inv (iff_of_true rfl opened)

theorem Paged.shutPipe (paged : Paged tramp G C s) {q : Nat} {e : Ends} (opened : (s.ends q).opened)
    (closed : ¬ e.opened) : Paged tramp G (q :: C) { s with ends := upd s.ends q e } := by
  obtain ⟨own, inv⟩ := paged
  have pipe : own q = .pipe := (inv.pipe q).mpr opened
  refine ⟨upd own q .call, inv.pass
    (moves_upd (Or.inr (Or.inr (Or.inl pipe))) (Or.inr (Or.inl rfl))) rfl
    inv.nodup ?_ (fun _ _ => rfl) rfl ?_ ?_ (calls_cons inv q)
      (nodup_cons_of inv (by rw [pipe]; decide))⟩
  · exact fun x => (upd_iff (by decide) (by rw [pipe]; decide)).trans (inv.free x)
  · exact fun j => (inv.args j).upd (by simp) (by rw [pipe]; simp)
  · exact pipe_upd inv (iff_of_false (by decide) closed)

theorem Paged.halfPipe (paged : Paged tramp G C s) {q : Nat} {e : Ends} (opened : (s.ends q).opened)
    (still : e.opened) : Paged tramp G C { s with ends := upd s.ends q e } := by
  obtain ⟨own, inv⟩ := paged
  have pipe : own q = .pipe := (inv.pipe q).mpr opened
  refine ⟨own, inv.pass (fun x => Or.inl rfl) rfl inv.nodup inv.free (fun _ _ => rfl) rfl inv.args ?_
    inv.calls inv.taken⟩
  intro x
  simp only
  by_cases here : x = q
  · rw [here, upd_self]
    exact iff_of_true pipe still
  · rw [upd_of_ne here]
    exact inv.pipe x

/-! ## Arguments -/

/-- The pages `Q` of the call get the use `o`. -/
def regroup (own : Nat → Owner) (Q : List Nat) (o : Owner) : Nat → Owner := fun q =>
  if q ∈ Q then o else own q

theorem Paged.keepArgs {fetched : Fetched} (paged : Paged tramp G (fetched.argv.map Prod.fst) s)
    (none : s.exec i = none) (short : ∀ a, a ∈ fetched.argv → a.2.length < PGSIZE) :
    Paged tramp G [] { s with exec := upd s.exec i (some fetched) } := by
  obtain ⟨own, inv⟩ := paged
  have mine := inv.calls
  have noArgs : ∀ q, own q ≠ .args i := by
    intro q args
    obtain ⟨_, no, -⟩ := ((inv.args i).pages q).mp args
    rw [none] at no
    cases no
  have others : ∀ {o : Owner}, o ≠ .call → o ≠ .args i → ∀ q,
      regroup own (fetched.argv.map Prod.fst) (.args i) q = o ↔ own q = o := by
    intro o notCall notArgs q
    unfold regroup
    split
    · next member =>
      rw [(mine q).mpr member]
      exact iff_of_false notArgs.symm notCall.symm
    · exact Iff.rfl
  have args : ∀ q, regroup own (fetched.argv.map Prod.fst) (.args i) q = .args i ↔
      q ∈ fetched.argv.map Prod.fst := by
    intro q
    unfold regroup
    split
    · next member => exact iff_of_true rfl member
    · next out => exact iff_of_false (noArgs q) out
  refine ⟨regroup own (fetched.argv.map Prod.fst) (.args i), inv.pass ?_ rfl inv.nodup ?_
    (fun _ _ => rfl) rfl ?_ ?_ ?_ List.nodup_nil⟩
  · intro q
    unfold regroup
    split
    · next member =>
      exact Or.inr ⟨Or.inr (Or.inl ((mine q).mpr member)), Or.inr (Or.inr (Or.inr ⟨i, rfl⟩))⟩
    · exact Or.inl rfl
  · exact fun q => (others (by decide) (by simp) q).trans (inv.free q)
  · intro j
    by_cases here : j = i
    · subst here
      simp only [upd_self]
      refine ⟨fun q => (args q).trans (by simp), fun other same => ?_, fun other same => ?_⟩
      · rw [← Option.some.inj same]
        exact inv.taken
      · rw [← Option.some.inj same]
        exact short
    · simp only [upd_of_ne here]
      obtain ⟨pages, nodup, short⟩ := inv.args j
      exact ⟨fun q => (others (by simp) (by simpa using here) q).trans (pages q), nodup, short⟩
  · exact fun q => (others (by decide) (by simp) q).trans (inv.pipe q)
  · intro q
    unfold regroup
    split
    · simp
    · next out => exact iff_of_false (fun call => out ((mine q).mp call)) List.not_mem_nil

theorem Paged.takeArgs {fetched : Fetched} (paged : Paged tramp G [] s)
    (has : s.exec i = some fetched) :
    Paged tramp G (fetched.argv.map Prod.fst) { s with exec := upd s.exec i none } := by
  obtain ⟨own, inv⟩ := paged
  obtain ⟨pages, nodup, -⟩ := inv.args i
  have member : ∀ q, own q = .args i ↔ q ∈ fetched.argv.map Prod.fst := by
    intro q
    rw [pages, has]
    simp
  have noCalls : ∀ q, own q ≠ .call := by
    intro q call
    have := (inv.calls q).mp call
    simp at this
  have others : ∀ {o : Owner}, o ≠ .call → o ≠ .args i → ∀ q,
      regroup own (fetched.argv.map Prod.fst) .call q = o ↔ own q = o := by
    intro o notCall notArgs q
    unfold regroup
    split
    · next here =>
      rw [(member q).mpr here]
      exact iff_of_false notCall.symm notArgs.symm
    · exact Iff.rfl
  refine ⟨regroup own (fetched.argv.map Prod.fst) .call, inv.pass ?_ rfl inv.nodup ?_
    (fun _ _ => rfl) rfl ?_ ?_ ?_ (nodup fetched has)⟩
  · intro q
    unfold regroup
    split
    · next here =>
      exact Or.inr ⟨Or.inr (Or.inr (Or.inr ⟨i, (member q).mpr here⟩)), Or.inr (Or.inl rfl)⟩
    · exact Or.inl rfl
  · exact fun q => (others (by decide) (by simp) q).trans (inv.free q)
  · intro j
    by_cases here : j = i
    · subst here
      simp only [upd_self]
      refine ⟨fun q => ?_, by rintro _ ⟨⟩, by rintro _ ⟨⟩⟩
      unfold regroup
      split
      · simp
      · next out =>
        exact iff_of_false (fun args => out ((member q).mp args))
          (by rintro ⟨_, no, -⟩; cases no)
    · simp only [upd_of_ne here]
      obtain ⟨pages, nodup, short⟩ := inv.args j
      exact ⟨fun q => (others (by simp) (by simpa using here) q).trans (pages q), nodup, short⟩
  · exact fun q => (others (by decide) (by simp) q).trans (inv.pipe q)
  · intro q
    unfold regroup
    split
    · next here => exact iff_of_true rfl here
    · next out => exact iff_of_false (noCalls q) out

end Change

end Xv6Fcfs.Sys
