import Xv6Fcfs.Vm.Freewalk
import Xv6Fcfs.Vm.User

/-!
# Who has which page

An address space has its table pages `T` and its user pages `L`.  The operations on one
space move pages between `T`, `L` and the free list and touch no other page: `Holds` is the
state of a space beside the free list, and `Kept` says that no page came or went.
-/

set_option autoImplicit false

namespace Xv6Fcfs.Vm

open Xv6Fcfs.Lib

/-- The free list, `T` and `L` have no page in common. -/
structure Sets (s : Phys) (T L : Finset Nat) : Prop where
  nodup : s.free.Nodup
  range : ∀ p, p ∈ s.free ∨ p ∈ T ∨ p ∈ L → s.low ≤ p ∧ p < PHYSTOP / PGSIZE
  freeT : ∀ p, p ∈ s.free → p ∉ T
  freeL : ∀ p, p ∈ s.free → p ∉ L
  apart : ∀ p, p ∈ T → p ∉ L

/-- The table at `root` with the pages `T` maps the pages `L` below `TRAPFRAME`, each once. -/
structure Holds (s : Phys) (root : Nat) (T L : Finset Nat) (M : Nat → Option Nat) : Prop
    extends Sets s T L where
  pt : Pt s.mem root T M
  leaves : ∀ q, q ∈ L ↔
    ∃ va pte, va % PGSIZE = 0 ∧ va < TRAPFRAME ∧ M va = some pte ∧ leafPage pte = q
  once : ∀ va va' pte pte', va % PGSIZE = 0 → va' % PGSIZE = 0 → va < TRAPFRAME → va' < TRAPFRAME →
    M va = some pte → M va' = some pte' → leafPage pte = leafPage pte' → va = va'

/-- Pages have moved between the free list, the table and the user's memory only. -/
structure Kept (s s' : Phys) (T T' L L' : Finset Nat) : Prop where
  pages : ∀ p, (p ∈ s'.free ∨ p ∈ T' ∨ p ∈ L') ↔ (p ∈ s.free ∨ p ∈ T ∨ p ∈ L)
  frame : ∀ p, p ∉ s.free → p ∉ T → p ∉ L → s'.mem p = s.mem p
  low : s'.low = s.low

def SameData (s s' : Phys) (L L' : Finset Nat) : Prop :=
  ∀ p, p ∈ L → p ∈ L' → s'.mem p = s.mem p

section Basics
variable {s s' s'' : Phys} {root va : Nat} {T T' T'' L L' L'' : Finset Nat} {M M' : Nat → Option Nat}
  {E : Panic → Prop}

theorem Kept.refl (s : Phys) (T L : Finset Nat) : Kept s s T T L L :=
  ⟨fun _ => Iff.rfl, fun _ _ _ _ => rfl, rfl⟩

theorem Kept.trans (first : Kept s s' T T' L L') (second : Kept s' s'' T' T'' L' L'') :
    Kept s s'' T T'' L L'' := by
  refine ⟨fun p => (second.pages p).trans (first.pages p), ?_, second.low.trans first.low⟩
  intro p notFree notT notL
  have outside : ¬ (p ∈ s'.free ∨ p ∈ T' ∨ p ∈ L') := by
    rw [first.pages]
    rintro (h | h | h)
    · exact notFree h
    · exact notT h
    · exact notL h
  rw [not_or, not_or] at outside
  rw [second.frame p outside.1 outside.2.1 outside.2.2, first.frame p notFree notT notL]

theorem Holds.pool (holds : Holds s root T L M) : Pool s :=
  ⟨holds.nodup, fun p member => holds.range p (Or.inl member)⟩

theorem leafPage_entry {q perm : Nat} (small : q < PHYSTOP / PGSIZE) (flags : perm < 2 ^ 10) :
    leafPage (PA2PTE (q * PGSIZE) ||| perm ||| PTE_V) = q := by
  have bound : q * PGSIZE < 2 ^ 56 := by
    have top : PHYSTOP / PGSIZE = 0x88000 := by decide
    rw [top] at small
    simp only [PGSIZE]
    omega
  rw [leafPage, Nat.or_assoc, PTE2PA_entry (Nat.mul_mod_left q PGSIZE) bound
    (Nat.or_lt_two_pow flags (by decide))]
  exact Nat.mul_div_cancel q (by decide)

/-- The map may be given by any function that agrees on the addresses. -/
theorem Holds.mapCongr (holds : Holds s root T L M)
    (same : ∀ va, va % PGSIZE = 0 → va < MAXVA → M' va = M va) : Holds s root T L M' := by
  have user : ∀ va, va % PGSIZE = 0 → va < TRAPFRAME → M' va = M va := by
    intro va aligned small
    exact same va aligned (Nat.lt_trans small (by decide))
  refine ⟨holds.toSets, holds.pt.mapCongr same, ?_, ?_⟩
  · intro q
    rw [holds.leaves]
    constructor
    · rintro ⟨va, pte, aligned, small, mapped, page⟩
      exact ⟨va, pte, aligned, small, (user va aligned small).trans mapped, page⟩
    · rintro ⟨va, pte, aligned, small, mapped, page⟩
      exact ⟨va, pte, aligned, small, (user va aligned small).symm.trans mapped, page⟩
  · intro va va' pte pte' aligned aligned' small small' mapped mapped'
    rw [user va aligned small] at mapped
    rw [user va' aligned' small'] at mapped'
    exact holds.once va va' pte pte' aligned aligned' small small' mapped mapped'

theorem Sets.grown (sets : Sets s T L) (grown : Grown s s' root T T' M) :
    Sets s' T' L ∧ Kept s s' T T' L L ∧ SameData s s' L L := by
  have pool : Pool s := ⟨sets.nodup, fun p member => sets.range p (Or.inl member)⟩
  have freeT' := grown.apart pool sets.freeT
  have pool' := grown.pool pool
  obtain ⟨got, free, tables⟩ := grown.taken
  have pages : ∀ p, (p ∈ s'.free ∨ p ∈ T' ∨ p ∈ L) ↔ (p ∈ s.free ∨ p ∈ T ∨ p ∈ L) := by
    intro p
    rw [tables, Finset.mem_union, List.mem_toFinset, free, List.mem_append]
    tauto
  have apart' : ∀ p, p ∈ T' → p ∉ L := by
    intro p member
    rw [tables, Finset.mem_union, List.mem_toFinset] at member
    rcases member with old | new
    · exact sets.apart p old
    · exact sets.freeL p (by rw [free]; exact List.mem_append_left _ new)
  refine ⟨⟨pool'.nodup, ?_, freeT', ?_, apart'⟩, ⟨pages, ?_, grown.low⟩, ?_⟩
  · intro p member
    rw [grown.low]
    exact sets.range p ((pages p).mp member)
  · intro p member
    exact sets.freeL p (by rw [free]; exact List.mem_append_right _ member)
  · intro p notFree notT _
    refine grown.frame p ?_
    rw [tables, Finset.mem_union, List.mem_toFinset, not_or]
    refine ⟨notT, fun new => notFree ?_⟩
    rw [free]
    exact List.mem_append_left _ new
  · intro p member _
    exact grown.frame p fun inside => apart' p inside member

end Basics

/-! ## A page for the user -/

section Fresh
variable {s s' : Phys} {root va mem perm : Nat} {T T' L L' : Finset Nat} {M M' : Nat → Option Nat}
  {E : Panic → Prop} {rest : List Nat} {refusals : List Bool} {c : Bytes}

theorem moved_in {a b c d e f m : Prop} (pages : a ∨ b ∨ c ↔ d ∨ e ∨ f) :
    a ∨ b ∨ m ∨ c ↔ (m ∨ d) ∨ e ∨ f := by
  tauto

theorem moved_back {a b c d e f m : Prop} (pages : a ∨ b ∨ c ↔ d ∨ e ∨ f) :
    (m ∨ a) ∨ b ∨ c ↔ (m ∨ d) ∨ e ∨ f := by
  tauto

/-- The state after `kalloc` gave the page `mem` and it was filled. -/
def taken (s : Phys) (mem : Nat) (c : Bytes) (rest : List Nat) (refusals : List Bool) : Phys :=
  { s with mem := upd s.mem mem c, free := rest, refusals := refusals }

/-- The state after `kfree` of the page `mem`. -/
def givenBack (s : Phys) (mem : Nat) : Phys :=
  { s with mem := upd s.mem mem fun _ => 1, free := mem :: s.free }

theorem Sets.taken (sets : Sets s T L) (c : Bytes) (refusals : List Bool)
    (list : s.free = mem :: rest) :
    Sets (taken s mem c rest refusals) T L ∧ mem ∉ rest ∧ mem ∉ T ∧ mem ∉ L := by
  have first : mem ∈ s.free := by
    rw [list]
    exact List.mem_cons_self ..
  have later : ∀ p, p ∈ rest → p ∈ s.free := by
    intro p member
    rw [list]
    exact List.mem_cons_of_mem _ member
  have nodup := sets.nodup
  rw [list] at nodup
  obtain ⟨fresh, nodup⟩ := List.nodup_cons.mp nodup
  refine ⟨⟨nodup, ?_, fun p member => sets.freeT p (later p member),
    fun p member => sets.freeL p (later p member), sets.apart⟩,
    fresh, sets.freeT mem first, sets.freeL mem first⟩
  rintro p (member | member)
  · exact sets.range p (Or.inl (later p member))
  · exact sets.range p (Or.inr member)

theorem Holds.taken (holds : Holds s root T L M) (c : Bytes) (refusals : List Bool)
    (list : s.free = mem :: rest) : Holds (taken s mem c rest refusals) root T L M := by
  obtain ⟨sets, -, notT, -⟩ := holds.toSets.taken c refusals list
  refine ⟨sets, holds.pt.congr ?_, holds.leaves, holds.once⟩
  intro q member
  refine upd_of_ne ?_ _ _
  rintro rfl
  exact notT member

theorem Sets.givenBack (sets : Sets s T L) (range : s.low ≤ mem ∧ mem < PHYSTOP / PGSIZE)
    (notFree : mem ∉ s.free) (notT : mem ∉ T) (notL : mem ∉ L) : Sets (givenBack s mem) T L := by
  refine ⟨List.nodup_cons.mpr ⟨notFree, sets.nodup⟩, ?_, ?_, ?_, sets.apart⟩
  · rintro p (member | member)
    · rcases List.mem_cons.mp member with rfl | old
      · exact range
      · exact sets.range p (Or.inl old)
    · exact sets.range p (Or.inr member)
  · intro p member
    rcases List.mem_cons.mp member with rfl | old
    · exact notT
    · exact sets.freeT p old
  · intro p member
    rcases List.mem_cons.mp member with rfl | old
    · exact notL
    · exact sets.freeL p old

theorem Sets.insertLeaf (sets : Sets s T L) (range : s.low ≤ mem ∧ mem < PHYSTOP / PGSIZE)
    (notFree : mem ∉ s.free) (notT : mem ∉ T) : Sets s T (insert mem L) := by
  refine ⟨sets.nodup, ?_, sets.freeT, ?_, ?_⟩
  · intro p member
    rw [Finset.mem_insert] at member
    rcases member with old | old | rfl | old
    · exact sets.range p (Or.inl old)
    · exact sets.range p (Or.inr (Or.inl old))
    · exact range
    · exact sets.range p (Or.inr (Or.inr old))
  · intro p member
    rw [Finset.mem_insert, not_or]
    exact ⟨fun same => notFree (same ▸ member), sets.freeL p member⟩
  · intro p member
    rw [Finset.mem_insert, not_or]
    exact ⟨fun same => notT (same ▸ member), sets.apart p member⟩

theorem Holds.newLeaf (holds : Holds s root T L M) (aligned : va % PGSIZE = 0)
    (small : va < TRAPFRAME) (unmapped : M va = none) (range : mem < PHYSTOP / PGSIZE)
    (notL : mem ∉ L) (flags : perm < 2 ^ 10) (sets : Sets s' T' (insert mem L))
    (pt : Pt s'.mem root T' (upd M va (some (PA2PTE (mem * PGSIZE) ||| perm ||| PTE_V)))) :
    Holds s' root T' (insert mem L)
      (upd M va (some (PA2PTE (mem * PGSIZE) ||| perm ||| PTE_V))) := by
  have page := leafPage_entry range flags
  have notOld : ∀ va' pte, va' % PGSIZE = 0 → va' < TRAPFRAME → M va' = some pte →
      leafPage pte ≠ mem := by
    intro va' pte aligned' small' found same
    exact notL ((holds.leaves mem).mpr ⟨va', pte, aligned', small', found, same⟩)
  refine ⟨sets, pt, ?_, ?_⟩
  · intro q
    rw [Finset.mem_insert]
    constructor
    · rintro (rfl | old)
      · exact ⟨va, _, aligned, small, upd_self _ _ _, page⟩
      · obtain ⟨va', pte, aligned', small', found, same⟩ := (holds.leaves q).mp old
        have differ : va' ≠ va := by
          rintro rfl
          rw [unmapped] at found
          cases found
        exact ⟨va', pte, aligned', small', (upd_of_ne differ _ _).trans found, same⟩
    · rintro ⟨va', pte, aligned', small', found, same⟩
      by_cases here : va' = va
      · subst here
        rw [upd_self] at found
        obtain rfl := Option.some.inj found
        exact Or.inl (same.symm.trans page)
      · rw [upd_of_ne here] at found
        exact Or.inr ((holds.leaves q).mpr ⟨va', pte, aligned', small', found, same⟩)
  · intro va1 va2 pte1 pte2 aligned1 aligned2 small1 small2 found1 found2 same
    by_cases here1 : va1 = va
    · by_cases here2 : va2 = va
      · rw [here1, here2]
      · subst here1
        rw [upd_self] at found1
        rw [upd_of_ne here2] at found2
        obtain rfl := Option.some.inj found1
        exact absurd (same.symm.trans page) (notOld va2 pte2 aligned2 small2 found2)
    · rw [upd_of_ne here1] at found1
      by_cases here2 : va2 = va
      · subst here2
        rw [upd_self] at found2
        obtain rfl := Option.some.inj found2
        exact absurd (same.trans page) (notOld va1 pte1 aligned1 small1 found1)
      · rw [upd_of_ne here2] at found2
        exact holds.once va1 va2 pte1 pte2 aligned1 aligned2 small1 small2 found1 found2 same

theorem Holds.taken_outside (holds : Holds s root T L M) (list : s.free = mem :: rest)
    (grown : Grown (Vm.taken s mem c rest refusals) s' root T T' M') : mem ∉ s'.free ∧ mem ∉ T' := by
  obtain ⟨sets, notRest, notT, notL⟩ := holds.toSets.taken c refusals list
  have kept := (sets.grown grown).2.1
  have no : ¬ (mem ∈ s'.free ∨ mem ∈ T' ∨ mem ∈ L) := by
    rw [kept.pages]
    rintro (h | h | h)
    · exact notRest h
    · exact notT h
    · exact notL h
  rw [not_or, not_or] at no
  exact ⟨no.1, no.2.1⟩

theorem Holds.returned (holds : Holds s root T L M) (list : s.free = mem :: rest)
    (grown : Grown (Vm.taken s mem c rest refusals) s' root T T' M) :
    Holds (Vm.givenBack s' mem) root T' L M ∧ Kept s (Vm.givenBack s' mem) T T' L L ∧
      SameData s (Vm.givenBack s' mem) L L ∧ s'.low ≤ mem ∧ mem < PHYSTOP / PGSIZE := by
  obtain ⟨sets, -, -, notL⟩ := holds.toSets.taken c refusals list
  have first : mem ∈ s.free := by
    rw [list]
    exact List.mem_cons_self ..
  have range := holds.range mem (Or.inl first)
  have others : ∀ p, p ≠ mem → (Vm.taken s mem c rest refusals).mem p = s.mem p :=
    fun p differ => upd_of_ne differ _ _
  have split : ∀ p, p ∈ s.free ↔ p = mem ∨ p ∈ rest := by
    intro p
    rw [list, List.mem_cons]
  obtain ⟨sets', kept, same⟩ := sets.grown grown
  obtain ⟨notFree', notT'⟩ := holds.taken_outside list grown
  have range' : s'.low ≤ mem ∧ mem < PHYSTOP / PGSIZE := by
    rw [kept.low]
    exact range
  have back : ∀ p, p ≠ mem → (Vm.givenBack s' mem).mem p = s'.mem p :=
    fun p differ => upd_of_ne differ _ _
  refine ⟨⟨sets'.givenBack range' notFree' notT' notL, ?_, holds.leaves, holds.once⟩,
    ⟨?_, ?_, kept.low⟩, ?_, range'⟩
  · refine grown.pt.congr ?_
    intro q member
    exact back q fun eq => notT' (eq ▸ member)
  · intro p
    rw [Vm.givenBack, List.mem_cons, split]
    exact moved_back (kept.pages p)
  · intro p notFree notTable notLeaf
    rw [split, not_or] at notFree
    rw [back p notFree.1, kept.frame p notFree.2 notTable notLeaf, others p notFree.1]
  · intro p member _
    have differ : p ≠ mem := fun eq => notL (eq ▸ member)
    rw [back p differ, same p member member, others p differ]

/-- `mappages` of a page just taken: it is mapped, or the caller gives it back. -/
theorem map_fresh (holds : Holds s root T L M) (list : s.free = mem :: rest)
    (aligned : va % PGSIZE = 0) (small : va < TRAPFRAME) (unmapped : M va = none)
    (flags : perm < 2 ^ 10) :
    wp (mappages root va PGSIZE (mem * PGSIZE) perm) E (fun r s' =>
      (r = 0 ∧ ∃ T', Holds s' root T' (insert mem L)
          (upd M va (some (PA2PTE (mem * PGSIZE) ||| perm ||| PTE_V))) ∧
        Kept s s' T T' L (insert mem L) ∧ SameData s s' L L ∧ s'.mem mem = c) ∨
      (r = -1 ∧ ∃ T', Holds (Vm.givenBack s' mem) root T' L M ∧
        Kept s (Vm.givenBack s' mem) T T' L L ∧ SameData s (Vm.givenBack s' mem) L L ∧
        s'.low ≤ mem ∧ mem < PHYSTOP / PGSIZE))
      (Vm.taken s mem c rest refusals) := by
  obtain ⟨sets, notRest, notT, notL⟩ := holds.toSets.taken c refusals list
  have held := holds.taken c refusals list
  have first : mem ∈ s.free := by
    rw [list]
    exact List.mem_cons_self ..
  have range := holds.range mem (Or.inl first)
  have bound : mem * PGSIZE < 2 ^ 56 := by
    have top : PHYSTOP / PGSIZE = 0x88000 := by decide
    have high := range.2
    rw [top] at high
    simp only [PGSIZE]
    omega
  have below : va < MAXVA := Nat.lt_trans small (by decide)
  have others : ∀ p, p ≠ mem → (Vm.taken s mem c rest refusals).mem p = s.mem p :=
    fun p differ => upd_of_ne differ _ _
  have split : ∀ p, p ∈ s.free ↔ p = mem ∨ p ∈ rest := by
    intro p
    rw [list, List.mem_cons]
  refine wp_post (mappages_spec aligned below held.pt held.pool held.freeT unmapped bound
    (Nat.lt_trans flags (by decide))) ?_
  rintro r s' ⟨T', ⟨rfl, grown⟩ | ⟨rfl, grown⟩⟩
  · obtain ⟨sets', kept, same⟩ := sets.grown grown
    obtain ⟨notFree', notT'⟩ := holds.taken_outside list grown
    have range' : s'.low ≤ mem ∧ mem < PHYSTOP / PGSIZE := by
      rw [kept.low]
      exact range
    refine Or.inl ⟨rfl, T', ?_, ⟨?_, ?_, kept.low⟩, ?_, ?_⟩
    · exact holds.newLeaf aligned small unmapped range.2 notL flags
        (sets'.insertLeaf range' notFree' notT') grown.pt
    · intro p
      rw [Finset.mem_insert, split]
      exact moved_in (kept.pages p)
    · intro p notFree notTable notLeaf
      rw [split, not_or] at notFree
      rw [kept.frame p notFree.2 notTable notLeaf, others p notFree.1]
    · intro p member _
      have differ : p ≠ mem := fun eq => notL (eq ▸ member)
      rw [same p member member, others p differ]
    · rw [grown.frame mem notT']
      exact upd_self _ _ _
  · exact Or.inr ⟨rfl, T', holds.returned list grown⟩

/-- `mappages` of a page just taken, at an address that is mapped already. -/
theorem map_blocked (holds : Holds s root T L M) (list : s.free = mem :: rest)
    (aligned : va % PGSIZE = 0) (small : va < MAXVA) (mapped : M va ≠ none) (panics : E .remap) :
    wp (mappages root va PGSIZE (mem * PGSIZE) perm) E (fun r s' => r = -1 ∧ ∃ T',
        Holds (Vm.givenBack s' mem) root T' L M ∧
        Kept s (Vm.givenBack s' mem) T T' L L ∧ SameData s (Vm.givenBack s' mem) L L ∧
        s'.low ≤ mem ∧ mem < PHYSTOP / PGSIZE)
      (Vm.taken s mem c rest refusals) := by
  have held := holds.taken c refusals list
  refine wp_post (mappages_remap aligned small held.pt held.pool held.freeT mapped panics) ?_
  rintro r s' ⟨minus, T', grown⟩
  exact ⟨minus, T', holds.returned list grown⟩

end Fresh

/-! ## Pages of the user taken away -/

section Unmap
variable {s s' : Phys} {root a n oldsz newsz : Nat} {T L : Finset Nat} {M : Nat → Option Nat}
  {E : Panic → Prop}

theorem mem_mappedPages {q : Nat} : ∀ (n a : Nat), q ∈ mappedPages M a n ↔
    ∃ i pte, i < n ∧ M (a + i * PGSIZE) = some pte ∧ leafPage pte = q := by
  intro n
  induction n with
  | zero => intro a; simp [mappedPages]
  | succ n ih =>
      intro a
      rw [mappedPages, List.mem_append, ih]
      constructor
      · rintro (here | ⟨i, pte, less, found, page⟩)
        · rw [Option.mem_toList, Option.map_eq_some_iff] at here
          obtain ⟨pte, found, page⟩ := here
          exact ⟨0, pte, by omega, by simpa using found, page⟩
        · refine ⟨i + 1, pte, by omega, ?_, page⟩
          rw [← found]
          congr 1
          rw [Nat.add_mul]
          omega
      · rintro ⟨i, pte, less, found, page⟩
        cases i with
        | zero =>
            left
            rw [Option.mem_toList, Option.map_eq_some_iff]
            exact ⟨pte, by simpa using found, page⟩
        | succ i =>
            right
            refine ⟨i, pte, by omega, ?_, page⟩
            rw [← found]
            congr 1
            rw [Nat.add_mul]
            omega

theorem nodup_mappedPages (once : ∀ i j pte pte', i < n → j < n → M (a + i * PGSIZE) = some pte →
    M (a + j * PGSIZE) = some pte' → leafPage pte = leafPage pte' → i = j) :
    (mappedPages M a n).Nodup := by
  induction n generalizing a with
  | zero => exact List.nodup_nil
  | succ n ih =>
      rw [mappedPages, List.nodup_append]
      have shift : ∀ i, a + PGSIZE + i * PGSIZE = a + (i + 1) * PGSIZE := by
        intro i
        rw [Nat.add_mul]
        omega
      refine ⟨?_, ih ?_, ?_⟩
      · cases M a <;> simp
      · intro i j pte pte' lessI lessJ foundI foundJ same
        rw [shift] at foundI foundJ
        have eq := once (i + 1) (j + 1) pte pte' (by omega) (by omega) foundI foundJ same
        omega
      · rintro q first r later rfl
        rw [Option.mem_toList, Option.map_eq_some_iff] at first
        obtain ⟨pte, found, page⟩ := first
        obtain ⟨i, pte', less, found', page'⟩ := (mem_mappedPages n (a + PGSIZE)).mp later
        rw [shift] at found'
        have eq := once 0 (i + 1) pte pte' (by omega) (by omega) (by simpa using found) found'
          (page.trans page'.symm)
        omega

/-- `uvmunmap` with `do_free` on the user's part of the address space. -/
theorem unmap_user (holds : Holds s root T L M) (aligned : a % PGSIZE = 0)
    (top : a + n * PGSIZE ≤ TRAPFRAME) :
    wp (uvmunmap root a n true) E (fun _ s' => ∃ L', Holds s' root T L' (clearMap M a n) ∧
      Kept s s' T T L L' ∧ SameData s s' L L') s := by
  have size : PGSIZE = 4096 := rfl
  have inside : ∀ i, i < n → (a + i * PGSIZE) % PGSIZE = 0 ∧ a + i * PGSIZE < TRAPFRAME := by
    intro i less
    rw [size] at aligned top ⊢
    omega
  have isLeaf : ∀ q, q ∈ mappedPages M a n → q ∈ L := by
    intro q member
    obtain ⟨i, pte, less, found, page⟩ := (mem_mappedPages n a).mp member
    exact (holds.leaves q).mpr ⟨_, pte, (inside i less).1, (inside i less).2, found, page⟩
  have nodup : (mappedPages M a n).Nodup := by
    refine nodup_mappedPages ?_
    intro i j pte pte' lessI lessJ foundI foundJ same
    have eq := holds.once _ _ pte pte' (inside i lessI).1 (inside j lessJ).1 (inside i lessI).2
      (inside j lessJ).2 foundI foundJ same
    rw [size] at eq
    omega
  have freeable : Freeable s.low T (mappedPages M a n) := by
    intro q member
    have leaf := isLeaf q member
    have range := holds.range q (Or.inr (Or.inr leaf))
    exact ⟨range.1, range.2, fun table => holds.apart q table leaf⟩
  refine wp_post (uvmunmap_spec aligned (Nat.le_trans top (by decide)) holds.pt fun _ => freeable) ?_
  intro _ s' cut
  rw [if_pos rfl] at cut
  have free : ∀ p, p ∈ s'.free ↔ p ∈ mappedPages M a n ∨ p ∈ s.free := by
    intro p
    rw [cut.free, List.mem_append, List.mem_reverse]
  have left : ∀ p, p ∈ L.filter (· ∉ mappedPages M a n) ↔ p ∈ L ∧ p ∉ mappedPages M a n := by
    intro p
    rw [Finset.mem_filter]
  refine ⟨L.filter (· ∉ mappedPages M a n), ⟨⟨?_, ?_, ?_, ?_, ?_⟩, cut.pt, ?_, ?_⟩,
    ⟨?_, ?_, cut.low⟩, ?_⟩
  · rw [cut.free, List.nodup_append]
    refine ⟨List.nodup_reverse.mpr nodup, holds.nodup, ?_⟩
    rintro p freed q old rfl
    exact holds.freeL p old (isLeaf p (List.mem_reverse.mp freed))
  · intro p member
    rw [cut.low]
    rcases member with member | member | member
    · rcases (free p).mp member with freed | old
      · exact holds.range p (Or.inr (Or.inr (isLeaf p freed)))
      · exact holds.range p (Or.inl old)
    · exact holds.range p (Or.inr (Or.inl member))
    · exact holds.range p (Or.inr (Or.inr ((left p).mp member).1))
  · intro p member
    rcases (free p).mp member with freed | old
    · exact fun table => holds.apart p table (isLeaf p freed)
    · exact holds.freeT p old
  · intro p member leaf
    rcases (free p).mp member with freed | old
    · exact ((left p).mp leaf).2 freed
    · exact holds.freeL p old ((left p).mp leaf).1
  · intro p table leaf
    exact holds.apart p table ((left p).mp leaf).1
  · intro q
    rw [left, holds.leaves]
    constructor
    · rintro ⟨⟨va, pte, aligned', small, found, page⟩, notFreed⟩
      refine ⟨va, pte, aligned', small, ?_, page⟩
      rw [clearMap, if_neg]
      · exact found
      · rintro ⟨low, high⟩
        apply notFreed
        refine (mem_mappedPages n a).mpr ⟨(va - a) / PGSIZE, pte, ?_, ?_, page⟩
        · rw [size] at high ⊢
          omega
        · rw [← found]
          congr 1
          rw [size] at aligned aligned' ⊢
          omega
    · rintro ⟨va, pte, aligned', small, found, page⟩
      rw [clearMap] at found
      split at found
      · cases found
      · rename_i outside
        refine ⟨⟨va, pte, aligned', small, found, page⟩, ?_⟩
        intro member
        obtain ⟨i, pte', less, found', page'⟩ := (mem_mappedPages n a).mp member
        have eq := holds.once va _ pte pte' aligned' (inside i less).1 small (inside i less).2 found
          found' (page.trans page'.symm)
        apply outside
        rw [eq, size]
        omega
  · intro va va' pte pte' aligned1 aligned2 small1 small2 found1 found2
    rw [clearMap] at found1 found2
    split at found1
    · cases found1
    · split at found2
      · cases found2
      · exact holds.once va va' pte pte' aligned1 aligned2 small1 small2 found1 found2
  · intro p
    rw [free, left]
    constructor
    · rintro ((freed | old) | table | leaf)
      · exact Or.inr (Or.inr (isLeaf p freed))
      · exact Or.inl old
      · exact Or.inr (Or.inl table)
      · exact Or.inr (Or.inr leaf.1)
    · rintro (old | table | leaf)
      · exact Or.inl (Or.inr old)
      · exact Or.inr (Or.inl table)
      · by_cases freed : p ∈ mappedPages M a n
        · exact Or.inl (Or.inl freed)
        · exact Or.inr (Or.inr ⟨leaf, freed⟩)
  · intro p _ notT notL
    exact cut.frame p notT fun freed => notL (isLeaf p (List.mem_reverse.mp freed))
  · intro p member stays
    refine cut.frame p (fun table => holds.apart p table member) ?_
    exact fun freed => ((left p).mp stays).2 (List.mem_reverse.mp freed)

theorem asInt_eq {n : Nat} (small : n < 2 ^ 31) : asInt n = n := by
  unfold asInt
  rw [Int.bmod_def]
  omega

theorem PGROUNDUP_spec (sz : Nat) (small : sz ≤ MAXVA) :
    PGROUNDUP sz % PGSIZE = 0 ∧ sz ≤ PGROUNDUP sz ∧ PGROUNDUP sz < sz + PGSIZE := by
  simp only [PGROUNDUP, wrap64, PGSIZE, MAXVA] at *
  omega

theorem PGROUNDUP_le {sz top : Nat} (below : sz ≤ top) (aligned : top % PGSIZE = 0)
    (small : top ≤ MAXVA) :
    PGROUNDUP sz ≤ top := by
  simp only [PGROUNDUP, wrap64, PGSIZE, MAXVA] at *
  omega

theorem uvmdealloc_spec (holds : Holds s root T L M) (small : oldsz ≤ TRAPFRAME) :
    wp (uvmdealloc root oldsz newsz) E (fun r s' => ∃ L' M', Holds s' root T L' M' ∧
      Kept s s' T T L L' ∧ SameData s s' L L' ∧ r = (if newsz < oldsz then newsz else oldsz) ∧
      ∀ va, M' va = if newsz < oldsz ∧ PGROUNDUP newsz ≤ va ∧ va < PGROUNDUP oldsz then none
        else M va) s := by
  have size : PGSIZE = 4096 := rfl
  have frame : TRAPFRAME ≤ MAXVA := by decide
  rw [uvmdealloc, wp_ite]
  refine ⟨?_, ?_⟩
  · intro grows
    refine ⟨L, M, holds, Kept.refl s T L, fun _ _ _ => rfl, (if_neg (by omega)).symm, ?_⟩
    intro va
    rw [if_neg (by omega)]
  · intro shrinks
    have less : newsz < oldsz := by omega
    obtain ⟨alignedOld, aboveOld, nearOld⟩ := PGROUNDUP_spec oldsz (Nat.le_trans small frame)
    obtain ⟨alignedNew, aboveNew, nearNew⟩ :=
      PGROUNDUP_spec newsz (Nat.le_trans (Nat.le_of_lt less) (Nat.le_trans small frame))
    have topOld : PGROUNDUP oldsz ≤ TRAPFRAME := PGROUNDUP_le small (by decide) frame
    by_cases some : PGROUNDUP newsz < PGROUNDUP oldsz
    · have npages : asInt ((PGROUNDUP oldsz - PGROUNDUP newsz) / PGSIZE) =
          (PGROUNDUP oldsz - PGROUNDUP newsz) / PGSIZE := by
        apply asInt_eq
        have bound : TRAPFRAME < 2 ^ 38 := by decide
        rw [size]
        omega
      have whole : PGROUNDUP newsz + (PGROUNDUP oldsz - PGROUNDUP newsz) / PGSIZE * PGSIZE =
          PGROUNDUP oldsz := by
        rw [size] at alignedOld alignedNew ⊢
        omega
      simp only [if_pos some, wp_bind, npages]
      refine wp_post (unmap_user holds alignedNew (by rw [whole]; exact topOld)) ?_
      rintro _ s' ⟨L', holds', kept, same⟩
      refine ⟨L', _, holds', kept, same, (if_pos less).symm, ?_⟩
      intro va
      simp only [clearMap, whole, less, true_and]
    · simp only [if_neg some, wp_pure]
      refine ⟨L, M, holds, Kept.refl s T L, fun _ _ _ => rfl, (if_pos less).symm, ?_⟩
      intro va
      rw [if_neg (by omega)]

end Unmap

end Xv6Fcfs.Vm
