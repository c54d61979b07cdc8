import Xv6Fcfs.Vm.Space
import Mathlib.Data.Finset.Card
import Mathlib.Data.Finset.Range

/-!
# Growing an address space

`uvmalloc` maps new pages from the old size on, or takes back what it mapped.  A space that
is grown from 0 without holes uses one physical page for each page of its size, so that the
allocator fails long before the size reaches `TRAPFRAME`.
-/

set_option autoImplicit false

namespace Xv6Fcfs.Vm

open Xv6Fcfs.Lib

/-- Every page below `a` is mapped. -/
def Dense (M : Nat → Option Nat) (a : Nat) : Prop := ∀ va, va % PGSIZE = 0 → va < a → M va ≠ none

/-- `M` is `M0` with new leaves of the flags `perm` from `o` to `a`. -/
structure Filled (M0 M : Nat → Option Nat) (o a perm : Nat) : Prop where
  inside : ∀ va, va % PGSIZE = 0 → o ≤ va → va < a →
    ∃ q, M va = some (PA2PTE (q * PGSIZE) ||| perm ||| PTE_V) ∧ q < PHYSTOP / PGSIZE
  outside : ∀ va, va % PGSIZE = 0 → ¬ (o ≤ va ∧ va < a) → M va = M0 va

section Grow
variable {s s' : Phys} {root a o n perm oldsz newsz : Nat} {T L : Finset Nat}
  {M M0 : Nat → Option Nat} {E : Panic → Prop}

theorem Filled.refl (M : Nat → Option Nat) (o perm : Nat) : Filled M M o o perm :=
  ⟨fun _ _ low high => absurd high (by omega), fun _ _ _ => rfl⟩

theorem Filled.next (filled : Filled M0 M o a perm) (above : o ≤ a)
    (aligned : a % PGSIZE = 0) {mem : Nat} (range : mem < PHYSTOP / PGSIZE) :
    Filled M0 (upd M a (some (PA2PTE (mem * PGSIZE) ||| perm ||| PTE_V))) o (a + PGSIZE) perm := by
  have size : PGSIZE = 4096 := rfl
  refine ⟨?_, ?_⟩
  · intro va aligned' low high
    by_cases here : va = a
    · exact ⟨mem, by rw [here, upd_self], range⟩
    · rw [upd_of_ne here]
      refine filled.inside va aligned' low ?_
      rw [size] at aligned aligned' high
      omega
  · intro va aligned' outside
    have differ : va ≠ a := by
      rw [size] at outside
      omega
    rw [upd_of_ne differ]
    refine filled.outside va aligned' ?_
    rw [size] at outside
    omega

theorem Holds.dense_card (holds : Holds s root T L M) (dense : Dense M a) (small : a ≤ TRAPFRAME) :
    a / PGSIZE ≤ L.card := by
  have size : PGSIZE = 4096 := rfl
  have pick : ∀ i, i < a / PGSIZE → ∃ pte, M (i * PGSIZE) = some pte := by
    intro i less
    have mapped := dense (i * PGSIZE) (Nat.mul_mod_left i PGSIZE) (by rw [size] at less ⊢; omega)
    cases found : M (i * PGSIZE) with
    | none => exact absurd found mapped
    | some pte => exact ⟨pte, rfl⟩
  have small' : ∀ i, i < a / PGSIZE → i * PGSIZE < TRAPFRAME := by
    intro i less
    rw [size] at less ⊢
    omega
  have count := Finset.card_le_card_of_injOn (s := Finset.range (a / PGSIZE)) (t := L)
    (fun i => ((M (i * PGSIZE)).map leafPage).getD 0) ?_ ?_
  · simpa using count
  · intro i member
    have less : i < a / PGSIZE := by simpa using member
    obtain ⟨pte, found⟩ := pick i less
    simp only [found, Option.map_some, Option.getD_some, Finset.mem_coe]
    exact (holds.leaves _).mpr
      ⟨_, pte, Nat.mul_mod_left i PGSIZE, small' i less, found, rfl⟩
  · intro i memberI j memberJ same
    have lessI : i < a / PGSIZE := by simpa using memberI
    have lessJ : j < a / PGSIZE := by simpa using memberJ
    obtain ⟨pteI, foundI⟩ := pick i lessI
    obtain ⟨pteJ, foundJ⟩ := pick j lessJ
    simp only [foundI, foundJ, Option.map_some, Option.getD_some] at same
    have eq := holds.once _ _ pteI pteJ (Nat.mul_mod_left i PGSIZE) (Nat.mul_mod_left j PGSIZE)
      (small' i lessI) (small' j lessJ) foundI foundJ same
    rw [size] at eq
    omega

theorem Holds.dense_small (holds : Holds s root T L M) (dense : Dense M a) {mem : Nat}
    (first : mem ∈ s.free) : a + PGSIZE ≤ TRAPFRAME := by
  have size : PGSIZE = 4096 := rfl
  have top : PHYSTOP / PGSIZE = 0x88000 := by decide
  have frame : TRAPFRAME = (2 ^ 26 - 2) * 4096 := by decide
  have part : Dense M (min a TRAPFRAME) := fun va aligned less => dense va aligned (by omega)
  have few := holds.dense_card part (Nat.min_le_right _ _)
  have fits : insert mem L ⊆ Finset.range (PHYSTOP / PGSIZE) := by
    intro q member
    rw [Finset.mem_range]
    rcases Finset.mem_insert.mp member with rfl | leaf
    · exact (holds.range q (Or.inl first)).2
    · exact (holds.range q (Or.inr (Or.inr leaf))).2
  have most := Finset.card_le_card fits
  rw [Finset.card_insert_of_notMem (holds.freeL mem first), Finset.card_range, top] at most
  rw [size] at few ⊢
  rw [frame] at few ⊢
  omega

theorem Holds.leaves_eq {T' L' : Finset Nat} {M' : Nat → Option Nat} (holds : Holds s root T L M)
    (holds' : Holds s' root T' L' M')
    (same : ∀ va, va % PGSIZE = 0 → va < TRAPFRAME → M' va = M va) : L' = L := by
  ext q
  rw [holds.leaves, holds'.leaves]
  constructor
  · rintro ⟨va, pte, aligned, small, found, page⟩
    exact ⟨va, pte, aligned, small, (same va aligned small).symm.trans found, page⟩
  · rintro ⟨va, pte, aligned, small, found, page⟩
    exact ⟨va, pte, aligned, small, (same va aligned small).trans found, page⟩

theorem entry_user (mem xperm : Nat) :
    (PA2PTE (mem * PGSIZE) ||| (PTE_R ||| PTE_U ||| xperm) ||| PTE_V) &&& PTE_U ≠ 0 := by
  intro zero
  have bit := congrArg (Nat.testBit · 4) zero
  simp only [Nat.testBit_and, Nat.testBit_or, Nat.zero_testBit] at bit
  rw [show Nat.testBit PTE_U 4 = true from by decide] at bit
  simp at bit

/-- What `uvmalloc` promises: `M0` with pages up to `top`, or `M0` again. -/
inductive Allocated (s0 s' : Phys) (root : Nat) (T0 L0 : Finset Nat) (M0 : Nat → Option Nat)
    (o top perm : Nat) : Bool → Prop where
  | done (T L : Finset Nat) (M : Nat → Option Nat) (holds : Holds s' root T L M)
      (kept : Kept s0 s' T0 T L0 L) (same : SameData s0 s' L0 L0) (more : L0 ⊆ L)
      (zero : ∀ q, q ∈ L → q ∉ L0 → s'.mem q = fun _ => 0)
      (filled : Filled M0 M o top perm) (small : top ≤ TRAPFRAME ∨ top = o) :
      Allocated s0 s' root T0 L0 M0 o top perm true
  | failed (T : Finset Nat) (holds : Holds s' root T L0 M0) (kept : Kept s0 s' T0 T L0 L0)
      (same : SameData s0 s' L0 L0) : Allocated s0 s' root T0 L0 M0 o top perm false

variable {s0 : Phys} {T0 L0 : Finset Nat}

theorem allocated_undo (start : Holds s0 root T0 L0 M0) (holds : Holds s root T L M)
    (kept : Kept s0 s T0 T L0 L) (same : SameData s0 s L0 L0) (more : L0 ⊆ L)
    (filled : Filled M0 M o a perm) (above : o ≤ a) (alignedO : o % PGSIZE = 0)
    (alignedA : a % PGSIZE = 0) (small : a ≤ TRAPFRAME)
    (free : ∀ va, va % PGSIZE = 0 → o ≤ va → va < TRAPFRAME → M0 va = none) (top : Nat) :
    wp (do let _ ← uvmdealloc root a o; return false) E
      (fun r s' => Allocated s0 s' root T0 L0 M0 o top perm r) s := by
  have size : PGSIZE = 4096 := rfl
  have frame : TRAPFRAME ≤ MAXVA := by decide
  refine wp_seq (uvmdealloc_spec holds small) ?_
  rintro _ s' ⟨L', M', holds', kept', same', -, map⟩
  have roundO : PGROUNDUP o = o := by
    obtain ⟨aligned, low, high⟩ := PGROUNDUP_spec o (Nat.le_trans above (Nat.le_trans small frame))
    rw [size] at aligned alignedO high
    omega
  have roundA : PGROUNDUP a = a := by
    obtain ⟨aligned, low, high⟩ := PGROUNDUP_spec a (Nat.le_trans small frame)
    rw [size] at aligned alignedA high
    omega
  have back : ∀ va, va % PGSIZE = 0 → M' va = M0 va := by
    intro va aligned
    rw [map, roundO, roundA]
    by_cases inside : o ≤ va ∧ va < a
    · rw [if_pos ⟨by omega, inside⟩, free va aligned inside.1 (by omega)]
    · rw [if_neg (fun no => inside no.2)]
      exact filled.outside va aligned inside
  have pages : L' = L0 := start.leaves_eq holds' fun va aligned _ => back va aligned
  subst pages
  refine .failed T (holds'.mapCongr fun va aligned _ => (back va aligned).symm) (kept.trans kept') ?_
  intro p member _
  rw [same' p (more member) member, same p member member]

/-- Past `TRAPFRAME` the loop comes to a page that is mapped, or stops before. -/
theorem allocLoop_spec {xperm : Nat} (start : Holds s0 root T0 L0 M0) (alignedO : o % PGSIZE = 0)
    (flags : xperm < 2 ^ 10)
    (free : ∀ va, va % PGSIZE = 0 → o ≤ va → va < TRAPFRAME → M0 va = none) :
    ∀ (n a : Nat) (s : Phys) (T L : Finset Nat) (M : Nat → Option Nat), a % PGSIZE = 0 → o ≤ a →
      (a ≤ TRAPFRAME ∨ a = o) → (a + n * PGSIZE ≤ TRAPFRAME ∨ Dense M a ∨
        (E .remap ∧ o ≤ TRAPFRAME ∧ M0 TRAPFRAME ≠ none)) → Holds s root T L M →
      Kept s0 s T0 T L0 L → SameData s0 s L0 L0 → L0 ⊆ L →
      (∀ q, q ∈ L → q ∉ L0 → s.mem q = fun _ => 0) →
      Filled M0 M o a (PTE_R ||| PTE_U ||| xperm) →
      wp (allocLoop root o xperm n a) E (fun r s' =>
        Allocated s0 s' root T0 L0 M0 o (a + n * PGSIZE) (PTE_R ||| PTE_U ||| xperm) r) s := by
  have size : PGSIZE = 4096 := rfl
  have edge : TRAPFRAME % PGSIZE = 0 := by decide
  have perms : PTE_R ||| PTE_U ||| xperm < 2 ^ 10 := Nat.or_lt_two_pow (by decide) flags
  intro n
  induction n with
  | zero =>
      intro a s T L M _ _ small _ holds kept same more zero filled
      rw [allocLoop, wp_pure, Nat.zero_mul, Nat.add_zero]
      exact .done T L M holds kept same more zero filled small
  | succ n ih =>
      intro a s T L M aligned above small room holds kept same more zero filled
      rw [allocLoop, wp_bind]
      have fails : ∀ (s1 : Phys) (T1 : Finset Nat) (top : Nat), Holds s1 root T1 L M →
          Kept s0 s1 T0 T1 L0 L → SameData s0 s1 L0 L0 →
          wp (do let _ ← uvmdealloc root a o; return false) E
            (fun r s' => Allocated s0 s' root T0 L0 M0 o top (PTE_R ||| PTE_U ||| xperm) r) s1 := by
        intro s1 T1 top holds1 kept1 same1
        rcases small with small | rfl
        · exact allocated_undo start holds1 kept1 same1 more filled above alignedO aligned
            small free top
        · -- nothing has been mapped yet
          rw [uvmdealloc, if_pos (Nat.le_refl a)]
          have pages : L = L0 := start.leaves_eq holds1 fun va aligned' _ =>
            filled.outside va aligned' (by omega)
          subst pages
          refine .failed T1 (holds1.mapCongr fun va aligned' _ => ?_) kept1 same1
          exact (filled.outside va aligned' (by omega)).symm
      have gives : ∀ (mem : Nat) (s1 : Phys) (T1 : Finset Nat), Holds (givenBack s1 mem) root T1 L M →
          Kept s (givenBack s1 mem) T T1 L L → SameData s (givenBack s1 mem) L L →
          s1.low ≤ mem ∧ mem < PHYSTOP / PGSIZE →
          wp (do kfree (mem * PGSIZE); let _ ← uvmdealloc root a o; return false) E
            (fun r s' => Allocated s0 s' root T0 L0 M0 o (a + (n + 1) * PGSIZE)
              (PTE_R ||| PTE_U ||| xperm) r) s1 := by
        intro mem s1 T1 holds1 kept1 same1 range1
        have page : mem * PGSIZE / PGSIZE = mem := Nat.mul_div_cancel mem (by decide)
        rw [wp_bind]
        rw [wp_kfree (Nat.mul_mod_left mem PGSIZE) (by rw [page]; exact range1.1)
          (by rw [page]; exact range1.2), page]
        refine fails (givenBack s1 mem) T1 _ holds1 (kept.trans kept1) ?_
        intro p member _
        rw [same1 p (more member) (more member), same p member member]
      refine wp_kalloc ?_ ?_
      · refine fails _ T _ ?_ ?_ ?_
        · exact ⟨⟨holds.nodup, holds.range, holds.freeT, holds.freeL, holds.apart⟩, holds.pt,
            holds.leaves, holds.once⟩
        · exact ⟨kept.pages, kept.frame, kept.low⟩
        · exact same
      · intro mem rest list
        have first : mem ∈ s.free := by
          rw [list]
          exact List.mem_cons_self ..
        simp only [wp_bind, wp_fill, upd_upd]
        by_cases top : a = TRAPFRAME
        · have panics : E .remap ∧ M0 TRAPFRAME ≠ none := by
            rcases room with fits | dense | ⟨panics, -, mapped⟩
            · rw [size] at fits
              omega
            · have small' := holds.dense_small dense first
              rw [size] at small'
              omega
            · exact ⟨panics, mapped⟩
          have mapped : M a ≠ none := by
            rw [filled.outside a aligned (by omega), top]
            exact panics.2
          refine wp_post (map_blocked holds list aligned (by rw [top]; decide) mapped panics.1) ?_
          rintro r s1 ⟨rfl, T1, holds1, kept1, same1, range1⟩
          rw [if_pos (by simp)]
          exact gives mem s1 T1 holds1 kept1 same1 range1
        have inside : a + PGSIZE ≤ TRAPFRAME := by
          rcases room with fits | dense | ⟨-, low, -⟩
          · rw [size] at fits ⊢
            omega
          · exact holds.dense_small dense first
          · rw [size] at aligned edge ⊢
            omega
        have user : a < TRAPFRAME := by
          rw [size] at inside
          omega
        have unmapped : M a = none := by
          rw [filled.outside a aligned (by omega)]
          exact free a aligned above user
        refine wp_post (map_fresh holds list aligned user unmapped perms) ?_
        rintro r s1 (⟨rfl, T1, holds1, kept1, same1, blank⟩ | ⟨rfl, T1, holds1, kept1, same1, range1⟩)
        · rw [if_neg (by simp)]
          have next := filled.next above aligned (holds.range mem (Or.inl first)).2
          have sum : a + (n + 1) * PGSIZE = a + PGSIZE + n * PGSIZE := by
            rw [Nat.add_mul]
            omega
          rw [sum]
          refine ih (a + PGSIZE) s1 T1 (insert mem L) _ ?_ ?_ (Or.inl inside) ?_ holds1
            (kept.trans kept1) ?_ (fun p member => Finset.mem_insert_of_mem (more member)) ?_ next
          · rw [size] at aligned ⊢
            omega
          · omega
          · rcases room with fits | dense | stop
            · exact Or.inl (sum ▸ fits)
            · refine Or.inr (Or.inl ?_)
              intro va aligned' less
              by_cases here : va = a
              · rw [here, upd_self]
                simp
              · rw [upd_of_ne here]
                refine dense va aligned' ?_
                rw [size] at aligned aligned' less
                omega
            · exact Or.inr (Or.inr stop)
          · intro p member _
            rw [same1 p (more member) (more member), same p member member]
          · intro q member new
            rcases Finset.mem_insert.mp member with rfl | old
            · exact blank
            · rw [same1 q old old]
              exact zero q old new
        · rw [if_pos (by simp)]
          exact gives mem s1 T1 holds1 kept1 same1 range1

end Grow

/-! ## The address space of a process -/

/-- The user's pages are below the size; above them there are the trampoline, whose page is
`tramp`, and the trap frame. -/
structure SpaceInv (tramp : Nat) (s : Phys) (p : Space) (T L : Finset Nat) (M : Nat → Option Nat) : Prop
    extends Holds s p.pagetable T L M where
  size : p.sz ≤ TRAPFRAME
  below : ∀ va, va % PGSIZE = 0 → va < TRAPFRAME → M va ≠ none → va < PGROUNDUP p.sz
  trampoline : M TRAMPOLINE = some (PA2PTE (tramp * PGSIZE) ||| (PTE_R ||| PTE_X) ||| PTE_V)
  trapframe : M TRAPFRAME = some (PA2PTE (p.trapframe * PGSIZE) ||| (PTE_R ||| PTE_W) ||| PTE_V)

section Sizes
variable {tramp : Nat} {s s' : Phys} {p : Space} {T T' L L' : Finset Nat} {M M' : Nat → Option Nat}
  {E : Panic → Prop} {newsz xperm : Nat}

theorem SpaceInv.round (inv : SpaceInv tramp s p T L M) :
    PGROUNDUP p.sz % PGSIZE = 0 ∧ p.sz ≤ PGROUNDUP p.sz ∧ PGROUNDUP p.sz ≤ TRAPFRAME := by
  have frame : TRAPFRAME ≤ MAXVA := by decide
  obtain ⟨aligned, above, -⟩ := PGROUNDUP_spec p.sz (Nat.le_trans inv.size frame)
  exact ⟨aligned, above, PGROUNDUP_le inv.size (by decide) frame⟩

theorem SpaceInv.resize (inv : SpaceInv tramp s p T L M) (holds : Holds s' p.pagetable T' L' M')
    (small : newsz ≤ TRAPFRAME)
    (high : ∀ va, va % PGSIZE = 0 → PGROUNDUP newsz ≤ va → va < TRAPFRAME → M' va = none)
    (top : ∀ va, va % PGSIZE = 0 → TRAPFRAME ≤ va → M' va = M va) :
    SpaceInv tramp s' { p with sz := newsz } T' L' M' := by
  refine ⟨holds, small, ?_, ?_, ?_⟩
  · intro va aligned user mapped
    by_contra above
    exact mapped (high va aligned (Nat.le_of_not_lt above) user)
  · rw [top TRAMPOLINE (by decide) (by decide)]
    exact inv.trampoline
  · rw [top TRAPFRAME (by decide) (Nat.le_refl _)]
    exact inv.trapframe

/-- What `uvmalloc` returns: the size it was given, the new size, or 0. -/
inductive Alloced (tramp : Nat) (s s' : Phys) (p : Space) (T L : Finset Nat) (M : Nat → Option Nat)
    (newsz perm : Nat) : Nat → Prop where
  | less (fewer : newsz < p.sz) (same : s' = s) : Alloced tramp s s' p T L M newsz perm p.sz
  | done (T' L' : Finset Nat) (M' : Nat → Option Nat) (grows : p.sz ≤ newsz)
      (inv : SpaceInv tramp s' { p with sz := newsz } T' L' M') (kept : Kept s s' T T' L L')
      (same : SameData s s' L L) (more : L ⊆ L')
      (zero : ∀ q, q ∈ L' → q ∉ L → s'.mem q = fun _ => 0)
      (filled : Filled M M' (PGROUNDUP p.sz) (PGROUNDUP newsz) perm) :
      Alloced tramp s s' p T L M newsz perm newsz
  | failed (T' : Finset Nat) (grows : p.sz ≤ newsz) (inv : SpaceInv tramp s' p T' L M)
      (kept : Kept s s' T T' L L) (same : SameData s s' L L) : Alloced tramp s s' p T L M newsz perm 0

theorem uvmalloc_spec (inv : SpaceInv tramp s p T L M) (flags : xperm < 2 ^ 10)
    (room : newsz ≤ TRAPFRAME ∨ Dense M (PGROUNDUP p.sz) ∨ E .remap) :
    wp (uvmalloc p.pagetable p.sz newsz xperm) E
      (fun r s' => Alloced tramp s s' p T L M newsz (PTE_R ||| PTE_U ||| xperm) r) s := by
  have size : PGSIZE = 4096 := rfl
  have frame : TRAPFRAME ≤ MAXVA := by decide
  have tops : TRAPFRAME % 4096 = 0 := by decide
  obtain ⟨alignedO, aboveO, topO⟩ := inv.round
  rw [uvmalloc, wp_ite]
  refine ⟨fun fewer => .less fewer rfl, fun enough => ?_⟩
  have grows : p.sz ≤ newsz := by omega
  have free : ∀ va, va % PGSIZE = 0 → PGROUNDUP p.sz ≤ va → va < TRAPFRAME → M va = none := by
    intro va aligned above user
    by_contra mapped
    have less := inv.below va aligned user mapped
    omega
  have last : PGROUNDUP p.sz + pagesBelow (PGROUNDUP p.sz) newsz * PGSIZE ≤ TRAPFRAME ∨
      Dense M (PGROUNDUP p.sz) ∨ (E .remap ∧ PGROUNDUP p.sz ≤ TRAPFRAME ∧ M TRAPFRAME ≠ none) := by
    rcases room with fits | dense | panics
    · left
      rw [size] at alignedO
      simp only [pagesBelow, size]
      omega
    · exact Or.inr (Or.inl dense)
    · exact Or.inr (Or.inr ⟨panics, topO, by rw [inv.trapframe]; rintro ⟨⟩⟩)
  refine wp_seq (allocLoop_spec inv.toHolds alignedO flags free _ _ s T L M alignedO (Nat.le_refl _)
    (Or.inr rfl) last inv.toHolds (Kept.refl s T L) (fun _ _ _ => rfl) (Finset.Subset.refl L)
    (fun _ member new => absurd member new) (Filled.refl M _ _)) ?_
  rintro r s' (⟨T', L', M', holds, kept, same, more, zero, filled, small⟩ | ⟨T', holds, kept, same⟩)
  · simp only [wp_pure, if_pos]
    have bound : newsz ≤ TRAPFRAME := by
      rcases small with small | small
      · simp only [pagesBelow, size] at small
        omega
      · simp only [pagesBelow, size] at small
        omega
    have round : PGROUNDUP p.sz + pagesBelow (PGROUNDUP p.sz) newsz * PGSIZE = PGROUNDUP newsz := by
      obtain ⟨alignedN, aboveN, nearN⟩ := PGROUNDUP_spec newsz (Nat.le_trans bound frame)
      obtain ⟨-, -, nearO⟩ := PGROUNDUP_spec p.sz (Nat.le_trans inv.size frame)
      rw [size] at alignedO alignedN nearN nearO
      simp only [pagesBelow, size]
      omega
    rw [round] at filled
    refine .done T' L' M' grows (inv.resize holds bound ?_ ?_) kept same more zero filled
    · intro va aligned above user
      rw [filled.outside va aligned (by omega)]
      refine free va aligned ?_ user
      rw [← round] at above
      omega
    · intro va aligned above
      have under := PGROUNDUP_le bound (by decide) frame
      exact filled.outside va aligned (by omega)
  · simp only [wp_pure, Bool.false_eq_true, if_false]
    exact .failed T' grows ⟨holds, inv.size, inv.below, inv.trampoline, inv.trapframe⟩ kept same

/-- The process has the space `p'` now, made of pages that were its own or free. -/
def Became (tramp : Nat) (s s' : Phys) (p' : Space) (T L : Finset Nat) : Prop :=
  ∃ T' L' M', SpaceInv tramp s' p' T' L' M' ∧ Kept s s' T T' L L'

theorem SpaceInv.unmapped (inv : SpaceInv tramp s p T L M) {va : Nat} (aligned : va % PGSIZE = 0)
    (above : PGROUNDUP p.sz ≤ va) (user : va < TRAPFRAME) : M va = none := by
  by_contra mapped
  have less := inv.below va aligned user mapped
  omega

theorem PGROUNDUP_mono {a b : Nat} (le : a ≤ b) (small : b ≤ MAXVA) : PGROUNDUP a ≤ PGROUNDUP b := by
  simp only [PGROUNDUP, wrap64, PGSIZE, MAXVA] at *
  omega

theorem shrink_spec (inv : SpaceInv tramp s p T L M) :
    wp (uvmdealloc p.pagetable p.sz newsz) E
      (fun r s' => r ≤ p.sz ∧ Became tramp s s' { p with sz := r } T L) s := by
  have frame : TRAPFRAME ≤ MAXVA := by decide
  obtain ⟨-, -, topO⟩ := inv.round
  refine wp_post (uvmdealloc_spec inv.toHolds inv.size) ?_
  rintro r s' ⟨L', M', holds, kept, -, rfl, map⟩
  by_cases less : newsz < p.sz
  · simp only [if_pos less]
    refine ⟨by omega, T, L', M', inv.resize holds (by have := inv.size; omega) ?_ ?_, kept⟩
    · intro va aligned above user
      rw [map]
      by_cases old : va < PGROUNDUP p.sz
      · rw [if_pos ⟨less, above, old⟩]
      · rw [if_neg (by omega)]
        exact inv.unmapped aligned (by omega) user
    · intro va _ above
      rw [map, if_neg (by omega)]
  · simp only [if_neg less]
    refine ⟨Nat.le_refl _, T, L', M', inv.resize holds inv.size ?_ ?_, kept⟩
    · intro va aligned above user
      rw [map, if_neg (by omega)]
      exact inv.unmapped aligned above user
    · intro va _ above
      rw [map, if_neg (by omega)]

theorem growproc_spec (inv : SpaceInv tramp s p T L M) (n : Int) (low : -2 ^ 31 ≤ n)
    (high : n < 2 ^ 31) :
    wp (growproc p n) E (fun r s' => Became tramp s s' { p with sz := r.2 } T L) s := by
  have still : Became tramp s s { p with sz := p.sz } T L :=
    ⟨T, L, M, inv, Kept.refl s T L⟩
  rw [growproc, wp_ite]
  refine ⟨?_, ?_⟩
  · intro positive
    rw [wp_ite]
    refine ⟨fun _ => still, ?_⟩
    intro fits
    refine wp_seq (uvmalloc_spec inv (by decide) (Or.inl (Nat.le_of_not_lt fits))) ?_
    have small := inv.size
    have frame : TRAPFRAME < 2 ^ 38 := by decide
    have exact' : (((p.sz : Int) + n) % 2 ^ 64).toNat = p.sz + n.toNat := by omega
    intro r s' result
    cases result with
    | less fewer same => exact absurd fewer (by rw [exact']; omega)
    | done T' L' M' grows inv' kept same more zero filled =>
        rw [if_neg (by rw [exact']; omega)]
        exact ⟨T', L', M', inv', kept⟩
    | failed T' grows inv' kept same =>
        rw [if_pos rfl]
        exact ⟨T', L, M, inv', kept⟩
  · intro _
    rw [wp_ite]
    refine ⟨?_, fun _ => still⟩
    intro _
    refine wp_seq (shrink_spec inv) ?_
    rintro r s' ⟨-, became⟩
    exact became

theorem sysSbrk_spec (inv : SpaceInv tramp s p T L M) (n t : Int) (low : -2 ^ 31 ≤ n)
    (high : n < 2 ^ 31) :
    wp (sysSbrk p n t) E (fun r s' => Became tramp s s' { p with sz := r.2 } T L) s := by
  have frame : TRAPFRAME ≤ MAXVA := by decide
  have still : Became tramp s s { p with sz := p.sz } T L :=
    ⟨T, L, M, inv, Kept.refl s T L⟩
  rw [sysSbrk, wp_ite]
  refine ⟨?_, ?_⟩
  · intro _
    refine wp_seq (growproc_spec inv n low high) ?_
    rintro ⟨r, sz⟩ s' became
    rw [wp_ite]
    exact ⟨fun _ => became, fun _ => became⟩
  · intro lazy
    rw [wp_ite]
    refine ⟨fun _ => still, ?_⟩
    intro more
    rw [wp_ite]
    refine ⟨fun _ => still, ?_⟩
    intro fits
    refine ⟨T, L, M, inv.resize inv.toHolds (Nat.le_of_not_lt fits) ?_ fun _ _ _ => rfl,
      Kept.refl s T L⟩
    intro va aligned above user
    refine inv.unmapped aligned (Nat.le_trans (PGROUNDUP_mono ?_ ?_) above) user
    · exact Nat.le_of_not_lt more
    · exact Nat.le_trans (Nat.le_of_not_lt fits) frame

end Sizes

end Xv6Fcfs.Vm
