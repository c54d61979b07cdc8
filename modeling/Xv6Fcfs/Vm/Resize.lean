import Xv6Fcfs.Vm.Lazy

/-!
# Growing and shrinking

`uvmalloc` either adds all the pages it is asked for or leaves the leaves of the table as they
were, wherever it runs out of memory: the pages it took are free again, but for new tables.
`sbrk` inherits this, and what one `sbrk` adds the opposite one takes away.
-/

set_option autoImplicit false

namespace Xv6Fcfs.Vm

open Xv6Fcfs.Lib

def leaf (s : Phys) (root va : Nat) : Option (Nat × Bytes) :=
  (leafPte s.mem root va).map fun pte => (pte, s.mem (leafPage pte))

def SameLeaves (s s' : Phys) (root : Nat) : Prop :=
  ∀ va, va % PGSIZE = 0 → va < MAXVA → leaf s' root va = leaf s root va

def IsTable (s : Phys) (root q : Nat) : Prop := Within (kid s.mem) root 2 q

/-- The leaves of `s'` are those of `s` and a page of zeros for the user at each page from `lo`
to `hi`. -/
structure Added (s s' : Phys) (root lo hi : Nat) : Prop where
  fresh : ∀ va, va % PGSIZE = 0 → lo ≤ va → va < hi → leaf s root va = none ∧
    ∃ pte, leaf s' root va = some (pte, fun _ => 0) ∧ pte &&& PTE_U ≠ 0 ∧ pte &&& PTE_R ≠ 0
  old : ∀ va, va % PGSIZE = 0 → va < MAXVA → ¬ (lo ≤ va ∧ va < hi) → leaf s' root va = leaf s root va

/-- The trampoline and the trap frame are pages of the kernel. -/
def KernelPages (tramp : Nat) (s : Phys) (p : Space) (T L : Finset Nat) : Prop :=
  ∀ q, q = tramp ∨ q = p.trapframe → q < PHYSTOP / PGSIZE ∧ q ∉ s.free ∧ q ∉ T ∧ q ∉ L

def AddressSpace (tramp : Nat) (s : Phys) (p : Space) : Prop :=
  ∃ T L M, SpaceInv tramp s p T L M ∧ KernelPages tramp s p T L

section Leaves
variable {tramp : Nat} {s s' : Phys} {p : Space} {T T' L L' : Finset Nat} {M M' : Nat → Option Nat}
  {va newsz xperm : Nat} {E : Panic → Prop}

theorem KernelPages.moved (kernel : KernelPages tramp s p T L) (kept : Kept s s' T T' L L') :
    KernelPages tramp s' p T' L' := by
  intro q isKernel
  obtain ⟨small, notFree, notT, notL⟩ := kernel q isKernel
  have outside : ¬ (q ∈ s'.free ∨ q ∈ T' ∨ q ∈ L') := by
    rw [kept.pages]
    rintro (free | table | user)
    · exact notFree free
    · exact notT table
    · exact notL user
  rw [not_or, not_or] at outside
  exact ⟨small, outside.1, outside.2.1, outside.2.2⟩

theorem high_cases (aligned : va % PGSIZE = 0) (above : TRAPFRAME ≤ va) (small : va < MAXVA) :
    va = TRAPFRAME ∨ va = TRAMPOLINE := by
  simp only [TRAPFRAME, TRAMPOLINE, MAXVA, PGSIZE] at *
  omega

theorem SpaceInv.kernel_leaf (inv : SpaceInv tramp s p T L M) (kernel : KernelPages tramp s p T L)
    (aligned : va % PGSIZE = 0) (above : TRAPFRAME ≤ va) (small : va < MAXVA) {pte : Nat}
    (mapped : M va = some pte) : leafPage pte ∉ s.free ∧ leafPage pte ∉ T ∧ leafPage pte ∉ L := by
  rcases high_cases aligned above small with rfl | rfl
  · rw [inv.trapframe] at mapped
    obtain rfl := Option.some.inj mapped
    obtain ⟨page, apart⟩ := kernel p.trapframe (Or.inr rfl)
    rw [leafPage_entry page (by decide)]
    exact apart
  · rw [inv.trampoline] at mapped
    obtain rfl := Option.some.inj mapped
    obtain ⟨page, apart⟩ := kernel tramp (Or.inl rfl)
    rw [leafPage_entry page (by decide)]
    exact apart

theorem leaf_stays (inv : SpaceInv tramp s p T L M) (kernel : KernelPages tramp s p T L)
    (holds : Holds s' p.pagetable T' L' M') (kept : Kept s s' T T' L L')
    (same : SameData s s' L L) (aligned : va % PGSIZE = 0) (small : va < MAXVA)
    (entry : M' va = M va) : leaf s' p.pagetable va = leaf s p.pagetable va := by
  rw [leaf, leaf, inv.pt.map va aligned small, holds.pt.map va aligned small, entry]
  cases mapped : M va with
  | none => rfl
  | some pte =>
      have bytes : s'.mem (leafPage pte) = s.mem (leafPage pte) := by
        rcases Nat.lt_or_ge va TRAPFRAME with user | above
        · have member := leafPage_mem inv aligned user mapped
          exact same _ member member
        · obtain ⟨notFree, notT, notL⟩ := inv.kernel_leaf kernel aligned above small mapped
          exact kept.frame _ notFree notT notL
      simp only [Option.map_some, bytes]

theorem entry_readable (mem xperm : Nat) :
    (PA2PTE (mem * PGSIZE) ||| (PTE_R ||| PTE_U ||| xperm) ||| PTE_V) &&& PTE_R ≠ 0 := by
  intro zero
  have bit := congrArg (Nat.testBit · 1) zero
  simp only [Nat.testBit_and, Nat.testBit_or, Nat.zero_testBit] at bit
  rw [show Nat.testBit PTE_R 1 = true from by decide] at bit
  simp at bit

theorem added_of_filled (inv : SpaceInv tramp s p T L M) (kernel : KernelPages tramp s p T L)
    (inv' : SpaceInv tramp s' { p with sz := newsz } T' L' M') (kept : Kept s s' T T' L L')
    (same : SameData s s' L L) (zero : ∀ q, q ∈ L' → q ∉ L → s'.mem q = fun _ => 0)
      (flags : xperm < 2 ^ 10)
    (filled : Filled M M' (PGROUNDUP p.sz) (PGROUNDUP newsz) (PTE_R ||| PTE_U ||| xperm)) :
    Added s s' p.pagetable (PGROUNDUP p.sz) (PGROUNDUP newsz) := by
  have frame : TRAPFRAME < MAXVA := by decide
  have perms : PTE_R ||| PTE_U ||| xperm < 2 ^ 10 := Nat.or_lt_two_pow (by decide) flags
  have top : PGROUNDUP newsz ≤ TRAPFRAME := inv'.round.2.2
  refine ⟨?_, ?_⟩
  · intro va aligned low high
    have user : va < TRAPFRAME := Nat.lt_of_lt_of_le high top
    obtain ⟨q, mapped, range⟩ := filled.inside va aligned low high
    have page := leafPage_entry range perms
    have here : q ∈ L' := by
      have member := leafPage_mem inv' aligned user mapped
      rwa [page] at member
    have notOld : q ∉ L := by
      intro old
      obtain ⟨va', pte, aligned', user', mapped', page'⟩ := (inv.leaves q).mp old
      have below := inv.below va' aligned' user' (by rw [mapped']; rintro ⟨⟩)
      have stays := filled.outside va' aligned' (by omega)
      have eq := inv'.once va' va pte _ aligned' aligned user' user (stays.trans mapped') mapped
        (page'.trans page.symm)
      omega
    refine ⟨?_, _, ?_, entry_user q xperm, entry_readable q xperm⟩
    · rw [leaf, inv.pt.map va aligned (Nat.lt_trans user frame), inv.unmapped aligned low user]
      rfl
    · rw [leaf, inv'.pt.map va aligned (Nat.lt_trans user frame), mapped, Option.map_some, page,
        zero q here notOld]
  · intro va aligned small outside
    exact leaf_stays inv kernel inv'.toHolds kept same aligned small
      (filled.outside va aligned outside)

/-- Nothing of the user's changed, and what left the free list is a table. -/
theorem sameLeaves_of_kept (inv : SpaceInv tramp s p T L M) (kernel : KernelPages tramp s p T L)
    (inv' : SpaceInv tramp s' p T' L M) (kept : Kept s s' T T' L L) (same : SameData s s' L L) :
    SameLeaves s s' p.pagetable ∧ ∀ q, q ∈ s.free → q ∈ s'.free ∨ IsTable s' p.pagetable q := by
  refine ⟨?_, ?_⟩
  · intro va aligned small
    exact leaf_stays inv kernel inv'.toHolds kept same aligned small rfl
  · intro q free
    rcases (kept.pages q).mpr (Or.inl free) with still | table | user
    · exact Or.inl still
    · exact Or.inr ((inv'.pt.tables q).mp table)
    · exact absurd user (inv.freeL q free)

end Leaves

/-! ## The calls -/

section Calls
variable {tramp : Nat} {s : Phys} {p : Space} {T L : Finset Nat} {M : Nat → Option Nat}
  {newsz xperm : Nat}

/-- `uvmalloc` from the size of the process on, wherever `kalloc` fails.  It panics only past
`TRAPFRAME`, where a page is mapped already. -/
theorem uvmalloc_all_or_nothing (space : AddressSpace tramp s p) (grows : p.sz ≤ newsz)
    (some : 0 < newsz) (flags : xperm < 2 ^ 10) :
    wp (uvmalloc p.pagetable p.sz newsz xperm) (fun e => e = .remap ∧ TRAPFRAME < newsz) (fun r s' =>
      (r = 0 ∧ SameLeaves s s' p.pagetable ∧
        ∀ q, q ∈ s.free → q ∈ s'.free ∨ IsTable s' p.pagetable q) ∨
      (r = newsz ∧ r ≠ 0 ∧ Added s s' p.pagetable (PGROUNDUP p.sz) (PGROUNDUP newsz))) s := by
  obtain ⟨T, L, M, inv, kernel⟩ := space
  have room : newsz ≤ TRAPFRAME ∨ Dense M (PGROUNDUP p.sz) ∨
      (fun e => e = Panic.remap ∧ TRAPFRAME < newsz) .remap := by
    rcases Nat.lt_or_ge TRAPFRAME newsz with beyond | inside
    · exact Or.inr (Or.inr ⟨rfl, beyond⟩)
    · exact Or.inl inside
  refine wp_post (uvmalloc_spec inv flags room) ?_
  intro r s' result
  cases result with
  | less fewer same => omega
  | done T' L' M' grows inv' kept same more zero filled =>
      right
      exact ⟨rfl, by omega, added_of_filled inv kernel inv' kept same zero flags filled⟩
  | failed T' grows inv' kept same =>
      exact Or.inl ⟨rfl, sameLeaves_of_kept inv kernel inv' kept same⟩

theorem growproc_grows {n : Int} (inv : SpaceInv tramp s p T L M) (kernel : KernelPages tramp s p T L)
    (positive : 0 < n) (high : n < 2 ^ 31) :
    wp (growproc p n) (fun _ => False) (fun r s' =>
      (r = (-1, p.sz) ∧ SameLeaves s s' p.pagetable) ∨
      (r = (0, p.sz + n.toNat) ∧ ∃ T' L' M',
      SpaceInv tramp s' { p with sz := p.sz + n.toNat } T' L' M' ∧
        Kept s s' T T' L L' ∧ SameData s s' L L ∧ L ⊆ L' ∧
        Filled M M' (PGROUNDUP p.sz) (PGROUNDUP (p.sz + n.toNat)) (PTE_R ||| PTE_U ||| PTE_W))) s := by
  have small := inv.size
  have frame : TRAPFRAME < 2 ^ 38 := by decide
  have sum : (((p.sz : Int) + n) % 2 ^ 64).toNat = p.sz + n.toNat := by omega
  have still : SameLeaves s s p.pagetable := fun _ _ _ => rfl
  simp only [growproc, sum, if_pos positive]
  rw [wp_ite]
  refine ⟨fun _ => Or.inl ⟨rfl, still⟩, fun fits => ?_⟩
  refine wp_seq (uvmalloc_spec inv (by decide) (Or.inl (Nat.le_of_not_lt fits))) ?_
  intro r s' result
  cases result with
  | less fewer same => omega
  | done T' L' M' grows inv' kept same more zero filled =>
      rw [if_neg (by omega)]
      exact Or.inr ⟨rfl, T', L', M', inv', kept, same, more, filled⟩
  | failed T' grows inv' kept same =>
      rw [if_pos rfl]
      exact Or.inl ⟨rfl, (sameLeaves_of_kept inv kernel inv' kept same).1⟩

theorem sysSbrk_fails (inv : SpaceInv tramp s p T L M) (kernel : KernelPages tramp s p T L) {n : Int}
    (t : Int) (low : -2 ^ 31 ≤ n) (high : n < 2 ^ 31) :
    wp (sysSbrk p n t) (fun _ => False)
      (fun r s' => r.1 = -1 → r.2 = p.sz ∧ SameLeaves s s' p.pagetable) s := by
  have still : SameLeaves s s p.pagetable := fun _ _ _ => rfl
  have nonneg : ((p.sz : Nat) : Int) ≠ -1 := by omega
  rw [sysSbrk, wp_ite]
  refine ⟨fun _ => ?_, fun _ => ?_⟩
  · rcases Int.lt_or_le 0 n with positive | negative
    · refine wp_seq (growproc_grows inv kernel positive high) ?_
      rintro r s' (⟨rfl, same⟩ | ⟨rfl, -⟩)
      · simp only [wp_ite, wp_pure]
        exact ⟨fun _ _ => ⟨trivial, same⟩, fun no => absurd (by decide) no⟩
      · simp only [wp_ite, wp_pure]
        exact ⟨fun no => absurd no (by decide), fun _ minus => absurd minus nonneg⟩
    · -- taking pages away does not fail
      simp only [growproc, if_neg (Int.not_lt.mpr negative)]
      rcases Int.lt_or_eq_of_le negative with less | rfl
      · simp only [if_pos less, wp_bind]
        refine wp_post (uvmdealloc_spec inv.toHolds inv.size) ?_
        intro r s' _
        simp only [wp_pure, wp_ite]
        exact ⟨fun no => absurd no (by decide), fun _ minus => absurd minus nonneg⟩
      · simp only [Int.lt_irrefl, if_false, wp_bind, wp_pure, wp_ite]
        exact ⟨fun no => absurd no (by decide), fun _ minus => absurd minus nonneg⟩
  · simp only [wp_ite, wp_pure]
    exact ⟨fun _ _ => ⟨trivial, still⟩, fun _ =>
      ⟨fun _ _ => ⟨trivial, still⟩, fun _ minus => absurd minus nonneg⟩⟩

theorem growproc_back {s1 : Phys} {n : Int} {T1 L1 : Finset Nat} {M1 : Nat → Option Nat}
    (inv : SpaceInv tramp s p T L M) (kernel : KernelPages tramp s p T L) (positive : 0 < n)
    (inv1 : SpaceInv tramp s1 { p with sz := p.sz + n.toNat } T1 L1 M1) (kept : Kept s s1 T T1 L L1)
    (same : SameData s s1 L L) (more : L ⊆ L1) {perm : Nat}
    (filled : Filled M M1 (PGROUNDUP p.sz) (PGROUNDUP (p.sz + n.toNat)) perm) :
    wp (growproc { p with sz := p.sz + n.toNat } (-n)) (fun _ => False)
      (fun r s' => r = (0, p.sz) ∧ SameLeaves s s' p.pagetable) s1 := by
  have small := inv1.size
  have frame : TRAPFRAME < 2 ^ 38 := by decide
  have less : p.sz < p.sz + n.toNat := by omega
  have back : (((p.sz + n.toNat : Nat) : Int) + -n) % 2 ^ 64 = p.sz := by
    simp only at small
    omega
  simp only [growproc, back, Int.toNat_natCast, if_neg (show ¬ 0 < -n by omega),
    if_pos (show -n < 0 by omega), wp_bind]
  refine wp_post (uvmdealloc_spec inv1.toHolds inv1.size) ?_
  rintro r s' ⟨L', M', holds, kept', same', rfl, map⟩
  simp only [if_pos less, wp_pure, true_and]
  have entries : ∀ va, va % PGSIZE = 0 → va < MAXVA → M' va = M va := by
    intro va aligned _
    rw [map]
    by_cases inside : PGROUNDUP p.sz ≤ va ∧ va < PGROUNDUP (p.sz + n.toNat)
    · rw [if_pos ⟨less, inside⟩]
      exact (inv.unmapped aligned inside.1 (Nat.lt_of_lt_of_le inside.2 inv1.round.2.2)).symm
    · rw [if_neg fun no => inside no.2]
      exact filled.outside va aligned inside
  have pages : L' = L := inv.leaves_eq holds fun va aligned user =>
    entries va aligned (Nat.lt_trans user (by decide))
  subst pages
  intro va aligned below
  refine leaf_stays inv kernel holds (kept.trans kept') ?_ aligned below (entries va aligned below)
  intro q member _
  rw [same' q (more member) member, same q member member]

end Calls

/-- `uvmalloc` adds all the pages or none, whether a page or a table is refused; `sys_sbrk`
that fails leaves the size; and `sbrk(-n)` after `sbrk(n)` gives back the size and the leaves. -/
theorem growing_fails_cleanly {tramp : Nat} {s : Phys} {p : Space} (space : AddressSpace tramp s p) :
    (∀ newsz xperm r s', p.sz ≤ newsz → 0 < newsz → xperm < 2 ^ 10 →
      uvmalloc p.pagetable p.sz newsz xperm s = .ok (r, s') →
      (r = 0 ∧ SameLeaves s s' p.pagetable ∧
        ∀ q, q ∈ s.free → q ∈ s'.free ∨ IsTable s' p.pagetable q) ∨
      (r = newsz ∧ r ≠ 0 ∧ Added s s' p.pagetable (PGROUNDUP p.sz) (PGROUNDUP newsz))) ∧
    (∀ (n t : Int), -2 ^ 31 ≤ n → n < 2 ^ 31 → ∃ r sz s', sysSbrk p n t s = .ok ((r, sz), s') ∧
      (r = -1 → sz = p.sz ∧ SameLeaves s s' p.pagetable)) ∧
    ∀ (n t : Int) a sz s', 0 < n → n < 2 ^ 31 → a ≠ -1 →
      sysSbrk p n SBRK_EAGER s = .ok ((a, sz), s') → sz = p.sz + n.toNat ∧
      ∃ s'', sysSbrk { p with sz := sz } (-n) t s' = .ok ((sz, p.sz), s'') ∧
        SameLeaves s s'' p.pagetable := by
  refine ⟨?_, ?_, ?_⟩
  · intro newsz xperm r s' grows some flags run
    have result := wp_ok (uvmalloc_all_or_nothing space grows some flags) run
    exact result
  · intro n t low high
    obtain ⟨T, L, M, inv, kernel⟩ := space
    obtain ⟨⟨r, sz⟩, s', run, fails⟩ := wp_total (sysSbrk_fails inv kernel t low high)
    exact ⟨r, sz, s', run, fails⟩
  · intro n t a sz s' positive high succeeds run
    obtain ⟨T, L, M, inv, kernel⟩ := space
    have eager : wp (sysSbrk p n SBRK_EAGER) (fun _ => False) (fun r s' => r.1 = -1 ∨
        (r = ((p.sz : Int), p.sz + n.toNat) ∧
        ∃ T' L' M', SpaceInv tramp s' { p with sz := p.sz + n.toNat } T' L' M' ∧
          Kept s s' T T' L L' ∧ SameData s s' L L ∧ L ⊆ L' ∧
          Filled M M' (PGROUNDUP p.sz) (PGROUNDUP (p.sz + n.toNat)) (PTE_R ||| PTE_U ||| PTE_W)))
            s := by
      rw [sysSbrk, if_pos (Or.inl rfl)]
      refine wp_seq (growproc_grows inv kernel positive high) ?_
      rintro r s1 (⟨rfl, -⟩ | ⟨rfl, grew⟩)
      · simp only [wp_ite, wp_pure]
        exact ⟨fun _ => Or.inl trivial, fun no => absurd (by decide) no⟩
      · simp only [wp_ite, wp_pure]
        exact ⟨fun no => absurd no (by decide), fun _ => Or.inr ⟨trivial, grew⟩⟩
    rcases wp_ok eager run with minus | ⟨result, T', L', M', inv', kept, same, more, filled⟩
    · exact absurd minus succeeds
    · obtain ⟨-, rfl⟩ := Prod.mk.inj result
      have back : wp (sysSbrk { p with sz := p.sz + n.toNat } (-n) t) (fun _ => False)
          (fun r s'' => r = (((p.sz + n.toNat : Nat) : Int), p.sz) ∧
            SameLeaves s s'' p.pagetable) s' := by
        rw [sysSbrk, if_pos (Or.inr (by omega))]
        refine wp_seq (growproc_back inv kernel positive inv' kept same more filled) ?_
        rintro r s1 ⟨rfl, leaves⟩
        simp only [wp_ite, wp_pure]
        exact ⟨fun no => absurd no (by decide), fun _ => ⟨trivial, leaves⟩⟩
      obtain ⟨r, s'', done, rfl, leaves⟩ := wp_total back
      exact ⟨rfl, s'', done, leaves⟩

theorem lazyProc_addressSpace : AddressSpace 0x80007 firstTable.2 lazyProc := by
  obtain ⟨T, M, inv, -⟩ := lazyProc_space
  have low : firstTable.2.low = 0x80100 := by decide +kernel
  refine ⟨T, ∅, M, inv, ?_⟩
  intro q isKernel
  have below : q < firstTable.2.low := by
    rw [low]
    rcases isKernel with rfl | rfl <;> decide
  refine ⟨?_, fun free => ?_, fun table => ?_, Finset.notMem_empty q⟩
  · rcases isKernel with rfl | rfl <;> decide
  · exact absurd (inv.range q (Or.inl free)).1 (Nat.not_le.mpr below)
  · exact absurd (inv.range q (Or.inr (Or.inl table))).1 (Nat.not_le.mpr below)

/-- Two pages more, which one `sbrk` adds and the next takes away. -/
theorem lazyProc_two_pages : ∃ s' s'',
    sysSbrk lazyProc (2 * 4096) SBRK_EAGER firstTable.2 = .ok ((4096, 3 * 4096), s') ∧
    sysSbrk { lazyProc with sz := 3 * 4096 } (-(2 * 4096)) SBRK_EAGER s' = .ok ((3 * 4096, 4096), s'') ∧
    SameLeaves firstTable.2 s'' lazyProc.pagetable := by
  have answer : (match sysSbrk lazyProc (2 * 4096) SBRK_EAGER firstTable.2 with
    | .ok (r, _) => decide (r = (4096, 3 * 4096))
    | .error _ => false) = true := by decide +kernel
  cases run : sysSbrk lazyProc (2 * 4096) SBRK_EAGER firstTable.2 with
  | error e =>
      rw [run] at answer
      cases answer
  | ok result =>
      obtain ⟨r, s'⟩ := result
      rw [run] at answer
      obtain rfl := of_decide_eq_true answer
      obtain ⟨-, s'', back, same⟩ := (growing_fails_cleanly lazyProc_addressSpace).2.2 (2 * 4096)
        SBRK_EAGER 4096 (3 * 4096) s' (by decide) (by decide) (by decide) run
      exact ⟨s', s'', rfl, back, same⟩

end Xv6Fcfs.Vm
