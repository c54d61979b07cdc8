import Xv6Fcfs.Vm.Bytewise
import Xv6Fcfs.Vm.Uvmcopy

/-!
# A new image

The table that `kexec` makes grows from size 0 without holes.  Every page below its size is
there, so that a segment can be loaded and the stack written without a fault, and its size
stays below that of the memory.
-/

set_option autoImplicit false

namespace Xv6Fcfs.Vm

open Xv6Fcfs.Lib

/-- Every page below `top` is a page of the user. -/
def UserPages (M : Nat → Option Nat) (top : Nat) : Prop :=
  ∀ va, va % PGSIZE = 0 → va < top → ∃ pte, M va = some pte ∧ pte &&& PTE_U ≠ 0

/-- The table at `root` with the size `sz`, made of pages that were free in `s0`. -/
def Building (tramp : Nat) (s0 s : Phys) (root sz frame : Nat) : Prop :=
  ∃ T L M, SpaceInv tramp s ⟨root, sz, frame⟩ T L M ∧ Kept s0 s ∅ T ∅ L ∧ UserPages M (PGROUNDUP sz)

section Pages
variable {tramp : Nat} {s0 s s' : Phys} {q : Space} {p : Space} {T L : Finset Nat}
  {M M' : Nat → Option Nat} {E : Panic → Prop} {root sz frame : Nat}

theorem UserPages.dense {top : Nat} (pages : UserPages M top) : Dense M top := by
  intro va aligned less
  obtain ⟨pte, mapped, -⟩ := pages va aligned less
  rw [mapped]
  simp

theorem UserPages.filled {o top xperm : Nat} (pages : UserPages M o)
    (filled : Filled M M' o top (PTE_R ||| PTE_U ||| xperm)) : UserPages M' top := by
  intro va aligned less
  by_cases inside : o ≤ va
  · obtain ⟨mem, mapped, -⟩ := filled.inside va aligned inside less
    exact ⟨_, mapped, entry_user mem xperm⟩
  · rw [filled.outside va aligned (by omega)]
    exact pages va aligned (by omega)

theorem Building.low (building : Building tramp s0 s root sz frame) : s.low = s0.low := by
  obtain ⟨T, L, M, inv, kept, -⟩ := building
  exact kept.low

theorem Building.size (building : Building tramp s0 s root sz frame) : sz ≤ TRAPFRAME := by
  obtain ⟨T, L, M, inv, kept, -⟩ := building
  exact inv.size

theorem procPagetable_building (sets : Sets s ∅ ∅) (small : tramp < 2 ^ 44) (page : frame < 2 ^ 44) :
    wp (procPagetable (tramp * PGSIZE) frame) E (fun r s' =>
      (r = none ∧ Sets s' ∅ ∅ ∧ Kept s s' ∅ ∅ ∅ ∅) ∨
      ∃ root, r = some root ∧ Building tramp s s' root 0 frame) s := by
  refine wp_post (procPagetable_spec sets small page) ?_
  rintro r s' (failed | ⟨root, T, M, found, inv, kept, -⟩)
  · exact Or.inl failed
  · refine Or.inr ⟨root, found, T, ∅, M, inv, kept, fun va _ below => absurd below ?_⟩
    rw [show PGROUNDUP 0 = 0 from rfl]
    omega

theorem ended_building {v : Phys} (sets : Sets v ∅ ∅) (small : tramp < 2 ^ 44) (page : frame < 2 ^ 44)
    (made : (ended (procPagetable (tramp * PGSIZE) frame) v).1 = some root) :
    Building tramp v (ended (procPagetable (tramp * PGSIZE) frame) v).2 root 0 frame := by
  have spec := wp_ok (procPagetable_building (E := fun _ => True) sets small page) (ended_run made)
  rcases spec with ⟨none, -⟩ | ⟨root, same, building⟩
  · cases none
  · obtain rfl := Option.some.inj same
    exact building

theorem Building.alloc (building : Building tramp s0 s root sz frame) {xperm : Nat} (newsz : Nat)
    (flags : xperm < 2 ^ 10) :
    wp (uvmalloc root sz newsz xperm) E (fun r s' =>
      (r = 0 ∧ Building tramp s0 s' root sz frame) ∨
      (r = (if newsz < sz then sz else newsz) ∧ Building tramp s0 s' root r frame)) s := by
  obtain ⟨T, L, M, inv, kept, pages⟩ := building
  refine wp_post (uvmalloc_spec inv flags (Or.inr (Or.inl pages.dense))) ?_
  intro r s' result
  cases result with
  | less fewer same =>
      right
      rw [if_pos fewer, same]
      exact ⟨rfl, T, L, M, inv, kept, pages⟩
  | done T' L' M' grows inv' kept' same more zero filled =>
      right
      rw [if_neg (Nat.not_lt.mpr grows)]
      exact ⟨rfl, T', L', M', inv', kept.trans kept', pages.filled filled⟩
  | failed T' grows inv' kept' same =>
      exact Or.inl ⟨rfl, T', L, M, inv', kept.trans kept', pages⟩

theorem Building.walkaddr (building : Building tramp s0 s root sz frame) (kernel : 0 < s.low) {va : Nat}
    (aligned : va % PGSIZE = 0) (below : va < sz) {Q : Nat → Phys → Prop}
    (found : ∀ pa, pa ≠ 0 →
    (∀ b, Building tramp s0 { s with mem := upd s.mem (pa / PGSIZE) b } root sz frame) →
      Q pa s) : wp (walkaddr root va) E Q s := by
  obtain ⟨T, L, M, inv, kept, pages⟩ := building
  have user : va < TRAPFRAME := Nat.lt_of_lt_of_le below inv.size
  obtain ⟨pte, mapped, allowed⟩ := pages va aligned (Nat.lt_of_lt_of_le below inv.round.2.1)
  rw [wp_walkaddr inv.pt aligned, if_pos (Nat.lt_trans user (by decide)), mapped]
  simp only [if_neg allowed]
  refine found _ (PTE2PA_ne_zero inv kernel aligned user mapped) ?_
  intro b
  have written := inv.write (leafPage_mem inv aligned user mapped) b
  exact ⟨T, L, M, written.1, kept.trans written.2, pages⟩

/-- `copyout` to pages that are there does not fail, whoever the process is. -/
theorem copyoutLoop_mapped {lo top : Nat} (inside : top ≤ TRAPFRAME)
    (stack : ∀ va, va % PGSIZE = 0 → lo ≤ va → va < top →
      ∃ pte, M va = some pte ∧ pte &&& PTE_U ≠ 0 ∧ pte &&& PTE_W ≠ 0) (bottom : lo % PGSIZE = 0)
    (edge : top % PGSIZE = 0) : ∀ (fuel dstva : Nat) (src : List UInt8) (s : Phys), src.length ≤ fuel →
      SpaceInv tramp s q T L M → 0 < s.low → lo ≤ dstva → dstva + src.length ≤ top →
      wp (copyoutLoop p q.pagetable fuel dstva src) E
        (fun r s' => r = 0 ∧ SpaceInv tramp s' q T L M ∧ Kept s s' T T L L ∧
          seen s' q = viewPlaced (seen s q) dstva src) s := by
  have size : PGSIZE = 4096 := rfl
  have frame : TRAPFRAME < MAXVA := by decide
  intro fuel
  induction fuel with
  | zero =>
      intro dstva src s enough inv kernel low high
      obtain rfl : src = [] := List.length_eq_zero_iff.mp (by omega)
      exact ⟨rfl, inv, Kept.refl s T L, viewPlaced_nil.symm⟩
  | succ fuel ih =>
      intro dstva src s enough inv kernel low high
      rw [copyoutLoop, wp_ite]
      refine ⟨fun empty => ⟨rfl, inv, Kept.refl s T L, by rw [empty, viewPlaced_nil]⟩, ?_⟩
      intro more
      have some : 0 < src.length := List.length_pos_iff.mpr more
      obtain ⟨aligned, down, near⟩ := PGROUNDDOWN_spec dstva
      have lowPage : lo ≤ PGROUNDDOWN dstva := by
        rw [size] at bottom aligned near
        omega
      obtain ⟨pte, mapped, allowed, writable⟩ := stack (PGROUNDDOWN dstva) aligned lowPage (by omega)
      have user : PGROUNDDOWN dstva < TRAPFRAME := by omega
      have leaf := leafPage_mem inv aligned user mapped
      rw [if_neg (by omega), userAddr, wp_bind, wp_bind, wp_walkaddr inv.pt aligned,
        if_pos (Nat.lt_trans user frame), mapped]
      simp only [if_neg allowed, if_neg (PTE2PA_ne_zero inv kernel aligned user mapped), wp_pure]
      rw [wp_bind]
      refine wp_walk_leaf (Nat.lt_trans user frame) ((inv.leafPte_eq aligned user).trans mapped) ?_
      intro t i entry
      simp only [wp_bind, wp_readPte, entry, if_neg writable]
      rw [wp_blit, ← leafPage]
      have written := inv.write leaf (blitted (s.mem (leafPage pte)) (dstva - PGROUNDDOWN dstva) src
        (chunk dstva src.length))
      have next : wrap64 (PGROUNDDOWN dstva + PGSIZE) = PGROUNDDOWN dstva + PGSIZE := by
        refine Nat.mod_eq_of_lt ?_
        have bound : TRAPFRAME + PGSIZE < 2 ^ 64 := by decide
        omega
      have room : PGROUNDDOWN dstva + PGSIZE + (src.drop (chunk dstva src.length)).length ≤ top := by
        rw [List.length_drop]
        rw [size] at aligned edge near ⊢
        simp only [chunk, size]
        omega
      rw [next]
      obtain ⟨first, most⟩ := @chunk_le dstva src.length (by omega)
      refine wp_post (ih _ _ _ (by rw [List.length_drop]; omega) written.1 kernel (by omega) room) ?_
      rintro r s' ⟨rfl, inv', kept', view⟩
      refine ⟨rfl, inv', written.2.trans kept', ?_⟩
      have word : dstva < 2 ^ 64 := by
        have bound : TRAPFRAME < 2 ^ 64 := by decide
        omega
      have taken : (src.take (chunk dstva src.length)).length = chunk dstva src.length := by
        rw [List.length_take, Nat.min_eq_left most]
      rw [view, seen_write inv aligned user mapped allowed, upd_blitted ofUser_seen word (by
        rw [seen_mapped inv aligned user mapped, if_neg allowed])]
      by_cases last : src.length - chunk dstva src.length = 0
      · have whole : chunk dstva src.length = src.length := by omega
        rw [whole, List.drop_length, List.take_length, viewPlaced_nil]
      · rw [viewPlaced_append ofUser_seen word ?_ ?_, List.take_append_drop]
        · rw [taken, ← chunk_end last, wrap64, Nat.mod_eq_of_lt]
          rw [← next]
          exact wrap64_lt _
        · have bound : TRAPFRAME < 2 ^ 64 := by decide
          rw [taken, List.length_drop]
          omega

/-! ## The stack -/

theorem PGROUNDUP_self {a : Nat} (aligned : a % PGSIZE = 0) (small : a ≤ MAXVA) : PGROUNDUP a = a := by
  have size : PGSIZE = 4096 := rfl
  obtain ⟨round, low, near⟩ := PGROUNDUP_spec a small
  rw [size] at aligned round near
  omega

theorem Building.roundUp (building : Building tramp s0 s root sz frame) :
    Building tramp s0 s root (PGROUNDUP sz) frame ∧ PGROUNDUP sz % PGSIZE = 0 ∧
      PGROUNDUP sz ≤ TRAPFRAME := by
  obtain ⟨T, L, M, inv, kept, pages⟩ := building
  obtain ⟨aligned, -, top⟩ := inv.round
  have same : PGROUNDUP (PGROUNDUP sz) = PGROUNDUP sz :=
    PGROUNDUP_self aligned (Nat.le_trans top (by decide))
  refine ⟨⟨T, L, M, ?_, kept, by rw [same]; exact pages⟩, aligned, top⟩
  have larger : SpaceInv tramp s { (⟨root, sz, frame⟩ : Space) with sz := PGROUNDUP sz } T L M := by
    refine inv.resize inv.toHolds top ?_ fun _ _ _ => rfl
    intro va aligned' above user
    rw [same] at above
    exact inv.unmapped aligned' above user
  exact larger

/-- The pages from `lo` to `sz` can be written by the user. -/
def Stacked (tramp : Nat) (s0 s : Phys) (root sz frame lo : Nat) : Prop :=
  ∃ T L M, SpaceInv tramp s ⟨root, sz, frame⟩ T L M ∧ Kept s0 s ∅ T ∅ L ∧
    ∀ va, va % PGSIZE = 0 → lo ≤ va → va < sz →
      ∃ pte, M va = some pte ∧ pte &&& PTE_U ≠ 0 ∧ pte &&& PTE_W ≠ 0

theorem Stacked.low {lo : Nat} (stacked : Stacked tramp s0 s root sz frame lo) : s.low = s0.low := by
  obtain ⟨T, L, M, inv, kept, -⟩ := stacked
  exact kept.low

theorem entry_writable (mem : Nat) :
    (PA2PTE (mem * PGSIZE) ||| (PTE_R ||| PTE_U ||| PTE_W) ||| PTE_V) &&& PTE_W ≠ 0 := by
  rw [and_flag _ (by decide), Nat.or_assoc, PTE_FLAGS_entry _ _ (by decide)]
  decide

theorem Building.stack (building : Building tramp s0 s root sz frame) (aligned : sz % PGSIZE = 0)
    (pages : Nat) (some : 0 < pages) :
    wp (uvmalloc root sz (sz + pages * PGSIZE) PTE_W) E (fun r s' =>
      (r = 0 ∧ Building tramp s0 s' root sz frame) ∨
      (r = sz + pages * PGSIZE ∧ r ≠ 0 ∧ Stacked tramp s0 s' root r frame sz)) s := by
  have size : PGSIZE = 4096 := rfl
  obtain ⟨T, L, M, inv, kept, user⟩ := building
  refine wp_post (uvmalloc_spec inv (by decide) (Or.inr (Or.inl user.dense))) ?_
  intro r s' result
  cases result with
  | less fewer same =>
      simp only at fewer
      omega
  | done T' L' M' grows inv' kept' same more zero filled =>
      have round : PGROUNDUP sz = sz := PGROUNDUP_self aligned (Nat.le_trans inv.size (by decide))
      refine Or.inr ⟨rfl, by rw [size]; omega, T', L', M', inv', kept.trans kept', ?_⟩
      intro va aligned' low high
      have above := inv'.round.2.1
      obtain ⟨mem, mapped, -⟩ := filled.inside va aligned' (by simp only; omega)
        (Nat.lt_of_lt_of_le high above)
      exact ⟨_, mapped, entry_user mem PTE_W, entry_writable mem⟩
  | failed T' grows inv' kept' same =>
      exact Or.inl ⟨rfl, T', L, M, inv', kept.trans kept', user⟩

theorem Stacked.clear {lo : Nat} (stacked : Stacked tramp s0 s root sz frame lo)
    (aligned : lo % PGSIZE = 0)
    (below : lo < sz) :
    wp (uvmclear root lo) E (fun _ s' => Stacked tramp s0 s' root sz frame (lo + PGSIZE) ∧
      s'.low = s.low) s := by
  obtain ⟨T, L, M, inv, kept, pages⟩ := stacked
  obtain ⟨pte, mapped, -⟩ := pages lo aligned (Nat.le_refl lo) below
  refine wp_post (uvmclear_spec inv aligned (Nat.lt_of_lt_of_le below inv.size) mapped) ?_
  rintro _ s' ⟨inv', kept', -⟩
  refine ⟨⟨T, L, _, inv', kept.trans kept', ?_⟩, kept'.low⟩
  intro va aligned' low high
  have differ : va ≠ lo := by
    have size : PGSIZE = 4096 := rfl
    rw [size] at low
    omega
  rw [upd_of_ne differ]
  exact pages va aligned' (by omega) high

theorem Stacked.copyout {lo dstva : Nat} {src : List UInt8}
    (stacked : Stacked tramp s0 s root sz frame lo)
    (bottom : lo % PGSIZE = 0) (edge : sz % PGSIZE = 0) (kernel : 0 < s.low) (low : lo ≤ dstva)
    (high : dstva + src.length ≤ sz) :
    wp (copyout p root dstva src) E (fun r s' => r = 0 ∧ Stacked tramp s0 s' root sz frame lo ∧
      s'.low = s.low ∧ seen s' ⟨root, sz, frame⟩ = viewPlaced (seen s ⟨root, sz, frame⟩)
        dstva src) s := by
  obtain ⟨T, L, M, inv, kept, pages⟩ := stacked
  refine wp_post (copyoutLoop_mapped (q := ⟨root, sz, frame⟩) inv.size pages bottom edge _ _ _ s
    (Nat.le_refl _) inv kernel low high) ?_
  rintro r s' ⟨rfl, inv', kept', view⟩
  exact ⟨rfl, ⟨T, L, M, inv', kept.trans kept', pages⟩, kept'.low, view⟩

theorem Building.free (building : Building tramp s0 s root sz frame) :
    wp (procFreepagetable root sz) E (fun _ s' => Sets s' ∅ ∅ ∧ Kept s0 s' ∅ ∅ ∅ ∅) s := by
  obtain ⟨T, L, M, inv, kept, -⟩ := building
  have spec := procFreepagetable_spec (E := E) inv
  simp only at spec
  refine wp_post spec ?_
  rintro _ s' ⟨sets, kept'⟩
  exact ⟨sets, kept.trans kept'⟩

theorem Stacked.free {lo : Nat} (stacked : Stacked tramp s0 s root sz frame lo) :
    wp (procFreepagetable root sz) E (fun _ s' => Sets s' ∅ ∅ ∧ Kept s0 s' ∅ ∅ ∅ ∅) s := by
  obtain ⟨T, L, M, inv, kept, -⟩ := stacked
  have spec := procFreepagetable_spec (E := E) inv
  simp only at spec
  refine wp_post spec ?_
  rintro _ s' ⟨sets, kept'⟩
  exact ⟨sets, kept.trans kept'⟩

theorem SpaceInv.setOther (inv : SpaceInv tramp s p T L M) {f : Nat} (other : f ∉ T) (b : Bytes) :
    SpaceInv tramp { s with mem := upd s.mem f b } p T L M := by
  refine ⟨⟨⟨inv.nodup, inv.range, inv.freeT, inv.freeL, inv.apart⟩, inv.pt.congr ?_, inv.leaves,
    inv.once⟩, inv.size, inv.below, inv.trampoline, inv.trapframe⟩
  intro t table
  refine upd_of_ne ?_ _ _
  rintro rfl
  exact other table

theorem both_moves {a b c d e f g h : Prop} (first : a ∨ b ∨ c ↔ d) (second : e ↔ a ∨ f ∨ g) :
    e ∨ b ∨ h ∨ c ↔ d ∨ f ∨ h ∨ g := by
  tauto

/-- The new image takes the place of the old one; `b` are the bytes of the trap frame. -/
theorem Stacked.commit {lo : Nat} {old : Space} {T L : Finset Nat} {M : Nat → Option Nat}
    (stacked : Stacked tramp s0 s root sz old.trapframe lo) (inv : SpaceInv tramp s0 old T L M)
    (frame : old.trapframe ∉ s0.free ∧ old.trapframe ∉ T ∧ old.trapframe ∉ L) (b : Bytes) :
    wp (procFreepagetable old.pagetable old.sz) E (fun _ s' => ∃ T' L' M',
      SpaceInv tramp s' ⟨root, sz, old.trapframe⟩ T' L' M' ∧
      (old.trapframe ∉ s'.free ∧ old.trapframe ∉ T' ∧ old.trapframe ∉ L') ∧
      (∀ q, q ∈ T' ∨ q ∈ L' → q ∈ s0.free) ∧
      Kept s0 s' T T' (insert old.trapframe L) (insert old.trapframe L'))
      { s with mem := upd s.mem old.trapframe b } := by
  obtain ⟨Tn, Ln, Mn, new, kept, -⟩ := stacked
  have before : ∀ q, q ∈ s.free ∨ q ∈ Tn ∨ q ∈ Ln → q ∈ s0.free := by
    intro q own
    simpa using (kept.pages q).mp own
  have apart : ∀ q, q ∈ Tn ∨ q ∈ Ln → q ∉ T ∧ q ∉ L := by
    intro q own
    have free := before q (Or.inr own)
    exact ⟨inv.freeT q free, inv.freeL q free⟩
  have notNew : old.trapframe ∉ Tn := fun own => frame.1 (before _ (Or.inr (Or.inl own)))
  have held := (inv.away kept new.toSets fun q _ => ⟨by simp, by simp⟩).1
  refine wp_post (procFreepagetable_spec (held.setOther frame.2.1 b)) ?_
  rintro _ s' ⟨sets, kept'⟩
  obtain ⟨new', -⟩ := (new.setOther notNew b).away kept' sets apart
  refine ⟨Tn, Ln, Mn, new', ⟨?_, notNew, fun own => frame.1 (before _ (Or.inr (Or.inr own)))⟩,
    fun q own => before q (Or.inr own), ⟨?_, ?_, kept'.low.trans kept.low⟩⟩
  · intro free
    rcases (kept'.pages old.trapframe).mp (Or.inl free) with free | table | leaf
    · exact frame.1 (before _ (Or.inl free))
    · exact frame.2.1 table
    · exact frame.2.2 leaf
  · intro q
    rw [Finset.mem_insert, Finset.mem_insert]
    have first := kept.pages q
    have second := kept'.pages q
    simp only [Finset.notMem_empty, or_false] at first second
    exact both_moves first second
  · intro q notFree notT notL
    rw [Finset.mem_insert, not_or] at notL
    have gone : q ∉ s.free := fun free => notFree (before q (Or.inl free))
    rw [kept'.frame q gone notT notL.2]
    exact (upd_of_ne notL.1 _ _).trans (kept.frame q notFree (by simp) (by simp))

end Pages

end Xv6Fcfs.Vm
