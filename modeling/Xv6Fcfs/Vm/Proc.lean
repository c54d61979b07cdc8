import Xv6Fcfs.Vm.Grow
import Mathlib.Data.Nat.Bitwise

/-!
# Page tables of processes

`proc_pagetable` makes a table with the trampoline and the trap frame, and
`proc_freepagetable` gives back all pages of a table and of the memory it maps.
-/

set_option autoImplicit false

namespace Xv6Fcfs.Vm

open Xv6Fcfs.Lib

section High
variable {s s' : Phys} {root va : Nat} {T T' L : Finset Nat} {M M' : Nat → Option Nat}
  {E : Panic → Prop}

theorem Holds.changeHigh (holds : Holds s root T L M) (sets : Sets s' T' L) (pt : Pt s'.mem root T' M')
    (same : ∀ va, va % PGSIZE = 0 → va < TRAPFRAME → M' va = M va) : Holds s' root T' L M' := by
  refine ⟨sets, pt, ?_, ?_⟩
  · intro q
    rw [holds.leaves]
    constructor
    · rintro ⟨va, pte, aligned, user, mapped, page⟩
      exact ⟨va, pte, aligned, user, (same va aligned user).trans mapped, page⟩
    · rintro ⟨va, pte, aligned, user, mapped, page⟩
      exact ⟨va, pte, aligned, user, (same va aligned user).symm.trans mapped, page⟩
  · intro va va' pte pte' aligned aligned' user user' mapped mapped'
    rw [same va aligned user] at mapped
    rw [same va' aligned' user'] at mapped'
    exact holds.once va va' pte pte' aligned aligned' user user' mapped mapped'

theorem map_high (holds : Holds s root T L M) (aligned : va % PGSIZE = 0) (above : TRAPFRAME ≤ va)
    (small : va < MAXVA) (unmapped : M va = none) {pa perm : Nat} (low : pa < 2 ^ 56)
    (flags : perm < 2 ^ 64) :
    wp (mappages root va PGSIZE pa perm) E (fun r s' => ∃ T',
      (r = 0 ∧ Holds s' root T' L (upd M va (some (PA2PTE pa ||| perm ||| PTE_V))) ∧
        Kept s s' T T' L L) ∨
      (r = -1 ∧ Holds s' root T' L M ∧ Kept s s' T T' L L)) s := by
  refine wp_post (mappages_spec aligned small holds.pt holds.pool holds.freeT unmapped low flags) ?_
  rintro r s' ⟨T', ⟨rfl, grown⟩ | ⟨rfl, grown⟩⟩
  · obtain ⟨sets, kept, -⟩ := holds.toSets.grown grown
    refine ⟨T', Or.inl ⟨rfl, holds.changeHigh sets grown.pt ?_, kept⟩⟩
    intro va' _ user
    exact upd_of_ne (by omega) _ _
  · obtain ⟨sets, kept, -⟩ := holds.toSets.grown grown
    exact ⟨T', Or.inr ⟨rfl, holds.changeHigh sets grown.pt fun _ _ _ => rfl, kept⟩⟩

theorem unmap_high (holds : Holds s root T L M) (aligned : va % PGSIZE = 0) (above : TRAPFRAME ≤ va)
    (small : va + PGSIZE ≤ MAXVA) :
    wp (uvmunmap root va 1 false) E (fun _ s' => Holds s' root T L (upd M va none) ∧
      Kept s s' T T L L) s := by
  have size : PGSIZE = 4096 := rfl
  refine wp_post (uvmunmap_spec aligned (by omega) holds.pt fun no => by cases no) ?_
  intro _ s' cut
  have sets : Sets s' T L := by
    refine ⟨?_, ?_, ?_, ?_, holds.apart⟩
    · rw [cut.free]
      exact holds.nodup
    · intro p member
      rw [cut.low]
      rw [cut.free] at member
      exact holds.range p member
    · intro p member
      rw [cut.free] at member
      exact holds.freeT p member
    · intro p member
      rw [cut.free] at member
      exact holds.freeL p member
  have cleared : ∀ va', va' % PGSIZE = 0 → clearMap M va 1 va' = upd M va none va' := by
    intro va' aligned'
    by_cases here : va' = va
    · subst here
      rw [upd_self, clearMap, if_pos (by rw [size]; omega)]
    · rw [upd_of_ne here, clearMap, if_neg]
      rw [size] at aligned aligned' ⊢
      omega
  refine ⟨holds.changeHigh sets (cut.pt.mapCongr fun va' aligned' _ => (cleared va' aligned').symm) ?_,
    ⟨?_, ?_, cut.low⟩⟩
  · intro va' _ user
    exact upd_of_ne (by omega) _ _
  · intro p
    rw [cut.free]
    exact Iff.rfl
  · intro p _ notT _
    exact cut.frame p notT (by simp)

theorem freewalk_empty (holds : Holds s root T ∅ M)
    (none : ∀ va, va % PGSIZE = 0 → va < MAXVA → M va = none) :
    wp (freewalk 3 root) E (fun _ s' => Sets s' ∅ ∅ ∧ Kept s s' T ∅ ∅ ∅) s := by
  refine wp_post (freewalk_pt holds.pt none fun q table => holds.range q (Or.inr (Or.inl table))) ?_
  rintro _ s' ⟨freed, gone, tables⟩
  have free : ∀ p, p ∈ s'.free ↔ p ∈ T ∨ p ∈ s.free := by
    intro p
    rw [gone.free, List.mem_append, tables]
  refine ⟨⟨?_, ?_, fun _ _ => by simp, fun _ _ => by simp, fun _ _ => by simp⟩, ⟨?_, ?_, gone.low⟩⟩
  · rw [gone.free, List.nodup_append]
    refine ⟨gone.nodup, holds.nodup, ?_⟩
    rintro p member q old rfl
    exact holds.freeT p old ((tables p).mp member)
  · intro p member
    rw [gone.low]
    rcases member with member | member | member
    · rcases (free p).mp member with table | old
      · exact holds.range p (Or.inr (Or.inl table))
      · exact holds.range p (Or.inl old)
    · simp at member
    · simp at member
  · intro p
    rw [free]
    simp only [Finset.notMem_empty, or_false]
    exact or_comm
  · intro p _ notT _
    exact gone.frame p fun member => notT ((tables p).mp member)

end High

section Tables
variable {tramp frame : Nat} {s s' : Phys} {p : Space} {T L : Finset Nat} {M : Nat → Option Nat}
  {E : Panic → Prop}

theorem holds_fresh {root : Nat} (pool : Sets s ∅ ∅) (list : s.free = root :: s'.free)
    (pt : Pt s'.mem root {root} fun _ => none) (others : ∀ q, q ≠ root → s'.mem q = s.mem q)
    (low : s'.low = s.low) :
    Holds s' root {root} ∅ (fun _ => none) ∧ Kept s s' ∅ {root} ∅ ∅ := by
  have nodup := pool.nodup
  rw [list] at nodup
  obtain ⟨fresh, nodup⟩ := List.nodup_cons.mp nodup
  have old : ∀ q, q ∈ s'.free → q ∈ s.free := by
    intro q member
    rw [list]
    exact List.mem_cons_of_mem _ member
  have first : root ∈ s.free := by
    rw [list]
    exact List.mem_cons_self ..
  refine ⟨⟨⟨nodup, ?_, ?_, fun _ _ => by simp, fun _ _ => by simp⟩, pt, ?_, ?_⟩, ⟨?_, ?_, low⟩⟩
  · intro q member
    rw [low]
    rw [Finset.mem_singleton] at member
    rcases member with member | rfl | no
    · exact pool.range q (Or.inl (old q member))
    · exact pool.range q (Or.inl first)
    · simp at no
  · intro q member here
    rw [Finset.mem_singleton] at here
    exact fresh (here ▸ member)
  · intro q
    simp
  · intro va va' pte pte' _ _ _ _ no
    cases no
  · intro q
    rw [list, List.mem_cons, Finset.mem_singleton]
    simp only [Finset.notMem_empty, or_false]
    exact or_comm
  · intro q notFree _ _
    exact others q fun same => notFree (same ▸ first)

theorem procPagetable_spec (sets : Sets s ∅ ∅) (small : tramp < 2 ^ 44) (page : frame < 2 ^ 44) :
    wp (procPagetable (tramp * PGSIZE) frame) E (fun r s' =>
      (r = none ∧ Sets s' ∅ ∅ ∧ Kept s s' ∅ ∅ ∅ ∅) ∨
      ∃ root T M, r = some root ∧ SpaceInv tramp s' ⟨root, 0, frame⟩ T ∅ M ∧ Kept s s' ∅ T ∅ ∅ ∧
        ∀ va, va < TRAPFRAME → M va = none) s := by
  have lowT : tramp * PGSIZE < 2 ^ 56 := by
    simp only [PGSIZE]
    omega
  have lowF : frame * PGSIZE < 2 ^ 56 := by
    simp only [PGSIZE]
    omega
  rw [procPagetable]
  refine wp_seq uvmcreate_spec ?_
  rintro r s1 (⟨rfl, mem, free, low⟩ | ⟨root, rfl, list, pt, others, low⟩)
  · refine Or.inl ⟨rfl, ⟨?_, ?_, ?_, ?_, sets.apart⟩, ⟨?_, ?_, low⟩⟩
    · rw [free]
      exact sets.nodup
    · rw [free, low]
      exact sets.range
    · rw [free]
      exact sets.freeT
    · rw [free]
      exact sets.freeL
    · intro q
      rw [free]
    · intro q _ _ _
      rw [mem]
  · obtain ⟨holds1, kept1⟩ := holds_fresh sets list pt others low
    refine wp_seq (map_high holds1 (by decide) (by decide) (by decide) rfl lowT (by decide)) ?_
    rintro r s2 ⟨T2, ⟨rfl, holds2, kept2⟩ | ⟨rfl, holds2, kept2⟩⟩
    · rw [if_neg (by decide)]
      refine wp_seq (map_high holds2 (by decide) (by decide) (by decide) ?_ lowF (by decide)) ?_
      · rw [upd_of_ne (by decide)]
      · rintro r s3 ⟨T3, ⟨rfl, holds3, kept3⟩ | ⟨rfl, holds3, kept3⟩⟩
        · rw [if_neg (by decide)]
          refine Or.inr ⟨root, T3, _, rfl, ⟨holds3, Nat.zero_le _, ?_, ?_, ?_⟩,
            (kept1.trans kept2).trans kept3, ?_⟩
          · intro va _ user mapped
            rw [upd_of_ne (by omega), upd_of_ne] at mapped
            · exact absurd rfl mapped
            · have : TRAPFRAME < TRAMPOLINE := by decide
              omega
          · rw [upd_of_ne (by decide), upd_self]
          · rw [upd_self]
          · intro va user
            rw [upd_of_ne (by omega), upd_of_ne]
            have : TRAPFRAME < TRAMPOLINE := by decide
            omega
        · rw [if_pos (by decide)]
          refine wp_seq (unmap_high holds3 (by decide) (by decide) (by decide)) ?_
          rintro _ s4 ⟨holds4, kept4⟩
          rw [upd_upd] at holds4
          simp only [uvmfree, wp_bind, Nat.lt_irrefl, if_false, wp_pure]
          refine wp_post (freewalk_empty holds4 ?_) ?_
          · intro va _ _
            by_cases here : va = TRAMPOLINE
            · rw [here, upd_self]
            · rw [upd_of_ne here]
          · rintro _ s5 ⟨sets5, kept5⟩
            exact Or.inl ⟨trivial, sets5, (((kept1.trans kept2).trans kept3).trans kept4).trans kept5⟩
    · rw [if_pos (by decide)]
      simp only [uvmfree, wp_bind, Nat.lt_irrefl, if_false, wp_pure]
      refine wp_post (freewalk_empty holds2 fun _ _ _ => rfl) ?_
      rintro _ s3 ⟨sets3, kept3⟩
      exact Or.inl ⟨trivial, sets3, (kept1.trans kept2).trans kept3⟩

theorem Holds.no_leaves {root : Nat} (holds : Holds s root T L M)
    (none : ∀ va, va % PGSIZE = 0 → va < TRAPFRAME → M va = none) : L = ∅ := by
  rw [Finset.eq_empty_iff_forall_notMem]
  intro q member
  obtain ⟨va, pte, aligned, user, mapped, -⟩ := (holds.leaves q).mp member
  rw [none va aligned user] at mapped
  cases mapped

theorem SpaceInv.bare (inv : SpaceInv tramp s p T L M) {va : Nat} (aligned : va % PGSIZE = 0)
    (small : va < MAXVA) (above : PGROUNDUP p.sz ≤ va) :
    upd (upd M TRAMPOLINE none) TRAPFRAME none va = none := by
  by_cases frame : va = TRAPFRAME
  · rw [frame, upd_self]
  · rw [upd_of_ne frame]
    by_cases trampoline : va = TRAMPOLINE
    · rw [trampoline, upd_self]
    · rw [upd_of_ne trampoline]
      refine inv.unmapped aligned above ?_
      simp only [TRAPFRAME, TRAMPOLINE, MAXVA, PGSIZE] at *
      omega

theorem procFreepagetable_spec (inv : SpaceInv tramp s p T L M) :
    wp (procFreepagetable p.pagetable p.sz) E (fun _ s' => Sets s' ∅ ∅ ∧ Kept s s' T ∅ L ∅) s := by
  obtain ⟨alignedZ, aboveZ, topZ⟩ := inv.round
  have size : PGSIZE = 4096 := rfl
  rw [procFreepagetable]
  refine wp_seq (unmap_high inv.toHolds (by decide) (by decide) (by decide)) ?_
  rintro _ s1 ⟨holds1, kept1⟩
  refine wp_seq (unmap_high holds1 (by decide) (by decide) (by decide)) ?_
  rintro _ s2 ⟨holds2, kept2⟩
  rw [uvmfree]
  have whole : 0 + PGROUNDUP p.sz / PGSIZE * PGSIZE = PGROUNDUP p.sz := by
    rw [size] at alignedZ ⊢
    omega
  by_cases some : 0 < p.sz
  · simp only [if_pos some, wp_bind]
    refine wp_post (unmap_user holds2 (by decide) (by rw [whole]; exact topZ)) ?_
    rintro _ s3 ⟨L3, holds3, kept3, -⟩
    have gone : ∀ va, va % PGSIZE = 0 → va < MAXVA → clearMap
        (upd (upd M TRAMPOLINE none) TRAPFRAME none) 0 (PGROUNDUP p.sz / PGSIZE) va = none := by
      intro va aligned small
      rw [clearMap, whole]
      by_cases below : va < PGROUNDUP p.sz
      · rw [if_pos ⟨Nat.zero_le va, below⟩]
      · rw [if_neg fun both => below both.2]
        exact inv.bare aligned small (by omega)
    obtain rfl := holds3.no_leaves fun va aligned user =>
      gone va aligned (Nat.lt_trans user (by decide))
    refine wp_post (freewalk_empty holds3 gone) ?_
    rintro _ s4 ⟨sets4, kept4⟩
    exact ⟨sets4, ((kept1.trans kept2).trans kept3).trans kept4⟩
  · simp only [if_neg some]
    have zero : p.sz = 0 := by omega
    have gone : ∀ va, va % PGSIZE = 0 → va < MAXVA →
        upd (upd M TRAMPOLINE none) TRAPFRAME none va = none := by
      intro va aligned small
      refine inv.bare aligned small ?_
      rw [zero]
      exact Nat.zero_le _
    obtain rfl := holds2.no_leaves fun va aligned user =>
      gone va aligned (Nat.lt_trans user (by decide))
    refine wp_post (freewalk_empty holds2 gone) ?_
    rintro _ s3 ⟨sets3, kept3⟩
    exact ⟨sets3, (kept1.trans kept2).trans kept3⟩

theorem SpaceInv.reflag (inv : SpaceInv tramp s p T L M) {va pte pte' : Nat} (user : va < TRAPFRAME)
    (mapped : M va = some pte) (page : leafPage pte' = leafPage pte)
    (sets : Sets s' T L) (pt : Pt s'.mem p.pagetable T (upd M va (some pte'))) :
    SpaceInv tramp s' p T L (upd M va (some pte')) := by
  have leaf : ∀ x y, upd M va (some pte') x = some y → ∃ z, M x = some z ∧ leafPage y = leafPage z := by
    intro x y found
    by_cases here : x = va
    · rw [here, upd_self] at found
      obtain rfl := Option.some.inj found
      exact ⟨pte, here ▸ mapped, page⟩
    · rw [upd_of_ne here] at found
      exact ⟨y, found, rfl⟩
  have back : ∀ x z, M x = some z → ∃ y, upd M va (some pte') x = some y ∧ leafPage y = leafPage z := by
    intro x z found
    by_cases here : x = va
    · rw [here, mapped] at found
      obtain rfl := Option.some.inj found
      exact ⟨pte', by rw [here, upd_self], page⟩
    · exact ⟨z, by rw [upd_of_ne here]; exact found, rfl⟩
  refine ⟨⟨sets, pt, ?_, ?_⟩, inv.size, ?_, ?_, ?_⟩
  · intro q
    rw [inv.leaves]
    constructor
    · rintro ⟨x, z, aligned', user', found, same⟩
      obtain ⟨y, found', same'⟩ := back x z found
      exact ⟨x, y, aligned', user', found', same'.trans same⟩
    · rintro ⟨x, y, aligned', user', found, same⟩
      obtain ⟨z, found', same'⟩ := leaf x y found
      exact ⟨x, z, aligned', user', found', same'.symm.trans same⟩
  · intro x x' y y' alignedX alignedX' userX userX' found found' same
    obtain ⟨z, foundZ, sameZ⟩ := leaf x y found
    obtain ⟨z', foundZ', sameZ'⟩ := leaf x' y' found'
    exact inv.once x x' z z' alignedX alignedX' userX userX' foundZ foundZ'
      (sameZ.symm.trans (same.trans sameZ'))
  · intro x alignedX userX some
    by_cases here : x = va
    · refine inv.below x alignedX userX ?_
      rw [here, mapped]
      simp
    · rw [upd_of_ne here] at some
      exact inv.below x alignedX userX some
  · have above : TRAPFRAME < TRAMPOLINE := by decide
    rw [upd_of_ne (by omega)]
    exact inv.trampoline
  · rw [upd_of_ne (by omega)]
    exact inv.trapframe

/-- `pte & ~PTE_U` -/
theorem without_U (pte : Nat) : (pte - (pte &&& PTE_U)) % 2 = pte % 2 ∧
    (pte - (pte &&& PTE_U)) / 2 ^ 10 = pte / 2 ^ 10 ∧ pte - (pte &&& PTE_U) ≤ pte := by
  have bit : pte &&& PTE_U = (pte.testBit 4).toNat * 2 ^ 4 := Nat.and_two_pow pte 4
  rw [Nat.testBit_eq_decide_div_mod_eq] at bit
  by_cases set : pte / 2 ^ 4 % 2 = 1
  · rw [decide_eq_true set, Bool.toNat_true] at bit
    omega
  · rw [decide_eq_false set, Bool.toNat_false] at bit
    omega

theorem uvmclear_spec (inv : SpaceInv tramp s p T L M) {va pte : Nat} (aligned : va % PGSIZE = 0)
    (user : va < TRAPFRAME) (mapped : M va = some pte) :
    wp (uvmclear p.pagetable va) E (fun _ s' =>
      SpaceInv tramp s' p T L (upd M va (some (pte - (pte &&& PTE_U)))) ∧ Kept s s' T T L L ∧
        SameData s s' L L) s := by
  have small : va < MAXVA := Nat.lt_trans user (by decide)
  rw [uvmclear, wp_bind, wp_walk_read small]
  cases leads : follow (kid s.mem) p.pagetable (path va) with
  | none =>
      rw [inv.pt.leaf_none aligned small leads] at mapped
      cases mapped
  | some t =>
      have leaf := inv.pt.leaf_eq aligned small leads
      rw [mapped] at leaf
      have valid : loadPte s.mem t (PX 0 va) &&& PTE_V ≠ 0 := by
        intro invalid
        rw [if_neg (by simpa using invalid)] at leaf
        cases leaf
      rw [if_pos valid, Option.some.injEq] at leaf
      simp only [Option.map_some, wp_bind, wp_readPte, ← leaf, wp_storePte]
      rw [← leaf] at valid
      obtain ⟨low, high, less⟩ := without_U pte
      have bound : pte - (pte &&& PTE_U) < 2 ^ 64 := by
        have big := loadPte_lt s.mem t (PX 0 va)
        rw [← leaf] at big
        omega
      have still : (pte - (pte &&& PTE_U)) &&& PTE_V ≠ 0 := by
        rw [and_PTE_V] at valid ⊢
        rw [low]
        exact valid
      have stored := inv.pt.store aligned small leads bound
      rw [if_pos still] at stored
      obtain ⟨sets, kept, same⟩ := inv.toSets.grown stored
      refine ⟨inv.reflag user mapped ?_ sets stored.pt, kept, same⟩
      rw [leafPage, leafPage, PTE2PA_eq, PTE2PA_eq, high]

theorem SpaceInv.rebase (inv : SpaceInv tramp s p T L M) (sets : Sets s' T L)
    (same : ∀ q, q ∈ T → s'.mem q = s.mem q) : SpaceInv tramp s' p T L M :=
  ⟨⟨sets, inv.pt.congr same, inv.leaves, inv.once⟩, inv.size, inv.below, inv.trampoline, inv.trapframe⟩

theorem SpaceInv.away (inv : SpaceInv tramp s p T L M) {A A' B B' : Finset Nat}
    (kept : Kept s s' A A' B B') (sets : Sets s' A' B')
    (apart : ∀ q, q ∈ T ∨ q ∈ L → q ∉ A ∧ q ∉ B) :
    SpaceInv tramp s' p T L M ∧ ∀ q, q ∈ T ∨ q ∈ L → s'.mem q = s.mem q := by
  have notFree : ∀ q, q ∈ T ∨ q ∈ L → q ∉ s.free := by
    rintro q (table | leaf) free
    · exact inv.freeT q free table
    · exact inv.freeL q free leaf
  have notFree' : ∀ q, q ∈ T ∨ q ∈ L → q ∉ s'.free := by
    intro q own free
    rcases (kept.pages q).mp (Or.inl free) with old | old | old
    · exact notFree q own old
    · exact (apart q own).1 old
    · exact (apart q own).2 old
  have same : ∀ q, q ∈ T ∨ q ∈ L → s'.mem q = s.mem q := fun q own =>
    kept.frame q (notFree q own) (apart q own).1 (apart q own).2
  refine ⟨inv.rebase ⟨sets.nodup, ?_, ?_, ?_, inv.apart⟩ fun q table => same q (Or.inl table), same⟩
  · rintro q (free | own)
    · exact sets.range q (Or.inl free)
    · rw [kept.low]
      exact inv.range q (Or.inr own)
  · exact fun q free table => notFree' q (Or.inl table) free
  · exact fun q free leaf => notFree' q (Or.inr leaf) free

end Tables

end Xv6Fcfs.Vm
