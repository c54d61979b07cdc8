import Xv6Fcfs.Vm.Proc

/-!
# Copying an address space

`uvmcopy` gives the child a page for each page of the parent, with its flags and bytes, and
leaves the parent alone.  When it fails it takes back what it has mapped.
-/

set_option autoImplicit false

namespace Xv6Fcfs.Vm

open Xv6Fcfs.Lib

/-- The map `N` of the child has the pages of `M` below `top` and is `N0` above. -/
structure Copied (s0 s : Phys) (M N0 N : Nat → Option Nat) (top : Nat) : Prop where
  absent : ∀ va, va % PGSIZE = 0 → va < top → M va = none → N va = none
  present : ∀ va pte, va % PGSIZE = 0 → va < top → M va = some pte →
    ∃ q, N va = some (PA2PTE (q * PGSIZE) ||| PTE_FLAGS pte ||| PTE_V) ∧ q < PHYSTOP / PGSIZE ∧
      s.mem q = s0.mem (leafPage pte)
  above : ∀ va, va % PGSIZE = 0 → top ≤ va → N va = N0 va

structure Apart (s0 : Phys) (T L T0 : Finset Nat) : Prop where
  free : ∀ q, q ∈ T ∨ q ∈ L → q ∉ s0.free
  tables : ∀ q, q ∈ T ∨ q ∈ L → q ∉ T0

section Copy
variable {s0 s s' : Phys} {old new i : Nat} {T L T0 Tc Lc : Finset Nat} {M N0 N N' : Nat → Option Nat}
  {E : Panic → Prop}

theorem Copied.start (s0 : Phys) (M N0 : Nat → Option Nat) : Copied s0 s0 M N0 N0 0 :=
  ⟨fun _ _ no => absurd no (by omega), fun _ _ _ no => absurd no (by omega), fun _ _ _ => rfl⟩

theorem Copied.skip (copied : Copied s0 s M N0 N i) (aligned : i % PGSIZE = 0) (hole : M i = none)
    (unmapped : N0 i = none) : Copied s0 s M N0 N (i + PGSIZE) := by
  have size : PGSIZE = 4096 := rfl
  have split : ∀ va, va % PGSIZE = 0 → va < i + PGSIZE → va ≠ i → va < i := by
    intro va aligned' less differ
    rw [size] at aligned aligned' less
    omega
  refine ⟨?_, ?_, ?_⟩
  · intro va aligned' less absent
    by_cases here : va = i
    · rw [here, copied.above i aligned (Nat.le_refl i), unmapped]
    · exact copied.absent va aligned' (split va aligned' less here) absent
  · intro va pte aligned' less mapped
    by_cases here : va = i
    · rw [here, hole] at mapped
      cases mapped
    · exact copied.present va pte aligned' (split va aligned' less here) mapped
  · intro va aligned' above
    exact copied.above va aligned' (by omega)

theorem Copied.next {pte q : Nat} (copied : Copied s0 s M N0 N i) (aligned : i % PGSIZE = 0)
    (mapped : M i = some pte) (range : q < PHYSTOP / PGSIZE) (bytes : s'.mem q = s0.mem (leafPage pte))
    (same : ∀ va pte q, va % PGSIZE = 0 → va < i → M va = some pte →
      N va = some (PA2PTE (q * PGSIZE) ||| PTE_FLAGS pte ||| PTE_V) → q < PHYSTOP / PGSIZE →
      s'.mem q = s.mem q) :
    Copied s0 s' M N0 (upd N i (some (PA2PTE (q * PGSIZE) ||| PTE_FLAGS pte ||| PTE_V)))
      (i + PGSIZE) := by
  have size : PGSIZE = 4096 := rfl
  have split : ∀ va, va % PGSIZE = 0 → va < i + PGSIZE → va ≠ i → va < i := by
    intro va aligned' less differ
    rw [size] at aligned aligned' less
    omega
  refine ⟨?_, ?_, ?_⟩
  · intro va aligned' less absent
    by_cases here : va = i
    · rw [here, mapped] at absent
      cases absent
    · rw [upd_of_ne here]
      exact copied.absent va aligned' (split va aligned' less here) absent
  · intro va pte' aligned' less mapped'
    by_cases here : va = i
    · subst here
      obtain rfl := Option.some.inj (mapped.symm.trans mapped')
      exact ⟨q, upd_self .., range, bytes⟩
    · have less' := split va aligned' less here
      obtain ⟨q', child, range', bytes'⟩ := copied.present va pte' aligned' less' mapped'
      refine ⟨q', by rw [upd_of_ne here, child], range', ?_⟩
      rw [same va pte' q' aligned' less' mapped' child range', bytes']
  · intro va aligned' above
    rw [upd_of_ne]
    · exact copied.above va aligned' (by omega)
    · rw [size] at above
      omega

theorem Apart.same (apart : Apart s0 T L T0) (kept : Kept s0 s T0 Tc ∅ Lc) {q : Nat}
    (own : q ∈ T ∨ q ∈ L) : s.mem q = s0.mem q :=
  kept.frame q (apart.free q own) (apart.tables q own) (by simp)

theorem Apart.notFree (apart : Apart s0 T L T0) (kept : Kept s0 s T0 Tc ∅ Lc) {q : Nat}
    (own : q ∈ T ∨ q ∈ L) : q ∉ s.free := by
  intro free
  rcases (kept.pages q).mp (Or.inl free) with old | old | old
  · exact apart.free q own old
  · exact apart.tables q own old
  · simp at old

/-- What the loop leaves: all pages, or those below the address at which it failed. -/
structure CopyEnd (s0 s' : Phys) (new : Nat) (T0 : Finset Nat) (M N0 : Nat → Option Nat) (top : Nat)
    (r : Option Nat) : Prop where
  child : ∃ Tc Lc N, Holds s' new Tc Lc N ∧ Kept s0 s' T0 Tc ∅ Lc ∧
    Copied s0 s' M N0 N (r.getD top)
  place : ∀ j, r = some j → j % PGSIZE = 0 ∧ j < top

theorem copyLoop_spec (parent : Pt s0.mem old T M) (apart : Apart s0 T L T0)
    (leaves : ∀ va pte, va % PGSIZE = 0 → va < TRAPFRAME → M va = some pte → leafPage pte ∈ L)
    (free : ∀ va, va % PGSIZE = 0 → va < TRAPFRAME → N0 va = none) :
    ∀ (n i : Nat) (s : Phys) (Tc Lc : Finset Nat) (N : Nat → Option Nat), i % PGSIZE = 0 →
      i + n * PGSIZE ≤ TRAPFRAME → Holds s new Tc Lc N → Kept s0 s T0 Tc ∅ Lc →
      Copied s0 s M N0 N i →
      wp (copyLoop old new n i) E (fun r s' => CopyEnd s0 s' new T0 M N0 (i + n * PGSIZE) r) s := by
  have size : PGSIZE = 4096 := rfl
  intro n
  induction n with
  | zero =>
      intro i s Tc Lc N _ _ holds kept copied
      rw [copyLoop, wp_pure, Nat.zero_mul, Nat.add_zero]
      exact ⟨⟨Tc, Lc, N, holds, kept, copied⟩, fun j no => by cases no⟩
  | succ n ih =>
      intro i s Tc Lc N aligned top holds kept copied
      have sum : i + (n + 1) * PGSIZE = i + PGSIZE + n * PGSIZE := by
        rw [Nat.add_mul]
        omega
      have next : (i + PGSIZE) % PGSIZE = 0 := by
        rw [size] at aligned ⊢
        omega
      have user : i < TRAPFRAME := by
        rw [size] at top
        omega
      have small : i < MAXVA := Nat.lt_trans user (by decide)
      have table : Pt s.mem old T M := parent.congr fun q member => apart.same kept (Or.inl member)
      have fails : ∀ (s' : Phys) (Tc' : Finset Nat), Holds s' new Tc' Lc N → Kept s0 s' T0 Tc' ∅ Lc →
          SameData s s' Lc Lc → CopyEnd s0 s' new T0 M N0 (i + (n + 1) * PGSIZE) (some i) := by
        intro s' Tc' holds' kept' same
        refine ⟨⟨Tc', Lc, N, holds', kept', copied.absent, ?_, copied.above⟩, ?_⟩
        · intro va pte aligned' less mapped
          obtain ⟨q, child, range, bytes⟩ := copied.present va pte aligned' less mapped
          have leaf : q ∈ Lc := (holds.leaves q).mpr ⟨va, _, aligned', Nat.lt_trans less user, child,
            leafPage_entry range (Nat.and_lt_two_pow _ (by decide))⟩
          exact ⟨q, child, range, by rw [same q leaf leaf, bytes]⟩
        · rintro j same'
          obtain rfl := Option.some.inj same'
          refine ⟨aligned, ?_⟩
          rw [size]
          omega
      have skips : M i = none → wp (copyLoop old new n (i + PGSIZE)) E
          (fun r s' => CopyEnd s0 s' new T0 M N0 (i + (n + 1) * PGSIZE) r) s := by
        intro hole
        rw [sum]
        exact ih (i + PGSIZE) s Tc Lc N next (sum ▸ top) holds kept
          (copied.skip aligned hole (free i aligned user))
      rw [copyLoop, wp_bind, wp_walk_read small]
      cases leads : follow (kid s.mem) old (path i) with
      | none => exact skips (table.leaf_none aligned small leads)
      | some t =>
          have leaf := table.leaf_eq aligned small leads
          simp only [Option.map_some, wp_bind, wp_readPte]
          by_cases invalid : loadPte s.mem t (PX 0 i) &&& PTE_V = 0
          · rw [if_neg (by simpa using invalid)] at leaf
            rw [if_pos invalid]
            exact skips leaf
          · rw [if_pos invalid] at leaf
            rw [if_neg invalid, wp_bind]
            generalize loadPte s.mem t (PX 0 i) = pte at leaf
            have own := leaves i pte aligned user leaf
            have flags : PTE_FLAGS pte < 2 ^ 10 := Nat.and_lt_two_pow _ (by decide)
            refine wp_kalloc ?_ ?_
            · refine fails _ Tc ?_ ⟨kept.pages, kept.frame, kept.low⟩ fun _ _ _ => rfl
              exact ⟨⟨holds.nodup, holds.range, holds.freeT, holds.freeL, holds.apart⟩, holds.pt,
                holds.leaves, holds.once⟩
            · intro mem rest list
              have first : mem ∈ s.free := by
                rw [list]
                exact List.mem_cons_self ..
              have differ : leafPage pte ≠ mem := by
                intro same
                exact apart.notFree kept (Or.inr own) (same ▸ first)
              have bytes : upd s.mem mem (fun _ => 5) (PTE2PA pte / PGSIZE) = s0.mem
                (leafPage pte) := by
                rw [← leafPage, upd_of_ne differ]
                exact apart.same kept (Or.inr own)
              have unmapped : N i = none := by
                rw [copied.above i aligned (Nat.le_refl i)]
                exact free i aligned user
              simp only [wp_bind, wp_get, wp_set, upd_upd, bytes]
              refine wp_post (map_fresh holds list aligned user unmapped flags) ?_
              rintro r s1 (⟨rfl, T1, holds1, kept1, same1, fresh⟩ |
                ⟨rfl, T1, holds1, kept1, same1, range1⟩)
              · rw [if_neg (by simp), sum]
                refine ih (i + PGSIZE) s1 T1 (insert mem Lc) _ next (sum ▸ top) holds1
                  (kept.trans kept1) ?_
                refine copied.next aligned leaf (holds.range mem (Or.inl first)).2 fresh ?_
                intro va pte' q aligned' less mapped child range
                have old : q ∈ Lc := (holds.leaves q).mpr
                  ⟨va, _, aligned', Nat.lt_trans less user, child,
                  leafPage_entry range (Nat.and_lt_two_pow _ (by decide))⟩
                exact same1 q old old
              · rw [if_pos (by simp)]
                have page : mem * PGSIZE / PGSIZE = mem := Nat.mul_div_cancel mem (by decide)
                simp only [wp_bind]
                rw [wp_kfree (Nat.mul_mod_left mem PGSIZE) (by rw [page]; exact range1.1)
                  (by rw [page]; exact range1.2), page]
                exact fails _ T1 holds1 (kept.trans kept1) same1

end Copy

section Fork
variable {tramp : Nat} {s s' : Phys} {p c : Space} {T L Tc : Finset Nat} {M N : Nat → Option Nat}
  {E : Panic → Prop}

theorem uvmcopy_spec (parent : SpaceInv tramp s p T L M) (child : SpaceInv tramp s c Tc ∅ N)
    (zero : c.sz = 0) (apart : Apart s T L Tc) :
    wp (uvmcopy p.pagetable c.pagetable p.sz) E (fun r s' => ∃ Tc',
      (r = 0 ∧ ∃ Lc N', SpaceInv tramp s' { c with sz := p.sz } Tc' Lc N' ∧ Kept s s' Tc Tc' ∅ Lc ∧
        Copied s s' M N N' (PGROUNDUP p.sz)) ∨
      (r = -1 ∧ ∃ N', SpaceInv tramp s' c Tc' ∅ N' ∧ Kept s s' Tc Tc' ∅ ∅)) s := by
  have size : PGSIZE = 4096 := rfl
  have frame : TRAPFRAME ≤ MAXVA := by decide
  obtain ⟨alignedZ, aboveZ, topZ⟩ := parent.round
  have free : ∀ va, va % PGSIZE = 0 → va < TRAPFRAME → N va = none := by
    intro va aligned user
    refine child.unmapped aligned ?_ user
    rw [zero]
    exact Nat.zero_le _
  have pages : 0 + pagesBelow 0 p.sz * PGSIZE = PGROUNDUP p.sz := by
    obtain ⟨-, -, near⟩ := PGROUNDUP_spec p.sz (Nat.le_trans parent.size frame)
    rw [size] at alignedZ near
    simp only [pagesBelow, size]
    omega
  rw [uvmcopy]
  refine wp_seq (copyLoop_spec parent.pt apart
    (fun va pte aligned user mapped => (parent.leaves _).mpr ⟨va, pte, aligned, user, mapped, rfl⟩)
    free (pagesBelow 0 p.sz) 0 s Tc ∅ N (by decide) (by rw [pages]; exact topZ) child.toHolds
    (Kept.refl s Tc ∅) (Copied.start s M N)) ?_
  rintro r s1 ⟨⟨T1, L1, N1, holds1, kept1, copied⟩, place⟩
  rw [pages] at copied place
  cases r with
  | none =>
      refine ⟨T1, Or.inl ⟨rfl, L1, N1, child.resize holds1 parent.size ?_ ?_, kept1, copied⟩⟩
      · intro va aligned above user
        rw [copied.above va aligned above]
        exact free va aligned user
      · intro va aligned above
        exact copied.above va aligned (Nat.le_trans topZ above)
  | some j =>
      obtain ⟨alignedJ, lessJ⟩ := place j rfl
      simp only [Option.getD_some] at copied
      have whole : 0 + j / PGSIZE * PGSIZE = j := by
        rw [size] at alignedJ ⊢
        omega
      simp only [wp_bind]
      refine wp_post (unmap_user holds1 (by decide) (by rw [whole]; omega)) ?_
      rintro _ s2 ⟨L2, holds2, kept2, -⟩
      have rest : ∀ va, va % PGSIZE = 0 → clearMap N1 0 (j / PGSIZE) va = N va ∨
          (va < TRAPFRAME ∧ clearMap N1 0 (j / PGSIZE) va = none) := by
        intro va aligned
        rw [clearMap, whole]
        by_cases below : va < j
        · rw [if_pos ⟨Nat.zero_le va, below⟩]
          exact Or.inr ⟨by omega, rfl⟩
        · rw [if_neg fun both => below both.2]
          exact Or.inl (copied.above va aligned (by omega))
      have none : ∀ va, va % PGSIZE = 0 → va < TRAPFRAME → clearMap N1 0 (j / PGSIZE) va = none := by
        intro va aligned user
        rcases rest va aligned with same | ⟨-, gone⟩
        · rw [same]
          exact free va aligned user
        · exact gone
      obtain rfl := holds2.no_leaves none
      have back : SpaceInv tramp s2 { c with sz := c.sz } T1 ∅ (clearMap N1 0 (j / PGSIZE)) := by
        refine child.resize holds2 child.size (fun va aligned _ user => none va aligned user) ?_
        intro va aligned above
        rcases rest va aligned with same | ⟨user, -⟩
        · exact same
        · omega
      exact ⟨T1, Or.inr ⟨rfl, _, back, kept1.trans kept2⟩⟩

end Fork

end Xv6Fcfs.Vm
