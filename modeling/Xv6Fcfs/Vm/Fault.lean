import Xv6Fcfs.Vm.Grow
import Xv6Fcfs.Lib.Count

/-!
# Page faults

A process sees the user pages of its table, and zeros in the pages below its size that it
has not touched yet: `vmfault` gives such a page its memory when it is first used.
-/

set_option autoImplicit false

namespace Xv6Fcfs.Vm

open Xv6Fcfs.Lib

abbrev View := Nat → Option (Nat × Bytes)

/-- The leaf that `vmfault` makes. -/
def faultFlags : Nat := PTE_W ||| PTE_U ||| PTE_R

/-- What the process sees at the page `va`. -/
def seen (s : Phys) (p : Space) : View := fun va =>
  if va % PGSIZE = 0 ∧ va < TRAPFRAME then
    match leafPte s.mem p.pagetable va with
    | some pte => if pte &&& PTE_U = 0 then none else some (PTE_FLAGS pte, s.mem (leafPage pte))
    | none => if va < p.sz then some (faultFlags ||| PTE_V, fun _ => 0) else none
  else none

def resident (s : Phys) (p : Space) : View := fun va =>
  if va % PGSIZE = 0 ∧ va < TRAPFRAME then
    match leafPte s.mem p.pagetable va with
    | some pte => if pte &&& PTE_U = 0 then none else some (PTE_FLAGS pte, s.mem (leafPage pte))
    | none => none
  else none

def holes (s : Phys) (p : Space) : Nat :=
  Nat.count (fun i => leafPte s.mem p.pagetable (i * PGSIZE) = none) (pagesBelow 0 p.sz)

/-- `kalloc` does not fail in the next `n` calls. -/
def Ample (n : Nat) (s : Phys) : Prop := s.refusals = [] ∧ n ≤ s.free.length

def Enough (s : Phys) (p : Space) : Prop := Ample (3 * holes s p) s

section Supply
variable {s s' : Phys} {E : Panic → Prop} {n va root : Nat} {T : Finset Nat} {M : Nat → Option Nat}

theorem Ample.mono {m : Nat} (ample : Ample m s) (le : n ≤ m) : Ample n s :=
  ⟨ample.1, Nat.le_trans le ample.2⟩

theorem Ample.withMem (ample : Ample n s) (mem : Nat → Bytes) : Ample n { s with mem := mem } :=
  ample

theorem wp_kalloc_why {Q : Option Nat → Phys → Prop}
    (fails : ¬ Ample 1 s → Q none { s with refusals := s.refusals.tail })
    (gives : ∀ p rest, s.free = p :: rest → (∀ n, Ample (n + 1) s → Ample n
      { s with mem := upd s.mem p fun _ => 5, free := rest, refusals := s.refusals.tail }) → Q (some p)
      { s with mem := upd s.mem p fun _ => 5, free := rest, refusals := s.refusals.tail }) :
    wp kalloc E Q s := by
  refine (wp_bind _ _).mpr ?_
  rw [wp_get]
  cases hd : s.refusals.headD false with
  | true =>
      refine fails ?_
      rintro ⟨willing, -⟩
      rw [willing] at hd
      cases hd
  | false =>
      cases list : s.free with
      | nil =>
          have short : ¬ Ample 1 s := by
            rintro ⟨-, many⟩
            rw [list, List.length_nil] at many
            omega
          have out := fails short
          rw [list] at out
          exact out
      | cons p rest =>
          refine gives p rest list ?_
          rintro n ⟨willing, many⟩
          rw [list] at many
          exact ⟨by rw [willing]; rfl, Nat.le_of_succ_le_succ many⟩

theorem walkLoop_ample : ∀ (level pagetable : Nat) (s : Phys), Ample (n + level) s →
    wp (walkLoop va true level pagetable) E (fun r s' => r ≠ none ∧ Ample n s') s := by
  intro level
  induction level with
  | zero =>
      intro pagetable s ample
      exact ⟨by simp, ample⟩
  | succ level ih =>
      intro pagetable s ample
      rw [walkLoop, wp_bind, wp_readPte, wp_ite]
      refine ⟨?_, ?_⟩
      · intro _
        exact ih _ s ⟨ample.1, Nat.le_trans (by omega) ample.2⟩
      · intro _
        rw [if_pos rfl, wp_bind]
        refine wp_kalloc_why (fun short => absurd (ample.mono (by omega)) short) ?_
        intro q rest list left
        simp only [wp_bind, wp_fill, wp_storePte]
        exact ih q _ (left (n + level) ample)

theorem mappages_ample (aligned : va % PGSIZE = 0) (small : va < MAXVA) {pa perm : Nat}
    (ample : Ample (n + 2) s) :
    wp (mappages root va PGSIZE pa perm) (fun _ => True) (fun r s' => r = 0 ∧ Ample n s') s := by
  rw [mappages, if_neg (by omega), if_neg (by decide), if_neg (by decide),
    show PGSIZE / PGSIZE = 0 + 1 from rfl, mapLoop, walk, if_neg (by omega)]
  refine wp_seq (walkLoop_ample 2 root s ample) ?_
  rintro r s' ⟨found, left⟩
  cases r with
  | none => exact absurd rfl found
  | some place =>
      simp only [wp_bind, wp_readPte, wp_ite, wp_storePte, mapLoop, wp_pure]
      exact ⟨fun _ => trivial, fun _ => ⟨trivial, left⟩⟩

theorem wp_ismapped {Q : Bool → Phys → Prop} (pt : Pt s.mem root T M) (aligned : va % PGSIZE = 0)
    (small : va < MAXVA) : wp (ismapped root va) E Q s ↔ Q (M va).isSome s := by
  rw [ismapped, wp_bind, wp_walk_read small]
  cases leads : follow (kid s.mem) root (path va) with
  | none =>
      rw [pt.leaf_none aligned small leads]
      exact Iff.rfl
  | some t =>
      rw [pt.leaf_eq aligned small leads]
      simp only [Option.map_some, wp_bind, wp_readPte, wp_pure]
      by_cases valid : loadPte s.mem t (PX 0 va) &&& PTE_V ≠ 0
      · simp only [if_pos valid, decide_eq_true valid, Option.isSome_some]
      · simp only [if_neg valid, decide_eq_false valid, Option.isSome_none]

end Supply

/-! ## `vmfault` -/

/-- What `vmfault` does for the address `va` of the process: nothing, or a page of zeros. -/
inductive Faulted (tramp : Nat) (s s' : Phys) (p : Space) (T L : Finset Nat) (M : Nat → Option Nat)
    (va : Nat) : Nat → Prop where
  | refused (T' : Finset Nat) (inv : SpaceInv tramp s' p T' L M) (kept : Kept s s' T T' L L)
      (same : SameData s s' L L) (why : va < p.sz → M (PGROUNDDOWN va) = none → ¬ Ample 3 s)
      (still : ¬ (va < p.sz ∧ M (PGROUNDDOWN va) = none) → s' = s) :
      Faulted tramp s s' p T L M va 0
  | given (T' : Finset Nat) (mem : Nat) (inside : va < p.sz) (hole : M (PGROUNDDOWN va) = none)
      (fresh : mem ∉ L)
      (inv : SpaceInv tramp s' p T' (insert mem L)
        (upd M (PGROUNDDOWN va) (some (PA2PTE (mem * PGSIZE) ||| faultFlags ||| PTE_V))))
      (kept : Kept s s' T T' L (insert mem L)) (same : SameData s s' L L)
      (zero : s'.mem mem = fun _ => 0) (left : ∀ n, Ample (n + 3) s → Ample n s') :
      Faulted tramp s s' p T L M va (mem * PGSIZE)

section Fault
variable {tramp : Nat} {s s' : Phys} {p : Space} {T T' L L' : Finset Nat} {M M' : Nat → Option Nat}
  {E : Panic → Prop} {va : Nat}

theorem PGROUNDDOWN_spec (va : Nat) :
    PGROUNDDOWN va % PGSIZE = 0 ∧ PGROUNDDOWN va ≤ va ∧ va < PGROUNDDOWN va + PGSIZE := by
  simp only [PGROUNDDOWN, PGSIZE]
  omega

theorem PGROUNDDOWN_lt {va sz : Nat} (less : va < sz) : PGROUNDDOWN va < sz :=
  Nat.lt_of_le_of_lt (PGROUNDDOWN_spec va).2.1 less

theorem SpaceInv.addLeaf (inv : SpaceInv tramp s p T L M) (inside : va < p.sz) {pte : Nat}
    (holds : Holds s' p.pagetable T' L' (upd M va (some pte))) :
    SpaceInv tramp s' p T' L' (upd M va (some pte)) := by
  obtain ⟨-, above, top⟩ := inv.round
  have user : va < TRAPFRAME := by omega
  refine inv.resize holds inv.size ?_ ?_
  · intro va' aligned' above' user'
    rw [upd_of_ne (by omega)]
    exact inv.unmapped aligned' above' user'
  · intro va' _ above'
    rw [upd_of_ne (by omega)]

theorem SpaceInv.allocFailed (inv : SpaceInv tramp s p T L M) :
    SpaceInv tramp { s with refusals := s.refusals.tail } p T L M :=
  ⟨⟨⟨inv.nodup, inv.range, inv.freeT, inv.freeL, inv.apart⟩, inv.pt, inv.leaves, inv.once⟩,
    inv.size, inv.below, inv.trampoline, inv.trapframe⟩

theorem vmfault_spec (inv : SpaceInv tramp s p T L M) (va : Nat) :
    wp (vmfault p p.pagetable va) E (fun r s' => Faulted tramp s s' p T L M va r) s := by
  have frame : TRAPFRAME < MAXVA := by decide
  obtain ⟨aligned, low, near⟩ := PGROUNDDOWN_spec va
  have nothing : ∀ (_ : ¬ (va < p.sz ∧ M (PGROUNDDOWN va) = none)), Faulted tramp s s p T L M va 0 :=
    fun no => .refused T inv (Kept.refl s T L) (fun _ _ _ => rfl)
      (fun inside hole => absurd ⟨inside, hole⟩ no) fun _ => rfl
  rw [vmfault, wp_ite]
  refine ⟨fun beyond => nothing (by omega), ?_⟩
  intro below
  have inside : va < p.sz := by omega
  have user : PGROUNDDOWN va < TRAPFRAME := Nat.lt_of_lt_of_le (PGROUNDDOWN_lt inside) inv.size
  rw [wp_bind, wp_ismapped inv.pt aligned (Nat.lt_trans user frame), wp_ite]
  refine ⟨fun mapped => nothing ?_, ?_⟩
  · rintro ⟨-, hole⟩
    rw [hole] at mapped
    cases mapped
  · intro unmapped
    have hole : M (PGROUNDDOWN va) = none := by simpa using unmapped
    have refuses : ∀ (T' : Finset Nat) (s' : Phys), SpaceInv tramp s' p T' L M → Kept s s' T T' L L →
        SameData s s' L L → ¬ Ample 3 s → Faulted tramp s s' p T L M va 0 :=
      fun T' s' inv' kept same short => .refused T' inv' kept same (fun _ _ => short)
        fun no => absurd ⟨inside, hole⟩ no
    rw [wp_bind]
    refine wp_kalloc_why ?_ ?_
    · intro short
      exact refuses T _ inv.allocFailed ⟨fun _ => Iff.rfl, fun _ _ _ _ => rfl, rfl⟩ (fun _ _ _ => rfl)
        fun ample => short (ample.mono (by omega))
    · intro mem rest list supply
      have first : mem ∈ s.free := by
        rw [list]
        exact List.mem_cons_self ..
      simp only [wp_bind, wp_fill, upd_upd]
      refine wp_post (wp_and (map_fresh inv.toHolds list aligned user hole (by decide))
        (wp_intro (Q := fun r s' => ∀ n, Ample (n + 3) s → r = 0 ∧ Ample n s') ?_
          fun _ _ => trivial)) ?_
      · intro r s' run n ample
        have left := (supply (n + 2) ample).withMem (upd s.mem mem fun _ => 0)
        exact wp_ok (Q := fun r s' => r = 0 ∧ Ample n s')
          (mappages_ample aligned (Nat.lt_trans user frame) left) run
      · rintro r s' ⟨⟨rfl, T', holds, kept, same, zero⟩ | ⟨rfl, T', holds, kept, same, range⟩, ample⟩
        · rw [if_neg (by simp)]
          exact .given T' mem inside hole (inv.freeL mem first)
            (inv.addLeaf (PGROUNDDOWN_lt inside) holds)
            kept same zero fun n plenty => (ample n plenty).2
        · rw [if_pos (by simp)]
          have page : mem * PGSIZE / PGSIZE = mem := Nat.mul_div_cancel mem (by decide)
          simp only [wp_bind]
          rw [wp_kfree (Nat.mul_mod_left mem PGSIZE) (by rw [page]; exact range.1)
            (by rw [page]; exact range.2), page]
          refine refuses T' _ ⟨holds, inv.size, inv.below, inv.trampoline, inv.trapframe⟩ kept same ?_
          intro plenty
          have zero := (ample 0 plenty).1
          cases zero

/-! ## What the process sees -/

theorem leafPage_mem (inv : SpaceInv tramp s p T L M) {pte : Nat} (aligned : va % PGSIZE = 0)
    (user : va < TRAPFRAME) (mapped : M va = some pte) : leafPage pte ∈ L :=
  (inv.leaves _).mpr ⟨va, pte, aligned, user, mapped, rfl⟩

theorem SpaceInv.leafPte_eq (inv : SpaceInv tramp s p T L M) (aligned : va % PGSIZE = 0)
    (user : va < TRAPFRAME) : leafPte s.mem p.pagetable va = M va :=
  inv.pt.map va aligned (Nat.lt_trans user (by decide))

theorem seen_mapped (inv : SpaceInv tramp s p T L M) {pte : Nat} (aligned : va % PGSIZE = 0)
    (user : va < TRAPFRAME) (mapped : M va = some pte) :
    seen s p va = if pte &&& PTE_U = 0 then none else some (PTE_FLAGS pte, s.mem (leafPage pte)) := by
  rw [seen, if_pos ⟨aligned, user⟩, inv.leafPte_eq aligned user, mapped]

theorem seen_hole (inv : SpaceInv tramp s p T L M) (aligned : va % PGSIZE = 0)
    (user : va < TRAPFRAME) (hole : M va = none) :
    seen s p va = if va < p.sz then some (faultFlags ||| PTE_V, fun _ => 0) else none := by
  rw [seen, if_pos ⟨aligned, user⟩, inv.leafPte_eq aligned user, hole]

theorem seen_congr (inv : SpaceInv tramp s p T L M) (inv' : SpaceInv tramp s' p T' L' M')
    (aligned : va % PGSIZE = 0) (user : va < TRAPFRAME) (map : M' va = M va)
    (same : SameData s s' L L) : seen s' p va = seen s p va := by
  cases mapped : M va with
  | none =>
      rw [seen_hole inv aligned user mapped, seen_hole inv' aligned user (map.trans mapped)]
  | some pte =>
      have leaf := leafPage_mem inv aligned user mapped
      rw [seen_mapped inv aligned user mapped, seen_mapped inv' aligned user (map.trans mapped),
        same _ leaf leaf]

theorem seen_ext (same : ∀ va, va % PGSIZE = 0 → va < TRAPFRAME → seen s' p va = seen s p va) :
    seen s' p = seen s p := by
  funext va
  by_cases page : va % PGSIZE = 0 ∧ va < TRAPFRAME
  · exact same va page.1 page.2
  · rw [seen, seen, if_neg page, if_neg page]

theorem and_flag (pte : Nat) {f : Nat} (low : 0x3FF &&& f = f) : pte &&& f = PTE_FLAGS pte &&& f := by
  rw [PTE_FLAGS, Nat.and_assoc, low]

theorem resident_mapped (inv : SpaceInv tramp s p T L M) {pte : Nat} (aligned : va % PGSIZE = 0)
    (user : va < TRAPFRAME) (mapped : M va = some pte) : resident s p va = seen s p va := by
  rw [seen_mapped inv aligned user mapped, resident, if_pos ⟨aligned, user⟩,
    inv.leafPte_eq aligned user, mapped]

theorem resident_hole (inv : SpaceInv tramp s p T L M) (aligned : va % PGSIZE = 0)
    (user : va < TRAPFRAME) (hole : M va = none) : resident s p va = none := by
  rw [resident, if_pos ⟨aligned, user⟩, inv.leafPte_eq aligned user, hole]

theorem resident_outside (page : ¬ (va % PGSIZE = 0 ∧ va < TRAPFRAME)) : resident s p va = none :=
  if_neg page

theorem resident_none (unseen : seen s p va = none) : resident s p va = none := by
  rw [seen] at unseen
  rw [resident]
  split
  · rename_i page
    rw [if_pos page] at unseen
    split
    · rename_i pte mapped
      rw [mapped] at unseen
      exact unseen
    · rfl
  · rfl

theorem resident_congr (inv : SpaceInv tramp s p T L M) (inv' : SpaceInv tramp s' p T' L' M')
    (aligned : va % PGSIZE = 0) (user : va < TRAPFRAME) (map : M' va = M va)
    (same : SameData s s' L L) : resident s' p va = resident s p va := by
  cases mapped : M va with
  | none =>
      rw [resident_hole inv aligned user mapped, resident_hole inv' aligned user (map.trans mapped)]
  | some pte =>
      rw [resident_mapped inv aligned user mapped, resident_mapped inv' aligned user (map.trans mapped)]
      exact seen_congr inv inv' aligned user map same

theorem fault_entry (mem : Nat) : (PA2PTE (mem * PGSIZE) ||| faultFlags ||| PTE_V) &&& PTE_U ≠ 0 ∧
    PTE_FLAGS (PA2PTE (mem * PGSIZE) ||| faultFlags ||| PTE_V) = faultFlags ||| PTE_V := by
  have flags : PTE_FLAGS (PA2PTE (mem * PGSIZE) ||| faultFlags ||| PTE_V) = faultFlags ||| PTE_V := by
    rw [Nat.or_assoc]
    exact PTE_FLAGS_entry _ _ (by decide)
  refine ⟨?_, flags⟩
  rw [and_flag _ (by decide), flags]
  decide

theorem Faulted.seen (inv : SpaceInv tramp s p T L M) {r : Nat}
    (faulted : Faulted tramp s s' p T L M va r) : seen s' p = seen s p := by
  refine seen_ext ?_
  intro va' aligned user
  cases faulted with
  | refused T' inv' kept same why still => exact seen_congr inv inv' aligned user rfl same
  | given T' mem inside hole fresh inv' kept same zero left =>
      by_cases here : va' = PGROUNDDOWN va
      · subst here
        have first : mem ∈ insert mem L := Finset.mem_insert_self ..
        rw [seen_hole inv aligned user hole, if_pos (PGROUNDDOWN_lt inside),
          seen_mapped inv' aligned user (upd_self ..), if_neg (fault_entry mem).1, (fault_entry mem).2,
          leafPage_entry (inv'.range mem (Or.inr (Or.inr first))).2 (by decide), zero]
      · exact seen_congr inv inv' aligned user (upd_of_ne here _ _) same

theorem SpaceInv.holes (inv : SpaceInv tramp s p T L M) :
    holes s p = Nat.count (fun i => M (i * PGSIZE) = none) (pagesBelow 0 p.sz) := by
  have size : PGSIZE = 4096 := rfl
  have small := inv.size
  have frame : TRAPFRAME = (2 ^ 26 - 2) * 4096 := by decide
  refine count_congr _ ?_
  intro i less
  rw [inv.leafPte_eq (Nat.mul_mod_left i PGSIZE)]
  simp only [pagesBelow, size] at less ⊢
  rw [frame] at small ⊢
  omega

theorem pageIndex_lt {sz : Nat} (inside : va < sz) : va / PGSIZE < pagesBelow 0 sz := by
  simp only [pagesBelow, PGSIZE]
  omega

theorem holes_given (inv : SpaceInv tramp s p T L M) {pte : Nat} (inside : va < p.sz)
    (hole : M (PGROUNDDOWN va) = none)
    (inv' : SpaceInv tramp s' p T' L' (upd M (PGROUNDDOWN va) (some pte))) :
    holes s p = holes s' p + 1 := by
  have size : PGSIZE = 4096 := rfl
  have down : PGROUNDDOWN va = va / PGSIZE * PGSIZE := rfl
  have change := count_change (p := fun i => M (i * PGSIZE) = none)
    (q := fun i => upd M (PGROUNDDOWN va) (some pte) (i * PGSIZE) = none) (a := va / PGSIZE)
    (pagesBelow 0 p.sz) (pageIndex_lt inside) ?_
  · rw [inv.holes, inv'.holes]
    rw [← down, upd_self, if_pos hole, if_neg (by simp)] at change
    omega
  · intro b _ differ
    have other : b * PGSIZE ≠ PGROUNDDOWN va := by
      rw [down, size]
      rw [size] at differ
      omega
    rw [upd_of_ne other]

theorem holes_pos (inv : SpaceInv tramp s p T L M) (inside : va < p.sz)
    (hole : M (PGROUNDDOWN va) = none) : 0 < holes s p := by
  rw [inv.holes]
  exact Nat.pos_of_ne_zero (Nat.count_ne_iff_exists.mpr ⟨_, pageIndex_lt inside, hole⟩)

/-- Where there is enough memory, a fault fails only on what is no hole. -/
theorem Faulted.enough (inv : SpaceInv tramp s p T L M) {r : Nat} (kernel : 0 < s.low)
    (faulted : Faulted tramp s s' p T L M va r) (enough : Enough s p) :
    Enough s' p ∧ (r = 0 → va < p.sz → M (PGROUNDDOWN va) ≠ none) := by
  cases faulted with
  | refused T' inv' kept same why still =>
      have solid : va < p.sz → M (PGROUNDDOWN va) ≠ none := by
        intro inside hole
        have some := holes_pos inv inside hole
        exact why inside hole (enough.mono (by omega))
      rw [still fun both => solid both.1 both.2]
      exact ⟨enough, fun _ => solid⟩
  | given T' mem inside hole fresh inv' kept same zero left =>
      have one := holes_given inv inside hole inv'
      refine ⟨left _ (enough.mono (by omega)), ?_⟩
      intro none
      have range := inv'.range mem (Or.inr (Or.inr (Finset.mem_insert_self ..)))
      rw [kept.low] at range
      rw [show PGSIZE = 4096 from rfl] at none
      omega

theorem Faulted.resident (inv : SpaceInv tramp s p T L M) {r : Nat} (aligned : va % PGSIZE = 0)
    (private' : ∀ pte, va < TRAPFRAME → M va = some pte → pte &&& PTE_U = 0)
    (faulted : Faulted tramp s s' p T L M va r) (enough : Enough s p) :
    resident s' p = upd (resident s p) va (Vm.seen s p va) := by
  have down : PGROUNDDOWN va = va := by
    simp only [PGROUNDDOWN, PGSIZE] at *
    omega
  have after := faulted.seen inv
  cases faulted with
  | refused T' inv' kept same why still =>
      have solid : ¬ (va < p.sz ∧ M (PGROUNDDOWN va) = none) := by
        rintro ⟨inside, hole⟩
        have some := holes_pos inv inside hole
        exact why inside hole (enough.mono (by omega))
      have unseen : Vm.seen s p va = none := by
        by_cases user : va < TRAPFRAME
        · cases mapped : M va with
          | some pte => rw [seen_mapped inv aligned user mapped, if_pos (private' pte user mapped)]
          | none =>
              rw [down, mapped] at solid
              rw [seen_hole inv aligned user mapped, if_neg fun inside => solid ⟨inside, rfl⟩]
        · exact if_neg fun both => user both.2
      rw [still solid, unseen, ← resident_none unseen, upd_eq_self]
  | given T' mem inside hole fresh inv' kept same zero left =>
      have user : va < TRAPFRAME := Nat.lt_of_lt_of_le inside inv.size
      rw [down] at inv' hole
      funext va'
      by_cases here : va' = va
      · subst here
        rw [upd_self, resident_mapped inv' aligned user (upd_self ..), after]
      · rw [upd_of_ne here]
        by_cases page : va' % PGSIZE = 0 ∧ va' < TRAPFRAME
        · exact resident_congr inv inv' page.1 page.2 (upd_of_ne here _ _) same
        · rw [resident_outside page, resident_outside page]

/-! ## The page of a user address -/

/-- After `walkaddr` and, where that gives 0, `vmfault`: the process sees what it saw, and
`r` is its page. -/
structure Touched (tramp : Nat) (s s' : Phys) (p : Space) (T L : Finset Nat) (va r : Nat) : Prop where
  space : ∃ T' L' M', SpaceInv tramp s' p T' L' M' ∧ Kept s s' T T' L L' ∧
    (r ≠ 0 → ∃ pte, va < TRAPFRAME ∧ M' va = some pte ∧ pte &&& PTE_U ≠ 0 ∧ r = PTE2PA pte)
  view : seen s' p = seen s p
  enough : Enough s p → Enough s' p ∧ (r = 0 → seen s p va = none)
  now : Enough s p → resident s' p = upd (resident s p) va (seen s p va)

theorem PTE2PA_ne_zero (inv : SpaceInv tramp s p T L M) (kernel : 0 < s.low) {pte : Nat}
    (aligned : va % PGSIZE = 0) (user : va < TRAPFRAME) (mapped : M va = some pte) :
    PTE2PA pte ≠ 0 := by
  intro zero
  have range := inv.range _ (Or.inr (Or.inr (leafPage_mem inv aligned user mapped)))
  rw [leafPage, zero, Nat.zero_div] at range
  omega

theorem SpaceInv.high_page (inv : SpaceInv tramp s p T L M) {pte : Nat} (aligned : va % PGSIZE = 0)
    (above : TRAPFRAME ≤ va) (small : va < MAXVA) (mapped : M va = some pte) : pte &&& PTE_U = 0 := by
  have place : va = TRAMPOLINE ∨ va = TRAPFRAME := by
    simp only [TRAPFRAME, TRAMPOLINE, MAXVA, PGSIZE] at *
    omega
  rw [and_flag _ (by decide)]
  rcases place with rfl | rfl
  · rw [inv.trampoline, Option.some.injEq] at mapped
    rw [← mapped, Nat.or_assoc, PTE_FLAGS_entry _ _ (by decide)]
    decide
  · rw [inv.trapframe, Option.some.injEq] at mapped
    rw [← mapped, Nat.or_assoc, PTE_FLAGS_entry _ _ (by decide)]
    decide

theorem Touched.ofFault (inv : SpaceInv tramp s p T L M) (kernel : 0 < s.low)
    (aligned : va % PGSIZE = 0) {r : Nat}
    (private' : ∀ pte, va < TRAPFRAME → M va = some pte → pte &&& PTE_U = 0)
    (faulted : Faulted tramp s s' p T L M va r) : Touched tramp s s' p T L va r := by
  have down : PGROUNDDOWN va = va := by
    simp only [PGROUNDDOWN, PGSIZE] at *
    omega
  refine ⟨?_, faulted.seen inv, ?_, faulted.resident inv aligned private'⟩
  · cases faulted with
    | refused T' inv' kept same why still => exact ⟨T', L, M, inv', kept, fun no => absurd rfl no⟩
    | given T' mem inside hole fresh inv' kept same zero left =>
        have range := inv'.range mem (Or.inr (Or.inr (Finset.mem_insert_self ..)))
        have bound : mem * PGSIZE < 2 ^ 56 := by
          have high := range.2
          rw [show PHYSTOP / PGSIZE = 0x88000 from by decide] at high
          simp only [PGSIZE]
          omega
        refine ⟨T', insert mem L, _, inv', kept, fun _ => ⟨_, ?_, ?_, (fault_entry mem).1, ?_⟩⟩
        · exact Nat.lt_of_lt_of_le inside inv.size
        · rw [down, upd_self]
        · rw [Nat.or_assoc, PTE2PA_entry (Nat.mul_mod_left mem PGSIZE) bound (by decide)]
  · intro enough
    obtain ⟨enough', solid⟩ := faulted.enough inv kernel enough
    refine ⟨enough', ?_⟩
    intro none
    by_cases user : va < TRAPFRAME
    · cases mapped : M va with
      | some pte => rw [seen_mapped inv aligned user mapped, if_pos (private' pte user mapped)]
      | none =>
          have outside : ¬ va < p.sz := fun inside => solid none inside (by rw [down]; exact mapped)
          rw [seen_hole inv aligned user mapped, if_neg outside]
    · rw [Vm.seen, if_neg fun both => user both.2]

theorem userAddr_spec (inv : SpaceInv tramp s p T L M) (kernel : 0 < s.low)
    (aligned : va % PGSIZE = 0) :
    wp (userAddr p p.pagetable va) E (fun r s' => Touched tramp s s' p T L va r) s := by
  have frame : TRAPFRAME < MAXVA := by decide
  rw [userAddr, wp_bind, wp_walkaddr inv.pt aligned, wp_ite]
  refine ⟨?_, ?_⟩
  · intro missing
    refine wp_post (vmfault_spec inv va) ?_
    intro r s' faulted
    refine Touched.ofFault inv kernel aligned ?_ faulted
    intro pte user mapped
    rw [if_pos (Nat.lt_trans user frame), mapped] at missing
    by_contra allowed
    simp only [if_neg allowed] at missing
    exact PTE2PA_ne_zero inv kernel aligned user mapped missing
  · intro found
    rw [wp_pure]
    by_cases small : va < MAXVA
    · cases mapped : M va with
      | none => simp only [if_pos small, mapped, not_true_eq_false] at found
      | some pte =>
          simp only [if_pos small, mapped] at found ⊢
          by_cases allowed : pte &&& PTE_U = 0
          · rw [if_pos allowed] at found
            exact absurd rfl found
          · rw [if_neg allowed] at found ⊢
            have user : va < TRAPFRAME := by
              by_contra above
              exact allowed (inv.high_page aligned (by omega) small mapped)
            refine ⟨⟨T, L, M, inv, Kept.refl s T L, fun _ => ⟨pte, user, mapped, allowed, rfl⟩⟩, rfl,
              fun enough => ⟨enough, fun none => absurd none found⟩, fun _ => ?_⟩
            rw [← resident_mapped inv aligned user mapped, upd_eq_self]
    · rw [if_neg small] at found
      exact absurd rfl found

end Fault

end Xv6Fcfs.Vm
