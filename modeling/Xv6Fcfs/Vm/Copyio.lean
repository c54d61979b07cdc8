import Xv6Fcfs.Vm.Fault

/-!
# Copies between the kernel and a process

`copyin` and `copyout` work on what the process sees: their results are functions of the
view `seen`, whatever is mapped of it.  `copyinstr` reads the pages of the table only.
-/

set_option autoImplicit false

namespace Xv6Fcfs.Vm

open Xv6Fcfs.Lib

/-! ## The copies on a view -/

def copyinView (V : View) : Nat → Nat → Nat → List UInt8 → Int × List UInt8
  | 0, _, _, dst => (0, dst)
  | fuel + 1, srcva, len, dst =>
      if len = 0 then (0, dst)
      else
        match V (PGROUNDDOWN srcva) with
        | none => (-1, dst)
        | some (_, b) =>
            copyinView V fuel (wrap64 (PGROUNDDOWN srcva + PGSIZE)) (len - chunk srcva len)
              (dst ++ slice b (srcva - PGROUNDDOWN srcva) (chunk srcva len))

/-- The resident pages after a `copyin`: those it came to have been made so. -/
def copyinPages (V : View) : Nat → Nat → Nat → View → View
  | 0, _, _, R => R
  | fuel + 1, srcva, len, R =>
      if len = 0 then R
      else
        match V (PGROUNDDOWN srcva) with
        | none => R
        | some page =>
            copyinPages V fuel (wrap64 (PGROUNDDOWN srcva + PGSIZE)) (len - chunk srcva len)
              (upd R (PGROUNDDOWN srcva) (some page))

/-- `b` with `n` bytes of `src` at `off`. -/
def blitted (b : Bytes) (off : Nat) (src : List UInt8) (n : Nat) : Bytes := fun i =>
  if off ≤ i ∧ i < off + n then src.getD (i - off) 0 else b i

def copyoutView : Nat → Nat → List UInt8 → View → Int × View
  | 0, _, _, V => (0, V)
  | fuel + 1, dstva, src, V =>
      if src = [] then (0, V)
      else
        match V (PGROUNDDOWN dstva) with
        | none => (-1, V)
        | some (flags, b) =>
            if flags &&& PTE_W = 0 then (-1, V)
            else
              copyoutView fuel (wrap64 (PGROUNDDOWN dstva + PGSIZE)) (src.drop (chunk dstva src.length))
                (upd V (PGROUNDDOWN dstva) (some (flags,
                  blitted b (dstva - PGROUNDDOWN dstva) src (chunk dstva src.length))))

def copyoutPages : Nat → Nat → List UInt8 → View → View → View
  | 0, _, _, _, R => R
  | fuel + 1, dstva, src, V, R =>
      if src = [] then R
      else
        match V (PGROUNDDOWN dstva) with
        | none => R
        | some (flags, b) =>
            if flags &&& PTE_W = 0 then upd R (PGROUNDDOWN dstva) (some (flags, b))
            else
              let page := (flags, blitted b (dstva - PGROUNDDOWN dstva) src (chunk dstva src.length))
              copyoutPages fuel (wrap64 (PGROUNDDOWN dstva + PGSIZE))
                (src.drop (chunk dstva src.length))
                (upd V (PGROUNDDOWN dstva) (some page)) (upd R (PGROUNDDOWN dstva) (some page))

def copyinstrView (V : View) : Nat → Nat → Nat → List UInt8 → Int × List UInt8
  | 0, _, _, dst => (-1, dst)
  | fuel + 1, srcva, max, dst =>
      if max = 0 then (-1, dst)
      else
        match V (PGROUNDDOWN srcva) with
        | none => (-1, dst)
        | some (_, b) =>
            let n := chunk srcva max
            let text := (slice b (srcva - PGROUNDDOWN srcva) n).takeWhile (· ≠ 0)
            if text.length < n then (0, dst ++ text ++ [0])
            else copyinstrView V fuel (wrap64 (PGROUNDDOWN srcva + PGSIZE)) (max - n) (dst ++ text)

section Copies
variable {tramp : Nat} {s s' : Phys} {p : Space} {T T' L L' : Finset Nat} {M M' : Nat → Option Nat}
  {E : Panic → Prop} {va : Nat}

theorem Touched.page {r : Nat} (touched : Touched tramp s s' p T L va r) (aligned : va % PGSIZE = 0)
    (found : r ≠ 0) : ∃ pte, leafPte s'.mem p.pagetable va = some pte ∧ va < TRAPFRAME ∧
      r / PGSIZE = leafPage pte ∧ seen s p va = some (PTE_FLAGS pte, s'.mem (r / PGSIZE)) := by
  obtain ⟨T', L', M', inv', kept, page⟩ := touched.space
  obtain ⟨pte, user, mapped, allowed, rfl⟩ := page found
  refine ⟨pte, (inv'.leafPte_eq aligned user).trans mapped, user, rfl, ?_⟩
  rw [← touched.view, seen_mapped inv' aligned user mapped, if_neg allowed]
  rfl

theorem copyinLoop_spec : ∀ (fuel srcva len : Nat) (dst : List UInt8) (s : Phys) (T L : Finset Nat)
    (M : Nat → Option Nat), SpaceInv tramp s p T L M → 0 < s.low →
    wp (copyinLoop p p.pagetable fuel srcva len dst) E (fun r s' => Became tramp s s' p T L ∧
      seen s' p = seen s p ∧ (Enough s p → Enough s' p ∧ r = copyinView (seen s p) fuel srcva len dst ∧
        resident s' p = copyinPages (seen s p) fuel srcva len (resident s p))) s := by
  intro fuel
  induction fuel with
  | zero =>
      intro srcva len dst s T L M inv kernel
      exact ⟨⟨T, L, M, inv, Kept.refl s T L⟩, rfl, fun enough => ⟨enough, rfl, rfl⟩⟩
  | succ fuel ih =>
      intro srcva len dst s T L M inv kernel
      rw [copyinLoop, copyinView, copyinPages, wp_ite]
      refine ⟨?_, ?_⟩
      · intro zero
        rw [if_pos zero, if_pos zero]
        exact ⟨⟨T, L, M, inv, Kept.refl s T L⟩, rfl, fun enough => ⟨enough, rfl, rfl⟩⟩
      · intro more
        rw [if_neg more, if_neg more]
        obtain ⟨aligned, -, -⟩ := PGROUNDDOWN_spec srcva
        refine wp_seq (userAddr_spec inv kernel aligned) ?_
        intro pa0 s' touched
        obtain ⟨T', L', M', inv', kept, -⟩ := touched.space
        rw [wp_ite]
        refine ⟨?_, ?_⟩
        · intro missing
          refine ⟨⟨T', L', M', inv', kept⟩, touched.view, ?_⟩
          intro enough
          obtain ⟨enough', none⟩ := touched.enough enough
          have here := touched.now enough
          rw [none missing, ← resident_none (none missing), upd_eq_self] at here
          rw [none missing]
          exact ⟨enough', rfl, here⟩
        · intro found
          obtain ⟨pte, -, -, -, sees⟩ := touched.page aligned found
          rw [wp_bind, wp_get, sees]
          refine wp_post (ih _ _ _ s' T' L' M' inv' (by rw [kept.low]; exact kernel)) ?_
          rintro r s'' ⟨⟨T'', L'', M'', inv'', kept'⟩, view, exactly⟩
          refine ⟨⟨T'', L'', M'', inv'', kept.trans kept'⟩, view.trans touched.view, ?_⟩
          intro enough
          have here := touched.now enough
          rw [sees] at here
          simp only [← touched.view, ← here]
          exact exactly (touched.enough enough).1

theorem SpaceInv.write (inv : SpaceInv tramp s p T L M) {q : Nat} (leaf : q ∈ L) (b : Bytes) :
    SpaceInv tramp { s with mem := upd s.mem q b } p T L M ∧
      Kept s { s with mem := upd s.mem q b } T T L L := by
  refine ⟨⟨⟨⟨inv.nodup, inv.range, inv.freeT, inv.freeL, inv.apart⟩, inv.pt.congr ?_, inv.leaves,
    inv.once⟩, inv.size, inv.below, inv.trampoline, inv.trapframe⟩, ⟨fun _ => Iff.rfl, ?_, rfl⟩⟩
  · intro t table
    refine upd_of_ne ?_ _ _
    rintro rfl
    exact inv.apart t table leaf
  · intro q' _ _ notLeaf
    refine upd_of_ne ?_ _ _
    rintro rfl
    exact notLeaf leaf

theorem seen_write (inv : SpaceInv tramp s p T L M) {pte : Nat} (aligned : va % PGSIZE = 0)
    (user : va < TRAPFRAME) (mapped : M va = some pte) (allowed : pte &&& PTE_U ≠ 0) (b : Bytes) :
    seen { s with mem := upd s.mem (leafPage pte) b } p =
      upd (seen s p) va (some (PTE_FLAGS pte, b)) := by
  have inv' := (inv.write (leafPage_mem inv aligned user mapped) b).1
  funext va'
  by_cases here : va' = va
  · subst here
    rw [upd_self, seen_mapped inv' aligned user mapped, if_neg allowed]
    simp only [upd_self]
  · rw [upd_of_ne here]
    by_cases page : va' % PGSIZE = 0 ∧ va' < TRAPFRAME
    · obtain ⟨aligned', user'⟩ := page
      cases mapped' : M va' with
      | none => rw [seen_hole inv aligned' user' mapped', seen_hole inv' aligned' user' mapped']
      | some pte' =>
          have differ : leafPage pte' ≠ leafPage pte := fun same =>
            here (inv.once va' va pte' pte aligned' aligned user' user mapped' mapped same)
          rw [seen_mapped inv aligned' user' mapped', seen_mapped inv' aligned' user' mapped']
          simp only [upd_of_ne differ]
    · rw [seen, seen, if_neg page, if_neg page]

theorem resident_write (inv : SpaceInv tramp s p T L M) {pte : Nat} (aligned : va % PGSIZE = 0)
    (user : va < TRAPFRAME) (mapped : M va = some pte) (allowed : pte &&& PTE_U ≠ 0) (b : Bytes) :
    resident { s with mem := upd s.mem (leafPage pte) b } p =
      upd (resident s p) va (some (PTE_FLAGS pte, b)) := by
  have inv' := (inv.write (leafPage_mem inv aligned user mapped) b).1
  have sees := seen_write inv aligned user mapped allowed b
  funext va'
  by_cases here : va' = va
  · subst here
    rw [resident_mapped inv' aligned user mapped, sees, upd_self, upd_self]
  · rw [upd_of_ne here]
    by_cases page : va' % PGSIZE = 0 ∧ va' < TRAPFRAME
    · cases mapped' : M va' with
      | none => rw [resident_hole inv page.1 page.2 mapped', resident_hole inv' page.1 page.2 mapped']
      | some pte' =>
          rw [resident_mapped inv page.1 page.2 mapped',
            resident_mapped inv' page.1 page.2 mapped', sees,
            upd_of_ne here]
    · rw [resident_outside page, resident_outside page]

theorem Enough.write (inv : SpaceInv tramp s p T L M) {q : Nat} (leaf : q ∈ L) (b : Bytes)
    (enough : Enough s p) : Enough { s with mem := upd s.mem q b } p := by
  have same : holes { s with mem := upd s.mem q b } p = holes s p := by
    rw [inv.holes, (inv.write leaf b).1.holes]
  unfold Enough
  rw [same]
  exact enough

theorem wp_blit {Q : Unit → Phys → Prop} (q off : Nat) (src : List UInt8) (n : Nat) :
    wp (blit q off (fun k => src.getD k 0) n) E Q s ↔
      Q () { s with mem := upd s.mem q (blitted (s.mem q) off src n) } := Iff.rfl

theorem wp_walk_leaf {Q : Option (Nat × Fin 512) → Phys → Prop} {pte root : Nat} (small : va < MAXVA)
    (leaf : leafPte s.mem root va = some pte)
    (found : ∀ t i, loadPte s.mem t i = pte → Q (some (t, i)) s) : wp (walk root va false) E Q s := by
  rw [wp_walk_read small]
  rw [leafPte] at leaf
  cases leads : follow (kid s.mem) root (path va) with
  | none =>
      rw [leads] at leaf
      cases leaf
  | some t =>
      rw [leads] at leaf
      simp only at leaf
      split at leaf
      · exact found t _ (Option.some.inj leaf)
      · cases leaf

theorem copyoutLoop_spec : ∀ (fuel dstva : Nat) (src : List UInt8) (s : Phys) (T L : Finset Nat)
    (M : Nat → Option Nat), SpaceInv tramp s p T L M → 0 < s.low →
    wp (copyoutLoop p p.pagetable fuel dstva src) E (fun r s' => Became tramp s s' p T L ∧
      (Enough s p → Enough s' p ∧ (r, seen s' p) = copyoutView fuel dstva src (seen s p) ∧
        resident s' p = copyoutPages fuel dstva src (seen s p) (resident s p))) s := by
  have frame : TRAPFRAME < MAXVA := by decide
  intro fuel
  induction fuel with
  | zero =>
      intro dstva src s T L M inv kernel
      exact ⟨⟨T, L, M, inv, Kept.refl s T L⟩, fun enough => ⟨enough, rfl, rfl⟩⟩
  | succ fuel ih =>
      intro dstva src s T L M inv kernel
      rw [copyoutLoop, copyoutView, copyoutPages, wp_ite]
      refine ⟨?_, ?_⟩
      · intro empty
        rw [if_pos empty, if_pos empty]
        exact ⟨⟨T, L, M, inv, Kept.refl s T L⟩, fun enough => ⟨enough, rfl, rfl⟩⟩
      · intro more
        rw [if_neg more, if_neg more]
        obtain ⟨aligned, -, -⟩ := PGROUNDDOWN_spec dstva
        rw [wp_ite]
        refine ⟨?_, ?_⟩
        · intro beyond
          have none : seen s p (PGROUNDDOWN dstva) = none := if_neg (by omega)
          rw [none]
          exact ⟨⟨T, L, M, inv, Kept.refl s T L⟩, fun enough => ⟨enough, rfl, rfl⟩⟩
        · intro _
          refine wp_seq (userAddr_spec inv kernel aligned) ?_
          intro pa0 s' touched
          obtain ⟨T', L', M', inv', kept, page⟩ := touched.space
          rw [wp_ite]
          refine ⟨?_, ?_⟩
          · intro missing
            refine ⟨⟨T', L', M', inv', kept⟩, ?_⟩
            intro enough
            obtain ⟨enough', none⟩ := touched.enough enough
            have here := touched.now enough
            rw [none missing, ← resident_none (none missing), upd_eq_self] at here
            rw [none missing, touched.view]
            exact ⟨enough', rfl, here⟩
          · intro found
            obtain ⟨pte, user, mapped, allowed, rfl⟩ := page found
            have sees : seen s p (PGROUNDDOWN dstva) = some (PTE_FLAGS pte, s'.mem (leafPage pte)) := by
              rw [← touched.view, seen_mapped inv' aligned user mapped, if_neg allowed]
            have leaf := leafPage_mem inv' aligned user mapped
            have here := (inv'.leafPte_eq aligned user).trans mapped
            rw [wp_bind]
            refine wp_walk_leaf (Nat.lt_trans user frame) here ?_
            intro t i entry
            simp only [wp_bind, wp_readPte, entry, sees, ← and_flag pte (f := PTE_W) (by decide)]
            by_cases readonly : pte &&& PTE_W = 0
            · rw [if_pos readonly, if_pos readonly, if_pos readonly]
              refine ⟨⟨T', L', M', inv', kept⟩, fun enough => ⟨(touched.enough enough).1, ?_, ?_⟩⟩
              · rw [touched.view]
              · rw [touched.now enough, sees]
            · rw [if_neg readonly, if_neg readonly, if_neg readonly, wp_bind, wp_blit, ← leafPage]
              have written := inv'.write leaf (blitted (s'.mem (leafPage pte))
                (dstva - PGROUNDDOWN dstva) src (chunk dstva src.length))
              refine wp_post (ih _ _ _ T' L' M' written.1 ?_) ?_
              · change 0 < s'.low
                rw [kept.low]
                exact kernel
              · rintro r s'' ⟨⟨T'', L'', M'', inv'', kept'⟩, exactly⟩
                refine ⟨⟨T'', L'', M'', inv'', (kept.trans written.2).trans kept'⟩, ?_⟩
                intro enough
                have same := exactly (Enough.write inv' leaf _ (touched.enough enough).1)
                rw [seen_write inv' aligned user mapped allowed, touched.view,
                  resident_write inv' aligned user mapped allowed, touched.now enough, upd_upd] at same
                exact same

theorem wp_walkaddr_resident {Q : Nat → Phys → Prop} (inv : SpaceInv tramp s p T L M)
    (kernel : 0 < s.low) (aligned : va % PGSIZE = 0)
    (missing : resident s p va = none → Q 0 s)
    (found : ∀ pa flags, pa ≠ 0 → resident s p va = some (flags, s.mem (pa / PGSIZE)) → Q pa s) :
    wp (walkaddr p.pagetable va) E Q s := by
  have frame : TRAPFRAME < MAXVA := by decide
  rw [wp_walkaddr inv.pt aligned]
  by_cases user : va < TRAPFRAME
  · rw [if_pos (Nat.lt_trans user frame)]
    rw [resident, if_pos ⟨aligned, user⟩, inv.leafPte_eq aligned user] at missing found
    cases mapped : M va with
    | none =>
        rw [mapped] at missing
        exact missing rfl
    | some pte =>
        simp only [mapped] at missing found ⊢
        by_cases forbidden : pte &&& PTE_U = 0
        · rw [if_pos forbidden]
          exact missing (if_pos forbidden)
        · rw [if_neg forbidden]
          exact found _ _ (PTE2PA_ne_zero inv kernel aligned user mapped) (if_neg forbidden)
  · have none := missing (if_neg fun both => user both.2)
    by_cases small : va < MAXVA
    · rw [if_pos small]
      cases mapped : M va with
      | none => exact none
      | some pte =>
          simp only
          rw [if_pos (inv.high_page aligned (by omega) small mapped)]
          exact none
    · rw [if_neg small]
      exact none

theorem copyinstrLoop_spec (inv : SpaceInv tramp s p T L M) (kernel : 0 < s.low) :
    ∀ (fuel srcva max : Nat) (dst : List UInt8), wp (copyinstrLoop p.pagetable fuel srcva max dst) E
      (fun r s' => s' = s ∧ r = copyinstrView (resident s p) fuel srcva max dst) s := by
  intro fuel
  induction fuel with
  | zero =>
      intro srcva max dst
      exact ⟨rfl, rfl⟩
  | succ fuel ih =>
      intro srcva max dst
      rw [copyinstrLoop, copyinstrView, wp_ite]
      refine ⟨?_, ?_⟩
      · intro zero
        rw [if_pos zero]
        exact ⟨rfl, rfl⟩
      · intro more
        rw [if_neg more, wp_bind]
        refine wp_walkaddr_resident inv kernel (PGROUNDDOWN_spec srcva).1 ?_ ?_
        · intro none
          rw [if_pos rfl, none]
          exact ⟨rfl, rfl⟩
        · intro pa flags found page
          rw [if_neg found, page, wp_bind, wp_get]
          simp only [wp_ite]
          refine ⟨?_, ?_⟩
          · intro ends
            rw [if_pos ends]
            exact ⟨rfl, rfl⟩
          · intro goes
            rw [if_neg goes]
            exact ih _ _ _

end Copies

end Xv6Fcfs.Vm
