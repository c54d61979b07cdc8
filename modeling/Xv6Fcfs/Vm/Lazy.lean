import Xv6Fcfs.Vm.Copyio
import Xv6Fcfs.Vm.Proc
import Mathlib.Data.List.TakeWhile

/-!
# Lazy allocation

A page that `sys_sbrk` has reserved lazily holds zeros for the process, but gets its memory
when it is touched.  `copyin` and `copyout` touch it through `vmfault`, so that a system call
cannot tell it from a page mapped before.  `copyinstr` has no such path and fails where its
scan comes to the page.
-/

set_option autoImplicit false

namespace Xv6Fcfs.Vm

open Xv6Fcfs.Lib

/-! ## System calls and user memory -/

/-- What a system call does to user memory, each copy depending on the results before. -/
inductive UserCall (α : Type) where
  | done (result : α)
  | copyin (srcva len : Nat) (next : Int × List UInt8 → UserCall α)
  | copyout (dstva : Nat) (src : List UInt8) (next : Int → UserCall α)
  | copyinstr (srcva max : Nat) (next : Int × List UInt8 → UserCall α)

namespace UserCall
variable {α : Type}

def run (p : Space) : UserCall α → VmM α
  | .done result => return result
  | .copyin srcva len next => do
      let r ← Vm.copyin p p.pagetable srcva len
      (next r).run p
  | .copyout dstva src next => do
      let r ← Vm.copyout p p.pagetable dstva src
      (next r).run p
  | .copyinstr srcva max next => do
      let r ← Vm.copyinstr p.pagetable srcva max
      (next r).run p

end UserCall

/-! ## The page and the scan of `copyinstr` -/

/-- The page `va` is below the size and has no memory. -/
structure Reserved (s : Phys) (p : Space) (va : Nat) : Prop where
  aligned : va % PGSIZE = 0
  below : va < p.sz
  absent : leafPte s.mem p.pagetable va = none

def zeroPage : Nat × Bytes := (faultFlags ||| PTE_V, fun _ => 0)

/-- A process that can run, with a page for each of its holes. -/
structure Ready (tramp : Nat) (s : Phys) (p : Space) : Prop where
  space : ∃ T L M, SpaceInv tramp s p T L M
  kernel : 0 < s.low
  enough : Enough s p

def pages (s : Phys) (p : Space) : View := fun va =>
  if va % PGSIZE = 0 ∧ va < TRAPFRAME then
    (leafPte s.mem p.pagetable va).map fun pte => (PTE_FLAGS pte, s.mem (leafPage pte))
  else none

/-- `s'` is `s` with the page `va` mapped to a page of zeros already. -/
structure Premapped (tramp : Nat) (s s' : Phys) (p : Space) (va : Nat) : Prop where
  ready : Ready tramp s' p
  pages : pages s' p = upd (pages s p) va (some zeroPage)

/-- The call gives the same result and leaves the same memory to the process in both states. -/
def Alike {α : Type} (p : Space) (c : UserCall α) (s s' : Phys) : Prop :=
  ∃ a t t', c.run p s = .ok (a, t) ∧ c.run p s' = .ok (a, t') ∧ seen t p = seen t' p

/-- The scan of `copyinstr` comes to the page `va`, which is not there. -/
def Reaches (R : View) (va srcva max : Nat) : Prop :=
  R va = none ∧ ∃ k, k < max ∧ PGROUNDDOWN (srcva + k) = va ∧ ∀ j, j < k →
    ∃ flags b, R (PGROUNDDOWN (srcva + j)) = some (flags, b) ∧
      b (srcva + j - PGROUNDDOWN (srcva + j)) ≠ 0

/-- No `copyinstr` of the call comes to the page `va`. -/
def UserCall.Clear {α : Type} (p : Space) (va : Nat) : UserCall α → Phys → Prop
  | .done _, _ => True
  | .copyin srcva len next, s =>
      ∀ r s', Vm.copyin p p.pagetable srcva len s = .ok (r, s') → (next r).Clear p va s'
  | .copyout dstva src next, s =>
      ∀ r s', Vm.copyout p p.pagetable dstva src s = .ok (r, s') → (next r).Clear p va s'
  | .copyinstr srcva max next, s => ¬ Reaches (resident s p) va srcva max ∧
      ∀ r s', Vm.copyinstr p.pagetable srcva max s = .ok (r, s') → (next r).Clear p va s'

section Scan
variable {R R' : View} {va : Nat}

/-- The two states differ in the page `va` at most. -/
structure Ahead (va : Nat) (R R' : View) : Prop where
  others : ∀ va', va' ≠ va → R' va' = R va'
  here : R' va = R va ∨ (R va = none ∧ R' va = some zeroPage)

theorem Ahead.upd (ahead : Ahead va R R') (va' : Nat) (page : Option (Nat × Bytes)) :
    Ahead va (upd R va' page) (upd R' va' page) := by
  refine ⟨?_, ?_⟩
  · intro x differ
    by_cases same : x = va'
    · rw [same, upd_self, upd_self]
    · rw [upd_of_ne same, upd_of_ne same, ahead.others x differ]
  · by_cases same : va = va'
    · rw [same, upd_self, upd_self]
      exact Or.inl rfl
    · rw [upd_of_ne same, upd_of_ne same]
      exact ahead.here

theorem Ahead.copyin (V : View) : ∀ (fuel srcva len : Nat) (R R' : View), Ahead va R R' →
    Ahead va (copyinPages V fuel srcva len R) (copyinPages V fuel srcva len R') := by
  intro fuel
  induction fuel with
  | zero => intro srcva len R R' ahead; exact ahead
  | succ fuel ih =>
      intro srcva len R R' ahead
      rw [copyinPages, copyinPages]
      by_cases zero : len = 0
      · rw [if_pos zero, if_pos zero]
        exact ahead
      · rw [if_neg zero, if_neg zero]
        cases V (PGROUNDDOWN srcva) with
        | none => exact ahead
        | some page => exact ih _ _ _ _ (ahead.upd _ _)

theorem Ahead.copyout : ∀ (fuel dstva : Nat) (src : List UInt8) (V R R' : View), Ahead va R R' →
    Ahead va (copyoutPages fuel dstva src V R) (copyoutPages fuel dstva src V R') := by
  intro fuel
  induction fuel with
  | zero => intro dstva src V R R' ahead; exact ahead
  | succ fuel ih =>
      intro dstva src V R R' ahead
      rw [copyoutPages, copyoutPages]
      by_cases empty : src = []
      · rw [if_pos empty, if_pos empty]
        exact ahead
      · rw [if_neg empty, if_neg empty]
        cases V (PGROUNDDOWN dstva) with
        | none => exact ahead
        | some page =>
            simp only
            by_cases readonly : page.1 &&& PTE_W = 0
            · rw [if_pos readonly, if_pos readonly]
              exact ahead.upd _ _
            · rw [if_neg readonly, if_neg readonly]
              exact ih _ _ _ _ _ (ahead.upd _ _)

theorem chunk_le (srcva : Nat) {max : Nat} (more : max ≠ 0) : 0 < chunk srcva max ∧
    chunk srcva max ≤ max := by
  obtain ⟨-, low, near⟩ := PGROUNDDOWN_spec srcva
  unfold chunk
  omega

theorem chunk_page {srcva max k : Nat} (less : k < chunk srcva max) :
    PGROUNDDOWN (srcva + k) = PGROUNDDOWN srcva := by
  simp only [chunk, PGROUNDDOWN, PGSIZE] at *
  omega

theorem chunk_end {srcva max : Nat} (more : max - chunk srcva max ≠ 0) :
    PGROUNDDOWN srcva + PGSIZE = srcva + chunk srcva max := by
  obtain ⟨-, low, near⟩ := PGROUNDDOWN_spec srcva
  unfold chunk at *
  omega

theorem text_whole (b : Bytes) (off n : Nat) :
    ((slice b off n).takeWhile (· ≠ 0)).length < n ↔ ∃ j, j < n ∧ b (off + j) = 0 := by
  have length : (slice b off n).length = n := by simp [slice]
  have whole : ¬ ((slice b off n).takeWhile (· ≠ 0)).length < n ↔
      (slice b off n).takeWhile (· ≠ 0) = slice b off n := by
    constructor
    · intro long
      refine (List.takeWhile_prefix _).eq_of_length_le ?_
      omega
    · intro same
      rw [same, length]
      omega
  rw [← not_iff_not, whole, List.takeWhile_eq_self_iff]
  simp [slice]

theorem Reaches.next {srcva max : Nat} {flags : Nat} {b : Bytes} (elsewhere : PGROUNDDOWN srcva ≠ va)
    (page : R (PGROUNDDOWN srcva) = some (flags, b)) (user : PGROUNDDOWN srcva < TRAPFRAME)
    (full : ∀ j, j < chunk srcva max → b (srcva - PGROUNDDOWN srcva + j) ≠ 0) :
    Reaches R va srcva max ↔
      Reaches R va (wrap64 (PGROUNDDOWN srcva + PGSIZE)) (max - chunk srcva max) := by
  obtain ⟨-, low, near⟩ := PGROUNDDOWN_spec srcva
  have small : PGROUNDDOWN srcva + PGSIZE < 2 ^ 64 := by
    have bound : TRAPFRAME + PGSIZE < 2 ^ 64 := by decide
    omega
  rw [wrap64, Nat.mod_eq_of_lt small]
  unfold Reaches
  refine and_congr_right fun _ => ?_
  constructor
  · rintro ⟨k, less, place, before⟩
    have beyond : ¬ k < chunk srcva max := fun inside => elsewhere (by rw [← place, chunk_page inside])
    have next : PGROUNDDOWN srcva + PGSIZE = srcva + chunk srcva max := chunk_end (by omega)
    refine ⟨k - chunk srcva max, by omega, ?_, ?_⟩
    · rw [next, show srcva + chunk srcva max + (k - chunk srcva max) = srcva + k from by omega]
      exact place
    · intro j lessJ
      rw [next, Nat.add_assoc]
      exact before _ (by omega)
  · rintro ⟨k, less, place, before⟩
    have next : PGROUNDDOWN srcva + PGSIZE = srcva + chunk srcva max := chunk_end (by omega)
    rw [next, Nat.add_assoc] at place
    refine ⟨chunk srcva max + k, by omega, place, ?_⟩
    intro j lessJ
    by_cases inside : j < chunk srcva max
    · rw [chunk_page inside]
      refine ⟨flags, b, page, ?_⟩
      rw [show srcva + j - PGROUNDDOWN srcva = srcva - PGROUNDDOWN srcva + j from by omega]
      exact full j inside
    · have there := before (j - chunk srcva max) (by omega)
      rw [next, show srcva + chunk srcva max + (j - chunk srcva max) = srcva + j from by omega] at there
      exact there

theorem scan_iff (inside : ∀ x, R x ≠ none → x < TRAPFRAME) (others : ∀ x, x ≠ va → R' x = R x)
    (absent : R va = none) (zero : R' va = some zeroPage) :
    ∀ (fuel srcva max : Nat) (dst : List UInt8), max < fuel →
      (copyinstrView R fuel srcva max dst = copyinstrView R' fuel srcva max dst ↔
        ¬ Reaches R va srcva max) := by
  intro fuel
  induction fuel with
  | zero => intro srcva max dst less; omega
  | succ fuel ih =>
      intro srcva max dst less
      rw [copyinstrView, copyinstrView]
      by_cases none : max = 0
      · rw [if_pos none, if_pos none]
        refine iff_of_true rfl ?_
        rintro ⟨-, k, lessK, -⟩
        omega
      · rw [if_neg none, if_neg none]
        obtain ⟨some, fits⟩ : 0 < chunk srcva max ∧ chunk srcva max ≤ max := chunk_le srcva none
        by_cases here : PGROUNDDOWN srcva = va
        · -- the scan is at the page: one state fails, the other finds a NUL
          have ends := (text_whole (fun _ => 0) (srcva - va) (chunk srcva max)).mpr ⟨0, some, rfl⟩
          rw [zeroPage] at zero
          rw [here, absent, zero]
          refine iff_of_false ?_ ?_
          · simp only
            rw [if_pos ends]
            simp
          · intro clear
            exact clear ⟨absent, 0, by omega, here, fun j lessJ => absurd lessJ (by omega)⟩
        · rw [others _ here]
          cases page : R (PGROUNDDOWN srcva) with
          | none =>
              refine iff_of_true rfl ?_
              rintro ⟨-, k, lessK, place, before⟩
              by_cases first : k = 0
              · rw [first, Nat.add_zero] at place
                exact here place
              · obtain ⟨flags, b, there, -⟩ := before 0 (by omega)
                rw [Nat.add_zero, page] at there
                cases there
          | some entry =>
              obtain ⟨flags, b⟩ := entry
              simp only
              by_cases ends : ((slice b (srcva - PGROUNDDOWN srcva) (chunk srcva max)).takeWhile
                  (· ≠ 0)).length < chunk srcva max
              · rw [if_pos ends, if_pos ends]
                refine iff_of_true rfl ?_
                obtain ⟨j, lessJ, nul⟩ := (text_whole b _ _).mp ends
                rintro ⟨-, k, lessK, place, before⟩
                by_cases beyond : k ≤ j
                · rw [chunk_page (by omega : k < chunk srcva max)] at place
                  exact here place
                · obtain ⟨flags', b', there, nonzero⟩ := before j (by omega)
                  obtain ⟨-, low, near⟩ := PGROUNDDOWN_spec srcva
                  rw [chunk_page lessJ, page] at there
                  obtain ⟨rfl, rfl⟩ := Prod.mk.inj (Option.some.inj there)
                  rw [chunk_page lessJ,
                    show srcva + j - PGROUNDDOWN srcva = srcva - PGROUNDDOWN srcva + j
                      from by omega] at nonzero
                  exact nonzero nul
              · rw [if_neg ends, if_neg ends]
                have full : ∀ j, j < chunk srcva max → b (srcva - PGROUNDDOWN srcva + j) ≠ 0 :=
                  fun j lessJ nul => ends ((text_whole b _ _).mpr ⟨j, lessJ, nul⟩)
                rw [ih _ _ _ (by omega), Reaches.next here page (inside _ (by rw [page]; simp)) full]

end Scan

/-! ## Two runs of a call -/

/-- The process sees the same in both states, and the second may be ahead by the page `va`. -/
structure Twin (tramp : Nat) (p : Space) (va : Nat) (s s' : Phys) : Prop where
  ready : Ready tramp s p
  ready' : Ready tramp s' p
  view : seen s' p = seen s p
  ahead : Ahead va (resident s p) (resident s' p)

section Runs
variable {tramp va : Nat} {p : Space} {s s' : Phys}

theorem Ready.next {t : Phys} {T L : Finset Nat} (ready : Ready tramp s p)
    (became : Became tramp s t p T L) (enough : Enough t p) : Ready tramp t p := by
  obtain ⟨T', L', M', inv, kept⟩ := became
  exact ⟨⟨T', L', M', inv⟩, by rw [kept.low]; exact ready.kernel, enough⟩

theorem Ready.copyin (ready : Ready tramp s p) (srcva len : Nat) :
    ∃ r t, Vm.copyin p p.pagetable srcva len s = .ok (r, t) ∧ Ready tramp t p ∧ seen t p = seen s p ∧
      r = copyinView (seen s p) len srcva len [] ∧
      resident t p = copyinPages (seen s p) len srcva len (resident s p) := by
  obtain ⟨T, L, M, inv⟩ := ready.space
  obtain ⟨r, t, run, became, view, exactly⟩ :=
    wp_total (copyinLoop_spec len srcva len [] s T L M inv ready.kernel)
  obtain ⟨enough, result, now⟩ := exactly ready.enough
  exact ⟨r, t, run, ready.next became enough, view, result, now⟩

theorem Ready.copyout (ready : Ready tramp s p) (dstva : Nat) (src : List UInt8) :
    ∃ r t, Vm.copyout p p.pagetable dstva src s = .ok (r, t) ∧ Ready tramp t p ∧
      (r, seen t p) = copyoutView src.length dstva src (seen s p) ∧
      resident t p = copyoutPages src.length dstva src (seen s p) (resident s p) := by
  obtain ⟨T, L, M, inv⟩ := ready.space
  obtain ⟨r, t, run, became, exactly⟩ :=
    wp_total (copyoutLoop_spec src.length dstva src s T L M inv ready.kernel)
  obtain ⟨enough, result, now⟩ := exactly ready.enough
  exact ⟨r, t, run, ready.next became enough, result, now⟩

theorem Ready.copyinstr (ready : Ready tramp s p) (srcva max : Nat) :
    Vm.copyinstr p.pagetable srcva max s =
      .ok (copyinstrView (resident s p) (max + 1) srcva max [], s) := by
  obtain ⟨T, L, M, inv⟩ := ready.space
  obtain ⟨r, t, run, rfl, rfl⟩ := wp_total (copyinstrLoop_spec inv ready.kernel (max + 1) srcva max [])
  exact run

theorem resident_inside {x : Nat} (there : resident s p x ≠ none) : x < TRAPFRAME := by
  by_contra outside
  exact there (resident_outside fun both => outside both.2)

/-- The scans agree when that of the first state does not come to the page. -/
theorem Twin.scan (twin : Twin tramp p va s s') {srcva max : Nat}
    (clear : ¬ Reaches (resident s p) va srcva max) :
    copyinstrView (resident s' p) (max + 1) srcva max [] =
      copyinstrView (resident s p) (max + 1) srcva max [] := by
  rcases twin.ahead.here with same | ⟨absent, zero⟩
  · have whole : resident s' p = resident s p := by
      funext x
      by_cases here : x = va
      · rw [here, same]
      · exact twin.ahead.others x here
    rw [whole]
  · exact ((scan_iff (fun x there => resident_inside there) twin.ahead.others absent zero (max + 1)
      srcva max [] (by omega)).mpr clear).symm

theorem UserCall.alike {α : Type} (c : UserCall α) : ∀ {s s' : Phys}, Twin tramp p va s s' →
    c.Clear p va s → Alike p c s s' := by
  induction c with
  | done result =>
      intro s s' twin _
      exact ⟨result, s, s', rfl, rfl, twin.view.symm⟩
  | copyin srcva len next ih =>
      intro s s' twin clear
      obtain ⟨r, t, run, ready, view, result, now⟩ := twin.ready.copyin srcva len
      obtain ⟨r', t', run', ready', view', result', now'⟩ := twin.ready'.copyin srcva len
      rw [twin.view] at result' now'
      obtain rfl : r' = r := result'.trans result.symm
      have ahead := Ahead.copyin (seen s p) len srcva len _ _ twin.ahead
      rw [← now, ← now'] at ahead
      obtain ⟨a, u, u', runs, runs', same⟩ :=
        ih r' ⟨ready, ready', by rw [view', view, twin.view], ahead⟩ (clear r' t run)
      refine ⟨a, u, u', ?_, ?_, same⟩
      · simp only [UserCall.run, bind, StateT.bind, Except.bind, run, runs]
      · simp only [UserCall.run, bind, StateT.bind, Except.bind, run', runs']
  | copyout dstva src next ih =>
      intro s s' twin clear
      obtain ⟨r, t, run, ready, result, now⟩ := twin.ready.copyout dstva src
      obtain ⟨r', t', run', ready', result', now'⟩ := twin.ready'.copyout dstva src
      rw [twin.view] at result' now'
      obtain ⟨rfl, view⟩ := Prod.mk.inj (result'.trans result.symm)
      have ahead := Ahead.copyout src.length dstva src (seen s p) _ _ twin.ahead
      rw [← now, ← now'] at ahead
      obtain ⟨a, u, u', runs, runs', same⟩ := ih r' ⟨ready, ready', view, ahead⟩ (clear r' t run)
      refine ⟨a, u, u', ?_, ?_, same⟩
      · simp only [UserCall.run, bind, StateT.bind, Except.bind, run, runs]
      · simp only [UserCall.run, bind, StateT.bind, Except.bind, run', runs']
  | copyinstr srcva max next ih =>
      intro s s' twin clear
      have run := twin.ready.copyinstr srcva max
      have run' := twin.ready'.copyinstr srcva max
      rw [twin.scan clear.1] at run'
      obtain ⟨a, u, u', runs, runs', same⟩ := ih _ twin (clear.2 _ s run)
      refine ⟨a, u, u', ?_, ?_, same⟩
      · simp only [UserCall.run, bind, StateT.bind, Except.bind, run, runs]
      · simp only [UserCall.run, bind, StateT.bind, Except.bind, run', runs']

theorem resident_pages (s : Phys) (p : Space) (x : Nat) : resident s p x =
    match pages s p x with
    | some (flags, b) => if flags &&& PTE_U = 0 then none else some (flags, b)
    | none => none := by
  rw [resident, pages]
  split
  · cases leafPte s.mem p.pagetable x with
    | none => rfl
    | some pte =>
        simp only [Option.map_some]
        rw [and_flag pte (by decide)]
  · rfl

theorem seen_pages (s : Phys) (p : Space) (x : Nat) : seen s p x =
    match pages s p x with
    | some (flags, b) => if flags &&& PTE_U = 0 then none else some (flags, b)
    | none => if x % PGSIZE = 0 ∧ x < TRAPFRAME ∧ x < p.sz then some zeroPage else none := by
  rw [seen, pages]
  by_cases page : x % PGSIZE = 0 ∧ x < TRAPFRAME
  · rw [if_pos page, if_pos page]
    cases leafPte s.mem p.pagetable x with
    | none =>
        simp only [Option.map_none]
        by_cases below : x < p.sz
        · rw [if_pos below, if_pos ⟨page.1, page.2, below⟩]
          rfl
        · rw [if_neg below, if_neg fun all => below all.2.2]
    | some pte =>
        simp only [Option.map_some]
        rw [and_flag pte (by decide)]
  · rw [if_neg page, if_neg page]
    simp only
    rw [if_neg fun all => page ⟨all.1, all.2.1⟩]

theorem zeroPage_user : zeroPage.1 &&& PTE_U ≠ 0 := by decide

theorem Reserved.pages (reserved : Reserved s p va) : pages s p va = none := by
  rw [Vm.pages, reserved.absent]
  simp

theorem Premapped.twin (ready : Ready tramp s p) (reserved : Reserved s p va)
    (pre : Premapped tramp s s' p va) : Twin tramp p va s s' := by
  obtain ⟨T, L, M, inv⟩ := ready.space
  have user : va < TRAPFRAME := Nat.lt_of_lt_of_le reserved.below inv.size
  have other : ∀ x, x ≠ va → Vm.pages s' p x = Vm.pages s p x := by
    intro x differ
    rw [pre.pages, upd_of_ne differ]
  have here : Vm.pages s' p va = some zeroPage := by rw [pre.pages, upd_self]
  refine ⟨ready, pre.ready, ?_, ⟨?_, Or.inr ⟨?_, ?_⟩⟩⟩
  · funext x
    rw [seen_pages, seen_pages]
    by_cases same : x = va
    · subst same
      rw [here, reserved.pages]
      simp only
      rw [if_neg zeroPage_user, if_pos ⟨reserved.aligned, user, reserved.below⟩]
    · rw [other x same]
  · intro x differ
    rw [resident_pages, resident_pages, other x differ]
  · rw [resident_pages, reserved.pages]
  · rw [resident_pages, here]
    simp only
    rw [if_neg zeroPage_user]

/-- A call of `copyinstr` alone tells the states apart exactly when its scan comes to the page. -/
theorem Premapped.copyinstr_iff (ready : Ready tramp s p) (reserved : Reserved s p va)
    (pre : Premapped tramp s s' p va) (srcva max : Nat) :
    Alike p (.copyinstr srcva max .done) s s' ↔ ¬ Reaches (resident s p) va srcva max := by
  have twin := pre.twin ready reserved
  refine ⟨?_, fun free => UserCall.alike _ twin ⟨free, fun _ _ _ => trivial⟩⟩
  rintro ⟨a, t, t', run, run', -⟩
  have first := ready.copyinstr srcva max
  have second := pre.ready.copyinstr srcva max
  simp only [UserCall.run, bind, StateT.bind, Except.bind, first] at run
  simp only [UserCall.run, bind, StateT.bind, Except.bind, second] at run'
  have result : copyinstrView (resident s p) (max + 1) srcva max [] = a :=
    (Prod.mk.inj (Except.ok.inj run)).1
  have result' : copyinstrView (resident s' p) (max + 1) srcva max [] = a :=
    (Prod.mk.inj (Except.ok.inj run')).1
  have absent : resident s p va = none := by rw [resident_pages, reserved.pages]
  have zero : resident s' p va = some zeroPage := by
    rcases twin.ahead.here with same | ⟨-, zero⟩
    · rw [resident_pages, pre.pages, upd_self, absent] at same
      simp only [if_neg zeroPage_user] at same
      cases same
    · exact zero
  exact (scan_iff (fun x there => resident_inside there) twin.ahead.others absent zero (max + 1)
    srcva max [] (by omega)).mp (result.trans result'.symm)

/-- A system call gives the same with the page mapped before, as long as no string is read
up to the page; and `copyinstr` does so only then. -/
theorem lazy_page_transparent (ready : Ready tramp s p) (reserved : Reserved s p va)
    (pre : Premapped tramp s s' p va) :
    (∀ (α : Type) (c : UserCall α), c.Clear p va s → Alike p c s s') ∧
    (∀ srcva len, Alike p (.copyin srcva len .done) s s') ∧
    (∀ dstva src, Alike p (.copyout dstva src .done) s s') ∧
    ∀ srcva max, Alike p (.copyinstr srcva max .done) s s' ↔
      ¬ Reaches (resident s p) va srcva max := by
  have clear : ∀ (α : Type) (c : UserCall α), c.Clear p va s → Alike p c s s' :=
    fun _ c clear => c.alike (pre.twin ready reserved) clear
  exact ⟨clear, fun srcva len => clear _ _ fun _ _ _ => trivial,
    fun dstva src => clear _ _ fun _ _ _ => trivial, pre.copyinstr_iff ready reserved⟩

end Runs

/-! ## A string in a page that was not touched -/

section Untouched

def tenPages : Phys where
  mem := fun _ _ => 0
  free := (List.range 10).map fun i => 0x80100 + i
  refusals := []
  low := 0x80100

def ended (m : VmM (Option Nat)) (v : Phys) : Option Nat × Phys :=
  match m v with
  | .ok result => result
  | .error _ => (none, v)

theorem ended_run {m : VmM (Option Nat)} {v : Phys} {root : Nat} (made : (ended m v).1 = some root) :
    m v = .ok (some root, (ended m v).2) := by
  unfold ended at made ⊢
  cases run : m v with
  | ok result =>
      rw [run] at made
      rw [← made]
  | error e =>
      rw [run] at made
      cases made

/-- The table of a process whose trampoline and trap frame are two pages of the kernel. -/
def firstTable : Option Nat × Phys := ended (procPagetable (0x80007 * PGSIZE) 0x80050) tenPages

theorem firstTable_root : firstTable.1 = some 0x80100 := by decide +kernel

theorem firstTable_ample : Ample 3 firstTable.2 := ⟨by decide +kernel, by decide +kernel⟩

/-- The process after `sbrk` of one page, lazily. -/
def lazyProc : Space := ⟨0x80100, PGSIZE, 0x80050⟩

theorem Sets.pool {v : Phys} (nodup : v.free.Nodup)
    (range : ∀ q ∈ v.free, v.low ≤ q ∧ q < PHYSTOP / PGSIZE) : Sets v ∅ ∅ := by
  refine ⟨nodup, ?_, by simp, by simp, by simp⟩
  intro q member
  simp only [Finset.notMem_empty, or_false] at member
  exact range q member

theorem tenPages_sets : Sets tenPages ∅ ∅ := .pool (by decide) (by decide)

theorem lazyProc_space : ∃ T M, SpaceInv 0x80007 firstTable.2 lazyProc T ∅ M ∧ M 0 = none := by
  have made := wp_ok (procPagetable_spec (E := fun _ => True) tenPages_sets
    (by decide : 0x80007 < 2 ^ 44) (by decide : 0x80050 < 2 ^ 44)) (ended_run firstTable_root)
  rcases made with ⟨none, -⟩ | ⟨root, T, M, same, inv, -, empty⟩
  · cases none
  · obtain rfl := Option.some.inj same
    refine ⟨T, M, ?_, empty 0 (by decide)⟩
    have grown : SpaceInv 0x80007 firstTable.2
      { (⟨0x80100, 0, 0x80050⟩ : Space) with sz := PGSIZE } T ∅ M :=
      inv.resize inv.toHolds (by decide) (fun va _ _ user => empty va user) fun _ _ _ => rfl
    exact grown

theorem lazyProc_ready : Ready 0x80007 firstTable.2 lazyProc ∧ Reserved firstTable.2 lazyProc 0 := by
  obtain ⟨T, M, inv, hole⟩ := lazyProc_space
  have one : holes firstTable.2 lazyProc ≤ 1 := Nat.count_le _
  refine ⟨⟨⟨T, ∅, M, inv⟩, by decide +kernel, firstTable_ample.mono (by omega)⟩, ⟨rfl, by decide, ?_⟩⟩
  exact (inv.leafPte_eq rfl (by decide)).trans hole

theorem Faulted.premapped {tramp va : Nat} {s s' : Phys} {p : Space} {T L : Finset Nat}
    {M : Nat → Option Nat} {r : Nat} (ready : Ready tramp s p) (inv : SpaceInv tramp s p T L M)
    (reserved : Reserved s p va) (faulted : Faulted tramp s s' p T L M va r) :
    Premapped tramp s s' p va := by
  have down : PGROUNDDOWN va = va := by
    have aligned := reserved.aligned
    simp only [PGROUNDDOWN, PGSIZE] at *
    omega
  have user : va < TRAPFRAME := Nat.lt_of_lt_of_le reserved.below inv.size
  have hole : M va = none := by
    rw [← inv.leafPte_eq reserved.aligned user]
    exact reserved.absent
  have enough := (faulted.enough inv ready.kernel ready.enough).1
  cases faulted with
  | refused T' inv' kept same why still =>
      have some := holes_pos inv reserved.below (by rw [down]; exact hole)
      refine absurd (ready.enough.mono (by omega)) (why reserved.below ?_)
      rw [down]
      exact hole
  | given T' mem inside _ fresh inv' kept same zero left =>
      rw [down] at inv'
      refine ⟨⟨⟨T', _, _, inv'⟩, by rw [kept.low]; exact ready.kernel, enough⟩, ?_⟩
      funext x
      by_cases page : x % PGSIZE = 0 ∧ x < TRAPFRAME
      · rw [Vm.pages, if_pos page, inv'.leafPte_eq page.1 page.2]
        by_cases here : x = va
        · subst here
          have first : mem ∈ insert mem L := Finset.mem_insert_self ..
          rw [upd_self, upd_self, Option.map_some, (fault_entry mem).2,
            leafPage_entry (inv'.range mem (Or.inr (Or.inr first))).2 (by decide), zero]
          rfl
        · rw [upd_of_ne here, upd_of_ne here, Vm.pages, if_pos page, inv.leafPte_eq page.1 page.2]
          cases mapped : M x with
          | none => rfl
          | some pte =>
              have leaf := leafPage_mem inv page.1 page.2 mapped
              simp only [Option.map_some, same _ leaf leaf]
      · have differ : x ≠ va := by
          rintro rfl
          exact page ⟨reserved.aligned, user⟩
        rw [upd_of_ne differ, Vm.pages, Vm.pages, if_neg page, if_neg page]

theorem lazyProc_premapped : ∃ s', Premapped 0x80007 firstTable.2 s' lazyProc 0 := by
  obtain ⟨T, M, inv, hole⟩ := lazyProc_space
  obtain ⟨ready, reserved⟩ := lazyProc_ready
  obtain ⟨r, s', -, faulted⟩ := wp_total (vmfault_spec inv 0)
  exact ⟨s', faulted.premapped ready inv reserved⟩

/-- The string at address 0 is not read before the page is touched, and is empty afterwards. -/
theorem copyinstr_not_transparent : ¬ ∀ (tramp : Nat) (s s' : Phys) (p : Space) (va : Nat),
    Ready tramp s p → Reserved s p va → Premapped tramp s s' p va →
    ∀ (α : Type) (c : UserCall α), Alike p c s s' := by
  intro transparent
  obtain ⟨ready, reserved⟩ := lazyProc_ready
  obtain ⟨s', pre⟩ := lazyProc_premapped
  have alike := transparent _ _ s' _ _ ready reserved pre _ (.copyinstr 0 1 .done)
  refine (pre.copyinstr_iff ready reserved 0 1).mp alike ⟨?_, 0, by decide, rfl, ?_⟩
  · rw [resident_pages, reserved.pages]
  · intro j no
    omega

theorem lazyProc_transparent : ∃ s', Premapped 0x80007 firstTable.2 s' lazyProc 0 ∧
    (∀ (α : Type) (c : UserCall α), c.Clear lazyProc 0 firstTable.2 →
      Alike lazyProc c firstTable.2 s') ∧
    (∀ srcva len, Alike lazyProc (.copyin srcva len .done) firstTable.2 s') ∧
    (∀ dstva src, Alike lazyProc (.copyout dstva src .done) firstTable.2 s') ∧
    ∀ srcva max, Alike lazyProc (.copyinstr srcva max .done) firstTable.2 s' ↔
      ¬ Reaches (resident firstTable.2 lazyProc) 0 srcva max := by
  obtain ⟨ready, reserved⟩ := lazyProc_ready
  obtain ⟨s', pre⟩ := lazyProc_premapped
  exact ⟨s', pre, lazy_page_transparent ready reserved pre⟩

end Untouched

end Xv6Fcfs.Vm
