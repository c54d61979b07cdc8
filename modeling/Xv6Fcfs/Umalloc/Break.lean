import Xv6Fcfs.Umalloc.Sound
import Xv6Fcfs.Vm.Resize

/-!
# `malloc` and the break

The number of bytes goes from `malloc` to `growproc` through a `uint`, a `size_t`, an `int` and
a `uint64`.  Here the heap stands in an address space with a break, and `sbrk` does what the
kernel does with the `int` that it gets: from 2 GiB on that number is not what `morecore` asked
for, and the kernel does not refuse it.
-/

set_option autoImplicit false

namespace Xv6Fcfs.Umalloc

open Xv6Fcfs.Lib
open Xv6Fcfs.Vm (PGSIZE TRAPFRAME PGROUNDUP PGROUNDDOWN)

/-- The heap of a process, its `p->sz`, and the pages that it may store into. -/
structure Proc where
  heap : Heap
  brk : Nat
  mapped : Nat → Bool

/-- The page at `va` is one of those between the two sizes. -/
def between (lo hi va : Nat) : Bool := decide (PGROUNDUP lo ≤ va) && decide (va < PGROUNDUP hi)

/-- Whether the kernel finds memory. -/
structure Answer where
  uvmalloc : Bool
  vmfault : Bool

def growproc (answer : Answer) (s : Proc) (n : Int) : Option Proc :=
  let newsz := ((s.brk + n) % 2 ^ 64).toNat
  if 0 < n then
    if TRAPFRAME < newsz then none
    else if answer.uvmalloc then
      some { s with brk := newsz, mapped := fun va => s.mapped va || between s.brk newsz va }
    else none
  else if n < 0 then
    if newsz < s.brk then
      some { s with brk := newsz, mapped := fun va => s.mapped va && !between newsz s.brk va }
    else some s
  else some s

/-- `sbrk(n)`: what it returns, and the process then. -/
def sbrk (answer : Answer) (s : Proc) (n : Int) : Option (Nat × Proc) :=
  (growproc answer s n).map fun t => (s.brk, t)

/-- `nu * sizeof(Header)` as `sbrk` receives it. -/
def sbrkArg (nu : Nat) : Int := Int.bmod (nu * UNIT) (2 ^ 32)

/-- The process may store at `a`, where `vmfault` adds pages below the break. -/
def MayStore (answer : Answer) (s : Proc) (a : Nat) : Prop :=
  s.mapped (PGROUNDDOWN a) = true ∨ answer.vmfault = true ∧ a < s.brk

/-- It may store the 12 bytes of a header at `p`. -/
def Stores (answer : Answer) (s : Proc) (p : Nat) : Prop :=
  MayStore answer s p ∧ MayStore answer s (p + 11)

instance (answer : Answer) (s : Proc) (a : Nat) : Decidable (MayStore answer s a) :=
  inferInstanceAs (Decidable (_ ∨ _))

instance (answer : Answer) (s : Proc) (p : Nat) : Decidable (Stores answer s p) :=
  inferInstanceAs (Decidable (_ ∧ _))

/-- `malloc` returns, or the kernel kills the process. -/
inductive Outcome where
  | returned (s : Proc) (ap : Nat)
  | killed

def Proc.with (s : Proc) (r : Heap × Nat) : Outcome := .returned { s with heap := r.1 } r.2

/-- `morecore` with the answer of `sbrk`, and then `next` from the free block on. -/
def morecoreIn (turns nu : Nat) (answer : Answer) (s : Proc) (next : Proc → Nat → Option Outcome) :
    Option (Nat × Proc) → Option Outcome
  | none => some (.returned s 0)
  | some (hp, t) =>
      if Stores answer t hp then do
        let (heap, p) ← morecore turns t.heap nu (some hp)
        if p = 0 then return t.with (heap, 0) else next { t with heap := heap } p
      else some .killed

/-- The loop of `malloc`. -/
def mallocLoopIn (turns nunits : Nat) : Nat → List Answer → Proc → Nat → Nat → Option Outcome
  | 0, _, _, _, _ => none
  | k + 1, answers, s, prevp, p =>
      if nunits ≤ (s.heap.hdr p).size then some (s.with (carve s.heap nunits prevp p))
      else if p = s.heap.freep then
        match answers with
        | [] => none
        | answer :: answers =>
            morecoreIn turns nunits answer s
              (fun s p => mallocLoopIn turns nunits k answers s p (s.heap.hdr p).ptr)
              (sbrk answer s (sbrkArg (coreUnits nunits)))
      else mallocLoopIn turns nunits k answers s p (s.heap.hdr p).ptr

/-- `malloc` of a process; one answer is enough. -/
def mallocIn (base turns : Nat) (s : Proc) (nbytes : Nat) (answer : Answer) : Option Outcome :=
  let heap := ready base s.heap
  mallocLoopIn turns (units nbytes) turns [answer] { s with heap := heap } heap.freep
    (heap.hdr heap.freep).ptr

section Break
variable {base turns nunits nbytes limit : Nat} {answer : Answer} {s t : Proc} {free given : List Block}

/-! ## The loop -/

/-- After `sbrk` the loop is that of a heap that was given the memory. -/
theorem mallocLoopIn_nil : ∀ (k : Nat) (s : Proc) (prevp p : Nat),
    mallocLoopIn turns nunits k [] s prevp p =
      (mallocLoop turns nunits k [] s.heap prevp p).map s.with := by
  intro k
  induction k with
  | zero => intro s prevp p; rfl
  | succ k ih =>
      intro s prevp p
      have turn : mallocLoopIn turns nunits (k + 1) [] s prevp p =
          if nunits ≤ (s.heap.hdr p).size then some (s.with (carve s.heap nunits prevp p))
          else if p = s.heap.freep then none
          else mallocLoopIn turns nunits k [] s p (s.heap.hdr p).ptr := rfl
      rw [turn, mallocLoop_succ, ih]
      split
      · rfl
      · split <;> rfl

/-- What happens at `p == freep`. -/
def askIn (turns nunits k : Nat) (answer : Answer) (s : Proc) : Option Outcome :=
  morecoreIn turns nunits answer s (fun s p => mallocLoopIn turns nunits k [] s p (s.heap.hdr p).ptr)
    (sbrk answer s (sbrkArg (coreUnits nunits)))

theorem mallocLoopIn_succ (k : Nat) (prevp p : Nat) :
    mallocLoopIn turns nunits (k + 1) [answer] s prevp p =
      if nunits ≤ (s.heap.hdr p).size then some (s.with (carve s.heap nunits prevp p))
      else if p = s.heap.freep then askIn turns nunits k answer s
      else mallocLoopIn turns nunits k [answer] s p (s.heap.hdr p).ptr := rfl

theorem askIn_granted {k hp : Nat} (more : sbrk answer s (sbrkArg (coreUnits nunits)) = some (hp, t))
    (stores : Stores answer t hp) :
    askIn turns nunits k answer s = (askCore turns nunits k t.heap [some hp]).map t.with := by
  rw [askIn, more, morecoreIn]
  simp only [if_pos stores, askCore, bind, Option.bind]
  cases morecore turns t.heap nunits (some hp) with
  | none => rfl
  | some result =>
      obtain ⟨heap, p⟩ := result
      simp only
      split
      · rfl
      · exact mallocLoopIn_nil k _ p _

/-- The loop takes the first block that is large enough, and asks the kernel when there is
none. -/
theorem mallocLoopIn_scan (answer : Answer) {p : Block} : ∀ (l : List Block) (k prevp : Nat),
    Linked s.heap.hdr p.addr l → (∀ c ∈ l, c.addr ≠ s.heap.freep) → p.addr = s.heap.freep →
    (s.heap.hdr p.addr).size = p.size → (s.heap.hdr prevp).ptr = first p.addr l →
    (k ≤ l.length ∧ mallocLoopIn turns nunits k [answer] s prevp (first p.addr l) = none) ∨
    (∃ prevp' c, c ∈ p :: l ∧ nunits ≤ (s.heap.hdr c.addr).size ∧ (s.heap.hdr prevp').ptr = c.addr ∧
      (prevp' = prevp ∨ ∃ b ∈ l, b.addr = prevp') ∧
      mallocLoopIn turns nunits k [answer] s prevp (first p.addr l) =
        some (s.with (carve s.heap nunits prevp' c.addr))) ∨
    ((∀ c ∈ p :: l, c.size < nunits) ∧ ∃ k', k = l.length + 1 + k' ∧
      mallocLoopIn turns nunits k [answer] s prevp (first p.addr l) = askIn turns nunits k'
        answer s) := by
  intro l
  induction l with
  | nil =>
      intro k prevp linked apart start size next
      cases k with
      | zero => exact Or.inl ⟨Nat.le_refl 0, rfl⟩
      | succ k =>
          right
          rw [mallocLoopIn_succ]
          by_cases large : nunits ≤ (s.heap.hdr (first p.addr [])).size
          · exact Or.inl ⟨prevp, p, List.mem_cons_self, large, next, Or.inl rfl, if_pos large⟩
          · rw [if_neg large, if_pos (show first p.addr [] = s.heap.freep from start)]
            refine Or.inr ⟨?_, k, Nat.add_comm k 1, rfl⟩
            intro c inside
            obtain rfl := List.mem_singleton.mp inside
            rw [← size]
            exact Nat.lt_of_not_le large
  | cons d l ih =>
      intro k prevp linked apart start size next
      cases k with
      | zero => exact Or.inl ⟨Nat.zero_le _, rfl⟩
      | succ k =>
          obtain ⟨here, later⟩ := linked
          have follows : (s.heap.hdr d.addr).ptr = first p.addr l := by rw [here]
          rw [mallocLoopIn_succ]
          by_cases large : nunits ≤ (s.heap.hdr (first p.addr (d :: l))).size
          · right
            left
            exact ⟨prevp, d, List.mem_cons_of_mem _ List.mem_cons_self, large, next,
              Or.inl rfl, if_pos large⟩
          · have other : first p.addr (d :: l) ≠ s.heap.freep := apart d List.mem_cons_self
            rw [if_neg large, if_neg other]
            have step : (s.heap.hdr (first p.addr (d :: l))).ptr = first p.addr l := follows
            rw [step]
            have small : d.size < nunits := by
              have short : ¬ nunits ≤ (s.heap.hdr d.addr).size := large
              rw [here] at short
              exact Nat.lt_of_not_le short
            rcases ih k d.addr later (fun c inside =>
              apart c (List.mem_cons_of_mem _ inside)) start size
              follows with ⟨few, stuck⟩ | ⟨prevp', c, inside, fits, before, prev, found⟩ |
                ⟨none, k', count, asked⟩
            · exact Or.inl ⟨by simpa using few, stuck⟩
            · right
              left
              refine ⟨prevp', c, ?_, fits, before, Or.inr ?_, found⟩
              · rcases List.mem_cons.mp inside with rfl | rest
                · exact List.mem_cons_self
                · exact List.mem_cons_of_mem _ (List.mem_cons_of_mem _ rest)
              · rcases prev with rfl | ⟨b, mem, same⟩
                · exact ⟨d, List.mem_cons_self, rfl⟩
                · exact ⟨b, List.mem_cons_of_mem _ mem, same⟩
            · right
              right
              refine ⟨?_, k', by rw [List.length_cons]; omega, asked⟩
              intro c inside
              rcases List.mem_cons.mp inside with rfl | rest
              · exact none c List.mem_cons_self
              · rcases List.mem_cons.mp rest with rfl | last
                · exact small
                · exact none c (List.mem_cons_of_mem _ last)

/-! ## The number that `sbrk` gets -/

theorem sbrk_same {n : Int} {hp : Nat} (more : sbrk answer s n = some (hp, t)) :
    hp = s.brk ∧ t.heap = s.heap := by
  rw [sbrk, Option.map_eq_some_iff] at more
  obtain ⟨grown, run, result⟩ := more
  obtain ⟨rfl, rfl⟩ := Prod.mk.inj result
  refine ⟨rfl, ?_⟩
  simp only [growproc] at run
  split at run
  · split at run
    · cases run
    · split at run
      · obtain rfl := Option.some.inj run
        rfl
      · cases run
  · split at run
    · split at run <;> obtain rfl := Option.some.inj run <;> rfl
    · obtain rfl := Option.some.inj run
      rfl

/-- Where the break and the heap of a process are. -/
structure Placed (base : Nat) (s : Proc) : Prop where
  base : base + UNIT ≤ s.brk
  regions : ∀ r ∈ s.heap.obtained, r.stop UNIT ≤ s.brk
  size : s.brk ≤ TRAPFRAME

theorem sbrkArg_small {nu : Nat} (small : UNIT * nu < 2 ^ 31) : sbrkArg nu = UNIT * nu := by
  unfold sbrkArg UNIT at *
  rw [Int.bmod_def]
  omega

theorem sbrk_small {nu hp : Nat} (pos : 0 < nu) (small : UNIT * nu < 2 ^ 31) (size : s.brk ≤ TRAPFRAME)
    (more : sbrk answer s (sbrkArg nu) = some (hp, t)) :
    t.brk = s.brk + UNIT * nu ∧ t.brk ≤ TRAPFRAME ∧ answer.uvmalloc = true := by
  have frame : TRAPFRAME < 2 ^ 38 := by decide
  have arg := sbrkArg_small small
  rw [sbrk, Option.map_eq_some_iff] at more
  obtain ⟨grown, run, result⟩ := more
  obtain ⟨-, rfl⟩ := Prod.mk.inj result
  rw [arg] at run
  have sum : ((s.brk + (UNIT * nu : Int)) % 2 ^ 64).toNat = s.brk + UNIT * nu := by
    unfold UNIT at *
    omega
  have positive : (0 : Int) < UNIT * nu := by
    unfold UNIT
    omega
  simp only [growproc, sum, if_pos positive] at run
  split at run
  · cases run
  next fits =>
    split at run
    next found =>
      obtain rfl := Option.some.inj run
      exact ⟨rfl, Nat.le_of_not_lt fits, found⟩
    · cases run

def cut (nbytes : Nat) : Nat := 2 ^ 32 - UNIT * units nbytes

/-- From 2 GiB on `malloc` stops all the same: the kernel refuses the 16 bytes that are left of
the number of bytes, or the store of the new header is not possible. -/
def Stopped (answer : Answer) (s : Proc) (nbytes : Nat) : Prop :=
  if 2 ^ 32 - UNIT < nbytes then
    TRAPFRAME < s.brk + UNIT ∨ answer.uvmalloc = false ∨
      (s.brk % PGSIZE ≠ 0 ∧ s.mapped (PGROUNDDOWN s.brk) = false ∧ answer.vmfault = false)
  else ∃ a, (a = s.brk ∨ a = s.brk + 11) ∧ (s.mapped (PGROUNDDOWN a) = false ∨
    cut nbytes ≤ s.brk ∧ between (s.brk - cut nbytes) s.brk (PGROUNDDOWN a) = true)

theorem units_large (large : 2 ^ 31 - 2 * UNIT < nbytes) (small : nbytes < 2 ^ 32) :
    coreUnits (units nbytes) = units nbytes ∧ 2 ^ 31 ≤ UNIT * units nbytes ∧
      (2 ^ 32 - UNIT < nbytes → UNIT * units nbytes = 2 ^ 32 + UNIT) ∧
      (¬ 2 ^ 32 - UNIT < nbytes → UNIT * units nbytes ≤ 2 ^ 32) := by
  unfold coreUnits units UNIT at *
  refine ⟨if_neg (by omega), by omega, by omega, by omega⟩

theorem sbrkArg_large {nu : Nat} (low : 2 ^ 31 ≤ UNIT * nu) (high : UNIT * nu ≤ 2 ^ 32 + UNIT) :
    sbrkArg nu = UNIT * nu - 2 ^ 32 := by
  unfold sbrkArg UNIT at *
  rw [Int.bmod_def]
  omega

theorem round_spec {brk : Nat} (size : brk ≤ TRAPFRAME) :
    PGROUNDUP brk % PGSIZE = 0 ∧ brk ≤ PGROUNDUP brk ∧ PGROUNDUP brk < brk + PGSIZE :=
  Vm.PGROUNDUP_spec brk (Nat.le_trans size (by decide))

theorem sbrk_grows (answer : Answer) (nbytes_large : 2 ^ 32 - UNIT < nbytes)
    (small : nbytes < 2 ^ 32) (size : s.brk ≤ TRAPFRAME) :
    (TRAPFRAME < s.brk + UNIT ∨ answer.uvmalloc = false →
      sbrk answer s (sbrkArg (coreUnits (units nbytes))) = none) ∧
    (¬ (TRAPFRAME < s.brk + UNIT ∨ answer.uvmalloc = false) →
      sbrk answer s (sbrkArg (coreUnits (units nbytes))) = some (s.brk, { s with
        brk := s.brk + UNIT, mapped := fun va =>
          s.mapped va || between s.brk (s.brk + UNIT) va })) := by
  have unit : UNIT = 16 := rfl
  have frame : TRAPFRAME < 2 ^ 38 := by decide
  obtain ⟨same, low, all, -⟩ := @units_large nbytes (by omega) small
  have whole := all nbytes_large
  have arg : sbrkArg (units nbytes) = UNIT := by
    rw [sbrkArg_large low (by omega)]
    omega
  have sum : ((s.brk + (UNIT : Int)) % 2 ^ 64).toNat = s.brk + UNIT := by omega
  have positive : (0 : Int) < UNIT := by decide
  simp only [same, arg, sbrk, growproc, sum, if_pos positive]
  refine ⟨?_, ?_⟩
  · rintro (beyond | refused)
    · rw [if_pos beyond]
      rfl
    · rw [if_neg (Bool.eq_false_iff.mp refused), ite_self]
      rfl
  · intro fits
    rw [not_or, Bool.not_eq_false] at fits
    rw [if_neg fits.1, if_pos fits.2]
    rfl

theorem sbrk_falls (answer : Answer) (large : 2 ^ 31 - 2 * UNIT < nbytes)
    (less : ¬ 2 ^ 32 - UNIT < nbytes)
    (size : s.brk ≤ TRAPFRAME) :
    ∃ t, sbrk answer s (sbrkArg (coreUnits (units nbytes))) = some (s.brk, t) ∧ t.brk ≤ s.brk ∧
      ∀ va, t.mapped va = true ↔ s.mapped va = true ∧
        ¬ (cut nbytes ≤ s.brk ∧ between (s.brk - cut nbytes) s.brk va = true) := by
  have unit : UNIT = 16 := rfl
  have frame : TRAPFRAME < 2 ^ 38 := by decide
  obtain ⟨same, low, -, most⟩ := units_large large (by omega)
  have whole := most less
  have arg : sbrkArg (units nbytes) = -(cut nbytes : Int) := by
    rw [sbrkArg_large low (by omega)]
    unfold cut
    omega
  have bound : cut nbytes ≤ 2 ^ 31 := by
    unfold cut
    omega
  have never : ¬ (0 : Int) < -(cut nbytes : Int) := by omega
  simp only [same, arg, sbrk, growproc, if_neg never]
  by_cases still : cut nbytes = 0
  · have zero : ¬ (-(cut nbytes : Int)) < 0 := by omega
    rw [if_neg zero]
    refine ⟨s, rfl, Nat.le_refl _, fun va => ?_⟩
    have empty : ¬ between (s.brk - cut nbytes) s.brk va = true := by
      simp only [between, still, Nat.sub_zero, Bool.and_eq_true, decide_eq_true_eq]
      omega
    exact ⟨fun mapped => ⟨mapped, fun no => empty no.2⟩, And.left⟩
  · rw [if_pos (by omega)]
    by_cases enough : cut nbytes ≤ s.brk
    · have sum : ((s.brk + -(cut nbytes : Int)) % 2 ^ 64).toNat = s.brk - cut nbytes := by omega
      rw [sum, if_pos (by omega)]
      refine ⟨_, rfl, Nat.sub_le _ _, fun va => ?_⟩
      simp only [enough, true_and, Bool.and_eq_true, Bool.not_eq_true', Bool.not_eq_true]
    · rw [if_neg (by omega)]
      exact ⟨s, rfl, Nat.le_refl _, fun va => ⟨fun mapped => ⟨mapped, fun no => enough no.1⟩, And.left⟩⟩

theorem sbrk_near {hp : Nat} (large : 2 ^ 31 - 2 * UNIT < nbytes) (small : nbytes < 2 ^ 32)
    (size : s.brk ≤ TRAPFRAME)
    (more : sbrk answer s (sbrkArg (coreUnits (units nbytes))) = some (hp, t)) :
    t.brk ≤ s.brk + UNIT := by
  by_cases most : 2 ^ 32 - UNIT < nbytes
  · obtain ⟨refuses, grows⟩ := sbrk_grows answer most small size
    by_cases refused : TRAPFRAME < s.brk + UNIT ∨ answer.uvmalloc = false
    · rw [refuses refused] at more
      cases more
    · rw [grows refused] at more
      obtain ⟨-, rfl⟩ := Prod.mk.inj (Option.some.inj more)
      exact Nat.le_refl _
  · obtain ⟨u, answered, falls, -⟩ := sbrk_falls answer large most size
    rw [answered] at more
    obtain ⟨-, rfl⟩ := Prod.mk.inj (Option.some.inj more)
    exact Nat.le_trans falls (Nat.le_add_right _ _)

/-- When `malloc` goes on with a number that is not what it asked for. -/
theorem not_stopped_iff (large : 2 ^ 31 - 2 * UNIT < nbytes) (small : nbytes < 2 ^ 32)
    (size : s.brk ≤ TRAPFRAME) :
    ¬ Stopped answer s nbytes ↔ ∃ t,
      sbrk answer s (sbrkArg (coreUnits (units nbytes))) = some (s.brk, t) ∧
      Stores answer t s.brk := by
  have unit : UNIT = 16 := rfl
  have page : PGSIZE = 4096 := rfl
  have down : ∀ a, PGROUNDDOWN a = a / 4096 * 4096 := fun _ => rfl
  unfold Stopped
  split
  next most =>
    obtain ⟨refuses, grows⟩ := sbrk_grows answer most small size
    obtain ⟨aligned, above, near⟩ := round_spec size
    have here := down s.brk
    rw [page] at aligned ⊢
    constructor
    · intro runs
      rw [← or_assoc, not_or] at runs
      obtain ⟨fits, top⟩ := runs
      have room : s.brk + UNIT ≤ TRAPFRAME := Nat.le_of_not_lt (not_or.mp fits).1
      obtain ⟨-, above', -⟩ := round_spec room
      have may : ∀ a, s.brk ≤ a → a < s.brk + UNIT → MayStore answer { s with
          brk := s.brk + UNIT, mapped := fun va =>
            s.mapped va || between s.brk (s.brk + UNIT) va } a := by
        intro a low high
        have floor := down a
        by_cases new : PGROUNDUP s.brk ≤ PGROUNDDOWN a
        · refine Or.inl ?_
          simp only [between, Bool.or_eq_true, Bool.and_eq_true, decide_eq_true_eq]
          exact Or.inr ⟨new, by omega⟩
        · -- the last page of before, which the break cuts
          have same : PGROUNDDOWN a = PGROUNDDOWN s.brk := by omega
          have cuts : s.brk % 4096 ≠ 0 := by omega
          rcases Bool.eq_false_or_eq_true (s.mapped (PGROUNDDOWN s.brk)) with mapped | bare
          · refine Or.inl ?_
            simp only [same, mapped, Bool.true_or]
          · exact Or.inr ⟨Bool.eq_true_of_not_eq_false fun none => top ⟨cuts, bare, none⟩, high⟩
      exact ⟨_, grows fits, ⟨may s.brk (Nat.le_refl _) (by omega),
        may (s.brk + 11) (by omega) (by omega)⟩⟩
    · rintro ⟨t, more, stores⟩ stopped
      rw [← or_assoc] at stopped
      by_cases refused : TRAPFRAME < s.brk + UNIT ∨ answer.uvmalloc = false
      · rw [refuses refused] at more
        cases more
      · obtain ⟨cuts, bare, none⟩ := stopped.resolve_left refused
        rw [grows refused] at more
        obtain ⟨-, rfl⟩ := Prod.mk.inj (Option.some.inj more)
        rcases stores.1 with mapped | ⟨fault, -⟩
        · simp only [bare, between, Bool.false_or, Bool.and_eq_true, decide_eq_true_eq] at mapped
          omega
        · rw [none] at fault
          cases fault
  next less =>
    obtain ⟨t, more, falls, pages⟩ := sbrk_falls answer large less size
    constructor
    · intro runs
      have may : ∀ a, a = s.brk ∨ a = s.brk + 11 → MayStore answer t a := by
        intro a which
        refine Or.inl ((pages _).mpr ⟨?_, ?_⟩)
        · exact Bool.eq_true_of_not_eq_false fun bare => runs ⟨a, which, Or.inl bare⟩
        · exact fun gone => runs ⟨a, which, Or.inr gone⟩
      exact ⟨t, more, ⟨may _ (Or.inl rfl), may _ (Or.inr rfl)⟩⟩
    · rintro ⟨t', more', stores⟩ ⟨a, which, gone⟩
      rw [more] at more'
      obtain ⟨-, rfl⟩ := Prod.mk.inj (Option.some.inj more')
      have may : MayStore answer t a := by
        rcases which with rfl | rfl
        · exact stores.1
        · exact stores.2
      rcases may with mapped | ⟨-, low⟩
      · obtain ⟨before, stays⟩ := (pages _).mp mapped
        rcases gone with bare | fell
        · rw [bare] at before
          cases before
        · exact stays fell
      · omega

/-! ## Blocks and the break -/

theorem Handed.below {h : Heap} {ap hi : Nat} (handed : Handed limit base h given nunits ap)
    (pos : 0 < nunits) (regions : ∀ r ∈ h.obtained, r.stop UNIT ≤ hi) :
    ap + UNIT * (nunits - 1) ≤ hi := by
  obtain ⟨free', n, rfl, rfl, solid⟩ := handed
  have stop := solid.tiles.below (List.mem_append_right _ List.mem_cons_self) regions
  unfold Block.stop UNIT at stop
  unfold plus UNIT
  omega

/-- When memory at the break has been given, most of a large block is in the regions of before
if it ends near the break. -/
theorem Handed.span {h : Heap} {old : List Block} {ap nu : Nat}
    (handed : Handed limit base h given nunits ap)
    (grown : h.obtained = ⟨s.brk, nu⟩ :: old) :
    min (ap - UNIT + UNIT * nunits) s.brk - (ap - UNIT) ≤ UNIT * total old := by
  obtain ⟨free', n, rfl, rfl, solid⟩ := handed
  have addr : plus n.addr 1 - UNIT = n.addr := by
    unfold plus UNIT
    omega
  rw [addr]
  refine span_le_total fun x low high => ?_
  obtain ⟨inside, below⟩ := Nat.lt_min.mp high
  obtain ⟨r, mem, has⟩ := (solid.tiles.cover x).mp ⟨n, by simp, low, inside⟩
  rw [grown] at mem
  rcases List.mem_cons.mp mem with rfl | before
  · exact absurd has.1 (Nat.not_le_of_lt below)
  · exact ⟨r, before, has⟩

theorem Placed.fresh (placed : Placed base s) (ok : Sound base s.heap free given) {nu : Nat}
    (fits : UNIT * nu ≤ 2 ^ 32 + UNIT) : FreshIn (2 ^ 33) base s.heap nu (some s.brk) := by
  refine ⟨placed.base, fun r inside => Or.inr (placed.regions r inside), ?_⟩
  have small := ok.small
  unfold UNIT RAM at *
  omega

theorem Sound.wide (ok : Sound base s.heap free given) : Solid (2 ^ 33) base s.heap free given :=
  ⟨ok.circle, ok.tiles, ok.above, ok.given, Nat.le_trans ok.small (by decide), by decide⟩

/-- What the loop of `malloc` comes to. -/
inductive Loops (base turns nunits : Nat) (answer : Answer) (s : Proc) (free given : List Block) :
    Option Outcome → Prop
  | short : turns ≤ free.length → Loops base turns nunits answer s free given none
  | found (heap : Heap) (ap : Nat) : (∃ b ∈ free, nunits ≤ b.size) →
    Handed (2 ^ 33) base heap given nunits ap →
      heap.obtained = s.heap.obtained →
        Loops base turns nunits answer s free given (some (s.with (heap, ap)))
  | asks (k : Nat) : (∀ b ∈ free, b.size < nunits) → turns = free.length + 1 + k →
      Loops base turns nunits answer s free given (askIn turns nunits k answer s)

theorem mallocLoopIn_loops (turns : Nat) (answer : Answer) (ok : Sound base s.heap free given)
    (pos : 0 < nunits) :
    Loops base turns nunits answer s free given
      (mallocLoopIn turns nunits turns [answer] s s.heap.freep (s.heap.hdr s.heap.freep).ptr) := by
  obtain ⟨p, l, start, linked, next, apart, size, count, members⟩ := ok.wide.around
  rw [next]
  rcases mallocLoopIn_scan answer l turns s.heap.freep linked apart start size next with
    ⟨few, stuck⟩ | ⟨prevp, c, inside, large, before, prev, found⟩ | ⟨none, k, enough, asked⟩
  · rw [stuck]
    exact .short (by omega)
  · rw [found]
    have known := (members c).mp inside
    have linkedSize : (s.heap.hdr c.addr).size = c.size := ok.circle.linked.size known
    have circle : ∃ b ∈ (⟨base, 0⟩ :: free : List Block), b.addr = prevp := by
      rcases prev with rfl | ⟨b, mem, same⟩
      · exact ok.circle.freep
      · exact ⟨b, (members b).mp (List.mem_cons_of_mem _ mem), same⟩
    refine .found _ _ ⟨c, ?_, by rwa [← linkedSize]⟩ (ok.wide.carve pos circle before large)
      (carve_obtained _ _ _ _)
    rcases List.mem_cons.mp known with rfl | later
    · rw [linkedSize] at large
      exact absurd large (Nat.not_le_of_lt pos)
    · exact later
  · rw [asked]
    refine .asks k (fun b inside => none b ((members b).mpr (List.mem_cons_of_mem _ inside))) (by omega)

theorem coreUnits_fits (small : nbytes < 2 ^ 32) : UNIT * coreUnits (units nbytes) ≤ 2 ^ 32 + UNIT := by
  unfold coreUnits units UNIT
  split <;> omega

theorem askIn_handed {k ap : Nat} (low : 0 < base) (ok : Sound base s.heap free given)
    (placed : Placed base s)
    (small : nbytes < 2 ^ 32) (run : askIn turns (units nbytes) k answer s = some (.returned t ap)) :
    (t = s ∧ ap = 0) ∨
    ∃ u, sbrk answer s (sbrkArg (coreUnits (units nbytes))) = some (s.brk, u) ∧ Stores answer u s.brk ∧
      t.brk = u.brk ∧ Handed (2 ^ 33) base t.heap given (units nbytes) ap ∧
      t.heap.obtained = ⟨s.brk, coreUnits (units nbytes)⟩ :: s.heap.obtained := by
  cases more : sbrk answer s (sbrkArg (coreUnits (units nbytes))) with
  | none =>
      rw [askIn, more, morecoreIn] at run
      obtain ⟨rfl, rfl⟩ := Outcome.returned.inj (Option.some.inj run)
      exact Or.inl ⟨rfl, rfl⟩
  | some result =>
      obtain ⟨hp, u⟩ := result
      obtain ⟨rfl, heap⟩ := sbrk_same more
      by_cases stores : Stores answer u s.brk
      · rw [askIn_granted more stores, Option.map_eq_some_iff] at run
        obtain ⟨⟨h, q⟩, asked, result⟩ := run
        obtain ⟨rfl, rfl⟩ := Outcome.returned.inj result
        rw [heap] at asked
        obtain ⟨handed, grown⟩ := ok.wide.askCore_handed low (units_spec small).1
          (placed.fresh ok (coreUnits_fits small)) asked
        exact Or.inr ⟨u, rfl, stores, rfl, handed, grown⟩
      · rw [askIn, more, morecoreIn, if_neg stores] at run
        cases run

theorem askIn_ends {k : Nat} (ok : Sound base s.heap free given) (placed : Placed base s)
    (small : nbytes < 2 ^ 32)
    (enough : free.length < turns) (more : free.length + 1 < k) :
    ∃ result, askIn turns (units nbytes) k answer s = some result := by
  cases answered : sbrk answer s (sbrkArg (coreUnits (units nbytes))) with
  | none =>
      rw [askIn, answered, morecoreIn]
      exact ⟨_, rfl⟩
  | some result =>
      obtain ⟨hp, u⟩ := result
      obtain ⟨rfl, heap⟩ := sbrk_same answered
      by_cases stores : Stores answer u s.brk
      · rw [askIn_granted answered stores, heap]
        obtain ⟨r, done⟩ := ok.wide.askCore_ends (placed.fresh ok (coreUnits_fits small)) enough more
        rw [done]
        exact ⟨_, rfl⟩
      · rw [askIn, answered, morecoreIn, if_neg stores]
        exact ⟨_, rfl⟩

/-- The number of bytes is not one that `sbrk` passes on wrongly, or the call stops all the same. -/
def Meets (answer : Answer) (s : Proc) (nbytes : Nat) : Prop :=
  nbytes ≤ 2 ^ 31 - 2 * UNIT ∨ Stopped answer s nbytes

/-- The process when `malloc` has returned `ap`. -/
structure Served (base : Nat) (answer : Answer) (s t : Proc) (given : List Block)
    (nbytes ap : Nat) : Prop where
  placed : Placed base t
  heap : (t.heap = s.heap ∧ ap = 0) ∨ Handed (2 ^ 33) base t.heap given (units nbytes) ap
  obtained : t.heap.obtained = s.heap.obtained ∨
    answer.uvmalloc = true ∧ UNIT * coreUnits (units nbytes) < 2 ^ 31 ∧
      t.heap.obtained = ⟨s.brk, coreUnits (units nbytes)⟩ :: s.heap.obtained

theorem mallocLoopIn_served (low : 0 < base) (ok : Sound base s.heap free given)
    (placed : Placed base s)
    (small : nbytes < 2 ^ 32) (meets : Meets answer s nbytes) {turns ap : Nat}
    (run : mallocLoopIn turns (units nbytes) turns [answer] s s.heap.freep
    (s.heap.hdr s.heap.freep).ptr =
      some (.returned t ap)) : Served base answer s t given nbytes ap := by
  have loops := mallocLoopIn_loops turns answer ok (units_spec small).1
  rw [run] at loops
  generalize found : some (Outcome.returned t ap) = result at loops
  cases loops with
  | short => cases found
  | found heap q large handed same =>
      obtain ⟨rfl, rfl⟩ := Outcome.returned.inj (Option.some.inj found)
      refine ⟨⟨placed.base, ?_, placed.size⟩, Or.inr handed, Or.inl same⟩
      simp only [same]
      exact placed.regions
  | asks k none count =>
      rcases askIn_handed low ok placed small found.symm with
        ⟨rfl, rfl⟩ | ⟨u, more, stores, brk, handed, grown⟩
      · exact ⟨placed, Or.inl ⟨rfl, rfl⟩, Or.inl rfl⟩
      · have little : nbytes ≤ 2 ^ 31 - 2 * UNIT := by
          by_contra large
          exact (not_stopped_iff (Nat.lt_of_not_le large) small placed.size).mpr ⟨u, more, stores⟩
            (meets.resolve_left large)
        have amount : UNIT * coreUnits (units nbytes) < 2 ^ 31 := by
          unfold coreUnits units UNIT at *
          split <;> omega
        obtain ⟨risen, size, uvmalloc⟩ := sbrk_small (coreUnits_large _).2 amount placed.size more
        rw [← brk] at risen size
        refine ⟨⟨?_, ?_, size⟩, Or.inr handed, Or.inr ⟨uvmalloc, amount, grown⟩⟩
        · rw [risen]
          exact Nat.le_trans placed.base (Nat.le_add_right _ _)
        · rw [grown, risen]
          intro r inside
          rcases List.mem_cons.mp inside with rfl | old
          · exact Nat.le_refl _
          · exact Nat.le_trans (placed.regions r old) (Nat.le_add_right _ _)

theorem Served.below {ap : Nat} (served : Served base answer s t given nbytes ap)
    (small : nbytes < 2 ^ 32)
    (nonzero : ap ≠ 0) : ap + nbytes ≤ t.brk := by
  obtain ⟨pos, enough⟩ := units_spec small
  have handed := served.heap.resolve_left fun none => nonzero none.2
  exact Nat.le_trans (Nat.add_le_add_left enough _) (handed.below pos served.placed.regions)

theorem mallocLoopIn_ends (ok : Sound base s.heap free given) (placed : Placed base s)
    (small : nbytes < 2 ^ 32) (answer : Answer) {turns : Nat} (enough : 2 * free.length + 3 < turns) :
    ∃ result, mallocLoopIn turns (units nbytes) turns [answer] s s.heap.freep
      (s.heap.hdr s.heap.freep).ptr =
      some result := by
  have loops := mallocLoopIn_loops turns answer ok (units_spec small).1
  generalize mallocLoopIn turns (units nbytes) turns [answer] s s.heap.freep
    (s.heap.hdr s.heap.freep).ptr =
    result at loops
  cases loops with
  | short few => omega
  | found heap ap large handed same => exact ⟨_, rfl⟩
  | asks k none count => exact askIn_ends ok placed small (by omega) (by omega)

theorem Sound.small_block (ok : Sound base s.heap free given) (large : 2 ^ 31 - 2 * UNIT < nbytes)
    (small : nbytes < 2 ^ 32) : ¬ ∃ b ∈ free, units nbytes ≤ b.size := by
  rintro ⟨b, inside, fits⟩
  have size := size_le_total (List.mem_append_left given inside)
  rw [ok.tiles.amount] at size
  have memory := ok.small
  unfold units UNIT RAM at *
  omega

/-- A block that goes past the break: if it did not, the regions of before would be larger than
the memory. -/
theorem mallocLoopIn_past (low : 0 < base) (ok : Sound base s.heap free given) (placed : Placed base s)
    (small : nbytes < 2 ^ 32) (fails : ¬ Meets answer s nbytes) {turns : Nat}
    (enough : 2 * free.length + 3 < turns) :
    ∃ t ap, mallocLoopIn turns (units nbytes) turns [answer] s s.heap.freep
      (s.heap.hdr s.heap.freep).ptr =
      some (.returned t ap) ∧ ap ≠ 0 ∧ ¬ ap + nbytes ≤ t.brk := by
  rw [Meets, not_or] at fails
  obtain ⟨many, goes⟩ := fails
  have large : 2 ^ 31 - 2 * UNIT < nbytes := Nat.lt_of_not_le many
  obtain ⟨u, more, stores⟩ := (not_stopped_iff large small placed.size).mp goes
  have near := sbrk_near large small placed.size more
  obtain ⟨-, heap⟩ := sbrk_same more
  obtain ⟨result, ends⟩ := mallocLoopIn_ends ok placed small answer enough
  have loops := mallocLoopIn_loops turns answer ok (units_spec small).1
  rw [ends] at loops
  generalize found : some result = outcome at loops
  cases loops with
  | short => cases found
  | found h q fits handed same => exact absurd fits (ok.small_block large small)
  | asks k none count =>
      rw [askIn_granted more stores, heap] at found
      obtain ⟨⟨h, ap⟩, asked, same⟩ := Option.map_eq_some_iff.mp found.symm
      obtain ⟨handed, grown⟩ := ok.wide.askCore_handed low (units_spec small).1
        (placed.fresh ok (coreUnits_fits small)) asked
      refine ⟨{ u with heap := h }, ap, by rw [ends, ← same]; rfl, ?_, ?_⟩
      · obtain ⟨free', n, rfl, -⟩ := handed
        unfold plus UNIT
        omega
      · intro below
        have span := handed.span grown
        have memory := ok.small
        have high : ap + nbytes ≤ s.brk + UNIT := Nat.le_trans below near
        have long := (units_spec small).2
        have pos : UNIT ≤ ap := by
          obtain ⟨free', n, rfl, -⟩ := handed
          unfold plus
          omega
        unfold UNIT RAM at *
        omega

theorem ready_obtained (base : Nat) (h : Heap) : (ready base h).obtained = h.obtained := by
  unfold ready
  split <;> rfl

theorem Placed.ready (placed : Placed base s) : Placed base { s with heap := ready base s.heap } :=
  ⟨placed.base, by rw [ready_obtained]; exact placed.regions, placed.size⟩

end Break

/-! ## A program and its break -/

structure Running where
  proc : Proc
  live : List Live

def Running.state (s : Running) : State := ⟨s.proc.heap, s.live⟩

def Running.onHeap (s : Running) (t : Option State) : Option Running :=
  t.map fun t => ⟨{ s.proc with heap := t.heap }, t.live⟩

inductive ProcEvent where
  | malloc (turns nbytes : Nat) (answer : Answer)
  | free (turns ap : Nat)
  | store (ap a : Nat) (h : Header)

/-- `uvmalloc` does not find more memory than there is. -/
def Backed (s : Proc) (nbytes : Nat) (answer : Answer) : Prop :=
  answer.uvmalloc = true → UNIT * total s.heap.obtained + sbrkArg (coreUnits (units nbytes)) ≤ RAM

instance (s : Proc) (nbytes : Nat) (answer : Answer) : Decidable (Backed s nbytes answer) :=
  inferInstanceAs (Decidable (_ → _))

/-- A process that is killed makes no further step. -/
def procStep (prog : Program) (s : Running) : ProcEvent → Option Running
  | .malloc turns nbytes answer =>
      if nbytes < 2 ^ 32 ∧ Backed s.proc nbytes answer then
        match mallocIn prog.base turns s.proc nbytes answer with
        | some (.returned t ap) => some ⟨t, if ap = 0 then s.live else ⟨ap, nbytes⟩ :: s.live⟩
        | _ => none
      else none
  | .free turns ap => s.onHeap (step prog s.state (.free turns ap))
  | .store ap a h => s.onHeap (step prog s.state (.store ap a h))

/-- The number of bytes of a call of `malloc` is passed on, or the call stops all the same. -/
def ProcEvent.Meets (e : ProcEvent) (s : Proc) : Prop :=
  ∀ turns nbytes answer, e = .malloc turns nbytes answer → Umalloc.Meets answer s nbytes

/-- The heap is sound and below the break. -/
structure Good (base : Nat) (s : Running) : Prop where
  whole : Whole base s.state
  placed : Placed base s.proc

section Running
variable {prog : Program} {s s' : Running} {turns ap nbytes : Nat} {answer : Answer}

theorem Good.malloc (good : Good prog.base s) (meets : Meets answer s.proc nbytes)
    (run : procStep prog s (.malloc turns nbytes answer) = some s') : Good prog.base s' := by
  simp only [procStep] at run
  split at run
  next enabled =>
    obtain ⟨small, backed⟩ := enabled
    split at run
    next t ap returned =>
      obtain rfl := Option.some.inj run
      obtain ⟨free, given, sound, backs, same⟩ := good.whole.ready
      obtain ⟨pos, enough⟩ := units_spec small
      have served : Served prog.base answer { s.proc with heap := ready prog.base s.proc.heap } t given
          nbytes ap := mallocLoopIn_served prog.pos sound good.placed.ready small meets returned
      refine ⟨?_, served.placed⟩
      rcases served.heap with ⟨heap, rfl⟩ | ⟨free', n, result, size, solid⟩
      · refine Or.inr ⟨free, given, ?_, backs⟩
        rw [Running.state, heap]
        exact sound
      · have memory : UNIT * total t.heap.obtained ≤ RAM := by
          rcases served.obtained with old | ⟨found, amount, grown⟩
          · rw [old]
            exact sound.small
          · have room := backed found
            have old : total (ready prog.base s.proc.heap).obtained = total s.proc.heap.obtained :=
              congrArg total same
            rw [sbrkArg_small amount] at room
            rw [grown, total_cons, old, Nat.mul_add, Nat.add_comm]
            exact_mod_cast room
        have some : ap ≠ 0 := by
          rw [result]
          unfold plus UNIT
          omega
        refine Or.inr ⟨free', n :: given,
          ⟨solid.circle, solid.tiles, solid.above, solid.given, memory⟩, ?_⟩
        simp only [Running.state, if_neg some]
        exact List.Forall₂.cons ⟨result, by rw [size]; exact enough⟩ backs
    · cases run
  · cases run

theorem Good.onHeap (good : Good prog.base s) {t : State} (whole : Whole prog.base t)
    (same : t.heap.obtained = s.proc.heap.obtained) (run : s.onHeap (some t) = some s') :
    Good prog.base s' := by
  obtain rfl := Option.some.inj run
  exact ⟨whole, ⟨good.placed.base, by simp only [same]; exact good.placed.regions, good.placed.size⟩⟩

theorem Good.free (good : Good prog.base s) (run : procStep prog s (.free turns ap) = some s') :
    Good prog.base s' := by
  cases freed : step prog s.state (.free turns ap) with
  | none =>
      rw [procStep, freed] at run
      cases run
  | some t =>
      rw [procStep, freed] at run
      refine good.onHeap (step_free good.whole freed) ?_ run
      simp only [step] at freed
      split at freed
      · obtain ⟨heap, done, rest⟩ := Option.bind_eq_some_iff.mp freed
        obtain rfl := Option.some.inj rest
        exact free_obtained done
      · cases freed

theorem Good.store {a : Nat} {h : Header} (good : Good prog.base s)
    (run : procStep prog s (.store ap a h) = some s') : Good prog.base s' := by
  cases stored : step prog s.state (.store ap a h) with
  | none =>
      rw [procStep, stored] at run
      cases run
  | some t =>
      rw [procStep, stored] at run
      refine good.onHeap (step_store good.whole stored) ?_ run
      simp only [step] at stored
      split at stored
      · obtain rfl := Option.some.inj stored
        rfl
      · cases stored

theorem procStep_good {e : ProcEvent} (good : Good prog.base s) (meets : e.Meets s.proc)
    (run : procStep prog s e = some s') : Good prog.base s' := by
  cases e with
  | malloc turns nbytes answer => exact good.malloc (meets _ _ _ rfl) run
  | free turns ap => exact good.free run
  | store ap a h => exact good.store run

theorem Good.live (good : Good prog.base s) {l : Live} (inside : l ∈ s.live) :
    l.ap + l.nbytes ≤ s.proc.brk := by
  rcases good.whole with ⟨-, -, none⟩ | ⟨free, given, sound, backs⟩
  · rw [show s.live = [] from none] at inside
    cases inside
  · obtain ⟨before, after, split⟩ := List.append_of_mem (show l ∈ s.state.live from inside)
    rw [split] at backs
    obtain ⟨g, b, g', rfl, -, ⟨ap, size⟩, -⟩ := forall₂_split backs
    have full := sound.tiles.full b (by simp)
    have stop := sound.tiles.below (by simp : b ∈ free ++ (g ++ b :: g')) good.placed.regions
    unfold Block.stop at stop
    unfold plus at ap
    unfold UNIT at *
    omega

end Running

/-- The process has not called `malloc`, and its data are below the break. -/
structure Starts (base : Nat) (s : Running) : Prop where
  heap : s.proc.heap.freep = 0 ∧ s.proc.heap.obtained = []
  live : s.live = []
  brk : base + UNIT ≤ s.proc.brk ∧ s.proc.brk ≤ TRAPFRAME

theorem Starts.good {base : Nat} {s : Running} (new : Starts base s) : Good base s := by
  refine ⟨Or.inl ⟨new.heap.1, new.heap.2, new.live⟩, new.brk.1, ?_, new.brk.2⟩
  rw [new.heap.2]
  exact fun _ no => absurd no List.not_mem_nil

/-- In a run whose calls of `malloc` meet the condition, the heap stays sound and below the break, and
what the program holds is memory.  For the next call the condition is exact: `malloc` comes to an
end, and what it returns is below the break unless the number of bytes is 2 GiB or almost and the
kernel takes the wrong number that `sbrk` passes on. -/
theorem malloc_below_break (prog : Program) :
    (∀ r : Run (procStep prog), Starts prog.base (r.state 0) →
      (∀ i, i < r.len → (r.event i).Meets (r.state i).proc) → ∀ i, i ≤ r.len →
      Good prog.base (r.state i) ∧
      ∀ l ∈ (r.state i).live, l.ap + l.nbytes ≤ (r.state i).proc.brk) ∧
    ∀ (s : Proc) (free given : List Block) (nbytes : Nat) (answer : Answer),
      Sound prog.base (ready prog.base s.heap) free given → Placed prog.base s → nbytes < 2 ^ 32 →
      (∃ k, ∀ turns, k < turns → (mallocIn prog.base turns s nbytes answer).isSome) ∧
      ((∀ turns t ap, mallocIn prog.base turns s nbytes answer = some (.returned t ap) → ap ≠ 0 →
        ap + nbytes ≤ t.brk) ↔ Meets answer s nbytes) := by
  refine ⟨?_, ?_⟩
  · intro r new meets i inside
    have good : Good prog.base (r.state i) :=
      r.invariant_of (fun s e => e.Meets s.proc) (Good prog.base) new.good
        (fun _ _ _ run meets good => procStep_good good meets run) meets i inside
    exact ⟨good, fun l => good.live⟩
  · intro s free given nbytes answer ok below small
    have placed := below.ready
    refine ⟨⟨2 * free.length + 3, ?_⟩, ?_, ?_⟩
    · intro turns enough
      obtain ⟨result, ends⟩ := mallocLoopIn_ends ok placed small answer enough
      rw [mallocIn]
      exact Option.isSome_of_mem ends
    · intro holds
      by_contra fails
      obtain ⟨t, ap, run, nonzero, past⟩ :=
        mallocLoopIn_past prog.pos ok placed small fails (Nat.lt_succ_self _)
      exact past (holds _ t ap (by rw [mallocIn]; exact run) nonzero)
    · intro meets turns t ap run nonzero
      exact (mallocLoopIn_served prog.pos ok placed small meets run).below small nonzero

/-! ## The kernel's `sbrk` -/

section Kernel
open Xv6Fcfs.Vm (Phys Space SpaceInv KernelPages AddressSpace leafPte PTE_U PTE_W PTE_R PTE_V PA2PTE
  SBRK_EAGER sysSbrk)

def UserWritable (s : Phys) (root va : Nat) : Prop :=
  ∃ pte, leafPte s.mem root va = some pte ∧ pte &&& PTE_U ≠ 0 ∧ pte &&& PTE_W ≠ 0

def Agrees (s : Phys) (root : Nat) (mapped : Nat → Bool) : Prop :=
  ∀ va, va % PGSIZE = 0 → va < TRAPFRAME → (mapped va = true ↔ UserWritable s root va)

theorem entry_writable (mem : Nat) :
    (PA2PTE (mem * PGSIZE) ||| (PTE_R ||| PTE_U ||| PTE_W) ||| PTE_V) &&& PTE_W ≠ 0 := by
  intro zero
  have bit := congrArg (Nat.testBit · 2) zero
  simp only [Nat.testBit_and, Nat.testBit_or, Nat.zero_testBit] at bit
  rw [show Nat.testBit PTE_W 2 = true from by decide] at bit
  simp at bit

theorem Agrees.same {s s' : Phys} {root : Nat} {mapped : Nat → Bool} (agrees : Agrees s root mapped)
    (same : Vm.SameLeaves s s' root) : Agrees s' root mapped := by
  intro va aligned user
  have leaf := same va aligned (Nat.lt_trans user (by decide))
  have entry : leafPte s'.mem root va = leafPte s.mem root va := by
    have fst := congrArg (Option.map Prod.fst) leaf
    simpa only [Vm.leaf, Option.map_map, Function.comp_def, Option.map_id'] using fst
  rw [agrees va aligned user, UserWritable, UserWritable, entry]

/-- `sys_sbrk` answers as `sbrk` does here, for one of the answers of `uvmalloc`. -/
theorem sysSbrk_sbrk {tramp : Nat} {s : Phys} {p : Space} (space : AddressSpace tramp s p) (heap : Heap)
    {mapped : Nat → Bool} (agrees : Agrees s p.pagetable mapped) {n : Int} (low : -2 ^ 31 ≤ n)
    (high : n < 2 ^ 31)
    (fault : Bool) : ∃ r s', sysSbrk p n SBRK_EAGER s = .ok (r, s') ∧ ∃ found,
      (sbrk ⟨found, fault⟩ ⟨heap, p.sz, mapped⟩ n = none ∧ r = (-1, p.sz) ∧
      Agrees s' p.pagetable mapped) ∨
      ∃ t, sbrk ⟨found, fault⟩ ⟨heap, p.sz, mapped⟩ n = some (p.sz, t) ∧ r = ((p.sz : Int), t.brk) ∧
        Agrees s' p.pagetable t.mapped := by
  obtain ⟨T, L, M, inv, kernel⟩ := space
  refine Lib.wp_total ?_
  have small := inv.size
  have frame : TRAPFRAME < 2 ^ 38 := by decide
  rw [sysSbrk, if_pos (Or.inl rfl)]
  rcases Int.lt_or_le 0 n with positive | negative
  · have sum : (((p.sz : Int) + n) % 2 ^ 64).toNat = p.sz + n.toNat := by omega
    refine Lib.wp_seq (Vm.growproc_grows inv kernel positive high) ?_
    rintro r s' (⟨rfl, same⟩ | ⟨rfl, T', L', M', inv', -, -, -, filled⟩)
    · simp only [Lib.wp_ite, Lib.wp_pure]
      refine ⟨fun _ => ⟨false, Or.inl ⟨?_, trivial, agrees.same same⟩⟩, fun no => absurd (by decide) no⟩
      simp only [sbrk, growproc, if_pos positive, Bool.false_eq_true, if_false, ite_self,
        Option.map_none]
    · simp only [Lib.wp_ite, Lib.wp_pure]
      refine ⟨fun no => absurd no (by decide), fun _ => ⟨true, Or.inr ⟨⟨heap, p.sz + n.toNat,
        fun va => mapped va || between p.sz (p.sz + n.toNat) va⟩, ?_, rfl, ?_⟩⟩⟩
      · simp only [sbrk, growproc, sum, if_pos positive, if_neg (Nat.not_lt.mpr inv'.size), if_true,
          Option.map_some]
      · intro va aligned user
        have entry := inv'.leafPte_eq aligned user
        by_cases inside : PGROUNDUP p.sz ≤ va ∧ va < PGROUNDUP (p.sz + n.toNat)
        · obtain ⟨q, new, -⟩ := filled.inside va aligned inside.1 inside.2
          have mapped' : between p.sz (p.sz + n.toNat) va = true := by
            simp only [between, inside, decide_true, Bool.and_self]
          simp only [mapped', Bool.or_true, true_iff]
          exact ⟨_, entry.trans new, Vm.entry_user q PTE_W, entry_writable q⟩
        · have bare : between p.sz (p.sz + n.toNat) va = false := by
            simp only [between, Bool.and_eq_false_iff, decide_eq_false_iff_not]
            exact Decidable.not_and_iff_or_not.mp inside
          simp only [bare, Bool.or_false]
          rw [agrees va aligned user, UserWritable, UserWritable, entry, inv.leafPte_eq aligned user,
            filled.outside va aligned inside]
  · rcases Int.lt_or_eq_of_le negative with less | rfl
    · simp only [Vm.growproc, if_neg (Int.not_lt.mpr negative), if_pos less, Lib.wp_bind]
      refine Lib.wp_post (Vm.uvmdealloc_spec inv.toHolds small) ?_
      rintro r s' ⟨L', M', holds, -, -, rfl, map⟩
      simp only [Lib.wp_pure, Lib.wp_ite]
      refine ⟨fun no => absurd no (by decide), fun _ => ⟨true, Or.inr ?_⟩⟩
      have entry : ∀ va, va % PGSIZE = 0 → va < TRAPFRAME → leafPte s'.mem p.pagetable va = M' va :=
        fun va aligned user => holds.pt.map va aligned (Nat.lt_trans user (by decide))
      by_cases falls : (((p.sz : Int) + n) % 2 ^ 64).toNat < p.sz
      · generalize size : (((p.sz : Int) + n) % 2 ^ 64).toNat = newsz at falls map
        refine ⟨⟨heap, newsz, fun va => mapped va && !between newsz p.sz va⟩,
          ?_, by rw [if_pos falls], ?_⟩
        · simp only [sbrk, growproc, size, if_neg (Int.not_lt.mpr negative), if_pos less, if_pos falls,
            Option.map_some]
        · intro va aligned user
          have before := agrees va aligned user
          rw [UserWritable, inv.leafPte_eq aligned user] at before
          rw [UserWritable, entry va aligned user, map]
          simp only [between, Bool.and_eq_true, Bool.not_eq_true', Bool.and_eq_false_iff,
            decide_eq_false_iff_not, before]
          by_cases gone : PGROUNDUP newsz ≤ va ∧ va < PGROUNDUP p.sz
          · rw [if_pos ⟨falls, gone⟩]
            refine ⟨fun both => absurd gone (Decidable.not_and_iff_or_not.mpr both.2), ?_⟩
            rintro ⟨_, no, _⟩
            cases no
          · rw [if_neg fun no => gone no.2]
            exact and_iff_left (Decidable.not_and_iff_or_not.mp gone)
      · refine ⟨⟨heap, p.sz, mapped⟩, ?_, by rw [if_neg falls], ?_⟩
        · simp only [sbrk, growproc, if_neg (Int.not_lt.mpr negative), if_pos less, if_neg falls,
            Option.map_some]
        · intro va aligned user
          have before := agrees va aligned user
          rw [UserWritable, inv.leafPte_eq aligned user] at before
          rw [UserWritable, entry va aligned user, map, if_neg fun no => falls no.1]
          exact before
    · simp only [Vm.growproc, Int.lt_irrefl, if_false, Lib.wp_bind, Lib.wp_pure, Lib.wp_ite]
      refine ⟨fun no => absurd no (by decide), fun _ =>
        ⟨true, Or.inr ⟨⟨heap, p.sz, mapped⟩, ?_, rfl, agrees⟩⟩⟩
      simp only [sbrk, growproc, Int.lt_irrefl, if_false, Option.map_some]

end Kernel

/-- A process with nothing on its heap, and with a break inside a page. -/
def smallProc : Proc := ⟨⟨fun _ => ⟨0, 0⟩, 0, []⟩, 0x5010, fun va => decide (va ≤ 0x5000)⟩

theorem smallProc_sound : ∃ free given,
    Sound twoProg.base (ready twoProg.base smallProc.heap) free given := by
  have new : Whole twoProg.base ⟨smallProc.heap, []⟩ := Or.inl ⟨rfl, rfl, rfl⟩
  obtain ⟨free, given, sound, -⟩ := new.ready
  exact ⟨free, given, sound⟩

theorem smallProc_placed : Placed twoProg.base smallProc :=
  ⟨by decide, fun _ no => absurd no List.not_mem_nil, by decide⟩

theorem returned_of {r : Option Outcome} (P : Proc → Nat → Bool) (answer : (match r with
    | some (.returned t ap) => P t ap
    | _ => false) = true) : ∃ t ap, r = some (.returned t ap) ∧ P t ap = true := by
  split at answer
  next t ap => exact ⟨t, ap, rfl, answer⟩
  · cases answer

def twoCalls : List ProcEvent := [.malloc 5 100 ⟨true, true⟩, .malloc 5 40 ⟨false, false⟩]

theorem twoCalls_runs : (exec (procStep twoProg) ⟨smallProc, []⟩ twoCalls).isSome := by decide +kernel

def smallRun : Run (procStep twoProg) :=
  Run.ofEvents (procStep twoProg) ⟨smallProc, []⟩ twoCalls (.free 0 0) twoCalls_runs

theorem smallRun_below : (smallRun.state 2).live.length = 2 ∧
    (∀ l ∈ (smallRun.state 2).live, l.ap + l.nbytes ≤ (smallRun.state 2).proc.brk) ∧
    ∃ t ap, mallocIn twoProg.base 5 smallProc 100 ⟨true, true⟩ = some (.returned t ap) ∧
      ap ≠ 0 ∧ ap + 100 ≤ t.brk := by
  obtain ⟨runs, single⟩ := malloc_below_break twoProg
  refine ⟨by decide +kernel, (runs smallRun ?_ ?_ 2 (Nat.le_refl 2)).2, ?_⟩
  · have first : smallRun.state 0 = ⟨smallProc, []⟩ := Run.ofEvents_zero _ _ _ _ _
    rw [first]
    exact ⟨⟨rfl, rfl⟩, rfl, by decide⟩
  · intro i inside turns nbytes answer call
    have known := Run.ofEvents_mem (procStep twoProg) _ twoCalls (.free 0 0) twoCalls_runs i inside
    rw [show (Run.ofEvents _ _ _ _ twoCalls_runs).event i = _ from call] at known
    have few : nbytes ≤ 100 := by
      simp only [twoCalls, List.mem_cons, ProcEvent.malloc.injEq, List.not_mem_nil, or_false] at known
      omega
    exact Or.inl (Nat.le_trans few (by decide))
  · obtain ⟨t, ap, run, nonzero⟩ :=
      returned_of (r := mallocIn twoProg.base 5 smallProc 100 ⟨true, true⟩)
      (fun _ ap => decide (ap ≠ 0)) (by decide +kernel)
    obtain ⟨free, given, sound⟩ := smallProc_sound
    refine ⟨t, ap, run, of_decide_eq_true nonzero, ?_⟩
    exact (single smallProc free given 100 ⟨true, true⟩ sound smallProc_placed (by decide)).2.mpr
      (Or.inl (by decide)) 5 t ap run (of_decide_eq_true nonzero)

/-- With the largest number of 32 bits the kernel adds 16 bytes, and `malloc` returns their end. -/
theorem malloc_past_break : ¬ ∀ (s : Proc) (nbytes : Nat) (answer : Answer) (turns : Nat)
    (t : Proc) (ap : Nat),
    (∃ free given, Sound twoProg.base (ready twoProg.base s.heap) free given) → Placed twoProg.base s →
      nbytes < 2 ^ 32 → mallocIn twoProg.base turns s nbytes answer = some (.returned t ap) → ap ≠ 0 →
      ap + nbytes ≤ t.brk := by
  intro claim
  obtain ⟨t, ap, run, result⟩ := returned_of
    (r := mallocIn twoProg.base 5 smallProc (2 ^ 32 - 1) ⟨true, true⟩)
    (fun t ap => decide (ap = 0x5020 ∧ t.brk = 0x5020)) (by decide +kernel)
  obtain ⟨same, brk⟩ := of_decide_eq_true result
  have below := claim smallProc (2 ^ 32 - 1) ⟨true, true⟩ 5 t ap smallProc_sound smallProc_placed
    (by decide) run (by omega)
  omega

end Xv6Fcfs.Umalloc
