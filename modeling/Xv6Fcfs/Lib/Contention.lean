import Mathlib.Data.Set.Card
import Mathlib.Data.Prod.Lex
import Mathlib.Order.Defs.Unbundled
import Mathlib.Algebra.BigOperators.Ring.Finset
import Mathlib.Algebra.Order.BigOperators.Group.Finset
import Mathlib.Tactic.Common

/-!
# Contention for a pool of units

Processes compete for the units of a pool, `need` at a time.  One that asks takes
them and waits for its request, or finds too few, wakes those who wait for units and
waits too; one whose request is done returns its units.  A process that runs outside
the pool may wake any process inside, and processes outside as `wakes` says.  Nothing
completes a request meanwhile.

The question is whether the ready processes all come to rest.  `Livelock` is the
condition under which contenders keep each other awake; without it every turn
decreases `measure`, if no process is woken in a circle outside the pool.
-/

set_option autoImplicit false

namespace Xv6Fcfs.Lib

inductive Role where
  | outside
  | waiting
  | pending
  | done
  deriving DecidableEq

structure Pool (ι : Type) where
  ready : ι → Prop
  role : ι → Role
  free : Nat

namespace Pool

variable {ι : Type}

section Turns
variable [DecidableEq ι] (need : Nat) (wakes : ι → ι → Prop)

/-- `p` asks for units and goes to sleep with them or without. -/
inductive Asks (s : Pool ι) (p : ι) (s' : Pool ι) : Prop where
  | fails (short : s.free < need) (role : s'.role = Function.update s.role p .waiting)
      (off : ¬ s'.ready p) (woken : ∀ q, s'.ready q → s.ready q ∨ s.role q = .waiting)
      (free : s'.free = s.free)
  | takes (enough : need ≤ s.free) (role : s'.role = Function.update s.role p .pending)
      (off : ¬ s'.ready p) (woken : ∀ q, s'.ready q → s.ready q)
      (free : s'.free = s.free - need)

/-- `p` returns its units, if it has any to return, and runs outside the pool. -/
structure Roams (s : Pool ι) (p : ι) (s' : Pool ι) : Prop where
  goes : s.role p = .outside ∨ s.role p = .done
  role : s'.role = Function.update s.role p .outside
  off : ¬ s'.ready p
  woken : ∀ q, s'.ready q → s.ready q ∨ s.role q ≠ .outside ∨ wakes p q
  free : s'.free = s.free + if s.role p = .done then need else 0

/-- One turn of the process `p`, to its next sleep. -/
inductive Turn (s : Pool ι) (p : ι) (s' : Pool ι) : Prop where
  | rests (pending : s.role p = .pending) (role : s'.role = s.role) (off : ¬ s'.ready p)
      (woken : ∀ q, s'.ready q → s.ready q) (free : s'.free = s.free)
  | retries (waits : s.role p = .waiting) (asks : Asks need s p s')
  | stays (roams : Roams need wakes s p s')
  | enters (mid : Pool ι) (roams : Roams need wakes s p mid) (asks : Asks need mid p s')

end Turns

variable (need : Nat) (wakes : ι → ι → Prop)

/-- A process that waits for units, or may still ask for them. -/
def Contender (s : Pool ι) (q : ι) : Prop :=
  s.role q = .waiting ∨ (s.role q = .outside ∧ s.ready q) ∨
    ((s.role q = .outside ∨ s.role q = .done) ∧ ∃ p, wakes p q)

def contenders (s : Pool ι) : Set ι := { q | s.Contender wakes q }

/-- Two contenders keep each other awake if there are too few units for one, and
three do so once one of them has taken the units. -/
def Livelock (s : Pool ι) : Prop :=
  (∃ q, s.ready q ∧ s.role q ≠ .pending) ∧ 2 ≤ (s.contenders wakes).ncard ∧
    (3 ≤ (s.contenders wakes).ncard ∨ s.free < need)

/-! ## The condition does not arise -/

section Calm
variable {need wakes} {s s' : Pool ι} {p : ι}

theorem few_contenders (calm : ¬ s.Livelock need wakes) (ready : s.ready p)
    (moves : s.role p ≠ .pending) : (s.contenders wakes).ncard ≤ 1 ∨
      ((s.contenders wakes).ncard = 2 ∧ need ≤ s.free) := by
  by_contra many
  exact calm ⟨⟨p, ready, moves⟩, by omega, by omega⟩

theorem calm_of_few [Finite ι] (few : (s.contenders wakes).ncard ≤ 1 ∨
      ((s.contenders wakes).ncard = 2 ∧ need ≤ s.free))
    (contender : ∀ q, s'.Contender wakes q → s.Contender wakes q) (free : s.free ≤ s'.free) :
    ¬ s'.Livelock need wakes := by
  have fewer : (s'.contenders wakes).ncard ≤ (s.contenders wakes).ncard :=
    Set.ncard_le_ncard contender (Set.toFinite _)
  rintro ⟨_, two, short⟩
  omega

theorem calm_of_fewer [Finite ι] (few : (s.contenders wakes).ncard ≤ 2)
    (contender : ∀ q, s'.Contender wakes q → s.Contender wakes q)
    (mine : s.Contender wakes p) (out : ¬ s'.Contender wakes p) : ¬ s'.Livelock need wakes := by
  have fewer : (s'.contenders wakes).ncard < (s.contenders wakes).ncard :=
    Set.ncard_lt_ncard ⟨contender, fun back => out (back mine)⟩ (Set.toFinite _)
  rintro ⟨_, two, _⟩
  omega

variable [DecidableEq ι]

theorem Roams.contender (roams : Roams need wakes s p s') :
    ∀ q, s'.Contender wakes q → s.Contender wakes q := by
  intro q contends
  by_cases self : q = p
  · subst self
    simp only [Contender, roams.role, Function.update_self, roams.off] at contends
    exact Or.inr (Or.inr ⟨roams.goes, by simpa using contends⟩)
  · have same : s'.role q = s.role q := by rw [roams.role, Function.update_of_ne self]
    simp only [Contender, same] at contends
    rcases contends with waits | ⟨outside, ready⟩ | woken
    · exact Or.inl waits
    · rcases roams.woken q ready with before | inside | woken
      · exact Or.inr (Or.inl ⟨outside, before⟩)
      · exact absurd outside inside
      · exact Or.inr (Or.inr ⟨Or.inl outside, p, woken⟩)
    · exact Or.inr (Or.inr woken)

theorem Asks.of_le {mid : Pool ι} (asks : Asks need mid p s') (role : mid.role = s.role)
    (ready : ∀ q, mid.ready q → s.ready q) (free : mid.free = s.free) : Asks need s p s' := by
  cases asks with
  | fails short moved off woken kept =>
      refine .fails (free ▸ short) (role ▸ moved) off ?_ (kept.trans free)
      intro q awake
      rw [← role]
      exact (woken q awake).imp (ready q) id
  | takes enough moved off woken taken =>
      exact .takes (free ▸ enough) (role ▸ moved) off (fun q awake => ready q (woken q awake))
        (free ▸ taken)

theorem contender_fails (role : s'.role = Function.update s.role p .waiting)
    (woken : ∀ q, s'.ready q → s.ready q ∨ s.role q = .waiting) :
    ∀ q, s'.Contender wakes q → q = p ∨ s.Contender wakes q := by
  intro q contends
  by_cases self : q = p
  · exact Or.inl self
  · have same : s'.role q = s.role q := by rw [role, Function.update_of_ne self]
    simp only [Contender, same] at contends
    right
    rcases contends with waits | ⟨outside, ready⟩ | woken'
    · exact Or.inl waits
    · exact (woken q ready).elim (fun before => Or.inr (Or.inl ⟨outside, before⟩)) Or.inl
    · exact Or.inr (Or.inr woken')

theorem contender_takes (role : s'.role = Function.update s.role p .pending)
    (woken : ∀ q, s'.ready q → s.ready q) :
    ¬ s'.Contender wakes p ∧ ∀ q, s'.Contender wakes q → s.Contender wakes q := by
  have out : ¬ s'.Contender wakes p := by simp [Contender, role]
  refine ⟨out, fun q contends => ?_⟩
  by_cases self : q = p
  · exact absurd (self ▸ contends) out
  · have same : s'.role q = s.role q := by rw [role, Function.update_of_ne self]
    simp only [Contender, same] at contends
    exact contends.imp id (Or.imp (And.imp id (woken q)) id)

theorem calm_turn [Finite ι] (calm : ¬ s.Livelock need wakes) (ready : s.ready p)
    (turn : Turn need wakes s p s') : ¬ s'.Livelock need wakes := by
  cases turn with
  | rests pending role off woken free =>
      have contender : ∀ q, s'.Contender wakes q → s.Contender wakes q := by
        intro q contends
        simp only [Contender, role] at contends
        exact contends.imp id (Or.imp (And.imp id (woken q)) id)
      rintro ⟨⟨q, awake, moves⟩, two, short⟩
      exact calm_of_few (few_contenders calm (woken q awake) (role ▸ moves)) contender free.ge
        ⟨⟨q, awake, moves⟩, two, short⟩
  | retries waits asks =>
      have mine : s.Contender wakes p := Or.inl waits
      have few := few_contenders calm ready (by simp [waits])
      cases asks with
      | fails short role off woken free =>
          refine calm_of_few few (fun q contends => ?_) free.ge
          rcases contender_fails role woken q contends with self | before
          · exact self ▸ mine
          · exact before
      | takes enough role off woken free =>
          obtain ⟨out, contender⟩ := contender_takes role woken
          exact calm_of_fewer (by omega) contender mine out
  | stays roams =>
      have few := few_contenders calm ready (by rcases roams.goes with h | h <;> simp [h])
      exact calm_of_few few roams.contender (by rw [roams.free]; omega)
  | enters mid roams asks =>
      have few := few_contenders calm ready (by rcases roams.goes with h | h <;> simp [h])
      cases asks with
      | fails short role off woken free =>
          -- a process that has just returned its units does not find too few
          have outside : s.role p = .outside := by
            refine roams.goes.resolve_right fun done => ?_
            rw [roams.free, if_pos done] at short
            omega
          have mine : s.Contender wakes p := Or.inr (Or.inl ⟨outside, ready⟩)
          refine calm_of_few few (fun q contends => ?_) (by rw [free, roams.free]; omega)
          rcases contender_fails role woken q contends with self | before
          · exact self ▸ mine
          · exact roams.contender q before
      | takes enough role off woken free =>
          obtain ⟨out, later⟩ := contender_takes role woken
          have contender : ∀ q, s'.Contender wakes q → s.Contender wakes q :=
            fun q contends => roams.contender q (later q contends)
          rcases roams.goes with outside | done
          · exact calm_of_fewer (by omega) contender (Or.inr (Or.inl ⟨outside, ready⟩)) out
          · refine calm_of_few few contender ?_
            rw [free, roams.free, if_pos done]
            omega

end Calm

/-! ## The measure -/

/-- `q` runs outside the pool when it is dispatched. -/
def Free (s : Pool ι) (q : ι) : Prop := (s.role q = .outside ∧ s.ready q) ∨ s.role q = .done

/-- How many processes there are below `q` in the order of waking. -/
noncomputable def height (q : ι) : Nat := { x | wakes q x }.ncard

open Classical in
noncomputable def weight [Fintype ι] (s : Pool ι) : Nat :=
  ∑ q, if s.Free q then (Fintype.card ι + 1) ^ height wakes q else 0

def waiters (s : Pool ι) : Set ι := { q | s.role q = .waiting }

def awake (s : Pool ι) : Set ι := { q | s.ready q ∧ (s.role q = .waiting ∨ s.role q = .pending) }

noncomputable def measure [Fintype ι] (s : Pool ι) : Nat ×ₗ Nat ×ₗ Nat :=
  toLex (s.weight wakes, toLex (s.waiters.ncard, s.awake.ncard))

section Comings
variable {need wakes} [DecidableEq ι] {s s' : Pool ι} {p : ι}

theorem Roams.free_sub (roams : Roams need wakes s p s') :
    ¬ s'.Free p ∧ ∀ q, s'.Free q → s.Free q ∨ wakes p q := by
  refine ⟨by simp [Free, roams.role, roams.off], fun q goes => ?_⟩
  by_cases self : q = p
  · subst self
    simp [Free, roams.role, roams.off] at goes
  · have same : s'.role q = s.role q := by rw [roams.role, Function.update_of_ne self]
    simp only [Free, same] at goes
    rcases goes with ⟨outside, ready⟩ | done
    · rcases roams.woken q ready with before | inside | woken
      · exact Or.inl (Or.inl ⟨outside, before⟩)
      · exact absurd outside inside
      · exact Or.inr woken
    · exact Or.inl (Or.inr done)

theorem Asks.free_sub (asks : Asks need s p s') :
    ¬ s'.Free p ∧ ∀ q, s'.Free q → s.Free q := by
  have outer : ∀ role, role ≠ .done → role ≠ .outside → s'.role = Function.update s.role p role →
      (∀ q, s'.ready q → s.ready q ∨ s.role q = .waiting) →
      ¬ s'.Free p ∧ ∀ q, s'.Free q → s.Free q := by
    intro role notDone notOutside moved woken
    refine ⟨by simp [Free, moved, notDone, notOutside], fun q goes => ?_⟩
    by_cases self : q = p
    · subst self
      simp [Free, moved, notDone, notOutside] at goes
    · have same : s'.role q = s.role q := by rw [moved, Function.update_of_ne self]
      simp only [Free, same] at goes
      rcases goes with ⟨outside, ready⟩ | done
      · refine Or.inl ⟨outside, (woken q ready).resolve_right ?_⟩
        simp [outside]
      · exact Or.inr done
  cases asks with
  | fails short role off woken free => exact outer _ (by simp) (by simp) role woken
  | takes enough role off woken free =>
      exact outer _ (by simp) (by simp) role fun q ready => Or.inl (woken q ready)

end Comings

section Measure
variable {need wakes} [Fintype ι] {s s' : Pool ι} {p : ι}

theorem height_lt [IsStrictOrder ι wakes] {q : ι} (woken : wakes p q) :
    height wakes q < height wakes p :=
  Set.ncard_lt_ncard ⟨fun _ below => trans_of wakes woken below,
    fun back => irrefl_of wakes q (back woken)⟩ (Set.toFinite _)

open Classical in
theorem sum_below [IsStrictOrder ι wakes] :
    (∑ q, if wakes p q then (Fintype.card ι + 1) ^ height wakes q else 0) <
      (Fintype.card ι + 1) ^ height wakes p := by
  have each : ∀ q ∈ Finset.univ, (Fintype.card ι + 1) *
      (if wakes p q then (Fintype.card ι + 1) ^ height wakes q else 0) ≤
        (Fintype.card ι + 1) ^ height wakes p := by
    intro q _
    by_cases woken : wakes p q
    · rw [if_pos woken, ← pow_succ']
      exact Nat.pow_le_pow_right (by omega) (height_lt woken)
    · rw [if_neg woken, Nat.mul_zero]
      exact Nat.zero_le _
  have total := Finset.sum_le_card_nsmul Finset.univ _ _ each
  rw [← Finset.mul_sum, Finset.card_univ, nsmul_eq_mul, Nat.cast_id] at total
  have positive : 0 < (Fintype.card ι + 1) ^ height wakes p := Nat.pow_pos (by omega)
  have more : Fintype.card ι * (Fintype.card ι + 1) ^ height wakes p <
      (Fintype.card ι + 1) * (Fintype.card ι + 1) ^ height wakes p :=
    Nat.mul_lt_mul_of_pos_right (by omega) positive
  exact Nat.lt_of_mul_lt_mul_left (Nat.lt_of_le_of_lt total more)

theorem weight_le (sub : ∀ q, s'.Free q → s.Free q) : s'.weight wakes ≤ s.weight wakes := by
  classical
  refine Finset.sum_le_sum fun q _ => ?_
  by_cases after : s'.Free q
  · rw [if_pos after, if_pos (sub q after)]
  · rw [if_neg after]
    exact Nat.zero_le _

theorem weight_lt [IsStrictOrder ι wakes] (mine : s.Free p) (out : ¬ s'.Free p)
    (sub : ∀ q, s'.Free q → s.Free q ∨ wakes p q) : s'.weight wakes < s.weight wakes := by
  classical
  have each : ∀ q ∈ Finset.univ,
      (if s'.Free q then (Fintype.card ι + 1) ^ height wakes q else 0) +
        (if q = p then (Fintype.card ι + 1) ^ height wakes p else 0) ≤
      (if s.Free q then (Fintype.card ι + 1) ^ height wakes q else 0) +
        if wakes p q then (Fintype.card ι + 1) ^ height wakes q else 0 := by
    intro q _
    by_cases self : q = p
    · subst self
      simp [mine, out]
    · by_cases after : s'.Free q
      · rcases sub q after with before | woken
        · simp [self, after, before]
        · simp [self, after, woken]
      · simp [self, after]
  have total := Finset.sum_le_sum each
  rw [Finset.sum_add_distrib, Finset.sum_add_distrib, Finset.sum_ite_eq', if_pos (Finset.mem_univ p)]
    at total
  have below : _ < (Fintype.card ι + 1) ^ height wakes p := sum_below
  simp only [weight]
  omega

theorem measure_lt (weight : s'.weight wakes ≤ s.weight wakes)
    (rest : s'.waiters.ncard < s.waiters.ncard ∨
      (s'.waiters.ncard ≤ s.waiters.ncard ∧ s'.awake.ncard < s.awake.ncard)) :
    s'.measure wakes < s.measure wakes := by
  rw [measure, measure, Prod.Lex.toLex_lt_toLex]
  rcases Nat.lt_or_ge (s'.weight wakes) (s.weight wakes) with less | more
  · exact Or.inl less
  · refine Or.inr ⟨Nat.le_antisymm weight more, ?_⟩
    rw [Prod.Lex.toLex_lt_toLex]
    simp only
    omega

theorem measure_roams [IsStrictOrder ι wakes] (mine : s.Free p) (out : ¬ s'.Free p)
    (sub : ∀ q, s'.Free q → s.Free q ∨ wakes p q) : s'.measure wakes < s.measure wakes := by
  rw [measure, measure, Prod.Lex.toLex_lt_toLex]
  exact Or.inl (weight_lt mine out sub)

variable [DecidableEq ι]

theorem measure_turn [IsStrictOrder ι wakes] (calm : ¬ s.Livelock need wakes)
    (ready : s.ready p) (turn : Turn need wakes s p s') :
    s'.measure wakes < s.measure wakes := by
  cases turn with
  | rests pending role off woken free =>
      have sub : ∀ q, s'.Free q → s.Free q := by
        intro q goes
        simp only [Free, role] at goes
        exact goes.imp (And.imp id (woken q)) id
      have fewer : s'.awake.ncard < s.awake.ncard := by
        refine Set.ncard_lt_ncard ⟨fun q stays => ⟨woken q stays.1, role ▸ stays.2⟩, ?_⟩
          (Set.toFinite _)
        intro back
        exact off (back ⟨ready, Or.inr pending⟩).1
      exact measure_lt (weight_le sub) (Or.inr ⟨by simp [waiters, role], fewer⟩)
  | retries waits asks =>
      refine measure_lt (weight_le asks.free_sub.2) ?_
      cases asks with
      | fails short role off woken free =>
          have roles : s'.role = s.role := by
            rw [role]
            exact Function.update_eq_self_iff.mpr waits.symm
          -- too few units: by the condition `p` is the only contender
          have few := few_contenders calm ready (by simp [waits])
          have alone : ∀ q, s.role q = .waiting → q = p := by
            intro q waits'
            refine (Set.ncard_le_one (Set.toFinite (s.contenders wakes))).mp (by omega) q ?_ p ?_
            · exact Or.inl waits'
            · exact Or.inl waits
          refine Or.inr ⟨by simp [waiters, roles], ?_⟩
          refine Set.ncard_lt_ncard ⟨?_, fun back => off (back ⟨ready, Or.inl waits⟩).1⟩
            (Set.toFinite _)
          rintro q ⟨awake, inside⟩
          have differ : q ≠ p := fun self => off (self ▸ awake)
          rw [roles] at inside
          refine ⟨(woken q awake).resolve_right fun waits' => differ (alone q waits'), inside⟩
      | takes enough role off woken free =>
          refine Or.inl (Set.ncard_lt_ncard ⟨fun q waits' => ?_, ?_⟩ (Set.toFinite _))
          · by_cases self : q = p
            · exact self ▸ waits
            · have same : s'.role q = s.role q := by rw [role, Function.update_of_ne self]
              exact same.symm.trans waits'
          · intro back
            have after : s'.role p = .waiting := back waits
            simp [role] at after
  | stays roams =>
      have mine : s.Free p := roams.goes.imp (fun outside => ⟨outside, ready⟩) id
      exact measure_roams mine roams.free_sub.1 roams.free_sub.2
  | enters mid roams asks =>
      have mine : s.Free p := roams.goes.imp (fun outside => ⟨outside, ready⟩) id
      exact measure_roams mine asks.free_sub.1
        fun q goes => roams.free_sub.2 q (asks.free_sub.2 q goes)

end Measure

end Pool

end Xv6Fcfs.Lib
