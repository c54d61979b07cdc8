import Mathlib.Logic.Function.Iterate
import Mathlib.Data.Nat.Find
import Mathlib.Tactic.Common

/-!
# Finite runs of an event-driven machine

A machine is a partial function `step : S → E → Option S`: `none` means that the
event cannot happen in that state, either because it is not enabled or because
the machine has stopped.  A `Run` keeps every intermediate state, so that
statements about the order of events can quantify over positions.
-/

set_option autoImplicit false

namespace Xv6Fcfs.Lib

variable {S E : Type}

/-- `len` events, with the state before event `i` at position `i`. -/
structure Run (step : S → E → Option S) where
  len : Nat
  state : Nat → S
  event : Nat → E
  next : ∀ i, i < len → step (state i) (event i) = some (state (i + 1))

namespace Run

variable {step : S → E → Option S}

/-- An invariant that each step keeps under a side condition holds along every
run whose steps meet the condition. -/
theorem invariant_of (r : Run step) (Good : S → E → Prop) (Inv : S → Prop)
    (start : Inv (r.state 0))
    (kept : ∀ s e s', step s e = some s' → Good s e → Inv s → Inv s')
    (good : ∀ i, i < r.len → Good (r.state i) (r.event i)) :
    ∀ i, i ≤ r.len → Inv (r.state i) := by
  intro i
  induction i with
  | zero => intro _; exact start
  | succ i ih =>
      intro within
      have inside : i < r.len := by omega
      exact kept _ _ _ (r.next i inside) (good i inside) (ih (by omega))

theorem invariant (r : Run step) (Inv : S → Prop) (start : Inv (r.state 0))
    (kept : ∀ s e s', step s e = some s' → Inv s → Inv s') :
    ∀ i, i ≤ r.len → Inv (r.state i) :=
  r.invariant_of (fun _ _ => True) Inv start (fun s e s' run _ inv => kept s e s' run inv)
    (fun _ _ => trivial)

/-- A fact about the states of a run that holds at `a` and survives each step of
`[a, b)` holds on all of `[a, b]`. -/
theorem between (r : Run step) (Fact : Nat → Prop) (a b : Nat) (bound : b ≤ r.len)
    (start : Fact a)
    (kept : ∀ i, a ≤ i → i < b → step (r.state i) (r.event i) = some (r.state (i + 1)) →
      Fact i → Fact (i + 1)) :
    ∀ i, a ≤ i → i ≤ b → Fact i := by
  intro i
  induction i with
  | zero =>
      intro low _
      have : a = 0 := by omega
      exact this ▸ start
  | succ i ih =>
      intro low high
      rcases Nat.lt_or_ge i a with below | above
      · have : a = i + 1 := by omega
        exact this ▸ start
      · exact kept i above (by omega) (r.next i (by omega)) (ih above (by omega))

theorem exists_next (r : Run step) {e : E} {next : S}
    (run : step (r.state r.len) e = some next) :
    ∃ longer : Run step, longer.len = r.len + 1 ∧ longer.state 0 = r.state 0 ∧
      longer.state r.len = r.state r.len ∧ longer.event r.len = e ∧
      longer.state (r.len + 1) = next := by
  refine ⟨{
    len := r.len + 1
    state := fun i => if i ≤ r.len then r.state i else next
    event := fun i => if i < r.len then r.event i else e
    next := ?_ }, rfl, by simp, by simp, by simp,
    if_neg (Nat.not_succ_le_self r.len)⟩
  intro i bound
  by_cases inside : i < r.len
  · simpa [inside, Nat.le_of_lt inside, Nat.succ_le_of_lt inside] using r.next i inside
  · have last : i = r.len := by omega
    subst last
    simpa [Nat.not_succ_le_self] using run

end Run

/-! ## Executing a list of events -/

/-- The state a list of events leads to, if all of them can happen. -/
def exec (step : S → E → Option S) : S → List E → Option S
  | s, [] => some s
  | s, e :: rest =>
      match step s e with
      | none => none
      | some next => exec step next rest

def passed (step : S → E → Option S) : S → List E → List S
  | s, [] => [s]
  | s, e :: rest =>
      match step s e with
      | none => [s]
      | some next => s :: passed step next rest

section Concrete
variable (step : S → E → Option S)

theorem passed_head (s : S) (es : List E) : (passed step s es)[0]? = some s := by
  cases es with
  | nil => rfl
  | cons e rest =>
      simp only [passed]
      cases step s e <;> rfl

theorem passed_next (s : S) (es : List E) (runs : (exec step s es).isSome) (d : E) :
    ∀ i, i < es.length → ∀ x, (passed step s es)[i]? = some x →
      ∃ y, step x (es.getD i d) = some y ∧ (passed step s es)[i + 1]? = some y := by
  induction es generalizing s with
  | nil => intro i bound; simp at bound
  | cons e rest ih =>
      intro i bound x found
      cases hit : step s e with
      | none => simp [exec, hit] at runs
      | some next =>
          simp only [exec, hit] at runs
          simp only [passed, hit] at found ⊢
          cases i with
          | zero =>
              simp only [List.getElem?_cons_zero, Option.some.injEq] at found
              subst x
              refine ⟨next, by simpa using hit, ?_⟩
              simpa using passed_head step next rest
          | succ i =>
              have inner : i < rest.length := by simpa using bound
              simp only [List.getElem?_cons_succ] at found
              obtain ⟨y, stepped, later⟩ := ih next runs i inner x found
              exact ⟨y, by simpa using stepped, by simpa using later⟩

def Run.ofEvents (s : S) (es : List E) (d : E) (runs : (exec step s es).isSome) : Run step where
  len := es.length
  state i := ((passed step s es)[i]?).getD s
  event i := es.getD i d
  next := by
    intro i bound
    have present : ∀ j, j ≤ i → ∃ x, (passed step s es)[j]? = some x := by
      intro j
      induction j with
      | zero => intro _; exact ⟨s, passed_head step s es⟩
      | succ j ih =>
          intro le
          obtain ⟨x, found⟩ := ih (by omega)
          obtain ⟨y, _, later⟩ := passed_next step s es runs d j (by omega) x found
          exact ⟨y, later⟩
    obtain ⟨x, found⟩ := present i (Nat.le_refl i)
    obtain ⟨y, stepped, later⟩ := passed_next step s es runs d i bound x found
    simpa [found, later] using stepped

theorem Run.ofEvents_zero (s : S) (es : List E) (d : E) (runs : (exec step s es).isSome) :
    (Run.ofEvents step s es d runs).state 0 = s := by
  simp only [Run.ofEvents, passed_head, Option.getD_some]

theorem Run.ofEvents_mem (s : S) (es : List E) (d : E) (runs : (exec step s es).isSome) (i : Nat)
    (bound : i < es.length) : (Run.ofEvents step s es d runs).event i ∈ es := by
  simp only [Run.ofEvents, List.getD_eq_getElem?_getD, List.getElem?_eq_getElem bound,
    Option.getD_some]
  exact List.getElem_mem bound

theorem passed_last (s : S) (es : List E) {last : S} (runs : exec step s es = some last) :
    (passed step s es)[es.length]? = some last := by
  induction es generalizing s with
  | nil => simpa [passed, exec] using runs
  | cons e rest ih =>
      cases hit : step s e with
      | none => simp [exec, hit] at runs
      | some next =>
          simp only [exec, hit] at runs
          simpa [passed, hit] using ih next runs

/-- A list of events that can be executed gives a run that ends where the execution does. -/
theorem Run.exists_ends (s : S) (es : List E) (d : E) {last : S}
    (done : exec step s es = some last) :
    ∃ r : Run step, r.state 0 = s ∧ r.state r.len = last := by
  refine ⟨Run.ofEvents step s es d (by rw [done]; rfl), ?_, ?_⟩
  · exact Run.ofEvents_zero step s es d (by rw [done]; rfl)
  · have final := passed_last step s es done
    simp only [Run.ofEvents, final, Option.getD_some]

theorem Run.exists_of_exec (s : S) (es : List E) (d : E) (P : S → Bool)
    (ends : (exec step s es).any P = true) :
    ∃ r : Run step, r.state 0 = s ∧ P (r.state r.len) = true := by
  cases done : exec step s es with
  | none => simp [done] at ends
  | some last =>
      simp only [done, Option.any_some] at ends
      obtain ⟨r, first, final⟩ := Run.exists_ends step s es d done
      exact ⟨r, first, by rw [final]; exact ends⟩

end Concrete

end Xv6Fcfs.Lib
