import Mathlib.Tactic.Common

/-!
# Weakest preconditions of programs that may stop with an error

A program is a state transformer whose error ends it with the state lost.  `wp m E Q s`
says of the run of `m` from `s` that it ends in `Q` if it returns and that its error
satisfies `E` otherwise.  A specification is a statement `wp m E Q s` about one starting
state, so that `E` and `Q` can speak of that state.
-/

set_option autoImplicit false

namespace Xv6Fcfs.Lib

variable {σ τ ε α β : Type}

abbrev Prog (σ ε α : Type) := StateT σ (Except ε) α

def wp (m : Prog σ ε α) (E : ε → Prop) (Q : α → σ → Prop) (s : σ) : Prop :=
  match m s with
  | .ok (a, s') => Q a s'
  | .error e => E e

section Rules
variable {E F : ε → Prop} {Q P : α → σ → Prop} {R : β → σ → Prop} {s : σ}

theorem wp_ok {m : Prog σ ε α} {a : α} {s' : σ} (spec : wp m E Q s) (run : m s = .ok (a, s')) :
    Q a s' := by
  simpa only [wp, run] using spec

theorem wp_error {m : Prog σ ε α} {e : ε} (spec : wp m E Q s) (run : m s = .error e) : E e := by
  simpa only [wp, run] using spec

theorem wp_intro {m : Prog σ ε α} (returns : ∀ a s', m s = .ok (a, s') → Q a s')
    (stops : ∀ e, m s = .error e → E e) : wp m E Q s := by
  unfold wp
  split
  next a s' run => exact returns a s' run
  next e run => exact stops e run

theorem wp_mono {m : Prog σ ε α} (spec : wp m E Q s) (weaker : ∀ a s', Q a s' → P a s')
    (errors : ∀ e, E e → F e) : wp m F P s :=
  wp_intro (fun a s' run => weaker a s' (wp_ok spec run)) fun e run => errors e (wp_error spec run)

/-- The form in which a specification is used: errors stay, the postcondition is
taken apart. -/
theorem wp_post {m : Prog σ ε α} (spec : wp m E Q s) (weaker : ∀ a s', Q a s' → P a s') :
    wp m E P s :=
  wp_mono spec weaker fun _ e => e

theorem wp_and {m : Prog σ ε α} (spec : wp m E Q s) (more : wp m (fun _ => True) P s) :
    wp m E (fun a s' => Q a s' ∧ P a s') s :=
  wp_intro (fun _ _ run => ⟨wp_ok spec run, wp_ok more run⟩) fun _ run => wp_error spec run

theorem wp_total {m : Prog σ ε α} (spec : wp m (fun _ => False) Q s) :
    ∃ a s', m s = .ok (a, s') ∧ Q a s' := by
  cases run : m s with
  | error e => exact (wp_error spec run).elim
  | ok result => exact ⟨result.1, result.2, rfl, wp_ok spec run⟩

theorem ran_of_answer {m : Prog σ ε α} (P : α → σ → Bool) (answer : (match m s with
    | .ok (a, s') => P a s'
    | .error _ => false) = true) : ∃ a s', m s = .ok (a, s') ∧ P a s' = true := by
  cases run : m s with
  | error e =>
      rw [run] at answer
      cases answer
  | ok result =>
      rw [run] at answer
      exact ⟨result.1, result.2, rfl, answer⟩

@[simp] theorem wp_pure (a : α) : wp (pure a : Prog σ ε α) E Q s ↔ Q a s := Iff.rfl

@[simp] theorem wp_throw (e : ε) : wp (throw e : Prog σ ε α) E Q s ↔ E e := Iff.rfl

@[simp] theorem wp_get {Q : σ → σ → Prop} : wp (get : Prog σ ε σ) E Q s ↔ Q s s := Iff.rfl

@[simp] theorem wp_set {Q : PUnit → σ → Prop} (t : σ) :
    wp (set t : Prog σ ε PUnit) E Q s ↔ Q ⟨⟩ t := Iff.rfl

@[simp] theorem wp_modify {Q : PUnit → σ → Prop} (f : σ → σ) :
    wp (modify f : Prog σ ε PUnit) E Q s ↔ Q ⟨⟩ (f s) := Iff.rfl

@[simp] theorem wp_bind (m : Prog σ ε α) (f : α → Prog σ ε β) :
    wp (m >>= f) E R s ↔ wp m E (fun a s' => wp (f a) E R s') s := by
  simp only [wp, bind, StateT.bind, Except.bind]
  cases m s <;> rfl

theorem wp_seq {m : Prog σ ε α} {f : α → Prog σ ε β} (spec : wp m E Q s)
    (rest : ∀ a s', Q a s' → wp (f a) E R s') : wp (m >>= f) E R s :=
  (wp_bind m f).mpr (wp_post spec rest)

@[simp] theorem wp_ite (c : Prop) [Decidable c] (m m' : Prog σ ε α) :
    wp (if c then m else m') E Q s ↔ (c → wp m E Q s) ∧ (¬ c → wp m' E Q s) := by
  by_cases cond : c <;> simp [cond]

end Rules

/-! ## A part of the state -/

/-- Run a program on the part `view` of the state and put the part back. -/
def zoom (view : σ → τ) (back : τ → σ → σ) (m : Prog τ ε α) : Prog σ ε α := fun s =>
  match m (view s) with
  | .ok (a, t) => .ok (a, back t s)
  | .error e => .error e

theorem wp_zoom {E : ε → Prop} {Q : α → σ → Prop} {s : σ} (view : σ → τ) (back : τ → σ → σ)
    (m : Prog τ ε α) :
    wp (zoom view back m) E Q s ↔ wp m E (fun a t => Q a (back t s)) (view s) := by
  simp only [wp, zoom]
  cases m (view s) <;> rfl

/-- Run a program on a part of the state, its errors being errors of the whole. -/
def embed {ε' : Type} (view : σ → τ) (back : τ → σ → σ) (f : ε → ε') (m : Prog τ ε α) :
    Prog σ ε' α := fun s =>
  match m (view s) with
  | .ok (a, t) => .ok (a, back t s)
  | .error e => .error (f e)

theorem wp_embed {ε' : Type} {E : ε' → Prop} {Q : α → σ → Prop} {s : σ} (view : σ → τ)
    (back : τ → σ → σ) (f : ε → ε') (m : Prog τ ε α) :
    wp (embed view back f m) E Q s ↔ wp m (fun e => E (f e)) (fun a t => Q a (back t s)) (view s) := by
  simp only [wp, embed]
  cases m (view s) <;> rfl

/-! ## Counted loops -/

/-- `for (i = lo; i < lo + n; i++) body(i);` -/
def forFrom (body : Nat → Prog σ ε Unit) : Nat → Nat → Prog σ ε Unit
  | _, 0 => pure ()
  | lo, n + 1 => do
      body lo
      forFrom body (lo + 1) n

theorem wp_forFrom {E : ε → Prop} {m : Nat → Prog σ ε Unit} (inv : Nat → σ → Prop) :
    ∀ (n lo : Nat) (s : σ),
      (∀ i s, lo ≤ i → i < lo + n → inv i s → wp (m i) E (fun _ s' => inv (i + 1) s') s) →
      inv lo s → wp (forFrom m lo n) E (fun _ s' => inv (lo + n) s') s := by
  intro n
  induction n with
  | zero => intro lo s _ start; exact start
  | succ n ih =>
      intro lo s turn start
      apply wp_seq (turn lo s (Nat.le_refl lo) (by omega) start)
      intro _ s' next
      have rest := ih (lo + 1) s' (fun i t low high => turn i t (by omega) (by omega)) next
      apply wp_post rest
      intro _ t done
      rwa [show lo + (n + 1) = lo + 1 + n from by omega]

end Xv6Fcfs.Lib
