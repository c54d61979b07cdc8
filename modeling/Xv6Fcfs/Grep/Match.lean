import Mathlib.Computability.Language
import Mathlib.Tactic.Common

/-!
# The matcher of `grep` (`user/grep.c`)

A `char *` is the list of the bytes from it up to the NUL; reading the NUL is reaching the end
of the list.  A pattern is read once, from left to right, into a sequence of items, each of
which stands for a set of strings; `match` finds a substring in their concatenation.
-/

set_option autoImplicit false

namespace Xv6Fcfs.Grep

open Computability

/-! ## The functions of the source -/

def caret : UInt8 := 94
def dollar : UInt8 := 36
def dot : UInt8 := 46
def asterisk : UInt8 := 42

mutual

def matchhere (re text : List UInt8) : Bool :=
  match re with
  | [] => true
  | c :: more =>
      if more.head? = some asterisk then matchstar c more.tail text
      else if c = dollar ∧ more = [] then decide (text = [])
      else
        match text with
        | [] => false
        | t :: later => if c = dot ∨ c = t then matchhere more later else false
termination_by (re.length, text.length, 0)
decreasing_by
  · refine Prod.Lex.left _ _ ?_
    simp only [List.length_tail, List.length_cons]
    omega
  · refine Prod.Lex.left _ _ ?_
    simp only [List.length_cons]
    omega

def matchstar (c : UInt8) (re text : List UInt8) : Bool :=
  if matchhere re text then true
  else
    match text with
    | [] => false
    | t :: later => if t = c ∨ c = dot then matchstar c re later else false
termination_by (re.length, text.length, 1)
decreasing_by
  · exact Prod.Lex.right _ (Prod.Lex.right _ Nat.zero_lt_one)
  · refine Prod.Lex.right _ (Prod.Lex.left _ _ ?_)
    simp only [List.length_cons]
    omega

end

/-- The loop of `match`. -/
def matchLoop (re : List UInt8) : List UInt8 → Bool
  | [] => matchhere re []
  | t :: later => if matchhere re (t :: later) then true else matchLoop re later

def match_ (re text : List UInt8) : Bool :=
  if re.head? = some caret then matchhere re.tail text else matchLoop re text

/-! ## The language of patterns -/

/-- One character of a pattern. -/
inductive Atom where
  | any
  | lit (c : UInt8)
  deriving DecidableEq, Repr

def Atom.Accepts : Atom → UInt8 → Prop
  | .any, _ => True
  | .lit c, t => t = c

inductive Item where
  | one (a : Atom)
  | many (a : Atom)
  deriving DecidableEq, Repr

structure Pattern where
  start : Bool
  items : List Item
  stop : Bool
  deriving DecidableEq, Repr

def atom (c : UInt8) : Atom := if c = dot then .any else .lit c

/-- A pattern behind its `^`: a character with a `*` behind it, a final `$`, or one character. -/
def readItems : List UInt8 → List Item × Bool
  | [] => ([], false)
  | [c] => if c = dollar then ([], true) else ([.one (atom c)], false)
  | c :: d :: re =>
      if d = asterisk then (.many (atom c) :: (readItems re).1, (readItems re).2)
      else (.one (atom c) :: (readItems (d :: re)).1, (readItems (d :: re)).2)

def readPattern (re : List UInt8) : Pattern :=
  if re.head? = some caret then ⟨true, (readItems re.tail).1, (readItems re.tail).2⟩
  else ⟨false, (readItems re).1, (readItems re).2⟩

def Atom.language (a : Atom) : Language UInt8 := { w | ∃ t, a.Accepts t ∧ w = [t] }

def Item.language : Item → Language UInt8
  | .one a => a.language
  | .many a => a.language∗

def Pattern.language (p : Pattern) : Language UInt8 := (p.items.map Item.language).prod

/-- Some substring of the text is matched, at its start or at its end if the pattern says so. -/
def Pattern.Matches (p : Pattern) (text : List UInt8) : Prop :=
  ∃ before mid after, text = before ++ mid ++ after ∧ mid ∈ p.language ∧
    (p.start → before = []) ∧ (p.stop → after = [])

/-! ## A pattern at the beginning of a text -/

def Here (items : List Item) (stop : Bool) (text : List UInt8) : Prop :=
  ∃ mid after, text = mid ++ after ∧ mid ∈ (items.map Item.language).prod ∧ (stop → after = [])

theorem mem_language_star {a : Atom} {w : List UInt8} :
    w ∈ a.language∗ ↔ ∀ t ∈ w, a.Accepts t := by
  rw [Language.mem_kstar]
  constructor
  · rintro ⟨parts, rfl, all⟩ t inside
    obtain ⟨part, mem, here⟩ := List.mem_flatten.mp inside
    obtain ⟨u, accepts, rfl⟩ := all part mem
    cases List.mem_singleton.mp here
    exact accepts
  · intro all
    refine ⟨w.map fun t => [t], ?_, ?_⟩
    · induction w with
      | nil => rfl
      | cons t w ih =>
          have rest : ∀ u ∈ w, a.Accepts u := fun u inside => all u (List.mem_cons_of_mem _ inside)
          simpa using ih rest
    · intro part mem
      obtain ⟨t, inside, rfl⟩ := List.mem_map.mp mem
      exact ⟨t, all t inside, rfl⟩

theorem here_nil (stop : Bool) (text : List UInt8) :
    Here [] stop text ↔ (stop → text = []) := by
  constructor
  · rintro ⟨mid, after, rfl, mem, ends⟩ stops
    cases mem
    rw [ends stops]
    rfl
  · intro ends
    exact ⟨[], text, rfl, rfl, ends⟩

theorem here_cons (item : Item) (items : List Item) (stop : Bool) (text : List UInt8) :
    Here (item :: items) stop text ↔
      ∃ front rest, text = front ++ rest ∧ front ∈ item.language ∧ Here items stop rest := by
  unfold Here
  rw [List.map_cons, List.prod_cons]
  constructor
  · rintro ⟨mid, after, rfl, mem, ends⟩
    obtain ⟨front, first, back, others, rfl⟩ := Language.mem_mul.mp mem
    exact ⟨front, back ++ after, List.append_assoc .., first, back, after, rfl, others, ends⟩
  · rintro ⟨front, rest, rfl, first, back, after, rfl, others, ends⟩
    exact ⟨front ++ back, after, (List.append_assoc ..).symm,
      Language.mem_mul.mpr ⟨front, first, back, others, rfl⟩, ends⟩

theorem here_one (a : Atom) (items : List Item) (stop : Bool) (text : List UInt8) :
    Here (.one a :: items) stop text ↔
      ∃ t later, text = t :: later ∧ a.Accepts t ∧ Here items stop later := by
  rw [here_cons]
  constructor
  · rintro ⟨front, rest, rfl, ⟨t, accepts, rfl⟩, here⟩
    exact ⟨t, rest, rfl, accepts, here⟩
  · rintro ⟨t, later, rfl, accepts, here⟩
    exact ⟨[t], later, rfl, ⟨t, accepts, rfl⟩, here⟩

theorem here_many (a : Atom) (items : List Item) (stop : Bool) (text : List UInt8) :
    Here (.many a :: items) stop text ↔ Here items stop text ∨
      ∃ t later, text = t :: later ∧ a.Accepts t ∧ Here (.many a :: items) stop later := by
  simp only [here_cons, Item.language, mem_language_star]
  constructor
  · rintro ⟨front, rest, rfl, all, here⟩
    cases front with
    | nil => exact Or.inl here
    | cons t front =>
        refine Or.inr ⟨t, front ++ rest, rfl, all t List.mem_cons_self, front, rest, rfl, ?_, here⟩
        intro u inside
        exact all u (List.mem_cons_of_mem _ inside)
  · rintro (here | ⟨t, later, rfl, accepts, front, rest, rfl, all, here⟩)
    · exact ⟨[], text, rfl, by simp, here⟩
    · exact ⟨t :: front, rest, rfl, List.forall_mem_cons.mpr ⟨accepts, all⟩, here⟩

theorem atom_accepts (c t : UInt8) : (atom c).Accepts t ↔ c = dot ∨ c = t := by
  unfold atom
  by_cases any : c = dot
  · simp [any, Atom.Accepts]
  · simp [any, Atom.Accepts, eq_comm]

/-! ## The matcher finds what the pattern means -/

theorem matchstar_iff {re : List UInt8} {items : List Item} {stop : Bool}
    (here : ∀ text, matchhere re text = true ↔ Here items stop text) (c : UInt8)
    (text : List UInt8) :
    matchstar c re text = true ↔ Here (.many (atom c) :: items) stop text := by
  induction text with
  | nil =>
      rw [matchstar, here_many, ← here]
      by_cases now : matchhere re [] = true
      · simp [now]
      · simp [now]
  | cons t later ih =>
      rw [matchstar, here_many, ← here]
      by_cases now : matchhere re (t :: later) = true
      · simp [now]
      · by_cases next : t = c ∨ c = dot
        · have accepts : (atom c).Accepts t := (atom_accepts c t).mpr (next.symm.imp_right Eq.symm)
          simp [now, next, ih, accepts]
        · have refuses : ¬ (atom c).Accepts t := fun accepts =>
            next (((atom_accepts c t).mp accepts).symm.imp_left Eq.symm)
          simp [now, next, refuses]

theorem matchhere_iff (re : List UInt8) :
    ∀ text, matchhere re text = true ↔ Here (readItems re).1 (readItems re).2 text := by
  fun_induction readItems re with
  | case1 =>
      intro text
      simp [matchhere, here_nil]
  | case2 =>
      intro text
      rw [matchhere.eq_def]
      simp [here_nil]
  | case3 c other =>
      intro text
      rw [here_one]
      cases text with
      | nil =>
          rw [matchhere.eq_def]
          simp [other]
      | cons t later =>
          rw [matchhere.eq_def]
          simp [other, matchhere, atom_accepts, here_nil]
  | case4 c re ih =>
      intro text
      rw [matchhere.eq_def]
      simpa using matchstar_iff ih c text
  | case5 c d re other ih =>
      intro text
      rw [here_one]
      cases text with
      | nil =>
          rw [matchhere.eq_def]
          simp [other]
      | cons t later =>
          rw [matchhere.eq_def]
          simp [other, atom_accepts, ih]

theorem matchLoop_iff {re : List UInt8} {items : List Item} {stop : Bool}
    (here : ∀ text, matchhere re text = true ↔ Here items stop text) (text : List UInt8) :
    matchLoop re text = true ↔ ∃ before rest, text = before ++ rest ∧ Here items stop rest := by
  induction text with
  | nil =>
      rw [matchLoop, here]
      constructor
      · intro found
        exact ⟨[], [], rfl, found⟩
      · rintro ⟨before, rest, split, found⟩
        obtain ⟨-, rfl⟩ := List.append_eq_nil_iff.mp split.symm
        exact found
  | cons t later ih =>
      rw [matchLoop]
      constructor
      · intro found
        by_cases now : matchhere re (t :: later) = true
        · exact ⟨[], t :: later, rfl, (here _).mp now⟩
        · rw [if_neg now] at found
          obtain ⟨before, rest, rfl, later⟩ := ih.mp found
          exact ⟨t :: before, rest, rfl, later⟩
      · rintro ⟨before, rest, split, found⟩
        cases before with
        | nil =>
            cases split
            rw [if_pos ((here _).mpr found)]
        | cons u before =>
            cases split
            have deeper := ih.mpr ⟨before, rest, rfl, found⟩
            rw [deeper, ite_self]

/-- `match` returns 1 exactly when some substring is in the language of the pattern, with its
anchors. -/
theorem match_exact (re text : List UInt8) :
    match_ re text = true ↔ (readPattern re).Matches text := by
  unfold match_ readPattern Pattern.Matches Pattern.language
  by_cases anchored : re.head? = some caret
  · rw [if_pos anchored, if_pos anchored, matchhere_iff]
    constructor
    · rintro ⟨mid, after, split, mem, ends⟩
      exact ⟨[], mid, after, split, mem, fun _ => rfl, ends⟩
    · rintro ⟨before, mid, after, split, mem, starts, ends⟩
      cases starts rfl
      exact ⟨mid, after, split, mem, ends⟩
  · rw [if_neg anchored, if_neg anchored, matchLoop_iff (matchhere_iff re)]
    constructor
    · rintro ⟨before, rest, rfl, mid, after, rfl, mem, ends⟩
      exact ⟨before, mid, after, (List.append_assoc ..).symm, mem, nofun, ends⟩
    · rintro ⟨before, mid, after, rfl, mem, -, ends⟩
      exact ⟨before, mid ++ after, List.append_assoc .., mid, after, rfl, mem, ends⟩

end Xv6Fcfs.Grep
