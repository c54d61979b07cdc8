import Xv6Fcfs.Shell.Model
import Mathlib.Data.List.Basic
import Mathlib.Tactic.Common

/-!
# The language of the shell

What the parser is to accept: a string is cut into tokens, and the tokens derive a command.
The parser walks along the string by positions; `At` relates a position to the tokens that are
left, and `gettoken` and `peek` are specified by it.
-/

set_option autoImplicit false

namespace Xv6Fcfs.Shell

open Xv6Fcfs.Lib

/-! ## Tokens -/

inductive Tok where
  | word (w : Word)
  | less
  | greater
  | append
  | bar
  | amp
  | semi
  | lpar
  | rpar
deriving DecidableEq

def isSpace (b : UInt8) : Bool := b ∈ whitespace

def isWord (b : UInt8) : Bool := b ∉ whitespace ∧ b ∉ symbols

def symbol (b : UInt8) : Option Tok :=
  if b = code '<' then some .less
  else if b = code '|' then some .bar
  else if b = code '&' then some .amp
  else if b = code ';' then some .semi
  else if b = code '(' then some .lpar
  else if b = code ')' then some .rpar
  else none

/-- The tokens of a string that begins at position `pos`; a word is as long as it can be. -/
def lex (pos : Nat) (l : List UInt8) : List Tok :=
  match l with
  | [] => []
  | b :: l =>
      if isSpace b then lex (pos + 1) l
      else if b = code '>' then
        if l.head? = some (code '>') then .append :: lex (pos + 2) l.tail
        else .greater :: lex (pos + 1) l
      else
        match symbol b with
        | some tok => tok :: lex (pos + 1) l
        | none =>
            let n := (l.takeWhile isWord).length
            .word ⟨pos, pos + 1 + n⟩ :: lex (pos + 1 + n) (l.drop n)
termination_by l.length
decreasing_by all_goals simp; try omega

/-! ## Derivations -/

inductive Op where
  | less
  | greater
  | append
deriving DecidableEq

def Op.tok : Op → Tok
  | .less => .less
  | .greater => .greater
  | .append => .append

/-- `redir ::= ('<' | '>' | '>>') word` -/
structure Redir where
  op : Op
  file : Word

def Redir.toks (r : Redir) : List Tok := [r.op.tok, .word r.file]

def Redir.of (cmd : Cmd) (r : Redir) : Cmd :=
  match r.op with
  | .less => .redir cmd r.file O_RDONLY 0
  | .greater => .redir cmd r.file (O_WRONLY ||| O_CREATE ||| O_TRUNC) 1
  | .append => .redir cmd r.file (O_WRONLY ||| O_CREATE) 1

def wrap (cmd : Cmd) (rs : List Redir) : Cmd := rs.foldl Redir.of cmd

def redirToks (rs : List Redir) : List Tok := rs.flatMap Redir.toks

/-- A word of a command with the redirections behind it. -/
structure Arg where
  word : Word
  redirs : List Redir

def Arg.toks (a : Arg) : List Tok := .word a.word :: redirToks a.redirs

def argToks (args : List Arg) : List Tok := args.flatMap Arg.toks

def backs (n : Nat) (cmd : Cmd) : Cmd := Cmd.back^[n] cmd

inductive Part where
  | line
  | pipe
  | exec

/-- The tokens derive the command. -/
inductive Derives : Part → List Tok → Cmd → Prop
  | line {ts : List Tok} {c : Cmd} (n : Nat) (first : Derives .pipe ts c) :
      Derives .line (ts ++ List.replicate n .amp) (backs n c)
  | lines {ts us : List Tok} {c d : Cmd} (n : Nat) (first : Derives .pipe ts c)
      (rest : Derives .line us d) :
      Derives .line (ts ++ (List.replicate n .amp ++ .semi :: us)) (.list (backs n c) d)
  | pipe {ts : List Tok} {c : Cmd} (first : Derives .exec ts c) : Derives .pipe ts c
  | pipes {ts us : List Tok} {c d : Cmd} (first : Derives .exec ts c) (rest : Derives .pipe us d) :
      Derives .pipe (ts ++ .bar :: us) (.pipe c d)
  | block {ts : List Tok} {c : Cmd} (inner : Derives .line ts c) (rs : List Redir) :
      Derives .exec (.lpar :: (ts ++ .rpar :: redirToks rs)) (wrap c rs)
  | exec (rs : List Redir) (args : List Arg) (few : args.length ≤ MAXARGS - 1) :
      Derives .exec (redirToks rs ++ argToks args)
        (wrap (.exec (args.map Arg.word)) (rs ++ args.flatMap Arg.redirs))

/-! ## Positions -/

/-- From position `p` on, the string has the tokens `ts`. -/
structure At (t : Text) (p : Nat) (ts : List Tok) : Prop where
  within : p ≤ t.len
  toks : lex p (t.str.drop p) = ts

section Positions
variable {t : Text} {p : Nat} {ts : List Tok}

theorem byte_of_drop {b : UInt8} {l : List UInt8} (rest : t.str.drop p = b :: l) :
    t.byte p = b ∧ p < t.len ∧ b ≠ 0 ∧ t.str.drop (p + 1) = l := by
  have found : t.str[p]? = some b := by
    have first := congrArg List.head? rest
    rwa [List.head?_drop] at first
  have inside : p < t.len := by
    have some := List.getElem?_eq_some_iff.mp found
    exact some.1
  refine ⟨by rw [Text.byte, found], inside, t.nonzero b (List.mem_of_getElem? found), ?_⟩
  have tail := congrArg List.tail rest
  rwa [List.tail_drop] at tail

theorem byte_at_end (rest : t.str.drop p = []) (within : p ≤ t.len) : p = t.len ∧ t.byte p = 0 := by
  have long : t.len ≤ p := List.drop_eq_nil_iff.mp rest
  have same : p = t.len := Nat.le_antisymm within long
  refine ⟨same, ?_⟩
  have none : t.str[p]? = none := List.getElem?_eq_none long
  rw [Text.byte, none]
  simp only [if_pos same]

theorem advance_eq (f : UInt8 → Bool) : ∀ (k p : Nat), p ≤ t.len → t.len ≤ p + k →
    advance t f k p = p + ((t.str.drop p).takeWhile f).length := by
  intro k
  induction k with
  | zero =>
      intro p within long
      have nothing : t.str.drop p = [] := List.drop_eq_nil_iff.mpr long
      rw [advance, nothing]
      rfl
  | succ k ih =>
      intro p within long
      rw [advance]
      cases rest : t.str.drop p with
      | nil =>
          have stop := byte_at_end rest within
          rw [if_neg (fun both => by omega)]
          rfl
      | cons b l =>
          obtain ⟨byte, inside, -, next⟩ := byte_of_drop rest
          rw [byte]
          cases good : f b with
          | false => simp [good]
          | true =>
              rw [if_pos ⟨inside, rfl⟩, ih (p + 1) (by omega) (by omega), next]
              simp only [List.takeWhile_cons, good, if_true, List.length_cons]
              omega

theorem drop_takeWhile (f : UInt8 → Bool) (l : List UInt8) :
    l.drop (l.takeWhile f).length = l.dropWhile f := by
  induction l with
  | nil => rfl
  | cons b l ih =>
      cases good : f b with
      | false => simp [good]
      | true => simp [good, ih]

theorem drop_advance (f : UInt8 → Bool) (within : p ≤ t.len) :
    t.str.drop (advance t f t.len p) = (t.str.drop p).dropWhile f ∧ advance t f t.len p ≤ t.len := by
  have parts := congrArg List.length (List.takeWhile_append_dropWhile (p := f) (l := t.str.drop p))
  have len : t.len = t.str.length := rfl
  rw [List.length_append, List.length_drop] at parts
  rw [advance_eq f t.len p within (by omega)]
  refine ⟨?_, by omega⟩
  rw [← List.drop_drop, drop_takeWhile]

theorem lex_skip (l : List UInt8) (pos : Nat) :
    lex (pos + (l.takeWhile isSpace).length) (l.dropWhile isSpace) = lex pos l := by
  induction l generalizing pos with
  | nil => rfl
  | cons b l ih =>
      cases blank : isSpace b with
      | false => simp [blank]
      | true =>
          rw [List.takeWhile_cons_of_pos blank, List.dropWhile_cons_of_pos blank, List.length_cons]
          conv_rhs => rw [lex, if_pos blank]
          rw [← ih (pos + 1)]
          congr 1
          omega

theorem At.skip (at' : At t p ts) : At t (skip t p) ts ∧
    ∀ b l, t.str.drop (Shell.skip t p) = b :: l → isSpace b = false := by
  have moved := advance_eq isSpace t.len p at'.within (by omega)
  obtain ⟨rest, within⟩ := drop_advance isSpace at'.within
  have same : Shell.skip t p = advance t isSpace t.len p := rfl
  refine ⟨⟨by rw [same]; exact within, ?_⟩, ?_⟩
  · rw [same, rest, moved, lex_skip]
    exact at'.toks
  · intro b l first
    rw [same, rest] at first
    have head := List.head?_dropWhile_not isSpace (t.str.drop p)
    rw [first] at head
    simpa using head

/-! ## `peek` and `gettoken` -/

def Tok.byte : Tok → UInt8
  | .word _ => code 'a'
  | .less => code '<'
  | .greater => code '>'
  | .append => code '>'
  | .bar => code '|'
  | .amp => code '&'
  | .semi => code ';'
  | .lpar => code '('
  | .rpar => code ')'

/-- What `gettoken` returns. -/
def Tok.ret : Tok → UInt8
  | .append => code '+'
  | tok => tok.byte

def starts (set : List UInt8) : List Tok → Bool
  | [] => false
  | tok :: _ => tok.byte ∈ set

/-- The token at a byte that is no blank: its first byte, and the tokens behind it. -/
theorem lex_cases {b : UInt8} {l : List UInt8} (pos : Nat) (dark : isSpace b = false) :
    (b = code '>' ∧ l.head? = some (code '>') ∧ lex pos (b :: l) = .append :: lex (pos + 2) l.tail) ∨
    (b = code '>' ∧ l.head? ≠ some (code '>') ∧ lex pos (b :: l) = .greater :: lex (pos + 1) l) ∨
    (∃ tok, b ≠ code '>' ∧ symbol b = some tok ∧ lex pos (b :: l) = tok :: lex (pos + 1) l) ∨
    (b ≠ code '>' ∧ symbol b = none ∧
      lex pos (b :: l) = .word ⟨pos, pos + 1 + (l.takeWhile isWord).length⟩ ::
        lex (pos + 1 + (l.takeWhile isWord).length) (l.drop (l.takeWhile isWord).length)) := by
  rw [lex, if_neg (by simp [dark])]
  by_cases greater : b = code '>'
  · rw [if_pos greater]
    by_cases double : l.head? = some (code '>')
    · rw [if_pos double]
      exact Or.inl ⟨greater, double, rfl⟩
    · rw [if_neg double]
      exact Or.inr (Or.inl ⟨greater, double, rfl⟩)
  · rw [if_neg greater]
    cases found : symbol b with
    | some tok => exact Or.inr (Or.inr (Or.inl ⟨tok, greater, rfl, rfl⟩))
    | none => exact Or.inr (Or.inr (Or.inr ⟨greater, rfl, rfl⟩))

theorem symbol_byte {b : UInt8} {tok : Tok} (found : symbol b = some tok) :
    tok.byte = b ∧ tok.ret = b ∧ (∀ w, tok ≠ .word w) ∧
      (b = code '|' ∨ b = code '(' ∨ b = code ')' ∨ b = code ';' ∨ b = code '&' ∨ b = code '<') := by
  unfold symbol at found
  repeat' split at found
  all_goals cases found
  all_goals
    subst_vars
    exact ⟨rfl, rfl, fun w => by simp, by decide⟩

theorem symbol_none {b : UInt8} (other : b ≠ code '>') (none : symbol b = none) :
    b ∉ symbols ∧
      ¬ (b = code '|' ∨ b = code '(' ∨ b = code ')' ∨ b = code ';' ∨ b = code '&' ∨ b = code '<') := by
  unfold symbol at none
  repeat' split at none
  all_goals cases none
  simp only [symbols, List.mem_cons, List.not_mem_nil, or_false]
  tauto

theorem starts_less {set : List UInt8} (sub : ∀ b ∈ set, b ∈ symbols) (w : Word) (ts : List Tok) :
    starts set (.word w :: ts) = false := by
  have word : code 'a' ∉ set := fun inside => absurd (sub _ inside) (by decide)
  exact decide_eq_false word

theorem At.peek (at' : At t p ts) (set : List UInt8) (sub : ∀ b ∈ set, b ∈ symbols) :
    At t (peek t p set).2 ts ∧ (peek t p set).1 = starts set ts := by
  obtain ⟨here, dark⟩ := at'.skip
  refine ⟨here, ?_⟩
  show decide (t.byte (Shell.skip t p) ≠ 0 ∧ t.byte (Shell.skip t p) ∈ set) = _
  cases rest : t.str.drop (Shell.skip t p) with
  | nil =>
      obtain ⟨-, zero⟩ := byte_at_end rest here.within
      have none := here.toks
      rw [rest, lex] at none
      rw [← none, zero]
      simp [starts]
  | cons b l =>
      obtain ⟨byte, -, nonzero, -⟩ := byte_of_drop rest
      have toks := here.toks
      rw [rest] at toks
      rw [byte, ← toks]
      have real : code '>' ≠ 0 := by decide
      rcases lex_cases (Shell.skip t p) (dark b l rest) with
        ⟨greater, -, same⟩ | ⟨greater, -, same⟩ | ⟨tok, -, found, same⟩ | ⟨other, none, same⟩
      · rw [same, greater]
        exact decide_eq_decide.mpr ⟨And.right, fun inside => ⟨real, inside⟩⟩
      · rw [same, greater]
        exact decide_eq_decide.mpr ⟨And.right, fun inside => ⟨real, inside⟩⟩
      · rw [same]
        simp [starts, (symbol_byte found).1, nonzero]
      · rw [same, starts_less sub]
        have outside : b ∉ set := fun inside => (symbol_none other none).1 (sub b inside)
        simp [outside]

theorem At.gettoken_end (at' : At t p []) : (gettoken t p).ret = 0 ∧ At t (gettoken t p).ps [] := by
  obtain ⟨here, dark⟩ := at'.skip
  have rest : t.str.drop (Shell.skip t p) = [] := by
    cases rest : t.str.drop (Shell.skip t p) with
    | nil => rfl
    | cons b l =>
        have toks := here.toks
        rw [rest] at toks
        rcases lex_cases (Shell.skip t p) (dark b l rest) with
          ⟨-, -, same⟩ | ⟨-, -, same⟩ | ⟨tok, -, -, same⟩ |
            ⟨-, -, same⟩ <;> rw [same] at toks <;> cases toks
  obtain ⟨-, zero⟩ := byte_at_end rest here.within
  have token : gettoken t p = ⟨0, Shell.skip t p, Shell.skip t p, Shell.skip t (Shell.skip t p)⟩ := by
    simp only [gettoken, zero, if_true]
  rw [token]
  exact ⟨rfl, here.skip.1⟩

theorem isWord_of {b : UInt8} (dark : isSpace b = false) (other : b ∉ symbols) : isWord b = true := by
  have blank : b ∉ whitespace := of_decide_eq_false dark
  exact decide_eq_true ⟨blank, other⟩

/-- `gettoken` returns the next token and stops in front of the one behind it. -/
theorem At.gettoken {tok : Tok} (at' : At t p (tok :: ts)) :
    (gettoken t p).ret = tok.ret ∧ At t (gettoken t p).ps ts ∧
      ∀ w, tok = .word w → (⟨(gettoken t p).q, (gettoken t p).eq⟩ : Word) = w := by
  obtain ⟨here, dark⟩ := at'.skip
  have toks := here.toks
  cases rest : t.str.drop (Shell.skip t p) with
  | nil =>
      rw [rest, lex] at toks
      cases toks
  | cons b l =>
      obtain ⟨byte, inside, nonzero, next⟩ := byte_of_drop rest
      have blank := dark b l rest
      rw [rest] at toks
      rcases lex_cases (Shell.skip t p) blank with
        ⟨rfl, double, same⟩ | ⟨rfl, single, same⟩ | ⟨found, other, symb, same⟩ | ⟨other, none, same⟩
      · -- `>>`
        obtain ⟨rfl, rfl⟩ := List.cons.inj (same.symm.trans toks)
        obtain ⟨c, l', rfl⟩ : ∃ c l', l = c :: l' := by
          cases l with
          | nil => cases double
          | cons c l' => exact ⟨c, l', rfl⟩
        obtain ⟨byte', inside', -, next'⟩ := byte_of_drop next
        have second : t.byte (Shell.skip t p + 1) = code '>' := by
          rw [byte']
          simpa using double
        have token : Shell.gettoken t p = ⟨code '+', Shell.skip t p, Shell.skip t p + 2,
            Shell.skip t (Shell.skip t p + 2)⟩ := by
          simp only [Shell.gettoken, byte, second]
          rfl
        rw [token]
        refine ⟨rfl, ?_, fun w no => by cases no⟩
        refine (At.skip ⟨by omega, ?_⟩).1
        rw [next']
        rfl
      · -- `>`
        obtain ⟨rfl, rfl⟩ := List.cons.inj (same.symm.trans toks)
        have second : t.byte (Shell.skip t p + 1) ≠ code '>' := by
          intro same'
          cases l with
          | nil =>
              have zero := (byte_at_end next (by omega)).2
              rw [same'] at zero
              exact absurd zero (by decide)
          | cons c l' =>
              refine single ?_
              rw [List.head?_cons, ← (byte_of_drop next).1, same']
        have token : Shell.gettoken t p = ⟨code '>', Shell.skip t p, Shell.skip t p + 1,
            Shell.skip t (Shell.skip t p + 1)⟩ := by
          simp only [Shell.gettoken, byte, if_neg second]
          rfl
        rw [token]
        refine ⟨rfl, ?_, fun w no => by cases no⟩
        refine (At.skip ⟨by omega, ?_⟩).1
        rw [next]
      · obtain ⟨rfl, rfl⟩ := List.cons.inj (same.symm.trans toks)
        obtain ⟨-, ret, word, one⟩ := symbol_byte symb
        have token : Shell.gettoken t p = ⟨b, Shell.skip t p, Shell.skip t p + 1,
            Shell.skip t (Shell.skip t p + 1)⟩ := by
          simp only [Shell.gettoken, byte, if_neg nonzero, if_pos one]
        rw [token, ret]
        refine ⟨rfl, ?_, fun w no => absurd no (word w)⟩
        refine (At.skip ⟨by omega, ?_⟩).1
        rw [next]
      · -- a word
        obtain ⟨rfl, rfl⟩ := List.cons.inj (same.symm.trans toks)
        obtain ⟨outside, one⟩ := symbol_none other none
        have word := isWord_of blank outside
        have stop : wordEnd t (Shell.skip t p) = Shell.skip t p + 1 + (l.takeWhile isWord).length := by
          show advance t isWord t.len (Shell.skip t p) = _
          rw [advance_eq isWord t.len _ here.within (by omega), rest, List.takeWhile_cons_of_pos word,
            List.length_cons]
          omega
        have token : Shell.gettoken t p = ⟨code 'a', Shell.skip t p, wordEnd t (Shell.skip t p),
            Shell.skip t (wordEnd t (Shell.skip t p))⟩ := by
          simp only [Shell.gettoken, byte, if_neg nonzero, if_neg one, if_neg other]
        have within : wordEnd t (Shell.skip t p) ≤ t.len := (drop_advance isWord here.within).2
        rw [token]
        refine ⟨rfl, ?_, ?_⟩
        · refine (At.skip ⟨within, ?_⟩).1
          rw [stop, ← next, List.drop_drop]
        · intro w same'
          cases same'
          rw [stop]

theorem At.ends (at' : At t p ts) : Shell.skip t p = t.len ↔ ts = [] := by
  obtain ⟨here, dark⟩ := at'.skip
  have toks := here.toks
  constructor
  · intro last
    have rest : t.str.drop (Shell.skip t p) = [] := List.drop_eq_nil_iff.mpr (Nat.le_of_eq last.symm)
    rw [rest, lex] at toks
    exact toks.symm
  · rintro rfl
    cases rest : t.str.drop (Shell.skip t p) with
    | nil => exact (byte_at_end rest here.within).1
    | cons b l =>
        rw [rest] at toks
        rcases lex_cases (Shell.skip t p) (dark b l rest) with
          ⟨-, -, same⟩ | ⟨-, -, same⟩ | ⟨tok, -, -, same⟩ |
            ⟨-, -, same⟩ <;> rw [same] at toks <;> cases toks

end Positions

end Xv6Fcfs.Shell
