import Xv6Fcfs.Shell.Parse

/-!
# `parsecmd` implements its grammar

The parser ends on every string.  The NULs that `nulterminate` stores fall behind words, on
bytes that belong to no word, so that they spoil none.
-/

set_option autoImplicit false

namespace Xv6Fcfs.Shell

open Xv6Fcfs.Lib

/-! ## The parser ends -/

section Total
variable {t : Text} {k : Nat}

/-- With turns for the tokens that are left, the function does not run out of them. -/
def Finishes (t : Text) (need : Nat) (k : Nat) (parse : Nat → Except Stop (Cmd × Nat)) : Prop :=
  ∀ p ts, At t p ts → 4 * ts.length + need ≤ k → parse p ≠ .error .turns

theorem parseline_finishes (pipe : Finishes t 5 k (parsepipe t k))
    (line : Finishes t 6 k (parseline t k)) :
    Finishes t 6 (k + 1) (parseline t (k + 1)) := by
  intro p ts at' enough run
  simp only [parseline, bind, Except.bind] at run
  split at run
  next stop failed =>
    cases run
    exact pipe p ts at' (by omega) failed
  next first parsed =>
    obtain ⟨vs, us, rfl, here, -⟩ := (parse_yields t k).2.1 p ts first.1 first.2 at' parsed
    rw [List.length_append] at enough
    split at run
    next stop failed =>
      cases run
      exact backLoop_total k _ _ us here (by omega) failed
    next second looped =>
      obtain ⟨n, ws, rfl, there, -⟩ := backLoop_sound k _ second.1 _ second.2 us here looped
      obtain ⟨next, looks⟩ := there.peek [code ';'] (sub_symbols (by decide))
      rw [looks] at run
      split at run
      next found =>
        obtain ⟨xs, rfl⟩ := starts_single (by simp [Tok.Single] : Tok.semi.Single) found
        obtain ⟨-, after, -⟩ := next.gettoken
        split at run
        next stop failed =>
          cases run
          refine line _ xs after ?_ failed
          simp only [List.length_append, List.length_cons] at enough
          omega
        next => cases run
      next => cases run

theorem parsepipe_finishes (exec : Finishes t 4 k (parseexec t k))
    (pipe : Finishes t 5 k (parsepipe t k)) :
    Finishes t 5 (k + 1) (parsepipe t (k + 1)) := by
  intro p ts at' enough run
  simp only [parsepipe, bind, Except.bind] at run
  split at run
  next stop failed =>
    cases run
    exact exec p ts at' (by omega) failed
  next first parsed =>
    obtain ⟨vs, us, rfl, here, -⟩ := (parse_yields t k).2.2.2 p ts first.1 first.2 at' parsed
    obtain ⟨next, looks⟩ := here.peek [code '|'] (sub_symbols (by decide))
    rw [looks] at run
    split at run
    next found =>
      obtain ⟨xs, rfl⟩ := starts_single (by simp [Tok.Single] : Tok.bar.Single) found
      obtain ⟨-, after, -⟩ := next.gettoken
      split at run
      next stop failed =>
        cases run
        refine pipe _ xs after ?_ failed
        simp only [List.length_append, List.length_cons] at enough
        omega
      next => cases run
    next => cases run

theorem parseblock_finishes (line : Finishes t 6 k (parseline t k)) :
    Finishes t 3 (k + 1) (parseblock t (k + 1)) := by
  intro p ts at' enough run
  obtain ⟨here, looks⟩ := at'.peek [code '('] (sub_symbols (by decide))
  simp only [parseblock] at run
  rw [looks] at run
  split at run
  · cases run
  next found =>
    obtain ⟨us, rfl⟩ := starts_single (by simp [Tok.Single] : Tok.lpar.Single)
      (Bool.eq_true_of_not_eq_false found)
    obtain ⟨-, next, -⟩ := here.gettoken
    simp only [List.length_cons] at enough
    simp only [bind, Except.bind] at run
    split at run
    next stop failed =>
      cases run
      exact line _ us next (by omega) failed
    next first parsed =>
      obtain ⟨vs, ws, rfl, there, -⟩ := (parse_yields t k).1 _ us first.1 first.2 next parsed
      obtain ⟨near, closes⟩ := there.peek [code ')'] (sub_symbols (by decide))
      rw [closes] at run
      split at run
      · cases run
      next close =>
        obtain ⟨xs, rfl⟩ := starts_single (by simp [Tok.Single] : Tok.rpar.Single)
          (Bool.eq_true_of_not_eq_false close)
        obtain ⟨-, after, -⟩ := near.gettoken
        refine parseredirs_total k _ _ xs after ?_ run
        simp only [List.length_append, List.length_cons] at enough
        omega

theorem parseexec_finishes (block : Finishes t 3 k (parseblock t k)) :
    Finishes t 4 (k + 1) (parseexec t (k + 1)) := by
  intro p ts at' enough run
  obtain ⟨here, looks⟩ := at'.peek [code '('] (sub_symbols (by decide))
  simp only [parseexec] at run
  rw [looks] at run
  split at run
  · exact block _ ts here (by omega) run
  next =>
    simp only [bind, Except.bind] at run
    split at run
    next stop failed =>
      cases run
      exact parseredirs_total k _ _ ts here (by omega) failed
    next first parsed =>
      obtain ⟨rs, us, rfl, next, -, -⟩ := parseredirs_sound k _ first.1 _ first.2 ts here parsed
      refine argLoop_total k _ _ _ us next ?_ run
      rw [List.length_append] at enough
      omega

theorem parse_finishes (t : Text) : ∀ k, Finishes t 6 k (parseline t k) ∧
    Finishes t 5 k (parsepipe t k) ∧
    Finishes t 3 k (parseblock t k) ∧ Finishes t 4 k (parseexec t k) := by
  intro k
  induction k with
  | zero => exact ⟨fun _ _ _ no => by omega, fun _ _ _ no => by omega, fun _ _ _ no => by omega,
      fun _ _ _ no => by omega⟩
  | succ k ih =>
      obtain ⟨line, pipe, block, exec⟩ := ih
      exact ⟨parseline_finishes pipe line, parsepipe_finishes exec pipe, parseblock_finishes line,
        parseexec_finishes block⟩

end Total

/-! ## The words of a command -/

def Cmd.words : Cmd → List Word
  | .exec argv => argv
  | .redir cmd file _ _ => cmd.words ++ [file]
  | .pipe left right => left.words ++ right.words
  | .list left right => left.words ++ right.words
  | .back cmd => cmd.words

theorem nulterminate_eq (cmd : Cmd) (mem : Nat → UInt8) (i : Nat) :
    nulterminate cmd mem i = if ∃ w ∈ cmd.words, w.eq = i then 0 else mem i := by
  have loop : ∀ (argv : List Word) (mem : Nat → UInt8),
      argv.foldl (fun mem w => upd mem w.eq 0) mem i = if ∃ w ∈ argv, w.eq = i then 0 else mem i := by
    intro argv
    induction argv with
    | nil => intro mem; simp
    | cons a argv ih =>
        intro mem
        rw [List.foldl_cons, ih]
        rcases upd_cases mem a.eq 0 i with ⟨here, new⟩ | ⟨other, old⟩
        · rw [new]
          simp [here]
        · rw [old]
          simp [Ne.symm other]
  induction cmd generalizing mem with
  | exec argv => exact loop argv mem
  | redir cmd file mode fd ih =>
      rw [nulterminate, Cmd.words]
      rcases upd_cases (nulterminate cmd mem) file.eq 0 i with ⟨here, new⟩ | ⟨other, old⟩
      · rw [new]
        simp [here]
      · rw [old, ih]
        simp [Ne.symm other]
  | pipe left right ihl ihr =>
      rw [nulterminate, Cmd.words, ihr, ihl]
      simp only [List.mem_append, or_and_right, exists_or]
      by_cases one : ∃ w ∈ right.words, w.eq = i <;> by_cases two : ∃ w ∈ left.words, w.eq = i <;>
        simp only [one, two, if_true, if_false, or_true, or_false]
  | list left right ihl ihr =>
      rw [nulterminate, Cmd.words, ihr, ihl]
      simp only [List.mem_append, or_and_right, exists_or]
      by_cases one : ∃ w ∈ right.words, w.eq = i <;> by_cases two : ∃ w ∈ left.words, w.eq = i <;>
        simp only [one, two, if_true, if_false, or_true, or_false]
  | back cmd ih => exact ih mem

theorem words_wrap (c : Cmd) (rs : List Redir) : (wrap c rs).words = c.words ++ rs.map Redir.file := by
  induction rs generalizing c with
  | nil => exact (List.append_nil _).symm
  | cons r rs ih =>
      have one : (Redir.of c r).words = c.words ++ [r.file] := by
        cases r with
        | mk op file => cases op <;> rfl
      rw [show wrap c (r :: rs) = wrap (Redir.of c r) rs from rfl, ih, one, List.append_assoc]
      rfl

theorem words_backs (n : Nat) (c : Cmd) : (backs n c).words = c.words := by
  induction n generalizing c with
  | zero => rfl
  | succ n ih => exact ih (.back c)

theorem redirs_words {w : Word} {rs : List Redir} (inside : w ∈ rs.map Redir.file) :
    .word w ∈ redirToks rs := by
  obtain ⟨r, mem, rfl⟩ := List.mem_map.mp inside
  exact List.mem_flatMap.mpr ⟨r, mem, by simp [Redir.toks]⟩

theorem Derives.words {part : Part} {ts : List Tok} {c : Cmd} (derives : Derives part ts c) :
    ∀ w ∈ c.words, .word w ∈ ts := by
  induction derives with
  | line n first ih =>
      intro w inside
      rw [words_backs] at inside
      exact List.mem_append_left _ (ih w inside)
  | lines n first rest ih ih' =>
      intro w inside
      rw [Cmd.words, words_backs] at inside
      rcases List.mem_append.mp inside with left | right
      · exact List.mem_append_left _ (ih w left)
      · simp [ih' w right]
  | pipe first ih => exact ih
  | pipes first rest ih ih' =>
      intro w inside
      rcases List.mem_append.mp inside with left | right
      · exact List.mem_append_left _ (ih w left)
      · simp [ih' w right]
  | block inner rs ih =>
      intro w inside
      rw [words_wrap] at inside
      rcases List.mem_append.mp inside with left | right
      · simp [ih w left]
      · simp [redirs_words right]
  | exec rs args few =>
      intro w inside
      rw [words_wrap, List.map_append] at inside
      rcases List.mem_append.mp inside with left | right
      · obtain ⟨a, mem, rfl⟩ := List.mem_map.mp left
        exact List.mem_append_right _ (List.mem_flatMap.mpr ⟨a, mem, by simp [Arg.toks]⟩)
      · rcases List.mem_append.mp right with first | rest
        · exact List.mem_append_left _ (redirs_words first)
        · obtain ⟨r, mem, rfl⟩ := List.mem_map.mp rest
          obtain ⟨a, arg, there⟩ := List.mem_flatMap.mp mem
          refine List.mem_append_right _ (List.mem_flatMap.mpr ⟨a, arg, ?_⟩)
          exact List.mem_cons_of_mem _ (redirs_words (List.mem_map.mpr ⟨r, there, rfl⟩))

/-- The word is a longest run of word bytes of the string that begins at `pos`. -/
def Spans (pos : Nat) (l : List UInt8) (w : Word) : Prop :=
  ∃ front mid back, l = front ++ (mid ++ back) ∧ w.q = pos + front.length ∧ w.eq = w.q + mid.length ∧
    mid ≠ [] ∧ (∀ b ∈ mid, isWord b = true) ∧ ∀ b, back.head? = some b → isWord b = false

theorem Spans.behind {pos : Nat} (pre : List UInt8) {l : List UInt8} {w : Word}
    (spans : Spans (pos + pre.length) l w) :
    Spans pos (pre ++ l) w := by
  obtain ⟨front, mid, back, rfl, start, stop, some, word, ends⟩ := spans
  refine ⟨pre ++ front, mid, back, by rw [List.append_assoc], ?_, stop, some, word, ends⟩
  rw [start, List.length_append]
  omega

theorem lex_words (w : Word) : ∀ (n pos : Nat) (l : List UInt8), l.length ≤ n → .word w ∈ lex pos l →
    Spans pos l w := by
  intro n
  induction n with
  | zero =>
      intro pos l short inside
      obtain rfl := List.length_eq_zero_iff.mp (Nat.le_zero.mp short)
      rw [lex] at inside
      cases inside
  | succ n ih =>
      intro pos l short inside
      cases l with
      | nil =>
          rw [lex] at inside
          cases inside
      | cons b l =>
          have less : l.length ≤ n := by simpa using short
          cases blank : isSpace b with
          | true =>
              rw [lex, if_pos blank] at inside
              exact Spans.behind [b] (ih _ l less inside)
          | false =>
              rcases lex_cases pos blank with
                ⟨rfl, double, same⟩ | ⟨rfl, single, same⟩ | ⟨found, other, symb, same⟩ |
                  ⟨other, none, same⟩
              · rw [same] at inside
                rcases List.mem_cons.mp inside with no | later
                · cases no
                · cases l with
                  | nil => cases double
                  | cons c l =>
                      refine Spans.behind [code '>', c] (ih _ l ?_ later)
                      simp only [List.length_cons] at less
                      omega
              · rw [same] at inside
                rcases List.mem_cons.mp inside with no | later
                · cases no
                · exact Spans.behind [code '>'] (ih _ l less later)
              · rw [same] at inside
                rcases List.mem_cons.mp inside with no | later
                · exact absurd no.symm ((symbol_byte symb).2.2.1 w)
                · exact Spans.behind [b] (ih _ l less later)
              · rw [same] at inside
                rcases List.mem_cons.mp inside with here | later
                · cases here
                  refine ⟨[], b :: l.takeWhile isWord, l.dropWhile isWord, ?_, rfl, ?_, by simp, ?_, ?_⟩
                  · rw [List.nil_append, List.cons_append, List.takeWhile_append_dropWhile]
                  · simp only [List.length_cons]
                    omega
                  · intro x mem
                    rcases List.mem_cons.mp mem with rfl | rest
                    · exact isWord_of blank (symbol_none other none).1
                    · exact List.all_eq_true.mp List.all_takeWhile x rest
                  · intro x first
                    have head := List.head?_dropWhile_not isWord l
                    rw [first] at head
                    simpa using head
                · have parts : b :: l = (b :: l.takeWhile isWord) ++ l.drop
                    (l.takeWhile isWord).length := by
                    rw [drop_takeWhile, List.cons_append, List.takeWhile_append_dropWhile]
                  rw [parts]
                  refine Spans.behind _ (ih _ _ ?_ ?_)
                  · rw [List.length_drop]
                    omega
                  · rw [List.length_cons, Nat.add_comm _ 1, ← Nat.add_assoc]
                    exact later

section Texts
variable {t : Text} {w : Word}

theorem Spans.bytes (spans : Spans 0 t.str w) : w.q < w.eq ∧ w.eq ≤ t.len ∧
    (∀ i, w.q ≤ i → i < w.eq → isWord (t.byte i) = true ∧ t.byte i ≠ 0) ∧
    (t.byte w.eq = 0 ∨ isWord (t.byte w.eq) = false) := by
  obtain ⟨front, mid, back, whole, start, stop, some, word, ends⟩ := spans
  have length := congrArg List.length whole
  simp only [List.length_append] at length
  have len : t.len = t.str.length := rfl
  have pos : 0 < mid.length := List.length_pos_iff.mpr some
  refine ⟨by omega, by omega, ?_, ?_⟩
  · intro i low high
    have found : t.str[i]? = mid[i - front.length]? := by
      rw [whole, List.getElem?_append_right (by omega), List.getElem?_append_left (by omega)]
    have inside : i - front.length < mid.length := by omega
    rw [List.getElem?_eq_getElem inside] at found
    have byte : t.byte i = mid[i - front.length] := by rw [Text.byte, found]
    rw [byte]
    exact ⟨word _ (List.getElem_mem inside), t.nonzero _ (List.mem_of_getElem? found)⟩
  · have found : t.str[w.eq]? = back.head? := by
      rw [whole, List.getElem?_append_right (by omega), List.getElem?_append_right (by omega),
        List.head?_eq_getElem?]
      congr 1
      omega
    cases first : back.head? with
    | some b =>
        rw [first] at found
        have byte : t.byte w.eq = b := by rw [Text.byte, found]
        rw [byte]
        exact Or.inr (ends b first)
    | none =>
        rw [first] at found
        have last : w.eq = t.len := by
          rw [List.head?_eq_none_iff] at first
          rw [first, List.length_nil] at length
          omega
        left
        rw [Text.byte, found]
        exact if_pos last

/-- What `nulterminate` leaves in memory: every word is a string of its own. -/
theorem nulterminate_texts {c : Cmd} (derives : Derives .line (lex 0 t.str) c) :
    (∀ i, t.len < i → nulterminate c t.byte i = t.byte i) ∧
    ∀ w ∈ c.words, w.q < w.eq ∧ w.eq ≤ t.len ∧ nulterminate c t.byte w.eq = 0 ∧
      ∀ i, w.q ≤ i → i < w.eq → nulterminate c t.byte i = t.byte i ∧ t.byte i ≠ 0 := by
  have spans : ∀ w ∈ c.words, Spans 0 t.str w := fun w inside =>
    lex_words w t.str.length 0 t.str (Nat.le_refl _) (derives.words w inside)
  refine ⟨?_, ?_⟩
  · intro i beyond
    rw [nulterminate_eq, if_neg]
    rintro ⟨w, inside, rfl⟩
    have within := (spans w inside).bytes.2.1
    omega
  · intro w inside
    obtain ⟨some, within, word, -⟩ := (spans w inside).bytes
    refine ⟨some, within, ?_, ?_⟩
    · rw [nulterminate_eq, if_pos ⟨w, inside, rfl⟩]
    · intro i low high
      obtain ⟨good, nonzero⟩ := word i low high
      refine ⟨?_, nonzero⟩
      rw [nulterminate_eq, if_neg]
      -- a byte behind a word belongs to no word
      rintro ⟨v, other, rfl⟩
      rcases (spans v other).bytes.2.2.2 with zero | bad
      · exact nonzero zero
      · rw [good] at bad
        cases bad

end Texts

/-! ## `parsecmd` -/

theorem parsecmd_derives {t : Text} {turns : Nat} {c : Cmd} {mem : Nat → UInt8}
    (run : parsecmd t turns = .ok (c, mem)) :
    Derives .line (lex 0 t.str) c ∧ mem = nulterminate c t.byte := by
  have at' : At t 0 (lex 0 t.str) := ⟨Nat.zero_le _, rfl⟩
  simp only [parsecmd, bind, Except.bind] at run
  split at run
  · cases run
  next result parsed =>
    obtain ⟨vs, us, split, here, derives⟩ := (parse_yields t turns).1 0 _ result.1 result.2 at' parsed
    split at run
    · cases run
    next last =>
      cases run
      obtain rfl : us = [] := here.ends.mp (not_not.mp last)
      rw [split, List.append_nil]
      exact ⟨derives, rfl⟩

theorem parsecmd_accepts {t : Text} {c : Cmd} (derives : Derives .line (lex 0 t.str) c) :
    ∃ k, ∀ turns, k ≤ turns → parsecmd t turns = .ok (c, nulterminate c t.byte) := by
  obtain ⟨k, parses⟩ := parser_complete (t := t) derives
  refine ⟨k, ?_⟩
  intro turns enough
  obtain ⟨p, run, here⟩ := parses turns enough 0 [] ⟨Nat.zero_le _, by simp⟩ (Or.inl rfl)
  simp only [parser] at run
  simp only [parsecmd, run, bind, Except.bind]
  rw [if_neg]
  · rfl
  · exact not_not.mpr (here.ends.mpr rfl)

/-- On every string `parsecmd` ends; it returns just the commands that the tokens of the
string derive; and the words of the command are then NUL-terminated, each with its own text,
by stores that do not leave the string. -/
theorem parsecmd_exact (t : Text) :
    (∃ k, ∀ turns, k ≤ turns → parsecmd t turns ≠ .error .turns) ∧
    (∀ c, Derives .line (lex 0 t.str) c ↔
      ∃ k, ∀ turns, k ≤ turns → ∃ mem, parsecmd t turns = .ok (c, mem)) ∧
    (∀ turns c mem, parsecmd t turns = .ok (c, mem) → Derives .line (lex 0 t.str) c ∧
      (∀ i, t.len < i → mem i = t.byte i) ∧
      ∀ w ∈ c.words, w.q < w.eq ∧ w.eq ≤ t.len ∧ mem w.eq = 0 ∧
        ∀ i, w.q ≤ i → i < w.eq → mem i = t.byte i ∧ t.byte i ≠ 0) := by
  refine ⟨⟨4 * (lex 0 t.str).length + 6, ?_⟩, ?_, ?_⟩
  · intro turns enough run
    have at' : At t 0 (lex 0 t.str) := ⟨Nat.zero_le _, rfl⟩
    simp only [parsecmd, bind, Except.bind] at run
    split at run
    next stop failed =>
      cases run
      exact (parse_finishes t turns).1 0 _ at' enough failed
    next result parsed =>
      split at run <;> cases run
  · intro c
    constructor
    · intro derives
      obtain ⟨k, accepts⟩ := parsecmd_accepts derives
      exact ⟨k, fun turns enough => ⟨_, accepts turns enough⟩⟩
    · rintro ⟨k, accepts⟩
      obtain ⟨mem, run⟩ := accepts k (Nat.le_refl k)
      exact (parsecmd_derives run).1
  · intro turns c mem run
    obtain ⟨derives, rfl⟩ := parsecmd_derives run
    exact ⟨derives, nulterminate_texts derives⟩

/-- `ls>f` -/
example : (parsecmd ⟨[108, 115, 62, 102], by simp, fun _ => 0⟩ 20).toOption.map Prod.fst =
    some (.redir (.exec [⟨0, 2⟩]) ⟨3, 4⟩ 0x601 1) := by
  decide +kernel

end Xv6Fcfs.Shell
