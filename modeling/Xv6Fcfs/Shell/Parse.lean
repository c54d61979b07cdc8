import Xv6Fcfs.Shell.Grammar

/-!
# The parser accepts the language

Each function of the parser, when it returns, has consumed tokens that derive the command; on
tokens that derive a command and are followed by what may follow them it returns that
command; and it never needs more turns than a multiple of the number of tokens.
-/

set_option autoImplicit false

namespace Xv6Fcfs.Shell

open Xv6Fcfs.Lib

section Lookahead
variable {ts : List Tok}

def Tok.Single (tok : Tok) : Prop :=
  tok = .bar ∨ tok = .amp ∨ tok = .semi ∨ tok = .lpar ∨ tok = .rpar

theorem starts_single {tok : Tok} (single : tok.Single) (found : starts [tok.byte] ts = true) :
    ∃ us, ts = tok :: us := by
  cases ts with
  | nil => cases found
  | cons x us =>
      have same : x.byte = tok.byte := by simpa [starts] using found
      refine ⟨us, ?_⟩
      rcases single with rfl | rfl | rfl | rfl | rfl <;> cases x <;> simp only [Tok.byte] at same <;>
        first | rfl | exact absurd same (by decide)

theorem starts_redir (found : starts [code '<', code '>'] ts = true) : ∃ (op : Op) (us : List Tok),
    ts = op.tok :: us := by
  cases ts with
  | nil => cases found
  | cons x us =>
      have same : x.byte = code '<' ∨ x.byte = code '>' := by simpa [starts] using found
      cases x with
      | less => exact ⟨.less, us, rfl⟩
      | greater => exact ⟨.greater, us, rfl⟩
      | append => exact ⟨.append, us, rfl⟩
      | _ =>
          simp only [Tok.byte] at same
          exact absurd same (by decide)

theorem sub_symbols {set : List UInt8} (sub : set.all fun b => b ∈ symbols) :
    ∀ b ∈ set, b ∈ symbols := by
  intro b inside
  have all := List.all_eq_true.mp sub b inside
  simpa using all

end Lookahead

section Redirections
variable {t : Text}

theorem redircmd_eq (cmd : Cmd) (file : Word) (op : Op) :
    redircmd cmd file op.tok.ret = Redir.of cmd ⟨op, file⟩ := by
  cases op <;> rfl

theorem parseredirs_sound : ∀ (k : Nat) (cmd cmd' : Cmd) (p p' : Nat) (ts : List Tok), At t p ts →
    parseredirs t k cmd p = .ok (cmd', p') →
      ∃ rs us, ts = redirToks rs ++ us ∧ At t p' us ∧ cmd' = wrap cmd rs ∧
        starts [code '<', code '>'] us = false := by
  intro k
  induction k with
  | zero => intro cmd cmd' p p' ts _ run; cases run
  | succ k ih =>
      intro cmd cmd' p p' ts at' run
      obtain ⟨here, more⟩ := at'.peek [code '<', code '>'] (sub_symbols (by decide))
      simp only [parseredirs, more] at run
      cases found : starts [code '<', code '>'] ts with
      | false =>
          rw [found] at run
          cases run
          exact ⟨[], ts, rfl, here, rfl, found⟩
      | true =>
          rw [found, if_pos rfl] at run
          obtain ⟨op, us, rfl⟩ := starts_redir found
          obtain ⟨ret, next, -⟩ := here.gettoken
          split at run
          · cases run
          next word =>
            cases us with
            | nil => exact absurd next.gettoken_end.1 (by rw [not_not.mp word]; decide)
            | cons tok us =>
                obtain ⟨ret', last, span⟩ := next.gettoken
                obtain ⟨w, rfl⟩ : ∃ w, tok = .word w := by
                  rw [ret'] at word
                  have same := not_not.mp word
                  cases tok with
                  | word w => exact ⟨w, rfl⟩
                  | _ => exact absurd same (by decide)
                rw [ret, span w rfl, redircmd_eq] at run
                obtain ⟨rs, vs, rfl, there, rfl, ends⟩ := ih _ _ _ _ us last run
                exact ⟨⟨op, w⟩ :: rs, vs, rfl, there, rfl, ends⟩

theorem parseredirs_complete : ∀ (rs : List Redir) (k : Nat) (cmd : Cmd) (p : Nat) (us : List Tok),
    At t p (redirToks rs ++ us) → starts [code '<', code '>'] us = false → rs.length < k →
      ∃ p', parseredirs t k cmd p = .ok (wrap cmd rs, p') ∧ At t p' us := by
  intro rs
  induction rs with
  | nil =>
      intro k cmd p us at' ends more
      obtain ⟨k, rfl⟩ := Nat.exists_eq_succ_of_ne_zero (Nat.ne_of_gt (Nat.zero_lt_of_lt more))
      obtain ⟨here, looks⟩ := at'.peek [code '<', code '>'] (sub_symbols (by decide))
      refine ⟨_, ?_, here⟩
      simp only [parseredirs, looks]
      rw [show redirToks [] ++ us = us from rfl, ends]
      rfl
  | cons r rs ih =>
      intro k cmd p us at' ends more
      obtain ⟨k, rfl⟩ := Nat.exists_eq_succ_of_ne_zero (Nat.ne_of_gt (Nat.zero_lt_of_lt more))
      have shape : redirToks (r :: rs) ++ us = r.op.tok :: .word r.file :: (redirToks rs ++ us) := rfl
      rw [shape] at at'
      obtain ⟨here, looks⟩ := at'.peek [code '<', code '>'] (sub_symbols (by decide))
      obtain ⟨ret, next, -⟩ := here.gettoken
      obtain ⟨ret', last, span⟩ := next.gettoken
      have yes : starts [code '<', code '>']
        (r.op.tok :: .word r.file :: (redirToks rs ++ us)) = true := by
        cases r.op <;> rfl
      obtain ⟨p', run, there⟩ := ih k (Redir.of cmd r) _ us last ends (by simpa using more)
      refine ⟨p', ?_, there⟩
      simp only [parseredirs, looks, yes, if_true]
      rw [if_neg (by rw [ret']; exact fun no => no rfl), ret, span r.file rfl, redircmd_eq]
      exact run

theorem parseredirs_total : ∀ (k : Nat) (cmd : Cmd) (p : Nat) (ts : List Tok), At t p ts →
    ts.length < k →
    parseredirs t k cmd p ≠ .error .turns := by
  intro k
  induction k with
  | zero => intro cmd p ts _ more; cases more
  | succ k ih =>
      intro cmd p ts at' more run
      obtain ⟨here, looks⟩ := at'.peek [code '<', code '>'] (sub_symbols (by decide))
      simp only [parseredirs, looks] at run
      split at run
      next found =>
        obtain ⟨op, us, rfl⟩ := starts_redir found
        obtain ⟨-, next, -⟩ := here.gettoken
        split at run
        · cases run
        next word =>
          cases us with
          | nil => exact absurd next.gettoken_end.1 (by rw [not_not.mp word]; decide)
          | cons tok us =>
              obtain ⟨-, last, -⟩ := next.gettoken
              refine ih _ _ us last ?_ run
              simp only [List.length_cons] at more
              omega
      · cases run

end Redirections

section Loops
variable {t : Text}

theorem backLoop_sound : ∀ (k : Nat) (cmd cmd' : Cmd) (p p' : Nat) (ts : List Tok), At t p ts →
    backLoop t k cmd p = .ok (cmd', p') →
      ∃ n us, ts = List.replicate n .amp ++ us ∧ At t p' us ∧ cmd' = backs n cmd := by
  intro k
  induction k with
  | zero => intro cmd cmd' p p' ts _ run; cases run
  | succ k ih =>
      intro cmd cmd' p p' ts at' run
      obtain ⟨here, looks⟩ := at'.peek [code '&'] (sub_symbols (by decide))
      simp only [backLoop, looks] at run
      split at run
      next found =>
        obtain ⟨us, rfl⟩ := starts_single (by simp [Tok.Single] : Tok.amp.Single) found
        obtain ⟨-, next, -⟩ := here.gettoken
        obtain ⟨n, vs, rfl, there, rfl⟩ := ih _ _ _ _ us next run
        exact ⟨n + 1, vs, rfl, there, rfl⟩
      next =>
        cases run
        exact ⟨0, ts, rfl, here, rfl⟩

theorem backLoop_complete : ∀ (n k : Nat) (cmd : Cmd) (p : Nat) (us : List Tok),
    At t p (List.replicate n .amp ++ us) → starts [code '&'] us = false → n < k →
      ∃ p', backLoop t k cmd p = .ok (backs n cmd, p') ∧ At t p' us := by
  intro n
  induction n with
  | zero =>
      intro k cmd p us at' ends more
      obtain ⟨k, rfl⟩ := Nat.exists_eq_succ_of_ne_zero (Nat.ne_of_gt more)
      obtain ⟨here, looks⟩ := at'.peek [code '&'] (sub_symbols (by decide))
      refine ⟨_, ?_, here⟩
      simp only [backLoop, looks]
      rw [show List.replicate 0 Tok.amp ++ us = us from rfl, ends]
      rfl
  | succ n ih =>
      intro k cmd p us at' ends more
      obtain ⟨k, rfl⟩ := Nat.exists_eq_succ_of_ne_zero (Nat.ne_of_gt (Nat.zero_lt_of_lt more))
      rw [List.replicate_succ, List.cons_append] at at'
      obtain ⟨here, looks⟩ := at'.peek [code '&'] (sub_symbols (by decide))
      obtain ⟨-, next, -⟩ := here.gettoken
      obtain ⟨p', run, there⟩ := ih k (.back cmd) _ us next ends (by omega)
      refine ⟨p', ?_, there⟩
      simp only [backLoop, looks]
      exact run

theorem backLoop_total : ∀ (k : Nat) (cmd : Cmd) (p : Nat) (ts : List Tok), At t p ts → ts.length < k →
    backLoop t k cmd p ≠ .error .turns := by
  intro k
  induction k with
  | zero => intro cmd p ts _ more; cases more
  | succ k ih =>
      intro cmd p ts at' more run
      obtain ⟨here, looks⟩ := at'.peek [code '&'] (sub_symbols (by decide))
      simp only [backLoop, looks] at run
      split at run
      next found =>
        obtain ⟨us, rfl⟩ := starts_single (by simp [Tok.Single] : Tok.amp.Single) found
        obtain ⟨-, next, -⟩ := here.gettoken
        refine ih _ _ us next ?_ run
        simpa using more
      · cases run

theorem addArg_wrap (w : Word) (argv : List Word) (rs : List Redir) :
    addArg w (wrap (.exec argv) rs) = wrap (.exec (argv ++ [w])) rs := by
  have outer : ∀ (rs : List Redir) (c d : Cmd), addArg w c = d → addArg w (wrap c rs) = wrap d rs := by
    intro rs
    induction rs with
    | nil => exact fun c d same => same
    | cons r rs ih =>
        intro c d same
        refine ih (Redir.of c r) (Redir.of d r) ?_
        cases r with
        | mk op file => cases op <;> simp only [Redir.of, addArg, same]
  exact outer rs _ _ rfl

theorem wrap_append (c : Cmd) (rs ss : List Redir) : wrap (wrap c rs) ss = wrap c (rs ++ ss) := by
  rw [wrap, wrap, wrap, List.foldl_append]

def closers : List UInt8 := [code '|', code ')', code '&', code ';']

def Ends (ts : List Tok) : Prop := ts = [] ∨ starts closers ts = true

theorem argLoop_sound : ∀ (k : Nat) (argv : List Word) (rs : List Redir) (cmd' : Cmd) (p p' : Nat)
    (ts : List Tok), At t p ts → argv.length ≤ MAXARGS - 1 →
    argLoop t k (wrap (.exec argv) rs) argv.length p = .ok (cmd', p') →
      ∃ args us, ts = argToks args ++ us ∧ At t p' us ∧ argv.length + args.length ≤ MAXARGS - 1 ∧
        cmd' = wrap (.exec (argv ++ args.map Arg.word)) (rs ++ args.flatMap Arg.redirs) := by
  intro k
  induction k with
  | zero => intro argv rs cmd' p p' ts _ _ run; cases run
  | succ k ih =>
      intro argv rs cmd' p p' ts at' few run
      obtain ⟨here, looks⟩ := at'.peek closers (sub_symbols (by decide))
      have done : ∀ q, At t q ts → Except.ok (wrap (.exec argv) rs, q) =
        (.ok (cmd', p') : Except Stop _) →
          ∃ args us, ts = argToks args ++ us ∧ At t p' us ∧ argv.length + args.length ≤ MAXARGS - 1 ∧
            cmd' = wrap (.exec (argv ++ args.map Arg.word)) (rs ++ args.flatMap Arg.redirs) := by
        intro q there same
        cases same
        exact ⟨[], ts, rfl, there, few, by simp⟩
      simp only [argLoop] at run
      rw [show [code '|', code ')', code '&', code ';'] = closers from rfl, looks] at run
      split at run
      · exact done _ here run
      next =>
        cases ts with
        | nil =>
            obtain ⟨zero, there⟩ := here.gettoken_end
            rw [if_pos zero] at run
            exact done _ there run
        | cons tok us =>
            obtain ⟨ret, next, span⟩ := here.gettoken
            rw [ret] at run
            split at run
            next zero => exact absurd zero (by cases tok <;> simp [Tok.ret, Tok.byte] <;> decide)
            next =>
              split at run
              · cases run
              next word =>
                obtain ⟨w, rfl⟩ : ∃ w, tok = .word w := by
                  have same := not_not.mp word
                  cases tok with
                  | word w => exact ⟨w, rfl⟩
                  | _ => exact absurd same (by decide)
                split at run
                · cases run
                next short =>
                  rw [span w rfl, addArg_wrap] at run
                  simp only [bind, Except.bind] at run
                  split at run
                  · cases run
                  next result parsed =>
                    obtain ⟨ret', ps⟩ := result
                    obtain ⟨rs', vs, rfl, there, rfl, -⟩ := parseredirs_sound k _ _ _ _ us next parsed
                    rw [wrap_append, show argv.length + 1 = (argv ++ [w]).length by simp] at run
                    obtain ⟨args, xs, rfl, last, total, rfl⟩ := ih (argv ++ [w]) _ _ _ _ vs there
                      (by simp only [List.length_append, List.length_singleton]; omega) run
                    refine ⟨⟨w, rs'⟩ :: args, xs, ?_, last, ?_, ?_⟩
                    · simp [argToks, Arg.toks, List.append_assoc]
                    · simp only [List.length_append, List.length_cons] at total ⊢
                      omega
                    · simp [List.append_assoc]

theorem Ends.not_redir {us : List Tok} (ends : Ends us) : starts [code '<', code '>'] us = false := by
  rcases ends with rfl | found
  · rfl
  · cases us with
    | nil => rfl
    | cons tok us => cases tok <;> first | rfl | cases found

theorem redirToks_length (rs : List Redir) : (redirToks rs).length = 2 * rs.length := by
  induction rs with
  | nil => rfl
  | cons r rs ih =>
      show (redirToks rs).length + 1 + 1 = _
      rw [ih, List.length_cons]
      omega

theorem argToks_cons (a : Arg) (args : List Arg) (us : List Tok) :
    argToks (a :: args) ++ us = .word a.word :: (redirToks a.redirs ++ (argToks args ++ us)) := by
  simp [argToks, Arg.toks, List.append_assoc]

theorem argLoop_complete : ∀ (args : List Arg) (k : Nat) (argv : List Word) (rs : List Redir) (p : Nat)
    (us : List Tok), At t p (argToks args ++ us) → Ends us → argv.length + args.length ≤ MAXARGS - 1 →
    (argToks args).length < k →
      ∃ p', argLoop t k (wrap (.exec argv) rs) argv.length p =
          .ok (wrap (.exec (argv ++ args.map Arg.word)) (rs ++ args.flatMap Arg.redirs), p') ∧
        At t p' us := by
  intro args
  induction args with
  | nil =>
      intro k argv rs p us at' ends few more
      obtain ⟨k, rfl⟩ := Nat.exists_eq_succ_of_ne_zero (Nat.ne_of_gt (Nat.zero_lt_of_lt more))
      have at'' : At t p us := at'
      obtain ⟨here, looks⟩ := at''.peek closers (sub_symbols (by decide))
      simp only [argLoop, List.map_nil, List.flatMap_nil, List.append_nil]
      rw [show [code '|', code ')', code '&', code ';'] = closers from rfl, looks]
      rcases ends with rfl | found
      · obtain ⟨zero, there⟩ := here.gettoken_end
        refine ⟨_, ?_, there⟩
        rw [if_neg (by decide), if_pos zero]
      · exact ⟨_, if_pos found, here⟩
  | cons a args ih =>
      intro k argv rs p us at' ends few more
      obtain ⟨k, rfl⟩ := Nat.exists_eq_succ_of_ne_zero (Nat.ne_of_gt (Nat.zero_lt_of_lt more))
      have size := congrArg List.length (argToks_cons a args [])
      simp only [List.append_nil, List.length_cons, List.length_append, redirToks_length] at size
      rw [argToks_cons] at at'
      obtain ⟨here, looks⟩ := at'.peek closers (sub_symbols (by decide))
      obtain ⟨ret, next, span⟩ := here.gettoken
      have quiet : starts [code '<', code '>'] (argToks args ++ us) = false := by
        cases args with
        | nil => exact ends.not_redir
        | cons b args => rfl
      obtain ⟨q, parsed, there⟩ := parseredirs_complete a.redirs k
        (wrap (.exec (argv ++ [a.word])) rs) _ _ next quiet (by omega)
      simp only [List.length_cons] at few
      obtain ⟨p', run, last⟩ := ih k (argv ++ [a.word]) (rs ++ a.redirs) q us there ends
        (by simp only [List.length_append, List.length_singleton]; omega) (by omega)
      refine ⟨p', ?_, last⟩
      simp only [argLoop]
      rw [show [code '|', code ')', code '&', code ';'] = closers from rfl, looks,
        starts_less (sub_symbols (by decide)), if_neg (by decide), ret,
        if_neg (show (Tok.word a.word).ret ≠ 0 from by show code 'a' ≠ 0; decide),
        if_neg (show ¬ (Tok.word a.word).ret ≠ code 'a' from fun no => no rfl),
        if_neg (by unfold MAXARGS at few ⊢; omega), span a.word rfl, addArg_wrap]
      simp only [bind, Except.bind, parsed, wrap_append]
      rw [show argv.length + 1 = (argv ++ [a.word]).length by simp, run]
      simp [List.append_assoc]

theorem argLoop_total : ∀ (k : Nat) (cmd : Cmd) (argc p : Nat) (ts : List Tok), At t p ts →
    ts.length < k →
    argLoop t k cmd argc p ≠ .error .turns := by
  intro k
  induction k with
  | zero => intro cmd argc p ts _ more; cases more
  | succ k ih =>
      intro cmd argc p ts at' more run
      obtain ⟨here, looks⟩ := at'.peek closers (sub_symbols (by decide))
      simp only [argLoop] at run
      rw [show [code '|', code ')', code '&', code ';'] = closers from rfl, looks] at run
      split at run
      · cases run
      next =>
        cases ts with
        | nil =>
            rw [if_pos here.gettoken_end.1] at run
            cases run
        | cons tok us =>
            obtain ⟨-, next, -⟩ := here.gettoken
            have fewer : us.length < k := by simpa using more
            split at run
            · cases run
            · split at run
              · cases run
              · split at run
                · cases run
                · simp only [bind, Except.bind] at run
                  split at run
                  next stop parsed =>
                    cases run
                    exact parseredirs_total k _ _ us next fewer parsed
                  next result parsed =>
                    obtain ⟨rs, vs, rfl, there, -, -⟩ := parseredirs_sound k _ _ _ _ us next parsed
                    refine ih _ _ _ vs there ?_ run
                    simp only [List.length_append] at fewer
                    omega

end Loops

/-! ## What is accepted derives -/

section Sound
variable {t : Text} {k : Nat}

/-- When the function returns, it has consumed tokens that derive what it returns. -/
def Yields (t : Text) (part : Part) (parse : Nat → Except Stop (Cmd × Nat)) : Prop :=
  ∀ p ts c p', At t p ts → parse p = .ok (c, p') →
    ∃ vs us, ts = vs ++ us ∧ At t p' us ∧ Derives part vs c

theorem parseline_yields (pipe : Yields t .pipe (parsepipe t k))
    (line : Yields t .line (parseline t k)) :
    Yields t .line (parseline t (k + 1)) := by
  intro p ts c p' at' run
  simp only [parseline, bind, Except.bind] at run
  split at run
  · cases run
  next first parsed =>
    obtain ⟨vs, us, rfl, here, derives⟩ := pipe p ts first.1 first.2 at' parsed
    split at run
    · cases run
    next second looped =>
      obtain ⟨n, ws, rfl, there, back⟩ := backLoop_sound k _ second.1 _ second.2 us here looped
      obtain ⟨next, looks⟩ := there.peek [code ';'] (sub_symbols (by decide))
      rw [looks] at run
      split at run
      next found =>
        obtain ⟨xs, rfl⟩ := starts_single (by simp [Tok.Single] : Tok.semi.Single) found
        obtain ⟨-, after, -⟩ := next.gettoken
        split at run
        · cases run
        next third more =>
          cases run
          obtain ⟨ys, zs, rfl, last, rest⟩ := line _ xs third.1 third.2 after more
          rw [back]
          exact ⟨_, zs, by simp [List.append_assoc], last, Derives.lines n derives rest⟩
      next =>
        cases run
        rw [back]
        exact ⟨_, ws, by rw [List.append_assoc], next, Derives.line n derives⟩

theorem parsepipe_yields (exec : Yields t .exec (parseexec t k))
    (pipe : Yields t .pipe (parsepipe t k)) :
    Yields t .pipe (parsepipe t (k + 1)) := by
  intro p ts c p' at' run
  simp only [parsepipe, bind, Except.bind] at run
  split at run
  · cases run
  next first parsed =>
    obtain ⟨vs, us, rfl, here, derives⟩ := exec p ts first.1 first.2 at' parsed
    obtain ⟨next, looks⟩ := here.peek [code '|'] (sub_symbols (by decide))
    rw [looks] at run
    split at run
    next found =>
      obtain ⟨xs, rfl⟩ := starts_single (by simp [Tok.Single] : Tok.bar.Single) found
      obtain ⟨-, after, -⟩ := next.gettoken
      split at run
      · cases run
      next second more =>
        cases run
        obtain ⟨ys, zs, rfl, last, rest⟩ := pipe _ xs second.1 second.2 after more
        exact ⟨_, zs, by simp [List.append_assoc], last, Derives.pipes derives rest⟩
    next =>
      cases run
      exact ⟨vs, us, rfl, next, Derives.pipe derives⟩

theorem parseblock_yields (line : Yields t .line (parseline t k)) :
    Yields t .exec (parseblock t (k + 1)) := by
  intro p ts c p' at' run
  obtain ⟨here, looks⟩ := at'.peek [code '('] (sub_symbols (by decide))
  simp only [parseblock] at run
  rw [looks] at run
  split at run
  · cases run
  next found =>
    obtain ⟨us, rfl⟩ := starts_single (by simp [Tok.Single] : Tok.lpar.Single)
      (Bool.eq_true_of_not_eq_false found)
    obtain ⟨-, next, -⟩ := here.gettoken
    simp only [bind, Except.bind] at run
    split at run
    · cases run
    next first parsed =>
      obtain ⟨vs, ws, rfl, there, derives⟩ := line _ us first.1 first.2 next parsed
      obtain ⟨near, closes⟩ := there.peek [code ')'] (sub_symbols (by decide))
      rw [closes] at run
      split at run
      · cases run
      next close =>
        obtain ⟨xs, rfl⟩ := starts_single (by simp [Tok.Single] : Tok.rpar.Single)
          (Bool.eq_true_of_not_eq_false close)
        obtain ⟨-, after, -⟩ := near.gettoken
        obtain ⟨rs, ys, rfl, last, rfl, -⟩ := parseredirs_sound k _ _ _ _ xs after run
        exact ⟨_, ys, by simp [List.append_assoc], last, Derives.block derives rs⟩

theorem parseexec_yields (block : Yields t .exec (parseblock t k)) :
    Yields t .exec (parseexec t (k + 1)) := by
  intro p ts c p' at' run
  obtain ⟨here, looks⟩ := at'.peek [code '('] (sub_symbols (by decide))
  simp only [parseexec] at run
  rw [looks] at run
  split at run
  · exact block _ ts c p' here run
  next =>
    simp only [bind, Except.bind] at run
    split at run
    · cases run
    next first parsed =>
      obtain ⟨rs, us, rfl, next, wrapped, -⟩ := parseredirs_sound k _ first.1 _ first.2 ts here parsed
      rw [wrapped] at run
      obtain ⟨args, vs, rfl, last, few, rfl⟩ := argLoop_sound k [] rs c _ p' us next (Nat.zero_le _) run
      refine ⟨_, vs, (List.append_assoc ..).symm, last, ?_⟩
      exact Derives.exec rs args (by simpa using few)

theorem parse_yields (t : Text) : ∀ k, Yields t .line (parseline t k) ∧ Yields t .pipe (parsepipe t k) ∧
    Yields t .exec (parseblock t k) ∧ Yields t .exec (parseexec t k) := by
  intro k
  induction k with
  | zero => exact ⟨fun _ _ _ _ _ run => by simp [parseline] at run,
      fun _ _ _ _ _ run => by simp [parsepipe] at run, fun _ _ _ _ _ run => by simp [parseblock] at run,
      fun _ _ _ _ _ run => by simp [parseexec] at run⟩
  | succ k ih =>
      obtain ⟨line, pipe, block, exec⟩ := ih
      exact ⟨parseline_yields pipe line, parsepipe_yields exec pipe, parseblock_yields line,
        parseexec_yields block⟩

end Sound

/-! ## What derives is accepted -/

section Complete
variable {t : Text}

def Follows : Part → List Tok → Prop
  | .line, ts => ts = [] ∨ starts [code ')'] ts = true
  | .pipe, ts => ts = [] ∨ starts [code ')', code '&', code ';'] ts = true
  | .exec, ts => Ends ts

def parser (t : Text) : Part → Nat → Nat → Except Stop (Cmd × Nat)
  | .line => parseline t
  | .pipe => parsepipe t
  | .exec => parseexec t

theorem follows_line {us : List Tok} (follows : Follows .line us) :
    starts [code '&'] us = false ∧ starts [code ';'] us = false ∧ Follows .pipe us := by
  rcases follows with rfl | found
  · exact ⟨rfl, rfl, Or.inl rfl⟩
  · cases us with
    | nil => cases found
    | cons tok us => cases tok <;> first | exact ⟨rfl, rfl, Or.inr rfl⟩ | cases found

theorem follows_pipe {us : List Tok} (follows : Follows .pipe us) :
    starts [code '|'] us = false ∧ Follows .exec us := by
  rcases follows with rfl | found
  · exact ⟨rfl, Or.inl rfl⟩
  · cases us with
    | nil => cases found
    | cons tok us => cases tok <;> first | exact ⟨rfl, Or.inr rfl⟩ | cases found

theorem follows_amps {us : List Tok} (n : Nat) (follows : Follows .pipe us) :
    Follows .pipe (List.replicate n .amp ++ us) := by
  cases n with
  | zero => exact follows
  | succ n => exact Or.inr rfl

theorem parser_complete {part : Part} {ts : List Tok} {c : Cmd} (derives : Derives part ts c) :
    ∃ turns, ∀ k, turns ≤ k → ∀ p us, At t p (ts ++ us) → Follows part us →
      ∃ p', parser t part k p = .ok (c, p') ∧ At t p' us := by
  induction derives with
  | @line ts c n first ih =>
      obtain ⟨turns, parses⟩ := ih
      refine ⟨turns + n + 2, ?_⟩
      intro k enough p us at' follows
      obtain ⟨k, rfl⟩ := Nat.exists_eq_succ_of_ne_zero (by omega : k ≠ 0)
      obtain ⟨amp, semi, pipe⟩ := follows_line follows
      rw [List.append_assoc] at at'
      obtain ⟨q, one, here⟩ := parses k (by omega) p _ at' (follows_amps n pipe)
      obtain ⟨q', two, there⟩ := backLoop_complete n k c q us here amp (by omega)
      obtain ⟨next, looks⟩ := there.peek [code ';'] (sub_symbols (by decide))
      refine ⟨_, ?_, next⟩
      simp only [parser] at one
      simp only [parser, parseline, bind, Except.bind, one, two, looks, semi]
      rfl
  | @lines ts us c d n first rest ih ih' =>
      obtain ⟨turns, parses⟩ := ih
      obtain ⟨turns', parses'⟩ := ih'
      refine ⟨turns + turns' + n + 2, ?_⟩
      intro k enough p ws at' follows
      obtain ⟨k, rfl⟩ := Nat.exists_eq_succ_of_ne_zero (by omega : k ≠ 0)
      rw [List.append_assoc, List.append_assoc, List.cons_append] at at'
      obtain ⟨q, one, here⟩ := parses k (by omega) p _ at' (follows_amps n (Or.inr rfl))
      obtain ⟨q', two, there⟩ := backLoop_complete n k c q _ here rfl (by omega)
      obtain ⟨next, looks⟩ := there.peek [code ';'] (sub_symbols (by decide))
      obtain ⟨-, after, -⟩ := next.gettoken
      obtain ⟨p', three, last⟩ := parses' k (by omega) _ ws after follows
      refine ⟨p', ?_, last⟩
      simp only [parser] at one three
      simp only [parser, parseline, bind, Except.bind, one, two, looks]
      rw [show starts [code ';'] (Tok.semi :: (us ++ ws)) = true from rfl, if_pos rfl, three]
      rfl
  | pipe first ih =>
      obtain ⟨turns, parses⟩ := ih
      refine ⟨turns + 1, ?_⟩
      intro k enough p us at' follows
      obtain ⟨k, rfl⟩ := Nat.exists_eq_succ_of_ne_zero (by omega : k ≠ 0)
      obtain ⟨bar, exec⟩ := follows_pipe follows
      obtain ⟨q, one, here⟩ := parses k (by omega) p us at' exec
      obtain ⟨next, looks⟩ := here.peek [code '|'] (sub_symbols (by decide))
      refine ⟨_, ?_, next⟩
      simp only [parser] at one
      simp only [parser, parsepipe, bind, Except.bind, one, looks, bar]
      rfl
  | @pipes ts us c d first rest ih ih' =>
      obtain ⟨turns, parses⟩ := ih
      obtain ⟨turns', parses'⟩ := ih'
      refine ⟨turns + turns' + 1, ?_⟩
      intro k enough p ws at' follows
      obtain ⟨k, rfl⟩ := Nat.exists_eq_succ_of_ne_zero (by omega : k ≠ 0)
      rw [List.append_assoc, List.cons_append] at at'
      obtain ⟨q, one, here⟩ := parses k (by omega) p _ at' (Or.inr rfl)
      obtain ⟨next, looks⟩ := here.peek [code '|'] (sub_symbols (by decide))
      obtain ⟨-, after, -⟩ := next.gettoken
      obtain ⟨p', two, last⟩ := parses' k (by omega) _ ws after follows
      refine ⟨p', ?_, last⟩
      simp only [parser] at one two
      simp only [parser, parsepipe, bind, Except.bind, one, looks]
      rw [show starts [code '|'] (Tok.bar :: (us ++ ws)) = true from rfl, if_pos rfl, two]
      rfl
  | @block ts c inner rs ih =>
      obtain ⟨turns, parses⟩ := ih
      refine ⟨turns + rs.length + 3, ?_⟩
      intro k enough p us at' follows
      obtain ⟨k, rfl⟩ := Nat.exists_eq_succ_of_ne_zero (by omega : k ≠ 0)
      obtain ⟨k, rfl⟩ := Nat.exists_eq_succ_of_ne_zero (by omega : k ≠ 0)
      rw [List.cons_append, List.append_assoc, List.cons_append] at at'
      obtain ⟨here, looks⟩ := at'.peek [code '('] (sub_symbols (by decide))
      obtain ⟨again, looks'⟩ := here.peek [code '('] (sub_symbols (by decide))
      obtain ⟨-, next, -⟩ := again.gettoken
      obtain ⟨q, one, there⟩ := parses k (by omega) _ _ next (Or.inr rfl)
      obtain ⟨near, closes⟩ := there.peek [code ')'] (sub_symbols (by decide))
      obtain ⟨-, after, -⟩ := near.gettoken
      have quiet : starts [code '<', code '>'] us = false := Ends.not_redir follows
      obtain ⟨p', two, last⟩ := parseredirs_complete rs k c _ us after quiet (by omega)
      refine ⟨p', ?_, last⟩
      simp only [parser] at one
      simp only [parser, parseexec, looks]
      rw [if_pos (by rfl)]
      simp only [parseblock, looks']
      rw [if_neg (by simp [starts, Tok.byte])]
      simp only [bind, Except.bind, one, closes]
      rw [if_neg (by simp [starts, Tok.byte])]
      exact two
  | exec rs args few =>
      refine ⟨rs.length + (argToks args).length + 2, ?_⟩
      intro k enough p us at' follows
      obtain ⟨k, rfl⟩ := Nat.exists_eq_succ_of_ne_zero (by omega : k ≠ 0)
      obtain ⟨here, looks⟩ := at'.peek [code '('] (sub_symbols (by decide))
      rw [List.append_assoc] at here
      have quiet : starts [code '<', code '>'] (argToks args ++ us) = false := by
        cases args with
        | nil => exact Ends.not_redir follows
        | cons a args => rfl
      have closed : starts [code '('] (redirToks rs ++ argToks args ++ us) = false := by
        rw [List.append_assoc]
        cases rs with
        | nil =>
            cases args with
            | nil =>
                rcases follows with rfl | found
                · rfl
                · cases us with
                  | nil => rfl
                  | cons tok us => cases tok <;> first | rfl | cases found
            | cons a args => rfl
        | cons r rs =>
            cases r with
            | mk op file => cases op <;> rfl
      obtain ⟨q, one, there⟩ := parseredirs_complete rs k (.exec []) _ _ here quiet (by omega)
      obtain ⟨p', two, last⟩ := argLoop_complete args k [] rs q us there follows
        (by simpa using few) (by omega)
      refine ⟨p', ?_, last⟩
      simp only [parser, parseexec, looks, closed]
      simp only [bind, Except.bind, one]
      exact two

end Complete

end Xv6Fcfs.Shell
