import Xv6Fcfs.Clib.Ulib
import Xv6Fcfs.Lib.Lines
import Xv6Fcfs.Grep.Match

/-!
# The loop of `grep` (`user/grep.c`)

The memory is the 1024 bytes of `buf`, which begin at the address `buf`; every other access
fails.  How much of the input has arrived at each `read` is arbitrary.
-/

set_option autoImplicit false

namespace Xv6Fcfs.Grep

open Xv6Fcfs.Lib Xv6Fcfs.Clib

def newline : UInt8 := 10

/-- `sizeof(buf)` -/
def BUFSIZE : Nat := 1024

/-- `read` waits for a byte and returns what has arrived, at most the space offered; at the end of
the input it returns nothing. -/
def read (arrived : Nat) (space : Int) (input : List UInt8) : List UInt8 × List UInt8 :=
  input.splitAt (min (max 1 arrived) space.toNat)

/-- `while((q = strchr(p, '\n')) != 0)`: the memory, `p` and the lines written at its end. -/
def lineLoop (pattern : List UInt8) :
    Nat → Memory → Nat → List (List UInt8) → Option (Memory × Nat × List (List UInt8))
  | 0, _, _, _ => none
  | fuel + 1, mem, p, out => do
      let q ← strchr mem newline BUFSIZE p
      if q = 0 then some (mem, p, out)
      else
        let mem ← store mem q 0
        let text ← stringAt mem BUFSIZE p
        if match_ pattern text then
          let mem ← store mem q newline
          let line ← bytesAt mem p (q + 1 - p)
          lineLoop pattern fuel mem (advance q 1) (out ++ [line])
        else lineLoop pattern fuel mem (advance q 1) out

/-- What `grep` does with the bytes of one `read`. -/
def turn (pattern : List UInt8) (buf : Nat) (mem : Memory) (m : Int) (chunk : List UInt8)
    (out : List (List UInt8)) : Option (Memory × Int × List (List UInt8)) := do
  let mem ← storeBytes mem (advance buf m) chunk
  let m := m + chunk.length
  let mem ← store mem (advance buf m) 0
  let (mem, p, out) ← lineLoop pattern BUFSIZE mem buf out
  if m > 0 then
    let m := m - (p - buf)
    let (_, mem) ← User.memmove mem buf p m
    some (mem, m, out)
  else some (mem, m, out)

theorem read_shorter {arrived : Nat} {space : Int} {input : List UInt8}
    (some_ : (read arrived space input).1 ≠ []) :
    (read arrived space input).2.length < input.length := by
  simp only [read, List.splitAt_eq] at some_ ⊢
  have taken : 0 < (input.take (min (max 1 arrived) space.toNat)).length :=
    List.length_pos_iff.mpr some_
  rw [List.length_take] at taken
  rw [List.length_drop]
  omega

theorem read_split (arrived : Nat) (space : Int) (input : List UInt8) :
    input = (read arrived space input).1 ++ (read arrived space input).2 := by
  simp only [read, List.splitAt_eq, List.take_append_drop]

theorem read_length (arrived : Nat) (space : Int) (input : List UInt8) :
    (read arrived space input).1.length ≤ space.toNat := by
  simp only [read, List.splitAt_eq, List.length_take]
  omega

/-- `read` returns nothing only at the end of the input, if there is space. -/
theorem read_nil {arrived : Nat} {space : Int} {input : List UInt8} (positive : 0 < space)
    (none : (read arrived space input).1 = []) : input = [] := by
  simp only [read, List.splitAt_eq, List.take_eq_nil_iff] at none
  rcases none with zero | ended
  · omega
  · exact ended

/-- `arrived k` is what has arrived at the `k`-th `read`. -/
def grepLoop (pattern : List UInt8) (buf : Nat) (arrived : Nat → Nat) (k : Nat) (mem : Memory) (m : Int)
    (input : List UInt8) (out : List (List UInt8)) : Option (List (List UInt8)) :=
  if (read (arrived k) (BUFSIZE - m - 1) input).1 = [] then some out
  else
    (turn pattern buf mem m (read (arrived k) (BUFSIZE - m - 1) input).1 out).bind fun r =>
      grepLoop pattern buf arrived (k + 1) r.1 r.2.1 (read (arrived k) (BUFSIZE - m - 1) input).2 r.2.2
termination_by input.length
decreasing_by exact read_shorter ‹_›

/-- The lines that `grep` writes. -/
def grep (pattern : List UInt8) (buf : Nat) (arrived : Nat → Nat) (mem : Memory) (input : List UInt8) :
    Option (List (List UInt8)) := grepLoop pattern buf arrived 0 mem 0 input []

/-! ## Lines within the buffer -/

def matching (pattern : List UInt8) (lines : List (List UInt8)) : List (List UInt8) :=
  (lines.filter (match_ pattern)).map (· ++ [newline])

/-- A line that fits into the buffer together with its newline and the NUL. -/
structure Fits (line : List UInt8) : Prop where
  short : line.length ≤ 1022
  text : 0 ∉ line
  plain : newline ∉ line

section Loop
variable {pattern : List UInt8} {buf p fuel : Nat} {mem : Memory} {lines : List (List UInt8)}
  {data rest : List UInt8} {out : List (List UInt8)}

theorem text_nul (all : ∀ l, l ∈ lines → Fits l) (split : lined newline lines = data ++ rest) :
    0 ∉ data := by
  intro inside
  rcases lined_mem split inside with same | ⟨l, mem, here⟩
  · exact absurd same (by decide)
  · exact (all l mem).text here

/-- What `lineLoop` leaves of the data: it has been through `done`, and `tail` is a part of a line. -/
structure Looped (pattern : List UInt8) (buf p : Nat) (lines : List (List UInt8))
    (data rest : List UInt8)
    (out : List (List UInt8)) (r : Memory × Nat × List (List UInt8)) (done left : List (List UInt8))
    (tail : List UInt8) : Prop where
  lines : lines = done ++ left
  split : lined newline left = tail ++ rest
  part : newline ∉ tail
  holds : Holds r.1 r.2.1 (tail ++ [0])
  place : r.2.1 + tail.length = p + data.length
  behind : p ≤ r.2.1
  spans : Spans r.1 buf (buf + BUFSIZE)
  out : r.2.2 = out ++ matching pattern done

theorem lineLoop_spec (pattern : List UInt8) (positive : 0 < buf) (top : buf + BUFSIZE ≤ 2 ^ 64)
    (rest : List UInt8) : ∀ (fuel : Nat) (lines : List (List UInt8)) (data : List UInt8) (mem : Memory)
    (p : Nat) (out : List (List UInt8)), (∀ l, l ∈ lines → Fits l) →
    lined newline lines = data ++ rest → Spans mem buf (buf + BUFSIZE) → buf ≤ p →
    Holds mem p (data ++ [0]) → p + data.length < buf + BUFSIZE → data.length < fuel →
    ∃ r done left tail, lineLoop pattern fuel mem p out = some r ∧
      Looped pattern buf p lines data rest out r done left tail := by
  intro fuel
  have size : BUFSIZE = 1024 := rfl
  induction fuel with
  | zero => intro lines data mem p out _ _ _ _ _ _ enough; exact absurd enough (Nat.not_lt_zero _)
  | succ fuel ih =>
      intro lines data mem p out all split spans low holds high enough
      have text := text_nul all split
      rw [lineLoop]
      by_cases ends : newline ∈ data
      · obtain ⟨l, more, data', rfl, rfl, split'⟩ :=
          lined_whole (fun l mem => (all l mem).plain) split ends
        have fits := all l List.mem_cons_self
        rw [List.length_append, List.length_cons] at high enough
        rw [List.append_assoc, List.cons_append, List.append_cons l, holds_append, List.length_append,
          List.length_singleton] at holds
        obtain ⟨line, later⟩ := holds
        have found : strchr mem newline BUFSIZE p = some (p + l.length) :=
          strchr_found (by decide) fits.plain fits.text line (by omega) (by omega)
        have before : Holds mem p l := (holds_append.mp line).1
        -- the NUL in the place of the newline ends the string that `match` sees
        have cut : store mem (p + l.length) 0 = some (upd mem (p + l.length) (some 0)) :=
          store_spans spans (by omega) (by omega) 0
        have spans1 := spans_upd spans (show buf ≤ p + l.length by omega) (by omega) 0
        have string : stringAt (upd mem (p + l.length) (some 0)) BUFSIZE p = some l := by
          refine stringAt_holds fits.text ?_ (by omega) (by omega)
          rw [holds_append, holds_upd (Or.inr (Nat.le_refl _)), holds_cons]
          exact ⟨before, upd_self _ _ _, holds_nil _ _⟩
        have next : advance (p + l.length) 1 = p + l.length + 1 := advance_one (by omega)
        simp only [found, Option.bind_eq_bind, Option.bind_some,
          if_neg (show p + l.length ≠ 0 by omega), cut,
          string, next]
        by_cases matches_ : match_ pattern l = true
        · have back : store (upd mem (p + l.length) (some 0)) (p + l.length) newline =
              some (upd (upd mem (p + l.length) (some 0)) (p + l.length) (some newline)) :=
            store_spans spans1 (by omega) (by omega) newline
          have spans2 := spans_upd spans1 (show buf ≤ p + l.length by omega) (by omega) newline
          have whole : bytesAt (upd (upd mem (p + l.length) (some 0)) (p + l.length) (some newline)) p
              (p + l.length + 1 - p) = some (l ++ [newline]) := by
            have count : p + l.length + 1 - p = (l ++ [newline]).length := by
              rw [List.length_append, List.length_singleton]
              omega
            rw [count, upd_upd]
            refine bytesAt_holds ?_ (by rw [List.length_append, List.length_singleton]; omega)
            rw [holds_append, holds_upd (Or.inr (Nat.le_refl _)), holds_cons]
            exact ⟨before, upd_self _ _ _, holds_nil _ _⟩
          obtain ⟨r, done, left, tail, run, looped⟩ := ih more data' _ (p + l.length + 1)
            (out ++ [l ++ [newline]])
            (fun l mem => all l (List.mem_cons_of_mem _ mem)) split' spans2 (by omega)
            (by rw [upd_upd, holds_upd (Or.inl (by omega))]; exact later) (by omega) (by omega)
          refine ⟨r, l :: done, left, tail, ?_, ?_⟩
          · simp only [matches_, if_true, back, Option.bind_some, whole]
            exact run
          · obtain ⟨lines', split'', part, holds', place, behind, spans', out'⟩ := looped
            refine ⟨by rw [lines']; rfl, split'', part, holds', ?_, by omega, spans', ?_⟩
            · rw [place, List.length_append, List.length_cons]
              omega
            · rw [out', matching, matching, List.filter_cons_of_pos matches_, List.map_cons,
                List.append_assoc]
              rfl
        · obtain ⟨r, done, left, tail, run, looped⟩ := ih more data' _ (p + l.length + 1) out
            (fun l mem => all l (List.mem_cons_of_mem _ mem)) split' spans1 (by omega)
            (by rw [holds_upd (Or.inl (by omega))]; exact later) (by omega) (by omega)
          refine ⟨r, l :: done, left, tail, ?_, ?_⟩
          · rw [if_neg matches_]
            exact run
          · obtain ⟨lines', split'', part, holds', place, behind, spans', out'⟩ := looped
            refine ⟨by rw [lines']; rfl, split'', part, holds', ?_, by omega, spans', ?_⟩
            · rw [place, List.length_append, List.length_cons]
              omega
            · rw [out', matching, matching, List.filter_cons_of_neg matches_]
      · have none_ : strchr mem newline BUFSIZE p = some 0 :=
          strchr_none ends text holds (by omega) (by omega)
        refine ⟨(mem, p, out), [], lines, data, ?_, rfl, split, ends, holds, rfl,
          Nat.le_refl _, spans, ?_⟩
        · simp only [none_, Option.bind_eq_bind, Option.bind_some, if_true]
        · simp [matching]

/-- What is carried from one `read` to the next: a part of a line, at the beginning of the buffer. -/
structure Carried (buf : Nat) (lines : List (List UInt8)) (part input : List UInt8)
    (mem : Memory) : Prop where
  split : lined newline lines = part ++ input
  plain : newline ∉ part
  spans : Spans mem buf (buf + BUFSIZE)
  holds : Holds mem buf part

theorem turn_spec (pattern : List UInt8) (positive : 0 < buf) (top : buf + BUFSIZE ≤ 2 ^ 64)
    (all : ∀ l, l ∈ lines → Fits l) {part chunk : List UInt8}
    (carried : Carried buf lines part (chunk ++ rest) mem) (some_ : chunk ≠ [])
    (room : part.length + chunk.length < BUFSIZE) (out : List (List UInt8)) :
    ∃ mem' tail done left, turn pattern buf mem part.length chunk out =
        some (mem', (tail.length : Int), out ++ matching pattern done) ∧
      lines = done ++ left ∧ Carried buf left tail rest mem' := by
  obtain ⟨split, plain, spans, holds⟩ := carried
  have size : BUFSIZE = 1024 := rfl
  have nonempty := List.length_pos_iff.mpr some_
  obtain ⟨mem1, stored, spans1, chunkHeld, same⟩ := @storeBytes_holds buf (buf + BUFSIZE) chunk
    (buf + part.length) mem spans (by omega) (by omega) top
  have partHeld : Holds mem1 buf part := by
    intro i less
    rw [same _ (by omega), holds i less]
  have count : (part.length : Int) + chunk.length = ((part ++ chunk).length : Nat) := by
    rw [List.length_append]
    rfl
  have data : (part ++ chunk).length = part.length + chunk.length := List.length_append
  have ended := store_spans spans1 (show buf ≤ buf + (part ++ chunk).length by omega) (by omega) 0
  have spans2 := spans_upd spans1 (show buf ≤ buf + (part ++ chunk).length by omega) (by omega) 0
  have held : Holds (upd mem1 (buf + (part ++ chunk).length) (some 0)) buf (part ++ chunk ++ [0]) := by
    rw [holds_append, holds_upd (Or.inr (Nat.le_refl _)), holds_append, holds_cons]
    exact ⟨⟨partHeld, chunkHeld⟩, upd_self _ _ _, holds_nil _ _⟩
  obtain ⟨⟨mem3, p, out'⟩, done, left, tail, run, looped⟩ :=
    lineLoop_spec pattern positive top rest BUFSIZE lines
    (part ++ chunk) _ buf out all (by rw [split, List.append_assoc]) spans2 (Nat.le_refl _) held
      (by omega) (by omega)
  obtain ⟨lines', split', tailPlain, held', place, behind, spans3, written⟩ := looped
  simp only at held' place behind spans3 written
  obtain ⟨mem4, moves, spans4, held4⟩ := moving_holds (d := buf) spans3 (holds_append.mp held').1
    (Nat.le_refl _)
    (by omega)
  refine ⟨mem4, tail, done, left, ?_, lines', split', tailPlain, spans4, held4⟩
  have left_ : ((part ++ chunk).length : Int) - (p - buf) = (tail.length : Int) := by omega
  have some' : ((part ++ chunk).length : Int) > 0 := by omega
  unfold turn
  rw [advance_fits (by omega), stored]
  simp only [Option.bind_eq_bind, Option.bind_some, count]
  rw [advance_fits (by omega), ended]
  simp only [Option.bind_some, run, if_pos some', left_]
  rw [User.memmove_moving (by rw [Int.toNat_natCast]; omega) (by rw [Int.toNat_natCast]; omega),
    Int.toNat_natCast,
    moves, written]
  rfl

theorem grepLoop_spec (pattern : List UInt8) (positive : 0 < buf) (top : buf + BUFSIZE ≤ 2 ^ 64)
    (arrived : Nat → Nat) : ∀ (n : Nat) (input : List UInt8), input.length = n →
    ∀ (k : Nat) (mem : Memory)
    (part : List UInt8) (lines out : List (List UInt8)), (∀ l, l ∈ lines → Fits l) →
    Carried buf lines part input mem →
    grepLoop pattern buf arrived k mem part.length input out = some
      (out ++ matching pattern lines) := by
  intro n
  have size : BUFSIZE = 1024 := rfl
  induction n using Nat.strongRec with
  | ind n ih =>
      intro input length k mem part lines out all carried
      have short : part.length ≤ 1022 := by
        rcases lined_part carried.split carried.plain with none | ⟨l, mem, less⟩
        · rw [none]
          exact Nat.zero_le _
        · exact Nat.le_trans less (all l mem).short
      have space : (0 : Int) < BUFSIZE - part.length - 1 := by omega
      rw [grepLoop]
      by_cases none : (read (arrived k) (BUFSIZE - part.length - 1) input).1 = []
      · obtain ⟨ends, -⟩ := lined_ends carried.split carried.plain (read_nil space none)
        rw [if_pos none, ends]
        simp [matching]
      · have few := read_length (arrived k) (BUFSIZE - part.length - 1) input
        have fewer := read_shorter none
        rw [read_split (arrived k) (BUFSIZE - part.length - 1) input] at carried
        obtain ⟨mem', tail, done, left, run, lines', carried'⟩ :=
          turn_spec pattern positive top all carried none
          (by omega) out
        have later := ih _ (length ▸ fewer) _ rfl (k + 1) mem' tail left (out ++ matching pattern done)
          (fun l inside => all l (by rw [lines']; exact List.mem_append_right done inside)) carried'
        rw [if_neg none, run, Option.bind_some, later, lines', matching, matching, matching,
          List.filter_append,
          List.map_append, List.append_assoc]

/-- However the input arrives, `grep` writes the lines that match, whole and in order, and every byte
that it reads or writes is in the buffer. -/
theorem grep_lines (pattern : List UInt8) (arrived : Nat → Nat) (lines : List (List UInt8))
    (all : ∀ l, l ∈ lines → l.length ≤ 1022 ∧ 0 ∉ l ∧ newline ∉ l) (positive : 0 < buf)
    (top : buf + BUFSIZE ≤ 2 ^ 64) (spans : Spans mem buf (buf + BUFSIZE)) :
    grep pattern buf arrived mem (lined newline lines) =
      some ((lines.filter (match_ pattern)).map (· ++ [newline])) := by
  have fits : ∀ l, l ∈ lines → Fits l := fun l inside =>
    ⟨(all l inside).1, (all l inside).2.1, (all l inside).2.2⟩
  have run := grepLoop_spec pattern positive top arrived _ (lined newline lines) rfl 0 mem
    [] lines [] fits
    ⟨rfl, List.not_mem_nil, spans, holds_nil mem buf⟩
  exact run

def usedBuffer : Memory := fun a => if 16 ≤ a ∧ a < 16 + BUFSIZE then some 98 else none

/-- `a*b` in `aab`, `cc` and `b`, of which two bytes arrive at a time. -/
theorem grep_twos : grep [97, 42, 98] 16 (fun _ => 2) usedBuffer
    (lined newline [[97, 97, 98], [99, 99], [98]]) =
    some [[97, 97, 98, 10], [98, 10]] := by
  have spans : Spans usedBuffer 16 (16 + BUFSIZE) := by
    intro a
    unfold usedBuffer
    by_cases inside : 16 ≤ a ∧ a < 16 + BUFSIZE
    · rw [if_pos inside]
      exact ⟨fun _ => inside, fun _ => rfl⟩
    · rw [if_neg inside]
      exact ⟨by rintro ⟨⟩, fun yes => absurd yes inside⟩
  have matches_ : [[97, 97, 98], [99, 99], [98]].filter
    (match_ [97, 42, 98]) = [[97, 97, 98], [98]] := by
    simp [match_, matchLoop, matchhere, matchstar, caret, asterisk, dot, dollar]
  rw [grep_lines [97, 42, 98] (fun _ => 2) [[97, 97, 98], [99, 99], [98]] (by decide)
    (by decide) (by decide)
    spans, matches_]
  rfl

end Loop

end Xv6Fcfs.Grep
