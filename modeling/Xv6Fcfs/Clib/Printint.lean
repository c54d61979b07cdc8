import Xv6Fcfs.Lib.Bytes
import Xv6Fcfs.Lib.Numeral

/-!
# Numbers on the console (`kernel/printk.c`, `user/printf.c`)

`printint` writes the digits of a 64-bit number into `buf[20]`, lowest first, and sends them to
the console or to a file from the last to the first.  A store past the buffer is `none`.
-/

set_option autoImplicit false

namespace Xv6Fcfs.Clib

open Xv6Fcfs.Lib

/-! ## The functions of the source -/

abbrev Buf := Nat → Char

def BUFSIZE : Nat := 20

/-- `do { buf[i++] = digits[x % base]; } while((x /= base) != 0);` -/
def digitLoop (digits : List Char) (base : Nat) (buf : Buf) (i x : Nat) : Option (Buf × Nat) :=
  if i < BUFSIZE then
    match digits[x % base]? with
    | none => none
    | some c =>
        if x / base = 0 then some (upd buf i c, i + 1)
        else digitLoop digits base (upd buf i c) (i + 1) (x / base)
  else none
termination_by BUFSIZE - i

/-- The digits, and `-` behind them: `if(neg) buf[i++] = '-';` -/
def fill (digits : List Char) (base : Nat) (buf : Buf) (x : Nat) (neg : Bool) : Option (Buf × Nat) := do
  let (buf, i) ← digitLoop digits base buf 0 x
  if neg then
    if i < BUFSIZE then some (upd buf i '-', i + 1) else none
  else some (buf, i)

/-- `while(--i >= 0) putc(buf[i]);` -/
def emit (buf : Buf) : Nat → List Char
  | 0 => []
  | i + 1 => buf i :: emit buf i

namespace Kernel

def digits : List Char := "0123456789abcdef".toList

/-- The characters given to `consputc`; `junk` is what is in `buf` at the call. -/
def printint (junk : Buf) (xx : BitVec 64) (base : Nat) (sign : Int) : Option (List Char) := do
  let sign : Int := if sign ≠ 0 then (if xx.toInt < 0 then 1 else 0) else sign
  let x := if sign ≠ 0 then (-xx).toNat else xx.toNat
  let (buf, i) ← fill digits base junk x (sign ≠ 0)
  some (emit buf i)

end Kernel

namespace User

def digits : List Char := "0123456789ABCDEF".toList

/-- The `write` of one character to `fd` -/
def putc (fd : Int) (c : Char) : Int × Char := (fd, c)

def printint (junk : Buf) (fd : Int) (xx : BitVec 64) (base : Nat) (sgn : Int) :
    Option (List (Int × Char)) := do
  let (neg, x) := if sgn ≠ 0 ∧ xx.toInt < 0 then (true, (-xx).toNat) else (false, xx.toNat)
  let (buf, i) ← fill digits base junk x neg
  some ((emit buf i).map (putc fd))

end User

/-! ## Numerals -/

def digitVal (c : Char) : Option Nat :=
  if '0' ≤ c ∧ c ≤ '9' then some (c.toNat - '0'.toNat)
  else if 'a' ≤ c ∧ c ≤ 'f' then some (c.toNat - 'a'.toNat + 10)
  else if 'A' ≤ c ∧ c ≤ 'F' then some (c.toNat - 'A'.toNat + 10)
  else none

def digitIn (base : Nat) (c : Char) : Option Nat := (digitVal c).filter (· < base)

def readNat (base : Nat) (text : List Char) : Option Nat :=
  if text = [] then none else (text.mapM (digitIn base)).map (readDigits base)

def readInt (base : Nat) : List Char → Option Int
  | '-' :: text => (readNat base text).map fun n : Nat => -(n : Int)
  | text => (readNat base text).map fun n : Nat => (n : Int)

/-- An optional `-` before digits of which the first is not `0`, or `0` alone. -/
def Canonical (text : List Char) : Prop :=
  text = ['0'] ∨ ∃ c rest, c ≠ '0' ∧ c ≠ '-' ∧ (text = c :: rest ∨ text = '-' :: c :: rest)

/-- The text of `v` fits into the buffer, is canonical and reads back. -/
structure Prints (base : Nat) (v : Int) (text : List Char) : Prop where
  fits : text.length ≤ BUFSIZE
  canonical : Canonical text
  reads : readInt base text = some v

/-- A table of digits gives each digit of the base a character that reads back. -/
structure Table (digits : List Char) (base : Nat) : Prop where
  many : 1 < base
  reads : ∀ d, d < base → ∃ c, digits[d]? = some c ∧ digitVal c = some d ∧ c ≠ '-' ∧ (c = '0' ↔ d = 0)

/-! ## The loops -/

section Loops
variable {digits : List Char} {base : Nat} {buf buf' : Buf} {c : Char}

theorem emit_congr : ∀ i : Nat, (∀ j, j < i → buf j = buf' j) → emit buf i = emit buf' i := by
  intro i
  induction i with
  | zero => intro _; rfl
  | succ i ih =>
      intro same
      rw [emit, emit, same i (Nat.lt_succ_self i), ih fun j less => same j (Nat.lt_succ_of_lt less)]

theorem emit_upd (buf : Buf) (i : Nat) (c : Char) : emit (upd buf i c) (i + 1) = c :: emit buf i := by
  rw [emit, upd_self]
  congr 1
  exact emit_congr i fun j less => upd_of_ne (Nat.ne_of_lt less) c buf

def spelled (digits : List Char) (ds : List Nat) : List Char := ds.map fun d => digits.getD d '?'

theorem Table.char (table : Table digits base) {d : Nat} (less : d < base) :
    digits[d]? = some (digits.getD d '?') := by
  obtain ⟨c, entry, -⟩ := table.reads d less
  rw [List.getD_eq_getElem?_getD, entry]
  rfl

theorem digitLoop_spec (table : Table digits base) : ∀ (x i : Nat) (buf : Buf),
    i + (doDigits base x).length ≤ BUFSIZE → ∃ buf',
      digitLoop digits base buf i x = some (buf', i + (doDigits base x).length) ∧
      emit buf' (i + (doDigits base x).length) =
        (spelled digits (doDigits base x)).reverse ++ emit buf i := by
  intro x
  induction x using Nat.strongRec with
  | ind x ih =>
      intro i buf fits
      have digit := table.char (Nat.mod_lt x (Nat.lt_trans Nat.zero_lt_one table.many))
      have written : spelled digits (doDigits base x) = digits.getD (x % base) '?' ::
          spelled digits (if x / base = 0 then [] else doDigits base (x / base)) := by
        rw [doDigits_step table.many, spelled, List.map_cons, spelled]
      rw [written]
      rw [doDigits_step table.many, List.length_cons] at fits ⊢
      have room : i < BUFSIZE := by omega
      rw [digitLoop, if_pos room, digit]
      by_cases last : x / base = 0
      · rw [if_pos last]
        exact ⟨_, if_pos last, emit_upd buf i _⟩
      · rw [if_neg last] at fits ⊢
        have smaller : x / base < x := by
          refine Nat.div_lt_self ?_ table.many
          by_contra zero
          exact last (by rw [Nat.eq_zero_of_not_pos zero, Nat.zero_div])
        obtain ⟨buf', run, text⟩ := ih _ smaller (i + 1)
          (upd buf i (digits.getD (x % base) '?')) (by omega)
        have shift : i + ((doDigits base (x / base)).length + 1) =
            i + 1 + (doDigits base (x / base)).length := by omega
        refine ⟨buf', ?_, ?_⟩
        · simp only [if_neg last]
          rw [run, shift]
        · rw [shift, text, emit_upd, List.reverse_cons, List.append_assoc]
          rfl

def numeral (digits : List Char) (base x : Nat) (neg : Bool) : List Char :=
  (if neg then ['-'] else []) ++ (spelled digits (doDigits base x)).reverse

theorem numeral_length (digits : List Char) (base x : Nat) (neg : Bool) :
    (numeral digits base x neg).length = (doDigits base x).length + if neg then 1 else 0 := by
  cases neg <;> simp [numeral, spelled, Nat.add_comm]

theorem fill_spec (table : Table digits base) {x : Nat} {neg : Bool} (junk : Buf)
    (fits : (numeral digits base x neg).length ≤ BUFSIZE) : ∃ buf i,
      fill digits base junk x neg = some (buf, i) ∧ emit buf i = numeral digits base x neg := by
  rw [numeral_length] at fits
  obtain ⟨buf, run, text⟩ := digitLoop_spec table x 0 junk (by omega)
  rw [Nat.zero_add, emit, List.append_nil] at text
  rw [Nat.zero_add] at run
  cases neg with
  | false => exact ⟨buf, (doDigits base x).length, by simp [fill, run], by rw [text]; rfl⟩
  | true =>
      rw [if_pos rfl] at fits
      have room : (doDigits base x).length < BUFSIZE := by omega
      exact ⟨upd buf (doDigits base x).length '-', (doDigits base x).length + 1,
        by simp [fill, run, room], by rw [emit_upd, text]; rfl⟩

/-! ## The numeral -/

theorem digitIn_char (table : Table digits base) {d : Nat} (less : d < base) :
    digitIn base (digits.getD d '?') = some d := by
  obtain ⟨c, entry, reads, -⟩ := table.reads d less
  rw [table.char less, Option.some.injEq] at entry
  rw [entry, digitIn, reads, Option.filter_some, if_pos (by simpa using less)]

theorem mapM_spelled (table : Table digits base) : ∀ ds : List Nat, (∀ d, d ∈ ds → d < base) →
    (spelled digits ds).mapM (digitIn base) = some ds := by
  intro ds
  induction ds with
  | nil => intro _; rfl
  | cons d ds ih =>
      intro all
      rw [spelled, List.map_cons, List.mapM_cons, digitIn_char table (all d List.mem_cons_self)]
      have rest := ih fun e inside => all e (List.mem_cons_of_mem d inside)
      rw [spelled] at rest
      rw [rest]
      rfl

/-- The digits read back to the number, whose highest digit is `0` only for zero. -/
theorem spelled_reads (table : Table digits base) (x : Nat) : ∃ c rest,
    (spelled digits (doDigits base x)).reverse = c :: rest ∧ c ≠ '-' ∧
    (c = '0' → x = 0 ∧ rest = []) ∧ readNat base (c :: rest) = some x := by
  have reads : ∀ text, text = (spelled digits (doDigits base x)).reverse → text ≠ [] →
      readNat base text = some x := by
    rintro text rfl nonempty
    rw [readNat, if_neg nonempty, spelled, ← List.map_reverse, ← spelled,
      mapM_spelled table _ fun d inside =>
      doDigits_lt table.many (List.mem_reverse.mp inside), Option.map_some, readDigits_reverse,
        ofDigits_doDigits]
  rcases doDigits_highest table.many with ⟨zero, one⟩ | ⟨low, d, split, positive, less⟩
  · obtain ⟨c, entry, -, plain, -⟩ := table.reads 0 (Nat.lt_trans Nat.zero_lt_one table.many)
    have text : (spelled digits (doDigits base x)).reverse = [c] := by
      rw [one, spelled, List.map_singleton, List.reverse_singleton, List.getD_eq_getElem?_getD, entry,
        Option.getD_some]
    exact ⟨c, [], text, plain, fun _ => ⟨zero, rfl⟩, reads _ text.symm (List.cons_ne_nil _ _)⟩
  · obtain ⟨c, entry, -, plain, nul⟩ := table.reads d less
    have text : (spelled digits (doDigits base x)).reverse = c :: (spelled digits low).reverse := by
      rw [split, spelled, List.map_append, List.map_singleton, List.reverse_append,
        List.reverse_singleton,
        List.getD_eq_getElem?_getD, entry, Option.getD_some]
      rfl
    exact ⟨c, _, text, plain, fun is => absurd (nul.mp is) positive,
      reads _ text.symm (List.cons_ne_nil _ _)⟩

theorem readInt_plain {text : List Char} (plain : c ≠ '-') :
    readInt base (c :: text) = (readNat base (c :: text)).map fun n : Nat => (n : Int) := by
  unfold readInt
  split
  · next same => exact absurd (List.cons.inj same).1 plain
  · rfl

theorem numeral_prints (table : Table digits base) {x : Nat} {neg : Bool}
    (fits : (numeral digits base x neg).length ≤ BUFSIZE) (signed : neg = true → x ≠ 0) :
    Prints base (if neg then -(x : Int) else x) (numeral digits base x neg) := by
  obtain ⟨c, rest, text, plain, zero, reads⟩ := spelled_reads table x
  refine ⟨fits, ?_, ?_⟩
  · rw [numeral, text]
    by_cases isZero : c = '0'
    · obtain ⟨none, alone⟩ := zero isZero
      cases neg with
      | true => exact absurd none (signed rfl)
      | false =>
          rw [isZero, alone]
          exact Or.inl rfl
    · refine Or.inr ⟨c, rest, isZero, plain, ?_⟩
      cases neg with
      | true => exact Or.inr rfl
      | false => exact Or.inl rfl
  · rw [numeral, text]
    cases neg with
    | true =>
        simp only [if_true, List.singleton_append, readInt, reads, Option.map_some]
    | false =>
        simp only [Bool.false_eq_true, if_false, List.nil_append, readInt_plain plain, reads,
          Option.map_some]

end Loops

/-! ## The two functions -/

section Printing
variable {digits : List Char} {base : Nat} {xx : BitVec 64}

theorem table_of (bases : base = 10 ∨ base = 16) (all : ∀ d, d < 16 → (digits[d]?.any fun c =>
    digitVal c = some d ∧ c ≠ '-' ∧ (c = '0' ↔ d = 0)) = true) : Table digits base := by
  refine ⟨by omega, fun d less => ?_⟩
  obtain ⟨c, entry, reads⟩ := Option.any_eq_true _ _ |>.mp (all d (by omega))
  exact ⟨c, entry, of_decide_eq_true reads⟩

theorem magnitude (negative : xx.toInt < 0) :
    -((-xx).toNat : Int) = xx.toInt ∧ (-xx).toNat ≤ 2 ^ 63 ∧ (-xx).toNat ≠ 0 := by
  have word := xx.isLt
  rw [BitVec.toInt_eq_toNat_cond] at negative ⊢
  rw [BitVec.toNat_neg]
  split at negative <;> omega

theorem toInt_nonneg (positive : ¬ xx.toInt < 0) : (xx.toNat : Int) = xx.toInt := by
  have word := xx.isLt
  rw [BitVec.toInt_eq_toNat_cond] at positive ⊢
  split at positive <;> omega

/-- Nineteen digits are enough for a magnitude of a signed number and twenty for every number. -/
theorem numeral_fits (bases : base = 10 ∨ base = 16) {x : Nat} {neg : Bool} (word : x < 2 ^ 64)
    (signed : neg = true → x ≤ 2 ^ 63) : (numeral digits base x neg).length ≤ BUFSIZE := by
  have many : 1 < base := by omega
  have length : BUFSIZE = 20 := rfl
  rw [numeral_length]
  cases neg with
  | false =>
      have digits : (doDigits base x).length ≤ 20 := by
        refine doDigits_length many (by decide) (Nat.lt_of_lt_of_le word ?_)
        exact Nat.le_trans (by decide) (Nat.pow_le_pow_left (show 10 ≤ base by omega) 20)
      simpa [length] using digits
  | true =>
      have digits : (doDigits base x).length ≤ 19 := by
        refine doDigits_length many (by decide) (Nat.lt_of_le_of_lt (signed rfl) ?_)
        exact Nat.lt_of_lt_of_le (by decide) (Nat.pow_le_pow_left (show 10 ≤ base by omega) 19)
      simp only [if_true, length]
      omega

def shown (xx : BitVec 64) (sign : Int) : Int := if sign ≠ 0 then xx.toInt else xx.toNat

def Splits (xx : BitVec 64) (sign : Int) (x : Nat) (neg : Bool) : Prop :=
  sign ≠ 0 ∧ xx.toInt < 0 ∧ neg = true ∧ x = (-xx).toNat ∨
    (sign = 0 ∨ ¬ xx.toInt < 0) ∧ neg = false ∧ x = xx.toNat

theorem splits_of (xx : BitVec 64) (sign : Int) : ∃ x neg, Splits xx sign x neg := by
  by_cases negative : sign ≠ 0 ∧ xx.toInt < 0
  · exact ⟨_, _, Or.inl ⟨negative.1, negative.2, rfl, rfl⟩⟩
  · exact ⟨_, _, Or.inr ⟨by tauto, rfl, rfl⟩⟩

theorem fill_prints (bases : base = 10 ∨ base = 16) (table : Table digits base)
    {sign : Int} (junk : Buf)
    {x : Nat} {neg : Bool} (splits : Splits xx sign x neg) :
    ∃ buf i, fill digits base junk x neg = some (buf, i) ∧
      Prints base (shown xx sign) (emit buf i) := by
  have word := xx.isLt
  rcases splits with ⟨signed, negative, rfl, rfl⟩ | ⟨unsigned, rfl, rfl⟩
  · obtain ⟨value, small, nonzero⟩ := magnitude negative
    have fits := @numeral_fits digits base bases (-xx).toNat true (-xx).isLt fun _ => small
    obtain ⟨buf, i, run, text⟩ := fill_spec table junk fits
    refine ⟨buf, i, run, ?_⟩
    have prints := numeral_prints table fits fun _ => nonzero
    rwa [if_pos rfl, value, ← text, ← show shown xx sign = xx.toInt from if_pos signed] at prints
  · have fits := @numeral_fits digits base bases xx.toNat false word fun no =>
      absurd no Bool.false_ne_true
    obtain ⟨buf, i, run, text⟩ := fill_spec table junk fits
    have value : shown xx sign = xx.toNat := by
      unfold shown
      rcases unsigned with zero | positive
      · rw [if_neg fun no => no zero]
      · rw [toInt_nonneg positive, ite_self]
    have prints := numeral_prints table fits fun no => absurd no Bool.false_ne_true
    rw [if_neg Bool.false_ne_true, ← value, ← text] at prints
    exact ⟨buf, i, run, prints⟩

theorem Kernel.printint_fill {junk : Buf} {sign : Int} {x : Nat} {neg : Bool}
    (splits : Splits xx sign x neg) :
    Kernel.printint junk xx base sign =
      (fill Kernel.digits base junk x neg).bind fun r => some (emit r.1 r.2) := by
  unfold Kernel.printint
  rcases splits with ⟨signed, negative, rfl, rfl⟩ | ⟨zero | positive, rfl, rfl⟩
  · simp only [signed, negative, ne_eq, not_false_eq_true, if_true, one_ne_zero, decide_true]
    rfl
  · simp only [zero, ne_eq, not_true_eq_false, if_false, decide_false]
    rfl
  · have unsigned : (if sign ≠ 0 then (if xx.toInt < 0 then 1 else 0) else sign : Int) = 0 := by
      rw [if_neg positive]
      split <;> tauto
    simp only [unsigned]
    rfl

theorem User.printint_fill {junk : Buf} {fd sgn : Int} {x : Nat} {neg : Bool}
    (splits : Splits xx sgn x neg) :
    User.printint junk fd xx base sgn =
      (fill User.digits base junk x neg).bind fun r => some ((emit r.1 r.2).map (User.putc fd)) := by
  unfold User.printint
  rcases splits with ⟨signed, negative, rfl, rfl⟩ | ⟨plain, rfl, rfl⟩
  · rw [if_pos ⟨signed, negative⟩]
    rfl
  · rw [if_neg fun both => plain.elim both.1 fun positive => positive both.2]
    rfl

/-- Every 64-bit number is printed within the buffer, by the kernel and by the user library. -/
theorem printint_canonical (junk : Buf) (fd : Int) (xx : BitVec 64) (sign : Int) {base : Nat}
    (bases : base = 10 ∨ base = 16) :
    (∃ text, Kernel.printint junk xx base sign = some text ∧ Prints base (shown xx sign) text) ∧
    (∃ text, User.printint junk fd xx base sign = some (text.map (User.putc fd)) ∧
      Prints base (shown xx sign) text) := by
  have kernel := table_of bases (show ∀ d, d < 16 → (Kernel.digits[d]?.any _) = true by decide)
  have user := table_of bases (show ∀ d, d < 16 → (User.digits[d]?.any _) = true by decide)
  obtain ⟨x, neg, splits⟩ := splits_of xx sign
  obtain ⟨buf, i, run, prints⟩ := fill_prints bases kernel junk splits
  obtain ⟨buf', i', run', prints'⟩ := fill_prints bases user junk splits
  refine ⟨⟨_, ?_, prints⟩, ⟨_, ?_, prints'⟩⟩
  · rw [Kernel.printint_fill splits, run, Option.bind_some]
  · rw [User.printint_fill splits, run', Option.bind_some]

/-- The most negative number fills the buffer. -/
theorem printint_extreme :
    (∃ text, Kernel.printint (fun _ => ' ') (BitVec.ofNat 64 (2 ^ 63)) 10 1 = some text ∧
      Prints 10 (-2 ^ 63) text) ∧
    Kernel.printint (fun _ => ' ') (BitVec.ofNat 64 (2 ^ 63)) 10 1 =
      some "-9223372036854775808".toList ∧ "-9223372036854775808".length = BUFSIZE :=
  ⟨(printint_canonical (fun _ => ' ') 1 (BitVec.ofNat 64 (2 ^ 63)) 1 (Or.inl rfl)).1,
    by decide +kernel, by decide⟩

end Printing

end Xv6Fcfs.Clib
