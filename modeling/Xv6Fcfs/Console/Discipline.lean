import Xv6Fcfs.Console.Model

/-!
# The line discipline of the console

A line is edited until it is committed; what has been committed is read once, in order.  The
ring behind `cons.r` holds the committed bytes that nobody has read, then the line under the
cursor, whatever the three indices have wrapped to.
-/

set_option autoImplicit false

namespace Xv6Fcfs.Console

open Xv6Fcfs.Lib

/-! ## What the keys do -/

/-- All bytes committed so far, and the line being edited. -/
structure Line where
  committed : List UInt8
  edit : List UInt8

/-- The key `b` is pressed when `taken` of the committed bytes have been read. -/
def Line.type (line : Line) (taken : Nat) (b : UInt8) : Line :=
  if b = ctrl 'P' ∨ b = 0 then line
  else if b = ctrl 'U' then { line with edit := [] }
  else if b = ctrl 'H' ∨ b = delete then { line with edit := line.edit.dropLast }
  else
    let pending := line.committed.length - taken + line.edit.length
    let b := if b = carriageReturn then newline else b
    if pending = INPUT_BUF_SIZE then line
    else if b = newline ∨ b = ctrl 'D' ∨ pending + 1 = INPUT_BUF_SIZE then
      ⟨line.committed ++ (line.edit ++ [b]), []⟩
    else { line with edit := line.edit ++ [b] }

/-! ## The ring -/

/-- The ring holds the committed bytes `ready`, which nobody has read, and then `edit`. -/
structure Holds (c : Cons) (ready edit : List UInt8) : Prop where
  queue : Queued (2 ^ 32) c.buf c.r c.e (ready ++ edit)
  write : c.w = wrap32 (c.r + ready.length)
  stream : c.committed = c.taken.map Taken.byte ++ ready
  plain : newline ∉ edit

theorem size_divides : INPUT_BUF_SIZE ∣ 2 ^ 32 := by decide

theorem minus32_eq {x y : Nat} (small : x < 2 ^ 32) (less : y < 2 ^ 32) :
    minus32 x y = (x + 2 ^ 32 - y) % 2 ^ 32 := by
  unfold minus32
  split <;> omega

section Ring
variable {c : Cons} {ready edit : List UInt8}

theorem Holds.bounds (holds : Holds c ready edit) :
    ready.length + edit.length ≤ 128 ∧ c.r < 2 ^ 32 ∧
      c.e = (c.r + ready.length + edit.length) % 2 ^ 32 ∧
      c.w = (c.r + ready.length) % 2 ^ 32 := by
  have short := holds.queue.short
  have count := holds.queue.count
  rw [List.length_append] at short count
  refine ⟨short, holds.queue.low, ?_, holds.write⟩
  rw [count, Nat.add_assoc]

theorem Holds.distances (holds : Holds c ready edit) : minus32 c.w c.r = ready.length ∧
    minus32 c.e c.w = edit.length ∧ minus32 c.e c.r = ready.length + edit.length := by
  obtain ⟨short, low, end', write⟩ := holds.bounds
  have last : c.e < 2 ^ 32 := by omega
  have middle : c.w < 2 ^ 32 := by omega
  rw [minus32_eq middle low, minus32_eq last middle, minus32_eq last low]
  refine ⟨?_, ?_, ?_⟩ <;> omega

theorem edited_of_queue (queue : Queued (2 ^ 32) c.buf c.r c.e (ready ++ edit))
    (write : c.w = wrap32 (c.r + ready.length)) : c.edited = edit := by
  have length : minus32 c.e c.w = edit.length := by
    have short := queue.short
    have low := queue.low
    have count := queue.count
    rw [List.length_append] at short count
    have size : INPUT_BUF_SIZE = 128 := rfl
    rw [size] at short
    unfold wrap32 at write
    rw [minus32_eq (by omega) (by omega)]
    omega
  unfold Cons.edited
  rw [length]
  refine List.ext_getElem (by simp) ?_
  intro j within inside
  have found : (ready ++ edit)[ready.length + j]? = some edit[j] := by
    rw [List.getElem?_append_right (by omega), Nat.add_sub_cancel_left]
    exact List.getElem?_eq_getElem inside
  have entry := queue.entries (ready.length + j) edit[j] found
  rw [List.getElem_map, List.getElem_range]
  unfold Cons.byteAt
  rw [← entry, write, wrap32, ← ofNat_mod size_divides, Nat.mod_add_mod, ofNat_mod size_divides,
    Nat.add_assoc]

theorem Holds.edited (holds : Holds c ready edit) : c.edited = edit :=
  edited_of_queue holds.queue holds.write

theorem Holds.ready_eq (holds : Holds c ready edit) : c.ready = ready := by
  unfold Cons.ready
  rw [holds.distances.1]
  refine List.ext_getElem (by simp) ?_
  intro j within inside
  have found : (ready ++ edit)[j]? = some ready[j] := by
    rw [List.getElem?_append_left inside]
    exact List.getElem?_eq_getElem inside
  rw [List.getElem_map, List.getElem_range]
  exact holds.queue.entries j ready[j] found

theorem Holds.some_edited (holds : Holds c ready edit) : c.e ≠ c.w ↔ edit ≠ [] := by
  obtain ⟨short, low, end', write⟩ := holds.bounds
  rw [← List.length_pos_iff]
  omega

theorem Holds.some_ready (holds : Holds c ready edit) : c.r = c.w ↔ ready = [] := by
  obtain ⟨short, low, end', write⟩ := holds.bounds
  rw [← List.length_eq_zero_iff]
  omega

theorem Holds.erase {b : UInt8} (holds : Holds c ready (edit ++ [b])) :
    c.byteAt (minus32 c.e 1) = b ∧ Holds c.erase ready edit := by
  have queue := holds.queue
  obtain ⟨-, -, last, -⟩ := holds.bounds
  rw [← List.append_assoc] at queue
  have back : minus32 c.e 1 = (c.e + 2 ^ 32 - 1) % 2 ^ 32 := minus32_eq (by omega) (by decide)
  have ends := queue.last size_divides (Nat.two_pow_pos 32)
  rw [← back] at ends
  refine ⟨ends.1, ends.2, holds.write, holds.stream, ?_⟩
  exact fun inside => holds.plain (List.mem_append_left _ inside)

/-- The loop at `C('U')` ends because the line is empty, never for want of turns. -/
theorem killLine_holds : ∀ (k : Nat) (c : Cons) (edit : List UInt8), Holds c ready edit →
    k = edit.length → Holds (killLine k c) ready [] ∧ (killLine k c).committed = c.committed ∧
      (killLine k c).taken = c.taken ∧ (killLine k c).r = c.r := by
  intro k
  induction k with
  | zero =>
      intro c edit holds length
      obtain rfl := List.length_eq_zero_iff.mp length.symm
      exact ⟨holds, rfl, rfl, rfl⟩
  | succ k ih =>
      intro c edit holds length
      obtain ⟨front, b, rfl⟩ := (List.eq_nil_or_concat' edit).resolve_left
        (by rintro rfl; simp at length)
      obtain ⟨last, rest⟩ := holds.erase
      have more : c.e ≠ c.w ∧ c.byteAt (minus32 c.e 1) ≠ newline := by
        refine ⟨holds.some_edited.mpr (by simp), ?_⟩
        rw [last]
        rintro rfl
        exact holds.plain (by simp)
      rw [killLine, if_pos more]
      exact ih c.erase front rest (by simpa using length)

theorem Holds.store (holds : Holds c ready edit) (room : ready.length + edit.length < 128) (b : UInt8) :
    Queued (2 ^ 32) (c.store b).buf c.r (c.store b).e (ready ++ (edit ++ [b])) := by
  rw [← List.append_assoc]
  refine holds.queue.push size_divides ?_ b
  rw [List.length_append]
  exact room

theorem minus32_lt (holds : Holds c ready edit) :
    minus32 c.e c.r < INPUT_BUF_SIZE ↔ ready.length + edit.length < 128 := by
  rw [holds.distances.2.2]
  exact Iff.rfl

end Ring

/-! ## A key -/

section Keys
variable {c : Cons} {ready edit : List UInt8}

/-- What a key does to `cons` is what it does to the line. -/
structure Typed (c c' : Cons) (line : Line) : Prop where
  holds : ∃ ready, Holds c' ready line.edit
  committed : c'.committed = line.committed
  taken : c'.taken = c.taken

theorem Holds.pending (holds : Holds c ready edit) :
    c.committed.length - c.taken.length + edit.length = ready.length + edit.length := by
  rw [holds.stream, List.length_append, List.length_map, Nat.add_sub_cancel_left]

theorem store_typed (holds : Holds c ready edit) (b : UInt8)
    (room : ready.length + edit.length < 128) :
    Typed c
      (if b = newline ∨ b = ctrl 'D' ∨ minus32 (c.store b).e (c.store b).r = INPUT_BUF_SIZE
        then (c.store b).commit else c.store b)
      (if b = newline ∨ b = ctrl 'D' ∨ ready.length + edit.length + 1 = INPUT_BUF_SIZE
        then ⟨c.committed ++ (edit ++ [b]), []⟩ else ⟨c.committed, edit ++ [b]⟩) := by
  have queue := holds.store room b
  obtain ⟨short, low, end', write⟩ := holds.bounds
  have fills : minus32 (c.store b).e (c.store b).r = ready.length + edit.length + 1 := by
    have count := queue.count
    simp only [List.length_append, List.length_singleton] at count
    show minus32 (c.store b).e c.r = _
    rw [minus32_eq (by omega) low]
    omega
  have bytes : (c.store b).edited = edit ++ [b] := edited_of_queue queue holds.write
  rw [fills]
  split
  next ends =>
    refine ⟨⟨ready ++ (edit ++ [b]), ?_, ?_, ?_, List.not_mem_nil⟩, ?_, rfl⟩
    · rw [List.append_nil]
      exact queue
    · exact queue.count
    · show c.committed ++ (c.store b).edited = _
      rw [bytes, holds.stream, List.append_assoc]
      rfl
    · show c.committed ++ (c.store b).edited = _
      rw [bytes]
  next goes =>
    refine ⟨⟨ready, queue, holds.write, holds.stream, ?_⟩, rfl, rfl⟩
    rw [List.mem_append, List.mem_singleton, not_or]
    exact ⟨holds.plain, fun same => goes (Or.inl same.symm)⟩

theorem input_typed (holds : Holds c ready edit) (b : UInt8) :
    Typed c (c.input b).1 (Line.type ⟨c.committed, edit⟩ c.taken.length b) := by
  have same : Typed c c ⟨c.committed, edit⟩ := ⟨⟨ready, holds⟩, rfl, rfl⟩
  obtain ⟨short, -, -, -⟩ := holds.bounds
  unfold Cons.input Line.type
  by_cases print : b = ctrl 'P'
  · rw [if_pos print, if_pos (Or.inl print)]
    exact same
  rw [if_neg print]
  by_cases nul : b = 0
  · subst nul
    rw [if_neg (by decide), if_neg (by decide), if_pos (Or.inr rfl), if_neg (fun no => no.1 rfl)]
    exact same
  rw [if_neg (not_or.mpr ⟨print, nul⟩)]
  by_cases kill : b = ctrl 'U'
  · rw [if_pos kill, if_pos kill]
    have emptied := killLine_holds (minus32 c.e c.w) c edit holds holds.distances.2.1
    exact ⟨⟨ready, emptied.1⟩, emptied.2.1, emptied.2.2.1⟩
  rw [if_neg kill, if_neg kill]
  by_cases back : b = ctrl 'H' ∨ b = delete
  · rw [if_pos back, if_pos back]
    rcases List.eq_nil_or_concat' edit with rfl | ⟨front, x, rfl⟩
    · rw [if_neg (fun some => holds.some_edited.mp some rfl)]
      exact same
    · rw [if_pos (holds.some_edited.mpr (by simp))]
      rw [List.dropLast_concat]
      exact ⟨⟨ready, holds.erase.2⟩, rfl, rfl⟩
  rw [if_neg back, if_neg back]
  simp only [holds.pending]
  by_cases room : ready.length + edit.length < 128
  · rw [if_pos ⟨nul, (minus32_lt holds).mpr room⟩,
      if_neg (show ready.length + edit.length ≠ INPUT_BUF_SIZE from Nat.ne_of_lt room)]
    rw [apply_ite Prod.fst]
    exact store_typed holds (if b = carriageReturn then newline else b) room
  · have full : ready.length + edit.length = INPUT_BUF_SIZE :=
      Nat.le_antisymm short (Nat.le_of_not_lt room)
    rw [if_neg (fun both => room ((minus32_lt holds).mp both.2)), if_pos full]
    exact same

end Keys

/-! ## A read -/

/-- How `consoleread` leaves its loop, with `left` bytes missing, after it has copied `data`;
the last argument lists what it took and copied nowhere. -/
inductive Ended (k : Call) (killed : Bool) (left : Nat) (got data : List UInt8) :
    Outcome → List UInt8 → Prop
  | slept (some : 0 < left) (plain : newline ∉ data) :
      Ended k killed left got data (.sleep { k with n := left, got := got }) []
  | killed (dead : killed = true) (some : 0 < left) (plain : newline ∉ data) :
      Ended k killed left got data (.ret got (-1)) []
  | whole (none : left = 0) (plain : newline ∉ data) :
      Ended k killed left got data (.ret got (k.target - left)) []
  | line (front : List UInt8) (last : data = front ++ [newline]) (plain : newline ∉ front) :
      Ended k killed left got data (.ret got (k.target - left)) []
  | eof (first : left = k.target) (some : 0 < left) (plain : newline ∉ data) :
      Ended k killed left got data (.ret got (k.target - left)) [ctrl 'D']
  | later (before : left < k.target) (some : 0 < left) (plain : newline ∉ data) :
      Ended k killed left got data (.ret got (k.target - left)) []
  | fault (b : UInt8) (datum : b ≠ ctrl 'D') (bad : k.dst (k.target - left) = false)
      (some : 0 < left) (plain : newline ∉ data) :
      Ended k killed left got data (.ret got (k.target - left)) [b]

section Reads
variable {k : Call} {killed : Bool} {left : Nat} {got data : List UInt8} {out : Outcome}
  {lost : List UInt8} {b : UInt8}

theorem Ended.cons (ended : Ended k killed left got data out lost) (other : b ≠ newline) :
    Ended k killed left got (b :: data) out lost := by
  have plain : newline ∉ data → newline ∉ b :: data := by
    intro plain inside
    rcases List.mem_cons.mp inside with same | rest
    · exact other same.symm
    · exact plain rest
  cases ended with
  | slept some clean => exact .slept some (plain clean)
  | killed dead some clean => exact .killed dead some (plain clean)
  | whole none clean => exact .whole none (plain clean)
  | line front last clean =>
      refine .line (b :: front) (by rw [last]; rfl) ?_
      intro inside
      rcases List.mem_cons.mp inside with same | rest
      · exact other same.symm
      · exact clean rest
  | eof first some clean => exact .eof first some (plain clean)
  | later before some clean => exact .later before some (plain clean)
  | fault x datum bad some clean => exact .fault x datum bad some (plain clean)

/-- The data that a read of `n` bytes is after: up to a newline or in front of an end of file. -/
def wanted : Nat → List UInt8 → List UInt8
  | 0, _ => []
  | _ + 1, [] => []
  | n + 1, b :: l => if b = ctrl 'D' then [] else if b = newline then [b] else b :: wanted n l

/-- The bytes of `l`, as taken by the call. -/
def Call.takes (k : Call) (l : List UInt8) : List Taken := l.map (Taken.mk k.id)

/-- What the loop does between two returns of the lock: it copies `data` and takes `lost`. -/
structure Reads (k : Call) (killed : Bool) (n : Nat) (got : List UInt8) (c c' : Cons)
    (ready edit : List UInt8) (out : Outcome) (data lost : List UInt8) : Prop where
  holds : ∃ ready, Holds c' ready edit
  committed : c'.committed = c.committed
  taken : c'.taken = c.taken ++ k.takes (data ++ lost)
  length : data.length ≤ n
  bytes : ctrl 'D' ∉ data
  stored : ∀ j, j < data.length → k.dst (k.target - n + j) = true
  ended : Ended k killed (n - data.length) (got ++ data) data out lost
  all : (∀ b ∈ lost, b = ctrl 'D') → wanted n ready = data
  more : (∃ b ∈ lost, b ≠ ctrl 'D') → data.length < (wanted n ready).length

section Ring
variable {c : Cons} {ready edit : List UInt8}

theorem Holds.take (holds : Holds c (b :: ready) edit) (id : Nat) :
    c.byteAt c.r = b ∧ Holds (c.take id) ready edit ∧ (c.take id).taken = c.taken ++ [⟨id, b⟩] := by
  have first : c.byteAt c.r = b := holds.queue.first
  refine ⟨first, ⟨holds.queue.pop size_divides, ?_, ?_, holds.plain⟩, ?_⟩
  · show c.w = wrap32 (wrap32 (c.r + 1) + ready.length)
    rw [holds.write, wrap32, wrap32, wrap32, List.length_cons]
    omega
  · show c.committed = (c.taken ++ [Taken.mk id (c.byteAt c.r)]).map Taken.byte ++ ready
    rw [holds.stream, first, List.map_append, List.append_assoc]
    rfl
  · rw [← first]
    rfl

theorem Holds.putBack (holds : Holds c ready edit) (id : Nat) : (c.take id).putBack = c := by
  have low := holds.queue.low
  have index : minus32 (wrap32 (c.r + 1)) 1 = c.r := by
    have small : wrap32 (c.r + 1) < 2 ^ 32 := Nat.mod_lt _ (Nat.two_pow_pos 32)
    rw [minus32_eq small (by decide)]
    unfold wrap32
    omega
  simp only [Cons.putBack, Cons.take, index, List.dropLast_concat]

theorem Reads.stop (holds : Holds c ready edit) {n : Nat} (ended : Ended k killed n got [] out [])
    (none : wanted n ready = []) : Reads k killed n got c c ready edit out [] [] where
  holds := ⟨ready, holds⟩
  committed := rfl
  taken := (List.append_nil _).symm
  length := Nat.zero_le n
  bytes := List.not_mem_nil
  stored := fun _ less => absurd less (Nat.not_lt_zero _)
  ended := by
    rw [List.append_nil]
    exact ended
  all := fun _ => none
  more := fun ⟨_, no, _⟩ => absurd no List.not_mem_nil

end Ring

theorem readLoop_reads (k : Call) (killed : Bool) (edit : List UInt8) :
    ∀ (n : Nat) (got : List UInt8) (c : Cons) (ready : List UInt8), n ≤ k.target → Holds c ready edit →
      ∃ data lost, Reads k killed n got c (readLoop k killed n got c).2 ready edit
        (readLoop k killed n got c).1 data lost := by
  intro n
  induction n with
  | zero =>
      intro got c ready _ holds
      have ended : Ended k killed 0 got [] (.ret got (k.target - (0 : Nat))) [] :=
        .whole rfl List.not_mem_nil
      rw [Int.natCast_zero, Int.sub_zero] at ended
      exact ⟨[], [], Reads.stop holds ended rfl⟩
  | succ n ih =>
      intro got c ready within holds
      rw [readLoop]
      by_cases empty : c.r = c.w
      · rw [if_pos empty]
        have nothing : wanted (n + 1) ready = [] := by
          rw [holds.some_ready.mp empty]
          rfl
        cases killed with
        | true => exact ⟨[], [], Reads.stop holds
            (.killed rfl (Nat.succ_pos n) List.not_mem_nil) nothing⟩
        | false => exact ⟨[], [], Reads.stop holds (.slept (Nat.succ_pos n) List.not_mem_nil) nothing⟩
      rw [if_neg empty]
      cases ready with
      | nil => exact absurd (holds.some_ready.mpr rfl) empty
      | cons b ready =>
          obtain ⟨first, next, entry⟩ := holds.take k.id
          have never : ∀ j, j < ([] : List UInt8).length → k.dst (k.target - (n + 1) + j) = true :=
            fun _ less => absurd less (Nat.not_lt_zero _)
          simp only [first]
          by_cases eof : b = ctrl 'D'
          · rw [if_pos eof]
            have nothing : wanted (n + 1) (b :: ready) = [] := by rw [wanted, if_pos eof]
            by_cases later : n + 1 < k.target
            · rw [if_pos later, holds.putBack]
              exact ⟨[], [], Reads.stop holds (.later later (Nat.succ_pos n) List.not_mem_nil) nothing⟩
            · rw [if_neg later]
              refine ⟨[], [ctrl 'D'], ⟨ready, next⟩, rfl, ?_, Nat.zero_le _,
                List.not_mem_nil, never, ?_,
                fun _ => nothing, ?_⟩
              · rw [entry, eof]
                rfl
              · rw [List.append_nil]
                exact .eof (by simp; omega) (Nat.succ_pos n) List.not_mem_nil
              · rintro ⟨x, inside, differ⟩
                exact absurd (List.mem_singleton.mp inside) differ
          rw [if_neg eof]
          cases good : k.dst (k.target - (n + 1)) with
          | false =>
              refine ⟨[], [b], ⟨ready, next⟩, rfl, entry, Nat.zero_le _, List.not_mem_nil,
                never, ?_, ?_, ?_⟩
              · rw [List.append_nil]
                exact .fault b eof good (Nat.succ_pos n) List.not_mem_nil
              · exact fun only => absurd (only b (List.mem_singleton.mpr rfl)) eof
              · intro _
                rw [wanted, if_neg eof]
                split <;> exact Nat.succ_pos _
          | true =>
              by_cases last : b = newline
              · rw [if_pos rfl, if_pos last]
                refine ⟨[b], [], ⟨ready, next⟩, rfl, entry, by simp, ?_, ?_, ?_, ?_, ?_⟩
                · simpa using Ne.symm eof
                · intro j less
                  obtain rfl : j = 0 := by simpa using less
                  exact good
                · exact .line [] (by rw [last]; rfl) List.not_mem_nil
                · intro _
                  rw [wanted, if_neg eof, if_pos last]
                · rintro ⟨x, inside, -⟩
                  exact absurd inside List.not_mem_nil
              · rw [if_pos rfl, if_neg last]
                obtain ⟨data, lost, rest⟩ := ih (got ++ [b]) (c.take k.id) ready (by omega) next
                have wants : wanted (n + 1) (b :: ready) = b :: wanted n ready := by
                  rw [wanted, if_neg eof, if_neg last]
                refine ⟨b :: data, lost, rest.holds, rest.committed, ?_, ?_, ?_, ?_, ?_, ?_, ?_⟩
                · rw [rest.taken, entry, List.append_assoc]
                  rfl
                · have length := rest.length
                  simpa using length
                · rw [List.mem_cons, not_or]
                  exact ⟨Ne.symm eof, rest.bytes⟩
                · intro j less
                  cases j with
                  | zero => exact good
                  | succ j =>
                      have stored := rest.stored j (by simpa using less)
                      rw [show k.target - (n + 1) + (j + 1) = k.target - n + j by omega]
                      exact stored
                · have ended := rest.ended.cons last
                  rw [List.append_assoc] at ended
                  rw [List.length_cons, Nat.add_sub_add_right]
                  exact ended
                · intro only
                  rw [wants, rest.all only]
                · intro some
                  rw [wants]
                  exact Nat.succ_lt_succ (rest.more some)

end Reads

end Xv6Fcfs.Console
