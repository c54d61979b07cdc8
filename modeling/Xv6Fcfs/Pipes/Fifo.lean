import Xv6Fcfs.Pipes.Model

/-!
# A pipe delivers what was stored, in order

The ring between the two counters is a queue, whatever the counters have wrapped to; a byte
enters it when a writer stores it and leaves it when a reader has copied it out.
-/

set_option autoImplicit false

namespace Xv6Fcfs.Pipes

open Xv6Fcfs.Lib

def Fifo (pi : Pipe) : Prop :=
  ∃ l, pi.stored = pi.delivered ++ l ∧ Queued (2 ^ 32) pi.data pi.nread pi.nwrite l

theorem pipesize_divides : PIPESIZE ∣ 2 ^ 32 := by decide

theorem pipesize_less : PIPESIZE < 2 ^ 32 := by decide

section Ring
variable {pi : Pipe}

theorem full_iff {l : List UInt8} (queue : Queued (2 ^ 32) pi.data pi.nread pi.nwrite l) :
    pi.full ↔ l.length = PIPESIZE := by
  have short := queue.short
  have low := queue.low
  have count := queue.count
  have size : PIPESIZE = 512 := rfl
  unfold Pipe.full wrap32
  rw [size] at short ⊢
  omega

theorem Fifo.put (fifo : Fifo pi) (room : ¬ pi.full) (ch : UInt8) : Fifo (pi.put ch) := by
  obtain ⟨l, bytes, queue⟩ := fifo
  have less : l.length < PIPESIZE := by
    have short := queue.short
    have more := (full_iff queue).not.mp room
    omega
  refine ⟨l ++ [ch], ?_, queue.push pipesize_divides less ch⟩
  simp only [Pipe.put, bytes, List.append_assoc]

theorem Fifo.take (fifo : Fifo pi) (some : ¬ pi.empty) : Fifo pi.take := by
  obtain ⟨l, bytes, queue⟩ := fifo
  cases l with
  | nil => exact absurd ((queue.empty_iff pipesize_less).mpr rfl) some
  | cons a rest =>
      refine ⟨rest, ?_, queue.pop pipesize_divides⟩
      have first : pi.next = a := queue.first
      simp only [Pipe.take, bytes, first, List.append_assoc, List.singleton_append]

theorem copyLoop_pos (dst : Nat → Bool) : ∀ (k i : Nat) (pi : Pipe),
    0 ≤ (copyLoop dst k (i + 1) pi).1 := by
  intro k
  induction k with
  | zero => intro i pi; exact Int.natCast_nonneg _
  | succ k ih =>
      intro i pi
      rw [copyLoop]
      split
      · exact Int.natCast_nonneg _
      · split
        · exact ih (i + 1) pi.take
        · rw [if_neg (by omega)]
          exact Int.natCast_nonneg _

structure Copied (i : Nat) (pi : Pipe) (r : Int) (pi' : Pipe) : Prop where
  fifo : Fifo pi'
  ends : pi'.readopen = pi.readopen ∧ pi'.writeopen = pi.writeopen
  stored : pi'.stored = pi.stored
  amount : (0 ≤ r → (i : Int) + (pi'.delivered.length - pi.delivered.length : Nat) = r) ∧
    (r < 0 → r = -1 ∧ pi' = pi)
  grows : pi.delivered.length ≤ pi'.delivered.length

theorem copyLoop_spec (dst : Nat → Bool) : ∀ (k i : Nat) (pi : Pipe), Fifo pi →
    Copied i pi (copyLoop dst k i pi).1 (copyLoop dst k i pi).2 := by
  have stop : ∀ (i : Nat) (pi : Pipe), Fifo pi → Copied i pi i pi := fun i pi fifo =>
    ⟨fifo, ⟨rfl, rfl⟩, rfl, ⟨fun _ => by omega, fun neg => by omega⟩, Nat.le_refl _⟩
  intro k
  induction k with
  | zero => exact fun i pi fifo => stop i pi fifo
  | succ k ih =>
      intro i pi fifo
      rw [copyLoop]
      split
      · exact stop i pi fifo
      next some =>
        split
        · have rest := ih (i + 1) pi.take (fifo.take some)
          have one : pi.take.delivered.length = pi.delivered.length + 1 := by simp [Pipe.take]
          have grows := rest.grows
          refine ⟨rest.fifo, rest.ends, rest.stored, ⟨?_, ?_⟩, by omega⟩
          · intro pos
            have amount := rest.amount.1 pos
            omega
          · -- after one byte the loop does not return -1
            intro neg
            exact absurd (copyLoop_pos dst k i pi.take) (by omega)
        · split
          next first => exact ⟨fifo, ⟨rfl, rfl⟩, rfl, ⟨fun pos => by omega, fun _ => ⟨rfl, rfl⟩⟩,
              Nat.le_refl _⟩
          · exact stop i pi fifo

end Ring

/-! ## Runs -/

def Pc.Told : Pc → Prop
  | .outside (some r) taken => (0 ≤ r → (taken : Int) = r) ∧ (r < 0 → r = -1 ∧ taken = 0)
  | _ => True

structure Lossless (s : State) : Prop where
  fifo : Fifo s.pipe
  told : ∀ p, (s.pc p).Told

section Steps
variable {s s' : State} {p : Nat}

theorem told_wakeReader {pc : Pc} (told : pc.Told) : (wakeReader pc).Told := by
  cases pc with
  | readSleep dst n => exact trivial
  | _ => exact told

theorem told_wakeWriter {pc : Pc} (told : pc.Told) : (wakeWriter pc).Told := by
  cases pc with
  | writeSleep src n i => exact trivial
  | _ => exact told

theorem told_upd {pcs : Nat → Pc} {pc : Pc} (told : ∀ q, (pcs q).Told) (new : pc.Told) (q : Nat) :
    (upd pcs p pc q).Told := by
  by_cases here : q = p
  · rw [here, upd_self]
    exact new
  · rw [upd_of_ne here]
    exact told q

theorem Lossless.woken (ok : Lossless s) {pc : Pc} (new : pc.Told) :
    Lossless (s.wakeReaders.leave p pc) :=
  ⟨ok.fifo, told_upd (fun q => told_wakeReader (ok.told q)) new⟩

theorem writeTurn_lossless (ok : Lossless s) (src : Nat → Option UInt8) (n : Int) (i mark : Nat) :
    Lossless (writeTurn s p src n i mark) := by
  unfold writeTurn
  split
  · split
    · exact ⟨ok.fifo, told_upd ok.told trivial⟩
    · exact ⟨ok.fifo, told_upd ok.told trivial⟩
  · exact ok.woken trivial

theorem storeTurn_lossless (ok : Lossless s) (src : Nat → Option UInt8) (n : Int) (i mark : Nat) :
    Lossless (storeTurn s p src n i mark) := by
  unfold storeTurn
  split
  · exact ok.woken trivial
  next room =>
    split
    · exact ok.woken trivial
    · exact ⟨ok.fifo.put room _, told_upd ok.told trivial⟩

theorem readTurn_lossless (ok : Lossless s) (dst : Nat → Bool) (n : Int) :
    Lossless (readTurn s p dst n) := by
  unfold readTurn
  split
  · split
    · exact ⟨ok.fifo, told_upd ok.told ⟨fun pos => by omega, fun _ => ⟨rfl, rfl⟩⟩⟩
    · exact ⟨ok.fifo, told_upd ok.told trivial⟩
  · have copied := copyLoop_spec dst n.toNat 0 s.pipe ok.fifo
    refine ⟨copied.fifo, told_upd (fun q => told_wakeWriter (ok.told q)) ⟨?_, ?_⟩⟩
    · intro pos
      have amount := copied.amount.1 pos
      omega
    · intro neg
      obtain ⟨one, same⟩ := copied.amount.2 neg
      refine ⟨one, ?_⟩
      rw [same, Nat.sub_self]

theorem step_lossless {e : Event} (ok : Lossless s) (run : step s e = some s') : Lossless s' := by
  cases e with
  | pipewrite p src n =>
      simp only [step] at run
      split at run
      · obtain rfl := Option.some.inj run
        exact ⟨ok.fifo, told_upd ok.told trivial⟩
      · cases run
  | piperead p dst n =>
      simp only [step] at run
      split at run
      · obtain rfl := Option.some.inj run
        exact ⟨ok.fifo, told_upd ok.told trivial⟩
      · cases run
  | go p =>
      simp only [step] at run
      split at run
      · split at run
        · obtain rfl := Option.some.inj run
          exact ⟨ok.fifo, told_upd ok.told trivial⟩
        · cases run
      · split at run
        · obtain rfl := Option.some.inj run
          exact ⟨ok.fifo, told_upd ok.told trivial⟩
        · cases run
      · obtain rfl := Option.some.inj run
        exact writeTurn_lossless ok _ _ _ _
      · obtain rfl := Option.some.inj run
        exact storeTurn_lossless ok _ _ _ _
      · obtain rfl := Option.some.inj run
        exact readTurn_lossless ok _ _
      · obtain rfl := Option.some.inj run
        exact ⟨ok.fifo, told_upd ok.told trivial⟩
      · cases run
  | pipeclose writable =>
      simp only [step] at run
      split at run
      · obtain rfl := Option.some.inj run
        cases writable with
        | true => exact ⟨ok.fifo, fun q => told_wakeReader (ok.told q)⟩
        | false => exact ⟨ok.fifo, fun q => told_wakeWriter (ok.told q)⟩
      · cases run
  | kkill p =>
      obtain rfl := Option.some.inj run
      exact ⟨ok.fifo, told_upd ok.told (told_wakeWriter (told_wakeReader (ok.told p)))⟩

theorem fresh_lossless (data : Fin PIPESIZE → UInt8) (killed : Nat → Bool) :
    Lossless (fresh data killed) :=
  ⟨⟨[], rfl, Queued.nil (show (0 : Nat) < 2 ^ 32 by decide)⟩, fun _ => trivial⟩

end Steps

/-- The counters tell how many bytes are in the pipe, the bytes delivered are the first of
those stored, and a finished read has taken what it returned. -/
structure Delivers (s : State) : Prop where
  amount : wrap32 (s.pipe.nwrite + 2 ^ 32 - s.pipe.nread) =
    s.pipe.stored.length - s.pipe.delivered.length
  room : wrap32 (s.pipe.nwrite + 2 ^ 32 - s.pipe.nread) ≤ PIPESIZE
  order : s.pipe.delivered <+: s.pipe.stored
  result : ∀ p r taken, s.pc p = .outside (some r) taken →
    (0 ≤ r → (taken : Int) = r) ∧ (r < 0 → r = -1 ∧ taken = 0)

theorem Lossless.delivers {s : State} (ok : Lossless s) : Delivers s := by
  obtain ⟨l, bytes, queue⟩ := ok.fifo
  have size : PIPESIZE = 512 := rfl
  have short := queue.short
  have low := queue.low
  have count := queue.count
  rw [size] at short
  have gap : wrap32 (s.pipe.nwrite + 2 ^ 32 - s.pipe.nread) = l.length := by
    unfold wrap32
    omega
  refine ⟨?_, ?_, ⟨l, bytes.symm⟩, ?_⟩
  · rw [gap, bytes, List.length_append]
    omega
  · rw [gap, size]
    exact short
  · intro p r taken at'
    have told := ok.told p
    rw [at'] at told
    exact told

theorem pipe_fifo (r : Run step) (data : Fin PIPESIZE → UInt8) (killed : Nat → Bool)
    (start : r.state 0 = fresh data killed) : ∀ n, n ≤ r.len → Delivers (r.state n) := by
  intro n within
  have ok := r.invariant Lossless (by rw [start]; exact fresh_lossless data killed)
    (fun s e s' run ok => step_lossless ok run) n within
  exact ok.delivers

/-- Process 1 writes three bytes, the last from a bad address, and process 2 reads one. -/
def writeThenRead : List Event :=
  [.pipewrite 1 (fun i => if i < 2 then some 7 else none) 3, .go 1, .go 1, .go 1, .go 1, .go 1,
    .go 1, .go 1, .piperead 2 (fun _ => true) 1, .go 2, .go 2]

theorem writeThenRead_runs :
    (exec step (fresh (fun _ => 0) fun _ => false) writeThenRead).isSome = true := by
  decide +kernel

def writeThenReadRun : Run step :=
  Run.ofEvents step (fresh (fun _ => 0) fun _ => false) writeThenRead (.go 0) writeThenRead_runs

theorem writeThenRead_delivers : Delivers (writeThenReadRun.state writeThenReadRun.len) :=
  pipe_fifo writeThenReadRun (fun _ => 0) (fun _ => false)
    (Run.ofEvents_zero step _ writeThenRead (.go 0) writeThenRead_runs) _ (Nat.le_refl _)

end Xv6Fcfs.Pipes
