import Xv6Fcfs.Pipes.Fifo

/-!
# Who sleeps on a pipe

`pipewrite` wakes the readers before it sleeps and when its loop is over, but not when it
finds its process killed.  A writer that is killed after it has stored bytes leaves a reader
asleep at a pipe that is not empty; in no other way does a process sleep at a pipe that is
ready for it.
-/

set_option autoImplicit false

namespace Xv6Fcfs.Pipes

open Xv6Fcfs.Lib

/-- The process is SLEEPING on `&pi->nread`. -/
def Pc.ReadSleeps : Pc → Prop
  | .readSleep _ _ => True
  | _ => False

/-- The process is SLEEPING on `&pi->nwrite`. -/
def Pc.WriteSleeps : Pc → Prop
  | .writeSleep _ _ _ => True
  | _ => False

/-- The process holds `pi->lock`. -/
def Pc.Holds : Pc → Prop
  | .writing _ _ _ _ => True
  | .storing _ _ _ _ => True
  | .reading _ _ => True
  | .resting _ _ => True
  | _ => False

/-- The process has stored bytes since it got `pi->lock`. -/
def Pc.Stored : Pc → Prop
  | .writing _ _ i mark => mark < i
  | .storing _ _ i mark => mark < i
  | _ => False

def Pc.Fits (pi : Pipe) : Pc → Prop
  | .writing _ _ i mark => mark ≤ i
  | .storing _ _ i mark => mark ≤ i ∧ pi.readopen = true
  | .resting _ _ => pi.empty ∧ pi.writeopen = true
  | _ => True

def Ready (s : State) : Prop :=
  s.lock = none →
    (∀ p, (s.pc p).ReadSleeps → s.pipe.empty ∧ s.pipe.writeopen = true) ∧
    (∀ p, (s.pc p).WriteSleeps → s.pipe.full ∧ s.pipe.readopen = true)

/-- In this step a writer that has stored bytes, and has more to write, finds itself killed
while a reader sleeps. -/
def CutShort (s : State) : Event → Prop
  | .go p =>
      match s.pc p with
      | .writing _ n i mark => mark < i ∧ (i : Int) < n ∧ s.killed p = true ∧ ∃ q, (s.pc q).ReadSleeps
      | _ => False
  | _ => False

structure Guarded (s : State) : Prop where
  fifo : Fifo s.pipe
  holder : ∀ p, (s.pc p).Holds ↔ s.lock = some p
  stored : ∀ p, (s.pc p).Stored → s.pipe.readopen = true ∧ ¬ s.pipe.empty
  fits : ∀ p, (s.pc p).Fits s.pipe
  readers : ∀ q, (s.pc q).ReadSleeps → s.pipe.writeopen = true ∧
    (s.pipe.empty ∨ ∃ p, (s.pc p).Stored)
  writers : ∀ q, (s.pc q).WriteSleeps → s.pipe.full ∧ s.pipe.readopen = true

theorem Pc.Stored.holds {pc : Pc} (stored : pc.Stored) : pc.Holds := by
  cases pc with
  | writing src n i mark => exact trivial
  | storing src n i mark => exact trivial
  | _ => exact stored.elim

theorem Pc.fits_of_free {pc : Pc} (free : ¬ pc.Holds) (pi : Pipe) : pc.Fits pi := by
  cases pc with
  | writing src n i mark => exact absurd trivial free
  | storing src n i mark => exact absurd trivial free
  | resting dst n => exact absurd trivial free
  | _ => exact trivial

theorem Guarded.ready {s : State} (ok : Guarded s) : Ready s := by
  intro free
  refine ⟨?_, ok.writers⟩
  intro q sleeps
  obtain ⟨opened, empty | ⟨p, stored⟩⟩ := ok.readers q sleeps
  · exact ⟨empty, opened⟩
  · have held := (ok.holder p).mp stored.holds
    rw [free] at held
    cases held

section Waking
variable {pc : Pc}

theorem readSleeps_wakeReader : ¬ (wakeReader pc).ReadSleeps := by
  cases pc <;> exact fun sleeps => sleeps

theorem writeSleeps_wakeWriter : ¬ (wakeWriter pc).WriteSleeps := by
  cases pc <;> exact fun sleeps => sleeps

theorem wakeReader_same : ((wakeReader pc).Holds ↔ pc.Holds) ∧ ((wakeReader pc).Stored ↔ pc.Stored) ∧
    ((wakeReader pc).WriteSleeps ↔ pc.WriteSleeps) := by
  cases pc <;> simp [wakeReader, Pc.Holds, Pc.Stored, Pc.WriteSleeps]

theorem wakeWriter_same : ((wakeWriter pc).Holds ↔ pc.Holds) ∧ ((wakeWriter pc).Stored ↔ pc.Stored) ∧
    ((wakeWriter pc).ReadSleeps ↔ pc.ReadSleeps) := by
  cases pc <;> simp [wakeWriter, Pc.Holds, Pc.Stored, Pc.ReadSleeps]

end Waking

theorem put_not_empty {pi : Pipe} (fifo : Fifo pi) (room : ¬ pi.full) (ch : UInt8) :
    ¬ (pi.put ch).empty := by
  obtain ⟨l, bytes, queue⟩ := fifo.put room ch
  intro empty
  have nothing := (queue.empty_iff pipesize_less).mp empty
  obtain ⟨l', bytes', -⟩ := fifo
  rw [nothing] at bytes
  simp only [Pipe.put, bytes', List.append_nil] at bytes
  have length := congrArg List.length bytes
  simp only [List.length_append, List.length_cons, List.length_nil] at length
  omega

section Steps
variable {s s' : State} {p : Nat} {pipe : Pipe} {pcs : Nat → Pc} {pc : Pc}

theorem Guarded.alone (ok : Guarded s) (held : s.lock = some p) {q : Nat} (other : q ≠ p) :
    ¬ (s.pc q).Holds := by
  intro holds
  have same := (ok.holder q).mp holds
  rw [held] at same
  exact other (Option.some.inj same).symm

theorem Guarded.leave (ok : Guarded s) (held : s.lock = some p) (fifo : Fifo pipe)
    (others : ∀ q, (pcs q).Holds → (s.pc q).Holds) (rest : ¬ pc.Holds)
    (readers : ∀ q, (upd pcs p pc q).ReadSleeps → pipe.writeopen = true ∧ pipe.empty)
    (writers : ∀ q, (upd pcs p pc q).WriteSleeps → pipe.full ∧ pipe.readopen = true) :
    Guarded ⟨pipe, none, s.killed, upd pcs p pc⟩ := by
  have nobody : ∀ q, ¬ (upd pcs p pc q).Holds := by
    intro q
    by_cases here : q = p
    · rw [here, upd_self]
      exact rest
    · rw [upd_of_ne here]
      exact fun holds => ok.alone held here (others q holds)
  refine ⟨fifo, ?_, ?_, ?_, ?_, writers⟩
  · exact fun q => iff_of_false (nobody q) (by simp)
  · exact fun q stored => absurd stored.holds (nobody q)
  · exact fun q => Pc.fits_of_free (nobody q) pipe
  · intro q sleeps
    obtain ⟨opened, empty⟩ := readers q sleeps
    exact ⟨opened, Or.inl empty⟩

/-- A process that neither held the lock nor gets it goes on elsewhere, awake. -/
theorem Guarded.elsewhere (ok : Guarded s) (before : ¬ (s.pc p).Holds) (holds : ¬ pc.Holds)
    (reads : pc.ReadSleeps → (s.pc p).ReadSleeps) (writes : pc.WriteSleeps → (s.pc p).WriteSleeps)
    (killed : Nat → Bool) : Guarded { s with killed := killed, pc := upd s.pc p pc } := by
  have cases' := upd_cases s.pc p pc
  refine ⟨ok.fifo, ?_, ?_, ?_, ?_, ?_⟩
  · intro q
    rcases cases' q with ⟨rfl, new⟩ | ⟨-, old⟩
    · simp only [new]
      exact iff_of_false holds fun held => before ((ok.holder q).mpr held)
    · simp only [old]
      exact ok.holder q
  · intro q stored
    rcases cases' q with ⟨rfl, new⟩ | ⟨-, old⟩
    · simp only [new] at stored
      exact absurd stored.holds holds
    · simp only [old] at stored
      exact ok.stored q stored
  · intro q
    rcases cases' q with ⟨rfl, new⟩ | ⟨-, old⟩
    · simp only [new]
      exact Pc.fits_of_free holds s.pipe
    · simp only [old]
      exact ok.fits q
  · intro q sleeps
    have slept : (s.pc q).ReadSleeps := by
      rcases cases' q with ⟨rfl, new⟩ | ⟨-, old⟩
      · simp only [new] at sleeps
        exact reads sleeps
      · simp only [old] at sleeps
        exact sleeps
    obtain ⟨opened, empty | ⟨x, stored⟩⟩ := ok.readers q slept
    · exact ⟨opened, Or.inl empty⟩
    · refine ⟨opened, Or.inr ⟨x, ?_⟩⟩
      have differ : x ≠ p := by
        rintro rfl
        exact before stored.holds
      simp only [upd_of_ne differ]
      exact stored
  · intro q sleeps
    rcases cases' q with ⟨rfl, new⟩ | ⟨-, old⟩
    · simp only [new] at sleeps
      exact ok.writers q (writes sleeps)
    · simp only [old] at sleeps
      exact ok.writers q sleeps

theorem Guarded.acquire (ok : Guarded s) (free : s.lock = none) (holds : pc.Holds)
    (new : ¬ pc.Stored) (fits : pc.Fits s.pipe) (awake : ¬ pc.ReadSleeps ∧ ¬ pc.WriteSleeps) :
    Guarded { s with lock := some p, pc := upd s.pc p pc } := by
  have nobody : ∀ q, ¬ (s.pc q).Holds := by
    intro q held
    have same := (ok.holder q).mp held
    rw [free] at same
    cases same
  have cases' := upd_cases s.pc p pc
  refine ⟨ok.fifo, ?_, ?_, ?_, ?_, ?_⟩
  · intro q
    rcases cases' q with ⟨rfl, now⟩ | ⟨differ, old⟩
    · simp only [now]
      exact iff_of_true holds trivial
    · simp only [old]
      exact iff_of_false (nobody q) fun same => differ (Option.some.inj same).symm
  · intro q stored
    rcases cases' q with ⟨rfl, now⟩ | ⟨-, old⟩
    · simp only [now] at stored
      exact absurd stored new
    · simp only [old] at stored
      exact absurd stored.holds (nobody q)
  · intro q
    rcases cases' q with ⟨rfl, now⟩ | ⟨-, old⟩
    · simp only [now]
      exact fits
    · simp only [old]
      exact ok.fits q
  · intro q sleeps
    rcases cases' q with ⟨rfl, now⟩ | ⟨-, old⟩
    · simp only [now] at sleeps
      exact absurd sleeps awake.1
    · simp only [old] at sleeps
      obtain ⟨opened, empty | ⟨x, stored⟩⟩ := ok.readers q sleeps
      · exact ⟨opened, Or.inl empty⟩
      · exact absurd stored.holds (nobody x)
  · intro q sleeps
    rcases cases' q with ⟨rfl, now⟩ | ⟨-, old⟩
    · simp only [now] at sleeps
      exact absurd sleeps awake.2
    · simp only [old] at sleeps
      exact ok.writers q sleeps

theorem Guarded.goOn (ok : Guarded s) (held : (s.pc p).Holds) (holds : pc.Holds)
    (same : pc.Stored ↔ (s.pc p).Stored) (fits : pc.Fits s.pipe)
    (awake : ¬ pc.ReadSleeps ∧ ¬ pc.WriteSleeps) : Guarded (s.goto p pc) := by
  have cases' := upd_cases s.pc p pc
  have stored' : ∀ q, (upd s.pc p pc q).Stored ↔ (s.pc q).Stored := by
    intro q
    rcases cases' q with ⟨rfl, new⟩ | ⟨-, old⟩
    · rw [new]
      exact same
    · rw [old]
  refine ⟨ok.fifo, ?_, ?_, ?_, ?_, ?_⟩
  · intro q
    rcases cases' q with ⟨rfl, new⟩ | ⟨-, old⟩
    · simp only [State.goto, new]
      exact iff_of_true holds ((ok.holder q).mp held)
    · simp only [State.goto, old]
      exact ok.holder q
  · exact fun q stored => ok.stored q ((stored' q).mp stored)
  · intro q
    rcases cases' q with ⟨rfl, new⟩ | ⟨-, old⟩
    · simp only [State.goto, new]
      exact fits
    · simp only [State.goto, old]
      exact ok.fits q
  · intro q sleeps
    rcases cases' q with ⟨-, new⟩ | ⟨-, old⟩
    · simp only [State.goto, new] at sleeps
      exact absurd sleeps awake.1
    · simp only [State.goto, old] at sleeps
      obtain ⟨opened, why⟩ := ok.readers q sleeps
      exact ⟨opened, why.imp id fun ⟨x, stored⟩ => ⟨x, (stored' x).mpr stored⟩⟩
  · intro q sleeps
    rcases cases' q with ⟨-, new⟩ | ⟨-, old⟩
    · simp only [State.goto, new] at sleeps
      exact absurd sleeps awake.2
    · simp only [State.goto, old] at sleeps
      exact ok.writers q sleeps

theorem Guarded.woken (ok : Guarded s) (held : (s.pc p).Holds) (rest : ¬ pc.Holds)
    (reads : ¬ pc.ReadSleeps) (writes : pc.WriteSleeps → s.pipe.full ∧ s.pipe.readopen = true) :
    Guarded (s.wakeReaders.leave p pc) := by
  refine ok.leave ((ok.holder p).mp held) ok.fifo (fun q => wakeReader_same.1.mp) rest ?_ ?_
  · intro q sleeps
    rcases upd_cases s.wakeReaders.pc p pc q with ⟨-, new⟩ | ⟨-, old⟩
    · rw [new] at sleeps
      exact absurd sleeps reads
    · rw [old] at sleeps
      exact absurd sleeps readSleeps_wakeReader
  · intro q sleeps
    rcases upd_cases s.wakeReaders.pc p pc q with ⟨-, new⟩ | ⟨-, old⟩
    · rw [new] at sleeps
      exact writes sleeps
    · rw [old] at sleeps
      exact ok.writers q (wakeReader_same.2.2.mp sleeps)

theorem writeTurn_guarded {src : Nat → Option UInt8} {n : Int} {i mark : Nat} (ok : Guarded s)
    (at' : s.pc p = .writing src n i mark) (good : ¬ CutShort s (.go p)) :
    Guarded (writeTurn s p src n i mark) := by
  have holds : (s.pc p).Holds := by
    rw [at']
    trivial
  have held := (ok.holder p).mp holds
  have less := ok.fits p
  rw [at'] at less
  unfold writeTurn
  split
  next more =>
    split
    next cut =>
      -- no wakeup here: a reader may be asleep only if the pipe is empty
      refine ok.leave held ok.fifo (fun q holds => holds) (fun no => no) ?_ ?_
      · intro q sleeps
        rcases upd_cases s.pc p (.outside none 0) q with ⟨-, new⟩ | ⟨-, old⟩
        · rw [new] at sleeps
          exact sleeps.elim
        · rw [old] at sleeps
          obtain ⟨opened, empty | ⟨x, stored⟩⟩ := ok.readers q sleeps
          · exact ⟨opened, empty⟩
          · obtain rfl : x = p := by
              by_contra other
              exact ok.alone held other stored.holds
            have readopen := (ok.stored x stored).1
            rw [at'] at stored
            refine absurd ?_ good
            simp only [CutShort, at']
            refine ⟨stored, more, cut.resolve_left ?_, q, sleeps⟩
            rw [readopen]
            decide
      · intro q sleeps
        rcases upd_cases s.pc p (.outside none 0) q with ⟨-, new⟩ | ⟨-, old⟩
        · rw [new] at sleeps
          exact sleeps.elim
        · rw [old] at sleeps
          exact ok.writers q sleeps
    next live =>
      rw [not_or] at live
      refine ok.goOn holds trivial ?_ ⟨less, by simpa using live.1⟩ ⟨fun no => no, fun no => no⟩
      rw [at']
      exact Iff.rfl
  · exact ok.woken holds (fun no => no) (fun no => no) fun no => no.elim

theorem storeTurn_guarded {src : Nat → Option UInt8} {n : Int} {i mark : Nat} (ok : Guarded s)
    (at' : s.pc p = .storing src n i mark) : Guarded (storeTurn s p src n i mark) := by
  have holds : (s.pc p).Holds := by
    rw [at']
    trivial
  have found := ok.fits p
  rw [at'] at found
  obtain ⟨less, opened⟩ := found
  unfold storeTurn
  split
  next full => exact ok.woken holds (fun no => no) (fun no => no) fun _ => ⟨full, opened⟩
  next room =>
    split
    · exact ok.woken holds (fun no => no) (fun no => no) fun no => no.elim
    next ch found =>
      have sleeping : ∀ q, ¬ (s.pc q).WriteSleeps := fun q sleeps => room (ok.writers q sleeps).1
      have cases' := upd_cases s.pc p (.writing src n (i + 1) mark)
      have held := (ok.holder p).mp holds
      refine ⟨ok.fifo.put room ch, ?_, ?_, ?_, ?_, ?_⟩
      · intro q
        rcases cases' q with ⟨rfl, new⟩ | ⟨-, old⟩
        · simp only [State.goto, new]
          exact iff_of_true trivial held
        · simp only [State.goto, old]
          exact ok.holder q
      · intro q _
        exact ⟨opened, put_not_empty ok.fifo room ch⟩
      · intro q
        rcases cases' q with ⟨rfl, new⟩ | ⟨differ, old⟩
        · simp only [State.goto, new]
          exact Nat.le_succ_of_le less
        · simp only [State.goto, old]
          exact Pc.fits_of_free (ok.alone held differ) _
      · intro q sleeps
        rcases cases' q with ⟨-, new⟩ | ⟨-, old⟩
        · simp only [State.goto, new] at sleeps
          exact sleeps.elim
        · simp only [State.goto, old] at sleeps
          refine ⟨(ok.readers q sleeps).1, Or.inr ⟨p, ?_⟩⟩
          simp only [State.goto, upd_self]
          exact Nat.lt_succ_of_le less
      · intro q sleeps
        rcases cases' q with ⟨-, new⟩ | ⟨-, old⟩
        · simp only [State.goto, new] at sleeps
          exact sleeps.elim
        · simp only [State.goto, old] at sleeps
          exact absurd sleeps (sleeping q)

theorem resting_guarded {dst : Nat → Bool} {n : Int} (ok : Guarded s) (at' : s.pc p = .resting dst n) :
    Guarded (s.leave p (.readSleep dst n)) := by
  have found := ok.fits p
  rw [at'] at found
  have held : s.lock = some p := (ok.holder p).mp (by rw [at']; trivial)
  refine ok.leave held ok.fifo (fun q holds => holds) (fun no => no) (fun q _ => ⟨found.2, found.1⟩) ?_
  intro q sleeps
  rcases upd_cases s.pc p (.readSleep dst n) q with ⟨-, new⟩ | ⟨-, old⟩
  · rw [new] at sleeps
    exact sleeps.elim
  · rw [old] at sleeps
    exact ok.writers q sleeps

theorem readTurn_guarded {dst : Nat → Bool} {n : Int} (ok : Guarded s)
    (at' : s.pc p = .reading dst n) : Guarded (readTurn s p dst n) := by
  have holds : (s.pc p).Holds := by
    rw [at']
    trivial
  have held := (ok.holder p).mp holds
  -- nobody writes while this process reads
  have readers : ∀ q, (s.pc q).ReadSleeps → s.pipe.writeopen = true ∧ s.pipe.empty := by
    intro q sleeps
    obtain ⟨opened, empty | ⟨x, stored⟩⟩ := ok.readers q sleeps
    · exact ⟨opened, empty⟩
    · obtain rfl : x = p := by
        by_contra other
        exact ok.alone held other stored.holds
      rw [at'] at stored
      exact stored.elim
  unfold readTurn
  split
  next waits =>
    split
    · refine ok.leave held ok.fifo (fun q holds => holds) (fun no => no)
        (fun q _ => ⟨waits.2, waits.1⟩) ?_
      intro q sleeps
      rcases upd_cases s.pc p (.outside (some (-1)) 0) q with ⟨-, new⟩ | ⟨-, old⟩
      · rw [new] at sleeps
        exact sleeps.elim
      · rw [old] at sleeps
        exact ok.writers q sleeps
    · refine ok.goOn holds trivial ?_ waits ⟨fun no => no, fun no => no⟩
      rw [at']
      exact Iff.rfl
  next ready =>
    have copied := copyLoop_spec dst n.toNat 0 s.pipe ok.fifo
    refine ok.leave held copied.fifo (fun q => wakeWriter_same.1.mp) (fun no => no) ?_ ?_
    · intro q sleeps
      rcases upd_cases { s with pipe := (copyLoop dst n.toNat 0 s.pipe).2 }.wakeWriters.pc p _ q
        with ⟨-, new⟩ | ⟨-, old⟩
      · rw [new] at sleeps
        exact sleeps.elim
      · rw [old] at sleeps
        obtain ⟨opened, empty⟩ := readers q (wakeWriter_same.2.2.mp sleeps)
        exact absurd ⟨empty, opened⟩ ready
    · intro q sleeps
      rcases upd_cases { s with pipe := (copyLoop dst n.toNat 0 s.pipe).2 }.wakeWriters.pc p _ q
        with ⟨-, new⟩ | ⟨-, old⟩
      · rw [new] at sleeps
        exact sleeps.elim
      · rw [old] at sleeps
        exact absurd sleeps writeSleeps_wakeWriter

theorem close_guarded (ok : Guarded s) (free : s.lock = none) (writable : Bool) :
    Guarded (s.close writable) := by
  have nobody : ∀ q, ¬ (s.pc q).Holds := by
    intro q held
    have same := (ok.holder q).mp held
    rw [free] at same
    cases same
  cases writable with
  | true =>
      refine ⟨ok.fifo, fun q => wakeReader_same.1.trans (ok.holder q), ?_, ?_, ?_, ?_⟩
      · exact fun q stored => absurd (wakeReader_same.1.mp stored.holds) (nobody q)
      · exact fun q => Pc.fits_of_free (fun holds => nobody q (wakeReader_same.1.mp holds)) _
      · exact fun q sleeps => absurd sleeps readSleeps_wakeReader
      · exact fun q sleeps => ok.writers q (wakeReader_same.2.2.mp sleeps)
  | false =>
      refine ⟨ok.fifo, fun q => wakeWriter_same.1.trans (ok.holder q), ?_, ?_, ?_, ?_⟩
      · exact fun q stored => absurd (wakeWriter_same.1.mp stored.holds) (nobody q)
      · exact fun q => Pc.fits_of_free (fun holds => nobody q (wakeWriter_same.1.mp holds)) _
      · intro q sleeps
        obtain ⟨opened, empty | ⟨x, stored⟩⟩ := ok.readers q (wakeWriter_same.2.2.mp sleeps)
        · exact ⟨opened, Or.inl empty⟩
        · exact absurd stored.holds (nobody x)
      · exact fun q sleeps => absurd sleeps writeSleeps_wakeWriter

theorem kkill_guarded (ok : Guarded s) (p : Nat) : Guarded { s with
    killed := upd s.killed p true
    pc := upd s.pc p (wakeWriter (wakeReader (s.pc p))) } := by
  by_cases held : (s.pc p).Holds
  · have same : wakeWriter (wakeReader (s.pc p)) = s.pc p := by
      cases at' : s.pc p <;> rw [at'] at held <;> first | rfl | exact held.elim
    rw [same, upd_eq_self]
    exact ⟨ok.fifo, ok.holder, ok.stored, ok.fits, ok.readers, ok.writers⟩
  · refine ok.elsewhere held ?_ ?_ ?_ _
    · rw [wakeWriter_same.1, wakeReader_same.1]
      exact held
    · rw [wakeWriter_same.2.2]
      exact fun sleeps => absurd sleeps readSleeps_wakeReader
    · exact fun sleeps => absurd sleeps writeSleeps_wakeWriter

theorem step_guarded {e : Event} (ok : Guarded s) (good : ¬ CutShort s e)
    (run : step s e = some s') : Guarded s' := by
  cases e with
  | pipewrite p src n =>
      simp only [step] at run
      split at run
      next at' =>
        obtain rfl := Option.some.inj run
        have outside : ¬ (s.pc p).Holds := by
          rw [at']
          exact fun no => no
        have awake : ¬ (Pc.writeLock src n 0).Holds ∧ ¬ (Pc.writeLock src n 0).ReadSleeps ∧
            ¬ (Pc.writeLock src n 0).WriteSleeps := ⟨fun no => no, fun no => no, fun no => no⟩
        exact ok.elsewhere outside awake.1 (fun no => absurd no awake.2.1)
          (fun no => absurd no awake.2.2) s.killed
      · cases run
  | piperead p dst n =>
      simp only [step] at run
      split at run
      next at' =>
        obtain rfl := Option.some.inj run
        have outside : ¬ (s.pc p).Holds := by
          rw [at']
          exact fun no => no
        have awake : ¬ (Pc.readLock dst n).Holds ∧ ¬ (Pc.readLock dst n).ReadSleeps ∧
            ¬ (Pc.readLock dst n).WriteSleeps := ⟨fun no => no, fun no => no, fun no => no⟩
        exact ok.elsewhere outside awake.1 (fun no => absurd no awake.2.1)
          (fun no => absurd no awake.2.2) s.killed
      · cases run
  | go p =>
      simp only [step] at run
      split at run
      · split at run
        next free =>
          obtain rfl := Option.some.inj run
          exact ok.acquire free trivial (Nat.lt_irrefl _) (Nat.le_refl _) ⟨fun no => no, fun no => no⟩
        · cases run
      · split at run
        next free =>
          obtain rfl := Option.some.inj run
          exact ok.acquire free trivial (fun no => no) trivial ⟨fun no => no, fun no => no⟩
        · cases run
      next at' =>
        obtain rfl := Option.some.inj run
        exact writeTurn_guarded ok at' good
      next at' =>
        obtain rfl := Option.some.inj run
        exact storeTurn_guarded ok at'
      next at' =>
        obtain rfl := Option.some.inj run
        exact readTurn_guarded ok at'
      next at' =>
        obtain rfl := Option.some.inj run
        exact resting_guarded ok at'
      · cases run
  | pipeclose writable =>
      simp only [step] at run
      split at run
      next free =>
        obtain rfl := Option.some.inj run
        exact close_guarded ok free writable
      · cases run
  | kkill p =>
      obtain rfl := Option.some.inj run
      exact kkill_guarded ok p

theorem fresh_guarded (data : Fin PIPESIZE → UInt8) (killed : Nat → Bool) :
    Guarded (fresh data killed) where
  fifo := (fresh_lossless data killed).fifo
  holder := fun _ => iff_of_false (fun no => no) (by simp [fresh])
  stored := fun _ no => no.elim
  fits := fun _ => trivial
  readers := fun _ no => no.elim
  writers := fun _ no => no.elim

/-- The killed writer leaves the reader asleep at a pipe with bytes in it. -/
theorem cutShort_not_ready {e : Event} (ok : Guarded s) (cut : CutShort s e)
    (run : step s e = some s') : ¬ Ready s' := by
  cases e with
  | go p =>
      simp only [CutShort] at cut
      split at cut
      next src n i mark at' =>
        obtain ⟨stored, more, killed, q, sleeps⟩ := cut
        have full := ok.stored p (by rw [at']; exact stored)
        simp only [step, at'] at run
        obtain rfl := Option.some.inj run
        have turn : writeTurn s p src n i mark = s.leave p (.outside none 0) := by
          simp only [writeTurn, if_pos more, if_pos (Or.inr killed)]
        rw [turn]
        intro ready
        have other : q ≠ p := by
          rintro rfl
          rw [at'] at sleeps
          exact sleeps
        refine full.2 ((ready rfl).1 q ?_).1
        simp only [State.leave, State.goto, upd_of_ne other]
        exact sleeps
      · exact cut.elim
  | _ => exact cut.elim

end Steps

/-! ## Runs -/

/-- No process sleeps at a pipe that is ready for it, in all states of a run, just when no
writer that has stored bytes finds itself killed while a reader sleeps. -/
theorem sleepers_wait_iff (r : Run step) (data : Fin PIPESIZE → UInt8) (killed : Nat → Bool)
    (start : r.state 0 = fresh data killed) :
    (∀ n, n ≤ r.len → Ready (r.state n)) ↔ ∀ n, n < r.len → ¬ CutShort (r.state n) (r.event n) := by
  have guarded : ∀ n, n ≤ r.len → (∀ m, m < n → ¬ CutShort (r.state m) (r.event m)) →
      Guarded (r.state n) := by
    intro n
    induction n with
    | zero =>
        intro _ _
        rw [start]
        exact fresh_guarded data killed
    | succ n ih =>
        intro within good
        have ok := ih (by omega) fun m less => good m (by omega)
        exact step_guarded ok (good n (by omega)) (r.next n (by omega))
  constructor
  · intro ready n
    induction n using Nat.strong_induction_on with
    | _ n ih =>
        intro within cut
        have ok := guarded n (by omega) fun m less => ih m less (by omega)
        exact cutShort_not_ready ok cut (r.next n within) (ready (n + 1) (by omega))
  · intro good n within
    exact (guarded n within fun m less => good m (by omega)).ready

theorem writeThenRead_sleepers :
    (∀ n, n ≤ writeThenReadRun.len → Ready (writeThenReadRun.state n)) ↔
      ∀ n, n < writeThenReadRun.len → ¬ CutShort (writeThenReadRun.state n)
        (writeThenReadRun.event n) :=
  sleepers_wait_iff writeThenReadRun (fun _ => 0) (fun _ => false)
    (Run.ofEvents_zero step _ writeThenRead (.go 0) writeThenRead_runs)

/-- Process 2 sleeps in a read; process 1 writes two bytes and is killed after the first. -/
def killedWriter : List Event :=
  [.piperead 2 (fun _ => true) 1, .go 2, .go 2, .go 2, .pipewrite 1 (fun _ => some 7) 2, .go 1,
    .go 1, .go 1, .kkill 1, .go 1]

/-- The lock is free, process 2 sleeps on `&pi->nread` and the pipe is not empty. -/
def stranded (s : State) : Bool :=
  match s.lock, s.pc 2 with
  | none, .readSleep _ _ => decide (¬ s.pipe.empty)
  | _, _ => false

theorem killedWriter_strands :
    (exec step (fresh (fun _ => 0) fun _ => false) killedWriter).any stranded = true := by
  decide +kernel

theorem killedWriter_not_ready : ∃ r : Run step, r.state 0 = fresh (fun _ => 0) (fun _ => false) ∧
    ¬ ∀ n, n ≤ r.len → Ready (r.state n) := by
  obtain ⟨r, start, last⟩ := Run.exists_of_exec step (fresh (fun _ => 0) fun _ => false) killedWriter
    (.go 0) stranded killedWriter_strands
  refine ⟨r, start, ?_⟩
  intro ready
  unfold stranded at last
  split at last
  next free asleep =>
    have sleeps : ((r.state r.len).pc 2).ReadSleeps := by
      rw [asleep]
      trivial
    exact of_decide_eq_true last ((ready r.len (Nat.le_refl _) free).1 2 sleeps).1
  · cases last

end Xv6Fcfs.Pipes
