import Xv6Fcfs.Sched.Machine
import Xv6Fcfs.Lib.Scan

/-!
# The selection loop of `scheduler`

The loop by itself, over a table of any length.  An entry is what the CPU sees under the
entry's lock; another CPU that holds the lock only makes the loop wait.  `calls` lists the
calls of `acquire` and `release` in the order in which they return.
-/

set_option autoImplicit false

namespace Xv6Fcfs.Sched

open Xv6Fcfs.Lib
open Xv6Fcfs.Process (Slot ProcState)

section Selection
variable {n : Nat}

/-- The fields of a `struct proc` that the loop reads. -/
structure Entry where
  state : ProcState
  pid : Int
  deriving DecidableEq, Repr

inductive Call (n : Nat) where
  | acquire (p : Fin n)
  | release (p : Fin n)
  deriving DecidableEq, Repr

/-- The CPU in the loop; `held` lists the `p->lock` whose `lk->cpu` it is. -/
structure Selection (n : Nat) where
  cpu : Cpu
  firstProc : Option (Fin n)
  held : List (Fin n)
  calls : List (Call n)
  deriving DecidableEq, Repr

namespace Selection

/-- `acquire(&p->lock)` -/
def acquire (s : Selection n) (p : Fin n) : Except Panic (Selection n) :=
  if p ∈ s.held then .error .acquire
  else .ok { s with cpu := s.cpu.pushOff, held := p :: s.held, calls := s.calls ++ [.acquire p] }

/-- `release(&p->lock)` -/
def release (s : Selection n) (p : Fin n) : Except Panic (Selection n) :=
  if p ∈ s.held then
    match s.cpu.popOff with
    | .error why => .error why
    | .ok cpu => .ok { s with cpu := cpu, held := s.held.erase p, calls := s.calls ++ [.release p] }
  else .error .release

/-- `first_proc == 0 || p->pid < first_proc->pid` -/
def better (s : Selection n) (proc : Fin n → Entry) (p : Fin n) : Bool :=
  match s.firstProc with
  | none => true
  | some f => (proc p).pid < (proc f).pid

/-- `if(first_proc != 0) release(&first_proc->lock);` -/
def releaseFirst (s : Selection n) : Except Panic (Selection n) :=
  match s.firstProc with
  | none => .ok s
  | some f => s.release f

/-- One turn of `for(p = proc; p < &proc[NPROC]; p++)`. -/
def turn (proc : Fin n → Entry) (s : Selection n) (p : Fin n) : Except Panic (Selection n) := do
  let s ← s.acquire p
  if (proc p).state = .runnable ∧ s.better proc p then
    let s ← s.releaseFirst
    -- `continue` leaves the loop body before the last `release`
    .ok { s with firstProc := some p }
  else s.release p

def loop (proc : Fin n → Entry) (s : Selection n) : Except Panic (Selection n) :=
  (List.finRange n).foldlM (turn proc) s

/-- The loop as `scheduler` enters it, without the lock of a process. -/
def enter (cpu : Cpu) : Selection n := ⟨cpu, none, [], []⟩

end Selection

/-! ## The locks that the calls hold -/

def heldAfter (calls : List (Call n)) : List (Fin n) :=
  calls.foldl (fun held call => match call with
    | .acquire p => p :: held
    | .release p => held.erase p) []

theorem heldAfter_acquire (calls : List (Call n)) (p : Fin n) :
    heldAfter (calls ++ [.acquire p]) = p :: heldAfter calls := by
  rw [heldAfter, List.foldl_append]
  rfl

theorem heldAfter_release (calls : List (Call n)) (p : Fin n) :
    heldAfter (calls ++ [.release p]) = (heldAfter calls).erase p := by
  rw [heldAfter, List.foldl_append]
  rfl

def acquired (calls : List (Call n)) : List (Fin n) := calls.filterMap fun call => match call with
  | .acquire p => some p
  | .release _ => none

def Few (calls : List (Call n)) : Prop := ∀ before, before <+: calls → (heldAfter before).length ≤ 2

theorem Few.snoc {calls : List (Call n)} (few : Few calls) {call : Call n}
    (last : (heldAfter (calls ++ [call])).length ≤ 2) : Few (calls ++ [call]) := by
  intro before front
  rcases List.prefix_concat_iff.mp front with whole | shorter
  · rw [whole]
    exact last
  · exact few before shorter

def Selection.locked (s : Selection n) (p : Fin n) : Selection n :=
  { s with cpu := s.cpu.pushOff, held := p :: s.held, calls := s.calls ++ [.acquire p] }

/-- What `release` leaves after it. -/
def Selection.unlocked (s : Selection n) (p : Fin n) : Selection n :=
  { s with
    cpu := { s.cpu with noff := s.cpu.noff - 1, intr := decide (s.cpu.noff - 1 = 0) && s.cpu.intena }
    held := s.held.erase p
    calls := s.calls ++ [.release p] }

theorem Selection.release_ok {s : Selection n} {p : Fin n} (mine : p ∈ s.held) (some_ : 0 < s.cpu.noff)
    (off : s.cpu.intr = false) : s.release p = .ok (s.unlocked p) := by
  rw [release, if_pos mine, Cpu.popOff_ok some_ off]
  rfl

/-- The calls account for the locks, and `noff` counts them. -/
structure Books (noff : Nat) (s : Selection n) : Prop where
  after : heldAfter s.calls = s.held
  few : Few s.calls
  noff : s.cpu.noff = noff + s.held.length
  intr : s.held ≠ [] → s.cpu.intr = false

section Books
variable {noff : Nat} {s : Selection n} {p : Fin n}

theorem Books.locked (books : Books noff s) (short : s.held.length ≤ 1) (p : Fin n) :
    Books noff (s.locked p) where
  after := by
    change heldAfter (s.calls ++ [.acquire p]) = p :: s.held
    rw [heldAfter_acquire, books.after]
  few := by
    refine books.few.snoc ?_
    rw [heldAfter_acquire, books.after, List.length_cons]
    omega
  noff := by
    change s.cpu.noff + 1 = noff + (p :: s.held).length
    rw [books.noff, List.length_cons, Nat.add_assoc]
  intr := fun _ => rfl

theorem Books.unlocked (books : Books noff s) (mine : p ∈ s.held) : Books noff (s.unlocked p) where
  after := by
    change heldAfter (s.calls ++ [.release p]) = s.held.erase p
    rw [heldAfter_release, books.after]
  few := by
    refine books.few.snoc ?_
    have before := books.few s.calls (List.prefix_refl _)
    rw [heldAfter_release]
    exact Nat.le_trans List.erase_sublist.length_le before
  noff := by
    have some_ := List.length_pos_of_mem mine
    change s.cpu.noff - 1 = noff + (s.held.erase p).length
    rw [books.noff, List.length_erase_of_mem mine]
    omega
  intr := by
    intro left
    have some_ := List.length_pos_iff.mpr left
    have positive : s.cpu.noff - 1 ≠ 0 := by
      change 0 < (s.held.erase p).length at some_
      rw [List.length_erase_of_mem mine] at some_
      rw [books.noff]
      omega
    change (decide (s.cpu.noff - 1 = 0) && _) = false
    rw [decide_eq_false positive, Bool.false_and]

end Books

/-! ## The turns -/

/-- The loop has gone through `seen`. -/
structure Scanned (proc : Fin n → Entry) (noff : Nat) (seen : List (Fin n))
    (s : Selection n) : Prop where
  first : s.firstProc =
    seen.foldl (leastStep (fun p => decide ((proc p).state = .runnable)) fun p => (proc p).pid) none
  member : ∀ f, s.firstProc = some f → f ∈ seen
  held : s.held = s.firstProc.toList
  acquired : acquired s.calls = seen
  released : ∀ p, s.calls.count (.release p) = if p ∈ seen ∧ s.firstProc ≠ some p then 1 else 0
  books : Books noff s

variable {proc : Fin n → Entry} {noff : Nat} {seen : List (Fin n)} {s : Selection n} {p f : Fin n}

namespace Scanned

theorem locked_ok (scan : Scanned proc noff seen s) (new : p ∉ seen) :
    s.acquire p = .ok (s.locked p) := by
  refine if_neg fun mine => new ?_
  rw [scan.held, Option.mem_toList] at mine
  exact scan.member p mine

theorem locked_books (scan : Scanned proc noff seen s) (p : Fin n) : Books noff (s.locked p) := by
  refine scan.books.locked ?_ p
  rw [scan.held, Option.length_toList]
  split <;> decide

/-- The entry becomes the candidate and the former candidate is released. -/
theorem replace (scan : Scanned proc noff seen s) (new : p ∉ seen) (was : s.firstProc = some f)
    (runnable : (proc p).state = .runnable) (smaller : (proc p).pid < (proc f).pid) :
    Scanned proc noff (seen ++ [p]) { (s.locked p).unlocked f with firstProc := some p } := by
  have differ : p ≠ f := fun same => new (same ▸ scan.member f was)
  have holds : s.held = [f] := by rw [scan.held, was]; rfl
  have mine : f ∈ (s.locked p).held :=
    List.mem_cons_of_mem p (by rw [holds]; exact List.mem_singleton.mpr rfl)
  have books := (scan.locked_books p).unlocked mine
  refine ⟨?_, ?_, ?_, ?_, ?_, ⟨books.after, books.few, books.noff, books.intr⟩⟩
  · rw [List.foldl_append, ← scan.first, was, List.foldl_cons, List.foldl_nil, leastStep]
    simp only [runnable, decide_true, if_true, if_pos smaller]
  · intro g is
    cases is
    exact List.mem_append_right seen (List.mem_singleton.mpr rfl)
  · change (p :: s.held).erase f = [p]
    rw [holds, List.erase_cons_tail (by simpa using differ), List.erase_cons_head]
  · change Sched.acquired (s.calls ++ [.acquire p] ++ [.release f]) = seen ++ [p]
    rw [← scan.acquired]
    simp [Sched.acquired]
  · intro q
    change (s.calls ++ [Call.acquire p] ++ [Call.release f]).count (Call.release q) = _
    have before := scan.released q
    have inSeen := scan.member f was
    grind

theorem adopt (scan : Scanned proc noff seen s) (new : p ∉ seen) (was : s.firstProc = none)
    (runnable : (proc p).state = .runnable) :
    Scanned proc noff (seen ++ [p]) { s.locked p with firstProc := some p } := by
  have holds : s.held = [] := by rw [scan.held, was]; rfl
  have books := scan.locked_books p
  refine ⟨?_, ?_, ?_, ?_, ?_, ⟨books.after, books.few, books.noff, books.intr⟩⟩
  · rw [List.foldl_append, ← scan.first, was, List.foldl_cons, List.foldl_nil, leastStep]
    simp only [runnable, decide_true, if_true]
  · intro g is
    cases is
    exact List.mem_append_right seen (List.mem_singleton.mpr rfl)
  · change p :: s.held = [p]
    rw [holds]
  · change Sched.acquired (s.calls ++ [.acquire p]) = seen ++ [p]
    rw [← scan.acquired]
    simp [Sched.acquired]
  · intro q
    change (s.calls ++ [Call.acquire p]).count (Call.release q) = _
    have before := scan.released q
    grind

theorem pass (scan : Scanned proc noff seen s) (new : p ∉ seen)
    (worse : ¬ ((proc p).state = .runnable ∧ s.better proc p)) :
    Scanned proc noff (seen ++ [p]) ((s.locked p).unlocked p) := by
  have mine : p ∈ (s.locked p).held := List.mem_cons_self
  refine ⟨?_, ?_, ?_, ?_, ?_, (scan.locked_books p).unlocked mine⟩
  · rw [List.foldl_append, ← scan.first, List.foldl_cons, List.foldl_nil]
    change s.firstProc = leastStep _ _ s.firstProc p
    unfold leastStep
    by_cases runnable : (proc p).state = .runnable
    · rw [if_pos (decide_eq_true runnable)]
      unfold Selection.better at worse
      cases was : s.firstProc with
      | none => exact absurd ⟨runnable, by rw [was]⟩ worse
      | some f =>
          have bigger : ¬ (proc p).pid < (proc f).pid := by
            intro smaller
            exact worse ⟨runnable, by rw [was]; exact decide_eq_true smaller⟩
          exact (if_neg bigger).symm
    · rw [if_neg fun yes => runnable (of_decide_eq_true yes)]
  · exact fun g is => List.mem_append_left _ (scan.member g is)
  · change (p :: s.held).erase p = s.firstProc.toList
    rw [List.erase_cons_head, scan.held]
  · change Sched.acquired (s.calls ++ [.acquire p] ++ [.release p]) = seen ++ [p]
    rw [← scan.acquired]
    simp [Sched.acquired]
  · intro q
    change (s.calls ++ [Call.acquire p] ++ [Call.release p]).count (Call.release q) =
      if q ∈ seen ++ [p] ∧ s.firstProc ≠ some q then 1 else 0
    have before := scan.released q
    have member := scan.member
    grind

theorem turn (scan : Scanned proc noff seen s) (new : p ∉ seen) :
    ∃ s', s.turn proc p = .ok s' ∧ Scanned proc noff (seen ++ [p]) s' := by
  rw [Selection.turn, scan.locked_ok new]
  change ∃ s', (if (proc p).state = .runnable ∧ s.better proc p then
    (s.locked p).releaseFirst >>= fun s => .ok { s with firstProc := some p }
    else (s.locked p).release p) = .ok s' ∧ _
  by_cases chosen : (proc p).state = .runnable ∧ s.better proc p
  · rw [if_pos chosen]
    cases was : s.firstProc with
    | none =>
        have first : (s.locked p).releaseFirst = .ok (s.locked p) := by
          rw [Selection.releaseFirst, Selection.locked, was]
        rw [first]
        exact ⟨_, rfl, scan.adopt new was chosen.1⟩
    | some f =>
        have smaller : (proc p).pid < (proc f).pid := by
          have better := chosen.2
          simp only [Selection.better, was, decide_eq_true_eq] at better
          exact better
        have mine : f ∈ (s.locked p).held := by
          refine List.mem_cons_of_mem p ?_
          rw [scan.held, was]
          exact List.mem_singleton.mpr rfl
        have first : (s.locked p).releaseFirst = .ok ((s.locked p).unlocked f) := by
          rw [← Selection.release_ok mine (Nat.succ_pos _) rfl, Selection.releaseFirst,
            Selection.locked, was]
        rw [first]
        exact ⟨_, rfl, scan.replace new was chosen.1 smaller⟩
  · rw [if_neg chosen]
    exact ⟨_, Selection.release_ok List.mem_cons_self (Nat.succ_pos _) rfl, scan.pass new chosen⟩

theorem rest : ∀ (todo seen : List (Fin n)) (s : Selection n), (seen ++ todo).Nodup →
    Scanned proc noff seen s →
    ∃ s', todo.foldlM (Selection.turn proc) s = .ok s' ∧ Scanned proc noff (seen ++ todo) s' := by
  intro todo
  induction todo with
  | nil =>
      intro seen s _ scan
      refine ⟨s, rfl, ?_⟩
      rwa [List.append_nil]
  | cons p todo ih =>
      intro seen s distinct scan
      have new : p ∉ seen := fun inside =>
        List.disjoint_of_nodup_append distinct inside List.mem_cons_self
      obtain ⟨s1, run, scan1⟩ := scan.turn new
      have split : seen ++ p :: todo = seen ++ [p] ++ todo := by simp
      rw [split] at distinct ⊢
      obtain ⟨s2, run2, scan2⟩ := ih (seen ++ [p]) s1 distinct scan1
      refine ⟨s2, ?_, scan2⟩
      rw [List.foldlM_cons, run]
      exact run2

end Scanned

theorem scanned_enter (proc : Fin n → Entry) (cpu : Cpu) :
    Scanned proc cpu.noff [] (Selection.enter cpu) where
  first := rfl
  member := fun f is => by cases is
  held := rfl
  acquired := rfl
  released := fun p => by rw [if_neg fun both => List.not_mem_nil both.1]; rfl
  books := ⟨rfl, fun before front => by rw [List.prefix_nil.mp front]; exact Nat.zero_le 2, rfl,
    fun no => absurd rfl no⟩

/-- Of a table of any length and contents the loop selects the first entry among the runnable ones of
least pid and keeps its lock only; every other lock is released once, no more than two are held
at once, and they are taken in the order of the table. -/
theorem loop_selects (proc : Fin n → Entry) (cpu : Cpu) : ∃ s,
    (Selection.enter cpu).loop proc = .ok s ∧
    ((∀ p, (proc p).state ≠ .runnable) → s.firstProc = none ∧ s.held = []) ∧
    ((∃ p, (proc p).state = .runnable) → ∃ f, s.firstProc = some f ∧ s.held = [f] ∧
      (proc f).state = .runnable ∧ ∀ q, (proc q).state = .runnable →
        (proc f).pid < (proc q).pid ∨ ((proc f).pid = (proc q).pid ∧ f ≤ q)) ∧
    heldAfter s.calls = s.held ∧ Few s.calls ∧
    acquired s.calls = List.finRange n ∧ (acquired s.calls).Pairwise (· < ·) ∧
    (∀ p, s.calls.count (.release p) = if s.firstProc = some p then 0 else 1) ∧
    s.cpu.noff = cpu.noff + s.held.length := by
  obtain ⟨s, run, scan⟩ := Scanned.rest (List.finRange n) [] _
    (by simpa using List.nodup_finRange n) (scanned_enter proc cpu)
  rw [List.nil_append] at scan
  have first : s.firstProc = least (fun p => decide ((proc p).state = .runnable)) fun p =>
    (proc p).pid :=
    scan.first
  refine ⟨s, run, ?_, ?_, scan.books.after, scan.books.few, scan.acquired, ?_, ?_,
    scan.books.noff⟩
  · intro none
    have empty := first.trans (least_none.mpr fun p => decide_eq_false (none p))
    exact ⟨empty, by rw [scan.held, empty]; rfl⟩
  · rintro ⟨p, runnable⟩
    cases found : s.firstProc with
    | none =>
        rw [found] at first
        exact absurd runnable (of_decide_eq_false (least_none.mp first.symm p))
    | some f =>
        rw [found] at first
        obtain ⟨selected, least⟩ := least_some.mp first.symm
        refine ⟨f, rfl, by rw [scan.held, found]; rfl, of_decide_eq_true selected, ?_⟩
        intro q runnable'
        by_cases same : q = f
        · exact Or.inr ⟨by rw [same], le_of_eq same.symm⟩
        · exact (least q (decide_eq_true runnable') same).imp_right fun tie => ⟨tie.1, le_of_lt tie.2⟩
  · rw [scan.acquired]
    exact List.pairwise_lt_finRange n
  · intro p
    rw [scan.released p]
    by_cases is : s.firstProc = some p
    · rw [if_neg fun both => both.2 is, if_pos is]
    · rw [if_pos ⟨List.mem_finRange p, is⟩, if_neg is]

end Selection

/-! ## The loop of the machine -/

def Mem.entries (m : Mem) (p : Slot) : Entry := ⟨(m.proc p).state, (m.proc p).pid⟩

def Op.call : Op → List (Call NPROC)
  | .acquire (.proc p) => [.acquire p]
  | .release (.proc p) => [.release p]
  | _ => []

theorem turn_moves (m : Mem) (stack : List Frame) {s s' : Selection NPROC} {p : Slot} (todo : List Slot)
    (run : s.turn m.entries p = .ok s') : ∃ first second,
    scheduler m stack (.scan (p :: todo) s.firstProc) =
      some ⟨first, m, .scheduler (.look p todo s.firstProc) :: stack⟩ ∧
    scheduler m stack (.look p todo s.firstProc) =
      some ⟨second, m, .scheduler (.scan todo s'.firstProc) :: stack⟩ ∧
    s'.calls = s.calls ++ first.call ++ second.call := by
  have released : ∀ {t t' : Selection NPROC} {q : Slot}, t.release q = .ok t' →
      t'.firstProc = t.firstProc ∧ t'.calls = t.calls ++ [.release q] := by
    intro t t' q run
    unfold Selection.release at run
    split at run
    · split at run <;> cases run
      exact ⟨rfl, rfl⟩
    · cases run
  have start : s.acquire p = .ok (s.locked p) := by
    unfold Selection.acquire
    split
    · next mine => simp [Selection.turn, Selection.acquire, mine] at run; cases run
    · rfl
  rw [Selection.turn, start] at run
  change (if (m.proc p).state = .runnable ∧ s.better m.entries p then
    (s.locked p).releaseFirst >>= fun s => .ok { s with firstProc := some p }
    else (s.locked p).release p) = .ok s' at run
  split at run
  · next chosen =>
    cases was : s.firstProc with
    | none =>
        rw [Selection.releaseFirst, show (s.locked p).firstProc = none from was] at run
        cases run
        exact ⟨_, _, rfl, by rw [scheduler, if_pos chosen.1]; rfl, (List.append_nil _).symm⟩
    | some f =>
        rw [Selection.releaseFirst, show (s.locked p).firstProc = some f from was] at run
        cases freed : (s.locked p).release f with
        | error why => simp only [freed] at run; cases run
        | ok t =>
            simp only [freed] at run
            cases run
            have both : (m.proc p).state = .runnable ∧ (m.proc p).pid < (m.proc f).pid := by
              refine ⟨chosen.1, ?_⟩
              have better := chosen.2
              simp only [Selection.better, was, decide_eq_true_eq] at better
              exact better
            exact ⟨_, .release (.proc f), rfl, by rw [scheduler, if_pos both], (released freed).2⟩
  · next worse =>
    obtain ⟨first, calls⟩ := released run
    rw [first, calls]
    change ∃ a b, _ ∧ scheduler m stack (.look p todo s.firstProc) =
      some ⟨b, m, .scheduler (.scan todo s.firstProc) :: stack⟩ ∧ _
    cases was : s.firstProc with
    | none =>
        have idle : ¬ (m.proc p).state = .runnable := fun runnable =>
          worse ⟨runnable, by rw [Selection.better, was]⟩
        exact ⟨_, _, rfl, by rw [scheduler, if_neg idle], rfl⟩
    | some f =>
        have idle : ¬ ((m.proc p).state = .runnable ∧ (m.proc p).pid < (m.proc f).pid) := fun both =>
          worse ⟨both.1, by rw [Selection.better, was]; exact decide_eq_true both.2⟩
        exact ⟨_, _, rfl, by rw [scheduler, if_neg idle], rfl⟩

end Xv6Fcfs.Sched
