import Xv6Fcfs.Inodes.Iput

/-!
# An inode number that is used again

While `iput` is between freeing an inode on the disk and `ip->ref--`, `ialloc` can give the
number away again, and `iget` then finds the old entry.  The process that gets it keeps the inode
that it has allocated, and reads it from the disk when it locks it.
-/

set_option autoImplicit false

namespace Xv6Fcfs.Inodes

open Xv6Fcfs.Lib

structure Inv (s : State) : Prop where
  table : Table s
  ledger : Ledger s

theorem booted_inv (disk : Nat → Dinode) : Inv (booted disk) where
  table := by
    constructor <;> simp [booted, Pc.puts]
    intro p
    constructor <;> simp [Stands]
  ledger := by
    constructor <;> simp [booted, Pending]

theorem step_inv {s s' : State} {ev : Nat × Act} (run : step s ev = some s')
    (inv : Inv s) : Inv s' := by
  have turn : Turn s ev.1 ev.2 s' := step_turn run
  exact ⟨turn.table inv.table, turn.ledger inv.table inv.ledger⟩

theorem run_inv {disk : Nat → Dinode} (run : Run step) (start : run.state 0 = booted disk) :
    ∀ k, k ≤ run.len → Inv (run.state k) :=
  run.invariant Inv (by rw [start]; exact booted_inv disk) fun _ _ _ ran inv => step_inv ran inv

section Steps
variable {s s' : State} {p q x e n g type : Nat} {a : Act}

/-- An entry keeps its inode, as it is allocated, when the process that moves does not free it. -/
theorem Turn.keeps (turn : Turn s x a s') (table : Table s) (live : 0 < (s.itable e).ref)
    (used : (s.disk (s.itable e).inum).type ≠ 0) (calm : s.pc x ≠ .updating e) :
    (s'.itable e).inum = (s.itable e).inum ∧ s'.gen (s.itable e).inum = s.gen (s.itable e).inum ∧
      (s'.disk (s.itable e).inum).type = (s.disk (s.itable e).inum).type := by
  have frame := turn.frame table
  refine ⟨(frame.entry e live).1, ?_, ?_⟩
  · rcases turn.gen (s.itable e).inum with same | ⟨free, -⟩
    · exact same
    · exact absurd free used
  · by_cases locked : (s.itable e).lock = some x
    · have unique := table.unique
      have lives : ∀ {e}, (s.itable e).lock = some x → 0 < (s.itable e).ref := table.lock_pos
      have stands := (table.own x).stands
      cases turn with
      | setNlink e' nlink at' held =>
          obtain ⟨-, disk, -⟩ := table.locked_agrees locked (by simp [at'])
          have same := unique e' e (lives held) live
          grind
      | update e' at' =>
          simp only [at', Stands] at stands
          have same := unique e' e (lives stands.1) live
          grind
      | _ => grind
    · rw [frame.disk_kept table live locked used]

/-! ## Between the free and `ip->ref--` -/

/-- A process has freed the entry's inode and not yet given up its reference; the number is
allocated again. -/
structure Window (p e n g type : Nat) (s : State) : Prop where
  puts : (s.pc p).puts e
  past : s.pc p ≠ .truncating e ∧ s.pc p ≠ .updating e
  inum : (s.itable e).inum = n
  gen : s.gen n = g
  type : (s.disk n).type = type

/-- A process has a reference to the entry of the inode it has allocated. -/
structure Kept (q e n g type : Nat) (s : State) : Prop where
  holds : q ∈ s.holders e
  clear : ∀ x, s.pc x ≠ .truncating e ∧ s.pc x ≠ .updating e
  apart : ¬ (s.pc q).puts e
  inum : (s.itable e).inum = n
  gen : s.gen n = g
  type : (s.disk n).type = type

theorem Window.clear (window : Window p e n g type s) (table : Table s) (x : Nat) :
    s.pc x ≠ .truncating e ∧ s.pc x ≠ .updating e := by
  by_cases same : x = p
  · rw [same]
    exact window.past
  · refine ⟨fun no => same ?_, fun no => same ?_⟩ <;>
      exact table.sole x p e (by simp [no, Pc.puts]) window.puts

theorem Window.next (window : Window p e n g type s) (table : Table s) (some : type ≠ 0)
    (turn : Turn s x a s') (still : (s'.pc p).puts e) : Window p e n g type s' := by
  obtain ⟨puts, past, rfl, rfl, rfl⟩ := window
  have live := table.ref_pos (table.puts_holds puts)
  obtain ⟨inum, gen, type⟩ := turn.keeps table live some
    (Window.clear ⟨puts, past, rfl, rfl, rfl⟩ table x).2
  refine ⟨still, ?_, inum, gen, type⟩
  by_cases own : p = x
  · subst own
    cases turn <;> grind [Pc.puts]
  · rw [(turn.frame table).pcs p own]
    exact past

theorem Kept.next (kept : Kept q e n g type s) (table : Table s) (some : type ≠ 0)
    (turn : Turn s x a s')
    (other : x = q → a ≠ .iput e) : Kept q e n g type s' := by
  obtain ⟨holds, clear, apart, rfl, rfl, rfl⟩ := kept
  have frame := turn.frame table
  obtain ⟨inum, gen, type⟩ := turn.keeps table (table.ref_pos holds) some (clear x).2
  -- no process finds the only reference, since there is this one
  have others : ∀ y, Found s e → y ∈ s.holders e → y = q := by
    intro y found inside
    obtain ⟨z, single⟩ := List.length_eq_one_iff.mp ((table.count e).symm.trans found.1)
    rw [single, List.mem_singleton] at holds inside
    rw [holds, inside]
  refine ⟨?_, ?_, ?_, inum, gen, type⟩
  · by_cases own : q = x
    · subst own
      cases turn <;> grind [Pc.puts]
    · rw [frame.holders q own]
      exact holds
  · intro y
    by_cases own : y = x
    · subst own
      have before := clear y
      cases turn <;> grind [MayPut]
    · rw [frame.pcs y own]
      exact clear y
  · by_cases own : q = x
    · subst own
      cases turn <;> grind [Pc.puts]
    · rw [frame.pcs q own]
      exact apart

theorem ialloc_step (run : step s (q, .ialloc n type) = some s') : s.pc q = .outside ∧
    (s.disk n).type = 0 ∧
    type ≠ 0 ∧ s' = (s.mark n type).goes q (.allocated n) := by
  cases here : s.pc q <;> simp only [step, here, reduceCtorEq] at run
  split at run
  next both =>
    cases run
    exact ⟨rfl, both.1, both.2, rfl⟩
  next => cases run

/-- `ialloc` gives the number away while a process is in `iput` with its entry. -/
theorem ialloc_window (table : Table s) (puts : (s.pc p).puts e) (inum : (s.itable e).inum = n)
    (run : step s (q, .ialloc n type) = some s') :
    Window p e n (s.gen n + 1) type s' ∧ s'.pc q = .allocated n ∧ type ≠ 0 := by
  obtain ⟨outside, free, some, rfl⟩ := ialloc_step run
  have differ : p ≠ q := by
    rintro rfl
    rw [outside] at puts
    exact puts
  have freed : s.pc p ≠ .truncating e ∧ s.pc p ≠ .updating e := by
    refine ⟨fun no => ?_, fun no => ?_⟩
    · exact (table.pending_used (Or.inl no)).2 (by rw [inum]; exact free)
    · exact (table.pending_used (Or.inr no)).2 (by rw [inum]; exact free)
  refine ⟨⟨?_, ?_, ?_, ?_, ?_⟩, ?_, some⟩ <;> simp [differ, puts, freed, inum]

theorem Window.iget (window : Window p e n g type s) (table : Table s) (waits : s.pc q = .allocated n)
    (run : step s (q, a) = some s') : Kept q e n g type s' := by
  have live := table.ref_pos (table.puts_holds window.puts)
  have clear := window.clear table
  obtain ⟨puts, past, inum, gen, sort⟩ := window
  have found : s' = (s.goes q .outside).hold q e := by
    have turn : Turn s q a s' := step_turn run
    cases turn with
    | share a e' at' live' =>
        rcases at' with no | here
        · rw [waits] at no
          cases no
        · have same := Pc.allocated.inj (waits.symm.trans here)
          rw [table.unique e' e live' live (by rw [← same, inum])]
    | recycle a e' n' at' bound free new =>
        rcases at' with no | here
        · rw [waits] at no
          cases no
        · obtain rfl := Pc.allocated.inj (waits.symm.trans here)
          exact absurd inum (new e (table.inside e live) live)
    | _ => simp_all
  rw [found]
  refine ⟨by simp, ?_, by simp [Pc.puts], by simpa using inum, by simpa using gen, by simpa using sort⟩
  intro x
  by_cases own : x = q
  · simp [own]
  · simpa [own] using clear x

end Steps

/-- `q` allocates the inode `n` at `j` and gets its entry at `k`, all while `p` is in `iput` with
the entry, before `ip->ref--`. -/
structure Reused (run : Run step) (p q e n type j k : Nat) : Prop where
  order : j < k
  inside : k < run.len
  puts : ∀ m, j ≤ m → m ≤ k → ((run.state m).pc p).puts e
  inum : ((run.state j).itable e).inum = n
  marks : run.event j = (q, .ialloc n type)
  gets : (run.event k).1 = q
  between : ∀ m, j < m → m < k → (run.event m).1 ≠ q

/-- The entry is the allocated inode's, and who has it locked reads the inode on the disk. -/
structure Sees (q e n g type : Nat) (s : State) : Prop where
  holds : q ∈ s.holders e
  inum : (s.itable e).inum = n
  gen : s.gen n = g
  type : (s.disk n).type = type
  reads : (s.itable e).lock = some q → s.pc q ≠ .loading e →
    (s.itable e).valid = true ∧ s.disk n = ⟨(s.itable e).type, (s.itable e).nlink⟩

theorem Kept.sees {s : State} {q e n g type : Nat} (kept : Kept q e n g type s) (table : Table s) :
    Sees q e n g type s where
  holds := kept.holds
  inum := kept.inum
  gen := kept.gen
  type := kept.type
  reads locked loaded := by
    have apart := kept.apart
    obtain ⟨valid, disk, -⟩ := table.locked_agrees locked ⟨loaded, (kept.clear q).2,
      fun no => apart (by rw [no]; rfl), fun no => apart (by rw [no]; rfl)⟩
    rw [kept.inum] at disk
    exact ⟨valid, disk⟩

theorem reused_sees {disk : Nat → Dinode} (run : Run step) (start : run.state 0 = booted disk)
    {p q e n type j k : Nat} (reused : Reused run p q e n type j k) {l : Nat} (after : k < l)
    (within : l ≤ run.len)
    (keeps : ∀ m, k < m → m < l → run.event m ≠ (q, .iput e)) :
    Sees q e n ((run.state j).gen n + 1) type (run.state l) := by
  obtain ⟨order, inside, puts, inum, marks, gets, between⟩ := reused
  have inv := run_inv run start
  have first := run.next j (by omega)
  rw [marks] at first
  obtain ⟨window, waits, some⟩ :=
    ialloc_window (inv j (by omega)).table (puts j (Nat.le_refl j) (by omega)) inum first
  -- until `iget`
  have up : Window p e n ((run.state j).gen n + 1) type (run.state k) ∧
      (run.state k).pc q = .allocated n := by
    refine run.between (fun m => Window p e n ((run.state j).gen n + 1) type (run.state m) ∧
      (run.state m).pc q = .allocated n) (j + 1) k (by omega) ⟨window, waits⟩ ?_ k (by omega)
      (Nat.le_refl k)
    rintro m low high next ⟨window, waits⟩
    have table := (inv m (by omega)).table
    have turn : Turn _ (run.event m).1 (run.event m).2 _ := step_turn next
    refine ⟨window.next table some turn (puts (m + 1) (by omega) (by omega)), ?_⟩
    rw [(turn.frame table).pcs q (Ne.symm (between m (by omega) high))]
    exact waits
  have gotten := run.next k inside
  rw [show run.event k = (q, (run.event k).2) by rw [← gets]] at gotten
  have kept := up.1.iget (inv k (by omega)).table up.2 gotten
  -- and from then on
  have still : Kept q e n ((run.state j).gen n + 1) type (run.state l) := by
    refine run.between (fun m => Kept q e n ((run.state j).gen n + 1) type (run.state m))
      (k + 1) l within kept ?_ l (by omega) (Nat.le_refl l)
    intro m low high next kept
    have turn : Turn _ (run.event m).1 (run.event m).2 _ := step_turn next
    refine kept.next (inv m (by omega)).table some turn fun own act => ?_
    exact keeps m (by omega) high (Prod.ext own act)
  exact still.sees (inv l within).table

/-- In every run from boot: `iput` finds the sleep-lock free when it finds its reference to be
the only one and the inode without links, so that it does not sleep; each inode that it finds so
is freed on the disk once; and who allocates the number anew before the reference is given up
gets the old entry, keeps the inode it has allocated, and reads it when it locks the entry. -/
theorem iput_never_waits {disk : Nat → Dinode} (run : Run step) (start : run.state 0 = booted disk) :
    (∀ k, k ≤ run.len → ∀ p e, (MayPut (run.state k) p e → Found (run.state k) e →
      ((run.state k).itable e).lock = none) ∧ (run.state k).pc p ≠ .asleep e) ∧
    (∀ k, k ≤ run.len → (run.state k).found.Nodup ∧ (run.state k).freed.Nodup ∧
      ∀ x, x ∈ (run.state k).found ↔ x ∈ (run.state k).freed ∨ ∃ p, Pending (run.state k) p x) ∧
    ∀ p q e n type j k, Reused run p q e n type j k → ∀ l, k < l → l ≤ run.len →
      (∀ m, k < m → m < l → run.event m ≠ (q, .iput e)) →
        Sees q e n ((run.state j).gen n + 1) type (run.state l) := by
  have inv := run_inv run start
  refine ⟨?_, ?_, ?_⟩
  · intro k within p e
    have table := (inv k within).table
    refine ⟨fun may found => table.found_free may found, fun sleeps => ?_⟩
    have stands := (table.own p).stands
    rw [sleeps] at stands
    exact stands
  · intro k within
    have ledger := (inv k within).ledger
    exact ⟨ledger.found, ledger.freed, ledger.known⟩
  · intro p q e n type j k reused l after within keeps
    exact reused_sees run start reused after within keeps

/-- Process 0 makes and puts an inode; process 1 makes another of the same number meanwhile. -/
def madeAgain : List (Nat × Act) :=
  [(0, .ialloc 5 2), (0, .go), (0, .ilock 0), (0, .go), (0, .go), (0, .iunlock 0), (0, .iput 0),
    (0, .go), (0, .go),
    (1, .ialloc 5 3), (1, .go), (0, .go), (0, .go), (0, .go), (1, .ilock 0), (1, .go), (1, .go)]

theorem madeAgain_runs : (exec step (booted fun _ => ⟨0, 0⟩) madeAgain).isSome := by decide +kernel

def madeAgainRun : Run step :=
    Run.ofEvents step (booted fun _ => ⟨0, 0⟩) madeAgain (0, .go) madeAgain_runs

theorem madeAgain_reused : ∃ s : State, s.found = [(5, 1)] ∧ s.freed = [(5, 1)] ∧
    (s.itable 0).lock = some 1 ∧
    Sees 1 0 5 2 3 s := by
  have start : madeAgainRun.state 0 = booted fun _ => ⟨0, 0⟩ := Run.ofEvents_zero _ _ _ _ madeAgain_runs
  have reused : Reused madeAgainRun 0 1 0 5 3 9 10 := by
    refine ⟨by decide, by decide, ?_, by decide +kernel, rfl, rfl, fun m low high => by omega⟩
    intro m low high
    obtain rfl | rfl : m = 9 ∨ m = 10 := by omega
    · have here : (madeAgainRun.state 9).pc 0 = .invalidating 0 := by decide +kernel
      rw [here]
      rfl
    · have here : (madeAgainRun.state 10).pc 0 = .invalidating 0 := by decide +kernel
      rw [here]
      rfl
  have keeps : ∀ m, 10 < m → m < 17 → madeAgainRun.event m ≠ (1, .iput 0) := by
    intro m _ bound same
    have inside := Run.ofEvents_mem step _ _ (0, .go) madeAgain_runs m bound
    change madeAgainRun.event m ∈ madeAgain at inside
    rw [same] at inside
    revert inside
    decide
  have sees := (iput_never_waits madeAgainRun start).2.2 0 1 0 5 3 9 10 reused 17 (by decide)
    (Nat.le_refl 17) keeps
  have gen : (madeAgainRun.state 9).gen 5 = 1 := by decide +kernel
  rw [gen] at sees
  exact ⟨madeAgainRun.state 17, by decide +kernel, by decide +kernel, by decide +kernel, sees⟩

end Xv6Fcfs.Inodes
