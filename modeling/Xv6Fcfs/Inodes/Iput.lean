import Xv6Fcfs.Inodes.Model

/-!
# `iput` never waits with `itable.lock` held

The count of an entry is the number of its references, and who has an inode locked has one of
them.  So a process that finds its own reference to be the only one finds the lock free.
-/

set_option autoImplicit false

namespace Xv6Fcfs.Inodes

open Xv6Fcfs.Lib

/-! ## What a step does -/

/-- `iput` finds the last reference to an inode without links. -/
def Found (s : State) (e : Nat) : Prop :=
  (s.itable e).ref = 1 ∧ (s.itable e).valid = true ∧ (s.itable e).nlink = 0

inductive Turn (s : State) (p : Nat) : Act → State → Prop
  | share (a : Act) (e : Nat) (at' : s.pc p = .outside ∨ s.pc p = .allocated (s.itable e).inum)
      (live : 0 < (s.itable e).ref) : Turn s p a ((s.goes p .outside).hold p e)
  | recycle (a : Act) (e n : Nat) (at' : s.pc p = .outside ∨ s.pc p = .allocated n) (bound : e < NINODE)
      (free : (s.itable e).ref = 0)
      (new : ∀ e', e' < NINODE → 0 < (s.itable e').ref → (s.itable e').inum ≠ n) :
      Turn s p a ((s.goes p .outside).recycle p e n)
  | ialloc (n type : Nat) (at' : s.pc p = .outside) (free : (s.disk n).type = 0) (some : type ≠ 0) :
      Turn s p (.ialloc n type) ((s.mark n type).goes p (.allocated n))
  | idup (e : Nat) (at' : s.pc p = .outside) (holds : p ∈ s.holders e) : Turn s p (.idup e) (s.hold p e)
  | ilock (e : Nat) (at' : s.pc p = .outside) (holds : p ∈ s.holders e) :
    Turn s p (.ilock e) (s.goes p (.locking e))
  | acquire (e : Nat) (at' : s.pc p = .locking e) (free : (s.itable e).lock = none) :
      Turn s p .go ((s.setLock e (some p)).goes p (.loading e))
  | loaded (e : Nat) (at' : s.pc p = .loading e) (valid : (s.itable e).valid = true) :
    Turn s p .go (s.goes p .outside)
  | load (e : Nat) (at' : s.pc p = .loading e) (invalid : (s.itable e).valid = false)
      (some : (s.disk (s.itable e).inum).type ≠ 0) :
      Turn s p .go ((s.setInode e { s.itable e with
        valid := true, type := (s.disk (s.itable e).inum).type,
        nlink := (s.disk (s.itable e).inum).nlink }).goes p .outside)
  | iunlock (e : Nat) (at' : s.pc p = .outside) (held : (s.itable e).lock = some p) :
      Turn s p (.iunlock e) (s.setLock e none)
  | setNlink (e nlink : Nat) (at' : s.pc p = .outside) (held : (s.itable e).lock = some p) :
      Turn s p (.setNlink e nlink) ((s.setInode e { s.itable e with nlink := nlink }).iupdate e)
  | found (e : Nat) (at' : s.pc p = .outside) (may : MayPut s p e) (found : Found s e)
      (free : (s.itable e).lock = none) :
        Turn s p (.iput e) (((s.setLock e (some p)).noteFound e).goes p (.truncating e))
  | asleep (e : Nat) (at' : s.pc p = .outside) (may : MayPut s p e) (found : Found s e)
      (locked : (s.itable e).lock ≠ none) : Turn s p (.iput e) (s.goes p (.asleep e))
  | put (e : Nat) (at' : s.pc p = .outside) (may : MayPut s p e) (other : ¬ Found s e) :
      Turn s p (.iput e) (s.drop p e)
  | truncate (e : Nat) (at' : s.pc p = .truncating e) :
      Turn s p .go ((s.setInode e { s.itable e with type := 0 }).goes p (.updating e))
  | update (e : Nat) (at' : s.pc p = .updating e) :
      Turn s p .go (((s.iupdate e).noteFreed e).goes p (.invalidating e))
  | invalidate (e : Nat) (at' : s.pc p = .invalidating e) :
      Turn s p .go ((s.setInode e { s.itable e with valid := false }).goes p (.releasing e))
  | release (e : Nat) (at' : s.pc p = .releasing e) :
      Turn s p .go ((s.setLock e none).goes p (.dropping e))
  | dropped (e : Nat) (at' : s.pc p = .dropping e) : Turn s p .go ((s.drop p e).goes p .outside)

section Inversion
variable {s s' : State} {p n : Nat} {a : Act}

theorem goes_self : s.goes p (s.pc p) = s := by
  rw [State.goes, upd_eq_self]

theorem slot_some {e : Nat} (found : s.slot n = some e) :
    e < NINODE ∧ 0 < (s.itable e).ref ∧ (s.itable e).inum = n := by
  have bound := List.mem_range.mp (List.mem_of_find?_eq_some found)
  have both := List.find?_some found
  exact ⟨bound, by simpa using both⟩

theorem slot_none (none : s.slot n = none) : ∀ e, e < NINODE → 0 < (s.itable e).ref →
    (s.itable e).inum ≠ n := by
  intro e bound live same
  have no := List.find?_eq_none.mp none e (List.mem_range.mpr bound)
  exact no (by simp [live, same])

theorem empty_some {e : Nat} (found : s.empty = some e) : e < NINODE ∧ (s.itable e).ref = 0 := by
  have bound := List.mem_range.mp (List.mem_of_find?_eq_some found)
  have free := List.find?_some found
  exact ⟨bound, by simpa using free⟩

theorem iget_turn (at' : s.pc p = .outside ∨ s.pc p = .allocated n)
    (got : (s.goes p .outside).iget p n = some s') : Turn s p a s' := by
  unfold State.iget at got
  split at got
  next e found =>
    cases got
    obtain ⟨-, live, rfl⟩ := slot_some found
    exact .share a e at' live
  next none =>
    split at got
    · cases got
    next e free =>
      cases got
      obtain ⟨bound, unused⟩ := empty_some free
      exact .recycle a e n at' bound unused (slot_none none)

theorem step_turn (run : step s (p, a) = some s') : Turn s p a s' := by
  cases here : s.pc p with
  | outside =>
      cases a with
      | iget n =>
          simp only [step, here] at run
          exact iget_turn (Or.inl here) (by rw [← here, goes_self]; exact run)
      | ialloc n type =>
          simp only [step, here] at run
          split at run
          next both =>
            cases run
            exact .ialloc n type here both.1 both.2
          next => cases run
      | idup e =>
          simp only [step, here] at run
          split at run
          next holds =>
            cases run
            exact .idup e here holds
          next => cases run
      | ilock e =>
          simp only [step, here] at run
          split at run
          next holds =>
            cases run
            exact .ilock e here holds
          next => cases run
      | iunlock e =>
          simp only [step, here] at run
          split at run
          next held =>
            cases run
            exact .iunlock e here held
          next => cases run
      | setNlink e nlink =>
          simp only [step, here] at run
          split at run
          next held =>
            cases run
            exact .setNlink e nlink here held
          next => cases run
      | iput e =>
          simp only [step, here] at run
          split at run
          next may =>
            cases run
            simp only [State.iput]
            split
            next found =>
              split
              next free => exact .found e here may found free
              next q locked => exact .asleep e here may found (by rw [locked]; simp)
            next other => exact .put e here may other
          next => cases run
      | go => simp only [step, here, reduceCtorEq] at run
  | allocated n =>
      cases a <;> simp only [step, here, reduceCtorEq] at run
      exact iget_turn (Or.inr here) run
  | locking e =>
      cases a <;> simp only [step, here, reduceCtorEq] at run
      split at run
      next free =>
        cases run
        exact .acquire e here free
      next => cases run
  | loading e =>
      cases a <;> simp only [step, here, reduceCtorEq] at run
      split at run
      next valid =>
        cases run
        exact .loaded e here valid
      next invalid =>
        split at run
        · cases run
        next some =>
          cases run
          exact .load e here (by simpa using invalid) some
  | truncating e =>
      cases a <;> simp only [step, here, Option.some.injEq, reduceCtorEq] at run
      exact run ▸ .truncate e here
  | updating e =>
      cases a <;> simp only [step, here, Option.some.injEq, reduceCtorEq] at run
      exact run ▸ .update e here
  | invalidating e =>
      cases a <;> simp only [step, here, Option.some.injEq, reduceCtorEq] at run
      exact run ▸ .invalidate e here
  | releasing e =>
      cases a <;> simp only [step, here, Option.some.injEq, reduceCtorEq] at run
      exact run ▸ .release e here
  | dropping e =>
      cases a <;> simp only [step, here, Option.some.injEq, reduceCtorEq] at run
      exact run ▸ .dropped e here
  | asleep e => cases a <;> simp only [step, here, reduceCtorEq] at run

end Inversion

/-! ## The invariant -/

/-- The process has found the entry without other references in `iput`, and goes on. -/
def Pc.puts : Pc → Nat → Prop
  | .truncating e, e' | .updating e, e' | .invalidating e, e'
  | .releasing e, e' | .dropping e, e' => e = e'
  | _, _ => False

def Stands (s : State) (p : Nat) : Pc → Prop
  | .outside | .allocated _ => True
  | .locking e => p ∈ s.holders e
  | .loading e | .truncating e | .invalidating e | .releasing e => (s.itable e).lock = some p
  | .updating e => (s.itable e).lock = some p ∧ (s.itable e).type = 0 ∧
    (s.disk (s.itable e).inum).type ≠ 0
  | .dropping e => p ∈ s.holders e ∧ (s.itable e).lock ≠ some p
  | .asleep _ => False

structure Own (s : State) (p : Nat) : Prop where
  has : ∀ e, (s.itable e).lock = some p → p ∈ s.holders e
  loaded : ∀ e, (s.itable e).lock = some p →
    s.pc p = .loading e ∨ s.pc p = .releasing e ∨ (s.itable e).valid = true
  stands : Stands s p (s.pc p)

/-- The process has changed the type in memory and not yet marked the copy as out of date. -/
def Stale (s : State) (e : Nat) : Prop :=
  ∃ p, (s.itable e).lock = some p ∧ (s.pc p = .updating e ∨ s.pc p = .invalidating e)

def Agrees (s : State) (e : Nat) : Prop :=
  s.disk (s.itable e).inum = ⟨(s.itable e).type, (s.itable e).nlink⟩ ∧ (s.itable e).type ≠ 0

structure Table (s : State) : Prop where
  count : ∀ e, (s.itable e).ref = (s.holders e).length
  inside : ∀ e, 0 < (s.itable e).ref → e < NINODE
  unique : ∀ e e', 0 < (s.itable e).ref → 0 < (s.itable e').ref →
    (s.itable e).inum = (s.itable e').inum → e = e'
  own : ∀ p, Own s p
  sole : ∀ p p' e, (s.pc p).puts e → (s.pc p').puts e → p = p'
  agrees : ∀ e, 0 < (s.itable e).ref → (s.itable e).valid = true → Stale s e ∨ Agrees s e

/-! ## What a step of one process leaves to the others -/

structure Frame (s : State) (q : Nat) (s' : State) : Prop where
  pcs : ∀ p, p ≠ q → s'.pc p = s.pc p
  holders : ∀ p, p ≠ q → ∀ e, p ∈ s'.holders e ↔ p ∈ s.holders e
  locks : ∀ p, p ≠ q → ∀ e, (s'.itable e).lock = some p ↔ (s.itable e).lock = some p
  entry : ∀ e, 0 < (s.itable e).ref → (s'.itable e).inum = (s.itable e).inum ∧
    ((s.itable e).lock = some q ∨ ((s'.itable e).valid = (s.itable e).valid ∧
      (s'.itable e).type = (s.itable e).type ∧ (s'.itable e).nlink = (s.itable e).nlink))
  recycled : ∀ e, (s.itable e).ref = 0 → (s'.itable e).ref = 0 ∨ (s'.itable e).valid = false
  disk : ∀ n, s'.disk n = s.disk n ∨ (s.disk n).type = 0 ∨ ∃ e, (s.itable e).lock = some q ∧
    (s.itable e).inum = n
  count : ∀ e, (s'.itable e).ref = (s'.holders e).length

section Steps
variable {s s' : State} {p q e n : Nat} {a : Act}

theorem Table.ref_pos (table : Table s) (holds : p ∈ s.holders e) : 0 < (s.itable e).ref := by
  rw [table.count]
  exact List.length_pos_of_mem holds

theorem Table.lock_pos (table : Table s) (locked : (s.itable e).lock = some p) : 0 < (s.itable e).ref :=
  table.ref_pos ((table.own p).has e locked)

theorem Table.found_free (table : Table s) (may : MayPut s p e) (found : Found s e) :
    (s.itable e).lock = none := by
  obtain ⟨holds, discipline⟩ := may
  obtain ⟨x, alone⟩ : ∃ x, s.holders e = [x] :=
    List.length_eq_one_iff.mp ((table.count e).symm.trans found.1)
  cases locked : (s.itable e).lock with
  | none => rfl
  | some q =>
      have has := (table.own q).has e locked
      rw [alone, List.mem_singleton] at has holds
      obtain rfl : q = p := has.trans holds.symm
      have two := discipline locked
      have most := List.count_le_length (a := q) (l := s.holders e)
      rw [alone] at two most
      simp only [List.length_singleton] at most
      omega

theorem Turn.frame (turn : Turn s q a s') (table : Table s) : Frame s q s' := by
  have count := table.count
  have stands := (table.own q).stands
  have pos : ∀ {e}, q ∈ s.holders e → 0 < (s.itable e).ref := table.ref_pos
  have live : ∀ {e}, (s.itable e).lock = some q → 0 < (s.itable e).ref := table.lock_pos
  cases turn with
  | share a e at' live => constructor <;> grind
  | recycle a e n at' bound free new => constructor <;> grind
  | ialloc n type at' free some => constructor <;> grind
  | idup e at' holds => constructor <;> grind
  | ilock e at' holds => constructor <;> grind
  | acquire e at' free =>
      have holds : q ∈ s.holders e := by simpa only [at', Stands] using stands
      constructor <;> grind
  | loaded e at' valid => constructor <;> grind
  | load e at' invalid some =>
      have locked : (s.itable e).lock = .some q := by simpa only [at', Stands] using stands
      constructor <;> grind
  | iunlock e at' held => constructor <;> grind
  | setNlink e nlink at' held => constructor <;> grind
  | found e at' may found free =>
      have holds := may.1
      constructor <;> grind
  | asleep e at' may found locked => constructor <;> grind
  | put e at' may other =>
      have holds := may.1
      constructor <;> grind
  | truncate e at' =>
      have locked : (s.itable e).lock = some q := by simpa only [at', Stands] using stands
      constructor <;> grind
  | update e at' =>
      have locked : (s.itable e).lock = some q := by
        simp only [at', Stands] at stands
        exact stands.1
      constructor <;> grind
  | invalidate e at' =>
      have locked : (s.itable e).lock = some q := by simpa only [at', Stands] using stands
      constructor <;> grind
  | release e at' =>
      have locked : (s.itable e).lock = some q := by simpa only [at', Stands] using stands
      constructor <;> grind
  | dropped e at' =>
      have holds : q ∈ s.holders e := by
        simp only [at', Stands] at stands
        exact stands.1
      constructor <;> grind

/-- An inode in use stays as it is on the disk, unless the process that moves has it locked. -/
theorem Frame.disk_kept (frame : Frame s q s') (table : Table s) (live : 0 < (s.itable e).ref)
    (other : (s.itable e).lock ≠ some q) (used : (s.disk (s.itable e).inum).type ≠ 0) :
    s'.disk (s.itable e).inum = s.disk (s.itable e).inum := by
  rcases frame.disk (s.itable e).inum with same | free | ⟨e', locked, inum⟩
  · exact same
  · exact absurd free used
  · have both := table.unique e' e (table.lock_pos locked) live inum
    rw [both] at locked
    exact absurd locked other

theorem Frame.own (frame : Frame s q s') (table : Table s) (differ : p ≠ q) : Own s' p := by
  obtain ⟨has, loaded, stands⟩ := table.own p
  have kept : ∀ e, (s.itable e).lock = some p → (s'.itable e).inum = (s.itable e).inum ∧
      (s'.itable e).valid = (s.itable e).valid ∧ (s'.itable e).type = (s.itable e).type ∧
      (s'.itable e).nlink = (s.itable e).nlink := by
    intro e locked
    obtain ⟨inum, same⟩ := frame.entry e (table.lock_pos locked)
    rcases same with mine | same
    · exact absurd (Option.some.inj (locked.symm.trans mine)) differ
    · exact ⟨inum, same⟩
  constructor
  · intro e locked
    rw [frame.holders p differ]
    exact has e ((frame.locks p differ e).mp locked)
  · intro e locked
    have before := (frame.locks p differ e).mp locked
    rw [frame.pcs p differ, (kept e before).2.1]
    exact loaded e before
  · rw [frame.pcs p differ]
    cases here : s.pc p with
    | updating e =>
        simp only [here, Stands] at stands ⊢
        obtain ⟨locked, zero, used⟩ := stands
        obtain ⟨inum, -, type, -⟩ := kept e locked
        have other : (s.itable e).lock ≠ some q := by
          rw [locked]
          simpa using differ
        rw [frame.locks p differ, inum, type, frame.disk_kept table (table.lock_pos locked) other used]
        exact ⟨locked, zero, used⟩
    | _ =>
        simp only [here, Stands, frame.holders p differ, frame.locks p differ, ne_eq] at stands ⊢
        try exact stands

/-- Who has an inode locked and not freed it sees what is on the disk. -/
theorem Table.locked_agrees (table : Table s) (locked : (s.itable e).lock = some p)
    (place : s.pc p ≠ .loading e ∧ s.pc p ≠ .updating e ∧ s.pc p ≠ .invalidating e ∧
    s.pc p ≠ .releasing e) :
    (s.itable e).valid = true ∧ Agrees s e := by
  obtain ⟨loading, updating, invalidating, releasing⟩ := place
  have valid : (s.itable e).valid = true := by
    rcases (table.own p).loaded e locked with no | no | valid
    · exact absurd no loading
    · exact absurd no releasing
    · exact valid
  refine ⟨valid, ?_⟩
  rcases table.agrees e (table.lock_pos locked) valid with ⟨q, same, no⟩ | agrees
  · obtain rfl : q = p := Option.some.inj (same.symm.trans locked)
    rcases no with no | no
    · exact absurd no updating
    · exact absurd no invalidating
  · exact agrees

theorem Turn.own (turn : Turn s q a s') (table : Table s) : Own s' q := by
  obtain ⟨has, loaded, stands⟩ := table.own q
  have count := table.count
  cases turn with
  | share a e at' live => constructor <;> grind [Stands]
  | recycle a e n at' bound free new => constructor <;> grind [Stands]
  | ialloc n type at' free some => constructor <;> grind [Stands]
  | idup e at' holds => constructor <;> grind [Stands]
  | ilock e at' holds => constructor <;> grind [Stands]
  | acquire e at' free => constructor <;> grind [Stands]
  | loaded e at' valid => constructor <;> grind [Stands]
  | load e at' invalid some => constructor <;> grind [Stands]
  | iunlock e at' held => constructor <;> grind [Stands]
  | setNlink e nlink at' held => constructor <;> grind [Stands]
  | found e at' may found free => constructor <;> grind [Stands, MayPut, Found]
  | asleep e at' may found locked => exact absurd (table.found_free may found) locked
  | put e at' may other =>
      have still : (s.itable e).lock = some q → q ∈ (s.holders e).erase q := by
        intro locked
        rw [← List.count_pos_iff, List.count_erase_self]
        have two := may.2 locked
        omega
      constructor <;> grind [Stands]
  | truncate e at' =>
      have locked : (s.itable e).lock = some q := by simpa only [at', Stands] using stands
      obtain ⟨valid, disk, some⟩ := table.locked_agrees locked (by simp [at'])
      have used : (s.disk (s.itable e).inum).type ≠ 0 := by rw [disk]; exact some
      constructor <;> grind [Stands]
  | update e at' => constructor <;> grind [Stands]
  | invalidate e at' => constructor <;> grind [Stands]
  | release e at' => constructor <;> grind [Stands]
  | dropped e at' => constructor <;> grind [Stands]

theorem Turn.inside (turn : Turn s q a s') (table : Table s) : ∀ e, 0 < (s'.itable e).ref →
    e < NINODE := by
  have inside := table.inside
  have pos : ∀ {e}, q ∈ s.holders e → 0 < (s.itable e).ref := table.ref_pos
  cases turn <;> grind

theorem Turn.unique (turn : Turn s q a s') (table : Table s) : ∀ e e', 0 < (s'.itable e).ref →
    0 < (s'.itable e').ref → (s'.itable e).inum = (s'.itable e').inum → e = e' := by
  have inside := table.inside
  have unique := table.unique
  have pos : ∀ {e}, q ∈ s.holders e → 0 < (s.itable e).ref := table.ref_pos
  cases turn <;> grind

theorem Frame.agrees (frame : Frame s q s') (table : Table s) (other : (s.itable e).lock ≠ some q)
    (live : 0 < (s'.itable e).ref) (valid : (s'.itable e).valid = true) : Stale s' e ∨ Agrees s' e := by
  have before : 0 < (s.itable e).ref := by
    rcases Nat.eq_zero_or_pos (s.itable e).ref with zero | pos
    · rcases frame.recycled e zero with still | invalid
      · omega
      · rw [invalid] at valid
        cases valid
    · exact pos
  obtain ⟨inum, same⟩ := frame.entry e before
  rcases same with mine | ⟨sameValid, type, nlink⟩
  · exact absurd mine other
  rcases table.agrees e before (by rw [← sameValid]; exact valid) with ⟨p, locked, place⟩ | ⟨disk, some⟩
  · have differ : p ≠ q := by
      rintro rfl
      exact other locked
    left
    refine ⟨p, (frame.locks p differ e).mpr locked, ?_⟩
    rw [frame.pcs p differ]
    exact place
  · right
    rw [Agrees, inum, type, nlink, frame.disk_kept table before other (by rw [disk]; exact some)]
    exact ⟨disk, some⟩

theorem Turn.agrees (turn : Turn s q a s') (table : Table s) (locked : (s.itable e).lock = some q)
    (live : 0 < (s'.itable e).ref) (valid : (s'.itable e).valid = true) : Stale s' e ∨ Agrees s' e := by
  have stands := (table.own q).stands
  have agrees := table.agrees
  have unique := table.unique
  have lives : ∀ {e}, (s.itable e).lock = some q → 0 < (s.itable e).ref := table.lock_pos
  cases turn with
  | load e' at' invalid some =>
      right
      by_cases same : e = e'
      · subst same
        simpa [Agrees] using some
      · obtain ⟨-, agree⟩ := table.locked_agrees locked (by simp [at', Ne.symm same])
        simpa [Agrees, same] using agree
  | _ => grind [Stands, Stale, Agrees]

theorem Table.puts_holds (table : Table s) (puts : (s.pc p).puts e) : p ∈ s.holders e := by
  have stands := (table.own p).stands
  have has := (table.own p).has
  cases here : s.pc p <;> simp only [here, Pc.puts] at puts <;> subst puts <;>
    simp only [here, Stands] at stands <;> grind

/-- Who finds the only reference is alone with the entry, and stays so until it is put. -/
theorem Turn.sole (turn : Turn s q a s') (table : Table s) :
    ∀ p p' e, (s'.pc p).puts e → (s'.pc p').puts e → p = p' := by
  have frame := turn.frame table
  have alone : ∀ p e, (s'.pc q).puts e → p ≠ q → ¬ (s.pc p).puts e := by
    intro p e puts differ other
    have before : (s.pc q).puts e ∨ s.holders e = [q] := by
      cases turn with
      | found e' at' may found free =>
          obtain ⟨x, single⟩ := List.length_eq_one_iff.mp ((table.count e').symm.trans found.1)
          have mine := may.1
          rw [single, List.mem_singleton] at mine
          have same : e' = e := by simpa [Pc.puts] using puts
          exact Or.inr (by rw [← same, single, mine])
      | _ => grind [Pc.puts]
    rcases before with both | single
    · exact differ (table.sole p q e other both)
    · have holds := table.puts_holds other
      rw [single, List.mem_singleton] at holds
      exact differ holds
  intro p p' e first second
  by_cases own : p = q <;> by_cases own' : p' = q
  · rw [own, own']
  · rw [own] at first
    rw [frame.pcs p' own'] at second
    exact absurd second (alone p' e first own')
  · rw [own'] at second
    rw [frame.pcs p own] at first
    exact absurd first (alone p e second own)
  · rw [frame.pcs p own] at first
    rw [frame.pcs p' own'] at second
    exact table.sole p p' e first second

theorem Turn.table (turn : Turn s q a s') (table : Table s) : Table s' := by
  have frame := turn.frame table
  refine ⟨frame.count, turn.inside table, turn.unique table, ?_, turn.sole table, ?_⟩
  · intro p
    by_cases own : p = q
    · rw [own]
      exact turn.own table
    · exact frame.own table own
  · intro e live valid
    by_cases mine : (s.itable e).lock = some q
    · exact turn.agrees table mine live valid
    · exact frame.agrees table mine live valid

/-! ## What is freed -/

/-- The process has found the inode without links, and has not freed it yet. -/
def Pending (s : State) (p : Nat) (x : Nat × Nat) : Prop :=
  ∃ e, (s.pc p = .truncating e ∨ s.pc p = .updating e) ∧ x = s.incarnation e

structure Ledger (s : State) : Prop where
  found : s.found.Nodup
  freed : s.freed.Nodup
  past : ∀ x ∈ s.found, x.2 ≤ s.gen x.1
  /-- What is freed stays free until it is allocated again. -/
  free : ∀ x ∈ s.freed, x.2 = s.gen x.1 → (s.disk x.1).type = 0
  known : ∀ x, x ∈ s.found ↔ x ∈ s.freed ∨ ∃ p, Pending s p x

theorem Table.pending_used (table : Table s) (place : s.pc p = .truncating e ∨ s.pc p = .updating e) :
    (s.itable e).lock = some p ∧ (s.disk (s.itable e).inum).type ≠ 0 := by
  have stands := (table.own p).stands
  rcases place with truncating | updating
  · simp only [truncating, Stands] at stands
    obtain ⟨-, disk, some⟩ := table.locked_agrees stands (by simp [truncating])
    exact ⟨stands, by rw [disk]; exact some⟩
  · simp only [updating, Stands] at stands
    exact ⟨stands.1, stands.2.2⟩

theorem Turn.gen (turn : Turn s q a s') (n : Nat) :
    s'.gen n = s.gen n ∨ ((s.disk n).type = 0 ∧ s'.gen n = s.gen n + 1) := by
  cases turn <;> grind

theorem Turn.incarnation (turn : Turn s q a s') (table : Table s) (live : 0 < (s.itable e).ref)
    (used : (s.disk (s.itable e).inum).type ≠ 0) : s'.incarnation e = s.incarnation e := by
  rw [State.incarnation, State.incarnation, ((turn.frame table).entry e live).1]
  rcases turn.gen (s.itable e).inum with same | ⟨free, -⟩
  · rw [same]
  · exact absurd free used

theorem Turn.pending_other (turn : Turn s q a s') (table : Table s) (differ : p ≠ q) (x : Nat × Nat) :
    Pending s' p x ↔ Pending s p x := by
  unfold Pending
  rw [(turn.frame table).pcs p differ]
  refine exists_congr fun e => and_congr_right fun place => ?_
  obtain ⟨locked, used⟩ := table.pending_used place
  rw [turn.incarnation table (table.lock_pos locked) used]

theorem Turn.pending_self (turn : Turn s q a s') :
    (s'.found = s.found ∧ s'.freed = s.freed ∧ ∀ x, Pending s' q x ↔ Pending s q x) ∨
    (∃ e, Found s e ∧ (s.itable e).lock = none ∧ s'.gen = s.gen ∧ s'.disk = s.disk ∧
    s'.freed = s.freed ∧
      s'.found = s.incarnation e :: s.found ∧ ∀ x, (Pending s' q x ↔ x = s.incarnation e) ∧
        ¬ Pending s q x) ∨
    ∃ e, s.pc q = .updating e ∧ (s'.disk (s.itable e).inum).type = (s.itable e).type ∧
      s'.found = s.found ∧
      s'.freed = s.incarnation e :: s.freed ∧ ∀ x, (Pending s q x ↔ x = s.incarnation e) ∧
        ¬ Pending s' q x := by
  cases turn with
  | found e at' may found free =>
      refine Or.inr (Or.inl ⟨e, found, free, rfl, rfl, rfl, ?_, ?_⟩) <;> grind
        [Pending, State.incarnation]
  | update e at' =>
      refine Or.inr (Or.inr ⟨e, at', by simp, rfl, rfl, ?_⟩)
      grind [Pending, State.incarnation]
  | truncate e at' =>
      refine Or.inl ⟨rfl, rfl, ?_⟩
      grind [Pending, State.incarnation]
  | _ => 
      refine Or.inl ⟨rfl, rfl, ?_⟩
      grind [Pending]

theorem Turn.free (turn : Turn s q a s') (table : Table s) (free : (s.disk n).type = 0)
    (same : s'.gen n = s.gen n) : (s'.disk n).type = 0 := by
  have stands := (table.own q).stands
  cases turn with
  | setNlink e nlink at' held =>
      obtain ⟨-, disk, some⟩ := table.locked_agrees held (by simp [at'])
      grind
  | update e at' =>
      simp only [at', Stands] at stands
      grind
  | _ => grind

theorem Turn.ledger (turn : Turn s q a s') (table : Table s) (ledger : Ledger s) : Ledger s' := by
  obtain ⟨found, freed, past, free, known⟩ := ledger
  have pastFreed : ∀ x ∈ s.freed, x.2 ≤ s.gen x.1 := fun x inside =>
    past x ((known x).mpr (Or.inl inside))
  have later : ∀ n, s.gen n ≤ s'.gen n := by
    intro n
    rcases turn.gen n with same | ⟨-, more⟩ <;> omega
  have still : ∀ x ∈ s.freed, x.2 = s'.gen x.1 → (s'.disk x.1).type = 0 := by
    intro x inside now
    have before := pastFreed x inside
    have after := later x.1
    exact turn.free table (free x inside (by omega)) (by omega)
  have others : ∀ x, (∃ p, Pending s' p x) ↔ Pending s' q x ∨ ∃ p, p ≠ q ∧ Pending s p x := by
    intro x
    constructor
    · rintro ⟨p, pending⟩
      by_cases own : p = q
      · exact Or.inl (own ▸ pending)
      · exact Or.inr ⟨p, own, (turn.pending_other table own x).mp pending⟩
    · rintro (own | ⟨p, differ, pending⟩)
      · exact ⟨q, own⟩
      · exact ⟨p, (turn.pending_other table differ x).mpr pending⟩
  have mine : ∀ x, (∃ p, Pending s p x) ↔ Pending s q x ∨ ∃ p, p ≠ q ∧ Pending s p x := by
    intro x
    constructor
    · rintro ⟨p, pending⟩
      by_cases own : p = q
      · exact Or.inl (own ▸ pending)
      · exact Or.inr ⟨p, own, pending⟩
    · rintro (own | ⟨p, differ, pending⟩)
      · exact ⟨q, own⟩
      · exact ⟨p, pending⟩
  rcases turn.pending_self with ⟨sameFound, sameFreed, pending⟩ |
      ⟨e, here, unlocked, gen, disk, sameFreed, newFound, pending⟩ |
        ⟨e, place, gone, sameFound, newFreed, pending⟩
  · refine ⟨by rw [sameFound]; exact found, by rw [sameFreed]; exact freed, ?_, ?_, ?_⟩
    · intro x inside
      rw [sameFound] at inside
      exact (past x inside).trans (later x.1)
    · intro x inside
      rw [sameFreed] at inside
      exact still x inside
    · intro x
      rw [sameFound, sameFreed, others, pending, ← mine]
      exact known x
  · -- `iput` has found an inode
    have live : 0 < (s.itable e).ref := by rw [here.1]; exact Nat.one_pos
    have unfound : s.incarnation e ∉ s.found := by
      rw [known]
      rintro (already | ⟨p, e', doing, same⟩)
      · have none := free _ already rfl
        rcases table.agrees e live here.2.1 with ⟨p, locked, -⟩ | ⟨agree, some⟩
        · rw [unlocked] at locked
          cases locked
        · rw [State.incarnation, agree] at none
          exact some none
      · obtain ⟨locked, -⟩ := table.pending_used doing
        have inum : (s.itable e).inum = (s.itable e').inum := congrArg Prod.fst same
        rw [table.unique e e' live (table.lock_pos locked) inum, locked] at unlocked
        cases unlocked
    refine ⟨?_, ?_, ?_, ?_, ?_⟩
    · rw [newFound]
      exact List.nodup_cons.mpr ⟨unfound, found⟩
    · rw [sameFreed]
      exact freed
    · intro x inside
      rw [newFound] at inside
      rw [gen]
      rcases List.mem_cons.mp inside with rfl | before
      · exact Nat.le_refl _
      · exact past x before
    · intro x inside
      rw [sameFreed] at inside
      exact still x inside
    · intro x
      rw [newFound, sameFreed, others, (pending x).1, List.mem_cons, known, mine]
      have no := (pending x).2
      tauto
  · -- it has freed the inode on the disk
    have stands := (table.own q).stands
    simp only [place, Stands] at stands
    obtain ⟨-, zero, used⟩ := stands
    have unfreed : s.incarnation e ∉ s.freed := fun already => used (free _ already rfl)
    have entered : s.incarnation e ∈ s.found :=
      (known _).mpr (Or.inr ⟨q, ((pending _).1).mpr rfl⟩)
    refine ⟨?_, ?_, ?_, ?_, ?_⟩
    · rw [sameFound]
      exact found
    · rw [newFreed]
      exact List.nodup_cons.mpr ⟨unfreed, freed⟩
    · intro x inside
      rw [sameFound] at inside
      exact (past x inside).trans (later x.1)
    · intro x inside now
      rw [newFreed] at inside
      rcases List.mem_cons.mp inside with rfl | before
      · rw [State.incarnation, gone, zero]
      · exact still x before now
    · intro x
      rw [sameFound, newFreed, others, List.mem_cons, known, mine, (pending x).1]
      have no := (pending x).2
      tauto

end Steps

end Xv6Fcfs.Inodes
