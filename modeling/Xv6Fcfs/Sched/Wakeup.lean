import Xv6Fcfs.Sched.Course

/-!
# No lost wakeup

`sleep` gives up the condition lock before it writes `SLEEPING`, but it holds the lock of its
process by then, and `wakeup` takes that lock.  So a waker that holds the condition lock either
finds the sleeper asleep or waits until it is; and once past it, the sleeper cannot come back
to `sleep` without the condition lock.
-/

set_option autoImplicit false

namespace Xv6Fcfs.Sched

open Xv6Fcfs.Lib
open Xv6Fcfs.Process (Slot ProcState)

theorem mem_table (p : Slot) : p ∈ table := List.mem_finRange p

/-! ## How a step changes one stack -/

inductive StackStep (s : State) (e : Event) (t : Thread) (s' : State) : Prop where
  | kept (same : s'.stack t = s.stack t)
  | moved (c : Nat) (choice : Choice) (mv : Move) (event : e = .step c choice) (on : s.on c = t)
      (fetched : fetch (s.cpu c) s.mem choice (s.stack t) = some mv)
      (after : s'.stack t = mv.stack) (mem : s'.mem = mv.mem)
      (others : ∀ u, u ≠ t → (∀ p, mv.op ≠ .swtch p) → mv.op ≠ .sched →
        (∀ p, mv.op ≠ .context p) → s'.stack u = s.stack u)
  | resumed (after : s'.stack t = resume (s.stack t))
      (ready : ∀ p, t = .proc p → s.procState p = .running ∧ Resumable p (s.stack t))
  | made (p : Slot) (self : t = .proc p) (used : s.procState p = .used)
      (after : s'.stack t = [.forkret p false])
  | interrupted (c : Nat) (on : s.on c = t) (quiet : locksOf (s.stack t) = [])
      (after : s'.stack t = .handler [] :: s.stack t)

section Steps
variable {s s' : State} {e : Event}

theorem step_stack (run : step s e = some s') (inv : Inv s) (t : Thread) : StackStep s e t s' := by
  obtain ⟨core, table⟩ := inv
  cases e with
  | interrupt c =>
      obtain ⟨alive, intr, rfl⟩ := step_interrupt run
      by_cases own : s.on c = t
      · subst own
        exact .interrupted c rfl (core.interrupt_quiet alive intr) interrupted_own
      · exact .kept (interrupted_other (Ne.symm own))
  | step c choice =>
      obtain ⟨alive, mv, fetched, outcome⟩ := step_outcome core run
      cases outcome with
      | halts => exact .kept rfl
      | moves cpu lock does =>
          by_cases own : s.on c = t
          · subst own
            refine .moved c choice mv rfl rfl fetched ?_ rfl ?_
            · exact moved_own fun np op => core.context_off table fetched np op c
            · intro u other _ _ old
              exact moved_other other fun np op => absurd op (old np)
          · by_cases made : ∃ p, mv.op = .context p ∧ t = .proc p
            · obtain ⟨p, op, rfl⟩ := made
              exact .made p rfl (core.context_used table fetched op) (moved_made op)
            · exact .kept (moved_other (Ne.symm own) fun p op same => made ⟨p, op, same⟩)
      | sched op q self check =>
          obtain ⟨_, r, _, on, _⟩ := sched_source core fetched op
          by_cases own : s.on c = t
          · subst own
            refine .moved c choice mv rfl rfl fetched ?_ rfl fun _ _ _ other => absurd op other
            exact switched_from (by rw [on]; rintro ⟨⟩)
          · by_cases target : t = .sched c
            · subst target
              exact .resumed switched_to (by rintro _ ⟨⟩)
            · exact .kept (switched_other target (Ne.symm own))
      | swtch q op =>
          obtain ⟨here, _, _, _, _, running, _, ready⟩ := swtch_target core table fetched op
          by_cases own : s.on c = t
          · subst own
            refine .moved c choice mv rfl rfl fetched ?_ rfl fun _ _ other => absurd op (other q)
            exact switched_from (by rw [here]; rintro ⟨⟩)
          · by_cases target : t = .proc q
            · subst target
              refine .resumed switched_to ?_
              intro p same
              cases same
              exact ⟨running, ready⟩
            · exact .kept (switched_other target (Ne.symm own))

/-- Only a move writes shared memory, and it goes on with its own stack. -/
theorem step_move (run : step s e = some s') (inv : Inv s) :
    s'.mem = s.mem ∨ ∃ c choice mv, e = .step c choice ∧
      fetch (s.cpu c) s.mem choice (s.stack (s.on c)) = some mv ∧ s'.mem = mv.mem ∧
      s'.stack (s.on c) = mv.stack := by
  cases e with
  | interrupt c =>
      obtain ⟨_, _, rfl⟩ := step_interrupt run
      exact Or.inl rfl
  | step c choice =>
      obtain ⟨_, mv, fetched, outcome⟩ := step_outcome inv.core run
      cases outcome with
      | halts => exact Or.inl rfl
      | moves cpu lock does =>
          refine Or.inr ⟨c, choice, mv, rfl, fetched, rfl, ?_⟩
          exact moved_own fun np op => inv.core.context_off inv.table fetched np op c
      | sched op q self check =>
          obtain ⟨_, r, _, on, _⟩ := sched_source inv.core fetched op
          exact Or.inr ⟨c, choice, mv, rfl, fetched, rfl, switched_from (by rw [on]; rintro ⟨⟩)⟩
      | swtch q op =>
          obtain ⟨here, _⟩ := swtch_target inv.core inv.table fetched op
          exact Or.inr ⟨c, choice, mv, rfl, fetched, rfl, switched_from (by rw [here]; rintro ⟨⟩)⟩

/-! ## Falling asleep -/

/-- Process `p` is in `sleep(chan, lk)`, has released `lk`, and is or is about to be
`SLEEPING`. -/
def Dozing (s : State) (p : Slot) (chan : Chan) (lk : Lock) : Prop :=
  ∃ pc rest, s.stack (.proc p) = .sleep p chan lk pc :: rest ∧
    (pc = .mark ∨ s.procState p = .sleeping)

variable {p : Slot} {chan : Chan} {lk : Lock}

/-- A stack is in `sleep` after a move if it was before, if `sleep` has just been called, or if an
interrupt handler has returned to it. -/
theorem Course.to_sleep {cpu : Cpu} {m : Mem} {stack : List Frame} {mv : Move} {pc : SleepPc}
    {rest : List Frame} (course : Course cpu m stack mv)
    (here : mv.stack = .sleep p chan lk pc :: rest) :
    (∃ was, stack = .sleep p chan lk was :: rest ∧ SleepPc.Next was pc ∧
      mv.mem.sleeplock = m.sleeplock) ∨
    (pc = .enter ∧ mv.mem = m ∧ ∀ l, chan = .sleeplock l → (m.sleeplock l).locked = true) ∨
    locksOf mv.stack = [] := by
  cases course with
  | dull top =>
      rcases top with top | empty
      · rw [here] at top
        exact top.elim
      · exact Or.inr (Or.inr empty)
  | sleeps q ch l was next below point after order same =>
      rw [here] at after
      cases after
      exact Or.inl ⟨was, point, order, same⟩
  | falls q ch l below after busy _ _ same =>
      rw [here] at after
      cases after
      exact Or.inr (Or.inl ⟨rfl, same, busy⟩)
  | returns ch point top => rw [here] at top; exact top.elim
  | calls _ _ after => rw [here] at after; cases after
  | skips _ _ _ _ _ after => rw [here] at after; cases after
  | locks _ _ _ _ _ after => rw [here] at after; cases after
  | wakes _ _ _ _ _ after => rw [here] at after; cases after
  | takes _ _ _ _ _ after => rw [here] at after; cases after
  | clears _ _ _ after => rw [here] at after; cases after
  | leaves _ _ _ _ after => rw [here] at after; cases after

theorem step_sleeping (run : step s e = some s') (inv : Inv s) (was : s.procState p ≠ .sleeping)
    (now : s'.procState p = .sleeping) :
    ∃ ch l rest, s.stack (.proc p) = .sleep p ch l .mark :: rest := by
  rcases step_move run inv with same | ⟨c, choice, mv, rfl, fetched, mem, _⟩
  · unfold State.procState at was now
    rw [same] at now
    exact absurd now was
  · unfold State.procState at was now
    rw [mem] at now
    rcases fetch_changes fetched with same | ⟨q, others, write⟩
    · rw [same p] at now
      exact absurd now was
    · by_cases here : p = q
      swap
      · rw [others p here] at now
        exact absurd now was
      subst here
      generalize s.mem.view p = before at was write
      generalize mv.mem.view p = after at now write
      cases write with
      | dozed ch l rest _ point =>
          have fit := inv.core.fit (s.on c)
          rw [point] at fit
          rw [Thread.owner fit.1.1] at point
          exact ⟨ch, l, rest, point⟩
      | tidied => exact absurd now was
      | _ => cases now

theorem dozing_step (run : step s e = some s') (inv : Inv s) (now : Dozing s' p chan lk) :
    Dozing s p chan lk ∨ ∃ rest, s.stack (.proc p) = .sleep p chan lk .unlock :: rest := by
  obtain ⟨pc, rest, stack', point⟩ := now
  have asleep : pc ≠ .mark → s'.procState p = .sleeping := fun other => point.resolve_left other
  cases step_stack run inv (.proc p) with
  | kept same =>
      rw [same] at stack'
      refine Or.inl ⟨pc, rest, stack', ?_⟩
      by_cases mark : pc = .mark
      · exact Or.inl mark
      · by_cases was : s.procState p = .sleeping
        · exact Or.inr was
        · obtain ⟨ch, l, below, stack⟩ := step_sleeping run inv was (asleep mark)
          rw [stack] at stack'
          cases stack'
          exact Or.inl rfl
  | moved c choice mv event on fetched after mem =>
      rw [after] at stack'
      by_cases was : s.procState p = .sleeping
      · cases inv.table.live c p on with
        | running is => rw [was] at is; cases is
        | dying is => rw [was] at is; cases is
        | dozing _ q ch l below stack =>
            rw [stack] at fetched
            cases Option.some.inj fetched
            cases stack'
            exact Or.inl ⟨.sched, rest, stack, Or.inr was⟩
      · by_cases mark : pc = .mark
        · subst mark
          rcases (fetch_course (inv.core.fit _) fetched).to_sleep stack' with
            ⟨old, stack, order, _⟩ | ⟨enter, _⟩ | empty
          · cases order
            exact Or.inr ⟨rest, stack⟩
          · cases enter
          · rw [stack'] at empty
            cases empty
        · obtain ⟨ch, l, below, stack⟩ := step_sleeping run inv was (asleep mark)
          rw [stack] at fetched
          cases Option.some.inj fetched
          cases stack'
          exact Or.inl ⟨.mark, rest, stack, Or.inl rfl⟩
  | resumed after ready =>
      obtain ⟨running, ready⟩ := ready p rfl
      rw [after] at stack'
      cases ready with
      | fresh was => rw [was] at stack'; cases stack'
      | asleep ch l was below stack =>
          have awake : s.procState p ≠ .sleeping := by rw [running]; rintro ⟨⟩
          rw [stack] at stack'
          cases stack'
          obtain ⟨_, _, _, mark⟩ := step_sleeping run inv awake (asleep (by rintro ⟨⟩))
          rw [stack] at mark
          cases mark
  | made q self used after => rw [after] at stack'; cases stack'
  | interrupted c on quiet after => rw [after] at stack'; cases stack'

/-! ## Being in `wakeup` -/

/-- The stack is in `wakeup(chan)`, called from the frames `rest`, with the slots `todo` still to
look at. -/
inductive Waking (chan : Option Chan) (todo : List Slot) (rest : List Frame) : List Frame → Prop where
  | next : Waking chan todo rest (.wakeup chan todo :: rest)
  | one (p : Slot) (more : List Slot) (first : todo = p :: more) :
      Waking chan todo rest (.waking chan p more :: rest)

variable {t : Thread} {todo : List Slot} {rest : List Frame}

theorem Waking.locks {ch : Option Chan} {stack : List Frame} (waking : Waking ch todo rest stack)
    {l : Lock} (inside : l ∈ locksOf rest) : l ∈ locksOf stack := by
  cases waking <;> simp [inside]

theorem Waking.not_elsewhere {ch : Option Chan} {stack : List Frame}
    (waking : Waking ch todo rest stack) : ¬ Elsewhere stack := by
  cases waking <;> exact id

theorem Waking.of_resume {ch : Option Chan} {stack : List Frame}
    (waking : Waking ch todo rest (resume stack)) : Waking ch todo rest stack := by
  unfold resume at waking
  split at waking
  · cases waking
  · cases waking
  · cases waking
  · exact waking

theorem Core.holder (core : Core s) {l : Lock} (inside : l ∈ locksOf (s.stack t)) :
    ∃ c, s.on c = t ∧ s.lock l = some c := by
  by_cases running : ∃ c, s.on c = t
  · obtain ⟨c, on⟩ := running
    refine ⟨c, on, (core.ledger.owns _ _).mp ?_⟩
    unfold State.held
    rw [on]
    exact inside
  · rw [core.parked t fun c on => running ⟨c, on⟩] at inside
    cases inside

theorem Core.sole_holder (core : Core s) {l : Lock} {u : Thread} (mine : l ∈ locksOf (s.stack t))
    (other : l ∈ locksOf (s.stack u)) : t = u := by
  obtain ⟨c, onT, ownedT⟩ := core.holder mine
  obtain ⟨d, onU, ownedU⟩ := core.holder other
  rw [ownedT] at ownedU
  cases Option.some.inj ownedU
  exact onT.symm.trans onU

/-- `myproc()` is the process whose stack the CPU executes, outside the scheduler. -/
theorem Core.myproc_on (core : Core s) {c : Nat} (self : (s.cpu c).proc = some p)
    (other : ∀ pc, s.stack (s.on c) ≠ [.scheduler pc]) : s.on c = .proc p := by
  have host := core.on c
  rw [core.proc c] at self
  cases point : s.pc c <;> rw [point] at self host
  case away => cases self; exact host
  case swtching =>
    have stack := core.at_pc (c := c) (by rw [point]; rintro ⟨⟩)
    rw [← show s.on c = .sched c from host] at stack
    exact absurd stack (other _)
  case back =>
    have stack := core.at_pc (c := c) (by rw [point]; rintro ⟨⟩)
    rw [← show s.on c = .sched c from host] at stack
    exact absurd stack (other _)
  all_goals cases self

/-- A step of a thread in `wakeup` that holds a lock: it has just been called, it goes on, or it
is past one more slot, which then does not sleep on the channel. -/
inductive Advance (s s' : State) (chan : Chan) (todo : List Slot) (rest : List Frame) (t : Thread) :
    Prop where
  | called (all : todo = table)
  | same (was : Waking (some chan) todo rest (s.stack t))
  | passed (p : Slot) (was : Waking (some chan) (p :: todo) rest (s.stack t))
      (awake : ∀ lk, ¬ Dozing s' p chan lk)

theorem waking_step (run : step s e = some s') (inv : Inv s) (held : locksOf rest ≠ [])
    (now : Waking (some chan) todo rest (s'.stack t)) : Advance s s' chan todo rest t := by
  cases step_stack run inv t with
  | kept same => exact .same (same ▸ now)
  | resumed after => exact .same (after ▸ now).of_resume
  | made q self used after => rw [after] at now; cases now
  | interrupted c on quiet after => rw [after] at now; cases now
  | moved c choice mv event on fetched after mem others =>
      have inv' := step_inv run inv
      rw [after] at now
      have course := fetch_course (inv.core.fit _) fetched
      cases course with
      | dull top =>
          rcases top with top | empty
          · exact absurd top now.not_elsewhere
          · obtain ⟨l, inside⟩ := List.exists_mem_of_ne_nil _ held
            have := now.locks inside
            rw [empty] at this
            cases this
      | sleeps _ _ _ _ _ _ _ next => rw [next] at now; cases now
      | falls _ _ _ _ next => rw [next] at now; cases now
      | calls ch below next => rw [next] at now; cases now; exact .called rfl
      | skips ch q more below point next self same =>
          rw [next] at now
          cases now
          refine .passed q (point ▸ .next) ?_
          -- the slot left out is that of the waker itself
          intro lk dozing
          have mine : s.on c = .proc q := inv.core.myproc_on self (by rw [on, point]; rintro _ ⟨⟩)
          rw [← mine.symm.trans on] at after
          obtain ⟨pc, below, stack, _⟩ := dozing
          rw [after, next] at stack
          cases stack
      | locks ch q more below point next same =>
          rw [next] at now
          cases now with
          | one p more first => 
            subst first
            exact .same (point ▸ .next)
      | wakes ch q more below point next woken same =>
          rw [next] at now
          cases now
          refine .passed q (point ▸ .one q todo rfl) ?_
          rintro lk ⟨pc, below, stack, mark | asleep⟩
          · subst mark
            have differ : Thread.proc q ≠ t := by
              intro same
              rw [same, after, next] at stack
              cases stack
            rw [point] at fetched
            cases Option.some.inj fetched
            rw [others _ differ (by rintro _ ⟨⟩) (by rintro ⟨⟩) (by rintro _ ⟨⟩)] at stack
            refine differ (inv.core.sole_holder (l := .proc q) ?_ ?_)
            · rw [stack]; simp [Frame.held, SleepPc.held]
            · rw [point]; simp [Frame.held]
          · obtain ⟨ch, l, at_, _, point', _, chan'⟩ := inv'.table.slept q asleep
            rw [stack] at point'
            cases point'
            refine woken ?_
            rw [← mem]
            exact Prod.ext asleep chan'
      | returns ch point top =>
          exact absurd top now.not_elsewhere
      | takes _ _ _ _ _ next => rw [next] at now; cases now
      | clears _ _ _ next => rw [next] at now; cases now; exact .called rfl
      | leaves _ _ _ _ next => rw [next] at now; cases now

/-- A waker that holds `lk` still has to look at everybody who sleeps in `sleep(chan, lk)`. -/
def Wakeful (s : State) : Prop :=
  ∀ t chan todo rest lk p, Waking (some chan) todo rest (s.stack t) → lk ∈ locksOf rest →
    Dozing s p chan lk → p ∈ todo

theorem wakeful_step (run : step s e = some s') (inv : Inv s) (wakeful : Wakeful s) :
    Wakeful s' := by
  intro t chan todo rest lk p waking inside dozing
  have held : locksOf rest ≠ [] := List.ne_nil_of_mem inside
  -- nobody can let go of the lock that the waker holds
  have dozed : ∀ {was : List Slot}, Waking (some chan) was rest (s.stack t) → p ∈ was := by
    intro was before
    rcases dozing_step run inv dozing with old | ⟨below, stack⟩
    · exact wakeful t chan was rest lk p before inside old
    · have same : t = .proc p := by
        refine inv.core.sole_holder (before.locks inside) (l := lk) ?_
        rw [stack]
        simp [Frame.held, SleepPc.held]
      rw [same, stack] at before
      cases before
  cases waking_step run inv held waking with
  | called all => rw [all]; exact mem_table p
  | same was => exact dozed was
  | passed q was awake =>
      rcases List.mem_cons.mp (dozed was) with here | later
      · subst here
        exact absurd dozing (awake lk)
      · exact later

end Steps

end Xv6Fcfs.Sched
