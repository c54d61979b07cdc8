import Xv6Fcfs.Sched.Wakeup

/-!
# Sleep locks

A sleep lock is a flag under a spinlock, and `sleep` and `wakeup` do the waiting.  A process is
inside from the write of `locked` in `acquiresleep` to the return of `releasesleep`; whoever
sleeps on a lock that is free has a waker on its way, which holds the spinlock.
-/

set_option autoImplicit false

namespace Xv6Fcfs.Sched

open Xv6Fcfs.Lib
open Xv6Fcfs.Process (Slot ProcState)

def State.sleeplocked (s : State) (l : Nat) : Bool := (s.mem.sleeplock l).locked

section Steps
variable {s s' : State} {e : Event}

/-! ## The flags -/

/-- What a step does to the flag of sleep lock `l`. -/
inductive Flag (s : State) (e : Event) (s' : State) (l : Nat) : Prop where
  | kept (same : s'.sleeplocked l = s.sleeplocked l)
  | taken (c : Nat) (choice : Choice) (event : e = .step c choice) (locks : List Lock)
      (inside : List Nat) (point : s.stack (s.on c) = [.acquiresleep l .test, .body locks inside])
      (free : s.sleeplocked l = false) (now : s'.sleeplocked l = true)
  | cleared (c : Nat) (choice : Choice) (event : e = .step c choice) (rest : List Frame)
      (point : s.stack (s.on c) = .releasesleep l .clear :: rest)
      (after : s'.stack (s.on c) =
        .wakeup (some (.sleeplock l)) table :: .releasesleep l .leave :: rest)
      (now : s'.sleeplocked l = false)

theorem step_flag (run : step s e = some s') (inv : Inv s) (l : Nat) : Flag s e s' l := by
  rcases step_move run inv with same | ⟨c, choice, mv, rfl, fetched, mem, after⟩
  · exact .kept (by unfold State.sleeplocked; rw [same])
  · have kept : mv.mem.sleeplock = s.mem.sleeplock → Flag s (.step c choice) s' l := by
      intro same
      refine .kept ?_
      unfold State.sleeplocked
      rw [mem, same]
    cases fetch_course (inv.core.fit _) fetched with
    | dull _ _ _ same => exact kept same
    | sleeps _ _ _ _ _ _ _ _ _ same => exact kept same
    | falls _ _ _ _ _ _ _ _ same => exact kept (by rw [same])
    | calls _ _ _ _ _ same => exact kept same
    | skips _ _ _ _ _ _ _ same => exact kept (by rw [same])
    | locks _ _ _ _ _ _ same => exact kept (by rw [same])
    | wakes _ _ _ _ _ _ _ same => exact kept same
    | returns _ _ _ same => exact kept (by rw [same])
    | leaves _ _ _ _ _ same => exact kept (by rw [same])
    | takes k locks inside point free next now =>
        by_cases here : l = k
        · subst here
          refine .taken c choice rfl locks inside point free ?_
          unfold State.sleeplocked
          rw [mem, now, if_pos rfl]
        · refine .kept ?_
          unfold State.sleeplocked
          rw [mem, now, if_neg here]
    | clears k rest point next now =>
        by_cases here : l = k
        · subst here
          refine .cleared c choice rfl rest point (after.trans next) ?_
          unfold State.sleeplocked
          rw [mem, now, if_pos rfl]
        · refine .kept ?_
          unfold State.sleeplocked
          rw [mem, now, if_neg here]

/-! ## Who is inside -/

@[simp] theorem insideOf_resume (stack : List Frame) : insideOf (resume stack) = insideOf stack := by
  unfold resume
  split <;> rfl

@[simp] theorem leavingOf_resume (stack : List Frame) : leavingOf (resume stack) = leavingOf stack := by
  unfold resume
  split <;> rfl

theorem leaving_locks {stack : List Frame} {l : Nat} (leaving : l ∈ leavingOf stack) :
    .inner l ∈ locksOf stack := by
  obtain ⟨frame, here, inside⟩ := List.mem_flatMap.mp leaving
  refine List.mem_flatMap.mpr ⟨frame, here, ?_⟩
  cases frame with
  | releasesleep k pc =>
      cases pc with
      | leave =>
          cases List.mem_singleton.mp inside
          exact List.mem_singleton.mpr rfl
      | _ => cases inside
  | _ => cases inside

variable {t : Thread} {l : Nat}

/-- Who is inside after a step was so before, or has just taken the lock. -/
theorem inside_step (run : step s e = some s') (inv : Inv s) (now : l ∈ insideOf (s'.stack t)) :
    (l ∈ insideOf (s.stack t) ∧ (l ∈ leavingOf (s.stack t) → l ∈ leavingOf (s'.stack t))) ∨
      ∃ c choice locks inside, e = .step c choice ∧ s.on c = t ∧
        s.stack t = [.acquiresleep l .test, .body locks inside] ∧ s.sleeplocked l = false ∧
        s'.sleeplocked l = true := by
  cases step_stack run inv t with
  | kept same => rw [same] at now ⊢; exact Or.inl ⟨now, id⟩
  | resumed after =>
      rw [after, insideOf_resume] at now
      rw [after, leavingOf_resume]
      exact Or.inl ⟨now, id⟩
  | made q self used after => rw [after] at now; cases now
  | interrupted c on quiet after =>
      rw [after] at now ⊢
      exact Or.inl ⟨now, id⟩
  | moved c choice mv event on fetched after mem =>
      rw [after] at now ⊢
      cases fetch_course (inv.core.fit _) fetched with
      | dull _ inside leaving => rw [inside] at now; rw [leaving]; exact Or.inl ⟨now, id⟩
      | falls _ _ _ _ _ _ inside leaving => rw [inside] at now; rw [leaving]; exact Or.inl ⟨now, id⟩
      | calls _ _ _ inside leaving => rw [inside] at now; rw [leaving]; exact Or.inl ⟨now, id⟩
      | sleeps _ _ _ _ _ _ point next => rw [next] at now ⊢; rw [point]; exact Or.inl ⟨now, id⟩
      | skips _ _ _ _ point next => rw [next] at now ⊢; rw [point]; exact Or.inl ⟨now, id⟩
      | locks _ _ _ _ point next => rw [next] at now ⊢; rw [point]; exact Or.inl ⟨now, id⟩
      | wakes _ _ _ _ point next => rw [next] at now ⊢; rw [point]; exact Or.inl ⟨now, id⟩
      | returns _ point => rw [point]; exact Or.inl ⟨now, id⟩
      | clears k rest point next =>
          rw [next] at now ⊢
          rw [point]
          refine Or.inl ⟨now, fun leaving => ?_⟩
          simp only [leavingOf_cons, Frame.leaving, List.nil_append] at leaving ⊢
          exact List.mem_append_right _ leaving
      | leaves k locks inside point next =>
          rw [next] at now
          rw [point]
          simp only [insideOf_cons, Frame.inside, List.mem_append, List.mem_filter] at now
          rcases now with ⟨here, other⟩ | none
          · refine Or.inl ⟨by simp [Frame.inside, here], fun leaving => ?_⟩
            simp_all [Frame.leaving, leavingOf]
          · cases none
      | takes k locks inside point free next words =>
          rw [next] at now
          rw [point]
          by_cases here : l = k
          · subst here
            refine Or.inr ⟨c, choice, locks, inside, event, on, rfl, free, ?_⟩
            unfold State.sleeplocked
            rw [mem, words, if_pos rfl]
          · refine Or.inl ⟨?_, by rintro ⟨⟩⟩
            simpa [Frame.inside, insideOf, here] using now

/-! ## The invariant -/

structure Sleeplocks (s : State) : Prop where
  guard : ∀ t l, l ∈ insideOf (s.stack t) → s.sleeplocked l = true ∨ l ∈ leavingOf (s.stack t)
  sole : ∀ t u l, l ∈ insideOf (s.stack t) → l ∈ insideOf (s.stack u) → t = u
  falls : ∀ p l lk pc rest, s.stack (.proc p) = .sleep p (.sleeplock l) lk pc :: rest →
    pc = .enter ∨ pc = .unlock → s.sleeplocked l = true
  rung : ∀ l, s.sleeplocked l = false → ∀ p lk, Dozing s p (.sleeplock l) lk →
    ∃ t todo rest, Waking (some (.sleeplock l)) todo rest (s.stack t) ∧ .inner l ∈ locksOf rest

theorem releasesleep_inside (core : Core s) {c : Nat} {pc : ReleasePc} {rest : List Frame}
    (point : s.stack (s.on c) = .releasesleep l pc :: rest) : l ∈ insideOf (s.stack (s.on c)) := by
  have fit := core.fit (s.on c)
  rw [point] at fit ⊢
  obtain ⟨⟨locks, inside, rfl, here⟩, _⟩ := fit
  simp [Frame.inside, here]

theorem guard_step (run : step s e = some s') (inv : Inv s) (locks : Sleeplocks s) (t : Thread)
    (l : Nat) (now : l ∈ insideOf (s'.stack t)) :
    s'.sleeplocked l = true ∨ l ∈ leavingOf (s'.stack t) := by
  rcases inside_step run inv now with ⟨was, leaving⟩ | ⟨_, _, _, _, _, _, _, _, taken⟩
  · rcases locks.guard t l was with locked | left
    · cases step_flag run inv l with
      | kept same => exact Or.inl (same.trans locked)
      | taken _ _ _ _ _ _ _ now => exact Or.inl now
      | cleared c choice event rest point after =>
          -- the one that clears the flag is the one inside
          cases locks.sole t _ l was (releasesleep_inside inv.core point)
          rw [after]
          exact Or.inr (by simp [Frame.leaving])
    · exact Or.inr (leaving left)
  · exact Or.inl taken

theorem sole_step (run : step s e = some s') (inv : Inv s) (locks : Sleeplocks s) (t u : Thread)
    (l : Nat) (here : l ∈ insideOf (s'.stack t)) (there : l ∈ insideOf (s'.stack u)) : t = u := by
  -- whoever takes the lock holds the spinlock, and so would anybody who is still leaving
  have apart : ∀ {t u : Thread} {locks' : List Lock} {inside : List Nat},
      s.stack t = [.acquiresleep l .test, .body locks' inside] → s.sleeplocked l = false →
      l ∈ insideOf (s.stack u) → t = u := by
    intro t u locks' inside point free was
    rcases locks.guard u l was with locked | left
    · rw [free] at locked
      cases locked
    · refine inv.core.sole_holder (l := .inner l) ?_ (leaving_locks left)
      rw [point]
      simp [Frame.held]
  rcases inside_step run inv here with ⟨was, _⟩ | ⟨c, choice, _, _, event, on, point, free, _⟩
  · rcases inside_step run inv there with ⟨old, _⟩ | ⟨_, _, _, _, _, _, point, free, _⟩
    · exact locks.sole t u l was old
    · exact (apart point free was).symm
  · rcases inside_step run inv there with ⟨old, _⟩ | ⟨d, _, _, _, event', on', _, _, _⟩
    · exact apart point free old
    · rw [event] at event'
      cases event'
      exact on.symm.trans on'

theorem sleeplock_inner {p : Slot} {lk : Lock} {pc : SleepPc} {rest : List Frame} {me : Option Slot}
    (fit : Fit me (.sleep p (.sleeplock l) lk pc :: rest)) : lk = .inner l := by
  rcases fit.1.2.2.1.cases with ⟨_, _, _, _, _, _, other⟩ | ⟨_, _, _, other⟩ | ⟨k, _, _, same, chan⟩
  · cases other
  · cases other
  · cases chan
    exact same

theorem falls_step (run : step s e = some s') (inv : Inv s) (locks : Sleeplocks s) (p : Slot)
    (l : Nat) (lk : Lock) (pc : SleepPc) (rest : List Frame)
    (now : s'.stack (.proc p) = .sleep p (.sleeplock l) lk pc :: rest)
    (early : pc = .enter ∨ pc = .unlock) : s'.sleeplocked l = true := by
  cases step_stack run inv (.proc p) with
  | kept same =>
      rw [same] at now
      have locked := locks.falls p l lk pc rest now early
      cases step_flag run inv l with
      | kept same => exact same.trans locked
      | taken _ _ _ _ _ _ _ after => exact after
      | cleared c choice event below point =>
          -- both would hold the spinlock of the sleep lock
          have fit := inv.core.fit (.proc p)
          rw [now] at fit
          have same : s.on c = .proc p := by
            refine inv.core.sole_holder (l := .inner l) ?_ ?_
            · rw [point]; simp [Frame.held]
            · rw [now, sleeplock_inner fit]
              rcases early with rfl | rfl <;> simp [Frame.held, SleepPc.held]
          rw [same, now] at point
          cases point
  | moved c choice mv event on fetched after mem =>
      rw [after] at now
      unfold State.sleeplocked
      rw [mem]
      rcases (fetch_course (inv.core.fit _) fetched).to_sleep now with
        ⟨was, point, order, same⟩ | ⟨_, same, busy⟩ | empty
      · rw [same]
        refine locks.falls p l lk was rest point ?_
        rcases early with rfl | rfl
        · cases order
        · cases order
          exact Or.inl rfl
      · rw [same]
        exact busy l rfl
      · rw [now] at empty
        rcases early with rfl | rfl <;> simp [Frame.held, SleepPc.held] at empty
  | resumed after ready =>
      rw [after] at now
      cases (ready p rfl).2 with
      | fresh same => rw [same] at now; cases now
      | asleep ch k was below same =>
          rw [same] at now
          cases now
          rcases early with early | early <;> cases early
  | made q self used after => rw [after] at now; cases now
  | interrupted c on quiet after => rw [after] at now; cases now

/-- A waker that holds a lock stays in `wakeup` until it has been through the whole table. -/
theorem waking_stays (run : step s e = some s') (inv : Inv s) {chan : Chan} {todo : List Slot}
    {rest : List Frame} {p : Slot} (waking : Waking (some chan) todo rest (s.stack t))
    (held : locksOf rest ≠ []) (mem : p ∈ todo) :
    ∃ next, Waking (some chan) next rest (s'.stack t) := by
  obtain ⟨l, inside⟩ := List.exists_mem_of_ne_nil _ held
  obtain ⟨d, on, _⟩ := inv.core.holder (waking.locks inside)
  cases step_stack run inv t with
  | kept same => rw [same]; exact ⟨todo, waking⟩
  | resumed after =>
      refine ⟨todo, ?_⟩
      rw [after]
      revert waking
      generalize s.stack t = stack
      intro waking
      cases waking with
      | next => exact .next
      | one q more first => exact .one q more first
  | made q self used after =>
      rw [self] at on
      cases inv.table.live d q on with
      | running is => rw [used] at is; cases is
      | dozing is => rw [used] at is; cases is
      | dying is => rw [used] at is; cases is
  | interrupted c on quiet after =>
      have := waking.locks inside
      rw [quiet] at this
      cases this
  | moved c choice mv event on fetched after mem' =>
      rw [after]
      revert waking fetched
      generalize s.stack t = stack
      intro waking fetched
      cases waking with
      | next =>
          cases todo with
          | nil => cases mem
          | cons q more =>
              simp only [fetch, wakeup, goes] at fetched
              split at fetched
              · cases Option.some.inj fetched
                exact ⟨more, .next⟩
              · cases Option.some.inj fetched
                exact ⟨_, .one q more rfl⟩
      | one q more first =>
          cases Option.some.inj fetched
          exact ⟨more, .next⟩

theorem rung_step (run : step s e = some s') (inv : Inv s) (wakeful : Wakeful s)
    (locks : Sleeplocks s) (l : Nat) (free : s'.sleeplocked l = false) (p : Slot) (lk : Lock)
    (dozing : Dozing s' p (.sleeplock l) lk) :
    ∃ t todo rest, Waking (some (.sleeplock l)) todo rest (s'.stack t) ∧ .inner l ∈ locksOf rest := by
  cases step_flag run inv l with
  | taken _ _ _ _ _ _ _ now => rw [free] at now; cases now
  | cleared c choice event rest point after =>
      refine ⟨s.on c, table, .releasesleep l .leave :: rest, ?_, by simp [Frame.held]⟩
      rw [after]
      exact .next
  | kept same =>
      rw [same] at free
      rcases dozing_step run inv dozing with old | ⟨below, stack⟩
      · obtain ⟨t, todo, rest, waking, inside⟩ := locks.rung l free p lk old
        have inner : lk = .inner l := by
          obtain ⟨pc, below, stack, _⟩ := old
          have fit := inv.core.fit (.proc p)
          rw [stack] at fit
          exact sleeplock_inner fit
        have mem := wakeful t _ todo rest lk p waking (inner ▸ inside) old
        obtain ⟨next, waking'⟩ := waking_stays run inv waking (List.ne_nil_of_mem inside) mem
        exact ⟨t, next, rest, waking', inside⟩
      · have locked := locks.falls p l lk .unlock below stack (Or.inr rfl)
        rw [free] at locked
        cases locked

end Steps

/-! ## Whole runs -/

/-- The process is `SLEEPING` in a call `sleep(chan, lk)`. -/
def SleepsIn (s : State) (p : Slot) (chan : Chan) (lk : Lock) : Prop :=
  s.procState p = .sleeping ∧ ∃ pc rest, s.stack (.proc p) = .sleep p chan lk pc :: rest

theorem boot_asleep {p : Slot} {chan : Chan} {lk : Lock} {pc : SleepPc} {rest : List Frame} :
    boot.stack (.proc p) ≠ .sleep p chan lk pc :: rest := by
  intro stack
  change (if p = 0 then [Frame.forkret 0 false] else []) = _ at stack
  split at stack <;> cases stack

theorem boot_outside (t : Thread) : insideOf (boot.stack t) = [] := by
  cases t with
  | sched c => rfl
  | proc p =>
      change insideOf (if p = 0 then [Frame.forkret 0 false] else []) = []
      split <;> rfl

theorem run_sleeplocks (r : Run step) (start : r.state 0 = boot) :
    ∀ i, i ≤ r.len → Inv (r.state i) ∧ Wakeful (r.state i) ∧ Sleeplocks (r.state i) := by
  refine r.invariant (fun s => Inv s ∧ Wakeful s ∧ Sleeplocks s) ?_ ?_
  · rw [start]
    refine ⟨⟨boot_core, boot_table⟩, ?_, ?_, ?_, ?_, ?_⟩
    · rintro t chan todo rest lk p - - ⟨_, _, stack, _⟩
      exact absurd stack boot_asleep
    · intro t l inside
      rw [boot_outside] at inside
      cases inside
    · intro t u l inside
      rw [boot_outside] at inside
      cases inside
    · intro p l lk pc rest stack
      exact absurd stack boot_asleep
    · rintro l - p lk ⟨_, _, stack, _⟩
      exact absurd stack boot_asleep
  · rintro s e s' run ⟨inv, wakeful, locks⟩
    exact ⟨step_inv run inv, wakeful_step run inv wakeful, guard_step run inv locks,
      sole_step run inv locks, falls_step run inv locks, rung_step run inv wakeful locks⟩

/-- When a `wakeup(chan)` called with `lk` held returns, nobody is `SLEEPING` in `sleep(chan, lk)`.
Nobody sleeps on a sleep lock that is free, and one process at most is inside. -/
theorem no_lost_wakeup (r : Run step) (start : r.state 0 = boot) :
    (∀ i, i < r.len → ∀ c choice chan rest lk, r.event i = .step c choice →
      (r.state i).stack ((r.state i).on c) = .wakeup (some chan) [] :: rest → lk ∈ locksOf rest →
      ∀ p, ¬ SleepsIn (r.state (i + 1)) p chan lk) ∧
    (∀ i, i ≤ r.len → ∀ l, (r.state i).lock (.inner l) = none →
      (r.state i).sleeplocked l = false →
      ∀ p, (r.state i).mem.view p ≠ (.sleeping, some (.sleeplock l))) ∧
    ∀ i, i ≤ r.len → ∀ l p q, l ∈ insideOf ((r.state i).stack (.proc p)) →
      l ∈ insideOf ((r.state i).stack (.proc q)) → p = q := by
  have kept := run_sleeplocks r start
  refine ⟨?_, ?_, ?_⟩
  · rintro i before c choice chan rest lk event point inside p ⟨asleep, pc, below, stack⟩
    obtain ⟨inv, wakeful, _⟩ := kept i (by omega)
    have waking : Waking (some chan) [] rest ((r.state i).stack ((r.state i).on c)) :=
      point ▸ .next
    rcases dozing_step (r.next i before) inv ⟨pc, below, stack, Or.inr asleep⟩ with
      old | ⟨deeper, unlocks⟩
    · cases wakeful _ chan [] rest lk p waking inside old
    · have same : (r.state i).on c = .proc p := by
        refine inv.core.sole_holder (waking.locks inside) (l := lk) ?_
        rw [unlocks]
        simp [Frame.held, SleepPc.held]
      rw [same, unlocks] at point
      cases point
  · intro i within l unlocked free p view
    obtain ⟨inv, _, locks⟩ := kept i within
    obtain ⟨ch, lk, pc, rest, stack, _, chan⟩ :=
      inv.table.slept p (show (r.state i).procState p = _ from congrArg Prod.fst view)
    rw [view] at chan
    cases Option.some.inj chan
    obtain ⟨t, todo, below, waking, inside⟩ :=
      locks.rung l free p lk ⟨pc, rest, stack, Or.inr (congrArg Prod.fst view)⟩
    obtain ⟨c, _, owned⟩ := inv.core.holder (waking.locks inside)
    rw [unlocked] at owned
    cases owned
  · intro i within l p q here there
    cases (kept i within).2.2.sole _ _ l here there
    rfl

/-- The first process forks; the child sleeps on CPU 1 and its parent wakes it from CPU 0. -/
def wakesChild : List Event :=
  firstDispatch ++ .step 0 .kfork :: List.replicate 10 (.step 0 .go) ++
    List.replicate 135 (.step 1 .go) ++
    [.step 1 (.acquire 0), .step 1 (.sleep 7 (.cond 0))] ++ List.replicate 6 (.step 1 .go) ++
    [.step 0 (.acquire 0), .step 0 (.wakeup 7)] ++ List.replicate 127 (.step 0 .go)

theorem wakesChild_awake : ∃ r : Run step, r.state 0 = boot ∧
    (r.state r.len).stack ((r.state r.len).on 0) = [.body [.cond 0] []] ∧
    (r.state r.len).stack (.proc 1) = [.sleep 1 (.other 7) (.cond 0) (.asleep false), .body [] []] ∧
    ¬ SleepsIn (r.state r.len) 1 (.other 7) (.cond 0) := by
  -- the last step is the return of `wakeup`
  obtain ⟨r, start, ends⟩ := Run.exists_of_exec step boot wakesChild (.step 0 .go)
    (fun s => s.stack (s.on 0) == [.wakeup (some (.other 7)) [], .body [.cond 0] []] &&
      (step s (.step 0 .go)).any fun t => t.stack (t.on 0) == [.body [.cond 0] []] &&
        t.stack (.proc 1) == [.sleep 1 (.other 7) (.cond 0) (.asleep false), .body [] []])
    (by decide +kernel)
  simp only [Bool.and_eq_true, beq_iff_eq, Option.any_eq_true] at ends
  obtain ⟨returning, next, run, after, child⟩ := ends
  obtain ⟨longer, len, first, last, event, final⟩ := r.exists_next run
  have awake := (no_lost_wakeup longer (first.trans start)).1 r.len (by omega) 0 .go (.other 7)
    [.body [.cond 0] []] (.cond 0) event (by rw [last]; exact returning) (by decide) 1
  refine ⟨longer, first.trans start, ?_⟩
  rw [len]
  rw [final] at awake ⊢
  exact ⟨after, child, awake⟩

end Xv6Fcfs.Sched
