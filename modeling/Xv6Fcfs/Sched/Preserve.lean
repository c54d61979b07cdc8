import Xv6Fcfs.Sched.Table

/-!
# Every step keeps the table

The moves of processes and interrupt handlers change the states by a `Turn`; those of the
scheduler dispatch one process; a context switch changes who executes which stack.  Each keeps
`Core` and `Table` together.
-/

set_option autoImplicit false

namespace Xv6Fcfs.Sched

open Xv6Fcfs.Lib
open Xv6Fcfs.Process (Slot ProcState)

variable {s : State} {c : Nat} {choice : Choice} {mv : Move} {cpu : Cpu} {lock : Lock → Option Nat}

/-! ## Processes and interrupt handlers -/

section Quiet

variable (core : Core s) (table : Table s)
  (run : fetch (s.cpu c) s.mem choice (s.stack (s.on c)) = some mv)
  (does : Does c (s.cpu c) s.lock mv.op cpu lock)
  (other : ∀ pc rest, s.stack (s.on c) ≠ .scheduler pc :: rest)

theorem moved_view (q : Slot) (same : mv.mem.view q = s.mem.view q) :
    (s.moved c mv cpu lock).procState q = s.procState q := congrArg Prod.fst same

theorem moved_kept {p : Slot} (notOwn : s.on c ≠ .proc p) (notMade : mv.op ≠ .context p) :
    (s.moved c mv cpu lock).stack (.proc p) = s.stack (.proc p) :=
  moved_other (Ne.symm notOwn) fun _ op same => notMade (by cases same; exact op)

include core run other in
theorem quiet_claims (cpu : Cpu) (lock : Lock → Option Nat) (d : Nat) :
    ((s.moved c mv cpu lock).pc d).claims = (s.pc d).claims := by
  rcases core.quiet_pc run other cpu lock d with ⟨same, _⟩ | ⟨_, was, now⟩
  · rw [same]
  · rw [was.claims, now.claims]

include core table run does other in
/-- The moving CPU claims nothing but the process it executes, which is `RUNNING`. -/
theorem quiet_own {q : Slot} (claim : (s.pc c).claims = some q) : s.procState q = .running := by
  rcases core.seat c with sched | ⟨p, proc⟩
  · have : s.pc c = .top := by
      unfold State.pc
      rw [← sched]
      exact pcOf_other other
    rw [this] at claim
    cases claim
  · rw [core.claims_on proc] at claim
    cases claim
    exact table.own_running proc run does

include core table run does other in
theorem quiet_busy (core' : Core (s.moved c mv cpu lock)) (d : Nat) (p : Slot)
    (claim : ((s.moved c mv cpu lock).pc d).claims = some p)
    (stopped : (s.moved c mv cpu lock).procState p ≠ .running) : lock (.proc p) = some d := by
  rw [quiet_claims core run other] at claim
  -- a claim on a process that had stopped before is another CPU's, and backed by its lock
  have elsewhere : s.procState p ≠ .running → d ≠ c ∧ s.lock (.proc p) = some d := by
    intro was
    refine ⟨?_, table.busy d p claim was⟩
    intro here
    subst here
    exact was (quiet_own core table run does other claim)
  rcases core.quiet_view run other p with same | ⟨locked, turn⟩
  · rw [moved_view p same] at stopped
    obtain ⟨differ, owned⟩ := elsewhere stopped
    exact does.lock_other owned differ
  · have ran : s.procState p = .running := by
      by_contra was
      obtain ⟨differ, owned⟩ := elsewhere was
      rw [locked] at owned
      exact differ (Option.some.inj owned).symm
    have mine : s.on c = .proc p → Lock.proc p ∈ locksOf mv.stack → lock (.proc p) = some d := by
      intro own inside
      cases table.sole d c p claim (core.claims_on own)
      have held : (s.moved c mv cpu lock).held c = locksOf mv.stack := by
        rw [core.moved_held (core.context_off table run), if_pos rfl]
      rw [← held] at inside
      exact (core'.ledger.owns _ _).mp inside
    change (mv.mem.view p).1 ≠ .running at stopped
    generalize mv.mem.view p = now at turn stopped
    cases turn with
    | dozes own chan lk rest next =>
        exact mine own (by rw [next]; simp [Frame.held, SleepPc.held])
    | dies own status rest chan next =>
        exact mine own (by rw [next]; simp [Frame.held, KexitPc.held])
    | stays own => exact absurd ran stopped
    | wakes was => rw [ran] at was; cases was
    | frees was => rw [ran] at was; cases was
    | takes was => rw [ran] at was; cases was
    | drops q own kid => rw [table.child q p kid] at ran; cases ran
    | readies q own kid => rw [table.child q p (madeBy_children kid)] at ran; cases ran

include core table run other in
theorem quiet_runs (p : Slot) (running : (s.moved c mv cpu lock).procState p = .running) :
    ∃ d, ((s.moved c mv cpu lock).pc d).claims = some p := by
  have was : s.procState p = .running := by
    rcases core.quiet_view run other p with same | ⟨_, turn⟩
    · exact (moved_view p same).symm.trans running
    · change (mv.mem.view p).1 = .running at running
      generalize mv.mem.view p = now at turn running
      cases turn with
      | stays own => exact running
      | _ => cases running
  obtain ⟨d, claim⟩ := table.runs p was
  exact ⟨d, (quiet_claims core run other cpu lock d).trans claim⟩

include core table run other in
theorem quiet_expects (d : Nat) :
    ((s.moved c mv cpu lock).pc d).Expects (s.moved c mv cpu lock).procState := by
  rcases core.quiet_pc run other cpu lock d with ⟨same, away⟩ | ⟨_, _, idle⟩
  · rw [same]
    refine (table.expects d).congr ?_
    intro f inside
    obtain ⟨owned, here⟩ := core.pc_locks inside
    rcases core.quiet_view run other f with view | ⟨locked, _⟩
    · exact moved_view f view
    · rw [owned] at locked
      cases Option.some.inj locked
      exact absurd here away
  · exact idle.expects _

include core table run other in
theorem quiet_ready (p : Slot)
    (state : (s.moved c mv cpu lock).procState p = .runnable ∨
      (s.moved c mv cpu lock).procState p = .running) (idle : ∀ d, s.on d ≠ .proc p) :
    Resumable p ((s.moved c mv cpu lock).stack (.proc p)) := by
  by_cases made : mv.op = .context p
  · exact .fresh (moved_made made)
  rw [moved_kept (idle c) made]
  rcases core.quiet_view run other p with same | ⟨_, turn⟩
  · rw [moved_view p same] at state
    exact table.ready p state idle
  · change (mv.mem.view p).1 = .runnable ∨ (mv.mem.view p).1 = .running at state
    generalize mv.mem.view p = now at turn state
    cases turn with
    | wakes was =>
        obtain ⟨ch, lk, pc, rest, stack, down, _⟩ := table.slept p was
        rcases down with rfl | ⟨was, rfl⟩
        · have empty := core.parked (.proc p) idle
          rw [stack] at empty
          cases empty
        · exact .asleep ch lk was rest stack
    | readies q own kid => exact .fresh (table.made q p kid)
    | dozes own => exact absurd own (idle c)
    | stays own => exact absurd own (idle c)
    | dies own => exact absurd own (idle c)
    | _ => rcases state with state | state <;> cases state

include core table run does other in
theorem quiet_live (d : Nat) (p : Slot) (here : s.on d = .proc p) :
    Live ((s.moved c mv cpu lock).procState p) ((s.moved c mv cpu lock).stack (.proc p)) := by
  have off := core.context_off table run
  by_cases self : d = c
  · subst self
    have was : s.procState p = .running := table.own_running here run does
    rw [← here, moved_own fun np op => off np op d]
    rcases core.quiet_view run other p with same | ⟨_, turn⟩
    · exact .running ((moved_view p same).trans was)
    · change Live (mv.mem.view p).1 _
      generalize mv.mem.view p = now at turn
      cases turn with
      | dozes own chan lk rest next => exact .dozing rfl p chan lk rest next
      | stays own => exact .running was
      | dies own status rest chan next => exact .dying rfl p status rest next
      | wakes bad => rw [was] at bad; cases bad
      | frees bad => rw [was] at bad; cases bad
      | takes bad => rw [was] at bad; cases bad
      | drops q own kid => rw [table.child q p kid] at was; cases was
      | readies q own kid => rw [table.child q p (madeBy_children kid)] at was; cases was
  · have notOwn : s.on c ≠ .proc p := fun own => self (core.apart d c (here.trans own.symm))
    rw [moved_kept notOwn fun op => off p op d here]
    rcases core.quiet_view run other p with same | ⟨locked, turn⟩
    · rw [moved_view p same]
      exact table.live d p here
    · have ran : s.procState p = .running := by
        by_contra stopped
        have owned := table.busy d p (core.claims_on here) stopped
        rw [locked] at owned
        exact self (Option.some.inj owned).symm
      change Live (mv.mem.view p).1 _
      generalize mv.mem.view p = now at turn
      cases turn with
      | dozes own => exact absurd own notOwn
      | stays own => exact absurd own notOwn
      | dies own => exact absurd own notOwn
      | wakes bad => rw [ran] at bad; cases bad
      | frees bad => rw [ran] at bad; cases bad
      | takes bad => rw [ran] at bad; cases bad
      | drops q own kid => rw [table.child q p kid] at ran; cases ran
      | readies q own kid => rw [table.child q p (madeBy_children kid)] at ran; cases ran

include core table run does other in
theorem quiet_slept (p : Slot) (asleep : (s.moved c mv cpu lock).procState p = .sleeping) :
    Slept p (mv.mem.view p).2 ((s.moved c mv cpu lock).stack (.proc p)) := by
  rcases core.quiet_view run other p with same | ⟨_, turn⟩
  · rw [moved_view p same] at asleep
    have notOwn : s.on c ≠ .proc p := by
      intro own
      rw [table.own_running own run does] at asleep
      cases asleep
    have notMade : mv.op ≠ .context p := by
      intro op
      rw [core.context_used table run op] at asleep
      cases asleep
    rw [moved_kept notOwn notMade, same]
    exact table.slept p asleep
  · change (mv.mem.view p).1 = .sleeping at asleep
    generalize mv.mem.view p = now at turn asleep
    cases turn with
    | dozes own chan lk rest next =>
        refine ⟨chan, lk, .sched, rest, ?_, Or.inl rfl, rfl⟩
        rw [← own, moved_own fun np op => core.context_off table run np op c]
        exact next
    | stays own =>
        have was : s.procState p = .sleeping := asleep
        rw [table.own_running own run does] at was
        cases was
    | _ => cases asleep

include core table run in
theorem quiet_children {p np : Slot}
    (kid : np ∈ children ((s.moved c mv cpu lock).stack (.proc p))) :
    (np ∈ children (s.stack (.proc p)) ∧ (s.on c = .proc p → np ∈ children mv.stack)) ∨
      (s.on c = .proc p ∧ s.procState np = .unused ∧ (mv.mem.proc np).state = .used) := by
  by_cases own : s.on c = .proc p
  · rw [← own, moved_own fun np op => core.context_off table run np op c] at kid
    rcases (fetch_forks run).1 np kid with old | new
    · rw [own] at old
      exact Or.inl ⟨old, fun _ => kid⟩
    · exact Or.inr ⟨own, new⟩
  · by_cases made : mv.op = .context p
    · rw [moved_made made] at kid
      cases kid
    · rw [moved_kept own made] at kid
      exact Or.inl ⟨kid, fun here => absurd here own⟩

include core table run does other in
theorem quiet_child (p np : Slot) (kid : np ∈ children ((s.moved c mv cpu lock).stack (.proc p))) :
    (s.moved c mv cpu lock).procState np = .used := by
  rcases quiet_children core table run kid with ⟨old, mine⟩ | ⟨_, _, used⟩
  swap
  · exact used
  have was := table.child p np old
  rcases core.quiet_view run other np with same | ⟨_, turn⟩
  · exact (moved_view np same).trans was
  · change (mv.mem.view np).1 = .used
    generalize mv.mem.view np = now at turn
    cases turn with
    | takes => rfl
    | stays own => exact was
    | wakes bad => rw [was] at bad; cases bad
    | frees bad => rw [was] at bad; cases bad
    | dozes own => rw [table.own_running own run does] at was; cases was
    | dies own => rw [table.own_running own run does] at was; cases was
    | drops q own kid none =>
        cases table.single p q np old kid
        have := mine own
        rw [none] at this
        cases this
    | readies q own kid none =>
        cases table.single p q np old (madeBy_children kid)
        have := mine own
        rw [none] at this
        cases this

include core table run in
theorem quiet_made (p np : Slot) (kid : np ∈ madeBy ((s.moved c mv cpu lock).stack (.proc p))) :
    (s.moved c mv cpu lock).stack (.proc np) = [.forkret np false] := by
  have old : np ∈ madeBy (s.stack (.proc p)) ∨ mv.op = .context np := by
    by_cases own : s.on c = .proc p
    · rw [← own, moved_own fun np op => core.context_off table run np op c] at kid
      rw [← own]
      exact (fetch_forks run).2 np kid
    · by_cases made : mv.op = .context p
      · rw [moved_made made] at kid
        cases kid
      · rw [moved_kept own made] at kid
        exact Or.inl kid
  by_cases made : mv.op = .context np
  · exact moved_made made
  · rcases old with old | op
    · rw [moved_kept (table.child_off (madeBy_children old) c) made]
      exact table.made p np old
    · exact absurd op made

include core table run in
theorem quiet_single (p q np : Slot) (kid : np ∈ children ((s.moved c mv cpu lock).stack (.proc p)))
    (kid' : np ∈ children ((s.moved c mv cpu lock).stack (.proc q))) : p = q := by
  rcases quiet_children core table run kid with ⟨old, _⟩ | ⟨own, unused, _⟩
  · rcases quiet_children core table run kid' with ⟨old', _⟩ | ⟨_, unused, _⟩
    · exact table.single p q np old old'
    · rw [table.child p np old] at unused
      cases unused
  · rcases quiet_children core table run kid' with ⟨old', _⟩ | ⟨own', _, _⟩
    · rw [table.child q np old'] at unused
      cases unused
    · rw [own] at own'
      cases own'
      rfl

include core table run does other in
theorem Table.quiet (core' : Core (s.moved c mv cpu lock)) : Table (s.moved c mv cpu lock) where
  sole d e p claim claim' := by
    rw [quiet_claims core run other] at claim claim'
    exact table.sole d e p claim claim'
  busy := quiet_busy core table run does other core'
  runs := quiet_runs core table run other
  expects := quiet_expects core table run other
  ready := quiet_ready core table run other
  live := quiet_live core table run does other
  slept := quiet_slept core table run does other
  child := quiet_child core table run does other
  made := quiet_made core table run
  single := quiet_single core table run

end Quiet

/-! ## The scheduler -/

/-- Three kinds of moves of the scheduler: one that keeps its claim, the dispatch, and the one
that gives the claim up. -/
inductive Shift (m : Mem) (pc : SchedPc) (m' : Mem) (next : SchedPc) : Prop where
  | keeps (same : m' = m) (claims : next.claims = pc.claims)
      (expects : pc.Expects (fun p => (m.view p).1) → next.Expects (fun p => (m.view p).1))
  | takes (first : Slot) (point : pc = .chosen first) (after : next = .running first)
      (same : m' = m.setProc first fun x => { x with state := .running })
  | gives (first : Slot) (point : pc = .back first) (after : next = .done first) (same : m' = m)

theorem scheduler_shift {m : Mem} {pc : SchedPc} (run : scheduler m [] pc = some mv)
    (stays : ∀ p, mv.op ≠ .swtch p) :
    ∃ next, mv.stack = [.scheduler next] ∧ next.host c = .sched c ∧ Shift m pc mv.mem next := by
  revert run
  fun_cases scheduler m [] pc
  all_goals
    intro run
    simp only [goes, Option.some.injEq, reduceCtorEq] at run
    try subst mv
  case case10 first => exact ⟨_, rfl, rfl, .takes first rfl rfl rfl⟩
  case case12 first => exact absurd rfl (stays first)
  case case14 first => exact ⟨_, rfl, rfl, .gives first rfl rfl rfl⟩
  case case3 p todo first =>
    exact ⟨_, rfl, rfl, .keeps rfl rfl (by cases first <;> exact id)⟩
  case case4 runnable => exact ⟨_, rfl, rfl, .keeps rfl rfl fun _ => runnable⟩
  case case6 smaller => exact ⟨_, rfl, rfl, .keeps rfl rfl fun _ => smaller.1⟩
  all_goals exact ⟨_, rfl, rfl, .keeps rfl rfl fun expects => by first | exact expects | trivial⟩

theorem SchedPc.claims_held {pc : SchedPc} {p : Slot} (claims : pc.claims = some p)
    (host : pc.host c = .sched c) : Lock.proc p ∈ pc.held := by
  cases pc <;> simp_all [SchedPc.claims, SchedPc.host, SchedPc.held]

section Scheduler

variable (core : Core s) (table : Table s)
  (run : fetch (s.cpu c) s.mem choice (s.stack (s.on c)) = some mv)
  (does : Does c (s.cpu c) s.lock mv.op cpu lock)

include core run does in
/-- What an ordinary move of the scheduler changes: only the point of its own CPU. -/
theorem scheduler_moved {pc : SchedPc} {rest : List Frame}
    (top : s.stack (s.on c) = .scheduler pc :: rest) :
    s.on c = .sched c ∧ s.pc c = pc ∧
      (∃ next, (s.moved c mv cpu lock).pc c = next ∧ next.host c = .sched c ∧
        Shift s.mem pc mv.mem next) ∧
      (∀ d, d ≠ c → (s.moved c mv cpu lock).pc d = s.pc d) ∧
      ∀ p, (s.moved c mv cpu lock).stack (.proc p) = s.stack (.proc p) := by
  obtain ⟨here, rfl, point⟩ := core.scheduler_on top
  have stays : ∀ p, mv.op ≠ .swtch p := by
    intro p op
    rw [op] at does
    cases does
  have notMade : ∀ p, mv.op ≠ .context p := by
    intro p op
    have comes := fetch_comes run
    rw [op, top] at comes
    obtain ⟨_, q, below, stack, _⟩ := comes
    cases stack
  rw [top] at run
  obtain ⟨next, after, host, shift⟩ := scheduler_shift (c := c) run stays
  refine ⟨here, point, ⟨next, ?_, host, shift⟩, ?_, ?_⟩
  · rcases core.moved_pc c mv cpu lock c with ⟨_, _, pc⟩ | ⟨away, _⟩
    · rw [pc, after]
      rfl
    · exact absurd here away
  · intro d differ
    rcases core.moved_pc c mv cpu lock d with ⟨_, same, _⟩ | ⟨_, pc⟩
    · exact absurd same differ
    · exact pc
  · intro p
    exact moved_kept (by rw [here]; rintro ⟨⟩) (notMade p)

include core table in
/-- The candidate is `RUNNABLE`, so whoever claims it holds its lock, as this CPU does. -/
theorem chosen_unclaimed {first : Slot} (point : s.pc c = .chosen first) :
    s.procState first = .runnable ∧ s.lock (.proc first) = some c ∧
      ∀ d, (s.pc d).claims ≠ some first := by
  have runnable : s.procState first = .runnable := by
    have expects := table.expects c
    rw [point] at expects
    exact expects
  have mine : s.lock (.proc first) = some c := by
    refine (core.pc_locks ?_).1
    rw [point]
    simp [SchedPc.held]
  refine ⟨runnable, mine, ?_⟩
  intro d claim
  have theirs := table.busy d first claim (by rw [runnable]; rintro ⟨⟩)
  rw [mine] at theirs
  cases Option.some.inj theirs
  rw [point] at claim
  cases claim

theorem Shift.state {pc next : SchedPc} (shift : Shift s.mem pc mv.mem next) (q : Slot) :
    (s.moved c mv cpu lock).mem.view q = s.mem.view q ∨
      (pc = .chosen q ∧ next = .running q ∧
        (s.moved c mv cpu lock).mem.view q = (.running, (s.mem.view q).2)) := by
  change mv.mem.view q = s.mem.view q ∨ (pc = .chosen q ∧ next = .running q ∧ mv.mem.view q = _)
  cases shift with
  | keeps same => exact Or.inl (by rw [same])
  | gives first point after same => exact Or.inl (by rw [same])
  | takes first point after same =>
      rw [same, view_setProc]
      by_cases here : q = first
      · subst here
        exact Or.inr ⟨point, after, if_pos rfl⟩
      · exact Or.inl (if_neg here)

include core table run does in
theorem Table.scheduler (core' : Core (s.moved c mv cpu lock)) {pc : SchedPc} {rest : List Frame}
    (top : s.stack (s.on c) = .scheduler pc :: rest) : Table (s.moved c mv cpu lock) := by
  obtain ⟨here, point, ⟨next, now, host, shift⟩, pcs, kept⟩ := scheduler_moved core run does top
  have viewed : ∀ q, (s.moved c mv cpu lock).mem.view q = s.mem.view q ∨
      (pc = .chosen q ∧ next = .running q ∧
        (s.moved c mv cpu lock).mem.view q = (.running, (s.mem.view q).2)) :=
    fun q => shift.state q
  have stateOf : ∀ q, (s.moved c mv cpu lock).procState q =
      ((s.moved c mv cpu lock).mem.view q).1 := fun _ => rfl
  have chosen : ∀ {q}, pc = .chosen q → s.procState q = .runnable ∧
      s.lock (.proc q) = some c ∧ ∀ d, (s.pc d).claims ≠ some q := fun same =>
    chosen_unclaimed core table (point.trans same)
  have newClaim : ∀ p, next.claims = some p → (s.pc c).claims = some p ∨
      ∀ d, (s.pc d).claims ≠ some p := by
    intro p claim
    cases shift with
    | keeps same claims => exact Or.inl (by rw [point, ← claims]; exact claim)
    | takes first same after => subst after; cases claim; exact Or.inr (chosen same).2.2
    | gives first same after => subst after; cases claim
  refine ⟨?_, ?_, ?_, ?_, ?_, ?_, ?_, ?_, ?_, ?_⟩
  · intro d e p claim claim'
    by_cases dHere : d = c <;> by_cases eHere : e = c
    · rw [dHere, eHere]
    · rw [dHere, now] at claim
      rw [pcs e eHere] at claim'
      rcases newClaim p claim with old | fresh
      · rw [dHere]; exact table.sole c e p old claim'
      · exact absurd claim' (fresh e)
    · rw [pcs d dHere] at claim
      rw [eHere, now] at claim'
      rcases newClaim p claim' with old | fresh
      · rw [eHere]; exact table.sole d c p claim old
      · exact absurd claim (fresh d)
    · rw [pcs d dHere] at claim
      rw [pcs e eHere] at claim'
      exact table.sole d e p claim claim'
  · intro d p claim stopped
    by_cases self : d = c
    · subst self
      rw [now] at claim
      refine (core'.pc_locks ?_).1
      rw [now]
      exact SchedPc.claims_held claim host
    · rw [pcs d self] at claim
      have was : s.procState p ≠ .running := by
        rcases viewed p with same | ⟨_, _, running⟩
        · rwa [stateOf, same] at stopped
        · rw [stateOf, running] at stopped
          exact absurd rfl stopped
      exact does.lock_other (table.busy d p claim was) self
  · intro p running
    rcases viewed p with same | ⟨_, after, _⟩
    · rw [stateOf, same] at running
      obtain ⟨d, claim⟩ := table.runs p running
      by_cases self : d = c
      · subst self
        refine ⟨d, ?_⟩
        rw [now]
        rw [point] at claim
        cases shift with
        | keeps _ claims => rw [claims]; exact claim
        | takes first at_chosen => subst at_chosen; cases claim
        | gives first at_back =>
            subst at_back
            cases claim
            have expects := table.expects d
            rw [point] at expects
            exact absurd running expects
      · exact ⟨d, by rw [pcs d self]; exact claim⟩
    · refine ⟨c, ?_⟩
      rw [now, after]
      rfl
  · intro d
    by_cases self : d = c
    · subst self
      rw [now]
      have expects := table.expects d
      rw [point] at expects
      cases shift with
      | keeps same claims carry =>
          have states : (s.moved d mv cpu lock).procState = fun p => (s.mem.view p).1 := by
            funext p
            change (mv.mem.view p).1 = _
            rw [same]
          rw [states]
          exact carry expects
      | takes first at_chosen after same =>
          subst after
          change (mv.mem.view first).1 = .running
          rw [same, view_setProc, if_pos rfl]
      | gives first at_back after same =>
          subst after
          subst at_back
          change (mv.mem.view first).1 ≠ .running
          rw [same]
          exact expects
    · rw [pcs d self]
      refine (table.expects d).congr ?_
      intro f inside
      rcases viewed f with same | ⟨chose, _⟩
      · rw [stateOf, same]
        rfl
      · have theirs := (core.pc_locks inside).1
        rw [(chosen chose).2.1] at theirs
        exact absurd (Option.some.inj theirs).symm self
  · intro p state idle
    rw [kept p]
    rcases viewed p with same | ⟨chose, _⟩
    · rw [stateOf, same] at state
      exact table.ready p state idle
    · exact table.ready p (Or.inl (chosen chose).1) idle
  · intro d p on
    rw [kept p]
    rcases viewed p with same | ⟨chose, _⟩
    · rw [stateOf, same]
      exact table.live d p on
    · exact absurd (core.claims_on on) ((chosen chose).2.2 d)
  · intro p asleep
    rw [kept p]
    rcases viewed p with same | ⟨_, _, running⟩
    · rw [stateOf, same] at asleep
      rw [same]
      exact table.slept p asleep
    · rw [stateOf, running] at asleep
      cases asleep
  · intro p np kid
    rw [kept p] at kid
    have used := table.child p np kid
    rcases viewed np with same | ⟨chose, _⟩
    · rw [stateOf, same]
      exact used
    · rw [(chosen chose).1] at used
      cases used
  · intro p np kid
    rw [kept p] at kid
    rw [kept np]
    exact table.made p np kid
  · intro p q np kid kid'
    rw [kept p] at kid
    rw [kept q] at kid'
    exact table.single p q np kid kid'

end Scheduler

/-! ## Context switches -/

section Switches

theorem Resumable.fit {p : Slot} {stack : List Frame} (ready : Resumable p stack)
    (fit : Fit (some p) stack) (empty : locksOf stack = []) :
    Fit (some p) (resume stack) ∧ locksOf (resume stack) = [.proc p] := by
  cases ready with
  | fresh same =>
      subst same
      exact ⟨fit, rfl⟩
  | asleep chan lk was rest same =>
      subst same
      have below : locksOf rest = [] := by simpa [Frame.held, SleepPc.held] using empty
      obtain ⟨⟨own, free, caller, _⟩, deeper⟩ := fit
      refine ⟨⟨⟨own, free, caller, fun _ => below⟩, deeper⟩, ?_⟩
      simp [resume, Frame.held, SleepPc.held, below]

/-- The two threads of a switch trade places and nothing else changes for the table. -/
theorem switched_table {t : Thread} (table : Table s) (mem : mv.mem = s.mem)
    (claims : ∀ d, ((s.switched c mv t).pc d).claims = (s.pc d).claims)
    (expects : ∀ d, ((s.switched c mv t).pc d).Expects s.procState)
    (kids : ∀ p, children ((s.switched c mv t).stack (.proc p)) = children (s.stack (.proc p)))
    (made : ∀ p, madeBy ((s.switched c mv t).stack (.proc p)) = madeBy (s.stack (.proc p)))
    (fresh : ∀ p, s.procState p = .used → (s.switched c mv t).stack (.proc p) = s.stack (.proc p))
    (ready : ∀ p, s.procState p = .runnable ∨ s.procState p = .running →
      (∀ d, (s.switched c mv t).on d ≠ .proc p) → Resumable p ((s.switched c mv t).stack (.proc p)))
    (live : ∀ d p, (s.switched c mv t).on d = .proc p →
      Live (s.procState p) ((s.switched c mv t).stack (.proc p)))
    (slept : ∀ p, s.procState p = .sleeping →
      Slept p (s.mem.view p).2 ((s.switched c mv t).stack (.proc p))) :
    Table (s.switched c mv t) := by
  have memory : (s.switched c mv t).mem = s.mem := mem
  have states : (s.switched c mv t).procState = s.procState := by
    funext p
    unfold State.procState
    rw [memory]
  refine ⟨?_, ?_, ?_, ?_, ?_, ?_, ?_, ?_, ?_, ?_⟩
  · intro d e p claim claim'
    rw [claims d] at claim
    rw [claims e] at claim'
    exact table.sole d e p claim claim'
  · intro d p claim
    rw [claims d] at claim
    rw [states]
    exact table.busy d p claim
  · intro p running
    rw [states] at running
    obtain ⟨d, claim⟩ := table.runs p running
    exact ⟨d, (claims d).trans claim⟩
  · rw [states]
    exact expects
  · rw [states]
    exact ready
  · rw [states]
    exact live
  · rw [states, memory]
    exact slept
  · intro p np kid
    rw [kids p] at kid
    rw [states]
    exact table.child p np kid
  · intro p np kid
    rw [made p] at kid
    rw [fresh np (table.child p np (madeBy_children kid))]
    exact table.made p np kid
  · intro p q np kid kid'
    rw [kids p] at kid
    rw [kids q] at kid'
    exact table.single p q np kid kid'

variable (core : Core s) (table : Table s)
  (run : fetch (s.cpu c) s.mem choice (s.stack (s.on c)) = some mv)

include core table run in
/-- The process a scheduler switches to is `RUNNING`, executed by nobody and can go on. -/
theorem swtch_target {p : Slot} (op : mv.op = .swtch p) :
    s.on c = .sched c ∧ s.pc c = .swtching p ∧ s.stack (s.on c) = [.scheduler (.swtching p)] ∧
      mv.mem = s.mem ∧ mv.stack = [.scheduler (.away p)] ∧ s.procState p = .running ∧
      (∀ d, s.on d ≠ .proc p) ∧ Resumable p (s.stack (.proc p)) := by
  have comes := fetch_comes run
  rw [op] at comes
  obtain ⟨mem, rest, stack, after⟩ := comes
  obtain ⟨here, rfl, point⟩ := core.scheduler_on stack
  have running : s.procState p = .running := by
    have expects := table.expects c
    rw [point] at expects
    exact expects
  have off : ∀ d, s.on d ≠ .proc p := by
    intro d on
    cases table.sole d c p (core.claims_on on) (by rw [point]; rfl)
    rw [here] at on
    cases on
  exact ⟨here, point, stack, mem, after, running, off, table.ready p (Or.inr running) off⟩

include core table run in
theorem swtch_keeps {p : Slot} (op : mv.op = .swtch p) :
    Core (s.switched c mv (.proc p)) ∧ Table (s.switched c mv (.proc p)) := by
  obtain ⟨here, point, stack, mem, after, running, off, ready⟩ := swtch_target core table run op
  have legal := core.legal run
  have empty := core.parked (.proc p) off
  obtain ⟨fitTo, locksTo⟩ := ready.fit (core.fit (.proc p)) empty
  have pcSelf : (s.switched c mv (.proc p)).pc c = .away p := by
    unfold State.pc
    rw [← here, switched_from (off c), after]
    rfl
  have pcOther : ∀ d, d ≠ c → (s.switched c mv (.proc p)).pc d = s.pc d := by
    intro d differ
    refine switched_pc_other (by rintro ⟨⟩) ?_
    rw [here]
    intro same
    cases same
    exact differ rfl
  have kept : ∀ q, q ≠ p → (s.switched c mv (.proc p)).stack (.proc q) = s.stack (.proc q) := by
    intro q differ
    refine switched_other (fun same => differ (by cases same; rfl)) ?_
    rw [here]
    rintro ⟨⟩
  refine ⟨?_, ?_⟩
  · refine core.switched off fitTo legal.fit (by rw [after]; rfl) ?_ ?_ ?_
    · unfold State.held
      rw [locksTo, stack]
      exact List.Perm.refl _
    · intro d
      rw [switched_on]
      by_cases self : d = c
      · subst self
        rw [if_pos rfl, pcSelf]
        rfl
      · rw [if_neg self, pcOther d self]
        exact core.on d
    · intro d
      by_cases self : d = c
      · subst self
        rw [pcSelf, core.proc d, point]
        rfl
      · rw [pcOther d self]
        exact core.proc d
  · have notUsed : ∀ q, s.procState q ≠ .running → q ≠ p := by
      intro q other same
      subst same
      exact other running
    refine switched_table table mem ?_ ?_ ?_ ?_ ?_ ?_ ?_ ?_
    · intro d
      by_cases self : d = c
      · subst self
        rw [pcSelf, point]
        rfl
      · rw [pcOther d self]
    · intro d
      by_cases self : d = c
      · subst self
        rw [pcSelf]
        trivial
      · rw [pcOther d self]
        exact table.expects d
    · intro q
      by_cases same : q = p
      · subst same
        rw [switched_to, children_resume]
      · rw [kept q same]
    · intro q
      by_cases same : q = p
      · subst same
        rw [switched_to, madeBy_resume]
      · rw [kept q same]
    · intro q used
      exact kept q (notUsed q (by rw [used]; rintro ⟨⟩))
    · intro q state idle
      have differ : q ≠ p := by
        intro same
        subst same
        have := idle c
        rw [switched_on, if_pos rfl] at this
        exact this rfl
      rw [kept q differ]
      refine table.ready q state ?_
      intro d on
      by_cases self : d = c
      · subst self
        rw [here] at on
        cases on
      · have := idle d
        rw [switched_on, if_neg self] at this
        exact this on
    · intro d q on
      rw [switched_on] at on
      by_cases self : d = c
      · rw [if_pos self] at on
        cases on
        exact .running running
      · rw [if_neg self] at on
        have differ : q ≠ p := fun same => off d (same ▸ on)
        rw [kept q differ]
        exact table.live d q on
    · intro q asleep
      rw [kept q (notUsed q (by rw [asleep]; rintro ⟨⟩))]
      exact table.slept q asleep

theorem schedCheck_none {p : Slot} (check : schedCheck s c p = none) :
    s.lock (.proc p) = some c ∧ (s.cpu c).noff = 1 ∧ s.procState p ≠ .running := by
  unfold schedCheck at check
  split at check
  · cases check
  · next held =>
    split at check
    · cases check
    · next one =>
      split at check
      · cases check
      · next state =>
        exact ⟨not_not.mp held, not_not.mp one, state⟩

include core run in
theorem sched_source (op : mv.op = .sched) :
    mv.mem = s.mem ∧ ∃ p rest, s.on c = .proc p ∧ s.pc c = .away p ∧
      s.held c = .proc p :: locksOf rest ∧ locksOf mv.stack = locksOf rest ∧
      ((∃ chan lk was, s.stack (.proc p) = .sleep p chan lk .sched :: rest ∧
        mv.stack = .sleep p chan lk (.asleep was) :: rest) ∨
      ∃ status, s.stack (.proc p) = .kexit p status .sched :: rest ∧
        mv.stack = .kexit p status .gone :: rest) := by
  have comes := fetch_comes run
  rw [op] at comes
  have away : ∀ {p : Slot}, s.on c = .proc p → s.pc c = .away p := by
    intro p on
    have host := core.on c
    rw [on] at host
    cases point : s.pc c <;> simp_all [SchedPc.host]
  obtain ⟨mem, ⟨p, chan, lk, was, rest, stack, after⟩ | ⟨p, status, rest, stack, after⟩⟩ := comes
  all_goals
    have fit := core.fit (s.on c)
    rw [stack] at fit
    have on := Thread.owner fit.1.1
    refine ⟨mem, p, rest, on, away on, ?_, by rw [after]; rfl, ?_⟩
    · unfold State.held
      rw [stack]
      rfl
    · rw [← on, stack]
      simp [after]

include core table run in
theorem sched_keeps (alive : s.halted c = none) (op : mv.op = .sched) {p : Slot}
    (self : (s.cpu c).proc = some p) (check : schedCheck s c p = none) :
    Core (s.switched c mv (.sched c)) ∧ Table (s.switched c mv (.sched c)) := by
  obtain ⟨mem, q, rest, on, point, held, locksLeft, source⟩ := sched_source core run op
  have legal := core.legal run
  have same : q = p := by
    rw [core.myproc on] at self
    exact Option.some.inj self
  subst same
  obtain ⟨_, one, stopped⟩ := schedCheck_none check
  have below : locksOf rest = [] := by
    have counted := core.noff c alive
    rw [one, held, List.length_cons] at counted
    exact List.eq_nil_of_length_eq_zero (by omega)
  have home : s.stack (.sched c) = [.scheduler (.away q)] := pcOf_ne point (by rintro ⟨⟩)
  have off : ∀ d, s.on d ≠ .sched c := by
    intro d here
    cases core.sched_own here
    rw [on] at here
    cases here
  have pcSelf : (s.switched c mv (.sched c)).pc c = .back q := by
    unfold State.pc
    rw [switched_to, home]
    rfl
  have pcOther : ∀ d, d ≠ c → (s.switched c mv (.sched c)).pc d = s.pc d := by
    intro d differ
    refine switched_pc_other (fun same => differ (by cases same; rfl)) ?_
    rw [on]
    rintro ⟨⟩
  have own : (s.switched c mv (.sched c)).stack (.proc q) = mv.stack := by
    rw [← on]
    exact switched_from (off c)
  have kept : ∀ r, r ≠ q → (s.switched c mv (.sched c)).stack (.proc r) = s.stack (.proc r) := by
    intro r differ
    refine switched_other (by rintro ⟨⟩) ?_
    rw [on]
    intro same
    cases same
    exact differ rfl
  have childless : children mv.stack = children (s.stack (.proc q)) ∧
      madeBy mv.stack = madeBy (s.stack (.proc q)) := by
    rcases source with ⟨chan, lk, was, stack, after⟩ | ⟨status, stack, after⟩ <;>
      rw [stack, after] <;> exact ⟨rfl, rfl⟩
  have live := table.live c q on
  refine ⟨?_, ?_⟩
  · refine core.switched off ?_ legal.fit (by rw [locksLeft, below]) ?_ ?_ ?_
    · rw [home]
      exact ⟨⟨rfl, rfl⟩, trivial⟩
    · rw [held, below, home]
      exact List.Perm.refl _
    · intro d
      rw [switched_on]
      by_cases here : d = c
      · subst here
        rw [if_pos rfl, pcSelf]
        rfl
      · rw [if_neg here, pcOther d here]
        exact core.on d
    · intro d
      by_cases here : d = c
      · subst here
        rw [pcSelf]
        exact self
      · rw [pcOther d here]
        exact core.proc d
  · refine switched_table table mem ?_ ?_ ?_ ?_ ?_ ?_ ?_ ?_
    · intro d
      by_cases here : d = c
      · subst here
        rw [pcSelf, point]
        rfl
      · rw [pcOther d here]
    · intro d
      by_cases here : d = c
      · subst here
        rw [pcSelf]
        exact stopped
      · rw [pcOther d here]
        exact table.expects d
    · intro r
      by_cases same : r = q
      · subst same
        rw [own, childless.1]
      · rw [kept r same]
    · intro r
      by_cases same : r = q
      · subst same
        rw [own, childless.2]
      · rw [kept r same]
    · intro r used
      refine kept r ?_
      intro same
      subst same
      cases live with
      | running is => rw [used] at is; cases is
      | dozing is => rw [used] at is; cases is
      | dying is => rw [used] at is; cases is
    · intro r state idle
      have differ : r ≠ q := by
        intro same
        subst same
        cases live with
        | running is => exact stopped is
        | dozing is => rw [is] at state; rcases state with state | state <;> cases state
        | dying is => rw [is] at state; rcases state with state | state <;> cases state
      rw [kept r differ]
      refine table.ready r state ?_
      intro d here
      by_cases own : d = c
      · subst own
        rw [on] at here
        cases here
        exact differ rfl
      · have := idle d
        rw [switched_on, if_neg own] at this
        exact this here
    · intro d r here
      rw [switched_on] at here
      by_cases mine : d = c
      · rw [if_pos mine] at here
        cases here
      · rw [if_neg mine] at here
        have differ : r ≠ q := by
          intro same
          subst same
          exact mine (core.apart d c (here.trans on.symm))
        rw [kept r differ]
        exact table.live d r here
    · intro r asleep
      by_cases same : r = q
      · subst same
        rw [own]
        obtain ⟨ch, lk, pc, deeper, stack, _, chan⟩ := table.slept r asleep
        rcases source with ⟨_, _, was, stack', after⟩ | ⟨status, stack', _⟩
        · rw [stack] at stack'
          cases stack'
          exact ⟨ch, lk, .asleep was, rest, after, Or.inr ⟨was, rfl⟩, chan⟩
        · rw [stack] at stack'
          cases stack'
      · rw [kept r same]
        exact table.slept r asleep

end Switches

/-! ## The whole machine -/

structure Inv (s : State) : Prop where
  core : Core s
  table : Table s

theorem boot_stack (t : Thread) : locksOf (boot.stack t) = [] ∧ Fit t.me (boot.stack t) := by
  cases t with
  | sched c => exact ⟨rfl, ⟨rfl, rfl⟩, trivial⟩
  | proc p =>
      by_cases first : p = 0
      · subst first
        exact ⟨rfl, ⟨rfl, rfl⟩, trivial⟩
      · have none : boot.stack (.proc p) = [] := if_neg first
        rw [none]
        exact ⟨rfl, trivial⟩

theorem boot_core : Core boot where
  ledger := by
    refine ⟨?_, ?_⟩
    · intro l c
      simp only [State.held, (boot_stack _).1]
      exact ⟨by rintro ⟨⟩, by rintro ⟨⟩⟩
    · intro c
      simp only [State.held, (boot_stack _).1]
      exact List.nodup_nil
  fit t := (boot_stack t).2
  parked t _ := (boot_stack t).1
  apart c d same := by cases same; rfl
  on _ := rfl
  proc _ := rfl
  noff _ _ := rfl
  intr _ _ _ := rfl

theorem boot_state (p : Slot) :
    boot.procState p = (if p = 0 then .runnable else .unused) ∧
      boot.stack (.proc p) = if p = 0 then [.forkret 0 false] else [] := by
  refine ⟨?_, rfl⟩
  by_cases first : p = 0
  · subst first; rfl
  · simp [State.procState, Mem.view, boot, first, Proc.freed]

theorem boot_childless (p : Slot) : children (boot.stack (.proc p)) = [] := by
  rw [(boot_state p).2]
  split <;> rfl

theorem boot_table : Table boot where
  sole _ _ _ claim := by cases claim
  busy _ _ claim := by cases claim
  runs p running := by
    rw [(boot_state p).1] at running
    split at running <;> cases running
  expects _ := trivial
  ready p state _ := by
    by_cases first : p = 0
    · subst first
      exact .fresh rfl
    · rw [(boot_state p).1, if_neg first] at state
      rcases state with state | state <;> cases state
  live _ _ here := by cases here
  slept p asleep := by
    rw [(boot_state p).1] at asleep
    split at asleep <;> cases asleep
  child p np kid := by rw [boot_childless] at kid; cases kid
  made p np kid := by
    have := madeBy_children kid
    rw [boot_childless] at this
    cases this
  single p q np kid := by rw [boot_childless] at kid; cases kid

theorem Table.halts (table : Table s) (cpu : Cpu) (why : Panic) :
    Table ((s.setCpu c cpu).halt c why) :=
  ⟨table.sole, table.busy, table.runs, table.expects, table.ready, table.live, table.slept,
    table.child, table.made, table.single⟩

theorem interrupt_keeps (core : Core s) (table : Table s) (alive : s.halted c = none)
    (on : (s.cpu c).intr = true) : Table (s.interrupted c) := by
  have quiet := core.interrupt_quiet alive on
  have claims : ∀ d, ((s.interrupted c).pc d).claims = (s.pc d).claims := by
    intro d
    rcases core.interrupted_pc quiet d with same | ⟨_, top, idle⟩
    · rw [same]
    · rw [top, idle.claims]
      rfl
  have runs : ∀ {p}, s.on c = .proc p → s.procState p = .running := by
    intro p here
    unfold State.held at quiet
    rw [here] at quiet
    cases table.live c p here with
    | running is => exact is
    | dozing is q chan lk rest same => rw [same] at quiet; cases quiet
    | dying is q status rest same => rw [same] at quiet; cases quiet
  have kept : ∀ {p}, s.on c ≠ .proc p → (s.interrupted c).stack (.proc p) = s.stack (.proc p) :=
    fun other => interrupted_other (Ne.symm other)
  have kids : ∀ p, children ((s.interrupted c).stack (.proc p)) = children (s.stack (.proc p)) ∧
      madeBy ((s.interrupted c).stack (.proc p)) = madeBy (s.stack (.proc p)) := by
    intro p
    by_cases own : s.on c = .proc p
    · rw [← own, interrupted_own]
      exact ⟨rfl, rfl⟩
    · rw [kept own]
      exact ⟨rfl, rfl⟩
  refine ⟨?_, ?_, ?_, ?_, ?_, ?_, ?_, ?_, ?_, ?_⟩
  · intro d e p claim claim'
    rw [claims d] at claim
    rw [claims e] at claim'
    exact table.sole d e p claim claim'
  · intro d p claim
    rw [claims d] at claim
    exact table.busy d p claim
  · intro p running
    obtain ⟨d, claim⟩ := table.runs p running
    exact ⟨d, (claims d).trans claim⟩
  · intro d
    rcases core.interrupted_pc quiet d with same | ⟨_, top, _⟩
    · rw [same]; exact table.expects d
    · rw [top]; trivial
  · intro p state idle
    rw [kept (idle c)]
    exact table.ready p state idle
  · intro d p here
    by_cases own : s.on c = .proc p
    · exact .running (runs own)
    · rw [kept own]
      exact table.live d p here
  · intro p asleep
    have other : s.on c ≠ .proc p := by
      intro own
      have was : s.procState p = .sleeping := asleep
      rw [runs own] at was
      cases was
    rw [kept other]
    exact table.slept p asleep
  · intro p np kid
    rw [(kids p).1] at kid
    exact table.child p np kid
  · intro p np kid
    rw [(kids p).2] at kid
    rw [kept (table.child_off (madeBy_children kid) c)]
    exact table.made p np kid
  · intro p q np kid kid'
    rw [(kids p).1] at kid
    rw [(kids q).1] at kid'
    exact table.single p q np kid kid'

theorem step_inv {e : Event} {s s' : State} (run : step s e = some s') (inv : Inv s) : Inv s' := by
  obtain ⟨core, table⟩ := inv
  cases e with
  | step c choice =>
      obtain ⟨alive, mv, fetched, outcome⟩ := step_outcome core run
      cases outcome with
      | halts why cpu same => exact ⟨core.halts why same, table.halts cpu why⟩
      | moves cpu lock does =>
          have core' := core.moves alive fetched does (core.context_off table fetched)
          refine ⟨core', ?_⟩
          by_cases top : ∃ pc rest, s.stack (s.on c) = .scheduler pc :: rest
          · obtain ⟨pc, rest, top⟩ := top
            exact table.scheduler core fetched does core' top
          · exact table.quiet core fetched does (fun pc rest same => top ⟨pc, rest, same⟩) core'
      | sched op p self check =>
          obtain ⟨core', table'⟩ := sched_keeps core table fetched alive op self check
          exact ⟨core', table'⟩
      | swtch p op =>
          obtain ⟨core', table'⟩ := swtch_keeps core table fetched op
          exact ⟨core', table'⟩
  | interrupt c =>
      obtain ⟨alive, on, rfl⟩ := step_interrupt run
      exact ⟨core.interrupt alive on, interrupt_keeps core table alive on⟩

/-! ## What a step leaves alone -/

/-- The other CPUs execute the same threads at the same points. -/
theorem step_elsewhere {s' : State} {e : Event} (run : step s e = some s') (inv : Inv s) {d : Nat}
    (other : ∀ choice, e ≠ .step d choice) (quiet : e ≠ .interrupt d) :
    s'.on d = s.on d ∧ s'.stack (s.on d) = s.stack (s.on d) ∧ s'.cpu d = s.cpu d ∧
      s'.halted d = s.halted d := by
  obtain ⟨core, table⟩ := inv
  have inv' := step_inv run ⟨core, table⟩
  cases e with
  | step c choice =>
      have differ : d ≠ c := fun same => other choice (by rw [same])
      have apart : s.on d ≠ s.on c := fun same => differ (core.apart d c same)
      obtain ⟨alive, mv, fetched, outcome⟩ := step_outcome core run
      cases outcome with
      | halts why cpu same =>
          refine ⟨rfl, rfl, ?_, ?_⟩
          · exact Function.update_of_ne differ ..
          · exact Function.update_of_ne differ ..
      | moves cpu lock does =>
          refine ⟨rfl, ?_, Function.update_of_ne differ .., rfl⟩
          exact moved_other apart fun np op => core.context_off table fetched np op d
      | sched op p self check =>
          have on : (s.switched c mv (.sched c)).on d = s.on d := by rw [switched_on, if_neg differ]
          refine ⟨on, switched_other ?_ apart, rfl, rfl⟩
          intro same
          refine differ (inv'.core.apart d c ?_)
          rw [on, same, switched_on, if_pos rfl]
      | swtch p op =>
          have on : (s.switched c mv (.proc p)).on d = s.on d := by rw [switched_on, if_neg differ]
          refine ⟨on, switched_other ?_ apart, rfl, rfl⟩
          intro same
          refine differ (inv'.core.apart d c ?_)
          rw [on, same, switched_on, if_pos rfl]
  | interrupt c =>
      obtain ⟨_, _, rfl⟩ := step_interrupt run
      have differ : d ≠ c := fun same => quiet (by rw [same])
      refine ⟨rfl, ?_, Function.update_of_ne differ .., rfl⟩
      exact interrupted_other fun same => differ (core.apart d c same)

theorem step_running {s' : State} {e : Event} (run : step s e = some s') (inv : Inv s) {p : Slot}
    (was : s.procState p ≠ .running) (now : s'.procState p = .running) :
    ∃ c choice, e = .step c choice ∧ s.on c = .sched c ∧ s.pc c = .chosen p ∧
      ∀ q, q ≠ p → s'.mem.view q = s.mem.view q := by
  obtain ⟨core, table⟩ := inv
  have source : ∀ {c choice mv}, fetch (s.cpu c) s.mem choice (s.stack (s.on c)) = some mv →
      s'.mem = mv.mem → s.on c = .sched c ∧ s.pc c = .chosen p ∧
        ∀ q, q ≠ p → s'.mem.view q = s.mem.view q := by
    intro c choice mv fetched mem
    unfold State.procState at now
    rw [mem] at now
    rcases fetch_changes fetched with same | ⟨q, others, write⟩
    · rw [same p] at now
      exact absurd now was
    · by_cases here : p = q
      · subst here
        generalize views : s.mem.view p = before at write
        generalize mv.mem.view p = after at write now
        cases write with
        | dispatched rest state chan point =>
            obtain ⟨on, _, pc⟩ := core.scheduler_on point
            refine ⟨on, pc, ?_⟩
            intro q differ
            rw [mem]
            exact others q differ
        | tidied chan lk rest state old point =>
            refine absurd ?_ was
            unfold State.procState
            rw [views]
            exact now
        | _ => cases now
      · rw [others p here] at now
        exact absurd now was
  cases e with
  | step c choice =>
      obtain ⟨alive, mv, fetched, outcome⟩ := step_outcome core run
      refine ⟨c, choice, rfl, ?_⟩
      cases outcome with
      | halts => exact absurd now was
      | moves => exact source fetched rfl
      | sched => exact source fetched rfl
      | swtch => exact source fetched rfl
  | interrupt c =>
      obtain ⟨_, _, rfl⟩ := step_interrupt run
      exact absurd now was

end Xv6Fcfs.Sched
