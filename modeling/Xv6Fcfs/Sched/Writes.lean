import Xv6Fcfs.Sched.Held

/-!
# What a move writes

Only ten program points write the state or the channel of a process, and each does so under the
lock of that process; three write a sleep lock.  Everything proved about states and channels
goes through this list.
-/

set_option autoImplicit false

namespace Xv6Fcfs.Sched

open Xv6Fcfs.Lib
open Xv6Fcfs.Process (Slot ProcState)

def Mem.view (m : Mem) (q : Slot) : ProcState × Option Chan := ((m.proc q).state, (m.proc q).chan)

theorem view_setProc (m : Mem) (p q : Slot) (f : Proc → Proc) :
    (m.setProc p f).view q =
      if q = p then ((f (m.proc p)).state, (f (m.proc p)).chan) else m.view q := by
  by_cases here : q = p
  · subst here; simp [Mem.view, Mem.setProc]
  · simp [Mem.view, Mem.setProc, here]

theorem view_allocpid (m : Mem) (np q : Slot) :
    (allocpid m np).view q = if q = np then (.used, (m.proc np).chan) else m.view q :=
  view_setProc m np q fun x => { x with pid := m.nextpid, state := .used }

/-- The program points that write the state or the channel of process `q`: the stack before
and after, what was there and what is written. -/
inductive Write (stack after : List Frame) (q : Slot) :
    ProcState × Option Chan → ProcState × Option Chan → Prop where
  | woken (chan : Option Chan) (todo : List Slot) (rest : List Frame)
      (point : stack = .waking chan q todo :: rest) :
        Write stack after q (.sleeping, chan) (.runnable, chan)
  | killed (pid : Int) (todo : List Slot) (rest : List Frame) (chan : Option Chan)
      (point : stack = .killing pid q todo :: rest) :
        Write stack after q (.sleeping, chan) (.runnable, chan)
  | dispatched (rest : List Frame) (was : ProcState) (chan : Option Chan)
      (point : stack = .scheduler (.chosen q) :: rest) :
        Write stack after q (was, chan) (.running, chan)
  | dozed (chan : Chan) (lk : Lock) (rest : List Frame) (was : ProcState × Option Chan)
      (point : stack = .sleep q chan lk .mark :: rest)
        (next : after = .sleep q chan lk .sched :: rest) :
      Write stack after q was (.sleeping, some chan)
  | tidied (chan : Chan) (lk : Lock) (rest : List Frame) (was : ProcState) (old : Option Chan)
      (point : stack = .sleep q chan lk .tidy :: rest) : Write stack after q (was, old) (was, none)
  | died (status : Int) (rest : List Frame) (was : ProcState) (chan : Option Chan)
      (point : stack = .kexit q status .mark :: rest) (next : after = .kexit q status .sched :: rest) :
      Write stack after q (was, chan) (.zombie, chan)
  | reaped (p : Slot) (todo : List Slot) (rest : List Frame) (chan : Option Chan)
      (point : stack = .kwait p (.look q todo) :: rest) :
        Write stack after q (.zombie, chan) (.unused, none)
  | taken (p : Slot) (todo : List Slot) (rest : List Frame) (chan : Option Chan)
      (point : stack = .kfork p (.look q todo) :: rest) (next : after = .kfork p (.found q) :: rest) :
      Write stack after q (.unused, chan) (.used, chan)
  | dropped (p : Slot) (rest : List Frame) (was : ProcState × Option Chan)
      (point : stack = .kfork p (.found q) :: rest ∨ stack = .kfork p (.copy q) :: rest)
      (next : after = rest) : Write stack after q was (.unused, none)
  | readied (p : Slot) (rest : List Frame) (was : ProcState) (chan : Option Chan)
      (point : stack = .kfork p (.ready q) :: rest) (next : after = rest) :
      Write stack after q (was, chan) (.runnable, chan)

theorem Write.locked {stack after : List Frame} {q : Slot} {was now : ProcState × Option Chan}
    (write : Write stack after q was now) : .proc q ∈ locksOf stack := by
  cases write with
  | dropped p rest was point next =>
      rcases point with rfl | rfl <;> simp [Frame.held, KforkPc.held]
  | _ => subst stack; simp [Frame.held, SchedPc.held, SleepPc.held, KexitPc.held,
      KwaitPc.held, KforkPc.held]

/-- A move leaves all states and channels alone, or writes those of one process. -/
def Changes (m : Mem) (stack : List Frame) (mv : Move) : Prop :=
  (∀ q, mv.mem.view q = m.view q) ∨
    ∃ q, (∀ r, r ≠ q → mv.mem.view r = m.view r) ∧
      Write stack mv.stack q (m.view q) (mv.mem.view q)

theorem Changes.of_setProc {m : Mem} {stack after : List Frame} {op : Op} (q : Slot)
    (f : Proc → Proc)
    (write : Write stack after q (m.view q) ((f (m.proc q)).state, (f (m.proc q)).chan)) :
    Changes m stack ⟨op, m.setProc q f, after⟩ := by
  refine Or.inr ⟨q, ?_, ?_⟩
  · intro r other
    rw [view_setProc, if_neg other]
  · rw [view_setProc, if_pos rfl]
    exact write

theorem Changes.of_quiet {m : Mem} {stack after : List Frame} {op : Op} (q : Slot)
    (f : Proc → Proc) (state : (f (m.proc q)).state = (m.proc q).state)
    (chan : (f (m.proc q)).chan = (m.proc q).chan) :
    Changes m stack ⟨op, m.setProc q f, after⟩ := by
  refine Or.inl ?_
  intro r
  rw [view_setProc]
  split
  · next same => subst same; rw [state, chan]; rfl
  · rfl

theorem Changes.same {m : Mem} {stack after : List Frame} {op : Op} :
    Changes m stack ⟨op, m, after⟩ := Or.inl fun _ => rfl

section Functions
variable {m : Mem} {rest : List Frame} {mv : Move}

theorem scheduler_changes {pc : SchedPc} (run : scheduler m rest pc = some mv) :
    Changes m (.scheduler pc :: rest) mv := by
  revert run
  fun_cases scheduler m rest pc
  all_goals
    intro run
    simp only [goes, Option.some.injEq, reduceCtorEq] at run
    try subst mv
  case case10 first => exact Changes.of_setProc _ _ (.dispatched _ _ _ rfl)
  all_goals exact Changes.same

theorem sleep_changes {intena : Bool} {p : Slot} {chan : Chan} {lk : Lock} {pc : SleepPc}
    (run : sleep m rest intena p chan lk pc = some mv) :
    Changes m (.sleep p chan lk pc :: rest) mv := by
  cases pc <;> simp only [sleep, Option.some.injEq, reduceCtorEq] at run <;> subst mv
  case mark => exact Changes.of_setProc _ _ (.dozed _ _ _ _ rfl rfl)
  case tidy => exact Changes.of_setProc _ _ (.tidied _ _ _ _ _ rfl)
  all_goals exact Changes.same

theorem wakeup_changes {self : Option Slot} {chan : Option Chan} {todo : List Slot}
    (run : wakeup m rest self chan todo = some mv) : Changes m (.wakeup chan todo :: rest) mv := by
  revert run
  fun_cases wakeup m rest self chan todo
  all_goals
    intro run
    cases Option.some.inj run
    exact Changes.same

theorem waking_changes {chan : Option Chan} {p : Slot} {todo : List Slot}
    (run : waking m rest chan p todo = some mv) : Changes m (.waking chan p todo :: rest) mv := by
  cases Option.some.inj run
  by_cases wakes : (m.proc p).state = .sleeping ∧ (m.proc p).chan = chan
  · simp only [wakes, and_self, if_true]
    refine Changes.of_setProc _ _ ?_
    simp only [Mem.view, wakes]
    exact .woken _ _ _ rfl
  · simp only [wakes, if_false]
    exact Changes.same

theorem killing_changes {pid : Int} {p : Slot} {todo : List Slot}
    (run : killing m rest pid p todo = some mv) : Changes m (.killing pid p todo :: rest) mv := by
  rw [killing] at run
  split at run
  all_goals cases Option.some.inj run
  · by_cases asleep : (m.proc p).state = .sleeping
    · refine Changes.of_setProc _ _ ?_
      simp only [Mem.view, asleep, if_true]
      exact .killed _ _ _ _ rfl
    · exact Changes.of_quiet _ _ (by simp [asleep]) rfl
  · exact Changes.same

theorem kexit_changes {p : Slot} {status : Int} {pc : KexitPc}
    (run : kexit m rest p status pc = some mv) : Changes m (.kexit p status pc :: rest) mv := by
  revert run
  fun_cases kexit m rest p status pc
  all_goals
    intro run
    cases Option.some.inj run
  case case3 => exact Changes.of_quiet _ _ rfl rfl
  case case7 => exact Changes.of_setProc _ _ (.died _ _ _ _ rfl rfl)
  all_goals exact Changes.same

theorem kwait_changes {choice : Choice} {p : Slot} {pc : KwaitPc}
    (run : kwait m rest choice p pc = some mv) : Changes m (.kwait p pc :: rest) mv := by
  revert run
  fun_cases kwait m rest choice p pc
  all_goals
    intro run
    simp only [goes, Option.some.injEq, reduceCtorEq] at run
    try subst mv
  case case5 pp todo zombie _ =>
    refine Changes.of_setProc _ _ ?_
    simp only [Mem.view, zombie]
    exact .reaped _ _ _ _ rfl
  all_goals exact Changes.same

theorem kfork_changes {choice : Choice} {p : Slot} {pc : KforkPc}
    (run : kfork m rest choice p pc = some mv) : Changes m (.kfork p pc :: rest) mv := by
  revert run
  fun_cases kfork m rest choice p pc
  all_goals
    intro run
    cases Option.some.inj run
  case case3 np todo unused =>
    refine Or.inr ⟨np, ?_, ?_⟩
    · intro r other
      exact (view_allocpid m np r).trans (if_neg other)
    · have before : m.view np = (.unused, (m.proc np).chan) := Prod.ext unused rfl
      have after : (allocpid m np).view np = (.used, (m.proc np).chan) :=
        (view_allocpid m np np).trans (if_pos rfl)
      rw [before, after]
      exact .taken _ _ _ _ rfl rfl
  case case5 => exact Changes.of_setProc _ _ (.dropped _ _ _ (Or.inl rfl) rfl)
  case case7 => exact Changes.of_setProc _ _ (.dropped _ _ _ (Or.inr rfl) rfl)
  case case10 => exact Changes.of_quiet _ _ rfl rfl
  case case12 => exact Changes.of_setProc _ _ (.readied _ _ _ _ rfl rfl)
  all_goals exact Changes.same

theorem body_changes {self : Slot} {locks : List Lock} {inside : List Nat} {choice : Choice}
    (run : body m rest self locks inside choice = some mv) :
    Changes m (.body locks inside :: rest) mv := by
  revert run
  fun_cases body m rest self locks inside choice
  all_goals
    intro run
    simp only [Option.some.injEq, reduceCtorEq] at run
    try subst mv
  all_goals exact Changes.same

theorem handler_changes {locks : List Lock} {choice : Choice}
    (run : handler m rest locks choice = some mv) : Changes m (.handler locks :: rest) mv := by
  revert run
  fun_cases handler m rest locks choice
  all_goals
    intro run
    simp only [Option.some.injEq, reduceCtorEq] at run
    try subst mv
  all_goals exact Changes.same

theorem acquiresleep_changes {self : Slot} {l : Nat} {pc : AcquirePc}
    (run : acquiresleep m rest self l pc = some mv) : Changes m (.acquiresleep l pc :: rest) mv := by
  revert run
  fun_cases acquiresleep m rest self l pc
  all_goals
    intro run
    simp only [Option.some.injEq, reduceCtorEq] at run
    try subst mv
  all_goals exact Or.inl fun _ => rfl

end Functions

theorem fetch_changes {cpu : Cpu} {m : Mem} {choice : Choice} {stack : List Frame} {mv : Move}
    (run : fetch cpu m choice stack = some mv) : Changes m stack mv := by
  revert run
  fun_cases fetch cpu m choice stack
  all_goals
    intro run
    try simp only [Option.bind_eq_some_iff, reduceCtorEq] at run
  case case2 => exact scheduler_changes run
  case case3 =>
    obtain ⟨self, _, run⟩ := run
    exact body_changes run
  case case4 => exact handler_changes run
  case case6 =>
    obtain ⟨self, _, run⟩ := run
    cases Option.some.inj run
    exact Changes.same
  case case7 => exact sleep_changes run
  case case8 => exact wakeup_changes run
  case case9 => exact waking_changes run
  case case10 pid todo rest =>
    cases todo <;> cases Option.some.inj run <;> exact Changes.same
  case case11 => exact killing_changes run
  case case12 q locked rest =>
    cases locked <;> cases Option.some.inj run
    · exact Changes.same
    · exact Changes.of_quiet _ _ rfl rfl
  case case13 q locked rest =>
    obtain ⟨self, _, run⟩ := run
    cases locked <;> cases Option.some.inj run <;> exact Or.inl fun _ => rfl
  case case14 => exact kexit_changes run
  case case15 => exact kwait_changes run
  case case16 => exact kfork_changes run
  case case17 =>
    obtain ⟨self, _, run⟩ := run
    exact acquiresleep_changes run
  case case18 l pc rest =>
    cases pc <;> cases Option.some.inj run <;> exact Or.inl fun _ => rfl
  case case19 l locked rest =>
    obtain ⟨self, _, run⟩ := run
    cases locked <;> cases Option.some.inj run <;> exact Or.inl fun _ => rfl

/-! ## Where the other operations come from -/

/-- The program points of the operations that are neither plain nor a release. -/
def Op.Comes (m : Mem) (stack : List Frame) (m' : Mem) (after : List Frame) : Op → Prop
  | .plain | .release _ | .intena _ => True
  | .acquire _ => m' = m
  | .panic why => m' = m ∧ (why = .initExiting ∨ why = .zombieExit)
  | .intr _ => m' = m ∧ ((∃ inside rest, stack = .body [] inside :: rest) ∨
      (∃ rest, stack = .handler [] :: rest) ∨
      ∃ pc rest, stack = .scheduler pc :: rest ∧ (pc = .top ∨ pc = .window))
  | .swtch p => m' = m ∧ ∃ rest, stack = .scheduler (.swtching p) :: rest ∧
      after = .scheduler (.away p) :: rest
  | .setproc (some p) => m' = m ∧ ∃ rest, stack = .scheduler (.running p) :: rest ∧
      after = .scheduler (.swtching p) :: rest
  | .setproc none => m' = m ∧ ∃ p rest, stack = .scheduler (.back p) :: rest ∧
      after = .scheduler (.done p) :: rest
  | .sched => m' = m ∧
      ((∃ p chan lk was rest, stack = .sleep p chan lk .sched :: rest ∧
        after = .sleep p chan lk (.asleep was) :: rest) ∨
      ∃ p status rest, stack = .kexit p status .sched :: rest ∧
        after = .kexit p status .gone :: rest)
  | .context np => m' = m ∧ ∃ p rest, stack = .kfork p (.found np) :: rest ∧
      after = .kfork p (.copy np) :: rest

theorem scheduler_comes {m : Mem} {rest : List Frame} {mv : Move} {pc : SchedPc}
    (run : scheduler m rest pc = some mv) :
    mv.op.Comes m (.scheduler pc :: rest) mv.mem mv.stack := by
  revert run
  fun_cases scheduler m rest pc
  all_goals
    intro run
    simp only [goes, Option.some.injEq, reduceCtorEq] at run
    try subst mv
  all_goals simp [Op.Comes]

theorem fetch_comes {cpu : Cpu} {m : Mem} {choice : Choice} {stack : List Frame} {mv : Move}
    (run : fetch cpu m choice stack = some mv) : mv.op.Comes m stack mv.mem mv.stack := by
  revert run
  fun_cases fetch cpu m choice stack
  all_goals
    intro run
    try simp only [Option.bind_eq_some_iff, reduceCtorEq] at run
  case case2 => exact scheduler_comes run
  case case3 =>
    obtain ⟨self, _, run⟩ := run
    revert run
    fun_cases body
    all_goals
      intro run
      simp only [Option.some.injEq, reduceCtorEq] at run
      try subst mv
    all_goals simp_all [Op.Comes]
  case case4 =>
    revert run
    fun_cases handler
    all_goals
      intro run
      simp only [Option.some.injEq, reduceCtorEq] at run
      try subst mv
    all_goals simp_all [Op.Comes]
  case case6 =>
    obtain ⟨self, _, run⟩ := run
    cases Option.some.inj run
    trivial
  case case7 p chan lk pc rest =>
    cases pc <;> simp only [sleep, Option.some.injEq, reduceCtorEq] at run <;> subst mv <;>
      simp [Op.Comes]
  case case8 =>
    revert run
    fun_cases wakeup
    all_goals
      intro run
      cases Option.some.inj run
      simp [Op.Comes]
  case case9 => cases Option.some.inj run; trivial
  case case10 pid todo rest => cases todo <;> cases Option.some.inj run <;> simp [Op.Comes]
  case case11 =>
    rw [killing] at run
    split at run <;> cases Option.some.inj run <;> trivial
  case case12 q locked rest => cases locked <;> cases Option.some.inj run <;> simp [Op.Comes]
  case case13 q locked rest =>
    obtain ⟨self, _, run⟩ := run
    cases locked <;> cases Option.some.inj run <;> simp [Op.Comes]
  case case14 =>
    revert run
    fun_cases kexit
    all_goals
      intro run
      cases Option.some.inj run
      simp [Op.Comes]
  case case15 =>
    revert run
    fun_cases kwait
    all_goals
      intro run
      simp only [goes, Option.some.injEq, reduceCtorEq] at run
      try subst mv
    all_goals simp [Op.Comes]
  case case16 =>
    revert run
    fun_cases kfork
    all_goals
      intro run
      cases Option.some.inj run
      simp [Op.Comes]
  case case17 =>
    obtain ⟨self, _, run⟩ := run
    revert run
    fun_cases acquiresleep
    all_goals
      intro run
      simp only [Option.some.injEq, reduceCtorEq] at run
      try subst mv
    all_goals simp [Op.Comes]
  case case18 l pc rest => cases pc <;> cases Option.some.inj run <;> simp [Op.Comes]
  case case19 l locked rest =>
    obtain ⟨self, _, run⟩ := run
    cases locked <;> cases Option.some.inj run <;> simp [Op.Comes]

end Xv6Fcfs.Sched
