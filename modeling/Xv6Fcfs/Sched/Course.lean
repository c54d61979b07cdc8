import Xv6Fcfs.Sched.Dispatch

/-!
# Moves that matter to sleepers and wakers

Most moves neither touch a sleep lock nor a frame of `sleep` or `wakeup`.  `Course` lists the
others once; the arguments about lost wakeups go through this list.
-/

set_option autoImplicit false

namespace Xv6Fcfs.Sched

open Xv6Fcfs.Lib
open Xv6Fcfs.Process (Slot ProcState)

def Frame.inside : Frame → List Nat
  | .body _ inside => inside
  | _ => []

/-- The sleep locks the process is between `acquiresleep` and `releasesleep` of. -/
def insideOf (stack : List Frame) : List Nat := stack.flatMap Frame.inside

def Frame.leaving : Frame → List Nat
  | .releasesleep l .leave => [l]
  | _ => []

/-- The sleep locks the process has just set free in `releasesleep`. -/
def leavingOf (stack : List Frame) : List Nat := stack.flatMap Frame.leaving

@[simp] theorem insideOf_cons (frame : Frame) (rest : List Frame) :
    insideOf (frame :: rest) = frame.inside ++ insideOf rest := by
  simp [insideOf]

@[simp] theorem leavingOf_cons (frame : Frame) (rest : List Frame) :
    leavingOf (frame :: rest) = frame.leaving ++ leavingOf rest := by
  simp [leavingOf]

/-- The thread is neither in `sleep` nor in `wakeup`. -/
def Elsewhere : List Frame → Prop
  | .sleep _ _ _ _ :: _ | .wakeup _ _ :: _ | .waking _ _ _ :: _ => False
  | _ => True

/-- The points of `sleep` in their order. -/
inductive SleepPc.Next : SleepPc → SleepPc → Prop where
  | unlock : SleepPc.Next .enter .unlock
  | mark : SleepPc.Next .unlock .mark
  | sched : SleepPc.Next .mark .sched
  | asleep (was : Bool) : SleepPc.Next .sched (.asleep was)
  | tidy (was : Bool) : SleepPc.Next (.woken was) .tidy
  | reacquire : SleepPc.Next .tidy .reacquire

inductive Course (cpu : Cpu) (m : Mem) (stack : List Frame) (mv : Move) : Prop where
  | dull (top : Elsewhere mv.stack ∨ locksOf mv.stack = [])
      (inside : insideOf mv.stack = insideOf stack) (leaving : leavingOf mv.stack = leavingOf stack)
      (same : mv.mem.sleeplock = m.sleeplock)
  | sleeps (p : Slot) (chan : Chan) (lk : Lock) (pc next : SleepPc) (rest : List Frame)
      (point : stack = .sleep p chan lk pc :: rest) (after : mv.stack = .sleep p chan lk next :: rest)
      (order : SleepPc.Next pc next) (same : mv.mem.sleeplock = m.sleeplock)
  | falls (p : Slot) (chan : Chan) (lk : Lock) (rest : List Frame)
      (after : mv.stack = .sleep p chan lk .enter :: rest)
      (busy : ∀ l, chan = .sleeplock l → (m.sleeplock l).locked = true)
      (inside : insideOf mv.stack = insideOf stack) (leaving : leavingOf mv.stack = leavingOf stack)
      (same : mv.mem = m)
  | calls (chan : Option Chan) (rest : List Frame) (after : mv.stack = .wakeup chan table :: rest)
      (inside : insideOf mv.stack = insideOf stack) (leaving : leavingOf mv.stack = leavingOf stack)
      (same : mv.mem.sleeplock = m.sleeplock)
  | skips (chan : Option Chan) (p : Slot) (todo : List Slot) (rest : List Frame)
      (point : stack = .wakeup chan (p :: todo) :: rest) (after : mv.stack = .wakeup chan todo :: rest)
      (self : cpu.proc = some p) (same : mv.mem = m)
  | locks (chan : Option Chan) (p : Slot) (todo : List Slot) (rest : List Frame)
      (point : stack = .wakeup chan (p :: todo) :: rest)
      (after : mv.stack = .waking chan p todo :: rest) (same : mv.mem = m)
  | wakes (chan : Option Chan) (p : Slot) (todo : List Slot) (rest : List Frame)
      (point : stack = .waking chan p todo :: rest) (after : mv.stack = .wakeup chan todo :: rest)
      (woken : mv.mem.view p ≠ (.sleeping, chan)) (same : mv.mem.sleeplock = m.sleeplock)
  | returns (chan : Option Chan) (point : stack = .wakeup chan [] :: mv.stack)
      (top : Elsewhere mv.stack) (same : mv.mem = m)
  | takes (l : Nat) (locks : List Lock) (inside : List Nat)
      (point : stack = [.acquiresleep l .test, .body locks inside])
      (free : (m.sleeplock l).locked = false) (after : mv.stack = [.body locks (l :: inside)])
      (now : ∀ k, (mv.mem.sleeplock k).locked = if k = l then true else (m.sleeplock k).locked)
  | clears (l : Nat) (rest : List Frame) (point : stack = .releasesleep l .clear :: rest)
      (after : mv.stack = .wakeup (some (.sleeplock l)) table :: .releasesleep l .leave :: rest)
      (now : ∀ k, (mv.mem.sleeplock k).locked = if k = l then false else (m.sleeplock k).locked)
  | leaves (l : Nat) (locks : List Lock) (inside : List Nat)
      (point : stack = [.releasesleep l .leave, .body locks inside])
      (after : mv.stack = [.body locks (inside.filter (· ≠ l))]) (same : mv.mem = m)

section Functions
variable {cpu : Cpu} {m : Mem} {me : Option Slot} {rest : List Frame} {mv : Move}

theorem sleep_course {p : Slot} {chan : Chan} {lk : Lock} {pc : SleepPc}
    (fit : Fit me (.sleep p chan lk pc :: rest))
    (run : sleep m rest cpu.intena p chan lk pc = some mv) :
    Course cpu m (.sleep p chan lk pc :: rest) mv := by
  obtain ⟨⟨_, _, caller, _⟩, _⟩ := fit
  cases pc <;> simp only [sleep, Option.some.injEq, reduceCtorEq] at run <;> subst mv
  case enter => exact .sleeps p chan lk _ _ rest rfl rfl .unlock rfl
  case unlock => exact .sleeps p chan lk _ _ rest rfl rfl .mark rfl
  case mark => exact .sleeps p chan lk _ _ rest rfl rfl .sched rfl
  case sched => exact .sleeps p chan lk _ _ rest rfl rfl (.asleep _) rfl
  case woken => exact .sleeps p chan lk _ _ rest rfl rfl (.tidy _) rfl
  case tidy => exact .sleeps p chan lk _ _ rest rfl rfl .reacquire rfl
  case reacquire =>
    rcases caller.cases with
      ⟨_, _, _, _, rfl, _, _⟩ | ⟨_, rfl, rfl, _⟩ | ⟨_, _, rfl, rfl, _⟩ <;>
      exact .dull (Or.inl trivial) rfl rfl rfl

theorem Wakes.elsewhere {chan : Option Chan} (wakes : Wakes chan rest) : Elsewhere rest := by
  unfold Wakes at wakes
  split at wakes <;> first | exact wakes.elim | trivial

theorem wakeup_course {chan : Option Chan} {todo : List Slot}
    (fit : Fit me (.wakeup chan todo :: rest))
    (run : wakeup m rest cpu.proc chan todo = some mv) :
    Course cpu m (.wakeup chan todo :: rest) mv := by
  revert run
  fun_cases wakeup m rest cpu.proc chan todo
  all_goals
    intro run
    cases Option.some.inj run
  case case1 => exact .returns chan rfl fit.1.2.elsewhere rfl
  case case2 p todo self => exact .skips chan p todo rest rfl rfl self.symm rfl
  case case3 p todo other => exact .locks chan p todo rest rfl rfl rfl

theorem waking_course {chan : Option Chan} {p : Slot} {todo : List Slot}
    (run : waking m rest chan p todo = some mv) : Course cpu m (.waking chan p todo :: rest) mv := by
  cases Option.some.inj run
  refine .wakes chan p todo rest rfl rfl ?_ ?_
  · by_cases wakes : (m.proc p).state = .sleeping ∧ (m.proc p).chan = chan
    · simp [wakes, view_setProc]
    · simp only [wakes, if_false, Mem.view, ne_eq, Prod.mk.injEq, not_false_eq_true]
  · by_cases wakes : (m.proc p).state = .sleeping ∧ (m.proc p).chan = chan
    · simp [wakes, Mem.setProc]
    · simp [wakes]

theorem kexit_course {p : Slot} {status : Int} {pc : KexitPc}
    (run : kexit m rest p status pc = some mv) :
    Course cpu m (.kexit p status pc :: rest) mv := by
  revert run
  fun_cases kexit m rest p status pc
  all_goals
    intro run
    cases Option.some.inj run
  case case3 => exact .calls _ _ rfl rfl rfl rfl
  case case5 => exact .calls _ _ rfl rfl rfl rfl
  all_goals exact .dull (Or.inl trivial) rfl rfl rfl

theorem kwait_course {choice : Choice} {p : Slot} {pc : KwaitPc}
    (fit : Fit me (.kwait p pc :: rest)) (run : kwait m rest choice p pc = some mv) :
    Course cpu m (.kwait p pc :: rest) mv := by
  obtain ⟨⟨_, inside, rfl⟩, _⟩ := fit
  revert run
  fun_cases kwait m [.body [] inside] choice p pc
  all_goals
    intro run
    simp only [goes, Option.some.injEq, reduceCtorEq] at run
    try subst mv
  case case10 => exact .falls _ _ _ _ rfl (by rintro _ ⟨⟩) rfl rfl rfl
  all_goals exact .dull (Or.inl trivial) rfl rfl rfl

theorem kfork_course {choice : Choice} {p : Slot} {pc : KforkPc}
    (fit : Fit me (.kfork p pc :: rest)) (run : kfork m rest choice p pc = some mv) :
    Course cpu m (.kfork p pc :: rest) mv := by
  obtain ⟨⟨_, inside, rfl⟩, _⟩ := fit
  revert run
  fun_cases kfork m [.body [] inside] choice p pc
  all_goals
    intro run
    cases Option.some.inj run
    exact .dull (Or.inl trivial) rfl rfl rfl

theorem acquiresleep_course {self : Slot} {l : Nat} {pc : AcquirePc}
    (fit : Fit me (.acquiresleep l pc :: rest)) (run : acquiresleep m rest self l pc = some mv) :
    Course cpu m (.acquiresleep l pc :: rest) mv := by
  obtain ⟨⟨locks, inside, rfl⟩, _⟩ := fit
  revert run
  fun_cases acquiresleep m [.body locks inside] self l pc
  all_goals
    intro run
    simp only [Option.some.injEq, reduceCtorEq] at run
    try subst mv
  case case2 busy =>
    refine .falls _ _ _ _ rfl ?_ rfl rfl rfl
    intro k same
    cases same
    exact busy
  case case3 free =>
    refine .takes l locks inside rfl (by simpa using free) rfl ?_
    intro k
    by_cases here : k = l
    · subst here
      simp [Mem.setSleeplock]
    · simp [Mem.setSleeplock, here]
  all_goals exact .dull (Or.inl trivial) rfl rfl rfl

theorem releasesleep_course {l : Nat} {pc : ReleasePc}
    (fit : Fit me (.releasesleep l pc :: rest)) (run : releasesleep m rest l pc = some mv) :
    Course cpu m (.releasesleep l pc :: rest) mv := by
  obtain ⟨⟨locks, inside, rfl, _⟩, _⟩ := fit
  cases pc
  all_goals cases Option.some.inj run
  case enter => exact .dull (Or.inl trivial) rfl rfl rfl
  case clear =>
    refine .clears l _ rfl rfl ?_
    intro k
    by_cases here : k = l
    · subst here
      simp [Mem.setSleeplock]
    · simp [Mem.setSleeplock, here]
  case leave => exact .leaves l locks inside rfl rfl rfl

theorem body_course {self : Slot} {locks : List Lock} {inside : List Nat} {choice : Choice}
    (run : body m rest self locks inside choice = some mv) :
    Course cpu m (.body locks inside :: rest) mv := by
  revert run
  fun_cases body m rest self locks inside choice
  all_goals
    intro run
    simp only [Option.some.injEq, reduceCtorEq] at run
    try subst mv
  case case4 => exact .falls _ _ _ _ rfl (by rintro _ ⟨⟩) rfl rfl rfl
  case case6 => exact .calls _ _ rfl rfl rfl rfl
  all_goals exact .dull (Or.inl trivial) rfl rfl rfl

theorem handler_course {locks : List Lock} {choice : Choice}
    (fit : Fit me (.handler locks :: rest)) (run : handler m rest locks choice = some mv) :
    Course cpu m (.handler locks :: rest) mv := by
  revert run
  fun_cases handler m rest locks choice
  all_goals
    intro run
    simp only [Option.some.injEq, reduceCtorEq] at run
    try subst mv
  case case4 => exact .calls _ _ rfl rfl rfl rfl
  case case5 => exact .dull (Or.inr fit.1.1.1) rfl rfl rfl
  all_goals exact .dull (Or.inl trivial) rfl rfl rfl

theorem Asks.elsewhere (asks : Asks rest) : Elsewhere rest := by
  unfold Asks at asks
  split at asks
  · trivial
  · trivial
  · exact asks.elim

end Functions

theorem fetch_course {cpu : Cpu} {m : Mem} {choice : Choice} {me : Option Slot}
    {stack : List Frame} {mv : Move} (fit : Fit me stack)
    (run : fetch cpu m choice stack = some mv) : Course cpu m stack mv := by
  revert run
  fun_cases fetch cpu m choice stack
  all_goals
    intro run
    try simp only [Option.bind_eq_some_iff, reduceCtorEq] at run
  case case2 =>
    revert run
    fun_cases scheduler
    all_goals
      intro run
      simp only [goes, Option.some.injEq, reduceCtorEq] at run
      try subst mv
    all_goals exact .dull (Or.inl trivial) rfl rfl rfl
  case case3 =>
    obtain ⟨self, _, run⟩ := run
    exact body_course run
  case case4 => exact handler_course fit run
  case case6 =>
    obtain ⟨self, _, run⟩ := run
    cases Option.some.inj run
    exact .dull (Or.inl trivial) rfl rfl rfl
  case case7 => exact sleep_course fit run
  case case8 => exact wakeup_course fit run
  case case9 => exact waking_course run
  case case10 pid todo rest =>
    obtain ⟨⟨inside, rfl⟩, _⟩ := fit
    cases todo <;> cases Option.some.inj run <;> exact .dull (Or.inl trivial) rfl rfl rfl
  case case11 =>
    obtain ⟨⟨inside, rfl⟩, _⟩ := fit
    rw [killing] at run
    split at run <;> cases Option.some.inj run <;> exact .dull (Or.inl trivial) rfl rfl rfl
  case case12 q locked rest =>
    cases locked <;> cases Option.some.inj run
    · exact .dull (Or.inl trivial) rfl rfl rfl
    · exact .dull (Or.inl fit.1.2.elsewhere) rfl rfl rfl
  case case13 q locked rest =>
    obtain ⟨self, _, run⟩ := run
    cases locked <;> cases Option.some.inj run
    · exact .dull (Or.inl trivial) rfl rfl rfl
    · exact .dull (Or.inl fit.1.2.elsewhere) rfl rfl rfl
  case case14 => exact kexit_course run
  case case15 => exact kwait_course fit run
  case case16 => exact kfork_course fit run
  case case17 =>
    obtain ⟨self, _, run⟩ := run
    exact acquiresleep_course fit run
  case case18 => exact releasesleep_course fit run
  case case19 l locked rest =>
    obtain ⟨self, _, run⟩ := run
    obtain ⟨⟨locks, inside, rfl⟩, _⟩ := fit
    cases locked <;> cases Option.some.inj run <;> exact .dull (Or.inl trivial) rfl rfl rfl

end Xv6Fcfs.Sched
