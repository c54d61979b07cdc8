import Xv6Fcfs.Sched.Model
import Xv6Fcfs.Lib.Locks

/-!
# Which locks a stack holds

The program points say which locks each call holds, so the locks of a thread can be
read off its stack.  A move of a well-formed stack acquires a lock that is then
among them, releases one that was, or leaves them as they are; and a lock of the
process table is only wanted by a stack whose own ones rank below it.
-/

set_option autoImplicit false

namespace Xv6Fcfs.Sched

open Xv6Fcfs.Lib
open Xv6Fcfs.Process (Slot ProcState)

def SchedPc.held : SchedPc → List Lock
  | .top | .window | .away _ => []
  | .scan _ first => first.toList.map .proc
  | .look p _ first => .proc p :: first.toList.map .proc
  | .chosen first | .running first | .swtching first | .back first | .done first => [.proc first]

def SleepPc.held (p : Slot) (lk : Lock) : SleepPc → List Lock
  | .enter => [lk]
  | .unlock => [.proc p, lk]
  | .mark | .sched | .woken _ | .tidy => [.proc p]
  | .asleep _ | .reacquire => []

def KexitPc.held (p : Slot) : KexitPc → List Lock
  | .enter | .gone => []
  | .reparent _ | .lock => [.wait]
  | .mark => [.proc p, .wait]
  | .sched => [.proc p]

def KwaitPc.held : KwaitPc → List Lock
  | .enter | .slept => []
  | .scan _ _ | .judge | .leave => [.wait]
  | .look pp _ => [.proc pp, .wait]

def KforkPc.held : KforkPc → List Lock
  | .scan _ | .link _ | .start _ => []
  | .look np _ | .found np | .copy np | .ready np => [.proc np]
  | .parent _ => [.wait]

def Frame.held : Frame → List Lock
  | .scheduler pc => pc.held
  | .body locks _ => locks
  | .handler locks => locks
  | .forkret k resumed => if resumed then [.proc k] else []
  | .sleep p _ lk pc => pc.held p lk
  | .wakeup _ _ => []
  | .waking _ p _ => [.proc p]
  | .kkill _ _ => []
  | .killing _ p _ => [.proc p]
  | .setkilled q locked => if locked then [.proc q] else []
  | .killed q locked => if locked then [.proc q] else []
  | .kexit p _ pc => pc.held p
  | .kwait _ pc => pc.held
  | .kfork _ pc => pc.held
  | .acquiresleep l .test => [.inner l]
  | .acquiresleep _ _ => []
  | .releasesleep _ .enter => []
  | .releasesleep l _ => [.inner l]
  | .holdingsleep l locked => if locked then [.inner l] else []

def locksOf (stack : List Frame) : List Lock := stack.flatMap Frame.held

@[simp] theorem locksOf_nil : locksOf [] = [] := rfl

@[simp] theorem locksOf_cons (frame : Frame) (rest : List Frame) :
    locksOf (frame :: rest) = frame.held ++ locksOf rest := by
  simp [locksOf]

/-! ## Well-formed stacks -/

def Lock.isProc : Lock → Bool
  | .proc _ => true
  | _ => false

def Lock.isCond : Lock → Bool
  | .cond _ => true
  | _ => false

def NoProc (locks : List Lock) : Prop := ∀ l ∈ locks, l.isProc = false

/-- The loop of `scheduler` goes upwards, past its candidate. -/
def Climbs (first : Option Slot) (todo : List Slot) : Prop :=
  todo.Pairwise (· < ·) ∧ ∀ f ∈ first, ∀ p ∈ todo, f < p

/-- The frames `sleep` is called from, and what it is called with. -/
def Sleeps (p : Slot) (chan : Chan) (lk : Lock) : List Frame → Prop
  | .body _ _ :: _ => lk.isCond ∧ ∃ addr, chan = .other addr
  | .kwait q .slept :: _ => q = p ∧ lk = .wait ∧ chan = .proc p
  | .acquiresleep l .slept :: _ => lk = .inner l ∧ chan = .sleeplock l
  | _ => False

/-- The frames `wakeup` is called from, and what it is called with. -/
def Wakes (chan : Option Chan) : List Frame → Prop
  | .body _ _ :: _ | .handler _ :: _ => ∃ addr, chan = some (.other addr)
  | .kexit _ _ (.reparent _) :: _ | .kexit _ _ .lock :: _ => ∀ l, chan ≠ some (.sleeplock l)
  | .releasesleep l .leave :: _ => chan = some (.sleeplock l)
  | _ => False

/-- The frames `killed` and `setkilled` are called from. -/
def Asks : List Frame → Prop
  | .body _ _ :: _ | .kwait _ .judge :: _ => True
  | _ => False

/-- The points of the scheduler between two dispatches at which it holds no lock. -/
def SchedPc.Idle : SchedPc → Prop
  | .top | .window | .scan _ none => True
  | _ => False

/-- `sleep` has been resumed; the checks of `sched` let nobody through with a second lock. -/
def SleepPc.Woken : SleepPc → Prop
  | .woken _ | .tidy | .reacquire => True
  | _ => False

/-- What each frame needs of the frames below it; `me` is the process whose kernel stack
this is, or `none` for the stack of a scheduler. -/
def Frame.Fits (me : Option Slot) (rest : List Frame) : Frame → Prop
  | .scheduler (.scan todo first) => me = none ∧ rest = [] ∧ Climbs first todo
  | .scheduler (.look p todo first) => me = none ∧ rest = [] ∧ Climbs first (p :: todo)
  | .scheduler _ => me = none ∧ rest = []
  | .body locks _ => me.isSome ∧ rest = [] ∧ ∀ l ∈ locks, l.isCond
  | .handler locks =>
      (locksOf rest = [] ∧ ∀ pc below, rest = .scheduler pc :: below → pc.Idle) ∧
        ∀ l ∈ locks, l.isCond
  | .forkret k _ => me = some k ∧ rest = []
  | .sleep p chan lk pc =>
      me = some p ∧ NoProc (locksOf rest) ∧ Sleeps p chan lk rest ∧ (pc.Woken → locksOf rest = [])
  | .wakeup chan _ | .waking chan _ _ => NoProc (locksOf rest) ∧ Wakes chan rest
  | .setkilled _ _ | .killed _ _ => NoProc (locksOf rest) ∧ Asks rest
  | .kkill _ _ | .killing _ _ _ => ∃ inside, rest = [.body [] inside]
  | .kexit p _ _ | .kwait p _ | .kfork p _ =>
      me = some p ∧ ∃ inside, rest = [.body [] inside]
  | .acquiresleep _ _ | .holdingsleep _ _ => ∃ locks inside, rest = [.body locks inside]
  | .releasesleep l _ => ∃ locks inside, rest = [.body locks inside] ∧ l ∈ inside

def Fit (me : Option Slot) : List Frame → Prop
  | [] => True
  | frame :: rest => frame.Fits me rest ∧ Fit me rest

theorem NoProc.of_cond {locks : List Lock} (conds : ∀ l ∈ locks, l.isCond) : NoProc locks := by
  intro l inside
  have := conds l inside
  cases l <;> simp_all [Lock.isCond, Lock.isProc]

theorem noProc_nil : NoProc [] := by
  intro l inside
  cases inside

/-! ## The order of `wait_lock` and the process locks -/

/-- `wait_lock` and the locks of the process table. -/
def Lock.Table : Lock → Prop
  | .wait | .proc _ => True
  | _ => False

/-- `wait_lock` comes first, the process locks follow in the order of the table. -/
def Lock.rank : Lock → Nat
  | .proc p => p.val + 1
  | _ => 0

theorem NoProc.below {locks : List Lock} (none : NoProc locks) (p : Slot) :
    ∀ k ∈ locks, k.rank < (Lock.proc p).rank := by
  intro k inside
  have := none k inside
  cases k <;> simp_all [Lock.isProc, Lock.rank]

/-! ## What a move does to the locks of its stack -/

/-- The locks before and after an operation.  A context switch hands its lock to the other
side. -/
def Op.Books (before after : List Lock) : Op → Prop
  | .acquire l => after.Perm (l :: before)
  | .release l => before.Perm (l :: after)
  | .swtch p => before = [.proc p] ∧ after = []
  | .sched => ∃ p, before = .proc p :: after
  | .panic _ => True
  | _ => after.Perm before

structure Legal (me : Option Slot) (stack : List Frame) (mv : Move) : Prop where
  books : mv.op.Books (locksOf stack) (locksOf mv.stack)
  fit : Fit me mv.stack
  order : ∀ l, mv.op = .acquire l → l.Table →
    ∀ k ∈ locksOf stack, k.Table → k.rank < l.rank

/-! ## Each function keeps its stack legal -/

theorem table_sorted : table.Pairwise (· < ·) := List.pairwise_lt_finRange NPROC

theorem order_proc {locks : List Lock} (free : NoProc locks) (p : Slot) :
    ∀ l, Op.acquire (.proc p) = .acquire l → l.Table →
      ∀ k ∈ locks, k.Table → k.rank < l.rank := by
  intro l same _ k inside _
  cases same
  exact free.below p k inside

theorem order_other {locks : List Lock} {lk : Lock} (other : ¬ lk.Table) :
    ∀ l, Op.acquire lk = .acquire l → l.Table → ∀ k ∈ locks, k.Table → k.rank < l.rank := by
  intro l same inside
  cases same
  exact absurd inside other

section Functions
variable {m : Mem} {me : Option Slot} {rest : List Frame} {mv : Move}

theorem scheduler_legal {pc : SchedPc} (fit : Fit me (.scheduler pc :: rest))
    (run : scheduler m rest pc = some mv) : Legal me (.scheduler pc :: rest) mv := by
  obtain ⟨fits, _⟩ := fit
  revert run
  fun_cases scheduler m rest pc
  all_goals
    intro run
    simp only [goes, Option.some.injEq, reduceCtorEq] at run
    try subst mv
  all_goals
    simp only [Frame.Fits] at fits
    refine ⟨?_, ?_, ?_⟩
  all_goals
    simp_all [Op.Books, Fit, Frame.Fits, Frame.held, SchedPc.held, Climbs, Lock.rank, table_sorted]
  -- a smaller pid: the new candidate is kept and the old one released
  exact List.Perm.swap _ _ _

theorem Sleeps.cases {p : Slot} {chan : Chan} {lk : Lock} (caller : Sleeps p chan lk rest) :
    (∃ locks inside below addr, rest = .body locks inside :: below ∧ lk.isCond ∧
      chan = .other addr) ∨
    (∃ below, rest = .kwait p .slept :: below ∧ lk = .wait ∧ chan = .proc p) ∨
    ∃ l below, rest = .acquiresleep l .slept :: below ∧ lk = .inner l ∧ chan = .sleeplock l := by
  unfold Sleeps at caller
  split at caller
  · obtain ⟨cond, addr, other⟩ := caller
    exact Or.inl ⟨_, _, _, addr, rfl, cond, other⟩
  · obtain ⟨rfl, rfl, other⟩ := caller
    exact Or.inr (Or.inl ⟨_, rfl, rfl, other⟩)
  · obtain ⟨rfl, other⟩ := caller
    exact Or.inr (Or.inr ⟨_, _, rfl, rfl, other⟩)
  · exact caller.elim

theorem Sleeps.not_table {p : Slot} {chan : Chan} {lk : Lock} (caller : Sleeps p chan lk rest)
    (below : Fit me rest) : lk.isProc = false ∧ (lk.Table → locksOf rest = []) := by
  rcases caller.cases with
    ⟨_, _, _, _, rfl, cond, _⟩ | ⟨_, rfl, rfl, _⟩ | ⟨_, _, rfl, rfl, _⟩
  · cases lk <;> simp_all [Lock.isCond, Lock.isProc, Lock.Table]
  · obtain ⟨⟨_, inside, rfl⟩, _⟩ := below
    exact ⟨rfl, fun _ => rfl⟩
  · exact ⟨rfl, False.elim⟩

theorem regain_locks {p : Slot} {chan : Chan} {lk : Lock} (caller : Sleeps p chan lk rest) :
    (locksOf (regain lk rest)).Perm (lk :: locksOf rest) := by
  rcases caller.cases with
    ⟨_, _, _, _, rfl, _, _⟩ | ⟨_, rfl, rfl, _⟩ | ⟨_, _, rfl, rfl, _⟩ <;>
    exact List.Perm.refl _

theorem regain_fit {p : Slot} {chan : Chan} {lk : Lock} (caller : Sleeps p chan lk rest)
    (below : Fit me rest) : Fit me (regain lk rest) := by
  rcases caller.cases with
    ⟨_, _, _, _, rfl, cond, _⟩ | ⟨_, rfl, rfl, _⟩ | ⟨_, _, rfl, rfl, _⟩
  · obtain ⟨⟨own, base, conds⟩, fit⟩ := below
    exact ⟨⟨own, base, List.forall_mem_cons.mpr ⟨cond, conds⟩⟩, fit⟩
  · exact below
  · exact below

theorem sleep_legal {intena : Bool} {p : Slot} {chan : Chan} {lk : Lock} {pc : SleepPc}
    (fit : Fit me (.sleep p chan lk pc :: rest))
    (run : sleep m rest intena p chan lk pc = some mv) :
    Legal me (.sleep p chan lk pc :: rest) mv := by
  obtain ⟨fits, below⟩ := fit
  obtain ⟨own, free, caller, woken⟩ := fits
  obtain ⟨other, alone⟩ := caller.not_table below
  have kept : ∀ next : SleepPc, (next.Woken → pc.Woken) → Fit me (.sleep p chan lk next :: rest) :=
    fun _ later => ⟨⟨own, free, caller, woken ∘ later⟩, below⟩
  cases pc <;> simp only [sleep, Option.some.injEq, reduceCtorEq] at run <;> subst mv
  case enter =>
    have mine : NoProc (lk :: locksOf rest) := List.forall_mem_cons.mpr ⟨other, free⟩
    exact ⟨List.Perm.refl _, kept _ id, order_proc mine p⟩
  case unlock => exact ⟨List.Perm.swap _ _ _, kept _ id, by rintro _ ⟨⟩⟩
  case mark => exact ⟨List.Perm.refl _, kept _ id, by rintro _ ⟨⟩⟩
  case sched => exact ⟨⟨p, rfl⟩, kept _ id, by rintro _ ⟨⟩⟩
  case woken => exact ⟨List.Perm.refl _, kept _ id, by rintro _ ⟨⟩⟩
  case tidy => exact ⟨List.Perm.refl _, kept _ id, by rintro _ ⟨⟩⟩
  case reacquire =>
    refine ⟨regain_locks caller, regain_fit caller below, ?_⟩
    intro l same inside k holds
    cases same
    have : k ∈ locksOf rest := holds
    rw [alone inside] at this
    cases this

theorem wakeup_legal {self : Option Slot} {chan : Option Chan} {todo : List Slot}
    (fit : Fit me (.wakeup chan todo :: rest)) (run : wakeup m rest self chan todo = some mv) :
    Legal me (.wakeup chan todo :: rest) mv := by
  obtain ⟨fits, below⟩ := fit
  revert run
  fun_cases wakeup m rest self chan todo
  all_goals
    intro run
    cases Option.some.inj run
  · exact ⟨List.Perm.refl _, below, by rintro _ ⟨⟩⟩
  · exact ⟨List.Perm.refl _, ⟨fits, below⟩, by rintro _ ⟨⟩⟩
  · exact ⟨List.Perm.refl _, ⟨fits, below⟩, order_proc fits.1 _⟩

theorem waking_legal {chan : Option Chan} {p : Slot} {todo : List Slot}
    (fit : Fit me (.waking chan p todo :: rest)) (run : waking m rest chan p todo = some mv) :
    Legal me (.waking chan p todo :: rest) mv := by
  cases Option.some.inj run
  exact ⟨List.Perm.refl _, fit, by rintro _ ⟨⟩⟩

theorem kkill_legal {pid : Int} {todo : List Slot} (fit : Fit me (.kkill pid todo :: rest))
    (run : kkill m rest pid todo = some mv) : Legal me (.kkill pid todo :: rest) mv := by
  obtain ⟨⟨inside, rfl⟩, below⟩ := fit
  cases todo with
  | nil =>
      cases Option.some.inj run
      exact ⟨List.Perm.refl _, below, by rintro _ ⟨⟩⟩
  | cons p todo =>
      cases Option.some.inj run
      exact ⟨List.Perm.refl _, ⟨⟨inside, rfl⟩, below⟩, order_proc noProc_nil p⟩

theorem killing_legal {pid : Int} {p : Slot} {todo : List Slot}
    (fit : Fit me (.killing pid p todo :: rest)) (run : killing m rest pid p todo = some mv) :
    Legal me (.killing pid p todo :: rest) mv := by
  rw [killing] at run
  split at run
  all_goals cases Option.some.inj run
  · exact ⟨List.Perm.refl _, fit.2, by rintro _ ⟨⟩⟩
  · exact ⟨List.Perm.refl _, fit, by rintro _ ⟨⟩⟩

theorem setkilled_legal {q : Slot} {locked : Bool} (fit : Fit me (.setkilled q locked :: rest))
    (run : setkilled m rest q locked = some mv) : Legal me (.setkilled q locked :: rest) mv := by
  cases locked
  all_goals cases Option.some.inj run
  · exact ⟨List.Perm.refl _, fit, order_proc fit.1.1 q⟩
  · exact ⟨List.Perm.refl _, fit.2, by rintro _ ⟨⟩⟩

theorem killed_legal {self q : Slot} {locked : Bool} (fit : Fit me (.killed q locked :: rest))
    (run : killed m rest self q locked = some mv) : Legal me (.killed q locked :: rest) mv := by
  cases locked
  all_goals cases Option.some.inj run
  · exact ⟨List.Perm.refl _, fit, order_proc fit.1.1 q⟩
  · exact ⟨List.Perm.refl _, fit.2, by rintro _ ⟨⟩⟩

theorem noProc_wait : NoProc [Lock.wait] := by
  intro l here
  cases List.mem_singleton.mp here
  rfl

theorem kexit_legal {p : Slot} {status : Int} {pc : KexitPc}
    (fit : Fit me (.kexit p status pc :: rest)) (run : kexit m rest p status pc = some mv) :
    Legal me (.kexit p status pc :: rest) mv := by
  obtain ⟨⟨own, inside, rfl⟩, below⟩ := fit
  revert run
  fun_cases kexit m [.body [] inside] p status pc
  all_goals
    intro run
    cases Option.some.inj run
  all_goals
    refine ⟨?_, ?_, ?_⟩
  all_goals
    simp_all [Op.Books, Fit, Frame.Fits, Frame.held, KexitPc.held, Lock.rank, noProc_wait,
      Wakes, List.Perm.swap]

theorem kwait_legal {choice : Choice} {p : Slot} {pc : KwaitPc}
    (fit : Fit me (.kwait p pc :: rest)) (run : kwait m rest choice p pc = some mv) :
    Legal me (.kwait p pc :: rest) mv := by
  obtain ⟨⟨own, inside, rfl⟩, below⟩ := fit
  revert run
  fun_cases kwait m [.body [] inside] choice p pc
  all_goals
    intro run
    simp only [goes, Option.some.injEq, reduceCtorEq] at run
    try subst mv
  all_goals
    refine ⟨?_, ?_, ?_⟩
  all_goals
    simp_all [Op.Books, Fit, Frame.Fits, Frame.held, KwaitPc.held, SleepPc.held, Lock.rank,
      noProc_wait, noProc_nil, Sleeps, SleepPc.Woken, Asks]

theorem kfork_legal {choice : Choice} {p : Slot} {pc : KforkPc}
    (fit : Fit me (.kfork p pc :: rest)) (run : kfork m rest choice p pc = some mv) :
    Legal me (.kfork p pc :: rest) mv := by
  obtain ⟨⟨own, inside, rfl⟩, below⟩ := fit
  revert run
  fun_cases kfork m [.body [] inside] choice p pc
  all_goals
    intro run
    cases Option.some.inj run
  all_goals
    refine ⟨?_, ?_, ?_⟩
  all_goals
    simp_all [Op.Books, Fit, Frame.Fits, Frame.held, KforkPc.held, Lock.rank]

theorem body_noProc {locks : List Lock} {inside : List Nat} (fit : Fit me [.body locks inside]) :
    NoProc (locksOf [.body locks inside]) := by
  obtain ⟨⟨_, _, conds⟩, _⟩ := fit
  simpa [Frame.held] using NoProc.of_cond conds

theorem noProc_inner (l : Nat) {locks : List Lock} (free : NoProc locks) :
    NoProc (.inner l :: locks) := List.forall_mem_cons.mpr ⟨rfl, free⟩

theorem acquiresleep_legal {self : Slot} {l : Nat} {pc : AcquirePc} (own : me = some self)
    (fit : Fit me (.acquiresleep l pc :: rest)) (run : acquiresleep m rest self l pc = some mv) :
    Legal me (.acquiresleep l pc :: rest) mv := by
  obtain ⟨⟨locks, inside, rfl⟩, below⟩ := fit
  revert run
  fun_cases acquiresleep m [.body locks inside] self l pc
  all_goals
    intro run
    simp only [Option.some.injEq, reduceCtorEq] at run
    try subst mv
  · exact ⟨List.Perm.refl _, ⟨⟨locks, inside, rfl⟩, below⟩, order_other id⟩
  · exact ⟨List.Perm.refl _, ⟨⟨own, body_noProc below, ⟨rfl, rfl⟩, False.elim⟩,
      ⟨locks, inside, rfl⟩, below⟩,
      by rintro _ ⟨⟩⟩
  · exact ⟨List.Perm.refl _, below, by rintro _ ⟨⟩⟩

theorem releasesleep_legal {l : Nat} {pc : ReleasePc} (fit : Fit me (.releasesleep l pc :: rest))
    (run : releasesleep m rest l pc = some mv) : Legal me (.releasesleep l pc :: rest) mv := by
  obtain ⟨⟨locks, inside, rfl, holds⟩, below⟩ := fit
  cases pc
  all_goals cases Option.some.inj run
  · exact ⟨List.Perm.refl _, ⟨⟨locks, inside, rfl, holds⟩, below⟩, order_other id⟩
  · exact ⟨List.Perm.refl _,
      ⟨⟨noProc_inner l (body_noProc below), rfl⟩, ⟨locks, inside, rfl, holds⟩, below⟩, by rintro _ ⟨⟩⟩
  · exact ⟨List.Perm.refl _, below, by rintro _ ⟨⟩⟩

theorem holdingsleep_legal {self : Slot} {l : Nat} {locked : Bool}
    (fit : Fit me (.holdingsleep l locked :: rest))
    (run : holdingsleep m rest self l locked = some mv) :
    Legal me (.holdingsleep l locked :: rest) mv := by
  cases locked
  all_goals cases Option.some.inj run
  · exact ⟨List.Perm.refl _, fit, order_other id⟩
  · exact ⟨List.Perm.refl _, fit.2, by rintro _ ⟨⟩⟩

theorem body_legal {self : Slot} {locks : List Lock} {inside : List Nat} {choice : Choice}
    (own : me = some self) (fit : Fit me (.body locks inside :: rest))
    (run : body m rest self locks inside choice = some mv) :
    Legal me (.body locks inside :: rest) mv := by
  have fitBody := fit
  obtain ⟨⟨there, rfl, conds⟩, _⟩ := fit
  have free := body_noProc fitBody
  -- every call pushes a frame and leaves the locks to the caller
  have calls : ∀ frame : Frame, frame.held = [] → frame.Fits me [.body locks inside] →
      Legal me [.body locks inside] ⟨.plain, m, [frame, .body locks inside]⟩ := by
    intro frame none fits
    refine ⟨?_, ⟨fits, fitBody⟩, by rintro _ ⟨⟩⟩
    simp [Op.Books, none]
  revert run
  fun_cases body m [] self locks inside choice
  all_goals
    intro run
    simp only [Option.some.injEq, reduceCtorEq] at run
    try subst mv
  case case1 k =>
    exact ⟨List.Perm.refl _,
      ⟨⟨there, rfl, List.forall_mem_cons.mpr ⟨rfl, conds⟩⟩, trivial⟩, order_other id⟩
  case case2 l inList =>
    refine ⟨?_, ⟨⟨there, rfl, fun k member => conds k (List.mem_of_mem_erase member)⟩, trivial⟩,
      by rintro _ ⟨⟩⟩
    simpa [Op.Books, Frame.held] using List.perm_cons_erase inList
  case case4 addr lk inList =>
    have fewer : ∀ k ∈ locks.erase lk, k.isCond := fun k member =>
      conds k (List.mem_of_mem_erase member)
    refine ⟨?_, ⟨⟨own, ?_, ⟨conds lk inList, addr, rfl⟩, False.elim⟩, ⟨there, rfl, fewer⟩,
      trivial⟩, by rintro _ ⟨⟩⟩
    · simpa [Op.Books, Frame.held, SleepPc.held] using (List.perm_cons_erase inList).symm
    · simpa [Frame.held] using NoProc.of_cond fewer
  case case6 addr => exact calls _ rfl ⟨free, addr, rfl⟩
  case case7 => exact calls _ rfl ⟨free, trivial⟩
  case case8 => exact calls _ rfl ⟨free, trivial⟩
  case case9 => exact calls _ rfl ⟨locks, inside, rfl⟩
  case case10 l holds => exact calls _ rfl ⟨locks, inside, rfl, holds⟩
  case case12 => exact calls _ rfl ⟨locks, inside, rfl⟩
  case case13 empty =>
    subst empty
    exact calls _ rfl ⟨own, inside, rfl⟩
  case case15 empty =>
    subst empty
    exact calls _ rfl ⟨own, inside, rfl⟩
  case case17 empty =>
    subst empty
    exact calls _ rfl ⟨own, inside, rfl⟩
  case case19 empty =>
    subst empty
    exact calls _ rfl ⟨inside, rfl⟩
  case case21 empty =>
    subst empty
    exact ⟨List.Perm.refl _, fitBody, by rintro _ ⟨⟩⟩

theorem handler_legal {locks : List Lock} {choice : Choice}
    (fit : Fit me (.handler locks :: rest)) (run : handler m rest locks choice = some mv) :
    Legal me (.handler locks :: rest) mv := by
  have fitHandler := fit
  obtain ⟨⟨under, conds⟩, below⟩ := fit
  have empty := under.1
  revert run
  fun_cases handler m rest locks choice
  all_goals
    intro run
    simp only [Option.some.injEq, reduceCtorEq] at run
    try subst mv
  case case1 k =>
    exact ⟨List.Perm.refl _, ⟨⟨under, List.forall_mem_cons.mpr ⟨rfl, conds⟩⟩, below⟩,
      order_other id⟩
  case case2 l inList =>
    refine ⟨?_, ⟨⟨under, fun k member => conds k (List.mem_of_mem_erase member)⟩,
      below⟩, by rintro _ ⟨⟩⟩
    simpa [Op.Books, Frame.held, empty] using List.perm_cons_erase inList
  case case4 addr =>
    refine ⟨List.Perm.refl _, ⟨⟨?_, addr, rfl⟩, fitHandler⟩, by rintro _ ⟨⟩⟩
    simpa [Frame.held, empty] using NoProc.of_cond conds
  case case5 none =>
    subst none
    exact ⟨List.Perm.refl _, below, by rintro _ ⟨⟩⟩

end Functions

/-- The one fact later proofs need of the program points: whatever a well-formed stack does
next is accounted for in its locks. -/
theorem fetch_legal {cpu : Cpu} {m : Mem} {choice : Choice} {me : Option Slot}
    {stack : List Frame} {mv : Move} (fit : Fit me stack)
    (mine : ∀ p, me = some p → cpu.proc = some p) (run : fetch cpu m choice stack = some mv) :
    Legal me stack mv := by
  revert run
  fun_cases fetch cpu m choice stack
  all_goals
    intro run
    try simp only [Option.bind_eq_some_iff, reduceCtorEq] at run
  case case2 => exact scheduler_legal fit run
  case case3 =>
    obtain ⟨self, here, run⟩ := run
    obtain ⟨p, own⟩ := Option.isSome_iff_exists.mp fit.1.1
    have same := mine p own
    rw [here] at same
    cases Option.some.inj same
    exact body_legal own fit run
  case case4 => exact handler_legal fit run
  case case6 =>
    obtain ⟨self, here, run⟩ := run
    obtain ⟨⟨own, rfl⟩, _⟩ := fit
    have same := mine _ own
    rw [here] at same
    cases Option.some.inj same
    cases Option.some.inj run
    refine ⟨List.Perm.refl _, ⟨⟨?_, rfl, ?_⟩, trivial⟩, by rintro _ ⟨⟩⟩
    · rw [own]; rfl
    · intro l inside; cases inside
  case case7 => exact sleep_legal fit run
  case case8 => exact wakeup_legal fit run
  case case9 => exact waking_legal fit run
  case case10 => exact kkill_legal fit run
  case case11 => exact killing_legal fit run
  case case12 => exact setkilled_legal fit run
  case case13 =>
    obtain ⟨self, _, run⟩ := run
    exact killed_legal fit run
  case case14 => exact kexit_legal fit run
  case case15 => exact kwait_legal fit run
  case case16 => exact kfork_legal fit run
  case case17 =>
    obtain ⟨self, here, run⟩ := run
    obtain ⟨⟨locks, inside, rfl⟩, below⟩ := fit
    obtain ⟨p, own⟩ := Option.isSome_iff_exists.mp below.1.1
    have same := mine p own
    rw [here] at same
    cases Option.some.inj same
    exact acquiresleep_legal own ⟨⟨locks, inside, rfl⟩, below⟩ run
  case case18 => exact releasesleep_legal fit run
  case case19 =>
    obtain ⟨self, _, run⟩ := run
    exact holdingsleep_legal fit run

end Xv6Fcfs.Sched
