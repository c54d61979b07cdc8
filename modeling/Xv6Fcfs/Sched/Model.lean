import Xv6Fcfs.Process.Table
import Xv6Fcfs.Lib.Runs

/-!
# Locks, context switches and the kernel stacks that use them

`Process.Table` takes the sections that locks protect as single steps.  Here the
locks themselves are steps: every `acquire` and `release` of `scheduler`,
`allocproc`, `kfork`, `kexit`, `reparent`, `kwait`, `sleep`, `wakeup`, `kkill`,
`killed`, `setkilled` and of the sleep locks is one move of one CPU, and the moves
of all CPUs interleave.

A kernel thread is its stack of frames, one for each active call, the top one
first.  A frame is the program point of its call together with its local
variables.  A CPU executes on the stack of its scheduler or on the kernel stack of
a process, and `swtch` moves it from the one to the other.

The kernel code around these functions (system calls, drivers, the file system) is
the frame `body`: it takes and releases condition locks, sleeps, wakes others and
calls the functions above in any order.  An interrupt handler is a frame on top of
whatever it interrupts.  The leaf locks (`pid_lock`, `kmem.lock`, `ftable.lock` and
`itable.lock` inside `kfork`) are taken and released within one move.
-/

set_option autoImplicit false

namespace Xv6Fcfs.Sched

open Xv6Fcfs.Lib
open Xv6Fcfs.Process (Slot ProcState)

/-! ## Locks and channels -/

inductive Lock where
  /-- A condition lock such as `pi->lock`, `cons.lock`, `tickslock` or `log.lock`. -/
  | cond (k : Nat)
  /-- The spinlock inside sleep lock `l`. -/
  | inner (l : Nat)
  | wait
  | proc (p : Slot)
  deriving DecidableEq, Repr

/-- Addresses to sleep on.  A process, a sleep lock and anything else have different ones. -/
inductive Chan where
  | proc (p : Slot)
  | sleeplock (l : Nat)
  | other (addr : Nat)
  deriving DecidableEq, Repr

/-- `for (p = proc; p < &proc[NPROC]; p++)` goes through this list. -/
def table : List Slot := List.finRange NPROC

/-! ## Frames -/

inductive SchedPc where
  | top
  | window
  | scan (todo : List Slot) (first : Option Slot)
  | look (p : Slot) (todo : List Slot) (first : Option Slot)
  | chosen (first : Slot)
  | running (first : Slot)
  | swtching (first : Slot)
  | away (first : Slot)
  | back (first : Slot)
  | done (first : Slot)
  deriving DecidableEq, Repr

inductive SleepPc where
  | enter
  | unlock
  | mark
  | sched
  | asleep (intena : Bool)
  | woken (intena : Bool)
  | tidy
  | reacquire
  deriving DecidableEq, Repr

inductive KexitPc where
  | enter
  | reparent (todo : List Slot)
  | lock
  | mark
  | sched
  | gone
  deriving DecidableEq, Repr

inductive KwaitPc where
  | enter
  | scan (todo : List Slot) (havekids : Bool)
  | look (pp : Slot) (todo : List Slot)
  | judge
  | slept
  | leave
  deriving DecidableEq, Repr

inductive KforkPc where
  | scan (todo : List Slot)
  | look (np : Slot) (todo : List Slot)
  | found (np : Slot)
  | copy (np : Slot)
  | link (np : Slot)
  | parent (np : Slot)
  | start (np : Slot)
  | ready (np : Slot)
  deriving DecidableEq, Repr

inductive AcquirePc where
  | enter
  | test
  | slept
  deriving DecidableEq, Repr

inductive ReleasePc where
  | enter
  | clear
  | leave
  deriving DecidableEq, Repr

/-- The frames.  `p` is the local `p = myproc()`; the `k` of `forkret` is the slot whose
kernel stack the context points to. -/
inductive Frame where
  | scheduler (pc : SchedPc)
  | body (locks : List Lock) (inside : List Nat)
  | handler (locks : List Lock)
  | forkret (k : Slot) (resumed : Bool)
  | sleep (p : Slot) (chan : Chan) (lk : Lock) (pc : SleepPc)
  | wakeup (chan : Option Chan) (todo : List Slot)
  | waking (chan : Option Chan) (p : Slot) (todo : List Slot)
  | kkill (pid : Int) (todo : List Slot)
  | killing (pid : Int) (p : Slot) (todo : List Slot)
  | setkilled (q : Slot) (locked : Bool)
  | killed (q : Slot) (locked : Bool)
  | kexit (p : Slot) (status : Int) (pc : KexitPc)
  | kwait (p : Slot) (pc : KwaitPc)
  | kfork (p : Slot) (pc : KforkPc)
  | acquiresleep (l : Nat) (pc : AcquirePc)
  | releasesleep (l : Nat) (pc : ReleasePc)
  | holdingsleep (l : Nat) (locked : Bool)
  deriving DecidableEq, Repr

/-! ## Shared memory -/

structure Proc where
  state : ProcState
  chan : Option Chan
  killed : Bool
  xstate : Int
  pid : Int
  parent : Option Slot
  deriving DecidableEq, Repr

structure Sleeplock where
  locked : Bool
  pid : Int
  deriving DecidableEq, Repr

/-- The shared variables.  `ret p` is the register that carries what the last
`killed` or `holdingsleep` of process `p` returned. -/
structure Mem where
  proc : Slot → Proc
  sleeplock : Nat → Sleeplock
  initproc : Slot
  nextpid : Int
  ret : Slot → Bool

def Mem.setProc (m : Mem) (p : Slot) (f : Proc → Proc) : Mem :=
  { m with proc := Function.update m.proc p (f (m.proc p)) }

def Mem.setSleeplock (m : Mem) (l : Nat) (v : Sleeplock) : Mem :=
  { m with sleeplock := Function.update m.sleeplock l v }

def Mem.setRet (m : Mem) (p : Slot) (v : Bool) : Mem :=
  { m with ret := Function.update m.ret p v }

/-- What `freeproc` leaves of the fields modelled here. -/
def Proc.freed : Proc where
  state := .unused
  chan := none
  killed := false
  xstate := 0
  pid := 0
  parent := none

def freeproc (m : Mem) (p : Slot) : Mem := m.setProc p fun _ => Proc.freed

/-- `p->pid = allocpid(); p->state = USED`; `nextpid` is a 32-bit `int`. -/
def allocpid (m : Mem) (p : Slot) : Mem :=
  { m.setProc p (fun x => { x with pid := m.nextpid, state := .used }) with
    nextpid := Int.bmod (m.nextpid + 1) (2 ^ 32) }

/-! ## Moves -/

inductive Panic where
  | acquire
  | release
  | popOffInterruptible
  | popOff
  | schedLock
  | schedLocks
  | schedRunning
  | schedInterruptible
  | initExiting
  | zombieExit
  deriving DecidableEq, Repr

/-- What a move does besides writing shared memory. -/
inductive Op where
  | plain
  | acquire (l : Lock)
  | release (l : Lock)
  | sched
  | swtch (p : Slot)
  | setproc (p : Option Slot)
  | intr (on : Bool)
  | intena (was : Bool)
  | context (np : Slot)
  | panic (why : Panic)
  deriving DecidableEq, Repr

/-- One move of a thread: its writes, then its operation, and the stack it goes on with. -/
structure Move where
  op : Op
  mem : Mem
  stack : List Frame

/-- How the code that is not modelled, or the page allocator, continues. -/
inductive Choice where
  | go
  | fail
  | acquire (k : Nat)
  | release (l : Lock)
  | sleep (addr : Nat) (lk : Lock)
  | wakeup (addr : Nat)
  | killed (q : Slot)
  | setkilled (q : Slot)
  | acquiresleep (l : Nat)
  | releasesleep (l : Nat)
  | holdingsleep (l : Nat)
  | kfork
  | kexit (status : Int)
  | kwait
  | kkill (pid : Int)
  | intr (on : Bool)
  | leave
  deriving DecidableEq, Repr

section Functions
variable (m : Mem) (rest : List Frame)

def goes (frame : Frame) : Option Move := some ⟨.plain, m, frame :: rest⟩

def scheduler : SchedPc → Option Move
  | .top => some ⟨.intr true, m, .scheduler .window :: rest⟩
  | .window => some ⟨.intr false, m, .scheduler (.scan table none) :: rest⟩
  | .scan (p :: todo) first =>
      some ⟨.acquire (.proc p), m, .scheduler (.look p todo first) :: rest⟩
  | .look p todo none =>
      if (m.proc p).state = .runnable then goes m rest (.scheduler (.scan todo (some p)))
      else some ⟨.release (.proc p), m, .scheduler (.scan todo none) :: rest⟩
  | .look p todo (some first) =>
      if (m.proc p).state = .runnable ∧ (m.proc p).pid < (m.proc first).pid then
        some ⟨.release (.proc first), m, .scheduler (.scan todo (some p)) :: rest⟩
      else some ⟨.release (.proc p), m, .scheduler (.scan todo (some first)) :: rest⟩
  | .scan [] (some first) => goes m rest (.scheduler (.chosen first))
  | .scan [] none => goes m rest (.scheduler .top)
  | .chosen first =>
      some ⟨.plain, m.setProc first fun x => { x with state := .running },
        .scheduler (.running first) :: rest⟩
  | .running first => some ⟨.setproc (some first), m, .scheduler (.swtching first) :: rest⟩
  | .swtching first => some ⟨.swtch first, m, .scheduler (.away first) :: rest⟩
  | .away _ => none
  | .back first => some ⟨.setproc none, m, .scheduler (.done first) :: rest⟩
  | .done first => some ⟨.release (.proc first), m, .scheduler .top :: rest⟩

/-- What the caller of `sleep` goes on with once it holds `lk` again. -/
def regain (lk : Lock) : List Frame → List Frame
  | .body locks inside :: rest => .body (lk :: locks) inside :: rest
  | .kwait p .slept :: rest => .kwait p (.scan table false) :: rest
  | .acquiresleep l .slept :: rest => .acquiresleep l .test :: rest
  | rest => rest

def sleep (intena : Bool) (p : Slot) (chan : Chan) (lk : Lock) : SleepPc → Option Move
  | .enter => some ⟨.acquire (.proc p), m, .sleep p chan lk .unlock :: rest⟩
  | .unlock => some ⟨.release lk, m, .sleep p chan lk .mark :: rest⟩
  | .mark =>
      some ⟨.plain, m.setProc p fun x => { x with chan := some chan, state := .sleeping },
        .sleep p chan lk .sched :: rest⟩
  | .sched => some ⟨.sched, m, .sleep p chan lk (.asleep intena) :: rest⟩
  | .asleep _ => none
  | .woken was => some ⟨.intena was, m, .sleep p chan lk .tidy :: rest⟩
  | .tidy =>
      some ⟨.release (.proc p), m.setProc p fun x => { x with chan := none },
        .sleep p chan lk .reacquire :: rest⟩
  | .reacquire => some ⟨.acquire lk, m, regain lk rest⟩

def wakeup (me : Option Slot) (chan : Option Chan) : List Slot → Option Move
  | [] => some ⟨.plain, m, rest⟩
  | p :: todo =>
      if some p = me then goes m rest (.wakeup chan todo)
      else some ⟨.acquire (.proc p), m, .waking chan p todo :: rest⟩

def waking (chan : Option Chan) (p : Slot) (todo : List Slot) : Option Move :=
  let wakes := (m.proc p).state = .sleeping ∧ (m.proc p).chan = chan
  some ⟨.release (.proc p),
    if wakes then m.setProc p fun x => { x with state := .runnable } else m,
    .wakeup chan todo :: rest⟩

def kkill (pid : Int) : List Slot → Option Move
  | [] => some ⟨.plain, m, rest⟩
  | p :: todo => some ⟨.acquire (.proc p), m, .killing pid p todo :: rest⟩

def killing (pid : Int) (p : Slot) (todo : List Slot) : Option Move :=
  if (m.proc p).pid = pid then
    some ⟨.release (.proc p),
      m.setProc p fun x => { x with
        killed := true, state := if x.state = .sleeping then .runnable else x.state },
      rest⟩
  else some ⟨.release (.proc p), m, .kkill pid todo :: rest⟩

def setkilled (q : Slot) : Bool → Option Move
  | false => some ⟨.acquire (.proc q), m, .setkilled q true :: rest⟩
  | true => some ⟨.release (.proc q), m.setProc q fun x => { x with killed := true }, rest⟩

def killed (me : Slot) (q : Slot) : Bool → Option Move
  | false => some ⟨.acquire (.proc q), m, .killed q true :: rest⟩
  | true => some ⟨.release (.proc q), m.setRet me (m.proc q).killed, rest⟩

/-- `kexit` from its `acquire(&wait_lock)` on, with `reparent` inside; what it does before
(closing files, `iput`) is the work of `body`. -/
def kexit (p : Slot) (status : Int) : KexitPc → Option Move
  | .enter =>
      if p = m.initproc then some ⟨.panic .initExiting, m, .kexit p status .enter :: rest⟩
      else some ⟨.acquire .wait, m, .kexit p status (.reparent table) :: rest⟩
  | .reparent (pp :: todo) =>
      if (m.proc pp).parent = some p then
        some ⟨.plain, m.setProc pp fun x => { x with parent := some m.initproc },
          .wakeup (some (.proc m.initproc)) table :: .kexit p status (.reparent todo) :: rest⟩
      else goes m rest (.kexit p status (.reparent todo))
  | .reparent [] =>
      some ⟨.plain, m,
        .wakeup ((m.proc p).parent.map .proc) table :: .kexit p status .lock :: rest⟩
  | .lock => some ⟨.acquire (.proc p), m, .kexit p status .mark :: rest⟩
  | .mark =>
      some ⟨.release .wait, m.setProc p fun x => { x with xstate := status, state := .zombie },
        .kexit p status .sched :: rest⟩
  | .sched => some ⟨.sched, m, .kexit p status .gone :: rest⟩
  | .gone => some ⟨.panic .zombieExit, m, .kexit p status .gone :: rest⟩

def kwait (choice : Choice) (p : Slot) : KwaitPc → Option Move
  | .enter => some ⟨.acquire .wait, m, .kwait p (.scan table false) :: rest⟩
  | .scan (pp :: todo) havekids =>
      if (m.proc pp).parent = some p then
        some ⟨.acquire (.proc pp), m, .kwait p (.look pp todo) :: rest⟩
      else goes m rest (.kwait p (.scan todo havekids))
  | .look pp todo =>
      if (m.proc pp).state = .zombie then
        -- a failing `copyout` leaves the child a zombie
        if choice = .fail then some ⟨.release (.proc pp), m, .kwait p .leave :: rest⟩
        else some ⟨.release (.proc pp), freeproc m pp, .kwait p .leave :: rest⟩
      else some ⟨.release (.proc pp), m, .kwait p (.scan todo true) :: rest⟩
  | .scan [] false => some ⟨.release .wait, m, rest⟩
  | .scan [] true => some ⟨.plain, m, .killed p false :: .kwait p .judge :: rest⟩
  | .judge =>
      if m.ret p then some ⟨.release .wait, m, rest⟩
      else some ⟨.plain, m, .sleep p (.proc p) .wait .enter :: .kwait p .slept :: rest⟩
  | .slept => none
  | .leave => some ⟨.release .wait, m, rest⟩

/-- `kfork` with `allocproc` inside.  `fail` stands for an allocation or a copy that fails. -/
def kfork (choice : Choice) (p : Slot) : KforkPc → Option Move
  | .scan [] => some ⟨.plain, m, rest⟩
  | .scan (np :: todo) => some ⟨.acquire (.proc np), m, .kfork p (.look np todo) :: rest⟩
  | .look np todo =>
      if (m.proc np).state = .unused then
        some ⟨.plain, allocpid m np, .kfork p (.found np) :: rest⟩
      else some ⟨.release (.proc np), m, .kfork p (.scan todo) :: rest⟩
  | .found np =>
      if choice = .fail then some ⟨.release (.proc np), freeproc m np, rest⟩
      else some ⟨.context np, m, .kfork p (.copy np) :: rest⟩
  | .copy np =>
      if choice = .fail then some ⟨.release (.proc np), freeproc m np, rest⟩
      else some ⟨.release (.proc np), m, .kfork p (.link np) :: rest⟩
  | .link np => some ⟨.acquire .wait, m, .kfork p (.parent np) :: rest⟩
  | .parent np =>
      some ⟨.release .wait, m.setProc np fun x => { x with parent := some p },
        .kfork p (.start np) :: rest⟩
  | .start np => some ⟨.acquire (.proc np), m, .kfork p (.ready np) :: rest⟩
  | .ready np =>
      some ⟨.release (.proc np), m.setProc np fun x => { x with state := .runnable }, rest⟩

/-- The caller of `acquiresleep` now holds the sleep lock. -/
def entered (l : Nat) : List Frame → List Frame
  | .body locks inside :: rest => .body locks (l :: inside) :: rest
  | rest => rest

/-- The caller of `releasesleep` has given the sleep lock back. -/
def left (l : Nat) : List Frame → List Frame
  | .body locks inside :: rest => .body locks (inside.filter (· ≠ l)) :: rest
  | rest => rest

def acquiresleep (me : Slot) (l : Nat) : AcquirePc → Option Move
  | .enter => some ⟨.acquire (.inner l), m, .acquiresleep l .test :: rest⟩
  | .test =>
      if (m.sleeplock l).locked then
        some ⟨.plain, m,
          .sleep me (.sleeplock l) (.inner l) .enter :: .acquiresleep l .slept :: rest⟩
      else some ⟨.release (.inner l), m.setSleeplock l ⟨true, (m.proc me).pid⟩, entered l rest⟩
  | .slept => none

def releasesleep (l : Nat) : ReleasePc → Option Move
  | .enter => some ⟨.acquire (.inner l), m, .releasesleep l .clear :: rest⟩
  | .clear =>
      some ⟨.plain, m.setSleeplock l ⟨false, 0⟩,
        .wakeup (some (.sleeplock l)) table :: .releasesleep l .leave :: rest⟩
  | .leave => some ⟨.release (.inner l), m, left l rest⟩

def holdingsleep (me : Slot) (l : Nat) : Bool → Option Move
  | false => some ⟨.acquire (.inner l), m, .holdingsleep l true :: rest⟩
  | true =>
      some ⟨.release (.inner l),
        m.setRet me ((m.sleeplock l).locked && (m.sleeplock l).pid == (m.proc me).pid), rest⟩

/-- Kernel code of process `me` that holds the condition locks `locks` and is between
`acquiresleep` and `releasesleep` of the sleep locks `inside`. -/
def body (me : Slot) (locks : List Lock) (inside : List Nat) : Choice → Option Move
  | .acquire k => some ⟨.acquire (.cond k), m, .body (.cond k :: locks) inside :: rest⟩
  | .release l =>
      if l ∈ locks then some ⟨.release l, m, .body (locks.erase l) inside :: rest⟩ else none
  | .sleep addr lk =>
      if lk ∈ locks then
        some ⟨.plain, m, .sleep me (.other addr) lk .enter :: .body (locks.erase lk) inside :: rest⟩
      else none
  | .wakeup addr =>
      some ⟨.plain, m, .wakeup (some (.other addr)) table :: .body locks inside :: rest⟩
  | .killed q => some ⟨.plain, m, .killed q false :: .body locks inside :: rest⟩
  | .setkilled q => some ⟨.plain, m, .setkilled q false :: .body locks inside :: rest⟩
  | .acquiresleep l => some ⟨.plain, m, .acquiresleep l .enter :: .body locks inside :: rest⟩
  | .releasesleep l =>
      -- `brelse` and `iunlock` check `holdingsleep` first, `iput` has just taken the lock
      if l ∈ inside then some ⟨.plain, m, .releasesleep l .enter :: .body locks inside :: rest⟩
      else none
  | .holdingsleep l => some ⟨.plain, m, .holdingsleep l false :: .body locks inside :: rest⟩
  | .kfork =>
      if locks = [] then some ⟨.plain, m, .kfork me (.scan table) :: .body [] inside :: rest⟩
      else none
  | .kexit status =>
      if locks = [] then some ⟨.plain, m, .kexit me status .enter :: .body [] inside :: rest⟩
      else none
  | .kwait =>
      if locks = [] then some ⟨.plain, m, .kwait me .enter :: .body [] inside :: rest⟩ else none
  | .kkill pid =>
      if locks = [] then some ⟨.plain, m, .kkill pid table :: .body [] inside :: rest⟩ else none
  | .intr on =>
      if locks = [] then some ⟨.intr on, m, .body [] inside :: rest⟩ else none
  | _ => none

/-- A device interrupt: it takes and releases condition locks and wakes sleepers. -/
def handler (locks : List Lock) : Choice → Option Move
  | .acquire k => some ⟨.acquire (.cond k), m, .handler (.cond k :: locks) :: rest⟩
  | .release l =>
      if l ∈ locks then some ⟨.release l, m, .handler (locks.erase l) :: rest⟩ else none
  | .wakeup addr => some ⟨.plain, m, .wakeup (some (.other addr)) table :: .handler locks :: rest⟩
  | .leave => if locks = [] then some ⟨.intr true, m, rest⟩ else none
  | _ => none

end Functions

/-! ## CPUs -/

structure Cpu where
  proc : Option Slot
  noff : Nat
  intena : Bool
  /-- The interrupt-enable bit of `sstatus`. -/
  intr : Bool
  deriving DecidableEq, Repr

def Cpu.pushOff (c : Cpu) : Cpu :=
  { c with
    intr := false
    intena := if c.noff = 0 then c.intr else c.intena
    noff := c.noff + 1 }

def Cpu.popOff (c : Cpu) : Except Panic Cpu :=
  if c.intr then .error .popOffInterruptible
  else if c.noff < 1 then .error .popOff
  else .ok { c with noff := c.noff - 1, intr := decide (c.noff - 1 = 0) && c.intena }

def fetch (cpu : Cpu) (m : Mem) (choice : Choice) : List Frame → Option Move
  | [] => none
  | .scheduler pc :: rest => scheduler m rest pc
  | .body locks inside :: rest => cpu.proc.bind fun me => body m rest me locks inside choice
  | .handler locks :: rest => handler m rest locks choice
  | .forkret _ false :: _ => none
  | .forkret _ true :: rest =>
      cpu.proc.bind fun p => some ⟨.release (.proc p), m, .body [] [] :: rest⟩
  | .sleep p chan lk pc :: rest => sleep m rest cpu.intena p chan lk pc
  | .wakeup chan todo :: rest => wakeup m rest cpu.proc chan todo
  | .waking chan p todo :: rest => waking m rest chan p todo
  | .kkill pid todo :: rest => kkill m rest pid todo
  | .killing pid p todo :: rest => killing m rest pid p todo
  | .setkilled q locked :: rest => setkilled m rest q locked
  | .killed q locked :: rest => cpu.proc.bind fun me => killed m rest me q locked
  | .kexit p status pc :: rest => kexit m rest p status pc
  | .kwait p pc :: rest => kwait m rest choice p pc
  | .kfork p pc :: rest => kfork m rest choice p pc
  | .acquiresleep l pc :: rest => cpu.proc.bind fun me => acquiresleep m rest me l pc
  | .releasesleep l pc :: rest => releasesleep m rest l pc
  | .holdingsleep l locked :: rest => cpu.proc.bind fun me => holdingsleep m rest me l locked

attribute [elab_as_elim] scheduler.fun_cases sleep.fun_cases wakeup.fun_cases kexit.fun_cases
  kwait.fun_cases kfork.fun_cases acquiresleep.fun_cases body.fun_cases handler.fun_cases
  fetch.fun_cases

/-! ## The machine -/

/-- The kernel threads: the scheduler of each CPU and the processes. -/
inductive Thread where
  | sched (c : Nat)
  | proc (p : Slot)
  deriving DecidableEq, Repr

structure State where
  cpu : Nat → Cpu
  /-- The thread on whose stack a CPU executes. -/
  on : Nat → Thread
  stack : Thread → List Frame
  /-- `lk->cpu` of a lock that is taken. -/
  lock : Lock → Option Nat
  mem : Mem
  /-- A CPU that panics spins for ever. -/
  halted : Nat → Option Panic

namespace State

def setStack (s : State) (t : Thread) (stack : List Frame) : State :=
  { s with stack := Function.update s.stack t stack }

def setCpu (s : State) (c : Nat) (cpu : Cpu) : State :=
  { s with cpu := Function.update s.cpu c cpu }

def setLock (s : State) (l : Lock) (owner : Option Nat) : State :=
  { s with lock := Function.update s.lock l owner }

def halt (s : State) (c : Nat) (why : Panic) : State :=
  { s with halted := Function.update s.halted c (some why) }

/-- `swtch` to a thread, which goes on with the given stack. -/
def swtchTo (s : State) (c : Nat) (t : Thread) (stack : List Frame) : State :=
  { s.setStack t stack with on := Function.update s.on c t }

end State

/-- A context goes on where its `swtch` left it. -/
def resume : List Frame → List Frame
  | .scheduler (.away first) :: rest => .scheduler (.back first) :: rest
  | .sleep p chan lk (.asleep was) :: rest => .sleep p chan lk (.woken was) :: rest
  | .forkret k false :: rest => .forkret k true :: rest
  | stack => stack

/-- The checks of `sched`, where `p` is `myproc()`. -/
def schedCheck (s : State) (c : Nat) (p : Slot) : Option Panic :=
  if s.lock (.proc p) ≠ some c then some .schedLock
  else if (s.cpu c).noff ≠ 1 then some .schedLocks
  else if (s.mem.proc p).state = .running then some .schedRunning
  else if (s.cpu c).intr then some .schedInterruptible
  else none

/-- CPU `c` performs a move of the thread it executes. -/
def perform (s : State) (c : Nat) (mv : Move) : Option State :=
  let wrote := { s with mem := mv.mem }
  let moved := wrote.setStack (s.on c) mv.stack
  match mv.op with
  | .plain => some moved
  | .acquire l =>
      let off := s.setCpu c (s.cpu c).pushOff
      if s.lock l = some c then some (off.halt c .acquire)
      else if s.lock l = none then
        some ((moved.setCpu c (s.cpu c).pushOff).setLock l (some c))
      else none
  | .release l =>
      if s.lock l ≠ some c then some (wrote.halt c .release)
      else
        match (s.cpu c).popOff with
        | .ok cpu => some ((moved.setLock l none).setCpu c cpu)
        | .error why => some ((moved.setLock l none).halt c why)
  | .sched =>
      (s.cpu c).proc.bind fun p =>
        match schedCheck s c p with
        | some why => some (wrote.halt c why)
        | none => some (moved.swtchTo c (.sched c) (resume (s.stack (.sched c))))
  | .swtch p => some (moved.swtchTo c (.proc p) (resume (s.stack (.proc p))))
  | .setproc p => some (moved.setCpu c { s.cpu c with proc := p })
  | .intr on => some (moved.setCpu c { s.cpu c with intr := on })
  | .intena was => some (moved.setCpu c { s.cpu c with intena := was })
  | .context np => some (moved.setStack (.proc np) [.forkret np false])
  | .panic why => some (wrote.halt c why)

inductive Event where
  | step (c : Nat) (choice : Choice)
  | interrupt (c : Nat)
  deriving DecidableEq, Repr

def step (s : State) : Event → Option State
  | .step c choice =>
      if s.halted c = none then
        (fetch (s.cpu c) s.mem choice (s.stack (s.on c))).bind (perform s c)
      else none
  | .interrupt c =>
      if s.halted c = none ∧ (s.cpu c).intr then
        some ((s.setStack (s.on c) (.handler [] :: s.stack (s.on c))).setCpu c
          { s.cpu c with intr := false })
      else none

/-- The state `userinit` leaves: the first process, in slot 0, can run, and every CPU enters
`scheduler`. -/
def boot : State where
  cpu := fun _ => ⟨none, 0, false, false⟩
  on := .sched
  stack := fun
    | .sched _ => [.scheduler .top]
    | .proc p => if p = 0 then [.forkret 0 false] else []
  lock := fun _ => none
  mem :=
    { proc := fun p => if p = 0 then { Proc.freed with state := .runnable, pid := 1 } else Proc.freed
      sleeplock := fun _ => ⟨false, 0⟩
      initproc := 0
      nextpid := 2
      ret := fun _ => false }
  halted := fun _ => none

end Xv6Fcfs.Sched
