import Xv6Fcfs.Disk.Invariant
import Xv6Fcfs.Lib.Contention

/-!
# Progress of the driver under dispatch by pid

A process `c` whose request is done is runnable and will return its descriptors.
The processes ahead of it in the order of pids run first, each to its next sleep.
`alloc3_desc` wakes all waiters when it gives back what it took, so two waiters
ahead of `c` may wake each other for ever.

The processes ahead of `c` are the pool: a turn of one of them is a turn of the
pool, and the condition for progress is the one found there.
-/

set_option autoImplicit false

namespace Xv6Fcfs.Disk

open Xv6Fcfs.Lib Xv6Fcfs.Process

/-! ## Turns -/

def ByProcess : SysEvent → Bool
  | .proc (.kfork _) => true
  | .proc (.kexit _) => true
  | .proc (.kwait _) => true
  | .proc (.sleep _) => true
  | .proc (.wakeup _) => true
  | .proc (.kkill _) => true
  | .rw _ => true
  | _ => false

/-- One dispatch: the process chosen runs to its next sleep.  `acts` is what it does
when it runs outside the driver, in order, which may be another call of
`virtio_disk_rw`. -/
def Sys.turn (s : Sys) (acts : List SysEvent) : Option Sys :=
  match s.dispatch with
  | none => none
  | some s' =>
      if acts.all ByProcess then
        match exec Sys.step s' acts with
        | none => none
        | some t => if t.cpu = none then some t else none
      else none

/-- `c` is inside `virtio_disk_rw`, runnable, with its request completed. -/
def Sys.Completed (s : Sys) (c : Slot) : Prop :=
  (s.kernel.proc c).state = .runnable ∧
    ∃ b i0 i1 i2, s.pc c = .diskWait b i0 i1 i2 ∧ s.disk.bufDisk b = false

/-- The dispatches do not come back to a state before `c` is dispatched. -/
def NeverRepeats (r : Run Sys.turn) (c : Slot) : Prop :=
  ∀ i j, i < j → j ≤ r.len →
    (∀ n, n < j → firstProc (r.state n).kernel ≠ some c) → r.state i ≠ r.state j

/-! ## The pool -/

def roleOf (d : VDisk) : DrvPc → Role
  | .outside => .outside
  | .allocWait _ => .waiting
  | .diskWait b _ _ _ => if d.bufDisk b then .pending else .done

instance (k : Kernel) (p q : Slot) : Decidable (Before k p q) :=
  inferInstanceAs (Decidable (Precedes _ p q))

/-- The processes ahead of `c`; the others are outside and never ready. -/
def Sys.pool (s : Sys) (c : Slot) : Pool Slot where
  ready p := (s.kernel.proc p).state = .runnable ∧ Before s.kernel p c
  role p := if Before s.kernel p c then roleOf s.disk (s.pc p) else .outside
  free := s.disk.nfree

/-- A process outside the driver that becomes runnable ahead of `c` is woken as
`wakes` says. -/
def Sys.WakesWithin (wakes : Slot → Slot → Prop) (c : Slot) (s s' : Sys) : Prop :=
  ∀ q, s.pc q = .outside → ¬ (s.pool c).ready q → (s'.pool c).ready q →
    ∃ p, firstProc s.kernel = some p ∧ wakes p q

/-- Two contenders ahead of `c` would keep each other awake. -/
def Sys.Livelock (wakes : Slot → Slot → Prop) (s : Sys) (c : Slot) : Prop :=
  (s.pool c).Livelock 3 wakes

section Before
variable {s t : Sys} {q c : Slot}

theorem before_congr (own : (t.kernel.proc q).pid = (s.kernel.proc q).pid)
    (last : (t.kernel.proc c).pid = (s.kernel.proc c).pid) :
    Before t.kernel q c ↔ Before s.kernel q c := by
  simp only [Before, Precedes, own, last]

theorem pool_role (ahead : Before s.kernel q c) :
    (s.pool c).role q = roleOf s.disk (s.pc q) := if_pos ahead

theorem pool_outside (outside : s.pc q = .outside) : (s.pool c).role q = .outside := by
  simp [Sys.pool, outside, roleOf]

theorem roleOf_inside {d : VDisk} {pc : DrvPc} (inside : pc ≠ .outside) :
    roleOf d pc ≠ .outside := by
  cases pc with
  | outside => exact absurd rfl inside
  | allocWait req => simp [roleOf]
  | diskWait b i0 i1 i2 =>
      simp only [roleOf]
      split <;> simp

end Before

/-! ## Outside the driver -/

/-- Only slot `np` is written, in which no process lives. -/
theorem line_of_others {k k' : Kernel} {np p : Slot}
    (dead : (k.proc np).state = .unused ∨ (k.proc np).state = .zombie)
    (others : ∀ q, q ≠ np → k'.proc q = k.proc q) (running : (k.proc p).state = .running) :
    (∀ q, (k.proc q).state ≠ .unused → (k.proc q).state ≠ .zombie →
      (k'.proc q).pid = (k.proc q).pid) ∧
    (∀ q, q ≠ p → (k.proc q).state = .runnable → (k'.proc q).state = .runnable) ∧
    (k'.proc p).state ≠ .runnable := by
  have differ : ∀ q, (k.proc q).state ≠ .unused → (k.proc q).state ≠ .zombie → q ≠ np := by
    rintro q used alive rfl
    exact dead.elim used alive
  refine ⟨fun q used alive => ?_, fun q _ ready => ?_, ?_⟩
  · rw [others q (differ q used alive)]
  · rw [others q (differ q (by rw [ready]; simp) (by rw [ready]; simp))]
    exact ready
  · rw [others p (differ p (by rw [running]; simp) (by rw [running]; simp)), running]
    simp

/-- An operation of the running process leaves the processes in line: each keeps its
pid, and those that are ready stay so. -/
theorem effect_line {m m' : Machine} {e : Event} {p : Slot} (ok : CpuOk m)
    (holds : m.cpu = some p) (effect : Effect m e m') :
    (∀ q, (m.kernel.proc q).state ≠ .unused → (m.kernel.proc q).state ≠ .zombie →
      (m'.kernel.proc q).pid = (m.kernel.proc q).pid) ∧
    (∀ q, q ≠ p → (m.kernel.proc q).state = .runnable →
      (m'.kernel.proc q).state = .runnable) ∧
    (m'.kernel.proc p).state ≠ .runnable := by
  have running : (m.kernel.proc p).state = .running := (ok p).mpr holds
  cases effect with
  | idle e k' quiet wakes =>
      refine ⟨fun q _ _ => wakes.pid q, fun q _ ready => wakes.runnable q ready, ?_⟩
      have := (wakes.state_iff p .running (by simp) (by simp)).mpr running
      simp [this]
  | booted mem rootInode np first free =>
      exact line_of_others (Or.inl (unusedSlot_some free)) (fun q differ => by simp [differ]) running
  | forkFailed mem p' np holds' free =>
      exact line_of_others (Or.inl (unusedSlot_some free))
        (fun q differ => by simp [differ, freeproc]) running
  | forked mem p' np holds' free =>
      exact line_of_others (Or.inl (unusedSlot_some free)) (fun q differ => by simp [differ]) running
  | exited status p' k' holds' notInit exit =>
      have same : p' = p := Option.some.inj (holds'.symm.trans holds)
      subst same
      refine ⟨fun q _ _ => ?_, fun q differ ready => ?_, by simp [exit.caller]⟩
      · by_cases self : q = p'
        · subst self
          simp [exit.caller, closeFiles]
        · obtain ⟨state, shape, _⟩ := exit.others q self
          simp [shape, self]
      · obtain ⟨state, shape, moved⟩ := exit.others q differ
        simp only [Kernel.setProc_other _ _ _ _ differ] at moved
        rw [shape]
        rcases moved with unchanged | ⟨asleep, _⟩
        · exact unchanged.trans ready
        · rw [asleep] at ready
          cases ready
  | reaped p' pp holds' found =>
      exact line_of_others (Or.inr (zombieChild_some found).2)
        (fun q differ => by simp [differ, freeproc]) running
  | slept e p' chan holds' calls =>
      have same : p' = p := Option.some.inj (holds'.symm.trans holds)
      subst same
      refine ⟨fun q _ _ => ?_, fun q differ ready => ?_, by simp [sleep]⟩
      · by_cases self : q = p'
        · subst self
          simp [sleep]
        · simp [sleep, self]
      · simpa [sleep, differ] using ready
  | killed pid p' pp holds' found =>
      refine ⟨fun q _ _ => ?_, fun q _ ready => ?_, ?_⟩
      · rw [kkill_proc found]
        by_cases self : q = pp
        · subst self
          simp
        · simp [self]
      · rw [kkill_proc found]
        by_cases self : q = pp
        · subst self
          simp [ready]
        · simpa [self] using ready
      · rw [kkill_proc found]
        by_cases self : p = pp
        · subst self
          simp [running]
        · simp [self, running]
  | dispatched p' free chosen =>
      rw [free] at holds
      cases holds

theorem effect_cpu {m m' : Machine} {e : Event} {p : Slot} (holds : m.cpu = some p)
    (effect : Effect m e m') : m'.cpu = none ∨ m'.cpu = some p := by
  cases effect with
  | exited => exact Or.inl rfl
  | slept => exact Or.inl rfl
  | dispatched p' free chosen =>
      rw [free] at holds
      cases holds
  | _ => exact Or.inr holds

/-- `p` has run outside the driver since `s`, after it left if it was inside. -/
structure Roamed (s : Sys) (p : Slot) (t : Sys) : Prop where
  pc : t.pc = Function.update s.pc p .outside
  bufDisk : t.disk.bufDisk = s.disk.bufDisk
  free : t.disk.nfree = s.disk.nfree + if roleOf s.disk (s.pc p) = .done then 3 else 0
  line : ∀ q, q = p ∨ s.pc q ≠ .outside ∨ (s.kernel.proc q).state = .runnable →
    (t.kernel.proc q).pid = (s.kernel.proc q).pid
  keeps : ∀ q, q ≠ p → (s.kernel.proc q).state = .runnable →
    (t.kernel.proc q).state = .runnable
  off : (t.kernel.proc p).state ≠ .runnable

section Turn
variable {s s' t t' : Sys} {p c : Slot}

/-- What the running process does outside the driver keeps the relation. -/
theorem Roamed.step (roamed : Roamed s p t) (inv : SysInv t) (holds : t.cpu = some p)
    {e : Event} (run : t.step (.proc e) = some t') :
    Roamed s p t' ∧ (t'.cpu = none ∨ t'.cpu = some p) := by
  by_cases elsewhere : Elsewhere e = true
  · simp only [Sys.step, elsewhere, if_true, Option.map_eq_some_iff] at run
    obtain ⟨m', moved, rfl⟩ := run
    have effect := step_effect inv.proc.cpuOk moved
    obtain ⟨pids, ready, off⟩ := effect_line inv.proc.cpuOk holds effect
    refine ⟨⟨roamed.pc, roamed.bufDisk, roamed.free, fun q live => ?_,
      fun q differ before => ready q differ (roamed.keeps q differ before), off⟩,
      effect_cpu holds effect⟩
    -- in `t` the process runs, is inside the driver, or is still ready
    have state : (t.kernel.proc q).state = .running ∨ (t.kernel.proc q).state = .sleeping ∨
        (t.kernel.proc q).state = .runnable := by
      by_cases self : q = p
      · subst self
        exact Or.inl ((inv.proc.cpuOk q).mpr holds)
      · right
        rcases live with same | inside | before
        · exact absurd same self
        · refine inv.proc.inside q (by simpa [holds] using Ne.symm self) ?_
          simpa [roamed.pc, self] using inside
        · exact Or.inr (roamed.keeps q self before)
    refine (pids q ?_ ?_).trans (roamed.line q live)
    · rcases state with h | h | h <;> simp [h]
    · rcases state with h | h | h <;> simp [h]
  · simp [Sys.step, elsewhere] at run

theorem Roamed.pool {wakes : Slot → Slot → Prop} (roamed : Roamed s p t)
    (chosen : firstProc s.kernel = some p) (goes : s.pc p = .outside ∨
      roleOf s.disk (s.pc p) = .done) (waits : (s.kernel.proc c).state = .runnable)
    (differ : c ≠ p)
    (within : ∀ q, s.pc q = .outside → ¬ (s.pool c).ready q → (t.pool c).ready q →
      ∃ p', firstProc s.kernel = some p' ∧ wakes p' q) :
    Pool.Roams 3 wakes (s.pool c) p (t.pool c) := by
  obtain ⟨_, least⟩ := firstProc_some.mp chosen
  have ahead : Before s.kernel p c := least c waits differ
  have last : (t.kernel.proc c).pid = (s.kernel.proc c).pid :=
    roamed.line c (Or.inr (Or.inr waits))
  refine ⟨?_, ?_, fun h => roamed.off h.1, ?_, ?_⟩
  · rw [pool_role ahead]
    exact goes.imp (fun outside => by simp [outside, roleOf]) id
  · funext q
    by_cases self : q = p
    · subst self
      rw [Function.update_self]
      exact pool_outside (by simp [roamed.pc])
    · rw [Function.update_of_ne self]
      have place : t.pc q = s.pc q := by simp [roamed.pc, self]
      by_cases outside : s.pc q = .outside
      · rw [pool_outside outside, pool_outside (place.trans outside)]
      · have own := roamed.line q (Or.inr (Or.inl outside))
        simp only [Sys.pool, before_congr own last, place]
        congr 1
        cases s.pc q <;> simp [roleOf, roamed.bufDisk]
  · intro q ready
    by_cases before : (s.pool c).ready q
    · exact Or.inl before
    · right
      by_cases outside : s.pc q = .outside
      · obtain ⟨p', first, woken⟩ := within q outside before ready
        rw [chosen, Option.some.injEq] at first
        exact Or.inr (first ▸ woken)
      · left
        have own := roamed.line q (Or.inr (Or.inl outside))
        rw [pool_role ((before_congr own last).mp ready.2)]
        exact roleOf_inside outside
  · rw [pool_role ahead]
    exact roamed.free

/-! ## Inside the driver -/

theorem wakeWaiters_ready {k : Kernel} {q : Slot} (differ : q ≠ p) :
    ((wakeWaiters p k).proc q).state = .runnable ↔ (k.proc q).state = .runnable ∨
      ((k.proc q).state = .sleeping ∧ (k.proc q).chan = some .diskFree) := by
  by_cases hit : some q ≠ some p ∧ (k.proc q).state = .sleeping ∧
      (k.proc q).chan = some .diskFree
  · simp [wakeWaiters, wakeup, hit.2, differ]
  · simp only [wakeWaiters, wakeup, if_neg hit]
    simp only [ne_eq, Option.some.injEq, differ, not_false_eq_true, true_and] at hit
    simp [hit]

theorem sleepAt_state {chan : Chan} {place : DrvPc} {k : Kernel} {d : VDisk} {q : Slot}
    (differ : q ≠ p) :
    ((t.sleepAt p chan place k d).kernel.proc q).state = (k.proc q).state := by
  simp [Sys.sleepAt, sleep, differ]

theorem sleepAt_off {chan : Chan} {place : DrvPc} {k : Kernel} {d : VDisk} :
    ((t.sleepAt p chan place k d).kernel.proc p).state ≠ .runnable := by
  simp [Sys.sleepAt, sleep]

theorem sleepAt_pid {chan : Chan} {place : DrvPc} {k : Kernel} {d : VDisk} (q : Slot) :
    ((t.sleepAt p chan place k d).kernel.proc q).pid = (k.proc q).pid := by
  by_cases self : q = p
  · subst self
    simp [Sys.sleepAt, sleep]
  · simp [Sys.sleepAt, sleep, self]

theorem pool_update {place : DrvPc} {d : VDisk} {k : Kernel} {chan : Chan}
    (pids : ∀ q, (k.proc q).pid = (t.kernel.proc q).pid) (ahead : Before t.kernel p c)
    (kept : ∀ q, q ≠ p → roleOf d (t.pc q) = roleOf t.disk (t.pc q)) :
    ((t.sleepAt p chan place k d).pool c).role =
      Function.update (t.pool c).role p (roleOf d place) := by
  have order : ∀ q, Before (t.sleepAt p chan place k d).kernel q c ↔ Before t.kernel q c :=
    fun q => before_congr ((sleepAt_pid q).trans (pids q)) ((sleepAt_pid c).trans (pids c))
  funext q
  by_cases self : q = p
  · subst self
    rw [Function.update_self, pool_role ((order q).mpr ahead)]
    simp [Sys.sleepAt]
  · rw [Function.update_of_ne self]
    simp only [Sys.pool, order q]
    congr 1
    simpa [Sys.sleepAt, self] using kept q self

theorem roleOf_submit {req : Request} {i0 i1 i2 : DescIdx} {d : VDisk} {place : DrvPc}
    (other : place.buffer ≠ some req.b) :
    roleOf (submit req i0 i1 i2 d) place = roleOf d place := by
  cases place with
  | outside => rfl
  | allocWait req' => rfl
  | diskWait b j0 j1 j2 =>
      have differ : b ≠ req.b := by simpa [DrvPc.buffer] using other
      simp [roleOf, submit, differ]

theorem askDescs_line {req : Request} (run : t.askDescs p req = some t') :
    t'.cpu = none ∧ (∀ q, (t'.kernel.proc q).pid = (t.kernel.proc q).pid) ∧
      ∀ q, q ≠ p → (t.kernel.proc q).state = .runnable → (t'.kernel.proc q).state = .runnable := by
  rcases askDescs_cases t p req with ⟨_, out⟩ | ⟨_, i0, i1, i2, _, _, out⟩
  · rw [out, Option.some.injEq] at run
    subst run
    have woken : WakesOnly t.kernel
        (if t.disk.nfree = 0 then t.kernel else wakeWaiters p t.kernel) := by
      split
      · exact WakesOnly.refl _
      · exact wakeWaiters_wakesOnly p _
    refine ⟨rfl, fun q => (sleepAt_pid q).trans (woken.pid q), fun q differ ready => ?_⟩
    rw [sleepAt_state differ]
    exact woken.runnable q ready
  · rw [out, Option.some.injEq] at run
    subst run
    refine ⟨rfl, fun q => sleepAt_pid q, fun q differ ready => ?_⟩
    rw [sleepAt_state differ]
    exact ready

theorem askDescs_pool {req : Request} (proc : ProcInv t.kernel (some p) t.pc)
    (ahead : Before t.kernel p c) (buffer : ∀ q, q ≠ p → (t.pc q).buffer ≠ some req.b)
    (run : t.askDescs p req = some t') : Pool.Asks 3 (t.pool c) p (t'.pool c) := by
  obtain ⟨_, pids, _⟩ := askDescs_line run
  have order : ∀ q, Before t'.kernel q c ↔ Before t.kernel q c :=
    fun q => before_congr (pids q) (pids c)
  rcases askDescs_cases t p req with ⟨short, out⟩ | ⟨enough, i0, i1, i2, nodup, free, out⟩
  · rw [out, Option.some.injEq] at run
    subst run
    have waitersOnly : ∀ q, q ≠ p →
        (((if t.disk.nfree = 0 then t.kernel else wakeWaiters p t.kernel).proc q).state =
            .runnable) →
          (t.kernel.proc q).state = .runnable ∨
            ((t.kernel.proc q).state = .sleeping ∧ (t.kernel.proc q).chan = some .diskFree) := by
      intro q differ ready
      split at ready
      · exact Or.inl ready
      · exact (wakeWaiters_ready differ).mp ready
    refine .fails short ?_ (fun h => sleepAt_off h.1) ?_ rfl
    · refine pool_update (fun q => ?_) ahead fun q _ => by cases t.pc q <;> rfl
      split
      · rfl
      · exact (wakeWaiters_wakesOnly p _).pid q
    · intro q ready
      have differ : q ≠ p := fun self => sleepAt_off (self ▸ ready.1)
      have front := (order q).mp ready.2
      rw [show (t.pool c).role q = roleOf t.disk (t.pc q) from pool_role front]
      have state := ready.1
      rw [sleepAt_state differ] at state
      rcases waitersOnly q differ state with before | ⟨asleep, chan⟩
      · exact Or.inl ⟨before, front⟩
      · obtain ⟨req', place⟩ := proc.asleep q asleep chan
        exact Or.inr (by simp [place, roleOf])
  · rw [out, Option.some.injEq] at run
    subst run
    refine .takes enough ?_ (fun h => sleepAt_off h.1) ?_ (nfree_grab nodup free)
    · have pending : roleOf (submit req i0 i1 i2 (t.disk.grab [i0, i1, i2]))
          (.diskWait req.b i0 i1 i2) = .pending := by simp [roleOf, submit]
      rw [← pending]
      refine pool_update (fun _ => rfl) ahead fun q differ => ?_
      rw [roleOf_submit (buffer q differ)]
      cases t.pc q <;> rfl
    · intro q ready
      have differ : q ≠ p := fun self => sleepAt_off (self ▸ ready.1)
      have state := ready.1
      rw [sleepAt_state differ] at state
      exact ⟨state, (order q).mp ready.2⟩

/-! ## A turn -/

theorem step_idle {e : SysEvent} (idle : t.cpu = none) (own : ByProcess e = true) :
    t.step e = none := by
  cases e with
  | proc e =>
      cases e <;> first
        | (simp [ByProcess] at own; done)
        | simp [Sys.step, Process.step, byRunning, Sys.machine, idle]
  | rw req => simp [Sys.step, idle]
  | dispatch => simp [ByProcess] at own
  | take => simp [ByProcess] at own
  | answer id status => simp [ByProcess] at own
  | intr => simp [ByProcess] at own

theorem exec_idle {acts : List SysEvent} (idle : t.cpu = none) (own : acts.all ByProcess = true)
    (run : exec Sys.step t acts = some s') : s' = t := by
  cases acts with
  | nil => exact (Option.some.inj run).symm
  | cons e rest =>
      simp only [List.all_cons, Bool.and_eq_true] at own
      simp [exec, step_idle idle own.1] at run

/-- The operations of a process up to the one that gives up the CPU: all of them are
outside the driver, or the last asks for descriptors. -/
theorem roamed_exec {acts : List SysEvent} (roamed : Roamed s p t) (inv : SysInv t)
    (holds : t.cpu = some p) (own : acts.all ByProcess = true)
    (run : exec Sys.step t acts = some s') (gone : s'.cpu = none) : SysInv s' ∧
      (Roamed s p s' ∨ ∃ mid req, Roamed s p mid ∧ SysInv mid ∧ mid.cpu = some p ∧
        mid.bufferFree req.b ∧ mid.askDescs p req = some s') := by
  induction acts generalizing t with
  | nil =>
      rw [← Option.some.inj run, holds] at gone
      cases gone
  | cons e rest ih =>
      simp only [List.all_cons, Bool.and_eq_true] at own
      cases stepped : t.step e with
      | none => simp [exec, stepped] at run
      | some t1 =>
          simp only [exec, stepped] at run
          have inv' := sysInv_step inv stepped
          cases e with
          | proc e =>
              obtain ⟨later, idle | holds'⟩ := roamed.step inv holds stepped
              · have same := exec_idle idle own.2 run
                subst same
                exact ⟨inv', Or.inl later⟩
              · exact ih later inv' holds' own.2 run
          | rw req =>
              simp only [Sys.step, holds] at stepped
              split at stepped
              · rename_i buffer
                have same := exec_idle (askDescs_line stepped).1 own.2 run
                subst same
                exact ⟨inv', Or.inr ⟨t, req, roamed, inv, holds, buffer, stepped⟩⟩
              · cases stepped
          | dispatch => simp [ByProcess] at own
          | take => simp [ByProcess] at own
          | answer id status => simp [ByProcess] at own
          | intr => simp [ByProcess] at own

theorem given_pid (q : Slot) : ((s.given p).kernel.proc q).pid = (s.kernel.proc q).pid := by
  by_cases self : q = p
  · subst self
    simp [Sys.given]
  · simp [Sys.given, self]

theorem given_state {q : Slot} (differ : q ≠ p) :
    ((s.given p).kernel.proc q).state = (s.kernel.proc q).state := by
  simp [Sys.given, differ]

theorem given_running : ((s.given p).kernel.proc p).state = .running := by
  simp [Sys.given]

theorem dispatch_roamed (inv : SysInv s) (free : s.cpu = none)
    (chosen : firstProc s.kernel = some p) (run : s.dispatch = some t) :
    (s.pc p = .outside ∨ roleOf s.disk (s.pc p) = .done) ∧ t.cpu = some p ∧ Roamed s p t ∨
    t.cpu = none ∧ (∀ q, q ≠ p → (s.kernel.proc q).state = .runnable →
        (t.kernel.proc q).state = .runnable) ∧
      (∀ q, (t.kernel.proc q).pid = (s.kernel.proc q).pid) ∧
      ((∃ req, s.pc p = .allocWait req ∧ (s.given p).askDescs p req = some t) ∨
        ∃ b i0 i1 i2, s.pc p = .diskWait b i0 i1 i2 ∧ s.disk.bufDisk b = true ∧
          t = (s.given p).sleepAt p (.buf b) (s.pc p) (s.given p).kernel s.disk) := by
  have keeps : ∀ q, q ≠ p → (s.kernel.proc q).state = .runnable →
      ((s.given p).kernel.proc q).state = .runnable :=
    fun q differ ready => (given_state differ).trans ready
  rcases dispatch_cases s free with ⟨none, _⟩ | ⟨p', chosen', out⟩
  · rw [none] at chosen
    cases chosen
  · have same : p' = p := Option.some.inj (chosen'.symm.trans chosen)
    subst same
    rw [out] at run
    cases place : s.pc p' with
    | outside =>
        left
        have stays : (s.given p').resume p' = some (s.given p') := by
          simp [Sys.resume, Sys.given, place]
        rw [stays, Option.some.injEq] at run
        subst run
        refine ⟨Or.inl rfl, rfl, ?_, rfl, ?_, fun q _ => given_pid q, keeps, by simp [given_running]⟩
        · exact (Function.update_eq_self_iff.mpr place.symm).symm
        · rw [if_neg (by simp [place, roleOf])]
          rfl
    | allocWait req =>
        right
        have asks : (s.given p').resume p' = (s.given p').askDescs p' req := by
          simp [Sys.resume, Sys.given, place]
        rw [asks] at run
        obtain ⟨gone, line, ready⟩ := askDescs_line run
        exact ⟨gone, fun q differ before => ready q differ (keeps q differ before),
          fun q => (line q).trans (given_pid q), Or.inl ⟨req, rfl, run⟩⟩
    | diskWait b i0 i1 i2 =>
        have checks : (s.given p').resume p' = (s.given p').checkDone p' b i0 i1 i2 := by
          simp [Sys.resume, Sys.given, place]
        rw [checks] at run
        have chain : Chain (s.given p').disk i0 i1 i2 := inv.desc.chains p' b i0 i1 i2 place
        rcases checkDone_cases (s := s.given p') (p := p') (b := b) chain with
          ⟨busy, shape⟩ | ⟨done, shape⟩
        · right
          rw [shape, Option.some.injEq] at run
          subst run
          refine ⟨rfl, fun q differ ready => ?_, fun q => (sleepAt_pid q).trans (given_pid q),
            Or.inr ⟨b, i0, i1, i2, rfl, busy, rfl⟩⟩
          rw [sleepAt_state differ]
          exact keeps q differ ready
        · left
          rw [shape, Option.some.injEq] at run
          subst run
          have busy : s.disk.bufDisk b = false := done
          have woken := wakeWaiters_wakesOnly p' (s.given p').kernel
          refine ⟨Or.inr (by simp [roleOf, busy]), rfl, rfl, rfl, ?_,
            fun q _ => (woken.pid q).trans (given_pid q),
            fun q differ ready => woken.runnable q (keeps q differ ready), ?_⟩
          · rw [place, if_pos (by simp [roleOf, busy])]
            exact nfree_releaseAll chain.nodup chain.taken
          · simp [wakeWaiters, wakeup, given_running]

theorem turn_cases {acts : List SysEvent} (run : s.turn acts = some s') :
    s.cpu = none ∧ s'.cpu = none ∧ acts.all ByProcess = true ∧
      ∃ t, s.dispatch = some t ∧ exec Sys.step t acts = some s' := by
  have free : s.cpu = none := by
    by_contra busy
    simp [Sys.turn, Sys.dispatch, busy] at run
  cases dispatched : s.dispatch with
  | none => simp [Sys.turn, dispatched] at run
  | some t =>
      by_cases own : acts.all ByProcess = true
      · simp only [Sys.turn, dispatched, own, if_true] at run
        cases ended : exec Sys.step t acts with
        | none => simp [ended] at run
        | some u =>
            simp only [ended] at run
            split at run
            · rename_i gone
              rw [Option.some.injEq] at run
              subst run
              exact ⟨free, gone, own, t, rfl, ended⟩
            · cases run
      · simp [Sys.turn, dispatched, own] at run

theorem turn_pool {acts : List SysEvent} {wakes : Slot → Slot → Prop} (inv : SysInv s)
    (waits : (s.kernel.proc c).state = .runnable) (chosen : firstProc s.kernel = some p)
    (differ : c ≠ p) (within : s.WakesWithin wakes c s') (run : s.turn acts = some s') :
    SysInv s' ∧ (s'.kernel.proc c).state = .runnable ∧
      Pool.Turn 3 wakes (s.pool c) p (s'.pool c) := by
  obtain ⟨free, gone, own, t, dispatched, ended⟩ := turn_cases run
  obtain ⟨_, least⟩ := firstProc_some.mp chosen
  have ahead : Before s.kernel p c := least c waits differ
  have inv' := sysInv_dispatch inv dispatched
  rcases dispatch_roamed inv free chosen dispatched with ⟨goes, holds, roamed⟩ |
    ⟨idle, keeps, pids, shape⟩
  · obtain ⟨final, stays | ⟨mid, req, roamed', inv'', holds', buffer, asks⟩⟩ :=
      roamed_exec roamed inv' holds own ended gone
    · exact ⟨final, stays.keeps c differ waits,
        .stays (stays.pool chosen goes waits differ within)⟩
    · obtain ⟨_, line, ready⟩ := askDescs_line asks
      have order : ∀ q, Before s'.kernel q c ↔ Before mid.kernel q c :=
        fun q => before_congr (line q) (line c)
      refine ⟨final, ready c differ (roamed'.keeps c differ waits),
        .enters (mid.pool c) (roamed'.pool chosen goes waits differ ?_) ?_⟩
      · intro q outside before after
        have other : q ≠ p := fun self => roamed'.off (self ▸ after.1)
        exact within q outside before ⟨ready q other after.1, (order q).mpr after.2⟩
      · have proc := inv''.proc
        rw [holds'] at proc
        refine askDescs_pool proc ?_ (fun q _ => buffer q) asks
        refine (before_congr (roamed'.line p (Or.inl rfl)) ?_).mpr ahead
        exact roamed'.line c (Or.inr (Or.inr waits))
  · have same := exec_idle idle own ended
    subst same
    have order : ∀ q, Before s'.kernel q c ↔ Before s.kernel q c :=
      fun q => before_congr (pids q) (pids c)
    refine ⟨inv', keeps c differ waits, ?_⟩
    rcases shape with ⟨req, place, asks⟩ | ⟨b, i0, i1, i2, place, busy, shape⟩
    · have given : ∀ q, Before (s.given p).kernel q c ↔ Before s.kernel q c :=
        fun q => before_congr (given_pid q) (given_pid c)
      refine .retries (by simp [pool_role ahead, place, roleOf]) ?_
      have proc := sysInv_given inv free chosen
      have other : ∀ q, q ≠ p → ((s.given p).pc q).buffer ≠ some req.b := by
        intro q differ'
        exact inv.desc.bufs p q req.b (Ne.symm differ') (by simp [place, DrvPc.buffer])
      refine (askDescs_pool proc ((given p).mpr ahead) other asks).of_le ?_ ?_ rfl
      · funext q
        simp only [Sys.pool, given q]
        rfl
      · intro q ready
        have self : q ≠ p := by
          intro same
          have state := ready.1
          rw [same, given_running] at state
          cases state
        exact ⟨(given_state self).symm.trans ready.1, (given q).mp ready.2⟩
    · subst shape
      refine .rests ?_ ?_ (fun h => sleepAt_off h.1) ?_ rfl
      · rw [pool_role ahead, place]
        simp [roleOf, busy]
      · funext q
        have still : ((s.given p).sleepAt p (.buf b) (s.pc p) (s.given p).kernel s.disk).pc q =
            s.pc q := by
          simp [Sys.sleepAt, Sys.given]
        simp only [Sys.pool, order q, still]
        rfl
      · intro q ready
        have self : q ≠ p := fun same => sleepAt_off (same ▸ ready.1)
        have state := ready.1
        rw [sleepAt_state self, given_state self] at state
        exact ⟨state, (order q).mp ready.2⟩

end Turn

/-! ## The law -/

section Law
variable {wakes : Slot → Slot → Prop} {c : Slot}

/-- What holds along a dispatch sequence until `c` is dispatched. -/
structure Waits (wakes : Slot → Slot → Prop) (c : Slot) (s : Sys) : Prop where
  inv : SysInv s
  ready : (s.kernel.proc c).state = .runnable
  calm : ¬ s.Livelock wakes c

variable [IsStrictOrder Slot wakes]

/-- A turn of another process keeps these facts and decreases the measure. -/
theorem waits_turn {s s' : Sys} {acts : List SysEvent} (waits : Waits wakes c s)
    (other : firstProc s.kernel ≠ some c) (within : s.WakesWithin wakes c s')
    (run : s.turn acts = some s') :
    Waits wakes c s' ∧ (s'.pool c).measure wakes < (s.pool c).measure wakes := by
  cases chosen : firstProc s.kernel with
  | none => exact absurd waits.ready (firstProc_none.mp chosen c)
  | some p =>
      have differ : c ≠ p := fun same => other (same ▸ chosen)
      obtain ⟨ready, least⟩ := firstProc_some.mp chosen
      have runs : (s.pool c).ready p := ⟨ready, least c waits.ready differ⟩
      obtain ⟨inv, still, turn⟩ := turn_pool waits.inv waits.ready chosen differ within run
      exact ⟨⟨inv, still, Pool.calm_turn waits.calm runs turn⟩,
        Pool.measure_turn waits.calm runs turn⟩

variable {r : Run Sys.turn} {j : Nat}

theorem run_waits (start : Waits wakes c (r.state 0)) (bound : j ≤ r.len)
    (other : ∀ n, n < j → firstProc (r.state n).kernel ≠ some c)
    (within : ∀ n, n < r.len → (r.state n).WakesWithin wakes c (r.state (n + 1))) :
    ∀ n, n ≤ j → Waits wakes c (r.state n) := by
  intro n
  induction n with
  | zero => intro _; exact start
  | succ n ih =>
      intro upTo
      exact (waits_turn (ih (by omega)) (other n (by omega)) (within n (by omega))
        (r.next n (by omega))).1

theorem run_measure (start : Waits wakes c (r.state 0)) (bound : j ≤ r.len)
    (other : ∀ n, n < j → firstProc (r.state n).kernel ≠ some c)
    (within : ∀ n, n < r.len → (r.state n).WakesWithin wakes c (r.state (n + 1))) {i : Nat} :
    ∀ n, i < n → n ≤ j →
      ((r.state n).pool c).measure wakes < ((r.state i).pool c).measure wakes := by
  intro n
  induction n with
  | zero => intro above; omega
  | succ n ih =>
      intro above upTo
      have waits := run_waits start bound other within n (by omega)
      have step := (waits_turn waits (other n (by omega)) (within n (by omega))
        (r.next n (by omega))).2
      rcases Nat.lt_or_ge i n with below | edge
      · exact lt_trans step (ih below (by omega))
      · have edge : i = n := by omega
        subst edge
        exact step

end Law

/-- From every reachable state without the livelock condition no dispatch sequence
repeats a state before the completed process is dispatched, if the processes outside
the driver do not wake each other in a circle. -/
theorem neverRepeats_of_calm (r : Run Sys.step) (start : r.state 0 = Sys.boot) (t : Nat)
    (within : t ≤ r.len) (c : Slot) (completed : (r.state t).Completed c)
    (wakes : Slot → Slot → Prop) [IsStrictOrder Slot wakes]
    (calm : ¬ (r.state t).Livelock wakes c) (turns : Run Sys.turn)
    (first : turns.state 0 = r.state t)
    (orderly : ∀ n, n < turns.len →
      (turns.state n).WakesWithin wakes c (turns.state (n + 1))) : NeverRepeats turns c := by
  intro i j order bound other same
  have waits : Waits wakes c (turns.state 0) := by
    rw [first]
    exact ⟨run_sysInv r start t within, completed.1, calm⟩
  have smaller := run_measure waits bound other orderly j order (Nat.le_refl j)
  rw [same] at smaller
  exact lt_irrefl _ smaller

/-- Child 2 sleeps elsewhere and child 3 on the clock while child 4 reads a block; the
clock wakes child 3, and the device completes the request of child 4. -/
def oneSleeper : Run Sys.step :=
  let mem : ForkMem := ⟨some 1, some 2, true⟩
  Run.ofEvents Sys.step Sys.boot
    [.proc (.userinit mem 1), .dispatch, .proc (.kfork mem), .proc (.kfork mem),
      .proc (.kfork mem), .proc (.sleep (.other 0)), .dispatch, .proc (.sleep (.other 7)),
      .dispatch, .proc (.sleep .ticks), .dispatch, .rw ⟨0, 40, false⟩, .proc .timer,
      .take, .answer 0 0, .intr] .take (by decide +kernel)

/-- Child 3 wakes child 2 and reads a block; child 2 finds too few descriptors. -/
def handOver : Run Sys.turn :=
  Run.ofEvents Sys.turn (oneSleeper.state 16)
    [[.proc (.wakeup (.other 7)), .rw ⟨2, 42, false⟩], [.rw ⟨3, 43, false⟩]] []
    (by decide +kernel)

def wakesTwo (p q : Slot) : Prop := p = 2 ∧ q = 1

theorem handOver_neverRepeats :
    (oneSleeper.state 16).Completed 3 ∧ NeverRepeats handOver 3 := by
  have reached : ((oneSleeper.state 16).kernel.proc 3).state = .runnable ∧
      (oneSleeper.state 16).pc 3 = .diskWait 0 0 1 2 ∧
      (oneSleeper.state 16).disk.bufDisk 0 = false ∧ (oneSleeper.state 16).disk.nfree = 5 ∧
      (∀ q, roleOf (oneSleeper.state 16).disk ((oneSleeper.state 16).pc q) ≠ .waiting ∧
        (((oneSleeper.state 16).kernel.proc q).state = .runnable → q = 2 ∨ q = 3)) ∧
      ∀ n : Fin 2, ∀ q, (((handOver.state n).kernel.proc q).state = .runnable ∧
          Before (handOver.state n).kernel q 3) ∨ (handOver.state n).pc q ≠ .outside ∨
        ((handOver.state (n + 1)).kernel.proc q).state ≠ .runnable ∨
          (firstProc (handOver.state n).kernel = some 2 ∧ q = 1) := by decide +kernel
  obtain ⟨ready, place, done, free, only, wakes⟩ := reached
  have completed : (oneSleeper.state 16).Completed 3 := ⟨ready, 0, 0, 1, 2, place, done⟩
  have order : IsStrictOrder Slot wakesTwo :=
    { irrefl := fun p both => absurd (both.1.symm.trans both.2) (by decide)
      trans := fun p q q' first second => ⟨first.1, second.2⟩ }
  refine ⟨completed, neverRepeats_of_calm oneSleeper rfl 16 (by decide) 3 completed wakesTwo ?_
    handOver rfl ?_⟩
  · -- child 3 is awake and child 2 will be woken, and there are descriptors for one of them
    have few : (((oneSleeper.state 16).pool 3).contenders wakesTwo).ncard ≤
        ({1, 2} : Set Slot).ncard := by
      refine Set.ncard_le_ncard ?_ (Set.toFinite _)
      rintro q (waits | ⟨_, awake, ahead⟩ | ⟨_, p, _, woken⟩)
      · by_cases ahead : Before (oneSleeper.state 16).kernel q 3
        · exact absurd ((pool_role ahead).symm.trans waits) (only q).1
        · simp [Sys.pool, ahead] at waits
      · rcases (only q).2 awake with two | three
        · exact Or.inr two
        · exact absurd (three ▸ ahead) (Precedes.irrefl _)
      · exact Or.inl woken
    rw [Set.ncard_pair (by decide)] at few
    have enough : ((oneSleeper.state 16).pool 3).free = 5 := free
    rintro ⟨_, two, three⟩
    omega
  · intro n inside q outside before after
    rcases wakes ⟨n, inside⟩ q with awake | elsewhere | asleep | ⟨runs, woken⟩
    · exact absurd awake before
    · exact absurd outside elsewhere
    · exact absurd after.1 asleep
    · exact ⟨2, runs, rfl, woken⟩

/-- Children 2 and 3 both wait for descriptors when the device completes the request
of child 4; child 5 has a request under way. -/
def twoWaiters : Run Sys.step :=
  let mem : ForkMem := ⟨some 1, some 2, true⟩
  Run.ofEvents Sys.step Sys.boot
    [.proc (.userinit mem 1), .dispatch, .proc (.kfork mem), .proc (.kfork mem),
      .proc (.kfork mem), .proc (.kfork mem), .proc (.sleep (.other 0)),
      .dispatch, .proc (.sleep .ticks), .dispatch, .proc (.sleep .ticks),
      .dispatch, .rw ⟨0, 40, false⟩, .dispatch, .rw ⟨1, 41, false⟩, .proc .timer,
      .dispatch, .rw ⟨2, 42, false⟩, .dispatch, .rw ⟨3, 43, false⟩,
      .take, .answer 0 0, .intr] .take (by decide +kernel)

def pingPong : Run Sys.turn :=
  Run.ofEvents Sys.turn (twoWaiters.state 23) [[], []] [] (by decide +kernel)

/-- Children 2 and 3 wake each other, and child 4 never returns its descriptors. -/
theorem twoWaiters_livelock : twoWaiters.state 0 = Sys.boot ∧
    (twoWaiters.state 23).Completed 3 ∧ pingPong.state 0 = twoWaiters.state 23 ∧
      ¬ NeverRepeats pingPong 3 := by
  have reached : ((twoWaiters.state 23).kernel.proc 3).state = .runnable ∧
      (twoWaiters.state 23).pc 3 = .diskWait 0 0 1 2 ∧
      (twoWaiters.state 23).disk.bufDisk 0 = false ∧
      ∀ n, n < 2 → firstProc (pingPong.state n).kernel ≠ some 3 := by decide +kernel
  obtain ⟨ready, waits, done, passed⟩ := reached
  refine ⟨rfl, ⟨ready, 0, 0, 1, 2, waits, done⟩, rfl, ?_⟩
  intro never
  have back : pingPong.state 0 = pingPong.state 2 := by
    rw [Sys.ext_iff, Kernel.ext_iff, VDisk.ext_iff]
    decide +kernel
  exact never 0 2 (by decide) (by decide) passed back

end Xv6Fcfs.Disk
