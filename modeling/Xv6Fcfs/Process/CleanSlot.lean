import Xv6Fcfs.Process.Fcfs

/-!
# Free slots are clean

`allocproc` fills in only part of a slot and relies on the rest being zero.
`freeproc` and `kexit` see to that between them, but `kkill` compares pids without
looking at the state, and a free slot has pid 0: `kill(0)` marks the first free
slot as killed, and the next process created there starts out killed.
-/

set_option autoImplicit false

namespace Xv6Fcfs.Process

open Xv6Fcfs.Lib

def NoFiles (q : Proc) : Prop := q.cwd = none ∧ ∀ i, q.ofile i = none

def Clean (q : Proc) : Prop :=
  q.pid = 0 ∧ q.killed = false ∧ q.chan = none ∧ q.xstate = 0 ∧ q.parent = none ∧
    q.sz = 0 ∧ q.pagetable = none ∧ q.trapframe = none ∧ NoFiles q

/-- Free slots are clean, and zombies hold no files, since `freeproc` will not
take them away. -/
def SlotOk (q : Proc) : Prop :=
  (q.state = .unused → Clean q) ∧ (q.state = .zombie → NoFiles q)

/-- `kill(pid)` cannot hit a free slot: they have pid 0. -/
def KillOk (k : Kernel) (pid : Int) : Prop :=
  pid ≠ 0 ∨ ∀ q, (k.proc q).state ≠ .unused

def EventOk (m : Machine) : Event → Prop
  | .kkill pid => KillOk m.kernel pid
  | _ => True

section Step
variable {m m' : Machine} {e : Event}

/-- A slot whose state and files a step leaves alone stays in order unless it is
free. -/
theorem slotOk_live {q : Proc} (live : q.state ≠ .unused) (ended : q.state ≠ .zombie) :
    SlotOk q :=
  ⟨fun unused => absurd unused live, fun zombie => absurd zombie ended⟩

theorem slotOk_freeproc {k : Kernel} {np : Slot} (files : NoFiles (k.proc np)) :
    SlotOk ((freeproc np k).proc np) := by
  refine ⟨fun _ => ?_, fun zombie => ?_⟩
  · simpa [freeproc, Clean, NoFiles] using files
  · simp [freeproc] at zombie

theorem slotOk_effect (clean : ∀ q, SlotOk (m.kernel.proc q))
    (good : EventOk m e) (effect : Effect m e m') : ∀ q, SlotOk (m'.kernel.proc q) := by
  intro q
  have before := clean q
  cases effect with
  | idle e k' quiet wakes =>
      rcases wakes.proc q with same | ⟨_, woken⟩
      · simpa only [same] using before
      · simp only [woken]
        exact slotOk_live (by simp) (by simp)
  | booted mem rootInode np first free =>
      by_cases same : q = np
      · subst same
        exact slotOk_live (by simp [firstProcess]) (by simp [firstProcess])
      · simpa [same] using before
  | forkFailed mem p np running free =>
      by_cases same : q = np
      · subst same
        exact slotOk_freeproc (before.1 (unusedSlot_some free)).2.2.2.2.2.2.2.2
      · simpa [same, freeproc] using before
  | forked mem p np running free =>
      by_cases same : q = np
      · subst same
        exact slotOk_live (by simp [forkChild]) (by simp [forkChild])
      · simpa [same] using before
  | exited status p k' running notInit exit =>
      by_cases same : q = p
      · subst same
        refine ⟨fun unused => ?_, fun _ => ?_⟩
        · simp [exit.caller] at unused
        · simp [exit.caller, closeFiles, NoFiles]
      · obtain ⟨s, shape, moved⟩ := exit.others q same
        simp only [Kernel.setProc_other _ _ _ _ same] at shape moved
        simp only [shape]
        rcases moved with kept | ⟨_, ready⟩
        · refine ⟨fun unused => ?_, fun zombie => ?_⟩
          · have cl := before.1 (kept.symm.trans unused)
            have orphan : (m.kernel.proc q).parent ≠ some p := by simp [cl.2.2.2.2.1]
            simpa only [Clean, NoFiles, if_neg orphan] using cl
          · exact before.2 (kept.symm.trans zombie)
        · exact slotOk_live (by simp [ready]) (by simp [ready])
  | reaped p pp running found =>
      by_cases same : q = pp
      · subst same
        exact slotOk_freeproc (before.2 (zombieChild_some found).2)
      · simpa [same, freeproc] using before
  | slept e p chan running calls =>
      by_cases same : q = p
      · subst same
        exact slotOk_live (by simp [sleep]) (by simp [sleep])
      · simpa [same, sleep] using before
  | killed pid p pp running found =>
      simp only [kkill_proc found]
      by_cases same : q = pp
      · subst same
        have hit : (m.kernel.proc q).pid = pid := by simpa using firstIdx_some found
        have live : (m.kernel.proc q).state ≠ .unused := by
          intro unused
          rcases good with nonzero | full
          · exact nonzero (hit.symm.trans (before.1 unused).1)
          · exact full q unused
        simp only [if_true]
        by_cases asleep : (m.kernel.proc q).state = .sleeping
        · exact slotOk_live (by simp [asleep]) (by simp [asleep])
        · exact ⟨fun unused => absurd (by simpa [asleep] using unused) live,
            fun zombie => before.2 (by simpa [asleep] using zombie)⟩
      · simpa only [if_neg same] using before
  | dispatched p free chosen =>
      by_cases same : q = p
      · subst same
        exact slotOk_live (by simp) (by simp)
      · simpa [same] using before

end Step

/-! ## Along a run -/

/-- Every `kill` of the run is given a nonzero pid, or finds the table full. -/
def KillsOk (r : Run step) : Prop :=
  ∀ i pid, i < r.len → r.event i = .kkill pid → KillOk (r.state i).kernel pid

/-- What free slots, pids, new processes and `kill` are supposed to look like. -/
structure CleanLaw (r : Run step) : Prop where
  clean : ∀ i q, i ≤ r.len → ((r.state i).kernel.proc q).state = .unused →
    Clean ((r.state i).kernel.proc q)
  nonzero : ∀ i q, i ≤ r.len → ((r.state i).kernel.proc q).state ≠ .unused →
    ((r.state i).kernel.proc q).pid ≠ 0
  distinct : ∀ i p q, i ≤ r.len → ((r.state i).kernel.proc p).state ≠ .unused →
    ((r.state i).kernel.proc q).state ≠ .unused →
    ((r.state i).kernel.proc p).pid = ((r.state i).kernel.proc q).pid → p = q
  newborn : ∀ i p pid, Forks r i p pid → ((r.state (i + 1)).kernel.proc p).killed = false
  victim : ∀ i pid q, i < r.len → r.event i = .kkill pid →
    (r.state (i + 1)).kernel.proc q ≠ (r.state i).kernel.proc q →
    ((r.state i).kernel.proc q).state ≠ .unused ∧ ((r.state i).kernel.proc q).pid = pid

section Runs
variable {r : Run step}

theorem run_slotOk (start : r.state 0 = boot) (kills : KillsOk r) :
    ∀ i, i ≤ r.len → ∀ q, SlotOk ((r.state i).kernel.proc q) := by
  have both : ∀ i, i ≤ r.len →
      CpuOk (r.state i) ∧ ∀ q, SlotOk ((r.state i).kernel.proc q) := by
    apply r.invariant_of EventOk (fun m => CpuOk m ∧ ∀ q, SlotOk (m.kernel.proc q))
    · rw [start]
      refine ⟨boot_cpuOk, fun q => ⟨fun _ => ?_, fun zombie => ?_⟩⟩
      · simp [boot, procinit, Proc.zero, Clean, NoFiles]
      · simp [boot, procinit, Proc.zero] at zombie
    · intro m e m' run good inv
      exact ⟨cpuOk_step inv.1 run, slotOk_effect inv.2 good (step_effect inv.1 run)⟩
    · intro i inside
      cases event : r.event i with
      | kkill pid => exact kills i pid inside event
      | _ => trivial
  exact fun i within => (both i within).2

theorem newborn_clean (start : r.state 0 = boot) (kills : KillsOk r) {i : Nat} {p : Slot}
    {pid : Int} (forks : Forks r i p pid) :
    ((r.state (i + 1)).kernel.proc p).killed = false := by
  obtain ⟨inside, ⟨mem, event⟩, unused, ready, _⟩ := forks
  have clean := (run_slotOk start kills i (by omega) p).1 unused
  have effect := run_effect r start inside
  rw [event] at effect
  generalize r.state (i + 1) = m' at effect ready
  cases effect with
  | idle e k' quiet wakes =>
      have := (wakes.state_iff p .unused (by simp) (by simp)).mpr unused
      simp [this] at ready
  | forkFailed mem q np running free =>
      by_cases same : p = np
      · subst same
        simp [freeproc] at ready
      · simp [same, freeproc, unused] at ready
  | forked mem q np running free =>
      by_cases same : p = np
      · subst same
        simpa [forkChild] using clean.2.1
      · simp [same, unused] at ready
  | slept e q chan running calls =>
      rcases calls with h | ⟨⟨copied, h, _⟩, _⟩ <;> cases h

theorem kkill_victim {k : Kernel} {pid : Int} {q : Slot} (clean : ∀ q, SlotOk (k.proc q))
    (good : KillOk k pid) (changed : (kkill pid k).2.proc q ≠ k.proc q) :
    (k.proc q).state ≠ .unused ∧ (k.proc q).pid = pid := by
  cases found : firstIdx (fun q => decide ((k.proc q).pid = pid)) with
  | none => simp [kkill, found] at changed
  | some pp =>
      have hit : (k.proc pp).pid = pid := by simpa using firstIdx_some found
      rw [kkill_proc found] at changed
      by_cases same : q = pp
      · subst same
        refine ⟨fun unused => ?_, hit⟩
        rcases good with nonzero | full
        · exact nonzero (hit.symm.trans ((clean q).1 unused).1)
        · exact full q unused
      · simp [same] at changed

theorem kkill_event {i : Nat} {pid : Int} (inside : i < r.len)
    (event : r.event i = .kkill pid) :
    (r.state (i + 1)).kernel = (kkill pid (r.state i).kernel).2 := by
  have run := r.next i inside
  rw [event] at run
  obtain ⟨p, _, made⟩ := byRunning_some run
  rw [← Option.some.inj made]

theorem cleanLaw_of_killsOk (start : r.state 0 = boot) (noOverflow : NoOverflow r)
    (kills : KillsOk r) : CleanLaw r where
  clean := fun i q within unused => (run_slotOk start kills i within q).1 unused
  nonzero := by
    intro i q within live
    have := (run_pidsOk r start noOverflow i within).range q live
    omega
  distinct := fun i p q within => (run_pidsOk r start noOverflow i within).distinct p q
  newborn := fun i p pid forks => newborn_clean start kills forks
  victim := by
    intro i pid q inside event changed
    rw [kkill_event inside event] at changed
    exact kkill_victim (run_slotOk start kills i (by omega)) (kills i pid inside event) changed

theorem killsOk_of_cleanLaw (law : CleanLaw r) : KillsOk r := by
  intro i pid inside event
  by_contra bad
  simp only [KillOk, not_or, ne_eq, not_not, not_forall] at bad
  obtain ⟨rfl, q, unused⟩ := bad
  have zero := (law.clean i q (by omega) unused).1
  obtain ⟨pp, found⟩ := firstIdx_isSome_of
    (P := fun q => decide (((r.state i).kernel.proc q).pid = 0)) (by simpa using zero)
  have hit : ((r.state i).kernel.proc pp).pid = 0 := by simpa using firstIdx_some found
  have free : ((r.state i).kernel.proc pp).state = .unused := by
    by_contra live
    exact law.nonzero i pp (by omega) live hit
  have after : (r.state (i + 1)).kernel.proc pp =
      { (r.state i).kernel.proc pp with killed := true } := by
    rw [kkill_event inside event, kkill_proc found]
    simp [free]
  have clean := (law.clean (i + 1) pp (by omega) (by simp [after, free])).2.1
  simp [after] at clean

end Runs

/-- Free slots are clean in every run whose kills avoid pid 0; and, before
`nextpid` overflows, the whole law holds of a run exactly when they do. -/
theorem slots_clean_iff (r : Run step) (start : r.state 0 = boot) :
    (KillsOk r → ∀ i q, i ≤ r.len → ((r.state i).kernel.proc q).state = .unused →
      Clean ((r.state i).kernel.proc q)) ∧
    (NoOverflow r → (CleanLaw r ↔ KillsOk r)) :=
  ⟨fun kills i q within unused => (run_slotOk start kills i within q).1 unused,
    fun noOverflow => ⟨killsOk_of_cleanLaw, cleanLaw_of_killsOk start noOverflow⟩⟩

/-- `init` kills a child by its pid and reaps it. -/
def killedChild : Run step :=
  Run.ofEvents step boot
    [.userinit someMem 1, .dispatch, .kfork someMem, .kkill 2, .kwait true, .dispatch, .kexit (-1),
      .dispatch, .kwait true] .timer (by decide +kernel)

theorem killedChild_clean : CleanLaw killedChild := by
  refine ((slots_clean_iff killedChild rfl).2 ?_).mpr ?_
  · intro i within
    have bound : i < 10 := Nat.lt_succ_of_le within
    interval_cases i <;> decide +kernel
  · intro i pid inside event
    have bound : i < 9 := inside
    have only : pid = 2 := by
      interval_cases i <;> cases event
      rfl
    exact Or.inl (by omega)

/-- `init` calls `kill(0)` and then forks. -/
def killedZero : Run step :=
  Run.ofEvents step boot [.userinit someMem 1, .dispatch, .kkill 0, .kfork someMem] .timer
    (by decide +kernel)

/-- The child of `killedZero` is born killed. -/
theorem killedZero_not_clean : killedZero.state 0 = boot ∧ ¬ CleanLaw killedZero := by
  refine ⟨rfl, fun law => ?_⟩
  have forks : Forks killedZero 3 1 2 := ⟨by decide, ⟨someMem, rfl⟩, by decide +kernel⟩
  have := law.newborn 3 1 2 forks
  exact absurd this (by decide +kernel)

end Xv6Fcfs.Process
