import Xv6Fcfs.Log.Atomicity

/-!
# `sys_sync`

A call of `sys_sync` looks at the log once and then waits until `ncommit` has passed the
count it saw.  `ncommit` is an `int`; `LogSys.ncommit` counts the commits since boot, so
the program sees its value in 32 bits.

`done`, the operations recorded in a call and `promised` are not part of the program: they
are the operations that have ended since the machine was started, those that had ended when
the call was made, and those that had ended before some call that has returned.
-/

set_option autoImplicit false

namespace Xv6Fcfs.Log

open Xv6Fcfs.Lib

/-- A value computed in an `int`. -/
def cInt (n : Nat) : Int := s32 (n % 2 ^ 32)

/-- A process in the loop of `sys_sync`: `ncommit` was `count` when it entered. -/
structure SyncCall where
  count : Nat
  ops : List Nat
  deriving DecidableEq

structure SyncWorld where
  world : World
  done : List Nat
  calls : List SyncCall
  promised : List Nat

inductive SyncEvent where
  | log (e : Event)
  | syncStart
  | syncReturn (call : SyncCall)

/-- `log.ncommit < n` with `n` one more than the count on entry.  That sum does not wrap:
signed overflow is undefined, and `kernel.asm` (80003eb8) compares with the count itself. -/
def SyncCall.waits (call : SyncCall) (s : LogSys) : Bool :=
  cInt s.ncommit ≤ cInt call.count

/-- The operations that have ended after an event, a crash ending all of them. -/
def doneAfter (done : List Nat) : Event → List Nat
  | .endOp op => op :: done
  | .crash => []
  | _ => done

def callsAfter (calls : List SyncCall) : Event → List SyncCall
  | .crash => []
  | _ => calls

def syncStep (start : Nat) (w : SyncWorld) : SyncEvent → Option SyncWorld
  | .log e => (step start w.world e).map fun world => { w with
      world := world
      done := doneAfter w.done e
      calls := callsAfter w.calls e }
  | .syncStart =>
      if w.world.sys.usable then
        let call : SyncCall := ⟨w.world.sys.ncommit, w.done⟩
        if (w.world.sys.committing ∨ 0 < w.world.sys.outstanding) ∧ call.waits w.world.sys then
          some { w with calls := call :: w.calls }
        else some { w with promised := w.done ++ w.promised }
      else none
  | .syncReturn call =>
      if call ∈ w.calls ∧ call.waits w.world.sys = false then
        some { w with calls := w.calls.erase call, promised := call.ops ++ w.promised }
      else none

def SyncWorld.ready (disk : Disk) : SyncWorld := ⟨World.ready disk, [], [], []⟩

/-! ## What an event of the log does to the operations -/

section Steps
variable {start : Nat} {disk0 : Disk} {w w' : World} {e : Event} {op : Nat}

def Committed (h : History) (op : Nat) : Prop := ofOp op h.committed.flatten = ofOp op h.issued

/-- Every write of the operation is committed or in the current transaction. -/
def Present (h : History) (op : Nat) : Prop :=
  ofOp op (h.committed.flatten ++ h.current) = ofOp op h.issued

def Over (h : History) (op : Nat) : Prop := op ∉ h.active ∧ op < h.nextOp

theorem step_hist (run : step start w e = some w') :
    match e with
    | .beginOp => w'.hist = { w.hist with
        nextOp := w.hist.nextOp + 1, active := w.hist.nextOp :: w.hist.active }
    | .logWrite op blockno data => op ∈ w.hist.active ∧ w'.hist = { w.hist with
        issued := w.hist.issued ++ [⟨op, blockno, data⟩]
        current := w.hist.current ++ [⟨op, blockno, data⟩] }
    | .endOp op => op ∈ w.hist.active ∧ w'.hist = { w.hist with
        active := w.hist.active.erase op, ended := op :: w.hist.ended }
    | .commit => w'.hist = w.hist ∨ w'.hist = w.hist.commit
    | .crash => w'.hist = w.hist.crash
    | _ => w'.hist = w.hist := by
  cases e with
  | beginOp =>
      simp only [step] at run
      split at run
      · obtain ⟨s', -, rfl⟩ := Option.map_eq_some_iff.mp run
        rfl
      · cases run
  | logWrite op blockno data =>
      simp only [step] at run
      split at run
      · rename_i allowed
        obtain ⟨s', -, rfl⟩ := Option.map_eq_some_iff.mp run
        exact ⟨allowed.1, rfl⟩
      · cases run
  | endOp op =>
      simp only [step] at run
      split at run
      · rename_i active
        obtain ⟨s', -, rfl⟩ := Option.map_eq_some_iff.mp run
        exact ⟨active, rfl⟩
      · cases run
  | commit =>
      obtain ⟨s', -, rfl⟩ := Option.map_eq_some_iff.mp run
      simp only [History.afterCommitStep]
      split
      · split
        · exact Or.inl rfl
        · exact Or.inr rfl
      · exact Or.inl rfl
  | bread b =>
      simp only [step, Option.some.injEq] at run
      subst run
      rfl
  | evict b =>
      simp only [step] at run
      split at run
      · rw [Option.some.injEq] at run
        subst run
        rfl
      · cases run
  | crash =>
      simp only [step, Option.some.injEq] at run
      subst run
      rfl
  | recover =>
      obtain ⟨s', -, rfl⟩ := Option.map_eq_some_iff.mp run
      rfl

theorem step_ncommit (run : step start w e = some w') (alive : e ≠ .crash) :
    w'.sys.ncommit = w.sys.ncommit ∨
      (w'.sys.ncommit = w.sys.ncommit + 1 ∧ w.sys.phase = .finishing ∧ w'.hist = w.hist) := by
  cases e with
  | crash => exact absurd rfl alive
  | beginOp =>
      simp only [step] at run
      split at run
      · obtain ⟨s', made, rfl⟩ := Option.map_eq_some_iff.mp run
        unfold beginOp at made
        split at made
        · cases made
        · split at made
          · cases made
          · obtain rfl := Option.some.inj made
            exact Or.inl rfl
      · cases run
  | logWrite op blockno data =>
      simp only [step] at run
      split at run
      · obtain ⟨s', made, rfl⟩ := Option.map_eq_some_iff.mp run
        simp only [logWrite] at made
        split at made
        · cases made
        · split at made
          · cases made
          · split at made <;> obtain rfl := Option.some.inj made <;> exact Or.inl rfl
      · cases run
  | endOp op =>
      simp only [step] at run
      split at run
      · obtain ⟨s', made, rfl⟩ := Option.map_eq_some_iff.mp run
        simp only [endOp] at made
        split at made
        · cases made
        · split at made <;> obtain rfl := Option.some.inj made <;> exact Or.inl rfl
      · cases run
  | commit =>
      obtain ⟨s', made, rfl⟩ := Option.map_eq_some_iff.mp run
      unfold commitStep at made
      cases phase : w.sys.phase <;> simp only [phase] at made
      case writeLog tail =>
        split at made <;> obtain rfl := Option.some.inj made <;>
          exact Or.inl (by simp [writeLogStep, writeHead, bwrite])
      case install tail =>
        split at made <;> obtain rfl := Option.some.inj made <;>
          exact Or.inl (by simp [installStep, clearHead, writeHead, bwrite, bunpin])
      case finishing =>
        obtain rfl := Option.some.inj made
        exact Or.inr ⟨rfl, rfl, by simp only [History.afterCommitStep, phase]⟩
      all_goals cases made
  | bread b =>
      simp only [step, Option.some.injEq] at run
      subst run
      exact Or.inl (by simp)
  | evict b =>
      simp only [step] at run
      split at run
      · rw [Option.some.injEq] at run
        subst run
        exact Or.inl rfl
      · cases run
  | recover =>
      obtain ⟨s', made, rfl⟩ := Option.map_eq_some_iff.mp run
      unfold recoverStep at made
      cases phase : w.sys.phase <;> simp only [phase] at made
      case reading =>
        obtain rfl := Option.some.inj made
        exact Or.inl (by simp [readHead])
      case reinstall tail =>
        split at made <;> obtain rfl := Option.some.inj made <;>
          exact Or.inl (by simp [installStep, clearHead, writeHead, bwrite])
      all_goals cases made

theorem step_present (run : step start w e = some w') (alive : e ≠ .crash)
    (present : Present w.hist op) : Present w'.hist op := by
  have hist := step_hist run
  cases e with
  | crash => exact absurd rfl alive
  | logWrite other blockno data =>
      simp only [Present, hist.2, ← List.append_assoc, ofOp_append] at present ⊢
      rw [present]
  | endOp other =>
      simp only [Present, hist.2]
      exact present
  | commit =>
      simp only at hist
      rcases hist with same | moved
      · rw [same]
        exact present
      · rw [moved]
        simp only [Present, History.commit, List.flatten_append, List.flatten_singleton,
          List.append_nil]
        exact present
  | beginOp | bread b | evict b | recover =>
      simp only [Present, hist]
      exact present

theorem step_over (run : step start w e = some w') (gone : Over w.hist op) :
    Over w'.hist op ∧ ofOp op w'.hist.issued = ofOp op w.hist.issued := by
  have hist := step_hist run
  cases e with
  | beginOp =>
      simp only [Over, hist, List.mem_cons, not_or]
      have low := gone.2
      exact ⟨⟨⟨by omega, gone.1⟩, by omega⟩, trivial⟩
  | logWrite other blockno data =>
      have differ : other ≠ op := by
        rintro rfl
        exact gone.1 hist.1
      simp only [Over, hist.2, ofOp_append]
      refine ⟨gone, ?_⟩
      simp [ofOp, differ]
  | endOp other =>
      simp only [Over, hist.2]
      exact ⟨⟨fun inside => gone.1 (List.mem_of_mem_erase inside), gone.2⟩, trivial⟩
  | commit =>
      simp only at hist
      rcases hist with same | moved
      · rw [same]
        exact ⟨gone, rfl⟩
      · rw [moved]
        exact ⟨gone, rfl⟩
  | crash =>
      simp only at hist
      rw [hist]
      exact ⟨⟨by simp [History.crash], gone.2⟩, rfl⟩
  | bread b | evict b | recover =>
      simp only at hist
      rw [hist]
      exact ⟨gone, rfl⟩

theorem step_committed (inv : OpsInv w.hist w.sys) (run : step start w e = some w')
    (gone : Over w.hist op) (committed : Committed w.hist op) : Committed w'.hist op := by
  have issued := (step_over run gone).2
  -- nothing of the operation is left in the current transaction
  have current : ofOp op w.hist.current = [] := by
    have sub := inv.order.filter fun x => x.op == op
    have length := sub.length_le
    have all : (ofOp op w.hist.committed.flatten).length = (ofOp op w.hist.issued).length := by
      rw [committed]
    rw [List.filter_append, List.length_append] at length
    simp only [ofOp] at all ⊢
    exact List.eq_nil_of_length_eq_zero (by omega)
  have grown : ofOp op w'.hist.committed.flatten = ofOp op w.hist.committed.flatten := by
    have hist := step_hist run
    cases e with
    | commit =>
        simp only at hist
        rcases hist with same | moved
        · rw [same]
        · rw [moved]
          simp only [History.commit, List.flatten_append, List.flatten_singleton, ofOp_append, current,
            List.append_nil]
    | logWrite other blockno data => rw [hist.2]
    | endOp other => rw [hist.2]
    | crash =>
        simp only at hist
        rw [hist]
        rfl
    | beginOp | bread b | evict b | recover =>
        simp only at hist
        rw [hist]
  rw [Committed, grown, issued]
  exact committed

end Steps

/-! ## Calls under way -/

structure SyncInv (start : Nat) (disk0 : Disk) (w : SyncWorld) : Prop where
  world : WorldInv start disk0 w.world
  settled : w.world.sys.phase = .running → w.world.hist.active = [] → w.world.hist.current = []
  present : ∀ op, op ∈ w.done → Present w.world.hist op ∧ Over w.world.hist op
  calls : ∀ call, call ∈ w.calls → call.count ≤ w.world.sys.ncommit ∧
    (call.count < w.world.sys.ncommit → ∀ op, op ∈ call.ops → Committed w.world.hist op) ∧
    ∀ op, op ∈ call.ops → op ∈ w.done
  promised : ∀ op, op ∈ w.promised → Committed w.world.hist op ∧ Over w.world.hist op

section Calls
variable {start : Nat} {disk0 : Disk} {w w' : SyncWorld} {e : SyncEvent}

/-- With no transaction under way every operation that has ended is committed. -/
theorem SyncInv.committed_of_idle (inv : SyncInv start disk0 w)
    (empty : w.world.hist.current = []) {op : Nat} (ended : op ∈ w.done) :
    Committed w.world.hist op := by
  have present := (inv.present op ended).1
  rw [Present, empty, List.append_nil] at present
  exact present

theorem SyncInv.current_nil (inv : SyncInv start disk0 w) (usable : w.world.sys.usable = true)
    (idle : ¬ (w.world.sys.committing = true ∨ 0 < w.world.sys.outstanding)) :
    w.world.hist.current = [] := by
  rw [not_or] at idle
  have running := inv.world.ops.committing usable (by simpa using idle.1)
  have none : w.world.hist.active = [] := by
    have count := inv.world.ops.outstanding
    apply List.eq_nil_of_length_eq_zero
    omega
  exact inv.settled running none

theorem SyncInv.finishing (inv : SyncInv start disk0 w) (phase : w.world.sys.phase = .finishing) :
    w.world.hist.current = [] := by
  have state := inv.world.phase
  simp only [PhaseInv, phase] at state
  exact state.1

theorem settled_step {v v' : World} {e : Event} (inv : WorldInv start disk0 v)
    (settled : v.sys.phase = .running → v.hist.active = [] → v.hist.current = [])
    (run : step start v e = some v') :
    v'.sys.phase = .running → v'.hist.active = [] → v'.hist.current = [] := by
  intro running none
  have hist := step_hist run
  cases e with
  | beginOp =>
      rw [hist] at none
      cases none
  | logWrite op blockno data =>
      rw [hist.2] at none
      simp only at none
      have active := hist.1
      rw [none] at active
      cases active
  | endOp op =>
      -- the last operation leaves the running phase
      simp only [step] at run
      rw [if_pos hist.1] at run
      obtain ⟨s', made, rfl⟩ := Option.map_eq_some_iff.mp run
      have count := inv.ops.outstanding
      simp only at none running
      have one : v.hist.active.length = 1 := by
        have erased := List.length_erase_of_mem hist.1
        rw [none, List.length_nil] at erased
        have pos := List.length_pos_of_mem hist.1
        omega
      simp only [endOp] at made
      split at made
      · cases made
      · split at made
        · obtain rfl := Option.some.inj made
          simp only at running
          split at running <;> cases running
        · rename_i more
          omega
  | commit =>
      obtain ⟨s', made, rfl⟩ := Option.map_eq_some_iff.mp run
      have state := inv.phase
      unfold commitStep at made
      cases phase : v.sys.phase <;> simp only [phase] at made
      case writeLog tail =>
        split at made <;> obtain rfl := Option.some.inj made <;> cases running
      case install tail =>
        split at made <;> obtain rfl := Option.some.inj made <;> cases running
      case finishing =>
        simp only [PhaseInv, phase] at state
        simp only [History.afterCommitStep, phase]
        exact state.1
      all_goals cases made
  | bread b =>
      simp only [step, Option.some.injEq] at run
      subst run
      simp only [bread_phase] at running
      exact settled running none
  | evict b =>
      simp only [step] at run
      split at run
      · rw [Option.some.injEq] at run
        subst run
        exact settled running none
      · cases run
  | crash =>
      simp only at hist
      rw [hist]
      rfl
  | recover =>
      obtain ⟨s', made, rfl⟩ := Option.map_eq_some_iff.mp run
      have state := inv.phase
      unfold recoverStep at made
      cases phase : v.sys.phase <;> simp only [phase] at made
      case reading =>
        simp only [PhaseInv, phase] at state
        exact state.1
      case reinstall tail =>
        simp only [PhaseInv, phase] at state
        exact state.1
      all_goals cases made

theorem SyncInv.log {e : Event} {v : World} (inv : SyncInv start disk0 w)
    (run : step start w.world e = some v) :
    SyncInv start disk0 { w with
      world := v, done := doneAfter w.done e, calls := callsAfter w.calls e } := by
  have hist := step_hist run
  have promised : ∀ op, op ∈ w.promised → Committed v.hist op ∧ Over v.hist op := by
    intro op inside
    obtain ⟨committed, gone⟩ := inv.promised op inside
    exact ⟨step_committed inv.world.ops run gone committed, (step_over run gone).1⟩
  refine ⟨worldInv_step inv.world run, settled_step inv.world inv.settled run, ?_, ?_, promised⟩
  · -- operations that have ended, the one that ends now among them
    intro op inside
    by_cases crash : e = .crash
    · subst crash
      cases inside
    · have old : ∀ x, x ∈ w.done → Present v.hist x ∧ Over v.hist x := fun x member =>
        ⟨step_present run crash (inv.present x member).1, (step_over run (inv.present x member).2).1⟩
      cases e with
      | endOp ended =>
          rcases List.mem_cons.mp inside with rfl | member
          · refine ⟨step_present run crash ?_, ?_, ?_⟩
            · obtain ⟨all, none⟩ := inv.world.ops.live op (Or.inl hist.1)
              rw [Present, ofOp_append, none, List.nil_append]
              exact all
            · rw [hist.2]
              exact inv.world.ops.nodup.not_mem_erase
            · rw [hist.2]
              exact inv.world.ops.known op hist.1
          · exact old op member
      | crash => exact absurd rfl crash
      | beginOp | logWrite _ _ _ | commit | bread _ | evict _ | recover => exact old op inside
  · intro call inside
    by_cases crash : e = .crash
    · subst crash
      cases inside
    · have member : call ∈ w.calls := by
        cases e <;> first | exact inside | exact absurd rfl crash
      obtain ⟨low, before, ops⟩ := inv.calls call member
      refine ⟨?_, ?_, ?_⟩
      · simp only
        rcases step_ncommit run crash with same | ⟨grown, -, -⟩ <;> omega
      · intro later op inOps
        have gone := (inv.present op (ops op inOps)).2
        simp only at later
        rcases step_ncommit run crash with same | ⟨grown, finishing, -⟩
        · exact step_committed inv.world.ops run gone (before (by omega) op inOps)
        · exact step_committed inv.world.ops run gone
            (inv.committed_of_idle (inv.finishing finishing) (ops op inOps))
      · intro op inOps
        have old := ops op inOps
        cases e with
        | endOp ended => exact List.mem_cons_of_mem ended old
        | crash => exact absurd rfl crash
        | beginOp | logWrite _ _ _ | commit | bread _ | evict _ | recover => exact old

theorem SyncInv.step (inv : SyncInv start disk0 w) (run : syncStep start w e = some w') :
    SyncInv start disk0 w' := by
  cases e with
  | log e =>
      obtain ⟨v, moved, rfl⟩ := Option.map_eq_some_iff.mp run
      exact inv.log moved
  | syncStart =>
      simp only [syncStep] at run
      split at run
      · rename_i usable
        by_cases busy : w.world.sys.committing = true ∨ 0 < w.world.sys.outstanding
        · have waits : SyncCall.waits ⟨w.world.sys.ncommit, w.done⟩ w.world.sys = true :=
            decide_eq_true (Int.le_refl _)
          rw [if_pos ⟨busy, waits⟩] at run
          obtain rfl := Option.some.inj run
          refine ⟨inv.world, inv.settled, inv.present, ?_, inv.promised⟩
          intro call inside
          rcases List.mem_cons.mp inside with rfl | old
          · exact ⟨Nat.le_refl _, fun less => absurd less (Nat.lt_irrefl _),
              fun op member => member⟩
          · exact inv.calls call old
        · rw [if_neg fun both => busy both.1] at run
          obtain rfl := Option.some.inj run
          refine ⟨inv.world, inv.settled, inv.present, inv.calls, ?_⟩
          intro op inside
          rcases List.mem_append.mp inside with ended | old
          · exact ⟨inv.committed_of_idle (inv.current_nil usable busy) ended,
              (inv.present op ended).2⟩
          · exact inv.promised op old
      · cases run
  | syncReturn call =>
      simp only [syncStep] at run
      split at run
      · rename_i returns
        obtain rfl := Option.some.inj run
        obtain ⟨low, before, ops⟩ := inv.calls call returns.1
        -- the count has moved on: at the value seen on entry the loop goes on
        have later : call.count < w.world.sys.ncommit := by
          rcases Nat.lt_or_ge call.count w.world.sys.ncommit with less | same
          · exact less
          · have equal : w.world.sys.ncommit = call.count := by omega
            have stops := returns.2
            simp [SyncCall.waits, equal] at stops
        refine ⟨inv.world, inv.settled, inv.present, ?_, ?_⟩
        · exact fun other inside => inv.calls other (List.mem_of_mem_erase inside)
        · intro op inside
          rcases List.mem_append.mp inside with mine | old
          · exact ⟨before later op mine, (inv.present op (ops op mine)).2⟩
          · exact inv.promised op old
      · cases run

theorem ready_syncInv {disk : Disk} (empty : getLE (disk start) 0 4 = 0) :
    SyncInv start disk (SyncWorld.ready disk) where
  world := ready_worldInv empty
  settled _ _ := rfl
  present op inside := by cases inside
  calls call inside := by cases inside
  promised op inside := by cases inside

end Calls

/-! ## Every run -/

/-- A crash now and a recovery leave a disk with every update of the operations that had
ended before a call of `sys_sync` that has returned. -/
structure Durable (start : Nat) (disk0 : Disk) (w : SyncWorld) : Prop where
  recovers : ∀ b, Home start b → recovered start w.world.sys.disk b =
    replay disk0 w.world.hist.committed.flatten b
  includes : ∀ op, op ∈ w.promised →
    ofOp op w.world.hist.committed.flatten = ofOp op w.world.hist.issued

theorem sync_durable (start : Nat) (disk : Disk) (empty : getLE (disk start) 0 4 = 0)
    (r : Run (syncStep start)) (ready : r.state 0 = SyncWorld.ready disk) :
    ∀ t, t ≤ r.len → Durable start disk (r.state t) := by
  intro t within
  have inv : SyncInv start disk (r.state t) := by
    apply r.invariant (SyncInv start disk) _ _ t within
    · rw [ready]
      exact ready_syncInv empty
    · exact fun _ _ _ run inv => inv.step run
  refine ⟨?_, fun op inside => (inv.promised op inside).1⟩
  intro b home
  obtain ⟨lh, logged⟩ := logged_of_phase inv.world.phase
  exact recovered_eq logged b home

/-- An operation ends while another is under way; `sys_sync` waits for both. -/
def syncWaits : List SyncEvent :=
  [.log .beginOp, .log .beginOp, .log (.logWrite 0 50 fun _ => 7), .log (.endOp 0), .syncStart,
    .log (.endOp 1), .log .commit, .log .commit, .log .commit, .log .commit, .log .commit,
    .syncReturn ⟨0, [0]⟩, .log .crash]

theorem syncWaits_durable : ∃ r : Run (syncStep 2), r.state 0 = SyncWorld.ready (fun _ _ => 0) ∧
    (r.state r.len).promised = [0] ∧ Durable 2 (fun _ _ => 0) (r.state r.len) := by
  let r := Run.ofEvents (syncStep 2) (SyncWorld.ready fun _ _ => 0) syncWaits .syncStart
    (by decide +kernel)
  refine ⟨r, rfl, by decide +kernel, ?_⟩
  exact sync_durable 2 (fun _ _ => 0) (by decide) r rfl r.len (Nat.le_refl _)

end Xv6Fcfs.Log
