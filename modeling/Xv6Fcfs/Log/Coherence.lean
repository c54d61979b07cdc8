import Xv6Fcfs.Fs.Blocks
import Xv6Fcfs.Log.Atomicity

/-!
# Coherence of the buffer cache

Every path of `fs.c` that changes a buffer goes on to `log_write`, with one exception:
`writei` fills a buffer with `either_copyin` and gives it back without `log_write` when the
copy fails, although the bytes in front of the fault have arrived.  The events of
`Log.Model` are joined by this one.
-/

set_option autoImplicit false

namespace Xv6Fcfs.Log

open Xv6Fcfs.Lib

/-- `copyin op b src tot o m` is a turn of the loop of `writei`, in operation `op` on block
`b`: `m` bytes at `src + tot` go to offset `o`. -/
inductive FileEvent where
  | log (e : Event)
  | copyin (op b : Nat) (src : Nat → Option UInt8) (tot o m : Nat)

def Readable (src : Nat → Option UInt8) (tot m : Nat) : Prop := ∀ j < m, (src (tot + j)).isSome

instance (src : Nat → Option UInt8) (tot m : Nat) : Decidable (Readable src tot m) :=
  inferInstanceAs (Decidable (∀ j < m, _))

/-- `brelse` of a buffer that was filled with `data`. -/
def giveBack (b : Nat) (data : Block) (s : LogSys) : LogSys :=
  { s with cache := Function.update s.cache b (some data) }

def fileStep (start : Nat) (w : World) : FileEvent → Option World
  | .log e => step start w e
  | .copyin op b src tot o m =>
      if op ∈ w.hist.active ∧ Home start b ∧ b < 2 ^ 32 then
        let (data, s) := bread b w.sys
        let data := Fs.copyin src tot o m data
        if Readable src tot m then step start { w with sys := s } (.logWrite op b data)
        else some { w with sys := giveBack b data s }
      else none

/-- The block is in `log.lh.block[0..n)`. -/
def InHeader (lh : LogHeader) (b : Nat) : Prop := ∃ i < lh.n.toNat, lh.block i = b

instance (lh : LogHeader) (b : Nat) : Decidable (InHeader lh b) :=
  inferInstanceAs (Decidable (∃ i < lh.n.toNat, _))

def Coherent (s : LogSys) : Prop :=
  ∀ b data, s.cache b = some data → ¬ InHeader s.lh b → data = s.disk b

/-- A copy that fails has stored no byte, or the bytes that were there, or its block is in
the log. -/
def Harmless (w : World) : FileEvent → Prop
  | .log _ => True
  | .copyin _ b src tot o m => Readable src tot m ∨
      Fs.copyin src tot o m (view w.sys b) = view w.sys b ∨ InHeader w.sys.lh b

/-! ## The invariant -/

/-- Blocks that are not among the entries from `first` on are as on disk. -/
def Clean (s : LogSys) (first : Nat) : Prop :=
  ∀ b, (∀ i, first ≤ i → i < s.lh.n.toNat → s.lh.block i ≠ b) → view s b = s.disk b

def CleanPhase (s : LogSys) : Prop :=
  match s.phase with
  | .running => Clean s 0
  | .writeLog _ => Clean s 0
  | .install tail => Clean s tail
  | _ => ∀ b, view s b = s.disk b

section Steps
variable {start : Nat} {s s' : LogSys} {w w' : World} {first : Nat}

theorem giveBack_view (b : Nat) (data : Block) :
    view (giveBack b data s) = Function.update (view s) b data := by
  funext x
  by_cases same : x = b
  · simp [view, giveBack, same]
  · simp [view, giveBack, same]

theorem Clean.all (clean : Clean s first) (none : s.lh.n.toNat ≤ first) (b : Nat) :
    view s b = s.disk b := clean b fun i low high => by omega

theorem CleanPhase.coherent (clean : CleanPhase s) : Coherent s := by
  intro b data cached out
  have seen : view s b = data := by simp [view, cached]
  rw [← seen]
  have apart : ∀ i, i < s.lh.n.toNat → s.lh.block i ≠ b := fun i bound same => out ⟨i, bound, same⟩
  unfold CleanPhase at clean
  split at clean
  · exact clean b fun i _ => apart i
  · exact clean b fun i _ => apart i
  · exact clean b fun i _ => apart i
  · exact clean b

theorem Clean.write {b : Nat} {data : Block} (clean : Clean s first)
    (seen : view s' = Function.update (view s) b data) (disk : s'.disk = Function.update s.disk b data)
    (lh : s'.lh = s.lh) : Clean s' first := by
  intro x out
  rw [seen, disk]
  by_cases same : x = b
  · rw [same, Function.update_self, Function.update_self]
  · rw [Function.update_of_ne same, Function.update_of_ne same]
    rw [lh] at out
    exact clean x out

theorem Clean.install {data : Block} (clean : Clean s first)
    (seen : view s' = Function.update (view s) (s.lh.block first) data)
    (disk : s'.disk = Function.update s.disk (s.lh.block first) data) (lh : s'.lh = s.lh) :
    Clean s' (first + 1) := by
  intro x out
  rw [seen, disk]
  rw [lh] at out
  by_cases same : x = s.lh.block first
  · rw [same, Function.update_self, Function.update_self]
  · rw [Function.update_of_ne same, Function.update_of_ne same]
    apply clean x
    intro i low high
    by_cases here : i = first
    · rw [here]
      exact Ne.symm same
    · exact out i (by omega) high

theorem CleanPhase.recycled (clean : CleanPhase s) (disk : s'.disk = s.disk) (lh : s'.lh = s.lh)
    (phase : s'.phase = s.phase) (seen : ∀ b, view s' b = view s b ∨ view s' b = s.disk b) :
    CleanPhase s' := by
  have keep : ∀ b, view s b = s.disk b → view s' b = s'.disk b := by
    intro b old
    rw [disk]
    rcases seen b with same | fresh
    · rw [same, old]
    · exact fresh
  have each : ∀ k, Clean s k → Clean s' k := by
    intro k old b out
    rw [lh] at out
    exact keep b (old b out)
  unfold CleanPhase at clean ⊢
  rw [phase]
  split at clean
  · exact each _ clean
  · exact each _ clean
  · exact each _ clean
  · exact fun b => keep b (clean b)

theorem commitStep_clean (clean : CleanPhase s) (run : commitStep start s = some s') :
    CleanPhase s' := by
  unfold commitStep at run
  unfold CleanPhase at clean
  cases phase : s.phase <;> simp only [phase] at run clean
  case writeLog tail =>
    split at run
    · obtain rfl := Option.some.inj run
      exact clean.write (writeLogStep_view s start tail) (writeLogStep_disk s start tail)
        (writeLogStep_lh s start tail)
    · obtain rfl := Option.some.inj run
      exact clean.write (writeHead_view s start) (writeHead_disk s start) (writeHead_lh s start)
  case install tail =>
    split at run
    · obtain rfl := Option.some.inj run
      exact clean.install (installStep_view s false start tail) (installStep_disk s false start tail)
        (installStep_lh s false start tail)
    · rename_i last
      obtain rfl := Option.some.inj run
      have all : ∀ b, view s b = s.disk b := clean.all (by omega)
      have cleared : Clean { s with lh := { s.lh with n := 0 } } 0 := fun b _ => all b
      have count : (clearHead start s).lh.n = 0 := by rw [clearHead, writeHead_lh]
      exact (cleared.write (writeHead_view _ start) (writeHead_disk _ start)
        (writeHead_lh _ start)).all (by
          change (clearHead start s).lh.n.toNat ≤ 0
          rw [count]
          exact Nat.le_refl 0)
  case finishing =>
    obtain rfl := Option.some.inj run
    exact fun b _ => clean b
  all_goals cases run

theorem recoverStep_clean (clean : CleanPhase s) (run : recoverStep start s = some s') :
    CleanPhase s' := by
  unfold recoverStep at run
  unfold CleanPhase at clean
  cases phase : s.phase <;> simp only [phase] at run clean
  case reading =>
    obtain rfl := Option.some.inj run
    intro b
    have seen : view (readHead start s) b = view s b := by
      change view (bread start s).2 b = view s b
      rw [bread_view]
    have disk : (readHead start s).disk = s.disk := bread_disk s start
    change view (readHead start s) b = (readHead start s).disk b
    rw [seen, disk]
    exact clean b
  case reinstall tail =>
    split at run
    · obtain rfl := Option.some.inj run
      intro b
      change view (installStep true start tail s) b = (installStep true start tail s).disk b
      rw [installStep_view, installStep_disk]
      by_cases same : b = s.lh.block tail
      · rw [same, Function.update_self, Function.update_self]
      · rw [Function.update_of_ne same, Function.update_of_ne same]
        exact clean b
    · obtain rfl := Option.some.inj run
      have cleared : Clean { s with lh := { s.lh with n := 0 } } 0 := fun b _ => clean b
      exact cleared.write (writeHead_view _ start) (writeHead_disk _ start) (writeHead_lh _ start)
  all_goals cases run

theorem logWrite_clean {b : Nat} {data : Block} (clean : Clean s 0) (count : 0 ≤ s.lh.n)
    (run : logWrite b data s = some s') : Clean s' 0 ∧ 0 ≤ s'.lh.n := by
  obtain ⟨-, -, disk, seen, shape⟩ := logWrite_cases run
  -- the block is in the log now, and the others are as they were
  have named : InHeader s'.lh b := by
    rcases shape with ⟨i, bound, at', lh, -⟩ | ⟨-, lh, -⟩
    · exact ⟨i, by rw [lh]; exact bound, by rw [lh]; exact at'⟩
    · rw [lh]
      exact ⟨s.lh.n.toNat, by simp only; omega, by simp⟩
  have more : ∀ x, InHeader s.lh x → InHeader s'.lh x := by
    rintro x ⟨i, bound, at'⟩
    rcases shape with ⟨-, -, -, lh, -⟩ | ⟨-, lh, -⟩
    · exact ⟨i, by rw [lh]; exact bound, by rw [lh]; exact at'⟩
    · rw [lh]
      have differ : i ≠ s.lh.n.toNat := by omega
      refine ⟨i, by simp only; omega, ?_⟩
      simp only [Function.update_of_ne differ]
      exact at'
  refine ⟨?_, ?_⟩
  · intro x out
    have away : ¬ InHeader s'.lh x := fun ⟨i, bound, at'⟩ => out i (Nat.zero_le i) bound at'
    have differ : x ≠ b := by
      rintro rfl
      exact away named
    rw [seen, disk, Function.update_of_ne differ]
    apply clean x
    intro i _ bound at'
    exact away (more x ⟨i, bound, at'⟩)
  · rcases shape with ⟨-, -, -, lh, -⟩ | ⟨-, lh, -⟩
    · rw [lh]
      exact count
    · rw [lh]
      simp only
      omega

structure CacheInv (w : World) : Prop where
  ops : OpsInv w.hist w.sys
  clean : CleanPhase w.sys
  count : w.sys.usable = true → 0 ≤ w.sys.lh.n

theorem CacheInv.running {op : Nat} (inv : CacheInv w) (active : op ∈ w.hist.active) :
    w.sys.phase = .running := by
  by_contra notRunning
  rw [inv.ops.idle notRunning] at active
  cases active

theorem commitStep_count (count : 0 ≤ s.lh.n) (run : commitStep start s = some s') : 0 ≤ s'.lh.n := by
  unfold commitStep at run
  cases phase : s.phase <;> simp only [phase] at run
  case writeLog tail =>
    split at run
    · obtain rfl := Option.some.inj run
      simp only [writeLogStep_lh]
      exact count
    · obtain rfl := Option.some.inj run
      simp only [writeHead_lh]
      exact count
  case install tail =>
    split at run
    · obtain rfl := Option.some.inj run
      simp only [installStep_lh]
      exact count
    · obtain rfl := Option.some.inj run
      simp [clearHead, writeHead_lh]
  case finishing =>
    obtain rfl := Option.some.inj run
    exact count
  all_goals cases run

theorem CacheInv.logStep {e : Event} (inv : CacheInv w) (run : step start w e = some w') :
    CacheInv w' := by
  have ops := opsInv_step inv.ops run
  have moved : CleanPhase w'.sys ∧ (w'.sys.usable = true → 0 ≤ w'.sys.lh.n) := by
    cases e with
    | beginOp =>
        simp only [step] at run
        split at run
        · rename_i usable
          obtain ⟨s', made, rfl⟩ := Option.map_eq_some_iff.mp run
          obtain ⟨-, -, n, rfl⟩ := inv.ops.beginOp usable made
          exact ⟨inv.clean.recycled rfl rfl rfl fun _ => Or.inl rfl, inv.count⟩
        · cases run
    | logWrite op b data =>
        simp only [step] at run
        split at run
        · rename_i allowed
          obtain ⟨s', made, rfl⟩ := Option.map_eq_some_iff.mp run
          have running := inv.running allowed.1
          have clean := inv.clean
          simp only [CleanPhase, running] at clean
          have phase := (logWrite_cases made).2.1
          obtain ⟨next, count⟩ := logWrite_clean clean
            (inv.count (by simp [LogSys.usable, running])) made
          refine ⟨?_, fun _ => count⟩
          simp only [CleanPhase, phase, running]
          exact next
        · cases run
    | endOp op =>
        simp only [step] at run
        split at run
        · rename_i active
          obtain ⟨s', made, rfl⟩ := Option.map_eq_some_iff.mp run
          obtain ⟨-, running, phase, disk, cache, -, lh⟩ := inv.ops.endOp active made
          have count := inv.count (by simp [LogSys.usable, running])
          have clean := inv.clean
          simp only [CleanPhase, running] at clean
          have seen : view s' = view w.sys := by
            funext b
            simp only [view, disk, cache]
          have next : Clean s' 0 := by
            intro b out
            rw [lh] at out
            rw [seen, disk]
            exact clean b out
          refine ⟨?_, fun _ => by rw [lh]; exact count⟩
          simp only [CleanPhase]
          rcases phase with same | ⟨-, toLog⟩ | ⟨none, done⟩
          · rw [same]
            exact next
          · rw [toLog]
            exact next
          · rw [done]
            exact next.all (by rw [lh]; omega)
        · cases run
    | commit =>
        obtain ⟨s', made, rfl⟩ := Option.map_eq_some_iff.mp run
        have usable := (commitStep_frame made).2.1
        exact ⟨commitStep_clean inv.clean made, fun _ => commitStep_count (inv.count usable) made⟩
    | bread b =>
        simp only [step, Option.some.injEq] at run
        subst run
        refine ⟨inv.clean.recycled (bread_disk _ b) (bread_lh _ b) (bread_phase _ b) ?_, ?_⟩
        · exact fun x => Or.inl (by rw [bread_view])
        · simp only [LogSys.usable, bread_phase, bread_lh]
          exact inv.count
    | evict b =>
        simp only [step] at run
        split at run
        · rw [Option.some.injEq] at run
          subst run
          refine ⟨inv.clean.recycled rfl rfl rfl ?_, inv.count⟩
          intro x
          by_cases same : x = b
          · exact Or.inr (by simp [view, same])
          · exact Or.inl (by simp [view, same])
        · cases run
    | crash =>
        simp only [step, Option.some.injEq] at run
        subst run
        exact ⟨fun _ => rfl, fun usable => by cases usable⟩
    | recover =>
        obtain ⟨s', made, rfl⟩ := Option.map_eq_some_iff.mp run
        refine ⟨recoverStep_clean inv.clean made, ?_⟩
        unfold recoverStep at made
        cases phase : w.sys.phase <;> simp only [phase] at made
        case reading =>
          obtain rfl := Option.some.inj made
          intro usable
          cases usable
        case reinstall tail =>
          split at made
          · obtain rfl := Option.some.inj made
            intro usable
            cases usable
          · obtain rfl := Option.some.inj made
            intro _
            simp [clearHead, writeHead_lh]
        all_goals cases made
  exact ⟨ops, moved.1, moved.2⟩

theorem CacheInv.step {e : FileEvent} (inv : CacheInv w) (harmless : Harmless w e)
    (run : fileStep start w e = some w') : CacheInv w' := by
  cases e with
  | log e => exact inv.logStep run
  | copyin op b src tot o m =>
      simp only [fileStep] at run
      split at run
      · rename_i allowed
        have running := inv.running allowed.1
        have read : CacheInv { w with sys := (bread b w.sys).2 } :=
          inv.logStep (show Log.step start w (.bread b) = some _ from rfl)
        split at run
        · exact read.logStep run
        · rename_i fails
          obtain rfl := Option.some.inj run
          rw [bread_fst]
          have clean := inv.clean
          simp only [CleanPhase, running] at clean
          refine ⟨read.ops.other rfl read.ops.idle read.ops.committing, ?_, read.count⟩
          have next : Clean (giveBack b (Fs.copyin src tot o m (view w.sys b))
            (bread b w.sys).2) 0 := by
            intro x out
            have lh : (giveBack b (Fs.copyin src tot o m (view w.sys b)) (bread b w.sys).2).lh =
                w.sys.lh := bread_lh w.sys b
            have disk : (giveBack b (Fs.copyin src tot o m (view w.sys b)) (bread b w.sys).2).disk =
                w.sys.disk := bread_disk w.sys b
            rw [lh] at out
            rw [giveBack_view, bread_view, disk]
            by_cases same : x = b
            · rw [same, Function.update_self]
              rw [same] at out
              rcases harmless with whole | equal | ⟨i, bound, at'⟩
              · exact absurd whole fails
              · rw [equal]
                exact clean b out
              · exact absurd at' (out i (Nat.zero_le i) bound)
            · rw [Function.update_of_ne same]
              exact clean x out
          have phase : (giveBack b (Fs.copyin src tot o m (view w.sys b)) (bread b w.sys).2).phase =
              .running := (bread_phase w.sys b).trans running
          simp only [CleanPhase, phase]
          exact next
      · cases run

theorem ready_cacheInv (disk : Disk) : CacheInv (World.ready disk) := by
  refine ⟨?_, fun _ _ => rfl, fun _ => Int.le_refl 0⟩
  refine ⟨rfl, ?_, ?_, List.nodup_nil, ?_, ?_, ?_, ?_, ?_, ?_⟩ <;>
    simp [World.ready, LogSys.reset, History.empty, ofOp]

end Steps

/-! ## Every run -/

theorem cache_coherent_of_harmless (start : Nat) (disk : Disk) (r : Run (fileStep start))
    (ready : r.state 0 = World.ready disk)
    (harmless : ∀ i, i < r.len → Harmless (r.state i) (r.event i)) :
    ∀ t, t ≤ r.len → Coherent (r.state t).sys := by
  intro t within
  have inv : CacheInv (r.state t) := by
    apply r.invariant_of Harmless CacheInv _ _ harmless t within
    · rw [ready]
      exact ready_cacheInv disk
    · exact fun _ _ _ run harmless inv => inv.step harmless run
  exact inv.clean.coherent

/-- A write of two bytes succeeds, another fails on its first byte, and the transaction
commits. -/
def faultAtOnce : List FileEvent :=
  [.log .beginOp, .copyin 0 50 (fun _ => some 7) 0 0 2, .copyin 0 51 (fun _ => none) 0 0 2,
    .log (.endOp 0), .log .commit, .log .commit, .log .commit, .log .commit, .log .commit]

theorem copyin_fault {src : Nat → Option UInt8} {tot o m : Nat} (fault : src tot = none)
    (data : Block) : Fs.copyin src tot o m data = data := by
  funext i
  apply if_neg
  rintro ⟨-, -, readable⟩
  have first := readable 0 (by omega)
  rw [Nat.add_zero, fault] at first
  cases first

theorem faultAtOnce_coherent : ∃ r : Run (fileStep 2), r.state 0 = World.ready (fun _ _ => 0) ∧
    r.len = 9 ∧ Coherent (r.state 9).sys := by
  let r := Run.ofEvents (fileStep 2) (World.ready fun _ _ => 0) faultAtOnce (.log .crash)
    (by decide +kernel)
  refine ⟨r, rfl, rfl, cache_coherent_of_harmless 2 (fun _ _ => 0) r rfl ?_ 9 (by decide)⟩
  intro i bound
  have listed : r.event i ∈ faultAtOnce := Run.ofEvents_mem _ _ _ _ _ i bound
  generalize r.event i = e at listed
  simp only [faultAtOnce, List.mem_cons, List.not_mem_nil, or_false] at listed
  rcases listed with rfl | rfl | rfl | rfl | rfl | rfl | rfl | rfl | rfl
  all_goals first
    | exact trivial
    | exact Or.inl fun _ _ => rfl
    | exact Or.inr (Or.inl (copyin_fault rfl _))

def faultBetween : List FileEvent :=
  [.log .beginOp, .copyin 0 50 (fun j => if j = 0 then some 7 else none) 0 0 2]

theorem faultBetween_not_coherent :
    ¬ ∀ r : Run (fileStep 2), r.state 0 = World.ready (fun _ _ => 0) →
      ∀ t, t ≤ r.len → Coherent (r.state t).sys := by
  intro claim
  obtain ⟨r, ready, ends⟩ := Run.exists_of_exec (fileStep 2) (World.ready fun _ _ => 0) faultBetween
    (.log .crash) (fun w => ((w.sys.cache 50).any fun data => data 0 == 7) &&
      !decide (InHeader w.sys.lh 50) && w.sys.disk 50 0 == 0) (by decide +kernel)
  have coherent := claim r ready r.len (Nat.le_refl _)
  simp only [Bool.and_eq_true, Bool.not_eq_true', decide_eq_false_iff_not, beq_iff_eq,
    Option.any_eq_true] at ends
  obtain ⟨⟨⟨data, cached, seven⟩, out⟩, zero⟩ := ends
  rw [coherent 50 data cached out, zero] at seven
  cases seven

end Xv6Fcfs.Log
