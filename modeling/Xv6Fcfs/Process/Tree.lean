import Xv6Fcfs.Process.Machine
import Mathlib.Tactic.IntervalCases

/-!
# The process tree and `getppid`

Every process but `initproc` has a parent that has not exited, and following the
parent pointers leads to `initproc`.  `kexit` hands the children over before the
slot can be freed, so a parent pointer never outlives its target; `sys_getppid`
therefore names the process that forked the caller, or `initproc` once that one
has exited.
-/

set_option autoImplicit false

namespace Xv6Fcfs.Process

open Xv6Fcfs.Lib

def Alive (s : ProcState) : Prop := s = .sleeping ∨ s = .runnable ∨ s = .running

instance (s : ProcState) : Decidable (Alive s) :=
  inferInstanceAs (Decidable (s = .sleeping ∨ s = .runnable ∨ s = .running))

def InUse (s : ProcState) : Prop := s ≠ .unused ∧ s ≠ .used

instance (s : ProcState) : Decidable (InUse s) :=
  inferInstanceAs (Decidable (s ≠ .unused ∧ s ≠ .used))

theorem Alive.inUse {s : ProcState} (alive : Alive s) : InUse s := by
  rcases alive with h | h | h <;> simp [InUse, h]

/-- Following `parent` from a slot through living processes leads to `root`. -/
inductive Reaches (k : Kernel) (root : Slot) : Slot → Prop where
  | root : Reaches k root root
  | up {q p : Slot} (parent : (k.proc q).parent = some p) (alive : Alive (k.proc p).state)
      (above : Reaches k root p) : Reaches k root q

/-- The parent pointers of the slots in use form a tree rooted at `root`. -/
structure TreeAt (k : Kernel) (root : Slot) : Prop where
  rootAlive : Alive (k.proc root).state
  rootParent : (k.proc root).parent = none
  hasParent : ∀ q, InUse (k.proc q).state → q ≠ root →
    ∃ p, (k.proc q).parent = some p ∧ Alive (k.proc p).state
  reaches : ∀ q, InUse (k.proc q).state → Reaches k root q

section Step
variable {m m' : Machine} {e : Event}

theorem effect_parent (ok : CpuOk m) (effect : Effect m e m') (q : Slot)
    (inUse : InUse (m'.kernel.proc q).state) :
    (InUse (m.kernel.proc q).state ∧
      (m'.kernel.proc q).parent = (m.kernel.proc q).parent) ∨
    ((m.kernel.proc q).state = .unused ∧
      ((m.kernel.initproc = none ∧ m'.kernel.initproc = some q) ∨
      (∃ mem f, e = .kfork mem ∧ m.cpu = some f ∧ (m'.kernel.proc q).parent = some f))) ∨
    (InUse (m.kernel.proc q).state ∧ ∃ status f, e = .kexit status ∧ m.cpu = some f ∧
      (m.kernel.proc q).parent = some f ∧
      (m'.kernel.proc q).parent = m.kernel.initproc) := by
  cases effect with
  | idle e k' quiet wakes =>
      left
      refine ⟨?_, wakes.parent q⟩
      rcases wakes.proc q with same | ⟨asleep, _⟩
      · simpa only [same] using inUse
      · simp [InUse, asleep]
  | booted mem rootInode np first free =>
      by_cases same : q = np
      · subst same
        exact Or.inr (Or.inl ⟨unusedSlot_some free, Or.inl ⟨first, rfl⟩⟩)
      · left
        simpa [same] using inUse
  | forkFailed mem p np running free =>
      by_cases same : q = np
      · subst same
        simp [InUse, freeproc] at inUse
      · left
        simpa [same, freeproc] using inUse
  | forked mem p np running free =>
      by_cases same : q = np
      · subst same
        exact Or.inr (Or.inl ⟨unusedSlot_some free, Or.inr ⟨mem, p, rfl, running,
          by simp [forkChild]⟩⟩)
      · left
        simpa [same] using inUse
  | exited status p k' running notInit exit =>
      by_cases same : q = p
      · subst same
        have live : InUse (m.kernel.proc q).state := by simp [InUse, (ok q).mpr running]
        by_cases own : (m.kernel.proc q).parent = some q
        · exact Or.inr (Or.inr ⟨live, status, q, rfl, running, own,
            by simp [exit.caller, closeFiles, own]⟩)
        · exact Or.inl ⟨live, by simp [exit.caller, closeFiles, own]⟩
      · obtain ⟨s, shape, moved⟩ := exit.others q same
        simp only [Kernel.setProc_other _ _ _ _ same] at shape moved
        have live : InUse (m.kernel.proc q).state := by
          rcases moved with kept | ⟨asleep, _⟩
          · simpa [shape, kept] using inUse
          · simp [InUse, asleep]
        by_cases child : (m.kernel.proc q).parent = some p
        · exact Or.inr (Or.inr ⟨live, status, p, rfl, running, child, by simp [shape, child]⟩)
        · exact Or.inl ⟨live, by simp [shape, child]⟩
  | reaped p pp running found =>
      by_cases same : q = pp
      · subst same
        simp [InUse, freeproc] at inUse
      · left
        simpa [same, freeproc] using inUse
  | slept e p chan running calls =>
      left
      by_cases same : q = p
      · subst same
        simp [InUse, (ok q).mpr running, sleep]
      · simpa [same, sleep] using inUse
  | killed pid p pp running found =>
      left
      rw [kkill_proc found] at inUse ⊢
      by_cases same : q = pp
      · subst same
        by_cases asleep : (m.kernel.proc q).state = .sleeping
        · simp [InUse, asleep]
        · simpa [asleep] using inUse
      · simpa [same] using inUse
  | dispatched p free chosen =>
      left
      by_cases same : q = p
      · subst same
        simp [InUse, (firstProc_some.mp chosen).1]
      · simpa [same] using inUse

/-- A living process stays alive, with its pid, unless it calls `kexit`. -/
theorem effect_alive (effect : Effect m e m') (q : Slot)
    (alive : Alive (m.kernel.proc q).state) :
    (Alive (m'.kernel.proc q).state ∧ (m'.kernel.proc q).pid = (m.kernel.proc q).pid) ∨
    (m.cpu = some q ∧ ∃ status, e = .kexit status) := by
  have used : (m.kernel.proc q).state ≠ .unused := alive.inUse.1
  have ended : (m.kernel.proc q).state ≠ .zombie := by
    rcases alive with h | h | h <;> simp [h]
  cases effect with
  | idle e k' quiet wakes =>
      left
      refine ⟨?_, wakes.pid q⟩
      rcases wakes.proc q with same | ⟨_, woken⟩
      · simpa only [same] using alive
      · simp [Alive, woken]
  | booted mem rootInode np first free =>
      have differ : q ≠ np := fun same => used (same ▸ unusedSlot_some free)
      simp [differ, alive]
  | forkFailed mem p np running free =>
      have differ : q ≠ np := fun same => used (same ▸ unusedSlot_some free)
      simp [differ, alive, freeproc]
  | forked mem p np running free =>
      have differ : q ≠ np := fun same => used (same ▸ unusedSlot_some free)
      simp [differ, alive]
  | exited status p k' running notInit exit =>
      by_cases same : q = p
      · subst same
        exact Or.inr ⟨running, status, rfl⟩
      · left
        obtain ⟨s, shape, moved⟩ := exit.others q same
        simp only [Kernel.setProc_other _ _ _ _ same] at shape moved
        rw [shape]
        rcases moved with kept | ⟨_, ready⟩
        · exact ⟨by simpa only [kept] using alive, rfl⟩
        · simp [Alive, ready]
  | reaped p pp running found =>
      have differ : q ≠ pp := fun same => ended (same ▸ (zombieChild_some found).2)
      simp [differ, alive, freeproc]
  | slept e p chan running calls =>
      left
      by_cases same : q = p
      · subst same
        simp [Alive, sleep]
      · simp [same, alive, sleep]
  | killed pid p pp running found =>
      left
      rw [kkill_proc found]
      by_cases same : q = pp
      · subst same
        by_cases asleep : (m.kernel.proc q).state = .sleeping
        · simp [Alive, asleep]
        · simpa [asleep] using alive
      · simpa [same] using alive
  | dispatched p free chosen =>
      left
      by_cases same : q = p
      · subst same
        simp [Alive]
      · simp [same, alive]

/-- `kexit` hands the caller's children to `initproc`, which is not the caller. -/
theorem effect_hands_over {f q : Slot} {status : Int} (effect : Effect m (.kexit status) m')
    (running : m.cpu = some f) (child : (m.kernel.proc q).parent = some f) :
    (m'.kernel.proc q).parent = m.kernel.initproc ∧ m.kernel.initproc ≠ some f := by
  cases effect with
  | idle e k' quiet wakes => exact absurd trivial quiet
  | slept e p chan holds calls =>
      rcases calls with h | ⟨⟨copied, h, _⟩, _⟩ <;> cases h
  | exited status p k' holds notInit exit =>
      have : p = f := Option.some.inj (holds.symm.trans running)
      subst this
      refine ⟨?_, notInit⟩
      by_cases self : q = p
      · subst self
        simp [exit.caller, closeFiles, child]
      · obtain ⟨s, shape, _⟩ := exit.others q self
        simp [shape, self, child]

theorem effect_initproc (effect : Effect m e m') :
    m'.kernel.initproc = m.kernel.initproc ∨
    (∃ mem rootInode np, e = .userinit mem rootInode ∧ unusedSlot m.kernel = some np ∧
      m.kernel.initproc = none ∧ m'.kernel.initproc = some np) := by
  cases effect with
  | idle e k' quiet wakes => exact Or.inl wakes.initproc
  | booted mem rootInode np first free =>
      exact Or.inr ⟨mem, rootInode, np, rfl, free, first, rfl⟩
  | exited status p k' running notInit exit => exact Or.inl exit.initproc
  | killed pid p pp running found => left; simp [kkill, found]
  | _ => exact Or.inl rfl

theorem effect_root_alive (effect : Effect m e m') {root : Slot}
    (init : m.kernel.initproc = some root) (alive : Alive (m.kernel.proc root).state) :
    Alive (m'.kernel.proc root).state ∧
      (m'.kernel.proc root).pid = (m.kernel.proc root).pid := by
  rcases effect_alive effect root alive with kept | ⟨running, status, exits⟩
  · exact kept
  · subst exits
    cases effect with
    | idle e k' quiet wakes => exact absurd trivial quiet
    | exited status p k' holds notInit exit =>
        have : p = root := Option.some.inj (holds.symm.trans running)
        subst this
        exact absurd init notInit
    | slept e p chan holds calls =>
        rcases calls with h | ⟨⟨copied, h, _⟩, _⟩ <;> cases h

/-- Before `userinit` no slot is in use; afterwards there is a tree. -/
def TreeInv (k : Kernel) : Prop :=
  match k.initproc with
  | none => k.nextpid = 1 ∧ ∀ q, (k.proc q).state = .unused ∧ (k.proc q).parent = none
  | some root => TreeAt k root ∧ (k.proc root).pid = 1

/-- The tree survives a step: parents of living processes stay alive or hand
their children to the root. -/
theorem treeAt_effect (ok : CpuOk m) {root : Slot} (init : m.kernel.initproc = some root)
    (tree : TreeAt m.kernel root) (effect : Effect m e m') : TreeAt m'.kernel root := by
  have rootAlive := effect_root_alive effect init tree.rootAlive
  -- the parent of a slot in use after the step, and that it is alive
  have hasParent : ∀ q, InUse (m'.kernel.proc q).state → q ≠ root →
      ∃ p, (m'.kernel.proc q).parent = some p ∧ Alive (m'.kernel.proc p).state := by
    intro q inUse differ
    rcases effect_parent ok effect q inUse with ⟨before, same⟩ | ⟨unused, made⟩ |
      ⟨before, status, f, exits, running, child, handed⟩
    · obtain ⟨p, parent, alive⟩ := tree.hasParent q before differ
      rcases effect_alive effect p alive with ⟨still, _⟩ | ⟨running, status, exits⟩
      · exact ⟨p, same.trans parent, still⟩
      · subst exits
        exact ⟨root, (effect_hands_over effect running parent).1.trans init, rootAlive.1⟩
    · rcases made with ⟨none, _⟩ | ⟨mem, f, forks, running, parent⟩
      · simp [none] at init
      · refine ⟨f, parent, ?_⟩
        have alive : Alive (m.kernel.proc f).state := by simp [Alive, (ok f).mpr running]
        rcases effect_alive effect f alive with ⟨still, _⟩ | ⟨_, status, exits⟩
        · exact still
        · rw [forks] at exits
          cases exits
    · exact ⟨root, handed.trans init, rootAlive.1⟩
  have rootParent : (m'.kernel.proc root).parent = none := by
    rcases effect_parent ok effect root rootAlive.1.inUse with ⟨_, same⟩ | ⟨unused, _⟩ |
      ⟨_, _, f, _, _, child, _⟩
    · exact same.trans tree.rootParent
    · exact absurd unused tree.rootAlive.inUse.1
    · simp [tree.rootParent] at child
  refine ⟨rootAlive.1, rootParent, hasParent, ?_⟩
  -- a slot in use before climbs as before, or straight to the root if handed over
  have climbs : ∀ q, Reaches m.kernel root q → InUse (m.kernel.proc q).state →
      InUse (m'.kernel.proc q).state → Reaches m'.kernel root q := by
    intro q chain
    induction chain with
    | root => intro _ _; exact .root
    | @up q p parent alive above ih =>
        intro before inUse
        by_cases isRoot : q = root
        · subst isRoot; exact .root
        · obtain ⟨p', parent', alive'⟩ := hasParent q inUse isRoot
          rcases effect_parent ok effect q inUse with ⟨_, same⟩ | ⟨unused, _⟩ |
            ⟨_, _, _, _, _, _, handed⟩
          · have : p' = p := Option.some.inj (parent'.symm.trans (same.trans parent))
            subst this
            exact .up parent' alive' (ih alive.inUse alive'.inUse)
          · exact absurd unused before.1
          · exact .up (handed.trans init) rootAlive.1 .root
  intro q inUse
  rcases effect_parent ok effect q inUse with ⟨before, _⟩ | ⟨unused, made⟩ | ⟨before, _⟩
  · exact climbs q (tree.reaches q before) before inUse
  · rcases made with ⟨none, _⟩ | ⟨mem, f, forks, running, parent⟩
    · simp [none] at init
    · have differ : q ≠ root := fun same => tree.rootAlive.inUse.1 (same ▸ unused)
      obtain ⟨p', parent', alive'⟩ := hasParent q inUse differ
      have : p' = f := Option.some.inj (parent'.symm.trans parent)
      subst this
      have before : InUse (m.kernel.proc p').state := by simp [InUse, (ok p').mpr running]
      exact .up parent alive' (climbs p' (tree.reaches p' before) before alive'.inUse)
  · exact climbs q (tree.reaches q before) before inUse

/-- Before `userinit` nothing can run, so only `userinit` itself changes slots. -/
theorem treeInv_first (ok : CpuOk m) (none : m.kernel.initproc = none) (inv : TreeInv m.kernel)
    (effect : Effect m e m') : TreeInv m'.kernel := by
  simp only [TreeInv, none] at inv
  have idle : ∀ p, m.cpu ≠ some p := by
    intro p running
    have := (ok p).mpr running
    simp [(inv.2 p).1] at this
  cases effect with
  | idle e k' quiet wakes =>
      simp only [TreeInv, wakes.initproc, none]
      refine ⟨wakes.nextpid.trans inv.1, fun q => ⟨?_, (wakes.parent q).trans (inv.2 q).2⟩⟩
      exact (wakes.state_iff q .unused (by simp) (by simp)).mpr (inv.2 q).1
  | booted mem rootInode np first free =>
      have shape : ∀ q, InUse ((m.kernel.setProc np
          (firstProcess m.kernel.nextpid mem rootInode)).proc q).state → q = np := by
        intro q inUse
        by_contra differ
        simp [differ, (inv.2 q).1, InUse] at inUse
      simp only [TreeInv]
      refine ⟨⟨?_, ?_, ?_, ?_⟩, ?_⟩
      · simp [firstProcess, Alive]
      · simp [firstProcess, (inv.2 np).2]
      · intro q inUse differ
        exact absurd (shape q inUse) differ
      · intro q inUse
        rw [shape q inUse]
        exact .root
      · simp [firstProcess, inv.1]
  | dispatched p free chosen =>
      have := (firstProc_some.mp chosen).1
      simp [(inv.2 p).1] at this
  | forkFailed mem p np running free => exact absurd running (idle p)
  | forked mem p np running free => exact absurd running (idle p)
  | exited status p k' running notInit exit => exact absurd running (idle p)
  | reaped p pp running found => exact absurd running (idle p)
  | slept e p chan running calls => exact absurd running (idle p)
  | killed pid p pp running found => exact absurd running (idle p)

theorem treeInv_effect (ok : CpuOk m) (inv : TreeInv m.kernel) (effect : Effect m e m') :
    TreeInv m'.kernel := by
  cases init : m.kernel.initproc with
  | none => exact treeInv_first ok init inv effect
  | some root =>
      simp only [TreeInv, init] at inv
      have kept : m'.kernel.initproc = some root := by
        rcases effect_initproc effect with same | ⟨_, _, _, _, _, first, _⟩
        · exact same.trans init
        · simp [init] at first
      simp only [TreeInv, kept]
      exact ⟨treeAt_effect ok init inv.1 effect,
        (effect_root_alive effect init inv.1.rootAlive).2.trans inv.2⟩

end Step

/-! ## Along a run -/

/-- Event `i` is the `kfork` of the process in `f` that filled slot `p`, which is
still in use at position `t`. -/
structure ForkedBy (r : Run step) (i t : Nat) (f p : Slot) : Prop where
  before : i < t
  forks : ∃ mem, r.event i = .kfork mem
  forker : (r.state i).cpu = some f
  free : ((r.state i).kernel.proc p).state = .unused
  since : ∀ u, i < u → u ≤ t → InUse ((r.state u).kernel.proc p).state

/-- The process in slot `f` calls `kexit` between positions `i` and `t`. -/
def ExitsWithin (r : Run step) (f : Slot) (i t : Nat) : Prop :=
  ∃ u, i < u ∧ u < t ∧ (r.state u).cpu = some f ∧ ∃ status, r.event u = .kexit status

/-- Where the parent pointer of the process in slot `p` points at position `t`:
to its forker, alive under the pid it had, or to `initproc` if that one has
exited. -/
inductive ParentAt (r : Run step) (t : Nat) (p : Slot) : Prop where
  | root (init : (r.state t).kernel.initproc = some p)
  | forker (i : Nat) (f : Slot) (made : ForkedBy r i t f p) (lives : ¬ ExitsWithin r f i t)
      (parent : ((r.state t).kernel.proc p).parent = some f)
      (alive : Alive ((r.state t).kernel.proc f).state)
      (pid : ((r.state t).kernel.proc f).pid = ((r.state i).kernel.proc f).pid)
  | orphan (i : Nat) (f : Slot) (made : ForkedBy r i t f p) (gone : ExitsWithin r f i t)
      (parent : ((r.state t).kernel.proc p).parent = (r.state t).kernel.initproc)

section Runs
variable {r : Run step}

theorem run_treeInv (start : r.state 0 = boot) :
    ∀ i, i ≤ r.len → TreeInv (r.state i).kernel := by
  intro i
  induction i with
  | zero =>
      intro _
      rw [start]
      exact ⟨rfl, fun q => ⟨rfl, rfl⟩⟩
  | succ i ih =>
      intro within
      exact treeInv_effect (run_cpuOk r start i (by omega)) (ih (by omega))
        (run_effect r start (by omega))

theorem ForkedBy.extend {i t : Nat} {f p : Slot} (made : ForkedBy r i t f p)
    (inUse : InUse ((r.state (t + 1)).kernel.proc p).state) : ForkedBy r i (t + 1) f p := by
  refine ⟨by have := made.before; omega, made.forks, made.forker, made.free, ?_⟩
  intro u above below
  rcases Nat.lt_or_ge u (t + 1) with inside | edge
  · exact made.since u above (by omega)
  · have : u = t + 1 := by omega
    rw [this]
    exact inUse

theorem ExitsWithin.mono {f : Slot} {i t t' : Nat} (exits : ExitsWithin r f i t)
    (le : t ≤ t') : ExitsWithin r f i t' := by
  obtain ⟨u, above, below, rest⟩ := exits
  exact ⟨u, above, by omega, rest⟩

theorem not_exitsWithin_succ {f : Slot} {i t : Nat} (lives : ¬ ExitsWithin r f i t)
    (stays : ¬ ((r.state t).cpu = some f ∧ ∃ status, r.event t = .kexit status)) :
    ¬ ExitsWithin r f i (t + 1) := by
  rintro ⟨u, above, below, running, exits⟩
  rcases Nat.lt_or_ge u t with inside | edge
  · exact lives ⟨u, above, inside, running, exits⟩
  · have : u = t := by omega
    subst this
    exact stays ⟨running, exits⟩

theorem parentAt_step (start : r.state 0 = boot) {t : Nat} (inside : t < r.len)
    (before : ∀ p, InUse ((r.state t).kernel.proc p).state → ParentAt r t p) :
    ∀ p, InUse ((r.state (t + 1)).kernel.proc p).state → ParentAt r (t + 1) p := by
  intro p inUse
  have ok := run_cpuOk r start t (by omega)
  have effect := run_effect r start inside
  have initKept : ∀ root, (r.state t).kernel.initproc = some root →
      (r.state (t + 1)).kernel.initproc = some root := by
    intro root init
    rcases effect_initproc effect with same | ⟨_, _, _, _, _, first, _⟩
    · exact same.trans init
    · simp [init] at first
  have rooted : InUse ((r.state t).kernel.proc p).state →
      (r.state (t + 1)).kernel.initproc = (r.state t).kernel.initproc := by
    intro used
    cases init : (r.state t).kernel.initproc with
    | some root => exact initKept root init
    | none =>
        have tree := run_treeInv start t (by omega)
        simp only [TreeInv, init] at tree
        exact absurd (tree.2 p).1 used.1
  rcases effect_parent ok effect p inUse with ⟨used, same⟩ | ⟨free, created⟩ |
    ⟨used, status, f, exits, running, child, handed⟩
  · cases before p used with
    | root init => exact .root (initKept p init)
    | forker i f made lives parent alive pid =>
        have stays : ¬ ((r.state t).cpu = some f ∧ ∃ status, r.event t = .kexit status) := by
          rintro ⟨running, status, exits⟩
          rw [exits] at effect
          obtain ⟨handed, notInit⟩ := effect_hands_over effect running parent
          exact notInit (handed.symm.trans (same.trans parent))
        rcases effect_alive effect f alive with ⟨still, pid'⟩ | leaves
        · exact .forker i f (made.extend inUse) (not_exitsWithin_succ lives stays)
            (same.trans parent) still (pid'.trans pid)
        · exact absurd leaves stays
    | orphan i f made gone parent =>
        exact .orphan i f (made.extend inUse) (gone.mono (by omega))
          (same.trans (parent.trans (rooted used).symm))
  · rcases created with ⟨_, init⟩ | ⟨mem, f, forks, running, parent⟩
    · exact .root init
    · have alive : Alive ((r.state t).kernel.proc f).state := by
        simp [Alive, (ok f).mpr running]
      rcases effect_alive effect f alive with ⟨still, pid⟩ | ⟨_, status, exits⟩
      · refine .forker t f ⟨by omega, ⟨mem, forks⟩, running, free, ?_⟩ ?_ parent still pid
        · intro u above below
          have : u = t + 1 := by omega
          rw [this]
          exact inUse
        · rintro ⟨u, above, below, _⟩
          omega
      · rw [forks] at exits
        cases exits
  · have parent' := handed.trans (rooted used).symm
    cases before p used with
    | root init => exact .root (initKept p init)
    | forker i g made lives parent alive pid =>
        have : g = f := Option.some.inj (parent.symm.trans child)
        subst this
        exact .orphan i g (made.extend inUse)
          ⟨t, made.before, by omega, running, status, exits⟩ parent'
    | orphan i g made gone parent =>
        exact .orphan i g (made.extend inUse) (gone.mono (by omega)) parent'

theorem run_parentAt (start : r.state 0 = boot) :
    ∀ t, t ≤ r.len → ∀ p, InUse ((r.state t).kernel.proc p).state → ParentAt r t p := by
  intro t
  induction t with
  | zero =>
      intro _ p inUse
      rw [start] at inUse
      exact absurd rfl inUse.1
  | succ t ih =>
      intro within
      exact parentAt_step start (by omega) (ih (by omega))

end Runs

/-- The tree and what `getppid` returns, along a run. -/
structure TreeLaw (r : Run step) : Prop where
  /-- In every state there is a tree rooted at `initproc`, or no process yet. -/
  tree : ∀ t, t ≤ r.len → ∀ p, InUse ((r.state t).kernel.proc p).state →
    ∃ root, (r.state t).kernel.initproc = some root ∧ TreeAt (r.state t).kernel root
  /-- `initproc` has pid 1 and is told 1. -/
  init : ∀ t root, t ≤ r.len → (r.state t).kernel.initproc = some root →
    ((r.state t).kernel.proc root).pid = 1 ∧ sysGetppid root (r.state t).kernel = 1
  /-- Every other process has a forker, and is told that one's pid until the
  forker calls `kexit`, and 1 from then on. -/
  getppid : ∀ t p, t ≤ r.len → InUse ((r.state t).kernel.proc p).state →
    (r.state t).kernel.initproc ≠ some p → ∃ i f, ForkedBy r i t f p ∧
      (¬ ExitsWithin r f i t →
        sysGetppid p (r.state t).kernel = ((r.state i).kernel.proc f).pid) ∧
      (ExitsWithin r f i t → sysGetppid p (r.state t).kernel = 1)

theorem getppid_names_parent (r : Run step) (start : r.state 0 = boot) : TreeLaw r where
  tree := by
    intro t within p inUse
    have inv := run_treeInv start t within
    cases init : (r.state t).kernel.initproc with
    | none =>
        simp only [TreeInv, init] at inv
        exact absurd (inv.2 p).1 inUse.1
    | some root =>
        simp only [TreeInv, init] at inv
        exact ⟨root, rfl, inv.1⟩
  init := by
    intro t root within init
    have inv := run_treeInv start t within
    simp only [TreeInv, init] at inv
    exact ⟨inv.2, by simp [sysGetppid, inv.1.rootParent]⟩
  getppid := by
    intro t p within inUse notInit
    cases run_parentAt start t within p inUse with
    | root init => exact absurd init notInit
    | forker i f made lives parent alive pid =>
        exact ⟨i, f, made, fun _ => by simp [sysGetppid, parent, pid],
          fun gone => absurd gone lives⟩
    | orphan i f made gone parent =>
        refine ⟨i, f, made, fun lives => absurd gone lives, fun _ => ?_⟩
        have inv := run_treeInv start t within
        cases init : (r.state t).kernel.initproc with
        | none =>
            simp only [TreeInv, init] at inv
            exact absurd (inv.2 p).1 inUse.1
        | some root =>
            simp only [TreeInv, init] at inv
            simp [sysGetppid, parent, init, inv.2]

/-- `init` forks a child and sleeps; the child forks a grandchild and exits. -/
def orphaned : Run step :=
  Run.ofEvents step boot
    [.userinit ⟨some 1, some 2, true⟩ 1, .dispatch, .kfork ⟨some 1, some 2, true⟩,
      .sleep (.other 0), .dispatch, .kfork ⟨some 1, some 2, true⟩, .kexit 0, .dispatch] .timer
    (by decide +kernel)

/-- The grandchild is told 2 while the child lives and 1 afterwards. -/
theorem orphaned_getppid : TreeLaw orphaned ∧ orphaned.state 0 = boot ∧
    InUse ((orphaned.state 8).kernel.proc 2).state ∧
    sysGetppid 2 (orphaned.state 6).kernel = 2 ∧
    sysGetppid 2 (orphaned.state 8).kernel = 1 := by
  refine ⟨getppid_names_parent orphaned rfl, rfl, ?_, ?_, ?_⟩
  · decide +kernel
  · decide +kernel
  · decide +kernel

end Xv6Fcfs.Process
