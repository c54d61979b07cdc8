import Xv6Fcfs.Log.Recovery

/-!
# Crash atomicity

At every point of every run the disk, read through its log, is the initial disk with
the committed transactions applied: until `write_head` the log is empty and the home
blocks are untouched, afterwards the log holds the transaction until all its blocks
are in place.  Operations join the transaction that is current when they begin, and
it commits only when all of them have ended, so each is present as a whole or not at
all.
-/

set_option autoImplicit false

namespace Xv6Fcfs.Log

open Xv6Fcfs.Lib

theorem replay_append (disk : Disk) (xs ys : List Write) :
    replay disk (xs ++ ys) = replay (replay disk xs) ys := by
  simp [replay]

theorem replay_other {b : Nat} : ∀ (ws : List Write) (disk : Disk),
    (∀ w, w ∈ ws → w.blockno ≠ b) → replay disk ws b = disk b := by
  intro ws
  induction ws with
  | nil => intro disk _; rfl
  | cons w rest ih =>
      intro disk other
      have differ : b ≠ w.blockno := Ne.symm (other w (List.mem_cons_self ..))
      have := ih (Function.update disk w.blockno w.data)
        fun x member => other x (List.mem_cons_of_mem _ member)
      rw [Function.update_of_ne differ] at this
      exact this

/-! ## The phases -/

/-- Operations collect writes: the log on disk is empty, and the blocks named by the
header in memory are pinned with their new contents. -/
structure Collecting (start : Nat) (base : Disk) (current : List Write) (s : LogSys) : Prop where
  entries : Entries start s.lh
  empty : getLE (s.disk start) 0 4 = 0
  home : ∀ b, Home start b → s.disk b = base b
  named : ∀ w, w ∈ current → ∃ i, i < s.lh.n.toNat ∧ s.lh.block i = w.blockno
  dirty : ∀ i, i < s.lh.n.toNat → view s (s.lh.block i) = replay base current (s.lh.block i)
  pinned : ∀ i, i < s.lh.n.toNat → 0 < s.refcnt (s.lh.block i)
  clean : ∀ b, (∀ i, i < s.lh.n.toNat → s.lh.block i ≠ b) → view s b = s.disk b

/-- The transaction is on disk and its blocks are being copied home. -/
structure Installing (start : Nat) (base : Disk) (s : LogSys) (tail : Nat) : Prop where
  inst : Installed start s.disk base s.lh tail
  clean : ∀ b, (∀ i, tail ≤ i → i < s.lh.n.toNat → s.lh.block i ≠ b) → view s b = s.disk b

def PhaseInv (start : Nat) (base : Disk) (current : List Write) (s : LogSys) : Prop :=
  match s.phase with
  | .running => Collecting start base current s
  | .writeLog tail => Collecting start base current s ∧ 0 < s.lh.n ∧ tail ≤ s.lh.n.toNat ∧
      ∀ i, i < tail → s.disk (start + i + 1) = replay base current (s.lh.block i)
  | .install tail => current = [] ∧ Installing start base s tail
  | .finishing => current = [] ∧ Collecting start base current s
  | .reading => current = [] ∧ (∃ lh, Logged start s.disk base lh) ∧ ∀ b, view s b = s.disk b
  | .reinstall tail => current = [] ∧ Recovering start base s tail

section Phases
variable {start : Nat} {base : Disk} {current : List Write} {s s' : LogSys} {tail : Nat}

theorem logged_of_phase (inv : PhaseInv start base current s) :
    ∃ lh, Logged start s.disk base lh := by
  unfold PhaseInv at inv
  split at inv
  · exact ⟨_, logged_empty inv.empty inv.home⟩
  · exact ⟨_, logged_empty inv.1.empty inv.1.home⟩
  · exact ⟨_, inv.2.inst.logged⟩
  · exact ⟨_, logged_empty inv.2.empty inv.2.home⟩
  · exact inv.2.1
  · exact ⟨_, inv.2.inst.logged⟩

/-- `s'` differs from `s` in buffers that are not pinned and now agree with the disk. -/
structure Recycled (s s' : LogSys) : Prop where
  disk : s'.disk = s.disk
  lh : s'.lh = s.lh
  refcnt : s'.refcnt = s.refcnt
  view : ∀ b, view s' b = view s b ∨ (s.refcnt b = 0 ∧ view s' b = s.disk b)

theorem Collecting.recycled (inv : Collecting start base current s) (moved : Recycled s s') :
    Collecting start base current s' := by
  obtain ⟨disk, lh, refcnt, seen⟩ := moved
  refine ⟨lh ▸ inv.entries, disk ▸ inv.empty, disk ▸ inv.home, lh ▸ inv.named, ?_, ?_, ?_⟩
  · intro i inside
    rw [lh] at inside ⊢
    rcases seen (s.lh.block i) with same | ⟨loose, _⟩
    · rw [same]
      exact inv.dirty i inside
    · have := inv.pinned i inside
      omega
  · rw [lh, refcnt]
    exact inv.pinned
  · intro b other
    rw [lh] at other
    rw [disk]
    rcases seen b with same | ⟨_, agrees⟩
    · rw [same]
      exact inv.clean b other
    · exact agrees

theorem phaseInv_recycled (inv : PhaseInv start base current s) (moved : Recycled s s')
    (phase : s'.phase = s.phase) : PhaseInv start base current s' := by
  have clean : ∀ b, view s b = s.disk b → view s' b = s'.disk b := by
    intro b agrees
    rw [moved.disk]
    rcases moved.view b with same | ⟨_, now⟩
    · rw [same, agrees]
    · exact now
  unfold PhaseInv at inv ⊢
  rw [phase]
  split at inv
  · exact inv.recycled moved
  · refine ⟨inv.1.recycled moved, ?_⟩
    rw [moved.lh, moved.disk]
    exact inv.2
  · refine ⟨inv.1, ?_, ?_⟩
    · rw [moved.disk, moved.lh]
      exact inv.2.inst
    · intro b other
      rw [moved.lh] at other
      exact clean b (inv.2.clean b other)
  · exact ⟨inv.1, inv.2.recycled moved⟩
  · refine ⟨inv.1, ?_, fun b => clean b (inv.2.2 b)⟩
    rw [moved.disk]
    exact inv.2.1
  · refine ⟨inv.1, ?_, fun b => clean b (inv.2.clean b)⟩
    rw [moved.disk, moved.lh]
    exact inv.2.inst

theorem bread_recycled (b : Nat) : Recycled s (bread b s).2 :=
  ⟨bread_disk s b, bread_lh s b, bread_refcnt s b, fun _ => Or.inl (by rw [bread_view])⟩

theorem evict_recycled {b : Nat} (loose : s.refcnt b = 0) :
    Recycled s { s with cache := Function.update s.cache b none } := by
  refine ⟨rfl, rfl, rfl, ?_⟩
  intro x
  by_cases same : x = b
  · subst same
    exact Or.inr ⟨loose, by simp [view]⟩
  · exact Or.inl (by simp [view, same])

/-! ## `log_write` -/

theorem absorbIdx_cases (lh : LogHeader) (blockno : Nat) :
    (absorbIdx lh blockno < lh.n.toNat ∧ lh.block (absorbIdx lh blockno) = blockno) ∨
    (absorbIdx lh blockno = lh.n.toNat ∧ ∀ i, i < lh.n.toNat → lh.block i ≠ blockno) := by
  unfold absorbIdx
  cases found : (List.range lh.n.toNat).find? fun i => lh.block i == blockno with
  | some i =>
      left
      have hit := List.find?_some found
      have member := List.mem_of_find?_eq_some found
      exact ⟨by simpa using member, by simpa using hit⟩
  | none =>
      right
      refine ⟨rfl, ?_⟩
      intro i inside
      have := List.find?_eq_none.mp found i (by simpa using inside)
      simpa using this

theorem logWrite_cases {blockno : Nat} {data : Block} (run : logWrite blockno data s = some s') :
    s.lh.n < LOGBLOCKS ∧ s'.phase = s.phase ∧ s'.disk = s.disk ∧
    view s' = Function.update (view s) blockno data ∧
    ((∃ i, i < s.lh.n.toNat ∧ s.lh.block i = blockno ∧ s'.lh = s.lh ∧ s'.refcnt = s.refcnt) ∨
    ((∀ i, i < s.lh.n.toNat → s.lh.block i ≠ blockno) ∧
      s'.lh = ⟨s.lh.n + 1, Function.update s.lh.block s.lh.n.toNat blockno⟩ ∧
      s'.refcnt = Function.update s.refcnt blockno (s.refcnt blockno + 1))) := by
  unfold logWrite at run
  simp only [ge_iff_le] at run
  split at run
  · cases run
  · rename_i room
    split at run
    · cases run
    · have seen : ∀ t : LogSys, t.disk = s.disk →
          t.cache = Function.update s.cache blockno (some data) →
          view t = Function.update (view s) blockno data := by
        intro t disk cache
        funext x
        by_cases same : x = blockno
        · subst same; simp [view, cache]
        · simp [view, cache, disk, same]
      rcases absorbIdx_cases s.lh blockno with ⟨inside, hit⟩ | ⟨new, fresh⟩
      · have differ : absorbIdx s.lh blockno ≠ s.lh.n.toNat := by omega
        rw [if_neg differ, Option.some.injEq] at run
        subst run
        refine ⟨by omega, rfl, rfl, seen _ rfl rfl, Or.inl ⟨_, inside, hit, ?_, rfl⟩⟩
        have same : Function.update s.lh.block (absorbIdx s.lh blockno) blockno = s.lh.block :=
          Function.update_eq_self_iff.mpr hit.symm
        simp only [same]
      · rw [if_pos new, Option.some.injEq] at run
        subst run
        refine ⟨by omega, rfl, rfl, seen _ rfl rfl, Or.inr ⟨fresh, ?_, rfl⟩⟩
        simp only [bpin, new]

theorem Collecting.logWrite (op : Nat) {blockno : Nat} {data : Block}
    (inv : Collecting start base current s) (home : Home start blockno)
    (small : blockno < 2 ^ 32) (run : logWrite blockno data s = some s') :
    Collecting start base (current ++ [⟨op, blockno, data⟩]) s' ∧ s'.phase = s.phase := by
  obtain ⟨room, phase, disk, seen, shape⟩ := logWrite_cases run
  have after : replay base (current ++ [⟨op, blockno, data⟩]) =
      Function.update (replay base current) blockno data := by
    simp [replay]
  have low := inv.entries.low
  refine ⟨?_, phase⟩
  rcases shape with ⟨j, inside, hit, lh, refcnt⟩ | ⟨fresh, lh, refcnt⟩
  · refine ⟨lh ▸ inv.entries, disk ▸ inv.empty, disk ▸ inv.home, ?_, ?_, ?_, ?_⟩
    · intro w member
      rw [lh]
      rcases List.mem_append.mp member with old | new
      · exact inv.named w old
      · rw [List.mem_singleton] at new
        exact ⟨j, inside, by rw [hit, new]⟩
    · intro i bound
      rw [lh] at bound ⊢
      rw [seen, after]
      by_cases same : s.lh.block i = blockno
      · rw [same, Function.update_self, Function.update_self]
      · rw [Function.update_of_ne same, Function.update_of_ne same]
        exact inv.dirty i bound
    · rw [lh, refcnt]
      exact inv.pinned
    · intro b other
      rw [lh] at other
      have differ : b ≠ blockno := fun same => other j inside (by rw [hit, same])
      rw [seen, disk, Function.update_of_ne differ]
      exact inv.clean b other
  · have count : (s.lh.n + 1).toNat = s.lh.n.toNat + 1 := by omega
    have old : ∀ i, i < s.lh.n.toNat →
        Function.update s.lh.block s.lh.n.toNat blockno i = s.lh.block i := by
      intro i bound
      exact Function.update_of_ne (by omega) _ _
    have split : ∀ i, i < s.lh.n.toNat + 1 → i < s.lh.n.toNat ∨ i = s.lh.n.toNat := by
      intro i bound
      omega
    refine ⟨?_, disk ▸ inv.empty, disk ▸ inv.home, ?_, ?_, ?_, ?_⟩
    · rw [lh]
      refine ⟨by simp only; omega, by simp only; omega, ?_, ?_, ?_⟩
      · intro i bound
        simp only [count] at bound ⊢
        rcases split i bound with below | edge
        · rw [old i below]
          exact inv.entries.home i below
        · rw [edge, Function.update_self]
          exact home
      · intro i bound
        simp only [count] at bound ⊢
        rcases split i bound with below | edge
        · rw [old i below]
          exact inv.entries.small i below
        · rw [edge, Function.update_self]
          exact small
      · intro i j boundI boundJ same
        simp only [count] at boundI boundJ same
        rcases split i boundI with belowI | edgeI <;> rcases split j boundJ with belowJ | edgeJ
        · rw [old i belowI, old j belowJ] at same
          exact inv.entries.distinct i j belowI belowJ same
        · rw [old i belowI, edgeJ, Function.update_self] at same
          exact absurd same (fresh i belowI)
        · rw [edgeI, old j belowJ, Function.update_self] at same
          exact absurd same.symm (fresh j belowJ)
        · omega
    · intro w member
      rw [lh]
      simp only [count]
      rcases List.mem_append.mp member with before | new
      · obtain ⟨i, bound, hit⟩ := inv.named w before
        exact ⟨i, by omega, by rw [old i bound, hit]⟩
      · rw [List.mem_singleton] at new
        exact ⟨s.lh.n.toNat, by omega, by rw [Function.update_self, new]⟩
    · intro i bound
      rw [lh] at bound ⊢
      simp only [count] at bound ⊢
      rw [seen, after]
      rcases split i bound with below | edge
      · rw [old i below, Function.update_of_ne (fresh i below), Function.update_of_ne (fresh i below)]
        exact inv.dirty i below
      · rw [edge, Function.update_self, Function.update_self, Function.update_self]
    · intro i bound
      rw [lh] at bound ⊢
      simp only [count] at bound ⊢
      rw [refcnt]
      rcases split i bound with below | edge
      · rw [old i below, Function.update_of_ne (fresh i below)]
        exact inv.pinned i below
      · rw [edge, Function.update_self, Function.update_self]
        omega
    · intro b other
      rw [lh] at other
      simp only [count] at other
      have differ : b ≠ blockno := fun same =>
        other s.lh.n.toNat (by omega) (by rw [Function.update_self, same])
      rw [seen, disk, Function.update_of_ne differ]
      refine inv.clean b fun i bound => ?_
      rw [← old i bound]
      exact other i (by omega)

/-! ## `commit` -/

/-- The header, the log blocks and the home blocks are different blocks. -/
theorem Entries.apart (entries : Entries start s.lh) {i : Nat} (bound : i < s.lh.n.toNat) :
    s.lh.block i ≠ start ∧ ∀ j, j < s.lh.n.toNat → s.lh.block i ≠ start + j + 1 := by
  have home := entries.home i bound
  refine ⟨fun same => home_ne_log (i := 0) home (by omega) (by omega), ?_⟩
  intro j inside same
  exact home_ne_log (i := j + 1) home (entries.index_le inside) (by omega)

theorem Collecting.writeLogStep (inv : Collecting start base current s)
    (copied : ∀ i, i < tail → s.disk (start + i + 1) = replay base current (s.lh.block i))
    (more : tail < s.lh.n.toNat) :
    Collecting start base current (writeLogStep start tail s) ∧
      ∀ i, i < tail + 1 →
        (writeLogStep start tail s).disk (start + i + 1) =
          replay base current (s.lh.block i) := by
  have room := inv.entries.index_le more
  refine ⟨⟨?_, ?_, ?_, ?_, ?_, ?_, ?_⟩, ?_⟩
  · rw [writeLogStep_lh]
    exact inv.entries
  · rw [writeLogStep_disk, Function.update_of_ne (by omega)]
    exact inv.empty
  · intro b home
    have differ : b ≠ start + tail + 1 := home_ne_log (i := tail + 1) home room
    rw [writeLogStep_disk, Function.update_of_ne differ]
    exact inv.home b home
  · rw [writeLogStep_lh]
    exact inv.named
  · intro i bound
    rw [writeLogStep_lh] at bound ⊢
    rw [writeLogStep_view, Function.update_of_ne ((inv.entries.apart bound).2 tail more)]
    exact inv.dirty i bound
  · rw [writeLogStep_lh, writeLogStep_refcnt]
    exact inv.pinned
  · intro b other
    rw [writeLogStep_lh] at other
    rw [writeLogStep_view, writeLogStep_disk]
    by_cases same : b = start + tail + 1
    · rw [same, Function.update_self, Function.update_self]
    · rw [Function.update_of_ne same, Function.update_of_ne same]
      exact inv.clean b other
  · intro i below
    rw [writeLogStep_disk]
    rcases Nat.lt_or_ge i tail with earlier | edge
    · rw [Function.update_of_ne (by omega)]
      exact copied i earlier
    · have : i = tail := by omega
      rw [this, Function.update_self]
      exact inv.dirty tail more

theorem Collecting.writeHead (inv : Collecting start base current s)
    (copied : ∀ i, i < s.lh.n.toNat →
      s.disk (start + i + 1) = replay base current (s.lh.block i)) :
    Installing start (replay base current) (writeHead start s) 0 := by
  obtain ⟨count, fields⟩ := headBytes_fields _ inv.entries.low inv.entries.high inv.entries.small
    (view s start)
  refine ⟨⟨⟨?_, ?_, ?_, ?_, ?_⟩, by omega, fun i below => by omega⟩, ?_⟩
  · rw [writeHead_lh]
    exact inv.entries
  · rw [writeHead_lh, writeHead_disk, Function.update_self]
    exact count
  · intro i bound
    rw [writeHead_lh] at bound ⊢
    rw [writeHead_disk, Function.update_self]
    exact fields i bound
  · intro i bound
    rw [writeHead_lh] at bound ⊢
    rw [writeHead_disk, Function.update_of_ne (by omega)]
    exact copied i bound
  · intro b home other
    rw [writeHead_lh] at other
    have differ : b ≠ start := home_ne_log (i := 0) home (by omega)
    have untouched : ∀ w, w ∈ current → w.blockno ≠ b := by
      intro w member same
      obtain ⟨i, bound, hit⟩ := inv.named w member
      exact other i bound (hit.trans same)
    rw [writeHead_disk, Function.update_of_ne differ, replay_other current base untouched]
    exact inv.home b home
  · intro b other
    rw [writeHead_lh] at other
    rw [writeHead_view, writeHead_disk]
    by_cases same : b = start
    · rw [same, Function.update_self, Function.update_self]
    · rw [Function.update_of_ne same, Function.update_of_ne same]
      exact inv.clean b fun i bound => other i (by omega) bound

theorem Installing.next (inv : Installing start base s tail) (more : tail < s.lh.n.toNat) :
    Installing start base (installStep false start tail s) (tail + 1) := by
  have entries := inv.inst.logged.entries
  have logCopy : view s (start + tail + 1) = s.disk (start + tail + 1) := by
    refine inv.clean _ fun i _ bound => ?_
    exact (entries.apart bound).2 tail more
  refine ⟨?_, ?_⟩
  · rw [installStep_disk, installStep_lh, logCopy]
    exact inv.inst.next more
  · intro b other
    rw [installStep_lh] at other
    rw [installStep_view, installStep_disk]
    by_cases same : b = s.lh.block tail
    · rw [same, Function.update_self, Function.update_self]
    · rw [Function.update_of_ne same, Function.update_of_ne same]
      refine inv.clean b fun i low bound => ?_
      rcases Nat.lt_or_ge tail i with above | edge
      · exact other i above bound
      · have : i = tail := by omega
        rw [this]
        exact Ne.symm same

theorem clearHead_collecting (inst : Installed start s.disk base s.lh tail)
    (all : s.lh.n.toNat ≤ tail) (clean : ∀ b, view s b = s.disk b) :
    Collecting start base [] (clearHead start s) := by
  have lh : (clearHead start s).lh = { s.lh with n := 0 } := by
    simp [clearHead, writeHead_lh]
  have none : ∀ i, ¬ i < (clearHead start s).lh.n.toNat := by
    intro i
    simp [lh]
  refine ⟨?_, clearHead_count s, ?_, by simp, ?_, ?_, ?_⟩
  · refine ⟨by simp [lh], by simp [lh], ?_, ?_, ?_⟩
    · intro i bound; exact absurd bound (none i)
    · intro i bound; exact absurd bound (none i)
    · intro i j bound; exact absurd bound (none i)
  · intro b home
    rw [clearHead_home home]
    exact inst.home_eq all b home
  · intro i bound; exact absurd bound (none i)
  · intro i bound; exact absurd bound (none i)
  · intro b _
    have seen : ∀ t : LogSys, view t b = t.disk b →
        view (writeHead start t) b = (writeHead start t).disk b := by
      intro t agrees
      rw [writeHead_view, writeHead_disk]
      by_cases same : b = start
      · rw [same, Function.update_self, Function.update_self]
      · rw [Function.update_of_ne same, Function.update_of_ne same]
        exact agrees
    exact seen _ (clean b)

def History.contents (disk0 : Disk) (h : History) : Disk := replay disk0 h.committed.flatten

theorem commit_contents (disk0 : Disk) (h : History) :
    h.commit.contents disk0 = replay (h.contents disk0) h.current := by
  simp [History.contents, History.commit, replay_append]

theorem phaseInv_commitStep {disk0 : Disk} {h : History}
    (inv : PhaseInv start (h.contents disk0) h.current s) (run : commitStep start s = some s') :
    PhaseInv start ((h.afterCommitStep s).contents disk0) (h.afterCommitStep s).current s' := by
  unfold commitStep at run
  cases phase : s.phase with
  | writeLog tail =>
      simp only [PhaseInv, phase] at inv
      simp only [phase] at run
      obtain ⟨collecting, some, bound, copied⟩ := inv
      have low := collecting.entries.low
      by_cases more : (tail : Int) < s.lh.n
      · rw [if_pos more, Option.some.injEq] at run
        subst run
        simp only [History.afterCommitStep, phase, if_pos more]
        obtain ⟨kept, copied'⟩ := collecting.writeLogStep copied (by omega)
        refine ⟨⟨kept.entries, kept.empty, kept.home, kept.named, kept.dirty, kept.pinned,
          kept.clean⟩, ?_, ?_, ?_⟩
        · simp only [writeLogStep_lh]
          exact some
        · simp only [writeLogStep_lh]
          omega
        · simp only [writeLogStep_lh]
          exact copied'
      · rw [if_neg more, Option.some.injEq] at run
        subst run
        simp only [History.afterCommitStep, phase, if_neg more, commit_contents]
        have whole := collecting.writeHead fun i inside => copied i (by omega)
        exact ⟨rfl, whole.inst, whole.clean⟩
  | install tail =>
      simp only [PhaseInv, phase] at inv
      simp only [phase] at run
      obtain ⟨none, installing⟩ := inv
      have low := installing.inst.logged.entries.low
      simp only [History.afterCommitStep, phase]
      by_cases more : (tail : Int) < s.lh.n
      · rw [if_pos more, Option.some.injEq] at run
        subst run
        have next := installing.next (by omega)
        exact ⟨none, next.inst, next.clean⟩
      · rw [if_neg more, Option.some.injEq] at run
        subst run
        have cleared := clearHead_collecting installing.inst (by omega)
          fun b => installing.clean b fun i low' bound => by omega
        refine ⟨none, ?_⟩
        rw [none]
        exact ⟨cleared.entries, cleared.empty, cleared.home, cleared.named, cleared.dirty,
          cleared.pinned, cleared.clean⟩
  | finishing =>
      simp only [PhaseInv, phase] at inv
      simp only [phase, Option.some.injEq] at run
      subst run
      simp only [History.afterCommitStep, phase]
      obtain ⟨_, kept⟩ := inv
      exact ⟨kept.entries, kept.empty, kept.home, kept.named, kept.dirty, kept.pinned, kept.clean⟩
  | running => simp [phase] at run
  | reading => simp [phase] at run
  | reinstall tail => simp [phase] at run

theorem phaseInv_recoverStep (inv : PhaseInv start base current s)
    (run : recoverStep start s = some s') : PhaseInv start base current s' := by
  unfold recoverStep at run
  cases phase : s.phase with
  | reading =>
      simp only [PhaseInv, phase] at inv
      simp only [phase, Option.some.injEq] at run
      subst run
      obtain ⟨none, ⟨lh, logged⟩, clean⟩ := inv
      have begun := recovering_readHead logged clean
      exact ⟨none, begun.inst, begun.clean⟩
  | reinstall tail =>
      simp only [PhaseInv, phase] at inv
      simp only [phase] at run
      obtain ⟨none, under⟩ := inv
      have low := under.inst.logged.entries.low
      by_cases more : (tail : Int) < s.lh.n
      · rw [if_pos more, Option.some.injEq] at run
        subst run
        have next := under.step (by omega)
        exact ⟨none, next.inst, next.clean⟩
      · rw [if_neg more, Option.some.injEq] at run
        subst run
        have cleared := clearHead_collecting under.inst (by omega) under.clean
        simp only [PhaseInv, none]
        exact ⟨cleared.entries, cleared.empty, cleared.home, cleared.named, cleared.dirty,
          cleared.pinned, cleared.clean⟩
  | running => simp [phase] at run
  | writeLog tail => simp [phase] at run
  | install tail => simp [phase] at run
  | finishing => simp [phase] at run

end Phases

/-! ## The operations -/

/-- What the history says about operations: the current transaction holds all that
its operations have written, and none of it is committed. -/
structure OpsInv (h : History) (s : LogSys) : Prop where
  outstanding : s.outstanding = h.active.length
  idle : s.phase ≠ .running → h.active = []
  committing : s.usable = true → s.committing = false → s.phase = .running
  nodup : h.active.Nodup
  known : ∀ op, op ∈ h.active → op < h.nextOp
  issued : ∀ w, w ∈ h.issued → w.op < h.nextOp
  order : (h.committed.flatten ++ h.current).Sublist h.issued
  live : ∀ op, op ∈ h.active ∨ ofOp op h.current ≠ [] →
    ofOp op h.current = ofOp op h.issued ∧ ofOp op h.committed.flatten = []
  begun : ∀ op, ofOp op h.current ≠ [] → op ∈ h.active ∨ op ∈ h.ended
  whole : ∀ op, ofOp op h.committed.flatten = [] ∨
    (ofOp op h.committed.flatten = ofOp op h.issued ∧ op ∈ h.ended ∧ op ∉ h.active)

section Ops
variable {start : Nat} {h : History} {s s' : LogSys}

theorem ofOp_append (op : Nat) (xs ys : List Write) :
    ofOp op (xs ++ ys) = ofOp op xs ++ ofOp op ys := by
  simp [ofOp]

theorem ofOp_fresh {op : Nat} {ws : List Write} (known : ∀ w, w ∈ ws → w.op < op) :
    ofOp op ws = [] := by
  simp only [ofOp, List.filter_eq_nil_iff, beq_iff_eq]
  intro w member same
  have := known w member
  omega

theorem OpsInv.beginOp (inv : OpsInv h s) (usable : s.usable = true)
    (run : beginOp s = some s') :
    OpsInv { h with nextOp := h.nextOp + 1, active := h.nextOp :: h.active } s' ∧
      s'.phase = .running ∧ ∃ n, s' = { s with outstanding := n } := by
  unfold Log.beginOp at run
  split at run
  · cases run
  · rename_i notCommitting
    split at run
    · cases run
    · rw [Option.some.injEq] at run
      subst run
      have running := inv.committing usable (by simpa using notCommitting)
      have fresh : ofOp h.nextOp h.issued = [] := ofOp_fresh inv.issued
      have sub : ofOp h.nextOp (h.committed.flatten ++ h.current) = [] := by
        have := (inv.order.filter fun w => w.op == h.nextOp)
        rw [show h.issued.filter (fun w => w.op == h.nextOp) = [] from fresh] at this
        exact List.sublist_nil.mp this
      rw [ofOp_append, List.append_eq_nil_iff] at sub
      refine ⟨⟨?_, ?_, ?_, ?_, ?_, ?_, inv.order, ?_, ?_, ?_⟩, running, _, rfl⟩
      · simp [inv.outstanding]
      · intro notRunning
        exact absurd running notRunning
      · intro _ _
        exact running
      · refine List.nodup_cons.mpr ⟨fun member => ?_, inv.nodup⟩
        have := inv.known _ member
        omega
      · intro op member
        rcases List.mem_cons.mp member with same | old
        · simp only [same]
          omega
        · have := inv.known op old
          simp only
          omega
      · intro w member
        have := inv.issued w member
        simp only
        omega
      · intro op joined
        by_cases same : op = h.nextOp
        · subst same
          exact ⟨sub.2.trans fresh.symm, sub.1⟩
        · refine inv.live op ?_
          rcases joined with member | writes
          · exact Or.inl ((List.mem_cons.mp member).resolve_left same)
          · exact Or.inr writes
      · intro op writes
        rcases inv.begun op writes with active | ended
        · exact Or.inl (List.mem_cons_of_mem _ active)
        · exact Or.inr ended
      · intro op
        by_cases same : op = h.nextOp
        · subst same
          exact Or.inl sub.1
        · rcases inv.whole op with none | ⟨all, ended, out⟩
          · exact Or.inl none
          · refine Or.inr ⟨all, ended, fun member => ?_⟩
            exact out ((List.mem_cons.mp member).resolve_left same)

theorem OpsInv.logWrite {op blockno : Nat} {data : Block} (inv : OpsInv h s)
    (active : op ∈ h.active) (running : s'.phase = s.phase)
    (outstanding : s'.outstanding = s.outstanding) (committing : s'.committing = s.committing) :
    OpsInv { h with
      issued := h.issued ++ [⟨op, blockno, data⟩]
      current := h.current ++ [⟨op, blockno, data⟩] } s' := by
  have usable : s'.usable = s.usable := by simp only [LogSys.usable, running]
  refine ⟨outstanding ▸ inv.outstanding, running ▸ inv.idle, ?_, inv.nodup, inv.known, ?_, ?_, ?_,
    ?_, ?_⟩
  · rw [usable, committing, running]
    exact inv.committing
  · intro w member
    rcases List.mem_append.mp member with old | new
    · exact inv.issued w old
    · rw [List.mem_singleton] at new
      rw [new]
      exact inv.known op active
  · simpa using inv.order.append (List.Sublist.refl [(⟨op, blockno, data⟩ : Write)])
  · intro o joined
    simp only [ofOp_append] at joined ⊢
    have before : o ∈ h.active ∨ ofOp o h.current ≠ [] := by
      by_cases same : op = o
      · exact Or.inl (same ▸ active)
      · simpa [ofOp, same] using joined
    obtain ⟨all, none⟩ := inv.live o before
    exact ⟨by rw [all], none⟩
  · intro o writes
    simp only [ofOp_append] at writes
    by_cases same : op = o
    · exact Or.inl (same ▸ active)
    · refine inv.begun o ?_
      simpa [ofOp, same] using writes
  · intro o
    rcases inv.whole o with none | ⟨all, ended, out⟩
    · exact Or.inl none
    · have same : op ≠ o := fun same => out (same ▸ active)
      refine Or.inr ⟨?_, ended, out⟩
      simp only [ofOp_append]
      rw [all]
      simp [ofOp, same]

theorem OpsInv.endOp {op : Nat} (inv : OpsInv h s) (active : op ∈ h.active)
    (run : endOp s = some s') :
    OpsInv { h with active := h.active.erase op, ended := op :: h.ended } s' ∧
    s.phase = .running ∧
    (s'.phase = .running ∨ (s.lh.n > 0 ∧ s'.phase = .writeLog 0) ∨
      (¬ s.lh.n > 0 ∧ s'.phase = .finishing)) ∧
    s'.disk = s.disk ∧ s'.cache = s.cache ∧ s'.refcnt = s.refcnt ∧ s'.lh = s.lh := by
  have running : s.phase = .running := by
    by_contra notRunning
    rw [inv.idle notRunning] at active
    cases active
  have length : (h.active.erase op).length = h.active.length - 1 := List.length_erase_of_mem active
  have positive : 0 < h.active.length := List.length_pos_of_mem active
  have outstanding := inv.outstanding
  -- nothing but the count and the phase has changed
  have keeps : ∀ t : LogSys, t.outstanding = s.outstanding - 1 →
      (t.phase ≠ .running → s.outstanding - 1 = 0) →
      (t.usable = true → t.committing = false → t.phase = .running) →
      OpsInv { h with active := h.active.erase op, ended := op :: h.ended } t := by
    intro t count idle committing
    refine ⟨?_, ?_, committing, inv.nodup.erase op, ?_, inv.issued, inv.order, ?_, ?_, ?_⟩
    · simp only [length]
      omega
    · intro notRunning
      have := idle notRunning
      exact List.length_eq_zero_iff.mp (by simp only [length]; omega)
    · intro o member
      exact inv.known o (List.mem_of_mem_erase member)
    · intro o joined
      refine inv.live o ?_
      rcases joined with member | writes
      · exact Or.inl (List.mem_of_mem_erase member)
      · exact Or.inr writes
    · intro o writes
      rcases inv.begun o writes with member | ended
      · by_cases same : o = op
        · exact Or.inr (by simp [same])
        · exact Or.inl ((List.mem_erase_of_ne same).mpr member)
      · exact Or.inr (List.mem_cons_of_mem _ ended)
    · intro o
      rcases inv.whole o with none | ⟨all, ended, out⟩
      · exact Or.inl none
      · exact Or.inr ⟨all, List.mem_cons_of_mem _ ended,
          fun member => out (List.mem_of_mem_erase member)⟩
  unfold Log.endOp at run
  simp only at run
  split at run
  · cases run
  · rename_i notCommitting
    split at run
    · rename_i last
      rw [Option.some.injEq] at run
      subst run
      refine ⟨keeps _ rfl (fun _ => last) (by simp), running, ?_, rfl, rfl, rfl, rfl⟩
      by_cases some : s.lh.n > 0
      · exact Or.inr (Or.inl ⟨some, by simp [some]⟩)
      · exact Or.inr (Or.inr ⟨some, by simp [some]⟩)
    · rw [Option.some.injEq] at run
      subst run
      refine ⟨keeps _ rfl ?_ ?_, running, Or.inl running, rfl, rfl, rfl, rfl⟩
      · intro notRunning
        exact absurd running notRunning
      · intro _ _
        exact running

theorem OpsInv.commit (inv : OpsInv h s) (none : h.active = []) (outstanding : s'.outstanding = 0)
    (committing : s'.usable = true → s'.committing = false → s'.phase = .running) :
    OpsInv h.commit s' := by
  refine ⟨?_, fun _ => none, committing, inv.nodup, inv.known, inv.issued, ?_, ?_, ?_, ?_⟩
  · simp [History.commit, none, outstanding]
  · simpa [History.commit] using inv.order
  · intro op joined
    simp [History.commit, none, ofOp] at joined
  · intro op writes
    simp [History.commit, ofOp] at writes
  · intro op
    simp only [History.commit, List.flatten_append, List.flatten_singleton, ofOp_append]
    by_cases silent : ofOp op h.current = []
    · rw [silent, List.append_nil]
      exact inv.whole op
    · obtain ⟨all, before⟩ := inv.live op (Or.inr silent)
      have ended : op ∈ h.ended := by
        rcases inv.begun op silent with active | ended
        · rw [none] at active
          cases active
        · exact ended
      exact Or.inr ⟨by rw [before, List.nil_append, all], ended, by simp [none]⟩

theorem OpsInv.crash (inv : OpsInv h s) (disk : Disk) :
    OpsInv h.crash (LogSys.reset disk .reading) := by
  refine ⟨rfl, fun _ => rfl, by simp [LogSys.usable, LogSys.reset], List.nodup_nil, ?_, inv.issued,
    ?_, ?_, ?_, ?_⟩
  · intro op member; cases member
  · exact (List.sublist_append_left _ _).trans (by simpa [History.crash] using inv.order)
  · intro op joined
    simp [History.crash, ofOp] at joined
  · intro op writes
    simp [History.crash, ofOp] at writes
  · intro op
    rcases inv.whole op with none | ⟨all, ended, _⟩
    · exact Or.inl none
    · exact Or.inr ⟨all, ended, by simp [History.crash]⟩

/-- A step that changes neither the operations nor the count of those under way. -/
theorem OpsInv.other (inv : OpsInv h s) (outstanding : s'.outstanding = s.outstanding)
    (idle : s'.phase ≠ .running → h.active = [])
    (committing : s'.usable = true → s'.committing = false → s'.phase = .running) :
    OpsInv h s' :=
  ⟨outstanding ▸ inv.outstanding, idle, committing, inv.nodup, inv.known, inv.issued, inv.order,
    inv.live, inv.begun, inv.whole⟩

theorem commitStep_frame (run : commitStep start s = some s') :
    s.phase ≠ .running ∧ s.usable = true ∧ s'.outstanding = s.outstanding ∧
      (s'.phase = .running ∨ s'.committing = s.committing) := by
  unfold commitStep at run
  cases phase : s.phase <;> simp only [phase] at run
  case running => cases run
  case reading => cases run
  case reinstall => cases run
  case writeLog tail =>
    refine ⟨by simp, by simp [LogSys.usable, phase], ?_⟩
    split at run <;> rw [Option.some.injEq] at run <;> subst run <;>
      simp [writeLogStep, writeHead, bwrite]
  case install tail =>
    refine ⟨by simp, by simp [LogSys.usable, phase], ?_⟩
    split at run <;> rw [Option.some.injEq] at run <;> subst run <;>
      simp [installStep, clearHead, writeHead, bwrite, bunpin]
  case finishing =>
    rw [Option.some.injEq] at run
    subst run
    exact ⟨by simp, by simp [LogSys.usable, phase], rfl, Or.inl rfl⟩

theorem recoverStep_frame (run : recoverStep start s = some s') :
    s.phase ≠ .running ∧ s'.outstanding = s.outstanding ∧
      (s'.phase = .running ∨ s'.usable = false) := by
  unfold recoverStep at run
  cases phase : s.phase <;> simp only [phase] at run
  case running => cases run
  case writeLog => cases run
  case install => cases run
  case finishing => cases run
  case reading =>
    rw [Option.some.injEq] at run
    subst run
    exact ⟨by simp, by simp [readHead], Or.inr (by simp [LogSys.usable])⟩
  case reinstall tail =>
    refine ⟨by simp, ?_⟩
    split at run <;> rw [Option.some.injEq] at run <;> subst run <;>
      simp [installStep, clearHead, writeHead, bwrite, LogSys.usable]

theorem logWrite_frame {blockno : Nat} {data : Block} (run : logWrite blockno data s = some s') :
    s'.outstanding = s.outstanding ∧ s'.committing = s.committing := by
  unfold Log.logWrite at run
  simp only at run
  split at run
  · cases run
  · split at run
    · cases run
    · split at run <;> rw [Option.some.injEq] at run <;> subst run <;> exact ⟨rfl, rfl⟩

theorem OpsInv.commitStep (inv : OpsInv h s) (run : commitStep start s = some s') :
    OpsInv (h.afterCommitStep s) s' := by
  obtain ⟨notRunning, usable, outstanding, moved⟩ := commitStep_frame run
  have none := inv.idle notRunning
  have committing : s'.usable = true → s'.committing = false → s'.phase = .running := by
    intro _ notCommitting
    rcases moved with running | same
    · exact running
    · exact absurd (inv.committing usable (same ▸ notCommitting)) notRunning
  have zero : s'.outstanding = 0 := by
    rw [outstanding, inv.outstanding, none]
    rfl
  simp only [History.afterCommitStep]
  split
  · split
    · exact inv.other outstanding (fun _ => none) committing
    · exact inv.commit none zero committing
  · exact inv.other outstanding (fun _ => none) committing

theorem opsInv_step {w w' : World} {e : Event} (inv : OpsInv w.hist w.sys)
    (run : step start w e = some w') : OpsInv w'.hist w'.sys := by
  cases e with
  | beginOp =>
      simp only [step] at run
      split at run
      · rename_i usable
        obtain ⟨s', made, rfl⟩ := Option.map_eq_some_iff.mp run
        exact (inv.beginOp usable made).1
      · cases run
  | logWrite op blockno data =>
      simp only [step] at run
      split at run
      · rename_i allowed
        obtain ⟨s', made, rfl⟩ := Option.map_eq_some_iff.mp run
        obtain ⟨outstanding, committing⟩ := logWrite_frame made
        exact inv.logWrite allowed.1 (logWrite_cases made).2.1 outstanding committing
      · cases run
  | endOp op =>
      simp only [step] at run
      split at run
      · rename_i active
        obtain ⟨s', made, rfl⟩ := Option.map_eq_some_iff.mp run
        exact (inv.endOp active made).1
      · cases run
  | commit =>
      obtain ⟨s', made, rfl⟩ := Option.map_eq_some_iff.mp run
      exact inv.commitStep made
  | bread b =>
      simp only [step, Option.some.injEq] at run
      subst run
      refine inv.other (bread_outstanding _ b) ?_ ?_
      · rw [bread_phase]
        exact inv.idle
      · simp only [LogSys.usable, bread_phase, bread_committing]
        exact inv.committing
  | evict b =>
      simp only [step] at run
      split at run
      · rw [Option.some.injEq] at run
        subst run
        exact inv.other rfl inv.idle inv.committing
      · cases run
  | crash =>
      simp only [step, Option.some.injEq] at run
      subst run
      exact inv.crash _
  | recover =>
      obtain ⟨s', made, rfl⟩ := Option.map_eq_some_iff.mp run
      obtain ⟨notRunning, outstanding, moved⟩ := recoverStep_frame made
      refine inv.other outstanding (fun _ => inv.idle notRunning) ?_
      intro usable _
      rcases moved with running | unusable
      · exact running
      · rw [unusable] at usable
        cases usable

end Ops

/-! ## Runs -/

structure WorldInv (start : Nat) (disk0 : Disk) (w : World) : Prop where
  phase : PhaseInv start (w.hist.contents disk0) w.hist.current w.sys
  ops : OpsInv w.hist w.sys

section World
variable {start : Nat} {disk0 : Disk} {w w' : World}

theorem worldInv_commit {s' : LogSys} (inv : WorldInv start disk0 w)
    (run : commitStep start w.sys = some s') :
    WorldInv start disk0 ⟨s', w.hist.afterCommitStep w.sys⟩ :=
  ⟨phaseInv_commitStep inv.phase run, inv.ops.commitStep run⟩

theorem worldInv_endOp {op : Nat} {s' : LogSys} (inv : WorldInv start disk0 w)
    (active : op ∈ w.hist.active) (run : endOp w.sys = some s') :
    WorldInv start disk0 ⟨s', { w.hist with
      active := w.hist.active.erase op, ended := op :: w.hist.ended }⟩ := by
  obtain ⟨ops, running, phase, disk, cache, refcnt, lh⟩ := inv.ops.endOp active run
  refine ⟨?_, ops⟩
  have collecting := inv.phase
  simp only [PhaseInv, running] at collecting
  have moved : Recycled w.sys s' :=
    ⟨disk, lh, refcnt, fun b => Or.inl (by simp only [view, disk, cache])⟩
  have kept := collecting.recycled moved
  simp only [PhaseInv]
  rcases phase with same | ⟨some, toLog⟩ | ⟨none, done⟩
  · rw [same]
    exact kept
  · rw [toLog]
    exact ⟨kept, lh ▸ some, by omega, fun i below => by omega⟩
  · rw [done]
    refine ⟨?_, kept⟩
    have empty : ∀ x, x ∉ w.hist.current := by
      intro x member
      obtain ⟨i, bound, _⟩ := collecting.named x member
      omega
    exact List.eq_nil_iff_forall_not_mem.mpr empty

theorem worldInv_step {e : Event} (inv : WorldInv start disk0 w)
    (run : step start w e = some w') : WorldInv start disk0 w' := by
  have ops := opsInv_step inv.ops run
  refine ⟨?_, ops⟩
  cases e with
  | beginOp =>
      simp only [step] at run
      split at run
      · rename_i usable
        obtain ⟨s', made, rfl⟩ := Option.map_eq_some_iff.mp run
        obtain ⟨-, running, n, shape⟩ := inv.ops.beginOp usable made
        subst shape
        exact phaseInv_recycled inv.phase ⟨rfl, rfl, rfl, fun _ => Or.inl rfl⟩ rfl
      · cases run
  | logWrite op blockno data =>
      simp only [step] at run
      split at run
      · rename_i allowed
        obtain ⟨active, home, small⟩ := allowed
        obtain ⟨s', made, rfl⟩ := Option.map_eq_some_iff.mp run
        have running : w.sys.phase = .running := by
          by_contra notRunning
          rw [inv.ops.idle notRunning] at active
          cases active
        have collecting := inv.phase
        simp only [PhaseInv, running] at collecting
        obtain ⟨kept, phase⟩ := collecting.logWrite op home small made
        simp only [PhaseInv, phase, running]
        exact kept
      · cases run
  | endOp op =>
      simp only [step] at run
      split at run
      · rename_i active
        obtain ⟨s', made, rfl⟩ := Option.map_eq_some_iff.mp run
        exact (worldInv_endOp inv active made).phase
      · cases run
  | commit =>
      obtain ⟨s', made, rfl⟩ := Option.map_eq_some_iff.mp run
      exact (worldInv_commit inv made).phase
  | bread b =>
      simp only [step, Option.some.injEq] at run
      subst run
      exact phaseInv_recycled inv.phase (bread_recycled b) (bread_phase _ b)
  | evict b =>
      simp only [step] at run
      split at run
      · rename_i loose
        rw [Option.some.injEq] at run
        subst run
        exact phaseInv_recycled inv.phase (evict_recycled loose) rfl
      · cases run
  | crash =>
      simp only [step, Option.some.injEq] at run
      subst run
      have logged := logged_of_phase inv.phase
      exact ⟨rfl, logged, fun _ => rfl⟩
  | recover =>
      obtain ⟨s', made, rfl⟩ := Option.map_eq_some_iff.mp run
      exact phaseInv_recoverStep inv.phase made

def onDisk (start : Nat) (w : World) : Nat := getLE (w.sys.disk start) 0 4

theorem installStep_header {s : LogSys} {base : Disk} {tail : Nat} (recovering : Bool)
    (inst : Installed start s.disk base s.lh tail) (more : tail < s.lh.n.toNat) :
    (installStep recovering start tail s).disk start = s.disk start := by
  rw [installStep_disk]
  exact Function.update_of_ne (Ne.symm (inst.logged.entries.apart (s := s) more).1) _ _

/-- A transaction counts as committed exactly from the step that writes a header with
blocks over an empty one. -/
theorem commits_step {e : Event} (inv : WorldInv start disk0 w) (run : step start w e = some w') :
    (onDisk start w = 0 ∧ onDisk start w' ≠ 0 ∧
      w'.hist.committed = w.hist.committed ++ [w.hist.current]) ∨
    (¬ (onDisk start w = 0 ∧ onDisk start w' ≠ 0) ∧
      w'.hist.committed = w.hist.committed) := by
  -- a step that leaves the header block alone
  have same : w'.sys.disk start = w.sys.disk start →
      ¬ (onDisk start w = 0 ∧ onDisk start w' ≠ 0) := by
    intro header both
    unfold onDisk at both
    rw [header] at both
    exact both.2 both.1
  cases e with
  | beginOp =>
      simp only [step] at run
      split at run
      · rename_i usable
        obtain ⟨s', made, rfl⟩ := Option.map_eq_some_iff.mp run
        obtain ⟨_, _, n, shape⟩ := inv.ops.beginOp usable made
        exact Or.inr ⟨same (by rw [shape]), rfl⟩
      · cases run
  | logWrite op blockno data =>
      simp only [step] at run
      split at run
      · obtain ⟨s', made, rfl⟩ := Option.map_eq_some_iff.mp run
        obtain ⟨_, _, disk, _⟩ := logWrite_cases made
        exact Or.inr ⟨same (by rw [disk]), rfl⟩
      · cases run
  | endOp op =>
      simp only [step] at run
      split at run
      · rename_i active
        obtain ⟨s', made, rfl⟩ := Option.map_eq_some_iff.mp run
        obtain ⟨_, _, _, disk, _⟩ := inv.ops.endOp active made
        exact Or.inr ⟨same (by rw [disk]), rfl⟩
      · cases run
  | commit =>
      obtain ⟨s', made, rfl⟩ := Option.map_eq_some_iff.mp run
      have phaseInv := inv.phase
      have phaseInv' := phaseInv_commitStep inv.phase made
      unfold commitStep at made
      cases phase : w.sys.phase with
      | writeLog tail =>
          simp only [phase] at made
          simp only [PhaseInv, phase] at phaseInv
          by_cases more : (tail : Int) < w.sys.lh.n
          · right
            rw [if_pos more, Option.some.injEq] at made
            subst made
            simp only [PhaseInv] at phaseInv'
            refine ⟨fun both => both.2 phaseInv'.1.empty, ?_⟩
            simp [History.afterCommitStep, phase, more]
          · left
            rw [if_neg more, Option.some.injEq] at made
            subst made
            refine ⟨phaseInv.1.empty, ?_, ?_⟩
            · have entries := phaseInv.1.entries
              have count := (headBytes_fields _ entries.low entries.high entries.small
                (view w.sys start)).1
              have some := phaseInv.2.1
              simp only [onDisk, writeHead_disk, Function.update_self, count]
              omega
            · simp [History.afterCommitStep, phase, more, History.commit]
      | install tail =>
          simp only [phase] at made
          simp only [PhaseInv, phase] at phaseInv
          have low := phaseInv.2.inst.logged.entries.low
          refine Or.inr ⟨?_, by simp [History.afterCommitStep, phase]⟩
          by_cases more : (tail : Int) < w.sys.lh.n
          · rw [if_pos more, Option.some.injEq] at made
            subst made
            exact same (installStep_header false phaseInv.2.inst (by omega))
          · rw [if_neg more, Option.some.injEq] at made
            subst made
            exact fun both => both.2 (clearHead_count w.sys)
      | finishing =>
          simp only [phase, Option.some.injEq] at made
          subst made
          exact Or.inr ⟨same rfl, by simp [History.afterCommitStep, phase]⟩
      | running => simp [phase] at made
      | reading => simp [phase] at made
      | reinstall tail => simp [phase] at made
  | bread b =>
      simp only [step, Option.some.injEq] at run
      subst run
      exact Or.inr ⟨same (by rw [bread_disk]), rfl⟩
  | evict b =>
      simp only [step] at run
      split at run
      · rw [Option.some.injEq] at run
        subst run
        exact Or.inr ⟨same rfl, rfl⟩
      · cases run
  | crash =>
      simp only [step, Option.some.injEq] at run
      subst run
      exact Or.inr ⟨same rfl, rfl⟩
  | recover =>
      obtain ⟨s', made, rfl⟩ := Option.map_eq_some_iff.mp run
      refine Or.inr ⟨?_, rfl⟩
      have phaseInv := inv.phase
      unfold recoverStep at made
      cases phase : w.sys.phase with
      | reading =>
          simp only [phase, Option.some.injEq] at made
          subst made
          exact same (by simp [readHead])
      | reinstall tail =>
          simp only [phase] at made
          simp only [PhaseInv, phase] at phaseInv
          have low := phaseInv.2.inst.logged.entries.low
          by_cases more : (tail : Int) < w.sys.lh.n
          · rw [if_pos more, Option.some.injEq] at made
            subst made
            exact same (installStep_header true phaseInv.2.inst (by omega))
          · rw [if_neg more, Option.some.injEq] at made
            subst made
            exact fun both => both.2 (clearHead_count w.sys)
      | running => simp [phase] at made
      | writeLog tail => simp [phase] at made
      | install tail => simp [phase] at made
      | finishing => simp [phase] at made

end World

/-- A machine that has recovered: the log on disk is empty and nothing is under way. -/
def World.ready (disk : Disk) : World := ⟨LogSys.reset disk .running, History.empty⟩

theorem ready_worldInv {start : Nat} {disk : Disk} (empty : getLE (disk start) 0 4 = 0) :
    WorldInv start disk (World.ready disk) := by
  refine ⟨?_, ?_⟩
  · refine ⟨⟨by simp [World.ready, LogSys.reset], by simp [World.ready, LogSys.reset], ?_, ?_, ?_⟩,
      empty, fun _ _ => rfl, ?_, ?_, ?_, fun _ _ => rfl⟩ <;>
      simp [World.ready, LogSys.reset, History.empty]
  · refine ⟨rfl, ?_, ?_, List.nodup_nil, ?_, ?_, ?_, ?_, ?_, ?_⟩ <;>
      simp [World.ready, LogSys.reset, History.empty, ofOp]

/-- What a crash at any point of a run leaves. -/
structure CrashAtomic (start : Nat) (r : Run (step start)) : Prop where
  /-- Recovery yields the committed transactions and nothing else. -/
  recovers : ∀ t, t ≤ r.len → ∀ b, Home start b →
    recovered start (r.state t).sys.disk b =
      replay (r.state 0).sys.disk (r.state t).hist.committed.flatten b
  /-- A transaction is committed by the write of its header and by no other step. -/
  commits : ∀ t, t < r.len →
    (r.state (t + 1)).hist.committed =
      if onDisk start (r.state t) = 0 ∧ onDisk start (r.state (t + 1)) ≠ 0 then
        (r.state t).hist.committed ++ [(r.state t).hist.current]
      else (r.state t).hist.committed
  /-- An operation is present with all its writes, and has ended, or is absent. -/
  whole : ∀ t, t ≤ r.len → ∀ op,
    ofOp op (r.state t).hist.committed.flatten = [] ∨
    (ofOp op (r.state t).hist.committed.flatten = ofOp op (r.state t).hist.issued ∧
      op ∈ (r.state t).hist.ended)
  /-- The writes present are in the order in which they were issued. -/
  order : ∀ t, t ≤ r.len →
    (r.state t).hist.committed.flatten.Sublist (r.state t).hist.issued

theorem log_crash_atomic (start : Nat) (disk : Disk) (empty : getLE (disk start) 0 4 = 0)
    (r : Run (step start)) (ready : r.state 0 = World.ready disk) : CrashAtomic start r := by
  have inv : ∀ t, t ≤ r.len → WorldInv start disk (r.state t) :=
    r.invariant (WorldInv start disk) (ready ▸ ready_worldInv empty)
      (fun _ _ _ run inv => worldInv_step inv run)
  refine ⟨?_, ?_, ?_, ?_⟩
  · intro t within b home
    obtain ⟨lh, logged⟩ := logged_of_phase (inv t within).phase
    rw [recovered_eq logged b home, ready]
    rfl
  · intro t inside
    rcases commits_step (inv t (by omega)) (r.next t inside) with
      ⟨before, after, grown⟩ | ⟨other, kept⟩
    · rw [if_pos ⟨before, after⟩]
      exact grown
    · rw [if_neg other]
      exact kept
  · intro t within op
    rcases (inv t within).ops.whole op with none | ⟨all, ended, _⟩
    · exact Or.inl none
    · exact Or.inr ⟨all, ended⟩
  · intro t within
    exact (List.sublist_append_left _ _).trans (inv t within).ops.order

/-- Two operations share a transaction; the machine stops after the header and one
home block are written, and again during recovery. -/
def twoCrashes : Run (step 2) :=
  Run.ofEvents (step 2) (World.ready fun _ _ => 0)
    [.beginOp, .logWrite 0 50 fun _ => 7, .beginOp, .logWrite 1 51 fun _ => 8, .endOp 0, .endOp 1,
      .commit, .commit, .commit, .commit, .crash, .recover, .recover, .crash] .crash
    (by decide +kernel)

/-- Without the header nothing survives; with it both operations do. -/
theorem twoCrashes_atomic : CrashAtomic 2 twoCrashes ∧
    recovered 2 (twoCrashes.state 8).sys.disk 51 0 = 0 ∧
    recovered 2 (twoCrashes.state 14).sys.disk 51 0 = 8 := by
  refine ⟨log_crash_atomic 2 (fun _ _ => 0) (by decide) twoCrashes rfl, ?_, ?_⟩
  · decide +kernel
  · decide +kernel

end Xv6Fcfs.Log
