import Xv6Fcfs.Disk.Driver

/-!
# The driver's invariant

Processes inside the driver are asleep or runnable, the waiters for descriptors are
those with the channel `&disk.free[0]`, and every request under way owns a linked
chain of three descriptors that no other request shares.
-/

set_option autoImplicit false

namespace Xv6Fcfs.Disk

open Xv6Fcfs.Lib Xv6Fcfs.Process

/-- The process table and the places in the driver.  The process that holds the CPU
may be anywhere. -/
structure ProcInv (k : Kernel) (cpu : Option Slot) (pc : Slot → DrvPc) : Prop where
  cpuOk : CpuOk ⟨k, cpu⟩
  inside : ∀ p, cpu ≠ some p → pc p ≠ .outside →
    (k.proc p).state = .sleeping ∨ (k.proc p).state = .runnable
  asleep : ∀ p, (k.proc p).state = .sleeping → (k.proc p).chan = some .diskFree →
    ∃ req, pc p = .allocWait req
  waitChan : ∀ p req, cpu ≠ some p → pc p = .allocWait req →
    (k.proc p).chan = some .diskFree

structure DescInv (d : VDisk) (pc : Slot → DrvPc) : Prop where
  chains : ∀ p b i0 i1 i2, pc p = .diskWait b i0 i1 i2 → Chain d i0 i1 i2
  apart : ∀ p q b i0 i1 i2 b' j0 j1 j2, p ≠ q → pc p = .diskWait b i0 i1 i2 →
    pc q = .diskWait b' j0 j1 j2 → ∀ i, i ∈ [i0, i1, i2] → i ∉ [j0, j1, j2]
  bufs : ∀ p q b, p ≠ q → (pc p).buffer = some b → (pc q).buffer ≠ some b

structure SysInv (s : Sys) : Prop where
  proc : ProcInv s.kernel s.cpu s.pc
  desc : DescInv s.disk s.pc
  out : ∀ p, s.cpu = some p → s.pc p = .outside

/-! ## The process table -/

section Proc
variable {k k' : Kernel} {cpu : Option Slot} {pc : Slot → DrvPc} {p : Slot}

theorem ProcInv.wakes (inv : ProcInv k cpu pc) (wakes : WakesOnly k k') :
    ProcInv k' cpu pc := by
  have same : ∀ q, k'.proc q = { k.proc q with state := (k'.proc q).state } := by
    intro q
    rcases wakes.proc q with same | ⟨_, woken⟩
    · rw [same]
    · rw [woken]
  have moved : ∀ q, (k'.proc q).state = (k.proc q).state ∨ (k'.proc q).state = .runnable := by
    intro q
    rcases wakes.proc q with same | ⟨_, woken⟩
    · exact Or.inl (by rw [same])
    · exact Or.inr (by rw [woken])
  refine ⟨?_, ?_, ?_, ?_⟩
  · intro q
    exact (wakes.state_iff q .running (by simp) (by simp)).trans (inv.cpuOk q)
  · intro q differ inside
    rcases moved q with kept | ready
    · rw [kept]
      exact inv.inside q differ inside
    · exact Or.inr ready
  · intro q asleep chan
    rw [same q] at chan
    rcases moved q with kept | ready
    · exact inv.asleep q (kept ▸ asleep) chan
    · rw [asleep] at ready
      cases ready
  · intro q req differ waits
    rw [same q]
    exact inv.waitChan q req differ waits

theorem ProcInv.scheduled (inv : ProcInv k none pc) (ready : (k.proc p).state = .runnable) :
    ProcInv (k.setProc p fun q => { q with state := .running, chan := none }) (some p) pc := by
  refine ⟨?_, ?_, ?_, ?_⟩
  · intro q
    by_cases same : q = p
    · subst same; simp
    · have := inv.cpuOk q
      simp_all [Ne.symm same]
  · intro q differ inside
    have other : q ≠ p := fun same => differ (by rw [same])
    simpa [other] using inv.inside q (by simp) inside
  · intro q asleep chan
    have other : q ≠ p := fun same => by subst same; simp at asleep
    exact inv.asleep q (by simpa [other] using asleep) (by simpa [other] using chan)
  · intro q req differ waits
    have other : q ≠ p := fun same => differ (by rw [same])
    simpa [other] using inv.waitChan q req (by simp) waits

/-- The running process goes to sleep at a place that fits the channel. -/
theorem ProcInv.slept (inv : ProcInv k (some p) pc) (chan : Chan) (place : DrvPc)
    (fits : chan = .diskFree ↔ ∃ req, place = .allocWait req) :
    ProcInv (sleep chan p k) none (Function.update pc p place) := by
  refine ⟨?_, ?_, ?_, ?_⟩
  · intro q
    by_cases same : q = p
    · subst same; simp [sleep]
    · have := inv.cpuOk q
      simp_all [sleep, Ne.symm same]
  · intro q _ inside
    by_cases same : q = p
    · subst same; simp [sleep]
    · simpa [sleep, same] using
        inv.inside q (by simpa using Ne.symm same) (by simpa [same] using inside)
  · intro q asleep isFree
    by_cases same : q = p
    · subst same
      simpa [sleep] using fits.mp (by simpa [sleep] using isFree)
    · simpa [same] using
        inv.asleep q (by simpa [sleep, same] using asleep) (by simpa [sleep, same] using isFree)
  · intro q req _ waits
    by_cases same : q = p
    · subst same
      simpa [sleep] using fits.mpr ⟨req, by simpa using waits⟩
    · simpa [sleep, same] using
        inv.waitChan q req (by simpa using Ne.symm same) (by simpa [same] using waits)

theorem ProcInv.left (inv : ProcInv k (some p) pc) :
    ProcInv k (some p) (Function.update pc p .outside) := by
  have running : (k.proc p).state = .running := (inv.cpuOk p).mpr rfl
  refine ⟨inv.cpuOk, ?_, ?_, ?_⟩
  · intro q differ inside
    have other : q ≠ p := fun same => differ (by rw [same])
    exact inv.inside q differ (by simpa [other] using inside)
  · intro q asleep chan
    have other : q ≠ p := fun same => by rw [same, running] at asleep; cases asleep
    simpa [other] using inv.asleep q asleep chan
  · intro q req differ waits
    have other : q ≠ p := fun same => differ (by rw [same])
    exact inv.waitChan q req differ (by simpa [other] using waits)

/-- A change of a slot that is outside the driver and does not sleep in it. -/
theorem ProcInv.frame {cpu' : Option Slot} (inv : ProcInv k cpu pc) (np : Slot)
    (cpuOk : CpuOk ⟨k', cpu'⟩) (outside : pc np = .outside)
    (cpuKept : ∀ q, pc q ≠ .outside → cpu' = cpu ∨ cpu' ≠ some q ∧ cpu ≠ some q)
    (own : (k'.proc np).state = .sleeping → (k'.proc np).chan ≠ some .diskFree)
    (others : ∀ q, q ≠ np → (k'.proc q).chan = (k.proc q).chan ∧
      ((k'.proc q).state = (k.proc q).state ∨
        ((k.proc q).state = .sleeping ∧ (k'.proc q).state = .runnable))) :
    ProcInv k' cpu' pc := by
  have before : ∀ q, pc q ≠ .outside → cpu' ≠ some q → cpu ≠ some q := by
    intro q inside differ
    rcases cpuKept q inside with same | ⟨_, out⟩
    · exact same ▸ differ
    · exact out
  refine ⟨cpuOk, ?_, ?_, ?_⟩
  · intro q differ inside
    have other : q ≠ np := fun same => inside (same ▸ outside)
    rcases (others q other).2 with kept | ⟨_, ready⟩
    · rw [kept]
      exact inv.inside q (before q inside differ) inside
    · exact Or.inr ready
  · intro q asleep chan
    by_cases same : q = np
    · subst same
      exact absurd chan (own asleep)
    · obtain ⟨chanKept, kept | ⟨_, ready⟩⟩ := others q same
      · exact inv.asleep q (kept ▸ asleep) (chanKept ▸ chan)
      · rw [asleep] at ready
        cases ready
  · intro q req differ waits
    have inside : pc q ≠ .outside := by simp [waits]
    have other : q ≠ np := fun same => inside (same ▸ outside)
    rw [(others q other).1]
    exact inv.waitChan q req (before q inside differ) waits

theorem ProcInv.outside_of_state (inv : ProcInv k cpu pc)
    (notAsleep : (k.proc p).state ≠ .sleeping) (notReady : (k.proc p).state ≠ .runnable)
    (notRunning : (k.proc p).state ≠ .running) : pc p = .outside := by
  by_contra inside
  have differ : cpu ≠ some p := fun running => notRunning ((inv.cpuOk p).mpr running)
  rcases inv.inside p differ inside with asleep | ready
  · exact notAsleep asleep
  · exact notReady ready

theorem ProcInv.elsewhere {m m' : Machine} {e : Event} (inv : ProcInv m.kernel m.cpu pc)
    (out : ∀ p, m.cpu = some p → pc p = .outside) (elsewhere : Elsewhere e = true)
    (effect : Effect m e m') :
    ProcInv m'.kernel m'.cpu pc ∧ ∀ p, m'.cpu = some p → pc p = .outside := by
  have cpuOk := cpuOk_effect inv.cpuOk effect
  have unused : ∀ np, unusedSlot m.kernel = some np → pc np = .outside := by
    intro np free
    have := unusedSlot_some free
    exact inv.outside_of_state (by simp [this]) (by simp [this]) (by simp [this])
  cases effect with
  | idle e k' quiet wakes => exact ⟨inv.wakes wakes, out⟩
  | booted mem rootInode np first free =>
      refine ⟨inv.frame np cpuOk (unused np free) (fun _ _ => Or.inl rfl) ?_ ?_, out⟩
      · simp [firstProcess]
      · intro q differ; simp [differ]
  | forkFailed mem p np running free =>
      refine ⟨inv.frame np cpuOk (unused np free) (fun _ _ => Or.inl rfl) ?_ ?_, out⟩
      · simp [freeproc]
      · intro q differ; simp [freeproc, differ]
  | forked mem p np running free =>
      refine ⟨inv.frame np cpuOk (unused np free) (fun _ _ => Or.inl rfl) ?_ ?_, out⟩
      · simp [forkChild]
      · intro q differ; simp [differ]
  | exited status p k' running notInit exit =>
      refine ⟨inv.frame p cpuOk (out p running) ?_ ?_ ?_, by simp⟩
      · intro q inside
        refine Or.inr ⟨by simp, fun holds => inside (out q holds)⟩
      · simp [exit.caller]
      · intro q differ
        obtain ⟨t, shape, moved⟩ := exit.others q differ
        simp only [Kernel.setProc_other _ _ _ _ differ] at shape moved
        rw [shape]
        exact ⟨rfl, moved⟩
  | reaped p pp running found =>
      have zombie := (zombieChild_some found).2
      have outside : pc pp = .outside :=
        inv.outside_of_state (by simp [zombie]) (by simp [zombie]) (by simp [zombie])
      refine ⟨inv.frame pp cpuOk outside (fun _ _ => Or.inl rfl) ?_ ?_, out⟩
      · simp [freeproc]
      · intro q differ; simp [freeproc, differ]
  | slept e p chan running calls =>
      have foreign : chan ≠ .diskFree := by
        rcases calls with rfl | ⟨_, rfl⟩
        · intro same
          simp [Elsewhere, same, Foreign] at elsewhere
        · simp
      refine ⟨inv.frame p cpuOk (out p running) ?_ ?_ ?_, by simp⟩
      · intro q inside
        exact Or.inr ⟨by simp, fun holds => inside (out q holds)⟩
      · intro _; simpa [sleep] using foreign
      · intro q differ; simp [sleep, differ]
  | killed pid p pp running found =>
      have running' : (m.kernel.proc p).state = .running := (inv.cpuOk p).mpr running
      refine ⟨inv.frame p cpuOk (out p running) (fun _ _ => Or.inl rfl) ?_ ?_, out⟩
      · intro asleep
        rw [kkill_proc found] at asleep
        by_cases same : p = pp
        · subst same
          simp [running'] at asleep
        · simp [same, running'] at asleep
      · intro q _
        rw [kkill_proc found]
        by_cases same : q = pp
        · subst same
          by_cases asleep : (m.kernel.proc q).state = .sleeping <;> simp [asleep]
        · simp [same]
  | dispatched p free chosen => cases elsewhere

end Proc

/-! ## The descriptors -/

section Desc
variable {d d' : VDisk} {pc : Slot → DrvPc} {p : Slot}

theorem Chain.congr {i0 i1 i2 : DescIdx} (chain : Chain d i0 i1 i2)
    (desc : ∀ i, i ∈ [i0, i1, i2] → d'.desc i = d.desc i)
    (free : ∀ i, i ∈ [i0, i1, i2] → d'.free i = d.free i) : Chain d' i0 i1 i2 where
  nodup := chain.nodup
  taken := fun i member => (free i member).trans (chain.taken i member)
  first := by rw [desc i0 (by simp)]; exact chain.first
  second := by rw [desc i1 (by simp)]; exact chain.second
  last := by rw [desc i2 (by simp)]; exact chain.last

theorem DescInv.congr (inv : DescInv d pc)
    (desc : ∀ i, d.free i = false → d'.desc i = d.desc i)
    (free : ∀ i, d.free i = false → d'.free i = false) : DescInv d' pc := by
  refine ⟨?_, inv.apart, inv.bufs⟩
  intro q b i0 i1 i2 at_
  have chain := inv.chains q b i0 i1 i2 at_
  refine chain.congr (fun i member => desc i (chain.taken i member)) ?_
  intro i member
  rw [free i (chain.taken i member), chain.taken i member]

theorem DescInv.move (inv : DescInv d pc) (place : DrvPc)
    (buffer : ∀ b, place.buffer = some b → ∀ q, q ≠ p → (pc q).buffer ≠ some b)
    (chain : ∀ b i0 i1 i2, place = .diskWait b i0 i1 i2 → Chain d i0 i1 i2 ∧
      ∀ q b' j0 j1 j2, q ≠ p → pc q = .diskWait b' j0 j1 j2 →
        ∀ i, i ∈ [i0, i1, i2] → i ∉ [j0, j1, j2]) :
    DescInv d (Function.update pc p place) := by
  refine ⟨?_, ?_, ?_⟩
  · intro q b i0 i1 i2 at_
    by_cases same : q = p
    · subst same
      exact (chain b i0 i1 i2 (by simpa using at_)).1
    · exact inv.chains q b i0 i1 i2 (by simpa [same] using at_)
  · intro q q' b i0 i1 i2 b' j0 j1 j2 differ at_ at' i member
    by_cases same : q = p <;> by_cases same' : q' = p
    · exact absurd (same.trans same'.symm) differ
    · subst same
      exact (chain b i0 i1 i2 (by simpa using at_)).2 q' b' j0 j1 j2 same'
        (by simpa [same'] using at') i member
    · subst same'
      intro other
      exact (chain b' j0 j1 j2 (by simpa using at')).2 q b i0 i1 i2 same
        (by simpa [same] using at_) i other member
    · exact inv.apart q q' b i0 i1 i2 b' j0 j1 j2 differ (by simpa [same] using at_)
        (by simpa [same'] using at') i member
  · intro q q' b differ at_
    by_cases same : q = p <;> by_cases same' : q' = p
    · exact absurd (same.trans same'.symm) differ
    · subst same
      simpa [same'] using buffer b (by simpa using at_) q' same'
    · subst same'
      intro at'
      exact buffer b (by simpa using at') q same (by simpa [same] using at_)
    · simpa [same'] using inv.bufs q q' b differ (by simpa [same] using at_)

theorem DescInv.cleared (inv : DescInv d pc) : DescInv d.cleared pc := by
  refine inv.congr ?_ fun i taken => taken
  intro i taken
  simp [VDisk.cleared, taken]

@[simp] theorem submit_free (req : Request) (i0 i1 i2 : DescIdx) :
    (submit req i0 i1 i2 d).free = d.free := rfl

theorem submit_desc (req : Request) {i0 i1 i2 : DescIdx} {i : DescIdx}
    (other : i ∉ [i0, i1, i2]) : (submit req i0 i1 i2 d).desc i = d.desc i := by
  simp only [List.mem_cons, List.not_mem_nil, or_false, not_or] at other
  simp [submit, other]

theorem submit_chain (req : Request) {i0 i1 i2 : DescIdx} (nodup : [i0, i1, i2].Nodup)
    (taken : ∀ i, i ∈ [i0, i1, i2] → d.free i = false) :
    Chain (submit req i0 i1 i2 d) i0 i1 i2 := by
  have differ := nodup
  simp only [List.nodup_cons, List.mem_cons, List.not_mem_nil, or_false, not_or] at differ
  obtain ⟨⟨d01, d02⟩, d12, _⟩ := differ
  refine ⟨nodup, taken, ?_, ?_, ?_⟩
  · simp [submit, d01, d02, VRING_DESC_F_NEXT]
  · cases write : req.write <;> simp [submit, d12, write, VRING_DESC_F_NEXT, VRING_DESC_F_WRITE]
  · simp [submit, VRING_DESC_F_NEXT, VRING_DESC_F_WRITE]

theorem DescInv.submitted (inv : DescInv d pc) (req : Request) {i0 i1 i2 : DescIdx}
    (nodup : [i0, i1, i2].Nodup) (free : ∀ i, i ∈ [i0, i1, i2] → d.free i = true)
    (buffer : ∀ q, q ≠ p → (pc q).buffer ≠ some req.b) :
    DescInv (submit req i0 i1 i2 (d.grab [i0, i1, i2]))
      (Function.update pc p (.diskWait req.b i0 i1 i2)) := by
  have kept : DescInv (submit req i0 i1 i2 (d.grab [i0, i1, i2])) pc := by
    refine inv.congr ?_ ?_
    · intro i taken
      have other : i ∉ [i0, i1, i2] := fun member => by simp [free i member] at taken
      rw [submit_desc req other]
      rfl
    · intro i taken
      simp [VDisk.grab, taken]
  refine kept.move _ ?_ ?_
  · intro b isB
    simp only [DrvPc.buffer, Option.some.injEq] at isB
    exact isB ▸ buffer
  · intro b j0 j1 j2 shape
    simp only [DrvPc.diskWait.injEq] at shape
    obtain ⟨rfl, rfl, rfl, rfl⟩ := shape
    refine ⟨submit_chain req nodup (by simp [VDisk.grab]), ?_⟩
    intro q b' k0 k1 k2 _ at_ i member other
    have taken := (inv.chains q b' k0 k1 k2 at_).taken i other
    simp [free i member] at taken

theorem DescInv.released (inv : DescInv d pc) {b : Fin NBUF} {i0 i1 i2 : DescIdx}
    (at_ : pc p = .diskWait b i0 i1 i2) :
    DescInv (d.releaseAll [i0, i1, i2]) (Function.update pc p .outside) := by
  have rest : DescInv d (Function.update pc p .outside) :=
    inv.move .outside (by simp [DrvPc.buffer]) (by simp)
  refine ⟨?_, rest.apart, rest.bufs⟩
  intro q b' j0 j1 j2 at'
  have differ : q ≠ p := fun same => by subst same; simp at at'
  have here : pc q = .diskWait b' j0 j1 j2 := by simpa [differ] using at'
  have chain := inv.chains q b' j0 j1 j2 here
  refine chain.congr ?_ ?_
  · intro i member
    have other := inv.apart q p b' j0 j1 j2 b i0 i1 i2 differ here at_ i member
    simp only [VDisk.releaseAll, other, if_false]
  · intro i member
    have other := inv.apart q p b' j0 j1 j2 b i0 i1 i2 differ here at_ i member
    simp only [VDisk.releaseAll, other, decide_false, Bool.or_false]

theorem nfree_grab {l : List DescIdx} (nodup : l.Nodup) (free : ∀ i, i ∈ l → d.free i = true) :
    (d.grab l).nfree = d.nfree - l.length := by
  have split : (Finset.univ.filter fun i => (d.grab l).free i = true) =
      (Finset.univ.filter fun i => d.free i = true) \ l.toFinset := by
    ext i
    simp [VDisk.grab]
  have inside : l.toFinset ⊆ Finset.univ.filter fun i => d.free i = true := by
    intro i member
    simpa using free i (by simpa using member)
  rw [VDisk.nfree, split, Finset.card_sdiff_of_subset inside, List.toFinset_card_of_nodup nodup]
  rfl

theorem nfree_releaseAll {l : List DescIdx} (nodup : l.Nodup)
    (taken : ∀ i, i ∈ l → d.free i = false) :
    (d.releaseAll l).nfree = d.nfree + l.length := by
  have split : (Finset.univ.filter fun i => (d.releaseAll l).free i = true) =
      (Finset.univ.filter fun i => d.free i = true) ∪ l.toFinset := by
    ext i
    simp [VDisk.releaseAll]
  have disjoint : Disjoint (Finset.univ.filter fun i => d.free i = true) l.toFinset := by
    rw [Finset.disjoint_left]
    intro i free member
    have := taken i (by simpa using member)
    simp [this] at free
  rw [VDisk.nfree, split, Finset.card_union_of_disjoint disjoint,
    List.toFinset_card_of_nodup nodup]
  rfl

end Desc

/-! ## Steps -/

section Steps
variable {s s' : Sys} {p : Slot}

theorem askDescs_cases (s : Sys) (p : Slot) (req : Request) :
    (s.disk.nfree < 3 ∧ s.askDescs p req = some (s.sleepAt p .diskFree (.allocWait req)
      (if s.disk.nfree = 0 then s.kernel else wakeWaiters p s.kernel) s.disk.cleared)) ∨
    (3 ≤ s.disk.nfree ∧ ∃ i0 i1 i2, [i0, i1, i2].Nodup ∧
      (∀ i, i ∈ [i0, i1, i2] → s.disk.free i = true) ∧
      s.askDescs p req = some (s.sleepAt p (.buf req.b) (.diskWait req.b i0 i1 i2) s.kernel
        (submit req i0 i1 i2 (s.disk.grab [i0, i1, i2])))) := by
  rcases Nat.lt_or_ge s.disk.nfree 3 with short | enough
  · left
    refine ⟨short, ?_⟩
    simp only [Sys.askDescs, alloc3Desc_fails p s.kernel s.disk short]
  · right
    obtain ⟨i0, i1, i2, out, nodup, free⟩ := alloc3Desc_takes p s.kernel s.disk enough
    refine ⟨enough, i0, i1, i2, nodup, free, ?_⟩
    simp only [Sys.askDescs, out]

/-- The driver's state when `info[idx[0]].b` has been cleared. -/
def VDisk.forget (d : VDisk) (i : DescIdx) : VDisk :=
  { d with info := Function.update d.info i { d.info i with b := none } }

theorem checkDone_cases {b : Fin NBUF} {i0 i1 i2 : DescIdx} (chain : Chain s.disk i0 i1 i2) :
    (s.disk.bufDisk b = true ∧ s.checkDone p b i0 i1 i2 =
      some (s.sleepAt p (.buf b) (.diskWait b i0 i1 i2) s.kernel s.disk)) ∨
    (s.disk.bufDisk b = false ∧ s.checkDone p b i0 i1 i2 = some { s with
      kernel := wakeWaiters p s.kernel
      disk := (s.disk.forget i0).releaseAll [i0, i1, i2]
      pc := Function.update s.pc p .outside }) := by
  cases busy : s.disk.bufDisk b with
  | true => exact Or.inl ⟨rfl, by simp [Sys.checkDone, busy]⟩
  | false =>
      have chain' : Chain (s.disk.forget i0) i0 i1 i2 :=
        chain.congr (fun _ _ => rfl) (fun _ _ => rfl)
      refine Or.inr ⟨rfl, ?_⟩
      have freed := freeChain_eq p s.kernel (s.disk.forget i0) chain'
      simp only [VDisk.forget] at freed
      simp [Sys.checkDone, busy, freed, VDisk.forget]

theorem wakeWaiters_wakesOnly (p : Slot) (k : Kernel) : WakesOnly k (wakeWaiters p k) :=
  wakeup_wakesOnly _ _ _

theorem sysInv_askDescs {req : Request} (proc : ProcInv s.kernel (some p) s.pc)
    (desc : DescInv s.disk s.pc) (buffer : ∀ q, q ≠ p → (s.pc q).buffer ≠ some req.b)
    (run : s.askDescs p req = some s') : SysInv s' := by
  rcases askDescs_cases s p req with ⟨short, out⟩ | ⟨enough, i0, i1, i2, nodup, free, out⟩
  · rw [out, Option.some.injEq] at run
    rw [← run]
    have woken : ProcInv (if s.disk.nfree = 0 then s.kernel else wakeWaiters p s.kernel)
        (some p) s.pc := by
      split
      · exact proc
      · exact proc.wakes (wakeWaiters_wakesOnly p _)
    refine ⟨woken.slept .diskFree _ (by simp), ?_, by simp [Sys.sleepAt]⟩
    refine desc.cleared.move _ ?_ (by simp)
    intro b isB
    simp only [DrvPc.buffer, Option.some.injEq] at isB
    exact isB ▸ buffer
  · rw [out, Option.some.injEq] at run
    rw [← run]
    exact ⟨proc.slept (.buf req.b) _ (by simp), desc.submitted req nodup free buffer,
      by simp [Sys.sleepAt]⟩

theorem sysInv_checkDone {b : Fin NBUF} {i0 i1 i2 : DescIdx} (holds : s.cpu = some p)
    (proc : ProcInv s.kernel (some p) s.pc) (desc : DescInv s.disk s.pc)
    (at_ : s.pc p = .diskWait b i0 i1 i2) (run : s.checkDone p b i0 i1 i2 = some s') :
    SysInv s' := by
  rcases checkDone_cases (p := p) (b := b) (desc.chains p b i0 i1 i2 at_) with
    ⟨_, out⟩ | ⟨_, out⟩
  · rw [out, Option.some.injEq] at run
    rw [← run]
    refine ⟨proc.slept (.buf b) _ (by simp), ?_, by simp [Sys.sleepAt]⟩
    have same : Function.update s.pc p (.diskWait b i0 i1 i2) = s.pc :=
      Function.update_eq_self_iff.mpr at_.symm
    simpa [Sys.sleepAt, same] using desc
  · rw [out, Option.some.injEq] at run
    rw [← run]
    have forgot : DescInv (s.disk.forget i0) s.pc :=
      desc.congr (fun _ _ => rfl) (fun _ taken => taken)
    refine ⟨?_, forgot.released at_, ?_⟩
    · rw [holds]
      exact (proc.wakes (wakeWaiters_wakesOnly p _)).left
    · intro q isQ
      have : q = p := Option.some.inj (isQ.symm.trans holds)
      simp [this]

/-- The state in which `p` has just been given the CPU. -/
def Sys.given (s : Sys) (p : Slot) : Sys :=
  { s with
    kernel := s.kernel.setProc p fun q => { q with state := .running, chan := none }
    cpu := some p }

theorem dispatch_cases (s : Sys) (free : s.cpu = none) :
    (firstProc s.kernel = none ∧ s.dispatch = some s) ∨
    (∃ p, firstProc s.kernel = some p ∧ s.dispatch = (s.given p).resume p) := by
  cases chosen : firstProc s.kernel with
  | none =>
      left
      refine ⟨rfl, ?_⟩
      simp [Sys.dispatch, free, scheduler, Sys.machine, Sys.withMachine, chosen]
      rw [← free]
  | some p =>
      right
      refine ⟨p, rfl, ?_⟩
      simp [Sys.dispatch, free, scheduler, Sys.machine, Sys.withMachine, chosen, Sys.given]

theorem sysInv_given (inv : SysInv s) (free : s.cpu = none) (ready : firstProc s.kernel = some p) :
    ProcInv (s.given p).kernel (some p) (s.given p).pc := by
  have proc := inv.proc
  rw [free] at proc
  exact proc.scheduled (firstProc_some.mp ready).1

theorem sysInv_dispatch (inv : SysInv s) (run : s.dispatch = some s') : SysInv s' := by
  by_cases free : s.cpu = none
  · rcases dispatch_cases s free with ⟨_, out⟩ | ⟨p, chosen, out⟩
    · rw [out, Option.some.injEq] at run
      exact run ▸ inv
    · have proc := sysInv_given inv free chosen
      have desc : DescInv (s.given p).disk (s.given p).pc := inv.desc
      rw [out, Sys.resume] at run
      cases at_ : (s.given p).pc p with
      | outside =>
          simp only [at_, Option.some.injEq] at run
          rw [← run]
          refine ⟨proc, desc, ?_⟩
          intro q isQ
          have : p = q := Option.some.inj isQ
          exact this ▸ at_
      | allocWait req =>
          simp only [at_] at run
          refine sysInv_askDescs proc desc ?_ run
          intro q differ
          exact desc.bufs p q req.b (Ne.symm differ) (by simp [at_, DrvPc.buffer])
      | diskWait b i0 i1 i2 =>
          simp only [at_] at run
          exact sysInv_checkDone rfl proc desc at_ run
  · simp [Sys.dispatch, free] at run

/-- The interrupt handler touches neither descriptors nor the free list. -/
theorem intrLoop_frame (me : Option Slot) : ∀ (n : Nat) (k k' : Kernel) (d d' : VDisk),
    intrLoop me n k d = some (k', d') → WakesOnly k k' ∧ d'.desc = d.desc ∧ d'.free = d.free := by
  intro n
  induction n with
  | zero =>
      intro k k' d d' run
      simp only [intrLoop, Option.some.injEq, Prod.mk.injEq] at run
      obtain ⟨rfl, rfl⟩ := run
      exact ⟨WakesOnly.refl _, rfl, rfl⟩
  | succ n ih =>
      intro k k' d d' run
      simp only [intrLoop] at run
      split at run
      · cases run
      · split at run
        · cases run
        · obtain ⟨wakes, desc, free⟩ := ih _ _ _ _ run
          exact ⟨(wakeup_wakesOnly _ _ _).trans wakes, desc, free⟩

theorem sysInv_step {e : SysEvent} (inv : SysInv s) (run : s.step e = some s') : SysInv s' := by
  cases e with
  | proc e =>
      by_cases elsewhere : Elsewhere e = true
      · simp only [Sys.step, elsewhere, if_true, Option.map_eq_some_iff] at run
        obtain ⟨m', moved, rfl⟩ := run
        obtain ⟨proc, out⟩ := ProcInv.elsewhere (m := s.machine) inv.proc inv.out elsewhere
          (step_effect inv.proc.cpuOk moved)
        exact ⟨proc, inv.desc, out⟩
      · simp [Sys.step, elsewhere] at run
  | dispatch => exact sysInv_dispatch inv run
  | rw req =>
      cases holds : s.cpu with
      | none => simp [Sys.step, holds] at run
      | some p =>
          by_cases buffer : s.bufferFree req.b
          · simp only [Sys.step, holds, buffer, if_true] at run
            have proc := inv.proc
            rw [holds] at proc
            exact sysInv_askDescs proc inv.desc (fun q _ => buffer q) run
          · simp [Sys.step, holds, buffer] at run
  | take =>
      simp only [Sys.step, VDisk.take, Option.map_eq_some_iff] at run
      obtain ⟨d, taken, rfl⟩ := run
      split at taken
      · cases taken
      · simp only [Option.some.injEq] at taken
        exact ⟨inv.proc, inv.desc.congr (by simp [← taken]) (by simp [← taken]), inv.out⟩
  | answer id status =>
      simp only [Sys.step, VDisk.answer, Option.map_eq_some_iff] at run
      obtain ⟨d, answered, rfl⟩ := run
      split at answered
      · simp only [Option.some.injEq] at answered
        exact ⟨inv.proc, inv.desc.congr (by simp [← answered]) (by simp [← answered]), inv.out⟩
      · cases answered
  | intr =>
      simp only [Sys.step, virtioDiskIntr, Option.map_eq_some_iff] at run
      obtain ⟨kd, handled, rfl⟩ := run
      obtain ⟨wakes, desc, free⟩ := intrLoop_frame _ _ _ _ _ _ handled
      exact ⟨inv.proc.wakes wakes, inv.desc.congr (by simp [desc]) (by simp [free]), inv.out⟩

theorem boot_sysInv : SysInv Sys.boot := by
  refine ⟨⟨boot_cpuOk, ?_, ?_, ?_⟩, ⟨?_, ?_, ?_⟩, ?_⟩
  · intro p _ inside; exact absurd rfl inside
  · intro p asleep; cases asleep
  · intro p req _ waits; cases waits
  · intro p b i0 i1 i2 at_; cases at_
  · intro p q b i0 i1 i2 b' j0 j1 j2 _ at_; cases at_
  · intro p q b _ buffer; cases buffer
  · intro p _; rfl

theorem run_sysInv (r : Run Sys.step) (start : r.state 0 = Sys.boot) :
    ∀ i, i ≤ r.len → SysInv (r.state i) :=
  r.invariant SysInv (start ▸ boot_sysInv) (fun _ _ _ run inv => sysInv_step inv run)

end Steps

end Xv6Fcfs.Disk
