import Xv6Fcfs.Sys.Owner

/-!
# The calls that move pages

The page faults, copies and calls of one process, the arguments of `sys_exec`, and `kfork`,
`kexec` and `freeproc`: every page has one use after each of them, however `kalloc` answers.
-/

set_option autoImplicit false

namespace Xv6Fcfs.Vm

open Xv6Fcfs.Lib

section Became
variable {tramp : Nat} {v v' v'' : Phys} {p : Space} {T L : Finset Nat} {M : Nat → Option Nat}
    {E : Panic → Prop}

theorem Became.refl (inv : SpaceInv tramp v p T L M) : Became tramp v v p T L :=
  ⟨T, L, M, inv, Kept.refl v T L⟩

theorem Faulted.became {va r : Nat} (faulted : Faulted tramp v v' p T L M va r) :
    Became tramp v v' p T L := by
  cases faulted with
  | refused T' inv kept => exact ⟨T', L, M, inv, kept⟩
  | given T' mem inside hole fresh inv kept => exact ⟨T', _, _, inv, kept⟩

theorem UserCall.became {α : Type} (c : UserCall α) :
    ∀ {v : Phys} {T L : Finset Nat} {M : Nat → Option Nat},
    SpaceInv tramp v p T L M → 0 < v.low → wp (c.run p) E (fun _ v' => Became tramp v v' p T L) v := by
  -- a copy, and then the rest
  have goOn : ∀ {v v1 : Phys} {T L : Finset Nat} {m : VmM α}, 0 < v.low → Became tramp v v1 p T L →
      (∀ {T1 L1 M1}, SpaceInv tramp v1 p T1 L1 M1 → 0 < v1.low →
        wp m E (fun _ v' => Became tramp v1 v' p T1 L1) v1) →
      wp m E (fun _ v' => Became tramp v v' p T L) v1 := by
    rintro v v1 T L m kernel ⟨T1, L1, M1, inv1, kept1⟩ rest
    refine wp_post (rest inv1 (by rw [kept1.low]; exact kernel)) ?_
    rintro _ v2 ⟨T2, L2, M2, inv2, kept2⟩
    exact ⟨T2, L2, M2, inv2, kept1.trans kept2⟩
  induction c with
  | done result => exact fun inv _ => Became.refl inv
  | copyin srcva len next ih =>
      intro v T L M inv kernel
      rw [UserCall.run, wp_bind]
      refine wp_post (copyinLoop_spec _ _ _ _ v T L M inv kernel) ?_
      exact fun r v1 spec => goOn kernel spec.1 (ih r)
  | copyout dstva src next ih =>
      intro v T L M inv kernel
      rw [UserCall.run, wp_bind]
      refine wp_post (copyoutLoop_spec _ _ _ v T L M inv kernel) ?_
      exact fun r v1 spec => goOn kernel spec.1 (ih r)
  | copyinstr srcva max next ih =>
      intro v T L M inv kernel
      rw [UserCall.run, wp_bind]
      refine wp_post (copyinstrLoop_spec inv kernel _ _ _ _) ?_
      rintro r v1 ⟨rfl, -⟩
      exact ih r inv kernel

end Became

end Xv6Fcfs.Vm

namespace Xv6Fcfs.Sys

open Xv6Fcfs.Lib Xv6Fcfs.Vm Xv6Fcfs.Fs
open Xv6Fcfs.Process (ProcState wrapInt)

section Pages
variable {tramp : Nat} {G : Guard} {C C' : List Nat} {s s' : System} {i root f : Nat}

theorem Paged.same (paged : Paged tramp G C s) (phys : s'.phys = s.phys)
    (task : ∀ i, (s'.task i).trapframe = (s.task i).trapframe ∧
      (s'.task i).pagetable = (s.task i).pagetable ∧ (s'.task i).sz = (s.task i).sz)
    (exec : s'.exec = s.exec) (ends : s'.ends = s.ends) : Paged tramp G C s' := by
  obtain ⟨own, inv⟩ := paged
  exact ⟨own, inv.stay (by rw [phys]) (by rw [phys]) (fun _ _ => by rw [phys]) task exec ends⟩

theorem Paged.perm (paged : Paged tramp G C s) (perm : C.Perm C') : Paged tramp G C' s := by
  obtain ⟨own, inv⟩ := paged
  exact ⟨own, { inv with
    calls := fun q => (inv.calls q).trans perm.mem_iff
    taken := perm.nodup_iff.mp inv.taken }⟩

theorem Paged.kernel (paged : Paged tramp G C s) : 0 < s.phys.low ∧ tramp < s.phys.low := by
  obtain ⟨own, inv⟩ := paged
  exact ⟨Nat.lt_of_le_of_lt (Nat.zero_le _) inv.text, inv.text⟩

structure Mapped (s : System) (i root f : Nat) : Prop where
  frame : (s.task i).trapframe = some f
  table : (s.task i).pagetable = some root

theorem Mapped.space (mapped : Mapped s i root f) : (s.task i).space = ⟨root, (s.task i).sz, f⟩ := by
  simp only [Task.space, mapped.frame, mapped.table, Option.getD_some]

theorem Owned.mapped {own : Nat → Owner} (inv : Owned tramp G own C s) (mapped : Mapped s i root f) :
    ∃ T L M, SlotOwns tramp own s.phys i (s.task i) T L ∧
      SpaceInv tramp s.phys ⟨root, (s.task i).sz, f⟩ T L M ∧
      f ∉ s.phys.free ∧ f ∉ T ∧ f ∉ L := by
  obtain ⟨T, L, slot⟩ := inv.slots i
  have mine := (slot.frame f).mpr mapped.frame
  have spaced := slot.spaced
  cases spaced with
  | empty frame table =>
      rw [mapped.frame] at frame
      cases frame
  | space root' f' T L M frame table space =>
      obtain rfl := Option.some.inj (frame.symm.trans mapped.frame)
      obtain rfl := Option.some.inj (table.symm.trans mapped.table)
      refine ⟨T, L, M, slot, space, ?_, ?_, ?_⟩
      · rw [← inv.free, mine]
        simp
      · rw [← slot.table, mine]
        simp
      · rw [← slot.leaf, mine]
        simp

theorem Owned.unmapped {own : Nat → Owner} (inv : Owned tramp G own C s)
    (none : (s.task i).pagetable = none) :
    (s.task i).trapframe = Option.none ∧ SlotOwns tramp own s.phys i (s.task i) ∅ ∅ := by
  obtain ⟨T, L, slot⟩ := inv.slots i
  have spaced := slot.spaced
  cases spaced with
  | empty frame table => exact ⟨frame, slot⟩
  | space root f T L M frame table space =>
      rw [none] at table
      cases table

/-! ## One process -/

/-- A program that runs in the space of the process and may change its size. -/
theorem Paged.ran (paged : Paged tramp G C s) (spared : ¬ G.slot i) (mapped : Mapped s i root f)
    {α : Type} {m : VmM α}
    {E : Panic → Prop} (size : α → Nat)
    (spec : ∀ T L M, SpaceInv tramp s.phys ⟨root, (s.task i).sz, f⟩ T L M →
      wp m E (fun r v => Became tramp s.phys v ⟨root, size r, f⟩ T L) s.phys) :
    wp m E (fun r v => Paged tramp G C
      { s with phys := v, task := upd s.task i { s.task i with sz := size r } }) s.phys := by
  obtain ⟨own, inv⟩ := paged
  obtain ⟨T, L, M, slot, space, -⟩ := inv.mapped mapped
  exact wp_post (spec T L M space) fun r v became =>
    inv.became spared mapped.frame slot became mapped.table

theorem Paged.used (paged : Paged tramp G C s) (spared : ¬ G.slot i) (mapped : Mapped s i root f)
    {α : Type} {m : VmM α}
    {E : Panic → Prop}
    (spec : ∀ T L M, SpaceInv tramp s.phys (s.task i).space T L M →
      wp m E (fun _ v => Became tramp s.phys v (s.task i).space T L) s.phys) :
    wp m E (fun _ v => Paged tramp G C { s with phys := v }) s.phys := by
  rw [mapped.space] at spec
  refine wp_post (paged.ran spared mapped (fun _ => (s.task i).sz) spec) ?_
  intro r v after
  have same : upd s.task i { s.task i with sz := (s.task i).sz } = s.task := upd_eq_self _ _
  rwa [same] at after

theorem Paged.user (paged : Paged tramp G C s) (spared : ¬ G.slot i) (mapped : Mapped s i root f)
    {α : Type} (c : UserCall α)
    {E : Panic → Prop} :
    wp (c.run (s.task i).space) E (fun _ v => Paged tramp G C { s with phys := v }) s.phys :=
  paged.used spared mapped fun _ _ _ space => c.became space paged.kernel.1

theorem Paged.copyout (paged : Paged tramp G C s) (spared : ¬ G.slot i) (mapped : Mapped s i root f)
    (a : Nat) (src : List UInt8)
    {E : Panic → Prop} : wp (Vm.copyout (s.task i).space (s.task i).space.pagetable a src) E
      (fun _ v => Paged tramp G C { s with phys := v }) s.phys :=
  paged.used spared mapped fun T L M space =>
    wp_post (copyoutLoop_spec _ _ _ _ T L M space paged.kernel.1) fun _ _ spec => spec.1

theorem Paged.vmfault (paged : Paged tramp G C s) (spared : ¬ G.slot i)
    (mapped : Mapped s i root f) (va : Nat)
    {E : Panic → Prop} : wp (Vm.vmfault (s.task i).space (s.task i).space.pagetable va) E
      (fun _ v => Paged tramp G C { s with phys := v }) s.phys :=
  paged.used spared mapped fun _ _ _ space => wp_post (vmfault_spec space va) fun _ _ faulted =>
    faulted.became

theorem Paged.writeFrame (paged : Paged tramp G C s) (spared : ¬ G.slot i)
    (mapped : Mapped s i root f) (b : Bytes) :
    Paged tramp G C { s with phys := { s.phys with mem := upd s.phys.mem f b } } := by
  obtain ⟨own, inv⟩ := paged
  obtain ⟨T, L, slot⟩ := inv.slots i
  have mine := (slot.frame f).mpr mapped.frame
  refine ⟨own, inv.stay rfl rfl ?_ (fun _ => ⟨rfl, rfl, rfl⟩) rfl rfl⟩
  intro q used
  refine upd_of_ne ?_ _ _
  rintro rfl
  rw [mine] at used
  rcases used with ⟨j, no⟩ | covered
  · cases no
  · exact G.clear spared covered (Or.inr (Or.inr (Or.inr rfl)))

theorem wrapInt_range (x : Int) : -2 ^ 31 ≤ wrapInt x ∧ wrapInt x < 2 ^ 31 := by
  have low := Int.le_bmod (x := x) (m := 2 ^ 32) (by decide)
  have high := Int.bmod_lt (x := x) (m := 2 ^ 32) (by decide)
  exact ⟨low, high⟩

theorem sysSbrk_paged (paged : Paged tramp G C s) (spared : ¬ G.slot i)
    (mapped : Mapped s i root f) (n t : Int)
    {E : Halt → Prop} : wp (sysSbrk i (wrapInt n) t) E (fun _ s' => Paged tramp G C s' ∧
      s' = { s with
        phys := s'.phys, task := upd s.task i { s.task i with sz := (s'.task i).sz } }) s := by
  obtain ⟨low, high⟩ := wrapInt_range n
  rw [sysSbrk, wp_bind, wp_get, wp_bind, wp_onVm, mapped.space]
  refine wp_post (paged.ran spared mapped Prod.snd fun T L M space =>
    sysSbrk_spec space _ t low high) ?_
  rintro ⟨r, sz⟩ v after
  simp only [wp_bind, wp_setTask, wp_pure]
  refine ⟨after, ?_⟩
  simp only [upd_self]

/-! ## `freeproc` and `kfork` -/

theorem Paged.shuffle {v' : Phys} (paged : Paged tramp G C s) (sets : Sets v' ∅ ∅)
    (kept : Vm.Kept s.phys v' ∅ ∅ ∅ ∅) : Paged tramp G C { s with phys := v' } := by
  obtain ⟨own, inv⟩ := paged
  have free : ∀ q, q ∈ v'.free ↔ q ∈ s.phys.free := fun q => by simpa using kept.pages q
  refine ⟨own, inv.pass (fun q => Or.inl rfl) kept.low sets.nodup ?_ ?_ rfl inv.args inv.pipe
    inv.calls inv.taken⟩
  · exact fun q => (inv.free q).trans (free q).symm
  · exact fun q far => kept.frame q (fun isFree => far (loose_free inv isFree)) (by simp) (by simp)

theorem freeproc_paged (paged : Paged tramp G C s) (spared : ¬ G.slot i)
    (mapped : Mapped s i root f) {E : Halt → Prop} :
    wp (freeproc i) E (fun _ s' => Paged tramp G C s' ∧
      s' = { s with phys := s'.phys, task := upd s.task i (s.task i).freed }) s := by
  obtain ⟨own, inv⟩ := paged
  obtain ⟨T, L, M, slot, space, -, -, other⟩ := inv.mapped mapped
  have memory : (s.task i).memory L = insert f L := by simp only [Task.memory, mapped.frame]
  have sets := inv.sets slot
  rw [memory] at sets
  have holding : Holding tramp s.phys (s.task i) T (insert f L) :=
    .space f root T L M sets other mapped.frame mapped.table space
  refine wp_post (freeproc_spec holding) ?_
  rintro _ s' ⟨sets', kept, rest⟩
  refine ⟨?_, rest⟩
  rw [rest]
  refine inv.reslot (fun _ => G.clear spared) slot (A := ∅) (B := ∅) sets' (by rintro g ⟨⟩) ?_
    (.empty rfl rfl)
  rw [memory]
  exact kept

theorem SlotOwns.blank {own : Nat → Owner} {v : Phys} {t : Task} (slot : SlotOwns tramp own v i t ∅ ∅)
    (empty : t.trapframe = none) (q : Nat) (covered : G.Covers (own q)) : ¬ OfSlot i (own q) := by
  rintro (free | table | leaf | frame)
  · exact G.loose covered (Or.inl free)
  · exact Finset.notMem_empty q ((slot.table q).mp table)
  · exact Finset.notMem_empty q ((slot.leaf q).mp leaf)
  · cases empty.symm.trans ((slot.frame q).mp frame)

/-- What `kfork` makes of slot `np`. -/
structure Forks (s s' : System) (p np : Nat) (files : ProcFiles) : Prop where
  slot : np < NPROC
  unused : (s.task np).state = .unused
  shared : Shared s.fs s'.fs files np
  mapped : ∃ root f, Mapped s' np root f
  state : (s'.task np).state = .runnable
  rest : s' = { s with
    phys := s'.phys, nextpid := s'.nextpid, fs := s'.fs, task := upd s.task np (s'.task np) }

theorem kfork_paged {p : Nat} {files : ProcFiles} (paged : Paged tramp G C s)
    (mapped : Mapped s p root f)
    (blank : Blank s) (live : (s.task p).state ≠ .unused)
    (procs : ∀ i, (s.task i).state = .unused → s.fs.proc i = none)
    (opened : ∀ fd f, fd < NOFILE → files.ofile fd = some f → 1 ≤ (s.fs.ftable f).ref)
    {E : Halt → Prop} :
    wp (kfork tramp p files) E (fun _ s' => Paged tramp G C s' ∧
      ((∃ np, Forks s s' p np files) ∨
        s' = { s with phys := s'.phys, nextpid := s'.nextpid, task := s'.task } ∧
        (s'.task = s.task ∨ ∃ np, (s.task np).state = .unused ∧
          s'.task = upd s.task np (s.task np).freed))) s := by
  obtain ⟨own, inv⟩ := paged
  obtain ⟨T, L, M, slot, space, notFree, -⟩ := inv.mapped mapped
  have small : tramp < 2 ^ 44 := by
    have text := inv.text
    have := (inv.range (q := f) (by rw [(slot.frame f).mpr mapped.frame]; simp))
    have top : PHYSTOP / PGSIZE = 0x88000 := by decide
    omega
  have spec : wp (kfork tramp p files) E (fun r s' => Forked tramp p files M s s' r) s := by
    rw [← mapped.space] at space
    refine kfork_spec space ?_ blank small live procs opened
    rw [mapped.space]
    exact notFree
  refine wp_post spec ?_
  intro r s' forked
  cases forked with
  | full same =>
      subst same
      exact ⟨⟨own, inv⟩, Or.inr ⟨rfl, Or.inl rfl⟩⟩
  | failed np unused sets kept rest =>
      obtain ⟨noFrame, slotN⟩ := inv.unmapped (blank np unused).2.1
      have paged : Paged tramp G C
          { s with phys := s'.phys, task := upd s.task np (s.task np).freed } := by
        refine inv.reslot (slotN.blank noFrame) slotN (A := ∅) (B := ∅) sets (by rintro g ⟨⟩) ?_
          (.empty rfl rfl)
        simp only [Task.memory, noFrame]
        exact kept
      refine ⟨paged.same rfl ?_ (by rw [rest]) (by rw [rest]),
        Or.inr ⟨by rw [rest], Or.inr ⟨np, unused, by rw [rest]⟩⟩⟩
      intro j
      rw [rest]
      exact ⟨rfl, rfl, rfl⟩
  | done np g root' T' L' N0 N unused slotBound sets apart child kept copied frame shared rest =>
      obtain ⟨noFrame, slotN⟩ := inv.unmapped (blank np unused).2.1
      have task : s'.task = upd s.task np
        ((s.task np).forked s.nextpid g root' p (s.task p)) := by rw [rest]
      have paged : Paged tramp G C { s with
          phys := s'.phys, task := upd s.task np
            ((s.task np).forked s.nextpid g root' p (s.task p)) } := by
        refine inv.reslot (slotN.blank noFrame) slotN (A := T')
          (B := L') sets ?_ ?_ (.space root' g T' L' N rfl rfl child)
        · intro x same
          rw [← Option.some.inj same]
          exact apart
        · simp only [Task.memory, noFrame]
          exact kept
      refine ⟨paged.same rfl ?_ (by rw [rest]) (by rw [rest]),
        Or.inl ⟨np, slotBound, unused, shared, ?_, ?_, ?_⟩⟩
      · intro j
        rw [task]
        exact ⟨rfl, rfl, rfl⟩
      · refine ⟨root', g, ?_, ?_⟩
        · rw [task, upd_self]; rfl
        · rw [task, upd_self]; rfl
      · rw [task, upd_self]; rfl
      · rw [rest]
        simp only [upd_self]

/-! ## `kexec` -/

/-- What `kexec` may change of the process. -/
structure Reloaded (s s' : System) (p f : Nat) : Prop where
  mapped : ∃ root, Mapped s' p root f
  state : (s'.task p).state = (s.task p).state
  account : account s'.fs = account s.fs
  rest : s' = { s with phys := s'.phys, fs := s'.fs, task := upd s.task p (s'.task p) }

theorem kexec_paged {p : Nat} (paged : Paged tramp G C s) (spared : ¬ G.slot p)
    (mapped : Mapped s p root f) (sb : Superblock)
    (cwd : Nat) (path : Path) (argv : List (List UInt8))
    (short : ∀ arg, arg ∈ argv → arg.length < PGSIZE) :
    wp (kexec tramp sb p cwd path argv) FsOnly (fun _ s' =>
      Paged tramp G C s' ∧ Reloaded s s' p f) s := by
  obtain ⟨own, inv⟩ := paged
  obtain ⟨T, L, M, slot, space, apart⟩ := inv.mapped mapped
  have frame := (slot.frame f).mpr mapped.frame
  have top : PHYSTOP / PGSIZE = 0x88000 := by decide
  have page := (inv.range (q := f) (by rw [frame]; simp)).2
  have text := inv.text
  have bound := (inv.range (q := f) (by rw [frame]; simp)).1
  have kernel : 0 < s.phys.low := Nat.lt_of_le_of_lt (Nat.zero_le _) text
  have spec : wp (kexec tramp sb p cwd path argv) FsOnly
    (fun r s' => Executed tramp s s' p T L r) s := by
    refine kexec_spec (by rw [mapped.space]; exact space) ?_ kernel (by omega) ?_ short
    · rw [mapped.space]
      exact apart
    · rw [mapped.space]
      show f < 2 ^ 44
      omega
  refine wp_post (wp_and spec (kexec_steady tramp p cwd path argv s)) ?_
  rintro r s' ⟨executed, same⟩
  obtain ⟨account, opened⟩ := Prod.mk.inj same
  cases executed with
  | failed sets kept beside =>
      unfold Beside at beside
      have task : s'.task = s.task := by rw [beside]
      refine ⟨?_, ⟨root, ?_, ?_⟩, by rw [task], account, ?_⟩
      · refine (Paged.shuffle ⟨own, inv⟩ sets kept).same rfl ?_ (by rw [beside]) (by rw [beside])
        intro i
        rw [task]
        exact ⟨rfl, rfl, rfl⟩
      · rw [task]
        exact mapped.frame
      · rw [task]
        exact mapped.table
      · have still : upd s.task p (s.task p) = s.task := upd_eq_self _ _
        rw [task, still, beside, opened]
  | done argc root' sz name T' L' M' inv' apart' fresh kept beside =>
      rw [mapped.space] at inv' apart' kept
      unfold Beside at beside
      have task : s'.task = upd s.task p
          { s.task p with name := name, pagetable := some root', sz := sz } := by rw [beside]
      have memory : ∀ L0, Task.memory
        { s.task p with name := name, pagetable := some root', sz := sz } L0 =
          insert f L0 := by
        intro L0
        simp only [Task.memory, mapped.frame]
      have old : (s.task p).memory L = insert f L := by simp only [Task.memory, mapped.frame]
      have away : ¬ (f ∈ s.phys.free ∨ f ∈ (∅ : Finset Nat) ∨ f ∈ (∅ : Finset Nat)) := by
        simpa using apart.1
      have sets' : Sets s'.phys T' (insert f L') := by
        refine ⟨inv'.nodup, ?_, inv'.freeT, ?_, ?_⟩
        · rintro q (free | table | leaf)
          · exact inv'.range q (Or.inl free)
          · exact inv'.range q (Or.inr (Or.inl table))
          · rcases Finset.mem_insert.mp leaf with rfl | leaf
            · rw [kept.low]
              exact ⟨bound, page⟩
            · exact inv'.range q (Or.inr (Or.inr leaf))
        · intro q free leaf
          rcases Finset.mem_insert.mp leaf with rfl | leaf
          · exact apart'.1 free
          · exact inv'.freeL q free leaf
        · intro q table leaf
          rcases Finset.mem_insert.mp leaf with rfl | leaf
          · exact apart'.2.1 table
          · exact inv'.apart q table leaf
      refine ⟨?_, ⟨root', ?_, ?_⟩, ?_, account, ?_⟩
      · refine (inv.reslot (fun _ => G.clear spared) slot (A := T') (B := L')
          (t := { s.task p with name := name, pagetable := some root', sz := sz }) ?_ ?_ ?_
          (.space root' f T' L' M' mapped.frame rfl inv')).same rfl ?_ (by rw [beside]) (by rw [beside])
        · rw [memory]
          exact sets'
        · intro g same
          obtain rfl := Option.some.inj (mapped.frame.symm.trans same)
          exact apart'.2.2
        · rw [memory, old]
          exact kept
        · intro i
          rw [task]
          exact ⟨rfl, rfl, rfl⟩
      · rw [task, upd_self]
        exact mapped.frame
      · rw [task, upd_self]
      · rw [task, upd_self]
      · rw [task, upd_self, beside, opened]

/-! ## `sys_exec` -/

section Fetch
variable {E : Panic → Prop}

theorem fetchaddr_paged (paged : Paged tramp G C s) (spared : ¬ G.slot i)
    (mapped : Mapped s i root f) (addr : Nat) :
    wp (fetchaddr (s.task i).space addr) E
      (fun _ v => Paged tramp G C { s with phys := v }) s.phys := by
  refine paged.used spared mapped fun T L M space => ?_
  have still := Became.refl space
  rw [fetchaddr, wp_ite]
  refine ⟨fun _ => still, fun _ => ?_⟩
  rw [wp_bind]
  refine wp_post (copyinLoop_spec _ _ _ _ _ T L M space paged.kernel.1) ?_
  rintro ⟨r, bytes⟩ v ⟨became, -⟩
  simp only [wp_ite]
  exact ⟨fun _ => became, fun _ => became⟩

theorem fetchstr_paged (paged : Paged tramp G C s) (spared : ¬ G.slot i)
    (mapped : Mapped s i root f) (addr max : Nat) :
    wp (fetchstr (s.task i).space addr max) E (fun r v => Paged tramp G C { s with phys := v } ∧
      ∀ text, r.1 = some text → text.length < max) s.phys := by
  have copies : wp (fetchstr (s.task i).space addr max) E
      (fun _ v => Paged tramp G C { s with phys := v }) s.phys := by
    refine paged.used spared mapped fun T L M space => ?_
    rw [fetchstr, copyinstr, wp_bind]
    refine wp_post (copyinstrLoop_spec space paged.kernel.1 _ _ _ _) ?_
    rintro ⟨r, bytes⟩ v ⟨rfl, -⟩
    simp only [wp_ite]
    exact ⟨fun _ => Became.refl space, fun _ => Became.refl space⟩
  refine wp_post (wp_and copies (fetchstr_short addr max)) ?_
  rintro r v ⟨after, short⟩
  exact ⟨after, fun text same => (short text same).1⟩

theorem freeArgs_paged : ∀ {pages : List Nat} {s : System}, Paged tramp G pages s →
    wp (freeArgs pages) E (fun _ v => Paged tramp G [] { s with phys := v }) s.phys := by
  intro pages
  induction pages with
  | nil => exact fun paged => paged
  | cons q rest ih =>
      intro s paged
      rw [freeArgs, wp_bind]
      refine wp_post (paged.kfree (List.mem_cons_self ..)) ?_
      rintro _ v ⟨after, -⟩
      rw [List.erase_cons_head] at after
      exact ih (s := { s with phys := v }) after

def Short (argv : List (Nat × List UInt8)) : Prop := ∀ a, a ∈ argv → a.2.length < PGSIZE

theorem Short.append {argv : List (Nat × List UInt8)} (short : Short argv) {q : Nat} {text : List UInt8}
    (less : text.length < PGSIZE) : Short (argv ++ [(q, text)]) := by
  intro a member
  rcases List.mem_append.mp member with old | new
  · exact short a old
  · rw [List.mem_singleton.mp new]
    exact less

theorem fetchArgs_paged (spared : ¬ G.slot i) (uargv : Nat) :
    ∀ (n j : Nat) (argv : List (Nat × List UInt8)) {s : System},
    Paged tramp G (argv.map Prod.fst) s → Mapped s i root f → Short argv →
    wp (fetchArgs (s.task i).space uargv n j argv) E (fun r v =>
      Paged tramp G (r.2.map Prod.fst) { s with phys := v } ∧ Short r.2) s.phys := by
  intro n
  induction n with
  | zero => exact fun j argv s paged _ short => ⟨paged, short⟩
  | succ n ih =>
      intro j argv s paged mapped short
      rw [fetchArgs, wp_bind]
      refine wp_post (fetchaddr_paged paged spared mapped _) ?_
      intro found v1 paged1
      cases found with
      | none => exact ⟨paged1, short⟩
      | some uarg =>
          simp only [wp_ite]
          refine ⟨fun _ => ⟨paged1, short⟩, fun _ => ?_⟩
          rw [wp_bind]
          refine wp_post (Paged.kalloc (s := { s with phys := v1 }) paged1) ?_
          rintro page v2 (⟨rfl, paged2, -⟩ | ⟨q, rfl, paged2, -⟩)
          · exact ⟨paged2, short⟩
          · rw [wp_bind]
            refine wp_post (fetchstr_paged (s := { s with phys := v2 }) paged2 spared
              ⟨mapped.frame, mapped.table⟩ uarg
              PGSIZE) ?_
            rintro ⟨str, bytes⟩ v3 ⟨paged3, less⟩
            simp only [wp_bind]
            rw [wp_blit]
            have paged4 := paged3.write (List.mem_cons_self ..)
              (blitted (v3.mem q) 0 bytes bytes.length)
            have order : ∀ text : List UInt8,
                (q :: argv.map Prod.fst).Perm ((argv ++ [(q, text)]).map Prod.fst) := by
              intro text
              rw [List.map_append]
              exact (List.perm_append_singleton q _).symm
            cases str with
            | none => exact ⟨paged4.perm (order []), short.append (by decide)⟩
            | some text =>
                exact ih (j + 1) _ (paged4.perm (order text)) ⟨mapped.frame, mapped.table⟩
                  (short.append (less text rfl))

end Fetch

theorem sysExecFetch_paged {p : Nat} (paged : Paged tramp G [] s) (spared : ¬ G.slot p)
    (mapped : Mapped s p root f)
    (none : s.exec p = none) (path uargv : Nat) {E : Halt → Prop} :
    wp (sysExecFetch p path uargv) E (fun _ s' => Paged tramp G [] s' ∧
      s' = { s with phys := s'.phys, exec := upd s.exec p (s'.exec p) }) s := by
  have still : upd s.exec p (s.exec p) = s.exec := upd_eq_self _ _
  rw [sysExecFetch, wp_bind, wp_get]
  simp only [wp_bind, wp_onVm]
  refine wp_post (fetchstr_paged paged spared mapped path MAXPATH) ?_
  rintro ⟨str, bytes⟩ v1 ⟨paged1, -⟩
  cases str with
  | none => exact ⟨paged1, by simp only [still]⟩
  | some text =>
      simp only [wp_bind, wp_onVm]
      refine wp_post (fetchArgs_paged spared uargv MAXARG 0 [] (s := { s with phys := v1 }) paged1
        ⟨mapped.frame, mapped.table⟩ (by rintro _ ⟨⟩)) ?_
      rintro ⟨ok, argv⟩ v2 ⟨paged2, short⟩
      simp only [wp_ite]
      refine ⟨fun _ => ?_, fun _ => ?_⟩
      · simp only [wp_bind, wp_onVm]
        refine wp_post (freeArgs_paged (s := { s with phys := v2 }) paged2) ?_
        intro _ v3 paged3
        exact ⟨paged3, by simp only [still]⟩
      · simp only [wp_bind, wp_modify, wp_pure, upd_self]
        have argvs : Paged tramp G ((⟨text, argv⟩ : Fetched).argv.map Prod.fst)
          { s with phys := v2 } := paged2
        exact ⟨argvs.keepArgs none short, trivial⟩

theorem sysExecRun_paged {p cwd : Nat} {fetched : Fetched} (paged : Paged tramp G [] s)
    (spared : ¬ G.slot p) (mapped : Mapped s p root f) (has : s.exec p = some fetched)
    (sb : Superblock) :
    wp (sysExecRun tramp sb p cwd fetched) FsOnly (fun _ s' => Paged tramp G [] s' ∧
      (∃ root, Mapped s' p root f) ∧ (s'.task p).state = (s.task p).state ∧
      account s'.fs = account s.fs ∧
      s' = { s with
        phys := s'.phys, fs := s'.fs, task := upd s.task p (s'.task p), exec := upd s.exec p none })
          s := by
  have short : ∀ arg, arg ∈ fetched.argv.map Prod.snd → arg.length < PGSIZE := by
    intro arg member
    obtain ⟨a, inside, rfl⟩ := List.mem_map.mp member
    obtain ⟨own, inv⟩ := paged
    exact (inv.args p).short fetched has a inside
  rw [sysExecRun, wp_bind]
  refine wp_post (kexec_paged paged spared mapped sb cwd fetched.path _ short) ?_
  rintro r s1 ⟨paged1, reloaded⟩
  have has1 : s1.exec p = some fetched := by rw [reloaded.rest]; exact has
  simp only [wp_bind, wp_onVm]
  refine wp_post (freeArgs_paged (s := { s1 with exec := upd s1.exec p none })
    (paged1.takeArgs has1)) ?_
  intro _ v paged2
  refine ⟨paged2, ?_, reloaded.state, reloaded.account, ?_⟩
  · obtain ⟨root', mapped'⟩ := reloaded.mapped
    exact ⟨root', mapped'.frame, mapped'.table⟩
  · simp only
    rw [reloaded.rest]
    simp only [upd_self]

end Pages

end Xv6Fcfs.Sys
