import Xv6Fcfs.Sys.Reach

/-!
# What holds in every run

Each page has one use, and no page is mapped twice; no action of a process touches the memory
of another one; the page tables and the allocator never panic; and an open file lives as long
as its descriptors.
-/

set_option autoImplicit false

namespace Xv6Fcfs.Sys

open Xv6Fcfs.Lib Xv6Fcfs.Vm Xv6Fcfs.Fs
open Xv6Fcfs.Process (ProcState wrapInt)

section Spaces
variable {tramp : Nat} {G : Guard} {own : Nat → Owner} {C : List Nat} {s s' : System} {i j : Nat}

/-- The page that the table of process `i` has at `va`. -/
def System.userPage (s : System) (i va : Nat) : Option Nat := do
  let root ← (s.task i).pagetable
  if va % PGSIZE = 0 ∧ va < TRAPFRAME then
    let pte ← leafPte s.phys.mem root va
    return leafPage pte
  else none

theorem Owned.userPage (inv : Owned tramp G own C s) {va q : Nat} (mapped : s.userPage i va = some q) :
    own q = .leaf i ∧ ∃ root f T L M pte, SpaceInv tramp s.phys ⟨root, (s.task i).sz, f⟩ T L M ∧
      (s.task i).pagetable = some root ∧ va % PGSIZE = 0 ∧ va < TRAPFRAME ∧ M va = some pte ∧
      leafPage pte = q := by
  obtain ⟨T, L, slot⟩ := inv.slots i
  have spaced := slot.spaced
  unfold System.userPage at mapped
  cases spaced with
  | empty frame table =>
      rw [table] at mapped
      cases mapped
  | space root f T L M frame table space =>
      simp only [table, Option.bind_eq_bind, Option.bind_some] at mapped
      split at mapped
      · next page =>
        obtain ⟨aligned, user⟩ := page
        obtain ⟨pte, found, same⟩ := Option.bind_eq_some_iff.mp mapped
        obtain rfl := Option.some.inj same
        have here : M va = some pte := (space.leafPte_eq aligned user).symm.trans found
        refine ⟨(slot.leaf _).mpr ((space.leaves _).mpr ⟨va, pte, aligned, user, here, rfl⟩), ?_⟩
        exact ⟨root, f, T, L, M, pte, space, table, aligned, user, here, rfl⟩
      · cases mapped

theorem Owned.once (inv : Owned tramp G own C s) {va va' q : Nat} (mapped : s.userPage i va = some q)
    (mapped' : s.userPage j va' = some q) : i = j ∧ va = va' := by
  obtain ⟨mine, root, f, T, L, M, pte, space, table, aligned, user, here, page⟩ := inv.userPage mapped
  obtain ⟨theirs, root', f', T', L', M', pte', space', table', aligned', user', here', page'⟩ :=
    inv.userPage mapped'
  obtain rfl : i = j := by
    have same := mine.symm.trans theirs
    cases same
    rfl
  obtain rfl := Option.some.inj (table.symm.trans table')
  have one : M va' = some pte' :=
    (space.leafPte_eq aligned' user').symm.trans ((space'.leafPte_eq aligned' user').trans here')
  exact ⟨rfl, space.once va va' pte pte' aligned aligned' user user' here one (page.trans page'.symm)⟩

/-- A process with the table `root` and the trap frame `f`. -/
structure SpaceOk (tramp : Nat) (s : System) (i root f : Nat) : Prop where
  size : (s.task i).sz ≤ TRAPFRAME
  below : ∀ va pte, va % PGSIZE = 0 → va < TRAPFRAME → leafPte s.phys.mem root va = some pte →
    va < PGROUNDUP (s.task i).sz
  pages : ∀ va pte, va % PGSIZE = 0 → va < TRAPFRAME → leafPte s.phys.mem root va = some pte →
    (s.phys.low ≤ leafPage pte ∧ leafPage pte < PHYSTOP / PGSIZE) ∧ leafPage pte ∉ s.phys.free ∧
      ∀ j, (s.task j).trapframe ≠ some (leafPage pte) ∧ (s.task j).pagetable ≠ some (leafPage pte)
  trampoline : leafPte s.phys.mem root TRAMPOLINE =
    some (PA2PTE (tramp * PGSIZE) ||| (PTE_R ||| PTE_X) ||| PTE_V)
  trapframe : leafPte s.phys.mem root Vm.TRAPFRAME =
    some (PA2PTE (f * PGSIZE) ||| (PTE_R ||| PTE_W) ||| PTE_V)

theorem Owned.spaceOk (inv : Owned tramp G own C s) {root f : Nat} (mapped : Mapped s i root f) :
    SpaceOk tramp s i root f := by
  obtain ⟨T, L, M, slot, space, -⟩ := inv.mapped mapped
  have user : ∀ va pte, va % PGSIZE = 0 → va < TRAPFRAME → leafPte s.phys.mem root va = some pte →
      M va = some pte := fun va pte aligned low found => (space.leafPte_eq aligned low).symm.trans found
  refine ⟨space.size, ?_, ?_, ?_, ?_⟩
  · intro va pte aligned low found
    refine space.below va aligned low ?_
    rw [user va pte aligned low found]
    exact Option.some_ne_none pte
  · intro va pte aligned low found
    have mine : own (leafPage pte) = .leaf i :=
      (slot.leaf _).mpr ((space.leaves _).mpr
        ⟨va, pte, aligned, low, user va pte aligned low found, rfl⟩)
    refine ⟨inv.range (by rw [mine]; simp), ?_, fun j => ⟨fun frame => ?_, fun table => ?_⟩⟩
    · rw [← inv.free, mine]
      simp
    · obtain ⟨T', L', slot'⟩ := inv.slots j
      cases mine.symm.trans ((slot'.frame _).mpr frame)
    · obtain ⟨T', L', slot'⟩ := inv.slots j
      have spaced := slot'.spaced
      cases spaced with
      | empty _ none => cases none.symm.trans table
      | space root' f' T' L' M' frame' table' space' =>
          obtain rfl := Option.some.inj (table'.symm.trans table)
          cases mine.symm.trans ((slot'.table _).mpr ((space'.pt.tables _).mpr (.root 2)))
  · exact (space.pt.map TRAMPOLINE (by decide) (by decide)).trans space.trampoline
  · exact (space.pt.map Vm.TRAPFRAME (by decide) (by decide)).trans space.trapframe

/-! ## The memory of the others -/

/-- The processes other than `p`, as they are in `s`. -/
def others (s : System) (fixed : Finset Nat) (own : Nat → Owner) (p : Nat) : Guard :=
  ⟨fixed, fun j => j ≠ p ∧ (s.task j).state = .runnable, own, s.phys.mem, s.task⟩

theorem Owned.watch (inv : Owned tramp G own C s) (p : Nat) :
    Owned tramp (others s G.fixed own p) own C s :=
  { inv with guard := fun _ _ => ⟨rfl, rfl⟩ }

theorem Good.watch (good : Good tramp G s) (inv : Owned tramp G own [] s) (p : Nat) :
    Good tramp (others s G.fixed own p) s :=
  ⟨⟨⟨own, inv.watch p⟩, good.sound.piped, good.sound.counted⟩, good.slots, fun _ inside =>
    ⟨inside.2, .refl _⟩⟩

theorem Sets.subset {v : Phys} {T T' L L' : Finset Nat} (sets : Sets v T' L')
    (tables : ∀ q, q ∈ T → q ∈ T')
    (leaves : ∀ q, q ∈ L → q ∈ L') : Sets v T L := by
  refine ⟨sets.nodup, ?_, ?_, ?_, ?_⟩
  · rintro q (free | table | leaf)
    · exact sets.range q (Or.inl free)
    · exact sets.range q (Or.inr (Or.inl (tables q table)))
    · exact sets.range q (Or.inr (Or.inr (leaves q leaf)))
  · exact fun q free table => sets.freeT q free (tables q table)
  · exact fun q free leaf => sets.freeL q free (leaves q leaf)
  · exact fun q table leaf => sets.apart q (tables q table) (leaves q leaf)

/-- The process has the registers and the memory that it had. -/
structure Untouched (s s' : System) (j : Nat) : Prop where
  space : SameSpace (s.task j) (s'.task j)
  registers : s'.phys.mem (s.task j).space.trapframe = s.phys.mem (s.task j).space.trapframe
  memory : ∀ va, pages s'.phys (s.task j).space va = pages s.phys (s.task j).space va

theorem Good.untouched {p : Nat} (good : Good tramp G s) (inv : Owned tramp G own [] s)
    (after : Good tramp (others s G.fixed own p) s') (other : j ≠ p)
    (live : (s.task j).state = .runnable) :
    Untouched s s' j := by
  obtain ⟨root, f, frame, table, -⟩ := (good.slots j).of_live live
  obtain ⟨T, L, M, slot, space, -⟩ := inv.mapped ⟨frame, table⟩
  obtain ⟨own', inv'⟩ := after.sound.paged
  have same := (after.held j ⟨other, live⟩).2
  have kept : ∀ q, own q = .table j ∨ own q = .leaf j ∨ own q = .frame j →
      own' q = own q ∧ s'.phys.mem q = s.phys.mem q := fun q mine =>
    inv'.guard q ⟨j, ⟨other, live⟩, mine⟩
  have known : (s.task j).space = ⟨root, (s.task j).sz, f⟩ := Mapped.space ⟨frame, table⟩
  obtain ⟨T', L', slot'⟩ := inv'.slots j
  have sets' : Sets s'.phys T L := by
    refine Sets.subset (inv'.sets slot') ?_ ?_
    · intro q inside
      have mine := (slot.table q).mpr inside
      exact (slot'.table q).mp ((kept q (Or.inl mine)).1.trans mine)
    · intro q inside
      have mine := (slot.leaf q).mpr inside
      exact (slot'.memory q).mpr (Or.inr ((kept q (Or.inr (Or.inl mine))).1.trans mine))
  have bytes : ∀ q, q ∈ T ∨ q ∈ L → s'.phys.mem q = s.phys.mem q := by
    rintro q (inside | inside)
    · exact (kept q (Or.inl ((slot.table q).mpr inside))).2
    · exact (kept q (Or.inr (Or.inl ((slot.leaf q).mpr inside)))).2
  refine ⟨same, ?_, ?_⟩
  · rw [known]
    exact (kept f (Or.inr (Or.inr ((slot.frame f).mpr frame)))).2
  · rw [known]
    exact pages_same space (space.rebase sets' fun q inside => bytes q (Or.inl inside)) bytes

end Spaces

/-! ## The theorems -/

/-- 31 free pages and one of the kernel, the disk of `mkfs`, and no process. -/
def coldSystem : System where
  task _ := emptyTask
  nextpid := 1
  phys := ⟨fun _ _ => 5, (List.range 31).map fun i => 0x87FE1 + i, [], 0x87FE0⟩
  fs := { mkfsState with
    itable := fun _ => ⟨0, 0, false, false, freshDinode 0⟩, proc := fun _ => none }
  pipe _ := 0
  ends _ := ⟨false, false⟩
  exec _ := none
  outstanding := 0
  first := true

theorem coldSystem_before : Before 0x80007 {0x87FE0} coldSystem := by
  refine ⟨by decide, by decide, ?_, ?_, ?_, fun _ => rfl, fun _ => rfl, fun _ => rfl,
    fun _ => ⟨rfl, rfl⟩, fun _ => rfl⟩
  · exact List.nodup_range.map fun a b same => by simpa using same
  · intro q
    have top : PHYSTOP / PGSIZE = 0x88000 := by decide
    simp only [coldSystem, List.mem_map, List.mem_range, Finset.mem_singleton, top]
    refine ⟨?_, fun page => ?_⟩
    · rintro (⟨i, bound, rfl⟩ | rfl) <;> omega
    · by_cases kernel : q = 0x87FE0
      · exact Or.inr kernel
      · exact Or.inl ⟨q - 0x87FE1, by omega, by omega⟩
  · intro q free
    simp only [coldSystem, List.mem_map, List.mem_range] at free
    obtain ⟨i, bound, rfl⟩ := free
    simp only [Finset.mem_singleton]
    omega

def bootedSystem : System :=
  match userinit 0x80007 mkfsSb coldSystem with
  | .ok (_, s) => s
  | .error _ => coldSystem

theorem coldSystem_boots : userinit 0x80007 mkfsSb coldSystem = .ok ((), bootedSystem) := by
  have boots : (match userinit 0x80007 mkfsSb coldSystem with
      | .ok _ => true
      | .error _ => false) = true := by
    decide +kernel
  unfold bootedSystem
  cases run : userinit 0x80007 mkfsSb coldSystem with
  | ok result => rfl
  | error e =>
      rw [run] at boots
      cases boots

/-- The first process grows, makes a pipe and forks; the child closes one end and exits. -/
def firstActs : List Event :=
  [⟨0, .sbrk 8192 1, []⟩, ⟨0, .pipe 0, []⟩, ⟨0, .fork, []⟩, ⟨1, .close 0, []⟩, ⟨1, .exit 7, []⟩]

theorem firstActs_run : (exec (step 0x80007 mkfsSb) bootedSystem firstActs).isSome := by decide +kernel

def firstRun : Run (step 0x80007 mkfsSb) :=
  Run.ofEvents _ bootedSystem firstActs ⟨0, .fork, []⟩ firstActs_run

theorem firstRun_started : Started 0x80007 mkfsSb {0x87FE0} firstRun := by
  refine ⟨coldSystem, coldSystem_before, ?_⟩
  have start : firstRun.state 0 = bootedSystem := Run.ofEvents_zero _ _ _ _ _
  rw [start]
  exact coldSystem_boots

section Theorems
variable {tramp : Nat} {sb : Superblock} {fixed : Finset Nat} {r : Run (step tramp sb)}

/-- Each page behind the kernel has one use at any time, and a page of memory is mapped at one
place of one process. -/
theorem page_has_one_use (started : Started tramp sb fixed r) (n : Nat) (inside : n ≤ r.len) :
    (∃ own, Owned tramp (noGuard fixed) own [] (r.state n)) ∧
      ∀ i j va va' q, (r.state n).userPage i va = some q → (r.state n).userPage j va' = some q →
        i = j ∧ va = va' := by
  obtain ⟨own, inv⟩ := (started.good n inside).sound.paged
  exact ⟨⟨own, inv⟩, fun i j va va' q mapped mapped' => inv.once mapped mapped'⟩

theorem firstRun_pages : (∃ own, Owned 0x80007 (noGuard {0x87FE0}) own [] (firstRun.state 5)) ∧
    ∀ i j va va' q, (firstRun.state 5).userPage i va = some q →
      (firstRun.state 5).userPage j va' = some q →
      i = j ∧ va = va' :=
  page_has_one_use firstRun_started 5 (by decide)

/-- A slot in use has a whole address space at any time: nothing is mapped from its size on but the
trampoline and the trap frame, and what the user sees are pages of memory that nothing else is
kept in.  A slot that is not in use has nothing. -/
theorem address_spaces_hold (started : Started tramp sb fixed r) (n : Nat)
    (inside : n ≤ r.len) (i : Nat) :
    (((r.state n).task i).state = .unused ∧ ((r.state n).task i).trapframe = none ∧
      ((r.state n).task i).pagetable = none ∧ ((r.state n).task i).sz = 0) ∨
    (((r.state n).task i).state ≠ .unused ∧ ∃ root f, ((r.state n).task i).trapframe = some f ∧
      ((r.state n).task i).pagetable = some root ∧ SpaceOk tramp (r.state n) i root f) := by
  have good := started.good n inside
  obtain ⟨own, inv⟩ := good.sound.paged
  cases good.slots i with
  | unused isUnused frame table size => exact Or.inl ⟨isUnused, frame, table, size⟩
  | live root f isLive frame table =>
      exact Or.inr ⟨by rw [isLive]; decide, root, f, frame, table, inv.spaceOk ⟨frame, table⟩⟩
  | zombie root f isZombie frame table =>
      exact Or.inr ⟨by rw [isZombie]; decide, root, f, frame, table, inv.spaceOk ⟨frame, table⟩⟩

theorem firstRun_child :
    (((firstRun.state 4).task 1).state = .unused ∧ ((firstRun.state 4).task 1).trapframe = none ∧
      ((firstRun.state 4).task 1).pagetable = none ∧ ((firstRun.state 4).task 1).sz = 0) ∨
    (((firstRun.state 4).task 1).state ≠ .unused ∧ ∃ root f,
    ((firstRun.state 4).task 1).trapframe = some f ∧
      ((firstRun.state 4).task 1).pagetable = some root ∧
      SpaceOk 0x80007 (firstRun.state 4) 1 root f) :=
  address_spaces_hold firstRun_started 4 (by decide) 1

/-- What a process does leaves the registers and the memory of the other processes as they are. -/
theorem others_untouched (started : Started tramp sb fixed r) (n : Nat) (inside : n < r.len) (j : Nat)
    (other : j ≠ (r.event n).proc) (live : ((r.state n).task j).state = .runnable) :
    Untouched (r.state n) (r.state (n + 1)) j := by
  have good := started.good n (Nat.le_of_lt inside)
  obtain ⟨own, inv⟩ := good.sound.paged
  refine good.untouched (p := (r.event n).proc) inv ?_ other live
  exact step_good (good.watch inv _) (fun mine => mine.1 rfl) (r.next n inside)

/-- The parent when its child closes a file. -/
theorem firstRun_parent : Untouched (firstRun.state 3) (firstRun.state 4) 0 :=
  others_untouched firstRun_started 3 (by decide) 0 (by decide +kernel) (by decide +kernel)

/-- In no state that is reached do the page tables, the page allocator or the loader panic, whatever
a process does next and whichever calls of `kalloc` fail. -/
theorem memory_never_panics (started : Started tramp sb fixed r) (n : Nat) (inside : n ≤ r.len)
    (p : Nat) (a : Act)
    (enabled : Enabled (r.state n) p a) (refusals : List Bool) (e : Halt)
    (stops : runAct tramp sb p a ((r.state n).refuse refusals) = .error e) :
    (∃ stop, e = .fs stop) ∨ e = .noInit := by
  have good := (started.good n inside).refuse refusals
  have spec : wp (runAct tramp sb p a) Calm (fun _ s' => Good tramp (noGuard fixed) s')
      ((r.state n).refuse refusals) := runAct_good good id ⟨enabled.slot, enabled.live, enabled.phase⟩
  have calm := wp_error spec stops
  exact calm

/-- The first process must not exit. -/
theorem firstRun_exits : (∃ stop, Halt.fs .initExiting = .fs stop) ∨ Halt.fs .initExiting = .noInit :=
  memory_never_panics firstRun_started 5 (by decide) 0 (.exit 0) (by decide +kernel) [] _ rfl

/-- A `struct file` has as many references as there are descriptors for it, and a side of a pipe
is open just while there is an open file for it, of which there is never a second. -/
structure FilesHeld (s : System) : Prop where
  ref : ∀ f, (s.fs.ftable f).ref = ∑ i ∈ Finset.range NPROC, Nat.count (fun fd =>
    (s.fs.proc i).bind (fun files => files.ofile fd) = some f) NOFILE
  closed : ∀ f, (s.fs.ftable f).ref = 0 → (s.fs.ftable f).type = .none
  side : ∀ q w, (s.ends q).side w = true ↔ ∃ f, IsEnd (handles s.fs) s.pipe f q w
  once : ∀ f g q w, IsEnd (handles s.fs) s.pipe f q w → IsEnd (handles s.fs) s.pipe g q w → f = g

theorem files_live_by_descriptors (started : Started tramp sb fixed r) (n : Nat) (inside : n ≤ r.len) :
    FilesHeld (r.state n) := by
  obtain ⟨-, piped, counted⟩ := (started.good n inside).sound
  refine ⟨fun f => ?_, piped.closed, fun q w => ⟨piped.ended q w, ?_⟩, piped.once⟩
  · have total := counted f
    have rows : holders (handles (r.state n).fs).fds f = ∑ i ∈ Finset.range NPROC, Nat.count (fun fd =>
        ((r.state n).fs.proc i).bind (fun files => files.ofile fd) = some f) NOFILE := by
      refine Finset.sum_congr rfl fun i _ => ?_
      simp only [row, Handles.fds, handles, Option.bind_map, Function.comp_def]
    rw [← rows]
    have same : (((r.state n).fs.ftable f).ref : Int) =
      holders (handles (r.state n).fs).fds f + 0 := total
    omega
  · rintro ⟨f, isEnd⟩
    exact piped.side f q w isEnd

theorem firstRun_files : FilesHeld (firstRun.state 5) :=
  files_live_by_descriptors firstRun_started 5 (by decide)

end Theorems

end Xv6Fcfs.Sys
