import Xv6Fcfs.Lib.Count
import Xv6Fcfs.Sys.Stack

/-!
# `kfork`

`allocproc` takes a page for the trap frame and those of a new table, `uvmcopy` the pages of the
child.  Whatever fails, `freeproc` gives all of them back.
-/

set_option autoImplicit false

namespace Xv6Fcfs.Vm

open Xv6Fcfs.Lib

/-! ## Single pages -/

section Pages
variable {v : Phys} {T L : Finset Nat} {E : Panic → Prop}

theorem kalloc_spec (sets : Sets v T L) : wp kalloc E (fun r v' =>
    (r = none ∧ Sets v' T L ∧ Kept v v' T T L L) ∨
    ∃ q, r = some q ∧ q ∉ v'.free ∧ q ∉ T ∧ q ∉ L ∧ Sets v' T (insert q L) ∧
      Kept v v' T T L (insert q L)) v := by
  refine wp_kalloc ?_ ?_
  · exact Or.inl ⟨rfl, ⟨sets.nodup, sets.range, sets.freeT, sets.freeL, sets.apart⟩,
      ⟨fun _ => Iff.rfl, fun _ _ _ _ => rfl, rfl⟩⟩
  · intro q rest list
    obtain ⟨nodup, range, freeT, freeL, apart⟩ := sets
    rw [list] at nodup range freeT freeL
    obtain ⟨gone, nodup'⟩ := List.nodup_cons.mp nodup
    have notT := freeT q (List.mem_cons_self ..)
    have notL := freeL q (List.mem_cons_self ..)
    refine Or.inr ⟨q, rfl, gone, notT, notL, ⟨nodup', ?_, ?_, ?_, ?_⟩, ?_, ?_, rfl⟩
    · simp only [Finset.mem_insert]
      rintro x (free | table | rfl | leaf)
      · exact range x (Or.inl (List.mem_cons_of_mem _ free))
      · exact range x (Or.inr (Or.inl table))
      · exact range x (Or.inl (List.mem_cons_self ..))
      · exact range x (Or.inr (Or.inr leaf))
    · exact fun x free => freeT x (List.mem_cons_of_mem _ free)
    · simp only [Finset.mem_insert]
      rintro x free (rfl | leaf)
      · exact gone free
      · exact freeL x (List.mem_cons_of_mem _ free) leaf
    · simp only [Finset.mem_insert]
      rintro x table (rfl | leaf)
      · exact notT table
      · exact apart x table leaf
    · intro x
      rw [list]
      simp only [Finset.mem_insert, List.mem_cons]
      by_cases here : x = q
      · simp [here]
      · simp only [here, false_or]
    · intro x free _ _
      refine upd_of_ne ?_ _ _
      rintro rfl
      exact free (by rw [list]; exact List.mem_cons_self ..)

theorem kfree_spec {q : Nat} (sets : Sets v T L) (mine : q ∈ L) :
    wp (kfree (q * PGSIZE)) E (fun _ v' => Sets v' T (L.erase q) ∧ Kept v v' T T L (L.erase q) ∧
      ∀ x, x ≠ q → v'.mem x = v.mem x) v := by
  have page : q * PGSIZE / PGSIZE = q := Nat.mul_div_cancel q (by decide)
  obtain ⟨low, high⟩ := sets.range q (Or.inr (Or.inr mine))
  rw [wp_kfree (Nat.mul_mod_left q PGSIZE) (by rw [page]; exact low) (by rw [page]; exact high), page]
  refine ⟨⟨?_, ?_, ?_, ?_, ?_⟩, ⟨?_, ?_, rfl⟩, fun x other => upd_of_ne other _ _⟩
  · exact List.nodup_cons.mpr ⟨fun free => sets.freeL q free mine, sets.nodup⟩
  · simp only [Finset.mem_erase, List.mem_cons]
    rintro x ((rfl | free) | table | ⟨-, leaf⟩)
    · exact ⟨low, high⟩
    · exact sets.range x (Or.inl free)
    · exact sets.range x (Or.inr (Or.inl table))
    · exact sets.range x (Or.inr (Or.inr leaf))
  · simp only [List.mem_cons]
    rintro x (rfl | free) table
    · exact sets.apart x table mine
    · exact sets.freeT x free table
  · simp only [Finset.mem_erase, List.mem_cons]
    rintro x (rfl | free) ⟨other, leaf⟩
    · exact other rfl
    · exact sets.freeL x free leaf
  · simp only [Finset.mem_erase]
    rintro x table ⟨-, leaf⟩
    exact sets.apart x table leaf
  · intro x
    simp only [Finset.mem_erase, List.mem_cons]
    by_cases here : x = q
    · subst here
      simp [mine]
    · simp [here]
  · intro x _ _ leaf
    refine upd_of_ne ?_ _ _
    rintro rfl
    exact leaf mine

theorem Sets.beside {v' : Phys} {T' L' : Finset Nat} {f : Nat} (sets : Sets v' T' L')
    (kept : Kept v v' T T' L L') (range : v.low ≤ f ∧ f < PHYSTOP / PGSIZE)
    (away : ¬ (f ∈ v.free ∨ f ∈ T ∨ f ∈ L)) :
    Sets v' T' (insert f L') ∧ Kept v v' T T' (insert f L) (insert f L') ∧ f ∉ L' := by
  have away' := mt (kept.pages f).mp away
  simp only [not_or] at away away'
  refine ⟨⟨sets.nodup, ?_, sets.freeT, ?_, ?_⟩, ⟨?_, ?_, kept.low⟩, away'.2.2⟩
  · simp only [Finset.mem_insert]
    rintro x (free | table | rfl | leaf)
    · exact sets.range x (Or.inl free)
    · exact sets.range x (Or.inr (Or.inl table))
    · rw [kept.low]
      exact range
    · exact sets.range x (Or.inr (Or.inr leaf))
  · simp only [Finset.mem_insert]
    rintro x free (rfl | leaf)
    · exact away'.1 free
    · exact sets.freeL x free leaf
  · simp only [Finset.mem_insert]
    rintro x table (rfl | leaf)
    · exact away'.2.1 table
    · exact sets.apart x table leaf
  · intro x
    have pages := kept.pages x
    simp only [Finset.mem_insert]
    by_cases here : x = f
    · simp [here]
    · simpa only [here, false_or] using pages
  · intro x free table leaf
    rw [Finset.mem_insert, not_or] at leaf
    exact kept.frame x free table leaf.2

theorem Kept.write {v' : Phys} {T' L' : Finset Nat} {f : Nat} (kept : Kept v v' T T' L L')
    (mine : f ∈ L') (b : Bytes) : Kept v { v' with mem := upd v'.mem f b } T T' L L' := by
  refine ⟨kept.pages, ?_, kept.low⟩
  intro x free table leaf
  have other : x ≠ f := by
    rintro rfl
    rcases (kept.pages x).mp (Or.inr (Or.inr mine)) with here | here | here
    · exact free here
    · exact table here
    · exact leaf here
  exact (upd_of_ne other _ _).trans (kept.frame x free table leaf)

end Pages

end Xv6Fcfs.Vm

namespace Xv6Fcfs.Sys

open Xv6Fcfs.Lib Xv6Fcfs.Vm Xv6Fcfs.Fs
open Xv6Fcfs.Process (ProcState wrapInt)

/-! ## Slots -/

/-- What `freeproc` leaves of a slot. -/
def Task.freed (t : Task) : Task :=
  { t with
    trapframe := none, pagetable := none, sz := 0, pid := 0, parent := none, name := [],
    killed := false, xstate := 0, state := .unused }

/-- The pages of a slot: the tables `T`, and in `L` the user pages and the trap frame. -/
inductive Holding (tramp : Nat) (v : Phys) (t : Task) : Finset Nat → Finset Nat → Prop where
  | empty (sets : Sets v ∅ ∅) (frame : t.trapframe = none) (table : t.pagetable = none) :
      Holding tramp v t ∅ ∅
  | frame (f : Nat) (sets : Sets v ∅ {f}) (frame : t.trapframe = some f) (table : t.pagetable = none) :
      Holding tramp v t ∅ {f}
  | space (f root : Nat) (T L : Finset Nat) (M : Nat → Option Nat) (sets : Sets v T (insert f L))
      (other : f ∉ L) (frame : t.trapframe = some f) (table : t.pagetable = some root)
      (inv : SpaceInv tramp v ⟨root, t.sz, f⟩ T L M) : Holding tramp v t T (insert f L)

section Slots
variable {tramp : Nat} {s : System} {i : Nat} {T L : Finset Nat} {E : Halt → Prop}

theorem freeproc_spec (holding : Holding tramp s.phys (s.task i) T L) :
    wp (freeproc i) E (fun _ s' => Sets s'.phys ∅ ∅ ∧ Kept s.phys s'.phys T ∅ L ∅ ∧
      s' = { s with phys := s'.phys, task := upd s.task i (s.task i).freed }) s := by
  rw [freeproc, wp_bind, wp_get]
  cases holding with
  | empty sets frame table =>
      simp only [frame, table, wp_bind, wp_setTask, upd_self, upd_upd]
      exact ⟨sets, Kept.refl _ _ _, rfl⟩
  | frame f sets frame table =>
      simp only [frame, table, wp_bind, wp_setTask, wp_onVm]
      refine wp_post (kfree_spec sets (Finset.mem_singleton_self f)) ?_
      rintro _ v ⟨sets', kept, -⟩
      simp only [upd_self, upd_upd]
      rw [Finset.erase_singleton] at sets' kept
      exact ⟨sets', kept, rfl⟩
  | space f root T L M sets other frame table inv =>
      simp only [frame, table, wp_bind, wp_setTask, wp_onVm]
      refine wp_post (kfree_spec sets (Finset.mem_insert_self f L)) ?_
      rintro _ v ⟨sets', kept, same⟩
      rw [Finset.erase_insert other] at sets' kept
      have inv' : SpaceInv tramp v ⟨root, (s.task i).sz, f⟩ T L M := by
        refine inv.rebase sets' fun q table => same q ?_
        rintro rfl
        exact sets.apart q table (Finset.mem_insert_self q L)
      have spec := procFreepagetable_spec (E := fun e => E (.vm e)) inv'
      simp only at spec
      refine wp_post spec ?_
      rintro _ v2 ⟨sets2, kept2⟩
      simp only [upd_self, upd_upd]
      exact ⟨sets2, kept.trans kept2, rfl⟩

/-- The slots that `allocproc` may take have nothing. -/
def Blank (s : System) : Prop :=
  ∀ i, (s.task i).state = .unused →
    (s.task i).trapframe = none ∧ (s.task i).pagetable = none ∧ (s.task i).sz = 0

theorem unusedSlot_some {task : Nat → Task} {i : Nat} : ∀ {n lo : Nat},
    unusedSlot task lo n = some i → (task i).state = .unused ∧ i < lo + n := by
  intro n
  induction n with
  | zero => intro lo found; cases found
  | succ n ih =>
      intro lo found
      rw [unusedSlot] at found
      split at found
      · next unused =>
        cases found
        exact ⟨unused, by omega⟩
      · obtain ⟨unused, bound⟩ := ih found
        exact ⟨unused, by omega⟩

/-- The slot that `allocproc` has filled. -/
def Task.taken (t : Task) (pid : Int) (f root : Nat) : Task :=
  { t with pid := pid, state := .used, trapframe := some f, pagetable := some root }

/-- The answers of `allocproc`: no slot, no page, or a slot with a trap frame and a table. -/
inductive Allotted (tramp : Nat) (s s' : System) : Option Nat → Prop where
  | full (same : s' = s) : Allotted tramp s s' none
  | failed (i : Nat) (unused : (s.task i).state = .unused) (sets : Sets s'.phys ∅ ∅)
      (kept : Kept s.phys s'.phys ∅ ∅ ∅ ∅)
      (rest : s' = { s with
        phys := s'.phys, nextpid := wrapInt (s.nextpid + 1), task := upd s.task i (s.task i).freed }) :
      Allotted tramp s s' none
  | made (i f root : Nat) (T : Finset Nat) (M : Nat → Option Nat)
      (unused : (s.task i).state = .unused) (slot : i < NPROC)
      (sets : Sets s'.phys T {f}) (inv : SpaceInv tramp s'.phys ⟨root, 0, f⟩ T ∅ M)
      (kept : Kept s.phys s'.phys ∅ T ∅ {f}) (empty : ∀ va, va < TRAPFRAME → M va = none)
      (rest : s' = { s with
        phys := s'.phys, nextpid := wrapInt (s.nextpid + 1),
        task := upd s.task i ((s.task i).taken s.nextpid f root) }) :
      Allotted tramp s s' (some i)

theorem allocproc_spec (sets : Sets s.phys ∅ ∅) (blank : Blank s) (small : tramp < 2 ^ 44) :
    wp (allocproc tramp) E (fun r s' => Allotted tramp s s' r) s := by
  rw [allocproc, wp_bind, wp_get]
  cases found : unusedSlot s.task 0 NPROC with
  | none => exact .full rfl
  | some i =>
      obtain ⟨unused, bound⟩ := unusedSlot_some found
      obtain ⟨noFrame, noTable, -⟩ := blank i unused
      simp only [wp_bind, wp_set, wp_setTask, wp_onVm]
      refine wp_post (kalloc_spec sets) ?_
      rintro r v1 (⟨rfl, sets1, kept1⟩ | ⟨f, rfl, free1, -, -, sets1, kept1⟩)
      · rw [wp_bind]
        refine wp_post (freeproc_spec (show Holding tramp _ _ ∅ ∅ from .empty sets1 ?_ ?_)) ?_
        · simp only [upd_self, noFrame]
        · simp only [upd_self, noTable]
        · rintro _ s2 ⟨sets2, kept2, rest⟩
          refine .failed i unused sets2 (kept1.trans kept2) ?_
          rw [rest]
          simp only [upd_self, upd_upd]
          rfl
      · have range := sets1.range f (Or.inr (Or.inr (Finset.mem_insert_self f ∅)))
        have frame : f < 2 ^ 44 := by
          have top : PHYSTOP / PGSIZE = 0x88000 := by decide
          omega
        have away : ¬ (f ∈ v1.free ∨ f ∈ (∅ : Finset Nat) ∨
          f ∈ (∅ : Finset Nat)) := by simpa using free1
        simp only [wp_bind, wp_setTask, wp_onVm]
        refine wp_post (procPagetable_spec (Sets.none sets1) small frame) ?_
        rintro r v2 (⟨rfl, sets2, kept2⟩ | ⟨root, T, M, rfl, inv, kept2, empty⟩)
        · obtain ⟨sets3, kept3, -⟩ := sets2.beside kept2 range away
          rw [wp_bind]
          refine wp_post (freeproc_spec (show Holding tramp _ _ ∅ {f} from .frame f sets3 ?_ ?_)) ?_
          · simp only [upd_self]
          · simp only [upd_self, noTable]
          · rintro _ s4 ⟨sets4, kept4, rest⟩
            refine .failed i unused sets4 ((kept1.trans kept3).trans kept4) ?_
            rw [rest]
            simp only [upd_self, upd_upd]
            rfl
        · obtain ⟨sets3, kept3, -⟩ := inv.toSets.beside kept2 range away
          simp only [wp_bind, wp_setTask, wp_pure]
          refine .made i f root T M unused (by simpa using bound) sets3 inv (kept1.trans kept3) empty ?_
          simp only [upd_self, upd_upd]
          rfl

end Slots

/-! ## The files of the child -/

/-- The child refers to the files and the directory of its parent. -/
structure Shared (fs fs' : FsState) (files : ProcFiles) (np : Nat) : Prop where
  file : ∀ f, fs'.ftable f = { fs.ftable f with
    ref := (fs.ftable f).ref + Nat.count (fun fd => files.ofile fd = some f) NOFILE }
  rest : fs' = { fs with
    ftable := fs'.ftable
    itable := upd fs.itable files.cwd
      { fs.itable files.cwd with ref := (fs.itable files.cwd).ref + 1 }
    proc := upd fs.proc np (some files) }

theorem forkFiles_spec {fs : FsState} {files : ProcFiles} {np : Nat} {E : Stop → Prop}
    (opened : ∀ fd f, fd < NOFILE → files.ofile fd = some f → 1 ≤ (fs.ftable f).ref)
    (slot : np < NPROC) (none : fs.proc np = none) :
    wp (Fs.kfork files np) E (fun _ fs' => Shared fs fs' files np) fs := by
  have free : ¬ (NPROC ≤ np ∨ (fs.proc np).isSome) := by
    rw [none]
    simpa using slot
  simp only [Fs.kfork, wp_bind, wp_get, wp_ite, free, false_implies, not_false_eq_true, true_implies,
    true_and]
  have loop := wp_forFrom (E := E) (m := forkFd files)
    (fun i t => (∀ f, t.ftable f = { fs.ftable f with
      ref := (fs.ftable f).ref + Nat.count (fun fd => files.ofile fd = some f) i }) ∧
      t = { fs with ftable := t.ftable }) NOFILE 0 fs
    (by
      rintro fd t - below ⟨file, rest⟩
      unfold forkFd
      cases has : files.ofile fd with
      | none =>
          refine ⟨fun f => ?_, rest⟩
          rw [file f, Nat.count_succ, if_neg (by rw [has]; rintro ⟨⟩)]
          rfl
      | some f =>
          have one : ¬ (t.ftable f).ref < 1 := by
            have := opened fd f (by omega) has
            rw [file f]
            simp only
            omega
          simp only [filedup, wp_bind, wp_get, wp_ite, one, false_implies, true_and, wp_set,
            not_false_eq_true, true_implies]
          refine ⟨fun g => ?_, by rw [rest]; rfl⟩
          by_cases here : g = f
          · subst here
            simp only [setFile, upd_self, file g, Nat.count_succ, has, if_true, Nat.add_assoc]
          · have other : ¬ some f = some g := fun same => here (Option.some.inj same).symm
            simp only [setFile, upd_of_ne here, file g, Nat.count_succ, has, if_neg other,
              Nat.add_zero])
    ⟨fun f => rfl, rfl⟩
  refine wp_post loop ?_
  rintro _ t ⟨file, rest⟩
  rw [Nat.zero_add] at file
  simp only [idup, wp_bind, wp_modify, wp_pure]
  refine ⟨file, ?_⟩
  rw [rest]
  rfl

/-! ## `kfork` -/

def Task.forked (t : Task) (pid : Int) (f root : Nat) (p : Nat) (parent : Task) : Task :=
  { t.taken pid f root with
    sz := parent.sz, name := parent.name, parent := some p, state := .runnable }

/-- What `kfork` does for process `p`, whose space maps `M`. -/
inductive Forked (tramp p : Nat) (files : ProcFiles) (M : Nat → Option Nat) (s s' : System) :
    Int → Prop where
  | full (same : s' = s) : Forked tramp p files M s s' (-1)
  | failed (i : Nat) (unused : (s.task i).state = .unused) (sets : Sets s'.phys ∅ ∅)
      (kept : Kept s.phys s'.phys ∅ ∅ ∅ ∅)
      (rest : s' = { s with
        phys := s'.phys, nextpid := wrapInt (s.nextpid + 1), task := upd s.task i (s.task i).freed }) :
      Forked tramp p files M s s' (-1)
  | done (np f root : Nat) (T L : Finset Nat) (N0 N : Nat → Option Nat)
      (unused : (s.task np).state = .unused) (slot : np < NPROC)
      (sets : Sets s'.phys T (insert f L)) (apart : f ∉ L)
      (inv : SpaceInv tramp s'.phys ⟨root, (s.task p).sz, f⟩ T L N)
      (kept : Kept s.phys s'.phys ∅ T ∅ (insert f L))
      (copied : Copied s.phys s'.phys M N0 N (PGROUNDUP (s.task p).sz))
      (frame : ∃ b : Bytes, s'.phys.mem f = putLE (fun i =>
        if i < TRAPFRAME_SIZE then s.phys.mem (s.task p).space.trapframe i else b i) A0 8 0)
      (shared : Shared s.fs s'.fs files np)
      (rest : s' = { s with
        phys := s'.phys, nextpid := wrapInt (s.nextpid + 1), fs := s'.fs,
        task := upd s.task np ((s.task np).forked s.nextpid f root p (s.task p)) }) :
      Forked tramp p files M s s' s.nextpid

section Fork
variable {tramp p : Nat} {files : ProcFiles} {s : System} {T L : Finset Nat} {M : Nat → Option Nat}
  {E : Halt → Prop}

theorem kfork_spec (inv : SpaceInv tramp s.phys (s.task p).space T L M)
    (frame : (s.task p).space.trapframe ∉ s.phys.free) (blank : Blank s) (small : tramp < 2 ^ 44)
    (live : (s.task p).state ≠ .unused)
    (procs : ∀ i, (s.task i).state = .unused → s.fs.proc i = none)
    (opened : ∀ fd f, fd < NOFILE → files.ofile fd = some f → 1 ≤ (s.fs.ftable f).ref) :
    wp (kfork tramp p files) E (fun r s' => Forked tramp p files M s s' r) s := by
  rw [kfork, wp_bind]
  refine wp_post (allocproc_spec (Sets.none inv.toSets) blank small) ?_
  intro r s1 allotted
  cases allotted with
  | full same => exact .full same
  | failed i unused sets kept rest => exact .failed i unused sets kept rest
  | made np f root Tc N0 unused slot sets child kept empty rest =>
      have other : p ≠ np := by
        rintro rfl
        exact live unused
      have parentTask : s1.task p = s.task p := by rw [rest]; exact upd_of_ne other _ _
      have childTask : s1.task np = (s.task np).taken s.nextpid f root := by
        rw [rest]
        exact upd_self _ _ _
      -- what the child has was free before, so the parent is not touched
      have was : ∀ q, q ∈ s1.phys.free ∨ q ∈ Tc ∨ q ∈ ({f} : Finset Nat) → q ∈ s.phys.free := by
        intro q own
        simpa using (kept.pages q).mp own
      obtain ⟨parent, same⟩ := inv.away kept sets fun q _ => ⟨by simp, by simp⟩
      have apart : Apart s1.phys T L Tc := by
        refine ⟨?_, ?_⟩
        · rintro q (table | leaf) free
          · exact parent.freeT q free table
          · exact parent.freeL q free leaf
        · rintro q own table
          have free := was q (Or.inr (Or.inl table))
          rcases own with own | own
          · exact inv.freeT q free own
          · exact inv.freeL q free own
      have range := sets.range f (Or.inr (Or.inr (Finset.mem_singleton_self f)))
      have away : ¬ (f ∈ s1.phys.free ∨ f ∈ Tc ∨ f ∈ (∅ : Finset Nat)) := by
        rintro (free | table | no)
        · exact sets.freeL f free (Finset.mem_singleton_self f)
        · exact sets.apart f table (Finset.mem_singleton_self f)
        · simp at no
      have frame1 : s1.phys.mem (s.task p).space.trapframe = s.phys.mem (s.task p).space.trapframe :=
        kept.frame _ frame (by simp) (by simp)
      have zero : (s.task np).sz = 0 := (blank np unused).2.2
      rw [wp_bind, wp_get, wp_bind, wp_onVm]
      simp only [parentTask, childTask]
      have spec := uvmcopy_spec (E := fun e => E (.vm e)) parent child rfl apart
      refine wp_post spec ?_
      rintro r v2 ⟨Tc2, ⟨rfl, Lc, N, inv2, kept2, copied⟩ | ⟨rfl, N, inv2, kept2⟩⟩
      · obtain ⟨sets2, kept3, outside⟩ := inv2.toSets.beside kept2 range away
        rw [if_neg (by decide)]
        simp only [wp_bind, wp_setTask, wp_onVm, wp_modify, wp_onFs, wp_pure]
        have files1 : s1.fs = s.fs := by rw [rest]
        rw [files1]
        refine wp_post (forkFiles_spec opened slot (procs np unused)) ?_
        intro _ fs shared
        have mine : f ∈ insert f Lc := Finset.mem_insert_self f Lc
        have notTable : f ∉ Tc2 := fun table => sets2.apart f table mine
        refine .done np f root Tc2 Lc N0 N unused slot ?_ outside (inv2.setOther notTable _)
          ((kept.trans kept3).write mine _) ?_ ?_ shared ?_
        · exact ⟨sets2.nodup, sets2.range, sets2.freeT, sets2.freeL, sets2.apart⟩
        · refine ⟨copied.absent, ?_, copied.above⟩
          intro va pte aligned below mapped
          obtain ⟨q, new, low, bytes⟩ := copied.present va pte aligned below mapped
          have user : va < TRAPFRAME := Nat.lt_of_lt_of_le below inv.round.2.2
          have flags : PTE_FLAGS pte < 2 ^ 10 := Nat.lt_of_le_of_lt Nat.and_le_right (by decide)
          have leaf : q ∈ Lc :=
            (inv2.leaves q).mpr ⟨va, _, aligned, user, new, leafPage_entry low flags⟩
          have differ : q ≠ f := by
            rintro rfl
            exact outside leaf
          refine ⟨q, new, low, (upd_of_ne differ _ _).trans (bytes.trans ?_)⟩
          exact same _ (Or.inr ((inv.leaves _).mpr ⟨va, pte, aligned, user, mapped, rfl⟩))
        · refine ⟨v2.mem f, ?_⟩
          have frame2 : v2.mem (s.task p).space.trapframe = s.phys.mem (s.task p).space.trapframe := by
            refine (kept2.frame _ (fun free => frame (was _ (Or.inl free)))
              (fun table => frame (was _ (Or.inr (Or.inl table)))) (by simp)).trans frame1
          rw [← frame2]
          exact upd_self _ _ _
        · rw [rest]
          simp only [upd_self, upd_upd, Task.taken]
          rfl
      · obtain ⟨sets2, kept3, -⟩ := inv2.toSets.beside kept2 range away
        rw [if_pos (by decide), wp_bind]
        have holding : Holding tramp v2 (({ s1 with phys := v2 } : System).task np) Tc2
          (insert f ∅) := by
          refine .space f root Tc2 ∅ N sets2 (by simp) ?_ ?_ ?_
          · rw [childTask]; rfl
          · rw [childTask]; rfl
          · simp only [childTask, Task.taken, zero]
            exact inv2
        refine wp_post (freeproc_spec holding) ?_
        rintro _ s3 ⟨sets4, kept4, rest4⟩
        refine .failed np unused sets4 ((kept.trans kept3).trans kept4) ?_
        rw [rest4]
        simp only [childTask]
        rw [rest]
        simp only [upd_upd]
        rfl

/-! ## What the caller sees -/

/-- The kernel as `kfork` finds it: process `p` has a space, free slots have nothing, and open
files are counted. -/
structure Forkable (tramp : Nat) (s : System) (p : Nat) (files : ProcFiles) : Prop where
  space : ∃ T L M, SpaceInv tramp s.phys (s.task p).space T L M
  frame : (s.task p).space.trapframe ∉ s.phys.free
  text : tramp < 2 ^ 44
  live : (s.task p).state ≠ .unused
  blank : Blank s
  own : s.fs.proc p = some files
  procs : ∀ i, (s.task i).state = .unused → s.fs.proc i = none
  opened : ∀ fd f, fd < NOFILE → files.ofile fd = some f → 1 ≤ (s.fs.ftable f).ref

/-- Nobody but the child has changed. -/
structure OthersKept (s s' : System) (np : Nat) : Prop where
  task : ∀ i, i ≠ np → s'.task i = s.task i
  files : ∀ i, i ≠ np → s'.fs.proc i = s.fs.proc i
  memory : ∀ q, q ∉ s.phys.free → s'.phys.mem q = s.phys.mem q
  rest : s' = { s with task := s'.task, nextpid := s'.nextpid, phys := s'.phys, fs := s'.fs }

/-- Slot `np` is a copy of process `p`, and `p` is as before. -/
structure Child (s s' : System) (p np : Nat) (files : ProcFiles) : Prop where
  slot : np < NPROC ∧ np ≠ p ∧ (s.task np).state = .unused
  others : OthersKept s s' np
  parent : ∀ va, pages s'.phys (s.task p).space va = pages s.phys (s.task p).space va
  copy : ∀ va, va < (s.task p).sz →
    pages s'.phys (s'.task np).space (PGROUNDDOWN va) = pages s.phys (s.task p).space (PGROUNDDOWN va)
  fresh : ∀ va pte, va < TRAPFRAME →
    leafPte s'.phys.mem (s'.task np).space.pagetable (PGROUNDDOWN va) = some pte →
    leafPage pte ∈ s.phys.free
  apart : ∀ va va' pte pte', va < TRAPFRAME → va' < TRAPFRAME →
    leafPte s.phys.mem (s.task p).space.pagetable (PGROUNDDOWN va) = some pte →
    leafPte s'.phys.mem (s'.task np).space.pagetable (PGROUNDDOWN va') = some pte' →
    leafPage pte' ≠ leafPage pte
  registers : ∀ i, i < TRAPFRAME_SIZE → s'.phys.mem (s'.task np).space.trapframe i =
    if A0 ≤ i ∧ i < A0 + 8 then 0 else s.phys.mem (s.task p).space.trapframe i
  size : (s'.task np).sz = (s.task p).sz
  shared : Shared s.fs s'.fs files np

/-- All is as before, but that `nextpid` may have moved and the slot that was taken is free again. -/
structure Undone (s s' : System) (p : Nat) : Prop where
  parent : ∀ va, pages s'.phys (s.task p).space va = pages s.phys (s.task p).space va
  slots : s'.task = s.task ∨ ∃ i, (s.task i).state = .unused ∧ s'.task = upd s.task i (s.task i).freed
  memory : ∀ q, q ∉ s.phys.free → s'.phys.mem q = s.phys.mem q
  pages : s'.phys.free.Perm s.phys.free
  rest : s' = { s with task := s'.task, nextpid := s'.nextpid, phys := s'.phys }

theorem pages_eq {v : Phys} {space : Space} {va : Nat} (inv : SpaceInv tramp v space T L M)
    (aligned : va % PGSIZE = 0) (user : va < TRAPFRAME) :
    pages v space va = (M va).map fun pte => (PTE_FLAGS pte, v.mem (leafPage pte)) := by
  rw [pages, if_pos ⟨aligned, user⟩, inv.leafPte_eq aligned user]

theorem pages_same {v v' : Phys} {space : Space} (inv : SpaceInv tramp v space T L M)
    (inv' : SpaceInv tramp v' space T L M) (same : ∀ q, q ∈ T ∨ q ∈ L → v'.mem q = v.mem q) (va : Nat) :
    pages v' space va = pages v space va := by
  by_cases page : va % PGSIZE = 0 ∧ va < TRAPFRAME
  · obtain ⟨aligned, user⟩ := page
    rw [pages_eq inv' aligned user, pages_eq inv aligned user]
    cases mapped : M va with
    | none => rfl
    | some pte =>
        have leaf := (inv.leaves (leafPage pte)).mpr ⟨va, pte, aligned, user, mapped, rfl⟩
        simp only [Option.map_some, same _ (Or.inr leaf)]
  · rw [pages, pages, if_neg page, if_neg page]

theorem leafPte_valid {mem : Nat → Bytes} {root va pte : Nat} (found : leafPte mem root va = some pte) :
    PTE_FLAGS pte ||| PTE_V = PTE_FLAGS pte := by
  have valid : pte &&& PTE_V ≠ 0 := by
    unfold leafPte at found
    split at found
    · cases found
    · split at found
      · next set => cases found; exact set
      · cases found
  have odd : pte.testBit 0 = true := by
    rw [Nat.testBit_zero]
    have one : pte % 2 = 1 := by
      rw [show PTE_V = 1 from rfl, Nat.and_one_is_mod] at valid
      omega
    simp [one]
  refine Nat.eq_of_testBit_eq fun i => ?_
  rw [Nat.testBit_or, PTE_FLAGS, Nat.testBit_and, show PTE_V = 2 ^ 0 from rfl, Nat.testBit_two_pow]
  cases i with
  | zero => rw [odd]; decide
  | succ i => simp

theorem Copied.flags {v v' : Phys} {N0 N : Nat → Option Nat} {top va : Nat}
    (copied : Copied v v' M N0 N top) (aligned : va % PGSIZE = 0) (below : va < top)
    (valid : ∀ pte, M va = some pte → PTE_FLAGS pte ||| PTE_V = PTE_FLAGS pte) :
    ((N va).map fun pte => (PTE_FLAGS pte, v'.mem (leafPage pte))) =
      (M va).map fun pte => (PTE_FLAGS pte, v.mem (leafPage pte)) := by
  cases mapped : M va with
  | none => rw [copied.absent va aligned below mapped]; rfl
  | some pte =>
      obtain ⟨q, new, low, bytes⟩ := copied.present va pte aligned below mapped
      have small : PTE_FLAGS pte < 2 ^ 10 := Nat.lt_of_le_of_lt Nat.and_le_right (by decide)
      rw [new, Option.map_some, Option.map_some, leafPage_entry low small, bytes, Nat.or_assoc,
        valid pte mapped, PTE_FLAGS_entry _ _ small]

/-- `kfork` makes a child that is a copy of its parent, or undoes all that it has done. -/
theorem fork_copies_or_undoes (forkable : Forkable tramp s p files) :
    ∃ r s', kfork tramp p files s = .ok (r, s') ∧
      ((∃ np, r = (s'.task np).pid ∧ Child s s' p np files) ∨ (r = -1 ∧ Undone s s' p)) := by
  obtain ⟨T, L, M, inv⟩ := forkable.space
  obtain ⟨r, s', run, forked⟩ := wp_total (kfork_spec inv forkable.frame forkable.blank forkable.text
    forkable.live forkable.procs forkable.opened)
  refine ⟨r, s', run, ?_⟩
  cases forked with
  | full same =>
      subst same
      exact Or.inr ⟨rfl, fun _ => rfl, Or.inl rfl, fun _ _ => rfl, List.Perm.refl _, rfl⟩
  | failed i unused sets kept rest =>
      obtain ⟨parent, same⟩ := inv.away kept sets fun q _ => ⟨by simp, by simp⟩
      refine Or.inr ⟨rfl, pages_same inv parent same, Or.inr ⟨i, unused, ?_⟩, ?_, ?_, ?_⟩
      · rw [rest]
      · exact fun q free => kept.frame q free (by simp) (by simp)
      · refine (List.perm_ext_iff_of_nodup sets.nodup inv.nodup).mpr fun q => ?_
        simpa using kept.pages q
      · rw [rest]
  | done np f root T' L' N0 N unused slot sets apart inv' kept copied frame shared rest =>
      have other : np ≠ p := by
        rintro rfl
        exact forkable.live unused
      obtain ⟨parent, same⟩ := inv.away kept sets fun q _ => ⟨by simp, by simp⟩
      have task : s'.task = upd s.task np
        ((s.task np).forked s.nextpid f root p (s.task p)) := by rw [rest]
      have child : (s'.task np).space = ⟨root, (s.task p).sz, f⟩ := by rw [task, upd_self]; rfl
      -- the pages of the child were free
      have fresh : ∀ va pte, va < TRAPFRAME →
          leafPte s'.phys.mem (s'.task np).space.pagetable (PGROUNDDOWN va) = some pte →
          leafPage pte ∈ s.phys.free := by
        intro va pte user mapped
        have aligned := (PGROUNDDOWN_spec va).1
        have below := Nat.lt_of_le_of_lt (PGROUNDDOWN_spec va).2.1 user
        rw [child, inv'.leafPte_eq aligned below] at mapped
        have leaf := (inv'.leaves (leafPage pte)).mpr ⟨_, pte, aligned, below, mapped, rfl⟩
        simpa using (kept.pages _).mp (Or.inr (Or.inr (Finset.mem_insert_of_mem leaf)))
      refine Or.inl ⟨np, ?_, ⟨slot, other, unused⟩, ⟨?_, ?_, ?_, ?_⟩, ?_, ?_, fresh, ?_, ?_, ?_, shared⟩
      · rw [task, upd_self]; rfl
      · intro i differ
        rw [task, upd_of_ne differ]
      · intro i differ
        rw [shared.rest]
        exact upd_of_ne differ _ _
      · exact fun q free => kept.frame q free (by simp) (by simp)
      · rw [rest]
      · exact pages_same inv parent same
      · intro va below
        have aligned : PGROUNDDOWN va % PGSIZE = 0 := (PGROUNDDOWN_spec va).1
        have low : PGROUNDDOWN va < PGROUNDUP (s.task p).sz :=
          Nat.lt_of_lt_of_le (PGROUNDDOWN_lt below) inv.round.2.1
        have user := Nat.lt_of_lt_of_le low inv.round.2.2
        rw [child, pages_eq inv' aligned user, pages_eq inv aligned user]
        refine Copied.flags copied aligned low fun pte mapped => ?_
        exact leafPte_valid ((inv.leafPte_eq aligned user).trans mapped)
      · intro va va' pte pte' user user' mapped mapped' same
        have aligned := (PGROUNDDOWN_spec va).1
        have below := Nat.lt_of_le_of_lt (PGROUNDDOWN_spec va).2.1 user
        rw [inv.leafPte_eq aligned below] at mapped
        have leaf := (inv.leaves (leafPage pte)).mpr ⟨_, pte, aligned, below, mapped, rfl⟩
        have free := fresh va' pte' user' mapped'
        rw [same] at free
        exact inv.freeL _ free leaf
      · intro i inside
        obtain ⟨b, bytes⟩ := frame
        rw [child, bytes, putLE]
        split
        · rw [Nat.zero_div]; rfl
        · rfl
      · rw [task, upd_self]; rfl

end Fork

/-! ## A process with a page and a file -/

def freshPages : Phys := { tenPages with free := (List.range 24).map fun i => 0x80100 + i }

def ownPage : VmM (Option Nat) := do
  match ← procPagetable (0x80007 * PGSIZE) 0x80050 with
  | none => return none
  | some root =>
      let sz ← uvmalloc root 0 PGSIZE PTE_W
      return if sz = 0 then none else some root

theorem freshPages_sets : Sets freshPages ∅ ∅ := .pool (by decide) (by decide)

def onePage : Option Nat × Phys := ended ownPage freshPages

theorem onePage_root : onePage.1 = some 0x80100 := by decide +kernel

theorem onePage_building : Building 0x80007 freshPages onePage.2 0x80100 PGSIZE 0x80050 := by
  have spec : wp ownPage (fun _ => True) (fun r v => ∀ root, r = some root →
      Building 0x80007 freshPages v root PGSIZE 0x80050) freshPages := by
    refine wp_seq (procPagetable_building freshPages_sets (by decide) (by decide)) ?_
    rintro _ v1 (⟨rfl, -⟩ | ⟨root, rfl, building⟩)
    · rintro root ⟨⟩
    · refine wp_seq (building.alloc PGSIZE (by decide)) ?_
      rintro sz v2 (⟨rfl, -⟩ | ⟨grown, done⟩)
      · rintro root ⟨⟩
      · rw [if_neg (by decide)] at grown
        subst grown
        rintro _ ⟨⟩
        exact done
  exact wp_ok spec (ended_run onePage_root) _ rfl

/-- The working directory is the root, which descriptor 0 has open as well. -/
def oneFile : ProcFiles := ⟨0, fun fd => if fd = 0 then some 0 else none⟩

def forkSystem : System :=
  { tableSystem with
    task := upd tableSystem.task 0
      ⟨.running, false, 0, 1, none, PGSIZE, some 0x80100, some 0x80050, []⟩
    nextpid := 2
    phys := onePage.2
    fs := { Fs.mkfsState with
      itable := upd Fs.mkfsState.itable 0 { Fs.mkfsState.itable 0 with ref := 2 }
      ftable := upd Fs.mkfsState.ftable 0 ⟨.inode, 1, true, false, 0, 0, 0⟩
      proc := upd (fun _ => none) 0 (some oneFile) } }

theorem forkSystem_forkable : Forkable 0x80007 forkSystem 0 oneFile := by
  obtain ⟨T, L, M, inv, -⟩ := onePage_building
  refine ⟨⟨T, L, M, inv⟩, by decide +kernel, by decide, by decide, ?_, rfl, ?_, ?_⟩
  · intro i unused
    by_cases zero : i = 0
    · subst zero
      exact absurd unused (by decide)
    · rw [forkSystem]
      simp only [upd_of_ne zero]
      exact ⟨rfl, rfl, rfl⟩
  · intro i unused
    have other : i ≠ 0 := by
      rintro rfl
      exact absurd unused (by decide)
    exact upd_of_ne other (some oneFile) fun _ => none
  · intro fd f _ has
    simp only [oneFile] at has
    split at has
    · obtain rfl := Option.some.inj has
      decide
    · cases has

theorem forkSystem_forks : ∃ s' np, kfork 0x80007 0 oneFile forkSystem = .ok (2, s') ∧
    (s'.task np).pid = 2 ∧ Child forkSystem s' 0 np oneFile := by
  obtain ⟨r, s1, run, answer⟩ := ran_of_answer (m := kfork 0x80007 0 oneFile) (s := forkSystem)
    (fun r _ => decide (r = 2)) (by decide +kernel)
  obtain rfl := of_decide_eq_true answer
  obtain ⟨r, s', run', outcome⟩ := fork_copies_or_undoes forkSystem_forkable
  obtain ⟨rfl, rfl⟩ := Prod.mk.inj (Except.ok.inj (run.symm.trans run'))
  rcases outcome with ⟨np, pid, child⟩ | ⟨no, -⟩
  · exact ⟨s1, np, run, pid.symm, child⟩
  · exact absurd no (by decide)

end Xv6Fcfs.Sys
