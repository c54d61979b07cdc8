import Xv6Fcfs.Sys.Exec
import Xv6Fcfs.Vm.Image

/-!
# The image that `kexec` builds

The new table grows from size 0 without holes, whatever the program headers say, so that
every page below its size is there for `loadseg`, and it never gets near `TRAPFRAME`.  Only
the file system can stop `kexec`.
-/

set_option autoImplicit false

namespace Xv6Fcfs.Sys

open Xv6Fcfs.Lib Xv6Fcfs.Vm Xv6Fcfs.Fs

/-! ## Programs on the parts of the system -/

def FsOnly (e : Halt) : Prop := ∃ stop, e = .fs stop

section Parts
variable {α : Type} {E : Halt → Prop} {Q : α → System → Prop} {s : System}

theorem wp_onVm (m : VmM α) : wp (onVm m) E Q s ↔
    wp m (fun e => E (.vm e)) (fun a t => Q a { s with phys := t }) s.phys := wp_embed ..

theorem wp_onFs (m : FsM α) : wp (onFs m) E Q s ↔
    wp m (fun e => E (.fs e)) (fun a t => Q a { s with fs := t }) s.fs := wp_embed ..

theorem wp_onFs_any (m : FsM α) (any : ∀ a t, Q a { s with fs := t }) : wp (onFs m) FsOnly Q s :=
  (wp_onFs m).mpr (wp_intro (fun a t _ => any a t) fun e _ => ⟨e, rfl⟩)

theorem wp_beginExec {Q : Unit → System → Prop}
    (any : ∀ t n, Q () { s with fs := t, outstanding := n }) : wp beginExec FsOnly Q s := by
  rw [beginExec, wp_bind, wp_modify]
  exact wp_onFs_any _ fun _ t => any t _

theorem wp_endExec {Q : Unit → System → Prop}
    (any : ∀ t n, Q () { s with fs := t, outstanding := n }) : wp endExec FsOnly Q s := by
  rw [endExec, wp_bind, wp_modify]
  exact wp_onFs_any _ fun _ t => any t _

theorem wp_giveUp {sb : Superblock} {ip : Nat} {Q : Unit → System → Prop}
    (any : ∀ t n, Q () { s with fs := t, outstanding := n }) : wp (giveUp sb ip) FsOnly Q s := by
  rw [giveUp, wp_bind]
  exact wp_onFs_any _ fun _ t => wp_endExec fun t' n => any t' n

theorem wp_setTask {Q : Unit → System → Prop} (i : Nat) (f : Task → Task) :
    wp (setTask i f) E Q s ↔ Q () { s with task := upd s.task i (f (s.task i)) } := Iff.rfl

end Parts

/-! ## Loading the file -/

def Beside (s s' : System) : Prop :=
  s' = { s with phys := s'.phys, fs := s'.fs, outstanding := s'.outstanding }

theorem Beside.refl (s : System) : Beside s s := rfl

theorem Beside.trans {s t u : System} (first : Beside s t) (second : Beside t u) : Beside s u := by
  unfold Beside at *
  rw [second, first]

theorem Beside.behind {s t u : System} (second : Beside t u) (first : Beside s t) : Beside s u :=
  first.trans second

theorem Beside.task {s t : System} (beside : Beside s t) : t.task = s.task := by rw [beside]

section Load
variable {tramp : Nat} {sb : Superblock} {v0 : Phys} {s s' : System} {root sz frame ip : Nat}

theorem loadsegLoop_spec {va offset len : Nat} (kernel : 0 < v0.low) (aligned : va % PGSIZE = 0) :
    ∀ (k i : Nat) (s : System), i % PGSIZE = 0 → (k = 0 ∨ va + i + (k - 1) * PGSIZE < sz) →
      Building tramp v0 s.phys root sz frame →
      wp (loadsegLoop sb root va ip offset len k i) FsOnly
        (fun _ s' => Building tramp v0 s'.phys root sz frame ∧ Beside s s') s := by
  have size : PGSIZE = 4096 := rfl
  intro k
  induction k with
  | zero =>
      intro i s _ _ building
      exact ⟨building, Beside.refl s⟩
  | succ k ih =>
      intro i s alignedI inside building
      have bound : TRAPFRAME < 2 ^ 64 := by decide
      have small := building.size
      have below : va + i < sz := by
        rw [size] at inside
        omega
      have exactly : wrap64 (va + i) = va + i := Nat.mod_eq_of_lt (by omega)
      have page : (va + i) % PGSIZE = 0 := by
        rw [size] at aligned alignedI ⊢
        omega
      rw [loadsegLoop, wp_bind, wp_onVm, exactly]
      refine building.walkaddr (by rw [building.low]; exact kernel) page below ?_
      intro pa found writes
      rw [if_neg found, wp_bind]
      refine wp_onFs_any _ ?_
      rintro ⟨r, bytes⟩ fs
      simp only [wp_bind, wp_onVm]
      rw [blit, wp_modify, wp_ite]
      have written := writes fun j => if 0 ≤ j ∧
        j < 0 + r.toNat then bytes (j - 0) else s.phys.mem (pa / PGSIZE) j
      refine ⟨fun _ => ⟨written, rfl⟩, ?_⟩
      intro _
      refine wp_post (ih (i + PGSIZE) _ (by rw [size] at alignedI ⊢; omega) ?_ written) ?_
      · rcases k with _ | k
        · exact Or.inl rfl
        · right
          rw [size] at inside ⊢
          omega
      · rintro _ s' ⟨building', beside⟩
        exact ⟨building', beside.behind rfl⟩

theorem flags2perm_lt (flags : Nat) : flags2perm flags < 2 ^ 10 := by
  unfold flags2perm
  split <;> split <;> decide

theorem segment_fits {vaddr memsz filesz newsz : Nat} (v : vaddr < 2 ^ 64) (m : memsz < 2 ^ 64)
    (less : filesz ≤ memsz) (grows : ¬ wrap64 (vaddr + memsz) < vaddr)
    (room : wrap64 (vaddr + memsz) ≤ newsz) : pagesBelow 0 (wrap32 filesz) = 0 ∨
      vaddr + 0 + (pagesBelow 0 (wrap32 filesz) - 1) * PGSIZE < newsz := by
  have part : wrap32 filesz ≤ filesz := Nat.mod_le _ _
  simp only [wrap64, pagesBelow, PGSIZE] at *
  omega

theorem loadSegments_spec (kernel : 0 < v0.low) : ∀ (n off sz : Nat) (s : System),
    Building tramp v0 s.phys root sz frame →
    wp (loadSegments sb root ip n off sz) FsOnly
      (fun r s' => Building tramp v0 s'.phys root r.2 frame ∧ Beside s s') s := by
  intro n
  induction n with
  | zero =>
      intro off sz s building
      exact ⟨building, Beside.refl s⟩
  | succ n ih =>
      intro off sz s building
      rw [loadSegments, wp_bind, readFile]
      refine wp_onFs_any _ ?_
      rintro ⟨r, ph⟩ fs
      have still : Building tramp v0 { s with fs := fs }.phys root sz frame ∧
        Beside s { s with fs := fs } :=
        ⟨building, rfl⟩
      have after : ∀ {s1 : System} {sz1 : Nat}, Beside { s with fs := fs } s1 →
          Building tramp v0 s1.phys root sz1 frame →
          wp (loadSegments sb root ip n (wrap32 (off + PROGHDR)) sz1) FsOnly
            (fun r s' => Building tramp v0 s'.phys root r.2 frame ∧ Beside s s') s1 := by
        intro s1 sz1 beside built
        refine wp_post (ih _ _ _ built) ?_
        rintro r s' ⟨building', beside'⟩
        exact ⟨building', (still.2.trans beside).trans beside'⟩
      simp only [wp_ite]
      refine ⟨fun _ => still, fun _ => ⟨fun _ => after (Beside.refl _) building, fun _ => ?_⟩⟩
      refine ⟨fun _ => still, fun more =>
        ⟨fun _ => still, fun grows => ⟨fun _ => still, fun aligned => ?_⟩⟩⟩
      rw [wp_bind, wp_onVm]
      refine wp_post (building.alloc _ (flags2perm_lt _)) ?_
      rintro sz1 v1 (⟨rfl, failed⟩ | ⟨size, done⟩)
      · rw [if_pos rfl]
        exact ⟨failed, rfl⟩
      · by_cases zero : sz1 = 0
        · rw [if_pos zero]
          have same : sz1 = sz := by
            rw [zero] at size
            split at size <;> omega
          rw [same] at done
          exact ⟨done, rfl⟩
        · rw [if_neg zero, wp_bind]
          have room : wrap64 (Proghdr.vaddr ph + Proghdr.memsz ph) ≤ sz1 := by
            rw [size]
            split <;> omega
          refine wp_post (loadsegLoop_spec kernel (by simpa using aligned) _ 0
            { s with fs := fs, phys := v1 } (by decide)
            (segment_fits (getLE_lt _ _ _) (getLE_lt _ _ _) (by omega) grows room) done) ?_
          rintro ok s2 ⟨built, beside⟩
          have beside' : Beside { s with fs := fs } s2 := beside.behind rfl
          cases ok with
          | true => exact after beside' built
          | false => exact ⟨built, still.2.trans beside'⟩

end Load

/-! ## The stack and the new image -/

section Commit
variable {tramp : Nat} {sb : Superblock} {v0 : Phys} {s s' : System}
    {root sz frame lo : Nat} {old : Space}

theorem pushDown_spec {sp n : Nat} (fits : n ≤ sp) (small : sp < 2 ^ 64) :
    pushDown sp n + n ≤ sp := by
  simp only [pushDown, wrap64]
  omega

theorem pushArgs_spec (kernel : 0 < v0.low) (bottom : lo % PGSIZE = 0) (edge : sz % PGSIZE = 0)
    (space : PGSIZE ≤ lo) (top : sz < 2 ^ 64) : ∀ (argv : List (List UInt8)) (sp : Nat)
    (ustack : List Nat) (s : System), (∀ arg, arg ∈ argv → arg.length < PGSIZE) → lo ≤ sp → sp ≤ sz →
    ustack.length ≤ MAXARG → Stacked tramp v0 s.phys root sz frame lo →
    wp (pushArgs old root lo argv sp ustack) FsOnly (fun r s' =>
      (Stacked tramp v0 s'.phys root sz frame lo ∧ Beside s s') ∧
      ∀ sp' ustack', r = some (sp', ustack') → lo ≤ sp' ∧ sp' ≤ sz ∧ ustack'.length ≤ MAXARG) s := by
  intro argv
  induction argv with
  | nil =>
      intro sp ustack s _ low high few stacked
      refine ⟨⟨stacked, Beside.refl s⟩, ?_⟩
      intro sp' ustack' same
      obtain ⟨rfl, rfl⟩ := Prod.mk.inj (Option.some.inj same)
      exact ⟨low, high, few⟩
  | cons arg rest ih =>
      intro sp ustack s short low high few stacked
      have length := short arg (List.mem_cons_self ..)
      have down := pushDown_spec (by omega : arg.length + 1 ≤ sp) (by omega)
      have none : (Stacked tramp v0 s.phys root sz frame lo ∧ Beside s s) ∧ ∀ sp' ustack',
          (none : Option (Nat × List Nat)) = some (sp', ustack') →
          lo ≤ sp' ∧ sp' ≤ sz ∧ ustack'.length ≤ MAXARG :=
        ⟨⟨stacked, Beside.refl s⟩, fun _ _ no => by cases no⟩
      rw [pushArgs, wp_ite]
      refine ⟨fun _ => none, fun more => ?_⟩
      rw [wp_ite]
      refine ⟨fun _ => none, fun fits => ?_⟩
      rw [wp_bind, wp_onVm]
      have kernel' : 0 < s.phys.low := by
        rw [stacked.low]
        exact kernel
      refine wp_post (stacked.copyout bottom edge kernel' (by omega) ?_) ?_
      · rw [List.length_append]
        simp only [List.length_cons, List.length_nil]
        omega
      · rintro r v1 ⟨rfl, stacked', -, -⟩
        rw [if_neg (by decide)]
        refine wp_post (ih _ _ _ (fun arg member => short arg (List.mem_cons_of_mem _ member))
          (by omega) (by omega) ?_ stacked') ?_
        · rw [List.length_append]
          simp only [List.length_cons, List.length_nil]
          omega
        · rintro r s' ⟨⟨stacked'', beside⟩, result⟩
          exact ⟨⟨stacked'', beside.behind rfl⟩, result⟩

theorem wordBytes_length (x : Nat) : (wordBytes x).length = 8 := by simp [wordBytes]

theorem words_length (l : List Nat) : ((l.map wordBytes).flatten).length = l.length * 8 := by
  induction l with
  | nil => rfl
  | cons x rest ih =>
      rw [List.map_cons, List.flatten_cons, List.length_append, wordBytes_length, ih, List.length_cons]
      omega

theorem pushStack_spec (kernel : 0 < v0.low) (bottom : lo % PGSIZE = 0) (edge : sz % PGSIZE = 0)
    (space : PGSIZE ≤ lo) (below : lo ≤ sz) (top : sz < 2 ^ 64) {argv : List (List UInt8)}
    (short : ∀ arg, arg ∈ argv → arg.length < PGSIZE)
    (stacked : Stacked tramp v0 s.phys root sz frame lo) :
    wp (pushStack old root lo sz argv) FsOnly (fun _ s' =>
      Stacked tramp v0 s'.phys root sz frame lo ∧ Beside s s') s := by
  rw [pushStack, wp_bind]
  refine wp_post (pushArgs_spec kernel bottom edge space top argv sz [] s short below (Nat.le_refl sz)
    (by decide) stacked) ?_
  rintro r s1 ⟨⟨stacked1, beside1⟩, result⟩
  cases r with
  | none => exact ⟨stacked1, beside1⟩
  | some pair =>
      obtain ⟨sp, ustack⟩ := pair
      obtain ⟨low, high, few⟩ := result sp ustack rfl
      have many : MAXARG = 32 := rfl
      have size : PGSIZE = 4096 := rfl
      have down := pushDown_spec (by omega : (ustack.length + 1) * 8 ≤ sp) (by omega)
      simp only [wp_ite]
      refine ⟨fun _ => ⟨stacked1, beside1⟩, fun fits => ?_⟩
      rw [wp_bind, wp_onVm]
      have kernel' : 0 < s1.phys.low := by
        rw [stacked1.low]
        exact kernel
      refine wp_post (stacked1.copyout bottom edge kernel' (by omega) ?_) ?_
      · rw [words_length, List.length_append]
        simp only [List.length_cons, List.length_nil]
        omega
      · rintro r v1 ⟨rfl, stacked2, -, -⟩
        rw [if_neg (by decide)]
        exact ⟨stacked2, beside1.trans rfl⟩

/-- What `kexec` does to the memory of process `p`, which had the tables `T` and the pages `L`
before: nothing, or a new image. -/
inductive Executed (tramp : Nat) (s s' : System) (p : Nat) (T L : Finset Nat) : Int → Prop where
  | failed (sets : Sets s'.phys ∅ ∅) (kept : Kept s.phys s'.phys ∅ ∅ ∅ ∅) (beside : Beside s s') :
      Executed tramp s s' p T L (-1)
  | done (argc : Nat) (root sz : Nat) (name : List UInt8) (T' L' : Finset Nat) (M' : Nat → Option Nat)
      (inv : SpaceInv tramp s'.phys ⟨root, sz, (s.task p).space.trapframe⟩ T' L' M')
      (apart : (s.task p).space.trapframe ∉ s'.phys.free ∧ (s.task p).space.trapframe ∉ T' ∧
        (s.task p).space.trapframe ∉ L')
      (fresh : ∀ q, q ∈ T' ∨ q ∈ L' → q ∈ s.phys.free)
      (kept : Kept s.phys s'.phys T T' (insert (s.task p).space.trapframe L)
        (insert (s.task p).space.trapframe L'))
      (beside : Beside { s with
        task := upd s.task p { s.task p with name := name, pagetable := some root, sz := sz } } s') :
      Executed tramp s s' p T L argc

variable {p : Nat} {T L : Finset Nat} {M : Nat → Option Nat} {s0 : System}

theorem kexecImage_spec {path : Path} {argv : List (List UInt8)} {entry : Nat}
    (inv : SpaceInv tramp s0.phys (s0.task p).space T L M)
    (apart : (s0.task p).space.trapframe ∉ s0.phys.free ∧ (s0.task p).space.trapframe ∉ T ∧
      (s0.task p).space.trapframe ∉ L)
    (kernel : 0 < s0.phys.low) (short : ∀ arg, arg ∈ argv → arg.length < PGSIZE)
    (beside : Beside s0 s)
    (building : Building tramp s0.phys s.phys root sz (s0.task p).space.trapframe) :
    wp (kexecImage p path argv root entry sz) FsOnly (fun r s' => Executed tramp s0 s' p T L r) s := by
  have size : PGSIZE = 4096 := rfl
  obtain ⟨rounded, aligned, top⟩ := building.roundUp
  have bound : TRAPFRAME + 2 * PGSIZE < 2 ^ 64 := by decide
  have exactly : wrap64 (PGROUNDUP sz + (USERSTACK + 1) * PGSIZE) =
      PGROUNDUP sz + (USERSTACK + 1) * PGSIZE := by
    refine Nat.mod_eq_of_lt ?_
    have two : USERSTACK + 1 = 2 := rfl
    rw [two]
    omega
  rw [kexecImage, wp_bind, wp_get]
  simp only [beside.task, exactly]
  rw [wp_bind, wp_onVm]
  refine wp_post (rounded.stack aligned (USERSTACK + 1) (by decide)) ?_
  rintro sz1 v1 (⟨zero, failed⟩ | ⟨same, positive, stacked⟩)
  · rw [if_pos zero, wp_bind, wp_onVm]
    refine wp_post failed.free ?_
    rintro _ v2 ⟨sets, kept⟩
    exact .failed sets kept (beside.trans rfl)
  · rw [if_neg positive, wp_bind, wp_onVm]
    have two : sz1 = PGROUNDUP sz + 2 * 4096 := same
    have guard : sz1 - (USERSTACK + 1) * PGSIZE = PGROUNDUP sz := by
      rw [two, size, show USERSTACK + 1 = 2 from rfl]
      omega
    have base : sz1 - USERSTACK * PGSIZE = PGROUNDUP sz + PGSIZE := by
      rw [two, size, show USERSTACK = 1 from rfl]
      omega
    rw [guard]
    refine wp_post (stacked.clear aligned (by omega)) ?_
    rintro _ v2 ⟨stacked2, low2⟩
    rw [wp_bind, base]
    refine wp_post (pushStack_spec (s := { s with phys := v2 }) kernel
      (by rw [size] at aligned ⊢; omega) ?_
      (by omega) ?_ ?_ short stacked2) ?_
    · rw [size] at aligned ⊢
      omega
    · rw [size]
      omega
    · rw [size] at bound
      omega
    · rintro r s3 ⟨stacked3, beside3⟩
      have beside' : Beside s0 s3 := beside.trans (beside3.behind rfl)
      cases r with
      | none =>
          rw [wp_bind, wp_onVm]
          refine wp_post stacked3.free ?_
          rintro _ v4 ⟨sets, kept⟩
          exact .failed sets kept (beside'.trans rfl)
      | some pair =>
          obtain ⟨sp, argc⟩ := pair
          simp only [wp_bind, wp_setTask, wp_onVm, wp_modify]
          refine wp_post (stacked3.commit inv apart _) ?_
          rintro _ v4 ⟨T', L', M', inv', apart', fresh, kept⟩
          refine .done argc root _ (lastElem path) T' L' M' inv' apart' fresh kept ?_
          unfold Beside at beside' ⊢
          rw [beside']

theorem Sets.none {v : Phys} (sets : Sets v T L) : Sets v ∅ ∅ :=
  ⟨sets.nodup, fun q member => sets.range q (Or.inl (by simpa using member)), by simp, by simp, by simp⟩

theorem kexec_spec {cwd : Nat} {path : Path} {argv : List (List UInt8)}
    (inv : SpaceInv tramp s.phys (s.task p).space T L M)
    (apart : (s.task p).space.trapframe ∉ s.phys.free ∧ (s.task p).space.trapframe ∉ T ∧
      (s.task p).space.trapframe ∉ L)
    (kernel : 0 < s.phys.low) (small : tramp < 2 ^ 44) (page : (s.task p).space.trapframe < 2 ^ 44)
    (short : ∀ arg, arg ∈ argv → arg.length < PGSIZE) :
    wp (kexec tramp sb p cwd path argv) FsOnly (fun r s' => Executed tramp s s' p T L r) s := by
  have sets := Sets.none inv.toSets
  have fails : ∀ fs n, Executed tramp s { s with fs := fs, outstanding := n } p T L (-1) :=
    fun fs n => .failed sets (Kept.refl _ _ _) rfl
  rw [kexec, wp_bind]
  refine wp_beginExec ?_
  intro fs1 n1
  rw [wp_bind]
  refine wp_onFs_any _ ?_
  rintro found fs2
  cases found with
  | none =>
      rw [wp_bind]
      exact wp_endExec fun fs3 n3 => fails fs3 n3
  | some ip =>
      rw [wp_bind]
      refine wp_onFs_any _ ?_
      rintro _ fs3
      rw [wp_bind, readFile]
      refine wp_onFs_any _ ?_
      rintro ⟨r, elf⟩ fs4
      simp only [wp_ite]
      refine ⟨fun _ => ?_, fun _ => ?_⟩
      · rw [wp_bind]
        exact wp_giveUp fun fs5 n5 => fails fs5 n5
      · rw [wp_bind, wp_get, wp_bind, wp_onVm]
        refine wp_post (procPagetable_building sets small page) ?_
        rintro found v1 (⟨rfl, sets1, kept1⟩ | ⟨root, rfl, start⟩)
        · rw [wp_bind]
          exact wp_giveUp fun _ _ => .failed sets1 kept1 rfl
        · rw [wp_bind]
          refine wp_post (loadSegments_spec kernel _ _ _
            { s with fs := fs4, phys := v1, outstanding := n1 } start) ?_
          rintro ⟨ok, sz⟩ s2 ⟨building, beside⟩
          have beside' : Beside s s2 := beside.behind rfl
          simp only [wp_ite]
          refine ⟨fun _ => ?_, fun _ => ?_⟩
          · rw [wp_bind, wp_onVm]
            refine wp_post building.free ?_
            rintro _ v3 ⟨sets3, kept3⟩
            rw [wp_bind]
            exact wp_giveUp fun _ _ => .failed sets3 kept3 (beside'.trans rfl)
          · rw [wp_bind]
            refine wp_giveUp fun _ _ => ?_
            exact kexecImage_spec inv apart kernel short (beside'.trans rfl) building

end Commit

end Xv6Fcfs.Sys
