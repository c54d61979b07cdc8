import Xv6Fcfs.Vm.Freewalk
import Xv6Fcfs.Lib.Runs
import Mathlib.Data.List.Nodup

/-!
# Page tables refine finite maps

A table is built by `uvmcreate`, `walk`, `mappages` and `uvmunmap` while the rest of the
kernel takes pages from the allocator, writes to them and gives them back.  In every state
reached, the operations act on the table as on a map from page-aligned addresses to valid
leaves.
-/

set_option autoImplicit false

namespace Xv6Fcfs.Vm

open Xv6Fcfs.Lib

/-- `others` are the pages that the rest of the kernel has. -/
structure Build where
  phys : Phys
  others : List Nat
  root : Option Nat

inductive BuildEvent where
  | uvmcreate
  | walk (va : Nat)
  | mappages (va pa perm : Nat)
  | uvmunmap (va npages : Nat) (doFree : Bool)
  | take
  | give (p : Nat)
  | write (p : Nat) (b : Bytes)
  | refuse (calls : List Bool)

/-- The machine after a run of `m`; a panic stops it. -/
def Build.after {α : Type} (b : Build) (m : VmM α) (next : α → Phys → Build) : Option Build :=
  match m b.phys with
  | .ok (a, s) => some (next a s)
  | .error _ => none

/-- Callers map physical pages at page-aligned addresses; the pages they let `uvmunmap` free
are their own, each mapped once. -/
def Build.step (b : Build) : BuildEvent → Option Build
  | .uvmcreate =>
      if b.root = none then b.after Vm.uvmcreate fun root s => { b with phys := s, root := root }
      else none
  | .walk va => b.root.bind fun root =>
      b.after (Vm.walk root va true) fun _ s => { b with phys := s }
  | .mappages va pa perm => b.root.bind fun root =>
      if pa % PGSIZE = 0 ∧ pa < 2 ^ 56 ∧ perm < 2 ^ 64 then
        b.after (Vm.mappages root va PGSIZE pa perm) fun _ s => { b with phys := s }
      else none
  | .uvmunmap va npages doFree => b.root.bind fun root =>
      let turns := (wrap64 (va + npages * PGSIZE) - va) / PGSIZE
      let pages := mappedPages (leafPte b.phys.mem root) va turns
      if doFree = true → pages.Nodup ∧ ∀ p, p ∈ pages → p ∈ b.others then
        b.after (Vm.uvmunmap root va npages doFree) fun _ s =>
          { b with
            phys := s
            others := if doFree then b.others.filter (· ∉ pages) else b.others }
      else none
  | .take =>
      match b.phys.free with
      | [] => none
      | p :: rest => some { b with phys := { b.phys with free := rest }, others := p :: b.others }
  | .give p =>
      if p ∈ b.others then
        some { b with
          phys := { b.phys with free := p :: b.phys.free }
          others := b.others.erase p }
      else none
  | .write p bytes =>
      if p ∈ b.others then some { b with phys := { b.phys with mem := upd b.phys.mem p bytes } }
      else none
  | .refuse calls => some { b with phys := { b.phys with refusals := calls } }

/-- The operations of the table at `root` as operations of the map `leafPte s.mem root`. -/
structure MapLaw (s : Phys) (root : Nat) : Prop where
  walk : ∀ va, va % PGSIZE = 0 → va < MAXVA →
    wp (Vm.walk root va false) (fun _ => False) (fun r s' => s' = s ∧ leafPte s.mem root va =
      match r with
      | none => none
      | some (t, i) => if loadPte s.mem t i &&& PTE_V ≠ 0 then some (loadPte s.mem t i) else none) s
  walkaddr : ∀ va, va % PGSIZE = 0 → va < MAXVA →
    wp (Vm.walkaddr root va) (fun _ => False) (fun r s' => s' = s ∧ r =
      match leafPte s.mem root va with
      | some pte => if pte &&& PTE_U = 0 then 0 else PTE2PA pte
      | none => 0) s
  mappages : ∀ va pa perm, va % PGSIZE = 0 → va < MAXVA → pa % PGSIZE = 0 → pa < 2 ^ 56 →
    perm < 2 ^ 64 → leafPte s.mem root va = none →
    wp (Vm.mappages root va PGSIZE pa perm) (fun _ => False) (fun r s' =>
      (r = 0 ∧ ∀ va', va' % PGSIZE = 0 → va' < MAXVA → leafPte s'.mem root va' =
        if va' = va then some (PA2PTE pa ||| perm ||| PTE_V) else leafPte s.mem root va') ∨
      (r = -1 ∧ ∀ va', va' % PGSIZE = 0 → va' < MAXVA →
        leafPte s'.mem root va' = leafPte s.mem root va')) s
  uvmunmap : ∀ va n doFree, va % PGSIZE = 0 → va + n * PGSIZE ≤ MAXVA →
    (doFree = true → ∀ p, p ∈ mappedPages (leafPte s.mem root) va n →
      s.low ≤ p ∧ p < PHYSTOP / PGSIZE ∧ ¬ Within (kid s.mem) root 2 p) →
    wp (Vm.uvmunmap root va n doFree) (fun _ => False) (fun _ s' =>
      ∀ va', va' % PGSIZE = 0 → va' < MAXVA → leafPte s'.mem root va' =
        if va ≤ va' ∧ va' < va + n * PGSIZE then none else leafPte s.mem root va') s
  freewalk : (∀ va, va % PGSIZE = 0 → va < MAXVA → leafPte s.mem root va = none) →
    wp (Vm.freewalk 3 root) (fun _ => False) (fun _ s' => ∃ freed : List Nat, freed.Nodup ∧
      (∀ q, q ∈ freed ↔ Within (kid s.mem) root 2 q) ∧ s'.free = freed ++ s.free) s

/-- A leaf made by `mappages` with the flags `perm` is read back as it was given. -/
theorem leaf_fields {pa perm : Nat} (aligned : pa % PGSIZE = 0) (small : pa < 2 ^ 56)
    (flags : perm < 2 ^ 10) :
    PTE2PA (PA2PTE pa ||| perm ||| PTE_V) = pa ∧
      PTE_FLAGS (PA2PTE pa ||| perm ||| PTE_V) = perm ||| PTE_V := by
  have both : perm ||| PTE_V < 2 ^ 10 := Nat.or_lt_two_pow flags (by decide)
  rw [Nat.or_assoc]
  exact ⟨PTE2PA_entry aligned small both, PTE_FLAGS_entry pa _ both⟩

section Laws
variable {s : Phys} {root : Nat} {T : Finset Nat} {M : Nat → Option Nat}

theorem Pt.own (pt : Pt s.mem root T M) : Pt s.mem root T (leafPte s.mem root) :=
  pt.mapCongr fun va aligned small => pt.map va aligned small

theorem Pt.law (pt : Pt s.mem root T M) (pool : Pool s) (apart : ∀ p, p ∈ s.free → p ∉ T)
    (range : ∀ q, q ∈ T → s.low ≤ q ∧ q < PHYSTOP / PGSIZE) : MapLaw s root where
  walk va aligned small := by
    rw [wp_walk_read small]
    refine ⟨rfl, ?_⟩
    cases leads : follow (kid s.mem) root (path va) with
    | none => exact pt.own.leaf_none aligned small leads
    | some t => exact pt.own.leaf_eq aligned small leads
  walkaddr va aligned small := by
    rw [wp_walkaddr pt.own aligned, if_pos small]
    exact ⟨rfl, rfl⟩
  mappages va pa perm aligned small _ low flags unmapped := by
    refine wp_post (mappages_spec aligned small pt.own pool apart unmapped low flags) ?_
    rintro r s' ⟨T', ⟨rfl, grown⟩ | ⟨rfl, grown⟩⟩
    · refine Or.inl ⟨rfl, fun va' aligned' small' => ?_⟩
      rw [grown.pt.map va' aligned' small']
      rfl
    · exact Or.inr ⟨rfl, fun va' aligned' small' => grown.pt.map va' aligned' small'⟩
  uvmunmap va n doFree aligned top freeable := by
    refine wp_post (uvmunmap_spec aligned top pt.own ?_) ?_
    · intro yes q member
      obtain ⟨above, below, outside⟩ := freeable yes q member
      exact ⟨above, below, fun inside => outside ((pt.tables q).mp inside)⟩
    · intro _ s' cut va' aligned' small'
      rw [cut.pt.map va' aligned' small']
      rfl
  freewalk empty := by
    refine wp_post (freewalk_pt pt.own empty range) ?_
    rintro _ s' ⟨freed, done, exactly⟩
    exact ⟨freed, done.nodup, fun q => (exactly q).trans (pt.tables q), done.free⟩

end Laws

/-! ## Runs -/

/-- The pages of the free list, of the others and of the table are three disjoint sets. -/
structure BuildInv (b : Build) : Prop where
  pool : Pool b.phys
  nodup : b.others.Nodup
  range : ∀ p, p ∈ b.others → b.phys.low ≤ p ∧ p < PHYSTOP / PGSIZE
  apart : ∀ p, p ∈ b.others → p ∉ b.phys.free
  table : ∀ root, b.root = some root → ∃ T M, Pt b.phys.mem root T M ∧
    ∀ q, q ∈ T → b.phys.low ≤ q ∧ q < PHYSTOP / PGSIZE ∧ q ∉ b.phys.free ∧ q ∉ b.others

section Runs
variable {b b' : Build} {root va n : Nat} {s s' : Phys} {T T' : Finset Nat} {M : Nat → Option Nat}
  {doFree : Bool} {r : Option Nat}

theorem after_some {α : Type} {m : VmM α} {next : α → Phys → Build} (run : b.after m next = some b') :
    ∃ a s, m b.phys = .ok (a, s) ∧ next a s = b' := by
  unfold Build.after at run
  split at run
  · rename_i a s done
    exact ⟨a, s, done, Option.some.inj run⟩
  · cases run

theorem mappages_returns (pt : Pt s.mem root T M) (pool : Pool s) (apart : ∀ p, p ∈ s.free → p ∉ T)
    {pa perm : Nat} (low : pa < 2 ^ 56) (flags : perm < 2 ^ 64) :
    wp (mappages root va PGSIZE pa perm) (fun _ => True)
      (fun _ s' => ∃ T' M', Grown s s' root T T' M') s := by
  by_cases aligned : va % PGSIZE = 0
  · by_cases small : va < MAXVA
    · cases mapped : M va with
      | none =>
          refine wp_post (mappages_spec aligned small pt pool apart mapped low flags) ?_
          rintro r s' ⟨T', ⟨-, grown⟩ | ⟨-, grown⟩⟩
          · exact ⟨T', _, grown⟩
          · exact ⟨T', _, grown⟩
      | some pte =>
          rw [mappages, if_neg (by omega), if_neg (by decide), if_neg (by decide),
            show PGSIZE / PGSIZE = 0 + 1 from rfl, mapLoop]
          refine wp_seq (walk_spec small pt pool apart) ?_
          rintro r s' ⟨T', grown, result⟩
          cases r with
          | none => exact ⟨T', M, grown⟩
          | some place =>
              obtain ⟨t, i⟩ := place
              obtain ⟨rfl, leads⟩ := result t i rfl
              have leaf := grown.pt.leaf_eq aligned small leads
              rw [mapped] at leaf
              have valid : loadPte s'.mem t (PX 0 va) &&& PTE_V ≠ 0 := by
                intro invalid
                rw [if_neg (by simpa using invalid)] at leaf
                cases leaf
              simp only [wp_bind, wp_readPte, if_pos valid]
              trivial
    · rw [mappages, if_neg (by omega), if_neg (by decide), if_neg (by decide),
        show PGSIZE / PGSIZE = 0 + 1 from rfl, mapLoop, wp_bind, walk, if_pos (by omega)]
      trivial
  · rw [mappages, if_pos aligned]
    trivial

theorem unmapLoop_top : ∀ (n a : Nat) (s s' : Phys) (r : Unit), a % PGSIZE = 0 →
    unmapLoop root doFree n a s = .ok (r, s') → n = 0 ∨ a + n * PGSIZE ≤ MAXVA := by
  intro n
  induction n with
  | zero =>
      intro a s s' r _ _
      exact Or.inl rfl
  | succ n ih =>
      intro a s s' r aligned run
      right
      have small : a < MAXVA := by
        by_contra high
        rw [unmapLoop, unmapPage, walk, if_pos (by omega)] at run
        cases run
      rw [unmapLoop] at run
      simp only [bind, StateT.bind, Except.bind] at run
      split at run
      · cases run
      · rename_i result first
        have size : PGSIZE = 4096 := rfl
        have top : MAXVA = 2 ^ 26 * 4096 := rfl
        rcases ih (a + PGSIZE) result.2 s' r (by rw [size] at aligned ⊢; omega) run with none | more
        · subst none
          rw [size] at aligned ⊢
          rw [top] at small ⊢
          omega
        · rw [size] at more ⊢
          omega

theorem BuildInv.grown (inv : BuildInv b) (isRoot : b.root = some root) {T : Finset Nat}
    {M : Nat → Option Nat}
    (table : ∀ q, q ∈ T → b.phys.low ≤ q ∧ q < PHYSTOP / PGSIZE ∧ q ∉ b.phys.free ∧ q ∉ b.others)
    (grown : Grown b.phys s root T T' M) : BuildInv { b with phys := s } := by
  have apartT := grown.apart inv.pool fun p member inside => (table p inside).2.2.1 member
  obtain ⟨got, free, tables⟩ := grown.taken
  refine ⟨grown.pool inv.pool, inv.nodup, ?_, ?_, ?_⟩
  · intro p member
    rw [grown.low]
    exact inv.range p member
  · intro p member inFree
    exact inv.apart p member (by rw [free]; exact List.mem_append_right _ inFree)
  · intro root' same
    obtain rfl : root' = root := Option.some.inj (same.symm.trans isRoot)
    refine ⟨T', M, grown.pt, ?_⟩
    intro q member
    rw [grown.low]
    have notFree : q ∉ s.free := fun inFree => apartT q inFree member
    rw [tables, Finset.mem_union, List.mem_toFinset] at member
    rcases member with old | new
    · exact ⟨(table q old).1, (table q old).2.1, notFree, (table q old).2.2.2⟩
    · have inFree : q ∈ b.phys.free := by
        rw [free]
        exact List.mem_append_left _ new
      have range := inv.pool.range q inFree
      exact ⟨range.1, range.2, notFree, fun other => inv.apart q other inFree⟩

/-- The pages that `uvmunmap` frees go from the others to the free list. -/
theorem BuildInv.cut (inv : BuildInv b) (isRoot : b.root = some root)
    (table : ∀ q, q ∈ T → b.phys.low ≤ q ∧ q < PHYSTOP / PGSIZE ∧ q ∉ b.phys.free ∧ q ∉ b.others)
    {pages : List Nat} (nodup : pages.Nodup) (own : ∀ p, p ∈ pages → p ∈ b.others)
    (cut : Cut b.phys s root T M pages.reverse) :
    BuildInv { b with phys := s, others := b.others.filter (· ∉ pages) } := by
  have members : ∀ p, p ∈ s.free ↔ p ∈ pages ∨ p ∈ b.phys.free := by
    intro p
    rw [cut.free, List.mem_append, List.mem_reverse]
  refine ⟨⟨?_, ?_⟩, inv.nodup.filter _, ?_, ?_, ?_⟩
  · rw [cut.free, List.nodup_append]
    refine ⟨List.nodup_reverse.mpr nodup, inv.pool.nodup, ?_⟩
    rintro p inPages q inFree rfl
    exact inv.apart p (own p (List.mem_reverse.mp inPages)) inFree
  · intro p member
    rw [cut.low]
    rcases (members p).mp member with page | old
    · exact inv.range p (own p page)
    · exact inv.pool.range p old
  · intro p member
    rw [cut.low]
    exact inv.range p (List.mem_of_mem_filter member)
  · intro p member inFree
    obtain ⟨other, kept⟩ := List.mem_filter.mp member
    rcases (members p).mp inFree with page | old
    · simp [page] at kept
    · exact inv.apart p other old
  · intro root' same
    obtain rfl : root' = root := Option.some.inj (same.symm.trans isRoot)
    refine ⟨T, M, cut.pt, ?_⟩
    intro q member
    obtain ⟨above, below, notFree, notOther⟩ := table q member
    rw [cut.low]
    refine ⟨above, below, ?_, fun other => notOther (List.mem_of_mem_filter other)⟩
    intro inFree
    rcases (members q).mp inFree with page | old
    · exact notOther (own q page)
    · exact notFree old

theorem BuildInv.kept (inv : BuildInv b) (isRoot : b.root = some root)
    (table : ∀ q, q ∈ T → b.phys.low ≤ q ∧ q < PHYSTOP / PGSIZE ∧ q ∉ b.phys.free ∧ q ∉ b.others)
    (cut : Cut b.phys s root T M []) : BuildInv { b with phys := s } := by
  have free : s.free = b.phys.free := cut.free
  refine ⟨⟨?_, ?_⟩, inv.nodup, ?_, ?_, ?_⟩
  · rw [free]
    exact inv.pool.nodup
  · intro p member
    rw [cut.low]
    exact inv.pool.range p (free ▸ member)
  · intro p member
    rw [cut.low]
    exact inv.range p member
  · intro p member inFree
    exact inv.apart p member (free ▸ inFree)
  · intro root' same
    obtain rfl : root' = root := Option.some.inj (same.symm.trans isRoot)
    refine ⟨T, M, cut.pt, ?_⟩
    intro q member
    rw [cut.low, free]
    exact table q member

theorem BuildInv.create (inv : BuildInv b) (run : uvmcreate b.phys = .ok (r, s)) :
    BuildInv { b with phys := s, root := r } := by
  rcases wp_ok (uvmcreate_spec (E := fun _ => True)) run with
    ⟨rfl, -, free, low⟩ | ⟨p, rfl, free, pt, -, low⟩
  · refine ⟨⟨by rw [free]; exact inv.pool.nodup, ?_⟩, inv.nodup, ?_, ?_, ?_⟩
    · intro q member
      rw [low]
      exact inv.pool.range q (free ▸ member)
    · intro q member
      rw [low]
      exact inv.range q member
    · intro q member inFree
      exact inv.apart q member (free ▸ inFree)
    · intro root no
      cases no
  · have nodup := inv.pool.nodup
    rw [free] at nodup
    obtain ⟨fresh, nodup⟩ := List.nodup_cons.mp nodup
    have first : p ∈ b.phys.free := by
      rw [free]
      exact List.mem_cons_self ..
    refine ⟨⟨nodup, ?_⟩, inv.nodup, ?_, ?_, ?_⟩
    · intro q member
      rw [low]
      exact inv.pool.range q (by rw [free]; exact List.mem_cons_of_mem _ member)
    · intro q member
      rw [low]
      exact inv.range q member
    · intro q member inFree
      exact inv.apart q member (by rw [free]; exact List.mem_cons_of_mem _ inFree)
    · intro root same
      obtain rfl := Option.some.inj same
      refine ⟨{p}, _, pt, ?_⟩
      intro q member
      rw [Finset.mem_singleton] at member
      subst member
      have range := inv.pool.range q first
      rw [low]
      exact ⟨range.1, range.2, fresh, fun other => inv.apart q other first⟩

theorem BuildInv.step (inv : BuildInv b) {e : BuildEvent} (run : b.step e = some b') :
    BuildInv b' := by
  cases e with
  | uvmcreate =>
      simp only [Build.step] at run
      split at run
      · obtain ⟨r, s, done, rfl⟩ := after_some run
        exact inv.create done
      · cases run
  | walk va =>
      obtain ⟨root, isRoot, run⟩ := Option.bind_eq_some_iff.mp run
      obtain ⟨r, s, done, rfl⟩ := after_some run
      obtain ⟨T, M, pt, table⟩ := inv.table root isRoot
      by_cases small : va < MAXVA
      · obtain ⟨T', grown, -⟩ := wp_ok (walk_spec (E := fun _ => True) small pt inv.pool
          fun p member inside => (table p inside).2.2.1 member) done
        exact inv.grown isRoot table grown
      · rw [Vm.walk, if_pos (by omega)] at done
        cases done
  | mappages va pa perm =>
      obtain ⟨root, isRoot, run⟩ := Option.bind_eq_some_iff.mp run
      split at run
      · rename_i fine
        obtain ⟨r, s, done, rfl⟩ := after_some run
        obtain ⟨T, M, pt, table⟩ := inv.table root isRoot
        obtain ⟨T', M', grown⟩ := wp_ok (mappages_returns pt inv.pool
          (fun p member inside => (table p inside).2.2.1 member) fine.2.1 fine.2.2) done
        exact inv.grown isRoot table grown
      · cases run
  | uvmunmap va npages doFree =>
      obtain ⟨root, isRoot, run⟩ := Option.bind_eq_some_iff.mp run
      simp only at run
      split at run
      · rename_i fine
        obtain ⟨r, s, done, rfl⟩ := after_some run
        obtain ⟨T, M, pt, table⟩ := inv.table root isRoot
        by_cases aligned : va % PGSIZE = 0
        · rw [Vm.uvmunmap, if_neg (by omega)] at done
          generalize turns : (wrap64 (va + npages * PGSIZE) - va) / PGSIZE = n at done fine ⊢
          rcases unmapLoop_top n va b.phys s r aligned done with none | top
          · subst none
            cases done
            cases doFree with
            | false => exact inv
            | true => simpa [mappedPages] using inv
          · have cut := wp_ok (unmapLoop_spec (E := fun _ => True) n va b.phys _ aligned top pt.own
              (by
                intro yes q member
                have other := (fine yes).2 q member
                exact ⟨(inv.range q other).1, (inv.range q other).2,
                  fun inside => (table q inside).2.2.2 other⟩)) done
            cases doFree with
            | false => exact inv.kept isRoot table cut
            | true => exact inv.cut isRoot table (fine rfl).1 (fine rfl).2 cut
        · rw [Vm.uvmunmap, if_pos aligned] at done
          cases done
      · cases run
  | take =>
      simp only [Build.step] at run
      split at run
      · cases run
      · rename_i p rest list
        obtain rfl := Option.some.inj run
        have nodup := inv.pool.nodup
        rw [list] at nodup
        obtain ⟨fresh, nodup⟩ := List.nodup_cons.mp nodup
        have first : p ∈ b.phys.free := by
          rw [list]
          exact List.mem_cons_self ..
        have later : ∀ q, q ∈ rest → q ∈ b.phys.free := by
          intro q member
          rw [list]
          exact List.mem_cons_of_mem _ member
        refine ⟨⟨nodup, fun q member => inv.pool.range q (later q member)⟩, ?_, ?_, ?_, ?_⟩
        · exact List.nodup_cons.mpr ⟨fun other => inv.apart p other first, inv.nodup⟩
        · intro q member
          rcases List.mem_cons.mp member with rfl | old
          · exact inv.pool.range q first
          · exact inv.range q old
        · intro q member inFree
          rcases List.mem_cons.mp member with rfl | old
          · exact fresh inFree
          · exact inv.apart q old (later q inFree)
        · intro root isRoot
          obtain ⟨T, M, pt, table⟩ := inv.table root isRoot
          refine ⟨T, M, pt, ?_⟩
          intro q member
          obtain ⟨above, below, notFree, notOther⟩ := table q member
          refine ⟨above, below, fun inFree => notFree (later q inFree), ?_⟩
          rw [List.mem_cons, not_or]
          exact ⟨fun same => notFree (same ▸ first), notOther⟩
  | give p =>
      simp only [Build.step] at run
      split at run
      · rename_i own
        obtain rfl := Option.some.inj run
        have range := inv.range p own
        refine ⟨⟨List.nodup_cons.mpr ⟨inv.apart p own, inv.pool.nodup⟩, ?_⟩, inv.nodup.erase p,
          fun q member => inv.range q (List.mem_of_mem_erase member), ?_, ?_⟩
        · intro q member
          rcases List.mem_cons.mp member with rfl | old
          · exact range
          · exact inv.pool.range q old
        · intro q member inFree
          rcases List.mem_cons.mp inFree with rfl | old
          · exact inv.nodup.not_mem_erase member
          · exact inv.apart q (List.mem_of_mem_erase member) old
        · intro root isRoot
          obtain ⟨T, M, pt, table⟩ := inv.table root isRoot
          refine ⟨T, M, pt, ?_⟩
          intro q member
          obtain ⟨above, below, notFree, notOther⟩ := table q member
          refine ⟨above, below, ?_, fun other => notOther (List.mem_of_mem_erase other)⟩
          rw [List.mem_cons, not_or]
          exact ⟨fun same => notOther (same ▸ own), notFree⟩
      · cases run
  | write p bytes =>
      simp only [Build.step] at run
      split at run
      · rename_i own
        obtain rfl := Option.some.inj run
        refine ⟨⟨inv.pool.nodup, inv.pool.range⟩, inv.nodup, inv.range, inv.apart, ?_⟩
        intro root isRoot
        obtain ⟨T, M, pt, table⟩ := inv.table root isRoot
        refine ⟨T, M, pt.congr ?_, table⟩
        intro q member
        refine upd_of_ne ?_ _ _
        rintro rfl
        exact (table q member).2.2.2 own
      · cases run
  | refuse calls =>
      obtain rfl := Option.some.inj run
      exact ⟨⟨inv.pool.nodup, inv.pool.range⟩, inv.nodup, inv.range, inv.apart, inv.table⟩

theorem BuildInv.law (inv : BuildInv b) (isRoot : b.root = some root) : MapLaw b.phys root := by
  obtain ⟨T, M, pt, table⟩ := inv.table root isRoot
  exact pt.law inv.pool (fun p member inside => (table p inside).2.2.1 member)
    fun q member => ⟨(table q member).1, (table q member).2.1⟩

/-- In every state of every run that builds a table, the operations are those of a finite
map. -/
theorem page_table_is_map (r : Run Build.step) (pool : Pool (r.state 0).phys)
    (start : (r.state 0).others = [] ∧ (r.state 0).root = none) :
    (∀ i, i ≤ r.len → ∀ root, (r.state i).root = some root → MapLaw (r.state i).phys root) ∧
    ∀ pa perm, pa % PGSIZE = 0 → pa < 2 ^ 56 → perm < 2 ^ 10 →
      PTE2PA (PA2PTE pa ||| perm ||| PTE_V) = pa ∧
        PTE_FLAGS (PA2PTE pa ||| perm ||| PTE_V) = perm ||| PTE_V := by
  have first : BuildInv (r.state 0) := by
    refine ⟨pool, ?_, ?_, ?_, ?_⟩
    · rw [start.1]
      exact List.nodup_nil
    · intro p member
      rw [start.1] at member
      cases member
    · intro p member
      rw [start.1] at member
      cases member
    · intro root isRoot
      rw [start.2] at isRoot
      cases isRoot
  have invariant := r.invariant BuildInv first fun _ _ _ run inv => inv.step run
  exact ⟨fun i within root isRoot => (invariant i within).law isRoot,
    fun pa perm aligned small flags => leaf_fields aligned small flags⟩

def eightPages : Build where
  phys := ⟨fun _ _ => 0, (List.range 8).map (0x80100 + ·), [], 0x80100⟩
  others := []
  root := none

/-- A page is mapped in two steps, as the allocator fails once half way down, and a page that
others have taken is mapped and freed. -/
def mapTwice : List BuildEvent :=
  [.uvmcreate, .refuse [false, true], .mappages 0x1000 0x80200000 0x16,
    .mappages 0x1000 0x80200000 0x16,
    .take, .mappages (TRAPFRAME - PGSIZE) 0x80104000 0x6, .uvmunmap (TRAPFRAME - PGSIZE) 1 false,
    .mappages 0x2000 0x80104000 0x16, .uvmunmap 0 2 false]

theorem mapTwice_is_map : ∃ r : Run Build.step, (r.state 0).phys.free.length = 8 ∧
    r.len = mapTwice.length ∧
    (∀ i, i ≤ r.len → ∀ root, (r.state i).root = some root → MapLaw (r.state i).phys root) ∧
    ∀ pa perm, pa % PGSIZE = 0 → pa < 2 ^ 56 → perm < 2 ^ 10 →
      PTE2PA (PA2PTE pa ||| perm ||| PTE_V) = pa ∧
        PTE_FLAGS (PA2PTE pa ||| perm ||| PTE_V) = perm ||| PTE_V := by
  have runs : (exec Build.step eightPages mapTwice).isSome := by decide +kernel
  have start := Run.ofEvents_zero Build.step eightPages mapTwice .take runs
  have pool : Pool eightPages.phys := ⟨by decide, by decide⟩
  refine ⟨Run.ofEvents Build.step eightPages mapTwice .take runs, ?_, rfl, page_table_is_map _ ?_ ?_⟩
  · rw [start]
    rfl
  · rw [start]
    exact pool
  · rw [start]
    exact ⟨rfl, rfl⟩

end Runs

end Xv6Fcfs.Vm
