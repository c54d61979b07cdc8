import Xv6Fcfs.Vm.Table

/-!
# `freewalk` and `uvmfree`

`freewalk` writes to a table while it frees the tables below it, and `kfree` overwrites
each of them; as no table is shared, the entries still to be read are the ones that were
there at the start.
-/

set_option autoImplicit false

namespace Xv6Fcfs.Vm

open Xv6Fcfs.Lib

/-- A tree of `n` levels below `t` whose last level is empty. -/
structure Bare (s : Phys) (t n : Nat) : Prop where
  sep : Separate (kid s.mem) t n
  range : ∀ q, Within (kid s.mem) t n q → s.low ≤ q ∧ q < PHYSTOP / PGSIZE
  plain : ∀ u q i, u.length < n → follow (kid s.mem) t u = some q → kid s.mem q i ≠ none →
    loadPte s.mem q i &&& (PTE_R ||| PTE_W ||| PTE_X) = 0
  empty : ∀ u q i, u.length = n → follow (kid s.mem) t u = some q → kid s.mem q i = none

/-- The pages `freed` are back on the free list; nothing else has changed. -/
structure Freed (s s' : Phys) (freed : List Nat) : Prop where
  nodup : freed.Nodup
  free : s'.free = freed ++ s.free
  frame : ∀ p, p ∉ freed → s'.mem p = s.mem p
  low : s'.low = s.low

section Freewalk
variable {s s' : Phys} {t c n m : Nat} {i : Fin 512} {E : Panic → Prop}

theorem Bare.child (bare : Bare s t (n + 1)) (hit : kid s.mem t i = some c) : Bare s c n := by
  have down : ∀ u, follow (kid s.mem) t (i :: u) = follow (kid s.mem) c u := by
    intro u
    rw [follow_cons, hit]
    rfl
  refine ⟨bare.sep.child hit, fun q within => bare.range q (Within.child hit within), ?_, ?_⟩
  · intro u q j short leads
    exact bare.plain (i :: u) q j (by simpa using short) ((down u).trans leads)
  · intro u q j length leads
    exact bare.empty (i :: u) q j (by simpa using length) ((down u).trans leads)

theorem tree_congr (same : ∀ q, Within (kid s.mem) t n q → s'.mem q = s.mem q)
    {u : List (Fin 512)} (short : u.length ≤ n) :
    follow (kid s'.mem) t u = follow (kid s.mem) t u := by
  refine Lib.follow_congr u t n short ?_
  rintro q ⟨v, less, leads⟩ j
  exact kid_congr (same q ⟨v, Nat.le_of_lt less, leads⟩) j

theorem within_congr (same : ∀ q, Within (kid s.mem) t n q → s'.mem q = s.mem q)
    (q : Nat) : Within (kid s'.mem) t n q ↔ Within (kid s.mem) t n q := by
  constructor
  · rintro ⟨u, short, leads⟩
    exact ⟨u, short, (tree_congr same short).symm.trans leads⟩
  · rintro ⟨u, short, leads⟩
    exact ⟨u, short, (tree_congr same short).trans leads⟩

theorem Bare.congr (bare : Bare s t n) (same : ∀ q, Within (kid s.mem) t n q → s'.mem q = s.mem q)
    (low : s'.low = s.low) : Bare s' t n := by
  refine ⟨?_, ?_, ?_, ?_⟩
  · intro u v q shortU shortV leadsU leadsV
    rw [tree_congr same shortU] at leadsU
    rw [tree_congr same shortV] at leadsV
    exact bare.sep u v q shortU shortV leadsU leadsV
  · intro q within
    rw [low]
    exact bare.range q ((within_congr same q).mp within)
  · intro u q i short leads some
    rw [tree_congr same (Nat.le_of_lt short)] at leads
    have page := same q ⟨u, Nat.le_of_lt short, leads⟩
    rw [kid_congr page] at some
    rw [loadPte_congr page]
    exact bare.plain u q i short leads some
  · intro u q i length leads
    rw [tree_congr same (Nat.le_of_eq length)] at leads
    rw [kid_congr (same q ⟨u, Nat.le_of_eq length, leads⟩)]
    exact bare.empty u q i length leads

theorem kid_eq_some (hit : kid s.mem t i = some c) :
    loadPte s.mem t i &&& PTE_V ≠ 0 ∧ PTE2PA (loadPte s.mem t i) / PGSIZE = c := by
  unfold kid at hit
  split at hit
  · rename_i valid
    exact ⟨valid, Option.some.inj hit⟩
  · cases hit

theorem kid_eq_none (miss : kid s.mem t i = none) : loadPte s.mem t i &&& PTE_V = 0 := by
  unfold kid at miss
  split at miss
  · cases miss
  · rename_i invalid
    simpa using invalid

/-- The pages in the trees below the first `k` entries of `t`. -/
def Below (s : Phys) (t m k : Nat) (q : Nat) : Prop :=
  ∃ (j : Fin 512) (c : Nat), j.val < k ∧ kid s.mem t j = some c ∧ Within (kid s.mem) c m q

/-- After `k` turns of the loop of `freewalk`. -/
structure Walked (s s' : Phys) (t m k : Nat) (freed : List Nat) : Prop where
  nodup : freed.Nodup
  exactly : ∀ q, q ∈ freed ↔ Below s t m k q
  free : s'.free = freed ++ s.free
  frame : ∀ p, p ∉ freed → p ≠ t → s'.mem p = s.mem p
  rest : ∀ j : Fin 512, k ≤ j.val → loadPte s'.mem t j = loadPte s.mem t j
  low : s'.low = s.low

theorem Bare.not_below_root (bare : Bare s t (m + 1)) (k : Nat) : ¬ Below s t m k t := by
  rintro ⟨j, c, -, hit, within⟩
  exact bare.sep.not_root hit within

theorem Walked.skip {k : Nat} {freed : List Nat} (walked : Walked s s' t m k freed)
    (index : i.val = k) (miss : kid s.mem t i = none) : Walked s s' t m (k + 1) freed := by
  refine ⟨walked.nodup, ?_, walked.free, walked.frame, ?_, walked.low⟩
  · intro q
    rw [walked.exactly]
    constructor
    · rintro ⟨j, c, less, hit, within⟩
      exact ⟨j, c, by omega, hit, within⟩
    · rintro ⟨j, c, less, hit, within⟩
      refine ⟨j, c, ?_, hit, within⟩
      have differ : j.val ≠ k := by
        intro same
        obtain rfl : j = i := Fin.ext (by omega)
        rw [miss] at hit
        cases hit
      omega
  · intro j above
    exact walked.rest j (by omega)

theorem Walked.next {k : Nat} {freed freed' : List Nat} {s1 : Phys} (bare : Bare s t (m + 1))
    (walked : Walked s s' t m k freed) (index : i.val = k) (hit : kid s.mem t i = some c)
    (done : Freed s' s1 freed') (exactly : ∀ q, q ∈ freed' ↔ Within (kid s.mem) c m q) :
    Walked s { s1 with mem := upd s1.mem t (putLE (s1.mem t) (8 * i.val) 8 0) } t m (k + 1)
      (freed' ++ freed) := by
  have notRoot : t ∉ freed' := fun member => bare.sep.not_root hit ((exactly t).mp member)
  refine ⟨?_, ?_, ?_, ?_, ?_, done.low.trans walked.low⟩
  · rw [List.nodup_append]
    refine ⟨done.nodup, walked.nodup, ?_⟩
    rintro q inNew r inOld rfl
    obtain ⟨j, d, less, hitJ, within⟩ := (walked.exactly q).mp inOld
    have differ : i ≠ j := by
      rintro rfl
      omega
    exact bare.sep.disjoint hit hitJ differ ((exactly q).mp inNew) within
  · intro q
    rw [List.mem_append, exactly, walked.exactly]
    constructor
    · rintro (within | ⟨j, d, less, hitJ, within⟩)
      · exact ⟨i, c, by omega, hit, within⟩
      · exact ⟨j, d, by omega, hitJ, within⟩
    · rintro ⟨j, d, less, hitJ, within⟩
      by_cases here : j = i
      · subst here
        rw [hit] at hitJ
        obtain rfl := Option.some.inj hitJ
        exact Or.inl within
      · have differ : j.val ≠ i.val := fun same => here (Fin.ext same)
        exact Or.inr ⟨j, d, by omega, hitJ, within⟩
  · simp only [done.free, walked.free, List.append_assoc]
  · intro p notFreed notTable
    rw [List.mem_append, not_or] at notFreed
    exact ((upd_of_ne notTable _ _).trans (done.frame p notFreed.1)).trans
      (walked.frame p notFreed.2 notTable)
  · intro j above
    have differ : j ≠ i := by
      rintro rfl
      omega
    rw [loadPte_put 0 (by decide), if_neg differ, loadPte_congr (done.frame t notRoot)]
    exact walked.rest j (by omega)

theorem Walked.finish {freed : List Nat} (bare : Bare s t (m + 1))
    (walked : Walked s s' t m 512 freed) :
    Freed s { s' with mem := upd s'.mem t fun _ => 1, free := t :: s'.free } (t :: freed) ∧
      ∀ q, q ∈ t :: freed ↔ Within (kid s.mem) t (m + 1) q := by
  have below : ∀ q, Below s t m 512 q ↔ ∃ j d, kid s.mem t j = some d ∧ Within (kid s.mem) d m q := by
    intro q
    exact ⟨fun ⟨j, d, _, hit, within⟩ => ⟨j, d, hit, within⟩,
      fun ⟨j, d, hit, within⟩ => ⟨j, d, j.isLt, hit, within⟩⟩
  refine ⟨⟨?_, ?_, ?_, walked.low⟩, ?_⟩
  · refine List.nodup_cons.mpr ⟨?_, walked.nodup⟩
    intro member
    exact bare.not_below_root 512 ((walked.exactly t).mp member)
  · simp only [walked.free, List.cons_append]
  · intro p notFreed
    rw [List.mem_cons, not_or] at notFreed
    exact (upd_of_ne notFreed.1 _ _).trans (walked.frame p notFreed.2 notFreed.1)
  · intro q
    rw [List.mem_cons, walked.exactly, below]
    constructor
    · rintro (rfl | ⟨j, d, hit, within⟩)
      · exact Within.root _
      · exact Within.child hit within
    · exact Within.cases

theorem freewalk_spec : ∀ (n t : Nat) (s : Phys), Bare s t n →
    wp (freewalk (n + 1) t) E (fun _ s' => ∃ freed, Freed s s' freed ∧
      ∀ q, q ∈ freed ↔ Within (kid s.mem) t n q) s := by
  intro n
  induction n with
  | zero =>
      intro t s bare
      have range := bare.range t (Within.root 0)
      rw [freewalk]
      refine wp_seq (wp_forFrom (fun _ s' => s' = s) 512 0 s ?_ rfl) ?_
      · rintro i s' - - rfl
        have miss := kid_eq_none (bare.empty [] t (Fin.ofNat 512 i) rfl rfl)
        simp only [wp_bind, wp_readPte, miss, ne_eq, not_true_eq_false, false_and, if_false, wp_pure]
      · rintro _ s' rfl
        have page : t * PGSIZE / PGSIZE = t := Nat.mul_div_cancel t (by decide)
        rw [wp_kfree (Nat.mul_mod_left t PGSIZE) (by rw [page]; exact range.1)
          (by rw [page]; exact range.2), page]
        refine ⟨[t], ⟨by simp, rfl, ?_, rfl⟩, ?_⟩
        · intro p notFreed
          exact upd_of_ne (by simpa using notFreed) _ _
        · intro q
          rw [List.mem_singleton]
          constructor
          · rintro rfl
            exact Within.root 0
          · exact Within.zero
  | succ m ih =>
      intro t s bare
      have range := bare.range t (Within.root _)
      rw [freewalk]
      refine wp_seq (wp_forFrom (fun k s' => ∃ freed, Walked s s' t m k freed) 512 0 s ?_ ?_) ?_
      · rintro k s' - below ⟨freed, walked⟩
        have index : (Fin.ofNat 512 k).val = k := Nat.mod_eq_of_lt (by omega)
        have entry : loadPte s'.mem t (Fin.ofNat 512 k) = loadPte s.mem t (Fin.ofNat 512 k) :=
          walked.rest _ (by omega)
        rw [wp_bind, wp_readPte, entry]
        cases hit : kid s.mem t (Fin.ofNat 512 k) with
        | none =>
            have invalid := kid_eq_none hit
            simp only [invalid, ne_eq, not_true_eq_false, false_and, if_false, wp_pure]
            exact ⟨freed, walked.skip index hit⟩
        | some c =>
            obtain ⟨valid, target⟩ := kid_eq_some hit
            have plain := bare.plain [] t (Fin.ofNat 512 k) (Nat.succ_pos m) rfl (by rw [hit]; simp)
            rw [if_pos ⟨valid, plain⟩, target]
            have sub := bare.child hit
            have same : ∀ q, Within (kid s.mem) c m q → s'.mem q = s.mem q := by
              intro q within
              refine walked.frame q ?_ ?_
              · intro member
                obtain ⟨j, d, less, hitJ, within'⟩ := (walked.exactly q).mp member
                have differ : Fin.ofNat 512 k ≠ j := by
                  rintro rfl
                  omega
                exact bare.sep.disjoint hit hitJ differ within within'
              · rintro rfl
                exact bare.sep.not_root hit within
            refine wp_seq (ih c s' (sub.congr same walked.low)) ?_
            rintro _ s1 ⟨freed', done, exactly⟩
            refine ⟨freed' ++ freed, walked.next bare index hit done ?_⟩
            intro q
            rw [exactly, within_congr same]
      · refine ⟨[], List.nodup_nil, ?_, rfl, fun _ _ _ => rfl, fun _ _ => rfl, rfl⟩
        intro q
        constructor
        · intro no
          cases no
        · rintro ⟨j, d, less, -⟩
          omega
      · rintro _ s' ⟨freed, walked⟩
        have page : t * PGSIZE / PGSIZE = t := Nat.mul_div_cancel t (by decide)
        rw [wp_kfree (Nat.mul_mod_left t PGSIZE) (by rw [page, walked.low]; exact range.1)
          (by rw [page]; exact range.2), page]
        exact ⟨t :: freed, walked.finish bare⟩

end Freewalk

/-! ## The whole table -/

section Uvmfree
variable {s s' : Phys} {root sz : Nat} {T : Finset Nat} {M : Nat → Option Nat} {E : Panic → Prop}

def addrOf (i2 i1 i0 : Fin 512) : Nat := (i2.val * 2 ^ 18 + i1.val * 2 ^ 9 + i0.val) * PGSIZE

theorem addrOf_spec (i2 i1 i0 : Fin 512) (low : i2.val < 256) :
    addrOf i2 i1 i0 % PGSIZE = 0 ∧ addrOf i2 i1 i0 < MAXVA ∧ path (addrOf i2 i1 i0) = [i2, i1] ∧
      PX 0 (addrOf i2 i1 i0) = i0 := by
  have two := i2.isLt
  have one := i1.isLt
  have zero := i0.isLt
  refine ⟨Nat.mul_mod_left _ PGSIZE, ?_, ?_, ?_⟩
  · simp only [addrOf, PGSIZE, MAXVA]
    omega
  · have indices : PX 2 (addrOf i2 i1 i0) = i2 ∧ PX 1 (addrOf i2 i1 i0) = i1 := by
      constructor <;> apply Fin.ext <;> rw [PX_val] <;> simp only [addrOf, PGSIZE] <;> omega
    rw [path, indices.1, indices.2]
  · apply Fin.ext
    rw [PX_val]
    simp only [addrOf, PGSIZE]
    omega

theorem Pt.bare (pt : Pt s.mem root T M) (none : ∀ va, va % PGSIZE = 0 → va < MAXVA → M va = none)
    (range : ∀ q, q ∈ T → s.low ≤ q ∧ q < PHYSTOP / PGSIZE) : Bare s root 2 := by
  refine ⟨pt.sep, fun q within => range q ((pt.tables q).mpr within), pt.plain, ?_⟩
  intro u q i length leads
  obtain ⟨i2, i1, rfl⟩ := List.length_eq_two.mp length
  have low : i2.val < 256 := by
    by_contra high
    have no := pt.half i2 (by omega)
    rw [follow_cons, no] at leads
    cases leads
  obtain ⟨aligned, small, indices, last⟩ := addrOf_spec i2 i1 i low
  have unmapped := none _ aligned small
  rw [pt.leaf_eq aligned small (by rw [indices]; exact leads), last] at unmapped
  unfold kid
  split
  · rename_i valid
    rw [if_pos valid] at unmapped
    cases unmapped
  · rfl

/-- `freewalk` of a table that maps nothing frees each of its pages once. -/
theorem freewalk_pt (pt : Pt s.mem root T M)
    (none : ∀ va, va % PGSIZE = 0 → va < MAXVA → M va = none)
    (range : ∀ q, q ∈ T → s.low ≤ q ∧ q < PHYSTOP / PGSIZE) :
    wp (freewalk 3 root) E (fun _ s' => ∃ freed, Freed s s' freed ∧ ∀ q, q ∈ freed ↔ q ∈ T) s := by
  refine wp_post (freewalk_spec 2 root s (pt.bare none range)) ?_
  rintro _ s' ⟨freed, done, exactly⟩
  exact ⟨freed, done, fun q => (exactly q).trans (pt.tables q).symm⟩

end Uvmfree

end Xv6Fcfs.Vm
