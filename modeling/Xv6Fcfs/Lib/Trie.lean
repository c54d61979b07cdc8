import Mathlib.Data.List.Basic
import Mathlib.Tactic.Common

/-!
# Trees of a fixed depth in a heap

`kid p i` is the node that entry `i` of node `p` points to.  A node below the root `p` is
named by the list of entries that leads to it.  The nodes up to depth `n` form a tree with
no sharing when different lists lead to different nodes; then a write to one node is seen
along one list only.
-/

set_option autoImplicit false

namespace Xv6Fcfs.Lib

variable {α ι : Type}

def follow (kid : α → ι → Option α) : α → List ι → Option α
  | p, [] => some p
  | p, i :: rest =>
      match kid p i with
      | none => none
      | some q => follow kid q rest

/-- `q` is at most `n` entries below `p`. -/
def Within (kid : α → ι → Option α) (p : α) (n : Nat) (q : α) : Prop :=
  ∃ s : List ι, s.length ≤ n ∧ follow kid p s = some q

/-- No node up to depth `n` is reached twice. -/
def Separate (kid : α → ι → Option α) (p : α) (n : Nat) : Prop :=
  ∀ s t : List ι, ∀ q, s.length ≤ n → t.length ≤ n → follow kid p s = some q →
    follow kid p t = some q → s = t

section Follow
variable {kid kid' : α → ι → Option α} {p q f new : α} {i : ι} {s t : List ι} {n : Nat}

@[simp] theorem follow_nil : follow kid p [] = some p := rfl

theorem follow_cons : follow kid p (i :: t) = (kid p i).bind fun q => follow kid q t := by
  simp only [follow]
  cases kid p i <;> rfl

theorem follow_append : ∀ (s : List ι) (p : α),
    follow kid p (s ++ t) = (follow kid p s).bind fun q => follow kid q t := by
  intro s
  induction s with
  | nil => intro p; rfl
  | cons i rest ih =>
      intro p
      rw [List.cons_append, follow_cons, follow_cons]
      cases kid p i with
      | none => rfl
      | some q => exact ih q

theorem follow_snoc : follow kid p (s ++ [i]) = (follow kid p s).bind fun q => kid q i := by
  rw [follow_append]
  congr 1
  funext q
  rw [follow_cons]
  cases kid q i <;> rfl

theorem Within.root (n : Nat) : Within kid p n p := ⟨[], Nat.zero_le n, rfl⟩

theorem follow_congr : ∀ (s : List ι) (p : α) (n : Nat), s.length ≤ n →
    (∀ q, (∃ t : List ι, t.length < n ∧ follow kid p t = some q) → ∀ i, kid' q i = kid q i) →
    follow kid' p s = follow kid p s := by
  intro s
  induction s with
  | nil => intro p n _ _; rfl
  | cons i rest ih =>
      intro p n short same
      rw [follow_cons, follow_cons, same p ⟨[], by simp at short ⊢; omega, rfl⟩ i]
      cases hit : kid p i with
      | none => rfl
      | some q =>
          refine ih q (n - 1) (by simp at short; omega) ?_
          rintro r ⟨t, less, leads⟩ j
          refine same r ⟨i :: t, by simp; omega, ?_⟩ j
          rw [follow_cons, hit]
          exact leads

theorem Separate.apart (sep : Separate kid p n) (atS : follow kid p s = some q)
    (atT : follow kid p t = some f) (shortS : s.length ≤ n) (shortT : t.length ≤ n)
    (differ : s ≠ t) : q ≠ f := by
  rintro rfl
  exact differ (sep s t q shortS shortT atS atT)

theorem Separate.child (sep : Separate kid p (n + 1)) (hit : kid p i = some q) :
    Separate kid q n := by
  intro s t r shortS shortT leadsS leadsT
  have same := sep (i :: s) (i :: t) r (by simpa using shortS) (by simpa using shortT)
    (by rw [follow_cons, hit]; exact leadsS) (by rw [follow_cons, hit]; exact leadsT)
  exact (List.cons.inj same).2

theorem Within.child (hit : kid p i = some q) (within : Within kid q n f) :
    Within kid p (n + 1) f := by
  obtain ⟨s, short, leads⟩ := within
  exact ⟨i :: s, by simpa using short, by rw [follow_cons, hit]; exact leads⟩

theorem Within.cases (within : Within kid p (n + 1) f) :
    f = p ∨ ∃ i q, kid p i = some q ∧ Within kid q n f := by
  obtain ⟨s, short, leads⟩ := within
  cases s with
  | nil => exact Or.inl (Option.some.inj leads).symm
  | cons i rest =>
      rw [follow_cons] at leads
      cases hit : kid p i with
      | none => simp [hit] at leads
      | some q =>
          rw [hit] at leads
          exact Or.inr ⟨i, q, hit, rest, by simpa using short, leads⟩

theorem Within.zero (within : Within kid p 0 f) : f = p := by
  obtain ⟨s, short, leads⟩ := within
  cases s with
  | nil => exact (Option.some.inj leads).symm
  | cons => simp at short

/-- The trees below two entries have no node in common, and the root is in neither. -/
theorem Separate.disjoint {j : ι} {r : α} (sep : Separate kid p (n + 1)) (hitI : kid p i = some q)
    (hitJ : kid p j = some r) (differ : i ≠ j) (below : Within kid q n f) : ¬ Within kid r n f := by
  rintro ⟨t, shortT, leadsT⟩
  obtain ⟨s, shortS, leadsS⟩ := below
  have same := sep (i :: s) (j :: t) f (by simpa using shortS) (by simpa using shortT)
    (by rw [follow_cons, hitI]; exact leadsS) (by rw [follow_cons, hitJ]; exact leadsT)
  exact differ (List.cons.inj same).1

theorem Separate.not_root (sep : Separate kid p (n + 1)) (hit : kid p i = some q) :
    ¬ Within kid q n p := by
  rintro ⟨s, short, leads⟩
  have same := sep (i :: s) [] p (by simpa using short) (Nat.zero_le _)
    (by rw [follow_cons, hit]; exact leads) rfl
  cases same

end Follow

/-! ## A new node -/

section Graft
variable {kid kid' : α → ι → Option α} {p f new : α} {i : ι} {s : List ι} {n : Nat}

/-- An empty entry of `f` is set to an empty node `new` that was in no tree. -/
structure Graft (kid kid' : α → ι → Option α) (f new : α) (i : ι) : Prop where
  empty : kid f i = none
  put : kid' f i = some new
  blank : ∀ j, kid' new j = none
  entry : ∀ j, j ≠ i → kid' f j = kid f j
  other : ∀ q, q ≠ f → q ≠ new → ∀ j, kid' q j = kid q j

theorem Graft.follow_eq [DecidableEq ι] (graft : Graft kid kid' f new i) :
    ∀ (t : List ι) (p : α) (n : Nat) (s : List ι), follow kid p s = some f → s.length < n →
      t.length ≤ n → Separate kid p n → (∀ q, Within kid p n q → q ≠ new) →
      follow kid' p t = if t = s ++ [i] then some new else follow kid p t := by
  intro t
  induction t with
  | nil =>
      intro p n s _ _ _ _ _
      simp
  | cons j rest ih =>
      intro p n s leads deep short sep fresh
      cases n with
      | zero => simp at short
      | succ n =>
          rw [follow_cons, follow_cons]
          cases s with
          | nil =>
              obtain rfl := Option.some.inj leads
              by_cases here : j = i
              · subst here
                rw [graft.put, graft.empty]
                cases rest with
                | nil => simp
                | cons l rest => simp [follow_cons, graft.blank]
              · have differ : ¬ (j :: rest = [] ++ [i]) := by
                  intro same
                  exact here (by simpa using congrArg List.head? same)
                rw [graft.entry j here, if_neg differ]
                cases hit : kid p j with
                | none => rfl
                | some q =>
                    -- the new entry is in the root, which is not below its own children
                    refine follow_congr rest q n (by simpa using short) ?_
                    rintro r ⟨u, less, below⟩ l
                    have away : r ≠ p := by
                      rintro rfl
                      exact sep.not_root hit ⟨u, Nat.le_of_lt less, below⟩
                    refine graft.other r away ?_ l
                    exact fresh r (Within.child hit ⟨u, Nat.le_of_lt less, below⟩)
          | cons l path =>
              rw [follow_cons] at leads
              cases hitL : kid p l with
              | none => simp [hitL] at leads
              | some q =>
                  rw [hitL] at leads
                  have deep' : path.length < n := by simpa using deep
                  have notRoot : p ≠ f := by
                    rintro rfl
                    exact sep.not_root hitL ⟨path, Nat.le_of_lt deep', leads⟩
                  have same : kid' p j = kid p j := graft.other p notRoot (fresh p (Within.root _)) j
                  rw [same]
                  by_cases here : j = l
                  · subst here
                    rw [hitL]
                    have inner := ih q n path leads deep' (by simpa using short) (sep.child hitL)
                      fun r within => fresh r (Within.child hitL within)
                    simpa using inner
                  · have differ : ¬ (j :: rest = (l :: path) ++ [i]) := by
                      intro eq
                      exact here (List.cons.inj eq).1
                    rw [if_neg differ]
                    cases hit : kid p j with
                    | none => rfl
                    | some r =>
                        refine follow_congr rest r n (by simpa using short) ?_
                        rintro x ⟨u, less, below⟩ m
                        have below' : Within kid r n x := ⟨u, Nat.le_of_lt less, below⟩
                        refine graft.other x ?_ (fresh x (Within.child hit below')) m
                        rintro rfl
                        exact sep.disjoint hit hitL here below' ⟨path, Nat.le_of_lt deep', leads⟩

theorem Graft.separate [DecidableEq ι] (graft : Graft kid kid' f new i)
    (leads : follow kid p s = some f) (deep : s.length < n) (sep : Separate kid p n)
    (fresh : ∀ q, Within kid p n q → q ≠ new) : Separate kid' p n := by
  intro t u q shortT shortU leadsT leadsU
  rw [graft.follow_eq t p n s leads deep shortT sep fresh] at leadsT
  rw [graft.follow_eq u p n s leads deep shortU sep fresh] at leadsU
  split at leadsT
  · rename_i atT
    split at leadsU
    · rename_i atU
      exact atT.trans atU.symm
    · obtain rfl := Option.some.inj leadsT
      exact absurd rfl (fresh new ⟨u, shortU, leadsU⟩)
  · split at leadsU
    · obtain rfl := Option.some.inj leadsU
      exact absurd rfl (fresh new ⟨t, shortT, leadsT⟩)
    · exact sep t u q shortT shortU leadsT leadsU

theorem Graft.within [DecidableEq ι] (graft : Graft kid kid' f new i)
    (leads : follow kid p s = some f) (deep : s.length < n) (sep : Separate kid p n)
    (fresh : ∀ q, Within kid p n q → q ≠ new) (q : α) :
    Within kid' p n q ↔ q = new ∨ Within kid p n q := by
  constructor
  · rintro ⟨t, short, leadsT⟩
    rw [graft.follow_eq t p n s leads deep short sep fresh] at leadsT
    split at leadsT
    · exact Or.inl (Option.some.inj leadsT).symm
    · exact Or.inr ⟨t, short, leadsT⟩
  · rintro (rfl | ⟨t, short, leadsT⟩)
    · refine ⟨s ++ [i], by simp; omega, ?_⟩
      rw [graft.follow_eq _ p n s leads deep (by simp; omega) sep fresh, if_pos rfl]
    · refine ⟨t, short, ?_⟩
      rw [graft.follow_eq t p n s leads deep short sep fresh, if_neg]
      · exact leadsT
      · rintro rfl
        rw [follow_snoc, leads] at leadsT
        simp [graft.empty] at leadsT

end Graft

end Xv6Fcfs.Lib
