import Mathlib.Data.List.Nodup
import Mathlib.Tactic.Common

/-!
# What finitely many carry

Of all keys only finitely many carry a value; a roster lists them, in no particular order.
-/

set_option autoImplicit false

namespace Xv6Fcfs.Lib

section Rosters
variable {ι α : Type}

structure Roster (carries : ι → Option α) (l : List (ι × α)) : Prop where
  nodup : (l.map Prod.fst).Nodup
  mem : ∀ i a, (i, a) ∈ l ↔ carries i = some a

namespace Roster

variable {carries carries' : ι → Option α} {l : List (ι × α)} {i : ι} {a : α}

theorem nil (none : ∀ i, carries i = none) : Roster carries [] where
  nodup := List.nodup_nil
  mem i a := by simp [none i]

theorem congr (roster : Roster carries l) (same : ∀ i, carries' i = carries i) : Roster carries' l where
  nodup := roster.nodup
  mem i a := by rw [same i]; exact roster.mem i a

theorem add (roster : Roster carries l) (absent : carries i = none) (here : carries' i = some a)
    (others : ∀ j, j ≠ i → carries' j = carries j) : Roster carries' ((i, a) :: l) where
  nodup := by
    rw [List.map_cons, List.nodup_cons]
    refine ⟨?_, roster.nodup⟩
    intro inside
    obtain ⟨⟨j, b⟩, listed, rfl⟩ := List.mem_map.mp inside
    have found := (roster.mem j b).mp listed
    rw [absent] at found
    cases found
  mem j b := by
    rw [List.mem_cons]
    by_cases same : j = i
    · subst same
      rw [roster.mem, absent, here]
      simp [eq_comm]
    · rw [others j same, roster.mem]
      simp [same]

theorem remove (roster : Roster carries l) (present : carries i = some a) (gone : carries' i = none)
    (others : ∀ j, j ≠ i → carries' j = carries j) : ∃ rest, l.Perm ((i, a) :: rest) ∧
    Roster carries' rest := by
  obtain ⟨front, back, rfl⟩ := List.append_of_mem ((roster.mem i a).mpr present)
  have shuffle : (front ++ (i, a) :: back).Perm ((i, a) :: (front ++ back)) := List.perm_middle
  have keys := (shuffle.map Prod.fst).nodup_iff.mp roster.nodup
  rw [List.map_cons, List.nodup_cons] at keys
  refine ⟨front ++ back, shuffle, keys.2, ?_⟩
  intro j b
  have listed := roster.mem j b
  rw [shuffle.mem_iff, List.mem_cons] at listed
  by_cases same : j = i
  · subst same
    rw [gone]
    simp only [reduceCtorEq, iff_false]
    exact fun inside => keys.1 (List.mem_map.mpr ⟨_, inside, rfl⟩)
  · rw [others j same, ← listed]
    simp [same]

end Roster

end Rosters

end Xv6Fcfs.Lib
