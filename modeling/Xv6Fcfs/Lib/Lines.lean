import Mathlib.Data.List.Basic
import Mathlib.Tactic.Common

/-!
# Terminated lines

A text of lines, each with a terminator behind it, and its prefixes: one without a terminator
is the beginning of the first line, every other one has the first line whole.
-/

set_option autoImplicit false

namespace Xv6Fcfs.Lib

variable {α : Type}

/-- The text of lines that `t` terminates. -/
def lined (t : α) (ls : List (List α)) : List α := (ls.map (· ++ [t])).flatten

@[simp] theorem lined_nil (t : α) : lined t ([] : List (List α)) = [] := rfl

@[simp] theorem lined_cons (t : α) (l : List α) (ls : List (List α)) :
    lined t (l :: ls) = l ++ t :: lined t ls := by
  simp [lined]

variable {t : α} {ls : List (List α)} {d rest : List α}

theorem lined_whole (plain : ∀ l, l ∈ ls → t ∉ l) (split : lined t ls = d ++ rest) (ends : t ∈ d) :
    ∃ l more d', ls = l :: more ∧ d = l ++ t :: d' ∧ lined t more = d' ++ rest := by
  cases ls with
  | nil =>
      rw [lined_nil] at split
      rw [(List.append_eq_nil_iff.mp split.symm).1] at ends
      exact absurd ends List.not_mem_nil
  | cons l more =>
      rw [lined_cons] at split
      rcases List.append_eq_append_iff.mp split.symm with ⟨gap, line, -⟩ | ⟨gap, front, back⟩
      · exact absurd (line ▸ List.mem_append_left gap ends) (plain l List.mem_cons_self)
      · cases gap with
        | nil =>
            rw [List.append_nil] at front
            exact absurd (front ▸ ends) (plain l List.mem_cons_self)
        | cons u d' =>
            rw [List.cons_append, List.cons.injEq] at back
            obtain ⟨rfl, after⟩ := back
            exact ⟨l, more, d', rfl, front, after⟩

theorem lined_part (split : lined t ls = d ++ rest) (part : t ∉ d) :
    d = [] ∨ ∃ l, l ∈ ls ∧ d.length ≤ l.length := by
  cases ls with
  | nil =>
      rw [lined_nil] at split
      exact Or.inl (List.append_eq_nil_iff.mp split.symm).1
  | cons l more =>
      refine Or.inr ⟨l, List.mem_cons_self, ?_⟩
      rw [lined_cons] at split
      rcases List.append_eq_append_iff.mp split.symm with ⟨gap, line, -⟩ | ⟨gap, front, back⟩
      · rw [line, List.length_append]
        exact Nat.le_add_right _ _
      · cases gap with
        | nil =>
            simp only [front, List.append_nil, Nat.le_refl]
        | cons u d' =>
            rw [List.cons_append, List.cons.injEq] at back
            obtain ⟨rfl, -⟩ := back
            exact absurd (front ▸ List.mem_append_right l List.mem_cons_self) part

theorem lined_mem {x : α} (split : lined t ls = d ++ rest) (inside : x ∈ d) :
    x = t ∨ ∃ l, l ∈ ls ∧ x ∈ l := by
  have listed : x ∈ lined t ls := split ▸ List.mem_append_left rest inside
  obtain ⟨part, mem, here⟩ := List.mem_flatten.mp listed
  obtain ⟨l, mem', rfl⟩ := List.mem_map.mp mem
  rcases List.mem_append.mp here with line | last
  · exact Or.inr ⟨l, mem', line⟩
  · exact Or.inl (List.mem_singleton.mp last)

/-- What follows a prefix without the terminator is not empty, unless there is no line. -/
theorem lined_ends (split : lined t ls = d ++ rest) (part : t ∉ d) (done : rest = []) :
    ls = [] ∧ d = [] := by
  rw [done, List.append_nil] at split
  cases ls with
  | nil => exact ⟨rfl, split.symm⟩
  | cons l more =>
      rw [lined_cons] at split
      exact absurd (split ▸ List.mem_append_right l List.mem_cons_self) part

end Xv6Fcfs.Lib
