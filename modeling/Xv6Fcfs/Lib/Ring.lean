import Mathlib.Data.List.Chain
import Mathlib.Data.List.Nodup
import Xv6Fcfs.Lib.Bytes

/-!
# Cyclic doubly linked lists

The nodes are numbers and the links two functions on them.  `IsRing k head l` says that
following `next` from `head` visits `l` and comes back, and that `prev` undoes every step.
Unlinking a node and pushing one behind the head are the usual sequences of assignments.
-/

set_option autoImplicit false

namespace Xv6Fcfs.Lib

structure Links where
  next : Nat → Nat
  prev : Nat → Nat

namespace Links

/-- `b->next->prev = b->prev; b->prev->next = b->next;` -/
def remove (b : Nat) (k : Links) : Links :=
  let prev := upd k.prev (k.next b) (k.prev b)
  { next := upd k.next (prev b) (k.next b), prev := prev }

/-- `b->next = head.next; b->prev = &head; head.next->prev = b; head.next = b;` -/
def push (head b : Nat) (k : Links) : Links :=
  let next := upd k.next b (k.next head)
  let prev := upd k.prev b head
  { next := upd next head b, prev := upd prev (next head) b }

def flip (k : Links) : Links := { next := k.prev, prev := k.next }

/-- Node `y` follows node `x`. -/
def Follows (k : Links) (x y : Nat) : Prop := k.next x = y ∧ k.prev y = x

end Links

structure IsRing (k : Links) (head : Nat) (l : List Nat) : Prop where
  nodup : (head :: l).Nodup
  chain : List.IsChain k.Follows (head :: (l ++ [head]))

variable {k k' : Links} {head b : Nat} {l l₁ l₂ : List Nat}

theorem follows_congr : ∀ {l : List Nat}, List.IsChain k.Follows l →
    (∀ x, x ∈ l.dropLast → k'.next x = k.next x) → (∀ y, y ∈ l.tail → k'.prev y = k.prev y) →
    List.IsChain k'.Follows l := by
  intro l chain
  induction chain with
  | nil => intros; exact .nil
  | singleton a => intros; exact .singleton a
  | @cons_cons a c rest first _ ih =>
      intro nexts prevs
      refine .cons_cons ⟨?_, ?_⟩ (ih ?_ ?_)
      · rw [nexts a (by simp), first.1]
      · rw [prevs c (by simp), first.2]
      · intro x inside
        exact nexts x (by rw [List.dropLast_cons_cons]; exact List.mem_cons_of_mem a inside)
      · intro y inside
        exact prevs y (List.mem_cons_of_mem c inside)

theorem IsRing.empty (next : k.next head = head) (prev : k.prev head = head) :
    IsRing k head [] where
  nodup := List.nodup_singleton head
  chain := .cons_cons ⟨next, prev⟩ (.singleton head)

theorem IsRing.split (ring : IsRing k head (l₁ ++ b :: l₂)) :
    ∃ front p n back, head :: l₁ = front ++ [p] ∧ l₂ ++ [head] = n :: back ∧
      List.IsChain k.Follows (front ++ [p]) ∧ k.Follows p b ∧ k.Follows b n ∧
      List.IsChain k.Follows (n :: back) := by
  obtain ⟨front, p, ends⟩ : ∃ front p, head :: l₁ = front ++ [p] := by
    rcases List.eq_nil_or_concat (head :: l₁) with nil | ⟨front, p, eq⟩
    · cases nil
    · exact ⟨front, p, by rw [eq, List.concat_eq_append]⟩
  obtain ⟨n, back, starts⟩ : ∃ n back, l₂ ++ [head] = n :: back := by
    cases l₂ with
    | nil => exact ⟨head, [], rfl⟩
    | cons n rest => exact ⟨n, rest ++ [head], rfl⟩
  have chain := ring.chain
  have shape : head :: (l₁ ++ b :: l₂ ++ [head]) = front ++ p :: b :: n :: back := by
    rw [List.append_assoc, List.cons_append, starts, ← List.cons_append, ends]
    simp
  rw [shape, List.isChain_append_cons_cons, List.isChain_cons_cons] at chain
  exact ⟨front, p, n, back, ends, starts, chain.1, chain.2.1, chain.2.2.1, chain.2.2.2⟩

theorem IsRing.remove (ring : IsRing k head (l₁ ++ b :: l₂)) :
    IsRing (k.remove b) head (l₁ ++ l₂) := by
  obtain ⟨front, p, n, back, ends, starts, before, toB, fromB, after⟩ := ring.split
  have nodup := ring.nodup
  have apart : (head :: l₁ ++ b :: l₂).Nodup := nodup
  rw [List.nodup_append] at apart
  obtain ⟨nodupFront, nodupBack, disjoint⟩ := apart
  have pMem : p ∈ head :: l₁ := by rw [ends]; simp
  have nMem : n ∈ l₂ ++ [head] := by rw [starts]; simp
  have bNotLast : b ∉ l₂ := (List.nodup_cons.mp nodupBack).1
  have nb : n ≠ b := by
    rintro rfl
    rcases List.mem_append.mp nMem with inside | last
    · exact bNotLast inside
    · exact disjoint head (by simp) n (by simp) (List.mem_singleton.mp last).symm
  -- the two assignments
  have prevB : (k.remove b).prev = upd k.prev n p := by
    simp only [Links.remove, toB.2, fromB.1]
  have nextB : (k.remove b).next = upd k.next p n := by
    simp only [Links.remove, fromB.1]
    rw [upd_of_ne nb.symm, toB.2]
  have nodupEnd : (n :: back).Nodup := by
    rw [← starts, List.nodup_append]
    refine ⟨(List.nodup_cons.mp nodupBack).2, by simp, ?_⟩
    intro x inside y isHead same
    rw [List.mem_singleton.mp isHead] at same
    exact disjoint head (by simp) x (List.mem_cons_of_mem b inside) same.symm
  refine ⟨?_, ?_⟩
  · rw [← List.cons_append, List.nodup_append]
    refine ⟨nodupFront, (List.nodup_cons.mp nodupBack).2, ?_⟩
    exact fun x inside y inside' => disjoint x inside y (List.mem_cons_of_mem b inside')
  · have shape : head :: (l₁ ++ l₂ ++ [head]) = front ++ p :: n :: back := by
      rw [List.append_assoc, starts, ← List.cons_append, ends]
      simp
    rw [shape, List.isChain_append_cons_cons]
    refine ⟨?_, ⟨?_, ?_⟩, ?_⟩
    · apply follows_congr before
      · intro x inside
        rw [nextB, upd_of_ne]
        rintro rfl
        rw [ends] at nodupFront
        rw [List.dropLast_concat] at inside
        exact (List.nodup_append.mp nodupFront).2.2 x inside x (by simp) rfl
      · intro y inside
        rw [prevB, upd_of_ne]
        rintro rfl
        rw [← ends, List.tail_cons] at inside
        rcases List.mem_append.mp nMem with other | last
        · exact disjoint y (List.mem_cons_of_mem head inside) y (List.mem_cons_of_mem b other) rfl
        · rw [List.mem_singleton.mp last] at inside
          exact (List.nodup_cons.mp nodupFront).1 inside
    · rw [nextB, upd_self]
    · rw [prevB, upd_self]
    · apply follows_congr after
      · intro x inside
        rw [nextB, upd_of_ne]
        rintro rfl
        rw [← starts, List.dropLast_concat] at inside
        exact disjoint x pMem x (List.mem_cons_of_mem b inside) rfl
      · intro y inside
        rw [prevB, upd_of_ne]
        rintro rfl
        exact (List.nodup_cons.mp nodupEnd).1 inside

theorem IsRing.push (ring : IsRing k head l) (fresh : b ∉ head :: l) :
    IsRing (k.push head b) head (b :: l) := by
  have nodup := ring.nodup
  have apart : head ≠ b := fun same => fresh (by simp [same])
  have outside : b ∉ l := fun inside => fresh (List.mem_cons_of_mem head inside)
  obtain ⟨n, back, starts⟩ : ∃ n back, l ++ [head] = n :: back := by
    cases l with
    | nil => exact ⟨head, [], rfl⟩
    | cons n rest => exact ⟨n, rest ++ [head], rfl⟩
  have chain := ring.chain
  rw [starts, List.isChain_cons_cons] at chain
  have nMem : n ∈ l ++ [head] := by rw [starts]; simp
  have nb : n ≠ b := by
    rintro rfl
    rcases List.mem_append.mp nMem with inside | last
    · exact outside inside
    · exact apart (List.mem_singleton.mp last).symm
  have headNext : k.next head = n := chain.1.1
  have nextB : (k.push head b).next = upd (upd k.next b n) head b := by
    simp only [Links.push, headNext]
  have prevB : (k.push head b).prev = upd (upd k.prev b head) n b := by
    simp only [Links.push]
    rw [upd_of_ne apart, headNext]
  refine ⟨?_, ?_⟩
  · rw [List.nodup_cons, List.nodup_cons]
    rw [List.nodup_cons] at nodup
    refine ⟨?_, outside, nodup.2⟩
    rw [List.mem_cons, not_or]
    exact ⟨apart, nodup.1⟩
  · rw [List.cons_append, starts]
    refine .cons_cons ⟨?_, ?_⟩ (.cons_cons ⟨?_, ?_⟩ ?_)
    · rw [nextB, upd_self]
    · rw [prevB, upd_of_ne nb.symm, upd_self]
    · rw [nextB, upd_of_ne apart.symm, upd_self]
    · rw [prevB, upd_self]
    · apply follows_congr chain.2
      · intro x inside
        rw [← starts, List.dropLast_concat] at inside
        rw [nextB, upd_of_ne, upd_of_ne]
        · rintro rfl
          exact outside inside
        · rintro rfl
          exact (List.nodup_cons.mp nodup).1 inside
      · intro y inside
        have nodupEnd : (n :: back).Nodup := by
          rw [← starts, List.nodup_append]
          rw [List.nodup_cons] at nodup
          refine ⟨nodup.2, by simp, ?_⟩
          intro x inside y isHead same
          rw [same, List.mem_singleton.mp isHead] at inside
          exact nodup.1 inside
        have member : y ∈ l ++ [head] := by rw [starts]; exact List.mem_cons_of_mem n inside
        rw [prevB, upd_of_ne, upd_of_ne]
        · rintro rfl
          rcases List.mem_append.mp member with low | last
          · exact outside low
          · exact apart (List.mem_singleton.mp last).symm
        · rintro rfl
          exact (List.nodup_cons.mp nodupEnd).1 inside

theorem IsRing.toFront (ring : IsRing k head (l₁ ++ b :: l₂)) :
    IsRing ((k.remove b).push head b) head (b :: (l₁ ++ l₂)) := by
  apply ring.remove.push
  have nodup := ring.nodup
  rw [← List.cons_append, List.nodup_middle] at nodup
  exact (List.nodup_cons.mp nodup).1

theorem IsRing.flip (ring : IsRing k head l) : IsRing k.flip head l.reverse where
  nodup := by
    rw [List.nodup_cons, List.mem_reverse, List.nodup_reverse]
    exact List.nodup_cons.mp ring.nodup
  chain := by
    have turned : List.IsChain k.flip.Follows (head :: (l ++ [head])).reverse := by
      rw [List.isChain_reverse]
      exact ring.chain.imp fun x y both => ⟨both.2, both.1⟩
    simpa using turned

/-! ## Walking round the ring -/

/-- `for (b = start; b != head; b = next(b)) if (test(b)) return b;` -/
def walk (next : Nat → Nat) (head : Nat) (test : Nat → Bool) : Nat → Nat → Option Nat
  | 0, _ => none
  | fuel + 1, b =>
      if b = head then none else if test b then some b else walk next head test fuel (next b)

theorem walk_chain {test : Nat → Bool} : ∀ (l : List Nat) (b fuel : Nat),
    List.IsChain k.Follows (b :: (l ++ [head])) → head ∉ l → l.length < fuel →
    walk k.next head test fuel (k.next b) = l.find? test := by
  intro l
  induction l with
  | nil =>
      intro b fuel chain _ enough
      obtain ⟨n, rfl⟩ : ∃ n, fuel = n + 1 := ⟨fuel - 1, by simp only [List.length_nil] at enough; omega⟩
      rw [List.nil_append, List.isChain_cons_cons] at chain
      simp [walk, chain.1.1]
  | cons c rest ih =>
      intro b fuel chain outside enough
      obtain ⟨n, rfl⟩ : ∃ n, fuel = n + 1 := ⟨fuel - 1, by omega⟩
      rw [List.cons_append, List.isChain_cons_cons] at chain
      rw [List.mem_cons, not_or] at outside
      rw [chain.1.1]
      simp only [walk, List.find?_cons]
      rw [if_neg (Ne.symm outside.1), ih c n chain.2 outside.2 (by simpa using enough)]
      cases test c <;> rfl

theorem IsRing.walk (ring : IsRing k head l) {test : Nat → Bool} {fuel : Nat}
    (enough : l.length < fuel) : walk k.next head test fuel (k.next head) = l.find? test :=
  walk_chain l head fuel ring.chain (List.nodup_cons.mp ring.nodup).1 enough

theorem IsRing.walkBack (ring : IsRing k head l) {test : Nat → Bool} {fuel : Nat}
    (enough : l.length < fuel) :
    Lib.walk k.prev head test fuel (k.prev head) = l.reverse.find? test :=
  ring.flip.walk (by simpa using enough)

end Xv6Fcfs.Lib
