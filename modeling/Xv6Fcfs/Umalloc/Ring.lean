import Xv6Fcfs.Umalloc.Model

/-!
# The free list

The headers link the free blocks in the order of their addresses, and the last one to the
first, which is `base`.  The list is seen as the list of its blocks; putting a block behind
another one, and joining it to its neighbours, is a function on such lists.
-/

set_option autoImplicit false

namespace Xv6Fcfs.Umalloc

open Xv6Fcfs.Lib

/-- The address of the first block, or `next`. -/
def first (next : Nat) : List Block → Nat
  | [] => next
  | b :: _ => b.addr

/-- The headers hold the blocks of the list, linked, the last one to `next`. -/
def Linked (h : Nat → Header) (next : Nat) : List Block → Prop
  | [] => True
  | b :: l => h b.addr = ⟨first next l, b.size⟩ ∧ Linked h next l

/-- The first block lies in front of the second and does not touch it. -/
def Before (b c : Block) : Prop := b.stop UNIT < c.addr

section Links
variable {h h' : Nat → Header} {next : Nat} {l m : List Block} {b : Block}

theorem linked_append : Linked h next (l ++ m) ↔ Linked h (first next m) l ∧ Linked h next m := by
  induction l with
  | nil => simp [Linked]
  | cons b l ih =>
      have same : first next (l ++ m) = first (first next m) l := by cases l <;> rfl
      simp only [List.cons_append, Linked, ih, same, and_assoc]

theorem Linked.congr (linked : Linked h next l) (same : ∀ b ∈ l, h' b.addr = h b.addr) :
    Linked h' next l := by
  induction l with
  | nil => trivial
  | cons b l ih =>
      obtain ⟨here, later⟩ := linked
      refine ⟨?_, ih later fun c inside => same c (List.mem_cons_of_mem _ inside)⟩
      rw [same b List.mem_cons_self]
      exact here

theorem Linked.size (linked : Linked h next l) (inside : b ∈ l) : (h b.addr).size = b.size := by
  induction l with
  | nil => cases inside
  | cons c l ih =>
      rcases List.mem_cons.mp inside with rfl | later
      · rw [linked.1]
      · exact ih linked.2 later

theorem linked_split {xs ys : List Block} (linked : Linked h next (xs ++ b :: ys)) :
    h b.addr = ⟨first next ys, b.size⟩ := (linked_append.mp linked).2.1

end Links

/-! ## Joining -/

/-- The block in front of a list, joined with the first if they touch. -/
def join (b : Block) : List Block → List Block
  | [] => [b]
  | c :: l => if b.stop UNIT = c.addr then ⟨b.addr, b.size + c.size⟩ :: l else b :: c :: l

section Joining
variable {b p : Block} {l m regions : List Block}

theorem join_head : ∃ q rest, join b l = q :: rest ∧ q.addr = b.addr := by
  cases l with
  | nil => exact ⟨b, [], rfl, rfl⟩
  | cons c l =>
      rw [join]
      split
      · exact ⟨_, _, rfl, rfl⟩
      · exact ⟨_, _, rfl, rfl⟩

theorem join_length : (join b l).length ≤ l.length + 1 := by
  cases l with
  | nil => exact Nat.le_refl _
  | cons c l =>
      rw [join]
      split
      · exact Nat.le_succ _
      · exact Nat.le_refl _

theorem total_join : total (join b l) = b.size + total l := by
  cases l with
  | nil => rfl
  | cons c l =>
      rw [join]
      split
      · rw [total_cons, total_cons, Nat.add_assoc]
      · rw [total_cons]

theorem first_join (next : Nat) : first next (join b l) = b.addr := by
  obtain ⟨q, rest, same, addr⟩ := join_head (b := b) (l := l)
  rw [same]
  exact addr

theorem join_large : (∃ d ∈ join b l, b.size ≤ d.size) ∧ ∀ c ∈ l, ∃ d ∈ join b l, c.size ≤ d.size := by
  cases l with
  | nil => exact ⟨⟨b, List.mem_singleton.mpr rfl, Nat.le_refl _⟩, fun _ no =>
      absurd no List.not_mem_nil⟩
  | cons c l =>
      rw [join]
      split
      · refine ⟨⟨_, List.mem_cons_self, Nat.le_add_right _ _⟩, ?_⟩
        intro x inside
        rcases List.mem_cons.mp inside with rfl | later
        · exact ⟨_, List.mem_cons_self, Nat.le_add_left _ _⟩
        · exact ⟨x, List.mem_cons_of_mem _ later, Nat.le_refl _⟩
      · refine ⟨⟨b, List.mem_cons_self, Nat.le_refl _⟩, ?_⟩
        exact fun x inside => ⟨x, List.mem_cons_of_mem _ inside, Nat.le_refl _⟩

theorem join_tiles (tiles : Tiles UNIT (b :: (l ++ m)) regions) :
    Tiles UNIT (join b l ++ m) regions := by
  cases l with
  | nil => exact tiles
  | cons c l =>
      rw [join]
      split
      next touch => exact tiles.join touch
      next => exact tiles

/-- The blocks of the list lie behind `b`, the first one may touch it. -/
theorem join_before (sorted : l.Pairwise Before) (behind : ∀ c ∈ l, b.stop UNIT ≤ c.addr) :
    (join b l).Pairwise Before := by
  cases l with
  | nil => exact List.pairwise_singleton _ _
  | cons c l =>
      obtain ⟨next, rest⟩ := List.pairwise_cons.mp sorted
      rw [join]
      split
      next touch =>
        refine List.Pairwise.cons ?_ rest
        intro d inside
        have gap := next d inside
        unfold Before Block.stop at gap ⊢
        unfold Block.stop at touch
        simp only [Nat.mul_add]
        omega
      next apart =>
        have near := behind c List.mem_cons_self
        refine List.Pairwise.cons ?_ sorted
        intro d inside
        rcases List.mem_cons.mp inside with rfl | later
        · exact Nat.lt_of_le_of_ne near apart
        · have gap := next d later
          unfold Before Block.stop at *
          omega

theorem join_addr (behind : ∀ c ∈ l, b.stop UNIT ≤ c.addr) : ∀ d ∈ join b l, b.addr ≤ d.addr := by
  cases l with
  | nil =>
      intro d inside
      rw [List.mem_singleton.mp inside]
  | cons c l =>
      have far : ∀ d ∈ c :: l, b.addr ≤ d.addr := by
        intro d inside
        have gap := behind d inside
        unfold Block.stop at gap
        omega
      intro d inside
      rw [join] at inside
      split at inside
      · rcases List.mem_cons.mp inside with rfl | later
        · exact Nat.le_refl _
        · exact far d (List.mem_cons_of_mem _ later)
      · rcases List.mem_cons.mp inside with rfl | later
        · exact Nat.le_refl _
        · exact far d later

/-- Blocks of the joined list are at the address of `b` or were in the list. -/
theorem join_from (d : Block) (inside : d ∈ join b l) : d.addr = b.addr ∨ d ∈ l := by
  cases l with
  | nil => exact Or.inl (by rw [List.mem_singleton.mp inside])
  | cons c l =>
      rw [join] at inside
      split at inside
      · rcases List.mem_cons.mp inside with rfl | later
        · exact Or.inl rfl
        · exact Or.inr (List.mem_cons_of_mem _ later)
      · rcases List.mem_cons.mp inside with rfl | later
        · exact Or.inl rfl
        · exact Or.inr later

end Joining

/-! ## The two halves of `free` -/

section Free
variable {h : Nat → Header} {base : Nat} {b p : Block} {xs ys : List Block}

theorem setPtr_self (q : Nat) : setPtr h b.addr q b.addr = ⟨q, (h b.addr).size⟩ := by
  rw [setPtr, upd_self]

theorem setPtr_other {a q x : Nat} (other : x ≠ a) : setPtr h a q x = h x := upd_of_ne other _ _

theorem setSize_other {a n x : Nat} (other : x ≠ a) : setSize h a n x = h x := upd_of_ne other _ _

theorem joinNext_linked (size : (h b.addr).size = b.size) (next : (h p.addr).ptr = first base ys)
    (linked : Linked h base ys) (high : base < b.addr) (behind : ∀ c ∈ ys, b.stop UNIT ≤ c.addr)
    (some : 0 < b.size) (small : b.size + total ys < 2 ^ 32) :
    Linked (joinNext h b.addr p.addr) base (join b ys) ∧
      ∀ x, x ≠ b.addr → joinNext h b.addr p.addr x = h x := by
  have stop : plus b.addr (h b.addr).size = b.stop UNIT := by rw [size]; rfl
  have others : ∀ (f : Nat → Header), (∀ x, x ≠ b.addr → f x = h x) → ∀ c ∈ ys,
    f c.addr = h c.addr := by
    intro f same c inside
    have gap := behind c inside
    refine same c.addr ?_
    unfold Block.stop UNIT at gap
    omega
  unfold joinNext
  cases ys with
  | nil =>
      have last : (h p.addr).ptr = base := next
      have never : ¬ b.stop UNIT = base := by
        unfold Block.stop
        omega
      simp only [last, stop]
      rw [if_neg never]
      refine ⟨⟨?_, trivial⟩, fun x other => setPtr_other other⟩
      rw [setPtr_self, size]
      rfl
  | cons c ys =>
      obtain ⟨here, later⟩ := linked
      have follows : (h p.addr).ptr = c.addr := next
      simp only [follows, stop]
      rw [join]
      by_cases touch : b.stop UNIT = c.addr
      · rw [if_pos touch, if_pos touch]
        have kept : ∀ x, x ≠ b.addr →
            setPtr (setSize h b.addr ((h b.addr).size + (h c.addr).size)) b.addr
              (h c.addr).ptr x = h x :=
          fun x other => by rw [setPtr_other other, setSize_other other]
        refine ⟨⟨?_, later.congr fun d inside => others _ kept d (List.mem_cons_of_mem _ inside)⟩, kept⟩
        simp only
        rw [total_cons] at small
        rw [setPtr_self, setSize, upd_self, here, size, Nat.mod_eq_of_lt (by simp only; omega)]
      · rw [if_neg touch, if_neg touch]
        have kept : ∀ x, x ≠ b.addr → setPtr h b.addr c.addr x = h x := fun x other =>
          setPtr_other other
        refine ⟨⟨?_, ?_⟩, kept⟩
        · rw [setPtr_self, size]
          rfl
        · exact Linked.congr (show Linked h base (c :: ys) from ⟨here, later⟩) (others _ kept)

theorem joinLast_linked {qs : List Block} (linked : Linked h base qs)
    (front : ∃ q l, qs = q :: l ∧ q.addr = b.addr)
    (size : (h p.addr).size = p.size) (low : ∀ q ∈ qs, p.addr < q.addr)
    (small : p.size + total qs < 2 ^ 32) :
    Linked (joinLast h b.addr p.addr) base (join p qs) ∧
      ∀ x, x ≠ p.addr → joinLast h b.addr p.addr x = h x := by
  obtain ⟨q, l, rfl, same⟩ := front
  obtain ⟨here, later⟩ := linked
  have stop : plus p.addr (h p.addr).size = p.stop UNIT := by rw [size]; rfl
  have others : ∀ (f : Nat → Header), (∀ x, x ≠ p.addr → f x = h x) → ∀ c ∈ q :: l,
    f c.addr = h c.addr :=
    fun f kept c inside => kept c.addr (Nat.ne_of_gt (low c inside))
  rw [join]
  unfold joinLast
  simp only [stop, ← same]
  by_cases touch : p.stop UNIT = q.addr
  · rw [if_pos touch, if_pos touch]
    have kept : ∀ x, x ≠ p.addr →
        setPtr (setSize h p.addr ((h p.addr).size + (h q.addr).size)) p.addr (h q.addr).ptr x = h x :=
      fun x other => by rw [setPtr_other other, setSize_other other]
    refine ⟨⟨?_, later.congr fun d inside => others _ kept d (List.mem_cons_of_mem _ inside)⟩, kept⟩
    rw [total_cons] at small
    simp only
    rw [setPtr_self, setSize, upd_self, here, size, Nat.mod_eq_of_lt (by simp only; omega)]
  · rw [if_neg touch, if_neg touch]
    have kept : ∀ x, x ≠ p.addr → setPtr h p.addr q.addr x = h x := fun x other => setPtr_other other
    refine ⟨⟨?_, ?_⟩, kept⟩
    · rw [setPtr_self, size]
      rfl
    · exact Linked.congr (show Linked h base (q :: l) from ⟨here, later⟩) (others _ kept)

end Free

end Xv6Fcfs.Umalloc
