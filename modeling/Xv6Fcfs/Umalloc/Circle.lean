import Xv6Fcfs.Umalloc.Ring

/-!
# Putting blocks back and taking them

The free blocks form a circle in the order of their addresses, from `base` back to `base`.
`free` walks along it to the last free block below the one it puts back; `malloc` takes a
block, or the end of one, out of it.
-/

set_option autoImplicit false

namespace Xv6Fcfs.Umalloc

open Xv6Fcfs.Lib

/-- The free blocks are `base` and then `free`, in a circle. -/
structure Circle (base : Nat) (s : Heap) (free : List Block) : Prop where
  linked : Linked s.hdr base (⟨base, 0⟩ :: free)
  sorted : (⟨base, 0⟩ :: free : List Block).Pairwise Before
  freep : ∃ b ∈ (⟨base, 0⟩ :: free : List Block), b.addr = s.freep

section Heaps
variable {base : Nat} {s s' : Heap} {free given regions : List Block} {b : Block}

/-! ## The search of `free` -/

/-- Where the loop of `free` stops. -/
def Stops (h : Nat → Header) (bp p : Nat) : Prop :=
  (p < bp ∧ bp < (h p).ptr) ∨ ((h p).ptr ≤ p ∧ (p < bp ∨ bp < (h p).ptr))

theorem freeLoop_stops {h : Nat → Header} {bp : Nat} (member : Nat → Prop)
    (closed : ∀ p, member p → member (h p).ptr) : ∀ (turns p q : Nat), member p →
      freeLoop h bp turns p = some q → member q ∧ Stops h bp q := by
  intro turns
  induction turns with
  | zero => intro p q _ run; cases run
  | succ k ih =>
      intro p q inside run
      rw [freeLoop] at run
      split at run
      next between =>
        cases run
        exact ⟨inside, Or.inl between⟩
      next =>
        split at run
        next wraps =>
          cases run
          exact ⟨inside, Or.inr wraps⟩
        next => exact ih _ q (closed p inside) run

theorem freeLoop_ends {h : Nat → Header} {bp next : Nat} : ∀ (l : List Block) (b : Block),
    Linked h next (b :: l) → (∃ c ∈ b :: l, Stops h bp c.addr) →
      ∀ turns, l.length < turns → ∃ q, freeLoop h bp turns b.addr = some q := by
  intro l
  induction l with
  | nil =>
      rintro b - ⟨c, inside, stops⟩ turns more
      obtain rfl := List.mem_singleton.mp inside
      obtain ⟨k, rfl⟩ := Nat.exists_eq_succ_of_ne_zero (Nat.ne_of_gt (Nat.zero_lt_of_lt more))
      refine ⟨c.addr, ?_⟩
      rw [freeLoop]
      rcases stops with between | wraps
      · rw [if_pos between]
      · rw [if_pos wraps, ite_self]
  | cons d l ih =>
      rintro b ⟨here, later⟩ ⟨c, inside, stops⟩ turns more
      obtain ⟨k, rfl⟩ := Nat.exists_eq_succ_of_ne_zero (Nat.ne_of_gt (Nat.zero_lt_of_lt more))
      rw [freeLoop]
      split
      · exact ⟨_, rfl⟩
      · split
        · exact ⟨_, rfl⟩
        next between wraps =>
          have other : c ∈ d :: l := by
            rcases List.mem_cons.mp inside with rfl | rest
            · exact absurd stops (not_or.mpr ⟨between, wraps⟩)
            · exact rest
          have next : (h b.addr).ptr = d.addr := by rw [here]; rfl
          rw [next]
          exact ih d later ⟨c, other, stops⟩ k (by simpa using more)

theorem Circle.closed (ring : Circle base s free) (p : Nat)
    (inside : ∃ b ∈ (⟨base, 0⟩ :: free : List Block), b.addr = p) :
    ∃ b ∈ (⟨base, 0⟩ :: free : List Block), b.addr = (s.hdr p).ptr := by
  obtain ⟨b, mem, rfl⟩ := inside
  obtain ⟨xs, ys, split⟩ := List.append_of_mem mem
  have linked := ring.linked
  rw [split] at linked
  rw [linked_split linked]
  cases ys with
  | nil => exact ⟨⟨base, 0⟩, List.mem_cons_self, rfl⟩
  | cons c ys =>
      refine ⟨c, ?_, rfl⟩
      rw [split]
      simp

theorem Circle.rotate (ring : Circle base s free) (mem : b ∈ (⟨base, 0⟩ :: free : List Block)) :
    ∃ l, Linked s.hdr b.addr (b :: l) ∧ l.length = free.length ∧
      (∀ c, c ∈ b :: l ↔ c ∈ (⟨base, 0⟩ :: free : List Block)) ∧
      ((b :: l).map Block.addr).Nodup := by
  obtain ⟨xs, ys, split⟩ := List.append_of_mem mem
  have linked := ring.linked
  have sorted := ring.sorted
  have distinct : ((⟨base, 0⟩ :: free : List Block).map Block.addr).Nodup := by
    rw [List.Nodup, List.pairwise_map]
    refine sorted.imp ?_
    intro x y before
    unfold Before Block.stop at before
    omega
  rw [split] at linked distinct
  obtain ⟨front, back⟩ := linked_append.mp linked
  have perm : (b :: (ys ++ xs)).Perm (xs ++ b :: ys) := by
    rw [← List.cons_append]
    exact List.perm_append_comm
  have start : first b.addr xs = base := by
    cases xs with
    | nil =>
        have same := congrArg (first 0) split
        exact same.symm
    | cons x xs =>
        have same := congrArg (first 0) split
        exact same.symm
  refine ⟨ys ++ xs, ?_, ?_, ?_, ?_⟩
  · rw [← List.cons_append, linked_append, start]
    exact ⟨back, front⟩
  · have length := congrArg List.length split
    simp only [List.length_cons, List.length_append] at length
    rw [List.length_append]
    omega
  · intro c
    rw [split]
    exact perm.mem_iff
  · exact (perm.map Block.addr).nodup_iff.mpr distinct

/-! ## Putting a block back -/

/-- The block lies above `base` and shares nothing with the free blocks. -/
structure Loose (base : Nat) (free : List Block) (b : Block) : Prop where
  above : base + UNIT ≤ b.addr
  some : 0 < b.size
  full : ∀ c ∈ free, 0 < c.size
  clear : ∀ c ∈ free, b.Clear UNIT c

/-- A sorted list at the place of an address that is in none of its blocks. -/
theorem sorted_split (a : Nat) : ∀ (l : List Block) (p : Block), (p :: l).Pairwise Before → p.addr < a →
    (∀ c ∈ l, c.addr ≠ a) →
      ∃ xs q ys, p :: l = xs ++ q :: ys ∧ q.addr < a ∧ ∀ c ∈ ys, a < c.addr := by
  intro l
  induction l with
  | nil => exact fun p _ low _ => ⟨[], p, [], rfl, low, fun _ no => absurd no List.not_mem_nil⟩
  | cons c l ih =>
      intro p sorted low apart
      obtain ⟨-, rest⟩ := List.pairwise_cons.mp sorted
      rcases Nat.lt_or_gt_of_ne (apart c List.mem_cons_self) with below | beyond
      · obtain ⟨xs, q, ys, split, less, more⟩ :=
          ih c rest below fun d inside => apart d (List.mem_cons_of_mem _ inside)
        exact ⟨p :: xs, q, ys, by rw [split]; rfl, less, more⟩
      · refine ⟨[], p, c :: l, rfl, low, ?_⟩
        intro d inside
        rcases List.mem_cons.mp inside with rfl | later
        · exact beyond
        · have gap := (List.pairwise_cons.mp rest).1 d later
          unfold Before Block.stop at gap
          omega

theorem Circle.stop_exists (ring : Circle base s free) (loose : Loose base free b) :
    ∃ c ∈ (⟨base, 0⟩ :: free : List Block), Stops s.hdr b.addr c.addr := by
  have low : base < b.addr := by
    have above := loose.above
    unfold UNIT at above
    omega
  have apart : ∀ c ∈ free, c.addr ≠ b.addr := by
    intro c inside same
    have full := loose.full c inside
    have pos := loose.some
    have clear := loose.clear c inside
    unfold Block.Clear Block.stop UNIT at clear
    omega
  obtain ⟨xs, q, ys, split, less, more⟩ := sorted_split b.addr free ⟨base, 0⟩ ring.sorted low apart
  have linked := ring.linked
  rw [split] at linked
  have next := linked_split linked
  refine ⟨q, by rw [split]; simp, ?_⟩
  unfold Stops
  rw [next]
  cases ys with
  | nil =>
      refine Or.inr ⟨?_, Or.inl less⟩
      -- `base` is the first block and so not above `q`
      have mem : q ∈ (⟨base, 0⟩ :: free : List Block) := by rw [split]; simp
      rcases List.mem_cons.mp mem with rfl | later
      · exact Nat.le_refl _
      · have gap := (List.pairwise_cons.mp ring.sorted).1 q later
        unfold Before Block.stop at gap
        show base ≤ q.addr
        simp only at gap
        omega
  | cons c ys => exact Or.inl ⟨less, more c List.mem_cons_self⟩

theorem Circle.locate (ring : Circle base s free) (loose : Loose base free b) {p : Block}
    (mem : p ∈ (⟨base, 0⟩ :: free : List Block)) (stops : Stops s.hdr b.addr p.addr) :
    ∃ xs ys, (⟨base, 0⟩ :: free : List Block) = xs ++ p :: ys ∧ p.stop UNIT ≤ b.addr ∧
      ∀ c ∈ ys, b.stop UNIT ≤ c.addr := by
  obtain ⟨xs, ys, split⟩ := List.append_of_mem mem
  have linked := ring.linked
  have sorted := ring.sorted
  rw [split] at linked sorted
  have next := linked_split linked
  have above := loose.above
  have pos := loose.some
  obtain ⟨-, behind, -⟩ := List.pairwise_append.mp sorted
  obtain ⟨after, order⟩ := List.pairwise_cons.mp behind
  -- the search stops below the block and in front of what lies above it
  have place : p.addr < b.addr ∧ ∀ c ∈ ys, b.addr < c.addr := by
    unfold Stops at stops
    rw [next] at stops
    unfold UNIT at above
    cases ys with
    | nil =>
        simp only [first] at stops
        exact ⟨by omega, fun _ no => absurd no List.not_mem_nil⟩
    | cons c ys =>
        have gap := after c List.mem_cons_self
        unfold Before Block.stop at gap
        simp only [first] at stops
        refine ⟨by omega, ?_⟩
        intro d inside
        rcases List.mem_cons.mp inside with rfl | later
        · omega
        · have far := (List.pairwise_cons.mp order).1 d later
          unfold Before Block.stop at far
          omega
  have below : ∀ c ∈ free, c.addr < b.addr → c.stop UNIT ≤ b.addr := by
    intro c inside less
    have clear := loose.clear c inside
    unfold Block.Clear Block.stop UNIT at *
    omega
  refine ⟨xs, ys, split, ?_, ?_⟩
  · rcases List.mem_cons.mp mem with rfl | inside
    · simpa [Block.stop] using Nat.le_of_lt place.1
    · exact below p inside place.1
  · intro c inside
    have more := place.2 c inside
    have inFree : c ∈ free := by
      have mem' : c ∈ (⟨base, 0⟩ :: free : List Block) := by rw [split]; simp [inside]
      rcases List.mem_cons.mp mem' with rfl | later
      · unfold UNIT at above
        simp only at more
        omega
      · exact later
    have clear := loose.clear c inFree
    unfold Block.Clear Block.stop UNIT at *
    omega

theorem Loose.of_tiles (above : base + UNIT ≤ b.addr)
    (tiles : Tiles UNIT (b :: (free ++ given)) regions) : Loose base free b where
  above := above
  some := Nat.pos_of_mul_pos_left (tiles.full b List.mem_cons_self)
  full := fun c inside => Nat.pos_of_mul_pos_left
    (tiles.full c (List.mem_cons_of_mem _ (List.mem_append_left _ inside)))
  clear := fun c inside => (List.pairwise_cons.mp tiles.clear).1 c (List.mem_append_left _ inside)

/-- What `free` does with a block that lies beside the free ones. -/
structure Put (base : Nat) (s s' : Heap) (free free' given regions : List Block)
    (b : Block) : Prop where
  circle : Circle base s' free'
  tiles : Tiles UNIT (free' ++ given) regions
  addrs : ∀ c ∈ free', c.addr = b.addr ∨ ∃ d ∈ free, d.addr = c.addr
  large : ∃ c ∈ free', b.size ≤ c.size
  length : free'.length ≤ free.length + 1
  same : ∀ x, x ≠ b.addr → (∀ c ∈ (⟨base, 0⟩ :: free : List Block), c.addr ≠ x) → s'.hdr x = s.hdr x
  obtained : s'.obtained = s.obtained

theorem put_sorted {xs ys : List Block} {p : Block} (sorted : (xs ++ p :: ys).Pairwise Before)
    (low : p.stop UNIT ≤ b.addr) (high : ∀ c ∈ ys, b.stop UNIT ≤ c.addr) :
    (xs ++ join p (join b ys)).Pairwise Before := by
  obtain ⟨front, rest, across⟩ := List.pairwise_append.mp sorted
  obtain ⟨-, back⟩ := List.pairwise_cons.mp rest
  have behind : ∀ c ∈ join b ys, p.stop UNIT ≤ c.addr := fun c inside =>
    Nat.le_trans low (join_addr high c inside)
  refine List.pairwise_append.mpr ⟨front, join_before (join_before back high) behind, ?_⟩
  intro x here c inside
  have gap := across x here p List.mem_cons_self
  have far := join_addr behind c inside
  unfold Before Block.stop at *
  omega

theorem Circle.put (ring : Circle base s free) (above : base + UNIT ≤ b.addr)
    (tiles : Tiles UNIT (b :: (free ++ given)) regions) (size : (s.hdr b.addr).size = b.size)
    (small : total regions < 2 ^ 32) {turns : Nat}
    (run : Umalloc.free turns s (plus b.addr 1) = some s') :
    ∃ free', Put base s s' free free' given regions b := by
  have loose := Loose.of_tiles above tiles
  have total' : b.size + total free < 2 ^ 32 := by
    have amount := tiles.amount
    rw [total_cons, total_append] at amount
    omega
  have bp : plus b.addr 1 - UNIT = b.addr := by
    unfold plus UNIT
    omega
  simp only [Umalloc.free, bp, bind, Option.bind] at run
  split at run
  · cases run
  next found =>
    obtain ⟨⟨p, mem, rfl⟩, stops⟩ := freeLoop_stops
      (fun q => ∃ c ∈ (⟨base, 0⟩ :: free : List Block), c.addr = q)
        (fun q => ring.closed q) turns s.freep _
      ring.freep found
    obtain rfl := Option.some.inj run
    obtain ⟨xs, ys, split, low, high⟩ := ring.locate loose mem stops
    have linked := ring.linked
    have sorted := ring.sorted
    rw [split] at linked sorted
    obtain ⟨front, here, back⟩ := linked_append.mp linked
    have fits : p.size + (b.size + total ys) < 2 ^ 32 := by
      have sizes := congrArg total split
      rw [total_cons, total_append, total_cons] at sizes
      simp only at sizes
      omega
    have lower : p.addr < b.addr := by
      rcases List.mem_cons.mp mem with rfl | inside
      · simp only
        unfold UNIT at above
        omega
      · have full := loose.full p inside
        unfold Block.stop UNIT at low
        omega
    obtain ⟨one, kept⟩ := joinNext_linked (h := s.hdr) (p := p) size (by rw [here]) back
      (by unfold UNIT at above; omega) high loose.some (by omega)
    obtain ⟨two, kept'⟩ := joinLast_linked (b := b) (p := p) one join_head
      (by rw [kept p.addr (Nat.ne_of_lt lower), here])
      (fun q inside => Nat.lt_of_lt_of_le lower (join_addr high q inside))
        (by rw [total_join]; exact fits)
    have frame : ∀ x, x ≠ b.addr → x ≠ p.addr →
        joinLast (joinNext s.hdr b.addr p.addr) b.addr p.addr x = s.hdr x := by
      intro x other other'
      rw [kept' x other', kept x other]
    have whole : Linked (joinLast (joinNext s.hdr b.addr p.addr) b.addr p.addr) base
        (xs ++ join p (join b ys)) := by
      rw [linked_append, first_join]
      refine ⟨front.congr ?_, two⟩
      intro c inside
      have gap := (List.pairwise_append.mp sorted).2.2 c inside p List.mem_cons_self
      unfold Before Block.stop at gap
      exact frame c.addr (by omega) (by omega)
    have ordered := put_sorted sorted low high
    have others : ∀ x, x ≠ b.addr → (∀ c ∈ (⟨base, 0⟩ :: free : List Block), c.addr ≠ x) →
        joinLast (joinNext s.hdr b.addr p.addr) b.addr p.addr x = s.hdr x :=
      fun x other apart => frame x other (Ne.symm (apart p mem))
    cases xs with
    | nil =>
        -- the block comes right behind `base`, which it cannot touch
        obtain ⟨rfl, rfl⟩ : p = ⟨base, 0⟩ ∧ ys = free := by
          simp only [List.nil_append, List.cons.injEq] at split
          exact ⟨split.1.symm, split.2.symm⟩
        have apart : join ⟨base, 0⟩ (join b ys) = ⟨base, 0⟩ :: join b ys := by
          obtain ⟨q, l, same, addr⟩ := join_head (b := b) (l := ys)
          rw [same, join, if_neg]
          unfold Block.stop UNIT at *
          simp only
          omega
        rw [List.nil_append, apart] at whole ordered
        exact ⟨join b ys, ⟨whole, ordered, ⟨_, List.mem_cons_self, rfl⟩⟩, join_tiles tiles,
          fun c inside => (join_from c inside).imp_right fun old => ⟨c, old, rfl⟩, join_large.1,
          join_length, others, rfl⟩
    | cons x xs =>
        obtain ⟨rfl, rfl⟩ : x = ⟨base, 0⟩ ∧ free = xs ++ p :: ys := by
          simp only [List.cons_append, List.cons.injEq] at split
          exact ⟨split.1.symm, split.2⟩
        refine ⟨xs ++ join p (join b ys), ⟨whole, ordered, ?_⟩, ?_, ?_, ?_, ?_, others, rfl⟩
        · obtain ⟨q, l, same, addr⟩ := join_head (b := p) (l := join b ys)
          refine ⟨q, ?_, addr⟩
          rw [same]
          simp
        · have first' : Tiles UNIT (b :: (ys ++ p :: (xs ++ given))) regions :=
            tiles.perm (List.perm_iff_count.mpr fun a => by
              simp only [List.count_cons, List.count_append]
              omega)
          have second : Tiles UNIT (p :: (join b ys ++ (xs ++ given))) regions :=
            (join_tiles first').perm (List.perm_iff_count.mpr fun a => by
              simp only [List.count_cons, List.count_append]
              omega)
          exact (join_tiles second).perm (List.perm_iff_count.mpr fun a => by
            simp only [List.count_append]
            omega)
        · intro c inside
          rcases List.mem_append.mp inside with before | after
          · exact Or.inr ⟨c, List.mem_append_left _ before, rfl⟩
          · rcases join_from c after with same | later
            · exact Or.inr ⟨p, by simp, same.symm⟩
            · exact (join_from c later).imp_right fun old => ⟨c, by simp [old], rfl⟩
        · obtain ⟨c, inside, more⟩ := (join_large (b := b) (l := ys)).1
          obtain ⟨d, there, most⟩ := (join_large (b := p) (l := join b ys)).2 c inside
          exact ⟨d, List.mem_append_right _ there, Nat.le_trans more most⟩
        · have inner := join_length (b := b) (l := ys)
          have outer := join_length (b := p) (l := join b ys)
          simp only [List.length_append, List.length_cons]
          omega

theorem Circle.put_ends (ring : Circle base s free) (loose : Loose base free b) {turns : Nat}
    (enough : free.length < turns) : ∃ s', Umalloc.free turns s (plus b.addr 1) = some s' := by
  obtain ⟨c, inside, stops⟩ := ring.stop_exists loose
  obtain ⟨p, mem, start⟩ := ring.freep
  obtain ⟨l, linked, length, members, -⟩ := ring.rotate mem
  obtain ⟨q, found⟩ : ∃ q, freeLoop s.hdr b.addr turns p.addr = some q :=
    freeLoop_ends l p linked ⟨c, (members c).mpr inside, stops⟩ turns (by omega)
  have bp : plus b.addr 1 - UNIT = b.addr := by
    unfold plus UNIT
    omega
  rw [start] at found
  exact ⟨_, by simp only [Umalloc.free, bp, found]; rfl⟩

/-! ## Taking a block -/

/-- What `malloc` does with a free block that is large enough: `n` is given away. -/
structure Carved (base : Nat) (s s' : Heap) (free free' given regions : List Block)
    (n : Block) : Prop where
  circle : Circle base s' free'
  tiles : Tiles UNIT (free' ++ n :: given) regions
  above : ∀ c ∈ n :: free', base + UNIT ≤ c.addr
  size : (s'.hdr n.addr).size = n.size
  same : ∀ c ∈ given, s'.hdr c.addr = s.hdr c.addr
  obtained : s'.obtained = s.obtained

theorem given_outside (tiles : Tiles UNIT (free ++ given) regions) {c d : Block} (inside : c ∈ given)
    (mem : d ∈ free) : c.addr < d.addr ∨ d.stop UNIT ≤ c.addr := by
  have clear := (List.pairwise_append.mp tiles.clear).2.2 d mem c inside
  have full := tiles.full c (List.mem_append_right _ inside)
  unfold Block.Clear Block.stop at *
  omega

/-- The free blocks around the one that is taken: `zs` and `b` in front of `q`, `ys` behind. -/
structure Place (base : Nat) (s : Heap) (free zs us ys : List Block) (b q : Block) : Prop where
  start : zs ++ [b] = ⟨base, 0⟩ :: us
  split : free = us ++ q :: ys
  front : Linked s.hdr b.addr zs
  prev : s.hdr b.addr = ⟨q.addr, b.size⟩
  here : s.hdr q.addr = ⟨first base ys, q.size⟩
  back : Linked s.hdr base ys
  low : ∀ c ∈ zs, c.addr < b.addr
  gap : b.stop UNIT < q.addr
  high : ∀ c ∈ ys, q.stop UNIT < c.addr

theorem Circle.place (ring : Circle base s free) {nunits p : Nat} (pos : 0 < nunits)
    (mem : b ∈ (⟨base, 0⟩ :: free : List Block)) (next : (s.hdr b.addr).ptr = p)
    (large : nunits ≤ (s.hdr p).size) : ∃ zs us ys q, q.addr = p ∧ Place base s free zs us ys b q := by
  obtain ⟨zs, ys, split⟩ := List.append_of_mem mem
  have linked := ring.linked
  have sorted := ring.sorted
  rw [split] at linked sorted
  obtain ⟨front, prev, rest⟩ := linked_append.mp linked
  rw [prev] at next
  cases ys with
  | nil =>
      -- `base` is never large enough
      obtain rfl : base = p := next
      rw [ring.linked.1] at large
      simp only at large
      omega
  | cons q ys =>
      obtain ⟨-, behind, across⟩ := List.pairwise_append.mp sorted
      obtain ⟨afterB, behind⟩ := List.pairwise_cons.mp behind
      obtain ⟨afterQ, -⟩ := List.pairwise_cons.mp behind
      have low : ∀ c ∈ zs, c.addr < b.addr := by
        intro c inside
        have gap := across c inside b List.mem_cons_self
        unfold Before Block.stop at gap
        omega
      have parts : ∃ us, zs ++ [b] = ⟨base, 0⟩ :: us ∧ free = us ++ q :: ys := by
        cases zs with
        | nil =>
            simp only [List.nil_append, List.cons.injEq] at split
            exact ⟨[], by rw [split.1]; rfl, split.2⟩
        | cons z zs =>
            simp only [List.cons_append, List.cons.injEq] at split
            exact ⟨zs ++ [b], by rw [split.1]; rfl, by rw [split.2]; simp⟩
      obtain ⟨us, start, split⟩ := parts
      exact ⟨zs, us, ys, q, next, start, split, front, prev, rest.1, rest.2, low,
        afterB q List.mem_cons_self, afterQ⟩

section Carve
variable {zs us ys : List Block} {q : Block} {nunits : Nat}

theorem Place.front_kept (place : Place base s free zs us ys b q) {h : Nat → Header}
    (same : ∀ x, x < q.addr → h x = s.hdr x) : Linked h q.addr (zs ++ [b]) := by
  have gap := place.gap
  have low : b.addr < q.addr := by
    unfold Block.stop at gap
    omega
  rw [linked_append]
  refine ⟨place.front.congr ?_, ?_, trivial⟩
  · intro c inside
    have less := place.low c inside
    exact same c.addr (by omega)
  · rw [same b.addr low]
    exact place.prev

theorem Place.given_apart (place : Place base s free zs us ys b q)
    (tiles : Tiles UNIT (free ++ given) regions)
    (above : ∀ c ∈ free ++ given, base + UNIT ≤ c.addr) :
    ∀ c ∈ given, c.addr ≠ b.addr ∧ (c.addr < q.addr ∨ q.stop UNIT ≤ c.addr) := by
  intro c inside
  refine ⟨?_, given_outside tiles inside (by rw [place.split]; simp)⟩
  intro same
  have mem : b ∈ (⟨base, 0⟩ :: us : List Block) := by
    rw [← place.start]
    simp
  rcases List.mem_cons.mp mem with rfl | old
  · have high := above c (List.mem_append_right _ inside)
    unfold UNIT at high
    simp only at same
    omega
  · have inFree : b ∈ free := by
      rw [place.split]
      exact List.mem_append_left _ old
    have outside := given_outside tiles inside inFree
    have full := tiles.full b (List.mem_append_left _ inFree)
    unfold Block.stop at outside
    omega

theorem Place.take (place : Place base s free zs us ys b q) (ring : Circle base s free)
    (tiles : Tiles UNIT (free ++ given) regions) (above : ∀ c ∈ free ++ given, base + UNIT ≤ c.addr) :
    Carved base s { s with hdr := setPtr s.hdr b.addr (first base ys), freep := b.addr }
      free (us ++ ys) given regions q := by
  have gap := place.gap
  have apart := place.given_apart tiles above
  have split := place.split
  have sorted := ring.sorted
  have links : Linked (setPtr s.hdr b.addr (first base ys)) base (⟨base, 0⟩ :: (us ++ ys)) := by
    rw [← List.cons_append, ← place.start, linked_append, linked_append]
    refine ⟨⟨place.front.congr ?_, ?_, trivial⟩, place.back.congr ?_⟩
    · intro c inside
      exact setPtr_other (Nat.ne_of_lt (place.low c inside))
    · rw [setPtr_self, place.prev]
      rfl
    · intro c inside
      have far := place.high c inside
      refine setPtr_other ?_
      unfold Block.stop at gap far
      omega
  refine ⟨⟨links, ?_, ⟨b, ?_, rfl⟩⟩, ?_, ?_, ?_, ?_, rfl⟩
  · rw [split] at sorted
    refine sorted.sublist (List.Sublist.cons_cons _ ?_)
    exact List.Sublist.append (List.Sublist.refl us) (List.sublist_cons_self q ys)
  · have mem : b ∈ (⟨base, 0⟩ :: us : List Block) := by
      rw [← place.start]
      simp
    rw [← List.cons_append]
    exact List.mem_append_left _ mem
  · rw [split] at tiles
    exact tiles.perm (List.perm_iff_count.mpr fun a => by
      simp only [List.count_cons, List.count_append]
      omega)
  · intro c inside
    refine above c (List.mem_append_left _ ?_)
    rw [split]
    rcases List.mem_cons.mp inside with rfl | old
    · simp
    · rcases List.mem_append.mp old with left | right
      · simp [left]
      · simp [right]
  · show (setPtr s.hdr b.addr (first base ys) q.addr).size = q.size
    rw [setPtr_other, place.here]
    unfold Block.stop at gap
    omega
  · exact fun c inside => setPtr_other (apart c inside).1

theorem Place.cut (place : Place base s free zs us ys b q) (ring : Circle base s free)
    (tiles : Tiles UNIT (free ++ given) regions) (above : ∀ c ∈ free ++ given, base + UNIT ≤ c.addr)
    (pos : 0 < nunits) (less : nunits < q.size) (small : q.size < 2 ^ 32) :
    Carved base s
      { s with
        hdr := setSize (setSize s.hdr q.addr (q.size - nunits)) (plus q.addr (q.size - nunits)) nunits
        freep := b.addr }
      free (us ++ ⟨q.addr, q.size - nunits⟩ :: ys) given regions
      ⟨plus q.addr (q.size - nunits), nunits⟩ := by
  have gap := place.gap
  have apart := place.given_apart tiles above
  have split := place.split
  have sorted := ring.sorted
  have stop : q.stop UNIT = q.addr + UNIT * q.size := rfl
  have unit : UNIT = 16 := rfl
  have tail : plus q.addr (q.size - nunits) = q.addr + UNIT * (q.size - nunits) := rfl
  have inner : q.addr < plus q.addr (q.size - nunits) ∧
    plus q.addr (q.size - nunits) < q.stop UNIT := by
    rw [stop, tail, unit]
    omega
  have rest : q.size - nunits < 2 ^ 32 := by omega
  generalize tailAt : plus q.addr (q.size - nunits) = n at inner tail ⊢
  have kept : ∀ x, x < q.addr ∨ q.stop UNIT ≤ x →
      setSize (setSize s.hdr q.addr (q.size - nunits)) n nunits x = s.hdr x := by
    intro x outside
    rw [setSize_other (by omega), setSize_other (by omega)]
  have head : setSize (setSize s.hdr q.addr (q.size - nunits)) n nunits q.addr =
      ⟨first base ys, q.size - nunits⟩ := by
    rw [setSize_other (by omega), setSize, upd_self, place.here, Nat.mod_eq_of_lt rest]
  have links : Linked (setSize (setSize s.hdr q.addr (q.size - nunits)) n nunits) base
      (⟨base, 0⟩ :: (us ++ ⟨q.addr, q.size - nunits⟩ :: ys)) := by
    rw [← List.cons_append, ← place.start, linked_append]
    refine ⟨place.front_kept fun x low => kept x (Or.inl low), head, place.back.congr ?_⟩
    exact fun c inside => kept c.addr (Or.inr (Nat.le_of_lt (place.high c inside)))
  refine ⟨⟨links, ?_, ⟨b, ?_, rfl⟩⟩, ?_, ?_, ?_, ?_, rfl⟩
  · rw [split, ← List.cons_append] at sorted
    rw [← List.cons_append]
    obtain ⟨before, behind, across⟩ := List.pairwise_append.mp sorted
    obtain ⟨after, order⟩ := List.pairwise_cons.mp behind
    refine List.pairwise_append.mpr ⟨before, List.Pairwise.cons ?_ order, ?_⟩
    · intro c inside
      have far := after c inside
      unfold Before Block.stop at far ⊢
      simp only
      omega
    · intro c inside d there
      rcases List.mem_cons.mp there with rfl | later
      · have near := across c inside q List.mem_cons_self
        unfold Before at near ⊢
        exact near
      · exact across c inside d (List.mem_cons_of_mem _ later)
  · have mem : b ∈ (⟨base, 0⟩ :: us : List Block) := by
      rw [← place.start]
      simp
    rw [← List.cons_append]
    exact List.mem_append_left _ mem
  · rw [split] at tiles
    have first' : Tiles UNIT (q :: (us ++ ys ++ given)) regions :=
      tiles.perm (List.perm_iff_count.mpr fun a => by
        simp only [List.count_cons, List.count_append]
        omega)
    have parts := first'.cut pos less
    rw [← tail] at parts
    exact parts.perm (List.perm_iff_count.mpr fun a => by
      simp only [List.count_cons, List.count_append]
      omega)
  · have old : ∀ c ∈ us ++ q :: ys, base + UNIT ≤ c.addr := by
      intro c inside
      refine above c (List.mem_append_left _ ?_)
      rw [split]
      exact inside
    have high := old q (by simp)
    intro c inside
    rcases List.mem_cons.mp inside with rfl | there
    · simp only
      omega
    · rcases List.mem_append.mp there with left | right
      · exact old c (List.mem_append_left _ left)
      · rcases List.mem_cons.mp right with rfl | later
        · exact high
        · exact old c (by simp [later])
  · show (setSize (setSize s.hdr q.addr (q.size - nunits)) n nunits n).size = nunits
    rw [setSize, upd_self]
    exact Nat.mod_eq_of_lt (by omega)
  · exact fun c inside => kept c.addr (apart c inside).2

theorem Circle.carve (ring : Circle base s free) (above : ∀ c ∈ free ++ given, base + UNIT ≤ c.addr)
    (tiles : Tiles UNIT (free ++ given) regions) (small : total regions < 2 ^ 32) {prevp p : Nat}
    (pos : 0 < nunits) (prev : ∃ b ∈ (⟨base, 0⟩ :: free : List Block), b.addr = prevp)
    (next : (s.hdr prevp).ptr = p) (large : nunits ≤ (s.hdr p).size) :
    ∃ free' n, n.size = nunits ∧ (Umalloc.carve s nunits prevp p).2 = plus n.addr 1 ∧
      Carved base s (Umalloc.carve s nunits prevp p).1 free free' given regions n := by
  obtain ⟨b, mem, rfl⟩ := prev
  obtain ⟨zs, us, ys, q, rfl, place⟩ := ring.place pos mem next large
  have size : q.size < 2 ^ 32 := by
    have inside : q ∈ free ++ given := by
      rw [place.split]
      simp
    have amount := tiles.amount
    have part := size_le_total inside
    omega
  unfold Umalloc.carve
  rw [place.here] at large ⊢
  simp only at large ⊢
  by_cases whole : q.size = nunits
  · rw [if_pos whole]
    exact ⟨us ++ ys, q, whole, rfl, place.take ring tiles above⟩
  · rw [if_neg whole]
    have rest : (setSize s.hdr q.addr (q.size - nunits) q.addr).size = q.size - nunits := by
      rw [setSize, upd_self]
      exact Nat.mod_eq_of_lt (by omega)
    rw [rest]
    exact ⟨_, _, rfl, rfl, place.cut ring tiles above pos (by omega) size⟩

end Carve

end Heaps

end Xv6Fcfs.Umalloc
