import Mathlib.Data.List.Forall2
import Xv6Fcfs.Umalloc.Circle

/-!
# The user heap holds together

The free blocks and the blocks given to the program tile what `sbrk` has given.  Every call
keeps this, and every call comes to its end: after `morecore` there is a free block that is
large enough, and the loop of `malloc` comes to it before it is back at `freep`.
-/

set_option autoImplicit false

namespace Xv6Fcfs.Umalloc

open Xv6Fcfs.Lib

/-- `free` are the free blocks but `base`, `given` those of the program. -/
structure Sound (base : Nat) (s : Heap) (free given : List Block) : Prop where
  circle : Circle base s free
  tiles : Tiles UNIT (free ++ given) s.obtained
  above : ∀ b ∈ free ++ given, base + UNIT ≤ b.addr
  given : ∀ b ∈ given, (s.hdr b.addr).size = b.size
  small : UNIT * total s.obtained ≤ RAM

/-- `Sound`, with another bound in place of the physical memory. -/
structure Solid (limit base : Nat) (s : Heap) (free given : List Block) : Prop where
  circle : Circle base s free
  tiles : Tiles UNIT (free ++ given) s.obtained
  above : ∀ b ∈ free ++ given, base + UNIT ≤ b.addr
  given : ∀ b ∈ given, (s.hdr b.addr).size = b.size
  small : UNIT * total s.obtained ≤ limit
  bounded : limit < 2 ^ 36

def FreshIn (limit base : Nat) (s : Heap) (nu : Nat) : Option Nat → Prop
  | none => True
  | some a => base + UNIT ≤ a ∧ (∀ r ∈ s.obtained, (⟨a, nu⟩ : Block).Clear UNIT r) ∧
      UNIT * (total s.obtained + nu) ≤ limit

theorem Sound.solid {base : Nat} {s : Heap} {free given : List Block} (ok : Sound base s free given) :
    Solid RAM base s free given :=
  ⟨ok.circle, ok.tiles, ok.above, ok.given, ok.small, by decide⟩

theorem Solid.sound {base : Nat} {s : Heap} {free given : List Block}
    (ok : Solid RAM base s free given) :
    Sound base s free given :=
  ⟨ok.circle, ok.tiles, ok.above, ok.given, ok.small⟩

theorem Fresh.freshIn {base nu : Nat} {s : Heap} {answer : Option Nat}
    (fresh : Fresh base s nu answer) :
    FreshIn RAM base s nu answer := by
  cases answer with
  | none => trivial
  | some a => exact fresh

section Calls
variable {limit base : Nat} {s s' : Heap} {free given : List Block} {b : Block}

theorem Solid.total_lt (ok : Solid limit base s free given) : total s.obtained < 2 ^ 32 := by
  have small := ok.small
  have bounded := ok.bounded
  unfold UNIT at small
  omega

theorem Solid.freed (ok : Solid limit base s free (b :: given)) {turns : Nat}
    (run : Umalloc.free turns s (plus b.addr 1) = some s') :
    ∃ free', Solid limit base s' free' given ∧ free'.length ≤ free.length + 1 ∧ ∃ c ∈ free',
      b.size ≤ c.size := by
  have high := ok.above b (by simp)
  have tiles : Tiles UNIT (b :: (free ++ given)) s.obtained := ok.tiles.perm List.perm_middle
  obtain ⟨free', put⟩ := ok.circle.put high tiles (ok.given b List.mem_cons_self) ok.total_lt run
  refine ⟨free', ⟨put.circle, by rw [put.obtained]; exact put.tiles, ?_, ?_,
    by rw [put.obtained]; exact ok.small, ok.bounded⟩, put.length, put.large⟩
  · intro c inside
    rcases List.mem_append.mp inside with left | right
    · rcases put.addrs c left with same | ⟨d, old, same⟩
      · rw [same]
        exact high
      · rw [← same]
        exact ok.above d (List.mem_append_left _ old)
    · exact ok.above c (by simp [right])
  · intro c inside
    have later : c ∈ b :: given := List.mem_cons_of_mem _ inside
    rw [put.same c.addr, ok.given c later]
    · intro same
      have clear := (List.pairwise_cons.mp tiles.clear).1 c (List.mem_append_right _ inside)
      have full := tiles.full b List.mem_cons_self
      have full' := tiles.full c (List.mem_cons_of_mem _ (List.mem_append_right _ inside))
      unfold Block.Clear Block.stop at clear
      omega
    · intro d mem same
      rcases List.mem_cons.mp mem with rfl | old
      · have far := ok.above c (List.mem_append_right _ later)
        unfold UNIT at far
        simp only at same
        omega
      · have outside := given_outside ok.tiles later old
        have full := ok.tiles.full d (List.mem_append_left _ old)
        unfold Block.stop at outside
        omega

theorem Solid.free_ends (ok : Solid limit base s free (b :: given)) {turns : Nat}
    (enough : free.length < turns) : ∃ s', Umalloc.free turns s (plus b.addr 1) = some s' :=
  have tiles : Tiles UNIT (b :: (free ++ given)) s.obtained := ok.tiles.perm List.perm_middle
  ok.circle.put_ends (Loose.of_tiles (ok.above b (by simp)) tiles) enough

theorem Solid.grow (ok : Solid limit base s free given) {a nu : Nat} (pos : 0 < nu)
    (fresh : FreshIn limit base s nu (some a)) :
    Solid limit base { s with hdr := setSize s.hdr a nu, obtained := ⟨a, nu⟩ :: s.obtained } free
      (⟨a, nu⟩ :: given) := by
  obtain ⟨high, clear, small⟩ := fresh
  have unit : UNIT = 16 := rfl
  have tiles : Tiles UNIT (⟨a, nu⟩ :: (free ++ given)) (⟨a, nu⟩ :: s.obtained) := by
    refine ok.tiles.cons ?_ (by simp only [unit]; omega)
    intro r inside x has mine
    have apart := clear r inside
    unfold Block.Clear Block.stop Block.Has at *
    unfold Block.stop at *
    omega
  have apart : ∀ c ∈ free ++ given, c.addr ≠ a := by
    intro c inside same
    have gap := (List.pairwise_cons.mp tiles.clear).1 c inside
    have full := ok.tiles.full c inside
    unfold Block.Clear Block.stop at gap
    rw [unit] at *
    simp only at gap
    omega
  have size : nu < 2 ^ 32 := by
    have bounded := ok.bounded
    unfold UNIT at small
    omega
  have ring := ok.circle
  refine ⟨⟨ring.linked.congr ?_, ring.sorted, ring.freep⟩, tiles.perm List.perm_middle.symm, ?_, ?_, ?_,
    ok.bounded⟩
  · intro c inside
    refine setSize_other ?_
    rcases List.mem_cons.mp inside with rfl | old
    · simp only
      omega
    · exact apart c (List.mem_append_left _ old)
  · intro c inside
    rcases List.mem_append.mp inside with left | right
    · exact ok.above c (List.mem_append_left _ left)
    · rcases List.mem_cons.mp right with rfl | old
      · exact high
      · exact ok.above c (List.mem_append_right _ old)
  · intro c inside
    rcases List.mem_cons.mp inside with rfl | old
    · show (setSize s.hdr a nu a).size = nu
      rw [setSize, upd_self]
      exact Nat.mod_eq_of_lt size
    · show (setSize s.hdr a nu c.addr).size = c.size
      rw [setSize_other (apart c (List.mem_append_right _ old))]
      exact ok.given c old
  · rw [total_cons, Nat.add_comm]
    exact small

theorem coreUnits_large (nu : Nat) : nu ≤ coreUnits nu ∧ 0 < coreUnits nu := by
  unfold coreUnits
  split <;> omega

theorem Solid.morecore (ok : Solid limit base s free given) {turns nu p a : Nat}
    (fresh : FreshIn limit base s (coreUnits nu) (some a))
    (run : Umalloc.morecore turns s nu (some a) = some (s', p)) :
    ∃ free', Solid limit base s' free' given ∧ p = s'.freep ∧ free'.length ≤ free.length + 1 ∧
      ∃ c ∈ free', nu ≤ c.size := by
  have large := coreUnits_large nu
  have grown := ok.grow large.2 fresh
  simp only [Umalloc.morecore, bind, Option.bind] at run
  split at run
  · cases run
  next freed =>
    obtain ⟨rfl, rfl⟩ := Prod.mk.inj (Option.some.inj run)
    obtain ⟨free', sound, length, c, inside, more⟩ := grown.freed freed
    exact ⟨free', sound, rfl, length, c, inside, Nat.le_trans large.1 more⟩

theorem Solid.morecore_ends (ok : Solid limit base s free given) {turns nu a : Nat}
    (fresh : FreshIn limit base s (coreUnits nu) (some a)) (enough : free.length < turns) :
    ∃ s' p, Umalloc.morecore turns s nu (some a) = some (s', p) := by
  obtain ⟨s', freed⟩ := (ok.grow (coreUnits_large nu).2 fresh).free_ends enough
  exact ⟨s', s'.freep, by simp only [Umalloc.morecore, freed]; rfl⟩

/-! ## The loop of `malloc` -/

/-- What happens at `p == freep`. -/
def askCore (turns nunits k : Nat) (s : Heap) : List (Option Nat) → Option (Heap × Nat)
  | [] => none
  | sbrk :: answers => do
      let (s, p) ← Umalloc.morecore turns s nunits sbrk
      if p = 0 then return (s, 0) else mallocLoop turns nunits k answers s p (s.hdr p).ptr

theorem mallocLoop_succ (turns nunits k : Nat) (answers : List (Option Nat)) (s : Heap)
    (prevp p : Nat) :
    mallocLoop turns nunits (k + 1) answers s prevp p =
      if nunits ≤ (s.hdr p).size then some (Umalloc.carve s nunits prevp p)
      else if p = s.freep then askCore turns nunits k s answers
      else mallocLoop turns nunits k answers s p (s.hdr p).ptr := by
  cases answers <;> rfl

theorem carve_obtained (s : Heap) (nunits prevp p : Nat) :
    (Umalloc.carve s nunits prevp p).1.obtained = s.obtained := by
  rw [Umalloc.carve]
  split <;> rfl

/-- The block of `nunits` units behind `ap` is out of the heap. -/
def Handed (limit base : Nat) (s : Heap) (given : List Block) (nunits ap : Nat) : Prop :=
  ∃ free n, ap = plus n.addr 1 ∧ n.size = nunits ∧ Solid limit base s free (n :: given)

/-- What `malloc` returns: nothing, or a block of the size asked for. -/
def Given (limit base : Nat) (s : Heap) (given : List Block) (nunits ap : Nat) : Prop :=
  (ap = 0 ∧ ∃ free, Solid limit base s free given) ∨ Handed limit base s given nunits ap

theorem Solid.carve (ok : Solid limit base s free given) {nunits prevp p : Nat} (pos : 0 < nunits)
    (prev : ∃ b ∈ (⟨base, 0⟩ :: free : List Block), b.addr = prevp) (next : (s.hdr prevp).ptr = p)
    (large : nunits ≤ (s.hdr p).size) :
    Handed limit base (Umalloc.carve s nunits prevp p).1 given nunits
      (Umalloc.carve s nunits prevp p).2 := by
  obtain ⟨free', n, size, result, carved⟩ :=
    ok.circle.carve ok.above ok.tiles ok.total_lt pos prev next large
  refine ⟨free', n, result, size, carved.circle, by rw [carved.obtained]; exact carved.tiles, ?_, ?_,
    by rw [carved.obtained]; exact ok.small, ok.bounded⟩
  · intro c inside
    rcases List.mem_append.mp inside with left | right
    · exact carved.above c (List.mem_cons_of_mem _ left)
    · rcases List.mem_cons.mp right with rfl | old
      · exact carved.above c List.mem_cons_self
      · exact ok.above c (List.mem_append_right _ old)
  · intro c inside
    rcases List.mem_cons.mp inside with rfl | old
    · exact carved.size
    · rw [carved.same c old]
      exact ok.given c old

theorem mallocLoop_handed {turns nunits : Nat} (pos : 0 < nunits) :
    ∀ (k : Nat) (s : Heap) (prevp p ap : Nat) (s' : Heap), Solid limit base s free given →
      (∃ b ∈ (⟨base, 0⟩ :: free : List Block), b.addr = prevp) → (s.hdr prevp).ptr = p →
      mallocLoop turns nunits k [] s prevp p = some (s', ap) →
      Handed limit base s' given nunits ap ∧ s'.obtained = s.obtained := by
  intro k
  induction k with
  | zero => intro s prevp p ap s' _ _ _ run; cases run
  | succ k ih =>
      intro s prevp p ap s' ok prev next run
      have here := ok.circle.closed prevp prev
      rw [next] at here
      rw [mallocLoop_succ] at run
      split at run
      next large =>
        have found := ok.carve pos prev next large
        have same := carve_obtained s nunits prevp p
        rw [Option.some.inj run] at found same
        exact ⟨found, same⟩
      next =>
        split at run
        · cases run
        · exact ih s p _ ap s' ok here rfl run

theorem free_obtained {turns ap : Nat} (run : Umalloc.free turns s ap = some s') :
    s'.obtained = s.obtained := by
  simp only [Umalloc.free, bind, Option.bind] at run
  split at run
  · cases run
  · obtain rfl := Option.some.inj run
    rfl

theorem Solid.freep_pos (ok : Solid limit base s free given) (low : 0 < base) : 0 < s.freep := by
  obtain ⟨b, mem, same⟩ := ok.circle.freep
  rcases List.mem_cons.mp mem with rfl | inside
  · rw [← same]
    exact low
  · have high := ok.above b (List.mem_append_left _ inside)
    omega

theorem Solid.askCore_handed (ok : Solid limit base s free given) (low : 0 < base)
    {turns nunits k a ap : Nat} (pos : 0 < nunits)
    (fresh : FreshIn limit base s (coreUnits nunits) (some a))
    (run : askCore turns nunits k s [some a] = some (s', ap)) :
    Handed limit base s' given nunits ap ∧ s'.obtained = ⟨a, coreUnits nunits⟩ :: s.obtained := by
  simp only [askCore, bind, Option.bind] at run
  split at run
  · cases run
  next result more =>
    obtain ⟨t, q⟩ := result
    obtain ⟨free', solid, rfl, -, -⟩ := ok.morecore fresh more
    have grown : t.obtained = ⟨a, coreUnits nunits⟩ :: s.obtained := by
      simp only [Umalloc.morecore, bind, Option.bind] at more
      split at more
      · cases more
      next freed =>
        obtain ⟨rfl, -⟩ := Prod.mk.inj (Option.some.inj more)
        exact free_obtained freed
    have some : ¬ t.freep = 0 := Nat.ne_of_gt (solid.freep_pos low)
    simp only [if_neg some] at run
    obtain ⟨handed, same⟩ := mallocLoop_handed pos k t t.freep _ ap s' solid solid.circle.freep rfl run
    exact ⟨handed, same.trans grown⟩

theorem mallocLoop_sound {turns nunits : Nat} (pos : 0 < nunits) (low : 0 < base) {sbrk : Option Nat} :
    ∀ (k : Nat) (s : Heap) (prevp p ap : Nat) (s' : Heap),
      Solid limit base s free given → FreshIn limit base s (coreUnits nunits) sbrk →
      (∃ b ∈ (⟨base, 0⟩ :: free : List Block), b.addr = prevp) → (s.hdr prevp).ptr = p →
      mallocLoop turns nunits k [sbrk] s prevp p = some (s', ap) →
        Given limit base s' given nunits ap := by
  intro k
  induction k with
  | zero => intro s prevp p ap s' _ _ _ _ run; cases run
  | succ k ih =>
      intro s prevp p ap s' ok fresh prev next run
      have here := ok.circle.closed prevp prev
      rw [next] at here
      rw [mallocLoop_succ] at run
      split at run
      next large =>
        have found := ok.carve pos prev next large
        rw [Option.some.inj run] at found
        exact Or.inr found
      next =>
        split at run
        next =>
          cases sbrk with
          | none =>
              obtain ⟨rfl, rfl⟩ := Prod.mk.inj (Option.some.inj run)
              exact Or.inl ⟨rfl, free, ok⟩
          | some a => exact Or.inr (ok.askCore_handed low pos fresh run).1
        next => exact ih s p _ ap s' ok fresh here rfl run

/-- From a free block on, the loop comes to one that is large enough before it is back. -/
theorem mallocLoop_finds {turns nunits : Nat} {p : Block} :
    ∀ (l : List Block) (k : Nat) (answers : List (Option Nat)) (s : Heap) (prevp : Nat),
      Linked s.hdr p.addr l → (∀ c ∈ l, c.addr ≠ s.freep) → p.addr = s.freep →
      (s.hdr p.addr).size = p.size → (∃ c ∈ p :: l, nunits ≤ c.size) → l.length < k →
      ∃ result, mallocLoop turns nunits k answers s prevp (first p.addr l) = some result := by
  intro l
  induction l with
  | nil =>
      rintro k answers s prevp - - - size ⟨c, inside, large⟩ more
      obtain ⟨k, rfl⟩ := Nat.exists_eq_succ_of_ne_zero (Nat.ne_of_gt (Nat.zero_lt_of_lt more))
      obtain rfl := List.mem_singleton.mp inside
      rw [← size] at large
      exact ⟨_, by rw [mallocLoop_succ,
        if_pos (show nunits ≤ (s.hdr (first c.addr [])).size from large)]⟩
  | cons d l ih =>
      rintro k answers s prevp linked apart start size ⟨c, inside, large⟩ more
      obtain ⟨k, rfl⟩ := Nat.exists_eq_succ_of_ne_zero (Nat.ne_of_gt (Nat.zero_lt_of_lt more))
      rw [mallocLoop_succ]
      split
      · exact ⟨_, rfl⟩
      next short =>
        have other : first p.addr (d :: l) ≠ s.freep := apart d List.mem_cons_self
        rw [if_neg other]
        have next : (s.hdr (first p.addr (d :: l))).ptr = first p.addr l := by
          show (s.hdr d.addr).ptr = _
          rw [linked.1]
        have rest : c ∈ p :: l := by
          rcases List.mem_cons.mp inside with rfl | later
          · exact List.mem_cons_self
          · rcases List.mem_cons.mp later with rfl | last
            · refine absurd ?_ short
              show nunits ≤ (s.hdr c.addr).size
              rw [linked.1]
              exact large
            · exact List.mem_cons_of_mem _ last
        rw [next]
        exact ih k answers s _ linked.2
          (fun e there => apart e (List.mem_cons_of_mem _ there)) start size
          ⟨c, rest, large⟩ (by simpa using more)

theorem Solid.around (ok : Solid limit base s free given) : ∃ p l, p.addr = s.freep ∧
    Linked s.hdr p.addr l ∧
    (s.hdr s.freep).ptr = first p.addr l ∧ (∀ c ∈ l, c.addr ≠ s.freep) ∧ (s.hdr p.addr).size = p.size ∧
    l.length = free.length ∧ ∀ c, c ∈ p :: l ↔ c ∈ (⟨base, 0⟩ :: free : List Block) := by
  obtain ⟨p, mem, start⟩ := ok.circle.freep
  obtain ⟨l, linked, length, members, distinct⟩ := ok.circle.rotate mem
  refine ⟨p, l, start, linked.2, ?_, ?_, ?_, length, members⟩
  · rw [← start, linked.1]
  · intro c inside same
    rw [List.map_cons, List.nodup_cons] at distinct
    exact distinct.1 (List.mem_map.mpr ⟨c, inside, by rw [same, start]⟩)
  · rw [linked.1]

theorem Solid.askCore_ends (ok : Solid limit base s free given) {turns nunits k : Nat}
    {sbrk : Option Nat}
    (fresh : FreshIn limit base s (coreUnits nunits) sbrk) (enough : free.length < turns)
    (more : free.length + 1 < k) : ∃ result, askCore turns nunits k s [sbrk] = some result := by
  cases sbrk with
  | none => exact ⟨(s, 0), rfl⟩
  | some a =>
      obtain ⟨t, p, run⟩ := ok.morecore_ends fresh enough
      obtain ⟨free', sound, rfl, length, c, inside, large⟩ := ok.morecore fresh run
      simp only [askCore, run, bind, Option.bind]
      split
      · exact ⟨_, rfl⟩
      next =>
        obtain ⟨p, l, start, linked, next, apart, size, count, members⟩ := sound.around
        rw [next]
        exact mallocLoop_finds l k [] t _ linked apart start size
          ⟨c, (members c).mpr (List.mem_cons_of_mem _ inside), large⟩ (by omega)

theorem mallocLoop_ends {turns nunits m : Nat} {p : Block} {answers : List (Option Nat)}
    (asks : ∀ k, m < k → ∃ result, askCore turns nunits k s answers = some result) :
    ∀ (l : List Block) (k prevp : Nat), Linked s.hdr p.addr l → p.addr = s.freep →
      l.length + m + 1 < k →
      ∃ result, mallocLoop turns nunits k answers s prevp (first p.addr l) = some result := by
  intro l
  induction l with
  | nil =>
      intro k prevp _ start more
      obtain ⟨k, rfl⟩ := Nat.exists_eq_succ_of_ne_zero (Nat.ne_of_gt (Nat.zero_lt_of_lt more))
      rw [mallocLoop_succ]
      split
      · exact ⟨_, rfl⟩
      · rw [if_pos (show first p.addr [] = s.freep from start)]
        simp only [List.length_nil] at more
        exact asks k (by omega)
  | cons d l ih =>
      intro k prevp linked start more
      obtain ⟨k, rfl⟩ := Nat.exists_eq_succ_of_ne_zero (Nat.ne_of_gt (Nat.zero_lt_of_lt more))
      simp only [List.length_cons] at more
      rw [mallocLoop_succ]
      split
      · exact ⟨_, rfl⟩
      · split
        · exact asks k (by omega)
        · have next : (s.hdr (first p.addr (d :: l))).ptr = first p.addr l := by
            show (s.hdr d.addr).ptr = _
            rw [linked.1]
          rw [next]
          exact ih k _ linked.2 start (by omega)

theorem Solid.mallocLoop_ends (ok : Solid limit base s free given) {turns nunits : Nat}
    {sbrk : Option Nat}
    (fresh : FreshIn limit base s (coreUnits nunits) sbrk) (enough : 2 * free.length + 3 < turns) :
    ∃ result, mallocLoop turns nunits turns [sbrk] s s.freep (s.hdr s.freep).ptr = some result := by
  obtain ⟨p, l, start, linked, next, -, -, count, -⟩ := ok.around
  rw [next]
  refine Umalloc.mallocLoop_ends (m := free.length + 1) ?_ l turns s.freep linked start (by omega)
  exact fun k more => ok.askCore_ends fresh (by omega) more

end Calls

/-! ## Programs -/

/-- The block behind a pointer of the program holds what was asked for. -/
def Backs (l : Live) (b : Block) : Prop := l.ap = plus b.addr 1 ∧ l.nbytes ≤ UNIT * (b.size - 1)

/-- `malloc` has not been called, or the heap is sound and each live pointer has its block. -/
def Whole (base : Nat) (s : State) : Prop :=
  (s.heap.freep = 0 ∧ s.heap.obtained = [] ∧ s.live = []) ∨
    ∃ free given, Sound base s.heap free given ∧ List.Forall₂ Backs s.live given

section Programs
variable {prog : Program} {s s' : State}

theorem units_spec {nbytes : Nat} (small : nbytes < 2 ^ 32) :
    0 < units nbytes ∧ nbytes ≤ UNIT * (units nbytes - 1) := by
  unfold units UNIT
  omega

/-- The heap as the loop of `malloc` finds it. -/
def ready (base : Nat) (s : Heap) : Heap :=
  if s.freep = 0 then { s with hdr := setSize (setPtr s.hdr base base) base 0, freep := base } else s

theorem Whole.ready (ok : Whole prog.base s) :
    ∃ free given, Sound prog.base (ready prog.base s.heap) free given ∧
      List.Forall₂ Backs s.live given ∧ (ready prog.base s.heap).obtained = s.heap.obtained := by
  rcases ok with ⟨new, nothing, none⟩ | ⟨free, given, sound, backs⟩
  · refine ⟨[], [], ⟨⟨⟨?_, trivial⟩, List.pairwise_singleton _ _, ⟨_, List.mem_cons_self, ?_⟩⟩,
      ?_, ?_, ?_, ?_⟩,
      ?_, ?_⟩
    · rw [Umalloc.ready, if_pos new]
      simp only [setSize, setPtr, upd_self]
      rfl
    · rw [Umalloc.ready, if_pos new]
    · rw [Umalloc.ready, if_pos new]
      simp only [nothing]
      exact Tiles.nil
    · exact fun _ no => absurd no List.not_mem_nil
    · exact fun _ no => absurd no List.not_mem_nil
    · rw [Umalloc.ready, if_pos new]
      simp only [nothing]
      exact Nat.zero_le _
    · rw [none]
      exact List.Forall₂.nil
    · rw [Umalloc.ready, if_pos new]
  · have old : s.heap.freep ≠ 0 := Nat.ne_of_gt (sound.solid.freep_pos prog.pos)
    have same : Umalloc.ready prog.base s.heap = s.heap := if_neg old
    rw [same]
    exact ⟨free, given, sound, backs, rfl⟩

theorem Fresh.ready {nu : Nat} {sbrk : Option Nat} {base : Nat} {h : Heap}
    (fresh : Fresh base h nu sbrk) :
    Fresh base (Umalloc.ready base h) nu sbrk := by
  have same : (Umalloc.ready base h).obtained = h.obtained := by
    unfold Umalloc.ready
    split <;> rfl
  cases sbrk with
  | none => trivial
  | some a =>
      unfold Fresh at fresh ⊢
      rw [same]
      exact fresh

theorem malloc_eq (base turns : Nat) (h : Heap) (nbytes : Nat) (sbrk : Option Nat) :
    malloc base turns h nbytes sbrk = mallocLoop turns (units nbytes) turns [sbrk] (ready base h)
      (ready base h).freep ((ready base h).hdr (ready base h).freep).ptr := rfl

theorem step_malloc {turns nbytes : Nat} {sbrk : Option Nat} (ok : Whole prog.base s)
    (run : step prog s (.malloc turns nbytes sbrk) = some s') : Whole prog.base s' := by
  simp only [step] at run
  split at run
  next enabled =>
    obtain ⟨small, fresh⟩ := enabled
    simp only [bind, Option.bind] at run
    split at run
    · cases run
    next result found =>
      obtain ⟨heap, ap⟩ := result
      obtain rfl := Option.some.inj run
      obtain ⟨free, given, sound, backs, -⟩ := ok.ready
      rw [malloc_eq] at found
      have spec := units_spec small
      have done := mallocLoop_sound spec.1 prog.pos turns _ _ _ ap heap sound.solid fresh.ready.freshIn
        sound.circle.freep rfl found
      rcases done with ⟨rfl, free', solid⟩ | ⟨free', n, result, size, solid⟩
      · exact Or.inr ⟨free', given, solid.sound, backs⟩
      · refine Or.inr ⟨free', n :: given, solid.sound, ?_⟩
        have some : ap ≠ 0 := by
          rw [result]
          unfold plus UNIT
          omega
        simp only [if_neg some]
        exact List.Forall₂.cons ⟨result, by rw [size]; exact spec.2⟩ backs
  · cases run

theorem Sound.perm {base : Nat} {h : Heap} {free given given' : List Block}
    (ok : Sound base h free given)
    (same : given.Perm given') : Sound base h free given' where
  circle := ok.circle
  tiles := ok.tiles.perm (same.append_left free)
  above := fun b inside => ok.above b ((same.append_left free).mem_iff.mpr inside)
  given := fun b inside => ok.given b (same.mem_iff.mpr inside)
  small := ok.small

theorem forall₂_split {α β : Type} {R : α → β → Prop} {l : α} {l2 : List α} :
    ∀ {l1 : List α} {g : List β}, List.Forall₂ R (l1 ++ l :: l2) g →
      ∃ g1 b g2, g = g1 ++ b :: g2 ∧ List.Forall₂ R l1 g1 ∧ R l b ∧ List.Forall₂ R l2 g2 := by
  intro l1
  induction l1 with
  | nil =>
      intro g both
      cases both with
      | cons back later => exact ⟨[], _, _, rfl, List.Forall₂.nil, back, later⟩
  | cons x l1 ih =>
      intro g both
      cases both with
      | cons back later =>
          obtain ⟨g1, b, g2, rfl, left, here, right⟩ := ih later
          exact ⟨_ :: g1, b, g2, rfl, List.Forall₂.cons back left, here, right⟩

theorem filter_backs {b : Block} {ap : Nat} (here : ap = plus b.addr 1) {ls : List Live}
    {gs : List Block}
    (backs : List.Forall₂ Backs ls gs) (away : ∀ c ∈ gs, c.addr ≠ b.addr) :
    (ls.filter fun x => x.ap ≠ ap) = ls := by
  induction backs with
  | nil => rfl
  | @cons l c ls gs back rest ih =>
      have differ : l.ap ≠ ap := by
        intro equal
        refine away c List.mem_cons_self ?_
        have first' := back.1
        unfold plus at first' here
        omega
      rw [List.filter_cons_of_pos (by simpa using differ),
        ih fun d inside => away d (List.mem_cons_of_mem _ inside)]

theorem Sound.live {base ap : Nat} {h : Heap} {free given : List Block} {ls : List Live}
    (ok : Sound base h free given) (backs : List.Forall₂ Backs ls given) (live : ap ∈ ls.map Live.ap) :
    ∃ b given', given.Perm (b :: given') ∧ ap = plus b.addr 1 ∧
      List.Forall₂ Backs (ls.filter fun l => l.ap ≠ ap) given' := by
  obtain ⟨l, mem, same⟩ := List.mem_map.mp live
  obtain ⟨l1, l2, rfl⟩ := List.append_of_mem mem
  obtain ⟨g1, b, g2, rfl, left, back, right⟩ := forall₂_split backs
  have here : ap = plus b.addr 1 := by rw [← same, back.1]
  refine ⟨b, g1 ++ g2, List.perm_middle, here, ?_⟩
  have tiles : Tiles UNIT (b :: (free ++ (g1 ++ g2))) h.obtained :=
    (ok.perm List.perm_middle).tiles.perm List.perm_middle
  -- no other block begins where this one does
  have apart : ∀ c ∈ g1 ++ g2, c.addr ≠ b.addr := by
    intro c inside equal
    have clear := (List.pairwise_cons.mp tiles.clear).1 c (List.mem_append_right _ inside)
    have full := tiles.full b List.mem_cons_self
    have full' := tiles.full c (List.mem_cons_of_mem _ (List.mem_append_right _ inside))
    unfold Block.Clear Block.stop at clear
    omega
  rw [List.filter_append, List.filter_cons_of_neg (by simp [same]),
    filter_backs here left fun c inside => apart c (List.mem_append_left _ inside),
    filter_backs here right fun c inside => apart c (List.mem_append_right _ inside)]
  exact List.rel_append left right

theorem step_free {turns ap : Nat} (ok : Whole prog.base s)
    (run : step prog s (.free turns ap) = some s') : Whole prog.base s' := by
  simp only [step] at run
  split at run
  next live =>
    rcases ok with ⟨-, -, none⟩ | ⟨free, given, sound, backs⟩
    · rw [none] at live
      exact absurd live List.not_mem_nil
    obtain ⟨b, given', perm, rfl, others⟩ := sound.live backs live
    simp only [bind, Option.bind] at run
    split at run
    · cases run
    next heap freed =>
      obtain rfl := Option.some.inj run
      obtain ⟨free', solid, -⟩ := (sound.perm perm).solid.freed freed
      exact Or.inr ⟨free', given', solid.sound, others⟩
  · cases run

theorem step_store {ap a : Nat} {h : Header} (ok : Whole prog.base s)
    (run : step prog s (.store ap a h) = some s') : Whole prog.base s' := by
  simp only [step] at run
  split at run
  next enabled =>
    obtain ⟨live, low, high⟩ := enabled
    obtain rfl := Option.some.inj run
    rcases ok with ⟨-, -, none⟩ | ⟨free, given, sound, backs⟩
    · rw [none] at live
      exact absurd live List.not_mem_nil
    obtain ⟨b, given', perm, rfl, -⟩ := sound.live backs live
    have addr : plus b.addr 1 - UNIT = b.addr := by
      unfold plus UNIT
      omega
    have mem : b ∈ given := perm.mem_iff.mpr List.mem_cons_self
    have stop : plus b.addr b.size = b.stop UNIT := rfl
    rw [addr] at low high
    rw [sound.given b mem, stop] at high
    have tiles : Tiles UNIT (b :: (free ++ given')) s.heap.obtained :=
      (sound.perm perm).tiles.perm List.perm_middle
    have outside : ∀ c ∈ free ++ given, c.addr ≠ a := by
      intro c inside same
      have all : c ∈ b :: (free ++ given') :=
        List.perm_middle.mem_iff.mp ((perm.append_left free).mem_iff.mp inside)
      rcases List.mem_cons.mp all with rfl | other
      · omega
      · have clear := (List.pairwise_cons.mp tiles.clear).1 c other
        have full := tiles.full c (List.mem_cons_of_mem _ other)
        unfold Block.Clear at clear
        unfold Block.stop at clear high
        omega
    have base : prog.base ≠ a := by
      have far := sound.above b (List.mem_append_right _ mem)
      omega
    have ring := sound.circle
    refine Or.inr ⟨free, given, ⟨⟨ring.linked.congr ?_, ring.sorted, ring.freep⟩, sound.tiles,
      sound.above, ?_,
      sound.small⟩, backs⟩
    · intro c inside
      refine upd_of_ne ?_ _ _
      rcases List.mem_cons.mp inside with rfl | later
      · exact base
      · exact outside c (List.mem_append_left _ later)
    · intro c inside
      show (upd s.heap.hdr a h c.addr).size = c.size
      rw [upd_of_ne (outside c (List.mem_append_right _ inside))]
      exact sound.given c inside
  · cases run

theorem Whole.malloc_ends (ok : Whole prog.base s) {nbytes : Nat} (small : nbytes < 2 ^ 32)
    {sbrk : Option Nat} (fresh : Fresh prog.base s.heap (coreUnits (units nbytes)) sbrk) :
    ∃ k, ∀ turns, k < turns → (step prog s (.malloc turns nbytes sbrk)).isSome := by
  obtain ⟨free, given, sound, -, -⟩ := ok.ready
  refine ⟨2 * free.length + 3, ?_⟩
  intro turns enough
  obtain ⟨⟨heap, ap⟩, done⟩ := sound.solid.mallocLoop_ends fresh.ready.freshIn enough
  rw [← malloc_eq] at done
  simp only [step]
  rw [if_pos ⟨small, fresh⟩]
  simp only [done, bind, Option.bind]
  rfl

/-- The loop of `free` ends. -/
theorem Whole.free_ends (ok : Whole prog.base s) {ap : Nat} (live : ap ∈ s.live.map Live.ap) :
    ∃ k, ∀ turns, k < turns → (step prog s (.free turns ap)).isSome := by
  rcases ok with ⟨-, -, none⟩ | ⟨free, given, sound, backs⟩
  · rw [none] at live
    exact absurd live List.not_mem_nil
  obtain ⟨b, given', perm, rfl, -⟩ := sound.live backs live
  refine ⟨free.length, ?_⟩
  intro turns enough
  obtain ⟨heap, done⟩ := (sound.perm perm).solid.free_ends enough
  simp only [step]
  rw [if_pos live]
  simp only [done, bind, Option.bind]
  rfl

end Programs

/-- In all runs of a program the free list is a circle in the order of the addresses, the free
blocks and the live ones are disjoint and make up what `sbrk` gave, each live block is as
large as was asked for, and the next call, whatever it is, comes to its end. -/
theorem heap_sound (prog : Program) (r : Run (step prog)) (hdr : Nat → Header)
    (begins : r.state 0 = start hdr) (i : Nat) (within : i ≤ r.len) :
    Whole prog.base (r.state i) ∧
    (∀ nbytes, nbytes < 2 ^ 32 → ∀ sbrk,
    Fresh prog.base (r.state i).heap (coreUnits (units nbytes)) sbrk →
      ∃ k, ∀ turns, k < turns → (step prog (r.state i) (.malloc turns nbytes sbrk)).isSome) ∧
    (∀ ap ∈ (r.state i).live.map Live.ap,
      ∃ k, ∀ turns, k < turns → (step prog (r.state i) (.free turns ap)).isSome) := by
  have ok : Whole prog.base (r.state i) := by
    refine r.invariant (Whole prog.base) ?_ ?_ i within
    · rw [begins]
      exact Or.inl ⟨rfl, rfl, rfl⟩
    · intro s e s' run ok
      cases e with
      | malloc turns nbytes sbrk => exact step_malloc ok run
      | free turns ap => exact step_free ok run
      | store ap a h => exact step_store ok run
  exact ⟨ok, fun _ small _ fresh => ok.malloc_ends small fresh, fun _ live => ok.free_ends live⟩

def twoBlocks : List Event :=
  [.malloc 5 100 (some 8192), .malloc 5 40 none, .free 5 73616]

def twoProg : Program := ⟨4096, by decide⟩

theorem twoBlocks_runs : (exec (step twoProg) (start fun _ => ⟨0, 0⟩) twoBlocks).isSome := by
  decide +kernel

theorem twoBlocks_sound : ∃ r : Run (step twoProg), r.len = 3 ∧ Whole 4096 (r.state 3) :=
  ⟨Run.ofEvents (step twoProg) (start fun _ => ⟨0, 0⟩) twoBlocks (.free 0 0) twoBlocks_runs, rfl,
    (heap_sound twoProg _ (fun _ => ⟨0, 0⟩)
      (Run.ofEvents_zero (step twoProg) _ twoBlocks (.free 0 0) twoBlocks_runs) 3 (Nat.le_refl 3)).1⟩

end Xv6Fcfs.Umalloc
