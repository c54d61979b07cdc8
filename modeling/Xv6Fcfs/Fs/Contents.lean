import Xv6Fcfs.Fs.Logging

/-!
# The contents of files

`readi` allocates nothing and delivers the bytes of the file; `writei` stores a prefix of
its source, whatever stops it, and touches no other file; `itrunc` gives all blocks back.
All of them keep the structure of the disk.
-/

set_option autoImplicit false

namespace Xv6Fcfs.Fs

open Xv6Fcfs.Lib

/-! ## `readi` and `writei` -/

section Contents
variable {sb : Superblock} {f f' : FileState}

theorem byteOf_block {d : Dinode} {disk : Disk} {off j addr : Nat}
    (block : blockOf d disk (off / BSIZE) = addr) (nonzero : addr ≠ 0)
    (inside : off % BSIZE + j < BSIZE) :
    byteOf d disk (off + j) = disk addr (off % BSIZE + j) := by
  have same : (off + j) / BSIZE = off / BSIZE := by
    simp only [BSIZE] at inside ⊢
    omega
  have rest : (off + j) % BSIZE = off % BSIZE + j := by
    simp only [BSIZE] at inside ⊢
    omega
  simp only [byteOf, same, block, rest, if_neg nonzero]

theorem chunk_pos {n tot : Nat} (off : Nat) (more : tot < n) : 0 < chunk n tot off := by
  have room : 0 < BSIZE - off % BSIZE := Nat.sub_pos_of_lt (Nat.mod_lt _ (by decide))
  simp only [chunk]
  omega

theorem chunk_le (n tot off : Nat) : chunk n tot off ≤ n - tot := Nat.min_le_left _ _

theorem chunk_inside {n tot off j : Nat} (bound : j < chunk n tot off) :
    off % BSIZE + j < BSIZE := by
  have room := Nat.min_le_right (n - tot) (BSIZE - off % BSIZE)
  simp only [chunk] at bound
  omega

theorem readLoop_spec (geo : Geometry sb) (work : Working sb f) (writable : Nat → Bool)
    (n start : Nat) (fit : start + n ≤ f.ip.size) : ∀ (fuel tot : Nat) (dst : Bytes),
    n ≤ tot + fuel → tot ≤ n → (∀ j, j < tot → dst j = byteOf f.ip f.disk (start + j)) →
    wp (readLoop sb writable n fuel tot (start + tot) dst) (fun _ => False)
      (fun r f' => f' = f ∧
        ((r.1 = n ∧ ∀ j, j < n → r.2 j = byteOf f.ip f.disk (start + j)) ∨
          (r.1 = -1 ∧ ∃ j, j < n ∧ writable j = false))) f := by
  intro fuel
  induction fuel with
  | zero =>
      intro tot dst enough within copied
      obtain rfl : tot = n := by omega
      exact ⟨rfl, Or.inl ⟨rfl, copied⟩⟩
  | succ fuel ih =>
      intro tot dst enough within copied
      simp only [readLoop, wp_ite, wp_bind, wp_pure, wp_get]
      refine ⟨fun more => ?_, fun done => ?_⟩
      · have size := work.size_le
        have low : (start + tot) / BSIZE < MAXFILE := by
          apply Nat.div_lt_of_lt_mul
          rw [Nat.mul_comm]
          omega
        have held : blockOf f.ip f.disk ((start + tot) / BSIZE) ≠ 0 := work.mapped (by
          have floor := Nat.div_mul_le_self (start + tot) BSIZE
          omega)
        apply wp_post (bmap_spec geo work low)
        intro addr f₁ found
        obtain ⟨rfl, nonzero⟩ := found.present held
        have block : blockOf f₁.ip f₁.disk ((start + tot) / BSIZE) = addr := found.slot nonzero
        refine ⟨fun zero => absurd zero nonzero, fun _ => ⟨fun ok => ?_, fun bad => ?_⟩⟩
        · rw [Nat.add_assoc]
          have some := chunk_pos (start + tot) more
          have most := chunk_le n tot (start + tot)
          apply ih
          · omega
          · omega
          · intro j bound
            simp only [copyBytes]
            by_cases old : tot ≤ j
            · have inside : j - tot < chunk n tot (start + tot) := by omega
              rw [if_pos ⟨old, bound⟩, ← byteOf_block block nonzero (chunk_inside inside)]
              congr 1
              omega
            · rw [if_neg fun both => old both.1]
              exact copied j (by omega)
        · have most := chunk_le n tot (start + tot)
          push Not at bad
          obtain ⟨j, bound, not⟩ := bad
          exact ⟨rfl, Or.inr ⟨trivial, tot + j, by omega, by simpa using not⟩⟩
      · obtain rfl : tot = n := by omega
        exact ⟨trivial, Or.inl ⟨rfl, copied⟩⟩

/-- How many bytes `readi` can deliver. -/
def readable (size off n : Nat) : Nat :=
  if size < off ∨ addU32 off n < off then 0 else if size < addU32 off n then size - off else n

theorem readable_fit {size off n : Nat} (small : size < 2 ^ 32) (word : n < 2 ^ 32)
    (inside : ¬ (size < off ∨ addU32 off n < off)) : off + readable size off n ≤ size := by
  have some : readable size off n = if size < addU32 off n then size - off else n := if_neg inside
  rw [some]
  unfold addU32 at *
  split <;> omega

theorem readable_lt {size off n j : Nat} (small : size < 2 ^ 32) (word : n < 2 ^ 32)
    (inside : j < readable size off n) : off + j < size := by
  by_cases out : size < off ∨ addU32 off n < off
  · have none : readable size off n = 0 := if_pos out
    omega
  · have fit := readable_fit small word out
    omega

theorem readable_all {size off n : Nat} (small : size < 2 ^ 32) (fit : off + n ≤ size) :
    readable size off n = n := by
  have sum : addU32 off n = off + n := Nat.mod_eq_of_lt (by omega)
  have inside : ¬ (size < off ∨ addU32 off n < off) := by omega
  have some : readable size off n = if size < addU32 off n then size - off else n := if_neg inside
  rw [some, if_neg (by omega)]

theorem readi_spec (geo : Geometry sb) (work : Working sb f) (writable : Nat → Bool) (off : Nat)
    {n : Nat} (word : n < 2 ^ 32) :
    wp (readi sb writable off n) (fun _ => False)
      (fun r f' => f' = f ∧
        ((r.1 = readable f.ip.size off n ∧
            ∀ j, j < readable f.ip.size off n → r.2 j = byteOf f.ip f.disk (off + j)) ∨
          (r.1 = -1 ∧ ∃ j, j < readable f.ip.size off n ∧ writable j = false))) f := by
  simp only [readi, wp_bind, wp_get, wp_ite, wp_pure]
  refine ⟨fun out => ?_, fun inside => ?_⟩
  · have none : readable f.ip.size off n = 0 := if_pos out
    rw [none]
    exact ⟨trivial, Or.inl ⟨rfl, fun j bound => by omega⟩⟩
  · have some : readable f.ip.size off n = if f.ip.size < addU32 off n then f.ip.size - off else n :=
      if_neg inside
    rw [← some]
    have fit := readable_fit work.fits.size word inside
    have loop := readLoop_spec geo work writable (readable f.ip.size off n) off fit
      (readable f.ip.size off n) 0 (fun _ => 0) (by omega) (by omega) (fun j bound => by omega)
    exact loop

/-- The slots that writing `n` bytes at `off` can use. -/
def touched (off n k : Nat) : Prop :=
  k = NDIRECT ∨ ∃ bn, off / BSIZE ≤ bn ∧ bn * BSIZE < off + n ∧ k = blockSlot bn

/-- The effect of writing at `off` from `src`: `r` bytes of at most `n` arrived.  Bytes
behind them can be lost only when the source is not readable throughout. -/
structure Written (sb : Superblock) (src : Nat → Option UInt8) (f : FileState) (off n r : Nat)
    (f' : FileState) : Prop where
  work : Working sb f'
  inum : f'.inum = f.inum
  fields : f'.ip = { f.ip with addrs := f'.ip.addrs }
  inodes : ∀ i, i < sb.ninodes → dinode sb f'.disk i = dinode sb f.disk i
  keeps : ∀ k, slotOf f.ip f.disk k ≠ 0 → slotOf f'.ip f'.disk k = slotOf f.ip f.disk k
  others : ∀ i, i < sb.ninodes → i ≠ f.inum → (dinode sb f.disk i).type ≠ 0 →
    ∀ o, byteOf (dinode sb f.disk i) f'.disk o = byteOf (dinode sb f.disk i) f.disk o
  count : r ≤ n
  stored : ∀ j, j < r → src j = some (byteOf f'.ip f'.disk (off + j))
  outside : ∀ o, o < off ∨ off + n ≤ o → byteOf f'.ip f'.disk o = byteOf f.ip f.disk o
  rest : (∀ j, j < n → (src j).isSome) →
    ∀ o, off + r ≤ o → byteOf f'.ip f'.disk o = byteOf f.ip f.disk o
  mapped : 0 < r → ∀ bn, bn * BSIZE < off + r → off < (bn + 1) * BSIZE →
    blockOf f'.ip f'.disk bn ≠ 0
  stops : (∀ j, j < n → (src j).isSome) → r < n →
    Full sb f'.disk ∧ (r = 0 ∨ (off + r) % BSIZE = 0) ∧
      blockOf f.ip f.disk ((off + r) / BSIZE) = 0
  noted : Noted (fun b => IsBitmap sb b ∨ Holds f' (touched off n) b) (Holds f' (· ≠ NDIRECT)) f f'

theorem Written.of_grown {src : Nat → Option UInt8} {off n : Nat} (work : Working sb f')
    (grown : Grown sb f f')
    (full : 0 < n → Full sb f'.disk ∧ blockOf f.ip f.disk (off / BSIZE) = 0)
    (noted : Noted (fun b => IsBitmap sb b ∨ Holds f' (touched off n) b) (fun _ => False) f f') :
    Written sb src f off n 0 f' where
  work := work
  inum := grown.inum
  fields := grown.fields
  inodes := grown.inodes
  keeps := grown.keeps
  others := grown.others
  count := Nat.zero_le n
  stored j bound := by omega
  outside o _ := grown.bytes o
  rest _ o _ := grown.bytes o
  mapped some := absurd some (Nat.lt_irrefl 0)
  stops _ less := ⟨(full less).1, Or.inl rfl, (full less).2⟩
  noted := noted.mono (fun _ => id) fun _ none => none.elim

/-- The first `m` bytes, written after blocks were added, and then the others. -/
theorem Written.append {src : Nat → Option UInt8} {off n m r : Nat} {g h : FileState}
    (first : Written sb src f off m m g) (second : Written sb (fun j => src (m + j)) g (off + m)
      (n - m) r h) (pos : 0 < m) (le : m ≤ n) (edge : m = n ∨ (off + m) % BSIZE = 0) : Written sb
      src f off n (m + r) h where
  work := second.work
  inum := second.inum.trans first.inum
  fields := by rw [second.fields, first.fields]
  inodes i bound := (second.inodes i bound).trans (first.inodes i bound)
  keeps k held := by
    have one := first.keeps k held
    rw [second.keeps k (by rwa [one]), one]
  others i bound differ alloc o := by
    have same := first.inodes i bound
    have two := second.others i bound (by rwa [first.inum]) (by rwa [same]) o
    rw [same] at two
    exact two.trans (first.others i bound differ alloc o)
  count := by
    have most := second.count
    omega
  stored j bound := by
    by_cases early : j < m
    · rw [first.stored j early, second.outside (off + j) (Or.inl (by omega))]
    · have late := second.stored (j - m) (by omega)
      rw [show m + (j - m) = j from by omega, show off + m + (j - m) = off + j from by omega] at late
      exact late
  outside o apart := by
    rw [second.outside o (by omega), first.outside o (by omega)]
  rest ok o far := by
    rw [second.rest (fun j bound => ok (m + j) (by omega)) o (by omega),
      first.rest (fun j bound => ok j (by omega)) o (by omega)]
  mapped _ bn low high := by
    by_cases early : bn * BSIZE < off + m
    · have here := first.mapped pos bn early high
      have kept := second.keeps _ here
      rw [blockOf, kept]
      exact here
    · apply second.mapped (by omega) bn (by omega)
      rw [Nat.add_mul] at high ⊢
      simp only [BSIZE] at *
      omega
  stops ok less := by
    obtain ⟨full, place, hole⟩ := second.stops (fun j bound => ok (m + j) (by omega)) (by omega)
    refine ⟨full, Or.inr ?_, ?_⟩
    rotate_left
    · -- what is not mapped now was not mapped before
      by_contra held
      rw [← Nat.add_assoc] at held
      rw [blockOf, first.keeps _ held] at hole
      exact held hole
    rcases place with zero | aligned
    · rcases edge with all | aligned
      · omega
      · rw [zero, Nat.add_zero]
        exact aligned
    · rw [← Nat.add_assoc]
      exact aligned
  noted := by
    have early : ∀ k, touched off m k → touched off n k := by
      rintro k (rfl | ⟨bn, low, high, rfl⟩)
      · exact Or.inl rfl
      · exact Or.inr ⟨bn, low, by omega, rfl⟩
    have late : ∀ k, touched (off + m) (n - m) k → touched off n k := by
      rintro k (rfl | ⟨bn, low, high, rfl⟩)
      · exact Or.inl rfl
      · refine Or.inr ⟨bn, ?_, by omega, rfl⟩
        exact Nat.le_trans (Nat.div_le_div_right (by omega)) low
    refine (first.noted.mono ?_ ?_).trans (second.noted.mono ?_ fun _ => id)
    · exact fun b may => may.imp_right fun holds => holds.keep second.keeps early
    · exact fun b lost => lost.keep second.keeps fun _ => id
    · exact fun b may => may.imp_right fun holds => holds.keep (fun _ _ => rfl) late

theorem Working.writeData (geo : Geometry sb) (work : Working sb f) {bn addr : Nat} (data : Block)
    (block : blockOf f.ip f.disk bn = addr) (nonzero : addr ≠ 0) :
    Working sb (storeBlock addr data f) ∧
    (∀ i, i < sb.ninodes → dinode sb (storeBlock addr data f).disk i = dinode sb f.disk i) ∧
    (∀ k, slotOf f.ip (storeBlock addr data f).disk k = slotOf f.ip f.disk k) ∧
    (∀ off, byteOf f.ip (storeBlock addr data f).disk off =
      if off / BSIZE = bn then data (off % BSIZE) else byteOf f.ip f.disk off) ∧
    ∀ i, i < sb.ninodes → i ≠ f.inum → (dinode sb f.disk i).type ≠ 0 → ∀ off,
      byteOf (dinode sb f.disk i) (storeBlock addr data f).disk off =
        byteOf (dinode sb f.disk i) f.disk off := by
  have held : slotOf f.ip f.disk (blockSlot bn) ≠ 0 := by
    rw [← block] at nonzero
    exact nonzero
  have low : nmeta sb ≤ addr := by
    have range := (work.slot_range held).1
    rwa [← block]
  have inodes : ∀ i, i < sb.ninodes →
      dinode sb (storeBlock addr data f).disk i = dinode sb f.disk i :=
    fun i bound => dinode_update_data geo _ _ bound low
  have other : ∀ i, i < sb.ninodes → i ≠ f.inum → (dinode sb f.disk i).type ≠ 0 →
      (∀ k, slotOf (dinode sb f.disk i) (storeBlock addr data f).disk k =
        slotOf (dinode sb f.disk i) f.disk k) ∧
      ∀ off, byteOf (dinode sb f.disk i) (storeBlock addr data f).disk off =
        byteOf (dinode sb f.disk i) f.disk off := by
    intro i bound differ alloc
    apply file_same
    intro k held'
    simp only [storeBlock]
    apply upd_of_ne
    rw [← block]
    exact work.slot_ne_other bound differ alloc held'
  have slot : ∀ k, slotOf f.ip (storeBlock addr data f).disk k = slotOf f.ip f.disk k := by
    intro k
    apply slotOf_congr rfl
    intro has
    simp only [storeBlock]
    apply upd_of_ne
    rw [← block, addrs_eq_slotOf f.disk (Nat.le_refl _)]
    intro same
    exact blockSlot_ne bn (work.slot_inj held same.symm)
  have types : ∀ i, i < sb.ninodes → current sb (storeBlock addr data f) i = current sb f i := by
    intro i bound
    by_cases own : i = f.inum
    · subst own
      rw [current_self]
      exact current_self sb (storeBlock addr data f)
    · have away : i ≠ (storeBlock addr data f).inum := own
      rw [current_ne own, current_ne away, inodes i bound]
  have every : ∀ i, i < sb.ninodes → (current sb f i).type ≠ 0 → ∀ k,
      slotOf (current sb f i) (storeBlock addr data f).disk k =
        slotOf (current sb f i) f.disk k := by
    intro i bound alloc k
    by_cases own : i = f.inum
    · subst own
      rw [current_self]
      exact slot k
    · rw [current_ne own] at alloc ⊢
      exact (other i bound own alloc).1 k
  refine ⟨⟨work.inum, work.alloc, work.fits, ?_, ?_, ?_⟩, inodes, slot, ?_,
    fun i bound differ alloc => (other i bound differ alloc).2⟩
  · apply work.str.owned.congr
    · exact fun b limit => bitmap_update_data geo _ _ limit low
    · apply slots_congr
      · intro i bound
        rw [types i bound]
      · intro i bound alloc k
        rw [types i bound]
        exact every i bound alloc k
  · intro i bound alloc bn' inside
    rw [types i bound] at alloc inside ⊢
    rw [blockOf, every i bound alloc]
    exact work.str.mapped i bound alloc bn' inside
  · intro i bound alloc
    rw [types i bound] at alloc ⊢
    exact work.str.bound i bound alloc
  · intro off
    by_cases here : off / BSIZE = bn
    · rw [if_pos here]
      have block' : blockOf f.ip (storeBlock addr data f).disk (off / BSIZE) = addr := by
        rw [blockOf, slot, here, ← blockOf, block]
      simp only [byteOf, block', if_neg nonzero]
      simp only [storeBlock, upd_self]
    · rw [if_neg here]
      apply byteOf_congr (slot _)
      intro held'
      simp only [storeBlock]
      apply upd_of_ne
      rw [← block]
      intro same
      exact here (blockSlot_inj (work.slot_inj held' same))

theorem Written.turn (geo : Geometry sb) {src : Nat → Option UInt8} {n off addr m r : Nat}
    {g : FileState} (found : Mapped sb f (blockSlot (off / BSIZE)) addr g)
    (noted : Noted (fun b => IsBitmap sb b ∨ Holds g (touched off n) b) (fun _ => False) f g)
    (nonzero : addr ≠ 0) (pos : 0 < m) (le : m ≤ n) (inside : ∀ j, j < m → off % BSIZE + j < BSIZE)
    (copied : (r = m ∧ m = n ∧ ∀ j < m, (src j).isSome) ∨ (r = 0 ∧ ¬ ∀ j < m, (src j).isSome)) :
    Written sb src f off n r
      (storeBlock addr (copyin src 0 (off % BSIZE) m (g.disk addr)) g) := by
  have block : blockOf g.ip g.disk (off / BSIZE) = addr := found.slot nonzero
  obtain ⟨work, inodes, slot, bytes, others⟩ := found.work.writeData geo
    (copyin src 0 (off % BSIZE) m (g.disk addr)) block nonzero
  have grown := found.grown
  -- a byte of the file after the copy
  have byte : ∀ o, byteOf g.ip (storeBlock addr (copyin src 0 (off % BSIZE) m (g.disk addr)) g).disk o =
      if off ≤ o ∧ o < off + m ∧ ∀ j < o - off + 1, (src j).isSome then (src (o - off)).getD 0
      else byteOf f.ip f.disk o := by
    intro o
    rw [bytes, grown.bytes]
    have last := inside (m - 1) (by omega)
    by_cases here : o / BSIZE = off / BSIZE
    · rw [if_pos here]
      have old : byteOf f.ip f.disk o = g.disk addr (o % BSIZE) := by
        rw [← grown.bytes, byteOf, here, block, if_neg nonzero]
      have shift : off ≤ o → o - off = o % BSIZE - off % BSIZE := by
        intro after
        simp only [BSIZE] at here ⊢
        omega
      have range : (off % BSIZE ≤ o % BSIZE ∧ o % BSIZE < off % BSIZE + m) ↔
          (off ≤ o ∧ o < off + m) := by
        simp only [BSIZE] at here ⊢
        omega
      simp only [copyin, Nat.zero_add]
      by_cases cond : off ≤ o ∧ o < off + m
      · rw [← shift cond.1, old]
        simp only [← and_assoc, range]
      · have not : ¬ (off % BSIZE ≤ o % BSIZE ∧ o % BSIZE < off % BSIZE + m) :=
          fun both => cond (range.mp both)
        rw [if_neg fun all => not ⟨all.1, all.2.1⟩, if_neg fun all => cond ⟨all.1, all.2.1⟩, old]
    · rw [if_neg here]
      have away : ¬ (off ≤ o ∧ o < off + m) := by
        simp only [BSIZE] at here last ⊢
        omega
      rw [if_neg fun all => away ⟨all.1, all.2.1⟩]
  have whole : 0 < r → r = m ∧ ∀ j < m, (src j).isSome := by
    intro some
    rcases copied with ⟨all, -, ok⟩ | ⟨zero, -⟩
    · exact ⟨all, ok⟩
    · omega
  refine ⟨work, grown.inum, grown.fields, ?_, ?_, ?_, ?_, ?_, ?_, ?_, ?_, ?_, ?_⟩
  · intro i bound
    rw [inodes i bound, grown.inodes i bound]
  · intro k held
    rw [← grown.keeps k held]
    exact slot k
  · intro i bound differ alloc o
    have same := grown.inodes i bound
    have two := others i bound (by rwa [grown.inum]) (by rwa [same]) o
    rw [same] at two
    exact two.trans (grown.others i bound differ alloc o)
  · rcases copied with ⟨rfl, -⟩ | ⟨rfl, -⟩
    · exact le
    · omega
  · intro j bound
    obtain ⟨rfl, ok⟩ := whole (by omega)
    obtain ⟨v, value⟩ := Option.isSome_iff_exists.mp (ok j bound)
    have cond : off ≤ off + j ∧ off + j < off + r ∧ ∀ l < off + j - off + 1, (src l).isSome :=
      ⟨by omega, by omega, fun l near => ok l (by omega)⟩
    have result := byte (off + j)
    rw [if_pos cond, show off + j - off = j from by omega, value] at result
    rw [value]
    exact congrArg some result.symm
  · intro o apart
    have result := byte o
    rw [if_neg fun all => by omega] at result
    exact result
  · intro readable o far
    have result := byte o
    rcases copied with ⟨rfl, -⟩ | ⟨-, bad⟩
    · rw [if_neg fun all => by omega] at result
      exact result
    · exact absurd (fun j bound => readable j (by omega)) bad
  · intro some bn low high
    obtain ⟨rfl, -⟩ := whole some
    have last := inside (r - 1) (by omega)
    have here : bn = off / BSIZE := by
      rw [Nat.add_mul] at high
      simp only [BSIZE] at low high last ⊢
      omega
    have mapped : blockOf g.ip (storeBlock addr (copyin src 0 (off % BSIZE) r (g.disk addr)) g).disk
        bn = addr := by
      rw [here, blockOf, slot]
      exact block
    exact fun zero => nonzero (mapped.symm.trans zero)
  · intro readable less
    rcases copied with ⟨rfl, rfl, -⟩ | ⟨-, bad⟩
    · omega
    · exact absurd (fun j bound => readable j (by omega)) bad
  · -- the copy changes a data block that it does not log
    refine (noted.mono ?_ fun _ none => none.elim).trans
      ⟨id, fun _ => id, fun _ => Or.inl, ?_, Or.inl rfl⟩
    · exact fun b may => may.imp_right fun holds => holds.keep (fun k _ => slot k) fun _ => id
    · intro b _
      by_cases here : b = addr
      · refine Or.inr ⟨by rw [here]; exact nonzero, blockSlot (off / BSIZE), blockSlot_ne _, ?_⟩
        rw [here]
        exact (slot _).trans block
      · exact Or.inl (upd_of_ne here _ _)

theorem Written.logWrite {src : Nat → Option UInt8} {off n r b : Nat}
    (written : Written sb src f off n r f') (may : Holds f' (touched off n) b) :
    Written sb src f off n r (logWrite b f') where
  work := ⟨written.work.inum, written.work.alloc, written.work.fits, written.work.str⟩
  inum := written.inum
  fields := written.fields
  inodes := written.inodes
  keeps := written.keeps
  others := written.others
  count := written.count
  stored := written.stored
  outside := written.outside
  rest := written.rest
  mapped := written.mapped
  stops := written.stops
  noted := by
    refine written.noted.trans ⟨absorb_nodup, ?_, ?_, fun _ _ => Or.inl rfl, Or.inl rfl⟩
    · exact fun c listed => mem_absorb.mpr (Or.inr listed)
    · intro c listed
      rcases mem_absorb.mp listed with rfl | old
      · exact Or.inr (Or.inr may)
      · exact Or.inl old

theorem chunk_edge (n tot off : Nat) :
    chunk n tot off = n - tot ∨ (off + chunk n tot off) % BSIZE = 0 := by
  simp only [chunk, BSIZE]
  omega

theorem copyin_shift (src : Nat → Option UInt8) (tot o m : Nat) (data : Block) :
    copyin src tot o m data = copyin (fun j => src (tot + j)) 0 o m data := by
  funext i
  simp only [copyin, Nat.zero_add]

theorem writeLoop_spec (geo : Geometry sb) (src : Nat → Option UInt8) (n : Nat) :
    ∀ (fuel tot off : Nat) (f : FileState), Working sb f → n ≤ tot + fuel → tot ≤ n →
    off + (n - tot) ≤ MAXFILE * BSIZE →
    wp (writeLoop sb src n fuel tot off) (fun _ => False)
      (fun r f' => ∃ k, r = tot + k ∧ Written sb (fun j => src (tot + j)) f off (n - tot) k f') f := by
  intro fuel
  induction fuel with
  | zero =>
      intro tot off f work enough within fit
      exact ⟨0, rfl, Written.of_grown work (Grown.refl sb f) (fun more => by omega) (Noted.refl _ _ f)⟩
  | succ fuel ih =>
      intro tot off f work enough within fit
      simp only [writeLoop, wp_ite, wp_bind, wp_pure, wp_modify]
      refine ⟨fun more => ?_, fun done =>
        ⟨0, rfl, Written.of_grown work (Grown.refl sb f) (fun more => by omega) (Noted.refl _ _ f)⟩⟩
      have low : off / BSIZE < MAXFILE := by
        apply Nat.div_lt_of_lt_mul
        rw [Nat.mul_comm]
        omega
      apply wp_post (bmap_noted geo work low)
      rintro addr g ⟨found, noted⟩
      have here : ∀ m, 0 < m → ∀ k, k = NDIRECT ∨ k = blockSlot (off / BSIZE) → touched off m k := by
        rintro m pos k (rfl | rfl)
        · exact Or.inl rfl
        · have floor := Nat.div_mul_le_self off BSIZE
          exact Or.inr ⟨off / BSIZE, Nat.le_refl _, by omega, rfl⟩
      have within' : ∀ m, 0 < m →
          Noted (fun b => IsBitmap sb b ∨ Holds g (touched off m) b) (fun _ => False) f g := by
        intro m pos
        apply noted.mono _ fun _ => id
        exact fun b may => may.imp_right fun holds => holds.keep (fun _ _ => rfl) (here m pos)
      refine ⟨fun zero => ⟨0, rfl, Written.of_grown found.work found.grown
        (fun _ => ⟨found.full zero, ?_⟩) (within' _ (by omega))⟩, fun nonzero => ?_⟩
      · by_contra held
        exact (found.present held).2 zero
      have some := chunk_pos off more
      have most := chunk_le n tot off
      rw [copyin_shift]
      refine ⟨fun ok => ?_, fun bad => ?_⟩
      · have first : Written sb (fun j => src (tot + j)) f off (chunk n tot off) (chunk n tot off) _ :=
          Written.turn geo found (within' _ some) nonzero some (Nat.le_refl _)
            (fun j bound => chunk_inside bound) (Or.inl ⟨rfl, rfl, ok⟩)
        have slot := (found.work.writeData geo (copyin (fun j => src (tot + j)) 0 (off % BSIZE)
          (chunk n tot off) (g.disk addr)) (found.slot nonzero) nonzero).2.2.1
        have logged := first.logWrite (b := addr) ⟨nonzero, blockSlot (off / BSIZE),
          here _ some _ (Or.inr rfl), (slot _).trans (found.slot nonzero)⟩
        apply wp_post (ih (tot + chunk n tot off) (off + chunk n tot off) _ logged.work (by omega)
          (by omega) (by omega))
        rintro r h ⟨k, rfl, second⟩
        refine ⟨chunk n tot off + k, by omega, ?_⟩
        apply logged.append _ some most (chunk_edge n tot off)
        rw [show n - (tot + chunk n tot off) = n - tot - chunk n tot off from by omega] at second
        simpa only [Nat.add_assoc] using second
      · refine ⟨0, rfl, ?_⟩
        exact Written.turn geo found (within' _ (by omega)) nonzero some most
          (fun j bound => chunk_inside bound) (Or.inr ⟨rfl, bad⟩)

end Contents

/-! ## `iupdate`, `writei` and `itrunc` -/

/-- The inode in memory is the one on the disk, which is structured. -/
structure Settled (sb : Superblock) (f : FileState) : Prop where
  inum : f.inum < sb.ninodes
  ip : f.ip = dinode sb f.disk f.inum
  str : Structured sb (dinode sb f.disk) f.disk

section Update
variable {sb : Superblock} {f f' : FileState}

theorem Settled.working (settled : Settled sb f) (alloc : f.ip.type ≠ 0) : Working sb f := by
  have same : current sb f = dinode sb f.disk := by
    rw [current, settled.ip]
    exact upd_eq_self _ _
  refine ⟨settled.inum, alloc, ?_, ?_⟩
  · rw [settled.ip]
    exact dinode_fits sb f.disk f.inum
  · rw [same]
    exact settled.str

/-- The structure does not depend on the blocks in front of the data, but for what they
say of inodes and of the free map. -/
theorem Structured.congr {inodes inodes' : Nat → Dinode} {disk disk' : Disk}
    (str : Structured sb inodes disk) (same : ∀ i, i < sb.ninodes → inodes' i = inodes i)
    (bits : ∀ b, b < sb.size → bitmap sb disk' b = bitmap sb disk b)
    (data : ∀ c, nmeta sb ≤ c → disk' c = disk c) : Structured sb inodes' disk' := by
  have slot : ∀ i, i < sb.ninodes → (inodes i).type ≠ 0 →
      ∀ k, slotOf (inodes i) disk' k = slotOf (inodes i) disk k := by
    intro i bound alloc
    apply (file_same _).1
    intro k held
    exact data _ (str.slot_range bound alloc held).1
  refine ⟨?_, ?_, ?_⟩
  · apply str.owned.congr bits
    apply slots_congr
    · intro i bound
      rw [same i bound]
    · intro i bound alloc k
      rw [same i bound]
      exact slot i bound alloc k
  · intro i bound alloc bn inside
    rw [same i bound] at alloc inside ⊢
    rw [blockOf, slot i bound alloc]
    exact str.mapped i bound alloc bn inside
  · intro i bound alloc
    rw [same i bound] at alloc ⊢
    exact str.bound i bound alloc

/-- The state after `iupdate`. -/
def updated (sb : Superblock) (f : FileState) : FileState :=
  { f with
    disk := setDinode sb f.disk f.inum f.ip
    log := absorb (IBLOCK sb f.inum) f.log }

theorem dinode_updated_self (fits : f.ip.Fits) :
    dinode sb (updated sb f).disk f.inum = f.ip := dinode_setDinode_self f.disk fits

theorem dinode_updated_ne {i : Nat} (differ : i ≠ f.inum) :
    dinode sb (updated sb f).disk i = dinode sb f.disk i := dinode_setDinode_ne f.disk f.ip differ

theorem updated_noted {allowed lost : Nat → Prop} (may : allowed (IBLOCK sb f.inum)) :
    Noted allowed lost f (updated sb f) := by
  have step : Noted allowed lost f _ := Noted.writeBlock lost f
    (putDinode (f.disk (IBLOCK sb f.inum)) (dinodeOffset f.inum) f.ip) may
  exact ⟨step.nodup, step.grows, step.only, step.same, Or.inl rfl⟩

theorem updated_settled (geo : Geometry sb) (inum : f.inum < sb.ninodes) (fits : f.ip.Fits)
    (str : Structured sb (current sb f) f.disk) : Settled sb (updated sb f) := by
  refine ⟨inum, (dinode_updated_self fits).symm, ?_⟩
  apply str.congr
  · intro i bound
    by_cases own : i = f.inum
    · subst own
      rw [dinode_updated_self fits, current_self]
    · rw [dinode_updated_ne own, current_ne own]
  · exact fun b limit => bitmap_setDinode geo f.disk f.ip inum limit
  · exact fun c data => data_setDinode geo f.disk f.ip inum data

/-- The effect of a completed `writei`. -/
structure Wrote (sb : Superblock) (src : Nat → Option UInt8) (f : FileState) (off n r : Nat)
    (f' : FileState) : Prop where
  settled : Settled sb f'
  inum : f'.inum = f.inum
  ip : f'.ip = { f.ip with size := max f.ip.size (off + r), addrs := f'.ip.addrs }
  inodes : ∀ i, i < sb.ninodes → i ≠ f.inum → dinode sb f'.disk i = dinode sb f.disk i
  others : ∀ i, i < sb.ninodes → i ≠ f.inum → (dinode sb f.disk i).type ≠ 0 →
    ∀ o, byteOf (dinode sb f.disk i) f'.disk o = byteOf (dinode sb f.disk i) f.disk o
  count : r ≤ n
  stored : ∀ j, j < r → src j = some (byteOf f'.ip f'.disk (off + j))
  outside : ∀ o, o < off ∨ off + n ≤ o → byteOf f'.ip f'.disk o = byteOf f.ip f.disk o
  rest : (∀ j, j < n → (src j).isSome) →
    ∀ o, off + r ≤ o → byteOf f'.ip f'.disk o = byteOf f.ip f.disk o
  stops : (∀ j, j < n → (src j).isSome) → r < n →
    Full sb f'.disk ∧ (r = 0 ∨ (off + r) % BSIZE = 0) ∧
      blockOf f.ip f.disk ((off + r) / BSIZE) = 0
  noted : Noted (fun b => b = IBLOCK sb f.inum ∨ IsBitmap sb b ∨ Holds f' (touched off n) b)
    (Holds f' (· ≠ NDIRECT)) f f'

/-- When `writei` refuses to start. -/
def refused (size off n : Nat) : Prop :=
  size < off ∨ addU32 off n < off ∨ MAXFILE * BSIZE < addU32 off n

theorem growSize_ip (off : Nat) : (growSize off f).ip = { f.ip with size := max f.ip.size off } := by
  unfold growSize
  split
  · rename_i less
    simp only [setSize, Nat.max_eq_right (Nat.le_of_lt less)]
  · rename_i more
    rw [Nat.max_eq_left (by omega)]

theorem growSize_disk (off : Nat) : (growSize off f).disk = f.disk := by
  unfold growSize
  split <;> rfl

theorem growSize_inum (off : Nat) : (growSize off f).inum = f.inum := by
  unfold growSize
  split <;> rfl

theorem Written.grow (geo : Geometry sb) {src : Nat → Option UInt8} {off n r : Nat}
    (written : Written sb src f off n r f') (start : off ≤ f.ip.size)
    (fit : off + n ≤ MAXFILE * BSIZE) :
    Wrote sb src f off n r (updated sb (growSize (off + r) f')) := by
  have work := written.work
  have count := written.count
  have size : f'.ip.size = f.ip.size := by rw [written.fields]
  have limit := work.size_le
  have fits : (growSize (off + r) f').ip.Fits := by
    rw [growSize_ip]
    have wide := work.fits.size
    refine ⟨work.fits.type, work.fits.major, work.fits.minor, work.fits.nlink, ?_,
      work.fits.addrs, work.fits.outside⟩
    simp only [MAXFILE, NDIRECT, NINDIRECT, BSIZE] at fit
    simp only
    omega
  have inum : (growSize (off + r) f').inum < sb.ninodes := by
    rw [growSize_inum]
    exact work.inum
  have now : current sb (growSize (off + r) f') =
      upd (dinode sb f'.disk) f'.inum (growSize (off + r) f').ip := by
    rw [current, growSize_disk, growSize_inum]
  have self : current sb (growSize (off + r) f') f'.inum =
      { f'.ip with size := max f'.ip.size (off + r) } := by
    rw [now, upd_self, growSize_ip]
  have other : ∀ i, i ≠ f'.inum → current sb (growSize (off + r) f') i = current sb f' i := by
    intro i differ
    rw [now, upd_of_ne differ, current_ne differ]
  have str : Structured sb (current sb (growSize (off + r) f')) (growSize (off + r) f').disk := by
    rw [growSize_disk]
    refine ⟨?_, ?_, ?_⟩
    · apply work.str.owned.congr (fun _ _ => rfl)
      apply slots_congr
      · intro i _
        by_cases own : i = f'.inum
        · rw [own, self, current_self]
        · rw [other i own]
      · intro i _ _ k
        by_cases own : i = f'.inum
        · rw [own, self, current_self]
          exact slotOf_congr rfl fun _ => rfl
        · rw [other i own]
    · intro i bound alloc bn inside
      by_cases own : i = f'.inum
      · subst own
        rw [self] at inside ⊢
        have block : blockOf { f'.ip with size := max f'.ip.size (off + r) } f'.disk bn =
            blockOf f'.ip f'.disk bn := slotOf_congr rfl fun _ => rfl
        rw [block]
        by_cases old : bn * BSIZE < f'.ip.size
        · exact work.mapped old
        · simp only at inside
          apply written.mapped (by omega) bn (by omega)
          rw [Nat.add_mul]
          simp only [BSIZE] at *
          omega
      · rw [other i own] at alloc inside ⊢
        exact work.str.mapped i bound alloc bn inside
    · intro i bound alloc
      by_cases own : i = f'.inum
      · rw [own, self]
        simp only
        omega
      · rw [other i own] at alloc ⊢
        exact work.str.bound i bound alloc
  have settled := updated_settled geo inum fits str
  -- neither the size nor the inode block is part of the bytes
  have data : ∀ c, nmeta sb ≤ c → (updated sb (growSize (off + r) f')).disk c = f'.disk c := by
    intro c low
    have same : (updated sb (growSize (off + r) f')).disk c = (growSize (off + r) f').disk c :=
      data_setDinode geo _ _ inum low
    rw [same, growSize_disk]
  have bytes : ∀ o, byteOf (updated sb (growSize (off + r) f')).ip
      (updated sb (growSize (off + r) f')).disk o = byteOf f'.ip f'.disk o := by
    intro o
    have first : byteOf (updated sb (growSize (off + r) f')).ip
        (updated sb (growSize (off + r) f')).disk o =
        byteOf f'.ip (updated sb (growSize (off + r) f')).disk o := by
      simp only [updated, growSize_ip]
      exact byteOf_congr (slotOf_congr rfl fun _ => rfl) fun _ => rfl
    rw [first]
    apply (file_same _).2
    intro k held
    exact data _ (work.slot_range held).1
  -- the same blocks in the same slots
  have slots : ∀ k, slotOf (updated sb (growSize (off + r) f')).ip
      (updated sb (growSize (off + r) f')).disk k = slotOf f'.ip f'.disk k := by
    intro k
    have first : slotOf (updated sb (growSize (off + r) f')).ip
        (updated sb (growSize (off + r) f')).disk k =
        slotOf f'.ip (updated sb (growSize (off + r) f')).disk k := by
      simp only [updated, growSize_ip]
      exact slotOf_congr rfl fun _ => rfl
    rw [first]
    apply (file_same _).1
    intro l held
    exact data _ (work.slot_range held).1
  have keep : ∀ {K : Nat → Prop} {b : Nat}, Holds f' K b →
      Holds (updated sb (growSize (off + r) f')) K b :=
    fun holds => holds.keep (fun k _ => slots k) fun _ => id
  have size' : Noted (fun b => b = IBLOCK sb f.inum ∨ IsBitmap sb b ∨
      Holds (updated sb (growSize (off + r) f')) (touched off n) b)
      (Holds (updated sb (growSize (off + r) f')) (· ≠ NDIRECT)) f (growSize (off + r) f') := by
    refine (written.noted.mono ?_ fun b lost => keep lost).setAddrs (growSize_disk _) ?_ ?_
    · exact fun b may => Or.inr (may.imp_right keep)
    · unfold growSize
      split <;> rfl
    · rw [growSize_ip]
      exact Or.inl rfl
  refine ⟨settled, ?_, ?_, ?_, ?_, count, ?_, ?_, ?_, ?_, size'.trans (updated_noted ?_)⟩
  · simp only [updated, growSize_inum]
    exact written.inum
  · simp only [updated, growSize_ip]
    rw [written.fields]
  · intro i bound differ
    rw [dinode_updated_ne (by rw [growSize_inum, written.inum]; exact differ), growSize_disk]
    exact written.inodes i bound
  · intro i bound differ alloc o
    rw [← written.others i bound differ alloc o]
    have same := written.inodes i bound
    have away : i ≠ f'.inum := by
      rw [written.inum]
      exact differ
    rw [← same] at alloc ⊢
    apply (file_same _).2
    intro k held
    exact data _ (work.other_range bound away alloc held)
  · intro j bound
    rw [bytes]
    exact written.stored j bound
  · intro o apart
    rw [bytes]
    exact written.outside o apart
  · intro ok o far
    rw [bytes]
    exact written.rest ok o far
  · intro ok less
    obtain ⟨full, place, hole⟩ := written.stops ok less
    refine ⟨?_, place, hole⟩
    intro b bound
    have same : bitmap sb (updated sb (growSize (off + r) f')).disk b =
        bitmap sb (growSize (off + r) f').disk b := bitmap_setDinode geo _ _ inum bound
    rw [same, growSize_disk]
    exact full b bound
  · left
    rw [growSize_inum, written.inum]

theorem writei_spec (geo : Geometry sb) (settled : Settled sb f) (alloc : f.ip.type ≠ 0)
    (src : Nat → Option UInt8) (off : Nat) {n : Nat} (word : n < 2 ^ 32) :
    wp (writei sb src off n) (fun _ => False)
      (fun r f' => (r = -1 ∧ f' = f ∧ refused f.ip.size off n) ∨
        (¬ refused f.ip.size off n ∧ ∃ k : Nat, r = k ∧ Wrote sb src f off n k f')) f := by
  have work := settled.working alloc
  simp only [writei, wp_bind, wp_get, wp_ite, wp_pure]
  refine ⟨?_, fun inside => ⟨?_, fun small => ?_⟩⟩
  · rintro (out | wrap)
    · exact Or.inl ⟨trivial, trivial, Or.inl out⟩
    · exact Or.inl ⟨trivial, trivial, Or.inr (Or.inl wrap)⟩
  · intro large
    exact Or.inl ⟨trivial, trivial, Or.inr (Or.inr large)⟩
  · have wide := work.fits.size
    have fit : off + n ≤ MAXFILE * BSIZE := by
      unfold addU32 at *
      omega
    apply wp_post (writeLoop_spec geo src n n 0 off f work (by omega) (by omega) (by omega))
    rintro r f₁ ⟨k, rfl, written⟩
    simp only [Nat.zero_add, Nat.sub_zero] at written ⊢
    simp only [wp_modify, iupdate]
    refine Or.inr ⟨?_, k, rfl, written.grow geo (by omega) fit⟩
    rintro (out | wrap | large)
    · exact inside (Or.inl out)
    · exact inside (Or.inr wrap)
    · exact small large

end Update

/-! The slots of an inode that `itrunc` has already given back count as empty. -/

/-- The slots without those of inode `i` that `gone` tells. -/
def dropSlots (i : Nat) (gone : Nat → Prop) [DecidablePred gone] (slot : Nat × Nat → Nat)
    (x : Nat × Nat) : Nat :=
  if x.1 = i ∧ gone x.2 then 0 else slot x

/-- The state of `itrunc` after it has freed the blocks of the slots `gone`. -/
structure Truncating (sb : Superblock) (f : FileState) (gone : Nat → Prop) [DecidablePred gone]
    (g : FileState) : Prop where
  inum : g.inum = f.inum
  fields : g.ip = { f.ip with addrs := g.ip.addrs }
  inodes : ∀ i, i < sb.ninodes → dinode sb g.disk i = dinode sb f.disk i
  data : ∀ c, nmeta sb ≤ c → g.disk c = f.disk c
  owned : Owned (nmeta sb) sb.size (bitmap sb g.disk)
    (dropSlots f.inum gone (slots sb (current sb f) f.disk))
  noted : Noted (IsBitmap sb) (fun _ => False) f g

section Truncate
variable {sb : Superblock} {f g : FileState}

theorem Truncating.congr {gone gone' : Nat → Prop} [DecidablePred gone] [DecidablePred gone']
    (state : Truncating sb f gone g)
    (same : ∀ k, slotOf f.ip f.disk k ≠ 0 → (gone' k ↔ gone k)) (work : Working sb f) :
    Truncating sb f gone' g where
  inum := state.inum
  fields := state.fields
  inodes := state.inodes
  data := state.data
  noted := state.noted
  owned := by
    apply state.owned.congr (fun _ _ => rfl)
    rintro ⟨i, k⟩
    simp only [dropSlots]
    by_cases own : i = f.inum
    · subst own
      rw [slots_eq work.inum (by rw [current_self]; exact work.alloc), current_self]
      by_cases held : slotOf f.ip f.disk k = 0
      · simp [held]
      · simp only [same k held]
    · simp [own]

theorem Truncating.bfree_spec (geo : Geometry sb) (work : Working sb f) {gone q : Nat → Prop}
    [DecidablePred gone] [DecidablePred q] {k : Nat} (state : Truncating sb f gone g)
    (held : slotOf f.ip f.disk k ≠ 0) (still : ¬ gone k) (more : ∀ l, q l ↔ gone l ∨ l = k) :
    wp (bfree sb (slotOf f.ip f.disk k)) (fun _ => False)
      (fun _ g' => g'.ip = g.ip ∧ Truncating sb f q g') g := by
  have slot : dropSlots f.inum gone (slots sb (current sb f) f.disk) (f.inum, k) =
      slotOf f.ip f.disk k := by
    simp only [dropSlots, still, and_false, if_false]
    rw [slots_eq work.inum (by rw [current_self]; exact work.alloc), current_self]
  have used := state.owned.used_of_slot (x := (f.inum, k)) (by rwa [slot])
  rw [slot] at used
  have limit := (work.slot_range held).2
  apply wp_post (wp_and (Fs.bfree_spec geo g limit used) (bfree_noted (fun _ => False) limit))
  rintro _ g' ⟨⟨inum, ip, freed⟩, noted⟩
  refine ⟨ip, inum.trans state.inum, by rw [ip]; exact state.fields, ?_, ?_, ?_,
    state.noted.trans noted⟩
  · intro i bound
    rw [freed.inodes i bound, state.inodes i bound]
  · intro c low
    rw [freed.data c low, state.data c low]
  · apply state.owned.release (x := (f.inum, k)) (by rwa [slot])
    · rw [slot]
      exact freed.cleared
    · simp only [dropSlots, (more k).mpr (Or.inr rfl), and_self, if_true]
    · rintro ⟨i, l⟩ differ
      simp only [dropSlots]
      by_cases own : i = f.inum
      · have away : l ≠ k := fun same => differ (by rw [own, same])
        simp only [more l, away, or_false]
      · simp [own]

theorem itruncDirect_spec (geo : Geometry sb) (work : Working sb f) :
    wp (forFrom (itruncDirect sb) 0 NDIRECT) (fun _ => False)
      (fun _ g => Truncating sb f (· < NDIRECT) g ∧
        g.ip.addrs = fun k => if k < NDIRECT then 0 else f.ip.addrs k) f := by
  have loop := wp_forFrom (E := fun _ : Stop => False) (m := itruncDirect sb)
    (fun i g => Truncating sb f (· < i) g ∧ g.ip.addrs = fun k => if k < i then 0 else f.ip.addrs k)
    NDIRECT 0 f ?_ ?_
  · simpa using loop
  · rintro i g - high ⟨state, addrs⟩
    simp only [itruncDirect, wp_bind, wp_get, wp_ite, wp_pure]
    have here : g.ip.addrs i = slotOf f.ip f.disk i := by
      rw [addrs, slotOf_addr (by omega)]
      simp
    refine ⟨fun empty => ⟨?_, ?_⟩, fun held => ?_⟩
    · apply state.congr _ work
      intro k some
      have away : k ≠ i := by
        rintro rfl
        exact some (here.symm.trans empty)
      omega
    · rw [addrs]
      funext k
      by_cases at' : k = i
      · subst at'
        rw [here] at empty
        rw [slotOf_addr (by omega)] at empty
        simp [empty]
      · have both : k < i + 1 ↔ k < i := by omega
        simp only [both]
    · rw [here] at held ⊢
      apply wp_post (state.bfree_spec geo work held (Nat.lt_irrefl i)
        (q := fun k => k < i + 1) (fun l => by omega))
      rintro _ g' ⟨ip, next⟩
      simp only [wp_modify, setAddr]
      refine ⟨⟨next.inum, ?_, next.inodes, next.data, next.owned, ?_⟩, ?_⟩
      · rw [next.fields]
      · refine next.noted.setAddrs rfl rfl (Or.inl ?_)
        exact upd_of_ne (by omega) _ _
      · rw [ip, addrs]
        funext k
        by_cases at' : k = i
        · subst at'
          simp
        · have both : k < i + 1 ↔ k < i := by omega
          simp only [upd_of_ne at', both]
  · refine ⟨⟨rfl, rfl, fun _ _ => rfl, fun _ _ => rfl, ?_, Noted.refl _ _ f⟩, ?_⟩
    · apply work.str.owned.congr (fun _ _ => rfl)
      intro x
      simp [dropSlots]
    · simp

theorem itruncEntries_spec (geo : Geometry sb) (work : Working sb f) (has : f.ip.addrs NDIRECT ≠ 0)
    (start : Truncating sb f (· < NDIRECT) g) :
    wp (forFrom (itruncEntry sb (f.disk (f.ip.addrs NDIRECT))) 0 NINDIRECT) (fun _ => False)
      (fun _ g' => g'.ip = g.ip ∧ Truncating sb f (· ≠ NDIRECT) g') g := by
  have loop := wp_forFrom (E := fun _ : Stop => False)
    (m := itruncEntry sb (f.disk (f.ip.addrs NDIRECT)))
    (fun j g' => g'.ip = g.ip ∧
      Truncating sb f (fun k => k < NDIRECT ∨ (NDIRECT < k ∧ k < NDIRECT + 1 + j)) g')
    NINDIRECT 0 g ?_ ?_
  · apply wp_post loop
    rintro _ g' ⟨ip, state⟩
    refine ⟨ip, state.congr ?_ work⟩
    intro k held
    -- behind the entries there are no slots
    have inside : k ≤ NDIRECT + NINDIRECT := by
      by_contra out
      exact held (slotOf_none (by omega) (by simp [out]))
    omega
  · rintro j g' - high ⟨ip, state⟩
    have here : indirect (f.disk (f.ip.addrs NDIRECT)) j = slotOf f.ip f.disk (NDIRECT + 1 + j) := by
      rw [slotOf_entry (by omega) (by omega) has]
      congr 1
      omega
    simp only [itruncEntry, here, wp_ite, wp_pure]
    refine ⟨fun empty => ⟨ip, state.congr ?_ work⟩, fun held => ?_⟩
    · intro k some
      have away : k ≠ NDIRECT + 1 + j := by
        rintro rfl
        exact some empty
      omega
    · apply wp_post (state.bfree_spec geo work held (by omega)
        (q := fun k => k < NDIRECT ∨ (NDIRECT < k ∧ k < NDIRECT + 1 + (j + 1)))
        (fun l => by omega))
      rintro _ g'' ⟨ip', next⟩
      exact ⟨ip'.trans ip, next⟩
  · exact ⟨rfl, start.congr (fun k _ => by omega) work⟩

theorem itruncIndirect_spec (geo : Geometry sb) (work : Working sb f)
    (state : Truncating sb f (· < NDIRECT) g)
    (addrs : g.ip.addrs = fun k => if k < NDIRECT then 0 else f.ip.addrs k) :
    wp (itruncIndirect sb) (fun _ => False)
      (fun _ g' => Truncating sb f (fun _ => True) g' ∧ g'.ip.addrs = fun _ => 0) g := by
  have last : g.ip.addrs NDIRECT = f.ip.addrs NDIRECT := by
    rw [addrs]
    simp
  simp only [itruncIndirect, wp_bind, wp_get, wp_ite, wp_pure, last]
  refine ⟨fun none => ⟨?_, ?_⟩, fun has => ?_⟩
  · apply state.congr _ work
    intro k held
    have low : k < NDIRECT := by
      by_contra high
      by_cases edge : k = NDIRECT
      · rw [edge, slotOf_addr (Nat.le_refl _)] at held
        exact held none
      · exact held (slotOf_none (by omega) (by simp [none]))
    simp [low]
  · rw [addrs]
    funext k
    rcases Nat.lt_trichotomy k NDIRECT with low | rfl | high
    · simp [low]
    · simp [none]
    · simp [Nat.not_lt.mpr (Nat.le_of_lt high), work.fits.outside k high]
  · have held : slotOf f.ip f.disk NDIRECT ≠ 0 := by rwa [slotOf_addr (Nat.le_refl _)]
    have block : g.disk (f.ip.addrs NDIRECT) = f.disk (f.ip.addrs NDIRECT) := by
      apply state.data
      have range := (work.slot_range held).1
      rwa [slotOf_addr (Nat.le_refl _)] at range
    rw [block]
    apply wp_post (itruncEntries_spec geo work has state)
    rintro _ g₁ ⟨ip₁, state₁⟩
    have free := state₁.bfree_spec geo work held (by simp) (q := fun _ => True)
      (fun l => by simp; omega)
    rw [slotOf_addr (Nat.le_refl _)] at free
    apply wp_post free
    rintro _ g₂ ⟨ip₂, state₂⟩
    simp only [wp_modify, setAddr]
    refine ⟨⟨state₂.inum, ?_, state₂.inodes, state₂.data, state₂.owned, ?_⟩, ?_⟩
    · rw [state₂.fields]
    · refine state₂.noted.setAddrs rfl rfl (Or.inr (Or.inl ?_))
      exact upd_self NDIRECT 0 g₂.ip.addrs
    · rw [ip₂, ip₁, addrs]
      funext k
      rcases Nat.lt_trichotomy k NDIRECT with low | rfl | high
      · simp [upd_of_ne (Nat.ne_of_lt low), low]
      · simp
      · simp [upd_of_ne (Nat.ne_of_gt high), Nat.not_lt.mpr (Nat.le_of_lt high),
          work.fits.outside k high]

/-- The effect of `itrunc`: the inode is empty and everything else is as it was. -/
structure Truncated (sb : Superblock) (f f' : FileState) : Prop where
  settled : Settled sb f'
  inum : f'.inum = f.inum
  ip : f'.ip = { f.ip with size := 0, addrs := fun _ => 0 }
  inodes : ∀ i, i < sb.ninodes → i ≠ f.inum → dinode sb f'.disk i = dinode sb f.disk i
  data : ∀ c, nmeta sb ≤ c → f'.disk c = f.disk c
  noted : Noted (fun b => b = IBLOCK sb f.inum ∨ IsBitmap sb b) (fun _ => False) f f'

theorem Truncating.settle (geo : Geometry sb) (work : Working sb f)
    (state : Truncating sb f (fun _ => True) g) (addrs : g.ip.addrs = fun _ => 0) :
    Truncated sb f (updated sb (setSize 0 g)) := by
  have ip : (setSize 0 g).ip = { f.ip with size := 0, addrs := fun _ => 0 } := by
    simp only [setSize]
    rw [state.fields, addrs]
  have inum : (setSize 0 g).inum = f.inum := state.inum
  have fits : (setSize 0 g).ip.Fits := by
    rw [ip]
    exact ⟨work.fits.type, work.fits.major, work.fits.minor, work.fits.nlink, by simp, by simp,
      fun _ _ => rfl⟩
  have self : current sb (setSize 0 g) f.inum = { f.ip with size := 0, addrs := fun _ => 0 } := by
    rw [← ip, ← inum]
    exact current_self sb (setSize 0 g)
  have other : ∀ i, i < sb.ninodes → i ≠ f.inum →
      current sb (setSize 0 g) i = current sb f i := by
    intro i bound differ
    rw [current_ne (by rwa [inum]), current_ne differ]
    exact state.inodes i bound
  have empty : ∀ k, slotOf { f.ip with size := 0, addrs := fun _ => 0 } g.disk k = 0 := by
    intro k
    simp [slotOf]
  have slot : ∀ i, i < sb.ninodes → i ≠ f.inum → (current sb f i).type ≠ 0 →
      ∀ k, slotOf (current sb f i) g.disk k = slotOf (current sb f i) f.disk k := by
    intro i bound differ alloc
    apply (file_same _).1
    intro k held
    exact state.data _ (work.str.slot_range bound alloc held).1
  have str : Structured sb (current sb (setSize 0 g)) (setSize 0 g).disk := by
    refine ⟨?_, ?_, ?_⟩
    · apply state.owned.congr (fun _ _ => rfl)
      rintro ⟨i, k⟩
      simp only [dropSlots, slots, and_true]
      by_cases own : i = f.inum
      · subst own
        rw [self]
        simp only [setSize, empty, if_true, ite_self]
      · simp only [if_neg own]
        by_cases bound : i < sb.ninodes
        · rw [other i bound own]
          by_cases alloc : (current sb f i).type ≠ 0
          · simp only [setSize]
            rw [slot i bound own alloc]
          · rw [if_neg fun both => alloc both.2, if_neg fun both => alloc both.2]
        · rw [if_neg fun both => bound both.1, if_neg fun both => bound both.1]
    · intro i bound alloc bn inside
      by_cases own : i = f.inum
      · subst own
        rw [self] at inside
        simp at inside
      · rw [other i bound own] at alloc inside ⊢
        simp only [setSize]
        rw [blockOf, slot i bound own alloc]
        exact work.str.mapped i bound alloc bn inside
    · intro i bound alloc
      by_cases own : i = f.inum
      · subst own
        rw [self]
        exact Nat.zero_le _
      · rw [other i bound own] at alloc ⊢
        exact work.str.bound i bound alloc
  have inside : (setSize 0 g).inum < sb.ninodes := by
    rw [inum]
    exact work.inum
  have emptied : Noted (fun b => b = IBLOCK sb f.inum ∨ IsBitmap sb b) (fun _ => False) f
      (setSize 0 g) :=
    (state.noted.mono (fun _ => Or.inr) fun _ => id).setAddrs rfl rfl (Or.inl rfl)
  refine ⟨updated_settled geo inside fits str, inum, ip, ?_, ?_,
    emptied.trans (updated_noted (Or.inl (by rw [inum])))⟩
  · intro i bound differ
    rw [dinode_updated_ne (by rwa [inum])]
    exact state.inodes i bound
  · intro c low
    have same : (updated sb (setSize 0 g)).disk c = (setSize 0 g).disk c :=
      data_setDinode geo _ _ inside low
    rw [same]
    exact state.data c low

theorem itrunc_spec (geo : Geometry sb) (work : Working sb f) :
    wp (itrunc sb) (fun _ => False) (fun _ f' => Truncated sb f f') f := by
  unfold itrunc
  apply wp_seq (itruncDirect_spec geo work)
  rintro _ g ⟨state, addrs⟩
  apply wp_seq (itruncIndirect_spec geo work state addrs)
  rintro _ h ⟨done, none⟩
  simp only [wp_bind, wp_modify, iupdate]
  exact done.settle geo work none

end Truncate

end Xv6Fcfs.Fs
