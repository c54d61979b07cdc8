import Xv6Fcfs.Vm.Resize

/-!
# Copies byte by byte

`copyin`, `copyout` and `copyinstr` work in pieces of a page.  Each is what a copy of one byte
after the other would be: it goes on as long as the bytes can be reached, and a byte can be
reached when its page is the user's or is still to be given to the process.
-/

set_option autoImplicit false

namespace Xv6Fcfs.Vm

open Xv6Fcfs.Lib

/-! ## Bytes of a view -/

def viewByte (V : View) (a : Nat) : UInt8 :=
  match V (PGROUNDDOWN a) with
  | some (_, b) => b (a % PGSIZE)
  | none => 0

/-- The `n` bytes from `a` on; addresses wrap. -/
def viewBytes (V : View) (a n : Nat) : List UInt8 :=
  (List.range n).map fun k => viewByte V (wrap64 (a + k))

/-- The byte `k` from `a` on is in a page of the view. -/
def InView (V : View) (a k : Nat) : Prop := V (PGROUNDDOWN (wrap64 (a + k))) ≠ none

section Turns
variable {V : View} {a len k : Nat}

theorem wrap64_lt (a : Nat) : wrap64 a < 2 ^ 64 := Nat.mod_lt a (by decide)

theorem turn_addr (word : a < 2 ^ 64) (less : k < chunk a len) : wrap64 (a + k) = a + k ∧
    PGROUNDDOWN (wrap64 (a + k)) = PGROUNDDOWN a ∧ (a + k) % PGSIZE = a - PGROUNDDOWN a + k := by
  have page := chunk_page less
  have wrap : wrap64 (a + k) = a + k := by
    simp only [wrap64, chunk, PGROUNDDOWN, PGSIZE] at *
    omega
  refine ⟨wrap, by rw [wrap, page], ?_⟩
  simp only [chunk, PGROUNDDOWN, PGSIZE] at *
  omega

theorem turn_next (more : len - chunk a len ≠ 0) (k : Nat) :
    wrap64 (wrap64 (PGROUNDDOWN a + PGSIZE) + k) = wrap64 (a + (chunk a len + k)) := by
  rw [chunk_end more]
  simp only [wrap64]
  omega

theorem inView_turn (word : a < 2 ^ 64) (less : k < chunk a len) :
    InView V a k ↔ V (PGROUNDDOWN a) ≠ none := by
  rw [InView, (turn_addr word less).2.1]

theorem inView_next (more : len - chunk a len ≠ 0) :
    InView V (wrap64 (PGROUNDDOWN a + PGSIZE)) k ↔ InView V a (chunk a len + k) := by
  rw [InView, InView, turn_next more]

theorem viewBytes_turn (word : a < 2 ^ 64) {flags : Nat} {b : Bytes}
    (page : V (PGROUNDDOWN a) = some (flags, b)) {n : Nat} (most : n ≤ chunk a len) :
    viewBytes V a n = slice b (a - PGROUNDDOWN a) n := by
  refine List.map_congr_left ?_
  intro k member
  have less : k < chunk a len := Nat.lt_of_lt_of_le (List.mem_range.mp member) most
  obtain ⟨wrap, same, offset⟩ := turn_addr word less
  rw [viewByte, same, page]
  simp only [wrap, offset]

theorem viewBytes_next (more : len - chunk a len ≠ 0) (n : Nat) :
    viewBytes V a (chunk a len) ++ viewBytes V (wrap64 (PGROUNDDOWN a + PGSIZE)) n =
      viewBytes V a (chunk a len + n) := by
  simp only [viewBytes, List.range_add, List.map_append, List.map_map, Function.comp_def,
    turn_next more]

end Turns

/-! ## `copyin` -/

section Copyin
variable {V : View}

/-- How a copy ends: with all bytes, or before a byte that is in no page. -/
inductive CopiedIn (V : View) (a len : Nat) (dst : List UInt8) : Int × List UInt8 → Prop where
  | all (inside : ∀ k, k < len → InView V a k) : CopiedIn V a len dst (0, dst ++ viewBytes V a len)
  | stop (j i : Nat) (less : j < len) (missing : ¬ InView V a j) (before : ∀ k, k < j → InView V a k)
      (most : i ≤ j) : CopiedIn V a len dst (-1, dst ++ viewBytes V a i)

theorem copyinView_spec : ∀ (fuel a len : Nat) (dst : List UInt8), len ≤ fuel → a < 2 ^ 64 →
    CopiedIn V a len dst (copyinView V fuel a len dst) := by
  intro fuel
  induction fuel with
  | zero =>
      intro a len dst enough word
      obtain rfl : len = 0 := by omega
      have all := @CopiedIn.all V a 0 dst fun k less => by omega
      simpa [copyinView, viewBytes] using all
  | succ fuel ih =>
      intro a len dst enough word
      rw [copyinView]
      by_cases zero : len = 0
      · subst zero
        have all := @CopiedIn.all V a 0 dst fun k less => by omega
        simpa [viewBytes] using all
      rw [if_neg zero]
      obtain ⟨some, most⟩ := chunk_le a zero
      cases page : V (PGROUNDDOWN a) with
      | none =>
          have stop := @CopiedIn.stop V a len dst 0 0 (by omega)
            (by rw [inView_turn word some, page]; exact fun no => no rfl) (fun k less => by omega)
              (Nat.le_refl 0)
          simpa [viewBytes] using stop
      | some entry =>
          obtain ⟨flags, b⟩ := entry
          have here : ∀ k, k < chunk a len → InView V a k := by
            intro k less
            rw [inView_turn word less, page]
            rintro ⟨⟩
          simp only
          rw [← viewBytes_turn word page (Nat.le_refl _)]
          by_cases last : len - chunk a len = 0
          · have whole : chunk a len = len := by omega
            have ends : copyinView V fuel (wrap64 (PGROUNDDOWN a + PGSIZE)) 0
                (dst ++ viewBytes V a (chunk a len)) = (0, dst ++ viewBytes V a (chunk a len)) := by
              cases fuel <;> simp [copyinView]
            rw [last, ends, whole]
            exact .all fun k less => here k (by omega)
          · have next := ih (wrap64 (PGROUNDDOWN a + PGSIZE)) (len - chunk a len)
              (dst ++ viewBytes V a (chunk a len)) (by omega) (wrap64_lt _)
            have beyond : ∀ k, chunk a len ≤ k →
                (InView V (wrap64 (PGROUNDDOWN a + PGSIZE)) (k - chunk a len) ↔ InView V a k) := by
              intro k above
              rw [inView_next last, Nat.add_sub_cancel' above]
            generalize copyinView V fuel (wrap64 (PGROUNDDOWN a + PGSIZE)) (len - chunk a len)
              (dst ++ viewBytes V a (chunk a len)) = result at next ⊢
            cases next with
            | all inside =>
                rw [List.append_assoc, viewBytes_next last, Nat.add_sub_cancel' most]
                refine .all fun k less => ?_
                rcases Nat.lt_or_ge k (chunk a len) with low | high
                · exact here k low
                · exact (beyond k high).mp (inside _ (by omega))
            | stop j i less missing before fewer =>
                rw [List.append_assoc, viewBytes_next last]
                refine .stop (chunk a len + j) (chunk a len + i) (by omega) ?_ ?_ (by omega)
                · rwa [← inView_next last]
                · intro k low
                  rcases Nat.lt_or_ge k (chunk a len) with inside | high
                  · exact here k inside
                  · exact (beyond k high).mp (before _ (by omega))

end Copyin

/-! ## `copyout` -/

/-- The position of the address `x` in a range that begins at `a`. -/
def positionFrom (a x : Nat) : Nat := wrap64 (x + 2 ^ 64 - a)

/-- The pages of a view with the bytes of `src` at `a`. -/
def viewPlaced (V : View) (a : Nat) (src : List UInt8) : View := fun va =>
  (V va).map fun page => (page.1, fun i =>
    if i < PGSIZE ∧ positionFrom a (va + i) < src.length then src.getD (positionFrom a (va + i)) 0
    else page.2 i)

/-- The byte `k` from `a` on is in a page that can be written. -/
def WritableView (V : View) (a k : Nat) : Prop :=
  ∃ flags b, V (PGROUNDDOWN (wrap64 (a + k))) = some (flags, b) ∧ flags &&& PTE_W ≠ 0

def OfUser (V : View) : Prop := ∀ va, V va ≠ none → va % PGSIZE = 0 ∧ va < TRAPFRAME

section Copyout
variable {V : View} {a k len : Nat} {src : List UInt8}

theorem ofUser_seen {s : Phys} {p : Space} : OfUser (seen s p) := by
  intro va there
  by_contra outside
  exact there (if_neg outside)

theorem viewPlaced_nil : viewPlaced V a [] = V := by
  funext va
  simp [viewPlaced]

theorem viewPlaced_none {va : Nat} : viewPlaced V a src va = none ↔ V va = none := by
  simp [viewPlaced]

theorem OfUser.placed (user : OfUser V) : OfUser (viewPlaced V a src) := by
  intro va there
  exact user va fun missing => there (viewPlaced_none.mpr missing)

theorem writableView_placed {a' : Nat} :
    WritableView (viewPlaced V a' src) a k ↔ WritableView V a k := by
  unfold WritableView viewPlaced
  cases V (PGROUNDDOWN (wrap64 (a + k))) with
  | none => simp
  | some page =>
      obtain ⟨flags, b⟩ := page
      simp

theorem upd_blitted (user : OfUser V) (word : a < 2 ^ 64) {flags : Nat} {b : Bytes}
    (page : V (PGROUNDDOWN a) = some (flags, b)) :
    upd V (PGROUNDDOWN a) (some (flags, blitted b (a - PGROUNDDOWN a) src (chunk a src.length))) =
      viewPlaced V a (src.take (chunk a src.length)) := by
  have frame : TRAPFRAME + PGSIZE < 2 ^ 63 := by decide
  have size : PGSIZE = 4096 := rfl
  obtain ⟨aligned, low, near⟩ := PGROUNDDOWN_spec a
  have most : chunk a src.length ≤ src.length := Nat.min_le_right _ _
  have inPage : chunk a src.length ≤ PGSIZE - (a - PGROUNDDOWN a) := Nat.min_le_left _ _
  have short : (src.take (chunk a src.length)).length = chunk a src.length := by
    rw [List.length_take, Nat.min_eq_left most]
  have getD : ∀ j, j < chunk a src.length →
      (src.take (chunk a src.length)).getD j 0 = src.getD j 0 := by
    intro j less
    simp only [List.getD_eq_getElem?_getD, List.getElem?_take, if_pos less]
  funext va
  by_cases here : va = PGROUNDDOWN a
  · subst here
    have high := (user _ (by rw [page]; rintro ⟨⟩)).2
    rw [upd_self, viewPlaced, page, Option.map_some]
    congr 2
    funext i
    simp only [blitted, short]
    by_cases inside : a - PGROUNDDOWN a ≤ i ∧ i < a - PGROUNDDOWN a + chunk a src.length
    · have position : positionFrom a (PGROUNDDOWN a + i) = i - (a - PGROUNDDOWN a) := by
        simp only [positionFrom, wrap64]
        omega
      rw [if_pos inside, position, if_pos ⟨by omega, by omega⟩, getD _ (by omega)]
    · rw [if_neg inside, if_neg]
      rintro ⟨small, less⟩
      simp only [positionFrom, wrap64] at less
      omega
  · rw [upd_of_ne here, viewPlaced]
    cases other : V va with
    | none => rfl
    | some entry =>
        obtain ⟨flags', b'⟩ := entry
        obtain ⟨aligned', high⟩ := user va (by rw [other]; rintro ⟨⟩)
        rw [Option.map_some]
        congr 2
        funext i
        rw [short, if_neg]
        rintro ⟨small, less⟩
        simp only [positionFrom, wrap64] at less
        rw [size] at *
        omega

theorem viewPlaced_append (user : OfUser V) (word : a < 2 ^ 64) {a' : Nat} {src' : List UInt8}
    (next : a' = wrap64 (a + src.length)) (short : src.length + src'.length ≤ 2 ^ 64) :
    viewPlaced (viewPlaced V a src) a' src' = viewPlaced V a (src ++ src') := by
  have frame : TRAPFRAME + PGSIZE < 2 ^ 63 := by decide
  funext va
  cases page : V va with
  | none => simp [viewPlaced, page]
  | some entry =>
      obtain ⟨-, high⟩ := user va (by rw [page]; rintro ⟨⟩)
      simp only [viewPlaced, page, Option.map_some]
      congr 2
      funext i
      by_cases small : i < PGSIZE
      · have position : positionFrom a' (va + i) = if src.length ≤ positionFrom a (va + i) then
            positionFrom a (va + i) - src.length
            else positionFrom a (va + i) + 2 ^ 64 - src.length := by
          have bound := wrap64_lt (va + i + 2 ^ 64 - a)
          split
          · simp only [positionFrom, wrap64] at *
            omega
          · simp only [positionFrom, wrap64] at *
            omega
        simp only [small, true_and, List.length_append, List.getD_eq_getElem?_getD]
        by_cases first : positionFrom a (va + i) < src.length
        · rw [position, if_neg (Nat.not_le.mpr first), if_neg (by omega), if_pos first,
            if_pos (by omega), List.getElem?_append_left first]
        · rw [position, if_pos (Nat.le_of_not_lt first), if_neg first,
            List.getElem?_append_right (Nat.le_of_not_lt first)]
          by_cases second : positionFrom a (va + i) - src.length < src'.length
          · rw [if_pos second, if_pos (by omega)]
          · rw [if_neg second, if_neg (by omega)]
      · simp only [small, false_and, if_false]

/-- How a copy to the user ends. -/
inductive CopiedOut (V : View) (a : Nat) (src : List UInt8) : Int × View → Prop where
  | all (inside : ∀ k, k < src.length → WritableView V a k) : CopiedOut V a src (0, viewPlaced V a src)
  | stop (j i : Nat) (less : j < src.length) (missing : ¬ WritableView V a j)
      (before : ∀ k, k < j → WritableView V a k) (most : i ≤ j) :
      CopiedOut V a src (-1, viewPlaced V a (src.take i))

theorem writableView_turn (word : a < 2 ^ 64) (less : k < chunk a len) :
    WritableView V a k ↔ ∃ flags b, V (PGROUNDDOWN a) = some (flags, b) ∧ flags &&& PTE_W ≠ 0 := by
  rw [WritableView, (turn_addr word less).2.1]

theorem writableView_next (more : len - chunk a len ≠ 0) :
    WritableView V (wrap64 (PGROUNDDOWN a + PGSIZE)) k ↔ WritableView V a (chunk a len + k) := by
  rw [WritableView, WritableView, turn_next more]

theorem copyoutView_spec : ∀ (fuel a : Nat) (src : List UInt8) (V : View), src.length ≤ fuel →
    a < 2 ^ 64 → src.length < 2 ^ 64 → OfUser V → CopiedOut V a src (copyoutView fuel a src V) := by
  intro fuel
  induction fuel with
  | zero =>
      intro a src V enough word short user
      obtain rfl : src = [] := List.length_eq_zero_iff.mp (by omega)
      have all := @CopiedOut.all V a [] fun k less => absurd less (Nat.not_lt_zero k)
      rwa [viewPlaced_nil] at all
  | succ fuel ih =>
      intro a src V enough word short user
      rw [copyoutView]
      by_cases empty : src = []
      · subst empty
        have all := @CopiedOut.all V a [] fun k less => absurd less (Nat.not_lt_zero k)
        rwa [viewPlaced_nil] at all
      rw [if_neg empty]
      have length : src.length ≠ 0 := fun zero => empty (List.length_eq_zero_iff.mp zero)
      obtain ⟨some, most⟩ := chunk_le a length
      have refuse : ¬ (∃ flags b, V (PGROUNDDOWN a) = Option.some (flags, b) ∧ flags &&& PTE_W ≠ 0) →
          CopiedOut V a src (-1, V) := by
        intro missing
        have stop := @CopiedOut.stop V a src 0 0 (by omega)
          (by rwa [writableView_turn word some]) (fun k less => by omega) (Nat.le_refl 0)
        rwa [List.take_zero, viewPlaced_nil] at stop
      cases page : V (PGROUNDDOWN a) with
      | none => exact refuse (by rw [page]; rintro ⟨_, _, no, -⟩; cases no)
      | some entry =>
          obtain ⟨flags, b⟩ := entry
          simp only
          by_cases readonly : flags &&& PTE_W = 0
          · rw [if_pos readonly]
            refine refuse ?_
            rintro ⟨flags', b', same, writable⟩
            rw [page] at same
            cases same
            exact writable readonly
          rw [if_neg readonly, upd_blitted user word page]
          have here : ∀ k, k < chunk a src.length → WritableView V a k := by
            intro k less
            rw [writableView_turn word less]
            exact ⟨flags, b, page, readonly⟩
          have taken : (src.take (chunk a src.length)).length = chunk a src.length := by
            rw [List.length_take, Nat.min_eq_left most]
          by_cases last : src.length - chunk a src.length = 0
          · have whole : chunk a src.length = src.length := by omega
            have ends : ∀ W : View, copyoutView fuel (wrap64 (PGROUNDDOWN a + PGSIZE))
              [] W = (0, W) := by
              intro W
              cases fuel <;> simp [copyoutView]
            rw [whole, List.drop_length, List.take_length, ends]
            exact .all fun k less => here k (by omega)
          · have next := ih (wrap64 (PGROUNDDOWN a + PGSIZE)) (src.drop (chunk a src.length))
              (viewPlaced V a (src.take (chunk a src.length))) (by rw [List.length_drop]; omega)
              (wrap64_lt _) (by rw [List.length_drop]; omega) user.placed
            have follows : wrap64 (PGROUNDDOWN a + PGSIZE) =
                wrap64 (a + (src.take (chunk a src.length)).length) := by
              rw [taken, chunk_end last]
            have beyond : ∀ k, chunk a src.length ≤ k →
                (WritableView (viewPlaced V a (src.take (chunk a src.length)))
                  (wrap64 (PGROUNDDOWN a + PGSIZE)) (k - chunk a src.length) ↔ WritableView V a k) := by
              intro k above
              rw [writableView_placed, writableView_next last, Nat.add_sub_cancel' above]
            generalize copyoutView fuel (wrap64 (PGROUNDDOWN a + PGSIZE))
              (src.drop (chunk a src.length))
              (viewPlaced V a (src.take (chunk a src.length))) = result at next ⊢
            cases next with
            | all inside =>
                rw [viewPlaced_append user word follows (by rw [taken, List.length_drop]; omega),
                  List.take_append_drop]
                rw [List.length_drop] at inside
                refine .all fun k less => ?_
                rcases Nat.lt_or_ge k (chunk a src.length) with low | high
                · exact here k low
                · exact (beyond k high).mp (inside _ (by omega))
            | stop j i less missing before fewer =>
                rw [List.length_drop] at less
                have piece : src.take (chunk a src.length) ++ (src.drop (chunk a src.length)).take i =
                    src.take (chunk a src.length + i) := by
                  rw [List.take_add]
                rw [viewPlaced_append user word follows (by
                  rw [taken, List.length_take, List.length_drop]; omega), piece]
                refine .stop (chunk a src.length + j) (chunk a src.length + i)
                  (by omega) ?_ ?_ (by omega)
                · rwa [← beyond _ (Nat.le_add_right _ _), Nat.add_sub_cancel_left]
                · intro k low
                  rcases Nat.lt_or_ge k (chunk a src.length) with inside | high
                  · exact here k inside
                  · exact (beyond k high).mp (before _ (by omega))

end Copyout

/-! ## `copyinstr` -/

/-- The string from `a` on ends with a NUL at `n`, within `max` bytes and before the first byte
that is in no page. -/
structure NulAt (V : View) (a max n : Nat) : Prop where
  less : n < max
  inside : ∀ k, k ≤ n → InView V a k
  nul : viewByte V (wrap64 (a + n)) = 0
  text : ∀ k, k < n → viewByte V (wrap64 (a + k)) ≠ 0

section Copyinstr
variable {V : View} {a max n : Nat}

/-- How a copy of a string ends. -/
inductive CopiedStr (V : View) (a max : Nat) (dst : List UInt8) : Int × List UInt8 → Prop where
  | nul (n : Nat) (found : NulAt V a max n) : CopiedStr V a max dst (0, dst ++ viewBytes V a n ++ [0])
  | stop (i : Nat) (most : i ≤ max) (none : ∀ n, ¬ NulAt V a max n) :
      CopiedStr V a max dst (-1, dst ++ viewBytes V a i)

theorem slice_add (b : Bytes) (off m n : Nat) :
    slice b off (m + n) = slice b off m ++ slice b (off + m) n := by
  simp only [slice, List.range_add, List.map_append, List.map_map, Function.comp_def, Nat.add_assoc]

theorem takeWhile_slice {b : Bytes} {off j m : Nat} (less : j < m) (nul : b (off + j) = 0)
    (text : ∀ k, k < j → b (off + k) ≠ 0) :
    (slice b off m).takeWhile (· ≠ 0) = slice b off j := by
  obtain ⟨d, rfl⟩ : ∃ d, m = j + (1 + d) := ⟨m - j - 1, by omega⟩
  rw [slice_add, slice_add b (off + j), List.takeWhile_append_of_pos]
  · have first : slice b (off + j) 1 = [0] := by simp [slice, nul]
    rw [first]
    simp
  · intro c member
    obtain ⟨k, inside, rfl⟩ := List.mem_map.mp member
    simpa using text k (List.mem_range.mp inside)

theorem copyinstrView_spec : ∀ (fuel a max : Nat) (dst : List UInt8), max < fuel → a < 2 ^ 64 →
    CopiedStr V a max dst (copyinstrView V fuel a max dst) := by
  intro fuel
  induction fuel with
  | zero => intro a max dst enough; omega
  | succ fuel ih =>
      intro a max dst enough word
      rw [copyinstrView]
      have nothing : (∀ n, ¬ NulAt V a max n) → CopiedStr V a max dst (-1, dst) := by
        intro none
        have stop := @CopiedStr.stop V a max dst 0 (Nat.zero_le max) none
        simpa [viewBytes] using stop
      by_cases zero : max = 0
      · rw [if_pos zero]
        exact nothing fun n found => by
          have less := found.less
          omega
      rw [if_neg zero]
      obtain ⟨some, most⟩ := chunk_le a zero
      cases page : V (PGROUNDDOWN a) with
      | none =>
          refine nothing fun n found => ?_
          have inside := found.inside 0 (Nat.zero_le n)
          rw [inView_turn word some, page] at inside
          exact inside rfl
      | some entry =>
          obtain ⟨flags, b⟩ := entry
          have here : ∀ k, k < chunk a max → InView V a k := by
            intro k less
            rw [inView_turn word less, page]
            rintro ⟨⟩
          have byte : ∀ k, k < chunk a max →
              viewByte V (wrap64 (a + k)) = b (a - PGROUNDDOWN a + k) := by
            intro k less
            obtain ⟨wrap, same, offset⟩ := turn_addr word less
            rw [viewByte, same, page]
            simp only [wrap, offset]
          simp only [text_whole]
          by_cases ends : ∃ j, j < chunk a max ∧ b (a - PGROUNDDOWN a + j) = 0
          · -- the first NUL of the page
            classical
            obtain ⟨less, nul⟩ := Nat.find_spec ends
            have text : ∀ k, k < Nat.find ends → b (a - PGROUNDDOWN a + k) ≠ 0 := by
              intro k before isNul
              exact Nat.find_min ends before ⟨Nat.lt_trans before less, isNul⟩
            rw [if_pos ends, takeWhile_slice less nul text,
              ← viewBytes_turn word page (Nat.le_of_lt less)]
            refine .nul (Nat.find ends) ⟨by omega, fun k low => here k (by omega), ?_, ?_⟩
            · rw [byte _ less]
              exact nul
            · intro k before
              rw [byte k (by omega)]
              exact text k before
          · rw [if_neg ends]
            have solid : ∀ k, k < chunk a max → viewByte V (wrap64 (a + k)) ≠ 0 := by
              intro k less isNul
              rw [byte k less] at isNul
              exact ends ⟨k, less, isNul⟩
            have whole : (slice b (a - PGROUNDDOWN a) (chunk a max)).takeWhile (· ≠ 0) =
                viewBytes V a (chunk a max) := by
              rw [viewBytes_turn word page (Nat.le_refl _), List.takeWhile_eq_self_iff]
              intro c member
              obtain ⟨k, inside, rfl⟩ := List.mem_map.mp member
              have other := solid k (List.mem_range.mp inside)
              rw [byte k (List.mem_range.mp inside)] at other
              simpa using other
            rw [whole]
            by_cases last : max - chunk a max = 0
            · have stops : copyinstrView V fuel (wrap64 (PGROUNDDOWN a + PGSIZE)) 0
                  (dst ++ viewBytes V a (chunk a max)) = (-1, dst ++ viewBytes V a (chunk a max)) := by
                cases fuel <;> simp [copyinstrView]
              rw [last, stops]
              refine .stop _ most fun n found => ?_
              exact solid n (by have less := found.less; omega) found.nul
            · have next := ih (wrap64 (PGROUNDDOWN a + PGSIZE)) (max - chunk a max)
                (dst ++ viewBytes V a (chunk a max)) (by omega) (wrap64_lt _)
              have shift : ∀ m, NulAt V (wrap64 (PGROUNDDOWN a + PGSIZE)) (max - chunk a max) m ↔
                  NulAt V a max (chunk a max + m) := by
                intro m
                constructor
                · rintro ⟨less, inside, nul, text⟩
                  refine ⟨by omega, ?_, by rwa [turn_next last] at nul, ?_⟩
                  · intro k low
                    rcases Nat.lt_or_ge k (chunk a max) with first | second
                    · exact here k first
                    · have beyond := inside (k - chunk a max) (by omega)
                      rwa [inView_next last, Nat.add_sub_cancel' second] at beyond
                  · intro k low
                    rcases Nat.lt_or_ge k (chunk a max) with first | second
                    · exact solid k first
                    · have beyond := text (k - chunk a max) (by omega)
                      rwa [turn_next last, Nat.add_sub_cancel' second] at beyond
                · rintro ⟨less, inside, nul, text⟩
                  refine ⟨by omega, ?_, by rwa [turn_next last], ?_⟩
                  · intro k low
                    rw [inView_next last]
                    exact inside _ (by omega)
                  · intro k low
                    rw [turn_next last]
                    exact text _ (by omega)
              generalize copyinstrView V fuel (wrap64 (PGROUNDDOWN a + PGSIZE)) (max - chunk a max)
                (dst ++ viewBytes V a (chunk a max)) = result at next ⊢
              cases next with
              | nul n found =>
                  rw [List.append_assoc dst, viewBytes_next last]
                  exact .nul _ ((shift n).mp found)
              | stop i fewer none =>
                  rw [List.append_assoc, viewBytes_next last]
                  refine .stop _ (by omega) fun n found => ?_
                  rcases Nat.lt_or_ge n (chunk a max) with first | second
                  · exact solid n first found.nul
                  · refine none (n - chunk a max) ((shift _).mpr ?_)
                    rwa [Nat.add_sub_cancel' second]

end Copyinstr

end Xv6Fcfs.Vm
