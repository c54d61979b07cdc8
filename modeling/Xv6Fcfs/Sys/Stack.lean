import Xv6Fcfs.Fs.Image
import Xv6Fcfs.Sys.Image
import Xv6Fcfs.Vm.Usercopy

/-!
# The argument stack of `kexec`

The strings are pushed one below the other and the array of their addresses below them.  The
layout is stated over the integers, where nothing wraps: `kexec` fails exactly when the array
would end up below the stack page, and otherwise leaves what the layout says.
-/

set_option autoImplicit false

namespace Xv6Fcfs.Sys

open Xv6Fcfs.Lib Xv6Fcfs.Vm Xv6Fcfs.Fs

/-! ## The layout -/

/-- The multiple of 16 at or below the place of `n` bytes under `sp`. -/
def slotBelow (sp : Int) (n : Nat) : Int := (sp - n) / 16 * 16

def lastSlot : Int → List (List UInt8) → Int
  | sp, [] => sp
  | sp, arg :: rest => lastSlot (slotBelow sp (arg.length + 1)) rest

/-- The place of the array, with a word for each string and a null word. -/
def arraySlot (top : Int) (argv : List (List UInt8)) : Int :=
  slotBelow (lastSlot top argv) ((argv.length + 1) * 8)

/-- The strings with their NULs are at `ptrs`, each below the one before and the first below
`top`; the last one is at `last`. -/
inductive Pushed (v : Phys) (q : Space) : Nat → List Nat → List (List UInt8) → Nat → Prop
  | nil (top : Nat) : Pushed v q top [] [] top
  | cons {top ptr last : Nat} {ptrs : List Nat} {arg : List UInt8} {rest : List (List UInt8)}
      (room : ptr + (arg.length + 1) ≤ top) (aligned : ptr % 16 = 0)
      (text : userBytes v q ptr (arg.length + 1) = arg ++ [0])
      (later : Pushed v q ptr ptrs rest last) : Pushed v q top (ptr :: ptrs) (arg :: rest) last

/-- The stack that a program is started with. -/
structure StackBuilt (v : Phys) (q : Space) (stackbase sp : Nat) (argv : List (List UInt8)) : Prop where
  aligned : sp % 16 = 0
  above : stackbase ≤ sp
  below : sp < q.sz
  built : ∃ ptrs last, Pushed v q q.sz ptrs argv last ∧ sp + (argv.length + 1) * 8 ≤ last ∧
    ∀ i, i ≤ argv.length → getLE (userByte v q) (sp + 8 * i) 8 = ptrs.getD i 0

section Layout
variable {sp lo : Nat} {n : Nat}

theorem pushDown_eq (fits : n ≤ sp) (small : sp < 2 ^ 64) :
    (pushDown sp n : Int) = slotBelow sp n ∧ 0 ≤ slotBelow sp n := by
  simp only [pushDown, slotBelow, wrap64]
  omega

theorem slotBelow_le (top : Int) (n : Nat) : slotBelow top n ≤ top - n := by
  simp only [slotBelow]
  omega

theorem lastSlot_le : ∀ (argv : List (List UInt8)) (top : Int), lastSlot top argv ≤ top := by
  intro argv
  induction argv with
  | nil => intro top; exact Int.le_refl top
  | cons arg rest ih =>
      intro top
      have first := slotBelow_le top (arg.length + 1)
      have later := ih (slotBelow top (arg.length + 1))
      rw [lastSlot]
      omega

end Layout

section Pushed
variable {v v' : Phys} {q : Space} {top last : Nat} {ptrs : List Nat} {argv : List (List UInt8)}

theorem Pushed.length (pushed : Pushed v q top ptrs argv last) : ptrs.length = argv.length := by
  induction pushed with
  | nil top => rfl
  | cons room aligned text later ih => rw [List.length_cons, List.length_cons, ih]

theorem Pushed.last_le (pushed : Pushed v q top ptrs argv last) : last ≤ top := by
  induction pushed with
  | nil top => exact Nat.le_refl top
  | cons room aligned text later ih => omega

theorem Pushed.ptrs_lt (pushed : Pushed v q top ptrs argv last) : ∀ ptr, ptr ∈ ptrs → ptr < top := by
  induction pushed with
  | nil top => simp
  | cons room aligned text later ih =>
      intro ptr member
      rcases List.mem_cons.mp member with rfl | inside
      · omega
      · have below := ih ptr inside
        omega

theorem Pushed.frame (pushed : Pushed v q top ptrs argv last) (small : top ≤ 2 ^ 64)
    (same : ∀ x, last ≤ x → x < top → userByte v' q x = userByte v q x) :
    Pushed v' q top ptrs argv last := by
  induction pushed with
  | nil top => exact .nil top
  | cons room aligned text later ih =>
      rename_i top ptr last ptrs arg rest
      have low := later.last_le
      refine .cons room aligned ?_ (ih (by omega) fun x above below => same x above (by omega))
      rw [← text]
      refine List.map_congr_left ?_
      intro k member
      have less := List.mem_range.mp member
      have wrap : wrap64 (ptr + k) = ptr + k := Nat.mod_eq_of_lt (by omega)
      rw [wrap]
      exact same _ (by omega) (by omega)

end Pushed

/-! ## Bytes of the stack -/

section Bytes
variable {tramp : Nat} {v0 v v' : Phys} {root sz frame lo a x : Nat} {src : List UInt8}

theorem stacked_readable (stacked : Stacked tramp v0 v root sz frame lo) (bottom : lo % PGSIZE = 0)
    (low : lo ≤ x) (high : x < sz) : Readable v ⟨root, sz, frame⟩ x := by
  obtain ⟨T, L, M, inv, -, pages⟩ := stacked
  obtain ⟨aligned, down, near⟩ := PGROUNDDOWN_spec x
  have size : PGSIZE = 4096 := rfl
  obtain ⟨pte, mapped, allowed, -⟩ := pages (PGROUNDDOWN x) aligned
    (by rw [size] at bottom aligned near; omega) (by omega)
  have small : sz ≤ TRAPFRAME := inv.size
  have user : PGROUNDDOWN x < TRAPFRAME := by omega
  exact Or.inl ⟨below_MAXVA user, pte, (inv.leafPte_eq aligned user).trans mapped, allowed⟩

theorem stacked_byte (stacked : Stacked tramp v0 v root sz frame lo)
    (stacked' : Stacked tramp v0 v' root sz frame lo) (bottom : lo % PGSIZE = 0)
    (view : seen v' ⟨root, sz, frame⟩ = viewPlaced (seen v ⟨root, sz, frame⟩) a src)
    (inside : a + src.length ≤ sz) (top : sz < 2 ^ 64) (low : lo ≤ x) (high : x < sz) :
    userByte v' ⟨root, sz, frame⟩ x =
      if a ≤ x ∧ x < a + src.length then src.getD (x - a) 0 else userByte v ⟨root, sz, frame⟩ x := by
  have readable := stacked_readable stacked bottom low high
  have readable' := stacked_readable stacked' bottom low high
  obtain ⟨T, L, M, inv, -⟩ := stacked
  obtain ⟨T', L', M', inv', -⟩ := stacked'
  rw [← inv.byte_seen readable, ← inv'.byte_seen readable', viewByte_placed
    (inv.seen_readable.mpr readable) view]
  have position : positionFrom a x = if a ≤ x then x - a else x + 2 ^ 64 - a := by
    simp only [positionFrom, wrap64]
    split <;> omega
  rw [position]
  by_cases above : a ≤ x
  · rw [if_pos above]
    by_cases less : x < a + src.length
    · rw [if_pos (by omega), if_pos ⟨above, less⟩]
    · rw [if_neg (by omega), if_neg fun both => less both.2]
  · rw [if_neg above, if_neg (by omega), if_neg fun both => above both.1]

theorem userBytes_eq {q : Space} (inside : a + src.length ≤ 2 ^ 64)
    (same : ∀ k, k < src.length → userByte v q (a + k) = src.getD k 0) :
    userBytes v q a src.length = src := by
  refine List.ext_getElem (by simp [userBytes]) ?_
  intro k less less'
  have wrap : wrap64 (a + k) = a + k := Nat.mod_eq_of_lt (by omega)
  simp only [userBytes, List.getElem_map, List.getElem_range, wrap]
  rw [same k less', List.getD_eq_getElem?_getD, List.getElem?_eq_getElem less', Option.getD_some]

end Bytes

/-! ## The strings -/

section Strings
variable {tramp : Nat} {v0 : Phys} {s s' : System} {root sz frame lo : Nat} {old : Space}
  {E : Halt → Prop}

/-- How the loop over `argv` ends. -/
inductive ArgsPushed (s' : System) (q : Space) (lo sp : Nat) (ustack : List Nat)
    (argv : List (List UInt8)) : Option (Nat × List Nat) → Prop
  | bad (below : lastSlot sp argv < lo) : ArgsPushed s' q lo sp ustack argv none
  | done (sp' : Nat) (ptrs : List Nat) (place : (sp' : Int) = lastSlot sp argv) (above : lo ≤ sp')
      (pushed : Pushed s'.phys q sp ptrs argv sp') :
      ArgsPushed s' q lo sp ustack argv (some (sp', ustack ++ ptrs))

theorem pushArgs_exact (kernel : 0 < v0.low) (bottom : lo % PGSIZE = 0) (edge : sz % PGSIZE = 0)
    (space : PGSIZE ≤ lo) (top : sz < 2 ^ 64) : ∀ (argv : List (List UInt8)) (sp : Nat)
    (ustack : List Nat) (s : System), (∀ arg, arg ∈ argv → arg.length < PGSIZE) → lo ≤ sp → sp ≤ sz →
    ustack.length + argv.length < MAXARG → Stacked tramp v0 s.phys root sz frame lo →
    wp (pushArgs old root lo argv sp ustack) E (fun r s' =>
      Stacked tramp v0 s'.phys root sz frame lo ∧ Beside s s' ∧
      (∀ x, sp ≤ x → x < sz →
        userByte s'.phys ⟨root, sz, frame⟩ x = userByte s.phys ⟨root, sz, frame⟩ x) ∧
      ArgsPushed s' ⟨root, sz, frame⟩ lo sp ustack argv r) s := by
  intro argv
  induction argv with
  | nil =>
      intro sp ustack s _ low high few stacked
      refine ⟨stacked, Beside.refl s, fun _ _ _ => rfl, ?_⟩
      have done : ArgsPushed s ⟨root, sz, frame⟩ lo sp ustack [] (some (sp, ustack ++ [])) :=
        .done sp [] rfl low (.nil sp)
      rwa [List.append_nil] at done
  | cons arg rest ih =>
      intro sp ustack s short low high few stacked
      have length := short arg (List.mem_cons_self ..)
      rw [List.length_cons] at few
      obtain ⟨place, -⟩ := pushDown_eq (by omega : arg.length + 1 ≤ sp) (by omega)
      have down := pushDown_spec (by omega : arg.length + 1 ≤ sp) (by omega)
      rw [pushArgs, if_neg (by omega), wp_ite]
      refine ⟨fun fails => ?_, fun fits => ?_⟩
      · refine ⟨stacked, Beside.refl s, fun _ _ _ => rfl, .bad ?_⟩
        have later := lastSlot_le rest (slotBelow sp (arg.length + 1))
        rw [lastSlot]
        omega
      have kernel' : 0 < s.phys.low := by
        rw [stacked.low]
        exact kernel
      have inside : pushDown sp (arg.length + 1) + (arg ++ [0]).length ≤ sz := by
        rw [List.length_append]
        simp only [List.length_cons, List.length_nil]
        omega
      rw [wp_bind, wp_onVm]
      refine wp_post (stacked.copyout bottom edge kernel' (by omega) inside) ?_
      rintro r v1 ⟨rfl, stacked1, -, view⟩
      rw [if_neg (by decide)]
      have bytes : ∀ x, lo ≤ x → x < sz → userByte v1 ⟨root, sz, frame⟩ x =
          if pushDown sp (arg.length + 1) ≤ x ∧
            x < pushDown sp (arg.length + 1) + (arg ++ [0]).length then
            (arg ++ [0]).getD (x - pushDown sp (arg.length + 1)) 0
          else userByte s.phys ⟨root, sz, frame⟩ x :=
        fun x low' high' => stacked_byte stacked stacked1 bottom view inside top low' high'
      rw [List.length_append] at bytes inside
      simp only [List.length_cons, List.length_nil] at bytes inside
      refine wp_post (ih _ _ { s with phys := v1 }
        (fun arg member => short arg (List.mem_cons_of_mem _ member))
        (by omega) (by omega) ?_ stacked1) ?_
      · rw [List.length_append]
        simp only [List.length_cons, List.length_nil]
        omega
      · rintro r s' ⟨stacked', beside, same, result⟩
        refine ⟨stacked', beside.behind rfl, ?_, ?_⟩
        · intro x above below
          rw [same x (by omega) below]
          refine (bytes x (by omega) below).trans (if_neg ?_)
          omega
        · cases result with
          | bad below =>
              refine .bad ?_
              rw [lastSlot, ← place]
              exact below
          | done sp' ptrs place' above pushed =>
              rw [List.append_assoc]
              refine .done sp' _ (by rw [place', place, lastSlot]) above ?_
              refine .cons (by omega) (Nat.mul_mod_left _ 16) ?_ pushed
              have text : userBytes s'.phys ⟨root, sz, frame⟩ (pushDown sp (arg.length + 1))
                  (arg ++ [0]).length = arg ++ [0] := by
                refine userBytes_eq ?_ ?_
                · rw [List.length_append]
                  simp only [List.length_cons, List.length_nil]
                  omega
                · intro k less
                  rw [List.length_append] at less
                  simp only [List.length_cons, List.length_nil] at less
                  rw [same _ (by omega) (by omega)]
                  refine (bytes _ (by omega) (by omega)).trans ?_
                  rw [if_pos (by omega), Nat.add_sub_cancel_left]
              rw [List.length_append] at text
              exact text

end Strings

/-! ## The array -/

section Words
variable {v : Phys} {q : Space} {a : Nat}

theorem getD_wordBytes (x k : Nat) (less : k < 8) :
    (wordBytes x).getD k 0 = UInt8.ofNat (x / 256 ^ k) := by
  rw [List.getD_eq_getElem?_getD, List.getElem?_eq_getElem (by rw [wordBytes_length]; exact less),
    Option.getD_some]
  simp only [wordBytes, List.getElem_map, List.getElem_range]
  refine UInt8.toNat_inj.mp ?_
  simp

theorem getD_words : ∀ (l : List Nat) (i k : Nat), i < l.length → k < 8 →
    ((l.map wordBytes).flatten).getD (8 * i + k) 0 = UInt8.ofNat (l.getD i 0 / 256 ^ k) := by
  intro l
  induction l with
  | nil => intro i k less; exact absurd less (Nat.not_lt_zero i)
  | cons x rest ih =>
      intro i k less small
      rw [List.map_cons, List.flatten_cons, List.getD_eq_getElem?_getD]
      cases i with
      | zero =>
          rw [List.getElem?_append_left (by rw [wordBytes_length]; omega), ← List.getD_eq_getElem?_getD,
            Nat.mul_zero, Nat.zero_add, getD_wordBytes x k small]
          rfl
      | succ i =>
          rw [List.getElem?_append_right (by rw [wordBytes_length]; omega), wordBytes_length,
            ← List.getD_eq_getElem?_getD, List.getD_cons_succ]
          have place : 8 * (i + 1) + k - 8 = 8 * i + k := by omega
          rw [place]
          exact ih i k (by simpa using less) small

theorem getLE_words {l : List Nat} (words : ∀ x, x ∈ l → x < 2 ^ 64)
    (bytes : ∀ k, k < l.length * 8 → userByte v q (a + k) = ((l.map wordBytes).flatten).getD k 0) :
    ∀ i, i < l.length → getLE (userByte v q) (a + 8 * i) 8 = l.getD i 0 := by
  intro i less
  have word : l.getD i 0 < 2 ^ 64 := by
    rw [List.getD_eq_getElem?_getD, List.getElem?_eq_getElem less, Option.getD_some]
    exact words _ (List.getElem_mem less)
  have put : getLE (userByte v q) (a + 8 * i) 8 =
      getLE (putLE (fun _ => 0) (a + 8 * i) 8 (l.getD i 0)) (a + 8 * i) 8 := by
    refine getLE_congr 8 (a + 8 * i) ?_
    intro x low high
    obtain ⟨k, rfl⟩ : ∃ k, x = a + 8 * i + k := ⟨x - (a + 8 * i), by omega⟩
    rw [Nat.add_assoc, bytes (8 * i + k) (by omega), getD_words l i k less (by omega), putLE,
      if_pos (by omega)]
    congr 3
    omega
  rw [put, getLE_putLE_same]
  exact Nat.mod_eq_of_lt word

end Words

section Array
variable {tramp : Nat} {v0 : Phys} {s : System} {root sz frame lo : Nat} {old : Space}
  {E : Halt → Prop}

/-- How the stack code ends. -/
inductive StackPushed (s' : System) (q : Space) (lo : Nat) (argv : List (List UInt8)) :
    Option (Nat × Nat) → Prop
  | bad (below : arraySlot q.sz argv < lo) : StackPushed s' q lo argv none
  | done (sp : Nat) (place : (sp : Int) = arraySlot q.sz argv)
      (built : StackBuilt s'.phys q lo sp argv) : StackPushed s' q lo argv (some (sp, argv.length))

theorem pushStack_exact (kernel : 0 < v0.low) (bottom : lo % PGSIZE = 0) (edge : sz % PGSIZE = 0)
    (space : PGSIZE ≤ lo) (below : lo ≤ sz) (top : sz < 2 ^ 64) {argv : List (List UInt8)}
    (few : argv.length < MAXARG) (short : ∀ arg, arg ∈ argv → arg.length < PGSIZE)
    (stacked : Stacked tramp v0 s.phys root sz frame lo) :
    wp (pushStack old root lo sz argv) E (fun r s' =>
      Stacked tramp v0 s'.phys root sz frame lo ∧ Beside s s' ∧
      StackPushed s' ⟨root, sz, frame⟩ lo argv r) s := by
  have many : MAXARG = 32 := rfl
  have size : PGSIZE = 4096 := rfl
  rw [pushStack, wp_bind]
  refine wp_post (pushArgs_exact kernel bottom edge space top argv sz [] s short below (Nat.le_refl sz)
    (by simpa using few) stacked) ?_
  rintro r s1 ⟨stacked1, beside1, -, result⟩
  cases result with
  | bad under =>
      refine ⟨stacked1, beside1, .bad ?_⟩
      have words := slotBelow_le (lastSlot sz argv) ((argv.length + 1) * 8)
      rw [arraySlot]
      simp only
      omega
  | done sp ptrs place above pushed =>
      have count := pushed.length
      have high := pushed.last_le
      rw [List.nil_append]
      simp only [count]
      have fits : (argv.length + 1) * 8 ≤ sp := by omega
      obtain ⟨place', -⟩ := pushDown_eq fits (by omega)
      have down := pushDown_spec fits (by omega)
      rw [place] at place'
      rw [wp_ite]
      refine ⟨fun fails => ⟨stacked1, beside1, .bad ?_⟩, fun enough => ?_⟩
      · rw [arraySlot]
        simp only
        omega
      have kernel' : 0 < s1.phys.low := by
        rw [stacked1.low]
        exact kernel
      have length : (((ptrs ++ [0]).map wordBytes).flatten).length = (argv.length + 1) * 8 := by
        rw [words_length, List.length_append, count]
        rfl
      rw [wp_bind, wp_onVm]
      refine wp_post (stacked1.copyout bottom edge kernel' (by omega) (by rw [length]; omega)) ?_
      rintro r v2 ⟨rfl, stacked2, -, view⟩
      rw [if_neg (by decide)]
      have bytes : ∀ x, lo ≤ x → x < sz → userByte v2 ⟨root, sz, frame⟩ x =
          if pushDown sp ((argv.length + 1) * 8) ≤ x ∧
              x < pushDown sp ((argv.length + 1) * 8) + (argv.length + 1) * 8 then
            (((ptrs ++ [0]).map wordBytes).flatten).getD (x - pushDown sp ((argv.length + 1) * 8)) 0
          else userByte s1.phys ⟨root, sz, frame⟩ x := by
        intro x low' high'
        have placed := stacked_byte stacked1 stacked2 bottom view (by rw [length]; omega) top low' high'
        rw [length] at placed
        exact placed
      refine ⟨stacked2, beside1.trans rfl, .done _ place' ⟨Nat.mul_mod_left _ 16, by omega, ?_,
        ptrs, sp, ?_, down, ?_⟩⟩
      · simp only
        omega
      · refine pushed.frame (Nat.le_of_lt top) fun x low' high' => ?_
        refine (bytes x (by omega) high').trans (if_neg ?_)
        omega
      · intro i most
        have small : ∀ x, x ∈ ptrs ++ [0] → x < 2 ^ 64 := by
          intro x member
          rcases List.mem_append.mp member with inside | last
          · have less := pushed.ptrs_lt x inside
            omega
          · rw [List.mem_singleton.mp last]
            decide
        have words := getLE_words (v := v2) (q := ⟨root, sz, frame⟩)
          (a := pushDown sp ((argv.length + 1) * 8)) small ?_ i ?_
        · rw [words]
          rcases Nat.lt_or_ge i ptrs.length with inside | last
          · rw [List.getD_eq_getElem?_getD, List.getElem?_append_left inside,
              List.getD_eq_getElem?_getD]
          · obtain rfl : i = ptrs.length := by omega
            simp
        · intro k less
          rw [List.length_append, count] at less
          simp only [List.length_cons, List.length_nil] at less
          refine (bytes _ (by omega) (by omega)).trans ?_
          rw [if_pos (by omega), Nat.add_sub_cancel_left]
        · rw [List.length_append, count]
          simp only [List.length_cons, List.length_nil]
          omega

end Array

/-! ## What `sys_exec` passes -/

section Fetch
variable {v : Phys} {p : Space}

theorem wp_any {α σ ε : Type} {m : Prog σ ε α} {Q : α → σ → Prop} {s : σ} (any : ∀ a s', Q a s') :
    wp m (fun _ => True) Q s := wp_intro (fun a s' _ => any a s') fun _ _ => trivial

theorem copyinstrLoop_short (pagetable : Nat) : ∀ (fuel a max : Nat) (dst : List UInt8) (v : Phys),
    wp (copyinstrLoop pagetable fuel a max dst) (fun _ => True) (fun r _ => 0 ≤ r.1 →
      ∃ text, r.2 = dst ++ text ++ [0] ∧ text.length < max ∧ ∀ c, c ∈ text → c ≠ 0) v := by
  have minus : ¬ (0 : Int) ≤ -1 := by decide
  intro fuel
  induction fuel with
  | zero => intro a max dst v no; exact absurd no minus
  | succ fuel ih =>
      intro a max dst v
      rw [copyinstrLoop, wp_ite]
      refine ⟨fun _ no => absurd no minus, fun more => ?_⟩
      refine wp_seq (wp_any fun _ _ => trivial : wp _ (fun _ => True) (fun _ _ => True) v) ?_
      intro pa0 v1 _
      rw [wp_ite]
      refine ⟨fun _ no => absurd no minus, fun _ => ?_⟩
      rw [wp_bind, wp_get]
      simp only [wp_ite]
      obtain ⟨some, most⟩ := chunk_le a more
      generalize piece : (slice (v1.mem (pa0 / PGSIZE)) (a - PGROUNDDOWN a) (Vm.chunk a max)).takeWhile
        (· ≠ 0) = body
      have solid : ∀ c, c ∈ body → c ≠ 0 := by
        intro c member
        rw [← piece] at member
        simpa using List.mem_takeWhile_imp member
      have short : body.length ≤ Vm.chunk a max := by
        rw [← piece]
        refine Nat.le_trans (List.takeWhile_prefix _).length_le ?_
        simp [slice]
      refine ⟨fun ends _ => ⟨body, rfl, by omega, solid⟩, fun whole => ?_⟩
      refine wp_post (ih _ _ _ v1) ?_
      intro r v2 later success
      obtain ⟨text, same, less, plain⟩ := later success
      refine ⟨body ++ text, by rw [same]; simp, ?_, ?_⟩
      · rw [List.length_append]
        omega
      · intro c member
        rcases List.mem_append.mp member with first | second
        · exact solid c first
        · exact plain c second

theorem fetchstr_short (addr max : Nat) : wp (fetchstr p addr max) (fun _ => True)
    (fun r _ => ∀ text, r.1 = some text → text.length < max ∧ ∀ c, c ∈ text → c ≠ 0) v := by
  rw [fetchstr, copyinstr]
  refine wp_seq (copyinstrLoop_short p.pagetable _ _ _ _ v) ?_
  rintro ⟨r, bytes⟩ v1 found
  simp only [wp_ite, wp_pure]
  refine ⟨fun _ text none => (by cases none), fun positive text same => ?_⟩
  obtain ⟨body, rfl, short, plain⟩ := found (Int.not_lt.mp positive)
  have whole : (body ++ [0]).takeWhile (· ≠ 0) = body := by
    rw [List.takeWhile_append_of_pos fun c member => by simpa using plain c member]
    simp
  rw [List.nil_append, whole] at same
  obtain rfl := Option.some.inj same
  exact ⟨short, plain⟩

/-- The strings of `argv` end within a page. -/
def Strings (argv : List (Nat × List UInt8)) : Prop :=
  ∀ arg, arg ∈ argv → arg.2.length < PGSIZE ∧ ∀ c, c ∈ arg.2 → c ≠ 0

theorem fetchArgs_spec (uargv : Nat) : ∀ (n i : Nat) (argv : List (Nat × List UInt8)) (v : Phys),
    0 < n → argv.length = i → Strings argv →
    wp (fetchArgs p uargv n i argv) (fun _ => True)
      (fun r _ => r.1 = true → r.2.length < i + n ∧ Strings r.2) v := by
  intro n
  induction n with
  | zero => intro i argv v none; omega
  | succ n ih =>
      intro i argv v _ count strings
      rw [fetchArgs]
      refine wp_seq (wp_any fun _ _ => trivial : wp _ (fun _ => True) (fun _ _ => True) v) ?_
      intro found v1 _
      cases found with
      | none => intro no; cases no
      | some uarg =>
          simp only [wp_ite]
          refine ⟨fun _ _ => ⟨by simp only; omega, strings⟩, fun _ => ?_⟩
          refine wp_seq (wp_any fun _ _ => trivial : wp _ (fun _ => True) (fun _ _ => True) v1) ?_
          intro page v2 _
          cases page with
          | none => intro no; cases no
          | some q =>
              refine wp_seq (fetchstr_short uarg PGSIZE) ?_
              rintro ⟨str, bytes⟩ v3 short
              simp only
              refine wp_seq (wp_any fun _ _ => trivial : wp _ (fun _ => True) (fun _ _ => True) v3) ?_
              intro _ v4 _
              cases str with
              | none => intro no; cases no
              | some text =>
                  have more : Strings (argv ++ [(q, text)]) := by
                    intro arg member
                    rcases List.mem_append.mp member with old | new
                    · exact strings arg old
                    · rw [List.mem_singleton.mp new]
                      exact short text rfl
                  cases n with
                  | zero => intro no; cases no
                  | succ n =>
                      refine wp_post (ih (i + 1) _ v4 (by omega) (by simp [count]) more) ?_
                      intro r v5 result success
                      obtain ⟨less, all⟩ := result success
                      exact ⟨by omega, all⟩

end Fetch

theorem sysExecFetch_spec (s : System) (p path uargv : Nat) :
    wp (sysExecFetch p path uargv) (fun _ => True) (fun r s' => r = none →
      ∃ fetched, s'.exec p = some fetched ∧ fetched.argv.length < MAXARG ∧ Strings fetched.argv) s := by
  rw [sysExecFetch, wp_bind, wp_get]
  simp only [wp_bind, wp_onVm]
  refine wp_any ?_
  rintro ⟨found, bytes⟩ v1
  cases found with
  | none => intro no; cases no
  | some text =>
      simp only [wp_bind, wp_onVm]
      refine wp_post (fetchArgs_spec uargv MAXARG 0 [] v1 (by decide) rfl (by rintro _ ⟨⟩)) ?_
      rintro ⟨ok, argv⟩ v2 result
      simp only [wp_ite]
      refine ⟨fun _ => ?_, fun success => ?_⟩
      · simp only [wp_bind, wp_onVm]
        exact wp_any (by rintro _ _ ⟨⟩)
      · obtain ⟨less, strings⟩ := result (by simpa using success)
        intro _
        exact ⟨⟨text, argv⟩, upd_self _ _ _, by simpa using less, strings⟩

/-- `sys_exec` passes fewer than `MAXARG` strings, each shorter than a page.  With such strings
and an image of any size the stack code of `kexec` stores no word behind `ustack` and subtracts
nothing below 0; it fails exactly when the layout passes below the stack page, and otherwise
leaves the layout on it. -/
theorem exec_stack_exact :
    (∀ (s s' : System) (p path uargv : Nat), sysExecFetch p path uargv s = .ok (none, s') →
      ∃ fetched, s'.exec p = some fetched ∧ fetched.argv.length < MAXARG ∧ Strings fetched.argv) ∧
    ∀ (tramp : Nat) (v0 : Phys) (s : System) (root size frame : Nat) (old : Space)
      (argv : List (List UInt8)) (sz : Nat) (v1 v2 : Phys), 0 < v0.low →
      Building tramp v0 s.phys root size frame → argv.length < MAXARG →
      (∀ arg, arg ∈ argv → arg.length < PGSIZE) →
      uvmalloc root (PGROUNDUP size) (wrap64 (PGROUNDUP size + (USERSTACK + 1) * PGSIZE)) PTE_W s.phys =
        .ok (sz, v1) → sz ≠ 0 →
      uvmclear root (sz - (USERSTACK + 1) * PGSIZE) v1 = .ok ((), v2) →
      (∀ sp n, sz - USERSTACK * PGSIZE ≤ sp → sp ≤ sz → n ≤ PGSIZE →
        (pushDown sp n : Int) = slotBelow sp n ∧ 0 ≤ slotBelow sp n) ∧
      ∃ r s', pushStack old root (sz - USERSTACK * PGSIZE) sz argv { s with phys := v2 } = .ok (r, s') ∧
        StackPushed s' ⟨root, sz, frame⟩ (sz - USERSTACK * PGSIZE) argv r := by
  refine ⟨?_, ?_⟩
  · intro s s' p path uargv run
    have spec := wp_ok (sysExecFetch_spec s p path uargv) run
    exact spec rfl
  · intro tramp v0 s root size frame old argv sz v1 v2 kernel building few short alloc some clear
    have page : PGSIZE = 4096 := rfl
    obtain ⟨rounded, aligned, small⟩ := building.roundUp
    have bound : TRAPFRAME + 2 * PGSIZE < 2 ^ 64 := by decide
    have exactly : wrap64 (PGROUNDUP size + (USERSTACK + 1) * PGSIZE) =
        PGROUNDUP size + (USERSTACK + 1) * PGSIZE := by
      refine Nat.mod_eq_of_lt ?_
      rw [show USERSTACK + 1 = 2 from rfl]
      omega
    rw [exactly] at alloc
    have made := wp_ok (E := fun _ => True) (rounded.stack aligned (USERSTACK + 1) (by decide)) alloc
    rcases made with ⟨zero, -⟩ | ⟨same, -, stacked⟩
    · exact absurd zero some
    have two : sz = PGROUNDUP size + 2 * 4096 := same
    have guard : sz - (USERSTACK + 1) * PGSIZE = PGROUNDUP size := by
      rw [two, page, show USERSTACK + 1 = 2 from rfl]
      omega
    have base : sz - USERSTACK * PGSIZE = PGROUNDUP size + PGSIZE := by
      rw [two, page, show USERSTACK = 1 from rfl]
      omega
    rw [guard] at clear
    obtain ⟨cleared, -⟩ := wp_ok (E := fun _ => True) (stacked.clear aligned (by omega)) clear
    have word : sz < 2 ^ 64 := by
      rw [page] at bound
      omega
    rw [base]
    refine ⟨?_, ?_⟩
    · intro sp n above below less
      exact pushDown_eq (by omega) (by omega)
    · have bottom : (PGROUNDUP size + PGSIZE) % PGSIZE = 0 := by
        rw [page] at aligned ⊢
        omega
      have edge : sz % PGSIZE = 0 := by
        rw [page] at aligned ⊢
        omega
      have pushed := @pushStack_exact tramp v0 { s with phys := v2 } root _ frame _ old
        (fun _ => False) kernel
        bottom edge (Nat.le_add_left _ _) (by omega) word argv few short cleared
      obtain ⟨r, s', run, -, -, result⟩ := wp_total pushed
      exact ⟨r, s', run, result⟩

/-- A system whose memory is that of `firstTable`. -/
def tableSystem : System where
  task _ := ⟨.unused, false, 0, 0, none, 0, none, none, []⟩
  nextpid := 1
  phys := firstTable.2
  fs := Fs.mkfsState
  pipe _ := 0
  ends _ := ⟨false, false⟩
  exec _ := none
  outstanding := 0
  first := false

theorem tableSystem_building : Building 0x80007 tenPages tableSystem.phys 0x80100 0 0x80050 :=
  ended_building tenPages_sets (by decide) (by decide) firstTable_root

/-- The arguments "ab" and "c" of a program without segments. -/
theorem two_arguments : ∃ v2 s', pushStack lazyProc 0x80100 4096 8192 [[97, 98], [99]]
      { tableSystem with phys := v2 } = .ok (some (8128, 2), s') ∧
    StackBuilt s'.phys ⟨0x80100, 8192, 0x80050⟩ 4096 8128 [[97, 98], [99]] := by
  obtain ⟨sz, v1, alloc, answer⟩ := ran_of_answer (m := uvmalloc 0x80100 0 8192 PTE_W)
    (s := tableSystem.phys) (fun sz v1 => decide (sz = 8192) && (uvmclear 0x80100 0 v1).isOk)
    (by decide +kernel)
  rw [Bool.and_eq_true, decide_eq_true_eq] at answer
  obtain ⟨rfl, cleared⟩ := answer
  cases clear : uvmclear 0x80100 0 v1 with
  | error e =>
      rw [clear] at cleared
      cases cleared
  | ok result =>
      obtain ⟨r, s', run, pushed⟩ := (exec_stack_exact.2 0x80007 tenPages tableSystem 0x80100 0 0x80050
        lazyProc [[97, 98], [99]] 8192 v1 result.2 (by decide) tableSystem_building
          (by decide) (by decide)
        alloc (by decide) clear).2
      have slot : arraySlot (8192 : Nat) [[97, 98], [99]] = 8128 := by decide
      cases pushed with
      | bad below => exact absurd below (by simp only [slot]; decide)
      | done sp place built =>
          obtain rfl : sp = 8128 := by
            simp only [slot] at place
            omega
          exact ⟨result.2, s', run, built⟩

end Xv6Fcfs.Sys
