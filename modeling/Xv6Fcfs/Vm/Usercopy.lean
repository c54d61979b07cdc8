import Xv6Fcfs.Vm.Bytewise

/-!
# What the copies do to user memory

A byte of the user can be read when its page is mapped for the user or is below the size and
not there yet, and then reads as zero.  The copies are stated in these terms: which of them
succeed, what they transfer, and which bytes of memory change.
-/

set_option autoImplicit false

namespace Xv6Fcfs.Vm

open Xv6Fcfs.Lib

/-- The page of `a` is below the size and has no memory yet. -/
def Untouched (s : Phys) (p : Space) (a : Nat) : Prop :=
  PGROUNDDOWN a < p.sz ∧ leafPte s.mem p.pagetable (PGROUNDDOWN a) = none

/-- The page of `a` is mapped for the user. -/
def UserMapped (s : Phys) (p : Space) (a : Nat) : Prop :=
  a < MAXVA ∧ ∃ pte, leafPte s.mem p.pagetable (PGROUNDDOWN a) = some pte ∧ pte &&& PTE_U ≠ 0

def Readable (s : Phys) (p : Space) (a : Nat) : Prop := UserMapped s p a ∨ Untouched s p a

def Writable (s : Phys) (p : Space) (a : Nat) : Prop :=
  (a < MAXVA ∧ ∃ pte, leafPte s.mem p.pagetable (PGROUNDDOWN a) = some pte ∧ pte &&& PTE_U ≠ 0 ∧
    pte &&& PTE_W ≠ 0) ∨ Untouched s p a

def userByte (s : Phys) (p : Space) (a : Nat) : UInt8 :=
  match leafPte s.mem p.pagetable (PGROUNDDOWN a) with
  | some pte => s.mem (leafPage pte) (a % PGSIZE)
  | none => 0

/-- The `n` bytes of the user from `a` on. -/
def userBytes (s : Phys) (p : Space) (a n : Nat) : List UInt8 :=
  (List.range n).map fun k => userByte s p (wrap64 (a + k))

/-- The addresses of `n` bytes from `a` on. -/
def InRange (a n x : Nat) : Prop := ∃ k, k < n ∧ x = wrap64 (a + k)

/-- The leaves stay, and their bytes change at the addresses of `W` only, in pages that the user
may write. -/
def LeavesBut (s s' : Phys) (root : Nat) (W : Nat → Prop) : Prop :=
  ∀ va pte b, va % PGSIZE = 0 → va < MAXVA → leaf s root va = some (pte, b) →
    ∃ b', leaf s' root va = some (pte, b') ∧ ∀ i, b' i ≠ b i →
      i < PGSIZE ∧ W (va + i) ∧ pte &&& PTE_U ≠ 0 ∧ pte &&& PTE_W ≠ 0

/-- Besides, no page changes that is neither free, nor a table, nor a user page of the space. -/
structure OnlyAt (s s' : Phys) (root : Nat) (W : Nat → Prop) : Prop where
  leaves : LeavesBut s s' root W
  others : ∀ q, q ∉ s.free → ¬ IsTable s root q →
    (∀ va pte, va % PGSIZE = 0 → va < TRAPFRAME → leafPte s.mem root va = some pte →
      leafPage pte ≠ q) → s'.mem q = s.mem q

section Seen
variable {tramp : Nat} {s s' : Phys} {p : Space} {T L : Finset Nat} {M : Nat → Option Nat} {a : Nat}

/-- Addresses below `MAXVA` that are not below `TRAPFRAME` are the kernel's. -/
theorem SpaceInv.user_of_mapped (inv : SpaceInv tramp s p T L M) (small : a < MAXVA) {pte : Nat}
    (mapped : leafPte s.mem p.pagetable (PGROUNDDOWN a) = some pte) (allowed : pte &&& PTE_U ≠ 0) :
    PGROUNDDOWN a < TRAPFRAME := by
  obtain ⟨aligned, low, -⟩ := PGROUNDDOWN_spec a
  by_contra above
  rw [inv.pt.map _ aligned (by omega)] at mapped
  exact allowed (inv.high_page aligned (by omega) (by omega) mapped)

theorem below_MAXVA (user : PGROUNDDOWN a < TRAPFRAME) : a < MAXVA := by
  have edge : TRAPFRAME + PGSIZE < MAXVA := by decide
  obtain ⟨-, -, near⟩ := PGROUNDDOWN_spec a
  omega

theorem seen_some {flags : Nat} {b : Bytes} :
    seen s p (PGROUNDDOWN a) = some (flags, b) ↔ PGROUNDDOWN a < TRAPFRAME ∧
      ((∃ pte, leafPte s.mem p.pagetable (PGROUNDDOWN a) = some pte ∧ pte &&& PTE_U ≠ 0 ∧
        flags = PTE_FLAGS pte ∧ b = s.mem (leafPage pte)) ∨
      (Untouched s p a ∧ flags = faultFlags ||| PTE_V ∧ b = fun _ => 0)) := by
  have aligned := (PGROUNDDOWN_spec a).1
  unfold seen Untouched
  by_cases user : PGROUNDDOWN a < TRAPFRAME
  · rw [if_pos ⟨aligned, user⟩]
    cases leafPte s.mem p.pagetable (PGROUNDDOWN a) with
    | none =>
        by_cases inside : PGROUNDDOWN a < p.sz
        · simp [user, inside, eq_comm]
        · simp [inside]
    | some pte =>
        by_cases allowed : pte &&& PTE_U = 0
        · simp [allowed]
        · simp only [if_neg allowed, user]
          simp [allowed, eq_comm]
  · rw [if_neg fun both => user both.2]
    simp [user]

theorem SpaceInv.seen_readable (inv : SpaceInv tramp s p T L M) :
    seen s p (PGROUNDDOWN a) ≠ none ↔ Readable s p a := by
  rw [Option.ne_none_iff_exists']
  constructor
  · rintro ⟨⟨flags, b⟩, sees⟩
    obtain ⟨user, ⟨pte, mapped, allowed, -⟩ | ⟨fresh, -⟩⟩ := seen_some.mp sees
    · exact Or.inl ⟨below_MAXVA user, pte, mapped, allowed⟩
    · exact Or.inr fresh
  · rintro (⟨small, pte, mapped, allowed⟩ | fresh)
    · exact ⟨_, seen_some.mpr ⟨inv.user_of_mapped small mapped allowed,
        Or.inl ⟨pte, mapped, allowed, rfl, rfl⟩⟩⟩
    · exact ⟨_, seen_some.mpr ⟨Nat.lt_of_lt_of_le fresh.1 inv.size, Or.inr ⟨fresh, rfl, rfl⟩⟩⟩

theorem SpaceInv.seen_writable (inv : SpaceInv tramp s p T L M) :
    (∃ flags b, seen s p (PGROUNDDOWN a) = some (flags, b) ∧ flags &&& PTE_W ≠ 0) ↔ Writable s p a := by
  constructor
  · rintro ⟨flags, b, sees, writable⟩
    obtain ⟨user, ⟨pte, mapped, allowed, rfl, -⟩ | ⟨fresh, -⟩⟩ := seen_some.mp sees
    · refine Or.inl ⟨below_MAXVA user, pte, mapped, allowed, ?_⟩
      rwa [and_flag pte (by decide)]
    · exact Or.inr fresh
  · rintro (⟨small, pte, mapped, allowed, writable⟩ | fresh)
    · refine ⟨_, _, seen_some.mpr ⟨inv.user_of_mapped small mapped allowed,
        Or.inl ⟨pte, mapped, allowed, rfl, rfl⟩⟩, ?_⟩
      rwa [← and_flag pte (by decide)]
    · exact ⟨_, _, seen_some.mpr ⟨Nat.lt_of_lt_of_le fresh.1 inv.size, Or.inr ⟨fresh, rfl, rfl⟩⟩,
        by decide⟩

theorem SpaceInv.resident_userMapped (inv : SpaceInv tramp s p T L M) :
    resident s p (PGROUNDDOWN a) ≠ none ↔ UserMapped s p a := by
  have aligned := (PGROUNDDOWN_spec a).1
  constructor
  · intro there
    have user := resident_inside there
    rw [resident, if_pos ⟨aligned, user⟩] at there
    cases mapped : leafPte s.mem p.pagetable (PGROUNDDOWN a) with
    | none =>
        rw [mapped] at there
        exact absurd rfl there
    | some pte =>
        simp only [mapped] at there
        refine ⟨below_MAXVA user, pte, mapped, fun forbidden => ?_⟩
        rw [if_pos forbidden] at there
        exact there rfl
  · rintro ⟨small, pte, mapped, allowed⟩
    rw [resident, if_pos ⟨aligned, inv.user_of_mapped small mapped allowed⟩, mapped]
    simp only [if_neg allowed]
    rintro ⟨⟩

theorem SpaceInv.byte_seen (inv : SpaceInv tramp s p T L M) (readable : Readable s p a) :
    viewByte (seen s p) a = userByte s p a := by
  obtain ⟨⟨flags, b⟩, sees⟩ := Option.ne_none_iff_exists'.mp (inv.seen_readable.mpr readable)
  rw [viewByte, sees, userByte]
  obtain ⟨-, ⟨pte, mapped, -, -, rfl⟩ | ⟨⟨-, absent⟩, -, rfl⟩⟩ := seen_some.mp sees
  · rw [mapped]
  · rw [absent]

theorem SpaceInv.byte_resident (inv : SpaceInv tramp s p T L M) (mapped : UserMapped s p a) :
    viewByte (resident s p) a = userByte s p a := by
  obtain ⟨aligned, -, -⟩ := PGROUNDDOWN_spec a
  obtain ⟨small, pte, found, allowed⟩ := mapped
  have user := inv.user_of_mapped small found allowed
  rw [viewByte, resident, if_pos ⟨aligned, user⟩, userByte, found]
  simp only [if_neg allowed]

theorem SpaceInv.bytes_seen (inv : SpaceInv tramp s p T L M) {n : Nat}
    (readable : ∀ k, k < n → Readable s p (wrap64 (a + k))) :
    viewBytes (seen s p) a n = userBytes s p a n := by
  refine List.map_congr_left ?_
  intro k member
  exact inv.byte_seen (readable k (List.mem_range.mp member))

theorem SpaceInv.bytes_resident (inv : SpaceInv tramp s p T L M) {n : Nat}
    (mapped : ∀ k, k < n → UserMapped s p (wrap64 (a + k))) :
    viewBytes (resident s p) a n = userBytes s p a n := by
  refine List.map_congr_left ?_
  intro k member
  exact inv.byte_resident (mapped k (List.mem_range.mp member))

end Seen

theorem viewByte_placed {V V' : View} {a x : Nat} {src : List UInt8} (there : V (PGROUNDDOWN x) ≠ none)
    (view : V' = viewPlaced V a src) : viewByte V' x =
      if positionFrom a x < src.length then src.getD (positionFrom a x) 0 else viewByte V x := by
  have sum : PGROUNDDOWN x + x % PGSIZE = x := by
    simp only [PGROUNDDOWN, PGSIZE]
    omega
  have inPage : x % PGSIZE < PGSIZE := Nat.mod_lt x (by decide)
  obtain ⟨page, found⟩ := Option.ne_none_iff_exists'.mp there
  rw [viewByte, viewByte, view, viewPlaced, found]
  simp only [Option.map_some, sum, inPage, true_and]

/-! ## Bytes that do not change -/

section Frame
variable {tramp : Nat} {s s' s'' : Phys} {p : Space} {T L : Finset Nat} {M : Nat → Option Nat}
  {E : Panic → Prop} {root va : Nat} {W W' : Nat → Prop}

theorem LeavesBut.refl (s : Phys) (root : Nat) (W : Nat → Prop) : LeavesBut s s root W :=
  fun _ _ b _ _ here => ⟨b, here, fun _ differ => absurd rfl differ⟩

theorem LeavesBut.trans (first : LeavesBut s s' root W) (second : LeavesBut s' s'' root W) :
    LeavesBut s s'' root W := by
  intro va pte b aligned small here
  obtain ⟨b', here', only⟩ := first va pte b aligned small here
  obtain ⟨b'', here'', only'⟩ := second va pte b' aligned small here'
  refine ⟨b'', here'', fun i differ => ?_⟩
  by_cases same : b'' i = b' i
  · exact only i (by rwa [← same])
  · exact only' i same

theorem LeavesBut.mono (but : LeavesBut s s' root W) (more : ∀ a, W a → W' a) :
    LeavesBut s s' root W' := by
  intro va pte b aligned small here
  obtain ⟨b', here', only⟩ := but va pte b aligned small here
  refine ⟨b', here', fun i differ => ?_⟩
  obtain ⟨inPage, changed, flags⟩ := only i differ
  exact ⟨inPage, more _ changed, flags⟩

theorem userAddr_leaves (inv : SpaceInv tramp s p T L M) (kernel : KernelPages tramp s p T L)
    (aligned : va % PGSIZE = 0) (W : Nat → Prop) :
    wp (userAddr p p.pagetable va) E (fun _ s' => LeavesBut s s' p.pagetable W) s := by
  have frame : TRAPFRAME < MAXVA := by decide
  have down : PGROUNDDOWN va = va := by
    simp only [PGROUNDDOWN, PGSIZE] at *
    omega
  rw [userAddr, wp_bind, wp_walkaddr inv.pt aligned, wp_ite]
  refine ⟨fun _ => ?_, fun _ => .refl s p.pagetable W⟩
  refine wp_post (vmfault_spec inv va) ?_
  intro r s' faulted
  have stays : (∀ va', va' % PGSIZE = 0 → va' < MAXVA → leaf s p.pagetable va' ≠ none →
      leaf s' p.pagetable va' = leaf s p.pagetable va') → LeavesBut s s' p.pagetable W := by
    intro same va' pte b aligned' small here
    refine ⟨b, (same va' aligned' small (by rw [here]; rintro ⟨⟩)).trans here, fun i differ => ?_⟩
    exact absurd rfl differ
  refine stays ?_
  intro va' aligned' small there
  cases faulted with
  | refused T' inv' kept same why still =>
      exact leaf_stays inv kernel inv'.toHolds kept same aligned' small rfl
  | given T' mem inside hole fresh inv' kept same zero left =>
      refine leaf_stays inv kernel inv'.toHolds kept same aligned' small (upd_of_ne ?_ _ _)
      rintro rfl
      refine there ?_
      rw [leaf, inv.pt.map _ aligned' small, hole]
      rfl

theorem leavesBut_write (inv : SpaceInv tramp s p T L M)
    (kernel : KernelPages tramp s p T L) {pte : Nat}
    (aligned : va % PGSIZE = 0) (user : va < TRAPFRAME) (mapped : M va = some pte)
    (allowed : pte &&& PTE_U ≠ 0) (writable : pte &&& PTE_W ≠ 0) (b : Bytes)
    (only : ∀ i, b i ≠ s.mem (leafPage pte) i → i < PGSIZE ∧ W (va + i)) :
    LeavesBut s { s with mem := upd s.mem (leafPage pte) b } p.pagetable W := by
  have page := leafPage_mem inv aligned user mapped
  have inv' := (inv.write page b).1
  intro va' pte' b' aligned' small here
  have entry : M va' = some pte' ∧ s.mem (leafPage pte') = b' := by
    rw [leaf, inv.pt.map va' aligned' small, Option.map_eq_some_iff] at here
    obtain ⟨found, mapped', same⟩ := here
    cases same
    exact ⟨mapped', rfl⟩
  obtain ⟨mapped', rfl⟩ := entry
  refine ⟨upd s.mem (leafPage pte) b (leafPage pte'), ?_, ?_⟩
  · rw [leaf, inv'.pt.map va' aligned' small, mapped', Option.map_some]
  · intro i differ
    by_cases same : leafPage pte' = leafPage pte
    · rw [same, upd_self] at differ
      have here : va' = va := by
        rcases Nat.lt_or_ge va' TRAPFRAME with user' | above
        · exact inv.once va' va pte' pte aligned' aligned user' user mapped' mapped same
        · have outside := (inv.kernel_leaf kernel aligned' above small mapped').2.2
          rw [same] at outside
          exact absurd page outside
      subst here
      rw [mapped] at mapped'
      obtain rfl := Option.some.inj mapped'
      obtain ⟨inPage, changed⟩ := only i differ
      exact ⟨inPage, changed, allowed, writable⟩
    · rw [upd_of_ne same] at differ
      exact absurd rfl differ

theorem copyinLoop_leaves : ∀ (fuel a len : Nat) (dst : List UInt8) (s : Phys) (T L : Finset Nat)
    (M : Nat → Option Nat), SpaceInv tramp s p T L M → KernelPages tramp s p T L → 0 < s.low →
    wp (copyinLoop p p.pagetable fuel a len dst) E
      (fun _ s' => LeavesBut s s' p.pagetable fun _ => False) s := by
  intro fuel
  induction fuel with
  | zero =>
      intro a len dst s T L M inv kernel some
      rw [copyinLoop, wp_pure]
      exact .refl s _ _
  | succ fuel ih =>
      intro a len dst s T L M inv kernel some
      have aligned := (PGROUNDDOWN_spec a).1
      rw [copyinLoop, wp_ite]
      simp only [wp_pure]
      refine ⟨fun _ => .refl s _ _, fun _ => ?_⟩
      refine wp_seq (wp_and (userAddr_spec inv some aligned)
        (userAddr_leaves inv kernel aligned fun _ => False)) ?_
      rintro pa0 s' ⟨touched, same⟩
      obtain ⟨T', L', M', inv', kept, -⟩ := touched.space
      rw [wp_ite]
      refine ⟨fun _ => same, fun _ => ?_⟩
      rw [wp_bind, wp_get]
      refine wp_post (ih _ _ _ s' T' L' M' inv' (kernel.moved kept) (by rw [kept.low]; exact some)) ?_
      intro r s'' later
      exact same.trans later

theorem copyoutLoop_leaves : ∀ (fuel a : Nat) (src : List UInt8) (s : Phys) (T L : Finset Nat)
    (M : Nat → Option Nat), SpaceInv tramp s p T L M → KernelPages tramp s p T L → 0 < s.low →
    a < 2 ^ 64 → wp (copyoutLoop p p.pagetable fuel a src) E (fun _ s' =>
      LeavesBut s s' p.pagetable (InRange a src.length)) s := by
  have frame : TRAPFRAME < MAXVA := by decide
  intro fuel
  induction fuel with
  | zero =>
      intro a src s T L M inv kernel some word
      rw [copyoutLoop, wp_pure]
      exact .refl s _ _
  | succ fuel ih =>
      intro a src s T L M inv kernel some word
      have aligned := (PGROUNDDOWN_spec a).1
      rw [copyoutLoop, wp_ite]
      simp only [wp_ite, wp_pure]
      refine ⟨fun _ => .refl s _ _, fun _ => ⟨fun _ => .refl s _ _, fun _ => ?_⟩⟩
      refine wp_seq (wp_and (userAddr_spec inv some aligned) (userAddr_leaves inv kernel aligned
        (InRange a src.length))) ?_
      rintro pa0 s' ⟨touched, same⟩
      obtain ⟨T', L', M', inv', kept, page⟩ := touched.space
      rw [wp_ite]
      refine ⟨fun _ => same, fun found => ?_⟩
      obtain ⟨pte, user, mapped, allowed, rfl⟩ := page found
      have member := leafPage_mem inv' aligned user mapped
      rw [wp_bind]
      refine wp_walk_leaf (Nat.lt_trans user frame) ((inv'.leafPte_eq aligned user).trans mapped) ?_
      intro t i entry
      simp only [wp_bind, wp_readPte, entry, wp_ite]
      refine ⟨fun _ => same, fun writable => ?_⟩
      rw [wp_blit, ← leafPage]
      have written := inv'.write member (blitted (s'.mem (leafPage pte)) (a - PGROUNDDOWN a) src
        (chunk a src.length))
      have wrote := leavesBut_write (W := InRange a src.length) inv'
        (kernel.moved kept) aligned user mapped allowed writable
        (blitted (s'.mem (leafPage pte)) (a - PGROUNDDOWN a) src (chunk a src.length)) (by
        intro i differ
        obtain ⟨-, low, near⟩ := PGROUNDDOWN_spec a
        by_cases inside : a - PGROUNDDOWN a ≤ i ∧ i < a - PGROUNDDOWN a + chunk a src.length
        · have piece : chunk a src.length ≤ PGSIZE - (a - PGROUNDDOWN a) := Nat.min_le_left _ _
          have most : chunk a src.length ≤ src.length := Nat.min_le_right _ _
          refine ⟨by omega, i - (a - PGROUNDDOWN a), by omega, ?_⟩
          have less : i - (a - PGROUNDDOWN a) < chunk a src.length := by omega
          rw [(turn_addr word less).1]
          omega
        · rw [blitted, if_neg inside] at differ
          exact absurd rfl differ)
      refine wp_post (ih _ _ _ T' L' M' written.1 ((kernel.moved kept).moved written.2) ?_
        (wrap64_lt _)) ?_
      · change 0 < s'.low
        rw [kept.low]
        exact some
      · intro r s'' later
        refine (same.trans wrote).trans (later.mono ?_)
        rintro x ⟨k, less, rfl⟩
        rw [List.length_drop] at less
        refine ⟨chunk a src.length + k, by omega, ?_⟩
        have more : src.length - chunk a src.length ≠ 0 := by omega
        rw [turn_next more]

theorem onlyAt_of_became (inv : SpaceInv tramp s p T L M) (became : Became tramp s s' p T L)
    (leaves : LeavesBut s s' p.pagetable W) : OnlyAt s s' p.pagetable W := by
  obtain ⟨T', L', M', inv', kept⟩ := became
  refine ⟨leaves, fun q notFree notTable notLeaf => kept.frame q notFree ?_ ?_⟩
  · exact fun table => notTable ((inv.pt.tables q).mp table)
  · intro user
    obtain ⟨va, pte, aligned, small, mapped, page⟩ := (inv.leaves q).mp user
    exact notLeaf va pte aligned small ((inv.leafPte_eq aligned small).trans mapped) page

end Frame

/-! ## The three copies -/

/-- A `copyin` of `len` bytes from `a` reads as many as can be read, and succeeds when these are
all. -/
structure CopyinExact (s : Phys) (p : Space) (a len : Nat) (r : Int) (dst : List UInt8) (s' : Phys) :
    Prop where
  result : r = 0 ∨ r = -1
  succeeds : r = 0 ↔ ∀ k, k < len → Readable s p (wrap64 (a + k))
  whole : r = 0 → dst = userBytes s p a len
  part : ∃ i, i ≤ len ∧ (∀ k, k < i → Readable s p (wrap64 (a + k))) ∧ dst = userBytes s p a i
  view : seen s' p = seen s p
  only : OnlyAt s s' p.pagetable fun _ => False

/-- A `copyout` of `src` to `a` writes as many bytes as can be written, and succeeds when these
are all. -/
structure CopyoutExact (s : Phys) (p : Space) (a : Nat) (src : List UInt8) (r : Int) (s' : Phys) :
    Prop where
  result : r = 0 ∨ r = -1
  succeeds : r = 0 ↔ ∀ k, k < src.length → Writable s p (wrap64 (a + k))
  bytes : ∃ i, i ≤ src.length ∧ (r = 0 → i = src.length) ∧
    (∀ k, k < i → Writable s p (wrap64 (a + k))) ∧
    ∀ x, Readable s p x → Readable s' p x ∧ userByte s' p x =
      if positionFrom a x < i then src.getD (positionFrom a x) 0 else userByte s p x
  only : OnlyAt s s' p.pagetable (InRange a src.length)

/-- A NUL comes after `n` bytes, within `max` and before the first byte that is not mapped for
the user. -/
def StringEnds (s : Phys) (p : Space) (a max n : Nat) : Prop :=
  n < max ∧ (∀ k, k ≤ n → UserMapped s p (wrap64 (a + k))) ∧ userByte s p (wrap64 (a + n)) = 0

/-- A `copyinstr` of at most `max` bytes from `a`. -/
structure CopyinstrExact (s : Phys) (p : Space) (a max : Nat) (r : Int) (dst : List UInt8) : Prop where
  result : r = 0 ∨ r = -1
  most : dst.length ≤ max
  succeeds : r = 0 ↔ ∃ n, StringEnds s p a max n
  text : r = 0 → ∃ n, StringEnds s p a max n ∧
    (∀ k, k < n → userByte s p (wrap64 (a + k)) ≠ 0) ∧ dst = userBytes s p a n ++ [0]

section Exact
variable {tramp : Nat} {s : Phys} {p : Space} {a : Nat}

theorem copyin_exact (space : AddressSpace tramp s p) (kernel : 0 < s.low) (enough : Enough s p)
    (word : a < 2 ^ 64) (len : Nat) :
    ∃ r dst s', copyin p p.pagetable a len s = .ok ((r, dst), s') ∧ CopyinExact s p a len r dst s' := by
  obtain ⟨T, L, M, inv, high⟩ := space
  obtain ⟨⟨r, dst⟩, s', run, ⟨became, view, exactly⟩, leaves⟩ := wp_total
    (wp_and (copyinLoop_spec len a len [] s T L M inv kernel)
      (copyinLoop_leaves len a len [] s T L M inv high kernel))
  obtain ⟨-, result, -⟩ := exactly enough
  have only := onlyAt_of_became inv became leaves
  have readable : ∀ k, InView (seen s p) a k ↔ Readable s p (wrap64 (a + k)) :=
    fun k => inv.seen_readable
  have ends := copyinView_spec (V := seen s p) len a len [] (Nat.le_refl len) word
  refine ⟨r, dst, s', run, ?_⟩
  rw [← result] at ends
  cases ends with
  | all inside =>
      have all : ∀ k, k < len → Readable s p (wrap64 (a + k)) :=
        fun k less => (readable k).mp (inside k less)
      rw [List.nil_append, inv.bytes_seen all]
      exact ⟨Or.inl rfl, ⟨fun _ => all, fun _ => rfl⟩, fun _ => rfl, ⟨len, Nat.le_refl len, all, rfl⟩,
        view, only⟩
  | stop j i less missing before most =>
      have part : ∀ k, k < i → Readable s p (wrap64 (a + k)) :=
        fun k low => (readable k).mp (before k (by omega))
      rw [List.nil_append, inv.bytes_seen part]
      refine ⟨Or.inr rfl, ⟨fun no => absurd no (by decide), fun all => ?_⟩,
        fun no => absurd no (by decide), ⟨i, by omega, part, rfl⟩, view, only⟩
      exact absurd ((readable j).mpr (all j less)) missing

theorem copyout_exact (space : AddressSpace tramp s p) (kernel : 0 < s.low) (enough : Enough s p)
    (word : a < 2 ^ 64) (src : List UInt8) (short : src.length < 2 ^ 64) :
    ∃ r s', copyout p p.pagetable a src s = .ok (r, s') ∧ CopyoutExact s p a src r s' := by
  obtain ⟨T, L, M, inv, high⟩ := space
  obtain ⟨r, s', run, ⟨became, exactly⟩, leaves⟩ := wp_total
    (wp_and (copyoutLoop_spec src.length a src s T L M inv kernel)
      (copyoutLoop_leaves src.length a src s T L M inv high kernel word))
  obtain ⟨-, result, -⟩ := exactly enough
  have only := onlyAt_of_became inv became leaves
  obtain ⟨T', L', M', inv', -⟩ := became
  have writable : ∀ k, WritableView (seen s p) a k ↔ Writable s p (wrap64 (a + k)) :=
    fun k => inv.seen_writable
  -- what is seen afterwards, byte by byte
  have bytes : ∀ i, i ≤ src.length → seen s' p = viewPlaced (seen s p) a (src.take i) →
      ∀ x, Readable s p x → Readable s' p x ∧ userByte s' p x =
        if positionFrom a x < i then src.getD (positionFrom a x) 0 else userByte s p x := by
    intro i most placed x readable
    have readable' : Readable s' p x := by
      rw [← inv'.seen_readable, placed, Ne, viewPlaced_none]
      exact inv.seen_readable.mpr readable
    refine ⟨readable', ?_⟩
    rw [← inv'.byte_seen readable', ← inv.byte_seen readable,
      viewByte_placed (inv.seen_readable.mpr readable) placed, List.length_take, Nat.min_eq_left most]
    by_cases inside : positionFrom a x < i
    · rw [if_pos inside, if_pos inside, List.getD_eq_getElem?_getD, List.getElem?_take, if_pos inside,
        List.getD_eq_getElem?_getD]
    · rw [if_neg inside, if_neg inside]
  have ends := copyoutView_spec src.length a src (seen s p) (Nat.le_refl _) word short ofUser_seen
  rw [← result] at ends
  refine ⟨r, s', run, ?_⟩
  generalize after : seen s' p = view at ends
  cases ends with
  | all inside =>
      have all : ∀ k, k < src.length → Writable s p (wrap64 (a + k)) :=
        fun k less => (writable k).mp (inside k less)
      refine ⟨Or.inl rfl, ⟨fun _ => all, fun _ => rfl⟩,
        ⟨src.length, Nat.le_refl _, fun _ => rfl, all, ?_⟩,
        only⟩
      exact bytes src.length (Nat.le_refl _) (by rw [after, List.take_length])
  | stop j i less missing before most =>
      refine ⟨Or.inr rfl, ⟨fun no => absurd no (by decide), fun all => ?_⟩,
        ⟨i, by omega, fun no => absurd no (by decide), fun k low =>
          (writable k).mp (before k (by omega)), ?_⟩,
        only⟩
      · exact absurd ((writable j).mpr (all j less)) missing
      · exact bytes i (by omega) after

theorem copyinstr_exact (space : AddressSpace tramp s p) (kernel : 0 < s.low) (word : a < 2 ^ 64)
    (max : Nat) :
    ∃ r dst, copyinstr p.pagetable a max s = .ok ((r, dst), s) ∧ CopyinstrExact s p a max r dst := by
  obtain ⟨T, L, M, inv, -⟩ := space
  obtain ⟨⟨r, dst⟩, s', run, rfl, result⟩ := wp_total
    (copyinstrLoop_spec inv kernel (max + 1) a max [])
  have mapped : ∀ k, InView (resident s' p) a k ↔ UserMapped s' p (wrap64 (a + k)) :=
    fun k => inv.resident_userMapped
  have ends := copyinstrView_spec (V := resident s' p) (max + 1) a max [] (Nat.lt_succ_self max) word
  rw [← result] at ends
  refine ⟨r, dst, run, ?_⟩
  have length : ∀ n, (viewBytes (resident s' p) a n).length = n := by
    intro n
    simp [viewBytes]
  cases ends with
  | nul n found =>
      have inside : ∀ k, k ≤ n → UserMapped s' p (wrap64 (a + k)) :=
        fun k low => (mapped k).mp (found.inside k low)
      have nul : userByte s' p (wrap64 (a + n)) = 0 := by
        rw [← inv.byte_resident (inside n (Nat.le_refl n))]
        exact found.nul
      have less := found.less
      refine ⟨Or.inl rfl, ?_, ⟨fun _ => ⟨n, less, inside, nul⟩, fun _ => rfl⟩,
        fun _ => ⟨n, ⟨less, inside, nul⟩, ?_, ?_⟩⟩
      · simp only [List.nil_append, List.length_append, length, List.length_singleton]
        omega
      · intro k low
        rw [← inv.byte_resident (inside k (by omega))]
        exact found.text k low
      · rw [List.nil_append, inv.bytes_resident fun k low => inside k (by omega)]
  | stop i most none =>
      refine ⟨Or.inr rfl, ?_, ⟨fun no => absurd no (by decide), ?_⟩, fun no => absurd no (by decide)⟩
      · rw [List.nil_append, length]
        exact most
      · -- the first NUL would have been found
        rintro ⟨n, less, inside, nul⟩
        classical
        have some : ∃ m, userByte s' p (wrap64 (a + m)) = 0 := ⟨n, nul⟩
        have first := Nat.find_min' some nul
        refine absurd ⟨by omega, fun k low => (mapped k).mpr (inside k (by omega)), ?_, ?_⟩
          (none (Nat.find some))
        · rw [inv.byte_resident (inside _ first)]
          exact Nat.find_spec some
        · intro k low
          rw [inv.byte_resident (inside k (by omega))]
          exact Nat.find_min some low

end Exact

/-- The copies between the kernel and a process are copies byte by byte, for every address and
every length. -/
theorem copies_exact {tramp : Nat} {s : Phys} {p : Space} {a : Nat} (space : AddressSpace tramp s p)
    (kernel : 0 < s.low) (enough : Enough s p) (word : a < 2 ^ 64) :
    (∀ len, ∃ r dst s', copyin p p.pagetable a len s = .ok ((r, dst), s') ∧
      CopyinExact s p a len r dst s') ∧
    (∀ src : List UInt8, src.length < 2 ^ 64 → ∃ r s', copyout p p.pagetable a src s = .ok (r, s') ∧
      CopyoutExact s p a src r s') ∧
    ∀ max, ∃ r dst, copyinstr p.pagetable a max s = .ok ((r, dst), s) ∧
      CopyinstrExact s p a max r dst :=
  ⟨fun len => copyin_exact space kernel enough word len,
    fun src short => copyout_exact space kernel enough word src short,
    fun max => copyinstr_exact space kernel word max⟩

/-- Two bytes at the end of the only page can be written, and the third cannot. -/
theorem lazyProc_copyout : ∃ r s', copyout lazyProc lazyProc.pagetable 4094 [1, 2, 3] firstTable.2 =
    .ok (r, s') ∧ r = -1 ∧ CopyoutExact firstTable.2 lazyProc 4094 [1, 2, 3] r s' := by
  obtain ⟨ready, -⟩ := lazyProc_ready
  obtain ⟨r, s', run, exactly⟩ := (copies_exact (a := 4094) lazyProc_addressSpace ready.kernel
    ready.enough (by decide)).2.1 [1, 2, 3] (by decide)
  have answer : (match copyout lazyProc lazyProc.pagetable 4094 [1, 2, 3] firstTable.2 with
    | .ok (r, _) => decide (r = -1)
    | .error _ => false) = true := by decide +kernel
  rw [run] at answer
  exact ⟨r, s', run, of_decide_eq_true answer, exactly⟩

end Xv6Fcfs.Vm
