import Xv6Fcfs.Log.Model

/-!
# What the log on disk means

`Logged` says that the disk, read through its log, is `base`: the header names the
blocks whose value is in the log, and every other home block has its value in place.
Recovery turns such a disk into `base` whatever part of the log has already been
installed.
-/

set_option autoImplicit false

namespace Xv6Fcfs.Log

open Xv6Fcfs.Lib

/-! ## The buffer cache as a view of the disk -/

/-- What a process sees of block `b`. -/
def view (s : LogSys) (b : Nat) : Block := (s.cache b).getD (s.disk b)

section View
variable (s : LogSys) (b c : Nat) (data : Block)

theorem bread_fst : (bread b s).1 = view s b := by
  unfold bread view
  cases s.cache b <;> rfl

@[simp] theorem bread_disk : (bread b s).2.disk = s.disk := by
  unfold bread
  cases s.cache b <;> rfl

@[simp] theorem bread_lh : (bread b s).2.lh = s.lh := by
  unfold bread
  cases s.cache b <;> rfl

@[simp] theorem bread_refcnt : (bread b s).2.refcnt = s.refcnt := by
  unfold bread
  cases s.cache b <;> rfl

@[simp] theorem bread_phase : (bread b s).2.phase = s.phase := by
  unfold bread
  cases s.cache b <;> rfl

@[simp] theorem bread_ncommit : (bread b s).2.ncommit = s.ncommit := by
  unfold bread
  cases s.cache b <;> rfl

@[simp] theorem bread_outstanding : (bread b s).2.outstanding = s.outstanding := by
  unfold bread
  cases s.cache b <;> rfl

@[simp] theorem bread_committing : (bread b s).2.committing = s.committing := by
  unfold bread
  cases s.cache b <;> rfl

@[simp] theorem bread_view : view (bread b s).2 = view s := by
  funext x
  unfold bread view
  cases cached : s.cache b with
  | some d => rfl
  | none =>
      by_cases same : x = b
      · subst same; simp [cached]
      · simp [same]

@[simp] theorem bwrite_view : view (bwrite b data s) = Function.update (view s) b data := by
  funext x
  by_cases same : x = b
  · subst same; simp [view, bwrite]
  · simp [view, bwrite, same]

@[simp] theorem bwrite_disk : (bwrite b data s).disk = Function.update s.disk b data := rfl

@[simp] theorem bunpin_view : view (bunpin b s) = view s := rfl

theorem writeLogStep_disk (start tail : Nat) : (writeLogStep start tail s).disk =
    Function.update s.disk (start + tail + 1) (view s (s.lh.block tail)) := by
  simp [writeLogStep, bread_fst]

theorem writeLogStep_view (start tail : Nat) : view (writeLogStep start tail s) =
    Function.update (view s) (start + tail + 1) (view s (s.lh.block tail)) := by
  simp [writeLogStep, bread_fst]

theorem writeLogStep_lh (start tail : Nat) : (writeLogStep start tail s).lh = s.lh := by
  simp [writeLogStep, bwrite]

theorem writeLogStep_refcnt (start tail : Nat) :
    (writeLogStep start tail s).refcnt = s.refcnt := by
  simp [writeLogStep, bwrite]

theorem installStep_disk (recovering : Bool) (start tail : Nat) :
    (installStep recovering start tail s).disk =
      Function.update s.disk (s.lh.block tail) (view s (start + tail + 1)) := by
  cases recovering <;> simp [installStep, bunpin, bread_fst, bwrite]

theorem installStep_view (recovering : Bool) (start tail : Nat) :
    view (installStep recovering start tail s) =
      Function.update (view s) (s.lh.block tail) (view s (start + tail + 1)) := by
  cases recovering <;> simp [installStep, bread_fst]

theorem installStep_lh (recovering : Bool) (start tail : Nat) :
    (installStep recovering start tail s).lh = s.lh := by
  cases recovering <;> simp [installStep, bunpin, bwrite]

theorem writeHead_disk (start : Nat) : (writeHead start s).disk =
    Function.update s.disk start (headBytes s.lh (view s start)) := by
  simp [writeHead, bread_fst]

theorem writeHead_view (start : Nat) : view (writeHead start s) =
    Function.update (view s) start (headBytes s.lh (view s start)) := by
  simp [writeHead, bread_fst]

theorem writeHead_lh (start : Nat) : (writeHead start s).lh = s.lh := by
  simp [writeHead, bwrite]

end View

/-! ## The header block -/

section Header

theorem u32_of_count {n : Int} (low : 0 ≤ n) (high : n ≤ LOGBLOCKS) : u32 n = n.toNat := by
  have : (LOGBLOCKS : Int) = 30 := rfl
  unfold u32
  omega

theorem s32_of_count {n : Nat} (high : n ≤ LOGBLOCKS) : s32 n = n := by
  have : LOGBLOCKS = 30 := rfl
  unfold s32
  rw [if_pos (by omega)]

/-- Storing entries changes neither the count nor the entries already stored. -/
theorem headBytes_foldl (block : Nat → Nat) : ∀ (n : Nat) (hb : Block),
    (∀ i, i < n → block i < 2 ^ 32) →
    getLE ((List.range n).foldl (fun hb i => putLE hb (4 + 4 * i) 4 (block i)) hb) 0 4 =
      getLE hb 0 4 ∧
    ∀ i, i < n →
      getLE ((List.range n).foldl (fun hb i => putLE hb (4 + 4 * i) 4 (block i)) hb)
        (4 + 4 * i) 4 = block i := by
  intro n hb small
  refine ⟨?_, ?_⟩
  · apply getLE_congr
    intro i _ high
    exact putArray_outside block hb n (by omega)
  · intro i bound
    exact (getLE_putArray block hb n bound).trans (Nat.mod_eq_of_lt (small i bound))

theorem headBytes_fields (lh : LogHeader) (low : 0 ≤ lh.n) (high : lh.n ≤ LOGBLOCKS)
    (small : ∀ i, i < lh.n.toNat → lh.block i < 2 ^ 32) (buf : Block) :
    getLE (headBytes lh buf) 0 4 = lh.n.toNat ∧
    ∀ i, i < lh.n.toNat → getLE (headBytes lh buf) (4 + 4 * i) 4 = lh.block i := by
  have bound : (LOGBLOCKS : Int) = 30 := rfl
  obtain ⟨head, fields⟩ := headBytes_foldl lh.block lh.n.toNat (putLE buf 0 4 (u32 lh.n)) small
  refine ⟨?_, fields⟩
  rw [headBytes, head, getLE_putLE_same, u32_of_count low high]
  exact Nat.mod_eq_of_lt (by omega)

end Header

/-! ## The disk read through its log -/

/-- The entries of a header: at most `LOGBLOCKS` distinct home blocks. -/
structure Entries (start : Nat) (lh : LogHeader) : Prop where
  low : 0 ≤ lh.n
  high : lh.n ≤ LOGBLOCKS
  home : ∀ i, i < lh.n.toNat → Home start (lh.block i)
  small : ∀ i, i < lh.n.toNat → lh.block i < 2 ^ 32
  distinct : ∀ i j, i < lh.n.toNat → j < lh.n.toNat → lh.block i = lh.block j → i = j

/-- The log on `disk` has the entries of `lh`, and with it the disk means `base`. -/
structure Logged (start : Nat) (disk base : Disk) (lh : LogHeader) : Prop where
  entries : Entries start lh
  count : getLE (disk start) 0 4 = lh.n.toNat
  fields : ∀ i, i < lh.n.toNat → getLE (disk start) (4 + 4 * i) 4 = lh.block i
  copies : ∀ i, i < lh.n.toNat → disk (start + i + 1) = base (lh.block i)
  rest : ∀ b, Home start b → (∀ i, i < lh.n.toNat → lh.block i ≠ b) → disk b = base b

/-- `install_trans` has reached `tail`. -/
structure Installed (start : Nat) (disk base : Disk) (lh : LogHeader) (tail : Nat) : Prop where
  logged : Logged start disk base lh
  bound : tail ≤ lh.n.toNat
  done : ∀ i, i < tail → disk (lh.block i) = base (lh.block i)

section Recovery
variable {start : Nat} {disk base : Disk} {lh : LogHeader} {tail : Nat}

theorem home_ne_log {b i : Nat} (home : Home start b) (bound : i ≤ LOGBLOCKS) :
    b ≠ start + i := by
  unfold Home at home
  omega

theorem Entries.index_le (entries : Entries start lh) {i : Nat} (bound : i < lh.n.toNat) :
    i + 1 ≤ LOGBLOCKS := by
  have := entries.high
  omega

theorem Installed.next (inst : Installed start disk base lh tail) (more : tail < lh.n.toNat) :
    Installed start (Function.update disk (lh.block tail) (disk (start + tail + 1))) base lh
      (tail + 1) := by
  obtain ⟨logged, bound, done⟩ := inst
  have home := logged.entries.home tail more
  have header : start ≠ lh.block tail := fun same =>
    home_ne_log (i := 0) home (by omega) (by omega)
  have copy : ∀ i, i < lh.n.toNat → start + i + 1 ≠ lh.block tail := fun i inside same =>
    home_ne_log (i := i + 1) home (logged.entries.index_le inside) (by omega)
  refine ⟨⟨logged.entries, ?_, ?_, ?_, ?_⟩, by omega, ?_⟩
  · rw [Function.update_of_ne header]
    exact logged.count
  · intro i inside
    rw [Function.update_of_ne header]
    exact logged.fields i inside
  · intro i inside
    rw [Function.update_of_ne (copy i inside)]
    exact logged.copies i inside
  · intro b isHome other
    rw [Function.update_of_ne (Ne.symm (other tail more))]
    exact logged.rest b isHome other
  · intro i below
    rcases Nat.lt_or_ge i tail with earlier | edge
    · by_cases same : lh.block i = lh.block tail
      · rw [same, Function.update_self]
        exact logged.copies tail more
      · rw [Function.update_of_ne same]
        exact done i earlier
    · have : i = tail := by omega
      rw [this, Function.update_self]
      exact logged.copies tail more

/-- When all blocks are installed the home blocks are those of `base`. -/
theorem Installed.home_eq (inst : Installed start disk base lh tail) (all : lh.n.toNat ≤ tail) :
    ∀ b, Home start b → disk b = base b := by
  intro b home
  by_cases named : ∃ i, i < lh.n.toNat ∧ lh.block i = b
  · obtain ⟨i, inside, same⟩ := named
    rw [← same]
    exact inst.done i (by omega)
  · refine inst.logged.rest b home ?_
    intro i inside same
    exact named ⟨i, inside, same⟩

theorem logged_empty (count : getLE (disk start) 0 4 = 0)
    (home : ∀ b, Home start b → disk b = base b) : Logged start disk base ⟨0, fun _ => 0⟩ where
  entries := ⟨by simp, by simp, by simp, by simp, by simp⟩
  count := count
  fields := by simp
  copies := by simp
  rest := fun b isHome _ => home b isHome

theorem clearHead_count (s : LogSys) : getLE ((clearHead start s).disk start) 0 4 = 0 := by
  simp only [clearHead, writeHead_disk, Function.update_self]
  exact (headBytes_fields { s.lh with n := 0 } (by simp) (by simp) (by simp) _).1

theorem clearHead_home {s : LogSys} {b : Nat} (home : Home start b) :
    (clearHead start s).disk b = s.disk b := by
  have differ : b ≠ start := home_ne_log (i := 0) home (by omega)
  simp [clearHead, writeHead_disk, differ]

theorem readHead_entries {s : LogSys} (logged : Logged start s.disk base lh)
    (clean : ∀ b, view s b = s.disk b) :
    (readHead start s).lh.n = lh.n ∧
      ∀ i, i < lh.n.toNat → (readHead start s).lh.block i = lh.block i := by
  have buffer : (bread start s).1 = s.disk start := by rw [bread_fst, clean]
  have count : s32 (getLE (s.disk start) 0 4) = lh.n := by
    have := logged.entries.high
    have := logged.entries.low
    rw [logged.count, s32_of_count (by omega)]
    omega
  refine ⟨?_, ?_⟩
  · simp only [readHead, buffer, count]
  · intro i inside
    simp only [readHead, buffer, count, if_pos inside]
    exact logged.fields i inside

theorem Logged.congr {lh' : LogHeader} (logged : Logged start disk base lh) (n : lh'.n = lh.n)
    (block : ∀ i, i < lh.n.toNat → lh'.block i = lh.block i) : Logged start disk base lh' where
  entries := by
    have entries := logged.entries
    refine ⟨n ▸ entries.low, n ▸ entries.high, ?_, ?_, ?_⟩
    · intro i inside
      rw [n] at inside
      rw [block i inside]
      exact entries.home i inside
    · intro i inside
      rw [n] at inside
      rw [block i inside]
      exact entries.small i inside
    · intro i j insideI insideJ same
      rw [n] at insideI insideJ
      rw [block i insideI, block j insideJ] at same
      exact entries.distinct i j insideI insideJ same
  count := n ▸ logged.count
  fields := by
    intro i inside
    rw [n] at inside
    rw [block i inside]
    exact logged.fields i inside
  copies := by
    intro i inside
    rw [n] at inside
    rw [block i inside]
    exact logged.copies i inside
  rest := by
    intro b home other
    refine logged.rest b home ?_
    intro i inside
    rw [← block i inside]
    exact other i (n ▸ inside)

/-- Recovery in progress: the buffers agree with the disk. -/
structure Recovering (start : Nat) (base : Disk) (s : LogSys) (tail : Nat) : Prop where
  inst : Installed start s.disk base s.lh tail
  clean : ∀ b, view s b = s.disk b

theorem recovering_readHead {s : LogSys} (logged : Logged start s.disk base lh)
    (clean : ∀ b, view s b = s.disk b) : Recovering start base (readHead start s) 0 := by
  obtain ⟨n, block⟩ := readHead_entries logged clean
  have disk : (readHead start s).disk = s.disk := by simp [readHead]
  refine ⟨⟨?_, by omega, fun i below => by omega⟩, ?_⟩
  · rw [disk]
    exact logged.congr n block
  · intro b
    have : view (readHead start s) b = view (bread start s).2 b := rfl
    rw [this, bread_view, disk, clean]

theorem Recovering.step {s : LogSys} (under : Recovering start base s tail)
    (more : tail < s.lh.n.toNat) :
    Recovering start base (installStep true start tail s) (tail + 1) := by
  refine ⟨?_, ?_⟩
  · rw [installStep_disk, installStep_lh, under.clean]
    exact under.inst.next more
  · intro b
    rw [installStep_disk, installStep_view]
    by_cases same : b = s.lh.block tail
    · rw [same, Function.update_self, Function.update_self]
    · rw [Function.update_of_ne same, Function.update_of_ne same]
      exact under.clean b

theorem Recovering.loop {s : LogSys} (under : Recovering start base s 0) :
    ∀ m, m ≤ s.lh.n.toNat →
      Recovering start base
        ((List.range m).foldl (fun s tail => installStep true start tail s) s) m ∧
      ((List.range m).foldl (fun s tail => installStep true start tail s) s).lh = s.lh := by
  intro m
  induction m with
  | zero => intro _; exact ⟨under, rfl⟩
  | succ m ih =>
      intro bound
      obtain ⟨here, lh⟩ := ih (by omega)
      simp only [List.range_succ, List.foldl_append, List.foldl_cons, List.foldl_nil]
      refine ⟨here.step (by rw [lh]; omega), ?_⟩
      rw [installStep_lh, lh]

/-- The rest of recovery, once the header has been read. -/
theorem Recovering.finish {s : LogSys} (under : Recovering start base s 0) :
    ∀ b, Home start b → (clearHead start
      ((List.range s.lh.n.toNat).foldl (fun s tail => installStep true start tail s) s)).disk b =
        base b := by
  intro b home
  obtain ⟨last, same⟩ := under.loop s.lh.n.toNat (Nat.le_refl _)
  rw [clearHead_home home]
  exact last.inst.home_eq (by rw [same]) b home

/-- Recovery of a disk that means `base` leaves `base` in the home blocks. -/
theorem recovered_eq (logged : Logged start disk base lh) :
    ∀ b, Home start b → recovered start disk b = base b :=
  (recovering_readHead (s := LogSys.reset disk .reading) logged fun _ => rfl).finish

end Recovery

end Xv6Fcfs.Log
