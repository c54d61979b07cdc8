import Xv6Fcfs.Process.Machine
import Mathlib.Data.Fintype.Card
import Mathlib.Data.Fintype.Pi

/-!
# The disk driver of `kernel/virtio_disk.c` under the scheduler

`virtio_disk_rw` holds `vdisk_lock` except while it sleeps, so on one CPU the code
between two sleeps is one step.  A process inside the driver is therefore asleep or
runnable at one of two places: in the loop that waits for three descriptors, or in
the loop that waits for its request.  `DrvPc` keeps the local variables that are
live there.

The functions pass the process table and the driver's state; `none` is a panic.
-/

set_option autoImplicit false

namespace Xv6Fcfs.Disk

open Xv6Fcfs.Lib Xv6Fcfs.Process

def NUM : Nat := 8

abbrev DescIdx := Fin NUM

instance : NeZero NUM := ⟨by decide⟩
instance : NeZero NBUF := ⟨by decide⟩

def VRING_DESC_F_NEXT : Nat := 1
def VRING_DESC_F_WRITE : Nat := 2

/-- What a descriptor points to. -/
inductive DescAddr where
  | null
  | op (i : DescIdx)
  | data (b : Fin NBUF)
  | status (i : DescIdx)
  deriving DecidableEq

structure VirtqDesc where
  addr : DescAddr
  len : Nat
  flags : Nat
  next : DescIdx
  deriving DecidableEq

def VirtqDesc.zero : VirtqDesc := ⟨.null, 0, 0, 0⟩

structure VirtioBlkReq where
  type : Nat
  reserved : Nat
  sector : Nat
  deriving DecidableEq

structure Info where
  b : Option (Fin NBUF)
  status : Nat
  deriving DecidableEq

/-- `struct disk`, the flag `b->disk` of each buffer, and the requests the device
has taken from the available ring and not answered. -/
@[ext] structure VDisk where
  desc : DescIdx → VirtqDesc
  availRing : DescIdx → DescIdx
  availIdx : Nat
  usedRing : DescIdx → DescIdx
  usedRingIdx : Nat
  free : DescIdx → Bool
  usedIdx : Nat
  info : DescIdx → Info
  ops : DescIdx → VirtioBlkReq
  bufDisk : Fin NBUF → Bool
  devSeen : Nat
  devTaken : List DescIdx
  deriving DecidableEq

/-- The state `virtio_disk_init` leaves. -/
def virtioDiskInit : VDisk where
  desc := fun _ => VirtqDesc.zero
  availRing := fun _ => 0
  availIdx := 0
  usedRing := fun _ => 0
  usedRingIdx := 0
  free := fun _ => true
  usedIdx := 0
  info := fun _ => ⟨none, 0⟩
  ops := fun _ => ⟨0, 0, 0⟩
  bufDisk := fun _ => false
  devSeen := 0
  devTaken := []

/-- An index into a ring of `NUM` entries. -/
def ringSlot (i : Nat) : DescIdx := Fin.ofNat NUM i

/-- `disk.avail->idx`, `disk.used->idx` and `disk.used_idx` are 16-bit counters. -/
def succ16 (i : Nat) : Nat := (i + 1) % 2 ^ 16

/-! ## Descriptors -/

/-- `disk.free[i] = 0`. -/
def VDisk.mark (d : VDisk) (i : DescIdx) : VDisk :=
  { d with free := Function.update d.free i false }

def allocDesc (d : VDisk) : Option (DescIdx × VDisk) :=
  match firstIdx d.free with
  | none => none
  | some i => some (i, d.mark i)

/-- The assignments of `free_desc`. -/
def VDisk.release (d : VDisk) (i : DescIdx) : VDisk :=
  { d with
    desc := Function.update d.desc i VirtqDesc.zero
    free := Function.update d.free i true }

/-- The channel `&disk.free[0]`. -/
def wakeWaiters (me : Slot) (k : Kernel) : Kernel := wakeup (some me) (some .diskFree) k

/-- An index is below `NUM` by its type, so `panic("free_desc 1")` has no case. -/
def freeDesc (me : Slot) (i : DescIdx) (k : Kernel) (d : VDisk) : Option (Kernel × VDisk) :=
  if d.free i then none else some (wakeWaiters me k, d.release i)

/-- A chain is followed until `free_desc` finds a free descriptor at the latest, so
`NUM + 1` turns are enough for every list of descriptors. -/
def freeChainLoop (me : Slot) : Nat → DescIdx → Kernel → VDisk → Option (Kernel × VDisk)
  | 0, _, _, _ => none
  | fuel + 1, i, k, d =>
      let flag := (d.desc i).flags
      let nxt := (d.desc i).next
      match freeDesc me i k d with
      | none => none
      | some (k, d) =>
          if flag &&& VRING_DESC_F_NEXT ≠ 0 then freeChainLoop me fuel nxt k d else some (k, d)

def freeChain (me : Slot) (i : DescIdx) (k : Kernel) (d : VDisk) : Option (Kernel × VDisk) :=
  freeChainLoop me (NUM + 1) i k d

/-- The inner loop of `alloc3_desc`. -/
def freeDescs (me : Slot) : List DescIdx → Kernel → VDisk → Option (Kernel × VDisk)
  | [], k, d => some (k, d)
  | i :: rest, k, d =>
      match freeDesc me i k d with
      | none => none
      | some (k, d) => freeDescs me rest k d

/-- The outer loop of `alloc3_desc` with `n` descriptors still to find; an answer
`none` is the return value -1. -/
def alloc3Loop (me : Slot) : Nat → List DescIdx → Kernel → VDisk →
    Option (Option (List DescIdx) × Kernel × VDisk)
  | 0, idx, k, d => some (some idx, k, d)
  | n + 1, idx, k, d =>
      match allocDesc d with
      | some (i, d) => alloc3Loop me n (idx ++ [i]) k d
      | none => (freeDescs me idx k d).map fun kd => (none, kd)

def alloc3Desc (me : Slot) (k : Kernel) (d : VDisk) :
    Option (Option (List DescIdx) × Kernel × VDisk) :=
  alloc3Loop me 3 [] k d

section Descriptors
variable (me : Slot) (k : Kernel) (d : VDisk)

def VDisk.nfree (d : VDisk) : Nat := (Finset.univ.filter fun i => d.free i = true).card

/-- `d` with the descriptors of `l` taken. -/
def VDisk.grab (d : VDisk) (l : List DescIdx) : VDisk :=
  { d with free := fun i => d.free i && !decide (i ∈ l) }

/-- `d` with the descriptors of `l` cleared and free. -/
def VDisk.releaseAll (d : VDisk) (l : List DescIdx) : VDisk :=
  { d with
    desc := fun i => if i ∈ l then VirtqDesc.zero else d.desc i
    free := fun i => d.free i || decide (i ∈ l) }

theorem wakeWaiters_twice : wakeWaiters me (wakeWaiters me k) = wakeWaiters me k := by
  simp only [wakeWaiters, wakeup, Kernel.mk.injEq, and_self, and_true]
  funext p
  split
  · split <;> simp_all
  · rfl

theorem nfree_take {i : DescIdx} (free : d.free i = true) :
    (d.mark i).nfree + 1 = d.nfree := by
  have split : (Finset.univ.filter fun j => Function.update d.free i false j = true) =
      (Finset.univ.filter fun j => d.free j = true).erase i := by
    ext j
    by_cases same : j = i
    · subst same; simp
    · simp [same]
  have member : i ∈ Finset.univ.filter fun j => d.free j = true := by simpa using free
  change (Finset.univ.filter fun j => Function.update d.free i false j = true).card + 1 = _
  rw [split]
  exact Finset.card_erase_add_one member

theorem allocDesc_cases :
    (d.nfree = 0 ∧ (∀ i, d.free i = false) ∧ allocDesc d = none) ∨
    (∃ i, d.free i = true ∧ (d.mark i).nfree + 1 = d.nfree ∧
      allocDesc d = some (i, d.mark i)) := by
  cases found : firstIdx d.free with
  | none =>
      have taken := firstIdx_none.mp found
      exact Or.inl ⟨by simp [VDisk.nfree, taken], taken, by simp [allocDesc, found]⟩
  | some i =>
      have free := firstIdx_some found
      exact Or.inr ⟨i, free, nfree_take d free, by simp [allocDesc, found]⟩

theorem freeDescs_eq : ∀ (l : List DescIdx) (k : Kernel) (d : VDisk), l.Nodup →
    (∀ i, i ∈ l → d.free i = false) →
    freeDescs me l k d = some (if l = [] then k else wakeWaiters me k, d.releaseAll l) := by
  intro l
  induction l with
  | nil => intro k d _ _; simp [freeDescs, VDisk.releaseAll]
  | cons i rest ih =>
      intro k d nodup taken
      obtain ⟨fresh, nodup⟩ := List.nodup_cons.mp nodup
      have here : d.free i = false := taken i (List.mem_cons_self ..)
      have later : ∀ j, j ∈ rest → (d.release i).free j = false := by
        intro j member
        have differ : j ≠ i := fun same => fresh (same ▸ member)
        simpa [VDisk.release, differ] using taken j (List.mem_cons_of_mem _ member)
      have merged : (d.release i).releaseAll rest = d.releaseAll (i :: rest) := by
        simp only [VDisk.releaseAll, VDisk.release, VDisk.mk.injEq, and_true, true_and]
        refine ⟨?_, ?_⟩ <;> funext j <;> by_cases same : j = i
        · subst same; simp
        · simp [same]
        · subst same; simp
        · simp [same]
      simp only [freeDescs, freeDesc, here, Bool.false_eq_true, if_false]
      rw [ih _ _ nodup later, merged]
      by_cases empty : rest = []
      · simp [empty]
      · simp [empty, wakeWaiters_twice]

theorem alloc3Loop_takes : ∀ (n : Nat) (idx : List DescIdx) (d : VDisk), n ≤ d.nfree →
    ∃ got, alloc3Loop me n idx k d = some (some (idx ++ got), k, d.grab got) ∧
      got.length = n ∧ got.Nodup ∧ ∀ i, i ∈ got → d.free i = true := by
  intro n
  induction n with
  | zero => intro idx d _; exact ⟨[], by simp [alloc3Loop, VDisk.grab]⟩
  | succ n ih =>
      intro idx d enough
      rcases allocDesc_cases d with ⟨zero, _, _⟩ | ⟨i, free, count, out⟩
      · omega
      · obtain ⟨got, run, length, nodup, were⟩ := ih (idx ++ [i]) (d.mark i) (by omega)
        have fresh : i ∉ got := by
          intro member
          simpa [VDisk.mark] using were i member
        refine ⟨i :: got, ?_, by simp [length], List.nodup_cons.mpr ⟨fresh, nodup⟩, ?_⟩
        · simp only [alloc3Loop, out, run, List.append_assoc, List.singleton_append]
          congr 3
          simp only [VDisk.grab, VDisk.mark, VDisk.mk.injEq, and_true, true_and]
          funext j
          by_cases same : j = i
          · subst same; simp
          · simp [same]
        · intro j member
          rcases List.mem_cons.mp member with same | rest
          · exact same ▸ free
          · have := were j rest
            by_cases same : j = i
            · exact same ▸ free
            · simpa [VDisk.mark, same] using this

theorem alloc3Loop_fails : ∀ (n : Nat) (idx : List DescIdx) (d : VDisk), d.nfree < n →
    idx.Nodup → (∀ i, i ∈ idx → d.free i = false) →
    alloc3Loop me n idx k d =
      some (none, if d.nfree = 0 ∧ idx = [] then k else wakeWaiters me k,
        { d with
          desc := fun i => if d.free i || decide (i ∈ idx) then VirtqDesc.zero else d.desc i
          free := fun i => d.free i || decide (i ∈ idx) }) := by
  intro n
  induction n with
  | zero => intro idx d short; omega
  | succ n ih =>
      intro idx d short nodup taken
      rcases allocDesc_cases d with ⟨zero, none, out⟩ | ⟨i, free, count, out⟩
      · simp [alloc3Loop, out, freeDescs_eq me idx k d nodup taken, zero, none, VDisk.releaseAll]
      · have fresh : i ∉ idx := fun member => by simp [taken i member] at free
        have nodup' : (idx ++ [i]).Nodup := by
          rw [List.nodup_append]
          refine ⟨nodup, by simp, ?_⟩
          intro x member y single same
          simp only [List.mem_singleton] at single
          exact fresh (single ▸ same ▸ member)
        have taken' : ∀ j, j ∈ idx ++ [i] → (d.mark i).free j = false := by
          intro j member
          by_cases same : j = i
          · subst same; simp [VDisk.mark]
          · simp only [List.mem_append, List.mem_singleton, same, or_false] at member
            simpa [VDisk.mark, same] using taken j member
        simp only [alloc3Loop, out]
        rw [ih (idx ++ [i]) (d.mark i) (by omega) nodup' taken']
        have some : d.nfree ≠ 0 := by omega
        simp only [List.append_eq_nil_iff, List.cons_ne_self, and_false, if_false, some, false_and]
        congr 3
        simp only [VDisk.mark, VDisk.mk.injEq, and_true, true_and]
        refine ⟨?_, ?_⟩ <;> funext j <;> by_cases same : j = i
        · subst same; simp [free]
        · simp [same]
        · subst same; simp [free]
        · simp [same]

theorem alloc3Desc_takes (enough : 3 ≤ d.nfree) :
    ∃ i0 i1 i2, alloc3Desc me k d = some (some [i0, i1, i2], k, d.grab [i0, i1, i2]) ∧
      [i0, i1, i2].Nodup ∧ ∀ i, i ∈ [i0, i1, i2] → d.free i = true := by
  obtain ⟨got, run, length, nodup, were⟩ := alloc3Loop_takes me k 3 [] d enough
  obtain ⟨i0, i1, i2, rfl⟩ := List.length_eq_three.mp length
  exact ⟨i0, i1, i2, by simpa [alloc3Desc] using run, nodup, were⟩

/-- The free descriptors after a failed attempt: cleared, and free again. -/
def VDisk.cleared (d : VDisk) : VDisk :=
  { d with desc := fun i => if d.free i then VirtqDesc.zero else d.desc i }

/-- A failed `alloc3_desc` wakes the other waiters if it had taken anything. -/
theorem alloc3Desc_fails (short : d.nfree < 3) :
    alloc3Desc me k d =
      some (none, if d.nfree = 0 then k else wakeWaiters me k, d.cleared) := by
  have run := alloc3Loop_fails me k 3 [] d short List.nodup_nil (by simp)
  simpa [alloc3Desc, VDisk.cleared] using run

/-- The three descriptors of a request, linked in order. -/
structure Chain (d : VDisk) (i0 i1 i2 : DescIdx) : Prop where
  nodup : [i0, i1, i2].Nodup
  taken : ∀ i, i ∈ [i0, i1, i2] → d.free i = false
  first : (d.desc i0).flags &&& VRING_DESC_F_NEXT ≠ 0 ∧ (d.desc i0).next = i1
  second : (d.desc i1).flags &&& VRING_DESC_F_NEXT ≠ 0 ∧ (d.desc i1).next = i2
  last : (d.desc i2).flags &&& VRING_DESC_F_NEXT = 0

theorem freeChain_eq {i0 i1 i2 : DescIdx} (chain : Chain d i0 i1 i2) :
    freeChain me i0 k d = some (wakeWaiters me k, d.releaseAll [i0, i1, i2]) := by
  have run := freeDescs_eq me [i0, i1, i2] k d chain.nodup chain.taken
  have differ := chain.nodup
  simp only [List.nodup_cons, List.mem_cons, List.not_mem_nil, or_false, not_or] at differ
  obtain ⟨⟨d01, d02⟩, d12, _⟩ := differ
  have t0 := chain.taken i0 (by simp)
  have t1 := chain.taken i1 (by simp)
  have t2 := chain.taken i2 (by simp)
  simp only [freeDescs, freeDesc, t0, Bool.false_eq_true, if_false] at run
  simp only [freeChain, freeChainLoop, NUM, freeDesc, t0, Bool.false_eq_true, if_false,
    chain.first.1, chain.first.2, ne_eq, not_false_eq_true, if_true]
  have s1 : (d.release i0).desc i1 = d.desc i1 := by simp [VDisk.release, Ne.symm d01]
  have s2 : ((d.release i0).release i1).desc i2 = d.desc i2 := by
    simp [VDisk.release, Ne.symm d02, Ne.symm d12]
  have f1 : (d.release i0).free i1 = false := by simp [VDisk.release, Ne.symm d01, t1]
  have f2 : ((d.release i0).release i1).free i2 = false := by
    simp [VDisk.release, Ne.symm d02, Ne.symm d12, t2]
  simp only [f1, f2, Bool.false_eq_true, if_false] at run
  simp only [s1, s2, f1, f2, chain.second.1, chain.second.2, chain.last, Bool.false_eq_true,
    if_false, not_false_eq_true, not_true_eq_false, if_true]
  simpa using run

end Descriptors

/-! ## Requests -/

structure Request where
  b : Fin NBUF
  blockno : Nat
  write : Bool
  deriving DecidableEq

/-- The part of `virtio_disk_rw` between the two waiting loops. -/
def submit (req : Request) (i0 i1 i2 : DescIdx) (d : VDisk) : VDisk :=
  let sector := req.blockno * 2 % 2 ^ 32
  let d := { d with
    ops := Function.update d.ops i0 ⟨if req.write then 1 else 0, 0, sector⟩ }
  let d := { d with
    desc := Function.update d.desc i0 ⟨.op i0, 16, VRING_DESC_F_NEXT, i1⟩ }
  let d := { d with
    desc := Function.update d.desc i1
      ⟨.data req.b, 1024, (if req.write then 0 else VRING_DESC_F_WRITE) ||| VRING_DESC_F_NEXT, i2⟩ }
  let d := { d with
    info := Function.update d.info i0 { d.info i0 with status := 0xff } }
  let d := { d with
    desc := Function.update d.desc i2 ⟨.status i0, 1, VRING_DESC_F_WRITE, 0⟩ }
  let d := { d with bufDisk := Function.update d.bufDisk req.b true }
  let d := { d with
    info := Function.update d.info i0 { d.info i0 with b := some req.b } }
  let d := { d with
    availRing := Function.update d.availRing (ringSlot d.availIdx) i0 }
  { d with availIdx := succ16 d.availIdx }

/-- Where a process stands in `virtio_disk_rw`. -/
inductive DrvPc where
  | outside
  | allocWait (req : Request)
  | diskWait (b : Fin NBUF) (i0 i1 i2 : DescIdx)
  deriving DecidableEq

def DrvPc.buffer : DrvPc → Option (Fin NBUF)
  | .outside => none
  | .allocWait req => some req.b
  | .diskWait b _ _ _ => some b

@[ext] structure Sys where
  kernel : Kernel
  cpu : Option Slot
  disk : VDisk
  pc : Slot → DrvPc
  deriving DecidableEq

def Sys.boot : Sys := ⟨procinit, none, virtioDiskInit, fun _ => .outside⟩

def Sys.machine (s : Sys) : Machine := ⟨s.kernel, s.cpu⟩

def Sys.withMachine (s : Sys) (m : Machine) : Sys := { s with kernel := m.kernel, cpu := m.cpu }

/-- `p` sleeps at a place of the driver. -/
def Sys.sleepAt (s : Sys) (p : Slot) (chan : Chan) (pc : DrvPc) (k : Kernel) (d : VDisk) : Sys :=
  { s with
    kernel := sleep chan p k
    cpu := none
    disk := d
    pc := Function.update s.pc p pc }

/-- `virtio_disk_rw` from the call, or from the return of the first `sleep`, to the
next `sleep`.  `submit` sets `b->disk`, so the second loop sleeps at least once. -/
def Sys.askDescs (s : Sys) (p : Slot) (req : Request) : Option Sys :=
  match alloc3Desc p s.kernel s.disk with
  | some (some [i0, i1, i2], k, d) =>
      some (s.sleepAt p (.buf req.b) (.diskWait req.b i0 i1 i2) k (submit req i0 i1 i2 d))
  | some (none, k, d) => some (s.sleepAt p .diskFree (.allocWait req) k d)
  | _ => none

/-- `virtio_disk_rw` from the return of the second `sleep`: back to sleep, or out
of the driver with the CPU. -/
def Sys.checkDone (s : Sys) (p : Slot) (b : Fin NBUF) (i0 i1 i2 : DescIdx) : Option Sys :=
  if s.disk.bufDisk b then
    some (s.sleepAt p (.buf b) (.diskWait b i0 i1 i2) s.kernel s.disk)
  else
    let d := { s.disk with
      info := Function.update s.disk.info i0 { s.disk.info i0 with b := none } }
    (freeChain p i0 s.kernel d).map fun kd =>
      { s with kernel := kd.1, disk := kd.2, pc := Function.update s.pc p .outside }

/-- The process that has been given the CPU goes on where it stopped. -/
def Sys.resume (s : Sys) (p : Slot) : Option Sys :=
  match s.pc p with
  | .outside => some s
  | .allocWait req => s.askDescs p req
  | .diskWait b i0 i1 i2 => s.checkDone p b i0 i1 i2

/-- One iteration of `scheduler()`. -/
def Sys.dispatch (s : Sys) : Option Sys :=
  if s.cpu = none then
    let s := s.withMachine (scheduler s.machine)
    match s.cpu with
    | none => some s
    | some p => s.resume p
  else none

/-- `virtio_disk_intr` with `n` entries of the used ring to look at. -/
def intrLoop (me : Option Slot) : Nat → Kernel → VDisk → Option (Kernel × VDisk)
  | 0, k, d => some (k, d)
  | n + 1, k, d =>
      let id := d.usedRing (ringSlot d.usedIdx)
      if (d.info id).status ≠ 0 then none
      else
        match (d.info id).b with
        | none => none
        | some b =>
            intrLoop me n (wakeup me (some (.buf b)) k)
              { d with
                bufDisk := Function.update d.bufDisk b false
                usedIdx := succ16 d.usedIdx }

def virtioDiskIntr (me : Option Slot) (k : Kernel) (d : VDisk) : Option (Kernel × VDisk) :=
  intrLoop me ((d.usedRingIdx + 2 ^ 16 - d.usedIdx) % 2 ^ 16) k d

/-- The device takes the next request from the available ring. -/
def VDisk.take (d : VDisk) : Option VDisk :=
  if d.devSeen = d.availIdx then none
  else some { d with
    devSeen := succ16 d.devSeen
    devTaken := d.availRing (ringSlot d.devSeen) :: d.devTaken }

def VDisk.answer (d : VDisk) (id : DescIdx) (status : Nat) : Option VDisk :=
  if id ∈ d.devTaken then
    some { d with
      devTaken := d.devTaken.erase id
      info := Function.update d.info id { d.info id with status := status }
      usedRing := Function.update d.usedRing (ringSlot d.usedRingIdx) id
      usedRingIdx := succ16 d.usedRingIdx }
  else none

inductive SysEvent where
  | proc (e : Event)
  | dispatch
  | rw (req : Request)
  | take
  | answer (id : DescIdx) (status : Nat)
  | intr
  deriving DecidableEq

def Foreign : Chan → Bool
  | .diskFree => false
  | .buf _ => false
  | _ => true

def Elsewhere : Event → Bool
  | .sleep chan => Foreign chan
  | .wakeup chan => Foreign chan
  | .device chans => chans.all Foreign
  | .dispatch => false
  | _ => true

/-- Callers hold the buffer's lock, so no two processes are in the driver with the
same buffer. -/
def Sys.bufferFree (s : Sys) (b : Fin NBUF) : Prop := ∀ q, (s.pc q).buffer ≠ some b

instance (s : Sys) (b : Fin NBUF) : Decidable (s.bufferFree b) :=
  inferInstanceAs (Decidable (∀ q, (s.pc q).buffer ≠ some b))

def Sys.step (s : Sys) : SysEvent → Option Sys
  | .proc e => if Elsewhere e then (Process.step s.machine e).map s.withMachine else none
  | .dispatch => s.dispatch
  | .rw req =>
      match s.cpu with
      | none => none
      | some p => if s.bufferFree req.b then s.askDescs p req else none
  | .take => s.disk.take.map fun d => { s with disk := d }
  | .answer id status => (s.disk.answer id status).map fun d => { s with disk := d }
  | .intr => (virtioDiskIntr s.cpu s.kernel s.disk).map fun kd =>
      { s with kernel := kd.1, disk := kd.2 }

end Xv6Fcfs.Disk
