import Xv6Fcfs.Fs.Model
import Xv6Fcfs.Lib.Bytes
import Xv6Fcfs.Lib.Runs

/-!
# The inode table and the processes that use it (`kernel/fs.c`)

The steps are the sections under `itable.lock`, and what happens under the sleep-lock of an
inode statement by statement.  There is one device.  Of an inode only the type and the link
count are kept; processes get any inode number they like, add and drop references, and lock an
inode only while they have a reference to it of their own.
-/

set_option autoImplicit false

namespace Xv6Fcfs.Inodes

open Xv6Fcfs.Lib

/-- `struct dinode` -/
structure Dinode where
  type : Nat
  nlink : Nat
deriving DecidableEq

/-- `struct inode`; the sleep-lock says who has it. -/
structure Inode where
  inum : Nat
  ref : Nat
  lock : Option Nat
  valid : Bool
  type : Nat
  nlink : Nat
deriving DecidableEq

/-- Where a process is. -/
inductive Pc where
  | outside
  /-- `ialloc` has marked the inode and goes on to `iget`. -/
  | allocated (inum : Nat)
  /-- `ilock`: in `acquiresleep`. -/
  | locking (e : Nat)
  /-- `ilock`: at `if(ip->valid == 0)`. -/
  | loading (e : Nat)
  /-- `iput`: at `itrunc`, with `itable.lock` released. -/
  | truncating (e : Nat)
  /-- `iput`: at `iupdate`. -/
  | updating (e : Nat)
  /-- `iput`: at `ip->valid = 0`. -/
  | invalidating (e : Nat)
  /-- `iput`: at `releasesleep`. -/
  | releasing (e : Nat)
  /-- `iput`: at the second `acquire(&itable.lock)`. -/
  | dropping (e : Nat)
  /-- `iput`: asleep in `acquiresleep`, with `itable.lock` held. -/
  | asleep (e : Nat)
deriving DecidableEq

structure State where
  itable : Nat → Inode
  disk : Nat → Dinode
  pc : Nat → Pc
  /-- Who has the references to an entry. -/
  holders : Nat → List Nat
  /-- How often `ialloc` has allocated an inode. -/
  gen : Nat → Nat
  /-- What `iput` has found without references and links, and what it has freed on the disk. -/
  found : List (Nat × Nat)
  freed : List (Nat × Nat)

inductive Act where
  | iget (inum : Nat)
  | ialloc (inum type : Nat)
  | idup (e : Nat)
  | ilock (e : Nat)
  | iunlock (e : Nat)
  /-- The link count of a locked inode changes, with `iupdate`. -/
  | setNlink (e nlink : Nat)
  | iput (e : Nat)
  | go
deriving DecidableEq

namespace State

def goes (s : State) (p : Nat) (pc : Pc) : State := { s with pc := upd s.pc p pc }

def setInode (s : State) (e : Nat) (ip : Inode) : State := { s with itable := upd s.itable e ip }

def setLock (s : State) (e : Nat) (lock : Option Nat) : State :=
    s.setInode e { s.itable e with lock := lock }

/-- `ip->ref++`, for a reference of `p`. -/
def hold (s : State) (p e : Nat) : State :=
  { s.setInode e { s.itable e with ref := (s.itable e).ref + 1 } with
    holders := upd s.holders e (p :: s.holders e) }

/-- `ip->ref--` -/
def drop (s : State) (p e : Nat) : State :=
  { s.setInode e { s.itable e with ref := (s.itable e).ref - 1 } with
    holders := upd s.holders e ((s.holders e).erase p) }

/-- `ialloc` marks a free inode. -/
def mark (s : State) (n type : Nat) : State :=
  { s with disk := upd s.disk n ⟨type, 0⟩, gen := upd s.gen n (s.gen n + 1) }

def iupdate (s : State) (e : Nat) : State :=
  { s with disk := upd s.disk (s.itable e).inum ⟨(s.itable e).type, (s.itable e).nlink⟩ }

def incarnation (s : State) (e : Nat) : Nat × Nat := ((s.itable e).inum, s.gen (s.itable e).inum)

def noteFound (s : State) (e : Nat) : State := { s with found := s.incarnation e :: s.found }

def noteFreed (s : State) (e : Nat) : State := { s with freed := s.incarnation e :: s.freed }

def slot (s : State) (inum : Nat) : Option Nat :=
  (List.range NINODE).find? fun e => 0 < (s.itable e).ref ∧ (s.itable e).inum = inum

def empty (s : State) : Option Nat := (List.range NINODE).find? fun e => (s.itable e).ref = 0

def recycle (s : State) (p e inum : Nat) : State :=
  { s.setInode e { s.itable e with inum := inum, ref := 1, valid := false } with
    holders := upd s.holders e [p] }

/-- `iget`; it panics when there is no free entry. -/
def iget (s : State) (p inum : Nat) : Option State :=
  match s.slot inum with
  | some e => some (s.hold p e)
  | none =>
      match s.empty with
      | none => none
      | some e => some (s.recycle p e inum)

/-- The first section of `iput`. -/
def iput (s : State) (p e : Nat) : State :=
  let ip := s.itable e
  if ip.ref = 1 ∧ ip.valid = true ∧ ip.nlink = 0 then
    match ip.lock with
    | none => ((s.setLock e (some p)).noteFound e).goes p (.truncating e)
    | some _ => s.goes p (.asleep e)
  else s.drop p e

end State

/-- A process does not put the last reference under which it has locked an inode. -/
def MayPut (s : State) (p e : Nat) : Prop :=
  p ∈ s.holders e ∧ ((s.itable e).lock = some p → 2 ≤ (s.holders e).count p)

instance (s : State) (p e : Nat) : Decidable (MayPut s p e) := inferInstanceAs (Decidable (_ ∧ _))

def step (s : State) (ev : Nat × Act) : Option State :=
  let p := ev.1
  match s.pc p, ev.2 with
  | .outside, .iget n => s.iget p n
  | .outside, .ialloc n type =>
      if (s.disk n).type = 0 ∧ type ≠ 0 then
        some ((s.mark n type).goes p (.allocated n))
      else none
  | .allocated n, .go => (s.goes p .outside).iget p n
  | .outside, .idup e => if p ∈ s.holders e then some (s.hold p e) else none
  | .outside, .ilock e => if p ∈ s.holders e then some (s.goes p (.locking e)) else none
  | .locking e, .go =>
      if (s.itable e).lock = none then some ((s.setLock e (some p)).goes p (.loading e)) else none
  | .loading e, .go =>
      let ip := s.itable e
      if ip.valid = true then some (s.goes p .outside)
      else
        let dip := s.disk ip.inum
        -- "ilock: no type"
        if dip.type = 0 then none
        else some ((s.setInode e
          { ip with valid := true, type := dip.type, nlink := dip.nlink }).goes p .outside)
  | .outside, .iunlock e => if (s.itable e).lock = some p then some (s.setLock e none) else none
  | .outside, .setNlink e nlink =>
      if (s.itable e).lock = some p then
        some ((s.setInode e { s.itable e with nlink := nlink }).iupdate e)
      else none
  | .outside, .iput e => if MayPut s p e then some (s.iput p e) else none
  | .truncating e, .go => some ((s.setInode e { s.itable e with type := 0 }).goes p (.updating e))
  | .updating e, .go => some (((s.iupdate e).noteFreed e).goes p (.invalidating e))
  | .invalidating e, .go => some
      ((s.setInode e { s.itable e with valid := false }).goes p (.releasing e))
  | .releasing e, .go => some ((s.setLock e none).goes p (.dropping e))
  | .dropping e, .go => some ((s.drop p e).goes p .outside)
  | _, _ => none

/-! ## What the operations change -/

section Fields
variable (s : State) (p e x n type : Nat) (pc : Pc) (ip : Inode) (lock : Option Nat)

@[simp, grind =] theorem goes_pc : (s.goes p pc).pc x = if x = p then pc else s.pc x := rfl
@[simp, grind =] theorem goes_itable : (s.goes p pc).itable x = s.itable x := rfl
@[simp, grind =] theorem goes_holders : (s.goes p pc).holders x = s.holders x := rfl
@[simp, grind =] theorem goes_disk : (s.goes p pc).disk x = s.disk x := rfl
@[simp, grind =] theorem goes_gen : (s.goes p pc).gen x = s.gen x := rfl
@[simp, grind =] theorem goes_found : (s.goes p pc).found = s.found := rfl

@[simp, grind =] theorem setInode_pc : (s.setInode e ip).pc x = s.pc x := rfl
@[simp, grind =] theorem setInode_itable :
    (s.setInode e ip).itable x = if x = e then ip else s.itable x := rfl
@[simp, grind =] theorem setInode_holders : (s.setInode e ip).holders x = s.holders x := rfl
@[simp, grind =] theorem setInode_disk : (s.setInode e ip).disk x = s.disk x := rfl
@[simp, grind =] theorem setInode_gen : (s.setInode e ip).gen x = s.gen x := rfl

@[simp, grind =] theorem setLock_pc : (s.setLock e lock).pc x = s.pc x := rfl
@[simp, grind =] theorem setLock_itable :
    (s.setLock e lock).itable x = if x = e then { s.itable e with lock := lock } else s.itable x := rfl
@[simp, grind =] theorem setLock_holders : (s.setLock e lock).holders x = s.holders x := rfl
@[simp, grind =] theorem setLock_disk : (s.setLock e lock).disk x = s.disk x := rfl
@[simp, grind =] theorem setLock_gen : (s.setLock e lock).gen x = s.gen x := rfl
@[simp, grind =] theorem setLock_found : (s.setLock e lock).found = s.found := rfl

@[simp, grind =] theorem hold_pc : (s.hold p e).pc x = s.pc x := rfl
@[simp, grind =] theorem hold_itable :
    (s.hold p e).itable x = if x = e then { s.itable e with ref := (s.itable e).ref + 1 }
      else s.itable x := rfl
@[simp, grind =] theorem hold_holders :
    (s.hold p e).holders x = if x = e then p :: s.holders e else s.holders x := rfl
@[simp, grind =] theorem hold_disk : (s.hold p e).disk x = s.disk x := rfl
@[simp, grind =] theorem hold_gen : (s.hold p e).gen x = s.gen x := rfl

@[simp, grind =] theorem drop_pc : (s.drop p e).pc x = s.pc x := rfl
@[simp, grind =] theorem drop_itable :
    (s.drop p e).itable x = if x = e then { s.itable e with ref := (s.itable e).ref - 1 }
      else s.itable x := rfl
@[simp, grind =] theorem drop_holders :
    (s.drop p e).holders x = if x = e then (s.holders e).erase p else s.holders x := rfl
@[simp, grind =] theorem drop_disk : (s.drop p e).disk x = s.disk x := rfl
@[simp, grind =] theorem drop_gen : (s.drop p e).gen x = s.gen x := rfl

@[simp, grind =] theorem recycle_pc : (s.recycle p e n).pc x = s.pc x := rfl
@[simp, grind =] theorem recycle_itable :
    (s.recycle p e n).itable x =
      if x = e then { s.itable e with inum := n, ref := 1, valid := false } else s.itable x := rfl
@[simp, grind =] theorem recycle_holders :
    (s.recycle p e n).holders x = if x = e then [p] else s.holders x := rfl
@[simp, grind =] theorem recycle_disk : (s.recycle p e n).disk x = s.disk x := rfl
@[simp, grind =] theorem recycle_gen : (s.recycle p e n).gen x = s.gen x := rfl

@[simp, grind =] theorem mark_pc : (s.mark n type).pc x = s.pc x := rfl
@[simp, grind =] theorem mark_itable : (s.mark n type).itable x = s.itable x := rfl
@[simp, grind =] theorem mark_holders : (s.mark n type).holders x = s.holders x := rfl
@[simp, grind =] theorem mark_disk :
    (s.mark n type).disk x = if x = n then ⟨type, 0⟩ else s.disk x := rfl
@[simp, grind =] theorem mark_gen :
    (s.mark n type).gen x = if x = n then s.gen n + 1 else s.gen x := rfl

@[simp, grind =] theorem iupdate_pc : (s.iupdate e).pc x = s.pc x := rfl
@[simp, grind =] theorem iupdate_itable : (s.iupdate e).itable x = s.itable x := rfl
@[simp, grind =] theorem iupdate_holders : (s.iupdate e).holders x = s.holders x := rfl
@[simp, grind =] theorem iupdate_disk :
    (s.iupdate e).disk x =
      if x = (s.itable e).inum then ⟨(s.itable e).type, (s.itable e).nlink⟩ else s.disk x := rfl
@[simp, grind =] theorem iupdate_gen : (s.iupdate e).gen x = s.gen x := rfl

@[simp, grind =] theorem noteFound_pc : (s.noteFound e).pc x = s.pc x := rfl
@[simp, grind =] theorem noteFound_itable : (s.noteFound e).itable x = s.itable x := rfl
@[simp, grind =] theorem noteFound_holders : (s.noteFound e).holders x = s.holders x := rfl
@[simp, grind =] theorem noteFound_disk : (s.noteFound e).disk x = s.disk x := rfl
@[simp, grind =] theorem noteFound_gen : (s.noteFound e).gen x = s.gen x := rfl
@[simp, grind =] theorem noteFound_found : (s.noteFound e).found = s.incarnation e :: s.found := rfl

@[simp, grind =] theorem noteFreed_pc : (s.noteFreed e).pc x = s.pc x := rfl
@[simp, grind =] theorem noteFreed_itable : (s.noteFreed e).itable x = s.itable x := rfl
@[simp, grind =] theorem noteFreed_holders : (s.noteFreed e).holders x = s.holders x := rfl
@[simp, grind =] theorem noteFreed_disk : (s.noteFreed e).disk x = s.disk x := rfl
@[simp, grind =] theorem noteFreed_gen : (s.noteFreed e).gen x = s.gen x := rfl

end Fields

/-- The table after `iinit`, with any disk. -/
def booted (disk : Nat → Dinode) : State where
  itable _ := ⟨0, 0, none, false, 0, 0⟩
  disk := disk
  pc _ := .outside
  holders _ := []
  gen _ := 0
  found := []
  freed := []

end Xv6Fcfs.Inodes
