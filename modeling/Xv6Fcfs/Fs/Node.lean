import Xv6Fcfs.Fs.Contents
import Xv6Fcfs.Fs.Model

/-!
# The file tree a disk stands for

A node is an allocated inode without its block addresses: its fields and its bytes up to
its size.  Directory entries, the lookup of a name and the resolution of a path are
functions of the nodes alone.  What `writei` and `itrunc` do to the nodes is stated here
once; nothing above this module speaks of blocks.
-/

set_option autoImplicit false

namespace Xv6Fcfs.Fs

open Xv6Fcfs.Lib

@[ext]
structure Node where
  type : Nat
  major : Nat
  minor : Nat
  nlink : Nat
  size : Nat
  data : Bytes

def Node.free : Node := ⟨0, 0, 0, 0, 0, fun _ => 0⟩

def nodeOf (d : Dinode) (disk : Disk) : Node where
  type := d.type
  major := d.major
  minor := d.minor
  nlink := d.nlink
  size := d.size
  data o := if o < d.size then byteOf d disk o else 0

def nodes (sb : Superblock) (disk : Disk) (i : Nat) : Node :=
  if i < sb.ninodes ∧ (dinode sb disk i).type ≠ 0 then nodeOf (dinode sb disk i) disk else .free

/-! ## Directories -/

namespace Node

def entInum (n : Node) (k : Nat) : Nat := getLE n.data (16 * k) 2

def entName (n : Node) (k : Nat) : Bytes := fun j => n.data (16 * k + 2 + j)

def nents (n : Node) : Nat := n.size / 16

/-- Entry `k` is in use under a name equal to `name`. -/
def hit (n : Node) (name : Bytes) (k : Nat) : Bool :=
  n.entInum k ≠ 0 && namecmp name (n.entName k)

def lookup (n : Node) (name : Bytes) : Option Nat := (List.range n.nents).find? (n.hit name)

/-- The entry `k` overwritten by `de`. -/
def writeEnt (n : Node) (k : Nat) (de : Bytes) : Node :=
  { n with
    size := max n.size (16 * k + 16)
    data := fun o => if 16 * k ≤ o ∧ o < 16 * k + 16 then de (o - 16 * k) else n.data o }

end Node

structure DirOk (sb : Superblock) (n : Node) : Prop where
  whole : n.size % 16 = 0
  range : ∀ k, k < n.nents → n.entInum k < sb.ninodes

/-- `namex` on the nodes, from inode `i` on. -/
def resolve (tree : Nat → Node) (parent : Bool) : Nat → Nat → Path → Option (Nat × Bytes)
  | 0, _, _ => none
  | fuel + 1, i, path =>
      match skipelem path with
      | none => if parent then none else some (i, fun _ => 0)
      | some (name, rest) =>
          if (tree i).type ≠ T_DIR then none
          else if parent ∧ rest = [] then some (i, name)
          else
            match (tree i).lookup name with
            | none => none
            | some k => resolve tree parent fuel ((tree i).entInum k) rest

/-! ## Entries -/

section Entries
variable {n : Node} {k k' : Nat} {de : Bytes}

theorem writeEnt_nents (whole : n.size % 16 = 0) : (n.writeEnt k de).nents = max n.nents (k + 1) := by
  simp only [Node.nents, Node.writeEnt]
  omega

theorem entInum_writeEnt : (n.writeEnt k de).entInum k' =
    if k' = k then direntInum de else n.entInum k' := by
  by_cases here : k' = k
  · subst here
    rw [if_pos rfl]
    simp only [Node.entInum, direntInum, getLE, Node.writeEnt]
    rw [if_pos (by omega), if_pos (by omega), show 16 * k' - 16 * k' = 0 from by omega,
      show 16 * k' + 1 - 16 * k' = 0 + 1 from by omega]
  · rw [if_neg here]
    apply getLE_congr
    intro i low high
    simp only [Node.writeEnt]
    rw [if_neg (by omega)]

theorem entName_writeEnt {j : Nat} (low : j < DIRSIZ) : (n.writeEnt k de).entName k' j =
    if k' = k then direntName de j else n.entName k' j := by
  simp only [DIRSIZ] at low
  simp only [Node.entName, Node.writeEnt, direntName]
  by_cases here : k' = k
  · subst here
    rw [if_pos (by omega), if_pos rfl]
    congr 1
    omega
  · rw [if_neg (by omega), if_neg here]

theorem strncmpEq_congr {p q q' : Bytes} : ∀ (m i : Nat), (∀ j, i ≤ j → j < i + m → q' j = q j) →
    strncmpEq p q' i m = strncmpEq p q i m := by
  intro m
  induction m with
  | zero => intro i _; rfl
  | succ m ih =>
      intro i same
      simp only [strncmpEq]
      rw [same i (by omega) (by omega), ih (i + 1) fun j low high => same j (by omega) (by omega)]

theorem namecmp_congr {p q q' : Bytes} (same : ∀ j, j < DIRSIZ → q' j = q j) :
    namecmp p q' = namecmp p q :=
  strncmpEq_congr DIRSIZ 0 fun j _ high => same j (by omega)

theorem direntInum_mkDirent (inum : Nat) (name : Bytes) :
    direntInum (mkDirent inum name) = inum % 2 ^ 16 := getLE_putLE_same _ 2 0 inum

theorem direntName_mkDirent (inum : Nat) (name : Bytes) (j : Nat) :
    direntName (mkDirent inum name) j = strncpy name j := by
  simp only [direntName, mkDirent]
  rw [putLE_outside _ _ (by omega)]
  congr 1
  omega

theorem lookup_eq_none {name : Bytes} :
    n.lookup name = none ↔ ∀ k, k < n.nents → n.hit name k = false := by
  simp [Node.lookup, List.find?_eq_none]

theorem lookup_eq_some {name : Bytes} : n.lookup name = some k ↔
    k < n.nents ∧ n.hit name k = true ∧ ∀ j, j < k → n.hit name j = false := by
  rw [Node.lookup, List.find?_range_eq_some]
  simp [and_left_comm]

end Entries

/-! ## How the nodes change -/

section Changes
variable {sb : Superblock} {disk disk' : Disk} {d : Dinode} {i j : Nat} {f f' : FileState}

theorem nodes_eq (bound : i < sb.ninodes) (alloc : (dinode sb disk i).type ≠ 0) :
    nodes sb disk i = nodeOf (dinode sb disk i) disk := if_pos ⟨bound, alloc⟩

theorem nodes_type (bound : i < sb.ninodes) : (nodes sb disk i).type = (dinode sb disk i).type := by
  by_cases alloc : (dinode sb disk i).type ≠ 0
  · rw [nodes_eq bound alloc]
    rfl
  · have none : nodes sb disk i = .free := if_neg fun both => alloc both.2
    rw [none]
    exact (not_not.mp alloc).symm

theorem nodes_range (alloc : (nodes sb disk i).type ≠ 0) : i < sb.ninodes := by
  by_contra out
  have none : nodes sb disk i = .free := if_neg fun both => out both.1
  rw [none] at alloc
  exact alloc rfl

theorem node_eq (alloc : (nodes sb disk i).type ≠ 0) :
    nodes sb disk i = nodeOf (dinode sb disk i) disk := by
  have bound := nodes_range alloc
  rw [nodes_type bound] at alloc
  exact nodes_eq bound alloc

theorem nodeOf_congr (bytes : ∀ o, byteOf d disk' o = byteOf d disk o) :
    nodeOf d disk' = nodeOf d disk := by
  simp only [nodeOf, bytes]

theorem nodes_same (same : i < sb.ninodes → dinode sb disk' i = dinode sb disk i)
    (bytes : i < sb.ninodes → (dinode sb disk i).type ≠ 0 →
      ∀ o, byteOf (dinode sb disk i) disk' o = byteOf (dinode sb disk i) disk o) :
    nodes sb disk' i = nodes sb disk i := by
  by_cases bound : i < sb.ninodes
  · simp only [nodes, same bound]
    by_cases alloc : (dinode sb disk i).type ≠ 0
    · rw [if_pos ⟨bound, alloc⟩, if_pos ⟨bound, alloc⟩, nodeOf_congr (bytes bound alloc)]
    · rw [if_neg fun both => alloc both.2, if_neg fun both => alloc both.2]
  · simp only [nodes]
    rw [if_neg fun both => bound both.1, if_neg fun both => bound both.1]

theorem nodes_setDinode (geo : Geometry sb) (str : Structured sb (dinode sb disk) disk)
    (bound : i < sb.ninodes) (fits : d.Fits) (alloc : d.type ≠ 0)
    (data : ∀ k, slotOf d disk k ≠ 0 → nmeta sb ≤ slotOf d disk k) :
    nodes sb (setDinode sb disk i d) = upd (nodes sb disk) i (nodeOf d disk) := by
  funext j
  by_cases own : j = i
  · subst own
    rw [upd_self, nodes_eq bound (by rw [dinode_setDinode_self _ fits]; exact alloc),
      dinode_setDinode_self _ fits]
    apply nodeOf_congr
    apply (file_same _).2
    intro k held
    exact data_setDinode geo disk d bound (data k held)
  · rw [upd_of_ne own]
    apply nodes_same
    · intro _
      exact dinode_setDinode_ne disk d own
    · intro bound' alloc'
      apply (file_same _).2
      intro k held
      exact data_setDinode geo disk d bound (str.slot_range bound' alloc' held).1

theorem nodes_setDinode_free (geo : Geometry sb) (str : Structured sb (dinode sb disk) disk)
    (bound : i < sb.ninodes) (fits : d.Fits) (none : d.type = 0) :
    nodes sb (setDinode sb disk i d) = upd (nodes sb disk) i .free := by
  funext j
  by_cases own : j = i
  · subst own
    rw [upd_self]
    apply if_neg
    rw [dinode_setDinode_self _ fits]
    exact fun both => both.2 none
  · rw [upd_of_ne own]
    apply nodes_same
    · intro _
      exact dinode_setDinode_ne disk d own
    · intro bound' alloc'
      apply (file_same _).2
      intro k held
      exact data_setDinode geo disk d bound (str.slot_range bound' alloc' held).1

theorem Wrote.nodes_ne {src : Nat → Option UInt8} {off m r : Nat}
    (wrote : Wrote sb src f off m r f') (differ : i ≠ f.inum) :
    nodes sb f'.disk i = nodes sb f.disk i :=
  nodes_same (fun bound => wrote.inodes i bound differ) fun bound alloc =>
    wrote.others i bound differ alloc

theorem Wrote.node_self {src : Nat → Option UInt8} {off m r : Nat}
    (wrote : Wrote sb src f off m r f') (alloc : f.ip.type ≠ 0) :
    nodes sb f'.disk f.inum = nodeOf f'.ip f'.disk := by
  have inum := wrote.settled.inum
  have ip := wrote.settled.ip
  rw [wrote.inum] at inum ip
  have type : f'.ip.type = f.ip.type := by rw [wrote.ip]
  rw [nodes_eq inum (by rw [← ip, type]; exact alloc), ← ip]

/-- A source that is readable throughout leaves the other bytes alone. -/
theorem Wrote.node_data {off m r : Nat} {bytes : Bytes}
    (wrote : Wrote sb (fun i => some (bytes i)) f off m r f') (settled : Settled sb f)
    (alloc : f.ip.type ≠ 0) (start : off ≤ f.ip.size) :
    nodes sb f'.disk f.inum =
      { nodes sb f.disk f.inum with
        size := max (nodes sb f.disk f.inum).size (off + r)
        data := fun o => if off ≤ o ∧ o < off + r then bytes (o - off)
          else (nodes sb f.disk f.inum).data o } := by
  have self : nodes sb f.disk f.inum = nodeOf f.ip f.disk := by
    rw [nodes_eq settled.inum (by rw [← settled.ip]; exact alloc), ← settled.ip]
  rw [wrote.node_self alloc, self]
  have size : f'.ip.size = max f.ip.size (off + r) := by rw [wrote.ip]
  have fields : f'.ip.type = f.ip.type ∧ f'.ip.major = f.ip.major ∧ f'.ip.minor = f.ip.minor ∧
      f'.ip.nlink = f.ip.nlink := by
    rw [wrote.ip]
    exact ⟨rfl, rfl, rfl, rfl⟩
  refine Node.ext fields.1 fields.2.1 fields.2.2.1 fields.2.2.2 size ?_
  funext o
  simp only [nodeOf, size]
  by_cases inside : off ≤ o ∧ o < off + r
  · have stored := wrote.stored (o - off) (by omega)
    rw [show off + (o - off) = o from by omega] at stored
    rw [if_pos (by omega), if_pos inside]
    exact (Option.some.inj stored).symm
  · rw [if_neg inside]
    have same : byteOf f'.ip f'.disk o = byteOf f.ip f.disk o := by
      by_cases early : o < off
      · exact wrote.outside o (Or.inl early)
      · exact wrote.rest (fun _ _ => rfl) o (by omega)
    rw [same]
    by_cases low : o < f.ip.size
    · rw [if_pos (by omega), if_pos low]
    · rw [if_neg (by omega), if_neg low]

theorem Truncated.nodes (done : Truncated sb f f') (work : Working sb f) (settled : Settled sb f) :
    nodes sb f'.disk = upd (nodes sb f.disk) f.inum
      { Fs.nodes sb f.disk f.inum with size := 0, data := fun _ => 0 } := by
  funext i
  by_cases own : i = f.inum
  · subst own
    have inum := done.settled.inum
    have ip := done.settled.ip
    rw [done.inum] at inum ip
    have self : Fs.nodes sb f.disk f.inum = nodeOf f.ip f.disk := by
      rw [nodes_eq settled.inum (by rw [← settled.ip]; exact work.alloc), ← settled.ip]
    rw [upd_self, self, nodes_eq inum (by rw [← ip, done.ip]; exact work.alloc), ← ip, done.ip]
    simp [nodeOf]
  · rw [upd_of_ne own]
    apply nodes_same
    · intro bound
      exact done.inodes i bound own
    · intro bound alloc
      apply (file_same _).2
      intro k held
      exact done.data _ (settled.str.slot_range bound alloc held).1

end Changes

end Xv6Fcfs.Fs
