import Xv6Fcfs.Fs.Image

/-!
# Files are byte arrays

The contents of an inode are a list of bytes.  On every structured disk `writei` places a
prefix of its source into that list and `readi` delivers a piece of it; the block maps, the
pieces in which the data moves and the 32-bit sums do not show.
-/

set_option autoImplicit false

namespace Xv6Fcfs.Fs

open Xv6Fcfs.Lib

def firstBytes (bytes : Bytes) (k : Nat) : List UInt8 := (List.range k).map bytes

def Node.content (n : Node) : List UInt8 := firstBytes n.data n.size

/-- `new` placed at `off` of `old`. -/
def place (old : List UInt8) (off : Nat) (new : List UInt8) : List UInt8 :=
  old.take off ++ new ++ old.drop (off + new.length)

def contents (sb : Superblock) (f : FileState) (i : Nat) : List UInt8 :=
  (nodes sb f.disk i).content

/-- `off` lies behind the end, `off + n` overflows or the file would get too long. -/
def Refused (size off n : Nat) : Prop := size < off ∨ 2 ^ 32 ≤ off + n ∨ MAXFILE * BSIZE < off + n

/-! ## Lists -/

section Lists
variable {bytes : Bytes} {k off i : Nat}

theorem length_firstBytes : (firstBytes bytes k).length = k := by simp [firstBytes]

theorem getElem?_firstBytes : (firstBytes bytes k)[i]? = if i < k then some (bytes i) else none := by
  simp only [firstBytes, List.getElem?_map]
  by_cases inside : i < k
  · simp [inside]
  · simp [inside]

theorem getElem?_place {old : List UInt8} (start : off ≤ old.length) {new : List UInt8} :
    (place old off new)[i]? =
      if off ≤ i ∧ i < off + new.length then new[i - off]? else old[i]? := by
  have front : (old.take off).length = off := by simp [start]
  unfold place
  by_cases early : i < off
  · rw [if_neg (by omega), List.append_assoc, List.getElem?_append_left (by omega),
      List.getElem?_take_of_lt early]
  · by_cases middle : i < off + new.length
    · rw [if_pos ⟨by omega, middle⟩, List.append_assoc, List.getElem?_append_right (by omega), front,
        List.getElem?_append_left (by omega)]
    · rw [if_neg (by omega), List.getElem?_append_right (by simp [start]; omega), List.getElem?_drop]
      congr 1
      simp only [List.length_append, front]
      omega

theorem place_end (old new : List UInt8) : place old old.length new = old ++ new := by
  simp [place]

theorem content_write (n : Node) (src : Bytes) (start : off ≤ n.size) :
    Node.content { n with
      size := max n.size (off + k)
      data := fun o => if off ≤ o ∧ o < off + k then src (o - off) else n.data o } =
      place n.content off (firstBytes src k) := by
  apply List.ext_getElem?
  intro i
  rw [getElem?_place (by simpa [Node.content, length_firstBytes] using start)]
  simp only [Node.content, getElem?_firstBytes, length_firstBytes]
  by_cases inside : off ≤ i ∧ i < off + k
  · rw [if_pos (by omega), if_pos inside, if_pos inside, if_pos (by omega)]
  · rw [if_neg inside]
    simp only [if_neg inside]
    by_cases low : i < n.size
    · rw [if_pos (by omega), if_pos low]
    · rw [if_neg (by omega), if_neg low]

theorem firstBytes_eq_content {n : Node} {r : Nat} (fit : off + r ≤ n.size)
    (same : ∀ j, j < r → bytes j = n.data (off + j)) :
    firstBytes bytes r = (n.content.drop off).take r := by
  apply List.ext_getElem?
  intro i
  rw [getElem?_firstBytes]
  by_cases inside : i < r
  · rw [if_pos inside, List.getElem?_take_of_lt inside, List.getElem?_drop]
    simp only [Node.content]
    rw [getElem?_firstBytes, if_pos (by omega), same i inside]
  · rw [if_neg inside, List.getElem?_take_eq_none (by omega)]

end Lists

/-! ## `readi` and `writei` on the contents -/

section Files
variable {sb : Superblock} {f : FileState}

theorem refused_iff {size off n : Nat} (word : off < 2 ^ 32) (count : n < 2 ^ 32) :
    refused size off n ↔ Refused size off n := by
  unfold refused Refused addU32
  simp only [MAXFILE, NDIRECT, NINDIRECT, BSIZE]
  omega

theorem readable_eq (size : Nat) {off n : Nat} (word : off < 2 ^ 32) (count : n < 2 ^ 32) :
    readable size off n = if size < off ∨ 2 ^ 32 ≤ off + n then 0 else min n (size - off) := by
  unfold readable addU32
  by_cases out : size < off ∨ 2 ^ 32 ≤ off + n
  · rw [if_pos out, if_pos (by omega)]
  · rw [if_neg out, if_neg (by omega)]
    split <;> omega

theorem Settled.node_size (settled : Settled sb f) (alloc : f.ip.type ≠ 0) :
    (nodes sb f.disk f.inum).size = f.ip.size := by
  rw [nodes_eq settled.inum (by rw [← settled.ip]; exact alloc), ← settled.ip]
  rfl

theorem Settled.node_data (settled : Settled sb f) (alloc : f.ip.type ≠ 0) {o : Nat}
    (inside : o < f.ip.size) : (nodes sb f.disk f.inum).data o = byteOf f.ip f.disk o := by
  rw [nodes_eq settled.inum (by rw [← settled.ip]; exact alloc), ← settled.ip]
  exact if_pos inside

theorem writei_content (geo : Geometry sb) (settled : Settled sb f) (alloc : f.ip.type ≠ 0)
    (src : Bytes) {off n : Nat} (word : off < 2 ^ 32) (count : n < 2 ^ 32) :
    ∃ r f', writei sb (fun i => some (src i)) off n f = .ok (r, f') ∧
      (Refused f.ip.size off n → r = -1 ∧ f' = f) ∧
      (¬ Refused f.ip.size off n → Settled sb f' ∧ ∃ k : Nat, r = k ∧ k ≤ n ∧
        (k = n ∨ Full sb f'.disk) ∧
        contents sb f' f.inum = place (contents sb f f.inum) off (firstBytes src k) ∧
        f'.ip.size = max f.ip.size (off + k) ∧
        ∀ i, i ≠ f.inum → contents sb f' i = contents sb f i) := by
  obtain ⟨r, f', run, result⟩ :=
    wp_total (writei_spec geo settled alloc (fun i => some (src i)) off count)
  refine ⟨r, f', run, ?_⟩
  rw [refused_iff word count] at result
  rcases result with ⟨minus, same, out⟩ | ⟨inside, k, rfl, wrote⟩
  · exact ⟨fun _ => ⟨minus, same⟩, fun inside => absurd out inside⟩
  · refine ⟨fun out => absurd out inside, fun _ => ⟨wrote.settled, k, rfl, wrote.count, ?_, ?_, ?_, ?_⟩⟩
    · by_cases all : k = n
      · exact Or.inl all
      · have count := wrote.count
        exact Or.inr (wrote.stops (fun _ _ => rfl) (by omega)).1
    · have start : off ≤ f.ip.size := by
        unfold Refused at inside
        omega
      simp only [contents]
      rw [wrote.node_data settled alloc start]
      exact content_write _ src (by rw [settled.node_size alloc]; exact start)
    · rw [wrote.ip]
    · intro i differ
      simp only [contents, wrote.nodes_ne differ]

theorem readi_content (geo : Geometry sb) (settled : Settled sb f) (alloc : f.ip.type ≠ 0)
    {off n : Nat} (word : off < 2 ^ 32) (count : n < 2 ^ 32) :
    ∃ bytes, readi sb (fun _ => true) off n f =
      .ok ((((if f.ip.size < off ∨ 2 ^ 32 ≤ off + n then 0 else min n (f.ip.size - off) : Nat) : Int),
        bytes), f) ∧
      firstBytes bytes (if f.ip.size < off ∨ 2 ^ 32 ≤ off + n then 0 else min n (f.ip.size - off)) =
        ((contents sb f f.inum).drop off).take
          (if f.ip.size < off ∨ 2 ^ 32 ≤ off + n then 0 else min n (f.ip.size - off)) := by
  have work := settled.working alloc
  obtain ⟨⟨r, bytes⟩, f', run, rfl, result⟩ :=
    wp_total (readi_spec geo work (fun _ => true) off count)
  rw [← readable_eq f'.ip.size word count]
  rcases result with ⟨amount, same⟩ | ⟨-, j, -, bad⟩
  · simp only at amount same
    refine ⟨bytes, ?_, ?_⟩
    · rw [run, amount]
    · by_cases none : readable f'.ip.size off n = 0
      · rw [none]
        simp [firstBytes]
      · have last := readable_lt work.fits.size count
          (show readable f'.ip.size off n - 1 < readable f'.ip.size off n by omega)
        apply firstBytes_eq_content
        · rw [settled.node_size alloc]
          omega
        · intro j inside
          rw [same j inside, settled.node_data alloc (readable_lt work.fits.size count inside)]
  · cases bad

/-- On a structured disk the contents of an allocated inode behave as an array of bytes:
`writei` places what it stores and leaves the other inodes alone, and `readi` delivers a
piece and changes nothing. -/
theorem inode_is_bytes (geo : Geometry sb) (settled : Settled sb f) (alloc : f.ip.type ≠ 0)
    (off n : Nat) (word : off < 2 ^ 32) (count : n < 2 ^ 32) :
    (∀ src : Bytes, ∃ r f', writei sb (fun i => some (src i)) off n f = .ok (r, f') ∧
      (Refused f.ip.size off n → r = -1 ∧ f' = f) ∧
      (¬ Refused f.ip.size off n → Settled sb f' ∧ ∃ k : Nat, r = k ∧ k ≤ n ∧
        (k = n ∨ Full sb f'.disk) ∧
        contents sb f' f.inum = place (contents sb f f.inum) off (firstBytes src k) ∧
        f'.ip.size = max f.ip.size (off + k) ∧
        ∀ i, i ≠ f.inum → contents sb f' i = contents sb f i)) ∧
    ∃ bytes, ∃ r : Nat, readi sb (fun _ => true) off n f = .ok ((r, bytes), f) ∧
      r = (if f.ip.size < off ∨ 2 ^ 32 ≤ off + n then 0 else min n (f.ip.size - off)) ∧
      firstBytes bytes r = ((contents sb f f.inum).drop off).take r := by
  refine ⟨fun src => writei_content geo settled alloc src word count, ?_⟩
  obtain ⟨bytes, run, same⟩ := readi_content geo settled alloc word count
  exact ⟨bytes, _, run, rfl, same⟩

end Files

def rootFile : FileState := ⟨ROOTINO, rootDinode, mkfsDisk, []⟩

theorem rootFile_settled : Settled mkfsSb rootFile :=
  ⟨by decide, mkfs_root.symm, mkfs_structured⟩

theorem rootFile_is_bytes :
    (¬ Refused rootFile.ip.size 1020 8 ∧ rootFile.ip.type ≠ 0) ∧
    (∃ r f', writei mkfsSb (fun i => some (UInt8.ofNat i)) 1020 8 rootFile = .ok (r, f') ∧
      Settled mkfsSb f' ∧ ∃ k : Nat, r = k ∧ k ≤ 8 ∧ (k = 8 ∨ Full mkfsSb f'.disk) ∧
        contents mkfsSb f' ROOTINO = place (contents mkfsSb rootFile ROOTINO) 1020
          (firstBytes UInt8.ofNat k)) ∧
    ∃ bytes, ∃ r : Nat, readi mkfsSb (fun _ => true) 1020 8 rootFile = .ok ((r, bytes), rootFile) ∧
      r = 4 := by
  have inside : ¬ Refused rootFile.ip.size 1020 8 := by
    rintro (behind | wraps | long)
    · exact absurd behind (by decide)
    · exact absurd wraps (by decide)
    · exact absurd long (by decide)
  have alloc : rootFile.ip.type ≠ 0 := by decide
  obtain ⟨writes, bytes, r, run, amount, -⟩ :=
    inode_is_bytes mkfs_geometry rootFile_settled alloc 1020 8 (by decide) (by decide)
  refine ⟨⟨inside, alloc⟩, ?_, bytes, r, run, ?_⟩
  · obtain ⟨r, f', run, -, result⟩ := writes UInt8.ofNat
    obtain ⟨settled, k, eq, most, full, same, -⟩ := result inside
    exact ⟨r, f', run, settled, k, eq, most, full, same⟩
  · rw [amount]
    decide

end Xv6Fcfs.Fs
