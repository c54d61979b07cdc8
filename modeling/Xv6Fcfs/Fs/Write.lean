import Xv6Fcfs.Fs.Ran
import Xv6Fcfs.Fs.Reach
import Xv6Fcfs.Fs.Refine
import Xv6Fcfs.Fs.Room

/-!
# `filewrite` as one write

`filewrite` splits its source into transactions and carries the offset of the file from one to
the next.  What the file and the offset are in the end is what one `writei` of everything would
have left; and when it stops early, the offset tells how much of the source is in the file.
-/

set_option autoImplicit false

namespace Xv6Fcfs.Fs

open Xv6Fcfs.Lib

def inodeOf (s : FsState) (f : Nat) : Nat := (s.itable (s.ftable f).ip).inum

def fileContent (sb : Superblock) (s : FsState) (f : Nat) : List UInt8 :=
  (nodes sb s.disk (inodeOf s f)).content

def fileSize (sb : Superblock) (s : FsState) (f : Nat) : Nat := (nodes sb s.disk (inodeOf s f)).size

/-- There are enough free blocks for the slots `N` of the file. -/
def RoomFor (sb : Superblock) (N : Finset Nat) (s : FsState) (f : Nat) : Prop :=
  missing (dinode sb s.disk (inodeOf s f)) s.disk N ≤ freeBlocks sb s.disk

/-- Between calls: the file is open for writing, nobody has its inode locked and its offset is
not behind the end. -/
structure WriteReady (sb : Superblock) (f : Nat) (s : FsState) : Prop where
  quiet : Quiet sb s
  writing : Writing f s
  unlocked : (s.itable (s.ftable f).ip).locked = false
  start : (s.ftable f).off ≤ fileSize sb s f

/-- The first `k` bytes of the source are in the file at the offset, which has moved behind
them. -/
structure Stored (sb : Superblock) (f : Nat) (src : Bytes) (k : Nat) (s s' : FsState) : Prop where
  inode : inodeOf s' f = inodeOf s f
  content : fileContent sb s' f = place (fileContent sb s f) (s.ftable f).off (firstBytes src k)
  size : fileSize sb s' f = max (fileSize sb s f) ((s.ftable f).off + k)
  off : (s'.ftable f).off = (s.ftable f).off + k
  others : ∀ i, i ≠ inodeOf s f → nodes sb s'.disk i = nodes sb s.disk i
  files : ∀ g, g ≠ f → s'.ftable g = s.ftable g

/-! ## Placing one piece behind the other -/

section Lists
variable {old new more : List UInt8} {off : Nat}

theorem length_content (n : Node) : n.content.length = n.size := by
  simp [Node.content, length_firstBytes]

theorem place_nil (old : List UInt8) (off : Nat) : place old off [] = old := by
  simp [place]

theorem place_place (start : off ≤ old.length) :
    place (place old off new) (off + new.length) more = place old off (new ++ more) := by
  have front : (old.take off ++ new).length = off + new.length := by
    rw [List.length_append, List.length_take, Nat.min_eq_left start]
  unfold place
  rw [List.take_left' front, ← List.drop_drop, List.drop_left' front, List.drop_drop,
    List.length_append, List.append_assoc (old.take off), Nat.add_assoc]

theorem firstBytes_append (src : Bytes) (j k : Nat) :
    firstBytes src j ++ firstBytes (fun i => src (j + i)) k = firstBytes src (j + k) := by
  simp [firstBytes, List.range_add, Function.comp_def]

end Lists

section Stores
variable {sb : Superblock} {f : Nat} {src : Bytes} {j k : Nat} {s t u : FsState}

theorem Stored.refl (start : (s.ftable f).off ≤ fileSize sb s f) : Stored sb f src 0 s s where
  inode := rfl
  content := (place_nil _ _).symm
  size := (Nat.max_eq_left start).symm
  off := rfl
  others _ _ := rfl
  files _ _ := rfl

theorem Stored.trans (start : (s.ftable f).off ≤ fileSize sb s f) (first : Stored sb f src j s t)
    (second : Stored sb f (fun i => src (j + i)) k t u) : Stored sb f src (j + k) s u where
  inode := second.inode.trans first.inode
  content := by
    have inside : (s.ftable f).off ≤ (fileContent sb s f).length := by
      rw [fileContent, length_content]
      exact start
    have piece : (firstBytes src j).length = j := length_firstBytes
    rw [second.content, first.content, first.off, ← firstBytes_append, ← place_place inside, piece]
  size := by
    rw [second.size, first.size, first.off]
    omega
  off := by
    rw [second.off, first.off]
    omega
  others i differ := by
    rw [second.others i (by rwa [first.inode]), first.others i differ]
  files g differ := (second.files g differ).trans (first.files g differ)

end Stores

/-! ## One transaction -/

section Chunk
variable {sb : Superblock} {held : Nat → Nat} {loose : Nat → Prop} {s : FsState} {f a : Nat}

/-- `writei` on an inode of the table, from a source that can be read throughout. -/
theorem writei_on (geo : Geometry sb) (inv : FsInv sb held loose s) (bound : a < NINODE)
    (pos : 0 < (s.itable a).ref) (valid : (s.itable a).valid = true)
    (isFile : (nodes sb s.disk (s.itable a).inum).type = T_FILE) (src : Bytes) {off n : Nat}
    (start : off ≤ (nodes sb s.disk (s.itable a).inum).size) (word : n < 2 ^ 32) :
    wp (onInode a (writei sb (fun i => some (src i)) off n)) (fun _ => False) (fun r s' =>
      FsInv sb held loose s' ∧ s'.ftable = s.ftable ∧ (s'.itable a).ref = (s.itable a).ref ∧
      (s'.itable a).inum = (s.itable a).inum ∧ (s'.itable a).locked = (s.itable a).locked ∧
      (∀ i, i ≠ (s.itable a).inum → nodes sb s'.disk i = nodes sb s.disk i) ∧
      (∃ k, k ≤ n ∧ (Refused (nodes sb s.disk (s.itable a).inum).size off n → r = -1 ∧ k = 0) ∧
        (¬ Refused (nodes sb s.disk (s.itable a).inum).size off n →
          r = k ∧ (k = n ∨ Full sb s'.disk)) ∧
        (nodes sb s'.disk (s.itable a).inum).content =
          place (nodes sb s.disk (s.itable a).inum).content off (firstBytes src k) ∧
        (nodes sb s'.disk (s.itable a).inum).size =
          max (nodes sb s.disk (s.itable a).inum).size (off + k)) ∧
      ∀ N, off + n ≤ MAXFILE * BSIZE → needed off n ⊆ N →
        missing (dinode sb s.disk (s.itable a).inum) s.disk N ≤ freeBlocks sb s.disk →
        r = n ∧ missing (dinode sb s'.disk (s.itable a).inum) s'.disk N ≤ freeBlocks sb s'.disk) s := by
  obtain ⟨settled, alloc⟩ := inv.settled bound pos valid
  have size : (nodes sb s.disk (s.itable a).inum).size = (s.itable a).din.size :=
    settled.node_size alloc
  have small : off < 2 ^ 32 := by
    have limit := (settled.working alloc).fits.size
    have same : (fileState s a).ip = (s.itable a).din := rfl
    rw [same] at limit
    omega
  have disk : ∀ r s', onInode a (writei sb (fun i => some (src i)) off n) s = .ok (r, s') →
      ∃ g, writei sb (fun i => some (src i)) off n (fileState s a) = .ok (r, g) ∧
        s' = withInode a { s.itable a with din := g.ip } g.disk g.log s := by
    intro r s' run
    have found : wp (writei sb (fun i => some (src i)) off n) (fun _ => True) (fun r g =>
        writei sb (fun i => some (src i)) off n (fileState s a) = .ok (r, g)) (fileState s a) :=
      wp_intro (fun r g ran => ran) fun _ _ => trivial
    have moved := (onInode_wp (a := a) (s := s) (E := fun _ => True) (Q := fun r s' => ∃ g,
      writei sb (fun i => some (src i)) off n (fileState s a) = .ok (r, g) ∧
        s' = withInode a { s.itable a with din := g.ip } g.disk g.log s)).mpr
      (wp_post found fun r g ran => ⟨g, ran, rfl⟩)
    exact wp_ok moved run
  apply wp_intro
  · intro r s' run
    obtain ⟨size', data, altered⟩ :=
      wp_ok (writeFile_spec geo inv bound pos valid isFile (fun i => some (src i)) off word) run
    obtain ⟨g, ran, eq⟩ := disk r s' run
    obtain ⟨r', g', again, refuses, stores⟩ := writei_content geo settled alloc src small word
    obtain ⟨rfl, rfl⟩ : r' = r ∧ g' = g := by
      have both := again.symm.trans ran
      cases both
      exact ⟨rfl, rfl⟩
    have onDisk : s'.disk = g'.disk := by rw [eq]; rfl
    have kept := altered.kept a
    refine ⟨altered.inv, altered.ftable, altered.refs a, kept.1, kept.2.2, ?_, ?_, ?_⟩
    · intro i differ
      rw [altered.nodes]
      exact upd_of_ne differ _ _
    · rw [size]
      by_cases out : Refused (s.itable a).din.size off n
      · obtain ⟨minus, rfl⟩ := refuses out
        refine ⟨0, Nat.zero_le n, fun _ => ⟨minus, rfl⟩, fun inside => absurd out inside, ?_, ?_⟩
        · rw [onDisk]
          exact (place_nil _ _).symm
        · rw [onDisk]
          exact size.trans (Nat.max_eq_left (by rw [size] at start; exact start)).symm
      · obtain ⟨settled', k, count, most, full, content, size', -⟩ := stores out
        refine ⟨k, most, fun refused => absurd refused out, fun _ => ⟨count, ?_⟩, ?_, ?_⟩
        · rw [onDisk]
          exact full
        · rw [onDisk]
          exact content
        · have alloc' : g'.ip.type ≠ 0 := by
            have din : (s'.itable a).din = g'.ip := by rw [eq]; simp [withInode, setInode]
            rw [← din]
            have pos' : 0 < (s'.itable a).ref := by rw [altered.refs a]; exact pos
            exact (altered.inv.table.cached a bound pos' (kept.2.1 valid)).2
          have inum : g'.inum = (s.itable a).inum := by
            rcases wp_ok (writei_spec geo settled alloc _ off word) ran with
              ⟨-, same, -⟩ | ⟨-, m, -, wrote⟩
            · rw [same]; rfl
            · exact wrote.inum
          have sized := settled'.node_size alloc'
          rw [inum] at sized
          rw [onDisk, sized]
          exact size'
    · intro N fit slots room
      have roomy : Room sb N (fileState s a) := by
        have ip : (fileState s a).ip = dinode sb s.disk (s.itable a).inum := settled.ip
        unfold Room
        rw [ip]
        exact room
      obtain ⟨all, left⟩ := wp_ok (writei_room geo settled alloc src
        (by rw [size] at start; exact start) fit slots roomy) ran
      refine ⟨all, ?_⟩
      have pos' : 0 < (s'.itable a).ref := by rw [altered.refs a]; exact pos
      have cached := (altered.inv.table.cached a bound pos' (kept.2.1 valid)).1
      have din : (s'.itable a).din = g'.ip := by rw [eq]; simp [withInode, setInode]
      rw [kept.1, din] at cached
      rw [← cached, onDisk]
      exact left
  · intro e run
    exact wp_error (writeFile_spec geo inv bound pos valid isFile (fun i => some (src i)) off word) run

theorem filewriteChunk_stores (geo : Geometry sb) (ready : WriteReady sb f s) (src : Bytes) {n : Nat}
    (word : n < 2 ^ 32) :
    wp (transaction (filewriteChunk sb f (fun i => some (src i)) n)) (fun _ => False) (fun r s' =>
      WriteReady sb f s' ∧ ∃ k, k ≤ n ∧ Stored sb f src k s s' ∧
        (Refused (fileSize sb s f) (s.ftable f).off n → r = -1 ∧ k = 0) ∧
        (¬ Refused (fileSize sb s f) (s.ftable f).off n → r = k ∧ (k = n ∨ Full sb s'.disk)) ∧
        ∀ N, (s.ftable f).off + n ≤ MAXFILE * BSIZE → needed (s.ftable f).off n ⊆ N →
          RoomFor sb N s f → r = n ∧ RoomFor sb N s' f) s := by
  obtain ⟨quiet, writing, unlocked, start⟩ := ready
  have inv := quiet.inv
  have bound := writing.bound
  have open' := inv.files.onInode bound writing.type
  have index := inv.files.opened f bound open'
  have more := inv.table.ref_of_uses index (uses_of_file bound open')
  have pos : 0 < (s.itable (s.ftable f).ip).ref := by omega
  have alloc := inv.table.live _ index more
  have range := inv.table.inums _ index pos
  have isFile := inv.files.writes f bound open' writing.type writing.writable
  apply wp_transaction quiet.log
  simp only [filewriteChunk, wp_bind, wp_get, wp_modify, wp_pure]
  apply wp_post (ilock_ready inv index pos unlocked alloc)
  intro _ t lock
  have same : t.disk = s.disk ∧ t.ftable = s.ftable := ⟨lock.only.disk, lock.only.ftable⟩
  have posT : 0 < (t.itable (s.ftable f).ip).ref := by
    rw [lock.inv.table.refs _ index, lock.only.uses, ← inv.table.refs _ index]
    exact pos
  have fileT : (nodes sb t.disk (t.itable (s.ftable f).ip).inum).type = T_FILE := by
    rw [same.1, lock.inum, nodes_type range]
    exact isFile
  have startT : (s.ftable f).off ≤ (nodes sb t.disk (t.itable (s.ftable f).ip).inum).size := by
    rw [same.1, lock.inum]
    exact start
  apply wp_post (writei_on geo lock.inv index posT lock.valid fileT src startT word)
  rintro r u ⟨invU, files, refU, inumU, lockedU, others,
    ⟨k, most, refuses, stores, content, size⟩, room⟩
  rw [same.1, lock.inum] at refuses stores content size others room
  -- the offset follows what was stored
  have off : ((advance f r u).ftable f).off = (s.ftable f).off + k := by
    have here : (u.ftable f).off = (s.ftable f).off := by rw [files, same.2]
    unfold advance
    by_cases out : Refused (nodes sb s.disk (s.itable (s.ftable f).ip).inum).size (s.ftable f).off n
    · obtain ⟨rfl, rfl⟩ := refuses out
      rw [if_neg (by decide), here]
      rfl
    · obtain ⟨rfl, -⟩ := stores out
      by_cases some : (0 : Int) < (k : Int)
      · rw [if_pos some]
        simp only [setFile, upd_self, Int.toNat_natCast, here]
      · rw [if_neg some, here]
        omega
  have moved : (advance f r u).disk = u.disk ∧ (advance f r u).itable = u.itable ∧
      ((advance f r u).ftable f).ip = (s.ftable f).ip ∧
      ((advance f r u).ftable f).type = (s.ftable f).type ∧
      ((advance f r u).ftable f).writable = (s.ftable f).writable ∧
      ∀ g, g ≠ f → (advance f r u).ftable g = s.ftable g := by
    rw [← same.2, ← files]
    rcases advance_cases f r u with kept | ⟨o, kept⟩
    · rw [kept]
      exact ⟨rfl, rfl, rfl, rfl, rfl, fun _ _ => rfl⟩
    · rw [kept]
      simp only [setFile, upd_self]
      exact ⟨trivial, trivial, trivial, trivial, trivial, fun g differ => upd_of_ne differ _ _⟩
  obtain ⟨disk, itable, ip, type, writable, files'⟩ := moved
  have posV : 0 < ((advance f r u).itable (s.ftable f).ip).ref := by
    rw [itable, refU]
    exact posT
  have lockedV : ((advance f r u).itable (s.ftable f).ip).locked = true := by
    rw [itable, lockedU]
    exact lock.locked
  apply wp_post (iunlock_ready (invU.advance bound r) index posV lockedV)
  rintro _ w ⟨unlock, free, filesW, diskW⟩
  have inode : inodeOf (closed w) f = inodeOf s f := by
    change (w.itable (w.ftable f).ip).inum = _
    rw [filesW, ip, unlock.inum, itable, inumU, lock.inum]
    rfl
  have onDisk : (closed w).disk = u.disk := diskW.trans disk
  have filesC : (closed w).ftable = (advance f r u).ftable := filesW
  have stored : Stored sb f src k s (closed w) := by
    refine ⟨inode, ?_, ?_, ?_, ?_, ?_⟩
    · rw [fileContent, inode, onDisk]
      exact content
    · rw [fileSize, inode, onDisk]
      exact size
    · rw [filesC]
      exact off
    · intro i differ
      rw [onDisk]
      exact others i differ
    · intro g differ
      rw [filesC]
      exact files' g differ
  refine ⟨⟨⟨unlock.inv.endOp, rfl⟩, ⟨bound, ?_, ?_⟩, ?_, ?_⟩, k, most, stored, refuses, ?_, ?_⟩
  · rw [filesC, type]
    exact writing.type
  · rw [filesC, writable]
    exact writing.writable
  · rw [filesC, ip]
    exact free
  · rw [stored.off, stored.size]
    exact Nat.le_max_right _ _
  · rw [onDisk]
    exact stores
  · intro N fit slots enough
    unfold RoomFor
    rw [inode, onDisk]
    exact room N fit slots enough

end Chunk

/-! ## The loop -/

section Loop
variable {sb : Superblock} {s : FsState} {f : Nat}

/-- The loop from its `i`-th byte on, `s₀` being the state it began in. -/
theorem filewriteLoop_stores (geo : Geometry sb) (src : Bytes) (n : Nat) {s₀ : FsState}
    (start : (s₀.ftable f).off ≤ fileSize sb s₀ f) :
    ∀ (fuel i : Nat) (s : FsState), WriteReady sb f s → Stored sb f src i s₀ s → n ≤ i + fuel →
    i ≤ n → wp (filewriteLoop sb f (fun j => some (src j)) n fuel i) (fun _ => False) (fun r s' =>
      WriteReady sb f s' ∧ ∃ k, k ≤ n ∧ Stored sb f src k s₀ s' ∧ (r = n ↔ k = n) ∧
        (k < n → Full sb s'.disk ∨ MAXFILE * BSIZE < (s₀.ftable f).off + n) ∧
        ((s₀.ftable f).off + n ≤ MAXFILE * BSIZE →
          RoomFor sb (needed (s₀.ftable f).off n) s f → k = n)) s := by
  intro fuel
  induction fuel with
  | zero =>
      intro i s ready stored enough within
      obtain rfl : i = n := by omega
      exact ⟨ready, i, Nat.le_refl i, stored, Iff.rfl, fun less => by omega, fun _ _ => rfl⟩
  | succ fuel ih =>
      intro i s ready stored enough within
      simp only [filewriteLoop, wp_ite, wp_bind, wp_pure]
      refine ⟨fun more => ?_, fun done => ?_⟩
      rotate_left
      · obtain rfl : i = n := by omega
        exact ⟨ready, i, Nat.le_refl i, stored, Iff.rfl, fun less => by omega, fun _ _ => rfl⟩
      have some : 0 < min (n - i) writeMax := by
        simp only [writeMax, MAXOPBLOCKS, BSIZE]
        omega
      have small : min (n - i) writeMax < 2 ^ 32 := by
        simp only [writeMax, MAXOPBLOCKS, BSIZE]
        omega
      have most := Nat.min_le_left (n - i) writeMax
      apply wp_post (filewriteChunk_stores geo ready (fun j => src (i + j)) small)
      rintro r t ⟨readyT, k, short, piece, refuses, stores, room⟩
      rw [stored.off] at refuses stores room
      have all := stored.trans start piece
      refine ⟨fun fails => ?_, fun whole => ?_⟩
      · -- an error, or not everything fitted
        refine ⟨readyT, i + k, by omega, all, ⟨fun last => by omega, fun last => ?_⟩, fun _ => ?_,
          fun fit enough' => ?_⟩
        · by_cases out : Refused (fileSize sb s f) ((s₀.ftable f).off + i) (min (n - i) writeMax)
          · have none := (refuses out).2
            omega
          · have count := (stores out).1
            omega
        · by_cases out : Refused (fileSize sb s f) ((s₀.ftable f).off + i) (min (n - i) writeMax)
          · rcases out with behind | wraps | large
            · have inside := ready.start
              rw [stored.off] at inside
              omega
            · simp only [MAXFILE, NDIRECT, NINDIRECT, BSIZE] at *
              omega
            · exact Or.inr (by omega)
          · obtain ⟨count, full⟩ := stores out
            rcases full with same | full
            · omega
            · exact Or.inl full
        · exact absurd (room _ (by omega) (needed_mono (by omega) (by omega)) enough').1 fails
      · have count : k = min (n - i) writeMax := by
          by_cases out : Refused (fileSize sb s f) ((s₀.ftable f).off + i) (min (n - i) writeMax)
          · have minus := (refuses out).1
            omega
          · have count := (stores out).1
            omega
        rw [count] at all
        apply wp_post (ih _ t readyT all (by omega) (by omega))
        rintro r' u ⟨readyU, k', most', stored', last, stops, done⟩
        refine ⟨readyU, k', most', stored', last, stops, fun fit enough' => ?_⟩
        exact done fit (room _ (by omega) (needed_mono (by omega) (by omega)) enough').2

/-- `filewrite` on an inode, from a source that can be read throughout: the first `k` bytes are
in the file and the offset is behind them, and the call reports success exactly when these are
all.  It stops early only on a full disk or past the largest size of a file.  When the range is
within that size and there are enough blocks, it stores everything, and one `writei` of all `n`
bytes leaves the same content, size and offset. -/
theorem filewrite_is_one_writei (geo : Geometry sb) (ready : WriteReady sb f s) (src : Bytes) (n : Nat)
    (count : n < 2 ^ 31) (io : Int) :
    ∃ k s', filewrite sb f (fun j => some (src j)) n io s = .ok
      ((if k = n then (n : Int) else -1), s') ∧
      k ≤ n ∧ Stored sb f src k s s' ∧
      (k < n → Full sb s'.disk ∨ MAXFILE * BSIZE < (s.ftable f).off + n) ∧
      ((s.ftable f).off + n ≤ MAXFILE * BSIZE → RoomFor sb (needed (s.ftable f).off n) s f →
        k = n ∧ ∃ t, transaction (filewriteChunk sb f (fun j => some (src j)) n) s = .ok
          ((n : Int), t) ∧
          fileContent sb t f = fileContent sb s' f ∧ fileSize sb t f = fileSize sb s' f ∧
          (t.ftable f).off = (s'.ftable f).off) := by
  have loop := filewriteLoop_stores geo src n ready.start n 0 s ready (.refl ready.start)
    (Nat.le_add_left n 0) (Nat.zero_le n)
  have whole : wp (filewrite sb f (fun j => some (src j)) n io) (fun _ => False) (fun r s' =>
      ∃ k, r = (if k = n then (n : Int) else -1) ∧ k ≤ n ∧ Stored sb f src k s s' ∧
        (k < n → Full sb s'.disk ∨ MAXFILE * BSIZE < (s.ftable f).off + n) ∧
        ((s.ftable f).off + n ≤ MAXFILE * BSIZE →
          RoomFor sb (needed (s.ftable f).off n) s f → k = n)) s := by
    simp only [filewrite, wp_bind, wp_get, wp_ite, wp_pure, ready.writing.writable,
      ready.writing.type, Int.toNat_natCast]
    refine ⟨fun no => absurd no (by rintro ⟨⟩), fun _ => ?_⟩
    apply wp_post loop
    rintro r s' ⟨-, k, most, stored, last, stops, room⟩
    refine ⟨fun all => ⟨k, ?_, most, stored, stops, room⟩, fun less =>
      ⟨k, ?_, most, stored, stops, room⟩⟩
    · rw [if_pos (last.mp (by exact_mod_cast all))]
    · rw [if_neg fun same => less (by exact_mod_cast last.mpr same)]
  obtain ⟨r, s', run, k, rfl, most, stored, stops, room⟩ := wp_total whole
  refine ⟨k, s', run, most, stored, stops, fun fit enough => ?_⟩
  obtain rfl := room fit enough
  obtain ⟨r, t, once, -, j, -, storedT, -, stores, all⟩ :=
    wp_total (filewriteChunk_stores geo ready src (n := k) (by omega))
  obtain ⟨rfl, -⟩ := all _ fit (Finset.Subset.refl _) enough
  have inside : ¬ Refused (fileSize sb s f) (s.ftable f).off k := by
    have start := ready.start
    rintro (behind | wraps | large)
    · omega
    · simp only [MAXFILE, NDIRECT, NINDIRECT, BSIZE] at *
      omega
    · omega
  obtain rfl : k = j := by
    have same := (stores inside).1
    omega
  refine ⟨rfl, t, once, ?_, ?_, ?_⟩
  · rw [storedT.content, stored.content]
  · rw [storedT.size, stored.size]
  · rw [storedT.off, stored.off]

end Loop

def openNew : List (Nat × Call) := [(0, .open (some [102]) 0x202)]

theorem openNew_ready : ∃ s, WriteReady mkfsSb 0 s ∧ (s.ftable 0).off = 0 ∧
    RoomFor mkfsSb (needed 0 5000) s 0 := by
  obtain ⟨r, start, ends⟩ := Run.exists_of_exec (step mkfsSb) mkfsState openNew (0, .exit)
    (fun s => decide ((s.ftable 0).type = .inode ∧ (s.ftable 0).writable = true ∧
      (s.ftable 0).off = 0 ∧ (s.itable (s.ftable 0).ip).locked = false ∧
      missing (dinode mkfsSb s.disk (s.itable (s.ftable 0).ip).inum) s.disk (needed 0 5000) ≤ 8 ∧
      ∀ i : Nat, i < 8 → bitmap mkfsSb s.disk (1000 + i) = false)) (by decide +kernel)
  obtain ⟨type, writable, off, unlocked, few, free⟩ := of_decide_eq_true ends
  have ok := run_consistent mkfs_geometry r (by rw [start]; exact mkfs_consistent) r.len
    (Nat.le_refl _)
  exact ⟨r.state r.len, ⟨ok.quiet, ⟨by decide, type, writable⟩, unlocked, by omega⟩, off,
    few.trans (le_freeBlocks (by decide) free)⟩

/-- Five thousand bytes go through two transactions. -/
theorem filewrite_two_chunks : ∃ s s', (s.ftable 0).off = 0 ∧
    filewrite mkfsSb 0 (fun _ => some 7) 5000 0 s = .ok (5000, s') ∧
    Stored mkfsSb 0 (fun _ => 7) 5000 s s' := by
  obtain ⟨s, ready, off, room⟩ := openNew_ready
  obtain ⟨k, s', run, -, stored, -, fits⟩ :=
    filewrite_is_one_writei mkfs_geometry ready (fun _ => 7) 5000 (by decide) 0
  obtain ⟨rfl, -⟩ := fits (by rw [off]; decide) (by rw [off]; exact room)
  exact ⟨s, s', off, run, stored⟩

end Xv6Fcfs.Fs
