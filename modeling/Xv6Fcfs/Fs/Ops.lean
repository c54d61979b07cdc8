import Xv6Fcfs.Fs.Invariant

/-!
# Specifications of the inode operations

Each operation on an inode of the table keeps `FsInv` and changes the node of that inode
only.  `iput` frees the inode when the reference dropped was its last and it has no links;
the invariant says that this happens to loose inodes alone.
-/

set_option autoImplicit false

namespace Xv6Fcfs.Fs

open Xv6Fcfs.Lib

/-! ## What a part of a transaction logs -/

/-- Besides blocks of the free map and the blocks of the inodes `is`, at most `k` blocks
were logged from `s` to `s'`. -/
def Logs (sb : Superblock) (is : List Nat) (k : Nat) (s s' : FsState) : Prop :=
  ∃ extra : List Nat, extra.length ≤ k ∧ ∀ b, b ∈ s'.log →
    b ∈ s.log ∨ IsBitmap sb b ∨ (∃ i, i ∈ is ∧ b = IBLOCK sb i) ∨ b ∈ extra

namespace Logs
variable {sb : Superblock} {is is' : List Nat} {k k' : Nat} {s t u : FsState}

theorem of_log (same : t.log = s.log) : Logs sb is k s t := by
  refine ⟨[], Nat.zero_le k, ?_⟩
  intro b listed
  rw [same] at listed
  exact Or.inl listed

theorem mono (logs : Logs sb is k s t) (wider : ∀ i, i ∈ is → i ∈ is') (more : k ≤ k') :
    Logs sb is' k' s t := by
  obtain ⟨extra, length, only⟩ := logs
  refine ⟨extra, Nat.le_trans length more, ?_⟩
  intro b listed
  rcases only b listed with old | bit | ⟨i, member, rfl⟩ | other
  · exact Or.inl old
  · exact Or.inr (Or.inl bit)
  · exact Or.inr (Or.inr (Or.inl ⟨i, wider i member, rfl⟩))
  · exact Or.inr (Or.inr (Or.inr other))

theorem trans (first : Logs sb is k s t) (second : Logs sb is k' t u) :
    Logs sb is (k + k') s u := by
  obtain ⟨early, length, only⟩ := first
  obtain ⟨late, length', only'⟩ := second
  refine ⟨early ++ late, by simp only [List.length_append]; omega, ?_⟩
  intro b listed
  rcases only' b listed with old | bit | inode | other
  · rcases only b old with older | bit | inode | other
    · exact Or.inl older
    · exact Or.inr (Or.inl bit)
    · exact Or.inr (Or.inr (Or.inl inode))
    · exact Or.inr (Or.inr (Or.inr (List.mem_append.mpr (Or.inl other))))
  · exact Or.inr (Or.inl bit)
  · exact Or.inr (Or.inr (Or.inl inode))
  · exact Or.inr (Or.inr (Or.inr (List.mem_append.mpr (Or.inr other))))

theorem of_noted (extra : List Nat) {f : FileState} {a : Nat} {allowed lost : Nat → Prop}
    (noted : Noted allowed lost (fileState s a) f) (log : t.log = f.log)
    (only : ∀ b, allowed b → b = IBLOCK sb (s.itable a).inum ∨ IsBitmap sb b ∨ b ∈ extra) :
    Logs sb [(s.itable a).inum] extra.length s t := by
  refine ⟨extra, Nat.le_refl _, ?_⟩
  intro b listed
  rw [log] at listed
  rcases noted.only b listed with old | may
  · exact Or.inl old
  · rcases only b may with inode | bit | other
    · exact Or.inr (Or.inr (Or.inl ⟨_, List.mem_singleton.mpr rfl, inode⟩))
    · exact Or.inr (Or.inl bit)
    · exact Or.inr (Or.inr (Or.inr other))

end Logs

/-- The inode of entry `a` became the node `n`, and nothing else changed; `k` blocks were
logged besides those that every change logs. -/
structure Altered (sb : Superblock) (held : Nat → Nat) (loose : Nat → Prop) (s : FsState) (a : Nat)
    (n : Node) (k : Nat) (s' : FsState) : Prop where
  inv : FsInv sb held loose s'
  logs : Logs sb [(s.itable a).inum] k s s'
  journal : s'.journal = s.journal
  nodes : nodes sb s'.disk = upd (nodes sb s.disk) (s.itable a).inum n
  ftable : s'.ftable = s.ftable
  proc : s'.proc = s.proc
  gen : s'.gen = s.gen
  stamp : s'.stamp = s.stamp
  kept : ∀ b, Kept s s' b
  refs : ∀ b, (s'.itable b).ref = (s.itable b).ref

section Alter
variable {sb : Superblock} {held : Nat → Nat} {loose loose' : Nat → Prop} {s s' : FsState} {a : Nat}

theorem Altered.of_withInode {n : Node} {d : Dinode} {disk : Disk} {log : List Nat} {k : Nat}
    (inv : FsInv sb held loose (withInode a { s.itable a with din := d } disk log s))
    (logs : Logs sb [(s.itable a).inum] k s
      (withInode a { s.itable a with din := d } disk log s))
    (after : Fs.nodes sb disk = upd (Fs.nodes sb s.disk) (s.itable a).inum n) :
    Altered sb held loose s a n k (withInode a { s.itable a with din := d } disk log s) := by
  refine ⟨inv, logs, rfl, after, rfl, rfl, rfl, rfl, ?_, ?_⟩
  · intro b
    by_cases here : b = a
    · subst here
      simp only [Kept, withInode, setInode, upd_self]
      exact ⟨trivial, id, trivial⟩
    · exact withInode_kept here
  · intro b
    by_cases here : b = a
    · subst here
      simp only [withInode, setInode, upd_self]
    · simp only [withInode, setInode, upd_of_ne here]

theorem Altered.refl (inv : FsInv sb held loose s) (a k : Nat) :
    Altered sb held loose s a (Fs.nodes sb s.disk (s.itable a).inum) k s :=
  ⟨inv, Logs.of_log rfl, rfl, (upd_eq_self _ _).symm, rfl, rfl, rfl, rfl, fun b => Kept.refl s b,
    fun _ => rfl⟩

theorem withInode_self (s : FsState) (a : Nat) :
    withInode a { s.itable a with din := (s.itable a).din } s.disk s.log s = s := by
  have same : upd s.itable a { s.itable a with din := (s.itable a).din } = s.itable :=
    upd_eq_self s.itable a
  simp only [withInode, setInode, same]

/-- An orphan that is not loose has a reference besides those of the call. -/
theorem FsInv.orphan_self (inv : FsInv sb held loose s) (bound : a < NINODE)
    (pos : 0 < (s.itable a).ref) (alloc : (dinode sb s.disk (s.itable a).inum).type ≠ 0)
    (none : (dinode sb s.disk (s.itable a).inum).nlink = 0) (strict : ¬ loose (s.itable a).inum) :
    (s.itable a).valid = true ∧ held a < (s.itable a).ref := by
  obtain ⟨b, index, at', valid, more⟩ :=
    inv.table.orphan _ (inv.table.inums a bound pos) alloc none strict
  obtain rfl : b = a := inv.table.unique b a index bound (by omega) pos at'
  exact ⟨valid, more⟩

theorem FsInv.contents (inv : FsInv sb held loose s) (bound : a < NINODE)
    (pos : 0 < (s.itable a).ref) (valid : (s.itable a).valid = true) {f : FileState}
    (settled : Settled sb f) (logs : LogInv sb s.journal.home f.disk f.log)
    (inum : f.inum = (s.itable a).inum) (type : f.ip.type = (s.itable a).din.type)
    (nlink : f.ip.nlink = (s.itable a).din.nlink)
    (others : ∀ j, j < sb.ninodes → j ≠ (s.itable a).inum →
      dinode sb f.disk j = dinode sb s.disk j)
    (dirs : ∀ i, (nodes sb f.disk i).type = T_DIR → DirOk sb (nodes sb f.disk i)) :
    FsInv sb held loose (Fs.withInode a { s.itable a with din := f.ip } f.disk f.log s) := by
  obtain ⟨cached, alloc⟩ := inv.table.cached a bound pos valid
  have ip := settled.ip
  rw [inum] at ip
  have zero : (dinode sb f.disk 0).type = 0 := by
    by_cases own : 0 = (s.itable a).inum
    · rw [cached, ← own] at alloc
      exact absurd inv.disk.zero alloc
    · rw [others 0 (Nat.zero_lt_of_lt (inv.table.inums a bound pos)) own]
      exact inv.disk.zero
  apply inv.withInode bound pos ⟨settled.str, dirs, zero⟩ logs others
  · rfl
  · rfl
  · intro _
    exact ⟨ip, by rw [type]; exact alloc⟩
  · left
    rw [← ip, type, cached]
  · intro alloc' none strict
    refine ⟨valid, (inv.orphan_self bound pos ?_ ?_ strict).2⟩
    · rw [← cached]
      exact alloc
    · rw [← cached, ← nlink, ip]
      exact none
  · exact fun _ _ strict => strict

theorem Wrote.logInv {home : Disk} {src : Nat → Option UInt8} {f f' : FileState} {off n r : Nat}
    (wrote : Wrote sb src f off n r f') (settled : Settled sb f) (alloc : f.ip.type ≠ 0)
    (logs : LogInv sb home f.disk f.log) : LogInv sb home f'.disk f'.log := by
  have type : f'.ip.type ≠ 0 := by
    rw [wrote.ip]
    exact alloc
  have ip := wrote.settled.ip
  rw [wrote.inum] at ip
  apply logs.noted wrote.noted settled.str.owned.pos
  · apply wrote.noted.indirect_old settled wrote.inodes
    intro _
    exact ⟨alloc, by rw [ip]⟩
  · exact fun b holds => wrote.settled.data_block type holds

theorem Truncated.logInv {home : Disk} {f f' : FileState} (done : Truncated sb f f')
    (settled : Settled sb f) (alloc : f.ip.type ≠ 0) (logs : LogInv sb home f.disk f.log) :
    LogInv sb home f'.disk f'.log := by
  have ip := done.settled.ip
  rw [done.inum] at ip
  apply logs.noted done.noted settled.str.owned.pos
  · apply done.noted.indirect_old settled done.inodes
    intro _
    exact ⟨alloc, by rw [ip]⟩
  · exact fun b none => none.elim

theorem readi_on (geo : Geometry sb) (inv : FsInv sb held loose s) (bound : a < NINODE)
    (pos : 0 < (s.itable a).ref) (valid : (s.itable a).valid = true) (writable : Nat → Bool)
    (off : Nat) {n : Nat} (word : n < 2 ^ 32) :
    wp (onInode a (readi sb writable off n)) (fun _ => False)
      (fun r s' => s' = s ∧
        ((r.1 = readable (nodes sb s.disk (s.itable a).inum).size off n ∧
            ∀ j, j < readable (nodes sb s.disk (s.itable a).inum).size off n →
              r.2 j = (nodes sb s.disk (s.itable a).inum).data (off + j)) ∨
          (r.1 = -1 ∧ ∃ j, j < readable (nodes sb s.disk (s.itable a).inum).size off n ∧
            writable j = false))) s := by
  obtain ⟨settled, alloc⟩ := inv.settled bound pos valid
  have work := settled.working alloc
  rw [onInode_wp, inv.node bound pos valid]
  apply wp_post (readi_spec geo work writable off word)
  rintro r f ⟨rfl, result⟩
  refine ⟨withInode_self s a, ?_⟩
  rcases result with ⟨count, bytes⟩ | bad
  · refine Or.inl ⟨count, ?_⟩
    intro j inside
    rw [bytes j inside]
    simp only [nodeOf]
    rw [if_pos]
    · rfl
    · exact readable_lt work.fits.size word inside
  · exact Or.inr bad

theorem readEntry_spec (geo : Geometry sb) (inv : FsInv sb held loose s) (bound : a < NINODE)
    (pos : 0 < (s.itable a).ref) (valid : (s.itable a).valid = true) {k : Nat}
    (inside : 16 * k + 16 ≤ (nodes sb s.disk (s.itable a).inum).size) :
    wp (onInode a (readi sb (fun _ => true) (16 * k) 16)) (fun _ => False)
      (fun r s' => s' = s ∧ r.1 = 16 ∧
        direntInum r.2 = (nodes sb s.disk (s.itable a).inum).entInum k ∧
        ∀ name, namecmp name (direntName r.2) =
          namecmp name ((nodes sb s.disk (s.itable a).inum).entName k)) s := by
  have limit : (nodes sb s.disk (s.itable a).inum).size < 2 ^ 32 := by
    obtain ⟨settled, alloc⟩ := inv.settled bound pos valid
    rw [inv.node bound pos valid]
    exact (settled.working alloc).fits.size
  have all := readable_all limit inside
  apply wp_post (readi_on geo inv bound pos valid (fun _ => true) (16 * k) (by decide))
  rintro r s' ⟨same, ⟨count, bytes⟩ | ⟨-, j, -, bad⟩⟩
  · rw [all] at count bytes
    refine ⟨same, count, ?_, ?_⟩
    · simp only [direntInum, Node.entInum, getLE]
      rw [bytes 0 (by omega), bytes (0 + 1) (by omega)]
      rfl
    · intro name
      apply namecmp_congr
      intro j low
      simp only [DIRSIZ] at low
      simp only [direntName, Node.entName]
      rw [bytes (2 + j) (by omega), Nat.add_assoc]
  · cases bad

/-- Writing a directory entry from kernel memory: all of it or nothing. -/
theorem writeEntry_spec (geo : Geometry sb) (inv : FsInv sb held loose s) (bound : a < NINODE)
    (pos : 0 < (s.itable a).ref) (valid : (s.itable a).valid = true)
    (isDir : (nodes sb s.disk (s.itable a).inum).type = T_DIR) (de : Bytes) {k : Nat}
    (start : 16 * k ≤ (nodes sb s.disk (s.itable a).inum).size)
    (range : direntInum de < sb.ninodes) :
    wp (onInode a (writei sb (fun i => some (de i)) (16 * k) 16)) (fun _ => False)
      (fun r s' => (r = 16 ∧
          Altered sb held loose s a ((nodes sb s.disk (s.itable a).inum).writeEnt k de) 2 s') ∨
        (r ≠ 16 ∧ (nodes sb s.disk (s.itable a).inum).size < 16 * k + 16 ∧
          Altered sb held loose s a (nodes sb s.disk (s.itable a).inum) 2 s')) s := by
  obtain ⟨settled, alloc⟩ := inv.settled bound pos valid
  have node := inv.node bound pos valid
  have size : (nodes sb s.disk (s.itable a).inum).size = (s.itable a).din.size := by rw [node]; rfl
  have dir := inv.disk.dirs _ isDir
  rw [onInode_wp]
  apply wp_post (writei_spec geo settled alloc (fun i => some (de i)) (16 * k) (by decide))
  have work := settled.working alloc
  have limit := work.size_le
  rintro r f (⟨rfl, rfl, out⟩ | ⟨-, m, rfl, wrote⟩)
  · refine Or.inr ⟨by decide, ?_, ?_⟩
    · by_contra inside
      simp only [refused, addU32, MAXFILE, NDIRECT, NINDIRECT, BSIZE, fileState] at out limit
      rw [size] at inside
      omega
    have self := withInode_self s a
    have state : Altered sb held loose s a (nodes sb s.disk (s.itable a).inum) 2 s :=
      Altered.refl inv a 2
    simp only [fileState]
    rw [self]
    exact state
  · have inum : f.inum = (s.itable a).inum := wrote.inum
    -- a chunk of a block is written whole or not at all
    have whole : m = 0 ∨ m = 16 := by
      by_cases all : m = 16
      · exact Or.inr all
      · have count := wrote.count
        rcases (wrote.stops (fun _ _ => rfl) (by omega)).2.1 with zero | edge
        · exact Or.inl zero
        · simp only [BSIZE] at edge
          omega
    have self := wrote.node_data settled alloc (by rw [size] at start; exact start)
    simp only [fileState] at self
    have after : ∀ n, nodes sb f.disk (s.itable a).inum = n →
        nodes sb f.disk = upd (nodes sb s.disk) (s.itable a).inum n := by
      rintro n rfl
      funext i
      by_cases own : i = (s.itable a).inum
      · rw [own, upd_self]
      · rw [upd_of_ne own]
        exact wrote.nodes_ne own
    have fields : f.ip.type = (s.itable a).din.type ∧ f.ip.nlink = (s.itable a).din.nlink := by
      rw [wrote.ip]
      exact ⟨rfl, rfl⟩
    have finish : ∀ n, nodes sb f.disk (s.itable a).inum = n → DirOk sb n →
        Altered sb held loose s a n 2
          (withInode a { s.itable a with din := f.ip } f.disk f.log s) := by
      rintro n eq okay
      apply Altered.of_withInode _ _ (after n eq)
      rotate_left
      · -- the entry lies in one block
        refine Logs.of_noted [slotOf f.ip f.disk NDIRECT,
          slotOf f.ip f.disk (blockSlot (16 * k / BSIZE))] wrote.noted rfl ?_
        rintro b (inode | bit | ⟨-, slot, rfl | ⟨bn, low, high, rfl⟩, rfl⟩)
        · exact Or.inl inode
        · exact Or.inr (Or.inl bit)
        · exact Or.inr (Or.inr (List.mem_cons_self ..))
        · have here : bn = 16 * k / BSIZE := by
            simp only [BSIZE] at low high ⊢
            omega
          rw [here]
          exact Or.inr (Or.inr (List.mem_cons_of_mem _ (List.mem_singleton.mpr rfl)))
      apply inv.contents bound pos valid wrote.settled (wrote.logInv settled alloc inv.logs) inum
        fields.1 fields.2
      · exact fun j inside differ => wrote.inodes j inside differ
      · intro i dirI
        rw [after n eq] at dirI ⊢
        by_cases own : i = (s.itable a).inum
        · rw [own, upd_self]
          exact okay
        · rw [upd_of_ne own] at dirI ⊢
          exact inv.disk.dirs i dirI
    rcases whole with rfl | rfl
    · have hole := (wrote.stops (fun _ _ => rfl) (by omega)).2.2
      refine Or.inr ⟨by decide, ?_, finish _ ?_ dir⟩
      · by_contra inside
        apply work.mapped _ hole
        have floor := Nat.div_mul_le_self (16 * k + 0) BSIZE
        simp only [fileState]
        omega
      rw [self]
      refine Node.ext rfl rfl rfl rfl ?_ ?_
      · simp only [Nat.add_zero]
        omega
      · funext o
        exact if_neg (by omega)
    · refine Or.inl ⟨rfl, finish _ self ?_⟩
      refine ⟨?_, ?_⟩
      · have old := dir.whole
        simp only [Node.writeEnt]
        omega
      · intro j low
        rw [entInum_writeEnt]
        by_cases here : j = k
        · rw [if_pos here]
          exact range
        · rw [if_neg here]
          rw [writeEnt_nents dir.whole] at low
          by_cases old : j < (nodes sb s.disk (s.itable a).inum).nents
          · exact dir.range j old
          · -- an entry in front of `k` is an old one
            have up : k ≤ (nodes sb s.disk (s.itable a).inum).nents := by
              simp only [Node.nents]
              omega
            omega

theorem writeFile_spec (geo : Geometry sb) (inv : FsInv sb held loose s) (bound : a < NINODE)
    (pos : 0 < (s.itable a).ref) (valid : (s.itable a).valid = true)
    (isFile : (nodes sb s.disk (s.itable a).inum).type = T_FILE) (src : Nat → Option UInt8)
    (off : Nat) {n : Nat} (word : n < 2 ^ 32) :
    wp (onInode a (writei sb src off n)) (fun _ => False)
      (fun _ s' => ∃ size data, Altered sb held loose s a
        { nodes sb s.disk (s.itable a).inum with size := size, data := data }
        (n / BSIZE + 3) s') s := by
  obtain ⟨settled, alloc⟩ := inv.settled bound pos valid
  have node := inv.node bound pos valid
  rw [onInode_wp]
  apply wp_post (writei_spec geo settled alloc src off word)
  rintro r f (⟨-, rfl, -⟩ | ⟨-, m, -, wrote⟩)
  · refine ⟨(nodes sb s.disk (s.itable a).inum).size, (nodes sb s.disk (s.itable a).inum).data, ?_⟩
    have self := withInode_self s a
    simp only [fileState]
    rw [self]
    exact Altered.refl inv a _
  · have inum : f.inum = (s.itable a).inum := wrote.inum
    have fields : f.ip.type = (s.itable a).din.type ∧ f.ip.nlink = (s.itable a).din.nlink ∧
        f.ip.major = (s.itable a).din.major ∧ f.ip.minor = (s.itable a).din.minor := by
      rw [wrote.ip]
      exact ⟨rfl, rfl, rfl, rfl⟩
    have self : nodes sb f.disk (s.itable a).inum =
        { nodes sb s.disk (s.itable a).inum with
          size := (nodeOf f.ip f.disk).size, data := (nodeOf f.ip f.disk).data } := by
      have result := wrote.node_self alloc
      simp only [fileState] at result
      rw [result, node]
      exact Node.ext fields.1 fields.2.2.1 fields.2.2.2 fields.2.1 rfl rfl
    have after : nodes sb f.disk = upd (nodes sb s.disk) (s.itable a).inum
        { nodes sb s.disk (s.itable a).inum with
          size := (nodeOf f.ip f.disk).size, data := (nodeOf f.ip f.disk).data } := by
      funext i
      by_cases own : i = (s.itable a).inum
      · rw [own, upd_self, self]
      · rw [upd_of_ne own]
        exact wrote.nodes_ne own
    refine ⟨_, _, Altered.of_withInode ?_ ?_ after⟩
    rotate_left
    · have every : Logs sb _ _ s _ := Logs.of_noted (slotOf f.ip f.disk NDIRECT ::
        (List.range (n / BSIZE + 2)).map fun j =>
          slotOf f.ip f.disk (blockSlot (off / BSIZE + j))) (a := a) (s := s)
        (t := withInode a { s.itable a with din := f.ip } f.disk f.log s) wrote.noted rfl ?_
      · simpa using every
      · rintro b (inode | bit | ⟨-, slot, rfl | ⟨bn, low, high, rfl⟩, rfl⟩)
        · exact Or.inl inode
        · exact Or.inr (Or.inl bit)
        · exact Or.inr (Or.inr (List.mem_cons_self ..))
        · have near : bn - off / BSIZE < n / BSIZE + 2 := by
            simp only [BSIZE] at low high ⊢
            omega
          refine Or.inr (Or.inr (List.mem_cons_of_mem _ (List.mem_map.mpr
            ⟨bn - off / BSIZE, List.mem_range.mpr near, ?_⟩)))
          rw [Nat.add_sub_cancel' low]
    apply inv.contents bound pos valid wrote.settled (wrote.logInv settled alloc inv.logs) inum
      fields.1 fields.2.1
    · exact fun j inside differ => wrote.inodes j inside differ
    · intro i dirI
      rw [after] at dirI ⊢
      by_cases own : i = (s.itable a).inum
      · rw [own, upd_self] at dirI
        simp only [isFile, T_FILE, T_DIR] at dirI
        omega
      · rw [upd_of_ne own] at dirI ⊢
        exact inv.disk.dirs i dirI

theorem itrunc_on (geo : Geometry sb) (inv : FsInv sb held loose s) (bound : a < NINODE)
    (pos : 0 < (s.itable a).ref) (valid : (s.itable a).valid = true) :
    wp (onInode a (itrunc sb)) (fun _ => False)
      (fun _ s' => Altered sb held loose s a
        { nodes sb s.disk (s.itable a).inum with size := 0, data := fun _ => 0 } 0 s') s := by
  obtain ⟨settled, alloc⟩ := inv.settled bound pos valid
  have work := settled.working alloc
  rw [onInode_wp]
  apply wp_post (itrunc_spec geo work)
  intro _ f done
  have after := done.nodes work settled
  simp only [fileState] at after
  have logs : Logs sb [(s.itable a).inum] 0 s
      (withInode a { s.itable a with din := f.ip } f.disk f.log s) :=
    Logs.of_noted [] done.noted rfl fun b may => may.imp_right Or.inl
  apply Altered.of_withInode _ logs after
  have fields : f.ip.type = (s.itable a).din.type ∧ f.ip.nlink = (s.itable a).din.nlink := by
    rw [done.ip]
    exact ⟨rfl, rfl⟩
  apply inv.contents bound pos valid done.settled (done.logInv settled alloc inv.logs) done.inum
    fields.1 fields.2
  · exact fun j inside differ => done.inodes j inside differ
  · intro i dirI
    rw [after] at dirI ⊢
    by_cases own : i = (s.itable a).inum
    · rw [own, upd_self]
      exact ⟨rfl, fun k low => by simp [Node.nents] at low⟩
    · rw [upd_of_ne own] at dirI ⊢
      exact inv.disk.dirs i dirI

/-- A change of the fields that `iupdate` stores but that the contents do not depend on. -/
structure Mild (change : Dinode → Dinode) : Prop where
  type : ∀ d, (change d).type = d.type
  size : ∀ d, (change d).size = d.size
  addrs : ∀ d, (change d).addrs = d.addrs
  fits : ∀ d, d.Fits → (change d).Fits

theorem Mild.of_nlink (g : Nat → Nat) (small : ∀ v, v < 2 ^ 16 → g v < 2 ^ 16) :
    Mild fun d => { d with nlink := g d.nlink } where
  type _ := rfl
  size _ := rfl
  addrs _ := rfl
  fits _ fits := ⟨fits.type, fits.major, fits.minor, small _ fits.nlink, fits.size, fits.addrs,
    fits.outside⟩

/-- `ip->xxx = ..; iupdate(ip);`.  The inode may have lost its last link. -/
theorem changeInode_spec (geo : Geometry sb) (inv : FsInv sb held loose s) (bound : a < NINODE)
    (pos : 0 < (s.itable a).ref) (valid : (s.itable a).valid = true) {change : Dinode → Dinode}
    (mild : Mild change) :
    wp (changeInode sb a change) (fun _ => False)
      (fun _ s' => (s'.itable a).din = change (s.itable a).din ∧
        Altered sb held (fun i => loose i ∨ i = (s.itable a).inum) s a
        { nodes sb s.disk (s.itable a).inum with
          major := (change (s.itable a).din).major
          minor := (change (s.itable a).din).minor
          nlink := (change (s.itable a).din).nlink } 0 s') s := by
  obtain ⟨cached, alloc⟩ := inv.table.cached a bound pos valid
  have range := inv.table.inums a bound pos
  have fits : (change (s.itable a).din).Fits := by
    apply mild.fits
    rw [cached]
    exact dinode_fits sb s.disk _
  have change' := inv.disk.setDinode geo (d := change (s.itable a).din) range
    (by rw [← cached]; exact alloc) fits (by rw [mild.type, cached]) (by rw [mild.size, cached])
    (by rw [mild.addrs, cached])
  obtain ⟨settled, -⟩ := inv.settled bound pos valid
  have noted : Noted (fun b => b = IBLOCK sb (s.itable a).inum) (fun _ => False) (fileState s a)
      (updated sb { fileState s a with ip := change (s.itable a).din }) := by
    have changed : Noted (fun b => b = IBLOCK sb (s.itable a).inum) (fun _ => False)
        (fileState s a) { fileState s a with ip := change (s.itable a).din } :=
      (Noted.refl _ _ (fileState s a)).setAddrs rfl rfl
        (Or.inl (congrFun (mild.addrs (s.itable a).din) NDIRECT))
    exact changed.trans (updated_noted rfl)
  simp only [changeInode, onInode_wp, wp_bind, wp_modify, iupdate]
  refine ⟨by simp only [withInode, setInode, upd_self], Altered.of_withInode ?_ ?_ change'.2⟩
  rotate_left
  · exact Logs.of_noted [] noted rfl fun b inode => Or.inl inode
  apply inv.withInode bound pos change'.1
  · apply inv.logs.noted noted settled.str.owned.pos
    · apply noted.indirect_old settled
      · exact fun i _ differ => dinode_setDinode_ne s.disk _ differ
      · intro _
        refine ⟨alloc, ?_⟩
        have self : dinode sb (setDinode sb s.disk (s.itable a).inum (change (s.itable a).din))
          (s.itable a).inum = change (s.itable a).din := dinode_setDinode_self s.disk fits
        exact congrFun (congrArg Dinode.addrs self) NDIRECT
    · exact fun b none => none.elim
  · exact fun j _ differ => dinode_setDinode_ne s.disk _ differ
  · rfl
  · rfl
  · intro _
    exact ⟨(dinode_setDinode_self s.disk fits).symm, by rw [mild.type]; exact alloc⟩
  · left
    rw [dinode_setDinode_self s.disk fits, mild.type, cached]
  · exact fun _ _ strict => absurd (Or.inr rfl) strict
  · exact fun j _ strict old => strict (Or.inl old)

/-- An inode that has a link, or a reference besides those of the call, need not be
loose. -/
theorem FsInv.settle (inv : FsInv sb held loose s)
    (okay : ∀ i, i < sb.ninodes → loose i → ¬ loose' i → (nodes sb s.disk i).type ≠ 0 →
      (nodes sb s.disk i).nlink = 0 → ∃ a, a < NINODE ∧ (s.itable a).inum = i ∧
        (s.itable a).valid = true ∧ held a < (s.itable a).ref) : FsInv sb held loose' s := by
  refine ⟨inv.disk, ⟨inv.table.unique, inv.table.inums, inv.table.cached, inv.table.live, ?_,
    inv.table.refs⟩, inv.files, inv.logs⟩
  intro i bound alloc none strict
  by_cases old : loose i
  · have node := nodes_eq bound alloc
    exact okay i bound old strict (by rw [node]; exact alloc) (by rw [node]; exact none)
  · exact inv.table.orphan i bound alloc none old

end Alter

/-! ## `iput` -/

section Put
variable {sb : Superblock} {held : Nat → Nat} {loose : Nat → Prop} {s s' : FsState} {a : Nat}

def dropRef (a : Nat) (s : FsState) : FsState :=
  setInode a { s.itable a with ref := (s.itable a).ref - 1 } s

theorem dropRef_kept (a b : Nat) : Kept s (dropRef a s) b := by
  by_cases here : b = a
  · subst here
    simp only [Kept, dropRef, setInode, upd_self]
    exact ⟨trivial, id, trivial⟩
  · simp only [Kept, dropRef, setInode, upd_of_ne here]
    exact ⟨trivial, id, trivial⟩

theorem FsInv.dropRef (inv : FsInv sb held loose s) (holds : 0 < held a) :
    FsInv sb (upd held a (held a - 1)) loose (dropRef a s) := by
  have table := inv.table
  have same : ∀ b, ((Fs.dropRef a s).itable b).inum = (s.itable b).inum ∧
      ((Fs.dropRef a s).itable b).valid = (s.itable b).valid ∧
      ((Fs.dropRef a s).itable b).din = (s.itable b).din := by
    intro b
    by_cases here : b = a
    · subst here
      simp only [Fs.dropRef, setInode, upd_self]
      exact ⟨trivial, trivial, trivial⟩
    · simp only [Fs.dropRef, setInode, upd_of_ne here]
      exact ⟨trivial, trivial, trivial⟩
  have self : ((Fs.dropRef a s).itable a).ref = (s.itable a).ref - 1 := by
    simp only [Fs.dropRef, setInode, upd_self]
  have other : ∀ b, b ≠ a → ((Fs.dropRef a s).itable b).ref = (s.itable b).ref := by
    intro b differ
    simp only [Fs.dropRef, setInode, upd_of_ne differ]
  have used : ∀ b, 0 < ((Fs.dropRef a s).itable b).ref → 0 < (s.itable b).ref := by
    intro b more
    by_cases here : b = a
    · rw [here] at more ⊢
      rw [self] at more
      omega
    · rwa [other b here] at more
  have spare : ∀ b, b < NINODE → (upd held a (held a - 1) b < ((Fs.dropRef a s).itable b).ref ↔
      held b < (s.itable b).ref) := by
    intro b bound
    by_cases here : b = a
    · have count := table.refs b bound
      rw [here] at count ⊢
      rw [upd_self, self]
      omega
    · rw [upd_of_ne here, other b here]
  refine ⟨inv.disk, ⟨?_, ?_, ?_, ?_, ?_, ?_⟩,
    ⟨inv.files.closed, inv.files.opened, ?_, inv.files.procs⟩, inv.logs⟩
  · intro b c boundB boundC posB posC
    rw [(same b).1, (same c).1]
    exact table.unique b c boundB boundC (used b posB) (used c posC)
  · intro b bound more
    rw [(same b).1]
    exact table.inums b bound (used b more)
  · intro b bound more
    rw [(same b).1, (same b).2.1, (same b).2.2]
    exact table.cached b bound (used b more)
  · intro b bound more
    rw [(same b).1]
    exact table.live b bound ((spare b bound).mp more)
  · intro i bound alloc none strict
    obtain ⟨b, index, at', valid, more⟩ := table.orphan i bound alloc none strict
    exact ⟨b, index, (same b).1.trans at', (same b).2.1.trans valid, (spare b index).mpr more⟩
  · intro b bound
    have count := table.refs b bound
    have total : uses (Fs.dropRef a s) b = uses s b := rfl
    by_cases here : b = a
    · rw [here] at count total ⊢
      rw [self, upd_self, total]
      omega
    · rw [other b here, upd_of_ne here, total]
      exact count
  · intro f
    rw [(same _).1]
    exact inv.files.writes f

structure Released (sb : Superblock) (f g : FileState) : Prop where
  settled : Settled sb g
  inum : g.inum = f.inum
  type : g.ip.type = 0
  nodes : nodes sb g.disk = upd (nodes sb f.disk) f.inum .free
  inodes : ∀ i, i < sb.ninodes → i ≠ f.inum → dinode sb g.disk i = dinode sb f.disk i
  data : ∀ c, nmeta sb ≤ c → g.disk c = f.disk c
  noted : Noted (fun b => b = IBLOCK sb f.inum ∨ IsBitmap sb b) (fun _ => False) f g

theorem Truncated.release (geo : Geometry sb) {f f' : FileState} (settled : Settled sb f)
    (work : Working sb f) (done : Truncated sb f f') :
    Released sb f (updated sb { f' with ip := { f'.ip with type := 0 } }) := by
  have inum : f'.inum < sb.ninodes := done.settled.inum
  have fits : Dinode.Fits { f'.ip with type := 0 } := by
    rw [done.ip]
    exact ⟨by simp, work.fits.major, work.fits.minor, work.fits.nlink, by simp, by simp,
      fun _ _ => rfl⟩
  have addrs : f'.ip.addrs = fun _ => 0 := by rw [done.ip]
  have str : Structured sb (current sb { f' with ip := { f'.ip with type := 0 } }) f'.disk := by
    have self : current sb { f' with ip := { f'.ip with type := 0 } } f'.inum =
        { f'.ip with type := 0 } := current_self sb _
    have other : ∀ i, i ≠ f'.inum →
        current sb { f' with ip := { f'.ip with type := 0 } } i = dinode sb f'.disk i :=
      fun i differ => current_ne differ
    refine ⟨?_, ?_, ?_⟩
    · apply done.settled.str.owned.congr (fun _ _ => rfl)
      rintro ⟨i, k⟩
      simp only [slots]
      by_cases own : i = f'.inum
      · -- the slots of the inode were empty before its type went
        subst own
        have empty : slotOf (dinode sb f'.disk f'.inum) f'.disk k = 0 := by
          rw [← done.settled.ip]
          simp [slotOf, addrs]
        rw [self, empty]
        simp
      · rw [other i own]
    · intro i bound alloc bn inside
      by_cases own : i = f'.inum
      · rw [own, self] at alloc
        exact absurd rfl alloc
      · rw [other i own] at alloc inside ⊢
        exact done.settled.str.mapped i bound alloc bn inside
    · intro i bound alloc
      by_cases own : i = f'.inum
      · rw [own, self] at alloc
        exact absurd rfl alloc
      · rw [other i own] at alloc ⊢
        exact done.settled.str.bound i bound alloc
  refine ⟨updated_settled geo inum fits str, done.inum, rfl, ?_, ?_, ?_, ?_⟩
  · have free : Fs.nodes sb (setDinode sb f'.disk f'.inum { f'.ip with type := 0 }) =
        upd (Fs.nodes sb f'.disk) f'.inum .free :=
      nodes_setDinode_free geo done.settled.str inum fits rfl
    simp only [updated]
    rw [free, done.nodes work settled, done.inum]
    funext i
    by_cases own : i = f.inum
    · rw [own, upd_self, upd_self]
    · rw [upd_of_ne own, upd_of_ne own, upd_of_ne own]
  · intro i inside differ
    have away : i ≠ f'.inum := by rwa [done.inum]
    have keep : dinode sb (updated sb { f' with ip := { f'.ip with type := 0 } }).disk i =
        dinode sb f'.disk i := dinode_setDinode_ne f'.disk _ away
    exact keep.trans (done.inodes i inside differ)
  · intro c high
    have keep : (updated sb { f' with ip := { f'.ip with type := 0 } }).disk c = f'.disk c :=
      data_setDinode geo f'.disk _ inum high
    exact keep.trans (done.data c high)
  · have emptied : Noted (fun b => b = IBLOCK sb f.inum ∨ IsBitmap sb b) (fun _ => False) f
        { f' with ip := { f'.ip with type := 0 } } := done.noted.setAddrs rfl rfl (Or.inl rfl)
    exact emptied.trans (updated_noted (Or.inl (by simp only [done.inum])))

/-- What `iput` leaves.  `freed` tells whether the inode was given back. -/
structure Put (sb : Superblock) (held : Nat → Nat) (loose : Nat → Prop) (s : FsState) (a : Nat)
    (freed : Prop) (s' : FsState) : Prop where
  inv : FsInv sb (upd held a (held a - 1)) loose s'
  nodes : freed → nodes sb s'.disk = upd (nodes sb s.disk) (s.itable a).inum .free
  disk : ¬ freed → s'.disk = s.disk
  log : ¬ freed → s'.log = s.log
  logs : Logs sb [(s.itable a).inum] 0 s s'
  journal : s'.journal = s.journal
  ftable : s'.ftable = s.ftable
  proc : s'.proc = s.proc
  gen : s'.gen = s.gen
  stamp : s'.stamp = s.stamp
  kept : ∀ b, b ≠ a ∨ ¬ freed → Kept s s' b
  inum : (s'.itable a).inum = (s.itable a).inum
  locked : (s'.itable a).locked = (s.itable a).locked
  ref : (s'.itable a).ref = (s.itable a).ref - 1
  refs : ∀ b, b ≠ a → (s'.itable b).ref = (s.itable b).ref

/-- The condition under which `iput` frees: this is the last reference, the inode is
valid and has no link. -/
def lastRef (s : FsState) (a : Nat) : Prop :=
  (s.itable a).ref = 1 ∧ (s.itable a).valid = true ∧ (s.itable a).din.nlink = 0

theorem FsInv.not_lastRef (inv : FsInv sb held loose s) (bound : a < NINODE) (holds : 0 < held a)
    (strict : ¬ loose (s.itable a).inum) : ¬ lastRef s a := by
  rintro ⟨ref, valid, none⟩
  have pos := inv.table.ref_of_held bound holds
  obtain ⟨cached, alloc⟩ := inv.table.cached a bound pos valid
  rw [cached] at alloc none
  have more := (inv.orphan_self bound pos alloc none strict).2
  omega

theorem iputFree_run (geo : Geometry sb) (settled : Settled sb (fileState s a))
    (alloc : (fileState s a).ip.type ≠ 0) :
    wp (iputFree sb a) (fun _ => False) (fun _ s' => ∃ g, Released sb (fileState s a) g ∧
      s' = withInode a { s.itable a with din := g.ip, valid := false } g.disk g.log s) s := by
  have work := settled.working alloc
  unfold iputFree
  rw [wp_bind, onInode_wp]
  apply wp_post (itrunc_spec geo work)
  intro _ f done
  have freed := done.release geo settled work
  have inum : f.inum = (s.itable a).inum := done.inum
  simp only [wp_bind, onInode_wp, wp_modify, iupdate]
  simp only [withInode, setInode, upd_self]
  -- the four assignments leave one entry and one disk
  have table : ∀ e₁ e₂ e₃ e₄ : Inode, upd (upd (upd (upd s.itable a e₁) a e₂) a e₃) a e₄ =
      upd s.itable a e₄ := by
    intro e₁ e₂ e₃ e₄
    funext b
    by_cases here : b = a
    · rw [here, upd_self, upd_self]
    · simp only [upd_of_ne here]
  rw [table]
  refine ⟨_, freed, ?_⟩
  simp only [updated, inum]

theorem Released.logInv {home : Disk} {f g : FileState} (freed : Released sb f g)
    (settled : Settled sb f) (logs : LogInv sb home f.disk f.log) : LogInv sb home g.disk g.log := by
  apply logs.noted freed.noted settled.str.owned.pos
  · apply freed.noted.indirect_old settled freed.inodes
    intro alive
    rw [← freed.inum, ← freed.settled.ip] at alive
    exact absurd freed.type alive
  · exact fun b none => none.elim

theorem Released.diskInv {f g : FileState} (freed : Released sb f g) (ok : DiskInv sb f.disk)
    (first : 0 < sb.ninodes) : DiskInv sb g.disk := by
  refine ⟨freed.settled.str, ?_, ?_⟩
  · intro i isDir
    rw [freed.nodes] at isDir ⊢
    by_cases own : i = f.inum
    · rw [own, upd_self] at isDir
      simp [Node.free, T_DIR] at isDir
    · rw [upd_of_ne own] at isDir ⊢
      exact ok.dirs i isDir
  · by_cases own : 0 = f.inum
    · have ip := freed.settled.ip
      rw [freed.inum, ← own] at ip
      rw [← ip]
      exact freed.type
    · rw [freed.inodes 0 first own]
      exact ok.zero

theorem iputFree_spec (geo : Geometry sb) (inv : FsInv sb held loose s) (bound : a < NINODE)
    (holds : 0 < held a) (last : lastRef s a) :
    wp (iputFree sb a) (fun _ => False) (fun _ s' => FsInv sb held loose s' ∧
      nodes sb s'.disk = upd (nodes sb s.disk) (s.itable a).inum .free ∧
      s'.ftable = s.ftable ∧ s'.proc = s.proc ∧ s'.gen = s.gen ∧ s'.stamp = s.stamp ∧
      (∀ b, b ≠ a → Kept s s' b) ∧ (s'.itable a).inum = (s.itable a).inum ∧
      (s'.itable a).locked = (s.itable a).locked ∧
      (∀ b, (s'.itable b).ref = (s.itable b).ref) ∧ Logs sb [(s.itable a).inum] 0 s s' ∧
      s'.journal = s.journal) s := by
  obtain ⟨ref, valid, none⟩ := last
  have pos : 0 < (s.itable a).ref := by omega
  have all : held a = (s.itable a).ref := by
    have count := inv.table.refs a bound
    omega
  obtain ⟨settled, alloc⟩ := inv.settled bound pos valid
  apply wp_post (iputFree_run geo settled alloc)
  rintro _ s' ⟨g, freed, rfl⟩
  have inum : g.inum = (s.itable a).inum := freed.inum
  have self := freed.settled.ip
  rw [inum] at self
  have logs := freed.logInv settled inv.logs
  refine ⟨?_, freed.nodes, rfl, rfl, rfl, rfl, fun b differ => withInode_kept differ, ?_, ?_, ?_, ?_,
    rfl⟩
  · refine inv.withInode bound pos
      (e := { s.itable a with din := g.ip, valid := false })
      (freed.diskInv inv.disk (Nat.zero_lt_of_lt (inv.table.inums a bound pos))) logs freed.inodes rfl
      rfl ?_ (Or.inr all) ?_ fun _ _ strict => strict
    · intro no
      cases no
    · intro alive
      rw [← self] at alive
      exact absurd freed.type alive
  · simp only [withInode, setInode, upd_self]
  · simp only [withInode, setInode, upd_self]
  · intro b
    simp only [withInode, setInode]
    by_cases here : b = a
    · subst here
      rw [upd_self]
    · rw [upd_of_ne here]
  · exact Logs.of_noted [] freed.noted rfl fun b may => may.imp_right Or.inl

theorem iput_spec (geo : Geometry sb) (inv : FsInv sb held loose s) (bound : a < NINODE)
    (holds : 0 < held a) :
    wp (iput sb a) (fun e => e = .deadlock ∧ lastRef s a)
      (fun _ s' => Put sb held loose s a (lastRef s a) s') s := by
  have drop : ∀ t, FsInv sb held loose t → FsInv sb (upd held a (held a - 1)) loose
      (setInode a { t.itable a with ref := (t.itable a).ref - 1 } t) := fun t inv' => inv'.dropRef holds
  have test : ((s.itable a).ref = 1 ∧ (s.itable a).valid = true ∧ (s.itable a).din.nlink = 0) ↔
      lastRef s a := Iff.rfl
  simp only [iput, wp_bind, wp_get, wp_ite, wp_throw, wp_modify, test]
  refine ⟨fun last => ⟨fun _ => ⟨trivial, last⟩, fun _ => ?_⟩, fun more => ?_⟩
  · apply wp_mono (iputFree_spec geo inv bound holds last) _ (fun _ no => no.elim)
    rintro _ t ⟨inv', after, ftable, proc, gen, stamp, kept, inum, locked, refs, logs, journal⟩
    refine ⟨drop t inv', fun _ => after, fun no => absurd last no, fun no => absurd last no, logs,
      journal, ftable, proc, gen, stamp, ?_, ?_, ?_, ?_, ?_⟩
    · rintro b (differ | no)
      · exact (kept b differ).trans (dropRef_kept a b)
      · exact absurd last no
    · exact (dropRef_kept (s := t) a a).1.trans inum
    · exact (dropRef_kept (s := t) a a).2.2.trans locked
    · simp only [setInode, upd_self, refs]
    · intro b differ
      simp only [setInode, upd_of_ne differ, refs]
  · refine ⟨drop s inv, fun last => absurd last more, fun _ => rfl, fun _ => rfl, Logs.of_log rfl,
      rfl, rfl, rfl, rfl, rfl, fun b _ => dropRef_kept a b, (dropRef_kept (s := s) a a).1,
      (dropRef_kept (s := s) a a).2.2, ?_, ?_⟩
    · simp only [setInode, upd_self]
    · intro b differ
      simp only [setInode, upd_of_ne differ]

end Put

/-! ## `ialloc` -/

section Alloc
variable {sb : Superblock} {held : Nat → Nat} {loose : Nat → Prop} {s s' : FsState} {a : Nat}

theorem freeInode_some {disk : Disk} : ∀ (n inum i : Nat), freeInode sb disk inum n = some i →
    inum ≤ i ∧ i < inum + n ∧ (dinode sb disk i).type = 0 := by
  intro n
  induction n with
  | zero => intro inum i found; simp [freeInode] at found
  | succ n ih =>
      intro inum i found
      simp only [freeInode] at found
      split at found
      · rename_i free
        obtain rfl := Option.some.inj found
        exact ⟨Nat.le_refl _, by omega, free⟩
      · obtain ⟨low, high, free⟩ := ih (inum + 1) i found
        exact ⟨by omega, by omega, free⟩

def freshNode (type : Nat) : Node := ⟨type, 0, 0, 0, 0, fun _ => 0⟩

theorem freshDinode_fits {type : Nat} (small : type < 2 ^ 16) : (freshDinode type).Fits :=
  ⟨small, by simp [freshDinode], by simp [freshDinode], by simp [freshDinode], by simp [freshDinode],
    by simp [freshDinode], fun _ _ => rfl⟩

theorem DiskInv.allocate (geo : Geometry sb) {disk : Disk} (ok : DiskInv sb disk) {i type : Nat}
    (low : 1 ≤ i) (bound : i < sb.ninodes) (free : (dinode sb disk i).type = 0) (small : type < 2 ^ 16)
    (some : type ≠ 0) :
    DiskInv sb (Fs.setDinode sb disk i (freshDinode type)) ∧
      nodes sb (Fs.setDinode sb disk i (freshDinode type)) =
        upd (nodes sb disk) i (freshNode type) := by
  have fits := freshDinode_fits small
  have empty : ∀ disk' k, slotOf (freshDinode type) disk' k = 0 := by
    intro disk' k
    simp [slotOf, freshDinode]
  have node : nodeOf (freshDinode type) disk = freshNode type := by
    simp only [nodeOf, freshNode, freshDinode]
    simp
  have after := nodes_setDinode geo ok.str bound fits some fun k taken => absurd (empty disk k) taken
  rw [node] at after
  have self : dinode sb (Fs.setDinode sb disk i (freshDinode type)) i = freshDinode type :=
    dinode_setDinode_self disk fits
  have keep : ∀ j, j ≠ i → dinode sb (Fs.setDinode sb disk i (freshDinode type)) j =
      dinode sb disk j := fun j differ => dinode_setDinode_ne disk _ differ
  have slot : ∀ j, j ≠ i → j < sb.ninodes → (dinode sb disk j).type ≠ 0 → ∀ k,
      slotOf (dinode sb disk j) (Fs.setDinode sb disk i (freshDinode type)) k =
        slotOf (dinode sb disk j) disk k := by
    intro j differ boundJ allocJ
    apply (file_same _).1
    intro k taken
    exact data_setDinode geo disk _ bound (ok.str.slot_range boundJ allocJ taken).1
  refine ⟨⟨⟨?_, ?_, ?_⟩, ?_, ?_⟩, after⟩
  · apply ok.str.owned.congr
    · exact fun b limit => bitmap_setDinode geo disk _ bound limit
    · rintro ⟨j, k⟩
      simp only [slots]
      by_cases own : j = i
      · subst own
        rw [self, empty, free]
        simp
      · rw [keep j own]
        by_cases inside : j < sb.ninodes ∧ (dinode sb disk j).type ≠ 0
        · rw [if_pos inside, if_pos inside, slot j own inside.1 inside.2]
        · rw [if_neg inside, if_neg inside]
  · intro j boundJ allocJ bn inside
    by_cases own : j = i
    · rw [own, self] at inside
      simp [freshDinode] at inside
    · rw [keep j own] at allocJ inside ⊢
      rw [blockOf, slot j own boundJ allocJ]
      exact ok.str.mapped j boundJ allocJ bn inside
  · intro j boundJ allocJ
    by_cases own : j = i
    · rw [own, self]
      exact Nat.zero_le _
    · rw [keep j own] at allocJ ⊢
      exact ok.str.bound j boundJ allocJ
  · intro j isDir
    rw [after] at isDir ⊢
    by_cases own : j = i
    · rw [own, upd_self]
      exact ⟨rfl, fun k low => by simp [Node.nents, freshNode] at low⟩
    · rw [upd_of_ne own] at isDir ⊢
      exact ok.dirs j isDir
  · rw [keep 0 (by omega)]
    exact ok.zero

/-- What `ialloc` gives: a reference to a new inode without links. -/
structure Fresh (sb : Superblock) (held : Nat → Nat) (loose : Nat → Prop) (s : FsState)
    (type a i : Nat) (s' : FsState) : Prop where
  bound : a < NINODE
  low : 1 ≤ i
  high : i < sb.ninodes
  free : nodes sb s.disk i = .free
  inv : FsInv sb (upd held a (held a + 1)) (fun j => loose j ∨ j = i) s'
  inum : (s'.itable a).inum = i
  tree : nodes sb s'.disk = upd (nodes sb s.disk) i (freshNode type)
  ftable : s'.ftable = s.ftable
  proc : s'.proc = s.proc
  gen : s'.gen = upd s.gen i (s.gen i + 1)
  stamp : s'.stamp = s.stamp
  logs : Logs sb [i] 0 s s'
  journal : s'.journal = s.journal
  kept : ∀ b, 0 < (s.itable b).ref → Kept s s' b

theorem ialloc_spec (geo : Geometry sb) (inv : FsInv sb held loose s) {type : Nat}
    (small : type < 2 ^ 16) (some' : type ≠ 0) :
    wp (ialloc sb type) (fun e => e = .igetNoInodes)
      (fun r s' =>
        (r = none ∧ freeInode sb s.disk 1 (sb.ninodes - 1) = none ∧ s' = s) ∨
        ∃ a i, r = some a ∧ freeInode sb s.disk 1 (sb.ninodes - 1) = some i ∧
          Fresh sb held loose s type a i s') s := by
  simp only [ialloc, wp_bind, wp_get]
  cases found : freeInode sb s.disk 1 (sb.ninodes - 1) with
  | none => exact Or.inl ⟨rfl, rfl, rfl⟩
  | some i =>
      obtain ⟨low, high, free⟩ := freeInode_some _ _ _ found
      have bound : i < sb.ninodes := by
        have root := geo.root
        simp only [ROOTINO] at root
        omega
      obtain ⟨ok, after⟩ := inv.disk.allocate geo low bound free small some'
      have self : dinode sb (setDinode sb s.disk i (freshDinode type)) i = freshDinode type :=
        dinode_setDinode_self s.disk (freshDinode_fits small)
      have keep : ∀ j, (dinode sb s.disk j).type ≠ 0 →
          dinode sb (setDinode sb s.disk i (freshDinode type)) j = dinode sb s.disk j := by
        intro j alloc
        apply dinode_setDinode_ne
        rintro rfl
        exact alloc free
      have table := inv.table
      -- nothing refers to a free inode
      have next : FsInv sb held (fun j => loose j ∨ j = i)
          { s with
            disk := setDinode sb s.disk i (freshDinode type)
            log := absorb (IBLOCK sb i) s.log
            gen := upd s.gen i (s.gen i + 1) } := by
        refine ⟨ok, ⟨table.unique, table.inums, ?_, ?_, ?_, table.refs⟩,
          ⟨inv.files.closed, inv.files.opened, ?_, inv.files.procs⟩, ?_⟩
        · intro b boundB pos valid
          obtain ⟨cached, alloc⟩ := table.cached b boundB pos valid
          refine ⟨?_, alloc⟩
          simp only
          rw [keep _ (by rw [← cached]; exact alloc)]
          exact cached
        · intro b boundB more
          have alloc := table.live b boundB more
          simp only
          rw [keep _ alloc]
          exact alloc
        · intro j boundJ alloc none strict
          rw [not_or] at strict
          simp only at alloc none
          rw [dinode_setDinode_ne _ _ strict.2] at alloc none
          exact table.orphan j boundJ alloc none strict.1
        · intro f boundF open' kind writable
          have file := inv.files.writes f boundF open' kind writable
          simp only
          rw [keep _ (by rw [file]; decide)]
          exact file
        · -- the new inode has no blocks
          have noted : Noted (fun b => b = IBLOCK sb i) (fun _ => False)
              ⟨i, freshDinode type, s.disk, s.log⟩ (updated sb ⟨i, freshDinode type, s.disk, s.log⟩) :=
            updated_noted rfl
          apply inv.logs.noted noted inv.disk.str.owned.pos
          · rintro b nonzero - ⟨j, boundJ, alloc, rfl⟩
            by_cases own : j = i
            · rw [own] at nonzero
              simp only [updated] at nonzero
              rw [self] at nonzero
              exact absurd rfl nonzero
            · simp only [updated] at alloc ⊢
              rw [dinode_setDinode_ne _ _ own] at alloc ⊢
              exact ⟨j, boundJ, alloc, rfl⟩
          · exact fun b none => none.elim
      simp only [wp_bind, wp_set]
      apply wp_mono (iget_spec next bound) _ (fun e none => none.1)
      intro a s' got
      refine Or.inr ⟨a, i, rfl, rfl, got.bound, low, bound, ?_, got.inv, got.inum, ?_, ?_,
        ?_, ?_, ?_, ?_,
        got.only.journal, ?_⟩
      · exact if_neg fun both => both.2 free
      · rw [got.only.disk]
        exact after
      · exact got.only.ftable
      · exact got.only.proc
      · exact got.only.gen
      · exact got.only.stamp
      · refine ⟨[], Nat.le_refl 0, ?_⟩
        intro b listed
        rw [got.only.log] at listed
        rcases mem_absorb.mp listed with new | old
        · exact Or.inr (Or.inr (Or.inl ⟨i, List.mem_singleton.mpr rfl, new⟩))
        · exact Or.inl old
      · exact got.kept

end Alloc

end Xv6Fcfs.Fs
