import Xv6Fcfs.Fs.Edits

/-!
# The calls on open files

`close`, `read`, `write`, `dup`, `fork` and `exit` make no edit: from one transaction to the
next the tree only drifts.
-/

set_option autoImplicit false

namespace Xv6Fcfs.Fs

open Xv6Fcfs.Lib

/-- The entries in use were in use before, for the same inode. -/
def Still (s s' : FsState) : Prop :=
  ∀ b, b < NINODE → 0 < uses s' b → 0 < uses s b ∧ (s'.itable b).inum = (s.itable b).inum

structure Ran (sb : Superblock) (s s' : FsState) : Prop where
  quiet : Quiet sb s'
  committed : Committed sb s s'
  drift : Drift (InUse s') (view sb s) (view sb s')
  still : Still s s'

section Ran
variable {sb : Superblock} {held : Nat → Nat} {loose : Nat → Prop} {s t u : FsState} {a i : Nat}

theorem Still.refl (s : FsState) : Still s s := fun _ _ used => ⟨used, rfl⟩

theorem Still.trans (first : Still s t) (second : Still t u) : Still s u := by
  intro b bound used
  obtain ⟨more, inum⟩ := second b bound used
  obtain ⟨most, inum'⟩ := first b bound more
  exact ⟨most, inum.trans inum'⟩

theorem Still.inUse (still : Still s t) (used : InUse t i) : InUse s i := by
  obtain ⟨b, bound, inum, more⟩ := used
  obtain ⟨most, same⟩ := still b bound more
  exact ⟨b, bound, same.symm.trans inum, most⟩

theorem Still.setFile {f : Nat} {ff : File} (bound : f < NFILE)
    (less : ∀ b, ff.weight b ≤ (s.ftable f).weight b) : Still s (setFile f ff s) := by
  intro b _ used
  have count := uses_setFile bound ff s b
  have fewer := less b
  exact ⟨by omega, rfl⟩

theorem Effect.still {base : Nat → Nat} {is : List Nat} {k : Nat} {v : View}
    (effect : Effect sb base held loose is k s v t) : Still s t := by
  intro b index more
  rw [effect.uses] at more
  exact ⟨more, (effect.stays b index (by omega)).1⟩

theorem Looked.still {base : Nat → Nat} (looked : Looked sb base held loose s t) : Still s t :=
  (looked.effect (l := []) (k := 0)).still

theorem Ran.refl (quiet : Quiet sb s) : Ran sb s s :=
  ⟨quiet, Committed.refl s, .refl _, Still.refl s⟩

theorem Ran.trans (first : Ran sb s t) (second : Ran sb t u) : Ran sb s u :=
  ⟨second.quiet, first.committed.trans second.committed,
    (first.drift.mono fun _ used => second.still.inUse used).trans second.drift,
    first.still.trans second.still⟩

theorem FsInv.unused_iff (inv : FsInv sb held loose s) (bound : a < NINODE) (holds : 0 < held a) :
    uses s a = 0 ↔ ¬ InUse s (s.itable a).inum := by
  have none : Effect sb idle held loose [] 0 s (view sb s) s := Effect.refl inv
  exact none.unused_iff bound holds

theorem Effect.ran (geo : Geometry sb) {is : List Nat} {k : Nat} {v : View} (start : s.log = [])
    (effect : Effect sb idle idle (fun _ => False) is k s v t)
    (few : is.length + k + 1 ≤ MAXOPBLOCKS) (drift : Drift (InUse t) (Fs.view sb s) v) :
    Ran sb s (closed t) := by
  refine ⟨⟨effect.inv.endOp, rfl⟩,
    closed_committed geo effect.inv effect.logs effect.journal start few, ?_, effect.still⟩
  have same : Fs.view sb (closed t) = v := effect.view
  rw [same]
  exact drift

theorem Ran.of_same (inv : FsInv sb idle (fun _ => False) t) (start : s.log = [])
    (log : t.log = s.log) (journal : t.journal = s.journal) (view : view sb t = Fs.view sb s)
    (still : Still s t) : Ran sb s t := by
  refine ⟨⟨inv, log.trans start⟩, Committed.of_journal journal, ?_, still⟩
  rw [view]
  exact .refl _

end Ran

/-! ## `fileclose` -/

section Close
variable {sb : Superblock} {s : FsState} {f : Nat}

theorem putFile_spec (geo : Geometry sb) (quiet : Quiet sb s) (bound : f < NFILE) {ff : File}
    (open' : (s.ftable f).onInode) (gone : ff.ref = 0) (type : ff.type = .none) :
    wp (transaction (iput sb (s.ftable f).ip)) (fun e => e = .deadlock)
      (fun _ s' => Ran sb s s' ∧ s'.proc = s.proc ∧ s'.ftable = upd s.ftable f ff)
      (setFile f ff s) := by
  have inv := quiet.inv
  have index := inv.files.opened f bound open'
  have used := uses_of_file bound open'
  have more := inv.table.ref_of_uses index used
  have after := inv.closeFile bound open' gone type
  have start : (setFile f ff s).log = [] := quiet.log
  apply wp_transaction start
  apply wp_post (iput_release idle geo after index ?_ rfl fun _ => Nat.zero_le _)
  · intro _ t effect
    have unused := after.unused_iff index (bump_pos idle _)
    have settled : Effect sb idle idle (fun _ => False) [(s.itable (s.ftable f).ip).inum] 0
        (setFile f ff s) ((view sb s).drop (s.itable (s.ftable f).ip).inum
          (uses (setFile f ff s) (s.ftable f).ip)) t := by
      refine { effect with inv := effect.inv.settle ?_ }
      rintro j - ⟨(no | own), not⟩ - - -
      · exact no.elim
      · exact absurd own not
    have ran := settled.ran geo start (by simp [MAXOPBLOCKS])
      (Drift.drop _ fun none inUse => unused.mp none (settled.still.inUse inUse))
    refine ⟨⟨ran.quiet, ran.committed, ran.drift, .trans (.setFile bound ?_) ran.still⟩,
      settled.proc, settled.ftable⟩
    intro b
    rw [File.weight_of_not (fun on => by have := on.1; omega)]
    exact Nat.zero_le _
  · -- an orphan in use was read
    intro none
    have none : (nodes sb s.disk (s.itable (s.ftable f).ip).inum).nlink = 0 := none
    have alloc := inv.table.live _ index more
    have range := inv.table.inums _ index (by omega)
    rw [nodes_eq range alloc] at none
    exact (inv.orphan_self index (by omega) alloc none fun no => no).1

/-- The file table after `fileclose`. -/
def closeOnce (ftable : Nat → File) (f : Nat) : Nat → File :=
  upd ftable f (if 1 < (ftable f).ref then { ftable f with ref := (ftable f).ref - 1 }
    else { ftable f with ref := 0, type := .none })

theorem fileclose_spec (geo : Geometry sb) (quiet : Quiet sb s) (bound : f < NFILE) :
    wp (fileclose sb f) (fun e => e = .fileclose ∨ e = .deadlock)
      (fun _ s' => Ran sb s s' ∧ s'.proc = s.proc ∧ s'.ftable = closeOnce s.ftable f) s := by
  have inv := quiet.inv
  simp only [fileclose, wp_bind, wp_get, wp_ite, wp_throw, wp_set, wp_pure]
  refine ⟨fun _ => Or.inl trivial, fun pos =>
    ⟨fun more => ?_, fun one => ⟨fun open' => ?_, fun other => ?_⟩⟩⟩
  · refine ⟨.of_same ?_ quiet.log rfl rfl rfl (.setFile bound ?_), rfl, ?_⟩
    · refine inv.setFile_same bound (fun none => ?_) ?_ (fun _ => rfl) (fun _ => rfl) fun _ => rfl
      · simp only at none
        omega
      · constructor
        · rintro ⟨-, kind⟩
          exact ⟨by omega, kind⟩
        · rintro ⟨-, kind⟩
          exact ⟨by simp only; omega, kind⟩
    · intro b
      unfold File.weight
      split
      · rename_i both
        rw [if_pos ⟨⟨by omega, both.1.2⟩, both.2⟩]
      · exact Nat.zero_le _
    · simp only [setFile, closeOnce, if_pos more]
  · apply wp_mono (putFile_spec geo quiet bound ⟨by omega, open'⟩ rfl rfl)
    · rintro _ s' ⟨ran, proc, ftable⟩
      refine ⟨ran, proc, ?_⟩
      simp only [ftable, closeOnce, if_neg one]
    · exact fun e stop => Or.inr stop
  · have not : ¬ (s.ftable f).onInode := fun on => other on.2
    have none : ¬ File.onInode { s.ftable f with ref := 0, type := .none } := by
      rintro ⟨no, -⟩
      simp only at no
      omega
    refine ⟨.of_same ?_ quiet.log rfl rfl rfl (.setFile bound ?_), rfl, ?_⟩
    · exact inv.setFile_same bound (fun _ => rfl)
        ⟨fun on => absurd on none, fun on => absurd on not⟩ (fun on => absurd on none)
        (fun on => absurd on none) fun on => absurd on none
    · intro b
      rw [File.weight_of_not none]
      exact Nat.zero_le _
    · simp only [setFile, closeOnce, if_neg one]

end Close

/-! ## `fileread` and `filewrite` -/

section Transfer
variable {sb : Superblock} {held : Nat → Nat} {loose : Nat → Prop} {s : FsState} {f : Nat}

theorem toU32_lt (n : Int) : toU32 n < 2 ^ 32 := by
  unfold toU32
  omega

theorem FilesInv.onInode (files : FilesInv sb s) (bound : f < NFILE)
    (type : (s.ftable f).type = .inode) : (s.ftable f).onInode := by
  refine ⟨?_, Or.inl type⟩
  by_contra none
  have closed := files.closed f bound (by omega)
  rw [type] at closed
  cases closed

theorem advance_cases (f : Nat) (r : Int) (s : FsState) : advance f r s = s ∨
    ∃ off, advance f r s = setFile f { s.ftable f with off := off } s := by
  unfold advance
  split
  · exact Or.inr ⟨_, rfl⟩
  · exact Or.inl rfl

theorem FsInv.advance (inv : FsInv sb held loose s) (bound : f < NFILE) (r : Int) :
    FsInv sb held loose (advance f r s) := by
  rcases advance_cases f r s with same | ⟨off, same⟩
  · rw [same]
    exact inv
  · rw [same]
    exact inv.setFile_same bound (inv.files.closed f bound) Iff.rfl (fun _ => rfl) (fun _ => rfl)
      fun _ => rfl

theorem advance_fields (sb : Superblock) (f : Nat) (r : Int) (s : FsState) :
    (Fs.advance f r s).log = s.log ∧ (Fs.advance f r s).journal = s.journal ∧
      view sb (Fs.advance f r s) = view sb s ∧ (Fs.advance f r s).itable = s.itable ∧
      (Fs.advance f r s).proc = s.proc ∧
      ((Fs.advance f r s).ftable f).type = (s.ftable f).type ∧
      ((Fs.advance f r s).ftable f).writable = (s.ftable f).writable := by
  rcases advance_cases f r s with same | ⟨off, same⟩
  · rw [same]
    exact ⟨rfl, rfl, rfl, rfl, rfl, rfl, rfl⟩
  · rw [same]
    refine ⟨rfl, rfl, rfl, rfl, rfl, ?_, ?_⟩
    · simp only [setFile, upd_self]
    · simp only [setFile, upd_self]

theorem Still.advance (bound : f < NFILE) (r : Int) : Still s (advance f r s) := by
  rcases advance_cases f r s with same | ⟨off, same⟩
  · rw [same]
    exact .refl s
  · rw [same]
    refine .setFile bound ?_
    intro b
    exact Nat.le_refl _

theorem fileread_spec (geo : Geometry sb) (quiet : Quiet sb s) (bound : f < NFILE)
    (writable : Nat → Bool) (n io : Int) :
    wp (fileread sb f writable n io)
      (fun e => e = .fileread ∨ e = .deadlock ∨ e = .iunlock) (fun _ s' => Ran sb s s') s := by
  have inv := quiet.inv
  have self := Ran.refl quiet
  simp only [fileread, wp_bind, wp_get, wp_ite, wp_pure]
  refine ⟨fun _ => self, fun _ => ?_⟩
  cases type : (s.ftable f).type with
  | none => exact Or.inl rfl
  | pipe => exact self
  | device => exact self
  | inode =>
      have open' := inv.files.onInode bound type
      have index := inv.files.opened f bound open'
      have more := inv.table.ref_of_uses index (uses_of_file bound open')
      have alloc := inv.table.live _ index more
      simp only [wp_bind, wp_modify, wp_pure]
      apply wp_mono (ilock_used inv index (by omega) idle)
      rotate_left
      · rintro e (stop | ⟨-, none⟩)
        · exact Or.inr (Or.inl stop)
        · rw [nodes_type (inv.table.inums _ index (by omega))] at none
          exact absurd none alloc
      rintro _ t ⟨looked, -, valid, -, pos⟩
      apply wp_mono (readi_on geo looked.inv index pos valid writable _ (toU32_lt n)) _
        (fun e no => no.elim)
      rintro ⟨r, bytes⟩ u ⟨rfl, -⟩
      simp only
      obtain ⟨log, journal, same, itable, -⟩ := advance_fields sb f r u
      apply wp_mono (iunlock_looked (looked.inv.advance bound r) index idle) _
        (fun e stop => Or.inr (Or.inr stop))
      rintro _ w ⟨unlocked, -, -⟩
      refine .of_same unlocked.inv quiet.log ?_ ?_ ?_ ?_
      · rw [unlocked.only.log, log, looked.only.log]
      · rw [unlocked.only.journal, journal, looked.only.journal]
      · rw [unlocked.view, same, looked.view]
      · exact (looked.still.trans (.advance bound r)).trans unlocked.still

structure Writing (f : Nat) (s : FsState) : Prop where
  bound : f < NFILE
  type : (s.ftable f).type = .inode
  writable : (s.ftable f).writable = true

theorem filewriteChunk_spec (geo : Geometry sb) (quiet : Quiet sb s) (writing : Writing f s)
    (src : Nat → Option UInt8) {n1 : Nat} (small : n1 ≤ writeMax) :
    wp (transaction (filewriteChunk sb f src n1)) (fun e => e = .deadlock ∨ e = .iunlock)
      (fun _ s' => Ran sb s s' ∧ Writing f s') s := by
  have inv := quiet.inv
  have bound := writing.bound
  have open' := inv.files.onInode bound writing.type
  have index := inv.files.opened f bound open'
  have more := inv.table.ref_of_uses index (uses_of_file bound open')
  have alloc := inv.table.live _ index more
  have range := inv.table.inums _ index (by omega)
  have file := inv.files.writes f bound open' writing.type writing.writable
  apply wp_transaction quiet.log
  simp only [filewriteChunk, wp_bind, wp_get, wp_modify, wp_pure]
  apply wp_mono (ilock_used inv index (by omega) idle)
  rotate_left
  · rintro e (stop | ⟨-, none⟩)
    · exact Or.inl stop
    · rw [nodes_type range] at none
      exact absurd none alloc
  rintro _ t ⟨looked, inum, valid, -, pos⟩
  have word : n1 < 2 ^ 32 := by
    simp only [writeMax, MAXOPBLOCKS, BSIZE] at small
    omega
  apply wp_mono (writeFile_spec geo looked.inv index pos valid
    (by rw [looked.only.disk, inum, nodes_type range]; exact file) src _ word) _
    (fun e no => no.elim)
  rintro r u ⟨size, data, altered⟩
  have wrote : Effect sb idle idle (fun _ => False) [(t.itable (s.ftable f).ip).inum] _ t _ u :=
    altered.effect
  have first := looked.then wrote
  rw [looked.view, inum, looked.only.disk] at first
  obtain ⟨log, journal, same, itable, proc, kind, mode⟩ := advance_fields sb f r u
  apply wp_mono (iunlock_looked (first.inv.advance bound r) index idle) _
    (fun e stop => Or.inr stop)
  rintro _ w ⟨unlocked, -, -⟩
  have blocks : n1 / BSIZE ≤ 3 := by
    simp only [writeMax, MAXOPBLOCKS, BSIZE] at small ⊢
    omega
  have still : Still s w := (first.still.trans (.advance bound r)).trans unlocked.still
  have logs : Logs sb [(s.itable (s.ftable f).ip).inum] (n1 / BSIZE + 3) s w := by
    obtain ⟨extra, few, all⟩ := first.logs
    refine ⟨extra, few, ?_⟩
    rw [unlocked.only.log, log]
    exact all
  refine ⟨⟨⟨unlocked.inv.endOp, rfl⟩, ?_, ?_, still⟩, bound, ?_, ?_⟩
  · refine closed_committed geo unlocked.inv logs ?_ quiet.log ?_
    · rw [unlocked.only.journal, journal, first.journal]
    · simp only [List.length_cons, List.length_nil, MAXOPBLOCKS]
      omega
  · have after : view sb (closed w) = (view sb s).setNode (s.itable (s.ftable f).ip).inum
        { nodes sb s.disk (s.itable (s.ftable f).ip).inum with size := size, data := data } := by
      have eq : view sb (closed w) = view sb w := rfl
      rw [eq, unlocked.view, same, first.view]
    rw [after]
    refine .write _ size data ?_ (.refl _)
    have type : (nodes sb s.disk (s.itable (s.ftable f).ip).inum).type = T_FILE := by
      rw [nodes_type range]
      exact file
    exact type
  · have eq : (closed w).ftable = w.ftable := rfl
    rw [eq, unlocked.only.ftable, kind, first.ftable]
    exact writing.type
  · have eq : (closed w).ftable = w.ftable := rfl
    rw [eq, unlocked.only.ftable, mode, first.ftable]
    exact writing.writable

theorem filewriteLoop_spec (geo : Geometry sb) (src : Nat → Option UInt8) (n : Nat) :
    ∀ (fuel i : Nat) (s : FsState), Quiet sb s → Writing f s →
    wp (filewriteLoop sb f src n fuel i) (fun e => e = .deadlock ∨ e = .iunlock)
      (fun _ s' => Ran sb s s') s := by
  intro fuel
  induction fuel with
  | zero => intro i s quiet _; exact Ran.refl quiet
  | succ fuel ih =>
      intro i s quiet writing
      simp only [filewriteLoop, wp_ite, wp_bind, wp_pure]
      refine ⟨fun _ => ?_, fun _ => Ran.refl quiet⟩
      apply wp_post (filewriteChunk_spec geo quiet writing _ (Nat.min_le_right _ _))
      rintro r t ⟨ran, still⟩
      refine ⟨fun _ => ran, fun _ => ?_⟩
      apply wp_post (ih _ t ran.quiet still)
      intro _ u later
      exact ran.trans later

theorem filewrite_spec (geo : Geometry sb) (quiet : Quiet sb s) (bound : f < NFILE)
    (src : Nat → Option UInt8) (n io : Int) :
    wp (filewrite sb f src n io)
      (fun e => e = .filewrite ∨ e = .deadlock ∨ e = .iunlock) (fun _ s' => Ran sb s s') s := by
  have self := Ran.refl quiet
  simp only [filewrite, wp_bind, wp_get, wp_ite, wp_pure]
  refine ⟨fun _ => self, fun mode => ?_⟩
  cases type : (s.ftable f).type with
  | none => exact Or.inl rfl
  | pipe => exact self
  | device => exact self
  | inode =>
      simp only [wp_bind, wp_ite, wp_pure]
      apply wp_mono (filewriteLoop_spec geo src n.toNat n.toNat 0 s quiet
        ⟨bound, type, by simpa using mode⟩)
      · exact fun _ s' ran => ⟨fun _ => ran, fun _ => ran⟩
      · exact fun e stop => Or.inr stop

end Transfer

end Xv6Fcfs.Fs
