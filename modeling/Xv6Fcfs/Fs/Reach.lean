import Xv6Fcfs.Fs.Calls
import Xv6Fcfs.Fs.Image
import Xv6Fcfs.Fs.Reclaim

/-!
# Runs of file-system calls

Calls follow each other from a consistent image.  In every state reached the on-disk
structure holds, and no transaction on the way was longer than `log.c` provides for.
-/

set_option autoImplicit false

namespace Xv6Fcfs.Fs

open Xv6Fcfs.Lib

/-- A file system between two calls. -/
structure Consistent (sb : Superblock) (s : FsState) : Prop where
  quiet : Quiet sb s
  kinds : Kinds (nodes sb s.disk)

section Steps
variable {sb : Superblock} {s s' : FsState}

theorem step_cases {e : Nat × Call} (run : step sb s e = some s') :
    ∃ files r, s.proc e.1 = some files ∧ runCall sb e.1 files e.2 s = .ok (r, s') := by
  unfold step at run
  split at run
  · cases run
  · rename_i files proc
    split at run
    · rename_i r t done
      obtain rfl := Option.some.inj run
      exact ⟨files, r, proc, done⟩
    · cases run

theorem step_outcome (geo : Geometry sb) {e : Nat × Call} (ok : Consistent sb s)
    (run : step sb s e = some s') :
    ∃ files, s.proc e.1 = some files ∧ Outcome sb s files e.2 s' := by
  obtain ⟨files, r, proc, done⟩ := step_cases run
  have outcome := wp_ok (runCall_spec geo ok.quiet ok.kinds proc e.2) done
  exact ⟨files, proc, outcome⟩

theorem Outcome.consistent {files : ProcFiles} {c : Call} (outcome : Outcome sb s files c s')
    (ok : Consistent sb s) : Consistent sb s' := by
  obtain ⟨adds, raises, w, edit, -, -, drift⟩ := outcome.edit
  exact ⟨outcome.quiet, drift.kinds (edit.kinds ok.kinds)⟩

theorem step_consistent (geo : Geometry sb) {e : Nat × Call} (ok : Consistent sb s)
    (run : step sb s e = some s') : Consistent sb s' := by
  obtain ⟨files, -, outcome⟩ := step_outcome geo ok run
  exact outcome.consistent ok

theorem run_consistent (geo : Geometry sb) (r : Run (step sb)) (start : Consistent sb (r.state 0)) :
    ∀ n, n ≤ r.len → Consistent sb (r.state n) :=
  r.invariant (Consistent sb) start fun _ _ _ run ok => step_consistent geo ok run

end Steps

theorem mkfs_consistent : Consistent mkfsSb mkfsState := by
  refine ⟨⟨mkfs_inv, rfl⟩, ?_⟩
  intro i
  by_cases alloc : (nodes mkfsSb mkfsDisk i).type = 0
  · exact Or.inl alloc
  · have bound := nodes_range alloc
    rw [nodes_type bound] at alloc
    obtain rfl := mkfs_alloc bound alloc
    right
    left
    have node := mkfs_node
    simp only [mkfsState]
    rw [node]

/-! ## The structure of the disk -/

/-- The structure invariant with what it gives: a data block in use has one owner, `bfree`
does not panic in any call and `readi` leaves the disk and the log alone. -/
structure WellBuilt (sb : Superblock) (s : FsState) : Prop where
  str : Structured sb (dinode sb s.disk) s.disk
  owner : ∀ b, nmeta sb ≤ b → b < sb.size → bitmap sb s.disk b = true →
    ∃! x, slots sb (dinode sb s.disk) s.disk x = b
  bfree : ∀ p files c, s.proc p = some files →
    runCall sb p files c s ≠ .error .freeingFreeBlock
  readi : ∀ i, i < sb.ninodes → (dinode sb s.disk i).type ≠ 0 → ∀ log writable off n, n < 2 ^ 32 →
    ∃ r, readi sb writable off n ⟨i, dinode sb s.disk i, s.disk, log⟩ =
      .ok (r, ⟨i, dinode sb s.disk i, s.disk, log⟩)

theorem Consistent.wellBuilt {sb : Superblock} {s : FsState} (geo : Geometry sb)
    (ok : Consistent sb s) : WellBuilt sb s := by
  have str := ok.quiet.inv.disk.str
  refine ⟨str, ?_, ?_, ?_⟩
  · intro b low high marked
    rcases (str.owned.exact b high).mp marked with reserved | ⟨x, holds⟩
    · omega
    · refine ⟨x, holds, ?_⟩
      intro y same
      have pos := str.owned.pos
      exact str.owned.inj y x (by omega) (same.trans holds.symm)
  · intro p files c proc stop
    exact (wp_error (runCall_spec geo ok.quiet ok.kinds proc c) stop).blocks rfl
  · intro i bound alloc log writable off n word
    have settled : Settled sb ⟨i, dinode sb s.disk i, s.disk, log⟩ := ⟨bound, rfl, str⟩
    obtain ⟨r, f, run, rfl, -⟩ :=
      wp_total (readi_spec geo (settled.working alloc) writable off word)
    exact ⟨r, run⟩

theorem structure_kept (sb : Superblock) (geo : Geometry sb) (r : Run (step sb))
    (start : Consistent sb (r.state 0)) : ∀ n, n ≤ r.len → WellBuilt sb (r.state n) :=
  fun n within => (run_consistent geo r start n within).wellBuilt geo

/-- `open("f", O_CREATE|O_RDWR)`, a write across two blocks, `unlink("f")` and `close(0)`. -/
def writeAndDrop : List (Nat × Call) :=
  [(0, .open (some [102]) 0x202), (0, .write 0 1030 (fun _ => some 7) 0), (0, .unlink (some [102])),
    (0, .close 0)]

theorem writeAndDrop_completes : (exec (step mkfsSb) mkfsState writeAndDrop).isSome = true := by
  decide +kernel

def writeAndDropRun : Run (step mkfsSb) :=
  Run.ofEvents (step mkfsSb) mkfsState writeAndDrop (0, .exit) writeAndDrop_completes

theorem writeAndDropRun_start : writeAndDropRun.state 0 = mkfsState :=
  Run.ofEvents_zero (step mkfsSb) mkfsState writeAndDrop (0, .exit) writeAndDrop_completes

theorem writeAndDrop_wellBuilt : WellBuilt mkfsSb (writeAndDropRun.state writeAndDropRun.len) := by
  have start : Consistent mkfsSb (writeAndDropRun.state 0) := by
    rw [writeAndDropRun_start]
    exact mkfs_consistent
  exact structure_kept mkfsSb mkfs_geometry writeAndDropRun start _ (Nat.le_refl _)

/-! ## The size of transactions -/

/-- From `s` to `s'` every transaction passed at most `MAXOPBLOCKS` blocks to `log_write`. -/
def ShortOps (s s' : FsState) : Prop :=
  ∃ new, s'.journal.commits = new ++ s.journal.commits ∧
    ∀ c, c ∈ new → c.1.length ≤ MAXOPBLOCKS

theorem Committed.shortOps {sb : Superblock} {s s' : FsState} (one : sb.size ≤ BPB)
    (committed : Committed sb s s') : ShortOps s s' := by
  obtain ⟨new, eq, sound⟩ := committed
  exact ⟨new, eq, fun c member => (sound c member).short one⟩

/-- A turn of `ireclaim` logs the block of the inode and the block of the free map. -/
theorem Turn.shortOps {sb : Superblock} {s s' : FsState} {inum : Nat} (one : sb.size ≤ BPB)
    (turn : Turn sb inum s s') : ShortOps s s' := by
  obtain ⟨new, eq, few⟩ := turn.commits
  refine ⟨new, eq, ?_⟩
  intro c member
  obtain ⟨nodup, only⟩ := few c member
  have within : c.1 ⊆ [IBLOCK sb inum, sb.bmapstart] := by
    intro b listed
    rcases only b listed with rfl | ⟨d, limit, rfl⟩
    · exact List.mem_cons_self ..
    · have first : d / BPB = 0 := Nat.div_eq_of_lt (by omega)
      simp [BBLOCK, first]
  have most := (nodup.subperm within).length_le
  simp only [List.length_cons, List.length_nil] at most
  simp only [MAXOPBLOCKS]
  omega

/-- With one block of free map every call, and every turn of `ireclaim`, keeps to
`MAXOPBLOCKS`. -/
theorem transactions_short (sb : Superblock) (geo : Geometry sb) (one : sb.size ≤ BPB) :
    (∀ s p files c r s', Consistent sb s → s.proc p = some files →
      runCall sb p files c s = .ok (r, s') → ShortOps s s') ∧
    (∀ s inum, Booted sb s → inum < sb.ninodes →
      ∃ s', ireclaimInode sb inum s = .ok ((), s') ∧ ShortOps s s') := by
  refine ⟨?_, ?_⟩
  · intro s p files c r s' ok proc done
    have outcome := wp_ok (runCall_spec geo ok.quiet ok.kinds proc c) done
    exact outcome.committed.shortOps one
  · intro s inum boot range
    obtain ⟨_, s', done, -, turn⟩ := wp_total (ireclaimInode_spec geo range boot)
    exact ⟨s', done, turn.shortOps one⟩

theorem bootState_booted {sb : Superblock} {s : FsState} (ok : Consistent sb s) :
    Booted sb (bootState s.disk) := by
  refine ⟨ok.quiet.inv.disk.str, rfl, fun _ _ => rfl, fun _ _ => rfl, rfl, rfl⟩

/-- The first call of `writeAndDrop`, and what `ireclaim` does with its file when the system goes
down before the last. -/
theorem mkfs_transactions_short :
    (∃ r s', runCall mkfsSb 0 ⟨0, fun _ => none⟩ (.open (some [102]) 0x202) mkfsState = .ok (r, s') ∧
      ShortOps mkfsState s') ∧
    ∃ disk s', Orphan (dinode mkfsSb disk 2) ∧
      ireclaimInode mkfsSb 2 (bootState disk) = .ok ((), s') ∧ ShortOps (bootState disk) s' := by
  obtain ⟨calls, turns⟩ := transactions_short mkfsSb mkfs_geometry (by decide)
  refine ⟨?_, ?_⟩
  · obtain ⟨r, s', run, -⟩ := ran_of_answer
      (m := runCall mkfsSb 0 ⟨0, fun _ => none⟩ (.open (some [102]) 0x202)) (s := mkfsState)
      (fun _ _ => true) (by decide +kernel)
    exact ⟨r, s', run, calls _ _ _ _ _ _ mkfs_consistent rfl run⟩
  · obtain ⟨r, start, ends⟩ := Run.exists_of_exec (step mkfsSb) mkfsState (writeAndDrop.take 3)
      (0, .exit) (fun s => decide ((dinode mkfsSb s.disk 2).type ≠ 0 ∧
        (dinode mkfsSb s.disk 2).nlink = 0))
      (by decide +kernel)
    have first : Consistent mkfsSb (r.state 0) := by
      rw [start]
      exact mkfs_consistent
    have last := run_consistent mkfs_geometry r first r.len (Nat.le_refl _)
    have orphan := of_decide_eq_true ends
    obtain ⟨s', run, short⟩ := turns _ 2 (bootState_booted last) (by decide)
    exact ⟨_, s', orphan, run, short⟩

end Xv6Fcfs.Fs
