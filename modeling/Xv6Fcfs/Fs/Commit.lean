import Xv6Fcfs.Fs.Effect

/-!
# Transactions

What a transaction has logged goes home when it ends.  The blocks that are left behind
hold data of files only, so that the disk at home is structured after every commit; and a
transaction that logs few blocks besides the free map is short when the free map is one
block.
-/

set_option autoImplicit false

namespace Xv6Fcfs.Fs

open Xv6Fcfs.Lib

structure Sound (sb : Superblock) (c : List Nat × Disk) : Prop where
  short : sb.size ≤ BPB → c.1.length ≤ MAXOPBLOCKS
  str : Structured sb (dinode sb c.2) c.2
  zero : (dinode sb c.2 0).type = 0

structure Quiet (sb : Superblock) (s : FsState) : Prop where
  inv : FsInv sb idle (fun _ => False) s
  log : s.log = []

/-- From `s` to `s'` only sound transactions were committed. -/
def Committed (sb : Superblock) (s s' : FsState) : Prop :=
  ∃ new, s'.journal.commits = new ++ s.journal.commits ∧ ∀ c, c ∈ new → Sound sb c

section Home
variable {sb : Superblock} {home disk : Disk}

theorem LogInv.home_dinode (logs : LogInv sb home disk []) (geo : Geometry sb) {i : Nat}
    (bound : i < sb.ninodes) : dinode sb home i = dinode sb disk i := by
  rcases logs.lags (IBLOCK sb i) (by simp) with same | ⟨data, -⟩
  · simp only [dinode, same]
  · have low := IBLOCK_lt_nmeta geo bound
    omega

theorem LogInv.home_slot (logs : LogInv sb home disk []) {i : Nat} (bound : i < sb.ninodes)
    (alloc : (dinode sb disk i).type ≠ 0) (k : Nat) :
    slotOf (dinode sb disk i) home k = slotOf (dinode sb disk i) disk k := by
  apply slotOf_congr rfl
  intro has
  rcases logs.lags ((dinode sb disk i).addrs NDIRECT) (by simp) with same | ⟨-, other⟩
  · exact same.symm
  · exact absurd ⟨i, bound, alloc, rfl⟩ other

theorem LogInv.home_structured (logs : LogInv sb home disk []) (geo : Geometry sb)
    (str : Structured sb (dinode sb disk) disk) : Structured sb (dinode sb home) home := by
  have slot : ∀ i, i < sb.ninodes → (dinode sb disk i).type ≠ 0 → ∀ k,
      slotOf (dinode sb home i) home k = slotOf (dinode sb disk i) disk k := by
    intro i bound alloc k
    rw [logs.home_dinode geo bound, logs.home_slot bound alloc]
  refine ⟨?_, ?_, ?_⟩
  · apply str.owned.congr
    · intro b limit
      rcases logs.lags (BBLOCK sb b) (by simp) with same | ⟨data, -⟩
      · simp only [bitmap, same]
      · have low := (BBLOCK_range geo limit).2
        omega
    · exact slots_congr (fun i bound => by rw [logs.home_dinode geo bound]) slot
  · intro i bound alloc bn inside
    rw [logs.home_dinode geo bound] at alloc inside
    rw [blockOf, slot i bound alloc]
    exact str.mapped i bound alloc bn inside
  · intro i bound alloc
    rw [logs.home_dinode geo bound] at alloc ⊢
    exact str.bound i bound alloc

theorem LogInv.commit {log : List Nat} (logs : LogInv sb home disk log) :
    LogInv sb (install disk log home) disk [] := by
  refine ⟨List.nodup_nil, ?_⟩
  intro b _
  by_cases listed : b ∈ log
  · left
    simp only [install, if_pos listed]
  · simp only [install, if_neg listed]
    exact logs.lags b listed

end Home

section Transactions
variable {sb : Superblock} {held : Nat → Nat} {loose : Nat → Prop} {s t : FsState}

/-- The state that `end_op` leaves. -/
def closed (s : FsState) : FsState :=
  { s with log := [], journal := s.journal.commit s.disk s.log }

theorem FsInv.endOp (inv : FsInv sb held loose s) : FsInv sb held loose (closed s) :=
  ⟨inv.disk, ⟨inv.table.unique, inv.table.inums, inv.table.cached, inv.table.live,
    inv.table.orphan, inv.table.refs⟩,
    ⟨inv.files.closed, inv.files.opened, inv.files.writes, inv.files.procs⟩, inv.logs.commit⟩

theorem Logs.length_le {is : List Nat} {k : Nat} (logs : Logs sb is k s t) (start : s.log = [])
    (nodup : t.log.Nodup) (one : sb.size ≤ BPB) : t.log.length ≤ is.length + k + 1 := by
  obtain ⟨extra, few, all⟩ := logs
  have within : t.log ⊆ sb.bmapstart :: (is.map (IBLOCK sb) ++ extra) := by
    intro b listed
    rw [List.mem_cons, List.mem_append, List.mem_map]
    rcases all b listed with old | ⟨c, limit, rfl⟩ | ⟨i, member, rfl⟩ | more
    · rw [start] at old
      cases old
    · left
      have first : c / BPB = 0 := Nat.div_eq_of_lt (by omega)
      simp only [BBLOCK, first, Nat.zero_add]
    · exact Or.inr (Or.inl ⟨i, member, rfl⟩)
    · exact Or.inr (Or.inr more)
  have most := (nodup.subperm within).length_le
  simp only [List.length_cons, List.length_append, List.length_map] at most
  omega

theorem Committed.refl (s : FsState) : Committed sb s s := ⟨[], rfl, by simp⟩

theorem Committed.of_journal (same : t.journal = s.journal) : Committed sb s t :=
  ⟨[], by rw [same]; rfl, by simp⟩

theorem Committed.trans {u : FsState} (first : Committed sb s t) (second : Committed sb t u) :
    Committed sb s u := by
  obtain ⟨new, eq, all⟩ := first
  obtain ⟨newer, eq', all'⟩ := second
  refine ⟨newer ++ new, by rw [eq', eq, List.append_assoc], ?_⟩
  intro c member
  rcases List.mem_append.mp member with late | early
  · exact all' c late
  · exact all c early

theorem closed_committed (geo : Geometry sb) (inv : FsInv sb held loose t) {is : List Nat} {k : Nat}
    (logs : Logs sb is k s t) (journal : t.journal = s.journal) (start : s.log = [])
    (few : is.length + k + 1 ≤ MAXOPBLOCKS) : Committed sb s (closed t) := by
  refine ⟨[(t.log, install t.disk t.log t.journal.home)], ?_, ?_⟩
  · rw [← journal]
    rfl
  · intro c member
    rw [List.mem_singleton] at member
    subst member
    refine ⟨fun one => ?_, inv.logs.commit.home_structured geo inv.disk.str, ?_⟩
    · have most := logs.length_le start inv.logs.nodup one
      exact Nat.le_trans most few
    · rw [inv.logs.commit.home_dinode geo geo.positive]
      exact inv.disk.zero

theorem wp_transaction {α : Type} {m : FsM α} {E : Stop → Prop} {Q : α → FsState → Prop}
    (start : s.log = []) (body : wp m E (fun r t => Q r (closed t)) s) : wp (transaction m) E Q s := by
  have same : { s with log := [] } = s := by
    rw [← start]
  simp only [transaction, beginOp, endOp, wp_bind, wp_modify, wp_pure]
  rw [same]
  exact body

end Transactions

end Xv6Fcfs.Fs
