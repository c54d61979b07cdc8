import Xv6Fcfs.Console.Stream
import Xv6Fcfs.Fs.Syscalls
import Xv6Fcfs.Pipes.Fifo

/-!
# What a read consumes

`fileread` sends a read to a pipe, to the console or to an inode.  A pipe and an inode move
on by what the read returns.  The console does so too, unless the read reaches a byte that
cannot be stored: `consoleread` has taken it by then, and breaks off without putting it back.
-/

set_option autoImplicit false

namespace Xv6Fcfs.Files

open Xv6Fcfs.Lib

def CONSOLE : Nat := 1

/-- Where `fileread` sends a read. -/
inductive Route where
  /-- It returns -1 at once. -/
  | refused
  | pipe
  | console
  | inode

/-- `devsw[major].read` -/
def devsw (major : Nat) : Option Route := if major = CONSOLE then some .console else none

/-- `fileread`, up to the call that does the work; `none` is its panic. -/
def fileread (f : Fs.File) : Option Route :=
  if f.readable = false then some .refused
  else
    match f.type with
    | .pipe => some .pipe
    | .device =>
        if NDEV ≤ f.major then some .refused
        else some ((devsw f.major).getD .refused)
    | .inode => some .inode
    | .none => none

/-- Reads of an open file, with all that goes on beside them. -/
inductive Reading (f : Fs.File) : Type
  | refused (sent : fileread f = some .refused) : Reading f
  | pipe (sent : fileread f = some .pipe) (data : Fin Pipes.PIPESIZE → UInt8) (killed : Nat → Bool)
      (r : Run Pipes.step) (start : r.state 0 = Pipes.fresh data killed) : Reading f
  | console (sent : fileread f = some .console) (killed : Nat → Bool) (r : Run Console.step)
      (start : r.state 0 = Console.boot killed) : Reading f
  | inode (sent : fileread f = some .inode) (sb : Fs.Superblock) (s : Fs.FsState) (index : Nat)
      (here : s.ftable index = f) (dst : Nat → Bool) (n : Int) : Reading f

def consumed (s : Console.State) (call : Nat) : List UInt8 :=
  (Console.bytesOf s.cons.taken call).filter fun b => b ≠ Console.ctrl 'D'

/-- Each finished read has consumed what it returned; one that returned -1, but not because
its process had been killed, has consumed nothing. -/
def Reading.Exact {f : Fs.File} : Reading f → Prop
  | .refused _ => True
  | .pipe _ _ _ r _ => ∀ i, i ≤ r.len → ∀ p result taken,
      (r.state i).pc p = .outside (some result) taken →
        (0 ≤ result → (taken : Int) = result) ∧ (result < 0 → taken = 0)
  | .console _ _ r _ => ∀ i, i ≤ r.len → ∀ x ∈ (r.state i).returned,
      (0 ≤ x.result → ((consumed (r.state i) x.call).length : Int) = x.result) ∧
        (x.result < 0 → x.killed = false → consumed (r.state i) x.call = [])
  | .inode _ sb s index _ dst n => ∀ io result s',
      Fs.fileread sb index dst n io s = .ok (result, s') →
        (0 ≤ result → ((s'.ftable index).off : Int) = (s.ftable index).off + result) ∧
          (result < 0 → (s'.ftable index).off = (s.ftable index).off)

/-- No read of the console reaches a byte that it cannot store. -/
def Reading.Storable {f : Fs.File} : Reading f → Prop
  | .console _ _ r _ => ∀ i, i < r.len → ¬ Console.Faulty (r.state i) (r.event i)
  | _ => True

/-! ## Inodes -/

section Inodes
variable {s : Fs.FsState}

theorem ilock_ftable (sb : Fs.Superblock) (ip : Nat) :
    wp (Fs.ilock sb ip) (fun _ => True) (fun _ s' => s'.ftable = s.ftable) s := by
  simp only [Fs.ilock, wp_bind, wp_get, wp_ite, wp_throw, wp_set, wp_pure]
  exact ⟨fun _ => trivial, fun _ => ⟨fun _ => trivial, fun _ => ⟨fun _ => rfl,
    fun _ => ⟨fun _ => trivial, fun _ => rfl⟩⟩⟩⟩

theorem onInode_ftable {α : Type} (ip : Nat) (m : Fs.InodeM α) :
    wp (Fs.onInode ip m) (fun _ => True) (fun _ s' => s'.ftable = s.ftable) s := by
  rw [Fs.onInode, wp_zoom]
  exact wp_intro (fun _ _ _ => rfl) fun _ _ => trivial

theorem iunlock_ftable (ip : Nat) :
    wp (Fs.iunlock ip) (fun _ => True) (fun _ s' => s'.ftable = s.ftable) s := by
  simp only [Fs.iunlock, wp_bind, wp_get, wp_ite, wp_throw, wp_set]
  exact ⟨fun _ => trivial, fun _ => rfl⟩

theorem advance_off (f : Nat) (r : Int) :
    (0 ≤ r → (((Fs.advance f r s).ftable f).off : Int) = (s.ftable f).off + r) ∧
      (r < 0 → ((Fs.advance f r s).ftable f).off = (s.ftable f).off) := by
  unfold Fs.advance
  split
  next pos =>
    simp only [Fs.setFile, upd_self]
    omega
  next none => omega

theorem inode_exact (sb : Fs.Superblock) (f : Nat) (dst : Nat → Bool) (n io : Int)
    (inode : fileread (s.ftable f) = some .inode) :
    wp (Fs.fileread sb f dst n io) (fun _ => True) (fun r s' =>
      (0 ≤ r → ((s'.ftable f).off : Int) = (s.ftable f).off + r) ∧
        (r < 0 → (s'.ftable f).off = (s.ftable f).off)) s := by
  simp only [Fs.fileread, wp_bind, wp_get, wp_ite, wp_pure]
  unfold fileread at inode
  split at inode
  · cases inode
  next readable =>
    refine ⟨fun no => absurd no readable, fun _ => ?_⟩
    cases type : (s.ftable f).type with
    | none => rw [type] at inode; cases inode
    | pipe => rw [type] at inode; cases inode
    | device =>
        rw [type] at inode
        simp only [devsw] at inode
        split at inode
        · cases inode
        · split at inode <;> cases inode
    | inode =>
        simp only [wp_bind, wp_modify, wp_pure]
        refine wp_post (ilock_ftable sb _) ?_
        intro _ t same
        refine wp_post (onInode_ftable _ _) ?_
        rintro ⟨r, bytes⟩ u same'
        refine wp_post (iunlock_ftable _) ?_
        intro _ w same''
        have moved := advance_off (s := u) f r
        rw [same', same] at moved
        rw [same'']
        exact moved

end Inodes

/-! ## The console -/

section Consoles
variable {s : Console.State}

theorem consumed_finished {x : Console.Returned} (finished : Console.Finished s x) :
    consumed s x.call = x.got := by
  have eof : x.eof.filter (fun b => b ≠ Console.ctrl 'D') = [] := by
    unfold Console.Returned.eof
    split <;> simp
  rw [consumed, finished.bytes, List.filter_append, eof, List.append_nil, List.filter_eq_self]
  intro b inside
  simp only [decide_eq_true_eq]
  rintro rfl
  exact finished.data inside

theorem finished_exact {x : Console.Returned} (finished : Console.Finished s x) :
    (0 ≤ x.result → ((consumed s x.call).length : Int) = x.result) ∧
      (x.result < 0 → x.killed = false → consumed s x.call = []) := by
  rw [consumed_finished finished]
  rcases finished.result with ⟨minus, dead⟩ | amount
  · refine ⟨fun pos => by omega, fun _ alive => ?_⟩
    rw [dead] at alive
    cases alive
  · exact ⟨fun _ => amount.symm, fun neg => by omega⟩

/-- A call that reaches a byte it cannot store has taken one more than it returns. -/
theorem faulty_inexact {s' : Console.State} {line : Console.Line} {e : Console.Event}
    (ok : Console.Disciplined s line) (faulty : Console.Faulty s e) (run : Console.step s e = some s') :
    ∃ x ∈ s'.returned, 0 ≤ x.result ∧ ((consumed s' x.call).length : Int) = x.result + 1 := by
  cases e with
  | go p =>
      cases here : s.pc p with
      | outside => simp [Console.Faulty, here] at faulty
      | sleep k => simp [Console.Faulty, here] at faulty
      | lock k =>
          simp only [Console.Faulty, here] at faulty
          simp only [Console.step, here, Option.some.injEq] at run
          subst run
          obtain ⟨j, less, bad⟩ := faulty
          have underway := ok.underway p k (by rw [here]; rfl)
          have length := underway.length
          obtain ⟨ready, holds⟩ := ok.holds
          rw [holds.ready_eq] at less
          obtain ⟨data, lost, reads⟩ := Console.readLoop_reads k (s.killed p) line.edit k.n k.got s.cons
            ready (by omega) holds
          have short := reads.length
          have lostOne : ∃ b, lost = [b] ∧ b ≠ Console.ctrl 'D' ∧
              (Console.readLoop k (s.killed p) k.n k.got s.cons).1 =
                .ret (k.got ++ data) (k.target - (k.n - data.length : Nat)) := by
            -- with nothing lost the call would have stored byte `j`
            have stuck : (∀ b ∈ lost, b = Console.ctrl 'D') → False := by
              intro only
              rw [reads.all only] at less
              rw [reads.stored j less] at bad
              cases bad
            have ended := reads.ended
            generalize (Console.readLoop k (s.killed p) k.n k.got s.cons).1 = out at ended ⊢
            cases ended with
            | fault b datum _ _ _ => exact ⟨b, rfl, datum, rfl⟩
            | eof _ _ _ => exact (stuck fun b inside => List.mem_singleton.mp inside).elim
            | _ => exact (stuck fun b inside => absurd inside List.not_mem_nil).elim
          obtain ⟨b, rfl, datum, out⟩ := lostOne
          have taken := reads.taken
          unfold Console.readTurn
          generalize Console.readLoop k (s.killed p) k.n k.got s.cons = result at taken out ⊢
          obtain ⟨outcome, c⟩ := result
          simp only at out taken
          subst out
          refine ⟨⟨k.id, k.len, k.got ++ data, k.target - (k.n - data.length : Nat), s.killed p⟩,
            List.mem_append_right _ (List.mem_singleton.mpr rfl), ?_, ?_⟩
          · show (0 : Int) ≤ k.target - (k.n - data.length : Nat)
            omega
          · have all : consumed { s with
                cons := c
                pc := upd s.pc p .outside
                returned := s.returned ++ [⟨k.id, k.len, k.got ++ data,
                  k.target - (k.n - data.length : Nat), s.killed p⟩] } k.id = k.got ++
                    (data ++ [b]) := by
              show (Console.bytesOf c.taken k.id).filter _ = _
              rw [taken, Console.bytesOf_own, underway.bytes, List.filter_eq_self]
              intro a inside
              simp only [decide_eq_true_eq]
              rintro rfl
              rcases List.mem_append.mp inside with old | new
              · exact underway.data old
              · rcases List.mem_append.mp new with now | last
                · exact reads.bytes now
                · exact datum (List.mem_singleton.mp last).symm
            show ((consumed _ k.id).length : Int) = k.target - (k.n - data.length : Nat) + 1
            rw [all]
            simp only [List.length_append, List.length_singleton]
            omega
  | _ => exact faulty.elim

theorem console_exact_iff (r : Run Console.step) (killed : Nat → Bool)
    (start : r.state 0 = Console.boot killed) :
    (∀ i, i ≤ r.len → ∀ x ∈ (r.state i).returned,
      (0 ≤ x.result → ((consumed (r.state i) x.call).length : Int) = x.result) ∧
        (x.result < 0 → x.killed = false → consumed (r.state i) x.call = [])) ↔
      ∀ i, i < r.len → ¬ Console.Faulty (r.state i) (r.event i) := by
  constructor
  · intro exact' i
    induction i using Nat.strong_induction_on with
    | _ i ih =>
        intro within faulty
        have ok := Console.run_disciplined r killed start i (by omega) fun j less =>
          ih j less (by omega)
        obtain ⟨x, inside, pos, more⟩ := faulty_inexact ok faulty (r.next i within)
        have amount := (exact' (i + 1) (by omega) x inside).1 pos
        omega
  · intro good i within x inside
    have ok := Console.run_disciplined r killed start i within fun j less => good j (by omega)
    exact finished_exact (ok.finished x inside)

end Consoles

/-- A read consumes what it returns, just when it does not come upon a byte of the console
that it cannot store. -/
theorem read_exact_iff (f : Fs.File) (reading : Reading f) : reading.Exact ↔ reading.Storable := by
  cases reading with
  | refused sent => exact Iff.rfl
  | pipe sent data killed r start =>
      refine iff_of_true ?_ trivial
      intro i within p result taken here
      have ok := r.invariant Pipes.Lossless (by rw [start]; exact Pipes.fresh_lossless data killed)
        (fun s e s' run ok => Pipes.step_lossless ok run) i within
      have told := ok.delivers.result p result taken here
      exact ⟨told.1, fun neg => (told.2 neg).2⟩
  | console sent killed r start => exact console_exact_iff r killed start
  | inode sent sb s index here dst n =>
      refine iff_of_true ?_ trivial
      intro io result s' run
      have spec := inode_exact sb index dst n io (by rw [here]; exact sent)
      have moved := wp_ok spec run
      exact moved

/-- A line of one byte is typed, and process 1 reads it to an address that is not mapped. -/
def badAddress : List Console.Event :=
  [.consoleintr 97, .consoleintr Console.newline, .consoleread 1 (fun _ => false) 10, .go 1]

def lostByte (s : Console.State) : Bool :=
  s.returned.any fun x => x.result = 0 ∧ consumed s x.call ≠ []

theorem badAddress_loses :
    (exec Console.step (Console.boot fun _ => false) badAddress).any lostByte = true := by
  decide +kernel

theorem badAddress_inexact : ∃ (f : Fs.File) (reading : Reading f), ¬ reading.Exact := by
  obtain ⟨r, start, last⟩ := Run.exists_of_exec Console.step (Console.boot fun _ => false) badAddress
    (.go 0) lostByte badAddress_loses
  refine ⟨⟨.device, 1, true, true, 0, 0, CONSOLE⟩, .console rfl (fun _ => false) r start, ?_⟩
  intro exact'
  obtain ⟨x, inside, holds⟩ := List.any_eq_true.mp last
  simp only [decide_eq_true_eq] at holds
  have amount := (exact' r.len (Nat.le_refl _) x inside).1 (by omega)
  rw [holds.1] at amount
  exact holds.2 (List.length_eq_zero_iff.mp (by omega))

end Xv6Fcfs.Files
