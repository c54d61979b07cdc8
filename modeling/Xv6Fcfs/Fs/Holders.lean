import Xv6Fcfs.Fs.Handles
import Mathlib.Algebra.Order.BigOperators.Group.Finset

/-!
# The references to open files

`holders` counts the descriptors of all processes that are a given file.  Between calls it is
the `ref` of the file; `Counted x` says how far a running call is off.
-/

set_option autoImplicit false

namespace Xv6Fcfs.Fs

open Xv6Fcfs.Lib

theorem sum_change {g k : Nat → Nat} {n a : Nat} (bound : a < n) (same : ∀ i, i ≠ a → k i = g i) :
    (∑ i ∈ Finset.range n, k i) + g a = (∑ i ∈ Finset.range n, g i) + k a := by
  have member : a ∈ Finset.range n := Finset.mem_range.mpr bound
  have rest : ∑ i ∈ (Finset.range n).erase a, k i = ∑ i ∈ (Finset.range n).erase a, g i :=
    Finset.sum_congr rfl fun i inside => same i (Finset.ne_of_mem_erase inside)
  rw [← Finset.sum_erase_add _ k member, ← Finset.sum_erase_add _ g member, rest]
  omega

/-- The descriptors of a process that are file `f`. -/
def row (ofile : Option (Nat → Option Nat)) (f : Nat) : Nat :=
  Nat.count (fun fd => ofile.bind (fun fds => fds fd) = some f) NOFILE

def Handles.fds (h : Handles) (i : Nat) : Option (Nat → Option Nat) := (h.proc i).map ProcFiles.ofile

/-- The descriptors of all processes that are file `f`. -/
def holders (fds : Nat → Option (Nat → Option Nat)) (f : Nat) : Nat :=
  ∑ i ∈ Finset.range NPROC, row (fds i) f

def one (f g : Nat) : Int := if g = f then 1 else 0

def oneOf (o : Option Nat) (g : Nat) : Int := if o = some g then 1 else 0

/-- The running call has `x f` more references to file `f` than there are descriptors. -/
def Counted (x : Nat → Int) (h : Handles) : Prop :=
  ∀ f, ((h.file f).ref : Int) = holders h.fds f + x f

section Holders
variable {h h' : Handles} {x : Nat → Int} {p fd f : Nat} {files : ProcFiles}
    {fds : Nat → Option (Nat → Option Nat)}

theorem row_none (f : Nat) : row none f = 0 := Nat.count_of_forall_not fun _ _ no => by cases no

theorem holders_upd (fds : Nat → Option (Nat → Option Nat)) (bound : p < NPROC)
    (o : Option (Nat → Option Nat)) (f : Nat) :
    holders (upd fds p o) f + row (fds p) f = holders fds f + row o f := by
  have change := sum_change (g := fun i => row (fds i) f) (k := fun i => row (upd fds p o i) f) bound
    fun i other => by simp only [upd_of_ne other]
  simpa only [holders, upd_self] using change

theorem row_le_holders (fds : Nat → Option (Nat → Option Nat)) (bound : p < NPROC) (f : Nat) :
    row (fds p) f ≤ holders fds f :=
  Finset.single_le_sum (f := fun i => row (fds i) f) (fun _ _ => Nat.zero_le _)
    (Finset.mem_range.mpr bound)

theorem row_upd (ofile : Nat → Option Nat) (bound : fd < NOFILE) (new : Option Nat) (f : Nat) :
    (row (some (upd ofile fd new)) f : Int) + oneOf (ofile fd) f =
      row (some ofile) f + oneOf new f := by
  have change := count_change (p := fun d => (some ofile).bind (fun fds => fds d) = some f)
    (q := fun d => (some (upd ofile fd new)).bind (fun fds => fds d) = some f) NOFILE bound
    (fun d _ other => by simp only [Option.bind_some, upd_of_ne other])
  simp only [Option.bind_some, upd_self] at change
  simp only [row, oneOf, Option.bind_some]
  split_ifs at change ⊢ <;> omega

theorem fds_upd (p : Nat) (files : Option ProcFiles) :
    Handles.fds { h with proc := upd h.proc p files } =
    upd h.fds p (files.map ProcFiles.ofile) := by
  funext i
  simp only [Handles.fds]
  by_cases here : i = p
  · rw [here, upd_self, upd_self]
  · rw [upd_of_ne here, upd_of_ne here]
    rfl

theorem Counted.setFd (counted : Counted x h) (bound : p < NPROC) (proc : h.proc p = some files)
    (inside : fd < NOFILE) (new : Option Nat) :
    Counted (fun f => x f + oneOf (files.ofile fd) f - oneOf new f)
      { h with proc := upd h.proc p (some { files with ofile := upd files.ofile fd new }) } := by
  intro f
  have before := counted f
  have total := holders_upd h.fds bound (some (upd files.ofile fd new)) f
  have mine : h.fds p = some files.ofile := by rw [Handles.fds, proc]; rfl
  have change := row_upd files.ofile inside new f
  rw [mine] at total
  rw [fds_upd]
  simp only [Option.map_some]
  omega

theorem Counted.setRef (counted : Counted x h) {ff : File} {d : Int}
    (ref : (ff.ref : Int) = (h.file f).ref + d) :
    Counted (fun g => x g + d * one f g) { h with file := upd h.file f ff } := by
  intro g
  have before := counted g
  by_cases here : g = f
  · subst here
    simp only [upd_self, one, if_true]
    rw [ref, before]
    show _ = (holders h.fds g : Int) + _
    omega
  · simp only [upd_of_ne here, one, if_neg here, mul_zero, add_zero]
    exact before

theorem Counted.congr {y : Nat → Int} (counted : Counted x h) (same : ∀ f, y f = x f) :
    Counted y h := by
  intro f
  rw [same f]
  exact counted f

theorem Counted.opened (counted : Counted x h) (none : x f = 0) (bound : p < NPROC)
    (proc : h.proc p = some files)
    (inside : fd < NOFILE) (has : files.ofile fd = some f) : 0 < (h.file f).ref := by
  have before := counted f
  have mine := row_le_holders h.fds bound f
  have pos : 0 < row (h.fds p) f := by
    rw [Handles.fds, proc]
    exact Nat.pos_of_ne_zero (Nat.count_ne_iff_exists.mpr ⟨fd, inside, has⟩)
  omega

theorem oneOf_none (g : Nat) : oneOf none g = 0 := if_neg (by rintro ⟨⟩)

theorem oneOf_some (f g : Nat) : oneOf (some f) g = one f g := by
  simp only [oneOf, one, Option.some.injEq, eq_comm]

theorem Counted.of_same (counted : Counted x h) (file : h'.file = h.file)
    (fds : ∀ i, (h'.proc i).map ProcFiles.ofile = (h.proc i).map ProcFiles.ofile) : Counted x h' := by
  have same : h'.fds = h.fds := funext fds
  intro f
  rw [file, same]
  exact counted f

/-- Nobody holds more or less than `ref` says. -/
def Balanced (h : Handles) : Prop := Counted (fun _ => 0) h

theorem Balanced.given (balanced : Balanced h) (bound : p < NPROC) {ff : File}
    (ref : ff.ref = (h.file f).ref + 1)
    (file : h'.file = upd h.file f ff) (given : FdGiven p f fd h h') : Balanced h' := by
  obtain ⟨files, proc, free, after⟩ := given.free
  have more : ((ff.ref : Nat) : Int) = (h.file f).ref + 1 := by omega
  have step := (balanced.setRef more).setFd bound proc given.bound (some f)
  have same : h' = { h with
      file := upd h.file f ff, proc :=
        upd h.proc p (some { files with ofile := upd files.ofile fd (some f) }) } := by
    rw [← file, ← after]
  rw [same]
  refine step.congr fun g => ?_
  simp only [free, oneOf_none, oneOf_some]
  omega

theorem HandleEffect.balanced (effect : HandleEffect p h h') (balanced : Balanced h)
    (bound : p < NPROC) :
    Balanced h' := by
  cases effect with
  | same file fds => exact balanced.of_same file fds
  | opened f fd ff inside closed ref type file given => exact balanced.given bound (by omega) file given
  | dup f fd fd0 old holds pos file given => exact balanced.given bound rfl file given

end Holders

end Xv6Fcfs.Fs
