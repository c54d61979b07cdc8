import Xv6Fcfs.Fs.Holders
import Xv6Fcfs.Sys.Pages

/-!
# Open files and their pipes

A side of a pipe is open just as long as there is an open file for it, and there is one such
file at most.  So the page of a pipe is given back once, by the `fileclose` that ends the last
of the two files.
-/

set_option autoImplicit false

namespace Xv6Fcfs.Sys

open Xv6Fcfs.Lib Xv6Fcfs.Vm Xv6Fcfs.Fs

/-- `writeopen` or `readopen` -/
def Ends.side (e : Ends) (writable : Bool) : Bool := if writable then e.writeopen else e.readopen

/-- File `f` is the end of a pipe. -/
def IsEnd (h : Handles) (pipe : Nat → Nat) (f q : Nat) (w : Bool) : Prop :=
  (h.file f).type = .pipe ∧ pipe f = q ∧ (h.file f).writable = w

structure Piped (h : Handles) (pipe : Nat → Nat) (ends : Nat → Ends) : Prop where
  closed : ∀ f, (h.file f).ref = 0 → (h.file f).type = .none
  side : ∀ f q w, IsEnd h pipe f q w → (ends q).side w = true
  once : ∀ f g q w, IsEnd h pipe f q w → IsEnd h pipe g q w → f = g
  ended : ∀ q w, (ends q).side w = true → ∃ f, IsEnd h pipe f q w

theorem Ends.opened_iff (e : Ends) : e.opened ↔ ∃ w, e.side w = true := by
  refine ⟨fun opened => ?_, fun ⟨w, side⟩ => ?_⟩
  · rcases opened with read | write
    · exact ⟨false, read⟩
    · exact ⟨true, write⟩
  · cases w with
    | false => exact Or.inl side
    | true => exact Or.inr side

section Piped
variable {h h' : Handles} {pipe : Nat → Nat} {ends : Nat → Ends} {f : Nat} {ff : File}

theorem Piped.of_same (piped : Piped h pipe ends)
    (type : ∀ f, (h'.file f).type = .pipe ↔ (h.file f).type = .pipe)
    (writable : ∀ f, (h.file f).type = .pipe → (h'.file f).writable = (h.file f).writable)
    (closed : ∀ f, (h'.file f).ref = 0 → (h'.file f).type = .none) : Piped h' pipe ends := by
  have same : ∀ f q w, IsEnd h' pipe f q w ↔ IsEnd h pipe f q w := by
    intro f q w
    unfold IsEnd
    rw [type f]
    refine and_congr_right fun isEnd => ?_
    rw [writable f isEnd]
  refine ⟨closed, ?_, ?_, ?_⟩
  · exact fun f q w isEnd => piped.side f q w ((same f q w).mp isEnd)
  · exact fun f g q w endF endG => piped.once f g q w ((same f q w).mp endF) ((same g q w).mp endG)
  · intro q w opened
    obtain ⟨f, isEnd⟩ := piped.ended q w opened
    exact ⟨f, (same f q w).mpr isEnd⟩

theorem Piped.setOther (piped : Piped h pipe ends) (old : (h.file f).type ≠ .pipe)
    (new : ff.type ≠ .pipe)
    (closed : ff.ref = 0 → ff.type = .none) : Piped { h with file := upd h.file f ff } pipe ends := by
  refine piped.of_same ?_ ?_ ?_
  · intro g
    by_cases here : g = f
    · simp only [here, upd_self]
      exact iff_of_false new old
    · simp only [upd_of_ne here]
  · intro g isEnd
    have other : g ≠ f := by
      rintro rfl
      exact old isEnd
    simp only [upd_of_ne other]
  · intro g
    by_cases here : g = f
    · simp only [here, upd_self]
      exact closed
    · simp only [upd_of_ne here]
      exact piped.closed g

theorem Piped.setRef (piped : Piped h pipe ends) (type : ff.type = (h.file f).type)
    (writable : ff.writable = (h.file f).writable) (pos : 0 < ff.ref) :
    Piped { h with file := upd h.file f ff } pipe ends := by
  refine piped.of_same ?_ ?_ ?_
  · intro g
    by_cases here : g = f
    · simp only [here, upd_self, type]
    · simp only [upd_of_ne here]
  · intro g _
    by_cases here : g = f
    · simp only [here, upd_self, writable]
    · simp only [upd_of_ne here]
  · intro g
    by_cases here : g = f
    · simp only [here, upd_self]
      omega
    · simp only [upd_of_ne here]
      exact piped.closed g

theorem Piped.procs (piped : Piped h pipe ends) (proc : Nat → Option ProcFiles) :
    Piped { h with proc := proc } pipe ends :=
  ⟨piped.closed, piped.side, piped.once, piped.ended⟩

theorem Piped.of_file {file : Nat → File} (piped : Piped { h with file := file } pipe ends)
    (same : h'.file = file) : Piped h' pipe ends := by
  subst same
  exact piped.procs h'.proc

theorem Piped.effect {p : Nat} (piped : Piped h pipe ends) (effect : HandleEffect p h h') :
    Piped h' pipe ends := by
  cases effect with
  | same file fds =>
      refine piped.of_same ?_ ?_ ?_
      · exact fun f => by rw [file]
      · exact fun f _ => by rw [file]
      · rw [file]
        exact piped.closed
  | opened f fd ff bound closed ref type file given =>
      have old : (h.file f).type ≠ .pipe := by rw [piped.closed f closed]; decide
      have new : ff.type ≠ .pipe := by
        rcases type with type | type <;> rw [type] <;> decide
      exact (piped.setOther old new (by omega)).of_file file
  | dup f fd fd0 old holds pos file given =>
      have more : Piped { h with file := upd h.file f { h.file f with ref := (h.file f).ref + 1 } }
          pipe ends := piped.setRef rfl rfl (Nat.succ_pos _)
      exact more.of_file file

/-- The last reference to one end of a pipe goes, and the side with it. -/
theorem Piped.shut (piped : Piped h pipe ends) {q : Nat} {w : Bool} (mine : IsEnd h pipe f q w)
    (gone : ff.type = .none) {e : Ends} (off : e.side w = false)
    (stays : e.side (!w) = (ends q).side (!w)) :
    Piped { h with file := upd h.file f ff } pipe (upd ends q e) := by
  have notEnd : ∀ q' w', ¬ IsEnd { h with file := upd h.file f ff } pipe f q' w' := by
    rintro q' w' ⟨type, -⟩
    simp only [upd_self, gone] at type
    cases type
  have same : ∀ g q' w', g ≠ f →
    (IsEnd { h with file := upd h.file f ff } pipe g q' w' ↔ IsEnd h pipe g q' w') := by
    intro g q' w' other
    simp only [IsEnd, upd_of_ne other]
  refine ⟨?_, ?_, ?_, ?_⟩
  · intro g
    by_cases here : g = f
    · simp only [here, upd_self]
      exact fun _ => gone
    · simp only [upd_of_ne here]
      exact piped.closed g
  · intro g q' w' isEnd
    have other : g ≠ f := by
      rintro rfl
      exact notEnd q' w' isEnd
    have old := (same g q' w' other).mp isEnd
    by_cases here : q' = q
    · subst here
      rw [upd_self]
      have sides : w' = !w := by
        by_contra no
        have equal : w' = w := by
          cases w <;> cases w' <;> simp at no ⊢
        subst equal
        exact other (piped.once g f q' w' old mine)
      rw [sides, stays, ← sides]
      exact piped.side g q' w' old
    · rw [upd_of_ne here]
      exact piped.side g q' w' old
  · intro g g' q' w' endG endG'
    have otherG : g ≠ f := by
      rintro rfl
      exact notEnd q' w' endG
    have otherG' : g' ≠ f := by
      rintro rfl
      exact notEnd q' w' endG'
    exact piped.once g g' q' w' ((same g q' w' otherG).mp endG) ((same g' q' w' otherG').mp endG')
  · intro q' w' opened
    have was : (ends q').side w' = true ∧ ¬ (q' = q ∧ w' = w) := by
      by_cases here : q' = q
      · subst here
        rw [upd_self] at opened
        have sides : w' ≠ w := by
          rintro rfl
          rw [off] at opened
          cases opened
        have equal : w' = !w := by
          cases w <;> cases w' <;> simp at sides ⊢
        rw [equal, stays] at opened
        rw [equal]
        exact ⟨opened, fun both => sides (equal.trans both.2)⟩
      · rw [upd_of_ne here] at opened
        exact ⟨opened, fun both => here both.1⟩
    obtain ⟨g, isEnd⟩ := piped.ended q' w' was.1
    refine ⟨g, (same g q' w' ?_).mpr isEnd⟩
    rintro rfl
    exact was.2 ⟨isEnd.2.1.symm.trans mine.2.1, isEnd.2.2.symm.trans mine.2.2⟩

theorem Piped.born (piped : Piped h pipe ends) {q a b : Nat} {fa fb : File} (differ : a ≠ b)
    (oldA : (h.file a).type ≠ .pipe) (oldB : (h.file b).type ≠ .pipe) (fresh : ¬ (ends q).opened)
    (read : fa.type = .pipe ∧ fa.writable = false ∧ 0 < fa.ref)
    (write : fb.type = .pipe ∧ fb.writable = true ∧ 0 < fb.ref) :
    Piped { h with file := upd (upd h.file a fa) b fb } (upd (upd pipe a q) b q)
      (upd ends q ⟨true, true⟩) := by
  have noOld : ∀ g q' w, q' = q → ¬ IsEnd h pipe g q' w := by
    rintro g q' w rfl isEnd
    exact fresh ((ends q').opened_iff.mpr ⟨w, piped.side g q' w isEnd⟩)
  have ofA : ∀ q' w, IsEnd { h with file := upd (upd h.file a fa) b fb }
    (upd (upd pipe a q) b q) a q' w ↔
      q' = q ∧ w = false := by
    intro q' w
    simp only [IsEnd, upd_of_ne differ, upd_self, read.1, read.2.1, true_and]
    exact ⟨fun both => ⟨both.1.symm, both.2.symm⟩, fun both => ⟨both.1.symm, both.2.symm⟩⟩
  have ofB : ∀ q' w, IsEnd { h with file := upd (upd h.file a fa) b fb }
    (upd (upd pipe a q) b q) b q' w ↔
      q' = q ∧ w = true := by
    intro q' w
    simp only [IsEnd, upd_self, write.1, write.2.1, true_and]
    exact ⟨fun both => ⟨both.1.symm, both.2.symm⟩, fun both => ⟨both.1.symm, both.2.symm⟩⟩
  have others : ∀ g q' w, g ≠ a → g ≠ b →
      (IsEnd { h with file := upd (upd h.file a fa) b fb } (upd (upd pipe a q) b q) g q' w ↔
        IsEnd h pipe g q' w) := by
    intro g q' w notA notB
    simp only [IsEnd, upd_of_ne notA, upd_of_ne notB]
  -- the ends of the new pipe and of the others
  have cases' : ∀ g q' w, IsEnd { h with file := upd (upd h.file a fa) b fb }
    (upd (upd pipe a q) b q) g q' w ↔
      (g = a ∧ q' = q ∧ w = false) ∨ (g = b ∧ q' = q ∧ w = true) ∨
        (g ≠ a ∧ g ≠ b ∧ IsEnd h pipe g q' w) := by
    intro g q' w
    by_cases isA : g = a
    · subst isA
      rw [ofA]
      simp [differ]
    · by_cases isB : g = b
      · subst isB
        rw [ofB]
        simp [isA]
      · rw [others g q' w isA isB]
        simp [isA, isB]
  refine ⟨?_, ?_, ?_, ?_⟩
  · intro g
    by_cases isB : g = b
    · simp only [isB, upd_self]
      omega
    · simp only [upd_of_ne isB]
      by_cases isA : g = a
      · simp only [isA, upd_self]
        omega
      · simp only [upd_of_ne isA]
        exact piped.closed g
  · intro g q' w isEnd
    rcases (cases' g q' w).mp isEnd with ⟨-, rfl, rfl⟩ | ⟨-, rfl, rfl⟩ | ⟨-, -, old⟩
    · rw [upd_self]; rfl
    · rw [upd_self]; rfl
    · rw [upd_of_ne fun same => noOld g q' w same old]
      exact piped.side g q' w old
  · intro g g' q' w endG endG'
    rcases (cases' g q' w).mp endG with ⟨rfl, rfl, rfl⟩ | ⟨rfl, rfl, rfl⟩ | ⟨-, -, old⟩ <;>
      rcases (cases' g' q' _).mp endG' with ⟨rfl, same, sides⟩ | ⟨rfl, same, sides⟩ | ⟨-, -, old'⟩
    all_goals first
      | rfl
      | exact absurd old' (noOld _ _ _ rfl)
      | exact absurd old (noOld _ _ _ same)
      | exact piped.once _ _ _ _ old old'
      | cases sides
  · intro q' w opened
    by_cases here : q' = q
    · cases w with
      | false => exact ⟨a, (ofA q' false).mpr ⟨here, rfl⟩⟩
      | true => exact ⟨b, (ofB q' true).mpr ⟨here, rfl⟩⟩
    · rw [upd_of_ne here] at opened
      obtain ⟨g, isEnd⟩ := piped.ended q' w opened
      refine ⟨g, (others g q' w ?_ ?_).mpr isEnd⟩
      · rintro rfl
        exact oldA isEnd.1
      · rintro rfl
        exact oldB isEnd.1

end Piped

/-! ## `fileclose` -/

/-- The pages, the pipes and the open files while a call runs that has the pages `C` and `x f`
more references to file `f` than descriptors tell. -/
structure Sound (tramp : Nat) (G : Guard) (C : List Nat) (x : Nat → Int) (s : System) : Prop where
  paged : Paged tramp G C s
  piped : Piped (handles s.fs) s.pipe s.ends
  counted : Counted x (handles s.fs)

section Close
variable {tramp : Nat} {G : Guard} {C : List Nat} {x : Nat → Int} {s s' : System} {sb : Superblock}

theorem pipeclose_paged {q : Nat} {w : Bool} (paged : Paged tramp G C s)
    (opened : (s.ends q).side w = true)
    {E : Halt → Prop} : wp (pipeclose q w) E (fun _ s' => Paged tramp G C s' ∧
      ∃ e : Ends, e.side w = false ∧ e.side (!w) = (s.ends q).side (!w) ∧
        s' = { s with phys := s'.phys, ends := upd s.ends q e }) s := by
  have was : (s.ends q).opened := (s.ends q).opened_iff.mpr ⟨w, opened⟩
  rw [pipeclose, wp_bind, wp_get]
  generalize new : (if w then { s.ends q with writeopen := false } else
    { s.ends q with readopen := false } : Ends) = e
  have off : e.side w = false := by rw [← new]; cases w <;> rfl
  have stays : e.side (!w) = (s.ends q).side (!w) := by rw [← new]; cases w <;> rfl
  simp only [setEnds, wp_bind, wp_modify, wp_ite, wp_onVm, wp_pure]
  refine ⟨fun closed => ?_, fun still => ?_⟩
  · have none : ¬ e.opened := by
      rintro (read | write)
      · rw [closed.1] at read
        cases read
      · rw [closed.2] at write
        cases write
    refine wp_post ((paged.shutPipe was none).kfree (List.mem_cons_self ..)) ?_
    rintro _ v ⟨after, -⟩
    rw [List.erase_cons_head] at after
    exact ⟨after, e, off, stays, rfl⟩
  · have some : e.opened := by
      by_contra none
      refine still ⟨?_, ?_⟩
      · exact Bool.eq_false_iff.mpr fun read => none (Or.inl read)
      · exact Bool.eq_false_iff.mpr fun write => none (Or.inr write)
    exact ⟨paged.halfPipe was some, e, off, stays, rfl⟩

def OnlyFiles (s s' : System) : Prop :=
  s' = { s with phys := s'.phys, fs := s'.fs, pipe := s'.pipe, ends := s'.ends }

theorem OnlyFiles.trans {t : System} (first : OnlyFiles s t) (second : OnlyFiles t s') :
    OnlyFiles s s' := by
  unfold OnlyFiles at *
  rw [second, first]

theorem Sound.withFs (sound : Sound tramp G C x s) {fs : FsState} {y : Nat → Int}
    (piped : Piped (handles fs) s.pipe s.ends) (counted : Counted y (handles fs)) :
    Sound tramp G C y { s with fs := fs } :=
  ⟨sound.paged.same rfl (fun _ => ⟨rfl, rfl, rfl⟩) rfl rfl, piped, counted⟩

theorem fileclose_sound (sound : Sound tramp G C x s) (f : Nat) :
    wp (fileclose sb f) FsOnly (fun _ s' =>
    Sound tramp G C (fun g => x g - one f g) s' ∧ s'.fs.proc = s.fs.proc ∧ OnlyFiles s s') s := by
  rw [fileclose, wp_bind, wp_get, wp_bind, wp_onFs]
  refine wp_mono (fileclose_files sb f s.fs) ?_ fun e _ => ⟨e, rfl⟩
  rintro _ fs ⟨pos, same⟩
  have procs : fs.proc = s.fs.proc := congrArg Handles.proc same
  generalize new : (if 1 < (s.fs.ftable f).ref then
    { s.fs.ftable f with ref := (s.fs.ftable f).ref - 1 }
    else { s.fs.ftable f with ref := 0, type := .none } : File) = ff
  have file : handles fs = { handles s.fs with file := upd (handles s.fs).file f ff.bare } := by
    rw [same]
    simp only [handles, closeOnce, new, Handles.mk.injEq, and_true]
    funext g
    by_cases here : g = f
    · rw [here, upd_self, upd_self]
    · rw [upd_of_ne here, upd_of_ne here]
  have ref : (ff.ref : Int) = (s.fs.ftable f).ref + -1 := by
    rw [← new]
    split <;> simp only <;> omega
  have counted : Counted (fun g => x g - one f g) (handles fs) := by
    rw [file]
    have less : Counted (fun g => x g + -1 * one f g)
        { handles s.fs with file := upd (handles s.fs).file f ff.bare } := sound.counted.setRef ref
    refine less.congr fun g => ?_
    ring
  by_cases last : (s.fs.ftable f).ref = 1 ∧ (s.fs.ftable f).type = .pipe
  · obtain ⟨single, isPipe⟩ := last
    have mine : IsEnd (handles s.fs) s.pipe f (s.pipe f) (s.fs.ftable f).writable := ⟨isPipe, rfl, rfl⟩
    have gone : ff.bare.type = .none := by
      rw [← new, if_neg (by omega)]
      rfl
    rw [if_pos ⟨single, isPipe⟩]
    have paged : Paged tramp G C { s with fs := fs } :=
      sound.paged.same rfl (fun _ => ⟨rfl, rfl, rfl⟩) rfl rfl
    refine wp_post (pipeclose_paged paged (sound.piped.side f _ _ mine)) ?_
    rintro _ s2 ⟨after, e, off, stays, rest⟩
    have fs2 : s2.fs = fs := by rw [rest]
    have ends2 : s2.ends = upd s.ends (s.pipe f) e := by rw [rest]
    have pipe2 : s2.pipe = s.pipe := by rw [rest]
    refine ⟨⟨after, ?_, by rw [fs2]; exact counted⟩, by rw [fs2, procs], ?_⟩
    · rw [fs2, ends2, pipe2, file]
      exact sound.piped.shut mine gone off stays
    · unfold OnlyFiles
      rw [rest]
  · rw [if_neg last]
    refine ⟨sound.withFs ?_ counted, procs, rfl⟩
    rw [file]
    by_cases more : 1 < (s.fs.ftable f).ref
    · rw [if_pos more] at new
      refine sound.piped.setRef ?_ ?_ ?_ <;> rw [← new]
      · rfl
      · rfl
      · simp only [File.bare]
        omega
    · rw [if_neg more] at new
      have one' : (s.fs.ftable f).ref = 1 := by omega
      refine sound.piped.setOther (fun isPipe => last ⟨one', isPipe⟩) ?_ fun _ => ?_ <;> rw [← new]
      · simp [File.bare]
      · rfl

/-! ## `pipealloc` -/

theorem handles_setFile (f : Nat) (ff : File) (fs : FsState) :
    handles (setFile f ff fs) = { handles fs with file := upd (handles fs).file f ff.bare } := by
  simp only [handles, setFile, Handles.mk.injEq, and_true]
  funext g
  by_cases here : g = f
  · rw [here, upd_self, upd_self]
  · rw [upd_of_ne here, upd_of_ne here]

theorem Sound.congr {y : Nat → Int} (sound : Sound tramp G C x s) (same : ∀ g, y g = x g) :
    Sound tramp G C y s := ⟨sound.paged, sound.piped, sound.counted.congr same⟩

def Raw (s : System) (f : Nat) : Prop := (s.fs.ftable f).ref = 1 ∧ (s.fs.ftable f).type = .none

/-- What `filealloc` does. -/
structure Taken (tramp : Nat) (G : Guard) (C : List Nat) (x : Nat → Int) (s s' : System) (f : Nat) :
    Prop where
  sound : Sound tramp G C (fun g => x g + one f g) s'
  raw : Raw s' f
  others : ∀ g, Raw s g → g ≠ f ∧ Raw s' g
  proc : s'.fs.proc = s.fs.proc
  only : OnlyFiles s s'

theorem filealloc_sound (sound : Sound tramp G C x s) {E : Halt → Prop} : wp (onFs filealloc) E
    (fun r s' => (r = none ∧ s' = s) ∨ ∃ f, r = some f ∧ Taken tramp G C x s s' f) s := by
  rw [wp_onFs, filealloc, wp_bind, wp_get]
  cases found : freeFile s.fs.ftable 0 NFILE with
  | none => exact Or.inl ⟨rfl, rfl⟩
  | some f =>
      obtain ⟨-, -, free⟩ := freeFile_some _ _ _ found
      have type : (s.fs.ftable f).type = .none := sound.piped.closed f free
      simp only [wp_bind, wp_set, wp_pure]
      refine Or.inr ⟨f, rfl, sound.withFs ?_ ?_, ?_, ?_, rfl, rfl⟩
      · rw [handles_setFile]
        refine sound.piped.setOther ?_ ?_ (by simp [File.bare]) <;> simp [handles, File.bare, type]
      · rw [handles_setFile]
        have more := sound.counted.setRef (f := f) (d := 1)
          (show (({ s.fs.ftable f with ref := 1 } : File).bare.ref : Int) = _ by simp [handles,
            File.bare, free])
        exact more.congr fun g => by ring
      · simp only [Raw, setFile, upd_self]
        exact ⟨trivial, type⟩
      · intro g raw
        have other : g ≠ f := by
          rintro rfl
          have one := raw.1
          omega
        simp only [Raw, setFile, upd_of_ne other]
        exact ⟨other, raw⟩

theorem Paged.notPipe {q : Nat} (paged : Paged tramp G C s) (member : q ∈ C) : ¬ (s.ends q).opened := by
  obtain ⟨own, inv⟩ := paged
  intro opened
  have pipe := (inv.pipe q).mpr opened
  rw [(inv.calls q).mpr member] at pipe
  cases pipe

theorem Sound.born {q a b : Nat} (sound : Sound tramp G (q :: C) x s) (rawA : Raw s a) (rawB : Raw s b)
    (differ : a ≠ b) : Sound tramp G C x { s with
      ends := upd s.ends q ⟨true, true⟩, pipe := upd (upd s.pipe a q) b q,
      fs := setFile b (pipeFile true (s.fs.ftable b))
        (setFile a (pipeFile false (s.fs.ftable a)) s.fs) } := by
  have files : handles (setFile b (pipeFile true (s.fs.ftable b))
    (setFile a (pipeFile false (s.fs.ftable a)) s.fs)) =
      { handles s.fs with
        file := upd (upd (handles s.fs).file a (pipeFile false (s.fs.ftable a)).bare) b
          (pipeFile true (s.fs.ftable b)).bare } := by
    rw [handles_setFile, handles_setFile]
  refine ⟨?_, ?_, ?_⟩
  · have opened : (⟨true, true⟩ : Ends).opened := Or.inl rfl
    have paged := sound.paged.openPipe (List.mem_cons_self ..) opened
    rw [List.erase_cons_head] at paged
    exact paged.same rfl (fun _ => ⟨rfl, rfl, rfl⟩) rfl rfl
  · rw [files]
    refine sound.piped.born differ ?_ ?_ (sound.paged.notPipe (List.mem_cons_self ..))
      ⟨rfl, rfl, ?_⟩ ⟨rfl, rfl, ?_⟩
    · simp [handles, File.bare, rawA.2]
    · simp [handles, File.bare, rawB.2]
    · simp [pipeFile, File.bare, rawA.1]
    · simp [pipeFile, File.bare, rawB.1]
  · rw [files]
    have first := sound.counted.setRef (f := a) (d := 0)
      (show ((pipeFile false (s.fs.ftable a)).bare.ref : Int) = _ by simp [handles,
        File.bare, pipeFile])
    have second := first.setRef (f := b) (d := 0)
      (show ((pipeFile true (s.fs.ftable b)).bare.ref : Int) = _ by
        simp [handles, File.bare, pipeFile, upd_of_ne differ.symm])
    exact second.congr fun g => by ring

theorem OnlyFiles.refl (s : System) : OnlyFiles s s := rfl

/-- What `pipealloc` does. -/
inductive Piping (tramp : Nat) (G : Guard) (C : List Nat) (x : Nat → Int) (s s' : System) :
    Option (Nat × Nat) → Prop where
  | failed (sound : Sound tramp G C x s') (proc : s'.fs.proc = s.fs.proc) (only : OnlyFiles s s') :
      Piping tramp G C x s s' none
  | made (rf wf : Nat) (sound : Sound tramp G C (fun g => x g + one rf g + one wf g) s')
      (proc : s'.fs.proc = s.fs.proc) (only : OnlyFiles s s') : Piping tramp G C x s s' (some (rf, wf))

theorem pipealloc_sound (sound : Sound tramp G C x s) :
    wp (pipealloc sb) FsOnly (fun r s' => Piping tramp G C x s s' r) s := by
  rw [pipealloc, wp_bind]
  refine wp_post (filealloc_sound sound) ?_
  rintro _ s1 (⟨rfl, rfl⟩ | ⟨f0, rfl, taken0⟩)
  · exact .failed sound rfl (OnlyFiles.refl _)
  · rw [wp_bind]
    refine wp_post (filealloc_sound taken0.sound) ?_
    rintro _ s2 (⟨rfl, rfl⟩ | ⟨f1, rfl, taken1⟩)
    · rw [wp_bind]
      refine wp_post (fileclose_sound taken0.sound f0) ?_
      rintro _ s3 ⟨sound3, proc3, only3⟩
      exact .failed (sound3.congr fun g => by ring) (proc3.trans taken0.proc) (taken0.only.trans only3)
    · have only2 := taken0.only.trans taken1.only
      have proc2 := taken1.proc.trans taken0.proc
      obtain ⟨differ, raw0⟩ := taken1.others f0 taken0.raw
      have sound2 := taken1.sound
      rw [wp_bind, wp_onVm]
      refine wp_post sound2.paged.kalloc ?_
      rintro _ v (⟨rfl, paged, -⟩ | ⟨q, rfl, paged, -⟩)
      · rw [wp_bind]
        have sound3 : Sound tramp G C (fun g => x g + one f0 g + one f1 g) { s2 with phys := v } :=
          ⟨paged, sound2.piped, sound2.counted⟩
        refine wp_post (fileclose_sound sound3 f0) ?_
        rintro _ s4 ⟨sound4, proc4, only4⟩
        rw [wp_bind]
        refine wp_post (fileclose_sound sound4 f1) ?_
        rintro _ s5 ⟨sound5, proc5, only5⟩
        refine .failed (sound5.congr fun g => by ring) (proc5.trans (proc4.trans proc2)) ?_
        refine (only2.trans ?_).trans (only4.trans only5)
        rfl
      · have sound3 : Sound tramp G (q :: C) (fun g => x g + one f0 g + one f1 g)
          { s2 with phys := v } :=
          ⟨paged, sound2.piped, sound2.counted⟩
        have born := sound3.born raw0 taken1.raw differ
        simp only [setEnds, setPipe, wp_bind, wp_modify, wp_onFs, wp_pure, setFile,
          upd_of_ne differ.symm]
        refine .made f0 f1 ?_ proc2 ?_
        · exact born
        · refine only2.trans ?_
          rfl

/-! ## Descriptors -/

def SameHolders (s s' : System) : Prop := ∀ i, (s'.fs.proc i).isSome = (s.fs.proc i).isSome

theorem SameHolders.of_eq (same : s'.fs.proc = s.fs.proc) : SameHolders s s' := fun i => by rw [same]

theorem SameHolders.trans {t : System} (first : SameHolders s t) (second : SameHolders t s') :
    SameHolders s s' := fun i => (second i).trans (first i)

section Fds
variable {p fd f : Nat} {files : ProcFiles}

/-- The state after a descriptor of `p` has been set. -/
def putFd (s : System) (p fd : Nat) (files : ProcFiles) (new : Option Nat) : System :=
  { s with fs := setProc p (some { files with ofile := upd files.ofile fd new }) s.fs }

theorem setFd_putFd (proc : s.fs.proc p = some files) (fd : Nat) (new : Option Nat) :
    ({ s with fs := setFd p fd new s.fs } : System) = putFd s p fd files new := by
  rw [setFd_eq proc, putFd]

theorem putFd_proc (s : System) (p fd : Nat) (files : ProcFiles) (new : Option Nat) :
    (putFd s p fd files new).fs.proc p = some { files with ofile := upd files.ofile fd new } :=
  upd_self _ _ _

theorem putFd_holders (proc : s.fs.proc p = some files) (fd : Nat) (new : Option Nat) :
    SameHolders s (putFd s p fd files new) := by
  intro i
  simp only [putFd, setProc]
  by_cases here : i = p
  · rw [here, upd_self, proc]
    rfl
  · rw [upd_of_ne here]

theorem Sound.setFd (sound : Sound tramp G C x s) (bound : p < NPROC) (proc : s.fs.proc p = some files)
    (inside : fd < NOFILE) (new : Option Nat) :
    Sound tramp G C (fun g => x g + oneOf (files.ofile fd) g - oneOf new g)
      (putFd s p fd files new) := by
  refine sound.withFs ?_ ?_
  · exact sound.piped.procs _
  · exact sound.counted.setFd bound proc inside new

theorem fdalloc_sound (sound : Sound tramp G C x s) (bound : p < NPROC)
    (proc : s.fs.proc p = some files)
    (f : Nat) {E : Halt → Prop} : wp (onFs (fdalloc p files f)) E (fun r s' => (r = none ∧ s' = s) ∨
      ∃ fd, r = some fd ∧ fd < NOFILE ∧ files.ofile fd = none ∧ s' = putFd s p fd files (some f) ∧
        Sound tramp G C (fun g => x g - one f g) s') s := by
  rw [wp_onFs, fdalloc]
  cases slot : freeFd files.ofile 0 NOFILE with
  | none => exact Or.inl ⟨rfl, rfl⟩
  | some fd =>
      obtain ⟨-, inside, free⟩ := freeFd_some _ _ _ slot
      rw [Nat.zero_add] at inside
      simp only [wp_bind, wp_modify, wp_pure]
      rw [setFd_putFd proc]
      refine Or.inr ⟨fd, rfl, inside, free, rfl,
        (sound.setFd bound proc inside (some f)).congr fun g => ?_⟩
      rw [free, oneOf_none, oneOf_some]
      ring

/-- The call leaves all but the memory and the files as they were. -/
structure Clean (tramp : Nat) (G : Guard) (s s' : System) : Prop where
  sound : Sound tramp G [] (fun _ => 0) s'
  holders : SameHolders s s'
  only : OnlyFiles s s'

theorem Clean.after {t : System} (clean : Clean tramp G t s') (holders : SameHolders s t)
    (only : OnlyFiles s t) : Clean tramp G s s' :=
  ⟨clean.sound, holders.trans clean.holders, only.trans clean.only⟩

theorem closeBoth_clean {rf wf : Nat} (sound : Sound tramp G [] (fun g => one rf g + one wf g) s) :
    wp (do
        fileclose sb rf
        fileclose sb wf
        return (-1 : Int)) FsOnly (fun _ s' => Clean tramp G s s') s := by
  rw [wp_bind]
  refine wp_post (fileclose_sound sound rf) ?_
  rintro _ s1 ⟨sound1, proc1, only1⟩
  rw [wp_bind]
  refine wp_post (fileclose_sound sound1 wf) ?_
  rintro _ s2 ⟨sound2, proc2, only2⟩
  exact ⟨sound2.congr fun g => by ring, .of_eq (proc2.trans proc1), only1.trans only2⟩

theorem Sound.withPhys {v : Phys} (sound : Sound tramp G C x s)
    (paged : Paged tramp G C { s with phys := v }) :
    Sound tramp G C x { s with phys := v } := ⟨paged, sound.piped, sound.counted⟩

theorem Sound.takeFd (sound : Sound tramp G C x s) (bound : p < NPROC) (proc : s.fs.proc p = some files)
    (inside : fd < NOFILE) (has : files.ofile fd = some f) :
    Sound tramp G C (fun g => x g + one f g) (putFd s p fd files none) := by
  refine (sound.setFd bound proc inside none).congr fun g => ?_
  rw [has, oneOf_none, oneOf_some]
  ring

theorem pipeBad_clean {rf wf fd0 fd1 : Nat} (sound : Sound tramp G [] (fun _ => 0) s)
    (bound : p < NPROC)
    (proc : s.fs.proc p = some files) (inside0 : fd0 < NOFILE) (inside1 : fd1 < NOFILE)
    (differ : fd1 ≠ fd0)
    (has0 : files.ofile fd0 = some rf) (has1 : files.ofile fd1 = some wf) :
    wp (pipeBad sb p rf wf (some fd0) (some fd1)) FsOnly (fun _ s' => Clean tramp G s s') s := by
  have proc1 := putFd_proc s p fd0 files none
  have still : upd files.ofile fd0 none fd1 = some wf := (upd_of_ne differ _ _).trans has1
  have sound2 := (sound.takeFd bound proc inside0 has0).takeFd bound proc1 inside1 still
  have same := (putFd_holders proc fd0 none).trans (putFd_holders proc1 fd1 none)
  rw [pipeBad, wp_bind, wp_onFs, wp_modify, setFd_putFd proc, wp_bind, wp_onFs, wp_modify,
    setFd_putFd proc1]
  have sound3 := sound2.congr (y := fun g => one rf g + one wf g) fun g => by ring
  exact wp_post (closeBoth_clean sound3) fun _ _ clean => clean.after same rfl

theorem pipeCopies_clean {rf wf fd0 fd1 root frame : Nat} (sound : Sound tramp G [] (fun _ => 0) s)
    (bound : p < NPROC) (proc : s.fs.proc p = some files) (inside0 : fd0 < NOFILE)
    (inside1 : fd1 < NOFILE)
    (differ : fd1 ≠ fd0) (has0 : files.ofile fd0 = some rf) (has1 : files.ofile fd1 = some wf)
    (spared : ¬ G.slot p) (mapped : Mapped s p root frame) (fdarray : Nat) :
    wp (do
        let t ← get
        let space := (t.task p).space
        let r ← onVm (copyout space space.pagetable fdarray (intBytes fd0))
        if r < 0 then pipeBad sb p rf wf (some fd0) (some fd1)
        else do
          let r ← onVm (copyout space space.pagetable (wrap64 (fdarray + 4)) (intBytes fd1))
          if r < 0 then pipeBad sb p rf wf (some fd0) (some fd1) else return (0 : Int)) FsOnly
      (fun _ s' => Clean tramp G s s') s := by
  -- a copy that fails takes both descriptors back
  have bad : ∀ v, Paged tramp G [] { s with phys := v } →
      wp (pipeBad sb p rf wf (some fd0) (some fd1)) FsOnly (fun _ s' => Clean tramp G s s')
        { s with phys := v } := fun v paged =>
    wp_post (pipeBad_clean (sound.withPhys paged) bound proc inside0 inside1 differ has0 has1)
      fun _ _ clean => clean.after (fun _ => rfl) rfl
  simp only [wp_bind, wp_get, wp_onVm]
  refine wp_post (sound.paged.copyout spared mapped _ _) ?_
  intro r v1 paged1
  simp only [wp_ite, wp_bind, wp_onVm]
  refine ⟨fun _ => bad v1 paged1, fun _ => ?_⟩
  refine wp_post (Paged.copyout (s := { s with phys := v1 }) paged1 spared
    ⟨mapped.frame, mapped.table⟩ _ _) ?_
  intro r v2 paged2
  simp only [wp_pure]
  exact ⟨fun _ => bad v2 paged2, fun _ => ⟨sound.withPhys paged2, fun _ => rfl, rfl⟩⟩

theorem sysPipe_clean {root frame : Nat} (sound : Sound tramp G [] (fun _ => 0) s) (bound : p < NPROC)
    (proc : s.fs.proc p = some files) (spared : ¬ G.slot p) (mapped : Mapped s p root frame)
    (fdarray : Nat) :
    wp (sysPipe sb p fdarray) FsOnly (fun _ s' => Clean tramp G s s') s := by
  rw [sysPipe, wp_bind]
  refine wp_post (pipealloc_sound sound) ?_
  rintro r s1 piping
  cases piping with
  | failed sound1 proc1 only1 => exact ⟨sound1, .of_eq proc1, only1⟩
  | made rf wf sound1 proc1 only1 =>
      rw [← proc1] at proc
      have sound1 := sound1.congr (y := fun g => one rf g + one wf g) fun g => by ring
      simp only [filesOf, wp_bind, wp_get, wp_pure, proc, Option.getD_some]
      refine wp_post (fdalloc_sound sound1 bound proc rf) ?_
      rintro _ s2 (⟨rfl, rfl⟩ | ⟨fd0, rfl, inside0, free0, rfl, sound2⟩)
      · exact wp_post (closeBoth_clean sound1) fun _ _ clean => clean.after (.of_eq proc1) only1
      · have proc2 := putFd_proc s1 p fd0 files (some rf)
        have only2 : OnlyFiles s (putFd s1 p fd0 files (some rf)) := only1.trans rfl
        have same2 := (SameHolders.of_eq proc1).trans (putFd_holders proc fd0 (some rf))
        have has0 : upd files.ofile fd0 (some rf) fd0 = some rf := upd_self _ _ _
        simp only [wp_bind, wp_get, wp_pure, proc2, Option.getD_some]
        refine wp_post (fdalloc_sound sound2 bound proc2 wf) ?_
        rintro _ s3 (⟨rfl, rfl⟩ | ⟨fd1, rfl, inside1, free1, rfl, sound3⟩)
        · rw [pipeBad, wp_bind, wp_onFs, wp_modify, setFd_putFd proc2]
          have sound3 := (sound2.takeFd bound proc2 inside0 has0).congr
            (y := fun g => one rf g + one wf g)
            fun g => by ring
          refine wp_post (closeBoth_clean sound3) ?_
          exact fun _ _ clean => clean.after (same2.trans (putFd_holders proc2 fd0 none))
            (only2.trans rfl)
        · have differ : fd1 ≠ fd0 := by
            rintro rfl
            cases free1.symm.trans has0
          have proc3 := putFd_proc (putFd s1 p fd0 files (some rf)) p fd1
            { files with ofile := upd files.ofile fd0 (some rf) } (some wf)
          have same3 := same2.trans (putFd_holders proc2 fd1 (some wf))
          have sound3 := sound3.congr (y := fun _ => 0) fun g => by ring
          have mine0 : upd (upd files.ofile fd0 (some rf)) fd1 (some wf) fd0 = some rf :=
            (upd_of_ne differ.symm _ _).trans has0
          have mine1 : upd (upd files.ofile fd0 (some rf)) fd1 (some wf) fd1 = some wf := upd_self _ _ _
          have task : s1.task = s.task := by rw [only1]
          have mapped1 : Mapped s1 p root frame := by
            refine ⟨?_, ?_⟩ <;> rw [task]
            · exact mapped.frame
            · exact mapped.table
          refine wp_post (pipeCopies_clean sound3 bound proc3 inside0 inside1 differ mine0 mine1 spared
            ⟨mapped1.frame, mapped1.table⟩ fdarray) fun _ _ clean => clean.after same3 (only2.trans rfl)

theorem sysClose_clean (sound : Sound tramp G [] (fun _ => 0) s) (bound : p < NPROC)
    (proc : s.fs.proc p = some files) (fd : Int) :
    wp (sysClose sb p files fd) FsOnly (fun _ s' => Clean tramp G s s') s := by
  rw [sysClose]
  cases found : argfd files fd with
  | none => exact ⟨sound, fun _ => rfl, rfl⟩
  | some f =>
      have place : fd.toNat < NOFILE ∧ files.ofile fd.toNat = some f := by
        unfold argfd at found
        split at found
        next => cases found
        next inside => exact ⟨by omega, found⟩
      obtain ⟨inside, has⟩ := place
      simp only [wp_bind, wp_onFs, wp_modify]
      rw [setFd_putFd proc]
      refine wp_post (fileclose_sound (sound.takeFd bound proc inside has) f) ?_
      rintro _ s' ⟨after, procs, only⟩
      refine ⟨after.congr fun g => by ring, (putFd_holders proc _ none).trans (.of_eq procs), ?_⟩
      exact OnlyFiles.trans (t := putFd s p fd.toNat files none) rfl only

/-! ## `kexit` -/

/-- The descriptors below `i` have been closed. -/
structure Closing (tramp : Nat) (G : Guard) (s t : System) (p : Nat) (files : ProcFiles) (i : Nat) :
    Prop where
  clean : Clean tramp G s t
  proc : ∃ files', t.fs.proc p = some files' ∧ files'.cwd = files.cwd ∧
    ∀ fd, files'.ofile fd = if fd < i then none else files.ofile fd

theorem exitFd_closing {t : System} {i : Nat} (bound : p < NPROC) (below : i < NOFILE)
    (closing : Closing tramp G s t p files i) :
    wp (exitFd sb p files i) FsOnly (fun _ t' => Closing tramp G s t' p files (i + 1)) t := by
  obtain ⟨clean, files', proc, cwd, fds⟩ := closing
  rw [exitFd]
  have still := fds i
  rw [if_neg (Nat.lt_irrefl i)] at still
  cases has : files.ofile i with
  | none =>
      refine ⟨clean, files', proc, cwd, fun fd => ?_⟩
      rw [fds fd]
      by_cases here : fd = i
      · rw [here, has, if_pos (Nat.lt_succ_self i)]
        split <;> rfl
      · simp only [show fd < i + 1 ↔ fd < i by omega]
  | some f =>
      rw [has] at still
      rw [wp_bind]
      refine wp_post (fileclose_sound clean.sound f) ?_
      rintro _ u ⟨after, procs, only⟩
      have procU : u.fs.proc p = some files' := by rw [procs]; exact proc
      simp only [wp_onFs, wp_modify]
      rw [setFd_putFd procU]
      refine ⟨⟨(after.takeFd bound procU below still).congr fun g => by ring, ?_, ?_⟩, _,
        putFd_proc .., cwd, ?_⟩
      · exact (clean.holders.trans (.of_eq procs)).trans (putFd_holders procU i none)
      · exact (clean.only.trans only).trans rfl
      · intro fd
        by_cases here : fd = i
        · simp only [here, upd_self, Nat.lt_succ_self, if_true]
        · simp only [upd_of_ne here, fds fd, show fd < i + 1 ↔ fd < i by omega]

/-- The slot and the files of process `p` after its exit. -/
structure Exited (tramp : Nat) (G : Guard) (s s' : System) (p : Nat) (status : Int) : Prop where
  sound : Sound tramp G [] (fun _ => 0) s'
  holders : ∀ i, (s'.fs.proc i).isSome = if i = p then false else (s.fs.proc i).isSome
  rest : s' = { s with
    phys := s'.phys, fs := s'.fs, pipe := s'.pipe, ends := s'.ends,
    task := upd (reparent p s.task) p { reparent p s.task p with xstate := status, state := .zombie } }

theorem reparent_same (p i : Nat) (task : Nat → Task) :
    (reparent p task i).trapframe = (task i).trapframe ∧
    (reparent p task i).pagetable = (task i).pagetable ∧
      (reparent p task i).sz = (task i).sz ∧ (reparent p task i).state = (task i).state := by
  unfold reparent
  split
  · exact ⟨rfl, rfl, rfl, rfl⟩
  · exact ⟨rfl, rfl, rfl, rfl⟩

theorem kexit_exited (sound : Sound tramp G [] (fun _ => 0) s) (bound : p < NPROC)
    (proc : s.fs.proc p = some files) (status : Int) :
    wp (kexit sb p files status) FsOnly (fun _ s' => Exited tramp G s s' p status) s := by
  rw [kexit, wp_ite]
  refine ⟨fun _ => ⟨_, rfl⟩, fun _ => ?_⟩
  rw [wp_bind]
  have loop := wp_forFrom (E := FsOnly) (m := exitFd sb p files)
    (fun i t => Closing tramp G s t p files i) NOFILE 0 s
    (fun i t _ below closing => exitFd_closing bound (by omega) closing)
    ⟨⟨sound, fun _ => rfl, rfl⟩, files, proc, rfl, fun fd => (if_neg (Nat.not_lt_zero fd)).symm⟩
  refine wp_post loop ?_
  rintro _ t ⟨clean, files', procT, -, fds⟩
  rw [wp_bind, wp_onFs]
  refine wp_mono ((Keeps.iput sb files.cwd).transaction t.fs) ?_ fun e _ => ⟨e, rfl⟩
  intro _ fs same
  have procs : fs.proc = t.fs.proc := congrArg Handles.proc same
  simp only [wp_bind, wp_onFs, wp_modify, wp_setTask]
  have gone : handles (setProc p none fs) =
    { handles t.fs with proc := upd (handles t.fs).proc p none } := by
    rw [← same]
    rfl
  have only := clean.only
  unfold OnlyFiles at only
  refine ⟨⟨?_, ?_, ?_⟩, ?_, ?_⟩
  · refine clean.sound.paged.same rfl ?_ rfl rfl
    intro i
    simp only
    by_cases here : i = p
    · obtain ⟨frame, table, size, -⟩ := reparent_same p p t.task
      rw [here, upd_self]
      exact ⟨frame, table, size⟩
    · rw [upd_of_ne here]
      obtain ⟨frame, table, size, -⟩ := reparent_same p i t.task
      exact ⟨frame, table, size⟩
  · simp only [gone]
    exact clean.sound.piped.procs _
  · simp only [gone]
    intro f
    have before := clean.sound.counted f
    have total := holders_upd (handles t.fs).fds bound none f
    have empty : row ((handles t.fs).fds p) f = 0 := by
      refine Nat.count_of_forall_not fun fd inside has => ?_
      have mine : (handles t.fs).fds p = some files'.ofile :=
        congrArg (Option.map ProcFiles.ofile) procT
      rw [mine, Option.bind_some, fds fd, Nat.zero_add, if_pos inside] at has
      cases has
    rw [empty, row_none] at total
    rw [fds_upd]
    simp only [Option.map_none]
    omega
  · intro i
    simp only [setProc]
    by_cases here : i = p
    · rw [here, upd_self, if_pos rfl]
      rfl
    · rw [upd_of_ne here, if_neg here, procs]
      exact clean.holders i
  · have task : t.task = s.task := by rw [only]
    rw [← task]
    rw [only]

end Fds

end Close

end Xv6Fcfs.Sys
