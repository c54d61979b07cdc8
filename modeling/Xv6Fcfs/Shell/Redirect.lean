import Xv6Fcfs.Shell.Parse
import Xv6Fcfs.Fs.Refine

/-!
# The redirections of a command (`runcmd`)

A path leads to a place: a file that exists, or the entry of a directory that `create` fills.
The file table, the inode table and the disk have room.  The first descriptors are open when
a command starts: `main` opens the console until they are.
-/

set_option autoImplicit false

namespace Xv6Fcfs.Shell

open Xv6Fcfs.Lib

/-! ## `open` and `close` -/

inductive Node where
  | file (data : List UInt8)
  | dir
  | device (major : Int)
deriving DecidableEq

/-- An entry of `ofile`. -/
inductive Desc where
  | inode (ip off : Nat) (readable writable : Bool)
  | device (ip : Nat) (major : Int) (readable writable : Bool)
  | other (id : Nat)
deriving DecidableEq

structure World where
  node : Nat → Option Node
  fds : Nat → Option Desc

namespace World

/-- `create(path, T_FILE, 0, 0)` where the path leads to `ip`. -/
def create (w : World) (ip : Nat) : Option World :=
  match w.node ip with
  | none => some { w with node := upd w.node ip (some (.file [])) }
  | some .dir => none
  | some _ => some w

/-- `sys_open` up to `filealloc`: the place is found or made. -/
def findOrMake (w : World) (ip omode : Nat) : Option World :=
  if omode &&& O_CREATE ≠ 0 then w.create ip
  else match w.node ip with
    | none => none
    | some .dir => if omode ≠ O_RDONLY then none else some w
    | some _ => some w

def O_RDWR : Nat := 2

def fdalloc (w : World) : Option Nat := (List.range NOFILE).find? fun fd => (w.fds fd).isNone

/-- The rest of `sys_open`. -/
def openAt (w : World) (ip omode : Nat) : Option World := do
  let readable : Bool := omode &&& O_WRONLY = 0
  let writable : Bool := omode &&& O_WRONLY ≠ 0 ∨ omode &&& O_RDWR ≠ 0
  match w.node ip with
  | none => none
  | some (.device major) =>
      if major < 0 ∨ NDEV ≤ major then none
      else
        let fd ← w.fdalloc
        return { w with fds := upd w.fds fd (some (.device ip major readable writable)) }
  | some (.file data) =>
      let fd ← w.fdalloc
      return {
        node := upd w.node ip (some (.file (if omode &&& O_TRUNC ≠ 0 then [] else data)))
        fds := upd w.fds fd (some (.inode ip 0 readable writable)) }
  | some .dir =>
      let fd ← w.fdalloc
      return { w with fds := upd w.fds fd (some (.inode ip 0 readable writable)) }

/-- `sys_open` of a path that leads to `place`, or to none. -/
def sysOpen (w : World) (place : Option Nat) (omode : Nat) : Option World := do
  let ip ← place
  (← w.findOrMake ip omode).openAt ip omode

def close (w : World) (fd : Nat) : World := { w with fds := upd w.fds fd none }

/-- `write(1, out, …)`, all of it. -/
def output (w : World) (out : List UInt8) : World :=
  match w.fds 1 with
  | some (.inode ip off _ true) =>
      match w.node ip with
      | some (.file data) => { w with node := upd w.node ip (some (.file (Fs.place data off out))) }
      | _ => w
  | _ => w

end World

/-- The first `k` calls of `runcmd`, as long as they are for `REDIR` nodes; `none` is `exit(1)`. -/
def runcmd (place : Word → Option Nat) : Nat → Cmd → World → Option (Cmd × World)
  | 0, cmd, w => some (cmd, w)
  | k + 1, .redir cmd file mode fd, w =>
      match (w.close fd).sysOpen (place file) mode with
      | none => none
      | some w => runcmd place k cmd w
  | _ + 1, cmd, w => some (cmd, w)

/-! ## The redirections as they are written -/

/-- A command with its redirections, in the order of the tokens. -/
inductive Simple : List Tok → Cmd → List Redir → Prop
  | exec (rs : List Redir) (args : List Arg) (few : args.length ≤ MAXARGS - 1) :
      Simple (redirToks rs ++ argToks args) (.exec (args.map Arg.word)) (rs ++ args.flatMap Arg.redirs)
  | block {ts : List Tok} {c : Cmd} (inner : Derives .line ts c) (rs : List Redir) :
      Simple (.lpar :: (ts ++ .rpar :: redirToks rs)) c rs

def Redir.fd (r : Redir) : Nat := if r.op = .less then 0 else 1

def Redir.mode (r : Redir) : Nat :=
  match r.op with
  | .less => O_RDONLY
  | .greater => O_WRONLY ||| O_CREATE ||| O_TRUNC
  | .append => O_WRONLY ||| O_CREATE

def World.seekEnd (w : World) (fd : Nat) : World :=
  match w.fds fd with
  | some (.inode ip _ readable writable) =>
      match w.node ip with
      | some (.file data) =>
          { w with fds := upd w.fds fd (some (.inode ip data.length readable writable)) }
      | _ => w
  | _ => w

section Effects
variable (place : Word → Option Nat)

/-- What `runcmd` does for one redirection. -/
def redirect (w : World) (r : Redir) : Option World := (w.close r.fd).sysOpen (place r.file) r.mode

/-- What one redirection means: with `>>` the output follows what the file contains. -/
def meant (w : World) (r : Redir) : Option World :=
  (redirect place w r).map fun w => if r.op = .append then w.seekEnd r.fd else w

def Desc.target : Desc → Desc
  | .inode ip _ readable writable => .inode ip 0 readable writable
  | d => d

/-- `runcmd` comes to the command, with the descriptors 0 and 1 and the files that the
redirections from left to right give, when `out` is then written; or it exits and they fail. -/
def AsMeant (c inner : Cmd) (rs : List Redir) (w : World) (out : List UInt8) : Prop :=
  match runcmd place rs.length c w, rs.foldlM (meant place) w with
  | none, none => True
  | some (d, v), some u => d = inner ∧ v.fds 0 = u.fds 0 ∧
      (v.fds 1).map Desc.target = (u.fds 1).map Desc.target ∧
      (v.output out).node = (u.output out).node
  | _, _ => False

def Opens (w : World) (r : Redir) : Prop :=
  match place r.file with
  | none => False
  | some ip => match w.node ip with
    | some .dir => r.op = .less
    | some (.device major) => 0 ≤ major ∧ major < NDEV
    | _ => True

/-- One of the redirections is an output to `ip`. -/
def Makes (rs : List Redir) (ip : Nat) : Prop := ∃ r ∈ rs, r.op ≠ .less ∧ place r.file = some ip

/-- One of the redirections empties `ip`. -/
def Empties (rs : List Redir) (ip : Nat) : Prop := ∃ r ∈ rs, r.op = .greater ∧ place r.file = some ip

/-- In this order, every input that is not there is made by an output before it. -/
def Fed (w : World) (rs : List Redir) : Prop :=
  ∀ front r, front ++ [r] <+: rs → r.op = .less → ∀ ip, place r.file = some ip → w.node ip = none →
    Makes place front ip

def onFd (fd : Nat) (rs : List Redir) : List Redir := rs.filter fun r => r.fd = fd

/-- The first and the last redirection of each descriptor lead to one place, and the output
does not go over contents that a last `>>` was to keep. -/
def SameEnds (rs : List Redir) (w : World) (out : List UInt8) : Prop :=
  (∀ fd, (onFd fd rs).head?.map (fun r => place r.file) = (onFd fd rs).getLast?.map fun r =>
    place r.file) ∧
  (out = [] ∨ ∀ r ip data, (onFd 1 rs).getLast? = some r → place r.file = some ip →
    w.node ip = some (.file data) → data = [] ∨ Empties place rs ip)

/-- A redirection cannot be opened; or an input is not there in either order; or all are
opened in both orders and their ends agree. -/
def Harmless (rs : List Redir) (w : World) (out : List UInt8) : Prop :=
  (∃ r ∈ rs, ¬ Opens place w r) ∨ (¬ Fed place w rs ∧ ¬ Fed place w rs.reverse) ∨
  (Fed place w rs ∧ Fed place w rs.reverse ∧ SameEnds place rs w out)

end Effects

/-! ## One redirection -/

def opened (op : Op) : Option Node → Option Node
  | none => if op = .less then none else some (.file [])
  | some (.file data) => some (.file (if op = .greater then [] else data))
  | some .dir => if op = .less then some .dir else none
  | some (.device major) => if major < 0 ∨ NDEV ≤ major then none else some (.device major)

def desc (seek : Bool) (op : Op) (ip : Nat) : Option Node → Desc
  | some (.device major) => .device ip major (op = .less) (op ≠ .less)
  | some (.file data) => .inode ip (if seek ∧ op = .append then data.length else 0)
    (op = .less) (op ≠ .less)
  | _ => .inode ip 0 (op = .less) (op ≠ .less)

def World.Standing (w : World) : Prop := (w.fds 0).isSome ∧ (w.fds 1).isSome

theorem World.Standing.fdalloc {w : World} {node : Nat → Option Node}
    (standing : w.Standing) (r : Redir) :
    World.fdalloc ⟨node, upd w.fds r.fd none⟩ = some r.fd := by
  obtain ⟨zero, one⟩ := standing
  have range : List.range NOFILE = 0 :: 1 :: (List.range 14).map (· + 2) := rfl
  simp only [World.fdalloc, range, Redir.fd]
  split
  · rfl
  · rw [List.find?_cons_of_neg, List.find?_cons_of_pos]
    · rfl
    · simpa using Option.isSome_iff_ne_none.mp zero

section Effects
variable (place : Word → Option Nat)

/-- What a redirection does to the files and its descriptor; `seek` is for `>>` as it is meant. -/
def effect (seek : Bool) (w : World) (r : Redir) : Option World :=
  (place r.file).bind fun ip => (opened r.op (w.node ip)).map fun n =>
    ⟨upd w.node ip (some n), upd w.fds r.fd (some (desc seek r.op ip (some n)))⟩

theorem redirect_effect {w : World} (standing : w.Standing) (r : Redir) :
    redirect place w r = effect place false w r := by
  have alloc : ∀ node, World.fdalloc ⟨node, upd w.fds r.fd none⟩ = some r.fd := fun node =>
    standing.fdalloc r
  cases leads : place r.file with
  | none => simp [redirect, effect, World.sysOpen, leads]
  | some ip =>
      have same : ∀ n, w.node ip = n → upd w.node ip n = w.node := by
        intro n is
        rw [← is, upd_eq_self]
      obtain ⟨op, file⟩ := r
      simp only [redirect, effect, World.sysOpen, leads, Option.bind_some, Option.bind_eq_bind]
      cases is : w.node ip with
      | none =>
          cases op <;>
            simp [World.findOrMake, World.create, World.close, World.openAt, is, alloc, opened,
              desc, Redir.mode,
              O_RDONLY, O_WRONLY, O_CREATE, O_TRUNC, World.O_RDWR]
      | some n =>
          have keep := same _ is
          cases n with
          | file data =>
              cases op <;>
                simp [World.findOrMake, World.create, World.close, World.openAt, is, alloc, opened,
                  desc, Redir.mode,
                  O_RDONLY, O_WRONLY, O_CREATE, O_TRUNC, World.O_RDWR]
          | dir =>
              cases op <;>
                simp [World.findOrMake, World.create, World.close, World.openAt, is, alloc,
                  keep, opened, desc,
                  Redir.mode, O_RDONLY, O_WRONLY, O_CREATE, O_TRUNC, World.O_RDWR]
          | device major =>
              by_cases bad : major < 0 ∨ (NDEV : Int) ≤ major <;> cases op <;>
                simp [World.findOrMake, World.create, World.close, World.openAt, is, alloc, keep,
                  bad, opened, desc,
                  Redir.mode, O_RDONLY, O_WRONLY, O_CREATE, O_TRUNC, World.O_RDWR]

theorem effect_standing {seek : Bool} {w v : World} {r : Redir} (standing : w.Standing)
    (run : effect place seek w r = some v) : v.Standing := by
  obtain ⟨ip, -, run⟩ := Option.bind_eq_some_iff.mp run
  obtain ⟨n, -, rfl⟩ := Option.map_eq_some_iff.mp run
  obtain ⟨zero, one⟩ := standing
  constructor
  · rcases upd_cases w.fds r.fd (some (desc seek r.op ip (some n))) 0 with ⟨-, new⟩ |
      ⟨-, old⟩ <;> simp [*]
  · rcases upd_cases w.fds r.fd (some (desc seek r.op ip (some n))) 1 with ⟨-, new⟩ |
      ⟨-, old⟩ <;> simp [*]

theorem meant_effect {w : World} (standing : w.Standing) (r : Redir) :
    meant place w r = effect place true w r := by
  rw [meant, redirect_effect place standing, effect, effect]
  cases place r.file with
  | none => rfl
  | some ip =>
      rw [Option.bind_some, Option.bind_some, Option.map_map]
      congr 1
      funext n
      obtain ⟨op, file⟩ := r
      cases n <;> cases op <;> simp [Function.comp, World.seekEnd, desc]

theorem foldlM_effect {step : World → Redir → Option World} {seek : Bool}
    (eff : ∀ w : World, w.Standing → ∀ r, step w r = effect place seek w r) :
    ∀ (rs : List Redir) (w : World), w.Standing →
      rs.foldlM step w = rs.foldlM (effect place seek) w := by
  intro rs
  induction rs with
  | nil => intro w _; rfl
  | cons r rs ih =>
      intro w standing
      rw [List.foldlM_cons, List.foldlM_cons, eff w standing r]
      cases run : effect place seek w r with
      | none => rfl
      | some v => exact ih v (effect_standing place standing run)

/-! ## `runcmd` -/

theorem runcmd_of (k : Nat) (cmd : Cmd) (r : Redir) (w : World) :
    runcmd place (k + 1) (Redir.of cmd r) w = (redirect place w r).bind (runcmd place k cmd) := by
  have node : Redir.of cmd r = .redir cmd r.file r.mode r.fd := by
    obtain ⟨op, file⟩ := r
    cases op <;> rfl
  rw [node, runcmd, redirect]
  cases (w.close r.fd).sysOpen (place r.file) r.mode <;> rfl

theorem runcmd_wrap (c : Cmd) (rs : List Redir) : ∀ w : World,
    runcmd place rs.length (wrap c rs) w = (rs.reverse.foldlM (redirect place) w).map
      fun v => (c, v) := by
  induction rs using List.reverseRecOn with
  | nil => intro w; rfl
  | append_singleton rs r ih =>
      intro w
      have outer : wrap c (rs ++ [r]) = Redir.of (wrap c rs) r := by
        rw [wrap, List.foldl_append]
        rfl
      rw [outer, List.length_append, List.length_singleton, runcmd_of, List.reverse_append]
      cases run : redirect place w r with
      | none => simp [run]
      | some v => simp [run, ih v]

/-! ## All redirections -/

instance (rs : List Redir) (ip : Nat) : Decidable (Makes place rs ip) :=
  inferInstanceAs (Decidable (∃ r ∈ rs, r.op ≠ .less ∧ place r.file = some ip))

instance (rs : List Redir) (ip : Nat) : Decidable (Empties place rs ip) :=
  inferInstanceAs (Decidable (∃ r ∈ rs, r.op = .greater ∧ place r.file = some ip))

/-- The files when all redirections are opened; their order does not matter. -/
def settled (rs : List Redir) (w : World) (ip : Nat) : Option Node :=
  match w.node ip with
  | none => if Makes place rs ip then some (.file []) else none
  | some (.file data) => some (.file (if Empties place rs ip then [] else data))
  | some n => some n

def ending (seek : Bool) (rs : List Redir) (w : World) (fd : Nat) : Option Desc :=
  match (onFd fd rs).getLast? with
  | none => w.fds fd
  | some r => (place r.file).map fun ip => desc seek r.op ip (settled place rs w ip)

variable {place} {w : World} {rs : List Redir} {r : Redir} {ip : Nat}

theorem makes_snoc : Makes place (rs ++ [r]) ip ↔ Makes place rs ip ∨ r.op ≠ .less ∧
    place r.file = some ip := by
  simp only [Makes, List.mem_append, List.mem_singleton, or_and_right, exists_or, exists_eq_left]

theorem empties_snoc :
    Empties place (rs ++ [r]) ip ↔ Empties place rs ip ∨ r.op = .greater ∧ place r.file = some ip := by
  simp only [Empties, List.mem_append, List.mem_singleton, or_and_right, exists_or, exists_eq_left]

theorem makes_reverse : Makes place rs.reverse ip ↔ Makes place rs ip := by
  simp only [Makes, List.mem_reverse]

theorem empties_reverse : Empties place rs.reverse ip ↔ Empties place rs ip := by
  simp only [Empties, List.mem_reverse]

theorem settled_reverse : settled place rs.reverse w = settled place rs w := by
  funext ip
  simp only [settled, makes_reverse, empties_reverse]

theorem opened_iff (leads : place r.file = some ip) :
    (opened r.op (settled place rs w ip)).isSome ↔
      Opens place w r ∧ (r.op = .less → w.node ip = none → Makes place rs ip) := by
  cases is : w.node ip with
  | none =>
      by_cases less : r.op = .less <;> by_cases made : Makes place rs ip <;>
        simp [Opens, leads, settled, is, opened, made, less]
  | some n =>
      cases n with
      | file data => simp [Opens, leads, settled, is, opened]
      | dir => by_cases less : r.op = .less <;> simp [Opens, leads, settled, is, opened, less]
      | device major =>
          simp only [Opens, leads, settled, is, opened]
          split
          next bad => simp; omega
          next good => simp; omega

theorem settled_opened {n : Node} (leads : place r.file = some ip)
    (opens : opened r.op (settled place rs w ip) = some n) :
    settled place (rs ++ [r]) w ip = some n := by
  rw [← opens]
  cases is : w.node ip with
  | none =>
      by_cases less : r.op = .less <;> by_cases made : Makes place rs ip <;>
        simp [settled, is, makes_snoc, opened, made, less, leads] at opens ⊢
  | some n =>
      cases n with
      | file data =>
          by_cases greater : r.op = .greater <;> simp [settled, is, empties_snoc, opened,
            greater, leads]
      | dir =>
          by_cases less : r.op = .less <;> simp [settled, is, opened, less] at opens ⊢
      | device major =>
          simp only [settled, is, opened] at opens ⊢
          split at opens
          · cases opens
          next good => rw [if_neg good]

theorem settled_other {ip' : Nat} (leads : place r.file = some ip) (differ : ip' ≠ ip) :
    settled place (rs ++ [r]) w ip' = settled place rs w ip' := by
  have other : ¬ place r.file = some ip' := by
    rw [leads]
    exact fun same => differ (Option.some.inj same).symm
  simp only [settled, makes_snoc, empties_snoc, other, and_false, or_false]

theorem settled_less (less : r.op = .less) : settled place (rs ++ [r]) w = settled place rs w := by
  funext ip
  simp [settled, makes_snoc, empties_snoc, less]

theorem desc_less (seek : Bool) (ip' : Nat) :
    desc seek .less ip' (settled place (rs ++ [r]) w ip) = desc seek .less ip'
      (settled place rs w ip) := by
  cases is : w.node ip with
  | none =>
      simp only [settled, is]
      split <;> split <;> simp [desc]
  | some n => cases n <;> simp [settled, is, desc]

theorem fed_snoc : Fed place w (rs ++ [r]) ↔
    Fed place w rs ∧ (r.op = .less → ∀ ip, place r.file = some ip → w.node ip = none →
      Makes place rs ip) := by
  constructor
  · intro fed
    refine ⟨?_, fed rs r (List.prefix_refl _)⟩
    intro front q before
    exact fed front q (before.trans (List.prefix_append _ _))
  · rintro ⟨fed, last⟩ front q before
    rcases List.prefix_concat_iff.mp before with whole | inside
    · obtain ⟨rfl, rfl⟩ := List.append_singleton_inj.mp whole
      exact last
    · exact fed front q inside

theorem fed_of_there (there : ∀ r ∈ rs, r.op = .less → ∀ ip, place r.file = some ip →
    w.node ip ≠ none) :
    Fed place w rs := by
  intro front r before less ip leads absent
  have inside : r ∈ rs := before.subset (by simp)
  exact absurd absent (there r inside less ip leads)

theorem onFd_snoc (fd : Nat) :
    onFd fd (rs ++ [r]) = if r.fd = fd then onFd fd rs ++ [r] else onFd fd rs := by
  rw [onFd, List.filter_append]
  split <;> simp [onFd, *]

theorem ending_self (seek : Bool) (leads : place r.file = some ip) :
    ending place seek (rs ++ [r]) w r.fd = some
      (desc seek r.op ip (settled place (rs ++ [r]) w ip)) := by
  rw [ending, onFd_snoc, if_pos rfl, List.getLast?_concat]
  simp only [leads, Option.map_some]

theorem ending_other (seek : Bool) {fd : Nat} (differ : r.fd ≠ fd) :
    ending place seek (rs ++ [r]) w fd = ending place seek rs w fd := by
  rw [ending, ending, onFd_snoc, if_neg differ]
  cases last : (onFd fd rs).getLast? with
  | none => rfl
  | some q =>
      have inside := (List.mem_filter.mp (List.mem_of_getLast? last)).2
      have same : q.fd = fd := by simpa using inside
      by_cases less : r.op = .less
      · rw [settled_less less]
      · have other : q.op = .less := by
          by_contra no
          rw [← same, Redir.fd, Redir.fd, if_neg less, if_neg no] at differ
          exact differ rfl
        simp only [other, desc_less]

theorem effect_iff (seek : Bool) (v : World) :
    effect place seek ⟨settled place rs w, ending place seek rs w⟩ r = some v ↔
      Opens place w r ∧
      (r.op = .less → ∀ ip, place r.file = some ip → w.node ip = none → Makes place rs ip) ∧
      v = ⟨settled place (rs ++ [r]) w, ending place seek (rs ++ [r]) w⟩ := by
  cases leads : place r.file with
  | none => simp [effect, leads, Opens]
  | some ip =>
      have after : ∀ n, opened r.op (settled place rs w ip) = some n →
          (⟨upd (settled place rs w) ip (some n),
            upd (ending place seek rs w) r.fd (some (desc seek r.op ip (some n)))⟩ : World) =
          ⟨settled place (rs ++ [r]) w, ending place seek (rs ++ [r]) w⟩ := by
        intro n opens
        have here := settled_opened leads opens
        congr 1
        · funext x
          rcases upd_cases (settled place rs w) ip (some n) x with ⟨rfl, new⟩ | ⟨differ, old⟩
          · rw [new, here]
          · rw [old, settled_other leads differ]
        · funext fd
          rcases upd_cases (ending place seek rs w) r.fd (some (desc seek r.op ip (some n))) fd with
            ⟨rfl, new⟩ | ⟨differ, old⟩
          · rw [new, ending_self seek leads, here]
          · rw [old, ending_other seek (Ne.symm differ)]
      have found := @opened_iff place w rs r ip leads
      rw [effect, leads, Option.bind_some]
      cases opens : opened r.op (settled place rs w ip) with
      | none =>
          rw [opens] at found
          constructor
          · intro run
            cases run
          · rintro ⟨can, fed, -⟩
            have some := found.mpr ⟨can, fun less => fed less ip rfl⟩
            cases some
      | some n =>
          rw [opens] at found
          obtain ⟨can, fed⟩ := found.mp rfl
          rw [Option.map_some, after n opens, Option.some.injEq, eq_comm]
          constructor
          · intro same
            refine ⟨can, ?_, same⟩
            intro less ip' leads'
            cases leads'
            exact fed less
          · exact fun all => all.2.2

/-- All redirections can be opened in this order just if each can be and every input is there
or made before; and what they leave then. -/
theorem effects (seek : Bool) (w : World) (rs : List Redir) : ∀ v,
    rs.foldlM (effect place seek) w = some v ↔ (∀ r ∈ rs, Opens place w r) ∧ Fed place w rs ∧
      v = ⟨settled place rs w, ending place seek rs w⟩ := by
  induction rs using List.reverseRecOn with
  | nil =>
      intro v
      have start : (⟨settled place [] w, ending place seek [] w⟩ : World) = w := by
        have node : settled place [] w = w.node := by
          funext ip
          simp only [settled, Makes, Empties, List.not_mem_nil, false_and, exists_false, if_false]
          cases is : w.node ip with
          | none => rfl
          | some n => cases n <;> rfl
        rw [node]
        rfl
      have fed : Fed place w [] := by
        intro front r before
        simp at before
      rw [start]
      simp [fed, eq_comm]
  | append_singleton rs r ih =>
      intro v
      have one : ∀ u, [r].foldlM (effect place seek) u = effect place seek u r := by
        intro u
        rw [List.foldlM_cons]
        exact bind_pure _
      rw [List.foldlM_append, Option.bind_eq_bind, Option.bind_eq_some_iff, fed_snoc]
      simp only [one]
      constructor
      · rintro ⟨u, before, run⟩
        obtain ⟨opens, fed, rfl⟩ := (ih u).mp before
        obtain ⟨last, lastFed, rfl⟩ := (effect_iff seek v).mp run
        refine ⟨?_, ⟨fed, lastFed⟩, rfl⟩
        intro q inside
        rcases List.mem_append.mp inside with before | here
        · exact opens q before
        · rw [List.mem_singleton.mp here]
          exact last
      · rintro ⟨opens, ⟨fed, lastFed⟩, rfl⟩
        refine ⟨_, (ih _).mpr ⟨fun q before => opens q (List.mem_append_left _ before), fed, rfl⟩, ?_⟩
        exact (effect_iff seek _).mpr ⟨opens r (by simp), lastFed, rfl⟩

/-! ## Both orders -/

theorem code_run {c : Cmd} (standing : w.Standing) :
    runcmd place rs.length (wrap c rs) w =
      (rs.reverse.foldlM (effect place false) w).map fun v => (c, v) := by
  rw [runcmd_wrap, foldlM_effect place (fun u up r => redirect_effect place up r) _ w standing]

theorem meant_run (standing : w.Standing) :
    rs.foldlM (meant place) w = rs.foldlM (effect place true) w :=
  foldlM_effect place (fun _ up r => meant_effect place up r) rs w standing

def kept (place : Word → Option Nat) (rs : List Redir) (w : World) (ip : Nat) : List UInt8 :=
  match settled place rs w ip with
  | some (.file data) => data
  | _ => []

/-- Output at the start is the same as output at the end just if there is none of either. -/
theorem place_start (data out : List UInt8) : Fs.place data 0 out = data ++ out ↔ out = [] ∨
    data = [] := by
  constructor
  · intro same
    have sizes := congrArg List.length same
    simp only [Fs.place, List.length_append, List.length_take, List.length_drop] at sizes
    rcases Nat.eq_zero_or_pos out.length with none | some
    · exact Or.inl (List.length_eq_zero_iff.mp none)
    · exact Or.inr (List.length_eq_zero_iff.mp (by omega))
  · rintro (rfl | rfl) <;> simp [Fs.place]

theorem kept_nil : kept place rs w ip = [] ↔ ∀ data, w.node ip = some (.file data) → data = [] ∨
    Empties place rs ip := by
  cases is : w.node ip with
  | none => by_cases made : Makes place rs ip <;> simp [kept, settled, is, made]
  | some n =>
      cases n with
      | file data => by_cases empty : Empties place rs ip <;> simp [kept, settled, is, empty]
      | _ => simp [kept, settled, is]

theorem Opens.leads (opens : Opens place w r) : ∃ ip, place r.file = some ip := by
  cases leads : place r.file with
  | none => simp [Opens, leads] at opens
  | some ip => exact ⟨ip, rfl⟩

theorem desc_input (ip ip' : Nat) (n : Nat → Option Node) :
    desc false .less ip (n ip) = desc true .less ip' (n ip') ↔ ip = ip' := by
  constructor
  · intro same
    rcases one : n ip with _ | _ | _ | _ <;> rcases two : n ip' with _ | _ | _ | _ <;>
      simp_all [desc]
  · rintro rfl
    rcases n ip with _ | _ | _ | _ <;> simp [desc]

theorem desc_output {op op' : Op} (out : op ≠ .less) (out' : op' ≠ .less) (ip ip' : Nat)
    (n : Nat → Option Node) :
    (desc false op ip (n ip)).target = (desc true op' ip' (n ip')).target ↔ ip = ip' := by
  constructor
  · intro same
    rcases one : n ip with _ | _ | _ | _ <;> rcases two : n ip' with _ | _ | _ | _ <;>
      simp_all [desc, Desc.target]
  · rintro rfl
    rcases n ip with _ | _ | _ | _ <;> simp [desc, Desc.target, out, out']

theorem onFd_op {q : Redir} {fd : Nat} (inside : q ∈ onFd fd rs) : (fd = 0 ∧ q.op = .less) ∨
    (fd = 1 ∧ q.op ≠ .less) := by
  have same : q.fd = fd := by simpa using (List.mem_filter.mp inside).2
  by_cases less : q.op = .less
  · exact Or.inl ⟨by rw [← same, Redir.fd, if_pos less], less⟩
  · exact Or.inr ⟨by rw [← same, Redir.fd, if_neg less], less⟩

/-- The first and the last redirection of a descriptor, and what they leave in it. -/
theorem ends_cases (opens : ∀ r ∈ rs, Opens place w r) (fd : Nat) :
    (onFd fd rs = [] ∧ ending place false rs.reverse w fd = w.fds fd ∧
    ending place true rs w fd = w.fds fd) ∨
    ∃ q r ip ip', q ∈ onFd fd rs ∧ r ∈ onFd fd rs ∧ (onFd fd rs).head? = some q ∧
      (onFd fd rs).getLast? = some r ∧
      place q.file = some ip ∧ place r.file = some ip' ∧
      ending place false rs.reverse w fd = some (desc false q.op ip (settled place rs w ip)) ∧
      ending place true rs w fd = some (desc true r.op ip' (settled place rs w ip')) := by
  have back : (onFd fd rs.reverse).getLast? = (onFd fd rs).head? := by
    rw [onFd, List.filter_reverse, List.getLast?_reverse, onFd]
  cases first : (onFd fd rs).head? with
  | none =>
      have none := List.head?_eq_none_iff.mp first
      refine Or.inl ⟨none, ?_, ?_⟩
      · rw [ending, back, first]
      · rw [ending, none]
        rfl
  | some q =>
      have inside := List.mem_of_head? first
      obtain ⟨r, last⟩ : ∃ r, (onFd fd rs).getLast? = some r :=
        ⟨_, List.getLast?_eq_some_getLast (List.ne_nil_of_mem inside)⟩
      have inside' := List.mem_of_getLast? last
      obtain ⟨ip, leads⟩ := (opens q (List.mem_filter.mp inside).1).leads
      obtain ⟨ip', leads'⟩ := (opens r (List.mem_filter.mp inside').1).leads
      refine Or.inr ⟨q, r, ip, ip', inside, inside', rfl, last, leads, leads', ?_, ?_⟩
      · simp only [ending, back, first, leads, Option.map_some, settled_reverse]
      · simp only [ending, last, leads', Option.map_some]

theorem output_desc {v : World} (seek : Bool) {op : Op} (outward : op ≠ .less)
    (one : v.fds 1 = some (desc seek op ip (v.node ip))) (out : List UInt8) :
    (v.output out).node = match v.node ip with
      | some (.file data) =>
          upd v.node ip (some (.file
            (Fs.place data (if seek ∧ op = .append then data.length else 0) out)))
      | _ => v.node := by
  rcases is : v.node ip with _ | _ | _ | _ <;> rw [is] at one <;> simp [World.output, one,
    desc, outward, is]

/-- The output comes to the same files just if it is not over what a last `>>` was to keep. -/
theorem output_same {u v : World} {op op' : Op} (outward : op ≠ .less) (outward' : op' ≠ .less)
    (node : u.node = settled place rs w) (node' : v.node = settled place rs w)
    (one : u.fds 1 = some (desc false op ip (settled place rs w ip)))
    (one' : v.fds 1 = some (desc true op' ip (settled place rs w ip)))
    (empties : op' = .greater → Empties place rs ip) (out : List UInt8) :
    (u.output out).node = (v.output out).node ↔ out = [] ∨ kept place rs w ip = [] := by
  rw [← node] at one
  rw [← node'] at one'
  rw [output_desc false outward one, output_desc true outward' one', node, node', kept]
  rcases is : settled place rs w ip with _ | data | _ | _
  · simp
  · have inj : ∀ a b : List UInt8, upd (settled place rs w) ip (some (.file a)) =
        upd (settled place rs w) ip (some (.file b)) ↔ a = b := by
      intro a b
      constructor
      · intro same
        have here := congrFun same ip
        rw [upd_self, upd_self] at here
        simpa using here
      · rintro rfl
        rfl
    simp only [inj]
    rw [if_neg (by simp)]
    cases op' with
    | less => exact absurd rfl outward'
    | append => rw [if_pos (by simp), Fs.place_end, place_start]
    | greater =>
        rw [if_neg (by simp)]
        have none : kept place rs w ip = [] := kept_nil.mpr fun _ _ => Or.inr (empties rfl)
        rw [kept, is] at none
        simp [show data = [] from none]
  · simp
  · simp

theorem ends_agree (opens : ∀ r ∈ rs, Opens place w r) (out : List UInt8) {u v : World}
    (code : u = ⟨settled place rs w, ending place false rs.reverse w⟩)
    (spec : v = ⟨settled place rs w, ending place true rs w⟩) :
    (u.fds 0 = v.fds 0 ∧ (u.fds 1).map Desc.target = (v.fds 1).map Desc.target ∧
      (u.output out).node = (v.output out).node) ↔ SameEnds place rs w out := by
  obtain ⟨uNode, uFds⟩ : u.node = settled place rs w ∧
    ∀ fd, u.fds fd = ending place false rs.reverse w fd := by
    rw [code]
    exact ⟨rfl, fun _ => rfl⟩
  obtain ⟨vNode, vFds⟩ : v.node = settled place rs w ∧ ∀ fd, v.fds fd = ending place true rs w fd := by
    rw [spec]
    exact ⟨rfl, fun _ => rfl⟩
  have input : u.fds 0 = v.fds 0 ↔
      (onFd 0 rs).head?.map (fun r => place r.file) = (onFd 0 rs).getLast?.map fun r =>
        place r.file := by
    rw [uFds, vFds]
    rcases ends_cases opens 0 with ⟨none, one, two⟩ |
      ⟨q, r, ip, ip', firstIn, lastIn, first, last, leads, leads', one, two⟩
    · simp [one, two, none]
    · have less : q.op = .less := by simpa using onFd_op firstIn
      have less' : r.op = .less := by simpa using onFd_op lastIn
      rw [one, two, first, last, less, less', Option.some.injEq, desc_input]
      simp [leads, leads']
  have other : ∀ fd, fd ≠ 0 → fd ≠ 1 → onFd fd rs = [] := by
    intro fd zero one
    rw [List.eq_nil_iff_forall_not_mem]
    intro q inside
    rcases onFd_op inside with ⟨no, -⟩ | ⟨no, -⟩
    · exact zero no
    · exact one no
  have ends : SameEnds place rs w out ↔
      (onFd 0 rs).head?.map (fun r => place r.file) = (onFd 0 rs).getLast?.map (fun r => place r.file) ∧
      (onFd 1 rs).head?.map (fun r => place r.file) = (onFd 1 rs).getLast?.map (fun r => place r.file) ∧
      (out = [] ∨ ∀ r ip, (onFd 1 rs).getLast? = some r → place r.file = some ip →
        kept place rs w ip = []) := by
    simp only [SameEnds, kept_nil]
    constructor
    · rintro ⟨all, unread⟩
      exact ⟨all 0, all 1, unread.imp id fun keeps r ip last leads data => keeps r ip data last leads⟩
    · rintro ⟨zero, one, unread⟩
      refine ⟨?_, unread.imp id fun keeps r ip data last leads => keeps r ip last leads data⟩
      intro fd
      by_cases isZero : fd = 0
      · rw [isZero, zero]
      · by_cases isOne : fd = 1
        · rw [isOne, one]
        · rw [other fd isZero isOne]
          rfl
  rw [ends, input]
  refine and_congr_right fun _ => ?_
  rcases ends_cases opens 1 with ⟨none, one, two⟩ |
    ⟨q, r, ip, ip', firstIn, lastIn, first, last, leads, leads', one, two⟩
  · have same : u.fds 1 = v.fds 1 := by rw [uFds, vFds, one, two]
    have files : (u.output out).node = (v.output out).node := by
      simp only [World.output, same, uNode, vNode]
      split
      · split
        · rfl
        · rw [uNode, vNode]
      · rw [uNode, vNode]
    simp [same, files, none]
  · have outward : q.op ≠ .less := by simpa using onFd_op firstIn
    have outward' : r.op ≠ .less := by simpa using onFd_op lastIn
    rw [uFds, vFds, one, two, Option.map_some, Option.map_some, Option.some.injEq,
      desc_output outward outward',
      first, last]
    simp only [Option.map_some, leads, leads', Option.some.injEq]
    refine and_congr_right fun same => ?_
    subst same
    have empties : r.op = .greater → Empties place rs ip := fun greater =>
      ⟨r, (List.mem_filter.mp lastIn).1, greater, leads'⟩
    rw [output_same outward outward' uNode vNode (by rw [uFds, one]) (by rw [vFds, two]) empties]
    refine or_congr_right ⟨?_, fun all => all r ip rfl leads'⟩
    rintro keeps q' ip' rfl there
    cases leads'.symm.trans there
    exact keeps

theorem asMeant_iff {c : Cmd} (standing : w.Standing) (out : List UInt8) :
    AsMeant place (wrap c rs) c rs w out ↔ Harmless place rs w out := by
  rw [AsMeant, code_run standing, meant_run standing]
  by_cases opens : ∀ r ∈ rs, Opens place w r
  · have opens' : ∀ r ∈ rs.reverse, Opens place w r := by simpa using opens
    have refused : ∀ {seek : Bool} {qs : List Redir}, ¬ Fed place w qs →
      qs.foldlM (effect place seek) w = none := by
      intro seek qs hungry
      rw [Option.eq_none_iff_forall_ne_some]
      exact fun v run => hungry ((effects seek w qs v).mp run).2.1
    have each : ¬ ∃ r ∈ rs, ¬ Opens place w r := by
      rintro ⟨r, inside, no⟩
      exact no (opens r inside)
    by_cases fed : Fed place w rs <;> by_cases fed' : Fed place w rs.reverse
    · have code := (effects false w rs.reverse _).mpr ⟨opens', fed', rfl⟩
      have spec := (effects true w rs _).mpr ⟨opens, fed, rfl⟩
      rw [code, spec]
      have agree := ends_agree opens out
        (u := ⟨settled place rs.reverse w, ending place false rs.reverse w⟩)
        (by rw [settled_reverse]) rfl
      simp only [Option.map_some, true_and, Harmless, each, fed, fed', not_true_eq_false,
        and_self, false_or]
      exact agree
    · have spec := (effects true w rs _).mpr ⟨opens, fed, rfl⟩
      rw [refused fed', spec]
      simpa [Harmless, fed, fed'] using opens
    · have code := (effects false w rs.reverse _).mpr ⟨opens', fed', rfl⟩
      rw [refused fed, code]
      simpa [Harmless, fed, fed'] using opens
    · rw [refused fed, refused fed']
      simp [Harmless, fed, fed']
  · have refused : ∀ {seek : Bool} {qs : List Redir}, (∀ r, r ∈ qs ↔ r ∈ rs) →
        qs.foldlM (effect place seek) w = none := by
      intro seek qs same
      rw [Option.eq_none_iff_forall_ne_some]
      exact fun v run => opens fun r inside => ((effects seek w qs v).mp run).1 r ((same r).mpr inside)
    rw [refused (fun r => List.mem_reverse), refused fun r => Iff.rfl]
    simp only [Option.map_none, Harmless, true_iff]
    exact Or.inl (by simpa using opens)

/-- What is meant: with `>` the output replaces what the file contains, with `>>` it follows. -/
theorem meant_output {v : World} {data : List UInt8} (standing : w.Standing) (outward : r.op ≠ .less)
    (leads : place r.file = some ip) (before : w.node ip = some (.file data))
    (run : meant place w r = some v)
    (out : List UInt8) :
    (v.output out).node ip = some (.file (if r.op = .greater then out else data ++ out)) := by
  rw [meant_effect place standing, effect, leads, Option.bind_some, before, opened, Option.map_some,
    Option.some.injEq] at run
  subst run
  have fd : r.fd = 1 := by rw [Redir.fd, if_neg outward]
  rw [@output_desc ip _ true r.op outward (by simp only [fd, upd_self])]
  simp only [upd_self, upd_upd]
  by_cases greater : r.op = .greater
  · simp [greater, Fs.place]
  · have append : r.op = .append := by
      cases op : r.op with
      | append => rfl
      | less => exact absurd op outward
      | greater => exact absurd op greater
    simp [append, Fs.place_end]

end Effects

/-! ## The commands of the parser -/

/-- The text of a word, which `nulterminate` makes a string. -/
def Text.word (t : Text) (w : Word) : List UInt8 := (t.str.drop w.q).take (w.eq - w.q)

theorem Simple.derives {ts : List Tok} {c : Cmd} {rs : List Redir} (simple : Simple ts c rs) :
    Derives .exec ts (wrap c rs) := by
  cases simple with
  | exec rs args few => exact .exec rs args few
  | block inner rs => exact .block inner rs

/-- A simple command or a block is parsed to a tree for which `runcmd` does what its
redirections mean, for the files and descriptors there are and the output that comes, just if
their order and the contents do no harm. -/
theorem redirections_mean {t : Text} {p : Nat} {ts us : List Tok} {inner : Cmd} {rs : List Redir}
    (simple : Simple ts inner rs) (at' : At t p (ts ++ us)) (ends : Ends us) :
    ∃ turns, ∀ k, turns ≤ k → ∃ c p', parseexec t k p = .ok (c, p') ∧ At t p' us ∧
      ∀ (lookup : List UInt8 → Option Nat) (w : World) (out : List UInt8),
        (w.fds 0).isSome → (w.fds 1).isSome →
        (AsMeant (lookup ∘ t.word) c inner rs w out ↔ Harmless (lookup ∘ t.word) rs w out) := by
  obtain ⟨turns, parses⟩ := parser_complete (t := t) simple.derives
  refine ⟨turns, ?_⟩
  intro k enough
  obtain ⟨p', run, here⟩ := parses k enough p us at' ends
  exact ⟨wrap inner rs, p', run, here, fun lookup w out zero one => asMeant_iff ⟨zero, one⟩ out⟩

/-- A file `a` at 0, a file `b` at 1. -/
def twoFiles (text : List UInt8) : Option Nat :=
  if text = [code 'a'] then some 0 else if text = [code 'b'] then some 1 else none

def fullFiles : World where
  node ip := if ip < 2 then some (.file [1]) else none
  fds fd := if fd < 3 then some (.other fd) else none

/-- `x>a<b` -/
def replacing : Text := ⟨[120, 62, 97, 60, 98], by simp, fun _ => 0⟩

def outThenIn : List Redir := [⟨.greater, ⟨2, 3⟩⟩, ⟨.less, ⟨4, 5⟩⟩]

theorem replacing_meant : ∃ k c p, parseexec replacing k 0 = .ok (c, p) ∧
    AsMeant (twoFiles ∘ replacing.word) c (.exec [⟨0, 1⟩]) outThenIn fullFiles [2] := by
  have simple := Simple.exec [] [⟨⟨0, 1⟩, outThenIn⟩] (by decide)
  have at' : At replacing 0 ((redirToks [] ++ argToks [⟨⟨0, 1⟩, outThenIn⟩]) ++ []) :=
    ⟨by decide, by decide +kernel⟩
  obtain ⟨k, parses⟩ := redirections_mean simple at' (Or.inl rfl)
  obtain ⟨c, p, run, -, means⟩ := parses k (Nat.le_refl k)
  have there : ∀ r ∈ outThenIn, r.op = .less →
      ∀ ip, (twoFiles ∘ replacing.word) r.file = some ip → fullFiles.node ip ≠ none := by
    intro r inside less ip leads
    rcases List.mem_pair.mp inside with rfl | rfl
    · cases less
    · cases leads
      decide
  refine ⟨k, c, p, run, (means twoFiles fullFiles [2] rfl rfl).mpr (Or.inr (Or.inr ⟨?_, ?_, ?_, ?_⟩))⟩
  · exact fed_of_there there
  · exact fed_of_there fun r inside => there r (List.mem_reverse.mp inside)
  · intro fd
    by_cases zero : fd = 0
    · subst zero
      rfl
    · by_cases one : fd = 1
      · subst one
        rfl
      · have none : onFd fd outThenIn = [] := by
          simp [onFd, outThenIn, Redir.fd, Ne.symm zero, Ne.symm one]
        show (onFd fd outThenIn).head?.map _ = (onFd fd outThenIn).getLast?.map _
        rw [none]
        rfl
  · right
    intro r ip data last leads _
    cases last
    exact Or.inr ⟨⟨.greater, ⟨2, 3⟩⟩, List.mem_cons_self, rfl, leads⟩

def appending : Text := ⟨[120, 62, 62, 97], by simp, fun _ => 0⟩

def twice : Text := ⟨[120, 62, 97, 62, 98], by simp, fun _ => 0⟩

/-- `x>>a` goes over the contents, and `x>a>b` goes to `a`. -/
theorem redirections_reversed :
    (∃ c p, parseexec appending 5 0 = .ok (c, p) ∧
      ¬ AsMeant (twoFiles ∘ appending.word) c (.exec [⟨0, 1⟩]) [⟨.append, ⟨3, 4⟩⟩] fullFiles [2]) ∧
    ∃ c p, parseexec twice 5 0 = .ok (c, p) ∧
      ¬ AsMeant (twoFiles ∘ twice.word) c (.exec [⟨0, 1⟩]) [⟨.greater, ⟨2, 3⟩⟩, ⟨.greater, ⟨4, 5⟩⟩]
        fullFiles [2] := by
  have one : parseexec appending 5 0 =
      .ok (wrap (.exec [⟨0, 1⟩]) [⟨.append, ⟨3, 4⟩⟩], 4) := by decide +kernel
  have two : parseexec twice 5 0 = .ok
    (wrap (.exec [⟨0, 1⟩]) [⟨.greater, ⟨2, 3⟩⟩, ⟨.greater, ⟨4, 5⟩⟩], 5) := by
    decide +kernel
  refine ⟨⟨_, _, one, ?_⟩, ⟨_, _, two, ?_⟩⟩
  · rintro ⟨-, -, -, same⟩
    exact absurd (congrFun same 0) (by decide)
  · rintro ⟨-, -, -, same⟩
    exact absurd (congrFun same 0) (by decide)

end Xv6Fcfs.Shell
