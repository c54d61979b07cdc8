import Xv6Fcfs.Lib.Bytes
import Xv6Fcfs.Lib.Runs
import Xv6Fcfs.Lib.Tiles

/-!
# The user heap (`user/umalloc.c`)

Addresses are numbers of bytes and a `Header` is known by the address it stands at.  The loops
take a number of turns, and `none` says that it did not do.  What `sbrk` answers comes with
the call of `malloc`, one answer being enough.

`obtained`, `live` and the sizes asked for are not part of the program: they list what `sbrk`
has given and the blocks that the program has been given and has not freed.
-/

set_option autoImplicit false

namespace Xv6Fcfs.Umalloc

open Xv6Fcfs.Lib

/-- `sizeof(Header)` -/
def UNIT : Nat := 16

/-- `union header`; `size` counts units and is 32 bits wide. -/
structure Header where
  ptr : Nat
  size : Nat

structure Heap where
  hdr : Nat → Header
  freep : Nat
  obtained : List Block

/-- `p + n` for a `Header *p` -/
def plus (p n : Nat) : Nat := p + UNIT * n

def setPtr (h : Nat → Header) (p q : Nat) : Nat → Header := upd h p { h p with ptr := q }

def setSize (h : Nat → Header) (p n : Nat) : Nat → Header := upd h p { h p with size := n % 2 ^ 32 }

/-! ## `free` -/

/-- The loop of `free`, from `p` on. -/
def freeLoop (h : Nat → Header) (bp : Nat) : Nat → Nat → Option Nat
  | 0, _ => none
  | k + 1, p =>
      if p < bp ∧ bp < (h p).ptr then some p
      else if (h p).ptr ≤ p ∧ (p < bp ∨ bp < (h p).ptr) then some p
      else freeLoop h bp k (h p).ptr

/-- The first `if` of `free`: the block in front of the free block `p->s.ptr`. -/
def joinNext (h : Nat → Header) (bp p : Nat) : Nat → Header :=
  let q := (h p).ptr
  if plus bp (h bp).size = q then
    setPtr (setSize h bp ((h bp).size + (h q).size)) bp (h q).ptr
  else setPtr h bp q

/-- Its second `if`: the block behind the free block `p`. -/
def joinLast (h : Nat → Header) (bp p : Nat) : Nat → Header :=
  if plus p (h p).size = bp then setPtr (setSize h p ((h p).size + (h bp).size)) p (h bp).ptr
  else setPtr h p bp

def free (turns : Nat) (s : Heap) (ap : Nat) : Option Heap := do
  let bp := ap - UNIT
  let p ← freeLoop s.hdr bp turns s.freep
  return { s with hdr := joinLast (joinNext s.hdr bp p) bp p, freep := p }

/-! ## `malloc` -/

/-- The units that `morecore` asks for. -/
def coreUnits (nu : Nat) : Nat := if nu < 4096 then 4096 else nu

/-- `morecore`, with the answer of `sbrk`: the new memory or `SBRK_ERROR`. -/
def morecore (turns : Nat) (s : Heap) (nu : Nat) (sbrk : Option Nat) : Option (Heap × Nat) :=
  match sbrk with
  | none => some (s, 0)
  | some p => do
      let s ← free turns
        { s with
          hdr := setSize s.hdr p (coreUnits nu)
          obtained := ⟨p, coreUnits nu⟩ :: s.obtained } (plus p 1)
      return (s, s.freep)

/-- The body of the first `if` in the loop of `malloc`. -/
def carve (s : Heap) (nunits prevp p : Nat) : Heap × Nat :=
  if (s.hdr p).size = nunits then
    ({ s with hdr := setPtr s.hdr prevp (s.hdr p).ptr, freep := prevp }, plus p 1)
  else
    let h := setSize s.hdr p ((s.hdr p).size - nunits)
    let p := plus p (h p).size
    ({ s with hdr := setSize h p nunits, freep := prevp }, plus p 1)

/-- The loop of `malloc`; 0 is returned when there is no memory. -/
def mallocLoop (turns nunits : Nat) : Nat → List (Option Nat) → Heap → Nat → Nat → Option (Heap × Nat)
  | 0, _, _, _, _ => none
  | k + 1, answers, s, prevp, p =>
      if nunits ≤ (s.hdr p).size then some (carve s nunits prevp p)
      else if p = s.freep then
        match answers with
        | [] => none
        | sbrk :: answers => do
            let (s, p) ← morecore turns s nunits sbrk
            if p = 0 then return (s, 0) else mallocLoop turns nunits k answers s p (s.hdr p).ptr
      else mallocLoop turns nunits k answers s p (s.hdr p).ptr

def units (nbytes : Nat) : Nat := ((nbytes + UNIT - 1) / UNIT + 1) % 2 ^ 32

/-- `malloc`, with `base` at the address `base`. -/
def malloc (base turns : Nat) (s : Heap) (nbytes : Nat) (sbrk : Option Nat) : Option (Heap × Nat) :=
  let s := if s.freep = 0 then
      { s with hdr := setSize (setPtr s.hdr base base) base 0, freep := base }
    else s
  mallocLoop turns (units nbytes) turns [sbrk] s s.freep (s.hdr s.freep).ptr

/-! ## Programs -/

/-- A block given to the program, and the number of bytes that it asked for. -/
structure Live where
  ap : Nat
  nbytes : Nat

structure State where
  heap : Heap
  live : List Live

/-- Where `base` is in the program's data; the text of a program begins at address 0. -/
structure Program where
  base : Nat
  pos : 0 < base

/-- The physical memory, in bytes (`PHYSTOP - KERNBASE`). -/
def RAM : Nat := 128 * 1024 * 1024

/-- What `sbrk` gives is new, above `base`, and backed by physical memory. -/
def Fresh (base : Nat) (s : Heap) (nu : Nat) : Option Nat → Prop
  | none => True
  | some a => base + UNIT ≤ a ∧ (∀ r ∈ s.obtained, (⟨a, nu⟩ : Block).Clear UNIT r) ∧
      UNIT * (total s.obtained + nu) ≤ RAM

instance (b c : Block) : Decidable (b.Clear UNIT c) := inferInstanceAs (Decidable (_ ∨ _))

instance (base : Nat) (s : Heap) (nu : Nat) (answer : Option Nat) :
    Decidable (Fresh base s nu answer) :=
  match answer with
  | none => inferInstanceAs (Decidable True)
  | some _ => inferInstanceAs (Decidable (_ ∧ _ ∧ _))

inductive Event where
  | malloc (turns nbytes : Nat) (sbrk : Option Nat)
  | free (turns ap : Nat)
  /-- The program stores into the block it was given at `ap`, and so changes what would be
  read as a header at `a`. -/
  | store (ap a : Nat) (h : Header)

def step (prog : Program) (s : State) : Event → Option State
  | .malloc turns nbytes sbrk =>
      if nbytes < 2 ^ 32 ∧ Fresh prog.base s.heap (coreUnits (units nbytes)) sbrk then do
        let (heap, ap) ← malloc prog.base turns s.heap nbytes sbrk
        return ⟨heap, if ap = 0 then s.live else ⟨ap, nbytes⟩ :: s.live⟩
      else none
  | .free turns ap =>
      if ap ∈ s.live.map Live.ap then do
        let heap ← free turns s.heap ap
        return ⟨heap, s.live.filter fun l => l.ap ≠ ap⟩
      else none
  | .store ap a h =>
      if ap ∈ s.live.map Live.ap ∧ ap - UNIT < a ∧
        a < plus (ap - UNIT) (s.heap.hdr (ap - UNIT)).size then
        some { s with heap := { s.heap with hdr := upd s.heap.hdr a h } }
      else none

/-- A program that has not called `malloc`; its data hold anything but `freep`. -/
def start (hdr : Nat → Header) : State := ⟨⟨hdr, 0, []⟩, []⟩

end Xv6Fcfs.Umalloc
