import Xv6Fcfs.Lib.Bytes

/-!
# The parser of the shell (`user/sh.c`)

A command is a string of bytes in memory with a NUL behind it; pointers into it are positions.
Loops and recursive calls take a number of turns, and the error `turns` says that it did not
do; the other errors are the panics of the source.  `malloc` succeeds.
-/

set_option autoImplicit false

namespace Xv6Fcfs.Shell

open Xv6Fcfs.Lib

def MAXARGS : Nat := 10

structure Text where
  str : List UInt8
  nonzero : ∀ b ∈ str, b ≠ 0
  beyond : Nat → UInt8

def Text.len (t : Text) : Nat := t.str.length

def Text.byte (t : Text) (p : Nat) : UInt8 :=
  match t.str[p]? with
  | some b => b
  | none => if p = t.len then 0 else t.beyond p

def code (c : Char) : UInt8 := c.toUInt8

/-- `" \t\r\n\v"` -/
def whitespace : List UInt8 := [code ' ', code '\t', code '\r', code '\n', 11]

/-- `"<|>&;()"` -/
def symbols : List UInt8 :=
  [code '<', code '|', code '>', code '&', code ';', code '(', code ')']

/-- `while (s < es && f(*s)) s++;` -/
def advance (t : Text) (f : UInt8 → Bool) : Nat → Nat → Nat
  | 0, s => s
  | k + 1, s => if s < t.len ∧ f (t.byte s) then advance t f k (s + 1) else s

def skip (t : Text) (s : Nat) : Nat := advance t (fun b => b ∈ whitespace) t.len s

/-- The default case of the switch in `gettoken`. -/
def wordEnd (t : Text) (s : Nat) : Nat :=
  advance t (fun b => b ∉ whitespace ∧ b ∉ symbols) t.len s

/-- `gettoken` returns `ret` and sets `*q`, `*eq` and `*ps`. -/
structure Token where
  ret : UInt8
  q : Nat
  eq : Nat
  ps : Nat

def gettoken (t : Text) (ps : Nat) : Token :=
  let s := skip t ps
  let c := t.byte s
  let (ret, eq) :=
    if c = 0 then (c, s)
    else if c = code '|' ∨ c = code '(' ∨ c = code ')' ∨ c = code ';' ∨ c = code '&' ∨ c = code '<' then
      (c, s + 1)
    else if c = code '>' then
      if t.byte (s + 1) = code '>' then (code '+', s + 2) else (c, s + 1)
    else (code 'a', wordEnd t s)
  ⟨ret, s, eq, skip t eq⟩

/-- `peek` returns whether the next byte is one of `toks`, and moves `*ps`. -/
def peek (t : Text) (ps : Nat) (toks : List UInt8) : Bool × Nat :=
  let s := skip t ps
  (t.byte s ≠ 0 ∧ t.byte s ∈ toks, s)

/-- A counted string of a command: `argv[i]` and `eargv[i]`, or `file` and `efile`. -/
structure Word where
  q : Nat
  eq : Nat
deriving DecidableEq

def O_RDONLY : Nat := 0
def O_WRONLY : Nat := 1
def O_CREATE : Nat := 0x200
def O_TRUNC : Nat := 0x400

inductive Cmd where
  | exec (argv : List Word)
  | redir (cmd : Cmd) (file : Word) (mode fd : Nat)
  | pipe (left right : Cmd)
  | list (left right : Cmd)
  | back (cmd : Cmd)
deriving DecidableEq

inductive Stop where
  | turns
  /-- "missing file for redirection" -/
  | missingFile
  /-- "parseblock" -/
  | parseblock
  /-- "syntax - missing )" -/
  | missingParen
  /-- "syntax" -/
  | syntaxError
  /-- "too many args" -/
  | tooManyArgs
deriving DecidableEq

/-- The switch of `parseredirs`. -/
def redircmd (cmd : Cmd) (file : Word) (tok : UInt8) : Cmd :=
  if tok = code '<' then .redir cmd file O_RDONLY 0
  else if tok = code '>' then .redir cmd file (O_WRONLY ||| O_CREATE ||| O_TRUNC) 1
  else if tok = code '+' then .redir cmd file (O_WRONLY ||| O_CREATE) 1
  else cmd

def parseredirs (t : Text) : Nat → Cmd → Nat → Except Stop (Cmd × Nat)
  | 0, _, _ => .error .turns
  | k + 1, cmd, ps =>
      let (more, ps) := peek t ps [code '<', code '>']
      if more then
        let op := gettoken t ps
        let file := gettoken t op.ps
        if file.ret ≠ code 'a' then .error .missingFile
        else parseredirs t k (redircmd cmd ⟨file.q, file.eq⟩ op.ret) file.ps
      else .ok (cmd, ps)

/-- The loop of `parseline` over `&`. -/
def backLoop (t : Text) : Nat → Cmd → Nat → Except Stop (Cmd × Nat)
  | 0, _, _ => .error .turns
  | k + 1, cmd, ps =>
      let (more, ps) := peek t ps [code '&']
      if more then backLoop t k (.back cmd) (gettoken t ps).ps else .ok (cmd, ps)

/-- `cmd->argv[argc] = q; cmd->eargv[argc] = eq;`, where `cmd` is the innermost command. -/
def addArg (w : Word) : Cmd → Cmd
  | .exec argv => .exec (argv ++ [w])
  | .redir cmd file mode fd => .redir (addArg w cmd) file mode fd
  | cmd => cmd

/-- The loop of `parseexec`. -/
def argLoop (t : Text) : Nat → Cmd → Nat → Nat → Except Stop (Cmd × Nat)
  | 0, _, _, _ => .error .turns
  | k + 1, ret, argc, ps =>
      let (ends, ps) := peek t ps [code '|', code ')', code '&', code ';']
      if ends then .ok (ret, ps)
      else
        let tok := gettoken t ps
        if tok.ret = 0 then .ok (ret, tok.ps)
        else if tok.ret ≠ code 'a' then .error .syntaxError
        else if argc + 1 ≥ MAXARGS then .error .tooManyArgs
        else do
          let (ret, ps) ← parseredirs t k (addArg ⟨tok.q, tok.eq⟩ ret) tok.ps
          argLoop t k ret (argc + 1) ps

mutual

def parseline (t : Text) : Nat → Nat → Except Stop (Cmd × Nat)
  | 0, _ => .error .turns
  | k + 1, ps => do
      let (cmd, ps) ← parsepipe t k ps
      let (cmd, ps) ← backLoop t k cmd ps
      let (more, ps) := peek t ps [code ';']
      if more then
        let (right, ps) ← parseline t k (gettoken t ps).ps
        return (.list cmd right, ps)
      else return (cmd, ps)

def parsepipe (t : Text) : Nat → Nat → Except Stop (Cmd × Nat)
  | 0, _ => .error .turns
  | k + 1, ps => do
      let (cmd, ps) ← parseexec t k ps
      let (more, ps) := peek t ps [code '|']
      if more then
        let (right, ps) ← parsepipe t k (gettoken t ps).ps
        return (.pipe cmd right, ps)
      else return (cmd, ps)

def parseblock (t : Text) : Nat → Nat → Except Stop (Cmd × Nat)
  | 0, _ => .error .turns
  | k + 1, ps =>
      let (opens, ps) := peek t ps [code '(']
      if opens = false then .error .parseblock
      else do
        let (cmd, ps) ← parseline t k (gettoken t ps).ps
        let (closes, ps) := peek t ps [code ')']
        if closes = false then .error .missingParen
        else parseredirs t k cmd (gettoken t ps).ps

def parseexec (t : Text) : Nat → Nat → Except Stop (Cmd × Nat)
  | 0, _ => .error .turns
  | k + 1, ps =>
      let (opens, ps) := peek t ps [code '(']
      if opens then parseblock t k ps
      else do
        let (ret, ps) ← parseredirs t k (.exec []) ps
        argLoop t k ret 0 ps

end

/-- `nulterminate`; the bytes of the string are those of memory. -/
def nulterminate : Cmd → (Nat → UInt8) → Nat → UInt8
  | .exec argv, mem => argv.foldl (fun mem w => upd mem w.eq 0) mem
  | .redir cmd file _ _, mem => upd (nulterminate cmd mem) file.eq 0
  | .pipe left right, mem => nulterminate right (nulterminate left mem)
  | .list left right, mem => nulterminate right (nulterminate left mem)
  | .back cmd, mem => nulterminate cmd mem

/-- `parsecmd` returns the command and leaves the memory changed. -/
def parsecmd (t : Text) (turns : Nat) : Except Stop (Cmd × (Nat → UInt8)) := do
  let (cmd, ps) ← parseline t turns 0
  let (_, s) := peek t ps []
  if s ≠ t.len then .error .syntaxError
  else return (cmd, nulterminate cmd t.byte)

end Xv6Fcfs.Shell
