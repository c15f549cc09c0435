import Mathlib.Data.List.Basic
import Mathlib.Logic.Function.Basic
import DuckoUnix.Lib.Except

/-!
# The parser of the shell

The parsing half of `sh.c`. A pointer into the command line is the text from it up to the end `es`,
where the NUL is. A pointer parameter `ps` is passed in and out. The loops and the recursion take
fuel; there is memory for every node.

`parseexec` fills in the arguments of a node that is already inside of the tree of redirections it
returns: `Cmd.addArg` follows the tree down to it.
-/

namespace DuckoUnix.Sh

open Lib

/-- A `char *` into the line: what it points to, without the NUL. -/
abbrev Ptr := List Char

def NUL : Char := '\x00'

def whitespace : List Char := [' ', '\t', '\r', '\n', '\x0b']

def symbols : List Char := ['<', '|', '>', '&', ';', '(', ')']

def MAXARGS : ℕ := 10

def O_RDONLY : ℕ := 0x000
def O_WRONLY : ℕ := 0x001
def O_CREATE : ℕ := 0x200

/-- `struct cmd` and its kinds; words are pointers to their start and their end. -/
inductive Cmd
  | exec (argv : List (Ptr × Ptr))
  | redir (cmd : Cmd) (file efile : Ptr) (mode fd : ℕ)
  | pipe (left right : Cmd)
  | list (left right : Cmd)
  | back (cmd : Cmd)

/-- Why a parser stops: the fuel of the model, or `panic`. -/
inductive Halt
  | fuel
  | panic (msg : String)
  deriving DecidableEq

/-- `while(s < es && strchr(whitespace, *s)) s++` -/
def skip (s : Ptr) : Ptr := s.dropWhile fun c => whitespace.contains c

/-- A character of a word. -/
def isWord (c : Char) : Bool := !whitespace.contains c && !symbols.contains c

/-- The `switch` of `gettoken` at `s`: the token and the end of it. -/
def scan : Ptr → Char × Ptr
  | [] => (NUL, [])
  | c :: r =>
    if c = '|' ∨ c = '(' ∨ c = ')' ∨ c = ';' ∨ c = '&' ∨ c = '<' then (c, r)
    else if c = '>' then
      match r with
      | '>' :: r => ('+', r)
      | r => ('>', r)
    else ('a', (c :: r).dropWhile isWord)

/-- `gettoken`: the token, its start `*q`, its end `*eq` and the new `*ps`. -/
def gettoken (s : Ptr) : Char × Ptr × Ptr × Ptr :=
  let q := skip s
  let (ret, eq) := scan q
  (ret, q, eq, skip eq)

/-- `peek`: whether the next character is one of `toks`, and the new `*ps`. -/
def peek (s : Ptr) (toks : List Char) : Bool × Ptr :=
  match skip s with
  | [] => (false, [])
  | c :: r => (toks.contains c, c :: r)

def parseredirs : ℕ → Cmd → Ptr → Except Halt (Cmd × Ptr)
  | 0, _, _ => .error .fuel
  | k + 1, cmd, s =>
    let (more, s) := peek s ['<', '>']
    if more then
      let (tok, _, _, s) := gettoken s
      let (a, q, eq, s) := gettoken s
      if a ≠ 'a' then .error (.panic "missing file for redirection")
      else if tok = '<' then parseredirs k (.redir cmd q eq O_RDONLY 0) s
      else if tok = '>' then parseredirs k (.redir cmd q eq (O_WRONLY ||| O_CREATE) 1) s
      else if tok = '+' then parseredirs k (.redir cmd q eq (O_WRONLY ||| O_CREATE) 1) s
      else parseredirs k cmd s
    else .ok (cmd, s)

/-- `cmd->argv[argc] = q; cmd->eargv[argc] = eq` at the `execcmd` under the redirections. -/
def Cmd.addArg (q eq : Ptr) : Cmd → Cmd
  | .exec argv => .exec (argv ++ [(q, eq)])
  | .redir cmd file efile mode fd => .redir (cmd.addArg q eq) file efile mode fd
  | cmd => cmd

def parseargs : ℕ → Cmd → ℕ → Ptr → Except Halt (Cmd × Ptr)
  | 0, _, _, _ => .error .fuel
  | k + 1, ret, argc, s =>
    let (stop, s) := peek s ['|', ')', '&', ';']
    if stop then .ok (ret, s)
    else
      let (tok, q, eq, s) := gettoken s
      if tok = NUL then .ok (ret, s)
      else if tok ≠ 'a' then .error (.panic "syntax")
      else if argc + 1 ≥ MAXARGS then .error (.panic "too many args")
      else do
        let (ret, s) ← parseredirs k (ret.addArg q eq) s
        parseargs k ret (argc + 1) s

def parsebacks : ℕ → Cmd → Ptr → Except Halt (Cmd × Ptr)
  | 0, _, _ => .error .fuel
  | k + 1, cmd, s =>
    let (more, s) := peek s ['&']
    if more then
      let (_, _, _, s) := gettoken s
      parsebacks k (.back cmd) s
    else .ok (cmd, s)

mutual

def parseline : ℕ → Ptr → Except Halt (Cmd × Ptr)
  | 0, _ => .error .fuel
  | k + 1, s => do
    let (cmd, s) ← parsepipe k s
    let (cmd, s) ← parsebacks k cmd s
    let (more, s) := peek s [';']
    if more then
      let (_, _, _, s) := gettoken s
      let (rest, s) ← parseline k s
      .ok (.list cmd rest, s)
    else .ok (cmd, s)

def parsepipe : ℕ → Ptr → Except Halt (Cmd × Ptr)
  | 0, _ => .error .fuel
  | k + 1, s => do
    let (cmd, s) ← parseexec k s
    let (more, s) := peek s ['|']
    if more then
      let (_, _, _, s) := gettoken s
      let (rest, s) ← parsepipe k s
      .ok (.pipe cmd rest, s)
    else .ok (cmd, s)

def parseblock : ℕ → Ptr → Except Halt (Cmd × Ptr)
  | 0, _ => .error .fuel
  | k + 1, s => do
    let (opens, s) := peek s ['(']
    if opens then
      let (_, _, _, s) := gettoken s
      let (cmd, s) ← parseline k s
      let (closes, s) := peek s [')']
      if closes then
        let (_, _, _, s) := gettoken s
        parseredirs k cmd s
      else .error (.panic "syntax - missing )")
    else .error (.panic "parseblock")

def parseexec : ℕ → Ptr → Except Halt (Cmd × Ptr)
  | 0, _ => .error .fuel
  | k + 1, s => do
    let (block, s) := peek s ['(']
    if block then parseblock k s
    else
      let (ret, s) ← parseredirs k (.exec []) s
      parseargs k ret 0 s

end

/-! ## The strings of the tree -/

/-- `*p = 0` in a buffer of `n` characters. -/
def put (n : ℕ) (p : Ptr) (buf : ℕ → Char) : ℕ → Char := Function.update buf (n - p.length) NUL

/-- `nulterminate`: what it stores into the line. -/
def nulterminate (n : ℕ) : Cmd → (ℕ → Char) → ℕ → Char
  | .exec argv, buf => argv.foldl (fun buf arg => put n arg.2 buf) buf
  | .redir cmd _ efile _ _, buf => put n efile (nulterminate n cmd buf)
  | .pipe left right, buf => nulterminate n right (nulterminate n left buf)
  | .list left right, buf => nulterminate n right (nulterminate n left buf)
  | .back cmd, buf => nulterminate n cmd buf

/-- The line in memory, with its NUL. -/
def buffer (s : Ptr) : ℕ → Char := fun i => s.getD i NUL

/-- `parsecmd`: the tree and the line after it. -/
def parsecmd (fuel : ℕ) (s : Ptr) : Except Halt (Cmd × (ℕ → Char)) := do
  let (cmd, s') ← parseline fuel s
  let (_, s') := peek s' []
  if s' ≠ [] then .error (.panic "syntax")
  else .ok (cmd, nulterminate s.length cmd (buffer s))

end DuckoUnix.Sh
