import Mathlib.Logic.Function.Iterate
import DuckoUnix.Sh.Parser

/-!
# The grammar of the shell

What the parser is for: the tokens of a line, the derivations of the grammar

    line  := pipe '&'* [';' line]
    pipe  := exec ['|' pipe]
    exec  := '(' line ')' redir* | redir* (word redir*)*
    redir := ('<' | '>' | '>>') word

with the tokens each derivation yields, and the command tree it stands for.
-/

namespace DuckoUnix.Sh

inductive Token
  | lt
  | gt
  | app
  | bar
  | amp
  | semi
  | lpar
  | rpar
  | word (w : List Char)
  deriving DecidableEq

def symbol : Char → Option Token
  | '<' => some .lt
  | '|' => some .bar
  | '&' => some .amp
  | ';' => some .semi
  | '(' => some .lpar
  | ')' => some .rpar
  | _ => none

/-- The first token of a line and what follows it. -/
def next (s : Ptr) : Option (Token × Ptr) :=
  match skip s with
  | [] => none
  | c :: r =>
    if c = '>' then
      match r with
      | '>' :: r => some (.app, r)
      | r => some (.gt, r)
    else
      match symbol c with
      | some t => some (t, r)
      | none => some (.word (c :: r.takeWhile isWord), r.dropWhile isWord)

theorem skip_length_le (s : Ptr) : (skip s).length ≤ s.length :=
  (List.dropWhile_suffix _).length_le

theorem next_length_lt {s r : Ptr} {t : Token} (h : next s = some (t, r)) :
    r.length < s.length := by
  have hskip := skip_length_le s
  have hdrop := fun l : Ptr => (List.dropWhile_suffix isWord (l := l)).length_le
  unfold next at h
  split at h
  · cases h
  · rename_i c l hs
    rw [hs, List.length_cons] at hskip
    split at h
    · split at h <;> cases h <;> simp at hskip ⊢ <;> omega
    · split at h <;> cases h
      · omega
      · have := hdrop l
        omega

/-- The token sequence of a line. -/
def tokens (s : Ptr) : List Token :=
  match _h : next s with
  | none => []
  | some (t, r) => t :: tokens r
termination_by s.length
decreasing_by exact next_length_lt _h

/-! ## Derivations -/

inductive Op
  | input
  | output
  | append
  deriving DecidableEq

def Op.token : Op → Token
  | .input => .lt
  | .output => .gt
  | .append => .app

def Op.mode : Op → ℕ
  | .input => O_RDONLY
  | .output | .append => O_WRONLY ||| O_CREATE

def Op.fd : Op → ℕ
  | .input => 0
  | .output | .append => 1

structure Redir where
  op : Op
  file : List Char

def Redir.tokens (r : Redir) : List Token := [r.op.token, .word r.file]

/-- A word with the redirections after it. -/
structure Arg where
  word : List Char
  redirs : List Redir

mutual

inductive Line
  | single (p : Pipe) (amps : ℕ)
  | semi (p : Pipe) (amps : ℕ) (l : Line)

inductive Pipe
  | single (e : Exec)
  | bar (e : Exec) (p : Pipe)

inductive Exec
  | block (l : Line) (rs : List Redir)
  | simple (rs : List Redir) (args : List Arg)

end

def redirTokens (rs : List Redir) : List Token := rs.flatMap Redir.tokens

def argTokens (args : List Arg) : List Token :=
  args.flatMap fun a => .word a.word :: redirTokens a.redirs

mutual

def Line.yield : Line → List Token
  | .single p n => p.yield ++ List.replicate n .amp
  | .semi p n l => p.yield ++ List.replicate n .amp ++ .semi :: l.yield

def Pipe.yield : Pipe → List Token
  | .single e => e.yield
  | .bar e p => e.yield ++ .bar :: p.yield

def Exec.yield : Exec → List Token
  | .block l rs => .lpar :: l.yield ++ .rpar :: redirTokens rs
  | .simple rs args => redirTokens rs ++ argTokens args

end

/-- A command tree, with its strings. -/
inductive Tree
  | exec (argv : List (List Char))
  | redir (cmd : Tree) (file : List Char) (mode fd : ℕ)
  | pipe (left right : Tree)
  | list (left right : Tree)
  | back (cmd : Tree)
  deriving DecidableEq

/-- The redirections around a command, the first one innermost. -/
def Tree.redirs (t : Tree) (rs : List Redir) : Tree :=
  rs.foldl (fun t r => .redir t r.file r.op.mode r.op.fd) t

mutual

def Line.tree : Line → Tree
  | .single p n => Tree.back^[n] p.tree
  | .semi p n l => .list (Tree.back^[n] p.tree) l.tree

def Pipe.tree : Pipe → Tree
  | .single e => e.tree
  | .bar e p => .pipe e.tree p.tree

def Exec.tree : Exec → Tree
  | .block l rs => l.tree.redirs rs
  | .simple rs args => (Tree.exec (args.map Arg.word)).redirs (rs ++ args.flatMap Arg.redirs)

end

mutual

/-- Every simple command has fewer than `MAXARGS` words. -/
def Line.Small : Line → Prop
  | .single p _ => p.Small
  | .semi p _ l => p.Small ∧ l.Small

def Pipe.Small : Pipe → Prop
  | .single e => e.Small
  | .bar e p => e.Small ∧ p.Small

def Exec.Small : Exec → Prop
  | .block l _ => l.Small
  | .simple _ args => args.length < MAXARGS

end

/-! ## The tree in memory -/

/-- The string at `p` in the line `buf` of `n` characters. -/
def cstr (n : ℕ) (buf : ℕ → Char) (p : Ptr) : List Char :=
  ((List.range p.length).map fun i => buf (n - p.length + i)).takeWhile (· ≠ NUL)

/-- The tree at `cmd` with the strings its pointers show. -/
def Cmd.read (n : ℕ) (buf : ℕ → Char) : Cmd → Tree
  | .exec argv => .exec (argv.map fun arg => cstr n buf arg.1)
  | .redir cmd file _ mode fd => .redir (cmd.read n buf) (cstr n buf file) mode fd
  | .pipe left right => .pipe (left.read n buf) (right.read n buf)
  | .list left right => .list (left.read n buf) (right.read n buf)
  | .back cmd => .back (cmd.read n buf)

/-- What `parsecmd` returns, as its caller reads it. -/
def parsed (fuel : ℕ) (s : Ptr) : Except Halt Tree := do
  let (cmd, buf) ← parsecmd fuel s
  .ok (cmd.read s.length buf)

end DuckoUnix.Sh
