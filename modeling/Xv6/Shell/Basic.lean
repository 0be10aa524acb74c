import Xv6.Lib.Scan
import Xv6.Param

/-! # The parser of the shell

The part of `user/sh.c` that turns a line into a command. The line is a list of characters with a NUL in
it, a pointer into it a position. The functions that move `*ps` are programs whose state is `*ps`; they
read the line `buf` up to `es`, and only `nulterminate` writes to it. -/

namespace Xv6.Shell

abbrev NUL : Char := '\x00'

abbrev MAXARGS : ℕ := 10

/-- The characters that separate words. -/
def whitespace : List Char := [' ', '\t', '\r', '\n', '\x0b']

/-- The characters that are tokens. -/
def symbols : List Char := ['<', '|', '>', '&', ';', '(', ')']

/-- `!strchr(whitespace, c) && !strchr(symbols, c)`. -/
def plain (c : Char) : Bool := !whitespace.contains c && !symbols.contains c

/-- `struct execcmd`: where the arguments begin and end, `none` for a null pointer. -/
structure ExecCmd where
  argv : List (Option ℕ)
  eargv : List (Option ℕ)
  deriving DecidableEq, Repr

/-- `struct cmd`, of any of its types. -/
inductive Cmd where
  | exec (cmd : ExecCmd)
  | redir (cmd : Cmd) (file efile mode fd : ℕ)
  | pipe (left right : Cmd)
  | list (left right : Cmd)
  | back (cmd : Cmd)
  deriving DecidableEq, Repr

/-- How parsing ends when it does not return. -/
inductive ShellError where
  /-- The shell exits with a message. -/
  | panic (message : String)
  /-- The parser has used up the calls it may make. -/
  | outOfFuel
  deriving DecidableEq, Repr

/-- Programs that move `*ps`. -/
abbrev ParseM := StateT ℕ (Except ShellError)

def panic {α : Type} (message : String) : ParseM α := throw (.panic message)

def execcmd : Cmd := .exec ⟨List.replicate MAXARGS none, List.replicate MAXARGS none⟩

/-- Change the `execcmd` at the bottom of a command that redirects it. -/
def Cmd.onExec (f : ExecCmd → ExecCmd) : Cmd → Cmd
  | .exec cmd => .exec (f cmd)
  | .redir cmd file efile mode fd => .redir (cmd.onExec f) file efile mode fd
  | cmd => cmd

/-- `cmd->argv[argc] = q; cmd->eargv[argc] = eq`. -/
def ExecCmd.set (argc : ℕ) (q eq : Option ℕ) (cmd : ExecCmd) : ExecCmd :=
  { argv := cmd.argv.set argc q, eargv := cmd.eargv.set argc eq }

/-- What `gettoken` returns, in its result and in `*q` and `*eq`. -/
structure Token where
  ret : Char
  q : ℕ
  eq : ℕ
  deriving DecidableEq, Repr

section

variable (buf : List Char) (es : ℕ)

/-- `*s`. -/
def charAt (s : ℕ) : Char := buf.getD s NUL

/-- `while(s < es && strchr(whitespace, *s)) s++`. -/
def skipSpace (s : ℕ) : ℕ := Scan.scan whitespace.contains (charAt buf) es s

/-- `while(s < es && !strchr(whitespace, *s) && !strchr(symbols, *s)) s++`. -/
def skipWord (s : ℕ) : ℕ := Scan.scan plain (charAt buf) es s

/-- The token at `s`, which is not white space, and where it ends. -/
def tokenAt (s : ℕ) : Char × ℕ :=
  match charAt buf s with
  | '\x00' => (NUL, s)
  | '|' => ('|', s + 1)
  | '(' => ('(', s + 1)
  | ')' => (')', s + 1)
  | ';' => (';', s + 1)
  | '&' => ('&', s + 1)
  | '<' => ('<', s + 1)
  | '>' => if charAt buf (s + 1) = '>' then ('+', s + 2) else ('>', s + 1)
  | _ => ('a', skipWord buf es s)

def gettoken : ParseM Token := do
  let s := skipSpace buf es (← get)
  let (ret, eq) := tokenAt buf es s
  set (skipSpace buf es eq)
  return { ret := ret, q := s, eq := eq }

def peek (toks : List Char) : ParseM Bool := do
  let s := skipSpace buf es (← get)
  set s
  return charAt buf s != NUL && toks.contains (charAt buf s)

def parseredirs : ℕ → Cmd → ParseM Cmd
  | 0, _ => throw .outOfFuel
  | n + 1, cmd => do
    if ← peek buf es ['<', '>'] then
      let tok ← gettoken buf es
      let file ← gettoken buf es
      if file.ret ≠ 'a' then
        panic "missing file for redirection"
      else
        match tok.ret with
        | '<' => parseredirs n (.redir cmd file.q file.eq O_RDONLY 0)
        | '>' => parseredirs n (.redir cmd file.q file.eq (O_WRONLY ||| O_CREATE ||| O_TRUNC) 1)
        | '+' => parseredirs n (.redir cmd file.q file.eq (O_WRONLY ||| O_CREATE) 1)
        | _ => parseredirs n cmd
    else
      return cmd

/-- The loop of `parseexec`. What it changes in `cmd` is seen in `ret`, which redirects `cmd`. -/
def parseargs : ℕ → ℕ → Cmd → ParseM Cmd
  | 0, _, _ => throw .outOfFuel
  | n + 1, argc, ret => do
    if ← peek buf es ['|', ')', '&', ';'] then
      return ret.onExec (.set argc none none)
    else
      let tok ← gettoken buf es
      if tok.ret = NUL then
        return ret.onExec (.set argc none none)
      else if tok.ret ≠ 'a' then
        panic "syntax"
      else
        let ret := ret.onExec (.set argc (some tok.q) (some tok.eq))
        if argc + 1 ≥ MAXARGS then
          panic "too many args"
        else
          let ret ← parseredirs buf es n ret
          parseargs n (argc + 1) ret

/-- The loop of `parseline` over the `&`. -/
def parseback : ℕ → Cmd → ParseM Cmd
  | 0, _ => throw .outOfFuel
  | n + 1, cmd => do
    if ← peek buf es ['&'] then
      let _ ← gettoken buf es
      parseback n (.back cmd)
    else
      return cmd

mutual

def parseline : ℕ → ParseM Cmd
  | 0 => throw .outOfFuel
  | n + 1 => do
    let cmd ← parsepipe n
    let cmd ← parseback buf es n cmd
    if ← peek buf es [';'] then
      let _ ← gettoken buf es
      return .list cmd (← parseline n)
    else
      return cmd

def parsepipe : ℕ → ParseM Cmd
  | 0 => throw .outOfFuel
  | n + 1 => do
    let cmd ← parseexec n
    if ← peek buf es ['|'] then
      let _ ← gettoken buf es
      return .pipe cmd (← parsepipe n)
    else
      return cmd

def parseexec : ℕ → ParseM Cmd
  | 0 => throw .outOfFuel
  | n + 1 => do
    if ← peek buf es ['('] then
      parseblock n
    else
      let ret ← parseredirs buf es n execcmd
      parseargs buf es n 0 ret

def parseblock : ℕ → ParseM Cmd
  | 0 => throw .outOfFuel
  | n + 1 => do
    if !(← peek buf es ['(']) then
      panic "parseblock"
    else
      let _ ← gettoken buf es
      let cmd ← parseline n
      if !(← peek buf es [')']) then
        panic "syntax - missing )"
      else
        let _ ← gettoken buf es
        parseredirs buf es n cmd

end

end

/-- `for(i=0; ecmd->argv[i]; i++) *ecmd->eargv[i] = 0`. -/
def nulterminateArgs : List (Option ℕ) → List (Option ℕ) → List Char → List Char
  | some _ :: argv, some eq :: eargv, buf => nulterminateArgs argv eargv (buf.set eq NUL)
  | _, _, buf => buf

def nulterminate : Cmd → List Char → List Char
  | .exec cmd, buf => nulterminateArgs cmd.argv cmd.eargv buf
  | .redir cmd _ efile _ _, buf => (nulterminate cmd buf).set efile NUL
  | .pipe left right, buf => nulterminate right (nulterminate left buf)
  | .list left right, buf => nulterminate right (nulterminate left buf)
  | .back cmd, buf => nulterminate cmd buf

/-- The C string at `s`. -/
def cstring (buf : List Char) (s : ℕ) : List Char := (buf.drop s).takeWhile (· != NUL)

/-- Calls that the parser may need for the characters from `s` on. -/
def fuel (es s : ℕ) : ℕ := 4 * (es - s) + 4

/-- `parseline` of the line at the start of `buf`, and the white space after it. -/
def parsewhole (buf : List Char) (es : ℕ) : ParseM Cmd := do
  let cmd ← parseline buf es (fuel es 0)
  let _ ← peek buf es []
  return cmd

/-- `parsecmd` of the line at the start of `buf`: the command, and the buffer afterwards. -/
def parsecmd (buf : List Char) : Except ShellError (Cmd × List Char) := do
  let es := (cstring buf 0).length
  let (cmd, s) ← (parsewhole buf es).run 0
  if s ≠ es then
    -- after the message about the leftovers
    throw (.panic "syntax")
  else
    return (cmd, nulterminate cmd buf)

end Xv6.Shell
