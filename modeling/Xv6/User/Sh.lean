import Xv6.Lib.CString
import Xv6.Param

/-!
# The shell's parser

The parser of `user/sh.c`: `gettoken` and `peek` over the command line, the
five parsing functions, and `nulterminate`.  The line is the buffer `buf` the
shell read; `es` is `s + strlen(s)`, and a byte past the buffer reads as `0`.
Pointers into the line are offsets into `buf`.  A word of the tree is the pair
`(q, eq)` of pointers that `gettoken` set around its text, as `argv`/`eargv`
and `file`/`efile` hold it.

The tree is built as the source builds it: `parseredirs` wraps the command it
is given in one `redircmd` per redirection, and `parseexec` writes its words
into the `execcmd` at the bottom of those wrappers, which `Cmd.setArgv` does
once the words are known.

Each loop and each call takes one unit of a `fuel`; running out is the
failure `Fail.fuel`, apart from the `panic`s of the source.  `parsecmd` starts
with more than any line needs (`Xv6.Proofs.User.ShParse`).  The message that
`parsecmd` prints before its `panic("syntax")` is not modelled.
-/

namespace Xv6.Sh

open CString

/-- `MAXARGS`. -/
def MAXARGS : Nat := 10

/-- `whitespace[] = " \t\r\n\v"`. -/
def whitespace : List UInt8 := [32, 9, 13, 10, 11]

/-- `symbols[] = "<|>&;()"`. -/
def symbols : List UInt8 := [60, 124, 62, 38, 59, 40, 41]

/-- `strchr(set, c) != 0`: `c` is a byte of `set`, or the NUL that ends it. -/
def strchr (set : List UInt8) (c : UInt8) : Bool := c == 0 || set.contains c

/-- `*s`: the byte at `s`, or `0` past the buffer. -/
def deref (buf : List UInt8) (s : Nat) : UInt8 := buf.getD s 0

/-- `while(s < es && ok(*s)) s++;` from `s`; the loop takes at most `es - s` rounds. -/
def scan (buf : List UInt8) (es : Nat) (ok : UInt8 → Bool) (s : Nat) : Nat :=
  go (es - s) s
where
  go : Nat → Nat → Nat
    | 0, s => s
    | n + 1, s => if s < es ∧ ok (deref buf s) = true then go n (s + 1) else s

/-- A byte of a word: neither whitespace nor a symbol. -/
def wordByte (c : UInt8) : Bool := !strchr whitespace c && !strchr symbols c

/-- `gettoken(ps, es, &q, &eq)`: the token's code, `q`, `eq`, and the new `*ps`.
The code is the symbol itself, `'+'` (43) for `>>`, `'a'` (97) for a word and
`0` at the end. -/
def gettoken (buf : List UInt8) (es ps : Nat) : Nat × Nat × Nat × Nat :=
  let s := scan buf es (strchr whitespace) ps
  let c := deref buf s
  let (ret, eq) :=
    if c = 0 then (0, s)
    -- `|`, `(`, `)`, `;`, `&`, `<`
    else if c ∈ [124, 40, 41, 59, 38, 60] then (c.toNat, s + 1)
    else if c = 62 then
      if deref buf (s + 1) = 62 then (43, s + 2) else (62, s + 1)
    else (97, scan buf es wordByte s)
  (ret, s, eq, scan buf es (strchr whitespace) eq)

/-- `peek(ps, es, toks)`: whether the next byte after whitespace is one of `toks`,
and the new `*ps`. -/
def peek (buf : List UInt8) (es ps : Nat) (toks : List UInt8) : Bool × Nat :=
  let s := scan buf es (strchr whitespace) ps
  (deref buf s ≠ 0 && strchr toks (deref buf s), s)

/-- A parsed command; a word is the `(q, eq)` around its text. -/
inductive Cmd
  | exec (argv : List (Nat × Nat))
  | redir (cmd : Cmd) (file : Nat × Nat) (mode fd : Nat)
  | pipe (left right : Cmd)
  | list (left right : Cmd)
  | back (cmd : Cmd)
  deriving DecidableEq, Repr

/-- Why the parser stopped without a command. -/
inductive Fail
  | panic (msg : String)
  | fuel
  deriving DecidableEq, Repr

/-- The `execcmd` at the bottom of the redirections gets the words `argv`. -/
def Cmd.setArgv (argv : List (Nat × Nat)) : Cmd → Cmd
  | .exec _ => .exec argv
  | .redir c file mode fd => .redir (c.setArgv argv) file mode fd
  | c => c

/-- The `redircmd` that `parseredirs` makes for the token `tok` and the file
`(q, eq)`; another token leaves `cmd` as it is, as the `switch` does. -/
def redirFor (tok : Nat) (cmd : Cmd) (q eq : Nat) : Cmd :=
  if tok = 60 then .redir cmd (q, eq) O_RDONLY 0
  else if tok = 62 then .redir cmd (q, eq) (O_WRONLY ||| O_CREATE ||| O_TRUNC) 1
  else if tok = 43 then .redir cmd (q, eq) (O_WRONLY ||| O_CREATE) 1
  else cmd

/-- `parseredirs(cmd, ps, es)`. -/
def parseredirs (buf : List UInt8) (es : Nat) : Nat → Cmd → Nat → Except Fail (Cmd × Nat)
  | 0, _, _ => .error .fuel
  | fuel + 1, cmd, ps =>
    let (more, ps) := peek buf es ps [60, 62]
    if !more then .ok (cmd, ps)
    else
      let (tok, _, _, ps) := gettoken buf es ps
      let (t, q, eq, ps) := gettoken buf es ps
      if t ≠ 97 then .error (.panic "missing file for redirection")
      else parseredirs buf es fuel (redirFor tok cmd q eq) ps

/-- The loop of `parseline` that wraps the pipeline in a `backcmd` per `&`. -/
def backLoop (buf : List UInt8) (es : Nat) : Nat → Cmd → Nat → Except Fail (Cmd × Nat)
  | 0, _, _ => .error .fuel
  | fuel + 1, cmd, ps =>
    let (more, ps) := peek buf es ps [38]
    if !more then .ok (cmd, ps)
    else
      let (_, _, _, ps) := gettoken buf es ps
      backLoop buf es fuel (.back cmd) ps

/-- The loop of `parseexec`, with the words `argv` so far and `ret` the command
with its redirections. -/
def execLoop (buf : List UInt8) (es : Nat) :
    Nat → List (Nat × Nat) → Cmd → Nat → Except Fail (List (Nat × Nat) × Cmd × Nat)
  | 0, _, _, _ => .error .fuel
  | fuel + 1, argv, ret, ps =>
    -- `|`, `)`, `&`, `;`
    let (stop, ps) := peek buf es ps [124, 41, 38, 59]
    if stop then .ok (argv, ret, ps)
    else
      let (tok, q, eq, ps) := gettoken buf es ps
      if tok = 0 then .ok (argv, ret, ps)
      else if tok ≠ 97 then .error (.panic "syntax")
      else
        let argv := argv ++ [(q, eq)]
        if argv.length ≥ MAXARGS then .error (.panic "too many args")
        else do
          let (ret, ps) ← parseredirs buf es fuel ret ps
          execLoop buf es fuel argv ret ps

mutual

/-- `parseline(ps, es)`. -/
def parseline (buf : List UInt8) (es : Nat) : Nat → Nat → Except Fail (Cmd × Nat)
  | 0, _ => .error .fuel
  | fuel + 1, ps => do
    let (cmd, ps) ← parsepipe buf es fuel ps
    let (cmd, ps) ← backLoop buf es fuel cmd ps
    let (more, ps) := peek buf es ps [59]
    if more then
      let (_, _, _, ps) := gettoken buf es ps
      let (right, ps) ← parseline buf es fuel ps
      .ok (.list cmd right, ps)
    else .ok (cmd, ps)
  termination_by structural fuel => fuel

/-- `parsepipe(ps, es)`. -/
def parsepipe (buf : List UInt8) (es : Nat) : Nat → Nat → Except Fail (Cmd × Nat)
  | 0, _ => .error .fuel
  | fuel + 1, ps => do
    let (cmd, ps) ← parseexec buf es fuel ps
    let (more, ps) := peek buf es ps [124]
    if more then
      let (_, _, _, ps) := gettoken buf es ps
      let (right, ps) ← parsepipe buf es fuel ps
      .ok (.pipe cmd right, ps)
    else .ok (cmd, ps)
  termination_by structural fuel => fuel

/-- `parseblock(ps, es)`. -/
def parseblock (buf : List UInt8) (es : Nat) : Nat → Nat → Except Fail (Cmd × Nat)
  | 0, _ => .error .fuel
  | fuel + 1, ps =>
    let (opens, ps) := peek buf es ps [40]
    if !opens then .error (.panic "parseblock")
    else do
      let (_, _, _, ps) := gettoken buf es ps
      let (cmd, ps) ← parseline buf es fuel ps
      let (closes, ps) := peek buf es ps [41]
      if !closes then .error (.panic "syntax - missing )")
      else
        let (_, _, _, ps) := gettoken buf es ps
        parseredirs buf es fuel cmd ps
  termination_by structural fuel => fuel

/-- `parseexec(ps, es)`. -/
def parseexec (buf : List UInt8) (es : Nat) : Nat → Nat → Except Fail (Cmd × Nat)
  | 0, _ => .error .fuel
  | fuel + 1, ps =>
    let (opens, ps) := peek buf es ps [40]
    if opens then parseblock buf es fuel ps
    else do
      let (ret, ps) ← parseredirs buf es fuel (.exec []) ps
      let (argv, ret, ps) ← execLoop buf es fuel [] ret ps
      .ok (ret.setArgv argv, ps)
  termination_by structural fuel => fuel

end

/-- `nulterminate(cmd)`: a NUL written at the end of every word of the tree. -/
def nulterminate : Cmd → List UInt8 → List UInt8
  | .exec argv, buf => argv.foldl (fun buf w => buf.set w.2 0) buf
  | .redir c file _ _, buf => (nulterminate c buf).set file.2 0
  | .pipe l r, buf => nulterminate r (nulterminate l buf)
  | .list l r, buf => nulterminate r (nulterminate l buf)
  | .back c, buf => nulterminate c buf

/-- The fuel `parsecmd` starts with, for a line of `es` bytes. -/
def lineFuel (es : Nat) : Nat := 8 * (es + 2)

/-- `parsecmd(s)` on the line in `buf`: the command, and the line after
`nulterminate`. -/
def parsecmd (buf : List UInt8) : Except Fail (Cmd × List UInt8) := do
  let es := (str buf).length
  let (cmd, s) ← parseline buf es (lineFuel es) 0
  let (_, s) := peek buf es s []
  if s ≠ es then .error (.panic "syntax")
  else .ok (cmd, nulterminate cmd buf)

end Xv6.Sh
