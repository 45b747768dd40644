import Xv6.Proofs.User.ShLex

/-!
# The grammar of a command line

The shell's command language, over the tokens of `Xv6.Proofs.User.ShLex`:

```text
line  ::= pipe '&'* [';' line]
pipe  ::= exec ['|' pipe]
exec  ::= '(' line ')' redir*  |  redir* (WORD redir*)*     (fewer than MAXARGS words)
redir ::= ('<' | '>' | '>>') WORD
```

`Derives N ts c` says that the tokens `ts` derive from `N` with the tree `c`.
The trees are the ones the grammar's reading gives: `|` and `;` nest to the
right, each `&` wraps the pipeline before it in a `backcmd` (`backs`),
and the redirections wrap the command they follow one after another, the
first innermost (`wrapAll`).  The words of a simple command are its `argv`,
whatever redirections stand between them.

`Follows N r` is what may come after `N`: nothing, or a symbol that ends it.
A `line` ends at `)` or at the end, a `pipe` also at `&` or `;`, an `exec`
also at `|`.
-/

namespace Xv6.Sh

/-! ## Redirections -/

/-- The three redirections. -/
inductive RKind
  | lt | gt | app
  deriving DecidableEq, Repr

/-- The token of a redirection. -/
def RKind.sym : RKind → Sym
  | .lt => .lt | .gt => .gt | .app => .app

/-- The mode of the file a redirection opens. -/
def RKind.mode : RKind → Nat
  | .lt => O_RDONLY
  | .gt => O_WRONLY ||| O_CREATE ||| O_TRUNC
  | .app => O_WRONLY ||| O_CREATE

/-- The descriptor a redirection replaces. -/
def RKind.fd : RKind → Nat
  | .lt => 0 | .gt => 1 | .app => 1

/-- A redirection and the word that names its file. -/
structure Redir where
  kind : RKind
  file : Nat × Nat
  deriving DecidableEq, Repr

/-- The two tokens of a redirection. -/
def Redir.toks (r : Redir) : List Tok := [.sym r.kind.sym, .word r.file.1 r.file.2]

/-- The `redircmd` of `r` around `c`. -/
def Redir.wrap (r : Redir) (c : Cmd) : Cmd := .redir c r.file r.kind.mode r.kind.fd

/-- The tokens of redirections one after another. -/
def redirToks (rs : List Redir) : List Tok := rs.flatMap Redir.toks

/-- `c` wrapped by the redirections `rs`, the first innermost. -/
def wrapAll (c : Cmd) (rs : List Redir) : Cmd := rs.foldl (fun c r => r.wrap c) c

@[simp] theorem redirToks_nil : redirToks [] = [] := rfl

@[simp] theorem redirToks_cons (r : Redir) (rs : List Redir) :
    redirToks (r :: rs) = .sym r.kind.sym :: .word r.file.1 r.file.2 :: redirToks rs := rfl

theorem redirToks_append (rs rs' : List Redir) :
    redirToks (rs ++ rs') = redirToks rs ++ redirToks rs' := List.flatMap_append

@[simp] theorem wrapAll_nil (c : Cmd) : wrapAll c [] = c := rfl

@[simp] theorem wrapAll_cons (c : Cmd) (r : Redir) (rs : List Redir) :
    wrapAll c (r :: rs) = wrapAll (r.wrap c) rs := rfl

theorem wrapAll_append (c : Cmd) (rs rs' : List Redir) :
    wrapAll c (rs ++ rs') = wrapAll (wrapAll c rs) rs' := List.foldl_append

/-- The words of a simple command go to the `execcmd` under its redirections. -/
theorem setArgv_wrapAll (argv : List (Nat × Nat)) (c : Cmd) (rs : List Redir) :
    (wrapAll c rs).setArgv argv = wrapAll (c.setArgv argv) rs := by
  induction rs generalizing c with
  | nil => rfl
  | cons r rs ih => exact ih (r.wrap c)

/-! ## Simple commands -/

/-- A word of a simple command and the redirections after it. -/
abbrev Group := (Nat × Nat) × List Redir

/-- The tokens of the groups of a simple command. -/
def groupToks (gs : List Group) : List Tok :=
  gs.flatMap fun g => .word g.1.1 g.1.2 :: redirToks g.2

@[simp] theorem groupToks_nil : groupToks [] = [] := rfl

@[simp] theorem groupToks_cons (g : Group) (gs : List Group) :
    groupToks (g :: gs) = .word g.1.1 g.1.2 :: (redirToks g.2 ++ groupToks gs) := rfl

/-! ## Derivations -/

/-- The pipeline `c` under `n` `backcmd`s. -/
def backs : Nat → Cmd → Cmd
  | 0, c => c
  | n + 1, c => backs n (.back c)

/-- The three nonterminals. -/
inductive NT
  | line | pipe | exec
  deriving DecidableEq, Repr

/-- `Derives N ts c`: the tokens `ts` derive from `N`, with the tree `c`. -/
inductive Derives : NT → List Tok → Cmd → Prop
  /-- `pipe '&'*`: each `&` wraps the pipeline. -/
  | line {ts : List Tok} {c : Cmd} (n : Nat) :
      Derives .pipe ts c → Derives .line (ts ++ List.replicate n (.sym .amp)) (backs n c)
  /-- `pipe '&'* ';' line` -/
  | list {ts₁ ts₂ : List Tok} {c₁ c₂ : Cmd} (n : Nat) :
      Derives .pipe ts₁ c₁ → Derives .line ts₂ c₂ →
      Derives .line (ts₁ ++ List.replicate n (.sym .amp) ++ .sym .semi :: ts₂)
        (.list (backs n c₁) c₂)
  /-- `exec` -/
  | exec {ts : List Tok} {c : Cmd} : Derives .exec ts c → Derives .pipe ts c
  /-- `exec '|' pipe` -/
  | pipe {ts₁ ts₂ : List Tok} {c₁ c₂ : Cmd} :
      Derives .exec ts₁ c₁ → Derives .pipe ts₂ c₂ →
      Derives .pipe (ts₁ ++ .sym .pipe :: ts₂) (.pipe c₁ c₂)
  /-- `'(' line ')' redir*` -/
  | block {ts : List Tok} {c : Cmd} (rs : List Redir) :
      Derives .line ts c →
      Derives .exec (.sym .lparen :: ts ++ .sym .rparen :: redirToks rs) (wrapAll c rs)
  /-- `redir* (WORD redir*)*`, with fewer than `MAXARGS` words. -/
  | simple (rs : List Redir) (gs : List Group) :
      gs.length < MAXARGS →
      Derives .exec (redirToks rs ++ groupToks gs)
        (wrapAll (.exec (gs.map Prod.fst)) (rs ++ gs.flatMap Prod.snd))

/-- The symbols that may come right after `N`. -/
def NT.follow : NT → List Sym
  | .line => [.rparen]
  | .pipe => [.rparen, .amp, .semi]
  | .exec => [.rparen, .amp, .semi, .pipe]

/-- `r` may follow `N`: it is empty, or starts with a symbol that ends `N`. -/
def Follows (N : NT) : List Tok → Prop
  | [] => True
  | .sym k :: _ => k ∈ N.follow
  | .word _ _ :: _ => False

/-! ## The words of a tree -/

/-- The words of a tree that `nulterminate` ends: each `argv` entry and each
redirection's file, in the order it visits them. -/
def Cmd.words : Cmd → List (Nat × Nat)
  | .exec argv => argv
  | .redir c file _ _ => c.words ++ [file]
  | .pipe l r => l.words ++ r.words
  | .list l r => l.words ++ r.words
  | .back c => c.words

theorem words_wrapAll (c : Cmd) (rs : List Redir) :
    (wrapAll c rs).words = c.words ++ rs.map Redir.file := by
  induction rs generalizing c with
  | nil => simp
  | cons r rs ih => simp [ih, Redir.wrap, Cmd.words]

theorem words_backs (n : Nat) (c : Cmd) : (backs n c).words = c.words := by
  induction n generalizing c with
  | zero => rfl
  | succ n ih => exact ih (.back c)

/-- The words of a redirection's file are among its tokens. -/
theorem mem_redirToks_of_mem {rs : List Redir} {w : Nat × Nat} (h : w ∈ rs.map Redir.file) :
    Tok.word w.1 w.2 ∈ redirToks rs := by
  obtain ⟨r, hr, rfl⟩ := List.mem_map.mp h
  exact List.mem_flatMap.mpr ⟨r, hr, by simp [Redir.toks]⟩

/-- Every word of a derived tree is a word token that it was derived from. -/
theorem Derives.words_mem {N : NT} {ts : List Tok} {c : Cmd} (h : Derives N ts c) :
    ∀ w ∈ c.words, Tok.word w.1 w.2 ∈ ts := by
  induction h with
  | line n _ ih =>
    intro w hw
    rw [words_backs] at hw
    exact List.mem_append_left _ (ih w hw)
  | list n _ _ ih₁ ih₂ =>
    intro w hw
    simp only [Cmd.words, words_backs, List.mem_append] at hw
    rcases hw with hw | hw
    · simp [ih₁ w hw]
    · simp [ih₂ w hw]
  | exec _ ih => exact ih
  | pipe _ _ ih₁ ih₂ =>
    intro w hw
    simp only [Cmd.words, List.mem_append] at hw
    rcases hw with hw | hw
    · simp [ih₁ w hw]
    · simp [ih₂ w hw]
  | block rs _ ih =>
    intro w hw
    rw [words_wrapAll, List.mem_append] at hw
    rcases hw with hw | hw
    · simp [ih w hw]
    · simp [mem_redirToks_of_mem hw]
  | simple rs gs _ =>
    intro w hw
    rw [words_wrapAll, List.mem_append, Cmd.words, List.map_append, List.mem_append] at hw
    rcases hw with hw | hw | hw
    · -- an `argv` entry is the word of its group
      obtain ⟨g, hg, rfl⟩ := List.mem_map.mp hw
      exact List.mem_append_right _ (List.mem_flatMap.mpr ⟨g, hg, List.mem_cons_self ..⟩)
    · exact List.mem_append_left _ (mem_redirToks_of_mem hw)
    · -- a file named in a group
      rw [List.map_flatMap, List.mem_flatMap] at hw
      obtain ⟨g, hg, hw⟩ := hw
      exact List.mem_append_right _ (List.mem_flatMap.mpr
        ⟨g, hg, List.mem_cons_of_mem _ (mem_redirToks_of_mem hw)⟩)

end Xv6.Sh
