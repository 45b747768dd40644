import Xv6.Proofs.User.ShGrammar
import Xv6.Lib.StateExcept

/-!
# The parser accepts exactly the grammar

`parsecmd` returns a tree exactly when the tokens of the line derive from
`line`, and the tree is the derivation's (`parsecmd_accepts_grammar`).  It
never runs out of fuel: its fuel `lineFuel` is above `bound .line n` for the
`n ≤ es` tokens of any line.  After `nulterminate`, each word of the tree reads
as its text.

The proof follows the parse functions one by one, each stated over `tokens`
(`Xv6.Proofs.User.ShLex`), so that no proof looks at the bytes again:

* the loops: `parseredirs`, the `&` loop `backLoop` and the word loop
  `execLoop`, each by its rounds (`parseredirs_redir`, `backLoop_amp`,
  `execLoop_word`, and the rounds that stop or panic), then by induction on
  the fuel (`_spec`) and on what was read (`_of_`);
* soundness (`parse_sound`): with fuel `bound N n` over `n` tokens, the parse
  of `N` panics, or returns a tree that the tokens it took derive.  One lemma
  for each function takes the claims of its callees at the fuel it gives
  them; the induction on the fuel puts them together;
* completeness (`Derives.complete`): tokens derived from `N`, followed by what
  may follow `N`, parse to the derivation's tree and stop after it.  One
  lemma per rule of the grammar; the induction is on the derivation.
-/

namespace Xv6.Sh

open CString

/-! ## Which symbols `peek` sees -/

/-- The symbols that start a redirection. -/
theorem peekTok_redir_iff (ts : List Tok) :
    peekTok [60, 62] ts = true ↔ ∃ (k : RKind) (ts' : List Tok), ts = .sym k.sym :: ts' := by
  constructor
  · intro h
    match ts, h with
    | .sym .lt :: ts', _ => exact ⟨.lt, ts', rfl⟩
    | .sym .gt :: ts', _ => exact ⟨.gt, ts', rfl⟩
    | .sym .app :: ts', _ => exact ⟨.app, ts', rfl⟩
  · rintro ⟨k, ts', rfl⟩
    cases k <;> rfl

/-- Only `>` and `>>` share the byte they start with. -/
theorem Sym.eq_of_lead_eq {k k' : Sym} (h : k'.lead = k.lead) (hk : k.lead ≠ 62) : k' = k := by
  cases k <;> cases k' <;> first | rfl | simp [Sym.lead] at h hk

/-- `peek` for the byte of one symbol other than `>` sees that symbol. -/
theorem peekTok_single_iff {k : Sym} (hk : k.lead ≠ 62) (ts : List Tok) :
    peekTok [k.lead] ts = true ↔ ∃ ts', ts = .sym k :: ts' := by
  constructor
  · intro h
    match ts, h with
    | .sym k' :: ts', h =>
      simp only [peekTok, List.contains_cons, List.contains_nil, Bool.or_false,
        beq_iff_eq] at h
      exact ⟨ts', by rw [Sym.eq_of_lead_eq h hk]⟩
  · rintro ⟨ts', rfl⟩
    simp [peekTok]

/-- What may follow `N` starts with none of the symbols of `toks` that cannot. -/
theorem Follows.peekTok_eq_false {N : NT} {r : List Tok} {toks : List UInt8} (h : Follows N r)
    (htoks : ∀ k ∈ N.follow, k.lead ∉ toks) : peekTok toks r = false := by
  match r, h with
  | [], _ => rfl
  | .sym k :: _, h =>
    simp only [peekTok, List.contains_eq_mem, decide_eq_false_iff_not]
    exact htoks k h

/-- What may follow `N` starts with no redirection. -/
theorem Follows.peekTok_redir {N : NT} {r : List Tok} (h : Follows N r) :
    peekTok [60, 62] r = false :=
  h.peekTok_eq_false (by cases N <;> decide)

theorem Sym.code_ne_word (k : Sym) : k.code ≠ 97 := by
  cases k <;> decide

/-- The `switch` of `parseredirs` makes the `redircmd` of the grammar. -/
theorem redirFor_code (r : Redir) (cmd : Cmd) :
    redirFor r.kind.sym.code cmd r.file.1 r.file.2 = r.wrap cmd := by
  rcases r with ⟨k, file⟩
  cases k <;> rfl

theorem length_redirToks (rs : List Redir) : (redirToks rs).length = 2 * rs.length := by
  induction rs with
  | nil => rfl
  | cons r rs ih => simp [ih]; omega

/-- The symbols at which the word loop stops are those that end a command. -/
theorem peekTok_stop_iff (ts : List Tok) :
    peekTok [124, 41, 38, 59] ts = true ↔ ∃ k ts', ts = .sym k :: ts' ∧ k ∈ NT.exec.follow := by
  constructor
  · intro h
    match ts, h with
    | .sym k :: ts', h =>
      refine ⟨k, ts', rfl, ?_⟩
      cases k <;> first | decide | simp [peekTok, Sym.lead] at h
  · rintro ⟨k, ts', rfl, hk⟩
    simp only [NT.follow, List.mem_cons, List.not_mem_nil, or_false] at hk
    rcases hk with rfl | rfl | rfl | rfl <;> rfl

section Loops

variable {buf : List UInt8} {es : Nat} (hl : LineOf buf es)
include hl

/-! ## `parseredirs` -/

/-- `parseredirs` stops where no redirection comes next. -/
theorem parseredirs_stop {f : Nat} {cmd : Cmd} {p : Nat} (hp : p ≤ es)
    (h : peekTok [60, 62] (tokens buf es p) = false) :
    parseredirs buf es (f + 1) cmd p = .ok (cmd, skipws buf es p) := by
  rw [parseredirs, peek_eq hl hp (by simp [symbols]), h]
  rfl

/-- One round of `parseredirs`: a redirection and the word of its file. -/
theorem parseredirs_redir (f : Nat) (cmd : Cmd) {p : Nat} {r : Redir} {ts : List Tok}
    (hp : p ≤ es) (h : tokens buf es p = r.toks ++ ts) :
    ∃ p', p' ≤ es ∧ tokens buf es p' = ts ∧
      parseredirs buf es (f + 1) cmd p = parseredirs buf es f (r.wrap cmd) p' := by
  have hs : skipws buf es p ≤ es := scan_le hp
  have hts : tokens buf es (skipws buf es p) = .sym r.kind.sym :: .word r.file.1 r.file.2 :: ts := by
    rw [tokens_skipws hl hp, h]
    rfl
  obtain ⟨q₁, eq₁, p₁, hg₁, hp₁, ht₁⟩ := gettoken_of_sym hl hs hts
  obtain ⟨p₂, hg₂, hp₂, ht₂⟩ := gettoken_of_word hl hp₁ ht₁
  have hmore : peekTok [60, 62] (tokens buf es p) = true := by
    rw [← tokens_skipws hl hp, hts]
    rcases r with ⟨k, file⟩
    cases k <;> rfl
  refine ⟨p₂, hp₂, ht₂, ?_⟩
  rw [parseredirs, peek_eq hl hp (by simp [symbols]), hmore]
  simp only [Bool.not_true, Bool.false_eq_true, if_false, hg₁, hg₂, ne_eq, not_true_eq_false,
    redirFor_code]

/-- A redirection with no word after it. -/
theorem parseredirs_missing {f : Nat} {cmd : Cmd} {p : Nat} {k : RKind} {ts : List Tok}
    (hp : p ≤ es) (h : tokens buf es p = .sym k.sym :: ts)
    (hts : ∀ q eq ts', ts ≠ .word q eq :: ts') :
    parseredirs buf es (f + 1) cmd p = .error (.panic "missing file for redirection") := by
  have hs : skipws buf es p ≤ es := scan_le hp
  have hmore : peekTok [60, 62] (tokens buf es p) = true := (peekTok_redir_iff _).mpr ⟨k, ts, h⟩
  obtain ⟨q₁, eq₁, p₁, hg₁, hp₁, ht₁⟩ :=
    gettoken_of_sym hl hs (by rw [tokens_skipws hl hp, h])
  -- the token after the symbol is the end or another symbol, whose code is not a word's
  have hnext : (gettoken buf es p₁).1 ≠ 97 := by
    match ts, ht₁ with
    | [], ht₁ =>
      rw [gettoken_of_nil hl hp₁ ht₁]
      exact (by decide : (0 : Nat) ≠ 97)
    | .sym k' :: _, ht₁ =>
      obtain ⟨_, _, _, hg, -⟩ := gettoken_of_sym hl hp₁ ht₁
      rw [hg]
      exact k'.code_ne_word
    | .word q eq :: ts', _ => exact absurd rfl (hts q eq ts')
  rw [parseredirs, peek_eq hl hp (by simp [symbols]), hmore]
  simp only [Bool.not_true, Bool.false_eq_true, if_false, hg₁]
  rcases hg : gettoken buf es p₁ with ⟨t, q, eq, p₂⟩
  rw [hg] at hnext
  simp only [if_pos hnext]

/-- What `parseredirs` returns when its fuel covers the tokens: the panic, or
`cmd` wrapped in the redirections it read, stopped where no other one comes. -/
theorem parseredirs_spec : ∀ f cmd p, p ≤ es → (tokens buf es p).length < f →
    parseredirs buf es f cmd p = .error (.panic "missing file for redirection") ∨
    ∃ rs p', parseredirs buf es f cmd p = .ok (wrapAll cmd rs, p') ∧ p' ≤ es ∧
      tokens buf es p = redirToks rs ++ tokens buf es p' ∧
      peekTok [60, 62] (tokens buf es p') = false := by
  intro f
  induction f with
  | zero => intro cmd p _ hf; omega
  | succ f ih =>
    intro cmd p hp hf
    cases hmore : peekTok [60, 62] (tokens buf es p) with
    | false =>
      have hs : tokens buf es (skipws buf es p) = tokens buf es p := tokens_skipws hl hp
      exact .inr ⟨[], _, parseredirs_stop hl hp hmore, scan_le hp, by rw [hs]; rfl, by rw [hs, hmore]⟩
    | true =>
      obtain ⟨k, ts, hts⟩ := (peekTok_redir_iff _).mp hmore
      by_cases hword : ∃ q eq ts', ts = .word q eq :: ts'
      · -- a redirection: one round, then the rest by induction
        obtain ⟨q, eq, ts', rfl⟩ := hword
        obtain ⟨p', hp', ht', heq⟩ :=
          parseredirs_redir hl f cmd (r := ⟨k, (q, eq)⟩) hp hts
        have hlen : (tokens buf es p').length < f := by
          rw [hts, ← ht'] at hf
          simp only [List.length_cons] at hf
          omega
        rw [heq]
        rcases ih _ p' hp' hlen with h | ⟨rs, p'', h, h₁, h₂, h₃⟩
        · exact .inl h
        · refine .inr ⟨⟨k, (q, eq)⟩ :: rs, p'', h, h₁, ?_, h₃⟩
          rw [hts, ← ht', h₂]
          rfl
      · simp only [not_exists] at hword
        exact .inl (parseredirs_missing hl hp hts hword)

/-- `parseredirs` reads the redirections that come next, up to a token that
starts none. -/
theorem parseredirs_of_redirToks : ∀ (rs : List Redir) f cmd p r, p ≤ es →
    tokens buf es p = redirToks rs ++ r → peekTok [60, 62] r = false → rs.length < f →
    ∃ p', parseredirs buf es f cmd p = .ok (wrapAll cmd rs, p') ∧ p' ≤ es ∧ tokens buf es p' = r := by
  intro rs
  induction rs with
  | nil =>
    intro f cmd p r hp h hr hf
    obtain ⟨f, rfl⟩ : ∃ f', f = f' + 1 := ⟨f - 1, by simp at hf; omega⟩
    rw [redirToks_nil, List.nil_append] at h
    exact ⟨_, parseredirs_stop hl hp (h ▸ hr), scan_le hp, by rw [tokens_skipws hl hp, h]⟩
  | cons r' rs ih =>
    intro f cmd p r hp h hr hf
    obtain ⟨f, rfl⟩ : ∃ f', f = f' + 1 := ⟨f - 1, by simp at hf; omega⟩
    obtain ⟨p', hp', ht', heq⟩ := parseredirs_redir hl f cmd (r := r') hp (by rw [h]; rfl)
    rw [heq]
    exact ih f _ p' r hp' ht' hr (by simpa using hf)

/-! ## The `&` loop of `parseline` -/

theorem backLoop_stop {f : Nat} {cmd : Cmd} {p : Nat} (hp : p ≤ es)
    (h : peekTok [38] (tokens buf es p) = false) :
    backLoop buf es (f + 1) cmd p = .ok (cmd, skipws buf es p) := by
  rw [backLoop, peek_eq hl hp (by simp [symbols]), h]
  rfl

/-- One round of the `&` loop. -/
theorem backLoop_amp (f : Nat) (cmd : Cmd) {p : Nat} {ts : List Tok} (hp : p ≤ es)
    (h : tokens buf es p = .sym .amp :: ts) :
    ∃ p', p' ≤ es ∧ tokens buf es p' = ts ∧
      backLoop buf es (f + 1) cmd p = backLoop buf es f (.back cmd) p' := by
  obtain ⟨q, eq, p', hg, hp', ht'⟩ :=
    gettoken_of_sym hl (scan_le hp) (by rw [tokens_skipws hl hp, h])
  have hmore : peekTok [38] (tokens buf es p) = true := by rw [h]; rfl
  refine ⟨p', hp', ht', ?_⟩
  rw [backLoop, peek_eq hl hp (by simp [symbols]), hmore]
  simp only [Bool.not_true, Bool.false_eq_true, if_false, hg]

/-- What the `&` loop returns when its fuel covers the tokens: the pipeline
under one `backcmd` for each `&` that comes next. -/
theorem backLoop_spec : ∀ f cmd p, p ≤ es → (tokens buf es p).length < f →
    ∃ n p', backLoop buf es f cmd p = .ok (backs n cmd, p') ∧ p' ≤ es ∧
      tokens buf es p = List.replicate n (.sym .amp) ++ tokens buf es p' ∧
      peekTok [38] (tokens buf es p') = false := by
  intro f
  induction f with
  | zero => intro cmd p _ hf; omega
  | succ f ih =>
    intro cmd p hp hf
    cases hmore : peekTok [38] (tokens buf es p) with
    | false =>
      have hs : tokens buf es (skipws buf es p) = tokens buf es p := tokens_skipws hl hp
      exact ⟨0, _, backLoop_stop hl hp hmore, scan_le hp, by rw [hs]; rfl, by rw [hs, hmore]⟩
    | true =>
      obtain ⟨ts, hts⟩ := (peekTok_single_iff (k := .amp) (by decide) _).mp hmore
      obtain ⟨p', hp', ht', heq⟩ := backLoop_amp hl f cmd hp hts
      have hlen : (tokens buf es p').length < f := by
        rw [hts, ← ht'] at hf
        simp only [List.length_cons] at hf
        omega
      obtain ⟨n, p'', h, h₁, h₂, h₃⟩ := ih (.back cmd) p' hp' hlen
      refine ⟨n + 1, p'', by rw [heq, h]; rfl, h₁, ?_, h₃⟩
      rw [hts, ← ht', h₂]
      rfl

/-- The `&` loop reads the `&`s that come next. -/
theorem backLoop_of_replicate : ∀ (n f : Nat) cmd p r, p ≤ es →
    tokens buf es p = List.replicate n (.sym .amp) ++ r → peekTok [38] r = false → n < f →
    ∃ p', backLoop buf es f cmd p = .ok (backs n cmd, p') ∧ p' ≤ es ∧ tokens buf es p' = r := by
  intro n
  induction n with
  | zero =>
    intro f cmd p r hp h hr hf
    obtain ⟨f, rfl⟩ : ∃ f', f = f' + 1 := ⟨f - 1, by omega⟩
    rw [List.replicate_zero, List.nil_append] at h
    exact ⟨_, backLoop_stop hl hp (h ▸ hr), scan_le hp, by rw [tokens_skipws hl hp, h]⟩
  | succ n ih =>
    intro f cmd p r hp h hr hf
    obtain ⟨f, rfl⟩ : ∃ f', f = f' + 1 := ⟨f - 1, by omega⟩
    obtain ⟨p', hp', ht', heq⟩ := backLoop_amp hl f cmd hp (by rw [h]; rfl)
    rw [heq]
    exact ih f _ p' r hp' ht' hr (by omega)

/-! ## The word loop of `parseexec` -/

theorem execLoop_stop {f : Nat} {argv : List (Nat × Nat)} {ret : Cmd} {p : Nat} (hp : p ≤ es)
    (h : peekTok [124, 41, 38, 59] (tokens buf es p) = true) :
    execLoop buf es (f + 1) argv ret p = .ok (argv, ret, skipws buf es p) := by
  rw [execLoop, peek_eq hl hp (by simp [symbols]), h]
  rfl

/-- At the end of the line the word loop returns what it has. -/
theorem execLoop_end {f : Nat} {argv : List (Nat × Nat)} {ret : Cmd} {p : Nat} (hp : p ≤ es)
    (h : tokens buf es p = []) : execLoop buf es (f + 1) argv ret p = .ok (argv, ret, es) := by
  have hstop : peekTok [124, 41, 38, 59] (tokens buf es p) = false := by rw [h]; rfl
  have hg : gettoken buf es (skipws buf es p) = (0, es, es, es) :=
    gettoken_of_nil hl (scan_le hp) (by rw [tokens_skipws hl hp, h])
  rw [execLoop, peek_eq hl hp (by simp [symbols]), hstop]
  simp only [Bool.false_eq_true, if_false, hg]
  rfl

/-- One round of the word loop: a word, then the redirections after it. -/
theorem execLoop_word (f : Nat) (argv : List (Nat × Nat)) (ret : Cmd) {p q eq : Nat}
    {ts : List Tok} (hp : p ≤ es) (h : tokens buf es p = .word q eq :: ts)
    (hmax : argv.length + 1 < MAXARGS) :
    ∃ p', p' ≤ es ∧ tokens buf es p' = ts ∧
      execLoop buf es (f + 1) argv ret p =
        (parseredirs buf es f ret p').bind fun x => execLoop buf es f (argv ++ [(q, eq)]) x.1 x.2 := by
  have hstop : peekTok [124, 41, 38, 59] (tokens buf es p) = false := by rw [h]; rfl
  obtain ⟨p', hg, hp', ht'⟩ := gettoken_of_word hl (scan_le hp) (by rw [tokens_skipws hl hp, h])
  have hlen : ¬ (argv ++ [(q, eq)]).length ≥ MAXARGS := by
    rw [List.length_append, List.length_singleton]
    omega
  refine ⟨p', hp', ht', ?_⟩
  rw [execLoop, peek_eq hl hp (by simp [symbols]), hstop]
  simp only [Bool.false_eq_true, if_false, hg, ne_eq, not_true_eq_false,
    if_neg hlen]
  cases parseredirs buf es f ret p' <;> rfl

/-- A word past the last that `argv` holds. -/
theorem execLoop_many {f : Nat} {argv : List (Nat × Nat)} {ret : Cmd} {p q eq : Nat}
    {ts : List Tok} (hp : p ≤ es) (h : tokens buf es p = .word q eq :: ts)
    (hmax : MAXARGS ≤ argv.length + 1) :
    execLoop buf es (f + 1) argv ret p = .error (.panic "too many args") := by
  have hstop : peekTok [124, 41, 38, 59] (tokens buf es p) = false := by rw [h]; rfl
  obtain ⟨p', hg, -, -⟩ := gettoken_of_word hl (scan_le hp) (by rw [tokens_skipws hl hp, h])
  have hlen : (argv ++ [(q, eq)]).length ≥ MAXARGS := by
    rw [List.length_append, List.length_singleton]
    omega
  have h97 : (97 : Nat) ≠ 0 := by decide
  rw [execLoop, peek_eq hl hp (by simp [symbols]), hstop]
  simp only [Bool.false_eq_true, if_false, hg, if_neg h97, ne_eq, not_true_eq_false,
    if_pos hlen]

/-- A symbol that neither ends the command nor is a redirection. -/
theorem execLoop_syntax {f : Nat} {argv : List (Nat × Nat)} {ret : Cmd} {p : Nat} {k : Sym}
    {ts : List Tok} (hp : p ≤ es) (h : tokens buf es p = .sym k :: ts)
    (hk : k ∉ NT.exec.follow) :
    execLoop buf es (f + 1) argv ret p = .error (.panic "syntax") := by
  have hstop : peekTok [124, 41, 38, 59] (tokens buf es p) = false := by
    cases hpk : peekTok [124, 41, 38, 59] (tokens buf es p) with
    | false => rfl
    | true =>
      obtain ⟨k', ts', h', hk'⟩ := (peekTok_stop_iff _).mp hpk
      rw [h, List.cons.injEq, Tok.sym.injEq] at h'
      exact absurd (h'.1 ▸ hk') hk
  obtain ⟨q, eq, p', hg, -, -⟩ := gettoken_of_sym hl (scan_le hp) (by rw [tokens_skipws hl hp, h])
  rw [execLoop, peek_eq hl hp (by simp [symbols]), hstop]
  simp only [Bool.false_eq_true, if_false, hg, k.code_ne_zero, ne_eq, k.code_ne_word,
    not_false_eq_true, if_true]

/-- What the word loop returns when its fuel covers the tokens: a panic, or the
words it read with the redirections after each, stopped at what ends the
command. -/
theorem execLoop_spec : ∀ f argv ret p, p ≤ es → argv.length < MAXARGS →
    (tokens buf es p).length + 2 ≤ f →
    (∃ msg, execLoop buf es f argv ret p = .error (.panic msg)) ∨
    ∃ gs p', execLoop buf es f argv ret p =
        .ok (argv ++ gs.map Prod.fst, wrapAll ret (gs.flatMap Prod.snd), p') ∧
      p' ≤ es ∧ tokens buf es p = groupToks gs ++ tokens buf es p' ∧
      argv.length + gs.length < MAXARGS := by
  intro f
  induction f with
  | zero => intro argv ret p _ _ hf; omega
  | succ f ih =>
    intro argv ret p hp hargv hf
    cases hstop : peekTok [124, 41, 38, 59] (tokens buf es p) with
    | true =>
      exact .inr ⟨[], _, by simpa using execLoop_stop hl hp hstop, scan_le hp,
        by rw [tokens_skipws hl hp]; rfl, by simpa using hargv⟩
    | false =>
      rcases htok : tokens buf es p with _ | ⟨t, ts⟩
      · -- the end of the line
        have hend : tokens buf es es = [] := tokens_of_end hl (Nat.le_refl es) (scan_of_stop (by omega))
        exact .inr ⟨[], es, by simpa using execLoop_end hl hp htok, Nat.le_refl es,
          by rw [hend]; rfl, by simpa using hargv⟩
      · cases t with
        | sym k =>
          -- a symbol that does not end the command
          have hk : k ∉ NT.exec.follow := fun hk => by
            have hpk := (peekTok_stop_iff _).mpr ⟨k, ts, htok, hk⟩
            rw [hstop] at hpk
            cases hpk
          exact .inl ⟨_, execLoop_syntax hl hp htok hk⟩
        | word q eq =>
          by_cases hmax : argv.length + 1 < MAXARGS
          · obtain ⟨p', hp', ht', heq⟩ := execLoop_word hl f argv ret hp htok hmax
            have hlen : (tokens buf es p).length = (tokens buf es p').length + 1 := by
              rw [htok, ht', List.length_cons]
            rw [heq]
            rcases parseredirs_spec hl f ret p' hp' (by omega) with h | ⟨rs, p'', h, h₁, h₂, -⟩
            · exact .inl ⟨_, by rw [h]; rfl⟩
            · have hlen' : (tokens buf es p').length =
                  (redirToks rs).length + (tokens buf es p'').length := by
                rw [h₂, List.length_append]
              rcases ih (argv ++ [(q, eq)]) (wrapAll ret rs) p'' h₁ (by simpa using hmax)
                  (by omega) with h' | ⟨gs, p₃, h', h₃, h₄, h₅⟩
              · exact .inl (by rw [h]; exact h')
              · refine .inr ⟨((q, eq), rs) :: gs, p₃, ?_, h₃, ?_, ?_⟩
                · rw [h]
                  simp [Except.bind, h', wrapAll_append]
                · rw [← ht', h₂, h₄]
                  simp
                · simp only [List.length_append, List.length_singleton] at h₅
                  simp only [List.length_cons]
                  omega
          · exact .inl ⟨_, execLoop_many hl hp htok (by omega)⟩

/-- The word loop reads the groups that come next, up to what ends the command. -/
theorem execLoop_of_groupToks : ∀ (gs : List Group) f argv ret p r, p ≤ es →
    tokens buf es p = groupToks gs ++ r → Follows .exec r → argv.length + gs.length < MAXARGS →
    (tokens buf es p).length + 2 ≤ f →
    ∃ p', execLoop buf es f argv ret p =
        .ok (argv ++ gs.map Prod.fst, wrapAll ret (gs.flatMap Prod.snd), p') ∧
      p' ≤ es ∧ tokens buf es p' = r := by
  intro gs
  induction gs with
  | nil =>
    intro f argv ret p r hp h hr hmax hf
    obtain ⟨f, rfl⟩ : ∃ f', f = f' + 1 := ⟨f - 1, by omega⟩
    rw [groupToks_nil, List.nil_append] at h
    match r, hr with
    | [], _ =>
      exact ⟨es, by simpa using execLoop_end hl hp h, Nat.le_refl es,
        tokens_of_end hl (Nat.le_refl es) (scan_of_stop (by omega))⟩
    | .sym k :: r', hk =>
      have hstop := (peekTok_stop_iff _).mpr ⟨k, r', h, hk⟩
      exact ⟨_, by simpa using execLoop_stop hl hp hstop, scan_le hp, by rw [tokens_skipws hl hp, h]⟩
  | cons g gs ih =>
    intro f argv ret p r hp h hr hmax hf
    obtain ⟨⟨q, eq⟩, rs⟩ := g
    obtain ⟨f, rfl⟩ : ∃ f', f = f' + 1 := ⟨f - 1, by omega⟩
    have hlen := congrArg List.length h
    simp only [groupToks_cons, List.cons_append, List.length_cons, List.length_append,
      length_redirToks] at hlen
    simp only [List.length_cons] at hmax
    obtain ⟨p', hp', ht', heq⟩ := execLoop_word hl f argv ret hp
      (show tokens buf es p = .word q eq :: (redirToks rs ++ (groupToks gs ++ r)) by rw [h]; simp)
      (by omega)
    -- the redirections after the word stop at the next word or at what ends the command
    have hnext : peekTok [60, 62] (groupToks gs ++ r) = false := by
      cases gs with
      | nil => exact hr.peekTok_redir
      | cons g' gs' => rfl
    obtain ⟨p'', h₁, hp'', ht''⟩ :=
      parseredirs_of_redirToks hl rs f ret p' (groupToks gs ++ r) hp' ht' hnext (by omega)
    have hlen'' := congrArg List.length ht''
    simp only [List.length_append] at hlen''
    obtain ⟨p₃, h₃, hp₃, ht₃⟩ :=
      ih f (argv ++ [(q, eq)]) (wrapAll ret rs) p'' r hp'' ht'' hr (by simp; omega) (by omega)
    refine ⟨p₃, ?_, hp₃, ht₃⟩
    rw [heq, h₁]
    simp [Except.bind, h₃, wrapAll_append]

end Loops

/-! ## Soundness -/

/-- The parse function of each nonterminal. -/
def parseNT (buf : List UInt8) (es : Nat) : NT → Nat → Nat → Except Fail (Cmd × Nat)
  | .line => parseline buf es
  | .pipe => parsepipe buf es
  | .exec => parseexec buf es

/-- The fuel that a parse of `N` over `n` tokens needs. -/
def bound : NT → Nat → Nat
  | .line, n => 4 * n + 6
  | .pipe, n => 4 * n + 5
  | .exec, n => 4 * n + 4

/-- A result of a parse of `N` from `p`: a panic, or a tree that the tokens it
took derive, with where it stopped. -/
def Parsed (buf : List UInt8) (es : Nat) (N : NT) (p : Nat) : Except Fail (Cmd × Nat) → Prop
  | .error e => ∃ msg, e = .panic msg
  | .ok (c, p') => p' ≤ es ∧ ∃ ts, tokens buf es p = ts ++ tokens buf es p' ∧ Derives N ts c

/-- With fuel `f`, the parse of `N` is sound wherever `f` covers its bound. -/
def SoundAt (buf : List UInt8) (es : Nat) (N : NT) (f : Nat) : Prop :=
  ∀ p, p ≤ es → bound N (tokens buf es p).length ≤ f → Parsed buf es N p (parseNT buf es N f p)

section Sound

variable {buf : List UInt8} {es : Nat}

/-- A panic of a callee, called at `p`, is the caller's, started at `p₀`; a
tree it returned goes on. -/
theorem Parsed.bind {N N' : NT} {p p₀ : Nat} {x : Except Fail (Cmd × Nat)}
    {g : Cmd × Nat → Except Fail (Cmd × Nat)} (hx : Parsed buf es N p x)
    (hg : ∀ c p', p' ≤ es → ∀ ts, tokens buf es p = ts ++ tokens buf es p' → Derives N ts c →
      Parsed buf es N' p₀ (g (c, p'))) :
    Parsed buf es N' p₀ (x >>= g) := by
  match x, hx with
  | .error _, hx => exact hx
  | .ok (c, p'), ⟨hp', ts, ht, hd⟩ => exact hg c p' hp' ts ht hd

theorem Parsed.of_tokens_eq {N : NT} {p p' : Nat} {x : Except Fail (Cmd × Nat)}
    (h : tokens buf es p = tokens buf es p') (hx : Parsed buf es N p' x) : Parsed buf es N p x := by
  match x, hx with
  | .error _, hx => exact hx
  | .ok (c, p''), ⟨hp'', ts, ht, hd⟩ => exact ⟨hp'', ts, h.trans ht, hd⟩

variable (hl : LineOf buf es)
include hl

theorem parseline_sound {f : Nat} (hpipe : SoundAt buf es .pipe f) (hline : SoundAt buf es .line f) :
    SoundAt buf es .line (f + 1) := by
  intro p hp hf
  simp only [bound] at hf
  show Parsed buf es .line p (parseline buf es (f + 1) p)
  rw [parseline]
  refine (hpipe p hp (by simp only [bound]; omega)).bind fun c₁ p₁ hp₁ ts₁ ht₁ hd₁ => ?_
  have hlen₁ : (tokens buf es p₁).length ≤ (tokens buf es p).length := by
    rw [ht₁, List.length_append]
    omega
  -- the `&`s after the pipeline
  obtain ⟨n, p₂, hb, hp₂, ht₂, -⟩ := backLoop_spec hl f c₁ p₁ hp₁ (by omega)
  dsimp only
  rw [hb, StateExcept.ok_bind]
  dsimp only
  rw [peek_eq hl hp₂ (by simp [symbols])]
  dsimp only
  cases hsemi : peekTok [59] (tokens buf es p₂) with
  | false =>
    simp only [Bool.false_eq_true, if_false]
    refine ⟨scan_le hp₂, ts₁ ++ List.replicate n (.sym .amp), ?_, .line n hd₁⟩
    rw [tokens_skipws hl hp₂, ht₁, ht₂, List.append_assoc]
  | true =>
    -- a `;` and the rest of the line
    obtain ⟨ts, hts⟩ := (peekTok_single_iff (k := .semi) (by decide) _).mp hsemi
    obtain ⟨q, eq, p₃, hg, hp₃, ht₃⟩ :=
      gettoken_of_sym hl (scan_le hp₂) (by rw [tokens_skipws hl hp₂, hts])
    have hlen₂ := congrArg List.length ht₂
    simp only [hts, List.length_append, List.length_replicate, List.length_cons] at hlen₂
    simp only [if_true, hg]
    refine (hline p₃ hp₃ (by simp only [bound, ht₃]; omega)).bind
      fun c₂ p₄ hp₄ ts₂ ht₄ hd₂ => ?_
    refine ⟨hp₄, ts₁ ++ List.replicate n (.sym .amp) ++ .sym .semi :: ts₂, ?_, .list n hd₁ hd₂⟩
    rw [ht₁, ht₂, hts, ← ht₃, ht₄]
    simp

theorem parsepipe_sound {f : Nat} (hexec : SoundAt buf es .exec f) (hpipe : SoundAt buf es .pipe f) :
    SoundAt buf es .pipe (f + 1) := by
  intro p hp hf
  simp only [bound] at hf
  show Parsed buf es .pipe p (parsepipe buf es (f + 1) p)
  rw [parsepipe]
  refine (hexec p hp (by simp only [bound]; omega)).bind fun c₁ p₁ hp₁ ts₁ ht₁ hd₁ => ?_
  dsimp only
  rw [peek_eq hl hp₁ (by simp [symbols])]
  dsimp only
  cases hbar : peekTok [124] (tokens buf es p₁) with
  | false =>
    simp only [Bool.false_eq_true, if_false]
    exact ⟨scan_le hp₁, ts₁, by rw [tokens_skipws hl hp₁, ht₁], .exec hd₁⟩
  | true =>
    -- a `|` and the rest of the pipeline
    obtain ⟨ts, hts⟩ := (peekTok_single_iff (k := .pipe) (by decide) _).mp hbar
    obtain ⟨q, eq, p₂, hg, hp₂, ht₂⟩ :=
      gettoken_of_sym hl (scan_le hp₁) (by rw [tokens_skipws hl hp₁, hts])
    have hlen₁ := congrArg List.length ht₁
    simp only [hts, List.length_append, List.length_cons] at hlen₁
    simp only [if_true, hg]
    refine (hpipe p₂ hp₂ (by simp only [bound, ht₂]; omega)).bind fun c₂ p₃ hp₃ ts₂ ht₃ hd₂ => ?_
    refine ⟨hp₃, ts₁ ++ .sym .pipe :: ts₂, ?_, .pipe hd₁ hd₂⟩
    rw [ht₁, hts, ← ht₂, ht₃]
    simp

theorem parseblock_sound {f p : Nat} (hline : SoundAt buf es .line f) (hp : p ≤ es)
    (hf : 4 * (tokens buf es p).length + 3 ≤ f + 1) :
    Parsed buf es .exec p (parseblock buf es (f + 1) p) := by
  rw [parseblock, peek_eq hl hp (by simp [symbols])]
  dsimp only
  cases hopen : peekTok [40] (tokens buf es p) with
  | false => exact ⟨_, rfl⟩
  | true =>
    obtain ⟨ts, hts⟩ := (peekTok_single_iff (k := .lparen) (by decide) _).mp hopen
    obtain ⟨q, eq, p₁, hg, hp₁, ht₁⟩ :=
      gettoken_of_sym hl (scan_le hp) (by rw [tokens_skipws hl hp, hts])
    have hlen : (tokens buf es p).length = (tokens buf es p₁).length + 1 := by
      rw [hts, ht₁, List.length_cons]
    simp only [Bool.not_true, Bool.false_eq_true, if_false, hg]
    refine (hline p₁ hp₁ (by simp only [bound]; omega)).bind fun c p₂ hp₂ ts₁ ht₂ hd => ?_
    dsimp only
    rw [peek_eq hl hp₂ (by simp [symbols])]
    dsimp only
    cases hclose : peekTok [41] (tokens buf es p₂) with
    | false => exact ⟨_, rfl⟩
    | true =>
      -- the `)`, then the redirections of the block
      obtain ⟨ts', hts'⟩ := (peekTok_single_iff (k := .rparen) (by decide) _).mp hclose
      obtain ⟨_, _, p₃, hg', hp₃, ht₃⟩ :=
        gettoken_of_sym hl (scan_le hp₂) (by rw [tokens_skipws hl hp₂, hts'])
      have hlen₁ := congrArg List.length ht₂
      simp only [hts', ← ht₃, List.length_append, List.length_cons] at hlen₁
      simp only [Bool.not_true, Bool.false_eq_true, if_false, hg']
      rcases parseredirs_spec hl f c p₃ hp₃ (by omega) with h | ⟨rs, p₄, h, hp₄, ht₄, -⟩
      · rw [h]
        exact ⟨_, rfl⟩
      · rw [h]
        refine ⟨hp₄, .sym .lparen :: ts₁ ++ .sym .rparen :: redirToks rs, ?_, .block rs hd⟩
        rw [hts, ← ht₁, ht₂, hts', ← ht₃, ht₄]
        simp

theorem parseexec_sound {f : Nat} (hline : SoundAt buf es .line f) :
    SoundAt buf es .exec (f + 2) := by
  intro p hp hf
  simp only [bound] at hf
  show Parsed buf es .exec p (parseexec buf es (f + 2) p)
  have hs := tokens_skipws hl hp
  rw [parseexec, peek_eq hl hp (by simp [symbols])]
  dsimp only
  cases hopen : peekTok [40] (tokens buf es p) with
  | true =>
    -- a block
    simp only [if_true]
    exact Parsed.of_tokens_eq hs.symm (parseblock_sound hl hline (scan_le hp) (by rw [hs]; omega))
  | false =>
    -- a simple command: its redirections, then its words
    simp only [Bool.false_eq_true, if_false]
    rcases parseredirs_spec hl (f + 1) (.exec []) _ (scan_le hp) (by rw [hs]; omega) with
      h | ⟨rs, p₁, h, hp₁, ht₁, -⟩
    · rw [h]
      exact ⟨_, rfl⟩
    have hlen₁ := congrArg List.length ht₁
    rw [hs, List.length_append] at hlen₁
    rw [h, StateExcept.ok_bind]
    dsimp only
    rcases execLoop_spec hl (f + 1) [] (wrapAll (.exec []) rs) p₁ hp₁ (by decide) (by omega) with
      ⟨msg, h'⟩ | ⟨gs, p₂, h', hp₂, ht₂, hgs⟩
    · rw [h']
      exact ⟨_, rfl⟩
    rw [h', StateExcept.ok_bind]
    dsimp only
    refine ⟨hp₂, redirToks rs ++ groupToks gs, ?_, ?_⟩
    · rw [← hs, ht₁, ht₂, List.append_assoc]
    · rw [List.nil_append, setArgv_wrapAll, setArgv_wrapAll, ← wrapAll_append]
      exact .simple rs gs (by simpa using hgs)

/-- With the fuel of its bound, every parse panics or returns a derived tree. -/
theorem parse_sound : ∀ f N, SoundAt buf es N f := by
  intro f
  induction f using Nat.strong_induction_on with
  | _ f ih =>
    intro N
    cases N with
    | line =>
      cases f with
      | zero => intro p _ hf; simp only [bound] at hf; omega
      | succ f => exact parseline_sound hl (ih f (by omega) .pipe) (ih f (by omega) .line)
    | pipe =>
      cases f with
      | zero => intro p _ hf; simp only [bound] at hf; omega
      | succ f => exact parsepipe_sound hl (ih f (by omega) .exec) (ih f (by omega) .pipe)
    | exec =>
      match f with
      | 0 => intro p _ hf; simp only [bound] at hf; omega
      | 1 => intro p _ hf; simp only [bound] at hf; omega
      | f + 2 => exact parseexec_sound hl (ih f (by omega) .line)

end Sound

/-! ## Completeness -/

/-- What may follow `N` may follow where `N` stands in a larger phrase. -/
theorem Follows.mono {N N' : NT} {r : List Tok} (hN : ∀ k ∈ N.follow, k ∈ N'.follow)
    (h : Follows N r) : Follows N' r := by
  match r, h with
  | [], _ => trivial
  | .sym k :: _, h => exact hN k h

/-- The `&`s after a pipeline may follow it. -/
theorem follows_replicate_amp (n : Nat) {r : List Tok} (h : Follows .pipe r) :
    Follows .pipe (List.replicate n (.sym .amp) ++ r) := by
  cases n with
  | zero => exact h
  | succ n => exact (show Sym.amp ∈ NT.pipe.follow by decide)

/-- The tokens `ts`, followed by anything that may follow `N`, parse as `N` to
the tree `c` and stop right after `ts`, with the fuel of the bound. -/
def Complete (buf : List UInt8) (es : Nat) (N : NT) (ts : List Tok) (c : Cmd) : Prop :=
  ∀ f p r, p ≤ es → tokens buf es p = ts ++ r → Follows N r →
    bound N (tokens buf es p).length ≤ f →
    ∃ p', parseNT buf es N f p = .ok (c, p') ∧ p' ≤ es ∧ tokens buf es p' = r

section Complete

variable {buf : List UInt8} {es : Nat} (hl : LineOf buf es)
include hl

theorem complete_line {ts : List Tok} {c : Cmd} (n : Nat) (h : Complete buf es .pipe ts c) :
    Complete buf es .line (ts ++ List.replicate n (.sym .amp)) (backs n c) := by
  intro f p r hp hT hr hf
  simp only [bound] at hf
  obtain ⟨f, rfl⟩ : ∃ f', f = f' + 1 := ⟨f - 1, by omega⟩
  have hlen := congrArg List.length hT
  simp only [List.length_append, List.length_replicate] at hlen
  obtain ⟨p₁, e₁, hp₁, ht₁⟩ := h f p (List.replicate n (.sym .amp) ++ r) hp
    (by rw [hT, List.append_assoc]) (follows_replicate_amp n (hr.mono (by decide)))
    (by simp only [bound]; omega)
  obtain ⟨p₂, e₂, hp₂, ht₂⟩ :=
    backLoop_of_replicate hl n f c p₁ r hp₁ ht₁ (hr.peekTok_eq_false (by decide)) (by omega)
  have hsemi : peekTok [59] (tokens buf es p₂) = false := by
    rw [ht₂]
    exact hr.peekTok_eq_false (by decide)
  refine ⟨skipws buf es p₂, ?_, scan_le hp₂, by rw [tokens_skipws hl hp₂, ht₂]⟩
  show parseline buf es (f + 1) p = _
  rw [parseline, show parsepipe buf es f p = _ from e₁, StateExcept.ok_bind]
  dsimp only
  rw [e₂, StateExcept.ok_bind]
  dsimp only
  rw [peek_eq hl hp₂ (by simp [symbols]), hsemi]
  rfl

theorem complete_list {ts₁ ts₂ : List Tok} {c₁ c₂ : Cmd} (n : Nat)
    (h₁ : Complete buf es .pipe ts₁ c₁) (h₂ : Complete buf es .line ts₂ c₂) :
    Complete buf es .line (ts₁ ++ List.replicate n (.sym .amp) ++ .sym .semi :: ts₂)
      (.list (backs n c₁) c₂) := by
  intro f p r hp hT hr hf
  simp only [bound] at hf
  obtain ⟨f, rfl⟩ : ∃ f', f = f' + 1 := ⟨f - 1, by omega⟩
  have hlen := congrArg List.length hT
  simp only [List.length_append, List.length_replicate, List.length_cons] at hlen
  obtain ⟨p₁, e₁, hp₁, ht₁⟩ := h₁ f p (List.replicate n (.sym .amp) ++ .sym .semi :: (ts₂ ++ r)) hp
    (by rw [hT]; simp) (follows_replicate_amp n (r := .sym .semi :: (ts₂ ++ r))
      (show Sym.semi ∈ NT.pipe.follow by decide))
    (by simp only [bound]; omega)
  obtain ⟨p₂, e₂, hp₂, ht₂⟩ :=
    backLoop_of_replicate hl n f c₁ p₁ (.sym .semi :: (ts₂ ++ r)) hp₁ ht₁ rfl (by omega)
  have hsemi : peekTok [59] (tokens buf es p₂) = true := by rw [ht₂]; rfl
  obtain ⟨q, eq, p₃, hg, hp₃, ht₃⟩ :=
    gettoken_of_sym hl (scan_le hp₂) (by rw [tokens_skipws hl hp₂, ht₂])
  obtain ⟨p₄, e₄, hp₄, ht₄⟩ := h₂ f p₃ r hp₃ ht₃ hr (by simp only [bound, ht₃, List.length_append]; omega)
  refine ⟨p₄, ?_, hp₄, ht₄⟩
  show parseline buf es (f + 1) p = _
  rw [parseline, show parsepipe buf es f p = _ from e₁, StateExcept.ok_bind]
  dsimp only
  rw [e₂, StateExcept.ok_bind]
  dsimp only
  rw [peek_eq hl hp₂ (by simp [symbols]), hsemi]
  simp only [if_true, hg]
  rw [show parseline buf es f p₃ = _ from e₄]
  rfl

theorem complete_exec {ts : List Tok} {c : Cmd} (h : Complete buf es .exec ts c) :
    Complete buf es .pipe ts c := by
  intro f p r hp hT hr hf
  simp only [bound] at hf
  obtain ⟨f, rfl⟩ : ∃ f', f = f' + 1 := ⟨f - 1, by omega⟩
  obtain ⟨p₁, e₁, hp₁, ht₁⟩ := h f p r hp hT (hr.mono (by decide)) (by simp only [bound]; omega)
  have hbar : peekTok [124] (tokens buf es p₁) = false := by
    rw [ht₁]
    exact hr.peekTok_eq_false (by decide)
  refine ⟨skipws buf es p₁, ?_, scan_le hp₁, by rw [tokens_skipws hl hp₁, ht₁]⟩
  show parsepipe buf es (f + 1) p = _
  rw [parsepipe, show parseexec buf es f p = _ from e₁, StateExcept.ok_bind]
  dsimp only
  rw [peek_eq hl hp₁ (by simp [symbols]), hbar]
  rfl

theorem complete_pipe {ts₁ ts₂ : List Tok} {c₁ c₂ : Cmd} (h₁ : Complete buf es .exec ts₁ c₁)
    (h₂ : Complete buf es .pipe ts₂ c₂) :
    Complete buf es .pipe (ts₁ ++ .sym .pipe :: ts₂) (.pipe c₁ c₂) := by
  intro f p r hp hT hr hf
  simp only [bound] at hf
  obtain ⟨f, rfl⟩ : ∃ f', f = f' + 1 := ⟨f - 1, by omega⟩
  have hlen := congrArg List.length hT
  simp only [List.length_append, List.length_cons] at hlen
  obtain ⟨p₁, e₁, hp₁, ht₁⟩ := h₁ f p (.sym .pipe :: (ts₂ ++ r)) hp (by rw [hT]; simp)
    (show Sym.pipe ∈ NT.exec.follow by decide) (by simp only [bound]; omega)
  have hbar : peekTok [124] (tokens buf es p₁) = true := by rw [ht₁]; rfl
  obtain ⟨q, eq, p₂, hg, hp₂, ht₂⟩ :=
    gettoken_of_sym hl (scan_le hp₁) (by rw [tokens_skipws hl hp₁, ht₁])
  obtain ⟨p₃, e₃, hp₃, ht₃⟩ := h₂ f p₂ r hp₂ ht₂ hr (by simp only [bound, ht₂, List.length_append]; omega)
  refine ⟨p₃, ?_, hp₃, ht₃⟩
  show parsepipe buf es (f + 1) p = _
  rw [parsepipe, show parseexec buf es f p = _ from e₁, StateExcept.ok_bind]
  dsimp only
  rw [peek_eq hl hp₁ (by simp [symbols]), hbar]
  simp only [if_true, hg]
  rw [show parsepipe buf es f p₂ = _ from e₃]
  rfl

theorem complete_block {ts : List Tok} {c : Cmd} (rs : List Redir) (h : Complete buf es .line ts c) :
    Complete buf es .exec (.sym .lparen :: ts ++ .sym .rparen :: redirToks rs) (wrapAll c rs) := by
  intro f p r hp hT hr hf
  simp only [bound] at hf
  obtain ⟨f, rfl⟩ : ∃ f', f = f' + 2 := ⟨f - 2, by omega⟩
  have hlen := congrArg List.length hT
  simp only [List.cons_append, List.length_append, List.length_cons, length_redirToks] at hlen
  have hs := tokens_skipws hl hp
  have hopen : peekTok [40] (tokens buf es p) = true := by rw [hT]; rfl
  have hopen' : peekTok [40] (tokens buf es (skipws buf es p)) = true := by rw [hs, hopen]
  -- `parseexec` peeks at `(`, and `parseblock` peeks again from where that stopped
  obtain ⟨q, eq, p₁, hg, hp₁, ht₁⟩ := gettoken_of_sym hl (scan_le (scan_le hp))
    (show tokens buf es (skipws buf es (skipws buf es p)) =
        .sym .lparen :: (ts ++ .sym .rparen :: (redirToks rs ++ r)) by
      rw [tokens_skipws hl (scan_le hp), hs, hT]
      simp)
  obtain ⟨p₂, e₂, hp₂, ht₂⟩ := h f p₁ (.sym .rparen :: (redirToks rs ++ r)) hp₁ ht₁
    (show Sym.rparen ∈ NT.line.follow by decide)
    (by simp only [bound, ht₁, List.length_append, List.length_cons, length_redirToks]; omega)
  have hclose : peekTok [41] (tokens buf es p₂) = true := by rw [ht₂]; rfl
  obtain ⟨_, _, p₃, hg', hp₃, ht₃⟩ :=
    gettoken_of_sym hl (scan_le hp₂) (by rw [tokens_skipws hl hp₂, ht₂])
  obtain ⟨p₄, e₄, hp₄, ht₄⟩ :=
    parseredirs_of_redirToks hl rs f c p₃ r hp₃ ht₃ hr.peekTok_redir (by omega)
  refine ⟨p₄, ?_, hp₄, ht₄⟩
  show parseexec buf es (f + 2) p = _
  rw [parseexec, peek_eq hl hp (by simp [symbols]), hopen]
  simp only [if_true]
  rw [parseblock, peek_eq hl (scan_le hp) (by simp [symbols]), hopen']
  simp only [Bool.not_true, Bool.false_eq_true, if_false, hg]
  rw [show parseline buf es f p₁ = _ from e₂, StateExcept.ok_bind]
  dsimp only
  rw [peek_eq hl hp₂ (by simp [symbols]), hclose]
  simp only [Bool.not_true, Bool.false_eq_true, if_false, hg', e₄]

theorem complete_simple (rs : List Redir) (gs : List Group) (hgs : gs.length < MAXARGS) :
    Complete buf es .exec (redirToks rs ++ groupToks gs)
      (wrapAll (.exec (gs.map Prod.fst)) (rs ++ gs.flatMap Prod.snd)) := by
  intro f p r hp hT hr hf
  simp only [bound] at hf
  obtain ⟨f, rfl⟩ : ∃ f', f = f' + 1 := ⟨f - 1, by omega⟩
  have hlen := congrArg List.length hT
  simp only [List.length_append, length_redirToks] at hlen
  have hs := tokens_skipws hl hp
  -- a simple command starts with a redirection, a word, or what ends it; never `(`
  have hopen : peekTok [40] (tokens buf es p) = false := by
    rw [hT]
    cases rs with
    | cons r' _ =>
      rcases r' with ⟨k, _⟩
      cases k <;> rfl
    | nil =>
      cases gs with
      | cons _ _ => rfl
      | nil => exact hr.peekTok_eq_false (by decide)
  have hnext : peekTok [60, 62] (groupToks gs ++ r) = false := by
    cases gs with
    | nil => exact hr.peekTok_redir
    | cons _ _ => rfl
  obtain ⟨p₁, e₁, hp₁, ht₁⟩ := parseredirs_of_redirToks hl rs f (.exec []) (skipws buf es p)
    (groupToks gs ++ r) (scan_le hp) (by rw [hs, hT, List.append_assoc]) hnext (by omega)
  have hlen₁ := congrArg List.length ht₁
  simp only [List.length_append] at hlen₁
  obtain ⟨p₂, e₂, hp₂, ht₂⟩ := execLoop_of_groupToks hl gs f [] (wrapAll (.exec []) rs) p₁ r hp₁
    ht₁ hr (by simpa using hgs) (by omega)
  refine ⟨p₂, ?_, hp₂, ht₂⟩
  show parseexec buf es (f + 1) p = _
  rw [parseexec, peek_eq hl hp (by simp [symbols]), hopen]
  simp only [Bool.false_eq_true, if_false]
  rw [e₁, StateExcept.ok_bind]
  dsimp only
  rw [e₂, StateExcept.ok_bind]
  dsimp only
  rw [List.nil_append, setArgv_wrapAll, setArgv_wrapAll, ← wrapAll_append]
  rfl

/-- What the grammar derives, followed by what may follow it, the parser reads
to the derivation's tree. -/
theorem Derives.complete {N : NT} {ts : List Tok} {c : Cmd} (h : Derives N ts c) :
    Complete buf es N ts c := by
  induction h with
  | line n _ ih => exact complete_line hl n ih
  | list n _ _ ih₁ ih₂ => exact complete_list hl n ih₁ ih₂
  | exec _ ih => exact complete_exec hl ih
  | pipe _ _ ih₁ ih₂ => exact complete_pipe hl ih₁ ih₂
  | block rs _ ih => exact complete_block hl rs ih
  | simple rs gs hgs => exact complete_simple hl rs gs hgs

end Complete

/-! ## `nulterminate` -/

/-- `nulterminate` writes a NUL at the end of each word of the tree. -/
theorem nulterminate_eq (c : Cmd) (buf : List UInt8) :
    nulterminate c buf = c.words.foldl (fun b w => b.set w.2 0) buf := by
  induction c generalizing buf with
  | exec argv => rfl
  | redir c file mode fd ih => simp [nulterminate, Cmd.words, ih, List.foldl_append]
  | pipe l r ihl ihr => simp [nulterminate, Cmd.words, ihl, ihr, List.foldl_append]
  | list l r ihl ihr => simp [nulterminate, Cmd.words, ihl, ihr, List.foldl_append]
  | back c ih => exact ih buf

theorem length_foldl_set (ws : List (Nat × Nat)) (buf : List UInt8) :
    (ws.foldl (fun b w => b.set w.2 0) buf).length = buf.length := by
  induction ws generalizing buf with
  | nil => rfl
  | cons w ws ih => rw [List.foldl_cons, ih, List.length_set]

/-- After the NULs, a byte is NUL where a word ends, and as it was elsewhere. -/
theorem deref_foldl_set (ws : List (Nat × Nat)) (buf : List UInt8) (i : Nat) :
    deref (ws.foldl (fun b w => b.set w.2 0) buf) i =
      if ∃ w ∈ ws, w.2 = i then 0 else deref buf i := by
  induction ws generalizing buf with
  | nil => simp
  | cons w ws ih =>
    rw [List.foldl_cons, ih]
    by_cases h : ∃ w' ∈ ws, w'.2 = i
    · rw [if_pos h, if_pos (by obtain ⟨w', hw', h'⟩ := h; exact ⟨w', List.mem_cons_of_mem _ hw', h'⟩)]
    · rw [if_neg h]
      by_cases hw : w.2 = i
      · rw [if_pos ⟨w, List.mem_cons_self .., hw⟩, ← hw, deref_set_self]
      · have hnone : ¬ ∃ w' ∈ w :: ws, w'.2 = i := by
          rintro ⟨w', hw', h'⟩
          rcases List.mem_cons.mp hw' with rfl | hw'
          · exact hw h'
          · exact h ⟨w', hw', h'⟩
        rw [if_neg hnone, deref_set_of_ne hw]

/-- After `nulterminate`, each word of a tree whose words are words of the line
reads as its text: no word ends inside another, whose bytes are all word bytes,
and a NUL stands at its own end. -/
theorem str_nulterminate {buf : List UInt8} {es : Nat} {c : Cmd} {q eq : Nat}
    (hw : ∀ w ∈ c.words, WordAt buf es w.1 w.2) (hmem : (q, eq) ∈ c.words) :
    str ((nulterminate c buf).drop q) = (buf.drop q).take (eq - q) := by
  have hword := hw _ hmem
  have hinside : ∀ i, q ≤ i → i < eq → ¬ ∃ w ∈ c.words, w.2 = i := by
    rintro i hi₁ hi₂ ⟨w, hw', rfl⟩
    have hbyte := hword.bytes _ hi₁ hi₂
    rw [(hw w hw').stop (by have := hword.le; omega)] at hbyte
    cases hbyte
  have hlt := hword.lt
  rw [nulterminate_eq, str_eq_take (eq - q)]
  · exact take_drop_congr (length_foldl_set _ _) fun j hj => by
      rw [deref_foldl_set, if_neg (hinside _ (by omega) (by omega))]
  · intro j hj
    rw [deref_drop, deref_foldl_set, if_neg (hinside _ (by omega) (by omega))]
    exact wordByte_ne_zero (hword.bytes _ (by omega) (by omega))
  · rw [deref_drop, deref_foldl_set, if_pos ⟨_, hmem, by simp only; omega⟩]

/-! ## `parsecmd` -/

/-- `parsecmd` is `parseline` from the start of the line, then a panic where
tokens are left. -/
theorem parsecmd_eq (buf : List UInt8) :
    parsecmd buf = (parseline buf (str buf).length (lineFuel (str buf).length) 0).bind fun x =>
      if skipws buf (str buf).length x.2 ≠ (str buf).length then .error (.panic "syntax")
      else .ok (x.1, nulterminate x.1 buf) := by
  unfold parsecmd
  dsimp only
  cases parseline buf (str buf).length (lineFuel (str buf).length) 0 <;> rfl

/-- `parsecmd` on the line in `buf` never runs out of fuel; it returns exactly
when the tokens of the line derive from `line`, with the derivation's tree;
and after `nulterminate` each word of the tree reads as the text of its word. -/
theorem parsecmd_accepts_grammar (buf : List UInt8) :
    parsecmd buf ≠ .error .fuel ∧
    (∀ c buf', parsecmd buf = .ok (c, buf') ↔
      Derives .line (tokens buf (str buf).length 0) c ∧ buf' = nulterminate c buf) ∧
    (∀ c buf', parsecmd buf = .ok (c, buf') →
      ∀ w ∈ c.words, str (buf'.drop w.1) = (buf.drop w.1).take (w.2 - w.1)) := by
  set es := (str buf).length with hes
  have hl : LineOf buf es := lineOf_str buf
  have hlen : (tokens buf es 0).length ≤ es := by
    simpa using tokens_length_le hl _ 0 rfl (Nat.zero_le es)
  have hfuel : bound .line (tokens buf es 0).length ≤ lineFuel es := by
    simp only [bound, lineFuel]
    omega
  have hsound := parse_sound hl (lineFuel es) .line 0 (Nat.zero_le es) hfuel
  have hiff : ∀ c buf', parsecmd buf = .ok (c, buf') ↔
      Derives .line (tokens buf es 0) c ∧ buf' = nulterminate c buf := by
    intro c buf'
    rw [parsecmd_eq, ← hes]
    constructor
    · -- a returned tree is derived from all the tokens
      intro h
      cases hr : parseline buf es (lineFuel es) 0 with
      | error e =>
        rw [hr] at h
        cases h
      | ok res =>
        obtain ⟨c', p'⟩ := res
        rw [hr] at h
        obtain ⟨hp', ts, ht, hd⟩ : Parsed buf es .line 0 (.ok (c', p')) := hr ▸ hsound
        simp only [Except.bind] at h
        split at h
        · cases h
        · rename_i hend
          simp only [Except.ok.injEq, Prod.mk.injEq] at h
          obtain ⟨rfl, rfl⟩ := h
          have ht' : tokens buf es p' = [] := (tokens_eq_nil_iff hl hp').mpr (by simpa using hend)
          rw [ht', List.append_nil] at ht
          exact ⟨ht ▸ hd, rfl⟩
    · -- a derived tree is the one returned
      rintro ⟨hd, rfl⟩
      obtain ⟨p', e, hp', ht'⟩ :=
        hd.complete hl (lineFuel es) 0 [] (Nat.zero_le es) (List.append_nil _).symm trivial hfuel
      have hend : skipws buf es p' = es := (tokens_eq_nil_iff hl hp').mp ht'
      rw [show parseline buf es (lineFuel es) 0 = _ from e]
      simp [Except.bind, hend]
  refine ⟨?_, hiff, ?_⟩
  · -- the only errors are panics
    rw [parsecmd_eq, ← hes]
    cases hr : parseline buf es (lineFuel es) 0 with
    | error e =>
      obtain ⟨msg, rfl⟩ : Parsed buf es .line 0 (.error e) := hr ▸ hsound
      simp [Except.bind]
    | ok res =>
      simp only [Except.bind]
      split <;> simp
  · intro c buf' h w hw
    obtain ⟨hd, rfl⟩ := (hiff c buf').mp h
    exact str_nulterminate
      (fun w hw => wordAt_of_mem_tokens hl _ 0 rfl (Nat.zero_le es) (hd.words_mem w hw)) hw

end Xv6.Sh
