import Xv6.User.Sh

/-!
# The tokens of a command line

`gettoken` reads the line as a sequence of tokens: a word, one of the symbols
`| ( ) ; & < >`, or `>>`.  `tokens p` is that sequence from `p`, obtained by
calling `gettoken` until it returns `0`.  Everything the parser does to its
position is said here in terms of `tokens`:

* `peek_eq`: `peek` answers whether the next token is a symbol of `toks`, and
  moves to where that token starts (`tokens_skipws`);
* `gettoken_of_sym`, `gettoken_of_word`, `gettoken_of_nil`: `gettoken` returns
  the code of the next token, the text of a word, and a position whose tokens
  are the rest.

Under all of it is `scan_spec`: a `while` loop of `gettoken` stops at the
first byte it does not accept, or at `es`.  A line has no NUL before `es`
and reads as NUL at `es` (`LineOf`), which is what `strlen` gives
(`lineOf_str`).
-/

namespace Xv6.Sh

open CString

/-- `es` ends the line in `buf`: no byte before it is NUL, and it reads as NUL. -/
structure LineOf (buf : List UInt8) (es : Nat) : Prop where
  ne_zero : ∀ i < es, deref buf i ≠ 0
  at_end : deref buf es = 0

theorem deref_cons_succ (a : UInt8) (l : List UInt8) (i : Nat) :
    deref (a :: l) (i + 1) = deref l i := rfl

theorem deref_drop (l : List UInt8) (q j : Nat) : deref (l.drop q) j = deref l (q + j) := by
  simp [deref, List.getD_eq_getElem?_getD, List.getElem?_drop]

theorem deref_set_self (l : List UInt8) (i : Nat) : deref (l.set i 0) i = 0 := by
  simp only [deref, List.getD_eq_getElem?_getD, List.getElem?_set, if_true]
  split <;> rfl

theorem deref_set_of_ne {l : List UInt8} {i j : Nat} (h : i ≠ j) (a : UInt8) :
    deref (l.set i a) j = deref l j := by
  simp [deref, List.getD_eq_getElem?_getD, h]

/-- A string runs to its first NUL. -/
theorem str_eq_take : ∀ (n : Nat) (l : List UInt8), (∀ j < n, deref l j ≠ 0) → deref l n = 0 →
    str l = l.take n
  | 0, l, _, hz => by
    rw [List.take_zero]
    apply str_eq_nil_of_headD
    cases l with
    | nil => rfl
    | cons a l => exact hz
  | n + 1, [], hne, _ => absurd rfl (hne 0 (by omega))
  | n + 1, a :: l, hne, hz => by
    rw [str_cons_of_ne (show a ≠ 0 from hne 0 (by omega)), List.take_succ_cons,
      str_eq_take n l (fun j hj => hne (j + 1) (by omega)) hz]

/-- Two buffers of one length that agree on `n` bytes from `q`. -/
theorem take_drop_congr {l m : List UInt8} {q n : Nat} (hlen : l.length = m.length)
    (h : ∀ j < n, deref l (q + j) = deref m (q + j)) : (l.drop q).take n = (m.drop q).take n := by
  apply List.ext_getElem
  · simp [hlen]
  · intro j h₁ h₂
    simp only [List.length_take, List.length_drop] at h₁ h₂
    have hj := h j (by omega)
    simp only [deref, List.getD_eq_getElem?_getD, List.getElem?_eq_getElem (show q + j < l.length by omega),
      List.getElem?_eq_getElem (show q + j < m.length by omega), Option.getD_some] at hj
    simp [List.getElem_take, List.getElem_drop, hj]

/-- `strlen` ends the line. -/
theorem lineOf_str (buf : List UInt8) : LineOf buf (str buf).length := by
  induction buf with
  | nil => exact ⟨fun i hi => absurd hi (by simp), rfl⟩
  | cons a l ih =>
    by_cases ha : a = 0
    · subst ha
      rw [str_cons_zero]
      exact ⟨fun i hi => absurd hi (by simp), rfl⟩
    · rw [str_cons_of_ne ha, List.length_cons]
      refine ⟨fun i hi => ?_, ih.at_end⟩
      cases i with
      | zero => exact ha
      | succ i => exact ih.ne_zero i (by omega)

/-! ## Loops over the line -/

section Scan

variable {buf : List UInt8} {es : Nat} {ok : UInt8 → Bool} {s : Nat}

theorem scan_of_stop (h : ¬(s < es ∧ ok (deref buf s) = true)) : scan buf es ok s = s := by
  unfold scan
  cases hn : es - s with
  | zero => rfl
  | succ n => rw [scan.go, if_neg h]

theorem scan_of_step (hs : s < es) (hok : ok (deref buf s) = true) :
    scan buf es ok s = scan buf es ok (s + 1) := by
  unfold scan
  have hn : es - s = es - (s + 1) + 1 := by omega
  rw [hn, scan.go, if_pos ⟨hs, hok⟩]

/-- The loop stops at the first byte from `s` that it does not accept, or at `es`. -/
theorem scan_spec (ok : UInt8 → Bool) : ∀ n s, es - s = n → s ≤ es →
    s ≤ scan buf es ok s ∧ scan buf es ok s ≤ es ∧
      (∀ i, s ≤ i → i < scan buf es ok s → ok (deref buf i) = true) ∧
      (scan buf es ok s < es → ok (deref buf (scan buf es ok s)) = false) := by
  intro n
  induction n with
  | zero =>
    intro s hn hs
    rw [scan_of_stop (by omega)]
    exact ⟨Nat.le_refl _, hs, fun i h₁ h₂ => absurd h₂ (by omega), fun h => absurd h (by omega)⟩
  | succ n ih =>
    intro s hn hs
    by_cases hok : ok (deref buf s) = true
    · -- the loop accepts `s` and goes on from `s + 1`
      rw [scan_of_step (by omega) hok]
      obtain ⟨h₁, h₂, h₃, h₄⟩ := ih (s + 1) (by omega) (by omega)
      refine ⟨by omega, h₂, fun i hi₁ hi₂ => ?_, h₄⟩
      rcases Nat.eq_or_lt_of_le hi₁ with rfl | hi₁
      · exact hok
      · exact h₃ i hi₁ hi₂
    · rw [scan_of_stop (by simp [hok])]
      exact ⟨Nat.le_refl _, hs, fun i h₁ h₂ => absurd h₂ (by omega), fun _ => by simpa using hok⟩

theorem le_scan (hs : s ≤ es) : s ≤ scan buf es ok s := (scan_spec ok _ s rfl hs).1

theorem scan_le (hs : s ≤ es) : scan buf es ok s ≤ es := (scan_spec ok _ s rfl hs).2.1

/-- The place where the loop stops is the only one it could stop at. -/
theorem scan_eq_of {r : Nat} (hs : s ≤ r) (hr : r ≤ es)
    (hacc : ∀ i, s ≤ i → i < r → ok (deref buf i) = true)
    (hstop : r < es → ok (deref buf r) = false) : scan buf es ok s = r := by
  obtain ⟨h₁, h₂, h₃, h₄⟩ := scan_spec ok _ s rfl (Nat.le_trans hs hr)
  rcases Nat.lt_trichotomy (scan buf es ok s) r with hlt | heq | hgt
  · have := hacc _ h₁ hlt
    rw [h₄ (by omega)] at this
    cases this
  · exact heq
  · have := h₃ r hs hgt
    rw [hstop (by omega)] at this
    cases this

theorem scan_scan (hs : s ≤ es) : scan buf es ok (scan buf es ok s) = scan buf es ok s := by
  obtain ⟨_, h₂, _, h₄⟩ := scan_spec ok _ s rfl hs
  exact scan_eq_of (Nat.le_refl _) h₂ (fun i h₁ h₂ => absurd h₂ (by omega)) h₄

end Scan

/-! ## Tokens -/

/-- The symbols `gettoken` returns; `app` is `>>`. -/
inductive Sym
  | pipe | lparen | rparen | semi | amp | lt | gt | app
  deriving DecidableEq, Repr

/-- The code `gettoken` returns for a symbol. -/
def Sym.code : Sym → Nat
  | .pipe => 124 | .lparen => 40 | .rparen => 41 | .semi => 59
  | .amp => 38 | .lt => 60 | .gt => 62 | .app => 43

/-- The byte a symbol starts with, which `peek` sees. -/
def Sym.lead : Sym → UInt8
  | .pipe => 124 | .lparen => 40 | .rparen => 41 | .semi => 59
  | .amp => 38 | .lt => 60 | .gt => 62 | .app => 62

/-- A token: a word, with the `q` and `eq` of its text, or a symbol. -/
inductive Tok
  | word (q eq : Nat)
  | sym (s : Sym)
  deriving DecidableEq, Repr

/-- The token of a nonzero code of `gettoken`. -/
def tokOf (code q eq : Nat) : Tok :=
  if code = 124 then .sym .pipe else if code = 40 then .sym .lparen
  else if code = 41 then .sym .rparen else if code = 59 then .sym .semi
  else if code = 38 then .sym .amp else if code = 60 then .sym .lt
  else if code = 62 then .sym .gt else if code = 43 then .sym .app
  else .word q eq

theorem tokOf_code (k : Sym) (q eq : Nat) : tokOf k.code q eq = .sym k := by
  cases k <;> rfl

theorem tokOf_word (q eq : Nat) : tokOf 97 q eq = .word q eq := rfl

/-- `gettoken` from `p` until it returns `0`, for at most `n` tokens. -/
def lexFrom (buf : List UInt8) (es : Nat) : Nat → Nat → List Tok
  | 0, _ => []
  | n + 1, p =>
    let (code, q, eq, p') := gettoken buf es p
    if code = 0 then [] else tokOf code q eq :: lexFrom buf es n p'

/-- The tokens of the line from `p`. -/
def tokens (buf : List UInt8) (es p : Nat) : List Tok := lexFrom buf es (es + 1 - p) p

/-- Whether `peek` with `toks` sees the first of the tokens `ts`. -/
def peekTok (toks : List UInt8) (ts : List Tok) : Bool :=
  match ts with
  | .sym k :: _ => toks.contains k.lead
  | _ => false

/-! ## One `gettoken` -/

/-- The whitespace before a token. -/
abbrev skipws (buf : List UInt8) (es p : Nat) : Nat := scan buf es (strchr whitespace) p

/-- A byte after the whitespace, short of the end, starts a single symbol, `>`
or `>>`, or a word. -/
theorem byte_cases {c : UInt8} (h0 : c ≠ 0) (hws : strchr whitespace c = false) :
    c ∈ ([124, 40, 41, 59, 38, 60] : List UInt8) ∨ c = 62 ∨ wordByte c = true := by
  by_cases hsym : symbols.contains c = true
  · simp only [symbols, List.contains_eq_mem, decide_eq_true_eq, List.mem_cons,
      List.not_mem_nil, or_false] at hsym
    rcases hsym with h | h | h | h | h | h | h <;> simp [h]
  · right; right
    have hs : strchr symbols c = false := by
      simpa [strchr, h0] using hsym
    simp [wordByte, hws, hs]

theorem wordByte_ne_zero {c : UInt8} (h : wordByte c = true) : c ≠ 0 := by
  rintro rfl
  simp [wordByte, strchr] at h

/-- A word byte is no symbol. -/
theorem not_symbol_of_wordByte {c : UInt8} (h : wordByte c = true) : symbols.contains c = false := by
  simp only [wordByte, strchr, Bool.and_eq_true, Bool.not_eq_eq_eq_not, Bool.not_true,
    Bool.or_eq_false_iff] at h
  exact h.2.2

section Gettoken

variable {buf : List UInt8} {es p : Nat}

/-- A symbol other than `>`: the byte itself is the code. -/
theorem gettoken_of_single {c : UInt8} (hc : deref buf (skipws buf es p) = c)
    (hmem : c ∈ ([124, 40, 41, 59, 38, 60] : List UInt8)) :
    gettoken buf es p = (c.toNat, skipws buf es p, skipws buf es p + 1,
      skipws buf es (skipws buf es p + 1)) := by
  have h0 : c ≠ 0 := by
    rintro rfl
    simp at hmem
  simp only [gettoken, hc, if_neg h0, if_pos hmem]

/-- `>>` is the code `'+'`. -/
theorem gettoken_of_app (hc : deref buf (skipws buf es p) = 62)
    (hc' : deref buf (skipws buf es p + 1) = 62) :
    gettoken buf es p = (43, skipws buf es p, skipws buf es p + 2,
      skipws buf es (skipws buf es p + 2)) := by
  simp only [gettoken, hc, hc']
  rfl

/-- `>` alone. -/
theorem gettoken_of_gt (hc : deref buf (skipws buf es p) = 62)
    (hc' : deref buf (skipws buf es p + 1) ≠ 62) :
    gettoken buf es p = (62, skipws buf es p, skipws buf es p + 1,
      skipws buf es (skipws buf es p + 1)) := by
  simp only [gettoken, hc, if_neg hc']
  rfl

/-- A word runs to the first byte that is not a word byte. -/
theorem gettoken_of_wordByte (hc : wordByte (deref buf (skipws buf es p)) = true) :
    gettoken buf es p = (97, skipws buf es p, scan buf es wordByte (skipws buf es p),
      skipws buf es (scan buf es wordByte (skipws buf es p))) := by
  have h0 := wordByte_ne_zero hc
  have hnot := not_symbol_of_wordByte hc
  have hsingle : deref buf (skipws buf es p) ∉ ([124, 40, 41, 59, 38, 60] : List UInt8) := by
    intro hmem
    simp only [symbols, List.contains_eq_mem, decide_eq_false_iff_not, List.mem_cons,
      List.not_mem_nil, or_false] at hnot
    simp only [List.mem_cons, List.not_mem_nil, or_false] at hmem
    tauto
  have hgt : deref buf (skipws buf es p) ≠ 62 := by
    intro h
    rw [h] at hnot
    simp [symbols] at hnot
  simp only [gettoken, if_neg h0, if_neg hsingle, if_neg hgt]

/-- After the whitespace comes a byte that is not whitespace, or the end. -/
theorem not_ws_skipws (hp : p ≤ es) (hlt : skipws buf es p < es) :
    strchr whitespace (deref buf (skipws buf es p)) = false :=
  (scan_spec _ _ p rfl hp).2.2.2 hlt

/-- Only the whitespace before `p` is skipped: `gettoken` reads the same from
where it ends. -/
theorem gettoken_skipws (hp : p ≤ es) : gettoken buf es (skipws buf es p) = gettoken buf es p := by
  simp only [gettoken, scan_scan hp]

end Gettoken

theorem Sym.code_ne_zero (k : Sym) : k.code ≠ 0 := by
  cases k <;> decide

theorem Sym.lead_ne_zero (k : Sym) : k.lead ≠ 0 := by
  cases k <;> decide

/-- `(q, eq)` is a word of the line: a run of word bytes that stops at the
first byte that is not one, or at `es`. -/
structure WordAt (buf : List UInt8) (es q eq : Nat) : Prop where
  lt : q < eq
  le : eq ≤ es
  bytes : ∀ i, q ≤ i → i < eq → wordByte (deref buf i) = true
  stop : eq < es → wordByte (deref buf eq) = false

section Line

variable {buf : List UInt8} {es : Nat} (hl : LineOf buf es)

include hl

theorem skipws_eq_es_iff {p : Nat} (hp : p ≤ es) :
    skipws buf es p = es ↔ deref buf (skipws buf es p) = 0 := by
  constructor
  · intro h
    rw [h]
    exact hl.at_end
  · intro h
    by_contra hne
    exact hl.ne_zero _ (lt_of_le_of_ne (scan_le hp) hne) h

theorem gettoken_of_end {p : Nat} (h : skipws buf es p = es) :
    gettoken buf es p = (0, es, es, es) := by
  have hs : skipws buf es es = es := scan_of_stop (by omega)
  simp only [gettoken, h, hl.at_end, if_true, hs]

/-- What one `gettoken` from `p` reads: the end, a symbol, or a word. -/
theorem gettoken_cases {p : Nat} (hp : p ≤ es) :
    (skipws buf es p = es ∧ gettoken buf es p = (0, es, es, es)) ∨
    (∃ (k : Sym) (eq : Nat), skipws buf es p < eq ∧ eq ≤ es ∧
      deref buf (skipws buf es p) = k.lead ∧
      gettoken buf es p = (k.code, skipws buf es p, eq, skipws buf es eq)) ∨
    (WordAt buf es (skipws buf es p) (scan buf es wordByte (skipws buf es p)) ∧
      gettoken buf es p = (97, skipws buf es p, scan buf es wordByte (skipws buf es p),
        skipws buf es (scan buf es wordByte (skipws buf es p)))) := by
  have hse : skipws buf es p ≤ es := scan_le hp
  by_cases hend : skipws buf es p = es
  · exact .inl ⟨hend, gettoken_of_end hl hend⟩
  have hlt : skipws buf es p < es := lt_of_le_of_ne hse hend
  have h0 : deref buf (skipws buf es p) ≠ 0 := hl.ne_zero _ hlt
  rcases byte_cases h0 (not_ws_skipws hp hlt) with hmem | h62 | hword
  · -- one of the single symbols: the byte is the code
    have hg := gettoken_of_single rfl hmem
    simp only [List.mem_cons, List.not_mem_nil, or_false] at hmem
    rcases hmem with h | h | h | h | h | h <;> rw [h] at hg <;> right <;> left
    exacts [⟨.pipe, _, by omega, by omega, h, hg⟩, ⟨.lparen, _, by omega, by omega, h, hg⟩,
      ⟨.rparen, _, by omega, by omega, h, hg⟩, ⟨.semi, _, by omega, by omega, h, hg⟩,
      ⟨.amp, _, by omega, by omega, h, hg⟩, ⟨.lt, _, by omega, by omega, h, hg⟩]
  · by_cases h62' : deref buf (skipws buf es p + 1) = 62
    · -- `>>`: the second `>` is not the NUL at `es`
      have hs1 : skipws buf es p + 1 < es := by
        by_contra hge
        have hes : skipws buf es p + 1 = es := by omega
        rw [hes, hl.at_end] at h62'
        exact absurd h62' (by decide)
      exact .inr (.inl ⟨.app, _, by omega, by omega, h62, gettoken_of_app h62 h62'⟩)
    · exact .inr (.inl ⟨.gt, _, by omega, by omega, h62, gettoken_of_gt h62 h62'⟩)
  · obtain ⟨h₁, h₂, h₃, h₄⟩ := scan_spec wordByte _ (skipws buf es p) rfl hse
    have hstep : scan buf es wordByte (skipws buf es p) =
        scan buf es wordByte (skipws buf es p + 1) := scan_of_step hlt hword
    have hnext : skipws buf es p + 1 ≤ scan buf es wordByte (skipws buf es p + 1) :=
      le_scan (by omega)
    exact .inr (.inr ⟨⟨by omega, h₂, h₃, h₄⟩, gettoken_of_wordByte hword⟩)

/-- A token moves the position forward, and not past `es`. -/
theorem gettoken_advance {p code q eq p' : Nat} (hp : p ≤ es)
    (hg : gettoken buf es p = (code, q, eq, p')) (hc : code ≠ 0) : p < p' ∧ p' ≤ es := by
  have hps : p ≤ skipws buf es p := le_scan hp
  rcases gettoken_cases hl hp with ⟨-, hg'⟩ | ⟨k, eq', hlt, hle, -, hg'⟩ | ⟨hw, hg'⟩ <;>
    rw [hg'] at hg <;> simp only [Prod.mk.injEq] at hg <;> obtain ⟨rfl, -, -, rfl⟩ := hg
  · exact absurd rfl hc
  · have heq : eq' ≤ skipws buf es eq' := le_scan hle
    exact ⟨by omega, scan_le hle⟩
  · have heq : scan buf es wordByte (skipws buf es p) ≤
        skipws buf es (scan buf es wordByte (skipws buf es p)) := le_scan hw.le
    exact ⟨by have := hw.lt; omega, scan_le hw.le⟩

/-- `lexFrom` reads the same tokens with any fuel above `es - p`. -/
theorem lexFrom_congr : ∀ n m p, p ≤ es → es - p < n → es - p < m →
    lexFrom buf es n p = lexFrom buf es m p := by
  intro n
  induction n with
  | zero => intro m p _ hn _; omega
  | succ n ih =>
    intro m p hp hn hm
    cases m with
    | zero => omega
    | succ m =>
      simp only [lexFrom]
      rcases hg : gettoken buf es p with ⟨code, q, eq, p'⟩
      by_cases hc : code = 0
      · simp [hc]
      · -- the rest of the line is shorter, so both fuels still cover it
        obtain ⟨h₁, h₂⟩ := gettoken_advance hl hp hg hc
        simp only [if_neg hc, ih m p' h₂ (by omega) (by omega)]

theorem tokens_of_end {p : Nat} (hp : p ≤ es) (h : skipws buf es p = es) :
    tokens buf es p = [] := by
  rw [tokens, show es + 1 - p = (es - p) + 1 by omega, lexFrom, gettoken_of_end hl h]
  rfl

/-- A nonzero code puts its token in front of the tokens from the new position. -/
theorem tokens_of_gettoken {p code q eq p' : Nat} (hp : p ≤ es)
    (hg : gettoken buf es p = (code, q, eq, p')) (hc : code ≠ 0) :
    tokens buf es p = tokOf code q eq :: tokens buf es p' := by
  obtain ⟨h₁, h₂⟩ := gettoken_advance hl hp hg hc
  rw [tokens, show es + 1 - p = (es - p) + 1 by omega, lexFrom, hg]
  simp only [if_neg hc, tokens, lexFrom_congr hl (es - p) (es + 1 - p') p' h₂ (by omega) (by omega)]

/-- The tokens do not change over the whitespace that `peek` skips. -/
theorem tokens_skipws {p : Nat} (hp : p ≤ es) :
    tokens buf es (skipws buf es p) = tokens buf es p := by
  have hs : skipws buf es p ≤ es := scan_le hp
  have hg : gettoken buf es (skipws buf es p) = gettoken buf es p := gettoken_skipws hp
  rcases gettoken_cases hl hp with ⟨hend, _⟩ | ⟨k, eq, -, -, -, hgp⟩ | ⟨-, hgp⟩
  · rw [tokens_of_end hl hp hend, tokens_of_end hl hs ((scan_scan hp).trans hend)]
  · rw [tokens_of_gettoken hl hp hgp k.code_ne_zero,
      tokens_of_gettoken hl hs (hg.trans hgp) k.code_ne_zero]
  · rw [tokens_of_gettoken hl hp hgp (by decide), tokens_of_gettoken hl hs (hg.trans hgp) (by decide)]

theorem gettoken_of_nil {p : Nat} (hp : p ≤ es) (ht : tokens buf es p = []) :
    gettoken buf es p = (0, es, es, es) := by
  rcases gettoken_cases hl hp with ⟨-, hg⟩ | ⟨k, eq, -, -, -, hg⟩ | ⟨-, hg⟩
  · exact hg
  · rw [tokens_of_gettoken hl hp hg k.code_ne_zero] at ht
    cases ht
  · rw [tokens_of_gettoken hl hp hg (by decide)] at ht
    cases ht

/-- `gettoken` takes a symbol off the tokens, and returns its code. -/
theorem gettoken_of_sym {p : Nat} {k : Sym} {ts : List Tok} (hp : p ≤ es)
    (ht : tokens buf es p = .sym k :: ts) :
    ∃ q eq p', gettoken buf es p = (k.code, q, eq, p') ∧ p' ≤ es ∧ tokens buf es p' = ts := by
  rcases gettoken_cases hl hp with ⟨hend, -⟩ | ⟨k', eq, -, hle, -, hg⟩ | ⟨-, hg⟩
  · rw [tokens_of_end hl hp hend] at ht
    cases ht
  · rw [tokens_of_gettoken hl hp hg k'.code_ne_zero, tokOf_code] at ht
    simp only [List.cons.injEq, Tok.sym.injEq] at ht
    obtain ⟨rfl, rfl⟩ := ht
    exact ⟨_, _, _, hg, scan_le hle, rfl⟩
  · rw [tokens_of_gettoken hl hp hg (by decide), tokOf_word] at ht
    cases ht

/-- `gettoken` takes a word off the tokens: the code `'a'` and the word's `q`, `eq`. -/
theorem gettoken_of_word {p q eq : Nat} {ts : List Tok} (hp : p ≤ es)
    (ht : tokens buf es p = .word q eq :: ts) :
    ∃ p', gettoken buf es p = (97, q, eq, p') ∧ p' ≤ es ∧ tokens buf es p' = ts := by
  rcases gettoken_cases hl hp with ⟨hend, -⟩ | ⟨k, eq, -, -, -, hg⟩ | ⟨hw, hg⟩
  · rw [tokens_of_end hl hp hend] at ht
    cases ht
  · rw [tokens_of_gettoken hl hp hg k.code_ne_zero, tokOf_code] at ht
    cases ht
  · rw [tokens_of_gettoken hl hp hg (by decide), tokOf_word] at ht
    simp only [List.cons.injEq, Tok.word.injEq] at ht
    obtain ⟨⟨rfl, rfl⟩, rfl⟩ := ht
    exact ⟨_, hg, scan_le hw.le, rfl⟩

/-- `peek` with a set of symbols sees whether the next token is one of them,
and stops where that token starts. -/
theorem peek_eq {p : Nat} {toks : List UInt8} (hp : p ≤ es) (htoks : ∀ c ∈ toks, c ∈ symbols) :
    peek buf es p toks = (peekTok toks (tokens buf es p), skipws buf es p) := by
  rcases gettoken_cases hl hp with ⟨hend, -⟩ | ⟨k, eq, -, -, hlead, hg⟩ | ⟨hw, hg⟩
  · rw [tokens_of_end hl hp hend]
    simp [peek, hend, hl.at_end, peekTok]
  · rw [tokens_of_gettoken hl hp hg k.code_ne_zero, tokOf_code]
    simp [peek, hlead, peekTok, strchr, k.lead_ne_zero]
  · -- a word byte is in no set of symbols
    rw [tokens_of_gettoken hl hp hg (by decide), tokOf_word]
    have hc := hw.bytes _ (Nat.le_refl _) hw.lt
    have hnot : deref buf (skipws buf es p) ∉ toks := by
      have hsym := not_symbol_of_wordByte hc
      rw [List.contains_eq_mem, decide_eq_false_iff_not] at hsym
      exact fun hmem => hsym (htoks _ hmem)
    simp [peek, peekTok, strchr, hnot, wordByte_ne_zero hc]

/-- One token off the front: none at the end, or one, with the position moved
forward; a word token is a word of the line. -/
theorem tokens_step {p : Nat} (hp : p ≤ es) :
    tokens buf es p = [] ∨ ∃ t p', p < p' ∧ p' ≤ es ∧ tokens buf es p = t :: tokens buf es p' ∧
      ∀ q eq, t = .word q eq → WordAt buf es q eq := by
  rcases gettoken_cases hl hp with ⟨hend, -⟩ | ⟨k, eq', -, -, -, hg⟩ | ⟨hw, hg⟩
  · exact .inl (tokens_of_end hl hp hend)
  · obtain ⟨h₁, h₂⟩ := gettoken_advance hl hp hg k.code_ne_zero
    refine .inr ⟨_, _, h₁, h₂, tokens_of_gettoken hl hp hg k.code_ne_zero, ?_⟩
    intro q eq h
    rw [tokOf_code] at h
    cases h
  · obtain ⟨h₁, h₂⟩ := gettoken_advance hl hp hg (by decide)
    refine .inr ⟨_, _, h₁, h₂, tokens_of_gettoken hl hp hg (by decide), ?_⟩
    intro q eq h
    rw [tokOf_word, Tok.word.injEq] at h
    obtain ⟨rfl, rfl⟩ := h
    exact hw

/-- Every word among the tokens is a word of the line. -/
theorem wordAt_of_mem_tokens {q eq : Nat} : ∀ n p, es - p = n → p ≤ es →
    Tok.word q eq ∈ tokens buf es p → WordAt buf es q eq := by
  intro n
  induction n using Nat.strong_induction_on with
  | _ n ih =>
    intro p hn hp hmem
    rcases tokens_step hl hp with h | ⟨t, p', h₁, h₂, h, hw⟩
    · rw [h] at hmem
      cases hmem
    · rw [h] at hmem
      rcases List.mem_cons.mp hmem with h' | h'
      · exact hw q eq h'.symm
      · exact ih _ (by omega) p' rfl h₂ h'

/-- Each token takes at least one byte. -/
theorem tokens_length_le : ∀ n p, es - p = n → p ≤ es → (tokens buf es p).length ≤ es - p := by
  intro n
  induction n using Nat.strong_induction_on with
  | _ n ih =>
    intro p hn hp
    rcases tokens_step hl hp with h | ⟨t, p', h₁, h₂, h, -⟩
    · simp [h]
    · have hrest := ih _ (by omega) p' rfl h₂
      rw [h, List.length_cons]
      omega

/-- No tokens are left exactly where only whitespace is. -/
theorem tokens_eq_nil_iff {p : Nat} (hp : p ≤ es) :
    tokens buf es p = [] ↔ skipws buf es p = es := by
  refine ⟨fun h => ?_, tokens_of_end hl hp⟩
  -- the second value of `gettoken` is where the token starts
  have hstart : (gettoken buf es p).2.1 = skipws buf es p := rfl
  rw [gettoken_of_nil hl hp h] at hstart
  exact hstart.symm

end Line

end Xv6.Sh
