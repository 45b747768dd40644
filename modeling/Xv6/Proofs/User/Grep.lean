import Xv6.User.Grep
import Xv6.Lib.Regex
import Xv6.Proofs.Memmove

/-!
# grep matches and prints lines

The matcher.  `parse` reads a pattern as the atoms of `Regex` and a final-`$`
anchor, and `Matches` says what `match` is meant to answer: some factor of
the text is in the language of the pattern, at the start when the pattern
starts with '^'.  The proof follows the three functions: `matchstar_iff` by
induction on the text, `matchhere_iff` by induction along `parse` (whose
cases are those of `matchhere`, the star case using `matchstar_iff`), and
`matchSuffixes_iff` for the do-while of `match`; `grep_match_correct`
assembles them.  All three functions are structural, so they terminate.

The driver.  For a stream of lines (`unlines`), `grep` writes the lines that
match (`matchedLines`), whatever sizes the reads return, when each line fits:
`grepLoop_lines` carries the invariant that `buf` holds a part of the next
line, with no '\n', and `buf ++ rem` is the stream of the lines left.  A
round reads whole lines and a part (`exists_unlines_split`), the inner loop
writes the lines that match (`scanLines_unlines`), and the user `memmove`
moves the part to the front of `buf` (`compact_eq`, the overlapping case of
`User.memmove_eq_moved`).  The part is at most as long as its line
(`length_le_of_append_unlines`), so the count `sizeof(buf)-m-1` stays
positive while lines have at most 1022 bytes.  A line of 1023 bytes fills
`buf`, and then the count is 0 (`grepLoop_long_line`).
-/

namespace Xv6.Grep

open Regex

/-- The class of a pattern byte: '.' is any byte. -/
def cls (c : UInt8) : Cls UInt8 := if c = 46 then .any else .lit c

/-- A pattern, after its leading '^', as a sequence of atoms: a byte followed
by '*' is the star of its class, a final '$' anchors the end, and every other
byte is its class once.  Returns the atoms and whether the end is anchored. -/
def parse : List UInt8 → List (Atom UInt8) × Bool
  | [] => ([], false)
  | c :: 42 :: re => (.star (cls c) :: (parse re).1, (parse re).2)
  | [36] => ([], true)
  | c :: re => (.one (cls c) :: (parse re).1, (parse re).2)

/-- What `match(re, text)` is meant to answer: some factor of `text` is in
the language of the pattern, at the start of `text` when `re` starts with
'^', at its end when the pattern ends with '$'. -/
def Matches (re text : List UInt8) : Prop :=
  match re with
  | 94 :: body => Occurs (lang (parse body).1) true (parse body).2 text
  | _ => Occurs (lang (parse re).1) false (parse re).2 text

theorem accepts_cls (c t : UInt8) : (cls c).Accepts t ↔ c = 46 ∨ t = c := by
  unfold cls
  by_cases hc : c = 46
  · simp [hc, Cls.Accepts]
  · simp [hc, Cls.Accepts]

/-- `matchstar` tries its continuation after every run of bytes of the class
of `c`. -/
theorem matchstar_iff {here : List UInt8 → Bool} {Q : List UInt8 → Prop}
    (hhere : ∀ t, here t = true ↔ Q t) (c : UInt8) (text : List UInt8) :
    matchstar c here text = true ↔
      ∃ u v, text = u ++ v ∧ (∀ x ∈ u, (cls c).Accepts x) ∧ Q v := by
  rw [exists_append_forall_iff]
  induction text with
  | nil =>
    simp only [matchstar, hhere]
    simp
  | cons t text ih =>
    -- the loop tries `here` at `t :: text`, then passes `t` if its class accepts it
    rw [matchstar, Bool.or_eq_true, hhere, Bool.and_eq_true, ih, ← exists_append_forall_iff]
    simp only [Bool.or_eq_true, beq_iff_eq, accepts_cls, List.cons.injEq]
    constructor
    · rintro (hq | ⟨hc, hrest⟩)
      · exact .inl hq
      · exact .inr ⟨t, text, ⟨rfl, rfl⟩, hc.symm, hrest⟩
    · rintro (hq | ⟨x, t', ⟨rfl, rfl⟩, hx, hrest⟩)
      · exact .inl hq
      · exact .inr ⟨hx.symm, hrest⟩
/-- `matchhere` finds exactly the prefixes in the language of the pattern,
by induction along `parse`, whose cases are those of `matchhere`. -/
theorem matchhere_iff (re : List UInt8) :
    ∀ text, matchhere re text = true ↔ PrefixIn (lang (parse re).1) (parse re).2 text := by
  induction re using parse.induct with
  | case1 =>
    intro text
    rw [matchhere, parse, prefixIn_nil]
    simp
  | case2 c re ih =>
    -- a starred byte: the loop of `matchstar`
    intro text
    rw [matchhere, parse, prefixIn_star]
    exact matchstar_iff ih c text
  | case3 =>
    -- a final '$'
    intro text
    rw [matchhere, parse, prefixIn_nil]
    simp
  | case4 c re hstar hdollar ih =>
    -- a byte once
    intro text
    rw [parse.eq_4 c re hstar hdollar, prefixIn_one]
    cases text with
    | nil =>
      rw [matchhere.eq_5 c re hstar hdollar]
      simp
    | cons t text =>
      rw [matchhere.eq_4 c re t text hstar hdollar, Bool.and_eq_true, ih]
      simp only [Bool.or_eq_true, beq_iff_eq, accepts_cls, List.cons.injEq]
      constructor
      · rintro ⟨hc, hrest⟩
        exact ⟨t, text, ⟨rfl, rfl⟩, by rcases hc with hc | hc <;> simp [hc], hrest⟩
      · rintro ⟨x, t', ⟨rfl, rfl⟩, hx, hrest⟩
        exact ⟨by rcases hx with hx | hx <;> simp [hx], hrest⟩

/-- The do-while of `match` tries `matchhere` at every suffix, the empty one
included. -/
theorem matchSuffixes_iff (re text : List UInt8) :
    matchSuffixes re text = true ↔ ∃ w v, text = w ++ v ∧ matchhere re v = true := by
  induction text with
  | nil =>
    rw [matchSuffixes]
    constructor
    · intro h
      exact ⟨[], [], rfl, h⟩
    · rintro ⟨w, v, hwv, hv⟩
      obtain ⟨rfl, rfl⟩ := List.nil_eq_append_iff.mp hwv
      exact hv
  | cons t text ih =>
    rw [matchSuffixes, Bool.or_eq_true, ih]
    constructor
    · rintro (hhere | ⟨w, v, rfl, hv⟩)
      · exact ⟨[], t :: text, rfl, hhere⟩
      · exact ⟨t :: w, v, rfl, hv⟩
    · rintro ⟨w, v, hwv, hv⟩
      cases w with
      | nil =>
        rw [List.nil_append] at hwv
        exact .inl (hwv ▸ hv)
      | cons x w =>
        obtain ⟨-, rfl⟩ := List.cons_eq_cons.mp hwv
        exact .inr ⟨w, v, rfl, hv⟩

theorem match_caret (re text : List UInt8) : «match» (94 :: re) text = matchhere re text := rfl

theorem match_of_not_caret {re : List UInt8} (h : ∀ body, re ≠ 94 :: body) (text : List UInt8) :
    «match» re text = matchSuffixes re text := by
  unfold «match»
  split
  · exact absurd rfl (h _)
  · rfl

/-- `match(re, text)` answers whether some factor of `text` is in the language
of `re`, with the anchors `^` and `$` as the pattern has them. -/
theorem grep_match_correct (re text : List UInt8) : «match» re text = true ↔ Matches re text := by
  by_cases hcaret : ∃ body, re = 94 :: body
  · -- anchored at the start: `matchhere` on the whole text
    obtain ⟨body, rfl⟩ := hcaret
    rw [match_caret, matchhere_iff, Matches, occurs_iff_exists_suffix]
    constructor
    · intro h
      exact ⟨[], text, rfl, fun _ => rfl, h⟩
    · rintro ⟨w, v, rfl, hw, hv⟩
      rw [hw rfl, List.nil_append]
      exact hv
  · -- otherwise the do-while over the suffixes
    have h : ∀ body, re ≠ 94 :: body := fun body hre => hcaret ⟨body, hre⟩
    have hM : Matches re text ↔ Occurs (lang (parse re).1) false (parse re).2 text := by
      unfold Matches
      split
      · exact absurd rfl (h _)
      · rfl
    rw [match_of_not_caret h, matchSuffixes_iff, hM, occurs_iff_exists_suffix]
    simp only [matchhere_iff, Bool.false_eq_true, false_implies, true_and]

example : «match» [94, 97, 42, 98, 36] [97, 97, 98] = true := by decide
example : «match» [98, 46, 100] [97, 98, 99, 100] = true := by decide
example : «match» [42, 97] [97] = false := by decide

/-! ## The driver -/

/-- Lines as a stream: each followed by '\n'. -/
def unlines (ls : List (List UInt8)) : List UInt8 := ls.flatMap (· ++ [10])

/-- What `grep` is meant to write: the lines that match, in order. -/
def matchedLines (pattern : List UInt8) (ls : List (List UInt8)) : List UInt8 :=
  unlines (ls.filter fun l => «match» pattern l)

/-- A line `grep` handles: no '\n' inside it, no NUL (where `strchr` would
stop), and room for it and its '\n' in `buf` beside the NUL `grep` stores. -/
structure LineOK (l : List UInt8) : Prop where
  no_newline : 10 ∉ l
  no_nul : 0 ∉ l
  length_le : l.length ≤ 1022

@[simp] theorem unlines_nil : unlines [] = [] := rfl

theorem unlines_cons (l : List UInt8) (ls : List (List UInt8)) :
    unlines (l :: ls) = l ++ 10 :: unlines ls := by
  simp [unlines]

theorem unlines_append (ls₁ ls₂ : List (List UInt8)) :
    unlines (ls₁ ++ ls₂) = unlines ls₁ ++ unlines ls₂ := by
  simp [unlines]

theorem length_le_length_unlines (ls : List (List UInt8)) : ls.length ≤ (unlines ls).length := by
  induction ls with
  | nil => simp
  | cons l ls ih =>
    rw [unlines_cons, List.length_append, List.length_cons, List.length_cons]
    omega

theorem matchedLines_cons (pattern l : List UInt8) (ls : List (List UInt8)) :
    matchedLines pattern (l :: ls) =
      (if «match» pattern l then l ++ [10] else []) ++ matchedLines pattern ls := by
  unfold matchedLines
  by_cases hm : «match» pattern l
  · simp [hm, unlines_cons]
  · simp [hm]

theorem matchedLines_append (pattern : List UInt8) (ls₁ ls₂ : List (List UInt8)) :
    matchedLines pattern (ls₁ ++ ls₂) = matchedLines pattern ls₁ ++ matchedLines pattern ls₂ := by
  simp [matchedLines, List.filter_append, unlines_append]

theorem strchr_eq_none {s : List UInt8} (h : (10 : UInt8) ∉ s) : User.strchr s 10 = none := by
  induction s with
  | nil => rfl
  | cons b s ih =>
    have hb : b ≠ 10 := fun hb => h (hb ▸ List.mem_cons_self)
    rw [User.strchr, ih (fun hs => h (List.mem_cons_of_mem b hs)), if_neg hb]
    simp

/-- `strchr` finds the '\n' that ends a line with no NUL. -/
theorem strchr_line {l : List UInt8} (h10 : (10 : UInt8) ∉ l) (h0 : (0 : UInt8) ∉ l)
    (rest : List UInt8) : User.strchr (l ++ 10 :: rest) 10 = some l.length := by
  induction l with
  | nil => rfl
  | cons b l ih =>
    have hb10 : b ≠ 10 := fun hb => h10 (hb ▸ List.mem_cons_self)
    have hb0 : b ≠ 0 := fun hb => h0 (hb ▸ List.mem_cons_self)
    rw [List.cons_append, User.strchr, if_neg hb0, if_neg hb10,
      ih (fun h => h10 (List.mem_cons_of_mem b h)) (fun h => h0 (List.mem_cons_of_mem b h))]
    rfl

theorem lt_length_of_strchr {s : List UInt8} {c : UInt8} {i : Nat} (h : User.strchr s c = some i) :
    i < s.length := by
  induction s generalizing i with
  | nil => cases h
  | cons b s ih =>
    rw [User.strchr] at h
    split_ifs at h with h0 hc
    · cases h
      simp
    · obtain ⟨j, hj, rfl⟩ := Option.map_eq_some_iff.mp h
      have := ih hj
      simp only [List.length_cons]
      omega

/-- The inner loop over whole lines followed by a part with no '\n': it
writes the lines that match and stops at the part. -/
theorem scanLines_unlines (pattern data : List UInt8) {part : List UInt8}
    (hpart : (10 : UInt8) ∉ part) (ls : List (List UInt8)) :
    ∀ (fuel p : Nat), (∀ l ∈ ls, 10 ∉ l ∧ 0 ∉ l) → ls.length < fuel →
      data.drop p = unlines ls ++ part →
      scanLines pattern data fuel p = (matchedLines pattern ls, p + (unlines ls).length) := by
  induction ls with
  | nil =>
    intro fuel p _ hfuel hdata
    obtain ⟨fuel, rfl⟩ : ∃ f, fuel = f + 1 := ⟨fuel - 1, by simp at hfuel; omega⟩
    rw [scanLines, hdata, unlines_nil, List.nil_append, strchr_eq_none hpart]
    simp [matchedLines]
  | cons l ls ih =>
    intro fuel p hls hfuel hdata
    obtain ⟨fuel, rfl⟩ : ∃ f, fuel = f + 1 := ⟨fuel - 1, by simp at hfuel; omega⟩
    obtain ⟨h10, h0⟩ := hls l List.mem_cons_self
    have hdata' : data.drop p = l ++ 10 :: (unlines ls ++ part) := by
      rw [hdata, unlines_cons, List.append_assoc, List.cons_append]
    have hline : (data.drop p).take l.length = l := by
      rw [hdata', List.take_left']
      rfl
    have hnext : data.drop (p + l.length + 1) = unlines ls ++ part := by
      rw [Nat.add_assoc, ← List.drop_drop, hdata', List.drop_append]
      simp
    have hrest := ih fuel (p + l.length + 1) (fun l' hl' => hls l' (List.mem_cons_of_mem l hl'))
      (by simp at hfuel; omega) hnext
    have hfind : User.strchr (data.drop p) 10 = some l.length := by
      rw [hdata']
      exact strchr_line h10 h0 _
    rw [scanLines, hfind]
    dsimp only
    rw [hline, hrest, matchedLines_cons, unlines_cons]
    simp only [List.length_append, List.length_cons]
    congr 1
    omega

/-- The user `memmove` that compacts `buf` leaves the bytes from `p` on at its
front: the overlapping case of `memmove`, source above destination. -/
theorem compact_eq (data : List UInt8) (p : Nat) : compact data p = data.drop p := by
  unfold compact
  dsimp only
  rw [User.memmove_eq_moved, Int.toNat_natCast]
  apply List.ext_getElem
  · simp
  · intro i hi _
    have hin : i < data.length - p := by simpa using hi
    rw [List.getElem_map, List.getElem_range]
    calc Move.moved (fun a => data.getD a 0) 0 p (data.length - p) i
        = Move.moved (fun a => data.getD a 0) 0 p (data.length - p) (0 + i) := by rw [Nat.zero_add]
      _ = data.getD (p + i) 0 := Move.moved_add hin
      _ = (data.drop p)[i] := by
        rw [List.getElem_drop, List.getD_eq_getElem?_getD, List.getElem?_eq_getElem (by omega)]
        rfl

/-- A prefix `d` of the stream of `ls` is some whole lines and then a part of
the next line. -/
theorem exists_unlines_split (ls : List (List UInt8)) (hls : ∀ l ∈ ls, (10 : UInt8) ∉ l) :
    ∀ d r : List UInt8, d ++ r = unlines ls →
      ∃ ls₁ ls₂ part, ls = ls₁ ++ ls₂ ∧ d = unlines ls₁ ++ part ∧ (10 : UInt8) ∉ part ∧
        part ++ r = unlines ls₂ := by
  induction ls with
  | nil =>
    intro d r h
    obtain ⟨rfl, rfl⟩ := List.append_eq_nil_iff.mp h
    exact ⟨[], [], [], rfl, rfl, List.not_mem_nil, rfl⟩
  | cons l ls ih =>
    intro d r h
    have hl := hls l List.mem_cons_self
    rw [unlines_cons] at h
    rcases List.append_eq_append_iff.mp h with ⟨a, hla, hr⟩ | ⟨c, rfl, hc⟩
    · -- `d` ends inside `l`
      refine ⟨[], l :: ls, d, rfl, rfl, fun hd => hl (hla ▸ List.mem_append_left a hd), ?_⟩
      rw [unlines_cons, hr, hla, List.append_assoc]
    · cases c with
      | nil =>
        -- `d` is `l` without its '\n'
        refine ⟨[], l :: ls, l, rfl, by simp, hl, ?_⟩
        rw [List.nil_append] at hc
        rw [unlines_cons, hc]
      | cons b c =>
        -- `d` passes the '\n' of `l`
        rw [List.cons_append, List.cons_eq_cons] at hc
        obtain ⟨rfl, hc⟩ := hc
        obtain ⟨ls₁, ls₂, part, rfl, rfl, hpart, hrest⟩ :=
          ih (fun l' hl' => hls l' (List.mem_cons_of_mem l hl')) c r hc.symm
        refine ⟨l :: ls₁, ls₂, part, rfl, ?_, hpart, hrest⟩
        rw [unlines_cons, List.append_assoc, List.cons_append]

/-- A part with no '\n' at the front of the stream of `l :: ls` is at most
as long as `l`. -/
theorem length_le_of_append_unlines {part r l : List UInt8} {ls : List (List UInt8)}
    (hpart : (10 : UInt8) ∉ part) (h : part ++ r = unlines (l :: ls)) : part.length ≤ l.length := by
  rw [unlines_cons] at h
  by_contra hlong
  have hget : (part ++ r)[l.length]? = some 10 := by
    rw [h, List.getElem?_append_right (Nat.le_refl _), Nat.sub_self]
    rfl
  rw [List.getElem?_append_left (by omega)] at hget
  exact hpart (List.mem_of_getElem? hget)

theorem readLen_le_count (rem : List UInt8) (count k : Nat) : readLen rem count k ≤ count := by
  unfold readLen
  omega

theorem readLen_le_length (rem : List UInt8) (count k : Nat) : readLen rem count k ≤ rem.length := by
  unfold readLen
  omega

theorem readLen_pos {rem : List UInt8} {count : Nat} (hc : 0 < count) (hr : 0 < rem.length)
    (k : Nat) : 0 < readLen rem count k := by
  unfold readLen
  omega

/-- The outer loop writes the lines that match, however the reads split the
stream, while every line fits in `buf`.  The invariant: `buf` holds a part
with no '\n' of the next line, and `buf ++ rem` is the stream of the lines
left. -/
theorem grepLoop_lines (pattern : List UInt8) (fuel : Nat) :
    ∀ (buf rem : List UInt8) (ks : List Nat) (ls : List (List UInt8)),
      (∀ l ∈ ls, LineOK l) → rem.length < fuel → (10 : UInt8) ∉ buf →
      buf ++ rem = unlines ls → grepLoop pattern fuel buf rem ks = matchedLines pattern ls := by
  induction fuel with
  | zero =>
    intro _ rem _ _ _ hfuel
    exact absurd hfuel (Nat.not_lt_zero _)
  | succ fuel ih =>
    intro buf rem ks ls hls hfuel hbuf hstream
    cases ls with
    | nil =>
      -- the stream is over: `read` returns 0
      obtain ⟨rfl, rfl⟩ := List.append_eq_nil_iff.mp hstream
      simp [grepLoop, readLen, matchedLines]
    | cons l ls =>
      have hl := hls l List.mem_cons_self
      -- `buf` is part of `l`, so the count is not 0 and the stream is not over
      have hbuf_le : buf.length ≤ l.length := length_le_of_append_unlines hbuf hstream
      have hrem : 0 < rem.length := by
        have := congrArg List.length hstream
        simp only [unlines_cons, List.length_append, List.length_cons] at this
        omega
      have hcount : 0 < 1024 - buf.length - 1 := by
        have := hl.length_le
        omega
      have hnpos := readLen_pos hcount hrem (ks.headD 0)
      have hnle := readLen_le_length rem (1024 - buf.length - 1) (ks.headD 0)
      rw [grepLoop]
      dsimp only
      generalize readLen rem (1024 - buf.length - 1) (ks.headD 0) = n at hnpos hnle ⊢
      -- what the round has read: whole lines `ls₁`, then a part of the next line
      have hsplit : (buf ++ rem.take n) ++ rem.drop n = unlines (l :: ls) := by
        rw [List.append_assoc, List.take_append_drop, hstream]
      obtain ⟨ls₁, ls₂, part, hls12, hdata, hpart, hrest⟩ :=
        exists_unlines_split (l :: ls) (fun l' hl' => (hls l' hl').no_newline) _ _ hsplit
      have hls₁ : ∀ l' ∈ ls₁, (10 : UInt8) ∉ l' ∧ (0 : UInt8) ∉ l' := by
        intro l' hl'
        have hl'' := hls l' (hls12 ▸ List.mem_append_left ls₂ hl')
        exact ⟨hl''.no_newline, hl''.no_nul⟩
      have hscan : scanLines pattern (buf ++ rem.take n) ((buf ++ rem.take n).length + 1) 0 =
          (matchedLines pattern ls₁, (unlines ls₁).length) := by
        have hlen : ls₁.length < (buf ++ rem.take n).length + 1 := by
          have := length_le_length_unlines ls₁
          rw [hdata, List.length_append]
          omega
        rw [scanLines_unlines pattern _ hpart ls₁ _ 0 hls₁ hlen (by rw [List.drop_zero, hdata]),
          Nat.zero_add]
      have hdatapos : (buf ++ rem.take n).length > 0 := by
        simp only [List.length_append, List.length_take]
        omega
      have hcompact : compact (buf ++ rem.take n) (unlines ls₁).length = part := by
        rw [compact_eq, hdata, List.drop_left]
      have hnext := ih part (rem.drop n) ks.tail ls₂
        (fun l' hl' => hls l' (hls12 ▸ List.mem_append_right ls₁ hl'))
        (by simp only [List.length_drop]; omega) hpart hrest
      rw [if_neg (Nat.pos_iff_ne_zero.mp hnpos), hscan, if_pos hdatapos]
      dsimp only
      rw [hcompact, hnext, hls12, matchedLines_append]

/-- `grep` writes exactly the lines that match, in order, however `read`
splits the stream, when every line has no NUL and at most 1022 bytes before
its '\n'. -/
theorem grep_lines (pattern : List UInt8) (ls : List (List UInt8)) (hls : ∀ l ∈ ls, LineOK l)
    (ks : List Nat) : grep pattern (unlines ls) ks = matchedLines pattern ls :=
  grepLoop_lines pattern _ [] (unlines ls) ks ls hls (Nat.lt_succ_self _) List.not_mem_nil rfl

example : grep [98] [97, 10, 98, 98, 10, 99, 10] [2, 1] = [98, 98, 10] := by decide

/-- A first line with 1023 bytes before its '\n' fills `buf`: every round
reads a part of it, `strchr` finds no '\n', and once `buf` holds all 1023
bytes the count is 0, `read` returns 0 and the loop ends, having written
nothing. -/
theorem grepLoop_long_line (pattern : List UInt8) {l : List UInt8} (hl : (10 : UInt8) ∉ l)
    (hlen : l.length = 1023) (rest : List UInt8) (fuel : Nat) :
    ∀ (k : Nat) (ks : List Nat), k ≤ 1023 →
      grepLoop pattern fuel (l.take k) (l.drop k ++ rest) ks = [] := by
  induction fuel with
  | zero => intro _ _ _; rfl
  | succ fuel ih =>
    intro k ks hk
    have hbuf : (l.take k).length = k := by rw [List.length_take]; omega
    have hcount := readLen_le_count (l.drop k ++ rest) (1024 - (l.take k).length - 1) (ks.headD 0)
    rw [grepLoop]
    dsimp only
    generalize readLen (l.drop k ++ rest) (1024 - (l.take k).length - 1) (ks.headD 0) = n at hcount ⊢
    rw [hbuf] at hcount
    by_cases hn : n = 0
    · rw [if_pos hn]
    rw [if_neg hn]
    -- the round reads bytes of `l` only
    have hdata : l.take k ++ (l.drop k ++ rest).take n = l.take (k + n) := by
      rw [List.take_append_of_le_length (by rw [List.length_drop]; omega), List.take_add]
    have hscan : scanLines pattern (l.take (k + n)) ((l.take (k + n)).length + 1) 0 = ([], 0) := by
      rw [scanLines, List.drop_zero,
        strchr_eq_none (fun h => hl (List.mem_of_mem_take h))]
    have hrest : (l.drop k ++ rest).drop n = l.drop (k + n) ++ rest := by
      rw [List.drop_append_of_le_length (by rw [List.length_drop]; omega), List.drop_drop]
    rw [hdata, hscan, if_pos (by rw [List.length_take]; omega)]
    dsimp only
    rw [compact_eq, List.drop_zero, hrest, ih (k + n) ks.tail (by omega)]
    rfl

/-- `grep a` over a line of 1023 'a's and the line "a": both lines match, but
`grep` writes nothing, however `read` splits the stream. -/
theorem grep_long_line_drops_input (ks : List Nat) :
    grep [97] (unlines [List.replicate 1023 97, [97]]) ks = [] ∧
      matchedLines [97] [List.replicate 1023 97, [97]] = unlines [List.replicate 1023 97, [97]] := by
  constructor
  · have hl : (10 : UInt8) ∉ List.replicate 1023 97 := fun h =>
      absurd (List.mem_replicate.mp h).2 (by decide)
    rw [grep]
    generalize (unlines [List.replicate 1023 97, [97]]).length + 1 = fuel
    have h := grepLoop_long_line [97] hl (List.length_replicate) (10 :: unlines [[97]]) fuel 0 ks
      (by omega)
    rw [List.take_zero, List.drop_zero] at h
    rw [unlines_cons]
    exact h
  · unfold matchedLines
    rw [List.filter_eq_self.mpr]
    intro l hl
    rcases List.mem_pair.mp hl with rfl | rfl <;> decide

end Xv6.Grep
