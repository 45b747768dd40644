import Mathlib.Computability.Language

/-!
# Patterns of single-character atoms

The patterns a Kernighan–Pike matcher handles: a sequence of atoms, each a
character class (one character, or any character) taken once or starred.
The language of a pattern is the concatenation of the languages of its atoms,
as a `Language` of Mathlib; a starred class is the Kleene star of the words
of one character it accepts.

A matcher answers two questions about a text: whether a prefix of it is in
the language (`PrefixIn`, with the prefix required to be all of the text when
the pattern is anchored at the end), and whether some factor is
(`Occurs`, with the factor required to start the text when the pattern is
anchored at the start).  Each has the unrolling lemma a loop of the matcher
follows: `prefixIn_star` for the star, and `occurs_iff_exists_suffix`
with `exists_append_forall_iff` for the scan over suffixes.
-/

namespace Regex

open Computability

variable {α : Type*}

/-- A character class: one character, or any. -/
inductive Cls (α : Type*)
  | lit (a : α)
  | any

/-- The characters a class accepts. -/
def Cls.Accepts : Cls α → α → Prop
  | .lit a, x => x = a
  | .any, _ => True

instance [DecidableEq α] : (k : Cls α) → (x : α) → Decidable (k.Accepts x)
  | .lit a, x => inferInstanceAs (Decidable (x = a))
  | .any, _ => inferInstanceAs (Decidable True)

/-- An atom: a class once, or a class starred. -/
inductive Atom (α : Type*)
  | one (k : Cls α)
  | star (k : Cls α)

/-- The words of one character that `k` accepts. -/
def Cls.lang (k : Cls α) : Language α := {w | ∃ x, k.Accepts x ∧ w = [x]}

def Atom.lang : Atom α → Language α
  | .one k => k.lang
  | .star k => k.lang∗

/-- The language of a pattern: the concatenation of its atoms' languages. -/
def lang : List (Atom α) → Language α
  | [] => 1
  | a :: as => a.lang * lang as

theorem mem_lang_nil {w : List α} : w ∈ lang ([] : List (Atom α)) ↔ w = [] :=
  Language.mem_one w

theorem mem_cls_lang {k : Cls α} {w : List α} : w ∈ k.lang ↔ ∃ x, k.Accepts x ∧ w = [x] :=
  Iff.rfl

/-- A word is in the star of a class exactly when the class accepts each of
its characters. -/
theorem mem_kstar_cls {k : Cls α} {u : List α} : u ∈ k.lang∗ ↔ ∀ x ∈ u, k.Accepts x := by
  rw [Language.mem_kstar]
  constructor
  · rintro ⟨L, rfl, hL⟩ x hx
    obtain ⟨y, hy, hxy⟩ := List.mem_flatten.mp hx
    obtain ⟨x', hx', rfl⟩ := mem_cls_lang.mp (hL y hy)
    rw [List.mem_singleton.mp hxy]
    exact hx'
  · intro hu
    refine ⟨u.map fun x => [x], by rw [← List.flatMap_def, List.flatMap_singleton'], fun y hy => ?_⟩
    obtain ⟨x, hx, rfl⟩ := List.mem_map.mp hy
    exact ⟨x, hu x hx, rfl⟩

theorem mem_lang_one {k : Cls α} {as : List (Atom α)} {w : List α} :
    w ∈ lang (.one k :: as) ↔ ∃ x w', w = x :: w' ∧ k.Accepts x ∧ w' ∈ lang as := by
  simp only [lang, Atom.lang, Language.mem_mul, mem_cls_lang]
  constructor
  · rintro ⟨_, ⟨x, hx, rfl⟩, w', hw', rfl⟩
    exact ⟨x, w', rfl, hx, hw'⟩
  · rintro ⟨x, w', rfl, hx, hw'⟩
    exact ⟨[x], ⟨x, hx, rfl⟩, w', hw', rfl⟩

theorem mem_lang_star {k : Cls α} {as : List (Atom α)} {w : List α} :
    w ∈ lang (.star k :: as) ↔ ∃ u v, w = u ++ v ∧ (∀ x ∈ u, k.Accepts x) ∧ v ∈ lang as := by
  simp only [lang, Atom.lang, Language.mem_mul, mem_kstar_cls]
  constructor
  · rintro ⟨u, hu, v, hv, rfl⟩
    exact ⟨u, v, rfl, hu, hv⟩
  · rintro ⟨u, v, rfl, hu, hv⟩
    exact ⟨u, hu, v, hv, rfl⟩

/-- A list splits into a part whose members satisfy `P` and a rest with `Q`
exactly when it satisfies `Q`, or its head satisfies `P` and its tail so
splits: the step of a loop that tries the rest, then moves past one
character. -/
theorem exists_append_forall_iff {P : α → Prop} {Q : List α → Prop} {t : List α} :
    (∃ u v, t = u ++ v ∧ (∀ x ∈ u, P x) ∧ Q v) ↔
      Q t ∨ ∃ x t', t = x :: t' ∧ P x ∧ ∃ u v, t' = u ++ v ∧ (∀ x ∈ u, P x) ∧ Q v := by
  constructor
  · rintro ⟨u, v, rfl, hu, hv⟩
    cases u with
    | nil => exact .inl hv
    | cons x u =>
      exact .inr ⟨x, u ++ v, rfl, hu x List.mem_cons_self, u, v, rfl,
        fun y hy => hu y (List.mem_cons_of_mem x hy), hv⟩
  · rintro (hq | ⟨x, t', rfl, hx, u, v, rfl, hu, hv⟩)
    · exact ⟨[], t, rfl, by simp, hq⟩
    · refine ⟨x :: u, v, rfl, fun y hy => ?_, hv⟩
      rcases List.mem_cons.mp hy with rfl | hy
      · exact hx
      · exact hu y hy

/-! ## Prefixes and factors in a language -/

/-- Some prefix of `t` is in `L`; all of `t` when `e` anchors the end. -/
def PrefixIn (L : Language α) (e : Bool) (t : List α) : Prop :=
  ∃ u v, t = u ++ v ∧ u ∈ L ∧ (e = true → v = [])

/-- Some factor of `t` is in `L`; a prefix when `b` anchors the start, a
suffix when `e` anchors the end. -/
def Occurs (L : Language α) (b e : Bool) (t : List α) : Prop :=
  ∃ w u v, t = w ++ u ++ v ∧ (b = true → w = []) ∧ u ∈ L ∧ (e = true → v = [])

theorem prefixIn_nil {e : Bool} {t : List α} :
    PrefixIn (lang ([] : List (Atom α))) e t ↔ (e = true → t = []) := by
  simp only [PrefixIn, mem_lang_nil]
  constructor
  · rintro ⟨u, v, rfl, rfl, hv⟩
    simpa using hv
  · intro ht
    exact ⟨[], t, rfl, rfl, ht⟩

theorem prefixIn_one {k : Cls α} {as : List (Atom α)} {e : Bool} {t : List α} :
    PrefixIn (lang (.one k :: as)) e t ↔
      ∃ x t', t = x :: t' ∧ k.Accepts x ∧ PrefixIn (lang as) e t' := by
  simp only [PrefixIn, mem_lang_one]
  constructor
  · rintro ⟨_, v, rfl, ⟨x, w', rfl, hx, hw'⟩, hv⟩
    exact ⟨x, w' ++ v, rfl, hx, w', v, rfl, hw', hv⟩
  · rintro ⟨x, t', rfl, hx, w', v, rfl, hw', hv⟩
    exact ⟨x :: w', v, rfl, ⟨x, w', rfl, hx, hw'⟩, hv⟩

/-- A prefix in the language of a starred class followed by `as` is a run of
accepted characters followed by a prefix in the language of `as`. -/
theorem prefixIn_star {k : Cls α} {as : List (Atom α)} {e : Bool} {t : List α} :
    PrefixIn (lang (.star k :: as)) e t ↔
      ∃ u v, t = u ++ v ∧ (∀ x ∈ u, k.Accepts x) ∧ PrefixIn (lang as) e v := by
  simp only [PrefixIn, mem_lang_star]
  constructor
  · rintro ⟨_, v, rfl, ⟨u₁, u₂, rfl, hu₁, hu₂⟩, hv⟩
    exact ⟨u₁, u₂ ++ v, by rw [List.append_assoc], hu₁, u₂, v, rfl, hu₂, hv⟩
  · rintro ⟨u₁, _, rfl, hu₁, u₂, v, rfl, hu₂, hv⟩
    exact ⟨u₁ ++ u₂, v, by rw [List.append_assoc], ⟨u₁, u₂, rfl, hu₁, hu₂⟩, hv⟩

/-- A factor occurs when a suffix has a prefix in the language; the suffix is
all of `t` when the start is anchored. -/
theorem occurs_iff_exists_suffix {L : Language α} {b e : Bool} {t : List α} :
    Occurs L b e t ↔ ∃ w v, t = w ++ v ∧ (b = true → w = []) ∧ PrefixIn L e v := by
  simp only [Occurs, PrefixIn]
  constructor
  · rintro ⟨w, u, v, rfl, hw, hu, hv⟩
    exact ⟨w, u ++ v, by rw [List.append_assoc], hw, u, v, rfl, hu, hv⟩
  · rintro ⟨w, _, rfl, hw, u, v, rfl, hu, hv⟩
    exact ⟨w, u, v, by rw [List.append_assoc], hw, hu, hv⟩

end Regex
