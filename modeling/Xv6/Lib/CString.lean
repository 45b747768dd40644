import Mathlib.Data.List.TakeWhile
import Mathlib.Data.List.Basic

/-!
# Bounded C-string functions

`strncmp` and `strncpy` over byte lists.  A list stands for the bytes at a
`char *`; its end reads as a NUL, so a list without zeros is a C string whose
terminator follows it.  The value of such a string is `str p`, its bytes before
the first NUL, and the lemmas say what the two functions do to values:
`strncmp` compares the first `n` bytes of the values, and `strncpy` stores the
first `n` bytes of a value, padded with NULs.
-/

namespace CString

/-- The bytes before the first NUL. -/
def str (p : List UInt8) : List UInt8 := p.takeWhile (· ≠ 0)

/-- `strncmp(p, q, n)`: the loop advances while `n > 0` and `*p` is a non-NUL
byte equal to `*q`; the result is `0` when `n` runs out, otherwise the
difference of the two bytes as unsigned chars. -/
def strncmp : List UInt8 → List UInt8 → Nat → Int
  | _, _, 0 => 0
  | p, q, n + 1 =>
    if p.headD 0 ≠ 0 ∧ p.headD 0 = q.headD 0 then strncmp p.tail q.tail n
    else (p.headD 0).toNat - (q.headD 0).toNat

/-- `strncpy(dst, src, n)` as the `n` bytes it leaves in `dst`: the bytes of
`src` up to its NUL, then NULs. -/
def strncpy (src : List UInt8) (n : Nat) : List UInt8 :=
  (str src ++ List.replicate n 0).take n

@[simp] theorem str_nil : str [] = [] := rfl

theorem str_cons_of_ne {a : UInt8} (ha : a ≠ 0) (p : List UInt8) :
    str (a :: p) = a :: str p := by
  simp [str, ha]

theorem str_cons_zero (p : List UInt8) : str (0 :: p) = [] := by
  simp [str]

theorem zero_not_mem_str (p : List UInt8) : (0 : UInt8) ∉ str p := by
  intro h
  simpa using List.mem_takeWhile_imp h

theorem str_of_zero_not_mem {p : List UInt8} (h : (0 : UInt8) ∉ p) : str p = p :=
  List.takeWhile_eq_self_iff.mpr fun a ha => by
    simpa using ne_of_mem_of_not_mem ha h

@[simp] theorem str_str (p : List UInt8) : str (str p) = str p :=
  str_of_zero_not_mem (zero_not_mem_str p)

theorem str_append_of_zero_not_mem {p : List UInt8} (h : (0 : UInt8) ∉ p) (q : List UInt8) :
    str (p ++ q) = p ++ str q :=
  List.takeWhile_append_of_pos fun a ha => by
    simpa using ne_of_mem_of_not_mem ha h

/-- `strncpy` keeps the first `n` bytes of the value, and pads with NULs. -/
theorem str_strncpy (p : List UInt8) (n : Nat) : str (strncpy p n) = (str p).take n := by
  have hz : (0 : UInt8) ∉ (str p).take n := fun h => zero_not_mem_str p (List.mem_of_mem_take h)
  unfold strncpy
  rw [List.take_append, str_append_of_zero_not_mem hz, List.take_replicate]
  cases h : min (n - (str p).length) n with
  | zero => simp
  | succ k => simp [List.replicate_succ, str_cons_zero]

/-- The head of `p` is the head of its value unless it is the NUL. -/
theorem headD_str (p : List UInt8) : (str p).headD 0 = p.headD 0 := by
  cases p with
  | nil => rfl
  | cons a p =>
    by_cases ha : a = 0
    · subst ha
      simp [str_cons_zero]
    · simp [str_cons_of_ne ha]

theorem str_eq_nil_of_headD {p : List UInt8} (h : p.headD 0 = 0) : str p = [] := by
  cases p with
  | nil => rfl
  | cons a p =>
    simp only [List.headD_cons] at h
    subst h
    exact str_cons_zero p

theorem tail_str_of_headD_ne {p : List UInt8} (h : p.headD 0 ≠ 0) :
    (str p).tail = str p.tail := by
  cases p with
  | nil => simp at h
  | cons a p => simp [str_cons_of_ne (by simpa using h)]

/-- `strncmp` returns `0` exactly when the values agree on their first `n`
bytes. -/
theorem strncmp_eq_zero_iff (p q : List UInt8) (n : Nat) :
    strncmp p q n = 0 ↔ (str p).take n = (str q).take n := by
  induction n generalizing p q with
  | zero => simp [strncmp]
  | succ n ih =>
    unfold strncmp
    by_cases hstep : p.headD 0 ≠ 0 ∧ p.headD 0 = q.headD 0
    · -- the loop advances: both values start with the same non-NUL byte
      obtain ⟨hp, hpq⟩ := hstep
      have hq : q.headD 0 ≠ 0 := hpq ▸ hp
      rw [if_pos ⟨hp, hpq⟩, ih]
      cases p with
      | nil => simp at hp
      | cons a p =>
        cases q with
        | nil => simp at hq
        | cons b q =>
          simp only [List.headD_cons] at hp hq hpq
          subst hpq
          simp [str_cons_of_ne hp]
    · -- the loop stops on a NUL or on differing bytes
      rw [if_neg hstep]
      constructor
      · intro h
        have hbytes : p.headD 0 = q.headD 0 := UInt8.toNat_inj.mp (by omega)
        have hp : p.headD 0 = 0 := by
          by_contra hp
          exact hstep ⟨hp, hbytes⟩
        rw [str_eq_nil_of_headD hp, str_eq_nil_of_headD (hbytes ▸ hp)]
      · intro h
        have hheads : (str p).headD 0 = (str q).headD 0 := by
          cases hsp : str p with
          | nil =>
            cases hsq : str q with
            | nil => rfl
            | cons b q' => simp [hsp, hsq] at h
          | cons a p' =>
            cases hsq : str q with
            | nil => simp [hsp, hsq] at h
            | cons b q' =>
              simp only [hsp, hsq, List.take_succ_cons, List.cons.injEq] at h
              simp [h.1]
        rw [headD_str, headD_str] at hheads
        have hp : p.headD 0 = 0 := by
          by_contra hp
          exact hstep ⟨hp, hheads⟩
        rw [hheads, Int.sub_self]

end CString
