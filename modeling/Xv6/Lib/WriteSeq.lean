import Mathlib.Logic.Function.Basic
import Mathlib.Order.Basic

/-!
# Sequences of atomic writes, and what a crash leaves of them

A store maps locations to values.  A program that changes it by a sequence of
atomic, synchronous writes, each choosing its location and its value from the
store as it stands when the write is issued, is a list of `Write`s.  A crash
after the first `k` writes leaves `crash ws k s`: a prefix has reached the store
and nothing else has.

The lemmas split a crash of a concatenation and of a counted loop into crashes
of the parts, and lift a property that every write keeps to every crash point.
-/

namespace WriteSeq

variable {κ β : Type*}

/-- One atomic write: from the current store, the location written and its new
value. -/
def Write (κ β : Type*) : Type _ := (κ → β) → κ × β

/-- The writes of `for (i = 0; i < n; i++) body(i)`, where each iteration makes
one write. -/
def loop (n : Nat) (body : Nat → Write κ β) : List (Write κ β) :=
  (List.range n).map body

@[simp] theorem length_loop (n : Nat) (body : Nat → Write κ β) :
    (loop n body).length = n := by
  simp [loop]

theorem loop_succ (n : Nat) (body : Nat → Write κ β) :
    loop (n + 1) body = loop n body ++ [body n] := by
  simp [loop, List.range_succ]

variable [DecidableEq κ]

/-- Perform one write. -/
def Write.apply (w : Write κ β) (s : κ → β) : κ → β :=
  Function.update s (w s).1 (w s).2

/-- Perform the writes in order. -/
def run : List (Write κ β) → (κ → β) → κ → β
  | [], s => s
  | w :: ws, s => run ws (w.apply s)

/-- The store a crash leaves after the first `k` writes of `ws`. -/
def crash (ws : List (Write κ β)) (k : Nat) (s : κ → β) : κ → β :=
  run (ws.take k) s

theorem Write.apply_apply (w : Write κ β) (s : κ → β) (x : κ) :
    w.apply s x = if x = (w s).1 then (w s).2 else s x :=
  Function.update_apply s _ _ x

@[simp] theorem run_nil (s : κ → β) : run ([] : List (Write κ β)) s = s := rfl

@[simp] theorem run_cons (w : Write κ β) (ws : List (Write κ β)) (s : κ → β) :
    run (w :: ws) s = run ws (w.apply s) := rfl

@[simp] theorem run_append (ws₁ ws₂ : List (Write κ β)) (s : κ → β) :
    run (ws₁ ++ ws₂) s = run ws₂ (run ws₁ s) := by
  induction ws₁ generalizing s with
  | nil => rfl
  | cons w ws ih => exact ih (w.apply s)

/-! ## Crash points -/

theorem crash_zero (ws : List (Write κ β)) (s : κ → β) : crash ws 0 s = s := by
  simp [crash]

theorem crash_of_length_le {ws : List (Write κ β)} {k : Nat} (h : ws.length ≤ k) (s : κ → β) :
    crash ws k s = run ws s := by
  simp [crash, List.take_of_length_le h]

/-- A crash inside `ws₁ ++ ws₂` is a crash inside `ws₂` after a crash inside
`ws₁`; the second is the empty one while the first has not finished. -/
theorem crash_append (ws₁ ws₂ : List (Write κ β)) (k : Nat) (s : κ → β) :
    crash (ws₁ ++ ws₂) k s = crash ws₂ (k - ws₁.length) (crash ws₁ k s) := by
  simp [crash, List.take_append]

/-- A crash inside `ws₁ ++ ws₂` either stops inside `ws₁` or completes it. -/
theorem crash_append_cases (ws₁ ws₂ : List (Write κ β)) (k : Nat) (s : κ → β) :
    crash (ws₁ ++ ws₂) k s = crash ws₁ k s ∨
      ∃ j, crash (ws₁ ++ ws₂) k s = crash ws₂ j (run ws₁ s) := by
  rw [crash_append]
  by_cases hk : k ≤ ws₁.length
  · left
    rw [Nat.sub_eq_zero_of_le hk, crash_zero]
  · right
    have hfirst : crash ws₁ k s = run ws₁ s := crash_of_length_le (by omega) s
    exact ⟨k - ws₁.length, by rw [hfirst]⟩

/-- A crash inside a single write either misses it or sees it. -/
theorem crash_singleton (w : Write κ β) (k : Nat) (s : κ → β) :
    crash [w] k s = s ∨ crash [w] k s = w.apply s := by
  cases k with
  | zero => exact .inl (crash_zero _ _)
  | succ k => exact .inr (by simp [crash])

/-! ## Counted loops -/

theorem run_loop_succ (n : Nat) (body : Nat → Write κ β) (s : κ → β) :
    run (loop (n + 1) body) s = (body n).apply (run (loop n body) s) := by
  simp [loop_succ]

/-- A crash inside a loop has run its first iterations. -/
theorem crash_loop (n : Nat) (body : Nat → Write κ β) (k : Nat) (s : κ → β) :
    crash (loop n body) k s = run (loop (min k n) body) s := by
  simp [crash, loop, ← List.map_take, List.take_range]

/-- Loop induction: a property of the store together with the iteration count
that the start satisfies and every iteration below `n` keeps holds after every
prefix of the loop. -/
theorem run_loop_induction {n : Nat} {body : Nat → Write κ β} {P : Nat → (κ → β) → Prop}
    {s : κ → β} (h0 : P 0 s)
    (hstep : ∀ j t, j < n → P j t → P (j + 1) ((body j).apply t)) :
    ∀ j ≤ n, P j (run (loop j body) s) := by
  intro j hj
  induction j with
  | zero => exact h0
  | succ j ih =>
      rw [run_loop_succ]
      exact hstep j _ (by omega) (ih (by omega))

end WriteSeq
