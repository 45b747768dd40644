import Mathlib.Logic.Function.Basic

/-!
# Copying a range of cells, upwards and downwards

A memory is a map from addresses to cells, `Nat → α`.  Moving `n` cells from
`src` to `dst` should leave

```text
moved m dst src n a = m (src + (a - dst))   for dst ≤ a < dst + n
                    = m a                   otherwise
```

that is, the destination holds what the source held before the move, and no
other cell changes.  A copy loop reads the source while it writes the
destination, so it computes `moved` only when it never writes a cell it has
still to read:

| loop       | walks                 | correct when                     |
|------------|-----------------------|----------------------------------|
| `copyUp`   | `dst, dst + 1, ...`   | `dst ≤ src` or `src + n ≤ dst`   |
| `copyDown` | `dst + n - 1, ..., dst` | `src ≤ dst` or `dst + n ≤ src` |

Each is proved by induction on the count with the memory generalised: one
write of the loop turns the move of the remaining cells into the move of all
of them (`moved_update_low`, `moved_update_high`).  The side conditions say
that the cell written is not one of the sources still to read.
-/

namespace Move

variable {α : Type*}

/-- What a move of `n` cells from `src` to `dst` leaves in memory. -/
def moved (m : Nat → α) (dst src n : Nat) : Nat → α :=
  fun a => if dst ≤ a ∧ a < dst + n then m (src + (a - dst)) else m a

/-- `while(n-- > 0) *d++ = *s++;` from `d` and `s`. -/
def copyUp (m : Nat → α) (d s : Nat) : Nat → Nat → α
  | 0 => m
  | n + 1 => copyUp (Function.update m d (m s)) (d + 1) (s + 1) n

/-- `while(n-- > 0) *--d = *--s;` from the ends `d` and `s`. -/
def copyDown (m : Nat → α) (d s : Nat) : Nat → Nat → α
  | 0 => m
  | n + 1 => copyDown (Function.update m (d - 1) (m (s - 1))) (d - 1) (s - 1) n

theorem moved_of_mem {m : Nat → α} {dst src n a : Nat} (h₁ : dst ≤ a) (h₂ : a < dst + n) :
    moved m dst src n a = m (src + (a - dst)) := by
  simp [moved, h₁, h₂]

theorem moved_of_not_mem {m : Nat → α} {dst src n a : Nat} (h : a < dst ∨ dst + n ≤ a) :
    moved m dst src n a = m a := by
  unfold moved
  rw [if_neg (by omega)]

/-- Cell `i` of the destination holds cell `i` of the source. -/
theorem moved_add {m : Nat → α} {dst src n i : Nat} (hi : i < n) :
    moved m dst src n (dst + i) = m (src + i) := by
  rw [moved_of_mem (Nat.le_add_right dst i) (by omega), Nat.add_sub_cancel_left]

@[simp] theorem moved_zero (m : Nat → α) (dst src : Nat) : moved m dst src 0 = m := by
  funext a
  exact moved_of_not_mem (by omega)

/-- Writing the first cell, then moving the rest, moves all of them, provided
the first cell is none of the rest's sources. -/
theorem moved_update_low (m : Nat → α) (dst src n : Nat)
    (hsafe : ∀ i < n, src + 1 + i ≠ dst) :
    moved (Function.update m dst (m src)) (dst + 1) (src + 1) n = moved m dst src (n + 1) := by
  funext a
  by_cases hfirst : a = dst
  · -- the cell the loop just wrote
    subst hfirst
    rw [moved_of_not_mem (by omega), moved_of_mem (Nat.le_refl _) (by omega), Function.update_self,
      Nat.sub_self, Nat.add_zero]
  by_cases hin : dst + 1 ≤ a ∧ a < dst + 1 + n
  · -- a cell of the rest: its source was not overwritten
    have hsrc : src + 1 + (a - (dst + 1)) ≠ dst := hsafe _ (by omega)
    rw [moved_of_mem hin.1 hin.2, moved_of_mem (by omega) (by omega),
      Function.update_of_ne hsrc]
    congr 1
    omega
  · rw [moved_of_not_mem (by omega), moved_of_not_mem (by omega), Function.update_of_ne hfirst]

/-- Writing the last cell, then moving the ones below it, moves all of them,
provided the last cell is none of their sources. -/
theorem moved_update_high (m : Nat → α) (dst src n : Nat)
    (hsafe : ∀ i < n, src + i ≠ dst + n) :
    moved (Function.update m (dst + n) (m (src + n))) dst src n = moved m dst src (n + 1) := by
  funext a
  by_cases hlast : a = dst + n
  · -- the cell the loop just wrote
    subst hlast
    rw [moved_of_not_mem (by omega), moved_of_mem (by omega) (by omega), Function.update_self,
      Nat.add_sub_cancel_left]
  by_cases hin : dst ≤ a ∧ a < dst + n
  · -- a cell below: its source was not overwritten
    rw [moved_of_mem hin.1 hin.2, moved_of_mem hin.1 (by omega),
      Function.update_of_ne (hsafe _ (by omega))]
  · rw [moved_of_not_mem (by omega), moved_of_not_mem (by omega), Function.update_of_ne hlast]

/-- The upward loop moves the range when it never writes a source it has
still to read. -/
theorem copyUp_eq_moved (n : Nat) :
    ∀ (m : Nat → α) (dst src : Nat), dst ≤ src ∨ src + n ≤ dst →
      copyUp m dst src n = moved m dst src n := by
  induction n with
  | zero => intro m dst src _; rw [copyUp, moved_zero]
  | succ n ih =>
    intro m dst src hplace
    rw [copyUp, ih _ _ _ (by omega)]
    exact moved_update_low m dst src n (fun i _ => by omega)

/-- The downward loop, started from the ends, moves the range when it never
writes a source it has still to read. -/
theorem copyDown_eq_moved (n : Nat) :
    ∀ (m : Nat → α) (dst src : Nat), src ≤ dst ∨ dst + n ≤ src →
      copyDown m (dst + n) (src + n) n = moved m dst src n := by
  induction n with
  | zero => intro m dst src _; rw [copyDown, moved_zero]
  | succ n ih =>
    intro m dst src hplace
    have hd : dst + (n + 1) - 1 = dst + n := by omega
    have hs : src + (n + 1) - 1 = src + n := by omega
    rw [copyDown, hd, hs, ih _ _ _ (by omega)]
    exact moved_update_high m dst src n (fun i _ => by omega)

end Move
