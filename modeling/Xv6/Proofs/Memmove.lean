import Xv6.Memmove

/-!
# Both memmoves move

Each `memmove` is one of the two loops of `Move`, chosen by its test, and the
test picks a loop that never writes a source byte it has still to read:

| placement                  | kernel test | kernel loop | user test | user loop  |
|----------------------------|-------------|-------------|-----------|------------|
| `dst + n ≤ src`            | false       | up          | true      | up         |
| `dst < src < dst + n`      | false       | up          | true      | up         |
| `src = dst`                | false       | up          | false     | down       |
| `src < dst < src + n`      | true        | down        | false     | down       |
| `src + n ≤ dst`            | false       | up          | false     | down       |

so both leave `Move.moved` (`memmove_eq_moved`, `User.memmove_eq_moved`).
-/

namespace Xv6

open Move

/-- The kernel's `memmove` moves the range, for every placement. -/
theorem memmove_eq_moved (m : Nat → UInt8) (dst src n : Nat) :
    memmove m dst src n = moved m dst src n := by
  unfold memmove
  by_cases hn : n = 0
  · rw [if_pos hn, hn, moved_zero]
  rw [if_neg hn]
  by_cases hover : src < dst ∧ src + n > dst
  · -- the source starts below and reaches into the destination
    rw [if_pos hover]
    exact copyDown_eq_moved n m dst src (Or.inl (Nat.le_of_lt hover.1))
  · rw [if_neg hover]
    exact copyUp_eq_moved n m dst src (by omega)

/-- The user `memmove` moves the range, for every placement; a count `n ≤ 0`
moves nothing. -/
theorem User.memmove_eq_moved (m : Nat → UInt8) (dst src : Nat) (n : Int) :
    User.memmove m dst src n = moved m dst src n.toNat := by
  unfold User.memmove
  by_cases habove : src > dst
  · rw [if_pos habove]
    exact copyUp_eq_moved _ m dst src (Or.inl (Nat.le_of_lt habove))
  · rw [if_neg habove]
    exact copyDown_eq_moved _ m dst src (Or.inl (Nat.le_of_not_lt habove))

/-- `memmove` is overlap-safe, in the kernel and in user space: the
destination receives the source's old bytes and nothing else changes. -/
theorem memmove_overlap_safe (m : Nat → UInt8) (dst src n : Nat) :
    (∀ i < n, memmove m dst src n (dst + i) = m (src + i)) ∧
    (∀ a, a < dst ∨ dst + n ≤ a → memmove m dst src n a = m a) ∧
    (∀ i < n, User.memmove m dst src n (dst + i) = m (src + i)) ∧
    (∀ a, a < dst ∨ dst + n ≤ a → User.memmove m dst src n a = m a) := by
  have htoNat : (n : Int).toNat = n := Int.toNat_natCast n
  refine ⟨fun i hi => ?_, fun a ha => ?_, fun i hi => ?_, fun a ha => ?_⟩
  · rw [memmove_eq_moved, moved_add hi]
  · rw [memmove_eq_moved, moved_of_not_mem ha]
  · rw [User.memmove_eq_moved, htoNat, moved_add hi]
  · rw [User.memmove_eq_moved, htoNat, moved_of_not_mem ha]

end Xv6
