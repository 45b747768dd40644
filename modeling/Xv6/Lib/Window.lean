import Mathlib.Data.Nat.ModEq
import Mathlib.Logic.Function.Basic

/-!
# Windows of a ring buffer

A ring of `n` slots is written at increasing positions, position `a` in slot
`a % n`: a producer writes at its counter and moves it on, a consumer reads at
its own.  The `len` entries from position `a` on are a window of the ring.
This file gives the laws of windows that a producer and a consumer rely on:
the entry at the front is taken by moving the start on, an entry written one
past the end of a window shorter than the ring extends it and disturbs
nothing, and counters that wrap at a multiple of `n` name the same slots.
-/

namespace Window

variable {α : Type*} {n : Nat} [NeZero n]

/-- The slot of position `a`. -/
def slot (n : Nat) [NeZero n] (a : Nat) : Fin n :=
  ⟨a % n, Nat.mod_lt _ (Nat.pos_of_neZero n)⟩

/-- The entries at positions `a, …, a + len - 1`. -/
def read (ring : Fin n → α) (a len : Nat) : List α :=
  (List.range len).map fun k => ring (slot n (a + k))

variable (ring : Fin n → α)

@[simp] theorem length_read (a len : Nat) : (read ring a len).length = len := by
  simp [read]

@[simp] theorem read_zero (a : Nat) : read ring a 0 = [] := rfl

/-- The last entry of a window. -/
theorem read_succ (a len : Nat) :
    read ring a (len + 1) = read ring a len ++ [ring (slot n (a + len))] := by
  simp [read, List.range_succ]

/-- The first entry of a window, and the window from the next position. -/
theorem read_succ_front (a len : Nat) :
    read ring a (len + 1) = ring (slot n a) :: read ring (a + 1) len := by
  simp only [read, List.range_succ_eq_map, List.map_cons, List.map_map, Nat.add_zero]
  congr 1
  apply List.map_congr_left
  intro k _
  simp only [Function.comp_apply]
  rw [Nat.add_succ, Nat.succ_add]

theorem slot_mod {m : Nat} (hm : n ∣ m) (a : Nat) : slot n (a % m) = slot n a := by
  ext
  simp [slot, Nat.mod_mod_of_dvd _ hm]

theorem slot_add_mod {m : Nat} (hm : n ∣ m) (a k : Nat) : slot n (a % m + k) = slot n (a + k) := by
  rw [← slot_mod hm (a % m + k), ← slot_mod hm (a + k), Nat.add_mod, Nat.mod_mod,
    ← Nat.add_mod]

/-- Counters that wrap at a multiple of `n` read the same window. -/
theorem read_mod {m : Nat} (hm : n ∣ m) (a len : Nat) : read ring (a % m) len = read ring a len := by
  unfold read
  apply List.map_congr_left
  intro k _
  rw [slot_add_mod hm]

/-- Two positions of a window shorter than the ring are in different slots. -/
theorem slot_ne {a j k : Nat} (hj : j < k) (hk : k < n) : slot n (a + j) ≠ slot n (a + k) := by
  intro h
  have hmod : a + j ≡ a + k [MOD n] := congrArg Fin.val h
  have hjk := Nat.ModEq.eq_of_lt_of_lt (Nat.ModEq.add_left_cancel' a hmod) (by omega) hk
  omega

/-- Writing one past the end of a window shorter than the ring leaves it alone. -/
theorem read_update_end {a len : Nat} (hlen : len < n) (v : α) :
    read (Function.update ring (slot n (a + len)) v) a len = read ring a len := by
  unfold read
  apply List.map_congr_left
  intro k hk
  rw [List.mem_range] at hk
  exact Function.update_of_ne (slot_ne hk hlen) _ _

/-- Writing one past the end of a window shorter than the ring, and moving the
end on, appends the entry. -/
theorem read_push {a len : Nat} (hlen : len < n) (v : α) :
    read (Function.update ring (slot n (a + len)) v) a (len + 1) = read ring a len ++ [v] := by
  rw [read_succ, read_update_end ring hlen, Function.update_self]

end Window
