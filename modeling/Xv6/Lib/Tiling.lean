import Mathlib

/-!
# Blocks that tile an interval

A list of start addresses `B` and a length for each start (`len`) tile the
interval `[lo, hi)` when the blocks are non-empty, inside the interval,
pairwise apart, and their lengths add up to its length (`Tiles`).  This is how
an allocator that neither loses nor doubles memory leaves its arena: every
byte lies in exactly one block.

The operations of an allocator on its blocks each keep a tiling: merging a
block into the one that ends where it starts (`Tiles.merge`), cutting the tail
off a block (`Tiles.split`), and adding a block at the top as the arena grows
(`Tiles.grow`).  The order of the list does not matter (`Tiles.perm`), and the
lengths of blocks the operation does not touch are read the same before and
after (`Tiles.congr`).
-/

namespace Tiling

variable {len len' : Nat → Nat} {lo hi : Nat} {B : List Nat} {x y w : Nat}

/-- The blocks at `x` and `y` do not overlap. -/
def Apart (len : Nat → Nat) (x y : Nat) : Prop := x + len x ≤ y ∨ y + len y ≤ x

theorem Apart.symm : Apart len x y → Apart len y x := Or.symm

/-- The blocks that start at `B`, of lengths `len`, tile `[lo, hi)`. -/
structure Tiles (len : Nat → Nat) (lo hi : Nat) (B : List Nat) : Prop where
  pos : ∀ x ∈ B, 0 < len x
  lo_le : ∀ x ∈ B, lo ≤ x
  le_hi : ∀ x ∈ B, x + len x ≤ hi
  apart : B.Pairwise (Apart len)
  sum : lo + (B.map len).sum = hi

/-- No blocks tile an empty interval. -/
theorem tiles_nil : Tiles len lo lo [] :=
  ⟨by simp, by simp, by simp, .nil, by simp⟩

namespace Tiles

/-- The order of the blocks does not matter. -/
theorem perm (h : Tiles len lo hi B) {B' : List Nat} (hp : B.Perm B') : Tiles len lo hi B' where
  pos x hx := h.pos x (hp.mem_iff.mpr hx)
  lo_le x hx := h.lo_le x (hp.mem_iff.mpr hx)
  le_hi x hx := h.le_hi x (hp.mem_iff.mpr hx)
  apart := h.apart.perm hp Apart.symm
  sum := by rw [← (hp.map len).sum_nat, h.sum]

/-- Only the lengths of the blocks are read. -/
theorem congr (h : Tiles len lo hi B) (hl : ∀ x ∈ B, len' x = len x) : Tiles len' lo hi B where
  pos x hx := hl x hx ▸ h.pos x hx
  lo_le := h.lo_le
  le_hi x hx := hl x hx ▸ h.le_hi x hx
  apart := h.apart.imp_of_mem fun hx hy hxy => by
    unfold Apart at hxy ⊢
    rw [hl _ hx, hl _ hy]
    exact hxy
  sum := by rw [List.map_congr_left hl, h.sum]

/-- Two blocks of a tiling are apart. -/
theorem apart_of_mem (h : Tiles len lo hi B) (hx : x ∈ B) (hy : y ∈ B) (hne : x ≠ y) :
    Apart len x y :=
  have : Std.Symm (Apart len) := ⟨fun _ _ => Apart.symm⟩
  h.apart.forall hx hy hne

/-- A block starts below the top of the interval. -/
theorem lt_hi (h : Tiles len lo hi B) (hx : x ∈ B) : x < hi := by
  have := h.pos x hx
  have := h.le_hi x hx
  omega

/-- No block starts inside another. -/
theorem not_mem_of_inside (h : Tiles len lo hi B) (hx : x ∈ B) (hlo : x < w)
    (hhi : w < x + len x) : w ∉ B := by
  intro hw
  have := h.pos w hw
  rcases h.apart_of_mem hx hw (by omega) with hapart | hapart <;> omega

/-- Blocks are at distinct starts. -/
theorem nodup (h : Tiles len lo hi B) : B.Nodup :=
  h.apart.imp_of_mem fun hx _ hxy hxe => by
    subst hxe
    have := h.pos _ hx
    rcases hxy with hxy | hxy <;> omega

/-- Blocks of at least `w` bytes each: no more of them than fit. -/
theorem length_mul_le (h : Tiles len lo hi B) (hw : ∀ x ∈ B, w ≤ len x) :
    lo + B.length * w ≤ hi := by
  have hle := List.card_nsmul_le_sum (B.map len) w (by simpa using hw)
  simp only [List.length_map, Nat.nsmul_eq_mul] at hle
  have := h.sum
  omega

/-- A block that ends where the next starts takes it in. -/
theorem merge (h : Tiles len lo hi (x :: y :: B)) (hxy : x + len x = y)
    (hx : len' x = len x + len y) (hB : ∀ z ∈ B, len' z = len z) :
    Tiles len' lo hi (x :: B) := by
  have hpos := h.pos
  have hapart := h.apart
  simp only [List.mem_cons, forall_eq_or_imp, List.pairwise_cons] at hpos hapart
  refine ⟨?_, ?_, ?_, ?_, ?_⟩
  · simp only [List.mem_cons, forall_eq_or_imp]
    exact ⟨by omega, fun z hz => hB z hz ▸ hpos.2.2 z hz⟩
  · exact fun z hz => h.lo_le z (by simp at hz ⊢; tauto)
  · simp only [List.mem_cons, forall_eq_or_imp]
    refine ⟨by have := h.le_hi y (by simp); omega, fun z hz => ?_⟩
    rw [hB z hz]
    exact h.le_hi z (by simp [hz])
  · -- a block apart from both halves is apart from the merged one
    rw [List.pairwise_cons]
    refine ⟨fun z hz => ?_, (hapart.2.2.imp_of_mem fun ha hb hab => ?_)⟩
    · have h₁ := hapart.1.2 z hz
      have h₂ := hapart.2.1 z hz
      have h₃ := hpos.2.2 z hz
      unfold Apart at h₁ h₂ ⊢
      rw [hx, hB z hz]
      omega
    · unfold Apart at hab ⊢
      rw [hB _ ha, hB _ hb]
      exact hab
  · have := h.sum
    simp only [List.map_cons, List.sum_cons] at this ⊢
    rw [hx, List.map_congr_left hB]
    omega

/-- Cutting a block at `a`: the front keeps the start, the tail starts at `x + a`. -/
theorem split (h : Tiles len lo hi (x :: B)) {a : Nat} (ha : 0 < a) (hlt : a < len x)
    (hx : len' x = a) (htail : len' (x + a) = len x - a) (hB : ∀ z ∈ B, len' z = len z) :
    Tiles len' lo hi (x :: (x + a) :: B) := by
  have hpos := h.pos
  have hapart := h.apart
  simp only [List.mem_cons, forall_eq_or_imp, List.pairwise_cons] at hpos hapart
  have hlo := h.lo_le x (by simp)
  have hhi := h.le_hi x (by simp)
  refine ⟨?_, ?_, ?_, ?_, ?_⟩
  · simp only [List.mem_cons, forall_eq_or_imp]
    exact ⟨by omega, by omega, fun z hz => hB z hz ▸ hpos.2 z hz⟩
  · simp only [List.mem_cons, forall_eq_or_imp]
    exact ⟨hlo, by omega, fun z hz => h.lo_le z (by simp [hz])⟩
  · simp only [List.mem_cons, forall_eq_or_imp]
    refine ⟨by omega, by omega, fun z hz => ?_⟩
    rw [hB z hz]
    exact h.le_hi z (by simp [hz])
  · -- both pieces lie inside the old block, which the others are apart from
    simp only [List.pairwise_cons, List.mem_cons, forall_eq_or_imp]
    refine ⟨⟨by unfold Apart; omega, fun z hz => ?_⟩, fun z hz => ?_,
      hapart.2.imp_of_mem fun ha hb hab => ?_⟩
    · have := hapart.1 z hz
      unfold Apart at this ⊢
      rw [hx, hB z hz]
      omega
    · have := hapart.1 z hz
      unfold Apart at this ⊢
      rw [htail, hB z hz]
      omega
    · unfold Apart at hab ⊢
      rw [hB _ ha, hB _ hb]
      exact hab
  · have := h.sum
    simp only [List.map_cons, List.sum_cons] at this ⊢
    rw [hx, htail, List.map_congr_left hB]
    omega

/-- A block added at the top extends the interval by its length. -/
theorem grow (h : Tiles len lo hi B) (hpos : 0 < len' hi) (hB : ∀ z ∈ B, len' z = len z) :
    Tiles len' lo (hi + len' hi) (hi :: B) := by
  have h' := h.congr hB
  have hlo : lo ≤ hi := by
    have := h.sum
    omega
  refine ⟨?_, ?_, ?_, ?_, ?_⟩
  · simp only [List.mem_cons, forall_eq_or_imp]
    exact ⟨hpos, h'.pos⟩
  · simp only [List.mem_cons, forall_eq_or_imp]
    exact ⟨hlo, h'.lo_le⟩
  · simp only [List.mem_cons, forall_eq_or_imp]
    exact ⟨Nat.le_refl _, fun z hz => Nat.le_trans (h'.le_hi z hz) (by omega)⟩
  · -- every old block ends at or below the old top
    refine List.Pairwise.cons (fun z hz => .inr (h'.le_hi z hz)) h'.apart
  · have := h'.sum
    simp only [List.map_cons, List.sum_cons]
    omega

end Tiles

end Tiling
