import Mathlib.Logic.Relation
import Mathlib.Data.List.Dedup

/-!
# Reachability by rounds of search

The points reachable from a list of starts along a successor function `next`
are those the reflexive-transitive closure of `Succ next` relates to a start.
`search` computes them in rounds, each of which adds the successors of what has
been seen.  Whatever the number of rounds, what the search has seen is
reachable; once it is closed under `next`, which is decidable, it is everything
that is reachable, and it lists each point once.
-/

namespace Reach

open Relation

variable {α : Type*} (next : α → List α)

/-- `b` is one of the successors of `a`. -/
def Succ (a b : α) : Prop := b ∈ next a

/-- A list that holds the successors of each of its members. -/
def Closed (l : List α) : Prop := ∀ a ∈ l, ∀ b ∈ next a, b ∈ l

/-- A closed list that holds `a` holds everything reachable from `a`. -/
theorem mem_of_reach {next} {l : List α} (hc : Closed next l) {a b : α} (ha : a ∈ l)
    (h : ReflTransGen (Succ next) a b) : b ∈ l := by
  induction h with
  | refl => exact ha
  | tail _ hbc ih => exact hc _ ih _ hbc

variable [DecidableEq α]

instance (l : List α) : Decidable (Closed next l) := by
  unfold Closed
  infer_instance

/-- One round: the successors of `seen` that are not yet in it, once each. -/
def expand (seen : List α) : List α :=
  seen ++ ((seen.flatMap next).filter (· ∉ seen)).dedup

/-- `k` rounds of the search from `seen`. -/
def search : Nat → List α → List α
  | 0, seen => seen
  | k + 1, seen => search k (expand next seen)

variable {next}

theorem mem_expand {seen : List α} {b : α} :
    b ∈ expand next seen ↔ b ∈ seen ∨ ∃ a ∈ seen, b ∈ next a := by
  unfold expand
  simp only [List.mem_append, List.mem_dedup, List.mem_filter, List.mem_flatMap,
    decide_eq_true_eq]
  by_cases hb : b ∈ seen <;> simp [hb]

theorem nodup_expand {seen : List α} (h : seen.Nodup) : (expand next seen).Nodup := by
  unfold expand
  refine List.Nodup.append h (List.nodup_dedup _) ?_
  intro b hseen hnew
  rw [List.mem_dedup, List.mem_filter, decide_eq_true_eq] at hnew
  exact hnew.2 hseen

theorem nodup_search {k : Nat} {seen : List α} (h : seen.Nodup) :
    (search next k seen).Nodup := by
  induction k generalizing seen with
  | zero => exact h
  | succ k ih => exact ih (nodup_expand h)

theorem mem_search_of_mem {k : Nat} {seen : List α} {a : α} (h : a ∈ seen) :
    a ∈ search next k seen := by
  induction k generalizing seen with
  | zero => exact h
  | succ k ih => exact ih (mem_expand.mpr (Or.inl h))

/-- Everything the search has seen is reachable from one of its starts. -/
theorem reach_of_mem_search {k : Nat} {seen : List α} {b : α}
    (h : b ∈ search next k seen) : ∃ a ∈ seen, ReflTransGen (Succ next) a b := by
  induction k generalizing seen with
  | zero => exact ⟨b, h, .refl⟩
  | succ k ih =>
    obtain ⟨c, hc, hcb⟩ := ih h
    -- `c` was seen before the round, or is a successor of something that was
    rcases mem_expand.mp hc with hseen | ⟨a, ha, hac⟩
    · exact ⟨c, hseen, hcb⟩
    · exact ⟨a, ha, ReflTransGen.head hac hcb⟩

/-- Once what it has seen is closed, the search has seen exactly the points
reachable from its starts. -/
theorem mem_search_iff {k : Nat} {seen : List α} {b : α}
    (hc : Closed next (search next k seen)) :
    b ∈ search next k seen ↔ ∃ a ∈ seen, ReflTransGen (Succ next) a b := by
  constructor
  · exact reach_of_mem_search
  · rintro ⟨a, ha, hab⟩
    exact mem_of_reach hc (mem_search_of_mem ha) hab

end Reach
