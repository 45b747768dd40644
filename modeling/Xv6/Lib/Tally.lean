import Mathlib.Algebra.BigOperators.Group.Finset.Basic
import Mathlib.Data.Fintype.Basic
import Mathlib.Tactic.Abel

/-!
# Tallies over a finite set of agents

A tally is a sum, over every agent of a finite type, of a per-agent quantity:
how many processes are inside an operation, how much log space they still
reserve.  A step of a system usually changes one agent, and the one lemma here
says how the tally moves then: by the change at that agent.
-/

namespace Tally

open Finset

variable {ι M : Type*} [Fintype ι] [DecidableEq ι] [AddCommMonoid M]

/-- Two per-agent quantities that agree off agent `i` have tallies that differ
by their difference at `i`. -/
theorem sum_add_eq_of_eq_off {F G : ι → M} (i : ι) (h : ∀ j, j ≠ i → G j = F j) :
    ∑ j, G j + F i = ∑ j, F j + G i := by
  have hrest : ∑ j ∈ univ.erase i, G j = ∑ j ∈ univ.erase i, F j :=
    sum_congr rfl fun j hj => h j (ne_of_mem_erase hj)
  rw [← add_sum_erase univ G (mem_univ i), ← add_sum_erase univ F (mem_univ i), hrest]
  abel

end Tally
