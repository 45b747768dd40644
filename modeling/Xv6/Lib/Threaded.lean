import Mathlib.Data.List.Basic

/-!
# Lists threaded through memory

A singly linked list kept in the cells it links: each member holds the address
of the next, and the last holds `null`.  `Links next null p L` says that
following `next` from `p` visits the members of `L` in order, none of them
`null`, and then reaches `null`.  A walk that cycles has no such `L`, so the
list from `p` is acyclic exactly when some `L` links it.

The list is a function of the memory (`Links.unique`), so a list that reaches
`null` visits no cell twice (`Links.nodup`): a repeated cell would start the
same walk twice, once with more cells after it than the other.  A write to a
cell that is not a member leaves the list as it was (`Links.frame`); pushing a
cell is `Links.push`, and popping the head is `links_cons_iff`.
-/

namespace Threaded

variable {α : Type*} {next next' : α → α} {null : α}

/-- Following `next` from `p` visits `L`, and then reaches `null`. -/
inductive Links (next : α → α) (null : α) : α → List α → Prop
  | nil : Links next null null []
  | cons {p : α} {L : List α} : p ≠ null → Links next null (next p) L → Links next null p (p :: L)

theorem links_nil_iff {p : α} : Links next null p [] ↔ p = null := by
  constructor
  · rintro ⟨⟩
    rfl
  · rintro rfl
    exact .nil

theorem links_cons_iff {p q : α} {L : List α} :
    Links next null p (q :: L) ↔ p = q ∧ p ≠ null ∧ Links next null (next p) L := by
  constructor
  · rintro (_ | ⟨hp, hL⟩)
    exact ⟨rfl, hp, hL⟩
  · rintro ⟨rfl, hp, hL⟩
    exact .cons hp hL

/-- The list is empty exactly when it starts at `null`. -/
theorem Links.eq_nil_iff {p : α} {L : List α} (h : Links next null p L) : L = [] ↔ p = null := by
  cases h with
  | nil => simp
  | cons hp _ => simp [hp]

theorem Links.not_mem_null {p : α} {L : List α} (h : Links next null p L) : null ∉ L := by
  induction h with
  | nil => simp
  | cons hp _ ih =>
    rintro (_ | ⟨_, hmem⟩)
    · exact hp rfl
    · exact ih hmem

/-- The head is `null`, or the first member. -/
theorem Links.head_mem_or_null {p : α} {L : List α} (h : Links next null p L) :
    p = null ∨ p ∈ L := by
  cases h with
  | nil => exact .inl rfl
  | cons _ _ => exact .inr List.mem_cons_self

/-- Memory determines the list. -/
theorem Links.unique {p : α} {L L' : List α} (h : Links next null p L)
    (h' : Links next null p L') : L = L' := by
  induction h generalizing L' with
  | nil =>
    cases h' with
    | nil => rfl
    | cons hp _ => exact absurd rfl hp
  | cons hp _ ih =>
    cases h' with
    | nil => exact absurd rfl hp
    | cons _ hL' => rw [ih hL']

/-- Each member starts the walk through the rest of the list. -/
theorem Links.suffix {p q : α} {L : List α} (h : Links next null p L) (hq : q ∈ L) :
    ∃ L₁ L₂, L = L₁ ++ q :: L₂ ∧ Links next null q (q :: L₂) := by
  induction h with
  | nil => simp at hq
  | @cons p L hp hL ih =>
    rcases List.mem_cons.mp hq with rfl | hmem
    · exact ⟨[], L, rfl, .cons hp hL⟩
    · obtain ⟨L₁, L₂, rfl, hlinks⟩ := ih hmem
      exact ⟨p :: L₁, L₂, rfl, hlinks⟩

/-- A list that reaches `null` visits no cell twice. -/
theorem Links.nodup {p : α} {L : List α} (h : Links next null p L) : L.Nodup := by
  induction h with
  | nil => exact List.nodup_nil
  | @cons p L hp hL ih =>
    refine List.nodup_cons.mpr ⟨fun hmem => ?_, ih⟩
    -- the walk from the second visit of `p` is a strict suffix of the walk from the first
    obtain ⟨L₁, L₂, hsplit, hlinks⟩ := hL.suffix hmem
    have hsame : p :: L = p :: L₂ := (Links.cons hp hL).unique hlinks
    have hlen := congrArg List.length hsame
    rw [hsplit] at hlen
    simp at hlen
    omega

/-- A list whose cells keep their links stays linked. -/
theorem Links.frame {p : α} {L : List α} (h : Links next null p L)
    (hagree : ∀ q ∈ L, next' q = next q) : Links next' null p L := by
  induction h with
  | nil => exact .nil
  | @cons p L hp _ ih =>
    refine .cons hp ?_
    rw [hagree p List.mem_cons_self]
    exact ih fun q hq => hagree q (List.mem_cons_of_mem p hq)

/-- Pushing `q`: it now links to the old head, and the old cells keep their links. -/
theorem Links.push {p q : α} {L : List α} (h : Links next null p L) (hq : q ≠ null)
    (hnext : next' q = p) (hagree : ∀ r ∈ L, next' r = next r) :
    Links next' null q (q :: L) := by
  refine .cons hq ?_
  rw [hnext]
  exact h.frame hagree

end Threaded
