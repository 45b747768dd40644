import Mathlib

/-!
# Singly linked rings through a sentinel

A ring threaded through memory by a `next` function: from the sentinel `null`
it visits the members of `L`, in order, and comes back to `null` (`Ring`).  It
is stated as a chain of `next a = b` over `null :: L ++ [null]`, so that the
`List.IsChain` API splits and joins rings.

## Walks

A search that follows `next` until a node passes a test is `seek`; along a
chain it returns `List.find?` of the nodes it walks (`seek_of_isChain`).  A
ring can be walked from any of its nodes once round (`Ring.cycle_from`), and
the `next` of a node is the node after it (`Ring.next_of_eq`).

## Pointer writes

`Ring.splice` is the one rule for a write: the nodes before a piece of the
ring and after it keep their `next`, and the piece is replaced by a new chain
from the node before it to the node after it.  A node goes in after another
(`Ring.insert`), a node is skipped (`Ring.unlink`), a node takes the place of
the next one (`Ring.replace`), and a write that no node reads keeps the ring
(`Ring.frame`).

## Rings in address order

When the nodes are in increasing order from the sentinel, the only wrap is at
the last node.  K&R's `free` looks for the node after which a new node `b`
goes with the test `Btw x (next x) b`: `b` lies on the arc from `x` to its
`next`, passing the wrap if that arc does.  In an ordered ring, the test holds
exactly at the greatest node below `b` (`Ring.btw_iff`).
-/

namespace Cycle

variable {α : Type*} {next next' : α → α} {null : α}

/-- `next` threads a ring through `null`: from `null` it visits the members of
`L`, in order, and comes back to `null`. -/
def Ring (next : α → α) (null : α) (L : List α) : Prop :=
  null ∉ L ∧ List.IsChain (fun a b => next a = b) (null :: (L ++ [null]))

/-- Follow `next` from `p` until a node passes `P`, looking at `fuel` nodes at most. -/
def seek (next : α → α) (P : α → Prop) [DecidablePred P] : Nat → α → Option α
  | 0, _ => none
  | fuel + 1, p => if P p then some p else seek next P fuel (next p)

/-! ## Chains of `next` -/

/-- A chain whose nodes keep their `next`, but perhaps the last, is still a chain. -/
theorem isChain_frame : ∀ {l : List α}, List.IsChain (fun a b => next a = b) l →
    (∀ x ∈ l.dropLast, next' x = next x) → List.IsChain (fun a b => next' a = b) l
  | [], _, _ => .nil
  | [_], _, _ => .singleton _
  | a :: b :: l, h, hagree => by
    rw [List.isChain_cons_cons] at h ⊢
    refine ⟨(hagree a (by simp)).trans h.1, isChain_frame h.2 fun x hx => hagree x ?_⟩
    rw [List.dropLast_cons_cons]
    exact List.mem_cons_of_mem _ hx

/-- A search along a chain finds the first node that passes, if one does. -/
theorem seek_of_isChain (P : α → Prop) [DecidablePred P] :
    ∀ {p : α} {l : List α} {fuel : Nat}, List.IsChain (fun a b => next a = b) (p :: l) →
      (∃ x ∈ p :: l, P x) → (p :: l).length ≤ fuel → seek next P fuel p = (p :: l).find? P
  | p, l, 0, _, _, hfuel => by simp at hfuel
  | p, l, fuel + 1, hchain, hex, hfuel => by
    rw [seek]
    by_cases hp : P p
    · simp [hp]
    · rw [if_neg hp, List.find?_cons_of_neg (by simpa using hp)]
      cases l with
      | nil => simp [hp] at hex
      | cons q l =>
        rw [List.isChain_cons_cons] at hchain
        rw [hchain.1]
        refine seek_of_isChain P hchain.2 ?_ (by simp at hfuel ⊢; omega)
        obtain ⟨x, hx, hPx⟩ := hex
        rcases List.mem_cons.mp hx with rfl | hx
        · exact absurd hPx hp
        · exact ⟨x, hx, hPx⟩

/-- The first node that passes is the only one. -/
theorem find?_of_unique {P : α → Prop} [DecidablePred P] {l : List α} {p : α}
    (hp : p ∈ l) (hPp : P p) (huniq : ∀ x ∈ l, P x → x = p) : l.find? P = some p := by
  have hsome : (l.find? fun x => decide (P x)).isSome :=
    List.find?_isSome.mpr ⟨p, hp, decide_eq_true hPp⟩
  obtain ⟨x, hx⟩ := Option.isSome_iff_exists.mp hsome
  have hPx : P x := by simpa using List.find?_some hx
  rw [hx, huniq x (List.mem_of_find?_eq_some hx) hPx]

/-- Two chains that meet at a node join into one. -/
theorem isChain_join {R : α → α → Prop} {A B : List α} {x : α} :
    List.IsChain R (A ++ [x]) → List.IsChain R (x :: B) → List.IsChain R (A ++ x :: B) :=
  fun h₁ h₂ => List.isChain_split.mpr ⟨h₁, h₂⟩

/-- In a list without repeats, a value stands at one place only. -/
theorem eq_of_nodup_append_cons {A B C D : List α} {t : α} (hnd : (A ++ t :: B).Nodup)
    (h : A ++ t :: B = C ++ t :: D) : A = C := by
  classical
  have hA : t ∉ A := fun ht => (List.nodup_append.mp hnd).2.2 t ht t List.mem_cons_self rfl
  have hC : t ∉ C := fun ht => (List.nodup_append.mp (h ▸ hnd)).2.2 t ht t List.mem_cons_self rfl
  have hlen : A.length = C.length := by
    have := congrArg (List.idxOf t) h
    simpa only [List.idxOf_append_of_notMem hA, List.idxOf_append_of_notMem hC,
      List.idxOf_cons_self, Nat.add_zero] using this
  exact (List.append_inj h hlen).1

/-! ## Rings -/

section Ring

variable {L : List α}

/-- The `next` of a node is the node after it, or the sentinel after the last. -/
theorem Ring.next_of_eq {A B : List α} {x : α} (h : Ring next null L)
    (hL : null :: L = A ++ x :: B) : next x = (B ++ [null]).head (by simp) := by
  have hc := h.2
  rw [← List.cons_append, hL, List.append_assoc, List.cons_append] at hc
  have hx := (List.isChain_split.mp hc).2
  cases B with
  | nil => simpa using hx
  | cons y B => simpa using hx.rel

/-- A node's `next` is a node. -/
theorem Ring.next_mem {x : α} (h : Ring next null L) (hx : x ∈ null :: L) :
    next x ∈ null :: L := by
  obtain ⟨A, B, hL⟩ := List.append_of_mem hx
  rw [h.next_of_eq hL]
  cases B with
  | nil => simp
  | cons y B => simp [hL]

/-- Following `next` from a node, however far, stays on the ring. -/
theorem Ring.iterate_mem {x : α} (h : Ring next null L) (hx : x ∈ null :: L) :
    ∀ k, next^[k] x ∈ null :: L
  | 0 => hx
  | k + 1 => by
    rw [Function.iterate_succ_apply']
    exact h.next_mem (h.iterate_mem hx k)

/-- A ring can be walked once round from any node: the walk visits every node
once and comes back. -/
theorem Ring.cycle_from {s : α} (h : Ring next null L) (hs : s ∈ null :: L) :
    ∃ W, List.IsChain (fun a b => next a = b) (s :: W ++ [s]) ∧ (s :: W).Perm (null :: L) := by
  obtain ⟨A, B, hL⟩ := List.append_of_mem hs
  have hc := h.2
  rw [← List.cons_append, hL, List.append_assoc, List.cons_append] at hc
  obtain ⟨hfront, hback⟩ := List.isChain_split.mp hc
  cases A with
  | nil =>
    -- `s` is the sentinel: the walk is the ring itself
    obtain ⟨rfl, rfl⟩ := List.cons_eq_cons.mp hL
    exact ⟨L, by simpa using h.2, .refl _⟩
  | cons a A =>
    -- round from `s` to the sentinel, then from the sentinel to `s`
    obtain ⟨rfl, -⟩ := List.cons_eq_cons.mp hL
    refine ⟨B ++ null :: A, ?_, ?_⟩
    · rw [show s :: (B ++ null :: A) ++ [s] = (s :: B) ++ null :: (A ++ [s]) by simp]
      exact isChain_join (by simpa using hback) (by simpa using hfront)
    · rw [hL, ← List.cons_append]
      exact List.perm_append_comm

/-- In a ring without repeats, the node whose `next` is a member `t` is the one
before `t`. -/
theorem Ring.getLast_of_next {l₁ l₂ : List α} {t x : α} (h : Ring next null (l₁ ++ t :: l₂))
    (hnd : (null :: (l₁ ++ t :: l₂)).Nodup) (hx : x ∈ null :: (l₁ ++ t :: l₂))
    (hxt : next x = t) : (null :: l₁).getLast? = some x := by
  obtain ⟨A, B, hL⟩ := List.append_of_mem hx
  have hnext := h.next_of_eq hL
  cases B with
  | nil =>
    -- the last node links back to the sentinel, which is not a member
    simp only [List.nil_append, List.head_cons] at hnext
    exact absurd (hxt ▸ hnext ▸ List.mem_append_right l₁ List.mem_cons_self) h.1
  | cons y B =>
    simp only [List.cons_append, List.head_cons] at hnext
    obtain rfl : t = y := hxt.symm.trans hnext
    have hL' : (A ++ [x]) ++ t :: B = (null :: l₁) ++ t :: l₂ := by simpa using hL.symm
    have := eq_of_nodup_append_cons (hL' ▸ hnd : ((A ++ [x]) ++ t :: B).Nodup) hL'
    rw [← this]
    simp

/-- A ring whose nodes keep their `next` is still a ring. -/
theorem Ring.frame (h : Ring next null L) (hagree : ∀ x ∈ null :: L, next' x = next x) :
    Ring next' null L := by
  refine ⟨h.1, isChain_frame h.2 fun x hx => hagree x ?_⟩
  rw [← List.cons_append, List.dropLast_concat] at hx
  exact hx

/-- The empty ring: the sentinel links to itself. -/
theorem ring_nil (h : next null = null) : Ring next null [] :=
  ⟨List.not_mem_nil, by simpa using h⟩

/-- A piece `M` of the ring, between `p` and `q`, replaced by `M'`: the nodes
before `p` and from `q` on keep their `next`, and `p` is linked through `M'`
to `q`. -/
theorem Ring.splice {l₁ M M' l₂ : List α} {p q : α} (h : Ring next null (l₁ ++ M ++ l₂))
    (hp : (null :: l₁).getLast? = some p) (hq : (l₂ ++ [null]).head? = some q)
    (hnew : null ∉ M') (hlink : List.IsChain (fun a b => next' a = b) (p :: (M' ++ [q])))
    (hfront : ∀ x ∈ (null :: l₁).dropLast, next' x = next x)
    (hback : ∀ x ∈ l₂, next' x = next x) :
    Ring next' null (l₁ ++ M' ++ l₂) := by
  obtain ⟨A, hA⟩ : ∃ A, null :: l₁ = A ++ [p] :=
    ⟨_, (List.dropLast_append_getLast? p hp).symm⟩
  obtain ⟨T, hT⟩ : ∃ T, l₂ ++ [null] = q :: T := by
    cases l₂ <;> simp_all
  have hold : null :: (l₁ ++ M ++ l₂ ++ [null]) = (A ++ [p]) ++ M ++ (q :: T) := by
    rw [← hA, ← hT]
    simp
  have hc := h.2
  rw [hold] at hc
  refine ⟨?_, ?_⟩
  · have := h.1
    simp only [List.mem_append, not_or] at this ⊢
    exact ⟨⟨this.1.1, hnew⟩, this.2⟩
  have hnew' : null :: (l₁ ++ M' ++ l₂ ++ [null]) = A ++ p :: (M' ++ q :: T) := by
    rw [← hT, show A ++ p :: (M' ++ (l₂ ++ [null])) = (A ++ [p]) ++ (M' ++ (l₂ ++ [null])) by
      simp, ← hA]
    simp
  rw [hnew']
  -- the walk up to `p` and the walk from `q` keep their links; the piece between is new
  have hfront' : List.IsChain (fun a b => next' a = b) (A ++ [p]) := by
    refine isChain_frame hc.left_of_append.left_of_append fun x hx => hfront x ?_
    rw [hA]
    exact hx
  have hback' : List.IsChain (fun a b => next' a = b) (q :: T) := by
    refine isChain_frame hc.right_of_append fun x hx => hback x ?_
    rwa [← hT, List.dropLast_concat] at hx
  exact isChain_join hfront' (isChain_join (A := p :: M') hlink hback')

/-- `b` goes in after `p`: `p` links to `b`, and `b` to the node that
followed `p`. -/
theorem Ring.insert {l₁ l₂ : List α} {p q b : α} (h : Ring next null (l₁ ++ l₂))
    (hp : (null :: l₁).getLast? = some p) (hq : (l₂ ++ [null]).head? = some q)
    (hb : b ≠ null) (hpb : next' p = b) (hbq : next' b = q)
    (hfront : ∀ x ∈ (null :: l₁).dropLast, next' x = next x)
    (hback : ∀ x ∈ l₂, next' x = next x) :
    Ring next' null (l₁ ++ b :: l₂) := by
  have h' : Ring next null (l₁ ++ [] ++ l₂) := by simpa using h
  have := h'.splice hp hq (show null ∉ [b] by simpa using hb.symm) (by simp [hpb, hbq]) hfront
    hback
  simpa using this

/-- The node `t` after `p` is skipped: `p` links to the node after `t`. -/
theorem Ring.unlink {l₁ l₂ : List α} {p q t : α} (h : Ring next null (l₁ ++ t :: l₂))
    (hp : (null :: l₁).getLast? = some p) (hq : (l₂ ++ [null]).head? = some q)
    (hpq : next' p = q)
    (hfront : ∀ x ∈ (null :: l₁).dropLast, next' x = next x)
    (hback : ∀ x ∈ l₂, next' x = next x) :
    Ring next' null (l₁ ++ l₂) := by
  have h' : Ring next null (l₁ ++ [t] ++ l₂) := by simpa using h
  have := h'.splice hp hq (show null ∉ ([] : List α) from List.not_mem_nil) (by simp [hpq]) hfront
    hback
  simpa using this

/-- `b` takes the place of the node `t` after `p`. -/
theorem Ring.replace {l₁ l₂ : List α} {p q t b : α} (h : Ring next null (l₁ ++ t :: l₂))
    (hp : (null :: l₁).getLast? = some p) (hq : (l₂ ++ [null]).head? = some q)
    (hb : b ≠ null) (hpb : next' p = b) (hbq : next' b = q)
    (hfront : ∀ x ∈ (null :: l₁).dropLast, next' x = next x)
    (hback : ∀ x ∈ l₂, next' x = next x) :
    Ring next' null (l₁ ++ b :: l₂) := by
  have h' : Ring next null (l₁ ++ [t] ++ l₂) := by simpa using h
  have := h'.splice hp hq (show null ∉ [b] by simpa using hb.symm) (by simp [hpb, hbq]) hfront
    hback
  simpa using this

end Ring

/-! ## Rings in address order -/

section Ordered

variable [LinearOrder α]

/-- K&R's test: `b` lies on the arc from `x` to `y`, passing the wrap when `y ≤ x`. -/
def Btw (x y b : α) : Prop := (x < b ∧ b < y) ∨ (y ≤ x ∧ (x < b ∨ b < y))

instance (x y b : α) : Decidable (Btw x y b) := by
  unfold Btw
  infer_instance

variable {L l₁ l₂ : List α} {b x : α}

/-- An ordered list splits at a value off it into the part below and the part above. -/
theorem exists_split : ∀ {L : List α}, L.Pairwise (· < ·) → b ∉ L →
    ∃ l₁ l₂, L = l₁ ++ l₂ ∧ (∀ x ∈ l₁, x < b) ∧ ∀ x ∈ l₂, b < x
  | [], _, _ => ⟨[], [], rfl, by simp, by simp⟩
  | a :: L, hs, hb => by
    rw [List.pairwise_cons] at hs
    have hne : a ≠ b := fun h => hb (h ▸ List.mem_cons_self)
    rcases lt_or_gt_of_ne hne with hab | hab
    · obtain ⟨l₁, l₂, rfl, h₁, h₂⟩ := exists_split hs.2 (fun h => hb (List.mem_cons_of_mem _ h))
      refine ⟨a :: l₁, l₂, rfl, ?_, h₂⟩
      simpa [hab] using h₁
    · refine ⟨[], a :: L, rfl, by simp, ?_⟩
      simpa [hab] using fun x hx => lt_trans hab (hs.1 x hx)

/-- A value that lies between the two parts of an ordered list goes in between them. -/
theorem pairwise_insert (hs : (l₁ ++ l₂).Pairwise (· < ·)) (h₁ : ∀ y ∈ l₁, y < b)
    (h₂ : ∀ y ∈ l₂, b < y) : (l₁ ++ b :: l₂).Pairwise (· < ·) := by
  rw [List.pairwise_append] at hs ⊢
  refine ⟨hs.1, List.pairwise_cons.mpr ⟨h₂, hs.2.1⟩, fun a ha c hc => ?_⟩
  rcases List.mem_cons.mp hc with rfl | hc
  · exact h₁ a ha
  · exact hs.2.2 a ha c hc

/-- In an ordered ring, the nodes after `x` are above it. -/
theorem lt_of_pairwise {A B : List α} (hs : (A ++ x :: B).Pairwise (· < ·)) :
    ∀ y ∈ B, x < y :=
  (List.pairwise_cons.mp (List.pairwise_append.mp hs).2.1).1

/-- Where an ordered ring is split at `b`, the test of K&R's `free` holds at
a node exactly when it is the last node below `b`. -/
theorem Ring.btw_iff (h : Ring next null (l₁ ++ l₂))
    (hs : (null :: (l₁ ++ l₂)).Pairwise (· < ·)) (h₁ : ∀ y ∈ l₁, y < b)
    (h₂ : ∀ y ∈ l₂, b < y) (hb : null < b) (hx : x ∈ null :: (l₁ ++ l₂)) :
    Btw x (next x) b ↔ (null :: l₁).getLast? = some x := by
  have hnull : ∀ y ∈ l₁ ++ l₂, null < y := (List.pairwise_cons.mp hs).1
  rw [← List.cons_append, List.mem_append] at hx
  rcases hx with hx | hx
  · -- `x` is below `b`: the test holds when the node after it is past `b`
    obtain ⟨A, B, hAB⟩ := List.append_of_mem hx
    have hxb : x < b := by
      rcases List.mem_cons.mp hx with rfl | hx
      · exact hb
      · exact h₁ x hx
    have hle : null ≤ x := by
      rcases List.mem_cons.mp hx with rfl | hx
      · exact le_rfl
      · exact (hnull x (List.mem_append_left _ hx)).le
    have hL : null :: (l₁ ++ l₂) = A ++ x :: (B ++ l₂) := by
      rw [← List.cons_append, hAB]
      simp
    have hnext := h.next_of_eq hL
    have habove := lt_of_pairwise (hL ▸ hs)
    cases B with
    | nil =>
      rw [hAB, List.getLast?_append_of_ne_nil _ (List.cons_ne_nil _ _)]
      simp only [List.getLast?_singleton, iff_true]
      cases l₂ with
      | nil =>
        -- the last node of the ring: the test passes through the wrap
        simp only [List.nil_append, List.append_nil, List.head_cons] at hnext
        exact .inr ⟨hnext ▸ hle, .inl hxb⟩
      | cons y l₂ =>
        simp only [List.nil_append, List.cons_append, List.head_cons] at hnext
        exact .inl ⟨hxb, hnext ▸ h₂ y List.mem_cons_self⟩
    | cons y B =>
      -- the node after `x` is still below `b`
      simp only [List.cons_append, List.head_cons] at hnext
      have hxy : x < y := habove y List.mem_cons_self
      have hy : y < b := by
        have : y ∈ null :: l₁ := by simp [hAB]
        rcases List.mem_cons.mp this with rfl | hy
        · exact absurd hle (not_le.mpr hxy)
        · exact h₁ y hy
      have hlast : (null :: l₁).getLast? ≠ some x := by
        rw [hAB, List.getLast?_append_of_ne_nil _ (List.cons_ne_nil _ _), List.getLast?_cons_cons]
        intro heq
        exact lt_irrefl x (habove x (List.mem_append_left _ (List.mem_of_getLast? heq)))
      rw [iff_false_intro hlast, iff_false, Btw, hnext]
      rintro (⟨-, hby⟩ | ⟨hyx, -⟩)
      · exact lt_asymm hy hby
      · exact not_le.mpr hxy hyx
  · -- `x` is above `b`: the test fails, and the last node below `b` is not `x`
    obtain ⟨C, D, hCD⟩ := List.append_of_mem hx
    have hbx : b < x := h₂ x hx
    have hL : null :: (l₁ ++ l₂) = (null :: l₁ ++ C) ++ x :: D := by
      rw [hCD]
      simp
    have hnext := h.next_of_eq hL
    have habove := lt_of_pairwise (hL ▸ hs)
    have hlast : (null :: l₁).getLast? ≠ some x := by
      intro heq
      rcases List.mem_cons.mp (List.mem_of_getLast? heq) with rfl | hmem
      · exact lt_asymm hb hbx
      · exact lt_asymm (h₁ x hmem) hbx
    rw [iff_false_intro hlast, iff_false, Btw]
    rintro (⟨hxb, -⟩ | ⟨hnx, hxb | hbn⟩)
    · exact lt_asymm hxb hbx
    · exact lt_asymm hxb hbx
    · -- the node after `x` is above it, or it is the sentinel, below `b`
      cases D with
      | nil =>
        simp only [List.nil_append, List.head_cons] at hnext
        exact lt_asymm hb (hnext ▸ hbn)
      | cons z D =>
        simp only [List.cons_append, List.head_cons] at hnext
        exact not_le.mpr (habove z List.mem_cons_self) (hnext ▸ hnx)

end Ordered

end Cycle
