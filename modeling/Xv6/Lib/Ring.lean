import Mathlib.Data.List.Chain
import Mathlib.Data.List.Nodup
import Mathlib.Logic.Function.Iterate

/-!
# Doubly linked rings through a sentinel

A ring of elements of `β` threaded through a sentinel: the nodes are
`Option β`, `none` is the sentinel, and every node has a `next` and a `prev`
pointer (`Links`).  `Links.Holds L l` says that following `next` from the
sentinel visits the elements of `l`, each once and in order, and comes back to
the sentinel, and that `prev` undoes each of these steps.  It is stated as a
chain of the adjacency relation `Links.Adj` over `none :: l ++ [none]`, so
that the `List.IsChain` API of Mathlib splits and joins rings.

The pointer writes are `setNext` and `setPrev`.  Two fixed sequences of them
are the operations of a least-recently-used list: `unlink b`, the two writes
that make the neighbours of `b` skip it, and `pushFront b`, the four writes
that put `b` right after the sentinel.  `Holds.unlink`, `Holds.pushFront` and
`Holds.moveFront` say what ring they leave.  A search that follows the
pointers until it is back at the sentinel is `walk`; on a ring it returns
`List.find?` of the elements in order (`Holds.walk_next`), or in reverse order
when it follows `prev` (`Holds.walk_prev`).
-/

namespace Ring

variable {β : Type*}

/-- The `next` and `prev` pointers of every node; `none` is the sentinel. -/
structure Links (β : Type*) where
  next : Option β → Option β
  prev : Option β → Option β

namespace Links

variable (L : Links β)

/-- `y` comes right after `x`, read both ways. -/
def Adj (x y : Option β) : Prop := L.next x = y ∧ L.prev y = x

/-- The ring is the sentinel followed by the elements of `l`, in order. -/
def Holds (l : List β) : Prop :=
  l.Nodup ∧ List.IsChain L.Adj (none :: (l.map some ++ [none]))

/-- The ring walked backwards. -/
def swap : Links β := ⟨L.prev, L.next⟩

variable [DecidableEq β]

/-- `x->next = y`. -/
def setNext (x y : Option β) : Links β := { L with next := Function.update L.next x y }

/-- `x->prev = y`. -/
def setPrev (x y : Option β) : Links β := { L with prev := Function.update L.prev x y }

/-- `b->next->prev = b->prev; b->prev->next = b->next;` -/
def unlink (b : β) : Links β :=
  let L₁ := L.setPrev (L.next (some b)) (L.prev (some b))
  L₁.setNext (L₁.prev (some b)) (L₁.next (some b))

/-- `b->next = head.next; b->prev = &head; head.next->prev = b; head.next = b;` -/
def pushFront (b : β) : Links β :=
  let L₁ := L.setNext (some b) (L.next none)
  let L₂ := L₁.setPrev (some b) none
  let L₃ := L₂.setPrev (L₂.next none) (some b)
  L₃.setNext none (some b)

@[simp] theorem setNext_next (x y : Option β) : (L.setNext x y).next = Function.update L.next x y :=
  rfl

@[simp] theorem setNext_prev (x y : Option β) : (L.setNext x y).prev = L.prev := rfl

@[simp] theorem setPrev_next (x y : Option β) : (L.setPrev x y).next = L.next := rfl

@[simp] theorem setPrev_prev (x y : Option β) : (L.setPrev x y).prev = Function.update L.prev x y :=
  rfl

end Links

/-- Follow `step` from `x` until the sentinel, stopping at the first element
that passes `p`: that element, `some none` at the sentinel, or `none` if `fuel`
runs out first. -/
def walk (step : Option β → Option β) (p : β → Bool) : Nat → Option β → Option (Option β)
  | 0, _ => none
  | _ + 1, none => some none
  | n + 1, some b => if p b then some (some b) else walk step p n (step (some b))

/-! ## Chains of the adjacency relation -/

section Chain

variable {L L' : Links β}

theorem adj_swap {x y : Option β} : L.swap.Adj y x ↔ L.Adj x y := by
  unfold Links.Adj Links.swap
  exact and_comm

/-- Links that agree with `L` on the `next` of every node of `c` but the last,
and on the `prev` of every node but the first, keep `c` a chain. -/
theorem isChain_frame : ∀ {c : List (Option β)}, c.IsChain L.Adj →
    (∀ x ∈ c.dropLast, L'.next x = L.next x) → (∀ y ∈ c.tail, L'.prev y = L.prev y) →
    c.IsChain L'.Adj
  | [], _, _, _ => .nil
  | [_], _, _, _ => .singleton _
  | x :: y :: c, h, hnext, hprev => by
    rw [List.isChain_cons_cons] at h ⊢
    obtain ⟨⟨hxy, hyx⟩, hc⟩ := h
    refine ⟨⟨?_, ?_⟩, isChain_frame hc (fun z hz => hnext z ?_) (fun z hz => hprev z ?_)⟩
    · rw [hnext x (by simp), hxy]
    · rw [hprev y (by simp), hyx]
    · rw [List.dropLast_cons_cons]
      exact List.mem_cons_of_mem x hz
    · exact List.mem_of_mem_tail hz

/-- A walk along a chain that ends at the sentinel finds what `find?` finds. -/
theorem walk_of_isChain (p : β → Bool) :
    ∀ (l : List β) (x : Option β), (x :: (l.map some ++ [none])).IsChain L.Adj →
      walk L.next p (l.length + 1) (L.next x) = some (l.find? p)
  | [], x, h => by
    rw [List.map_nil, List.nil_append, List.isChain_pair] at h
    rw [h.1]
    rfl
  | b :: l, x, h => by
    rw [List.map_cons, List.cons_append, List.isChain_cons_cons] at h
    obtain ⟨⟨hxb, -⟩, hc⟩ := h
    rw [hxb, List.length_cons, walk, List.find?_cons]
    cases p b
    · exact walk_of_isChain p l (some b) hc
    · rfl

/-- The nodes of a chain that ends at the sentinel, reached by iterating `next`. -/
theorem iterate_of_isChain :
    ∀ (l : List β) (x : Option β), (x :: (l.map some ++ [none])).IsChain L.Adj →
      (∀ k (hk : k < l.length), L.next^[k + 1] x = some l[k]) ∧ L.next^[l.length + 1] x = none
  | [], x, h => by
    rw [List.map_nil, List.nil_append, List.isChain_pair] at h
    exact ⟨fun k hk => absurd hk (Nat.not_lt_zero k), h.1⟩
  | b :: l, x, h => by
    rw [List.map_cons, List.cons_append, List.isChain_cons_cons] at h
    obtain ⟨⟨hxb, -⟩, hc⟩ := h
    obtain ⟨hmid, hend⟩ := iterate_of_isChain l (some b) hc
    refine ⟨fun k hk => ?_, ?_⟩
    · rw [Function.iterate_succ_apply, hxb]
      cases k with
      | zero => rfl
      | succ k => exact hmid k (by simpa using hk)
    · rw [List.length_cons, Function.iterate_succ_apply, hxb]
      exact hend

/-- Along a chain, `prev` undoes `next` at every node but the last. -/
theorem prev_next_of_isChain : ∀ {c : List (Option β)}, c.IsChain L.Adj →
    ∀ x ∈ c.dropLast, L.prev (L.next x) = x
  | [], _, _, hx => absurd hx (by simp)
  | [_], _, _, hx => absurd hx (by simp)
  | y :: z :: c, h, x, hx => by
    rw [List.isChain_cons_cons] at h
    rw [List.dropLast_cons_cons, List.mem_cons] at hx
    rcases hx with rfl | hx
    · rw [h.1.1, h.1.2]
    · exact prev_next_of_isChain h.2 x hx

end Chain

/-! ## Nodes of a duplicate-free list -/

section Nodup

variable {α : Type*} {l : List α}

theorem ne_getLast_of_mem_dropLast (hl : l.Nodup) (hne : l ≠ []) {x : α} (hx : x ∈ l.dropLast) :
    x ≠ l.getLast hne := by
  rintro rfl
  have hsplit := List.dropLast_append_getLast hne
  rw [← hsplit, List.nodup_append] at hl
  exact hl.2.2 _ hx _ (List.mem_singleton_self _) rfl

theorem ne_head_of_mem_tail (hl : l.Nodup) (hne : l ≠ []) {y : α} (hy : y ∈ l.tail) :
    y ≠ l.head hne := by
  rintro rfl
  have hsplit := List.cons_head_tail hne
  rw [← hsplit, List.nodup_cons] at hl
  exact hl.1 hy

end Nodup

/-! ## Rings -/

namespace Links

variable {L : Links β} {l : List β}

theorem Holds.swap (h : L.Holds l) : L.swap.Holds l.reverse := by
  refine ⟨List.nodup_reverse.mpr h.1, ?_⟩
  have hrev : none :: (l.reverse.map some ++ [none]) = (none :: (l.map some ++ [none])).reverse := by
    simp [List.map_reverse]
  rw [hrev, List.isChain_reverse]
  exact h.2.imp fun _ _ hxy => adj_swap.mpr hxy

/-- Following `next` from the sentinel finds the first element of the ring
that passes `p`. -/
theorem Holds.walk_next (h : L.Holds l) (p : β → Bool) :
    walk L.next p (l.length + 1) (L.next none) = some (l.find? p) :=
  walk_of_isChain p l none h.2

/-- Following `prev` from the sentinel finds the last element of the ring that
passes `p`. -/
theorem Holds.walk_prev (h : L.Holds l) (p : β → Bool) :
    walk L.prev p (l.length + 1) (L.prev none) = some (l.reverse.find? p) := by
  have hwalk := h.swap.walk_next p
  rwa [List.length_reverse] at hwalk

/-- Following `next` from the sentinel visits the ring in order, then the
sentinel. -/
theorem Holds.iterate_next (h : L.Holds l) :
    (∀ k (hk : k < l.length), L.next^[k + 1] none = some l[k]) ∧ L.next^[l.length + 1] none = none :=
  iterate_of_isChain l none h.2

/-- `prev` undoes `next` at the sentinel and at every element of the ring. -/
theorem Holds.prev_next (h : L.Holds l) {x : Option β} (hx : ∀ b, x = some b → b ∈ l) :
    L.prev (L.next x) = x := by
  refine prev_next_of_isChain h.2 x ?_
  rw [← List.cons_append, List.dropLast_concat, List.mem_cons]
  cases x with
  | none => exact .inl rfl
  | some b => exact .inr (List.mem_map_of_mem (hx b rfl))

/-- The empty ring: the sentinel points to itself both ways. -/
theorem holds_nil (hnext : L.next none = none) (hprev : L.prev none = none) : L.Holds [] :=
  ⟨List.nodup_nil, List.isChain_pair.mpr ⟨hnext, hprev⟩⟩

variable [DecidableEq β]

/-- `pushFront b` puts `b`, not in the ring, first. -/
theorem Holds.pushFront (h : L.Holds l) {b : β} (hb : b ∉ l) : (L.pushFront b).Holds (b :: l) := by
  obtain ⟨hnodup, hchain⟩ := h
  set R := l.map some ++ [none] with hR
  have hRne : R ≠ [] := by simp [R]
  have hRnodup : R.Nodup := by
    rw [List.nodup_append]
    exact ⟨hnodup.map fun _ _ h => Option.some.inj h, List.nodup_singleton none, by simp⟩
  have hbR : some b ∉ R := by simpa [R] using hb
  rw [List.isChain_cons] at hchain
  obtain ⟨hfirst, hrest⟩ := hchain
  -- `f`, the old first node, comes after `b`
  set f := R.head hRne
  have hhead : R.head? = some f := List.head?_eq_some_head hRne
  have hnf : L.next none = f := (hfirst f hhead).1
  have hbf : some b ≠ f := fun heq => hbR (heq ▸ List.head_mem hRne)
  refine ⟨List.nodup_cons.mpr ⟨hb, hnodup⟩, ?_⟩
  rw [List.map_cons, List.cons_append, List.isChain_cons_cons, List.isChain_cons]
  refine ⟨⟨?_, ?_⟩, fun y hy => ?_, ?_⟩
  · simp [Links.pushFront]
  · simp [Links.pushFront, hnf, hbf]
  · rw [hhead, Option.mem_def, Option.some.injEq] at hy
    subst hy
    constructor
    · simp [Links.pushFront, hnf]
    · simp [Links.pushFront, hnf]
  · -- the old ring keeps its pointers: the writes were at `b`, the sentinel and `f`
    refine isChain_frame hrest (fun x hx => ?_) (fun y hy => ?_)
    · have hxl : x ∈ l.map some := by rwa [List.dropLast_concat] at hx
      have hxn : x ≠ none := by
        rintro rfl
        simp at hxl
      have hxb : x ≠ some b := by
        rintro rfl
        simp [hb] at hxl
      simp [Links.pushFront, hxn, hxb]
    · have hyf : y ≠ f := ne_head_of_mem_tail hRnodup hRne hy
      have hyb : y ≠ some b := fun heq => hbR (heq ▸ List.mem_of_mem_tail hy)
      simp [Links.pushFront, hnf, hyf, hyb]

/-- `unlink b` takes `b` out of the ring, and the other elements keep their
order. -/
theorem Holds.unlink {l₁ l₂ : List β} {b : β} (h : L.Holds (l₁ ++ b :: l₂)) :
    (L.unlink b).Holds (l₁ ++ l₂) := by
  obtain ⟨hnodup, hchain⟩ := h
  have hnodup' := List.nodup_middle.mp hnodup
  rw [List.nodup_cons] at hnodup'
  obtain ⟨hb, hnodup₁₂⟩ := hnodup'
  -- the ring before `b` is `A`, after it `B`; they share only the sentinel
  set A := none :: l₁.map some with hA
  set B := l₂.map some ++ [none] with hB
  have hAne : A ≠ [] := List.cons_ne_nil _ _
  have hBne : B ≠ [] := by simp [B]
  have hAB : ∀ x, x ∈ A → x ∈ B → x = none := by
    intro x hxA hxB
    cases x with
    | none => rfl
    | some c =>
      have hc₁ : c ∈ l₁ := by simpa [A] using hxA
      have hc₂ : c ∈ l₂ := by simpa [B] using hxB
      exact absurd rfl ((List.nodup_append.mp hnodup₁₂).2.2 c hc₁ c hc₂)
  have hsplit : none :: ((l₁ ++ b :: l₂).map some ++ [none]) = A ++ some b :: B := by simp [A, B]
  rw [hsplit, List.isChain_split] at hchain
  obtain ⟨hAb, hbB⟩ := hchain
  -- `u` comes before `b`, `w` after it
  set u := A.getLast hAne
  set w := B.head hBne
  have hu : L.Adj u (some b) := hAb.rel_getLast_head_of_append hAne (List.cons_ne_nil _ _)
  have hw : L.Adj (some b) w := by
    rw [← List.cons_head_tail hBne, List.isChain_cons_cons] at hbB
    exact hbB.1
  have hAnodup : A.Nodup := by
    rw [List.nodup_cons]
    exact ⟨by simp, (List.nodup_append.mp hnodup₁₂).1.map fun _ _ h => Option.some.inj h⟩
  have hBnodup : B.Nodup := by
    rw [List.nodup_append]
    exact ⟨(List.nodup_append.mp hnodup₁₂).2.1.map fun _ _ h => Option.some.inj h,
      List.nodup_singleton none, by simp⟩
  have hwb : w ≠ some b := by
    intro heq
    have hbB : some b ∈ B := heq ▸ List.head_mem hBne
    exact hb (List.mem_append_right l₁ (by simpa [B] using hbB))
  have hL : L.unlink b = (L.setPrev w u).setNext u w := by
    simp only [Links.unlink, setPrev_next, setPrev_prev, hw.1, Function.update_of_ne (Ne.symm hwb), hu.2]
  refine ⟨hnodup₁₂, ?_⟩
  have hjoin : none :: ((l₁ ++ l₂).map some ++ [none]) = A ++ B := by simp [A, B]
  rw [hjoin, hL, List.isChain_append]
  refine ⟨isChain_frame hAb.left_of_append (fun x hx => ?_) (fun y hy => ?_),
    isChain_frame hbB.tail (fun x hx => ?_) (fun y hy => ?_), ?_⟩
  · -- in `A`, only the `next` of its last node changed
    have hxu : x ≠ u := ne_getLast_of_mem_dropLast hAnodup hAne hx
    simp [Function.update_of_ne hxu]
  · have hyw : y ≠ w := by
      intro heq
      have hyn : y ≠ none := by
        rintro rfl
        simp [A] at hy
      exact hyn (hAB y (List.mem_of_mem_tail hy) (heq ▸ List.head_mem hBne))
    simp [Function.update_of_ne hyw]
  · -- in `B`, only the `prev` of its first node changed
    have hxu : x ≠ u := by
      intro heq
      have hxB : x ∈ B := (List.dropLast_sublist B).subset hx
      have hxn : x ≠ none := by
        rintro rfl
        rw [List.dropLast_concat] at hx
        simp at hx
      exact hxn (hAB x (heq ▸ List.getLast_mem hAne) hxB)
    simp [Function.update_of_ne hxu]
  · have hyw : y ≠ w := ne_head_of_mem_tail hBnodup hBne hy
    simp [Function.update_of_ne hyw]
  · intro x hx y hy
    rw [List.getLast?_eq_some_getLast hAne, Option.mem_def, Option.some.injEq] at hx
    rw [List.head?_eq_some_head hBne, Option.mem_def, Option.some.injEq] at hy
    subst hx hy
    constructor
    · show Function.update L.next u w u = w
      exact Function.update_self u w L.next
    · show Function.update L.prev w u w = u
      exact Function.update_self w u L.prev

/-- `unlink` then `pushFront`, as `brelse` does: `b` moves to the front. -/
theorem Holds.moveFront (h : L.Holds l) {b : β} (hb : b ∈ l) :
    ((L.unlink b).pushFront b).Holds (b :: l.erase b) := by
  obtain ⟨l₁, l₂, rfl⟩ := List.append_of_mem hb
  have hnodup := List.nodup_cons.mp (List.nodup_middle.mp h.1)
  have hb₁ : b ∉ l₁ := fun hb₁ => hnodup.1 (List.mem_append_left l₂ hb₁)
  have herase : (l₁ ++ b :: l₂).erase b = l₁ ++ l₂ := by
    rw [List.erase_append_right _ hb₁, List.erase_cons_head]
  rw [herase]
  exact h.unlink.pushFront hnodup.1

/-- Pushing the elements of `bs` one after the other puts them in front, last
pushed first. -/
theorem holds_foldl_pushFront :
    ∀ (bs : List β) (L : Links β) (l : List β), L.Holds l → (bs ++ l).Nodup →
      (bs.foldl (fun L b => L.pushFront b) L).Holds (bs.reverse ++ l)
  | [], _, _, h, _ => h
  | b :: bs, L, l, h, hnodup => by
    rw [List.cons_append, List.nodup_cons, List.mem_append, not_or] at hnodup
    have hpush := h.pushFront hnodup.1.2
    rw [List.foldl_cons, List.reverse_cons, List.append_assoc, List.singleton_append]
    exact holds_foldl_pushFront bs _ (b :: l) hpush (List.nodup_middle.mpr
      (List.nodup_cons.mpr ⟨by simpa using hnodup.1, hnodup.2⟩))

end Links

end Ring
