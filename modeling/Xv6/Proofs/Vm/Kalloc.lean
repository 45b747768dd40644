import Xv6.Vm.Kalloc
import Xv6.Lib.Threaded
import Xv6.Lib.Transition
import Xv6.Lib.StateExcept
import Mathlib.Data.Finset.Card

/-!
# The free list

`kalloc.c` manages the pages that `freerange(end, PHYSTOP)` gives it: the
page-aligned `p` from `PGROUNDUP(end)` with `p + PGSIZE ≤ PHYSTOP`
(`Managed`).  `FreeList kend k held L` says that the list threaded through
the free pages is `L` (`Threaded.Links`, so it ends in `0` and has no cycle),
and that `L` and the held pages split the managed pages.

* `freerangeLoop_spec`: each round of `freerange` pushes the next page, so
  `kinit` lists exactly the managed pages (`kinit_spec`);
* `FreeList.kalloc`: `kalloc` pops the head of `L`, and returns `0` only
  when `L` is empty;
* `FreeList.kfree`: `kfree` of a held page does not panic, and pushes it;
* `FreeList.write`: a write to a held page leaves the list alone.

Each step reads or writes one page, and the pages of a list are aligned and
distinct, so every other member keeps its `next` field (`Threaded.Links.frame`).
`FreeList.step` puts the three together, and `Transition.Reachable.invariant`
carries the invariant over every run.
-/

namespace Xv6.Vm

open LittleEndian Threaded Transition StateExcept

/-! ## Pages and the `next` field -/

/-- Two page-aligned addresses are on one page only if they are equal. -/
theorem page_ne {p q : Nat} (hp : p % PGSIZE = 0) (hq : q % PGSIZE = 0) (hne : p ≠ q) :
    p / PGSIZE ≠ q / PGSIZE := by
  unfold PGSIZE at *
  omega

namespace Kmem

variable {k k' : Kmem}

@[simp] theorem memset_freelist (pa : Nat) (c : UInt8) : (k.memset pa c).freelist = k.freelist := rfl
@[simp] theorem memset_kend (pa : Nat) (c : UInt8) : (k.memset pa c).kend = k.kend := rfl
@[simp] theorem setNext_freelist (r v : Nat) : (k.setNext r v).freelist = k.freelist := rfl
@[simp] theorem setNext_kend (r v : Nat) : (k.setNext r v).kend = k.kend := rfl

theorem memset_pages (pa : Nat) (c : UInt8) :
    (k.memset pa c).pages = Function.update k.pages (pa / PGSIZE) fun _ => c := rfl

theorem setNext_pages_of_ne {r i : Nat} (v : Nat) (h : i ≠ r / PGSIZE) :
    (k.setNext r v).pages i = k.pages i :=
  Function.update_of_ne h _ _

/-- `next` reads only the page it points into. -/
theorem next_of_pages_eq {q : Nat} (h : k'.pages (q / PGSIZE) = k.pages (q / PGSIZE)) :
    k'.next q = k.next q := by
  unfold next
  rw [h]

theorem next_setNext_self {r : Nat} (v : Nat) (hr : r % PGSIZE = 0) :
    (k.setNext r v).next r = v % 2 ^ 64 := by
  unfold next setNext
  dsimp only
  rw [Function.update_self, hr]
  exact getDWord_setDWord_self _ _ (by decide)

/-! ## The three operations -/

/-- `kfree` of an aligned page between `end` and `PHYSTOP` fills it with junk
and links it in front of the list. -/
theorem kfree_eq {pa : Nat} (hal : pa % PGSIZE = 0) (hlo : k.kend ≤ pa) (hhi : pa < PHYSTOP) :
    k.kfree pa = .ok { (k.memset pa 1).setNext pa k.freelist with freelist := pa } := by
  unfold kfree
  rw [if_neg (by omega)]
  rfl

theorem kalloc_of_eq_zero (h : k.freelist = 0) : k.kalloc = (0, k) := by
  unfold kalloc
  rw [if_pos h]

theorem kalloc_of_ne_zero (h : k.freelist ≠ 0) :
    k.kalloc = (k.freelist, ({ k with freelist := k.next k.freelist }).memset k.freelist 5) := by
  unfold kalloc
  rw [if_neg h]

/-- `kfree` of an aligned page between `end` and `PHYSTOP` that is not on the
list pushes it, and changes no other page. -/
theorem kfree_links {pa : Nat} {L : List Nat} (hal : pa % PGSIZE = 0) (hlo : k.kend ≤ pa)
    (hhi : pa < PHYSTOP) (hne0 : pa ≠ 0) (hL : Links k.next 0 k.freelist L)
    (hrest : ∀ q ∈ L, q % PGSIZE = 0 ∧ q ≠ pa ∧ q < PHYSTOP) :
    ∃ k', k.kfree pa = .ok k' ∧ k'.kend = k.kend ∧
      (∀ i, i ≠ pa / PGSIZE → k'.pages i = k.pages i) ∧
      Links k'.next 0 k'.freelist (pa :: L) := by
  -- the old head is `0` or a page, so the `next` field holds it exactly
  have hhead : k.freelist < 2 ^ 64 := by
    rcases hL.head_mem_or_null with h0 | hmem
    · rw [h0]
      decide
    · have := (hrest _ hmem).2.2
      unfold PHYSTOP KERNBASE at this
      omega
  set k' : Kmem := { (k.memset pa 1).setNext pa k.freelist with freelist := pa }
  have hpages : ∀ i, i ≠ pa / PGSIZE → k'.pages i = k.pages i := fun i hi => by
    show ((k.memset pa 1).setNext pa k.freelist).pages i = _
    rw [setNext_pages_of_ne _ hi, memset_pages, Function.update_of_ne hi]
  refine ⟨k', kfree_eq hal hlo hhi, rfl, hpages, ?_⟩
  show Links k'.next 0 pa (pa :: L)
  refine hL.push hne0 ?_ fun q hq =>
    next_of_pages_eq (hpages _ (page_ne (hrest q hq).1 hal (hrest q hq).2.1))
  show ((k.memset pa 1).setNext pa k.freelist).next pa = k.freelist
  rw [next_setNext_self _ hal, Nat.mod_eq_of_lt hhead]

/-- `kalloc` on a list of aligned pages returns its head, leaves its tail,
and changes no page but the head's. -/
theorem kalloc_links {r : Nat} {L : List Nat} (hL : Links k.next 0 k.freelist (r :: L))
    (hal : ∀ q ∈ r :: L, q % PGSIZE = 0) :
    k.kalloc.1 = r ∧ k.kalloc.2.kend = k.kend ∧ k.kalloc.2.pages (r / PGSIZE) = (fun _ => 5) ∧
      (∀ i, i ≠ r / PGSIZE → k.kalloc.2.pages i = k.pages i) ∧
      Links k.kalloc.2.next 0 k.kalloc.2.freelist L := by
  obtain ⟨rfl, hr0, hrest⟩ := links_cons_iff.mp hL
  have hnot : k.freelist ∉ L := (List.nodup_cons.mp hL.nodup).1
  rw [kalloc_of_ne_zero hr0]
  have hpages : ∀ i, i ≠ k.freelist / PGSIZE →
      (({ k with freelist := k.next k.freelist }).memset k.freelist 5).pages i = k.pages i :=
    fun i hi => Function.update_of_ne hi _ _
  refine ⟨rfl, rfl, Function.update_self _ _ _, hpages,
    hrest.frame fun q hq => next_of_pages_eq (hpages _ ?_)⟩
  exact page_ne (hal q (List.mem_cons_of_mem _ hq)) (hal _ List.mem_cons_self)
    fun h => hnot (h ▸ hq)

/-! ## `freerange` -/

/-- The rounds of `freerange` from the aligned `p` push the pages from `p` up
to `pa_end` in front of the list, when there are enough of them. -/
theorem freerangeLoop_spec {pa_end : Nat} (hend : pa_end ≤ PHYSTOP) (fuel : Nat) :
    ∀ p k L, p % PGSIZE = 0 → k.kend ≤ p → 0 < k.kend → (pa_end - p) / PGSIZE ≤ fuel →
      Links k.next 0 k.freelist L → (∀ q ∈ L, q % PGSIZE = 0 ∧ q < p) →
      ∃ k' L', freerangeLoop pa_end fuel p k = .ok k' ∧ k'.kend = k.kend ∧
        Links k'.next 0 k'.freelist (L' ++ L) ∧
        ∀ q, q ∈ L' ↔ q % PGSIZE = 0 ∧ p ≤ q ∧ q + PGSIZE ≤ pa_end := by
  induction fuel with
  | zero =>
    -- no room is left for a page
    intro p k L _ _ _ hfuel hL _
    refine ⟨k, [], rfl, rfl, hL, fun q => ?_⟩
    simp only [List.not_mem_nil, false_iff]
    unfold PGSIZE at *
    omega
  | succ fuel ih =>
    intro p k L hal hlo hpos hfuel hL hbelow
    by_cases hroom : p + PGSIZE ≤ pa_end
    · -- the round frees `p`, which is above every page on the list
      obtain ⟨k₁, hfree, hkend₁, -, hlinks⟩ :=
        kfree_links hal hlo (by unfold PGSIZE at hroom; omega) (by omega) hL
          fun q hq => ⟨(hbelow q hq).1, Nat.ne_of_lt (hbelow q hq).2, by
            have := (hbelow q hq).2; unfold PGSIZE at hroom; omega⟩
      obtain ⟨k', L', hrun, hkend, hlinks', hmem⟩ :=
        ih (p + PGSIZE) k₁ (p :: L) (by unfold PGSIZE at *; omega) (by omega) (by omega)
          (by unfold PGSIZE at *; omega) hlinks
          (by
            intro q hq
            rcases List.mem_cons.mp hq with rfl | hq
            · exact ⟨hal, by unfold PGSIZE; omega⟩
            · exact ⟨(hbelow q hq).1, by have := (hbelow q hq).2; omega⟩)
      refine ⟨k', L' ++ [p], ?_, hkend.trans hkend₁, by simpa using hlinks', fun q => ?_⟩
      · rw [freerangeLoop, if_pos hroom, hfree, ok_bind, hrun]
      · rw [List.mem_append, hmem, List.mem_singleton]
        constructor
        · rintro (⟨hq, hpq, hqe⟩ | rfl)
          · exact ⟨hq, by omega, hqe⟩
          · exact ⟨hal, Nat.le_refl _, hroom⟩
        · rintro ⟨hq, hpq, hqe⟩
          by_cases hqp : q = p
          · exact .inr hqp
          · have : p + PGSIZE ≤ q := by unfold PGSIZE at *; omega
            exact .inl ⟨hq, this, hqe⟩
    · -- the loop stops
      refine ⟨k, [], ?_, rfl, hL, fun q => ?_⟩
      · rw [freerangeLoop, if_neg hroom]
      · simp only [List.not_mem_nil, false_iff]
        unfold PGSIZE at *
        omega

end Kmem

/-! ## The invariant -/

/-- A page that `freerange(end, PHYSTOP)` gives the allocator. -/
def Managed (kend p : Nat) : Prop := p % PGSIZE = 0 ∧ PGROUNDUP kend ≤ p ∧ p + PGSIZE ≤ PHYSTOP

instance (kend p : Nat) : Decidable (Managed kend p) :=
  inferInstanceAs (Decidable (_ ∧ _ ∧ _))

/-- The pages the allocator manages. -/
def managedPages (kend : Nat) : Finset Nat := (Finset.range PHYSTOP).filter (Managed kend)

theorem mem_managedPages {kend p : Nat} : p ∈ managedPages kend ↔ Managed kend p := by
  rw [managedPages, Finset.mem_filter, Finset.mem_range]
  constructor
  · exact fun h => h.2
  · intro h
    have hend := h.2.2
    unfold PGSIZE at hend
    exact ⟨by omega, h⟩

/-- The free list of `k` is `L`, and `L` and the held pages split the managed pages. -/
structure FreeList (kend : Nat) (k : Kmem) (held : Finset Nat) (L : List Nat) : Prop where
  kend_eq : k.kend = kend
  links : Links k.next 0 k.freelist L
  free_managed : ∀ p ∈ L, Managed kend p
  free_not_held : ∀ p ∈ L, p ∉ held
  held_managed : ∀ p ∈ held, Managed kend p
  cover : ∀ p, Managed kend p → p ∈ L ∨ p ∈ held

section

variable {kend : Nat}

/-- `end` lies in RAM, after `KERNBASE`, as `kernel.ld` places it. -/
structure EndOK (kend : Nat) : Prop where
  lo : KERNBASE ≤ kend
  hi : kend ≤ PHYSTOP

/-- A managed page passes the checks of `kfree` and is not `0`. -/
theorem EndOK.managed {p : Nat} (he : EndOK kend) (hp : Managed kend p) :
    p % PGSIZE = 0 ∧ kend ≤ p ∧ p < PHYSTOP ∧ p ≠ 0 := by
  obtain ⟨hal, hup, hend⟩ := hp
  have hlo := he.lo
  have hhi := he.hi
  unfold PGROUNDUP PGSIZE PHYSTOP KERNBASE at *
  omega

/-- `kinit` lists exactly the managed pages. -/
theorem kinit_spec (he : EndOK kend) (pages : Nat → Page) :
    ∃ k L, Kmem.kinit pages kend = .ok k ∧ FreeList kend k ∅ L := by
  have hup : kend ≤ PGROUNDUP kend := by
    have := he.hi
    unfold PGROUNDUP PGSIZE PHYSTOP KERNBASE at *
    omega
  have hpos : 0 < kend := by
    have := he.lo
    unfold KERNBASE at this
    omega
  obtain ⟨k, L, hrun, hkend, hlinks, hmem⟩ :=
    Kmem.freerangeLoop_spec (Nat.le_refl PHYSTOP) (PHYSTOP / PGSIZE + 1) (PGROUNDUP kend)
      { pages, freelist := 0, kend } [] (Nat.mul_mod_left _ _) hup hpos
      (Nat.le_succ_of_le (Nat.div_le_div_right (Nat.sub_le _ _))) .nil (by simp)
  rw [List.append_nil] at hlinks
  refine ⟨k, L, hrun, ⟨hkend, hlinks, fun p hp => (hmem p).mp hp, fun _ _ => Finset.notMem_empty _,
    fun p hp => absurd hp (Finset.notMem_empty _), fun p hp => .inl ((hmem p).mpr hp)⟩⟩

variable {k : Kmem} {held : Finset Nat} {L : List Nat}

/-- `kalloc` returns the head of the list, `0` when it is empty, and unlinks it. -/
theorem FreeList.kalloc (hinv : FreeList kend k held L) :
    k.kalloc.1 = L.headD 0 ∧
      FreeList kend k.kalloc.2 (if k.kalloc.1 = 0 then held else insert k.kalloc.1 held) L.tail := by
  cases L with
  | nil =>
    rw [Kmem.kalloc_of_eq_zero (links_nil_iff.mp hinv.links)]
    exact ⟨rfl, by simpa using hinv⟩
  | cons r L =>
    have hfree : ∀ q ∈ r :: L, Managed kend q := hinv.free_managed
    obtain ⟨hr, hkend, -, -, hlinks⟩ := Kmem.kalloc_links hinv.links fun q hq => (hfree q hq).1
    have hr0 : r ≠ 0 := fun h => hinv.links.not_mem_null (h ▸ List.mem_cons_self)
    have hnot : r ∉ L := (List.nodup_cons.mp hinv.links.nodup).1
    rw [hr, if_neg hr0]
    refine ⟨rfl, hkend.trans hinv.kend_eq, hlinks, fun q hq => hfree q (List.mem_cons_of_mem r hq),
      fun q hq => ?_, fun q hq => ?_, fun q hq => ?_⟩
    · -- the rest of the list was free, and is not `r`
      rw [Finset.mem_insert, not_or]
      exact ⟨fun h => hnot (h ▸ hq), hinv.free_not_held q (List.mem_cons_of_mem r hq)⟩
    · rcases Finset.mem_insert.mp hq with rfl | hq
      · exact hfree _ List.mem_cons_self
      · exact hinv.held_managed q hq
    · rcases hinv.cover q hq with hfree | hheld
      · rcases List.mem_cons.mp hfree with rfl | hfree
        · exact .inr (Finset.mem_insert_self _ _)
        · exact .inl hfree
      · exact .inr (Finset.mem_insert_of_mem hheld)

/-- `kfree` of a held page does not panic, and pushes it on the list. -/
theorem FreeList.kfree (he : EndOK kend) (hinv : FreeList kend k held L) {pa : Nat}
    (hpa : pa ∈ held) :
    ∃ k', k.kfree pa = .ok k' ∧ FreeList kend k' (held.erase pa) (pa :: L) := by
  have hpm := hinv.held_managed pa hpa
  obtain ⟨hal, hlo, hhi, hne0⟩ := he.managed hpm
  obtain ⟨k', hfree, hkend, -, hlinks⟩ :=
    Kmem.kfree_links hal (hinv.kend_eq ▸ hlo) hhi hne0 hinv.links fun q hq =>
      -- a free page is not the held page `pa`
      have hq' := he.managed (hinv.free_managed q hq)
      ⟨hq'.1, fun h => hinv.free_not_held q hq (h ▸ hpa), hq'.2.2.1⟩
  refine ⟨k', hfree, ⟨hkend.trans hinv.kend_eq, hlinks, ?_, ?_, ?_, ?_⟩⟩
  · intro q hq
    rcases List.mem_cons.mp hq with rfl | hq
    · exact hpm
    · exact hinv.free_managed q hq
  · intro q hq
    rcases List.mem_cons.mp hq with rfl | hq
    · exact Finset.notMem_erase _ _
    · exact fun h => hinv.free_not_held q hq (Finset.mem_of_mem_erase h)
  · exact fun q hq => hinv.held_managed q (Finset.mem_of_mem_erase hq)
  · intro q hq
    by_cases hqp : q = pa
    · exact .inl (hqp ▸ List.mem_cons_self)
    · rcases hinv.cover q hq with hfree | hheld
      · exact .inl (List.mem_cons_of_mem _ hfree)
      · exact .inr (Finset.mem_erase.mpr ⟨hqp, hheld⟩)

/-- A write to a held page leaves the list as it was. -/
theorem FreeList.write (hinv : FreeList kend k held L) {pa : Nat} (hpa : pa ∈ held)
    (page : Page) :
    FreeList kend { k with pages := Function.update k.pages (pa / PGSIZE) page } held L := by
  refine ⟨hinv.kend_eq, hinv.links.frame fun q hq => ?_, hinv.free_managed, hinv.free_not_held,
    hinv.held_managed, hinv.cover⟩
  have hne : q ≠ pa := fun h => hinv.free_not_held q hq (h ▸ hpa)
  have hpage := page_ne (hinv.free_managed q hq).1 (hinv.held_managed pa hpa).1 hne
  exact Kmem.next_of_pages_eq (Function.update_of_ne hpage _ _)

/-- Every call keeps the invariant, with the list it leaves. -/
theorem FreeList.step (he : EndOK kend) {s s' : Pool} {c : KCall}
    (hinv : FreeList kend s.kmem s.held L) (hstep : Pool.Step s c s') :
    ∃ L', FreeList kend s'.kmem s'.held L' := by
  cases hstep with
  | kalloc => exact ⟨_, hinv.kalloc.2⟩
  | kfree hpa hfree =>
    obtain ⟨k', hk', hinv'⟩ := hinv.kfree he hpa
    rw [hfree] at hk'
    cases hk'
    exact ⟨_, hinv'⟩
  | write page hpa => exact ⟨_, hinv.write hpa page⟩

/-- The invariant holds in every state a run reaches. -/
theorem freeList_of_reachable (he : EndOK kend) {s : Pool}
    (h : Reachable (Pool.Init kend) Pool.Step s) : ∃ L, FreeList kend s.kmem s.held L := by
  refine h.invariant (I := fun s => ∃ L, FreeList kend s.kmem s.held L) ?_ ?_
  · rintro s ⟨pages, hinit, hheld⟩
    obtain ⟨k, L, hrun, hinv⟩ := kinit_spec he pages
    rw [hrun] at hinit
    cases hinit
    exact ⟨L, hheld ▸ hinv⟩
  · rintro s c s' - ⟨L, hinv⟩ hstep
    exact hinv.step he hstep

/-- The free and the held pages are all the managed pages, each once. -/
theorem FreeList.card (hinv : FreeList kend k held L) :
    L.length + held.card = (managedPages kend).card := by
  have hsplit : L.toFinset ∪ held = managedPages kend := by
    ext p
    rw [Finset.mem_union, List.mem_toFinset, mem_managedPages]
    constructor
    · rintro (hp | hp)
      · exact hinv.free_managed p hp
      · exact hinv.held_managed p hp
    · exact hinv.cover p
  have hdisj : Disjoint L.toFinset held :=
    Finset.disjoint_left.mpr fun p hp => hinv.free_not_held p (List.mem_toFinset.mp hp)
  rw [← hsplit, Finset.card_union_of_disjoint hdisj, List.toFinset_card_of_nodup hinv.links.nodup]

/-- `kinit` lists exactly the managed pages; and over every run of `kalloc`,
`kfree` of held pages and writes to held pages, the list ends in `0`, has no
page twice, holds only managed pages that are not held, `kalloc` returns `0`
exactly when it is empty and otherwise unlinks its head, `kfree` of a held
page does not panic, and the free and held pages are as many as the managed. -/
theorem kalloc_free_list (hlo : KERNBASE ≤ kend) (hhi : kend ≤ PHYSTOP) :
    (∀ pages, ∃ k L, Kmem.kinit pages kend = .ok k ∧ Links k.next 0 k.freelist L ∧
      ∀ p, p ∈ L ↔ p % PGSIZE = 0 ∧ PGROUNDUP kend ≤ p ∧ p + PGSIZE ≤ PHYSTOP) ∧
    ∀ s, Reachable (Pool.Init kend) Pool.Step s →
      ∃ L, Links s.kmem.next 0 s.kmem.freelist L ∧ L.Nodup ∧
        (∀ p ∈ L, p % PGSIZE = 0 ∧ PGROUNDUP kend ≤ p ∧ p < PHYSTOP ∧ p ∉ s.held) ∧
        (s.kmem.kalloc.1 = 0 ↔ L = []) ∧
        (s.kmem.kalloc.1 ≠ 0 → ∃ L', L = s.kmem.kalloc.1 :: L' ∧
          Links s.kmem.kalloc.2.next 0 s.kmem.kalloc.2.freelist L') ∧
        (∀ pa ∈ s.held, ∃ k, s.kmem.kfree pa = .ok k) ∧
        L.length + s.held.card = (managedPages kend).card := by
  have he : EndOK kend := ⟨hlo, hhi⟩
  refine ⟨fun pages => ?_, fun s hs => ?_⟩
  · obtain ⟨k, L, hrun, hinv⟩ := kinit_spec he pages
    exact ⟨k, L, hrun, hinv.links, fun p =>
      ⟨hinv.free_managed p, fun hp => (hinv.cover p hp).resolve_right (Finset.notMem_empty p)⟩⟩
  · obtain ⟨L, hinv⟩ := freeList_of_reachable he hs
    obtain ⟨hhead, hinv'⟩ := hinv.kalloc
    have h0 : (0 : Nat) ∉ L := hinv.links.not_mem_null
    refine ⟨L, hinv.links, hinv.links.nodup, fun p hp => ?_, ?_, fun hne => ?_,
      fun pa hpa => ?_, hinv.card⟩
    · have hm := hinv.free_managed p hp
      exact ⟨hm.1, hm.2.1, (he.managed hm).2.2.1, hinv.free_not_held p hp⟩
    · -- `kalloc` returns the head, which is `0` only for the empty list
      rw [hhead]
      cases L with
      | nil => simp
      | cons r L =>
        rw [List.headD_cons]
        exact ⟨fun h => (h0 (by rw [← h]; exact List.mem_cons_self)).elim,
          fun h => absurd h (List.cons_ne_nil _ _)⟩
    · cases L with
      | nil => exact (hne hhead).elim
      | cons r L => exact ⟨L, by rw [hhead]; rfl, hinv'.links⟩
    · obtain ⟨k', hk', -⟩ := hinv.kfree he hpa
      exact ⟨k', hk'⟩

theorem kalloc_free_list_kernel_end :
    KERNBASE ≤ KERNBASE + 0x21000 ∧ KERNBASE + 0x21000 ≤ PHYSTOP ∧
    (∀ pages, ∃ k L, Kmem.kinit pages (KERNBASE + 0x21000) = .ok k ∧ Links k.next 0 k.freelist L ∧
      ∀ p, p ∈ L ↔ p % PGSIZE = 0 ∧ PGROUNDUP (KERNBASE + 0x21000) ≤ p ∧ p + PGSIZE ≤ PHYSTOP) ∧
    ∀ s, Reachable (Pool.Init (KERNBASE + 0x21000)) Pool.Step s →
      ∃ L, Links s.kmem.next 0 s.kmem.freelist L ∧ L.Nodup ∧
        (∀ p ∈ L, p % PGSIZE = 0 ∧ PGROUNDUP (KERNBASE + 0x21000) ≤ p ∧ p < PHYSTOP ∧ p ∉ s.held) ∧
        (s.kmem.kalloc.1 = 0 ↔ L = []) ∧
        (s.kmem.kalloc.1 ≠ 0 → ∃ L', L = s.kmem.kalloc.1 :: L' ∧
          Links s.kmem.kalloc.2.next 0 s.kmem.kalloc.2.freelist L') ∧
        (∀ pa ∈ s.held, ∃ k, s.kmem.kfree pa = .ok k) ∧
        L.length + s.held.card = (managedPages (KERNBASE + 0x21000)).card :=
  ⟨by decide, by decide, kalloc_free_list (by decide) (by decide)⟩

end

/-! ## The list model

`Xv6.Vm.kalloc` and `Xv6.Vm.kfree` keep the free list as a Lean list and write
no `next` field.  They are this allocator with the list read off
(`Abstracts`): each operation keeps the relation, as long as no page is freed
while free, and the two agree on what `kalloc` returns and on when `kfree`
panics.  A free page holds a `next` field in one model and junk in the other,
so the pages agree off the free list only. -/

/-- `m` is `k` with its free list read off. -/
structure Abstracts (k : Kmem) (m : Phys) : Prop where
  kend_eq : m.kend = k.kend
  links : Links k.next 0 k.freelist m.freelist
  free_aligned : ∀ p ∈ m.freelist, p % PGSIZE = 0 ∧ p < PHYSTOP
  pages_eq : ∀ i, (∀ p ∈ m.freelist, p / PGSIZE ≠ i) → k.pages i = m.pages i

variable {k : Kmem} {m : Phys}

/-- Both `kalloc`s return the same page and keep the relation. -/
theorem Abstracts.kalloc (h : Abstracts k m) :
    (Vm.kalloc m).1 = k.kalloc.1 ∧ Abstracts k.kalloc.2 (Vm.kalloc m).2 := by
  cases hfree : m.freelist with
  | nil =>
    have h0 : k.freelist = 0 := links_nil_iff.mp (hfree ▸ h.links)
    have hm : Vm.kalloc m = (0, m) := by simp only [Vm.kalloc, hfree]
    rw [hm, Kmem.kalloc_of_eq_zero h0]
    exact ⟨rfl, h⟩
  | cons r L =>
    have hlinks : Links k.next 0 k.freelist (r :: L) := hfree ▸ h.links
    have hal : ∀ q ∈ r :: L, q % PGSIZE = 0 ∧ q < PHYSTOP := hfree ▸ h.free_aligned
    obtain ⟨hr, hkend, hpage, hpages, hlinks'⟩ := Kmem.kalloc_links hlinks fun q hq => (hal q hq).1
    have hm : Vm.kalloc m = (r, ({ m with freelist := L }).memset r 5) := by
      simp only [Vm.kalloc, hfree]
    rw [hm]
    refine ⟨hr.symm, ⟨hkend ▸ h.kend_eq, hlinks', fun q hq => hal q (List.mem_cons_of_mem r hq),
      fun i hi => ?_⟩⟩
    by_cases hir : i = r / PGSIZE
    · -- the page `kalloc` returned: junk in both
      rw [hir, hpage]
      simp [Phys.memset]
    · have hold : ∀ p ∈ m.freelist, p / PGSIZE ≠ i := by
        rw [hfree]
        intro p hp
        rcases List.mem_cons.mp hp with rfl | hp
        · exact Ne.symm hir
        · exact hi p hp
      rw [hpages i hir, h.pages_eq i hold]
      exact (Function.update_of_ne hir _ _).symm

/-- Both `kfree`s panic on the same pages; otherwise they keep the relation,
unless the page is already free. -/
theorem Abstracts.kfree (h : Abstracts k m) (hpos : 0 < k.kend) {pa : Nat}
    (hnot : pa ∉ m.freelist) :
    (Vm.kfree m pa = .error "kfree" ∧ k.kfree pa = .error "kfree") ∨
      ∃ k' m', k.kfree pa = .ok k' ∧ Vm.kfree m pa = .ok m' ∧ Abstracts k' m' := by
  by_cases hbad : pa % PGSIZE ≠ 0 ∨ pa < k.kend ∨ pa ≥ PHYSTOP
  · left
    unfold Vm.kfree Kmem.kfree
    rw [h.kend_eq, if_pos hbad, if_pos hbad]
    exact ⟨rfl, rfl⟩
  right
  have hal : pa % PGSIZE = 0 := by omega
  obtain ⟨k', hk', hkend, hpages, hlinks⟩ :=
    Kmem.kfree_links hal (by omega) (by omega) (by omega) h.links fun q hq =>
      ⟨(h.free_aligned q hq).1, fun hqp => hnot (hqp ▸ hq), (h.free_aligned q hq).2⟩
  refine ⟨k', _, hk', by unfold Vm.kfree; rw [h.kend_eq, if_neg hbad], ⟨?_, hlinks, ?_, ?_⟩⟩
  · exact hkend ▸ h.kend_eq
  · intro q hq
    rcases List.mem_cons.mp hq with rfl | hq
    · exact ⟨hal, by omega⟩
    · exact h.free_aligned q hq
  · -- a page that is not free is neither `pa` nor on the old list
    intro i hi
    have hipa : i ≠ pa / PGSIZE := fun hieq => hi pa List.mem_cons_self hieq.symm
    rw [hpages i hipa, h.pages_eq i fun p hp => hi p (List.mem_cons_of_mem pa hp)]
    exact (Function.update_of_ne hipa _ _).symm

/-- A write to a page that is not free keeps the relation. -/
theorem Abstracts.update (h : Abstracts k m) {i : Nat} (hi : ∀ p ∈ m.freelist, p / PGSIZE ≠ i)
    (page : Page) :
    Abstracts { k with pages := Function.update k.pages i page }
      { m with pages := Function.update m.pages i page } := by
  refine ⟨h.kend_eq, h.links.frame fun q hq => Kmem.next_of_pages_eq ?_, h.free_aligned,
    fun j hj => ?_⟩
  · exact Function.update_of_ne (hi q hq) _ _
  · by_cases hji : j = i
    · subst hji
      simp
    · simp only [Function.update_of_ne hji]
      exact h.pages_eq j hj

end Xv6.Vm
