import Xv6.Vm.Sv39
import Mathlib.Data.Nat.Bitwise

/-!
# The page-table tree that `walk` follows

A page table is read through the views of this file rather than through
`walk`'s loop.  `tableOf m root va d` is the page-table page at depth `d` on
the way of `va`: the root at depth 0, then the pages that its level-2 and
level-1 PTEs point to, while they are valid; `leaf` is the PTE of `va` at
level 0, or `0` when a level above it is missing.  `walk` with `alloc = 0`
returns the address of that PTE (`walk_false`).

A table is well formed (`WF`) when its root is page-aligned, every page of the
tree reached below `MAXVA` is reached along one way only and is not page 0,
and its interior PTEs carry `PTE_V` alone.  Every view of `va` reads only the
PTEs on the way of `va`, so a change of memory that keeps those PTEs keeps the
view (`tableOf_congr`, `leaf_congr`): that is the frame rule of every
operation below.

The PTE macros are shifts and masks; `PX_eq`, `PTE2PA_eq` and `PA2PTE_or`
turn them into division and remainder, and a flag test `pte & (1 << k)` is
bit `k` of the PTE (`and_flag_ne_zero`).
-/

namespace Xv6.Vm

open LittleEndian

/-! ## The macros of `riscv.h` as arithmetic -/

theorem PX_eq (level va : Nat) : PX level va = va / 2 ^ PXSHIFT level % 512 := by
  rw [PX, PXMASK, Nat.shiftRight_eq_div_pow, show (0x1FF : Nat) = 2 ^ 9 - 1 by rfl,
    Nat.and_two_pow_sub_one_eq_mod]

theorem PX_lt (level va : Nat) : PX level va < 512 := by
  rw [PX_eq]
  omega

theorem PTE2PA_eq (pte : Nat) : PTE2PA pte = pte / 1024 * PGSIZE % 2 ^ 64 := by
  rw [PTE2PA, Nat.shiftRight_eq_div_pow, Nat.shiftLeft_eq]
  rfl

theorem PA2PTE_eq (pa : Nat) : PA2PTE pa = pa / PGSIZE * 1024 := by
  rw [PA2PTE, Nat.shiftRight_eq_div_pow, Nat.shiftLeft_eq]
  rfl

theorem PTE2PA_aligned (pte : Nat) : PTE2PA pte % PGSIZE = 0 := by
  rw [PTE2PA_eq, Nat.mod_mod_of_dvd _ (by decide : PGSIZE ∣ 2 ^ 64)]
  exact Nat.mul_mod_left _ _

theorem PTE_FLAGS_eq (pte : Nat) : PTE_FLAGS pte = pte % 1024 :=
  Nat.and_two_pow_sub_one_eq_mod pte 10

/-- A page address and flags below bit 10 side by side in a PTE. -/
theorem PA2PTE_or (pa flags : Nat) (h : flags < 1024) :
    PA2PTE pa ||| flags = pa / PGSIZE * 1024 + flags := by
  rw [PA2PTE, ← Nat.shiftLeft_add_eq_or_of_lt (show flags < 2 ^ 10 from h), Nat.shiftLeft_eq,
    Nat.shiftRight_eq_div_pow]
  rfl

theorem PTE2PA_PA2PTE_or {pa flags : Nat} (hpa : pa % PGSIZE = 0) (hpa64 : pa < 2 ^ 64)
    (h : flags < 1024) : PTE2PA (PA2PTE pa ||| flags) = pa := by
  rw [PA2PTE_or pa flags h, PTE2PA_eq]
  unfold PGSIZE at hpa ⊢
  omega

theorem PTE_FLAGS_PA2PTE_or (pa : Nat) {flags : Nat} (h : flags < 1024) :
    PTE_FLAGS (PA2PTE pa ||| flags) = flags := by
  rw [PA2PTE_or pa flags h, PTE_FLAGS_eq]
  omega

/-- The test of a flag `1 << k` is bit `k` of the PTE. -/
theorem and_flag_ne_zero (pte k : Nat) : pte &&& 1 <<< k ≠ 0 ↔ pte.testBit k = true := by
  rw [Nat.shiftLeft_eq, Nat.one_mul, Nat.and_two_pow]
  cases pte.testBit k <;> simp

theorem and_PTE_V_ne_zero (pte : Nat) : pte &&& PTE_V ≠ 0 ↔ pte % 2 = 1 := by
  rw [PTE_V, and_flag_ne_zero, Nat.testBit_zero]
  simp

theorem PA2PTE_or_lt {flags : Nat} (pa : Nat) (h : flags < 1024) (hpa : pa < 2 ^ 64) :
    PA2PTE pa ||| flags < 2 ^ 64 := by
  rw [PA2PTE_or pa flags h]
  unfold PGSIZE
  omega

/-- Three equal indices name one virtual page below `MAXVA`. -/
theorem vpn_eq_of_PX {va va' : Nat} (hva : va < MAXVA) (hva' : va' < MAXVA)
    (h2 : PX 2 va = PX 2 va') (h1 : PX 1 va = PX 1 va') (h0 : PX 0 va = PX 0 va') :
    va / PGSIZE = va' / PGSIZE := by
  simp only [PX_eq, PXSHIFT] at h2 h1 h0
  simp only [MAXVA] at hva hva'
  unfold PGSIZE
  omega

theorem PX_two_lt {va : Nat} (hva : va < MAXVA) : PX 2 va < 256 := by
  rw [PX_eq, PXSHIFT]
  simp only [MAXVA] at hva
  omega

/-! ## Memory by pages -/

namespace Phys

variable (m : Phys)

/-- The PTE at index `i` of the page at `p`. -/
def pte (p i : Nat) : Nat := getDWord (m.pages (p / PGSIZE)) (8 * i)

@[simp] theorem store_freelist (a v : Nat) : (m.store a v).freelist = m.freelist := rfl
@[simp] theorem store_kend (a v : Nat) : (m.store a v).kend = m.kend := rfl
@[simp] theorem memset_freelist (p : Nat) (c : UInt8) : (m.memset p c).freelist = m.freelist := rfl
@[simp] theorem memset_kend (p : Nat) (c : UInt8) : (m.memset p c).kend = m.kend := rfl
@[simp] theorem memmove_freelist (p : Nat) (src : List UInt8) :
    (m.memmove p src).freelist = m.freelist := rfl
@[simp] theorem memmove_kend (p : Nat) (src : List UInt8) : (m.memmove p src).kend = m.kend := rfl
@[simp] theorem copyPage_freelist (p q : Nat) : (m.copyPage p q).freelist = m.freelist := rfl
@[simp] theorem copyPage_kend (p q : Nat) : (m.copyPage p q).kend = m.kend := rfl

theorem pages_store (a v q : Nat) (hq : q ≠ a / PGSIZE) : (m.store a v).pages q = m.pages q := by
  simp [store, Function.update_of_ne hq]

theorem pages_memset (p : Nat) (c : UInt8) (q : Nat) (hq : q ≠ p / PGSIZE) :
    (m.memset p c).pages q = m.pages q := by
  simp [memset, Function.update_of_ne hq]

theorem pages_memmove (p : Nat) (src : List UInt8) (q : Nat) (hq : q ≠ p / PGSIZE) :
    (m.memmove p src).pages q = m.pages q := by
  simp [memmove, Function.update_of_ne hq]

theorem pages_copyPage (p p' q : Nat) (hq : q ≠ p / PGSIZE) :
    (m.copyPage p p').pages q = m.pages q := by
  simp [copyPage, Function.update_of_ne hq]

/-- The word at a PTE's address in an aligned page is the PTE. -/
theorem load_entry {p : Nat} (hp : p % PGSIZE = 0) {i : Nat} (hi : i < 512) :
    m.load (p + 8 * i) = m.pte p i := by
  have hdiv : (p + 8 * i) / PGSIZE = p / PGSIZE := by
    unfold PGSIZE at hp ⊢
    omega
  have hmod : (p + 8 * i) % PGSIZE = 8 * i := by
    unfold PGSIZE at hp ⊢
    omega
  rw [load, pte, hdiv, hmod]

theorem pte_of_pages {m' : Phys} {p : Nat} (h : m'.pages (p / PGSIZE) = m.pages (p / PGSIZE))
    (i : Nat) : m'.pte p i = m.pte p i := by
  rw [pte, pte, h]

/-- Storing a PTE changes that PTE only. -/
theorem pte_store {p : Nat} (hp : p % PGSIZE = 0) {i : Nat} (hi : i < 512) (v : Nat)
    {q : Nat} (hq : q % PGSIZE = 0) {j : Nat} (hj : j < 512) :
    (m.store (p + 8 * i) v).pte q j = if q = p ∧ j = i then v % 2 ^ 64 else m.pte q j := by
  have hdiv : (p + 8 * i) / PGSIZE = p / PGSIZE := by
    unfold PGSIZE at hp ⊢
    omega
  have hmod : (p + 8 * i) % PGSIZE = 8 * i := by
    unfold PGSIZE at hp ⊢
    omega
  have hqp : q / PGSIZE = p / PGSIZE ↔ q = p := by
    unfold PGSIZE at hp hq ⊢
    omega
  by_cases hsame : q = p
  · subst hsame
    simp only [pte, store, hdiv, hmod, Function.update_self, true_and]
    split_ifs with hji
    · subst hji
      exact getDWord_setDWord_self _ _ (by unfold PGSIZE; omega)
    · exact getDWord_setDWord_of_disjoint _ _ (by omega)
  · rw [if_neg (fun h => hsame h.1)]
    apply pte_of_pages
    apply pages_store
    rw [hdiv]
    exact fun h => hsame (hqp.mp h)

/-- A page set to zero holds invalid PTEs only. -/
theorem pte_memset_zero (p i : Nat) : (m.memset p 0).pte p i = 0 := by
  simp [pte, memset]

end Phys

/-! ## The tree of a page table -/

namespace Phys

variable (m : Phys)

/-- The page the PTE at index `i` of `p` points to, if it is valid. -/
def child (p i : Nat) : Option Nat :=
  if m.pte p i &&& PTE_V ≠ 0 then some (PTE2PA (m.pte p i)) else none

/-- The page-table page at depth `d` on the way of `va`: the root, then the
pages that the PTEs of `va` at levels 2 and 1 point to. -/
def tableOf (root va : Nat) : Nat → Option Nat
  | 0 => some root
  | d + 1 => (tableOf root va d).bind fun p => m.child p (PX (2 - d) va)

/-- The PTE of `va` at level 0, or `0` when a level above it is missing. -/
def leaf (root va : Nat) : Nat :=
  match m.tableOf root va 2 with
  | some t => m.pte t (PX 0 va)
  | none => 0

/-- `p` is a page of the tree at `root`, reached on the way of some `va` below `MAXVA`. -/
def IsTable (root p : Nat) : Prop :=
  ∃ va < MAXVA, ∃ d ≤ 2, m.tableOf root va d = some p

@[simp] theorem tableOf_zero (root va : Nat) : m.tableOf root va 0 = some root := rfl

theorem tableOf_succ (root va d : Nat) :
    m.tableOf root va (d + 1) = (m.tableOf root va d).bind fun p => m.child p (PX (2 - d) va) :=
  rfl

theorem child_aligned {p i q : Nat} (h : m.child p i = some q) : q % PGSIZE = 0 := by
  unfold child at h
  split_ifs at h
  cases h
  exact PTE2PA_aligned _

theorem child_congr {m' : Phys} {p i : Nat} (h : m'.pte p i = m.pte p i) :
    m'.child p i = m.child p i := by
  rw [child, child, h]

theorem isTable_root (root : Nat) : m.IsTable root root :=
  ⟨0, by simp [MAXVA], 0, by omega, rfl⟩

end Phys

/-- The way of `va` is the same as the way of `va'` for `d` steps when their
first `d` indices agree. -/
def SameWay (va va' d : Nat) : Prop := ∀ k < d, PX (2 - k) va = PX (2 - k) va'

instance (va va' d : Nat) : Decidable (SameWay va va' d) :=
  inferInstanceAs (Decidable (∀ k < d, PX (2 - k) va = PX (2 - k) va'))

theorem SameWay.symm {va va' d : Nat} (h : SameWay va va' d) : SameWay va' va d :=
  fun k hk => (h k hk).symm

theorem SameWay.trans {va va' va'' d : Nat} (h : SameWay va va' d) (h' : SameWay va' va'' d) :
    SameWay va va'' d :=
  fun k hk => (h k hk).trans (h' k hk)

theorem SameWay.mono {va va' d d' : Nat} (h : SameWay va va' d) (hd : d' ≤ d) : SameWay va va' d' :=
  fun k hk => h k (by omega)

theorem SameWay.succ {va va' d : Nat} (h : SameWay va va' d) (he : PX (2 - d) va = PX (2 - d) va') :
    SameWay va va' (d + 1) := by
  intro k hk
  rcases Nat.lt_succ_iff_lt_or_eq.mp hk with hk | rfl
  · exact h k hk
  · exact he

/-- The indices of `va` depend on its page only. -/
theorem PX_of_page_eq {va va' : Nat} (h : va / PGSIZE = va' / PGSIZE) (level : Nat) :
    PX level va = PX level va' := by
  have hdiv : ∀ x, x / 2 ^ PXSHIFT level = x / PGSIZE / 2 ^ (9 * level) := by
    intro x
    rw [PXSHIFT, Nat.pow_add, ← Nat.div_div_eq_div_mul]
    rfl
  rw [PX_eq, PX_eq, hdiv, hdiv, h]

/-- Two addresses below `MAXVA` are on one page exactly when their three indices agree. -/
theorem page_eq_iff {va va' : Nat} (hva : va < MAXVA) (hva' : va' < MAXVA) :
    va / PGSIZE = va' / PGSIZE ↔ SameWay va va' 2 ∧ PX 0 va = PX 0 va' := by
  constructor
  · intro h
    exact ⟨fun k _ => PX_of_page_eq h _, PX_of_page_eq h 0⟩
  · rintro ⟨hw, h0⟩
    exact vpn_eq_of_PX hva hva' (hw 0 (by omega)) (hw 1 (by omega)) h0

theorem tableOf_sameWay (m : Phys) (root : Nat) {va va' : Nat} :
    ∀ {d}, SameWay va va' d → m.tableOf root va d = m.tableOf root va' d
  | 0, _ => rfl
  | d + 1, h => by
    rw [Phys.tableOf_succ, Phys.tableOf_succ, tableOf_sameWay m root (fun k hk => h k (by omega)),
      h d (by omega)]

/-- **Frame rule of the views.**  A change of memory that keeps the PTEs on the
way of `va` for `d` steps keeps the pages of that way. -/
theorem tableOf_congr {m m' : Phys} (root va : Nat) :
    ∀ d, (∀ k < d, ∀ p, m.tableOf root va k = some p →
      m'.pte p (PX (2 - k) va) = m.pte p (PX (2 - k) va)) →
      m'.tableOf root va d = m.tableOf root va d
  | 0, _ => rfl
  | d + 1, h => by
    rw [Phys.tableOf_succ, Phys.tableOf_succ,
      tableOf_congr root va d (fun k hk => h k (by omega))]
    cases hp : m.tableOf root va d with
    | none => rfl
    | some p => exact Phys.child_congr m (h d (by omega) p hp)

/-- The same rule for the leaf PTE, which reads one PTE more. -/
theorem leaf_congr {m m' : Phys} (root va : Nat)
    (h : ∀ k < 3, ∀ p, m.tableOf root va k = some p →
      m'.pte p (PX (2 - k) va) = m.pte p (PX (2 - k) va)) :
    m'.leaf root va = m.leaf root va := by
  unfold Phys.leaf
  rw [tableOf_congr root va 2 (fun k hk => h k (by omega))]
  cases hp : m.tableOf root va 2 with
  | none => rfl
  | some t => exact h 2 (by omega) t hp

theorem Phys.tableOf_aligned (m : Phys) {root va : Nat} (hroot : root % PGSIZE = 0) :
    ∀ {d p}, m.tableOf root va d = some p → p % PGSIZE = 0
  | 0, p, h => by
    cases h
    exact hroot
  | d + 1, p, h => by
    rw [Phys.tableOf_succ, Option.bind_eq_some_iff] at h
    obtain ⟨x, -, hx⟩ := h
    exact m.child_aligned hx

/-- `walk` with `alloc = 0` returns the address of the PTE of `va` at level 0,
or `0`, and changes nothing. -/
theorem walk_false (m : Phys) {root va : Nat} (hroot : root % PGSIZE = 0) (hva : va < MAXVA) :
    walk m root va false =
      .ok ((m.tableOf root va 2).elim 0 (fun t => t + 8 * PX 0 va), m) := by
  rw [walk, if_neg (by omega)]
  simp only [walkLevels, Phys.load_entry m hroot (PX_lt 2 va), Bool.not_false, ite_true]
  have h1 : m.tableOf root va 1 = m.child root (PX 2 va) := rfl
  by_cases hv2 : m.pte root (PX 2 va) &&& PTE_V ≠ 0
  · rw [if_pos hv2]
    have ht1 : m.tableOf root va 1 = some (PTE2PA (m.pte root (PX 2 va))) := by
      rw [h1, Phys.child, if_pos hv2]
    rw [Phys.load_entry m (PTE2PA_aligned _) (PX_lt 1 va)]
    have h2 : m.tableOf root va 2 = m.child (PTE2PA (m.pte root (PX 2 va))) (PX 1 va) := by
      rw [Phys.tableOf_succ, ht1]
      rfl
    by_cases hv1 : m.pte (PTE2PA (m.pte root (PX 2 va))) (PX 1 va) &&& PTE_V ≠ 0
    · rw [if_pos hv1, h2, Phys.child, if_pos hv1]
      rfl
    · rw [if_neg hv1, h2, Phys.child, if_neg hv1]
      rfl
  · rw [if_neg hv2]
    have h2 : m.tableOf root va 2 = none := by
      rw [Phys.tableOf_succ, h1, Phys.child, if_neg hv2]
      rfl
    rw [h2]
    rfl

/-! ## Well-formed tables and the free list -/

namespace Phys

variable (m : Phys)

/-- A page `kfree` accepts. -/
def Freeable (pa : Nat) : Prop := pa % PGSIZE = 0 ∧ m.kend ≤ pa ∧ pa < PHYSTOP

/-- The free list holds distinct pages that `kfree` accepts, none of them page 0. -/
structure FreeOK : Prop where
  nodup : m.freelist.Nodup
  freeable : ∀ p ∈ m.freelist, m.Freeable p
  pos : ∀ p ∈ m.freelist, 0 < p

/-- A well-formed page table at `root`: the root is page-aligned, every page of
the tree is reached along one way only and is neither page 0 nor free, and the
PTEs that point to the pages of levels 1 and 0 have only `PTE_V` set. -/
structure WF (root : Nat) : Prop where
  aligned : root % PGSIZE = 0
  distinct : ∀ va < MAXVA, ∀ va' < MAXVA, ∀ d ≤ 2, ∀ d' ≤ 2, ∀ p,
    m.tableOf root va d = some p → m.tableOf root va' d' = some p → d = d' ∧ SameWay va va' d
  pos : ∀ va < MAXVA, ∀ d ≤ 2, ∀ p, m.tableOf root va d = some p → 0 < p
  interior : ∀ va < MAXVA, ∀ d < 2, ∀ p, m.tableOf root va d = some p →
    m.tableOf root va (d + 1) ≠ none → PTE_FLAGS (m.pte p (PX (2 - d) va)) = PTE_V
  not_free : ∀ p ∈ m.freelist, ¬ m.IsTable root p

end Phys

theorem Phys.Freeable.lt_two_pow {m : Phys} {pa : Nat} (h : m.Freeable pa) : pa < 2 ^ 64 := by
  have := h.2.2
  unfold PHYSTOP KERNBASE at this
  omega

theorem Phys.FreeOK.of_eq {m m' : Phys} (h : m.FreeOK) (hl : m'.freelist = m.freelist)
    (hk : m'.kend = m.kend) : m'.FreeOK := by
  refine ⟨hl ▸ h.nodup, fun p hp => ?_, fun p hp => h.pos p (hl ▸ hp)⟩
  obtain ⟨ha, hlo, hhi⟩ := h.freeable p (hl ▸ hp)
  exact ⟨ha, hk ▸ hlo, hhi⟩

section Tree

variable {m m' : Phys} {root : Nat}

theorem Phys.WF.table_aligned (hwf : m.WF root) {va d p : Nat} (h : m.tableOf root va d = some p) :
    p % PGSIZE = 0 :=
  m.tableOf_aligned hwf.aligned h

/-- **Frame rule of well-formedness.**  Keeping the PTEs of levels 2 and 1 on
every way, with a free list that holds no page of the table, keeps a table
well formed; its pages stay the same. -/
theorem Phys.WF.congr (hwf : m.WF root)
    (hint : ∀ va < MAXVA, ∀ k < 2, ∀ p, m.tableOf root va k = some p →
      m'.pte p (PX (2 - k) va) = m.pte p (PX (2 - k) va))
    (hfree : ∀ p ∈ m'.freelist, ¬ m.IsTable root p) : m'.WF root := by
  have htab : ∀ va < MAXVA, ∀ d ≤ 2, m'.tableOf root va d = m.tableOf root va d :=
    fun va hva d hd => tableOf_congr root va d (fun k hk => hint va hva k (by omega))
  refine ⟨hwf.aligned, ?_, ?_, ?_, ?_⟩
  · intro va hva va' hva' d hd d' hd' p h h'
    rw [htab va hva d hd] at h
    rw [htab va' hva' d' hd'] at h'
    exact hwf.distinct va hva va' hva' d hd d' hd' p h h'
  · intro va hva d hd p h
    rw [htab va hva d hd] at h
    exact hwf.pos va hva d hd p h
  · intro va hva d hd p h hne
    rw [htab va hva d (by omega)] at h
    rw [htab va hva (d + 1) (by omega)] at hne
    rw [hint va hva d hd p h]
    exact hwf.interior va hva d hd p h hne
  · rintro p hp ⟨va, hva, d, hd, h⟩
    rw [htab va hva d hd] at h
    exact hfree p hp ⟨va, hva, d, hd, h⟩

/-- A page of level 2 or 1 is not the level-0 page of a way. -/
theorem Phys.WF.ne_of_depth_lt (hwf : m.WF root) {va va' d d' p p' : Nat} (hva : va < MAXVA)
    (hva' : va' < MAXVA) (hd : d < d') (hd' : d' ≤ 2) (h : m.tableOf root va d = some p)
    (h' : m.tableOf root va' d' = some p') : p ≠ p' := by
  rintro rfl
  have := (hwf.distinct va hva va' hva' d (by omega) d' hd' p h h').1
  omega

/-- A PTE stored into a level-0 page leaves the PTEs of levels 2 and 1 alone. -/
theorem Phys.WF.store_leaf_interior (hwf : m.WF root) {va t : Nat} (hva : va < MAXVA)
    (ht : m.tableOf root va 2 = some t) (v : Nat) :
    ∀ va' < MAXVA, ∀ k < 2, ∀ p, m.tableOf root va' k = some p →
      (m.store (t + 8 * PX 0 va) v).pte p (PX (2 - k) va') = m.pte p (PX (2 - k) va') := by
  intro va' hva' k hk p hp
  rw [m.pte_store (hwf.table_aligned ht) (PX_lt 0 va) v (hwf.table_aligned hp) (PX_lt _ _)]
  rw [if_neg (fun h => hwf.ne_of_depth_lt hva' hva hk le_rfl hp ht h.1)]

/-- Storing `v` as the PTE of `va` at level 0 makes it the leaf of `va`'s page
and of no other. -/
theorem Phys.WF.leaf_store (hwf : m.WF root) {va t : Nat} (hva : va < MAXVA)
    (ht : m.tableOf root va 2 = some t) (v : Nat) {va' : Nat} (hva' : va' < MAXVA) :
    (m.store (t + 8 * PX 0 va) v).leaf root va' =
      if va' / PGSIZE = va / PGSIZE then v % 2 ^ 64 else m.leaf root va' := by
  have htab : (m.store (t + 8 * PX 0 va) v).tableOf root va' 2 = m.tableOf root va' 2 :=
    tableOf_congr root va' 2 (fun k hk => hwf.store_leaf_interior hva ht v va' hva' k hk)
  unfold Phys.leaf
  rw [htab]
  cases ht' : m.tableOf root va' 2 with
  | none =>
    -- a missing way: `va'` is not on `va`'s page, whose way is complete
    have hne : va' / PGSIZE ≠ va / PGSIZE := by
      intro h
      rw [tableOf_sameWay m root ((page_eq_iff hva' hva).mp h).1, ht] at ht'
      cases ht'
    simp [hne]
  | some t' =>
    dsimp only
    rw [m.pte_store (hwf.table_aligned ht) (PX_lt 0 va) v (hwf.table_aligned ht') (PX_lt 0 va')]
    have hiff : (t' = t ∧ PX 0 va' = PX 0 va) ↔ va' / PGSIZE = va / PGSIZE := by
      rw [page_eq_iff hva' hva]
      constructor
      · rintro ⟨rfl, h0⟩
        exact ⟨(hwf.distinct va' hva' va hva 2 le_rfl 2 le_rfl t' ht' ht).2, h0⟩
      · rintro ⟨hw, h0⟩
        refine ⟨?_, h0⟩
        rw [tableOf_sameWay m root hw, ht] at ht'
        exact (Option.some.inj ht').symm
    simp only [hiff]

/-- Storing a leaf PTE keeps the table well formed, with the same pages. -/
theorem Phys.WF.store_leaf_wf (hwf : m.WF root) {va t : Nat} (hva : va < MAXVA)
    (ht : m.tableOf root va 2 = some t) (v : Nat) : (m.store (t + 8 * PX 0 va) v).WF root :=
  hwf.congr (hwf.store_leaf_interior hva ht v) hwf.not_free

theorem Phys.WF.isTable_store_leaf (hwf : m.WF root) {va t : Nat} (hva : va < MAXVA)
    (ht : m.tableOf root va 2 = some t) (v x : Nat) :
    (m.store (t + 8 * PX 0 va) v).IsTable root x ↔ m.IsTable root x := by
  have htab : ∀ va' < MAXVA, ∀ d ≤ 2,
      (m.store (t + 8 * PX 0 va) v).tableOf root va' d = m.tableOf root va' d :=
    fun va' hva' d hd => tableOf_congr root va' d
      (fun k hk => hwf.store_leaf_interior hva ht v va' hva' k (by omega))
  constructor
  · rintro ⟨va', hva', d, hd, hx⟩
    exact ⟨va', hva', d, hd, htab va' hva' d hd ▸ hx⟩
  · rintro ⟨va', hva', d, hd, hx⟩
    exact ⟨va', hva', d, hd, (htab va' hva' d hd).symm ▸ hx⟩

theorem Phys.tableOf_none_mono (m : Phys) {root va k : Nat} (h : m.tableOf root va k = none) :
    ∀ {k'}, k ≤ k' → m.tableOf root va k' = none
  | k', hk => by
    induction k' with
    | zero =>
      obtain rfl : k = 0 := by omega
      exact h
    | succ k' ih =>
      rcases Nat.lt_or_ge k' k with hlt | hge
      · obtain rfl : k = k' + 1 := by omega
        exact h
      · rw [Phys.tableOf_succ, ih hge]
        rfl

end Tree

/-! ## Attaching a fresh page -/

theorem Phys.memset_memset (m : Phys) (p : Nat) (a b : UInt8) :
    (m.memset p a).memset p b = m.memset p b := by
  simp [Phys.memset, Function.update_idem]

theorem Phys.pte_memset_of_ne (m : Phys) {p q : Nat} (hp : p % PGSIZE = 0) (hq : q % PGSIZE = 0)
    (hne : q ≠ p) (c : UInt8) (j : Nat) : (m.memset p c).pte q j = m.pte q j := by
  apply Phys.pte_of_pages
  apply Phys.pages_memset
  unfold PGSIZE at hp hq ⊢
  omega

/-- The memory after `walk` takes the page `q` off the free list, zeroes it and
stores a PTE pointing to it at index `i` of the page `p`. -/
def Phys.attach (m : Phys) (rest : List Nat) (q p i : Nat) : Phys :=
  ((({ m with freelist := rest } : Phys).memset q 5).memset q 0).store (p + 8 * i) (PA2PTE q ||| PTE_V)

@[simp] theorem Phys.attach_freelist (m : Phys) (rest : List Nat) (q p i : Nat) :
    (m.attach rest q p i).freelist = rest := rfl

@[simp] theorem Phys.attach_kend (m : Phys) (rest : List Nat) (q p i : Nat) :
    (m.attach rest q p i).kend = m.kend := rfl

/-- An interior PTE for the page `q`. -/
theorem interior_pte {q : Nat} (hq : q % PGSIZE = 0) (hq64 : q < 2 ^ 64) :
    (PA2PTE q ||| PTE_V) &&& PTE_V ≠ 0 ∧ PTE2PA (PA2PTE q ||| PTE_V) = q ∧
      PTE_FLAGS (PA2PTE q ||| PTE_V) = PTE_V := by
  have hv : PTE_V < 1024 := by decide
  refine ⟨?_, PTE2PA_PA2PTE_or hq hq64 hv, PTE_FLAGS_PA2PTE_or q hv⟩
  rw [and_PTE_V_ne_zero, PA2PTE_or q PTE_V hv, PTE_V]
  omega

/-- What `walk` finds when it attaches a fresh page: the free list starts with
`q`, and the PTE at depth `d` on the way of `va`, in the page `p`, is invalid. -/
structure AttachAt (m : Phys) (root va d p q : Nat) (rest : List Nat) : Prop where
  wf : m.WF root
  free : m.FreeOK
  list : m.freelist = q :: rest
  va_lt : va < MAXVA
  d_lt : d < 2
  table : m.tableOf root va d = some p
  invalid : m.child p (PX (2 - d) va) = none

namespace AttachAt

variable {m : Phys} {root va d p q : Nat} {rest : List Nat} (h : AttachAt m root va d p q rest)
include h

theorem q_mem : q ∈ m.freelist := by
  rw [h.list]
  exact List.mem_cons_self

theorem q_aligned : q % PGSIZE = 0 := (h.free.freeable q h.q_mem).1

theorem q_lt : q < 2 ^ 64 := (h.free.freeable q h.q_mem).lt_two_pow

theorem q_not_table : ¬ m.IsTable root q := h.wf.not_free q h.q_mem

theorem p_aligned : p % PGSIZE = 0 := h.wf.table_aligned h.table

theorem p_ne_q : p ≠ q := by
  rintro rfl
  exact h.q_not_table ⟨va, h.va_lt, d, by have := h.d_lt; omega, h.table⟩

/-- The PTEs after attaching: the new one, the zeroed page, and the rest as they were. -/
theorem pte_attach {x : Nat} (hx : x % PGSIZE = 0) {j : Nat} (hj : j < 512) :
    (m.attach rest q p (PX (2 - d) va)).pte x j =
      if x = p ∧ j = PX (2 - d) va then PA2PTE q ||| PTE_V
      else if x = q then 0 else m.pte x j := by
  have hv : PA2PTE q ||| PTE_V < 2 ^ 64 := PA2PTE_or_lt q (by decide) h.q_lt
  rw [Phys.attach, Phys.pte_store _ h.p_aligned (PX_lt _ _) _ hx hj, Nat.mod_eq_of_lt hv,
    Phys.memset_memset]
  split_ifs with hxp hxq
  · rfl
  · subst hxq
    exact Phys.pte_memset_zero _ _ _
  · rw [Phys.pte_memset_of_ne _ h.q_aligned hx hxq]
    rfl

/-- Off the new PTE and the fresh page, a way reads what it read before. -/
theorem pte_eq {va' k' x : Nat} (hva' : va' < MAXVA) (hk' : k' ≤ 2)
    (hx : m.tableOf root va' k' = some x) (hnot : ¬ (k' = d ∧ SameWay va va' (d + 1))) :
    (m.attach rest q p (PX (2 - d) va)).pte x (PX (2 - k') va') = m.pte x (PX (2 - k') va') := by
  rw [h.pte_attach (h.wf.table_aligned hx) (PX_lt _ _)]
  have hxq : x ≠ q := by
    rintro rfl
    exact h.q_not_table ⟨va', hva', k', hk', hx⟩
  rw [if_neg ?_, if_neg hxq]
  rintro ⟨rfl, hj⟩
  obtain ⟨rfl, hw⟩ := h.wf.distinct va' hva' va h.va_lt k' hk' d (by have := h.d_lt; omega) x hx
    h.table
  exact hnot ⟨rfl, hw.symm.succ hj.symm⟩

/-- The new PTE. -/
theorem pte_new : (m.attach rest q p (PX (2 - d) va)).pte p (PX (2 - d) va) = PA2PTE q ||| PTE_V := by
  rw [h.pte_attach h.p_aligned (PX_lt _ _), if_pos ⟨rfl, rfl⟩]

/-- The fresh page is zero. -/
theorem pte_fresh {j : Nat} (hj : j < 512) : (m.attach rest q p (PX (2 - d) va)).pte q j = 0 := by
  rw [h.pte_attach h.q_aligned hj, if_neg (fun hc => h.p_ne_q hc.1.symm), if_pos rfl]

/-- The fresh page holds invalid PTEs only. -/
theorem child_fresh {j : Nat} (hj : j < 512) : (m.attach rest q p (PX (2 - d) va)).child q j = none := by
  rw [Phys.child, h.pte_fresh hj]
  simp

/-- A way through the new PTE reaches `q` at depth `d + 1`. -/
theorem tableOf_way {va' : Nat} (hva' : va' < MAXVA) (hw : SameWay va va' (d + 1)) :
    (m.attach rest q p (PX (2 - d) va)).tableOf root va' (d + 1) = some q := by
  have hd := h.d_lt
  have hto : (m.attach rest q p (PX (2 - d) va)).tableOf root va' d = some p := by
    rw [tableOf_congr root va' d (fun k' hk' x hx => h.pte_eq hva' (by omega) hx
      (fun hc' => by omega)), ← tableOf_sameWay m root (hw.mono (by omega)), h.table]
  rw [Phys.tableOf_succ, hto, ← hw d (by omega), Option.bind_some, Phys.child, h.pte_new,
    if_pos (interior_pte h.q_aligned h.q_lt).1, (interior_pte h.q_aligned h.q_lt).2.1]

/-- The pages of each way after attaching: the way of `va`'s first `d + 1`
indices now reaches `q` at depth `d + 1` and stops below it. -/
theorem tableOf_attach {va' k : Nat} (hva' : va' < MAXVA) (hk : k ≤ 2) :
    (m.attach rest q p (PX (2 - d) va)).tableOf root va' k =
      if d < k ∧ SameWay va va' (d + 1) then (if k = d + 1 then some q else none)
      else m.tableOf root va' k := by
  have hd := h.d_lt
  split_ifs with hc hk1
  · subst hk1
    exact h.tableOf_way hva' hc.2
  · -- below the fresh page
    obtain ⟨hdk, hw⟩ := hc
    obtain rfl : k = d + 2 := by omega
    rw [Phys.tableOf_succ, h.tableOf_way hva' hw, Option.bind_some, h.child_fresh (PX_lt _ _)]
  · exact tableOf_congr root va' k (fun k' hk' x hx => h.pte_eq hva' (by omega) hx
      (fun hc' => hc ⟨by omega, hc'.2⟩))

/-- A page of a way after attaching is the fresh page, reached through the new
PTE, or a page the way reached before. -/
theorem tableOf_attach_eq_some {va' k x : Nat} (hva' : va' < MAXVA) (hk : k ≤ 2)
    (hx : (m.attach rest q p (PX (2 - d) va)).tableOf root va' k = some x) :
    (k = d + 1 ∧ SameWay va va' (d + 1) ∧ x = q) ∨
      (¬ (d < k ∧ SameWay va va' (d + 1)) ∧ m.tableOf root va' k = some x) := by
  rw [h.tableOf_attach hva' hk] at hx
  split_ifs at hx with hc hk1
  · exact .inl ⟨hk1, hc.2, (Option.some.inj hx).symm⟩
  · exact .inr ⟨hc, hx⟩

/-- The way of `va` now reaches `q`. -/
theorem tableOf_self :
    (m.attach rest q p (PX (2 - d) va)).tableOf root va (d + 1) = some q :=
  h.tableOf_way h.va_lt (fun _ _ => rfl)

/-- Before attaching, the ways through the invalid PTE stopped there. -/
theorem tableOf_old {va' k : Nat} (hw : SameWay va va' (d + 1)) (hk : d < k) :
    m.tableOf root va' k = none := by
  have hstop : m.tableOf root va' (d + 1) = none := by
    rw [← tableOf_sameWay m root hw, Phys.tableOf_succ, h.table, Option.bind_some, h.invalid]
  exact m.tableOf_none_mono hstop hk

theorem leaf_attach {va' : Nat} (hva' : va' < MAXVA) :
    (m.attach rest q p (PX (2 - d) va)).leaf root va' = m.leaf root va' := by
  have hd := h.d_lt
  by_cases hw : SameWay va va' (d + 1)
  · -- both ways are cut: before at depth `d + 1`, after in the zeroed page
    have hold : m.leaf root va' = 0 := by
      rw [Phys.leaf, h.tableOf_old hw (by omega)]
    rw [hold, Phys.leaf, h.tableOf_attach hva' le_rfl]
    by_cases hd1 : d = 1
    · subst hd1
      rw [if_pos ⟨by omega, hw⟩, if_pos rfl]
      exact h.pte_fresh (PX_lt _ _)
    · rw [if_pos ⟨by omega, hw⟩, if_neg (by omega)]
  · exact leaf_congr root va' (fun k hk x hx => h.pte_eq hva' (by omega) hx (fun hc => hw hc.2))

theorem isTable_attach (x : Nat) :
    (m.attach rest q p (PX (2 - d) va)).IsTable root x ↔ m.IsTable root x ∨ x = q := by
  have hd := h.d_lt
  constructor
  · rintro ⟨va', hva', k, hk, hx⟩
    rcases h.tableOf_attach_eq_some hva' hk hx with ⟨-, -, hxq⟩ | ⟨-, hx'⟩
    · exact .inr hxq
    · exact .inl ⟨va', hva', k, hk, hx'⟩
  · rintro (⟨va', hva', k, hk, hx⟩ | rfl)
    · refine ⟨va', hva', k, hk, ?_⟩
      rw [h.tableOf_attach hva' hk, if_neg ?_]
      · exact hx
      · rintro ⟨hdk, hw⟩
        rw [h.tableOf_old hw hdk] at hx
        cases hx
    · exact ⟨va, h.va_lt, d + 1, by omega, h.tableOf_self⟩

theorem mem_of_rest {x : Nat} (hx : x ∈ rest) : x ∈ m.freelist := by
  rw [h.list]
  exact List.mem_cons_of_mem _ hx

theorem freeOK_attach : (m.attach rest q p (PX (2 - d) va)).FreeOK := by
  have hnd := h.free.nodup
  rw [h.list] at hnd
  refine ⟨(List.nodup_cons.mp hnd).2, fun x hx => ?_, fun x hx => ?_⟩
  · exact h.free.freeable x (h.mem_of_rest hx)
  · exact h.free.pos x (h.mem_of_rest hx)

theorem wf_attach : (m.attach rest q p (PX (2 - d) va)).WF root := by
  have hd := h.d_lt
  refine ⟨h.wf.aligned, ?_, ?_, ?_, ?_⟩
  · intro va1 hva1 va2 hva2 k1 hk1 k2 hk2 x hx1 hx2
    rcases h.tableOf_attach_eq_some hva1 hk1 hx1 with ⟨hk1', hw1, hxq⟩ | ⟨-, hx1'⟩ <;>
      rcases h.tableOf_attach_eq_some hva2 hk2 hx2 with ⟨hk2', hw2, hxq'⟩ | ⟨-, hx2'⟩
    · -- both ways reach the fresh page through the new PTE
      exact ⟨by omega, (hw1.symm.trans hw2).mono (by omega)⟩
    · exact absurd ⟨va2, hva2, k2, hk2, hxq ▸ hx2'⟩ h.q_not_table
    · exact absurd ⟨va1, hva1, k1, hk1, hxq' ▸ hx1'⟩ h.q_not_table
    · exact h.wf.distinct va1 hva1 va2 hva2 k1 hk1 k2 hk2 x hx1' hx2'
  · intro va1 hva1 k hk x hx
    rcases h.tableOf_attach_eq_some hva1 hk hx with ⟨-, -, hxq⟩ | ⟨-, hx'⟩
    · exact hxq ▸ h.free.pos q h.q_mem
    · exact h.wf.pos va1 hva1 k hk x hx'
  · intro va1 hva1 k hk x hx hne
    by_cases hc : k = d ∧ SameWay va va1 (d + 1)
    · -- the new PTE, in `p`
      obtain ⟨rfl, hw⟩ := hc
      have hxp : x = p := by
        rcases h.tableOf_attach_eq_some hva1 (by omega) hx with ⟨hk1, -, -⟩ | ⟨-, hx'⟩
        · omega
        · rw [← tableOf_sameWay m root (hw.mono (by omega)), h.table] at hx'
          exact (Option.some.inj hx').symm
      subst hxp
      rw [← hw k (by omega), h.pte_new]
      exact (interior_pte h.q_aligned h.q_lt).2.2
    · rcases h.tableOf_attach_eq_some hva1 (by omega) hx with ⟨-, -, hxq⟩ | ⟨hc', hx'⟩
      · -- the fresh page: nothing hangs below it
        exfalso
        apply hne
        rw [Phys.tableOf_succ, hx, Option.bind_some, hxq, h.child_fresh (PX_lt _ _)]
      · have hne' : m.tableOf root va1 (k + 1) ≠ none := by
          intro h0
          apply hne
          rw [h.tableOf_attach hva1 (by omega), if_neg ?_, h0]
          rintro ⟨hdk, hw⟩
          rcases Nat.lt_or_ge d k with hlt | hge
          · exact hc' ⟨hlt, hw⟩
          · exact hc ⟨by omega, hw⟩
        rw [h.pte_eq hva1 (by omega) hx' hc]
        exact h.wf.interior va1 hva1 k hk x hx' hne'
  · intro x hx hxt
    rw [Phys.attach_freelist] at hx
    rcases (h.isTable_attach x).mp hxt with hold | rfl
    · exact h.wf.not_free x (h.mem_of_rest hx) hold
    · have hnd := h.free.nodup
      rw [h.list] at hnd
      exact (List.nodup_cons.mp hnd).1 hx

end AttachAt

/-! ## `walk` with `alloc = 1` -/

/-- `m'` is `m` with pages of the free list taken into the tree at `root`: the
pages taken from the head of the free list are the tree's new pages, and no
page outside the tree changed. -/
structure Extends (m m' : Phys) (root : Nat) : Prop where
  taken : ∃ k, m'.freelist = m.freelist.drop k ∧
    ∀ x, m'.IsTable root x ↔ m.IsTable root x ∨ x ∈ m.freelist.take k
  pages : ∀ n, (∀ x, m'.IsTable root x → n ≠ x / PGSIZE) → m'.pages n = m.pages n
  kend : m'.kend = m.kend

/-- `Extends`, with every leaf PTE as it was. -/
structure Grows (m m' : Phys) (root : Nat) : Prop extends Extends m m' root where
  leaf : ∀ va < MAXVA, m'.leaf root va = m.leaf root va

namespace Extends

variable {m m' m'' : Phys} {root : Nat}

theorem refl (m : Phys) (root : Nat) : Extends m m root :=
  ⟨⟨0, rfl, fun x => by simp⟩, fun _ _ => rfl, rfl⟩

theorem isTable (h : Extends m m' root) {x : Nat} (hx : m.IsTable root x) : m'.IsTable root x := by
  obtain ⟨k, -, hk⟩ := h.taken
  exact (hk x).mpr (.inl hx)

theorem trans (h : Extends m m' root) (h' : Extends m' m'' root) : Extends m m'' root := by
  obtain ⟨k, hk, ht⟩ := h.taken
  obtain ⟨k', hk', ht'⟩ := h'.taken
  refine ⟨⟨k + k', ?_, fun x => ?_⟩, fun n hn => ?_, ?_⟩
  · rw [hk', hk, List.drop_drop]
  · rw [ht', ht, hk, List.take_add, List.mem_append, or_assoc]
  · rw [h'.pages n hn, h.pages n (fun x hx => hn x (h'.isTable hx))]
  · rw [h'.kend, h.kend]

end Extends

theorem Grows.refl (m : Phys) (root : Nat) : Grows m m root :=
  ⟨Extends.refl m root, fun _ _ => rfl⟩

theorem Grows.trans {m m' m'' : Phys} {root : Nat} (h : Grows m m' root) (h' : Grows m' m'' root) :
    Grows m m'' root :=
  ⟨h.toExtends.trans h'.toExtends, fun va hva => by rw [h'.leaf va hva, h.leaf va hva]⟩

/-- A leaf store writes a page of the tree only. -/
theorem Phys.WF.extends_store_leaf {m : Phys} {root : Nat} (hwf : m.WF root) {va t : Nat}
    (hva : va < MAXVA) (ht : m.tableOf root va 2 = some t) (v : Nat) :
    Extends m (m.store (t + 8 * PX 0 va) v) root := by
  refine ⟨⟨0, rfl, fun x => by simp [hwf.isTable_store_leaf hva ht]⟩, fun n hn => ?_, rfl⟩
  have hdiv : (t + 8 * PX 0 va) / PGSIZE = t / PGSIZE := by
    have := hwf.table_aligned ht
    have := PX_lt 0 va
    unfold PGSIZE at *
    omega
  apply Phys.pages_store
  rw [hdiv]
  exact hn t ((hwf.isTable_store_leaf hva ht v t).mpr ⟨va, hva, 2, le_rfl, ht⟩)

theorem AttachAt.grows {m : Phys} {root va d p q : Nat} {rest : List Nat}
    (h : AttachAt m root va d p q rest) : Grows m (m.attach rest q p (PX (2 - d) va)) root := by
  refine ⟨⟨⟨1, ?_, fun x => ?_⟩, fun n hn => ?_, rfl⟩, fun va' hva' => h.leaf_attach hva'⟩
  · simp [h.list]
  · rw [h.isTable_attach, h.list]
    simp [eq_comm]
  · -- only the pages of `p` and `q` were written
    have hq : n ≠ q / PGSIZE := hn q ((h.isTable_attach q).mpr (.inr rfl))
    have hp : n ≠ p / PGSIZE :=
      hn p ((h.isTable_attach p).mpr (.inl ⟨va, h.va_lt, d, by have := h.d_lt; omega, h.table⟩))
    have hdiv : (p + 8 * PX (2 - d) va) / PGSIZE = p / PGSIZE := by
      have := h.p_aligned
      have := PX_lt (2 - d) va
      unfold PGSIZE at *
      omega
    rw [Phys.attach, Phys.pages_store _ _ _ _ (by rw [hdiv]; exact hp),
      Phys.pages_memset _ _ _ _ hq, Phys.pages_memset _ _ _ _ hq]

/-- The loop of `walk` with `alloc = 1`, from the page at depth `2 - level` on
the way of `va`: it returns the address of the PTE of `va` at level 0, or `0`
once the free list has run out, having taken pages into the tree only. -/
theorem walkLevels_true {va : Nat} (hva : va < MAXVA) {root : Nat} :
    ∀ level ≤ 2, ∀ (m : Phys) (p : Nat), m.WF root → m.FreeOK →
      m.tableOf root va (2 - level) = some p →
      ∃ a m', walkLevels va true level p m = (a, m') ∧ m'.WF root ∧ m'.FreeOK ∧ Grows m m' root ∧
        ((a = 0 ∧ m'.freelist = []) ∨ ∃ t, m'.tableOf root va 2 = some t ∧ a = t + 8 * PX 0 va)
  | 0, _, m, p, hwf, hfree, hp =>
    ⟨_, m, rfl, hwf, hfree, Grows.refl m root, .inr ⟨p, hp, rfl⟩⟩
  | level + 1, hl, m, p, hwf, hfree, hp => by
    have hpx : PX (level + 1) va = PX (2 - (2 - (level + 1))) va := by
      congr 1
      omega
    simp only [walkLevels, Phys.load_entry m (hwf.table_aligned hp) (PX_lt _ _), Bool.not_true]
    by_cases hv : m.pte p (PX (level + 1) va) &&& PTE_V ≠ 0
    · -- a valid PTE: go down to the page it points to
      rw [if_pos hv]
      refine walkLevels_true hva level (by omega) m _ hwf hfree ?_
      rw [show 2 - level = 2 - (level + 1) + 1 by omega, Phys.tableOf_succ, hp, Option.bind_some,
        ← hpx, Phys.child, if_pos hv]
    · rw [if_neg hv]
      cases hlist : m.freelist with
      | nil =>
        -- `kalloc` fails
        refine ⟨0, m, ?_, hwf, hfree, Grows.refl m root, .inl ⟨rfl, hlist⟩⟩
        simp [kalloc, hlist]
      | cons q rest =>
        have hq0 : 0 < q := hfree.pos q (by rw [hlist]; exact List.mem_cons_self)
        have hat : AttachAt m root va (2 - (level + 1)) p q rest :=
          ⟨hwf, hfree, hlist, hva, by omega, hp, by rw [← hpx, Phys.child, if_neg hv]⟩
        obtain ⟨a, m', hrun, hwf', hfree', hgrow, hres⟩ :=
          walkLevels_true hva level (by omega) _ q hat.wf_attach hat.freeOK_attach
            (by rw [show 2 - level = 2 - (level + 1) + 1 by omega]; exact hat.tableOf_self)
        refine ⟨a, m', ?_, hwf', hfree', hat.grows.trans hgrow, hres⟩
        obtain ⟨q', rfl⟩ : ∃ q', q = q' + 1 := ⟨q - 1, by omega⟩
        rw [← hrun, ← hpx]
        simp only [kalloc, hlist, Bool.false_eq_true, ↓reduceIte]
        rfl

/-- `walk` with `alloc = 1` below `MAXVA` returns the address of the PTE of
`va` at level 0, creating the pages of the missing levels from the free list,
or `0` once the free list has run out.  Every leaf PTE stays as it was, and
only the tree's pages change. -/
theorem walk_true {m : Phys} {root va : Nat} (hwf : m.WF root) (hfree : m.FreeOK)
    (hva : va < MAXVA) :
    ∃ a m', walk m root va true = .ok (a, m') ∧ m'.WF root ∧ m'.FreeOK ∧ Grows m m' root ∧
      ((a = 0 ∧ m'.freelist = []) ∨ ∃ t, m'.tableOf root va 2 = some t ∧ a = t + 8 * PX 0 va) := by
  obtain ⟨a, m', hrun, hrest⟩ := walkLevels_true hva 2 le_rfl m root hwf hfree rfl
  exact ⟨a, m', by rw [walk, if_neg (by omega), hrun], hrest⟩

/-- A valid leaf is where `walk` without allocation finds it. -/
theorem walk_false_of_valid {m : Phys} {root a : Nat} (hwf : m.WF root) (ha : a < MAXVA)
    (hv : m.leaf root a &&& PTE_V ≠ 0) :
    ∃ pte, walk m root a false = .ok (pte, m) ∧ pte ≠ 0 ∧ m.load pte = m.leaf root a := by
  -- the way of `a` is complete, since its leaf is not the `0` of a missing level
  obtain ⟨t, ht⟩ : ∃ t, m.tableOf root a 2 = some t := by
    cases ht : m.tableOf root a 2 with
    | none =>
      rw [Phys.leaf, ht] at hv
      exact absurd (Nat.zero_and PTE_V) hv
    | some t => exact ⟨t, rfl⟩
  refine ⟨t + 8 * PX 0 a, by rw [walk_false m hwf.aligned ha, ht]; rfl, ?_, ?_⟩
  · have := hwf.pos a ha 2 le_rfl t ht
    omega
  · rw [m.load_entry (hwf.table_aligned ht) (PX_lt 0 a), Phys.leaf, ht]

/-! ## Writes outside the table -/

theorem lt_MAXVA_of_page_eq {va va' : Nat} (h : va / PGSIZE = va' / PGSIZE) :
    va < MAXVA ↔ va' < MAXVA := by
  unfold PGSIZE at h
  simp only [MAXVA]
  omega

/-- The leaf PTE depends on the page only. -/
theorem Phys.leaf_of_page_eq (m : Phys) (root : Nat) {va va' : Nat}
    (h : va / PGSIZE = va' / PGSIZE) : m.leaf root va = m.leaf root va' := by
  unfold Phys.leaf
  rw [tableOf_sameWay m root (fun k _ => PX_of_page_eq h (2 - k)), PX_of_page_eq h 0]

/-- **Frame rule of the table.**  A change of memory that keeps every page of
the table keeps every way and every leaf. -/
theorem Phys.views_of_tables {m m' : Phys} {root : Nat}
    (hpages : ∀ q, m.IsTable root q → m'.pages (q / PGSIZE) = m.pages (q / PGSIZE))
    {va : Nat} (hva : va < MAXVA) :
    (∀ d ≤ 2, m'.tableOf root va d = m.tableOf root va d) ∧ m'.leaf root va = m.leaf root va := by
  have hpte : ∀ k < 3, ∀ p, m.tableOf root va k = some p →
      m'.pte p (PX (2 - k) va) = m.pte p (PX (2 - k) va) :=
    fun k hk p hp => m.pte_of_pages (hpages p ⟨va, hva, k, by omega, hp⟩) _
  exact ⟨fun d hd => tableOf_congr root va d (fun k hk => hpte k (by omega)), leaf_congr root va hpte⟩

theorem Phys.isTable_of_tables {m m' : Phys} {root : Nat}
    (hpages : ∀ q, m.IsTable root q → m'.pages (q / PGSIZE) = m.pages (q / PGSIZE)) (q : Nat) :
    m'.IsTable root q ↔ m.IsTable root q := by
  constructor
  · rintro ⟨va, hva, d, hd, h⟩
    exact ⟨va, hva, d, hd, ((Phys.views_of_tables hpages hva).1 d hd).symm.trans h⟩
  · rintro ⟨va, hva, d, hd, h⟩
    exact ⟨va, hva, d, hd, ((Phys.views_of_tables hpages hva).1 d hd).trans h⟩

end Xv6.Vm
