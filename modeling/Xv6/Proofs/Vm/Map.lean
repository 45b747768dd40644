import Xv6.Proofs.Vm.Walk
import Xv6.Lib.StateExcept

/-!
# `mappages`

Each round of `mappages` walks to the PTE of its page, creating the missing
levels from the free list, checks that the page is not mapped and stores the
new leaf.  `mappagesLoop_spec` follows the rounds: the first `j` pages are
mapped, where `j` is all of them when the call returns 0, and fewer only when
the free list ran out; no other leaf changes, and only the tree's pages are
written.  The page `va + k * PGSIZE` is mapped to `pa + k * PGSIZE`, both
`uint64`s (`mapLeaf`).
-/

namespace Xv6.Vm

/-- The leaf that mapping the pages from `a` to the pages from `pa` with
`perm` gives the page of `va`. -/
def mapLeaf (a pa perm va : Nat) : Nat :=
  PA2PTE ((pa + (va / PGSIZE * PGSIZE - a)) % 2 ^ 64) ||| perm ||| PTE_V

theorem PA2PTE_lt {pa : Nat} (h : pa < 2 ^ 64) : PA2PTE pa < 2 ^ 64 := by
  rw [PA2PTE_eq]
  unfold PGSIZE
  omega

theorem mapLeaf_lt (a pa : Nat) {perm : Nat} (hperm : perm < 2 ^ 64) (va : Nat) :
    mapLeaf a pa perm va < 2 ^ 64 :=
  Nat.or_lt_two_pow (Nat.or_lt_two_pow (PA2PTE_lt (Nat.mod_lt _ (by decide))) hperm) (by decide)

/-- The first page of a mapping. -/
theorem mapLeaf_first {a va : Nat} (ha : a % PGSIZE = 0) (h : va / PGSIZE = a / PGSIZE)
    {pa : Nat} (hpa : pa < 2 ^ 64) (perm : Nat) :
    mapLeaf a pa perm va = PA2PTE pa ||| perm ||| PTE_V := by
  have hoff : va / PGSIZE * PGSIZE - a = 0 := by
    unfold PGSIZE at *
    omega
  rw [mapLeaf, hoff, Nat.add_zero, Nat.mod_eq_of_lt hpa]

/-- The pages after the first continue the mapping one page on. -/
theorem mapLeaf_next {a va : Nat} (ha : a % PGSIZE = 0) (h : a + PGSIZE ≤ va) (pa perm : Nat) :
    mapLeaf (a + PGSIZE) ((pa + PGSIZE) % 2 ^ 64) perm va = mapLeaf a pa perm va := by
  have hoff : va / PGSIZE * PGSIZE - a = PGSIZE + (va / PGSIZE * PGSIZE - (a + PGSIZE)) := by
    unfold PGSIZE at *
    omega
  rw [mapLeaf, mapLeaf, hoff, ← Nat.add_assoc, Nat.mod_add_mod]

/-- The rounds of `mappages` over `n` unmapped pages from `a`: the first `j`
pages are mapped, all `n` when it returns 0, fewer only when the free list ran
out; every other leaf stays, and only pages of the tree are written. -/
theorem mappagesLoop_spec {root perm : Nat} (hperm : perm < 2 ^ 64) :
    ∀ n (m : Phys) a pa, m.WF root → m.FreeOK → a % PGSIZE = 0 → a + n * PGSIZE ≤ MAXVA →
      pa < 2 ^ 64 → (∀ va, a ≤ va → va < a + n * PGSIZE → m.leaf root va &&& PTE_V = 0) →
      ∃ r m' j, mappagesLoop root perm n m a pa = .ok (r, m') ∧ m'.WF root ∧ m'.FreeOK ∧
        Extends m m' root ∧ j ≤ n ∧ (r = 0 ∧ j = n ∨ r = -1 ∧ j < n ∧ m'.freelist = []) ∧
        ∀ va < MAXVA, m'.leaf root va =
          if a ≤ va ∧ va < a + j * PGSIZE then mapLeaf a pa perm va else m.leaf root va
  | 0, m, a, pa, hwf, hfree, _, _, _, _ =>
    ⟨0, m, 0, rfl, hwf, hfree, Extends.refl m root, le_rfl, .inl ⟨rfl, rfl⟩,
      fun va _ => by simp⟩
  | n + 1, m, a, pa, hwf, hfree, ha, hend, hpa, hfresh => by
    have haMAX : a < MAXVA := by
      unfold PGSIZE at hend
      omega
    obtain ⟨pte, m₁, hwalk, hwf₁, hfree₁, hgrow, hres⟩ := walk_true hwf hfree haMAX
    rcases hres with ⟨rfl, hnil⟩ | ⟨t, ht, rfl⟩
    · -- the walk ran out of pages: nothing is mapped
      refine ⟨-1, m₁, 0, ?_, hwf₁, hfree₁, hgrow.toExtends, by omega, .inr ⟨rfl, by omega, hnil⟩,
        fun va hva => by simp [hgrow.leaf va hva]⟩
      simp [mappagesLoop, hwalk, StateExcept.ok_bind]
    · -- the PTE of `a` is the old leaf, which is invalid
      have hload : m₁.load (t + 8 * PX 0 a) = m.leaf root a := by
        rw [m₁.load_entry (hwf₁.table_aligned ht) (PX_lt 0 a), ← hgrow.leaf a haMAX, Phys.leaf, ht]
      have hinv : m.leaf root a &&& PTE_V = 0 := hfresh a le_rfl (by unfold PGSIZE; omega)
      have hpos : t + 8 * PX 0 a ≠ 0 := by
        have := hwf₁.pos a haMAX 2 le_rfl t ht
        omega
      let v := PA2PTE pa ||| perm ||| PTE_V
      let m₂ := m₁.store (t + 8 * PX 0 a) v
      have hv : v % 2 ^ 64 = mapLeaf a pa perm a := by
        rw [mapLeaf_first ha rfl hpa perm, Nat.mod_eq_of_lt]
        simpa [mapLeaf_first ha rfl hpa perm] using mapLeaf_lt a pa hperm a
      have hleaf₂ : ∀ va < MAXVA, m₂.leaf root va =
          if va / PGSIZE = a / PGSIZE then mapLeaf a pa perm a else m.leaf root va := by
        intro va hva
        rw [hwf₁.leaf_store haMAX ht v hva, hv, hgrow.leaf va hva]
      -- the pages after `a` are still unmapped
      have hfresh₂ : ∀ va, a + PGSIZE ≤ va → va < a + PGSIZE + n * PGSIZE →
          m₂.leaf root va &&& PTE_V = 0 := by
        intro va hlo hhi
        have hva : va < MAXVA := by
          unfold PGSIZE at *
          omega
        rw [hleaf₂ va hva, if_neg (by unfold PGSIZE at *; omega)]
        exact hfresh va (by omega) (by unfold PGSIZE at *; omega)
      obtain ⟨r, m', j, hrun, hwf', hfree', hext, hj, hr, hleaf'⟩ :=
        mappagesLoop_spec hperm n m₂ (a + PGSIZE) ((pa + PGSIZE) % 2 ^ 64)
          (hwf₁.store_leaf_wf haMAX ht v) (hfree₁.of_eq rfl rfl)
          (by unfold PGSIZE at *; omega) (by unfold PGSIZE at *; omega) (Nat.mod_lt _ (by decide))
          hfresh₂
      refine ⟨r, m', j + 1, ?_, hwf', hfree', ?_, by omega, ?_, ?_⟩
      · simp only [mappagesLoop, hwalk, StateExcept.ok_bind, if_neg hpos, hload, hinv,
          ne_eq, not_true_eq_false, if_false]
        exact hrun
      · exact hgrow.toExtends.trans ((hwf₁.extends_store_leaf haMAX ht v).trans hext)
      · rcases hr with ⟨rfl, rfl⟩ | ⟨rfl, hj', hnil⟩
        · exact .inl ⟨rfl, rfl⟩
        · exact .inr ⟨rfl, by omega, hnil⟩
      · intro va hva
        rw [hleaf' va hva, hleaf₂ va hva]
        by_cases h1 : va / PGSIZE = a / PGSIZE
        · -- the first page
          rw [if_neg (by unfold PGSIZE at *; omega), if_pos h1, if_pos (by unfold PGSIZE at *; omega),
            mapLeaf_first ha rfl hpa perm, mapLeaf_first ha h1 hpa perm]
        · rw [if_neg h1]
          by_cases h2 : a + PGSIZE ≤ va ∧ va < a + PGSIZE + j * PGSIZE
          · rw [if_pos h2, if_pos (by unfold PGSIZE at *; omega), mapLeaf_next ha h2.1]
          · rw [if_neg h2, if_neg (by unfold PGSIZE at *; omega)]

/-! ## Mapping correctness -/

theorem or_PTE_V_valid (x : Nat) : (x ||| PTE_V) &&& PTE_V ≠ 0 := by
  rw [PTE_V, and_flag_ne_zero, Nat.testBit_or]
  simp

/-- A leaf of `mapLeaf` at a page boundary, read back through `PTE2PA`. -/
theorem PTE2PA_mapLeaf {va a pa perm : Nat} (ha : a % PGSIZE = 0) (hva : va % PGSIZE = 0)
    (hle : va ≤ a) (hpa : pa % PGSIZE = 0) (hperm : perm < 1024) :
    PTE2PA (mapLeaf va pa perm a) = (pa + (a - va)) % 2 ^ 64 := by
  have hoff : a / PGSIZE * PGSIZE - va = a - va := by
    unfold PGSIZE at *
    omega
  have hal : (pa + (a - va)) % 2 ^ 64 % PGSIZE = 0 := by
    rw [Nat.mod_mod_of_dvd _ (by decide : PGSIZE ∣ 2 ^ 64)]
    unfold PGSIZE at *
    omega
  rw [mapLeaf, hoff, Nat.or_assoc,
    PTE2PA_PA2PTE_or hal (Nat.mod_lt _ (by decide)) (Nat.or_lt_two_pow (n := 10) hperm (by decide))]

/-- The leaf that a mapping gives a page is valid. -/
theorem mapLeaf_valid (a pa perm va : Nat) : mapLeaf a pa perm va &&& PTE_V ≠ 0 :=
  or_PTE_V_valid _

/-- `mappages` over a page-aligned range of unmapped pages never panics; it
returns 0 with every page of the range mapped, or -1 with the free list
empty, and no other leaf changes. -/
theorem mappages_spec {m : Phys} {root va size pa perm : Nat} (hwf : m.WF root)
    (hfree : m.FreeOK) (hva : va % PGSIZE = 0) (hsize : 0 < size) (hsz : size % PGSIZE = 0)
    (hend : va + size ≤ MAXVA) (hunmapped : ∀ a, va ≤ a → a < va + size → m.leaf root a &&& PTE_V = 0)
    (hpa64 : pa < 2 ^ 64) (hperm : perm < 2 ^ 64) :
    ∃ r m', mappages m root va size pa perm = .ok (r, m') ∧ m'.WF root ∧ m'.FreeOK ∧
      Extends m m' root ∧ (r = 0 ∨ r = -1 ∧ m'.freelist = []) ∧
      (r = 0 → ∀ a < MAXVA,
        m'.leaf root a = if va ≤ a ∧ a < va + size then mapLeaf va pa perm a else m.leaf root a) := by
  have hn : va + size / PGSIZE * PGSIZE = va + size := by
    unfold PGSIZE at *
    omega
  obtain ⟨r, m', j, hrun, hwf', hfree', hext, -, hr, hleaf⟩ :=
    mappagesLoop_spec hperm (size / PGSIZE) m va pa hwf hfree hva (by rw [hn]; exact hend) hpa64
      (by rw [hn]; exact hunmapped)
  have hcall : mappages m root va size pa perm = .ok (r, m') := by
    rw [mappages, if_neg (by omega), if_neg (by omega), if_neg (by omega), hrun]
  refine ⟨r, m', hcall, hwf', hfree', hext, hr.imp (fun h => h.1) (fun h => ⟨h.1, h.2.2⟩),
    fun hr0 => ?_⟩
  obtain rfl : j = size / PGSIZE := by
    rcases hr with h | ⟨rfl, -, -⟩
    · exact h.2
    · cases hr0
  rw [hn] at hleaf
  exact hleaf

/-- `mappages` of one unmapped page: it maps the page, or returns -1 with the
free list empty and no leaf changed. -/
theorem mappages_page {m : Phys} {root a q perm : Nat} (hwf : m.WF root) (hfree : m.FreeOK)
    (ha : a % PGSIZE = 0) (haMAX : a < MAXVA) (hinv : m.leaf root a &&& PTE_V = 0)
    (hq64 : q < 2 ^ 64) (hperm : perm < 2 ^ 64) :
    ∃ r m', mappages m root a PGSIZE q perm = .ok (r, m') ∧ m'.WF root ∧ m'.FreeOK ∧
      Extends m m' root ∧
      ((r = 0 ∧ ∀ va < MAXVA, m'.leaf root va =
          if va / PGSIZE = a / PGSIZE then PA2PTE q ||| perm ||| PTE_V else m.leaf root va) ∨
        (r = -1 ∧ m'.freelist = [] ∧ ∀ va < MAXVA, m'.leaf root va = m.leaf root va)) := by
  have hend : a + 1 * PGSIZE ≤ MAXVA := by
    simp only [MAXVA] at haMAX ⊢
    unfold PGSIZE at *
    omega
  have hfresh : ∀ va, a ≤ va → va < a + 1 * PGSIZE → m.leaf root va &&& PTE_V = 0 := by
    intro va h1 h2
    rw [m.leaf_of_page_eq root (show va / PGSIZE = a / PGSIZE by unfold PGSIZE at *; omega)]
    exact hinv
  obtain ⟨r, m', j, hrun, hwf', hfree', hext, -, hr, hleaf⟩ :=
    mappagesLoop_spec hperm 1 m a q hwf hfree ha hend hq64 hfresh
  refine ⟨r, m', by rw [mappages, if_neg (by omega), if_neg (by decide), if_neg (by decide)]; exact hrun,
    hwf', hfree', hext, ?_⟩
  rcases hr with ⟨rfl, rfl⟩ | ⟨rfl, hj, hnil⟩
  · refine .inl ⟨rfl, fun va hva => ?_⟩
    rw [hleaf va hva]
    by_cases hpage : va / PGSIZE = a / PGSIZE
    · rw [if_pos (by unfold PGSIZE at *; omega), if_pos hpage, mapLeaf_first ha hpage hq64]
    · rw [if_neg (by unfold PGSIZE at *; omega), if_neg hpage]
  · obtain rfl : j = 0 := by omega
    exact .inr ⟨rfl, hnil, fun va hva => by rw [hleaf va hva]; simp⟩

/-- **Sv39 mapping correctness.**  On a well-formed table, with a sound free
list, `mappages` of unmapped pages below `MAXVA` never panics and keeps the
table well formed; when it returns 0, `walk(pt, a, 0)` finds for every page
`a` of the range the PTE `PA2PTE(pa + (a - va)) | perm | PTE_V`, whose
`PTE2PA` is `pa + (a - va)`, and every address outside the range translates as
before.  `perm` holds flag bits only, as at every call site. -/
theorem mappages_correct {m : Phys} {root va size pa perm : Nat} (hwf : m.WF root)
    (hfree : m.FreeOK) (hva : va % PGSIZE = 0) (hsize : 0 < size) (hsz : size % PGSIZE = 0)
    (hend : va + size ≤ MAXVA) (hunmapped : ∀ a, va ≤ a → a < va + size → m.leaf root a &&& PTE_V = 0)
    (hpa : pa % PGSIZE = 0) (hpa64 : pa < 2 ^ 64) (hperm : perm < 1024) :
    ∃ r m', mappages m root va size pa perm = .ok (r, m') ∧ m'.WF root ∧
      (r = 0 →
        (∀ a, a % PGSIZE = 0 → va ≤ a → a < va + size →
          ∃ pte, walk m' root a false = .ok (pte, m') ∧ pte ≠ 0 ∧
            m'.load pte = PA2PTE ((pa + (a - va)) % 2 ^ 64) ||| perm ||| PTE_V ∧
            PTE2PA (m'.load pte) = (pa + (a - va)) % 2 ^ 64) ∧
        ∀ a < MAXVA, ¬ (va ≤ a ∧ a < va + size) → m'.leaf root a = m.leaf root a) := by
  obtain ⟨r, m', hcall, hwf', -, -, -, hleaf⟩ :=
    mappages_spec hwf hfree hva hsize hsz hend hunmapped hpa64 (show perm < 2 ^ 64 by omega)
  refine ⟨r, m', hcall, hwf', fun hr0 => ⟨fun a ha hlo hhi => ?_, fun a ha hout => ?_⟩⟩
  · have haMAX : a < MAXVA := by omega
    have hla : m'.leaf root a = mapLeaf va pa perm a := by
      rw [hleaf hr0 a haMAX, if_pos ⟨hlo, hhi⟩]
    obtain ⟨pte, hwalk, hpos, hload⟩ :=
      walk_false_of_valid hwf' haMAX (by rw [hla]; exact mapLeaf_valid va pa perm a)
    have hoff : a / PGSIZE * PGSIZE - va = a - va := by
      unfold PGSIZE at *
      omega
    refine ⟨pte, hwalk, hpos, by rw [hload, hla, mapLeaf, hoff], ?_⟩
    rw [hload, hla, PTE2PA_mapLeaf ha hva hlo hpa hperm]
  · rw [hleaf hr0 a ha, if_neg hout]

/-- Memory of zeroes, with an empty page table at `4096` and two free pages. -/
def zeroPhys : Phys where
  pages := fun _ _ => 0
  freelist := [8192, 12288]
  kend := 8192

/-- A table whose root page is all zeroes maps nothing. -/
theorem Phys.leaf_of_zero {m : Phys} {r : Nat} (hz : m.pages (r / PGSIZE) = fun _ => 0) (va : Nat) :
    m.leaf r va = 0 := by
  have h1 : m.tableOf r va 1 = none := by
    simp [Phys.tableOf_succ, Phys.child, Phys.pte, hz]
  rw [Phys.leaf, m.tableOf_none_mono h1 (by omega)]

theorem zeroPhys_leaf (va : Nat) : zeroPhys.leaf 4096 va = 0 :=
  Phys.leaf_of_zero rfl va

/-- The table at `r`, whose root page is all zeroes, is its root alone. -/
theorem Phys.tableOf_of_zero {m : Phys} {r : Nat} (hz : m.pages (r / PGSIZE) = fun _ => 0)
    {va d p : Nat} (h : m.tableOf r va d = some p) : d = 0 ∧ p = r := by
  have h1 : m.tableOf r va 1 = none := by
    simp [Phys.tableOf_succ, Phys.child, Phys.pte, hz]
  rcases Nat.eq_zero_or_pos d with rfl | hpos
  · exact ⟨rfl, (Option.some.inj h).symm⟩
  · rw [m.tableOf_none_mono h1 hpos] at h
    cases h

theorem Phys.isTable_of_zero {m : Phys} {r : Nat} (hz : m.pages (r / PGSIZE) = fun _ => 0)
    {x : Nat} (hx : m.IsTable r x) : x = r := by
  obtain ⟨_, _, _, _, h⟩ := hx
  exact (Phys.tableOf_of_zero hz h).2

theorem Phys.wf_of_zero {m : Phys} {r : Nat} (hz : m.pages (r / PGSIZE) = fun _ => 0)
    (hr : r % PGSIZE = 0) (hpos : 0 < r) (hfl : r ∉ m.freelist) : m.WF r := by
  refine ⟨hr, ?_, ?_, ?_, ?_⟩
  · intro va _ va' _ d _ d' _ p hp hp'
    obtain ⟨rfl, -⟩ := Phys.tableOf_of_zero hz hp
    obtain ⟨rfl, -⟩ := Phys.tableOf_of_zero hz hp'
    exact ⟨rfl, fun k hk => absurd hk (by omega)⟩
  · intro va _ d _ p hp
    rw [(Phys.tableOf_of_zero hz hp).2]
    exact hpos
  · intro va _ d _ p hp hne
    obtain ⟨rfl, -⟩ := Phys.tableOf_of_zero hz hp
    cases hd : m.tableOf r va 1 with
    | none => exact absurd hd hne
    | some t => exact absurd (Phys.tableOf_of_zero hz hd).1 (by omega)
  · intro p hp hx
    rw [Phys.isTable_of_zero hz hx] at hp
    exact hfl hp

theorem zeroPhys_wf : zeroPhys.WF 4096 :=
  Phys.wf_of_zero rfl (by decide) (by decide) (by decide)

theorem zeroPhys_freeOK : zeroPhys.FreeOK :=
  ⟨by decide, fun p hp => by
    simp [zeroPhys] at hp
    rcases hp with rfl | rfl <;> exact ⟨by decide, by decide, by decide⟩,
  fun p hp => by
    simp [zeroPhys] at hp
    omega⟩

theorem mappages_correct_zero :
    ∃ r m', mappages zeroPhys 4096 0 8192 8192 (PTE_R ||| PTE_W) = .ok (r, m') ∧ m'.WF 4096 ∧
      (r = 0 →
        (∀ a, a % PGSIZE = 0 → 0 ≤ a → a < 0 + 8192 →
          ∃ pte, walk m' 4096 a false = .ok (pte, m') ∧ pte ≠ 0 ∧
            m'.load pte = PA2PTE ((8192 + (a - 0)) % 2 ^ 64) ||| (PTE_R ||| PTE_W) ||| PTE_V ∧
            PTE2PA (m'.load pte) = (8192 + (a - 0)) % 2 ^ 64) ∧
        ∀ a < MAXVA, ¬ (0 ≤ a ∧ a < 0 + 8192) → m'.leaf 4096 a = zeroPhys.leaf 4096 a) :=
  mappages_correct zeroPhys_wf zeroPhys_freeOK (by decide) (by decide) (by decide) (by decide)
    (fun a _ _ => by rw [zeroPhys_leaf]; decide) (by decide) (by decide) (by decide)


end Xv6.Vm
