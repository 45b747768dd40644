import Xv6.Proofs.Vm.Map

/-!
# Unmapping and freeing user pages

`uvmunmap(pagetable, va, npages, 1)` clears the leaves of `npages` pages from
`va` and gives their frames back with `kfree`; `uvmdealloc` calls it for the
pages between the rounded new and old sizes.  Both are stated over the pages
a process owns (`Owned`): valid leaves whose frames are distinct pages that
`kfree` accepts, neither free nor pages of the table.

* `uvmunmapLoop_spec`: the leaves of the range become 0, their frames join the
  free list, and nothing else changes but the junk `kfree` writes into the
  frames; the table stays well formed and the free list sound.
* `uvmdealloc_spec`: the same for the pages of `[PGROUNDUP(newsz),
  PGROUNDUP(oldsz))`, with `newsz` returned.
-/

namespace Xv6.Vm

open LittleEndian

namespace Phys

variable (m : Phys)

/-- The frame of `va`: the physical page that the leaf of its page maps. -/
def frame (root va : Nat) : Nat := PTE2PA (m.leaf root va)

/-- The page of `va` is a page of the process: a valid leaf, whose flags are
not `PTE_V` alone (what `uvmunmap` takes for a pointer to a lower level),
mapping a frame that `kfree` accepts, other than 0, neither free nor a page of
the table.  The guard page below the stack of `exec`, without `PTE_U`, is one. -/
structure UserPage (root va : Nat) : Prop where
  valid : m.leaf root va &&& PTE_V ≠ 0
  leaf : PTE_FLAGS (m.leaf root va) ≠ PTE_V
  freeable : m.Freeable (m.frame root va)
  pos : 0 < m.frame root va
  not_free : m.frame root va ∉ m.freelist
  not_table : ¬ m.IsTable root (m.frame root va)

/-- The pages of `[lo, hi)` are pages of the process, with distinct frames. -/
structure Owned (root lo hi : Nat) : Prop where
  page : ∀ va, lo ≤ va → va < hi → m.UserPage root va
  distinct : ∀ va va', lo ≤ va → va < hi → lo ≤ va' → va' < hi →
    m.frame root va = m.frame root va' → va / PGSIZE = va' / PGSIZE

end Phys

theorem Phys.frame_of_page_eq (m : Phys) (root : Nat) {va va' : Nat}
    (h : va / PGSIZE = va' / PGSIZE) : m.frame root va = m.frame root va' := by
  rw [Phys.frame, Phys.frame, m.leaf_of_page_eq root h]

theorem Phys.Owned.mono {m : Phys} {root lo hi lo' hi' : Nat} (h : m.Owned root lo hi)
    (hlo : lo ≤ lo') (hhi : hi' ≤ hi) : m.Owned root lo' hi' :=
  ⟨fun va h1 h2 => h.page va (by omega) (by omega),
    fun va va' h1 h2 h3 h4 => h.distinct va va' (by omega) (by omega) (by omega) (by omega)⟩

/-- A leaf with `PTE_U` is not an interior PTE, whose flags are `PTE_V` alone. -/
theorem PTE_FLAGS_ne_of_user {pte : Nat} (h : pte &&& PTE_U ≠ 0) : PTE_FLAGS pte ≠ PTE_V := by
  rw [PTE_U, and_flag_ne_zero] at h
  intro hf
  have h4 : (pte % 1024).testBit 4 = true := by
    rw [show (1024 : Nat) = 2 ^ 10 from rfl, Nat.testBit_mod_two_pow]
    simpa using h
  rw [← PTE_FLAGS_eq, hf] at h4
  exact absurd h4 (by decide)

/-- `kfree` of a page it accepts. -/
theorem kfree_ok {m : Phys} {pa : Nat} (h : m.Freeable pa) :
    kfree m pa = .ok { m.memset pa 1 with freelist := pa :: m.freelist } := by
  obtain ⟨ha, hlo, hhi⟩ := h
  rw [kfree, if_neg (by omega)]

/-- A valid leaf lies on a complete way. -/
theorem Phys.tableOf_of_valid (m : Phys) {root va : Nat} (h : m.leaf root va &&& PTE_V ≠ 0) :
    ∃ t, m.tableOf root va 2 = some t := by
  cases ht : m.tableOf root va 2 with
  | none =>
    rw [Phys.leaf, ht] at h
    exact absurd (Nat.zero_and PTE_V) h
  | some t => exact ⟨t, rfl⟩

/-! ## `kfree` of a page that is not free -/

theorem Phys.WF.isTable_aligned {m : Phys} {root x : Nat} (hwf : m.WF root) (hx : m.IsTable root x) :
    x % PGSIZE = 0 := by
  obtain ⟨v, -, d, -, hv⟩ := hx
  exact hwf.table_aligned hv

theorem page_ne_of_ne {p x : Nat} (hp : p % PGSIZE = 0) (hx : x % PGSIZE = 0) (h : p ≠ x) :
    p / PGSIZE ≠ x / PGSIZE := by
  unfold PGSIZE at *
  omega

section Kfree

variable {m : Phys} {root p : Nat}

/-- `kfree` of a page off the table keeps every page of the table. -/
theorem Phys.kfree_pages (hwf : m.WF root) (ht : ¬ m.IsTable root p) (hp : p % PGSIZE = 0) :
    ∀ x, m.IsTable root x →
      ({ m.memset p 1 with freelist := p :: m.freelist } : Phys).pages (x / PGSIZE) = m.pages (x / PGSIZE) :=
  fun x hx => m.pages_memset p 1 (x / PGSIZE)
    (page_ne_of_ne (hwf.isTable_aligned hx) hp (fun h => ht (h ▸ hx)))

theorem Phys.kfree_wf (hwf : m.WF root) (ht : ¬ m.IsTable root p) (hp : p % PGSIZE = 0) :
    ({ m.memset p 1 with freelist := p :: m.freelist } : Phys).WF root := by
  refine hwf.congr
    (fun v hv k hk x hx => m.pte_of_pages (Phys.kfree_pages hwf ht hp x ⟨v, hv, k, by omega, hx⟩) _)
    (fun x hx hxt => ?_)
  rcases List.mem_cons.mp hx with rfl | hx
  · exact ht hxt
  · exact hwf.not_free x hx hxt

theorem Phys.kfree_freeOK (hfree : m.FreeOK) (hnf : p ∉ m.freelist) (hp : m.Freeable p) (hpos : 0 < p) :
    ({ m.memset p 1 with freelist := p :: m.freelist } : Phys).FreeOK := by
  refine ⟨List.nodup_cons.mpr ⟨hnf, hfree.nodup⟩, fun x hx => ?_, fun x hx => ?_⟩
  · rcases List.mem_cons.mp hx with rfl | hx
    · exact hp
    · exact hfree.freeable x hx
  · rcases List.mem_cons.mp hx with rfl | hx
    · exact hpos
    · exact hfree.pos x hx

end Kfree

/-- The memory after `kfree` of the frame of `va`. -/
def Phys.freeFrame (m : Phys) (root va : Nat) : Phys :=
  { m.memset (m.frame root va) 1 with freelist := m.frame root va :: m.freelist }

/-! ## `uvmunmap` -/

/-- `m'` is `m` with the pages of `[lo, hi)` unmapped and their frames freed:
the leaves of the range are 0, their frames joined the free list, and no
other leaf, no page of the table and no other page changed. -/
structure Unmapped (m m' : Phys) (root lo hi : Nat) : Prop where
  wf : m'.WF root
  free : m'.FreeOK
  kend : m'.kend = m.kend
  isTable : ∀ x, m'.IsTable root x ↔ m.IsTable root x
  leaf : ∀ va < MAXVA, m'.leaf root va = if lo ≤ va ∧ va < hi then 0 else m.leaf root va
  freelist : ∀ x, x ∈ m'.freelist ↔ x ∈ m.freelist ∨ ∃ va, lo ≤ va ∧ va < hi ∧ x = m.frame root va
  pages : ∀ q, q % PGSIZE = 0 → ¬ m.IsTable root q →
    (∀ va, lo ≤ va → va < hi → q ≠ m.frame root va) → m'.pages (q / PGSIZE) = m.pages (q / PGSIZE)

namespace Unmapped

variable {m m₁ m₂ : Phys} {root lo mid hi : Nat}

theorem refl (hwf : m.WF root) (hfree : m.FreeOK) (lo : Nat) : Unmapped m m root lo lo :=
  ⟨hwf, hfree, rfl, fun _ => Iff.rfl, fun va _ => by simp,
    fun x => ⟨.inl, fun h => h.elim id fun ⟨_, h1, h2, _⟩ => absurd h2 (by omega)⟩,
    fun _ _ _ _ => rfl⟩

/-- Unmapping `[lo, mid)` and then `[mid, hi)` unmaps `[lo, hi)`. -/
theorem append (h₁ : Unmapped m m₁ root lo mid) (h₂ : Unmapped m₁ m₂ root mid hi)
    (hlo : lo ≤ mid) (hmid : mid ≤ hi) (hhi : hi ≤ MAXVA) : Unmapped m m₂ root lo hi := by
  -- the pages of `[mid, hi)` keep their leaves, hence their frames, in `m₁`
  have hframe : ∀ va, mid ≤ va → va < hi → m₁.frame root va = m.frame root va := by
    intro va h1 h2
    rw [Phys.frame, Phys.frame, h₁.leaf va (by omega), if_neg (by omega)]
  refine ⟨h₂.wf, h₂.free, h₂.kend.trans h₁.kend, fun x => (h₂.isTable x).trans (h₁.isTable x),
    fun va hva => ?_, fun x => ?_, fun q hq hqt hqf => ?_⟩
  · rw [h₂.leaf va hva, h₁.leaf va hva]
    by_cases h1 : mid ≤ va ∧ va < hi
    · rw [if_pos h1, if_pos (by omega)]
    · rw [if_neg h1]
      by_cases h2 : lo ≤ va ∧ va < mid
      · rw [if_pos h2, if_pos (by omega)]
      · rw [if_neg h2, if_neg (by omega)]
  · rw [h₂.freelist, h₁.freelist]
    constructor
    · rintro ((h | ⟨va, h1, h2, rfl⟩) | ⟨va, h1, h2, rfl⟩)
      · exact .inl h
      · exact .inr ⟨va, h1, by omega, rfl⟩
      · exact .inr ⟨va, by omega, h2, hframe va h1 h2⟩
    · rintro (h | ⟨va, h1, h2, rfl⟩)
      · exact .inl (.inl h)
      · by_cases hm : va < mid
        · exact .inl (.inr ⟨va, h1, hm, rfl⟩)
        · exact .inr ⟨va, by omega, h2, (hframe va (by omega) h2).symm⟩
  · rw [h₂.pages q hq (mt (h₁.isTable q).mp hqt)
      (fun va h1 h2 => by rw [hframe va h1 h2]; exact hqf va (by omega) h2),
      h₁.pages q hq hqt (fun va h1 h2 => hqf va h1 (by omega))]

end Unmapped

/-- One round of `uvmunmap(…, 1)` on a page of the process: its frame is
freed and its leaf cleared. -/
theorem unmap_round {m : Phys} {root a : Nat} (hwf : m.WF root) (hfree : m.FreeOK)
    (ha : a % PGSIZE = 0) (haMAX : a < MAXVA) (hp : m.UserPage root a) :
    ∃ m₂, (∀ n, uvmunmapLoop root true (n + 1) m a = uvmunmapLoop root true n m₂ (a + PGSIZE)) ∧
      Unmapped m m₂ root a (a + PGSIZE) := by
  obtain ⟨t, ht⟩ := m.tableOf_of_valid hp.valid
  have hta := hwf.table_aligned ht
  have hpos : t + 8 * PX 0 a ≠ 0 := by
    have := hwf.pos a haMAX 2 le_rfl t ht
    omega
  have hload : m.load (t + 8 * PX 0 a) = m.leaf root a := by
    rw [m.load_entry hta (PX_lt 0 a), Phys.leaf, ht]
  set m₁ := m.freeFrame root a with hm₁
  have hpages : ∀ x, m.IsTable root x → m₁.pages (x / PGSIZE) = m.pages (x / PGSIZE) :=
    Phys.kfree_pages hwf hp.not_table hp.freeable.1
  have hwf₁ : m₁.WF root := Phys.kfree_wf hwf hp.not_table hp.freeable.1
  have ht₁ : m₁.tableOf root a 2 = some t := ((Phys.views_of_tables hpages haMAX).1 2 le_rfl).trans ht
  refine ⟨m₁.store (t + 8 * PX 0 a) 0, fun n => ?_, ⟨hwf₁.store_leaf_wf haMAX ht₁ 0,
    (Phys.kfree_freeOK hfree hp.not_free hp.freeable hp.pos).of_eq rfl rfl, rfl, fun x => ?_,
    fun va hva => ?_, fun x => ?_, fun q hq hqt hqf => ?_⟩⟩
  · simp only [uvmunmapLoop, walk_false m hwf.aligned haMAX, ht, Option.elim, StateExcept.ok_bind,
      if_neg hpos, hload, if_neg hp.valid, if_neg hp.leaf, if_true]
    rw [show PTE2PA (m.leaf root a) = m.frame root a from rfl, kfree_ok hp.freeable]
    rfl
  · rw [hwf₁.isTable_store_leaf haMAX ht₁, Phys.isTable_of_tables hpages]
  · rw [hwf₁.leaf_store haMAX ht₁ 0 hva, (Phys.views_of_tables hpages hva).2]
    by_cases hpage : va / PGSIZE = a / PGSIZE
    · rw [if_pos hpage, if_pos (by unfold PGSIZE at *; omega)]
      rfl
    · rw [if_neg hpage, if_neg (by unfold PGSIZE at *; omega)]
  · constructor
    · intro hx
      rcases List.mem_cons.mp hx with rfl | hx
      · exact .inr ⟨a, le_rfl, by unfold PGSIZE; omega, rfl⟩
      · exact .inl hx
    · rintro (hx | ⟨va, h1, h2, rfl⟩)
      · exact List.mem_cons_of_mem _ hx
      · rw [m.frame_of_page_eq root (show va / PGSIZE = a / PGSIZE by unfold PGSIZE at *; omega)]
        exact List.mem_cons_self
  · -- the store is into a page of the table, and the junk into the frame
    have hne : q ≠ m.frame root a := hqf a le_rfl (by unfold PGSIZE; omega)
    have hqt' : q / PGSIZE ≠ (t + 8 * PX 0 a) / PGSIZE := by
      have hqt_ne : q ≠ t := fun h => hqt (h ▸ ⟨a, haMAX, 2, le_rfl, ht⟩)
      have := PX_lt 0 a
      unfold PGSIZE at *
      omega
    have hfa := PTE2PA_aligned (m.leaf root a)
    have hqf' : q / PGSIZE ≠ m.frame root a / PGSIZE := by
      unfold Phys.frame PGSIZE at *
      omega
    rw [m₁.pages_store _ _ _ hqt', hm₁]
    exact m.pages_memset (m.frame root a) 1 (q / PGSIZE) hqf'

/-- Owned pages on other pages than an unmapped range stay owned, with the
same frames. -/
theorem Unmapped.owned_outside {m m₂ : Phys} {root lo hi u v s t : Nat} (hown : m.Owned root lo hi)
    (hun : Unmapped m m₂ root u v) (hs : lo ≤ s) (ht : t ≤ hi) (hhi : hi ≤ MAXVA)
    (hsep : ∀ va va', s ≤ va → va < t → u ≤ va' → va' < v → va / PGSIZE ≠ va' / PGSIZE)
    (hu : lo ≤ u) (hv : v ≤ hi) : m₂.Owned root s t := by
  have hleaf : ∀ va, s ≤ va → va < t → m₂.leaf root va = m.leaf root va := by
    intro va h1 h2
    rw [hun.leaf va (by omega), if_neg (fun h => hsep va va h1 h2 h.1 h.2 rfl)]
  have hframe : ∀ va, s ≤ va → va < t → m₂.frame root va = m.frame root va :=
    fun va h1 h2 => by rw [Phys.frame, Phys.frame, hleaf va h1 h2]
  refine ⟨fun va h1 h2 => ?_, fun va va' h1 h2 h3 h4 he => ?_⟩
  · have hp := hown.page va (by omega) (by omega)
    refine ⟨by rw [hleaf va h1 h2]; exact hp.valid, by rw [hleaf va h1 h2]; exact hp.leaf, ?_,
      by rw [hframe va h1 h2]; exact hp.pos, ?_, ?_⟩
    · obtain ⟨ha, hk, hp'⟩ := hp.freeable
      exact ⟨by rw [hframe va h1 h2]; exact ha, by rw [hframe va h1 h2, hun.kend]; exact hk,
        by rw [hframe va h1 h2]; exact hp'⟩
    · -- a frame freed by the unmapping is the frame of another page
      rw [hframe va h1 h2, hun.freelist]
      rintro (h | ⟨v', hv1, hv2, hv⟩)
      · exact hp.not_free h
      · exact hsep va v' h1 h2 hv1 hv2
          (hown.distinct va v' (by omega) (by omega) (by omega) (by omega) hv)
    · rw [hframe va h1 h2, hun.isTable]
      exact hp.not_table
  · rw [hframe va h1 h2, hframe va' h3 h4] at he
    exact hown.distinct va va' (by omega) (by omega) (by omega) (by omega) he

/-- After unmapping the front `[lo, mid)` of owned pages, the rest is still
owned, with the same frames. -/
theorem Unmapped.owned_rest {m m₂ : Phys} {root lo mid hi : Nat} (hown : m.Owned root lo hi)
    (hun : Unmapped m m₂ root lo mid) (hal : mid % PGSIZE = 0) (hlo : lo ≤ mid) (hmid : mid ≤ hi)
    (hhi : hi ≤ MAXVA) : m₂.Owned root mid hi :=
  hun.owned_outside hown hlo le_rfl hhi
    (fun va va' h1 _ _ h4 => by unfold PGSIZE at *; omega) le_rfl hmid

/-- The rounds of `uvmunmap(pagetable, a, n, 1)` over pages of the process. -/
theorem uvmunmapLoop_spec {root : Nat} :
    ∀ n (m : Phys) a, m.WF root → m.FreeOK → a % PGSIZE = 0 → a + n * PGSIZE ≤ MAXVA →
      m.Owned root a (a + n * PGSIZE) →
      ∃ m', uvmunmapLoop root true n m a = .ok m' ∧ Unmapped m m' root a (a + n * PGSIZE)
  | 0, m, a, hwf, hfree, _, _, _ => ⟨m, rfl, by simpa using Unmapped.refl hwf hfree a⟩
  | n + 1, m, a, hwf, hfree, ha, hend, hown => by
    have hsucc : a + (n + 1) * PGSIZE = a + PGSIZE + n * PGSIZE := by
      rw [Nat.succ_mul, ← Nat.add_assoc, Nat.add_right_comm]
    rw [hsucc] at hend hown ⊢
    have haMAX : a < MAXVA := by
      unfold PGSIZE at hend
      omega
    obtain ⟨m₂, hrun, hun⟩ :=
      unmap_round hwf hfree ha haMAX (hown.page a le_rfl (by unfold PGSIZE; omega))
    obtain ⟨m', hrun', hun'⟩ := uvmunmapLoop_spec n m₂ (a + PGSIZE) hun.wf hun.free
      (by unfold PGSIZE at *; omega) hend (hun.owned_rest hown (by unfold PGSIZE at *; omega) (by omega) (by omega) hend)
    exact ⟨m', by rw [hrun, hrun'], hun.append hun' (by omega) (by omega) hend⟩

/-! ## `uvmdealloc` -/

/-- `PGROUNDUP` of a size below `MAXVA` does not wrap. -/
theorem PGROUNDUP_eq {sz : Nat} (h : sz ≤ MAXVA) : PGROUNDUP sz = (sz + PGSIZE - 1) / PGSIZE * PGSIZE := by
  rw [PGROUNDUP, Nat.mod_eq_of_lt (by simp only [MAXVA] at h; unfold PGSIZE; omega)]

theorem PGROUNDUP_aligned (sz : Nat) : PGROUNDUP sz % PGSIZE = 0 := Nat.mul_mod_left _ _

/-- `uvmdealloc(pagetable, oldsz, newsz)` for `newsz < oldsz ≤ MAXVA` over
pages of the process: the pages of `[PGROUNDUP(newsz), PGROUNDUP(oldsz))`
are unmapped and freed, and `newsz` is returned. -/
theorem uvmdealloc_spec {m : Phys} {root oldsz newsz : Nat} (hwf : m.WF root) (hfree : m.FreeOK)
    (hlt : newsz < oldsz) (hold : oldsz ≤ MAXVA)
    (hown : m.Owned root (PGROUNDUP newsz) (PGROUNDUP oldsz)) :
    ∃ m', uvmdealloc m root oldsz newsz = .ok (newsz, m') ∧
      Unmapped m m' root (PGROUNDUP newsz) (PGROUNDUP oldsz) := by
  have hn := PGROUNDUP_eq (show newsz ≤ MAXVA by omega)
  have ho := PGROUNDUP_eq hold
  have hle : PGROUNDUP newsz ≤ PGROUNDUP oldsz := by
    rw [hn, ho]
    exact Nat.mul_le_mul_right _ (Nat.div_le_div_right (by omega))
  rw [uvmdealloc, if_neg (by omega)]
  by_cases hround : PGROUNDUP newsz < PGROUNDUP oldsz
  · -- `npages` is far below `2^31`, so the `int` holds it
    set N := (PGROUNDUP oldsz - PGROUNDUP newsz) / PGSIZE with hN
    have hMAX : PGROUNDUP oldsz ≤ MAXVA := by
      rw [ho]
      simp only [MAXVA] at hold ⊢
      unfold PGSIZE
      omega
    have hNlt : N < 2 ^ 31 := by
      simp only [MAXVA] at hMAX
      unfold PGSIZE at hN
      omega
    have hint : (toInt32 (N % 2 ^ 32) % 2 ^ 64).toNat = N := by
      have hN64 : (N : Int) < 2 ^ 64 := by exact_mod_cast (show N < 2 ^ 64 by omega)
      rw [Nat.mod_eq_of_lt (by omega), toInt32_of_lt hNlt, Int.emod_eq_of_lt (Int.natCast_nonneg N) hN64]
      exact Int.toNat_natCast N
    have hend : PGROUNDUP newsz + N * PGSIZE = PGROUNDUP oldsz := by
      have := PGROUNDUP_aligned newsz
      have := PGROUNDUP_aligned oldsz
      unfold PGSIZE at *
      omega
    obtain ⟨m', hrun, hun⟩ := uvmunmapLoop_spec N m (PGROUNDUP newsz) hwf hfree
      (PGROUNDUP_aligned newsz) (by rw [hend]; exact hMAX) (by rw [hend]; exact hown)
    rw [hend] at hun
    refine ⟨m', ?_, hun⟩
    rw [if_pos hround]
    dsimp only
    rw [hint, uvmunmap, if_neg (by rw [PGROUNDUP_aligned]; omega), hrun]
    rfl
  · obtain heq : PGROUNDUP newsz = PGROUNDUP oldsz := by omega
    refine ⟨m, by rw [if_neg hround], ?_⟩
    rw [← heq]
    exact Unmapped.refl hwf hfree _

end Xv6.Vm
