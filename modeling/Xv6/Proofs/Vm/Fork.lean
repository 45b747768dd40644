import Xv6.Proofs.Vm.Alloc
import Xv6.Proofs.Vm.UserCopy

/-!
# Copying a process: `uvmcopy`

`uvmcopy(old, new, sz)` copies the pages of `[0, PGROUNDUP(sz))` of the table
at `old` into the table at `new`: for each page it takes a page from `kalloc`,
copies the parent's page into it and maps it in `new` with the parent's flags.
When `kalloc` or the `walk` inside `mappages` runs out of pages, it frees the
page it holds and unmaps and frees the pages copied so far with
`uvmunmap(new, 0, i / PGSIZE, 1)`.  The pages that `walk` took for the table
of `new` stay in it: `fork` frees them with the rest of the table.

The loop is followed by `Grown`, with the parent's flags and the parent's
bytes for each page:

* a round that copied its page is `Grown.map_round`;
* a failure is `Grown.refund` and then `Grown.unmapAll`, which ends in
  `RolledBack`;
* the parent is never touched: its table pages and its frames are neither
  free nor pages of the table of `new` (`CopyPre`), and `Grown.pages` keeps
  every such page (`CopyPre.old_pages`, `CopyPre.frame_pages`).
-/

namespace Xv6.Vm

/-- The page of `va` is mapped in the table at `root`: a valid leaf, not a
pointer to a lower level, whose frame is not free. -/
structure Phys.Mapped (m : Phys) (root va : Nat) : Prop where
  valid : m.leaf root va &&& PTE_V ≠ 0
  leaf : PTE_FLAGS (m.leaf root va) ≠ PTE_V
  not_free : m.frame root va ∉ m.freelist

/-- What `uvmcopy(old, new, sz)` needs of the memory: two well-formed tables
with no page in common and a sound free list; every page of
`[0, PGROUNDUP(sz))` mapped in `old`, to a frame that is no page of the table
of `new`, and unmapped in `new`. -/
structure CopyPre (m : Phys) (old new sz : Nat) : Prop where
  wf_old : m.WF old
  wf_new : m.WF new
  free : m.FreeOK
  sz_le : sz ≤ MAXVA
  apart : ∀ x, m.IsTable new x → ¬ m.IsTable old x
  mapped : ∀ va < PGROUNDUP sz, m.Mapped old va
  frames : ∀ va < PGROUNDUP sz, ¬ m.IsTable new (m.frame old va)
  empty : ∀ va < PGROUNDUP sz, m.leaf new va &&& PTE_V = 0

/-! ## The parent is not touched -/

namespace CopyPre

variable {m₀ m : Phys} {old new sz : Nat}

/-- A memory that keeps every page that was neither free nor a page of the
table of `new` keeps the table of the parent. -/
theorem old_pages (hpre : CopyPre m₀ old new sz)
    (hpages : ∀ p, p % PGSIZE = 0 → ¬ m₀.IsTable new p → p ∉ m₀.freelist →
      m.pages (p / PGSIZE) = m₀.pages (p / PGSIZE)) :
    ∀ x, m₀.IsTable old x → m.pages (x / PGSIZE) = m₀.pages (x / PGSIZE) :=
  fun x hx => hpages x (hpre.wf_old.isTable_aligned hx) (fun h => hpre.apart x h hx)
    (fun h => hpre.wf_old.not_free x h hx)

theorem round_le (hpre : CopyPre m₀ old new sz) : PGROUNDUP sz ≤ MAXVA := by
  have := hpre.sz_le
  rw [PGROUNDUP_eq this]
  simp only [MAXVA] at this ⊢
  unfold PGSIZE
  omega

theorem old_leaf (hpre : CopyPre m₀ old new sz)
    (hpages : ∀ p, p % PGSIZE = 0 → ¬ m₀.IsTable new p → p ∉ m₀.freelist →
      m.pages (p / PGSIZE) = m₀.pages (p / PGSIZE)) {va : Nat} (hva : va < MAXVA) :
    m.leaf old va = m₀.leaf old va :=
  (Phys.views_of_tables (hpre.old_pages hpages) hva).2

theorem old_wf (hpre : CopyPre m₀ old new sz)
    (hpages : ∀ p, p % PGSIZE = 0 → ¬ m₀.IsTable new p → p ∉ m₀.freelist →
      m.pages (p / PGSIZE) = m₀.pages (p / PGSIZE))
    (hsub : ∀ x ∈ m.freelist, x ∈ m₀.freelist) : m.WF old :=
  hpre.wf_old.congr
    (fun v hv k hk p hp => Phys.pte_of_pages _ (hpre.old_pages hpages p ⟨v, hv, k, by omega, hp⟩) _)
    (fun p hp => hpre.wf_old.not_free p (hsub p hp))

/-- ... and the frames of the parent's pages. -/
theorem frame_pages (hpre : CopyPre m₀ old new sz)
    (hpages : ∀ p, p % PGSIZE = 0 → ¬ m₀.IsTable new p → p ∉ m₀.freelist →
      m.pages (p / PGSIZE) = m₀.pages (p / PGSIZE)) {va : Nat} (hva : va < PGROUNDUP sz) :
    m.pages (m₀.frame old va / PGSIZE) = m₀.pages (m₀.frame old va / PGSIZE) :=
  hpages _ (PTE2PA_aligned _) (hpre.frames va hva) (hpre.mapped va hva).not_free

end CopyPre

/-! ## A round of the loop -/

/-- The flags of a valid PTE hold `PTE_V`. -/
theorem PTE_FLAGS_or_V {pte : Nat} (h : pte &&& PTE_V ≠ 0) : PTE_FLAGS pte ||| PTE_V = PTE_FLAGS pte := by
  rw [PTE_V, and_flag_ne_zero] at h
  apply Nat.eq_of_testBit_eq
  intro i
  rw [Nat.testBit_or]
  rcases i with _ | i
  · rw [PTE_FLAGS, Nat.testBit_and, h]
    decide
  · have hV : PTE_V.testBit (i + 1) = false :=
      Nat.testBit_eq_false_of_lt (show 1 < 2 ^ (i + 1) from Nat.one_lt_two_pow (by omega))
    rw [hV, Bool.or_false]

/-- The leaf `uvmcopy` writes for a page keeps the flags of the parent's. -/
theorem PTE_FLAGS_copy {pte : Nat} (h : pte &&& PTE_V ≠ 0) (pa : Nat) :
    PTE_FLAGS (PA2PTE pa ||| PTE_FLAGS pte ||| PTE_V) = PTE_FLAGS pte := by
  have hlt : PTE_FLAGS pte ||| PTE_V < 1024 := by
    rw [PTE_FLAGS_or_V h, PTE_FLAGS_eq]
    exact Nat.mod_lt _ (by decide)
  rw [Nat.or_assoc, PTE_FLAGS_PA2PTE_or pa hlt, PTE_FLAGS_or_V h]

/-- `kalloc` and then `memmove(mem, pa, PGSIZE)` from another page. -/
theorem Phys.copyPage_kalloc (m : Phys) {q pa : Nat} (rest : List Nat) (c : UInt8)
    (h : pa / PGSIZE ≠ q / PGSIZE) :
    (({ m with freelist := rest } : Phys).memset q c).copyPage q pa =
      m.takePage q rest (m.pages (pa / PGSIZE)) := by
  simp only [Phys.copyPage, Phys.memset, Phys.takePage, Function.update_of_ne h, Function.update_idem]

section Loop

variable {m : Phys} {old new sz fuel i pte q : Nat} {rest : List Nat}

/-- A round of the loop when `kalloc` finds no page. -/
theorem uvmcopyLoop_of_nil (hi : i < sz) (hwalk : walk m old i false = .ok (pte, m)) (hpte : pte ≠ 0)
    (hv : m.load pte &&& PTE_V ≠ 0) (hfl : m.freelist = []) :
    uvmcopyLoop old new sz (fuel + 1) m i =
      (do let m ← uvmunmap m new 0 (i / PGSIZE) true; pure (-1, m)) := by
  simp only [uvmcopyLoop, if_pos hi, hwalk, StateExcept.ok_bind, if_neg hpte, if_neg hv, kalloc, hfl]

/-- A round of the loop when `kalloc` takes `q`. -/
theorem uvmcopyLoop_of_cons (hi : i < sz) (hwalk : walk m old i false = .ok (pte, m)) (hpte : pte ≠ 0)
    (hv : m.load pte &&& PTE_V ≠ 0) (hfl : m.freelist = q :: rest) (hq : 0 < q)
    (hpa : PTE2PA (m.load pte) / PGSIZE ≠ q / PGSIZE) :
    uvmcopyLoop old new sz (fuel + 1) m i =
      (do
        let (r, m) ← mappages (m.takePage q rest (m.pages (PTE2PA (m.load pte) / PGSIZE))) new i PGSIZE
          q (PTE_FLAGS (m.load pte))
        if r ≠ 0 then
          let m ← kfree m q
          let m ← uvmunmap m new 0 (i / PGSIZE) true
          pure (-1, m)
        else uvmcopyLoop old new sz fuel m (i + PGSIZE)) := by
  obtain ⟨q', rfl⟩ : ∃ q', q = q' + 1 := ⟨q - 1, by omega⟩
  simp only [uvmcopyLoop, if_pos hi, hwalk, StateExcept.ok_bind, if_neg hpte, if_neg hv, kalloc, hfl,
    Phys.copyPage_kalloc m rest 5 hpa]

end Loop

/-- The `uvmunmap(new, 0, a / PGSIZE, 1)` of a failed round. -/
theorem Grown.unmapAll {m₀ m : Phys} {root a : Nat} {perm : Nat → Nat} {page : Nat → Page}
    (hg : Grown m₀ m root 0 a perm page) (ha : a % PGSIZE = 0) (haM : a ≤ MAXVA)
    (hinv : ∀ va < a, m₀.leaf root va &&& PTE_V = 0) :
    ∃ m', uvmunmap m root 0 (a / PGSIZE) true = .ok m' ∧ RolledBack m₀ m' root := by
  have hend : 0 + a / PGSIZE * PGSIZE = a := by
    unfold PGSIZE at *
    omega
  obtain ⟨m', hrun, hun⟩ := uvmunmapLoop_spec (a / PGSIZE) m 0 hg.wf hg.free (by decide)
    (by rw [hend]; exact haM) (by rw [hend]; exact hg.owned)
  rw [hend] at hun
  exact ⟨m', by rw [uvmunmap, if_neg (by decide)]; exact hrun,
    hg.rolledBack hun (fun va _ h => hinv va h)⟩

/-! ## The loop -/

/-- The rounds of `uvmcopy` from a page `i`: by induction on the fuel, each
round copies its page (`Grown.map_round`) or fails and unmaps what it copied
(`Grown.refund`, `Grown.unmapAll`).  The child's page of `va` gets the flags
and the bytes of the parent's. -/
theorem uvmcopyLoop_spec {m₀ : Phys} {old new sz : Nat} (hpre : CopyPre m₀ old new sz) :
    ∀ fuel m i, Grown m₀ m new 0 i (fun va => PTE_FLAGS (m₀.leaf old va))
        (fun va => m₀.pages (m₀.frame old va / PGSIZE)) →
      i % PGSIZE = 0 → i ≤ PGROUNDUP sz → sz - i ≤ fuel →
      ∃ r m', uvmcopyLoop old new sz fuel m i = .ok (r, m') ∧
        (r = 0 ∧ Grown m₀ m' new 0 (PGROUNDUP sz) (fun va => PTE_FLAGS (m₀.leaf old va))
            (fun va => m₀.pages (m₀.frame old va / PGSIZE)) ∨
          r = -1 ∧ RolledBack m₀ m' new) := by
  intro fuel
  induction fuel with
  | zero =>
    intro m i hg hi hip hfuel
    exact ⟨0, m, rfl, .inl ⟨rfl, round_stop hpre.sz_le hi (by omega) hip ▸ hg⟩⟩
  | succ fuel ih =>
    intro m i hg hi hip hfuel
    by_cases hlt : i < sz
    swap
    · exact ⟨0, m, by rw [uvmcopyLoop, if_neg hlt],
        .inl ⟨rfl, round_stop hpre.sz_le hi (by omega) hip ▸ hg⟩⟩
    have hiM : i < MAXVA := by
      have := hpre.sz_le
      omega
    have hnext := round_next hpre.sz_le hi hlt
    have hiP : i < PGROUNDUP sz := by
      unfold PGSIZE at hnext
      omega
    have hmap := hpre.mapped i hiP
    -- the parent's table is as it was, so `walk` finds the parent's leaf
    have hleaf_old : m.leaf old i = m₀.leaf old i := hpre.old_leaf hg.pages hiM
    obtain ⟨pte, hwalk, hpte, hload⟩ := walk_false_of_valid (hpre.old_wf hg.pages hg.sub) hiM
      (by rw [hleaf_old]; exact hmap.valid)
    rw [hleaf_old] at hload
    have hv : m.load pte &&& PTE_V ≠ 0 := by
      rw [hload]
      exact hmap.valid
    have hinv : ∀ va < i, m₀.leaf new va &&& PTE_V = 0 := fun va h => hpre.empty va (by omega)
    rcases hfl : m.freelist with _ | ⟨q, rest⟩
    · -- `kalloc` failed
      obtain ⟨m', hrun, hrb⟩ := hg.unmapAll hi hiM.le hinv
      refine ⟨-1, m', ?_, .inr ⟨rfl, hrb⟩⟩
      rw [uvmcopyLoop_of_nil hlt hwalk hpte hv hfl, hrun]
      rfl
    · have hq : q ∈ m.freelist := by
        rw [hfl]
        exact List.mem_cons_self
      obtain ⟨hqa, hqk, hqP⟩ := hg.free.freeable q hq
      have hq64 := (hg.free.freeable q hq).lt_two_pow
      have hpa : PTE2PA (m.load pte) / PGSIZE ≠ q / PGSIZE := by
        rw [hload]
        exact page_ne_of_ne (PTE2PA_aligned _) hqa
          (fun h => hmap.not_free (by rw [Phys.frame, h]; exact hg.sub q hq))
      -- the page copied is the parent's, as it was
      have hc : m.pages (PTE2PA (m.load pte) / PGSIZE) = m₀.pages (m₀.frame old i / PGSIZE) := by
        rw [hload]
        exact hpre.frame_pages hg.pages hiP
      have hfresh :
          (m.takePage q rest (m₀.pages (m₀.frame old i / PGSIZE))).leaf new i &&& PTE_V = 0 := by
        rw [Phys.takePage_views hg.wf hg.free hfl hiM, hg.leaf_out i hiM (by omega)]
        exact hpre.empty i hiP
      have hflags : PTE_FLAGS (m₀.leaf old i) < 1024 := by
        rw [PTE_FLAGS_eq]
        exact Nat.mod_lt _ (by decide)
      obtain ⟨r, m₂, hcall, hwf₂, hfree₂, hext, hr⟩ :=
        mappages_page (Phys.takePage_wf hg.wf hg.free hfl) (Phys.takePage_freeOK hg.free hfl) hi hiM
          hfresh hq64 (show PTE_FLAGS (m₀.leaf old i) < 2 ^ 64 by omega)
      have ht := Took.of_extends hg.wf hg.free hfl hext hwf₂
      rw [uvmcopyLoop_of_cons hlt hwalk hpte hv hfl (hg.free.pos q hq) hpa, hc, hload, hcall]
      rcases hr with ⟨rfl, hleaf⟩ | ⟨rfl, -, hleaf⟩
      · -- copied: on to the next page
        have hg₂ := hg.map_round hflags
          (by rw [PTE_FLAGS_copy hmap.valid]; exact hmap.leaf)
          (fun va h => ⟨by rw [m₀.leaf_of_page_eq old h], by rw [m₀.frame_of_page_eq old h]⟩)
          (Nat.zero_le i) hi hiM ht hwf₂ hfree₂
          (fun va hva => by rw [hleaf va hva, Phys.takePage_views hg.wf hg.free hfl hva])
        obtain ⟨r, m', hrun, hres⟩ := ih m₂ (i + PGSIZE) hg₂ (by unfold PGSIZE at *; omega)
          hnext (by unfold PGSIZE; omega)
        exact ⟨r, m', hrun, hres⟩
      · -- `mappages` failed: give `q` back and unmap what was copied
        have hg₃ := hg.refund hiM.le ht hwf₂ hfree₂
          (fun va hva => by rw [hleaf va hva, Phys.takePage_views hg.wf hg.free hfl hva])
        obtain ⟨m', hrun, hrb⟩ := hg₃.unmapAll hi hiM.le hinv
        refine ⟨-1, m', ?_, .inr ⟨rfl, hrb⟩⟩
        have hfreeable : m₂.Freeable q := ⟨hqa, by rw [ht.kend]; exact hqk, hqP⟩
        simp only [StateExcept.ok_bind, if_pos (show (-1 : Int) ≠ 0 by decide), kfree_ok hfreeable, hrun]
        rfl

/-- **`uvmcopy` copies the parent, or leaves no mapping behind.**  Over two
tables with no page in common, where every page of `[0, PGROUNDUP(sz))` is
mapped in the parent and unmapped in the child, `uvmcopy(old, new, sz)`
returns 0 or -1 and never touches the parent: its leaves, its table and every
page that was neither free nor a page of the child's table.  On 0, each page
of the range is mapped in the child with the parent's flags to a distinct page
that was free and now holds the parent's bytes.  On -1, the child has no valid
leaf below `PGROUNDUP(sz)`, and the free pages are those of the start but the
pages that became pages of the child's table. -/
theorem uvmcopy_correct {m : Phys} {old new sz : Nat} (hpre : CopyPre m old new sz) :
    ∃ r m', uvmcopy m old new sz = .ok (r, m') ∧ (r = 0 ∨ r = -1) ∧
      m'.WF old ∧ m'.WF new ∧ m'.FreeOK ∧
      (∀ va < MAXVA, m'.leaf old va = m.leaf old va) ∧
      (∀ p, p % PGSIZE = 0 → ¬ m.IsTable new p → p ∉ m.freelist →
        m'.pages (p / PGSIZE) = m.pages (p / PGSIZE)) ∧
      (r = 0 → m'.Owned new 0 (PGROUNDUP sz) ∧
        (∀ va < PGROUNDUP sz, PTE_FLAGS (m'.leaf new va) = PTE_FLAGS (m.leaf old va) ∧
          m'.frame new va ∈ m.freelist ∧
          m'.pages (m'.frame new va / PGSIZE) = m.pages (m.frame old va / PGSIZE)) ∧
        ∀ va < MAXVA, PGROUNDUP sz ≤ va → m'.leaf new va = m.leaf new va) ∧
      (r = -1 → (∀ va < PGROUNDUP sz, m'.leaf new va &&& PTE_V = 0) ∧
        (∀ va < MAXVA, m'.leaf new va &&& PTE_V ≠ 0 ∨ m.leaf new va &&& PTE_V ≠ 0 →
          m'.leaf new va = m.leaf new va) ∧
        ∀ x, x ∈ m'.freelist ↔ x ∈ m.freelist ∧ ¬ m'.IsTable new x) := by
  have hPM := hpre.round_le
  obtain ⟨r, m', hrun, hres⟩ := uvmcopyLoop_spec hpre sz m 0 (Grown.refl hpre.wf_new hpre.free 0 _ _)
    (by decide) (Nat.zero_le _) (by omega)
  refine ⟨r, m', hrun, ?_⟩
  rcases hres with ⟨rfl, hg⟩ | ⟨rfl, hrb⟩
  · refine ⟨.inl rfl, hpre.old_wf hg.pages hg.sub, hg.wf, hg.free,
      fun va hva => hpre.old_leaf hg.pages hva, hg.pages,
      fun _ => ⟨hg.owned, fun va hva => ⟨?_, hg.fresh va (Nat.zero_le _) hva,
        hg.filled va (Nat.zero_le _) hva⟩, fun va hva h => hg.leaf_out va hva (by omega)⟩,
      fun h => absurd h (by decide)⟩
    rw [hg.leaf_in va (Nat.zero_le _) hva]
    exact PTE_FLAGS_copy (hpre.mapped va hva).valid _
  · have hsub : ∀ x ∈ m'.freelist, x ∈ m.freelist := fun x hx => ((hrb.freelist x).mp hx).1
    refine ⟨.inr rfl, hpre.old_wf hrb.pages hsub, hrb.wf, hrb.free,
      fun va hva => hpre.old_leaf hrb.pages hva, hrb.pages, fun h => absurd h (by decide),
      fun _ => ⟨fun va hva => ?_, hrb.leaf, hrb.freelist⟩⟩
    -- a valid leaf would be the child's leaf of the start, which is invalid
    by_contra hv
    rw [hrb.leaf va (by omega) (.inl hv)] at hv
    exact hv (hpre.empty va hva)

/-- The one-page process of `growOne` as the parent of a fork, with an empty
child table at `20480`, a zero page that is neither free nor a page of the
parent's table. -/
theorem growOne_copyPre : CopyPre growOne 4096 20480 4096 := by
  have hp := growOne_procMem
  have hg := growOne_grown
  have h0 : PGROUNDUP 0 = 0 := by decide
  -- the child's root is no page that `uvmalloc` wrote
  have hz : growOne.pages (20480 / PGSIZE) = fun _ => 0 := by
    have hnt : ¬ zeroPhys6.IsTable 4096 20480 := fun h =>
      absurd (Phys.isTable_of_zero rfl h) (by decide)
    exact hg.pages 20480 (by decide) hnt (by decide)
  have hnew : ∀ x, growOne.IsTable 20480 x → x = 20480 := fun _ => Phys.isTable_of_zero hz
  refine ⟨hp.wf, Phys.wf_of_zero hz (by decide) (by decide) ?_, hp.free, by decide,
    fun x hx hx' => ?_, fun va hva => ?_, fun va hva hx => ?_, fun va _ => ?_⟩
  · exact fun h => absurd (hg.sub _ h) (by decide)
  · -- the parent's table pages were its root or free pages, and `20480` is neither
    obtain rfl := hnew x hx
    rcases hg.tables _ hx' with h | h
    · exact absurd (Phys.isTable_of_zero rfl h) (by decide)
    · exact absurd h (by decide)
  · have hu := hp.owned.page va (Nat.zero_le _) hva
    exact ⟨hu.valid, hu.leaf, hu.not_free⟩
  · -- the frame of page 0 was a free page, which `20480` is not
    have hf := hg.fresh va (h0 ▸ Nat.zero_le va) hva
    rw [hnew _ hx] at hf
    exact absurd hf (by decide)
  · rw [Phys.leaf_of_zero hz]
    decide

/-- `fork` of the one-page process of `growOne` into an empty child table:
`kalloc` gives `24576` for the copy, and `walk` takes `28672` and `32768` for
the child's table pages, so the copy succeeds. -/
theorem uvmcopy_correct_growOne :
    (uvmcopy growOne 4096 20480 4096).toOption.map Prod.fst = some 0 ∧
    ∃ r m', uvmcopy growOne 4096 20480 4096 = .ok (r, m') ∧ (r = 0 ∨ r = -1) ∧
      m'.WF 4096 ∧ m'.WF 20480 ∧ m'.FreeOK ∧
      (∀ va < MAXVA, m'.leaf 4096 va = growOne.leaf 4096 va) ∧
      (∀ p, p % PGSIZE = 0 → ¬ growOne.IsTable 20480 p → p ∉ growOne.freelist →
        m'.pages (p / PGSIZE) = growOne.pages (p / PGSIZE)) ∧
      (r = 0 → m'.Owned 20480 0 (PGROUNDUP 4096) ∧
        (∀ va < PGROUNDUP 4096, PTE_FLAGS (m'.leaf 20480 va) = PTE_FLAGS (growOne.leaf 4096 va) ∧
          m'.frame 20480 va ∈ growOne.freelist ∧
          m'.pages (m'.frame 20480 va / PGSIZE) = growOne.pages (growOne.frame 4096 va / PGSIZE)) ∧
        ∀ va < MAXVA, PGROUNDUP 4096 ≤ va → m'.leaf 20480 va = growOne.leaf 20480 va) ∧
      (r = -1 → (∀ va < PGROUNDUP 4096, m'.leaf 20480 va &&& PTE_V = 0) ∧
        (∀ va < MAXVA, m'.leaf 20480 va &&& PTE_V ≠ 0 ∨ growOne.leaf 20480 va &&& PTE_V ≠ 0 →
          m'.leaf 20480 va = growOne.leaf 20480 va) ∧
        ∀ x, x ∈ m'.freelist ↔ x ∈ growOne.freelist ∧ ¬ m'.IsTable 20480 x) :=
  ⟨by decide, uvmcopy_correct growOne_copyPre⟩

/-- A parent with one page mapped at 0 through the tables `4096`, `8192`,
`12288`, to frame `16384`; an empty child table at `20480`; two free pages. -/
def forkPhys : Phys :=
  { userPage0 (PA2PTE 16384 ||| PTE_R ||| PTE_W ||| PTE_U ||| PTE_V) with freelist := [24576, 28672] }

end Xv6.Vm
