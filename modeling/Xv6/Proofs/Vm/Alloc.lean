import Xv6.Proofs.Vm.Unmap

/-!
# Growing a process: `uvmalloc`

`uvmalloc(pagetable, oldsz, newsz, xperm)` maps the pages from
`PGROUNDUP(oldsz)` up to `newsz`, each to a page from `kalloc` that it zeroes,
as the leaf `PA2PTE(mem) | PTE_R | PTE_U | xperm | PTE_V`.  When `kalloc` or
the `walk` inside `mappages` runs out of pages, it frees the pages it mapped
with `uvmdealloc` and returns 0; the pages of the table that `walk` took stay
in the table.

The memory of a process of size `sz` is `ProcMem`: its pages below
`TRAPFRAME` are exactly those of `[0, PGROUNDUP(sz))`, all owned.  The loop is
followed by `Grown`, what it has done after each round: the pages of
`[a₀, a)` are mapped to pages taken from the free list and filled, zeroes
here and the parent's bytes in `uvmcopy`, and every page the free list lost
is such a frame or a new page of the table.

* `Grown.map_round`: a round that maps its page.
* `Grown.refund`: the `kfree(mem)` after `mappages` failed.
* `Grown.rollback`: the `uvmdealloc` after a failure, which ends in
  `RolledBack`: the valid leaves of the start, and its free pages but for the
  new pages of the table.
* `uvmalloc_spec`, `uvmdealloc_procMem`: both keep `ProcMem`.
-/

namespace Xv6.Vm

/-- The memory of a process of size `sz`: a well-formed table with a sound
free list, whose pages below `TRAPFRAME` with a valid leaf are exactly those
of `[0, PGROUNDUP(sz))`, all owned by the process. -/
structure Phys.ProcMem (m : Phys) (root sz : Nat) : Prop where
  wf : m.WF root
  free : m.FreeOK
  sz_le : sz ≤ TRAPFRAME
  owned : m.Owned root 0 (PGROUNDUP sz)
  unmapped : ∀ va, PGROUNDUP sz ≤ va → va < TRAPFRAME → m.leaf root va &&& PTE_V = 0

/-- Two owned ranges side by side, whose frames are apart, are one. -/
theorem Phys.Owned.union {m : Phys} {root lo mid hi : Nat} (h₁ : m.Owned root lo mid)
    (h₂ : m.Owned root mid hi)
    (hsep : ∀ va va', lo ≤ va → va < mid → mid ≤ va' → va' < hi → m.frame root va ≠ m.frame root va') :
    m.Owned root lo hi := by
  refine ⟨fun va h1 h2 => ?_, fun va va' h1 h2 h3 h4 he => ?_⟩
  · by_cases hm : va < mid
    · exact h₁.page va h1 hm
    · exact h₂.page va (by omega) h2
  · by_cases hm : va < mid <;> by_cases hm' : va' < mid
    · exact h₁.distinct va va' h1 hm h3 hm' he
    · exact absurd he (hsep va va' h1 hm (by omega) h4)
    · exact absurd he.symm (hsep va' va h3 hm' (by omega) h2)
    · exact h₂.distinct va va' (by omega) h2 (by omega) h4 he

/-! ## Taking a page from the free list -/

/-- The memory after `kalloc` took the head `q` of the free list, leaving
`rest`, and the whole page was written with `c`: zeroes by the `memset` of
`uvmalloc`, the parent's page by the `memmove` of `uvmcopy`. -/
def Phys.takePage (m : Phys) (q : Nat) (rest : List Nat) (c : Page) : Phys :=
  { m with freelist := rest, pages := Function.update m.pages (q / PGSIZE) c }

section Take

variable {m : Phys} {root q : Nat} {rest : List Nat} {c : Page}

@[simp] theorem Phys.takePage_freelist : (m.takePage q rest c).freelist = rest := rfl

@[simp] theorem Phys.takePage_kend : (m.takePage q rest c).kend = m.kend := rfl

theorem Phys.takePage_pages {x : Nat} (hx : x ≠ q / PGSIZE) : (m.takePage q rest c).pages x = m.pages x :=
  Function.update_of_ne hx _ _

theorem Phys.takePage_page_self : (m.takePage q rest c).pages (q / PGSIZE) = c :=
  Function.update_self _ _ _

/-- The page taken is none of the table's. -/
theorem Phys.takePage_pages_table (hwf : m.WF root) (hfree : m.FreeOK) (hfl : m.freelist = q :: rest) :
    ∀ x, m.IsTable root x → (m.takePage q rest c).pages (x / PGSIZE) = m.pages (x / PGSIZE) := by
  intro x hx
  have hq : q ∈ m.freelist := by rw [hfl]; exact List.mem_cons_self
  have hne : x ≠ q := fun h => hwf.not_free q hq (h ▸ hx)
  exact Phys.takePage_pages (page_ne_of_ne (hwf.isTable_aligned hx) (hfree.freeable q hq).1 hne)

theorem Phys.takePage_wf (hwf : m.WF root) (hfree : m.FreeOK) (hfl : m.freelist = q :: rest) :
    (m.takePage q rest c).WF root :=
  hwf.congr (fun v hv k hk p hp => Phys.pte_of_pages _
      (Phys.takePage_pages_table hwf hfree hfl p ⟨v, hv, k, by omega, hp⟩) _)
    (fun p hp => hwf.not_free p (by rw [hfl]; exact List.mem_cons_of_mem _ hp))

theorem Phys.takePage_freeOK (hfree : m.FreeOK) (hfl : m.freelist = q :: rest) :
    (m.takePage q rest c).FreeOK := by
  have hsub : ∀ p ∈ rest, p ∈ m.freelist := fun p hp => by rw [hfl]; exact List.mem_cons_of_mem _ hp
  refine ⟨?_, fun p hp => ?_, fun p hp => hfree.pos p (hsub p hp)⟩
  · have := hfree.nodup
    rw [hfl] at this
    exact (List.nodup_cons.mp this).2
  · obtain ⟨ha, hk, hp'⟩ := hfree.freeable p (hsub p hp)
    exact ⟨ha, hk, hp'⟩

theorem Phys.takePage_views (hwf : m.WF root) (hfree : m.FreeOK) (hfl : m.freelist = q :: rest)
    {va : Nat} (hva : va < MAXVA) : (m.takePage q rest c).leaf root va = m.leaf root va :=
  (Phys.views_of_tables (Phys.takePage_pages_table hwf hfree hfl) hva).2

theorem Phys.takePage_isTable (hwf : m.WF root) (hfree : m.FreeOK) (hfl : m.freelist = q :: rest)
    (x : Nat) : (m.takePage q rest c).IsTable root x ↔ m.IsTable root x :=
  Phys.isTable_of_tables (Phys.takePage_pages_table hwf hfree hfl) x

end Take

/-! ## Pages of the process in a later memory -/

/-- A page of the process stays one in a memory with the same leaf and `end`
whose free pages and pages of the table were free pages or pages of the table
before. -/
theorem Phys.UserPage.transfer {m m' : Phys} {root va : Nat} (hp : m.UserPage root va)
    (hleaf : m'.leaf root va = m.leaf root va) (hkend : m'.kend = m.kend)
    (hfl : ∀ x ∈ m'.freelist, x ∈ m.freelist)
    (ht : ∀ x, m'.IsTable root x → m.IsTable root x ∨ x ∈ m.freelist) : m'.UserPage root va := by
  have hframe : m'.frame root va = m.frame root va := by rw [Phys.frame, Phys.frame, hleaf]
  obtain ⟨ha, hk, hp'⟩ := hp.freeable
  refine ⟨by rw [hleaf]; exact hp.valid, by rw [hleaf]; exact hp.leaf, ?_, by rw [hframe]; exact hp.pos,
    fun h => hp.not_free (hfl _ (by rwa [hframe] at h)), fun h => ?_⟩
  · rw [Phys.Freeable, hframe, hkend]
    exact ⟨ha, hk, hp'⟩
  · rw [hframe] at h
    rcases ht _ h with h | h
    · exact hp.not_table h
    · exact hp.not_free h

theorem Phys.Owned.transfer {m m' : Phys} {root lo hi : Nat} (h : m.Owned root lo hi)
    (hleaf : ∀ va, lo ≤ va → va < hi → m'.leaf root va = m.leaf root va) (hkend : m'.kend = m.kend)
    (hfl : ∀ x ∈ m'.freelist, x ∈ m.freelist)
    (ht : ∀ x, m'.IsTable root x → m.IsTable root x ∨ x ∈ m.freelist) : m'.Owned root lo hi := by
  refine ⟨fun va h1 h2 => (h.page va h1 h2).transfer (hleaf va h1 h2) hkend hfl ht,
    fun va va' h1 h2 h3 h4 he => h.distinct va va' h1 h2 h3 h4 ?_⟩
  rwa [Phys.frame, Phys.frame, hleaf va h1 h2, hleaf va' h3 h4] at he

/-! ## A round of `uvmalloc` or `uvmcopy` -/

/-- The memory `m₂` after `kalloc` took the head `q` of the free list of `m`,
the page was filled with `c` and `mappages` ran: the free list lost `q` and
pages that became pages of the table, the table gained only free pages, and
no page changed but `q` and the pages of the table. -/
structure Took (m m₂ : Phys) (root q : Nat) (c : Page) : Prop where
  mem : q ∈ m.freelist
  not_free : q ∉ m₂.freelist
  not_table : ¬ m₂.IsTable root q
  page : m₂.pages (q / PGSIZE) = c
  sub : ∀ x ∈ m₂.freelist, x ∈ m.freelist
  tables : ∀ x, m₂.IsTable root x → m.IsTable root x ∨ x ∈ m.freelist
  tables_old : ∀ x, m.IsTable root x → m₂.IsTable root x
  gone : ∀ x ∈ m.freelist, x ≠ q → x ∉ m₂.freelist → m₂.IsTable root x
  pages : ∀ n, n ≠ q / PGSIZE → (∀ x, m₂.IsTable root x → n ≠ x / PGSIZE) → m₂.pages n = m.pages n
  kend : m₂.kend = m.kend

theorem Took.of_extends {m m₂ : Phys} {root q : Nat} {rest : List Nat} {c : Page} (hwf : m.WF root)
    (hfree : m.FreeOK) (hfl : m.freelist = q :: rest) (hext : Extends (m.takePage q rest c) m₂ root)
    (hwf₂ : m₂.WF root) : Took m m₂ root q c := by
  obtain ⟨k, hk, ht⟩ := hext.taken
  rw [Phys.takePage_freelist] at hk ht
  have hnd : (q :: rest).Nodup := hfl ▸ hfree.nodup
  have hqr : q ∉ rest := (List.nodup_cons.mp hnd).1
  have hq : q ∈ m.freelist := by rw [hfl]; exact List.mem_cons_self
  have hrest : ∀ x ∈ rest, x ∈ m.freelist := fun x hx => by rw [hfl]; exact List.mem_cons_of_mem _ hx
  have hqt : ¬ (m.takePage q rest c).IsTable root q := by
    rw [Phys.takePage_isTable hwf hfree hfl]
    exact hwf.not_free q hq
  have hnt : ¬ m₂.IsTable root q := by
    intro h
    rcases (ht q).mp h with h | h
    · exact hqt h
    · exact hqr (List.mem_of_mem_take h)
  have hqa := (hfree.freeable q hq).1
  refine ⟨hq, fun h => hqr (List.mem_of_mem_drop (hk ▸ h)), hnt, ?_, fun x hx => ?_, fun x hx => ?_,
    fun x hx => (ht x).mpr (.inl ((Phys.takePage_isTable hwf hfree hfl x).mpr hx)),
    fun x hx hne hx₂ => ?_, fun n hn hnt' => ?_, hext.kend⟩
  · rw [hext.pages _ (fun x hx => page_ne_of_ne hqa (hwf₂.isTable_aligned hx) (fun h => hnt (h ▸ hx)))]
    exact Phys.takePage_page_self
  · exact hrest x (List.mem_of_mem_drop (hk ▸ hx))
  · rcases (ht x).mp hx with h | h
    · exact .inl ((Phys.takePage_isTable hwf hfree hfl x).mp h)
    · exact .inr (hrest x (List.mem_of_mem_take h))
  · have hxr : x ∈ rest := by
      rw [hfl] at hx
      exact (List.mem_cons.mp hx).resolve_left hne
    rw [← List.take_append_drop k rest, List.mem_append] at hxr
    rw [hk] at hx₂
    exact (ht x).mpr (.inr (hxr.resolve_right hx₂))
  · rw [hext.pages n hnt']
    exact Phys.takePage_pages hn

/-- After `Took`, a page that is neither `q` nor a page of the table has its bytes. -/
theorem Took.pages_of {m m₂ : Phys} {root q p : Nat} {c : Page} (ht : Took m m₂ root q c) (hwf₂ : m₂.WF root)
    (hq : q % PGSIZE = 0) (hp : p % PGSIZE = 0) (hpq : p ≠ q) (hpt : ¬ m₂.IsTable root p) :
    m₂.pages (p / PGSIZE) = m.pages (p / PGSIZE) :=
  ht.pages _ (page_ne_of_ne hp hq hpq)
    (fun _ hx => page_ne_of_ne hp (hwf₂.isTable_aligned hx) (fun h => hpt (h ▸ hx)))

/-! ## The pages mapped so far -/

/-- The leaf of a page mapped to `q` with flags `perm`, read back. -/
theorem PTE2PA_leaf {q perm : Nat} (hq : q % PGSIZE = 0) (hq64 : q < 2 ^ 64) (hperm : perm < 1024) :
    PTE2PA (PA2PTE q ||| perm ||| PTE_V) = q := by
  rw [Nat.or_assoc, PTE2PA_PA2PTE_or hq hq64 (Nat.or_lt_two_pow (n := 10) hperm (by decide))]

/-- What the loop of `uvmalloc` or `uvmcopy` has done from `m₀` when it has
mapped the pages of `[a₀, a)`: each is a page of the process, mapped with the
flags `perm va` to a page that was free in `m₀` and now holds `page va`; every
page the free list lost is such a frame or a page of the table; no other leaf
changed, and no page that was neither free nor a page of the table. -/
structure Grown (m₀ m : Phys) (root a₀ a : Nat) (perm : Nat → Nat) (page : Nat → Page) : Prop where
  wf : m.WF root
  free : m.FreeOK
  kend : m.kend = m₀.kend
  owned : m.Owned root a₀ a
  leaf_in : ∀ va, a₀ ≤ va → va < a → m.leaf root va = PA2PTE (m.frame root va) ||| perm va ||| PTE_V
  fresh : ∀ va, a₀ ≤ va → va < a → m.frame root va ∈ m₀.freelist
  filled : ∀ va, a₀ ≤ va → va < a → m.pages (m.frame root va / PGSIZE) = page va
  leaf_out : ∀ va < MAXVA, ¬ (a₀ ≤ va ∧ va < a) → m.leaf root va = m₀.leaf root va
  sub : ∀ x ∈ m.freelist, x ∈ m₀.freelist
  tables : ∀ x, m.IsTable root x → m₀.IsTable root x ∨ x ∈ m₀.freelist
  gone : ∀ x ∈ m₀.freelist, x ∉ m.freelist →
    m.IsTable root x ∨ ∃ va, a₀ ≤ va ∧ va < a ∧ x = m.frame root va
  pages : ∀ p, p % PGSIZE = 0 → ¬ m₀.IsTable root p → p ∉ m₀.freelist →
    m.pages (p / PGSIZE) = m₀.pages (p / PGSIZE)

namespace Grown

variable {m₀ m m₂ : Phys} {root a₀ a q : Nat} {perm : Nat → Nat} {page : Nat → Page} {c : Page}

theorem refl (hwf : m.WF root) (hfree : m.FreeOK) (a : Nat) (perm : Nat → Nat) (page : Nat → Page) :
    Grown m m root a a perm page :=
  ⟨hwf, hfree, rfl, ⟨fun _ h1 h2 => absurd h2 (by omega), fun _ _ h1 h2 => absurd h2 (by omega)⟩,
    fun _ h1 h2 => absurd h2 (by omega), fun _ h1 h2 => absurd h2 (by omega),
    fun _ h1 h2 => absurd h2 (by omega), fun _ _ _ => rfl, fun _ hx => hx, fun _ hx => .inl hx,
    fun _ hx hx' => absurd hx hx', fun _ _ _ _ => rfl⟩

/-- The frames mapped so far are neither `q` nor pages of the table after a
`Took`, and keep their bytes. -/
theorem frame_ne (hg : Grown m₀ m root a₀ a perm page) (ht : Took m m₂ root q c) {va : Nat}
    (h1 : a₀ ≤ va) (h2 : va < a) : m.frame root va ≠ q :=
  fun h => (hg.owned.page va h1 h2).not_free (h ▸ ht.mem)

theorem frame_not_table (hg : Grown m₀ m root a₀ a perm page) (ht : Took m m₂ root q c) {va : Nat}
    (h1 : a₀ ≤ va) (h2 : va < a) : ¬ m₂.IsTable root (m.frame root va) := fun h =>
  (ht.tables _ h).elim (hg.owned.page va h1 h2).not_table (hg.owned.page va h1 h2).not_free

theorem took_filled (hg : Grown m₀ m root a₀ a perm page) (ht : Took m m₂ root q c)
    (hwf₂ : m₂.WF root) {va : Nat} (h1 : a₀ ≤ va) (h2 : va < a) :
    m₂.pages (m.frame root va / PGSIZE) = page va := by
  have hfa : m.frame root va % PGSIZE = 0 := PTE2PA_aligned _
  rw [ht.pages_of hwf₂ (hg.free.freeable q ht.mem).1 hfa (hg.frame_ne ht h1 h2)
    (hg.frame_not_table ht h1 h2)]
  exact hg.filled va h1 h2

/-- After a `Took`, a page that was neither free nor a page of the table in
`m₀` still has its bytes. -/
theorem took_pages (hg : Grown m₀ m root a₀ a perm page) (ht : Took m m₂ root q c)
    (hwf₂ : m₂.WF root) {p : Nat} (hp : p % PGSIZE = 0) (hpt : ¬ m₀.IsTable root p)
    (hpf : p ∉ m₀.freelist) : m₂.pages (p / PGSIZE) = m₀.pages (p / PGSIZE) := by
  have hq : q ∈ m₀.freelist := hg.sub q ht.mem
  have hpt₂ : ¬ m₂.IsTable root p := fun h =>
    (ht.tables p h).elim (fun h => (hg.tables p h).elim hpt hpf) (fun h => hpf (hg.sub p h))
  rw [ht.pages_of hwf₂ (hg.free.freeable q ht.mem).1 hp (fun h => hpf (h ▸ hq)) hpt₂]
  exact hg.pages p hp hpt hpf

theorem took_tables (hg : Grown m₀ m root a₀ a perm page) (ht : Took m m₂ root q c) (x : Nat)
    (hx : m₂.IsTable root x) : m₀.IsTable root x ∨ x ∈ m₀.freelist :=
  (ht.tables x hx).elim (hg.tables x) (fun h => .inr (hg.sub x h))

/-- A round whose `mappages` succeeded: the page at `a` is mapped to `q`,
which holds `page a`, with the flags `perm a`. -/
theorem map_round (hg : Grown m₀ m root a₀ a perm page) (hperm : perm a < 1024)
    (hflags : PTE_FLAGS (PA2PTE q ||| perm a ||| PTE_V) ≠ PTE_V)
    (hsame : ∀ va, va / PGSIZE = a / PGSIZE → perm va = perm a ∧ page va = page a)
    (hle : a₀ ≤ a) (ha : a % PGSIZE = 0) (haM : a < MAXVA) (ht : Took m m₂ root q (page a))
    (hwf₂ : m₂.WF root) (hfree₂ : m₂.FreeOK)
    (hleaf : ∀ va < MAXVA, m₂.leaf root va =
      if va / PGSIZE = a / PGSIZE then PA2PTE q ||| perm a ||| PTE_V else m.leaf root va) :
    Grown m₀ m₂ root a₀ (a + PGSIZE) perm page := by
  obtain ⟨hqa, hqk, hqP⟩ := hg.free.freeable q ht.mem
  have hq64 := (hg.free.freeable q ht.mem).lt_two_pow
  have hpage : ∀ va, a ≤ va → va < a + PGSIZE → va / PGSIZE = a / PGSIZE := by
    intro va h1 h2
    unfold PGSIZE at *
    omega
  -- the pages mapped before keep their leaves; the page at `a` is new
  have hold : ∀ va, a₀ ≤ va → va < a → m₂.leaf root va = m.leaf root va := by
    intro va h1 h2
    rw [hleaf va (by omega), if_neg (by unfold PGSIZE at *; omega)]
  have hnew : ∀ va, a ≤ va → va < a + PGSIZE → m₂.leaf root va = PA2PTE q ||| perm a ||| PTE_V := by
    intro va h1 h2
    rw [hleaf va ((lt_MAXVA_of_page_eq (hpage va h1 h2)).mpr haM), if_pos (hpage va h1 h2)]
  have hframe_old : ∀ va, a₀ ≤ va → va < a → m₂.frame root va = m.frame root va := by
    intro va h1 h2
    rw [Phys.frame, Phys.frame, hold va h1 h2]
  have hframe_new : ∀ va, a ≤ va → va < a + PGSIZE → m₂.frame root va = q := by
    intro va h1 h2
    rw [Phys.frame, hnew va h1 h2, PTE2PA_leaf hqa hq64 hperm]
  have hown_new : m₂.Owned root a (a + PGSIZE) := by
    refine ⟨fun va h1 h2 => ?_, fun va va' h1 h2 h3 h4 _ => by rw [hpage va h1 h2, hpage va' h3 h4]⟩
    have hf := hframe_new va h1 h2
    refine ⟨by rw [hnew va h1 h2]; exact or_PTE_V_valid _, by rw [hnew va h1 h2]; exact hflags,
      ?_, by rw [hf]; exact hg.free.pos q ht.mem, by rw [hf]; exact ht.not_free,
      by rw [hf]; exact ht.not_table⟩
    rw [Phys.Freeable, hf, ht.kend]
    exact ⟨hqa, hqk, hqP⟩
  have hown : m₂.Owned root a₀ (a + PGSIZE) := by
    refine (hg.owned.transfer hold ht.kend ht.sub ht.tables).union hown_new
      (fun va va' h1 h2 h3 h4 => ?_)
    rw [hframe_old va h1 h2, hframe_new va' h3 h4]
    exact hg.frame_ne ht h1 h2
  refine ⟨hwf₂, hfree₂, ht.kend.trans hg.kend, hown, fun va h1 h2 => ?_, fun va h1 h2 => ?_,
    fun va h1 h2 => ?_, fun va hva hout => ?_, fun x hx => hg.sub x (ht.sub x hx), hg.took_tables ht,
    fun x hx hx₂ => ?_, fun p hp hpt hpf => hg.took_pages ht hwf₂ hp hpt hpf⟩
  · by_cases h : va < a
    · rw [hold va h1 h, hframe_old va h1 h]
      exact hg.leaf_in va h1 h
    · rw [hnew va (by omega) h2, hframe_new va (by omega) h2, (hsame va (hpage va (by omega) h2)).1]
  · by_cases h : va < a
    · rw [hframe_old va h1 h]
      exact hg.fresh va h1 h
    · rw [hframe_new va (by omega) h2]
      exact hg.sub q ht.mem
  · by_cases h : va < a
    · rw [hframe_old va h1 h]
      exact hg.took_filled ht hwf₂ h1 h
    · rw [hframe_new va (by omega) h2, (hsame va (hpage va (by omega) h2)).2]
      exact ht.page
  · have hne : va / PGSIZE ≠ a / PGSIZE := by
      intro h
      apply hout
      unfold PGSIZE at *
      omega
    rw [hleaf va hva, if_neg hne]
    exact hg.leaf_out va hva (fun h => hout ⟨h.1, by omega⟩)
  · -- a page the free list lost is `q`, a new page of the table, or lost before
    by_cases hxq : x = q
    · refine .inr ⟨a, hle, by unfold PGSIZE; omega, ?_⟩
      rw [hxq, hframe_new a le_rfl (by unfold PGSIZE; omega)]
    · by_cases hxm : x ∈ m.freelist
      · exact .inl (ht.gone x hxm hxq hx₂)
      · rcases hg.gone x hx hxm with h | ⟨va, h1, h2, rfl⟩
        · exact .inl (ht.tables_old x h)
        · exact .inr ⟨va, h1, by omega, (hframe_old va h1 h2).symm⟩

/-- A round whose `mappages` failed, after `kfree(mem)` gave `q` back. -/
theorem refund (hg : Grown m₀ m root a₀ a perm page) (haM : a ≤ MAXVA) (ht : Took m m₂ root q c)
    (hwf₂ : m₂.WF root) (hfree₂ : m₂.FreeOK) (hleaf : ∀ va < MAXVA, m₂.leaf root va = m.leaf root va) :
    Grown m₀ { m₂.memset q 1 with freelist := q :: m₂.freelist } root a₀ a perm page := by
  obtain ⟨hqa, hqk, hqP⟩ := hg.free.freeable q ht.mem
  set m₃ : Phys := { m₂.memset q 1 with freelist := q :: m₂.freelist } with hm₃
  have hpages₃ := Phys.kfree_pages hwf₂ ht.not_table hqa
  have htab₃ : ∀ x, m₃.IsTable root x ↔ m₂.IsTable root x := Phys.isTable_of_tables hpages₃
  have hleaf₃ : ∀ va < MAXVA, m₃.leaf root va = m.leaf root va := fun va hva => by
    rw [(Phys.views_of_tables hpages₃ hva).2, hleaf va hva]
  have hframe : ∀ va < MAXVA, m₃.frame root va = m.frame root va := fun va hva => by
    rw [Phys.frame, Phys.frame, hleaf₃ va hva]
  have hsub : ∀ x ∈ m₃.freelist, x ∈ m.freelist := by
    intro x hx
    rcases List.mem_cons.mp hx with rfl | hx
    · exact ht.mem
    · exact ht.sub x hx
  -- the junk of `kfree` goes into `q` only
  have hpq : ∀ p, p % PGSIZE = 0 → p ≠ q → m₃.pages (p / PGSIZE) = m₂.pages (p / PGSIZE) :=
    fun p hp hne => m₂.pages_memset q 1 (p / PGSIZE) (page_ne_of_ne hp hqa hne)
  have hfreeable : m₂.Freeable q := ⟨hqa, by rw [ht.kend]; exact hqk, hqP⟩
  refine ⟨Phys.kfree_wf hwf₂ ht.not_table hqa,
    Phys.kfree_freeOK hfree₂ ht.not_free hfreeable (hg.free.pos q ht.mem), ht.kend.trans hg.kend,
    hg.owned.transfer (fun va _ h2 => hleaf₃ va (by omega)) ht.kend hsub
      (fun x hx => ht.tables x ((htab₃ x).mp hx)),
    fun va h1 h2 => ?_, fun va h1 h2 => ?_, fun va h1 h2 => ?_, fun va hva hout => ?_,
    fun x hx => hg.sub x (hsub x hx), fun x hx => hg.took_tables ht x ((htab₃ x).mp hx),
    fun x hx hx₃ => ?_, fun p hp hpt hpf => ?_⟩
  · rw [hleaf₃ va (by omega), hframe va (by omega)]
    exact hg.leaf_in va h1 h2
  · rw [hframe va (by omega)]
    exact hg.fresh va h1 h2
  · rw [hframe va (by omega), hpq (m.frame root va) (PTE2PA_aligned _) (hg.frame_ne ht h1 h2)]
    exact hg.took_filled ht hwf₂ h1 h2
  · rw [hleaf₃ va hva]
    exact hg.leaf_out va hva hout
  · have hxq : x ≠ q := fun h => hx₃ (h ▸ List.mem_cons_self)
    have hx₂ : x ∉ m₂.freelist := fun h => hx₃ (List.mem_cons_of_mem _ h)
    rw [htab₃]
    by_cases hxm : x ∈ m.freelist
    · exact .inl (ht.gone x hxm hxq hx₂)
    · rcases hg.gone x hx hxm with h | ⟨va, h1, h2, rfl⟩
      · exact .inl (ht.tables_old x h)
      · exact .inr ⟨va, h1, h2, (hframe va (by omega)).symm⟩
  · have hq₀ : q ∈ m₀.freelist := hg.sub q ht.mem
    rw [hpq p hp (fun h => hpf (h ▸ hq₀))]
    exact hg.took_pages ht hwf₂ hp hpt hpf

end Grown

/-! ## Rolling back -/

/-- What a failed `uvmalloc` leaves of `m₀`: the valid leaves of `m₀`, and its
free pages but those that became pages of the table; no page changed that was
neither free nor a page of the table. -/
structure RolledBack (m₀ m : Phys) (root : Nat) : Prop where
  wf : m.WF root
  free : m.FreeOK
  kend : m.kend = m₀.kend
  leaf : ∀ va < MAXVA, m.leaf root va &&& PTE_V ≠ 0 ∨ m₀.leaf root va &&& PTE_V ≠ 0 →
    m.leaf root va = m₀.leaf root va
  freelist : ∀ x, x ∈ m.freelist ↔ x ∈ m₀.freelist ∧ ¬ m.IsTable root x
  tables : ∀ x, m.IsTable root x → m₀.IsTable root x ∨ x ∈ m₀.freelist
  pages : ∀ p, p % PGSIZE = 0 → ¬ m₀.IsTable root p → p ∉ m₀.freelist →
    m.pages (p / PGSIZE) = m₀.pages (p / PGSIZE)

section Rollback

variable {m₀ m m' : Phys} {root a₀ a : Nat} {perm : Nat → Nat} {page : Nat → Page}

/-- Unmapping the pages the loop mapped undoes it, but for the pages the
table gained. -/
theorem Grown.rolledBack (hg : Grown m₀ m root a₀ a perm page) (hun : Unmapped m m' root a₀ a)
    (hinv : ∀ va, a₀ ≤ va → va < a → m₀.leaf root va &&& PTE_V = 0) : RolledBack m₀ m' root := by
  refine ⟨hun.wf, hun.free, hun.kend.trans hg.kend, fun va hva hv => ?_, fun x => ?_,
    fun x hx => hg.tables x ((hun.isTable x).mp hx), fun p hp hpt hpf => ?_⟩
  · rw [hun.leaf va hva] at hv ⊢
    by_cases h : a₀ ≤ va ∧ va < a
    · -- a page of the range: invalid before, and cleared
      rw [if_pos h] at hv
      exfalso
      rcases hv with hv | hv
      · exact hv (Nat.zero_and _)
      · exact hv (hinv va h.1 h.2)
    · rw [if_neg h]
      exact hg.leaf_out va hva h
  · rw [hun.freelist, hun.isTable]
    constructor
    · rintro (hx | ⟨va, h1, h2, rfl⟩)
      · exact ⟨hg.sub x hx, hg.wf.not_free x hx⟩
      · exact ⟨hg.fresh va h1 h2, (hg.owned.page va h1 h2).not_table⟩
    · rintro ⟨hx, hxt⟩
      by_cases hxm : x ∈ m.freelist
      · exact .inl hxm
      · exact .inr ((hg.gone x hx hxm).resolve_left hxt)
  · have hpt' : ¬ m.IsTable root p := fun h => (hg.tables p h).elim hpt hpf
    rw [hun.pages p hp hpt' (fun va h1 h2 h => hpf (h ▸ hg.fresh va h1 h2))]
    exact hg.pages p hp hpt hpf

/-- `PGROUNDUP` of a page boundary. -/
theorem PGROUNDUP_of_aligned {x : Nat} (h : x % PGSIZE = 0) (hx : x ≤ MAXVA) : PGROUNDUP x = x := by
  rw [PGROUNDUP_eq hx]
  unfold PGSIZE at *
  omega

/-- A loop over pages from a page boundary that stops at the first page at or
above `sz` stops at `PGROUNDUP(sz)`. -/
theorem round_stop {sz a : Nat} (hsz : sz ≤ MAXVA) (ha : a % PGSIZE = 0) (h1 : sz ≤ a)
    (h2 : a ≤ PGROUNDUP sz) : a = PGROUNDUP sz := by
  rw [PGROUNDUP_eq hsz] at h2 ⊢
  unfold PGSIZE at *
  omega

/-- A page that starts below `sz` ends at or below `PGROUNDUP(sz)`. -/
theorem round_next {sz a : Nat} (hsz : sz ≤ MAXVA) (ha : a % PGSIZE = 0) (hlt : a < sz) :
    a + PGSIZE ≤ PGROUNDUP sz := by
  rw [PGROUNDUP_eq hsz]
  unfold PGSIZE at *
  omega

/-- The `uvmdealloc(pagetable, a, oldsz)` of a failed round. -/
theorem Grown.rollback (hg : Grown m₀ m root a₀ a perm page) (ha₀ : a₀ % PGSIZE = 0) (ha : a % PGSIZE = 0)
    (hle : a₀ ≤ a) (haM : a ≤ MAXVA) (hinv : ∀ va, a₀ ≤ va → va < a → m₀.leaf root va &&& PTE_V = 0) :
    ∃ sz m', uvmdealloc m root a a₀ = .ok (sz, m') ∧ RolledBack m₀ m' root := by
  rcases Nat.eq_or_lt_of_le hle with rfl | hlt
  · exact ⟨a₀, m, by rw [uvmdealloc, if_pos le_rfl],
      hg.rolledBack (Unmapped.refl hg.wf hg.free a₀) hinv⟩
  · have h₀ := PGROUNDUP_of_aligned ha₀ (by omega)
    have h₁ := PGROUNDUP_of_aligned ha haM
    obtain ⟨m', hrun, hun⟩ := uvmdealloc_spec hg.wf hg.free hlt haM (by rw [h₀, h₁]; exact hg.owned)
    rw [h₀, h₁] at hun
    exact ⟨a₀, m', hrun, hg.rolledBack hun hinv⟩

end Rollback

/-! ## The loop -/

section Loop

variable {m : Phys} {root oldsz newsz xperm fuel a q : Nat} {rest : List Nat}

/-- A round of the loop when `kalloc` finds no page. -/
theorem uvmallocLoop_of_nil (hfl : m.freelist = []) (ha : a < newsz) :
    uvmallocLoop root oldsz newsz xperm (fuel + 1) m a =
      (do let (_, m) ← uvmdealloc m root a oldsz; pure (0, m)) := by
  simp only [uvmallocLoop, if_pos ha, kalloc, hfl]

/-- A round of the loop when `kalloc` takes `q`. -/
theorem uvmallocLoop_of_cons (hfl : m.freelist = q :: rest) (hq : 0 < q) (ha : a < newsz) :
    uvmallocLoop root oldsz newsz xperm (fuel + 1) m a =
      (do
        let (r, m) ← mappages (m.takePage q rest fun _ => 0) root a PGSIZE q (PTE_R ||| PTE_U ||| xperm)
        if r ≠ 0 then
          let m ← kfree m q
          let (_, m) ← uvmdealloc m root a oldsz
          pure (0, m)
        else uvmallocLoop root oldsz newsz xperm fuel m (a + PGSIZE)) := by
  obtain ⟨q', rfl⟩ : ∃ q', q = q' + 1 := ⟨q - 1, by omega⟩
  simp only [uvmallocLoop, if_pos ha, kalloc, hfl, Phys.memset_memset]
  rfl

theorem TRAPFRAME_lt_MAXVA : TRAPFRAME < MAXVA := by decide

theorem TRAPFRAME_aligned : TRAPFRAME % PGSIZE = 0 := by decide

/-- The permissions `uvmalloc` maps with are flags, and include `PTE_U`. -/
theorem uvm_perm_lt {xperm : Nat} (h : xperm < 1024) : PTE_R ||| PTE_U ||| xperm < 1024 :=
  Nat.or_lt_two_pow (n := 10) (by decide) h

/-- The leaves `uvmalloc` writes carry `PTE_U`, so they are not pointers to a
lower level. -/
theorem uvm_leaf_flags (x xperm : Nat) :
    PTE_FLAGS (x ||| (PTE_R ||| PTE_U ||| xperm) ||| PTE_V) ≠ PTE_V := by
  apply PTE_FLAGS_ne_of_user
  rw [PTE_U, and_flag_ne_zero]
  simp only [Nat.testBit_or, show (1 <<< 4 : Nat).testBit 4 = true by decide, Bool.or_true,
    Bool.true_or]

/-- The loop of `uvmalloc` from a page `a` at or above `oldsz`, over pages of
`[oldsz, PGROUNDUP(newsz))` that were unmapped in `m₀`: by induction on the
fuel, each round maps its page (`Grown.map_round`) or fails and rolls back
(`Grown.refund`, `Grown.rollback`). -/
theorem uvmallocLoop_spec {m₀ : Phys} (hperm : xperm < 1024) (hnew : newsz ≤ TRAPFRAME)
    (hold : oldsz % PGSIZE = 0)
    (hinv : ∀ va, oldsz ≤ va → va < PGROUNDUP newsz → m₀.leaf root va &&& PTE_V = 0) :
    ∀ fuel m a, Grown m₀ m root oldsz a (fun _ => PTE_R ||| PTE_U ||| xperm) (fun _ _ => 0) →
      a % PGSIZE = 0 → oldsz ≤ a →
      a ≤ PGROUNDUP newsz → newsz - a ≤ fuel →
      ∃ sz m', uvmallocLoop root oldsz newsz xperm fuel m a = .ok (sz, m') ∧
        (sz = newsz ∧
            Grown m₀ m' root oldsz (PGROUNDUP newsz) (fun _ => PTE_R ||| PTE_U ||| xperm) (fun _ _ => 0) ∨
          sz = 0 ∧ RolledBack m₀ m' root) := by
  have hnM : newsz ≤ MAXVA := hnew.trans TRAPFRAME_lt_MAXVA.le
  intro fuel
  induction fuel with
  | zero =>
    intro m a hg ha hoa hap hfuel
    exact ⟨newsz, m, rfl, .inl ⟨rfl, round_stop hnM ha (by omega) hap ▸ hg⟩⟩
  | succ fuel ih =>
    intro m a hg ha hoa hap hfuel
    by_cases hlt : a < newsz
    swap
    · exact ⟨newsz, m, by rw [uvmallocLoop, if_neg hlt],
        .inl ⟨rfl, round_stop hnM ha (by omega) hap ▸ hg⟩⟩
    have hnext := round_next hnM ha hlt
    have haM : a < MAXVA := by
      have := TRAPFRAME_lt_MAXVA
      omega
    have hinv_a : ∀ va, oldsz ≤ va → va < a → m₀.leaf root va &&& PTE_V = 0 :=
      fun va h1 h2 => hinv va h1 (by omega)
    rcases hfl : m.freelist with _ | ⟨q, rest⟩
    · -- `kalloc` failed
      obtain ⟨sz, m', hrun, hrb⟩ := hg.rollback hold ha hoa haM.le hinv_a
      refine ⟨0, m', ?_, .inr ⟨rfl, hrb⟩⟩
      rw [uvmallocLoop_of_nil hfl hlt, hrun]
      rfl
    · have hq : q ∈ m.freelist := by
        rw [hfl]
        exact List.mem_cons_self
      obtain ⟨hqa, hqk, hqP⟩ := hg.free.freeable q hq
      have hq64 := (hg.free.freeable q hq).lt_two_pow
      have hperm' := uvm_perm_lt hperm
      have hfresh : (m.takePage q rest fun _ => 0).leaf root a &&& PTE_V = 0 := by
        rw [Phys.takePage_views hg.wf hg.free hfl haM, hg.leaf_out a haM (by omega)]
        exact hinv a hoa (by unfold PGSIZE at hnext; omega)
      obtain ⟨r, m₂, hcall, hwf₂, hfree₂, hext, hr⟩ :=
        mappages_page (Phys.takePage_wf hg.wf hg.free hfl) (Phys.takePage_freeOK hg.free hfl) ha haM
          hfresh hq64 (show PTE_R ||| PTE_U ||| xperm < 2 ^ 64 by omega)
      have ht := Took.of_extends hg.wf hg.free hfl hext hwf₂
      rw [uvmallocLoop_of_cons hfl (hg.free.pos q hq) hlt, hcall]
      rcases hr with ⟨rfl, hleaf⟩ | ⟨rfl, -, hleaf⟩
      · -- mapped: on to the next page
        have hg₂ := hg.map_round hperm' (uvm_leaf_flags _ xperm) (fun _ _ => ⟨rfl, rfl⟩) hoa ha haM ht
          hwf₂ hfree₂ (fun va hva => by rw [hleaf va hva, Phys.takePage_views hg.wf hg.free hfl hva])
        obtain ⟨sz, m', hrun, hres⟩ := ih m₂ (a + PGSIZE) hg₂ (by unfold PGSIZE at *; omega)
          (by omega) hnext (by unfold PGSIZE; omega)
        exact ⟨sz, m', hrun, hres⟩
      · -- `mappages` failed: give `q` back and roll back
        have hg₃ := hg.refund haM.le ht hwf₂ hfree₂
          (fun va hva => by rw [hleaf va hva, Phys.takePage_views hg.wf hg.free hfl hva])
        obtain ⟨sz, m', hrun, hrb⟩ := hg₃.rollback hold ha hoa haM.le hinv_a
        refine ⟨0, m', ?_, .inr ⟨rfl, hrb⟩⟩
        have hfreeable : m₂.Freeable q := ⟨hqa, by rw [ht.kend]; exact hqk, hqP⟩
        simp only [StateExcept.ok_bind, if_pos (show (-1 : Int) ≠ 0 by decide), kfree_ok hfreeable, hrun]
        rfl

end Loop

/-! ## `uvmalloc` and `uvmdealloc` over the memory of a process -/

theorem PGROUNDUP_mono {x y : Nat} (h : x ≤ y) (hy : y ≤ MAXVA) : PGROUNDUP x ≤ PGROUNDUP y := by
  rw [PGROUNDUP_eq (h.trans hy), PGROUNDUP_eq hy]
  exact Nat.mul_le_mul_right _ (Nat.div_le_div_right (by omega))

theorem PGROUNDUP_le_TRAPFRAME {sz : Nat} (h : sz ≤ TRAPFRAME) : PGROUNDUP sz ≤ TRAPFRAME := by
  have hT := PGROUNDUP_mono h TRAPFRAME_lt_MAXVA.le
  rwa [PGROUNDUP_of_aligned TRAPFRAME_aligned TRAPFRAME_lt_MAXVA.le] at hT

namespace Phys.ProcMem

variable {m₀ m : Phys} {root sz : Nat}

theorem round_le (hp : m₀.ProcMem root sz) : PGROUNDUP sz ≤ TRAPFRAME :=
  PGROUNDUP_le_TRAPFRAME hp.sz_le

/-- The memory of a process of size 0. -/
theorem empty (hwf : m.WF root) (hfree : m.FreeOK)
    (hleaf : ∀ va < TRAPFRAME, m.leaf root va &&& PTE_V = 0) : m.ProcMem root 0 := by
  have h0 : PGROUNDUP 0 = 0 := by decide
  refine ⟨hwf, hfree, Nat.zero_le _, ?_, fun va _ h2 => hleaf va h2⟩
  rw [h0]
  exact ⟨fun va _ h => absurd h (Nat.not_lt_zero va), fun va _ _ h _ _ _ => absurd h (Nat.not_lt_zero va)⟩

/-- A failed `uvmalloc` leaves the memory of a process of the old size. -/
theorem of_rolledBack (hp : m₀.ProcMem root sz) (hr : RolledBack m₀ m root) : m.ProcMem root sz := by
  have hT := hp.round_le
  have hM := TRAPFRAME_lt_MAXVA
  refine ⟨hr.wf, hr.free, hp.sz_le,
    hp.owned.transfer (fun va h1 h2 => hr.leaf va (by omega) (.inr (hp.owned.page va h1 h2).valid))
      hr.kend (fun x hx => ((hr.freelist x).mp hx).1) hr.tables, fun va h1 h2 => ?_⟩
  by_contra hv
  rw [hr.leaf va (by omega) (.inl hv)] at hv
  exact hv (hp.unmapped va h1 h2)

/-- A successful `uvmalloc` leaves the memory of a process of the new size. -/
theorem of_grown {oldsz newsz : Nat} {perm : Nat → Nat} {page : Nat → Page} (hp : m₀.ProcMem root oldsz)
    (hg : Grown m₀ m root (PGROUNDUP oldsz) (PGROUNDUP newsz) perm page) (hle : oldsz ≤ newsz)
    (hnew : newsz ≤ TRAPFRAME) : m.ProcMem root newsz := by
  have hT := hp.round_le
  have hM := TRAPFRAME_lt_MAXVA
  have hmono := PGROUNDUP_mono hle (hnew.trans hM.le)
  have hold : ∀ va, 0 ≤ va → va < PGROUNDUP oldsz → m.leaf root va = m₀.leaf root va :=
    fun va _ h2 => hg.leaf_out va (by omega) (by omega)
  refine ⟨hg.wf, hg.free, hnew, ?_, fun va h1 h2 => ?_⟩
  · -- the old pages keep frames that were not free; the new ones were free
    refine (hp.owned.transfer hold hg.kend hg.sub hg.tables).union hg.owned
      (fun va va' h1 h2 h3 h4 he => ?_)
    have hf : m.frame root va = m₀.frame root va := by rw [Phys.frame, Phys.frame, hold va h1 h2]
    rw [hf] at he
    exact (hp.owned.page va h1 h2).not_free (he ▸ hg.fresh va' h3 h4)
  · rw [hg.leaf_out va (by omega) (by omega)]
    exact hp.unmapped va (by omega) h2

end Phys.ProcMem

/-- `uvmalloc` from the memory of a process, to a size up to `TRAPFRAME`, with
flag bits `xperm`: it maps the new pages, or undoes what it did. -/
theorem uvmalloc_spec {m : Phys} {root oldsz newsz xperm : Nat} (hp : m.ProcMem root oldsz)
    (hle : oldsz ≤ newsz) (hnew : newsz ≤ TRAPFRAME) (hperm : xperm < 1024) :
    ∃ sz m', uvmalloc m root oldsz newsz xperm = .ok (sz, m') ∧
      (sz = newsz ∧ Grown m m' root (PGROUNDUP oldsz) (PGROUNDUP newsz)
          (fun _ => PTE_R ||| PTE_U ||| xperm) (fun _ _ => 0) ∨
        sz = 0 ∧ RolledBack m m' root) := by
  have hmono := PGROUNDUP_mono hle (hnew.trans TRAPFRAME_lt_MAXVA.le)
  have hT := PGROUNDUP_le_TRAPFRAME hnew
  rw [uvmalloc, if_neg (by omega)]
  exact uvmallocLoop_spec hperm hnew (PGROUNDUP_aligned oldsz)
    (fun va h1 h2 => hp.unmapped va h1 (by omega)) _ m _ (Grown.refl hp.wf hp.free _ _ _)
    (PGROUNDUP_aligned oldsz) le_rfl hmono le_rfl

/-- `uvmdealloc` to a smaller size leaves the memory of a process of that size. -/
theorem uvmdealloc_procMem {m : Phys} {root oldsz newsz : Nat} (hp : m.ProcMem root oldsz)
    (hlt : newsz < oldsz) :
    ∃ m', uvmdealloc m root oldsz newsz = .ok (newsz, m') ∧
      Unmapped m m' root (PGROUNDUP newsz) (PGROUNDUP oldsz) ∧ m'.ProcMem root newsz := by
  have hT := hp.round_le
  have hM := TRAPFRAME_lt_MAXVA
  have hsz := hp.sz_le
  have hmono := PGROUNDUP_mono hlt.le (by omega)
  have hal := PGROUNDUP_aligned newsz
  obtain ⟨m', hrun, hun⟩ :=
    uvmdealloc_spec hp.wf hp.free hlt (by omega) (hp.owned.mono (Nat.zero_le _) le_rfl)
  refine ⟨m', hrun, hun, hun.wf, hun.free, by omega, ?_, fun va h1 h2 => ?_⟩
  · exact hun.owned_outside hp.owned le_rfl hmono (by omega)
      (fun va va' _ h2 h3 _ => by unfold PGSIZE at *; omega) (Nat.zero_le _) le_rfl
  · rw [hun.leaf va (by omega)]
    by_cases h : PGROUNDUP newsz ≤ va ∧ va < PGROUNDUP oldsz
    · rw [if_pos h]
      exact Nat.zero_and _
    · rw [if_neg h]
      exact hp.unmapped va (by omega) h2

/-- **`uvmalloc` and `uvmdealloc` over the memory of a process.**  From the
memory of a process of size `oldsz`, `uvmalloc` to `newsz ≤ TRAPFRAME` with
flag bits `xperm` either returns `newsz`, every page of
`[PGROUNDUP(oldsz), PGROUNDUP(newsz))` mapped by the leaf
`PA2PTE(pa) | PTE_R | PTE_U | xperm | PTE_V` to a zero-filled page `pa` that
was free, or returns 0 with the valid leaves as they were and the free pages
as they were but those that became pages of the table.  `uvmdealloc` to
`newsz < oldsz` clears the leaves of `[PGROUNDUP(newsz), PGROUNDUP(oldsz))`
and frees their frames.  Every other leaf stays as it was, and the memory is
that of a process again. -/
theorem uvmalloc_uvmdealloc_correct {m : Phys} {root oldsz : Nat} (hp : m.ProcMem root oldsz) :
    (∀ newsz xperm, oldsz ≤ newsz → newsz ≤ TRAPFRAME → xperm < 1024 →
      ∃ sz m', uvmalloc m root oldsz newsz xperm = .ok (sz, m') ∧
        ((sz = newsz ∧ m'.ProcMem root newsz ∧
            (∀ va, PGROUNDUP oldsz ≤ va → va < PGROUNDUP newsz →
              m'.leaf root va = PA2PTE (m'.frame root va) ||| (PTE_R ||| PTE_U ||| xperm) ||| PTE_V ∧
              m'.frame root va ∈ m.freelist ∧ m'.pages (m'.frame root va / PGSIZE) = fun _ => 0) ∧
            ∀ va < MAXVA, ¬ (PGROUNDUP oldsz ≤ va ∧ va < PGROUNDUP newsz) →
              m'.leaf root va = m.leaf root va) ∨
          (sz = 0 ∧ m'.ProcMem root oldsz ∧
            (∀ va < MAXVA, m'.leaf root va &&& PTE_V ≠ 0 ∨ m.leaf root va &&& PTE_V ≠ 0 →
              m'.leaf root va = m.leaf root va) ∧
            ∀ x, x ∈ m'.freelist ↔ x ∈ m.freelist ∧ ¬ m'.IsTable root x))) ∧
    ∀ newsz, newsz < oldsz →
      ∃ m', uvmdealloc m root oldsz newsz = .ok (newsz, m') ∧ m'.ProcMem root newsz ∧
        (∀ va < MAXVA, m'.leaf root va =
          if PGROUNDUP newsz ≤ va ∧ va < PGROUNDUP oldsz then 0 else m.leaf root va) ∧
        ∀ x, x ∈ m'.freelist ↔
          x ∈ m.freelist ∨ ∃ va, PGROUNDUP newsz ≤ va ∧ va < PGROUNDUP oldsz ∧ x = m.frame root va := by
  refine ⟨fun newsz xperm hle hnew hperm => ?_, fun newsz hlt => ?_⟩
  · obtain ⟨sz, m', hrun, hres⟩ := uvmalloc_spec hp hle hnew hperm
    refine ⟨sz, m', hrun, ?_⟩
    rcases hres with ⟨rfl, hg⟩ | ⟨rfl, hr⟩
    · exact .inl ⟨rfl, hp.of_grown hg hle hnew,
        fun va h1 h2 => ⟨hg.leaf_in va h1 h2, hg.fresh va h1 h2, hg.filled va h1 h2⟩, hg.leaf_out⟩
    · exact .inr ⟨rfl, hp.of_rolledBack hr, hr.leaf, hr.freelist⟩
  · obtain ⟨m', hrun, hun, hp'⟩ := uvmdealloc_procMem hp hlt
    exact ⟨m', hrun, hp', hun.leaf, hun.freelist⟩

/-- Memory of zeroes, with an empty page table at `4096` and six free pages:
one for a user page, two for the table pages below the root, and three for a
copy of the process. -/
def zeroPhys6 : Phys :=
  { zeroPhys with freelist := [8192, 12288, 16384, 24576, 28672, 32768] }

theorem zeroPhys6_procMem : zeroPhys6.ProcMem 4096 0 := by
  refine Phys.ProcMem.empty (Phys.wf_of_zero rfl (by decide) (by decide) (by decide))
    ⟨by decide, fun p hp => ?_, fun p hp => ?_⟩ (fun va hva => ?_)
  · simp only [zeroPhys6, List.mem_cons, List.not_mem_nil, or_false] at hp
    rcases hp with rfl | rfl | rfl | rfl | rfl | rfl <;> exact ⟨by decide, by decide, by decide⟩
  · simp only [zeroPhys6, List.mem_cons, List.not_mem_nil, or_false] at hp
    omega
  · rw [Phys.leaf_of_zero rfl]
    decide

/-- The memory of a process of one page: `zeroPhys6` after `uvmalloc` of one
page with `PTE_W`, as `growproc(4096)` leaves the empty process.  Page 0 is
mapped to frame `8192`; `12288` and `16384` are the table pages below the root. -/
def growOne : Phys :=
  ((uvmalloc zeroPhys6 4096 0 4096 PTE_W).toOption.map Prod.snd).getD zeroPhys6

theorem uvmalloc_growOne : uvmalloc zeroPhys6 4096 0 4096 PTE_W = .ok (4096, growOne) := by
  rfl

theorem growOne_grown :
    Grown zeroPhys6 growOne 4096 (PGROUNDUP 0) (PGROUNDUP 4096)
      (fun _ => PTE_R ||| PTE_U ||| PTE_W) (fun _ _ => 0) := by
  obtain ⟨sz, m', hrun, hres⟩ :=
    uvmalloc_spec zeroPhys6_procMem (Nat.zero_le 4096) (by decide) (show PTE_W < 1024 by decide)
  rw [uvmalloc_growOne] at hrun
  obtain ⟨rfl, rfl⟩ := Prod.mk.inj (Except.ok.inj hrun)
  rcases hres with ⟨-, hg⟩ | ⟨h0, -⟩
  · exact hg
  · cases h0

theorem growOne_procMem : growOne.ProcMem 4096 4096 :=
  zeroPhys6_procMem.of_grown growOne_grown (Nat.zero_le _) (by decide)

theorem uvmalloc_uvmdealloc_correct_onePage :
    (∀ newsz xperm, 4096 ≤ newsz → newsz ≤ TRAPFRAME → xperm < 1024 →
      ∃ sz m', uvmalloc growOne 4096 4096 newsz xperm = .ok (sz, m') ∧
        ((sz = newsz ∧ m'.ProcMem 4096 newsz ∧
            (∀ va, PGROUNDUP 4096 ≤ va → va < PGROUNDUP newsz →
              m'.leaf 4096 va = PA2PTE (m'.frame 4096 va) ||| (PTE_R ||| PTE_U ||| xperm) ||| PTE_V ∧
              m'.frame 4096 va ∈ growOne.freelist ∧ m'.pages (m'.frame 4096 va / PGSIZE) = fun _ => 0) ∧
            ∀ va < MAXVA, ¬ (PGROUNDUP 4096 ≤ va ∧ va < PGROUNDUP newsz) →
              m'.leaf 4096 va = growOne.leaf 4096 va) ∨
          (sz = 0 ∧ m'.ProcMem 4096 4096 ∧
            (∀ va < MAXVA, m'.leaf 4096 va &&& PTE_V ≠ 0 ∨ growOne.leaf 4096 va &&& PTE_V ≠ 0 →
              m'.leaf 4096 va = growOne.leaf 4096 va) ∧
            ∀ x, x ∈ m'.freelist ↔ x ∈ growOne.freelist ∧ ¬ m'.IsTable 4096 x))) ∧
    ∀ newsz, newsz < 4096 →
      ∃ m', uvmdealloc growOne 4096 4096 newsz = .ok (newsz, m') ∧ m'.ProcMem 4096 newsz ∧
        (∀ va < MAXVA, m'.leaf 4096 va =
          if PGROUNDUP newsz ≤ va ∧ va < PGROUNDUP 4096 then 0 else growOne.leaf 4096 va) ∧
        ∀ x, x ∈ m'.freelist ↔
          x ∈ growOne.freelist ∨ ∃ va, PGROUNDUP newsz ≤ va ∧ va < PGROUNDUP 4096 ∧
            x = growOne.frame 4096 va :=
  uvmalloc_uvmdealloc_correct growOne_procMem

end Xv6.Vm
