import Xv6.Proofs.Vm.Map
import Xv6.Proofs.Vm.Alloc
import Xv6.Lib.StateExcept

/-!
# Copies between the kernel and user memory

`copyout`, `copyin` and `copyinstr` split a user range at page boundaries and
translate each page once, by the leaf PTE of the page.  Their specifications
are stated over what the user sees: the byte `ubyte va` at the physical
address `uaddr va = PTE2PA(leaf va) + va % PGSIZE`, and the pages each copy
accepts (`Readable` for `walkaddr`, `Writable` for the checks of `copyout`).

* `walkaddr_eq`: `walkaddr` in terms of the leaf.  It answers 0, which its
  callers take for a failure, also for a user page mapped to physical page 0.
* `copyin_correct`: the bytes read are those of the range up to the first
  page that `walkaddr` refuses, and the result is 0 when there is none.
* `copyout_correct`: the same for the pages `copyout` accepts, provided the
  writable pages of the range are mapped to distinct physical pages that are
  not pages of the table; the writes then never change a translation.
* `copyinstr_correct`: the string up to its NUL, when it lies in readable
  pages within `max` bytes.

Each loop is proved by induction on its fuel, which its length bounds; a
round is one page, from `va` to the end of its page (`round_page`,
`round_end`).
-/

namespace Xv6.Vm

open LittleEndian

namespace Phys

variable (m : Phys)

/-- The physical address of user address `va`, by the leaf of its page. -/
def uaddr (root va : Nat) : Nat := PTE2PA (m.leaf root va) + va % PGSIZE

/-- The byte the user sees at `va`. -/
def ubyte (root va : Nat) : UInt8 := m.byte (m.uaddr root va)

/-- `walkaddr` accepts the page of `va`: below `MAXVA`, with a leaf that has
`PTE_V` and `PTE_U` and maps a page other than 0. -/
def Readable (root va : Nat) : Prop :=
  va < MAXVA ∧ m.leaf root va &&& PTE_V ≠ 0 ∧ m.leaf root va &&& PTE_U ≠ 0 ∧
    PTE2PA (m.leaf root va) ≠ 0

/-- `copyout` accepts the page of `va`: below `MAXVA`, with a leaf that has
`PTE_V`, `PTE_U` and `PTE_W`. -/
def Writable (root va : Nat) : Prop :=
  va < MAXVA ∧ m.leaf root va &&& PTE_V ≠ 0 ∧ m.leaf root va &&& PTE_U ≠ 0 ∧
    m.leaf root va &&& PTE_W ≠ 0

instance (root va : Nat) : Decidable (m.Readable root va) :=
  inferInstanceAs (Decidable (_ ∧ _ ∧ _ ∧ _))

instance (root va : Nat) : Decidable (m.Writable root va) :=
  inferInstanceAs (Decidable (_ ∧ _ ∧ _ ∧ _))

/-- What reading a table needs: the root is a page, and no page of level 0 is
page 0, where the PTE of index 0 would be the null pointer. -/
structure Walkable (root : Nat) : Prop where
  aligned : root % PGSIZE = 0
  pos : ∀ va < MAXVA, ∀ t, m.tableOf root va 2 = some t → t ≠ 0

/-- The writable pages of `[va, va + len)` are mapped to distinct physical
pages, none of them a page of the table. -/
structure Unaliased (root va len : Nat) : Prop where
  not_table : ∀ i < len, m.Writable root (va + i) →
    ¬ m.IsTable root (PTE2PA (m.leaf root (va + i)))
  distinct : ∀ i < len, ∀ j < len, m.Writable root (va + i) → m.Writable root (va + j) →
    PTE2PA (m.leaf root (va + i)) = PTE2PA (m.leaf root (va + j)) →
      (va + i) / PGSIZE = (va + j) / PGSIZE

end Phys

theorem Phys.WF.walkable {m : Phys} {root : Nat} (hwf : m.WF root) : m.Walkable root :=
  ⟨hwf.aligned, fun va hva t ht => Nat.pos_iff_ne_zero.mp (hwf.pos va hva 2 le_rfl t ht)⟩

/-! ## Pages and rounds -/

theorem Phys.readable_of_page_eq (m : Phys) (root : Nat) {va va' : Nat}
    (h : va / PGSIZE = va' / PGSIZE) : m.Readable root va ↔ m.Readable root va' := by
  rw [Phys.Readable, Phys.Readable, m.leaf_of_page_eq root h, lt_MAXVA_of_page_eq h]

theorem Phys.writable_of_page_eq (m : Phys) (root : Nat) {va va' : Nat}
    (h : va / PGSIZE = va' / PGSIZE) : m.Writable root va ↔ m.Writable root va' := by
  rw [Phys.Writable, Phys.Writable, m.leaf_of_page_eq root h, lt_MAXVA_of_page_eq h]

/-- The bytes of the round from `va` are on the page of `va`. -/
theorem round_page {va i : Nat} (hi : i < PGSIZE - (va - PGROUNDDOWN va)) :
    (va + i) / PGSIZE = PGROUNDDOWN va / PGSIZE := by
  unfold PGROUNDDOWN PGSIZE at *
  omega

/-- The round from `va` ends where the next page starts. -/
theorem round_end (va : Nat) : va + (PGSIZE - (va - PGROUNDDOWN va)) = PGROUNDDOWN va + PGSIZE := by
  unfold PGROUNDDOWN PGSIZE
  omega

theorem round_pos (va : Nat) : 0 < PGSIZE - (va - PGROUNDDOWN va) := by
  unfold PGROUNDDOWN PGSIZE
  omega

theorem PGROUNDDOWN_page (va : Nat) : PGROUNDDOWN va / PGSIZE = va / PGSIZE := by
  unfold PGROUNDDOWN PGSIZE
  omega

/-- The user address `va + i` of the round from `va`, translated. -/
theorem Phys.uaddr_round (m : Phys) (root : Nat) {va i : Nat}
    (hi : i < PGSIZE - (va - PGROUNDDOWN va)) :
    m.uaddr root (va + i) = PTE2PA (m.leaf root (PGROUNDDOWN va)) + (va - PGROUNDDOWN va) + i := by
  have hmod : (va + i) % PGSIZE = va - PGROUNDDOWN va + i := by
    unfold PGROUNDDOWN PGSIZE at *
    omega
  rw [Phys.uaddr, m.leaf_of_page_eq root (round_page hi), hmod, Nat.add_assoc]

/-- The page of a translated address is the page of the leaf. -/
theorem Phys.uaddr_page (m : Phys) (root va : Nat) :
    m.uaddr root va / PGSIZE = PTE2PA (m.leaf root va) / PGSIZE := by
  have ha := PTE2PA_aligned (m.leaf root va)
  have hm : va % PGSIZE < PGSIZE := Nat.mod_lt _ (by decide)
  unfold Phys.uaddr
  unfold PGSIZE at *
  omega

/-! ## Reading the table -/

/-- `walk` without allocation on a readable table: a PTE address that is 0
only where the leaf is 0, and holds the leaf otherwise. -/
theorem walk_false_leaf {m : Phys} {root va : Nat} (hw : m.Walkable root) (hva : va < MAXVA) :
    ∃ pte, walk m root va false = .ok (pte, m) ∧ (pte = 0 → m.leaf root va = 0) ∧
      (pte ≠ 0 → m.load pte = m.leaf root va) := by
  rw [walk_false m hw.aligned hva]
  cases ht : m.tableOf root va 2 with
  | none => exact ⟨0, rfl, fun _ => by rw [Phys.leaf, ht], fun h => absurd rfl h⟩
  | some t =>
    have ht0 := hw.pos va hva t ht
    refine ⟨t + 8 * PX 0 va, rfl, fun h => absurd (by omega) ht0, fun _ => ?_⟩
    rw [m.load_entry (m.tableOf_aligned hw.aligned ht) (PX_lt 0 va), Phys.leaf, ht]

/-- `walkaddr` in terms of the leaf. -/
theorem walkaddr_eq {m : Phys} {root : Nat} (hw : m.Walkable root) (va : Nat) :
    walkaddr m root va =
      if va < MAXVA ∧ m.leaf root va &&& PTE_V ≠ 0 ∧ m.leaf root va &&& PTE_U ≠ 0 then
        PTE2PA (m.leaf root va)
      else 0 := by
  unfold walkaddr
  by_cases hva : va < MAXVA
  · obtain ⟨pte, hwalk, h0, hl⟩ := walk_false_leaf hw hva
    rw [if_neg (by omega), hwalk]
    dsimp only
    by_cases hp : pte = 0
    · rw [if_pos hp, if_neg]
      rw [h0 hp, Nat.zero_and]
      exact fun h => h.2.1 rfl
    · rw [if_neg hp, hl hp]
      by_cases hv : m.leaf root va &&& PTE_V = 0
      · rw [if_pos hv, if_neg (fun h => h.2.1 hv)]
      · by_cases hu : m.leaf root va &&& PTE_U = 0
        · rw [if_neg hv, if_pos hu, if_neg (fun h => h.2.2 hu)]
        · rw [if_neg hv, if_neg hu, if_pos ⟨hva, hv, hu⟩]
  · rw [if_pos (by omega), if_neg (fun h => hva h.1)]

theorem walkaddr_of_readable {m : Phys} {root va : Nat} (hw : m.Walkable root)
    (h : m.Readable root va) : walkaddr m root va = PTE2PA (m.leaf root va) := by
  rw [walkaddr_eq hw, if_pos ⟨h.1, h.2.1, h.2.2.1⟩]

theorem walkaddr_of_not_readable {m : Phys} {root va : Nat} (hw : m.Walkable root)
    (h : ¬ m.Readable root va) : walkaddr m root va = 0 := by
  rw [walkaddr_eq hw]
  split_ifs with hc
  · by_contra hne
    exact h ⟨hc.1, hc.2.1, hc.2.2, hne⟩
  · rfl

/-! ## Physical bytes -/

/-- Reading `n` bytes inside one page. -/
theorem Phys.read_eq (m : Phys) {pa n : Nat} (h : pa % PGSIZE + n ≤ PGSIZE) :
    m.read pa n = (List.range n).map fun i => m.byte (pa + i) := by
  unfold Phys.read getBytes
  refine List.map_congr_left fun i hi => ?_
  rw [List.mem_range] at hi
  have hq : (pa + i) / PGSIZE = pa / PGSIZE := by
    unfold PGSIZE at *
    omega
  have hr : (pa + i) % PGSIZE = pa % PGSIZE + i := by
    unfold PGSIZE at *
    omega
  rw [Phys.byte, hq, hr]

/-! ## `copyin` -/

/-- The bytes of the round of a readable page, as the user sees them. -/
theorem Phys.read_round (m : Phys) {root : Nat} (hw : m.Walkable root) {va n : Nat}
    (hr : m.Readable root (PGROUNDDOWN va)) (hn : n ≤ PGSIZE - (va - PGROUNDDOWN va)) :
    m.read (walkaddr m root (PGROUNDDOWN va) + (va - PGROUNDDOWN va)) n =
      (List.range n).map fun i => m.ubyte root (va + i) := by
  have hpa := PTE2PA_aligned (m.leaf root (PGROUNDDOWN va))
  rw [walkaddr_of_readable hw hr, m.read_eq (by unfold PGROUNDDOWN PGSIZE at *; omega)]
  refine List.map_congr_left fun i hi => ?_
  rw [List.mem_range] at hi
  rw [Phys.ubyte, m.uaddr_round root (by omega)]

/-- The rounds of `copyin` from `srcva`: the bytes of the range up to the first
page that `walkaddr` refuses, and 0 exactly when there is none. -/
theorem copyinLoop_spec {m : Phys} {root : Nat} (hw : m.Walkable root) :
    ∀ fuel srcva len, len ≤ fuel →
      ∃ k ≤ len, (∀ i < k, m.Readable root (srcva + i)) ∧
        (k < len → ¬ m.Readable root (srcva + k)) ∧
        copyinLoop m root fuel srcva len =
          (if k = len then 0 else -1, (List.range k).map fun i => m.ubyte root (srcva + i))
  | 0, srcva, len, hlen => by
    obtain rfl : len = 0 := by omega
    exact ⟨0, le_rfl, by simp, by simp, by simp [copyinLoop]⟩
  | fuel + 1, srcva, len, hlen => by
    rcases Nat.eq_zero_or_pos len with rfl | hpos
    · exact ⟨0, le_rfl, by simp, by simp, by simp [copyinLoop]⟩
    have hpage := PGROUNDDOWN_page srcva
    by_cases hr : m.Readable root (PGROUNDDOWN srcva)
    · -- the page is read, and the rounds go on from the next page
      have hround := round_pos srcva
      have hend := round_end srcva
      set n := min (PGSIZE - (srcva - PGROUNDDOWN srcva)) len with hn
      obtain ⟨k, hk, hread, hstop, hrun⟩ :=
        copyinLoop_spec hw fuel (PGROUNDDOWN srcva + PGSIZE) (len - n) (by omega)
      -- after the first round, the range goes on at the next page, or is done
      have hnext : ∀ j < k, srcva + (n + j) = PGROUNDDOWN srcva + PGSIZE + j := by
        intro j hj
        omega
      refine ⟨n + k, by omega, fun i hi => ?_, fun hlt => ?_, ?_⟩
      · by_cases hin : i < n
        · exact (m.readable_of_page_eq root (round_page (by omega))).mpr hr
        · obtain ⟨j, rfl⟩ : ∃ j, i = n + j := ⟨i - n, by omega⟩
          rw [hnext j (by omega)]
          exact hread j (by omega)
      · have hk' : k < len - n := by omega
        have := hstop hk'
        rwa [show srcva + (n + k) = PGROUNDDOWN srcva + PGSIZE + k by omega]
      · have hwa : walkaddr m root (PGROUNDDOWN srcva) ≠ 0 := by
          rw [walkaddr_of_readable hw hr]
          exact hr.2.2.2
        simp only [copyinLoop, if_pos hpos, if_neg hwa]
        rw [← hn, hrun, m.read_round hw hr (by omega), List.range_add, List.map_append, List.map_map]
        refine Prod.ext ?_ ?_
        · dsimp only
          split_ifs <;> omega
        · dsimp only
          refine congrArg (_ ++ ·) (List.map_congr_left fun j hj => ?_)
          rw [List.mem_range] at hj
          rw [Function.comp_apply, hnext j hj]
    · -- `walkaddr` refuses the first page
      refine ⟨0, by omega, by simp, fun _ => ?_, ?_⟩
      · rw [Nat.add_zero]
        exact fun h => hr ((m.readable_of_page_eq root hpage.symm).mp h)
      · simp [copyinLoop, hpos, walkaddr_of_not_readable hw hr, hpos.ne]

/-- `copyin` from a readable table: 0 exactly when every byte of the range is
in a page that `walkaddr` accepts, -1 otherwise, and the bytes written to
`dst` are those the user sees from `srcva` up to the first refused page. -/
theorem copyin_spec {m : Phys} {root : Nat} (hw : m.Walkable root) (srcva len : Nat) :
    ((copyin m root srcva len).1 = 0 ↔ ∀ i < len, m.Readable root (srcva + i)) ∧
      ((copyin m root srcva len).1 = 0 ∨ (copyin m root srcva len).1 = -1) ∧
      ∃ k ≤ len, (∀ i < k, m.Readable root (srcva + i)) ∧
        (k < len → ¬ m.Readable root (srcva + k)) ∧
        (copyin m root srcva len).2 = (List.range k).map fun i => m.ubyte root (srcva + i) := by
  obtain ⟨k, hk, hread, hstop, hrun⟩ := copyinLoop_spec hw len srcva len le_rfl
  rw [copyin, hrun]
  refine ⟨?_, ?_, k, hk, hread, hstop, rfl⟩
  · dsimp only
    by_cases hkl : k = len
    · subst hkl
      simpa using hread
    · rw [if_neg hkl]
      exact ⟨fun h => absurd h (by decide), fun h => absurd (h k (by omega)) (hstop (by omega))⟩
  · dsimp only
    split_ifs
    · exact .inl rfl
    · exact .inr rfl

/-! ## `copyout` -/

/-- The checks of `copyout` on the PTE `walk` found refuse exactly the pages
that are not `Writable`. -/
theorem copyout_check_iff {m : Phys} {root va pte : Nat} (hva : va < MAXVA)
    (h0 : pte = 0 → m.leaf root va = 0) (hl : pte ≠ 0 → m.load pte = m.leaf root va) :
    (pte = 0 ∨ m.load pte &&& PTE_V = 0 ∨ m.load pte &&& PTE_U = 0 ∨ m.load pte &&& PTE_W = 0) ↔
      ¬ m.Writable root va := by
  by_cases hp : pte = 0
  · have hz : m.leaf root va &&& PTE_V = 0 := by rw [h0 hp, Nat.zero_and]
    exact ⟨fun _ hw => hw.2.1 hz, fun _ => .inl hp⟩
  · rw [hl hp, Phys.Writable]
    constructor
    · rintro (h | h | h | h) ⟨-, hv, hu, hwr⟩
      · exact hp h
      · exact hv h
      · exact hu h
      · exact hwr h
    · intro h
      by_contra hc
      simp only [not_or] at hc
      exact h ⟨hva, hc.2.1, hc.2.2.1, hc.2.2.2⟩

/-- `memmove` inside one page, byte by byte. -/
theorem Phys.byte_memmove (m : Phys) {pa : Nat} {src : List UInt8}
    (h : pa % PGSIZE + src.length ≤ PGSIZE) (x : Nat) :
    (m.memmove pa src).byte x =
      if pa ≤ x ∧ x < pa + src.length then src.getD (x - pa) 0 else m.byte x := by
  unfold Phys.byte Phys.memmove
  dsimp only
  by_cases hq : x / PGSIZE = pa / PGSIZE
  · have hx : x % PGSIZE < PGSIZE := Nat.mod_lt _ (by decide)
    rw [hq, Function.update_self, byteAt_setBytes]
    by_cases hin : pa ≤ x ∧ x < pa + src.length
    · rw [if_pos ⟨by unfold PGSIZE at *; omega, by unfold PGSIZE at *; omega, hx⟩, if_pos hin]
      rw [show x % PGSIZE - pa % PGSIZE = x - pa by unfold PGSIZE at *; omega]
    · rw [if_neg (by unfold PGSIZE at *; omega), if_neg hin]
  · rw [Function.update_of_ne hq, if_neg (by unfold PGSIZE at *; omega)]

theorem Phys.Walkable.of_tables {m m' : Phys} {root : Nat} (hw : m.Walkable root)
    (hpages : ∀ q, m.IsTable root q → m'.pages (q / PGSIZE) = m.pages (q / PGSIZE)) :
    m'.Walkable root :=
  ⟨hw.aligned, fun va hva t ht =>
    hw.pos va hva t (((Phys.views_of_tables hpages hva).1 2 le_rfl).symm.trans ht)⟩

theorem Phys.writable_of_tables {m m' : Phys} {root : Nat}
    (hpages : ∀ q, m.IsTable root q → m'.pages (q / PGSIZE) = m.pages (q / PGSIZE)) (va : Nat) :
    m'.Writable root va ↔ m.Writable root va := by
  by_cases hva : va < MAXVA
  · rw [Phys.Writable, Phys.Writable, (Phys.views_of_tables hpages hva).2]
  · exact ⟨fun h => absurd h.1 hva, fun h => absurd h.1 hva⟩

theorem Phys.Unaliased.zero (m : Phys) (root va : Nat) : m.Unaliased root va 0 :=
  ⟨fun i hi => absurd hi (by omega), fun i hi => absurd hi (by omega)⟩

/-- The range without its first `n` bytes. -/
theorem Phys.Unaliased.shift {m : Phys} {root va len : Nat} (h : m.Unaliased root va len)
    (n : Nat) : m.Unaliased root (va + n) (len - n) := by
  refine ⟨fun i hi hw => ?_, fun i hi j hj hwi hwj he => ?_⟩
  · rw [Nat.add_assoc] at hw ⊢
    exact h.not_table (n + i) (by omega) hw
  · simp only [Nat.add_assoc] at hwi hwj he ⊢
    exact h.distinct (n + i) (by omega) (n + j) (by omega) hwi hwj he

theorem Phys.Unaliased.of_tables {m m' : Phys} {root va len : Nat} (h : m.Unaliased root va len)
    (hpages : ∀ q, m.IsTable root q → m'.pages (q / PGSIZE) = m.pages (q / PGSIZE)) :
    m'.Unaliased root va len := by
  have hleaf : ∀ i, m'.Writable root (va + i) → m'.leaf root (va + i) = m.leaf root (va + i) :=
    fun i hw => (Phys.views_of_tables hpages hw.1).2
  refine ⟨fun i hi hw => ?_, fun i hi j hj hwi hwj he => ?_⟩
  · rw [hleaf i hw, Phys.isTable_of_tables hpages]
    exact h.not_table i hi ((Phys.writable_of_tables hpages _).mp hw)
  · rw [hleaf i hwi, hleaf j hwj] at he
    exact h.distinct i hi j hj ((Phys.writable_of_tables hpages _).mp hwi)
      ((Phys.writable_of_tables hpages _).mp hwj) he

theorem getD_take_of_lt (src : List UInt8) {n i : Nat} (h : i < n) :
    (src.take n).getD i 0 = src.getD i 0 := by
  simp [List.getD_eq_getElem?_getD, h]

theorem getD_drop (src : List UInt8) (n j : Nat) : (src.drop n).getD j 0 = src.getD (n + j) 0 := by
  simp [List.getD_eq_getElem?_getD, List.getElem?_drop]

theorem Phys.uaddr_of_tables {m m' : Phys} {root : Nat}
    (hpages : ∀ q, m.IsTable root q → m'.pages (q / PGSIZE) = m.pages (q / PGSIZE))
    {va : Nat} (hva : va < MAXVA) : m'.uaddr root va = m.uaddr root va := by
  rw [Phys.uaddr, Phys.uaddr, (Phys.views_of_tables hpages hva).2]

/-- Writable bytes on different pages of an unaliased range are translated to
different physical bytes. -/
theorem Phys.Unaliased.uaddr_ne {m : Phys} {root va len i j : Nat} (hal : m.Unaliased root va len)
    (hi : i < len) (hj : j < len) (hwi : m.Writable root (va + i)) (hwj : m.Writable root (va + j))
    (hpage : (va + i) / PGSIZE ≠ (va + j) / PGSIZE) :
    m.uaddr root (va + i) ≠ m.uaddr root (va + j) := by
  intro he
  have hp := congrArg (· / PGSIZE) he
  simp only [Phys.uaddr_page] at hp
  have hai := PTE2PA_aligned (m.leaf root (va + i))
  have haj := PTE2PA_aligned (m.leaf root (va + j))
  exact hpage (hal.distinct i hi j hj hwi hwj (by unfold PGSIZE at *; omega))

/-- The write of one round of `copyout` into a page that is not a page of the
table: the first `n` bytes of `src` at the translations of `va`, nothing else,
and the table is untouched. -/
theorem Phys.memmove_round (m : Phys) {root : Nat} (hw : m.Walkable root) {va n : Nat}
    {src : List UInt8} (hnt : ¬ m.IsTable root (PTE2PA (m.leaf root (PGROUNDDOWN va))))
    (hn : n ≤ PGSIZE - (va - PGROUNDDOWN va)) (hsrc : n ≤ src.length) {m' : Phys}
    (hm' : m' = m.memmove (PTE2PA (m.leaf root (PGROUNDDOWN va)) + (va - PGROUNDDOWN va)) (src.take n)) :
    (∀ q, m.IsTable root q → m'.pages (q / PGSIZE) = m.pages (q / PGSIZE)) ∧
      (∀ i < n, m'.byte (m.uaddr root (va + i)) = src.getD i 0) ∧
      ∀ x, (∀ i < n, x ≠ m.uaddr root (va + i)) → m'.byte x = m.byte x := by
  have hpa := PTE2PA_aligned (m.leaf root (PGROUNDDOWN va))
  have hlen : (src.take n).length = n := List.length_take_of_le hsrc
  have hfit : (PTE2PA (m.leaf root (PGROUNDDOWN va)) + (va - PGROUNDDOWN va)) % PGSIZE +
      (src.take n).length ≤ PGSIZE := by
    rw [hlen]
    unfold PGROUNDDOWN PGSIZE at *
    omega
  subst hm'
  refine ⟨fun q hq => ?_, fun i hi => ?_, fun x hx => ?_⟩
  · -- the page written is a data page, and a page of the table is another page
    obtain ⟨v, hvlt, d, hd, hv⟩ := hq
    have hqa := m.tableOf_aligned hw.aligned hv
    have hne : q ≠ PTE2PA (m.leaf root (PGROUNDDOWN va)) := fun h =>
      hnt (by rw [← h]; exact ⟨v, hvlt, d, hd, hv⟩)
    apply m.pages_memmove
    unfold PGROUNDDOWN PGSIZE at *
    omega
  · rw [m.byte_memmove hfit, m.uaddr_round root (by omega), hlen, if_pos (by omega),
      show _ + (va - PGROUNDDOWN va) + i - _ = i by omega, getD_take_of_lt src hi]
  · rw [m.byte_memmove hfit, if_neg]
    rintro ⟨hlo, hhi⟩
    rw [hlen] at hhi
    exact hx (x - (PTE2PA (m.leaf root (PGROUNDDOWN va)) + (va - PGROUNDDOWN va))) (by omega)
      (by rw [m.uaddr_round root (by omega)]; omega)

/-- What a run of `copyout` from `dstva` did: it copied the first `k` bytes
of `src` to the translations of `[dstva, dstva + k)`, stopped at the first
page it refuses, and wrote nothing else; the table and the free list are as
before. -/
structure CopiedOut (root : Nat) (m : Phys) (dstva : Nat) (src : List UInt8) (len k : Nat)
    (m' : Phys) : Prop where
  le : k ≤ len
  writable : ∀ i < k, m.Writable root (dstva + i)
  stop : k < len → ¬ m.Writable root (dstva + k)
  freelist : m'.freelist = m.freelist
  kend : m'.kend = m.kend
  tables : ∀ q, m.IsTable root q → m'.pages (q / PGSIZE) = m.pages (q / PGSIZE)
  hit : ∀ i < k, m'.byte (m.uaddr root (dstva + i)) = src.getD i 0
  frame : ∀ x, (∀ i < k, x ≠ m.uaddr root (dstva + i)) → m'.byte x = m.byte x

namespace CopiedOut

variable {root : Nat} {m m₁ m' : Phys} {dstva len n k : Nat} {src : List UInt8}

/-- A run that stops at its first page. -/
theorem none (hstop : 0 < len → ¬ m.Writable root dstva) : CopiedOut root m dstva src len 0 m :=
  ⟨Nat.zero_le _, fun i hi => absurd hi (Nat.not_lt_zero i),
    fun h => by simpa using hstop h, rfl, rfl, fun _ _ => rfl,
    fun i hi => absurd hi (Nat.not_lt_zero i), fun _ _ => rfl⟩

/-- One round on the page of `dstva`, then a run from the next page. -/
theorem round (hal : m.Unaliased root dstva len) (hwr : m.Writable root (PGROUNDDOWN dstva))
    (hn : n = min (PGSIZE - (dstva - PGROUNDDOWN dstva)) len)
    (htab : ∀ q, m.IsTable root q → m₁.pages (q / PGSIZE) = m.pages (q / PGSIZE))
    (hhit : ∀ i < n, m₁.byte (m.uaddr root (dstva + i)) = src.getD i 0)
    (hframe : ∀ x, (∀ i < n, x ≠ m.uaddr root (dstva + i)) → m₁.byte x = m.byte x)
    (hfl : m₁.freelist = m.freelist) (hke : m₁.kend = m.kend)
    (h : CopiedOut root m₁ (PGROUNDDOWN dstva + PGSIZE) (src.drop n) (len - n) k m') :
    CopiedOut root m dstva src len (n + k) m' := by
  have hround := round_pos dstva
  have hend := round_end dstva
  have hk := h.le
  -- after the first round, the range goes on at the next page
  have hnext : ∀ j < k, dstva + (n + j) = PGROUNDDOWN dstva + PGSIZE + j := by
    intro j hj
    omega
  have hwr_in : ∀ i < n, m.Writable root (dstva + i) := fun i hi =>
    (m.writable_of_page_eq root (round_page (by omega))).mpr hwr
  have hwr_next : ∀ j < k, m.Writable root (dstva + (n + j)) := fun j hj => by
    rw [hnext j hj]
    exact (Phys.writable_of_tables htab _).mp (h.writable j hj)
  -- the later rounds translate as before the first, and never onto its page
  have hua : ∀ j < k, m₁.uaddr root (PGROUNDDOWN dstva + PGSIZE + j) =
      m.uaddr root (dstva + (n + j)) := fun j hj => by
    rw [← hnext j hj]
    exact Phys.uaddr_of_tables htab (hwr_next j hj).1
  have hsep : ∀ i < n, ∀ j < k, m.uaddr root (dstva + i) ≠ m.uaddr root (dstva + (n + j)) := by
    intro i hi j hj
    refine hal.uaddr_ne (by omega) (by omega) (hwr_in i hi) (hwr_next j hj) ?_
    rw [round_page (by omega), hnext j hj]
    unfold PGROUNDDOWN PGSIZE
    omega
  refine ⟨by omega, fun i hi => ?_, fun hlt => ?_, h.freelist.trans hfl, h.kend.trans hke,
    fun q hq => ?_, fun i hi => ?_, fun x hx => ?_⟩
  · by_cases hin : i < n
    · exact hwr_in i hin
    · obtain ⟨j, rfl⟩ : ∃ j, i = n + j := ⟨i - n, by omega⟩
      exact hwr_next j (by omega)
  · rw [show dstva + (n + k) = PGROUNDDOWN dstva + PGSIZE + k by omega,
      ← Phys.writable_of_tables htab]
    exact h.stop (by omega)
  · rw [h.tables q ((Phys.isTable_of_tables htab q).mpr hq), htab q hq]
  · by_cases hin : i < n
    · rw [h.frame _ (fun j hj => by rw [hua j hj]; exact hsep i hin j hj), hhit i hin]
    · obtain ⟨j, rfl⟩ : ∃ j, i = n + j := ⟨i - n, by omega⟩
      have hj : j < k := by omega
      rw [← hua j hj, h.hit j hj, getD_drop]
  · rw [h.frame x (fun j hj => by rw [hua j hj]; exact hx (n + j) (by omega)),
      hframe x (fun i hi => hx i (by omega))]

end CopiedOut

/-- The rounds of `copyout` from `dstva` over an unaliased range. -/
theorem copyoutLoop_spec {root : Nat} :
    ∀ fuel (m : Phys) dstva (src : List UInt8) len, m.Walkable root →
      m.Unaliased root dstva len → len ≤ fuel → len ≤ src.length →
      ∃ k m', copyoutLoop root fuel m dstva src len = .ok (if k = len then 0 else -1, m') ∧
        CopiedOut root m dstva src len k m'
  | 0, m, dstva, src, len, _, _, hlen, _ => by
    obtain rfl : len = 0 := by omega
    exact ⟨0, m, rfl, .none fun h => absurd h (by omega)⟩
  | fuel + 1, m, dstva, src, len, hw, hal, hlen, hsrc => by
    rcases Nat.eq_zero_or_pos len with rfl | hpos
    · exact ⟨0, m, by simp [copyoutLoop], .none fun h => absurd h (by omega)⟩
    have hpage := PGROUNDDOWN_page dstva
    have hsame : m.Writable root dstva ↔ m.Writable root (PGROUNDDOWN dstva) :=
      m.writable_of_page_eq root hpage.symm
    by_cases hva0 : PGROUNDDOWN dstva ≥ MAXVA
    · -- the page is at or above `MAXVA`
      refine ⟨0, m, ?_, .none fun _ hwr => ?_⟩
      · simp only [copyoutLoop, if_pos hpos, if_pos hva0]
        simp [hpos.ne]
      · exact absurd (hsame.mp (by simpa using hwr)).1 (by omega)
    obtain ⟨pte, hwalk, h0, hl⟩ := walk_false_leaf hw (by omega : PGROUNDDOWN dstva < MAXVA)
    have hcheck := copyout_check_iff (by omega) h0 hl
    by_cases hwr : m.Writable root (PGROUNDDOWN dstva)
    · -- the page is written, and the rounds go on from the next page
      have hok := mt hcheck.mp (not_not.mpr hwr)
      have hp : pte ≠ 0 := fun h => hok (.inl h)
      have hround := round_pos dstva
      have hend := round_end dstva
      set n := min (PGSIZE - (dstva - PGROUNDDOWN dstva)) len with hn
      set m₁ := m.memmove (PTE2PA (m.leaf root (PGROUNDDOWN dstva)) + (dstva - PGROUNDDOWN dstva))
        (src.take n) with hm₁
      have hnt : ¬ m.IsTable root (PTE2PA (m.leaf root (PGROUNDDOWN dstva))) := by
        have := hal.not_table 0 hpos (by rw [Nat.add_zero]; exact hsame.mpr hwr)
        rwa [Nat.add_zero, m.leaf_of_page_eq root hpage.symm] at this
      obtain ⟨htab, hhit, hframe⟩ := m.memmove_round hw hnt (Nat.min_le_left _ _) (by omega) hm₁
      have hU : m₁.Unaliased root (PGROUNDDOWN dstva + PGSIZE) (len - n) := by
        by_cases hrest : len - n = 0
        · rw [hrest]
          exact .zero _ _ _
        · rw [show PGROUNDDOWN dstva + PGSIZE = dstva + n by omega]
          exact (hal.shift n).of_tables htab
      obtain ⟨k, m', hrun, hcop⟩ := copyoutLoop_spec fuel m₁ (PGROUNDDOWN dstva + PGSIZE)
        (src.drop n) (len - n) (hw.of_tables htab) hU (by omega) (by simp; omega)
      refine ⟨n + k, m', ?_, hcop.round hal hwr hn htab hhit hframe rfl rfl⟩
      have hif : (if k = len - n then (0 : Int) else -1) = if n + k = len then 0 else -1 := by
        have := hcop.le
        split_ifs <;> omega
      simp only [copyoutLoop, if_pos hpos, if_neg hva0, hwalk, StateExcept.ok_bind, if_neg hok]
      rw [hl hp, ← hn, ← hm₁, hrun, hif]
    · -- the checks refuse the page
      refine ⟨0, m, ?_, .none fun _ h => hwr (hsame.mp (by simpa using h))⟩
      simp only [copyoutLoop, if_pos hpos, if_neg hva0, hwalk, StateExcept.ok_bind,
        if_pos (hcheck.mpr hwr)]
      simp [hpos.ne]

/-- `copyout` over an unaliased range of a readable table: 0 exactly when
every byte of `[dstva, dstva + len)` is in a page it accepts, -1 otherwise; on
success the user sees `src` there.  Only the translations of the bytes before
the first refused page are written, and every translation stays. -/
theorem copyout_spec {m : Phys} {root : Nat} (hw : m.Walkable root) (dstva : Nat)
    {src : List UInt8} {len : Nat} (hsrc : len ≤ src.length) (hal : m.Unaliased root dstva len) :
    ∃ r m', copyout m root dstva src len = .ok (r, m') ∧
      (r = 0 ↔ ∀ i < len, m.Writable root (dstva + i)) ∧ (r = 0 ∨ r = -1) ∧
      (r = 0 → ∀ i < len, m'.ubyte root (dstva + i) = src.getD i 0) ∧
      (∀ va < MAXVA, m'.leaf root va = m.leaf root va) ∧
      ∃ k ≤ len, (∀ i < k, m.Writable root (dstva + i)) ∧
        (k < len → ¬ m.Writable root (dstva + k)) ∧
        ∀ x, (∀ i < k, x ≠ m.uaddr root (dstva + i)) → m'.byte x = m.byte x := by
  obtain ⟨k, m', hrun, hcop⟩ := copyoutLoop_spec len m dstva src len hw hal le_rfl hsrc
  have hleaf : ∀ va < MAXVA, m'.leaf root va = m.leaf root va :=
    fun va hva => (Phys.views_of_tables hcop.tables hva).2
  have hk := hcop.le
  refine ⟨_, m', hrun, ?_, ?_, fun hr i hi => ?_, hleaf, k, hk, hcop.writable, hcop.stop, hcop.frame⟩
  · by_cases hkl : k = len
    · subst hkl
      simpa using hcop.writable
    · rw [if_neg hkl]
      exact ⟨fun h => absurd h (by decide), fun h => absurd (h k (by omega)) (hcop.stop (by omega))⟩
  · split_ifs
    · exact .inl rfl
    · exact .inr rfl
  · have hkl : k = len := by
      by_contra hkl
      rw [if_neg hkl] at hr
      exact absurd hr (by decide)
    subst hkl
    have hva := (hcop.writable i hi).1
    rw [Phys.ubyte, Phys.uaddr, hleaf _ hva, ← Phys.uaddr]
    exact hcop.hit i hi

/-! ## `copyinstr` -/

/-- The inner loop of `copyinstr` over `n` bytes from `p`: the bytes up to the
first NUL and the NUL, if there is one among them, or else all `n`. -/
theorem copyinstrPage_spec (m : Phys) :
    ∀ n p, ∃ j ≤ n, (∀ i < j, m.byte (p + i) ≠ 0) ∧
      ((j < n ∧ m.byte (p + j) = 0 ∧
          copyinstrPage m n p = ((List.range (j + 1)).map fun i => m.byte (p + i), true)) ∨
        (j = n ∧ copyinstrPage m n p = ((List.range n).map fun i => m.byte (p + i), false)))
  | 0, p => ⟨0, le_rfl, by simp, .inr ⟨rfl, rfl⟩⟩
  | n + 1, p => by
    by_cases h0 : m.byte p = 0
    · refine ⟨0, by omega, by simp, .inl ⟨by omega, by simpa using h0, ?_⟩⟩
      simp [copyinstrPage, h0]
    · obtain ⟨j, hj, hne, hres⟩ := copyinstrPage_spec m n (p + 1)
      -- the bytes from `p + 1` are those from `p`, one on
      have hshift : ∀ l, (List.range (l + 1)).map (fun i => m.byte (p + i)) =
          m.byte p :: (List.range l).map fun i => m.byte (p + 1 + i) := by
        intro l
        rw [List.range_succ_eq_map, List.map_cons, List.map_map, Nat.add_zero]
        refine congrArg (_ :: ·) (List.map_congr_left fun i _ => ?_)
        rw [Function.comp_apply, Nat.succ_eq_add_one, Nat.add_comm i 1, Nat.add_assoc]
      refine ⟨j + 1, by omega, fun i hi => ?_, ?_⟩
      · cases i with
        | zero => simpa using h0
        | succ i =>
          rw [← Nat.add_comm 1 i, ← Nat.add_assoc]
          exact hne i (by omega)
      · rcases hres with ⟨hjn, hz, hrun⟩ | ⟨rfl, hrun⟩
        · refine .inl ⟨by omega, by rw [← Nat.add_comm 1 j, ← Nat.add_assoc]; exact hz, ?_⟩
          simp only [copyinstrPage, if_neg h0, hrun, hshift]
        · refine .inr ⟨rfl, ?_⟩
          simp only [copyinstrPage, if_neg h0, hrun, hshift]

/-- The byte at `i` of the round from `srcva`, read through `walkaddr`. -/
theorem Phys.byte_round (m : Phys) {root : Nat} (hw : m.Walkable root) {va i : Nat}
    (hr : m.Readable root (PGROUNDDOWN va)) (hi : i < PGSIZE - (va - PGROUNDDOWN va)) :
    m.byte (walkaddr m root (PGROUNDDOWN va) + (va - PGROUNDDOWN va) + i) = m.ubyte root (va + i) := by
  rw [walkaddr_of_readable hw hr, Phys.ubyte, m.uaddr_round root hi]

/-- The rounds of `copyinstr` from `srcva`: `k` readable bytes that are not
NUL, and then a readable NUL within `max` (the result is 0, and the NUL is
written too), or a refused page, or `max` bytes without a NUL (the result is
-1). -/
theorem copyinstrLoop_spec {m : Phys} {root : Nat} (hw : m.Walkable root) :
    ∀ fuel srcva max, max ≤ fuel →
      ∃ k ≤ max, (∀ i < k, m.Readable root (srcva + i) ∧ m.ubyte root (srcva + i) ≠ 0) ∧
        ((k < max ∧ m.Readable root (srcva + k) ∧ m.ubyte root (srcva + k) = 0 ∧
            copyinstrLoop m root fuel srcva max =
              (0, (List.range (k + 1)).map fun i => m.ubyte root (srcva + i))) ∨
          ((k < max → ¬ m.Readable root (srcva + k)) ∧
            copyinstrLoop m root fuel srcva max =
              (-1, (List.range k).map fun i => m.ubyte root (srcva + i))))
  | 0, srcva, max, hmax => by
    obtain rfl : max = 0 := by omega
    exact ⟨0, le_rfl, by simp, .inr ⟨by simp, rfl⟩⟩
  | fuel + 1, srcva, max, hmax => by
    rcases Nat.eq_zero_or_pos max with rfl | hpos
    · exact ⟨0, le_rfl, by simp, .inr ⟨by simp, by simp [copyinstrLoop]⟩⟩
    have hpage := PGROUNDDOWN_page srcva
    have hsame : m.Readable root srcva ↔ m.Readable root (PGROUNDDOWN srcva) :=
      m.readable_of_page_eq root hpage.symm
    by_cases hr : m.Readable root (PGROUNDDOWN srcva)
    · have hround := round_pos srcva
      have hend := round_end srcva
      have hwa : walkaddr m root (PGROUNDDOWN srcva) ≠ 0 := by
        rw [walkaddr_of_readable hw hr]
        exact hr.2.2.2
      set n := min (PGSIZE - (srcva - PGROUNDDOWN srcva)) max with hn
      have hin : ∀ i < n, m.Readable root (srcva + i) := fun i hi =>
        (m.readable_of_page_eq root (round_page (by omega))).mpr hr
      obtain ⟨j, hj, hne, hres⟩ :=
        copyinstrPage_spec m n (walkaddr m root (PGROUNDDOWN srcva) + (srcva - PGROUNDDOWN srcva))
      -- the bytes of the page as the user sees them
      have hbytes : ∀ l ≤ n, (List.range l).map (fun i =>
          m.byte (walkaddr m root (PGROUNDDOWN srcva) + (srcva - PGROUNDDOWN srcva) + i)) =
          (List.range l).map fun i => m.ubyte root (srcva + i) := by
        intro l hl
        refine List.map_congr_left fun i hi => ?_
        rw [List.mem_range] at hi
        exact m.byte_round hw hr (by omega)
      have hne' : ∀ i < j, m.Readable root (srcva + i) ∧ m.ubyte root (srcva + i) ≠ 0 :=
        fun i hi => ⟨hin i (by omega), by rw [← m.byte_round hw hr (by omega)]; exact hne i hi⟩
      rcases hres with ⟨hjn, hz, hrun⟩ | ⟨rfl, hrun⟩
      · -- a NUL on this page
        refine ⟨j, by omega, hne', .inl ⟨by omega, hin j hjn, ?_, ?_⟩⟩
        · rw [← m.byte_round hw hr (by omega)]
          exact hz
        · simp only [copyinstrLoop, if_pos hpos, if_neg hwa, ← hn, hrun, if_true]
          rw [hbytes (j + 1) hjn]
      · -- no NUL on this page: the rounds go on from the next page
        obtain ⟨k, hk, hread, hout⟩ :=
          copyinstrLoop_spec hw fuel (PGROUNDDOWN srcva + PGSIZE) (max - n) (by omega)
        have hnext : ∀ i, i < k ∨ (i = k ∧ k < max - n) →
            srcva + (n + i) = PGROUNDDOWN srcva + PGSIZE + i := by
          intro i hi
          omega
        refine ⟨n + k, by omega, fun i hi => ?_, ?_⟩
        · by_cases hij : i < n
          · exact hne' i hij
          · obtain ⟨l, rfl⟩ : ∃ l, i = n + l := ⟨i - n, by omega⟩
            rw [hnext l (.inl (by omega))]
            exact hread l (by omega)
        · have hlist : ∀ l, l ≤ k ∨ (l = k + 1 ∧ k < max - n) →
              (List.range (n + l)).map (fun i => m.ubyte root (srcva + i)) =
                (List.range n).map (fun i => m.ubyte root (srcva + i)) ++
                  (List.range l).map fun i => m.ubyte root (PGROUNDDOWN srcva + PGSIZE + i) := by
            intro l hl
            rw [List.range_add, List.map_append, List.map_map]
            refine congrArg (_ ++ ·) (List.map_congr_left fun i hi => ?_)
            rw [List.mem_range] at hi
            rw [Function.comp_apply, hnext i (by omega)]
          have hrun' : copyinstrLoop m root (fuel + 1) srcva max =
              ((copyinstrLoop m root fuel (PGROUNDDOWN srcva + PGSIZE) (max - n)).1,
                (List.range n).map (fun i => m.ubyte root (srcva + i)) ++
                  (copyinstrLoop m root fuel (PGROUNDDOWN srcva + PGSIZE) (max - n)).2) := by
            simp only [copyinstrLoop, if_pos hpos, if_neg hwa, ← hn, hrun, Bool.false_eq_true,
              if_false, hbytes n le_rfl]
          rcases hout with ⟨hlt, hrk, hzk, hrunk⟩ | ⟨hstop, hrunk⟩
          · refine .inl ⟨by omega, by rw [hnext k (.inr ⟨rfl, hlt⟩)]; exact hrk,
              by rw [hnext k (.inr ⟨rfl, hlt⟩)]; exact hzk, ?_⟩
            rw [hrun', hrunk, Nat.add_assoc, hlist (k + 1) (.inr ⟨rfl, hlt⟩)]
          · refine .inr ⟨fun hlt => ?_, ?_⟩
            · rw [hnext k (.inr ⟨rfl, by omega⟩)]
              exact hstop (by omega)
            · rw [hrun', hrunk, hlist k (.inl le_rfl)]
    · -- `walkaddr` refuses the first page
      refine ⟨0, by omega, by simp, .inr ⟨fun _ h => hr (hsame.mp (by simpa using h)), ?_⟩⟩
      simp [copyinstrLoop, hpos, walkaddr_of_not_readable hw hr]

/-! ## The specifications -/

/-- **`copyout` and `copyin` against their byte-wise specification.**  On a
table that can be read, `copyin(pt, dst, srcva, len)` returns 0 exactly when
every byte of `[srcva, srcva + len)` is in a page that `walkaddr` accepts, and
-1 otherwise; `dst` receives the bytes the user sees from `srcva` up to the
first refused page.  When the writable pages of `[dstva, dstva + len)` are
mapped to distinct pages that are not pages of the table, `copyout(pt, dstva,
src, len)` returns 0 exactly when every byte of the range is in a page with
`PTE_V`, `PTE_U` and `PTE_W`, and -1 otherwise; on success the user sees
`src` there; it writes only the translations of the bytes before the first
refused page, and every translation stays. -/
theorem user_copies_correct {m : Phys} {root : Nat} (hw : m.Walkable root) :
    (∀ dstva (src : List UInt8) len, len ≤ src.length → m.Unaliased root dstva len →
      ∃ r m', copyout m root dstva src len = .ok (r, m') ∧
        (r = 0 ↔ ∀ i < len, m.Writable root (dstva + i)) ∧ (r = 0 ∨ r = -1) ∧
        (r = 0 → ∀ i < len, m'.ubyte root (dstva + i) = src.getD i 0) ∧
        (∀ va < MAXVA, m'.leaf root va = m.leaf root va) ∧
        ∃ k ≤ len, (∀ i < k, m.Writable root (dstva + i)) ∧
          (k < len → ¬ m.Writable root (dstva + k)) ∧
          ∀ x, (∀ i < k, x ≠ m.uaddr root (dstva + i)) → m'.byte x = m.byte x) ∧
    ∀ srcva len,
      ((copyin m root srcva len).1 = 0 ↔ ∀ i < len, m.Readable root (srcva + i)) ∧
      ((copyin m root srcva len).1 = 0 ∨ (copyin m root srcva len).1 = -1) ∧
      ∃ k ≤ len, (∀ i < k, m.Readable root (srcva + i)) ∧
        (k < len → ¬ m.Readable root (srcva + k)) ∧
        (copyin m root srcva len).2 = (List.range k).map fun i => m.ubyte root (srcva + i) :=
  ⟨fun dstva _ _ hsrc hal => copyout_spec hw dstva hsrc hal, fun srcva len => copyin_spec hw srcva len⟩

/-- The process of `growOne` after it stores the bytes `"hi"` and a NUL at
address 0, whose frame is `8192`. -/
def hiOne : Phys := growOne.store 8192 0x6968

theorem hiOne_walkable : hiOne.Walkable 4096 := by
  have hp := growOne_procMem
  have hframe : growOne.frame 4096 0 = 8192 := by decide
  refine hp.wf.walkable.of_tables fun q hq => Phys.pages_store growOne 8192 0x6968 _ ?_
  -- the store hits the frame of page 0, which is no page of the table
  have hal := hp.wf.isTable_aligned hq
  have hne : q ≠ 8192 := by
    rintro rfl
    exact (hp.owned.page 0 le_rfl (by decide)).not_table (hframe ▸ hq)
  unfold PGSIZE at *
  omega

theorem user_copies_correct_hiOne :
    copyin hiOne 4096 0 3 = (0, [104, 105, 0]) ∧
    (copyout hiOne 4096 4 [1, 2] 2).toOption.map Prod.fst = some 0 ∧
    (∀ dstva (src : List UInt8) len, len ≤ src.length → hiOne.Unaliased 4096 dstva len →
      ∃ r m', copyout hiOne 4096 dstva src len = .ok (r, m') ∧
        (r = 0 ↔ ∀ i < len, hiOne.Writable 4096 (dstva + i)) ∧ (r = 0 ∨ r = -1) ∧
        (r = 0 → ∀ i < len, m'.ubyte 4096 (dstva + i) = src.getD i 0) ∧
        (∀ va < MAXVA, m'.leaf 4096 va = hiOne.leaf 4096 va) ∧
        ∃ k ≤ len, (∀ i < k, hiOne.Writable 4096 (dstva + i)) ∧
          (k < len → ¬ hiOne.Writable 4096 (dstva + k)) ∧
          ∀ x, (∀ i < k, x ≠ hiOne.uaddr 4096 (dstva + i)) → m'.byte x = hiOne.byte x) ∧
    ∀ srcva len,
      ((copyin hiOne 4096 srcva len).1 = 0 ↔ ∀ i < len, hiOne.Readable 4096 (srcva + i)) ∧
      ((copyin hiOne 4096 srcva len).1 = 0 ∨ (copyin hiOne 4096 srcva len).1 = -1) ∧
      ∃ k ≤ len, (∀ i < k, hiOne.Readable 4096 (srcva + i)) ∧
        (k < len → ¬ hiOne.Readable 4096 (srcva + k)) ∧
        (copyin hiOne 4096 srcva len).2 =
          (List.range k).map fun i => hiOne.ubyte 4096 (srcva + i) :=
  ⟨by decide, by decide, user_copies_correct hiOne_walkable⟩

/-- Zeroed memory with a table at `4096` whose level-1 and level-0 pages are
at `8192` and `12288`, and whose leaf for user page 0 is `pte`. -/
def userPage0 (pte : Nat) : Phys :=
  ((({ pages := fun _ _ => 0, freelist := [], kend := 4096 } : Phys).store 4096
    (PA2PTE 8192 ||| PTE_V)).store 8192 (PA2PTE 12288 ||| PTE_V)).store 12288 pte

/-- Two tables that the byte-wise specification gets wrong.  A user page
mapped to physical page 0 with `PTE_V | PTE_U | PTE_R` is refused by `copyin`,
since `walkaddr` answers 0 for it.  A user page mapped, writable, to its own
level-0 table page: `copyout` of eight bytes `0xff` to address 0 returns 0 but
overwrites the page's own PTE, after which the byte the user sees at 0 is 0. -/
theorem user_copies_page_zero_and_self_map :
    ((userPage0 19).leaf 4096 0 &&& PTE_V ≠ 0 ∧ (userPage0 19).leaf 4096 0 &&& PTE_U ≠ 0 ∧
      (copyin (userPage0 19) 4096 0 1).1 = -1) ∧
    (userPage0 3095).leaf 4096 0 = PA2PTE 12288 ||| PTE_U ||| PTE_W ||| PTE_R ||| PTE_V ∧
    (copyout (userPage0 3095) 4096 0 (List.replicate 8 255) 8).toOption.map
      (fun r => (r.1, r.2.ubyte 4096 0)) = some (0, 0) := by
  decide

/-- **`copyinstr` against its specification.**  On a table that can be read,
`copyinstr(pt, dst, srcva, max)` returns 0 exactly when some `k < max` has the
bytes `srcva .. srcva + k` in pages that `walkaddr` accepts, the byte at
`srcva + k` NUL and those before it not; `dst` is then those `k + 1` bytes.
Otherwise it returns -1, having written at most `max` bytes. -/
theorem copyinstr_correct {m : Phys} {root : Nat} (hw : m.Walkable root) (srcva max : Nat) :
    ((copyinstr m root srcva max).1 = 0 ↔
      ∃ k < max, (∀ i ≤ k, m.Readable root (srcva + i)) ∧ m.ubyte root (srcva + k) = 0 ∧
        ∀ i < k, m.ubyte root (srcva + i) ≠ 0) ∧
    ((copyinstr m root srcva max).1 = 0 →
      ∃ k < max, m.ubyte root (srcva + k) = 0 ∧ (∀ i < k, m.ubyte root (srcva + i) ≠ 0) ∧
        (copyinstr m root srcva max).2 = (List.range (k + 1)).map fun i => m.ubyte root (srcva + i)) ∧
    ((copyinstr m root srcva max).1 ≠ 0 →
      (copyinstr m root srcva max).1 = -1 ∧ (copyinstr m root srcva max).2.length ≤ max) := by
  obtain ⟨k, hk, hpre, hout⟩ := copyinstrLoop_spec hw max srcva max le_rfl
  rw [copyinstr]
  rcases hout with ⟨hlt, hrk, hzk, hrun⟩ | ⟨hstop, hrun⟩
  · -- a NUL at `srcva + k`
    have hread : ∀ i ≤ k, m.Readable root (srcva + i) := by
      intro i hi
      rcases Nat.lt_or_eq_of_le hi with hi | rfl
      · exact (hpre i hi).1
      · exact hrk
    rw [hrun]
    exact ⟨⟨fun _ => ⟨k, hlt, hread, hzk, fun i hi => (hpre i hi).2⟩, fun _ => rfl⟩,
      fun _ => ⟨k, hlt, hzk, fun i hi => (hpre i hi).2, rfl⟩, fun h => absurd rfl h⟩
  · -- no NUL: a refused page or `max` bytes; no string ends within `max`
    rw [hrun]
    refine ⟨⟨fun h => by simp at h, ?_⟩, fun h => by simp at h, fun _ => ⟨rfl, by simp [hk]⟩⟩
    rintro ⟨k', hk', hread', hz', -⟩
    exfalso
    by_cases hlt : k' < k
    · exact absurd hz' (hpre k' hlt).2
    · exact hstop (by omega) (hread' k (by omega))

theorem copyinstr_correct_hiOne :
    copyinstr hiOne 4096 0 4 = (0, [104, 105, 0]) ∧
    ((copyinstr hiOne 4096 0 4).1 = 0 ↔
      ∃ k < 4, (∀ i ≤ k, hiOne.Readable 4096 (0 + i)) ∧ hiOne.ubyte 4096 (0 + k) = 0 ∧
        ∀ i < k, hiOne.ubyte 4096 (0 + i) ≠ 0) ∧
    ((copyinstr hiOne 4096 0 4).1 = 0 →
      ∃ k < 4, hiOne.ubyte 4096 (0 + k) = 0 ∧ (∀ i < k, hiOne.ubyte 4096 (0 + i) ≠ 0) ∧
        (copyinstr hiOne 4096 0 4).2 =
          (List.range (k + 1)).map fun i => hiOne.ubyte 4096 (0 + i)) ∧
    ((copyinstr hiOne 4096 0 4).1 ≠ 0 →
      (copyinstr hiOne 4096 0 4).1 = -1 ∧ (copyinstr hiOne 4096 0 4).2.length ≤ 4) :=
  ⟨by decide, copyinstr_correct hiOne_walkable 0 4⟩

/-- A NUL in a user page mapped to physical page 0 with `PTE_V | PTE_U | PTE_R`:
the user sees the empty string at address 0, but `copyinstr` returns -1, since
`walkaddr` answers 0 for the page. -/
theorem copyinstr_page_zero :
    (userPage0 19).leaf 4096 0 &&& PTE_V ≠ 0 ∧ (userPage0 19).leaf 4096 0 &&& PTE_U ≠ 0 ∧
      (userPage0 19).ubyte 4096 0 = 0 ∧ (copyinstr (userPage0 19) 4096 0 1).1 = -1 := by
  decide

end Xv6.Vm
