import Xv6.Proofs.User.Umalloc
import Xv6.Lib.Cycle
import Xv6.Lib.Tiling

/-!
# The heap that `malloc` and `free` keep

K&R's allocator keeps its free blocks on a list in address order, threaded
round through the header `base` by `s.ptr`, and it hands out the rest.  From
the break `h0` at which the program starts, `HeapInv h0 m F live` says what
every call keeps: the free list `F` is a ring through `base` in increasing
order (`Cycle.Ring`), and the free blocks with the blocks handed out (`live`)
tile the heap `[h0, sz)` (`Tiling.Tiles`), so that no byte is in two blocks
and none is lost.

## `free`

`free(ap)` looks for the block `p` after which `bp = ap - 1` goes.  On an
ordered ring, the test of its loop holds at exactly one node, the last free
block below `bp` or `base` (`Cycle.Ring.btw_iff`), and the search reaches it
within one round (`freeSearch_eq`).  Then `bp` is joined to the block above
and to the block below when they touch it, which gives four cases, each a
pointer write of `Cycle` and a step of `Tiling`:

* neither touches: `bp` goes in after `p` (`free_insert`);
* the block above touches: `bp` takes its place and its length (`free_above`);
* the block below touches: `p` grows over `bp` (`free_below`);
* both touch: `p` grows over `bp` and the block above, which leaves the ring
  (`free_both`).

Each call writes headers only where the allocator owns them: no header it
changes overlaps a block handed out (`Spares`).
-/

namespace Xv6.Umalloc

open Cycle Tiling

namespace UMem

/-- The bytes of the block whose header is at `x`. -/
def len (m : UMem) (x : Nat) : Nat := HSIZE * m.size x

variable {m : UMem} {p q v f : Nat}

@[simp] theorem len_setPtr : (m.setPtr p v).len = m.len := by
  funext x
  simp [len]

theorem len_setSize_of_ne (h : q ≠ p) : (m.setSize p v).len q = m.len q := by
  simp [len, size_setSize_of_ne h]

/-- A size that fits a `uint` is stored as it is. -/
theorem size_setSize_self_of_lt (h : v < 2 ^ 32) : (m.setSize p v).size p = v := by
  rw [size_setSize_self, Nat.mod_eq_of_lt h]

theorem hdr_setPtr_of_ne (h : q ≠ p) : (m.setPtr p v).hdr q = m.hdr q := by
  simp [setPtr, Function.update_of_ne h]

theorem hdr_setSize_of_ne (h : q ≠ p) : (m.setSize p v).hdr q = m.hdr q := by
  simp [setSize, Function.update_of_ne h]

@[simp] theorem setPtr_limit : (m.setPtr p v).limit = m.limit := rfl
@[simp] theorem setSize_limit : (m.setSize p v).limit = m.limit := rfl

/-! `{ m with freep := f }` reads the headers of `m`. -/

variable {s b l : Nat}

@[simp] theorem ptr_mk :
    ({ hdr := m.hdr, freep := f, sz := s, base := b, limit := l } : UMem).ptr q = m.ptr q := rfl
@[simp] theorem size_mk :
    ({ hdr := m.hdr, freep := f, sz := s, base := b, limit := l } : UMem).size q = m.size q := rfl
@[simp] theorem len_mk :
    ({ hdr := m.hdr, freep := f, sz := s, base := b, limit := l } : UMem).len = m.len := rfl

end UMem

/-- The heap from the break `h0`: the free list `F` is a ring through `base`
in address order, and the free blocks and the blocks handed out (`live`) tile
`[h0, sz)`. -/
structure HeapInv (h0 : Nat) (m : UMem) (F live : List Nat) : Prop where
  /-- before the first `malloc` there are no blocks -/
  fresh : m.freep = 0 → F = [] ∧ live = []
  ring : m.freep ≠ 0 → Ring m.ptr m.base F
  freep : m.freep ≠ 0 → m.freep ∈ m.base :: F
  /-- `base` is the empty block at the head of the ring -/
  base_size : m.freep ≠ 0 → m.size m.base = 0
  sorted : F.Pairwise (· < ·)
  tiles : Tiles m.len h0 m.sz (F ++ live)
  base_pos : 0 < m.base
  base_below : m.base + HSIZE ≤ h0
  sz_le : m.sz ≤ m.limit
  /-- a block of the whole heap still has a `uint` size -/
  limit_lt : m.limit < HSIZE * 2 ^ 32

/-- Every header the call changed lies clear of the blocks at `L`. -/
def Spares (m m' : UMem) (L : List Nat) : Prop :=
  ∀ w, m'.hdr w ≠ m.hdr w → ∀ x ∈ L, w + HSIZE ≤ x ∨ x + m.len x ≤ w

/-- The header at `w` lies clear of the blocks at `L`. -/
def Clear (m : UMem) (L : List Nat) (w : Nat) : Prop :=
  ∀ x ∈ L, w + HSIZE ≤ x ∨ x + m.len x ≤ w

section Spares

variable {m m' : UMem} {L : List Nat} {w v : Nat}

theorem spares_refl : Spares m m L := fun _ h => absurd rfl h

theorem Spares.setPtr (h : Spares m m' L) (hw : Clear m L w) : Spares m (m'.setPtr w v) L := by
  intro u hu
  by_cases huw : u = w
  · exact huw ▸ hw
  · rw [UMem.hdr_setPtr_of_ne huw] at hu
    exact h u hu

theorem Spares.setSize (h : Spares m m' L) (hw : Clear m L w) : Spares m (m'.setSize w v) L := by
  intro u hu
  by_cases huw : u = w
  · exact huw ▸ hw
  · rw [UMem.hdr_setSize_of_ne huw] at hu
    exact h u hu

theorem Spares.setFreep (h : Spares m m' L) : Spares m { m' with freep := v } L := h

/-- Two calls in a row spare what each spares, when the first kept the blocks' sizes. -/
theorem Spares.trans {m₂ : UMem} (h₁ : Spares m m' L) (h₂ : Spares m' m₂ L)
    (hlen : ∀ x ∈ L, m'.len x = m.len x) : Spares m m₂ L := by
  intro u hu x hx
  by_cases h : m'.hdr u = m.hdr u
  · rw [← h] at hu
    rw [← hlen x hx]
    exact h₂ u hu x hx
  · exact h₁ u h x hx

end Spares

namespace HeapInv

variable {h0 : Nat} {m : UMem} {F live : List Nat}

/-- The blocks handed out may be listed in any order. -/
theorem perm (hinv : HeapInv h0 m F live) {live' : List Nat} (hp : live.Perm live') :
    HeapInv h0 m F live' :=
  { hinv with
    fresh := fun h => ⟨(hinv.fresh h).1, List.nil_perm.mp ((hinv.fresh h).2 ▸ hp)⟩
    tiles := hinv.tiles.perm (hp.append_left F) }

/-- A block lies above `base`. -/
theorem base_lt (hinv : HeapInv h0 m F live) {x : Nat} (hx : x ∈ F ++ live) : m.base < x := by
  have := hinv.tiles.lo_le x hx
  have := hinv.base_below
  unfold HSIZE at this
  omega

/-- A block has at least one header. -/
theorem hsize_le_len (hinv : HeapInv h0 m F live) {x : Nat} (hx : x ∈ F ++ live) :
    HSIZE ≤ m.len x := by
  have := hinv.tiles.pos x hx
  unfold UMem.len at this ⊢
  unfold HSIZE at this ⊢
  omega

/-- The free list with `base` in front is in increasing order. -/
theorem sorted_base (hinv : HeapInv h0 m F live) : (m.base :: F).Pairwise (· < ·) :=
  List.pairwise_cons.mpr ⟨fun _ hx => hinv.base_lt (List.mem_append_left _ hx), hinv.sorted⟩

/-- Two blocks next to each other have a `uint` size together. -/
theorem size_add_lt (hinv : HeapInv h0 m F live) {x y : Nat} (hx : x ∈ F ++ live)
    (hy : y ∈ F ++ live) (hxy : x + m.len x = y) : m.size x + m.size y < 2 ^ 32 := by
  have := hinv.tiles.lo_le x hx
  have := hinv.tiles.le_hi y hy
  have := hinv.sz_le
  have := hinv.limit_lt
  unfold UMem.len HSIZE at *
  omega

/-- A block clear of the others: one of the tiling, or `base` below them all. -/
theorem clear_of_mem (hinv : HeapInv h0 m F live) {L : List Nat} {w : Nat}
    (hw : w ∈ F ++ live) (hL : ∀ x ∈ L, x ∈ F ++ live ∧ x ≠ w) : Clear m L w := by
  intro x hx
  have hlen := hinv.hsize_le_len hw
  rcases hinv.tiles.apart_of_mem hw (hL x hx).1 (hL x hx).2.symm with h | h <;> omega

theorem clear_base (hinv : HeapInv h0 m F live) {L : List Nat}
    (hL : ∀ x ∈ L, x ∈ F ++ live) : Clear m L m.base := fun x hx =>
  .inl ((hinv.base_below).trans (hinv.tiles.lo_le x (hL x hx)))

/-- `base` and the free blocks are clear of the blocks handed out. -/
theorem clear_free (hinv : HeapInv h0 m F live) {w : Nat} (hw : w ∈ m.base :: F) :
    Clear m live w := by
  have hlive : ∀ x ∈ live, x ∈ F ++ live := fun x hx => List.mem_append_right F hx
  rcases List.mem_cons.mp hw with rfl | hwF
  · exact hinv.clear_base hlive
  · refine hinv.clear_of_mem (List.mem_append_left _ hwF) fun x hx => ⟨hlive x hx, fun h => ?_⟩
    have := hinv.tiles.nodup
    rw [List.nodup_append] at this
    exact this.2.2 w hwF x hx h.symm

/-- `base` and the free blocks are not at address 0. -/
theorem ne_zero_of_mem (hinv : HeapInv h0 m F live) {w : Nat} (hw : w ∈ m.base :: F) :
    w ≠ 0 := by
  rcases List.mem_cons.mp hw with rfl | hwF
  · exact hinv.base_pos.ne'
  · exact (hinv.base_pos.trans (hinv.base_lt (List.mem_append_left _ hwF))).ne'

/-- There are no more blocks than headers in the heap. -/
theorem length_le (hinv : HeapInv h0 m F live) : (F ++ live).length ≤ m.limit / HSIZE := by
  have := hinv.tiles.length_mul_le fun x hx => hinv.hsize_le_len hx
  have := hinv.sz_le
  rw [Nat.le_div_iff_mul_le (by decide)]
  omega

end HeapInv

/-- A call that spares the blocks at `L` leaves their headers as they were. -/
theorem Spares.len_eq {m m' : UMem} {L : List Nat} (h : Spares m m' L)
    (hpos : ∀ x ∈ L, 0 < m.len x) {x : Nat} (hx : x ∈ L) : m'.len x = m.len x := by
  have hhdr : m'.hdr x = m.hdr x := by
    by_contra hne
    have := hpos x hx
    rcases h x hne x hx with h | h
    · unfold HSIZE at h
      omega
    · omega
  unfold UMem.len UMem.size
  rw [hhdr]

/-! ## The search of `free` -/

/-- The loop of `free` is a search for K&R's test `Btw`. -/
theorem freeSearch_eq_seek {m : UMem} {bp : Nat} :
    ∀ {fuel p : Nat}, freeSearch m bp fuel p = seek m.ptr (fun x => Btw x (m.ptr x) bp) fuel p
  | 0, _ => rfl
  | fuel + 1, p => by
    rw [freeSearch, seek, freeSearch_eq_seek]
    by_cases h₁ : bp > p ∧ bp < m.ptr p
    · rw [if_pos h₁, if_pos (.inl h₁)]
    · by_cases h₂ : p ≥ m.ptr p ∧ (bp > p ∨ bp < m.ptr p)
      · rw [if_neg h₁, if_pos h₂, if_pos (.inr h₂)]
      · rw [if_neg h₁, if_neg h₂, if_neg]
        rintro (h | h)
        · exact h₁ h
        · exact h₂ h

section Free

variable {h0 : Nat} {m : UMem} {F E l₁ l₂ : List Nat} {bp p fuel : Nat}

/-- The search of `free` stops, within one round of the ring, at the last free
block below `bp`, or at `base`. -/
theorem freeSearch_eq (hinv : HeapInv h0 m F (bp :: E)) (hne : m.freep ≠ 0)
    (hF : F = l₁ ++ l₂) (h₁ : ∀ x ∈ l₁, x < bp) (h₂ : ∀ x ∈ l₂, bp < x)
    (hp : (m.base :: l₁).getLast? = some p) (hfuel : F.length + 1 ≤ fuel) :
    freeSearch m bp fuel m.freep = some p := by
  have hring := hinv.ring hne
  have hs := hinv.sorted_base
  have hb : m.base < bp := hinv.base_lt (by simp)
  obtain ⟨W, hW, hperm⟩ := hring.cycle_from (hinv.freep hne)
  have hpF : p ∈ m.base :: F := by
    have := List.mem_of_getLast? hp
    rw [hF]
    simp only [List.mem_cons, List.mem_append] at this ⊢
    tauto
  -- the test holds at a node of the walk exactly when it is `p`
  have htest : ∀ x ∈ m.freep :: W, Btw x (m.ptr x) bp ↔ x = p := by
    intro x hx
    rw [hF] at hring hs
    rw [hring.btw_iff hs h₁ h₂ hb (by rw [← hF]; exact hperm.mem_iff.mp hx), hp,
      Option.some.injEq, eq_comm]
  rw [freeSearch_eq_seek, seek_of_isChain _ hW.left_of_append]
  · exact find?_of_unique (hperm.mem_iff.mpr hpF) ((htest p (hperm.mem_iff.mpr hpF)).mpr rfl)
      fun x hx hPx => (htest x hx).mp hPx
  · exact ⟨p, hperm.mem_iff.mpr hpF, (htest p (hperm.mem_iff.mpr hpF)).mpr rfl⟩
  · rw [hperm.length_eq]
    simpa using hfuel

/-- Where `bp` goes: the free list splits at it into the blocks below and the
blocks above, and `p` is the last of `base` and the blocks below. -/
structure Slot (m : UMem) (F : List Nat) (bp p : Nat) (l₁ l₂ : List Nat) : Prop where
  split : F = l₁ ++ l₂
  below : ∀ x ∈ l₁, x < bp
  above : ∀ x ∈ l₂, bp < x
  last : (m.base :: l₁).getLast? = some p

/-- What `free` of `bp` leaves in `m'`: the heap with `bp` free, headers
written only clear of the other blocks handed out, and a free block at least
as large as `bp`. -/
structure Freed (h0 : Nat) (m m' : UMem) (bp : Nat) (E : List Nat) : Prop where
  inv : ∃ F', HeapInv h0 m' F' E ∧ ∃ x ∈ F', m.size bp ≤ m'.size x
  spares : Spares m m' E
  sz : m'.sz = m.sz
  base : m'.base = m.base
  limit : m'.limit = m.limit
  /-- `freep` is left at the block before `bp` -/
  freep : m'.freep ≠ 0

/-- The `uint` size of a run of blocks of the heap. -/
theorem HeapInv.size_lt_of_span {live : List Nat} (hinv : HeapInv h0 m F live) {x y s : Nat}
    (hx : x ∈ F ++ live) (hy : y ∈ F ++ live) (hspan : x + HSIZE * s = y + m.len y) :
    s < 2 ^ 32 := by
  have := hinv.tiles.lo_le x hx
  have := hinv.tiles.le_hi y hy
  have := hinv.sz_le
  have := hinv.limit_lt
  unfold HSIZE at *
  omega

section Cases

variable {l₀ : List Nat}

theorem Slot.p_mem (hs : Slot m F bp p l₁ l₂) : p ∈ m.base :: l₁ := List.mem_of_getLast? hs.last

theorem Slot.p_mem_F (hs : Slot m F bp p l₁ l₂) : p ∈ m.base :: F := by
  have := hs.p_mem
  rw [hs.split]
  simp only [List.mem_cons, List.mem_append] at this ⊢
  tauto

/-- `p` is `base`, or the last free block in `l₁`. -/
theorem Slot.eq_snoc (hs : Slot m F bp p l₁ l₂) (hpb : p ≠ m.base) : ∃ l₀, l₁ = l₀ ++ [p] := by
  cases l₁ with
  | nil => exact absurd (by simpa using hs.last.symm) hpb
  | cons y l₁ =>
    have hlast := hs.last
    rw [List.getLast?_cons_cons] at hlast
    exact ⟨_, (List.dropLast_append_getLast? p hlast).symm⟩

theorem HeapInv.base_lt_bp (hinv : HeapInv h0 m F (bp :: E)) : m.base < bp :=
  hinv.base_lt (by simp)

theorem HeapInv.bp_not_mem (hinv : HeapInv h0 m F (bp :: E)) : bp ∉ m.base :: F := by
  intro h
  rcases List.mem_cons.mp h with h | h
  · exact absurd h (hinv.base_lt_bp).ne'
  · have := hinv.tiles.nodup
    rw [List.nodup_append] at this
    exact this.2.2 bp h bp (by simp) rfl

/-- The block being freed is clear of the blocks still handed out. -/
theorem HeapInv.clear_bp (hinv : HeapInv h0 m F (bp :: E)) : Clear m E bp := by
  have hnd := hinv.tiles.nodup
  refine hinv.clear_of_mem (by simp) fun x hx => ⟨by simp [hx], fun h => ?_⟩
  rw [List.nodup_append, List.nodup_cons] at hnd
  exact hnd.2.1.1 (h ▸ hx)

variable (hinv : HeapInv h0 m F (bp :: E)) (hs : Slot m F bp p l₁ l₂)
include hinv hs

theorem Slot.p_lt : p < bp := by
  rcases List.mem_cons.mp hs.p_mem with rfl | h
  · exact hinv.base_lt_bp
  · exact hs.below p h

/-- The blocks before `p` and above `bp` are neither of them. -/
theorem Slot.ne_of_front {x : Nat} (hx : x ∈ (m.base :: l₁).dropLast) : x ≠ p ∧ x ≠ bp := by
  obtain ⟨A, hA⟩ : ∃ A, m.base :: l₁ = A ++ [p] :=
    ⟨_, (List.dropLast_append_getLast? p hs.last).symm⟩
  rw [hA, List.dropLast_concat] at hx
  have hnd : (m.base :: l₁).Nodup := by
    have := hinv.sorted_base.nodup
    rw [hs.split, ← List.cons_append] at this
    exact this.sublist (List.sublist_append_left _ _)
  rw [hA, List.nodup_append] at hnd
  refine ⟨fun h => hnd.2.2 x hx p (by simp) h, fun h => ?_⟩
  have hmem : x ∈ m.base :: l₁ := by rw [hA]; simp [hx]
  rcases List.mem_cons.mp hmem with rfl | hl
  · exact absurd h (hinv.base_lt_bp).ne
  · exact absurd h (hs.below x hl).ne

theorem Slot.ne_of_back {x : Nat} (hx : x ∈ l₂) : x ≠ p ∧ x ≠ bp :=
  ⟨(lt_trans (hs.p_lt hinv) (hs.above x hx)).ne', (hs.above x hx).ne'⟩

/-- `p` is `base` or a free block: clear of the blocks still handed out. -/
theorem Slot.clear_p : Clear m E p := fun x hx =>
  hinv.clear_free hs.p_mem_F x (List.mem_cons_of_mem _ hx)

/-- `p` is not at address 0. -/
theorem Slot.p_ne_zero : p ≠ 0 := hinv.ne_zero_of_mem hs.p_mem_F

variable (hne : m.freep ≠ 0)
include hne

/-- `p` links to the first block above `bp`, or back to `base`. -/
theorem Slot.head_above : (l₂ ++ [m.base]).head? = some (m.ptr p) := by
  obtain ⟨A, hA⟩ : ∃ A, m.base :: l₁ = A ++ [p] :=
    ⟨_, (List.dropLast_append_getLast? p hs.last).symm⟩
  have hL : m.base :: F = A ++ p :: l₂ := by
    rw [hs.split, ← List.cons_append, hA]
    simp
  rw [(hinv.ring hne).next_of_eq hL]
  cases l₂ <;> simp

/-- Neither block is joined to `bp`: it goes in after `p`. -/
theorem free_insert :
    Freed h0 m { (m.setPtr bp (m.ptr p)).setPtr p bp with freep := p } bp E := by
  have hpb := (hs.p_lt hinv).ne
  have hring := hinv.ring hne
  rw [hs.split] at hring
  refine ⟨⟨l₁ ++ bp :: l₂, ⟨fun h => ?_, fun _ => ?_, fun _ => ?_, fun _ => ?_, ?_, ?_,
    hinv.base_pos, hinv.base_below, hinv.sz_le, hinv.limit_lt⟩, bp, by simp, by simp⟩,
    (spares_refl.setPtr hinv.clear_bp).setPtr (hs.clear_p hinv), rfl, rfl, rfl, hs.p_ne_zero hinv⟩
  · exact absurd h (hs.p_ne_zero hinv)
  · refine hring.insert hs.last (hs.head_above hinv hne) (hinv.base_lt_bp).ne'
      (by simp) (by simp [UMem.ptr_setPtr_of_ne hpb.symm]) (fun x hx => ?_) fun x hx => ?_
    · obtain ⟨h₁, h₂⟩ := hs.ne_of_front hinv hx
      simp [UMem.ptr_setPtr_of_ne h₁, UMem.ptr_setPtr_of_ne h₂]
    · obtain ⟨h₁, h₂⟩ := hs.ne_of_back hinv hx
      simp [UMem.ptr_setPtr_of_ne h₁, UMem.ptr_setPtr_of_ne h₂]
  · have := hs.p_mem
    simp only [List.mem_cons, List.mem_append] at this ⊢
    tauto
  · simpa using hinv.base_size hne
  · have := hinv.sorted
    rw [hs.split] at this
    exact pairwise_insert this hs.below hs.above
  · simp only [UMem.len_mk, UMem.len_setPtr]
    refine hinv.tiles.perm ?_
    rw [hs.split, List.perm_iff_count]
    intro a
    simp only [List.count_append, List.count_cons]
    omega

/-- The block after `p`, when it is a free block, links to the one after it. -/
theorem Slot.head_after {l₂' : List Nat} (hl₂ : l₂ = m.ptr p :: l₂') :
    (l₂' ++ [m.base]).head? = some (m.ptr (m.ptr p)) := by
  obtain ⟨A, hA⟩ : ∃ A, m.base :: l₁ = A ++ [p] :=
    ⟨_, (List.dropLast_append_getLast? p hs.last).symm⟩
  have hL : m.base :: F = (A ++ [p]) ++ m.ptr p :: l₂' := by
    rw [hs.split, ← List.cons_append, hA, hl₂]
  rw [(hinv.ring hne).next_of_eq hL]
  cases l₂' <;> simp

/-- A block that ends where the next free block starts is not next to `base`. -/
theorem Slot.eq_cons (hA : bp + HSIZE * m.size bp = m.ptr p) : ∃ l₂', l₂ = m.ptr p :: l₂' := by
  have hhead := hs.head_above hinv hne
  cases l₂ with
  | nil =>
    simp only [List.nil_append, List.head?_cons, Option.some.injEq] at hhead
    have := hinv.base_lt_bp
    omega
  | cons y l₂' =>
    simp only [List.cons_append, List.head?_cons, Option.some.injEq] at hhead
    exact ⟨l₂', by rw [hhead]⟩

/-- The block above starts where `bp` ends: `bp` takes its place and its length. -/
theorem free_above (hA : bp + HSIZE * m.size bp = m.ptr p) :
    Freed h0 m (let m' := (m.setSize bp (m.size bp + m.size (m.ptr p))).setPtr bp (m.ptr (m.ptr p))
      { m'.setPtr p bp with freep := p }) bp E := by
  obtain ⟨l₂', hl₂⟩ := hs.eq_cons hinv hne hA
  have hpb := (hs.p_lt hinv).ne
  have hqF : m.ptr p ∈ F := by simp [hs.split, hl₂]
  have hsize := hinv.size_add_lt (x := bp) (by simp) (by simp [hqF]) hA
  have hperm : (F ++ bp :: E).Perm (bp :: m.ptr p :: (l₁ ++ l₂' ++ E)) := by
    rw [hs.split, hl₂, List.perm_iff_count]
    intro a
    simp only [List.count_append, List.count_cons]
    omega
  have hnd := (hinv.tiles.perm hperm).nodup
  rw [List.nodup_cons, List.mem_cons, not_or] at hnd
  have hring := hinv.ring hne
  rw [hs.split, hl₂] at hring
  refine ⟨⟨l₁ ++ bp :: l₂', ⟨fun h => absurd h (hs.p_ne_zero hinv), fun _ => ?_, fun _ => ?_,
    fun _ => ?_, ?_, ?_, hinv.base_pos, hinv.base_below, hinv.sz_le, hinv.limit_lt⟩,
    bp, by simp, ?_⟩,
    ((spares_refl.setSize hinv.clear_bp).setPtr hinv.clear_bp).setPtr (hs.clear_p hinv),
    rfl, rfl, rfl, hs.p_ne_zero hinv⟩
  · -- `bp` takes the place of the block above in the ring
    refine hring.replace hs.last (hs.head_after hinv hne hl₂) (hinv.base_lt_bp).ne'
      (by simp) (by simp [UMem.ptr_setPtr_of_ne hpb.symm]) (fun x hx => ?_) fun x hx => ?_
    · obtain ⟨h₁, h₂⟩ := hs.ne_of_front hinv hx
      simp [UMem.ptr_setPtr_of_ne h₁, UMem.ptr_setPtr_of_ne h₂]
    · obtain ⟨h₁, h₂⟩ := hs.ne_of_back hinv (x := x) (by simp [hl₂, hx])
      simp [UMem.ptr_setPtr_of_ne h₁, UMem.ptr_setPtr_of_ne h₂]
  · have := hs.p_mem
    simp only [List.mem_cons, List.mem_append] at this ⊢
    tauto
  · simp [UMem.size_setSize_of_ne hinv.base_lt_bp.ne, hinv.base_size hne]
  · have := hinv.sorted
    rw [hs.split, hl₂] at this
    exact pairwise_insert (this.sublist ((List.sublist_cons_self _ _).append_left l₁)) hs.below
      fun x hx => hs.above x (by simp [hl₂, hx])
  · -- the tiling merges `bp` with the block above
    have hlen : ((m.setSize bp (m.size bp + m.size (m.ptr p))).setPtr bp
        (m.ptr (m.ptr p))).len bp = m.len bp + m.len (m.ptr p) := by
      rw [UMem.len_setPtr, UMem.len, UMem.size_setSize_self_of_lt hsize, Nat.mul_add]
      rfl
    have htiles := (hinv.tiles.perm hperm).merge hA hlen fun z hz => by
      rw [UMem.len_setPtr]
      exact UMem.len_setSize_of_ne fun h : z = bp => hnd.1.2 (h ▸ hz)
    rw [UMem.len_setPtr] at htiles
    simp only [UMem.len_mk, UMem.len_setPtr]
    refine htiles.perm ?_
    rw [List.perm_iff_count]
    intro a
    simp only [List.count_append, List.count_cons]
    omega
  · simp [UMem.size_setSize_self_of_lt hsize]

/-- The block below ends where `bp` starts: it grows over `bp`. -/
theorem free_below (hB : p + HSIZE * m.size p = bp) :
    Freed h0 m (let m' := m.setPtr bp (m.ptr p)
      { (m'.setSize p (m'.size p + m'.size bp)).setPtr p (m'.ptr bp) with freep := p }) bp E := by
  have hpb := (hs.p_lt hinv).ne
  have hpbase : p ≠ m.base := by
    rintro rfl
    rw [hinv.base_size hne] at hB
    exact absurd hB (hinv.base_lt_bp).ne
  obtain ⟨l₀, hl₁⟩ := hs.eq_snoc hpbase
  have hpF : p ∈ F := by simp [hs.split, hl₁]
  have hsize := hinv.size_add_lt (x := p) (by simp [hpF]) (by simp) hB
  have hperm : (F ++ bp :: E).Perm (p :: bp :: (l₀ ++ l₂ ++ E)) := by
    rw [hs.split, hl₁, List.perm_iff_count]
    intro a
    simp only [List.count_append, List.count_cons, List.count_nil]
    omega
  have hnd := (hinv.tiles.perm hperm).nodup
  rw [List.nodup_cons, List.mem_cons, not_or] at hnd
  refine ⟨⟨F, ⟨fun h => absurd h (hs.p_ne_zero hinv), fun _ => ?_, fun _ => hs.p_mem_F,
    fun _ => ?_, hinv.sorted, ?_, hinv.base_pos, hinv.base_below, hinv.sz_le, hinv.limit_lt⟩,
    p, hpF, ?_⟩,
    ((spares_refl.setPtr hinv.clear_bp).setSize (hs.clear_p hinv)).setPtr (hs.clear_p hinv),
    rfl, rfl, rfl, hs.p_ne_zero hinv⟩
  · -- `p` still links to the block after it
    refine (hinv.ring hne).frame fun x hx => ?_
    by_cases hxp : x = p
    · subst hxp
      simp
    · have hxb : x ≠ bp := fun h => hinv.bp_not_mem (h ▸ hx)
      simp [UMem.ptr_setPtr_of_ne hxp, UMem.ptr_setPtr_of_ne hxb]
  · simp [UMem.size_setSize_of_ne hpbase.symm, hinv.base_size hne]
  · -- the tiling merges `bp` into the block below
    have hlen : ((m.setPtr bp (m.ptr p)).setSize p (m.size p + m.size bp)).len p =
        m.len p + m.len bp := by
      rw [UMem.len, UMem.size_setSize_self_of_lt hsize, Nat.mul_add]
      rfl
    have htiles := (hinv.tiles.perm hperm).merge hB hlen fun z hz => by
      rw [UMem.len_setSize_of_ne fun h : z = p => hnd.1.2 (h ▸ hz),
        UMem.len_setPtr]
    simp only [UMem.len_mk, UMem.size_setPtr, UMem.ptr_setPtr_self, UMem.len_setPtr]
    refine htiles.perm ?_
    rw [hs.split, hl₁, List.perm_iff_count]
    intro a
    simp only [List.count_append, List.count_cons, List.count_nil]
    omega
  · simp [UMem.size_setSize_self_of_lt hsize]

/-- Both blocks touch `bp`: the block below grows over `bp` and the block
above, which leaves the ring.  `mA` is the memory after the first join. -/
theorem free_both {q : Nat} (hq : m.ptr p = q) (hA : bp + HSIZE * m.size bp = q)
    (hB : p + HSIZE * m.size p = bp) {mA : UMem}
    (hmA : mA = (m.setSize bp (m.size bp + m.size q)).setPtr bp (m.ptr q)) :
    Freed h0 m { (mA.setSize p (mA.size p + mA.size bp)).setPtr p (mA.ptr bp) with freep := p }
      bp E := by
  subst hq
  obtain ⟨l₂', hl₂⟩ := hs.eq_cons hinv hne hA
  have hpb := (hs.p_lt hinv).ne
  have hpbase : p ≠ m.base := by
    rintro rfl
    rw [hinv.base_size hne] at hB
    exact absurd hB (hinv.base_lt_bp).ne
  obtain ⟨l₀, hl₁⟩ := hs.eq_snoc hpbase
  have hpF : p ∈ F := by simp [hs.split, hl₁]
  have hqF : m.ptr p ∈ F := by simp [hs.split, hl₂]
  have hsize := hinv.size_add_lt (x := bp) (by simp) (by simp [hqF]) hA
  -- `mA` stays a name for the memory after the first join
  subst hmA
  set mA := (m.setSize bp (m.size bp + m.size (m.ptr p))).setPtr bp (m.ptr (m.ptr p)) with hmA
  have hsize₃ := hinv.size_lt_of_span (x := p) (y := m.ptr p)
    (s := m.size p + m.size bp + m.size (m.ptr p)) (by simp [hpF]) (by simp [hqF])
    (by unfold UMem.len HSIZE at *; omega)
  have hperm : (F ++ bp :: E).Perm (bp :: m.ptr p :: p :: (l₀ ++ l₂' ++ E)) := by
    rw [hs.split, hl₁, hl₂, List.perm_iff_count]
    intro a
    simp only [List.count_append, List.count_cons, List.count_nil]
    omega
  have hnd := (hinv.tiles.perm hperm).nodup
  simp only [List.nodup_cons, List.mem_cons, not_or] at hnd
  have hAp : mA.size p = m.size p := by simp [hmA, UMem.size_setSize_of_ne hpb]
  have hAbp : mA.size bp = m.size bp + m.size (m.ptr p) := by
    rw [hmA, UMem.size_setPtr, UMem.size_setSize_self_of_lt hsize]
  have hAptr : ∀ x, x ≠ bp → mA.ptr x = m.ptr x := fun x hx => by
    rw [hmA, UMem.ptr_setPtr_of_ne hx, UMem.ptr_setSize]
  have hAbptr : mA.ptr bp = m.ptr (m.ptr p) := by rw [hmA, UMem.ptr_setPtr_self]
  have hAbase : mA.size m.base = 0 := by
    simp [hmA, UMem.size_setSize_of_ne hinv.base_lt_bp.ne, hinv.base_size hne]
  have hAlen : ∀ z, z ≠ bp → mA.len z = m.len z := fun z hz => by
    rw [hmA, UMem.len_setPtr]
    exact UMem.len_setSize_of_ne hz
  have hAspares : Spares m mA E := by
    rw [hmA]
    exact (spares_refl.setSize hinv.clear_bp).setPtr hinv.clear_bp
  have hAf : mA.base = m.base ∧ mA.sz = m.sz ∧ mA.limit = m.limit := ⟨rfl, rfl, rfl⟩
  have hsum : mA.size p + mA.size bp < 2 ^ 32 := by
    rw [hAp, hAbp]
    omega
  have hring := hinv.ring hne
  rw [hs.split, hl₂] at hring
  refine ⟨⟨l₁ ++ l₂', ⟨fun h => absurd h (hs.p_ne_zero hinv), fun _ => ?_, fun _ => ?_,
    fun _ => ?_, ?_, ?_, hinv.base_pos, hinv.base_below, hinv.sz_le, hinv.limit_lt⟩,
    p, by simp [hl₁], ?_⟩, ?_, rfl, rfl, rfl, hs.p_ne_zero hinv⟩
  · -- the block above leaves the ring: `p` links past it
    refine hring.unlink hs.last (hs.head_after hinv hne hl₂) (by simp [hAbptr])
      (fun x hx => ?_) fun x hx => ?_
    · obtain ⟨h₁, h₂⟩ := hs.ne_of_front hinv hx
      simp only [UMem.ptr_mk, UMem.ptr_setPtr_of_ne h₁, UMem.ptr_setSize, hAptr x h₂]
    · obtain ⟨h₁, h₂⟩ := hs.ne_of_back hinv (x := x) (by simp [hl₂, hx])
      simp only [UMem.ptr_mk, UMem.ptr_setPtr_of_ne h₁, UMem.ptr_setSize, hAptr x h₂]
  · simp [hl₁]
  · simp [hAf.1, UMem.size_setSize_of_ne hpbase.symm, hAbase]
  · have := hinv.sorted
    rw [hs.split, hl₂] at this
    exact this.sublist ((List.sublist_cons_self _ _).append_left l₁)
  · -- two merges: `bp` with the block above, then the block below with `bp`
    have hlen₁ : mA.len bp = m.len bp + m.len (m.ptr p) := by
      rw [UMem.len, hAbp, Nat.mul_add]
      rfl
    have h₁ := (hinv.tiles.perm hperm).merge hA hlen₁ fun z hz => by
      refine hAlen z ?_
      rcases List.mem_cons.mp hz with rfl | hz
      · exact hpb
      · exact fun h => hnd.1.2.2 (h ▸ hz)
    have hlen₂ : (mA.setSize p (mA.size p + mA.size bp)).len p = mA.len p + mA.len bp := by
      rw [UMem.len, UMem.size_setSize_self_of_lt hsum, Nat.mul_add]
      rfl
    have h₂ := (h₁.perm (List.Perm.swap _ _ _)).merge (hAlen p hpb ▸ hB) hlen₂ fun z hz =>
      UMem.len_setSize_of_ne fun h : z = p => hnd.2.2.1 (h ▸ hz)
    simp only [UMem.len_mk, UMem.len_setPtr, UMem.setPtr_sz, UMem.setSize_sz, hAf.2.1,
      UMem.setPtr_base, UMem.setSize_base, hAf.1]
    refine h₂.perm ?_
    rw [hl₁, List.perm_iff_count]
    intro a
    simp only [List.count_append, List.count_cons, List.count_nil]
    omega
  · simp only [UMem.size_mk, UMem.size_setPtr]
    rw [UMem.size_setSize_self_of_lt hsum, hAp, hAbp]
    omega
  · exact ((hAspares.setSize (hs.clear_p hinv)).setPtr (hs.clear_p hinv)).setFreep

end Cases

/-- `free` of a block handed out finds, within one round of the free list,
where the block goes, frees it, keeps the heap, and writes no header over the
other blocks handed out. -/
theorem free_frees (hinv : HeapInv h0 m F (bp :: E)) (hfuel : F.length + 1 ≤ fuel) :
    ∃ m', free fuel m (bp + HSIZE) = some m' ∧ Freed h0 m m' bp E := by
  have hne : m.freep ≠ 0 := fun h => List.cons_ne_nil bp E (hinv.fresh h).2
  obtain ⟨l₁, l₂, hsplit, h₁, h₂⟩ :=
    exists_split hinv.sorted fun h => hinv.bp_not_mem (List.mem_cons_of_mem _ h)
  obtain ⟨p, hp⟩ : ∃ p, (m.base :: l₁).getLast? = some p :=
    ⟨_, List.getLast?_eq_some_getLast (List.cons_ne_nil _ _)⟩
  have hs : Slot m F bp p l₁ l₂ := ⟨hsplit, h₁, h₂, hp⟩
  have hpb := (hs.p_lt hinv).ne
  simp only [free, Nat.add_sub_cancel, freeSearch_eq hinv hne hsplit h₁ h₂ hp hfuel,
    Option.bind_eq_bind, Option.bind_some]
  refine ⟨_, rfl, ?_⟩
  -- the source reads `s.ptr` after writing `s.size`, which leaves it as it was
  simp only [UMem.ptr_setSize]
  -- the four ways `bp` meets its neighbours
  split_ifs with hA hB hB
  · exact free_both hinv hs hne rfl hA (by simpa [UMem.size_setSize_of_ne hpb] using hB) rfl
  · exact free_above hinv hs hne hA
  · exact free_below hinv hs hne (by simpa using hB)
  · exact free_insert hinv hs hne

end Free

end Xv6.Umalloc
