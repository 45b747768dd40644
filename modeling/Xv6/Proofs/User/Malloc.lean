import Xv6.Proofs.User.Heap

/-!
# `malloc` keeps the heap

`malloc(nbytes)` asks for `nunits` headers and walks the free ring from
`freep->s.ptr`, taking the first block that fits:

* a block of exactly `nunits` leaves the ring, its predecessor linking past it
  (`alloc_exact`);
* a larger block gives up its tail end, which gets a header of its own
  (`alloc_split`).

Blocks that do not fit are passed over (`mallocLoop_skip`), and a ring with a
block that fits is served within one round (`mallocLoop_fit`).  When the walk
comes back to `freep` with no fit, `morecore` moves the break up by at least
`nunits` headers and frees the new block (`morecore_grows`); the free list
then holds a block that fits, and the walk goes on round it once more
(`mallocLoop_ring`).  `malloc_mallocs` puts these together, with the first
call setting up `base`.

## Strategy

A call is given a `fuel` that bounds both of its loops, and the proofs show
that a fixed amount suffices: the free list never has more blocks than the
heap has headers (`HeapInv.length_le`), so one round of it is shorter than
`limit / 16`, and `malloc` needs at most two rounds and the search of one
`free`.
-/

namespace Xv6.Umalloc

open Cycle Tiling LittleEndian

/-- What a `malloc` of `nunits` headers that returned `r` leaves in `m'`: the
heap with one more block handed out, of `nunits` headers, at `r - 1`, or the
same blocks when `r = 0`; no header written over the blocks already handed
out. -/
structure Malloced (h0 : Nat) (m m' : UMem) (live : List Nat) (nunits r : Nat) : Prop where
  inv : ∃ F', HeapInv h0 m' F' (if r = 0 then live else (r - HSIZE) :: live)
  size : r ≠ 0 → m'.size (r - HSIZE) = nunits
  spares : Spares m m' live
  limit : m'.limit = m.limit

/-- Why a `malloc` of `nunits` headers returns 0: no block of the free list `F`
has `nunits` headers, and the break cannot grow by the `max nunits 4096`
headers `morecore` asks for. -/
def NoRoom (m : UMem) (F : List Nat) (nunits : Nat) : Prop :=
  (∀ x ∈ F, m.size x < nunits) ∧ m.limit < m.sz + max nunits 4096 * HSIZE

/-- A list that ends in `s`, cut at one of its members: the part before it
lies in the rest. -/
theorem mem_of_append_cons_eq {as bs W : List Nat} {t s x : Nat} (h : as ++ t :: bs = W ++ [s])
    (hx : x ∈ as) : x ∈ W := by
  rcases List.eq_nil_or_concat bs with rfl | ⟨bs, y, rfl⟩
  · rw [(List.append_inj' h rfl).1] at hx
    exact hx
  · have : (as ++ t :: bs) ++ [y] = W ++ [s] := by simpa using h
    rw [← (List.append_inj' this rfl).1]
    exact List.mem_append_left _ hx

/-! ## Taking a block -/

section Alloc

variable {h0 : Nat} {m : UMem} {F live : List Nat} {prevp t nunits : Nat}
variable (hinv : HeapInv h0 m F live) (hne : m.freep ≠ 0) (ht : t ∈ F)
  (hprev : prevp ∈ m.base :: F) (hpt : m.ptr prevp = t)
include hinv hne ht hprev hpt

/-- A block of exactly `nunits` leaves the ring: the block before it links
past it. -/
theorem alloc_exact (hsize : m.size t = nunits) :
    Malloced h0 m { m.setPtr prevp (m.ptr t) with freep := prevp } live nunits (t + HSIZE) := by
  obtain ⟨l₁, l₂, hF⟩ := List.append_of_mem ht
  have hring := hinv.ring hne
  have hnd := hinv.sorted_base.nodup
  rw [hF] at hring hnd
  have hp := hring.getLast_of_next hnd (hF ▸ hprev) hpt
  have hnd' : (m.base :: l₁ ++ t :: l₂).Nodup := by simpa using hnd
  rw [List.nodup_append] at hnd'
  -- the blocks before `prevp` and after `t` are neither of them
  have hfront : ∀ x ∈ (m.base :: l₁).dropLast, x ≠ prevp := fun x hx h => by
    have := List.dropLast_append_getLast? prevp hp
    rw [← this, List.nodup_append] at hnd'
    exact hnd'.1.2.2 x hx prevp (by simp) h
  have hback : ∀ x ∈ l₂, x ≠ prevp := fun x hx h =>
    hnd'.2.2 prevp (List.mem_of_getLast? hp) x (List.mem_cons_of_mem _ hx) h.symm
  have hq : (l₂ ++ [m.base]).head? = some (m.ptr t) := by
    rw [hring.next_of_eq (A := m.base :: l₁) (B := l₂) (by simp)]
    cases l₂ <;> simp
  have hr : t + HSIZE ≠ 0 := by unfold HSIZE; omega
  refine ⟨⟨l₁ ++ l₂, ?_⟩, fun _ => by simpa using hsize, ?_, rfl⟩
  · rw [if_neg hr, Nat.add_sub_cancel]
    refine ⟨fun h => absurd h (hinv.ne_zero_of_mem hprev), fun _ => ?_,
      fun _ => ?_, fun _ => by simpa using hinv.base_size hne, ?_, ?_, hinv.base_pos,
      hinv.base_below, hinv.sz_le, hinv.limit_lt⟩
    · refine hring.unlink hp hq (by simp) (fun x hx => ?_) fun x hx => ?_
      · simp [UMem.ptr_setPtr_of_ne (hfront x hx)]
      · simp [UMem.ptr_setPtr_of_ne (hback x hx)]
    · have := List.mem_of_getLast? hp
      simp only [List.mem_cons, List.mem_append] at this ⊢
      tauto
    · have := hinv.sorted
      rw [hF] at this
      exact this.sublist ((List.sublist_cons_self _ _).append_left l₁)
    · simp only [UMem.len_mk, UMem.len_setPtr]
      refine hinv.tiles.perm ?_
      rw [hF, List.perm_iff_count]
      intro a
      simp only [List.count_append, List.count_cons]
      omega
  · exact (spares_refl.setPtr (hinv.clear_free hprev)).setFreep

omit hpt in
/-- A larger block gives up its tail end of `nunits` headers, at `t'`. -/
theorem alloc_split (hlt : nunits < m.size t) (hpos : 0 < nunits) {t' : Nat}
    (ht' : t' = t + HSIZE * (m.size t - nunits)) :
    Malloced h0 m { (m.setSize t (m.size t - nunits)).setSize t' nunits with freep := prevp }
      live nunits (t' + HSIZE) := by
  have htF : t ∈ F ++ live := List.mem_append_left _ ht
  have hsz := hinv.size_lt_of_span (s := m.size t) htF htF rfl
  have hnu : nunits < 2 ^ 32 := by omega
  have hlen := hinv.hsize_le_len htF
  have htt' : t < t' := by rw [ht']; unfold HSIZE; omega
  have hinside : t' < t + m.len t := by rw [ht']; unfold UMem.len HSIZE; omega
  have hperm : (F ++ live).Perm (t :: (F.erase t ++ live)) :=
    (List.perm_cons_erase ht).append_right live
  have hnd := (hinv.tiles.perm hperm).nodup
  rw [List.nodup_cons] at hnd
  have hbase : m.base ≠ t ∧ m.base ≠ t' := by
    have := hinv.base_lt htF
    constructor <;> omega
  refine ⟨⟨F, ?_⟩, fun _ => ?_, ?_, rfl⟩
  · rw [if_neg (by unfold HSIZE; omega), Nat.add_sub_cancel]
    refine ⟨fun h => absurd h (hinv.ne_zero_of_mem hprev),
      fun _ => (hinv.ring hne).frame fun x _ => by simp, fun _ => hprev, fun _ => ?_,
      hinv.sorted, ?_, hinv.base_pos, hinv.base_below, hinv.sz_le, hinv.limit_lt⟩
    · simp [UMem.size_setSize_of_ne hbase.1, UMem.size_setSize_of_ne hbase.2,
        hinv.base_size hne]
    · -- the tiling cuts the block at `t` in two
      have htiles := (hinv.tiles.perm hperm).split (a := HSIZE * (m.size t - nunits))
        (by unfold HSIZE; omega) (by unfold UMem.len HSIZE; omega)
        (show ((m.setSize t (m.size t - nunits)).setSize t' nunits).len t = _ by
          rw [UMem.len_setSize_of_ne htt'.ne, UMem.len, UMem.size_setSize_self_of_lt (by omega)])
        (by
          rw [← ht', UMem.len, UMem.size_setSize_self_of_lt hnu, UMem.len]
          unfold HSIZE
          omega)
        fun z hz => by
          have hzt : z ≠ t := fun h => hnd.1 (h ▸ hz)
          have hzt' : z ≠ t' := fun h =>
            (hinv.tiles.perm hperm).not_mem_of_inside List.mem_cons_self htt' hinside
              (h ▸ List.mem_cons_of_mem _ hz)
          rw [UMem.len_setSize_of_ne hzt', UMem.len_setSize_of_ne hzt]
      rw [← ht'] at htiles
      simp only [UMem.len_mk]
      exact htiles.perm (List.perm_middle.trans ((hperm.cons t').trans (List.Perm.swap _ _ _))).symm
  · rw [Nat.add_sub_cancel]
    simp [UMem.size_setSize_self_of_lt hnu]
  · -- both headers lie in the free block at `t`, clear of the blocks handed out
    have hclear : Clear m live t' := fun x hx => by
      have hxt : t ≠ x := fun h => hnd.1 (by simp [h, hx])
      rcases hinv.tiles.apart_of_mem htF (List.mem_append_right _ hx) hxt with h | h
      · left
        rw [ht']
        unfold UMem.len HSIZE at *
        omega
      · right
        omega
    exact ((spares_refl.setSize (hinv.clear_free (List.mem_cons_of_mem _ ht))).setSize
      hclear).setFreep

end Alloc

/-! ## The walk of `malloc` -/

/-- Blocks that do not fit, none of them `freep`, are passed over one call of
the loop each. -/
theorem mallocLoop_skip {ffuel nunits fuel : Nat} {m : UMem} :
    ∀ {prevp t : Nat} {W : List Nat}, List.IsChain (fun a b => m.ptr a = b) (prevp :: W ++ [t]) →
      (∀ x ∈ W, m.size x < nunits ∧ x ≠ m.freep) →
      mallocLoop ffuel nunits (fuel + W.length) prevp (m.ptr prevp) m =
        mallocLoop ffuel nunits fuel ((prevp :: W).getLast (List.cons_ne_nil _ _)) t m
  | prevp, t, [], hc, _ => by
    rw [List.cons_append, List.nil_append, List.isChain_pair] at hc
    rw [hc]
    rfl
  | prevp, t, x :: W, hc, hskip => by
    rw [List.cons_append, List.cons_append, List.isChain_cons_cons] at hc
    obtain ⟨hsmall, hne⟩ := hskip x List.mem_cons_self
    rw [hc.1, List.length_cons, ← Nat.add_assoc, mallocLoop, if_neg (by omega), if_neg hne,
      mallocLoop_skip hc.2 fun y hy => hskip y (List.mem_cons_of_mem _ hy), List.getLast_cons_cons]


section Walk

variable {h0 : Nat} {m : UMem} {F live : List Nat} {nunits ffuel fuel : Nat}

/-- When a block of the ring fits, the walk from `freep` takes the first one
that does, within one round. -/
theorem mallocLoop_fit (hinv : HeapInv h0 m F live) (hne : m.freep ≠ 0) (hpos : 0 < nunits)
    (hfit : ∃ x ∈ F, nunits ≤ m.size x) (hfuel : F.length + 1 ≤ fuel) :
    ∃ r m', mallocLoop ffuel nunits fuel m.freep (m.ptr m.freep) m = some (r, m') ∧
      Malloced h0 m m' live nunits r ∧ r ≠ 0 := by
  obtain ⟨W, hW, hperm⟩ := (hinv.ring hne).cycle_from (hinv.freep hne)
  have hnd : (m.freep :: W).Nodup := hperm.nodup_iff.mpr hinv.sorted_base.nodup
  have hWF : ∀ x ∈ m.freep :: W, x ∈ m.base :: F := fun x hx => hperm.mem_iff.mp hx
  -- the first block on the walk that fits
  obtain ⟨t, ht⟩ : ∃ t, (W ++ [m.freep]).find? (fun x => nunits ≤ m.size x) = some t := by
    refine Option.isSome_iff_exists.mp (List.find?_isSome.mpr ?_)
    obtain ⟨x, hxF, hx⟩ := hfit
    have : x ∈ m.freep :: W := hperm.mem_iff.mpr (List.mem_cons_of_mem _ hxF)
    refine ⟨x, ?_, by simpa using hx⟩
    rcases List.mem_cons.mp this with rfl | hxW
    · simp
    · simp [hxW]
  obtain ⟨hPt, as, bs, hsplit, has⟩ := List.find?_eq_some_iff_append.mp ht
  have hskip : ∀ x ∈ as, m.size x < nunits ∧ x ≠ m.freep := fun x hx =>
    ⟨by simpa using has x hx, fun h => (List.nodup_cons.mp hnd).1 (h ▸ mem_of_append_cons_eq hsplit.symm hx)⟩
  have hchain : List.IsChain (fun a b => m.ptr a = b) (m.freep :: as ++ [t]) := by
    have := hW
    rw [List.cons_append, hsplit, ← List.cons_append, List.isChain_split] at this
    exact this.1
  have hlen : as.length ≤ F.length := by
    have h₁ := congrArg List.length hsplit
    have h₂ := hperm.length_eq
    simp only [List.length_append, List.length_cons, List.length_nil] at h₁ h₂
    omega
  set prevp := (m.freep :: as).getLast (List.cons_ne_nil _ _) with hprevp
  have hpt : m.ptr prevp = t := hchain.rel_getLast_head_of_append (List.cons_ne_nil _ _)
    (List.cons_ne_nil _ _)
  have hprev : prevp ∈ m.base :: F := by
    refine hWF _ ?_
    rcases List.mem_cons.mp (List.getLast_mem (List.cons_ne_nil m.freep as)) with h | h
    · rw [hprevp, h]
      exact List.mem_cons_self
    · exact List.mem_cons_of_mem _ (mem_of_append_cons_eq hsplit.symm h)
  have htF : t ∈ F := by
    have : t ∈ m.base :: F := by
      refine hWF t ?_
      have : t ∈ W ++ [m.freep] := by rw [hsplit]; simp
      simp only [List.mem_append, List.mem_singleton] at this
      rcases this with h | h
      · exact List.mem_cons_of_mem _ h
      · rw [h]
        exact List.mem_cons_self
    rcases List.mem_cons.mp this with h | h
    · -- `base` has size 0, and fits nothing
      have := hinv.base_size hne
      simp only [decide_eq_true_eq] at hPt
      rw [h] at hPt
      omega
    · exact h
  simp only [decide_eq_true_eq] at hPt
  rw [show fuel = (fuel - as.length - 1 + 1) + as.length by omega, mallocLoop_skip hchain hskip,
    mallocLoop, if_pos hPt]
  by_cases heq : m.size t = nunits
  · rw [if_pos heq]
    exact ⟨_, _, rfl, alloc_exact hinv hne htF hprev hpt heq, by unfold HSIZE; omega⟩
  · rw [if_neg heq]
    have hsz := hinv.size_lt_of_span (s := m.size t) (List.mem_append_left _ htF)
      (List.mem_append_left _ htF) rfl
    exact ⟨_, _, rfl, alloc_split hinv hne htF hprev (by omega) hpos
      (by rw [UMem.size_setSize_self_of_lt (by omega)]), by unfold HSIZE; omega⟩

/-! ## `morecore` -/

/-- The break moves up by a block of `nu` headers, handed out until `morecore`
frees it. -/
theorem HeapInv.grow (hinv : HeapInv h0 m F live) (hne : m.freep ≠ 0) {nu : Nat}
    (hpos : 0 < nu) (hnu : nu < 2 ^ 32) (hroom : m.sz + nu * HSIZE ≤ m.limit) :
    HeapInv h0 ({ m with sz := m.sz + nu * HSIZE }.setSize m.sz nu) F (m.sz :: live) := by
  have hbase : m.base ≠ m.sz := by
    have := hinv.base_below
    have := hinv.tiles.sum
    unfold HSIZE at *
    omega
  refine ⟨fun h => absurd h hne, fun _ => (hinv.ring hne).frame fun x _ => by simp,
    hinv.freep, fun _ => by simp [UMem.size_setSize_of_ne hbase, hinv.base_size hne],
    hinv.sorted, ?_, hinv.base_pos, hinv.base_below, hroom, hinv.limit_lt⟩
  -- the new block lies at the old break, past every block
  have htiles := hinv.tiles.grow
    (show 0 < ({ m with sz := m.sz + nu * HSIZE }.setSize m.sz nu).len m.sz by
      unfold UMem.len HSIZE; rw [UMem.size_setSize_self_of_lt hnu]; omega)
    fun z hz => by
      rw [UMem.len_setSize_of_ne (hinv.tiles.lt_hi hz).ne]
      rfl
  rw [UMem.len, UMem.size_setSize_self_of_lt hnu, Nat.mul_comm HSIZE nu] at htiles
  exact htiles.perm List.perm_middle.symm

/-- `morecore(nu)` either finds no room for `max nu 4096` headers and changes
nothing, or frees a new block of at least `nu` headers at the old break. -/
theorem morecore_grows (hinv : HeapInv h0 m F live) (hne : m.freep ≠ 0) {nu : Nat}
    (hpos : 0 < nu) (hnu : nu < 2 ^ 27) (hfuel : F.length + 1 ≤ fuel) :
    morecore fuel m nu = some (0, m) ∧ m.limit < m.sz + max nu 4096 * HSIZE ∨
      ∃ m', morecore fuel m nu = some (m'.freep, m') ∧ m'.freep ≠ 0 ∧
        (∃ F', HeapInv h0 m' F' live ∧ ∃ x ∈ F', nu ≤ m'.size x) ∧
        Spares m m' live ∧ m'.limit = m.limit := by
  set nu' := if nu < 4096 then 4096 else nu with hnu'
  have hnu'lo : nu ≤ nu' ∧ 0 < nu' ∧ nu' < 2 ^ 27 := by
    rw [hnu']
    split <;> omega
  -- the request reaches `sbrk` as the positive `int` it was
  have hint : toInt32 (nu' * HSIZE % 2 ^ 32) = (nu' * HSIZE : Nat) := by
    unfold toInt32 HSIZE
    rw [Nat.mod_eq_of_lt (by omega), if_pos (by omega)]
  have hsz := hinv.sz_le
  have hlim := hinv.limit_lt
  have hadd : Vm.addInt m.sz (nu' * HSIZE : Nat) = m.sz + nu' * HSIZE := by
    unfold Vm.addInt
    unfold HSIZE at *
    omega
  by_cases hroom : m.sz + nu' * HSIZE ≤ m.limit
  · have hsbrk : sbrk m (toInt32 (nu' * HSIZE % 2 ^ 32)) =
        (m.sz, { m with sz := m.sz + nu' * HSIZE }) := by
      rw [hint, sbrk, if_pos (by unfold HSIZE; omega), hadd, if_pos hroom]
    have hinv₁ := hinv.grow hne hnu'lo.2.1 (by omega) hroom
    obtain ⟨m₂, hfree, hfreed⟩ := free_frees hinv₁ hfuel
    refine .inr ⟨m₂, ?_, hfreed.freep, ?_, ?_, hfreed.limit⟩
    · simp only [morecore, ← hnu', hsbrk, if_neg (show m.sz ≠ 2 ^ 64 - 1 by unfold HSIZE at *; omega),
        hfree]
      rfl
    · obtain ⟨F', hinv', x, hx, hsize⟩ := hfreed.inv
      refine ⟨F', hinv', x, hx, ?_⟩
      rw [UMem.size_setSize_self_of_lt (by omega)] at hsize
      omega
    · -- `morecore` writes the new header past every block handed out
      have hclear : Clear m live m.sz := fun x hx =>
        .inr (hinv.tiles.le_hi x (List.mem_append_right _ hx))
      have h₁ : Spares m ({ m with sz := m.sz + nu' * HSIZE }.setSize m.sz nu') live :=
        spares_refl.setSize hclear
      refine h₁.trans hfreed.spares fun x hx => ?_
      rw [UMem.len_setSize_of_ne (hinv.tiles.lt_hi (List.mem_append_right _ hx)).ne]
      rfl
  · have hsbrk : sbrk m (toInt32 (nu' * HSIZE % 2 ^ 32)) = (2 ^ 64 - 1, m) := by
      rw [hint, sbrk, if_pos (by unfold HSIZE; omega), hadd, if_neg hroom]
    have hmax : nu' = max nu 4096 := by
      rw [hnu']
      split <;> omega
    refine .inl ⟨?_, by rw [← hmax]; omega⟩
    simp only [morecore, ← hnu', hsbrk]
    rfl

/-- What `malloc` leaves after a call that spared the blocks handed out. -/
theorem Malloced.of_spares {m₂ m' : UMem} {r : Nat} (h : Malloced h0 m₂ m' live nunits r)
    (hinv : HeapInv h0 m F live) (hs : Spares m m₂ live) (hlimit : m₂.limit = m.limit) :
    Malloced h0 m m' live nunits r :=
  ⟨h.inv, h.size, hs.trans h.spares fun _ hx =>
    hs.len_eq (fun y hy => hinv.tiles.pos y (List.mem_append_right _ hy)) hx,
    h.limit.trans hlimit⟩

/-- The walk of `malloc` from `freep`, given fuel for two rounds of the free
list: it takes the first block that fits, or, when none does, grows the heap
by `morecore` and walks round again to the new block.  It returns 0, with the
heap as it was, only when there is no room. -/
theorem mallocLoop_ring (hinv : HeapInv h0 m F live) (hne : m.freep ≠ 0) (hpos : 0 < nunits)
    (hnu : nunits < 2 ^ 27) (hfuel : 2 * (m.limit / HSIZE) + 3 ≤ fuel)
    (hffuel : m.limit / HSIZE + 1 ≤ ffuel) :
    ∃ r m', mallocLoop ffuel nunits fuel m.freep (m.ptr m.freep) m = some (r, m') ∧
      Malloced h0 m m' live nunits r ∧ (r = 0 → m' = m ∧ NoRoom m F nunits) := by
  have hlen := hinv.length_le
  rw [List.length_append] at hlen
  by_cases hfit : ∃ x ∈ F, nunits ≤ m.size x
  · obtain ⟨r, m', hloop, hm', hr⟩ :=
      mallocLoop_fit hinv hne hpos hfit (show F.length + 1 ≤ fuel by omega)
    exact ⟨r, m', hloop, hm', fun h => absurd h hr⟩
  simp only [not_exists, not_and, not_le] at hfit
  -- no block fits: the walk passes the whole ring and comes back to `freep`
  obtain ⟨W, hW, hperm⟩ := (hinv.ring hne).cycle_from (hinv.freep hne)
  have hnd : (m.freep :: W).Nodup := hperm.nodup_iff.mpr hinv.sorted_base.nodup
  have hsmall : ∀ x ∈ m.base :: F, m.size x < nunits := fun x hx => by
    rcases List.mem_cons.mp hx with rfl | hx
    · rw [hinv.base_size hne]
      exact hpos
    · exact hfit x hx
  have hskip : ∀ x ∈ W, m.size x < nunits ∧ x ≠ m.freep := fun x hx =>
    ⟨hsmall x (hperm.mem_iff.mp (List.mem_cons_of_mem _ hx)),
      fun h => (List.nodup_cons.mp hnd).1 (h ▸ hx)⟩
  have hWlen : W.length = F.length := by simpa using hperm.length_eq
  rw [show fuel = (fuel - W.length - 1 + 1) + W.length by omega, mallocLoop_skip hW hskip,
    mallocLoop, if_neg (by have := hsmall _ (hinv.freep hne); omega), if_pos rfl]
  rcases morecore_grows hinv hne hpos hnu (show F.length + 1 ≤ ffuel by omega) with
    ⟨hmore, hroom⟩ | ⟨m₂, hmore, hfreep, ⟨F₂, hinv₂, x, hx, hxsize⟩, hspares, hlimit⟩
  · -- no room: `malloc` returns 0 and the heap is as it was
    rw [hmore]
    exact ⟨0, m, rfl, ⟨⟨F, by simpa using hinv⟩, fun h => absurd rfl h, spares_refl, rfl⟩,
      fun _ => ⟨rfl, hfit, hroom⟩⟩
  · -- the new block is on the ring: one more round finds a block that fits
    rw [hmore]
    have hlen₂ := hinv₂.length_le
    rw [List.length_append, hlimit] at hlen₂
    obtain ⟨r, m', hloop, hm', hr⟩ :=
      mallocLoop_fit hinv₂ hfreep hpos ⟨x, hx, by omega⟩
        (show F₂.length + 1 ≤ fuel - W.length - 1 by omega)
    refine ⟨r, m', ?_, hm'.of_spares hinv hspares hlimit, fun h => absurd h hr⟩
    split
    · contradiction
    · rename_i heq
      simp only [Option.some.injEq, Prod.mk.injEq] at heq
      exact absurd heq.1 hfreep
    · rename_i heq
      simp only [Option.some.injEq, Prod.mk.injEq] at heq
      obtain ⟨rfl, rfl⟩ := heq
      exact hloop

/-- The first `malloc` sets up `base` as the empty ring. -/
theorem HeapInv.start (hinv : HeapInv h0 m F live) (hfresh : m.freep = 0) :
    HeapInv h0 { (m.setPtr m.base m.base).setSize m.base 0 with freep := m.base } [] [] := by
  obtain ⟨rfl, rfl⟩ := hinv.fresh hfresh
  refine ⟨fun h => absurd h hinv.base_pos.ne', fun _ => ring_nil (by simp), fun _ => by simp,
    fun _ => by simp, .nil, hinv.tiles.congr (by simp), hinv.base_pos, hinv.base_below,
    hinv.sz_le, hinv.limit_lt⟩

/-- `malloc(nbytes)` of at most `2^31 - 32` bytes, given fuel for two rounds
of the free list, returns a block of `nbytes` rounded up to headers, plus its
own header, or 0 when no free block fits and the heap cannot grow, changing
nothing past the first call's setup of `base`; the heap invariant holds after
it, and the blocks already handed out are spared. -/
theorem malloc_mallocs (hinv : HeapInv h0 m F live) {nbytes : Nat} (hn : nbytes + 32 ≤ 2 ^ 31)
    (hfuel : 2 * (m.limit / HSIZE) + 3 ≤ fuel) :
    ∃ r m', malloc fuel m nbytes = some (r, m') ∧
      Malloced h0 m m' live ((nbytes + HSIZE - 1) / HSIZE + 1) r ∧
      (r = 0 → NoRoom m F ((nbytes + HSIZE - 1) / HSIZE + 1) ∧ (m.freep ≠ 0 → m' = m)) := by
  have hunits : ((nbytes + HSIZE - 1) / HSIZE + 1) % 2 ^ 32 = (nbytes + HSIZE - 1) / HSIZE + 1 :=
    Nat.mod_eq_of_lt (by unfold HSIZE; omega)
  have hnu : (nbytes + HSIZE - 1) / HSIZE + 1 < 2 ^ 27 := by unfold HSIZE; omega
  unfold malloc
  rw [hunits]
  by_cases hfresh : m.freep = 0
  · -- the first call: `base` becomes the empty ring
    rw [if_pos hfresh]
    have hffuel : m.limit / HSIZE + 1 ≤ fuel := by omega
    obtain ⟨r, m', hloop, hm', hr⟩ := mallocLoop_ring (hinv.start hfresh)
      hinv.base_pos.ne' (Nat.succ_pos _) hnu hfuel hffuel
    obtain ⟨rfl, rfl⟩ := hinv.fresh hfresh
    exact ⟨r, m', hloop, ⟨hm'.inv, hm'.size, fun _ _ _ hx => absurd hx List.not_mem_nil,
      hm'.limit⟩, fun h => ⟨⟨fun _ hx => absurd hx List.not_mem_nil, (hr h).2.2⟩,
        fun hne => absurd hfresh hne⟩⟩
  · rw [if_neg hfresh]
    obtain ⟨r, m', hloop, hm', hr⟩ :=
      mallocLoop_ring hinv hfresh (Nat.succ_pos _) hnu hfuel
        (show m.limit / HSIZE + 1 ≤ fuel by omega)
    exact ⟨r, m', hloop, hm', fun h => ⟨(hr h).2, fun _ => (hr h).1⟩⟩

end Walk

end Xv6.Umalloc
