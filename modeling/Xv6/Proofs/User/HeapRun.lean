import Xv6.Proofs.User.Malloc
import Xv6.Lib.Transition

/-!
# Runs of the allocator

A program calls `malloc` and `free` in any order, and writes into the blocks
it holds.  `Step` is one such event on the memory and the list of blocks handed
out and not freed since: a `malloc` of at most `2^31 - 32` bytes (a larger
request reaches `sbrk` as a negative `int`), a `free` of a pointer that
`malloc` returned, and a write of a header's worth of bytes inside the payload
of a block the program holds.  Each `malloc` and `free` is run with the same
`fuel`, two rounds of the largest free list the heap can hold.

From a process that has not called `malloc` (`Start`), every state a run
reaches keeps `HeapInv` (`good_step`, by `Transition.Reachable.invariant`):

* the free list is a ring through `base` in address order, and the blocks
  tile the heap with no overlap and no byte lost (`reachable_heapInv`);
* every call the program may make returns within the fuel: the loops of
  `malloc` and `free` end (`reachable_calls_return`);
* a block `malloc` hands out is large enough, inside the heap, and apart from
  every block already handed out (`reachable_malloc_fresh`);
* neither `malloc` nor `free` writes a header into a block the program still
  holds (`reachable_calls_spare`);
* `malloc` returns 0 only when no free block fits and `sbrk` cannot grow the
  heap (`reachable_malloc_null`), so a block `free` gives back serves a later
  request of its size (`reachable_free_reuse`).
-/

namespace Xv6.Umalloc

open Transition Tiling

/-- A program's use of the allocator. -/
inductive Call where
  /-- `malloc(nbytes)` -/
  | malloc (nbytes : Nat)
  /-- `free(ap)` -/
  | free (ap : Nat)
  /-- a write of `v` at `a`, a header's worth of bytes -/
  | write (a : Nat) (v : Header)

/-- One event of a run, on the memory and the blocks handed out: a `malloc`,
a `free` of a block the program holds, or a write inside the payload of one. -/
inductive Step (fuel : Nat) : UMem × List Nat → Call → UMem × List Nat → Prop
  | malloc {m m' : UMem} {live : List Nat} {nbytes r : Nat} (hn : nbytes + 32 ≤ 2 ^ 31)
      (h : malloc fuel m nbytes = some (r, m')) :
      Step fuel (m, live) (.malloc nbytes) (m', if r = 0 then live else (r - HSIZE) :: live)
  | free {m m' : UMem} {live : List Nat} {bp : Nat} (hbp : bp ∈ live)
      (h : free fuel m (bp + HSIZE) = some m') :
      Step fuel (m, live) (.free (bp + HSIZE)) (m', live.erase bp)
  | write {m : UMem} {live : List Nat} {x a : Nat} (v : Header) (hx : x ∈ live)
      (hlo : x + HSIZE ≤ a) (hhi : a + HSIZE ≤ x + HSIZE * m.size x) :
      Step fuel (m, live) (.write a v) ({ m with hdr := Function.update m.hdr a v }, live)

/-- A process that has not called `malloc`, its break at `h0` above `base`,
given fuel for two rounds of the largest free list its heap can hold. -/
structure Start (h0 fuel : Nat) (s : UMem × List Nat) : Prop where
  freep : s.1.freep = 0
  sz : s.1.sz = h0
  live : s.2 = []
  base_pos : 0 < s.1.base
  base_below : s.1.base + HSIZE ≤ h0
  sz_le : h0 ≤ s.1.limit
  limit_lt : s.1.limit < HSIZE * 2 ^ 32
  fuel : 2 * (s.1.limit / HSIZE) + 3 ≤ fuel

/-- What every state of a run keeps: the heap, and the fuel. -/
def Good (h0 fuel : Nat) (s : UMem × List Nat) : Prop :=
  (∃ F, HeapInv h0 s.1 F s.2) ∧ 2 * (s.1.limit / HSIZE) + 3 ≤ fuel

section Run

variable {h0 fuel : Nat} {m : UMem} {F live : List Nat}

/-- A write inside the payload of a block the program holds reads no header
the allocator reads. -/
theorem HeapInv.write (hinv : HeapInv h0 m F live) {x a : Nat} (v : Header) (hx : x ∈ live)
    (hlo : x + HSIZE ≤ a) (hhi : a + HSIZE ≤ x + m.len x) :
    HeapInv h0 { m with hdr := Function.update m.hdr a v } F live := by
  have hxB : x ∈ F ++ live := List.mem_append_right _ hx
  have hxa : x < a := by unfold HSIZE at hlo; omega
  have hax : a < x + m.len x := by unfold HSIZE at hhi; omega
  -- the headers of `base` and of the blocks are not at `a`
  have hblock : ∀ y ∈ F ++ live, y ≠ a := fun y hy h =>
    hinv.tiles.not_mem_of_inside hxB hxa hax (h ▸ hy)
  have hbase : m.base ≠ a := by
    have := hinv.tiles.lo_le x hxB
    have := hinv.base_below
    unfold HSIZE at *
    omega
  have hhdr : ∀ y, y ≠ a → ({ m with hdr := Function.update m.hdr a v } : UMem).hdr y = m.hdr y :=
    fun y hy => Function.update_of_ne hy _ _
  have hptr : ∀ y, y ≠ a → ({ m with hdr := Function.update m.hdr a v } : UMem).ptr y = m.ptr y :=
    fun y hy => by unfold UMem.ptr; rw [hhdr y hy]
  have hsize : ∀ y, y ≠ a →
      ({ m with hdr := Function.update m.hdr a v } : UMem).size y = m.size y :=
    fun y hy => by unfold UMem.size; rw [hhdr y hy]
  refine ⟨hinv.fresh, fun h => (hinv.ring h).frame fun y hy => ?_, hinv.freep,
    fun h => (hsize _ hbase).trans (hinv.base_size h), hinv.sorted,
    hinv.tiles.congr fun y hy => by unfold UMem.len; rw [hsize y (hblock y hy)],
    hinv.base_pos, hinv.base_below, hinv.sz_le, hinv.limit_lt⟩
  rcases List.mem_cons.mp hy with rfl | hy
  · exact hptr _ hbase
  · exact hptr y (hblock y (List.mem_append_left _ hy))

theorem good_start {s : UMem × List Nat} (h : Start h0 fuel s) : Good h0 fuel s := by
  refine ⟨⟨[], fun _ => ⟨rfl, h.live⟩, fun hne => absurd h.freep hne,
    fun hne => absurd h.freep hne, fun hne => absurd h.freep hne, .nil, ?_, h.base_pos,
    h.base_below, h.sz ▸ h.sz_le, h.limit_lt⟩, h.fuel⟩
  rw [h.live, h.sz]
  exact tiles_nil

/-- `free` of a block the program holds, from a good state: the block goes
first in the list of blocks handed out, and one round of the free list is
within the fuel. -/
theorem Good.free {s : UMem × List Nat} (hs : Good h0 fuel s) {bp : Nat} (hbp : bp ∈ s.2) :
    ∃ m', Umalloc.free fuel s.1 (bp + HSIZE) = some m' ∧ Freed h0 s.1 m' bp (s.2.erase bp) := by
  obtain ⟨⟨F, hinv⟩, hfuel⟩ := hs
  have hinv' := hinv.perm (List.perm_cons_erase hbp)
  have hlen := hinv'.length_le
  rw [List.length_append] at hlen
  exact free_frees hinv' (by omega)

/-- What a `free` that gave `m'` from a good state leaves. -/
theorem Good.freed {s : UMem × List Nat} (hs : Good h0 fuel s) {bp : Nat} (hbp : bp ∈ s.2)
    {m' : UMem} (hm : Umalloc.free fuel s.1 (bp + HSIZE) = some m') :
    Freed h0 s.1 m' bp (s.2.erase bp) := by
  obtain ⟨m'', hm', hfreed⟩ := hs.free hbp
  obtain rfl := Option.some.inj (hm.symm.trans hm')
  exact hfreed

/-- What a `malloc` that gave `r` and `m'` from a good state leaves: the heap
with the new block, and, when `r = 0`, why. -/
theorem Good.malloced {s : UMem × List Nat} (hs : Good h0 fuel s) {nbytes r : Nat} {m' : UMem}
    (hn : nbytes + 32 ≤ 2 ^ 31) (hm : malloc fuel s.1 nbytes = some (r, m')) :
    ∃ F, HeapInv h0 s.1 F s.2 ∧ Malloced h0 s.1 m' s.2 ((nbytes + HSIZE - 1) / HSIZE + 1) r ∧
      (r = 0 → NoRoom s.1 F ((nbytes + HSIZE - 1) / HSIZE + 1) ∧ (s.1.freep ≠ 0 → m' = s.1)) := by
  obtain ⟨⟨F, hinv⟩, hfuel⟩ := hs
  obtain ⟨r', m'', hm', hM, hnull⟩ := malloc_mallocs hinv hn hfuel
  obtain ⟨rfl, rfl⟩ := Prod.mk.inj (Option.some.inj (hm.symm.trans hm'))
  exact ⟨F, hinv, hM, hnull⟩

/-- Each event keeps the heap, and leaves `limit` and so the fuel as they were. -/
theorem good_step {s s' : UMem × List Nat} {c : Call} (hs : Good h0 fuel s)
    (hstep : Step fuel s c s') : Good h0 fuel s' := by
  cases hstep with
  | malloc hn h =>
    obtain ⟨-, -, hM, -⟩ := hs.malloced hn h
    exact ⟨hM.inv, hM.limit ▸ hs.2⟩
  | free hbp h =>
    have hfreed := hs.freed hbp h
    obtain ⟨F', hinv', -⟩ := hfreed.inv
    exact ⟨⟨F', hinv'⟩, hfreed.limit ▸ hs.2⟩
  | write v hx hlo hhi =>
    obtain ⟨⟨F, hinv⟩, hfuel⟩ := hs
    exact ⟨⟨F, hinv.write v hx hlo hhi⟩, hfuel⟩

/-- Every state a run reaches keeps the heap. -/
theorem good_of_reachable {s : UMem × List Nat}
    (h : Reachable (Start h0 fuel) (Step fuel) s) : Good h0 fuel s :=
  h.invariant (fun _ => good_start) fun _ _ _ _ hs hstep => good_step hs hstep

end Run

/-! ## What a program can rely on -/

/-- A process that has not called `malloc`: `base` in its data, and 64 KiB
between its break and what `kalloc` can give. -/
def runStart : UMem × List Nat :=
  ({ hdr := fun _ => ⟨0, 0⟩, freep := 0, sz := 0x4000, base := 0x1000, limit := 0x14000 }, [])

theorem start_runStart : Start 0x4000 10243 runStart :=
  ⟨rfl, rfl, rfl, by decide, by decide, by decide, by decide, by decide⟩

/-- `malloc(100)` from `runStart`: `morecore` frees 4096 headers at the break,
and the tail end of 8 headers is handed out. -/
theorem malloc_runStart :
    malloc 10243 runStart.1 100 =
      some (0x13F90, ((malloc 10243 runStart.1 100).map Prod.snd).getD runStart.1) := by
  rfl

/-- The state after `malloc(100)`. -/
def runOne : UMem × List Nat :=
  (((malloc 10243 runStart.1 100).map Prod.snd).getD runStart.1, [0x13F80])

theorem reachable_runOne : Reachable (Start 0x4000 10243) (Step 10243) runOne :=
  (Reachable.init start_runStart).step
    (show Step 10243 runStart _ runOne from Step.malloc (by decide) malloc_runStart)

section Reachable

variable {h0 fuel : Nat} {s : UMem × List Nat}

/-- Every state a run reaches keeps the heap invariant: the free list is a
ring through `base` in address order, and the free blocks and the blocks
handed out tile `[h0, sz)`, none overlapping another. -/
theorem reachable_heapInv (h : Reachable (Start h0 fuel) (Step fuel) s) :
    ∃ F, HeapInv h0 s.1 F s.2 :=
  (good_of_reachable h).1

theorem reachable_heapInv_runOne : ∃ F, HeapInv 0x4000 runOne.1 F runOne.2 :=
  reachable_heapInv reachable_runOne

/-- From every state a run reaches, every call the program may make returns
within the fuel: the search loops of `malloc` and `free` end. -/
theorem reachable_calls_return (h : Reachable (Start h0 fuel) (Step fuel) s) :
    (∀ nbytes, nbytes + 32 ≤ 2 ^ 31 → ∃ r m', malloc fuel s.1 nbytes = some (r, m')) ∧
      ∀ bp ∈ s.2, ∃ m', free fuel s.1 (bp + HSIZE) = some m' := by
  have hs := good_of_reachable h
  refine ⟨fun nbytes hn => ?_, fun bp hbp => ?_⟩
  · obtain ⟨⟨F, hinv⟩, hfuel⟩ := hs
    obtain ⟨r, m', hm, -⟩ := malloc_mallocs hinv hn hfuel
    exact ⟨r, m', hm⟩
  · obtain ⟨m', hm, -⟩ := hs.free hbp
    exact ⟨m', hm⟩

theorem reachable_calls_return_runOne :
    (∀ nbytes, nbytes + 32 ≤ 2 ^ 31 → ∃ r m', malloc 10243 runOne.1 nbytes = some (r, m')) ∧
      ∀ bp ∈ runOne.2, ∃ m', free 10243 runOne.1 (bp + HSIZE) = some m' :=
  reachable_calls_return reachable_runOne

/-- A block `malloc` hands out in a run holds the bytes asked for past its
header, lies inside the heap, and is apart from every block already handed
out. -/
theorem reachable_malloc_fresh (h : Reachable (Start h0 fuel) (Step fuel) s) {nbytes r : Nat}
    {m' : UMem} (hn : nbytes + 32 ≤ 2 ^ 31) (hm : malloc fuel s.1 nbytes = some (r, m'))
    (hr : r ≠ 0) :
    nbytes + HSIZE ≤ HSIZE * m'.size (r - HSIZE) ∧ h0 ≤ r - HSIZE ∧
      r - HSIZE + HSIZE * m'.size (r - HSIZE) ≤ m'.sz ∧
      ∀ x ∈ s.2, r - HSIZE + HSIZE * m'.size (r - HSIZE) ≤ x ∨ x + HSIZE * s.1.size x ≤ r - HSIZE := by
  obtain ⟨F, hinv, hM, -⟩ := (good_of_reachable h).malloced hn hm
  obtain ⟨F', hinv'⟩ := hM.inv
  rw [if_neg hr] at hinv'
  have hb : r - HSIZE ∈ F' ++ (r - HSIZE) :: s.2 := List.mem_append_right _ List.mem_cons_self
  have hsize := hM.size hr
  refine ⟨?_, hinv'.tiles.lo_le _ hb, hinv'.tiles.le_hi _ hb, fun x hx => ?_⟩
  · rw [hsize]
    unfold HSIZE
    omega
  -- the new block and `x` are two blocks of the tiling after the call
  have hxB : x ∈ F' ++ (r - HSIZE) :: s.2 := List.mem_append_right _ (List.mem_cons_of_mem _ hx)
  have hne : r - HSIZE ≠ x := fun heq => by
    have hnd := (List.nodup_append.mp hinv'.tiles.nodup).2.1
    exact (List.nodup_cons.mp hnd).1 (heq ▸ hx)
  have hlen : m'.len x = s.1.len x :=
    hM.spares.len_eq (fun y hy => hinv.tiles.pos y (List.mem_append_right _ hy)) hx
  have := hinv'.tiles.apart_of_mem hb hxB hne
  unfold Apart at this
  rw [hlen] at this
  exact this

/-- `malloc(100)` after `runOne`: the block is cut from the tail of the free
block at `0x4000`, just below the block `runOne` holds at `0x13F80`. -/
theorem reachable_malloc_fresh_runOne :
    ∃ m', malloc 10243 runOne.1 100 = some (0x13F10, m') ∧
      100 + HSIZE ≤ HSIZE * m'.size (0x13F10 - HSIZE) ∧ 0x4000 ≤ 0x13F10 - HSIZE ∧
      0x13F10 - HSIZE + HSIZE * m'.size (0x13F10 - HSIZE) ≤ m'.sz ∧
      ∀ x ∈ runOne.2, 0x13F10 - HSIZE + HSIZE * m'.size (0x13F10 - HSIZE) ≤ x ∨
        x + HSIZE * runOne.1.size x ≤ 0x13F10 - HSIZE := by
  have hm : malloc 10243 runOne.1 100 =
      some (0x13F10, ((malloc 10243 runOne.1 100).map Prod.snd).getD runOne.1) := by
    rfl
  exact ⟨_, hm, reachable_malloc_fresh reachable_runOne (by decide) hm (by decide)⟩

/-- Neither `malloc` nor `free`, in a run, writes a header over a block that
stays handed out across the call. -/
theorem reachable_calls_spare (h : Reachable (Start h0 fuel) (Step fuel) s) :
    (∀ nbytes r m', nbytes + 32 ≤ 2 ^ 31 → malloc fuel s.1 nbytes = some (r, m') →
        Spares s.1 m' s.2) ∧
      ∀ bp ∈ s.2, ∀ m', free fuel s.1 (bp + HSIZE) = some m' → Spares s.1 m' (s.2.erase bp) := by
  have hs := good_of_reachable h
  refine ⟨fun nbytes r m' hn hm => ?_, fun bp hbp m' hm => ?_⟩
  · obtain ⟨-, -, hM, -⟩ := hs.malloced hn hm
    exact hM.spares
  · exact (hs.freed hbp hm).spares

theorem reachable_calls_spare_runOne :
    (∀ nbytes r m', nbytes + 32 ≤ 2 ^ 31 → malloc 10243 runOne.1 nbytes = some (r, m') →
        Spares runOne.1 m' runOne.2) ∧
      ∀ bp ∈ runOne.2, ∀ m', free 10243 runOne.1 (bp + HSIZE) = some m' →
        Spares runOne.1 m' (runOne.2.erase bp) :=
  reachable_calls_spare reachable_runOne

/-- `malloc` in a run returns 0 only when it must: no block on the free ring
has the headers asked for, and the break cannot grow by the at least 4096
headers `morecore` asks for; the heap is then left as it was, once `base` is
set up. -/
theorem reachable_malloc_null (h : Reachable (Start h0 fuel) (Step fuel) s) {nbytes : Nat}
    {m' : UMem} (hn : nbytes + 32 ≤ 2 ^ 31) (hm : malloc fuel s.1 nbytes = some (0, m')) :
    s.1.limit < s.1.sz + max ((nbytes + HSIZE - 1) / HSIZE + 1) 4096 * HSIZE ∧
      (s.1.freep ≠ 0 → m' = s.1 ∧
        ∀ k, s.1.size (s.1.ptr^[k] s.1.freep) < (nbytes + HSIZE - 1) / HSIZE + 1) := by
  obtain ⟨F, hinv, -, hnull⟩ := (good_of_reachable h).malloced hn hm
  obtain ⟨⟨hfit, hroom⟩, hsame⟩ := hnull rfl
  refine ⟨hroom, fun hne => ⟨hsame hne, fun k => ?_⟩⟩
  -- the walk from `freep` stays on the ring, where no block fits
  rcases List.mem_cons.mp ((hinv.ring hne).iterate_mem (hinv.freep hne) k) with hx | hx
  · rw [hx, hinv.base_size hne]
    exact Nat.succ_pos _
  · exact hfit _ hx

/-- A request of almost 2 GiB, before the first `malloc` (`freep` is 0) and
after it (`freep` is `base`, and the ring holds `base` and the block at
`0x4000`): no block fits and the break cannot grow that far. -/
theorem reachable_malloc_null_runOne :
    (∃ m', malloc 10243 runStart.1 0x7FFFFFE0 = some (0, m') ∧
      runStart.1.limit < runStart.1.sz + max ((0x7FFFFFE0 + HSIZE - 1) / HSIZE + 1) 4096 * HSIZE ∧
      (runStart.1.freep ≠ 0 → m' = runStart.1 ∧
        ∀ k, runStart.1.size (runStart.1.ptr^[k] runStart.1.freep) <
          (0x7FFFFFE0 + HSIZE - 1) / HSIZE + 1)) ∧
    ∃ m', malloc 10243 runOne.1 0x7FFFFFE0 = some (0, m') ∧
      runOne.1.limit < runOne.1.sz + max ((0x7FFFFFE0 + HSIZE - 1) / HSIZE + 1) 4096 * HSIZE ∧
      (runOne.1.freep ≠ 0 → m' = runOne.1 ∧
        ∀ k, runOne.1.size (runOne.1.ptr^[k] runOne.1.freep) <
          (0x7FFFFFE0 + HSIZE - 1) / HSIZE + 1) := by
  have hm₀ : malloc 10243 runStart.1 0x7FFFFFE0 =
      some (0, ((malloc 10243 runStart.1 0x7FFFFFE0).map Prod.snd).getD runStart.1) := by
    rfl
  have hm₁ : malloc 10243 runOne.1 0x7FFFFFE0 =
      some (0, ((malloc 10243 runOne.1 0x7FFFFFE0).map Prod.snd).getD runOne.1) := by
    rfl
  exact ⟨⟨_, hm₀, reachable_malloc_null (.init start_runStart) (by decide) hm₀⟩,
    _, hm₁, reachable_malloc_null reachable_runOne (by decide) hm₁⟩

/-- Memory `free` gives back is used again: after a run frees a block, a
`malloc` that asks for no more headers than the block had does not return
0. -/
theorem reachable_free_reuse (h : Reachable (Start h0 fuel) (Step fuel) s) {bp : Nat}
    (hbp : bp ∈ s.2) {m₁ : UMem} (hfree : free fuel s.1 (bp + HSIZE) = some m₁) {nbytes : Nat}
    (hn : nbytes + 32 ≤ 2 ^ 31) (hfit : (nbytes + HSIZE - 1) / HSIZE + 1 ≤ s.1.size bp) :
    ∃ r m₂, malloc fuel m₁ nbytes = some (r, m₂) ∧ r ≠ 0 := by
  have hs := good_of_reachable h
  have hfreed := hs.freed hbp hfree
  obtain ⟨F', hinv', x, hx, hsize⟩ := hfreed.inv
  obtain ⟨r, m₂, hm, -, hnull⟩ := malloc_mallocs hinv' hn (hfreed.limit ▸ hs.2)
  refine ⟨r, m₂, hm, fun hr => ?_⟩
  -- the freed block, joined or not, is a free block that fits
  have := (hnull hr).1.1 x hx
  omega

theorem reachable_free_reuse_runOne :
    ∃ m₁, free 10243 runOne.1 (0x13F80 + HSIZE) = some m₁ ∧
      ∃ r m₂, malloc 10243 m₁ 100 = some (r, m₂) ∧ r ≠ 0 := by
  have hfree : free 10243 runOne.1 (0x13F80 + HSIZE) =
      some ((free 10243 runOne.1 (0x13F80 + HSIZE)).getD runOne.1) := by
    rfl
  exact ⟨_, hfree, reachable_free_reuse reachable_runOne (by decide) hfree (by decide)
    (by decide)⟩

end Reachable

end Xv6.Umalloc
