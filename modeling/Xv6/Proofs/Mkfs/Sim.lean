import Xv6.Proofs.Mkfs
import Xv6.Proofs.Blocks.Alloc

/-!
# `iappend` is the kernel's `writei`

`mkfs` keeps its own block map: `freeblock` is the next block to hand out,
`iappend` takes a block from it when a dinode address or an indirect entry is
zero, and the free map is written only at the end.  The kernel's `bmap` takes
the first block whose free-map bit is clear.  While `mkfs` runs, its image is
a device of `Xv6.Blocks` whose bits are set exactly below `freeblock`
(`Tracks`); on such a device the kernel's `balloc` returns `freeblock`, and its
`bzero` finds the block already zero.  So `blockOf` computes what `bmap`
computes (`blockOf_sim`), and the loop of `iappend` is the loop of
`writei(ip, 0, p, ip->size, n)` (`iappendLoop_sim`), as long as the blocks
they take exist.

How many they take is `fileBlocks` of the new size less that of the old: a
chunk takes a block only when it starts one, and the indirect block only when
it starts the first block past the direct ones.
-/

namespace Xv6.Mkfs

open LittleEndian StateExcept Blocks

/-! ## Dinodes and the image as the block functions see them -/

/-- The fields of a dinode that the block functions use. -/
def Din.toIno (din : Din) : Ino where
  type := toShort (getHalf din 0)
  size := din.size
  addrs k := if k ≤ NDIRECT then din.addr k else 0

theorem Din.toIno_addrs_eq (din : Din) (k : Nat) :
    din.toIno.addrs k = if k ≤ NDIRECT then din.addr k else 0 := rfl

theorem Din.toIno_addrs (din : Din) {k : Nat} (hk : k ≤ NDIRECT) : din.toIno.addrs k = din.addr k :=
  if_pos hk

/-- An address stored in the dinode is the block functions' address. -/
theorem Din.toIno_setAddr (din : Din) {k v : Nat} (hk : k ≤ NDIRECT) (hv : v < 2 ^ 32) :
    (din.setAddr k v).toIno = { din.toIno with addrs := Function.update din.toIno.addrs k v } := by
  simp only [NDIRECT] at hk
  -- the type and the size lie before the address words, and the words do not overlap
  have htype : getHalf (din.setAddr k v) 0 = getHalf din 0 :=
    getHalf_setWord_of_disjoint _ _ (by omega)
  have hsize : (din.setAddr k v).size = din.size := getWord_setWord_of_disjoint _ _ (by omega)
  have haddrs : ∀ j, (din.setAddr k v).toIno.addrs j = Function.update din.toIno.addrs k v j := by
    intro j
    rw [Din.toIno_addrs_eq, Function.update_apply, Din.toIno_addrs_eq]
    by_cases hj : j = k
    · subst hj
      rw [if_pos (by simp only [NDIRECT]; omega), if_pos rfl, Din.addr, Din.setAddr,
        getWord_setWord_self _ _ (by simp only [dinodeSize]; omega), Nat.mod_eq_of_lt hv]
    · rw [if_neg hj]
      split_ifs with hj'
      · exact getWord_setWord_of_disjoint _ _ (by simp only [NDIRECT] at hj'; omega)
      · rfl
  show Ino.mk (toShort (getHalf (din.setAddr k v) 0)) (din.setAddr k v).size _ =
    Ino.mk din.toIno.type din.toIno.size _
  rw [htype, hsize]
  congr 1
  funext j
  exact haddrs j

@[simp] theorem Din.size_setAddr (din : Din) (k v : Nat) : (din.setAddr k v).size = din.size :=
  getWord_setWord_of_disjoint _ _ (by omega)

@[simp] theorem Din.type_setAddr (din : Din) (k v : Nat) :
    getHalf (din.setAddr k v) 0 = getHalf din 0 :=
  getHalf_setWord_of_disjoint _ _ (by omega)

/-- The kernel's device `d` is the image of `s` while `mkfs` runs, up to what
it has logged: `FSSIZE` blocks, those below `freeblock` in use, and the
image's bytes. -/
structure Tracks (d : Dev) (s : State) : Prop where
  size : d.size = FSSIZE
  bitmap : d.bitmap = fun b => decide (b < s.freeblock)
  buf : d.buf = s.img

/-- What allocation from `freeblock` relies on: the image file holds its
`FSSIZE` sectors, the blocks from `freeblock` on are still zero, and the
metadata blocks lie below `freeblock`. -/
structure Fresh (s : State) : Prop where
  nsect : s.nsect = FSSIZE
  zero : ∀ b, s.freeblock ≤ b → s.img b = zeroes
  meta_le : nmeta ≤ s.freeblock
  le : s.freeblock ≤ FSSIZE

variable {s : State} {d : Dev}

theorem Tracks.lt_of_refs (hd : Tracks d s) {ip : Ino} {len b : Nat} (hwf : Wf d ip len)
    (hb : Refs d ip b) : b < s.freeblock := by
  have h := hwf.marked b hb
  rw [hd.bitmap] at h
  exact of_decide_eq_true h

theorem Fresh.pos (hf : Fresh s) : 0 < s.freeblock :=
  lt_of_lt_of_le (by decide) hf.meta_le

theorem Fresh.take (hf : Fresh s) (hlt : s.freeblock < FSSIZE) :
    Fresh { s with freeblock := s.freeblock + 1 } :=
  ⟨hf.nsect, fun b hb => hf.zero b (by simp only at hb; omega),
    by simp only; have := hf.meta_le; omega, hlt⟩

theorem Fresh.wsect (hf : Fresh s) {x : Nat} (hx : x < s.freeblock) (blk : Block) :
    Fresh (wsect s x blk) := by
  refine ⟨?_, fun b hb => ?_, hf.meta_le, hf.le⟩
  · have := hf.nsect
    have := hf.le
    simp only [Mkfs.wsect]
    omega
  · simp only [Mkfs.wsect] at hb ⊢
    rw [Function.update_of_ne (by omega)]
    exact hf.zero b hb

theorem Tracks.wsect (hd : Tracks d s) (x : Nat) (blk : Block) :
    Tracks (d.write x blk) (wsect s x blk) :=
  ⟨hd.size, hd.bitmap, by rw [Dev.write_buf, hd.buf]; rfl⟩

theorem Tracks.logWrite (hd : Tracks d s) (b : Nat) : Tracks (d.logWrite b) s :=
  ⟨hd.size, hd.bitmap, hd.buf⟩

theorem rsect_of_lt (hf : Fresh s) {x : Nat} (hx : x < FSSIZE) : rsect s x = .ok (s.img x) := by
  rw [rsect, if_pos (hf.nsect ▸ hx)]

/-! ## `balloc` on the image -/

/-- On the image, the kernel's `balloc` takes `freeblock`: the first block
with a clear bit, which it finds zero already. -/
theorem balloc_tracked (hd : Tracks d s) (hf : Fresh s) (hlt : s.freeblock < FSSIZE) :
    ∃ d', Blocks.balloc d = (s.freeblock, d') ∧ Tracks d' { s with freeblock := s.freeblock + 1 } := by
  have hfind : (List.range d.size).find? (fun b => d.bitmap b = false) = some s.freeblock := by
    rw [List.find?_range_eq_some]
    simp only [hd.bitmap, hd.size, List.mem_range]
    refine ⟨by simp, hlt, fun j hj => by simp [hj]⟩
  refine ⟨bzero { d with bitmap := Function.update d.bitmap s.freeblock true } s.freeblock,
    by rw [Blocks.balloc, hfind], ⟨by simp [bzero, hd.size], ?_, ?_⟩⟩
  · funext b
    simp only [bzero, Dev.logWrite_bitmap, Dev.write_bitmap, hd.bitmap, Function.update_apply]
    by_cases hb : b = s.freeblock
    · simp [hb]
    · rw [if_neg hb]
      exact decide_eq_decide.mpr (by omega)
  · -- `bzero` writes zeros over a block that holds them already
    simp only [bzero, Dev.logWrite_buf, Dev.write_buf, hd.buf]
    exact Function.update_eq_self_iff.mpr (hf.zero _ le_rfl).symm

/-! ## `blockOf` is `bmap` -/

/-- The blocks `bmap` takes for block `bn` of the file: one for the block if it
has no address, and one for the indirect block if the block needs it and the
file has none. -/
def allocs (d : Dev) (ip : Ino) (bn : Nat) : Nat :=
  (if addrOf d ip bn = 0 then 1 else 0) + (if NDIRECT ≤ bn ∧ ip.addrs NDIRECT = 0 then 1 else 0)

/-- What `blockOf` and `bmap` leave when they agree: the same address, the
same dinode, and a device that tracks the image. -/
structure BlockOfSim (s : State) (din : Din) (d : Dev) (fbn : Nat)
    (s₁ : State) (din₁ : Din) (x : Nat) (d₁ : Dev) : Prop where
  bmap : Blocks.bmap d din.toIno fbn = .ok (x, din₁.toIno, d₁)
  tracks : Tracks d₁ s₁
  fresh : Fresh s₁
  ne_zero : x ≠ 0
  lt : x < s₁.freeblock
  freeblock : s₁.freeblock = s.freeblock + allocs d din.toIno fbn
  size : din₁.size = din.size
  type : getHalf din₁ 0 = getHalf din 0

section BlockOf

variable {din : Din} {len fbn : Nat}

/-- A direct block. -/
theorem blockOf_direct (hd : Tracks d s) (hf : Fresh s) (hwf : Wf d din.toIno len)
    (hbn : fbn < NDIRECT) (hroom : s.freeblock + allocs d din.toIno fbn ≤ FSSIZE) :
    ∃ s₁ din₁ x d₁, blockOf s din fbn = .ok (s₁, din₁, x) ∧ BlockOfSim s din d fbn s₁ din₁ x d₁ := by
  have haddr : addrOf d din.toIno fbn = din.addr fbn := by
    rw [addrOf_of_lt hbn, Din.toIno_addrs _ (by omega)]
  have hind : ¬(NDIRECT ≤ fbn ∧ din.toIno.addrs NDIRECT = 0) := fun h => by omega
  have hallocs : allocs d din.toIno fbn = if din.addr fbn = 0 then 1 else 0 := by
    rw [allocs, if_neg hind, haddr, Nat.add_zero]
  by_cases h0 : din.addr fbn = 0
  · -- a new block: `freeblock`, and `balloc`'s first clear bit
    have hlt : s.freeblock < FSSIZE := by
      rw [hallocs, if_pos h0] at hroom
      omega
    obtain ⟨d₁, hb, hd₁⟩ := balloc_tracked hd hf hlt
    have hfb : s.freeblock < 2 ^ 32 := by simp only [FSSIZE] at hlt; omega
    have hx : (din.setAddr fbn s.freeblock).addr fbn = s.freeblock := by
      rw [Din.addr, Din.setAddr, getWord_setWord_self _ _ (by simp only [NDIRECT, dinodeSize] at hbn ⊢; omega),
        Nat.mod_eq_of_lt hfb]
    refine ⟨{ s with freeblock := s.freeblock + 1 }, din.setAddr fbn s.freeblock, s.freeblock, d₁,
      by simp only [blockOf, if_pos hbn, allocAddr, if_pos h0, pure_eq_ok, hx], ?_⟩
    refine ⟨?_, hd₁, hf.take hlt, hf.pos.ne', by simp, by rw [hallocs, if_pos h0], by simp, by simp⟩
    rw [Din.toIno_setAddr _ (by omega) hfb]
    simp only [Blocks.bmap, if_pos hbn, Din.toIno_addrs _ (show fbn ≤ NDIRECT by omega), h0, if_true, hb,
      if_neg hf.pos.ne']
  · -- an address already there: neither takes a block
    have hlt : din.addr fbn < s.freeblock :=
      hd.lt_of_refs hwf ⟨h0, .inr ⟨fbn, haddr⟩⟩
    refine ⟨s, din, din.addr fbn, d, by simp only [blockOf, if_pos hbn, allocAddr, if_neg h0, pure_eq_ok], ?_⟩
    refine ⟨?_, hd, hf, h0, hlt, by rw [hallocs, if_neg h0, Nat.add_zero], rfl, rfl⟩
    simp only [Blocks.bmap, if_pos hbn, Din.toIno_addrs _ (show fbn ≤ NDIRECT by omega), if_neg h0]

/-- The indirect block, as `allocAddr s din NDIRECT` and `indirectBlock` leave
it: the same address, non-zero and in use, and the same addresses of the
file's blocks, since a new indirect block is zero. -/
theorem indirect_sim (hd : Tracks d s) (hf : Fresh s) (hwf : Wf d din.toIno len)
    (hroom : din.addr NDIRECT = 0 → s.freeblock < FSSIZE) {s₁ : State} {din₁ : Din}
    (ha : allocAddr s din NDIRECT = (s₁, din₁)) :
    ∃ d₁, indirectBlock d din.toIno = (din₁.addr NDIRECT, din₁.toIno, d₁) ∧ Tracks d₁ s₁ ∧
      Fresh s₁ ∧ din₁.addr NDIRECT ≠ 0 ∧ din₁.addr NDIRECT < s₁.freeblock ∧
      s₁.freeblock = s.freeblock + (if din.addr NDIRECT = 0 then 1 else 0) ∧
      addrOf d₁ din₁.toIno = addrOf d din.toIno ∧ din₁.size = din.size ∧
      getHalf din₁ 0 = getHalf din 0 := by
  have hind : din.toIno.addrs NDIRECT = din.addr NDIRECT := Din.toIno_addrs _ le_rfl
  by_cases h0 : din.addr NDIRECT = 0
  · -- a new indirect block: `freeblock`, zero
    rw [allocAddr, if_pos h0, Prod.mk.injEq] at ha
    obtain ⟨rfl, rfl⟩ := ha
    have hlt := hroom h0
    obtain ⟨d₁, hb, hd₁⟩ := balloc_tracked hd hf hlt
    have hfb : s.freeblock < 2 ^ 32 := by simp only [FSSIZE] at hlt; omega
    have hx : (din.setAddr NDIRECT s.freeblock).addr NDIRECT = s.freeblock := by
      rw [Din.addr, Din.setAddr, getWord_setWord_self _ _ (by simp [NDIRECT, dinodeSize]),
        Nat.mod_eq_of_lt hfb]
    have hino := Din.toIno_setAddr din (le_refl NDIRECT) hfb
    refine ⟨d₁, ?_, hd₁, hf.take hlt, by rw [hx]; exact hf.pos.ne', by rw [hx]; simp,
      by rw [if_pos h0], ?_, by simp, by simp⟩
    · rw [hx, hino]
      simp only [indirectBlock, hind, h0, if_true, hb, if_neg hf.pos.ne']
    · -- the entries of the zero block read as the absent block's
      funext bn
      by_cases hlt' : bn < NDIRECT
      · rw [addrOf_of_lt hlt', addrOf_of_lt hlt', hino]
        exact Function.update_of_ne (by omega) _ _
      · rw [addrOf_of_le (by omega), addrOf_of_le (by omega), hino, hind, h0]
        simp only [Function.update_self, hd₁.buf, ne_eq, not_true, and_false, if_false]
        rw [hf.zero _ le_rfl]
        split_ifs
        · exact getWord_zero _
        · rfl
  · rw [allocAddr, if_neg h0, Prod.mk.injEq] at ha
    obtain ⟨rfl, rfl⟩ := ha
    refine ⟨d, ?_, hd, hf, h0, hd.lt_of_refs hwf ⟨h0, .inl hind.symm⟩, by rw [if_neg h0, Nat.add_zero], rfl,
      rfl, rfl⟩
    simp only [indirectBlock, hind, if_neg h0]

/-- A block past the direct ones. -/
theorem blockOf_indirect (hd : Tracks d s) (hf : Fresh s) (hwf : Wf d din.toIno len)
    (hlo : NDIRECT ≤ fbn) (hhi : fbn < MAXFILE)
    (hroom : s.freeblock + allocs d din.toIno fbn ≤ FSSIZE) :
    ∃ s₁ din₁ x d₁, blockOf s din fbn = .ok (s₁, din₁, x) ∧ BlockOfSim s din d fbn s₁ din₁ x d₁ := by
  have hind : din.toIno.addrs NDIRECT = din.addr NDIRECT := Din.toIno_addrs _ le_rfl
  rcases ha : allocAddr s din NDIRECT with ⟨s₁, din₁⟩
  obtain ⟨d₁, hib, hd₁, hf₁, hi0, hilt, hfb₁, haddr₁, hsize₁, htype₁⟩ :=
    indirect_sim hd hf hwf (fun h0 => by
      simp only [allocs, hind, h0, and_self, if_true, hlo] at hroom
      omega) ha
  have hilt' : din₁.addr NDIRECT < FSSIZE := by
    have := hf₁.nsect
    simp only [allocs, FSSIZE] at hroom hilt ⊢
    split_ifs at hroom hfb₁ <;> omega
  have he : 4 * (fbn - NDIRECT) + 4 ≤ BSIZE := by
    simp only [MAXFILE, NDIRECT, NINDIRECT, BSIZE] at hlo hhi ⊢
    omega
  -- the entry `mkfs` reads is the address `bmap` reads
  have hentry : getWord (s₁.img (din₁.addr NDIRECT)) (4 * (fbn - NDIRECT)) =
      addrOf d din.toIno fbn := by
    rw [← haddr₁, addrOf_of_le hlo, Din.toIno_addrs _ le_rfl, if_pos ⟨hhi, hi0⟩, hd₁.buf]
  have hblock : blockOf s din fbn = (do
      let indirect ← rsect s₁ (din₁.addr NDIRECT)
      let e := 4 * (fbn - NDIRECT)
      if getWord indirect e = 0 then
        let indirect := setWord indirect e s₁.freeblock
        let s := wsect { s₁ with freeblock := s₁.freeblock + 1 } (din₁.addr NDIRECT) indirect
        return (s, din₁, getWord indirect e)
      return (s₁, din₁, getWord indirect e)) := by
    simp only [blockOf, if_neg (show ¬fbn < NDIRECT by omega), ha]
  have hbmap : Blocks.bmap d din.toIno fbn =
      bmapEntry d₁ din₁.toIno (din₁.addr NDIRECT) (fbn - NDIRECT) := by
    simp only [Blocks.bmap, if_neg (show ¬fbn < NDIRECT by omega),
      if_pos (show fbn - NDIRECT < NINDIRECT by simp only [MAXFILE] at hhi; omega), hib, if_neg hi0]
  rw [hblock, rsect_of_lt hf₁ hilt', ok_bind]
  dsimp only
  rw [hentry]
  by_cases he0 : addrOf d din.toIno fbn = 0
  · -- a new entry: the next block, written into the indirect block
    have hlt : s₁.freeblock < FSSIZE := by
      simp only [allocs, he0, if_true, hind] at hroom
      split_ifs at hroom hfb₁ <;> omega
    obtain ⟨d₂, hb, hd₂⟩ := balloc_tracked hd₁ hf₁ hlt
    have hfb : s₁.freeblock < 2 ^ 32 := by simp only [FSSIZE] at hlt; omega
    have hx : getWord (setWord (s₁.img (din₁.addr NDIRECT)) (4 * (fbn - NDIRECT)) s₁.freeblock)
        (4 * (fbn - NDIRECT)) = s₁.freeblock := by
      rw [getWord_setWord_self _ _ he, Nat.mod_eq_of_lt hfb]
    refine ⟨wsect { s₁ with freeblock := s₁.freeblock + 1 } (din₁.addr NDIRECT)
      (setWord (s₁.img (din₁.addr NDIRECT)) (4 * (fbn - NDIRECT)) s₁.freeblock), din₁,
      s₁.freeblock, (d₂.write (din₁.addr NDIRECT)
      (setWord (d₂.buf (din₁.addr NDIRECT)) (4 * (fbn - NDIRECT)) s₁.freeblock)).logWrite
        (din₁.addr NDIRECT), by simp only [if_pos he0, pure_eq_ok, hx], ?_⟩
    have hbuf₂ : d₂.buf (din₁.addr NDIRECT) = s₁.img (din₁.addr NDIRECT) := by rw [hd₂.buf]
    have hentry₁ : getWord (d₁.buf (din₁.addr NDIRECT)) (4 * (fbn - NDIRECT)) = 0 := by
      rw [hd₁.buf, hentry, he0]
    refine ⟨?_, ?_, (hf₁.take hlt).wsect (by simp only; omega) _, hf₁.pos.ne', by simp, ?_,
      by rw [hsize₁], htype₁⟩
    · rw [hbmap]
      simp only [bmapEntry, hentry₁, if_true, hb, if_neg hf₁.pos.ne']
    · rw [hbuf₂]
      exact (hd₂.wsect _ _).logWrite _
    · show s₁.freeblock + 1 = s.freeblock + allocs d din.toIno fbn
      rw [hfb₁, allocs, if_pos he0]
      by_cases h0 : din.addr NDIRECT = 0
      · rw [if_pos h0, if_pos ⟨hlo, by rw [hind]; exact h0⟩]
      · rw [if_neg h0, if_neg (fun h => h0 (hind ▸ h.2))]
  · -- the entry is there: nothing is taken
    refine ⟨s₁, din₁, addrOf d din.toIno fbn, d₁, by simp only [if_neg he0, pure_eq_ok], ?_⟩
    have hlt : addrOf d din.toIno fbn < s.freeblock :=
      hd.lt_of_refs hwf ⟨he0, .inr ⟨fbn, rfl⟩⟩
    -- an entry needs the indirect block
    have h0 : din.addr NDIRECT ≠ 0 := fun h0 =>
      he0 (by rw [addrOf_of_le hlo, hind, if_neg (fun h => h.2 h0)])
    refine ⟨?_, hd₁, hf₁, he0, by omega, ?_, hsize₁, htype₁⟩
    · rw [hbmap, bmapEntry, hd₁.buf, hentry, if_neg he0]
    · rw [hfb₁, allocs, if_neg he0, if_neg h0, if_neg (fun h => h0 (hind ▸ h.2))]

theorem blockOf_sim (hd : Tracks d s) (hf : Fresh s) (hwf : Wf d din.toIno len)
    (hbn : fbn < MAXFILE) (hroom : s.freeblock + allocs d din.toIno fbn ≤ FSSIZE) :
    ∃ s₁ din₁ x d₁, blockOf s din fbn = .ok (s₁, din₁, x) ∧ BlockOfSim s din d fbn s₁ din₁ x d₁ := by
  by_cases hlt : fbn < NDIRECT
  · exact blockOf_direct hd hf hwf hlt hroom
  · exact blockOf_indirect hd hf hwf (by omega) hbn hroom

end BlockOf

/-! ## How many blocks a file takes -/

/-- The blocks a file of `len` bytes takes: one for each block it starts, and
the indirect block once it is past the `NDIRECT` direct blocks. -/
def fileBlocks (len : Nat) : Nat :=
  (len + BSIZE - 1) / BSIZE + if NDIRECT * BSIZE < len then 1 else 0

theorem fileBlocks_mono {a b : Nat} (h : a ≤ b) : fileBlocks a ≤ fileBlocks b := by
  unfold fileBlocks
  split_ifs <;> simp only [BSIZE, NDIRECT] at * <;> omega

/-- A chunk of `m` bytes at `off`, within the block of `off`, takes a block only
when it starts that block, and the indirect block only when that block is the
first past the direct ones: no more than it adds to `fileBlocks`. -/
theorem allocs_le {ip : Ino} {off m : Nat} (hwf : Wf d ip off) (hm : 0 < m)
    (hm' : off % BSIZE + m ≤ BSIZE) :
    allocs d ip (off / BSIZE) ≤ fileBlocks (off + m) - fileBlocks off := by
  -- a mapped block past the direct ones needs the indirect block
  have hind : NDIRECT * BSIZE < off → ip.addrs NDIRECT ≠ 0 := by
    intro h h0
    have := hwf.mapped NDIRECT (by rwa [Nat.mul_comm])
    rw [addrOf_of_le le_rfl, if_neg (fun h' => h'.2 h0)] at this
    exact this rfl
  unfold allocs fileBlocks
  by_cases hstart : off % BSIZE = 0
  · -- the chunk starts a block: one more block started, and the indirect block
    -- too when it is the first past the direct ones
    have hceil : (off + BSIZE - 1) / BSIZE + 1 ≤ (off + m + BSIZE - 1) / BSIZE := by
      simp only [BSIZE] at hstart hm' ⊢
      omega
    have hone : (if addrOf d ip (off / BSIZE) = 0 then 1 else 0) ≤ 1 := by
      split_ifs <;> omega
    by_cases hnew : NDIRECT ≤ off / BSIZE ∧ ip.addrs NDIRECT = 0
    · have hle : ¬NDIRECT * BSIZE < off := fun h => hind h hnew.2
      have hlt : NDIRECT * BSIZE < off + m := by
        have := hnew.1
        simp only [NDIRECT, BSIZE] at this hle ⊢
        omega
      rw [if_pos hnew, if_neg hle, if_pos hlt]
      omega
    · rw [if_neg hnew]
      have hmono : (if NDIRECT * BSIZE < off then 1 else 0) ≤
          (if NDIRECT * BSIZE < off + m then 1 else 0) := by
        split_ifs <;> omega
      omega
  · -- a chunk inside a block: the block is below `off`, so mapped, and so is
    -- the indirect block if the block needs it
    have hmap : addrOf d ip (off / BSIZE) ≠ 0 :=
      hwf.mapped _ (by simp only [BSIZE] at hstart ⊢; omega)
    have hnew : ¬(NDIRECT ≤ off / BSIZE ∧ ip.addrs NDIRECT = 0) := fun h =>
      hind (by have := h.1; simp only [NDIRECT, BSIZE] at this hstart ⊢; omega) h.2
    rw [if_neg hmap, if_neg hnew]
    omega

/-! ## The loop of `iappend` is the loop of `writei` -/

/-- From offset `off`, with `tot` of the bytes appended so far, the loop of
`iappend` appends the rest exactly as `writei`'s loop writes them, when the
free blocks last: each round `blockOf` is `bmap` and the chunk is the same. -/
theorem iappendLoop_sim (bytes : List UInt8) :
    ∀ fuel s din d off tot, Tracks d s → Fresh s → Wf d din.toIno off → tot ≤ bytes.length →
      bytes.length - tot ≤ fuel → off + (bytes.length - tot) ≤ MAXFILE * BSIZE →
      s.freeblock + (fileBlocks (off + (bytes.length - tot)) - fileBlocks off) ≤ FSSIZE →
      ∃ s' din' d',
        iappendLoop fuel s din off (bytes.drop tot) = .ok (s', din', off + (bytes.length - tot)) ∧
        Blocks.writeLoop (.kernel bytes) bytes.length fuel off tot din.toIno d =
          .ok (bytes.length, off + (bytes.length - tot), din'.toIno, d') ∧
        Tracks d' s' ∧ Fresh s' ∧ din'.size = din.size ∧ getHalf din' 0 = getHalf din 0 ∧
        s'.freeblock ≤ s.freeblock + (fileBlocks (off + (bytes.length - tot)) - fileBlocks off) := by
  intro fuel
  induction fuel with
  | zero =>
    intro s din d off tot hd hf _ _ hfuel _ _
    have hn : bytes.length - tot = 0 := by omega
    refine ⟨s, din, d, ?_, ?_, hd, hf, rfl, rfl, by omega⟩
    · rw [hn, Nat.add_zero]
      rfl
    · rw [hn, Nat.add_zero, show bytes.length = tot by omega]
      rfl
  | succ fuel ih =>
    intro s din d off tot hd hf hwf hle hfuel hmax hbudget
    by_cases htot : tot < bytes.length
    · -- one round: the block of `off`, then the chunk up to its end
      have hfbn : off / BSIZE < MAXFILE := by
        simp only [MAXFILE, NDIRECT, NINDIRECT, BSIZE] at hmax ⊢
        omega
      let m := min (bytes.length - tot) (BSIZE - off % BSIZE)
      have hmod : off % BSIZE < BSIZE := Nat.mod_lt _ (by simp [BSIZE])
      have hm : 0 < m := by omega
      have hm' : off % BSIZE + m ≤ BSIZE := by omega
      have hal := allocs_le hwf hm hm'
      have hmono₁ := fileBlocks_mono (show off ≤ off + m by omega)
      have hmono₂ := fileBlocks_mono (show off + m ≤ off + (bytes.length - tot) by omega)
      obtain ⟨s₁, din₁, x, d₁, hblk, hsim⟩ := blockOf_sim hd hf hwf hfbn (by omega)
      obtain ⟨x', ip₁, d₁', hbmap, hpost⟩ := bmap_spec hwf hfbn
      rw [hsim.bmap, Except.ok.injEq, Prod.mk.injEq, Prod.mk.injEq] at hbmap
      obtain ⟨rfl, rfl, rfl⟩ := hbmap
      have hx : addrOf d₁ din₁.toIno (off / BSIZE) = x := hpost.addr_self
      have hxs : x < FSSIZE := lt_of_lt_of_le hsim.lt hsim.fresh.le
      -- the chunk, as `mkfs` and the kernel write it
      let chunk := (bytes.drop tot).take m
      have hwf₂ := hpost.wf.writeChunk (hx ▸ hsim.ne_zero) le_rfl hm' (by omega)
        (setBytes (d₁.buf x) (off % BSIZE) chunk)
      rw [hx, Nat.max_eq_right (by omega)] at hwf₂
      have hd₂ : Tracks ((d₁.write x (setBytes (d₁.buf x) (off % BSIZE) chunk)).logWrite x)
          (wsect s₁ x (setBytes (s₁.img x) (off % BSIZE) chunk)) := by
        rw [hsim.tracks.buf]
        exact (hsim.tracks.wsect _ _).logWrite _
      have hf₂ := hsim.fresh.wsect hsim.lt (setBytes (s₁.img x) (off % BSIZE) chunk)
      have hrest : bytes.length - (tot + m) = bytes.length - tot - m := by omega
      obtain ⟨s', din', d', hloop, hwrite, hd', hf', hsize', htype', hfb'⟩ :=
        ih _ din₁ _ (off + m) (tot + m) hd₂ hf₂ hwf₂ (by omega) (by omega) (by omega) (by
          simp only [Mkfs.wsect, hsim.freeblock] at ⊢
          rw [show off + m + (bytes.length - (tot + m)) = off + (bytes.length - tot) by omega]
          omega)
      rw [show off + m + (bytes.length - (tot + m)) = off + (bytes.length - tot) by omega]
        at hloop hwrite hfb'
      refine ⟨s', din', d', ?_, ?_, hd', hf', hsize'.trans hsim.size, htype'.trans hsim.type, ?_⟩
      · have hn1 : min (bytes.length - tot) ((off / BSIZE + 1) * BSIZE - off) = m := by
          simp only [m]
          congr 1
          simp only [BSIZE]
          omega
        have hoff : off - off / BSIZE * BSIZE = off % BSIZE := by
          simp only [BSIZE]
          omega
        simp only [iappendLoop, List.length_drop, if_pos (show 0 < bytes.length - tot by omega),
          if_pos hfbn, hblk, ok_bind, rsect_of_lt hsim.fresh hxs, hn1, hoff, List.drop_drop]
        exact hloop
      · simp only [Blocks.writeLoop, if_pos htot, hsim.bmap, ok_bind, if_neg hsim.ne_zero]
        exact hwrite
      · have := hsim.freeblock
        simp only [Mkfs.wsect] at hfb'
        omega
    · have hn : bytes.length - tot = 0 := by omega
      have hdrop : bytes.drop tot = [] := List.drop_eq_nil_of_le (by omega)
      refine ⟨s, din, d, ?_, ?_, hd, hf, rfl, rfl, by omega⟩
      · rw [hdrop, hn, iappendLoop, if_neg (by simp)]
        rfl
      · rw [hn, Blocks.writeLoop, if_neg htot, show bytes.length = tot by omega]
        rfl


/-! ## `iappend` is `writei` at the end of the file -/

end Xv6.Mkfs
