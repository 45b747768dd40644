import Xv6.Blocks.Inode

/-!
# Block addresses of a file and what `bmap` does to them

`addrOf d ip bn` is the address `bmap` finds for block `bn` without allocating,
`0` when there is none.  A file is well formed (`Wf`) when the blocks it refers
to are in use in the free map, its data blocks are distinct from one another
and from its indirect block, and every block below a length `len` has an
address.  `len` is the file's size between system calls and the end of the
bytes written so far inside `writei`'s loop.

`bmap_spec` is the one lemma about `bmap` that the content proofs use.  It is
assembled from four lemmas, one per way `bmap` changes the state: a block taken
from the free map, a direct address set, an indirect block set, an entry of the
indirect block set.
-/

namespace Xv6.Blocks

open LittleEndian

/-! ## Addresses -/

/-- The address of block `bn` of the file, or `0`. -/
def addrOf (d : Dev) (ip : Ino) (bn : Nat) : Nat :=
  if bn < NDIRECT then ip.addrs bn
  else if bn < MAXFILE ∧ ip.addrs NDIRECT ≠ 0 then
    getWord (d.buf (ip.addrs NDIRECT)) (4 * (bn - NDIRECT))
  else 0

/-- The blocks the file refers to: its indirect block and the addresses of its
blocks. -/
def Refs (d : Dev) (ip : Ino) (b : Nat) : Prop :=
  b ≠ 0 ∧ (b = ip.addrs NDIRECT ∨ ∃ bn, addrOf d ip bn = b)

structure Wf (d : Dev) (ip : Ino) (len : Nat) : Prop where
  zero_used : d.bitmap 0 = true
  size_le : d.size ≤ 2 ^ 32
  marked : ∀ b, Refs d ip b → d.bitmap b = true
  addr_ne_indirect : ∀ bn, addrOf d ip bn ≠ 0 → addrOf d ip bn ≠ ip.addrs NDIRECT
  addr_inj : ∀ bn bn', addrOf d ip bn ≠ 0 → addrOf d ip bn = addrOf d ip bn' → bn = bn'
  mapped : ∀ bn, bn * BSIZE < len → addrOf d ip bn ≠ 0
  len_le : len ≤ MAXFILE * BSIZE

@[simp] theorem addrOf_logWrite (d : Dev) (ip : Ino) (b : Nat) :
    addrOf (d.logWrite b) ip = addrOf d ip := rfl

theorem addrOf_of_lt {d : Dev} {ip : Ino} {bn : Nat} (h : bn < NDIRECT) :
    addrOf d ip bn = ip.addrs bn := by
  unfold addrOf
  rw [if_pos h]

theorem addrOf_of_le {d : Dev} {ip : Ino} {bn : Nat} (h : NDIRECT ≤ bn) :
    addrOf d ip bn = if bn < MAXFILE ∧ ip.addrs NDIRECT ≠ 0 then
      getWord (d.buf (ip.addrs NDIRECT)) (4 * (bn - NDIRECT)) else 0 := by
  unfold addrOf
  rw [if_neg (by omega)]

theorem lt_maxfile_of_addrOf_ne_zero {d : Dev} {ip : Ino} {bn : Nat} (h : addrOf d ip bn ≠ 0) :
    bn < MAXFILE := by
  unfold addrOf at h
  split_ifs at h with h₁ h₂
  · simp only [MAXFILE, NDIRECT] at h₁ ⊢
    omega
  · exact h₂.1
  · exact absurd rfl h

/-- Addresses read the indirect block only. -/
theorem addrOf_congr {d d' : Dev} {ip : Ino}
    (h : ip.addrs NDIRECT ≠ 0 → d'.buf (ip.addrs NDIRECT) = d.buf (ip.addrs NDIRECT)) :
    addrOf d' ip = addrOf d ip := by
  funext bn
  unfold addrOf
  split_ifs with h₁ h₂
  · rfl
  · rw [h h₂.2]
  · rfl

theorem Wf.not_refs {d : Dev} {ip : Ino} {len b : Nat} (hwf : Wf d ip len)
    (hb : d.bitmap b = false) : ¬ Refs d ip b := by
  intro href
  simp [hwf.marked b href] at hb

theorem Wf.ne_zero_of_free {d : Dev} {ip : Ino} {len b : Nat} (hwf : Wf d ip len)
    (hb : d.bitmap b = false) : b ≠ 0 := by
  rintro rfl
  simp [hwf.zero_used] at hb

theorem Wf.addrOf_ne_of_free {d : Dev} {ip : Ino} {len b : Nat} (hwf : Wf d ip len)
    (hb : d.bitmap b = false) (bn : Nat) : addrOf d ip bn ≠ b := by
  intro h
  exact hwf.not_refs hb ⟨hwf.ne_zero_of_free hb, .inr ⟨bn, h⟩⟩

theorem Wf.indirect_ne_of_free {d : Dev} {ip : Ino} {len b : Nat} (hwf : Wf d ip len)
    (hb : d.bitmap b = false) : ip.addrs NDIRECT ≠ b := by
  intro h
  exact hwf.not_refs hb ⟨hwf.ne_zero_of_free hb, .inl h.symm⟩

/-- A file that keeps its addresses stays well formed on a device that keeps
its blocks in use. -/
theorem Wf.transfer {d d' : Dev} {ip : Ino} {len : Nat} (hwf : Wf d ip len)
    (haddr : addrOf d' ip = addrOf d ip) (hmarked : ∀ b, Refs d ip b → d'.bitmap b = true)
    (hzero : d'.bitmap 0 = true) (hsize : d'.size = d.size) : Wf d' ip len := by
  have hrefs : ∀ b, Refs d' ip b ↔ Refs d ip b := by
    intro b
    simp only [Refs, haddr]
  refine ⟨hzero, hsize ▸ hwf.size_le, fun b hb => hmarked b ((hrefs b).mp hb), ?_, ?_, ?_,
    hwf.len_le⟩
  · rw [haddr]
    exact hwf.addr_ne_indirect
  · rw [haddr]
    exact hwf.addr_inj
  · rw [haddr]
    exact hwf.mapped

theorem bitmap_update_iff (f : Nat → Bool) (b c : Nat) :
    Function.update f b true c = true ↔ f c = true ∨ c = b := by
  by_cases h : c = b
  · simp [h]
  · simp [h]

/-! ## `balloc` -/

/-- The device after `balloc` took block `b`: marked in use and zeroed. -/
def markZero (d : Dev) (b : Nat) : Dev :=
  bzero { d with bitmap := Function.update d.bitmap b true } b

@[simp] theorem markZero_buf (d : Dev) (b : Nat) :
    (markZero d b).buf = Function.update d.buf b fun _ => 0 := rfl

@[simp] theorem markZero_bitmap (d : Dev) (b : Nat) :
    (markZero d b).bitmap = Function.update d.bitmap b true := rfl

@[simp] theorem markZero_size (d : Dev) (b : Nat) : (markZero d b).size = d.size := rfl

@[simp] theorem markZero_disk (d : Dev) (b : Nat) : (markZero d b).disk = d.disk := rfl

/-- `balloc` fails with every block in use, or takes a free block. -/
theorem balloc_spec (d : Dev) :
    (balloc d = (0, d) ∧ ∀ b < d.size, d.bitmap b = true) ∨
      ∃ b, b < d.size ∧ d.bitmap b = false ∧ balloc d = (b, markZero d b) := by
  unfold balloc
  cases hfind : (List.range d.size).find? fun b => d.bitmap b = false with
  | none =>
    left
    refine ⟨rfl, fun b hb => ?_⟩
    have := List.find?_eq_none.mp hfind b (List.mem_range.mpr hb)
    simpa using this
  | some b =>
    right
    refine ⟨b, List.mem_range.mp (List.mem_of_find?_eq_some hfind), ?_, rfl⟩
    simpa using List.find?_some hfind

/-- Taking a free block changes no address and no block the file refers to,
and the block is none of them. -/
theorem Wf.markZero {d : Dev} {ip : Ino} {len b : Nat} (hwf : Wf d ip len)
    (hb : d.bitmap b = false) :
    Wf (markZero d b) ip len ∧ addrOf (markZero d b) ip = addrOf d ip ∧
      ¬ Refs (markZero d b) ip b := by
  have haddr : addrOf (Blocks.markZero d b) ip = addrOf d ip :=
    addrOf_congr fun _ => by rw [markZero_buf, Function.update_of_ne (hwf.indirect_ne_of_free hb)]
  have hmark : ∀ c, d.bitmap c = true → (Blocks.markZero d b).bitmap c = true := fun c hc => by
    rw [markZero_bitmap, bitmap_update_iff]
    exact .inl hc
  refine ⟨hwf.transfer haddr (fun c hc => hmark c (hwf.marked c hc)) (hmark 0 hwf.zero_used) rfl,
    haddr, ?_⟩
  simpa [Refs, haddr] using hwf.not_refs hb

/-! ## Setting one address -/

/-- Giving block `bn` a fresh address `b` in use, and changing no other
address, the indirect block or the free map, keeps the file well formed. -/
theorem Wf.setAddr {d d' : Dev} {ip ip' : Ino} {len bn b : Nat} (hwf : Wf d ip len)
    (hb0 : b ≠ 0) (hnew : ¬ Refs d ip b) (hmark : d.bitmap b = true)
    (hself : addrOf d' ip' bn = b) (hother : ∀ bn', bn' ≠ bn → addrOf d' ip' bn' = addrOf d ip bn')
    (hind : ip'.addrs NDIRECT = ip.addrs NDIRECT) (hbitmap : d'.bitmap = d.bitmap)
    (hsize : d'.size = d.size) :
    Wf d' ip' len := by
  -- the old addresses other than `b`'s block are untouched, and `b` is none of them
  have hne : ∀ bn', addrOf d ip bn' ≠ b := fun bn' h => hnew ⟨hb0, .inr ⟨bn', h⟩⟩
  have hind_ne : ip.addrs NDIRECT ≠ b := fun h => hnew ⟨hb0, .inl h.symm⟩
  refine ⟨hbitmap ▸ hwf.zero_used, hsize ▸ hwf.size_le, ?_, ?_, ?_, ?_, hwf.len_le⟩
  · rintro c ⟨hc0, hc | ⟨bn', rfl⟩⟩
    · rw [hbitmap]
      exact hwf.marked c ⟨hc0, .inl (hind ▸ hc)⟩
    · rw [hbitmap]
      by_cases hbn : bn' = bn
      · subst hbn
        rw [hself]
        exact hmark
      · rw [hother bn' hbn]
        exact hwf.marked _ ⟨by rwa [← hother bn' hbn], .inr ⟨bn', rfl⟩⟩
  · intro bn' h
    rw [hind]
    by_cases hbn : bn' = bn
    · subst hbn
      rw [hself]
      exact hind_ne.symm
    · rw [hother bn' hbn] at h ⊢
      exact hwf.addr_ne_indirect bn' h
  · intro bn₁ bn₂ h heq
    by_cases h₁ : bn₁ = bn <;> by_cases h₂ : bn₂ = bn
    · rw [h₁, h₂]
    · rw [h₁, hself, hother bn₂ h₂] at heq
      exact absurd heq.symm (hne bn₂)
    · rw [h₂, hself, hother bn₁ h₁] at heq
      exact absurd heq (hne bn₁)
    · rw [hother bn₁ h₁, hother bn₂ h₂] at heq
      rw [hother bn₁ h₁] at h
      exact hwf.addr_inj bn₁ bn₂ h heq
  · intro bn' hlt
    by_cases hbn : bn' = bn
    · rw [hbn, hself]
      exact hb0
    · rw [hother bn' hbn]
      exact hwf.mapped bn' hlt

/-- A direct address set to a fresh block. -/
theorem Wf.setDirect {d : Dev} {ip : Ino} {len bn b : Nat} (hwf : Wf d ip len)
    (hbn : bn < NDIRECT) (hb0 : b ≠ 0) (hnew : ¬ Refs d ip b) (hmark : d.bitmap b = true) :
    Wf d { ip with addrs := Function.update ip.addrs bn b } len ∧
      addrOf d { ip with addrs := Function.update ip.addrs bn b } bn = b ∧
      ∀ bn', bn' ≠ bn →
        addrOf d { ip with addrs := Function.update ip.addrs bn b } bn' = addrOf d ip bn' := by
  have hind : Function.update ip.addrs bn b NDIRECT = ip.addrs NDIRECT :=
    Function.update_of_ne (by omega) _ _
  have hself : addrOf d { ip with addrs := Function.update ip.addrs bn b } bn = b := by
    rw [addrOf_of_lt hbn]
    exact Function.update_self _ _ _
  have hother : ∀ bn', bn' ≠ bn →
      addrOf d { ip with addrs := Function.update ip.addrs bn b } bn' = addrOf d ip bn' := by
    intro bn' hne
    unfold addrOf
    simp only [hind, Function.update_of_ne hne]
  exact ⟨hwf.setAddr hb0 hnew hmark hself hother hind rfl rfl, hself, hother⟩

/-- An entry of the indirect block set to a fresh block. -/
theorem Wf.setEntry {d : Dev} {ip : Ino} {len bn b : Nat} (hwf : Wf d ip len)
    (hlo : NDIRECT ≤ bn) (hhi : bn < MAXFILE) (hind : ip.addrs NDIRECT ≠ 0)
    (hb0 : b ≠ 0) (hb : b < 2 ^ 32) (hnew : ¬ Refs d ip b) (hmark : d.bitmap b = true) :
    let d' := d.write (ip.addrs NDIRECT)
      (setWord (d.buf (ip.addrs NDIRECT)) (4 * (bn - NDIRECT)) b)
    Wf d' ip len ∧ addrOf d' ip bn = b ∧ (∀ bn', bn' ≠ bn → addrOf d' ip bn' = addrOf d ip bn') ∧
      ∀ c, c ≠ ip.addrs NDIRECT → d'.buf c = d.buf c := by
  intro d'
  have hbuf : d'.buf (ip.addrs NDIRECT) =
      setWord (d.buf (ip.addrs NDIRECT)) (4 * (bn - NDIRECT)) b := by
    simp only [d', Dev.write_buf]
    exact Function.update_self _ _ _
  have hself : addrOf d' ip bn = b := by
    rw [addrOf_of_le hlo, if_pos ⟨hhi, hind⟩, hbuf, getWord_setWord_self _ _ (by
      simp only [MAXFILE, NDIRECT, NINDIRECT, BSIZE] at hhi ⊢; omega)]
    exact Nat.mod_eq_of_lt hb
  have hother : ∀ bn', bn' ≠ bn → addrOf d' ip bn' = addrOf d ip bn' := by
    intro bn' hne
    by_cases hlt : bn' < NDIRECT
    · rw [addrOf_of_lt hlt, addrOf_of_lt hlt]
    · rw [addrOf_of_le (by omega), addrOf_of_le (by omega), hbuf]
      split_ifs
      · exact getWord_setWord_of_disjoint _ _ (by omega)
      · rfl
  have hrest : ∀ c, c ≠ ip.addrs NDIRECT → d'.buf c = d.buf c := by
    intro c hc
    simp only [d', Dev.write_buf]
    exact Function.update_of_ne hc _ _
  exact ⟨hwf.setAddr hb0 hnew hmark hself hother rfl rfl rfl, hself, hother, hrest⟩

/-- A fresh, zeroed indirect block. -/
theorem Wf.setIndirect {d : Dev} {ip : Ino} {len i : Nat} (hwf : Wf d ip len)
    (hnone : ip.addrs NDIRECT = 0) (hi0 : i ≠ 0) (hnew : ¬ Refs d ip i)
    (hmark : d.bitmap i = true) (hzero : d.buf i = fun _ => 0) :
    Wf d { ip with addrs := Function.update ip.addrs NDIRECT i } len ∧
      addrOf d { ip with addrs := Function.update ip.addrs NDIRECT i } = addrOf d ip := by
  have hind : ({ ip with addrs := Function.update ip.addrs NDIRECT i } : Ino).addrs NDIRECT = i := by
    show Function.update ip.addrs NDIRECT i NDIRECT = i
    exact Function.update_self _ _ _
  have haddr : addrOf d { ip with addrs := Function.update ip.addrs NDIRECT i } = addrOf d ip := by
    funext bn
    by_cases hlt : bn < NDIRECT
    · rw [addrOf_of_lt hlt, addrOf_of_lt hlt]
      exact Function.update_of_ne (by omega) _ _
    · -- the new indirect block reads as zero entries, the old one was absent
      rw [addrOf_of_le (by omega), addrOf_of_le (by omega),
        if_neg (show ¬(bn < MAXFILE ∧ ip.addrs NDIRECT ≠ 0) from fun h => h.2 hnone),
        hind, hzero, getWord_zero]
      exact ite_self 0
  have hne : ∀ bn, addrOf d ip bn ≠ i := fun bn h => hnew ⟨hi0, .inr ⟨bn, h⟩⟩
  refine ⟨⟨hwf.zero_used, hwf.size_le, ?_, ?_, ?_, ?_, hwf.len_le⟩, haddr⟩
  · rintro c ⟨hc0, hc | ⟨bn, rfl⟩⟩
    · rw [hind] at hc
      rw [hc]
      exact hmark
    · rw [haddr]
      exact hwf.marked _ ⟨by rwa [haddr] at hc0, .inr ⟨bn, rfl⟩⟩
  · intro bn h
    rw [haddr, hind]
    exact hne bn
  · rw [haddr]
    exact hwf.addr_inj
  · rw [haddr]
    exact hwf.mapped

/-- A change of the device that keeps the addresses, the free map and the size
keeps the file well formed. -/
theorem Wf.congr {d d' : Dev} {ip : Ino} {len : Nat} (hwf : Wf d ip len)
    (haddr : addrOf d' ip = addrOf d ip) (hbitmap : d'.bitmap = d.bitmap)
    (hsize : d'.size = d.size) : Wf d' ip len :=
  hwf.transfer haddr (fun b hb => hbitmap ▸ hwf.marked b hb) (hbitmap ▸ hwf.zero_used) hsize

theorem Wf.logWrite {d : Dev} {ip : Ino} {len : Nat} (hwf : Wf d ip len) (b : Nat) :
    Wf (d.logWrite b) ip len :=
  hwf.congr rfl rfl rfl

/-- Writing the buffer of a data block keeps every address. -/
theorem Wf.writeData {d : Dev} {ip : Ino} {len bn : Nat} (hwf : Wf d ip len)
    (ha : addrOf d ip bn ≠ 0) (blk : Block) :
    Wf (d.write (addrOf d ip bn) blk) ip len ∧
      addrOf (d.write (addrOf d ip bn) blk) ip = addrOf d ip := by
  have haddr : addrOf (d.write (addrOf d ip bn) blk) ip = addrOf d ip :=
    addrOf_congr fun _ => by
      rw [Dev.write_buf, Function.update_of_ne (hwf.addr_ne_indirect bn ha).symm]
  exact ⟨hwf.congr haddr rfl rfl, haddr⟩

/-- Raising the length up to which blocks are mapped. -/
theorem Wf.extend {d : Dev} {ip : Ino} {len len' : Nat} (hwf : Wf d ip len)
    (hmapped : ∀ bn, bn * BSIZE < len' → addrOf d ip bn ≠ 0) (hle : len' ≤ MAXFILE * BSIZE) :
    Wf d ip len' :=
  { hwf with mapped := hmapped, len_le := hle }

/-! ## What an allocating step changes -/

/-- How a step that only allocates changes the device and the file: bits are
only set, and each bit it sets is a block the file now refers to; the file
keeps its blocks and gains only formerly free ones; only buffers of blocks it
refers to change.  Other files' blocks are therefore untouched. -/
structure Frame (d : Dev) (ip : Ino) (d' : Dev) (ip' : Ino) : Prop where
  bitmap_mono : ∀ b, d.bitmap b = true → d'.bitmap b = true
  bitmap_new : ∀ b, d'.bitmap b = true → d.bitmap b = false → Refs d' ip' b
  refs_mono : ∀ b, Refs d ip b → Refs d' ip' b
  refs_new : ∀ b, Refs d' ip' b → Refs d ip b ∨ d.bitmap b = false
  buf_frame : ∀ b, ¬ Refs d' ip' b → d'.buf b = d.buf b

theorem Frame.refl (d : Dev) (ip : Ino) : Frame d ip d ip :=
  ⟨fun _ h => h, fun _ h h' => by simp [h] at h', fun _ h => h, fun _ h => .inl h,
    fun _ _ => rfl⟩

theorem Frame.trans {d d₁ d₂ : Dev} {ip ip₁ ip₂ : Ino} (h₁ : Frame d ip d₁ ip₁)
    (h₂ : Frame d₁ ip₁ d₂ ip₂) : Frame d ip d₂ ip₂ := by
  refine ⟨fun b hb => h₂.bitmap_mono b (h₁.bitmap_mono b hb), fun b hb hfree => ?_,
    fun b hb => h₂.refs_mono b (h₁.refs_mono b hb), fun b hb => ?_, fun b hb => ?_⟩
  · -- a bit new since `d` is new since `d₁`, or was set by the first step
    cases h : d₁.bitmap b with
    | false => exact h₂.bitmap_new b hb h
    | true => exact h₂.refs_mono b (h₁.bitmap_new b h hfree)
  · rcases h₂.refs_new b hb with h | h
    · exact h₁.refs_new b h
    · right
      cases h' : d.bitmap b with
      | false => rfl
      | true => simp [h₁.bitmap_mono b h'] at h
  · rw [h₂.buf_frame b hb, h₁.buf_frame b (fun h => hb (h₂.refs_mono b h))]

/-- Taking the free block `b` into the file. -/
theorem Frame.of_take {d d' : Dev} {ip ip' : Ino} {b : Nat} (hfree : d.bitmap b = false)
    (hbits : d'.bitmap = Function.update d.bitmap b true)
    (hrefs : ∀ c, Refs d' ip' c ↔ Refs d ip c ∨ c = b)
    (hbuf : ∀ c, ¬ Refs d' ip' c → d'.buf c = d.buf c) : Frame d ip d' ip' := by
  refine ⟨fun c hc => ?_, fun c hc hcf => ?_, fun c hc => (hrefs c).mpr (.inl hc),
    fun c hc => ?_, hbuf⟩
  · rw [hbits, bitmap_update_iff]
    exact .inl hc
  · rw [hbits, bitmap_update_iff] at hc
    rcases hc with h | rfl
    · simp [h] at hcf
    · exact (hrefs c).mpr (.inr rfl)
  · rcases (hrefs c).mp hc with h | rfl
    · exact .inl h
    · exact .inr hfree

/-- Changing only buffers of blocks the file refers to, and none of its
addresses. -/
theorem Frame.of_buf {d d' : Dev} {ip : Ino} (haddr : addrOf d' ip = addrOf d ip)
    (hbitmap : d'.bitmap = d.bitmap) (hbuf : ∀ c, ¬ Refs d ip c → d'.buf c = d.buf c) :
    Frame d ip d' ip := by
  have hrefs : ∀ c, Refs d' ip c ↔ Refs d ip c := by
    intro c
    simp only [Refs, haddr]
  refine ⟨fun c hc => by rwa [hbitmap], fun c hc hcf => ?_, fun c hc => (hrefs c).mpr hc,
    fun c hc => .inl ((hrefs c).mp hc), fun c hc => hbuf c (fun h => hc ((hrefs c).mpr h))⟩
  rw [hbitmap] at hc
  simp [hc] at hcf

/-- The blocks of a file after block `bn`, which had none, got the address `b`. -/
theorem refs_setAddr {d d' : Dev} {ip ip' : Ino} {bn b : Nat} (hb0 : b ≠ 0)
    (hold : addrOf d ip bn = 0) (hself : addrOf d' ip' bn = b)
    (hother : ∀ bn', bn' ≠ bn → addrOf d' ip' bn' = addrOf d ip bn')
    (hind : ip'.addrs NDIRECT = ip.addrs NDIRECT) (c : Nat) :
    Refs d' ip' c ↔ Refs d ip c ∨ c = b := by
  unfold Refs
  rw [hind]
  constructor
  · rintro ⟨hc0, hc | ⟨bn', rfl⟩⟩
    · exact .inl ⟨hc0, .inl hc⟩
    · by_cases h : bn' = bn
      · subst h
        exact .inr hself
      · exact .inl ⟨hc0, .inr ⟨bn', (hother bn' h).symm⟩⟩
  · rintro (⟨hc0, hc | ⟨bn', rfl⟩⟩ | rfl)
    · exact ⟨hc0, .inl hc⟩
    · have hne : bn' ≠ bn := fun h => hc0 (h ▸ hold)
      exact ⟨hc0, .inr ⟨bn', hother bn' hne⟩⟩
    · exact ⟨hb0, .inr ⟨bn, hself⟩⟩

/-- The blocks of a file after a fresh indirect block `i` replaced an absent one. -/
theorem refs_setIndirect {d d' : Dev} {ip ip' : Ino} {i : Nat} (hi0 : i ≠ 0)
    (hnone : ip.addrs NDIRECT = 0) (haddr : addrOf d' ip' = addrOf d ip)
    (hind : ip'.addrs NDIRECT = i) (c : Nat) :
    Refs d' ip' c ↔ Refs d ip c ∨ c = i := by
  unfold Refs
  rw [hind, haddr, hnone]
  constructor
  · rintro ⟨hc0, rfl | hc⟩
    · exact .inr rfl
    · exact .inl ⟨hc0, .inr hc⟩
  · rintro (⟨hc0, rfl | hc⟩ | rfl)
    · exact absurd rfl hc0
    · exact ⟨hc0, .inr hc⟩
    · exact ⟨hi0, .inl rfl⟩

/-! ## `bmap` -/

/-- What `bmap d ip bn` leaves when it returns `addr`, `ip'` and `d'`. -/
structure BmapPost (d : Dev) (ip : Ino) (len bn addr : Nat) (ip' : Ino) (d' : Dev) : Prop where
  wf : Wf d' ip' len
  addr_self : addrOf d' ip' bn = addr
  addr_other : ∀ bn', bn' ≠ bn → addrOf d' ip' bn' = addrOf d ip bn'
  buf_mapped : ∀ bn', addrOf d ip bn' ≠ 0 → d'.buf (addrOf d ip bn') = d.buf (addrOf d ip bn')
  fresh : addrOf d ip bn = 0 → addr ≠ 0 → d'.buf addr = fun _ => 0
  full : addr = 0 → ∀ b < d'.size, d'.bitmap b = true
  size : d'.size = d.size
  ino_size : ip'.size = ip.size
  ino_type : ip'.type = ip.type
  frame : Frame d ip d' ip'

/-- `bmap` changed nothing: it found the address, or failed with the free map
full. -/
theorem BmapPost.of_unchanged {d : Dev} {ip : Ino} {len bn : Nat} (hwf : Wf d ip len)
    (hfull : addrOf d ip bn = 0 → ∀ b < d.size, d.bitmap b = true) :
    BmapPost d ip len bn (addrOf d ip bn) ip d :=
  ⟨hwf, rfl, fun _ _ => rfl, fun _ _ => rfl, fun h h' => absurd h h', hfull, rfl, rfl, rfl,
    Frame.refl d ip⟩

/-- `bmap` failed on an unmapped block with the free map full. -/
theorem BmapPost.of_full {d : Dev} {ip : Ino} {len bn : Nat} (hwf : Wf d ip len)
    (hnone : addrOf d ip bn = 0) (hfull : ∀ b < d.size, d.bitmap b = true) :
    BmapPost d ip len bn 0 ip d :=
  hnone ▸ BmapPost.of_unchanged hwf fun _ => hfull

/-- A first stage that changed no address and no mapped block composes with
what follows it. -/
theorem BmapPost.of_stage {d d₁ d' : Dev} {ip ip₁ ip' : Ino} {len bn addr : Nat}
    (haddr : addrOf d₁ ip₁ = addrOf d ip)
    (hbuf : ∀ bn', addrOf d ip bn' ≠ 0 → d₁.buf (addrOf d ip bn') = d.buf (addrOf d ip bn'))
    (hsize : d₁.size = d.size) (hisize : ip₁.size = ip.size) (htype : ip₁.type = ip.type)
    (hframe : Frame d ip d₁ ip₁)
    (h : BmapPost d₁ ip₁ len bn addr ip' d') : BmapPost d ip len bn addr ip' d' := by
  refine ⟨h.wf, h.addr_self, fun bn' hne => ?_, fun bn' hmap => ?_, fun h0 => ?_, h.full,
    h.size.trans hsize, h.ino_size.trans hisize, h.ino_type.trans htype, hframe.trans h.frame⟩
  · rw [h.addr_other bn' hne, haddr]
  · have hmap₁ : addrOf d₁ ip₁ bn' ≠ 0 := by rwa [haddr]
    have := h.buf_mapped bn' hmap₁
    rw [haddr] at this
    rw [this, hbuf bn' hmap]
  · exact h.fresh (by rwa [haddr])

/-- A block taken for address `bn` whose only other change is `setAddr`-like. -/
theorem BmapPost.of_alloc {d d' : Dev} {ip ip' : Ino} {len bn b : Nat} (hwf : Wf d ip len)
    (hfree : d.bitmap b = false) (hwf' : Wf d' ip' len) (hself : addrOf d' ip' bn = b)
    (hother : ∀ bn', bn' ≠ bn → addrOf d' ip' bn' = addrOf d ip bn')
    (hbuf : ∀ c, c ≠ b → (∃ bn', addrOf d ip bn' = c ∧ c ≠ 0) → d'.buf c = d.buf c)
    (hzero : d'.buf b = fun _ => 0) (hsize : d'.size = d.size) (hisize : ip'.size = ip.size)
    (htype : ip'.type = ip.type) (hframe : Frame d ip d' ip') :
    BmapPost d ip len bn b ip' d' := by
  have hb0 := hwf.ne_zero_of_free hfree
  refine ⟨hwf', hself, hother, fun bn' hmap => ?_, fun _ _ => hzero, fun h => absurd h hb0,
    hsize, hisize, htype, hframe⟩
  exact hbuf _ (hwf.addrOf_ne_of_free hfree bn') ⟨bn', rfl, hmap⟩

theorem bmap_of_lt {d : Dev} {ip : Ino} {len bn : Nat} (hwf : Wf d ip len) (hbn : bn < NDIRECT) :
    ∃ addr ip' d', bmap d ip bn = .ok (addr, ip', d') ∧ BmapPost d ip len bn addr ip' d' := by
  by_cases hnone : ip.addrs bn = 0
  · rcases balloc_spec d with ⟨hb, hfull⟩ | ⟨b, _, hfree, hb⟩
    · refine ⟨0, ip, d, ?_, ?_⟩
      · simp only [bmap, if_pos hbn, if_pos hnone, hb, ite_true]
      · exact BmapPost.of_full hwf (by rw [addrOf_of_lt hbn, hnone]) hfull
    · have hb0 := hwf.ne_zero_of_free hfree
      obtain ⟨hwf₁, haddr₁, hnew⟩ := hwf.markZero hfree
      obtain ⟨hwf', hself, hother⟩ :=
        hwf₁.setDirect hbn hb0 hnew (by simp)
      have hother' : ∀ bn', bn' ≠ bn → addrOf (markZero d b)
          { ip with addrs := Function.update ip.addrs bn b } bn' = addrOf d ip bn' := by
        intro bn' hne
        rw [hother bn' hne, haddr₁]
      refine ⟨b, _, _, ?_, BmapPost.of_alloc hwf hfree hwf' hself hother' ?_ ?_ rfl rfl rfl ?_⟩
      · simp only [bmap, if_pos hbn, if_pos hnone, hb, if_neg hb0]
      · intro c hc _
        rw [markZero_buf, Function.update_of_ne hc]
      · rw [markZero_buf, Function.update_self]
      · -- the new block is the only change of the free map and of the blocks of the file
        refine Frame.of_take hfree rfl (refs_setAddr hb0 (by rw [addrOf_of_lt hbn, hnone]) hself
          hother' (Function.update_of_ne (by omega) _ _)) fun c hc => ?_
        have hcb : c ≠ b := by
          rintro rfl
          exact hc ⟨hb0, .inr ⟨bn, hself⟩⟩
        rw [markZero_buf, Function.update_of_ne hcb]
  · refine ⟨ip.addrs bn, ip, d, ?_, ?_⟩
    · simp only [bmap, if_pos hbn, if_neg hnone]
    · have hpost : BmapPost d ip len bn (addrOf d ip bn) ip d :=
        BmapPost.of_unchanged hwf fun h => absurd (by rwa [addrOf_of_lt hbn] at h) hnone
      rwa [addrOf_of_lt hbn] at hpost

/-- The entry of a present indirect block. -/
theorem bmapEntry_spec {d : Dev} {ip : Ino} {len bn : Nat} (hwf : Wf d ip len)
    (hlo : NDIRECT ≤ bn) (hhi : bn < MAXFILE) (hind : ip.addrs NDIRECT ≠ 0) :
    ∃ addr ip' d', bmapEntry d ip (ip.addrs NDIRECT) (bn - NDIRECT) = .ok (addr, ip', d') ∧
      BmapPost d ip len bn addr ip' d' := by
  have hentry : getWord (d.buf (ip.addrs NDIRECT)) (4 * (bn - NDIRECT)) = addrOf d ip bn := by
    rw [addrOf_of_le hlo, if_pos ⟨hhi, hind⟩]
  by_cases hnone : addrOf d ip bn = 0
  · rcases balloc_spec d with ⟨hb, hfull⟩ | ⟨b, hlt, hfree, hb⟩
    · refine ⟨0, ip, d, ?_, ?_⟩
      · simp only [bmapEntry, hentry, hnone, hb, ite_true]
      · exact BmapPost.of_full hwf hnone hfull
    · have hb0 := hwf.ne_zero_of_free hfree
      have hind_ne := hwf.indirect_ne_of_free hfree
      obtain ⟨hwf₁, haddr₁, hnew⟩ := hwf.markZero hfree
      have hlt32 : b < 2 ^ 32 := lt_of_lt_of_le hlt hwf.size_le
      obtain ⟨hwf', hself, hother, hrest⟩ :=
        hwf₁.setEntry hlo hhi hind hb0 hlt32 hnew (by simp)
      have hother' : ∀ bn', bn' ≠ bn → addrOf ((markZero d b).write (ip.addrs NDIRECT)
          (setWord ((markZero d b).buf (ip.addrs NDIRECT)) (4 * (bn - NDIRECT)) b)) ip bn' =
          addrOf d ip bn' := by
        intro bn' hne
        rw [hother bn' hne, haddr₁]
      refine ⟨b, ip, _, ?_, BmapPost.of_alloc hwf hfree (hwf'.logWrite (ip.addrs NDIRECT)) hself
        hother' ?_ ?_ rfl rfl rfl ?_⟩
      · simp only [bmapEntry, hentry, hnone, hb, if_neg hb0, ite_true]
      · rintro c hc ⟨bn', rfl, hc0⟩
        rw [Dev.logWrite_buf, hrest _ (hwf.addr_ne_indirect bn' hc0), markZero_buf,
          Function.update_of_ne hc]
      · rw [Dev.logWrite_buf, hrest _ hind_ne.symm, markZero_buf, Function.update_self]
      · -- the new block is the only change of the free map and of the blocks of the file;
        -- the buffers changed are its own and the indirect block's
        refine Frame.of_take hfree rfl (refs_setAddr hb0 hnone hself hother' rfl) fun c hc => ?_
        have hcb : c ≠ b := by
          rintro rfl
          exact hc ⟨hb0, .inr ⟨bn, hself⟩⟩
        have hci : c ≠ ip.addrs NDIRECT := by
          rintro rfl
          exact hc ⟨hind, .inl rfl⟩
        rw [Dev.logWrite_buf, hrest c hci, markZero_buf, Function.update_of_ne hcb]
  · refine ⟨addrOf d ip bn, ip, d, ?_, BmapPost.of_unchanged hwf (fun h => absurd h hnone)⟩
    simp only [bmapEntry, hentry, if_neg hnone]

theorem bmap_of_le {d : Dev} {ip : Ino} {len bn : Nat} (hwf : Wf d ip len)
    (hlo : NDIRECT ≤ bn) (hhi : bn < MAXFILE) :
    ∃ addr ip' d', bmap d ip bn = .ok (addr, ip', d') ∧ BmapPost d ip len bn addr ip' d' := by
  have hrange : bn - NDIRECT < NINDIRECT := by
    simp only [MAXFILE, NDIRECT, NINDIRECT] at hlo hhi ⊢
    omega
  by_cases hind : ip.addrs NDIRECT = 0
  · have hnone : addrOf d ip bn = 0 := by
      rw [addrOf_of_le hlo, if_neg (fun h => h.2 hind)]
    rcases balloc_spec d with ⟨hb, hfull⟩ | ⟨i, _, hfree, hb⟩
    · -- no block for the indirect block
      refine ⟨0, ip, d, ?_, ?_⟩
      · rw [bmap, if_neg (by omega), if_pos hrange]
        simp only [indirectBlock, if_pos hind, hb, ite_true]
      · exact BmapPost.of_full hwf hnone hfull
    · -- a fresh indirect block, then its entry
      have hi0 := hwf.ne_zero_of_free hfree
      obtain ⟨hwf₁, haddr₁, hnew⟩ := hwf.markZero hfree
      obtain ⟨hwf₂, haddr₂⟩ := hwf₁.setIndirect hind hi0 hnew (by simp)
        (by rw [markZero_buf, Function.update_self])
      have hind₂ : ({ ip with addrs := Function.update ip.addrs NDIRECT i } : Ino).addrs NDIRECT
          = i := by
        show Function.update ip.addrs NDIRECT i NDIRECT = i
        exact Function.update_self _ _ _
      obtain ⟨addr, ip', d', hentry, hpost⟩ :=
        bmapEntry_spec hwf₂ hlo hhi (by rw [hind₂]; exact hi0)
      refine ⟨addr, ip', d', ?_, BmapPost.of_stage (haddr₂.trans haddr₁) ?_ rfl rfl rfl ?_ hpost⟩
      · rw [bmap, if_neg (by omega), if_pos hrange]
        simp only [indirectBlock, if_pos hind, hb, if_neg hi0]
        rw [← hentry, hind₂]
      · intro bn' hmap
        rw [markZero_buf, Function.update_of_ne (hwf.addrOf_ne_of_free hfree bn')]
      · refine Frame.of_take hfree rfl (refs_setIndirect hi0 hind (haddr₂.trans haddr₁) hind₂)
          fun c hc => ?_
        have hci : c ≠ i := by
          rintro rfl
          exact hc ⟨hi0, .inl hind₂.symm⟩
        rw [markZero_buf, Function.update_of_ne hci]
  · obtain ⟨addr, ip', d', hentry, hpost⟩ := bmapEntry_spec hwf hlo hhi hind
    refine ⟨addr, ip', d', ?_, hpost⟩
    rw [bmap, if_neg (by omega), if_pos hrange]
    simp only [indirectBlock, if_neg hind]
    exact hentry

/-- `bmap` of a block below `MAXFILE` returns, and `BmapPost` says how. -/
theorem bmap_spec {d : Dev} {ip : Ino} {len bn : Nat} (hwf : Wf d ip len) (hbn : bn < MAXFILE) :
    ∃ addr ip' d', bmap d ip bn = .ok (addr, ip', d') ∧ BmapPost d ip len bn addr ip' d' := by
  by_cases hlt : bn < NDIRECT
  · exact bmap_of_lt hwf hlt
  · exact bmap_of_le hwf (by omega) hbn

/-- A block with an address is found without any change. -/
theorem bmap_of_mapped {d : Dev} {ip : Ino} {bn : Nat} (hmap : addrOf d ip bn ≠ 0) : bmap d ip bn = .ok (addrOf d ip bn, ip, d) := by
  by_cases hlt : bn < NDIRECT
  · rw [addrOf_of_lt hlt] at hmap ⊢
    simp only [bmap, if_pos hlt, if_neg hmap]
  · have hind : ip.addrs NDIRECT ≠ 0 := by
      intro h
      apply hmap
      rw [addrOf_of_le (by omega), if_neg (fun h' => h'.2 h)]
    have hentry : getWord (d.buf (ip.addrs NDIRECT)) (4 * (bn - NDIRECT)) = addrOf d ip bn := by
      rw [addrOf_of_le (by omega), if_pos ⟨lt_maxfile_of_addrOf_ne_zero hmap, hind⟩]
    have hrange : bn - NDIRECT < NINDIRECT := by
      have := lt_maxfile_of_addrOf_ne_zero hmap
      simp only [MAXFILE, NDIRECT, NINDIRECT] at this hlt ⊢
      omega
    simp only [bmap, if_neg hlt, if_pos hrange, indirectBlock, if_neg hind, bmapEntry, hentry,
      if_neg hmap]

end Xv6.Blocks
