import Xv6.Blocks.Ops
import Xv6.Proofs.Blocks.Content
import Xv6.Lib.Transition

/-!
# Block allocation over all inodes

The allocation invariant `AllocInv`: the metadata blocks are in use, every
allocated inode is well formed on its own (its blocks are in use, distinct,
and distinct from its indirect block), its blocks lie past the metadata, and
no block belongs to two allocated inodes.

A `writei` only allocates: it changes the inode it runs on within a `Frame`,
setting bits only for blocks it then owns and writing only buffers of its own
blocks, so the other inodes' blocks, including the entries of their indirect
blocks, stay as they were.  An `itrunc` clears exactly the bits of the blocks
of its inode and writes no buffer.  So every operation keeps the invariant, and
under it no operation panics: `bfree` never meets a clear bit.
-/

namespace Xv6.Blocks

open LittleEndian Transition

/-! ## Frames of the steps of `writei` -/

theorem Frame.logWrite (d : Dev) (ip : Ino) (b : Nat) : Frame d ip (d.logWrite b) ip :=
  Frame.of_buf rfl rfl fun _ _ => rfl

/-- Writing the buffer of one of the file's data blocks. -/
theorem Frame.writeData {d : Dev} {ip : Ino} {len bn : Nat} (hwf : Wf d ip len)
    (ha : addrOf d ip bn ≠ 0) (blk : Block) :
    Frame d ip (d.write (addrOf d ip bn) blk) ip := by
  refine Frame.of_buf (hwf.writeData ha blk).2 rfl fun c hc => ?_
  have hne : c ≠ addrOf d ip bn := by
    rintro rfl
    exact hc ⟨ha, .inr ⟨bn, rfl⟩⟩
  rw [Dev.write_buf, Function.update_of_ne hne]

theorem Frame.size {d d' : Dev} {ip ip' : Ino} (h : Frame d ip d' ip') (s : Nat) :
    Frame d ip d' { ip' with size := s } :=
  ⟨h.bitmap_mono, h.bitmap_new, h.refs_mono, h.refs_new, h.buf_frame⟩

/-- What `writei`'s loop leaves, whatever its copies do: a file still well
formed, changed within a frame. -/
theorem writeLoop_frame (src : Src) (n : Nat) :
    ∀ fuel off tot ip d, Wf d ip 0 → off + (n - tot) ≤ MAXFILE * BSIZE →
      ∃ tot' off' ip' d', writeLoop src n fuel off tot ip d = .ok (tot', off', ip', d') ∧
        Wf d' ip' 0 ∧ Frame d ip d' ip' ∧ d'.size = d.size ∧ ip'.type = ip.type := by
  intro fuel
  induction fuel with
  | zero =>
    intro off tot ip d hwf _
    exact ⟨tot, off, ip, d, rfl, hwf, Frame.refl d ip, rfl, rfl⟩
  | succ fuel ih =>
    intro off tot ip d hwf hmax
    by_cases htot : tot < n
    · have hbn : off / BSIZE < MAXFILE := by
        simp only [MAXFILE, NDIRECT, NINDIRECT, BSIZE] at hmax ⊢
        omega
      obtain ⟨addr, ip₁, d₁, hbmap, hpost⟩ := bmap_spec hwf hbn
      by_cases ha : addr = 0
      · -- out of blocks
        subst ha
        refine ⟨tot, off, ip₁, d₁, ?_, hpost.wf, hpost.frame, hpost.size, hpost.ino_type⟩
        simp only [writeLoop, if_pos htot, hbmap, StateExcept.ok_bind, ite_true,
          StateExcept.pure_eq_ok]
      · -- the chunk goes into the buffer of the block, whether or not its copy succeeds
        have ha' : addrOf d₁ ip₁ (off / BSIZE) ≠ 0 := hpost.addr_self ▸ ha
        let m := min (n - tot) (BSIZE - off % BSIZE)
        have hm : m ≤ n - tot := min_le_left _ _
        cases hcopy : eitherCopyin src tot m with
        | mk bytes ok =>
        let d₂ := d₁.write addr (setBytes (d₁.buf addr) (off % BSIZE) bytes)
        have hwf₂ : Wf d₂ ip₁ 0 := by
          have h := (hpost.wf.writeData ha' (setBytes (d₁.buf addr) (off % BSIZE) bytes)).1
          rwa [hpost.addr_self] at h
        have hframe₂ : Frame d₁ ip₁ d₂ ip₁ := by
          have h := Frame.writeData hpost.wf ha' (setBytes (d₁.buf addr) (off % BSIZE) bytes)
          rwa [hpost.addr_self] at h
        cases ok with
        | false =>
          refine ⟨tot, off, ip₁, d₂, ?_, hwf₂, hpost.frame.trans hframe₂, hpost.size,
            hpost.ino_type⟩
          simp only [writeLoop, if_pos htot, hbmap, StateExcept.ok_bind, if_neg ha]
          rw [hcopy]
          rfl
        | true =>
          obtain ⟨tot', off', ip', d', hrun, hwf', hframe', hsize', htype'⟩ :=
            ih (off + m) (tot + m) ip₁ (d₂.logWrite addr) (hwf₂.logWrite addr) (by omega)
          refine ⟨tot', off', ip', d', ?_, hwf',
            hpost.frame.trans (hframe₂.trans ((Frame.logWrite d₂ ip₁ addr).trans hframe')),
            hsize'.trans hpost.size, htype'.trans hpost.ino_type⟩
          simp only [writeLoop, if_pos htot, hbmap, StateExcept.ok_bind, if_neg ha]
          rw [hcopy]
          exact hrun
    · refine ⟨tot, off, ip, d, ?_, hwf, Frame.refl d ip, rfl, rfl⟩
      rw [writeLoop, if_neg htot]

/-- `writei` on a well-formed file, with any source and any offset: it returns,
and changes the file within a frame. -/
theorem writei_frame {d : Dev} {ip : Ino} (src : Src) (off : Nat) {n : Nat} (hwf : Wf d ip 0)
    (hn : n < 2 ^ 32) :
    ∃ r ip' d', writei d ip src off n = .ok (r, ip', d') ∧ Wf d' ip' 0 ∧ Frame d ip d' ip' ∧
      d'.size = d.size ∧ ip'.type = ip.type := by
  unfold writei
  by_cases hbad : off > ip.size ∨ (off + n) % 2 ^ 32 < off
  · exact ⟨-1, ip, d, by rw [if_pos hbad], hwf, Frame.refl d ip, rfl, rfl⟩
  by_cases hbig : (off + n) % 2 ^ 32 > MAXFILE * BSIZE
  · exact ⟨-1, ip, d, by rw [if_neg hbad, if_pos hbig], hwf, Frame.refl d ip, rfl, rfl⟩
  -- accepted: `off + n` does not wrap, so the loop stays below `MAXFILE` blocks
  have hmod : (off + n) % 2 ^ 32 < 2 ^ 32 := Nat.mod_lt _ (by decide)
  have hwrap : off + n < 2 ^ 32 := by
    by_contra h
    rw [Nat.mod_eq_sub_mod (by omega), Nat.mod_eq_of_lt (by omega)] at hbad
    omega
  rw [Nat.mod_eq_of_lt hwrap] at hbig
  obtain ⟨tot, off', ip', d', hrun, hwf', hframe, hsize, htype⟩ :=
    writeLoop_frame src n n off 0 ip d hwf (by omega)
  refine ⟨tot, if off' > ip'.size then { ip' with size := off' } else ip', d', ?_, ?_, ?_,
    hsize, ?_⟩
  · rw [if_neg hbad, Nat.mod_eq_of_lt hwrap, if_neg hbig]
    simp only [hrun, StateExcept.ok_bind]
    rfl
  · split_ifs
    · exact hwf'.size _
    · exact hwf'
  · split_ifs
    · exact hframe.size _
    · exact hframe
  · split_ifs
    · exact htype
    · exact htype

/-! ## The invariant -/

/-- The allocation invariant over all dinodes. -/
structure AllocInv (s : Disk) : Prop where
  nmeta_pos : 0 < s.nmeta
  meta_marked : ∀ b < s.nmeta, s.dev.bitmap b = true
  size_le : s.dev.size ≤ 2 ^ 32
  wf : ∀ i, (s.ino i).type ≠ 0 → Wf s.dev (s.ino i) 0
  past_meta : ∀ i b, (s.ino i).type ≠ 0 → Refs s.dev (s.ino i) b → s.nmeta ≤ b
  disjoint : ∀ i j b, i ≠ j → (s.ino i).type ≠ 0 → (s.ino j).type ≠ 0 →
    Refs s.dev (s.ino i) b → ¬ Refs s.dev (s.ino j) b

@[simp] theorem setIno_dev (s : Disk) (i : Nat) (ip : Ino) (d : Dev) :
    (s.setIno i ip d).dev = d := rfl

@[simp] theorem setIno_nmeta (s : Disk) (i : Nat) (ip : Ino) (d : Dev) :
    (s.setIno i ip d).nmeta = s.nmeta := rfl

theorem setIno_ino_self (s : Disk) (i : Nat) (ip : Ino) (d : Dev) :
    (s.setIno i ip d).ino i = ip :=
  Function.update_self _ _ _

theorem setIno_ino_of_ne (s : Disk) {i j : Nat} (h : j ≠ i) (ip : Ino) (d : Dev) :
    (s.setIno i ip d).ino j = s.ino j :=
  Function.update_of_ne h _ _

theorem not_refs_of_addrs_zero {d : Dev} {ip : Ino} (haddrs : ∀ k, ip.addrs k = 0) (b : Nat) :
    ¬ Refs d ip b := by
  rintro ⟨hb0, hb | ⟨bn, rfl⟩⟩
  · exact hb0 (hb.trans (haddrs _))
  · apply hb0
    by_cases hlt : bn < NDIRECT
    · rw [addrOf_of_lt hlt, haddrs]
    · rw [addrOf_of_le (by omega), if_neg (fun h => h.2 (haddrs _))]

section Invariant

variable {s : Disk} {i : Nat}

/-- A block of another allocated inode is neither one of `i`'s nor free. -/
theorem AllocInv.other_block (hinv : AllocInv s) {j b : Nat} (hji : j ≠ i)
    (hi : (s.ino i).type ≠ 0) (hj : (s.ino j).type ≠ 0) (hb : Refs s.dev (s.ino j) b) :
    ¬ (Refs s.dev (s.ino i) b ∨ s.dev.bitmap b = false) := by
  rintro (h | h)
  · exact hinv.disjoint j i b hji hj hi hb h
  · simp [(hinv.wf j hj).marked b hb] at h

/-- A frame on inode `i` leaves the addresses of every other allocated inode. -/
theorem AllocInv.addrOf_other (hinv : AllocInv s) {d' : Dev} {ip' : Ino}
    (hi : (s.ino i).type ≠ 0) (hframe : Frame s.dev (s.ino i) d' ip') {j : Nat} (hji : j ≠ i)
    (hj : (s.ino j).type ≠ 0) : addrOf d' (s.ino j) = addrOf s.dev (s.ino j) := by
  refine addrOf_congr fun hind => hframe.buf_frame _ fun h => ?_
  exact hinv.other_block hji hi hj ⟨hind, .inl rfl⟩ (hframe.refs_new _ h)

/-- Replacing inode `i` keeps the invariant when the metadata stays in use, every
other allocated inode keeps its blocks and stays well formed, and the blocks of
the new `i` lie past the metadata and belong to no other allocated inode. -/
theorem AllocInv.replace (hinv : AllocInv s) {d' : Dev} {ip' : Ino}
    (hmeta : ∀ b < s.nmeta, d'.bitmap b = true) (hsize : d'.size = s.dev.size)
    (hwf' : ip'.type ≠ 0 → Wf d' ip' 0)
    (hrefs : ∀ j, j ≠ i → (s.ino j).type ≠ 0 → ∀ b, Refs d' (s.ino j) b ↔ Refs s.dev (s.ino j) b)
    (hwf_other : ∀ j, j ≠ i → (s.ino j).type ≠ 0 → Wf d' (s.ino j) 0)
    (hpast : ∀ b, Refs d' ip' b → s.nmeta ≤ b)
    (hdisj : ∀ j, j ≠ i → (s.ino j).type ≠ 0 → ∀ b, Refs d' ip' b → ¬ Refs s.dev (s.ino j) b) :
    AllocInv (s.setIno i ip' d') := by
  refine ⟨hinv.nmeta_pos, hmeta, hsize ▸ hinv.size_le, fun j hj => ?_, fun j b hj hb => ?_,
    fun j k b hjk hj hk hb => ?_⟩
  · by_cases hji : j = i
    · subst hji
      rw [setIno_ino_self] at hj ⊢
      exact hwf' hj
    · rw [setIno_ino_of_ne s hji] at hj ⊢
      exact hwf_other j hji hj
  · by_cases hji : j = i
    · subst hji
      rw [setIno_ino_self] at hb
      exact hpast b hb
    · rw [setIno_ino_of_ne s hji] at hj hb
      exact hinv.past_meta j b hj ((hrefs j hji hj b).mp hb)
  · -- the new `i` against another inode, either way round, or two other inodes
    simp only [setIno_dev]
    by_cases hji : j = i <;> by_cases hki : k = i
    · exact absurd (hji.trans hki.symm) hjk
    · subst hji
      rw [setIno_ino_self] at hb
      rw [setIno_ino_of_ne s hki] at hk ⊢
      rw [hrefs k hki hk]
      exact hdisj k hki hk b hb
    · subst hki
      rw [setIno_ino_of_ne s hji] at hj hb
      rw [setIno_ino_self]
      exact fun hb' => hdisj j hji hj b hb' ((hrefs j hji hj b).mp hb)
    · rw [setIno_ino_of_ne s hji] at hj hb
      rw [setIno_ino_of_ne s hki] at hk ⊢
      rw [hrefs k hki hk]
      exact hinv.disjoint j k b hjk hj hk ((hrefs j hji hj b).mp hb)

/-- An operation that changes inode `i` within a frame keeps the invariant. -/
theorem AllocInv.setFrame (hinv : AllocInv s) {d' : Dev} {ip' : Ino}
    (hi : (s.ino i).type ≠ 0) (hframe : Frame s.dev (s.ino i) d' ip') (hwf' : Wf d' ip' 0)
    (hsize : d'.size = s.dev.size) :
    AllocInv (s.setIno i ip' d') := by
  have haddr := fun j (hji : j ≠ i) hj => hinv.addrOf_other hi hframe hji hj
  -- a new block of `i` was free, so it is past the metadata and no other inode's
  have hnew : ∀ b, Refs d' ip' b → Refs s.dev (s.ino i) b ∨ s.dev.bitmap b = false :=
    hframe.refs_new
  refine hinv.replace (fun b hb => hframe.bitmap_mono b (hinv.meta_marked b hb)) hsize
    (fun _ => hwf') (fun j hji hj b => by simp only [Refs, haddr j hji hj])
    (fun j hji hj => (hinv.wf j hj).transfer (haddr j hji hj)
      (fun b hb => hframe.bitmap_mono b ((hinv.wf j hj).marked b hb))
      (hframe.bitmap_mono 0 (hinv.wf j hj).zero_used) hsize)
    (fun b hb => ?_) (fun j hji hj b hb hb' => hinv.other_block hji hi hj hb' (hnew b hb))
  rcases hnew b hb with h | h
  · exact hinv.past_meta i b hi h
  · by_contra hlt
    simp [hinv.meta_marked b (by omega)] at h

/-- Leaving inode `i` without addresses, with the buffers as they were and the
blocks of the metadata and of the other allocated inodes in use, keeps the
invariant. -/
theorem AllocInv.setEmpty (hinv : AllocInv s) {d' : Dev} {ip' : Ino}
    (hbuf : d'.buf = s.dev.buf) (hsize : d'.size = s.dev.size)
    (hmeta : ∀ b < s.nmeta, d'.bitmap b = true)
    (hkeep : ∀ j, j ≠ i → (s.ino j).type ≠ 0 → ∀ b, Refs s.dev (s.ino j) b → d'.bitmap b = true)
    (haddrs : ∀ k, ip'.addrs k = 0) : AllocInv (s.setIno i ip' d') := by
  have haddr : ∀ ip, addrOf d' ip = addrOf s.dev ip := fun ip => addrOf_congr fun _ => by rw [hbuf]
  have hnone : ∀ b, ¬ Refs d' ip' b := not_refs_of_addrs_zero haddrs
  have hzero : d'.bitmap 0 = true := hmeta 0 hinv.nmeta_pos
  exact hinv.replace hmeta hsize (fun _ => Wf.of_addrs_zero hzero (hsize ▸ hinv.size_le) haddrs)
    (fun j _ _ b => by simp only [Refs, haddr])
    (fun j hji hj => (hinv.wf j hj).transfer (haddr _) (hkeep j hji hj) hzero hsize)
    (fun b hb => absurd hb (hnone b)) (fun _ _ _ b hb => absurd hb (hnone b))

/-- `itrunc` of an allocated inode, then stored with any type. -/
theorem AllocInv.itrunc (hinv : AllocInv s) (hi : (s.ino i).type ≠ 0) {d' : Dev} (t : Int)
    (hbuf : d'.buf = s.dev.buf) (hsize : d'.size = s.dev.size)
    (hbits : ∀ b, d'.bitmap b = true ↔ s.dev.bitmap b = true ∧ ¬ Refs s.dev (s.ino i) b) :
    AllocInv (s.setIno i { s.ino i with size := 0, addrs := fun _ => 0, type := t } d') := by
  refine hinv.setEmpty hbuf hsize (fun b hb => (hbits b).mpr ⟨hinv.meta_marked b hb, fun h => ?_⟩)
    (fun j hji hj b hb => (hbits b).mpr ⟨(hinv.wf j hj).marked b hb,
      hinv.disjoint j i b hji hj hi hb⟩) fun _ => rfl
  -- a block of `i` lies past the metadata
  have := hinv.past_meta i b hi h
  omega

theorem ialloc_eq_some {s s' : Disk} {t : Int} {inum : Nat} (h : ialloc s t = some (inum, s')) :
    s' = s.setIno inum (Ino.fresh t) s.dev := by
  unfold ialloc at h
  split at h
  · cases h
  · cases h
    rfl

/-- Every operation keeps the invariant. -/
theorem AllocInv.step (hinv : AllocInv s) {op : Op} {s' : Disk} (h : Disk.Step s op s') :
    AllocInv s' := by
  obtain ⟨hen, hrun⟩ := h
  cases op with
  | write inum src off n =>
    obtain ⟨hi, hn⟩ := hen
    obtain ⟨r, ip', d', hw, hwf', hframe, hsize, htype⟩ := writei_frame src off (hinv.wf inum hi) hn
    simp only [Op.run, hw, StateExcept.ok_bind, StateExcept.pure_eq_ok, Except.ok.injEq] at hrun
    subst hrun
    exact hinv.setFrame hi hframe hwf' hsize
  | trunc inum =>
    obtain ⟨d', ht, hbuf, hsize, hbits⟩ := itrunc_spec (hinv.wf inum hen)
    simp only [Op.run, ht, StateExcept.ok_bind, StateExcept.pure_eq_ok, Except.ok.injEq] at hrun
    subst hrun
    exact hinv.itrunc hen (s.ino inum).type hbuf hsize hbits
  | free inum =>
    obtain ⟨d', ht, hbuf, hsize, hbits⟩ := itrunc_spec (hinv.wf inum hen)
    simp only [Op.run, ht, StateExcept.ok_bind, StateExcept.pure_eq_ok, Except.ok.injEq] at hrun
    subst hrun
    exact hinv.itrunc hen 0 hbuf hsize hbits
  | alloc t =>
    simp only [Op.run] at hrun
    cases hia : ialloc s t with
    | none =>
      rw [hia] at hrun
      cases hrun
      exact hinv
    | some p =>
      obtain ⟨inum, s''⟩ := p
      rw [hia] at hrun
      cases hrun
      rw [ialloc_eq_some hia]
      exact hinv.setEmpty rfl rfl hinv.meta_marked (fun j _ hj b hb => (hinv.wf j hj).marked b hb)
        fun _ => rfl

/-- Under the invariant no operation panics; in particular every `bfree` of an
`itrunc` finds its bit set. -/
theorem AllocInv.run_ok (hinv : AllocInv s) {op : Op} (hen : op.Enabled s) :
    ∃ s', op.run s = .ok s' := by
  cases op with
  | write inum src off n =>
    obtain ⟨r, ip', d', hw, -⟩ := writei_frame src off (hinv.wf inum hen.1) hen.2
    refine ⟨s.setIno inum ip' d', ?_⟩
    simp only [Op.run, hw, StateExcept.ok_bind, StateExcept.pure_eq_ok]
  | trunc inum =>
    obtain ⟨d', ht, -⟩ := itrunc_spec (hinv.wf inum hen)
    refine ⟨s.setIno inum { s.ino inum with size := 0, addrs := fun _ => 0 } d', ?_⟩
    simp only [Op.run, ht, StateExcept.ok_bind, StateExcept.pure_eq_ok]
  | free inum =>
    obtain ⟨d', ht, -⟩ := itrunc_spec (hinv.wf inum hen)
    refine ⟨s.setIno inum { s.ino inum with size := 0, addrs := fun _ => 0, type := 0 } d', ?_⟩
    simp only [Op.run, ht, StateExcept.ok_bind, StateExcept.pure_eq_ok]
  | alloc t =>
    simp only [Op.run]
    cases ialloc s t with
    | none => exact ⟨s, rfl⟩
    | some p => exact ⟨p.2, rfl⟩

end Invariant

theorem allocInv_of_reachable {s₀ s : Disk} (h₀ : AllocInv s₀)
    (h : Reachable (· = s₀) Disk.Step s) : AllocInv s :=
  h.invariant (fun _ hs => hs ▸ h₀) (fun _ _ _ _ hinv hstep => hinv.step hstep)

/-! ## Block allocation is safe -/

theorem block_allocation_safety {s₀ s : Disk} (h₀ : AllocInv s₀)
    (hreach : Reachable (· = s₀) Disk.Step s) :
    (∀ i bn bn', (s.ino i).type ≠ 0 → addrOf s.dev (s.ino i) bn ≠ 0 →
      addrOf s.dev (s.ino i) bn = addrOf s.dev (s.ino i) bn' → bn = bn') ∧
    (∀ i bn, (s.ino i).type ≠ 0 → addrOf s.dev (s.ino i) bn ≠ 0 →
      addrOf s.dev (s.ino i) bn ≠ (s.ino i).addrs NDIRECT) ∧
    (∀ i j b, i ≠ j → (s.ino i).type ≠ 0 → (s.ino j).type ≠ 0 →
      Refs s.dev (s.ino i) b → ¬ Refs s.dev (s.ino j) b) ∧
    (∀ i b, (s.ino i).type ≠ 0 → Refs s.dev (s.ino i) b →
      s.nmeta ≤ b ∧ s.dev.bitmap b = true) ∧
    (∀ op : Op, op.Enabled s → ∃ s', op.run s = .ok s') := by
  have hinv := allocInv_of_reachable h₀ hreach
  refine ⟨fun i bn bn' hi => (hinv.wf i hi).addr_inj bn bn',
    fun i bn hi => (hinv.wf i hi).addr_ne_indirect bn, hinv.disjoint,
    fun i b hi hb => ⟨hinv.past_meta i b hi hb, (hinv.wf i hi).marked b hb⟩,
    fun op hen => hinv.run_ok hen⟩

/-- The root directory of a fresh image: one block, block 46. -/
def mkfsRootIno : Ino :=
  { type := T_DIR, size := BSIZE, addrs := fun k => if k = 0 then 46 else 0 }

/-- The device of a fresh image: 2000 blocks of zeros, the first 47 in use. -/
def mkfsDev : Dev where
  size := 2000
  bitmap b := decide (b ≤ 46)
  buf _ _ := 0
  disk _ _ := 0
  logged := []

/-- The image `mkfs` writes with no user files: 46 metadata blocks (the boot
block, the superblock, 30 log blocks, 13 inode blocks and one bitmap block),
the root directory in block 46, and the rest of the 2000 blocks free. -/
def mkfsDisk : Disk where
  dev := mkfsDev
  ino inum := if inum = ROOTINO then mkfsRootIno else Ino.fresh 0
  ninodes := 200
  nmeta := 46

theorem mkfsDisk_ino_root : mkfsDisk.ino ROOTINO = mkfsRootIno := rfl

theorem allocInv_mkfsDisk : AllocInv mkfsDisk := by
  -- only the root is allocated
  have hroot : ∀ i, (mkfsDisk.ino i).type ≠ 0 → i = ROOTINO := by
    intro i hi
    by_contra h
    exact hi (by rw [show mkfsDisk.ino i = Ino.fresh 0 from if_neg h]; rfl)
  have hwf : Wf mkfsDev mkfsRootIno 0 :=
    Wf.single rfl (by decide) (by decide) rfl (Nat.zero_le _) rfl
  refine ⟨by decide, fun b hb => ?_, by decide, fun i hi => ?_, fun i b hi hb => ?_,
    fun i j b hij hi hj => absurd ((hroot i hi).trans (hroot j hj).symm) hij⟩
  · show decide (b ≤ 46) = true
    rw [decide_eq_true_eq]
    exact Nat.le_of_lt hb
  · rw [hroot i hi, mkfsDisk_ino_root]
    exact hwf
  · rw [hroot i hi, mkfsDisk_ino_root] at hb
    obtain ⟨hb0, hb | ⟨bn, rfl⟩⟩ := hb
    · exact absurd hb hb0
    · rw [addrOf_single rfl] at hb0 ⊢
      split_ifs at hb0 ⊢
      · exact le_refl _
      · exact absurd rfl hb0

theorem block_allocation_safety_mkfs :
    AllocInv mkfsDisk ∧
    (∀ i bn bn', (mkfsDisk.ino i).type ≠ 0 → addrOf mkfsDisk.dev (mkfsDisk.ino i) bn ≠ 0 →
      addrOf mkfsDisk.dev (mkfsDisk.ino i) bn = addrOf mkfsDisk.dev (mkfsDisk.ino i) bn' →
        bn = bn') ∧
    (∀ i bn, (mkfsDisk.ino i).type ≠ 0 → addrOf mkfsDisk.dev (mkfsDisk.ino i) bn ≠ 0 →
      addrOf mkfsDisk.dev (mkfsDisk.ino i) bn ≠ (mkfsDisk.ino i).addrs NDIRECT) ∧
    (∀ i j b, i ≠ j → (mkfsDisk.ino i).type ≠ 0 → (mkfsDisk.ino j).type ≠ 0 →
      Refs mkfsDisk.dev (mkfsDisk.ino i) b → ¬ Refs mkfsDisk.dev (mkfsDisk.ino j) b) ∧
    (∀ i b, (mkfsDisk.ino i).type ≠ 0 → Refs mkfsDisk.dev (mkfsDisk.ino i) b →
      mkfsDisk.nmeta ≤ b ∧ mkfsDisk.dev.bitmap b = true) ∧
    (∀ op : Op, op.Enabled mkfsDisk → ∃ s', op.run mkfsDisk = .ok s') :=
  ⟨allocInv_mkfsDisk, block_allocation_safety allocInv_mkfsDisk (.init rfl)⟩

end Xv6.Blocks
