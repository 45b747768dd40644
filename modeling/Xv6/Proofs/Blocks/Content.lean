import Xv6.Proofs.Blocks.Bmap
import Xv6.Fs.Inode
import Xv6.Lib.StateExcept

/-!
# File content over blocks

Byte `i` of a file is byte `i % BSIZE` of the buffer of block `i / BSIZE`, and
the content of the file is the list of its first `ip.size` bytes.  This is the
byte list that the inode level of `Xv6.Fs.Inode` keeps as `Dinode.data`.

Under `Wf d ip ip.size`, `readi` returns a slice of the content and changes
nothing.  `writei`, when it accepts its arguments and every copy from its
source succeeds, overwrites the content at `off` with the bytes it stored,
`n` of them unless the free map ran out.  `itrunc` frees exactly the blocks the
file refers to.  Each keeps the file well formed, so the three compose along
any sequence, and none of them panics.
-/

namespace Xv6.Blocks

open LittleEndian

/-! ## Bytes of a file -/

/-- Byte `i` of the file. -/
def fileByte (d : Dev) (ip : Ino) (i : Nat) : UInt8 :=
  byteAt (d.buf (addrOf d ip (i / BSIZE))) (i % BSIZE)

/-- The `k` bytes of the file from `off` on. -/
def fileBytes (d : Dev) (ip : Ino) (off k : Nat) : List UInt8 :=
  (List.range k).map fun i => fileByte d ip (off + i)

/-- The content of the file. -/
def content (d : Dev) (ip : Ino) : List UInt8 :=
  fileBytes d ip 0 ip.size

@[simp] theorem length_fileBytes (d : Dev) (ip : Ino) (off k : Nat) :
    (fileBytes d ip off k).length = k := by
  simp [fileBytes]

theorem getElem?_fileBytes (d : Dev) (ip : Ino) (off k i : Nat) :
    (fileBytes d ip off k)[i]? = if i < k then some (fileByte d ip (off + i)) else none := by
  unfold fileBytes
  split_ifs with h
  · simp [List.getElem?_range h]
  · rw [List.getElem?_eq_none (by simp; omega)]

theorem fileBytes_add (d : Dev) (ip : Ino) (off a b : Nat) :
    fileBytes d ip off (a + b) = fileBytes d ip off a ++ fileBytes d ip (off + a) b := by
  unfold fileBytes
  rw [List.range_add, List.map_append, List.map_map]
  congr 2
  funext i
  simp only [Function.comp, Nat.add_assoc]

theorem fileBytes_eq_iff {d : Dev} {ip : Ino} {L : Nat} {l : List UInt8} :
    fileBytes d ip 0 L = l ↔ l.length = L ∧ ∀ i < L, l[i]? = some (fileByte d ip i) := by
  constructor
  · rintro rfl
    refine ⟨length_fileBytes .., fun i hi => ?_⟩
    rw [getElem?_fileBytes, if_pos hi, Nat.zero_add]
  · rintro ⟨hlen, hbytes⟩
    apply List.ext_getElem?
    intro i
    rw [getElem?_fileBytes]
    split_ifs with h
    · rw [hbytes i h, Nat.zero_add]
    · rw [List.getElem?_eq_none (by omega)]

/-- A slice of the content. -/
theorem content_drop_take {d : Dev} {ip : Ino} {off n : Nat} (h : off ≤ ip.size) :
    ((content d ip).drop off).take n = fileBytes d ip off (min n (ip.size - off)) := by
  apply List.ext_getElem?
  intro i
  rw [List.getElem?_take, List.getElem?_drop, content, getElem?_fileBytes, getElem?_fileBytes]
  split_ifs <;> first | rfl | omega | simp only [Nat.zero_add]

@[simp] theorem fileByte_logWrite (d : Dev) (ip : Ino) (b i : Nat) :
    fileByte (d.logWrite b) ip i = fileByte d ip i := rfl

theorem fileByte_size (d : Dev) (ip : Ino) (s i : Nat) :
    fileByte d { ip with size := s } i = fileByte d ip i := rfl

/-- The offsets of one chunk of `readi` or `writei` lie in one block. -/
theorem div_mod_of_chunk {off i : Nat} (h : off % BSIZE + i < BSIZE) :
    (off + i) / BSIZE = off / BSIZE ∧ (off + i) % BSIZE = off % BSIZE + i := by
  simp only [BSIZE] at h ⊢
  omega

/-- A chunk read from the buffer of the block of `off`. -/
theorem getBytes_eq_fileBytes {d : Dev} {ip : Ino} {off m : Nat}
    (hm : off % BSIZE + m ≤ BSIZE) :
    getBytes (d.buf (addrOf d ip (off / BSIZE))) (off % BSIZE) m = fileBytes d ip off m := by
  unfold getBytes fileBytes
  apply List.map_congr_left
  intro i hi
  obtain ⟨hdiv, hmod⟩ := div_mod_of_chunk (show off % BSIZE + i < BSIZE by
    have := List.mem_range.mp hi
    omega)
  rw [fileByte, hdiv, hmod]

/-! ## `readi` -/

/-- Every round of `readi`'s loop finds its block mapped and appends the file's
bytes; fuel of at least the bytes still to read suffices. -/
theorem readLoop_spec {d : Dev} {ip : Ino} {L n : Nat} (hwf : Wf d ip L) :
    ∀ fuel off (acc : List UInt8), acc.length ≤ n → n - acc.length ≤ fuel →
      off + (n - acc.length) ≤ L →
      readLoop n fuel off acc ip d = .ok (acc ++ fileBytes d ip off (n - acc.length), ip, d) := by
  intro fuel
  induction fuel with
  | zero =>
    intro off acc _ hfuel _
    have hnil : fileBytes d ip off (n - acc.length) = [] := by
      rw [show n - acc.length = 0 by omega]
      rfl
    rw [hnil, List.append_nil, readLoop]
  | succ fuel ih =>
    intro off acc hle hfuel hlen
    by_cases hlt : acc.length < n
    · -- the block of `off` lies below `L`, so `bmap` finds it mapped
      have hmap : addrOf d ip (off / BSIZE) ≠ 0 :=
        hwf.mapped _ (by simp only [BSIZE] at *; omega)
      have hmod : off % BSIZE < BSIZE := Nat.mod_lt _ (by simp [BSIZE])
      let m := min (n - acc.length) (BSIZE - off % BSIZE)
      have hchunk : getBytes (d.buf (addrOf d ip (off / BSIZE))) (off % BSIZE) m =
          fileBytes d ip off m := getBytes_eq_fileBytes (by omega)
      have hrest := ih (off + m) (acc ++ fileBytes d ip off m) (by simp; omega)
        (by simp; omega) (by simp; omega)
      have hsplit : n - acc.length = m + (n - (acc.length + m)) := by omega
      simp only [readLoop, if_pos hlt, bmap_of_mapped hmap, StateExcept.ok_bind, if_neg hmap]
      rw [hchunk, hrest, hsplit, fileBytes_add, List.append_assoc, List.length_append,
        length_fileBytes]
    · have hnil : fileBytes d ip off (n - acc.length) = [] := by
        rw [show n - acc.length = 0 by omega]
        rfl
      rw [readLoop, if_neg hlt, hnil, List.append_nil]

/-- `readi` returns the slice of the content from `off` on, and changes
nothing. -/
theorem readi_spec {d : Dev} {ip : Ino} (hwf : Wf d ip ip.size) (off n : Nat) :
    readi d ip off n = .ok (if off > ip.size ∨ (off + n) % 2 ^ 32 < off then []
      else ((content d ip).drop off).take n, ip, d) := by
  unfold readi
  by_cases hbad : off > ip.size ∨ (off + n) % 2 ^ 32 < off
  · rw [if_pos hbad, if_pos hbad]
  · rw [if_neg hbad, if_neg hbad]
    have hoff : off ≤ ip.size := by omega
    -- `readi` shortens `n` to the bytes left before the end of the file
    have hn' : (if off + n > ip.size then ip.size - off else n) = min n (ip.size - off) := by
      split_ifs <;> omega
    dsimp only
    rw [hn', readLoop_spec hwf _ off [] (Nat.zero_le _) (by simp) (by simp; omega),
      content_drop_take hoff, List.nil_append, List.length_nil, Nat.sub_zero]

/-! ## Overwriting a list -/

theorem length_overwrite {old s : List UInt8} {off : Nat} (h : off ≤ old.length) :
    (overwrite old off s).length = max old.length (off + s.length) := by
  simp only [overwrite, List.length_append, List.length_take, List.length_drop]
  omega

@[simp] theorem overwrite_nil (old : List UInt8) (off : Nat) : overwrite old off [] = old := by
  simp [overwrite]

theorem getElem?_overwrite {old s : List UInt8} {off : Nat} (h : off ≤ old.length) (i : Nat) :
    (overwrite old off s)[i]? = if off ≤ i ∧ i < off + s.length then s[i - off]? else old[i]? := by
  unfold overwrite
  by_cases h₁ : i < off
  · rw [List.getElem?_append_left (by simp; omega), List.getElem?_append_left (by simp; omega),
      List.getElem?_take_of_lt h₁, if_neg (by omega)]
  · by_cases h₂ : i < off + s.length
    · rw [List.getElem?_append_left (by simp; omega), List.getElem?_append_right (by simp; omega),
        if_pos ⟨by omega, h₂⟩, List.length_take, Nat.min_eq_left h]
    · rw [List.getElem?_append_right (by simp; omega), List.getElem?_drop, if_neg (by omega)]
      congr 1
      simp only [List.length_append, List.length_take, Nat.min_eq_left h]
      omega

/-- Inside the written range, the source byte. -/
theorem getElem?_overwrite_take_of_mem {old bytes : List UInt8} {off k i : Nat}
    (h : off ≤ old.length) (hk : k ≤ bytes.length) (hi : off ≤ i ∧ i < off + k) :
    (overwrite old off (bytes.take k))[i]? = bytes[i - off]? := by
  rw [getElem?_overwrite h, if_pos (by simp; omega), List.getElem?_take_of_lt (by omega)]

/-- Outside one more chunk, writing it changes nothing. -/
theorem getElem?_overwrite_take_add {old bytes : List UInt8} {off tot m i : Nat}
    (h : off ≤ old.length) (hlen : tot + m ≤ bytes.length)
    (hi : ¬(off + tot ≤ i ∧ i < off + tot + m)) :
    (overwrite old off (bytes.take (tot + m)))[i]? = (overwrite old off (bytes.take tot))[i]? := by
  rw [getElem?_overwrite h, getElem?_overwrite h]
  simp only [List.length_take, Nat.min_eq_left hlen,
    Nat.min_eq_left (show tot ≤ bytes.length by omega)]
  by_cases h₁ : off ≤ i ∧ i < off + tot
  · rw [if_pos (by omega), if_pos h₁, List.getElem?_take_of_lt (by omega),
      List.getElem?_take_of_lt (by omega)]
  · rw [if_neg (by omega), if_neg h₁]

/-! ## `writei` -/

/-- Writing a chunk into the buffer of the block of `o` changes exactly the
bytes of the chunk. -/
theorem fileByte_writeChunk {d : Dev} {ip : Ino} {len o : Nat} {chunk : List UInt8}
    (hwf : Wf d ip len) (ha : addrOf d ip (o / BSIZE) ≠ 0)
    (hm : o % BSIZE + chunk.length ≤ BSIZE) (i : Nat) :
    fileByte (d.write (addrOf d ip (o / BSIZE))
        (setBytes (d.buf (addrOf d ip (o / BSIZE))) (o % BSIZE) chunk)) ip i =
      if o ≤ i ∧ i < o + chunk.length then chunk.getD (i - o) 0 else fileByte d ip i := by
  obtain ⟨-, haddr⟩ := hwf.writeData ha
    (setBytes (d.buf (addrOf d ip (o / BSIZE))) (o % BSIZE) chunk)
  unfold fileByte
  rw [haddr, Dev.write_buf]
  by_cases hbn : i / BSIZE = o / BSIZE
  · -- the block of the chunk: the bytes of the chunk, and the old ones around it
    have hmod : i % BSIZE < BSIZE := Nat.mod_lt _ (by simp [BSIZE])
    have hiff : (o % BSIZE ≤ i % BSIZE ∧ i % BSIZE < o % BSIZE + chunk.length ∧ i % BSIZE < BSIZE)
        ↔ (o ≤ i ∧ i < o + chunk.length) := by
      simp only [BSIZE] at hbn hm hmod ⊢
      omega
    rw [hbn, Function.update_self, byteAt_setBytes]
    by_cases hin : o ≤ i ∧ i < o + chunk.length
    · rw [if_pos (hiff.mpr hin), if_pos hin]
      congr 1
      simp only [BSIZE] at hbn hin ⊢
      omega
    · rw [if_neg (fun h => hin (hiff.mp h)), if_neg hin]
  · -- another block: its address differs from the chunk's
    have hout : ¬(o ≤ i ∧ i < o + chunk.length) := by
      intro hin
      apply hbn
      simp only [BSIZE] at hm ⊢
      omega
    have hne : addrOf d ip (i / BSIZE) ≠ addrOf d ip (o / BSIZE) :=
      fun h => hbn (hwf.addr_inj _ _ (h ▸ ha) h.symm).symm
    rw [Function.update_of_ne hne, if_neg hout]

/-- Writing a chunk into the mapped block of `o`, at or below the end `len` of
the mapped part, keeps the file well formed up to the end of the chunk. -/
theorem Wf.writeChunk {d : Dev} {ip : Ino} {len o m : Nat} (hwf : Wf d ip len)
    (ha : addrOf d ip (o / BSIZE) ≠ 0) (ho : o ≤ len) (hm : o % BSIZE + m ≤ BSIZE)
    (hmax : max len (o + m) ≤ MAXFILE * BSIZE) (blk : Block) :
    Wf ((d.write (addrOf d ip (o / BSIZE)) blk).logWrite (addrOf d ip (o / BSIZE))) ip
      (max len (o + m)) := by
  obtain ⟨hwf', haddr'⟩ := hwf.writeData ha blk
  refine (hwf'.logWrite _).extend (fun bn hbn => ?_) hmax
  rw [addrOf_logWrite, haddr']
  by_cases hold : bn * BSIZE < len
  · exact hwf.mapped bn hold
  · -- past the old end, only the chunk's block lies below the new one
    have : bn = o / BSIZE := by
      simp only [BSIZE] at hold hbn hm ⊢
      omega
    rw [this]
    exact ha

/-- The bytes of the file below `len` survive `bmap`. -/
theorem fileByte_bmap {d d' : Dev} {ip ip' : Ino} {len bn addr i : Nat} (hwf : Wf d ip len)
    (hbmap : bmap d ip bn = .ok (addr, ip', d')) (hpost : BmapPost d ip len bn addr ip' d')
    (hi : i < len) : fileByte d' ip' i = fileByte d ip i := by
  have hmap : addrOf d ip (i / BSIZE) ≠ 0 := hwf.mapped _ (by simp only [BSIZE] at *; omega)
  by_cases hbn : i / BSIZE = bn
  · -- a mapped block: `bmap` changed nothing
    rw [hbn] at hmap
    rw [bmap_of_mapped hmap, Except.ok.injEq, Prod.mk.injEq, Prod.mk.injEq] at hbmap
    obtain ⟨-, rfl, rfl⟩ := hbmap
    rfl
  · unfold fileByte
    rw [hpost.addr_other _ hbn, hpost.buf_mapped _ hmap]

/-- The source of a `writei` of `n` bytes holds `bytes`, and every copy from it
succeeds. -/
def CopiesOk (src : Src) (bytes : List UInt8) (n : Nat) : Prop :=
  n ≤ bytes.length ∧
    ∀ tot m, tot + m ≤ n → eitherCopyin src tot m = ((bytes.drop tot).take m, true)

/-- The state of `writei`'s loop after `tot` source bytes of a write at `off`
into a file whose content was `c`: the file is well formed up to the end of
what is written, and reads as `c` overwritten by those bytes. -/
structure WriteInv (c : List UInt8) (off : Nat) (bytes : List UInt8) (tot : Nat) (d : Dev)
    (ip : Ino) : Prop where
  wf : Wf d ip (max c.length (off + tot))
  bytes_eq : fileBytes d ip 0 (max c.length (off + tot)) = overwrite c off (bytes.take tot)
  size : ip.size = c.length

section WriteLoop

variable {src : Src} {bytes c : List UInt8} {n off : Nat}

/-- `bmap` failing leaves the loop state as it was. -/
theorem WriteInv.of_bmap {tot bn addr : Nat} {d d' : Dev} {ip ip' : Ino}
    (hinv : WriteInv c off bytes tot d ip) (hbmap : bmap d ip bn = .ok (addr, ip', d'))
    (hpost : BmapPost d ip (max c.length (off + tot)) bn addr ip' d') :
    WriteInv c off bytes tot d' ip' := by
  refine ⟨hpost.wf, ?_, hpost.ino_size.trans hinv.size⟩
  rw [← hinv.bytes_eq]
  unfold fileBytes
  apply List.map_congr_left
  intro i hi
  rw [Nat.zero_add]
  exact fileByte_bmap hinv.wf hbmap hpost (List.mem_range.mp hi)

/-- One chunk of `writei`: the block is mapped, the chunk copied into its
buffer and logged. -/
theorem WriteInv.of_chunk {tot addr : Nat} {d d' : Dev} {ip ip' : Ino}
    (hinv : WriteInv c off bytes tot d ip) (hoff : off ≤ c.length) (hn : n ≤ bytes.length)
    (hmax : off + n ≤ MAXFILE * BSIZE) (htot : tot < n)
    (hbmap : bmap d ip ((off + tot) / BSIZE) = .ok (addr, ip', d'))
    (hpost : BmapPost d ip (max c.length (off + tot)) ((off + tot) / BSIZE) addr ip' d')
    (ha : addr ≠ 0) :
    let m := min (n - tot) (BSIZE - (off + tot) % BSIZE)
    WriteInv c off bytes (tot + m)
      ((d'.write addr (setBytes (d'.buf addr) ((off + tot) % BSIZE) ((bytes.drop tot).take m))).logWrite
        addr) ip' := by
  intro m
  have hmod : (off + tot) % BSIZE < BSIZE := Nat.mod_lt _ (by simp [BSIZE])
  have hm : (off + tot) % BSIZE + m ≤ BSIZE := by omega
  have hchunk : ((bytes.drop tot).take m).length = m := by simp; omega
  have haddr := hpost.addr_self
  have ha' : addrOf d' ip' ((off + tot) / BSIZE) ≠ 0 := haddr ▸ ha
  have hwf' := hpost.wf
  have hlen_le := hinv.wf.len_le
  refine ⟨?_, ?_, hpost.ino_size.trans hinv.size⟩
  · have hwf'' := hwf'.writeChunk ha' (le_max_right _ _) hm (by
      simp only [MAXFILE, NDIRECT, NINDIRECT, BSIZE] at hlen_le hmax ⊢
      omega) (setBytes (d'.buf addr) ((off + tot) % BSIZE) ((bytes.drop tot).take m))
    rwa [haddr, show max (max c.length (off + tot)) (off + tot + m) =
      max c.length (off + (tot + m)) by omega] at hwf''
  · rw [fileBytes_eq_iff]
    refine ⟨by rw [length_overwrite hoff, List.length_take, Nat.min_eq_left (by omega)],
      fun i hi => ?_⟩
    rw [fileByte_logWrite, ← haddr, fileByte_writeChunk hwf' ha' (by omega) i, hchunk]
    by_cases hin : off + tot ≤ i ∧ i < off + tot + m
    · -- a byte of the chunk
      rw [if_pos hin, getElem?_overwrite_take_of_mem hoff (by omega) (by omega)]
      simp only [List.getD_eq_getElem?_getD, List.getElem?_take, List.getElem?_drop]
      rw [if_pos (by omega), show tot + (i - (off + tot)) = i - off by omega,
        List.getElem?_eq_getElem (by omega)]
      rfl
    · -- an older byte, below the old end
      have hi' : i < max c.length (off + tot) := by omega
      rw [if_neg hin, getElem?_overwrite_take_add hoff (by omega) (by omega),
        fileByte_bmap hinv.wf hbmap hpost hi']
      exact (fileBytes_eq_iff.mp hinv.bytes_eq).2 i hi'

/-- `writei`'s loop stores the source bytes chunk by chunk until it has stored
`n` of them or `bmap` finds no free block; fuel of at least the bytes still to
write suffices. -/
theorem writeLoop_spec (hsrc : CopiesOk src bytes n) (hoff : off ≤ c.length)
    (hmax : off + n ≤ MAXFILE * BSIZE) :
    ∀ fuel tot d ip, WriteInv c off bytes tot d ip → tot ≤ n → n - tot ≤ fuel →
      ∃ k ip' d', writeLoop src n fuel (off + tot) tot ip d = .ok (k, off + k, ip', d') ∧
        tot ≤ k ∧ k ≤ n ∧ WriteInv c off bytes k d' ip' ∧
        (k = n ∨ ∀ b < d'.size, d'.bitmap b = true) := by
  intro fuel
  induction fuel with
  | zero =>
    intro tot d ip hinv hle hfuel
    exact ⟨tot, ip, d, rfl, le_refl _, hle, hinv, .inl (by omega)⟩
  | succ fuel ih =>
    intro tot d ip hinv hle hfuel
    by_cases htot : tot < n
    · have hbn : (off + tot) / BSIZE < MAXFILE := by
        simp only [MAXFILE, NDIRECT, NINDIRECT, BSIZE] at hmax ⊢
        omega
      obtain ⟨addr, ip', d', hbmap, hpost⟩ := bmap_spec hinv.wf hbn
      by_cases ha : addr = 0
      · -- out of blocks: the loop stops with the bytes stored so far
        subst ha
        refine ⟨tot, ip', d', ?_, le_refl _, hle, hinv.of_bmap hbmap hpost, .inr (hpost.full rfl)⟩
        simp only [writeLoop, if_pos htot, hbmap, StateExcept.ok_bind, ite_true,
          StateExcept.pure_eq_ok]
      · let m := min (n - tot) (BSIZE - (off + tot) % BSIZE)
        have hmod : (off + tot) % BSIZE < BSIZE := Nat.mod_lt _ (by simp [BSIZE])
        have hcopy := hsrc.2 tot m (by omega)
        obtain ⟨k, ip'', d'', hrun, hk, hkn, hinv'', hfull⟩ :=
          ih (tot + m) _ ip' (hinv.of_chunk hoff hsrc.1 hmax htot hbmap hpost ha) (by omega)
            (by omega)
        refine ⟨k, ip'', d'', ?_, by omega, hkn, hinv'', hfull⟩
        rw [← Nat.add_assoc] at hrun
        simp only [writeLoop, if_pos htot, hbmap, StateExcept.ok_bind, if_neg ha]
        rw [hcopy]
        exact hrun
    · refine ⟨tot, ip, d, ?_, le_refl _, hle, hinv, .inl (by omega)⟩
      rw [writeLoop, if_neg htot]

end WriteLoop

theorem fileBytes_size (d : Dev) (ip : Ino) (s off k : Nat) :
    fileBytes d { ip with size := s } off k = fileBytes d ip off k := rfl

theorem Wf.size {d : Dev} {ip : Ino} {len : Nat} (hwf : Wf d ip len) (s : Nat) :
    Wf d { ip with size := s } len :=
  ⟨hwf.zero_used, hwf.size_le, hwf.marked, hwf.addr_ne_indirect, hwf.addr_inj, hwf.mapped,
    hwf.len_le⟩

/-- `writei` with arguments it accepts and a source whose copies succeed: it
stores `k` bytes, all `n` unless the free map is full, overwrites the content
at `off` with them and extends the size to cover them. -/
theorem writei_spec {d : Dev} {ip : Ino} {src : Src} {bytes : List UInt8} {off n : Nat}
    (hwf : Wf d ip ip.size) (hsrc : CopiesOk src bytes n) (hoff : off ≤ ip.size)
    (hmax : off + n ≤ MAXFILE * BSIZE) :
    ∃ k : Nat, ∃ ip' d', writei d ip src off n = .ok ((k : Int), ip', d') ∧ k ≤ n ∧
      (k = n ∨ ∀ b < d'.size, d'.bitmap b = true) ∧ ip'.size = max ip.size (off + k) ∧
      content d' ip' = overwrite (content d ip) off (bytes.take k) ∧ Wf d' ip' ip'.size := by
  have hlen : (content d ip).length = ip.size := length_fileBytes ..
  have hinv : WriteInv (content d ip) off bytes 0 d ip :=
    ⟨by rwa [hlen, Nat.add_zero, Nat.max_eq_left hoff], by
      rw [hlen, Nat.add_zero, Nat.max_eq_left hoff, List.take_zero, overwrite_nil]; rfl, hlen.symm⟩
  obtain ⟨k, ip', d', hrun, -, hkn, hinv', hfull⟩ :=
    writeLoop_spec hsrc (hlen ▸ hoff) hmax n 0 d ip hinv (Nat.zero_le _) (by omega)
  have hnum : (off + n) % 2 ^ 32 = off + n := Nat.mod_eq_of_lt (by
    simp only [MAXFILE, NDIRECT, NINDIRECT, BSIZE] at hmax
    omega)
  rw [Nat.add_zero] at hrun
  -- the size grows to the end of the stored bytes
  let ip'' : Ino := if off + k > ip'.size then { ip' with size := off + k } else ip'
  have hsize : ip''.size = max ip.size (off + k) := by
    have hsize' : ip'.size = ip.size := hinv'.size.trans hlen
    simp only [ip'']
    split_ifs with hgt
    · show off + k = _
      omega
    · omega
  have hbytes : ∀ s, fileBytes d' ip'' 0 s = fileBytes d' ip' 0 s := by
    intro s
    simp only [ip'']
    split_ifs
    · exact fileBytes_size ..
    · rfl
  refine ⟨k, ip'', d', ?_, hkn, hfull, hsize, ?_, ?_⟩
  · simp only [writei, hnum, if_neg (show ¬(off > ip.size ∨ off + n < off) by omega),
      if_neg (show ¬(off + n > MAXFILE * BSIZE) by omega), hrun, StateExcept.ok_bind]
    rfl
  · rw [content, hbytes, hsize, ← hinv'.bytes_eq, hlen]
  · have hwf' := hinv'.wf
    rw [hlen] at hwf'
    rw [hsize]
    simp only [ip'']
    split_ifs
    · exact hwf'.size _
    · exact hwf'

/-! ## `itrunc` -/

/-- Freeing in turn the nonzero blocks `f x` of the distinct `x` of `l`, all in
use and distinct from one another: every `bfree` succeeds and exactly their
bits are cleared. -/
theorem foldlM_bfree (f : Nat → Nat) (l : List Nat) (d : Dev) (hnodup : l.Nodup)
    (hinj : ∀ x ∈ l, ∀ y ∈ l, f x ≠ 0 → f x = f y → x = y)
    (hmarked : ∀ x ∈ l, f x ≠ 0 → d.bitmap (f x) = true) :
    ∃ d', l.foldlM (fun d x => if f x ≠ 0 then bfree d (f x) else pure d) d = .ok d' ∧
      d'.buf = d.buf ∧ d'.size = d.size ∧
      ∀ b, d'.bitmap b = true ↔ d.bitmap b = true ∧ ∀ x ∈ l, f x ≠ 0 → f x ≠ b := by
  induction l generalizing d with
  | nil => exact ⟨d, rfl, rfl, rfl, fun b => by simp⟩
  | cons x l ih =>
    obtain ⟨hx, hl⟩ := List.nodup_cons.mp hnodup
    have hinj' : ∀ a ∈ l, ∀ b ∈ l, f a ≠ 0 → f a = f b → a = b :=
      fun a ha b hb => hinj a (.tail _ ha) b (.tail _ hb)
    by_cases hfx : f x = 0
    · -- nothing to free for `x`
      obtain ⟨d', hrun, hbuf, hsize, hbits⟩ :=
        ih d hl hinj' (fun a ha => hmarked a (.tail _ ha))
      refine ⟨d', ?_, hbuf, hsize, fun b => ?_⟩
      · rw [List.foldlM_cons, if_neg (not_not.mpr hfx)]
        exact hrun
      · rw [hbits b]
        simp [hfx]
    · -- `x`'s block is freed first; the others keep their bits
      let d₁ : Dev := { d with bitmap := Function.update d.bitmap (f x) false }
      have hfree : bfree d (f x) = .ok d₁ := by
        simp [bfree, hmarked x (.head _) hfx, d₁]
      have hmarked₁ : ∀ a ∈ l, f a ≠ 0 → d₁.bitmap (f a) = true := by
        intro a ha hfa
        have hne : f a ≠ f x := fun h => hx (hinj a (.tail _ ha) x (.head _) hfa h ▸ ha)
        show Function.update d.bitmap (f x) false (f a) = true
        rw [Function.update_of_ne hne]
        exact hmarked a (.tail _ ha) hfa
      obtain ⟨d', hrun, hbuf, hsize, hbits⟩ := ih d₁ hl hinj' hmarked₁
      refine ⟨d', ?_, hbuf, hsize, fun b => ?_⟩
      · rw [List.foldlM_cons, if_pos hfx, hfree]
        exact hrun
      · rw [hbits b]
        show Function.update d.bitmap (f x) false b = true ∧ _ ↔ _
        by_cases hb : b = f x
        · subst hb
          simp [hfx]
        · rw [Function.update_of_ne hb]
          simp only [List.mem_cons, forall_eq_or_imp]
          constructor
          · rintro ⟨h₁, h₂⟩
            exact ⟨h₁, fun _ => Ne.symm hb, h₂⟩
          · rintro ⟨h₁, -, h₂⟩
            exact ⟨h₁, h₂⟩

/-- The blocks a file refers to, listed as `itrunc` visits them. -/
theorem refs_iff {d : Dev} {ip : Ino} {b : Nat} :
    Refs d ip b ↔ b ≠ 0 ∧ (b = ip.addrs NDIRECT ∨ (∃ x ∈ List.range NDIRECT, ip.addrs x = b) ∨
      (ip.addrs NDIRECT ≠ 0 ∧
        ∃ j ∈ List.range NINDIRECT, getWord (d.buf (ip.addrs NDIRECT)) (4 * j) = b)) := by
  unfold Refs
  refine and_congr_right fun hb0 => or_congr_right ⟨?_, ?_⟩
  · rintro ⟨bn, hbn⟩
    by_cases hlt : bn < NDIRECT
    · exact .inl ⟨bn, List.mem_range.mpr hlt, by rwa [addrOf_of_lt hlt] at hbn⟩
    · rw [addrOf_of_le (by omega)] at hbn
      split_ifs at hbn with hin
      · refine .inr ⟨hin.2, bn - NDIRECT, List.mem_range.mpr ?_, hbn⟩
        have := hin.1
        simp only [MAXFILE, NDIRECT, NINDIRECT] at this hlt ⊢
        omega
      · exact absurd hbn.symm hb0
  · rintro (⟨x, hx, rfl⟩ | ⟨hind, j, hj, rfl⟩)
    · exact ⟨x, addrOf_of_lt (List.mem_range.mp hx)⟩
    · refine ⟨NDIRECT + j, ?_⟩
      have hj' := List.mem_range.mp hj
      rw [addrOf_of_le (by omega), if_pos ⟨by simp only [MAXFILE]; omega, hind⟩, Nat.add_sub_cancel_left]

/-- `itrunc` frees exactly the blocks the file refers to, and panics never. -/
theorem itrunc_spec {d : Dev} {ip : Ino} {len : Nat} (hwf : Wf d ip len) :
    ∃ d', itrunc d ip = .ok ({ ip with size := 0, addrs := fun _ => 0 }, d') ∧
      d'.buf = d.buf ∧ d'.size = d.size ∧
      ∀ b, d'.bitmap b = true ↔ d.bitmap b = true ∧ ¬ Refs d ip b := by
  -- the direct blocks
  have hdirect_inj : ∀ x ∈ List.range NDIRECT, ∀ y ∈ List.range NDIRECT,
      ip.addrs x ≠ 0 → ip.addrs x = ip.addrs y → x = y := by
    intro x hx y hy h0 h
    rw [← addrOf_of_lt (d := d) (List.mem_range.mp hx)] at h0 h
    rw [← addrOf_of_lt (d := d) (List.mem_range.mp hy)] at h
    exact hwf.addr_inj x y h0 h
  obtain ⟨d₁, hrun₁, hbuf₁, hsize₁, hbits₁⟩ :=
    foldlM_bfree ip.addrs _ d List.nodup_range hdirect_inj
      (fun x hx h0 => hwf.marked _ (refs_iff.mpr ⟨h0, .inr (.inl ⟨x, hx, rfl⟩)⟩))
  have hdirect : freeDirect d ip = .ok d₁ := hrun₁
  by_cases hind : ip.addrs NDIRECT = 0
  · -- no indirect block
    refine ⟨d₁, ?_, hbuf₁, hsize₁, fun b => ?_⟩
    · simp only [itrunc, hdirect, StateExcept.ok_bind, hind, ne_eq, not_true_eq_false,
        ite_false, StateExcept.pure_eq_ok]
    · rw [hbits₁ b, refs_iff, hind]
      by_cases hb0 : b = 0
      · subst hb0
        simp
      · simp only [ne_eq, hb0, not_false_eq_true, true_and, not_true_eq_false, false_and,
          or_false, false_or, not_exists, not_and]
        exact and_congr_right fun _ => forall₂_congr fun x _ =>
          ⟨fun h hx => h (hx ▸ hb0) hx, fun h _ => h⟩
  · -- the entries of the indirect block, then the indirect block itself
    let e : Nat → Nat := fun j => getWord (d.buf (ip.addrs NDIRECT)) (4 * j)
    have he : ∀ j ∈ List.range NINDIRECT, e j = addrOf d ip (NDIRECT + j) := by
      intro j hj
      have hj' := List.mem_range.mp hj
      rw [addrOf_of_le (by omega), if_pos ⟨by simp only [MAXFILE]; omega, hind⟩,
        Nat.add_sub_cancel_left]
    have hentry_inj : ∀ x ∈ List.range NINDIRECT, ∀ y ∈ List.range NINDIRECT,
        e x ≠ 0 → e x = e y → x = y := by
      intro x hx y hy h0 h
      rw [he x hx] at h0 h
      rw [he y hy] at h
      exact Nat.add_left_cancel (hwf.addr_inj _ _ h0 h)
    have hentry_marked : ∀ j ∈ List.range NINDIRECT, e j ≠ 0 → d₁.bitmap (e j) = true := by
      intro j hj h0
      rw [hbits₁]
      refine ⟨hwf.marked _ (refs_iff.mpr ⟨h0, .inr (.inr ⟨hind, j, hj, rfl⟩)⟩), ?_⟩
      intro x hx hx0 heq
      rw [he j hj, ← addrOf_of_lt (d := d) (List.mem_range.mp hx)] at heq
      rw [← addrOf_of_lt (d := d) (List.mem_range.mp hx)] at hx0
      have := hwf.addr_inj _ _ hx0 heq
      have := List.mem_range.mp hx
      omega
    obtain ⟨d₂, hrun₂, hbuf₂, hsize₂, hbits₂⟩ :=
      foldlM_bfree e _ d₁ List.nodup_range hentry_inj hentry_marked
    have hindirect : freeIndirect d₁ (d₁.buf (ip.addrs NDIRECT)) = .ok d₂ := by
      rw [hbuf₁]
      exact hrun₂
    -- the indirect block is in use and is none of the data blocks
    have hind_bit : d₂.bitmap (ip.addrs NDIRECT) = true := by
      rw [hbits₂, hbits₁]
      refine ⟨⟨hwf.marked _ (refs_iff.mpr ⟨hind, .inl rfl⟩), fun x hx hx0 heq => ?_⟩,
        fun j hj h0 heq => ?_⟩
      · rw [← addrOf_of_lt (d := d) (List.mem_range.mp hx)] at hx0 heq
        exact hwf.addr_ne_indirect x hx0 heq
      · rw [he j hj] at h0 heq
        exact hwf.addr_ne_indirect _ h0 heq
    refine ⟨{ d₂ with bitmap := Function.update d₂.bitmap (ip.addrs NDIRECT) false }, ?_,
      hbuf₂.trans hbuf₁, hsize₂.trans hsize₁, fun b => ?_⟩
    · simp only [itrunc, hdirect, StateExcept.ok_bind, ne_eq, hind, not_false_eq_true,
        ite_true, hindirect, bfree, hind_bit]
      rfl
    · show Function.update d₂.bitmap (ip.addrs NDIRECT) false b = true ↔ _
      by_cases hbi : b = ip.addrs NDIRECT
      · rw [hbi, Function.update_self]
        simp only [Bool.false_eq_true, false_iff, not_and, not_not]
        exact fun _ => refs_iff.mpr ⟨hind, .inl rfl⟩
      · rw [Function.update_of_ne hbi, hbits₂, hbits₁, refs_iff]
        by_cases hb0 : b = 0
        · subst hb0
          simp
        · simp only [ne_eq, hb0, not_false_eq_true, true_and, hbi, false_or, hind,
            not_or, not_exists, not_and]
          constructor
          · rintro ⟨⟨h₁, h₂⟩, h₃⟩
            exact ⟨h₁, fun x hx heq => h₂ x hx (heq.trans_ne hb0) heq,
              fun j hj heq => h₃ j hj (heq.trans_ne hb0) heq⟩
          · rintro ⟨h₁, h₂, h₃⟩
            exact ⟨⟨h₁, fun x hx _ => h₂ x hx⟩, fun j hj _ => h₃ j hj⟩

/-- A file with no addresses is well formed with nothing mapped: an inode
from `ialloc`, or one after `itrunc`. -/
theorem Wf.of_addrs_zero {d : Dev} {ip : Ino} (hzero : d.bitmap 0 = true)
    (hsize : d.size ≤ 2 ^ 32) (haddrs : ∀ i, ip.addrs i = 0) : Wf d ip 0 := by
  have hnone : ∀ bn, addrOf d ip bn = 0 := by
    intro bn
    by_cases hlt : bn < NDIRECT
    · rw [addrOf_of_lt hlt, haddrs]
    · rw [addrOf_of_le (by omega), if_neg (fun h => h.2 (haddrs _))]
  refine ⟨hzero, hsize, fun b hb => ?_, fun bn h => absurd (hnone bn) h,
    fun bn _ h => absurd (hnone bn) h, fun _ h => absurd h (Nat.not_lt_zero _), Nat.zero_le _⟩
  obtain ⟨hb0, hb | ⟨bn, hbn⟩⟩ := hb
  · exact absurd (hb.trans (haddrs _)) hb0
  · exact absurd ((hnone bn).symm.trans hbn).symm hb0

/-! ## The content of a file through `readi`, `writei` and `itrunc` -/

theorem file_content_refinement {d : Dev} {ip : Ino} (hwf : Wf d ip ip.size) :
    (∀ bn, bn * BSIZE < ip.size → addrOf d ip bn ≠ 0) ∧
    (∀ off n, n < 2 ^ 32 →
      readi d ip off n = .ok ((if off > ip.size ∨ 2 ^ 32 ≤ off + n then []
        else ((content d ip).drop off).take n), ip, d)) ∧
    (∀ src off n, n < 2 ^ 32 → off > ip.size ∨ 2 ^ 32 ≤ off + n ∨ off + n > MAXFILE * BSIZE →
      writei d ip src off n = .ok (-1, ip, d)) ∧
    (∀ src bytes off n, CopiesOk src bytes n → off ≤ ip.size → off + n ≤ MAXFILE * BSIZE →
      ∃ k : Nat, ∃ ip' d', writei d ip src off n = .ok ((k : Int), ip', d') ∧ k ≤ n ∧
        (k = n ∨ ∀ b < d'.size, d'.bitmap b = true) ∧
        content d' ip' = overwrite (content d ip) off (bytes.take k) ∧
        ip'.size = max ip.size (off + k) ∧ Wf d' ip' ip'.size) ∧
    (∃ ip' d', itrunc d ip = .ok (ip', d') ∧ content d' ip' = [] ∧ Wf d' ip' ip'.size) := by
  have hsize := hwf.len_le
  simp only [MAXFILE, NDIRECT, NINDIRECT, BSIZE] at hsize
  refine ⟨hwf.mapped, fun off n hn => ?_, fun src off n hn hbad => ?_,
    fun src bytes off n hsrc hoff hmax => ?_, ?_⟩
  · -- with `n < 2^32` and `off ≤ size`, `off + n` wraps exactly when it reaches `2^32`
    have hcond : (off > ip.size ∨ (off + n) % 2 ^ 32 < off) ↔
        (off > ip.size ∨ 2 ^ 32 ≤ off + n) := by
      by_cases hoff : off > ip.size
      · simp [hoff]
      · simp only [hoff, false_or]
        constructor
        · intro h
          by_contra hlt
          rw [Nat.mod_eq_of_lt (by omega)] at h
          omega
        · intro h
          rw [Nat.mod_eq_sub_mod h, Nat.mod_eq_of_lt (by omega)]
          omega
    rw [readi_spec hwf, if_congr hcond rfl rfl]
  · unfold writei
    by_cases hoff : off > ip.size
    · rw [if_pos (.inl hoff)]
    · by_cases hwrap : 2 ^ 32 ≤ off + n
      · rw [if_pos (.inr (by rw [Nat.mod_eq_sub_mod hwrap, Nat.mod_eq_of_lt (by omega)]; omega))]
      · have hbig : off + n > MAXFILE * BSIZE := by omega
        rw [Nat.mod_eq_of_lt (by omega), if_neg (by omega), if_pos hbig]
  · obtain ⟨k, ip', d', hrun, hkn, hfull, hsize', hcontent, hwf'⟩ :=
      writei_spec hwf hsrc hoff hmax
    exact ⟨k, ip', d', hrun, hkn, hfull, hcontent, hsize', hwf'⟩
  · obtain ⟨d', hrun, -, hsize', hbits⟩ := itrunc_spec hwf
    refine ⟨_, d', hrun, rfl, Wf.of_addrs_zero ?_ (hsize' ▸ hwf.size_le) fun _ => rfl⟩
    exact (hbits 0).mpr ⟨hwf.zero_used, fun h => h.1 rfl⟩

/-- A two-block device whose block 1 holds a file of two zero bytes. -/
def twoByteDev : Dev :=
  { size := 2, bitmap := fun b => decide (b < 2), buf := fun _ _ => 0, disk := fun _ _ => 0,
    logged := [] }

/-- The inode of that file. -/
def twoByteIno : Ino :=
  { type := T_FILE, size := 2, addrs := fun i => if i = 0 then 1 else 0 }

/-- A file whose only block is block 0, at address `a`. -/
theorem addrOf_single {d : Dev} {ip : Ino} {a : Nat}
    (haddrs : ip.addrs = fun k => if k = 0 then a else 0) (bn : Nat) :
    addrOf d ip bn = if bn = 0 then a else 0 := by
  by_cases hlt : bn < NDIRECT
  · rw [addrOf_of_lt hlt, haddrs]
  · rw [addrOf_of_le (by omega), haddrs, if_neg (fun h => h.2 rfl),
      if_neg (by simp at hlt; omega)]

/-- A file of at most one block, held in a block in use. -/
theorem Wf.single {d : Dev} {ip : Ino} {a len : Nat} (hzero : d.bitmap 0 = true)
    (hsize : d.size ≤ 2 ^ 32) (ha0 : a ≠ 0) (ha : d.bitmap a = true) (hlen : len ≤ BSIZE)
    (haddrs : ip.addrs = fun k => if k = 0 then a else 0) : Wf d ip len := by
  have haddr := addrOf_single (d := d) haddrs
  have hind : ip.addrs NDIRECT = 0 := by
    rw [haddrs]
    rfl
  refine ⟨hzero, hsize, ?_, ?_, ?_, ?_, ?_⟩
  · rintro b ⟨hb0, hb | ⟨bn, rfl⟩⟩
    · exact absurd (hb.trans hind) hb0
    · rw [haddr] at hb0 ⊢
      split_ifs at hb0 ⊢
      · exact ha
      · exact absurd rfl hb0
  · intro bn h
    rw [haddr] at h ⊢
    rw [hind]
    split_ifs at h ⊢
    · exact ha0
    · exact absurd rfl h
  · intro bn bn' h heq
    rw [haddr, haddr] at heq
    rw [haddr] at h
    split_ifs at h heq <;> omega
  · intro bn hbn
    have : bn = 0 := by
      simp only [BSIZE] at hbn hlen
      omega
    rw [haddr, if_pos this]
    exact ha0
  · simp only [MAXFILE, NDIRECT, NINDIRECT, BSIZE] at hlen ⊢
    omega

theorem twoByte_wf : Wf twoByteDev twoByteIno twoByteIno.size :=
  Wf.single rfl (by decide) one_ne_zero rfl (by decide) rfl

theorem file_content_refinement_twoByte :
    Wf twoByteDev twoByteIno twoByteIno.size ∧
    (∀ bn, bn * BSIZE < twoByteIno.size → addrOf twoByteDev twoByteIno bn ≠ 0) ∧
    (∀ off n, n < 2 ^ 32 →
      readi twoByteDev twoByteIno off n = .ok ((if off > twoByteIno.size ∨ 2 ^ 32 ≤ off + n then []
        else ((content twoByteDev twoByteIno).drop off).take n), twoByteIno, twoByteDev)) ∧
    (∀ src off n, n < 2 ^ 32 →
      off > twoByteIno.size ∨ 2 ^ 32 ≤ off + n ∨ off + n > MAXFILE * BSIZE →
      writei twoByteDev twoByteIno src off n = .ok (-1, twoByteIno, twoByteDev)) ∧
    (∀ src bytes off n, CopiesOk src bytes n → off ≤ twoByteIno.size →
      off + n ≤ MAXFILE * BSIZE →
      ∃ k : Nat, ∃ ip' d', writei twoByteDev twoByteIno src off n = .ok ((k : Int), ip', d') ∧
        k ≤ n ∧ (k = n ∨ ∀ b < d'.size, d'.bitmap b = true) ∧
        content d' ip' = overwrite (content twoByteDev twoByteIno) off (bytes.take k) ∧
        ip'.size = max twoByteIno.size (off + k) ∧ Wf d' ip' ip'.size) ∧
    (∃ ip' d', itrunc twoByteDev twoByteIno = .ok (ip', d') ∧ content d' ip' = [] ∧
      Wf d' ip' ip'.size) :=
  ⟨twoByte_wf, file_content_refinement twoByte_wf⟩

/-- `readi` at offset 1 for `2^32 - 1` bytes of a two-byte file: the offset is
inside the file, but `off + n` wraps to 0, and `readi` returns no bytes instead
of the last one. -/
theorem readi_wrap_returns_nothing :
    Wf twoByteDev twoByteIno twoByteIno.size ∧ 1 ≤ twoByteIno.size ∧
      ((content twoByteDev twoByteIno).drop 1).take (2 ^ 32 - 1) = [0] ∧
      readi twoByteDev twoByteIno 1 (2 ^ 32 - 1) = .ok ([], twoByteIno, twoByteDev) :=
  ⟨twoByte_wf, by decide, by decide, by unfold readi; rw [if_pos (by decide)]⟩

end Xv6.Blocks
