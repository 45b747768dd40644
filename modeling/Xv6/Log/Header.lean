import Xv6.Param
import Xv6.Lib.LittleEndian

/-!
# Disk blocks and the log header block

The disk is a map from block numbers to `BSIZE`-byte blocks.  The log's first
block holds `struct logheader`,

```text
struct logheader { int n; int block[LOGSIZE]; };
```

laid over the block's bytes by the cast in `read_head` and `write_head`
(`kernel/log.c`): `n` at offset `0` and `block[i]` at offset `4 + 4 * i`, each a
32-bit little-endian word.  `readHead` and `headBlock` are the two directions of
that cast, and `readHead_headBlock` is the round trip the recovery code relies
on: what `write_head` stored is what `read_head` finds.

A block number is a C `uint` stored in an `int` slot and converted back on use,
so the model reads an entry as its unsigned 32-bit value.
-/

namespace Xv6

open LittleEndian

/-- The contents of one disk block, `uchar data[BSIZE]`. -/
abbrev Block : Type := Fin BSIZE → UInt8

/-- The disk: the contents of every block number. -/
abbrev Disk : Type := Nat → Block

/-- `lh->n` of a header block. -/
def headN (hb : Block) : Int :=
  getInt32 hb 0

/-- The block numbers `read_head` copies out of a header block: `lh->block[i]`
for `i < lh->n`.  A negative `n` lists nothing, since the copy loop does not
run; an `n` above `LOGSIZE` is never written by `write_head`. -/
def readHead (hb : Block) : List Nat :=
  (List.range (headN hb).toNat).map fun i => getWord hb (4 + 4 * i)

/-- The copy loop of `write_head`: `hb->block[i] = log.lh.block[i]`, from slot
`i` on. -/
def setEntries (hb : Block) (i : Nat) : List Nat → Block
  | [] => hb
  | b :: bs => setEntries (setWord hb (4 + 4 * i) b) (i + 1) bs

/-- The header block `write_head` writes for the in-memory header `lh`: the old
header block with `n` and the first `n` entries replaced. -/
def headBlock (hb : Block) (lh : List Nat) : Block :=
  setEntries (setInt32 hb 0 lh.length) 0 lh

/-! ## The copy loop touches only its own slots -/

theorem getWord_setEntries_of_le (hb : Block) {i off : Nat} (bs : List Nat)
    (h : off + 4 ≤ 4 + 4 * i) :
    getWord (setEntries hb i bs) off = getWord hb off := by
  induction bs generalizing hb i with
  | nil => rfl
  | cons b bs ih =>
      rw [setEntries, ih _ (by omega), getWord_setWord_of_disjoint _ _ (by omega)]

theorem getInt32_setEntries_zero (hb : Block) {i : Nat} (bs : List Nat) :
    getInt32 (setEntries hb i bs) 0 = getInt32 hb 0 := by
  unfold getInt32
  rw [getWord_setEntries_of_le hb bs (by omega)]

/-- Slot `i + j` holds the `j`-th stored entry. -/
theorem getWord_setEntries_slot (hb : Block) {i j : Nat} (bs : List Nat) (hj : j < bs.length)
    (hfit : 4 + 4 * (i + bs.length) ≤ BSIZE) :
    getWord (setEntries hb i bs) (4 + 4 * (i + j)) = bs[j] % 2 ^ 32 := by
  induction bs generalizing hb i j with
  | nil => simp at hj
  | cons b bs ih =>
      rw [setEntries]
      cases j with
      | zero =>
          simp only [Nat.add_zero, List.getElem_cons_zero]
          rw [getWord_setEntries_of_le _ bs (by omega),
            getWord_setWord_self _ _ (by simp at hfit ⊢; omega)]
      | succ j =>
          have hj' : j < bs.length := by simpa using hj
          have hslot : i + (j + 1) = (i + 1) + j := by omega
          rw [hslot, ih _ hj' (by simp at hfit ⊢; omega)]
          rfl

/-! ## The round trip -/

/-- `write_head` stores the length of the header as `n`. -/
theorem headN_headBlock (hb : Block) (lh : List Nat) (hlen : lh.length ≤ LOGSIZE) :
    headN (headBlock hb lh) = lh.length := by
  unfold headN headBlock
  rw [getInt32_setEntries_zero, getInt32_setInt32_self _ (by simp [BSIZE]) (by omega)]
  simp at hlen
  omega

/-- What `write_head` stores, `read_head` reads back. -/
theorem readHead_headBlock (hb : Block) (lh : List Nat) (hlen : lh.length ≤ LOGSIZE)
    (hword : ∀ b ∈ lh, b < 2 ^ 32) :
    readHead (headBlock hb lh) = lh := by
  unfold readHead
  rw [headN_headBlock hb lh hlen, Int.toNat_natCast]
  apply List.ext_getElem (by simp)
  intro j hj _
  simp only [List.getElem_map, List.getElem_range]
  have hj' : j < lh.length := by simpa using hj
  have hslot := getWord_setEntries_slot (setInt32 hb 0 lh.length) (i := 0) lh hj'
    (by simp [BSIZE] at hlen ⊢; omega)
  rw [Nat.zero_add] at hslot
  unfold headBlock
  rw [hslot, Nat.mod_eq_of_lt (hword _ (List.getElem_mem hj'))]

/-- An empty header, as the clearing `write_head` leaves it. -/
theorem headN_headBlock_nil (hb : Block) : headN (headBlock hb []) = 0 := by
  simpa using headN_headBlock hb [] (by simp)

theorem readHead_of_headN_eq_zero {hb : Block} (h : headN hb = 0) : readHead hb = [] := by
  simp [readHead, h]

end Xv6
