import Mathlib.Data.Fin.Basic
import Mathlib.Tactic.Ring

/-!
# Little-endian words in a fixed-size byte array

A byte array of size `n` is a function `Fin n → UInt8`.  This file reads and
writes 32-bit little-endian words in it, unsigned and in two's complement, and
16-bit half-words, and proves the two laws a decoder of a C struct laid over
such an array relies on: a word reads back what was last written there, and
writing a word leaves every word that does not overlap it alone.  Reads past
the end of the array see zero bytes, and writes past the end are dropped.
-/

namespace LittleEndian

variable {n : Nat}

/-- The byte at offset `i`, or `0` past the end. -/
def byteAt (a : Fin n → UInt8) (i : Nat) : UInt8 :=
  if h : i < n then a ⟨i, h⟩ else 0

/-- Overwrite the byte at offset `i`; an offset past the end changes nothing. -/
def setByte (a : Fin n → UInt8) (i : Nat) (v : UInt8) : Fin n → UInt8 :=
  fun j => if j.val = i then v else a j

/-- The unsigned 32-bit little-endian word at offset `off`. -/
def getWord (a : Fin n → UInt8) (off : Nat) : Nat :=
  (byteAt a off).toNat + 2 ^ 8 * (byteAt a (off + 1)).toNat +
    2 ^ 16 * (byteAt a (off + 2)).toNat + 2 ^ 24 * (byteAt a (off + 3)).toNat

/-- Store `v` modulo `2^32` as a little-endian word at offset `off`. -/
def setWord (a : Fin n → UInt8) (off v : Nat) : Fin n → UInt8 :=
  setByte (setByte (setByte (setByte a off (UInt8.ofNat v)) (off + 1) (UInt8.ofNat (v / 2 ^ 8)))
    (off + 2) (UInt8.ofNat (v / 2 ^ 16))) (off + 3) (UInt8.ofNat (v / 2 ^ 24))

/-- The unsigned 16-bit little-endian half-word at offset `off`. -/
def getHalf (a : Fin n → UInt8) (off : Nat) : Nat :=
  (byteAt a off).toNat + 2 ^ 8 * (byteAt a (off + 1)).toNat

/-- Store `v` modulo `2^16` as a little-endian half-word at offset `off`. -/
def setHalf (a : Fin n → UInt8) (off v : Nat) : Fin n → UInt8 :=
  setByte (setByte a off (UInt8.ofNat v)) (off + 1) (UInt8.ofNat (v / 2 ^ 8))

/-- The unsigned 64-bit little-endian word at offset `off`. -/
def getDWord (a : Fin n → UInt8) (off : Nat) : Nat :=
  getWord a off + 2 ^ 32 * getWord a (off + 4)

/-- Store `v` modulo `2^64` as a little-endian 64-bit word at offset `off`. -/
def setDWord (a : Fin n → UInt8) (off v : Nat) : Fin n → UInt8 :=
  setWord (setWord a off v) (off + 4) (v / 2 ^ 32)

/-- The `len` bytes from offset `off`. -/
def getBytes (a : Fin n → UInt8) (off len : Nat) : List UInt8 :=
  (List.range len).map fun i => byteAt a (off + i)

/-- `memmove(a + off, src, len)` for the `len` bytes of `src`: overwrite the
bytes from offset `off`; bytes past the end are dropped. -/
def setBytes (a : Fin n → UInt8) (off : Nat) (src : List UInt8) : Fin n → UInt8 :=
  fun j => if off ≤ j.val ∧ j.val < off + src.length then src.getD (j.val - off) 0 else a j

/-- The two's-complement value of a 32-bit word. -/
def toInt32 (w : Nat) : Int :=
  if w < 2 ^ 31 then w else (w : Int) - 2 ^ 32

/-- The signed 32-bit little-endian word at offset `off`. -/
def getInt32 (a : Fin n → UInt8) (off : Nat) : Int :=
  toInt32 (getWord a off)

/-- Store `v` in two's complement as a 32-bit little-endian word at offset `off`. -/
def setInt32 (a : Fin n → UInt8) (off : Nat) (v : Int) : Fin n → UInt8 :=
  setWord a off (v % 2 ^ 32).toNat

/-! ## Bytes -/

theorem byteAt_setByte (a : Fin n → UInt8) (i j : Nat) (v : UInt8) :
    byteAt (setByte a i v) j = if j = i ∧ i < n then v else byteAt a j := by
  unfold byteAt setByte
  by_cases hj : j < n
  · by_cases hji : j = i
    · subst hji
      simp [hj]
    · simp [hj, hji]
  · by_cases hji : j = i
    · subst hji
      simp [hj]
    · simp [hj, hji]

@[simp] theorem byteAt_setByte_self (a : Fin n → UInt8) {i : Nat} (v : UInt8) (h : i < n) :
    byteAt (setByte a i v) i = v := by
  simp [byteAt_setByte, h]

@[simp] theorem byteAt_setByte_of_ne (a : Fin n → UInt8) {i j : Nat} (v : UInt8) (h : j ≠ i) :
    byteAt (setByte a i v) j = byteAt a j := by
  simp [byteAt_setByte, h]

theorem byteAt_setBytes (a : Fin n → UInt8) (off : Nat) (src : List UInt8) (i : Nat) :
    byteAt (setBytes a off src) i =
      if off ≤ i ∧ i < off + src.length ∧ i < n then src.getD (i - off) 0 else byteAt a i := by
  unfold byteAt setBytes
  by_cases hi : i < n
  · by_cases hin : off ≤ i ∧ i < off + src.length
    · simp [hi, hin]
    · simp only [hi, dite_true, hin, if_false]
      rw [if_neg (by tauto)]
  · simp [hi]

theorem byteAt_setBytes_of_lt (a : Fin n → UInt8) {off i : Nat} (src : List UInt8)
    (h : i < off) : byteAt (setBytes a off src) i = byteAt a i := by
  rw [byteAt_setBytes, if_neg (by omega)]

theorem byteAt_setBytes_of_le (a : Fin n → UInt8) {off i : Nat} (src : List UInt8)
    (h : off + src.length ≤ i) : byteAt (setBytes a off src) i = byteAt a i := by
  rw [byteAt_setBytes, if_neg (by omega)]

/-! ## Words -/

@[simp] theorem getWord_zero (off : Nat) : getWord (fun _ : Fin n => (0 : UInt8)) off = 0 := by
  simp [getWord, byteAt]

theorem getWord_lt (a : Fin n → UInt8) (off : Nat) : getWord a off < 2 ^ 32 := by
  have h0 := (byteAt a off).toNat_lt
  have h1 := (byteAt a (off + 1)).toNat_lt
  have h2 := (byteAt a (off + 2)).toNat_lt
  have h3 := (byteAt a (off + 3)).toNat_lt
  unfold getWord
  omega

/-- A word reads back the value last stored at its offset, modulo `2^32`. -/
theorem getWord_setWord_self (a : Fin n → UInt8) {off : Nat} (v : Nat) (h : off + 4 ≤ n) :
    getWord (setWord a off v) off = v % 2 ^ 32 := by
  unfold getWord setWord
  simp (disch := omega) only [byteAt_setByte_self, byteAt_setByte_of_ne]
  simp only [UInt8.toNat_ofNat']
  omega

/-- Storing a word leaves every word that does not overlap it unchanged. -/
theorem getWord_setWord_of_disjoint (a : Fin n → UInt8) {off off' : Nat} (v : Nat)
    (h : off' + 4 ≤ off ∨ off + 4 ≤ off') :
    getWord (setWord a off v) off' = getWord a off' := by
  unfold getWord setWord
  simp (disch := omega) only [byteAt_setByte_of_ne]

/-! ## 64-bit words -/

@[simp] theorem getDWord_zero (off : Nat) : getDWord (fun _ : Fin n => (0 : UInt8)) off = 0 := by
  simp [getDWord]

theorem getDWord_lt (a : Fin n → UInt8) (off : Nat) : getDWord a off < 2 ^ 64 := by
  have h0 := getWord_lt a off
  have h1 := getWord_lt a (off + 4)
  unfold getDWord
  omega

/-- A 64-bit word reads back the value last stored at its offset, modulo `2^64`. -/
theorem getDWord_setDWord_self (a : Fin n → UInt8) {off : Nat} (v : Nat) (h : off + 8 ≤ n) :
    getDWord (setDWord a off v) off = v % 2 ^ 64 := by
  unfold getDWord setDWord
  rw [getWord_setWord_of_disjoint _ _ (by omega), getWord_setWord_self _ _ (by omega),
    getWord_setWord_self _ _ (by omega)]
  omega

/-- Storing a 64-bit word leaves every 64-bit word that does not overlap it unchanged. -/
theorem getDWord_setDWord_of_disjoint (a : Fin n → UInt8) {off off' : Nat} (v : Nat)
    (h : off' + 8 ≤ off ∨ off + 8 ≤ off') :
    getDWord (setDWord a off v) off' = getDWord a off' := by
  unfold getDWord setDWord
  simp (disch := omega) only [getWord_setWord_of_disjoint]

/-! ## Signed words -/

theorem toInt32_of_lt {w : Nat} (h : w < 2 ^ 31) : toInt32 w = w :=
  if_pos h

/-- A signed word reads back any value in the range of a C `int`. -/
theorem getInt32_setInt32_self (a : Fin n → UInt8) {off : Nat} {v : Int} (h : off + 4 ≤ n)
    (hlo : -2 ^ 31 ≤ v) (hhi : v < 2 ^ 31) :
    getInt32 (setInt32 a off v) off = v := by
  unfold getInt32 setInt32
  rw [getWord_setWord_self a _ h]
  unfold toInt32
  split <;> omega

theorem getInt32_setWord_of_disjoint (a : Fin n → UInt8) {off off' : Nat} (v : Nat)
    (h : off' + 4 ≤ off ∨ off + 4 ≤ off') :
    getInt32 (setWord a off v) off' = getInt32 a off' := by
  unfold getInt32
  rw [getWord_setWord_of_disjoint a v h]

theorem getWord_setInt32_of_disjoint (a : Fin n → UInt8) {off off' : Nat} (v : Int)
    (h : off' + 4 ≤ off ∨ off + 4 ≤ off') :
    getWord (setInt32 a off v) off' = getWord a off' :=
  getWord_setWord_of_disjoint a _ h

/-! ## Half-words -/

@[simp] theorem getHalf_zero (off : Nat) : getHalf (fun _ : Fin n => (0 : UInt8)) off = 0 := by
  simp [getHalf, byteAt]

/-- A half-word reads back the value last stored at its offset, modulo `2^16`. -/
theorem getHalf_setHalf_self (a : Fin n → UInt8) {off : Nat} (v : Nat) (h : off + 2 ≤ n) :
    getHalf (setHalf a off v) off = v % 2 ^ 16 := by
  unfold getHalf setHalf
  simp (disch := omega) only [byteAt_setByte_self, byteAt_setByte_of_ne]
  simp only [UInt8.toNat_ofNat']
  omega

theorem getHalf_setHalf_of_disjoint (a : Fin n → UInt8) {off off' : Nat} (v : Nat)
    (h : off' + 2 ≤ off ∨ off + 2 ≤ off') :
    getHalf (setHalf a off v) off' = getHalf a off' := by
  unfold getHalf setHalf
  simp (disch := omega) only [byteAt_setByte_of_ne]

theorem getHalf_setWord_of_disjoint (a : Fin n → UInt8) {off off' : Nat} (v : Nat)
    (h : off' + 2 ≤ off ∨ off + 4 ≤ off') :
    getHalf (setWord a off v) off' = getHalf a off' := by
  unfold getHalf setWord
  simp (disch := omega) only [byteAt_setByte_of_ne]

theorem getWord_setHalf_of_disjoint (a : Fin n → UInt8) {off off' : Nat} (v : Nat)
    (h : off' + 4 ≤ off ∨ off + 2 ≤ off') :
    getWord (setHalf a off v) off' = getWord a off' := by
  unfold getWord setHalf
  simp (disch := omega) only [byteAt_setByte_of_ne]

/-! ## Windows

A C struct laid over an array at offset `o` is the window of its size at `o`:
its fields are the array's words at `o` plus their offsets, and copying the
struct's bytes into the array at `o` makes the window the struct. -/

/-- The `m` bytes from offset `o`, as an array of their own. -/
def window (a : Fin n → UInt8) (o m : Nat) : Fin m → UInt8 :=
  fun i => byteAt a (o + i.val)

variable {m : Nat}

theorem byteAt_window (a : Fin n → UInt8) (o : Nat) {j : Nat} (h : j < m) :
    byteAt (window a o m) j = byteAt a (o + j) := by
  simp [byteAt, window, h]

theorem getWord_window (a : Fin n → UInt8) (o : Nat) {off : Nat} (h : off + 4 ≤ m) :
    getWord (window a o m) off = getWord a (o + off) := by
  unfold getWord
  simp (disch := omega) only [byteAt_window, Nat.add_assoc]

theorem getHalf_window (a : Fin n → UInt8) (o : Nat) {off : Nat} (h : off + 2 ≤ m) :
    getHalf (window a o m) off = getHalf a (o + off) := by
  unfold getHalf
  simp (disch := omega) only [byteAt_window, Nat.add_assoc]

/-- Copying all the bytes of `b` to offset `o` makes the window at `o` the array `b`. -/
theorem window_setBytes_self (a : Fin n → UInt8) (b : Fin m → UInt8) {o : Nat}
    (h : o + m ≤ n) : window (setBytes a o (getBytes b 0 m)) o m = b := by
  funext i
  have hi := i.isLt
  simp only [window, byteAt_setBytes, getBytes, List.length_map, List.length_range]
  rw [if_pos ⟨by omega, by omega, by omega⟩, Nat.add_sub_cancel_left]
  simp [byteAt, hi]

/-- Bytes copied outside a window leave it alone. -/
theorem window_setBytes_of_disjoint (a : Fin n → UInt8) (src : List UInt8) {o o' : Nat}
    (h : o' + m ≤ o ∨ o + src.length ≤ o') : window (setBytes a o src) o' m = window a o' m := by
  funext i
  have hi := i.isLt
  simp only [window, byteAt_setBytes]
  rw [if_neg (by omega)]

end LittleEndian
