import Xv6.User.Printf
import Mathlib.Data.Nat.Digits.Defs
import Mathlib.Tactic.NormNum

/-!
# What printf prints

Both `printint`s store the digits of their argument lowest first with a
do-while, add '-' for a negative signed value, and print the buffer from the
top down.  `digitLoop_eq` says the do-while computes `Nat.digits` when its
rounds suffice (`64` in the kernel, `32` in user space, so every value of the
width fits), and `reverse_digitLoop_sign` turns the whole of `printint` into
`render`: the sign, then the digits of the magnitude, most significant first.

What reaches `printint` is the rest of the story:

* `kernelPrinter_printInt`: an `int` argument is widened to the kernel's
  `long long`, so `%u` and `%x` print it sign-extended to 64 bits, unsigned;
* `kernelPrinter_printLong`: a `uint64` of `%ld` is its signed 64-bit value,
  of `%lu` and `%lx` itself;
* `User.printer_printLong`: the user `%ld`, `%lu` and `%lx` pass the `uint64`
  through `printint`'s `int` parameter, so only its low 32 bits are printed.

`render` is stated with `Nat.digits` and says nothing of the buffer: the
kernel's `buf[16]` holds at most 16 digits, and the length of `printintBuf`
is what the code would store there.
-/

namespace Xv6

open Format

/-- The digits of `n` in base `b`, lowest first; `0` has the one digit 0. -/
def digitsOf (b n : Nat) : List Nat := if n = 0 then [0] else Nat.digits b n

/-- `v` written in base `b` with the digits of `table`: '-' before a negative
value, then the digits of its magnitude, most significant first. -/
def render (table : List UInt8) (b : Nat) (v : Int) : List UInt8 :=
  (if v < 0 then [45] else []) ++ ((digitsOf b v.natAbs).map (table.getD · 0)).reverse

theorem digitsOf_of_lt {b n : Nat} (hn : n < b) : digitsOf b n = [n] := by
  unfold digitsOf
  by_cases h0 : n = 0
  · rw [if_pos h0, h0]
  · rw [if_neg h0, Nat.digits_of_lt b n h0 hn]

theorem digitsOf_of_le {b n : Nat} (hb : 1 < b) (hn : b ≤ n) :
    digitsOf b n = n % b :: digitsOf b (n / b) := by
  have hpos : 0 < n / b := Nat.div_pos hn (by omega)
  unfold digitsOf
  rw [if_neg (by omega), if_neg (by omega), Nat.digits_def' hb (by omega)]

/-- The do-while of `printint` computes the digits of `x`, lowest first, when
its rounds suffice. -/
theorem digitLoop_eq (table : List UInt8) {b : Nat} (hb : 1 < b) (fuel : Nat) :
    ∀ x, x < b ^ (fuel + 1) → digitLoop table b (fuel + 1) x = (digitsOf b x).map (table.getD · 0) := by
  induction fuel with
  | zero =>
    intro x hx
    rw [Nat.zero_add, Nat.pow_one] at hx
    rw [digitLoop, Nat.div_eq_of_lt hx, if_pos rfl, digitsOf_of_lt hx, Nat.mod_eq_of_lt hx]
    rfl
  | succ fuel ih =>
    intro x hx
    by_cases hsmall : x < b
    · rw [digitLoop, Nat.div_eq_of_lt hsmall, if_pos rfl, digitsOf_of_lt hsmall,
        Nat.mod_eq_of_lt hsmall]
      rfl
    · -- more than one digit: the round stores `x % b` and goes on with `x / b`
      have hdiv : x / b ≠ 0 := (Nat.div_pos (by omega) (by omega)).ne'
      have hlt : x / b < b ^ (fuel + 1) := by
        rw [Nat.div_lt_iff_lt_mul (by omega), ← Nat.pow_succ]
        exact hx
      rw [digitLoop, if_neg hdiv, ih _ hlt, digitsOf_of_le hb (n := x) (by omega), List.map_cons]

/-- The bytes of `printint`: the digits its do-while stores, lowest first,
and the '-' it adds, printed from the top down, are `v` rendered. -/
theorem reverse_digitLoop_sign (table : List UInt8) {b : Nat} (hb : 1 < b) {fuel x : Nat}
    (hx : x < b ^ (fuel + 1)) {neg : Bool} {v : Int} (hv : v.natAbs = x)
    (hneg : v < 0 ↔ neg = true) :
    (digitLoop table b (fuel + 1) x ++ if neg then [45] else []).reverse = render table b v := by
  rw [List.reverse_append, digitLoop_eq table hb fuel x hx, render, hv]
  cases neg with
  | false => simp [show ¬ v < 0 from fun h => by simpa using hneg.mp h]
  | true => simp [hneg.mpr rfl]

/-- The kernel's `printint` writes `xx` in `base`: its signed value when
`sign` is set, its 64-bit unsigned value otherwise. -/
theorem printint_eq_render {xx : Int} (hlo : -2 ^ 63 ≤ xx) (hhi : xx < 2 ^ 63) {base : Nat}
    (hb : 1 < base) (sign : Bool) :
    printint xx base sign = render digits base (if sign then xx else xx % 2 ^ 64) := by
  have hpow : 2 ^ 64 ≤ base ^ (63 + 1) := Nat.pow_le_pow_left hb 64
  unfold printint printintBuf
  dsimp only
  apply reverse_digitLoop_sign digits hb
  · -- `x` is an unsigned long long
    have hx : ((if (sign && decide (xx < 0)) = true then -xx else xx) % 2 ^ 64).toNat < 2 ^ 64 := by
      omega
    exact Nat.lt_of_lt_of_le hx hpow
  · cases sign <;> by_cases hneg : xx < 0 <;> simp [hneg] <;> omega
  · cases sign <;> by_cases hneg : xx < 0 <;> simp [hneg] <;> omega

theorem int32_lo (v : Nat) : -2 ^ 31 ≤ int32 v := by
  unfold int32
  split_ifs <;> omega

theorem int32_hi (v : Nat) : int32 v < 2 ^ 31 := by
  unfold int32
  split_ifs <;> omega

/-- An `int` argument keeps its value in `printint`'s `long long`: `%d` prints
it signed, and `%u` and `%x` print it sign-extended to 64 bits, unsigned. -/
theorem kernelPrinter_printInt (v : Nat) {base : Nat} (hb : 1 < base) (sign : Bool) :
    kernelPrinter.printInt (int32 v) base sign =
      render digits base (if sign then int32 v else int32 v % 2 ^ 64) :=
  printint_eq_render (by have := int32_lo v; omega) (by have := int32_hi v; omega) hb sign

/-- A `uint64` argument: `%ld` prints it as a signed 64-bit value, `%lu` and
`%lx` print it unsigned. -/
theorem kernelPrinter_printLong {w : Nat} (hw : w < 2 ^ 64) {base : Nat} (hb : 1 < base)
    (sign : Bool) :
    kernelPrinter.printLong w base sign = render digits base (if sign then signed64 w else w) := by
  show printint (signed64 w) base sign = _
  rw [printint_eq_render (by unfold signed64; split_ifs <;> omega)
    (by unfold signed64; split_ifs <;> omega) hb sign]
  cases sign with
  | true => rfl
  | false =>
    congr 1
    unfold signed64
    split_ifs <;> omega

/-- The user `printint` writes `xx` in `base`: its signed value when `sgn` is
set, its 32-bit unsigned value otherwise. -/
theorem User.printint_eq_render {xx : Int} (hlo : -2 ^ 31 ≤ xx) (hhi : xx < 2 ^ 31) {base : Nat}
    (hb : 1 < base) (sgn : Bool) :
    User.printint xx base sgn = render User.digits base (if sgn then xx else xx % 2 ^ 32) := by
  have hpow : 2 ^ 32 ≤ base ^ (31 + 1) := Nat.pow_le_pow_left hb 32
  unfold User.printint User.printintBuf
  dsimp only
  apply reverse_digitLoop_sign User.digits hb
  · have hx : ((if (sgn && decide (xx < 0)) = true then -xx else xx) % 2 ^ 32).toNat < 2 ^ 32 := by
      omega
    exact Nat.lt_of_lt_of_le hx hpow
  · cases sgn <;> by_cases hneg : xx < 0 <;> simp [hneg] <;> omega
  · cases sgn <;> by_cases hneg : xx < 0 <;> simp [hneg] <;> omega

/-- A `uint64` argument of the user `%ld`, `%lu` or `%lx` is printed as its
low 32 bits, signed for `%ld`. -/
theorem User.printer_printLong (w : Nat) {base : Nat} (hb : 1 < base) (sgn : Bool) :
    User.printer.printLong w base sgn =
      render User.digits base (if sgn then int32 w else (w % 2 ^ 32 : Nat)) := by
  show User.printint (int32 w) base sgn = _
  rw [User.printint_eq_render (int32_lo w) (int32_hi w) hb sgn]
  cases sgn with
  | true => rfl
  | false =>
    congr 1
    unfold int32
    split_ifs <;> omega

/-- The kernel's `printf("%u", -1)` prints the `int` sign-extended to 64 bits,
`18446744073709551615`, not `4294967295`, and its `printint` stores those 20
digits in the 16 bytes of `buf`; `printf("%x", 0x80000000)` prints
`ffffffff80000000`; `printf("%lu", ~0UL)` stores 20 digits too. -/
theorem printf_sign_extends_and_overflows :
    printf [37, 117] [.word 0xFFFFFFFFFFFFFFFF] = render digits 10 (2 ^ 64 - 1) ∧
      render digits 10 (2 ^ 64 - 1) ≠ render digits 10 (2 ^ 32 - 1) ∧
      16 < (printintBuf (-1) 10 false).length ∧
      printf [37, 120] [.word 0x80000000] = render digits 16 (2 ^ 64 - 2 ^ 31) ∧
      render digits 16 (2 ^ 64 - 2 ^ 31) ≠ render digits 16 (2 ^ 31) ∧
      16 < (printintBuf (signed64 (2 ^ 64 - 1)) 10 false).length := by
  have hu : printf [37, 117] [.word 0xFFFFFFFFFFFFFFFF] =
      kernelPrinter.printInt (int32 (2 ^ 64 - 1)) 10 false := by
    simp only [printf, Printer.run, vaInt, List.append_nil]
    rfl
  have hx : printf [37, 120] [.word 0x80000000] = kernelPrinter.printInt (int32 (2 ^ 31)) 16 false := by
    simp only [printf, Printer.run, vaInt, List.append_nil]
    rfl
  refine ⟨?_, ?_, by decide, ?_, ?_, by decide⟩
  · rw [hu, kernelPrinter_printInt _ (by decide)]
    norm_num [int32]
  · -- 20 digits against 10
    intro h
    have hlen := congrArg List.length h
    norm_num [render, digitsOf] at hlen
  · rw [hx, kernelPrinter_printInt _ (by decide)]
    norm_num [int32]
  · -- 16 digits against 8
    intro h
    have hlen := congrArg List.length h
    norm_num [render, digitsOf] at hlen

/-- The user `printf("%ld", 1L<<32)` prints `0`: the `uint64` reaches
`printint` through its `int` parameter, as its low 32 bits. -/
theorem vprintf_ld_truncates :
    User.vprintf [37, 108, 100] [.word 0x100000000] = render User.digits 10 0 ∧
      render User.digits 10 0 ≠ render User.digits 10 (2 ^ 32) := by
  have hld : User.vprintf [37, 108, 100] [.word 0x100000000] =
      User.printer.printLong (2 ^ 32) 10 true := by
    simp only [User.vprintf, Printer.run, vaLong, List.append_nil]
    rfl
  refine ⟨?_, ?_⟩
  · rw [hld, User.printer_printLong _ (by decide)]
    norm_num [int32]
  · -- one digit against ten
    intro h
    have hlen := congrArg List.length h
    norm_num [render, digitsOf] at hlen

end Xv6
