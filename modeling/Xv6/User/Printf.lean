import Xv6.Printf

/-!
# The user printf

`printint`, `printptr` and `vprintf` of `user/printf.c`.  The loop is the
kernel's (`Format.Printer.run`); what differs is `printint`, whose parameter
`xx` is an `int`: a `uint64` argument of `%ld`, `%lu` or `%lx` reaches it as
its low 32 bits.  The digits are upper case.
-/

namespace Xv6.User

open Format

/-- `digits` of `user/printf.c`: `"0123456789ABCDEF"`. -/
def digits : List UInt8 := [48, 49, 50, 51, 52, 53, 54, 55, 56, 57, 65, 66, 67, 68, 69, 70]

/-- `buf` of `printint(fd, xx, base, sgn)` once the do-while ends; `x` is a
`uint`, so at most 32 rounds run. -/
def printintBuf (xx : Int) (base : Nat) (sgn : Bool) : List UInt8 :=
  let neg := sgn && decide (xx < 0)
  let x := ((if neg then -xx else xx) % 2 ^ 32).toNat
  digitLoop digits base 32 x ++ if neg then [45] else []

/-- `printint(fd, xx, base, sgn)`: `while(--i >= 0) putc(fd, buf[i])`. -/
def printint (xx : Int) (base : Nat) (sgn : Bool) : List UInt8 :=
  (printintBuf xx base sgn).reverse

/-- `printptr(fd, x)`. -/
def printptr (x : Nat) : List UInt8 := [48, 120] ++ ptrLoop digits 16 x

/-- What `vprintf` passes: an `int` as it is, a `uint64` as the `int`
parameter of `printint`, its low 32 bits. -/
def printer : Printer where
  printInt xx base sgn := printint xx base sgn
  printLong v base sgn := printint (int32 v) base sgn
  printptr := printptr

/-- `vprintf(fd, fmt, ap)`: the bytes it writes to `fd`. -/
def vprintf (fmt : List UInt8) (args : List Arg) : List UInt8 := printer.run fmt args

end Xv6.User
