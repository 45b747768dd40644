import Mathlib
import Xv6.Lib.CString

/-!
# printf

The format loop that the kernel's `printf` (`kernel/printf.c`) and the user
`vprintf` (`user/printf.c`) share, and the kernel's `printint`, `printptr`
and `printf`.  The two loops are written differently (the kernel advances
`i` past the '%' itself, the user version keeps a `state`), but they read a
conversion the same way: `c0` is the byte after '%', `c1` and `c2` the two
after it when they exist, and `%ld`/`%lld`, `%lu`/`%llu`, `%lx`/`%llx` skip
the `l`s.  So one loop, `Format.Printer.run`, is both, applied to what each
file passes to its own `printint` and `printptr`.

Each variadic argument occupies a 64-bit slot (`Arg.word`), or is a string
(`Arg.str`, `none` for a null pointer).  `va_arg(ap, int)` reads the low 32
bits of the slot as a signed int, `va_arg(ap, uint64)` the whole slot.  A
slot read as the other kind, or read past the last argument, is undefined in
C; it reads as 0 or as a null pointer here.
-/

namespace Xv6

namespace Format

/-- A variadic argument: a 64-bit slot, or a `char *`. -/
inductive Arg
  | word (v : UInt64)
  | str (s : Option (List UInt8))

/-- The low 32 bits of a word, as a signed int. -/
def int32 (v : Nat) : Int :=
  if v % 2 ^ 32 < 2 ^ 31 then (v % 2 ^ 32 : Nat) else (v % 2 ^ 32 : Nat) - 2 ^ 32

/-- `va_arg(ap, int)`. -/
def vaInt : List Arg → Int
  | .word v :: _ => int32 v.toNat
  | _ => 0

/-- `va_arg(ap, uint64)`. -/
def vaLong : List Arg → Nat
  | .word v :: _ => v.toNat
  | _ => 0

/-- `va_arg(ap, char*)`. -/
def vaStr : List Arg → Option (List UInt8)
  | .str s :: _ => s
  | _ => none

/-- The do-while of `printint`: `buf[i++] = digits[x % base]` until
`(x /= base) == 0`, so `buf` receives the digits of `x`, lowest first.
`fuel` bounds the rounds. -/
def digitLoop (digits : List UInt8) (base : Nat) : Nat → Nat → List UInt8
  | 0, _ => []
  | fuel + 1, x =>
    digits.getD (x % base) 0 :: if x / base = 0 then [] else digitLoop digits base fuel (x / base)

/-- The loop of `printptr`: sixteen times the top four bits of `x` through
`digits`, then `x <<= 4` in 64 bits. -/
def ptrLoop (digits : List UInt8) : Nat → Nat → List UInt8
  | 0, _ => []
  | n + 1, x => digits.getD (x / 2 ^ 60) 0 :: ptrLoop digits n (x * 16 % 2 ^ 64)

/-- `"(null)"`. -/
def nullStr : List UInt8 := [40, 110, 117, 108, 108, 41]

/-- What a file's format loop hands to its own `printint` and `printptr`:
the bytes `printint` puts out for an argument read as `int`, and for one read
as `uint64`, in the given base and with the given sign flag; and the bytes
of `printptr`. -/
structure Printer where
  printInt : Int → Nat → Bool → List UInt8
  printLong : Nat → Nat → Bool → List UInt8
  printptr : Nat → List UInt8

/-- The format loop: the bytes printed for `fmt` with the arguments
`args`. -/
def Printer.run (pr : Printer) : List UInt8 → List Arg → List UInt8
  | [], _ => []
  | 37 :: 100 :: fmt, args => pr.printInt (vaInt args) 10 true ++ pr.run fmt args.tail
  | 37 :: 108 :: 100 :: fmt, args => pr.printLong (vaLong args) 10 true ++ pr.run fmt args.tail
  | 37 :: 108 :: 108 :: 100 :: fmt, args =>
    pr.printLong (vaLong args) 10 true ++ pr.run fmt args.tail
  | 37 :: 117 :: fmt, args => pr.printInt (vaInt args) 10 false ++ pr.run fmt args.tail
  | 37 :: 108 :: 117 :: fmt, args => pr.printLong (vaLong args) 10 false ++ pr.run fmt args.tail
  | 37 :: 108 :: 108 :: 117 :: fmt, args =>
    pr.printLong (vaLong args) 10 false ++ pr.run fmt args.tail
  | 37 :: 120 :: fmt, args => pr.printInt (vaInt args) 16 false ++ pr.run fmt args.tail
  | 37 :: 108 :: 120 :: fmt, args => pr.printLong (vaLong args) 16 false ++ pr.run fmt args.tail
  | 37 :: 108 :: 108 :: 120 :: fmt, args =>
    pr.printLong (vaLong args) 16 false ++ pr.run fmt args.tail
  | 37 :: 112 :: fmt, args => pr.printptr (vaLong args) ++ pr.run fmt args.tail
  | 37 :: 115 :: fmt, args =>
    (match vaStr args with
      | none => nullStr
      | some s => CString.str s) ++ pr.run fmt args.tail
  | 37 :: 37 :: fmt, args => 37 :: pr.run fmt args
  | [37], _ => []
  -- an unknown % sequence is printed to draw attention
  | 37 :: c :: fmt, args => 37 :: c :: pr.run fmt args
  | c :: fmt, args => c :: pr.run fmt args

end Format

open Format

/-- `digits` of `kernel/printf.c`: `"0123456789abcdef"`. -/
def digits : List UInt8 := [48, 49, 50, 51, 52, 53, 54, 55, 56, 57, 97, 98, 99, 100, 101, 102]

/-- `buf` of `printint(xx, base, sign)` once the do-while ends: the digits of
`x`, lowest first, then '-' when `sign` is set and `xx < 0`.  `xx` is a
`long long` and `x` an `unsigned long long`, so at most 64 rounds run.  The
C array has 16 bytes; nothing stops `i` at 16. -/
def printintBuf (xx : Int) (base : Nat) (sign : Bool) : List UInt8 :=
  let sign := sign && decide (xx < 0)
  let x := ((if sign then -xx else xx) % 2 ^ 64).toNat
  digitLoop digits base 64 x ++ if sign then [45] else []

/-- `printint(xx, base, sign)`: `while(--i >= 0) consputc(buf[i])`. -/
def printint (xx : Int) (base : Nat) (sign : Bool) : List UInt8 :=
  (printintBuf xx base sign).reverse

/-- `printptr(x)`: "0x", then the sixteen hex digits of `x`. -/
def printptr (x : Nat) : List UInt8 := [48, 120] ++ ptrLoop digits 16 x

/-- A `uint64` as the `long long` parameter of `printint`. -/
def signed64 (v : Nat) : Int := if v < 2 ^ 63 then v else (v : Int) - 2 ^ 64

/-- What the kernel's format loop passes: an `int` keeps its value as a
`long long`, a `uint64` is read as one. -/
def kernelPrinter : Printer where
  printInt xx base sign := printint xx base sign
  printLong v base sign := printint (signed64 v) base sign
  printptr := printptr

/-- `printf(fmt, ...)` of `kernel/printf.c`: the bytes it hands to
`consputc`. -/
def printf (fmt : List UInt8) (args : List Arg) : List UInt8 := kernelPrinter.run fmt args

end Xv6
