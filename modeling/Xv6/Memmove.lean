import Xv6.Lib.Move

/-!
# memmove, in the kernel and in user space

`memmove` of `kernel/string.c` and of `user/ulib.c`, over the bytes of
memory addressed by `Nat`.  The two pick the direction of the copy by
different tests: the kernel copies downwards exactly when the source starts
below the destination and reaches into it, the user version whenever the
source does not start above the destination.  Both return `dst`, which is
left out here: the model is the memory the call leaves.
-/

namespace Xv6

/-- `memmove(dst, src, n)` of `kernel/string.c`; `n` is a `uint`. -/
def memmove (m : Nat → UInt8) (dst src n : Nat) : Nat → UInt8 :=
  if n = 0 then m
  else if src < dst ∧ src + n > dst then Move.copyDown m (dst + n) (src + n) n
  else Move.copyUp m dst src n

namespace User

/-- `memmove(vdst, vsrc, n)` of `user/ulib.c`; `n` is an `int`, and
`while(n-- > 0)` runs `n.toNat` times, so for `n ≤ 0` nothing is copied and
where `dst += n` moved the pointers does not matter. -/
def memmove (m : Nat → UInt8) (vdst vsrc : Nat) (n : Int) : Nat → UInt8 :=
  if vsrc > vdst then Move.copyUp m vdst vsrc n.toNat
  else Move.copyDown m (vdst + n.toNat) (vsrc + n.toNat) n.toNat

end User

end Xv6
