import Xv6.Vm.Sv39

/-!
# Growing and shrinking a process

`growproc` of `kernel/proc.c` and `sys_sbrk` of `kernel/sysproc.c`, over the
two fields of `struct proc` they use.  The argument of `sbrk` is the `int`
that `argint` makes of the register; `sz + n` adds it, sign-extended, to the
`uint64` size, modulo `2^64`.
-/

namespace Xv6.Vm

/-- The fields of `struct proc` that `growproc` reads and writes. -/
structure UProc where
  /-- `sz`: size of process memory (bytes). -/
  sz : Nat
  /-- `pagetable`: the user page table. -/
  pagetable : Nat

/-- `sz + n` for the `uint64` `sz` and the `int` `n`. -/
def addInt (sz : Nat) (n : Int) : Nat := ((sz + n) % 2 ^ 64).toNat

/-- `growproc(n)`: 0 and the process with its new size, or -1. -/
def growproc (m : Phys) (p : UProc) (n : Int) : Except String (Int × UProc × Phys) := do
  let sz := p.sz
  if n > 0 then
    let (sz, m) ← uvmalloc m p.pagetable sz (addInt sz n) PTE_W
    if sz = 0 then return (-1, p, m)
    else return (0, { p with sz }, m)
  else if n < 0 then
    let (sz, m) ← uvmdealloc m p.pagetable sz (addInt sz n)
    return (0, { p with sz }, m)
  else return (0, p, m)

/-- `sys_sbrk()` with `argint(0, &n)` giving `n`: the old size, or -1. -/
def sys_sbrk (m : Phys) (p : UProc) (n : Int) : Except String (Int × UProc × Phys) := do
  let addr := p.sz
  let (r, p, m) ← growproc m p n
  if r < 0 then return (-1, p, m)
  else return (addr, p, m)

end Xv6.Vm
