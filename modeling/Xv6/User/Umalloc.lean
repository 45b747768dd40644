import Xv6.Vm.Grow
import Xv6.Lib.LittleEndian

/-!
# The user allocator

`user/umalloc.c`, the allocator of Kernighan and Ritchie.  Each block starts
with a `Header` of `sizeof(Header) = 16` bytes: `s.ptr`, the next block on
the free list, and `s.size`, the `uint` length of the block in headers, its
own included.  The free list is circular through the static `base`, and
`freep` is where the last search stopped.  Pointer arithmetic on `Header *`
moves by 16 bytes, so `p + n` is the address `p + 16 * n`.

The process is seen as the allocator sees it: the header at each address, and
the break `p->sz` that `sbrk` moves.  `sbrk` is `sys_sbrk` over the size alone:
growing fails past `limit`, where `kalloc` runs out of pages, and shrinking is
`uvmdealloc`, with the `int` argument added to the `uint64` size by
`Vm.addInt`, as `growproc` does.

The loops follow `s.ptr` with no bound; they take a `fuel` here, and give
`none` once it runs out.
-/

namespace Xv6.Umalloc

open LittleEndian

/-- `sizeof(Header)`. -/
def HSIZE : Nat := 16

/-- `union header`, as the allocator reads it. -/
structure Header where
  /-- `s.ptr`: the next block on the free list. -/
  ptr : Nat
  /-- `s.size`: the size of this block, in headers. -/
  size : Nat

/-- The process, as the allocator sees it. -/
structure UMem where
  /-- The header at each address. -/
  hdr : Nat → Header
  /-- `freep`: where the last search stopped, or `0` before the first `malloc`. -/
  freep : Nat
  /-- `p->sz`: the break. -/
  sz : Nat
  /-- `&base`, in the program's data. -/
  base : Nat
  /-- How far the break can grow before `kalloc` runs out of pages. -/
  limit : Nat

namespace UMem

/-- `p->s.ptr`. -/
def ptr (m : UMem) (p : Nat) : Nat := (m.hdr p).ptr

/-- `p->s.size`. -/
def size (m : UMem) (p : Nat) : Nat := (m.hdr p).size

/-- `p->s.ptr = v`. -/
def setPtr (m : UMem) (p v : Nat) : UMem :=
  { m with hdr := Function.update m.hdr p { m.hdr p with ptr := v } }

/-- `p->s.size = v`, in a `uint`. -/
def setSize (m : UMem) (p v : Nat) : UMem :=
  { m with hdr := Function.update m.hdr p { m.hdr p with size := v % 2 ^ 32 } }

end UMem

/-- `sbrk(n)`: the old break, or `(char*)-1`. -/
def sbrk (m : UMem) (n : Int) : Nat × UMem :=
  if n > 0 then
    if Vm.addInt m.sz n ≤ m.limit then (m.sz, { m with sz := Vm.addInt m.sz n })
    else (2 ^ 64 - 1, m)
  else if n < 0 then
    -- `uvmdealloc` leaves a size at or above the old one as it was
    (m.sz, { m with sz := if Vm.addInt m.sz n ≥ m.sz then m.sz else Vm.addInt m.sz n })
  else (m.sz, m)

/-- The search loop of `free`: the block after which `bp` goes. -/
def freeSearch (m : UMem) (bp : Nat) : Nat → Nat → Option Nat
  | 0, _ => none
  | fuel + 1, p =>
    if bp > p ∧ bp < m.ptr p then some p
    -- `p` is the last block before the wrap, and `bp` lies past either end
    else if p ≥ m.ptr p ∧ (bp > p ∨ bp < m.ptr p) then some p
    else freeSearch m bp fuel (m.ptr p)

/-- `free(ap)`. -/
def free (fuel : Nat) (m : UMem) (ap : Nat) : Option UMem := do
  let bp := ap - HSIZE
  let p ← freeSearch m bp fuel m.freep
  -- join to the block above
  let m :=
    if bp + HSIZE * m.size bp = m.ptr p then
      let m := m.setSize bp (m.size bp + m.size (m.ptr p))
      m.setPtr bp (m.ptr (m.ptr p))
    else m.setPtr bp (m.ptr p)
  -- join to the block below
  let m :=
    if p + HSIZE * m.size p = bp then
      let m := m.setSize p (m.size p + m.size bp)
      m.setPtr p (m.ptr bp)
    else m.setPtr p bp
  return { m with freep := p }

/-- `morecore(nu)`: the new `freep`, or `0` when `sbrk` fails. -/
def morecore (fuel : Nat) (m : UMem) (nu : Nat) : Option (Nat × UMem) := do
  let nu := if nu < 4096 then 4096 else nu
  -- `nu * sizeof(Header)` is an `unsigned long`, and `sbrk` takes an `int`
  let (p, m) := sbrk m (toInt32 (nu * HSIZE % 2 ^ 32))
  if p = 2 ^ 64 - 1 then return (0, m)
  let hp := p
  let m := m.setSize hp nu
  let m ← free fuel m (hp + HSIZE)
  return (m.freep, m)

/-- The search loop of `malloc`, at `p = prevp->s.ptr`. -/
def mallocLoop (ffuel nunits : Nat) : Nat → Nat → Nat → UMem → Option (Nat × UMem)
  | 0, _, _, _ => none
  | fuel + 1, prevp, p, m =>
    if m.size p ≥ nunits then
      if m.size p = nunits then
        let m := m.setPtr prevp (m.ptr p)
        some (p + HSIZE, { m with freep := prevp })
      else
        -- allocate the tail end
        let m := m.setSize p (m.size p - nunits)
        let p := p + HSIZE * m.size p
        let m := m.setSize p nunits
        some (p + HSIZE, { m with freep := prevp })
    else if p = m.freep then
      match morecore ffuel m nunits with
      | none => none
      | some (0, m) => some (0, m)
      | some (p, m) => mallocLoop ffuel nunits fuel p (m.ptr p) m
    else mallocLoop ffuel nunits fuel p (m.ptr p) m

/-- `malloc(nbytes)`: the pointer returned, `0` when memory ran out. -/
def malloc (fuel : Nat) (m : UMem) (nbytes : Nat) : Option (Nat × UMem) :=
  let nunits := ((nbytes + HSIZE - 1) / HSIZE + 1) % 2 ^ 32
  let m :=
    if m.freep = 0 then
      { (m.setPtr m.base m.base).setSize m.base 0 with freep := m.base }
    else m
  let prevp := m.freep
  mallocLoop fuel nunits fuel prevp (m.ptr prevp) m

end Xv6.Umalloc
