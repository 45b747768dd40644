import Xv6.Param
import Xv6.Lib.LittleEndian

/-!
# Sv39 page tables and the page allocator

`kernel/vm.c` and `kernel/kalloc.c` over physical memory.  Memory is a byte
array per physical page; a page-table page holds 512 little-endian 64-bit
PTEs, and `walk` follows them from the root through levels 2 and 1 to the PTE
of level 0, allocating the pages of missing levels when asked.  Addresses and
sizes are the `uint64` values of the source, as `Nat`; the sums that can pass
`2^64` on an input the kernel accepts, the rounding of `PGROUNDUP` and the
physical address that `mappages` steps, are taken modulo `2^64`.  Loops that step an address by `PGSIZE` cannot wrap
before `walk` panics at `MAXVA`, so they step it as a `Nat`.

`kmem.freelist` is kept as the list of its pages, head first; the `next`
pointers that `kfree` writes into the free pages themselves are left out,
since nothing reads a free page before `kalloc` fills it.  The kernel-side
buffers of `copyout`, `copyin` and `copyinstr` are lists of bytes apart from
physical memory.  A panic is an error carrying the message of the source.
-/

namespace Xv6.Vm

open LittleEndian

/-! ## `riscv.h` and `memlayout.h` -/

def PTE_V : Nat := 1 <<< 0
def PTE_R : Nat := 1 <<< 1
def PTE_W : Nat := 1 <<< 2
def PTE_X : Nat := 1 <<< 3
/-- User can access. -/
def PTE_U : Nat := 1 <<< 4

/-- Shift a physical address to the right place for a PTE. -/
def PA2PTE (pa : Nat) : Nat := (pa >>> 12) <<< 10

/-- `(pte >> 10) << 12` in `uint64`. -/
def PTE2PA (pte : Nat) : Nat := ((pte >>> 10) <<< 12) % 2 ^ 64

def PTE_FLAGS (pte : Nat) : Nat := pte &&& 0x3FF

def PXMASK : Nat := 0x1FF

def PXSHIFT (level : Nat) : Nat := 12 + 9 * level

/-- The 9-bit index of `va` at `level`. -/
def PX (level va : Nat) : Nat := (va >>> PXSHIFT level) &&& PXMASK

/-- `(sz + PGSIZE - 1) & ~(PGSIZE - 1)` in `uint64`. -/
def PGROUNDUP (sz : Nat) : Nat := (sz + PGSIZE - 1) % 2 ^ 64 / PGSIZE * PGSIZE

/-- `a & ~(PGSIZE - 1)`. -/
def PGROUNDDOWN (a : Nat) : Nat := a / PGSIZE * PGSIZE

def KERNBASE : Nat := 0x80000000
def PHYSTOP : Nat := KERNBASE + 128 * 1024 * 1024
def TRAMPOLINE : Nat := MAXVA - PGSIZE
def TRAPFRAME : Nat := TRAMPOLINE - PGSIZE

/-! ## Physical memory -/

/-- The bytes of a physical page. -/
abbrev Page := Fin PGSIZE → UInt8

/-- Physical memory and the allocator's free list. -/
structure Phys where
  /-- The bytes of the page at physical address `pa` are `pages (pa / PGSIZE)`. -/
  pages : Nat → Page
  /-- `kmem.freelist`, head first. -/
  freelist : List Nat
  /-- `end`, the first address after the kernel, fixed by `kernel.ld`. -/
  kend : Nat

namespace Phys

/-- The byte at physical address `pa`. -/
def byte (m : Phys) (pa : Nat) : UInt8 := byteAt (m.pages (pa / PGSIZE)) (pa % PGSIZE)

/-- The 64-bit word at physical address `pa`, which does not cross a page. -/
def load (m : Phys) (pa : Nat) : Nat := getDWord (m.pages (pa / PGSIZE)) (pa % PGSIZE)

/-- `*(uint64 *)pa = v`. -/
def store (m : Phys) (pa v : Nat) : Phys :=
  let page := setDWord (m.pages (pa / PGSIZE)) (pa % PGSIZE) v
  { m with pages := Function.update m.pages (pa / PGSIZE) page }

/-- `memset(pa, c, PGSIZE)` on the page at `pa`. -/
def memset (m : Phys) (pa : Nat) (c : UInt8) : Phys :=
  { m with pages := Function.update m.pages (pa / PGSIZE) fun _ => c }

/-- `memmove(pa, src, n)` for the `n` bytes of `src`, which stay inside the page of `pa`. -/
def memmove (m : Phys) (pa : Nat) (src : List UInt8) : Phys :=
  let page := setBytes (m.pages (pa / PGSIZE)) (pa % PGSIZE) src
  { m with pages := Function.update m.pages (pa / PGSIZE) page }

/-- `memmove(dst, src, PGSIZE)` for the pages at `dst` and `src`. -/
def copyPage (m : Phys) (dst src : Nat) : Phys :=
  { m with pages := Function.update m.pages (dst / PGSIZE) (m.pages (src / PGSIZE)) }

/-- The `n` bytes from physical address `pa`, inside its page. -/
def read (m : Phys) (pa n : Nat) : List UInt8 := getBytes (m.pages (pa / PGSIZE)) (pa % PGSIZE) n

end Phys

/-! ## `kalloc.c` -/

/-- `kalloc()`: the head of the free list, filled with junk, or `0`. -/
def kalloc (m : Phys) : Nat × Phys :=
  match m.freelist with
  | [] => (0, m)
  | r :: rest => (r, ({ m with freelist := rest }).memset r 5)

/-- `kfree(pa)`: fill the page with junk and push it on the free list. -/
def kfree (m : Phys) (pa : Nat) : Except String Phys :=
  if pa % PGSIZE ≠ 0 ∨ pa < m.kend ∨ pa ≥ PHYSTOP then .error "kfree"
  else .ok { m.memset pa 1 with freelist := pa :: m.freelist }

/-! ## `vm.c` -/

/-- The loop of `walk` from the page-table page `pagetable` of `level`: the
address of the PTE of `va` at level 0, or `0`. -/
def walkLevels (va : Nat) (alloc : Bool) : Nat → Nat → Phys → Nat × Phys
  | 0, pagetable, m => (pagetable + 8 * PX 0 va, m)
  | level + 1, pagetable, m =>
    let pte := pagetable + 8 * PX (level + 1) va
    if m.load pte &&& PTE_V ≠ 0 then
      walkLevels va alloc level (PTE2PA (m.load pte)) m
    else if !alloc then (0, m)
    else
      match kalloc m with
      | (0, m) => (0, m)
      | (p, m) => walkLevels va alloc level p ((m.memset p 0).store pte (PA2PTE p ||| PTE_V))

/-- `walk(pagetable, va, alloc)`: the address of the PTE of `va`, creating any
required page-table pages if `alloc`, or `0`. -/
def walk (m : Phys) (pagetable va : Nat) (alloc : Bool) : Except String (Nat × Phys) :=
  if va ≥ MAXVA then .error "walk" else .ok (walkLevels va alloc 2 pagetable m)

/-- `walkaddr(pagetable, va)`: the physical page of a user page, or `0`. -/
def walkaddr (m : Phys) (pagetable va : Nat) : Nat :=
  if va ≥ MAXVA then 0
  else
    match walk m pagetable va false with
    | .ok (pte, m) =>
      if pte = 0 then 0
      else if m.load pte &&& PTE_V = 0 then 0
      else if m.load pte &&& PTE_U = 0 then 0
      else PTE2PA (m.load pte)
    -- not reached: `walk` panics only at `MAXVA`
    | .error _ => 0

/-- The loop of `mappages`: `n` more pages from `a`, mapped to the pages from
`pa`, a `uint64`.  It runs `size / PGSIZE` rounds, the last at `a = last`. -/
def mappagesLoop (pagetable perm : Nat) : Nat → Phys → Nat → Nat → Except String (Int × Phys)
  | 0, m, _, _ => .ok (0, m)
  | n + 1, m, a, pa => do
    let (pte, m) ← walk m pagetable a true
    if pte = 0 then pure (-1, m)
    else if m.load pte &&& PTE_V ≠ 0 then throw "mappages: remap"
    else
      let m := m.store pte (PA2PTE pa ||| perm ||| PTE_V)
      mappagesLoop pagetable perm n m (a + PGSIZE) ((pa + PGSIZE) % 2 ^ 64)

/-- `mappages(pagetable, va, size, pa, perm)`. -/
def mappages (m : Phys) (pagetable va size pa perm : Nat) : Except String (Int × Phys) :=
  if va % PGSIZE ≠ 0 then .error "mappages: va not aligned"
  else if size % PGSIZE ≠ 0 then .error "mappages: size not aligned"
  else if size = 0 then .error "mappages: size"
  else mappagesLoop pagetable perm (size / PGSIZE) m va pa

/-- The loop of `uvmunmap`: `n` more pages from `a`. -/
def uvmunmapLoop (pagetable : Nat) (do_free : Bool) : Nat → Phys → Nat → Except String Phys
  | 0, m, _ => .ok m
  | n + 1, m, a => do
    let (pte, m) ← walk m pagetable a false
    if pte = 0 then throw "uvmunmap: walk"
    else if m.load pte &&& PTE_V = 0 then throw "uvmunmap: not mapped"
    else if PTE_FLAGS (m.load pte) = PTE_V then throw "uvmunmap: not a leaf"
    else
      let m ← if do_free then kfree m (PTE2PA (m.load pte)) else pure m
      uvmunmapLoop pagetable do_free n (m.store pte 0) (a + PGSIZE)

/-- `uvmunmap(pagetable, va, npages, do_free)`. -/
def uvmunmap (m : Phys) (pagetable va npages : Nat) (do_free : Bool) : Except String Phys :=
  if va % PGSIZE ≠ 0 then .error "uvmunmap: not aligned"
  else uvmunmapLoop pagetable do_free npages m va

/-- `uvmdealloc(pagetable, oldsz, newsz)`.  `npages` is an `int`. -/
def uvmdealloc (m : Phys) (pagetable oldsz newsz : Nat) : Except String (Nat × Phys) :=
  if newsz ≥ oldsz then .ok (oldsz, m)
  else if PGROUNDUP newsz < PGROUNDUP oldsz then do
    let npages := toInt32 ((PGROUNDUP oldsz - PGROUNDUP newsz) / PGSIZE % 2 ^ 32)
    let m ← uvmunmap m pagetable (PGROUNDUP newsz) (npages % 2 ^ 64).toNat true
    pure (newsz, m)
  else .ok (newsz, m)

/-- The loop of `uvmalloc` from `a`, where `oldsz` is already rounded up.
Each round moves `a` on by `PGSIZE`, so fuel `newsz - a` suffices. -/
def uvmallocLoop (pagetable oldsz newsz xperm : Nat) : Nat → Phys → Nat → Except String (Nat × Phys)
  | 0, m, _ => .ok (newsz, m)
  | fuel + 1, m, a =>
    if a < newsz then
      match kalloc m with
      | (0, m) => do
        let (_, m) ← uvmdealloc m pagetable a oldsz
        pure (0, m)
      | (mem, m) => do
        let m := m.memset mem 0
        let (r, m) ← mappages m pagetable a PGSIZE mem (PTE_R ||| PTE_U ||| xperm)
        if r ≠ 0 then
          let m ← kfree m mem
          let (_, m) ← uvmdealloc m pagetable a oldsz
          pure (0, m)
        else uvmallocLoop pagetable oldsz newsz xperm fuel m (a + PGSIZE)
    else .ok (newsz, m)

/-- `uvmalloc(pagetable, oldsz, newsz, xperm)`: the new size, or `0`. -/
def uvmalloc (m : Phys) (pagetable oldsz newsz xperm : Nat) : Except String (Nat × Phys) :=
  if newsz < oldsz then .ok (oldsz, m)
  else
    let oldsz := PGROUNDUP oldsz
    uvmallocLoop pagetable oldsz newsz xperm (newsz - oldsz) m oldsz

/-- The loop of `uvmcopy` from `i`; `goto err` unmaps and frees the pages
copied so far.  Fuel `sz - i` suffices. -/
def uvmcopyLoop (old new sz : Nat) : Nat → Phys → Nat → Except String (Int × Phys)
  | 0, m, _ => .ok (0, m)
  | fuel + 1, m, i =>
    if i < sz then do
      let (pte, m) ← walk m old i false
      if pte = 0 then throw "uvmcopy: pte should exist"
      else if m.load pte &&& PTE_V = 0 then throw "uvmcopy: page not present"
      else
        let pa := PTE2PA (m.load pte)
        let flags := PTE_FLAGS (m.load pte)
        match kalloc m with
        | (0, m) => do
          let m ← uvmunmap m new 0 (i / PGSIZE) true
          pure (-1, m)
        | (mem, m) => do
          let m := m.copyPage mem pa
          let (r, m) ← mappages m new i PGSIZE mem flags
          if r ≠ 0 then
            let m ← kfree m mem
            let m ← uvmunmap m new 0 (i / PGSIZE) true
            pure (-1, m)
          else uvmcopyLoop old new sz fuel m (i + PGSIZE)
    else .ok (0, m)

/-- `uvmcopy(old, new, sz)`. -/
def uvmcopy (m : Phys) (old new sz : Nat) : Except String (Int × Phys) :=
  uvmcopyLoop old new sz sz m 0

/-- `uvmclear(pagetable, va)`: `*pte &= ~PTE_U`. -/
def uvmclear (m : Phys) (pagetable va : Nat) : Except String Phys := do
  let (pte, m) ← walk m pagetable va false
  if pte = 0 then throw "uvmclear"
  else pure (m.store pte (m.load pte &&& (2 ^ 64 - 1 - PTE_U)))

/-- The loop of `copyout`, with `src` the bytes from the current source
pointer.  Each round copies at least one byte, so fuel `len` suffices. -/
def copyoutLoop (pagetable : Nat) : Nat → Phys → Nat → List UInt8 → Nat → Except String (Int × Phys)
  | 0, m, _, _, _ => .ok (0, m)
  | fuel + 1, m, dstva, src, len =>
    if len > 0 then
      let va0 := PGROUNDDOWN dstva
      if va0 ≥ MAXVA then .ok (-1, m)
      else do
        let (pte, m) ← walk m pagetable va0 false
        if pte = 0 ∨ m.load pte &&& PTE_V = 0 ∨ m.load pte &&& PTE_U = 0 ∨
            m.load pte &&& PTE_W = 0 then pure (-1, m)
        else
          let pa0 := PTE2PA (m.load pte)
          let n := min (PGSIZE - (dstva - va0)) len
          let m := m.memmove (pa0 + (dstva - va0)) (src.take n)
          copyoutLoop pagetable fuel m (va0 + PGSIZE) (src.drop n) (len - n)
    else .ok (0, m)

/-- `copyout(pagetable, dstva, src, len)`: copy `len` bytes of `src` to user
address `dstva`. -/
def copyout (m : Phys) (pagetable dstva : Nat) (src : List UInt8) (len : Nat) :
    Except String (Int × Phys) :=
  copyoutLoop pagetable len m dstva src len

/-- The loop of `copyin`: the result and the bytes written to `dst`, in order. -/
def copyinLoop (m : Phys) (pagetable : Nat) : Nat → Nat → Nat → Int × List UInt8
  | 0, _, _ => (0, [])
  | fuel + 1, srcva, len =>
    if len > 0 then
      let va0 := PGROUNDDOWN srcva
      let pa0 := walkaddr m pagetable va0
      if pa0 = 0 then (-1, [])
      else
        let n := min (PGSIZE - (srcva - va0)) len
        let (r, rest) := copyinLoop m pagetable fuel (va0 + PGSIZE) (len - n)
        (r, m.read (pa0 + (srcva - va0)) n ++ rest)
    else (0, [])

/-- `copyin(pagetable, dst, srcva, len)`: the result, and the bytes it wrote
to `dst`. -/
def copyin (m : Phys) (pagetable srcva len : Nat) : Int × List UInt8 :=
  copyinLoop m pagetable len srcva len

/-- The inner loop of `copyinstr` over one page from `p`, for at most `n`
bytes: the bytes written to `dst` and `got_null`. -/
def copyinstrPage (m : Phys) : Nat → Nat → List UInt8 × Bool
  | 0, _ => ([], false)
  | n + 1, p =>
    if m.byte p = 0 then ([0], true)
    else
      let (w, got_null) := copyinstrPage m n (p + 1)
      (m.byte p :: w, got_null)

/-- The outer loop of `copyinstr`: the result and the bytes written to `dst`.
Each round without a NUL lowers `max`, so fuel `max` suffices. -/
def copyinstrLoop (m : Phys) (pagetable : Nat) : Nat → Nat → Nat → Int × List UInt8
  | 0, _, _ => (-1, [])
  | fuel + 1, srcva, max =>
    if max > 0 then
      let va0 := PGROUNDDOWN srcva
      let pa0 := walkaddr m pagetable va0
      if pa0 = 0 then (-1, [])
      else
        let n := min (PGSIZE - (srcva - va0)) max
        let (w, got_null) := copyinstrPage m n (pa0 + (srcva - va0))
        if got_null then (0, w)
        else
          let (r, rest) := copyinstrLoop m pagetable fuel (va0 + PGSIZE) (max - n)
          (r, w ++ rest)
    else (-1, [])

/-- `copyinstr(pagetable, dst, srcva, max)`: the result, and the bytes it
wrote to `dst`. -/
def copyinstr (m : Phys) (pagetable srcva max : Nat) : Int × List UInt8 :=
  copyinstrLoop m pagetable max srcva max

end Xv6.Vm
