import Xv6.Blocks.Dev

/-!
# Inode content over blocks

`bmap`, `itrunc`, `readi` and `writei` of `kernel/fs.c` on the addresses of a
locked inode: the `NDIRECT` direct block numbers and the indirect block, whose
bytes hold `NINDIRECT` little-endian block numbers.  Each function takes the
in-memory inode and returns it with the device; the caller's `iupdate` stores
it.

`writei` copies from a kernel buffer or from user memory.  `copyin` of
`kernel/vm.c` copies page by page and can stop at an unmapped page after it has
filled part of the destination, so a chunk of `writei` can leave bytes in a
buffer that it then releases without `log_write`.
-/

namespace Xv6.Blocks

open LittleEndian

/-- The fields of a dinode that the block functions read and write. -/
structure Ino where
  type : Int
  size : Nat
  /-- `addrs[0 .. NDIRECT]`; the last is the indirect block. -/
  addrs : Nat → Nat

/-! ## `bmap` and `itrunc` -/

/-- The indirect block of `ip`, allocated if it has none; `0` when
`balloc` fails. -/
def indirectBlock (d : Dev) (ip : Ino) : Nat × Ino × Dev :=
  if ip.addrs NDIRECT = 0 then
    let (addr, d) := balloc d
    if addr = 0 then (0, ip, d)
    else (addr, { ip with addrs := Function.update ip.addrs NDIRECT addr }, d)
  else (ip.addrs NDIRECT, ip, d)

/-- The rest of `bmap` once the indirect block `ind` is loaded: its entry `bn`,
allocated if it is zero. -/
def bmapEntry (d : Dev) (ip : Ino) (ind bn : Nat) : Except String (Nat × Ino × Dev) :=
  if getWord (d.buf ind) (4 * bn) = 0 then
    let (addr, d) := balloc d
    if addr = 0 then .ok (0, ip, d)
    else .ok (addr, ip, (d.write ind (setWord (d.buf ind) (4 * bn) addr)).logWrite ind)
  else .ok (getWord (d.buf ind) (4 * bn), ip, d)

/-- `bmap(ip, bn)`: the address of block `bn` of the file, allocated if it
has none; `0` when `balloc` fails. -/
def bmap (d : Dev) (ip : Ino) (bn : Nat) : Except String (Nat × Ino × Dev) :=
  if bn < NDIRECT then
    if ip.addrs bn = 0 then
      let (addr, d) := balloc d
      if addr = 0 then .ok (0, ip, d)
      else .ok (addr, { ip with addrs := Function.update ip.addrs bn addr }, d)
    else .ok (ip.addrs bn, ip, d)
  else if bn - NDIRECT < NINDIRECT then
    let (ind, ip, d) := indirectBlock d ip
    if ind = 0 then .ok (0, ip, d) else bmapEntry d ip ind (bn - NDIRECT)
  else .error "bmap: out of range"

/-- The loop of `itrunc` over the direct blocks. -/
def freeDirect (d : Dev) (ip : Ino) : Except String Dev :=
  (List.range NDIRECT).foldlM (fun d i => if ip.addrs i ≠ 0 then bfree d (ip.addrs i) else pure d) d

/-- The loop of `itrunc` over the entries of the indirect block `a`. -/
def freeIndirect (d : Dev) (a : Block) : Except String Dev :=
  (List.range NINDIRECT).foldlM
    (fun d j => if getWord a (4 * j) ≠ 0 then bfree d (getWord a (4 * j)) else pure d) d

/-- `itrunc(ip)`: free the direct blocks, the blocks of the indirect block and
the indirect block; the file is then empty with no addresses. -/
def itrunc (d : Dev) (ip : Ino) : Except String (Ino × Dev) := do
  let d ← freeDirect d ip
  let d ← if ip.addrs NDIRECT ≠ 0 then do
      let d ← freeIndirect d (d.buf (ip.addrs NDIRECT))
      bfree d (ip.addrs NDIRECT)
    else pure d
  return ({ ip with size := 0, addrs := fun _ => 0 }, d)

/-! ## User memory -/

/-- The user pages of a process: for each virtual page number, the bytes of
its physical page if its PTE is valid and user-accessible. -/
abbrev UserMem := Nat → Option (Fin PGSIZE → UInt8)

/-- `walkaddr(pagetable, va)` for a page-aligned `va`. -/
def walkaddr (mem : UserMem) (va : Nat) : Option (Fin PGSIZE → UInt8) :=
  if va ≥ MAXVA then none else mem (va / PGSIZE)

/-- `copyin(pagetable, dst, srcva, len)`: the bytes it stores in `dst`, page by
page, and whether it returned `0`.  Each round copies at least one byte, so
fuel `len` suffices. -/
def copyin (mem : UserMem) : Nat → Nat → Nat → List UInt8 × Bool
  | 0, _, _ => ([], true)
  | fuel + 1, srcva, len =>
    if len = 0 then ([], true)
    else
      let va0 := srcva / PGSIZE * PGSIZE
      match walkaddr mem va0 with
      | none => ([], false)
      | some page =>
        let n := min (PGSIZE - (srcva - va0)) len
        let (rest, ok) := copyin mem fuel (va0 + PGSIZE) (len - n)
        (getBytes page (srcva - va0) n ++ rest, ok)

/-- Where `writei` copies from: a kernel buffer, or user memory at `va`. -/
inductive Src
  | kernel (bytes : List UInt8)
  | user (mem : UserMem) (va : Nat)

/-- `either_copyin(dst, user_src, src + tot, m)`: the bytes stored in `dst` and
whether it returned `0`. -/
def eitherCopyin : Src → Nat → Nat → List UInt8 × Bool
  | .kernel bytes, tot, m => ((bytes.drop tot).take m, true)
  | .user mem va, tot, m => copyin mem m (va + tot) m

/-! ## `readi` and `writei` -/

/-- The loop of `readi`: the bytes copied so far are `acc`. -/
def readLoop (n : Nat) : Nat → Nat → List UInt8 → Ino → Dev →
    Except String (List UInt8 × Ino × Dev)
  | 0, _, acc, ip, d => .ok (acc, ip, d)
  | fuel + 1, off, acc, ip, d =>
    if acc.length < n then do
      let (addr, ip, d) ← bmap d ip (off / BSIZE)
      if addr = 0 then return (acc, ip, d)
      let m := min (n - acc.length) (BSIZE - off % BSIZE)
      readLoop n fuel (off + m) (acc ++ getBytes (d.buf addr) (off % BSIZE) m) ip d
    else .ok (acc, ip, d)

/-- `readi(ip, 0, dst, off, n)`: the bytes copied to a kernel `dst`, whose
number is the result. -/
def readi (d : Dev) (ip : Ino) (off n : Nat) : Except String (List UInt8 × Ino × Dev) :=
  if off > ip.size ∨ (off + n) % 2 ^ 32 < off then .ok ([], ip, d)
  else
    let n := if off + n > ip.size then ip.size - off else n
    readLoop n n off [] ip d

/-- The loop of `writei`: `tot` bytes are stored and the next chunk starts at
`off`; the result is the final `tot` and `off`.  A chunk whose copy fails is
left in the buffer, which is released without `log_write`. -/
def writeLoop (src : Src) (n : Nat) : Nat → Nat → Nat → Ino → Dev →
    Except String (Nat × Nat × Ino × Dev)
  | 0, off, tot, ip, d => .ok (tot, off, ip, d)
  | fuel + 1, off, tot, ip, d =>
    if tot < n then do
      let (addr, ip, d) ← bmap d ip (off / BSIZE)
      if addr = 0 then return (tot, off, ip, d)
      let m := min (n - tot) (BSIZE - off % BSIZE)
      let (bytes, ok) := eitherCopyin src tot m
      let d := d.write addr (setBytes (d.buf addr) (off % BSIZE) bytes)
      if !ok then return (tot, off, ip, d)
      writeLoop src n fuel (off + m) (tot + m) ip (d.logWrite addr)
    else .ok (tot, off, ip, d)

/-- `writei(ip, user_src, src, off, n)`: the number of bytes stored, or `-1`. -/
def writei (d : Dev) (ip : Ino) (src : Src) (off n : Nat) : Except String (Int × Ino × Dev) :=
  if off > ip.size ∨ (off + n) % 2 ^ 32 < off then .ok (-1, ip, d)
  else if (off + n) % 2 ^ 32 > MAXFILE * BSIZE then .ok (-1, ip, d)
  else do
    let (tot, off, ip, d) ← writeLoop src n n off 0 ip d
    return (tot, if off > ip.size then { ip with size := off } else ip, d)

end Xv6.Blocks
