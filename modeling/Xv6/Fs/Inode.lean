import Xv6.Param
import Mathlib.Data.Fintype.Basic
import Mathlib.Logic.Function.Basic

/-!
# The inode layer

The inode functions of `kernel/fs.c` (`ialloc`, `iupdate`, `iget`, `idup`,
`ilock`, `iunlock`, `iput`, `itrunc`, `bmap`, `readi`, `writei`) over a file
system whose files are byte lists.

The state keeps what the C code keeps: the on-disk inodes and the in-memory
inode table with its own copy of each inode, written back by `iupdate` and read
by `ilock` when the slot is not `valid`.  What it does not keep is the block
level.  A file's data blocks and their contents are replaced by `data`, the
bytes `[0, size)` of the file, and by `mapped`, the block indices that have an
address; `balloc` and `bfree` only count the free blocks.  `Xv6.Block` models
the blocks themselves and relates the two levels.

The panics of the source are `Except.error`, with the source's messages.  The
sleep-locks and `dev` are left out: the model runs one system call at a time,
on the single device `ROOTDEV`.
-/

namespace Xv6

/-- `(short)v`: the value of `v` as a 16-bit two's complement integer. -/
def toShort (v : Int) : Int := (v + 2 ^ 15) % 2 ^ 16 - 2 ^ 15

/-- `struct dinode`, with the file's bytes in place of `size` and the
addresses. -/
structure Dinode where
  type : Int
  major : Int
  minor : Int
  nlink : Int
  /-- The bytes `[0, size)` of the file. -/
  data : List UInt8
  /-- The block indices `bn` with a non-zero address, in `addrs[bn]` for
  `bn < NDIRECT` and in the indirect block otherwise. -/
  mapped : List Nat
  /-- `addrs[NDIRECT] != 0`. -/
  indirect : Bool
deriving DecidableEq, Repr

namespace Dinode

/-- `ip->size`. -/
def size (d : Dinode) : Nat := d.data.length

/-- The dinode `ialloc` writes: zeroed by `memset`, then given a type. -/
def alloc (type : Int) : Dinode :=
  { type, major := 0, minor := 0, nlink := 0, data := [], mapped := [], indirect := false }

end Dinode

/-- A slot of `itable`: `struct inode` without its lock and device. -/
structure Inode where
  inum : Nat
  ref : Int
  valid : Bool
  /-- The in-memory copy of the dinode; meaningful when `valid`. -/
  din : Dinode
deriving DecidableEq, Repr

/-- The file system: the superblock's `ninodes`, the on-disk inodes, the
number of free data blocks and the inode table. -/
structure Fs where
  ninodes : Nat
  dinode : Nat → Dinode
  nfree : Nat
  inode : Fin NINODE → Inode

/-- Kernel code over the file system; an error is a panic. -/
abbrev FsM := StateT Fs (Except String)

namespace Fs

def setInode (s : Fs) (ip : Fin NINODE) (slot : Inode) : Fs :=
  { s with inode := Function.update s.inode ip slot }

@[simp] theorem setInode_inode_self (s : Fs) (ip : Fin NINODE) (slot : Inode) :
    (s.setInode ip slot).inode ip = slot := by
  unfold setInode
  exact Function.update_self _ _ _

@[simp] theorem setInode_inode_of_ne (s : Fs) {ip ip' : Fin NINODE} (slot : Inode)
    (h : ip' ≠ ip) : (s.setInode ip slot).inode ip' = s.inode ip' := by
  unfold setInode
  exact Function.update_of_ne h _ _

@[simp] theorem setInode_dinode (s : Fs) (ip : Fin NINODE) (slot : Inode) :
    (s.setInode ip slot).dinode = s.dinode := rfl

@[simp] theorem setInode_nfree (s : Fs) (ip : Fin NINODE) (slot : Inode) :
    (s.setInode ip slot).nfree = s.nfree := rfl

@[simp] theorem setInode_ninodes (s : Fs) (ip : Fin NINODE) (slot : Inode) :
    (s.setInode ip slot).ninodes = s.ninodes := rfl

end Fs

/-- Read a slot of the inode table. -/
def slot (ip : Fin NINODE) : FsM Inode := do
  return (← get).inode ip

/-- Change a slot of the inode table. -/
def modifySlot (ip : Fin NINODE) (f : Inode → Inode) : FsM Unit :=
  modify fun s => s.setInode ip (f (s.inode ip))

/-- Change the in-memory copy of an inode. -/
def modifyDin (ip : Fin NINODE) (f : Dinode → Dinode) : FsM Unit :=
  modifySlot ip fun slot => { slot with din := f slot.din }

/-- `iupdate(ip)`: copy the in-memory inode to its dinode. -/
def iupdate (ip : Fin NINODE) : FsM Unit :=
  modify fun s =>
    { s with dinode := Function.update s.dinode (s.inode ip).inum (s.inode ip).din }

/-- `iget(dev, inum)`: the slot already holding `inum`, with one more
reference, or else the first free slot, recycled for `inum` and not `valid`. -/
def iget (inum : Nat) : FsM (Fin NINODE) := do
  let s ← get
  match (List.finRange NINODE).find? fun ip => 0 < (s.inode ip).ref ∧ (s.inode ip).inum = inum with
  | some ip =>
    modifySlot ip fun slot => { slot with ref := slot.ref + 1 }
    return ip
  | none =>
    match (List.finRange NINODE).find? fun ip => (s.inode ip).ref = 0 with
    | none => throw "iget: no inodes"
    | some ip =>
      modifySlot ip fun slot => { slot with inum, ref := 1, valid := false }
      return ip

/-- `idup(ip)`. -/
def idup (ip : Fin NINODE) : FsM (Fin NINODE) := do
  modifySlot ip fun slot => { slot with ref := slot.ref + 1 }
  return ip

/-- `ialloc(dev, type)`: the first inode number in `[1, ninodes)` whose dinode
is free, given the type; `none` when there is none. -/
def ialloc (type : Int) : FsM (Option (Fin NINODE)) := do
  let s ← get
  match (List.range' 1 (s.ninodes - 1)).find? fun inum => (s.dinode inum).type = 0 with
  | none => return none
  | some inum =>
    set { s with dinode := Function.update s.dinode inum (Dinode.alloc type) }
    return some (← iget inum)

/-- `ilock(ip)`: read the dinode into the slot if the slot is not `valid`. -/
def ilock (ip : Fin NINODE) : FsM Unit := do
  let slot ← slot ip
  if slot.ref < 1 then throw "ilock"
  if !slot.valid then
    let din := (← get).dinode slot.inum
    modifySlot ip fun slot => { slot with din, valid := true }
    if din.type = 0 then throw "ilock: no type"

/-- `iunlock(ip)`, whose check on the lock holder is left out with the lock. -/
def iunlock (ip : Fin NINODE) : FsM Unit := do
  if (← slot ip).ref < 1 then throw "iunlock"

/-- `balloc(dev)` counted: whether a free block was found, and taken. -/
def balloc : FsM Bool := do
  let s ← get
  if s.nfree = 0 then return false
  set { s with nfree := s.nfree - 1 }
  return true

/-- `bmap(ip, bn)`: whether block `bn` of the file has an address, allocating
it, and for `bn ≥ NDIRECT` first the indirect block, if it has none. -/
def bmap (ip : Fin NINODE) (bn : Nat) : FsM Bool := do
  if bn < NDIRECT then
    if bn ∈ (← slot ip).din.mapped then return true
    if !(← balloc) then return false
    modifyDin ip fun din => { din with mapped := bn :: din.mapped }
    return true
  if bn - NDIRECT < NINDIRECT then
    if !(← slot ip).din.indirect then
      if !(← balloc) then return false
      modifyDin ip fun din => { din with indirect := true }
    if bn ∈ (← slot ip).din.mapped then return true
    if !(← balloc) then return false
    modifyDin ip fun din => { din with mapped := bn :: din.mapped }
    return true
  throw "bmap: out of range"

/-- `itrunc(ip)`: free every mapped block and the indirect block, empty the
file and write the inode back. -/
def itrunc (ip : Fin NINODE) : FsM Unit := do
  let din := (← slot ip).din
  modify fun s => { s with nfree := s.nfree + din.mapped.length + if din.indirect then 1 else 0 }
  modifyDin ip fun din => { din with data := [], mapped := [], indirect := false }
  iupdate ip

/-- `iput(ip)`: drop a reference; the last reference to a `valid` inode with
no links truncates and frees it first. -/
def iput (ip : Fin NINODE) : FsM Unit := do
  let slot ← slot ip
  if slot.ref = 1 ∧ slot.valid ∧ slot.din.nlink = 0 then
    itrunc ip
    modifyDin ip fun din => { din with type := 0 }
    iupdate ip
    modifySlot ip fun slot => { slot with valid := false }
  modifySlot ip fun slot => { slot with ref := slot.ref - 1 }

/-- `iunlockput(ip)`. -/
def iunlockput (ip : Fin NINODE) : FsM Unit := do
  iunlock ip
  iput ip

/-- The loop of `readi`: `acc` holds the `tot` bytes copied so far, the next
chunk starts at `off` and ends at the block boundary or after `n` bytes. -/
def readLoop (ip : Fin NINODE) (n : Nat) : Nat → Nat → List UInt8 → FsM (List UInt8)
  | 0, _, acc => return acc
  | fuel + 1, off, acc => do
    if acc.length < n then
      if !(← bmap ip (off / BSIZE)) then return acc
      let m := min (n - acc.length) (BSIZE - off % BSIZE)
      let data := (← slot ip).din.data
      readLoop ip n fuel (off + m) (acc ++ (data.drop off).take m)
    else return acc

/-- `readi(ip, 0, dst, off, n)` with a kernel destination: the bytes copied,
whose number is the result of the C function.  `off + n` is computed in
32 bits. -/
def readi (ip : Fin NINODE) (off n : Nat) : FsM (List UInt8) := do
  let size := (← slot ip).din.size
  if off > size ∨ (off + n) % 2 ^ 32 < off then return []
  let n := if off + n > size then size - off else n
  readLoop ip n n off []

/-- The bytes `data` with `[off, off + src.length)` replaced by `src`. -/
def overwrite (data : List UInt8) (off : Nat) (src : List UInt8) : List UInt8 :=
  data.take off ++ src ++ data.drop (off + src.length)

/-- The loop of `writei`: `tot` bytes of `src` are stored, the next chunk starts
at `off`. -/
def writeLoop (ip : Fin NINODE) (src : List UInt8) (n : Nat) : Nat → Nat → Nat → FsM Nat
  | 0, _, tot => return tot
  | fuel + 1, off, tot => do
    if tot < n then
      if !(← bmap ip (off / BSIZE)) then return tot
      let m := min (n - tot) (BSIZE - off % BSIZE)
      modifyDin ip fun din => { din with data := overwrite din.data off ((src.drop tot).take m) }
      writeLoop ip src n fuel (off + m) (tot + m)
    else return tot

/-- `writei(ip, 0, src, off, n)` with a kernel source: the number of bytes
stored, or `-1`.  The size grows with the bytes stored past it, and the inode
is written back whatever happened in the loop. -/
def writei (ip : Fin NINODE) (src : List UInt8) (off n : Nat) : FsM Int := do
  let size := (← slot ip).din.size
  if off > size ∨ (off + n) % 2 ^ 32 < off then return -1
  if (off + n) % 2 ^ 32 > MAXFILE * BSIZE then return -1
  let tot ← writeLoop ip src n n off 0
  iupdate ip
  return tot

end Xv6
