import Xv6.Mkfs
import Xv6.Blocks.Ops

/-!
# A disk image as the kernel reads it

`kernel/fs.h` is shared by `mkfs` and the kernel, so the superblock, `IPB` and
`BPB` are those of `Xv6.Mkfs`.  The kernel reads the superblock from block 1
(`readsb`, called by `fsinit`), a dinode from its slot of block `IBLOCK(inum,
sb)` (`ilock`), and the free-map bit of block `b` from block `BBLOCK(b, sb)`
(`balloc`, `bfree`).  RISC-V is little-endian, so each field is the
little-endian word or half-word at its offset.

`imageDev` is the device of `Xv6.Blocks` that the kernel finds on an image:
the size from the superblock, the free map decoded from its blocks, and every
block's bytes, with nothing cached or logged yet.
-/

namespace Xv6.Blocks

open LittleEndian Mkfs

/-- `readsb(dev, &sb)`: the superblock's eight `uint`s from the start of block 1. -/
def readsb (img : Nat → Block) : Superblock where
  magic := getWord (img 1) 0
  size := getWord (img 1) 4
  nblocks := getWord (img 1) 8
  ninodes := getWord (img 1) 12
  nlog := getWord (img 1) 16
  logstart := getWord (img 1) 20
  inodestart := getWord (img 1) 24
  bmapstart := getWord (img 1) 28

/-- `IBLOCK(i, sb)`: the block holding inode `i`. -/
def IBLOCK (i : Nat) (sb : Superblock) : Nat := i / IPB + sb.inodestart

/-- `BBLOCK(b, sb)`: the free-map block holding the bit of block `b`. -/
def BBLOCK (b : Nat) (sb : Superblock) : Nat := b / BPB + sb.bmapstart

/-- The test `balloc` and `bfree` make on the free map: with `bi = b % BPB` and
`m = 1 << (bi % 8)`, whether `bp->data[bi/8] & m` is non-zero, i.e. block `b`
is in use. -/
def bitmapBit (img : Nat → Block) (sb : Superblock) (b : Nat) : Bool :=
  let bi := b % BPB
  (byteAt (img (BBLOCK b sb)) (bi / 8) &&& (1 <<< (bi % 8) : Nat).toUInt8) ≠ 0

/-- The device the kernel finds on an image. -/
def imageDev (img : Nat → Block) : Dev where
  size := (readsb img).size
  bitmap := bitmapBit img (readsb img)
  buf := img
  disk := img
  logged := []

end Xv6.Blocks
