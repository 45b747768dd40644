import Xv6.Fs.Dir
import Xv6.Lib.LittleEndian
import Xv6.Log.Header

/-!
# `mkfs`

`mkfs/mkfs.c` builds the file-system image: the layout and the superblock,
`ialloc`, `iappend`, the root directory with an entry for each input file, the
rounding of the root's size, and the free map written by `balloc`.

The image file is a map from sector numbers to blocks, with the number of
sectors the file holds: `wsect` past its end makes it longer, and `rsect` of a
sector it does not hold fails, as the short `read` makes `rsect` call `die`.
`struct dinode` is kept as its 64 bytes in disk order: `xint` and `xshort`
store a host value little-endian, so a field set with `xint` and read back
with `xint` is the word at its offset.  A failed `assert` or a `die` exits
with an error.  An input file is its path on the command line and its bytes;
the `read` loop hands them to `iappend` a block at a time.
-/

namespace Xv6.Mkfs

open LittleEndian CString

/-- `NINODES`. -/
def NINODES : Nat := 200

/-- `sizeof(struct dinode)`. -/
def dinodeSize : Nat := 64

/-- `IPB`: inodes per block. -/
def IPB : Nat := BSIZE / dinodeSize

/-- `BPB`: bitmap bits per block. -/
def BPB : Nat := BSIZE * 8

def nbitmap : Nat := FSSIZE / BPB + 1

def ninodeblocks : Nat := NINODES / IPB + 1

def nlog : Nat := LOGSIZE

/-- Number of meta blocks (boot, sb, nlog, inode, bitmap). -/
def nmeta : Nat := 2 + nlog + ninodeblocks + nbitmap

/-- Number of data blocks. -/
def nblocks : Nat := FSSIZE - nmeta

def FSMAGIC : Nat := 0x10203040

/-- `struct superblock`. -/
structure Superblock where
  magic : Nat
  size : Nat
  nblocks : Nat
  ninodes : Nat
  nlog : Nat
  logstart : Nat
  inodestart : Nat
  bmapstart : Nat

/-- The superblock `main` fills in. -/
def sb : Superblock where
  magic := FSMAGIC
  size := FSSIZE
  nblocks := nblocks
  ninodes := NINODES
  nlog := nlog
  logstart := 2
  inodestart := 2 + nlog
  bmapstart := 2 + nlog + ninodeblocks

/-- `IBLOCK(i, sb)`: the block holding inode `i`. -/
def IBLOCK (i : Nat) : Nat := i / IPB + sb.inodestart

/-- The zeroed buffer `zeroes`. -/
def zeroes : Block := fun _ => 0

/-- The block `main` writes to sector 1: the superblock's eight `uint`s at the
start of a zeroed buffer. -/
def sbBlock : Block :=
  setWord (setWord (setWord (setWord (setWord (setWord (setWord (setWord zeroes
    0 sb.magic) 4 sb.size) 8 sb.nblocks) 12 sb.ninodes) 16 sb.nlog) 20 sb.logstart)
    24 sb.inodestart) 28 sb.bmapstart

/-- `struct dinode`, as its bytes: `type`, `major`, `minor` and `nlink` are
`short`s at offsets 0, 2, 4 and 6, `size` a `uint` at 8, and `addrs[k]` a
`uint` at `12 + 4 * k`. -/
abbrev Din := Fin dinodeSize → UInt8

namespace Din

/-- `xint(din.size)`. -/
def size (din : Din) : Nat := getWord din 8

/-- `din.size = xint(v)`. -/
def setSize (din : Din) (v : Nat) : Din := setWord din 8 v

/-- `xint(din.addrs[k])`. -/
def addr (din : Din) (k : Nat) : Nat := getWord din (12 + 4 * k)

/-- `din.addrs[k] = xint(v)`. -/
def setAddr (din : Din) (k v : Nat) : Din := setWord din (12 + 4 * k) v

end Din

/-- The image file and the counters of `mkfs`. -/
structure State where
  /-- The sectors of the image file. -/
  img : Nat → Block
  /-- How many sectors the file holds. -/
  nsect : Nat
  freeinode : Nat
  freeblock : Nat

/-- `wsect(sec, buf)`. -/
def wsect (s : State) (sec : Nat) (buf : Block) : State :=
  { s with img := Function.update s.img sec buf, nsect := max s.nsect (sec + 1) }

/-- `rsect(sec, buf)`: the sector, or `die("read")` past the end of the file. -/
def rsect (s : State) (sec : Nat) : Except String Block :=
  if sec < s.nsect then .ok (s.img sec) else .error "read"

/-- `winode(inum, ip)`: the inode's bytes into its slot of its block. -/
def winode (s : State) (inum : Nat) (din : Din) : Except String State := do
  let bn := IBLOCK inum
  let buf ← rsect s bn
  return wsect s bn (setBytes buf (inum % IPB * dinodeSize) (getBytes din 0 dinodeSize))

/-- `rinode(inum, ip)`. -/
def rinode (s : State) (inum : Nat) : Except String Din := do
  let buf ← rsect s (IBLOCK inum)
  return fun i => byteAt buf (inum % IPB * dinodeSize + i.val)

/-- `ialloc(type)`: the next inode number, with type `type`, one link and size 0. -/
def ialloc (s : State) (type : Nat) : Except String (Nat × State) := do
  let inum := s.freeinode
  let s := { s with freeinode := s.freeinode + 1 }
  let din : Din := setWord (setHalf (setHalf (fun _ => 0) 0 type) 6 1) 8 0
  return (inum, ← winode s inum din)

/-- `if(xint(din.addrs[k]) == 0) din.addrs[k] = xint(freeblock++);` -/
def allocAddr (s : State) (din : Din) (k : Nat) : State × Din :=
  if din.addr k = 0 then ({ s with freeblock := s.freeblock + 1 }, din.setAddr k s.freeblock)
  else (s, din)

/-- The address `iappend` writes file block `fbn` to: its entry in `din`, or in
the indirect block past the `NDIRECT` direct ones, taken from `freeblock` if it
is zero. -/
def blockOf (s : State) (din : Din) (fbn : Nat) : Except String (State × Din × Nat) := do
  if fbn < NDIRECT then
    let (s, din) := allocAddr s din fbn
    return (s, din, din.addr fbn)
  else
    let (s, din) := allocAddr s din NDIRECT
    let indirect ← rsect s (din.addr NDIRECT)
    let e := 4 * (fbn - NDIRECT)
    if getWord indirect e = 0 then
      let indirect := setWord indirect e s.freeblock
      let s := wsect { s with freeblock := s.freeblock + 1 } (din.addr NDIRECT) indirect
      return (s, din, getWord indirect e)
    return (s, din, getWord indirect e)

/-- The loop of `iappend`: the bytes `p` still to append go to offset `off`.
Each round appends at least one byte, so fuel `p.length` suffices. -/
def iappendLoop : Nat → State → Din → Nat → List UInt8 → Except String (State × Din × Nat)
  | 0, s, din, off, _ => .ok (s, din, off)
  | fuel + 1, s, din, off, p =>
    if 0 < p.length then
      let fbn := off / BSIZE
      if fbn < MAXFILE then do
        let (s, din, x) ← blockOf s din fbn
        let n1 := min p.length ((fbn + 1) * BSIZE - off)
        let buf ← rsect s x
        let s := wsect s x (setBytes buf (off - fbn * BSIZE) (p.take n1))
        iappendLoop fuel s din (off + n1) (p.drop n1)
      else .error "assert fbn < MAXFILE"
    else .ok (s, din, off)

/-- `iappend(inum, p, n)`. -/
def iappend (s : State) (inum : Nat) (p : List UInt8) : Except String State := do
  let din ← rinode s inum
  let (s, din, off) ← iappendLoop p.length s din din.size p
  winode s inum (din.setSize off)

/-- `balloc(used)`: the first `used` bits of the free map set, the rest clear. -/
def balloc (s : State) (used : Nat) : Except String State := do
  if ¬ used < BPB then throw "assert used < BPB"
  let buf := (List.range used).foldl
    (fun buf i => setByte buf (i / 8) (byteAt buf (i / 8) ||| (1 <<< (i % 8)).toUInt8)) zeroes
  return wsect s sb.bmapstart buf

/-- An input file: its path on the command line and its bytes. -/
structure Input where
  path : List UInt8
  data : List UInt8

/-- The name an input file gets in the root directory, or `none` when an
`assert` on it fails. -/
def shortname (path : List UInt8) : Option (List UInt8) :=
  -- get rid of "user/"
  let name := if strncmp path [117, 115, 101, 114, 47] 5 = 0 then path.drop 5 else path
  if slash ∈ str name then none
  else
    -- Skip leading _ in name when writing to file system.
    let name := if name.headD 0 = 95 then name.drop 1 else name
    if (str name).length ≤ DIRSIZ then some name else none

/-- The `read` loop: `iappend` of the bytes a block at a time. -/
def appendData (inum : Nat) : Nat → State → List UInt8 → Except String State
  | 0, s, _ => .ok s
  | fuel + 1, s, data =>
    if data = [] then .ok s
    else do
      let s ← iappend s inum (data.take BSIZE)
      appendData inum fuel s (data.drop BSIZE)

/-- One round of `main`'s loop over the input files. -/
def addFile (rootino : Nat) (s : State) (f : Input) : Except String State := do
  let some name := shortname f.path | throw "assert shortname"
  let (inum, s) ← ialloc s T_FILE.toNat
  let s ← iappend s rootino (dirent inum name)
  appendData inum f.data.length s f.data

/-- `mkfs fs.img files...`: the image and the counters when it exits with `0`. -/
def mkfs (files : List Input) : Except String State := do
  -- every sector zeroed, the next free block the first after the meta blocks
  let s : State := { img := fun _ => zeroes, nsect := FSSIZE, freeinode := 1, freeblock := nmeta }
  let s := wsect s 1 sbBlock
  let (rootino, s) ← ialloc s T_DIR.toNat
  if rootino ≠ ROOTINO then throw "assert rootino == ROOTINO"
  let s ← iappend s rootino (dirent rootino [46])
  let s ← iappend s rootino (dirent rootino [46, 46])
  let s ← files.foldlM (addFile rootino) s
  -- fix size of root inode dir
  let din ← rinode s rootino
  let off := (din.size / BSIZE + 1) * BSIZE
  let s ← winode s rootino (din.setSize off)
  balloc s s.freeblock

end Xv6.Mkfs
