import Xv6.Blocks.Inode

/-!
# Operations that allocate and free blocks

The calls of `kernel/fs.c` that change which blocks a file owns, over all the
dinodes at once: `writei` (through `filewrite`, `dirlink` and every other
writer), `itrunc` (through `open` with `O_TRUNC`), the freeing path of `iput`
and `ialloc`.  Each runs on a locked inode inside a transaction and ends with
`iupdate`, so at its end the dinode equals the in-memory inode; the model keeps
one `Ino` per inode number.

Operations on different inodes share only the free map, whose bits `balloc` and
`bfree` test and set under the lock of its buffer, and each operation here is
one step.  `iput` frees an inode only when its link count is zero and it has no
other reference; `free` may run on any allocated inode, which allows more runs
than the kernel has.
-/

namespace Xv6.Blocks

/-- The file system at the level of blocks. -/
structure Disk where
  dev : Dev
  ino : Nat → Ino
  /-- `sb.ninodes`. -/
  ninodes : Nat
  /-- `sb.size - sb.nblocks`: the boot block, the superblock, the log, the
  inode blocks and the free map. -/
  nmeta : Nat

/-- Store inode `inum` and the device after an operation on it. -/
def Disk.setIno (s : Disk) (inum : Nat) (ip : Ino) (d : Dev) : Disk :=
  { s with dev := d, ino := Function.update s.ino inum ip }

/-- A dinode cleared by `memset` and given `type`. -/
def Ino.fresh (type : Int) : Ino :=
  { type := type, size := 0, addrs := fun _ => 0 }

/-- `ialloc(dev, type)`: the first free dinode from 1 on, cleared and given
`type`; `none` when there is none. -/
def ialloc (s : Disk) (type : Int) : Option (Nat × Disk) :=
  match (List.range' 1 (s.ninodes - 1)).find? fun inum => (s.ino inum).type = 0 with
  | none => none
  | some inum => some (inum, { s with ino := Function.update s.ino inum (Ino.fresh type) })

/-- An operation on the blocks of one inode. -/
inductive Op
  | write (inum : Nat) (src : Src) (off n : Nat)
  | trunc (inum : Nat)
  | free (inum : Nat)
  | alloc (type : Int)

/-- Run an operation; an error is a panic. -/
def Op.run : Op → Disk → Except String Disk
  | .write inum src off n, s => do
    let (_, ip, d) ← writei s.dev (s.ino inum) src off n
    pure (s.setIno inum ip d)
  | .trunc inum, s => do
    let (ip, d) ← itrunc s.dev (s.ino inum)
    pure (s.setIno inum ip d)
  | .free inum, s => do
    let (ip, d) ← itrunc s.dev (s.ino inum)
    pure (s.setIno inum { ip with type := 0 } d)
  | .alloc type, s =>
    match ialloc s type with
    | none => pure s
    | some (_, s') => pure s'

/-- The operations a process can issue: on an inode it has locked, which
`ilock` allows only for an allocated one, with `writei`'s count a `uint`. -/
def Op.Enabled (s : Disk) : Op → Prop
  | .write inum _ _ n => (s.ino inum).type ≠ 0 ∧ n < 2 ^ 32
  | .trunc inum => (s.ino inum).type ≠ 0
  | .free inum => (s.ino inum).type ≠ 0
  | .alloc type => type ≠ 0

/-- One operation, run to its end. -/
def Disk.Step (s : Disk) (op : Op) (s' : Disk) : Prop :=
  op.Enabled s ∧ op.run s = .ok s'

end Xv6.Blocks
