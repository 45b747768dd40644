import Mathlib

/-!
# Kernel parameters and on-disk constants

The constants of `kernel/param.h`, `kernel/fs.h`, `kernel/stat.h`,
`kernel/fcntl.h`, `kernel/riscv.h` and `kernel/pipe.c` that the model uses,
under their C names.  Each is a plain `def`.  Those tagged `@[simp]` become
numerals under `simp`, so that `omega` and `decide` can use a bound stated with
them while statements keep the source's names.  The sizes that appear in types
(`BSIZE`, `NPROC`, `NINODE`, `NFILE`, `NOFILE`, `NBUF`, `PGSIZE`, `PIPESIZE`) are not
tagged, so that `simp` leaves the types of blocks and tables alone; proofs
unfold them by name.
-/

namespace Xv6

/-- Maximum number of blocks any file-system operation writes. -/
@[simp] def MAXOPBLOCKS : Nat := 10

/-- Maximum number of data blocks in the on-disk log. -/
@[simp] def LOGSIZE : Nat := MAXOPBLOCKS * 3

/-- Block size in bytes. -/
def BSIZE : Nat := 1024

-- Table sizes of `param.h`.
def NCPU : Nat := 8
def NPROC : Nat := 64
def NOFILE : Nat := 16
def NFILE : Nat := 100
def NINODE : Nat := 50

theorem NPROC_pos : 0 < NPROC := by decide

theorem one_lt_NPROC : 1 < NPROC := by decide
/-- Size of the disk block cache. -/
def NBUF : Nat := MAXOPBLOCKS * 3
/-- Size of the file system in blocks. -/
def FSSIZE : Nat := 2000
/-- Device number of the file system root disk, which also holds the log. -/
@[simp] def ROOTDEV : Nat := 1
@[simp] def NDEV : Nat := 10
@[simp] def MAXPATH : Nat := 128

-- The inode and directory layout of `fs.h`.
@[simp] def ROOTINO : Nat := 1
@[simp] def NDIRECT : Nat := 12
/-- `BSIZE / sizeof(uint)`: block numbers held by the indirect block. -/
@[simp] def NINDIRECT : Nat := BSIZE / 4
@[simp] def MAXFILE : Nat := NDIRECT + NINDIRECT
@[simp] def DIRSIZ : Nat := 14

-- File types of `stat.h`; `0` marks a free inode.
@[simp] def T_DIR : Int := 1
@[simp] def T_FILE : Int := 2
@[simp] def T_DEVICE : Int := 3

-- Open modes of `fcntl.h`.
@[simp] def O_RDONLY : Nat := 0x000
@[simp] def O_WRONLY : Nat := 0x001
@[simp] def O_RDWR : Nat := 0x002
@[simp] def O_CREATE : Nat := 0x200
@[simp] def O_TRUNC : Nat := 0x400

/-- The bytes a pipe holds, `PIPESIZE` of `kernel/pipe.c`. -/
def PIPESIZE : Nat := 512

-- Pages of `riscv.h`: `MAXVA` is `1 << (9 + 9 + 9 + 12 - 1)`.
def PGSIZE : Nat := 4096
@[simp] def MAXVA : Nat := 2 ^ 38

end Xv6
