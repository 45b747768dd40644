import Xv6.Log.Header
import Mathlib.Logic.Function.Basic

/-!
# Blocks, the free map and the buffer cache

The block level of `kernel/fs.c`: `balloc`, `bzero` and `bfree`, over a device
whose blocks are byte arrays.

`buf` is what `bread` returns for each block: the cached buffer if there is
one, the disk otherwise.  A write through a buffer changes `buf` at once and
reaches `disk` only when the transaction that logged the block commits; the
blocks passed to `log_write` in the current transaction are `logged`.  Buffers
are not evicted in this model, which is what the cache does while fewer than
`NBUF` blocks are in use.  The free map is kept as one bit per block rather
than inside its block, and the superblock only by `sb.size`.
-/

namespace Xv6.Blocks

/-- The file-system device. -/
structure Dev where
  /-- `sb.size`: blocks below it are covered by the free map. -/
  size : Nat
  /-- The free-map bit of each block: set when in use. -/
  bitmap : Nat → Bool
  buf : Nat → Block
  disk : Nat → Block
  logged : List Nat

namespace Dev

/-- `log_write(bp)` for block `b`: absorbed if already in the transaction. -/
def logWrite (d : Dev) (b : Nat) : Dev :=
  { d with logged := if b ∈ d.logged then d.logged else d.logged ++ [b] }

/-- Write `blk` into the buffer of block `b`. -/
def write (d : Dev) (b : Nat) (blk : Block) : Dev :=
  { d with buf := Function.update d.buf b blk }

/-- `end_op`'s commit: the logged blocks reach the disk. -/
def commit (d : Dev) : Dev :=
  { d with disk := fun b => if b ∈ d.logged then d.buf b else d.disk b, logged := [] }

@[simp] theorem logWrite_buf (d : Dev) (b : Nat) : (d.logWrite b).buf = d.buf := rfl
@[simp] theorem logWrite_bitmap (d : Dev) (b : Nat) : (d.logWrite b).bitmap = d.bitmap := rfl
@[simp] theorem logWrite_size (d : Dev) (b : Nat) : (d.logWrite b).size = d.size := rfl
@[simp] theorem logWrite_disk (d : Dev) (b : Nat) : (d.logWrite b).disk = d.disk := rfl

@[simp] theorem write_buf (d : Dev) (b : Nat) (blk : Block) :
    (d.write b blk).buf = Function.update d.buf b blk := rfl
@[simp] theorem write_bitmap (d : Dev) (b : Nat) (blk : Block) :
    (d.write b blk).bitmap = d.bitmap := rfl
@[simp] theorem write_size (d : Dev) (b : Nat) (blk : Block) : (d.write b blk).size = d.size := rfl
@[simp] theorem write_disk (d : Dev) (b : Nat) (blk : Block) : (d.write b blk).disk = d.disk := rfl
@[simp] theorem write_logged (d : Dev) (b : Nat) (blk : Block) :
    (d.write b blk).logged = d.logged := rfl

end Dev

/-- `bzero(dev, b)`. -/
def bzero (d : Dev) (b : Nat) : Dev :=
  (d.write b fun _ => 0).logWrite b

/-- `balloc(dev)`: the first block whose bit is clear, marked and zeroed, or
`0` when there is none ("out of blocks"). -/
def balloc (d : Dev) : Nat × Dev :=
  match (List.range d.size).find? fun b => d.bitmap b = false with
  | none => (0, d)
  | some b => (b, bzero { d with bitmap := Function.update d.bitmap b true } b)

/-- `bfree(dev, b)`. -/
def bfree (d : Dev) (b : Nat) : Except String Dev :=
  if d.bitmap b = false then .error "freeing free block"
  else .ok { d with bitmap := Function.update d.bitmap b false }

end Xv6.Blocks
