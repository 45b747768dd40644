import Xv6.Bio.Cache

/-!
# Processes reading files through the buffer cache

`read()` of an inode reaches the cache in `readi` (`kernel/fs.c`): for each
block, `bp = bread(ip->dev, addr)`, the copy to user memory, `brelse(bp)`.  A
block that is not valid is read by `virtio_disk_rw`, where the process sleeps,
first for three free descriptors and then until the disk interrupt, with the
buffer referenced and its sleep-lock held.  Between its `bread` and its
`brelse` a process holds the buffer, and while it holds it any other process
can run.

`Readers` is the cache with the buffer each process holds.  A `read` step is
the `bread` of one block by a process that holds none, a `done` step its
`brelse` once the disk has finished and the data is copied out.  The inode
lock that `fileread` takes is not modelled: each process reads its own file.
A panic of `bget` is `Except.error` with its message.
-/

namespace Xv6.Bio

/-- A step of one process. -/
inductive ReadEvent (np : Nat)
  /-- `readi` of process `p` calls `bread(dev, blockno)`, and holds the buffer
  it returns: asleep in `virtio_disk_rw` if the block was not valid. -/
  | read (p : Fin np) (dev blockno : Nat)
  /-- The data is in the buffer of `p` and copied out: `brelse(bp)`. -/
  | done (p : Fin np)

/-- The cache and the buffer each process holds. -/
structure Readers (np : Nat) where
  bc : Bcache
  holding : Fin np → Option (Fin NBUF)

namespace Readers

variable {np : Nat}

/-- One step; `none` when the process cannot take it, or when a loop of `bget`
does not come back to the head. -/
def step (s : Readers np) : ReadEvent np → Option (Except String (Readers np))
  | .read p dev blockno =>
    match s.holding p with
    | some _ => none
    | none =>
      match bread s.bc dev blockno with
      | some (.ok (i, bc)) => some (.ok { bc, holding := Function.update s.holding p (some i) })
      | some (.error e) => some (.error e)
      | none => none
  | .done p =>
    match s.holding p with
    | some i => some (.ok { bc := brelse s.bc i, holding := Function.update s.holding p none })
    | none => none

/-- `step` as a transition relation, over the steps that do not panic. -/
def Next (s : Readers np) (e : ReadEvent np) (s' : Readers np) : Prop := s.step e = some (.ok s')

/-- After `binit`, with no process in `readi`. -/
def init (np : Nat) : Readers np where
  bc := binit Bcache.zero
  holding _ := none

end Readers

end Xv6.Bio
