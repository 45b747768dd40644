import Xv6.Param
import Xv6.Lib.Ring
import Xv6.Lib.Transition

/-!
# The buffer cache

`kernel/bio.c`: the `NBUF` buffers of `bcache.buf`, on a doubly linked list
through `bcache.head` that is kept most recently released first, and the calls
`binit`, `bget`, `bread`, `brelse`, `bpin` and `bunpin`, each one step under
`bcache.lock`.  A pointer to a buffer is its index, and `none` is
`&bcache.head`.  The sleep-locks and the block data are left out: the disk
read of `bread` sets only `valid`.

The two loops of `bget` follow the pointers until they are back at the head.
The model runs each for at most `NBUF + 1` steps, as many as a list of all the
buffers takes, and gives `none` when a loop has not come back by then, where
the source would go on.

`refcnt` is a `uint` in the source and a `Nat` here, so a decrement of zero
would differ; `Proofs.Bio.Cache` shows that no call a holder can make
decrements a zero count.

The callers are the rest of the kernel.  `BioSys` records, as ghost state, what
they hold: the `bread` results not yet given back with `brelse`, and the block
numbers that `log_write` has pinned and `install_trans(0)` has not yet
unpinned.
-/

namespace Xv6.Bio

open Ring

/-- `struct buf` without its sleep-lock and data. -/
structure Buf where
  /-- Has data been read from disk? -/
  valid : Bool
  dev : Nat
  blockno : Nat
  refcnt : Nat
  prev : Option (Fin NBUF)
  next : Option (Fin NBUF)
deriving DecidableEq, Repr

/-- `bcache` without its lock: the buffers, and the two pointers of the list
head, the only fields of `bcache.head` that the code uses. -/
structure Bcache where
  buf : Fin NBUF → Buf
  headPrev : Option (Fin NBUF)
  headNext : Option (Fin NBUF)

namespace Bcache

variable (bc : Bcache)

/-- `x->next`. -/
def next : Option (Fin NBUF) → Option (Fin NBUF)
  | none => bc.headNext
  | some i => (bc.buf i).next

/-- `x->prev`. -/
def prev : Option (Fin NBUF) → Option (Fin NBUF)
  | none => bc.headPrev
  | some i => (bc.buf i).prev

/-- `x->next = y`. -/
def setNext : Option (Fin NBUF) → Option (Fin NBUF) → Bcache
  | none, y => { bc with headNext := y }
  | some i, y => { bc with buf := Function.update bc.buf i { bc.buf i with next := y } }

/-- `x->prev = y`. -/
def setPrev : Option (Fin NBUF) → Option (Fin NBUF) → Bcache
  | none, y => { bc with headPrev := y }
  | some i, y => { bc with buf := Function.update bc.buf i { bc.buf i with prev := y } }

/-- Buffer `i` becomes `b`. -/
def setBuf (i : Fin NBUF) (b : Buf) : Bcache := { bc with buf := Function.update bc.buf i b }

/-- The list pointers. -/
def links : Links (Fin NBUF) := ⟨bc.next, bc.prev⟩

end Bcache

/-- The cache as the zeroed data segment holds it before `binit`.  Its
pointers are NULL there, which `Option (Fin NBUF)` cannot say; they are given
the head, and `binit` sets every one of them whatever they were. -/
def Bcache.zero : Bcache where
  buf _ := { valid := false, dev := 0, blockno := 0, refcnt := 0, prev := none, next := none }
  headPrev := none
  headNext := none

/-- `binit()`: the head points to itself, then each buffer in turn is put
after the head. -/
def binit (bc : Bcache) : Bcache :=
  -- Create linked list of buffers
  let bc := (bc.setPrev none none).setNext none none
  (List.finRange NBUF).foldl (fun bc b =>
    let bc := bc.setNext (some b) (bc.next none)
    let bc := bc.setPrev (some b) none
    let bc := bc.setPrev (bc.next none) (some b)
    bc.setNext none (some b)) bc

/-- `bget(dev, blockno)`: the buffer of the block with one more reference, or
a recycled one; `none` when a loop does not come back to the head. -/
def bget (bc : Bcache) (dev blockno : Nat) : Option (Except String (Fin NBUF × Bcache)) := do
  -- Is the block already cached?
  match ← walk bc.next (fun i => (bc.buf i).dev == dev && (bc.buf i).blockno == blockno)
      (NBUF + 1) (bc.next none) with
  | some i => return .ok (i, bc.setBuf i { bc.buf i with refcnt := (bc.buf i).refcnt + 1 })
  | none =>
    -- Not cached.  Recycle the least recently used (LRU) unused buffer.
    match ← walk bc.prev (fun i => (bc.buf i).refcnt == 0) (NBUF + 1) (bc.prev none) with
    | some i =>
      return .ok (i, bc.setBuf i { bc.buf i with dev, blockno, valid := false, refcnt := 1 })
    | none => return .error "bget: no buffers"

/-- `bread(dev, blockno)`: `bget`, and the disk read if the buffer is not valid. -/
def bread (bc : Bcache) (dev blockno : Nat) : Option (Except String (Fin NBUF × Bcache)) := do
  match ← bget bc dev blockno with
  | .ok (i, bc) =>
    if !(bc.buf i).valid then
      -- `virtio_disk_rw(b, 0)` fills the data
      return .ok (i, bc.setBuf i { bc.buf i with valid := true })
    else return .ok (i, bc)
  | .error e => return .error e

/-- `brelse(b)` after its sleep-lock check: one reference fewer, and a buffer
no one references moves to the head of the list. -/
def brelse (bc : Bcache) (i : Fin NBUF) : Bcache :=
  let bc := bc.setBuf i { bc.buf i with refcnt := (bc.buf i).refcnt - 1 }
  if (bc.buf i).refcnt = 0 then
    -- no one is waiting for it.
    let b := some i
    let bc := bc.setPrev (bc.next b) (bc.prev b)
    let bc := bc.setNext (bc.prev b) (bc.next b)
    let bc := bc.setNext b (bc.next none)
    let bc := bc.setPrev b none
    let bc := bc.setPrev (bc.next none) b
    bc.setNext none b
  else bc

/-- `bpin(b)`. -/
def bpin (bc : Bcache) (i : Fin NBUF) : Bcache :=
  bc.setBuf i { bc.buf i with refcnt := (bc.buf i).refcnt + 1 }

/-- `bunpin(b)`. -/
def bunpin (bc : Bcache) (i : Fin NBUF) : Bcache :=
  bc.setBuf i { bc.buf i with refcnt := (bc.buf i).refcnt - 1 }

/-! ## The cache and its callers -/

/-- The cache, with what the rest of the kernel holds of it. -/
structure BioSys where
  bc : Bcache
  /-- The `bread` results of each buffer not yet given back with `brelse`. -/
  held : Fin NBUF → Nat
  /-- The entries of `log.lh.block[0 .. log.lh.n)` that `log_write` pinned and
  `install_trans(0)` has not unpinned yet: block numbers of the log's device,
  `ROOTDEV`. -/
  pinned : List Nat

/-- A call of the cache's interface by the rest of the kernel. -/
inductive BioEvent
  /-- `bread(dev, blockno)`, by any caller. -/
  | bread (dev blockno : Nat)
  /-- `brelse(b)`, by a holder of `b`. -/
  | brelse (i : Fin NBUF)
  /-- `log_write(b)` by a holder of `b`, a buffer of the log's device: `bpin(b)`
  when its block is new to the log. -/
  | logWrite (i : Fin NBUF)
  /-- `bunpin(dbuf)` in `install_trans(0)`, by the holder of the buffer of a
  block the log has pinned. -/
  | install (i : Fin NBUF)

/-- One call; `none` when it panics, or when the caller does not hold what it
gives back. -/
def BioSys.step (s : BioSys) : BioEvent → Option BioSys
  | .bread dev blockno =>
    match bread s.bc dev blockno with
    | some (.ok (i, bc)) => some { s with bc, held := Function.update s.held i (s.held i + 1) }
    | _ => none
  | .brelse i =>
    if 0 < s.held i then
      some { s with bc := brelse s.bc i, held := Function.update s.held i (s.held i - 1) }
    else none
  | .logWrite i =>
    if 0 < s.held i ∧ (s.bc.buf i).dev = ROOTDEV then
      -- log absorption: a block already in the log is not pinned again
      if (s.bc.buf i).blockno ∈ s.pinned then some s
      else some { s with bc := bpin s.bc i, pinned := s.pinned ++ [(s.bc.buf i).blockno] }
    else none
  | .install i =>
    if 0 < s.held i ∧ (s.bc.buf i).dev = ROOTDEV ∧ (s.bc.buf i).blockno ∈ s.pinned then
      some { s with bc := bunpin s.bc i, pinned := s.pinned.erase (s.bc.buf i).blockno }
    else none

/-- `step` as a transition relation. -/
def BioSys.Next (s : BioSys) (e : BioEvent) (s' : BioSys) : Prop := s.step e = some s'

/-- After `binit`, before any call: nothing held, nothing pinned. -/
def BioSys.init : BioSys where
  bc := binit Bcache.zero
  held _ := 0
  pinned := []

end Xv6.Bio
