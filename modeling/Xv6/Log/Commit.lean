import Xv6.Log.Header
import Xv6.Lib.WriteSeq

/-!
# `commit` and `recover_from_log` as sequences of block writes

Every disk write of `kernel/log.c` goes through `bwrite`, which is atomic and
synchronous, so each of `write_log`, `write_head`, `install_trans`, `commit`
and `recover_from_log` is a sequence of single-block writes (`WriteSeq`).  A
crash keeps a prefix of such a sequence.

Reads are taken from the disk at the moment of the write that uses them.  That
is what `bread` returns after a reboot, when the cache is empty, and also during
`commit`, where the log blocks and the header block have just been written
through the cache with `bwrite`.  The one read that is not of the disk is the
cached copy of a logged block in `write_log`: that is the transaction's new
contents, a parameter `cache` of the model.  `install_trans`'s `recovering`
flag only decides whether the destination buffer is unpinned, which does not
touch the disk, so it is not modelled.
-/

namespace Xv6

open WriteSeq

/-- `bwrite` of log block `tail` with the cached contents of its home block
`lh.block[tail]`: iteration `tail` of `write_log`. -/
def writeLogStep (start : Nat) (cache : Nat → Block) (lh : List Nat) (tail : Nat) :
    Write Nat Block :=
  fun _ => (start + tail + 1, cache (lh.getD tail 0))

/-- `write_log`: copy every logged block from the cache to the log. -/
def writeLog (start : Nat) (cache : Nat → Block) (lh : List Nat) : List (Write Nat Block) :=
  loop lh.length (writeLogStep start cache lh)

/-- `write_head`: rewrite the header block at `log.start` to list `lh`.  With a
non-empty `lh` this is the point at which the transaction commits. -/
def writeHead (start : Nat) (lh : List Nat) : Write Nat Block :=
  fun d => (start, headBlock (d start) lh)

/-- Iteration `tail` of `install_trans`: copy log block `tail` to its home
location `lh.block[tail]`. -/
def installStep (start : Nat) (lh : List Nat) (tail : Nat) : Write Nat Block :=
  fun d => (lh.getD tail 0, d (start + tail + 1))

/-- `install_trans`: copy every committed block from the log to its home. -/
def installTrans (start : Nat) (lh : List Nat) : List (Write Nat Block) :=
  loop lh.length (installStep start lh)

/-- The disk writes of `commit()` for the in-memory header `lh`: nothing for an
empty transaction, else write the log, commit, install, and erase the
transaction by writing an empty header. -/
def commit (start : Nat) (cache : Nat → Block) (lh : List Nat) : List (Write Nat Block) :=
  if 0 < lh.length then
    writeLog start cache lh ++ [writeHead start lh] ++ installTrans start lh ++ [writeHead start []]
  else []

/-- The disk writes of `recover_from_log()` on disk `d`: `read_head`, then
`install_trans` of what it read, then clear the log with an empty header. -/
def recoverFromLog (start : Nat) (d : Disk) : List (Write Nat Block) :=
  installTrans start (readHead (d start)) ++ [writeHead start []]

/-- Successive boots that each crash during recovery: the `i`-th runs
`recover_from_log` on what the previous one left and is cut off after `ks[i]`
writes. -/
def crashedRecoveries (start : Nat) : List Nat → Disk → Disk
  | [], d => d
  | k :: ks, d => crashedRecoveries start ks (crash (recoverFromLog start d) k d)

/-- Block `b` lies outside the log, the blocks `[start, start + size)`. -/
def OutsideLog (start size b : Nat) : Prop :=
  b < start ∨ start + size ≤ b

/-- A transaction as `log_write` leaves it for `commit`: the in-memory header
`log.lh` of home block numbers.  `log_write` absorbs repeated blocks, so no
block is listed twice, and its `too big a transaction` check keeps the
transaction within `LOGSIZE` and within the `log.size - 1` blocks after the
header.  Every home block is a `uint` block number outside the log. -/
structure Txn (start size : Nat) where
  /-- `log.lh.block[0 .. n)`. -/
  block : List Nat
  nodup : block.Nodup
  home : ∀ b ∈ block, OutsideLog start size b
  word : ∀ b ∈ block, b < 2 ^ 32
  fits : block.length + 1 ≤ size
  le_logsize : block.length ≤ LOGSIZE

/-- The contents of block `b` once transaction `t` has reached its home
locations. -/
def Txn.installed {start size : Nat} (t : Txn start size) (cache : Nat → Block) (d₀ : Disk)
    (b : Nat) : Block :=
  if b ∈ t.block then cache b else d₀ b

end Xv6
