import Xv6.Vm.Copy

/-!
# A file shared through `fork` or `dup`

The `FD_INODE` branches of `fileread` and `filewrite` (`kernel/file.c`) on one
`struct file` that several processes hold.  `f->off` is read and moved only
while the inode's sleep-lock is held, so one round of `filewrite`'s loop
(`begin_op`, `ilock`, `writei` at `f->off`, `f->off += r`, `iunlock`,
`end_op`) is one atomic step, and so is a whole `fileread`.  Between the rounds
of a write, other processes run.

The inode is the only user of the device here: its blocks, and the
`writei` and `readi` of `Xv6.Blocks`.  A write copies from the user memory of
its process, which is kept with the call; a read copies out to user pages that
are an argument of the step, since only whether `copyout` succeeds matters
after it.  `Shared.moves` records, as ghost state, every move of `f->off`: by
which process, from where, by how much, and whether a write made it.
-/

namespace Xv6.Blocks

/-- `int max = ((MAXOPBLOCKS-1-1-2) / 2) * BSIZE`: the most bytes one round of
`filewrite` writes. -/
def filewriteMax : Nat := (MAXOPBLOCKS - 1 - 1 - 2) / 2 * BSIZE

/-- The locals of a `filewrite(f, addr, n)` in progress: the user memory it
copies from, `addr`, `n`, and `i`, the bytes written so far. -/
structure Writing where
  mem : UserMem
  addr : Nat
  n : Int
  i : Nat

/-- What the shared file sees of a process. -/
structure Caller where
  /-- The `filewrite` the process is in, if any. -/
  call : Option Writing
  /-- The value its last call returned. -/
  ret : Int

/-- A move of `f->off`. -/
structure Move (np : Nat) where
  proc : Fin np
  start : Nat
  count : Nat
  write : Bool
deriving DecidableEq, Repr

/-- The file, its `struct file` and the processes that share it. -/
structure Shared (np : Nat) where
  d : Dev
  ip : Ino
  readable : Bool
  writable : Bool
  /-- `f->off`. -/
  off : Nat
  proc : Fin np → Caller
  moves : List (Move np)

/-- A step of one process. -/
inductive Event (np : Nat)
  /-- `filewrite(f, addr, n)` is called by `p`, which copies from `mem`. -/
  | write (p : Fin np) (mem : UserMem) (addr : Nat) (n : Int)
  /-- The next round of `p`'s `filewrite` loop, or its return once the loop is
  done. -/
  | round (p : Fin np)
  /-- `fileread(f, addr, n)` by `p`, whose user pages are `vm`. -/
  | read (p : Fin np) (vm : UserVm) (addr : Nat) (n : Int)

namespace Shared

variable {np : Nat}

def setProc (s : Shared np) (p : Fin np) (c : Caller) : Shared np :=
  { s with proc := Function.update s.proc p c }

/-- `f->off += r` when `r > 0`, recorded as a move by `p`. -/
def advance (s : Shared np) (p : Fin np) (r : Int) (write : Bool) : Shared np :=
  if r > 0 then
    { s with off := s.off + r.toNat, moves := s.moves ++ [⟨p, s.off, r.toNat, write⟩] }
  else s

/-- One round of the loop of `p`'s `filewrite`, from `i < n`: a chunk of at
most `filewriteMax` bytes at `f->off`; a short chunk ends the call with `-1`. -/
def writeRound (s : Shared np) (p : Fin np) (w : Writing) : Except String (Shared np) := do
  let n1 := min (w.n - w.i).toNat filewriteMax
  let (r, ip, d) ← writei s.d s.ip (.user w.mem (w.addr + w.i)) s.off n1
  let s := ({ s with ip, d } : Shared np).advance p r true
  if r ≠ n1 then
    -- error from writei
    return s.setProc p { call := none, ret := -1 }
  return s.setProc p { s.proc p with call := some { w with i := w.i + r.toNat } }

/-- `fileread(f, addr, n)` by `p`: `readi` at `f->off` into the user pages. -/
def fileread (s : Shared np) (p : Fin np) (vm : UserVm) (addr : Nat) (n : Int) :
    Except String (Shared np) := do
  if !s.readable then return s.setProc p { s.proc p with ret := -1 }
  -- the `int n` is passed to `readi`'s `uint n`
  let (bytes, ip, d) ← readi s.d s.ip s.off (n % 2 ^ 32).toNat
  let r : Int := if (copyout vm bytes.length addr bytes).2 then bytes.length else -1
  let s := ({ s with ip, d } : Shared np).advance p r false
  return s.setProc p { s.proc p with ret := r }

/-- One step; `none` when the process cannot take it. -/
def step (s : Shared np) : Event np → Option (Except String (Shared np))
  | .write p mem addr n =>
    if (s.proc p).call.isNone then
      if !s.writable then some (.ok (s.setProc p { s.proc p with ret := -1 }))
      else some (.ok (s.setProc p { s.proc p with call := some { mem, addr, n, i := 0 } }))
    else none
  | .round p =>
    match (s.proc p).call with
    | some w =>
      if (w.i : Int) < w.n then some (s.writeRound p w)
      else some (.ok (s.setProc p { call := none, ret := if (w.i : Int) = w.n then w.n else -1 }))
    | none => none
  | .read p vm addr n =>
    if (s.proc p).call.isNone then some (s.fileread p vm addr n) else none

/-- `step` as a transition relation, over the steps that do not panic. -/
def Next (s : Shared np) (e : Event np) (s' : Shared np) : Prop := s.step e = some (.ok s')

/-- No call in progress and no move recorded yet; the file, its offset and its
mode are any. -/
def Init (s : Shared np) : Prop := s.moves = [] ∧ ∀ p, (s.proc p).call = none

end Shared

end Xv6.Blocks
