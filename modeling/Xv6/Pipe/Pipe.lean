import Xv6.Vm.Copy
import Xv6.Lib.Transition

/-!
# Pipes

`struct pipe`, `pipewrite`, `piperead` and the flag updates of `pipeclose`,
from `kernel/pipe.c`.  `nread` and `nwrite` are the source's `uint` counters,
and the byte for counter `k` is kept at `data[k % PIPESIZE]`.

Both calls hold `pi->lock` except while they sleep, so each runs in pieces
that do not interleave: `pipewrite` from its start, or from where it slept
because the pipe was full, up to its return or its next sleep; `piperead` up to
its return, or up to its sleep on an empty pipe, after which it starts over.
A `PipeCall` is one such piece, and `PipeRun` runs them on one pipe, keeping
beside it the bytes the writers stored and the bytes that reached a reader.
-/

namespace Xv6

/-- `struct pipe` without its lock. -/
structure Pipe where
  data : Fin PIPESIZE → UInt8
  nread : UInt32
  nwrite : UInt32
  readopen : Bool
  writeopen : Bool

namespace Pipe

/-- `k % PIPESIZE`, the index of the byte for counter `k`. -/
def slot (k : UInt32) : Fin PIPESIZE :=
  ⟨k.toNat % PIPESIZE, Nat.mod_lt _ (by decide)⟩

/-- The pipe after `pi->data[pi->nwrite++ % PIPESIZE] = ch`. -/
def put (pi : Pipe) (ch : UInt8) : Pipe :=
  { pi with data := Function.update pi.data (slot pi.nwrite) ch, nwrite := pi.nwrite + 1 }

/-- The pipe after `pi->nread++`. -/
def take (pi : Pipe) : Pipe :=
  { pi with nread := pi.nread + 1 }

/-- `pipealloc`'s pipe: open at both ends, empty, on a page whose bytes are
whatever `kalloc` left there. -/
def alloc (data : Fin PIPESIZE → UInt8) : Pipe :=
  { data, nread := 0, nwrite := 0, readopen := true, writeopen := true }

/-- The flag `pipeclose(pi, writable)` clears. -/
def close (pi : Pipe) (writable : Bool) : Pipe :=
  if writable then { pi with writeopen := false } else { pi with readopen := false }

end Pipe

/-- How a piece of `pipewrite` ends: the call returns, or it sleeps on a full
pipe with `i` bytes written. -/
inductive WriteEnd
  | returned (r : Int)
  | sleeping (i : Nat)
deriving DecidableEq, Repr

/-- The loop of `pipewrite(pi, addr, n)` from byte `i`, for a process whose
user pages are `mem` and whose `killed` flag is `killed`: the pipe after it,
the bytes it stored (appended to `acc`) and how it ended.  Each round stores a
byte or ends, so fuel `n - i` suffices. -/
def pipewriteLoop (mem : Blocks.UserMem) (killed : Bool) (addr : Nat) (n : Int) :
    Nat → Pipe → Nat → List UInt8 → Pipe × List UInt8 × WriteEnd
  | 0, pi, i, acc => (pi, acc, .returned i)
  | fuel + 1, pi, i, acc =>
    if (i : Int) < n then
      if !pi.readopen || killed then (pi, acc, .returned (-1))
      else if pi.nwrite = pi.nread + PIPESIZE.toUInt32 then (pi, acc, .sleeping i)
      else
        match Blocks.copyin mem 1 (addr + i) 1 with
        | (ch, true) =>
          let c := ch.headD 0
          pipewriteLoop mem killed addr n fuel (pi.put c) (i + 1) (acc ++ [c])
        | (_, false) => (pi, acc, .returned i)
    else (pi, acc, .returned i)

/-- `pipewrite(pi, addr, n)` from byte `i`: its start when `i = 0`, or where
it slept. -/
def pipewrite (mem : Blocks.UserMem) (killed : Bool) (addr : Nat) (n : Int) (i : Nat)
    (pi : Pipe) : Pipe × List UInt8 × WriteEnd :=
  pipewriteLoop mem killed addr n (n - i).toNat pi i []

/-- The copy loop of `piperead(pi, addr, n)` from byte `i`: the pipe and the
user pages after it, the bytes that reached user memory (appended to `got`)
and the result.  A byte leaves the pipe before its `copyout`. -/
def pipereadLoop (addr : Nat) (n : Int) :
    Nat → Pipe → UserVm → Nat → List UInt8 → Pipe × UserVm × List UInt8 × Nat
  | 0, pi, vm, i, got => (pi, vm, got, i)
  | fuel + 1, pi, vm, i, got =>
    if (i : Int) < n then
      if pi.nread = pi.nwrite then (pi, vm, got, i)
      else
        let ch := pi.data (Pipe.slot pi.nread)
        match copyout vm 1 (addr + i) [ch] with
        | (vm, true) => pipereadLoop addr n fuel pi.take vm (i + 1) (got ++ [ch])
        | (vm, false) => (pi.take, vm, got, i)
    else (pi, vm, got, i)

/-- How a piece of `piperead` ends: the call returns, or it sleeps on an
empty pipe and starts over when woken. -/
inductive ReadEnd
  | returned (r : Int)
  | sleeping
deriving DecidableEq, Repr

/-- `piperead(pi, addr, n)` by a process with user pages `vm`: the pipe and
the pages after it, the bytes that reached user memory, and how it ended. -/
def piperead (vm : UserVm) (killed : Bool) (addr : Nat) (n : Int) (pi : Pipe) :
    Pipe × UserVm × List UInt8 × ReadEnd :=
  if pi.nread = pi.nwrite ∧ pi.writeopen then
    if killed then (pi, vm, [], .returned (-1)) else (pi, vm, [], .sleeping)
  else
    let (pi, vm, got, i) := pipereadLoop addr n n.toNat pi vm 0 []
    (pi, vm, got, .returned i)

/-- A piece of a call on one pipe, with what the calling process brings to it. -/
inductive PipeCall
  | write (mem : Blocks.UserMem) (killed : Bool) (addr : Nat) (n : Int) (i : Nat)
  | read (vm : UserVm) (killed : Bool) (addr : Nat) (n : Int)
  | close (writable : Bool)

/-- A pipe, with the bytes writers stored into it and the bytes that reached a
reader, in order. -/
structure PipeRun where
  pipe : Pipe
  accepted : List UInt8
  delivered : List UInt8

namespace PipeRun

/-- A pipe just made by `pipealloc`, with nothing written or read. -/
def Init (r : PipeRun) : Prop :=
  ∃ data, r = ⟨Pipe.alloc data, [], []⟩

/-- Run one piece of a call. -/
def step (r : PipeRun) : PipeCall → PipeRun
  | .write mem killed addr n i =>
    let (pi, stored, _) := pipewrite mem killed addr n i r.pipe
    ⟨pi, r.accepted ++ stored, r.delivered⟩
  | .read vm killed addr n =>
    let (pi, _, got, _) := piperead vm killed addr n r.pipe
    ⟨pi, r.accepted, r.delivered ++ got⟩
  | .close writable => { r with pipe := r.pipe.close writable }

/-- `step` as a transition relation. -/
def Next (r : PipeRun) (c : PipeCall) (r' : PipeRun) : Prop := r' = r.step c

end PipeRun

end Xv6
