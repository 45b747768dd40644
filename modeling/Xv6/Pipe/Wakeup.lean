import Xv6.Pipe.Pipe
import Xv6.Proc.Table

/-!
# Sleeping on a pipe

`pipewrite`, `piperead` and `pipeclose` of `kernel/pipe.c`, with the `sleep`,
`wakeup` and `kill` of `kernel/proc.c` that they meet, over one pipe and the
processes that call it.

`pi->lock` has at most one holder.  `kill` takes only the victim's `p->lock`,
so it can set a writer's `killed` flag between two rounds of `pipewrite`'s
loop: each round is one step here.  The copy loop of `piperead` reads no flag
that another process can change, and runs as one step together with the
`wakeup` and `release` after it.

A process sleeps on `&pi->nread` or `&pi->nwrite`.  `wakeup` makes every
process sleeping on its channel `RUNNABLE`; the caller of `wakeup` is running,
so leaving it out, as the source does, changes nothing.  A woken process takes
the lock back before going on with its call, as the end of `sleep` does.  The
scheduler and the rest of a process's life are left out: a process that is not
in a call on the pipe may start one when it is `RUNNING` and the lock is free.
The user memory a reader copies to is an argument of its call, and what the
copies write there is not kept.
-/

namespace Xv6.PipeSleep

open Tables (Procstate)

/-- The channels of the pipe: `&pi->nread` and `&pi->nwrite`. -/
inductive Chan
  | nread
  | nwrite
deriving DecidableEq, Repr

/-- The call on the pipe that a process is in, with its arguments. -/
inductive Call
  | none
  /-- `pipewrite(pi, addr, n)` at the top of its loop, `i` bytes stored, for a
  process whose user pages are `mem`. -/
  | write (mem : Blocks.UserMem) (addr : Nat) (n : Int) (i : Nat)
  /-- `piperead(pi, addr, n)` at its test for an empty pipe. -/
  | read (vm : UserVm) (addr : Nat) (n : Int)

/-- Is the process in no call on the pipe? -/
def Call.isNone : Call → Bool
  | .none => true
  | _ => false

/-- What the pipe sees of a process: the fields of `struct proc` that `sleep`,
`wakeup` and `kill` touch, the call it is in and what its last call returned. -/
structure Caller where
  state : Procstate
  chan : Option Chan
  killed : Bool
  call : Call
  ret : Int

/-- A pipe, the holder of its lock and the processes. -/
structure PipeSys (np : Nat) where
  pipe : Pipe
  lock : Option (Fin np)
  proc : Fin np → Caller

namespace PipeSys

variable {np : Nat}

def setProc (s : PipeSys np) (p : Fin np) (c : Caller) : PipeSys np :=
  { s with proc := Function.update s.proc p c }

/-- `wakeup(chan)`. -/
def wakeup (s : PipeSys np) (c : Chan) : PipeSys np :=
  { s with proc := fun q =>
      if (s.proc q).state = .sleeping ∧ (s.proc q).chan = some c then
        { s.proc q with state := .runnable }
      else s.proc q }

/-- `sleep(chan, &pi->lock)` by the lock holder `p`. -/
def sleep (s : PipeSys np) (p : Fin np) (c : Chan) : PipeSys np :=
  { s.setProc p { s.proc p with state := .sleeping, chan := some c } with lock := none }

/-- `release(&pi->lock); return r;` by the lock holder `p`. -/
def ret (s : PipeSys np) (p : Fin np) (r : Int) : PipeSys np :=
  { s.setProc p { s.proc p with call := .none, ret := r } with lock := none }

/-- One round of `pipewrite`'s loop by the lock holder `p`, or its end. -/
def writeRound (s : PipeSys np) (p : Fin np) (mem : Blocks.UserMem) (addr : Nat) (n : Int)
    (i : Nat) : PipeSys np :=
  if (i : Int) < n then
    if !s.pipe.readopen || (s.proc p).killed then s.ret p (-1)
    else if s.pipe.nwrite = s.pipe.nread + PIPESIZE.toUInt32 then
      (s.wakeup .nread).sleep p .nwrite
    else
      match Blocks.copyin mem 1 (addr + i) 1 with
      | (ch, true) =>
        { s.setProc p { s.proc p with call := .write mem addr n (i + 1) } with
          pipe := s.pipe.put (ch.headD 0) }
      | (_, false) => (s.wakeup .nread).ret p i
  else (s.wakeup .nread).ret p i

/-- `piperead` by the lock holder `p` from its test for an empty pipe: it
returns or sleeps, or it runs its copy loop, wakes the writers and returns. -/
def readRound (s : PipeSys np) (p : Fin np) (vm : UserVm) (addr : Nat) (n : Int) :
    PipeSys np :=
  if s.pipe.nread = s.pipe.nwrite ∧ s.pipe.writeopen then
    if (s.proc p).killed then s.ret p (-1)
    else s.sleep p .nread
  else
    let copied := pipereadLoop addr n n.toNat s.pipe vm 0 []
    ({ s with pipe := copied.1 }.wakeup .nwrite).ret p copied.2.2.2

end PipeSys

/-- A step of one process. -/
inductive Event (np : Nat)
  /-- `pipewrite(pi, addr, n)` is called, and takes the lock. -/
  | write (p : Fin np) (mem : Blocks.UserMem) (addr : Nat) (n : Int)
  /-- `piperead(pi, addr, n)` is called, and takes the lock. -/
  | read (p : Fin np) (vm : UserVm) (addr : Nat) (n : Int)
  /-- The lock holder goes on with its call up to the next lock boundary. -/
  | run (p : Fin np)
  /-- A woken process takes the lock back, at the end of `sleep`. -/
  | resume (p : Fin np)
  /-- `kill` of the process `p`, by another. -/
  | kill (p : Fin np)
  /-- `pipeclose(pi, writable)`, by a process that holds nothing. -/
  | close (writable : Bool)

namespace PipeSys

variable {np : Nat}

/-- `pipeclose(pi, writable)`: clear the flag of the end and wake the other
end's sleepers. -/
def close (s : PipeSys np) (writable : Bool) : PipeSys np :=
  { s with pipe := s.pipe.close writable }.wakeup (if writable then .nread else .nwrite)

/-- `kill` of `p`: its flag is set, and it is woken if it sleeps. -/
def kill (s : PipeSys np) (p : Fin np) : PipeSys np :=
  s.setProc p { s.proc p with
    killed := true
    state := if (s.proc p).state = .sleeping then .runnable else (s.proc p).state }

/-- `p` enters a call, taking the lock. -/
def enter (s : PipeSys np) (p : Fin np) (c : Call) : PipeSys np :=
  { s.setProc p { s.proc p with call := c } with lock := some p }

/-- Can `p` start a call: it runs, is in none and the lock is free? -/
def canEnter (s : PipeSys np) (p : Fin np) : Prop :=
  s.lock = none ∧ (s.proc p).state = .running ∧ (s.proc p).call.isNone = true

instance (s : PipeSys np) (p : Fin np) : Decidable (s.canEnter p) :=
  inferInstanceAs (Decidable (_ ∧ _))

/-- One step; `none` when the process cannot take it. -/
def step (s : PipeSys np) : Event np → Option (PipeSys np)
  | .write p mem addr n => if s.canEnter p then some (s.enter p (.write mem addr n 0)) else none
  | .read p vm addr n => if s.canEnter p then some (s.enter p (.read vm addr n)) else none
  | .run p =>
    if s.lock = some p then
      match (s.proc p).call with
      | .write mem addr n i => some (s.writeRound p mem addr n i)
      | .read vm addr n => some (s.readRound p vm addr n)
      | .none => none
    else none
  | .resume p =>
    if s.lock = none ∧ (s.proc p).state = .runnable ∧ (s.proc p).call.isNone = false then
      some { s.setProc p { s.proc p with state := .running, chan := none } with lock := some p }
    else none
  | .kill p => some (s.kill p)
  | .close writable => if s.lock = none then some (s.close writable) else none

/-- `step` as a transition relation. -/
def Next (s : PipeSys np) (e : Event np) (s' : PipeSys np) : Prop := s.step e = some s'

/-- A pipe just made by `pipealloc`, whose lock no one holds, with every
process in no call and asleep on neither of its channels. -/
def Init (s : PipeSys np) : Prop :=
  (∃ data, s.pipe = Pipe.alloc data) ∧ s.lock = none ∧
    ∀ p, (s.proc p).call.isNone = true ∧ (s.proc p).chan = none

end PipeSys

end Xv6.PipeSleep
