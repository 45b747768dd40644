import Xv6.Proc.Table

/-!
# The scheduler and the process states

The process states of `kernel/proc.c` as the CPUs see them: `scheduler`,
`sched`, `yield`, `sleep`, `wakeup`, `kill`, `allocproc` and the two halves of
`fork`, `exit` and `wait`, each an atomic step between two lock boundaries, on
`NCPU` CPUs.

A step is what a thread does from acquiring a lock to releasing it, and here
`p->lock` is the lock that matters.  It is handed across `swtch`: `yield`,
`sleep` and `exit` acquire it and call `sched`, and the scheduler that
`swtch` returns to releases it after clearing `c->proc`; the scheduler acquires
it to pick a process, and the process releases it, in `forkret` or after its
`sched` returns, having cleared `p->chan` when it slept.  So a step of a
process that gives up its CPU ends with the CPU free, and a step of the
scheduler ends with the process running on it.  What fails inside a section
that holds the lock is not seen from outside: `allocproc` that finds no memory
and `fork` whose copy fails give the slot back before they release it.

The channel a process sleeps on is an address; `wait` sleeps on the address of
its own `struct proc`, and the other sleepers (pipes, the log, the buffer
cache, `ticks`, the disk) on the address of some other kernel object, which is
not `0` either.  A panic is `Except.error` with the source's message; a step
that the machine cannot take (no process on the CPU, no runnable process to
pick) is `none`.  Pids, files and memory are left out, and so is the choice of
which child `wait` frees: the first zombie child in table order, as in the
source.
-/

namespace Xv6.Scheduler

open Tables (Procstate)

/-- The address a process sleeps on. -/
inductive Chan
  /-- `&proc[p]`, where `wait` sleeps and `exit` and `reparent` wake. -/
  | proc (p : Fin NPROC)
  /-- The address of another kernel object. -/
  | obj (addr : Nat)
deriving DecidableEq, Repr

/-- The fields of `struct proc` that the scheduler and the state changes use. -/
structure PState where
  state : Procstate
  /-- `p->chan`, `none` for `0`. -/
  chan : Option Chan
  killed : Bool
  parent : Option (Fin NPROC)
deriving DecidableEq, Repr

/-- A slot as the zeroed table and `freeproc` leave it. -/
def PState.free : PState := { state := .unused, chan := none, killed := false, parent := none }

/-- The process table, `c->proc` of every CPU, and `initproc`. -/
structure Machine where
  proc : Fin NPROC → PState
  cpu : Fin NCPU → Option (Fin NPROC)
  initproc : Fin NPROC

namespace Machine

def setProc (m : Machine) (p : Fin NPROC) (ps : PState) : Machine :=
  { m with proc := Function.update m.proc p ps }

def setCpu (m : Machine) (c : Fin NCPU) (p : Option (Fin NPROC)) : Machine :=
  { m with cpu := Function.update m.cpu c p }

/-- `p->state = st`. -/
def setState (m : Machine) (p : Fin NPROC) (st : Procstate) : Machine :=
  m.setProc p { m.proc p with state := st }

/-- `wakeup(chan)`: every process asleep on `chan` becomes `RUNNABLE`.  The
caller is running, so skipping it, as the source does, changes nothing. -/
def wakeup (m : Machine) (ch : Chan) : Machine :=
  { m with proc := fun q =>
      if (m.proc q).state = .sleeping ∧ (m.proc q).chan = some ch then
        { m.proc q with state := .runnable }
      else m.proc q }

/-- `sched()` by the process `p` on CPU `c`, holding `p->lock` when `held`: its
checks, then the switch to the scheduler of `c`, which clears `c->proc`. -/
def sched (m : Machine) (c : Fin NCPU) (p : Fin NPROC) (held : Bool) : Except String Machine :=
  if !held then .error "sched p->lock"
  else if (m.proc p).state = .running then .error "sched running"
  else .ok (m.setCpu c none)

/-- The first unused slot, where `allocproc` stops. -/
def firstUnused (m : Machine) : Option (Fin NPROC) :=
  (List.finRange NPROC).find? fun q => (m.proc q).state = .unused

/-- The first zombie child of `p`, which `wait` frees. -/
def firstZombieChild (m : Machine) (p : Fin NPROC) : Option (Fin NPROC) :=
  (List.finRange NPROC).find? fun q => (m.proc q).parent = some p ∧ (m.proc q).state = .zombie

/-- `freeproc(p)`. -/
def freeproc (m : Machine) (p : Fin NPROC) : Machine :=
  m.setProc p PState.free

/-- `reparent(p)`: the children of `p` go to `initproc`, which is woken if
there were any. -/
def reparent (m : Machine) (p : Fin NPROC) : Machine :=
  let m' := { m with proc := fun q =>
    if (m.proc q).parent = some p then { m.proc q with parent := some m.initproc } else m.proc q }
  if ∃ q, (m.proc q).parent = some p then m'.wakeup (.proc m.initproc) else m'

end Machine

/-- An atomic step of the scheduler of a CPU, of the process running on a CPU,
or of an interrupt handler. -/
inductive Event
  /-- The scheduler of CPU `c` picks the runnable process `p`. -/
  | schedule (c : Fin NCPU) (p : Fin NPROC)
  /-- The process on CPU `c` calls `yield()`. -/
  | yield (c : Fin NCPU)
  /-- The process on CPU `c` calls `sleep(chan, lk)` on another object than a
  `struct proc`. -/
  | sleep (c : Fin NCPU) (addr : Nat)
  /-- `wakeup(chan)`, by any thread. -/
  | wakeup (ch : Chan)
  /-- `kill` of the process in slot `p`. -/
  | kill (p : Fin NPROC)
  /-- The process on CPU `c` calls `fork()`, up to the release of the child's
  lock: `allocproc`, and the copy of its memory, which succeeds when `ok`; the
  child's parent, set under `wait_lock` before the second half, is set here. -/
  | fork (c : Fin NCPU) (ok : Bool)
  /-- The process on CPU `c` ends its `fork()` of the child `np`:
  `np->state = RUNNABLE`. -/
  | forkDone (c : Fin NCPU) (np : Fin NPROC)
  /-- The process on CPU `c` calls `exit()`. -/
  | exit (c : Fin NCPU)
  /-- The process on CPU `c` calls `wait(addr)`, whose `copyout` of the exit
  status succeeds when `ok`. -/
  | wait (c : Fin NCPU) (ok : Bool)

namespace Machine

/-- `sleep(chan)` by the process `p` on CPU `c`: it records the channel,
sleeps, and gives up the CPU. -/
def sleepOn (m : Machine) (c : Fin NCPU) (p : Fin NPROC) (ch : Chan) : Except String Machine :=
  (m.setProc p { m.proc p with chan := some ch, state := .sleeping }).sched c p true

/-- One step; `none` when it cannot be taken. -/
def step (m : Machine) : Event → Option (Except String Machine)
  | .schedule c p =>
    if m.cpu c = none ∧ (m.proc p).state = .runnable then
      some (.ok ((m.setProc p { m.proc p with state := .running, chan := none }).setCpu c (some p)))
    else none
  | .yield c => (m.cpu c).map fun p => (m.setState p .runnable).sched c p true
  | .sleep c addr => (m.cpu c).map fun p => m.sleepOn c p (.obj addr)
  | .wakeup ch => some (.ok (m.wakeup ch))
  | .kill p =>
    some (.ok (m.setProc p { m.proc p with
      killed := true
      state := if (m.proc p).state = .sleeping then .runnable else (m.proc p).state }))
  | .fork c ok => (m.cpu c).map fun p =>
    match m.firstUnused with
    | none => .ok m
    | some np =>
      -- a failed copy frees the child before its lock is released
      if ok then .ok (m.setProc np { m.proc np with state := .used, parent := some p })
      else .ok m
  | .forkDone c np => (m.cpu c).bind fun p =>
    if (m.proc np).state = .used ∧ (m.proc np).parent = some p then
      some (.ok (m.setState np .runnable))
    else none
  | .exit c => (m.cpu c).map fun p =>
    if p = m.initproc then .error "init exiting"
    else
      let m := m.reparent p
      -- the parent might be sleeping in wait()
      let m := match (m.proc p).parent with
        | some pp => m.wakeup (.proc pp)
        | none => m
      (m.setState p .zombie).sched c p true
  | .wait c ok => (m.cpu c).map fun p =>
    match m.firstZombieChild p with
    | some q => if ok then .ok (m.freeproc q) else .ok m
    | none =>
      if (∃ q, (m.proc q).parent = some p) ∧ !(m.proc p).killed then m.sleepOn c p (.proc p)
      else .ok m

/-- `step` as a transition relation. -/
def Next (m : Machine) (e : Event) (m' : Machine) : Prop := m.step e = some (.ok m')

/-- After `userinit`: `initproc` runnable in the first slot, every other slot
unused, every CPU in its scheduler. -/
def boot : Machine where
  proc p := if p = Tables.slot0 then { PState.free with state := .runnable } else PState.free
  cpu _ := none
  initproc := Tables.slot0

end Machine

/-- The life cycle of a process slot: `allocproc` takes an unused slot, `fork`
and `userinit` make it runnable, the scheduler runs it, `yield`, `sleep` and
`exit` leave the running state, `wakeup` and `kill` make a sleeper runnable,
and `freeproc` returns a zombie's slot. -/
inductive Allowed : Procstate → Procstate → Prop
  | alloc : Allowed .unused .used
  | ready : Allowed .used .runnable
  | run : Allowed .runnable .running
  | yield : Allowed .running .runnable
  | sleep : Allowed .running .sleeping
  | exit : Allowed .running .zombie
  | wake : Allowed .sleeping .runnable
  | free : Allowed .zombie .unused

end Xv6.Scheduler
