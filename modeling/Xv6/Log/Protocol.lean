import Xv6.Param
import Xv6.Lib.Transition
import Mathlib.Data.Fintype.Basic

/-!
# The group-commit protocol of the log

`begin_op`, `log_write` and `end_op` (`kernel/log.c`) as atomic steps at the
boundaries of `log.lock`, taken by any number `n` of processes in any
interleaving.

* `begin_op` is one step that happens when its loop finds the log neither
  committing nor short of space; while it sleeps nothing changes, and a sleeper
  retries after every wakeup, so modelling the sleep as "the step leaves the
  state alone" loses nothing.
* `end_op` is two steps, because it releases the lock around `commit()`: the
  first decrements `outstanding` and decides whether this process commits; the
  second, taken by that process only, is the body of `commit()` together with
  the re-acquisition that clears `committing`.
* `log_write` is one step.

The panics of the source are the `Except.error` results, with the source's
messages.  Besides the log, the state records each process's phase and, as
ghost state, the distinct block numbers its current operation has passed to
`log_write`.
-/

namespace Xv6

/-- `struct log` without its lock and device.  `start` is not read by the
protocol; it names the log region that `commit` writes. -/
structure Log where
  start : Nat
  /-- `log.size`, set from `sb.nlog`. -/
  size : Nat
  /-- How many file-system calls are executing. -/
  outstanding : Int
  /-- In `commit()`, please wait. -/
  committing : Bool
  /-- `log.lh.block[0 .. log.lh.n)`. -/
  lh : List Nat
deriving DecidableEq, Repr

/-- The body of `begin_op`'s loop: the log with one more outstanding operation,
or `none` when the caller sleeps, because a commit is running or the operation
might exhaust the log. -/
def beginOp (log : Log) : Option Log :=
  if log.committing then none
  else if (LOGSIZE : Int) < log.lh.length + (log.outstanding + 1) * MAXOPBLOCKS then none
  else some { log with outstanding := log.outstanding + 1 }

/-- `end_op` up to releasing the lock: the log and `do_commit`. -/
def endOp (log : Log) : Except String (Log × Bool) :=
  let log := { log with outstanding := log.outstanding - 1 }
  if log.committing then .error "log.committing"
  else if log.outstanding = 0 then .ok ({ log with committing := true }, true)
  else .ok (log, false)

/-- The rest of `end_op` in the committing process: `commit()` empties the
in-memory header (`log.lh.n = 0`), and `committing` is cleared under the lock. -/
def endCommit (log : Log) : Log :=
  { log with lh := [], committing := false }

/-- `log_write` of a buffer holding block `blockno`: panic on a full log or
outside a transaction, else record the block unless it is already logged (log
absorption). -/
def logWrite (log : Log) (blockno : Nat) : Except String Log :=
  if (LOGSIZE : Int) ≤ log.lh.length ∨ (log.size : Int) - 1 ≤ log.lh.length then
    .error "too big a transaction"
  else if log.outstanding < 1 then .error "log_write outside of trans"
  else .ok { log with lh := if blockno ∈ log.lh then log.lh else log.lh ++ [blockno] }

/-- Where a process stands with respect to the log. -/
inductive OpPhase
  /-- Outside any file-system operation, or asleep in `begin_op`. -/
  | idle
  /-- Between `begin_op` and `end_op`. -/
  | inOp
  /-- In `end_op`, committing, with `log.lock` released. -/
  | committing
deriving DecidableEq, Repr

/-- The log and the `n` processes that use it. -/
structure LogSys (n : Nat) where
  log : Log
  phase : Fin n → OpPhase
  /-- The distinct block numbers that each process's current operation has
  passed to `log_write` (ghost state). -/
  opBlocks : Fin n → List Nat
deriving DecidableEq

/-- One call by one process. -/
inductive LogEvent (n : Nat)
  | beginOp (p : Fin n)
  | logWrite (p : Fin n) (blockno : Nat)
  | endOp (p : Fin n)
  /-- The committing process finishes `commit()` and clears `committing`. -/
  | endCommit (p : Fin n)
deriving DecidableEq, Repr

variable {n : Nat}

/-- The state after recovery, with every process idle. -/
def LogSys.init (start size : Nat) : LogSys n where
  log := { start, size, outstanding := 0, committing := false, lh := [] }
  phase := fun _ => .idle
  opBlocks := fun _ => []

/-- The calling discipline: a process begins an operation when it is outside
one, calls `log_write` and `end_op` only inside its own, and only the process
that decided to commit finishes the commit. -/
def LogSys.Allowed (s : LogSys n) : LogEvent n → Prop
  | .beginOp p => s.phase p = .idle
  | .logWrite p _ => s.phase p = .inOp
  | .endOp p => s.phase p = .inOp
  | .endCommit p => s.phase p = .committing

instance (s : LogSys n) (e : LogEvent n) : Decidable (s.Allowed e) := by
  cases e <;> unfold LogSys.Allowed <;> infer_instance

/-- `blockno` added to a list of distinct block numbers. -/
def insertBlock (blockno : Nat) (bs : List Nat) : List Nat :=
  if blockno ∈ bs then bs else blockno :: bs

/-- What the code does on one event; a sleeping `begin_op` leaves the state alone. -/
def LogSys.step (s : LogSys n) : LogEvent n → Except String (LogSys n)
  | .beginOp p =>
      match beginOp s.log with
      | none => .ok s
      | some log =>
          .ok { s with log, phase := Function.update s.phase p .inOp,
                        opBlocks := Function.update s.opBlocks p [] }
  | .logWrite p blockno =>
      (logWrite s.log blockno).map fun log =>
        { s with log, opBlocks := Function.update s.opBlocks p (insertBlock blockno (s.opBlocks p)) }
  | .endOp p =>
      (endOp s.log).map fun r =>
        { s with log := r.1,
                 phase := Function.update s.phase p (if r.2 then .committing else .idle) }
  | .endCommit p =>
      .ok { s with log := endCommit s.log, phase := Function.update s.phase p .idle }

/-- A step the discipline allows and that does not panic. -/
def LogSys.Next (s : LogSys n) (e : LogEvent n) (s' : LogSys n) : Prop :=
  s.Allowed e ∧ s.step e = .ok s'

/-- The per-operation budget: an operation passes at most `MAXOPBLOCKS`
distinct block numbers to `log_write`. -/
def LogSys.WithinBudget (s : LogSys n) : LogEvent n → Prop
  | .logWrite p blockno => (insertBlock blockno (s.opBlocks p)).length ≤ MAXOPBLOCKS
  | _ => True

instance (s : LogSys n) (e : LogEvent n) : Decidable (s.WithinBudget e) := by
  cases e <;> unfold LogSys.WithinBudget <;> infer_instance

/-- An allowed, non-panicking step within the per-operation budget. -/
def LogSys.NextInBudget (s : LogSys n) (e : LogEvent n) (s' : LogSys n) : Prop :=
  s.Next e s' ∧ s.WithinBudget e

/-- `LogSys.NextInBudget` as a function, to execute a trace. -/
def LogSys.nextInBudget? (s : LogSys n) (e : LogEvent n) : Option (LogSys n) :=
  if s.Allowed e ∧ s.WithinBudget e then (s.step e).toOption else none

end Xv6
