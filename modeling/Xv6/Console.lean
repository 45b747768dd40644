import Xv6.Vm.Copy
import Xv6.Proc.Table

/-!
# Console input

The input half of `kernel/console.c`: the line editor `consoleintr`, which the
UART interrupt calls for each character typed, and `consoleread`, which copies
the committed input to the user a line at a time.

`cons.buf` is a ring of `INPUT_BUF_SIZE` bytes with three `uint` indices that
wrap around `2^32`: the bytes `[r, w)` are committed and not yet read, and
`[w, e)` is the line being edited.  Echo to the UART and `procdump` print only,
and are left out.

`consoleread` holds `cons.lock` except while it sleeps on `&cons.r`, so a call
runs in pieces, each from its start or from where it slept up to its return or
its next sleep; `consoleintr` runs whole under the same lock, between pieces.
`ConsSys` keeps beside the console the bytes committed by the editor and the
bytes the reads copied to user memory, in order.
-/

namespace Xv6.Console

open Tables (Procstate)

/-- `INPUT_BUF_SIZE`. -/
def INPUT_BUF_SIZE : Nat := 128

/-- `C(x)`: Control-x. -/
def C (x : Char) : UInt8 := (x.toNat - '@'.toNat).toUInt8

/-- The byte of a character of the source. -/
def ch (x : Char) : UInt8 := x.toNat.toUInt8

/-- The input fields of `cons`, without its lock. -/
structure Cons where
  buf : Fin INPUT_BUF_SIZE → UInt8
  /-- Read index. -/
  r : UInt32
  /-- Write index. -/
  w : UInt32
  /-- Edit index. -/
  e : UInt32

namespace Cons

/-- `i % INPUT_BUF_SIZE`. -/
def slot (i : UInt32) : Fin INPUT_BUF_SIZE :=
  ⟨i.toNat % INPUT_BUF_SIZE, Nat.mod_lt _ (by decide)⟩

/-- The bytes of the ring from index `a` up to index `b`. -/
def between (cs : Cons) (a b : UInt32) : List UInt8 :=
  (List.range (b - a).toNat).map fun k => cs.buf (slot (a + k.toUInt32))

/-- The loop of Ctrl-U: erase back to the last newline of the line being
edited, or to `w`.  Each round brings `e` one nearer to `w`, so fuel `e - w`
suffices. -/
def killLine : Nat → Cons → Cons
  | 0, cs => cs
  | fuel + 1, cs =>
    if cs.e ≠ cs.w ∧ cs.buf (slot (cs.e - 1)) ≠ ch '\n' then
      killLine fuel { cs with e := cs.e - 1 }
    else cs

end Cons

/-- `consoleintr(c)` for a byte `c` from the UART: the console after it, and
whether it called `wakeup(&cons.r)`. -/
def consoleintr (cs : Cons) (c : UInt8) : Cons × Bool :=
  if c = C 'P' then (cs, false)
  else if c = C 'U' then (Cons.killLine (cs.e - cs.w).toNat cs, false)
  else if c = C 'H' ∨ c = 0x7f then
    if cs.e ≠ cs.w then ({ cs with e := cs.e - 1 }, false) else (cs, false)
  else if c ≠ 0 ∧ cs.e - cs.r < INPUT_BUF_SIZE.toUInt32 then
    let c := if c = ch '\r' then ch '\n' else c
    -- store for consumption by consoleread()
    let cs := { cs with buf := Function.update cs.buf (Cons.slot cs.e) c, e := cs.e + 1 }
    if c = ch '\n' ∨ c = C 'D' ∨ cs.e - cs.r = INPUT_BUF_SIZE.toUInt32 then
      ({ cs with w := cs.e }, true)
    else (cs, false)
  else (cs, false)

/-- The locals of a `consoleread(1, dst, n)` in progress: the user pages, the
next destination, the bytes still wanted and `target`.  `target` is a `uint`
and `n` an `int`; `target - n` lies in `[0, target]` and is kept as an `Int`. -/
structure Reading where
  vm : UserVm
  dst : Nat
  n : Int
  target : Int

/-- How a piece of `consoleread` ends. -/
inductive ReadEnd
  | returned (r : Int)
  | sleeping
deriving DecidableEq, Repr

/-- The loop of `consoleread` from the top of a round, for a process whose
`killed` flag is `killed`: the console and the locals after it, the bytes
copied to user memory (appended to `got`) and how the piece ended.  Each round
that goes on copies a byte and lowers `n`, so fuel `n` suffices. -/
def readLoop (killed : Bool) :
    Nat → Cons → Reading → List UInt8 → Cons × Reading × List UInt8 × ReadEnd
  | 0, cs, rd, got => (cs, rd, got, .returned (rd.target - rd.n))
  | fuel + 1, cs, rd, got =>
    if 0 < rd.n then
      -- wait until interrupt handler has put some input into cons.buffer
      if cs.r = cs.w then
        if killed then (cs, rd, got, .returned (-1)) else (cs, rd, got, .sleeping)
      else
        let c := cs.buf (Cons.slot cs.r)
        let cs := { cs with r := cs.r + 1 }
        if c = C 'D' then
          -- save ^D for next time, so that the caller gets a 0-byte result
          let cs := if rd.n < rd.target then { cs with r := cs.r - 1 } else cs
          (cs, rd, got, .returned (rd.target - rd.n))
        else
          match copyout rd.vm 1 rd.dst [c] with
          | (vm, true) =>
            let rd := { rd with vm, dst := rd.dst + 1, n := rd.n - 1 }
            if c = ch '\n' then (cs, rd, got ++ [c], .returned (rd.target - rd.n))
            else readLoop killed fuel cs rd (got ++ [c])
          | (vm, false) => (cs, { rd with vm }, got, .returned (rd.target - rd.n))
    else (cs, rd, got, .returned (rd.target - rd.n))

/-- What the console sees of a process. -/
structure Reader where
  state : Procstate
  killed : Bool
  /-- The `consoleread` the process is in, if any. -/
  call : Option Reading
  /-- The value its last `consoleread` returned. -/
  ret : Int

/-- The console and its readers, with the bytes the editor committed and the
bytes the reads delivered, in order. -/
structure ConsSys (np : Nat) where
  cons : Cons
  proc : Fin np → Reader
  committed : List UInt8
  delivered : List UInt8

/-- A step of the interrupt handler or of one process. -/
inductive Event (np : Nat)
  /-- `consoleintr(c)`. -/
  | intr (c : UInt8)
  /-- `consoleread(1, dst, n)` is called by `p`, and runs its first piece. -/
  | read (p : Fin np) (vm : UserVm) (dst : Nat) (n : Int)
  /-- A woken reader runs its next piece. -/
  | resume (p : Fin np)
  /-- `kill` of the process `p`, by another. -/
  | kill (p : Fin np)

namespace ConsSys

variable {np : Nat}

def setProc (s : ConsSys np) (p : Fin np) (rd : Reader) : ConsSys np :=
  { s with proc := Function.update s.proc p rd }

/-- `wakeup(&cons.r)`: every sleeping reader becomes `RUNNABLE`. -/
def wakeup (s : ConsSys np) : ConsSys np :=
  { s with proc := fun q =>
      if (s.proc q).state = .sleeping then { s.proc q with state := .runnable } else s.proc q }

/-- `consoleintr(c)`, with the bytes it commits. -/
def intr (s : ConsSys np) (c : UInt8) : ConsSys np :=
  let (cs, woke) := consoleintr s.cons c
  let s' := { s with cons := cs, committed := s.committed ++ cs.between s.cons.w cs.w }
  if woke then s'.wakeup else s'

/-- A piece of `consoleread` by `p`, which runs. -/
def runRead (s : ConsSys np) (p : Fin np) (rd : Reading) : ConsSys np :=
  let (cs, rd, got, fin) := readLoop (s.proc p).killed rd.n.toNat s.cons rd []
  let s := { s with cons := cs, delivered := s.delivered ++ got }
  match fin with
  | .returned r => s.setProc p { s.proc p with state := .running, call := none, ret := r }
  | .sleeping => s.setProc p { s.proc p with state := .sleeping, call := some rd }

/-- `kill` of `p`: its flag is set, and it is woken if it sleeps. -/
def kill (s : ConsSys np) (p : Fin np) : ConsSys np :=
  s.setProc p { s.proc p with
    killed := true
    state := if (s.proc p).state = .sleeping then .runnable else (s.proc p).state }

/-- One step; `none` when the process cannot take it. -/
def step (s : ConsSys np) : Event np → Option (ConsSys np)
  | .intr c => some (s.intr c)
  | .read p vm dst n =>
    if (s.proc p).state = .running ∧ (s.proc p).call.isNone then
      some (s.runRead p { vm, dst, n, target := n })
    else none
  | .resume p =>
    match (s.proc p).call with
    | some rd => if (s.proc p).state = .runnable then some (s.runRead p rd) else none
    | none => none
  | .kill p => some (s.kill p)

/-- `step` as a transition relation. -/
def Next (s : ConsSys np) (e : Event np) (s' : ConsSys np) : Prop := s.step e = some s'

/-- An empty console, whatever its indices, with no read in progress and
nothing committed or delivered yet. -/
def Init (s : ConsSys np) : Prop :=
  s.cons.r = s.cons.w ∧ s.cons.w = s.cons.e ∧ s.committed = [] ∧ s.delivered = [] ∧
    ∀ p, (s.proc p).call = none

end ConsSys

end Xv6.Console
