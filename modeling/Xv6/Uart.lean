import Xv6.Lib.Window

/-!
# The transmit ring of the UART driver

The output half of `kernel/uart.c`.  `uart_tx_buf` is a ring of
`UART_TX_BUF_SIZE` bytes between two `uint64` counters: `uartputc` stores at
`uart_tx_w` and `uartstart` sends from `uart_tx_r` to the transmit holding
register `THR` while the UART says it is idle.  Every piece of code that
touches the ring holds `uart_tx_lock`, so a call runs in pieces: `uartputc`
from its start, or from where it slept on `&uart_tx_r`, up to its return or
its next sleep; the transmit half of `uartintr` whole.

The device is left open: each read of `LSR` in `uartstart` may say idle or
busy, and a step of `uartstart` takes the bits its reads return as a list
(reads past the end of the list say busy).  `uartputc_sync`, which writes
`THR` directly for `printf` and echo, and the receive half of `uartintr` are
left out; so is `panicked`, taken to be 0.  `UartSys` keeps beside the ring
the characters `uartputc` stored and the bytes `uartstart` wrote to `THR`, in
order.
-/

namespace Xv6.Uart

/-- `UART_TX_BUF_SIZE`. -/
def UART_TX_BUF_SIZE : Nat := 32

instance : NeZero UART_TX_BUF_SIZE := ⟨by decide⟩

/-- The transmit ring, without its lock. -/
structure Tx where
  buf : Fin UART_TX_BUF_SIZE → UInt8
  /-- `uart_tx_w`: write next to `uart_tx_buf[uart_tx_w % UART_TX_BUF_SIZE]`. -/
  w : UInt64
  /-- `uart_tx_r`: read next from `uart_tx_buf[uart_tx_r % UART_TX_BUF_SIZE]`. -/
  r : UInt64

/-- `i % UART_TX_BUF_SIZE`. -/
def slot (i : UInt64) : Fin UART_TX_BUF_SIZE := Window.slot UART_TX_BUF_SIZE i.toNat

/-- `uartstart()`, given the `LSR_TX_IDLE` bit of each read of `LSR` it makes:
the ring after it and the bytes it wrote to `THR`, in order.  Each byte sent
calls `wakeup(&uart_tx_r)`. -/
def uartstart (tx : Tx) : List Bool → Tx × List UInt8
  | [] => (tx, [])
  | idle :: lsr =>
    if tx.w = tx.r then
      -- transmit buffer is empty.
      (tx, [])
    else if !idle then
      -- the UART transmit holding register is full.
      (tx, [])
    else
      let c := tx.buf (slot tx.r)
      let (tx', out) := uartstart { tx with r := tx.r + 1 } lsr
      (tx', c :: out)

/-- The body of `uartputc(c)` from the test of its loop, holding
`uart_tx_lock`: `none` if the buffer is full and the caller sleeps on
`&uart_tx_r`, else the ring after storing `c` and running `uartstart`, with
the bytes written to `THR`. -/
def putPiece (tx : Tx) (c : UInt8) (lsr : List Bool) : Option (Tx × List UInt8) :=
  if tx.w = tx.r + UART_TX_BUF_SIZE.toUInt64 then none
  else some (uartstart { tx with buf := Function.update tx.buf (slot tx.w) c, w := tx.w + 1 } lsr)

/-- A process inside `uartputc(c)` that has not stored `c` yet: asleep on
`&uart_tx_r`, or woken and not yet running. -/
structure Putter where
  c : UInt8
  asleep : Bool

/-- The ring, the processes in `uartputc`, the characters `uartputc` stored and
the bytes written to `THR`, in order. -/
structure UartSys (np : Nat) where
  tx : Tx
  putter : Fin np → Option Putter
  put : List UInt8
  thr : List UInt8

/-- A step of a process or of the interrupt handler, with the bits the reads of
`LSR` return in it. -/
inductive Event (np : Nat)
  /-- `uartputc(c)` is called by `p` and runs its first piece. -/
  | putc (p : Fin np) (c : UInt8) (lsr : List Bool)
  /-- A woken `uartputc` runs its next piece. -/
  | resume (p : Fin np) (lsr : List Bool)
  /-- The transmit half of `uartintr`: `uartstart` under `uart_tx_lock`. -/
  | intr (lsr : List Bool)

namespace UartSys

variable {np : Nat}

/-- `wakeup(&uart_tx_r)`: every process asleep in `uartputc` is woken. -/
def wakeup (s : UartSys np) : UartSys np :=
  { s with putter := fun q => (s.putter q).map fun pc => { pc with asleep := false } }

/-- The bytes `uartstart` sent are written to `THR`, waking the sleepers if
there are any. -/
def send (s : UartSys np) (tx : Tx) (out : List UInt8) : UartSys np :=
  let s := { s with tx, thr := s.thr ++ out }
  if out = [] then s else s.wakeup

/-- A piece of `uartputc(c)` by `p`. -/
def putc (s : UartSys np) (p : Fin np) (c : UInt8) (lsr : List Bool) : UartSys np :=
  match putPiece s.tx c lsr with
  | none => { s with putter := Function.update s.putter p (some ⟨c, true⟩) }
  | some (tx, out) =>
    ({ s with putter := Function.update s.putter p none, put := s.put ++ [c] }).send tx out

/-- One step; `none` when the process cannot take it. -/
def step (s : UartSys np) : Event np → Option (UartSys np)
  | .putc p c lsr => if s.putter p = none then some (s.putc p c lsr) else none
  | .resume p lsr =>
    match s.putter p with
    | some pc => if pc.asleep then none else some (s.putc p pc.c lsr)
    | none => none
  | .intr lsr =>
    let (tx, out) := uartstart s.tx lsr
    some (s.send tx out)

/-- `step` as a transition relation. -/
def Next (s : UartSys np) (e : Event np) (s' : UartSys np) : Prop := s.step e = some s'

/-- An empty ring, whatever its counters, with no process in `uartputc` and
nothing stored or sent yet. -/
def Init (s : UartSys np) : Prop :=
  s.tx.w = s.tx.r ∧ s.put = [] ∧ s.thr = [] ∧ ∀ p, s.putter p = none

end UartSys

end Xv6.Uart
