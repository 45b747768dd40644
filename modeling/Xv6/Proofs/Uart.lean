import Xv6.Uart
import Xv6.Lib.Transition

/-!
# The UART transmit ring is a lossless FIFO

The bytes of the ring not yet sent are the window of `uart_tx_buf` from
`uart_tx_r` up to `uart_tx_w` (`pending`).  `Inv` says that this window is at
most `UART_TX_BUF_SIZE` long, that the bytes written to `THR` followed by it
are exactly the characters `uartputc` stored, and that a process asleep in
`uartputc` sees a full ring.  `uartstart` moves bytes from the front of the
window to `THR` (`uartstart_spec`); `uartputc` stores at the end only when the
ring is not full, so never while anyone sleeps, and a byte sent wakes every
sleeper.  `2^64` is a multiple of `UART_TX_BUF_SIZE`, so the counters may wrap.
-/

namespace Xv6.Uart

open Transition

/-! ## Counters -/

theorem size_dvd : UART_TX_BUF_SIZE ∣ 2 ^ 64 := by decide

/-- The slot of counter `b` is the slot `b - a` positions after counter `a`. -/
theorem slot_eq (a b : UInt64) :
    slot b = Window.slot UART_TX_BUF_SIZE (a.toNat + (b - a).toNat) := by
  rw [← Window.slot_mod size_dvd (a.toNat + (b - a).toNat)]
  unfold slot
  congr 1
  have := a.toNat_lt
  have := b.toNat_lt
  rw [UInt64.toNat_sub]
  omega

theorem toNat_succ_sub {a b : UInt64} (h : (b - a).toNat + 1 < 2 ^ 64) :
    (b + 1 - a).toNat = (b - a).toNat + 1 := by
  have := a.toNat_lt
  have := b.toNat_lt
  simp only [UInt64.toNat_sub, UInt64.toNat_add, UInt64.toNat_one] at h ⊢
  omega

theorem toNat_sub_succ {a b : UInt64} (h : a ≠ b) : (b - (a + 1)).toNat + 1 = (b - a).toNat := by
  have hne : a.toNat ≠ b.toNat := fun he => h (UInt64.toNat_inj.mp he)
  have := a.toNat_lt
  have := b.toNat_lt
  simp only [UInt64.toNat_sub, UInt64.toNat_add, UInt64.toNat_one]
  omega

/-- The ring is full exactly when the window has `UART_TX_BUF_SIZE` bytes. -/
theorem full_iff (tx : Tx) :
    tx.w = tx.r + UART_TX_BUF_SIZE.toUInt64 ↔ (tx.w - tx.r).toNat = UART_TX_BUF_SIZE := by
  constructor
  · intro h
    have := tx.r.toNat_lt
    rw [h, UInt64.toNat_sub, UInt64.toNat_add]
    simp only [UART_TX_BUF_SIZE, Nat.toUInt64_eq, UInt64.toNat_ofNat']
    omega
  · intro h
    apply UInt64.toNat_inj.mp
    have := tx.r.toNat_lt
    have := tx.w.toNat_lt
    rw [UInt64.toNat_sub] at h
    rw [UInt64.toNat_add]
    simp only [UART_TX_BUF_SIZE] at h ⊢
    simp only [Nat.toUInt64_eq, UInt64.toNat_ofNat']
    omega

/-! ## The bytes not yet sent -/

/-- The bytes stored and not yet sent, oldest first. -/
def pending (tx : Tx) : List UInt8 := Window.read tx.buf tx.r.toNat (tx.w - tx.r).toNat

@[simp] theorem length_pending (tx : Tx) : (pending tx).length = (tx.w - tx.r).toNat := by
  simp [pending]

/-- `uartputc` stores at `uart_tx_w` and moves it on. -/
theorem pending_push (tx : Tx) (c : UInt8) (h : (tx.w - tx.r).toNat < UART_TX_BUF_SIZE) :
    pending { tx with buf := Function.update tx.buf (slot tx.w) c, w := tx.w + 1 } =
      pending tx ++ [c] := by
  have h64 : (tx.w - tx.r).toNat + 1 < 2 ^ 64 := by
    unfold UART_TX_BUF_SIZE at h
    omega
  unfold pending
  simp only
  rw [toNat_succ_sub h64, slot_eq tx.r tx.w, Window.read_push tx.buf h]

/-- `uartstart` takes the byte at `uart_tx_r` and moves it on. -/
theorem pending_pop (tx : Tx) (h : tx.w ≠ tx.r) :
    pending tx = tx.buf (slot tx.r) :: pending { tx with r := tx.r + 1 } := by
  have hsucc : (tx.r + 1).toNat = (tx.r.toNat + 1) % 2 ^ 64 := by
    rw [UInt64.toNat_add, UInt64.toNat_one]
  unfold pending
  simp only
  rw [← toNat_sub_succ (Ne.symm h), Window.read_succ_front, hsucc,
    Window.read_mod tx.buf size_dvd]
  rfl

/-- `uartstart` sends bytes from the front of the window, in order, and touches
nothing else; if it sends nothing the ring is as it was. -/
theorem uartstart_spec (tx : Tx) (lsr : List Bool) :
    (uartstart tx lsr).2 ++ pending (uartstart tx lsr).1 = pending tx ∧
      (uartstart tx lsr).1.buf = tx.buf ∧ (uartstart tx lsr).1.w = tx.w ∧
      ((uartstart tx lsr).2 = [] → (uartstart tx lsr).1 = tx) := by
  induction lsr generalizing tx with
  | nil => simp [uartstart]
  | cons idle lsr ih =>
    by_cases hempty : tx.w = tx.r
    · simp [uartstart, hempty]
    by_cases hidle : idle = false
    · simp [uartstart, hempty, hidle]
    -- a byte is sent: the rest of the run starts from the ring with `r` moved on
    have hrun : uartstart tx (idle :: lsr) =
        ((uartstart { tx with r := tx.r + 1 } lsr).1,
          tx.buf (slot tx.r) :: (uartstart { tx with r := tx.r + 1 } lsr).2) := by
      simp [uartstart, hempty, hidle]
    obtain ⟨hfifo, hbuf, hw, -⟩ := ih { tx with r := tx.r + 1 }
    rw [hrun]
    refine ⟨?_, hbuf, hw, by simp⟩
    rw [pending_pop tx hempty, List.cons_append, hfifo]

/-! ## The invariant -/

section

variable {np : Nat} {s s' : UartSys np}

/-- What holds in every reachable state. -/
structure Inv (s : UartSys np) : Prop where
  room : (s.tx.w - s.tx.r).toNat ≤ UART_TX_BUF_SIZE
  fifo : s.thr ++ pending s.tx = s.put
  asleep_full : ∀ p pc, s.putter p = some pc → pc.asleep = true →
    s.tx.w = s.tx.r + UART_TX_BUF_SIZE.toUInt64

theorem Inv.init (h : UartSys.Init s) : Inv s := by
  obtain ⟨hwr, hput, hthr, hp⟩ := h
  refine ⟨?_, ?_, ?_⟩
  · simp [hwr]
  · simp [pending, hwr, hput, hthr]
  · intro p pc hpc
    simp [hp p] at hpc

/-- Sending what `uartstart` returns keeps the invariant: the bytes move from
the window to `THR`, and a byte sent wakes every sleeper. -/
theorem Inv.send (h : Inv s) (lsr : List Bool) :
    Inv (s.send (uartstart s.tx lsr).1 (uartstart s.tx lsr).2) := by
  obtain ⟨hfifo, -, hw, hsame⟩ := uartstart_spec s.tx lsr
  have hlen := congrArg List.length hfifo
  simp only [List.length_append, length_pending] at hlen
  have hroom := h.room
  by_cases hout : (uartstart s.tx lsr).2 = []
  · rw [UartSys.send, if_pos hout]
    rw [hsame hout]
    exact ⟨h.room, by simpa [hout] using h.fifo, h.asleep_full⟩
  · rw [UartSys.send, if_neg hout]
    refine ⟨by simp only [UartSys.wakeup]; omega, ?_, ?_⟩
    · simp only [UartSys.wakeup, List.append_assoc, hfifo, h.fifo]
    · intro p pc hpc hasleep
      simp only [UartSys.wakeup, Option.map_eq_some_iff] at hpc
      obtain ⟨pc', -, rfl⟩ := hpc
      simp at hasleep

/-- A piece of `uartputc` keeps the invariant.  It stores only into a ring
that is not full, so when no one sleeps; a caller that finds it full sleeps
on a full ring. -/
theorem Inv.putc (h : Inv s) (p : Fin np) (c : UInt8) (lsr : List Bool) :
    Inv (s.putc p c lsr) := by
  unfold UartSys.putc putPiece
  by_cases hfull : s.tx.w = s.tx.r + UART_TX_BUF_SIZE.toUInt64
  · rw [if_pos hfull]
    refine ⟨h.room, h.fifo, ?_⟩
    intro q pc hpc _
    exact hfull
  · rw [if_neg hfull]
    have hlt : (s.tx.w - s.tx.r).toNat < UART_TX_BUF_SIZE :=
      lt_of_le_of_ne h.room (mt (full_iff s.tx).mpr hfull)
    -- nobody sleeps on a ring that is not full
    have hnone : ∀ q pc, s.putter q = some pc → pc.asleep = false := by
      intro q pc hpc
      cases hq : pc.asleep
      · rfl
      · exact absurd (h.asleep_full q pc hpc hq) hfull
    let tx₁ : Tx := { s.tx with buf := Function.update s.tx.buf (slot s.tx.w) c, w := s.tx.w + 1 }
    let s₁ : UartSys np :=
      { s with tx := tx₁, putter := Function.update s.putter p none, put := s.put ++ [c] }
    have hinv₁ : Inv s₁ := by
      refine ⟨?_, ?_, ?_⟩
      · have := length_pending tx₁
        rw [pending_push s.tx c hlt, List.length_append, length_pending] at this
        simp only [s₁]
        simp only [List.length_singleton] at this
        omega
      · simp only [s₁, tx₁]
        rw [pending_push s.tx c hlt, ← List.append_assoc, h.fifo]
      · intro q pc hpc hasleep
        simp only [s₁, Function.update_apply] at hpc
        split_ifs at hpc
        · rw [hnone q pc hpc] at hasleep
          cases hasleep
    have := hinv₁.send lsr
    simpa [s₁, UartSys.send] using this

theorem Inv.step (h : Inv s) {e : Event np} (hstep : s.Next e s') : Inv s' := by
  cases e with
  | putc p c lsr =>
    simp only [UartSys.Next, UartSys.step] at hstep
    split_ifs at hstep
    cases hstep
    exact h.putc p c lsr
  | resume p lsr =>
    simp only [UartSys.Next, UartSys.step] at hstep
    cases hpc : s.putter p with
    | none => simp [hpc] at hstep
    | some pc =>
      simp only [hpc] at hstep
      split_ifs at hstep
      cases hstep
      exact h.putc p pc.c lsr
  | intr lsr =>
    simp only [UartSys.Next, UartSys.step] at hstep
    cases hstep
    exact h.send lsr

end

/-- The transmit ring is a lossless FIFO: in every reachable state, whatever
the interleaving of `uartputc` pieces and interrupts and whatever `LSR` said,
`uart_tx_w - uart_tx_r` lies in `[0, UART_TX_BUF_SIZE]`, the bytes written to
`THR` followed by the bytes still in the ring are exactly the characters
`uartputc` stored, in order (so `THR` got a prefix of them, none lost or
duplicated), and a process asleep in `uartputc` sees a full ring. -/
theorem uart_tx_fifo {np : Nat} {s : UartSys np}
    (hs : Reachable UartSys.Init UartSys.Next s) :
    (s.tx.w - s.tx.r).toNat ≤ UART_TX_BUF_SIZE ∧ s.thr ++ pending s.tx = s.put ∧
      s.thr <+: s.put ∧
      ∀ p pc, s.putter p = some pc → pc.asleep = true →
        s.tx.w = s.tx.r + UART_TX_BUF_SIZE.toUInt64 := by
  have h : Inv s := Reachable.invariant (I := Inv) (fun _ h0 => Inv.init h0)
    (fun _ _ _ _ hi hnext => hi.step hnext) hs
  exact ⟨h.room, h.fifo, ⟨pending s.tx, h.fifo⟩, h.asleep_full⟩

/-- An empty ring with one process that has not called `uartputc`. -/
def idleSys : UartSys 1 where
  tx := { buf := fun _ => 0, w := 0, r := 0 }
  putter := fun _ => none
  put := []
  thr := []

/-- Process 0 stores `'h'` and `'i'` while `LSR` reports the transmitter busy,
and an interrupt then finds it ready once: `'h'` has gone to `THR` and `'i'`
is still in the ring. -/
theorem uart_tx_fifo_twoPuts :
    ∃ s : UartSys 1, Reachable UartSys.Init UartSys.Next s ∧ (s.put = [104, 105] ∧ s.thr = [104]) ∧
      (s.tx.w - s.tx.r).toNat ≤ UART_TX_BUF_SIZE ∧ s.thr ++ pending s.tx = s.put ∧
      s.thr <+: s.put ∧
      ∀ p pc, s.putter p = some pc → pc.asleep = true →
        s.tx.w = s.tx.r + UART_TX_BUF_SIZE.toUInt64 := by
  have hrun : (Transition.exec UartSys.step idleSys
      [.putc 0 104 [false], .putc 0 105 [false], .intr [true, false]]).map
      (fun s => decide (s.put = [104, 105] ∧ s.thr = [104])) = some true := by
    decide
  obtain ⟨s, hs, hp⟩ := Reachable.exists_of_exec_decide (fun _ _ _ h => h) hrun
  have hs' := hs.of_eq (show UartSys.Init idleSys from ⟨rfl, rfl, rfl, fun _ => rfl⟩)
  exact ⟨s, hs', hp, uart_tx_fifo hs'⟩

end Xv6.Uart
