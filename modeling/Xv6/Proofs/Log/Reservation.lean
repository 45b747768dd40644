import Xv6.Proofs.Log.GroupCommit
import Mathlib.Algebra.BigOperators.Ring.Finset

/-!
# Log space reservation

`begin_op` admits an operation when the logged blocks plus `MAXOPBLOCKS` for
every running operation, the new one included, fit in `LOGSIZE`.  With every
operation within its budget of `MAXOPBLOCKS` distinct blocks, that rule keeps
the logged blocks plus the space still reserved by running operations within
`LOGSIZE` (`spaceInv_of_reachable`), so an operation logging a block new to it
always finds `lh.n < LOGSIZE` (`lh_length_lt_logsize`).

It does not keep `lh.n < log.size - 1`, the other half of `log_write`'s check:
`mkfs` sets `nlog = LOGSIZE`, and the header takes one of those blocks, so the
log holds `LOGSIZE - 1` data blocks while `begin_op` hands out `LOGSIZE`.
`log_write_too_big_reachable` runs three operations admitted together to that
panic.
-/

namespace Xv6

open Transition

variable {n : Nat}

/-! ## The space each running operation still reserves -/

/-- The log space the current operation of `p` may still fill. -/
def reserved (s : LogSys n) (p : Fin n) : Nat :=
  if s.phase p = .inOp then MAXOPBLOCKS - (s.opBlocks p).length else 0

theorem sum_reserved_le (s : LogSys n) : ∑ p, reserved s p ≤ MAXOPBLOCKS * inOpCount s.phase := by
  unfold inOpCount
  rw [Finset.mul_sum]
  apply Finset.sum_le_sum
  intro p _
  unfold reserved
  split <;> simp

/-- The reservation invariant. -/
structure SpaceInv (s : LogSys n) : Prop extends LogInv s where
  /-- Logged blocks plus reserved space fit in `LOGSIZE`. -/
  space : s.log.lh.length + ∑ p, reserved s p ≤ LOGSIZE
  /-- What a running operation has logged is still in the log. -/
  opBlocks_logged : ∀ p, s.phase p = .inOp → ∀ b ∈ s.opBlocks p, b ∈ s.log.lh

theorem spaceInv_init (start size : Nat) : SpaceInv (LogSys.init (n := n) start size) where
  toLogInv := logInv_init start size
  space := by simp [LogSys.init, reserved]
  opBlocks_logged := by simp [LogSys.init]

/-- Reserved space after a step that changes only process `p`'s entries. -/
theorem sum_reserved_step (s s' : LogSys n) (p : Fin n)
    (h : ∀ q, q ≠ p → reserved s' q = reserved s q) :
    ∑ q, reserved s' q + reserved s p = ∑ q, reserved s q + reserved s' p :=
  Tally.sum_add_eq_of_eq_off p h

/-! ## Each call keeps the invariant -/

theorem spaceInv_beginOp {s s' : LogSys n} {p : Fin n} (hinv : SpaceInv s)
    (hp : s.phase p = .idle) (h : s.step (.beginOp p) = .ok s') : SpaceInv s' := by
  have hlogInv := logInv_beginOp hinv.toLogInv hp h
  rcases step_beginOp_eq_ok h with rfl | ⟨-, hroom, hlog, hphase, hops⟩
  · exact hinv
  -- the new operation reserves `MAXOPBLOCKS`, which `begin_op`'s test leaves room for
  have hsum := sum_reserved_step s s' p fun q hq => by
    simp [reserved, hphase, hops, Function.update_of_ne hq]
  have hold : reserved s p = 0 := by simp [reserved, hp]
  have hnew : reserved s' p = MAXOPBLOCKS := by simp [reserved, hphase, hops]
  have hle := sum_reserved_le s
  have hout := hinv.outstanding_eq
  refine ⟨hlogInv, ?_, fun q hq b hb => ?_⟩
  · rw [hlog]
    simp only [MAXOPBLOCKS, LOGSIZE] at hroom hle hnew ⊢
    rw [hout] at hroom
    push_cast at hroom
    omega
  · by_cases hqp : q = p
    · subst hqp
      simp [hops] at hb
    · rw [hphase, Function.update_of_ne hqp] at hq
      rw [hops, Function.update_of_ne hqp] at hb
      rw [hlog]
      exact hinv.opBlocks_logged q hq b hb

theorem spaceInv_logWrite {s s' : LogSys n} {p : Fin n} {blockno : Nat} (hinv : SpaceInv s)
    (hp : s.phase p = .inOp) (hbudget : (insertBlock blockno (s.opBlocks p)).length ≤ MAXOPBLOCKS)
    (h : s.step (.logWrite p blockno) = .ok s') : SpaceInv s' := by
  have hlogInv := logInv_logWrite hinv.toLogInv h
  obtain ⟨-, -, hlog, hphase, hops⟩ := step_logWrite_eq_ok h
  have hsum := sum_reserved_step s s' p fun q hq => by
    simp [reserved, hphase, hops, Function.update_of_ne hq]
  refine ⟨hlogInv, ?_, fun q hq b hb => ?_⟩
  · -- a block new to the operation moves one unit of its reserve into the log,
    -- or is absorbed; a block it logged before changes nothing
    have hspace := hinv.space
    rw [hlog]
    dsimp only
    by_cases hmine : blockno ∈ s.opBlocks p
    · have hin := hinv.opBlocks_logged p hp blockno hmine
      have hsame : reserved s' p = reserved s p := by
        simp [reserved, hphase, hops, hp, insertBlock, hmine]
      simp only [hin, if_true]
      omega
    · have hnew : (insertBlock blockno (s.opBlocks p)).length = (s.opBlocks p).length + 1 := by
        simp [insertBlock, hmine]
      have hdrop : reserved s' p + 1 = reserved s p := by
        simp only [reserved, hphase, hops, hp, Function.update_self, if_true, hnew]
        omega
      split
      · omega
      · rw [List.length_append, List.length_singleton]
        omega
  · rw [hphase] at hq
    rw [hlog]
    have hsub : ∀ c ∈ s.log.lh, c ∈ (if blockno ∈ s.log.lh then s.log.lh else s.log.lh ++ [blockno]) := by
      intro c hc
      split <;> simp [hc]
    by_cases hqp : q = p
    · subst hqp
      rw [hops, Function.update_self] at hb
      unfold insertBlock at hb
      split at hb
      · exact hsub b (hinv.opBlocks_logged q hq b hb)
      · rcases List.mem_cons.mp hb with rfl | hb
        · split <;> simp_all
        · exact hsub b (hinv.opBlocks_logged q hq b hb)
    · rw [hops, Function.update_of_ne hqp] at hb
      exact hsub b (hinv.opBlocks_logged q hq b hb)

theorem spaceInv_endOp {s s' : LogSys n} {p : Fin n} (hinv : SpaceInv s)
    (hp : s.phase p = .inOp) (h : s.step (.endOp p) = .ok s') : SpaceInv s' := by
  have hlogInv := logInv_endOp hinv.toLogInv hp h
  obtain ⟨-, hlh, hops, hrest⟩ := step_endOp_eq_ok h
  have hphase : ∃ a, a ≠ .inOp ∧ s'.phase = Function.update s.phase p a := by
    rcases hrest with ⟨-, -, hphase⟩ | ⟨-, -, hphase⟩
    · exact ⟨.committing, by simp, hphase⟩
    · exact ⟨.idle, by simp, hphase⟩
  obtain ⟨a, ha, hphase⟩ := hphase
  -- the leaving operation gives back what it still reserved
  have hsum := sum_reserved_step s s' p fun q hq => by
    simp [reserved, hphase, hops, Function.update_of_ne hq]
  have hzero : reserved s' p = 0 := by simp [reserved, hphase, ha]
  refine ⟨hlogInv, ?_, fun q hq b hb => ?_⟩
  · have := hinv.space
    rw [hlh]
    omega
  · have hqp : q ≠ p := fun hqp => by
      subst hqp
      simp [hphase, ha] at hq
    rw [hphase, Function.update_of_ne hqp] at hq
    rw [hops] at hb
    rw [hlh]
    exact hinv.opBlocks_logged q hq b hb

theorem spaceInv_endCommit {s s' : LogSys n} {p : Fin n} (hinv : SpaceInv s)
    (hp : s.phase p = .committing) (h : s.step (.endCommit p) = .ok s') : SpaceInv s' := by
  have hlogInv := logInv_endCommit hinv.toLogInv hp h
  obtain ⟨hlog, hphase, hops⟩ := step_endCommit_eq_ok h
  -- a commit runs alone, so no operation reserves anything and the log is emptied
  have hc : s.log.committing = true := hinv.committing_iff.mpr ⟨p, hp⟩
  have hnone : ∀ q, s'.phase q ≠ .inOp := by
    intro q
    rw [hphase]
    by_cases hqp : q = p
    · subst hqp
      simp
    · rw [Function.update_of_ne hqp]
      exact hinv.not_inOp_of_committing hc q
  refine ⟨hlogInv, ?_, fun q hq => absurd hq (hnone q)⟩
  have : ∑ q, reserved s' q = 0 := Finset.sum_eq_zero fun q _ => by simp [reserved, hnone q]
  rw [this, hlog]
  simp [endCommit]

theorem spaceInv_step {s s' : LogSys n} {e : LogEvent n} (hinv : SpaceInv s)
    (h : s.NextInBudget e s') : SpaceInv s' := by
  obtain ⟨⟨hallowed, hstep⟩, hbudget⟩ := h
  cases e with
  | beginOp p => exact spaceInv_beginOp hinv hallowed hstep
  | logWrite p blockno => exact spaceInv_logWrite hinv hallowed hbudget hstep
  | endOp p => exact spaceInv_endOp hinv hallowed hstep
  | endCommit p => exact spaceInv_endCommit hinv hallowed hstep

theorem spaceInv_of_reachable {start size : Nat} {s : LogSys n}
    (hs : Reachable (· = LogSys.init start size) LogSys.NextInBudget s) : SpaceInv s :=
  hs.invariant (fun _ h => h ▸ spaceInv_init start size) fun _ _ _ _ hinv h => spaceInv_step hinv h

/-- **Reservation.**  With every operation within its budget, an operation that
passes `log_write` a block it has not logged before finds fewer than `LOGSIZE`
blocks in the log. -/
theorem lh_length_lt_logsize {start size : Nat} {s : LogSys n}
    (hs : Reachable (· = LogSys.init start size) LogSys.NextInBudget s) {p : Fin n}
    {blockno : Nat} (hp : s.phase p = .inOp) (hnew : blockno ∉ s.opBlocks p)
    (hbudget : s.WithinBudget (.logWrite p blockno)) :
    s.log.lh.length < LOGSIZE := by
  have hinv := spaceInv_of_reachable hs
  have hlen : (s.opBlocks p).length + 1 ≤ MAXOPBLOCKS := by
    simpa [LogSys.WithinBudget, insertBlock, hnew] using hbudget
  have hmine : reserved s p ≤ ∑ q, reserved s q :=
    Finset.single_le_sum (f := reserved s) (fun _ _ => Nat.zero_le _) (Finset.mem_univ p)
  have hres : reserved s p = MAXOPBLOCKS - (s.opBlocks p).length := by simp [reserved, hp]
  have := hinv.space
  simp only [MAXOPBLOCKS, LOGSIZE] at hlen hres this ⊢
  omega

/-! ## `LOGSIZE` reserved for `LOGSIZE - 1` data blocks -/

/-- Three operations admitted together: `begin_op` lets all three in, since
`0 + 3 * MAXOPBLOCKS ≤ LOGSIZE`; the first two log ten distinct blocks each and
the third nine. -/
def tooBigTrace : List (LogEvent 3) :=
  [.beginOp 0, .beginOp 1, .beginOp 2] ++
    (List.range 10).map (fun i => .logWrite 0 (100 + i)) ++
    (List.range 10).map (fun i => .logWrite 1 (200 + i)) ++
    (List.range 9).map (fun i => .logWrite 2 (300 + i))

/-- With the log `mkfs` lays out, `nlog = LOGSIZE`, the third operation's tenth
distinct block reaches `log_write` with `lh.n = 29 = log.size - 1`, inside its
budget, and panics. -/
theorem log_write_too_big_reachable :
    ∃ s, Reachable (· = LogSys.init (n := 3) 2 LOGSIZE) LogSys.NextInBudget s ∧
      s.Allowed (.logWrite 2 309) ∧ s.WithinBudget (.logWrite 2 309) ∧
      s.step (.logWrite 2 309) = .error "too big a transaction" := by
  have hrun : (exec LogSys.nextInBudget? (LogSys.init (n := 3) 2 LOGSIZE) tooBigTrace).map
      (fun s => decide (s.Allowed (.logWrite 2 309)) && decide (s.WithinBudget (.logWrite 2 309)) &&
        decide (s.step (.logWrite 2 309) = .error "too big a transaction")) = some true := by
    decide
  cases hexec : exec LogSys.nextInBudget? (LogSys.init (n := 3) 2 LOGSIZE) tooBigTrace with
  | none => simp only [hexec, Option.map_none, reduceCtorEq] at hrun
  | some s =>
      simp only [hexec, Option.map_some, Option.some.injEq, Bool.and_eq_true,
        decide_eq_true_eq] at hrun
      have hinit : Reachable (· = LogSys.init (n := 3) 2 LOGSIZE) LogSys.NextInBudget
          (LogSys.init 2 LOGSIZE) := .init rfl
      have hsound : ∀ (t : LogSys 3) e t', t.nextInBudget? e = some t' → t.NextInBudget e t' :=
        fun _ _ _ h => nextInBudget?_sound h
      exact ⟨s, hinit.exec hsound hexec, hrun.1.1, hrun.1.2, hrun.2⟩

end Xv6
