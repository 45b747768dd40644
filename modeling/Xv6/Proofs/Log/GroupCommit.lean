import Xv6.Log.Protocol
import Xv6.Lib.Tally
import Mathlib.Algebra.Order.BigOperators.Group.Finset

/-!
# Group-commit isolation

`log_group_commit_isolation`: in every state reached by any interleaving of
`begin_op`, `log_write` and `end_op` under the calling discipline, a running
commit has no operation beside it (`committing = 1` implies
`outstanding = 0`), `outstanding` is never negative, and neither `end_op`'s
`log.committing` panic nor `log_write`'s `log_write outside of trans` panic can
be reached.

## Strategy

`LogInv` ties the counter to the processes: `outstanding` is the number of
processes inside an operation, `committing` is set exactly when one process,
and only one, is committing, and then no process is inside an operation.  It
holds initially and every allowed, non-panicking step keeps it
(`logInv_step`), one lemma per call.  The key case is `end_op`: a process
inside an operation makes the count positive, so no commit can be running when
it decrements the counter, and when the counter reaches zero the process that
sets `committing` is the only one left.  Each lemma reads the step through an
inversion lemma for the call (`beginOp_eq_some`, `endOp_eq_ok`,
`logWrite_eq_ok`), never through the code again.
-/

namespace Xv6

open Transition

variable {n : Nat}

/-! ## What each call does when it does not sleep or panic -/

theorem beginOp_eq_some {log log' : Log} (h : beginOp log = some log') :
    log.committing = false ∧
      (log.lh.length : Int) + (log.outstanding + 1) * MAXOPBLOCKS ≤ LOGSIZE ∧
      log' = { log with outstanding := log.outstanding + 1 } := by
  unfold beginOp at h
  split at h
  · cases h
  · split at h
    · cases h
    · next hc hspace =>
        cases h
        exact ⟨by simpa using hc, by omega, rfl⟩

theorem endOp_eq_ok {log : Log} {r : Log × Bool} (h : endOp log = .ok r) :
    log.committing = false ∧
      r = if log.outstanding - 1 = 0 then
        ({ log with outstanding := log.outstanding - 1, committing := true }, true)
      else ({ log with outstanding := log.outstanding - 1 }, false) := by
  unfold endOp at h
  dsimp only at h
  split at h
  · cases h
  · next hc =>
      refine ⟨by simpa using hc, ?_⟩
      split at h <;> cases h <;> simp_all

theorem logWrite_eq_ok {log log' : Log} {blockno : Nat} (h : logWrite log blockno = .ok log') :
    (log.lh.length : Int) < LOGSIZE ∧ (log.lh.length : Int) < (log.size : Int) - 1 ∧
      1 ≤ log.outstanding ∧
      log' = { log with lh := if blockno ∈ log.lh then log.lh else log.lh ++ [blockno] } := by
  unfold logWrite at h
  split at h
  · cases h
  · split at h
    · cases h
    · next hbig hout =>
        cases h
        exact ⟨by omega, by omega, by omega, rfl⟩

/-! ## Counting the processes inside an operation -/

/-- How many processes are between `begin_op` and `end_op`. -/
def inOpCount (phase : Fin n → OpPhase) : Nat :=
  ∑ p, if phase p = .inOp then 1 else 0

theorem inOpCount_update (phase : Fin n → OpPhase) (p : Fin n) (a : OpPhase) :
    inOpCount (Function.update phase p a) + (if phase p = .inOp then 1 else 0) =
      inOpCount phase + (if a = .inOp then 1 else 0) := by
  unfold inOpCount
  have := Tally.sum_add_eq_of_eq_off (F := fun q => if phase q = .inOp then 1 else 0)
    (G := fun q => if Function.update phase p a q = .inOp then 1 else 0) p
    (fun q hq => by simp [Function.update_of_ne hq])
  simpa using this

theorem one_le_inOpCount {phase : Fin n → OpPhase} {p : Fin n} (h : phase p = .inOp) :
    1 ≤ inOpCount phase := by
  unfold inOpCount
  calc 1 = (if phase p = .inOp then 1 else 0) := by simp [h]
    _ ≤ ∑ q, if phase q = .inOp then 1 else 0 :=
      Finset.single_le_sum (f := fun q => if phase q = .inOp then 1 else 0)
        (fun _ _ => Nat.zero_le _) (Finset.mem_univ p)

theorem ne_inOp_of_inOpCount_eq_zero {phase : Fin n → OpPhase} (h : inOpCount phase = 0)
    (p : Fin n) : phase p ≠ .inOp := fun hp => by
  have := one_le_inOpCount hp
  omega

/-! ## The invariant -/

/-- The protocol invariant of the log. -/
structure LogInv (s : LogSys n) : Prop where
  /-- `outstanding` counts the processes inside an operation. -/
  outstanding_eq : s.log.outstanding = inOpCount s.phase
  /-- `committing` is set exactly when some process is committing. -/
  committing_iff : s.log.committing = true ↔ ∃ p, s.phase p = .committing
  committer_unique : ∀ p q, s.phase p = .committing → s.phase q = .committing → p = q
  /-- A commit runs alone. -/
  not_inOp_of_committing : s.log.committing = true → ∀ p, s.phase p ≠ .inOp

theorem logInv_init (start size : Nat) : LogInv (LogSys.init (n := n) start size) where
  outstanding_eq := by simp [LogSys.init, inOpCount]
  committing_iff := by simp [LogSys.init]
  committer_unique := by simp [LogSys.init]
  not_inOp_of_committing := by simp [LogSys.init]

theorem LogInv.no_committer {s : LogSys n} (hinv : LogInv s) (hc : s.log.committing = false)
    (q : Fin n) : s.phase q ≠ .committing := fun hq => by
  have := hinv.committing_iff.mpr ⟨q, hq⟩
  simp [hc] at this

theorem LogInv.committing_eq_false {s : LogSys n} (hinv : LogInv s) {p : Fin n}
    (hp : s.phase p = .inOp) : s.log.committing = false := by
  cases hc : s.log.committing with
  | false => rfl
  | true => exact absurd hp (hinv.not_inOp_of_committing hc p)

theorem LogInv.one_le_outstanding {s : LogSys n} (hinv : LogInv s) {p : Fin n}
    (hp : s.phase p = .inOp) : 1 ≤ s.log.outstanding := by
  rw [hinv.outstanding_eq]
  exact_mod_cast one_le_inOpCount hp

theorem logWrite_eq_error {log : Log} {blockno : Nat} {msg : String}
    (h : logWrite log blockno = .error msg) :
    msg = "too big a transaction" ∨ (msg = "log_write outside of trans" ∧ log.outstanding < 1) := by
  unfold logWrite at h
  split at h
  · cases h
    exact .inl rfl
  · split at h
    · next hout =>
        cases h
        exact .inr ⟨rfl, by omega⟩
    · cases h

/-! ## What a step of the system does, call by call -/

theorem step_beginOp_eq_ok {s s' : LogSys n} {p : Fin n} (h : s.step (.beginOp p) = .ok s') :
    s' = s ∨
      (s.log.committing = false ∧
        (s.log.lh.length : Int) + (s.log.outstanding + 1) * MAXOPBLOCKS ≤ LOGSIZE ∧
        s'.log = { s.log with outstanding := s.log.outstanding + 1 } ∧
        s'.phase = Function.update s.phase p .inOp ∧
        s'.opBlocks = Function.update s.opBlocks p []) := by
  simp only [LogSys.step] at h
  split at h
  · -- `begin_op` sleeps: nothing changes
    cases h
    exact .inl rfl
  · next log hbegin =>
      obtain ⟨hc, hroom, rfl⟩ := beginOp_eq_some hbegin
      cases h
      exact .inr ⟨hc, hroom, rfl, rfl, rfl⟩

theorem step_logWrite_eq_ok {s s' : LogSys n} {p : Fin n} {blockno : Nat}
    (h : s.step (.logWrite p blockno) = .ok s') :
    (s.log.lh.length : Int) < LOGSIZE ∧ 1 ≤ s.log.outstanding ∧
      s'.log = { s.log with lh := if blockno ∈ s.log.lh then s.log.lh else s.log.lh ++ [blockno] } ∧
      s'.phase = s.phase ∧
      s'.opBlocks = Function.update s.opBlocks p (insertBlock blockno (s.opBlocks p)) := by
  simp only [LogSys.step] at h
  cases hw : logWrite s.log blockno with
  | error msg => simp [hw, Except.map] at h
  | ok log =>
      obtain ⟨hlt, -, hout, rfl⟩ := logWrite_eq_ok hw
      simp only [hw, Except.map, Except.ok.injEq] at h
      subst h
      exact ⟨hlt, hout, rfl, rfl, rfl⟩

/-- `end_op` without panic: either the last operation out starts the commit, or
the process just leaves. -/
theorem step_endOp_eq_ok {s s' : LogSys n} {p : Fin n} (h : s.step (.endOp p) = .ok s') :
    s.log.committing = false ∧ s'.log.lh = s.log.lh ∧ s'.opBlocks = s.opBlocks ∧
      ((s.log.outstanding - 1 = 0 ∧
          s'.log = { s.log with outstanding := s.log.outstanding - 1, committing := true } ∧
          s'.phase = Function.update s.phase p .committing) ∨
        (s.log.outstanding - 1 ≠ 0 ∧
          s'.log = { s.log with outstanding := s.log.outstanding - 1 } ∧
          s'.phase = Function.update s.phase p .idle)) := by
  simp only [LogSys.step] at h
  cases hend : endOp s.log with
  | error msg => simp [hend, Except.map] at h
  | ok r =>
      obtain ⟨hc, hr⟩ := endOp_eq_ok hend
      simp only [hend, Except.map, Except.ok.injEq] at h
      subst h
      split at hr
      · next hzero =>
          subst hr
          exact ⟨hc, rfl, rfl, .inl ⟨hzero, rfl, rfl⟩⟩
      · next hzero =>
          subst hr
          exact ⟨hc, rfl, rfl, .inr ⟨hzero, rfl, rfl⟩⟩

theorem step_endCommit_eq_ok {s s' : LogSys n} {p : Fin n} (h : s.step (.endCommit p) = .ok s') :
    s'.log = endCommit s.log ∧ s'.phase = Function.update s.phase p .idle ∧
      s'.opBlocks = s.opBlocks := by
  simp only [LogSys.step, Except.ok.injEq] at h
  subst h
  exact ⟨rfl, rfl, rfl⟩

/-! ## Each call keeps the invariant -/

/-- Moving a process to a phase other than `committing`, when no other process
is committing, leaves no committer. -/
theorem update_ne_committing {phase : Fin n → OpPhase} (p : Fin n) (a : OpPhase)
    (ha : a ≠ .committing) (hothers : ∀ q, q ≠ p → phase q ≠ .committing) (q : Fin n) :
    Function.update phase p a q ≠ .committing := by
  by_cases hq : q = p
  · subst hq
    simpa using ha
  · rw [Function.update_of_ne hq]
    exact hothers q hq

theorem logInv_beginOp {s s' : LogSys n} {p : Fin n} (hinv : LogInv s) (hp : s.phase p = .idle)
    (h : s.step (.beginOp p) = .ok s') : LogInv s' := by
  rcases step_beginOp_eq_ok h with rfl | ⟨hc, -, hlog, hphase, -⟩
  · exact hinv
  have hcount := inOpCount_update s.phase p .inOp
  simp only [hp, reduceCtorEq, if_false, if_true] at hcount
  have hnone := update_ne_committing p .inOp (by simp) (fun q _ => hinv.no_committer hc q)
  refine ⟨?_, ?_, fun q _ hq => absurd hq (hphase ▸ hnone q), fun hc' => ?_⟩
  · rw [hlog, hphase, hinv.outstanding_eq]
    push_cast
    omega
  · simpa [hlog, hphase, hc] using hnone
  · simp [hlog, hc] at hc'

theorem logInv_logWrite {s s' : LogSys n} {p : Fin n} {blockno : Nat} (hinv : LogInv s)
    (h : s.step (.logWrite p blockno) = .ok s') : LogInv s' := by
  obtain ⟨-, -, hlog, hphase, -⟩ := step_logWrite_eq_ok h
  have hout : s'.log.outstanding = s.log.outstanding := by rw [hlog]
  have hc : s'.log.committing = s.log.committing := by rw [hlog]
  exact ⟨hout ▸ hphase ▸ hinv.outstanding_eq, hc ▸ hphase ▸ hinv.committing_iff,
    hphase ▸ hinv.committer_unique, hc ▸ hphase ▸ hinv.not_inOp_of_committing⟩

theorem logInv_endOp {s s' : LogSys n} {p : Fin n} (hinv : LogInv s) (hp : s.phase p = .inOp)
    (h : s.step (.endOp p) = .ok s') : LogInv s' := by
  obtain ⟨hc, -, -, ⟨hzero, hlog, hphase⟩ | ⟨hzero, hlog, hphase⟩⟩ := step_endOp_eq_ok h
  · -- the last operation out commits: it is the only committer and nobody else is inside
    have hcount := inOpCount_update s.phase p .committing
    simp only [hp, reduceCtorEq, if_false, if_true] at hcount
    have hempty : inOpCount s'.phase = 0 := by
      have := hinv.outstanding_eq
      rw [hphase]
      omega
    have hothers : ∀ q, q ≠ p → s'.phase q ≠ .committing := fun q hq => by
      rw [hphase, Function.update_of_ne hq]
      exact hinv.no_committer hc q
    refine ⟨?_, ?_, fun q r hq hr => ?_, fun _ => ne_inOp_of_inOpCount_eq_zero hempty⟩
    · rw [hempty, hlog, hzero, Nat.cast_zero]
    · simp only [hlog, true_iff]
      exact ⟨p, by simp [hphase]⟩
    · by_cases hqp : q = p
      · by_cases hrp : r = p
        · rw [hqp, hrp]
        · exact absurd hr (hothers r hrp)
      · exact absurd hq (hothers q hqp)
  · -- other operations are still running: this one just leaves
    have hcount := inOpCount_update s.phase p .idle
    simp only [hp, reduceCtorEq, if_false, if_true] at hcount
    have hnone := update_ne_committing p .idle (by simp) (fun q _ => hinv.no_committer hc q)
    refine ⟨?_, ?_, fun q _ hq => absurd hq (hphase ▸ hnone q), fun hc' => ?_⟩
    · have := hinv.outstanding_eq
      rw [hlog, hphase]
      simp only
      omega
    · simpa [hlog, hphase, hc] using hnone
    · simp [hlog, hc] at hc'

theorem logInv_endCommit {s s' : LogSys n} {p : Fin n} (hinv : LogInv s)
    (hp : s.phase p = .committing) (h : s.step (.endCommit p) = .ok s') : LogInv s' := by
  obtain ⟨hlog, hphase, -⟩ := step_endCommit_eq_ok h
  have hcount := inOpCount_update s.phase p .idle
  simp only [hp, reduceCtorEq, if_false] at hcount
  have hnone := update_ne_committing p .idle (by simp)
    (fun q hq hq' => hq (hinv.committer_unique q p hq' hp))
  refine ⟨?_, ?_, fun q _ hq => absurd hq (hphase ▸ hnone q), fun hc' => ?_⟩
  · have := hinv.outstanding_eq
    rw [hlog, hphase]
    simp only [endCommit]
    omega
  · simpa [hlog, hphase, endCommit] using hnone
  · simp [hlog, endCommit] at hc'

/-- Every allowed step that does not panic keeps the invariant. -/
theorem logInv_step {s s' : LogSys n} {e : LogEvent n} (hinv : LogInv s) (h : s.Next e s') :
    LogInv s' := by
  obtain ⟨hallowed, hstep⟩ := h
  cases e with
  | beginOp p => exact logInv_beginOp hinv hallowed hstep
  | logWrite p blockno => exact logInv_logWrite hinv hstep
  | endOp p => exact logInv_endOp hinv hallowed hstep
  | endCommit p => exact logInv_endCommit hinv hallowed hstep

theorem logInv_of_reachable {start size : Nat} {s : LogSys n}
    (hs : Reachable (· = LogSys.init start size) LogSys.Next s) : LogInv s :=
  hs.invariant (fun _ h => h ▸ logInv_init start size) fun _ _ _ _ hinv h => logInv_step hinv h

/-! ## No panic of the protocol is reachable -/

/-- Under the invariant, no allowed call reaches `end_op`'s or `log_write`'s
protocol panic. -/
theorem step_ne_protocol_panic {s : LogSys n} (hinv : LogInv s) {e : LogEvent n}
    (he : s.Allowed e) :
    s.step e ≠ .error "log.committing" ∧ s.step e ≠ .error "log_write outside of trans" := by
  cases e with
  | beginOp p =>
      simp only [LogSys.step]
      split <;> simp
  | logWrite p blockno =>
      have hout := hinv.one_le_outstanding he
      simp only [LogSys.step]
      cases hw : logWrite s.log blockno with
      | ok log => simp [Except.map]
      | error msg =>
          rcases logWrite_eq_error hw with rfl | ⟨-, hlt⟩
          · simp [Except.map]
          · omega
  | endOp p =>
      have hc := hinv.committing_eq_false he
      simp only [LogSys.step]
      cases hend : endOp s.log with
      | ok r => simp [Except.map]
      | error msg =>
          unfold endOp at hend
          simp [hc] at hend
          split at hend <;> cases hend
  | endCommit p => simp [LogSys.step]

/-- `nextInBudget?` finds only allowed steps within the budget. -/
theorem nextInBudget?_sound {s s' : LogSys n} {e : LogEvent n} (h : s.nextInBudget? e = some s') :
    s.NextInBudget e s' := by
  unfold LogSys.nextInBudget? at h
  split at h
  · next hok =>
      cases hstep : s.step e with
      | error msg => simp [hstep, Except.toOption] at h
      | ok t =>
          simp only [hstep, Except.toOption, Option.some.injEq] at h
          subst h
          exact ⟨⟨hok.1, hstep⟩, hok.2⟩
  · cases h

/-- **Group-commit isolation.**  In every state reached by any interleaving of
`begin_op`, `log_write` and `end_op` under the calling discipline: a running
commit has no operation beside it, `outstanding` is not negative, and no
allowed call reaches the `log.committing` or `log_write outside of trans`
panic. -/
theorem log_group_commit_isolation {start size : Nat} {s : LogSys n}
    (hs : Reachable (· = LogSys.init start size) LogSys.Next s) :
    (s.log.committing = true → s.log.outstanding = 0 ∧ ∀ p, s.phase p ≠ .inOp) ∧
      0 ≤ s.log.outstanding ∧
      ∀ e, s.Allowed e →
        s.step e ≠ .error "log.committing" ∧ s.step e ≠ .error "log_write outside of trans" := by
  have hinv := logInv_of_reachable hs
  refine ⟨fun hc => ⟨?_, hinv.not_inOp_of_committing hc⟩, ?_, fun e he => step_ne_protocol_panic hinv he⟩
  · rw [hinv.outstanding_eq]
    unfold inOpCount
    simp [hinv.not_inOp_of_committing hc]
  · rw [hinv.outstanding_eq]
    exact Int.natCast_nonneg _

/-- Two operations inside a transaction: process 0 has logged block 5 and
process 1 has just begun, so `outstanding` is 2 and the header lists block 5. -/
theorem log_group_commit_isolation_twoOps :
    ∃ s : LogSys 2, Reachable (· = LogSys.init 2 30) LogSys.Next s ∧
      (s.log.outstanding = 2 ∧ s.log.lh = [5]) ∧
      (s.log.committing = true → s.log.outstanding = 0 ∧ ∀ p, s.phase p ≠ .inOp) ∧
      0 ≤ s.log.outstanding ∧
      ∀ e, s.Allowed e →
        s.step e ≠ .error "log.committing" ∧ s.step e ≠ .error "log_write outside of trans" := by
  have hrun : (exec LogSys.nextInBudget? (LogSys.init (n := 2) 2 30)
      [.beginOp 0, .logWrite 0 5, .beginOp 1]).map
      (fun s => decide (s.log.outstanding = 2 ∧ s.log.lh = [5])) = some true := by
    decide
  have hsound : ∀ (s : LogSys 2) e s', s.nextInBudget? e = some s' → s.Next e s' :=
    fun _ _ _ h => (nextInBudget?_sound h).1
  obtain ⟨s, hs, hp⟩ := Reachable.exists_of_exec_decide hsound hrun
  exact ⟨s, hs, hp, log_group_commit_isolation hs⟩

end Xv6
