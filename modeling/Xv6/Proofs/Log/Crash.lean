import Xv6.Log.Commit
import Mathlib.Data.List.GetD
import Mathlib.Data.List.Nodup

/-!
# Crash atomicity of the write-ahead log

`commit_crash_atomic`: crash the machine after any prefix of the block writes of
`commit`, then after any prefix of any number of `recover_from_log` runs, then
let one recovery complete.  Every block outside the log then holds its contents
from before the commit, for all logged blocks at once, or the transaction's new
contents, for all of them at once; and the header on disk is empty.

## Strategy

Three predicates on the disk, relative to the disk `d₀` before the commit:

* `Clean`: the header is empty and nothing outside the log has changed;
* `Committed`: the header lists the transaction, each of its log blocks holds
  the new contents, and outside the log only its home blocks may have changed;
* `Installed`: the header is empty and every block outside the log holds its
  new contents.

Their union `Phase` holds at every crash point of `commit`
(`commit_crash_phase`) and is kept by every crash point of a recovery
(`recover_crash_phase`), because `write_head` is the only write that moves
from one predicate to another and `install_trans` copies the same log blocks to
the same homes however often it is restarted.  A recovery that runs to the end
leaves `Clean` or `Installed` (`recover_run_phase`).
-/

namespace Xv6

open WriteSeq

variable {start size : Nat}

/-! ## The three phases -/

/-- Before the commit point: an empty header, and nothing outside the log changed. -/
def Clean (start size : Nat) (d₀ d : Disk) : Prop :=
  headN (d start) = 0 ∧ ∀ b, OutsideLog start size b → d b = d₀ b

/-- Log block `i` holds the new contents of the `i`-th logged block, for every
`i` below `j`. -/
def Logged (t : Txn start size) (cache : Nat → Block) (j : Nat) (d : Disk) : Prop :=
  ∀ i < j, d (start + i + 1) = cache (t.block.getD i 0)

/-- After the commit point: the header lists the transaction, the log holds it,
and outside the log only its home blocks may differ from before. -/
def Committed (t : Txn start size) (cache : Nat → Block) (d₀ d : Disk) : Prop :=
  readHead (d start) = t.block ∧ Logged t cache t.block.length d ∧
    ∀ b, OutsideLog start size b → b ∉ t.block → d b = d₀ b

/-- After the log is cleared: an empty header, and the new contents everywhere
outside the log. -/
def Installed (t : Txn start size) (cache : Nat → Block) (d₀ d : Disk) : Prop :=
  headN (d start) = 0 ∧ ∀ b, OutsideLog start size b → d b = t.installed cache d₀ b

/-- The disk a crash may leave, at any point of commit or recovery. -/
def Phase (t : Txn start size) (cache : Nat → Block) (d₀ d : Disk) : Prop :=
  Clean start size d₀ d ∨ Committed t cache d₀ d ∨ Installed t cache d₀ d

/-! ## Where the writes land -/

namespace Txn

variable (t : Txn start size)

theorem getD_mem {i : Nat} (hi : i < t.block.length) : t.block.getD i 0 ∈ t.block := by
  rw [List.getD_eq_getElem _ _ hi]
  exact List.getElem_mem hi

theorem ne_start_of_outside (t : Txn start size) {b : Nat} (hb : OutsideLog start size b) :
    b ≠ start := by
  have := t.fits
  unfold OutsideLog at hb
  omega

/-- Log block `i` of the transaction lies inside the log, after the header. -/
theorem logBlock_not_outside (t : Txn start size) {i : Nat} (hi : i < t.block.length) :
    ¬ OutsideLog start size (start + i + 1) := by
  have := t.fits
  unfold OutsideLog
  omega

theorem home_ne_logBlock {i j : Nat} (hi : i < t.block.length) (hj : j < t.block.length) :
    t.block.getD j 0 ≠ start + i + 1 := by
  intro h
  exact t.logBlock_not_outside hi (h ▸ t.home _ (t.getD_mem hj))

theorem getD_injective {i j : Nat} (hi : i < t.block.length) (hj : j < t.block.length)
    (h : t.block.getD i 0 = t.block.getD j 0) : i = j := by
  rw [List.getD_eq_getElem _ _ hi, List.getD_eq_getElem _ _ hj] at h
  exact (List.Nodup.getElem_inj_iff t.nodup).mp h

end Txn

variable (t : Txn start size) (cache : Nat → Block) (d₀ : Disk)

/-! ## `write_log` -/

/-- Each prefix of `write_log` keeps the disk `Clean` and has logged the blocks
it has copied. -/
theorem writeLog_upTo {d : Disk} (hd : Clean start size d₀ d) :
    ∀ j ≤ t.block.length, Clean start size d₀ (run (loop j (writeLogStep start cache t.block)) d) ∧
      Logged t cache j (run (loop j (writeLogStep start cache t.block)) d) := by
  apply run_loop_induction (P := fun j s => Clean start size d₀ s ∧ Logged t cache j s)
  · exact ⟨hd, fun i hi => absurd hi (Nat.not_lt_zero i)⟩
  · rintro j s hj ⟨⟨hhead, hout⟩, hlog⟩
    refine ⟨⟨?_, fun b hb => ?_⟩, fun i hi => ?_⟩
    · rw [Write.apply_apply, if_neg (by simp only [writeLogStep]; omega), hhead]
    · have hne : b ≠ start + j + 1 := fun h => t.logBlock_not_outside hj (h ▸ hb)
      rw [Write.apply_apply, if_neg (by simpa [writeLogStep] using hne), hout b hb]
    · rw [Write.apply_apply]
      by_cases hij : i = j
      · subst hij
        simp [writeLogStep]
      · rw [if_neg (by simp [writeLogStep]; omega), hlog i (by omega)]

/-- The commit point: `write_head` of the transaction over a clean disk whose log
holds it. -/
theorem writeHead_committed {d : Disk} (hd : Clean start size d₀ d)
    (hlog : Logged t cache t.block.length d) :
    Committed t cache d₀ ((writeHead start t.block).apply d) := by
  refine ⟨?_, fun i hi => ?_, fun b hb _ => ?_⟩
  · simp only [Write.apply_apply, writeHead, if_true]
    exact readHead_headBlock _ _ t.le_logsize t.word
  · rw [Write.apply_apply, if_neg (by simp only [writeHead]; omega), hlog i hi]
  · rw [Write.apply_apply, if_neg (by simpa [writeHead] using t.ne_start_of_outside hb),
      hd.2 b hb]

/-! ## `install_trans` and the clearing `write_head` -/

/-- The `i`-th logged block has reached its home, for every `i` below `j`. -/
def InstalledUpTo (j : Nat) (d : Disk) : Prop :=
  ∀ i < j, d (t.block.getD i 0) = cache (t.block.getD i 0)

/-- Each prefix of `install_trans` keeps the disk `Committed`, and has installed
the blocks it has copied. -/
theorem install_upTo {d : Disk} (hd : Committed t cache d₀ d) :
    ∀ j ≤ t.block.length, Committed t cache d₀ (run (loop j (installStep start t.block)) d) ∧
      InstalledUpTo t cache j (run (loop j (installStep start t.block)) d) := by
  apply run_loop_induction (P := fun j s => Committed t cache d₀ s ∧ InstalledUpTo t cache j s)
  · exact ⟨hd, fun i hi => absurd hi (Nat.not_lt_zero i)⟩
  · rintro j s hj ⟨⟨hhead, hlog, hout⟩, hinst⟩
    have hhome := t.home _ (t.getD_mem hj)
    refine ⟨⟨?_, fun i hi => ?_, fun b hb hnot => ?_⟩, fun i hi => ?_⟩
    · rw [Write.apply_apply, if_neg (by simpa [installStep] using (t.ne_start_of_outside hhome).symm),
        hhead]
    · rw [Write.apply_apply, if_neg (by simpa [installStep] using (t.home_ne_logBlock hi hj).symm),
        hlog i hi]
    · have hne : b ≠ t.block.getD j 0 := fun h => hnot (h ▸ t.getD_mem hj)
      rw [Write.apply_apply, if_neg (by simpa [installStep] using hne), hout b hb hnot]
    · rw [Write.apply_apply]
      by_cases hij : i = j
      · subst hij
        simp [installStep, hlog i hj]
      · have hne : t.block.getD i 0 ≠ t.block.getD j 0 :=
          fun h => hij (t.getD_injective (by omega) hj h)
        rw [if_neg (by simpa [installStep] using hne), hinst i (by omega)]

/-- The clearing `write_head` after a complete `install_trans`. -/
theorem clear_installed {d : Disk} (hd : Committed t cache d₀ d)
    (hinst : InstalledUpTo t cache t.block.length d) :
    Installed t cache d₀ ((writeHead start []).apply d) := by
  refine ⟨?_, fun b hb => ?_⟩
  · simp only [Write.apply_apply, writeHead, if_true]
    exact headN_headBlock_nil _
  · rw [Write.apply_apply, if_neg (by simpa [writeHead] using t.ne_start_of_outside hb)]
    unfold Txn.installed
    split
    · next hmem =>
        obtain ⟨i, hi, rfl⟩ := List.mem_iff_getElem.mp hmem
        have := hinst i hi
        rwa [List.getD_eq_getElem _ _ hi] at this
    · next hnot => exact hd.2.2 b hb hnot

theorem clear_clean (t : Txn start size) {d : Disk} (hd : Clean start size d₀ d) :
    Clean start size d₀ ((writeHead start []).apply d) := by
  refine ⟨?_, fun b hb => ?_⟩
  · simp only [Write.apply_apply, writeHead, if_true]
    exact headN_headBlock_nil _
  · rw [Write.apply_apply, if_neg (by simpa [writeHead] using t.ne_start_of_outside hb), hd.2 b hb]

theorem clear_installed_of_installed {d : Disk} (hd : Installed t cache d₀ d) :
    Installed t cache d₀ ((writeHead start []).apply d) := by
  refine ⟨?_, fun b hb => ?_⟩
  · simp only [Write.apply_apply, writeHead, if_true]
    exact headN_headBlock_nil _
  · rw [Write.apply_apply, if_neg (by simpa [writeHead] using t.ne_start_of_outside hb), hd.2 b hb]

/-! ## The end of a commit, which is also a recovery of a committed log -/

/-- Every crash point of `install_trans` followed by the clearing `write_head`,
started on a committed disk. -/
theorem installAndClear_crash {d : Disk} (hd : Committed t cache d₀ d) (k : Nat) :
    Phase t cache d₀ (crash (installTrans start t.block ++ [writeHead start []]) k d) := by
  have hrun := install_upTo t cache d₀ hd _ le_rfl
  rcases crash_append_cases (installTrans start t.block) _ k d with h | ⟨j, h⟩ <;> rw [h]
  · rw [installTrans, crash_loop]
    exact .inr (.inl (install_upTo t cache d₀ hd _ (min_le_right _ _)).1)
  · rw [installTrans]
    rcases crash_singleton (writeHead start []) j _ with h' | h' <;> rw [h']
    · exact .inr (.inl hrun.1)
    · exact .inr (.inr (clear_installed t cache d₀ hrun.1 hrun.2))

theorem installAndClear_run {d : Disk} (hd : Committed t cache d₀ d) :
    Installed t cache d₀ (run (installTrans start t.block ++ [writeHead start []]) d) := by
  have hrun := install_upTo t cache d₀ hd _ le_rfl
  rw [run_append, installTrans, run_cons, run_nil]
  exact clear_installed t cache d₀ hrun.1 hrun.2

/-! ## Crashes during `commit` -/

/-- Every crash point of `commit`, started from a disk whose log is clear. -/
theorem commit_crash_phase (hclean : headN (d₀ start) = 0) (k : Nat) :
    Phase t cache d₀ (crash (commit start cache t.block) k d₀) := by
  have h₀ : Clean start size d₀ d₀ := ⟨hclean, fun _ _ => rfl⟩
  have hlogged := writeLog_upTo t cache d₀ h₀ _ le_rfl
  have hcommitted := writeHead_committed t cache d₀ hlogged.1 hlogged.2
  unfold commit
  split
  · -- split `commit` at its commit point
    rw [List.append_assoc]
    rcases crash_append_cases (writeLog start cache t.block ++ [writeHead start t.block]) _ k d₀
      with h | ⟨j, h⟩ <;> rw [h]
    · rcases crash_append_cases (writeLog start cache t.block) _ k d₀ with h' | ⟨j, h'⟩ <;> rw [h']
      · rw [writeLog, crash_loop]
        exact .inl (writeLog_upTo t cache d₀ h₀ _ (min_le_right _ _)).1
      · rcases crash_singleton (writeHead start t.block) j _ with h'' | h'' <;> rw [h'']
        · exact .inl hlogged.1
        · exact .inr (.inl hcommitted)
    · rw [run_append, run_cons, run_nil]
      exact installAndClear_crash t cache d₀ hcommitted j
  · exact .inl (by rw [crash, List.take_nil, run_nil]; exact h₀)

/-! ## Crashes during recovery -/

theorem recoverFromLog_of_headN_eq_zero {d : Disk} (h : headN (d start) = 0) :
    recoverFromLog start d = [writeHead start []] := by
  simp [recoverFromLog, readHead_of_headN_eq_zero h, installTrans, loop]

/-- A crash during recovery leaves a disk a crash may leave. -/
theorem recover_crash_phase {d : Disk} (hd : Phase t cache d₀ d) (k : Nat) :
    Phase t cache d₀ (crash (recoverFromLog start d) k d) := by
  rcases hd with hc | hc | hc
  · rw [recoverFromLog_of_headN_eq_zero hc.1]
    rcases crash_singleton (writeHead start []) k d with h | h <;> rw [h]
    · exact .inl hc
    · exact .inl (clear_clean d₀ t hc)
  · rw [recoverFromLog, hc.1]
    exact installAndClear_crash t cache d₀ hc k
  · rw [recoverFromLog_of_headN_eq_zero hc.1]
    rcases crash_singleton (writeHead start []) k d with h | h <;> rw [h]
    · exact .inr (.inr hc)
    · exact .inr (.inr (clear_installed_of_installed t cache d₀ hc))

/-- A recovery that runs to its end leaves the old contents or the new ones. -/
theorem recover_run_phase {d : Disk} (hd : Phase t cache d₀ d) :
    Clean start size d₀ (run (recoverFromLog start d) d) ∨
      Installed t cache d₀ (run (recoverFromLog start d) d) := by
  rcases hd with hc | hc | hc
  · rw [recoverFromLog_of_headN_eq_zero hc.1, run_cons, run_nil]
    exact .inl (clear_clean d₀ t hc)
  · rw [recoverFromLog, hc.1]
    exact .inr (installAndClear_run t cache d₀ hc)
  · rw [recoverFromLog_of_headN_eq_zero hc.1, run_cons, run_nil]
    exact .inr (clear_installed_of_installed t cache d₀ hc)

theorem crashedRecoveries_phase {d : Disk} (hd : Phase t cache d₀ d) (ks : List Nat) :
    Phase t cache d₀ (crashedRecoveries start ks d) := by
  induction ks generalizing d with
  | nil => exact hd
  | cons k ks ih => exact ih (recover_crash_phase t cache d₀ hd k)

/-! ## Atomicity -/

/-- **Crash atomicity.**  Crash after any prefix `k` of the writes of `commit`,
then during any number of recoveries, each cut after its own prefix, then let a
recovery finish: the header is empty, and outside the log either every block
holds its contents from before the commit or every block holds the
transaction's. -/
theorem commit_crash_atomic (hclean : headN (d₀ start) = 0) (k : Nat) (ks : List Nat) :
    let d := crashedRecoveries start ks (crash (commit start cache t.block) k d₀)
    let d' := run (recoverFromLog start d) d
    headN (d' start) = 0 ∧
      ((∀ b, OutsideLog start size b → d' b = d₀ b) ∨
        ∀ b, OutsideLog start size b → d' b = t.installed cache d₀ b) := by
  intro d d'
  have hphase := crashedRecoveries_phase t cache d₀ (commit_crash_phase t cache d₀ hclean k) ks
  rcases recover_run_phase t cache d₀ hphase with h | h
  · exact ⟨h.1, .inl h.2⟩
  · exact ⟨h.1, .inr h.2⟩

/-- A transaction of one block, block `40`, with the log at blocks `[2, 32)`. -/
def sampleTxn : Txn 2 30 where
  block := [40]
  nodup := by decide
  home := by simp [OutsideLog]
  word := by decide
  fits := by decide
  le_logsize := by decide

theorem commit_crash_atomic_sample :
    headN ((fun _ _ => 0 : Disk) 2) = 0 ∧
      let d := crashedRecoveries 2 [5, 0, 1]
        (crash (commit 2 (fun _ _ => 1) sampleTxn.block) 3 (fun _ _ => 0))
      let d' := run (recoverFromLog 2 d) d
      headN (d' 2) = 0 ∧
        ((∀ b, OutsideLog 2 30 b → d' b = (fun _ _ => 0 : Disk) b) ∨
          ∀ b, OutsideLog 2 30 b → d' b = sampleTxn.installed (fun _ _ => 1) (fun _ _ => 0) b) :=
  ⟨by decide, commit_crash_atomic sampleTxn (fun _ _ => 1) (fun _ _ => 0) (by decide) 3 [5, 0, 1]⟩

end Xv6
