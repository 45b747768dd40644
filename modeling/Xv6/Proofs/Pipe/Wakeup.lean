import Xv6.Pipe.Wakeup

/-!
# Wakeups on a pipe

A process asleep on `&pi->nwrite` is a writer waiting for room, and a process
asleep on `&pi->nread` a reader waiting for bytes.  A wakeup is lost when a
process stays asleep although what it waits for has happened.

For writers no wakeup is lost: in every reachable state, whoever sleeps on
`&pi->nwrite` finds the pipe full and its read end open
(`writersWait_of_reachable`).  For readers one is: `pipewrite` returns `-1`
when its process has been killed without the `wakeup(&pi->nread)` of its other
exits, so a reader can sleep on a pipe holding the bytes the killed writer
stored before the kill (`killed_writer_loses_wakeup`).

## Strategy

`SleepersLe s' s` says that every sleeper of `s'` slept in `s` on the same
channel.  `wakeup`, `ret`, `kill`, the entry into a call and the return from
`sleep` all give it, so across them the writers' invariant needs only the pipe
to be unchanged.  The two steps that change the pipe are a byte stored by a
writer, which happens only when the pipe is not full and therefore when no
writer sleeps, and the copy loop of a reader, which ends with
`wakeup(&pi->nwrite)`, after which no writer sleeps.
-/

namespace Xv6.PipeSleep

open Transition Tables

namespace PipeSys

variable {np : Nat} {s s' : PipeSys np} {p q : Fin np} {c : Chan}

/-! ## Updates of the processes -/

@[simp] theorem setProc_pipe (s : PipeSys np) (p : Fin np) (cl : Caller) :
    (s.setProc p cl).pipe = s.pipe := rfl

theorem setProc_proc (s : PipeSys np) (p q : Fin np) (cl : Caller) :
    (s.setProc p cl).proc q = if q = p then cl else s.proc q := by
  simp [setProc, Function.update_apply]

@[simp] theorem wakeup_pipe (s : PipeSys np) (c : Chan) : (s.wakeup c).pipe = s.pipe := rfl

@[simp] theorem wakeup_lock (s : PipeSys np) (c : Chan) : (s.wakeup c).lock = s.lock := rfl

/-- Every process asleep in `s'` was asleep in `s`, on the same channel. -/
def SleepersLe (s' s : PipeSys np) : Prop :=
  ∀ q, (s'.proc q).state = .sleeping →
    (s.proc q).state = .sleeping ∧ (s'.proc q).chan = (s.proc q).chan

theorem SleepersLe.refl (s : PipeSys np) : SleepersLe s s := fun _ h => ⟨h, rfl⟩

theorem SleepersLe.trans {s'' : PipeSys np} (h₁ : SleepersLe s'' s') (h₂ : SleepersLe s' s) :
    SleepersLe s'' s := by
  intro q hq
  obtain ⟨hq', hc'⟩ := h₁ q hq
  obtain ⟨hq'', hc''⟩ := h₂ q hq'
  exact ⟨hq'', hc'.trans hc''⟩

/-- Changing one process's record keeps the sleepers when the new record is
asleep only where the old one was, on the same channel. -/
theorem sleepersLe_setProc (s : PipeSys np) (p : Fin np) {cl : Caller}
    (h : cl.state = .sleeping → (s.proc p).state = .sleeping ∧ cl.chan = (s.proc p).chan) :
    SleepersLe (s.setProc p cl) s := by
  intro q hq
  rw [setProc_proc] at hq ⊢
  by_cases hqp : q = p
  · subst hqp
    rw [if_pos rfl] at hq ⊢
    exact h hq
  · rw [if_neg hqp] at hq ⊢
    exact ⟨hq, rfl⟩

theorem sleepersLe_wakeup (s : PipeSys np) (c : Chan) : SleepersLe (s.wakeup c) s := by
  intro q hq
  by_cases hw : (s.proc q).state = .sleeping ∧ (s.proc q).chan = some c
  · simp [wakeup, hw] at hq
  · have hsame : (s.wakeup c).proc q = s.proc q := by simp only [wakeup, if_neg hw]
    rw [hsame] at hq ⊢
    exact ⟨hq, rfl⟩

/-- After `wakeup(chan)` no process sleeps on `chan`. -/
theorem chan_ne_of_wakeup (hq : ((s.wakeup c).proc q).state = .sleeping) :
    ((s.wakeup c).proc q).chan ≠ some c := by
  by_cases hw : (s.proc q).state = .sleeping ∧ (s.proc q).chan = some c
  · simp [wakeup, hw] at hq
  · have hsame : (s.wakeup c).proc q = s.proc q := by simp only [wakeup, if_neg hw]
    rw [hsame] at hq ⊢
    exact fun hc => hw ⟨hq, hc⟩

theorem sleepersLe_ret (s : PipeSys np) (p : Fin np) (r : Int) : SleepersLe (s.ret p r) s :=
  sleepersLe_setProc s p fun h => ⟨h, rfl⟩

theorem sleepersLe_kill (s : PipeSys np) (p : Fin np) : SleepersLe (s.kill p) s := by
  apply sleepersLe_setProc
  intro h
  by_cases hs : (s.proc p).state = .sleeping
  · simp [hs] at h
  · simp only [if_neg hs] at h
    exact absurd h hs

theorem sleepersLe_enter (s : PipeSys np) (p : Fin np) (cl : Call) :
    SleepersLe (s.enter p cl) s :=
  sleepersLe_setProc s p fun h => ⟨h, rfl⟩

/-! ## What each event does -/

theorem next_write {mem : Blocks.UserMem} {addr : Nat} {n : Int}
    (h : s.Next (.write p mem addr n) s') : s.canEnter p ∧ s' = s.enter p (.write mem addr n 0) := by
  simp only [Next, PipeSys.step] at h
  split_ifs at h with hc
  exact ⟨hc, (Option.some.inj h).symm⟩

theorem next_read {vm : UserVm} {addr : Nat} {n : Int} (h : s.Next (.read p vm addr n) s') :
    s.canEnter p ∧ s' = s.enter p (.read vm addr n) := by
  simp only [Next, PipeSys.step] at h
  split_ifs at h with hc
  exact ⟨hc, (Option.some.inj h).symm⟩

/-- Only the lock holder runs, and it goes on with the call it is in. -/
theorem next_run (h : s.Next (.run p) s') :
    s.lock = some p ∧
      ((∃ mem addr n i, (s.proc p).call = .write mem addr n i ∧ s' = s.writeRound p mem addr n i) ∨
        ∃ vm addr n, (s.proc p).call = .read vm addr n ∧ s' = s.readRound p vm addr n) := by
  simp only [Next, PipeSys.step] at h
  split_ifs at h with hl
  refine ⟨hl, ?_⟩
  split at h
  · rename_i mem addr n i hcall
    exact .inl ⟨mem, addr, n, i, hcall, (Option.some.inj h).symm⟩
  · rename_i vm addr n hcall
    exact .inr ⟨vm, addr, n, hcall, (Option.some.inj h).symm⟩
  · cases h

theorem next_resume (h : s.Next (.resume p) s') :
    (s.lock = none ∧ (s.proc p).state = .runnable ∧ (s.proc p).call.isNone = false) ∧
      s' = { s.setProc p { s.proc p with state := .running, chan := none } with lock := some p } := by
  simp only [Next, PipeSys.step] at h
  split_ifs at h with hr
  exact ⟨hr, (Option.some.inj h).symm⟩

theorem next_kill (h : s.Next (.kill p) s') : s' = s.kill p :=
  (Option.some.inj h).symm

theorem next_close {writable : Bool} (h : s.Next (.close writable) s') :
    s.lock = none ∧ s' = s.close writable := by
  simp only [Next, PipeSys.step] at h
  split_ifs at h with hl
  exact ⟨hl, (Option.some.inj h).symm⟩

/-! ## Writers wait only for room -/

/-- A process asleep on `&pi->nwrite` waits for room: the pipe is full and its
read end is open. -/
def WritersWait (s : PipeSys np) : Prop :=
  ∀ q, (s.proc q).state = .sleeping → (s.proc q).chan = some .nwrite →
    s.pipe.nwrite = s.pipe.nread + PIPESIZE.toUInt32 ∧ s.pipe.readopen = true

theorem WritersWait.of_sleepersLe (h : WritersWait s) (hle : SleepersLe s' s)
    (hpipe : s'.pipe = s.pipe) : WritersWait s' := by
  intro q hq hc
  obtain ⟨hq', hc'⟩ := hle q hq
  rw [hpipe]
  exact h q hq' (hc' ▸ hc)

/-- After `wakeup(&pi->nwrite)`, whatever the pipe holds. -/
theorem writersWait_wakeup_nwrite (s : PipeSys np) : WritersWait (s.wakeup .nwrite) :=
  fun _ hq hc => absurd hc (chan_ne_of_wakeup hq)

theorem WritersWait.ret (h : WritersWait s) (p : Fin np) (r : Int) : WritersWait (s.ret p r) :=
  h.of_sleepersLe (sleepersLe_ret s p r) rfl

theorem WritersWait.wakeup (h : WritersWait s) (c : Chan) : WritersWait (s.wakeup c) :=
  h.of_sleepersLe (sleepersLe_wakeup s c) rfl

/-- `sleep` keeps the invariant when it is on `&pi->nread`, or when the pipe is
full with its read end open. -/
theorem WritersWait.sleep (h : WritersWait s) (p : Fin np) (c : Chan)
    (hc : c = .nwrite → s.pipe.nwrite = s.pipe.nread + PIPESIZE.toUInt32 ∧
      s.pipe.readopen = true) :
    WritersWait (s.sleep p c) := by
  intro q hq hqc
  simp only [PipeSys.sleep, setProc_proc] at hq hqc ⊢
  split_ifs at hq hqc with hqp
  · exact hc (Option.some.inj hqc)
  · exact h q hq hqc

/-- A round of `pipewrite`: it stores a byte only into a pipe that is not full,
which no writer sleeps on, and sleeps only on a full pipe whose read end it has
just found open. -/
theorem WritersWait.writeRound (h : WritersWait s) (p : Fin np) (mem : Blocks.UserMem)
    (addr : Nat) (n : Int) (i : Nat) : WritersWait (s.writeRound p mem addr n i) := by
  unfold PipeSys.writeRound
  split_ifs with hi hstop hfull
  · exact h.ret p (-1)
  · have hopen : s.pipe.readopen = true := by
      simp only [Bool.or_eq_true, Bool.not_eq_eq_eq_not, Bool.not_true] at hstop
      cases hr : s.pipe.readopen
      · exact absurd (Or.inl hr) hstop
      · rfl
    exact (h.wakeup .nread).sleep p .nwrite fun _ => ⟨hfull, hopen⟩
  · split
    · -- a byte is stored: the pipe was not full, so no writer slept
      intro q hq hc
      rw [setProc_proc] at hq hc
      split_ifs at hq hc with hqp
      · exact absurd (h p hq hc).1 hfull
      · exact absurd (h q hq hc).1 hfull
    · exact (h.wakeup .nread).ret p i
  · exact (h.wakeup .nread).ret p i

/-- `piperead` from its test for an empty pipe: it returns or sleeps on
`&pi->nread`, or its copy loop ends with `wakeup(&pi->nwrite)`. -/
theorem WritersWait.readRound (h : WritersWait s) (p : Fin np) (vm : UserVm) (addr : Nat)
    (n : Int) : WritersWait (s.readRound p vm addr n) := by
  unfold PipeSys.readRound
  split_ifs with hempty hkilled
  · exact h.ret p (-1)
  · exact h.sleep p .nread (fun hc => by cases hc)
  · exact (writersWait_wakeup_nwrite _).ret p _

/-- `pipeclose`: closing the read end wakes the writers, and closing the write
end leaves the read end and the counters alone. -/
theorem WritersWait.close (h : WritersWait s) (writable : Bool) :
    WritersWait (s.close writable) := by
  unfold PipeSys.close
  cases writable with
  | false => exact writersWait_wakeup_nwrite _
  | true =>
    apply WritersWait.wakeup
    intro q hq hc
    exact h q hq hc

theorem WritersWait.step (h : WritersWait s) {e : Event np} (hstep : s.Next e s') :
    WritersWait s' := by
  cases e with
  | write p mem addr n =>
    obtain ⟨-, rfl⟩ := next_write hstep
    exact h.of_sleepersLe (sleepersLe_enter _ _ _) rfl
  | read p vm addr n =>
    obtain ⟨-, rfl⟩ := next_read hstep
    exact h.of_sleepersLe (sleepersLe_enter _ _ _) rfl
  | run p =>
    obtain ⟨-, ⟨mem, addr, n, i, -, rfl⟩ | ⟨vm, addr, n, -, rfl⟩⟩ := next_run hstep
    · exact h.writeRound _ _ _ _ _
    · exact h.readRound _ _ _ _
  | resume p =>
    obtain ⟨-, rfl⟩ := next_resume hstep
    -- the woken process runs again, and the others are as they were
    exact h.of_sleepersLe (sleepersLe_setProc s p fun hs => by cases hs) rfl
  | kill p =>
    cases next_kill hstep
    exact h.of_sleepersLe (sleepersLe_kill _ _) rfl
  | close writable =>
    obtain ⟨-, rfl⟩ := next_close hstep
    exact h.close writable

theorem writersWait_init (hs : s.Init) : WritersWait s := by
  intro q _ hc
  rw [(hs.2.2 q).2] at hc
  cases hc

/-- In every reachable state, a process asleep on `&pi->nwrite` finds the pipe
full and its read end open: no writer's wakeup is lost. -/
theorem writersWait_of_reachable (hs : Reachable PipeSys.Init PipeSys.Next s) :
    WritersWait s :=
  Reachable.invariant (I := WritersWait) (fun _ h => writersWait_init h)
    (fun _ _ _ _ hi hn => hi.step hn) hs

end PipeSys

/-! ## A killed writer loses the readers' wakeup -/

/-- A pipe just made, with every process running and in no call. -/
def PipeSys.fresh : PipeSys NPROC where
  pipe := Pipe.alloc fun _ => 0
  lock := none
  proc _ := { state := .running, chan := none, killed := false, call := .none, ret := 0 }

/-- The reader and the writer of the run below. -/
def reader : Fin NPROC := ⟨0, NPROC_pos⟩
def writer : Fin NPROC := ⟨1, one_lt_NPROC⟩

/-- A reader sleeps on the empty pipe; a writer stores the first of two bytes
and is killed before the second round of its loop, which returns `-1` without
`wakeup(&pi->nread)`.  No one holds the lock, the pipe holds a byte, and the
reader sleeps on `&pi->nread`. -/
theorem killed_writer_loses_wakeup :
    ∃ s, Reachable PipeSys.Init PipeSys.Next s ∧ s.lock = none ∧
      (s.proc reader).state = .sleeping ∧ (s.proc reader).chan = some .nread ∧
      s.pipe.nread ≠ s.pipe.nwrite ∧ (s.proc writer).ret = -1 := by
  have hrun : (exec PipeSys.step PipeSys.fresh
      [.read reader ⟨fun _ => none, fun _ => false⟩ 0 1, .run reader,
        .write writer (fun _ => some fun _ => 7) 0 2, .run writer, .kill writer,
        .run writer]).map (fun s =>
      decide (s.lock = none ∧ (s.proc reader).state = .sleeping ∧
        (s.proc reader).chan = some .nread ∧ s.pipe.nread ≠ s.pipe.nwrite ∧
        (s.proc writer).ret = -1)) = some true := by
    decide +kernel
  obtain ⟨s, hs, hp⟩ := Reachable.exists_of_exec (fun _ _ _ h => h) hrun
  have hinit : PipeSys.fresh.Init :=
    ⟨⟨_, rfl⟩, rfl, fun _ => ⟨rfl, rfl⟩⟩
  exact ⟨s, hs.of_eq hinit, of_decide_eq_true hp⟩

end Xv6.PipeSleep
