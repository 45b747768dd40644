import Xv6.Proc.Sched
import Xv6.Lib.Transition

/-!
# Processes and CPUs

In every state the steps reach from boot, a process is `RUNNING` exactly when a
CPU's `c->proc` names it, and then only one CPU does; a sleeping process has a
channel; the scheduler picks only runnable processes; every state change is one
of `UNUSED → USED → RUNNABLE`, `RUNNABLE → RUNNING`, `RUNNING → RUNNABLE`,
`RUNNING → SLEEPING`, `RUNNING → ZOMBIE`, `SLEEPING → RUNNABLE` and
`ZOMBIE → UNUSED`; and the one panic a step can reach is `exit` by `initproc`,
never the checks of `sched` (`scheduler_invariant`).

## Strategy

`CpuInv` holds the first three facts.  Three lemmas keep it, and every event
is one of them or a composition: `CpuInv.setProc_of` for a change of one
process that neither starts nor stops running (`fork`, `wait`'s `freeproc`,
`kill`), `CpuInv.switchOut` for a process that gives up its CPU with a state
other than `RUNNING` (`yield`, `sleep`, `exit`), and `CpuInv.switchIn` for the
scheduler.  The wakeups (`wakeup`, `reparent`, `kill`) are `Wakes` steps, which
only turn sleepers into runnable processes and touch no channel or CPU.

The state changes are read off the same lemmas: `Moves m m'` says that every
process keeps its state or makes an allowed change, and the process that gives
up its CPU was running, by `CpuInv`.
-/

namespace Xv6.Scheduler

open Transition Tables

namespace Machine

variable {m m' : Machine} {p q : Fin NPROC} {c d : Fin NCPU}

/-! ## Updates of the table and the CPUs -/

theorem setProc_proc (m : Machine) (p q : Fin NPROC) (ps : PState) :
    (m.setProc p ps).proc q = if q = p then ps else m.proc q := by
  simp [setProc, Function.update_apply]

@[simp] theorem setProc_proc_self (m : Machine) (p : Fin NPROC) (ps : PState) :
    (m.setProc p ps).proc p = ps := by
  simp [setProc_proc]

theorem setProc_proc_of_ne {ps : PState} (hq : q ≠ p) : (m.setProc p ps).proc q = m.proc q := by
  simp [setProc_proc, hq]

@[simp] theorem setProc_cpu (m : Machine) (p : Fin NPROC) (ps : PState) :
    (m.setProc p ps).cpu = m.cpu := rfl

@[simp] theorem setCpu_proc (m : Machine) (c : Fin NCPU) (x : Option (Fin NPROC)) :
    (m.setCpu c x).proc = m.proc := rfl

@[simp] theorem setCpu_cpu_self (m : Machine) (c : Fin NCPU) (x : Option (Fin NPROC)) :
    (m.setCpu c x).cpu c = x := by
  simp [setCpu]

theorem setCpu_cpu_of_ne {x : Option (Fin NPROC)} (hd : d ≠ c) : (m.setCpu c x).cpu d = m.cpu d := by
  simp [setCpu, hd]

/-- Setting `c->proc` to a value that names `q` exactly when the old one did
leaves the CPUs that run `q` as they were. -/
theorem setCpu_cpu_eq_some_iff {x : Option (Fin NPROC)} (hx : x = some q ↔ m.cpu c = some q)
    (d : Fin NCPU) : (m.setCpu c x).cpu d = some q ↔ m.cpu d = some q := by
  by_cases hdc : d = c
  · rw [hdc, setCpu_cpu_self]
    exact hx
  · rw [setCpu_cpu_of_ne hdc]

theorem cpu_of_setCpu_none (h : (m.setCpu c none).cpu d = some q) : m.cpu d = some q := by
  by_cases hdc : d = c
  · rw [hdc, setCpu_cpu_self] at h
    cases h
  · rwa [setCpu_cpu_of_ne hdc] at h

/-- `sched` by a process that has left `RUNNING` switches to the scheduler. -/
theorem sched_ok (hst : (m.proc p).state ≠ .running) : m.sched c p true = .ok (m.setCpu c none) := by
  simp [sched, hst]

/-! ## Steps that only wake sleepers -/

/-- Every process keeps its state or goes from `SLEEPING` to `RUNNABLE`; the
channels, the CPUs and `initproc` are kept. -/
structure Wakes (m m' : Machine) : Prop where
  cpu_eq : m'.cpu = m.cpu
  initproc_eq : m'.initproc = m.initproc
  chan_eq : ∀ q, (m'.proc q).chan = (m.proc q).chan
  state : ∀ q, (m'.proc q).state = (m.proc q).state ∨
    (m.proc q).state = .sleeping ∧ (m'.proc q).state = .runnable

theorem Wakes.refl (m : Machine) : Wakes m m :=
  ⟨rfl, rfl, fun _ => rfl, fun _ => .inl rfl⟩

theorem Wakes.trans {m'' : Machine} (h₁ : Wakes m m') (h₂ : Wakes m' m'') : Wakes m m'' where
  cpu_eq := h₂.cpu_eq.trans h₁.cpu_eq
  initproc_eq := h₂.initproc_eq.trans h₁.initproc_eq
  chan_eq q := (h₂.chan_eq q).trans (h₁.chan_eq q)
  state q := by
    rcases h₁.state q with h | ⟨hs, hr⟩ <;> rcases h₂.state q with h' | ⟨hs', hr'⟩
    · exact .inl (h'.trans h)
    · exact .inr ⟨h ▸ hs', hr'⟩
    · exact .inr ⟨hs, h' ▸ hr⟩
    · rw [hr] at hs'
      cases hs'

theorem wakes_wakeup (m : Machine) (ch : Chan) : Wakes m (m.wakeup ch) where
  cpu_eq := rfl
  initproc_eq := rfl
  chan_eq q := by
    simp only [wakeup]
    split_ifs <;> rfl
  state q := by
    simp only [wakeup]
    split_ifs with hw
    · exact .inr ⟨hw.1, rfl⟩
    · exact .inl rfl

/-- A step that keeps every state, channel and CPU. -/
theorem Wakes.of_same (hcpu : m'.cpu = m.cpu) (hinit : m'.initproc = m.initproc)
    (hq : ∀ q, (m'.proc q).state = (m.proc q).state ∧ (m'.proc q).chan = (m.proc q).chan) :
    Wakes m m' :=
  ⟨hcpu, hinit, fun q => (hq q).2, fun q => .inl (hq q).1⟩

theorem wakes_reparent (m : Machine) (p : Fin NPROC) : Wakes m (m.reparent p) := by
  -- the new parents change no state or channel
  have hparents : ∀ q, (if (m.proc q).parent = some p then { m.proc q with parent := some m.initproc }
      else m.proc q).state = (m.proc q).state ∧
      (if (m.proc q).parent = some p then { m.proc q with parent := some m.initproc }
      else m.proc q).chan = (m.proc q).chan := fun q => by
    split_ifs <;> exact ⟨rfl, rfl⟩
  unfold reparent
  dsimp only
  split_ifs
  · refine Wakes.trans ?_ (wakes_wakeup _ _)
    exact Wakes.of_same rfl rfl hparents
  · exact Wakes.of_same rfl rfl hparents

theorem wakes_kill (m : Machine) (p : Fin NPROC) :
    Wakes m (m.setProc p { m.proc p with
      killed := true
      state := if (m.proc p).state = .sleeping then .runnable else (m.proc p).state }) where
  cpu_eq := rfl
  initproc_eq := rfl
  chan_eq q := by
    by_cases hq : q = p
    · rw [hq, setProc_proc_self]
    · rw [setProc_proc_of_ne hq]
  state q := by
    by_cases hq : q = p
    · subst hq
      rw [setProc_proc_self]
      split_ifs with hs
      · exact .inr ⟨hs, rfl⟩
      · exact .inl rfl
    · exact .inl (by rw [setProc_proc_of_ne hq])

/-! ## The invariant -/

/-- A process is `RUNNING` exactly when a CPU runs it, no two CPUs run the
same process, and a sleeping process has a channel. -/
structure CpuInv (m : Machine) : Prop where
  running_iff : ∀ p, (m.proc p).state = .running ↔ ∃ c, m.cpu c = some p
  cpu_inj : ∀ c c' p, m.cpu c = some p → m.cpu c' = some p → c = c'
  sleeping_chan : ∀ p, (m.proc p).state = .sleeping → (m.proc p).chan ≠ none

theorem CpuInv.of_wakes (h : CpuInv m) (hw : Wakes m m') : CpuInv m' where
  running_iff q := by
    rw [hw.cpu_eq, ← h.running_iff q]
    rcases hw.state q with hs | ⟨hs, hr⟩
    · rw [hs]
    · rw [hs, hr]
      simp
  cpu_inj := by
    rw [hw.cpu_eq]
    exact h.cpu_inj
  sleeping_chan q hq := by
    rw [hw.chan_eq]
    rcases hw.state q with hs | ⟨-, hr⟩
    · exact h.sleeping_chan q (hs ▸ hq)
    · rw [hr] at hq
      cases hq

/-- A change of one process that neither starts nor stops running. -/
theorem CpuInv.setProc_of (h : CpuInv m) {ps : PState}
    (hrun : ps.state = .running ↔ (m.proc p).state = .running)
    (hsleep : ps.state = .sleeping → ps.chan ≠ none) : CpuInv (m.setProc p ps) where
  running_iff q := by
    rw [setProc_cpu]
    by_cases hq : q = p
    · rw [hq, setProc_proc_self, hrun]
      exact h.running_iff p
    · rw [setProc_proc_of_ne hq]
      exact h.running_iff q
  cpu_inj := h.cpu_inj
  sleeping_chan q hq := by
    by_cases hqp : q = p
    · subst hqp
      rw [setProc_proc_self] at hq ⊢
      exact hsleep hq
    · rw [setProc_proc_of_ne hqp] at hq ⊢
      exact h.sleeping_chan q hq

/-- The process on CPU `c` gives up the CPU, in a state other than `RUNNING`. -/
theorem CpuInv.switchOut (h : CpuInv m) (hc : m.cpu c = some p) {ps : PState}
    (hst : ps.state ≠ .running) (hsleep : ps.state = .sleeping → ps.chan ≠ none) :
    CpuInv ((m.setProc p ps).setCpu c none) where
  running_iff q := by
    rw [setCpu_proc]
    by_cases hq : q = p
    · -- `p` runs nowhere now: `c` was its only CPU
      subst hq
      rw [setProc_proc_self]
      refine ⟨fun hr => absurd hr hst, ?_⟩
      rintro ⟨d, hd⟩
      have hm := cpu_of_setCpu_none hd
      rw [setProc_cpu] at hm
      rw [h.cpu_inj d c q hm hc, setCpu_cpu_self] at hd
      cases hd
    · -- `c` ran `p`, so it is not among the CPUs of `q`
      have hcpu : none = some q ↔ (m.setProc p ps).cpu c = some q := by
        rw [setProc_cpu, hc]
        simpa using Ne.symm hq
      simp only [setCpu_cpu_eq_some_iff hcpu, setProc_cpu]
      rw [setProc_proc_of_ne hq]
      exact h.running_iff q
  cpu_inj d d' r hd hd' := by
    have hd := cpu_of_setCpu_none hd
    have hd' := cpu_of_setCpu_none hd'
    exact h.cpu_inj d d' r hd hd'
  sleeping_chan q hq := by
    rw [setCpu_proc] at hq ⊢
    by_cases hqp : q = p
    · subst hqp
      rw [setProc_proc_self] at hq ⊢
      exact hsleep hq
    · rw [setProc_proc_of_ne hqp] at hq ⊢
      exact h.sleeping_chan q hq

/-- The scheduler of the free CPU `c` runs the runnable process `p`. -/
theorem CpuInv.switchIn (h : CpuInv m) (hc : m.cpu c = none) (hp : (m.proc p).state = .runnable) :
    CpuInv ((m.setProc p { m.proc p with state := .running, chan := none }).setCpu c (some p)) where
  running_iff q := by
    rw [setCpu_proc]
    by_cases hq : q = p
    · subst hq
      rw [setProc_proc_self]
      exact ⟨fun _ => ⟨c, setCpu_cpu_self _ _ _⟩, fun _ => rfl⟩
    · -- `c` was free and now runs `p`, so it is not among the CPUs of `q`
      have hcpu : some p = some q ↔ (m.setProc p { m.proc p with state := .running, chan := none }).cpu c = some q := by
        rw [setProc_cpu, hc]
        simpa using Ne.symm hq
      simp only [setCpu_cpu_eq_some_iff hcpu, setProc_cpu]
      rw [setProc_proc_of_ne hq]
      exact h.running_iff q
  cpu_inj d d' r hd hd' := by
    -- a CPU other than `c` that ran `p` would make the runnable `p` running
    have hother : ∀ e, e ≠ c → m.cpu e ≠ some p := fun e _ he => by
      have := (h.running_iff p).mpr ⟨e, he⟩
      rw [hp] at this
      cases this
    by_cases hdc : d = c <;> by_cases hdc' : d' = c
    · rw [hdc, hdc']
    · rw [hdc, setCpu_cpu_self] at hd
      rw [setCpu_cpu_of_ne hdc', setProc_cpu, ← hd] at hd'
      exact absurd hd' (hother d' hdc')
    · rw [hdc', setCpu_cpu_self] at hd'
      rw [setCpu_cpu_of_ne hdc, setProc_cpu, ← hd'] at hd
      exact absurd hd (hother d hdc)
    · rw [setCpu_cpu_of_ne hdc, setProc_cpu] at hd
      rw [setCpu_cpu_of_ne hdc', setProc_cpu] at hd'
      exact h.cpu_inj d d' r hd hd'
  sleeping_chan q hq := by
    rw [setCpu_proc] at hq ⊢
    by_cases hqp : q = p
    · subst hqp
      rw [setProc_proc_self] at hq
      cases hq
    · rw [setProc_proc_of_ne hqp] at hq ⊢
      exact h.sleeping_chan q hq

/-! ## What each event does -/

theorem next_schedule (h : m.Next (.schedule c p) m') :
    m.cpu c = none ∧ (m.proc p).state = .runnable ∧
      m' = (m.setProc p { m.proc p with state := .running, chan := none }).setCpu c (some p) := by
  simp only [Next, step] at h
  split_ifs at h with hc
  exact ⟨hc.1, hc.2, (Except.ok.inj (Option.some.inj h)).symm⟩

theorem next_yield (h : m.Next (.yield c) m') :
    ∃ p, m.cpu c = some p ∧ m' = (m.setState p .runnable).setCpu c none := by
  simp only [Next, step, Option.map_eq_some_iff] at h
  obtain ⟨p, hc, hsched⟩ := h
  rw [setState, sched_ok (by simp)] at hsched
  exact ⟨p, hc, (Except.ok.inj hsched).symm⟩

/-- `sleep` by the process `p` on CPU `c`. -/
theorem sleepOn_ok (m : Machine) (c : Fin NCPU) (p : Fin NPROC) (ch : Chan) :
    m.sleepOn c p ch =
      .ok ((m.setProc p { m.proc p with chan := some ch, state := .sleeping }).setCpu c none) :=
  sched_ok (by simp)

theorem next_sleep (h : m.Next (.sleep c a) m') :
    ∃ p, m.cpu c = some p ∧
      m' = (m.setProc p { m.proc p with chan := some (.obj a), state := .sleeping }).setCpu c none := by
  simp only [Next, step, Option.map_eq_some_iff, sleepOn_ok] at h
  obtain ⟨p, hc, hsleep⟩ := h
  exact ⟨p, hc, (Except.ok.inj hsleep).symm⟩

theorem next_fork {ok : Bool} (h : m.Next (.fork c ok) m') :
    m' = m ∨ ∃ p np, m.cpu c = some p ∧ (m.proc np).state = .unused ∧
      m' = m.setProc np { m.proc np with state := .used, parent := some p } := by
  simp only [Next, step, Option.map_eq_some_iff] at h
  obtain ⟨p, hc, hfork⟩ := h
  split at hfork
  · exact .inl (Except.ok.inj hfork).symm
  · rename_i np hnp
    have hunused : (m.proc np).state = .unused := by
      have := List.find?_some hnp
      simpa using this
    split_ifs at hfork
    · exact .inr ⟨p, np, hc, hunused, (Except.ok.inj hfork).symm⟩
    · exact .inl (Except.ok.inj hfork).symm

theorem next_forkDone (h : m.Next (.forkDone c np) m') :
    (m.proc np).state = .used ∧ m' = m.setState np .runnable := by
  simp only [Next, step, Option.bind_eq_some_iff] at h
  obtain ⟨p, -, hdone⟩ := h
  split_ifs at hdone with hused
  exact ⟨hused.1, (Except.ok.inj (Option.some.inj hdone)).symm⟩

/-- `exit` by the process `p` on CPU `c`: the wakeups of `reparent` and of the
parent, then `ZOMBIE` and the switch to the scheduler.  `initproc` panics. -/
theorem next_exit (h : m.Next (.exit c) m') :
    ∃ p m₁, m.cpu c = some p ∧ Wakes m m₁ ∧ m' = (m₁.setState p .zombie).setCpu c none := by
  simp only [Next, step, Option.map_eq_some_iff] at h
  obtain ⟨p, hc, hexit⟩ := h
  split_ifs at hexit with hinit
  -- the parent's wakeup, if it has one
  split at hexit
  · next pp _ =>
    refine ⟨p, _, hc, (wakes_reparent m p).trans (wakes_wakeup _ (.proc pp)), ?_⟩
    rw [setState, sched_ok (by simp)] at hexit
    exact (Except.ok.inj hexit).symm
  · refine ⟨p, _, hc, wakes_reparent m p, ?_⟩
    rw [setState, sched_ok (by simp)] at hexit
    exact (Except.ok.inj hexit).symm

theorem next_wait {ok : Bool} (h : m.Next (.wait c ok) m') :
    m' = m ∨ (∃ q, (m.proc q).state = .zombie ∧ m' = m.freeproc q) ∨
      ∃ p, m.cpu c = some p ∧
        m' = (m.setProc p { m.proc p with chan := some (.proc p), state := .sleeping }).setCpu c none := by
  simp only [Next, step, Option.map_eq_some_iff] at h
  obtain ⟨p, hc, hwait⟩ := h
  split at hwait
  · rename_i q hq
    have hzombie : (m.proc q).state = .zombie := by
      have := List.find?_some hq
      simp only [decide_eq_true_eq] at this
      exact this.2
    split_ifs at hwait
    · exact .inr (.inl ⟨q, hzombie, (Except.ok.inj hwait).symm⟩)
    · exact .inl (Except.ok.inj hwait).symm
  · split_ifs at hwait
    · rw [sleepOn_ok] at hwait
      exact .inr (.inr ⟨p, hc, (Except.ok.inj hwait).symm⟩)
    · exact .inl (Except.ok.inj hwait).symm

/-! ## Every step keeps the invariant -/

theorem CpuInv.step (h : CpuInv m) {e : Event} (hstep : m.Next e m') : CpuInv m' := by
  cases e with
  | schedule c p =>
    obtain ⟨hc, hp, rfl⟩ := next_schedule hstep
    exact h.switchIn hc hp
  | yield c =>
    obtain ⟨p, hc, rfl⟩ := next_yield hstep
    exact h.switchOut hc (by simp) (by simp)
  | sleep c a =>
    obtain ⟨p, hc, rfl⟩ := next_sleep hstep
    exact h.switchOut hc (by simp) (by simp)
  | wakeup ch =>
    cases Except.ok.inj (Option.some.inj hstep)
    exact h.of_wakes (wakes_wakeup m ch)
  | kill p =>
    cases Except.ok.inj (Option.some.inj hstep)
    exact h.of_wakes (wakes_kill m p)
  | fork c ok =>
    rcases next_fork hstep with rfl | ⟨p, np, -, hnp, rfl⟩
    · exact h
    · exact h.setProc_of (by simp [hnp]) (by simp)
  | forkDone c np =>
    obtain ⟨hnp, rfl⟩ := next_forkDone hstep
    exact h.setProc_of (by simp [hnp]) (by simp)
  | exit c =>
    obtain ⟨p, m₁, hc, hw, rfl⟩ := next_exit hstep
    exact (h.of_wakes hw).switchOut (hw.cpu_eq ▸ hc) (by simp) (by simp)
  | wait c ok =>
    rcases next_wait hstep with rfl | ⟨q, hq, rfl⟩ | ⟨p, hc, rfl⟩
    · exact h
    · exact h.setProc_of (by simp [PState.free, hq]) (by simp [PState.free])
    · exact h.switchOut hc (by simp) (by simp)

/-! ## Every step makes only allowed state changes -/

/-- Every process keeps its state or makes an allowed change. -/
def Moves (m m' : Machine) : Prop :=
  ∀ q, (m'.proc q).state = (m.proc q).state ∨ Allowed (m.proc q).state (m'.proc q).state

theorem Moves.of_wakes (hw : Wakes m m') : Moves m m' := by
  intro q
  rcases hw.state q with hs | ⟨hs, hr⟩
  · exact .inl hs
  · rw [hs, hr]
    exact .inr .wake

/-- One process makes an allowed change, after wakeups that did not touch it. -/
theorem Moves.setProc {m₁ : Machine} (hw : Wakes m m₁) {ps : PState}
    (hp : Allowed (m.proc p).state ps.state ∧ (m₁.proc p).state = (m.proc p).state) :
    Moves m ((m₁.setProc p ps).setCpu c none) := by
  intro q
  simp only [setCpu_proc, setProc_proc]
  split_ifs with hq
  · subst hq
    exact .inr hp.1
  · exact Moves.of_wakes hw q

theorem moves_setProc {ps : PState} (hp : Allowed (m.proc p).state ps.state) :
    Moves m (m.setProc p ps) := by
  intro q
  rw [setProc_proc]
  split_ifs with hq
  · subst hq
    exact .inr hp
  · exact .inl rfl

theorem CpuInv.moves (h : CpuInv m) {e : Event} (hstep : m.Next e m') : Moves m m' := by
  -- the process on a CPU is running
  have hrun : ∀ c p, m.cpu c = some p → (m.proc p).state = .running :=
    fun c p hc => (h.running_iff p).mpr ⟨c, hc⟩
  cases e with
  | schedule c p =>
    obtain ⟨-, hp, rfl⟩ := next_schedule hstep
    intro q
    simp only [setCpu_proc, setProc_proc]
    split_ifs with hq
    · subst hq
      rw [hp]
      exact .inr .run
    · exact .inl rfl
  | yield c =>
    obtain ⟨p, hc, rfl⟩ := next_yield hstep
    exact Moves.setProc (Wakes.refl m) ⟨by simp [hrun c p hc]; exact .yield, rfl⟩
  | sleep c a =>
    obtain ⟨p, hc, rfl⟩ := next_sleep hstep
    exact Moves.setProc (Wakes.refl m) ⟨by simp [hrun c p hc]; exact .sleep, rfl⟩
  | wakeup ch =>
    cases Except.ok.inj (Option.some.inj hstep)
    exact Moves.of_wakes (wakes_wakeup m ch)
  | kill p =>
    cases Except.ok.inj (Option.some.inj hstep)
    exact Moves.of_wakes (wakes_kill m p)
  | fork c ok =>
    rcases next_fork hstep with rfl | ⟨p, np, -, hnp, rfl⟩
    · exact fun _ => .inl rfl
    · exact moves_setProc (by simp [hnp]; exact .alloc)
  | forkDone c np =>
    obtain ⟨hnp, rfl⟩ := next_forkDone hstep
    exact moves_setProc (by simp [hnp]; exact .ready)
  | exit c =>
    obtain ⟨p, m₁, hc, hw, rfl⟩ := next_exit hstep
    have hp := hrun c p hc
    -- the wakeups leave the running `p` alone
    have hp₁ : (m₁.proc p).state = (m.proc p).state := by
      rcases hw.state p with hs | ⟨hs, -⟩
      · exact hs
      · rw [hp] at hs
        cases hs
    exact Moves.setProc hw ⟨by simp [hp]; exact .exit, hp₁⟩
  | wait c ok =>
    rcases next_wait hstep with rfl | ⟨q, hq, rfl⟩ | ⟨p, hc, rfl⟩
    · exact fun _ => .inl rfl
    · exact moves_setProc (by simp [PState.free, hq]; exact .free)
    · exact Moves.setProc (Wakes.refl m) ⟨by simp [hrun c p hc]; exact .sleep, rfl⟩

/-! ## The one panic -/

/-- A step panics only when `initproc` exits: the checks of `sched` never fail. -/
theorem step_error {e : Event} {msg : String} (h : m.step e = some (.error msg)) :
    msg = "init exiting" := by
  cases e with
  | schedule c p =>
    simp only [step] at h
    split_ifs at h
    cases h
  | yield c =>
    simp only [step, Option.map_eq_some_iff] at h
    obtain ⟨p, -, hsched⟩ := h
    rw [setState, sched_ok (by simp)] at hsched
    cases hsched
  | sleep c a =>
    simp only [step, Option.map_eq_some_iff, sleepOn_ok] at h
    obtain ⟨p, -, hsleep⟩ := h
    cases hsleep
  | wakeup ch => cases h
  | kill p => cases h
  | fork c ok =>
    simp only [step, Option.map_eq_some_iff] at h
    obtain ⟨p, -, hfork⟩ := h
    split at hfork
    · cases hfork
    · split_ifs at hfork
  | forkDone c np =>
    simp only [step, Option.bind_eq_some_iff] at h
    obtain ⟨p, -, hdone⟩ := h
    split_ifs at hdone
    cases hdone
  | exit c =>
    simp only [step, Option.map_eq_some_iff] at h
    obtain ⟨p, -, hexit⟩ := h
    split_ifs at hexit
    · exact (Except.error.inj hexit).symm
    · rw [setState, sched_ok (by simp)] at hexit
      cases hexit
  | wait c ok =>
    simp only [step, Option.map_eq_some_iff] at h
    obtain ⟨p, -, hwait⟩ := h
    split at hwait
    · split_ifs at hwait
    · split_ifs at hwait
      rw [sleepOn_ok] at hwait
      cases hwait

theorem cpuInv_boot : CpuInv boot where
  running_iff p := by
    simp only [boot, PState.free]
    split_ifs <;> simp
  cpu_inj _ _ _ h := by cases h
  sleeping_chan p := by
    simp only [boot, PState.free]
    split_ifs <;> simp

theorem cpuInv_of_reachable (hm : Reachable (· = boot) Next m) : CpuInv m :=
  Reachable.invariant (I := CpuInv) (by rintro _ rfl; exact cpuInv_boot) (fun _ _ _ _ hi hn => hi.step hn) hm

end Machine

open Machine

/-- In every state reached from boot: a process is `RUNNING` exactly when some
CPU's `c->proc` names it, and no two CPUs name the same process; a sleeping
process has a channel; the scheduler picks only runnable processes; every step
keeps each state or changes it along one of the allowed edges; and no step
reaches `sched`'s panics. -/
theorem scheduler_invariant {m : Machine} (hm : Reachable (· = boot) Next m) :
    (∀ p, (m.proc p).state = .running ↔ ∃ c, m.cpu c = some p) ∧
    (∀ c c' p, m.cpu c = some p → m.cpu c' = some p → c = c') ∧
    (∀ p, (m.proc p).state = .sleeping → (m.proc p).chan ≠ none) ∧
    (∀ c p m', m.Next (.schedule c p) m' → (m.proc p).state = .runnable) ∧
    (∀ e m', m.Next e m' → ∀ p, (m'.proc p).state = (m.proc p).state ∨
      Allowed (m.proc p).state (m'.proc p).state) ∧
    (∀ e, m.step e ≠ some (.error "sched running") ∧ m.step e ≠ some (.error "sched p->lock")) := by
  have h := cpuInv_of_reachable hm
  refine ⟨h.running_iff, h.cpu_inj, h.sleeping_chan, fun c p m' hs => (next_schedule hs).2.1,
    fun e m' hs => h.moves hs, fun e => ⟨fun he => ?_, fun he => ?_⟩⟩
  · exact absurd (step_error he) (by decide)
  · exact absurd (step_error he) (by decide)

/-- The first two CPUs. -/
def cpu0 : Fin NCPU := ⟨0, by decide⟩

def cpu1 : Fin NCPU := ⟨1, by decide⟩

/-- CPU 0 runs `initproc`, which forks; CPU 1 then picks the child, so two
processes run at once, each on its own CPU. -/
theorem scheduler_invariant_twoCpus :
    ∃ m, Reachable (· = boot) Next m ∧ (m.cpu cpu0 = some slot0 ∧ m.cpu cpu1 = some slot1) ∧
      (∀ p, (m.proc p).state = .running ↔ ∃ c, m.cpu c = some p) ∧
      (∀ c c' p, m.cpu c = some p → m.cpu c' = some p → c = c') ∧
      (∀ p, (m.proc p).state = .sleeping → (m.proc p).chan ≠ none) ∧
      (∀ c p m', m.Next (.schedule c p) m' → (m.proc p).state = .runnable) ∧
      (∀ e m', m.Next e m' → ∀ p, (m'.proc p).state = (m.proc p).state ∨
        Allowed (m.proc p).state (m'.proc p).state) ∧
      (∀ e, m.step e ≠ some (.error "sched running") ∧ m.step e ≠ some (.error "sched p->lock")) := by
  have hrun : (Transition.exec (okStep Machine.step) boot
      [.schedule cpu0 slot0, .fork cpu0 true, .forkDone cpu0 slot1, .schedule cpu1 slot1]).map
      (fun m => decide (m.cpu cpu0 = some slot0 ∧ m.cpu cpu1 = some slot1)) = some true := by
    decide
  have hsound : ∀ (m : Machine) e m', okStep Machine.step m e = some m' → m.Next e m' :=
    fun _ _ _ h => okStep_eq_some h
  obtain ⟨m, hs, hp⟩ := Reachable.exists_of_exec_decide hsound hrun
  exact ⟨m, hs, hp, scheduler_invariant hs⟩

end Xv6.Scheduler
