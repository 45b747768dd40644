import Xv6.Proofs.Proc.Tree

/-!
# Every step keeps the process tree

Each call of `kernel/proc.c` is inverted once into the state it leaves
(`allocproc_eq_some`, `allocproc_eq_none`, `wait_eq_ok`, `kill_eq_ok`) or into
the relation its loop keeps (`reparentLoop_spec`), and from those every step
of `Kernel.step` is one of the four `TreeMove`s (`Kernel.step_treeMove`).  The
tree invariant and the retirement of a `pid` that `wait` returned then hold
along every run, by the invariant rule.

`kill` is the exception to "a free slot is left alone": it looks for the `pid`
in every slot, and a free slot has `pid` 0.  `kill(0)` marks the first free
slot killed, and `allocproc` does not clear the mark, so the next child of
`fork` starts killed (`kill_zero_poisons_next_fork`).
-/

namespace Xv6.Tables

open StateExcept Transition

/-! ## Moves that keep the shape -/

theorem sameShape_setProc {k : Kernel} {q : Fin NPROC} {pr : Proc}
    (hstate : pr.state.settle = (k.proc q).state.settle) (hpid : pr.pid = (k.proc q).pid)
    (hparent : pr.parent = (k.proc q).parent) : SameShape k (k.setProc q pr) := by
  unfold SameShape Kernel.shape
  congr 1
  funext q'
  by_cases hq : q' = q
  · subst hq
    simp [hstate, hpid, hparent]
  · simp [hq]

theorem keeps_wakeupProc (q : Fin NPROC) : Keeps SameShape (wakeupProc q) := by
  refine keeps_modify fun k => sameShape_setProc ?_ ?_ ?_
  all_goals
    dsimp only
    split
    · rename_i hsleep
      simp [hsleep, Procstate.settle]
    · rfl

/-- The scheduler, `sleep` and `wakeup` move a process among the states the
tree calls alive. -/
theorem sameShape_move {k k' : Kernel} {p : Fin NPROC} {s t : Procstate}
    (h : k.move p s t = some k') (hst : s.settle = t.settle) : SameShape k k' := by
  unfold Kernel.move at h
  split_ifs at h with hs
  rw [← Option.some.inj h]
  exact sameShape_setProc (by rw [hs, hst]) rfl rfl

/-! ## `allocproc` and `fork` -/

/-- `allocproc` that returned a slot: the first free one, given the next
`pid`, in state `USED`; its other fields, `killed` among them, are as the
free slot had them. -/
theorem allocproc_eq_some {memOk : Bool} {k k' : Kernel} {q : Fin NPROC}
    (h : (allocproc memOk).run k = .ok (some q, k')) :
    (k.proc q).state = .unused ∧
      k' = { k with nextpid := k.nextpid + 1 }.setProc q
        { k.proc q with pid := k.nextpid, state := .used } := by
  unfold allocproc at h
  obtain ⟨k0, k1, h0, h1⟩ := run_bind_eq_ok.mp h
  simp only [StateT.run_get, pure_eq_ok, Except.ok.injEq, Prod.mk.injEq] at h0
  obtain ⟨rfl, rfl⟩ := h0
  split at h1
  · simp at h1
  · rename_i q' hfind
    have hunused : (k.proc q').state = .unused := by simpa using List.find?_some hfind
    simp only [allocpid, modifyProc, freeproc, bind_pure_comp] at h1
    split at h1
    · simp at h1
    · simp at h1
      obtain ⟨rfl, rfl⟩ := h1
      exact ⟨hunused, rfl⟩

/-- `allocproc` that failed: no free slot, or a free slot taken and freed
again, with `nextpid` one further. -/
theorem allocproc_eq_none {memOk : Bool} {k k' : Kernel}
    (h : (allocproc memOk).run k = .ok (none, k')) :
    k' = k ∨ ∃ q, (k.proc q).state = .unused ∧
      k' = { k with nextpid := k.nextpid + 1 }.setProc q
        { k.proc q with pid := 0, parent := none, killed := false, xstate := 0, state := .unused } := by
  unfold allocproc at h
  obtain ⟨k0, k1, h0, h1⟩ := run_bind_eq_ok.mp h
  simp only [StateT.run_get, pure_eq_ok, Except.ok.injEq, Prod.mk.injEq] at h0
  obtain ⟨rfl, rfl⟩ := h0
  split at h1
  · simp at h1
    exact Or.inl h1.symm
  · rename_i q hfind
    have hunused : (k.proc q).state = .unused := by simpa using List.find?_some hfind
    simp only [allocpid, modifyProc, freeproc, bind_pure_comp] at h1
    split at h1
    · simp at h1
      exact Or.inr ⟨q, hunused, h1.symm⟩
    · simp at h1

/-- A free slot taken and given back, as a failed `fork` leaves it. -/
theorem TreeInv.reclaim {k k' : Kernel} {q₀ : Fin NPROC} (hinv : TreeInv k)
    (hq₀ : (k.proc q₀).state = .unused) (hstate : (k'.proc q₀).state = .unused)
    (hpid : (k'.proc q₀).pid = 0) (hpar : (k'.proc q₀).parent = none)
    (hother : ∀ q, q ≠ q₀ → k'.proc q = k.proc q) (hnext : k.nextpid ≤ k'.nextpid)
    (hinit : k'.initproc = k.initproc) : TreeMove k k' := by
  -- a free slot is nobody's parent, and `initproc` is not free
  have hchild : ∀ q, (k.proc q).parent ≠ some q₀ := fun q h => (hinv.parent_live q q₀ h).1 hq₀
  have hinit₀ : q₀ ≠ k.initproc := fun h => hinv.init_live.1 (h ▸ hq₀)
  exact .free q₀ hchild hinit₀ hstate hpid hpar (fun q hne => Agree.of_eq (hother q hne)) hnext hinit

theorem TreeInv.allocproc_none {memOk : Bool} {k k' : Kernel} (hinv : TreeInv k)
    (h : (allocproc memOk).run k = .ok (none, k')) : TreeMove k k' := by
  rcases allocproc_eq_none h with rfl | ⟨q, hq, rfl⟩
  · exact .same (refl_of SameShape _)
  · exact hinv.reclaim hq (by simp) (by simp) (by simp) (fun q' hne => by simp [hne]) (by simp) rfl

theorem fork_treeMove {p : Fin NPROC} {allocOk copyOk : Bool} {k k' : Kernel} {r : Int}
    (hinv : TreeInv k) (hp : (k.proc p).state = .running)
    (h : (fork p allocOk copyOk).run k = .ok (r, k')) : TreeMove k k' := by
  unfold fork at h
  obtain ⟨x, k1, halloc, h1⟩ := run_bind_eq_ok.mp h
  cases x with
  | none =>
    simp only [run_pure_eq_ok] at h1
    rw [← h1.2]
    exact hinv.allocproc_none halloc
  | some np =>
    obtain ⟨hnp, rfl⟩ := allocproc_eq_some halloc
    dsimp only at h1
    split at h1
    · -- the copy of the memory failed: `freeproc` gives the slot back
      simp [freeproc, modifyProc] at h1
      rw [← h1.2]
      exact hinv.reclaim hnp (by simp) (by simp) (by simp) (fun q hne => by simp [hne]) (by simp) rfl
    · obtain ⟨u, k2, hfiles, h2⟩ := run_bind_eq_ok.mp h1
      have hs : SameShape _ k2 := (keeps_forkFiles p np _ _ _ _ hfiles).sameShape
      simp [modifyProc] at h2
      obtain ⟨-, rfl⟩ := h2
      -- the new child, linked to the running parent
      refine .spawn p np hnp hp (by simp) ?_ (by simp) ?_ ?_ ?_
      · rw [Kernel.setProc_proc_self, hs.pid]
        simp
      · intro q hne
        refine ⟨?_, ?_, ?_⟩
        · rw [Kernel.setProc_proc_of_ne _ _ _ _ hne, hs.settle]
          simp [hne]
        · rw [Kernel.setProc_proc_of_ne _ _ _ _ hne, hs.pid]
          simp [hne]
        · rw [Kernel.setProc_proc_of_ne _ _ _ _ hne, hs.parent]
          simp [hne]
      · rw [Kernel.setProc_nextpid, hs.nextpid]
        rfl
      · rw [Kernel.setProc_initproc, hs.initproc]
        rfl

/-! ## `reparent` and `exit` -/

/-- What `reparent p` may change: a child of `p` moves to `initproc`, and a
sleeping process wakes. -/
def Reparents (p : Fin NPROC) (k k' : Kernel) : Prop :=
  (∀ q, (k'.proc q).state.settle = (k.proc q).state.settle ∧ (k'.proc q).pid = (k.proc q).pid ∧
    ((k'.proc q).parent = (k.proc q).parent ∨
      (k.proc q).parent = some p ∧ (k'.proc q).parent = some k.initproc)) ∧
  k'.nextpid = k.nextpid ∧ k'.initproc = k.initproc

instance (p : Fin NPROC) : IsPreorder Kernel (Reparents p) where
  refl _ := ⟨fun _ => ⟨rfl, rfl, .inl rfl⟩, rfl, rfl⟩
  trans _ _ _ h₁ h₂ := by
    refine ⟨fun q => ⟨(h₂.1 q).1.trans (h₁.1 q).1, (h₂.1 q).2.1.trans (h₁.1 q).2.1, ?_⟩,
      h₂.2.1.trans h₁.2.1, h₂.2.2.trans h₁.2.2⟩
    -- a child moved in either half has moved to the one `initproc`
    rcases (h₁.1 q).2.2 with e₁ | ⟨e₁, e₁'⟩ <;> rcases (h₂.1 q).2.2 with e₂ | ⟨e₂, e₂'⟩
    · exact .inl (e₂.trans e₁)
    · exact .inr ⟨e₁ ▸ e₂, by rw [e₂', h₁.2.2]⟩
    · exact .inr ⟨e₁, e₂.trans e₁'⟩
    · exact .inr ⟨e₁, by rw [e₂', h₁.2.2]⟩

theorem SameShape.reparents {k k' : Kernel} (h : SameShape k k') (p : Fin NPROC) :
    Reparents p k k' :=
  ⟨fun q => ⟨h.settle q, h.pid q, .inl (h.parent q)⟩, h.nextpid, h.initproc⟩

/-- A process that is not a child of `p` does not become one. -/
theorem Reparents.parent_ne {p q : Fin NPROC} {k k' : Kernel} (h : Reparents p k k')
    (hq : (k.proc q).parent ≠ some p) : (k'.proc q).parent ≠ some p := by
  rcases (h.1 q).2.2 with e | ⟨e, -⟩
  · rw [e]
    exact hq
  · exact absurd e hq

/-- The loop of `reparent`: it keeps `Reparents p`, and none of the slots it
went over is left a child of `p`. -/
theorem reparentLoop_spec (p : Fin NPROC) :
    ∀ (qs : List (Fin NPROC)) (k k' : Kernel), k.initproc ≠ p →
      (reparentLoop p qs).run k = .ok ((), k') →
      Reparents p k k' ∧ ∀ q ∈ qs, (k'.proc q).parent ≠ some p := by
  intro qs
  induction qs with
  | nil =>
    intro k k' _ h
    simp only [reparentLoop, run_pure_eq_ok] at h
    rw [← h.2]
    exact ⟨refl_of (Reparents p) k, by simp⟩
  | cons pp pps ih =>
    intro k k' hinit h
    unfold reparentLoop at h
    obtain ⟨k0, k1, h0, h1⟩ := run_bind_eq_ok.mp h
    simp only [StateT.run_get, pure_eq_ok, Except.ok.injEq, Prod.mk.injEq] at h0
    obtain ⟨rfl, rfl⟩ := h0
    dsimp only at h1
    split at h1
    · -- a child of `p`: it moves to `initproc`, which is woken
      rename_i hpar
      obtain ⟨k0, k1', hget, h2⟩ := run_bind_eq_ok.mp h1
      simp only [StateT.run_get, pure_eq_ok, Except.ok.injEq, Prod.mk.injEq] at hget
      obtain ⟨rfl, rfl⟩ := hget
      obtain ⟨u, k1', hmod, h3⟩ := run_bind_eq_ok.mp h2
      simp only [modifyProc, StateT.run_modify, pure_eq_ok, Except.ok.injEq, Prod.mk.injEq] at hmod
      obtain ⟨-, rfl⟩ := hmod
      obtain ⟨u, k2, hwake, hrest⟩ := run_bind_eq_ok.mp h3
      set k1 := k.setProc pp { k.proc pp with parent := some k.initproc } with hk1
      have hmove : Reparents p k k1 := by
        refine ⟨fun q => ?_, rfl, rfl⟩
        by_cases hq : q = pp
        · subst hq
          simp [hk1, hpar]
        · simp [hk1, hq]
      have hwoken : Reparents p k1 k2 := (keeps_wakeupProc _ _ _ _ hwake).reparents p
      have hR : Reparents p k k2 := trans_of (Reparents p) hmove hwoken
      obtain ⟨hR', hrest'⟩ := ih k2 k' (by rw [hR.2.2]; exact hinit) hrest
      have hpp : (k2.proc pp).parent ≠ some p := by
        rw [(keeps_wakeupProc _ _ _ _ hwake).parent pp]
        simp only [hk1, Kernel.setProc_proc_self, ne_eq, Option.some.injEq]
        exact hinit
      refine ⟨trans_of (Reparents p) hR hR', fun q hq => ?_⟩
      rcases List.mem_cons.mp hq with rfl | hq
      · exact hR'.parent_ne hpp
      · exact hrest' q hq
    · rename_i hpar
      obtain ⟨hR, hrest⟩ := ih k k' hinit h1
      refine ⟨hR, fun q hq => ?_⟩
      rcases List.mem_cons.mp hq with rfl | hq
      · exact hR.parent_ne hpar
      · exact hrest q hq

/-- `exit` by a process in use, other than `initproc`: the process becomes a
zombie after its children went to `initproc`. -/
theorem exit_treeMove {p : Fin NPROC} {status : Int} {k k' : Kernel}
    (hp : (k.proc p).state ≠ .unused) (h : (exit p status).run k = .ok ((), k')) :
    TreeMove k k' := by
  unfold exit at h
  obtain ⟨k0, k1, h0, h1⟩ := run_bind_eq_ok.mp h
  simp only [StateT.run_get, pure_eq_ok, Except.ok.injEq, Prod.mk.injEq] at h0
  obtain ⟨rfl, rfl⟩ := h0
  dsimp only at h1
  split at h1
  · simp at h1
  rename_i hpinit
  obtain ⟨u₁, k1, hclose, h2⟩ := run_bind_eq_ok.mp h1
  obtain ⟨u₂, k2, hrep, h3⟩ := run_bind_eq_ok.mp h2
  have hR₁ : Reparents p k k1 := (keeps_closeFiles p _ _ _ _ hclose).sameShape.reparents p
  obtain ⟨hR₂, hnochild⟩ := reparentLoop_spec p _ k1 k2 (by rw [hR₁.2.2]; exact Ne.symm hpinit) hrep
  -- the wakeup of the parent keeps the shape; then `p` becomes a zombie
  have htail : ∃ k3, SameShape k2 k3 ∧
      k' = k3.setProc p { k3.proc p with xstate := status, state := .zombie } := by
    obtain ⟨k4, k5, h4, h5⟩ := run_bind_eq_ok.mp h3
    simp only [StateT.run_get, pure_eq_ok, Except.ok.injEq, Prod.mk.injEq] at h4
    obtain ⟨rfl, rfl⟩ := h4
    split at h5
    · obtain ⟨u₃, k3, hwake, h6⟩ := run_bind_eq_ok.mp h5
      simp [modifyProc] at h6
      exact ⟨k3, keeps_wakeupProc _ _ _ _ hwake, h6.symm⟩
    · simp [modifyProc] at h5
      exact ⟨_, refl_of SameShape _, h5.symm⟩
  obtain ⟨k3, hs, rfl⟩ := htail
  have hR : Reparents p k k3 := trans_of (Reparents p) hR₁ (trans_of (Reparents p) hR₂ (hs.reparents p))
  have hpar : ∀ q, ((k3.setProc p { k3.proc p with xstate := status, state := .zombie }).proc q).parent =
      (k3.proc q).parent := by
    intro q
    by_cases hq : q = p
    · subst hq
      simp
    · simp [hq]
  refine .bury p hp hpinit (by simp) ?_ ?_ ?_ ?_ (by simp [hR.2.1]) (by simp [hR.2.2])
  · simp [(hR.1 p).2.1]
  · intro q
    rw [hpar]
    exact (hR.1 q).2.2
  · intro q
    rw [hpar, hs.parent]
    exact hnochild q (List.mem_finRange q)
  · intro q hq
    simp only [Kernel.setProc_proc_of_ne _ _ _ _ hq]
    exact ⟨(hR.1 q).1, (hR.1 q).2.1⟩

/-! ## `wait` -/

/-- What `wait` does: nothing, or it frees one zombie child of `p` and returns
its `pid`. -/
theorem wait_eq_ok {p : Fin NPROC} {addr : Nat} {ok : Bool} {k k' : Kernel} {r : Option Int}
    (h : (wait p addr ok).run k = .ok (r, k')) :
    (k' = k ∧ (r = none ∨ r = some (-1))) ∨
      ∃ pp, (k.proc pp).parent = some p ∧ (k.proc pp).state = .zombie ∧ r = some (k.proc pp).pid ∧
        k' = k.setProc pp
          { k.proc pp with pid := 0, parent := none, killed := false, xstate := 0, state := .unused } := by
  unfold wait at h
  obtain ⟨k0, k1, h0, h1⟩ := run_bind_eq_ok.mp h
  simp only [StateT.run_get, pure_eq_ok, Except.ok.injEq, Prod.mk.injEq] at h0
  obtain ⟨rfl, rfl⟩ := h0
  dsimp only at h1
  split at h1
  · rename_i pp hfind
    split at h1
    · -- the copy of the status failed
      simp at h1
      exact .inl ⟨h1.2.symm, .inr h1.1.symm⟩
    · simp [freeproc, modifyProc] at h1
      have hzombie : (k.proc pp).state = .zombie := by simpa using List.find?_some hfind
      have hchild : (k.proc pp).parent = some p := by
        simpa using List.mem_of_find?_eq_some hfind
      exact .inr ⟨pp, hchild, hzombie, h1.1.symm, h1.2.symm⟩
  · split at h1
    · simp at h1
      exact .inl ⟨h1.2.symm, .inr h1.1.symm⟩
    · simp at h1
      exact .inl ⟨h1.2.symm, .inl h1.1.symm⟩

theorem wait_treeMove {p : Fin NPROC} {addr : Nat} {ok : Bool} {k k' : Kernel} {r : Option Int}
    (hinv : TreeInv k) (h : (wait p addr ok).run k = .ok (r, k')) : TreeMove k k' := by
  rcases wait_eq_ok h with ⟨rfl, -⟩ | ⟨pp, -, hzombie, -, rfl⟩
  · exact .same (refl_of SameShape _)
  · -- a zombie is nobody's parent, and `initproc` is no zombie
    have hchild : ∀ q, (k.proc q).parent ≠ some pp := fun q h => (hinv.parent_live q pp h).2 hzombie
    have hinit : pp ≠ k.initproc := fun h => hinv.init_live.2 (h ▸ hzombie)
    exact .free pp hchild hinit (by simp) (by simp) (by simp)
      (fun q hne => Agree.of_eq (by simp [hne])) le_rfl rfl

/-! ## `kill` -/

/-- What `kill` does: nothing, when no slot has the `pid`; otherwise it marks
a slot with that `pid`, whatever its state, and wakes it if it sleeps. -/
theorem kill_eq_ok {pid : Int} {k k' : Kernel} {r : Int} (h : (kill pid).run k = .ok (r, k')) :
    (r = -1 ∧ k' = k ∧ ∀ q, (k.proc q).pid ≠ pid) ∨
      ∃ q, (k.proc q).pid = pid ∧ r = 0 ∧
        k' = k.setProc q
          { k.proc q with killed := true, state := if (k.proc q).state = .sleeping then .runnable else (k.proc q).state } := by
  unfold kill at h
  obtain ⟨k0, k1, h0, h1⟩ := run_bind_eq_ok.mp h
  simp only [StateT.run_get, pure_eq_ok, Except.ok.injEq, Prod.mk.injEq] at h0
  obtain ⟨rfl, rfl⟩ := h0
  split at h1
  · rename_i hfind
    simp at h1
    have hnone : ∀ q, (k.proc q).pid ≠ pid := by
      intro q
      simpa using List.find?_eq_none.mp hfind q (List.mem_finRange q)
    exact .inl ⟨h1.1.symm, h1.2.symm, hnone⟩
  · rename_i q hfind
    simp [modifyProc] at h1
    have hpid : (k.proc q).pid = pid := by simpa using List.find?_some hfind
    exact .inr ⟨q, hpid, h1.1.symm, h1.2.symm⟩

theorem kill_sameShape {pid : Int} {k k' : Kernel} {r : Int} (h : (kill pid).run k = .ok (r, k')) :
    SameShape k k' := by
  rcases kill_eq_ok h with ⟨-, rfl, -⟩ | ⟨q, -, -, rfl⟩
  · exact refl_of SameShape _
  · refine sameShape_setProc ?_ rfl rfl
    split
    · rename_i hsleep
      simp [hsleep, Procstate.settle]
    · rfl

/-! ## One step -/

theorem syscall_treeMove {p : Fin NPROC} {c : Call} {k k' : Kernel} {r : Option Int}
    (hinv : TreeInv k) (hp : (k.proc p).state = .running)
    (h : (syscall p c).run k = .ok (r, k')) : TreeMove k k' := by
  have hlive : (k.proc p).state ≠ .unused := by
    rw [hp]
    decide
  cases c with
  | openFile found omode =>
    exact .same (keeps_map some (keeps_sysOpen p found omode) k r k' h).sameShape
  | pipe kalloc ok => exact .same (keeps_map some (keeps_sysPipe p kalloc ok) k r k' h).sameShape
  | dup fd => exact .same (keeps_map some (keeps_sysDup p fd) k r k' h).sameShape
  | close fd => exact .same (keeps_map some (keeps_sysClose p fd) k r k' h).sameShape
  | fork allocOk copyOk =>
    obtain ⟨r', hfork, -⟩ := run_map_eq_ok h
    exact fork_treeMove hinv hp hfork
  | exit status =>
    obtain ⟨u, k1, hexit, hret⟩ := run_bind_eq_ok.mp h
    simp only [run_pure_eq_ok] at hret
    rw [← hret.2]
    exact exit_treeMove hlive hexit
  | wait addr ok => exact wait_treeMove hinv h
  | kill pid =>
    obtain ⟨r', hkill, -⟩ := run_map_eq_ok h
    exact .same (kill_sameShape hkill)

/-- Only `wait` sleeps, and it changes nothing before it does. -/
theorem syscall_eq_none {p : Fin NPROC} {c : Call} {k k' : Kernel}
    (h : (syscall p c).run k = .ok (none, k')) : k' = k := by
  cases c with
  | wait addr ok =>
    rcases wait_eq_ok h with ⟨hk, -⟩ | ⟨pp, -, -, hr, -⟩
    · exact hk
    · cases hr
  | exit status =>
    obtain ⟨u, k1, -, hret⟩ := run_bind_eq_ok.mp h
    simp at hret
  | openFile | pipe | dup | close | fork | kill =>
    obtain ⟨r', -, hr⟩ := run_map_eq_ok h
    cases hr

theorem Kernel.step_treeMove {k k' : Kernel} {e : Event} (hinv : TreeInv k)
    (h : k.step e = some k') : TreeMove k k' := by
  cases e with
  | call p c =>
    simp only [Kernel.step] at h
    split_ifs at h with hrun
    split at h
    · rename_i r k'' hres
      rw [← Option.some.inj h]
      exact syscall_treeMove hinv hrun.1 hres
    · -- `wait` went to sleep, from the running state
      rename_i k'' hres
      rw [← Option.some.inj h, syscall_eq_none hres]
      exact .same (sameShape_setProc (by rw [hrun.1]; rfl) rfl rfl)
    · cases h
  | run p => exact .same (sameShape_move h rfl)
  | yield p => exact .same (sameShape_move h rfl)
  | sleep p => exact .same (sameShape_move h rfl)
  | wakeup p => exact .same (sameShape_move h rfl)

/-! ## Every reachable state -/

theorem boot_slot0 {q : Fin NPROC} (hq : (Kernel.boot.proc q).state ≠ .unused) : q = slot0 := by
  by_contra hne
  simp [Kernel.boot, hne, Proc.unused] at hq

theorem boot_parent (q : Fin NPROC) : (Kernel.boot.proc q).parent = none := by
  by_cases hq : q = slot0 <;> simp [Kernel.boot, hq, Proc.unused]

theorem treeInv_boot : TreeInv Kernel.boot where
  unused_pid q hq := by
    by_cases hne : q = slot0
    · simp [Kernel.boot, hne] at hq
    · simp [Kernel.boot, hne, Proc.unused]
  unused_parent q _ := boot_parent q
  pid_lt q hq := by
    rw [boot_slot0 hq]
    simp [Kernel.boot]
  pid_inj q q' hq hq' _ := by
    rw [boot_slot0 hq, boot_slot0 hq']
  parent_live q pp hpp := by
    rw [boot_parent] at hpp
    cases hpp
  has_parent q hq hinit := absurd (boot_slot0 hq) hinit
  no_used q := by
    by_cases hne : q = slot0 <;> simp [Kernel.boot, hne, Proc.unused]
  init_live := by simp [Kernel.boot]
  init_root := boot_parent _

theorem treeInv_of_reachable {k : Kernel} (h : Reachable (· = Kernel.boot) Kernel.Next k) :
    TreeInv k :=
  h.invariant (fun _ hs => hs ▸ treeInv_boot)
    fun _ _ _ _ hinv hnext => hinv.move (Kernel.step_treeMove hinv hnext)

/-- After `wait` returned the `pid` `r` of a child, `r` is retired. -/
theorem TreeInv.retired_of_wait {p : Fin NPROC} {addr : Nat} {ok : Bool} {k k' : Kernel} {r : Int}
    (hinv : TreeInv k) (h : (wait p addr ok).run k = .ok (some r, k')) (hr : r ≠ -1) :
    Retired r k' := by
  rcases wait_eq_ok h with ⟨-, hnone | hfail⟩ | ⟨pp, -, hzombie, hpid, rfl⟩
  · cases hnone
  · exact absurd (Option.some.inj hfail) hr
  · rw [Option.some.inj hpid]
    have hlive : (k.proc pp).state ≠ .unused := by
      rw [hzombie]
      decide
    refine ⟨(hinv.pid_lt pp hlive).2, fun q hq => ?_⟩
    -- every other slot is as it was, and had another `pid`
    have hne : q ≠ pp := by
      rintro rfl
      simp at hq
    rw [Kernel.setProc_proc_of_ne _ _ _ _ hne] at hq ⊢
    exact fun heq => hne (hinv.pid_inj q pp hq hlive heq)

theorem retired_of_reachable {k k'' : Kernel} {r : Int} (hinv : TreeInv k) (hr : Retired r k)
    (h : Reachable (· = k) Kernel.Next k'') : TreeInv k'' ∧ Retired r k'' :=
  h.invariant (I := fun s => TreeInv s ∧ Retired r s) (fun s hs => by rw [show s = k from hs]; exact ⟨hinv, hr⟩)
    fun _ _ _ _ hi hnext =>
      ⟨hi.1.move (Kernel.step_treeMove hi.1 hnext), hi.2.move (Kernel.step_treeMove hi.1 hnext)⟩

/-- `wait` never returns a retired `pid`. -/
theorem Retired.wait_ne {p : Fin NPROC} {addr : Nat} {ok : Bool} {k k' : Kernel} {r r' : Int}
    (hr : Retired r k) (hr₁ : r ≠ -1) (h : (wait p addr ok).run k = .ok (some r', k')) :
    r' ≠ r := by
  rcases wait_eq_ok h with ⟨-, hnone | hfail⟩ | ⟨pp, -, hzombie, hpid, -⟩
  · cases hnone
  · rw [Option.some.inj hfail]
    exact Ne.symm hr₁
  · rw [Option.some.inj hpid]
    exact hr.2 pp (by rw [hzombie]; decide)

/-- The process tree in every reachable state: a process in use other than
`initproc` has a parent in use; no parent is free or a zombie, so a zombie has
no children; processes in use have distinct `pid`s; and `wait` frees exactly
the zombie child whose `pid` it returns, a `pid` that no later `wait`
returns again. -/
theorem process_tree_invariant {k : Kernel} (hk : Reachable (· = Kernel.boot) Kernel.Next k) :
    (∀ q, (k.proc q).state ≠ .unused → q ≠ k.initproc →
      ∃ pp, (k.proc q).parent = some pp ∧ (k.proc pp).state ≠ .unused) ∧
    (∀ q pp, (k.proc q).parent = some pp →
      (k.proc pp).state ≠ .unused ∧ (k.proc pp).state ≠ .zombie) ∧
    (∀ q z, (k.proc z).state = .zombie → (k.proc q).parent ≠ some z) ∧
    (∀ q q', (k.proc q).state ≠ .unused → (k.proc q').state ≠ .unused →
      (k.proc q).pid = (k.proc q').pid → q = q') ∧
    (∀ p addr ok r k', (wait p addr ok).run k = .ok (some r, k') → r ≠ -1 →
      (∃ pp, (k.proc pp).parent = some p ∧ (k.proc pp).state = .zombie ∧ (k.proc pp).pid = r ∧
        k' = k.setProc pp
          { k.proc pp with pid := 0, parent := none, killed := false, xstate := 0, state := .unused }) ∧
      ∀ k'', Reachable (· = k') Kernel.Next k'' →
        ∀ p' addr' ok' r' k''', (wait p' addr' ok').run k'' = .ok (some r', k''') → r' ≠ r) := by
  have hinv := treeInv_of_reachable hk
  refine ⟨?_, hinv.parent_live, ?_, hinv.pid_inj, ?_⟩
  · intro q hq hinit
    obtain ⟨pp, hpp⟩ := Option.ne_none_iff_exists'.mp (hinv.has_parent q hq hinit)
    exact ⟨pp, hpp, (hinv.parent_live q pp hpp).1⟩
  · intro q z hz hpar
    exact (hinv.parent_live q z hpar).2 hz
  · intro p addr ok r k' hwait hr
    refine ⟨?_, fun k'' hk'' p' addr' ok' r' k''' hwait' => ?_⟩
    · rcases wait_eq_ok hwait with ⟨-, hnone | hfail⟩ | ⟨pp, hchild, hzombie, hpid, hk'⟩
      · cases hnone
      · exact absurd (Option.some.inj hfail) hr
      · exact ⟨pp, hchild, hzombie, (Option.some.inj hpid).symm, hk'⟩
    · have hinv' := hinv.move (wait_treeMove hinv hwait)
      have hret := retired_of_reachable hinv' (hinv.retired_of_wait hwait hr) hk''
      exact hret.2.wait_ne hr hwait'

/-- `initproc` forks, and its child runs and exits: the child is a zombie whose
parent is `initproc`, the state in which `wait` reaps it. -/
theorem process_tree_invariant_zombieChild :
    ∃ k, Reachable (· = Kernel.boot) Kernel.Next k ∧
      ((k.proc slot1).state = .zombie ∧ (k.proc slot1).parent = some slot0) ∧
      (∀ q, (k.proc q).state ≠ .unused → q ≠ k.initproc →
        ∃ pp, (k.proc q).parent = some pp ∧ (k.proc pp).state ≠ .unused) ∧
      (∀ q pp, (k.proc q).parent = some pp →
        (k.proc pp).state ≠ .unused ∧ (k.proc pp).state ≠ .zombie) ∧
      (∀ q z, (k.proc z).state = .zombie → (k.proc q).parent ≠ some z) ∧
      (∀ q q', (k.proc q).state ≠ .unused → (k.proc q').state ≠ .unused →
        (k.proc q).pid = (k.proc q').pid → q = q') ∧
      (∀ p addr ok r k', (wait p addr ok).run k = .ok (some r, k') → r ≠ -1 →
        (∃ pp, (k.proc pp).parent = some p ∧ (k.proc pp).state = .zombie ∧ (k.proc pp).pid = r ∧
          k' = k.setProc pp
            { k.proc pp with pid := 0, parent := none, killed := false, xstate := 0, state := .unused }) ∧
        ∀ k'', Reachable (· = k') Kernel.Next k'' →
          ∀ p' addr' ok' r' k''', (wait p' addr' ok').run k'' = .ok (some r', k''') → r' ≠ r) := by
  have hrun : (Transition.exec Kernel.step Kernel.boot
      [.run slot0, .call slot0 (.fork true true), .run slot1, .call slot1 (.exit 0)]).map
      (fun k => decide ((k.proc slot1).state = .zombie ∧ (k.proc slot1).parent = some slot0)) = some true := by
    decide +kernel
  obtain ⟨k, hs, hp⟩ := Reachable.exists_of_exec_decide (fun _ _ _ h => h) hrun
  exact ⟨k, hs, hp, process_tree_invariant hs⟩

/-! ## `kill` and a free slot -/

/-- After boot, `initproc` runs and calls `kill(0)`.  No process in use has
`pid` 0, yet `kill` returns 0, having marked the free second slot killed; the
next `fork` puts its child there, killed before it ever ran. -/
theorem kill_zero_poisons_next_fork :
    ∃ k, Reachable (· = Kernel.boot) Kernel.Next k ∧ (k.proc slot0).state = .running ∧
      (∀ q, (k.proc q).state ≠ .unused → (k.proc q).pid ≠ 0) ∧
      ∃ k₁, (syscall slot0 (.kill 0)).run k = .ok (some 0, k₁) ∧
        Reachable (· = Kernel.boot) Kernel.Next k₁ ∧
        (k₁.proc slot1).state = .unused ∧ (k₁.proc slot1).killed = true ∧
        ∃ k₂, (syscall slot0 (.fork true true)).run k₁ = .ok (some 2, k₂) ∧
          (k₂.proc slot1).state = .runnable ∧ (k₂.proc slot1).pid = 2 ∧
          (k₂.proc slot1).parent = some slot0 ∧ (k₂.proc slot1).killed = true := by
  have hrun : (exec Kernel.step Kernel.boot [.run slot0]).map (fun k =>
      decide ((k.proc slot0).state = .running ∧
        ∀ q, (k.proc q).state ≠ .unused → (k.proc q).pid ≠ 0) &&
      returnsWith ((syscall slot0 (.kill 0)).run k) fun r k₁ =>
        decide (r = some 0 ∧ (k₁.proc slot1).state = .unused ∧ (k₁.proc slot1).killed = true) &&
        returnsWith ((syscall slot0 (.fork true true)).run k₁) fun r k₂ =>
          decide (r = some 2 ∧ (k₂.proc slot1).state = .runnable ∧ (k₂.proc slot1).pid = 2 ∧
            (k₂.proc slot1).parent = some slot0 ∧ (k₂.proc slot1).killed = true)) = some true := by
    decide +kernel
  have hsound : ∀ k e k', Kernel.step k e = some k' → Kernel.Next k e k' := fun _ _ _ h => h
  obtain ⟨k, hk, hp⟩ := Reachable.exists_of_exec hsound hrun
  rw [Bool.and_eq_true] at hp
  obtain ⟨hbefore, hkill⟩ := hp
  obtain ⟨hrunning, hnozero⟩ := of_decide_eq_true hbefore
  obtain ⟨r, k₁, hres, hafter⟩ := exists_of_returnsWith hkill
  rw [Bool.and_eq_true] at hafter
  obtain ⟨hk₁, hfork⟩ := hafter
  obtain ⟨rfl, hunused, hkilled⟩ := of_decide_eq_true hk₁
  obtain ⟨r', k₂, hres', hk₂⟩ := exists_of_returnsWith hfork
  obtain ⟨rfl, hstate, hpid, hpar, hkilled'⟩ := of_decide_eq_true hk₂
  -- the `kill` is a step of the running `initproc`
  have hstep : Kernel.Next k (.call slot0 (.kill 0)) k₁ := by
    simp [Kernel.Next, Kernel.step, Call.possible, hrunning, hres]
  exact ⟨k, hk, hrunning, hnozero, k₁, hres, hk.step hstep, hunused, hkilled, k₂, hres', hstate,
    hpid, hpar, hkilled'⟩

end Xv6.Tables
