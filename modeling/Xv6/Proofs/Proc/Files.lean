import Xv6.Proofs.Proc.FileCalls
import Xv6.Proofs.Proc.Steps

/-!
# The file books in every reachable state

`FileInv` holds at boot and after every step of `Kernel.step`: the file system
calls keep it (`Xv6.Proofs.Proc.FileCalls`), and this file adds the process
calls and the moves of the scheduler.  In every reachable state, therefore,
the reference count of each file is the number of descriptors of processes in
use that name it, a pipe is allocated exactly when an open file points to it,
and each end is open exactly when its file is; every system call of a running
process returns, but `exit` by `initproc`, so `pipeclose` never finds its
pipe freed.

## Strategy

`fork` copies descriptors and takes a reference for each (`forkFiles_spec`),
`exit` closes every descriptor before `p` becomes a zombie
(`closeFiles_spec`), and `wait` frees a zombie, which holds nothing.  The rest
of what the process calls do, `reparent`, the wakeups, `kill` and the
scheduler's moves, changes no descriptor, no file and no pipe, and does not
move a process into or out of the free or zombie states: `SameFiles` says
this, and `FileInv.of_sameFiles` shows that it keeps the books.
-/

namespace Xv6.Tables

open StateExcept Transition

/-! ## What the rest of a call leaves alone -/

/-- What the file books read of the process table: each process's
descriptors, and whether it is free or a zombie; with the files and pipes. -/
def SameFiles (k k' : Kernel) : Prop :=
  k'.file = k.file ∧ k'.pipe = k.pipe ∧ ∀ q, (k'.proc q).ofile = (k.proc q).ofile ∧
    ((k'.proc q).state = .unused ↔ (k.proc q).state = .unused) ∧
    ((k'.proc q).state = .zombie ↔ (k.proc q).state = .zombie)

instance : IsPreorder Kernel SameFiles where
  refl _ := ⟨rfl, rfl, fun _ => ⟨rfl, Iff.rfl, Iff.rfl⟩⟩
  trans _ _ _ h₁ h₂ := ⟨h₂.1.trans h₁.1, h₂.2.1.trans h₁.2.1, fun q =>
    ⟨(h₂.2.2 q).1.trans (h₁.2.2 q).1, (h₂.2.2 q).2.1.trans (h₁.2.2 q).2.1,
      (h₂.2.2 q).2.2.trans (h₁.2.2 q).2.2⟩⟩

theorem sameFiles_setProc {k : Kernel} {q : Fin NPROC} {pr : Proc}
    (hofile : pr.ofile = (k.proc q).ofile) (hu : pr.state = .unused ↔ (k.proc q).state = .unused)
    (hz : pr.state = .zombie ↔ (k.proc q).state = .zombie) : SameFiles k (k.setProc q pr) := by
  refine ⟨rfl, rfl, fun q' => ?_⟩
  by_cases hq : q' = q
  · subst hq
    simp only [Kernel.setProc_proc_self]
    exact ⟨hofile, hu, hz⟩
  · rw [Kernel.setProc_proc_of_ne _ _ _ _ hq]
    exact ⟨rfl, Iff.rfl, Iff.rfl⟩

/-- Waking a sleeping process. -/
theorem sameFiles_wake (pr : Proc) :
    (if pr.state = .sleeping then { pr with state := .runnable } else pr).state = .unused ↔
      pr.state = .unused := by
  by_cases hs : pr.state = .sleeping <;> simp [hs]

theorem keeps_files_wakeupProc (q : Fin NPROC) : Keeps SameFiles (wakeupProc q) := by
  refine keeps_modify fun k => sameFiles_setProc ?_ (sameFiles_wake _) ?_
  · dsimp only
    split <;> rfl
  · dsimp only
    split <;> simp_all

theorem keeps_files_reparentLoop (p : Fin NPROC) :
    ∀ qs, Keeps SameFiles (reparentLoop p qs)
  | [] => keeps_pure _
  | pp :: pps => by
    unfold reparentLoop
    refine keeps_bind keeps_get fun k => ?_
    dsimp only
    refine keeps_ite (keeps_bind keeps_get fun k' => ?_) (keeps_files_reparentLoop p pps)
    refine keeps_bind (keeps_modify fun k'' => sameFiles_setProc rfl Iff.rfl Iff.rfl) fun _ => ?_
    exact keeps_bind (keeps_files_wakeupProc _) fun _ => keeps_files_reparentLoop p pps

theorem FileInv.of_sameFiles {k k' : Kernel} (hinv : FileInv k) (h : SameFiles k k') : FileInv k' where
  debt_zero f := by
    have hholders : k'.holders = k.holders := by
      funext g
      unfold Kernel.holders
      exact Finset.sum_congr rfl fun q _ => congrFun (Proc.holds_congr (h.2.2 q).2.1 (h.2.2 q).1) g
    unfold Kernel.debt
    rw [hholders, h.1]
    exact hinv.debt_zero f
  idle q hq fd := by
    have hq' : (k.proc q).state = .unused ∨ (k.proc q).state = .zombie := by
      rcases hq with hq | hq
      · exact .inl ((h.2.2 q).2.1.mp hq)
      · exact .inr ((h.2.2 q).2.2.mp hq)
    rw [(h.2.2 q).1]
    exact hinv.idle q hq' fd
  pipes := hinv.pipes.of_eq h.1 h.2.1

theorem SameTree.state {k k' : Kernel} (h : SameTree k k') (q : Fin NPROC) :
    (k'.proc q).state = (k.proc q).state := by
  have hinfo := congrFun (congrArg Prod.fst h) q
  show (k'.proc q).info.state = (k.proc q).info.state
  exact congrArg Proc.state hinfo

theorem FileInv.with_nextpid {k : Kernel} (hinv : FileInv k) (n : Int) :
    FileInv { k with nextpid := n } :=
  ⟨hinv.debt_zero, hinv.idle, hinv.pipes.of_eq rfl rfl⟩

/-- A process slot that holds nothing before and after, as `allocproc` and
`freeproc` leave it. -/
theorem FileInv.setProc_empty {k : Kernel} (hinv : FileInv k) {q : Fin NPROC} {pr : Proc}
    (hold : ∀ fd, (k.proc q).ofile fd = none) (hnew : ∀ fd, pr.ofile fd = none) :
    FileInv (k.setProc q pr) where
  debt_zero f := by
    rw [Kernel.debt_setProc, Proc.holds_eq_zero hold, Proc.holds_eq_zero hnew, hinv.debt_zero]
    rfl
  idle := hinv.idle.setProc fun _ => hnew
  pipes := hinv.pipes.of_eq rfl rfl

/-! ## `fork` -/

theorem allocproc_ok (memOk : Bool) (k : Kernel) :
    ∃ r k', (allocproc memOk).run k = .ok (r, k') := by
  unfold allocproc
  cases hfind : (List.finRange NPROC).find? fun q => (k.proc q).state = .unused with
  | none => exact ⟨none, k, by simp [hfind]⟩
  | some q => cases memOk <;> simp [hfind, allocpid, modifyProc, freeproc]

theorem FileInv.allocproc {k k' : Kernel} {memOk : Bool} {r : Option (Fin NPROC)} (hinv : FileInv k)
    (h : (allocproc memOk).run k = .ok (r, k')) : FileInv k' := by
  cases r with
  | none =>
    rcases allocproc_eq_none h with rfl | ⟨q, hq, rfl⟩
    · exact hinv
    · have hnone := hinv.idle q (.inl hq)
      exact (hinv.with_nextpid _).setProc_empty hnone hnone
  | some q =>
    obtain ⟨hq, rfl⟩ := allocproc_eq_some h
    have hnone := hinv.idle q (.inl hq)
    exact (hinv.with_nextpid _).setProc_empty hnone hnone

/-- The loop of `fork` that copies the descriptors of `p` into the new `np`:
each `filedup` is one new descriptor. -/
theorem forkFiles_spec {p np : Fin NPROC} (hne : p ≠ np) :
    ∀ (fds : List (Fin NOFILE)) (k : Kernel), FileInv k → (k.proc p).state = .running →
      (k.proc np).state = .used → (∀ i ∈ fds, (k.proc np).ofile i = none) → fds.Nodup →
      ∃ k', (forkFiles p np fds).run k = .ok ((), k') ∧ FileInv k'
  | [], k, hinv, _, _, _, _ => ⟨k, rfl, hinv⟩
  | i :: is, k, hinv, hp, hnp, hfree, hnodup => by
    have hlive : (k.proc p).state ≠ .unused := by
      rw [hp]
      decide
    have hlive' : (k.proc np).state ≠ .unused := by
      rw [hnp]
      decide
    obtain ⟨hi, his⟩ := List.nodup_cons.mp hnodup
    cases hof : (k.proc p).ofile i with
    | none =>
      obtain ⟨k', hrun, hinv'⟩ := forkFiles_spec hne is k hinv hp hnp
        (fun j hj => hfree j (List.mem_cons_of_mem _ hj)) his
      refine ⟨k', ?_, hinv'⟩
      simp only [forkFiles, StateT.run_bind, StateT.run_get, pure_eq_ok, ok_bind, hof]
      exact hrun
    | some f =>
      have href := hinv.one_le_ref hlive hof
      set k₁ := k.setFile f { k.file f with ref := (k.file f).ref + 1 }
      set k₂ := k₁.setProc np { k₁.proc np with ofile := Function.update (k₁.proc np).ofile i (some f) }
      have hfree_i : (k₁.proc np).ofile i = none := hfree i List.mem_cons_self
      have hinv₂ : FileInv k₂ := by
        refine ⟨fun g => ?_, ?_, ?_⟩
        · rw [Kernel.debt_setOfile _ (show (k₁.proc np).state ≠ .unused from hlive'),
            Kernel.debt_setFile, hinv.debt_zero g, hfree_i]
          by_cases hg : g = f
          · subst hg
            simp
          · simp [hg, Ne.symm hg]
        · have hnp₁ : (k₁.proc np).state = .used := hnp
          exact hinv.idle.setProc fun h => by
            rcases h with h | h <;> simp [hnp₁] at h
        · exact (hinv.pipes.setRef (by omega) (by omega)).of_eq rfl rfl
      obtain ⟨k', hrun, hinv'⟩ := forkFiles_spec hne is k₂ hinv₂ (by simp [k₂, k₁, hne, hp])
        (by simp [k₂, k₁, hnp]) (fun j hj => by
          have hji : j ≠ i := fun h => hi (h ▸ hj)
          simp [k₂, k₁, hji, hfree j (List.mem_cons_of_mem _ hj)]) his
      refine ⟨k', ?_, hinv'⟩
      simp only [forkFiles, StateT.run_bind, StateT.run_get, pure_eq_ok, ok_bind, hof,
        filedup_run href]
      exact hrun

theorem fork_spec {k : Kernel} {p : Fin NPROC} (hinv : FileInv k) (hp : (k.proc p).state = .running)
    (allocOk copyOk : Bool) :
    ∃ r k', (fork p allocOk copyOk).run k = .ok (r, k') ∧ FileInv k' := by
  obtain ⟨x, k₁, halloc⟩ := allocproc_ok allocOk k
  have hinv₁ := hinv.allocproc halloc
  cases x with
  | none => exact ⟨-1, k₁, by simp [fork, halloc], hinv₁⟩
  | some np =>
    obtain ⟨hnp, hk₁⟩ := allocproc_eq_some halloc
    have hpnp : p ≠ np := by
      rintro rfl
      rw [hnp] at hp
      cases hp
    have hnone₁ : ∀ fd, (k₁.proc np).ofile fd = none := by
      rw [hk₁]
      simpa using hinv.idle np (.inl hnp)
    cases copyOk with
    | false =>
      -- the child's memory could not be copied: freeproc gives the slot back
      set freed := { k₁.proc np with pid := 0, parent := none, killed := false, xstate := 0, state := .unused }
      refine ⟨-1, k₁.setProc np freed, by simp [fork, halloc, freeproc, modifyProc, freed], ?_⟩
      exact hinv₁.setProc_empty hnone₁ hnone₁
    | true =>
      have hp₁ : (k₁.proc p).state = .running := by simp [hk₁, hpnp, hp]
      have hnp₁ : (k₁.proc np).state = .used := by simp [hk₁]
      obtain ⟨k₂, hfiles, hinv₂⟩ := forkFiles_spec hpnp (List.finRange NOFILE) k₁ hinv₁ hp₁ hnp₁
        (fun i _ => hnone₁ i) (List.nodup_finRange _)
      have hnp₂ : (k₂.proc np).state = .used := by
        rw [(keeps_forkFiles p np _ _ _ _ hfiles).state, hnp₁]
      -- the child gets its parent, then becomes runnable
      set k₃ := k₂.setProc np { k₂.proc np with parent := some p }
      set k₄ := k₃.setProc np { k₃.proc np with state := .runnable }
      have h₃ : SameFiles k₂ k₃ := sameFiles_setProc rfl Iff.rfl Iff.rfl
      have h₄ : SameFiles k₃ k₄ := sameFiles_setProc rfl (by simp [k₃, hnp₂]) (by simp [k₃, hnp₂])
      have hsame : SameFiles k₂ k₄ := trans_of SameFiles h₃ h₄
      refine ⟨(k₂.proc np).pid, k₄, ?_, hinv₂.of_sameFiles hsame⟩
      simp only [fork, StateT.run_bind, halloc, ok_bind, Bool.not_true, Bool.false_eq_true,
        if_false, hfiles]
      rfl

/-! ## `exit` -/

/-- The loop of `exit` that closes the descriptors of `p`: each `fileclose`
drops the reference its descriptor held, and a closed descriptor stays closed. -/
theorem closeFiles_spec {p : Fin NPROC} :
    ∀ (fds : List (Fin NOFILE)) (k : Kernel), FileInv k → (k.proc p).state = .running →
      ∃ k', (closeFiles p fds).run k = .ok ((), k') ∧ FileInv k' ∧
        (k'.proc p).state = .running ∧
        ∀ fd, (k.proc p).ofile fd = none ∨ fd ∈ fds → (k'.proc p).ofile fd = none
  | [], k, hinv, hp => ⟨k, rfl, hinv, hp, fun fd h => h.resolve_right List.not_mem_nil⟩
  | fd :: fds, k, hinv, hp => by
    have hlive : (k.proc p).state ≠ .unused := by
      rw [hp]
      decide
    cases hof : (k.proc p).ofile fd with
    | none =>
      obtain ⟨k', hrun, hinv', hp', hclosed⟩ := closeFiles_spec fds k hinv hp
      refine ⟨k', ?_, hinv', hp', fun fd' h => hclosed fd' ?_⟩
      · simp only [closeFiles, StateT.run_bind, StateT.run_get, pure_eq_ok, ok_bind, hof]
        exact hrun
      · rcases h with h | h
        · exact .inl h
        · rcases List.mem_cons.mp h with rfl | h
          · exact .inl hof
          · exact .inr h
    | some f =>
      obtain ⟨k₁, hclose, hproc, hpipes, hf, hother, -⟩ :=
        fileclose_spec hinv.pipes (hinv.one_le_ref hlive hof)
      have hp₁ : (k₁.proc p).state = .running := by rw [hproc, hp]
      have hof₁ : (k₁.proc p).ofile fd = some f := by rw [hproc, hof]
      set k₂ := k₁.setProc p { k₁.proc p with ofile := Function.update (k₁.proc p).ofile fd none }
      have hinv₂ : FileInv k₂ := by
        refine ⟨fun g => ?_, (hinv.idle.of_proc_eq hproc).setOfile hp₁ fd none,
          hpipes.of_eq rfl rfl⟩
        rw [Kernel.debt_setOfile _ (show (k₁.proc p).state ≠ .unused by rw [hp₁]; decide),
          debt_of_close hproc hf hother, hinv.debt_zero g, hof₁]
        by_cases hg : g = f
        · subst hg
          simp
        · simp [Ne.symm hg, hg]
      obtain ⟨k', hrun, hinv', hp', hclosed⟩ := @closeFiles_spec p fds k₂ hinv₂ (by simp [k₂, hp₁])
      refine ⟨k', ?_, hinv', hp', fun fd' h => hclosed fd' ?_⟩
      · simp only [closeFiles, StateT.run_bind, StateT.run_get, pure_eq_ok, ok_bind, hof, hclose]
        exact hrun
      · -- the descriptor just closed is closed in `k₂`; the others are as in `k`
        by_cases hfd : fd' = fd
        · subst hfd
          exact .inl (by simp [k₂])
        · have hsame : (k₂.proc p).ofile fd' = (k.proc p).ofile fd' := by
            simp [k₂, hfd, hproc]
          rcases h with h | h
          · exact .inl (hsame.trans h)
          · exact .inr ((List.mem_cons.mp h).resolve_left hfd)

theorem reparentLoop_ok (p : Fin NPROC) :
    ∀ (qs : List (Fin NPROC)) (k : Kernel), ∃ k', (reparentLoop p qs).run k = .ok ((), k')
  | [], k => ⟨k, rfl⟩
  | q :: qs, k => by
    unfold reparentLoop
    simp only [StateT.run_bind, StateT.run_get, pure_eq_ok, ok_bind]
    split
    · simp only [modifyProc, wakeupProc, StateT.run_bind, StateT.run_modify]
      exact reparentLoop_ok p qs _
    · exact reparentLoop_ok p qs k

/-- `exit` by a running process other than `initproc`: the zombie it becomes
has closed every descriptor, and the rest of `exit` moves no file. -/
theorem exit_spec {k : Kernel} {p : Fin NPROC} (hinv : FileInv k)
    (hp : (k.proc p).state = .running) (hinit : p ≠ k.initproc) (status : Int) :
    ∃ k', (exit p status).run k = .ok ((), k') ∧ FileInv k' := by
  obtain ⟨k₁, hclose, hinv₁, -, hclosed⟩ := @closeFiles_spec p (List.finRange NOFILE) k hinv hp
  obtain ⟨k₂, hrep⟩ := reparentLoop_ok p (List.finRange NPROC) k₁
  have h₂ : SameFiles k₁ k₂ := keeps_files_reparentLoop p _ _ _ _ hrep
  -- whatever `reparent` and the wakeup of the parent did, `p` holds nothing
  have hzombie : ∀ k₃, SameFiles k₁ k₃ →
      FileInv (k₃.setProc p { k₃.proc p with xstate := status, state := .zombie }) := by
    intro k₃ h₃
    have hoff : ∀ fd, (k₃.proc p).ofile fd = none := fun fd => by
      rw [(h₃.2.2 p).1]
      exact hclosed fd (.inr (List.mem_finRange fd))
    exact (hinv₁.of_sameFiles h₃).setProc_empty hoff hoff
  cases hpar : (k₂.proc p).parent with
  | none =>
    exact ⟨_, by simp [exit, hinit, hclose, reparent, hrep, hpar, modifyProc], hzombie k₂ h₂⟩
  | some pp =>
    set k₃ := k₂.setProc pp (if (k₂.proc pp).state = .sleeping then { k₂.proc pp with state := .runnable } else k₂.proc pp)
    have hwake : (wakeupProc pp).run k₂ = .ok ((), k₃) := rfl
    have h₃ : SameFiles k₁ k₃ := trans_of SameFiles h₂ (keeps_files_wakeupProc pp _ _ _ hwake)
    exact ⟨_, by simp [exit, hinit, hclose, reparent, hrep, hpar, hwake, modifyProc], hzombie k₃ h₃⟩

/-! ## `wait` and `kill` -/

theorem wait_ok (p : Fin NPROC) (addr : Nat) (copyoutOk : Bool) (k : Kernel) :
    ∃ r k', (wait p addr copyoutOk).run k = .ok (r, k') := by
  unfold wait
  simp only [StateT.run_bind, StateT.run_get, pure_eq_ok, ok_bind]
  split
  · split
    · exact ⟨_, _, rfl⟩
    · exact ⟨_, _, rfl⟩
  · split
    · exact ⟨_, _, rfl⟩
    · exact ⟨_, _, rfl⟩

/-- `wait` frees a zombie, which has closed its files already. -/
theorem FileInv.wait {k k' : Kernel} {p : Fin NPROC} {addr : Nat} {ok : Bool} {r : Option Int}
    (hinv : FileInv k) (h : (wait p addr ok).run k = .ok (r, k')) : FileInv k' := by
  rcases wait_eq_ok h with ⟨rfl, -⟩ | ⟨pp, -, hz, -, rfl⟩
  · exact hinv
  · have hnone := hinv.idle pp (.inr hz)
    exact hinv.setProc_empty hnone hnone

theorem kill_ok (pid : Int) (k : Kernel) : ∃ r k', (kill pid).run k = .ok (r, k') := by
  unfold kill
  simp only [StateT.run_bind, StateT.run_get, pure_eq_ok, ok_bind]
  split
  · exact ⟨_, _, rfl⟩
  · exact ⟨_, _, rfl⟩

theorem FileInv.kill {k k' : Kernel} {pid r : Int} (hinv : FileInv k)
    (h : (kill pid).run k = .ok (r, k')) : FileInv k' := by
  rcases kill_eq_ok h with ⟨-, rfl, -⟩ | ⟨q, -, -, rfl⟩
  · exact hinv
  · -- a killed sleeper is made runnable: neither state is free or a zombie
    refine hinv.of_sameFiles (sameFiles_setProc rfl ?_ ?_)
    all_goals
      by_cases hs : (k.proc q).state = .sleeping <;> simp [hs]

/-! ## Every reachable state -/

/-- Every system call of a running process returns, but `exit` by `initproc`,
and keeps the file books. -/
theorem syscall_spec {k : Kernel} {p : Fin NPROC} {c : Call} (hinv : FileInv k)
    (hp : (k.proc p).state = .running) (hc : c.possible k = true) :
    (∃ r k', (syscall p c).run k = .ok (r, k') ∧ FileInv k') ∨
      (p = k.initproc ∧ (syscall p c).run k = .error "init exiting") := by
  cases c with
  | openFile found omode =>
    obtain ⟨r, k', h, hk'⟩ := sysOpen_spec hinv hp found omode
    exact .inl ⟨some r, k', by simp [syscall, h], hk'⟩
  | pipe kalloc ok =>
    have hfresh : ∀ a, kalloc = some a → k.pipe a = none := by
      rintro a rfl
      simpa [Call.possible] using hc
    obtain ⟨r, k', h, hk', -⟩ := sysPipe_spec hinv hp hfresh ok
    exact .inl ⟨some r, k', by simp [syscall, h], hk'⟩
  | dup fd =>
    obtain ⟨r, k', h, hk'⟩ := sysDup_spec hinv hp fd
    exact .inl ⟨some r, k', by simp [syscall, h], hk'⟩
  | close fd =>
    obtain ⟨r, k', h, hk'⟩ := sysClose_spec hinv hp fd
    exact .inl ⟨some r, k', by simp [syscall, h], hk'⟩
  | fork allocOk copyOk =>
    obtain ⟨r, k', h, hk'⟩ := fork_spec hinv hp allocOk copyOk
    exact .inl ⟨some r, k', by simp [syscall, h], hk'⟩
  | exit status =>
    by_cases hinit : p = k.initproc
    · exact .inr ⟨hinit, by simp [syscall, exit, hinit]⟩
    · obtain ⟨k', h, hk'⟩ := exit_spec hinv hp hinit status
      exact .inl ⟨some 0, k', by simp [syscall, h], hk'⟩
  | wait addr ok =>
    obtain ⟨r, k', h⟩ := wait_ok p addr ok k
    exact .inl ⟨r, k', h, hinv.wait h⟩
  | kill pid =>
    obtain ⟨r, k', h⟩ := kill_ok pid k
    exact .inl ⟨some r, k', by simp [syscall, h], hinv.kill h⟩

/-- The scheduler, `sleep` and `wakeup` move a process among states that are
neither free nor a zombie. -/
theorem sameFiles_move {k k' : Kernel} {p : Fin NPROC} {s t : Procstate}
    (h : k.move p s t = some k') (hu : t = .unused ↔ s = .unused)
    (hz : t = .zombie ↔ s = .zombie) : SameFiles k k' := by
  unfold Kernel.move at h
  split_ifs at h with hs
  rw [← Option.some.inj h]
  exact sameFiles_setProc rfl (by rw [hs]; exact hu) (by rw [hs]; exact hz)

theorem FileInv.step {k k' : Kernel} {e : Event} (hinv : FileInv k) (h : k.step e = some k') :
    FileInv k' := by
  cases e with
  | call p c =>
    simp only [Kernel.step] at h
    split_ifs at h with hguard
    rcases syscall_spec hinv hguard.1 hguard.2 with ⟨r, k'', hres, hk''⟩ | ⟨-, hres⟩
    · rw [hres] at h
      cases r with
      | some _ =>
        rw [← Option.some.inj h]
        exact hk''
      | none =>
        -- `wait` went to sleep, from the running state
        rw [← Option.some.inj h]
        have hk : k'' = k := syscall_eq_none hres
        subst hk
        exact hk''.of_sameFiles
          (sameFiles_setProc rfl (by simp [hguard.1]) (by simp [hguard.1]))
    · rw [hres] at h
      cases h
  | run p => exact hinv.of_sameFiles (sameFiles_move h (by decide) (by decide))
  | yield p => exact hinv.of_sameFiles (sameFiles_move h (by decide) (by decide))
  | sleep p => exact hinv.of_sameFiles (sameFiles_move h (by decide) (by decide))
  | wakeup p => exact hinv.of_sameFiles (sameFiles_move h (by decide) (by decide))

theorem boot_ofile (q : Fin NPROC) (fd : Fin NOFILE) : (Kernel.boot.proc q).ofile fd = none := by
  by_cases hq : q = slot0 <;> simp [Kernel.boot, hq, Proc.unused]

theorem not_isEnd_boot (a : Nat) (w : Bool) (f : Fin NFILE) : ¬ Kernel.boot.IsEnd a w f := by
  simp [Kernel.IsEnd, File.pipeEnd, Kernel.boot, File.free]

theorem fileInv_boot : FileInv Kernel.boot where
  debt_zero f := by
    have hholders : Kernel.boot.holders f = 0 :=
      Finset.sum_eq_zero fun q _ => Proc.holds_eq_zero (boot_ofile q)
    unfold Kernel.debt
    rw [hholders]
    rfl
  idle q _ := boot_ofile q
  pipes := ⟨fun _ _ => rfl, fun a w f h => absurd h (not_isEnd_boot a w f),
    fun _ _ h => by simp [Kernel.boot] at h, fun _ _ h => by simp [Kernel.boot] at h,
    fun a w f _ h => absurd h (not_isEnd_boot a w f)⟩

theorem fileInv_of_reachable {k : Kernel} (h : Reachable (· = Kernel.boot) Kernel.Next k) :
    FileInv k :=
  h.invariant (fun _ hs => hs ▸ fileInv_boot) fun _ _ _ _ hinv hnext => hinv.step hnext

theorem FileInv.not_named {k : Kernel} (hinv : FileInv k) {f : Fin NFILE}
    (hf : (k.file f).ref = 0) (q : Fin NPROC) (fd : Fin NOFILE) :
    (k.proc q).ofile fd ≠ some f := by
  intro h
  by_cases hq : (k.proc q).state = .unused
  · rw [hinv.idle q (.inl hq) fd] at h
    cases h
  · have := hinv.one_le_ref hq h
    omega

/-- The open files and the pipes between system calls: each file's reference
count is its descriptors in processes in use, a file with no reference is
named by none, a pipe is allocated exactly when an open file points to it and
an end is open exactly when its file is; no system call of a running process
panics, so `pipeclose` never meets a freed pipe; and the failure paths of
`sys_pipe` and `pipealloc` leave the processes, the pipes and the references
as they were. -/
theorem open_file_accounting {k : Kernel} (hk : Reachable (· = Kernel.boot) Kernel.Next k) :
    (∀ f, (k.file f).ref = ((Finset.univ.filter fun x : Fin NPROC × Fin NOFILE =>
        (k.proc x.1).state ≠ .unused ∧ (k.proc x.1).ofile x.2 = some f).card : Int)) ∧
    (∀ f, (k.file f).ref = 0 → ∀ q fd, (k.proc q).ofile fd ≠ some f) ∧
    (∀ a, (k.pipe a).isSome ↔
      ∃ f, 0 < (k.file f).ref ∧ (k.file f).type = .pipe ∧ (k.file f).pipe = a) ∧
    (∀ a pi, k.pipe a = some pi →
      (pi.readopen = true ↔ ∃ f, 0 < (k.file f).ref ∧ (k.file f).type = .pipe ∧
        (k.file f).pipe = a ∧ (k.file f).writable = false) ∧
      (pi.writeopen = true ↔ ∃ f, 0 < (k.file f).ref ∧ (k.file f).type = .pipe ∧
        (k.file f).pipe = a ∧ (k.file f).writable = true)) ∧
    (∀ p c msg, (k.proc p).state = .running → c.possible k = true →
      (syscall p c).run k = .error msg → p = k.initproc ∧ msg = "init exiting") ∧
    (∀ p kalloc ok k', (k.proc p).state = .running → (∀ a, kalloc = some a → k.pipe a = none) →
      (sysPipe p kalloc ok).run k = .ok (-1, k') →
      k'.proc = k.proc ∧ k'.pipe = k.pipe ∧ ∀ f, (k'.file f).ref = (k.file f).ref) ∧
    (∀ kalloc k', (∀ a, kalloc = some a → k.pipe a = none) →
      (pipealloc kalloc).run k = .ok (none, k') →
      k'.proc = k.proc ∧ k'.pipe = k.pipe ∧ ∀ f, (k'.file f).ref = (k.file f).ref) := by
  have hinv := fileInv_of_reachable hk
  refine ⟨fun f => ?_, fun f hf => hinv.not_named hf, hinv.pipes.pipe_isSome_iff,
    fun a pi hpi => ⟨hinv.pipes.isOpen_iff hpi false, hinv.pipes.isOpen_iff hpi true⟩,
    fun p c msg hp hc h => ?_, fun p kalloc ok k' hp hfresh h => ?_, fun kalloc k' hfresh h => ?_⟩
  · -- no reference is owed
    rw [← Kernel.holders_eq_card]
    have hd := hinv.debt_zero f
    unfold Kernel.debt at hd
    omega
  · rcases syscall_spec hinv hp hc with ⟨r, k', hok, -⟩ | ⟨hinit, herr⟩
    · rw [hok] at h
      cases h
    · rw [herr] at h
      exact ⟨hinit, (Except.error.inj h).symm⟩
  · obtain ⟨r, k'', hrun, -, hfail⟩ := sysPipe_spec hinv hp hfresh ok
    rw [hrun] at h
    obtain ⟨rfl, rfl⟩ := Prod.mk.inj (Except.ok.inj h)
    exact hfail rfl
  · rcases pipealloc_spec hinv.pipes hfresh with
      ⟨k'', hrun, hproc, -, hpipe, hrefs⟩ | ⟨f₀, f₁, a, k'', hrun, -⟩
    · rw [hrun] at h
      obtain ⟨-, rfl⟩ := Prod.mk.inj (Except.ok.inj h)
      exact ⟨hproc, hpipe, hrefs⟩
    · rw [hrun] at h
      cases h

/-- `initproc` runs, opens a pipe, and forks: the two files of the pipe are then
held by both processes, two references each. -/
theorem open_file_accounting_pipeFork :
    ∃ k, Reachable (· = Kernel.boot) Kernel.Next k ∧
      ((List.finRange NFILE).map fun f => (k.file f).ref).sum = 4 ∧
      (∀ f, (k.file f).ref = ((Finset.univ.filter fun x : Fin NPROC × Fin NOFILE =>
          (k.proc x.1).state ≠ .unused ∧ (k.proc x.1).ofile x.2 = some f).card : Int)) ∧
      (∀ f, (k.file f).ref = 0 → ∀ q fd, (k.proc q).ofile fd ≠ some f) ∧
      (∀ a, (k.pipe a).isSome ↔
        ∃ f, 0 < (k.file f).ref ∧ (k.file f).type = .pipe ∧ (k.file f).pipe = a) ∧
      (∀ a pi, k.pipe a = some pi →
        (pi.readopen = true ↔ ∃ f, 0 < (k.file f).ref ∧ (k.file f).type = .pipe ∧
          (k.file f).pipe = a ∧ (k.file f).writable = false) ∧
        (pi.writeopen = true ↔ ∃ f, 0 < (k.file f).ref ∧ (k.file f).type = .pipe ∧
          (k.file f).pipe = a ∧ (k.file f).writable = true)) ∧
      (∀ p c msg, (k.proc p).state = .running → c.possible k = true →
        (syscall p c).run k = .error msg → p = k.initproc ∧ msg = "init exiting") ∧
      (∀ p kalloc ok k', (k.proc p).state = .running → (∀ a, kalloc = some a → k.pipe a = none) →
        (sysPipe p kalloc ok).run k = .ok (-1, k') →
        k'.proc = k.proc ∧ k'.pipe = k.pipe ∧ ∀ f, (k'.file f).ref = (k.file f).ref) ∧
      (∀ kalloc k', (∀ a, kalloc = some a → k.pipe a = none) →
        (pipealloc kalloc).run k = .ok (none, k') →
        k'.proc = k.proc ∧ k'.pipe = k.pipe ∧ ∀ f, (k'.file f).ref = (k.file f).ref) := by
  have hrun : (Transition.exec Kernel.step Kernel.boot
      [.run slot0, .call slot0 (.pipe (some 4096) true), .call slot0 (.fork true true)]).map
      (fun k => decide (((List.finRange NFILE).map fun f => (k.file f).ref).sum = 4)) = some true := by
    decide +kernel
  obtain ⟨k, hs, hp⟩ := Reachable.exists_of_exec_decide (fun _ _ _ h => h) hrun
  exact ⟨k, hs, hp, open_file_accounting hs⟩

end Xv6.Tables
