import Xv6.Proofs.Proc.Frame

/-!
# The process tree

Between steps, the process table is a tree rooted at `initproc`: every process
in use has a `pid` of its own below `nextpid`, every process but `initproc`
has a parent, and a parent is never free or a zombie, so a zombie has no
children (`TreeInv`).  `fork` links a new child to a running parent, `exit`
hands the children to `initproc` before the process becomes a zombie, and
`wait` frees only a zombie, which has no children.  A `pid` that `wait`
returned is never seen again, since `nextpid` only grows.

What the invariant reads of a process is its `pid`, its parent, and whether it
is free, half made, a zombie or alive (`Kernel.shape`).  The file system calls,
`kill` and the scheduler keep the shape; `fork`, `exit` and `wait` each get a
lemma of their own.

`kill` is the exception to "a free slot is left alone": it looks for the `pid`
in every slot, and a free slot has `pid` 0.  `kill(0)` marks the first free
slot killed, and `allocproc` does not clear the mark, so the next child of
`fork` starts killed (`kill_zero_poisons_next_fork`).
-/

namespace Xv6.Tables

open StateExcept Transition

/-! ## What the tree invariant reads -/

/-- The state as the tree sees it: sleeping, runnable and running are all
alive. -/
def Procstate.settle : Procstate → Procstate
  | .sleeping => .runnable
  | .running => .runnable
  | s => s

@[simp] theorem Procstate.settle_eq_unused {s : Procstate} : s.settle = .unused ↔ s = .unused := by
  cases s <;> simp [settle]

@[simp] theorem Procstate.settle_eq_used {s : Procstate} : s.settle = .used ↔ s = .used := by
  cases s <;> simp [settle]

@[simp] theorem Procstate.settle_eq_zombie {s : Procstate} : s.settle = .zombie ↔ s = .zombie := by
  cases s <;> simp [settle]

/-- What the tree invariant reads of the tables. -/
def Kernel.shape (k : Kernel) :
    (Fin NPROC → Procstate × Int × Option (Fin NPROC)) × Int × Fin NPROC :=
  (fun q => ((k.proc q).state.settle, (k.proc q).pid, (k.proc q).parent), k.nextpid, k.initproc)

/-- `k'` has the shape of `k`. -/
def SameShape (k k' : Kernel) : Prop := k'.shape = k.shape

instance : IsPreorder Kernel SameShape where
  refl _ := rfl
  trans _ _ _ h₁ h₂ := h₂.trans h₁

section SameShape

variable {k k' : Kernel}

theorem SameShape.settle (h : SameShape k k') (q : Fin NPROC) :
    (k'.proc q).state.settle = (k.proc q).state.settle :=
  congrArg (fun x => x.1) (congrFun (congrArg Prod.fst h) q)

theorem SameShape.pid (h : SameShape k k') (q : Fin NPROC) : (k'.proc q).pid = (k.proc q).pid :=
  congrArg (fun x => x.2.1) (congrFun (congrArg Prod.fst h) q)

theorem SameShape.parent (h : SameShape k k') (q : Fin NPROC) :
    (k'.proc q).parent = (k.proc q).parent :=
  congrArg (fun x => x.2.2) (congrFun (congrArg Prod.fst h) q)

theorem SameShape.nextpid (h : SameShape k k') : k'.nextpid = k.nextpid :=
  congrArg (fun x => x.2.1) h

theorem SameShape.initproc (h : SameShape k k') : k'.initproc = k.initproc :=
  congrArg (fun x => x.2.2) h

theorem SameShape.unused_iff (h : SameShape k k') (q : Fin NPROC) :
    (k'.proc q).state = .unused ↔ (k.proc q).state = .unused := by
  rw [← Procstate.settle_eq_unused, h.settle, Procstate.settle_eq_unused]

theorem SameShape.used_iff (h : SameShape k k') (q : Fin NPROC) :
    (k'.proc q).state = .used ↔ (k.proc q).state = .used := by
  rw [← Procstate.settle_eq_used, h.settle, Procstate.settle_eq_used]

theorem SameShape.zombie_iff (h : SameShape k k') (q : Fin NPROC) :
    (k'.proc q).state = .zombie ↔ (k.proc q).state = .zombie := by
  rw [← Procstate.settle_eq_zombie, h.settle, Procstate.settle_eq_zombie]

theorem SameTree.sameShape (h : SameTree k k') : SameShape k k' := by
  have hinfo : ∀ q, (k'.proc q).info = (k.proc q).info := fun q =>
    congrFun (congrArg Prod.fst h) q
  have hrest : (k'.nextpid, k'.initproc) = (k.nextpid, k.initproc) := congrArg Prod.snd h
  unfold SameShape Kernel.shape
  rw [Prod.mk.injEq] at hrest
  congr 1
  · funext q
    have hq := hinfo q
    simp only [Proc.info, Proc.mk.injEq] at hq
    rw [hq.1, hq.2.1, hq.2.2.1]
  · rw [hrest.1, hrest.2]

end SameShape

/-! ## The invariant -/

/-- The process table between steps. -/
structure TreeInv (k : Kernel) : Prop where
  unused_pid : ∀ q, (k.proc q).state = .unused → (k.proc q).pid = 0
  unused_parent : ∀ q, (k.proc q).state = .unused → (k.proc q).parent = none
  pid_lt : ∀ q, (k.proc q).state ≠ .unused → 1 ≤ (k.proc q).pid ∧ (k.proc q).pid < k.nextpid
  pid_inj : ∀ q q', (k.proc q).state ≠ .unused → (k.proc q').state ≠ .unused →
    (k.proc q).pid = (k.proc q').pid → q = q'
  parent_live : ∀ q pp, (k.proc q).parent = some pp →
    (k.proc pp).state ≠ .unused ∧ (k.proc pp).state ≠ .zombie
  has_parent : ∀ q, (k.proc q).state ≠ .unused → q ≠ k.initproc → (k.proc q).parent ≠ none
  no_used : ∀ q, (k.proc q).state ≠ .used
  init_live : (k.proc k.initproc).state ≠ .unused ∧ (k.proc k.initproc).state ≠ .zombie
  init_root : (k.proc k.initproc).parent = none

theorem TreeInv.of_sameShape {k k' : Kernel} (hinv : TreeInv k) (h : SameShape k k') :
    TreeInv k' where
  unused_pid q hq := by
    rw [h.pid]
    exact hinv.unused_pid q ((h.unused_iff q).mp hq)
  unused_parent q hq := by
    rw [h.parent]
    exact hinv.unused_parent q ((h.unused_iff q).mp hq)
  pid_lt q hq := by
    rw [h.pid, h.nextpid]
    exact hinv.pid_lt q (mt (h.unused_iff q).mpr hq)
  pid_inj q q' hq hq' hpid := by
    rw [h.pid, h.pid] at hpid
    exact hinv.pid_inj q q' (mt (h.unused_iff q).mpr hq) (mt (h.unused_iff q').mpr hq') hpid
  parent_live q pp hpp := by
    rw [h.parent] at hpp
    have hlive := hinv.parent_live q pp hpp
    exact ⟨mt (h.unused_iff pp).mp hlive.1, mt (h.zombie_iff pp).mp hlive.2⟩
  has_parent q hq hinit := by
    rw [h.parent]
    rw [h.initproc] at hinit
    exact hinv.has_parent q (mt (h.unused_iff q).mpr hq) hinit
  no_used q := mt (h.used_iff q).mp (hinv.no_used q)
  init_live := by
    rw [h.initproc]
    exact ⟨mt (h.unused_iff _).mp hinv.init_live.1, mt (h.zombie_iff _).mp hinv.init_live.2⟩
  init_root := by
    rw [h.initproc, h.parent]
    exact hinv.init_root

/-- `q` looks the same to the tree in `k` and in `k'`. -/
def Agree (k k' : Kernel) (q : Fin NPROC) : Prop :=
  (k'.proc q).state.settle = (k.proc q).state.settle ∧ (k'.proc q).pid = (k.proc q).pid ∧
    (k'.proc q).parent = (k.proc q).parent

section Agree

variable {k k' : Kernel} {q : Fin NPROC}

theorem Agree.of_eq (h : k'.proc q = k.proc q) : Agree k k' q := by
  simp [Agree, h]

theorem Agree.unused_iff (h : Agree k k' q) :
    (k'.proc q).state = .unused ↔ (k.proc q).state = .unused := by
  rw [← Procstate.settle_eq_unused, h.1, Procstate.settle_eq_unused]

theorem Agree.used_iff (h : Agree k k' q) : (k'.proc q).state = .used ↔ (k.proc q).state = .used := by
  rw [← Procstate.settle_eq_used, h.1, Procstate.settle_eq_used]

theorem Agree.zombie_iff (h : Agree k k' q) :
    (k'.proc q).state = .zombie ↔ (k.proc q).state = .zombie := by
  rw [← Procstate.settle_eq_zombie, h.1, Procstate.settle_eq_zombie]

end Agree

/-- A new child `np`, in a slot that was free, with the next `pid`, linked to
the running `p`: what `fork` does to the tree. -/
theorem TreeInv.spawn {k k' : Kernel} {p np : Fin NPROC} (hinv : TreeInv k)
    (hnp : (k.proc np).state = .unused) (hp : (k.proc p).state = .running)
    (hstate : (k'.proc np).state = .runnable) (hpid : (k'.proc np).pid = k.nextpid)
    (hpar : (k'.proc np).parent = some p) (hother : ∀ q, q ≠ np → Agree k k' q)
    (hnext : k'.nextpid = k.nextpid + 1) (hinit : k'.initproc = k.initproc) : TreeInv k' := by
  have hpnp : p ≠ np := by
    rintro rfl
    rw [hnp] at hp
    cases hp
  -- `initproc` is in use, so it is not the free slot
  have hinitnp : k.initproc ≠ np := fun h => hinv.init_live.1 (h ▸ hnp)
  have hnext1 : 1 ≤ k.nextpid := by
    have := hinv.pid_lt _ hinv.init_live.1
    omega
  have hrun : (k'.proc np).state ≠ .unused := by
    rw [hstate]
    decide
  refine ⟨?_, ?_, ?_, ?_, ?_, ?_, ?_, ?_, ?_⟩
  · intro q hq
    have hne : q ≠ np := fun h => hrun (h ▸ hq)
    rw [(hother q hne).2.1]
    exact hinv.unused_pid q ((hother q hne).unused_iff.mp hq)
  · intro q hq
    have hne : q ≠ np := fun h => hrun (h ▸ hq)
    rw [(hother q hne).2.2]
    exact hinv.unused_parent q ((hother q hne).unused_iff.mp hq)
  · intro q hq
    by_cases hne : q = np
    · subst hne
      rw [hpid, hnext]
      omega
    · have := hinv.pid_lt q (mt (hother q hne).unused_iff.mpr hq)
      rw [(hother q hne).2.1, hnext]
      omega
  · -- the new `pid` is `nextpid`, above every `pid` in use
    intro q q' hq hq' hpideq
    by_cases hne : q = np <;> by_cases hne' : q' = np
    · rw [hne, hne']
    · have := hinv.pid_lt q' (mt (hother q' hne').unused_iff.mpr hq')
      rw [hne, hpid, (hother q' hne').2.1] at hpideq
      omega
    · have := hinv.pid_lt q (mt (hother q hne).unused_iff.mpr hq)
      rw [hne', hpid, (hother q hne).2.1] at hpideq
      omega
    · rw [(hother q hne).2.1, (hother q' hne').2.1] at hpideq
      exact hinv.pid_inj q q' (mt (hother q hne).unused_iff.mpr hq)
        (mt (hother q' hne').unused_iff.mpr hq') hpideq
  · intro q pp hpp
    by_cases hne : q = np
    · -- the new child's parent is the running `p`
      rw [hne, hpar, Option.some.injEq] at hpp
      subst hpp
      have hrunning : (k.proc p).state ≠ .unused ∧ (k.proc p).state ≠ .zombie := by
        rw [hp]
        decide
      exact ⟨mt (hother p hpnp).unused_iff.mp hrunning.1, mt (hother p hpnp).zombie_iff.mp hrunning.2⟩
    · rw [(hother q hne).2.2] at hpp
      have hlive := hinv.parent_live q pp hpp
      have hppne : pp ≠ np := fun h => hlive.1 (h ▸ hnp)
      exact ⟨mt (hother pp hppne).unused_iff.mp hlive.1, mt (hother pp hppne).zombie_iff.mp hlive.2⟩
  · intro q hq hinitq
    by_cases hne : q = np
    · rw [hne, hpar]
      exact Option.some_ne_none p
    · rw [(hother q hne).2.2]
      rw [hinit] at hinitq
      exact hinv.has_parent q (mt (hother q hne).unused_iff.mpr hq) hinitq
  · intro q
    by_cases hne : q = np
    · rw [hne, hstate]
      decide
    · exact mt (hother q hne).used_iff.mp (hinv.no_used q)
  · rw [hinit]
    exact ⟨mt (hother _ hinitnp).unused_iff.mp hinv.init_live.1,
      mt (hother _ hinitnp).zombie_iff.mp hinv.init_live.2⟩
  · rw [hinit, (hother _ hinitnp).2.2]
    exact hinv.init_root

/-- A slot with no children, other than `initproc`, made free: what `wait`
and a failed `fork` do to the tree. -/
theorem TreeInv.free {k k' : Kernel} {q₀ : Fin NPROC} (hinv : TreeInv k)
    (hchild : ∀ q, (k.proc q).parent ≠ some q₀) (hinit₀ : q₀ ≠ k.initproc)
    (hstate : (k'.proc q₀).state = .unused) (hpid : (k'.proc q₀).pid = 0)
    (hpar : (k'.proc q₀).parent = none) (hother : ∀ q, q ≠ q₀ → Agree k k' q)
    (hnext : k.nextpid ≤ k'.nextpid) (hinit : k'.initproc = k.initproc) : TreeInv k' := by
  have hlive : ∀ q, (k'.proc q).state ≠ .unused → q ≠ q₀ := fun q hq h => hq (h ▸ hstate)
  refine ⟨?_, ?_, ?_, ?_, ?_, ?_, ?_, ?_, ?_⟩
  · intro q hq
    by_cases hne : q = q₀
    · rw [hne, hpid]
    · rw [(hother q hne).2.1]
      exact hinv.unused_pid q ((hother q hne).unused_iff.mp hq)
  · intro q hq
    by_cases hne : q = q₀
    · rw [hne, hpar]
    · rw [(hother q hne).2.2]
      exact hinv.unused_parent q ((hother q hne).unused_iff.mp hq)
  · intro q hq
    have hne := hlive q hq
    have := hinv.pid_lt q (mt (hother q hne).unused_iff.mpr hq)
    rw [(hother q hne).2.1]
    omega
  · intro q q' hq hq' hpideq
    have hne := hlive q hq
    have hne' := hlive q' hq'
    rw [(hother q hne).2.1, (hother q' hne').2.1] at hpideq
    exact hinv.pid_inj q q' (mt (hother q hne).unused_iff.mpr hq)
      (mt (hother q' hne').unused_iff.mpr hq') hpideq
  · intro q pp hpp
    by_cases hne : q = q₀
    · rw [hne, hpar] at hpp
      cases hpp
    · rw [(hother q hne).2.2] at hpp
      -- the freed slot had no children, so the parent is another slot
      have hppne : pp ≠ q₀ := fun h => hchild q (h ▸ hpp)
      have hl := hinv.parent_live q pp hpp
      exact ⟨mt (hother pp hppne).unused_iff.mp hl.1, mt (hother pp hppne).zombie_iff.mp hl.2⟩
  · intro q hq hinitq
    have hne := hlive q hq
    rw [(hother q hne).2.2]
    rw [hinit] at hinitq
    exact hinv.has_parent q (mt (hother q hne).unused_iff.mpr hq) hinitq
  · intro q
    by_cases hne : q = q₀
    · rw [hne, hstate]
      decide
    · exact mt (hother q hne).used_iff.mp (hinv.no_used q)
  · rw [hinit]
    exact ⟨mt (hother _ (Ne.symm hinit₀)).unused_iff.mp hinv.init_live.1,
      mt (hother _ (Ne.symm hinit₀)).zombie_iff.mp hinv.init_live.2⟩
  · rw [hinit, (hother _ (Ne.symm hinit₀)).2.2]
    exact hinv.init_root

/-- A process other than `initproc` becomes a zombie after its children went
to `initproc`: what `exit` does to the tree. -/
theorem TreeInv.bury {k k' : Kernel} {p : Fin NPROC} (hinv : TreeInv k)
    (hp : (k.proc p).state ≠ .unused) (hpinit : p ≠ k.initproc)
    (hstate : (k'.proc p).state = .zombie) (hpid : (k'.proc p).pid = (k.proc p).pid)
    (hparent : ∀ q, (k'.proc q).parent = (k.proc q).parent ∨
      ((k.proc q).parent = some p ∧ (k'.proc q).parent = some k.initproc))
    (hnochild : ∀ q, (k'.proc q).parent ≠ some p)
    (hother : ∀ q, q ≠ p →
      (k'.proc q).state.settle = (k.proc q).state.settle ∧ (k'.proc q).pid = (k.proc q).pid)
    (hnext : k'.nextpid = k.nextpid) (hinit : k'.initproc = k.initproc) : TreeInv k' := by
  -- whether a slot is free does not change, nor its `pid`
  have hunused : ∀ q, (k'.proc q).state = .unused ↔ (k.proc q).state = .unused := by
    intro q
    by_cases hne : q = p
    · rw [hne, hstate]
      exact ⟨fun h => (by cases h), fun h => absurd h hp⟩
    · rw [← Procstate.settle_eq_unused, (hother q hne).1, Procstate.settle_eq_unused]
  have hzombie : ∀ q, q ≠ p → ((k'.proc q).state = .zombie ↔ (k.proc q).state = .zombie) :=
    fun q hne => by
      rw [← Procstate.settle_eq_zombie, (hother q hne).1, Procstate.settle_eq_zombie]
  have hpids : ∀ q, (k'.proc q).pid = (k.proc q).pid := by
    intro q
    by_cases hne : q = p
    · rw [hne, hpid]
    · exact (hother q hne).2
  have hinitp : k.initproc ≠ p := Ne.symm hpinit
  have hinitlive : (k'.proc k.initproc).state ≠ .unused ∧ (k'.proc k.initproc).state ≠ .zombie :=
    ⟨mt (hunused _).mp hinv.init_live.1, mt (hzombie _ hinitp).mp hinv.init_live.2⟩
  refine ⟨?_, ?_, ?_, ?_, ?_, ?_, ?_, ?_, ?_⟩
  · intro q hq
    rw [hpids]
    exact hinv.unused_pid q ((hunused q).mp hq)
  · intro q hq
    have hnone := hinv.unused_parent q ((hunused q).mp hq)
    rcases hparent q with h | ⟨h, -⟩
    · rw [h, hnone]
    · rw [hnone] at h
      cases h
  · intro q hq
    rw [hpids, hnext]
    exact hinv.pid_lt q (mt (hunused q).mpr hq)
  · intro q q' hq hq' hpideq
    rw [hpids, hpids] at hpideq
    exact hinv.pid_inj q q' (mt (hunused q).mpr hq) (mt (hunused q').mpr hq') hpideq
  · intro q pp hpp
    rcases hparent q with h | ⟨-, h⟩
    · -- an old link, and not to `p`, which has no children left
      rw [h] at hpp
      have hppne : pp ≠ p := fun hpe => hnochild q (by rw [h, hpp, hpe])
      have hl := hinv.parent_live q pp hpp
      exact ⟨mt (hunused pp).mp hl.1, mt (hzombie pp hppne).mp hl.2⟩
    · -- a link to `initproc`
      rw [h, Option.some.injEq] at hpp
      rw [← hpp]
      exact hinitlive
  · intro q hq hinitq
    rw [hinit] at hinitq
    rcases hparent q with h | ⟨-, h⟩
    · rw [h]
      exact hinv.has_parent q (mt (hunused q).mpr hq) hinitq
    · rw [h]
      exact Option.some_ne_none _
  · intro q
    by_cases hne : q = p
    · rw [hne, hstate]
      decide
    · have hused : (k'.proc q).state = .used ↔ (k.proc q).state = .used := by
        rw [← Procstate.settle_eq_used, (hother q hne).1, Procstate.settle_eq_used]
      exact mt hused.mp (hinv.no_used q)
  · rw [hinit]
    exact hinitlive
  · rw [hinit]
    rcases hparent k.initproc with h | ⟨h, -⟩
    · rw [h]
      exact hinv.init_root
    · rw [hinv.init_root] at h
      cases h

/-! ## What a step can do to the tree -/

/-- The four ways a step changes the tree. -/
inductive TreeMove (k k' : Kernel) : Prop
  /-- Nothing the tree reads changes. -/
  | same (h : SameShape k k')
  /-- A new child `np` of the running `p`, in a slot that was free. -/
  | spawn (p np : Fin NPROC) (hnp : (k.proc np).state = .unused) (hp : (k.proc p).state = .running)
      (hstate : (k'.proc np).state = .runnable) (hpid : (k'.proc np).pid = k.nextpid)
      (hpar : (k'.proc np).parent = some p) (hother : ∀ q, q ≠ np → Agree k k' q)
      (hnext : k'.nextpid = k.nextpid + 1) (hinit : k'.initproc = k.initproc)
  /-- The slot `q₀`, with no children, made free. -/
  | free (q₀ : Fin NPROC) (hchild : ∀ q, (k.proc q).parent ≠ some q₀) (hinit₀ : q₀ ≠ k.initproc)
      (hstate : (k'.proc q₀).state = .unused) (hpid : (k'.proc q₀).pid = 0)
      (hpar : (k'.proc q₀).parent = none) (hother : ∀ q, q ≠ q₀ → Agree k k' q)
      (hnext : k.nextpid ≤ k'.nextpid) (hinit : k'.initproc = k.initproc)
  /-- The process `p` made a zombie, its children given to `initproc`. -/
  | bury (p : Fin NPROC) (hp : (k.proc p).state ≠ .unused) (hpinit : p ≠ k.initproc)
      (hstate : (k'.proc p).state = .zombie) (hpid : (k'.proc p).pid = (k.proc p).pid)
      (hparent : ∀ q, (k'.proc q).parent = (k.proc q).parent ∨
        ((k.proc q).parent = some p ∧ (k'.proc q).parent = some k.initproc))
      (hnochild : ∀ q, (k'.proc q).parent ≠ some p)
      (hother : ∀ q, q ≠ p →
        (k'.proc q).state.settle = (k.proc q).state.settle ∧ (k'.proc q).pid = (k.proc q).pid)
      (hnext : k'.nextpid = k.nextpid) (hinit : k'.initproc = k.initproc)

theorem TreeInv.move {k k' : Kernel} (hinv : TreeInv k) (h : TreeMove k k') : TreeInv k' := by
  cases h with
  | same h => exact hinv.of_sameShape h
  | spawn p np hnp hp hstate hpid hpar hother hnext hinit =>
    exact hinv.spawn hnp hp hstate hpid hpar hother hnext hinit
  | free q₀ hchild hinit₀ hstate hpid hpar hother hnext hinit =>
    exact hinv.free hchild hinit₀ hstate hpid hpar hother hnext hinit
  | bury p hp hpinit hstate hpid hparent hnochild hother hnext hinit =>
    exact hinv.bury hp hpinit hstate hpid hparent hnochild hother hnext hinit

/-! ## A `pid` that is gone stays gone -/

/-- `r` was handed out and no process in use has it. -/
def Retired (r : Int) (k : Kernel) : Prop :=
  r < k.nextpid ∧ ∀ q, (k.proc q).state ≠ .unused → (k.proc q).pid ≠ r

theorem Retired.move {r : Int} {k k' : Kernel} (hr : Retired r k) (h : TreeMove k k') :
    Retired r k' := by
  obtain ⟨hlt, hgone⟩ := hr
  cases h with
  | same h =>
    refine ⟨h.nextpid ▸ hlt, fun q hq => ?_⟩
    rw [h.pid]
    exact hgone q (mt (h.unused_iff q).mpr hq)
  | spawn p np hnp hp hstate hpid hpar hother hnext hinit =>
    -- the new `pid` is `nextpid`, above `r`
    refine ⟨by omega, fun q hq => ?_⟩
    by_cases hne : q = np
    · rw [hne, hpid]
      omega
    · rw [(hother q hne).2.1]
      exact hgone q (mt (hother q hne).unused_iff.mpr hq)
  | free q₀ hchild hinit₀ hstate hpid hpar hother hnext hinit =>
    refine ⟨by omega, fun q hq => ?_⟩
    have hne : q ≠ q₀ := fun h => hq (h ▸ hstate)
    rw [(hother q hne).2.1]
    exact hgone q (mt (hother q hne).unused_iff.mpr hq)
  | bury p hp hpinit hstate hpid hparent hnochild hother hnext hinit =>
    refine ⟨hnext ▸ hlt, fun q hq => ?_⟩
    by_cases hne : q = p
    · rw [hne, hpid]
      exact hgone p hp
    · have hunused : (k'.proc q).state = .unused ↔ (k.proc q).state = .unused := by
        rw [← Procstate.settle_eq_unused, (hother q hne).1, Procstate.settle_eq_unused]
      rw [(hother q hne).2]
      exact hgone q (mt hunused.mpr hq)

end Xv6.Tables
