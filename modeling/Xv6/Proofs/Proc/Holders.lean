import Xv6.Proc.Table
import Xv6.Lib.Tally
import Mathlib.Algebra.Order.BigOperators.Group.Finset
import Mathlib.Algebra.BigOperators.Ring.Finset
import Mathlib.Data.Fintype.BigOperators

/-!
# Who holds a file, and what the files say of the pipes

A reference of a `struct file` is either a descriptor that names it or one a
system call has taken and not yet stored: `Kernel.holders k f` counts the
descriptors of processes in use that name `f`, and `Kernel.debt k f` is what
the reference count has beyond them.  Between system calls the debt is zero;
inside one it moves by a known amount at each update of the tables:

* `Kernel.debt_setFile`: a new reference count moves it by the difference;
* `Kernel.debt_setProc`: a new process record moves it by what the old record
  held less what the new one holds, and `Proc.holds_setOfile` says what one
  descriptor changes.

`PipeInv` is what the open files say of the pipes: a free file has no type,
an open end's pipe is allocated, a pipe's end is open exactly when an open
file is that end, no pipe is kept with both ends closed, and each end is one
file.  It reads only the pipe end of each file (`File.pipeEnd`), so an update
that keeps those keeps it (`PipeInv.setFile`); closing the last reference of an
end (`PipeInv.closeEnd`) and making a new pipe (`PipeInv.ofNewPipe`) are the
two updates that change them.
-/

namespace Xv6

/-- Whether the end `w` of `pi` is open: the write end when `w`. -/
def Pipe.isOpen (pi : Pipe) (w : Bool) : Bool := if w then pi.writeopen else pi.readopen

@[simp] theorem Pipe.isOpen_close_self (pi : Pipe) (w : Bool) : (pi.close w).isOpen w = false := by
  cases w <;> rfl

@[simp] theorem Pipe.isOpen_close_not (pi : Pipe) (w : Bool) :
    (pi.close w).isOpen (!w) = pi.isOpen (!w) := by
  cases w <;> rfl

/-- `pipeclose` frees a pipe whose other end is closed too. -/
theorem Pipe.both_closed_iff (pi : Pipe) (w : Bool) :
    (!(pi.close w).readopen ∧ !(pi.close w).writeopen) ↔ pi.isOpen (!w) = false := by
  cases w <;> simp [Pipe.close, Pipe.isOpen]

end Xv6

namespace Xv6.Tables

open Finset

/-! ## Descriptors -/

/-- The descriptors of `pr` that name `f`, counted when `pr` is in use. -/
def Proc.holds (pr : Proc) (f : Fin NFILE) : Int :=
  ∑ fd : Fin NOFILE, if pr.state ≠ .unused ∧ pr.ofile fd = some f then 1 else 0

/-- The descriptors of processes in use that name `f`. -/
def Kernel.holders (k : Kernel) (f : Fin NFILE) : Int :=
  ∑ q : Fin NPROC, (k.proc q).holds f

/-- The references of `f` that no descriptor accounts for. -/
def Kernel.debt (k : Kernel) (f : Fin NFILE) : Int :=
  (k.file f).ref - k.holders f

section Holds

variable {pr : Proc} {f : Fin NFILE}

theorem Proc.holds_nonneg : 0 ≤ pr.holds f :=
  sum_nonneg fun _ _ => by split <;> omega

theorem Proc.one_le_holds {fd : Fin NOFILE} (hlive : pr.state ≠ .unused)
    (h : pr.ofile fd = some f) : 1 ≤ pr.holds f := by
  have hterm : (if pr.state ≠ .unused ∧ pr.ofile fd = some f then (1 : Int) else 0) = 1 := by
    simp [hlive, h]
  calc (1 : Int) = if pr.state ≠ .unused ∧ pr.ofile fd = some f then 1 else 0 := hterm.symm
    _ ≤ pr.holds f := single_le_sum (f := fun fd => if pr.state ≠ .unused ∧
        pr.ofile fd = some f then (1 : Int) else 0) (fun _ _ => by split <;> omega) (mem_univ fd)

theorem Proc.holds_eq_zero (h : ∀ fd, pr.ofile fd = none) : pr.holds f = 0 := by
  unfold Proc.holds
  exact sum_eq_zero fun fd _ => by simp [h fd]

/-- A process whose use and descriptors are the same holds the same. -/
theorem Proc.holds_congr {pr' : Proc} (hlive : pr'.state = .unused ↔ pr.state = .unused)
    (hofile : pr'.ofile = pr.ofile) : pr'.holds = pr.holds := by
  funext g
  unfold Proc.holds
  simp only [ne_eq, hlive, hofile]

/-- Storing `x` in one descriptor of a process in use. -/
theorem Proc.holds_setOfile (hlive : pr.state ≠ .unused) (fd : Fin NOFILE)
    (x : Option (Fin NFILE)) :
    { pr with ofile := Function.update pr.ofile fd x }.holds f =
      pr.holds f - (if pr.ofile fd = some f then 1 else 0) + (if x = some f then 1 else 0) := by
  have h := Tally.sum_add_eq_of_eq_off
    (F := fun j => if pr.state ≠ .unused ∧ pr.ofile j = some f then (1 : Int) else 0)
    (G := fun j => if pr.state ≠ .unused ∧ Function.update pr.ofile fd x j = some f then
      (1 : Int) else 0) fd fun j hj => by simp [Function.update_of_ne hj]
  simp only [Function.update_self, hlive, ne_eq, not_false_eq_true, true_and] at h
  unfold Proc.holds
  simp only [ne_eq, hlive, not_false_eq_true, true_and]
  omega

end Holds

section Debt

variable (k : Kernel)

theorem Kernel.one_le_holders {q : Fin NPROC} {fd : Fin NOFILE} {f : Fin NFILE}
    (hlive : (k.proc q).state ≠ .unused) (h : (k.proc q).ofile fd = some f) :
    1 ≤ k.holders f :=
  calc 1 ≤ (k.proc q).holds f := Proc.one_le_holds hlive h
    _ ≤ k.holders f :=
      single_le_sum (f := fun q => (k.proc q).holds f) (fun _ _ => Proc.holds_nonneg) (mem_univ q)

/-- The count as the number of pairs of a process in use and a descriptor. -/
theorem Kernel.holders_eq_card (f : Fin NFILE) :
    k.holders f = ((univ.filter fun x : Fin NPROC × Fin NOFILE =>
      (k.proc x.1).state ≠ .unused ∧ (k.proc x.1).ofile x.2 = some f).card : Int) := by
  rw [natCast_card_filter, Fintype.sum_prod_type]
  rfl

theorem Kernel.holders_setProc (q : Fin NPROC) (pr : Proc) (f : Fin NFILE) :
    (k.setProc q pr).holders f = k.holders f - (k.proc q).holds f + pr.holds f := by
  have h := Tally.sum_add_eq_of_eq_off (F := fun j => (k.proc j).holds f)
    (G := fun j => ((k.setProc q pr).proc j).holds f) q fun j hj => by
      rw [Kernel.setProc_proc_of_ne _ _ _ _ hj]
  simp only [Kernel.setProc_proc_self] at h
  unfold Kernel.holders
  omega

theorem Kernel.debt_setFile (f : Fin NFILE) (ff : File) (g : Fin NFILE) :
    (k.setFile f ff).debt g = k.debt g + if g = f then ff.ref - (k.file f).ref else 0 := by
  unfold Kernel.debt Kernel.holders
  by_cases hg : g = f
  · subst hg
    simp [Kernel.setFile]
  · simp [Kernel.setFile, hg]

@[simp] theorem Kernel.debt_setPipe (a : Nat) (pi : Option Pipe) :
    (k.setPipe a pi).debt = k.debt := rfl

theorem Kernel.debt_setProc (q : Fin NPROC) (pr : Proc) (g : Fin NFILE) :
    (k.setProc q pr).debt g = k.debt g + (k.proc q).holds g - pr.holds g := by
  unfold Kernel.debt
  rw [Kernel.holders_setProc]
  simp only [Kernel.setProc]
  omega

/-- Storing `x` in a descriptor of a process in use. -/
theorem Kernel.debt_setOfile {p : Fin NPROC} (hlive : (k.proc p).state ≠ .unused) (fd : Fin NOFILE)
    (x : Option (Fin NFILE)) (g : Fin NFILE) :
    (k.setProc p { k.proc p with ofile := Function.update (k.proc p).ofile fd x }).debt g =
      k.debt g + (if (k.proc p).ofile fd = some g then 1 else 0) - (if x = some g then 1 else 0) := by
  rw [Kernel.debt_setProc, Proc.holds_setOfile hlive]
  omega

end Debt

/-! ## Processes that hold nothing -/

/-- A free process or a zombie has no open descriptor. -/
def Kernel.Idle (k : Kernel) : Prop :=
  ∀ q, (k.proc q).state = .unused ∨ (k.proc q).state = .zombie → ∀ fd, (k.proc q).ofile fd = none

theorem Kernel.Idle.setProc {k : Kernel} (h : k.Idle) {q : Fin NPROC} {pr : Proc}
    (hpr : pr.state = .unused ∨ pr.state = .zombie → ∀ fd, pr.ofile fd = none) :
    (k.setProc q pr).Idle := by
  intro q' hq'
  by_cases hne : q' = q
  · subst hne
    rw [Kernel.setProc_proc_self] at hq' ⊢
    exact hpr hq'
  · rw [Kernel.setProc_proc_of_ne _ _ _ _ hne] at hq' ⊢
    exact h q' hq'

/-! ## Pipe ends -/

/-- The pipe and the end an open pipe file stands for. -/
def File.pipeEnd (ff : File) : Option (Nat × Bool) :=
  if 0 < ff.ref ∧ ff.type = .pipe then some (ff.pipe, ff.writable) else none

theorem File.pipeEnd_eq_some {ff : File} {a : Nat} {w : Bool} :
    ff.pipeEnd = some (a, w) ↔ 0 < ff.ref ∧ ff.type = .pipe ∧ ff.pipe = a ∧ ff.writable = w := by
  unfold File.pipeEnd
  split_ifs with h
  · simp [h.1, h.2, and_comm]
  · simp only [false_iff]
    exact fun h' => h ⟨h'.1, h'.2.1⟩

/-- The file `f` is the open end `w` of the pipe at `a`. -/
def Kernel.IsEnd (k : Kernel) (a : Nat) (w : Bool) (f : Fin NFILE) : Prop :=
  (k.file f).pipeEnd = some (a, w)

/-- What the open files say of the pipes. -/
structure PipeInv (k : Kernel) : Prop where
  free_none : ∀ f, (k.file f).ref = 0 → (k.file f).type = .none
  end_alloc : ∀ a w f, k.IsEnd a w f → (k.pipe a).isSome
  open_iff : ∀ a pi, k.pipe a = some pi → ∀ w, pi.isOpen w = true ↔ ∃ f, k.IsEnd a w f
  some_open : ∀ a pi, k.pipe a = some pi → ∃ w, pi.isOpen w = true
  end_unique : ∀ a w f f', k.IsEnd a w f → k.IsEnd a w f' → f = f'

section PipeInv

variable {k : Kernel}

theorem isEnd_congr {k' : Kernel} (hfile : k'.file = k.file) : k'.IsEnd = k.IsEnd := by
  funext a w f
  simp [Kernel.IsEnd, hfile]

/-- The invariant reads only the files and the pipes. -/
theorem PipeInv.of_eq {k' : Kernel} (h : PipeInv k) (hfile : k'.file = k.file)
    (hpipe : k'.pipe = k.pipe) : PipeInv k' := by
  have he := isEnd_congr hfile
  refine ⟨fun f hf => ?_, fun a w f hf => ?_, fun a pi hpi w => ?_, fun a pi hpi => ?_,
    fun a w f f' hf hf' => ?_⟩
  · rw [hfile] at hf ⊢
    exact h.free_none f hf
  · rw [hpipe]
    rw [he] at hf
    exact h.end_alloc a w f hf
  · rw [hpipe] at hpi
    rw [he]
    exact h.open_iff a pi hpi w
  · rw [hpipe] at hpi
    exact h.some_open a pi hpi
  · rw [he] at hf hf'
    exact h.end_unique a w f f' hf hf'

theorem isEnd_setFile {f : Fin NFILE} {ff : File} (hend : ff.pipeEnd = (k.file f).pipeEnd)
    (a : Nat) (w : Bool) (g : Fin NFILE) : (k.setFile f ff).IsEnd a w g ↔ k.IsEnd a w g := by
  unfold Kernel.IsEnd Kernel.setFile
  by_cases hg : g = f
  · subst hg
    simp [hend]
  · simp [Function.update_of_ne hg]

/-- An update of a file that keeps its pipe end, and leaves a free file with
no type. -/
theorem PipeInv.setFile (h : PipeInv k) {f : Fin NFILE} {ff : File}
    (hend : ff.pipeEnd = (k.file f).pipeEnd) (hfree : ff.ref = 0 → ff.type = .none) :
    PipeInv (k.setFile f ff) := by
  have hiff := isEnd_setFile hend
  refine ⟨fun g hg => ?_, fun a w g hg => ?_, fun a pi hpi w => ?_, fun a pi hpi => ?_,
    fun a w g g' hg hg' => ?_⟩
  · by_cases hgf : g = f
    · subst hgf
      simp only [Kernel.setFile, Function.update_self] at hg ⊢
      exact hfree hg
    · simp only [Kernel.setFile, Function.update_of_ne hgf] at hg ⊢
      exact h.free_none g hg
  · exact h.end_alloc a w g ((hiff a w g).mp hg)
  · rw [h.open_iff a pi hpi w]
    exact exists_congr fun g => (hiff a w g).symm
  · exact h.some_open a pi hpi
  · exact h.end_unique a w g g' ((hiff a w g).mp hg) ((hiff a w g').mp hg')

/-- The last reference of the end `w` of the pipe at `a` goes: the file is
freed, and `pipeclose` clears the end, freeing the pipe when the other end is
closed too. -/
theorem PipeInv.closeEnd (h : PipeInv k) {f : Fin NFILE} {ff : File} {a : Nat} {w : Bool}
    {pi : Pipe} (hf : k.IsEnd a w f) (hff : ff.pipeEnd = none) (hfree : ff.ref = 0 → ff.type = .none)
    (hpi : k.pipe a = some pi) :
    PipeInv ((k.setFile f ff).setPipe a
      (if !(pi.close w).readopen ∧ !(pi.close w).writeopen then none else some (pi.close w))) := by
  set k' := (k.setFile f ff).setPipe a
    (if !(pi.close w).readopen ∧ !(pi.close w).writeopen then none else some (pi.close w)) with hk'
  -- the ends of `k'` are those of `k` but `f`
  have hends : ∀ b v g, k'.IsEnd b v g ↔ k.IsEnd b v g ∧ g ≠ f := by
    intro b v g
    unfold Kernel.IsEnd
    by_cases hg : g = f
    · subst hg
      simp [hk', Kernel.setPipe, Kernel.setFile, hff]
    · simp [hk', Kernel.setPipe, Kernel.setFile, hg]
  -- `f` was the one end `w` of `a`, so another end is the end `!w`
  have hother : ∀ v g, k.IsEnd a v g → g ≠ f → v = !w := by
    intro v g hg hgf
    cases v <;> cases w <;> simp_all
    · exact hgf (h.end_unique a false g f hg hf)
    · exact hgf (h.end_unique a true g f hg hf)
  have hpipe_other : ∀ b, b ≠ a → k'.pipe b = k.pipe b := fun b hb => by
    simp [hk', Kernel.setPipe, Kernel.setFile, Function.update_of_ne hb]
  refine ⟨fun g hg => ?_, fun b v g hg => ?_, fun b pi' hpi' v => ?_, fun b pi' hpi' => ?_,
    fun b v g g' hg hg' => ?_⟩
  · by_cases hgf : g = f
    · subst hgf
      simp only [hk', Kernel.setPipe, Kernel.setFile, Function.update_self] at hg ⊢
      exact hfree hg
    · simp only [hk', Kernel.setPipe, Kernel.setFile, Function.update_of_ne hgf] at hg ⊢
      exact h.free_none g hg
  · obtain ⟨hgk, hgf⟩ := (hends b v g).mp hg
    by_cases hb : b = a
    · -- the end `!w` is still open, so the pipe stays
      subst hb
      have hv := hother v g hgk hgf
      have hopen : pi.isOpen (!w) = true := (h.open_iff b pi hpi (!w)).mpr ⟨g, hv ▸ hgk⟩
      have hkeep : ¬ (!(pi.close w).readopen ∧ !(pi.close w).writeopen) := by
        rw [Pipe.both_closed_iff, hopen]
        decide
      rw [hk']
      simp only [Kernel.setPipe, Function.update_self]
      rw [if_neg hkeep]
      rfl
    · rw [hpipe_other b hb]
      exact h.end_alloc b v g hgk
  · by_cases hb : b = a
    · subst hb
      have hpi'' : pi' = pi.close w := by
        simp only [hk', Kernel.setPipe, Function.update_self] at hpi'
        split at hpi'
        · cases hpi'
        · exact (Option.some.inj hpi').symm
      subst hpi''
      cases hvw : v == w
      · -- the other end: open as before
        have hv : v = !w := by cases v <;> cases w <;> simp_all
        subst hv
        rw [Pipe.isOpen_close_not, h.open_iff b pi hpi (!w)]
        constructor
        · rintro ⟨g, hg⟩
          have hgf : g ≠ f := fun hgf => by
            rw [hgf] at hg
            cases w <;> simp_all [Kernel.IsEnd]
          exact ⟨g, (hends b (!w) g).mpr ⟨hg, hgf⟩⟩
        · rintro ⟨g, hg⟩
          exact ⟨g, ((hends b (!w) g).mp hg).1⟩
      · -- the end just closed: no file is it any more
        have hv : v = w := by simpa using hvw
        subst hv
        rw [Pipe.isOpen_close_self]
        simp only [Bool.false_eq_true, false_iff, not_exists]
        intro g hg
        obtain ⟨hg, hgf⟩ := (hends b v g).mp hg
        exact hgf (h.end_unique b v g f hg hf)
    · rw [hpipe_other b hb] at hpi'
      rw [h.open_iff b pi' hpi' v]
      refine exists_congr fun g => ⟨fun hg => (hends b v g).mpr ⟨hg, fun hgf => ?_⟩,
        fun hg => ((hends b v g).mp hg).1⟩
      rw [hgf] at hg
      exact hb (Prod.mk.inj (Option.some.inj (hg.symm.trans hf))).1
  · by_cases hb : b = a
    · subst hb
      simp only [hk', Kernel.setPipe, Function.update_self] at hpi'
      split at hpi'
      · cases hpi'
      · rename_i hkeep
        refine ⟨!w, ?_⟩
        rw [← Option.some.inj hpi', Pipe.isOpen_close_not]
        rw [Pipe.both_closed_iff] at hkeep
        simpa using hkeep
    · rw [hpipe_other b hb] at hpi'
      exact h.some_open b pi' hpi'
  · exact h.end_unique b v g g' ((hends b v g).mp hg).1 ((hends b v g').mp hg').1

/-- A new pipe at a free address, whose ends are two files that were free. -/
theorem PipeInv.ofNewPipe {k' : Kernel} (h : PipeInv k) {a : Nat} {f₀ f₁ : Fin NFILE}
    (ha : k.pipe a = none) (hne : f₀ ≠ f₁) (hfree₀ : (k.file f₀).ref = 0)
    (hfree₁ : (k.file f₁).ref = 0) (hfile : ∀ g, g ≠ f₀ → g ≠ f₁ → k'.file g = k.file g)
    (hend₀ : (k'.file f₀).pipeEnd = some (a, false)) (hend₁ : (k'.file f₁).pipeEnd = some (a, true))
    (hpipe : k'.pipe = Function.update k.pipe a (some (Pipe.alloc kallocJunk))) : PipeInv k' := by
  -- no old file is an end of the new pipe
  have hold : ∀ v g, k.IsEnd a v g → False := fun v g hg => by
    have := h.end_alloc a v g hg
    rw [ha] at this
    cases this
  have hnot₀ : ∀ b v, ¬ k.IsEnd b v f₀ := fun b v hg => by
    have := (File.pipeEnd_eq_some.mp hg).1
    omega
  have hnot₁ : ∀ b v, ¬ k.IsEnd b v f₁ := fun b v hg => by
    have := (File.pipeEnd_eq_some.mp hg).1
    omega
  have hends : ∀ b v g, k'.IsEnd b v g ↔
      (g = f₀ ∧ b = a ∧ v = false) ∨ (g = f₁ ∧ b = a ∧ v = true) ∨ (g ≠ f₀ ∧ g ≠ f₁ ∧ k.IsEnd b v g) := by
    intro b v g
    unfold Kernel.IsEnd
    by_cases h₀ : g = f₀
    · subst h₀
      rw [hend₀]
      simp [hne, eq_comm]
    · by_cases h₁ : g = f₁
      · subst h₁
        rw [hend₁]
        simp [h₀, eq_comm]
      · rw [hfile g h₀ h₁]
        simp [h₀, h₁]
  refine ⟨fun g hg => ?_, fun b v g hg => ?_, fun b pi hpi v => ?_, fun b pi hpi => ?_,
    fun b v g g' hg hg' => ?_⟩
  · by_cases h₀ : g = f₀
    · subst h₀
      have := (File.pipeEnd_eq_some.mp hend₀).1
      omega
    · by_cases h₁ : g = f₁
      · subst h₁
        have := (File.pipeEnd_eq_some.mp hend₁).1
        omega
      · rw [hfile g h₀ h₁] at hg ⊢
        exact h.free_none g hg
  · rw [hpipe]
    rcases (hends b v g).mp hg with ⟨-, rfl, -⟩ | ⟨-, rfl, -⟩ | ⟨-, -, hg⟩
    · simp
    · simp
    · by_cases hb : b = a
      · exact absurd hg (hb ▸ hold v g)
      · rw [Function.update_of_ne hb]
        exact h.end_alloc b v g hg
  · rw [hpipe] at hpi
    by_cases hb : b = a
    · -- the new pipe: both ends open, and each is its new file
      subst hb
      rw [Function.update_self, Option.some.injEq] at hpi
      subst hpi
      have hopen : (Pipe.alloc kallocJunk).isOpen v = true := by
        cases v <;> rfl
      simp only [hopen, true_iff]
      cases v
      · exact ⟨f₀, (hends b false f₀).mpr (.inl ⟨rfl, rfl, rfl⟩)⟩
      · exact ⟨f₁, (hends b true f₁).mpr (.inr (.inl ⟨rfl, rfl, rfl⟩))⟩
    · rw [Function.update_of_ne hb] at hpi
      rw [h.open_iff b pi hpi v]
      refine exists_congr fun g => ⟨fun hg => (hends b v g).mpr (.inr (.inr ⟨?_, ?_, hg⟩)), ?_⟩
      · rintro rfl
        exact hnot₀ b v hg
      · rintro rfl
        exact hnot₁ b v hg
      · intro hg
        rcases (hends b v g).mp hg with ⟨-, rfl, -⟩ | ⟨-, rfl, -⟩ | ⟨-, -, hg⟩
        · exact absurd rfl hb
        · exact absurd rfl hb
        · exact hg
  · rw [hpipe] at hpi
    by_cases hb : b = a
    · subst hb
      rw [Function.update_self, Option.some.injEq] at hpi
      exact ⟨true, by rw [← hpi]; rfl⟩
    · rw [Function.update_of_ne hb] at hpi
      exact h.some_open b pi hpi
  · -- each end of the new pipe is one of the new files; other ends are as before
    rcases (hends b v g).mp hg with ⟨hg₀, hb, hv⟩ | ⟨hg₁, hb, hv⟩ | ⟨-, -, hgk⟩ <;>
      rcases (hends b v g').mp hg' with ⟨hg₀', hb', hv'⟩ | ⟨hg₁', hb', hv'⟩ | ⟨-, -, hgk'⟩
    · rw [hg₀, hg₀']
    · rw [hv] at hv'
      cases hv'
    · exact absurd (hb ▸ hgk') (hold v g')
    · rw [hv] at hv'
      cases hv'
    · rw [hg₁, hg₁']
    · exact absurd (hb ▸ hgk') (hold v g')
    · exact absurd (hb' ▸ hgk) (hold v g)
    · exact absurd (hb' ▸ hgk) (hold v g)
    · exact h.end_unique b v g g' hgk hgk'

/-- A pipe is allocated exactly when an open file points to it. -/
theorem PipeInv.pipe_isSome_iff (h : PipeInv k) (a : Nat) :
    (k.pipe a).isSome ↔
      ∃ f, 0 < (k.file f).ref ∧ (k.file f).type = .pipe ∧ (k.file f).pipe = a := by
  constructor
  · intro hsome
    obtain ⟨pi, hpi⟩ := Option.isSome_iff_exists.mp hsome
    obtain ⟨w, hw⟩ := h.some_open a pi hpi
    obtain ⟨f, hf⟩ := (h.open_iff a pi hpi w).mp hw
    obtain ⟨hpos, htype, hpipe, -⟩ := File.pipeEnd_eq_some.mp hf
    exact ⟨f, hpos, htype, hpipe⟩
  · rintro ⟨f, hpos, htype, hpipe⟩
    exact h.end_alloc a (k.file f).writable f (File.pipeEnd_eq_some.mpr ⟨hpos, htype, hpipe, rfl⟩)

/-- An end of an allocated pipe is open exactly when an open file is that end. -/
theorem PipeInv.isOpen_iff (h : PipeInv k) {a : Nat} {pi : Pipe} (hpi : k.pipe a = some pi)
    (w : Bool) :
    pi.isOpen w = true ↔ ∃ f, 0 < (k.file f).ref ∧ (k.file f).type = .pipe ∧
      (k.file f).pipe = a ∧ (k.file f).writable = w := by
  rw [h.open_iff a pi hpi w]
  exact exists_congr fun f => File.pipeEnd_eq_some

end PipeInv

end Xv6.Tables
