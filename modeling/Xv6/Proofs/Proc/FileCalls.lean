import Xv6.Lib.StateExcept
import Xv6.Proofs.Proc.Holders

/-!
# The file system calls keep the file books

`FileInv` is the state of the file table between system calls: no reference
is owed (`Kernel.debt` is zero for every file), free processes and zombies
hold no descriptor (`Kernel.Idle`), and the pipes agree with their open files
(`PipeInv`).  This file proves that `open`, `dup`, `close` and `pipe`, run by a
process in the running state, always return and keep `FileInv`.

## Strategy

Each call is followed through its `do` block with a run lemma for each table
function it calls: `filealloc_cases`, `fdalloc_cases` and `argfd_run` name
the two outcomes of a search, and `fileclose_spec` says what closing one
reference does to the files and the pipes, whether or not it was the last.
The debt of each file then moves by the amounts `Kernel.debt_setFile` and
`Kernel.debt_setOfile` give, and the moves of one call add up to zero.

`pipe` is the call with the most paths: `pipealloc` may find no file or no
page, and `sys_pipe` may find no descriptor or fail to copy the descriptors
out.  Every failure path closes what was allocated before it, and
`closeBoth_spec` shows that closing the two new ends frees the new pipe, so
that the tables are as before (`sysPipe_spec`).
-/

namespace Xv6.Tables

open StateExcept

/-! ## How the table functions run -/

theorem filealloc_cases (k : Kernel) :
    (filealloc.run k = .ok (none, k) ∧ ∀ f, (k.file f).ref ≠ 0) ∨
      ∃ f, (k.file f).ref = 0 ∧ filealloc.run k = .ok (some f, k.setFile f { k.file f with ref := 1 }) := by
  unfold filealloc
  cases hfind : (List.finRange NFILE).find? fun f => (k.file f).ref = 0 with
  | none =>
    left
    refine ⟨by simp [hfind], fun f hf => ?_⟩
    have := List.find?_eq_none.mp hfind f (List.mem_finRange f)
    simp [hf] at this
  | some f =>
    right
    refine ⟨f, by simpa using List.find?_some hfind, ?_⟩
    simp [hfind, modifyFile]

theorem filedup_run {k : Kernel} {f : Fin NFILE} (h : 1 ≤ (k.file f).ref) :
    (filedup f).run k = .ok ((), k.setFile f { k.file f with ref := (k.file f).ref + 1 }) := by
  have : ¬ (k.file f).ref < 1 := by omega
  simp [filedup, modifyFile, this]

theorem pipeclose_run {k : Kernel} {a : Nat} {pi : Pipe} (h : k.pipe a = some pi) (w : Bool) :
    (pipeclose a w).run k = .ok ((), k.setPipe a
      (if !(pi.close w).readopen ∧ !(pi.close w).writeopen then none else some (pi.close w))) := by
  simp only [pipeclose, StateT.run_bind, StateT.run_get, pure_eq_ok, ok_bind, h]
  by_cases hc : (!(pi.close w).readopen ∧ !(pi.close w).writeopen)
  · simp only [if_pos hc]
    rfl
  · simp only [if_neg hc]
    rfl

theorem fileclose_run_of_lt {k : Kernel} {f : Fin NFILE} (h : 1 < (k.file f).ref) :
    (fileclose f).run k = .ok ((), k.setFile f { k.file f with ref := (k.file f).ref - 1 }) := by
  have h1 : ¬ (k.file f).ref < 1 := by omega
  simp [fileclose, modifyFile, h1, h]

theorem fileclose_run_last {k : Kernel} {f : Fin NFILE} (h : (k.file f).ref = 1) :
    (fileclose f).run k =
      if (k.file f).type = .pipe then
        (pipeclose (k.file f).pipe (k.file f).writable).run (k.setFile f { k.file f with ref := 0, type := .none })
      else .ok ((), k.setFile f { k.file f with ref := 0, type := .none }) := by
  simp [fileclose, modifyFile, h]
  split <;> simp_all

theorem fdalloc_cases (k : Kernel) (p : Fin NPROC) (f : Fin NFILE) :
    (fdalloc p f).run k = .ok (none, k) ∨
      ∃ fd, (k.proc p).ofile fd = none ∧ (fdalloc p f).run k = .ok (some fd,
        k.setProc p { k.proc p with ofile := Function.update (k.proc p).ofile fd (some f) }) := by
  unfold fdalloc
  cases hfind : (List.finRange NOFILE).find? fun fd => (k.proc p).ofile fd = none with
  | none =>
    left
    simp [hfind]
  | some fd =>
    right
    refine ⟨fd, by simpa using List.find?_some hfind, ?_⟩
    simp [hfind, setOfile, modifyProc]

theorem argfd_run (k : Kernel) (p : Fin NPROC) (fd : Int) :
    ∃ r, (argfd p fd).run k = .ok (r, k) ∧
      ∀ fd' f, r = some (fd', f) → (k.proc p).ofile fd' = some f := by
  unfold argfd
  split
  · rename_i h
    cases hf : (k.proc p).ofile ⟨fd.toNat, by omega⟩ with
    | none => exact ⟨none, by simp [hf], by simp⟩
    | some f =>
      refine ⟨some (⟨fd.toNat, by omega⟩, f), by simp [hf], ?_⟩
      rintro fd' f' ⟨⟩
      exact hf
  · exact ⟨none, by simp, by simp⟩

/-! ## `fileclose` -/

theorem PipeInv.setRef {k : Kernel} (h : PipeInv k) {f : Fin NFILE} {r : Int}
    (hpos : 0 < (k.file f).ref) (hr : 0 < r) : PipeInv (k.setFile f { k.file f with ref := r }) := by
  refine h.setFile ?_ fun h0 => absurd (show r = 0 from h0) (by omega)
  simp [File.pipeEnd, hpos, hr]

/-- What `fileclose` of an open file leaves: one reference fewer, and when it
was the last, a free file and, for a pipe end, `pipeclose` done. -/
theorem fileclose_spec {k : Kernel} {f : Fin NFILE} (hinv : PipeInv k) (hf : 1 ≤ (k.file f).ref) :
    ∃ k', (fileclose f).run k = .ok ((), k') ∧ k'.proc = k.proc ∧ PipeInv k' ∧
      (k'.file f).ref = (k.file f).ref - 1 ∧ (∀ g, g ≠ f → k'.file g = k.file g) ∧
      (∀ b, b ≠ (k.file f).pipe → k'.pipe b = k.pipe b) := by
  rcases lt_or_eq_of_le hf with hlt | heq
  · refine ⟨_, fileclose_run_of_lt hlt, rfl, hinv.setRef (by omega) (by omega), by simp [Kernel.setFile],
      fun g hg => by simp [Kernel.setFile, hg], fun b _ => rfl⟩
  · rw [fileclose_run_last heq.symm]
    have hfree : ({ k.file f with ref := 0, type := .none } : File).ref = 0 →
        ({ k.file f with ref := 0, type := .none } : File).type = .none := fun _ => rfl
    have hnone : ({ k.file f with ref := 0, type := .none } : File).pipeEnd = none := by
      simp [File.pipeEnd]
    by_cases ht : (k.file f).type = .pipe
    · -- the last reference of a pipe end: `pipeclose` on its pipe, which is allocated
      rw [if_pos ht]
      have hend : k.IsEnd (k.file f).pipe (k.file f).writable f :=
        File.pipeEnd_eq_some.mpr ⟨by omega, ht, rfl, rfl⟩
      obtain ⟨pi, hpi⟩ := Option.isSome_iff_exists.mp (hinv.end_alloc _ _ f hend)
      have hpi' : (k.setFile f { k.file f with ref := 0, type := .none }).pipe (k.file f).pipe =
          some pi := hpi
      refine ⟨_, pipeclose_run hpi' _, rfl, hinv.closeEnd hend hnone hfree hpi, ?_, ?_, ?_⟩
      · simp [Kernel.setPipe, Kernel.setFile, heq.symm]
      · intro g hg
        simp [Kernel.setPipe, Kernel.setFile, hg]
      · intro b hb
        simp [Kernel.setPipe, Kernel.setFile, Function.update_of_ne hb]
    · rw [if_neg ht]
      have hend : ({ k.file f with ref := 0, type := .none } : File).pipeEnd = (k.file f).pipeEnd := by
        rw [hnone]
        simp [File.pipeEnd, ht]
      refine ⟨_, rfl, rfl, hinv.setFile hend hfree, ?_, fun g hg => by simp [Kernel.setFile, hg],
        fun b _ => rfl⟩
      simp [Kernel.setFile, heq.symm]

theorem Kernel.holders_congr {k k' : Kernel} (h : k'.proc = k.proc) : k'.holders = k.holders := by
  funext f
  simp [Kernel.holders, h]

/-- The debt after `fileclose f`: one less for `f`. -/
theorem debt_of_close {k k' : Kernel} {f : Fin NFILE} (hproc : k'.proc = k.proc)
    (hf : (k'.file f).ref = (k.file f).ref - 1) (hother : ∀ g, g ≠ f → k'.file g = k.file g)
    (g : Fin NFILE) : k'.debt g = k.debt g - if g = f then 1 else 0 := by
  unfold Kernel.debt
  rw [Kernel.holders_congr hproc]
  by_cases hg : g = f
  · subst hg
    simp [hf]
    omega
  · simp [hother g hg, hg]

/-! ## The invariant -/

/-- The file table between system calls: every reference is a descriptor of a
process in use, free processes and zombies hold nothing, and the pipes agree
with their files. -/
structure FileInv (k : Kernel) : Prop where
  debt_zero : ∀ f, k.debt f = 0
  idle : k.Idle
  pipes : PipeInv k

theorem FileInv.one_le_ref {k : Kernel} (hinv : FileInv k) {q : Fin NPROC} {fd : Fin NOFILE}
    {f : Fin NFILE} (hlive : (k.proc q).state ≠ .unused) (h : (k.proc q).ofile fd = some f) :
    1 ≤ (k.file f).ref := by
  have hd := hinv.debt_zero f
  have hh := k.one_le_holders hlive h
  unfold Kernel.debt at hd
  omega

/-- A running process changes its descriptors. -/
theorem Kernel.Idle.setOfile {k : Kernel} (h : k.Idle) {p : Fin NPROC}
    (hp : (k.proc p).state = .running) (fd : Fin NOFILE) (x : Option (Fin NFILE)) :
    (k.setProc p { k.proc p with ofile := Function.update (k.proc p).ofile fd x }).Idle :=
  h.setProc fun hpr => by
    rcases hpr with hpr | hpr <;> simp [hp] at hpr

/-! ## `open`, `dup` and `close` -/

theorem sysDup_spec {k : Kernel} {p : Fin NPROC} (hinv : FileInv k)
    (hp : (k.proc p).state = .running) (fd : Int) :
    ∃ r k', (sysDup p fd).run k = .ok (r, k') ∧ FileInv k' := by
  have hlive : (k.proc p).state ≠ .unused := by
    rw [hp]
    decide
  obtain ⟨r, hr, hfile⟩ := argfd_run k p fd
  cases r with
  | none => exact ⟨-1, k, by simp [sysDup, hr], hinv⟩
  | some x =>
    obtain ⟨fd', f⟩ := x
    have href : 1 ≤ (k.file f).ref := hinv.one_le_ref hlive (hfile fd' f rfl)
    rcases fdalloc_cases k p f with hnone | ⟨fd'', hfree, hrun⟩
    · exact ⟨-1, k, by simp [sysDup, hr, hnone], hinv⟩
    · set k₁ := k.setProc p { k.proc p with ofile := Function.update (k.proc p).ofile fd'' (some f) }
      have href₁ : 1 ≤ (k₁.file f).ref := href
      refine ⟨fd''.val, k₁.setFile f { k₁.file f with ref := (k₁.file f).ref + 1 },
        by simp [sysDup, hr, hrun, filedup_run href₁], ?_, ?_, ?_⟩
      · -- the new descriptor and the new reference cancel
        intro g
        rw [Kernel.debt_setFile, Kernel.debt_setOfile _ hlive, hinv.debt_zero g]
        by_cases hg : g = f
        · subst hg
          simp [hfree, k₁]
        · simp [hfree, hg, Ne.symm hg]
      · exact hinv.idle.setOfile hp fd'' (some f)
      · have hpipes : PipeInv k₁ := hinv.pipes.of_eq rfl rfl
        exact hpipes.setRef (by omega) (by omega)

theorem Kernel.Idle.of_proc_eq {k k' : Kernel} (h : k.Idle) (hproc : k'.proc = k.proc) : k'.Idle := by
  unfold Kernel.Idle
  rw [hproc]
  exact h

theorem sysClose_spec {k : Kernel} {p : Fin NPROC} (hinv : FileInv k)
    (hp : (k.proc p).state = .running) (fd : Int) :
    ∃ r k', (sysClose p fd).run k = .ok (r, k') ∧ FileInv k' := by
  have hlive : (k.proc p).state ≠ .unused := by
    rw [hp]
    decide
  obtain ⟨r, hr, hfile⟩ := argfd_run k p fd
  cases r with
  | none => exact ⟨-1, k, by simp [sysClose, hr], hinv⟩
  | some x =>
    obtain ⟨fd', f⟩ := x
    have hof := hfile fd' f rfl
    set k₁ := k.setProc p { k.proc p with ofile := Function.update (k.proc p).ofile fd' none }
    have href₁ : 1 ≤ (k₁.file f).ref := hinv.one_le_ref hlive hof
    have hpipes₁ : PipeInv k₁ := hinv.pipes.of_eq rfl rfl
    obtain ⟨k₂, hclose, hproc, hpipes, hf, hother, -⟩ := fileclose_spec hpipes₁ href₁
    have hrun : (sysClose p fd).run k = .ok (0, k₂) := by
      simp only [sysClose, StateT.run_bind, hr, ok_bind]
      change (fun p => (0, p.2)) <$> (fileclose f).run k₁ = _
      rw [hclose]
      rfl
    refine ⟨0, k₂, hrun, ?_,
      (hinv.idle.setOfile hp fd' none).of_proc_eq hproc, hpipes⟩
    -- the descriptor goes, and so does the reference
    intro g
    rw [debt_of_close hproc hf hother, Kernel.debt_setOfile _ hlive, hinv.debt_zero g]
    by_cases hg : g = f
    · subst hg
      simp [hof]
    · simp [hof, Ne.symm hg, hg]

theorem sysOpen_spec {k : Kernel} {p : Fin NPROC} (hinv : FileInv k)
    (hp : (k.proc p).state = .running) (found : Option Bool) (omode : Nat) :
    ∃ r k', (sysOpen p found omode).run k = .ok (r, k') ∧ FileInv k' := by
  have hlive : (k.proc p).state ≠ .unused := by
    rw [hp]
    decide
  cases found with
  | none => exact ⟨-1, k, by simp [sysOpen], hinv⟩
  | some device =>
    rcases filealloc_cases k with ⟨hnone, -⟩ | ⟨f, hf0, hfa⟩
    · exact ⟨-1, k, by simp [sysOpen, hnone], hinv⟩
    · set k₁ := k.setFile f { k.file f with ref := 1 }
      have htype : (k.file f).type = .none := hinv.pipes.free_none f hf0
      have hpipes₁ : PipeInv k₁ :=
        hinv.pipes.setFile (by simp [File.pipeEnd, htype, hf0]) fun h => absurd h (by simp)
      have hdebt₁ : ∀ g, k₁.debt g = if g = f then 1 else 0 := fun g => by
        rw [Kernel.debt_setFile, hinv.debt_zero g, hf0]
        simp
      rcases fdalloc_cases k₁ p f with hnone | ⟨fd, hfree, hrun⟩
      · -- no descriptor: the new file is closed again
        have href₁ : 1 ≤ (k₁.file f).ref := by simp [k₁, Kernel.setFile]
        obtain ⟨k₂, hclose, hproc, hpipes, hf, hother, -⟩ := fileclose_spec hpipes₁ href₁
        refine ⟨-1, k₂, by simp [sysOpen, hfa, hnone, hclose], ?_,
          hinv.idle.of_proc_eq (hproc.trans rfl), hpipes⟩
        intro g
        rw [debt_of_close hproc hf hother, hdebt₁]
        split_ifs <;> omega
      · set k₂ := k₁.setProc p { k₁.proc p with ofile := Function.update (k₁.proc p).ofile fd (some f) }
        have hlive₁ : (k₁.proc p).state ≠ .unused := hlive
        have hp₁ : (k₁.proc p).state = .running := hp
        refine ⟨fd.val, k₂.setFile f { k₂.file f with type := if device then .device else .inode, readable := omode &&& O_WRONLY = 0, writable := omode &&& O_WRONLY ≠ 0 ∨ omode &&& O_RDWR ≠ 0 },
          by simp [sysOpen, hfa, hrun, modifyFile], ?_, ?_, ?_⟩
        · -- the reference `filealloc` took is the descriptor `fdalloc` stored
          intro g
          rw [Kernel.debt_setFile, Kernel.debt_setOfile _ hlive₁, hdebt₁]
          have hfree' : (k₁.proc p).ofile fd = none := hfree
          by_cases hg : g = f
          · subst hg
            simp [hfree']
          · simp [hfree', hg, Ne.symm hg]
        · exact (hinv.idle.of_proc_eq rfl).setOfile hp₁ fd (some f)
        · have hpipes₂ : PipeInv k₂ := hpipes₁.of_eq rfl rfl
          refine hpipes₂.setFile ?_ fun h => absurd h (by simp [k₂, k₁])
          have htype₂ : (k₂.file f).type = .none := by simp [k₂, k₁, htype]
          simp only [File.pipeEnd, htype₂]
          split_ifs <;> simp_all

/-! ## `pipe` -/

/-- A new file from `filealloc` is free of type, so closing it gives back the
file table's references and pipes. -/
theorem fileclose_fresh {k : Kernel} {f : Fin NFILE} (hinv : PipeInv k) (hf : (k.file f).ref = 0) :
    (fileclose f).run (k.setFile f { k.file f with ref := 1 }) =
      .ok ((), (k.setFile f { k.file f with ref := 1 }).setFile f { k.file f with ref := 0, type := .none }) := by
  have htype := hinv.free_none f hf
  rw [fileclose_run_last (by simp), if_neg (by simp [htype])]
  simp

theorem pipealloc_spec {k : Kernel} {kalloc : Option Nat} (hinv : PipeInv k)
    (hfresh : ∀ a, kalloc = some a → k.pipe a = none) :
    (∃ k', (pipealloc kalloc).run k = .ok (none, k') ∧ k'.proc = k.proc ∧ PipeInv k' ∧
        k'.pipe = k.pipe ∧ ∀ g, (k'.file g).ref = (k.file g).ref) ∨
    ∃ f₀ f₁ a k', (pipealloc kalloc).run k = .ok (some (f₀, f₁), k') ∧ k'.proc = k.proc ∧
      PipeInv k' ∧ kalloc = some a ∧ f₀ ≠ f₁ ∧ (k.file f₀).ref = 0 ∧ (k.file f₁).ref = 0 ∧
      k'.IsEnd a false f₀ ∧ k'.IsEnd a true f₁ ∧ (k'.file f₀).ref = 1 ∧ (k'.file f₁).ref = 1 ∧
      (∀ g, g ≠ f₀ → g ≠ f₁ → k'.file g = k.file g) ∧
      k'.pipe = Function.update k.pipe a (some (Pipe.alloc kallocJunk)) := by
  rcases filealloc_cases k with ⟨h₀, -⟩ | ⟨f₀, hf₀, h₀⟩
  · exact .inl ⟨k, by simp [pipealloc, h₀], rfl, hinv, rfl, fun _ => rfl⟩
  have htype₀ := hinv.free_none f₀ hf₀
  set k₁ := k.setFile f₀ { k.file f₀ with ref := 1 }
  have hpipes₁ : PipeInv k₁ :=
    hinv.setFile (by simp [File.pipeEnd, htype₀, hf₀]) fun h => absurd h (by simp)
  rcases filealloc_cases k₁ with ⟨h₁, -⟩ | ⟨f₁, hf₁, h₁⟩
  · -- no second file: the first is closed again
    set k₂ := k₁.setFile f₀ { k.file f₀ with ref := 0, type := .none }
    have hrun : (pipealloc kalloc).run k = .ok (none, k₂) := by
      simp [pipealloc, h₀, h₁, fileclose_fresh hinv hf₀, k₂, k₁]
    refine .inl ⟨k₂, hrun, rfl, ?_, rfl, fun g => ?_⟩
    · exact hpipes₁.setFile (by simp [File.pipeEnd, k₁, htype₀]) fun _ => rfl
    · by_cases hg : g = f₀
      · subst hg
        simp [k₂, hf₀]
      · simp [k₂, k₁, hg]
  have hne : f₀ ≠ f₁ := by
    rintro rfl
    simp [k₁] at hf₁
  have hf₁' : (k.file f₁).ref = 0 := by simpa [k₁, Ne.symm hne] using hf₁
  have htype₁ := hinv.free_none f₁ hf₁'
  set k₂ := k₁.setFile f₁ { k₁.file f₁ with ref := 1 }
  have hpipes₂ : PipeInv k₂ :=
    hpipes₁.setFile (by simp [File.pipeEnd, k₁, Ne.symm hne, htype₁, hf₁']) fun h => absurd h (by simp)
  cases kalloc with
  | none =>
    -- no page: both files are closed again
    set k₃ := k₂.setFile f₀ { k.file f₀ with ref := 0, type := .none }
    set k₄ := k₃.setFile f₁ { k.file f₁ with ref := 0, type := .none }
    have hc₀ : (fileclose f₀).run k₂ = .ok ((), k₃) := by
      rw [fileclose_run_last (by simp [k₂, k₁, hne]), if_neg (by simp [k₂, k₁, hne, htype₀])]
      simp [k₃, k₂, k₁, hne]
    have hc₁ : (fileclose f₁).run k₃ = .ok ((), k₄) := by
      rw [fileclose_run_last (by simp [k₃, k₂, Ne.symm hne]),
        if_neg (by simp [k₃, k₂, k₁, Ne.symm hne, htype₁])]
      simp [k₄, k₃, k₂, k₁, Ne.symm hne]
    have hrun : (pipealloc none).run k = .ok (none, k₄) := by
      simp [pipealloc, h₀, h₁, hc₀, hc₁]
    have hpipes₃ : PipeInv k₃ :=
      hpipes₂.setFile (by simp [File.pipeEnd, k₂, k₁, hne, htype₀]) fun _ => rfl
    refine .inl ⟨k₄, hrun, rfl,
      hpipes₃.setFile (by simp [File.pipeEnd, k₃, k₂, k₁, Ne.symm hne, htype₁]) fun _ => rfl, rfl,
      fun g => ?_⟩
    by_cases hg₀ : g = f₀
    · subst hg₀
      simp [k₄, k₃, hne, hf₀]
    · by_cases hg₁ : g = f₁
      · subst hg₁
        simp [k₄, hf₁']
      · simp [k₄, k₃, k₂, k₁, hg₀, hg₁]
  | some a =>
    -- the pipe and its two ends
    set k₃ := k₂.setPipe a (some (Pipe.alloc kallocJunk))
    set k₄ := k₃.setFile f₀ { k₃.file f₀ with type := .pipe, readable := true, writable := false, pipe := a }
    set k₅ := k₄.setFile f₁ { k₄.file f₁ with type := .pipe, readable := false, writable := true, pipe := a }
    have hrun : (pipealloc (some a)).run k = .ok (some (f₀, f₁), k₅) := by
      simp [pipealloc, h₀, h₁, modifyFile, k₅, k₄, k₃]
    have hend₀ : (k₅.file f₀).pipeEnd = some (a, false) := by
      simp [File.pipeEnd, k₅, k₄, k₃, k₂, k₁, hne]
    have hend₁ : (k₅.file f₁).pipeEnd = some (a, true) := by
      simp [File.pipeEnd, k₅, k₄, k₃, k₂, k₁, Ne.symm hne]
    have hfile : ∀ g, g ≠ f₀ → g ≠ f₁ → k₅.file g = k.file g := fun g h₀ h₁ => by
      simp [k₅, k₄, k₃, k₂, k₁, h₀, h₁]
    have hpipe : k₅.pipe = Function.update k.pipe a (some (Pipe.alloc kallocJunk)) := by
      simp [k₅, k₄, k₃, k₂, k₁, Kernel.setPipe]
    refine .inr ⟨f₀, f₁, a, k₅, hrun, rfl,
      hinv.ofNewPipe (hfresh a rfl) hne hf₀ hf₁' hfile hend₀ hend₁ hpipe,
      rfl, hne, hf₀, hf₁', hend₀, hend₁, by simp [k₅, k₄, k₃, k₂, k₁, hne],
      by simp [k₅, k₄, k₃, k₂, k₁, Ne.symm hne],
      hfile, hpipe⟩

/-- A pipe no open file is an end of is not allocated. -/
theorem PipeInv.pipe_eq_none {k : Kernel} (h : PipeInv k) {a : Nat}
    (hno : ∀ w g, ¬ k.IsEnd a w g) : k.pipe a = none := by
  cases hpi : k.pipe a with
  | none => rfl
  | some pi =>
    obtain ⟨w, hw⟩ := h.some_open a pi hpi
    obtain ⟨g, hg⟩ := (h.open_iff a pi hpi w).mp hw
    exact absurd hg (hno w g)

/-- Closing the two ends of a pipe, each with one reference, frees the pipe. -/
theorem closeBoth_spec {kx : Kernel} {a : Nat} {rf wf : Fin NFILE} (hinv : PipeInv kx)
    (hrf : kx.IsEnd a false rf) (hwf : kx.IsEnd a true wf) (hrref : (kx.file rf).ref = 1)
    (hwref : (kx.file wf).ref = 1) :
    ∃ k₁ k₂, (fileclose rf).run kx = .ok ((), k₁) ∧ (fileclose wf).run k₁ = .ok ((), k₂) ∧
      k₂.proc = kx.proc ∧ PipeInv k₂ ∧ k₂.pipe = Function.update kx.pipe a none ∧
      (k₂.file rf).ref = 0 ∧ (k₂.file wf).ref = 0 ∧ ∀ g, g ≠ rf → g ≠ wf → k₂.file g = kx.file g := by
  have hne : wf ≠ rf := by
    rintro rfl
    have := (File.pipeEnd_eq_some.mp hrf).2.2.2
    rw [(File.pipeEnd_eq_some.mp hwf).2.2.2] at this
    cases this
  have hpipe_rf : (kx.file rf).pipe = a := (File.pipeEnd_eq_some.mp hrf).2.2.1
  obtain ⟨k₁, hc₁, hproc₁, hpipes₁, hr₁, hother₁, hpipe₁⟩ :=
    fileclose_spec hinv (show 1 ≤ (kx.file rf).ref by omega)
  have hw₁ : k₁.file wf = kx.file wf := hother₁ wf hne
  obtain ⟨k₂, hc₂, hproc₂, hpipes₂, hr₂, hother₂, hpipe₂⟩ :=
    fileclose_spec hpipes₁ (show 1 ≤ (k₁.file wf).ref by rw [hw₁]; omega)
  have hpipe_wf : (k₁.file wf).pipe = a := by
    rw [hw₁]
    exact (File.pipeEnd_eq_some.mp hwf).2.2.1
  -- no end of `a` is left: the two were the only ones
  have hno : ∀ w g, ¬ k₂.IsEnd a w g := by
    intro w g hg
    have hpos := (File.pipeEnd_eq_some.mp hg).1
    by_cases hgw : g = wf
    · rw [hgw, hr₂, hw₁] at hpos
      omega
    · by_cases hgr : g = rf
      · rw [hgr, hother₂ rf (Ne.symm hne), hr₁] at hpos
        omega
      · have hg' : kx.IsEnd a w g := by
          unfold Kernel.IsEnd at hg ⊢
          rwa [hother₂ g hgw, hother₁ g hgr] at hg
        cases w
        · exact hgr (hinv.end_unique a false g rf hg' hrf)
        · exact hgw (hinv.end_unique a true g wf hg' hwf)
  refine ⟨k₁, k₂, hc₁, hc₂, hproc₂.trans hproc₁, hpipes₂, ?_, ?_, ?_, ?_⟩
  · funext b
    by_cases hb : b = a
    · subst hb
      rw [hpipes₂.pipe_eq_none hno, Function.update_self]
    · rw [Function.update_of_ne hb, hpipe₂ b (by rw [hpipe_wf]; exact hb),
        hpipe₁ b (by rw [hpipe_rf]; exact hb)]
  · rw [hother₂ rf (Ne.symm hne), hr₁, hrref]
    rfl
  · rw [hr₂, hw₁, hwref]
    rfl
  · intro g hgr hgw
    rw [hother₂ g hgw, hother₁ g hgr]

theorem FileInv.of_refs {k k' : Kernel} (hinv : FileInv k) (hproc : k'.proc = k.proc)
    (hrefs : ∀ f, (k'.file f).ref = (k.file f).ref) (hpipes : PipeInv k') : FileInv k' where
  debt_zero f := by
    unfold Kernel.debt
    rw [Kernel.holders_congr hproc, hrefs]
    exact hinv.debt_zero f
  idle := hinv.idle.of_proc_eq hproc
  pipes := hpipes

/-- `sys_pipe`: every path keeps the books, and a failed call leaves the
descriptors, the references and the pipes as they were. -/
theorem sysPipe_spec {k : Kernel} {p : Fin NPROC} {kalloc : Option Nat} (hinv : FileInv k)
    (hp : (k.proc p).state = .running) (hfresh : ∀ a, kalloc = some a → k.pipe a = none)
    (ok : Bool) :
    ∃ r k', (sysPipe p kalloc ok).run k = .ok (r, k') ∧ FileInv k' ∧
      (r = -1 → k'.proc = k.proc ∧ k'.pipe = k.pipe ∧ ∀ f, (k'.file f).ref = (k.file f).ref) := by
  have hlive : (k.proc p).state ≠ .unused := by
    rw [hp]
    decide
  rcases pipealloc_spec hinv.pipes hfresh with ⟨k₁, hrun₁, hproc₁, hpipes₁, hpipe₁, hrefs₁⟩ |
    ⟨rf, wf, a, k₁, hrun₁, hproc₁, hpipes₁, rfl, hne, hrf₀, hwf₀, hrf, hwf, hrf₁, hwf₁, hfile₁,
      hpipe₁⟩
  · exact ⟨-1, k₁, by simp [sysPipe, hrun₁], hinv.of_refs hproc₁ hrefs₁ hpipes₁,
      fun _ => ⟨hproc₁, hpipe₁, hrefs₁⟩⟩
  -- every failure after `pipealloc` restores the descriptors, then closes both ends
  have hundo : ∀ kx, kx.proc = k.proc → kx.file = k₁.file → kx.pipe = k₁.pipe →
      ∃ k₂ k₃, (fileclose rf).run kx = .ok ((), k₂) ∧ (fileclose wf).run k₂ = .ok ((), k₃) ∧
        FileInv k₃ ∧ k₃.proc = k.proc ∧ k₃.pipe = k.pipe ∧ ∀ f, (k₃.file f).ref = (k.file f).ref := by
    intro kx hproc hfile hpipe
    have hpipesx : PipeInv kx := hpipes₁.of_eq hfile hpipe
    have hrfx : kx.IsEnd a false rf := by unfold Kernel.IsEnd; rw [hfile]; exact hrf
    have hwfx : kx.IsEnd a true wf := by unfold Kernel.IsEnd; rw [hfile]; exact hwf
    obtain ⟨k₂, k₃, hc₂, hc₃, hproc₃, hpipes₃, hpipe₃, hr₃, hw₃, hother₃⟩ :=
      closeBoth_spec hpipesx hrfx hwfx (by rw [hfile, hrf₁]) (by rw [hfile, hwf₁])
    have hrefs : ∀ f, (k₃.file f).ref = (k.file f).ref := by
      intro f
      by_cases hr : f = rf
      · rw [hr, hr₃, hrf₀]
      · by_cases hw : f = wf
        · rw [hw, hw₃, hwf₀]
        · rw [hother₃ f hr hw, hfile, hfile₁ f hr hw]
    have hpipe : k₃.pipe = k.pipe := by
      rw [hpipe₃, hpipe, hpipe₁, Function.update_idem, Function.update_eq_self_iff]
      exact (hfresh a rfl).symm
    exact ⟨k₂, k₃, hc₂, hc₃, hinv.of_refs (hproc₃.trans hproc) hrefs hpipes₃,
      hproc₃.trans hproc, hpipe, hrefs⟩
  have hp₁ : (k₁.proc p).state = .running := by rw [hproc₁]; exact hp
  have hlive₁ : (k₁.proc p).state ≠ .unused := by rw [hp₁]; decide
  rcases fdalloc_cases k₁ p rf with hnone₀ | ⟨fd₀, hfree₀, hfd₀⟩
  · obtain ⟨k₂, k₃, hc₂, hc₃, hinv₃, hrest⟩ := hundo k₁ hproc₁ rfl rfl
    exact ⟨-1, k₃, by simp [sysPipe, hrun₁, hnone₀, hc₂, hc₃], hinv₃, fun _ => hrest⟩
  set k₂ := k₁.setProc p { k₁.proc p with ofile := Function.update (k₁.proc p).ofile fd₀ (some rf) }
  rcases fdalloc_cases k₂ p wf with hnone₁ | ⟨fd₁, hfree₁, hfd₁⟩
  · -- the read end's descriptor is taken back
    set kx := k₂.setProc p { k₂.proc p with ofile := Function.update (k₂.proc p).ofile fd₀ none }
    have hset : (setOfile p fd₀ none).run k₂ = .ok ((), kx) := rfl
    have hprocx : kx.proc = k.proc := by
      rw [← hproc₁]
      funext q
      by_cases hq : q = p
      · rw [hq]
        simp only [kx, k₂, Kernel.setProc_proc_self, Function.update_idem]
        rw [Function.update_eq_self_iff.mpr hfree₀.symm]
      · simp [kx, k₂, hq]
    obtain ⟨k₃, k₄, hc₃, hc₄, hinv₄, hrest⟩ := hundo kx hprocx rfl rfl
    have hrun : (sysPipe p (some a) ok).run k = .ok (-1, k₄) := by
      simp only [sysPipe, StateT.run_bind, hrun₁, ok_bind, hfd₀, hnone₁, hset, hc₃, hc₄]
      rfl
    exact ⟨-1, k₄, hrun, hinv₄, fun _ => hrest⟩
  set k₃ := k₂.setProc p { k₂.proc p with ofile := Function.update (k₂.proc p).ofile fd₁ (some wf) }
  have hne₀₁ : fd₀ ≠ fd₁ := by
    rintro rfl
    simp [k₂] at hfree₁
  have hfree₁' : (k₁.proc p).ofile fd₁ = none := by simpa [k₂, Ne.symm hne₀₁] using hfree₁
  cases ok with
  | false =>
    -- the copy to user memory failed: both descriptors are taken back
    set kx₁ := k₃.setProc p { k₃.proc p with ofile := Function.update (k₃.proc p).ofile fd₀ none }
    set kx := kx₁.setProc p { kx₁.proc p with ofile := Function.update (kx₁.proc p).ofile fd₁ none }
    have hset₀ : (setOfile p fd₀ none).run k₃ = .ok ((), kx₁) := rfl
    have hset₁ : (setOfile p fd₁ none).run kx₁ = .ok ((), kx) := rfl
    have hprocx : kx.proc = k.proc := by
      rw [← hproc₁]
      funext q
      by_cases hq : q = p
      · rw [hq]
        simp only [kx, kx₁, k₃, k₂, Kernel.setProc_proc_self]
        congr 1
        funext i
        by_cases h₁ : i = fd₁
        · rw [h₁]
          simp [hfree₁']
        · by_cases h₀ : i = fd₀
          · rw [h₀, Function.update_of_ne hne₀₁, Function.update_self, hfree₀]
          · simp [h₀, h₁]
      · simp [kx, kx₁, k₃, k₂, hq]
    obtain ⟨k₄, k₅, hc₄, hc₅, hinv₅, hrest⟩ := hundo kx hprocx rfl rfl
    have hrun : (sysPipe p (some a) false).run k = .ok (-1, k₅) := by
      simp only [sysPipe, StateT.run_bind, hrun₁, ok_bind, hfd₀, hfd₁, Bool.not_false, if_true,
        hset₀]
      rw [hset₁, ok_bind, hc₄, ok_bind, hc₅, ok_bind]
      rfl
    exact ⟨-1, k₅, hrun, hinv₅, fun _ => hrest⟩
  | true =>
    -- each reference `pipealloc` took is now a descriptor
    have hlive₂ : (k₂.proc p).state ≠ .unused := by simpa [k₂] using hlive₁
    have hdebt₁ : ∀ g, k₁.debt g = (if g = rf then 1 else 0) + (if g = wf then 1 else 0) := by
      intro g
      have h0 := hinv.debt_zero g
      unfold Kernel.debt at h0 ⊢
      rw [Kernel.holders_congr hproc₁]
      by_cases hr : g = rf
      · subst hr
        simp [hrf₁, hne] at h0 ⊢
        rw [hrf₀] at h0
        omega
      · by_cases hw : g = wf
        · subst hw
          simp [hwf₁, hr] at h0 ⊢
          rw [hwf₀] at h0
          omega
        · simp [hr, hw, hfile₁ g hr hw]
          omega
    refine ⟨0, k₃, by simp [sysPipe, hrun₁, hfd₀, hfd₁], ⟨fun g => ?_, ?_, hpipes₁.of_eq rfl rfl⟩,
      by simp⟩
    · rw [Kernel.debt_setOfile _ hlive₂, Kernel.debt_setOfile _ hlive₁, hdebt₁]
      have hfree₁'' : (k₂.proc p).ofile fd₁ = none := hfree₁
      simp only [hfree₀, hfree₁'', reduceCtorEq, if_false, Option.some.injEq]
      by_cases hr : g = rf
      · subst hr
        simp [hne, Ne.symm hne]
      · by_cases hw : g = wf
        · subst hw
          simp [hr, Ne.symm hr]
        · simp [hr, hw, Ne.symm hr, Ne.symm hw]
    · exact ((hinv.idle.of_proc_eq hproc₁).setOfile hp₁ fd₀ (some rf)).setOfile
        (by simpa [k₂] using hp₁) fd₁ (some wf)

end Xv6.Tables
