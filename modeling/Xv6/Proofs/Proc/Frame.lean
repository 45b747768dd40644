import Xv6.Proc.Table
import Xv6.Lib.StateExcept

/-!
# What the calls leave alone

The functions of the file table and the file system calls change no process
but its open files: they keep `Kernel.tree`, the process table without its
open files, with `nextpid` and `initproc`.  Each is proved by following its
`do` block with the frame rules of `Xv6.Lib.StateExcept`.
-/

namespace Xv6.Tables

open StateExcept

/-- A process without its open files. -/
def Proc.info (pr : Proc) : Proc := { pr with ofile := fun _ => none }

/-- The process table without open files, with `nextpid` and `initproc`. -/
def Kernel.tree (k : Kernel) : (Fin NPROC → Proc) × Int × Fin NPROC :=
  (fun q => (k.proc q).info, k.nextpid, k.initproc)

/-- `k'` has the process tree of `k`. -/
def SameTree (k k' : Kernel) : Prop := k'.tree = k.tree

instance : IsPreorder Kernel SameTree where
  refl _ := rfl
  trans _ _ _ h₁ h₂ := h₂.trans h₁

theorem sameTree_setFile (k : Kernel) (f : Fin NFILE) (ff : File) :
    SameTree k (k.setFile f ff) := rfl

theorem sameTree_setPipe (k : Kernel) (a : Nat) (pi : Option Pipe) :
    SameTree k (k.setPipe a pi) := rfl

theorem sameTree_setOfile (k : Kernel) (p : Fin NPROC) (ofile : Fin NOFILE → Option (Fin NFILE)) :
    SameTree k (k.setProc p { k.proc p with ofile }) := by
  unfold SameTree Kernel.tree Kernel.setProc
  congr 1
  funext q
  by_cases hq : q = p
  · subst hq
    simp [Proc.info]
  · simp [Function.update_of_ne hq]

theorem keeps_modifyFile (f : Fin NFILE) (g : File → File) :
    Keeps SameTree (modifyFile f g) :=
  keeps_modify fun k => sameTree_setFile k f _

theorem keeps_setOfile (p : Fin NPROC) (fd : Fin NOFILE) (f : Option (Fin NFILE)) :
    Keeps SameTree (setOfile p fd f) :=
  keeps_modify fun k => sameTree_setOfile k p _

theorem keeps_filealloc : Keeps SameTree filealloc := by
  unfold filealloc
  refine keeps_bind keeps_get fun k => ?_
  split
  · exact keeps_pure _
  · exact keeps_bind (keeps_modifyFile _ _) fun _ => keeps_pure _

theorem keeps_filedup (f : Fin NFILE) : Keeps SameTree (filedup f) := by
  unfold filedup
  refine keeps_bind keeps_get fun k => ?_
  dsimp only
  split
  · exact keeps_bind (keeps_throw _) fun _ => keeps_modifyFile _ _
  · exact keeps_modifyFile _ _

theorem keeps_pipeclose (a : Nat) (writable : Bool) : Keeps SameTree (pipeclose a writable) := by
  unfold pipeclose
  refine keeps_bind keeps_get fun k => ?_
  split
  · exact keeps_ite (keeps_modify fun k => sameTree_setPipe k a _)
      (keeps_modify fun k => sameTree_setPipe k a _)
  · exact keeps_throw _

theorem keeps_fileclose (f : Fin NFILE) : Keeps SameTree (fileclose f) := by
  unfold fileclose
  refine keeps_bind keeps_get fun k => ?_
  dsimp only
  -- the panic test is compiled into both branches of what follows it
  refine keeps_ite (keeps_bind (keeps_throw _) fun _ => ?_) ?_
  all_goals
    exact keeps_ite (keeps_bind (keeps_modifyFile _ _) fun _ => keeps_pure _)
      (keeps_bind (keeps_modifyFile _ _) fun _ => keeps_ite (keeps_pipeclose _ _) (keeps_pure _))

theorem keeps_pipealloc (kalloc : Option Nat) : Keeps SameTree (pipealloc kalloc) := by
  unfold pipealloc
  refine keeps_bind keeps_filealloc fun r0 => ?_
  split
  · refine keeps_bind keeps_filealloc fun r1 => ?_
    split
    · split
      · exact keeps_bind (keeps_modify fun k => sameTree_setPipe k _ _) fun _ =>
          keeps_bind (keeps_modifyFile _ _) fun _ =>
            keeps_bind (keeps_modifyFile _ _) fun _ => keeps_pure _
      · exact keeps_bind (keeps_fileclose _) fun _ =>
          keeps_bind (keeps_fileclose _) fun _ => keeps_pure _
    · exact keeps_bind (keeps_fileclose _) fun _ => keeps_pure _
  · exact keeps_pure _

theorem keeps_fdalloc (p : Fin NPROC) (f : Fin NFILE) : Keeps SameTree (fdalloc p f) := by
  unfold fdalloc
  refine keeps_bind keeps_get fun k => ?_
  dsimp only
  split
  · exact keeps_pure _
  · exact keeps_bind (keeps_setOfile _ _ _) fun _ => keeps_pure _

theorem keeps_argfd (p : Fin NPROC) (fd : Int) : Keeps SameTree (argfd p fd) := by
  unfold argfd
  split
  · refine keeps_bind keeps_get fun k => ?_
    split
    · exact keeps_pure _
    · exact keeps_pure _
  · exact keeps_pure _

theorem keeps_sysOpen (p : Fin NPROC) (found : Option Bool) (omode : Nat) :
    Keeps SameTree (sysOpen p found omode) := by
  unfold sysOpen
  split
  · refine keeps_bind keeps_filealloc fun r => ?_
    split
    · refine keeps_bind (keeps_fdalloc _ _) fun r' => ?_
      split
      · exact keeps_bind (keeps_modifyFile _ _) fun _ => keeps_pure _
      · exact keeps_bind (keeps_fileclose _) fun _ => keeps_pure _
    · exact keeps_pure _
  · exact keeps_pure _

theorem keeps_sysPipe (p : Fin NPROC) (kalloc : Option Nat) (copyoutOk : Bool) :
    Keeps SameTree (sysPipe p kalloc copyoutOk) := by
  unfold sysPipe
  refine keeps_bind (keeps_pipealloc _) fun r => ?_
  split
  · refine keeps_bind (keeps_fdalloc _ _) fun r0 => ?_
    split
    · refine keeps_bind (keeps_fdalloc _ _) fun r1 => ?_
      split
      · -- the copy of the descriptors to user memory
        exact keeps_ite (keeps_bind (keeps_setOfile _ _ _) fun _ =>
          keeps_bind (keeps_setOfile _ _ _) fun _ => keeps_bind (keeps_fileclose _) fun _ =>
            keeps_bind (keeps_fileclose _) fun _ => keeps_pure _) (keeps_pure _)
      · exact keeps_bind (keeps_setOfile _ _ _) fun _ => keeps_bind (keeps_fileclose _)
          fun _ => keeps_bind (keeps_fileclose _) fun _ => keeps_pure _
    · exact keeps_bind (keeps_fileclose _) fun _ =>
        keeps_bind (keeps_fileclose _) fun _ => keeps_pure _
  · exact keeps_pure _

theorem keeps_sysDup (p : Fin NPROC) (fd : Int) : Keeps SameTree (sysDup p fd) := by
  unfold sysDup
  refine keeps_bind (keeps_argfd _ _) fun r => ?_
  split
  · refine keeps_bind (keeps_fdalloc _ _) fun r' => ?_
    split
    · exact keeps_bind (keeps_filedup _) fun _ => keeps_pure _
    · exact keeps_pure _
  · exact keeps_pure _

theorem keeps_sysClose (p : Fin NPROC) (fd : Int) : Keeps SameTree (sysClose p fd) := by
  unfold sysClose
  refine keeps_bind (keeps_argfd _ _) fun r => ?_
  split
  · exact keeps_bind (keeps_setOfile _ _ _) fun _ =>
      keeps_bind (keeps_fileclose _) fun _ => keeps_pure _
  · exact keeps_pure _

theorem keeps_forkFiles (p np : Fin NPROC) :
    ∀ fds, Keeps SameTree (forkFiles p np fds)
  | [] => keeps_pure _
  | i :: is => by
    unfold forkFiles
    refine keeps_bind keeps_get fun k => ?_
    split
    · exact keeps_bind (keeps_filedup _) fun _ => keeps_bind (keeps_setOfile _ _ _) fun _ =>
        keeps_forkFiles p np is
    · exact keeps_forkFiles p np is

theorem keeps_closeFiles (p : Fin NPROC) :
    ∀ fds, Keeps SameTree (closeFiles p fds)
  | [] => keeps_pure _
  | fd :: fds => by
    unfold closeFiles
    refine keeps_bind keeps_get fun k => ?_
    split
    · exact keeps_bind (keeps_fileclose _) fun _ => keeps_bind (keeps_setOfile _ _ _) fun _ =>
        keeps_closeFiles p fds
    · exact keeps_closeFiles p fds

end Xv6.Tables
