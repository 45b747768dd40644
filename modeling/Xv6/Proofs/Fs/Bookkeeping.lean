import Xv6.Fs.Namespace
import Xv6.Proofs.Fs.Inode

/-!
# Where the namespace and its bookkeeping part

`create` and `sys_link` take the parent directory from `nameiparent`, and when
the path is relative that is the working directory, whether or not it is still
named anywhere.  A process can unlink its own working directory and go on
adding entries to it.  The first two runs below do that from a fresh image:
a link made there counts in `nlink` but is not in the namespace, and a file
made there stays allocated once its last reference goes, with nothing left to
free it.  The third run is a system call that fails after it changed the
namespace: `open` with `O_CREATE` makes its file before it looks for a free
descriptor.

Each run is computed once, as a Boolean, from `bootOne`; the namespace facts
come from `Fs.reachSearch`, with the closure check that makes it exact.
-/

namespace Xv6

open StateExcept Transition

/-! ## A link the namespace does not hold -/

/-- `open("/f", O_CREATE|O_RDWR); mkdir("/d"); chdir("/d"); unlink("/d");
link("/f", "x")`, by one process. -/
def linkIntoUnlinkedCwd : List (Fin 1 × Call) :=
  [(soleProc, .openFile [47, 102] (O_CREATE ||| O_RDWR)), (soleProc, .mkdir [47, 100]),
    (soleProc, .chdir [47, 100]), (soleProc, .unlink [47, 100]),
    (soleProc, .link [47, 102] [120])]

/-- After the run, the file `f` (inode 2) has `nlink = 2`, but only one entry of
the namespace names it: `x` went into `d`, which no path reaches. -/
theorem link_into_unlinked_cwd_miscounts :
    ∃ s, Reachable (· = bootOne) Sys.Next s ∧ (s.fs.dinode 2).type = T_FILE ∧
      (s.fs.dinode 2).nlink = 2 ∧ s.fs.linkCount 2 = 1 := by
  have hrun : (exec Sys.step bootOne linkIntoUnlinkedCwd).map (fun s =>
      decide ((s.fs.dinode 2).type = T_FILE ∧ (s.fs.dinode 2).nlink = 2 ∧
        Reach.Closed s.fs.children (s.fs.reachSearch 1) ∧
        ((s.fs.reachSearch 1).map (s.fs.linksFrom · 2)).sum = 1)) = some true := by
    decide +kernel
  obtain ⟨s, hs, hp⟩ := Sys.exists_reachable_of_exec hrun
  obtain ⟨htype, hnlink, hclosed, hsum⟩ := of_decide_eq_true hp
  have hcount : s.fs.linkCount 2 = 1 := by
    rw [Fs.linkCount_eq_of_closed hclosed 2]
    exact hsum
  exact ⟨s, hs, htype, hnlink, hcount⟩

/-! ## A file nothing reaches and nothing frees -/

/-- `mkdir("d"); chdir("d"); unlink("/d"); close(open("x", O_CREATE));
chdir("/")`, by one process. -/
def orphanFile : List (Fin 1 × Call) :=
  [(soleProc, .mkdir [100]), (soleProc, .chdir [100]), (soleProc, .unlink [47, 100]),
    (soleProc, .openFile [120] O_CREATE), (soleProc, .close 0), (soleProc, .chdir [47])]

/-- After the run, `x` (inode 3) is an allocated file with `nlink = 1` that no
path reaches and no slot of the inode table references: `close` dropped its
last reference while its link kept it, and the last `chdir` freed `d`, the
only directory that named it. -/
theorem unreachable_file_outlives_last_reference :
    ∃ s, Reachable (· = bootOne) Sys.Next s ∧ (s.fs.dinode 3).type = T_FILE ∧
      (s.fs.dinode 3).nlink = 1 ∧ ¬ s.fs.Reachable 3 ∧
      ∀ ip : Fin NINODE, (s.fs.inode ip).inum = 3 → (s.fs.inode ip).ref = 0 := by
  have hrun : (exec Sys.step bootOne orphanFile).map (fun s =>
      decide ((s.fs.dinode 3).type = T_FILE ∧ (s.fs.dinode 3).nlink = 1 ∧
        Reach.Closed s.fs.children (s.fs.reachSearch 1) ∧ 3 ∉ s.fs.reachSearch 1 ∧
        ∀ ip : Fin NINODE, (s.fs.inode ip).inum = 3 → (s.fs.inode ip).ref = 0)) =
      some true := by
    decide +kernel
  obtain ⟨s, hs, hp⟩ := Sys.exists_reachable_of_exec hrun
  obtain ⟨htype, hnlink, hclosed, hout, hfree⟩ := of_decide_eq_true hp
  have hunreach : ¬ s.fs.Reachable 3 := by
    rw [Fs.reachable_iff_of_closed hclosed]
    exact hout
  exact ⟨s, hs, htype, hnlink, hunreach, hfree⟩

/-! ## An `open` that fails after `create` -/

/-- `NOFILE` opens of `/` for reading, which fill the process's descriptors. -/
def fillFds : List (Fin 1 × Call) :=
  List.replicate NOFILE (soleProc, .openFile [47] O_RDONLY)

/-- With every descriptor in use, `open("g", O_CREATE)` returns `-1`, yet `g`
(inode 2, free before) is now an allocated file with `nlink = 1`, named by the
root: `create` has run before `fdalloc` fails, and the failure path only
unlocks and releases the inode. -/
theorem open_create_fails_after_creating :
    ∃ s, Reachable (· = bootOne) Sys.Next s ∧ (s.fs.dinode 2).type = 0 ∧
      2 ∉ s.fs.children ROOTINO ∧
      ∃ s', (syscall (0 : Fin 1) (.openFile [103] O_CREATE)).run s = .ok (-1, s') ∧
        (s'.fs.dinode 2).type = T_FILE ∧ (s'.fs.dinode 2).nlink = 1 ∧
        2 ∈ s'.fs.children ROOTINO := by
  have hrun : (exec Sys.step bootOne fillFds).map (fun s =>
      decide ((s.fs.dinode 2).type = 0 ∧ 2 ∉ s.fs.children ROOTINO) &&
      returnsWith ((syscall (0 : Fin 1) (.openFile [103] O_CREATE)).run s) fun r s' =>
        decide (r = -1 ∧ (s'.fs.dinode 2).type = T_FILE ∧ (s'.fs.dinode 2).nlink = 1 ∧
          2 ∈ s'.fs.children ROOTINO)) = some true := by
    decide +kernel
  obtain ⟨s, hs, hp⟩ := Sys.exists_reachable_of_exec hrun
  rw [Bool.and_eq_true] at hp
  obtain ⟨hfree, hopen⟩ := hp
  obtain ⟨htype, hnamed⟩ := of_decide_eq_true hfree
  obtain ⟨r, s', hres, hafter⟩ := exists_of_returnsWith hopen
  obtain ⟨rfl, htype', hnlink', hnamed'⟩ := of_decide_eq_true hafter
  exact ⟨s, hs, htype, hnamed, s', hres, htype', hnlink', hnamed'⟩

end Xv6
