import Xv6.Fs.Syscall
import Xv6.Lib.Reach
import Mathlib.Algebra.BigOperators.Group.List.Basic
import Mathlib.Algebra.BigOperators.Group.Finset.Basic

/-!
# The namespace the directories describe

No function of the source computes these: they say what the directories on
the disk mean.  A directory's content is a sequence of 16-byte `struct dirent`
records, and a record with a non-zero `inum` is an entry.  The inodes in the
namespace are those reachable from `ROOTINO` through entries other than `.` and
`..`, and an inode's link count is the number of entries that name it in
directories of the namespace, `.` entries apart; a `..` entry is a link to the
parent it names.  This is the count that `nlink` is meant to keep.

`Fs.Reachable` is the closure of the entry relation, and `Fs.linkCount` sums
over the reachable directories.  Both are computed by `Fs.reachSearch`, the
search of `Xv6.Lib.Reach`, once the directories it has found name nothing it
has not: `Fs.reachable_iff_of_closed` and `Fs.linkCount_eq_of_closed`.
-/

namespace Xv6

/-- The first `k` records of 16 bytes of `data`. -/
def recordsAux : Nat → List UInt8 → List (List UInt8)
  | 0, _ => []
  | k + 1, data => data.take direntSize :: recordsAux k (data.drop direntSize)

/-- The whole 16-byte records of a directory's content, in order. -/
def records (data : List UInt8) : List (List UInt8) :=
  recordsAux (data.length / direntSize) data

/-- Whether an entry's name is `.` or `..`, as `namecmp` compares names. -/
def isDots (name : List UInt8) : Bool :=
  namecmp name [46] = 0 || namecmp name [46, 46] = 0

/-- A `struct dirent`'s `inum` is a `ushort`. -/
theorem direntInum_lt (de : List UInt8) : direntInum de < 2 ^ 16 := by
  have h0 := (de.getD 0 0).toNat_lt
  have h1 := (de.getD 1 0).toNat_lt
  unfold direntInum
  omega

namespace Fs

/-- The entries of inode `d` if it is a directory, and none otherwise. -/
def entries (fs : Fs) (d : Nat) : List (List UInt8) :=
  if (fs.dinode d).type = T_DIR then
    (records (fs.dinode d).data).filter fun de => direntInum de ≠ 0
  else []

/-- The inodes that directory `d` names under entries other than `.` and `..`. -/
def children (fs : Fs) (d : Nat) : List Nat :=
  ((fs.entries d).filter fun de => !isDots (direntName de)).map direntInum

/-- Inode `i` is in the namespace: a path from the root reaches it. -/
def Reachable (fs : Fs) (i : Nat) : Prop :=
  Relation.ReflTransGen (Reach.Succ fs.children) ROOTINO i

/-- The entries of directory `d` that name `i`, its `.` entry apart. -/
def linksFrom (fs : Fs) (d i : Nat) : Nat :=
  ((fs.entries d).filter fun de => direntInum de = i ∧ namecmp (direntName de) [46] ≠ 0).length

open Classical in
/-- The number of links to `i` in the namespace.  Every inode in it is the root
or named by a 16-bit `inum`, so the sum over `[0, 2^16)` sees all of them. -/
noncomputable def linkCount (fs : Fs) (i : Nat) : Nat :=
  ∑ d ∈ (Finset.range (2 ^ 16)).filter fs.Reachable, fs.linksFrom d i

/-- `fuel` rounds of the search for the namespace. -/
def reachSearch (fs : Fs) (fuel : Nat) : List Nat :=
  Reach.search fs.children fuel [ROOTINO]

theorem lt_of_reachable {fs : Fs} {i : Nat} (h : fs.Reachable i) : i < 2 ^ 16 := by
  cases h.cases_tail with
  | inl hroot => simp [hroot]
  | inr hstep =>
    obtain ⟨d, -, hchild⟩ := hstep
    -- the last step names `i` in an entry
    obtain ⟨de, -, rfl⟩ := List.mem_map.mp hchild
    exact direntInum_lt de

variable {fs : Fs} {fuel : Nat}

/-- When the search's result is closed under `children`, it is the namespace. -/
theorem reachable_iff_of_closed (hc : Reach.Closed fs.children (fs.reachSearch fuel))
    {i : Nat} : fs.Reachable i ↔ i ∈ fs.reachSearch fuel := by
  rw [reachSearch, Reach.mem_search_iff hc]
  simp [Reachable]

/-- When the search's result is closed, the link count is its sum over it. -/
theorem linkCount_eq_of_closed (hc : Reach.Closed fs.children (fs.reachSearch fuel))
    (i : Nat) : fs.linkCount i = ((fs.reachSearch fuel).map (fs.linksFrom · i)).sum := by
  classical
  have hset : (Finset.range (2 ^ 16)).filter fs.Reachable = (fs.reachSearch fuel).toFinset := by
    ext d
    simp only [Finset.mem_filter, Finset.mem_range, List.mem_toFinset]
    rw [← reachable_iff_of_closed hc]
    exact ⟨fun h => h.2, fun h => ⟨lt_of_reachable h, h⟩⟩
  have hnodup : (fs.reachSearch fuel).Nodup := Reach.nodup_search (List.nodup_singleton _)
  unfold linkCount
  rw [hset, List.sum_toFinset _ hnodup]

end Fs

end Xv6
