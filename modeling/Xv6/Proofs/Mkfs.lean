import Xv6.Mkfs
import Xv6.Lib.StateExcept

/-!
# What `mkfs` writes

`mkfs` hands out inode numbers in order and never goes back: the root gets
`ROOTINO` and the `k`-th input file `k + 2`, so an image of `n` files uses the
inodes up to `n + 1` (`mkfs_freeinode`), which is past the last inode of
`sb.ninodes` once there are `NINODES - 1` files (`last_inum_of_mkfs`).

The root directory's size is rounded up to the block boundary after its
entries, while `iappend` allocates a block only for the bytes it writes.  When
the entries end exactly at a block boundary, the rounded size covers one more
block than the root has (`root_size_past_blocks`).
-/

namespace Xv6.Mkfs

open StateExcept LittleEndian

variable {s s' : State}

/-! ## The image file -/

@[simp] theorem wsect_freeinode (s : State) (sec : Nat) (buf : Block) :
    (wsect s sec buf).freeinode = s.freeinode := rfl

@[simp] theorem wsect_freeblock (s : State) (sec : Nat) (buf : Block) :
    (wsect s sec buf).freeblock = s.freeblock := rfl

theorem rsect_eq_ok {sec : Nat} {buf : Block} :
    rsect s sec = .ok buf ↔ sec < s.nsect ∧ s.img sec = buf := by
  unfold rsect
  split <;> simp_all

theorem winode_eq_ok {inum : Nat} {din : Din} :
    winode s inum din = .ok s' ↔ IBLOCK inum < s.nsect ∧
      wsect s (IBLOCK inum) (setBytes (s.img (IBLOCK inum)) (inum % IPB * dinodeSize)
        (getBytes din 0 dinodeSize)) = s' := by
  unfold winode
  rw [bind_eq_ok]
  constructor
  · rintro ⟨buf, hr, h⟩
    obtain ⟨hlt, rfl⟩ := rsect_eq_ok.mp hr
    exact ⟨hlt, Except.ok.inj h⟩
  · rintro ⟨hlt, rfl⟩
    exact ⟨_, rsect_eq_ok.mpr ⟨hlt, rfl⟩, rfl⟩

theorem winode_freeinode {inum : Nat} {din : Din} (h : winode s inum din = .ok s') :
    s'.freeinode = s.freeinode := by
  obtain ⟨-, rfl⟩ := winode_eq_ok.mp h
  rfl

/-! ## The inode counter -/

/-- `ialloc` returns the next inode number and moves the counter past it. -/
theorem ialloc_eq_ok {type inum : Nat} (h : ialloc s type = .ok (inum, s')) :
    inum = s.freeinode ∧ s'.freeinode = s.freeinode + 1 := by
  unfold ialloc at h
  obtain ⟨s₁, hw, h⟩ := bind_eq_ok.mp h
  obtain ⟨rfl, rfl⟩ := Prod.mk.inj (Except.ok.inj h)
  exact ⟨rfl, winode_freeinode hw⟩

@[simp] theorem allocAddr_freeinode (s : State) (din : Din) (k : Nat) :
    (allocAddr s din k).1.freeinode = s.freeinode := by
  unfold allocAddr
  split <;> rfl

theorem blockOf_freeinode {din din' : Din} {fbn x : Nat}
    (h : blockOf s din fbn = .ok (s', din', x)) : s'.freeinode = s.freeinode := by
  unfold blockOf at h
  by_cases hd : fbn < NDIRECT
  · rw [if_pos hd] at h
    rcases ha : allocAddr s din fbn with ⟨s₁, din₁⟩
    rw [ha] at h
    cases h
    rw [← allocAddr_freeinode s din fbn, ha]
  · rw [if_neg hd] at h
    rcases ha : allocAddr s din NDIRECT with ⟨s₁, din₁⟩
    rw [ha] at h
    obtain ⟨ind, -, h⟩ := bind_eq_ok.mp h
    have h₁ : s₁.freeinode = s.freeinode := by rw [← allocAddr_freeinode s din NDIRECT, ha]
    -- a zero entry of the indirect block takes the next free block
    dsimp only at h
    split_ifs at h
    · cases h
      exact h₁
    · cases h
      exact h₁

theorem iappendLoop_freeinode {fuel off off' : Nat} {din din' : Din} {p : List UInt8}
    (h : iappendLoop fuel s din off p = .ok (s', din', off')) : s'.freeinode = s.freeinode := by
  induction fuel generalizing s din off p with
  | zero =>
    cases h
    rfl
  | succ fuel ih =>
    unfold iappendLoop at h
    by_cases hp : 0 < p.length
    · rw [if_pos hp] at h
      by_cases hf : off / BSIZE < MAXFILE
      · rw [if_pos hf] at h
        obtain ⟨⟨s₁, din₁, x⟩, hb, h⟩ := bind_eq_ok.mp h
        obtain ⟨buf, -, h⟩ := bind_eq_ok.mp h
        rw [ih h, wsect_freeinode, blockOf_freeinode hb]
      · rw [if_neg hf] at h
        cases h
    · rw [if_neg hp] at h
      cases h
      rfl

theorem iappend_freeinode {inum : Nat} {p : List UInt8} (h : iappend s inum p = .ok s') :
    s'.freeinode = s.freeinode := by
  unfold iappend at h
  obtain ⟨din, -, h⟩ := bind_eq_ok.mp h
  obtain ⟨⟨s₁, din₁, off⟩, hl, h⟩ := bind_eq_ok.mp h
  rw [winode_freeinode h, iappendLoop_freeinode hl]

theorem appendData_freeinode {inum fuel : Nat} {data : List UInt8}
    (h : appendData inum fuel s data = .ok s') : s'.freeinode = s.freeinode := by
  induction fuel generalizing s data with
  | zero =>
    cases h
    rfl
  | succ fuel ih =>
    unfold appendData at h
    by_cases hd : data = []
    · rw [if_pos hd] at h
      cases h
      rfl
    · rw [if_neg hd] at h
      obtain ⟨s₁, hi, h⟩ := bind_eq_ok.mp h
      rw [ih h, iappend_freeinode hi]

/-- Each input file takes one inode. -/
theorem addFile_freeinode {rootino : Nat} {f : Input} (h : addFile rootino s f = .ok s') :
    s'.freeinode = s.freeinode + 1 := by
  unfold addFile at h
  split at h
  · obtain ⟨⟨inum, s₁⟩, hi, h⟩ := bind_eq_ok.mp h
    obtain ⟨s₂, hr, h⟩ := bind_eq_ok.mp h
    rw [appendData_freeinode h, iappend_freeinode hr, (ialloc_eq_ok hi).2]
  · cases h

theorem foldlM_addFile_freeinode {rootino : Nat} {files : List Input}
    (h : files.foldlM (addFile rootino) s = .ok s') :
    s'.freeinode = s.freeinode + files.length := by
  induction files generalizing s with
  | nil =>
    cases h
    rfl
  | cons f files ih =>
    rw [List.foldlM_cons] at h
    obtain ⟨s₁, hf, h⟩ := bind_eq_ok.mp h
    rw [ih h, addFile_freeinode hf, List.length_cons]
    omega

theorem balloc_freeinode {used : Nat} (h : balloc s used = .ok s') : s'.freeinode = s.freeinode := by
  unfold balloc at h
  by_cases hu : used < BPB
  · rw [if_neg (not_not.mpr hu)] at h
    cases h
    rfl
  · rw [if_pos hu] at h
    cases h

/-- The root and the input files take the inodes `1, …, files.length + 1`. -/
theorem mkfs_freeinode {files : List Input} (h : mkfs files = .ok s) :
    s.freeinode = files.length + 2 := by
  unfold mkfs at h
  obtain ⟨⟨rootino, s₁⟩, hi, h⟩ := bind_eq_ok.mp h
  dsimp only at h
  split_ifs at h with hr
  · cases h
  obtain ⟨s₂, h₂, h⟩ := bind_eq_ok.mp h
  obtain ⟨s₃, h₃, h⟩ := bind_eq_ok.mp h
  obtain ⟨s₄, h₄, h⟩ := bind_eq_ok.mp h
  obtain ⟨din, -, h⟩ := bind_eq_ok.mp h
  obtain ⟨s₅, h₅, h⟩ := bind_eq_ok.mp h
  rw [balloc_freeinode h, winode_freeinode h₅, foldlM_addFile_freeinode h₄,
    iappend_freeinode h₃, iappend_freeinode h₂, (ialloc_eq_ok hi).2]
  simp only [wsect_freeinode]
  omega

/-- The last inode `mkfs` allocates is `files.length + 1`: from `NINODES - 1`
files on, it is past the inodes the superblock declares. -/
theorem last_inum_of_mkfs {files : List Input} (h : mkfs files = .ok s)
    (hn : NINODES - 1 ≤ files.length) : sb.ninodes ≤ s.freeinode - 1 := by
  rw [mkfs_freeinode h]
  change NINODES ≤ files.length + 2 - 1
  omega

/-! ## The root directory's size -/

/-- Sixty-two empty input files, named by two letters each: with `.` and `..`
the root has 64 entries, which fill its first block exactly. -/
def sixtyTwoFiles : List Input :=
  (List.range 62).map fun k => ⟨[97 + (k / 26).toUInt8, 97 + (k % 26).toUInt8], []⟩

/-- On sixty-two input files `mkfs` succeeds, and the root's size is rounded up
to two blocks while only its first block has an address. -/
theorem root_size_past_blocks :
    ∃ s din, mkfs sixtyTwoFiles = .ok s ∧ rinode s ROOTINO = .ok din ∧
      din.size = 2 * BSIZE ∧ din.addr 0 ≠ 0 ∧ din.addr 1 = 0 := by
  have hrun : (do
      let s ← mkfs sixtyTwoFiles
      let din ← rinode s ROOTINO
      pure (decide (din.size = 2 * BSIZE ∧ din.addr 0 ≠ 0 ∧ din.addr 1 = 0))) = Except.ok true := by
    decide +kernel
  obtain ⟨s, hm, h⟩ := bind_eq_ok.mp hrun
  obtain ⟨din, hr, h⟩ := bind_eq_ok.mp h
  exact ⟨s, din, hm, hr, of_decide_eq_true (Except.ok.inj h)⟩

end Xv6.Mkfs
