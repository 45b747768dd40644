import Xv6.Fs.Syscall
import Xv6.Lib.StateExcept
import Mathlib.Data.Fintype.Card

/-!
# What the inode functions do

One lemma per function of the inode layer, saying how it ends when run on a
state: with which result and state, or with which panic.  Later proofs cite
these and do not unfold the functions.

`ilock` is where a lookup meets the disk: it panics with `ilock: no type`
exactly when it has to read a dinode that is free.  A run of five system calls
from a fresh image leaves a directory whose `..` entry names a freed inode, so
that the sixth call, an `open` of `..`, takes that panic.

`iget` panics with `iget: no inodes` exactly when every slot of the inode
table is referenced and none holds the inode it wants.  Open files keep their
inodes referenced, and the file table has more entries than the inode table:
four processes that create and keep open 48 files fill the table but one
slot, and the next `open` that creates a file panics in `iget`.
-/

namespace Xv6

open StateExcept Transition

/-! ## `ilock` -/

/-- What `ilock` computes: a panic on an unreferenced slot, nothing on a
`valid` one, and otherwise the dinode read into the slot, or a panic if it is
free. -/
theorem ilock_run (ip : Fin NINODE) (s : Fs) :
    (ilock ip).run s =
      if (s.inode ip).ref < 1 then .error "ilock"
      else if (s.inode ip).valid then .ok ((), s)
      else if (s.dinode (s.inode ip).inum).type = 0 then .error "ilock: no type"
      else .ok ((), s.setInode ip
        { s.inode ip with din := s.dinode (s.inode ip).inum, valid := true }) := by
  simp only [ilock, slot, modifySlot, StateT.run_bind]
  by_cases href : (s.inode ip).ref < 1 <;> simp [href]
  cases (s.inode ip).valid <;> simp
  by_cases htype : (s.dinode (s.inode ip).inum).type = 0 <;> simp [htype]

/-! ## `iget` -/

/-- `iget` panics exactly when no slot is free and no referenced slot holds
`inum`. -/
theorem iget_run_eq_error_iff (inum : Nat) (s : Fs) (msg : String) :
    (iget inum).run s = .error msg ↔
      msg = "iget: no inodes" ∧
        ∀ ip, (s.inode ip).ref ≠ 0 ∧ (0 < (s.inode ip).ref → (s.inode ip).inum ≠ inum) := by
  simp only [iget, modifySlot, StateT.run_bind, StateT.run_get, pure_bind]
  split
  · -- a slot holds `inum`
    next ip hfind =>
    have hip := List.find?_some hfind
    simp only [decide_eq_true_eq] at hip
    constructor
    · intro h
      simp at h
    · rintro ⟨-, hall⟩
      exact absurd hip.2 ((hall ip).2 hip.1)
  · next hfind =>
    have hno := List.find?_eq_none.mp hfind
    simp only [decide_eq_true_eq, not_and] at hno
    split
    · -- no slot is free
      next hfree =>
      have hall := List.find?_eq_none.mp hfree
      simp only [decide_eq_true_eq] at hall
      constructor
      · intro h
        refine ⟨?_, fun ip => ⟨hall ip (List.mem_finRange ip), hno ip (List.mem_finRange ip)⟩⟩
        simpa using h.symm
      · rintro ⟨rfl, -⟩
        rfl
    · -- the first free slot is recycled
      next ip hfree =>
      have hip := List.find?_some hfree
      simp only [decide_eq_true_eq] at hip
      constructor
      · intro h
        simp at h
      · rintro ⟨-, hall⟩
        exact absurd hip (hall ip).1

/-! ## References, blocks and one-block copies

The runs of `iget` and `iput` that the directory and path proofs use, `bmap`
as a change of the slot's block map (`Fs.remap`), and one round of the loops
of `readi` and `writei` that stays inside one block. -/

/-- Writing a slot back as it is changes nothing. -/
theorem Fs.setInode_same (s : Fs) (ip : Fin NINODE) : s.setInode ip (s.inode ip) = s := by
  unfold Fs.setInode
  rw [Function.update_eq_self]

/-- The reference counts after `setInode`. -/
theorem Fs.ref_setInode (s : Fs) (ip j : Fin NINODE) (slot : Inode) :
    ((s.setInode ip slot).inode j).ref = if j = ip then slot.ref else (s.inode j).ref := by
  by_cases h : j = ip
  · subst h
    simp
  · simp [h]

/-- What `iget` computes when some slot is free: the first referenced slot
holding `inum`, with one more reference, or else the first free slot,
recycled for `inum`. -/
theorem iget_run_of_free (inum : Nat) {s : Fs} (hfree : ∃ ip, (s.inode ip).ref = 0) :
    ∃ ip, (0 < (s.inode ip).ref ∧ (s.inode ip).inum = inum ∧
        (iget inum).run s = .ok (ip, s.setInode ip { s.inode ip with ref := (s.inode ip).ref + 1 })) ∨
      ((s.inode ip).ref = 0 ∧
        (iget inum).run s = .ok (ip, s.setInode ip { s.inode ip with inum, ref := 1, valid := false })) := by
  simp only [iget, modifySlot, StateT.run_bind, StateT.run_get, pure_bind]
  split
  · next ip hfind =>
    have hip := List.find?_some hfind
    simp only [decide_eq_true_eq] at hip
    exact ⟨ip, .inl ⟨hip.1, hip.2, rfl⟩⟩
  · split
    · next hnone =>
      obtain ⟨ip, hip⟩ := hfree
      have := List.find?_eq_none.mp hnone ip (List.mem_finRange ip)
      simp [hip] at this
    · next ip hfree' =>
      have hip := List.find?_some hfree'
      simp only [decide_eq_true_eq] at hip
      exact ⟨ip, .inr ⟨hip, rfl⟩⟩

/-- What `iget` gives when a slot is free: a slot now holding `inum`, with one
more reference and its inode copy as it was, and that `iput` cannot free,
since either it was referenced already or it is not `valid`. -/
theorem iget_spec (inum : Nat) {s : Fs} (hfree : ∃ ip, (s.inode ip).ref = 0) :
    ∃ ip slot, (iget inum).run s = .ok (ip, s.setInode ip slot) ∧ slot.inum = inum ∧
      slot.din = (s.inode ip).din ∧ slot.ref = (s.inode ip).ref + 1 ∧
      (slot.ref = 1 → slot.valid = false) := by
  obtain ⟨ip, ⟨hpos, hinum, hrun⟩ | ⟨hzero, hrun⟩⟩ := iget_run_of_free inum hfree
  · exact ⟨ip, _, hrun, hinum, rfl, rfl, fun h => absurd h (by simp; omega)⟩
  · exact ⟨ip, _, hrun, rfl, rfl, by simp [hzero], fun _ => rfl⟩

/-- What `iput` computes when it does not free the inode: one reference
less. -/
theorem iput_run_of_keep {ip : Fin NINODE} {s : Fs}
    (h : ¬((s.inode ip).ref = 1 ∧ (s.inode ip).valid = true ∧ (s.inode ip).din.nlink = 0)) :
    (iput ip).run s = .ok ((), s.setInode ip { s.inode ip with ref := (s.inode ip).ref - 1 }) := by
  simp only [iput, slot, modifySlot, StateT.run_bind, StateT.run_get, StateT.run_pure, pure_eq_ok,
    ok_bind]
  rw [if_neg h]
  rfl

/-- `iput` of a slot that cannot be freed drops one reference. -/
theorem iput_run_of_held {ip : Fin NINODE} {s : Fs}
    (h : (s.inode ip).ref = 1 → (s.inode ip).valid = false) :
    (iput ip).run s = .ok ((), s.setInode ip { s.inode ip with ref := (s.inode ip).ref - 1 }) :=
  iput_run_of_keep fun ⟨h1, hv, _⟩ => by simp [h h1] at hv

/-- The state after `bmap`: slot `ip` with a new block map, and a new free count. -/
def Fs.remap (s : Fs) (ip : Fin NINODE) (mapped : List Nat) (indirect : Bool) (nfree : Nat) : Fs :=
  { s with nfree }.setInode ip { s.inode ip with din := { (s.inode ip).din with mapped, indirect } }

@[simp] theorem Fs.remap_inode_self (s : Fs) (ip : Fin NINODE) (m : List Nat) (i : Bool) (n : Nat) :
    (s.remap ip m i n).inode ip =
      { s.inode ip with din := { (s.inode ip).din with mapped := m, indirect := i } } := by
  simp [Fs.remap]

@[simp] theorem Fs.remap_inode_of_ne (s : Fs) {ip ip' : Fin NINODE} (m : List Nat) (i : Bool)
    (n : Nat) (h : ip' ≠ ip) : (s.remap ip m i n).inode ip' = s.inode ip' := by
  simp [Fs.remap, h]

theorem Fs.remap_self (s : Fs) (ip : Fin NINODE) :
    s.remap ip (s.inode ip).din.mapped (s.inode ip).din.indirect s.nfree = s :=
  s.setInode_same ip

theorem Fs.remap_remap (s : Fs) (ip : Fin NINODE) (m m' : List Nat) (i i' : Bool) (n n' : Nat) :
    (s.remap ip m i n).remap ip m' i' n' = s.remap ip m' i' n' := by
  simp only [Fs.remap, Fs.setInode, Function.update_idem, Function.update_self]

/-- `bmap` of a block that is mapped answers `true` and changes nothing. -/
theorem bmap_run_of_mapped {ip : Fin NINODE} {bn : Nat} {s : Fs} (hbn : bn < MAXFILE)
    (hm : bn ∈ (s.inode ip).din.mapped) (hind : NDIRECT ≤ bn → (s.inode ip).din.indirect = true) :
    (bmap ip bn).run s = .ok (true, s) := by
  by_cases hd : bn < NDIRECT
  · simp only [NDIRECT] at hd
    simp [bmap, slot, hd, hm]
  · have hi := hind (by omega)
    simp only [MAXFILE, NDIRECT, NINDIRECT, BSIZE] at hbn hd
    have hr : bn - 12 < BSIZE / 4 := by simp only [BSIZE]; omega
    simp [bmap, slot, hd, hm, hr, hi]

/-- What `bmap` does below `MAXFILE`: it may map block `bn`, and the indirect
block first, counting the free blocks down, and changes nothing else; when it
answers `true`, block `bn` is mapped. -/
theorem bmap_run (ip : Fin NINODE) {bn : Nat} (s : Fs) (hbn : bn < MAXFILE) :
    ∃ b mapped indirect nfree, (bmap ip bn).run s = .ok (b, s.remap ip mapped indirect nfree) ∧
      (∀ x ∈ (s.inode ip).din.mapped, x ∈ mapped) ∧
      ((s.inode ip).din.indirect = true → indirect = true) ∧
      (b = true → bn ∈ mapped ∧ (NDIRECT ≤ bn → indirect = true)) := by
  set din := (s.inode ip).din with hdin
  -- a block that is already mapped costs nothing
  by_cases hm : bn ∈ din.mapped ∧ (NDIRECT ≤ bn → din.indirect = true)
  · refine ⟨true, din.mapped, din.indirect, s.nfree, ?_, fun x hx => hx, id, fun _ => hm⟩
    rw [bmap_run_of_mapped hbn hm.1 hm.2, hdin, Fs.remap_self]
  have hcons : ∀ x ∈ din.mapped, x ∈ bn :: din.mapped := fun x hx => List.mem_cons_of_mem _ hx
  simp only [NDIRECT, MAXFILE, NINDIRECT, BSIZE] at hbn hm
  by_cases hd : bn < 12
  · -- a direct block: one allocation
    have hnm : bn ∉ din.mapped := fun h => hm ⟨h, fun h' => absurd h' (by omega)⟩
    by_cases hn : s.nfree = 0
    · refine ⟨false, din.mapped, din.indirect, s.nfree, ?_, fun x hx => hx, id, by simp⟩
      rw [hdin, Fs.remap_self]
      simp [bmap, slot, balloc, hd, hnm, ← hdin, hn]
    · refine ⟨true, bn :: din.mapped, din.indirect, s.nfree - 1, ?_, hcons, id,
        fun _ => ⟨List.mem_cons_self, fun h => absurd h (by simp only [NDIRECT]; omega)⟩⟩
      simp [bmap, slot, balloc, modifyDin, modifySlot, hd, hnm, ← hdin, hn, Fs.remap]
  have hr : bn - 12 < BSIZE / 4 := by simp only [BSIZE]; omega
  by_cases hi : din.indirect = true
  · -- the indirect block is there: one allocation
    have hnm : bn ∉ din.mapped := fun h => hm ⟨h, fun _ => hi⟩
    by_cases hn : s.nfree = 0
    · refine ⟨false, din.mapped, din.indirect, s.nfree, ?_, fun x hx => hx, id, by simp⟩
      rw [hdin, Fs.remap_self]
      simp [bmap, slot, balloc, hd, hr, hnm, ← hdin, hi, hn]
    · refine ⟨true, bn :: din.mapped, true, s.nfree - 1, ?_, hcons, fun _ => rfl,
        fun _ => ⟨List.mem_cons_self, fun _ => rfl⟩⟩
      simp [bmap, slot, balloc, modifyDin, modifySlot, hd, hr, hnm, ← hdin, hi, hn, Fs.remap]
  · -- no indirect block yet: it is allocated first
    have hi' : din.indirect = false := by simpa using hi
    by_cases hn : s.nfree = 0
    · refine ⟨false, din.mapped, din.indirect, s.nfree, ?_, fun x hx => hx, id, by simp⟩
      rw [hdin, Fs.remap_self]
      simp [bmap, slot, balloc, hd, hr, ← hdin, hi', hn]
    by_cases hmem : bn ∈ din.mapped
    · refine ⟨true, din.mapped, true, s.nfree - 1, ?_, fun x hx => hx, fun _ => rfl,
        fun _ => ⟨hmem, fun _ => rfl⟩⟩
      simp [bmap, slot, balloc, modifyDin, modifySlot, hd, hr, ← hdin, hi', hn, hmem, Fs.remap]
    by_cases hn' : s.nfree - 1 = 0
    · refine ⟨false, din.mapped, true, s.nfree - 1, ?_, fun x hx => hx, fun _ => rfl, by simp⟩
      simp [bmap, slot, balloc, modifyDin, modifySlot, hd, hr, ← hdin, hi', hn, hmem, hn', Fs.remap]
    · refine ⟨true, bn :: din.mapped, true, s.nfree - 1 - 1, ?_, hcons, fun _ => rfl,
        fun _ => ⟨List.mem_cons_self, fun _ => rfl⟩⟩
      simp [bmap, slot, balloc, modifyDin, modifySlot, hd, hr, ← hdin, hi', hn, hmem, hn', Fs.remap,
        Fs.setInode, Function.update_idem]

/-- The loop of `readi` has nothing left to copy. -/
theorem readLoop_done {ip : Fin NINODE} {n : Nat} (fuel off : Nat) {acc : List UInt8}
    (h : n ≤ acc.length) (s : Fs) : (readLoop ip n fuel off acc).run s = .ok (acc, s) := by
  cases fuel with
  | zero => rfl
  | succ fuel => simp [readLoop, show ¬ acc.length < n by omega]

/-- One round of `readi` that copies all `n` bytes from a mapped block. -/
theorem readLoop_chunk {ip : Fin NINODE} {n off : Nat} {s : Fs} (fuel : Nat)
    (hb : (bmap ip (off / BSIZE)).run s = .ok (true, s)) (hn : 0 < n)
    (hroom : n ≤ BSIZE - off % BSIZE) (hlen : off + n ≤ (s.inode ip).din.data.length) :
    (readLoop ip n (fuel + 1) off []).run s = .ok (((s.inode ip).din.data.drop off).take n, s) := by
  have hmin : min (n - 0) (BSIZE - off % BSIZE) = n := by omega
  simp only [readLoop, List.length_nil, if_pos hn, StateT.run_bind, hb, ok_bind, Bool.not_true,
    Bool.false_eq_true, if_false, slot, StateT.run_get, pure_eq_ok, hmin, List.nil_append]
  exact readLoop_done fuel _ (by simp; omega) s

/-- The loop of `writei` has nothing left to store. -/
theorem writeLoop_done {ip : Fin NINODE} {src : List UInt8} {n : Nat} (fuel off : Nat) {tot : Nat}
    (h : n ≤ tot) (s : Fs) : (writeLoop ip src n fuel off tot).run s = .ok (tot, s) := by
  cases fuel with
  | zero => rfl
  | succ fuel => simp [writeLoop, show ¬ tot < n by omega]

/-- One round of `writei` that stores all `n` bytes into one block, or none
when `bmap` finds no block. -/
theorem writeLoop_chunk {ip : Fin NINODE} {src : List UInt8} {n off : Nat} {s s' : Fs} {b : Bool}
    (fuel : Nat) (hb : (bmap ip (off / BSIZE)).run s = .ok (b, s')) (hn : 0 < n)
    (hroom : n ≤ BSIZE - off % BSIZE) :
    (writeLoop ip src n (fuel + 1) off 0).run s =
      if b then .ok (n, s'.setInode ip { s'.inode ip with din :=
        { (s'.inode ip).din with data := overwrite (s'.inode ip).din.data off (src.take n) } })
      else .ok (0, s') := by
  have hmin : min (n - 0) (BSIZE - off % BSIZE) = n := by omega
  simp only [writeLoop, if_pos hn, StateT.run_bind, hb, ok_bind]
  cases b with
  | false => rfl
  | true =>
    simp only [Bool.not_true, Bool.false_eq_true, if_false, hmin, List.drop_zero, if_true,
      modifyDin, modifySlot, Nat.zero_add]
    exact writeLoop_done fuel _ le_rfl _

/-! ## A dangling `..` -/

/-- Whether a run ended in the panic `msg`. -/
def panicsWith {α : Type} (r : Except String α) (msg : String) : Bool :=
  match r with
  | .error m => m == msg
  | .ok _ => false

theorem eq_error_of_panicsWith {α : Type} {r : Except String α} {msg : String}
    (h : panicsWith r msg = true) : r = .error msg := by
  cases r with
  | error m => simpa [panicsWith] using h
  | ok _ => simp [panicsWith] at h

/-- The process of the runs by one process. -/
def soleProc : Fin 1 := ⟨0, Nat.one_pos⟩

/-- `mkdir a; mkdir a/b; chdir a/b; unlink /a/b; unlink /a`, by one process. -/
def unlinkCwdParent : List (Fin 1 × Call) :=
  [(soleProc, .mkdir [97]), (soleProc, .mkdir [97, 47, 98]), (soleProc, .chdir [97, 47, 98]),
    (soleProc, .unlink [47, 97, 47, 98]), (soleProc, .unlink [47, 97])]

/-- The image of `mkfs` with its 200 inodes and the 1953 data blocks that stay
free when no user file is installed, booted with one process. -/
def bootOne : Sys 1 := Sys.boot (mkfsImage 200 1953)

/-- A trace that `Sys.step` runs from `s₀` to a state that passes the test `p`
shows a state reachable from `s₀` that passes it.  A counterexample computes
the run once, as a Boolean, and takes its facts from the test. -/
theorem Sys.exists_reachable_of_exec {n : Nat} {s₀ : Sys n} {es : List (Fin n × Call)}
    {p : Sys n → Bool} (h : (exec Sys.step s₀ es).map p = some true) :
    ∃ s, Reachable (· = s₀) Sys.Next s ∧ p s = true := by
  have hsound : ∀ (s : Sys n) e s', s.step e = some s' → s.Next e s' :=
    fun _ _ _ hstep => Sys.next_of_step hstep
  exact Reachable.exists_of_exec hsound h

/-- After the run, the working directory `b` (inode 3) is an allocated directory
that is named nowhere, and its `..` entry names inode 2, the freed `a`.  Opening
`..` then looks `a` up and panics in `ilock`. -/
theorem open_dotdot_ilock_no_type :
    ∃ s, Reachable (· = bootOne) Sys.Next s ∧
      (s.fs.inode (s.proc 0).cwd).inum = 3 ∧ (s.fs.dinode 3).type = T_DIR ∧
      direntInum (((s.fs.dinode 3).data.drop direntSize).take direntSize) = 2 ∧
      (s.fs.dinode 2).type = 0 ∧
      (syscall (0 : Fin 1) (.openFile [46, 46] O_RDONLY)).run s = .error "ilock: no type" := by
  have hrun : (exec Sys.step bootOne unlinkCwdParent).map (fun s =>
      decide ((s.fs.inode (s.proc 0).cwd).inum = 3 ∧ (s.fs.dinode 3).type = T_DIR ∧
        direntInum (((s.fs.dinode 3).data.drop direntSize).take direntSize) = 2 ∧
        (s.fs.dinode 2).type = 0) &&
      panicsWith ((syscall (0 : Fin 1) (.openFile [46, 46] O_RDONLY)).run s)
        "ilock: no type") = some true := by
    decide +kernel
  obtain ⟨s, hs, hp⟩ := Sys.exists_reachable_of_exec hrun
  simp only [Bool.and_eq_true, decide_eq_true_eq] at hp
  obtain ⟨⟨hcwd, hdir, hdotdot, hfree⟩, hpanic⟩ := hp
  exact ⟨s, hs, hcwd, hdir, hdotdot, hfree, eq_error_of_panicsWith hpanic⟩

/-! ## A full inode table -/

/-- The same image, booted with four processes. -/
def bootFour : Sys 4 := Sys.boot (mkfsImage 200 1953)

/-- `mkdir` of `a`, `b`, `c` and `d` by the first process, then 48 calls
`open(path, O_CREATE | O_RDWR)` that create new files, twelve in each
directory, sixteen by each of the first three processes, which keep them
open. -/
def openFortyEight : List (Fin 4 × Call) :=
  (List.range 4).map (fun d => ((0 : Fin 4), Call.mkdir [(97 + d).toUInt8])) ++
  (List.range 48).map fun j =>
    (⟨j / 16 % 4, Nat.mod_lt _ (by decide)⟩,
      .openFile [(97 + j / 12).toUInt8, 47, (65 + j % 12).toUInt8] (O_CREATE ||| O_RDWR))

/-- After the run, 48 of the 100 entries of the file table are in use and
one slot of the inode table is free: the root holds one, each open file
another.  The fourth process then creates `a/Z`; the lookup of `a` takes the
free slot, and the new inode finds none, so `iget` panics. -/
theorem open_files_exhaust_inodes :
    ∃ s, Reachable (· = bootFour) Sys.Next s ∧
      (Finset.univ.filter fun f => 0 < (s.file f).ref).card = 48 ∧
      (Finset.univ.filter fun ip => (s.fs.inode ip).ref = 0).card = 1 ∧
      (syscall (3 : Fin 4) (.openFile [97, 47, 90] (O_CREATE ||| O_RDWR))).run s =
        .error "iget: no inodes" := by
  have hrun : (exec Sys.step bootFour openFortyEight).map (fun s =>
      decide ((Finset.univ.filter fun f => 0 < (s.file f).ref).card = 48 ∧
        (Finset.univ.filter fun ip => (s.fs.inode ip).ref = 0).card = 1) &&
      panicsWith ((syscall (3 : Fin 4) (.openFile [97, 47, 90] (O_CREATE ||| O_RDWR))).run s)
        "iget: no inodes") = some true := by
    decide +kernel
  obtain ⟨s, hs, hp⟩ := Sys.exists_reachable_of_exec hrun
  simp only [Bool.and_eq_true, decide_eq_true_eq] at hp
  obtain ⟨⟨hfiles, hfree⟩, hpanic⟩ := hp
  exact ⟨s, hs, hfiles, hfree, eq_error_of_panicsWith hpanic⟩

end Xv6
