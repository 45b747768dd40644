import Xv6.Fs.Read
import Xv6.Proofs.Fs.Bookkeeping

/-!
# How much `read` returns

`readi` never reports more bytes than its `uint n`: `readLoopUser_le` follows
the loop, whose `tot` only grows by chunks that fit below `n`, and
`readiUser_le` adds the shortening at the end of the file.  `fileread` on an
inode passes the `int n` of `read` to that `uint`, so an inode read returns at
most `n mod 2^32` (`fileread_le`): at most `n` when `0 ≤ n`, but up to
`n + 2^32` when `n < 0`.  A `read` of `-1` bytes at offset `0` copies the whole
file and returns its size (`read_negative_count_copies_file`).
-/

namespace Xv6

open StateExcept Transition

theorem readLoopUser_le {ip : Fin NINODE} {n : Nat} :
    ∀ fuel off dst tot vm (s : Fs) (r : Int × UserVm) (s' : Fs), tot ≤ n →
      (readLoopUser ip n fuel off dst tot vm).run s = .ok (r, s') → r.1 ≤ n := by
  intro fuel
  induction fuel with
  | zero =>
    intro off dst tot vm s r s' hle h
    rw [readLoopUser, run_pure_eq_ok] at h
    rw [← h.1]
    exact Int.ofNat_le.mpr hle
  | succ fuel ih =>
    intro off dst tot vm s r s' hle h
    unfold readLoopUser at h
    by_cases hlt : tot < n
    · rw [if_pos hlt, run_bind_eq_ok] at h
      obtain ⟨mapped, s₁, -, h⟩ := h
      cases mapped with
      | false =>
        -- no block: the loop stops with the `tot` bytes copied so far
        rw [Bool.not_false, if_pos rfl, run_pure_eq_ok] at h
        rw [← h.1]
        exact Int.ofNat_le.mpr hle
      | true =>
        rw [Bool.not_true, if_neg Bool.false_ne_true, run_bind_eq_ok] at h
        obtain ⟨ino, s₂, -, h⟩ := h
        dsimp only at h
        generalize copyout _ _ _ _ = res at h
        obtain ⟨vm', ok⟩ := res
        cases ok with
        | false =>
          -- a failed `copyout` makes the result `-1`
          rw [Bool.not_false, if_pos rfl, run_pure_eq_ok] at h
          rw [← h.1]
          omega
        | true =>
          rw [Bool.not_true, if_neg Bool.false_ne_true] at h
          exact ih _ _ _ _ _ _ _ (by omega) h
    · rw [if_neg hlt, run_pure_eq_ok] at h
      rw [← h.1]
      exact Int.ofNat_le.mpr hle

/-- `readi` reports at most its `uint n` bytes. -/
theorem readiUser_le {ip : Fin NINODE} {dst off n : Nat} {vm : UserVm} {s s' : Fs}
    {r : Int × UserVm} (h : (readiUser ip dst off n vm).run s = .ok (r, s')) : r.1 ≤ n := by
  unfold readiUser at h
  rw [run_bind_eq_ok] at h
  obtain ⟨ino, s₁, -, h⟩ := h
  dsimp only at h
  split_ifs at h with hbad hend
  · rw [run_pure_eq_ok] at h
    rw [← h.1]
    omega
  · -- past the end of the file, `n` is cut to the bytes left
    have hle := readLoopUser_le _ _ _ _ _ _ _ _ (Nat.zero_le _) h
    omega
  · exact readLoopUser_le _ _ _ _ _ _ _ _ (Nat.zero_le _) h

variable {np : Nat}

theorem run_liftFs_eq_ok {α : Type} {m : FsM α} {s s' : Sys np} {a : α} :
    (liftFs m).run s = .ok (a, s') ↔ ∃ fs', m.run s.fs = .ok (a, fs') ∧ s' = { s with fs := fs' } := by
  unfold liftFs
  simp only [StateT.run]
  cases m s.fs with
  | error e => simp [Except.map]
  | ok res =>
    obtain ⟨b, fs'⟩ := res
    simp only [Except.map, Except.ok.injEq, Prod.mk.injEq]
    constructor
    · rintro ⟨rfl, rfl⟩
      exact ⟨fs', ⟨rfl, rfl⟩, rfl⟩
    · rintro ⟨fs'', ⟨rfl, rfl⟩, rfl⟩
      exact ⟨rfl, rfl⟩

/-- What `fileread` returns is at most `n mod 2^32`, the value of its `int n`
as `readi`'s `uint`. -/
theorem fileread_le {f : Fin NFILE} {addr : Nat} {n : Int} {vm vm' : UserVm} {s s' : Sys np}
    {r : Int} (h : (fileread f addr n vm).run s = .ok (some (r, vm'), s')) :
    r ≤ (n % 2 ^ 32).toNat := by
  unfold fileread at h
  rw [run_bind_eq_ok] at h
  obtain ⟨s₀, s₁, hget, h⟩ := h
  simp only [StateT.run_get, pure_eq_ok, Except.ok.injEq, Prod.mk.injEq] at hget
  obtain ⟨rfl, rfl⟩ := hget
  dsimp only at h
  split_ifs at h with hread
  · -- not readable: `-1`
    rw [run_pure_eq_ok] at h
    have hr : r = -1 := (Prod.mk.inj (Option.some.inj h.1)).1.symm
    omega
  · split at h
    · -- `FD_INODE`: the result is what `readi` returned
      rw [run_bind_eq_ok] at h
      obtain ⟨-, s₂, -, h⟩ := h
      rw [run_bind_eq_ok] at h
      obtain ⟨⟨k, vmk⟩, s₃, hreadi, h⟩ := h
      obtain ⟨fs', hk, -⟩ := run_liftFs_eq_ok.mp hreadi
      have hle : k ≤ (n % 2 ^ 32).toNat := readiUser_le hk
      -- moving the offset and unlocking do not change the result
      have hr : k = r := by
        dsimp only at h
        split_ifs at h
        · obtain ⟨-, s₄, -, h⟩ := run_bind_eq_ok.mp h
          obtain ⟨-, s₅, -, h⟩ := run_bind_eq_ok.mp h
          exact (Prod.mk.inj (Option.some.inj (run_pure_eq_ok.mp h).1)).1
        · obtain ⟨-, s₅, -, h⟩ := run_bind_eq_ok.mp h
          exact (Prod.mk.inj (Option.some.inj (run_pure_eq_ok.mp h).1)).1
      omega
    · simp at h
    · simp at h
    · simp at h

/-- One writable user page, at address `0`, holding zeros. -/
def onePage : UserVm :=
  { mem := fun vpn => if vpn = 0 then some (fun _ => 0) else none, writable := fun _ => true }

/-- A process opens `/` (fd 0, an inode file at offset 0) and reads `-1` bytes
into its page at address `0`.  `readi` gets `n = 2^32 - 1`, which passes its
overflow check at offset 0 and is cut to the size of the directory:
`sys_read` returns 1024, the whole directory, and the page now starts with its
bytes. -/
theorem read_negative_count_copies_file :
    ∃ s, Reachable (· = bootOne) Sys.Next s ∧ (s.fs.dinode ROOTINO).size = 1024 ∧
      (∃ f, (s.proc 0).ofile ⟨0, by decide⟩ = some f ∧ (s.file f).type = .inode ∧ (s.file f).off = 0) ∧
      ∃ vm s', (sysRead (0 : Fin 1) 0 0 (-1) onePage).run s = .ok (some (1024, vm), s') ∧
        (vm.mem 0).map (fun page => page ⟨0, by decide⟩) = some 1 := by
  have hrun : (exec Sys.step bootOne [(0, .openFile [47] O_RDONLY)]).map (fun s =>
      decide ((s.fs.dinode ROOTINO).size = 1024 ∧
        ∃ f, (s.proc 0).ofile ⟨0, by decide⟩ = some f ∧ (s.file f).type = .inode ∧ (s.file f).off = 0) &&
      returnsWith ((sysRead (0 : Fin 1) 0 0 (-1) onePage).run s) fun r _ =>
        match r with
        | some (k, vm) =>
          decide (k = 1024 ∧ (vm.mem 0).map (fun page => page ⟨0, by decide⟩) = some 1)
        | none => false) = some true := by
    decide +kernel
  obtain ⟨s, hs, hp⟩ := Sys.exists_reachable_of_exec hrun
  rw [Bool.and_eq_true] at hp
  obtain ⟨hopen, hread⟩ := hp
  obtain ⟨hsize, hfile⟩ := of_decide_eq_true hopen
  obtain ⟨r, s', hres, hr⟩ := exists_of_returnsWith hread
  match r, hr with
  | some (k, vm), hr =>
    obtain ⟨rfl, hbyte⟩ := of_decide_eq_true hr
    exact ⟨s, hs, hsize, hfile, vm, s', hres, hbyte⟩

end Xv6
