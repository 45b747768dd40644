import Xv6.Vm.Grow
import Xv6.Proofs.Vm.Map

/-!
# `sbrk` with a negative argument

`growproc(n)` adds the `int` `n` to the `uint64` size before it knows which
way the size moves.  For `n < -sz` the sum wraps to a size above the old one;
`uvmdealloc`, asked to "shrink" to it, returns the old size, and `sbrk`
reports success with the break where it was (`sbrk_shrink_past_zero`).
-/

namespace Xv6.Vm

/-- `uvmdealloc` to a size at or above the old one changes nothing. -/
theorem uvmdealloc_of_le (m : Phys) (pagetable : Nat) {oldsz newsz : Nat} (h : oldsz ≤ newsz) :
    uvmdealloc m pagetable oldsz newsz = .ok (oldsz, m) := by
  rw [uvmdealloc, if_pos h]

/-- `sz + n` for a negative `n` below `-sz`: the `uint64` sum wraps past `2^64`
to a size above `sz`. -/
theorem addInt_of_neg {sz : Nat} {n : Int} (hsz : sz < 2 ^ 64) (hn : -2 ^ 31 ≤ n)
    (hneg : (sz : Int) + n < 0) : addInt sz n = 2 ^ 64 - (-(sz + n)).toNat ∧ sz < addInt sz n := by
  have hmod : ((sz : Int) + n) % 2 ^ 64 = sz + n + 2 ^ 64 := by
    omega
  unfold addInt
  rw [hmod]
  omega

/-- **`sbrk` past zero succeeds without moving the break.**  For a process
whose size is a `uint64` and an `int` argument `n < -sz`, `sys_sbrk(n)` returns
the old size, as for a successful call, and leaves the size and memory as they
were, where the size should have become `sz + n < 0`. -/
theorem sbrk_shrink_past_zero (m : Phys) (p : UProc) (n : Int) (hsz : p.sz < 2 ^ 64)
    (hn : -2 ^ 31 ≤ n) (hneg : (p.sz : Int) + n < 0) :
    sys_sbrk m p n = .ok (p.sz, p, m) := by
  have hgrow := (addInt_of_neg hsz hn hneg).2
  have hpos : ¬ n > 0 := by omega
  have hlt : n < 0 := by omega
  have hproc : growproc m p n = .ok (0, p, m) := by
    simp only [growproc, if_neg hpos, if_pos hlt, uvmdealloc_of_le m p.pagetable hgrow.le,
      StateExcept.ok_bind]
    rfl
  simp only [sys_sbrk, hproc, StateExcept.ok_bind]
  rfl

/-- `sbrk(-4097)` by a process of one page. -/
theorem sbrk_shrink_past_zero_page :
    sys_sbrk zeroPhys ⟨4096, 4096⟩ (-4097) = .ok (4096, ⟨4096, 4096⟩, zeroPhys) :=
  sbrk_shrink_past_zero zeroPhys ⟨4096, 4096⟩ (-4097) (by decide) (by decide) (by decide)

end Xv6.Vm
