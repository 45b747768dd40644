import Xv6.Blocks.Inode

/-!
# Copying out to user memory

`copyout` of `kernel/vm.c`, page by page, over the user pages of a process.
`Blocks.UserMem` holds the pages whose leaf PTE has `PTE_V` and `PTE_U`, the
pages that `walkaddr` and `copyin` accept; `copyout` also needs `PTE_W`, which
`UserVm` adds.  A copy that fails on a page has already written the pages
before it.
-/

namespace Xv6

/-- The user pages of a process, and the `PTE_W` bit of each virtual page. -/
structure UserVm where
  mem : Blocks.UserMem
  writable : Nat → Bool

/-- The page after `memmove(page + o, src, len(src))`, for `o + len(src) ≤ PGSIZE`. -/
def putBytes (page : Fin PGSIZE → UInt8) (o : Nat) (src : List UInt8) : Fin PGSIZE → UInt8 :=
  fun i => if o ≤ i.val ∧ i.val < o + src.length then src.getD (i.val - o) 0 else page i

/-- `copyout(pagetable, dstva, src, len(src))`: the user pages after it, and
whether it returned `0`.  Each round copies at least one byte, so fuel
`len(src)` suffices. -/
def copyout (vm : UserVm) : Nat → Nat → List UInt8 → UserVm × Bool
  | 0, _, _ => (vm, true)
  | fuel + 1, dstva, src =>
    if src = [] then (vm, true)
    else
      let va0 := dstva / PGSIZE * PGSIZE
      -- `va0 >= MAXVA`, no leaf, or a leaf without `PTE_V` or `PTE_U`
      match Blocks.walkaddr vm.mem va0 with
      | none => (vm, false)
      | some page =>
        if vm.writable (va0 / PGSIZE) then
          let n := min (PGSIZE - (dstva - va0)) src.length
          let page := putBytes page (dstva - va0) (src.take n)
          copyout { vm with mem := Function.update vm.mem (va0 / PGSIZE) (some page) } fuel
            (va0 + PGSIZE) (src.drop n)
        else (vm, false)

/-- A copy whose first page is not a writable user page fails and writes
nothing. -/
theorem copyout_of_not_writable {vm : UserVm} {fuel dstva : Nat} {src : List UInt8}
    (hsrc : src ≠ [])
    (h : ∀ page, Blocks.walkaddr vm.mem (dstva / PGSIZE * PGSIZE) = some page →
      vm.writable (dstva / PGSIZE * PGSIZE / PGSIZE) = false) :
    copyout vm (fuel + 1) dstva src = (vm, false) := by
  simp only [copyout, hsrc, if_false]
  cases hwalk : Blocks.walkaddr vm.mem (dstva / PGSIZE * PGSIZE) with
  | none => rfl
  | some page => simp [h page hwalk]

end Xv6
