import Xv6.User.Umalloc
import Xv6.Proofs.Vm.Grow

/-!
# A large `malloc` past the break

`malloc(nbytes)` asks `morecore` for `nunits = (nbytes + 15) / 16 + 1`
headers, and `morecore` asks `sbrk` for `nunits * sizeof(Header)` bytes.  The
product is an `unsigned long`, but `sbrk` takes an `int`: from `2^31` bytes
on, the request reaches the kernel negative.  `growproc` adds it to the size,
which wraps past `2^64` for a small process, and `uvmdealloc` leaves the size
as it was (`Vm.addInt_of_neg`); `sbrk` returns the old break as for a
success (`sbrk_of_past_zero`).

`morecore` then writes a header of `nunits` at the break and frees it, and
`malloc` hands out that block: it starts at the break, which did not move
(`malloc_of_sbrk_wrap`).  The proof follows the calls on a free list that
holds only `base`: one lemma for each of `sbrk`, `morecore` and `free`, and
the two rounds of `malloc`'s loop.
-/

namespace Xv6.Umalloc

open LittleEndian

namespace UMem

variable {m : UMem} {p q v : Nat}

@[simp] theorem ptr_setPtr_self : (m.setPtr p v).ptr p = v := by
  simp [setPtr, ptr]

theorem ptr_setPtr_of_ne (h : q ≠ p) : (m.setPtr p v).ptr q = m.ptr q := by
  simp [setPtr, ptr, Function.update_of_ne h]

@[simp] theorem size_setPtr : (m.setPtr p v).size q = m.size q := by
  unfold setPtr size
  by_cases h : q = p
  · subst h
    simp
  · simp [Function.update_of_ne h]

@[simp] theorem size_setSize_self : (m.setSize p v).size p = v % 2 ^ 32 := by
  simp [setSize, size]

theorem size_setSize_of_ne (h : q ≠ p) : (m.setSize p v).size q = m.size q := by
  simp [setSize, size, Function.update_of_ne h]

@[simp] theorem ptr_setSize : (m.setSize p v).ptr q = m.ptr q := by
  unfold setSize ptr
  by_cases h : q = p
  · subst h
    simp
  · simp [Function.update_of_ne h]

@[simp] theorem setPtr_freep : (m.setPtr p v).freep = m.freep := rfl
@[simp] theorem setPtr_sz : (m.setPtr p v).sz = m.sz := rfl
@[simp] theorem setPtr_base : (m.setPtr p v).base = m.base := rfl
@[simp] theorem setSize_freep : (m.setSize p v).freep = m.freep := rfl
@[simp] theorem setSize_sz : (m.setSize p v).sz = m.sz := rfl
@[simp] theorem setSize_base : (m.setSize p v).base = m.base := rfl

end UMem

/-- The free list holds only `base`, and `freep` points at it. -/
structure OnlyBase (m : UMem) : Prop where
  freep : m.freep = m.base
  ptr : m.ptr m.base = m.base
  size : m.size m.base = 0

/-- `sbrk` of a negative `int` below `-sz` returns the old break and changes nothing. -/
theorem sbrk_of_past_zero {m : UMem} {n : Int} (hsz : m.sz < 2 ^ 64) (hn : -2 ^ 31 ≤ n)
    (hneg : (m.sz : Int) + n < 0) : sbrk m n = (m.sz, m) := by
  have hwrap := (Vm.addInt_of_neg hsz hn hneg).2
  unfold sbrk
  rw [if_neg (by omega), if_pos (by omega), if_pos hwrap.le]

/-- For `2^27 ≤ nu` headers whose bytes fit in 32 bits, the `int` that
`morecore` passes to `sbrk` is `nu * 16 - 2^32`. -/
theorem toInt32_request {nu : Nat} (hlo : 2 ^ 27 ≤ nu) (hhi : nu * HSIZE < 2 ^ 32) :
    toInt32 (nu * HSIZE % 2 ^ 32) = (nu * HSIZE : Int) - 2 ^ 32 := by
  unfold toInt32 HSIZE at *
  rw [Nat.mod_eq_of_lt hhi, if_neg (by omega)]
  push_cast
  ring

/-- A request whose bytes wrap the `int` of `sbrk` past the break: `morecore`
frees a block of `nu` headers at the break as if `sbrk` had given it. -/
theorem morecore_of_wrap {m : UMem} {nu : Nat} (fuel : Nat) (hlo : 2 ^ 27 ≤ nu)
    (hbrk : m.sz + nu * HSIZE < 2 ^ 32) :
    morecore fuel m nu =
      (free fuel (m.setSize m.sz nu) (m.sz + HSIZE)).map fun m => (m.freep, m) := by
  have hnu : ¬ nu < 4096 := by omega
  have hsbrk : sbrk m (toInt32 (nu * HSIZE % 2 ^ 32)) = (m.sz, m) := by
    rw [toInt32_request hlo (by omega)]
    apply sbrk_of_past_zero (by omega) <;> (unfold HSIZE at *; omega)
  simp only [morecore, if_neg hnu, hsbrk, if_neg (show m.sz ≠ 2 ^ 64 - 1 by omega)]
  cases free fuel (m.setSize m.sz nu) (m.sz + HSIZE) <;> rfl

/-- `free` of a block above `base` into a list that holds only `base` links
the two into a ring. -/
theorem free_onlyBase {m : UMem} {bp : Nat} (fuel : Nat) (hm : OnlyBase m)
    (hbp : m.base < bp) :
    free (fuel + 1) m (bp + HSIZE) = some { (m.setPtr bp m.base).setPtr m.base bp with freep := m.base } := by
  have hne : bp ≠ m.base := by omega
  have hsearch : freeSearch m bp (fuel + 1) m.freep = some m.base := by
    rw [hm.freep, freeSearch, hm.ptr, if_neg (by omega), if_pos ⟨Nat.le_refl _, .inl hbp⟩]
  simp only [free, Nat.add_sub_cancel, hsearch, Option.bind_eq_bind, Option.bind_some, hm.ptr]
  -- neither neighbour is adjacent: `bp` ends above `base`, and `base` is empty
  have habove : ¬ bp + HSIZE * m.size bp = m.base := by omega
  rw [if_neg habove]
  have hbelow : ¬ m.base + HSIZE * (m.setPtr bp m.base).size m.base = bp := by
    rw [UMem.size_setPtr, hm.size]
    omega
  rw [if_neg hbelow]
  rfl

/-- On a free list that holds only `base`, a `malloc` of at least `2^31 - 31`
bytes, small enough that the break plus the request stays below `2^32`,
returns the break itself: the block it hands out lies past the break, and the
break does not move. -/
theorem malloc_of_sbrk_wrap {m : UMem} {nbytes : Nat} (fuel : Nat) (hm : OnlyBase m)
    (hbase : 0 < m.base) (hbrk : m.base < m.sz) (hlo : 2 ^ 31 - 31 ≤ nbytes)
    (hhi : m.sz + nbytes + 32 ≤ 2 ^ 32) :
    ∃ m', malloc (fuel + 2) m nbytes = some (m.sz + HSIZE, m') ∧ m'.sz = m.sz := by
  set nunits := ((nbytes + HSIZE - 1) / HSIZE + 1) % 2 ^ 32 with hnunits
  have hnu : nunits = (nbytes + 15) / 16 + 1 := by
    rw [hnunits]
    unfold HSIZE
    omega
  have hnulo : 2 ^ 27 ≤ nunits := by omega
  have hnubrk : m.sz + nunits * HSIZE < 2 ^ 32 := by
    unfold HSIZE
    omega
  -- the first round finds `base` too small, and `morecore` frees the block at the break
  set m₁ := m.setSize m.sz nunits
  have hm₁ : OnlyBase m₁ :=
    ⟨hm.freep, by simp only [m₁, UMem.ptr_setSize, UMem.setSize_base, hm.ptr], by
      simp only [m₁, UMem.setSize_base]
      rw [UMem.size_setSize_of_ne (by omega), hm.size]⟩
  set m₂ := { (m₁.setPtr m.sz m.base).setPtr m.base m.sz with freep := m.base }
  have hmore : morecore (fuel + 2) m nunits = some (m.base, m₂) := by
    rw [morecore_of_wrap (fuel + 2) hnulo hnubrk, free_onlyBase (fuel + 1) hm₁ hbrk]
    rfl
  -- the second round finds the block at the break, of exactly `nunits`
  have hsize : m₂.size m.sz = nunits := by
    show ((m₁.setPtr m.sz m.base).setPtr m.base m.sz).size m.sz = nunits
    rw [UMem.size_setPtr, UMem.size_setPtr, UMem.size_setSize_self, Nat.mod_eq_of_lt (by omega)]
  have hptr : m₂.ptr m.base = m.sz := UMem.ptr_setPtr_self
  have hloop : mallocLoop (fuel + 2) nunits (fuel + 2) m.base (m.ptr m.base) m =
      some (m.sz + HSIZE, { m₂.setPtr m.base (m₂.ptr m.sz) with freep := m.base }) := by
    rw [hm.ptr, mallocLoop, hm.size, if_neg (by omega), if_pos hm.freep.symm, hmore]
    split
    · contradiction
    · -- `morecore` returned `base`, not 0
      rename_i heq
      simp only [Option.some.injEq, Prod.mk.injEq] at heq
      omega
    · rename_i p m' _ _ heq
      simp only [Option.some.injEq, Prod.mk.injEq] at heq
      obtain ⟨rfl, rfl⟩ := heq
      rw [hptr, mallocLoop, hsize, if_pos (Nat.le_refl _), if_pos rfl]
  refine ⟨{ m₂.setPtr m.base (m₂.ptr m.sz) with freep := m.base }, ?_, rfl⟩
  unfold malloc
  simp only [hm.freep, hbase.ne', if_false]
  exact hloop

/-- A process that has not called `malloc`, with `base` in its data and its
break on a page boundary above it, as `exec` leaves it. -/
def freshHeap : UMem :=
  { hdr := fun _ => ⟨0, 0⟩, freep := 0, sz := 0x4000, base := 0x1000, limit := 0x8000000 }

/-- `malloc(65537)` and then `malloc(0x80000000)` in a fresh process.  The
first takes 4098 headers from `sbrk`, which leaves the break at 81952, 32
bytes into a page, so the header `morecore` writes at the break lands in
mapped memory.  The second returns the non-null pointer just past the break,
and the break stays where it was: the `2^31` bytes handed out lie outside the
heap. -/
theorem malloc_large_request_outside_heap :
    ∃ m₁ m₂, malloc 4 freshHeap 65537 = some (16400, m₁) ∧ m₁.sz = 81952 ∧
      malloc 4 m₁ 0x80000000 = some (m₁.sz + HSIZE, m₂) ∧ m₂.sz = m₁.sz := by
  set m₁ := ((malloc 4 freshHeap 65537).map Prod.snd).getD freshHeap
  have hfirst : malloc 4 freshHeap 65537 = some (16400, m₁) := by rfl
  have hm₁ : OnlyBase m₁ := ⟨by decide, by decide, by decide⟩
  obtain ⟨m₂, hsecond, hsz⟩ :=
    @malloc_of_sbrk_wrap m₁ 0x80000000 2 hm₁ (by decide) (by decide) (by decide) (by decide)
  exact ⟨m₁, m₂, hfirst, by decide, hsecond, hsz⟩

end Xv6.Umalloc
