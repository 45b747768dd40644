import Xv6.Vm.Sv39
import Mathlib.Data.Finset.Basic

/-!
# The page allocator, with its free list in the free pages

`kernel/kalloc.c` as it keeps its list: `kmem.freelist` is the address of the
first free page, or `0`, and each free page begins with a `struct run` whose
`next` field holds the address of the page after it.  `kfree` fills the page
with junk and then writes that field; `kalloc` reads it before it fills the
page with junk.  `Xv6.Vm.kalloc` and `Xv6.Vm.kfree` keep the same list as a
Lean list; `Xv6.Proofs.Vm.Kalloc` proves that they are this allocator with the
list read off.

The rest of the kernel sees the allocator through `kalloc` and `kfree`, and
writes to the pages it holds.  `Pool.Step` is those three, over the allocator
and the set of pages handed out and not freed since; a `kfree` of a page that
is not held, which the kernel never makes, is no step, and neither is a `kfree`
that panics.
-/

namespace Xv6.Vm

open LittleEndian

/-- Physical memory and `kmem`. -/
structure Kmem where
  /-- The bytes of the page at physical address `pa` are `pages (pa / PGSIZE)`. -/
  pages : Nat → Page
  /-- `kmem.freelist`: the address of the first free page, or `0`. -/
  freelist : Nat
  /-- `end`, the first address after the kernel, fixed by `kernel.ld`. -/
  kend : Nat

namespace Kmem

/-- `r->next`, the field at the start of the page at `r`. -/
def next (k : Kmem) (r : Nat) : Nat := getDWord (k.pages (r / PGSIZE)) (r % PGSIZE)

/-- `memset(pa, c, PGSIZE)`. -/
def memset (k : Kmem) (pa : Nat) (c : UInt8) : Kmem :=
  { k with pages := Function.update k.pages (pa / PGSIZE) fun _ => c }

/-- `r->next = v`. -/
def setNext (k : Kmem) (r v : Nat) : Kmem :=
  { k with
    pages := Function.update k.pages (r / PGSIZE) (setDWord (k.pages (r / PGSIZE)) (r % PGSIZE) v) }

/-- `kfree(pa)`. -/
def kfree (k : Kmem) (pa : Nat) : Except String Kmem :=
  if pa % PGSIZE ≠ 0 ∨ pa < k.kend ∨ pa ≥ PHYSTOP then .error "kfree"
  else
    -- fill with junk, then link the page in front of the list
    let k := k.memset pa 1
    .ok { k.setNext pa k.freelist with freelist := pa }

/-- `kalloc()`: the first free page, unlinked and filled with junk, or `0`. -/
def kalloc (k : Kmem) : Nat × Kmem :=
  let r := k.freelist
  if r = 0 then (0, k)
  else (r, ({ k with freelist := k.next r }).memset r 5)

/-- The loop of `freerange` from `p`, for at most `fuel` rounds. -/
def freerangeLoop (pa_end : Nat) : Nat → Nat → Kmem → Except String Kmem
  | 0, _, k => .ok k
  | fuel + 1, p, k =>
    if p + PGSIZE ≤ pa_end then do
      let k ← k.kfree p
      freerangeLoop pa_end fuel (p + PGSIZE) k
    else .ok k

/-- `freerange(pa_start, pa_end)`; its loop takes at most `pa_end / PGSIZE` rounds. -/
def freerange (k : Kmem) (pa_start pa_end : Nat) : Except String Kmem :=
  freerangeLoop pa_end (pa_end / PGSIZE + 1) (PGROUNDUP pa_start) k

/-- `kinit()`, on memory `pages` as the kernel finds it and with `kmem.freelist`
zero, as C leaves a global. -/
def kinit (pages : Nat → Page) (kend : Nat) : Except String Kmem :=
  freerange { pages, freelist := 0, kend } kend PHYSTOP

end Kmem

/-- What the rest of the kernel does with the allocator. -/
inductive KCall
  | kalloc
  | kfree (pa : Nat)
  /-- The holder of the page at `pa` writes all of it. -/
  | write (pa : Nat) (page : Page)

/-- The allocator, and the pages it handed out that were not freed since. -/
structure Pool where
  kmem : Kmem
  held : Finset Nat

namespace Pool

/-- One call: `kfree` only of a held page, writes only to held pages. -/
inductive Step : Pool → KCall → Pool → Prop
  | kalloc {s : Pool} :
      Step s .kalloc
        ⟨s.kmem.kalloc.2, if s.kmem.kalloc.1 = 0 then s.held else insert s.kmem.kalloc.1 s.held⟩
  | kfree {s : Pool} {pa : Nat} {k : Kmem} :
      pa ∈ s.held → s.kmem.kfree pa = .ok k → Step s (.kfree pa) ⟨k, s.held.erase pa⟩
  | write {s : Pool} {pa : Nat} (page : Page) :
      pa ∈ s.held →
        Step s (.write pa page)
          ⟨{ s.kmem with pages := Function.update s.kmem.pages (pa / PGSIZE) page }, s.held⟩

/-- The pool after `kinit()` on some memory, with nothing handed out. -/
def Init (kend : Nat) (s : Pool) : Prop :=
  ∃ pages, Kmem.kinit pages kend = .ok s.kmem ∧ s.held = ∅

end Pool

end Xv6.Vm
