import Xv6.Proofs.Blocks.Content

/-!
# Copies from user memory

`copyin` copies page by page and returns `-1` at the first page that is not
mapped.  When it fails it has already filled the part of the destination that
lies on the pages before the unmapped one.

`writei` copies each chunk straight into the buffer of the block, and when the
copy fails it releases the buffer without `log_write` and returns the bytes
stored so far.  The bytes that did arrive stay in the cached buffer: `readi`
returns them at once, and if the block was logged earlier in the same
transaction, the commit writes them to the disk.  The run at the end shows it
on a file of eight zero bytes in block 1: a write of one byte at offset 4 logs
the block; a write of four bytes at offset 0 from a user address two bytes
before an unmapped page returns 0, yet the two bytes from the mapped page now
read back at offsets 0 and 1, and reach the disk at the commit.
-/

namespace Xv6.Blocks

open LittleEndian

/-! ## A chunk whose copy fails -/

/-- The file of eight zero bytes in block 1 of a two-block device. -/
def eightByteIno : Ino :=
  { type := T_FILE, size := 8, addrs := fun i => if i = 0 then 1 else 0 }

/-- User memory with page 0 mapped, filled with `0xaa`, and nothing above it. -/
def onePageMem : UserMem :=
  fun p => if p = 0 then some (fun _ => 0xaa) else none

theorem writei_partial_copy_visible :
    ∃ ip₁ d₁ ip₂ d₂,
      writei twoByteDev eightByteIno (.kernel [7]) 4 1 = .ok (1, ip₁, d₁) ∧
      writei d₁ ip₁ (.user onePageMem (PGSIZE - 2)) 0 4 = .ok (0, ip₂, d₂) ∧
      (readi twoByteDev eightByteIno 0 8).map Prod.fst = .ok [0, 0, 0, 0, 0, 0, 0, 0] ∧
      (readi d₂ ip₂ 0 8).map Prod.fst = .ok [0xaa, 0xaa, 0, 0, 7, 0, 0, 0] ∧
      getBytes (twoByteDev.disk 1) 0 8 = [0, 0, 0, 0, 0, 0, 0, 0] ∧
      getBytes (d₂.commit.disk 1) 0 8 = [0xaa, 0xaa, 0, 0, 7, 0, 0, 0] := by
  have hrun : (match writei twoByteDev eightByteIno (.kernel [7]) 4 1 with
      | .ok (k₁, ip₁, d₁) =>
        match writei d₁ ip₁ (.user onePageMem (PGSIZE - 2)) 0 4 with
        | .ok (k₂, ip₂, d₂) =>
          decide (k₁ = 1 ∧ k₂ = 0 ∧
            (readi twoByteDev eightByteIno 0 8).map Prod.fst = .ok [0, 0, 0, 0, 0, 0, 0, 0] ∧
            (readi d₂ ip₂ 0 8).map Prod.fst = .ok [0xaa, 0xaa, 0, 0, 7, 0, 0, 0] ∧
            getBytes (twoByteDev.disk 1) 0 8 = [0, 0, 0, 0, 0, 0, 0, 0] ∧
            getBytes (d₂.commit.disk 1) 0 8 = [0xaa, 0xaa, 0, 0, 7, 0, 0, 0])
        | .error _ => false
      | .error _ => false) = true := by
    decide +kernel
  -- take the two writes apart and read the facts off the check
  cases h₁ : writei twoByteDev eightByteIno (.kernel [7]) 4 1 with
  | error e => simp [h₁] at hrun
  | ok r₁ =>
    obtain ⟨k₁, ip₁, d₁⟩ := r₁
    cases h₂ : writei d₁ ip₁ (.user onePageMem (PGSIZE - 2)) 0 4 with
    | error e => simp [h₁, h₂] at hrun
    | ok r₂ =>
      obtain ⟨k₂, ip₂, d₂⟩ := r₂
      simp only [h₁, h₂, decide_eq_true_eq] at hrun
      obtain ⟨rfl, rfl, hbefore, hafter, hdisk, hcommit⟩ := hrun
      exact ⟨ip₁, d₁, ip₂, d₂, rfl, h₂, hbefore, hafter, hdisk, hcommit⟩

end Xv6.Blocks
