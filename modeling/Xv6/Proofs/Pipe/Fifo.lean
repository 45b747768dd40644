import Xv6.Pipe.Pipe
import Mathlib.Data.List.Infix

/-!
# What a pipe delivers

A pipe is meant to be a bounded FIFO queue.  `Pipe.queue` is that queue: the
bytes of counters `nread, nread + 1, …, nwrite - 1`, at their slots.  Because
`PIPESIZE` divides `2^32`, the slots stay right when the counters wrap.

`pipewrite` appends to the queue and `piperead` takes from its front, and the
counters never drift apart by more than `PIPESIZE` (`FifoInv`).  Whatever the
pieces of calls and however the counters wrap, what the readers got is a
subsequence of what the writers stored (`delivered_sublist_of_reachable`):
no byte is made up, duplicated or reordered.  It need not be a prefix.
`piperead` takes a byte out of the pipe before its `copyout`, and a failed
`copyout` loses it (`piperead_copyout_failure_loses_byte`).
-/

namespace Xv6

open Transition

namespace Pipe

/-- The number of bytes in the pipe, `nwrite - nread` in 32 bits. -/
def count (pi : Pipe) : Nat := (pi.nwrite - pi.nread).toNat

/-- The bytes in the pipe, oldest first. -/
def queue (pi : Pipe) : List UInt8 :=
  (List.range pi.count).map fun k => pi.data (slot (pi.nread + k.toUInt32))

theorem nread_add_count (pi : Pipe) : pi.nread + pi.count.toUInt32 = pi.nwrite := by
  have ha := UInt32.toNat_lt pi.nwrite
  have hb := UInt32.toNat_lt pi.nread
  rw [count, Nat.toUInt32_eq, UInt32.ofNat_toNat, UInt32.ext_iff, UInt32.toNat_add,
    UInt32.toNat_sub]
  omega

/-- Distinct counters less than `PIPESIZE` apart have distinct slots. -/
theorem slot_ne {pi : Pipe} {k : Nat} (hk : k < pi.count) (hc : pi.count < PIPESIZE) :
    slot (pi.nread + k.toUInt32) ≠ slot pi.nwrite := by
  have ha := UInt32.toNat_lt pi.nwrite
  have hb := UInt32.toNat_lt pi.nread
  simp only [count, UInt32.toNat_sub, PIPESIZE] at hk hc
  simp only [slot, ne_eq, Fin.mk.injEq, UInt32.toNat_add, UInt32.toNat_ofNat', PIPESIZE]
  omega

/-- A full pipe is one whose counters are `PIPESIZE` apart. -/
theorem full_iff {pi : Pipe} : pi.nwrite = pi.nread + PIPESIZE.toUInt32 ↔ pi.count = PIPESIZE := by
  have ha := UInt32.toNat_lt pi.nwrite
  have hb := UInt32.toNat_lt pi.nread
  rw [UInt32.ext_iff, count, UInt32.toNat_sub, UInt32.toNat_add, UInt32.toNat_ofNat']
  simp only [PIPESIZE]
  omega

theorem empty_iff {pi : Pipe} : pi.nread = pi.nwrite ↔ pi.count = 0 := by
  have ha := UInt32.toNat_lt pi.nwrite
  have hb := UInt32.toNat_lt pi.nread
  rw [UInt32.ext_iff, count, UInt32.toNat_sub]
  omega

theorem count_put {pi : Pipe} (c : UInt8) (hc : pi.count < PIPESIZE) :
    (pi.put c).count = pi.count + 1 := by
  have ha := UInt32.toNat_lt pi.nwrite
  have hb := UInt32.toNat_lt pi.nread
  simp only [count, put, UInt32.toNat_sub, UInt32.toNat_add, UInt32.toNat_one, PIPESIZE] at hc ⊢
  omega

theorem count_take {pi : Pipe} (hne : pi.nread ≠ pi.nwrite) : pi.take.count = pi.count - 1 := by
  have ha := UInt32.toNat_lt pi.nwrite
  have hb := UInt32.toNat_lt pi.nread
  have hne' : pi.nread.toNat ≠ pi.nwrite.toNat := fun h => hne (UInt32.ext h)
  simp only [count, take, UInt32.toNat_sub, UInt32.toNat_add, UInt32.toNat_one]
  omega

/-- Storing a byte in a pipe that is not full appends it to the queue. -/
theorem queue_put {pi : Pipe} (c : UInt8) (hc : pi.count < PIPESIZE) :
    (pi.put c).queue = pi.queue ++ [c] := by
  have hslots : ∀ k ∈ List.range pi.count,
      Function.update pi.data (slot pi.nwrite) c (slot (pi.nread + k.toUInt32)) =
        pi.data (slot (pi.nread + k.toUInt32)) := by
    intro k hk
    exact Function.update_of_ne (slot_ne (List.mem_range.mp hk) hc) _ _
  have hlast : Function.update pi.data (slot pi.nwrite) c (slot (pi.nread + pi.count.toUInt32)) =
      c := by
    rw [nread_add_count, Function.update_self]
  unfold queue
  rw [count_put c hc, List.range_succ, List.map_append, List.map_singleton]
  simp only [put]
  rw [List.map_congr_left hslots, hlast]

/-- Taking a byte from a pipe that is not empty takes the front of the queue. -/
theorem queue_take {pi : Pipe} (hne : pi.nread ≠ pi.nwrite) :
    pi.queue = pi.data (slot pi.nread) :: pi.take.queue := by
  have hpos : pi.count = pi.take.count + 1 := by
    have h0 : pi.count ≠ 0 := fun h => hne (empty_iff.mpr h)
    rw [count_take hne]
    omega
  unfold queue
  rw [hpos, List.range_succ_eq_map, List.map_cons, List.map_map]
  congr 1
  · simp
  · -- byte `k + 1` of the queue is byte `k` after the take
    refine List.map_congr_left fun k _ => ?_
    have hk : pi.nread + (k + 1).toUInt32 = pi.nread + 1 + k.toUInt32 := by
      apply UInt32.ext
      simp only [UInt32.toNat_add, Nat.toUInt32_eq, UInt32.toNat_ofNat', UInt32.toNat_one]
      omega
    simp only [Function.comp_apply, take, hk]

theorem count_close (pi : Pipe) (writable : Bool) : (pi.close writable).count = pi.count := by
  cases writable <;> rfl

theorem queue_close (pi : Pipe) (writable : Bool) : (pi.close writable).queue = pi.queue := by
  cases writable <;> rfl

/-! ## Appending and taking -/

/-- `pi'` is `pi` with `stored` appended to its queue, and not over-full. -/
structure Appended (pi pi' : Pipe) (stored : List UInt8) : Prop where
  queue : pi'.queue = pi.queue ++ stored
  bounded : pi'.count ≤ PIPESIZE

/-- `pi'` is `pi` with `taken` removed from the front of its queue, and not
over-full. -/
structure Taken (pi pi' : Pipe) (taken : List UInt8) : Prop where
  queue : pi.queue = taken ++ pi'.queue
  bounded : pi'.count ≤ PIPESIZE

theorem Appended.refl {pi : Pipe} (hb : pi.count ≤ PIPESIZE) : Appended pi pi [] :=
  ⟨(List.append_nil _).symm, hb⟩

theorem Appended.put {pi : Pipe} (c : UInt8) (hc : pi.count < PIPESIZE) :
    Appended pi (pi.put c) [c] :=
  ⟨queue_put c hc, by rw [count_put c hc]; omega⟩

theorem Appended.trans {pi₁ pi₂ pi₃ : Pipe} {s t : List UInt8} (h₁ : Appended pi₁ pi₂ s)
    (h₂ : Appended pi₂ pi₃ t) : Appended pi₁ pi₃ (s ++ t) :=
  ⟨by rw [h₂.queue, h₁.queue, List.append_assoc], h₂.bounded⟩

theorem Taken.refl {pi : Pipe} (hb : pi.count ≤ PIPESIZE) : Taken pi pi [] :=
  ⟨(List.nil_append _).symm, hb⟩

theorem Taken.take {pi : Pipe} (hne : pi.nread ≠ pi.nwrite) (hb : pi.count ≤ PIPESIZE) :
    Taken pi pi.take [pi.data (slot pi.nread)] :=
  ⟨queue_take hne, by rw [count_take hne]; omega⟩

theorem Taken.trans {pi₁ pi₂ pi₃ : Pipe} {s t : List UInt8} (h₁ : Taken pi₁ pi₂ s)
    (h₂ : Taken pi₂ pi₃ t) : Taken pi₁ pi₃ (s ++ t) :=
  ⟨by rw [h₁.queue, h₂.queue, List.append_assoc], h₂.bounded⟩

end Pipe

open Pipe

/-! ## The loops -/

/-- A piece of `pipewrite` appends the bytes it stores to the queue. -/
theorem pipewriteLoop_appends {mem : Blocks.UserMem} {killed : Bool} {addr : Nat} {n : Int} :
    ∀ fuel (pi : Pipe) i acc, pi.count ≤ PIPESIZE →
      ∃ stored, (pipewriteLoop mem killed addr n fuel pi i acc).2.1 = acc ++ stored ∧
        Appended pi (pipewriteLoop mem killed addr n fuel pi i acc).1 stored := by
  intro fuel
  induction fuel with
  | zero =>
    intro pi i acc hb
    exact ⟨[], (List.append_nil _).symm, Appended.refl hb⟩
  | succ fuel ih =>
    intro pi i acc hb
    rw [pipewriteLoop]
    split_ifs with hlt hclosed hfull
    · exact ⟨[], (List.append_nil _).symm, Appended.refl hb⟩
    · exact ⟨[], (List.append_nil _).symm, Appended.refl hb⟩
    · -- not full, so there is room for one more byte
      have hroom : pi.count < PIPESIZE := by
        have := mt full_iff.mpr hfull
        omega
      split
      · rename_i ch _
        obtain ⟨stored, hacc, happ⟩ := ih (pi.put (ch.headD 0)) (i + 1) (acc ++ [ch.headD 0])
          (Appended.put _ hroom).bounded
        refine ⟨ch.headD 0 :: stored, by rw [hacc, List.append_assoc]; rfl, ?_⟩
        exact (Appended.put _ hroom).trans happ
      · exact ⟨[], (List.append_nil _).symm, Appended.refl hb⟩
    · exact ⟨[], (List.append_nil _).symm, Appended.refl hb⟩

/-- A piece of `piperead` takes bytes from the front of the queue, and what
reaches user memory is a prefix of them. -/
theorem pipereadLoop_takes {addr : Nat} {n : Int} :
    ∀ fuel (pi : Pipe) vm i got, pi.count ≤ PIPESIZE →
      ∃ taken d, (pipereadLoop addr n fuel pi vm i got).2.2.1 = got ++ d ∧ d <+: taken ∧
        Taken pi (pipereadLoop addr n fuel pi vm i got).1 taken := by
  intro fuel
  induction fuel with
  | zero =>
    intro pi vm i got hb
    exact ⟨[], [], (List.append_nil _).symm, List.prefix_refl _, Taken.refl hb⟩
  | succ fuel ih =>
    intro pi vm i got hb
    rw [pipereadLoop]
    split_ifs with hlt hempty
    · exact ⟨[], [], (List.append_nil _).symm, List.prefix_refl _, Taken.refl hb⟩
    · have htake := Taken.take hempty hb
      dsimp only
      split
      · rename_i vm' _
        obtain ⟨taken, d, hgot, hpre, htaken⟩ :=
          ih pi.take vm' (i + 1) (got ++ [pi.data (Pipe.slot pi.nread)]) htake.bounded
        refine ⟨pi.data (Pipe.slot pi.nread) :: taken, pi.data (Pipe.slot pi.nread) :: d, ?_, ?_, ?_⟩
        · rw [hgot, List.append_assoc]
          rfl
        · exact List.cons_prefix_cons.mpr ⟨rfl, hpre⟩
        · exact htake.trans htaken
      · -- the byte left the pipe, but `copyout` failed: it reaches no one
        exact ⟨[pi.data (Pipe.slot pi.nread)], [], (List.append_nil _).symm, List.nil_prefix, htake⟩
    · exact ⟨[], [], (List.append_nil _).symm, List.prefix_refl _, Taken.refl hb⟩

/-- A piece of `pipewrite` appends what it stores to the queue. -/
theorem pipewrite_appends {mem : Blocks.UserMem} {killed : Bool} {addr : Nat} {n : Int}
    {i : Nat} {pi : Pipe} (hb : pi.count ≤ PIPESIZE) :
    Appended pi (pipewrite mem killed addr n i pi).1 (pipewrite mem killed addr n i pi).2.1 := by
  obtain ⟨stored, hacc, happ⟩ := @pipewriteLoop_appends mem killed addr n (n - i).toNat pi i [] hb
  rw [List.nil_append] at hacc
  unfold pipewrite
  rw [hacc]
  exact happ

/-- A piece of `piperead` takes bytes from the front of the queue, and what
reaches user memory is a prefix of them. -/
theorem piperead_takes {vm : UserVm} {killed : Bool} {addr : Nat} {n : Int} {pi : Pipe}
    (hb : pi.count ≤ PIPESIZE) :
    ∃ taken, (piperead vm killed addr n pi).2.2.1 <+: taken ∧
      Taken pi (piperead vm killed addr n pi).1 taken := by
  unfold piperead
  split_ifs with hsleep hkilled
  · exact ⟨[], List.prefix_refl _, Taken.refl hb⟩
  · exact ⟨[], List.prefix_refl _, Taken.refl hb⟩
  · obtain ⟨taken, d, hgot, hpre, htaken⟩ := @pipereadLoop_takes addr n
      n.toNat pi vm 0 [] hb
    generalize pipereadLoop addr n n.toNat pi vm 0 [] = res at hgot htaken
    obtain ⟨pi', vm', got, i⟩ := res
    rw [List.nil_append] at hgot
    exact ⟨taken, hgot ▸ hpre, htaken⟩

/-! ## Runs of pieces -/

/-- What holds between pieces of calls: the counters are at most `PIPESIZE`
apart, and what the writers stored is what was taken out followed by the
queue, with what reached the readers a subsequence of what was taken out. -/
structure FifoInv (r : PipeRun) : Prop where
  bounded : r.pipe.count ≤ PIPESIZE
  consumed : ∃ taken, r.accepted = taken ++ r.pipe.queue ∧ r.delivered.Sublist taken

theorem FifoInv.init {r : PipeRun} (h : r.Init) : FifoInv r := by
  obtain ⟨data, rfl⟩ := h
  have hcount : (Pipe.alloc data).count = 0 := by simp [count, Pipe.alloc]
  refine ⟨?_, [], ?_, List.Sublist.slnil⟩
  · show (Pipe.alloc data).count ≤ PIPESIZE
    rw [hcount]
    exact Nat.zero_le _
  · show [] = [] ++ (Pipe.alloc data).queue
    rw [List.nil_append, queue, hcount]
    rfl

theorem FifoInv.step {r : PipeRun} (hinv : FifoInv r) (c : PipeCall) : FifoInv (r.step c) := by
  obtain ⟨hb, taken, hacc, hdel⟩ := hinv
  cases c with
  | write mem killed addr n i =>
    have happ := @pipewrite_appends mem killed addr n i _ hb
    simp only [PipeRun.step]
    generalize pipewrite mem killed addr n i r.pipe = res at happ ⊢
    obtain ⟨pi', stored, e⟩ := res
    -- the stored bytes go to the end of both the writers' bytes and the queue
    refine ⟨happ.bounded, taken, ?_, hdel⟩
    rw [happ.queue, hacc, List.append_assoc]
  | read vm killed addr n =>
    obtain ⟨taken', hpre, htaken⟩ := @piperead_takes vm killed addr n _ hb
    simp only [PipeRun.step]
    generalize piperead vm killed addr n r.pipe = res at hpre htaken ⊢
    obtain ⟨pi', vm', got, e⟩ := res
    -- the taken bytes move from the queue to the consumed part
    refine ⟨htaken.bounded, taken ++ taken', ?_, ?_⟩
    · rw [hacc, htaken.queue, List.append_assoc]
    · exact hdel.append hpre.sublist
  | close writable =>
    refine ⟨?_, taken, ?_, hdel⟩
    · rw [PipeRun.step, count_close]
      exact hb
    · rw [PipeRun.step, queue_close]
      exact hacc

theorem fifoInv_of_reachable {r : PipeRun} (h : Reachable PipeRun.Init PipeRun.Next r) :
    FifoInv r := by
  refine h.invariant (fun r hr => FifoInv.init hr) ?_
  intro r c r' _ hinv hnext
  rw [hnext]
  exact hinv.step c

/-- What reaches the readers is a subsequence of what the writers stored: no
byte is made up, duplicated or reordered. -/
theorem delivered_sublist_of_reachable {r : PipeRun}
    (h : Reachable PipeRun.Init PipeRun.Next r) : r.delivered.Sublist r.accepted := by
  obtain ⟨taken, hacc, hdel⟩ := (fifoInv_of_reachable h).consumed
  rw [hacc]
  exact hdel.trans (List.sublist_append_left _ _)

/-! ## A lost byte -/

/-- User memory whose page at address `0` starts with `"ab"`. -/
def abMem : Blocks.UserMem :=
  fun vpn => if vpn = 0 then some (fun i => if i.val = 0 then 97 else if i.val = 1 then 98 else 0)
    else none

/-- `pipewrite(pi, 0, 2)` from `abMem`; `piperead(pi, 0, 2)` by a process with
no user pages; `piperead(pi, 0, 1)` into a writable page. -/
def loseFirstByte : List PipeCall :=
  [.write abMem false 0 2 0, .read ⟨fun _ => none, fun _ => false⟩ false 0 2,
    .read ⟨abMem, fun _ => true⟩ false 0 1]

/-- The writer stores `"ab"`; the first read takes `a` out of the pipe, fails
to copy it out and returns `0`; the second read gets `b`.  What reached the
readers, `"b"`, is not a prefix of what the writer stored. -/
theorem piperead_copyout_failure_loses_byte :
    ∃ r, Reachable PipeRun.Init PipeRun.Next r ∧ r.accepted = [97, 98] ∧ r.delivered = [98] := by
  let r₀ : PipeRun := ⟨Pipe.alloc fun _ => 0, [], []⟩
  have hrun : (exec (fun r c => some (r.step c)) r₀ loseFirstByte).map
      (fun r => decide (r.accepted = [97, 98] ∧ r.delivered = [98])) = some true := by
    decide +kernel
  cases hexec : exec (fun r c => some (r.step c)) r₀ loseFirstByte with
  | none => simp [hexec] at hrun
  | some r =>
    simp only [hexec, Option.map_some, Option.some.injEq, decide_eq_true_eq] at hrun
    have hinit : Reachable PipeRun.Init PipeRun.Next r₀ := .init ⟨_, rfl⟩
    have hsound : ∀ (r : PipeRun) c r', some (r.step c) = some r' → r.Next c r' :=
      fun _ _ _ h => (Option.some.inj h).symm
    exact ⟨r, hinit.exec hsound hexec, hrun⟩

end Xv6
