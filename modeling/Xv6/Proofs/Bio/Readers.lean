import Xv6.Bio.Readers
import Xv6.Proofs.Bio.Cache
import Xv6.Lib.Tally

/-!
# Readers exhaust the buffer cache

A step of a process in `readi` is a call of the cache by one of its holders
(`Readers.next_toBio`), so `CacheInv` holds in every state the readers reach
and the reference count of a buffer is the number of processes that hold it.
`bget` panics exactly when the block is not cached and every buffer has a
holder (`read_fails_iff`): never while there are at most `NBUF` processes
(`read_never_fails`), and on a real interleaving once `NBUF + 1` processes
read distinct blocks at once (`concurrent_reads_exhaust_buffers`).
-/

namespace Xv6.Bio

open Transition

namespace Readers

variable {np : Nat} {s s' : Readers np}

/-- The processes in `readi` as the cache's callers: the holders of a buffer
are the processes that hold it, and the log pins nothing. -/
def toBio (s : Readers np) : BioSys where
  bc := s.bc
  held i := ∑ q, if s.holding q = some i then 1 else 0
  pinned := []

theorem toBio_init : (init np).toBio = BioSys.init := by
  simp [toBio, init, BioSys.init]

/-- The holders of buffer `j` after process `p` changes what it holds to `x`. -/
theorem held_update (s : Readers np) (p : Fin np) (x : Option (Fin NBUF)) (j : Fin NBUF) :
    (∑ q, if Function.update s.holding p x q = some j then 1 else 0) +
        (if s.holding p = some j then 1 else 0) =
      (∑ q, if s.holding q = some j then 1 else 0) + if x = some j then 1 else 0 := by
  have h := Tally.sum_add_eq_of_eq_off (F := fun q => if s.holding q = some j then 1 else 0)
    (G := fun q => if Function.update s.holding p x q = some j then 1 else 0) p
    (fun q hq => by simp only [Function.update_of_ne hq])
  simpa using h

/-- A `read` is the `bread` of its block, with one more holder of the buffer. -/
theorem next_read {p : Fin np} {dev blockno : Nat} (h : s.Next (.read p dev blockno) s') :
    s.toBio.Next (.bread dev blockno) s'.toBio := by
  simp only [Next, step] at h
  split at h
  · cases h
  · rename_i hp
    split at h
    · rename_i i bc hread
      cases h
      simp only [BioSys.Next, BioSys.step, toBio, hread, Option.some.injEq, BioSys.mk.injEq,
        true_and, and_true]
      funext j
      have hj := held_update s p (some i) j
      rw [hp] at hj
      by_cases hji : j = i
      · subst hji
        simp only [Function.update_self]
        simpa using hj.symm
      · rw [Function.update_of_ne hji]
        simpa [Ne.symm hji] using hj.symm
    · cases h
    · cases h

/-- A `done` is the `brelse` of the buffer, with one holder fewer. -/
theorem next_done {p : Fin np} (h : s.Next (.done p) s') :
    ∃ i, s.toBio.Next (.brelse i) s'.toBio := by
  simp only [Next, step] at h
  split at h
  · rename_i i hp
    cases h
    refine ⟨i, ?_⟩
    have hheld : ∀ j, (∑ q, if Function.update s.holding p none q = some j then 1 else 0) +
        (if i = j then 1 else 0) = ∑ q, if s.holding q = some j then 1 else 0 := by
      intro j
      simpa [hp] using held_update s p none j
    -- `p` itself holds `i`
    have hpos : 0 < ∑ q, if s.holding q = some i then 1 else 0 := by
      have := hheld i
      rw [if_pos rfl] at this
      omega
    simp only [BioSys.Next, BioSys.step]
    rw [if_pos (show 0 < s.toBio.held i from hpos), Option.some.injEq]
    simp only [toBio, BioSys.mk.injEq, true_and, and_true]
    funext j
    have hj := hheld j
    by_cases hji : j = i
    · subst hji
      rw [Function.update_self]
      rw [if_pos rfl] at hj
      omega
    · rw [Function.update_of_ne hji]
      simpa [Ne.symm hji] using hj.symm
  · cases h

theorem next_toBio {e : ReadEvent np} (h : s.Next e s') : ∃ e', s.toBio.Next e' s'.toBio := by
  cases e with
  | read p dev blockno => exact ⟨_, next_read h⟩
  | done p =>
    obtain ⟨i, hi⟩ := next_done h
    exact ⟨_, hi⟩

/-- The readers run the cache as its callers do: every state they reach is a
state of `BioSys`. -/
theorem reachable_toBio (h : Reachable (· = init np) Next s) :
    Reachable (· = BioSys.init) BioSys.Next s.toBio := by
  induction h with
  | init hs => exact .init (by rw [hs, toBio_init])
  | step _ hnext ih =>
    obtain ⟨e', he'⟩ := next_toBio hnext
    exact ih.step he'

theorem cacheInv_toBio (h : Reachable (· = init np) Next s) : CacheInv s.toBio :=
  cacheInv_of_reachable (reachable_toBio h)

/-- The references of a buffer are the processes that hold it. -/
theorem refcnt_eq (h : Reachable (· = init np) Next s) (i : Fin NBUF) :
    (s.bc.buf i).refcnt = ∑ q, if s.holding q = some i then 1 else 0 := by
  have hr := (cacheInv_toBio h).refcnt i
  simpa [toBio, BioSys.Pinned] using hr

theorem refcnt_ne_zero_iff (h : Reachable (· = init np) Next s) (i : Fin NBUF) :
    (s.bc.buf i).refcnt ≠ 0 ↔ ∃ q, s.holding q = some i := by
  rw [refcnt_eq h, Ne, Finset.sum_eq_zero_iff]
  simp

theorem bread_eq_error {bc : Bcache} {dev blockno : Nat} {msg : String} :
    bread bc dev blockno = some (.error msg) ↔ bget bc dev blockno = some (.error msg) := by
  unfold bread
  cases hb : bget bc dev blockno with
  | none => simp
  | some r =>
    cases r with
    | error e => simp
    | ok r =>
      obtain ⟨i, bc'⟩ := r
      by_cases hv : (bc'.buf i).valid <;> simp [hv]

theorem step_read_of_idle {p : Fin np} (hp : s.holding p = none) {dev blockno : Nat}
    {msg : String} :
    s.step (.read p dev blockno) = some (.error msg) ↔ bread s.bc dev blockno = some (.error msg) := by
  simp only [step, hp]
  split <;> simp_all

/-- `bget` panics, for a process that holds no buffer, exactly when the block
is not cached and every buffer is held by some process. -/
theorem read_fails_iff (h : Reachable (· = init np) Next s) {p : Fin np} (hp : s.holding p = none)
    {dev blockno : Nat} {msg : String} :
    s.step (.read p dev blockno) = some (.error msg) ↔
      msg = "bget: no buffers" ∧ (∀ i, ¬ ((s.bc.buf i).dev = dev ∧ (s.bc.buf i).blockno = blockno)) ∧
        ∀ i, ∃ q, s.holding q = some i := by
  obtain ⟨order, hlen, hring⟩ := (cacheInv_toBio h).ring
  change s.bc.links.Holds order at hring
  rw [step_read_of_idle hp, bread_eq_error]
  constructor
  · intro hget
    -- the first loop found nothing: otherwise `bget` returns the buffer
    have hfind : order.find? (fun j => (s.bc.buf j).dev == dev && (s.bc.buf j).blockno == blockno) =
        none := by
      cases hf : order.find? (fun j => (s.bc.buf j).dev == dev && (s.bc.buf j).blockno == blockno) with
      | none => rfl
      | some i => rw [bget_cached hring hlen hf] at hget; cases hget
    -- and so did the second
    have hfree : order.reverse.find? (fun j => (s.bc.buf j).refcnt == 0) = none := by
      cases hf : order.reverse.find? (fun j => (s.bc.buf j).refcnt == 0) with
      | none => rfl
      | some i => rw [bget_recycled hring hlen hfind hf] at hget; cases hget
    rw [bget_full hring hlen hfind hfree] at hget
    refine ⟨(Except.error.inj (Option.some.inj hget)).symm, fun i hi => ?_, fun i => ?_⟩
    · have hno := List.find?_eq_none.mp hfind i (mem_of_length_eq hring.1 hlen i)
      simp [hi.1, hi.2] at hno
    · have hno := List.find?_eq_none.mp hfree i
        (List.mem_reverse.mpr (mem_of_length_eq hring.1 hlen i))
      rw [← refcnt_ne_zero_iff h]
      simpa using hno
  · rintro ⟨rfl, hnew, hall⟩
    have hfind : order.find? (fun j => (s.bc.buf j).dev == dev && (s.bc.buf j).blockno == blockno) =
        none := by
      rw [List.find?_eq_none]
      intro i _
      simpa using hnew i
    have hfree : order.reverse.find? (fun j => (s.bc.buf j).refcnt == 0) = none := by
      rw [List.find?_eq_none]
      intro i _
      simpa using (refcnt_ne_zero_iff h i).mpr (hall i)
    exact bget_full hring hlen hfind hfree

/-- With at most `NBUF` processes, `bget` never panics: the buffers held by the
other processes are fewer than `NBUF`. -/
theorem read_never_fails (hnp : np ≤ NBUF) (h : Reachable (· = init np) Next s) {p : Fin np}
    (hp : s.holding p = none) (dev blockno : Nat) (msg : String) :
    s.step (.read p dev blockno) ≠ some (.error msg) := by
  intro herr
  obtain ⟨-, -, hall⟩ := (read_fails_iff h hp).mp herr
  choose f hf using hall
  -- `f` picks a holder of each buffer: one-to-one, and never `p`
  have hinj : Function.Injective f := fun i j hij =>
    Option.some.inj ((hf i).symm.trans (hij ▸ hf j))
  have hsub : Finset.univ.image f ⊆ Finset.univ.erase p := by
    intro q hq
    obtain ⟨i, -, rfl⟩ := Finset.mem_image.mp hq
    refine Finset.mem_erase.mpr ⟨fun hip => ?_, Finset.mem_univ _⟩
    have hfi := hf i
    rw [hip, hp] at hfi
    cases hfi
  have hcard := Finset.card_le_card hsub
  rw [Finset.card_image_of_injective _ hinj, Finset.card_erase_of_mem (Finset.mem_univ p),
    Finset.card_univ, Finset.card_univ, Fintype.card_fin, Fintype.card_fin] at hcard
  have hpos : 0 < np := p.pos
  omega

end Readers

/-- The process that reads last. -/
def reader30 : Fin NPROC := ⟨30, by decide⟩

/-- Processes `0, …, NBUF - 1` each call `bread` on a block of their own,
blocks `100, …, 129` of the root device, and keep it. -/
def fillCache : List (ReadEvent NPROC) :=
  (List.finRange NBUF).map fun i => .read (Fin.castLE (by decide) i) ROOTDEV (100 + i.val)

/-- After `NBUF` processes have each read a block of their own and hold its
buffer, a process that holds none reads another block, and `bget` panics. -/
theorem concurrent_reads_exhaust_buffers :
    ∃ s, Reachable (· = Readers.init NPROC) Readers.Next s ∧
      (∀ i, ∃ q, s.holding q = some i) ∧ s.holding reader30 = none ∧
      s.step (.read reader30 ROOTDEV 130) = some (.error "bget: no buffers") := by
  have hrun : (exec (okStep Readers.step) (Readers.init NPROC) fillCache).map (fun s =>
      decide ((∀ i, ∃ q, s.holding q = some i) ∧ s.holding reader30 = none ∧
        ∀ i, ¬ ((s.bc.buf i).dev = ROOTDEV ∧ (s.bc.buf i).blockno = 130))) = some true := by
    decide +kernel
  have hsound : ∀ (s : Readers NPROC) e s', okStep Readers.step s e = some s' → s.Next e s' :=
    fun _ _ _ h => okStep_eq_some h
  obtain ⟨s, hs, hp⟩ := Reachable.exists_of_exec hsound hrun
  obtain ⟨hall, hidle, hnew⟩ := of_decide_eq_true hp
  exact ⟨s, hs, hall, hidle, (Readers.read_fails_iff hs hidle).mpr ⟨rfl, hnew, hall⟩⟩

end Xv6.Bio
