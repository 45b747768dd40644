import Xv6.Bio.Cache
import Mathlib.Data.Fintype.Card

/-!
# The buffer cache keeps its list, its blocks and its counts

`CacheInv` is the state of `bcache` between calls: the list through the head
holds every buffer once, a block of a device is cached in at most one buffer,
the reference count of a buffer is its holders plus the log's pin of its
block, and the log pins each of its blocks once, in the buffer that caches it.
It holds after `binit` and every call keeps it, whatever the interleaving.

## Strategy

The pointer writes of the model are those of `Ring.Links`
(`Bcache.links_setNext`, `Bcache.links_setPrev`), so `brelse` is `unlink` then
`pushFront` on the ring (`brelse_links`) and `binit` pushes each buffer in
turn (`binit_links`); `Ring.Holds.moveFront` and `Ring.holds_foldl_pushFront`
give the new list.  On a list of all the buffers the two loops of `bget` are
`List.find?` over the list and over its reverse (`bget_cases`), which is what
makes a block cached at most once: the first loop sees every buffer, free
ones included, before the second recycles one.

The calls that move no block and no pin keep the invariant by
`CacheInv.frame`; a recycled buffer (`CacheInv.recycle`), `log_write` and
`install_trans` are the three that change which buffer holds or pins a block.
-/

namespace Xv6.Bio

open Ring Transition

/-! ## Pointer writes -/

namespace Bcache

variable (bc : Bcache)

@[simp] theorem setNext_buf (x y : Option (Fin NBUF)) (j : Fin NBUF) :
    (bc.setNext x y).buf j = { bc.buf j with next := if x = some j then y else (bc.buf j).next } := by
  cases x with
  | none => simp [setNext]
  | some i =>
    by_cases h : j = i
    · subst h
      simp [setNext]
    · simp [setNext, h, Ne.symm h]

@[simp] theorem setPrev_buf (x y : Option (Fin NBUF)) (j : Fin NBUF) :
    (bc.setPrev x y).buf j = { bc.buf j with prev := if x = some j then y else (bc.buf j).prev } := by
  cases x with
  | none => simp [setPrev]
  | some i =>
    by_cases h : j = i
    · subst h
      simp [setPrev]
    · simp [setPrev, h, Ne.symm h]

@[simp] theorem setBuf_buf (i : Fin NBUF) (b : Buf) (j : Fin NBUF) :
    (bc.setBuf i b).buf j = if j = i then b else bc.buf j := by
  simp [setBuf, Function.update_apply]

theorem next_setNext (x y : Option (Fin NBUF)) : (bc.setNext x y).next = Function.update bc.next x y := by
  funext z
  cases z with
  | none => cases x <;> simp [setNext, next]
  | some j =>
    by_cases h : x = some j
    · subst h
      simp [next]
    · simp [next, h, Function.update_of_ne (Ne.symm h)]

theorem prev_setNext (x y : Option (Fin NBUF)) : (bc.setNext x y).prev = bc.prev := by
  funext z
  cases z with
  | none => cases x <;> simp [setNext, prev]
  | some j => simp [prev]

theorem next_setPrev (x y : Option (Fin NBUF)) : (bc.setPrev x y).next = bc.next := by
  funext z
  cases z with
  | none => cases x <;> simp [setPrev, next]
  | some j => simp [next]

theorem prev_setPrev (x y : Option (Fin NBUF)) : (bc.setPrev x y).prev = Function.update bc.prev x y := by
  funext z
  cases z with
  | none => cases x <;> simp [setPrev, prev]
  | some j =>
    by_cases h : x = some j
    · subst h
      simp [prev]
    · simp [prev, h, Function.update_of_ne (Ne.symm h)]

theorem links_setNext (x y : Option (Fin NBUF)) : (bc.setNext x y).links = bc.links.setNext x y := by
  simp only [links, Links.setNext, next_setNext, prev_setNext]

theorem links_setPrev (x y : Option (Fin NBUF)) : (bc.setPrev x y).links = bc.links.setPrev x y := by
  simp only [links, Links.setPrev, next_setPrev, prev_setPrev]

/-- A write of buffer `i` that keeps its pointers keeps the list. -/
theorem links_setBuf {i : Fin NBUF} {b : Buf} (hnext : b.next = (bc.buf i).next)
    (hprev : b.prev = (bc.buf i).prev) : (bc.setBuf i b).links = bc.links := by
  have hn : (bc.setBuf i b).next = bc.next := by
    funext z
    cases z with
    | none => rfl
    | some j =>
      by_cases h : j = i
      · subst h
        simp [next, hnext]
      · simp [next, h]
  have hp : (bc.setBuf i b).prev = bc.prev := by
    funext z
    cases z with
    | none => rfl
    | some j =>
      by_cases h : j = i
      · subst h
        simp [prev, hprev]
      · simp [prev, h]
  simp only [links, hn, hp]

end Bcache

/-! ## `brelse` and `binit` on the ring -/

theorem brelse_links (bc : Bcache) (i : Fin NBUF) :
    (brelse bc i).links =
      if (bc.buf i).refcnt - 1 = 0 then (bc.links.unlink i).pushFront i else bc.links := by
  have h₁ : (bc.setBuf i { bc.buf i with refcnt := (bc.buf i).refcnt - 1 }).links = bc.links :=
    Bcache.links_setBuf bc rfl rfl
  have hn : (bc.setBuf i { bc.buf i with refcnt := (bc.buf i).refcnt - 1 }).next = bc.next :=
    congrArg Links.next h₁
  have hp : (bc.setBuf i { bc.buf i with refcnt := (bc.buf i).refcnt - 1 }).prev = bc.prev :=
    congrArg Links.prev h₁
  have hr : ((bc.setBuf i { bc.buf i with refcnt := (bc.buf i).refcnt - 1 }).buf i).refcnt =
      (bc.buf i).refcnt - 1 := by simp
  unfold brelse
  dsimp only
  rw [hr]
  split_ifs with h0
  · simp only [Bcache.links_setNext, Bcache.links_setPrev, Bcache.next_setNext,
      Bcache.next_setPrev, Bcache.prev_setPrev, hn, hp, h₁, Links.unlink, Links.pushFront,
      Links.setNext_next, Links.setPrev_next, Links.setPrev_prev]
    rfl
  · exact h₁

/-- A new reference count for buffer `i`, as `bget`, `bpin` and `bunpin` write it. -/
theorem setRefcnt_buf (bc : Bcache) (i j : Fin NBUF) (r : Nat) :
    ((bc.setBuf i { bc.buf i with refcnt := r }).buf j).dev = (bc.buf j).dev ∧
      ((bc.setBuf i { bc.buf i with refcnt := r }).buf j).blockno = (bc.buf j).blockno ∧
      ((bc.setBuf i { bc.buf i with refcnt := r }).buf j).refcnt =
        if j = i then r else (bc.buf j).refcnt := by
  by_cases hj : j = i
  · subst hj
    simp
  · simp [hj]

/-- What `brelse` leaves of the buffers: one reference fewer on `i`. -/
theorem brelse_buf (bc : Bcache) (i j : Fin NBUF) :
    ((brelse bc i).buf j).dev = (bc.buf j).dev ∧ ((brelse bc i).buf j).blockno = (bc.buf j).blockno ∧
      ((brelse bc i).buf j).refcnt = if j = i then (bc.buf j).refcnt - 1 else (bc.buf j).refcnt := by
  unfold brelse
  dsimp only
  split_ifs with h0 hj hj <;> simp [hj]

/-- Each step of `binit`'s loop puts one buffer after the head, and so does the
loop over a list of buffers. -/
theorem links_foldl {f : Bcache → Fin NBUF → Bcache}
    (hf : ∀ bc b, (f bc b).links = bc.links.pushFront b) :
    ∀ (bs : List (Fin NBUF)) (bc : Bcache),
      (bs.foldl f bc).links = bs.foldl (fun L b => L.pushFront b) bc.links
  | [], _ => rfl
  | b :: bs, bc => by
    rw [List.foldl_cons, List.foldl_cons, links_foldl hf bs, hf]

theorem foldl_induction {P : Bcache → Prop} {f : Bcache → Fin NBUF → Bcache}
    (hf : ∀ bc b, P bc → P (f bc b)) : ∀ (bs : List (Fin NBUF)) (bc : Bcache), P bc → P (bs.foldl f bc)
  | [], _, h => h
  | b :: bs, bc, h => foldl_induction hf bs (f bc b) (hf bc b h)

/-- `binit` makes a list of all the buffers, the last one first, from any
values of the pointers. -/
theorem binit_links (bc : Bcache) : (binit bc).links.Holds (List.finRange NBUF).reverse := by
  unfold binit
  rw [links_foldl]
  · have hnil : ((bc.setPrev none none).setNext none none).links.Holds [] := by
      refine Links.holds_nil ?_ ?_
      · simp [Bcache.links_setNext, Bcache.links_setPrev]
      · simp [Bcache.links_setNext, Bcache.links_setPrev]
    have hpush := Links.holds_foldl_pushFront (List.finRange NBUF) _ [] hnil
      (by simpa using List.nodup_finRange NBUF)
    rwa [List.append_nil] at hpush
  · intro bc b
    dsimp only
    simp only [Bcache.links_setNext, Bcache.links_setPrev, Bcache.next_setNext, Bcache.next_setPrev,
      Links.pushFront, Links.setNext_next, Links.setPrev_next]
    rfl

/-- `binit` writes only the pointers. -/
theorem binit_buf (bc : Bcache) (j : Fin NBUF) :
    ((binit bc).buf j).dev = (bc.buf j).dev ∧ ((binit bc).buf j).blockno = (bc.buf j).blockno ∧
      ((binit bc).buf j).refcnt = (bc.buf j).refcnt := by
  unfold binit
  refine foldl_induction (P := fun bc' => (bc'.buf j).dev = (bc.buf j).dev ∧
    (bc'.buf j).blockno = (bc.buf j).blockno ∧ (bc'.buf j).refcnt = (bc.buf j).refcnt)
    (fun bc' b h => ?_) _ _ (by simp)
  simpa using h

/-! ## `bget` on a list of all the buffers -/

/-- A duplicate-free list of `NBUF` buffers has them all. -/
theorem mem_of_length_eq {order : List (Fin NBUF)} (hnodup : order.Nodup)
    (hlen : order.length = NBUF) (j : Fin NBUF) : j ∈ order := by
  have hcard : order.toFinset.card = Fintype.card (Fin NBUF) := by
    rw [List.toFinset_card_of_nodup hnodup, hlen, Fintype.card_fin]
  have hj : j ∈ order.toFinset := by
    rw [Finset.eq_univ_of_card _ hcard]
    exact Finset.mem_univ j
  exact List.mem_toFinset.mp hj

section Bget

variable {bc : Bcache} {order : List (Fin NBUF)} (h : bc.links.Holds order)
  (hlen : order.length = NBUF) {dev blockno : Nat}

include h hlen

/-- The block was cached: its buffer gets one more reference. -/
theorem bget_cached {i : Fin NBUF}
    (hfind : order.find? (fun j => (bc.buf j).dev == dev && (bc.buf j).blockno == blockno) = some i) :
    bget bc dev blockno = some (.ok (i, bc.setBuf i { bc.buf i with refcnt := (bc.buf i).refcnt + 1 })) := by
  have hw : walk bc.next (fun j => (bc.buf j).dev == dev && (bc.buf j).blockno == blockno)
      (NBUF + 1) (bc.next none) = some (some i) := by
    have hwalk := h.walk_next (fun j => (bc.buf j).dev == dev && (bc.buf j).blockno == blockno)
    rw [hlen, hfind] at hwalk
    exact hwalk
  simp [bget, hw]

/-- The block was not cached: the least recently used free buffer takes it. -/
theorem bget_recycled {i : Fin NBUF}
    (hfind : order.find? (fun j => (bc.buf j).dev == dev && (bc.buf j).blockno == blockno) = none)
    (hfree : order.reverse.find? (fun j => (bc.buf j).refcnt == 0) = some i) :
    bget bc dev blockno =
      some (.ok (i, bc.setBuf i { bc.buf i with dev, blockno, valid := false, refcnt := 1 })) := by
  have hw : walk bc.next (fun j => (bc.buf j).dev == dev && (bc.buf j).blockno == blockno)
      (NBUF + 1) (bc.next none) = some none := by
    have hwalk := h.walk_next (fun j => (bc.buf j).dev == dev && (bc.buf j).blockno == blockno)
    rw [hlen, hfind] at hwalk
    exact hwalk
  have hw' : walk bc.prev (fun j => (bc.buf j).refcnt == 0) (NBUF + 1) (bc.prev none) =
      some (some i) := by
    have hwalk := h.walk_prev (fun j => (bc.buf j).refcnt == 0)
    rw [hlen, hfree] at hwalk
    exact hwalk
  simp [bget, hw, hw']

/-- Not cached, and every buffer referenced: the panic. -/
theorem bget_full
    (hfind : order.find? (fun j => (bc.buf j).dev == dev && (bc.buf j).blockno == blockno) = none)
    (hfree : order.reverse.find? (fun j => (bc.buf j).refcnt == 0) = none) :
    bget bc dev blockno = some (.error "bget: no buffers") := by
  have hw : walk bc.next (fun j => (bc.buf j).dev == dev && (bc.buf j).blockno == blockno)
      (NBUF + 1) (bc.next none) = some none := by
    have hwalk := h.walk_next (fun j => (bc.buf j).dev == dev && (bc.buf j).blockno == blockno)
    rw [hlen, hfind] at hwalk
    exact hwalk
  have hw' : walk bc.prev (fun j => (bc.buf j).refcnt == 0) (NBUF + 1) (bc.prev none) = some none := by
    have hwalk := h.walk_prev (fun j => (bc.buf j).refcnt == 0)
    rw [hlen, hfree] at hwalk
    exact hwalk
  simp [bget, hw, hw']

end Bget

/-- `bread` is `bget` and the disk read, which sets only `valid`. -/
theorem bread_of_bget {bc bc₁ : Bcache} {dev blockno : Nat} {i : Fin NBUF}
    (h : bget bc dev blockno = some (.ok (i, bc₁))) :
    ∃ bc₂, bread bc dev blockno = some (.ok (i, bc₂)) ∧ bc₂.links = bc₁.links ∧
      ∀ j, (bc₂.buf j).dev = (bc₁.buf j).dev ∧ (bc₂.buf j).blockno = (bc₁.buf j).blockno ∧
        (bc₂.buf j).refcnt = (bc₁.buf j).refcnt := by
  cases hv : (bc₁.buf i).valid
  · refine ⟨bc₁.setBuf i { bc₁.buf i with valid := true }, by simp [bread, h, hv],
      Bcache.links_setBuf _ rfl rfl, fun j => ?_⟩
    by_cases hj : j = i
    · subst hj
      simp
    · simp [hj]
  · exact ⟨bc₁, by simp [bread, h, hv], rfl, fun j => ⟨rfl, rfl, rfl⟩⟩

/-- What `bget` does on a list of all the buffers. -/
theorem bget_cases {bc : Bcache} {order : List (Fin NBUF)} (h : bc.links.Holds order)
    (hlen : order.length = NBUF) (dev blockno : Nat) :
    (∃ i, (bc.buf i).dev = dev ∧ (bc.buf i).blockno = blockno ∧
      bget bc dev blockno =
        some (.ok (i, bc.setBuf i { bc.buf i with refcnt := (bc.buf i).refcnt + 1 }))) ∨
    (∃ i, (bc.buf i).refcnt = 0 ∧
      bget bc dev blockno =
        some (.ok (i, bc.setBuf i { bc.buf i with dev, blockno, valid := false, refcnt := 1 }))) ∨
    bget bc dev blockno = some (.error "bget: no buffers") := by
  cases hfind : order.find? (fun j => (bc.buf j).dev == dev && (bc.buf j).blockno == blockno) with
  | some i =>
    have hkey : (bc.buf i).dev = dev ∧ (bc.buf i).blockno = blockno := by
      simpa using List.find?_some hfind
    exact .inl ⟨i, hkey.1, hkey.2, bget_cached h hlen hfind⟩
  | none =>
    cases hfree : order.reverse.find? (fun j => (bc.buf j).refcnt == 0) with
    | some i =>
      have h0 : (bc.buf i).refcnt = 0 := by simpa using List.find?_some hfree
      exact .inr (.inl ⟨i, h0, bget_recycled h hlen hfind hfree⟩)
    | none => exact .inr (.inr (bget_full h hlen hfind hfree))

/-! ## The invariant -/

/-- Buffer `i` holds a block the log has pinned. -/
abbrev BioSys.Pinned (s : BioSys) (i : Fin NBUF) : Prop :=
  (s.bc.buf i).dev = ROOTDEV ∧ (s.bc.buf i).blockno ∈ s.pinned

/-- The cache between calls: the list holds every buffer once, a block is in
at most one buffer, the references of a buffer are its holders and the log's
pin, and the log pins each block once, in the buffer that caches it. -/
structure CacheInv (s : BioSys) : Prop where
  ring : ∃ order : List (Fin NBUF), order.length = NBUF ∧ s.bc.links.Holds order
  unique : ∀ i j, (s.bc.buf i).dev ≠ 0 → (s.bc.buf i).dev = (s.bc.buf j).dev →
    (s.bc.buf i).blockno = (s.bc.buf j).blockno → i = j
  refcnt : ∀ i, (s.bc.buf i).refcnt = s.held i + if s.Pinned i then 1 else 0
  pinned_nodup : s.pinned.Nodup
  pinned_cached : ∀ n ∈ s.pinned, ∃ i, (s.bc.buf i).dev = ROOTDEV ∧ (s.bc.buf i).blockno = n

namespace CacheInv

variable {s s' : BioSys}

/-- A buffer with no reference has no holder and no pin. -/
theorem free_of_refcnt (hinv : CacheInv s) {i : Fin NBUF} (h0 : (s.bc.buf i).refcnt = 0) :
    s.held i = 0 ∧ ¬ s.Pinned i := by
  have hr := hinv.refcnt i
  by_cases hp : s.Pinned i
  · rw [if_pos hp] at hr
    omega
  · rw [if_neg hp] at hr
    exact ⟨by omega, hp⟩

/-- Two buffers of the log's device with one block number are one buffer. -/
theorem eq_of_log_block (hinv : CacheInv s) {i j : Fin NBUF} (hi : (s.bc.buf i).dev = ROOTDEV)
    (hj : (s.bc.buf j).dev = ROOTDEV) (hb : (s.bc.buf j).blockno = (s.bc.buf i).blockno) : j = i :=
  hinv.unique j i (by rw [hj]; decide) (by rw [hi, hj]) hb

/-- A call that keeps every block where it is and the log's pins, and moves a
reference count exactly as it moves the holders, keeps the invariant. -/
theorem frame (hinv : CacheInv s)
    (hring : ∃ order : List (Fin NBUF), order.length = NBUF ∧ s'.bc.links.Holds order)
    (hdev : ∀ j, (s'.bc.buf j).dev = (s.bc.buf j).dev)
    (hblock : ∀ j, (s'.bc.buf j).blockno = (s.bc.buf j).blockno) (hpinned : s'.pinned = s.pinned)
    (hcount : ∀ j, (s'.bc.buf j).refcnt + s.held j = (s.bc.buf j).refcnt + s'.held j) :
    CacheInv s' where
  ring := hring
  unique i j := by
    rw [hdev, hdev, hblock, hblock]
    exact hinv.unique i j
  refcnt j := by
    have hp : s'.Pinned j ↔ s.Pinned j := by
      simp only [BioSys.Pinned, hdev, hblock, hpinned]
    have hr := hinv.refcnt j
    have hc := hcount j
    by_cases hpj : s.Pinned j
    · rw [if_pos hpj] at hr
      rw [if_pos (hp.mpr hpj)]
      omega
    · rw [if_neg hpj] at hr
      rw [if_neg (mt hp.mp hpj)]
      omega
  pinned_nodup := hpinned ▸ hinv.pinned_nodup
  pinned_cached n hn := by
    obtain ⟨i, hi, hb⟩ := hinv.pinned_cached n (hpinned ▸ hn)
    exact ⟨i, by rw [hdev, hi], by rw [hblock, hb]⟩

/-- `bread` of a block that is cached: one more holder, one more reference. -/
theorem bread_cached (hinv : CacheInv s) {order : List (Fin NBUF)} (hlen : order.length = NBUF)
    (hring : s.bc.links.Holds order) {dev blockno : Nat} {i : Fin NBUF}
    (hfind : order.find? (fun j => (s.bc.buf j).dev == dev && (s.bc.buf j).blockno == blockno) = some i)
    (h : s.step (.bread dev blockno) = some s') : CacheInv s' := by
  set bc₁ := s.bc.setBuf i { s.bc.buf i with refcnt := (s.bc.buf i).refcnt + 1 }
  have hlinks₁ : bc₁.links = s.bc.links := Bcache.links_setBuf _ rfl rfl
  obtain ⟨bc₂, hbread, hlinks, hbuf⟩ := bread_of_bget (bget_cached hring hlen hfind)
  simp only [BioSys.step, hbread, Option.some.injEq] at h
  subst h
  refine hinv.frame ⟨order, hlen, by rw [hlinks, hlinks₁]; exact hring⟩ (fun j => ?_) (fun j => ?_)
    rfl (fun j => ?_)
  · rw [(hbuf j).1]
    by_cases hj : j = i <;> simp [hj]
  · rw [(hbuf j).2.1]
    by_cases hj : j = i <;> simp [hj]
  · rw [(hbuf j).2.2]
    by_cases hj : j = i
    · subst hj
      simp
      omega
    · simp [hj]

/-- A buffer with no reference takes a block that no buffer holds, for one new
holder. -/
theorem recycle (hinv : CacheInv s) {bc' : Bcache} {i : Fin NBUF} {dev blockno : Nat}
    (hring : ∃ order : List (Fin NBUF), order.length = NBUF ∧ bc'.links.Holds order)
    (h0 : (s.bc.buf i).refcnt = 0)
    (hnew : ∀ j, ¬ ((s.bc.buf j).dev = dev ∧ (s.bc.buf j).blockno = blockno))
    (hi : (bc'.buf i).dev = dev ∧ (bc'.buf i).blockno = blockno ∧ (bc'.buf i).refcnt = 1)
    (hj : ∀ j, j ≠ i → (bc'.buf j).dev = (s.bc.buf j).dev ∧
      (bc'.buf j).blockno = (s.bc.buf j).blockno ∧ (bc'.buf j).refcnt = (s.bc.buf j).refcnt) :
    CacheInv { s with bc := bc', held := Function.update s.held i (s.held i + 1) } := by
  obtain ⟨hheld, hunpinned⟩ := hinv.free_of_refcnt h0
  -- the new block is not pinned: a pinned block is cached
  have hnotpinned : ¬ (dev = ROOTDEV ∧ blockno ∈ s.pinned) := by
    rintro ⟨hd, hb⟩
    obtain ⟨k, hk, hkb⟩ := hinv.pinned_cached blockno hb
    exact hnew k ⟨hk.trans hd.symm, hkb⟩
  refine ⟨hring, fun j k hdev hdk hbk => ?_, fun j => ?_, hinv.pinned_nodup, fun n hn => ?_⟩
  · dsimp only at hdev hdk hbk ⊢
    by_cases hji : j = i <;> by_cases hki : k = i
    · rw [hji, hki]
    · subst hji
      rw [hi.1, (hj k hki).1] at hdk
      rw [hi.2.1, (hj k hki).2.1] at hbk
      exact absurd ⟨hdk.symm, hbk.symm⟩ (hnew k)
    · subst hki
      rw [hi.1, (hj j hji).1] at hdk
      rw [hi.2.1, (hj j hji).2.1] at hbk
      exact absurd ⟨hdk, hbk⟩ (hnew j)
    · rw [(hj j hji).1] at hdev hdk
      rw [(hj k hki).1] at hdk
      rw [(hj j hji).2.1, (hj k hki).2.1] at hbk
      exact hinv.unique j k hdev hdk hbk
  · dsimp only
    by_cases hji : j = i
    · rw [hji]
      have hpin : ¬ ((bc'.buf i).dev = ROOTDEV ∧ (bc'.buf i).blockno ∈ s.pinned) := by
        rw [hi.1, hi.2.1]
        exact hnotpinned
      rw [hi.2.2, Function.update_self, hheld, if_neg hpin]
    · rw [(hj j hji).2.2, Function.update_of_ne hji, hinv.refcnt j]
      simp only [BioSys.Pinned, (hj j hji).1, (hj j hji).2.1]
  · obtain ⟨k, hk, hkb⟩ := hinv.pinned_cached n hn
    have hki : k ≠ i := by
      rintro rfl
      exact hunpinned ⟨hk, hkb ▸ hn⟩
    exact ⟨k, (hj k hki).1.trans hk, (hj k hki).2.1.trans hkb⟩

/-- `bread` of a block that is not cached: the least recently used free buffer
takes it, with its caller as only holder. -/
theorem bread_recycled (hinv : CacheInv s) {order : List (Fin NBUF)} (hlen : order.length = NBUF)
    (hring : s.bc.links.Holds order) {dev blockno : Nat} {i : Fin NBUF}
    (hfind : order.find? (fun j => (s.bc.buf j).dev == dev && (s.bc.buf j).blockno == blockno) = none)
    (hfree : order.reverse.find? (fun j => (s.bc.buf j).refcnt == 0) = some i)
    (h : s.step (.bread dev blockno) = some s') : CacheInv s' := by
  set bc₁ := s.bc.setBuf i { s.bc.buf i with dev, blockno, valid := false, refcnt := 1 }
  have hlinks₁ : bc₁.links = s.bc.links := Bcache.links_setBuf _ rfl rfl
  obtain ⟨bc₂, hbread, hlinks, hbuf⟩ := bread_of_bget (bget_recycled hring hlen hfind hfree)
  simp only [BioSys.step, hbread, Option.some.injEq] at h
  subst h
  have h0 : (s.bc.buf i).refcnt = 0 := by simpa using List.find?_some hfree
  have hnew : ∀ j, ¬ ((s.bc.buf j).dev = dev ∧ (s.bc.buf j).blockno = blockno) := by
    intro j hj
    have hno := List.find?_eq_none.mp hfind j (mem_of_length_eq hring.1 hlen j)
    simp [hj.1, hj.2] at hno
  refine hinv.recycle ⟨order, hlen, by rw [hlinks, hlinks₁]; exact hring⟩ h0 hnew ?_ fun j hji => ?_
  · rw [(hbuf i).1, (hbuf i).2.1, (hbuf i).2.2]
    simp
  · rw [(hbuf j).1, (hbuf j).2.1, (hbuf j).2.2]
    simp [hji]

/-- `brelse` by a holder: one holder and one reference fewer, and the list is
a list of all the buffers again. -/
theorem brelse (hinv : CacheInv s) {i : Fin NBUF} (h : s.step (.brelse i) = some s') :
    CacheInv s' := by
  simp only [BioSys.step] at h
  split_ifs at h with hheld
  simp only [Option.some.injEq] at h
  subst h
  obtain ⟨order, hlen, hring⟩ := hinv.ring
  have hmem : i ∈ order := mem_of_length_eq hring.1 hlen i
  refine hinv.frame ?_ (fun j => (brelse_buf s.bc i j).1) (fun j => (brelse_buf s.bc i j).2.1) rfl
    (fun j => ?_)
  · -- the list is the same, or has `i` moved to its front
    show ∃ order', order'.length = NBUF ∧ (Xv6.Bio.brelse s.bc i).links.Holds order'
    rw [brelse_links]
    split_ifs
    · refine ⟨i :: order.erase i, ?_, hring.moveFront hmem⟩
      rw [List.length_cons, List.length_erase_of_mem hmem, hlen]
      have : 0 < NBUF := by decide
      omega
    · exact ⟨order, hlen, hring⟩
  · have hr := hinv.refcnt i
    show ((Xv6.Bio.brelse s.bc i).buf j).refcnt + s.held j =
      (s.bc.buf j).refcnt + Function.update s.held i (s.held i - 1) j
    rw [(brelse_buf s.bc i j).2.2]
    by_cases hji : j = i
    · subst hji
      rw [if_pos rfl, Function.update_self]
      split_ifs at hr <;> omega
    · rw [if_neg hji, Function.update_of_ne hji]

/-- `log_write` by a holder: a block new to the log is pinned, once. -/
theorem logWrite (hinv : CacheInv s) {i : Fin NBUF} (h : s.step (.logWrite i) = some s') :
    CacheInv s' := by
  simp only [BioSys.step] at h
  split_ifs at h with hcall hlogged
  · -- log absorption
    rw [← Option.some.inj h]
    exact hinv
  simp only [Option.some.injEq] at h
  subst h
  obtain ⟨hheld, hdev⟩ := hcall
  have hbuf := setRefcnt_buf s.bc i
  -- a buffer of the new block is `i`
  have hsame : ∀ j, (s.bc.buf j).dev = ROOTDEV → (s.bc.buf j).blockno = (s.bc.buf i).blockno → j = i :=
    fun j hj hb => hinv.eq_of_log_block hdev hj hb
  refine ⟨?_, fun j k => ?_, fun j => ?_, ?_, fun n hn => ?_⟩
  · obtain ⟨order, hlen, hring⟩ := hinv.ring
    have hl : (bpin s.bc i).links = s.bc.links := Bcache.links_setBuf _ rfl rfl
    show ∃ order, order.length = NBUF ∧ (bpin s.bc i).links.Holds order
    rw [hl]
    exact ⟨order, hlen, hring⟩
  · show ((bpin s.bc i).buf j).dev ≠ 0 → _
    simp only [bpin, (hbuf j _).1, (hbuf k _).1, (hbuf j _).2.1, (hbuf k _).2.1]
    exact hinv.unique j k
  · show ((bpin s.bc i).buf j).refcnt = s.held j +
      if ((bpin s.bc i).buf j).dev = ROOTDEV ∧
        ((bpin s.bc i).buf j).blockno ∈ s.pinned ++ [(s.bc.buf i).blockno] then 1 else 0
    simp only [bpin, (hbuf j _).1, (hbuf j _).2.1, (hbuf j _).2.2, List.mem_append,
      List.mem_singleton]
    have hr := hinv.refcnt j
    by_cases hji : j = i
    · subst hji
      rw [if_neg (fun hp => hlogged hp.2)] at hr
      simp [hdev]
      omega
    · rw [if_neg hji, hr]
      by_cases hp : s.Pinned j
      · rw [if_pos hp, if_pos ⟨hp.1, .inl hp.2⟩]
      · rw [if_neg hp, if_neg]
        rintro ⟨hj, hb | hb⟩
        · exact hp ⟨hj, hb⟩
        · exact hji (hsame j hj hb)
  · exact List.nodup_append.mpr ⟨hinv.pinned_nodup, List.nodup_singleton _, by
      intro a ha b hb hab
      rw [List.mem_singleton] at hb
      exact hlogged (hb ▸ hab ▸ ha)⟩
  · rw [List.mem_append, List.mem_singleton] at hn
    rcases hn with hn | rfl
    · obtain ⟨k, hk, hkb⟩ := hinv.pinned_cached n hn
      exact ⟨k, (hbuf k _).1.trans hk, (hbuf k _).2.1.trans hkb⟩
    · exact ⟨i, (hbuf i _).1.trans hdev, (hbuf i _).2.1⟩

/-- `bunpin` in `install_trans(0)`: the log's pin of the block goes, once. -/
theorem install (hinv : CacheInv s) {i : Fin NBUF} (h : s.step (.install i) = some s') :
    CacheInv s' := by
  simp only [BioSys.step] at h
  split_ifs at h with hcall
  simp only [Option.some.injEq] at h
  subst h
  obtain ⟨hheld, hdev, hlogged⟩ := hcall
  have hbuf := setRefcnt_buf s.bc i
  have hsame : ∀ j, (s.bc.buf j).dev = ROOTDEV → (s.bc.buf j).blockno = (s.bc.buf i).blockno → j = i :=
    fun j hj hb => hinv.eq_of_log_block hdev hj hb
  refine ⟨?_, fun j k => ?_, fun j => ?_, hinv.pinned_nodup.erase _, fun n hn => ?_⟩
  · obtain ⟨order, hlen, hring⟩ := hinv.ring
    have hl : (bunpin s.bc i).links = s.bc.links := Bcache.links_setBuf _ rfl rfl
    show ∃ order, order.length = NBUF ∧ (bunpin s.bc i).links.Holds order
    rw [hl]
    exact ⟨order, hlen, hring⟩
  · show ((bunpin s.bc i).buf j).dev ≠ 0 → _
    simp only [bunpin, (hbuf j _).1, (hbuf k _).1, (hbuf j _).2.1, (hbuf k _).2.1]
    exact hinv.unique j k
  · show ((bunpin s.bc i).buf j).refcnt = s.held j +
      if ((bunpin s.bc i).buf j).dev = ROOTDEV ∧
        ((bunpin s.bc i).buf j).blockno ∈ s.pinned.erase (s.bc.buf i).blockno then 1 else 0
    simp only [bunpin, (hbuf j _).1, (hbuf j _).2.1, (hbuf j _).2.2]
    have hr := hinv.refcnt j
    by_cases hji : j = i
    · subst hji
      rw [if_pos ⟨hdev, hlogged⟩] at hr
      rw [if_pos rfl, if_neg (fun hp => hinv.pinned_nodup.not_mem_erase hp.2)]
      omega
    · rw [if_neg hji, hr]
      by_cases hp : s.Pinned j
      · have hb : (s.bc.buf j).blockno ≠ (s.bc.buf i).blockno := fun hb => hji (hsame j hp.1 hb)
        rw [if_pos hp, if_pos ⟨hp.1, (List.mem_erase_of_ne hb).mpr hp.2⟩]
      · rw [if_neg hp, if_neg]
        rintro ⟨hj, hb⟩
        exact hp ⟨hj, List.mem_of_mem_erase hb⟩
  · obtain ⟨k, hk, hkb⟩ := hinv.pinned_cached n (List.mem_of_mem_erase hn)
    exact ⟨k, (hbuf k _).1.trans hk, (hbuf k _).2.1.trans hkb⟩

/-- `bread` of any block keeps the invariant, whichever loop of `bget` finds
the buffer. -/
theorem bread (hinv : CacheInv s) {dev blockno : Nat} (h : s.step (.bread dev blockno) = some s') :
    CacheInv s' := by
  obtain ⟨order, hlen, hring⟩ := hinv.ring
  cases hfind : order.find? (fun j => (s.bc.buf j).dev == dev && (s.bc.buf j).blockno == blockno) with
  | some i => exact hinv.bread_cached hlen hring hfind h
  | none =>
    cases hfree : order.reverse.find? (fun j => (s.bc.buf j).refcnt == 0) with
    | some i => exact hinv.bread_recycled hlen hring hfind hfree h
    | none =>
      -- every buffer is referenced: `bget` panics
      have hread : Xv6.Bio.bread s.bc dev blockno = some (.error "bget: no buffers") := by
        simp [Xv6.Bio.bread, bget_full hring hlen hfind hfree]
      simp [BioSys.step, hread] at h

theorem step (hinv : CacheInv s) {e : BioEvent} (h : s.step e = some s') : CacheInv s' := by
  cases e with
  | bread dev blockno => exact hinv.bread h
  | brelse i => exact hinv.brelse h
  | logWrite i => exact hinv.logWrite h
  | install i => exact hinv.install h

end CacheInv

/-! ## Every reachable state -/

theorem cacheInv_init : CacheInv BioSys.init := by
  have hbuf := binit_buf Bcache.zero
  refine ⟨⟨(List.finRange NBUF).reverse, by simp, binit_links Bcache.zero⟩, fun i j hi => ?_,
    fun i => ?_, List.nodup_nil, fun n hn => absurd hn List.not_mem_nil⟩
  · exact absurd (hbuf i).1 hi
  · show ((binit Bcache.zero).buf i).refcnt = 0 + if _ then 1 else 0
    rw [(hbuf i).2.2, if_neg (fun hp => List.not_mem_nil hp.2)]
    rfl

theorem cacheInv_of_reachable {s : BioSys} (h : Reachable (· = BioSys.init) BioSys.Next s) :
    CacheInv s :=
  h.invariant (fun _ hs => hs ▸ cacheInv_init) fun _ _ _ _ hinv hnext => hinv.step hnext

/-- The buffer cache in every state that `binit` and any interleaving of the
calls reach: following `next` from the head visits every buffer once and comes
back, and `prev` undoes `next`; a block of a device is in at most one buffer;
the references of a buffer are its unreleased `bread` results and the log's
pin of its block, so a release or an unpin never finds a zero count; the loops
of `bget` come back to the head, and a buffer with references is recycled for
no other block. -/
theorem buffer_cache_invariant {s : BioSys} (hs : Reachable (· = BioSys.init) BioSys.Next s) :
    (∃ order : List (Fin NBUF), order.Nodup ∧ order.length = NBUF ∧
      (∀ k (hk : k < order.length), s.bc.next^[k + 1] none = some order[k]) ∧
      s.bc.next^[NBUF + 1] none = none) ∧
    (∀ x, s.bc.prev (s.bc.next x) = x) ∧
    (∀ i j, (s.bc.buf i).dev ≠ 0 → (s.bc.buf i).dev = (s.bc.buf j).dev →
      (s.bc.buf i).blockno = (s.bc.buf j).blockno → i = j) ∧
    (∀ i, (s.bc.buf i).refcnt = s.held i +
      if (s.bc.buf i).dev = ROOTDEV ∧ (s.bc.buf i).blockno ∈ s.pinned then 1 else 0) ∧
    (∀ i, 0 < s.held i ∨ ((s.bc.buf i).dev = ROOTDEV ∧ (s.bc.buf i).blockno ∈ s.pinned) →
      (s.bc.buf i).refcnt ≠ 0) ∧
    (∀ dev blockno, bget s.bc dev blockno ≠ none) ∧
    (∀ dev blockno i bc', bget s.bc dev blockno = some (.ok (i, bc')) → (s.bc.buf i).refcnt ≠ 0 →
      (s.bc.buf i).dev = dev ∧ (s.bc.buf i).blockno = blockno) := by
  have hinv := cacheInv_of_reachable hs
  obtain ⟨order, hlen, hring⟩ := hinv.ring
  obtain ⟨hmid, hend⟩ := hring.iterate_next
  rw [hlen] at hend
  refine ⟨⟨order, hring.1, hlen, hmid, hend⟩,
    fun x => hring.prev_next fun b _ => mem_of_length_eq hring.1 hlen b, hinv.unique, hinv.refcnt,
    fun i hi => ?_, fun dev blockno => ?_, fun dev blockno i bc' h hr => ?_⟩
  · -- a holder or the pin is one of the references
    have hr := hinv.refcnt i
    rcases hi with hheld | hpin
    · omega
    · rw [if_pos hpin] at hr
      omega
  · rcases bget_cases hring hlen dev blockno with ⟨i, -, -, h⟩ | ⟨i, -, h⟩ | h <;> simp [h]
  · rcases bget_cases hring hlen dev blockno with ⟨j, hdev, hblock, h'⟩ | ⟨j, h0, h'⟩ | h'
    · rw [h'] at h
      obtain ⟨rfl, -⟩ := Prod.mk.inj (Except.ok.inj (Option.some.inj h))
      exact ⟨hdev, hblock⟩
    · rw [h'] at h
      obtain ⟨rfl, -⟩ := Prod.mk.inj (Except.ok.inj (Option.some.inj h))
      exact absurd h0 hr
    · rw [h'] at h
      cases h

/-- The invariant after two `bread`s of distinct blocks of the root device, which
recycle two buffers from the least recently used end and hold them. -/
theorem buffer_cache_invariant_twoReads :
    ∃ s, Reachable (· = BioSys.init) BioSys.Next s ∧ ((List.finRange NBUF).map s.held).sum = 2 ∧
      (∃ order : List (Fin NBUF), order.Nodup ∧ order.length = NBUF ∧
        (∀ k (hk : k < order.length), s.bc.next^[k + 1] none = some order[k]) ∧
        s.bc.next^[NBUF + 1] none = none) ∧
      (∀ x, s.bc.prev (s.bc.next x) = x) ∧
      (∀ i j, (s.bc.buf i).dev ≠ 0 → (s.bc.buf i).dev = (s.bc.buf j).dev →
        (s.bc.buf i).blockno = (s.bc.buf j).blockno → i = j) ∧
      (∀ i, (s.bc.buf i).refcnt = s.held i +
        if (s.bc.buf i).dev = ROOTDEV ∧ (s.bc.buf i).blockno ∈ s.pinned then 1 else 0) ∧
      (∀ i, 0 < s.held i ∨ ((s.bc.buf i).dev = ROOTDEV ∧ (s.bc.buf i).blockno ∈ s.pinned) →
        (s.bc.buf i).refcnt ≠ 0) ∧
      (∀ dev blockno, bget s.bc dev blockno ≠ none) ∧
      (∀ dev blockno i bc', bget s.bc dev blockno = some (.ok (i, bc')) → (s.bc.buf i).refcnt ≠ 0 →
        (s.bc.buf i).dev = dev ∧ (s.bc.buf i).blockno = blockno) := by
  have hrun : (Transition.exec BioSys.step BioSys.init [.bread ROOTDEV 5, .bread ROOTDEV 7]).map
      (fun s => decide (((List.finRange NBUF).map s.held).sum = 2)) = some true := by
    decide
  obtain ⟨s, hs, hp⟩ := Reachable.exists_of_exec_decide (fun _ _ _ h => h) hrun
  exact ⟨s, hs, hp, buffer_cache_invariant hs⟩

end Xv6.Bio
