import Xv6.Virtio
import Xv6.Lib.Transition
import Xv6.Lib.StateExcept
import Mathlib.Data.List.Perm.Subperm

/-!
# The descriptor protocol of the virtio driver

Each request in flight is a process asleep in `virtio_disk_rw` on a chain of
three descriptors of its own, formatted as the driver wrote it, whose head
moves through three queues: published in the avail ring and not yet read by
the device, read by the device, and reported in the used ring and not yet
processed by `virtio_disk_intr`.  `Inv` says this of every state, and that
`b->disk` is set exactly while the head is in one of the queues.  Every step
keeps it (`Inv.step`); from it, no step panics, `free_chain` frees exactly the
chain of its request, and a failed `alloc3_desc` leaves the disk as it was.

The queues are windows of the rings between two `uint16` counters
(`between`): `2^16` is a multiple of `NUM`, so the counters wrap without
moving a slot, and a queue shorter than `NUM` never has its entries
overwritten by the producer.
-/

namespace Xv6.Virtio

open Transition StateExcept

/-! ## Ring counters -/

theorem num_dvd : NUM ∣ 2 ^ 16 := by decide

/-- The slot of counter `b` is the slot `b - a` positions after counter `a`. -/
theorem slot_eq (a b : UInt16) : slot b = Window.slot NUM (a.toNat + (b - a).toNat) := by
  rw [← Window.slot_mod num_dvd (a.toNat + (b - a).toNat)]
  unfold slot
  congr 1
  have := a.toNat_lt
  have := b.toNat_lt
  rw [UInt16.toNat_sub]
  omega

theorem toNat_succ_sub {a b : UInt16} (h : (b - a).toNat + 1 < 2 ^ 16) :
    (b + 1 - a).toNat = (b - a).toNat + 1 := by
  have := a.toNat_lt
  have := b.toNat_lt
  simp only [UInt16.toNat_sub, UInt16.toNat_add, UInt16.toNat_one] at h ⊢
  omega

theorem toNat_sub_succ {a b : UInt16} (h : a ≠ b) : (b - (a + 1)).toNat + 1 = (b - a).toNat := by
  have hne : a.toNat ≠ b.toNat := fun he => h (UInt16.toNat_inj.mp he)
  have := a.toNat_lt
  have := b.toNat_lt
  simp only [UInt16.toNat_sub, UInt16.toNat_add, UInt16.toNat_one]
  omega

/-- The entries of a ring from counter `a` up to counter `b`. -/
def between (ring : Fin NUM → Nat) (a b : UInt16) : List Nat :=
  Window.read ring a.toNat (b - a).toNat

theorem between_self (ring : Fin NUM → Nat) (a : UInt16) : between ring a a = [] := by
  simp [between]

@[simp] theorem length_between (ring : Fin NUM → Nat) (a b : UInt16) :
    (between ring a b).length = (b - a).toNat := by
  simp [between]

/-- The producer writes at its counter and moves it on. -/
theorem between_push (ring : Fin NUM → Nat) (a b : UInt16) (v : Nat) (h : (b - a).toNat < NUM) :
    between (Function.update ring (slot b) v) a (b + 1) = between ring a b ++ [v] := by
  have h16 : (b - a).toNat + 1 < 2 ^ 16 := by
    unfold NUM at h
    omega
  unfold between
  rw [toNat_succ_sub h16, slot_eq a b, Window.read_push ring h]

/-- The consumer takes the entry at its counter and moves it on. -/
theorem between_pop (ring : Fin NUM → Nat) {a b : UInt16} (h : a ≠ b) :
    between ring a b = ring (slot a) :: between ring (a + 1) b := by
  have hsucc : (a + 1).toNat = (a.toNat + 1) % 2 ^ 16 := by
    rw [UInt16.toNat_add, UInt16.toNat_one]
  unfold between
  rw [← toNat_sub_succ h, Window.read_succ_front, hsucc, Window.read_mod ring num_dvd]
  rfl

namespace Disk

variable {np : Nat} {s s' : Disk np}

/-! ## The queues of requests -/

/-- The heads published in the avail ring and not yet read by the device. -/
def published (s : Disk np) : List Nat := between s.avail.ring s.seen s.avail.idx

/-- The heads the device reported in the used ring and `virtio_disk_intr` has
not yet processed. -/
def reported (s : Disk np) : List Nat := between s.used.ring s.usedIdx s.used.idx

/-- The requests on their way through the device, in order. -/
def inFlight (s : Disk np) : List Nat := s.published ++ s.pending ++ s.reported

/-! ## Descriptors -/

/-- The disk with the descriptors of `c` marked in use. -/
def takeChain (s : Disk np) (c : Chain) : Disk np :=
  { s with free := fun d => if d ∈ c.toList then false else s.free d }

/-- The disk with the descriptors of `c` zeroed and free. -/
def release (s : Disk np) (c : Chain) : Disk np :=
  { s with desc := fun d => if d ∈ c.toList then Desc.zero else s.desc d,
           free := fun d => if d ∈ c.toList then true else s.free d }

theorem allocDesc_cases (s : Disk np) :
    (∃ i, s.free i = true ∧ s.allocDesc = (some i, { s with free := Function.update s.free i false })) ∨
      ((∀ i, s.free i = false) ∧ s.allocDesc = (none, s)) := by
  unfold allocDesc
  split
  · rename_i i hi
    exact .inl ⟨i, by simpa using List.find?_some hi, rfl⟩
  · rename_i hn
    refine .inr ⟨fun i => ?_, rfl⟩
    simpa using List.find?_eq_none.mp hn i (List.mem_finRange i)

/-- `free_desc` of a descriptor in use. -/
theorem freeDesc_ok {i : Fin NUM} (h : s.free i = false) :
    s.freeDesc i = .ok { s with desc := Function.update s.desc i Desc.zero,
                                free := Function.update s.free i true } := by
  unfold freeDesc
  rw [dif_pos i.isLt]
  simp [h]

/-- `free_desc` gives back a descriptor just taken from the free ones, with its
fields still zero. -/
theorem freeDesc_taken {F : Fin NUM → Bool} {i : Fin NUM} (hF : F i = false)
    (hz : s.desc i = Desc.zero) :
    ({ s with free := F } : Disk np).freeDesc i = .ok { s with free := Function.update F i true } := by
  rw [freeDesc_ok hF]
  simp only [← hz, Function.update_eq_self]

/-- `alloc3_desc` takes three distinct free descriptors, or takes none and
leaves the disk as it was; it never panics. -/
theorem alloc3Desc_eq (hz : ∀ d, s.free d = true → s.desc d = Desc.zero) :
    s.alloc3Desc = .ok (none, s) ∨
      ∃ c : Chain, c.toList.Nodup ∧ (∀ d ∈ c.toList, s.free d = true) ∧
        s.alloc3Desc = .ok (some c, s.takeChain c) := by
  unfold alloc3Desc
  rcases allocDesc_cases s with ⟨i0, h0, e0⟩ | ⟨-, e0⟩
  · rw [e0]
    dsimp only
    rcases allocDesc_cases { s with free := Function.update s.free i0 false } with
      ⟨i1, h1, e1⟩ | ⟨-, e1⟩
    · rw [e1]
      dsimp only at h1 ⊢
      have h10 : i1 ≠ i0 := by
        rintro rfl
        simp at h1
      rw [Function.update_of_ne h10] at h1
      rcases allocDesc_cases { s with free := Function.update (Function.update s.free i0 false) i1 false }
        with ⟨i2, h2, e2⟩ | ⟨-, e2⟩
      · -- all three taken
        rw [e2]
        dsimp only at h2 ⊢
        have h21 : i2 ≠ i1 := by
          rintro rfl
          simp at h2
        have h20 : i2 ≠ i0 := by
          rintro rfl
          simp [Function.update_of_ne h10.symm] at h2
        rw [Function.update_of_ne h21, Function.update_of_ne h20] at h2
        refine .inr ⟨⟨i0, i1, i2⟩, ?_, ?_, ?_⟩
        · simp [Chain.toList, h21.symm, h10.symm, h20.symm]
        · simp [Chain.toList, h0, h1, h2]
        · congr
          funext d
          simp only [Chain.toList, List.mem_cons, List.not_mem_nil, or_false, Function.update_apply]
          by_cases hd0 : d = i0 <;> by_cases hd1 : d = i1 <;> by_cases hd2 : d = i2 <;>
            simp [hd0, hd1, hd2]
      · -- the third failed: give back two
        rw [e2]
        dsimp only
        rw [freeDesc_taken (by simp [Function.update_of_ne h10.symm]) (hz i0 h0), ok_bind,
          freeDesc_taken (by simp [Function.update_of_ne h10]) (hz i1 h1), ok_bind, pure_eq_ok]
        refine .inl ?_
        congr
        funext d
        simp only [Function.update_apply]
        by_cases hd0 : d = i0 <;> by_cases hd1 : d = i1 <;> simp [hd0, hd1, h0, h1]
    · -- the second failed: give back one
      rw [e1]
      dsimp only
      rw [freeDesc_taken (by simp) (hz i0 h0), ok_bind, pure_eq_ok]
      refine .inl ?_
      congr
      funext d
      simp only [Function.update_apply]
      by_cases hd0 : d = i0 <;> simp [hd0, h0]
  · rw [e0]
    exact .inl rfl

/-- The chain of process `p` as `virtio_disk_rw` formatted it: header, data,
status. -/
structure Formatted (s : Disk np) (p : Fin np) (write : Bool) (c : Chain) : Prop where
  head : s.desc c.head = ⟨.op c.head, blkReqSize, VRING_DESC_F_NEXT, c.data⟩
  data : s.desc c.data = ⟨.data p, BSIZE, dataFlags write, c.status⟩
  status : s.desc c.status = ⟨.status c.head, 1, VRING_DESC_F_WRITE, 0⟩

theorem descAt_fin (s : Disk np) (i : Fin NUM) : s.descAt i = s.desc i := by
  simp [descAt]

/-- A round of `free_chain` at a descriptor in use. -/
theorem freeChain_round {fuel : Nat} {i : Fin NUM} (hu : s.free i = false) :
    freeChain (fuel + 1) s i =
      if (s.desc i).flags &&& VRING_DESC_F_NEXT ≠ 0 then
        freeChain fuel { s with desc := Function.update s.desc i Desc.zero,
                                free := Function.update s.free i true } (s.desc i).next
      else .ok { s with desc := Function.update s.desc i Desc.zero,
                        free := Function.update s.free i true } := by
  rw [freeChain, descAt_fin, freeDesc_ok hu, ok_bind]

/-- `free_chain` of a formatted chain frees its three descriptors and no other,
with any fuel of three rounds or more. -/
theorem freeChain_formatted {p : Fin np} {w : Bool} {c : Chain} {fuel : Nat} (hfuel : 3 ≤ fuel)
    (hf : Formatted s p w c) (hn : c.toList.Nodup) (hu : ∀ d ∈ c.toList, s.free d = false) :
    freeChain fuel s c.head = .ok (s.release c) := by
  obtain ⟨⟨h01, h02⟩, h12⟩ : (c.head ≠ c.data ∧ c.head ≠ c.status) ∧ c.data ≠ c.status := by
    simpa [Chain.toList] using hn
  obtain ⟨k, rfl⟩ : ∃ k, fuel = k + 1 + 1 + 1 := ⟨fuel - 3, by omega⟩
  have hu0 := hu c.head (by simp [Chain.toList])
  have hu1 := hu c.data (by simp [Chain.toList])
  have hu2 := hu c.status (by simp [Chain.toList])
  have hnext : VRING_DESC_F_NEXT &&& VRING_DESC_F_NEXT ≠ 0 := by decide
  -- the header descriptor: the chain goes on to the data
  rw [freeChain_round hu0, hf.head]
  dsimp only
  rw [if_pos hnext]
  -- the data descriptor: the chain goes on to the status
  rw [freeChain_round (by simpa [Function.update_of_ne h01.symm] using hu1)]
  simp only [Function.update_of_ne h01.symm, hf.data]
  rw [if_pos (by cases w <;> decide)]
  -- the status descriptor ends the chain
  rw [freeChain_round (by simpa [Function.update_of_ne h02.symm, Function.update_of_ne h12.symm]
    using hu2)]
  simp only [Function.update_of_ne h02.symm, Function.update_of_ne h12.symm, hf.status]
  rw [if_neg (by decide)]
  unfold release
  congr 2
  · funext d
    simp only [Chain.toList, List.mem_cons, List.not_mem_nil, or_false, Function.update_apply]
    by_cases hd0 : d = c.head <;> by_cases hd1 : d = c.data <;> by_cases hd2 : d = c.status <;>
      simp [hd0, hd1, hd2]
  · funext d
    simp only [Chain.toList, List.mem_cons, List.not_mem_nil, or_false, Function.update_apply]
    by_cases hd0 : d = c.head <;> by_cases hd1 : d = c.data <;> by_cases hd2 : d = c.status <;>
      simp [hd0, hd1, hd2]

theorem Formatted.congr {s' : Disk np} {p : Fin np} {w : Bool} {c : Chain} (hf : Formatted s p w c)
    (h : ∀ d ∈ c.toList, s'.desc d = s.desc d) : Formatted s' p w c where
  head := by rw [h c.head (by simp [Chain.toList]), hf.head]
  data := by rw [h c.data (by simp [Chain.toList]), hf.data]
  status := by rw [h c.status (by simp [Chain.toList]), hf.status]

/-! ## The invariant -/

/-- What holds in every state the driver and the device reach. -/
structure Inv (s : Disk np) : Prop where
  /-- A free descriptor is zeroed. -/
  zero_of_free : ∀ d, s.free d = true → s.desc d = Desc.zero
  /-- The descriptors in use are those of the chains of waiting processes. -/
  inUse_iff : ∀ d, s.free d = false ↔ ∃ p w c, s.phase p = .wait w c ∧ d ∈ c.toList
  nodup : ∀ p w c, s.phase p = .wait w c → c.toList.Nodup
  disjoint : ∀ p q w w' c c', s.phase p = .wait w c → s.phase q = .wait w' c' → p ≠ q →
    ∀ d ∈ c.toList, d ∉ c'.toList
  formatted : ∀ p w c, s.phase p = .wait w c → Formatted s p w c
  /-- `info[head].b` is the buffer of the request. -/
  info_b : ∀ p w c, s.phase p = .wait w c → (s.info c.head).b = some p
  flight_nodup : s.inFlight.Nodup
  /-- Each head on its way through the device is the head of a waiting chain. -/
  flight_head : ∀ h ∈ s.inFlight, ∃ p w c, s.phase p = .wait w c ∧ c.head.val = h
  /-- `b->disk` is set exactly while the head is on its way. -/
  bdisk_iff : ∀ p w c, s.phase p = .wait w c → (s.bdisk p = true ↔ c.head.val ∈ s.inFlight)
  /-- The device wrote status `0` for each head it reported. -/
  status_zero : ∀ h ∈ s.reported, ∃ hh : h < NUM, (s.info ⟨h, hh⟩).status = 0

theorem inv_init : Inv (init np) where
  zero_of_free _ _ := rfl
  inUse_iff d := by simp [init]
  nodup _ _ _ h := by simp [init] at h
  disjoint _ _ _ _ _ _ h := by simp [init] at h
  formatted _ _ _ h := by simp [init] at h
  info_b _ _ _ h := by simp [init] at h
  flight_nodup := by simp [init, inFlight, published, reported, between_self]
  flight_head _ h := by simp [init, inFlight, published, reported, between_self] at h
  bdisk_iff _ _ _ h := by simp [init] at h
  status_zero _ h := by simp [init, reported, between_self] at h

section Inv

variable (hi : Inv s)
include hi

theorem Inv.inUse {p : Fin np} {w : Bool} {c : Chain} (hp : s.phase p = .wait w c) {d : Fin NUM}
    (hd : d ∈ c.toList) : s.free d = false :=
  (hi.inUse_iff d).mpr ⟨p, w, c, hp, hd⟩

/-- Two waiting processes with the same head are one. -/
theorem Inv.eq_of_head {p q : Fin np} {w w' : Bool} {c c' : Chain} (hp : s.phase p = .wait w c)
    (hq : s.phase q = .wait w' c') (h : c.head = c'.head) : p = q := by
  by_contra hpq
  exact hi.disjoint p q w w' c c' hp hq hpq c.head (by simp [Chain.toList])
    (by simp [Chain.toList, h])

/-- No head on its way is free. -/
theorem Inv.not_mem_of_free {d : Fin NUM} (hd : s.free d = true) : d.val ∉ s.inFlight := by
  intro hmem
  obtain ⟨p, w, c, hp, hcd⟩ := hi.flight_head _ hmem
  obtain rfl : c.head = d := Fin.ext hcd
  have hused : s.free c.head = false := hi.inUse hp (by simp [Chain.toList])
  rw [hd] at hused
  cases hused

/-- Every head on its way is a descriptor. -/
theorem Inv.lt_of_mem {h : Nat} (hh : h ∈ s.inFlight) : h < NUM := by
  obtain ⟨p, w, c, -, rfl⟩ := hi.flight_head h hh
  exact c.head.isLt

/-- A sublist of the heads on their way that misses a descriptor is shorter
than the ring. -/
theorem Inv.length_lt {l : List Nat} (hl : l.Nodup) (hsub : ∀ h ∈ l, h ∈ s.inFlight) {d : Nat}
    (hd : d < NUM) (hout : d ∉ l) : l.length < NUM := by
  have hsub' : l ⊆ (List.range NUM).erase d := by
    intro h hmem
    have hlt := hi.lt_of_mem (hsub h hmem)
    exact (List.mem_erase_of_ne (by rintro rfl; exact hout hmem)).mpr (List.mem_range.mpr hlt)
  have hle := (List.Nodup.subperm hl hsub').length_le
  rw [List.length_erase_of_mem (List.mem_range.mpr hd), List.length_range] at hle
  have hpos : 0 < NUM := by decide
  omega

end Inv

/-! ## `virtio_disk_rw` up to its sleep on `b` -/

@[simp] theorem setPhase_phase (s : Disk np) (p : Fin np) (ph : Phase) :
    (s.setPhase p ph).phase = Function.update s.phase p ph := rfl

@[simp] theorem setPhase_free (s : Disk np) (p : Fin np) (ph : Phase) :
    (s.setPhase p ph).free = s.free := rfl

@[simp] theorem setPhase_desc (s : Disk np) (p : Fin np) (ph : Phase) :
    (s.setPhase p ph).desc = s.desc := rfl

@[simp] theorem setPhase_info (s : Disk np) (p : Fin np) (ph : Phase) :
    (s.setPhase p ph).info = s.info := rfl

@[simp] theorem setPhase_bdisk (s : Disk np) (p : Fin np) (ph : Phase) :
    (s.setPhase p ph).bdisk = s.bdisk := rfl

@[simp] theorem setPhase_inFlight (s : Disk np) (p : Fin np) (ph : Phase) :
    (s.setPhase p ph).inFlight = s.inFlight := rfl

@[simp] theorem setPhase_reported (s : Disk np) (p : Fin np) (ph : Phase) :
    (s.setPhase p ph).reported = s.reported := rfl

/-- An attempt at `alloc3_desc` publishes a request on a chain of three free
descriptors, or puts the process to sleep with the disk unchanged. -/
theorem tryAlloc_cases (hi : Inv s) (p : Fin np) (w : Bool) :
    s.tryAlloc p w = .ok (s.setPhase p (.alloc w)) ∨
      ∃ c : Chain, c.toList.Nodup ∧ (∀ d ∈ c.toList, s.free d = true) ∧
        s.tryAlloc p w = .ok ((s.takeChain c).submit p w c) := by
  unfold tryAlloc
  rcases alloc3Desc_eq hi.zero_of_free with h | ⟨c, hn, hf, h⟩
  · left
    rw [h]
    rfl
  · right
    refine ⟨c, hn, hf, ?_⟩
    rw [h]
    rfl

/-- A process that is not waiting changes to another phase that is not
waiting. -/
theorem Inv.setPhase (hi : Inv s) {p : Fin np} {ph : Phase} (hp : ∀ w c, s.phase p ≠ .wait w c)
    (hph : ∀ w c, ph ≠ .wait w c) : Inv (s.setPhase p ph) := by
  have hw : ∀ q w c, (s.setPhase p ph).phase q = .wait w c ↔ s.phase q = .wait w c := by
    intro q w c
    by_cases hq : q = p
    · subst hq
      simp only [setPhase_phase, Function.update_self]
      exact ⟨fun h => absurd h (hph w c), fun h => absurd h (hp w c)⟩
    · simp only [setPhase_phase, Function.update_of_ne hq]
  exact {
    zero_of_free := hi.zero_of_free
    inUse_iff := fun d => by simpa only [hw, setPhase_free] using hi.inUse_iff d
    nodup := fun q w c hq => hi.nodup q w c ((hw q w c).mp hq)
    disjoint := fun q q' w w' c c' hq hq' => hi.disjoint q q' w w' c c' ((hw q w c).mp hq)
      ((hw q' w' c').mp hq')
    formatted := fun q w c hq => (hi.formatted q w c ((hw q w c).mp hq)).congr fun _ _ => rfl
    info_b := fun q w c hq => hi.info_b q w c ((hw q w c).mp hq)
    flight_nodup := hi.flight_nodup
    flight_head := fun h hh => by simpa only [hw] using hi.flight_head h hh
    bdisk_iff := fun q w c hq => hi.bdisk_iff q w c ((hw q w c).mp hq)
    status_zero := hi.status_zero }

section Submit

variable {p : Fin np} {w : Bool} {c : Chain}

@[simp] theorem takeChain_free (s : Disk np) (c : Chain) (d : Fin NUM) :
    (s.takeChain c).free d = if d ∈ c.toList then false else s.free d := rfl

@[simp] theorem takeChain_phase (s : Disk np) (c : Chain) : (s.takeChain c).phase = s.phase := rfl

@[simp] theorem takeChain_info (s : Disk np) (c : Chain) : (s.takeChain c).info = s.info := rfl

@[simp] theorem takeChain_bdisk (s : Disk np) (c : Chain) : (s.takeChain c).bdisk = s.bdisk := rfl

@[simp] theorem takeChain_desc (s : Disk np) (c : Chain) : (s.takeChain c).desc = s.desc := rfl

@[simp] theorem submit_free (s : Disk np) : (s.submit p w c).free = s.free := rfl

@[simp] theorem submit_phase (s : Disk np) :
    (s.submit p w c).phase = Function.update s.phase p (.wait w c) := rfl

@[simp] theorem submit_bdisk (s : Disk np) :
    (s.submit p w c).bdisk = Function.update s.bdisk p true := rfl

@[simp] theorem submit_info (s : Disk np) :
    (s.submit p w c).info = Function.update s.info c.head ⟨some p, 0xff⟩ := rfl

theorem submit_desc_of_not_mem (s : Disk np) {d : Fin NUM} (hd : d ∉ c.toList) :
    (s.submit p w c).desc d = s.desc d := by
  simp only [Chain.toList, List.mem_cons, List.not_mem_nil, or_false, not_or] at hd
  simp [submit, Function.update_of_ne hd.1, Function.update_of_ne hd.2.1,
    Function.update_of_ne hd.2.2]

theorem formatted_submit (s : Disk np) (hn : c.toList.Nodup) : Formatted (s.submit p w c) p w c := by
  obtain ⟨⟨h01, h02⟩, h12⟩ : (c.head ≠ c.data ∧ c.head ≠ c.status) ∧ c.data ≠ c.status := by
    simpa [Chain.toList] using hn
  refine ⟨?_, ?_, ?_⟩
  · simp [submit, Function.update_of_ne h01, Function.update_of_ne h02]
  · simp [submit, Function.update_of_ne h12]
  · simp [submit]

/-- The head goes to the end of the avail ring. -/
theorem published_submit (s : Disk np) (h : s.published.length < NUM) :
    (s.submit p w c).published = s.published ++ [c.head.val] := by
  unfold published submit
  exact between_push _ _ _ _ (by simpa [published] using h)

/-- Publishing a request whose head is free keeps the invariant. -/
theorem Inv.submit (hi : Inv s) (hp : ∀ w c, s.phase p ≠ .wait w c) (hn : c.toList.Nodup)
    (hfree : ∀ d ∈ c.toList, s.free d = true) : Inv ((s.takeChain c).submit p w c) := by
  have hhead : c.head.val ∉ s.inFlight := hi.not_mem_of_free (hfree _ (by simp [Chain.toList]))
  have hpub : s.published.length < NUM :=
    hi.length_lt (List.Nodup.sublist (by simp [inFlight]) hi.flight_nodup)
      (fun h hh => by simp [inFlight, hh]) c.head.isLt (fun hh => hhead (by simp [inFlight, hh]))
  have hfl : ((s.takeChain c).submit p w c).inFlight = s.published ++ [c.head.val] ++ s.pending ++
      s.reported := by
    rw [inFlight, published_submit (s.takeChain c) hpub]
    rfl
  have hperm : ((s.takeChain c).submit p w c).inFlight.Perm (c.head.val :: s.inFlight) := by
    rw [hfl, inFlight, List.append_assoc, List.append_assoc, List.append_assoc, List.singleton_append]
    exact List.perm_middle.trans (by simp)
  -- the waiting processes of `s` keep their chains, which are in use and so
  -- disjoint from the new one
  have hold : ∀ q w' c', s.phase q = .wait w' c' → q ≠ p ∧ ∀ d ∈ c'.toList, d ∉ c.toList := by
    intro q w' c' hq
    refine ⟨fun hqp => hp w' c' (hqp ▸ hq), fun d hd hdc => ?_⟩
    have hused := hi.inUse hq hd
    rw [hfree d hdc] at hused
    cases hused
  have hw : ∀ q w' c', ((s.takeChain c).submit p w c).phase q = .wait w' c' ↔
      (q = p ∧ w' = w ∧ c' = c) ∨ s.phase q = .wait w' c' := by
    intro q w' c'
    by_cases hq : q = p
    · subst hq
      simp only [submit_phase, Function.update_self, Phase.wait.injEq, true_and]
      constructor
      · rintro ⟨rfl, rfl⟩
        exact .inl ⟨rfl, rfl⟩
      · rintro (⟨rfl, rfl⟩ | h)
        · exact ⟨rfl, rfl⟩
        · exact absurd h (hp w' c')
    · simp [hq]
  refine ⟨?zero_of_free, ?inUse_iff, ?nodup, ?disjoint, ?formatted, ?info_b, ?flight_nodup,
    ?flight_head, ?bdisk_iff, ?status_zero⟩
  case zero_of_free =>
    intro d hd
    simp only [submit_free, takeChain_free] at hd
    split_ifs at hd with hdc
    rw [submit_desc_of_not_mem _ hdc]
    exact hi.zero_of_free d hd
  case inUse_iff =>
    intro d
    simp only [submit_free, takeChain_free, hw]
    split_ifs with hdc
    · simp only [true_iff]
      exact ⟨p, w, c, .inl ⟨rfl, rfl, rfl⟩, hdc⟩
    · rw [hi.inUse_iff d]
      constructor
      · rintro ⟨q, w', c', hq, hd⟩
        exact ⟨q, w', c', .inr hq, hd⟩
      · rintro ⟨q, w', c', ⟨rfl, rfl, rfl⟩ | hq, hd⟩
        · exact absurd hd hdc
        · exact ⟨q, w', c', hq, hd⟩
  case nodup =>
    intro q w' c' hq
    rcases (hw q w' c').mp hq with ⟨rfl, rfl, rfl⟩ | hq
    · exact hn
    · exact hi.nodup q w' c' hq
  case disjoint =>
    intro q q' w₁ w₂ c₁ c₂ hq hq' hne d hd
    rcases (hw q w₁ c₁).mp hq with ⟨rfl, rfl, rfl⟩ | hq₁ <;>
      rcases (hw q' w₂ c₂).mp hq' with ⟨rfl, rfl, rfl⟩ | hq₂
    · exact absurd rfl hne
    · exact fun hd' => (hold q' w₂ c₂ hq₂).2 d hd' hd
    · exact (hold q w₁ c₁ hq₁).2 d hd
    · exact hi.disjoint q q' w₁ w₂ c₁ c₂ hq₁ hq₂ hne d hd
  case formatted =>
    intro q w' c' hq
    rcases (hw q w' c').mp hq with ⟨rfl, rfl, rfl⟩ | hq
    · exact formatted_submit _ hn
    · exact (hi.formatted q w' c' hq).congr fun d hd =>
        submit_desc_of_not_mem _ ((hold q w' c' hq).2 d hd)
  case info_b =>
    intro q w' c' hq
    rcases (hw q w' c').mp hq with ⟨rfl, rfl, rfl⟩ | hq
    · simp
    · have hne : c'.head ≠ c.head := (hold q w' c' hq).2 c'.head (by simp [Chain.toList])
        |> fun h he => h (by simp [Chain.toList, he])
      simp only [submit_info, Function.update_of_ne hne]
      exact hi.info_b q w' c' hq
  case flight_nodup =>
    exact hperm.nodup_iff.mpr (List.nodup_cons.mpr ⟨hhead, hi.flight_nodup⟩)
  case flight_head =>
    intro h hh
    rcases List.mem_cons.mp (hperm.mem_iff.mp hh) with rfl | hh
    · exact ⟨p, w, c, by simp, rfl⟩
    · obtain ⟨q, w', c', hq, rfl⟩ := hi.flight_head h hh
      exact ⟨q, w', c', (hw q w' c').mpr (.inr hq), rfl⟩
  case bdisk_iff =>
    intro q w' c' hq
    rw [hperm.mem_iff, List.mem_cons]
    rcases (hw q w' c').mp hq with ⟨rfl, rfl, rfl⟩ | hq
    · simp
    · have hqp := (hold q w' c' hq).1
      have hne : c'.head.val ≠ c.head.val := fun he =>
        (hold q w' c' hq).2 c'.head (by simp [Chain.toList]) (by simp [Chain.toList, Fin.ext he])
      simp only [submit_bdisk, Function.update_of_ne hqp, hne, false_or]
      exact hi.bdisk_iff q w' c' hq
  case status_zero =>
    intro h hh
    change h ∈ s.reported at hh
    obtain ⟨hlt, hz⟩ := hi.status_zero h hh
    refine ⟨hlt, ?_⟩
    have hne : (⟨h, hlt⟩ : Fin NUM) ≠ c.head := fun he => by
      apply hhead
      rw [← congrArg Fin.val he]
      simp [inFlight, hh]
    simpa [Function.update_of_ne hne] using hz

end Submit

/-! ## The end of `virtio_disk_rw` -/

section Finish

variable {p : Fin np} {w : Bool} {c : Chain}

@[simp] theorem release_free (s : Disk np) (c : Chain) (d : Fin NUM) :
    (s.release c).free d = if d ∈ c.toList then true else s.free d := rfl

@[simp] theorem release_desc (s : Disk np) (c : Chain) (d : Fin NUM) :
    (s.release c).desc d = if d ∈ c.toList then Desc.zero else s.desc d := rfl

@[simp] theorem release_phase (s : Disk np) (c : Chain) : (s.release c).phase = s.phase := rfl

@[simp] theorem release_info (s : Disk np) (c : Chain) : (s.release c).info = s.info := rfl

@[simp] theorem release_bdisk (s : Disk np) (c : Chain) : (s.release c).bdisk = s.bdisk := rfl

/-- The disk after `disk.info[idx[0]].b = 0`. -/
def clearB (s : Disk np) (i : Fin NUM) : Disk np :=
  { s with info := Function.update s.info i { s.info i with b := none } }

@[simp] theorem clearB_status (s : Disk np) (i j : Fin NUM) :
    ((s.clearB i).info j).status = (s.info j).status := by
  by_cases hj : j = i
  · subst hj
    simp [clearB]
  · simp [clearB, Function.update_of_ne hj]

theorem clearB_b_of_ne (s : Disk np) {i j : Fin NUM} (hj : j ≠ i) :
    ((s.clearB i).info j).b = (s.info j).b := by
  simp [clearB, Function.update_of_ne hj]

/-- The end of `virtio_disk_rw` frees the request's chain and nothing else,
without a panic. -/
theorem finish_eq (hi : Inv s) (hp : s.phase p = .wait w c) :
    s.finish p c = .ok (((s.clearB c.head).release c).setPhase p .idle) := by
  have hf : Formatted (s.clearB c.head) p w c := (hi.formatted p w c hp).congr fun _ _ => rfl
  have hu : ∀ d ∈ c.toList, (s.clearB c.head).free d = false := fun d hd => hi.inUse hp hd
  change (do
      let s ← freeChain (NUM + 1) (s.clearB c.head) c.head
      pure (s.setPhase p .idle)) = _
  rw [freeChain_formatted (by decide) hf (hi.nodup p w c hp) hu, ok_bind, pure_eq_ok]

/-- The end of a request, as a step. -/
theorem next_finish (hi : Inv s) (hp : s.phase p = .wait w c) (h : s.Next (.finish p) s') :
    s.bdisk p = false ∧ s' = ((s.clearB c.head).release c).setPhase p .idle := by
  simp only [Next, Disk.step, hp] at h
  split_ifs at h with hb
  rw [finish_eq hi hp, Option.some.injEq, Except.ok.injEq] at h
  exact ⟨hb, h.symm⟩

/-- A request whose `b->disk` is clear ends and keeps the invariant. -/
theorem Inv.finish (hi : Inv s) (hp : s.phase p = .wait w c) (hb : s.bdisk p = false) :
    Inv (((s.clearB c.head).release c).setPhase p .idle) := by
  have hhead : c.head.val ∉ s.inFlight := by
    rw [← hi.bdisk_iff p w c hp, hb]
    simp
  have hw : ∀ q w' c', (((s.clearB c.head).release c).setPhase p .idle).phase q = .wait w' c' ↔
      q ≠ p ∧ s.phase q = .wait w' c' := by
    intro q w' c'
    by_cases hq : q = p
    · subst hq
      simp
    · simp [hq, clearB]
  -- the other waiting chains are disjoint from the one freed
  have hold : ∀ q w' c', s.phase q = .wait w' c' → q ≠ p → ∀ d ∈ c'.toList, d ∉ c.toList :=
    fun q w' c' hq hqp d hd hdc => hi.disjoint p q w w' c c' hp hq (Ne.symm hqp) d hdc hd
  refine ⟨?zero_of_free, ?inUse_iff, ?nodup, ?disjoint, ?formatted, ?info_b, ?flight_nodup,
    ?flight_head, ?bdisk_iff, ?status_zero⟩
  case zero_of_free =>
    intro d hd
    simp only [setPhase_free, release_free, setPhase_desc, release_desc] at hd ⊢
    split_ifs at hd ⊢ with hdc
    · rfl
    · exact hi.zero_of_free d hd
  case inUse_iff =>
    intro d
    rw [setPhase_free, release_free]
    by_cases hdc : d ∈ c.toList
    · rw [if_pos hdc]
      constructor
      · intro h
        cases h
      · rintro ⟨q, w', c', hq, hd⟩
        obtain ⟨hqp, hq⟩ := (hw q w' c').mp hq
        exact absurd hdc (hold q w' c' hq hqp d hd)
    · rw [if_neg hdc]
      change s.free d = false ↔ _
      rw [hi.inUse_iff d]
      constructor
      · rintro ⟨q, w', c', hq, hd⟩
        refine ⟨q, w', c', (hw q w' c').mpr ⟨fun hqp => ?_, hq⟩, hd⟩
        subst hqp
        rw [hp, Phase.wait.injEq] at hq
        exact hdc (hq.2 ▸ hd)
      · rintro ⟨q, w', c', hq, hd⟩
        exact ⟨q, w', c', ((hw q w' c').mp hq).2, hd⟩
  case nodup =>
    intro q w' c' hq
    exact hi.nodup q w' c' ((hw q w' c').mp hq).2
  case disjoint =>
    intro q q' w₁ w₂ c₁ c₂ hq hq'
    exact hi.disjoint q q' w₁ w₂ c₁ c₂ ((hw q w₁ c₁).mp hq).2 ((hw q' w₂ c₂).mp hq').2
  case formatted =>
    intro q w' c' hq
    obtain ⟨hqp, hq⟩ := (hw q w' c').mp hq
    refine (hi.formatted q w' c' hq).congr fun d hd => ?_
    simp [hold q w' c' hq hqp d hd, clearB]
  case info_b =>
    intro q w' c' hq
    obtain ⟨hqp, hq⟩ := (hw q w' c').mp hq
    have hne : c'.head ≠ c.head := fun he =>
      hold q w' c' hq hqp c'.head (by simp [Chain.toList]) (by simp [Chain.toList, he])
    simp only [setPhase_info, release_info]
    rw [clearB_b_of_ne s hne]
    exact hi.info_b q w' c' hq
  case flight_nodup =>
    exact hi.flight_nodup
  case flight_head =>
    intro h hh
    obtain ⟨q, w', c', hq, rfl⟩ := hi.flight_head h hh
    refine ⟨q, w', c', (hw q w' c').mpr ⟨fun hqp => ?_, hq⟩, rfl⟩
    subst hqp
    rw [hp, Phase.wait.injEq] at hq
    rw [← hq.2] at hh
    exact hhead hh
  case bdisk_iff =>
    intro q w' c' hq
    exact hi.bdisk_iff q w' c' ((hw q w' c').mp hq).2
  case status_zero =>
    intro h hh
    obtain ⟨hlt, hz⟩ := hi.status_zero h hh
    exact ⟨hlt, by simpa using hz⟩

end Finish

/-! ## The interrupt handler and the device -/

/-- The disk after a round of `virtio_disk_intr` that cleared `b->disk` of `q`. -/
def afterIntr (s : Disk np) (q : Fin np) : Disk np :=
  { s with bdisk := Function.update s.bdisk q false, usedIdx := s.usedIdx + 1 }

/-- The disk after the device read the next published head. -/
def afterConsume (s : Disk np) : Disk np :=
  { s with seen := s.seen + 1, pending := s.pending ++ [s.avail.ring (slot s.seen)] }

/-- The disk after the device completed the `k`-th head it read, the head of
chain `c`. -/
def afterComplete (s : Disk np) (k : Nat) (c : Chain) : Disk np :=
  { s with
    info := Function.update s.info c.head { s.info c.head with status := 0 }
    used := { idx := s.used.idx + 1, ring := Function.update s.used.ring (slot s.used.idx) c.head.val }
    pending := s.pending.eraseIdx k }

/-- A state with the same descriptors, chains, buffers and `b->disk`, whose
requests on their way are the same up to order, keeps the invariant if the
heads it reports have status `0`. -/
theorem Inv.of_perm (hi : Inv s) (hdesc : s'.desc = s.desc) (hfree : s'.free = s.free)
    (hphase : s'.phase = s.phase) (hb : ∀ i, (s'.info i).b = (s.info i).b)
    (hbdisk : s'.bdisk = s.bdisk) (hperm : s'.inFlight.Perm s.inFlight)
    (hstatus : ∀ h ∈ s'.reported, ∃ hh : h < NUM, (s'.info ⟨h, hh⟩).status = 0) : Inv s' where
  zero_of_free d hd := by
    rw [hfree] at hd
    rw [hdesc]
    exact hi.zero_of_free d hd
  inUse_iff d := by
    rw [hfree, hphase]
    exact hi.inUse_iff d
  nodup p w c hp := hi.nodup p w c (hphase ▸ hp)
  disjoint p q w w' c c' hp hq := hi.disjoint p q w w' c c' (hphase ▸ hp) (hphase ▸ hq)
  formatted p w c hp := (hi.formatted p w c (hphase ▸ hp)).congr fun d _ => by rw [hdesc]
  info_b p w c hp := by
    rw [hb]
    exact hi.info_b p w c (hphase ▸ hp)
  flight_nodup := hperm.nodup_iff.mpr hi.flight_nodup
  flight_head h hh := by
    rw [hphase]
    exact hi.flight_head h (hperm.mem_iff.mp hh)
  bdisk_iff p w c hp := by
    rw [hbdisk, hperm.mem_iff]
    exact hi.bdisk_iff p w c (hphase ▸ hp)
  status_zero := hstatus

/-- A round of `virtio_disk_intr` takes the first head of the used ring, which
is the head of a waiting request with `b->disk` set, and clears it. -/
theorem intr_eq (hi : Inv s) (hne : s.usedIdx ≠ s.used.idx) :
    ∃ q w c, s.phase q = .wait w c ∧ s.bdisk q = true ∧
      s.reported = c.head.val :: between s.used.ring (s.usedIdx + 1) s.used.idx ∧
      s.intr = some (.ok (s.afterIntr q)) := by
  have hrep : s.reported = s.used.ring (slot s.usedIdx) ::
      between s.used.ring (s.usedIdx + 1) s.used.idx := between_pop _ hne
  have hmem : s.used.ring (slot s.usedIdx) ∈ s.reported := by
    rw [hrep]
    exact List.mem_cons_self
  obtain ⟨q, w, c, hq, hc⟩ := hi.flight_head (s.used.ring (slot s.usedIdx)) (by simp [inFlight, hmem])
  obtain ⟨hlt, hz⟩ := hi.status_zero _ hmem
  have hfin : (⟨s.used.ring (slot s.usedIdx), hlt⟩ : Fin NUM) = c.head := Fin.ext hc.symm
  rw [hfin] at hz
  refine ⟨q, w, c, hq, (hi.bdisk_iff q w c hq).mpr (by simp [inFlight, hc, hmem]),
    by rw [hrep, hc], ?_⟩
  unfold intr
  rw [if_pos hne, dif_pos hlt]
  simp only [hfin, hz, hi.info_b q w c hq, ne_eq, not_true_eq_false, if_false]
  rfl

theorem Inv.intr (hi : Inv s) {q : Fin np} {w : Bool} {c : Chain} (hq : s.phase q = .wait w c)
    (hrep : s.reported = c.head.val :: between s.used.ring (s.usedIdx + 1) s.used.idx) :
    Inv (s.afterIntr q) := by
  set s' := s.afterIntr q
  have hperm : s.inFlight.Perm (c.head.val :: s'.inFlight) := by
    simp only [inFlight, hrep]
    exact List.perm_middle
  have hnd : (c.head.val :: s'.inFlight).Nodup := hperm.nodup_iff.mp hi.flight_nodup
  have hsub : ∀ h ∈ s'.inFlight, h ∈ s.inFlight := fun h hh =>
    hperm.mem_iff.mpr (List.mem_cons_of_mem _ hh)
  refine ⟨hi.zero_of_free, hi.inUse_iff, hi.nodup, hi.disjoint, fun p w c hp =>
    (hi.formatted p w c hp).congr fun _ _ => rfl, hi.info_b, (List.nodup_cons.mp hnd).2,
    fun h hh => hi.flight_head h (hsub h hh), ?bdisk_iff, ?status_zero⟩
  case bdisk_iff =>
    intro p w' c' hp
    change s.phase p = .wait w' c' at hp
    by_cases hpq : p = q
    · subst hpq
      rw [hp, Phase.wait.injEq] at hq
      obtain ⟨-, rfl⟩ := hq
      have hb : s'.bdisk p = false := Function.update_self _ _ _
      rw [hb]
      simp only [Bool.false_eq_true, false_iff]
      exact (List.nodup_cons.mp hnd).1
    · have hne : c'.head.val ≠ c.head.val := fun he => hpq (hi.eq_of_head hp hq (Fin.ext he))
      have hb : s'.bdisk p = s.bdisk p := Function.update_of_ne hpq _ _
      rw [hb, hi.bdisk_iff p w' c' hp, hperm.mem_iff, List.mem_cons]
      simp [hne]
  case status_zero =>
    intro h hh
    exact hi.status_zero h (by rw [hrep]; exact List.mem_cons_of_mem _ hh)

theorem consume_eq (hne : s.seen ≠ s.avail.idx) : s.consume = some s.afterConsume := by
  unfold consume
  rw [if_pos hne]
  rfl

/-- The device reads the first published head: it moves from one queue to the
next. -/
theorem Inv.consume (hi : Inv s) (hne : s.seen ≠ s.avail.idx) : Inv s.afterConsume := by
  have hpub : s.published = s.avail.ring (slot s.seen) ::
      between s.avail.ring (s.seen + 1) s.avail.idx := between_pop _ hne
  refine hi.of_perm rfl rfl rfl (fun _ => rfl) rfl ?_ hi.status_zero
  change between s.avail.ring (s.seen + 1) s.avail.idx ++ (s.pending ++ [s.avail.ring (slot s.seen)]) ++
    s.reported |>.Perm (s.published ++ s.pending ++ s.reported)
  rw [hpub]
  calc _ = (between s.avail.ring (s.seen + 1) s.avail.idx ++ s.pending) ++
          s.avail.ring (slot s.seen) :: s.reported := by simp
    _ |>.Perm (s.avail.ring (slot s.seen) ::
          (between s.avail.ring (s.seen + 1) s.avail.idx ++ s.pending ++ s.reported)) :=
        List.perm_middle
    _ = _ := by simp

/-- The device completes the `k`-th head it has read: the head of a waiting
request, whose chain leads it to the request's status byte. -/
theorem complete_eq (hi : Inv s) {k : Nat} (hk : k < s.pending.length) :
    ∃ q w c, s.phase q = .wait w c ∧ s.pending[k] = c.head.val ∧
      s.complete k = some (s.afterComplete k c) := by
  have hmem : s.pending[k] ∈ s.inFlight := by simp [inFlight, List.getElem_mem]
  obtain ⟨q, w, c, hq, hc⟩ := hi.flight_head _ hmem
  have hf := hi.formatted q w c hq
  refine ⟨q, w, c, hq, hc.symm, ?_⟩
  unfold complete
  rw [dif_pos hk]
  simp only [← hc, descAt_fin, hf.head, hf.data, hf.status]
  rfl

/-- The completed head goes to the end of the used ring, which it does not
overrun. -/
theorem reported_complete (hi : Inv s) {k : Nat} (hk : k < s.pending.length) {c : Chain}
    (hc : s.pending[k] = c.head.val) :
    (s.afterComplete k c).reported = s.reported ++ [c.head.val] := by
  have hin : c.head.val ∈ s.pending := hc ▸ List.getElem_mem hk
  -- the head is in `pending`, so not in the used ring
  have hout : c.head.val ∉ s.reported := by
    intro hr
    have hnd := hi.flight_nodup
    simp only [inFlight, List.nodup_append] at hnd
    exact hnd.2.2 _ (by simp [hin]) _ hr rfl
  have hlen : s.reported.length < NUM :=
    hi.length_lt (List.Nodup.sublist (by simp [inFlight]) hi.flight_nodup)
      (fun h hh => by simp [inFlight, hh]) c.head.isLt hout
  exact between_push _ _ _ _ (by simpa [reported, afterComplete] using hlen)

theorem Inv.complete (hi : Inv s) {k : Nat} (hk : k < s.pending.length) {c : Chain}
    (hc : s.pending[k] = c.head.val) :
    Inv (s.afterComplete k c) := by
  have hsplit : s.pending.Perm (c.head.val :: s.pending.eraseIdx k) := by
    rw [← hc]
    exact (List.getElem_cons_eraseIdx_perm hk).symm
  have hrep' := reported_complete hi hk hc
  refine hi.of_perm rfl rfl rfl (fun i => ?_) rfl ?_ ?_
  · by_cases hi' : i = c.head
    · subst hi'
      simp [afterComplete]
    · simp [afterComplete, Function.update_of_ne hi']
  · change s.published ++ s.pending.eraseIdx k ++ (s.afterComplete k c).reported |>.Perm s.inFlight
    rw [hrep']
    calc _ = s.published ++ ((s.pending.eraseIdx k ++ s.reported) ++ [c.head.val]) := by simp
      _ |>.Perm (s.published ++ (c.head.val :: (s.pending.eraseIdx k ++ s.reported))) :=
          (List.perm_append_singleton _ _).append_left _
      _ = s.published ++ (c.head.val :: s.pending.eraseIdx k) ++ s.reported := by simp
      _ |>.Perm s.inFlight := (hsplit.symm.append_left _).append_right _
  · intro h hh
    simp only [hrep', List.mem_append, List.mem_singleton] at hh
    rcases hh with hh | rfl
    · obtain ⟨hlt, hz⟩ := hi.status_zero h hh
      refine ⟨hlt, ?_⟩
      by_cases hhc : (⟨h, hlt⟩ : Fin NUM) = c.head
      · rw [hhc]
        simp [afterComplete]
      · simpa [afterComplete, Function.update_of_ne hhc] using hz
    · exact ⟨c.head.isLt, by simp [afterComplete]⟩

/-! ## Every step -/

/-- What a step can do, from a state of the invariant: a process publishes a
request or goes to sleep for descriptors, a request ends, the handler clears
`b->disk` of the first reported request, or the device reads or completes a
head. -/
theorem next_cases (hi : Inv s) {e : Event np} (h : s.Next e s') :
    (∃ p w, (∀ w' c, s.phase p ≠ .wait w' c) ∧ s' = s.setPhase p (.alloc w)) ∨
    (∃ p w c, (∀ w' c', s.phase p ≠ .wait w' c') ∧ c.toList.Nodup ∧
      (∀ d ∈ c.toList, s.free d = true) ∧ s' = (s.takeChain c).submit p w c) ∨
    (∃ p w c, s.phase p = .wait w c ∧ s.bdisk p = false ∧
      s' = ((s.clearB c.head).release c).setPhase p .idle) ∨
    (∃ q w c, e = .intr ∧ s.phase q = .wait w c ∧ s.bdisk q = true ∧
      s.reported = c.head.val :: between s.used.ring (s.usedIdx + 1) s.used.idx ∧
      s' = s.afterIntr q) ∨
    (s.seen ≠ s.avail.idx ∧ s' = s.afterConsume) ∨
    (∃ k, ∃ hk : k < s.pending.length, ∃ c, s.pending[k] = c.head.val ∧
      s' = s.afterComplete k c) := by
  -- `virtio_disk_rw` and a wakeup in its loop both make an attempt at `alloc3_desc`
  have hattempt : ∀ p w, (∀ w' c, s.phase p ≠ .wait w' c) → s.tryAlloc p w = .ok s' →
      (∃ p w, (∀ w' c, s.phase p ≠ .wait w' c) ∧ s' = s.setPhase p (.alloc w)) ∨
      (∃ p w c, (∀ w' c', s.phase p ≠ .wait w' c') ∧ c.toList.Nodup ∧
        (∀ d ∈ c.toList, s.free d = true) ∧ s' = (s.takeChain c).submit p w c) := by
    intro p w hnot he
    rcases tryAlloc_cases hi p w with he' | ⟨c, hn, hf, he'⟩ <;> rw [he', Except.ok.injEq] at he
    · exact .inl ⟨p, w, hnot, he.symm⟩
    · exact .inr ⟨p, w, c, hnot, hn, hf, he.symm⟩
  cases e with
  | rw p w =>
    simp only [Next, Disk.step] at h
    split_ifs at h with hp
    rcases hattempt p w (by simp [hp]) (Option.some.inj h) with h' | h'
    · exact .inl h'
    · exact .inr (.inl h')
  | retry p =>
    simp only [Next, Disk.step] at h
    split at h
    · rename_i w hp
      rcases hattempt p w (by simp [hp]) (Option.some.inj h) with h' | h'
      · exact .inl h'
      · exact .inr (.inl h')
    · cases h
  | finish p =>
    simp only [Next, Disk.step] at h
    split at h
    · rename_i w c hp
      split_ifs at h with hb
      rw [finish_eq hi hp, Option.some.injEq, Except.ok.injEq] at h
      exact .inr (.inr (.inl ⟨p, w, c, hp, hb, h.symm⟩))
    · cases h
  | intr =>
    simp only [Next, Disk.step] at h
    by_cases hne : s.usedIdx ≠ s.used.idx
    · obtain ⟨q, w, c, hq, hb, hrep, he⟩ := intr_eq hi hne
      rw [he, Option.some.injEq, Except.ok.injEq] at h
      exact .inr (.inr (.inr (.inl ⟨q, w, c, rfl, hq, hb, hrep, h.symm⟩)))
    · unfold Disk.intr at h
      rw [if_neg hne] at h
      cases h
  | consume =>
    simp only [Next, Disk.step] at h
    by_cases hne : s.seen ≠ s.avail.idx
    · rw [consume_eq hne] at h
      cases h
      exact .inr (.inr (.inr (.inr (.inl ⟨hne, rfl⟩))))
    · unfold Disk.consume at h
      rw [if_neg hne] at h
      cases h
  | complete k =>
    simp only [Next, Disk.step] at h
    by_cases hk : k < s.pending.length
    · obtain ⟨q, w, c, -, hc, he⟩ := complete_eq hi hk
      rw [he] at h
      cases h
      exact .inr (.inr (.inr (.inr (.inr ⟨k, hk, c, hc, rfl⟩))))
    · unfold Disk.complete at h
      rw [dif_neg hk] at h
      cases h

/-- Every step keeps the invariant. -/
theorem Inv.step (hi : Inv s) {e : Event np} (h : s.Next e s') : Inv s' := by
  rcases next_cases hi h with ⟨p, w, hnot, rfl⟩ | ⟨p, w, c, hnot, hn, hf, rfl⟩ |
    ⟨p, w, c, hp, hb, rfl⟩ | ⟨q, w, c, -, hq, -, hrep, rfl⟩ | ⟨hne, rfl⟩ | ⟨k, hk, c, hc, rfl⟩
  · exact hi.setPhase hnot (by simp)
  · exact hi.submit hnot hn hf
  · exact hi.finish hp hb
  · exact hi.intr hq hrep
  · exact hi.consume hne
  · exact hi.complete hk hc

/-- No step panics: not in `free_desc`, not at the status check of
`virtio_disk_intr`, and not by a store through a null buffer. -/
theorem step_ne_error (hi : Inv s) (e : Event np) (msg : String) : s.step e ≠ some (.error msg) := by
  intro h
  cases e with
  | rw p w =>
    simp only [step] at h
    split_ifs at h
    rcases tryAlloc_cases hi p w with he | ⟨c, -, -, he⟩ <;> rw [he] at h <;> cases h
  | retry p =>
    simp only [step] at h
    split at h
    · rename_i w _
      rcases tryAlloc_cases hi p w with he | ⟨c, -, -, he⟩ <;> rw [he] at h <;> cases h
    · cases h
  | finish p =>
    simp only [step] at h
    split at h
    · rename_i w c hp
      split_ifs at h
      rw [finish_eq hi hp] at h
      cases h
    · cases h
  | intr =>
    simp only [step] at h
    by_cases hne : s.usedIdx ≠ s.used.idx
    · obtain ⟨q, w, c, -, -, -, he⟩ := intr_eq hi hne
      rw [he] at h
      cases h
    · unfold intr at h
      rw [if_neg hne] at h
      cases h
  | consume =>
    simp only [step] at h
    cases hc : s.consume <;> rw [hc] at h <;> cases h
  | complete k =>
    simp only [step] at h
    cases hc : s.complete k <;> rw [hc] at h <;> cases h

theorem inv_of_reachable (hs : Reachable (· = init np) Next s) : Inv s :=
  Reachable.invariant (I := Inv) (by rintro _ rfl; exact inv_init)
    (fun _ _ _ _ hi hn => hi.step hn) hs

/-! ## `b->disk` -/

/-- Only a round of `virtio_disk_intr` changes `b->disk` of a waiting request:
it clears it, when the request's head is the first the device reported. -/
theorem bdisk_change (hi : Inv s) {e : Event np} (h : s.Next e s') {p : Fin np} {w : Bool}
    {c : Chain} (hp : s.phase p = .wait w c) (hb : s'.bdisk p ≠ s.bdisk p) :
    e = .intr ∧ s.bdisk p = true ∧ s'.bdisk p = false ∧ s.reported.head? = some c.head.val := by
  rcases next_cases hi h with ⟨q, w', hnot, rfl⟩ | ⟨q, w', c', hnot, -, -, rfl⟩ |
    ⟨q, w', c', -, -, rfl⟩ | ⟨q, w', c', rfl, hq, hbq, hrep, rfl⟩ | ⟨-, rfl⟩ | ⟨k, -, c', -, rfl⟩
  · exact absurd rfl hb
  · -- the process that publishes is not `p`, which waits already
    have hpq : p ≠ q := fun hpq => hnot w c (hpq ▸ hp)
    exact absurd (Function.update_of_ne hpq _ _) hb
  · exact absurd rfl hb
  · by_cases hpq : p = q
    · subst hpq
      rw [hp, Phase.wait.injEq] at hq
      obtain ⟨-, rfl⟩ := hq
      exact ⟨rfl, hbq, by simp [afterIntr], by simp [hrep]⟩
    · exact absurd (Function.update_of_ne hpq _ _) hb
  · exact absurd rfl hb
  · exact absurd rfl hb

/-! ## Progress of the device and the handler -/

/-- The requests on their way, weighted by how many steps each still needs:
three while published, two once read, one once reported. -/
def weight (s : Disk np) : Nat := 3 * s.published.length + 2 * s.pending.length + s.reported.length

/-- While a request is on its way, the device or the handler can take a step,
which changes no process and lowers the weight. -/
theorem progress (hi : Inv s) (hne : s.inFlight ≠ []) :
    ∃ e s', s.Next e s' ∧ s'.phase = s.phase ∧ s'.weight < s.weight := by
  by_cases hrep : s.reported = []
  · by_cases hpen : s.pending = []
    · -- only published heads: the device reads one
      have hpub : s.published ≠ [] := by simpa [inFlight, hrep, hpen] using hne
      have hseen : s.seen ≠ s.avail.idx := fun he => hpub (by simp [published, he, between_self])
      refine ⟨.consume, s.afterConsume, by simp [Next, Disk.step, consume_eq hseen], rfl, ?_⟩
      have hlen := congrArg List.length (between_pop s.avail.ring hseen)
      simp only [weight, afterConsume, published, reported, List.length_append, List.length_cons,
        List.length_nil, length_between] at hlen ⊢
      omega
    · -- the device completes the first head it read
      have hk : 0 < s.pending.length := List.length_pos_iff.mpr hpen
      obtain ⟨q, w, c, -, hc, he⟩ := complete_eq hi hk
      refine ⟨.complete 0, s.afterComplete 0 c, by simp [Next, Disk.step, he], rfl, ?_⟩
      have hlen := congrArg List.length (reported_complete hi hk hc)
      have hpen' : (s.afterComplete 0 c).pending.length = s.pending.length - 1 :=
        List.length_eraseIdx_of_lt hk
      simp only [weight, List.length_append, List.length_cons, List.length_nil] at hlen hpen' ⊢
      change 3 * s.published.length + 2 * _ + _ < _
      omega
  · -- the handler processes the first reported head
    have hused : s.usedIdx ≠ s.used.idx := fun he => hrep (by simp [reported, he, between_self])
    obtain ⟨q, w, c, -, -, hr, he⟩ := intr_eq hi hused
    refine ⟨.intr, s.afterIntr q, by simp [Next, Disk.step, he], rfl, ?_⟩
    have hlen := congrArg List.length hr
    simp only [weight, List.length_cons] at hlen ⊢
    change 3 * s.published.length + 2 * s.pending.length +
      (between s.used.ring (s.usedIdx + 1) s.used.idx).length < _
    omega

/-- The device and the handler alone bring every request to the point where
its `b->disk` is clear. -/
theorem eventually_cleared (hi : Inv s) {p : Fin np} {w : Bool} {c : Chain}
    (hp : s.phase p = .wait w c) :
    ∃ s', Reachable (· = s) Next s' ∧ s'.phase p = .wait w c ∧ s'.bdisk p = false := by
  -- strong induction on the weight, which every step of `progress` lowers
  induction hw : s.weight using Nat.strong_induction_on generalizing s with
  | _ n ih =>
    by_cases hb : s.bdisk p = false
    · exact ⟨s, .init rfl, hp, hb⟩
    · have hin : c.head.val ∈ s.inFlight := (hi.bdisk_iff p w c hp).mp (by simpa using hb)
      obtain ⟨e, s₁, hn, hph, hlt⟩ := progress hi (List.ne_nil_of_mem hin)
      have hp₁ : s₁.phase p = .wait w c := by rw [hph]; exact hp
      obtain ⟨s', hr, hp', hb'⟩ := ih s₁.weight (hw ▸ hlt) (hi.step hn) hp₁ rfl
      have h₀ : Reachable (· = s) Next s := .init rfl
      exact ⟨s', (h₀.step hn).trans hr, hp', hb'⟩

end Disk

open Disk

/-- The descriptor protocol of the driver with a device that keeps the virtio
contract, in every state that any interleaving of any number of processes, the
interrupt handler and the device reaches, the `uint16` counters wrapping. -/
theorem virtio_descriptor_protocol {np : Nat} {s : Disk np}
    (hs : Reachable (· = Disk.init np) Disk.Next s) :
    (∀ d, s.free d = false ↔ ∃ p w c, s.phase p = .wait w c ∧ d ∈ c.toList) ∧
    (∀ p q w w' c c', s.phase p = .wait w c → s.phase q = .wait w' c' → p ≠ q →
      ∀ d ∈ c.toList, d ∉ c'.toList) ∧
    (∀ p w c, s.phase p = .wait w c →
      c.toList.Nodup ∧ s.Formatted p w c ∧ (s.info c.head).b = some p) ∧
    (∀ p w c e s', s.phase p = .wait w c → s.Next e s' → s'.bdisk p ≠ s.bdisk p →
      e = .intr ∧ s.bdisk p = true ∧ s'.bdisk p = false ∧ s.reported.head? = some c.head.val) ∧
    (∀ p w c, s.phase p = .wait w c →
      ∃ s', Reachable (· = s) Disk.Next s' ∧ s'.phase p = .wait w c ∧ s'.bdisk p = false) ∧
    (∀ p w c s', s.phase p = .wait w c → s.Next (.finish p) s' →
      s'.phase p = .idle ∧ ∀ d, s'.free d = if d ∈ c.toList then true else s.free d) ∧
    (∀ s', s.alloc3Desc = .ok (none, s') → s' = s) ∧
    (∀ e msg, s.step e ≠ some (.error msg)) := by
  have hi := inv_of_reachable hs
  refine ⟨hi.inUse_iff, hi.disjoint, fun p w c hp => ⟨hi.nodup p w c hp, hi.formatted p w c hp,
    hi.info_b p w c hp⟩, fun p w c e s' hp hn hb => bdisk_change hi hn hp hb,
    fun p w c hp => eventually_cleared hi hp, ?finish, ?alloc3, step_ne_error hi⟩
  case finish =>
    intro p w c s' hp hn
    obtain ⟨-, rfl⟩ := next_finish hi hp hn
    exact ⟨by simp, fun d => rfl⟩
  case alloc3 =>
    intro s' h
    rcases alloc3Desc_eq hi.zero_of_free with he | ⟨c, -, -, he⟩ <;> rw [he] at h
    · cases h
      rfl
    · cases h

/-- Two processes each submit a request, a read and a write, and the device reads
the first from the avail ring: six descriptors, two chains of three, are in use. -/
theorem virtio_descriptor_protocol_twoRequests :
    ∃ s : Disk 2, Reachable (· = Disk.init 2) Disk.Next s ∧ ((List.finRange NUM).filter fun d => !s.free d).length = 6 ∧
      (∀ d, s.free d = false ↔ ∃ p w c, s.phase p = .wait w c ∧ d ∈ c.toList) ∧
      (∀ p q w w' c c', s.phase p = .wait w c → s.phase q = .wait w' c' → p ≠ q →
        ∀ d ∈ c.toList, d ∉ c'.toList) ∧
      (∀ p w c, s.phase p = .wait w c →
        c.toList.Nodup ∧ s.Formatted p w c ∧ (s.info c.head).b = some p) ∧
      (∀ p w c e s', s.phase p = .wait w c → s.Next e s' → s'.bdisk p ≠ s.bdisk p →
        e = .intr ∧ s.bdisk p = true ∧ s'.bdisk p = false ∧ s.reported.head? = some c.head.val) ∧
      (∀ p w c, s.phase p = .wait w c →
        ∃ s', Reachable (· = s) Disk.Next s' ∧ s'.phase p = .wait w c ∧ s'.bdisk p = false) ∧
      (∀ p w c s', s.phase p = .wait w c → s.Next (.finish p) s' →
        s'.phase p = .idle ∧ ∀ d, s'.free d = if d ∈ c.toList then true else s.free d) ∧
      (∀ s', s.alloc3Desc = .ok (none, s') → s' = s) ∧
      (∀ e msg, s.step e ≠ some (.error msg)) := by
  have hrun : (Transition.exec (okStep Disk.step) (Disk.init 2) [.rw 0 false, .rw 1 true, .consume]).map
      (fun s => decide (((List.finRange NUM).filter fun d => !s.free d).length = 6)) = some true := by
    decide
  have hsound : ∀ (s : Disk 2) e s', okStep Disk.step s e = some s' → s.Next e s' :=
    fun _ _ _ h => okStep_eq_some h
  obtain ⟨s, hs, hp⟩ := Reachable.exists_of_exec_decide hsound hrun
  exact ⟨s, hs, hp, virtio_descriptor_protocol hs⟩

end Xv6.Virtio
