import Xv6.Param
import Xv6.Lib.Window

/-!
# The virtio disk driver and its device

`kernel/virtio_disk.c`: the descriptor table, the avail and used rings shared
with the device, and the driver's own `free`, `used_idx` and `info`.  A disk
request is a chain of three descriptors: the request header, the buffer's data
and the status byte.  `virtio_disk_rw` allocates the chain, formats it,
publishes its head in the avail ring and sleeps until the interrupt handler
has cleared `b->disk`; it then frees the chain.

`virtio_disk_rw` holds `disk.vdisk_lock` except while it sleeps, so each piece
of it between two sleeps is one step: the first attempt at `alloc3_desc` up to
the publication of the request or the first sleep, each attempt after a
wakeup on `&disk.free[0]`, and the end once `b->disk` is `0`.  A wakeup is not
modelled: a sleeping process may take its next step at any time, which only
adds runs.  `virtio_disk_intr` runs under the same lock; each round of its loop
is a step of its own.  The device is the one the virtio split-queue contract
describes: it reads each published head once, in order, and later, in any
order, writes status `0` through the chain's last descriptor and the head to
the used ring.

Each process has a buffer of its own, `b->disk` is kept per process, and the
request header's fields and the buffer's bytes are left out.  A descriptor's
`addr` says what it points to.  A panic is `Except.error` with its message;
a store through a null `b` is a kernel page fault, `kerneltrap`.
-/

namespace Xv6.Virtio

/-- `NUM`: the number of descriptors and of entries of each ring. -/
def NUM : Nat := 8

instance : NeZero NUM := ⟨by decide⟩

def VRING_DESC_F_NEXT : Nat := 1

def VRING_DESC_F_WRITE : Nat := 2

/-- `sizeof(struct virtio_blk_req)`. -/
def blkReqSize : Nat := 16

/-- What the `addr` of a descriptor points to. -/
inductive Addr (np : Nat)
  | null
  /-- `&disk.ops[i]`. -/
  | op (i : Fin NUM)
  /-- `b->data` of the buffer of process `p`. -/
  | data (p : Fin np)
  /-- `&disk.info[i].status`. -/
  | status (i : Fin NUM)
deriving DecidableEq

/-- `struct virtq_desc`. -/
structure Desc (np : Nat) where
  addr : Addr np
  len : Nat
  flags : Nat
  next : Nat
deriving DecidableEq

/-- A descriptor after `free_desc`: every field `0`. -/
def Desc.zero {np : Nat} : Desc np := ⟨.null, 0, 0, 0⟩

/-- An entry of `disk.info`. -/
structure Info (np : Nat) where
  /-- The buffer of the request, as the process that owns it. -/
  b : Option (Fin np)
  status : Nat

/-- The three descriptors `alloc3_desc` returns in `idx`. -/
structure Chain where
  head : Fin NUM
  data : Fin NUM
  status : Fin NUM
deriving DecidableEq

def Chain.toList (c : Chain) : List (Fin NUM) := [c.head, c.data, c.status]

/-- Where a process is in `virtio_disk_rw`. -/
inductive Phase
  | idle
  /-- Asleep on `&disk.free[0]` after `alloc3_desc` failed. -/
  | alloc (write : Bool)
  /-- The request is published on chain `c`; asleep on `b` while `b->disk` is `1`. -/
  | wait (write : Bool) (c : Chain)
deriving DecidableEq

/-- `struct virtq_avail` or `struct virtq_used`: the counter and the ring. -/
structure Ring where
  idx : UInt16
  ring : Fin NUM → Nat

/-- The ring slot of counter `i`: `i % NUM`. -/
def slot (i : UInt16) : Fin NUM := Window.slot NUM i.toNat

/-- The driver, its processes and the device. -/
structure Disk (np : Nat) where
  desc : Fin NUM → Desc np
  avail : Ring
  /-- `used->idx` and the `id` of each entry of `used->ring`. -/
  used : Ring
  free : Fin NUM → Bool
  /-- `disk.used_idx`. -/
  usedIdx : UInt16
  info : Fin NUM → Info np
  /-- `b->disk` of the buffer of each process. -/
  bdisk : Fin np → Bool
  phase : Fin np → Phase
  /-- How far the device has read the avail ring. -/
  seen : UInt16
  /-- The heads the device has read and not yet completed. -/
  pending : List Nat

/-- A step of a process, of the interrupt handler or of the device. -/
inductive Event (np : Nat)
  /-- Process `p` calls `virtio_disk_rw(b, write)`. -/
  | rw (p : Fin np) (write : Bool)
  /-- Process `p` wakes in the loop around `alloc3_desc`. -/
  | retry (p : Fin np)
  /-- Process `p` wakes and finds `b->disk == 0`. -/
  | finish (p : Fin np)
  /-- A round of the loop of `virtio_disk_intr`. -/
  | intr
  /-- The device reads the next entry of the avail ring. -/
  | consume
  /-- The device completes the `k`-th request it has read and not completed. -/
  | complete (k : Nat)

namespace Disk

variable {np : Nat}

/-- `disk.desc[i]`; the index is a `uint16` read from a descriptor or a ring. -/
def descAt (s : Disk np) (i : Nat) : Desc np :=
  if h : i < NUM then s.desc ⟨i, h⟩ else Desc.zero

def setPhase (s : Disk np) (p : Fin np) (ph : Phase) : Disk np :=
  { s with phase := Function.update s.phase p ph }

/-- `alloc_desc()`: the first free descriptor, marked in use, or `-1`. -/
def allocDesc (s : Disk np) : Option (Fin NUM) × Disk np :=
  match (List.finRange NUM).find? fun i => s.free i with
  | some i => (some i, { s with free := Function.update s.free i false })
  | none => (none, s)

/-- `free_desc(i)`; the `wakeup(&disk.free[0])` is not modelled. -/
def freeDesc (s : Disk np) (i : Nat) : Except String (Disk np) :=
  if h : i < NUM then
    if s.free ⟨i, h⟩ then .error "free_desc 2"
    else .ok { s with desc := Function.update s.desc ⟨i, h⟩ Desc.zero,
                      free := Function.update s.free ⟨i, h⟩ true }
  else .error "free_desc 1"

/-- `free_chain(i)`.  Each round frees a descriptor in use or panics, so the
loop ends within `NUM + 1` rounds and fuel `NUM + 1` suffices. -/
def freeChain : Nat → Disk np → Nat → Except String (Disk np)
  | 0, s, _ => .ok s
  | fuel + 1, s, i => do
    let flag := (s.descAt i).flags
    let nxt := (s.descAt i).next
    let s ← s.freeDesc i
    if flag &&& VRING_DESC_F_NEXT ≠ 0 then freeChain fuel s nxt else .ok s

/-- `alloc3_desc(idx)`, its loop of three rounds written out: the chain, or
`-1` once the descriptors taken so far are freed again. -/
def alloc3Desc (s : Disk np) : Except String (Option Chain × Disk np) :=
  match s.allocDesc with
  | (none, s) => .ok (none, s)
  | (some i0, s) =>
    match s.allocDesc with
    | (none, s) => do
      let s ← s.freeDesc i0
      return (none, s)
    | (some i1, s) =>
      match s.allocDesc with
      | (none, s) => do
        let s ← s.freeDesc i0
        let s ← s.freeDesc i1
        return (none, s)
      | (some i2, s) => .ok (some ⟨i0, i1, i2⟩, s)

/-- The flags of the data descriptor: the device writes `b->data` on a read. -/
def dataFlags (write : Bool) : Nat :=
  (if write then 0 else VRING_DESC_F_WRITE) ||| VRING_DESC_F_NEXT

/-- The rest of `virtio_disk_rw` up to its sleep on `b`: format the chain `c`,
set `b->disk`, record the buffer and publish the head. -/
def submit (s : Disk np) (p : Fin np) (write : Bool) (c : Chain) : Disk np :=
  { s with
    desc := Function.update (Function.update (Function.update s.desc
      c.head ⟨.op c.head, blkReqSize, VRING_DESC_F_NEXT, c.data⟩)
      c.data ⟨.data p, BSIZE, dataFlags write, c.status⟩)
      c.status ⟨.status c.head, 1, VRING_DESC_F_WRITE, 0⟩
    -- the device writes 0 on success
    info := Function.update s.info c.head ⟨some p, 0xff⟩
    bdisk := Function.update s.bdisk p true
    avail := { idx := s.avail.idx + 1,
               ring := Function.update s.avail.ring (slot s.avail.idx) c.head.val }
    phase := Function.update s.phase p (.wait write c) }

/-- An attempt at `alloc3_desc` by `p`: the request is published, or `p`
sleeps on `&disk.free[0]`. -/
def tryAlloc (s : Disk np) (p : Fin np) (write : Bool) : Except String (Disk np) := do
  match ← s.alloc3Desc with
  | (some c, s) => return s.submit p write c
  | (none, s) => return s.setPhase p (.alloc write)

/-- The end of `virtio_disk_rw`: `disk.info[idx[0]].b = 0` and
`free_chain(idx[0])`. -/
def finish (s : Disk np) (p : Fin np) (c : Chain) : Except String (Disk np) := do
  let s := { s with info := Function.update s.info c.head { s.info c.head with b := none } }
  let s ← freeChain (NUM + 1) s c.head
  return s.setPhase p .idle

/-- A round of the loop of `virtio_disk_intr`, while `used_idx != used->idx`. -/
def intr (s : Disk np) : Option (Except String (Disk np)) :=
  if s.usedIdx ≠ s.used.idx then
    let id := s.used.ring (slot s.usedIdx)
    if h : id < NUM then
      let info := s.info ⟨id, h⟩
      if info.status ≠ 0 then some (.error "virtio_disk_intr status")
      else
        match info.b with
        | none => some (.error "kerneltrap")
        | some q =>
          -- disk is done with buf
          some (.ok { s with bdisk := Function.update s.bdisk q false, usedIdx := s.usedIdx + 1 })
    else none
  else none

/-- The device reads the next published head. -/
def consume (s : Disk np) : Option (Disk np) :=
  if s.seen ≠ s.avail.idx then
    some { s with seen := s.seen + 1, pending := s.pending ++ [s.avail.ring (slot s.seen)] }
  else none

/-- The device completes the `k`-th head it has read: status `0` through the
third descriptor of the chain, and the head into the used ring. -/
def complete (s : Disk np) (k : Nat) : Option (Disk np) :=
  if hk : k < s.pending.length then
    let hd := s.pending[k]
    match (s.descAt (s.descAt (s.descAt hd).next).next).addr with
    | .status j =>
      some { s with
        info := Function.update s.info j { s.info j with status := 0 }
        used := { idx := s.used.idx + 1, ring := Function.update s.used.ring (slot s.used.idx) hd }
        pending := s.pending.eraseIdx k }
    | _ => none
  else none

/-- One step; `none` when it cannot be taken. -/
def step (s : Disk np) : Event np → Option (Except String (Disk np))
  | .rw p write => if s.phase p = .idle then some (s.tryAlloc p write) else none
  | .retry p =>
    match s.phase p with
    | .alloc write => some (s.tryAlloc p write)
    | _ => none
  | .finish p =>
    match s.phase p with
    | .wait _ c => if s.bdisk p = false then some (s.finish p c) else none
    | _ => none
  | .intr => s.intr
  | .consume => s.consume.map .ok
  | .complete k => (s.complete k).map .ok

/-- `step` as a transition relation, over the steps that do not panic. -/
def Next (s : Disk np) (e : Event np) (s' : Disk np) : Prop := s.step e = some (.ok s')

/-- After `virtio_disk_init`: the queue memory zeroed, every descriptor free,
no process in `virtio_disk_rw`. -/
def init (np : Nat) : Disk np where
  desc _ := Desc.zero
  avail := ⟨0, fun _ => 0⟩
  used := ⟨0, fun _ => 0⟩
  free _ := true
  usedIdx := 0
  info _ := ⟨none, 0⟩
  bdisk _ := false
  phase _ := .idle
  seen := 0
  pending := []

end Disk

end Xv6.Virtio
