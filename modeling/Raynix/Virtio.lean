import Mathlib.Data.BitVec
import Mathlib.Data.List.Basic
import Mathlib.Logic.Function.Basic
import Raynix.Lib.Transition

namespace Raynix.Virtio

/-- The constants of `virtio.h`: `NUM`, the descriptor flags and the request types. -/
structure Params where
  num : Nat
  descFNext : BitVec 16
  descFWrite : BitVec 16
  blkTIn : BitVec 32
  blkTOut : BitVec 32
  three_le : 3 ≤ num
  num_dvd : num ∣ 2 ^ 16
  next_ne : descFNext ≠ 0
  write_next : descFWrite &&& descFNext = 0

instance neZero_num (V : Params) : NeZero V.num := ⟨by have := V.three_le; omega⟩

/-- The addresses that the driver stores in descriptors. -/
inductive Addr (B : Type)
  | null
  | op (i : Nat)
  | data (b : B)
  | status (i : Nat)
  deriving DecidableEq

structure Desc (B : Type) where
  addr : Addr B
  len : BitVec 32
  flags : BitVec 16
  next : BitVec 16

def Desc.zero (B : Type) : Desc B := { addr := .null, len := 0, flags := 0, next := 0 }

structure BlkReq where
  type : BitVec 32
  reserved : BitVec 32
  sector : BitVec 64

/-- `struct virtq_avail` and `struct virtq_used`. -/
structure Ring (n : Nat) (α : Type) where
  idx : BitVec 16
  ring : Fin n → α

/-- `struct disk`, with the `blockno` and `disk` fields of the buffers `B`. -/
structure Disk (V : Params) (B : Type) where
  desc : Nat → Desc B
  avail : Ring V.num (BitVec 16)
  used : Ring V.num (BitVec 32)
  free : Nat → Bool
  usedIdx : BitVec 16
  infoB : Nat → Option B
  infoStatus : Nat → BitVec 8
  ops : Nat → BlkReq
  blockno : B → BitVec 32
  disk : B → Bool

/-- What stops the kernel: a panic with its message, or an access through a null pointer. -/
inductive Fault
  | panic (msg : String)
  | null
  deriving DecidableEq

structure Idx where
  i0 : Nat
  i1 : Nat
  i2 : Nat
  deriving DecidableEq

/-- Where a thread stands in `virtio_disk_rw` (asking for `vdisk_lock`, before `alloc3_desc`, in
the first `sleep`, before the descriptors are filled in, before the avail entry, before the new
index, at the test of the last loop, in its `sleep`, past the loop, before `release`) or in
`virtio_disk_intr`. The number of a request is ghost. -/
inductive Pc (B : Type)
  | idle
  | rwLock (b : B) (write : Bool)
  | alloc (b : B) (write : Bool)
  | allocSleep (b : B) (write : Bool)
  | format (b : B) (write : Bool) (idx : Idx)
  | submit (b : B) (idx : Idx)
  | publish (b : B) (idx : Idx) (r : Nat)
  | wait (b : B) (idx : Idx) (r : Nat)
  | waitSleep (b : B) (idx : Idx) (r : Nat)
  | finish (b : B) (idx : Idx) (r : Nat)
  | rwRelease (b : B) (r : Nat)
  | intrLock
  | intrLoop
  | intrEntry (id : BitVec 32) (r : Nat)
  deriving DecidableEq

/-- A request that the device is processing: its head and where to write the status. -/
structure Taken (B : Type) where
  head : BitVec 16
  status : Addr B
  r : Nat

/-- The driver, the threads `T` running it, and the device, which has looked as far as `consumed`
into the avail ring. The rest is ghost: the number of the request behind each ring entry, the avail
entries not yet consumed, and the numbers posted and processed so far. -/
structure State (V : Params) (B T : Type) where
  disk : Disk V B
  vdiskLock : Option T
  pc : T → Pc B
  consumed : BitVec 16
  taken : List (Taken B)
  fault : Option Fault
  availReq : Fin V.num → Nat
  usedReq : Fin V.num → Nat
  unread : Fin V.num → Bool
  requests : Nat
  posted : List Nat
  processed : List Nat

inductive Act (B T : Type)
  | rw (t : T) (b : B) (write : Bool)
  | intr (t : T)
  | lock (t : T)
  | run (t : T)
  | consume
  | post (k : Nat) (status : BitVec 8)

variable {V : Params} {B T : Type} [DecidableEq B] [DecidableEq T]

/-- `alloc_desc`, with `none` for -1 -/
def allocDesc (d : Disk V B) : Option (Nat × Disk V B) :=
  match (List.range V.num).find? fun i => d.free i with
  | some i => some (i, { d with free := Function.update d.free i false })
  | none => none

/-- `free_desc`. Its `wakeup` changes nothing here, as sleepers may return at any time. -/
def freeDesc (d : Disk V B) (i : Nat) : Except Fault (Disk V B) :=
  if V.num ≤ i then .error (.panic "free_desc 1")
  else if d.free i then .error (.panic "free_desc 2")
  else .ok { d with
    desc := Function.update d.desc i (Desc.zero B)
    free := Function.update d.free i true }

/-- The loop of `free_chain`. It ends within `NUM + 1` iterations, as a second `free_desc` of one
descriptor panics. -/
def freeChainLoop : Nat → Disk V B → Nat → Except Fault (Disk V B)
  | 0, d, _ => .ok d
  | fuel + 1, d, i =>
    match freeDesc d i with
    | .error e => .error e
    | .ok d' =>
      if (d.desc i).flags &&& V.descFNext ≠ 0 then freeChainLoop fuel d' (d.desc i).next.toNat
      else .ok d'

def freeChain (d : Disk V B) (i : Nat) : Except Fault (Disk V B) := freeChainLoop (V.num + 1) d i

/-- `alloc3_desc`, with `none` for -1 -/
def alloc3Desc (d : Disk V B) : Except Fault (Disk V B × Option Idx) :=
  match allocDesc d with
  | none => .ok (d, none)
  | some (i0, d) =>
    match allocDesc d with
    | none => do
      let d ← freeDesc d i0
      .ok (d, none)
    | some (i1, d) =>
      match allocDesc d with
      | none => do
        let d ← freeDesc d i0
        let d ← freeDesc d i1
        .ok (d, none)
      | some (i2, d) => .ok (d, some ⟨i0, i1, i2⟩)

/-- The part of `virtio_disk_rw` that fills in the three descriptors and records the buffer. -/
def formatReq (d : Disk V B) (b : B) (write : Bool) (idx : Idx) : Disk V B :=
  { d with
    ops := Function.update d.ops idx.i0
      { type := if write then V.blkTOut else V.blkTIn
        reserved := 0
        sector := (d.blockno b * 2).setWidth 64 }
    desc := Function.update (Function.update (Function.update d.desc
      idx.i0 { addr := .op idx.i0, len := 16, flags := V.descFNext,
               next := BitVec.ofNat 16 idx.i1 })
      idx.i1 { addr := .data b, len := 1024,
               flags := (if write then 0 else V.descFWrite) ||| V.descFNext,
               next := BitVec.ofNat 16 idx.i2 })
      idx.i2 { addr := .status idx.i0, len := 1, flags := V.descFWrite, next := 0 }
    infoStatus := Function.update d.infoStatus idx.i0 0xff
    disk := Function.update d.disk b true
    infoB := Function.update d.infoB idx.i0 (some b) }

def slot (V : Params) (idx : BitVec 16) : Fin V.num := Fin.ofNat V.num idx.toNat

def State.goto (s : State V B T) (t : T) (pc : Pc B) : State V B T :=
  { s with pc := Function.update s.pc t pc }

/-- `release(&disk.vdisk_lock)`, also the one inside `sleep` -/
def release (s : State V B T) (t : T) (pc : Pc B) : State V B T :=
  { s.goto t pc with vdiskLock := none }

/-- `disk.avail->ring[disk.avail->idx % NUM] = idx[0]` -/
def putAvail (s : State V B T) (t : T) (b : B) (idx : Idx) : State V B T :=
  { s.goto t (.publish b idx s.requests) with
    disk := { s.disk with
      avail := { s.disk.avail with
        ring := Function.update s.disk.avail.ring (slot V s.disk.avail.idx)
          (BitVec.ofNat 16 idx.i0) } }
    availReq := Function.update s.availReq (slot V s.disk.avail.idx) s.requests
    unread := Function.update s.unread (slot V s.disk.avail.idx) true
    requests := s.requests + 1 }

/-- `disk.avail->idx += 1` -/
def publishAvail (s : State V B T) (t : T) (b : B) (idx : Idx) (r : Nat) : State V B T :=
  { s.goto t (.wait b idx r) with
    disk := { s.disk with avail := { s.disk.avail with idx := s.disk.avail.idx + 1 } } }

/-- `disk.info[idx[0]].b = 0; free_chain(idx[0]);` -/
def finishReq (s : State V B T) (t : T) (b : B) (idx : Idx) (r : Nat) : State V B T :=
  match freeChain { s.disk with infoB := Function.update s.disk.infoB idx.i0 none } idx.i0 with
  | .error e => { s with fault := some e }
  | .ok d => { s.goto t (.rwRelease b r) with disk := d }

/-- The loop of `virtio_disk_intr` at its test. -/
def intrTest (s : State V B T) (t : T) : State V B T :=
  if s.disk.usedIdx ≠ s.disk.used.idx then
    s.goto t (.intrEntry (s.disk.used.ring (slot V s.disk.usedIdx))
      (s.usedReq (slot V s.disk.usedIdx)))
  else release s t .idle

/-- The rest of the body of that loop, for the entry `id`. -/
def intrBody (s : State V B T) (t : T) (id : BitVec 32) (r : Nat) : State V B T :=
  if s.disk.infoStatus id.toNat ≠ 0 then
    { s with fault := some (.panic "virtio_disk_intr status") }
  else
    match s.disk.infoB id.toNat with
    | none => { s with fault := some .null }
    | some b =>
      { s.goto t .intrLoop with
        disk := { s.disk with
          disk := Function.update s.disk.disk b false
          usedIdx := s.disk.usedIdx + 1 }
        processed := s.processed ++ [r] }

/-- The next step of a thread that holds `vdisk_lock`. -/
def runThread (s : State V B T) (t : T) : Option (State V B T) :=
  match s.pc t with
  | .alloc b write =>
    match alloc3Desc s.disk with
    | .error e => some { s with fault := some e }
    | .ok (d, some idx) => some { s.goto t (.format b write idx) with disk := d }
    | .ok (d, none) => some (release { s with disk := d } t (.allocSleep b write))
  | .format b write idx =>
    some { s.goto t (.submit b idx) with disk := formatReq s.disk b write idx }
  | .submit b idx => some (putAvail s t b idx)
  | .publish b idx r => some (publishAvail s t b idx r)
  | .wait b idx r =>
    if s.disk.disk b then some (release s t (.waitSleep b idx r))
    else some (s.goto t (.finish b idx r))
  | .finish b idx r => some (finishReq s t b idx r)
  | .rwRelease _ _ => some (release s t .idle)
  | .intrLoop => some (intrTest s t)
  | .intrEntry id r => some (intrBody s t id r)
  | _ => none

/-- A thread takes `vdisk_lock`. `sleep` may return at any time. -/
def lockThread (s : State V B T) (t : T) : Option (State V B T) :=
  if s.vdiskLock = none then
    match s.pc t with
    | .rwLock b write => some { s.goto t (.alloc b write) with vdiskLock := some t }
    | .allocSleep b write => some { s.goto t (.alloc b write) with vdiskLock := some t }
    | .waitSleep b idx r => some { s.goto t (.wait b idx r) with vdiskLock := some t }
    | .intrLock => some { s.goto t .intrLoop with vdiskLock := some t }
    | _ => none
  else none

def statusAddr (d : Disk V B) (head : BitVec 16) : Addr B :=
  (d.desc (d.desc (d.desc head.toNat).next.toNat).next.toNat).addr

def consume (s : State V B T) : Option (State V B T) :=
  if s.consumed ≠ s.disk.avail.idx then
    let head := s.disk.avail.ring (slot V s.consumed)
    some { s with
      consumed := s.consumed + 1
      taken := s.taken ++
        [{ head := head, status := statusAddr s.disk head, r := s.availReq (slot V s.consumed) }]
      unread := Function.update s.unread (slot V s.consumed) false }
  else none

def postReq (s : State V B T) (k : Nat) (status : BitVec 8) : Option (State V B T) :=
  match s.taken[k]? with
  | none => none
  | some q =>
    some { s with
      disk := { s.disk with
        infoStatus := match q.status with
          | .status i => Function.update s.disk.infoStatus i status
          | _ => s.disk.infoStatus
        used :=
          { idx := s.disk.used.idx + 1
            ring := Function.update s.disk.used.ring (slot V s.disk.used.idx)
              (q.head.setWidth 32) } }
      taken := s.taken.eraseIdx k
      usedReq := Function.update s.usedReq (slot V s.disk.used.idx) q.r
      posted := s.posted ++ [q.r] }

/-- A call, the taking of `vdisk_lock`, the next step of its holder, or a step of the device.
Nothing happens after a fault. -/
def step (s : State V B T) (a : Act B T) : Option (State V B T) :=
  if s.fault.isSome then none
  else
    match a with
    | .rw t b write => if s.pc t = .idle then some (s.goto t (.rwLock b write)) else none
    | .intr t => if s.pc t = .idle then some (s.goto t .intrLock) else none
    | .lock t => lockThread s t
    | .run t => runThread s t
    | .consume => consume s
    | .post k status => postReq s k status

def initial (V : Params) (T : Type) (blockno : B → BitVec 32) : State V B T :=
  { disk :=
      { desc := fun _ => Desc.zero B
        avail := { idx := 0, ring := fun _ => 0 }
        used := { idx := 0, ring := fun _ => 0 }
        free := fun _ => true
        usedIdx := 0
        infoB := fun _ => none
        infoStatus := fun _ => 0
        ops := fun _ => { type := 0, reserved := 0, sector := 0 }
        blockno := blockno
        disk := fun _ => false }
    vdiskLock := none
    pc := fun _ => .idle
    consumed := 0
    taken := []
    fault := none
    availReq := fun _ => 0
    usedReq := fun _ => 0
    unread := fun _ => false
    requests := 0
    posted := []
    processed := [] }

end Raynix.Virtio
