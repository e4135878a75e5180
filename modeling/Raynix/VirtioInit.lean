import Raynix.Lib.DeviceProtocol
import Raynix.PageStack
import Raynix.Virtio

namespace Raynix.VirtioInit

open Raynix.Lib.Memory Raynix.Lib.DeviceProtocol Raynix.Kalloc

/-- The registers that `virtio_disk_init` uses, `VIRTIO_MMIO_...` in `virtio.h`. -/
inductive Reg
  | magicValue
  | version
  | deviceId
  | vendorId
  | deviceFeatures
  | driverFeatures
  | queueSel
  | queueNumMax
  | queueNum
  | queueReady
  | status
  | queueDescLow
  | queueDescHigh
  | driverDescLow
  | driverDescHigh
  | deviceDescLow
  | deviceDescHigh
  deriving DecidableEq

/-- The constants of `virtio.h`: the status bits `VIRTIO_CONFIG_S_...`, which are different bits,
and the numbers of the features that the driver refuses. -/
structure Bits where
  acknowledge : BitVec 32
  driver : BitVec 32
  driverOk : BitVec 32
  featuresOk : BitVec 32
  blkFRo : Nat
  blkFScsi : Nat
  blkFConfigWce : Nat
  blkFMq : Nat
  fAnyLayout : Nat
  ringFEventIdx : Nat
  ringFIndirectDesc : Nat
  driver_ne : driver ≠ 0
  featuresOk_ne : featuresOk ≠ 0
  driverOk_ne : driverOk ≠ 0
  featuresOk_apart : (acknowledge ||| driver) &&& featuresOk = 0
  driverOk_apart : (acknowledge ||| driver ||| featuresOk) &&& driverOk = 0

/-- `page_list_keeper`, and `disk` as far as `virtio_disk_init` sets it. -/
structure Driver where
  phys : Phys
  desc : Addr
  avail : Addr
  used : Addr
  free : Nat → Bool

abbrev Init := Routine Driver Reg

def expect (r : Reg) (v : BitVec 32) : Init Unit := do
  let found ← read r
  stopIf (found ≠ v) "could not find virtio disk"

def findDisk : Init Unit := do
  expect .magicValue 0x74726976
  expect .version 2
  expect .deviceId 2
  expect .vendorId 0x554d4551

variable (c : Bits) (V : Virtio.Params)

/-- `~(1 << n)`, a negative `int` where it meets the 64 bits of `features` -/
def without (n : Nat) : BitVec 64 := (~~~((1 : BitVec 32) <<< n)).signExtend 64

/-- `features` from what the device offers to what the driver writes back. -/
def negotiated (offered : BitVec 32) : BitVec 32 :=
  let features := offered.setWidth 64
  let features := features &&& without c.blkFRo
  let features := features &&& without c.blkFScsi
  let features := features &&& without c.blkFConfigWce
  let features := features &&& without c.blkFMq
  let features := features &&& without c.fAnyLayout
  let features := features &&& without c.ringFEventIdx
  let features := features &&& without c.ringFIndirectDesc
  features.setWidth 32

/-- From the reset on to the check of `FEATURES_OK`, with the status then read. -/
def negotiate : Init (BitVec 32) := do
  write .status 0
  let status := 0 ||| c.acknowledge
  write .status status
  let status := status ||| c.driver
  write .status status
  let offered ← read .deviceFeatures
  write .driverFeatures (negotiated c offered)
  let status := status ||| c.featuresOk
  write .status status
  let status ← read .status
  stopIf (status &&& c.featuresOk = 0) "virtio disk FEATURES_OK unset"
  return status

def checkQueue : Init Unit := do
  write .queueSel 0
  let ready ← read .queueReady
  stopIf (ready ≠ 0) "virtio disk should not be ready"
  let max ← read .queueNumMax
  stopIf (max = 0) "virtio disk has no queue 0"
  stopIf (max < BitVec.ofNat 32 V.num) "virtio disk max queue too short"

def allocQueue : Init Unit := do
  kernel fun s => ((), { s with desc := (kalloc s.phys).1, phys := (kalloc s.phys).2 })
  kernel fun s => ((), { s with avail := (kalloc s.phys).1, phys := (kalloc s.phys).2 })
  kernel fun s => ((), { s with used := (kalloc s.phys).1, phys := (kalloc s.phys).2 })
  let s ← kernel fun s => (s, s)
  stopIf (s.desc = 0 ∨ s.avail = 0 ∨ s.used = 0) "virtio disk kalloc"
  kernel fun s => ((), { s with phys := s.phys.setMemory s.desc 0 4096 })
  kernel fun s => ((), { s with phys := s.phys.setMemory s.avail 0 4096 })
  kernel fun s => ((), { s with phys := s.phys.setMemory s.used 0 4096 })

def giveQueue : Init Unit := do
  write .queueNum (BitVec.ofNat 32 V.num)
  let s ← kernel fun s => (s, s)
  write .queueDescLow (s.desc.setWidth 32)
  write .queueDescHigh ((s.desc >>> 32).setWidth 32)
  write .driverDescLow (s.avail.setWidth 32)
  write .driverDescHigh ((s.avail >>> 32).setWidth 32)
  write .deviceDescLow (s.used.setWidth 32)
  write .deviceDescHigh ((s.used >>> 32).setWidth 32)
  write .queueReady 1

/-- `disk.free[i] = 1` for the `NUM` descriptors. -/
def freeAll (free : Nat → Bool) : Nat → Bool :=
  (List.range V.num).foldl (fun free i => Function.update free i true) free

def virtioDiskInit : Init Unit := do
  findDisk
  let status ← negotiate c
  checkQueue V
  allocQueue
  giveQueue V
  kernel fun s => ((), { s with free := freeAll V s.free })
  write .status (status ||| c.driverOk)

end Raynix.VirtioInit
