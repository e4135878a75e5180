import Raynix.AtomicDisk
import Raynix.BufferCounts

namespace Raynix.StorageStack

open Raynix.Lib Raynix.Lib.Transition Raynix.BufferCache Raynix.BufferUnique Raynix.BufferCounts
open Raynix.VirtioRequests (Role role)
open Raynix.DiskTransfers (sector)
open Raynix.AtomicDisk (Call number progress view)

variable {V : Virtio.Params} {P H : Type}

/-- The buffer cache with the driver below it, in one memory, the processes `P` that use it, the
interrupts `H`, and the device with its blocks by their first sector. `asked` and `moved` are ghost
as in `DiskTransfers`. -/
structure State (V : Virtio.Params) (P H : Type) where
  cache : Cache
  cacheLock : Option P
  sleepLock : Fin 30 → Option P
  pc : P → Pc
  driver : Virtio.State V (Fin 30) (P ⊕ H)
  blocks : BitVec 64 → Block
  asked : P ⊕ H → Bool
  moved : List Nat

/-- A step of the cache that is no transfer, a call of `virtio_disk_rw` by `bread` or `bwrite`, a
step of the driver or the device, or the device moving the data of the request it has taken as its
`k`-th, which is one of process `p`. -/
inductive Act (P H : Type)
  | cache (a : BufferCache.Act P)
  | bread (p : P)
  | bwrite (p : P) (i : Fin 30)
  | driver (a : Virtio.Act (Fin 30) (P ⊕ H))
  | move (p : P) (k : Nat)

/-- What the cache works on. -/
def State.buffers (s : State V P H) : BufferCache.State P :=
  ⟨s.cache, s.cacheLock, s.sleepLock, fun n => s.blocks (sector n), s.pc, fun _ => false, []⟩

/-- What the driver and the device work on. The `block_no` of a buffer is its `blockno` there. -/
def State.disk (s : State V P H) : DiskTransfers.State V (Fin 30) (P ⊕ H) Block where
  driver := { s.driver with
    disk := { s.driver.disk with blockno := fun i => (s.cache.buffers i).blockNo } }
  data i := (s.cache.buffers i).data
  blocks := s.blocks
  asked := s.asked
  moved := s.moved

def State.afterCache (s : State V P H) (c : BufferCache.State P) : State V P H :=
  { s with cache := c.cache, cacheLock := c.cacheLock, sleepLock := c.sleepLock, pc := c.pc }

def State.afterTransfer (s : State V P H) (d : DiskTransfers.State V (Fin 30) (P ⊕ H) Block) :
    State V P H :=
  { s with
    cache := { s.cache with buffers := fun i => { s.cache.buffers i with data := d.data i } }
    driver := d.driver
    blocks := d.blocks
    asked := d.asked
    moved := d.moved }

variable [DecidableEq P]

/-- The transfers that `BufferCache` makes in one step. -/
def isTransfer (pc : P → Pc) : BufferCache.Act P → Bool
  | .bwrite .. => true
  | .run p =>
    match pc p with
    | .fill .. => true
    | _ => false
  | _ => false

/-- `bread` marks its buffer as valid and returns. -/
def State.validate (s : State V P H) (p : P) (i : Fin 30) : State V P H :=
  { s with
    cache := s.cache.setBuf i { s.cache.buffers i with valid := true }
    pc := Function.update s.pc p .idle }

def State.finish (s : State V P H) (p : P) : State V P H :=
  match s.pc p with
  | .fill _ _ i => s.validate p i
  | _ => s

variable [DecidableEq H]

def callRw (s : State V P H) (p : P) (i : Fin 30) (write : Bool) : Option (State V P H) :=
  (DiskTransfers.step s.disk (.driver (.rw (.inl p) i write))).map s.afterTransfer

def step (s : State V P H) : Act P H → Option (State V P H)
  | .cache a =>
    if s.driver.pc (.inl (actor a)) = .idle ∧ isTransfer s.pc a = false then
      (BufferCache.step s.buffers a).map s.afterCache
    else none
  | .bread p =>
    match s.pc p with
    | .fill _ _ i => callRw s p i false
    | _ => none
  | .bwrite p i => if s.pc p = .idle ∧ s.sleepLock i = some p then callRw s p i true else none
  | .driver (.rw ..) => none
  | .driver (.run (.inl p)) =>
    (DiskTransfers.step s.disk (.driver (.run (.inl p)))).map fun d =>
      match s.driver.pc (.inl p) with
      | .rwRelease .. => (s.afterTransfer d).finish p
      | _ => s.afterTransfer d
  | .driver a => (DiskTransfers.step s.disk (.driver a)).map s.afterTransfer
  | .move p k =>
    match s.driver.taken[k]? with
    | some q =>
      if number (role (s.driver.pc (.inl p))) = some q.r then
        (DiskTransfers.step s.disk (.move k)).map s.afterTransfer
      else none
    | none => none

def boot (V : Virtio.Params) (P H : Type) (blocks : BitVec 64 → Block) : State V P H where
  cache := binit ⟨fun _ => ⟨false, 0, 0, fun _ => 0, 0⟩, ⟨id, id⟩⟩
  cacheLock := none
  sleepLock _ := none
  pc _ := .idle
  driver := Virtio.initial V (P ⊕ H) fun _ => 0
  blocks := blocks
  asked _ := false
  moved := []

/-- The step of `BufferCache` that a step stands for: a transfer is made when the device moves the
data. -/
def seen (s : State V P H) : Act P H → List (BufferCache.Act P)
  | .cache a => [a]
  | .move p _ =>
    match s.pc p, (role (s.driver.pc (.inl p))).buffer with
    | .fill .., _ => [.run p]
    | _, some i => [.bwrite p i]
    | _, none => []
  | .bread _ | .bwrite .. | .driver _ => []

/-- A process releases a buffer that it holds, and asks for a block whose sector has a number of 32
bits. -/
structure Proper (s : State V P H) (a : Act P H) : Prop where
  own : ∀ p i, a = .cache (.brelease p i) → s.sleepLock i = some p
  small : ∀ p reading dev blockNo, a = .cache (.bget p reading dev blockNo) →
    blockNo.toNat < 2 ^ 31

/-- The call of `virtio_disk_rw` that a process is in, with whether the device has moved its data.
-/
def State.call (s : State V P H) (p : P) : Option (Call (Fin 30) × Bool) :=
  progress (s.asked (.inl p)) s.moved (role (s.driver.pc (.inl p)))

/-- The device has read the block of the buffer for a `bread` that has not returned. -/
def State.Read (s : State V P H) (i : Fin 30) : Prop := ∃ p, s.call p = some (⟨i, false⟩, true)

/-- The buffers agree in all but their flags. -/
structure Agree (x y : Buf) : Prop where
  dev : y.dev = x.dev
  blockNo : y.blockNo = x.blockNo
  data : y.data = x.data
  linkNo : y.linkNo = x.linkNo

/-- The caches agree but for the flags of the buffers that have been `read`. -/
structure SameBuffers (read : Fin 30 → Prop) (c b : Cache) : Prop where
  ring : b.ring = c.ring
  agree : ∀ i, Agree (c.buffers i) (b.buffers i)
  valid : ∀ i, ¬ read i → (b.buffers i).valid = (c.buffers i).valid
  read : ∀ i, read i → (b.buffers i).valid = true

/-- `b` is the cache over exact transfers: a process whose data has been moved has gone on. -/
structure Shows (s : State V P H) (b : BufferCache.State P) : Prop where
  cache : SameBuffers s.Read s.cache b.cache
  cacheLock : b.cacheLock = s.cacheLock
  sleepLock : b.sleepLock = s.sleepLock
  disk : ∀ n, n.toNat < 2 ^ 31 → b.disk n = s.blocks (sector n)
  waits : ∀ p, (∀ i, s.call p ≠ some (⟨i, false⟩, true)) → b.pc p = s.pc p
  passed : ∀ p i, s.call p = some (⟨i, false⟩, true) → b.pc p = .idle

section SameBuffers

variable {read : Fin 30 → Prop} {c b : Cache} {i : Fin 30}

theorem SameBuffers.caches (h : SameBuffers read c b) (i : Fin 30) (dev blockNo : BitVec 32) :
    (b.buffers i).Caches dev blockNo ↔ (c.buffers i).Caches dev blockNo := by
  rw [Buf.Caches, Buf.Caches, (h.agree i).dev, (h.agree i).blockNo]

theorem SameBuffers.setBuf (h : SameBuffers read c b) {x y : Buf} (hxy : Agree x y)
    (hvalid : ¬ read i → y.valid = x.valid) (hread : read i → y.valid = true) :
    SameBuffers read (c.setBuf i x) (b.setBuf i y) := by
  have hcases : ∀ (Q : Fin 30 → Buf → Buf → Prop), Q i x y →
      (∀ j, Q j (c.buffers j) (b.buffers j)) →
      ∀ j, Q j ((c.setBuf i x).buffers j) ((b.setBuf i y).buffers j) := by
    intro Q hi hne j
    by_cases hij : j = i
    · subst hij
      rwa [setBuf_self, setBuf_self]
    · rw [setBuf_of_ne _ _ hij, setBuf_of_ne _ _ hij]
      exact hne j
  exact ⟨h.ring, hcases (fun _ x y => Agree x y) hxy h.agree,
    hcases (fun j x y => ¬ read j → y.valid = x.valid) hvalid h.valid,
    hcases (fun j _ y => read j → y.valid = true) hread h.read⟩

theorem SameBuffers.addLink (h : SameBuffers read c b) (i : Fin 30) :
    SameBuffers read (addLink c i) (addLink b i) := by
  have hi := h.agree i
  exact h.setBuf ⟨hi.dev, hi.blockNo, hi.data, congrArg (· + 1) hi.linkNo⟩ (h.valid i) (h.read i)

theorem SameBuffers.dropLink (h : SameBuffers read c b) (i : Fin 30) :
    SameBuffers read (dropLink c i) (dropLink b i) := by
  have hi := h.agree i
  have hset := h.setBuf (i := i) (x := { c.buffers i with linkNo := (c.buffers i).linkNo - 1 })
    (y := { b.buffers i with linkNo := (b.buffers i).linkNo - 1 })
    ⟨hi.dev, hi.blockNo, hi.data, congrArg (· - 1) hi.linkNo⟩ (h.valid i) (h.read i)
  have hring : (BufferCache.dropLink b i).ring = (BufferCache.dropLink c i).ring := by
    simp only [BufferCache.dropLink, hi.linkNo]
    split <;> simp [h.ring, Cache.setBuf]
  refine ⟨hring, ?_, ?_, ?_⟩
  · rw [dropLink_buffers, dropLink_buffers]
    exact hset.agree
  · rw [dropLink_buffers, dropLink_buffers]
    exact hset.valid
  · rw [dropLink_buffers]
    exact hset.read

theorem SameBuffers.recycle (h : SameBuffers read c b) (hi : ¬ read i) (dev blockNo : BitVec 32) :
    SameBuffers read (recycle c i dev blockNo) (recycle b i dev blockNo) := by
  have ha := h.agree i
  exact h.setBuf ⟨rfl, rfl, ha.data, congrArg (· + 1) ha.linkNo⟩ (fun _ => rfl)
    fun hr => absurd hr hi

theorem SameBuffers.setData (h : SameBuffers read c b) (i : Fin 30) (data : Block) :
    SameBuffers read (c.setBuf i { c.buffers i with data := data })
      (b.setBuf i { b.buffers i with data := data }) := by
  have hi := h.agree i
  exact h.setBuf ⟨hi.dev, hi.blockNo, rfl, hi.linkNo⟩ (h.valid i) (h.read i)

theorem SameBuffers.fill {read' : Fin 30 → Prop} (h : SameBuffers read c b) (data : Block)
    (hread : ∀ j, read' j ↔ j = i ∨ read j) :
    SameBuffers read' (c.setBuf i { c.buffers i with data := data })
      (b.setBuf i { b.buffers i with data := data, valid := true }) := by
  refine ⟨h.ring, fun j => ?_, fun j hj => ?_, fun j hj => ?_⟩
  · have hj := h.agree j
    by_cases hij : j = i
    · subst hij
      rw [setBuf_self, setBuf_self]
      exact ⟨hj.dev, hj.blockNo, rfl, hj.linkNo⟩
    · rwa [setBuf_of_ne _ _ hij, setBuf_of_ne _ _ hij]
  · obtain ⟨hij, hr⟩ := not_or.mp ((hread j).not.mp hj)
    rw [setBuf_of_ne _ _ hij, setBuf_of_ne _ _ hij]
    exact h.valid j hr
  · by_cases hij : j = i
    · subst hij
      rw [setBuf_self]
    · rw [setBuf_of_ne _ _ hij]
      exact h.read j (((hread j).mp hj).resolve_left hij)

theorem SameBuffers.validate {read' : Fin 30 → Prop} (h : SameBuffers read c b) (hi : read i)
    (hread : ∀ j, read' j → read j) (hkeep : ∀ j, read j → j = i ∨ read' j) :
    SameBuffers read' (c.setBuf i { c.buffers i with valid := true }) b := by
  refine ⟨h.ring, fun j => ?_, fun j hj => ?_, fun j hj => h.read j (hread j hj)⟩
  · have hj := h.agree j
    by_cases hij : j = i
    · subst hij
      rw [setBuf_self]
      exact ⟨hj.dev, hj.blockNo, hj.data, hj.linkNo⟩
    · rwa [setBuf_of_ne _ _ hij]
  · by_cases hij : j = i
    · subst hij
      rw [setBuf_self]
      exact h.read j hi
    · rw [setBuf_of_ne _ _ hij]
      exact h.valid j fun hr => hj ((hkeep j hr).resolve_left hij)

end SameBuffers

end Raynix.StorageStack
