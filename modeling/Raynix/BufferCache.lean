import Mathlib.Algebra.GroupWithZero.Nat
import Mathlib.Data.List.FinRange
import Raynix.Lib.LinkedRing
import Raynix.Lib.Transition

namespace Raynix.BufferCache

open Raynix.Lib.LinkedRing

abbrev Block := Fin 1024 → BitVec 8

instance neZero_buffers : NeZero 30 := ⟨by decide⟩

/-- The nodes of the list of buffers: `cache.head` and the elements of `buffers`. -/
inductive Node
  | head
  | buf (i : Fin 30)
  deriving DecidableEq

/-- `struct buf` without its links and its sleeplock. -/
structure Buf where
  valid : Bool
  blockNo : BitVec 32
  dev : BitVec 32
  data : Block
  linkNo : BitVec 32

structure Cache where
  buffers : Fin 30 → Buf
  ring : Links Node

def Cache.setBuf (c : Cache) (i : Fin 30) (b : Buf) : Cache :=
  { c with buffers := Function.update c.buffers i b }

def binitLoop (cursor : Node) : List (Fin 30) → Links Node → Node × Links Node
  | [], r => (cursor, r)
  | i :: is, r => binitLoop (.buf i) is (r.link cursor (.buf i))

/-- `binit` on the pointers. The locks it initialises are taken as free and correct. -/
def binit (c : Cache) : Cache :=
  let r := c.ring.link .head (.buf 0)
  let (cursor, r) := binitLoop (.buf 0) (List.finRange 30).tail r
  { c with ring := r.link cursor .head }

/-- The pointer writes of `brelease`, in its order. -/
def relink (r : Links Node) (buffer : Node) : Links Node :=
  let r := r.setNext (r.prior buffer) (r.next buffer)
  let r := r.setPrior (r.next buffer) (r.prior buffer)
  let r := r.setNext buffer (r.next .head)
  let r := r.setPrior buffer .head
  r.setNext .head buffer

/-- What `brelease` does under the cache lock. -/
def dropLink (c : Cache) (i : Fin 30) : Cache :=
  let b := { c.buffers i with linkNo := (c.buffers i).linkNo - 1 }
  let c := c.setBuf i b
  if b.linkNo = 0 then { c with ring := relink c.ring (.buf i) } else c

/-- The hit of `bget`: one more reference. -/
def addLink (c : Cache) (i : Fin 30) : Cache :=
  c.setBuf i { c.buffers i with linkNo := (c.buffers i).linkNo + 1 }

/-- The eviction of `bget`: the buffer is handed to another block. -/
def recycle (c : Cache) (i : Fin 30) (dev blockNo : BitVec 32) : Cache :=
  c.setBuf i { c.buffers i with
    dev := dev, blockNo := blockNo, valid := false, linkNo := (c.buffers i).linkNo + 1 }

@[simp]
theorem setBuf_self (c : Cache) (i : Fin 30) (b : Buf) : (c.setBuf i b).buffers i = b :=
  Function.update_self _ _ _

@[simp]
theorem setBuf_of_ne (c : Cache) {i j : Fin 30} (b : Buf) (h : j ≠ i) :
    (c.setBuf i b).buffers j = c.buffers j :=
  Function.update_of_ne h _ _

theorem dropLink_buffers (c : Cache) (i : Fin 30) : (dropLink c i).buffers =
    (c.setBuf i { c.buffers i with linkNo := (c.buffers i).linkNo - 1 }).buffers := by
  rw [dropLink]
  split <;> rfl

def Buf.Caches (b : Buf) (dev blockNo : BitVec 32) : Prop := b.dev = dev ∧ b.blockNo = blockNo

instance (b : Buf) (dev blockNo : BitVec 32) : Decidable (b.Caches dev blockNo) :=
  inferInstanceAs (Decidable (_ ∧ _))

/-- Where a process stands in `bget`, `bread` or `brelease`. From `find` to `acquire` it holds
the cache lock; `reading` tells whether `bget` was called by `bread`. -/
inductive Pc
  | idle
  | enter (reading : Bool) (dev blockNo : BitVec 32)
  | find (reading : Bool) (dev blockNo : BitVec 32) (cursor : Node)
  | evict (reading : Bool) (dev blockNo : BitVec 32) (cursor : Node)
  | lost
  | acquire (reading : Bool) (dev blockNo : BitVec 32) (i : Fin 30)
  | check (dev blockNo : BitVec 32) (i : Fin 30)
  | fill (dev blockNo : BitVec 32) (i : Fin 30)
  | releasing (i : Fin 30)
  deriving DecidableEq

/-- A completed `bwrite`. -/
structure Written where
  dev : BitVec 32
  blockNo : BitVec 32
  data : Block

/-- The cache, the locks, the one disk and the processes `P`. `dirty` and `written` are ghost:
the buffers modified since their last transfer, and the completed `bwrite`s, latest first. -/
structure State (P : Type) where
  cache : Cache
  cacheLock : Option P
  sleepLock : Fin 30 → Option P
  disk : BitVec 32 → Block
  pc : P → Pc
  dirty : Fin 30 → Bool
  written : List Written

inductive Act (P : Type)
  | bget (p : P) (reading : Bool) (dev blockNo : BitVec 32)
  | lock (p : P)
  | run (p : P)
  | modify (p : P) (i : Fin 30) (data : Block)
  | bwrite (p : P) (i : Fin 30)
  | brelease (p : P) (i : Fin 30)

variable {P : Type} [DecidableEq P]

def State.goto (s : State P) (p : P) (pc : Pc) : State P :=
  { s with pc := Function.update s.pc p pc }

/-- One step of a process inside `bget` or `bread`. `virtio_disk_rw` is an exact transfer. -/
def runStep (s : State P) (p : P) : Pc → Option (State P)
  | .find reading dev blockNo .head =>
    some (s.goto p (.evict reading dev blockNo (s.cache.ring.prior .head)))
  | .find reading dev blockNo (.buf i) =>
    if (s.cache.buffers i).Caches dev blockNo then
      some { s.goto p (.acquire reading dev blockNo i) with cache := addLink s.cache i }
    else some (s.goto p (.find reading dev blockNo (s.cache.ring.next (.buf i))))
  -- The second loop of `bget` never moves its cursor, and nothing follows it.
  | .evict _ _ _ .head => some (s.goto p .lost)
  | .evict reading dev blockNo (.buf i) =>
    if (s.cache.buffers i).linkNo = 0 then
      some { s.goto p (.acquire reading dev blockNo i) with
        cache := recycle s.cache i dev blockNo }
    else some s
  | .acquire reading dev blockNo i =>
    if s.sleepLock i = none then
      some { s.goto p (if reading then .check dev blockNo i else .idle) with
        sleepLock := Function.update s.sleepLock i (some p), cacheLock := none }
    else none
  | .check dev blockNo i =>
    some (s.goto p (if (s.cache.buffers i).valid then .idle else .fill dev blockNo i))
  | .fill _ _ i =>
    let b := s.cache.buffers i
    some { s.goto p .idle with
      cache := s.cache.setBuf i { b with data := s.disk b.blockNo, valid := true } }
  | _ => none

/-- One atomic step: a call, taking the cache lock, an iteration of a loop of `bget`, a disk
transfer, or a change of the data of a held buffer. `brelease` may be called on any buffer that
is referenced. -/
def step (s : State P) : Act P → Option (State P)
  | .bget p reading dev blockNo =>
    if s.pc p = .idle then some (s.goto p (.enter reading dev blockNo)) else none
  | .lock p =>
    if s.cacheLock = none then
      match s.pc p with
      | .enter reading dev blockNo =>
        some { s.goto p (.find reading dev blockNo (s.cache.ring.next .head)) with
          cacheLock := some p }
      | .releasing i => some { s.goto p .idle with cache := dropLink s.cache i }
      | _ => none
    else none
  | .run p => runStep s p (s.pc p)
  | .modify p i data =>
    if s.pc p = .idle ∧ s.sleepLock i = some p then
      some { s with
        cache := s.cache.setBuf i { s.cache.buffers i with data := data }
        dirty := Function.update s.dirty i true }
    else none
  | .bwrite p i =>
    if s.pc p = .idle ∧ s.sleepLock i = some p then
      let b := s.cache.buffers i
      some { s with
        disk := Function.update s.disk b.blockNo b.data
        dirty := Function.update s.dirty i false
        written := ⟨b.dev, b.blockNo, b.data⟩ :: s.written }
    else none
  | .brelease p i =>
    if s.pc p = .idle ∧ (s.cache.buffers i).linkNo ≠ 0 then
      some { s.goto p (.releasing i) with sleepLock := Function.update s.sleepLock i none }
    else none

/-- The state `binit` builds: no reference, nothing valid, all locks free, all processes idle. -/
structure Booted (s : State P) : Prop where
  cache : ∃ c, s.cache = binit c
  buffers : ∀ i, (s.cache.buffers i).linkNo = 0 ∧ (s.cache.buffers i).valid = false
  cacheLock : s.cacheLock = none
  sleepLock : ∀ i, s.sleepLock i = none
  pc : ∀ p, s.pc p = .idle
  dirty : ∀ i, s.dirty i = false
  written : s.written = []

/-- The zeroed statics after `binit`, on a disk of zero blocks. -/
def bootState : State P where
  cache := binit ⟨fun _ => ⟨false, 0, 0, fun _ => 0, 0⟩, ⟨id, id⟩⟩
  cacheLock := none
  sleepLock _ := none
  disk _ _ := 0
  pc _ := .idle
  dirty _ := false
  written := []

omit [DecidableEq P] in
theorem bootState_booted : Booted (bootState : State P) :=
  ⟨⟨_, rfl⟩, fun _ => ⟨rfl, rfl⟩, rfl, fun _ => rfl, fun _ => rfl, fun _ => rfl, rfl⟩

/-- The steps case by case. -/
inductive Step (s : State P) : Act P → State P → Prop
  | enter (p reading dev blockNo) : s.pc p = .idle →
      Step s (.bget p reading dev blockNo) (s.goto p (.enter reading dev blockNo))
  | lock (p reading dev blockNo) : s.cacheLock = none → s.pc p = .enter reading dev blockNo →
      Step s (.lock p) { s.goto p (.find reading dev blockNo (s.cache.ring.next .head)) with
        cacheLock := some p }
  | drop (p i) : s.cacheLock = none → s.pc p = .releasing i →
      Step s (.lock p) { s.goto p .idle with cache := dropLink s.cache i }
  | miss (p reading dev blockNo) : s.pc p = .find reading dev blockNo .head →
      Step s (.run p) (s.goto p (.evict reading dev blockNo (s.cache.ring.prior .head)))
  | hit (p reading dev blockNo i) : s.pc p = .find reading dev blockNo (.buf i) →
      (s.cache.buffers i).Caches dev blockNo →
      Step s (.run p) { s.goto p (.acquire reading dev blockNo i) with cache := addLink s.cache i }
  | next (p reading dev blockNo i) : s.pc p = .find reading dev blockNo (.buf i) →
      ¬ (s.cache.buffers i).Caches dev blockNo →
      Step s (.run p) (s.goto p (.find reading dev blockNo (s.cache.ring.next (.buf i))))
  | lose (p reading dev blockNo) : s.pc p = .evict reading dev blockNo .head →
      Step s (.run p) (s.goto p .lost)
  | recycle (p reading dev blockNo i) : s.pc p = .evict reading dev blockNo (.buf i) →
      (s.cache.buffers i).linkNo = 0 →
      Step s (.run p) { s.goto p (.acquire reading dev blockNo i) with
        cache := recycle s.cache i dev blockNo }
  | spin (p reading dev blockNo i) : s.pc p = .evict reading dev blockNo (.buf i) →
      (s.cache.buffers i).linkNo ≠ 0 → Step s (.run p) s
  | acquire (p reading dev blockNo i) : s.pc p = .acquire reading dev blockNo i →
      s.sleepLock i = none →
      Step s (.run p) { s.goto p (if reading then .check dev blockNo i else .idle) with
        sleepLock := Function.update s.sleepLock i (some p), cacheLock := none }
  | check (p dev blockNo i) : s.pc p = .check dev blockNo i →
      Step s (.run p)
        (s.goto p (if (s.cache.buffers i).valid then .idle else .fill dev blockNo i))
  | fill (p dev blockNo i) : s.pc p = .fill dev blockNo i →
      Step s (.run p) { s.goto p .idle with
        cache := s.cache.setBuf i { s.cache.buffers i with
          data := s.disk (s.cache.buffers i).blockNo, valid := true } }
  | modify (p i data) : s.pc p = .idle → s.sleepLock i = some p →
      Step s (.modify p i data) { s with
        cache := s.cache.setBuf i { s.cache.buffers i with data := data }
        dirty := Function.update s.dirty i true }
  | bwrite (p i) : s.pc p = .idle → s.sleepLock i = some p →
      Step s (.bwrite p i) { s with
        disk := Function.update s.disk (s.cache.buffers i).blockNo (s.cache.buffers i).data
        dirty := Function.update s.dirty i false
        written := ⟨(s.cache.buffers i).dev, (s.cache.buffers i).blockNo,
          (s.cache.buffers i).data⟩ :: s.written }
  | brelease (p i) : s.pc p = .idle → (s.cache.buffers i).linkNo ≠ 0 →
      Step s (.brelease p i) { s.goto p (.releasing i) with
        sleepLock := Function.update s.sleepLock i none }

theorem step_run_cases {s t : State P} {p : P} {pc : Pc} (hpc : s.pc p = pc)
    (h : runStep s p pc = some t) : Step s (.run p) t := by
  cases pc with
  | idle | enter | lost | releasing => cases h
  | find reading dev blockNo cursor =>
    cases cursor with
    | head =>
      cases h
      exact .miss p reading dev blockNo hpc
    | buf i =>
      simp only [runStep] at h
      split at h
      case isTrue hc =>
        cases h
        exact .hit p reading dev blockNo i hpc hc
      case isFalse hc =>
        cases h
        exact .next p reading dev blockNo i hpc hc
  | evict reading dev blockNo cursor =>
    cases cursor with
    | head =>
      cases h
      exact .lose p reading dev blockNo hpc
    | buf i =>
      simp only [runStep] at h
      split at h
      case isTrue hl =>
        cases h
        exact .recycle p reading dev blockNo i hpc hl
      case isFalse hl =>
        cases h
        exact .spin p reading dev blockNo i hpc hl
  | acquire reading dev blockNo i =>
    simp only [runStep, Option.ite_none_right_eq_some, Option.some.injEq] at h
    obtain ⟨hs, rfl⟩ := h
    exact .acquire p reading dev blockNo i hpc hs
  | check dev blockNo i =>
    cases h
    exact .check p dev blockNo i hpc
  | fill dev blockNo i =>
    cases h
    exact .fill p dev blockNo i hpc

theorem step_cases {s t : State P} {a : Act P} (h : step s a = some t) : Step s a t := by
  cases a with
  | bget p reading dev blockNo =>
    simp only [step, Option.ite_none_right_eq_some, Option.some.injEq] at h
    obtain ⟨hpc, rfl⟩ := h
    exact .enter p reading dev blockNo hpc
  | lock p =>
    simp only [step, Option.ite_none_right_eq_some] at h
    obtain ⟨hl, h⟩ := h
    split at h
    case h_1 reading dev blockNo hpc =>
      cases h
      exact .lock p reading dev blockNo hl hpc
    case h_2 i hpc =>
      cases h
      exact .drop p i hl hpc
    case h_3 => cases h
  | run p => exact step_run_cases rfl h
  | modify p i data =>
    simp only [step, Option.ite_none_right_eq_some, Option.some.injEq] at h
    obtain ⟨⟨hpc, hs⟩, rfl⟩ := h
    exact .modify p i data hpc hs
  | bwrite p i =>
    simp only [step, Option.ite_none_right_eq_some, Option.some.injEq] at h
    obtain ⟨⟨hpc, hs⟩, rfl⟩ := h
    exact .bwrite p i hpc hs
  | brelease p i =>
    simp only [step, Option.ite_none_right_eq_some, Option.some.injEq] at h
    obtain ⟨⟨hpc, hn⟩, rfl⟩ := h
    exact .brelease p i hpc hn

end Raynix.BufferCache
