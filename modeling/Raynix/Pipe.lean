import Mathlib.Algebra.GroupWithZero.Nat
import Mathlib.Logic.Function.Basic
import Raynix.Lib.Transition

namespace Raynix.Pipe

abbrev Byte := BitVec 8
abbrev Addr := BitVec 64

instance neZero_pipesize : NeZero 512 := ⟨by decide⟩

/-- The two sleep channels, `&pi->read_cursor` and `&pi->write_cursor`. -/
inductive Channel
  | readCursor
  | writeCursor
  deriving DecidableEq

/-- Where a process stands in `pipe_write` or `pipe_read`. Between `write` and `read` steps it
holds `pipe_lock`; the `Lock` and `Sleep` points wait for it. -/
inductive Pc
  | idle
  | writeLock (startAddr : Addr) (len : Int)
  | write (startAddr : Addr) (len : Int) (i : Nat)
  | writeSleep (startAddr : Addr) (len : Int) (i : Nat)
  | readLock (target : Addr) (len : Int)
  | readWait (target : Addr) (len : Int)
  | readSleep (target : Addr) (len : Int)
  | read (target : Addr) (len : Int) (i : Nat)
  deriving DecidableEq

/-- One pipe and the processes `P` using it. `mem` is the memory of each process; `stored` and
`taken` are ghost, the bytes put into and got from the buffer so far. -/
structure State (P : Type) where
  pipeLock : Option P
  buffer : Fin 512 → Byte
  readCursor : BitVec 32
  writeCursor : BitVec 32
  writeable : BitVec 32
  readable : BitVec 32
  pc : P → Pc
  asleep : P → Option Channel
  returned : P → BitVec 32
  mem : P → Addr → Byte
  stored : List Byte
  taken : List Byte

inductive Act (P : Type)
  | pipeWrite (p : P) (startAddr : Addr) (len : Int)
  | pipeRead (p : P) (target : Addr) (len : Int)
  | lock (p : P)
  | run (p : P)
  | ret (p : P) (i : BitVec 32)

variable {P : Type}

/-- The process that acts. -/
def Act.proc : Act P → P
  | .pipeWrite p _ _ | .pipeRead p _ _ | .lock p | .run p | .ret p _ => p

variable [DecidableEq P]

/-- `cursor % PIPESIZE` -/
def slot (cursor : BitVec 32) : Fin 512 := Fin.ofNat 512 (cursor % 512).toNat

def State.goto (s : State P) (p : P) (pc : Pc) : State P :=
  { s with pc := Function.update s.pc p pc }

theorem goto_pc (s : State P) (p : P) (pc : Pc) : (s.goto p pc).pc p = pc := by
  simp only [State.goto, Function.update_self]

def wakeup (s : State P) (channel : Channel) : State P :=
  { s with asleep := fun p => if s.asleep p = some channel then none else s.asleep p }

/-- `sleep(channel, &pi->pipe_lock)` up to the point where the lock is to be retaken. -/
def sleep (s : State P) (p : P) (channel : Channel) (pc : Pc) : State P :=
  { s.goto p pc with pipeLock := none, asleep := Function.update s.asleep p (some channel) }

def release (s : State P) (p : P) : State P := { s.goto p .idle with pipeLock := none }

def acquire (s : State P) (p : P) (pc : Pc) : State P :=
  { s.goto p pc with pipeLock := some p, asleep := Function.update s.asleep p none }

/-- `pipe_write` at the head of its loop. -/
def writeStep (s : State P) (p : P) (startAddr : Addr) (len : Int) (i : Nat) : State P :=
  if i < len then
    if s.readable = 0 then release s p
    else if (s.writeCursor + 1) % 512 = s.readCursor then
      sleep (wakeup s .readCursor) p .writeCursor (.writeSleep startAddr len i)
    else
      let cur := s.mem p (startAddr + BitVec.ofNat 64 i)
      { s.goto p (.write startAddr len (i + 1)) with
        writeCursor := s.writeCursor + 1
        buffer := Function.update s.buffer (slot (s.writeCursor + 1)) cur
        stored := s.stored ++ [cur] }
  else release (wakeup s .readCursor) p

/-- `pipe_read` in its wait loop. -/
def readWaitStep (s : State P) (p : P) (target : Addr) (len : Int) : State P :=
  if s.readCursor = s.writeCursor ∧ s.writeable ≠ 0 then
    sleep s p .readCursor (.readSleep target len)
  else s.goto p (.read target len 0)

/-- `pipe_read` in the body of its copy loop. -/
def readStep (s : State P) (p : P) (target : Addr) (len : Int) (i : Nat) : State P :=
  let cur := s.buffer (slot s.readCursor)
  { s.goto p (.read target len (i + 1)) with
    readCursor := s.readCursor + 1
    mem := Function.update s.mem p
      (Function.update (s.mem p) (target + BitVec.ofNat 64 i) cur)
    taken := s.taken ++ [cur] }

/-- One atomic step of process `p`: a call, taking `pipe_lock`, an iteration of a loop under the
lock, or the return of `pipe_read`. A sleeper may retake the lock at any time. -/
def step (s : State P) : Act P → Option (State P)
  | .pipeWrite p startAddr len =>
    if s.pc p = .idle then some (s.goto p (.writeLock startAddr len)) else none
  | .pipeRead p target len =>
    if s.pc p = .idle then some (s.goto p (.readLock target len)) else none
  | .lock p =>
    if s.pipeLock = none then
      match s.pc p with
      | .writeLock startAddr len => some (acquire s p (.write startAddr len 0))
      -- The loop counter moves on also after a sleep that stored nothing.
      | .writeSleep startAddr len i => some (acquire s p (.write startAddr len (i + 1)))
      | .readLock target len => some (acquire s p (.readWait target len))
      | .readSleep target len => some (acquire s p (.readWait target len))
      | _ => none
    else none
  | .run p =>
    match s.pc p with
    | .write startAddr len i => some (writeStep s p startAddr len i)
    | .readWait target len => some (readWaitStep s p target len)
    | .read target len i =>
      if i < len ∧ s.readCursor ≠ s.writeCursor then some (readStep s p target len i) else none
    | _ => none
  | .ret p i =>
    match s.pc p with
    -- The `i` returned is the outer one, which the loop's own `i` hides and nothing assigns.
    | .read _ len j =>
      if j < len ∧ s.readCursor ≠ s.writeCursor then none
      else some { release (wakeup s .writeCursor) p with
        returned := Function.update s.returned p i }
    | _ => none

/-- `p` is about to store a byte: it is in the loop of `pipe_write` and finds room. -/
def Stores (s : State P) (p : P) : Prop :=
  ∃ startAddr len i, s.pc p = .write startAddr len i ∧ i < len ∧ s.readable ≠ 0 ∧
    (s.writeCursor + 1) % 512 ≠ s.readCursor

/-- `p` is about to take a byte: it is in the copy loop of `pipe_read` and finds one. -/
def Takes (s : State P) (p : P) : Prop :=
  ∃ target len i, s.pc p = .read target len i ∧ i < len ∧ s.readCursor ≠ s.writeCursor

/-- A step keeps the ring buffer and the history, stores one byte or takes one byte. -/
theorem step_ring {s t : State P} {a : Act P} (h : step s a = some t) :
    (t.buffer = s.buffer ∧ t.readCursor = s.readCursor ∧ t.writeCursor = s.writeCursor ∧
      t.stored = s.stored ∧ t.taken = s.taken) ∨
    (∃ p b, a = .run p ∧ Stores s p ∧ t.readCursor = s.readCursor ∧
      t.writeCursor = s.writeCursor + 1 ∧
      t.buffer = Function.update s.buffer (slot (s.writeCursor + 1)) b ∧
      t.stored = s.stored ++ [b] ∧ t.taken = s.taken) ∨
    (∃ p, a = .run p ∧ Takes s p ∧ t.readCursor = s.readCursor + 1 ∧
      t.writeCursor = s.writeCursor ∧ t.buffer = s.buffer ∧ t.stored = s.stored ∧
      t.taken = s.taken ++ [s.buffer (slot s.readCursor)]) := by
  cases a with
  | pipeWrite p startAddr len | pipeRead p startAddr len =>
    simp only [step, Option.ite_none_right_eq_some, Option.some.injEq] at h
    obtain ⟨_, rfl⟩ := h
    exact .inl ⟨rfl, rfl, rfl, rfl, rfl⟩
  | lock p =>
    simp only [step, Option.ite_none_right_eq_some] at h
    obtain ⟨_, h⟩ := h
    split at h <;> cases h
    all_goals exact .inl ⟨rfl, rfl, rfl, rfl, rfl⟩
  | run p =>
    simp only [step] at h
    split at h
    case h_1 startAddr len i hpc =>
      cases h
      unfold writeStep
      split
      case isTrue hi =>
        split
        case isTrue => exact .inl ⟨rfl, rfl, rfl, rfl, rfl⟩
        case isFalse hr =>
          split
          case isTrue => exact .inl ⟨rfl, rfl, rfl, rfl, rfl⟩
          case isFalse hf =>
            exact .inr (.inl ⟨p, _, rfl, ⟨startAddr, len, i, hpc, hi, hr, hf⟩, rfl, rfl, rfl, rfl,
              rfl⟩)
      case isFalse => exact .inl ⟨rfl, rfl, rfl, rfl, rfl⟩
    case h_2 target len hpc =>
      cases h
      unfold readWaitStep
      split <;> exact .inl ⟨rfl, rfl, rfl, rfl, rfl⟩
    case h_3 target len i hpc =>
      simp only [Option.ite_none_right_eq_some, Option.some.injEq] at h
      obtain ⟨⟨hi, hr⟩, rfl⟩ := h
      exact .inr (.inr ⟨p, rfl, ⟨target, len, i, hpc, hi, hr⟩, rfl, rfl, rfl, rfl, rfl⟩)
    case h_4 => cases h
  | ret p i =>
    simp only [step] at h
    split at h
    · split at h
      · cases h
      · cases h
        exact .inl ⟨rfl, rfl, rfl, rfl, rfl⟩
    · cases h

theorem step_others {s t : State P} {a : Act P} (h : step s a = some t) :
    t.readable = s.readable ∧ t.writeable = s.writeable ∧ ∀ p, p ≠ a.proc →
      t.pc p = s.pc p ∧ t.mem p = s.mem p ∧ t.returned p = s.returned p := by
  cases a with
  | pipeWrite q startAddr len | pipeRead q startAddr len =>
    simp only [step, Option.ite_none_right_eq_some, Option.some.injEq] at h
    obtain ⟨-, rfl⟩ := h
    exact ⟨rfl, rfl, fun p hp => ⟨Function.update_of_ne hp _ _, rfl, rfl⟩⟩
  | lock q =>
    simp only [step, Option.ite_none_right_eq_some] at h
    obtain ⟨-, h⟩ := h
    split at h <;> cases h
    all_goals exact ⟨rfl, rfl, fun p hp => ⟨Function.update_of_ne hp _ _, rfl, rfl⟩⟩
  | run q =>
    simp only [step] at h
    split at h
    case h_1 startAddr len i hpc =>
      cases h
      unfold writeStep
      split
      case isTrue =>
        split
        case isTrue => exact ⟨rfl, rfl, fun p hp => ⟨Function.update_of_ne hp _ _, rfl, rfl⟩⟩
        case isFalse =>
          split <;> exact ⟨rfl, rfl, fun p hp => ⟨Function.update_of_ne hp _ _, rfl, rfl⟩⟩
      case isFalse => exact ⟨rfl, rfl, fun p hp => ⟨Function.update_of_ne hp _ _, rfl, rfl⟩⟩
    case h_2 target len hpc =>
      cases h
      unfold readWaitStep
      split <;> exact ⟨rfl, rfl, fun p hp => ⟨Function.update_of_ne hp _ _, rfl, rfl⟩⟩
    case h_3 target len i hpc =>
      simp only [Option.ite_none_right_eq_some, Option.some.injEq] at h
      obtain ⟨-, rfl⟩ := h
      exact ⟨rfl, rfl, fun p hp =>
        ⟨Function.update_of_ne hp _ _, Function.update_of_ne hp _ _, rfl⟩⟩
    case h_4 => cases h
  | ret q i =>
    simp only [step] at h
    split at h
    · split at h
      · cases h
      · cases h
        exact ⟨rfl, rfl, fun p hp =>
          ⟨Function.update_of_ne hp _ _, rfl, Function.update_of_ne hp _ _⟩⟩
    · cases h

end Raynix.Pipe
