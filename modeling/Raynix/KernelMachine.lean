import Raynix.KernelCode
import Raynix.Lib.Transition

namespace Raynix.Kernel

open Raynix.Lib.Command

/-- The spinlocks that a thread holds and the `lock_layer` of the hart it runs on. -/
@[ext]
structure Locks where
  held : Multiset Splk
  layer : BitVec 32

/-- A thread of the kernel: what it still has to do, and its locks. `base` is ghost: its locks at
the call it executes. -/
structure Thread where
  stack : Stack Data Prim Fn Value
  locks : Locks
  base : Locks

/-- `words` are the lock words. `ready` and `returned` are ghost: the locks that a `spinlock_init`
has set, and the calls that have returned. -/
structure State where
  data : Data
  words : Splk → BitVec 32
  ready : Splk → Bool
  thread : Nat → Thread
  returned : List Fn

inductive Act
  | call (t : Nat) (f : Fn)
  | run (t : Nat)
  | uart (lsr rhr : BitVec 8)
  | disk (b : Fin 30)

def Locks.after (l : Locks) : Prim → Locks
  | .pushInterOff => { l with layer := l.layer + 1 }
  | .popInterOff => { l with layer := l.layer - 1 }
  | .take lock => { l with held := lock ::ₘ l.held }
  | .give lock => { l with held := l.held.erase lock }
  | _ => l

def State.setWord (s : State) (lock : Splk) (v : BitVec 32) : State :=
  { s with words := Function.update s.words lock v }

def State.setThread (s : State) (t : Nat) (x : Thread) : State :=
  { s with thread := Function.update s.thread t x }

/-- The effect of an operation on what the threads share. -/
def State.effect (s : State) : Prim → State
  | .take lock => s.setWord lock 0
  | .give lock => s.setWord lock 1
  | .init lock => { s.setWord lock 1 with ready := Function.update s.ready lock true }
  | .copy p t => s.setWord (.cursor t) (s.words (.proc p))
  | .exit f _ => { s with returned := f :: s.returned }
  | _ => s

/-- Thread `t` does an operation and goes on with `st`. A process that `enter_sched` takes off its
hart is resumed by a scheduler that holds the lock of the process and nothing else: it finds its
locks, and the layer 1 without which it is not taken off, as they were. -/
def State.perform (s : State) (t : Nat) (o : Prim) (st : Stack Data Prim Fn Value) : State :=
  let x := s.thread t
  match o with
  | .take lock =>
    if s.words lock = 0 then s
    else (s.effect o).setThread t { x with stack := st, locks := x.locks.after o }
  | _ => (s.effect o).setThread t { x with stack := st, locks := x.locks.after o }

/-- The stack of a thread that has just called `f`. -/
def entry (m : Macros) (t : Nat) (cur : Option (Fin 64)) (f : Fn) : Stack Data Prim Fn Value :=
  [.cmd (.call f (code m t cur f) fun v => .op (.exit f v))]

/-- A thread outside all functions calls one, a thread does its next step, or a device changes its
registers or completes the transfer of a buffer. Thread `t` gets `cur t` from `cur_proc()`. -/
def step (m : Macros) (cur : Nat → Option (Fin 64)) (s : State) : Act → Option State
  | .call t f =>
    let x := s.thread t
    match x.stack with
    | [] => some (s.setThread t ⟨entry m t (cur t) f, x.locks, x.locks⟩)
    | _ => none
  | .run t =>
    let x := s.thread t
    match advance s.data x.stack with
    | none => none
    | some (.inner d st) => some { s.setThread t { x with stack := st } with data := d }
    | some (.op o st) => some (s.perform t o st)
  | .uart lsr rhr => some { s with data := { s.data with lsr := lsr, rhr := rhr } }
  | .disk b =>
    some { s with data := { s.data with bufDisk := Function.update s.data.bufDisk b 0 } }

/-- Thread `t` is about to do the operation, inside some calls. -/
def AtOp (s : State) (a : Act) (t : Nat) (ns : List Fn) (o : Prim) : Prop :=
  a = .run t ∧ ∃ st, advance s.data (s.thread t).stack = some (.op o st) ∧ path st = ns

/-- The statics before anything has run. -/
def zeroData : Data where
  procs _ := ⟨.unused, none, 0⟩
  phys := Kalloc.boot fun _ => 0
  cache := ⟨fun _ => ⟨false, 0, 0, fun _ => 0, 0⟩, ⟨id, id⟩⟩
  holding _ := 0
  bufDisk _ := 0
  pipes _ := ⟨fun _ => 0, 0, 0, 0, 0⟩
  log := ⟨0, 0, 0⟩
  uart := ⟨fun _ => 0, 0, 0, false, [], []⟩
  lsr := 0
  rhr := 0
  disk := ⟨fun _ => 0, fun _ => 0, fun _ => 0, fun _ => none⟩
  cursor _ := ⟨.unused, none, 0⟩
  idx _ _ := 0
  nxt _ := 0
  outerI _ := 0

def someMacros : Macros := ⟨10, 8, 1, 2, 0x80008000, 0x80007000⟩

def noLocks : Locks := ⟨0, 0⟩

/-- All threads outside the functions and without a lock, and all lock words `word`. -/
def idleState (d : Data) (word : BitVec 32) : State :=
  ⟨d, fun _ => word, fun _ => false, fun _ => ⟨[], noLocks, noLocks⟩, []⟩

variable {m : Macros} {cur : Nat → Option (Fin 64)} {s s' : State} {a : Act} {t : Nat}

theorem setThread_self (s : State) (t : Nat) (x : Thread) : (s.setThread t x).thread t = x :=
  Function.update_self ..

theorem setThread_of_ne (s : State) {t u : Nat} (x : Thread) (h : u ≠ t) :
    (s.setThread t x).thread u = s.thread u :=
  Function.update_of_ne h ..

theorem effect_thread (s : State) (o : Prim) : (s.effect o).thread = s.thread := by
  cases o <;> rfl

theorem perform_thread (s : State) (t u : Nat) (o : Prim) (st : Stack Data Prim Fn Value) :
    (s.perform t o st).thread u = s.thread u ∨
      u = t ∧ (s.perform t o st).thread u =
        { s.thread u with stack := st, locks := (s.thread u).locks.after o } := by
  have hdone : ((s.effect o).setThread t
      { s.thread t with stack := st, locks := (s.thread t).locks.after o }).thread u = s.thread u ∨
      u = t ∧ ((s.effect o).setThread t
        { s.thread t with stack := st, locks := (s.thread t).locks.after o }).thread u =
          { s.thread u with stack := st, locks := (s.thread u).locks.after o } := by
    by_cases hu : u = t
    · rw [hu, setThread_self]
      exact .inr ⟨rfl, rfl⟩
    · rw [setThread_of_ne _ _ hu, effect_thread]
      exact .inl rfl
  cases o with
  | take lock =>
    simp only [State.perform]
    split
    · exact .inl rfl
    · exact hdone
  | _ => exact hdone

/-- What a step does to one thread: nothing, a call, a step inside its code or an operation. -/
theorem step_thread (h : step m cur s a = some s') (t : Nat) :
    s'.thread t = s.thread t ∨
    (∃ f, a = .call t f ∧ (s.thread t).stack = [] ∧ s'.thread t =
      ⟨entry m t (cur t) f, (s.thread t).locks, (s.thread t).locks⟩) ∨
    (∃ d st, a = .run t ∧ advance s.data (s.thread t).stack = some (.inner d st) ∧
      s'.thread t = { s.thread t with stack := st }) ∨
    ∃ o st, a = .run t ∧ advance s.data (s.thread t).stack = some (.op o st) ∧
      s'.thread t = { s.thread t with stack := st, locks := (s.thread t).locks.after o } := by
  cases a with
  | call u f =>
    simp only [step] at h
    split at h
    case h_1 hstack =>
      cases h
      by_cases ht : t = u
      · subst ht
        rw [setThread_self]
        exact .inr (.inl ⟨f, rfl, hstack, rfl⟩)
      · exact .inl (setThread_of_ne _ _ ht)
    case h_2 => cases h
  | run u =>
    simp only [step] at h
    split at h
    case h_1 => cases h
    case h_2 d st hadvance =>
      cases h
      by_cases ht : t = u
      · subst ht
        exact .inr (.inr (.inl ⟨d, st, rfl, hadvance, setThread_self ..⟩))
      · exact .inl (setThread_of_ne _ _ ht)
    case h_3 o st hadvance =>
      cases h
      obtain h | ⟨rfl, h⟩ := perform_thread s u t o st
      · exact .inl h
      · exact .inr (.inr (.inr ⟨o, st, rfl, hadvance, h⟩))
  | uart lsr rhr | disk b =>
    cases h
    exact .inl rfl

theorem step_call {f : Fn} (h : step m cur s (.call t f) = some s') :
    (s.thread t).stack = [] ∧
      s'.thread t = ⟨entry m t (cur t) f, (s.thread t).locks, (s.thread t).locks⟩ := by
  simp only [step] at h
  split at h
  case h_1 hstack =>
    cases h
    exact ⟨hstack, setThread_self ..⟩
  case h_2 => cases h

theorem entry_safe {π : Type} {spec : Spec Prim Fn π} {last : π → Prop} {m : Macros}
    {cur : Option (Fin 64)} {f : Fn} {p : π}
    (h : wlp spec (code m t cur f) [f] ⟨spec.pre [] (.exit f none) last, fun _ => False,
      fun v => spec.pre [] (.exit f (some v)) last⟩ p) : Safe spec last (entry m t cur f) p :=
  h

end Raynix.Kernel
