import Raynix.KernelMachine

namespace Raynix.KernelSwitch

open Raynix.Kernel Raynix.Lib.Command

/-- The kernel and who is on its harts. `off` has the threads that have left their hart in
`enter_sched` or have not run yet, and `running u` is the thread that thread `u` has switched to in
`scheduler`. The locks of a thread that does not run are those that it will find. -/
structure State where
  kernel : Kernel.State
  off : Nat → Bool
  running : Nat → Option Nat

/-- A step of the kernel without a switch, a call of `give_up`, the switch of the scheduler of
thread `u` to thread `t`, and the way back. -/
inductive Act
  | kernel (a : Kernel.Act)
  | giveUp (t : Nat)
  | dispatch (u t : Nat)
  | leave (t u : Nat)

def State.suspended (s : State) (t : Nat) : Bool := s.off t || (s.running t).isSome

def State.locks (s : State) (t : Nat) : Locks := (s.kernel.thread t).locks

def State.stack (s : State) (t : Nat) : Stack Data Prim Fn Value := (s.kernel.thread t).stack

def State.nextOp (s : State) (t : Nat) : Option Prim :=
  match advance s.kernel.data (s.stack t) with
  | some (.op o _) => some o
  | _ => none

/-- The thread is at the `swtch` of `scheduler`. -/
def State.switches (s : State) (t : Nat) : Prop := s.nextOp t = some .swtch

/-- The thread is in `enter_sched` and gets to its `swtch`. -/
def State.leaves (s : State) (t : Nat) : Prop :=
  s.nextOp t = some .enterSched ∧ (s.locks t).layer = 1

instance (s : State) (t : Nat) : Decidable (s.switches t) :=
  inferInstanceAs (Decidable (_ = _))

instance (s : State) (t : Nat) : Decidable (s.leaves t) :=
  inferInstanceAs (Decidable (_ ∧ _))

/-- Thread `t` has the process whose lock thread `u` holds. -/
def State.selects (s : State) (cur : Nat → Option (Fin 64)) (u t : Nat) : Bool :=
  match cur t with
  | some p => decide (Splk.proc p ∈ (s.locks u).held)
  | none => false

/-- Whoever does the step is on a hart and does not switch. -/
def State.stays (s : State) : Kernel.Act → Bool
  | .call t _ => !s.suspended t
  | .run t => !s.suspended t && !decide (s.switches t) && !decide (s.leaves t)
  | .uart _ _ | .disk _ => true

/-- The lock of a process goes with the hart, from its scheduler to the process and back. -/
def step (m : Macros) (cur : Nat → Option (Fin 64)) (s : State) : Act → Option State
  | .kernel a =>
    if s.stays a then (Kernel.step m cur s.kernel a).map fun k => { s with kernel := k } else none
  | .giveUp t =>
    match s.stack t with
    | [] =>
      if s.suspended t then none
      else some { s with
        kernel := s.kernel.setThread t ⟨[.cmd (giveUp (cur t))], s.locks t, s.locks t⟩ }
    | _ => none
  | .dispatch u t =>
    if s.suspended u = false ∧ s.switches u ∧ s.off t ∧ s.selects cur u t then
      (Kernel.step m cur s.kernel (.run u)).map fun k =>
        { kernel := k
          off := Function.update s.off t false
          running := Function.update s.running u (some t) }
    else none
  | .leave t u =>
    if s.suspended t = false ∧ s.leaves t ∧ s.running u = some t then
      (Kernel.step m cur s.kernel (.run t)).map fun k =>
        { kernel := k
          off := Function.update s.off t true
          running := Function.update s.running u none }
    else none

/-- The locks that a thread holds: one that does not run holds none. -/
def heldBy (s : State) (t : Nat) : Multiset Splk := if s.suspended t then 0 else (s.locks t).held

def wants (s : State) (t : Nat) : Option Splk :=
  match s.nextOp t with
  | some (.take lock) => if s.suspended t then none else some lock
  | _ => none

/-- Where a process that has not run yet starts. -/
def firstRun (p : Fin 64) : Stack Data Prim Fn Value := [.cmd (release (.proc p))]

variable {m : Macros} {cur : Nat → Option (Fin 64)} {s s' : State} {t u : Nat}

theorem suspended_of_off (h : s.off t) : s.suspended t := by
  rw [State.suspended, h]
  rfl

theorem suspended_of_running (h : s.running u = some t) : s.suspended u := by
  rw [State.suspended, h]
  exact Bool.or_true _

theorem suspended_eq_false : s.suspended t = false ↔ s.off t = false ∧ s.running t = none := by
  rw [State.suspended, Bool.or_eq_false_iff, Option.isSome_eq_false_iff, Option.isNone_iff_eq_none]

theorem nextOp_eq_some {o : Prim} (h : s.nextOp t = some o) :
    ∃ st, advance s.kernel.data (s.stack t) = some (.op o st) := by
  unfold State.nextOp at h
  split at h
  case h_1 o' st hadvance =>
    cases h
    exact ⟨st, hadvance⟩
  case h_2 => cases h

theorem run_op {k : Kernel.State} {o : Prim} {st : Stack Data Prim Fn Value}
    (h : advance k.data (k.thread t).stack = some (.op o st)) :
    Kernel.step m cur k (.run t) = some (k.perform t o st) := by
  simp only [Kernel.step, h]

theorem wants_eq_some {lock : Splk} (h : wants s t = some lock) :
    s.suspended t = false ∧
      ∃ st, advance s.kernel.data (s.stack t) = some (.op (.take lock) st) := by
  unfold wants at h
  split at h
  case h_1 lock' hop =>
    split at h
    · cases h
    · rename_i hs
      cases h
      exact ⟨Bool.eq_false_iff.mpr hs, nextOp_eq_some hop⟩
  case h_2 => cases h

theorem step_kernel {a : Kernel.Act} (h : step m cur s (.kernel a) = some s') :
    s.stays a ∧ ∃ k, Kernel.step m cur s.kernel a = some k ∧ s' = { s with kernel := k } := by
  simp only [step] at h
  split at h
  case isTrue hstays =>
    obtain ⟨k, hk, rfl⟩ := Option.map_eq_some_iff.mp h
    exact ⟨hstays, k, hk, rfl⟩
  case isFalse => cases h

theorem step_giveUp (h : step m cur s (.giveUp t) = some s') :
    s.stack t = [] ∧ s.suspended t = false ∧ s' = { s with
      kernel := s.kernel.setThread t ⟨[.cmd (giveUp (cur t))], s.locks t, s.locks t⟩ } := by
  simp only [step] at h
  split at h
  case h_1 hstack =>
    split at h
    · cases h
    · rename_i hs
      cases h
      exact ⟨hstack, Bool.eq_false_iff.mpr hs, rfl⟩
  case h_2 => cases h

/-- The thread at `swtch` or in `enter_sched` goes on with `st` when it runs again. -/
def resumeWith (k : Kernel.State) (t : Nat) (st : Stack Data Prim Fn Value) : Kernel.State :=
  k.setThread t { k.thread t with stack := st }

theorem step_dispatch (h : step m cur s (.dispatch u t) = some s') :
    s.suspended u = false ∧ s.off t ∧ s.selects cur u t ∧
      ∃ st, advance s.kernel.data (s.stack u) = some (.op .swtch st) ∧
        s' = ⟨resumeWith s.kernel u st, Function.update s.off t false,
          Function.update s.running u (some t)⟩ := by
  simp only [step] at h
  split at h
  case isTrue hd =>
    obtain ⟨hu, hswitch, ht, hselects⟩ := hd
    obtain ⟨st, hadvance⟩ := nextOp_eq_some hswitch
    obtain ⟨k, hk, rfl⟩ := Option.map_eq_some_iff.mp h
    obtain rfl := Option.some.inj ((run_op hadvance).symm.trans hk)
    exact ⟨hu, ht, hselects, st, hadvance, rfl⟩
  case isFalse => cases h

theorem step_leave (h : step m cur s (.leave t u) = some s') :
    s.suspended t = false ∧ s.running u = some t ∧ (s.locks t).layer = 1 ∧
      ∃ st, advance s.kernel.data (s.stack t) = some (.op .enterSched st) ∧
        s' = ⟨resumeWith s.kernel t st, Function.update s.off t true,
          Function.update s.running u none⟩ := by
  simp only [step] at h
  split at h
  case isTrue hd =>
    obtain ⟨ht, ⟨hop, hlayer⟩, hu⟩ := hd
    obtain ⟨st, hadvance⟩ := nextOp_eq_some hop
    obtain ⟨k, hk, rfl⟩ := Option.map_eq_some_iff.mp h
    obtain rfl := Option.some.inj ((run_op hadvance).symm.trans hk)
    exact ⟨ht, hu, hlayer, st, hadvance, rfl⟩
  case isFalse => cases h

theorem thread_of_suspended {a : Kernel.Act} {k : Kernel.State} (hstays : s.stays a)
    (h : Kernel.step m cur s.kernel a = some k) (ht : s.suspended t) :
    k.thread t = s.kernel.thread t := by
  obtain h | ⟨f, rfl, -⟩ | ⟨d, st, rfl, -⟩ | ⟨o, st, rfl, -⟩ := step_thread h t
  · exact h
  all_goals simp [State.stays, ht] at hstays

end Raynix.KernelSwitch
