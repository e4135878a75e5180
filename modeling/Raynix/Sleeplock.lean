import Mathlib.Logic.Function.Basic
import Raynix.Lib.Transition

namespace Raynix.Sleeplock

open Raynix.Lib.Transition

/-- Where a process stands: outside, in `acquire_sleep` (asking for `splk`, at the test of its
loop, in `sleep`, or past the loop), past its return, or in `release_sleep`. -/
inductive Pc
  | idle
  | acquire
  | test
  | sleeping
  | take
  | holding
  | release
  | clear
  deriving DecidableEq

/-- One sleeplock and the processes `P` using it. `splk` is the holder of the inner spinlock. -/
structure State (P : Type) where
  splk : Option P
  holding : BitVec 32
  pc : P → Pc
  asleep : P → Bool

inductive Act (P : Type)
  | acquireSleep (p : P)
  | releaseSleep (p : P)
  | lock (p : P)
  | run (p : P)

variable {P : Type} [DecidableEq P]

def State.goto (s : State P) (p : P) (pc : Pc) : State P :=
  { s with pc := Function.update s.pc p pc }

def sleeplockInit (s : State P) : State P := { s with splk := none, holding := 0 }

/-- `sleep(sllk, &sllk->splk)` up to the point where the lock is to be retaken. -/
def sleep (s : State P) (p : P) : State P :=
  { s.goto p .sleeping with splk := none, asleep := Function.update s.asleep p true }

/-- `wakeup(sllk)` -/
def wakeup (s : State P) : State P := { s with asleep := fun _ => false }

def release (s : State P) (p : P) (pc : Pc) : State P := { s.goto p pc with splk := none }

/-- A call, the taking of `splk`, or the next step of a process that holds `splk`.
`release_sleep` is called by the holder only. -/
def step (s : State P) : Act P → Option (State P)
  | .acquireSleep p => if s.pc p = .idle then some (s.goto p .acquire) else none
  | .releaseSleep p => if s.pc p = .holding then some (s.goto p .release) else none
  | .lock p =>
    if s.splk = none then
      match s.pc p with
      | .acquire => some { s.goto p .test with splk := some p }
      | .sleeping => if s.asleep p then none else some { s.goto p .test with splk := some p }
      | .release => some { s.goto p .clear with splk := some p }
      | _ => none
    else none
  | .run p =>
    match s.pc p with
    | .test => some (if s.holding = 0 then sleep s p else s.goto p .take)
    | .take => some { release s p .holding with holding := 1 }
    | .clear => some (release (wakeup { s with holding := 0 }) p .idle)
    | _ => none

/-- `p` is past the return of `acquire_sleep`, and its `release_sleep` has not begun to act. -/
def Holds (s : State P) (p : P) : Prop := s.pc p = .holding ∨ s.pc p = .release

/-- At most one process holds the lock, and while `splk` is free `holding` is 1 exactly when one
does. -/
structure Exclusive (s : State P) : Prop where
  unique : ∀ p q, Holds s p → Holds s q → p = q
  word : s.splk = none → (s.holding = 1 ↔ ∃ p, Holds s p)

def Tests (s : State P) (a : Act P) (p : P) : Prop := a = .run p ∧ s.pc p = .test

/-- A process at the test goes to sleep only when another one holds the lock, and goes on when
nobody does. -/
def Prompt (s : State P) (a : Act P) : Prop :=
  ∀ p t, Tests s a p → step s a = some t →
    (t.pc p = .sleeping → ∃ q, q ≠ p ∧ Holds s q) ∧ ((∀ q, ¬ Holds s q) → t.pc p = .take)

/-- No call of `acquire_sleep` is at its test. -/
def NoTest (s : State P) (a : Act P) : Prop := ∀ p, ¬ Tests s a p

structure Stuck (s : State P) : Prop where
  holding : s.holding = 0
  pc : ∀ p, s.pc p = .idle ∨ s.pc p = .acquire ∨ s.pc p = .test ∨ s.pc p = .sleeping

omit [DecidableEq P] in
theorem Stuck.not_holds {s : State P} (hs : Stuck s) (p : P) : ¬ Holds s p := by
  rintro (h | h)
  all_goals
    have hp := hs.pc p
    simp [h] at hp

omit [DecidableEq P] in
theorem Stuck.exclusive {s : State P} (hs : Stuck s) : Exclusive s := by
  refine ⟨fun p q hp => absurd hp (hs.not_holds p), fun _ => iff_of_false ?_ ?_⟩
  · rw [hs.holding]
    decide
  · rintro ⟨p, hp⟩
    exact hs.not_holds p hp

theorem Stuck.goto {s t : State P} (hs : Stuck s) {p : P} {pc : Pc}
    (hpc : t.pc = Function.update s.pc p pc) (hh : t.holding = s.holding)
    (hnew : pc = .acquire ∨ pc = .test ∨ pc = .sleeping) : Stuck t := by
  refine ⟨hh.trans hs.holding, fun q => ?_⟩
  rw [hpc]
  by_cases hq : q = p
  · rw [hq, Function.update_self]
    exact .inr hnew
  · rw [Function.update_of_ne hq]
    exact hs.pc q

/-- The loop waits while `holding` is 0, and nobody ever gets past it. -/
theorem step_stuck {s t : State P} {a : Act P} (hs : Stuck s) (h : step s a = some t) :
    Stuck t := by
  cases a with
  | acquireSleep p =>
    simp only [step, Option.ite_none_right_eq_some, Option.some.injEq] at h
    obtain ⟨-, rfl⟩ := h
    exact hs.goto rfl rfl (by simp)
  | releaseSleep p =>
    simp only [step, Option.ite_none_right_eq_some, Option.some.injEq] at h
    exact absurd (.inl h.1) (hs.not_holds p)
  | lock p =>
    simp only [step, Option.ite_none_right_eq_some] at h
    obtain ⟨-, h⟩ := h
    split at h
    case h_1 =>
      cases h
      exact hs.goto rfl rfl (by simp)
    case h_2 =>
      simp only [Option.ite_none_left_eq_some, Option.some.injEq] at h
      obtain ⟨-, rfl⟩ := h
      exact hs.goto rfl rfl (by simp)
    case h_3 hpc => exact absurd (.inr hpc) (hs.not_holds p)
    case h_4 => cases h
  | run p =>
    simp only [step] at h
    split at h
    case h_1 =>
      rw [if_pos hs.holding] at h
      cases h
      exact hs.goto rfl rfl (by simp)
    case h_2 hpc =>
      have hp := hs.pc p
      simp [hpc] at hp
    case h_3 hpc =>
      have hp := hs.pc p
      simp [hpc] at hp
    case h_4 => cases h

theorem Stuck.not_prompt {s : State P} {a : Act P} (hs : Stuck s) {p : P} (hp : Tests s a p) :
    ¬ Prompt s a := by
  intro hprompt
  have hstep : step s a = some (sleep s p) := by
    obtain ⟨rfl, hpc⟩ := hp
    simp only [step, hpc, if_pos hs.holding]
  obtain ⟨q, -, hq⟩ := (hprompt p _ hp hstep).1 (Function.update_self ..)
  exact hs.not_holds q hq

theorem prompt_iff {s : State P} {a : Act P} (hs : Stuck s) : Prompt s a ↔ NoTest s a := by
  constructor
  · exact fun h p hp => hs.not_prompt hp h
  · exact fun h p t hp => absurd hp (h p)

/-- From `sleeplock_init` on, with no process inside the calls, the protocol is kept exactly as
long as no call of `acquire_sleep` gets to its test: the test is inverted, so that the first call
sleeps although nobody holds the lock. -/
theorem protocol_iff {s : State P} {as : List (Act P)} (hidle : ∀ p, s.pc p = .idle) :
    (Always step Exclusive (sleeplockInit s) as ∧ Meets step Prompt (sleeplockInit s) as) ↔
      Meets step NoTest (sleeplockInit s) as := by
  have hs : Stuck (sleeplockInit s) := ⟨rfl, fun p => .inl (hidle p)⟩
  have hiff : Meets step Prompt (sleeplockInit s) as ↔ Meets step NoTest (sleeplockInit s) as :=
    meets_iff_meets (fun _ _ _ hI _ ht => step_stuck hI ht) (fun _ _ hI => prompt_iff hI) hs
  rw [hiff]
  refine ⟨fun h => h.2, fun h => ⟨?_, h⟩⟩
  have halways : Always step Stuck (sleeplockInit s) as :=
    always_of_meets (fun _ _ _ hI _ ht => step_stuck hI ht) hs h
  exact halways.mono (fun t ht => ht.exclusive)

def oneProcess : State Unit := ⟨none, 0, fun _ => .idle, fun _ => false⟩

theorem protocol_iff_lock :
    (Always step Exclusive (sleeplockInit oneProcess) [.acquireSleep (), .lock ()] ∧
      Meets step Prompt (sleeplockInit oneProcess) [.acquireSleep (), .lock ()]) ↔
      Meets step NoTest (sleeplockInit oneProcess) [.acquireSleep (), .lock ()] :=
  protocol_iff (fun _ => rfl)

/-- The first call on a lock that nobody holds goes to sleep. -/
theorem not_protocol : ¬ ∀ (s : State Unit) (as : List (Act Unit)), (∀ p, s.pc p = .idle) →
    Always step Exclusive (sleeplockInit s) as ∧ Meets step Prompt (sleeplockInit s) as := by
  intro h
  have hprompt := (h oneProcess [.acquireSleep (), .lock (), .run ()] (fun _ => rfl)).2
  have htest := (hprompt.2 _ rfl).2 _ rfl
  obtain ⟨q, hne, -⟩ := (htest.1 () _ ⟨rfl, rfl⟩ rfl).1 rfl
  exact hne rfl

end Raynix.Sleeplock
