import Mathlib.Logic.Function.Basic
import Mathlib.Tactic.Common
import Raynix.Lib.Transition

namespace Raynix.LogAdmission

open Raynix.Lib.Transition

structure Params where
  logSize : Int
  maxOpBlocks : Int
  pos : 0 < maxOpBlocks
  fits : maxOpBlocks ≤ logSize

/-- `struct log` but for its lock and the block numbers. -/
structure Log where
  blockSize : Int
  isCommitting : Int
  onExcuting : Int

/-- Where a process stands in `begain_op`: in `acquire`, in the loop with the lock held, in `sleep`
with the lock released, and returned. A process that is woken takes the lock again. -/
inductive Pc
  | idle
  | acquire
  | check
  | sleep
  | returned
  deriving DecidableEq

structure State (P : Type) where
  log : Log
  splk : Option P
  pc : P → Pc

/-- A process calls, takes the lock, makes a round of the loop, is woken or has finished its system
call. `other` is another function of the log, under its lock. -/
inductive Act (P : Type)
  | begainOp (p : P)
  | lock (p : P)
  | check (p : P)
  | wake (p : P)
  | leave (p : P)
  | other (log : Log)

variable (k : Params)

/-- The blocks written or reserved do not exceed the log. -/
def Bound (l : Log) : Prop := l.blockSize + l.onExcuting * k.maxOpBlocks ≤ k.logSize

instance (l : Log) : Decidable (Bound k l) := inferInstanceAs (Decidable (_ ≤ _))

def needed (l : Log) : Int := l.blockSize + (l.onExcuting + 1) * k.maxOpBlocks

variable {P : Type} [DecidableEq P]

def State.goto (s : State P) (p : P) (pc : Pc) : State P :=
  { s with pc := Function.update s.pc p pc }

def round (s : State P) (p : P) : State P :=
  if s.log.isCommitting ≠ 0 then { s.goto p .sleep with splk := none }
  -- The comparison with `LOGSIZE` is missing.
  else if needed k s.log ≠ 0 then { s.goto p .sleep with splk := none }
  else { s.goto p .returned with
    log := { s.log with onExcuting := s.log.onExcuting + 1 }
    splk := none }

def step (s : State P) : Act P → Option (State P)
  | .begainOp p => if s.pc p = .idle then some (s.goto p .acquire) else none
  | .lock p =>
    if s.pc p = .acquire ∧ s.splk = none then some { s.goto p .check with splk := some p } else none
  | .check p => if s.pc p = .check then some (round k s p) else none
  | .wake p => if s.pc p = .sleep then some (s.goto p .acquire) else none
  | .leave p => if s.pc p = .returned then some (s.goto p .idle) else none
  | .other log => if s.splk = none ∧ Bound k log then some { s with log := log } else none

/-- No commit is running, and the log has room for one more operation. -/
def Room (l : Log) : Prop := l.isCommitting = 0 ∧ needed k l ≤ k.logSize

instance (l : Log) : Decidable (Room k l) := inferInstanceAs (Decidable (_ ∧ _))

/-- The round that leads `p` from `s` to `t` admits it if there is room and puts it to sleep if
not. -/
structure Decides (s t : State P) (p : P) : Prop where
  splk : t.splk = none
  admits : Room k s.log →
    t.pc p = .returned ∧ t.log = { s.log with onExcuting := s.log.onExcuting + 1 }
  sleeps : ¬ Room k s.log → t.pc p = .sleep ∧ t.log = s.log

def Admission (s : State P) (a : Act P) : Prop :=
  ∀ p t, a = .check p → step k s a = some t → Decides k s t p

/-- A check finds a commit running, no room, or a sum of exactly 0. -/
def Full (s : State P) (a : Act P) : Prop :=
  ∀ p, a = .check p → s.pc p = .check →
    s.log.isCommitting ≠ 0 ∨ k.logSize < needed k s.log ∨ needed k s.log = 0

variable {k} {s t : State P} {p : P} {a : Act P}

theorem round_splk (s : State P) (p : P) : (round k s p).splk = none := by
  rw [round]
  split
  · rfl
  · split <;> rfl

theorem round_sleeps (h : s.log.isCommitting ≠ 0 ∨ needed k s.log ≠ 0) :
    (round k s p).pc p = .sleep ∧ (round k s p).log = s.log := by
  have hsleep : round k s p = { s.goto p .sleep with splk := none } := by
    rw [round]
    by_cases hc : s.log.isCommitting = 0
    · rw [if_neg (fun hn => hn hc), if_pos (h.resolve_left fun hn => hn hc)]
    · rw [if_pos hc]
  rw [hsleep]
  exact ⟨Function.update_self .., rfl⟩

theorem round_admits (hc : s.log.isCommitting = 0) (hn : needed k s.log = 0) :
    (round k s p).pc p = .returned ∧
      (round k s p).log = { s.log with onExcuting := s.log.onExcuting + 1 } := by
  rw [round, if_neg (fun h => h hc), if_neg (fun h => h hn)]
  exact ⟨Function.update_self .., rfl⟩

theorem bound_admitted (l : Log) :
    Bound k { l with onExcuting := l.onExcuting + 1 } ↔ needed k l ≤ k.logSize := Iff.rfl

theorem logSize_pos (k : Params) : 0 < k.logSize := Int.lt_of_lt_of_le k.pos k.fits

theorem step_bound (hs : Bound k s.log) (h : step k s a = some t) : Bound k t.log := by
  cases a with
  | check p =>
    simp only [step, Option.ite_none_right_eq_some, Option.some.injEq] at h
    obtain ⟨-, rfl⟩ := h
    by_cases hfull : s.log.isCommitting ≠ 0 ∨ needed k s.log ≠ 0
    · rw [(round_sleeps hfull).2]
      exact hs
    · rw [not_or, not_ne_iff, not_ne_iff] at hfull
      rw [(round_admits hfull.1 hfull.2).2, bound_admitted, hfull.2]
      exact Int.le_of_lt (logSize_pos k)
  | other log =>
    simp only [step, Option.ite_none_right_eq_some, Option.some.injEq] at h
    obtain ⟨⟨-, hlog⟩, rfl⟩ := h
    exact hlog
  | begainOp p | lock p | wake p | leave p =>
    simp only [step, Option.ite_none_right_eq_some, Option.some.injEq] at h
    obtain ⟨-, rfl⟩ := h
    exact hs

theorem admission_iff_full : Admission k s a ↔ Full k s a := by
  constructor
  · intro h p ha hpc
    subst ha
    by_contra hroom
    rw [not_or, not_or, not_ne_iff] at hroom
    obtain ⟨hc, hle, hne⟩ := hroom
    have hstep : step k s (.check p) = some (round k s p) := if_pos hpc
    have hadmits := (h p _ rfl hstep).admits ⟨hc, Int.not_lt.mp hle⟩
    have hsleep := (round_sleeps (p := p) (.inr hne)).1
    exact absurd (hsleep.symm.trans hadmits.1) (by decide)
  · intro h p t ha hstep
    subst ha
    simp only [step, Option.ite_none_right_eq_some, Option.some.injEq] at hstep
    obtain ⟨hpc, rfl⟩ := hstep
    refine ⟨round_splk s p, fun hroom => ?_, fun hroom => ?_⟩
    · obtain hc | hlt | hz := h p rfl hpc
      · exact absurd hroom.1 hc
      · exact absurd hroom.2 (Int.not_le.mpr hlt)
      · exact round_admits hroom.1 hz
    · refine round_sleeps ?_
      by_contra hboth
      rw [not_or, not_ne_iff, not_ne_iff] at hboth
      refine hroom ⟨hboth.1, ?_⟩
      rw [hboth.2]
      exact Int.le_of_lt (logSize_pos k)

/-- Whatever the processes do, the log is never over-committed. They are admitted as they should be
exactly as long as no check finds an idle log with room, for which the code would admit them only
at a sum of 0. -/
theorem admission_iff (hs : Bound k s.log) (as : List (Act P)) :
    Meets (step k) (Admission k) s as ∧ Always (step k) (fun s => Bound k s.log) s as ↔
      Meets (step k) (Full k) s as := by
  have hbound : Always (step k) (fun s => Bound k s.log) s as :=
    always_of_meets (fun _ _ _ hs _ h => step_bound hs h) hs meets_true
  have hiff : Meets (step k) (Admission k) s as ↔ Meets (step k) (Full k) s as :=
    meets_iff_meets (I := fun _ => True) (fun _ _ _ _ _ _ => trivial)
      (fun _ _ _ => admission_iff_full) trivial
  rw [hiff]
  exact and_iff_left hbound

/-- A log of 30 blocks, of which an operation reserves 10. -/
def thirty : Params := ⟨30, 10, by decide, by decide⟩

def idleLog : State Nat := ⟨⟨0, 0, 0⟩, none, fun _ => .idle⟩

def call : List (Act Nat) := [.begainOp 0, .lock 0, .check 0]

theorem admission_iff_idleLog :
    Meets (step thirty) (Admission thirty) idleLog call ∧
      Always (step thirty) (fun s => Bound thirty s.log) idleLog call ↔
        Meets (step thirty) (Full thirty) idleLog call :=
  admission_iff (by decide) call

/-- A call on an idle log with room for three operations is put to sleep. -/
theorem idleLog_sleeps : Bound thirty idleLog.log ∧
    ¬ Meets (step thirty) (Admission thirty) idleLog call := by
  refine ⟨by decide, fun h => ?_⟩
  obtain ⟨-, h⟩ := h
  obtain ⟨-, h⟩ := h _ rfl
  obtain ⟨h, -⟩ := h _ rfl
  have hadmits := (h 0 _ rfl rfl).admits (by decide)
  exact absurd hadmits.1 (by decide)

end Raynix.LogAdmission
