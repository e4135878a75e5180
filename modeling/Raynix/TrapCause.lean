import Raynix.Lib.Memory
import Raynix.Spinlock

namespace Raynix.TrapCause

open Raynix.Lib.Memory Raynix.Spinlock

def timerInter : BitVec 32 := 1

def externalInter : BitVec 32 := 2

def sysCall : BitVec 32 := 3

def getInterType (scause : Word) : BitVec 32 :=
  if scause &&& 0x8000000000000000 ≠ 0 ∧ scause &&& 0xff = 9 then externalInter
  else if scause = 0x8000000000000001 then timerInter
  else if scause = 8 then sysCall
  else -1

/-- The cases of the two `switch` statements. -/
inductive Arm
  | sysCall
  | timer
  | external
  deriving DecidableEq

/-- The `switch` of `user_trap`: its labels are codes of `get_inter_type`, but it is on `scause`. -/
def userTrapArm (scause : Word) : Option Arm :=
  if scause = sysCall.signExtend 64 then some .sysCall
  else if scause = timerInter.signExtend 64 then some .timer
  else none

/-- `check_open_interrupts`, where `read_sstatus` stands for its call. -/
def checkOpenInterrupts (sstatus : Word) : BitVec 32 := if sstatus &&& sstatusSie ≠ 0 then 1 else 0

/-- `kernel_trap`: the case of its `switch`, if it is not the empty `default`. -/
def kernelTrapArm (sstatus scause : Word) : Option Arm :=
  if checkOpenInterrupts sstatus = 0 then
    let type := getInterType scause
    if type = timerInter then some .timer
    else if type = externalInter then some .external
    else none
  else none

/-- The two handlers take `scause` for what `get_inter_type` takes it for. -/
structure SameDispatch (sstatus scause : Word) : Prop where
  sysCall : userTrapArm scause = some .sysCall ↔ scause = 8
  timer : userTrapArm scause = some .timer ↔ scause = 0x8000000000000001
  same : userTrapArm scause = some .timer ↔ kernelTrapArm sstatus scause = some .timer
  rejected : getInterType scause = -1 →
    userTrapArm scause = none ∧ kernelTrapArm sstatus scause = none

theorem userTrapArm_eq (c : Word) : userTrapArm c =
    if c = 3 then some .sysCall else if c = 1 then some .timer else none := rfl

theorem userTrapArm_sysCall (c : Word) : userTrapArm c = some .sysCall ↔ c = 3 := by
  rw [userTrapArm_eq]
  split
  case isTrue h3 => exact iff_of_true rfl h3
  case isFalse h3 =>
    refine iff_of_false (fun h => ?_) h3
    split at h <;> cases h

theorem userTrapArm_timer (c : Word) : userTrapArm c = some .timer ↔ c = 1 := by
  rw [userTrapArm_eq]
  split
  case isTrue h3 =>
    subst h3
    decide
  case isFalse h3 =>
    split
    case isTrue h1 => exact iff_of_true rfl h1
    case isFalse h1 => exact iff_of_false (fun h => by cases h) h1

theorem userTrapArm_none {c : Word} (h3 : c ≠ 3) (h1 : c ≠ 1) : userTrapArm c = none := by
  rw [userTrapArm_eq, if_neg h3, if_neg h1]

theorem getInterType_timer (c : Word) : getInterType c = timerInter ↔ c = 0x8000000000000001 := by
  have hext : externalInter ≠ timerInter := by decide
  have hsys : sysCall ≠ timerInter := by decide
  have hneg : (-1 : BitVec 32) ≠ timerInter := by decide
  constructor
  · intro h
    simp only [getInterType] at h
    split at h
    · exact absurd h hext
    · split at h
      · assumption
      · split at h
        · exact absurd h hsys
        · exact absurd h hneg
  · rintro rfl
    decide

/-- In a trap, with interrupts off, the kernel's arms are the classes of `get_inter_type`. -/
theorem kernelTrapArm_eq {sstatus : Word} (hoff : sstatus &&& sstatusSie = 0) (c : Word) :
    kernelTrapArm sstatus c =
      if getInterType c = timerInter then some .timer
      else if getInterType c = externalInter then some .external
      else none :=
  if_pos (if_neg fun h => h hoff)

theorem kernelTrapArm_timer {sstatus c : Word} (h : kernelTrapArm sstatus c = some .timer) :
    getInterType c = timerInter := by
  by_cases hoff : sstatus &&& sstatusSie = 0
  · rw [kernelTrapArm_eq hoff] at h
    by_contra htimer
    rw [if_neg htimer] at h
    by_cases hext : getInterType c = externalInter <;> simp [hext] at h
  · have hopen : checkOpenInterrupts sstatus ≠ 0 := by
      rw [checkOpenInterrupts, if_pos hoff]
      decide
    rw [kernelTrapArm, if_neg hopen] at h
    cases h

theorem kernelTrapArm_rejected {sstatus c : Word} (h : getInterType c = -1) :
    kernelTrapArm sstatus c = none := by
  have htimer : (-1 : BitVec 32) ≠ timerInter := by decide
  have hexternal : (-1 : BitVec 32) ≠ externalInter := by decide
  simp only [kernelTrapArm, h]
  rw [if_neg htimer, if_neg hexternal, ite_self]

/-- `user_trap` takes the codes 3 and 1 for the causes 8 and 2^63 + 1: the dispatch agrees on all
other causes. -/
theorem sameDispatch_iff (sstatus scause : Word) : SameDispatch sstatus scause ↔
    scause ≠ 1 ∧ scause ≠ 3 ∧ scause ≠ 8 ∧ scause ≠ 0x8000000000000001 := by
  constructor
  · intro h
    have hsys := h.sysCall
    have htimer := h.timer
    rw [userTrapArm_sysCall] at hsys
    rw [userTrapArm_timer] at htimer
    refine ⟨?_, ?_, ?_, ?_⟩
    · rintro rfl
      exact absurd (htimer.mp rfl) (by decide)
    · rintro rfl
      exact absurd (hsys.mp rfl) (by decide)
    · rintro rfl
      exact absurd (hsys.mpr rfl) (by decide)
    · rintro rfl
      exact absurd (htimer.mpr rfl) (by decide)
  · rintro ⟨h1, h3, h8, hmax⟩
    have huser := userTrapArm_none h3 h1
    refine ⟨?_, ?_, ?_, fun hrej => ⟨huser, kernelTrapArm_rejected hrej⟩⟩
    · rw [userTrapArm_sysCall]
      exact iff_of_false h3 h8
    · rw [userTrapArm_timer]
      exact iff_of_false h1 hmax
    · rw [userTrapArm_timer]
      refine iff_of_false h1 fun hkernel => hmax ?_
      exact (getInterType_timer scause).mp (kernelTrapArm_timer hkernel)

/-- A system call is dropped. -/
theorem ecall_notSameDispatch : ¬ SameDispatch 0 8 := by
  intro h
  exact absurd (h.sysCall.mpr rfl) (by decide)

end Raynix.TrapCause
