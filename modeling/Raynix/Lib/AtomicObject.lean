import Mathlib.Logic.Function.Basic

namespace Raynix.Lib.AtomicObject

variable {T O C E : Type*}

/-- Objects `O` with operations `C`, which the surroundings may change in the ways `E`. -/
structure Object (O C E : Type*) where
  act : C → O → O
  change : E → O → O

/-- A thread calls an operation, its call takes effect, it returns, or the object is changed from
outside. -/
inductive Event (T C E : Type*)
  | call (t : T) (c : C)
  | act (t : T)
  | ret (t : T)
  | change (e : E)

/-- All but that a call takes effect can be seen. -/
def Event.visible : Event T C E → Bool
  | .act _ => false
  | _ => true

/-- The object, and the call that each thread is in, with whether it has taken effect. -/
@[ext]
structure State (T O C : Type*) where
  object : O
  calls : T → Option (C × Bool)

variable [DecidableEq T]

/-- Every call takes effect once, at one moment between its start and its return. -/
def step (ob : Object O C E) (s : State T O C) : Event T C E → Option (State T O C)
  | .call t c =>
    match s.calls t with
    | none => some { s with calls := Function.update s.calls t (some (c, false)) }
    | some _ => none
  | .act t =>
    match s.calls t with
    | some (c, false) => some ⟨ob.act c s.object, Function.update s.calls t (some (c, true))⟩
    | _ => none
  | .ret t =>
    match s.calls t with
    | some (_, true) => some { s with calls := Function.update s.calls t none }
    | _ => none
  | .change e => some { s with object := ob.change e s.object }

variable {ob : Object O C E} {s s' : State T O C} {t : T} {c : C}

theorem step_call (h : s.calls t = none) : step ob s (.call t c) =
    some { s with calls := Function.update s.calls t (some (c, false)) } := by
  rw [step, h]

theorem step_act (h : s.calls t = some (c, false)) : step ob s (.act t) =
    some ⟨ob.act c s.object, Function.update s.calls t (some (c, true))⟩ := by
  rw [step, h]

theorem step_ret (h : s.calls t = some (c, true)) : step ob s (.ret t) =
    some { s with calls := Function.update s.calls t none } := by
  rw [step, h]

theorem of_step_call (h : step ob s (.call t c) = some s') : s.calls t = none ∧
    s' = { s with calls := Function.update s.calls t (some (c, false)) } := by
  cases hc : s.calls t with
  | none =>
    rw [step_call hc] at h
    exact ⟨rfl, (Option.some.inj h).symm⟩
  | some x =>
    rw [step, hc] at h
    cases h

theorem of_step_act (h : step ob s (.act t) = some s') : ∃ c, s.calls t = some (c, false) ∧
    s' = ⟨ob.act c s.object, Function.update s.calls t (some (c, true))⟩ := by
  rw [step] at h
  split at h
  case h_1 c hc =>
    cases h
    exact ⟨c, hc, rfl⟩
  case h_2 => cases h

theorem of_step_ret (h : step ob s (.ret t) = some s') : ∃ c, s.calls t = some (c, true) ∧
    s' = { s with calls := Function.update s.calls t none } := by
  rw [step] at h
  split at h
  case h_1 c hc =>
    cases h
    exact ⟨c, hc, rfl⟩
  case h_2 => cases h

end Raynix.Lib.AtomicObject
