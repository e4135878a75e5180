import Mathlib.Logic.Function.Basic
import Raynix.Lib.Transition

namespace Raynix.Lib.DeviceProtocol

open Raynix.Lib.Transition

/-- A read of a register with the value found, or a write. -/
inductive Access (R : Type)
  | read (r : R) (v : BitVec 32)
  | write (r : R) (v : BitVec 32)

/-- A routine over the state `σ` of its kernel and the registers `R` of a device, which ends with a
value or stops with a message. -/
inductive Routine (σ R α : Type)
  | done (a : α)
  | stop (msg : String)
  | read (r : R) (k : BitVec 32 → Routine σ R α)
  | write (r : R) (v : BitVec 32) (k : Routine σ R α)
  | get (k : σ → Routine σ R α)
  | set (s : σ) (k : Routine σ R α)

variable {σ R α β D P : Type}

def Routine.bind : Routine σ R α → (α → Routine σ R β) → Routine σ R β
  | .done a, k => k a
  | .stop msg, _ => .stop msg
  | .read r c, k => .read r fun v => (c v).bind k
  | .write r v c, k => .write r v (c.bind k)
  | .get c, k => .get fun s => (c s).bind k
  | .set s c, k => .set s (c.bind k)

instance monadRoutine : Monad (Routine σ R) where
  pure := .done
  bind := .bind

def read (r : R) : Routine σ R (BitVec 32) := .read r .done

def write (r : R) (v : BitVec 32) : Routine σ R Unit := .write r v (.done ())

def stopIf (b : Prop) [Decidable b] (msg : String) : Routine σ R Unit :=
  if b then .stop msg else .done ()

/-- A step of the kernel alone. -/
def kernel (f : σ → α × σ) : Routine σ R α := .get fun s => .set (f s).2 (.done (f s).1)

/-- A device with states `D`: what a read finds, and what an access makes of the device. -/
structure Device (D R : Type) where
  read : R → D → BitVec 32 × D
  write : R → BitVec 32 → D → D

/-- How a routine has ended, with the state of the kernel and the accesses it has made. -/
structure Outcome (σ R α : Type) where
  result : Except String α
  state : σ
  accesses : List (Access R)

def Outcome.after (a : Access R) (o : Outcome σ R α) : Outcome σ R α :=
  { o with accesses := a :: o.accesses }

/-- The routine has ended in `Q`, or stopped in `E`. -/
structure Outcome.Ends (o : Outcome σ R α) (Q : α → σ → Prop) (E : σ → Prop) : Prop where
  ok : ∀ a, o.result = .ok a → Q a o.state
  error : ∀ msg, o.result = .error msg → E o.state

def Routine.run (dev : Device D R) : Routine σ R α → σ → D → Outcome σ R α
  | .done a, s, _ => ⟨.ok a, s, []⟩
  | .stop msg, s, _ => ⟨.error msg, s, []⟩
  | .read r k, s, d => ((k (dev.read r d).1).run dev s (dev.read r d).2).after
      (.read r (dev.read r d).1)
  | .write r v k, s, d => (k.run dev s (dev.write r v d)).after (.write r v)
  | .get k, s, d => (k s).run dev s d
  | .set s k, _, d => k.run dev s d

/-- Whatever the device answers, the routine keeps to the protocol `next` and ends in `Q`, or stops
in `E`. -/
def Obeys (next : P → Access R → Option P) (Q : α → σ → P → Prop) (E : σ → P → Prop) :
    Routine σ R α → σ → P → Prop
  | .done a, s, p => Q a s p
  | .stop _, s, p => E s p
  | .read r k, s, p => ∀ v, ∃ p', next p (.read r v) = some p' ∧ Obeys next Q E (k v) s p'
  | .write r v k, s, p => ∃ p', next p (.write r v) = some p' ∧ Obeys next Q E k s p'
  | .get k, s, p => Obeys next Q E (k s) s p
  | .set s k, _, p => Obeys next Q E k s p

variable {next : P → Access R → Option P} {Q Q' : α → σ → P → Prop} {S : β → σ → P → Prop}
  {E : σ → P → Prop} {s : σ} {p : P}

theorem Obeys.mono {c : Routine σ R α} (h : Obeys next Q E c s p)
    (hQ : ∀ a s p, Q a s p → Q' a s p) : Obeys next Q' E c s p := by
  induction c generalizing s p with
  | done a => exact hQ a s p h
  | stop msg => exact h
  | read r k ih =>
    intro v
    obtain ⟨p', hp', hk⟩ := h v
    exact ⟨p', hp', ih v hk⟩
  | write r v k ih =>
    obtain ⟨p', hp', hk⟩ := h
    exact ⟨p', hp', ih hk⟩
  | get k ih => exact ih s h
  | set s k ih => exact ih h

theorem Obeys.bind {c : Routine σ R α} {k : α → Routine σ R β} (h : Obeys next Q E c s p)
    (hk : ∀ a s p, Q a s p → Obeys next S E (k a) s p) : Obeys next S E (c >>= k) s p := by
  change Obeys next S E (c.bind k) s p
  induction c generalizing s p with
  | done a => exact hk a s p h
  | stop msg => exact h
  | read r c ih =>
    intro v
    obtain ⟨p', hp', hc⟩ := h v
    exact ⟨p', hp', ih v hc⟩
  | write r v c ih =>
    obtain ⟨p', hp', hc⟩ := h
    exact ⟨p', hp', ih hc⟩
  | get c ih => exact ih s h
  | set s c ih => exact ih h

section Rules

variable {r : R}

theorem obeys_done {a : α} (h : Q a s p) : Obeys next Q E (pure a) s p := h

theorem obeys_read {k : BitVec 32 → Routine σ R α}
    (h : ∀ v, ∃ p', next p (.read r v) = some p' ∧ Obeys next Q E (k v) s p') :
    Obeys next Q E (read r >>= k) s p :=
  h

theorem obeys_write {v : BitVec 32} {k : Unit → Routine σ R α} {p' : P}
    (hp : next p (.write r v) = some p') (h : Obeys next Q E (k ()) s p') :
    Obeys next Q E (write r v >>= k) s p :=
  ⟨p', hp, h⟩

theorem obeys_kernel {f : σ → β × σ} {k : β → Routine σ R α}
    (h : Obeys next Q E (k (f s).1) (f s).2 p) : Obeys next Q E (kernel f >>= k) s p :=
  h

theorem obeys_stopIf {b : Prop} [Decidable b] {msg : String} {k : Unit → Routine σ R α}
    (hb : b → E s p) (h : ¬ b → Obeys next Q E (k ()) s p) :
    Obeys next Q E (stopIf b msg >>= k) s p := by
  by_cases hc : b
  · rw [stopIf, if_pos hc]
    exact hb hc
  · rw [stopIf, if_neg hc]
    exact h hc

theorem obeys_stopIf_last {b : Prop} [Decidable b] {msg : String} {Q : Unit → σ → P → Prop}
    (hb : b → E s p) (h : ¬ b → Q () s p) :
    Obeys next Q E (stopIf b msg : Routine σ R Unit) s p := by
  by_cases hc : b
  · rw [stopIf, if_pos hc]
    exact hb hc
  · rw [stopIf, if_neg hc]
    exact h hc

end Rules

/-- A routine that keeps to the protocol does so on every device. -/
theorem Obeys.run {c : Routine σ R α} (h : Obeys next Q E c s p) (dev : Device D R) (d : D) :
    ∃ p', Transition.run next p (c.run dev s d).accesses = some p' ∧
      (c.run dev s d).Ends (fun a s => Q a s p') (fun s => E s p') := by
  induction c generalizing s p d with
  | done a =>
    refine ⟨p, rfl, fun b hb => ?_, fun msg hmsg => by cases hmsg⟩
    cases hb
    exact h
  | stop msg =>
    refine ⟨p, rfl, fun b hb => (by cases hb), fun msg' hmsg => ?_⟩
    cases hmsg
    exact h
  | read r k ih =>
    obtain ⟨p', hp', hk⟩ := h (dev.read r d).1
    obtain ⟨p'', hrun, hend⟩ := ih _ hk (dev.read r d).2
    exact ⟨p'', run_cons_eq_some.mpr ⟨p', hp', hrun⟩, hend.ok, hend.error⟩
  | write r v k ih =>
    obtain ⟨p', hp', hk⟩ := h
    obtain ⟨p'', hrun, hend⟩ := ih hk (dev.write r v d)
    exact ⟨p'', run_cons_eq_some.mpr ⟨p', hp', hrun⟩, hend.ok, hend.error⟩
  | get k ih => exact ih s h d
  | set s k ih => exact ih h d

end Raynix.Lib.DeviceProtocol
