import Mathlib.Algebra.GroupWithZero.Nat
import Mathlib.Logic.Function.Basic
import Raynix.Lib.Transition

namespace Raynix.Uart

abbrev Byte := BitVec 8

instance neZero_tBuffer : NeZero 32 := ⟨by decide⟩

/-- The transmit queue. `sending` tells that a call is in the loop of `uart_send`, holding
`uart_tx_lock`; `given` and `sent` are ghost, the bytes given to `uart_input` and those written to
THR so far. -/
structure State where
  tBuffer : Fin 32 → Byte
  wTbufferCursor : BitVec 64
  rTbufferCursor : BitVec 64
  sending : Bool
  given : List Byte
  sent : List Byte

inductive Act
  | uartInput (c : BitVec 32)
  | uartInter
  | send (lsr : Byte)

def slot (cursor : BitVec 64) : Fin 32 := Fin.ofNat 32 (cursor % 32).toNat

/-- The rest of `uart_input` after its wait, up to the call of `uart_send`. -/
def enqueue (s : State) (c : Byte) : State :=
  { s with
    wTbufferCursor := s.wTbufferCursor + 1
    tBuffer := Function.update s.tBuffer (slot (s.wTbufferCursor + 1)) c
    given := s.given ++ [c] }

def writeThr (s : State) : State :=
  { s with
    rTbufferCursor := s.rTbufferCursor + 1
    sent := s.sent ++ [s.tBuffer (slot s.rTbufferCursor)] }

/-- One round of the loop of `uart_send`. -/
def uartSend (s : State) (lsr : Byte) : State :=
  if s.wTbufferCursor = s.rTbufferCursor then { s with sending := false }
  -- `==` binds tighter than `&`: the status is masked with `(1 << 5) == 0`.
  else if lsr.setWidth 32 &&& (if (1 : BitVec 32) <<< 5 = 0 then 1 else 0) ≠ 0 then
    { s with sending := false }
  else writeThr s

/-- A call of `uart_input` past its wait for room, the transmit half of a call of `uart_inter`, or
a round of `uart_send` that reads `lsr` from the status register. -/
def step (s : State) : Act → Option State
  | .uartInput c =>
    if s.sending = false ∧ s.wTbufferCursor ≠ s.rTbufferCursor + 32 then
      some { enqueue s (c.setWidth 8) with sending := true }
    else none
  | .uartInter => if s.sending = false then some { s with sending := true } else none
  | .send lsr => if s.sending then some (uartSend s lsr) else none

/-- `(1 << 5) == 0` is false, so a round with a queued byte writes it whatever the status is. -/
theorem uartSend_eq (s : State) (lsr : Byte) : uartSend s lsr =
    if s.wTbufferCursor = s.rTbufferCursor then { s with sending := false } else writeThr s := by
  have hmask : (if (1 : BitVec 32) <<< 5 = 0 then (1 : BitVec 32) else 0) = 0 := by decide
  have hidle : ¬ lsr.setWidth 32 &&& (0 : BitVec 32) ≠ 0 := by simp
  rw [uartSend, hmask, if_neg hidle]

def Sends (s : State) (a : Act) : Prop :=
  ∃ lsr, a = .send lsr ∧ s.wTbufferCursor ≠ s.rTbufferCursor

theorem step_queue {s t : State} {a : Act} (h : step s a = some t) :
    (t.tBuffer = s.tBuffer ∧ t.rTbufferCursor = s.rTbufferCursor ∧
      t.wTbufferCursor = s.wTbufferCursor ∧ t.given = s.given ∧ t.sent = s.sent) ∨
    (∃ c, s.wTbufferCursor ≠ s.rTbufferCursor + 32 ∧ t.tBuffer = (enqueue s c).tBuffer ∧
      t.rTbufferCursor = s.rTbufferCursor ∧ t.wTbufferCursor = s.wTbufferCursor + 1 ∧
      t.given = s.given ++ [c] ∧ t.sent = s.sent) ∨
    (Sends s a ∧ t = writeThr s) := by
  cases a with
  | uartInput c =>
    simp only [step, Option.ite_none_right_eq_some, Option.some.injEq] at h
    obtain ⟨⟨-, hroom⟩, rfl⟩ := h
    exact .inr (.inl ⟨_, hroom, rfl, rfl, rfl, rfl, rfl⟩)
  | uartInter =>
    simp only [step, Option.ite_none_right_eq_some, Option.some.injEq] at h
    obtain ⟨-, rfl⟩ := h
    exact .inl ⟨rfl, rfl, rfl, rfl, rfl⟩
  | send lsr =>
    simp only [step, Option.ite_none_right_eq_some, Option.some.injEq, uartSend_eq] at h
    obtain ⟨-, rfl⟩ := h
    by_cases he : s.wTbufferCursor = s.rTbufferCursor
    · rw [if_pos he]
      exact .inl ⟨rfl, rfl, rfl, rfl, rfl⟩
    · rw [if_neg he]
      exact .inr (.inr ⟨⟨lsr, rfl, he⟩, rfl⟩)

end Raynix.Uart
