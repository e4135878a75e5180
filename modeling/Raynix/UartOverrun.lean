import Raynix.Uart

namespace Raynix.UartOverrun

open Raynix.Lib.Transition Raynix.Uart

/-- The driver and its device. `full` tells that the holding register has a byte, `lsr` is what the
round of `uart_send` in progress has read from the status register. -/
structure Line where
  driver : State
  full : Bool
  lsr : Option Byte

/-- The calls as in `Uart`, a round of `uart_send` in two steps, and the device passing on the byte
in its holding register. -/
inductive Event
  | uartInput (c : BitVec 32)
  | uartInter
  | poll (lsr : Byte)
  | round
  | empties

/-- Bit 5 of the status tells whether the holding register is empty, the others are arbitrary. A
round on an empty queue returns without a look at the status. -/
def step (s : Line) : Event → Option Line
  | .uartInput c => (Uart.step s.driver (.uartInput c)).map fun d => { s with driver := d }
  | .uartInter => (Uart.step s.driver .uartInter).map fun d => { s with driver := d }
  | .poll lsr =>
    if s.driver.sending ∧ s.driver.wTbufferCursor ≠ s.driver.rTbufferCursor ∧ s.lsr = none ∧
        lsr.getLsbD 5 = !s.full then
      some { s with lsr := some lsr }
    else none
  | .round =>
    match s.lsr with
    | some lsr => (Uart.step s.driver (.send lsr)).map fun d =>
        { driver := d, full := s.full || d.sent ≠ s.driver.sent, lsr := none }
    | none =>
      if s.driver.wTbufferCursor = s.driver.rTbufferCursor then
        (Uart.step s.driver (.send 0)).map fun d => { s with driver := d }
      else none
  | .empties => some { s with full := false }

/-- A round that has found the holding register full returns and leaves the queue, and THR is
written only while the register is empty. -/
def NoOverrun (s : Line) (e : Event) : Prop :=
  ∀ lsr t, e = .round → s.lsr = some lsr → step s e = some t →
    (t.driver.sent ≠ s.driver.sent → s.full = false) ∧
      (lsr.getLsbD 5 = false → t.driver = { s.driver with sending := false })

/-- No round goes on from a status that says full. -/
def FoundEmpty (s : Line) (e : Event) : Prop :=
  ∀ lsr, e = .round → s.lsr = some lsr → lsr.getLsbD 5 = true

/-- After the look at the status the register can only have become empty. -/
def Inv (s : Line) : Prop :=
  ∀ lsr, s.lsr = some lsr → s.driver.sending = true ∧
    s.driver.wTbufferCursor ≠ s.driver.rTbufferCursor ∧ (lsr.getLsbD 5 = true → s.full = false)

variable {s t : Line} {e : Event} {lsr : Byte}

theorem call_lsr {d : State} {a : Act} (hs : Inv s) (ha : ∀ lsr, a ≠ .send lsr)
    (h : Uart.step s.driver a = some d) : s.lsr = none := by
  cases hlsr : s.lsr with
  | none => rfl
  | some lsr =>
    have hsending := (hs lsr hlsr).1
    cases a with
    | uartInput c | uartInter => simp [Uart.step, hsending] at h
    | send lsr => exact absurd rfl (ha lsr)

theorem inv_of_lsr_none (h : s.lsr = none) : Inv s := by
  intro lsr hlsr
  rw [h] at hlsr
  cases hlsr

theorem step_inv (hs : Inv s) (h : step s e = some t) : Inv t := by
  cases e with
  | uartInput c | uartInter =>
    obtain ⟨d, hd, rfl⟩ := Option.map_eq_some_iff.mp h
    have hlsr : s.lsr = none := call_lsr hs (fun _ he => by cases he) hd
    exact inv_of_lsr_none hlsr
  | poll lsr =>
    simp only [step, Option.ite_none_right_eq_some, Option.some.injEq] at h
    obtain ⟨⟨hsending, hne, -, hbit⟩, rfl⟩ := h
    intro lsr' hlsr
    obtain rfl := Option.some.inj hlsr
    refine ⟨hsending, hne, fun hempty => ?_⟩
    change s.full = false
    rw [hempty] at hbit
    simpa using hbit
  | round =>
    cases hlsr : s.lsr with
    | some lsr =>
      simp only [step, hlsr] at h
      obtain ⟨d, -, rfl⟩ := Option.map_eq_some_iff.mp h
      exact inv_of_lsr_none rfl
    | none =>
      simp only [step, hlsr, Option.ite_none_right_eq_some] at h
      obtain ⟨-, d, -, rfl⟩ := And.imp_right Option.map_eq_some_iff.mp h
      exact inv_of_lsr_none rfl
  | empties =>
    cases h
    exact fun lsr hlsr => ⟨(hs lsr hlsr).1, (hs lsr hlsr).2.1, fun _ => rfl⟩

/-- A round with a queued byte writes it, whatever it has read. -/
theorem round_writes (hs : Inv s) (hlsr : s.lsr = some lsr) :
    step s .round = some ⟨writeThr s.driver, true, none⟩ := by
  obtain ⟨hsending, hne, -⟩ := hs lsr hlsr
  have hsent : (writeThr s.driver).sent ≠ s.driver.sent := by simp [writeThr]
  simp [step, hlsr, Uart.step, hsending, uartSend_eq, hne, hsent]

theorem noOverrun_iff_foundEmpty (hs : Inv s) : NoOverrun s e ↔ FoundEmpty s e := by
  constructor
  · intro h lsr he hlsr
    subst he
    have hwrites := round_writes hs hlsr
    obtain ⟨-, hreturn⟩ := h lsr _ rfl hlsr hwrites
    by_contra hbit
    have hdriver := congrArg State.sent (hreturn (Bool.not_eq_true _ ▸ hbit))
    simp [writeThr] at hdriver
  · intro h lsr t he hlsr ht
    have hbit := h lsr he hlsr
    refine ⟨fun _ => (hs lsr hlsr).2.2 hbit, fun hfull => ?_⟩
    rw [hbit] at hfull
    cases hfull

/-- The status is masked with 0. A run overruns the device exactly unless every round that has a
byte to send finds the holding register empty. -/
theorem noOverrun_iff (hs : s.lsr = none) (es : List Event) :
    Meets step NoOverrun s es ↔ Meets step FoundEmpty s es :=
  meets_iff_meets (I := Inv) (fun _ _ _ hs _ h => step_inv hs h)
    (fun _ _ hs => noOverrun_iff_foundEmpty hs) (inv_of_lsr_none hs)

/-- The zeroed statics, while the device has a byte in hand. -/
def busy : Line := ⟨⟨fun _ => 0, 0, 0, false, [], []⟩, true, none⟩

def oneByte : List Event := [.uartInput 65, .poll 0, .round]

theorem noOverrun_iff_oneByte :
    Meets step NoOverrun busy oneByte ↔ Meets step FoundEmpty busy oneByte :=
  noOverrun_iff rfl oneByte

theorem oneByte_overruns : ¬ ∀ (s : Line) (es : List Event), s.lsr = none →
    Meets step NoOverrun s es := by
  intro h
  obtain ⟨-, hcall⟩ := h busy oneByte rfl
  obtain ⟨-, hpoll⟩ := hcall _ rfl
  obtain ⟨hround, -⟩ := hpoll _ rfl
  exact absurd ((hround 0 _ rfl rfl rfl).1 (by decide)) (by decide)

end Raynix.UartOverrun
