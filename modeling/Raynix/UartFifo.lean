import Raynix.Lib.CircularBuffer
import Raynix.Uart
import Mathlib.Tactic.Common

namespace Raynix.UartFifo

open Raynix.Lib.Transition Raynix.Lib.CircularBuffer Raynix.Uart

/-- The bytes written to THR are a prefix of those given, the cursors are apart by the rest, and
the rest fits the queue. -/
def Fifo (s : State) : Prop :=
  ∃ queued, s.given = s.sent ++ queued ∧
    queued.length = (s.wTbufferCursor - s.rTbufferCursor).toNat ∧ queued.length ≤ 32

/-- A byte is written to THR only where the next cell holds the same byte. -/
def SendsAligned (s : State) (a : Act) : Prop :=
  Sends s a → s.tBuffer (slot s.rTbufferCursor) = s.tBuffer (slot (s.rTbufferCursor + 1))

def Queue (s : State) : Prop :=
  Buffered s.tBuffer s.rTbufferCursor s.wTbufferCursor s.given s.sent

theorem slot_eq (c : BitVec 64) : slot c = Fin.ofNat 32 c.toNat := by
  rw [slot, ofNat_eq_iff, BitVec.toNat_umod]
  exact Nat.mod_mod_of_dvd _ (Nat.dvd_refl 32)

theorem fifo_of_queue {s : State} (h : Queue s) : Fifo s := by
  obtain ⟨queued, hs, hlen, hcap, -⟩ := h
  exact ⟨queued, hs, hlen, hcap⟩

/-- The full test: 32 bytes are queued exactly when the write cursor is 32 ahead. -/
theorem Queue.room {s : State} (h : Queue s)
    (hne : s.wTbufferCursor ≠ s.rTbufferCursor + 32) :
    (s.wTbufferCursor - s.rTbufferCursor).toNat < 32 := by
  obtain ⟨queued, -, hlen, hcap, -⟩ := h
  bv_omega

theorem step_keeps_queue {s t : State} {a : Act} (hs : Queue s) (hal : SendsAligned s a)
    (h : step s a = some t) : Queue t := by
  rw [Queue]
  obtain ⟨hb, hr, hw, hgiven, hsent⟩ | ⟨c, hne, hb, hr, hw, hgiven, hsent⟩ | ⟨hsends, rfl⟩ :=
    step_queue h
  · rw [hb, hr, hw, hgiven, hsent]
    exact hs
  · rw [hb, hr, hw, hgiven, hsent, enqueue, slot_eq]
    exact hs.push (by decide) (by decide) (hs.room hne) c
  · have hsame := hal hsends
    obtain ⟨-, -, hne⟩ := hsends
    rw [slot_eq (s.rTbufferCursor + 1)] at hsame
    rw [writeThr, hsame]
    exact hs.pop (by decide) hne.symm

/-- Sending from a cell that differs from the next one breaks the order at once. -/
theorem not_txFifo_of_send {s t : State} {a : Act} (hs : Queue s) (hal : ¬ SendsAligned s a)
    (h : step s a = some t) : ¬ Fifo t := by
  obtain ⟨⟨lsr, rfl, hne⟩, hdiff⟩ := Classical.not_imp.mp hal
  simp only [step, Option.ite_none_right_eq_some, Option.some.injEq, uartSend_eq,
    if_neg hne] at h
  obtain ⟨-, rfl⟩ := h
  rintro ⟨queued, hgiven, -⟩
  change s.given = (s.sent ++ [s.tBuffer (slot s.rTbufferCursor)]) ++ queued at hgiven
  rw [List.append_assoc, List.singleton_append] at hgiven
  apply hdiff
  rw [slot_eq (s.rTbufferCursor + 1)]
  exact hs.next (by decide) hgiven

structure Empty (s : State) : Prop where
  cursors : s.wTbufferCursor = s.rTbufferCursor
  sending : s.sending = false
  given : s.given = []
  sent : s.sent = []

theorem queue_of_empty {s : State} (h : Empty s) : Queue s := by
  rw [Queue, h.cursors, h.given, h.sent]
  exact buffered_nil _ _

/-- In every run from an empty queue the bytes written to THR are at all times the first bytes
given, with the rest queued, exactly when every byte is sent from a cell that holds the same byte
as the next one. -/
theorem always_txFifo_iff {s u : State} {as : List Act} (hs : Empty s)
    (h : run step s as = some u) : Always step Fifo s as ↔ Meets step SendsAligned s as :=
  always_iff_meets (fun _ => fifo_of_queue) (fun _ _ _ => step_keeps_queue)
    (fun _ _ _ => not_txFifo_of_send) (queue_of_empty hs) h

def emptyQueue : State := ⟨fun _ => 0, 0, 0, false, [], []⟩

theorem emptyQueue_empty : Empty emptyQueue := ⟨rfl, rfl, rfl, rfl⟩

/-- Two characters, the first of them the byte 0 that the cells hold at the start. -/
def twoInputs : List Act :=
  [.uartInput 0, .send 0, .send 0, .uartInput 65, .send 0x20, .send 0x20]

theorem twoInputs_isSome : (run step emptyQueue twoInputs).isSome := by
  decide

theorem always_txFifo_iff_twoInputs :
    Always step Fifo emptyQueue twoInputs ↔ Meets step SendsAligned emptyQueue twoInputs :=
  always_txFifo_iff emptyQueue_empty (Option.some_get twoInputs_isSome).symm

/-- One character 65 is given, and the byte 0 of the cell before is sent. -/
theorem not_txFifo : ¬ ∀ (s u : State) (as : List Act), Empty s → run step s as = some u →
    Fifo u := by
  intro h
  obtain ⟨queued, hgiven, -⟩ := h emptyQueue _ [.uartInput 65, .send 0x20] emptyQueue_empty rfl
  have h65 : (65 : Byte) = 0 := (List.cons.inj (hgiven : [65] = 0 :: queued)).1
  exact absurd h65 (by decide)

end Raynix.UartFifo
