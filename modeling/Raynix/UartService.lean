import Raynix.Uart

namespace Raynix.UartService

open Raynix.Lib.Transition Raynix.Uart

/-- Where `uart_inter` stands: its receive loop, before and in its call of `uart_send` under
`uart_tx_lock`, and returned. -/
inductive Pc
  | receive
  | acquire
  | transmit
  | returned
  deriving DecidableEq

/-- A call of `uart_inter`. `pending` are the bytes received by the device and not yet read,
`handled` is ghost: the arguments of `consloe_input_handler` so far. -/
structure State where
  driver : Uart.State
  pending : List Byte
  handled : List (BitVec 32)
  flag : BitVec 32
  pc : Pc

-- What the status register reads, by the bytes pending.
variable (lsr : List Byte → Byte)

/-- A round of the receive loop. -/
def receive (s : State) : State :=
  if (lsr s.pending).setWidth 32 &&& 1 ≠ 0 then
    let res : BitVec 32 := (s.pending.headD 0).setWidth 32
    { s with pending := s.pending.tail, handled := s.handled ++ [res] }
  -- `flag == 0;` compares and assigns nothing.
  else s

def step (s : State) (_ : Unit) : Option State :=
  match s.pc with
  | .receive => if s.flag ≠ 0 then some (receive lsr s) else some { s with pc := .acquire }
  | .acquire => (Uart.step s.driver .uartInter).map fun d => { s with driver := d, pc := .transmit }
  | .transmit => (Uart.step s.driver (.send (lsr s.pending))).map fun d =>
      { s with driver := d, pc := if d.sending then .transmit else .returned }
  | .returned => none

/-- The call of `uart_inter` that finds `s` returns, and has passed on the bytes pending. -/
def Served (s : State) : Prop :=
  ∃ n t, run (step lsr) s (List.replicate n ()) = some t ∧ t.pc = .returned ∧
    t.handled = s.handled ++ s.pending.map (BitVec.setWidth 32) ∧ t.pending = []

/-- Bit 0 of the status tells whether bytes are pending. -/
def DataReady : Prop := ∀ bytes, (lsr bytes).getLsbD 0 = true ↔ bytes ≠ []

structure Called (s : State) : Prop where
  flag : s.flag = 1
  pc : s.pc = .receive

variable {lsr} {s : State}

theorem and_one_ne_zero (b : Byte) : b.setWidth 32 &&& 1 ≠ 0 ↔ b.getLsbD 0 = true := by
  have hone : (1 : BitVec 32) = BitVec.twoPow 32 0 := by decide
  have hbit : (b.setWidth 32).getLsbD 0 = b.getLsbD 0 := by simp
  rw [hone, BitVec.and_twoPow, hbit]
  cases b.getLsbD 0 <;> decide

def polled (s : State) (n : Nat) : State :=
  { s with
    pending := s.pending.drop n
    handled := s.handled ++ (s.pending.take n).map (BitVec.setWidth 32) }

theorem receive_polled (h : DataReady lsr) (s : State) (n : Nat) :
    receive lsr (polled s n) = polled s (n + 1) := by
  have hready := (and_one_ne_zero (lsr (s.pending.drop n))).trans (h (s.pending.drop n))
  rw [receive]
  change (if (lsr (s.pending.drop n)).setWidth 32 &&& 1 ≠ 0 then _ else _) = _
  obtain hlt | hge := Nat.lt_or_ge n s.pending.length
  · have hdrop := List.drop_eq_getElem_cons hlt
    rw [if_pos (hready.mpr (by rw [hdrop]; exact List.cons_ne_nil _ _)), polled, polled,
      List.take_succ_eq_append_getElem hlt]
    simp only [hdrop, List.headD_cons, List.tail_cons, List.map_append, List.map_cons, List.map_nil,
      List.append_assoc]
  · have hnil := List.drop_eq_nil_of_le hge
    rw [if_neg (fun hne => hready.mp hne hnil), polled, polled, hnil,
      List.drop_eq_nil_of_le (Nat.le_succ_of_le hge), List.take_of_length_le hge,
      List.take_of_length_le (Nat.le_succ_of_le hge)]

/-- The loop goes on, since `flag` stays 1. -/
theorem run_polled (h : DataReady lsr) (hs : Called s) (n : Nat) :
    run (step lsr) s (List.replicate n ()) = some (polled s n) := by
  have hflag : s.flag ≠ 0 := by
    rw [hs.flag]
    decide
  have hstep : ∀ i < n, ∀ t, t = polled s i →
      ∃ u, step lsr t () = some u ∧ u = polled s (i + 1) := by
    rintro i - t rfl
    refine ⟨_, ?_, receive_polled h s i⟩
    have hpc : (polled s i).pc = .receive := hs.pc
    simp only [step, hpc]
    exact if_pos hflag
  have hstart : s = polled s 0 := by simp [polled]
  obtain ⟨t, ht, rfl⟩ := run_replicate_of_step hstep hstart
  exact ht

/-- The bytes are passed on in order, and then the loop polls for ever: no call of `uart_inter`
comes to its `uart_send`. -/
theorem not_served (h : DataReady lsr) (hs : Called s) : ¬ Served lsr s ∧
    ∀ n, ∃ t, run (step lsr) s (List.replicate n ()) = some t ∧ t.pc = .receive ∧
      t.handled = s.handled ++ (s.pending.take n).map (BitVec.setWidth 32) := by
  constructor
  · rintro ⟨n, t, ht, hpc, -⟩
    rw [run_polled h hs, Option.some.injEq] at ht
    rw [← ht] at hpc
    exact absurd (hs.pc.symm.trans hpc) (by decide)
  · exact fun n => ⟨polled s n, run_polled h hs n, hs.pc, rfl⟩

/-- An interrupt with the bytes received and an empty transmit buffer. -/
def interrupted (bytes : List Byte) : State :=
  ⟨⟨fun _ => 0, 0, 0, false, [], []⟩, bytes, [], 1, .receive⟩

def status (bytes : List Byte) : Byte := if bytes = [] then 0x60 else 0x61

theorem dataReady_status : DataReady status := by
  intro bytes
  by_cases hb : bytes = [] <;> simp [status, hb]

theorem not_served_twoBytes : ¬ Served status (interrupted [0x41, 0x42]) ∧
    ∀ n, ∃ t, run (step status) (interrupted [0x41, 0x42]) (List.replicate n ()) = some t ∧
      t.pc = .receive ∧ t.handled = (([0x41, 0x42] : List Byte).take n).map (BitVec.setWidth 32) :=
  not_served dataReady_status ⟨rfl, rfl⟩

/-- An interrupt after a byte has left the holding register, with nothing received. -/
theorem quietLine_polls : ¬ ∀ (lsr : List Byte → Byte) (s : State), DataReady lsr → Called s →
    Served lsr s := by
  intro h
  obtain ⟨n, t, ht, hpc, -⟩ := h status (interrupted []) dataReady_status ⟨rfl, rfl⟩
  rw [run_polled dataReady_status ⟨rfl, rfl⟩, Option.some.injEq] at ht
  rw [← ht] at hpc
  cases hpc

end Raynix.UartService
