import Raynix.Lib.CircularBuffer
import Raynix.Pipe
import Mathlib.Tactic.Common

namespace Raynix.PipeFifo

open Raynix.Lib.Transition Raynix.Lib.CircularBuffer Raynix.Pipe

variable {P : Type} [DecidableEq P]

/-- The bytes taken are a prefix of the bytes stored, and the cursors are apart by the rest. -/
def Fifo (s : State P) : Prop :=
  ∃ unread, s.stored = s.taken ++ unread ∧
    unread.length = (s.writeCursor - s.readCursor).toNat

/-- A pipe with equal cursors and both ends open, on which no call is in progress. -/
structure Empty (s : State P) : Prop where
  cursors : s.readCursor = s.writeCursor
  writeable : s.writeable ≠ 0
  readable : s.readable ≠ 0
  pipeLock : s.pipeLock = none
  pc : ∀ p, s.pc p = .idle
  stored : s.stored = []
  taken : s.taken = []

/-- A byte is taken only where the next cell holds the same byte. -/
def TakesAligned (s : State P) (a : Act P) : Prop :=
  ∀ p, a = .run p → Takes s p → s.buffer (slot s.readCursor) = s.buffer (slot (s.readCursor + 1))

/-- A byte is stored only while fewer than `PIPESIZE` bytes are unread. -/
def StoresInRoom (s : State P) (a : Act P) : Prop :=
  ∀ p, a = .run p → Stores s p → (s.writeCursor - s.readCursor).toNat < 512

/-- The unread bytes lie behind the read cursor, one cell after the one `pipe_read` reads. -/
def Ring (s : State P) : Prop :=
  ∃ unread, s.stored = s.taken ++ unread ∧
    unread.length = (s.writeCursor - s.readCursor).toNat ∧ unread.length ≤ 512 ∧
    Holds s.buffer (s.readCursor.toNat + 1) unread

theorem slot_eq (c : BitVec 32) : slot c = Fin.ofNat 512 c.toNat := by
  rw [slot, ofNat_eq_iff, BitVec.toNat_umod]
  exact Nat.mod_mod_of_dvd _ (Nat.dvd_refl 512)

omit [DecidableEq P] in
theorem ring_iff (s : State P) :
    Ring s ↔ Buffered s.buffer s.readCursor s.writeCursor s.stored s.taken := Iff.rfl

omit [DecidableEq P] in
theorem ring_of_empty {s : State P} (h : Empty s) : Ring s := by
  rw [ring_iff, h.cursors, h.stored, h.taken]
  exact buffered_nil _ _

omit [DecidableEq P] in
theorem fifo_of_ring {s : State P} (h : Ring s) : Fifo s := by
  obtain ⟨unread, hs, hlen, _⟩ := h
  exact ⟨unread, hs, hlen⟩

theorem step_keeps_ring {s t : State P} {a : Act P} (hs : Ring s) (hroom : StoresInRoom s a)
    (hal : TakesAligned s a) (h : step s a = some t) : Ring t := by
  rw [ring_iff] at hs ⊢
  obtain ⟨hb, hr, hw, hstored, htaken⟩ | ⟨p, b, ha, hp, hr, hw, hb, hstored, htaken⟩ |
    ⟨p, ha, hp, hr, hw, hb, hstored, htaken⟩ := step_ring h
  · rwa [hb, hr, hw, hstored, htaken]
  · rw [hb, hr, hw, hstored, htaken, slot_eq]
    exact hs.push (by decide) (by decide) (hroom p ha hp) b
  · have hsame := hal p ha hp
    obtain ⟨_, _, _, _, _, hne⟩ := hp
    rw [hb, hr, hw, hstored, htaken, hsame, slot_eq]
    exact hs.pop (by decide) hne

/-- Taking from a cell that differs from the next one breaks the order at once. -/
theorem not_fifo_of_take {s t : State P} {a : Act P} (hs : Ring s) (hal : ¬ TakesAligned s a)
    (h : step s a = some t) : ¬ Fifo t := by
  rw [ring_iff] at hs
  simp only [TakesAligned, not_forall] at hal
  obtain ⟨p, rfl, ⟨target, len, i, hpc, hi, hne⟩, hdiff⟩ := hal
  simp only [step, hpc, if_pos (And.intro hi hne), Option.some.injEq] at h
  subst t
  rintro ⟨unread, hst, _⟩
  change s.stored = (s.taken ++ [s.buffer (slot s.readCursor)]) ++ unread at hst
  rw [List.append_assoc, List.singleton_append] at hst
  apply hdiff
  rw [slot_eq (s.readCursor + 1)]
  exact hs.next (by decide) hst

/-- In every run from an empty open pipe that stores in room, the bytes taken are at all times
the first bytes stored and the cursors are apart by the rest exactly when every take is
aligned. -/
theorem always_fifo_iff {s u : State P} {as : List (Act P)} (hs : Empty s)
    (h : run step s as = some u) (hroom : Meets step StoresInRoom s as) :
    Always step Fifo s as ↔ Meets step TakesAligned s as :=
  always_iff_meets_of (fun _ => fifo_of_ring) (fun _ _ _ => step_keeps_ring)
    (fun _ _ _ hI _ => not_fifo_of_take hI) (ring_of_empty hs) h hroom

/-- An empty pipe of one process whose memory holds 7 everywhere. -/
def emptyPipe : State Unit where
  pipeLock := none
  buffer _ := 0
  readCursor := 0
  writeCursor := 0
  writeable := 1
  readable := 1
  pc _ := .idle
  asleep _ := none
  returned _ := 0
  mem _ _ := 7
  stored := []
  taken := []

theorem emptyPipe_empty : Empty emptyPipe :=
  ⟨rfl, by decide, by decide, rfl, fun _ => rfl, rfl, rfl⟩

/-- One byte is written and read back. -/
def thereAndBack : List (Act Unit) :=
  [.pipeWrite () 0 1, .lock (), .run (), .run (), .pipeRead () 8 1, .lock (), .run (), .run ()]

theorem always_fifo_iff_thereAndBack :
    Always step Fifo emptyPipe thereAndBack ↔ Meets step TakesAligned emptyPipe thereAndBack := by
  have hroom : Meets step (fun s _ => (s.writeCursor - s.readCursor).toNat < 512) emptyPipe
    thereAndBack := by decide
  exact always_fifo_iff emptyPipe_empty rfl (hroom.mono (fun _ _ hlt _ _ _ => hlt))

/-- The byte written is a 7: the reader gets the 0 of the cell before. -/
theorem not_fifo : ¬ ∀ (s u : State Unit) (as : List (Act Unit)), Empty s →
    run step s as = some u → Fifo u := by
  intro h
  obtain ⟨unread, hs, _⟩ := h emptyPipe _ thereAndBack emptyPipe_empty rfl
  have h7 : (7 : Byte) = 0 := (List.cons.inj (hs : [7] = 0 :: unread)).1
  exact absurd h7 (by decide)

end Raynix.PipeFifo
