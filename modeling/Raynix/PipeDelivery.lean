import Raynix.Lib.ByteMove
import Raynix.PipeFifo

namespace Raynix.PipeDelivery

open Raynix.Lib.Transition Raynix.Lib.CircularBuffer Raynix.Lib.ByteMove Raynix.Pipe
open Raynix.PipeFifo

variable {P : Type}

/-- The bytes stored and not yet taken, oldest first. -/
def unread (s : State P) : List Byte := s.stored.drop s.taken.length

/-- The smaller one of `len` and the number of unread bytes. -/
def count (s : State P) (len : Int) : Nat := min len.toNat (s.writeCursor - s.readCursor).toNat

/-- Byte `j` of those that `pipe_read` takes. -/
def cell (s : State P) (j : Nat) : Byte := s.buffer (slot (s.readCursor + BitVec.ofNat 32 j))

/-- From `s` to `t` a `pipe_read` of `p` has delivered the oldest unread bytes and returned their
number. -/
structure Delivers (s t : State P) (p : P) (target : Addr) (len : Int) : Prop where
  returned : t.returned p = BitVec.ofNat 32 (count s len)
  bytes : (List.range (count s len)).map (fun j => t.mem p (target + BitVec.ofNat 64 j)) =
    (unread s).take (count s len)
  others : ∀ b, (∀ j < count s len, b ≠ target + BitVec.ofNat 64 j) → t.mem p b = s.mem p b
  processes : ∀ q, q ≠ p → t.mem q = s.mem q
  cursor : t.readCursor = s.readCursor + BitVec.ofNat 32 (count s len)
  zero : t.returned p = 0 → len = 0 ∨ (s.readCursor = s.writeCursor ∧ s.writeable = 0)

theorem count_le (s : State P) (len : Int) :
    count s len ≤ len.toNat ∧ count s len ≤ (s.writeCursor - s.readCursor).toNat :=
  ⟨Nat.min_le_left _ _, Nat.min_le_right _ _⟩

theorem count_lt (s : State P) (len : Int) : count s len < 2 ^ 32 :=
  (count_le s len).2.trans_lt (s.writeCursor - s.readCursor).isLt

theorem more_iff (s : State P) {len : Int} {j : Nat} (hj : j ≤ count s len) :
    (j < len ∧ s.readCursor + BitVec.ofNat 32 j ≠ s.writeCursor) ↔ j < count s len := by
  have hlt := count_lt s len
  have hne : s.readCursor + BitVec.ofNat 32 j = s.writeCursor ↔
      j = (s.writeCursor - s.readCursor).toNat := by
    bv_omega
  unfold count at hj ⊢
  rw [Ne, hne]
  omega

/-- After `j` rounds of the copy loop that starts in `s`. -/
structure Looping (s : State P) (p : P) (target : Addr) (len : Int) (j : Nat) (t : State P) :
    Prop where
  pc : t.pc p = .read target len j
  buffer : t.buffer = s.buffer
  writeCursor : t.writeCursor = s.writeCursor
  readCursor : t.readCursor = s.readCursor + BitVec.ofNat 32 j
  bytes : ∀ i < j, t.mem p (target + BitVec.ofNat 64 i) = cell s i
  others : ∀ b, (∀ i < j, b ≠ target + BitVec.ofNat 64 i) → t.mem p b = s.mem p b
  processes : ∀ q, q ≠ p → t.mem q = s.mem q

theorem Looping.map_bytes {s t : State P} {p : P} {target : Addr} {len : Int} {n : Nat}
    (h : Looping s p target len n t) :
    (List.range n).map (fun j => t.mem p (target + BitVec.ofNat 64 j)) =
      (List.range n).map (cell s) :=
  List.map_congr_left fun j hj => h.bytes j (List.mem_range.mp hj)

/-- Where the writer has put the unread bytes behind the read cursor, the cells read hold these
exactly when each holds the same byte as the next one. -/
theorem cells_iff_of_ring {s : State P} (hs : Ring s) (len : Int) :
    (List.range (count s len)).map (cell s) = (unread s).take (count s len) ↔
      ∀ j < count s len, cell s j = cell s (j + 1) := by
  obtain ⟨queued, hstored, hlength, -, hholds⟩ := hs
  have hunread : unread s = queued := by rw [unread, hstored, List.drop_left]
  have hle : count s len ≤ queued.length := hlength ▸ (count_le s len).2
  have hnext : ∀ j (hj : j < queued.length), cell s (j + 1) = queued[j] := by
    intro j hj
    rw [cell, slot_eq, ← hholds j hj]
    congr 1
    rw [ofNat_eq_iff, BitVec.toNat_add, BitVec.toNat_ofNat]
    omega
  have hlen : ((List.range (count s len)).map (cell s)).length = count s len := by
    rw [List.length_map, List.length_range]
  rw [hunread]
  constructor
  · intro h j hj
    have hcell := List.getElem_of_eq h (hlen.symm ▸ hj)
    rw [List.getElem_map, List.getElem_range, List.getElem_take] at hcell
    rw [hcell, hnext j (by omega)]
  · intro h
    apply List.ext_getElem
    · rw [hlen, List.length_take, Nat.min_eq_left hle]
    · intro j hj _
      rw [hlen] at hj
      rw [List.getElem_map, List.getElem_range, List.getElem_take, h j hj, hnext j (by omega)]

variable [DecidableEq P]

theorem Looping.start {s : State P} {p : P} {target : Addr} {len : Int} :
    Looping s p target len 0 (s.goto p (.read target len 0)) :=
  ⟨goto_pc s p _, rfl, rfl, (BitVec.add_zero _).symm, fun _ hi => absurd hi (Nat.not_lt_zero _),
    fun _ _ => rfl, fun _ _ => rfl⟩

theorem Looping.next {s t : State P} {p : P} {target : Addr} {len : Int} {j : Nat}
    (h : Looping s p target len j t) (hj : j < count s len) :
    ∃ u, step t (.run p) = some u ∧ Looping s p target len (j + 1) u := by
  have hmore : j < len ∧ t.readCursor ≠ t.writeCursor := by
    rw [h.readCursor, h.writeCursor]
    exact (more_iff s hj.le).mpr hj
  have hlt := hj.trans (count_lt s len)
  have hmem : ∀ b, (readStep t p target len j).mem p b =
      Function.update (t.mem p) (target + BitVec.ofNat 64 j) (cell s j) b := by
    intro b
    rw [cell, ← h.readCursor, ← h.buffer]
    exact congrFun (Function.update_self p _ t.mem) b
  refine ⟨readStep t p target len j, by simp only [step, h.pc, if_pos hmore], goto_pc t p _,
    h.buffer, h.writeCursor, ?_, fun i hi => ?_, fun b hb => ?_, fun q hq => ?_⟩
  · change t.readCursor + 1 = _
    rw [h.readCursor, BitVec.ofNat_add, BitVec.add_assoc]
    rfl
  · rw [hmem]
    obtain hi | rfl := Nat.lt_succ_iff_lt_or_eq.mp hi
    · rw [Function.update_of_ne, h.bytes i hi]
      intro he
      have hij := add_ofNat_inj target (by omega) (by omega) he
      omega
    · exact Function.update_self _ _ _
  · rw [hmem, Function.update_of_ne (hb j (by omega))]
    exact h.others b fun i hi => hb i (by omega)
  · exact (Function.update_of_ne hq _ _).trans (h.processes q hq)

theorem Looping.stops {s t : State P} {p : P} {target : Addr} {len : Int} {j : Nat}
    (h : Looping s p target len j t) (hj : j ≤ count s len) (i : BitVec 32) :
    (j < count s len → step t (.ret p i) = none) ∧ (j = count s len → step t (.run p) = none ∧
      step t (.ret p i) = some { release (wakeup t .writeCursor) p with
        returned := Function.update t.returned p i }) := by
  have hmore := more_iff s hj
  rw [← h.readCursor, ← h.writeCursor] at hmore
  constructor
  · intro hlt
    simp only [step, h.pc, if_pos (hmore.mpr hlt)]
  · rintro rfl
    have hnot := hmore.not.mpr (Nat.lt_irrefl _)
    simp only [step, h.pc, if_neg hnot, and_self]

/-- From the end of its wait loop, `p` makes `m` rounds of the copy loop and returns `i`. -/
def finish (p : P) (m : Nat) (i : BitVec 32) : List (Act P) :=
  .run p :: (List.replicate m (.run p) ++ [.ret p i])

theorem run_loop (s : State P) (p : P) (target : Addr) (len : Int) {m : Nat}
    (hm : m ≤ count s len) :
    ∃ t, run step (s.goto p (.read target len 0)) (List.replicate m (.run p)) = some t ∧
      Looping s p target len m t :=
  run_replicate_of_step (J := Looping s p target len) (fun _ hj _ h => h.next (by omega))
    Looping.start

theorem run_finish {s : State P} {p : P} {target : Addr} {len : Int} (i : BitVec 32)
    (hpc : s.pc p = .readWait target len)
    (hend : ¬ (s.readCursor = s.writeCursor ∧ s.writeable ≠ 0)) :
    ∃ u, Looping s p target len (count s len) u ∧
      ∀ m t, run step s (finish p m i) = some t ↔ m = count s len ∧
        t = { release (wakeup u .writeCursor) p with
          returned := Function.update u.returned p i } := by
  have hfirst : step s (.run p) = some (s.goto p (.read target len 0)) := by
    simp only [step, hpc, readWaitStep, if_neg hend]
  have hrun : ∀ m, run step s (finish p m i) = (run step (s.goto p (.read target len 0))
      (List.replicate m (.run p))).bind (fun t => run step t [.ret p i]) := by
    intro m
    rw [finish, run_cons, hfirst, Option.bind_some, run_append]
  obtain ⟨u, hu, hloop⟩ := run_loop s p target len le_rfl
  obtain ⟨hnone, hret⟩ := (hloop.stops le_rfl i).2 rfl
  refine ⟨u, hloop, fun m t => ?_⟩
  rw [hrun]
  obtain hm | rfl | hm := Nat.lt_trichotomy m (count s len)
  · obtain ⟨v, hv, hloop'⟩ := run_loop s p target len hm.le
    rw [hv, Option.bind_some, run_cons, (hloop'.stops hm.le i).1 hm]
    refine iff_of_false (fun h => ?_) fun h => hm.ne h.1
    cases h
  · rw [hu, Option.bind_some, run_cons, hret, and_iff_right rfl]
    exact Option.some_inj.trans eq_comm
  · obtain ⟨k, rfl⟩ := Nat.exists_eq_add_of_lt hm
    rw [Nat.add_assoc, List.replicate_add, run_append, hu, Option.bind_some, List.replicate_succ,
      run_cons, hnone]
    refine iff_of_false (fun h => ?_) fun h => by omega
    cases h

/-- A reader past its wait loop comes back with `i` and has delivered. -/
def Reads (s : State P) (p : P) (target : Addr) (len : Int) (i : BitVec 32) : Prop :=
  ∃ m t, run step s (finish p m i) = some t ∧ Delivers s t p target len

theorem reads_iff_cells {s : State P} {p : P} {target : Addr} {len : Int} (i : BitVec 32)
    (hpc : s.pc p = .readWait target len) (hlen : 0 ≤ len)
    (hend : ¬ (s.readCursor = s.writeCursor ∧ s.writeable ≠ 0)) :
    Reads s p target len i ↔ i = BitVec.ofNat 32 (count s len) ∧
      (List.range (count s len)).map (cell s) = (unread s).take (count s len) := by
  obtain ⟨u, hloop, hrun⟩ := run_finish i hpc hend
  have hresult : ({ release (wakeup u .writeCursor) p with
      returned := Function.update u.returned p i } : State P).returned p = i :=
    Function.update_self p i u.returned
  constructor
  · rintro ⟨m, t, ht, hd⟩
    obtain ⟨-, rfl⟩ := (hrun m t).mp ht
    exact ⟨hresult.symm.trans hd.returned, hloop.map_bytes.symm.trans hd.bytes⟩
  · rintro ⟨hi, hcells⟩
    refine ⟨_, _, (hrun _ _).mpr ⟨rfl, rfl⟩, hresult.trans hi, hloop.map_bytes.trans hcells,
      hloop.others, hloop.processes, hloop.readCursor, fun hzero => ?_⟩
    have hcount : count s len = 0 := by
      have hofNat := congrArg BitVec.toNat (hi.symm.trans (hresult.symm.trans hzero))
      rwa [BitVec.toNat_ofNat, Nat.mod_eq_of_lt (count_lt s len)] at hofNat
    obtain hl | hk := Nat.min_eq_zero_iff.mp hcount
    · exact .inl (by omega)
    · have hempty : s.readCursor = s.writeCursor := by bv_omega
      refine .inr ⟨hempty, ?_⟩
      by_contra hopen
      exact hend ⟨hempty, hopen⟩

/-- `pipe_read` delivers exactly when the indeterminate `i` happens to be the number of bytes taken,
and the cells at the read cursor hold the oldest unread bytes; where the writer has put these, each
cell copied is to hold the same byte as the next one. -/
theorem delivers_iff {s : State P} {p : P} {target : Addr} {len : Int} (i : BitVec 32)
    (hpc : s.pc p = .readWait target len) (hlen : 0 ≤ len)
    (hend : ¬ (s.readCursor = s.writeCursor ∧ s.writeable ≠ 0)) :
    (Reads s p target len i ↔ i = BitVec.ofNat 32 (count s len) ∧
      (List.range (count s len)).map (cell s) = (unread s).take (count s len)) ∧
    (Ring s → (Reads s p target len i ↔ i = BitVec.ofNat 32 (count s len) ∧
      ∀ j < count s len, cell s j = cell s (j + 1))) := by
  have hcells := reads_iff_cells i hpc hlen hend
  refine ⟨hcells, fun hring => ?_⟩
  rw [hcells, cells_iff_of_ring hring]

/-- One unread byte `b` in the cell the writer has put it into, and a reader past its wait loop. -/
def oneUnread (b : Byte) : State Unit :=
  { emptyPipe with
    buffer := Function.update emptyPipe.buffer 1 b
    writeCursor := 1
    pc := fun _ => .readWait 8 4
    stored := [b] }

theorem oneUnread_ring (b : Byte) : Ring (oneUnread b) := by
  have hcount : (1 - 0 : BitVec 32).toNat = 1 := by decide
  refine ⟨[b], rfl, hcount.symm, Nat.le_of_ble_eq_true rfl, ?_⟩
  intro j hj
  obtain rfl : j = 0 := Nat.lt_one_iff.mp hj
  rfl

/-- An unread zero byte is delivered, as the cell before it holds zero too. -/
theorem delivers_zeroByte : Reads (oneUnread 0) () 8 4 1 :=
  ((delivers_iff 1 rfl (by decide) (by decide)).2 (oneUnread_ring 0)).mpr ⟨by decide, by decide⟩

/-- For one unread byte 7 the reader gets the zero of the cell before it, whatever is returned. -/
theorem not_delivers : ¬ ∀ (s : State Unit) (p : Unit) (target : Addr) (len : Int) (i : BitVec 32),
    s.pc p = .readWait target len → 0 ≤ len → ¬ (s.readCursor = s.writeCursor ∧ s.writeable ≠ 0) →
    (unread s).length = (s.writeCursor - s.readCursor).toNat →
    Reads s p target len i := by
  intro h
  obtain ⟨m, t, ht, hd⟩ := h (oneUnread 7) () 8 4 1 rfl (by decide) (by decide) (by decide)
  obtain ⟨u, hloop, hrun⟩ := run_finish (s := oneUnread 7) 1 rfl (by decide)
  obtain ⟨-, rfl⟩ := (hrun m t).mp ht
  have hbytes := hloop.map_bytes.symm.trans hd.bytes
  exact absurd hbytes (by decide)

end Raynix.PipeDelivery
