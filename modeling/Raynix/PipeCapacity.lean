import Raynix.PipeFifo

namespace Raynix.PipeCapacity

open Raynix.Lib.Transition Raynix.Lib.CircularBuffer Raynix.Pipe Raynix.PipeFifo

variable {P : Type}

/-- `write_cursor - read_cursor`, modulo 2^32. -/
def unread (s : State P) : Nat := (s.writeCursor - s.readCursor).toNat

/-- The full test of `pipe_write`. -/
def Full (s : State P) : Prop := (s.writeCursor + 1) % 512 = s.readCursor

/-- The full test finds exactly the pipes with `PIPESIZE - 1` unread bytes, and none has more. -/
structure Exact (s : State P) : Prop where
  test : Full s ↔ unread s = 511
  bounded : unread s ≤ 511

/-- A store goes to none of the slots that the unread bytes have been put into. -/
def KeepsUnread [DecidableEq P] (s : State P) (a : Act P) : Prop :=
  ∀ p, a = .run p → Stores s p → ∀ j < unread s,
    slot (s.writeCursor + 1) ≠ slot (s.readCursor + 1 + BitVec.ofNat 32 j)

/-- When the pipe is full, its read cursor is still in the first lap. -/
def FirstLap (s : State P) : Prop := unread s = 511 → s.readCursor.toNat < 512

theorem full_toNat (s : State P) :
    Full s ↔ (s.writeCursor.toNat + 1) % 512 = s.readCursor.toNat := by
  rw [Full, BitVec.toNat_eq, BitVec.toNat_umod]
  have hlap : (s.writeCursor + 1).toNat % 512 = (s.writeCursor.toNat + 1) % 512 :=
    toNat_add_one_mod (by decide) s.writeCursor
  exact Eq.congr_left hlap

theorem unread_mod (s : State P) :
    s.writeCursor.toNat % 512 = (s.readCursor.toNat + unread s) % 512 := by
  unfold unread
  bv_omega

/-- Up to `PIPESIZE - 1` unread bytes, the full test is right exactly in the first lap. -/
theorem exact_iff {s : State P} (hs : unread s ≤ 511) : Exact s ↔ FirstLap s := by
  have hmod := unread_mod s
  constructor
  · intro h hfull
    have htest := (full_toNat s).mp (h.test.mpr hfull)
    omega
  · intro h
    refine ⟨?_, hs⟩
    rw [full_toNat]
    constructor
    · intro htest
      omega
    · intro hfull
      have hlap := h hfull
      omega

variable [DecidableEq P]

theorem step_unread {s t : State P} {a : Act P} (h : step s a = some t) :
    unread t = unread s ∨ (∃ p, a = .run p ∧ Stores s p ∧ unread t = (unread s + 1) % 2 ^ 32) ∨
      ∃ p, a = .run p ∧ Takes s p ∧ unread s = unread t + 1 := by
  obtain ⟨-, hr, hw, -, -⟩ | ⟨p, b, ha, hp, hr, hw, -, -, -⟩ | ⟨p, ha, hp, hr, hw, -, -, -⟩ :=
    step_ring h
  · left
    rw [unread, unread, hr, hw]
  · refine .inr (.inl ⟨p, ha, hp, ?_⟩)
    rw [unread, unread, hr, hw]
    bv_omega
  · refine .inr (.inr ⟨p, ha, hp, ?_⟩)
    obtain ⟨-, -, -, -, -, hne⟩ := hp
    rw [unread, unread, hr, hw]
    bv_omega

theorem step_bounded {s t : State P} {a : Act P} (hs : unread s ≤ 511) (hlap : FirstLap s)
    (h : step s a = some t) : unread t ≤ 511 := by
  obtain hsame | ⟨p, -, hp, hmore⟩ | ⟨p, -, -, hless⟩ := step_unread h
  · omega
  · have hroom : unread s ≠ 511 := by
      intro hfull
      obtain ⟨-, -, -, -, -, -, hnot⟩ := hp
      exact hnot (((exact_iff hs).mpr hlap).test.mpr hfull)
    omega
  · omega

theorem keepsUnread_of_bounded {s : State P} {a : Act P} (hs : unread s ≤ 511) :
    KeepsUnread s a := by
  intro p _ _ j hj
  rw [slot_eq, slot_eq, Ne, ofNat_eq_iff]
  unfold unread at hs hj
  bv_omega

/-- In every run from a pipe with at most `PIPESIZE - 1` unread bytes, the full test is exact in
every state and no store hits an unread byte exactly when the read cursor is in the first lap
whenever the pipe is full. -/
theorem always_exact_iff {s : State P} {as : List (Act P)} (hs : unread s ≤ 511) :
    Always step Exact s as ∧ Meets step KeepsUnread s as ↔ Always step FirstLap s as := by
  constructor
  · rintro ⟨hexact, -⟩
    exact hexact.mono fun t ht => (exact_iff ht.bounded).mp ht
  · intro hlap
    have hboth := hlap.strengthen (fun _ _ _ => step_bounded) hs
    exact ⟨hboth.mono fun t ht => (exact_iff ht.1).mpr ht.2,
      hboth.meets fun t a ht => keepsUnread_of_bounded ht.1⟩

theorem always_exact_iff_write :
    Always step Exact emptyPipe [.pipeWrite () 0 1, .lock (), .run (), .run ()] ∧
        Meets step KeepsUnread emptyPipe [.pipeWrite () 0 1, .lock (), .run (), .run ()] ↔
      Always step FirstLap emptyPipe [.pipeWrite () 0 1, .lock (), .run (), .run ()] :=
  always_exact_iff (by decide)

/-- The only process is at `pc`, with the pipe readable and its cursors at `r` and `w`. -/
structure At (s : State Unit) (lock : Option Unit) (pc : Pc) (r w : BitVec 32) : Prop where
  pipeLock : s.pipeLock = lock
  pc : s.pc () = pc
  readable : s.readable ≠ 0
  readCursor : s.readCursor = r
  writeCursor : s.writeCursor = w

/-- A write of 511 bytes. -/
def writeAll : List (Act Unit) :=
  [.pipeWrite () 0 511, .lock ()] ++ List.replicate 511 (.run ()) ++ [.run ()]

/-- A read of 511 bytes. -/
def readAll : List (Act Unit) :=
  [.pipeRead () 0 511, .lock (), .run ()] ++ List.replicate 511 (.run ()) ++ [.ret () 0]

theorem store_one {c : BitVec 32} {i : Nat} (hi : i < 511) {s : State Unit}
    (h : At s (some ()) (.write 0 511 i) c (c + BitVec.ofNat 32 i)) :
    ∃ t, step s (.run ()) = some t ∧
      At t (some ()) (.write 0 511 (i + 1)) c (c + BitVec.ofNat 32 (i + 1)) := by
  obtain ⟨hlock, hpc, hreadable, hr, hw⟩ := h
  have hroom : (s.writeCursor + 1) % 512 ≠ s.readCursor := by
    change ¬ Full s
    rw [full_toNat, hr, hw, BitVec.toNat_add, BitVec.toNat_ofNat]
    omega
  have hlen : (i : Int) < 511 := by omega
  refine ⟨writeStep s () 0 511 i, by simp only [step, hpc], ?_⟩
  rw [writeStep, if_pos hlen, if_neg hreadable, if_neg hroom]
  refine ⟨hlock, goto_pc s () _, hreadable, hr, ?_⟩
  change s.writeCursor + 1 = _
  rw [hw, BitVec.ofNat_add, BitVec.add_assoc]
  rfl

theorem run_writeAll {c : BitVec 32} {s : State Unit} (h : At s none .idle c c) :
    ∃ t, run step s writeAll = some t ∧ At t none .idle c (c + 511) := by
  obtain ⟨hlock, hpc, hreadable, hr, hw⟩ := h
  have hcall : run step s [.pipeWrite () 0 511, .lock ()] =
      some (acquire (s.goto () (.writeLock 0 511)) () (.write 0 511 0)) := by
    simp [run_cons, step, State.goto, hpc, hlock]
  have hstart : At (acquire (s.goto () (.writeLock 0 511)) () (.write 0 511 0)) (some ())
      (.write 0 511 0) c (c + BitVec.ofNat 32 0) :=
    ⟨rfl, goto_pc (s.goto () (.writeLock 0 511)) () _, hreadable, hr,
      hw.trans (BitVec.add_zero c).symm⟩
  obtain ⟨t, ht, -, hpc', hreadable', hr', hw'⟩ :=
    run_replicate_of_step (n := 511)
      (J := fun i s => At s (some ()) (.write 0 511 i) c (c + BitVec.ofNat 32 i))
      (fun _ hi _ => store_one hi) hstart
  refine ⟨release (wakeup t .readCursor) (), ?_, rfl, goto_pc (wakeup t .readCursor) () _,
    hreadable', hr', hw'⟩
  rw [writeAll, run_append, run_append, hcall, Option.bind_some, ht, Option.bind_some, run_cons]
  simp [step, hpc', writeStep]

theorem take_one {c : BitVec 32} {i : Nat} (hi : i < 511) {s : State Unit}
    (h : At s (some ()) (.read 0 511 i) (c + BitVec.ofNat 32 i) (c + 511)) :
    ∃ t, step s (.run ()) = some t ∧
      At t (some ()) (.read 0 511 (i + 1)) (c + BitVec.ofNat 32 (i + 1)) (c + 511) := by
  obtain ⟨hlock, hpc, hreadable, hr, hw⟩ := h
  have hsome : (i : Int) < 511 ∧ s.readCursor ≠ s.writeCursor := by
    rw [hr, hw]
    exact ⟨by omega, by bv_omega⟩
  refine ⟨readStep s () 0 511 i, by simp only [step, hpc, if_pos hsome], ?_⟩
  refine ⟨hlock, goto_pc s () _, hreadable, ?_, hw⟩
  change s.readCursor + 1 = _
  rw [hr, BitVec.ofNat_add, BitVec.add_assoc]
  rfl

theorem run_readAll {c : BitVec 32} {s : State Unit} (h : At s none .idle c (c + 511)) :
    ∃ t, run step s readAll = some t ∧ At t none .idle (c + 511) (c + 511) := by
  obtain ⟨hlock, hpc, hreadable, hr, hw⟩ := h
  have hne : s.readCursor ≠ s.writeCursor := by
    rw [hr, hw]
    bv_omega
  have hcall : run step s [.pipeRead () 0 511, .lock (), .run ()] =
      some ((acquire (s.goto () (.readLock 0 511)) () (.readWait 0 511)).goto ()
        (.read 0 511 0)) := by
    simp [run_cons, step, State.goto, acquire, hpc, hlock, readWaitStep, hne]
  have hstart : At ((acquire (s.goto () (.readLock 0 511)) () (.readWait 0 511)).goto ()
      (.read 0 511 0)) (some ()) (.read 0 511 0) (c + BitVec.ofNat 32 0) (c + 511) :=
    ⟨rfl, goto_pc _ () _, hreadable, hr.trans (BitVec.add_zero c).symm, hw⟩
  obtain ⟨t, ht, -, hpc', hreadable', hr', hw'⟩ :=
    run_replicate_of_step (n := 511)
      (J := fun i s => At s (some ()) (.read 0 511 i) (c + BitVec.ofNat 32 i) (c + 511))
      (fun _ hi _ => take_one hi) hstart
  refine ⟨{ release (wakeup t .writeCursor) () with
    returned := Function.update t.returned () 0 }, ?_, rfl, goto_pc (wakeup t .writeCursor) () _,
    hreadable', hr', hw'⟩
  rw [readAll, run_append, run_append, hcall, Option.bind_some, ht, Option.bind_some, run_cons]
  simp [step, hpc', release, wakeup, State.goto]

theorem emptyPipe_at : At emptyPipe none .idle 0 0 := ⟨rfl, rfl, by decide, rfl, rfl⟩

/-- With both cursors past the first lap, a write of 511 bytes leaves the full test false. -/
theorem not_always_exact : ¬ ∀ (s u : State Unit) (as : List (Act Unit)), Empty s →
    run step s as = some u → Always step Exact s as ∧ Meets step KeepsUnread s as := by
  intro h
  obtain ⟨s1, h1, hs1⟩ := run_writeAll emptyPipe_at
  obtain ⟨s2, h2, hs2⟩ := run_readAll hs1
  obtain ⟨s3, h3, hs3⟩ := run_writeAll hs2
  obtain ⟨s4, h4, hs4⟩ := run_readAll hs3
  obtain ⟨s5, h5, hs5⟩ := run_writeAll hs4
  have hrun : run step emptyPipe (writeAll ++ readAll ++ writeAll ++ readAll ++ writeAll) =
      some s5 := by
    rw [run_append, run_append, run_append, run_append, h1, Option.bind_some, h2, Option.bind_some,
      h3, Option.bind_some, h4, Option.bind_some, h5]
  have hexact := (h _ _ _ emptyPipe_empty hrun).1.final hrun
  have hfull : unread s5 = 511 := by
    rw [unread, hs5.readCursor, hs5.writeCursor]
    decide
  have hlap := (exact_iff hexact.bounded).mp hexact hfull
  rw [hs5.readCursor] at hlap
  exact absurd hlap (by decide)

end Raynix.PipeCapacity
