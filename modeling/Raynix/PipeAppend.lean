import Raynix.PipeFifo

namespace Raynix.PipeAppend

open Raynix.Lib.Transition Raynix.Pipe Raynix.PipeFifo

variable {P : Type}

/-- `p` makes no call of its own. -/
def NoCall (p : P) (a : Act P) : Prop :=
  ∀ addr len, a ≠ .pipeWrite p addr len ∧ a ≠ .pipeRead p addr len

/-- At the head of its loop `p` does not find the full test of `pipe_write` true. -/
def FindsRoom (p : P) (s : State P) (a : Act P) : Prop :=
  a = .run p → ∀ startAddr len i, s.pc p = .write startAddr len i → i < len →
    (s.writeCursor + 1) % 512 ≠ s.readCursor

/-- In a call of `pipe_write` the loop counter stands at `i`, or moves on to it. -/
def Passed (pc : Pc) (startAddr : Addr) (len : Int) (i : Nat) : Prop :=
  (pc = .writeLock startAddr len ∧ i = 0) ∨ pc = .write startAddr len i ∨
    ∃ j, pc = .writeSleep startAddr len j ∧ i = j + 1

/-- The bytes of the caller from position `i` on. -/
def bytesFrom (m : Addr → Byte) (startAddr : Addr) (len : Int) (i : Nat) : List Byte :=
  (List.range' i (len.toNat - i)).map fun k => m (startAddr + BitVec.ofNat 64 k)

theorem findsRoom_of_ne {p : P} {s : State P} {a : Act P} (h : a ≠ .run p) : FindsRoom p s a :=
  fun ha => absurd ha h

theorem bytesFrom_of_le (m : Addr → Byte) (startAddr : Addr) {len : Int} {i : Nat}
    (h : len.toNat ≤ i) : bytesFrom m startAddr len i = [] := by
  rw [bytesFrom, Nat.sub_eq_zero_of_le h]
  rfl

theorem bytesFrom_of_lt (m : Addr → Byte) (startAddr : Addr) {len : Int} {i : Nat}
    (h : i < len.toNat) : bytesFrom m startAddr len i =
      m (startAddr + BitVec.ofNat 64 i) :: bytesFrom m startAddr len (i + 1) := by
  have hlen : len.toNat - i = len.toNat - (i + 1) + 1 := by omega
  rw [bytesFrom, hlen, List.range'_succ]
  rfl

theorem length_bytesFrom (m : Addr → Byte) (startAddr : Addr) (len : Int) (i : Nat) :
    (bytesFrom m startAddr len i).length = len.toNat - i := by
  rw [bytesFrom, List.length_map, List.length_range']

variable [DecidableEq P]

/-- The bytes that the steps of `p` put into the pipe. -/
def appended (p : P) : State P → List (Act P) → List Byte
  | _, [] => []
  | s, a :: as =>
    match step s a with
    | none => []
    | some t => (if a.proc = p then t.stored.drop s.stored.length else []) ++ appended p t as

theorem appended_cons {p : P} {s t : State P} {a : Act P} {as : List (Act P)}
    (h : step s a = some t) : appended p s (a :: as) =
      (if a.proc = p then t.stored.drop s.stored.length else []) ++ appended p t as := by
  rw [appended, h]

theorem step_passed {p : P} {s t : State P} {a : Act P} {startAddr : Addr} {len : Int} {i : Nat}
    (h : step s a = some t) (hp : a.proc = p) (hno : NoCall p a) (hr : s.readable ≠ 0)
    (hpc : Passed (s.pc p) startAddr len i) : t.mem p = s.mem p ∧
      ((Passed (t.pc p) startAddr len i ∧ t.stored = s.stored ∧ FindsRoom p s a) ∨
      (len.toNat ≤ i ∧ t.pc p = .idle ∧ t.stored = s.stored ∧ FindsRoom p s a) ∨
      (i < len.toNat ∧ Passed (t.pc p) startAddr len (i + 1) ∧ t.stored = s.stored ∧
        ¬ FindsRoom p s a) ∨
      (i < len.toNat ∧ Passed (t.pc p) startAddr len (i + 1) ∧
        t.stored = s.stored ++ [s.mem p (startAddr + BitVec.ofNat 64 i)] ∧ FindsRoom p s a)) := by
  cases a with
  | pipeWrite q addr l =>
    obtain rfl : q = p := hp
    exact absurd rfl (hno addr l).1
  | pipeRead q addr l =>
    obtain rfl : q = p := hp
    exact absurd rfl (hno addr l).2
  | lock q =>
    obtain rfl : q = p := hp
    have hroom : FindsRoom q s (.lock q) := findsRoom_of_ne nofun
    simp only [step, Option.ite_none_right_eq_some] at h
    obtain ⟨-, h⟩ := h
    obtain ⟨hq, rfl⟩ | hq | ⟨j, hq, rfl⟩ := hpc
    all_goals rw [hq] at h
    · cases h
      exact ⟨rfl, .inl ⟨.inr (.inl (goto_pc s q _)), rfl, hroom⟩⟩
    · cases h
    · cases h
      exact ⟨rfl, .inl ⟨.inr (.inl (goto_pc s q _)), rfl, hroom⟩⟩
  | run q =>
    obtain rfl : q = p := hp
    obtain ⟨hq, rfl⟩ | hq | ⟨j, hq, rfl⟩ := hpc
    all_goals simp only [step, hq] at h
    · cases h
    · cases h
      rw [writeStep, if_neg hr]
      split
      case isTrue hi =>
        have hlt : i < len.toNat := by omega
        split
        case isTrue hfull =>
          refine ⟨rfl, .inr (.inr (.inl ⟨hlt, ?_, rfl, ?_⟩))⟩
          · exact .inr (.inr ⟨i, goto_pc (wakeup s .readCursor) q _, rfl⟩)
          · exact fun hroom => hroom rfl startAddr len i hq hi hfull
        case isFalse hroom =>
          refine ⟨rfl, .inr (.inr (.inr ⟨hlt, .inr (.inl (goto_pc s q _)), rfl, ?_⟩))⟩
          exact fun _ _ _ _ _ _ => hroom
      case isFalse hi =>
        refine ⟨rfl, .inr (.inl ⟨by omega, goto_pc (wakeup s .readCursor) q _, rfl, ?_⟩)⟩
        intro _ addr l k hk hlt
        rw [hq, Pc.write.injEq] at hk
        obtain ⟨-, rfl, rfl⟩ := hk
        exact absurd hlt hi
    · cases h
  | ret q j =>
    obtain rfl : q = p := hp
    obtain ⟨hq, rfl⟩ | hq | ⟨j, hq, rfl⟩ := hpc
    all_goals
      simp only [step, hq] at h
      cases h

theorem step_idle {p : P} {s t : State P} {a : Act P} (h : step s a = some t) (hno : NoCall p a)
    (hpc : s.pc p = .idle) : a.proc ≠ p := by
  rintro rfl
  cases a with
  | pipeWrite q addr l => exact (hno addr l).1 rfl
  | pipeRead q addr l => exact (hno addr l).2 rfl
  | lock q =>
    simp only [step, Option.ite_none_right_eq_some] at h
    change s.pc q = .idle at hpc
    rw [hpc] at h
    cases h.2
  | run q | ret q i =>
    change s.pc q = .idle at hpc
    simp only [step, hpc] at h
    cases h

theorem appended_others {p : P} {s t : State P} {a : Act P} (as : List (Act P))
    (h : step s a = some t) (hp : a.proc ≠ p) :
    appended p s (a :: as) = appended p t as ∧
      (Meets step (FindsRoom p) s (a :: as) ↔ Meets step (FindsRoom p) t as) := by
  have hroom : FindsRoom p s a := by
    apply findsRoom_of_ne
    rintro rfl
    exact hp rfl
  rw [appended_cons h, if_neg hp, List.nil_append, meets_cons h]
  exact ⟨rfl, and_iff_right hroom⟩

theorem appended_idle {p : P} {s t : State P} {as : List (Act P)} (hpc : s.pc p = .idle)
    (hno : ∀ a ∈ as, NoCall p a) (h : run step s as = some t) :
    appended p s as = [] ∧ Meets step (FindsRoom p) s as := by
  induction as generalizing s with
  | nil => exact ⟨rfl, trivial⟩
  | cons a as ih =>
    obtain ⟨u, hu, ht⟩ := run_cons_eq_some.mp h
    have hp := step_idle hu (hno a (by simp)) hpc
    have hupc : u.pc p = .idle := ((step_others hu).2.2 p hp.symm).1.trans hpc
    obtain ⟨happ, hmeets⟩ := appended_others as hu hp
    rw [happ, hmeets]
    exact ih hupc (fun b hb => hno b (by simp [hb])) ht

/-- From position `i` on, the writer stores at most the bytes that are left, and all of them
exactly when it always finds room. -/
theorem appended_passed {p : P} {s t : State P} {as : List (Act P)} {startAddr : Addr} {len : Int}
    {i : Nat} (hpc : Passed (s.pc p) startAddr len i) (hr : s.readable ≠ 0)
    (hno : ∀ a ∈ as, NoCall p a) (h : run step s as = some t) (hret : t.pc p = .idle) :
    (appended p s as).length ≤ len.toNat - i ∧
      (appended p s as = bytesFrom (s.mem p) startAddr len i ↔ Meets step (FindsRoom p) s as) := by
  induction as generalizing s i with
  | nil =>
    rw [run_nil, Option.some.injEq] at h
    rw [h, hret] at hpc
    obtain ⟨hpc, -⟩ | hpc | ⟨j, hpc, -⟩ := hpc <;> cases hpc
  | cons a as ih =>
    obtain ⟨u, hu, ht⟩ := run_cons_eq_some.mp h
    have hno' : ∀ b ∈ as, NoCall p b := fun b hb => hno b (by simp [hb])
    have hru : u.readable ≠ 0 := by
      rw [(step_others hu).1]
      exact hr
    by_cases hp : a.proc = p
    · rw [appended_cons hu, if_pos hp, meets_cons hu]
      obtain ⟨hmem, ⟨hpcu, hstored, hroom⟩ | ⟨hi, hpcu, hstored, hroom⟩ |
        ⟨hi, hpcu, hstored, hfull⟩ |
        ⟨hi, hpcu, hstored, hroom⟩⟩ := step_passed hu hp (hno a (by simp)) hr hpc
      · rw [hstored, List.drop_length, List.nil_append, and_iff_right hroom, ← hmem]
        exact ih hpcu hru hno' ht
      · obtain ⟨happ, hmeets⟩ := appended_idle hpcu hno' ht
        rw [hstored, List.drop_length, List.nil_append, happ, bytesFrom_of_le _ _ hi]
        exact ⟨Nat.zero_le _, iff_of_true rfl ⟨hroom, hmeets⟩⟩
      · -- A position slept over leaves the call one byte short.
        obtain ⟨hle, -⟩ := ih hpcu hru hno' ht
        rw [hstored, List.drop_length, List.nil_append]
        refine ⟨by omega, iff_of_false (fun heq => ?_) fun hm => hfull hm.1⟩
        have hlen := congrArg List.length heq
        rw [length_bytesFrom] at hlen
        omega
      · obtain ⟨hle, hiff⟩ := ih hpcu hru hno' ht
        rw [hstored, List.drop_left, List.singleton_append, bytesFrom_of_lt _ _ hi,
          List.cons_inj_right, List.length_cons, and_iff_right hroom, ← hmem]
        exact ⟨by omega, hiff⟩
    · obtain ⟨happ, hmeets⟩ := appended_others as hu hp
      obtain ⟨hpcu, hmem, -⟩ := (step_others hu).2.2 p (Ne.symm hp)
      rw [happ, hmeets, ← hmem]
      exact ih (hpcu ▸ hpc) hru hno' ht

/-- A call of `pipe_write` appends the bytes of the caller, each once and in order, exactly when it
never finds the buffer full. -/
theorem appended_iff {p : P} {s t : State P} {as : List (Act P)} {startAddr : Addr} {len : Int}
    (hr : s.readable ≠ 0) (hno : ∀ a ∈ as, NoCall p a)
    (h : run step s (.pipeWrite p startAddr len :: as) = some t) (hret : t.pc p = .idle) :
    appended p s (.pipeWrite p startAddr len :: as) =
        (List.range len.toNat).map (fun k => s.mem p (startAddr + BitVec.ofNat 64 k)) ↔
      Meets step (FindsRoom p) s (.pipeWrite p startAddr len :: as) := by
  obtain ⟨u, hu, ht⟩ := run_cons_eq_some.mp h
  have hcall : s.pc p = .idle ∧ s.goto p (.writeLock startAddr len) = u := by
    simpa only [step, Option.ite_none_right_eq_some, Option.some.injEq] using hu
  obtain ⟨-, rfl⟩ := hcall
  have hpc : Passed ((s.goto p (.writeLock startAddr len)).pc p) startAddr len 0 :=
    .inl ⟨goto_pc s p _, rfl⟩
  have hroom : FindsRoom p s (.pipeWrite p startAddr len) := findsRoom_of_ne (by simp)
  have hproc : (Act.pipeWrite p startAddr len).proc = p := rfl
  rw [appended_cons hu, if_pos hproc, meets_cons hu, and_iff_right hroom, List.range_eq_range']
  change s.stored.drop s.stored.length ++ _ = _ ↔ _
  rw [List.drop_length, List.nil_append]
  exact (appended_passed hpc hr hno ht hret).2

theorem appended_iff_write :
    appended () emptyPipe [.pipeWrite () 0 2, .lock (), .run (), .run (), .run ()] =
        (List.range 2).map (fun k => emptyPipe.mem () (0 + BitVec.ofNat 64 k)) ↔
      Meets step (FindsRoom ()) emptyPipe
        [.pipeWrite () 0 2, .lock (), .run (), .run (), .run ()] := by
  have hno : ∀ a ∈ [Act.lock (), .run (), .run (), .run ()], NoCall () a := by simp [NoCall]
  exact appended_iff (by decide) hno rfl rfl

/-- A full pipe of two processes. -/
def fullPipe : State Bool where
  pipeLock := none
  buffer _ := 0
  readCursor := 0
  writeCursor := 511
  writeable := 1
  readable := 1
  pc _ := .idle
  asleep _ := none
  returned _ := 0
  mem _ _ := 7
  stored := List.replicate 511 0
  taken := []

/-- The writer of one byte sleeps, the reader takes a byte, and the writer goes on. -/
def blocked : List (Act Bool) :=
  [.lock true, .run true, .pipeRead false 8 1, .lock false, .run false, .run false, .ret false 0,
    .lock true, .run true]

/-- The byte whose turn was slept over is lost. -/
theorem not_appended : ¬ ∀ (p : Bool) (s t : State Bool) (as : List (Act Bool)) (startAddr : Addr)
    (len : Int), s.readable ≠ 0 → (∀ a ∈ as, NoCall p a) →
    run step s (.pipeWrite p startAddr len :: as) = some t → t.pc p = .idle →
    appended p s (.pipeWrite p startAddr len :: as) =
      (List.range len.toNat).map (fun k => s.mem p (startAddr + BitVec.ofNat 64 k)) := by
  intro h
  have hno : ∀ a ∈ blocked, NoCall true a := by simp [NoCall, blocked]
  have hlost := h true fullPipe _ blocked 0 1 (by decide) hno rfl rfl
  have hnone : appended true fullPipe (.pipeWrite true 0 1 :: blocked) = [] := by decide +kernel
  rw [hnone] at hlost
  cases hlost

end Raynix.PipeAppend
