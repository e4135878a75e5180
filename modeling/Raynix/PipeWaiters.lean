import Raynix.Pipe
import Mathlib.Tactic.Common

namespace Raynix.PipeWaiters

open Raynix.Lib.Transition Raynix.Pipe

variable {P : Type}

/-- The number of bytes put into the pipe and not taken out. -/
def unread (s : State P) : Nat := s.stored.length - s.taken.length

/-- The cursors are apart by the unread bytes. -/
def Counted (s : State P) : Prop :=
  s.taken.length ≤ s.stored.length ∧
    s.writeCursor = s.readCursor + BitVec.ofNat 32 (unread s)

/-- A pipe with both ends open, with any bytes in it, on which no call is in progress. -/
structure Open (s : State P) : Prop where
  readable : s.readable ≠ 0
  writeable : s.writeable ≠ 0
  counted : Counted s
  pipeLock : s.pipeLock = none
  pc : ∀ p, s.pc p = .idle
  asleep : ∀ p, s.asleep p = none

/-- Nobody sleeps for a byte while there is one, or for room while there is some. -/
structure NoneStranded (s : State P) : Prop where
  readers : ∀ p, s.asleep p = some .readCursor → s.writeCursor = s.readCursor
  writers : ∀ p, s.asleep p = some .writeCursor → 512 - 1 ≤ unread s

/-- In the loop of `pipe_write`. -/
def Writing : Pc → Prop
  | .write _ _ _ => True
  | _ => False

/-- In the copy loop of `pipe_read`. -/
def Reading : Pc → Prop
  | .read _ _ _ => True
  | _ => False

/-- Between `acquire` and the next `release` or `sleep`. -/
def Busy : Pc → Prop
  | .write _ _ _ | .readWait _ _ | .read _ _ _ => True
  | _ => False

theorem Writing.busy {pc : Pc} (h : Writing pc) : Busy pc := by
  cases pc with
  | write startAddr len i => trivial
  | _ => cases h

theorem Reading.busy {pc : Pc} (h : Reading pc) : Busy pc := by
  cases pc with
  | read target len i => trivial
  | _ => cases h

/-- Whoever stores bytes wakes the readers before the lock is free, whoever takes bytes wakes the
writers. -/
structure Inv (s : State P) : Prop where
  readable : s.readable ≠ 0
  holder : ∀ p, Busy (s.pc p) → s.pipeLock = some p
  readers : ∀ q, s.asleep q = some .readCursor →
    s.writeCursor = s.readCursor ∨ ∃ p, Writing (s.pc p)
  writers : ∀ q, s.asleep q = some .writeCursor →
    (s.writeCursor + 1) % 512 = s.readCursor ∨ ∃ p, Reading (s.pc p)

theorem Open.inv {s : State P} (hs : Open s) : Inv s := by
  refine ⟨hs.readable, fun p hp => ?_, fun q hq => ?_, fun q hq => ?_⟩
  · rw [hs.pc] at hp
    cases hp
  · rw [hs.asleep] at hq
    cases hq
  · rw [hs.asleep] at hq
    cases hq

theorem Inv.full_of_free {s : State P} (hs : Inv s) (hlock : s.pipeLock = none) {q : P}
    (hq : s.asleep q = some .writeCursor) : (s.writeCursor + 1) % 512 = s.readCursor := by
  refine (hs.writers q hq).resolve_right ?_
  rintro ⟨p, hp⟩
  have hholder := hs.holder p hp.busy
  rw [hlock] at hholder
  cases hholder

theorem Inv.empty_of_free {s : State P} (hs : Inv s) (hlock : s.pipeLock = none) {q : P}
    (hq : s.asleep q = some .readCursor) : s.writeCursor = s.readCursor := by
  refine (hs.readers q hq).resolve_right ?_
  rintro ⟨p, hp⟩
  have hholder := hs.holder p hp.busy
  rw [hlock] at hholder
  cases hholder

theorem Inv.empty_of_busy {s : State P} (hs : Inv s) {p q : P} {pc : Pc} (hpc : s.pc p = pc)
    (hp : Busy pc) (hnot : ¬ Writing pc) (hq : s.asleep q = some .readCursor) :
    s.writeCursor = s.readCursor := by
  subst hpc
  refine (hs.readers q hq).resolve_right ?_
  rintro ⟨r, hr⟩
  obtain rfl : p = r := Option.some.inj ((hs.holder p hp).symm.trans (hs.holder r hr.busy))
  exact hnot hr

theorem Inv.full_of_busy {s : State P} (hs : Inv s) {p q : P} {pc : Pc} (hpc : s.pc p = pc)
    (hp : Busy pc) (hnot : ¬ Reading pc) (hq : s.asleep q = some .writeCursor) :
    (s.writeCursor + 1) % 512 = s.readCursor := by
  subst hpc
  refine (hs.writers q hq).resolve_right ?_
  rintro ⟨r, hr⟩
  obtain rfl : p = r := Option.some.inj ((hs.holder p hp).symm.trans (hs.holder r hr.busy))
  exact hnot hr

theorem Inv.idle_of_ne {s : State P} (hs : Inv s) {p q : P} (hp : Busy (s.pc p)) (hq : q ≠ p) :
    ¬ Busy (s.pc q) :=
  fun h => hq (Option.some.inj ((hs.holder q h).symm.trans (hs.holder p hp)))

theorem wakeup_asleep {s : State P} {channel channel' : Channel} {q : P}
    (h : (wakeup s channel).asleep q = some channel') :
    s.asleep q = some channel' ∧ channel' ≠ channel := by
  simp only [wakeup] at h
  split at h
  · cases h
  · rename_i hne
    exact ⟨h, fun he => hne (he ▸ h)⟩

variable [DecidableEq P]

theorem Busy.update {s : State P} {p q : P} {pc : Pc} (h : Busy (Function.update s.pc p pc q)) :
    q = p ∧ Busy pc ∨ q ≠ p ∧ Busy (s.pc q) := by
  by_cases hq : q = p
  · rw [hq, Function.update_self] at h
    exact .inl ⟨hq, h⟩
  · rw [Function.update_of_ne hq] at h
    exact .inr ⟨hq, h⟩

theorem Inv.call {s : State P} (hs : Inv s) {p : P} {pc : Pc} (hp : s.pc p = .idle)
    (hpc : ¬ Busy pc) : Inv (s.goto p pc) := by
  have hkeep : ∀ q, Busy (s.pc q) → (s.goto p pc).pc q = s.pc q := by
    intro q hq
    refine Function.update_of_ne ?_ ..
    rintro rfl
    rw [hp] at hq
    exact hq
  refine ⟨hs.readable, fun q hq => ?_, fun q hq => ?_, fun q hq => ?_⟩
  · obtain ⟨-, hb⟩ | ⟨-, hb⟩ := Busy.update hq
    · exact absurd hb hpc
    · exact hs.holder q hb
  · refine (hs.readers q hq).imp_right ?_
    rintro ⟨r, hr⟩
    exact ⟨r, by rwa [hkeep r hr.busy]⟩
  · refine (hs.writers q hq).imp_right ?_
    rintro ⟨r, hr⟩
    exact ⟨r, by rwa [hkeep r hr.busy]⟩

theorem Inv.acquire {s : State P} (hs : Inv s) (hlock : s.pipeLock = none) (p : P) (pc : Pc) :
    Inv (acquire s p pc) := by
  have hasleep : ∀ q channel, (Pipe.acquire s p pc).asleep q = some channel →
      s.asleep q = some channel := by
    intro q channel hq
    change Function.update s.asleep p none q = _ at hq
    by_cases hqp : q = p
    · rw [hqp, Function.update_self] at hq
      cases hq
    · rwa [Function.update_of_ne hqp] at hq
  refine ⟨hs.readable, fun q hq => ?_, fun q hq => ?_, fun q hq => ?_⟩
  · obtain ⟨rfl, -⟩ | ⟨-, hb⟩ := Busy.update hq
    · rfl
    · have hholder := hs.holder q hb
      rw [hlock] at hholder
      cases hholder
  · exact .inl (hs.empty_of_free hlock (hasleep q _ hq))
  · exact .inl (hs.full_of_free hlock (hasleep q _ hq))

theorem Inv.release {s : State P} (hs : Inv s) {p : P} (hp : Busy (s.pc p)) {t : State P}
    {pc : Pc} (hreadable : t.readable = s.readable) (hpc : t.pc = Function.update s.pc p pc)
    (hidle : ¬ Busy pc)
    (hreaders : ∀ q, t.asleep q = some .readCursor → t.writeCursor = t.readCursor)
    (hwriters : ∀ q, t.asleep q = some .writeCursor → (t.writeCursor + 1) % 512 = t.readCursor) :
    Inv t := by
  refine ⟨hreadable ▸ hs.readable, fun q hq => ?_, fun q hq => .inl (hreaders q hq),
    fun q hq => .inl (hwriters q hq)⟩
  rw [hpc] at hq
  obtain ⟨-, hb⟩ | ⟨hqp, hb⟩ := Busy.update hq
  · exact absurd hb hidle
  · exact absurd hb (hs.idle_of_ne hp hqp)

theorem Inv.keep {s : State P} (hs : Inv s) {p : P} (hp : Busy (s.pc p)) {t : State P} {pc : Pc}
    (hreadable : t.readable = s.readable) (hlock : t.pipeLock = s.pipeLock)
    (hpc : t.pc = Function.update s.pc p pc)
    (hreaders : ∀ q, t.asleep q = some .readCursor → t.writeCursor = t.readCursor ∨ Writing pc)
    (hwriters : ∀ q, t.asleep q = some .writeCursor →
      (t.writeCursor + 1) % 512 = t.readCursor ∨ Reading pc) : Inv t := by
  have hself : t.pc p = pc := by
    rw [hpc, Function.update_self]
  refine ⟨hreadable ▸ hs.readable, fun q hq => ?_, fun q hq => ?_, fun q hq => ?_⟩
  · rw [hpc] at hq
    obtain ⟨rfl, -⟩ | ⟨hqp, hb⟩ := Busy.update hq
    · rw [hlock]
      exact hs.holder q hp
    · exact absurd hb (hs.idle_of_ne hp hqp)
  · exact (hreaders q hq).imp_right fun h => ⟨p, hself ▸ h⟩
  · exact (hwriters q hq).imp_right fun h => ⟨p, hself ▸ h⟩

theorem sleep_asleep {s : State P} {p q : P} {channel channel' : Channel} {pc : Pc}
    (h : (sleep s p channel pc).asleep q = some channel') :
    channel' = channel ∨ s.asleep q = some channel' := by
  change Function.update s.asleep p (some channel) q = _ at h
  by_cases hq : q = p
  · rw [hq, Function.update_self] at h
    exact .inl (Option.some.inj h).symm
  · rw [Function.update_of_ne hq] at h
    exact .inr h

theorem writeStep_inv {s : State P} (hs : Inv s) {p : P} {startAddr : Addr} {len : Int} {i : Nat}
    (hpc : s.pc p = .write startAddr len i) : Inv (writeStep s p startAddr len i) := by
  have hbusy : Busy (s.pc p) := by
    rw [hpc]
    trivial
  have hfull : ∀ q, s.asleep q = some .writeCursor → (s.writeCursor + 1) % 512 = s.readCursor :=
    fun q hq => hs.full_of_busy hpc trivial not_false hq
  rw [writeStep, if_neg hs.readable]
  split
  case isTrue =>
    split
    case isTrue hroom =>
      refine hs.release hbusy rfl rfl not_false (fun q hq => ?_) (fun q hq => hroom)
      obtain hc | hq := sleep_asleep hq
      · cases hc
      · exact absurd rfl (wakeup_asleep hq).2
    case isFalse hroom =>
      refine hs.keep hbusy rfl rfl rfl (fun q hq => .inr trivial) (fun q hq => ?_)
      exact absurd (hfull q hq) hroom
  case isFalse =>
    refine hs.release hbusy rfl rfl not_false (fun q hq => ?_) (fun q hq => ?_)
    · exact absurd rfl (wakeup_asleep hq).2
    · exact hfull q (wakeup_asleep hq).1

theorem readWaitStep_inv {s : State P} (hs : Inv s) {p : P} {target : Addr} {len : Int}
    (hpc : s.pc p = .readWait target len) : Inv (readWaitStep s p target len) := by
  have hbusy : Busy (s.pc p) := by
    rw [hpc]
    trivial
  have hfull : ∀ q, s.asleep q = some .writeCursor → (s.writeCursor + 1) % 512 = s.readCursor :=
    fun q hq => hs.full_of_busy hpc trivial not_false hq
  rw [readWaitStep]
  split
  case isTrue hempty =>
    refine hs.release hbusy rfl rfl not_false (fun q hq => hempty.1.symm) (fun q hq => ?_)
    obtain hc | hq := sleep_asleep hq
    · cases hc
    · exact hfull q hq
  case isFalse =>
    refine hs.keep hbusy rfl rfl rfl (fun q hq => ?_) (fun q hq => .inl (hfull q hq))
    exact .inl (hs.empty_of_busy hpc trivial not_false hq)

theorem readStep_inv {s : State P} (hs : Inv s) {p : P} {target : Addr} {len : Int} {i : Nat}
    (hpc : s.pc p = .read target len i) (hne : s.readCursor ≠ s.writeCursor) :
    Inv (readStep s p target len i) := by
  have hbusy : Busy (s.pc p) := by
    rw [hpc]
    trivial
  refine hs.keep hbusy rfl rfl rfl (fun q hq => ?_) (fun q hq => .inr trivial)
  exact absurd (hs.empty_of_busy hpc trivial not_false hq).symm hne

theorem step_inv {s t : State P} {a : Act P} (hs : Inv s) (h : step s a = some t) : Inv t := by
  cases a with
  | pipeWrite p startAddr len | pipeRead p startAddr len =>
    simp only [step, Option.ite_none_right_eq_some, Option.some.injEq] at h
    obtain ⟨hp, rfl⟩ := h
    exact hs.call hp not_false
  | lock p =>
    simp only [step, Option.ite_none_right_eq_some] at h
    obtain ⟨hlock, h⟩ := h
    split at h
    case h_5 => cases h
    all_goals
      cases h
      exact hs.acquire hlock p _
  | run p =>
    simp only [step] at h
    split at h
    case h_1 startAddr len i hpc =>
      cases h
      exact writeStep_inv hs hpc
    case h_2 target len hpc =>
      cases h
      exact readWaitStep_inv hs hpc
    case h_3 target len i hpc =>
      simp only [Option.ite_none_right_eq_some, Option.some.injEq] at h
      obtain ⟨⟨-, hne⟩, rfl⟩ := h
      exact readStep_inv hs hpc hne
    case h_4 => cases h
  | ret p i =>
    simp only [step] at h
    split at h
    case h_1 target len j hpc =>
      simp only [Option.ite_none_left_eq_some, Option.some.injEq] at h
      obtain ⟨-, rfl⟩ := h
      have hbusy : Busy (s.pc p) := by
        rw [hpc]
        trivial
      refine hs.release hbusy rfl rfl not_false (fun q hq => ?_) (fun q hq => ?_)
      · have hq' := (wakeup_asleep (s := s) hq).1
        exact hs.empty_of_busy hpc trivial not_false hq'
      · exact absurd rfl (wakeup_asleep (s := s) hq).2
    case h_2 => cases h

theorem step_counted {s t : State P} {a : Act P} (hs : Counted s) (h : step s a = some t) :
    Counted t := by
  obtain ⟨hle, hcursors⟩ := hs
  obtain ⟨-, hr, hw, hstored, htaken⟩ | ⟨p, b, -, -, hr, hw, -, hstored, htaken⟩ |
    ⟨p, -, ⟨_, _, _, _, _, hne⟩, hr, hw, -, hstored, htaken⟩ := step_ring h
  · rw [Counted, unread, hr, hw, hstored, htaken]
    exact ⟨hle, hcursors⟩
  · have hunread : unread t = unread s + 1 := by
      simp only [unread, hstored, htaken, List.length_append, List.length_singleton]
      omega
    refine ⟨?_, ?_⟩
    · rw [hstored, htaken, List.length_append]
      omega
    · rw [hunread, hr, hw, hcursors, BitVec.ofNat_add, BitVec.add_assoc]
      rfl
  · have hpos : 0 < unread s := by
      refine Nat.pos_of_ne_zero fun h0 => hne ?_
      rw [hcursors, h0]
      simp
    have hunread : unread s = unread t + 1 := by
      simp only [unread, hstored, htaken, List.length_append, List.length_singleton] at hpos ⊢
      omega
    refine ⟨?_, ?_⟩
    · rw [hstored, htaken, List.length_append, List.length_singleton]
      simp only [unread] at hpos
      omega
    · rw [hw, hr, hcursors, hunread, BitVec.ofNat_add, BitVec.add_comm (BitVec.ofNat 32 _),
        ← BitVec.add_assoc]
      rfl

omit [DecidableEq P] in
/-- At a pipe that `pipe_write` finds full, all cells but one hold unread bytes, whatever the
cursors have run up to. -/
theorem Counted.full {s : State P} (hs : Counted s)
    (hfull : (s.writeCursor + 1) % 512 = s.readCursor) : 512 - 1 ≤ unread s := by
  have hcursors := hs.2
  generalize unread s = n at hcursors
  have hmod : (s.writeCursor.toNat + 1) % 2 ^ 32 % 512 = s.readCursor.toNat := by
    rw [← hfull, BitVec.toNat_umod, BitVec.toNat_add]
    rfl
  have hw : s.writeCursor.toNat = (s.readCursor.toNat + n % 2 ^ 32) % 2 ^ 32 := by
    rw [hcursors, BitVec.toNat_add, BitVec.toNat_ofNat]
  omega

/-- In every state that calls on an open pipe lead to, no reader or writer is left asleep once the
lock is free. -/
theorem noneStranded {s t : State P} {as : List (Act P)} (hs : Open s)
    (h : run step s as = some t) (hlock : t.pipeLock = none) : NoneStranded t := by
  have hinv : Inv t ∧ Counted t :=
    run_invariant (I := fun u => Inv u ∧ Counted u)
      (fun u a v hu hv => ⟨step_inv hu.1 hv, step_counted hu.2 hv⟩) ⟨hs.inv, hs.counted⟩ h
  refine ⟨fun p hp => hinv.1.empty_of_free hlock hp, fun p hp => ?_⟩
  exact hinv.2.full (hinv.1.full_of_free hlock hp)

/-- An open pipe without a byte, for two processes. -/
def openPipe : State Bool where
  pipeLock := none
  buffer _ := 0
  readCursor := 0
  writeCursor := 0
  writeable := 1
  readable := 1
  pc _ := .idle
  asleep _ := none
  returned _ := 0
  mem _ _ := 0
  stored := []
  taken := []

/-- One process waits for a byte, the other one writes one. -/
def wokenReader : List (Act Bool) :=
  [.pipeRead false 0 1, .lock false, .run false, .pipeWrite true 0 1, .lock true, .run true,
    .run true]

theorem wokenReader_isSome : (run step openPipe wokenReader).isSome := by
  decide

theorem noneStranded_wokenReader :
    NoneStranded ((run step openPipe wokenReader).get wokenReader_isSome) :=
  noneStranded ⟨by decide, by decide, ⟨by decide, rfl⟩, rfl, fun _ => rfl, fun _ => rfl⟩
    (Option.some_get wokenReader_isSome).symm rfl

end Raynix.PipeWaiters
