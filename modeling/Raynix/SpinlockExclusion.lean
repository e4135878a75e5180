import Raynix.Spinlock

namespace Raynix.SpinlockExclusion

open Raynix.Lib.Transition Raynix.Spinlock

variable {H L : Type} [DecidableEq H] [DecidableEq L]

/-- The machine with the harts past the exchange loop of `acquire` and before the exchange of
`release`. -/
structure Tracked (H L : Type) where
  machine : Machine H L
  holds : H → L → Bool

def setHolds (holds : H → L → Bool) (h : H) (lock : L) (b : Bool) : H → L → Bool :=
  fun h' lock' => if h' = h ∧ lock' = lock then b else holds h' lock'

def track (s : Tracked H L) : Act H L → H → L → Bool
  | .exchange h =>
    match s.machine.pc h with
    | .spin lock =>
      if s.machine.available lock = 0 then s.holds else setHolds s.holds h lock true
    | _ => s.holds
  | .release h lock => setHolds s.holds h lock false
  | _ => s.holds

/-- `release` is called by the holder only. -/
def Allowed (s : Tracked H L) : Act H L → Prop
  | .release h lock => s.holds h lock = true
  | _ => True

instance (s : Tracked H L) : ∀ a, Decidable (Allowed s a)
  | .release h lock => inferInstanceAs (Decidable (s.holds h lock = true))
  | .push _ | .pop _ | .acquire _ _ | .exchange _ | .curProc _ | .finish _ => .isTrue trivial

def trackedStep (s : Tracked H L) (a : Act H L) : Option (Tracked H L) :=
  if Allowed s a then (step s.machine a).map (fun m => ⟨m, track s a⟩) else none

/-- At most one hart holds the lock, and the word is 0 exactly when one does. -/
structure Exclusive (lock : L) (s : Tracked H L) : Prop where
  unique : ∀ h h', s.holds h lock = true → s.holds h' lock = true → h = h'
  word : s.machine.available lock = 0 ↔ ∃ h, s.holds h lock = true

/-- What a step does to the words and to who holds what: nothing, a taking or a release. A failed
exchange writes the 0 that is there. -/
theorem trackedStep_cases {s t : Tracked H L} {a : Act H L} (h : trackedStep s a = some t) :
    (t.machine.available = s.machine.available ∧ t.holds = s.holds) ∨
    (∃ h lock, s.machine.available lock ≠ 0 ∧
      t.machine.available = Function.update s.machine.available lock 0 ∧
      t.holds = setHolds s.holds h lock true) ∨
    (∃ h lock, s.holds h lock = true ∧
      t.machine.available = Function.update s.machine.available lock 1 ∧
      t.holds = setHolds s.holds h lock false) := by
  simp only [trackedStep, Option.ite_none_right_eq_some, Option.map_eq_some_iff] at h
  obtain ⟨hallowed, m, hm, rfl⟩ := h
  cases a with
  | push g | acquire g lock | curProc g | pop g =>
    simp only [step, Option.ite_none_right_eq_some, Option.some.injEq] at hm
    obtain ⟨-, rfl⟩ := hm
    exact .inl ⟨rfl, rfl⟩
  | exchange g =>
    simp only [step] at hm
    split at hm
    case h_1 lock hpc =>
      cases hm
      by_cases h0 : s.machine.available lock = 0
      · refine .inl ⟨?_, ?_⟩
        · change Function.update s.machine.available lock 0 = _
          rw [← h0, Function.update_eq_self]
        · simp only [track, hpc, if_pos h0]
      · refine .inr (.inl ⟨g, lock, h0, rfl, ?_⟩)
        simp only [track, hpc, if_neg h0]
    case h_2 => cases hm
  | release g lock =>
    simp only [step, Option.ite_none_right_eq_some, Option.some.injEq] at hm
    obtain ⟨-, rfl⟩ := hm
    exact .inr (.inr ⟨g, lock, hallowed, rfl, rfl⟩)
  | finish g =>
    simp only [step, Option.ite_none_right_eq_some] at hm
    obtain ⟨-, hm⟩ := hm
    split at hm
    all_goals cases hm
    all_goals exact .inl ⟨rfl, rfl⟩

theorem setHolds_of_ne {holds : H → L → Bool} {h h' : H} {lock lock' : L} {b : Bool}
    (hne : lock' ≠ lock) : setHolds holds h lock b h' lock' = holds h' lock' :=
  if_neg (fun hc => hne hc.2)

theorem Exclusive.take {lock : L} {s t : Tracked H L} {h : H} (hs : Exclusive lock s)
    (h0 : s.machine.available lock ≠ 0)
    (ha : t.machine.available = Function.update s.machine.available lock 0)
    (hh : t.holds = setHolds s.holds h lock true) : Exclusive lock t := by
  have hnone : ∀ h', s.holds h' lock ≠ true := fun h' hh' => h0 (hs.word.mpr ⟨h', hh'⟩)
  have honly : ∀ h', t.holds h' lock = true ↔ h' = h := by
    intro h'
    rw [hh, setHolds]
    by_cases he : h' = h
    · simp [he]
    · simp [he, hnone h']
  refine ⟨fun h₁ h₂ h1 h2 => ?_, ?_⟩
  · rw [(honly h₁).mp h1, (honly h₂).mp h2]
  · rw [ha, Function.update_self]
    exact iff_of_true rfl ⟨h, (honly h).mpr rfl⟩

theorem Exclusive.give {lock : L} {s t : Tracked H L} {h : H} (hs : Exclusive lock s)
    (hheld : s.holds h lock = true)
    (ha : t.machine.available = Function.update s.machine.available lock 1)
    (hh : t.holds = setHolds s.holds h lock false) : Exclusive lock t := by
  have hnone : ∀ h', t.holds h' lock ≠ true := by
    intro h'
    rw [hh, setHolds]
    by_cases he : h' = h
    · simp [he]
    · simpa [he] using fun hh' => he (hs.unique h' h hh' hheld)
  refine ⟨fun h₁ h₂ h1 => absurd h1 (hnone h₁), ?_⟩
  rw [ha, Function.update_self]
  exact iff_of_false (by decide) (fun ⟨h', hh'⟩ => hnone h' hh')

omit [DecidableEq H] [DecidableEq L] in
theorem Exclusive.of_eq {lock : L} {s t : Tracked H L} (hs : Exclusive lock s)
    (ha : t.machine.available lock = s.machine.available lock)
    (hh : ∀ h, t.holds h lock = s.holds h lock) : Exclusive lock t := by
  refine ⟨fun h h' h1 h2 => ?_, ?_⟩
  · exact hs.unique h h' ((hh h).symm.trans h1) ((hh h').symm.trans h2)
  · simp only [ha, hh]
    exact hs.word

theorem step_exclusive {lock : L} {s t : Tracked H L} {a : Act H L} (hs : Exclusive lock s)
    (h : trackedStep s a = some t) : Exclusive lock t := by
  obtain ⟨ha, hh⟩ | ⟨g, lock', h0, ha, hh⟩ | ⟨g, lock', hheld, ha, hh⟩ := trackedStep_cases h
  · exact hs.of_eq (congrFun ha lock) (fun g => congrFun (congrFun hh g) lock)
  · by_cases hl : lock = lock'
    · subst hl
      exact hs.take h0 ha hh
    · apply hs.of_eq
      · rw [ha, Function.update_of_ne hl]
      · exact fun g => by rw [hh, setHolds_of_ne hl]
  · by_cases hl : lock = lock'
    · subst hl
      exact hs.give hheld ha hh
    · apply hs.of_eq
      · rw [ha, Function.update_of_ne hl]
      · exact fun g => by rw [hh, setHolds_of_ne hl]

omit [DecidableEq H] in
theorem start_exclusive (m : Machine H L) (lock : L) {holds : H → L → Bool}
    (hnone : ∀ h, holds h lock = false) : Exclusive lock ⟨spinlockInit m lock, holds⟩ := by
  refine ⟨fun h h' hh => absurd hh (by simp [hnone h]), ?_⟩
  simp [spinlockInit, hnone]

/-- From `spinlock_init` on, in every run of any number of harts, at most one hart holds the
lock and its word is 0 exactly while one does. -/
theorem run_exclusive {m : Machine H L} {holds : H → L → Bool} {lock : L} {t : Tracked H L}
    {as : List (Act H L)} (hnone : ∀ h, holds h lock = false)
    (h : run trackedStep ⟨spinlockInit m lock, holds⟩ as = some t) : Exclusive lock t :=
  run_invariant (fun _ _ _ hs ht => step_exclusive hs ht) (start_exclusive m lock hnone) h

/-- Two harts and a lock word that is still 0. -/
def zeroed : Machine Bool Unit where
  harts _ := ⟨0, 0, 0, 0⟩
  available _ := 0
  pc _ := .idle
  returned _ := 0
  pending _ := 0

/-- Both harts ask for the lock; the second gets it after the release. -/
def contended : List (Act Bool Unit) :=
  [.acquire true (), .acquire false (), .exchange true, .exchange false, .release true (),
    .exchange false]

theorem contended_isSome :
    (run trackedStep ⟨spinlockInit zeroed (), fun _ _ => false⟩ contended).isSome := by
  decide

theorem run_exclusive_contended : Exclusive ()
    ((run trackedStep ⟨spinlockInit zeroed (), fun _ _ => false⟩ contended).get
      contended_isSome) :=
  run_exclusive (fun _ => rfl) (Option.some_get contended_isSome).symm

end Raynix.SpinlockExclusion
