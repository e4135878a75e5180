import Raynix.Wakeup

namespace Raynix.WakeupEffect

open Raynix.Lib.Transition Raynix.Process Raynix.ProcessStep Raynix.Wakeup

variable {H C L : Type}

/-- A lock word in memory, or that of the local `cursor` of `wakeup`. -/
inductive Word (L : Type)
  | lock (lock : Lock L)
  | cursor
  deriving DecidableEq

/-- The lock word that a hart exchanges next. -/
def exchanged : Pc C L → Option (Word L)
  | .spin lock _ => some (.lock lock)
  | .unlock p | .start p | .yielded p | .retake p _ => some (.lock (.proc p))
  | .drop _ lock => some (.lock (.user lock))
  | .wakeSpin _ _ _ | .wakeFree _ _ _ => some .cursor
  | _ => none

/-- The processes that `wakeup(channel)`, called on hart `h`, is to wake up. -/
def Sleeper (m : Machine H C L) (h : H) (channel : C) (p : Fin 64) : Prop :=
  (m.harts h).thread ≠ some p ∧ Asleep m p channel

instance [DecidableEq C] (m : Machine H C L) (h : H) (channel : C) (p : Fin 64) :
    Decidable (Sleeper m h channel p) :=
  inferInstanceAs (Decidable ((m.harts h).thread ≠ some p ∧
    (m.procs p).state = .sleeping ∧ (m.procs p).channel = some channel))

variable [DecidableEq H] [DecidableEq C] [DecidableEq L]

/-- The process as `wakeup(channel)` is to leave it. -/
def woken (m : Machine H C L) (h : H) (channel : C) (p : Fin 64) : Proc C L :=
  if Sleeper m h channel p then { m.procs p with state := .runnable } else m.procs p

/-- Hart `h` calls `wakeup(channel)` and takes `n` steps. -/
def calling (m : Machine H C L) (h : H) (channel : C) (n : Nat) : Option (Machine H C L) :=
  run step m (.wakeup h channel :: List.replicate n (.run h))

/-- `wakeup` takes and releases locks of the table only. -/
def TableLocks (m : Machine H C L) (h : H) (channel : C) : Prop :=
  ∀ n t w, calling m h channel n = some t → exchanged (t.harts h).pc = some w →
    ∃ p, w = .lock (.proc p)

/-- Once it has returned, the sleepers are RUNNABLE and nothing else of the table has changed. -/
def WakesTable (m : Machine H C L) (h : H) (channel : C) : Prop :=
  ∀ n t, calling m h channel n = some t → (t.harts h).pc = .idle →
    t.procs = woken m h channel

/-- What `wakeup(channel)` called on hart `h` is to do. -/
structure WakeupSpec (m : Machine H C L) (h : H) (channel : C) : Prop where
  locks : TableLocks m h channel
  table : WakesTable m h channel

def Returns (m : Machine H C L) (h : H) (channel : C) : Prop :=
  ∃ n t, calling m h channel n = some t ∧ (t.harts h).pc = .idle

/-- `wakeup` is still to pass process `i`, or waits for a copy of its lock. -/
def Ahead (i : Fin 64) : Pc C L → Prop
  | .wake _ rest | .wakeTest _ rest _ | .wakeFree _ rest _ => i ∈ rest
  | .wakeSpin _ rest cursor => i ∈ rest ∨ cursor.lock = 0
  | _ => False

variable {m s t : Machine H C L} {h : H} {channel : C} {i : Fin 64}

theorem runHart_wakes (hs : runHart s h = some t)
    (hpc : wakeupChannel (s.harts h).pc = some channel) :
    t.procs = s.procs ∧
      (wakeupChannel (t.harts h).pc = some channel ∨ (t.harts h).pc = .idle) := by
  cases runHart_moves hs with
  | wakeDone channel' hpc' =>
    rw [set_self]
    exact ⟨rfl, .inr rfl⟩
  | wakeCopy channel' i rest hpc' =>
    rw [hpc'] at hpc
    refine ⟨rfl, .inl ?_⟩
    rw [Machine.copyProc, set_self]
    exact hpc
  | wakeSpin channel' rest cursor hpc' | wakeTake channel' rest cursor hpc'
  | wakeTest channel' rest cursor copy hpc' | wakeFree channel' rest cursor hpc' =>
    rw [hpc'] at hpc
    refine ⟨rfl, .inl ?_⟩
    rw [set_self]
    exact hpc
  | _ =>
    rename (s.harts h).pc = _ => hpc'
    rw [hpc'] at hpc
    cases hpc

omit [DecidableEq H] [DecidableEq C] [DecidableEq L] in
theorem Ahead.wakes {pc : Pc C L} (hpc : Ahead i pc) :
    ∃ channel, wakeupChannel pc = some channel := by
  cases pc with
  | wake channel rest | wakeSpin channel rest cursor | wakeTest channel rest cursor
  | wakeFree channel rest cursor => exact ⟨channel, rfl⟩
  | _ => cases hpc

/-- `wakeup` does not get past a process whose lock is taken. -/
theorem runHart_ahead (hs : runHart s h = some t) (hlock : (s.procs i).lock = 0)
    (hpc : Ahead i (s.harts h).pc) : Ahead i (t.harts h).pc := by
  cases runHart_moves hs with
  | wakeDone channel' hpc' =>
    rw [hpc'] at hpc
    exact absurd hpc List.not_mem_nil
  | wakeCopy channel' j rest hpc' =>
    rw [hpc'] at hpc
    rw [Machine.copyProc, set_self]
    obtain rfl | hrest := List.mem_cons.mp hpc
    · exact .inr hlock
    · exact .inl hrest
  | wakeTake channel' rest cursor hpc' hcopy =>
    rw [hpc'] at hpc
    rw [set_self]
    exact hpc.resolve_right hcopy
  | wakeSpin channel' rest cursor hpc' hcopy | wakeTest channel' rest cursor copy hpc'
  | wakeFree channel' rest cursor hpc' =>
    rw [hpc'] at hpc
    rw [set_self]
    exact hpc
  | _ =>
    rename (s.harts h).pc = _ => hpc'
    rw [hpc'] at hpc
    cases hpc

theorem called (hpc : (m.harts h).pc = .idle) :
    step m (.wakeup h channel) =
      some (m.set h ((m.harts h).goto (.wake channel (List.finRange 64)))) := by
  simp only [step, hpc]

theorem calling_run (hpc : (m.harts h).pc = .idle) (n : Nat) :
    calling m h channel n = run step
      (m.set h ((m.harts h).goto (.wake channel (List.finRange 64))))
      (List.replicate n (.run h)) := by
  rw [calling, run_cons, called hpc, Option.bind_some]

theorem calling_procs (hpc : (m.harts h).pc = .idle) {n : Nat}
    (hrun : calling m h channel n = some t) : t.procs = m.procs := by
  rw [calling_run hpc] at hrun
  have hkeep : t.procs = m.procs ∧
      (wakeupChannel (t.harts h).pc = some channel ∨ (t.harts h).pc = .idle) := by
    refine run_replicate_invariant (I := fun s => s.procs = m.procs ∧
      (wakeupChannel (s.harts h).pc = some channel ∨ (s.harts h).pc = .idle)) ?_ ⟨rfl, .inl ?_⟩ hrun
    · rintro s t ⟨hprocs, hwake | hidle⟩ hst
      · obtain ⟨hsame, hnext⟩ := runHart_wakes hst hwake
        exact ⟨hsame.trans hprocs, hnext⟩
      · simp only [step, runHart, hidle] at hst
        cases hst
    · rw [set_self]
      rfl
  exact hkeep.1

theorem returns_iff (hpc : (m.harts h).pc = .idle) :
    Returns m h channel ↔ ∀ i, (m.procs i).lock ≠ 0 := by
  constructor
  · rintro ⟨n, t, hrun, hidle⟩ i hlock
    rw [calling_run hpc] at hrun
    have hahead : (t.procs i).lock = 0 ∧ Ahead i (t.harts h).pc := by
      refine run_replicate_invariant
        (I := fun s => (s.procs i).lock = 0 ∧ Ahead i (s.harts h).pc) ?_ ⟨hlock, ?_⟩ hrun
      · rintro s t ⟨hs, hat⟩ hst
        obtain ⟨channel', hwake⟩ := hat.wakes
        rw [(runHart_wakes hst hwake).1]
        exact ⟨hs, runHart_ahead hst hs hat⟩
      · rw [set_self]
        exact List.mem_finRange i
    rw [hidle] at hahead
    exact hahead.2
  · intro hfree
    have hstart : ((m.set h ((m.harts h).goto (.wake channel (List.finRange 64)))).harts h).pc =
        .wake channel (List.finRange 64) := by
      rw [set_self]
      rfl
    set n := m.set h ((m.harts h).goto (.wake channel (List.finRange 64))) with hn
    obtain ⟨u, hu, hpcu, -⟩ := wake_run (List.finRange 64) ⟨n, fun _ => none, fun _ _ => False⟩
      hstart hfree
    have hv : run step n (List.replicate (4 * (List.finRange 64).length) (.run h)) =
        some u.machine := by
      obtain ⟨v, hv, rfl⟩ := run_refines (R := fun s n => s.machine = n)
        (fun s n a t hR _ hst => ⟨t.machine, hR ▸ (trackedStep_cases hst).1, rfl⟩) rfl meets_true hu
      exact hv
    have hlast : step u.machine (.run h) =
        some (u.machine.set h ((u.machine.harts h).goto .idle)) := by
      simp only [step, runHart, hpcu]
    refine ⟨4 * (List.finRange 64).length + 1, u.machine.set h ((u.machine.harts h).goto .idle), ?_,
      ?_⟩
    · rw [calling_run hpc, ← hn, List.replicate_succ', run_append, hv, Option.bind_some, run_cons,
        hlast]
      rfl
    · rw [set_self]
      rfl

/-- The first lock it takes is that of its local copy. -/
theorem not_tableLocks (hpc : (m.harts h).pc = .idle) : ¬ TableLocks m h channel := by
  intro hlocks
  obtain ⟨i, rest, hrest⟩ : ∃ i rest, List.finRange 64 = i :: rest := ⟨_, _, List.finRange_succ⟩
  set n := m.set h ((m.harts h).goto (.wake channel (i :: rest))) with hn
  have hrun : calling m h channel 1 = some (n.copyProc h channel i rest) := by
    rw [calling_run hpc, hrest, ← hn]
    simp only [List.replicate_one, run_cons, step, runHart, hn, set_self, Hart.goto,
      Option.bind_some, run_nil]
  have hcopy : exchanged ((n.copyProc h channel i rest).harts h).pc = some .cursor := by
    rw [Machine.copyProc, set_self]
    rfl
  obtain ⟨p, hp⟩ := hlocks 1 _ .cursor hrun hcopy
  cases hp

/-- As it changes nothing, the table is right if it does not return or has nobody to wake up. -/
theorem wakesTable_iff (hpc : (m.harts h).pc = .idle) :
    WakesTable m h channel ↔ (∃ i, (m.procs i).lock = 0) ∨ ∀ p, ¬ Sleeper m h channel p := by
  constructor
  · intro htable
    by_contra hnot
    rw [not_or, not_exists, not_forall] at hnot
    obtain ⟨hfree, p, hp⟩ := hnot
    rw [not_not] at hp
    obtain ⟨n, t, hrun, hidle⟩ := (returns_iff hpc).mpr hfree
    have hwoken := congrFun (htable n t hrun hidle) p
    rw [calling_procs hpc hrun, woken, if_pos hp] at hwoken
    have hstate := congrArg Proc.state hwoken
    rw [hp.2.1] at hstate
    cases hstate
  · rintro (⟨i, hlock⟩ | hnone) n t hrun hidle
    · exact absurd hlock ((returns_iff hpc).mp ⟨n, t, hrun, hidle⟩ i)
    · rw [calling_procs hpc hrun]
      funext p
      rw [woken, if_neg (hnone p)]

/-- `wakeup` never works on the locks of the table. Whether it returns, and whether the table is
then as it should be, depends on the table. -/
theorem not_wakeupSpec (m : Machine H C L) (h : H) (channel : C)
    (hpc : (m.harts h).pc = .idle) :
    ¬ WakeupSpec m h channel ∧
      (Returns m h channel ↔ ∀ i, (m.procs i).lock ≠ 0) ∧
      (WakesTable m h channel ↔
        (∃ i, (m.procs i).lock = 0) ∨ ∀ p, ¬ Sleeper m h channel p) :=
  ⟨fun hspec => not_tableLocks hpc hspec.locks, returns_iff hpc, wakesTable_iff hpc⟩

/-- The hart executes process 1, and process 0 sleeps. -/
def oneSleeper : Machine Unit Unit Unit where
  harts _ :=
    { sstatus := 0, cpu := ⟨0, some (procEntry 1), none, 0⟩, c := ⟨0, none, none, 0⟩,
      thread := some (procEntry 1), pc := .idle, held := [] }
  procs p :=
    if p = procEntry 0 then { context := none, lock := 1, state := .sleeping, channel := some () }
    else { context := none, lock := 1, state := if p = procEntry 1 then .running else .unused,
           channel := none }
  locks _ := 1

theorem not_wakeupSpec_oneSleeper :
    ¬ WakeupSpec oneSleeper () () ∧
      (Returns oneSleeper () () ↔ ∀ i, (oneSleeper.procs i).lock ≠ 0) ∧
      (WakesTable oneSleeper () () ↔
        (∃ i, (oneSleeper.procs i).lock = 0) ∨ ∀ p, ¬ Sleeper oneSleeper () () p) :=
  not_wakeupSpec oneSleeper () () rfl

/-- Process 0 sleeps on when `wakeup` has returned. -/
theorem sleeper_not_woken : Returns oneSleeper () () ∧ ¬ WakeupSpec oneSleeper () () := by
  have hfree : ∀ i, (oneSleeper.procs i).lock ≠ 0 := by decide
  refine ⟨(returns_iff rfl).mpr hfree, fun hspec => ?_⟩
  obtain ⟨i, hlock⟩ | hnone := (wakesTable_iff rfl).mp hspec.table
  · exact hfree i hlock
  · exact hnone (procEntry 0) ⟨by decide, rfl, rfl⟩

end Raynix.WakeupEffect
