import Raynix.HandOver
import Raynix.ProcessExclusion
import Raynix.ProcessStep

namespace Raynix.Wakeup

open Raynix.HandOver Raynix.Lib.Transition Raynix.Process Raynix.ProcessExclusion
  Raynix.ProcessStep

variable {H C L : Type}

/-- The machine with two ghosts: the channel and the lock with which a process has called `sleep`,
until it is run again, and for a `wakeup` under way the processes it is to wake up. -/
structure Tracked (H C L : Type) where
  machine : Machine H C L
  waits : Fin 64 → Option (C × L)
  awaited : H → Fin 64 → Prop

/-- Process `p`, not the one on `h`, went to sleep on the channel under a lock that `h` holds now:
its failed test came before `h` took the lock. -/
def Awaits (s : Tracked H C L) (h : H) (channel : C) (p : Fin 64) : Prop :=
  (s.machine.harts h).thread ≠ some p ∧
    ∃ lock, s.waits p = some (channel, lock) ∧ .user lock ∈ (s.machine.harts h).held

def trackWaits (s : Tracked H C L) : Act H C L → Fin 64 → Option (C × L)
  | .sleep h channel lock =>
    match (s.machine.harts h).thread with
    | some p => Function.update s.waits p (some (channel, lock))
    | none => s.waits
  | .run h =>
    match (s.machine.harts h).pc with
    | .dispatch p => Function.update s.waits p none
    | _ => s.waits
  | _ => s.waits

variable [DecidableEq H]

def trackAwaited (s : Tracked H C L) : Act H C L → H → Fin 64 → Prop
  | .wakeup h channel => Function.update s.awaited h (Awaits s h channel)
  | _ => s.awaited

variable [DecidableEq C] [DecidableEq L]

def trackedStep (s : Tracked H C L) (a : Act H C L) : Option (Tracked H C L) :=
  (step s.machine a).map fun n => ⟨n, trackWaits s a, trackAwaited s a⟩

/-- A call of `wakeup(channel)` returns on hart `h`. -/
def Returns (s : Tracked H C L) (a : Act H C L) (h : H) (channel : C) : Prop :=
  a = .run h ∧ (s.machine.harts h).pc = .wake channel []

/-- When `wakeup` returns, no process that it was to wake up sleeps on: each is RUNNABLE or has
been run since. -/
def NoLostWakeup (s : Tracked H C L) (a : Act H C L) : Prop :=
  ∀ h channel, Returns s a h channel → ∀ p, s.awaited h p →
    ¬ ((s.machine.procs p).state = .sleeping ∧ (s.machine.procs p).channel = some channel) ∧
      ((s.machine.procs p).state = .runnable ∨ s.waits p = none)

/-- A `wakeup` that returns had nobody to wake up. -/
def NobodyAwaited (s : Tracked H C L) (a : Act H C L) : Prop :=
  ∀ h channel, Returns s a h channel → ∀ p, ¬ s.awaited h p

/-- The channel of the call of `wakeup` that a point of the code is in. -/
def wakeupChannel : Pc C L → Option C
  | .wake channel _ | .wakeSpin channel _ _ | .wakeTest channel _ _ | .wakeFree channel _ _ =>
    some channel
  | _ => none

def Asleep (m : Machine H C L) (p : Fin 64) (channel : C) : Prop :=
  (m.procs p).state = .sleeping ∧ (m.procs p).channel = some channel

/-- The process is in `sleep` and has not given back the lock yet. -/
def Holding (m : Machine H C L) (g : H) (p : Fin 64) (channel : C) (lock : L) : Prop :=
  (m.harts g).thread = some p ∧ .user lock ∈ (m.harts g).held ∧
    ((m.harts g).pc = .fault ∨ (m.harts g).pc = .spin (.proc p) (.sleep p channel lock) ∨
      (m.harts g).pc = .sleep p channel lock ∨
      ((m.harts g).pc = .channel p channel lock ∧ (m.procs p).state = .sleeping) ∨
      ((m.harts g).pc = .drop p lock ∧ Asleep m p channel))

/-- The process sleeps; a hart that still executes it is about to leave it. -/
def Sleeping (m : Machine H C L) (p : Fin 64) (channel : C) (lock : L) : Prop :=
  Asleep m p channel ∧ ∀ g, (m.harts g).thread = some p → (m.harts g).pc = .asleep p lock

structure Inv (s : Tracked H C L) : Prop where
  good : Good s.machine
  waits : ∀ p channel lock, s.waits p = some (channel, lock) →
    (∃ g, Holding s.machine g p channel lock) ∨ Sleeping s.machine p channel lock
  awaited : ∀ h channel p, wakeupChannel (s.machine.harts h).pc = some channel → s.awaited h p →
    Awaits s h channel p

variable {s t : Tracked H C L} {a : Act H C L} {h g : H} {p : Fin 64} {channel : C} {lock : L}

omit [DecidableEq H] [DecidableEq C] [DecidableEq L] in
theorem Inv.asleep (hs : Inv s) (hp : Awaits s h channel p) : Asleep s.machine p channel := by
  obtain ⟨hne, lock, hwaits, hlock⟩ := hp
  obtain ⟨g, hthread, hheld, -⟩ | hsleeping := hs.waits p channel lock hwaits
  · exact absurd (hs.good.locks.exclusive g h _ hheld hlock ▸ hthread) hne
  · exact hsleeping.1

omit [DecidableEq H] [DecidableEq C] [DecidableEq L] in
theorem noLostWakeup_iff (hs : Inv s) (a : Act H C L) : NoLostWakeup s a ↔ NobodyAwaited s a := by
  constructor
  · intro h g channel hreturns p hp
    have hpc : wakeupChannel (s.machine.harts g).pc = some channel := by
      rw [hreturns.2]
      rfl
    exact (h g channel hreturns p hp).1 (hs.asleep (hs.awaited g channel p hpc hp))
  · exact fun h g channel hreturns p hp => absurd hp (h g channel hreturns p)

variable {m n : Machine H C L}

/-- While hart `g` executes a process, another hart writes neither its state nor its channel but to
take it when it is RUNNABLE. -/
theorem step_keeps (hm : Good m) (hs : step m a = some n) (hthread : (m.harts g).thread = some p)
    (hg : g ≠ a.hart)
    (hcheck : (m.harts a.hart).pc = .check p → (m.procs p).state ≠ .runnable) :
    (n.procs p).state = (m.procs p).state ∧ (n.procs p).channel = (m.procs p).channel := by
  have hfits := (hm.harts a.hart).fits
  have hne : (m.harts a.hart).thread ≠ some p :=
    fun he => hg (hm.threads.unique g a.hart p hthread he)
  obtain ⟨hstate, hchannel⟩ := step_procs hs p
  refine ⟨hstate.resolve_right ?_, hchannel.resolve_right ?_⟩
  · rintro (⟨hpc, hrunnable⟩ | hpc | ⟨channel, lock, hpc⟩)
    · exact hcheck hpc hrunnable
    · rw [hpc] at hfits
      exact hne hfits.1
    · rw [hpc] at hfits
      exact hne hfits.1
  · rintro (⟨channel, lock, hpc⟩ | ⟨lock, hpc⟩)
    · rw [hpc] at hfits
      exact hne hfits.1
    · rw [hpc] at hfits
      exact hne hfits.1

theorem Holding.other (hm : Good m) (hp : Holding m g p channel lock) (hs : step m a = some n)
    (hg : g ≠ a.hart) : Holding n g p channel lock := by
  obtain ⟨hthread, hheld, hpc⟩ := hp
  have hfits := (hm.harts g).fits
  have hcheck : .proc p ∈ (m.harts g).held → (m.harts a.hart).pc ≠ .check p := by
    intro hmem hpc
    have hfits' := (hm.harts a.hart).fits
    rw [hpc] at hfits'
    exact hg (hm.locks.exclusive g a.hart _ hmem (by simp [hfits'.2]))
  rw [Holding, step_other hs hg]
  refine ⟨hthread, hheld, ?_⟩
  obtain hpc | hpc | hpc | ⟨hpc, hstate⟩ | ⟨hpc, hasleep⟩ := hpc
  · exact .inl hpc
  · exact .inr (.inl hpc)
  · exact .inr (.inr (.inl hpc))
  · rw [hpc] at hfits
    have hkeep := step_keeps hm hs hthread hg
      (fun hc => absurd hc (hcheck (by simp [hfits.2.1])))
    exact .inr (.inr (.inr (.inl ⟨hpc, hkeep.1.trans hstate⟩)))
  · rw [hpc] at hfits
    have hkeep := step_keeps hm hs hthread hg
      (fun hc => absurd hc (hcheck (by simp [hfits.2.1])))
    exact .inr (.inr (.inr (.inr ⟨hpc, hkeep.1.trans hasleep.1, hkeep.2.trans hasleep.2⟩)))

theorem Holding.run (hn : Good n) (hp : Holding m h p channel lock)
    (hs : runHart m h = some n) :
    Holding n h p channel lock ∨ Sleeping n p channel lock := by
  obtain ⟨hthread, hheld, hpc⟩ := hp
  obtain hpc | hpc | hpc | ⟨hpc, hstate⟩ | ⟨hpc, hasleep⟩ := hpc
  all_goals simp only [runHart, hpc, Option.some.injEq] at hs
  · cases hs
  · subst hs
    refine .inl ?_
    by_cases hword : m.word (.proc p) = 0
    · rw [if_pos hword]
      refine ⟨?_, ?_, .inr (.inl ?_)⟩
      all_goals rw [set_self]
      · exact hthread
      · exact hheld
      · exact hpc
    · rw [if_neg hword]
      refine ⟨?_, ?_, .inr (.inr (.inl ?_))⟩
      all_goals rw [set_self]
      · exact hthread
      · exact List.mem_cons_of_mem _ hheld
      · rfl
  · subst hs
    refine .inl ⟨?_, ?_, .inr (.inr (.inr (.inl ⟨?_, ?_⟩)))⟩
    · rw [set_self]
      exact hthread
    · rw [set_self]
      exact hheld
    · rw [set_self]
      rfl
    · rw [set_procs, Machine.setState, setProc_self]
  · subst hs
    refine .inl ⟨?_, ?_, .inr (.inr (.inr (.inr ⟨?_, ?_, ?_⟩)))⟩
    · rw [set_self]
      exact hthread
    · rw [set_self]
      exact hheld
    · rw [set_self]
      rfl
    · rw [set_procs, Machine.setChannel, setProc_self]
      exact hstate
    · rw [set_procs, Machine.setChannel, setProc_self]
  · subst hs
    obtain ⟨hstate', -, hchannel'⟩ := setWord_procs m (.user lock) 1 p
    refine .inr ⟨⟨hstate'.trans hasleep.1, hchannel'.trans hasleep.2⟩, fun g hg => ?_⟩
    have hself : ((m.release h (.user lock) (.asleep p lock)).harts h).thread = some p := by
      rw [release_self]
      exact hthread
    rw [hn.threads.unique g h p hg hself, release_self]
    rfl

theorem runHart_leaves (hm : Good m) (hs : runHart m h = some n)
    (hpc : (∃ q, (m.harts h).pc = .yield q) ∨ ∃ q lock, (m.harts h).pc = .asleep q lock) :
    (n.harts h).thread = none := by
  have hfits := (hm.harts h).fits
  obtain ⟨q, hpc⟩ | ⟨q, lock, hpc⟩ := hpc
  all_goals
    rw [hpc] at hfits
    simp only [runHart, hpc, Option.some.injEq] at hs
    subst hs
    rw [enterSched_eq hm hfits.1 hfits.2.1 hfits.2.2 (by simp [hpc]) (by simp [hpc, extra]),
      set_self]

theorem runHart_switch (hm : Good m) (hs : runHart m h = some n)
    (hne : (n.harts h).thread ≠ (m.harts h).thread) :
    (n.harts h).thread = none ∨
      ∃ i, (m.harts h).pc = .dispatch i ∧ (n.harts h).thread = some i := by
  obtain ⟨i, hpc⟩ | hpc := (runHart_thread hs).resolve_left hne
  · obtain ⟨k, hcontext, hthread, -⟩ := hm.readyHart hpc
    simp only [runHart, hpc, Option.some.injEq] at hs
    subst hs
    refine .inr ⟨i, hpc, ?_⟩
    rw [set_self, hcontext]
    exact hthread
  · exact .inl (runHart_leaves hm hs hpc)

theorem Sleeping.step (hm : Good m) (hp : Sleeping m p channel lock) (hs : step m a = some n) :
    Sleeping n p channel lock := by
  obtain ⟨⟨hstate, hchannel⟩, hpcs⟩ := hp
  have hfits := (hm.harts a.hart).fits
  have hthread : ∀ pc, (m.harts a.hart).pc = pc → pc ≠ .asleep p lock →
      (m.harts a.hart).thread ≠ some p :=
    fun pc hpc hne he => hne (hpc.symm.trans (hpcs a.hart he))
  refine ⟨⟨?_, ?_⟩, fun g hg => ?_⟩
  · refine ((step_procs hs p).1.resolve_right ?_).trans hstate
    rintro (⟨-, hrunnable⟩ | hpc | ⟨channel', lock', hpc⟩)
    · rw [hstate] at hrunnable
      cases hrunnable
    all_goals
      rw [hpc] at hfits
      exact hthread _ hpc (by simp) hfits.1
  · refine ((step_procs hs p).2.resolve_right ?_).trans hchannel
    rintro (⟨channel', lock', hpc⟩ | ⟨lock', hpc⟩)
    all_goals
      rw [hpc] at hfits
      exact hthread _ hpc (by simp) hfits.1
  · by_cases hga : g = a.hart
    · subst hga
      obtain ⟨-, hrun⟩ | ⟨hpc, -, hsame, -⟩ := call_cases hs
      · by_cases hsame : (n.harts a.hart).thread = (m.harts a.hart).thread
        · have hpc := hpcs _ (hsame.symm.trans hg)
          rw [runHart_leaves hm hrun (.inr ⟨p, lock, hpc⟩)] at hg
          cases hg
        · obtain hnone | ⟨i, hpc, hi⟩ := runHart_switch hm hrun hsame
          · rw [hnone] at hg
            cases hg
          · obtain rfl : i = p := Option.some.inj (hi.symm.trans hg)
            rw [(hm.threads.loaded _ i hpc).1] at hstate
            cases hstate
      · exact absurd (hsame.symm.trans hg) (hthread _ hpc (by simp))
    · rw [step_other hs hga] at hg ⊢
      exact hpcs g hg

theorem trackedStep_cases (h : trackedStep s a = some t) :
    step s.machine a = some t.machine ∧ t.waits = trackWaits s a ∧
      t.awaited = trackAwaited s a := by
  simp only [trackedStep, Option.map_eq_some_iff] at h
  obtain ⟨n, hn, rfl⟩ := h
  exact ⟨hn, rfl, rfl⟩

omit [DecidableEq H] [DecidableEq C] [DecidableEq L] in
theorem trackWaits_cases (h : trackWaits s a p = some (channel, lock)) :
    (s.waits p = some (channel, lock) ∧
      ∀ g, a = .run g → (s.machine.harts g).pc ≠ .dispatch p) ∨
      ∃ g, a = .sleep g channel lock ∧ (s.machine.harts g).thread = some p := by
  cases a with
  | sleep g channel' lock' =>
    cases hthread : (s.machine.harts g).thread with
    | none =>
      simp only [trackWaits, hthread] at h
      exact .inl ⟨h, fun g hg => by cases hg⟩
    | some q =>
      simp only [trackWaits, hthread] at h
      by_cases hp : p = q
      · subst hp
        rw [Function.update_self, Option.some.injEq, Prod.mk.injEq] at h
        obtain ⟨rfl, rfl⟩ := h
        exact .inr ⟨g, rfl, hthread⟩
      · rw [Function.update_of_ne hp] at h
        exact .inl ⟨h, fun g hg => by cases hg⟩
  | run g =>
    cases hpc : (s.machine.harts g).pc with
    | dispatch q =>
      simp only [trackWaits, hpc] at h
      by_cases hp : p = q
      · rw [hp, Function.update_self] at h
        cases h
      · rw [Function.update_of_ne hp] at h
        refine .inl ⟨h, fun k hk => ?_⟩
        cases hk
        rw [hpc, Ne, Pc.dispatch.injEq]
        exact Ne.symm hp
    | _ =>
      simp only [trackWaits, hpc] at h
      refine .inl ⟨h, fun k hk => ?_⟩
      cases hk
      rw [hpc]
      simp
  | _ => exact .inl ⟨h, fun g hg => by cases hg⟩

theorem Holding.call (hcontract : Contract m (.sleep h channel lock))
    (hbound : BoundCall m (.sleep h channel lock)) (hthread : (m.harts h).thread = some p)
    (hs : step m (.sleep h channel lock) = some n) : Holding n h p channel lock := by
  have hheld : .user lock ∈ (m.harts h).held := by
    rw [hcontract]
    exact List.mem_singleton_self _
  obtain ⟨k, hk, -⟩ | hcall := step_moves hs
  · cases hk
  cases hcall with
  | sleepNull h channel lock hpc hcur =>
    rw [Holding, set_self]
    exact ⟨hthread, hheld, .inl rfl⟩
  | sleep h channel lock q hpc hcur =>
    obtain rfl : q = p := Option.some.inj ((hbound q hcur).1.symm.trans hthread)
    rw [Holding, set_self]
    exact ⟨hthread, hheld, .inr (.inl rfl)⟩

theorem step_waits (hs : Inv s) (hcontract : Contract s.machine a)
    (hbound : BoundCall s.machine a) (h : trackedStep s a = some t) (ht : Good t.machine)
    (hwaits : t.waits p = some (channel, lock)) :
    (∃ g, Holding t.machine g p channel lock) ∨ Sleeping t.machine p channel lock := by
  obtain ⟨hstep, hw, -⟩ := trackedStep_cases h
  rw [hw] at hwaits
  obtain ⟨hold, -⟩ | ⟨g, rfl, hthread⟩ := trackWaits_cases hwaits
  · obtain ⟨g, hp⟩ | hp := hs.waits p channel lock hold
    · by_cases hg : g = a.hart
      · subst hg
        obtain ⟨-, hrun⟩ | ⟨hpc, -⟩ := call_cases hstep
        · exact (hp.run ht hrun).imp_left fun hp' => ⟨_, hp'⟩
        · obtain ⟨-, -, hpcs⟩ := hp
          simp [hpc] at hpcs
      · exact .inl ⟨g, hp.other hs.good hstep hg⟩
    · exact .inr (hp.step hs.good hstep)
  · exact .inl ⟨g, Holding.call hcontract hbound hthread hstep⟩

theorem runHart_wakeup (hm : Good m) (hs : runHart m h = some n)
    (hn : wakeupChannel (n.harts h).pc = some channel) :
    wakeupChannel (m.harts h).pc = some channel ∧
      (n.harts h).thread = (m.harts h).thread ∧ (n.harts h).held = (m.harts h).held := by
  have hfits := (hm.harts h).fits
  cases runHart_moves hs with
  | wakeCopy channel' i rest hpc =>
    rw [Machine.copyProc, set_self] at hn ⊢
    rw [hpc]
    exact ⟨hn, rfl, rfl⟩
  | wakeSpin channel' rest cursor hpc | wakeTake channel' rest cursor hpc
  | wakeTest channel' rest cursor copy hpc | wakeFree channel' rest cursor hpc =>
    rw [set_self] at hn ⊢
    rw [hpc]
    exact ⟨hn, rfl, rfl⟩
  | spinBusy lock next hpc hword =>
    rw [set_self, hpc] at hn
    cases hn
  | spinTake lock next hpc hword =>
    rw [hpc] at hfits
    rw [set_self] at hn
    change wakeupChannel next = some channel at hn
    have hentry := hfits.1
    cases next with
    | wake _ _ | wakeSpin _ _ _ | wakeTest _ _ _ | wakeFree _ _ _ => cases hentry
    | _ => cases hn
  | dispatch i hpc =>
    obtain ⟨k, hcontext, -, hresumes, -⟩ := hm.readyHart hpc
    rw [set_self, hcontext] at hn
    change wakeupChannel k.pc = some channel at hn
    obtain hk | hk | ⟨lock, hk⟩ := hresumes
    all_goals
      rw [hk] at hn
      cases hn
  | yield q hpc | asleep q lock hpc =>
    rw [hpc] at hfits
    rw [enterSched_eq hm hfits.1 hfits.2.1 hfits.2.2 (by simp [hpc]) (by simp [hpc, extra]),
      set_self] at hn
    cases hn
  | _ =>
    simp only [Machine.release, set_self] at hn
    cases hn

omit [DecidableEq C] in
theorem call_wakeup (hs : Calls m a n) (hn : wakeupChannel (n.harts a.hart).pc = some channel) :
    a = .wakeup a.hart channel ∧ (n.harts a.hart).held = (m.harts a.hart).held := by
  cases hs with
  | wakeup h channel' hpc =>
    simp only [Act.hart, set_self] at hn ⊢
    obtain rfl : channel' = channel := Option.some.inj hn
    exact ⟨rfl, rfl⟩
  | _ =>
    simp only [Machine.release, Act.hart, set_self] at hn
    cases hn

theorem trackWaits_awaits (hs : Inv s) (hstep : step s.machine a = some n)
    (hp : Awaits s h channel p) : trackWaits s a p = s.waits p := by
  have hasleep := hs.asleep hp
  obtain ⟨hne, lock, hwaits, hlock⟩ := hp
  obtain ⟨g, hthread, hheld, -⟩ | hsleeping := hs.waits p channel lock hwaits
  · exact absurd (hs.good.locks.exclusive g h _ hheld hlock ▸ hthread) hne
  cases a with
  | sleep g channel' lock' =>
    cases hthread : (s.machine.harts g).thread with
    | none => simp only [trackWaits, hthread]
    | some q =>
      simp only [trackWaits, hthread]
      refine Function.update_of_ne ?_ ..
      rintro rfl
      have hpc := hsleeping.2 g hthread
      simp [step, hpc] at hstep
  | run g =>
    cases hpc : (s.machine.harts g).pc with
    | dispatch q =>
      simp only [trackWaits, hpc]
      refine Function.update_of_ne ?_ ..
      rintro rfl
      have hrunning := (hs.good.threads.loaded g p hpc).1
      rw [hasleep.1] at hrunning
      cases hrunning
    | _ => simp only [trackWaits, hpc]
  | _ => rfl

theorem step_awaited (hs : Inv s) (h : trackedStep s a = some t)
    (hpc : wakeupChannel (t.machine.harts g).pc = some channel) (hp : t.awaited g p) :
    Awaits t g channel p := by
  obtain ⟨hstep, hw, haw⟩ := trackedStep_cases h
  -- The hart keeps its process and its locks, so that what it is to wake up is as before.
  have hkeep : (t.machine.harts g).thread = (s.machine.harts g).thread →
      (t.machine.harts g).held = (s.machine.harts g).held → Awaits s g channel p →
      Awaits t g channel p := by
    intro hthread hheld hold
    have hwaits := trackWaits_awaits hs hstep hold
    rw [Awaits, hthread, hheld, hw, hwaits]
    exact hold
  rw [haw] at hp
  by_cases hg : g = a.hart
  · subst hg
    obtain ⟨k, rfl, -⟩ | hcall := step_moves hstep
    · obtain ⟨hpc', hthread, hheld⟩ := runHart_wakeup hs.good hstep hpc
      exact hkeep hthread hheld (hs.awaited _ channel p hpc' hp)
    · obtain ⟨ha, hheld⟩ := call_wakeup hcall hpc
      rw [ha] at hp
      change Function.update s.awaited a.hart _ a.hart p at hp
      rw [Function.update_self] at hp
      exact hkeep (call_thread hcall) hheld hp
  · rw [step_other hstep hg] at hpc
    have hp' : s.awaited g p := by
      cases a with
      | wakeup k channel' =>
        have hk : g ≠ k := hg
        change Function.update s.awaited k _ g p at hp
        rwa [Function.update_of_ne hk] at hp
      | _ => exact hp
    refine hkeep ?_ ?_ (hs.awaited g channel p hpc hp')
    all_goals rw [step_other hstep hg]

theorem step_inv (hs : Inv s) (hcontract : Contract s.machine a) (hbound : BoundCall s.machine a)
    (h : trackedStep s a = some t) : Inv t := by
  have hgood : Good t.machine := step_good hs.good hcontract hbound (trackedStep_cases h).1
  refine ⟨hgood, fun p channel lock hp => ?_, fun g channel p hpc hp => ?_⟩
  · exact step_waits hs hcontract hbound h hgood hp
  · exact step_awaited hs h hpc hp

omit [DecidableEq H] [DecidableEq C] [DecidableEq L] in
theorem start_inv (hs : Start s.machine) (hwaits : ∀ p, s.waits p = none) : Inv s := by
  refine ⟨hs.good, fun p channel lock hp => ?_, fun h channel p hpc _ => ?_⟩
  · rw [hwaits] at hp
    cases hp
  · obtain ⟨hpc', -⟩ | ⟨hpc', -⟩ := hs.threads h
    all_goals
      rw [hpc'] at hpc
      cases hpc

/-- Over any run of any number of harts whose calls of `sleep` and `give_up` keep their contract
and find their own process in `cpus`: no wakeup is lost exactly as long as each `wakeup` that
returns had nobody to wake up. -/
theorem noLostWakeup_meets_iff {as : List (Act H C L)} (hs : Start s.machine)
    (hwaits : ∀ p, s.waits p = none)
    (hcontract : Meets trackedStep (fun s a => Contract s.machine a) s as)
    (hbound : Meets trackedStep (fun s a => BoundCall s.machine a) s as) :
    Meets trackedStep NoLostWakeup s as ↔ Meets trackedStep NobodyAwaited s as := by
  have hside := meets_and.mpr ⟨hcontract, hbound⟩
  exact meets_iff_meets_of (fun _ _ _ hI hok _ ht => step_inv hI hok.1 hok.2 ht)
    (fun _ a hI => noLostWakeup_iff hI a) (start_inv hs hwaits) hside

theorem trackedStep_run {x : Hart C L} (hrun : runHart s.machine h = some (s.machine.set h x))
    (hpc : ∀ p, (s.machine.harts h).pc ≠ .dispatch p) :
    trackedStep s (.run h) = some { s with machine := s.machine.set h x } := by
  have hwaits : trackWaits s (.run h) = s.waits := by
    cases hpc' : (s.machine.harts h).pc with
    | dispatch p => exact absurd hpc' (hpc p)
    | _ => simp only [trackWaits, hpc']
  simp only [trackedStep, step, hrun, hwaits, Option.map_some, trackAwaited]

/-- One pass of the loop of `wakeup` over a process whose lock is free. -/
theorem wake_pass (s : Tracked H C L) {h : H} {i : Fin 64} {rest : List (Fin 64)}
    (hpc : (s.machine.harts h).pc = .wake channel (i :: rest))
    (hfree : (s.machine.procs i).lock ≠ 0) :
    ∃ t, run trackedStep s (List.replicate 4 (.run h)) = some t ∧
      (t.machine.harts h).pc = .wake channel rest ∧ t.machine.procs = s.machine.procs ∧
      t.awaited = s.awaited := by
  -- Each step changes the hart only, so that the table stays as it was.
  have hnext : ∀ (u : Tracked H C L) (x : Hart C L),
      runHart u.machine h = some (u.machine.set h x) →
      (∀ p, (u.machine.harts h).pc ≠ .dispatch p) → u.machine.procs = s.machine.procs →
      u.awaited = s.awaited →
      ∃ v, trackedStep u (.run h) = some v ∧ (v.machine.harts h).pc = x.pc ∧
        v.machine.procs = s.machine.procs ∧ v.awaited = s.awaited := by
    intro u x hrun hne hprocs haw
    refine ⟨_, trackedStep_run hrun hne, ?_, hprocs, haw⟩
    change ((u.machine.set h x).harts h).pc = x.pc
    rw [set_self]
  obtain ⟨t₁, h₁, hpc₁, hprocs₁, haw₁⟩ :=
    hnext s _ (by simp only [runHart, hpc]; rfl) (by simp [hpc]) rfl rfl
  obtain ⟨t₂, h₂, hpc₂, hprocs₂, haw₂⟩ :=
    hnext t₁ _ (by simp only [runHart, hpc₁, Hart.goto, if_neg hfree]; rfl)
      (by simp [hpc₁, Hart.goto]) hprocs₁ haw₁
  obtain ⟨t₃, h₃, hpc₃, hprocs₃, haw₃⟩ :=
    hnext t₂ _ (by simp only [runHart, hpc₂]; rfl) (by simp [hpc₂]) hprocs₂ haw₂
  obtain ⟨t₄, h₄, hpc₄, hprocs₄, haw₄⟩ :=
    hnext t₃ _ (by simp only [runHart, hpc₃, Hart.goto]; rfl)
      (by simp [hpc₃, Hart.goto]) hprocs₃ haw₃
  refine ⟨t₄, ?_, hpc₄, hprocs₄, haw₄⟩
  simp only [List.replicate, run_cons, h₁, h₂, h₃, h₄, Option.bind_some, run_nil]

theorem wake_run (rest : List (Fin 64)) (s : Tracked H C L) {h : H}
    (hpc : (s.machine.harts h).pc = .wake channel rest)
    (hfree : ∀ i, (s.machine.procs i).lock ≠ 0) :
    ∃ t, run trackedStep s (List.replicate (4 * rest.length) (.run h)) = some t ∧
      (t.machine.harts h).pc = .wake channel [] ∧ t.machine.procs = s.machine.procs ∧
      t.awaited = s.awaited := by
  induction rest generalizing s with
  | nil => exact ⟨s, rfl, hpc, rfl, rfl⟩
  | cons i rest ih =>
    obtain ⟨u, hu, hpcu, hprocs, haw⟩ := wake_pass s hpc (hfree i)
    obtain ⟨t, ht, hpct, hprocs', haw'⟩ := ih u hpcu (by rw [hprocs]; exact hfree)
    refine ⟨t, ?_, hpct, hprocs'.trans hprocs, haw'.trans haw⟩
    rw [List.length_cons, Nat.mul_succ, Nat.add_comm, ← List.replicate_append_replicate, run_append,
      hu]
    exact ht

/-- Hart `false` executes process 0 and hart `true` process 1. -/
def twoProcs : Tracked Bool Unit Unit where
  machine :=
    { harts := fun h =>
        let p := if h then procEntry 1 else procEntry 0
        { sstatus := 0, cpu := ⟨0, some p, some ⟨none, .back p⟩, 0⟩,
          c := ⟨0, some p, some ⟨none, .back p⟩, 0⟩, thread := some p, pc := .idle, held := [] }
      procs := fun p =>
        { context := none, lock := 1, state := if p.val < 2 then .running else .unused,
          channel := none }
      locks := fun _ => 1 }
  waits := fun _ => none
  awaited := fun _ _ => False

theorem twoProcs_start : Start twoProcs.machine := by
  refine ⟨fun _ => ⟨rfl, rfl⟩, fun _ => .inr ⟨rfl, _, rfl⟩, fun h g p hh hg => ?_, fun p hp => ?_⟩
  · cases h
    all_goals
      cases g
      all_goals first | rfl | exact absurd (hh.trans hg.symm) (by decide)
  · change (if p.val < 2 then ProcState.running else ProcState.unused) = .runnable at hp
    split at hp
    all_goals cases hp

/-- Process 0 goes to sleep under the lock; its scheduler gives back the lock of the process. -/
def goToSleep : List (Act Bool Unit Unit) :=
  [.acquire false (), .run false, .sleep false () ()] ++ List.replicate 7 (.run false)

theorem contract_of_sleep (rest : List (Act Bool Unit Unit))
    (h : ∀ a ∈ rest, ∀ m, Contract m a) :
    Meets trackedStep (fun s a => Contract s.machine a) twoProcs
      ([.acquire false (), .run false, .sleep false () ()] ++ rest) := by
  refine ⟨trivial, fun t ht => ⟨trivial, fun u hu => ⟨?_, fun v _ => ?_⟩⟩⟩
  · obtain rfl := Option.some.inj ht
    obtain rfl := Option.some.inj hu
    rfl
  · exact meets_of_forall fun a ha t => h a ha t.machine

theorem boundCall_of_sleep (rest : List (Act Bool Unit Unit))
    (h : ∀ a ∈ rest, ∀ m, BoundCall m a) :
    Meets trackedStep (fun s a => BoundCall s.machine a) twoProcs
      ([.acquire false (), .run false, .sleep false () ()] ++ rest) := by
  refine ⟨trivial, fun t ht => ⟨trivial, fun u hu => ⟨?_, fun v _ => ?_⟩⟩⟩
  · obtain rfl := Option.some.inj ht
    obtain rfl := Option.some.inj hu
    intro p hp
    obtain rfl := Option.some.inj hp
    exact ⟨rfl, rfl, rfl⟩
  · exact meets_of_forall fun a ha t => h a ha t.machine

theorem noLostWakeup_meets_iff_goToSleep :
    Meets trackedStep NoLostWakeup twoProcs goToSleep ↔
      Meets trackedStep NobodyAwaited twoProcs goToSleep :=
  noLostWakeup_meets_iff twoProcs_start (fun _ => rfl)
    (contract_of_sleep _ (by simp [Contract]))
    (boundCall_of_sleep _ (by simp [BoundCall]))

/-- Process 1 takes the lock and calls `wakeup`. -/
def callWakeup : List (Act Bool Unit Unit) := [.acquire true (), .run true, .wakeup true ()]

theorem wakeup_called : ∃ s, run trackedStep twoProcs (goToSleep ++ callWakeup) = some s ∧
    (s.machine.harts true).pc = .wake () (List.finRange 64) ∧
    (∀ i, (s.machine.procs i).lock ≠ 0) ∧ s.awaited true 0 ∧ Asleep s.machine 0 () := by
  refine ⟨_, rfl, rfl, by decide, ⟨by decide, (), rfl, List.mem_singleton_self _⟩, rfl, rfl⟩

/-- Process 0 still sleeps when the `wakeup` for it has returned. -/
theorem not_noLostWakeup : ¬ ∀ (s : Tracked Bool Unit Unit) (as : List (Act Bool Unit Unit)),
    Start s.machine → (∀ p, s.waits p = none) →
    Meets trackedStep (fun s a => Contract s.machine a) s as →
    Meets trackedStep (fun s a => BoundCall s.machine a) s as →
    Meets trackedStep NoLostWakeup s as := by
  intro h
  obtain ⟨s, hs, hpc, hfree, hawaited, hasleep⟩ := wakeup_called
  obtain ⟨t, ht, hpct, hprocs, haw⟩ := wake_run _ s hpc hfree
  generalize 4 * (List.finRange 64).length = passes at ht
  have hrun : run trackedStep twoProcs
      (goToSleep ++ callWakeup ++ List.replicate passes (.run true)) = some t := by
    rw [run_append, hs]
    exact ht
  have hrest : ∀ a ∈ List.replicate 7 (.run false) ++ callWakeup ++
      List.replicate passes (.run true) ++ [.run true], ∀ m : Machine Bool Unit Unit,
      Contract m a ∧ BoundCall m a := by
    have hrun : ∀ a, a = .run true → ∀ m : Machine Bool Unit Unit,
        Contract m a ∧ BoundCall m a := by
      rintro a rfl m
      exact ⟨trivial, trivial⟩
    simp only [List.forall_mem_append]
    refine ⟨⟨⟨?_, ?_⟩, fun a ha => hrun a (List.eq_of_mem_replicate ha)⟩, ?_⟩
    all_goals simp [callWakeup, Contract, BoundCall]
  have hmeets := h twoProcs
    (goToSleep ++ callWakeup ++ List.replicate passes (.run true) ++ [.run true])
    twoProcs_start (fun _ => rfl)
    (contract_of_sleep _ fun a ha m => (hrest a ha m).1)
    (boundCall_of_sleep _ fun a ha m => (hrest a ha m).2)
  have hlost := hmeets.last hrun true () ⟨rfl, hpct⟩ 0 (by rw [haw]; exact hawaited)
  rw [hprocs] at hlost
  exact hlost.1 hasleep

end Raynix.Wakeup
