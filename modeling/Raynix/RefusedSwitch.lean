import Raynix.Suspension

namespace Raynix.RefusedSwitch

open Raynix.HandOver Raynix.Lib.Transition Raynix.Process Raynix.ProcessStep Raynix.Suspension

variable {H C L : Type}

/-- Process `p`, of which no other hart or context has anything, calls `enter_sched` on hart `h`
from `give_up` or `sleep`. -/
structure Entering (m : Machine H C L) (h : H) (p : Fin 64) : Prop where
  pc : ((m.harts h).pc = .yield p ∧ (m.procs p).state = .runnable) ∨
    ∃ lock, (m.harts h).pc = .asleep p lock ∧ (m.procs p).state = .sleeping
  thread : (m.harts h).thread = some p
  cur : (m.harts h).cpu.curProc = some p
  points : Points m
  threads : ∀ g, g ≠ h → (m.harts g).thread ≠ some p
  contexts : ∀ q k, q ≠ p → (m.procs q).context = some k → k.thread ≠ some p
  loaded : ∀ g, (m.harts g).pc ≠ .dispatch p

/-- The process executes although it is SLEEPING or RUNNABLE. -/
def Inconsistent (m : Machine H C L) (h : H) (p : Fin 64) : Prop :=
  (m.harts h).thread = some p ∧
    ((m.procs p).state = .sleeping ∨ (m.procs p).state = .runnable)

variable [DecidableEq H] [DecidableEq C] [DecidableEq L]

/-- The call that hart `h` is in returns with step `a` after the run `as`. -/
def ReturnsBy (m : Machine H C L) (h : H) (as : List (Act H C L)) (a : Act H C L)
    (u : Machine H C L) : Prop :=
  ∃ t, run step m as = some t ∧ Always step (fun s => (s.harts h).pc ≠ .idle) m as ∧
    step t a = some u ∧ (u.harts h).pc = .idle

/-- Control passes to the scheduler. -/
def Passes (m : Machine H C L) (h : H) : Prop :=
  ∃ n i, step m (.run h) = some n ∧ (n.harts h).thread = none ∧ (n.harts h).pc = .back i

/-- The process does not get back to its own code before it has been made RUNNABLE and a scheduler
has switched to it. -/
def SleepsOn (m : Machine H C L) (p : Fin 64) : Prop :=
  ∀ as t, run step m as = some t →
    Always step (fun s => (s.procs p).state ≠ .runnable) m as ∨
      Always step (fun s => ∀ g, (s.harts g).pc ≠ .dispatch p) m as →
    ∀ g, (t.harts g).thread = some p → (t.harts g).pc ≠ .idle

structure Consistent (m : Machine H C L) (h : H) (p : Fin 64) : Prop where
  refused : Passes m h ∨
    (m.harts h).cpu.lockLayer ≠ 1 ∧ ∀ as a u, ReturnsBy m h as a u → ¬ Inconsistent u h p
  asleep : ∀ lock, (m.harts h).pc = .asleep p lock → SleepsOn m p

/-- `enter_sched` switches, to a scheduler. -/
def Switches (x : Hart C L) : Prop := x.cpu.lockLayer = 1 ∧ x.cpu.context ≠ none

/-- The other harts may give back the lock while the process sleeps. -/
def Regained (m : Machine H C L) (h : H) (p : Fin 64) (lock : L) : Prop :=
  ∃ as t, (∀ a ∈ as, a.hart ≠ h) ∧ run step m as = some t ∧ t.locks lock ≠ 0 ∧
    (t.procs p).state = .sleeping

/-- Nobody executes the process, or hart `h` does and is about to switch to its scheduler. -/
structure Away (m : Machine H C L) (h : H) (p : Fin 64) : Prop where
  points : Points m
  contexts : ∀ q k, q ≠ p → (m.procs q).context = some k → k.thread ≠ some p
  threads : ∀ g, g ≠ h → (m.harts g).thread ≠ some p
  here : (m.harts h).thread = some p → (m.harts h).cpu.curProc = some p ∧
    Switches (m.harts h) ∧ ∃ lock, (m.harts h).pc = .asleep p lock

variable {m n : Machine H C L} {h g : H} {p : Fin 64} {a : Act H C L} {lock : L} {next : Pc C L}

omit [DecidableEq L] [DecidableEq C] in
theorem enterSched_switches (hm : Points m) (hcur : (m.harts h).cpu.curProc = some p)
    (hsw : Switches (m.harts h)) :
    ((m.enterSched h next).harts h).thread = none ∧
      ∃ i, ((m.enterSched h next).harts h).pc = .back i := by
  obtain ⟨hlayer, hcontext⟩ := hsw
  obtain ⟨k, hk⟩ := Option.ne_none_iff_exists'.mp hcontext
  obtain ⟨hthread, i, hi⟩ := hm.scheds h k hk
  simp only [Machine.enterSched]
  rw [if_pos hlayer, hcur, hk]
  simp only [set_self, Hart.resume]
  exact ⟨hthread, i, hi⟩

theorem step_thread (hm : Points m)
    (hcontexts : ∀ q k, q ≠ p → (m.procs q).context = some k → k.thread ≠ some p)
    (hloaded : (m.harts a.hart).pc ≠ .dispatch p) (hthread : (m.harts a.hart).thread ≠ some p)
    (hs : step m a = some n) : (n.harts a.hart).thread ≠ some p := by
  obtain ⟨-, hrun⟩ | ⟨-, -, hsame, -⟩ := call_cases hs
  · obtain hsame | ⟨i, hpc⟩ | hleaves := runHart_thread hrun
    · rwa [hsame]
    · simp only [runHart, hpc, Option.some.injEq] at hrun
      subst hrun
      rw [set_self]
      cases hk : (m.procs i).context with
      | none => exact hthread
      | some k =>
        refine hcontexts i k (fun he => ?_) hk
        exact hloaded (he ▸ hpc)
    · have hsched : ∀ next, ((m.enterSched a.hart next).harts a.hart).thread ≠ some p := by
        intro next
        simp only [Machine.enterSched]
        split
        · split
          · rw [set_self]
            exact hthread
          · rw [set_self]
            cases hk : (m.harts a.hart).cpu.context with
            | none => exact hthread
            | some k =>
              simp only [Hart.resume]
              rw [(hm.scheds _ k hk).1]
              simp
        · rw [set_self]
          exact hthread
      obtain ⟨q, hpc⟩ | ⟨q, lock, hpc⟩ := hleaves
      all_goals
        simp only [runHart, hpc, Option.some.injEq] at hrun
        subst hrun
        exact hsched _
  · rwa [hsame]

theorem Away.step (hm : Away m h p) (hloaded : ∀ g, (m.harts g).pc ≠ .dispatch p)
    (hs : step m a = some n) : Away n h p := by
  -- Hart `h` leaves the process where it executes it.
  have hleft : (m.harts h).thread = some p → a.hart = h → (n.harts h).thread = none := by
    intro hthread hah
    subst hah
    obtain ⟨hcur, hsw, lock, hpc⟩ := hm.here hthread
    obtain ⟨-, hrun⟩ | ⟨hidle, -⟩ := call_cases hs
    · simp only [runHart, hpc, Option.some.injEq] at hrun
      subst hrun
      exact (enterSched_switches hm.points hcur hsw).1
    · cases hpc.symm.trans hidle
  have hothers : ∀ g, (m.harts g).thread ≠ some p → (n.harts g).thread ≠ some p := by
    intro g hg
    by_cases hga : g = a.hart
    · subst hga
      exact step_thread hm.points hm.contexts (hloaded _) hg hs
    · rwa [step_other hs hga]
  refine ⟨hm.points.step hs, fun q k hq hk => ?_, fun g hg => hothers g (hm.threads g hg),
    fun hthread => ?_⟩
  · obtain hsame | ⟨next, -, hleaves, hnew⟩ := step_context hs q
    · rw [hsame] at hk
      exact hm.contexts q k hq hk
    · obtain rfl := Option.some.inj (hnew.symm.trans hk)
      intro hthread
      by_cases hah : a.hart = h
      · have hcur := hleaves.2.1
        rw [hah] at hcur hthread
        rw [(hm.here hthread).1] at hcur
        exact hq (Option.some.inj hcur).symm
      · exact hm.threads _ hah hthread
  · by_cases hold : (m.harts h).thread = some p
    · by_cases hah : a.hart = h
      · rw [hleft hold hah] at hthread
        cases hthread
      · rw [step_other hs (Ne.symm hah)]
        exact hm.here hold
    · exact absurd hthread (hothers h hold)

theorem unloaded_step (hm : Points m) (hloaded : ∀ g, (m.harts g).pc ≠ .dispatch p)
    (hp : (m.procs p).state ≠ .runnable) (hs : step m a = some n) (g : H) :
    (n.harts g).pc ≠ .dispatch p := by
  intro hg
  obtain hold | ⟨-, hstate⟩ := step_dispatch hm hs hg
  · exact hloaded g hold
  · exact hp hstate

theorem Away.sleepsOn (hm : Away m h p) (hloaded : ∀ g, (m.harts g).pc ≠ .dispatch p) :
    SleepsOn m p := by
  intro as t hrun halways g hthread hidle
  have ht : Away t h p := by
    obtain hstate | hnever := halways
    · have hboth : Away t h p ∧ ∀ g, (t.harts g).pc ≠ .dispatch p :=
        hstate.run_invariant (I := fun s => Away s h p ∧ ∀ g, (s.harts g).pc ≠ .dispatch p)
          (fun _ _ _ hs hp hst => ⟨hs.1.step hs.2 hst, unloaded_step hs.1.points hs.2 hp hst⟩)
          ⟨hm, hloaded⟩ hrun
      exact hboth.1
    · exact hnever.run_invariant (fun _ _ _ hs hp hst => Away.step hs hp hst) hm hrun
  by_cases hg : g = h
  · subst hg
    obtain ⟨-, -, lock, hpc⟩ := ht.here hthread
    cases hpc.symm.trans hidle
  · exact ht.threads g hg hthread

omit [DecidableEq H] [DecidableEq C] [DecidableEq L] in
theorem Entering.away (hm : Entering m h p) (hsw : Switches (m.harts h))
    (hpc : (m.harts h).pc = .asleep p lock) : Away m h p :=
  ⟨hm.points, hm.contexts, hm.threads, fun _ => ⟨hm.cur, hsw, lock, hpc⟩⟩

theorem Entering.enters (hm : Entering m h p) :
    ∃ next, step m (.run h) = some (m.enterSched h next) ∧ ∀ i, next ≠ .back i := by
  obtain ⟨hpc, -⟩ | ⟨lock, hpc, -⟩ := hm.pc
  · exact ⟨.yielded p, by simp only [step, runHart, hpc], by simp⟩
  · exact ⟨.awake p lock, by simp only [step, runHart, hpc], by simp⟩

theorem Entering.passes (hm : Entering m h p) (hsw : Switches (m.harts h)) : Passes m h := by
  obtain ⟨next, hnext, -⟩ := hm.enters
  obtain ⟨hthread, i, hi⟩ : ((m.enterSched h next).harts h).thread = none ∧
      ∃ i, ((m.enterSched h next).harts h).pc = .back i := enterSched_switches hm.points hm.cur hsw
  exact ⟨_, i, hnext, hthread, hi⟩

theorem Entering.not_passes (hm : Entering m h p) (hsw : ¬ Switches (m.harts h)) :
    ¬ Passes m h := by
  rintro ⟨n, i, hstep, -, hi⟩
  obtain ⟨next, hnext, hback⟩ := hm.enters
  obtain rfl := Option.some.inj (hnext.symm.trans hstep)
  simp only [Machine.enterSched] at hi
  split at hi
  case isTrue hlayer =>
    have hcontext : (m.harts h).cpu.context = none := by
      by_contra hne
      exact hsw ⟨hlayer, hne⟩
    rw [hm.cur, hcontext] at hi
    simp only [set_self, Hart.resume, Hart.goto] at hi
    cases hi
  case isFalse =>
    rw [set_self] at hi
    exact hback i hi

omit [DecidableEq L] [DecidableEq C] in
/-- What the refused switch leaves of the state that `give_up` and `sleep` go on with. -/
theorem enterSched_refused (hlayer : (m.harts h).cpu.lockLayer ≠ 1) :
    m.enterSched h next = m.set h ((m.harts h).readCurProc.goto next) := by
  simp only [Machine.enterSched]
  rw [if_neg hlayer]

theorem giveUp_returns (hpc : (m.harts h).pc = .yield p) (hlayer : (m.harts h).cpu.lockLayer ≠ 1)
    (hthread : (m.harts h).thread = some p) (hstate : (m.procs p).state = .runnable) :
    ∃ u, ReturnsBy m h [.run h] (.run h) u ∧ Inconsistent u h p := by
  set t := m.set h ((m.harts h).readCurProc.goto (.yielded p)) with ht
  have hfirst : step m (.run h) = some t := by
    simp only [step, runHart, hpc, enterSched_refused hlayer, ht]
  have hpct : (t.harts h).pc = .yielded p := by
    rw [ht, set_self]
    rfl
  refine ⟨t.release h (.proc p) .idle, ⟨t, ?_, ?_, ?_, ?_⟩, ?_, .inr ?_⟩
  · rw [run_cons, hfirst]
    rfl
  · refine ⟨by simp [hpc], fun s hs => ?_⟩
    obtain rfl := Option.some.inj (hfirst.symm.trans hs)
    simp [Always, hpct]
  · simp only [step, runHart, hpct]
  · rw [release_self]
    rfl
  · rw [release_self, ht, set_self]
    exact hthread
  · exact (setWord_procs t (.proc p) 1 p).1.trans hstate

theorem sleep_returns (hpc : (m.harts h).pc = .asleep p lock)
    (hlayer : (m.harts h).cpu.lockLayer ≠ 1) (hthread : (m.harts h).thread = some p)
    (hstate : (m.procs p).state = .sleeping) (hword : m.locks lock ≠ 0) :
    ∃ u, ReturnsBy m h [.run h, .run h, .run h] (.run h) u ∧ Inconsistent u h p := by
  set n₁ := m.set h ((m.harts h).readCurProc.goto (.awake p lock)) with hn₁
  set n₂ := (n₁.setChannel p none).set h ((n₁.harts h).goto (.retake p lock)) with hn₂
  set n₃ := (n₂.release h (.proc p) .idle).set h
    (((n₂.release h (.proc p) .idle).harts h).ask (.user lock) .idle) with hn₃
  have hpc₁ : (n₁.harts h).pc = .awake p lock := by
    rw [hn₁, set_self]
    rfl
  have hpc₂ : (n₂.harts h).pc = .retake p lock := by
    rw [hn₂, set_self]
    rfl
  have hpc₃ : (n₃.harts h).pc = .spin (.user lock) .idle := by
    rw [hn₃, set_self]
    rfl
  have h₁ : step m (.run h) = some n₁ := by
    simp only [step, runHart, hpc, enterSched_refused hlayer, hn₁]
  have h₂ : step n₁ (.run h) = some n₂ := by simp only [step, runHart, hpc₁, hn₂]
  have h₃ : step n₂ (.run h) = some n₃ := by simp only [step, runHart, hpc₂, hn₃]
  have hlock : n₃.word (.user lock) ≠ 0 := hword
  have hthread₃ : (n₃.harts h).thread = some p := by
    rw [hn₃, set_self]
    change ((n₂.release h (.proc p) .idle).harts h).thread = some p
    rw [release_self, hn₂, set_self, hn₁, set_self]
    exact hthread
  have hstate₃ : (n₃.procs p).state = .sleeping := by
    have hstate₂ : (n₂.procs p).state = .sleeping := by
      rw [hn₂, set_procs, Machine.setChannel, setProc_self]
      exact hstate
    rw [hn₃, set_procs]
    exact (setWord_procs n₂ (.proc p) 1 p).1.trans hstate₂
  refine ⟨(n₃.setWord (.user lock) 0).set h
    { (n₃.harts h).goto .idle with held := .user lock :: (n₃.harts h).held },
    ⟨n₃, ?_, ?_, ?_, ?_⟩, ?_, .inl ?_⟩
  · simp only [run_cons, h₁, h₂, h₃, Option.bind_some, run_nil]
  · refine ⟨by simp [hpc], fun s hs => ?_⟩
    obtain rfl := Option.some.inj (h₁.symm.trans hs)
    refine ⟨by simp [hpc₁], fun s hs => ?_⟩
    obtain rfl := Option.some.inj (h₂.symm.trans hs)
    refine ⟨by simp [hpc₂], fun s hs => ?_⟩
    obtain rfl := Option.some.inj (h₃.symm.trans hs)
    simp [Always, hpc₃]
  · simp only [step, runHart, hpc₃, if_neg hlock]
  · rw [set_self]
    rfl
  · rw [set_self]
    exact hthread₃
  · exact hstate₃

theorem others_meets {as : List (Act H C L)} (hothers : ∀ a ∈ as, a.hart ≠ h) :
    Meets step (fun _ a => a.hart ≠ h) m as :=
  meets_of_forall fun a ha _ => hothers a ha

theorem others_keep {as : List (Act H C L)} (hothers : ∀ a ∈ as, a.hart ≠ h) :
    Always step (fun s => s.harts h = m.harts h) m as :=
  always_of_meets (fun _ _ _ hs ha hst => (step_other hst (Ne.symm ha)).trans hs) rfl
    (others_meets hothers)

theorem ReturnsBy.after {as bs : List (Act H C L)} {t u : Machine H C L}
    (hothers : ∀ a ∈ as, a.hart ≠ h) (hrun : run step m as = some t)
    (hpc : (m.harts h).pc ≠ .idle) (hret : ReturnsBy t h bs a u) :
    ReturnsBy m h (as ++ bs) a u := by
  obtain ⟨v, hv, halways, hlast⟩ := hret
  have hkeep : Always step (fun s => (s.harts h).pc ≠ .idle) m as :=
    (others_keep hothers).mono fun s hs => by rwa [hs]
  refine ⟨v, ?_, hkeep.append hrun halways, hlast⟩
  rw [run_append, hrun]
  exact hv

theorem Entering.not_consistent (hm : Entering m h p) (hsw : ¬ Switches (m.harts h))
    (hlock : ∀ lock, (m.harts h).pc = .asleep p lock → Regained m h p lock) :
    ¬ Consistent m h p := by
  intro hcons
  obtain hpasses | ⟨hlayer, hret⟩ := hcons.refused
  · exact hm.not_passes hsw hpasses
  obtain ⟨hpc, hstate⟩ | ⟨lock, hpc, -⟩ := hm.pc
  · obtain ⟨u, hu, hbad⟩ := giveUp_returns hpc hlayer hm.thread hstate
    exact hret _ _ u hu hbad
  · obtain ⟨as, t, hothers, hrun, hword, hstate⟩ := hlock lock hpc
    have hsame := (others_keep hothers).final hrun
    have hlayer' : (t.harts h).cpu.lockLayer ≠ 1 := by rwa [hsame]
    obtain ⟨u, hu, hbad⟩ := sleep_returns (hsame ▸ hpc) hlayer' (hsame ▸ hm.thread) hstate hword
    exact hret _ _ u (hu.after hothers hrun (by simp [hpc])) hbad

/-- The process is left consistent if `enter_sched` switches to a scheduler. Otherwise it is not,
where `sleep` can get its lock back. -/
theorem consistent_iff (m : Machine H C L) (h : H) (p : Fin 64) (hm : Entering m h p) :
    (Switches (m.harts h) → Consistent m h p) ∧
      ((∀ lock, (m.harts h).pc = .asleep p lock → Regained m h p lock) →
        (Consistent m h p ↔ Switches (m.harts h))) := by
  have hgood : Switches (m.harts h) → Consistent m h p := fun hsw =>
    ⟨.inl (hm.passes hsw), fun lock hpc => (hm.away hsw hpc).sleepsOn hm.loaded⟩
  refine ⟨hgood, fun hlock => ⟨fun hcons => ?_, hgood⟩⟩
  by_contra hsw
  exact hm.not_consistent hsw hlock hcons

/-- Hart `false` executes process 0 and hart `true` process 1. -/
def resting : Machine Bool Unit Bool where
  harts h :=
    let p := if h then procEntry 1 else procEntry 0
    { sstatus := 0, cpu := ⟨0, some p, some ⟨none, .back p⟩, 0⟩,
      c := ⟨0, some p, some ⟨none, .back p⟩, 0⟩, thread := some p, pc := .idle, held := [] }
  procs p :=
    { context := none, lock := 1, state := if p.val < 2 then .running else .unused,
      channel := none }
  locks _ := 1

/-- Process 0 takes lock `false` and calls `sleep` with it, up to `enter_sched`. -/
def sleepOnce : List (Act Bool Unit Bool) :=
  [.acquire false false, .run false, .sleep false () false] ++ List.replicate 4 (.run false)

/-- The same while it also holds lock `true`. -/
def sleepNested : List (Act Bool Unit Bool) := [.acquire false true, .run false] ++ sleepOnce

theorem resting_points : Points resting := by
  refine ⟨fun g lock next hg => ?_, fun g k hk => ?_, fun q k hk => ?_⟩
  · cases hg
  · obtain rfl := Option.some.inj hk
    exact ⟨rfl, _, rfl⟩
  · cases hk

theorem resting_entering {as : List (Act Bool Unit Bool)} {m : Machine Bool Unit Bool} {lock : Bool}
    (hothers : ∀ a ∈ as, a.hart ≠ true) (hrun : run step resting as = some m)
    (hpc : (m.harts false).pc = .asleep (procEntry 0) lock)
    (hthread : (m.harts false).thread = some (procEntry 0))
    (hcur : (m.harts false).cpu.curProc = some (procEntry 0))
    (hstate : (m.procs (procEntry 0)).state = .sleeping)
    (hcontexts : ∀ q, (m.procs q).context = none) : Entering m false (procEntry 0) := by
  have hkeep : m.harts true = resting.harts true := (others_keep hothers).final hrun
  refine ⟨.inr ⟨lock, hpc, hstate⟩, hthread, hcur, ?_, fun g hg => ?_, fun q k _ hk => ?_,
    fun g => ?_⟩
  · exact run_invariant (fun _ _ _ hs hst => Points.step hs hst) resting_points hrun
  · rw [Bool.eq_true_of_not_eq_false hg, hkeep]
    decide
  · rw [hcontexts q] at hk
    cases hk
  · cases g with
    | false =>
      rw [hpc]
      simp
    | true =>
      rw [hkeep]
      simp [resting]

theorem sleepOnce_entering : ∃ m, run step resting sleepOnce = some m ∧
    Entering m false (procEntry 0) ∧ Switches (m.harts false) := by
  have hothers : ∀ a ∈ sleepOnce, a.hart ≠ true := by decide
  exact ⟨_, rfl, resting_entering hothers rfl rfl rfl rfl rfl (by decide), rfl,
    Option.some_ne_none _⟩

theorem consistent_iff_sleepOnce : ∃ m, run step resting sleepOnce = some m ∧
    Entering m false (procEntry 0) ∧ Consistent m false (procEntry 0) := by
  obtain ⟨m, hrun, hm, hsw⟩ := sleepOnce_entering
  exact ⟨m, hrun, hm, (consistent_iff m false (procEntry 0) hm).1 hsw⟩

/-- With a second lock held, `sleep` returns although the process is still SLEEPING. -/
theorem not_consistent_sleepNested : ∃ m, run step resting sleepNested = some m ∧
    Entering m false (procEntry 0) ∧ ¬ Consistent m false (procEntry 0) := by
  have hothers : ∀ a ∈ sleepNested, a.hart ≠ true := by decide
  refine ⟨_, rfl, ?_⟩
  have hm : Entering _ false (procEntry 0) :=
    resting_entering hothers rfl rfl rfl rfl rfl (by decide)
  refine ⟨hm, hm.not_consistent (fun hsw => absurd hsw.1 (by decide)) fun lock hpc => ?_⟩
  obtain rfl : false = lock := (Pc.asleep.inj hpc).2
  exact ⟨[], _, by simp, rfl, by decide, rfl⟩

end Raynix.RefusedSwitch
