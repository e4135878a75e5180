import Raynix.InterruptNesting
import Raynix.Suspension

namespace Raynix.InterruptFlag

open Raynix.HandOver Raynix.Lib.Transition Raynix.Process Raynix.ProcessStep Raynix.Suspension

variable {H C L : Type}

/-- An action of a hart, or a sleeping process is made RUNNABLE as `wakeup` is to do. -/
inductive Event (H C L : Type)
  | act (a : Act H C L)
  | wake (p : Fin 64)

/-- The machine with ghost `disabled`: that local variable of the call of `enter_sched` which the
context of a process resumes. -/
structure Frames (H C L : Type) where
  machine : Machine H C L
  disabled : Fin 64 → BitVec 32

/-- `int disabled = c.interrupt_disabled;`, before a switch that leaves the context of `q`. -/
def trackDisabled (s : Frames H C L) : Act H C L → Fin 64 → BitVec 32
  | .run h =>
    let x := s.machine.harts h
    match x.pc, x.cpu.curProc with
    | .yield _, some q | .asleep _ _, some q =>
      if x.cpu.lockLayer = 1 then Function.update s.disabled q x.cpu.interruptDisabled
      else s.disabled
    | _, _ => s.disabled
  | _ => s.disabled

/-- A hart is about to enter `enter_sched`. -/
def Enters (pc : Pc C L) : Prop := (∃ r, pc = .yield r) ∨ ∃ r lock, pc = .asleep r lock

/-- A context goes on after the switch in `enter_sched`. -/
def Entered (pc : Pc C L) : Prop := (∃ r, pc = .yielded r) ∨ ∃ r lock, pc = .awake r lock

variable [DecidableEq H] [DecidableEq C] [DecidableEq L]

def trackedStep (s : Frames H C L) : Event H C L → Option (Frames H C L)
  | .act a => (step s.machine a).map fun n => ⟨n, trackDisabled s a⟩
  | .wake p =>
    if (s.machine.procs p).state = .sleeping then
      some { s with machine := s.machine.setState p .runnable }
    else none

/-- A call of `enter_sched` returns on hart `h`, resumed by its scheduler or without a switch. It
was entered with `interrupt_disabled` = `d`. -/
def Returns (s : Frames H C L) (e : Event H C L) (h : H) (d : BitVec 32) : Prop :=
  e = .act (.run h) ∧
    ((∃ i k, (s.machine.harts h).pc = .dispatch i ∧ (s.machine.procs i).context = some k ∧
        Entered k.pc ∧ d = s.disabled i) ∨
      (Enters (s.machine.harts h).pc ∧ (s.machine.harts h).cpu.lockLayer ≠ 1 ∧
        d = (s.machine.harts h).cpu.interruptDisabled))

/-- The flag is the one with which the call was entered. -/
def FlagTravels (s : Frames H C L) (e : Event H C L) : Prop :=
  ∀ h d t, Returns s e h d → trackedStep s e = some t →
    (t.machine.harts h).cpu.interruptDisabled = d

/-- No call from `sleep` is resumed, and none from `give_up` is made at layer 0. -/
def FromGiveUp (s : Frames H C L) (e : Event H C L) : Prop :=
  ∀ h, e = .act (.run h) →
    (∀ i k r lock, (s.machine.harts h).pc = .dispatch i →
      (s.machine.procs i).context = some k → k.pc ≠ .awake r lock) ∧
    ∀ r, (s.machine.harts h).pc = .yield r → (s.machine.harts h).cpu.lockLayer ≠ 0

/-- Every hart enters the scheduler or executes a process outside these functions, and no process
is suspended inside them. -/
structure Start (s : Frames H C L) : Prop where
  harts : ∀ h, ((s.machine.harts h).pc = .enter ∧ (s.machine.harts h).cpu.lockLayer = 0) ∨
    (s.machine.harts h).pc = .idle
  scheds : ∀ h k, (s.machine.harts h).cpu.context = some k →
    k.thread = none ∧ ∃ i, k.pc = .back i
  procs : ∀ p k, (s.machine.procs p).context = some k → ∃ r, k.pc = .start r

/-- The counters of a hart at a point of the code: what the last push has left there. -/
def Counted (layer flag : BitVec 32) : Pc C L → Prop
  | .spin _ next => Counted layer flag next
  | .enter | .scan _ => layer = 0
  | .check _ | .dispatch _ => layer = 1 ∧ flag = 1
  | .back _ | .unlock _ => layer = 1
  | .giveUp _ | .yield _ | .sleep _ _ _ | .channel _ _ _ | .drop _ _ =>
    flag = if layer = 1 then 1 else 0
  | .asleep _ _ => flag = if layer = 0 then 1 else 0
  | _ => True

def Hart.Counted (x : Hart C L) : Prop :=
  InterruptFlag.Counted x.cpu.lockLayer x.cpu.interruptDisabled x.pc

structure Inv (s : Frames H C L) : Prop where
  points : Points s.machine
  counted : ∀ g, Hart.Counted (s.machine.harts g)
  frames : ∀ q k, (s.machine.procs q).context = some k →
    (∀ r, k.pc = .yielded r → s.disabled q = 1) ∧ ∀ r lock, k.pc = .awake r lock → s.disabled q = 0

omit [DecidableEq H] [DecidableEq C] [DecidableEq L] in
theorem push_flag (x : Hart C L) :
    x.push.cpu.interruptDisabled = if x.cpu.lockLayer = 0 then 1 else 0 :=
  InterruptNesting.pushInterOff_interruptDisabled x.counters

omit [DecidableEq H] [DecidableEq C] [DecidableEq L] in
theorem pop_flag (x : Hart C L) : x.pop.cpu.interruptDisabled = x.cpu.interruptDisabled :=
  InterruptNesting.popInterOff_interruptDisabled x.counters

omit [DecidableEq H] [DecidableEq C] [DecidableEq L] in
theorem readCurProc_flag (x : Hart C L) :
    x.readCurProc.cpu.interruptDisabled = if x.cpu.lockLayer = 0 then 1 else 0 := by
  rw [Hart.readCurProc, pop_flag, push_flag]

theorem add_one_eq_one (l : BitVec 32) : l + 1 = 1 ↔ l = 0 := by
  constructor
  · intro h
    rw [← BitVec.add_sub_cancel l 1, h]
    rfl
  · rintro rfl
    rfl

theorem sub_one_eq_zero (l : BitVec 32) : l - 1 = 0 ↔ l = 1 := by
  constructor
  · intro h
    rw [← BitVec.sub_add_cancel l 1, h]
    rfl
  · rintro rfl
    rfl

variable {m n : Machine H C L} {h : H} {next : Pc C L} {x : Hart C L} {lock : Lock L}

omit [DecidableEq H] [DecidableEq C] [DecidableEq L] in
/-- The push of `acquire`. -/
theorem counted_ask (hnext : Counted (x.cpu.lockLayer + 1)
    (if x.cpu.lockLayer = 0 then 1 else 0) next) : Hart.Counted (x.ask lock next) := by
  change Counted x.push.cpu.lockLayer x.push.cpu.interruptDisabled next
  rw [push_lockLayer, push_flag]
  exact hnext

omit [DecidableEq C] in
/-- The pop of `release`. -/
theorem counted_release (hnext : Counted ((m.harts h).cpu.lockLayer - 1)
    (m.harts h).cpu.interruptDisabled next) :
    Hart.Counted ((m.release h lock next).harts h) := by
  rw [release_self]
  change Counted (Hart.pop _).cpu.lockLayer (Hart.pop _).cpu.interruptDisabled next
  rw [pop_lockLayer, pop_flag]
  exact hnext

omit [DecidableEq C] [DecidableEq L] in
theorem counted_enterSched (hm : Points m) (hnext : ∀ layer flag, Counted layer flag next) :
    Hart.Counted ((m.enterSched h next).harts h) := by
  simp only [Machine.enterSched]
  split
  case isTrue hlayer =>
    split
    · rw [set_self]
      trivial
    · rw [set_self]
      cases hk : (m.harts h).cpu.context with
      | none => trivial
      | some k =>
        obtain ⟨-, i, hi⟩ := hm.scheds h k hk
        simp only [Hart.resume, Hart.Counted, hi]
        change (m.harts h).readCurProc.cpu.lockLayer = 1
        rw [readCurProc_lockLayer]
        exact hlayer
  case isFalse =>
    rw [set_self]
    exact hnext _ _

theorem runHart_counted (hm : Points m) (hx : Hart.Counted (m.harts h))
    (hs : runHart m h = some n) : Hart.Counted (n.harts h) := by
  cases runHart_moves hs with
  | spinBusy lock next hpc hword =>
    rw [set_self]
    exact hx
  | scan i hpc =>
    rw [Hart.Counted, hpc] at hx
    rw [set_self]
    refine counted_ask ?_
    change _ = 0 at hx
    rw [hx]
    exact ⟨rfl, rfl⟩
  | checkSkip i hpc hstate =>
    rw [Hart.Counted, hpc] at hx
    rw [set_self]
    exact hx.1
  | dispatch i hpc =>
    rw [set_self]
    cases hk : (m.procs i).context with
    | none => trivial
    | some k =>
      obtain ⟨r, hr | hr | ⟨lock, hr⟩⟩ := hm.procs i k hk
      all_goals
        simp only [Hart.resume, Hart.Counted, hr]
        trivial
  | yield q hpc | asleep q lock hpc => exact counted_enterSched hm fun _ _ => trivial
  | unlock i hpc =>
    rw [Hart.Counted, hpc] at hx
    exact counted_release ((sub_one_eq_zero _).mpr hx)
  | drop q lock hpc =>
    rw [Hart.Counted, hpc] at hx
    refine counted_release ?_
    change _ = if _ - 1 = _ then _ else _
    simp only [sub_one_eq_zero]
    exact hx
  | start q hpc | yielded q hpc => exact counted_release trivial
  | retake q lock hpc =>
    rw [set_self]
    exact counted_ask trivial
  | wakeCopy channel i rest hpc =>
    rw [Machine.copyProc, set_self]
    trivial
  | wakeFree channel rest cursor hpc =>
    rw [set_self]
    trivial
  | spinTake lock next hpc hword | enter hpc | checkTake i hpc hstate | back i hpc | giveUp i hpc
  | sleep i channel lock hpc | channel i channel lock hpc | awake i lock hpc | wakeDone channel hpc
  | wakeSpin channel rest cursor hpc hlock | wakeTake channel rest cursor hpc hlock
  | wakeTest channel rest cursor copy hpc =>
    rw [Hart.Counted, hpc] at hx
    rw [set_self]
    exact hx

omit [DecidableEq C] in
theorem call_counted {a : Act H C L} (hs : Calls m a n) : Hart.Counted (n.harts a.hart) := by
  cases hs with
  | acquire h lock hpc =>
    simp only [Act.hart, set_self]
    exact counted_ask trivial
  | release h lock hpc => exact counted_release trivial
  | wakeup h channel hpc | giveUpNull h hpc hcur | sleepNull h channel lock hpc hcur =>
    simp only [Act.hart, set_self]
    trivial
  | giveUp h p hpc hcur | sleep h channel lock p hpc hcur =>
    simp only [Act.hart, set_self]
    refine counted_ask ?_
    rw [readCurProc_lockLayer]
    change _ = if _ + 1 = _ then _ else _
    simp only [add_one_eq_one]

theorem step_counted {a : Act H C L} (hm : Points m) (hx : ∀ g, Hart.Counted (m.harts g))
    (hs : step m a = some n) (g : H) : Hart.Counted (n.harts g) := by
  by_cases hg : g = a.hart
  · subst hg
    obtain ⟨h, rfl, -⟩ | hcall := step_moves hs
    · exact runHart_counted hm (hx h) hs
    · exact call_counted hcall
  · rw [step_other hs hg]
    exact hx g

variable {s t : Frames H C L} {q i : Fin 64} {g : H}

omit [DecidableEq H] [DecidableEq C] [DecidableEq L] in
theorem trackDisabled_leaves (h : Leaves (s.machine.harts g) q next) :
    trackDisabled s (.run g) q = (s.machine.harts g).cpu.interruptDisabled := by
  obtain ⟨hlayer, hcur, ⟨r, hpc, -⟩ | ⟨r, lock, hpc, -⟩⟩ := h
  all_goals
    simp only [trackDisabled, hpc, hcur]
    rw [if_pos hlayer, Function.update_self]

omit [DecidableEq H] [DecidableEq C] [DecidableEq L] in
theorem trackDisabled_stays {a : Act H C L}
    (h : ∀ g next, a = .run g → ¬ Leaves (s.machine.harts g) q next) :
    trackDisabled s a q = s.disabled q := by
  cases a with
  | run g =>
    have hstay : ∀ p next,
        ((s.machine.harts g).cpu.lockLayer = 1 → Leaves (s.machine.harts g) p next) →
        (if (s.machine.harts g).cpu.lockLayer = 1 then
          Function.update s.disabled p (s.machine.harts g).cpu.interruptDisabled
          else s.disabled) q = s.disabled q := by
      intro p next hleaves
      by_cases hlayer : (s.machine.harts g).cpu.lockLayer = 1
      · rw [if_pos hlayer]
        refine Function.update_of_ne (fun hq => ?_) ..
        exact h g next rfl (hq ▸ hleaves hlayer)
      · rw [if_neg hlayer]
    cases hcur : (s.machine.harts g).cpu.curProc with
    | none =>
      simp only [trackDisabled, hcur]
      cases (s.machine.harts g).pc
      all_goals rfl
    | some p =>
      cases hpc : (s.machine.harts g).pc with
      | yield r =>
        simp only [trackDisabled, hpc, hcur]
        exact hstay p (.yielded r) fun hlayer => ⟨hlayer, hcur, .inl ⟨r, hpc, rfl⟩⟩
      | asleep r lock =>
        simp only [trackDisabled, hpc, hcur]
        exact hstay p (.awake r lock) fun hlayer => ⟨hlayer, hcur, .inr ⟨r, lock, hpc, rfl⟩⟩
      | _ => simp only [trackDisabled, hpc]
  | _ => rfl

theorem leaves_context (hs : step m (.run h) = some n) (hl : Leaves (m.harts h) q next) :
    (n.procs q).context = some ⟨(m.harts h).thread, next⟩ := by
  obtain ⟨hlayer, hcur, ⟨r, hpc, rfl⟩ | ⟨r, lock, hpc, rfl⟩⟩ := hl
  all_goals
    simp only [step, runHart, hpc, Option.some.injEq] at hs
    subst hs
    simp only [Machine.enterSched, if_pos hlayer, hcur]
    rw [set_procs, Machine.setContext, setProc_self]

omit [DecidableEq H] [DecidableEq C] [DecidableEq L] in
theorem leaves_flag (hx : Hart.Counted x) (hl : Leaves x q next) :
    (∀ r, next = .yielded r → x.cpu.interruptDisabled = 1) ∧
      ∀ r lock, next = .awake r lock → x.cpu.interruptDisabled = 0 := by
  obtain ⟨hlayer, -, ⟨r, hpc, rfl⟩ | ⟨r, lock, hpc, rfl⟩⟩ := hl
  all_goals
    rw [Hart.Counted, hpc, hlayer] at hx
    refine ⟨fun r' he => ?_, fun r' lock' he => ?_⟩
    all_goals first | exact hx | cases he

theorem step_frames {a : Act H C L} (hs : Inv s) (hst : step s.machine a = some n) (q : Fin 64)
    (k : Process.Cont C L) (hk : (n.procs q).context = some k) :
    (∀ r, k.pc = .yielded r → trackDisabled s a q = 1) ∧
      ∀ r lock, k.pc = .awake r lock → trackDisabled s a q = 0 := by
  by_cases hleaves : ∃ g next, a = .run g ∧ Leaves (s.machine.harts g) q next
  · obtain ⟨g, next, rfl, hl⟩ := hleaves
    obtain rfl := Option.some.inj ((leaves_context hst hl).symm.trans hk)
    rw [trackDisabled_leaves hl]
    exact leaves_flag (hs.counted g) hl
  · have hstay : ∀ g next, a = .run g → ¬ Leaves (s.machine.harts g) q next :=
      fun g next ha hl => hleaves ⟨g, next, ha, hl⟩
    rw [trackDisabled_stays hstay]
    obtain hsame | ⟨next, ha, hl, -⟩ := step_context hst q
    · rw [hsame] at hk
      exact hs.frames q k hk
    · exact absurd hl (hstay _ _ ha)

theorem Inv.step {e : Event H C L} (hs : Inv s) (h : trackedStep s e = some t) : Inv t := by
  cases e with
  | act a =>
    simp only [trackedStep, Option.map_eq_some_iff] at h
    obtain ⟨n, hn, rfl⟩ := h
    exact ⟨hs.points.step hn, step_counted hs.points hs.counted hn, step_frames hs hn⟩
  | wake p =>
    simp only [trackedStep] at h
    split at h
    case isTrue =>
      cases h
      have hcontext : ∀ q, ((s.machine.setState p .runnable).procs q).context =
          (s.machine.procs q).context := by
        intro q
        rw [Machine.setState]
        by_cases hq : q = p
        · rw [hq, setProc_self]
        · rw [setProc_of_ne _ _ hq]
      refine ⟨⟨hs.points.spins, hs.points.scheds, fun q k hk => ?_⟩, hs.counted, fun q k hk => ?_⟩
      · rw [hcontext] at hk
        exact hs.points.procs q k hk
      · rw [hcontext] at hk
        exact hs.frames q k hk
    case isFalse => cases h

omit [DecidableEq H] [DecidableEq C] [DecidableEq L] in
theorem Start.inv (hs : Start s) : Inv s := by
  refine ⟨⟨fun g lock next hg => ?_, hs.scheds, fun q k hk => ?_⟩, fun g => ?_, fun q k hk => ?_⟩
  · obtain ⟨hpc, -⟩ | hpc := hs.harts g
    all_goals cases hpc.symm.trans hg
  · obtain ⟨r, hr⟩ := hs.procs q k hk
    exact ⟨r, .inl hr⟩
  · obtain ⟨hpc, hlayer⟩ | hpc := hs.harts g
    · rw [Hart.Counted, hpc]
      exact hlayer
    · rw [Hart.Counted, hpc]
      trivial
  · obtain ⟨r, hr⟩ := hs.procs q k hk
    refine ⟨fun r' he => ?_, fun r' lock he => ?_⟩
    all_goals cases hr.symm.trans he

theorem dispatch_flag (hs : step m (.run h) = some n) (hpc : (m.harts h).pc = .dispatch i) :
    (n.harts h).cpu.interruptDisabled = (m.harts h).cpu.interruptDisabled := by
  simp only [step, runHart, hpc, Option.some.injEq] at hs
  subst hs
  rw [set_self]
  cases (m.procs i).context
  all_goals rfl

theorem refused_flag (hs : step m (.run h) = some n) (hpc : Enters (m.harts h).pc)
    (hlayer : (m.harts h).cpu.lockLayer ≠ 1) : (n.harts h).cpu.interruptDisabled =
      if (m.harts h).cpu.lockLayer = 0 then 1 else 0 := by
  obtain ⟨r, hpc⟩ | ⟨r, lock, hpc⟩ := hpc
  all_goals
    simp only [step, runHart, hpc, Option.some.injEq] at hs
    subst hs
    simp only [Machine.enterSched, if_neg hlayer, set_self]
    exact readCurProc_flag _

theorem Inv.travels (hs : Inv s) {e : Event H C L} (h : FromGiveUp s e) : FlagTravels s e := by
  rintro g d t ⟨rfl, hret⟩ ht
  simp only [trackedStep, Option.map_eq_some_iff] at ht
  obtain ⟨n, hn, rfl⟩ := ht
  obtain ⟨hslept, hlayer⟩ := h g rfl
  have hcounted := hs.counted g
  obtain ⟨i, k, hpc, hk, hentered, rfl⟩ | ⟨henters, hne, rfl⟩ := hret
  · rw [Hart.Counted, hpc] at hcounted
    rw [dispatch_flag hn hpc, hcounted.2]
    obtain ⟨r, hr⟩ | ⟨r, lock, hr⟩ := hentered
    · exact ((hs.frames i k hk).1 r hr).symm
    · exact absurd hr (hslept i k r lock hpc hk)
  · rw [refused_flag hn henters hne]
    obtain ⟨r, hpc⟩ | ⟨r, lock, hpc⟩ := henters
    · rw [Hart.Counted, hpc] at hcounted
      change _ = if _ then _ else _ at hcounted
      rw [hcounted, if_neg (hlayer r hpc), if_neg hne]
    · rw [Hart.Counted, hpc] at hcounted
      exact hcounted.symm

theorem Inv.fromGiveUp (hs : Inv s) {e : Event H C L} (h : FlagTravels s e) : FromGiveUp s e := by
  rintro g rfl
  have hcounted := hs.counted g
  refine ⟨fun i k r lock hpc hk hr => ?_, fun r hpc hlayer => ?_⟩
  · obtain ⟨n, hn⟩ : ∃ n, Process.step s.machine (.run g) = some n := by
      simp only [Process.step, runHart, hpc]
      exact ⟨_, rfl⟩
    have hflag := h g (s.disabled i) ⟨n, _⟩ ⟨rfl, .inl ⟨i, k, hpc, hk, .inr ⟨r, lock, hr⟩, rfl⟩⟩
      (by rw [trackedStep, hn, Option.map_some])
    rw [Hart.Counted, hpc] at hcounted
    change (n.harts g).cpu.interruptDisabled = _ at hflag
    rw [dispatch_flag hn hpc, hcounted.2, (hs.frames i k hk).2 r lock hr] at hflag
    exact absurd hflag (by decide)
  · obtain ⟨n, hn⟩ : ∃ n, Process.step s.machine (.run g) = some n := by
      simp only [Process.step, runHart, hpc]
      exact ⟨_, rfl⟩
    have hne : (s.machine.harts g).cpu.lockLayer ≠ 1 := by
      rw [hlayer]
      decide
    have hflag := h g _ ⟨n, _⟩ ⟨rfl, .inr ⟨.inl ⟨r, hpc⟩, hne, rfl⟩⟩
      (by rw [trackedStep, hn, Option.map_some])
    rw [Hart.Counted, hpc] at hcounted
    change _ = if _ then _ else _ at hcounted
    change (n.harts g).cpu.interruptDisabled = _ at hflag
    rw [refused_flag hn (.inl ⟨r, hpc⟩) hne, hcounted, if_pos hlayer, if_neg hne] at hflag
    exact absurd hflag (by decide)

/-- Over any run of any number of harts, in which sleeping processes may be made RUNNABLE at any
time: the flag travels with the process exactly as long as each call of `enter_sched` that returns
is one from `give_up`, at a layer other than 0 if it does not switch. -/
theorem flagTravels_iff (s : Frames H C L) (es : List (Event H C L)) (hs : Start s) :
    Meets trackedStep FlagTravels s es ↔ Meets trackedStep FromGiveUp s es :=
  meets_iff_meets (fun _ _ _ hI _ ht => Inv.step hI ht)
    (fun _ _ hI => ⟨hI.fromGiveUp, hI.travels⟩) hs.inv

/-- Hart `false` executes process 0, and hart `true` is about to run the scheduler. -/
def oneProc : Frames Bool Unit Unit where
  machine :=
    { harts := fun h =>
        if h then
          { sstatus := 0, cpu := ⟨0, none, none, 0⟩, c := ⟨0, none, none, 0⟩, thread := none,
            pc := .enter, held := [] }
        else
          { sstatus := 0, cpu := ⟨0, some (procEntry 0), some ⟨none, .back (procEntry 0)⟩, 0⟩,
            c := ⟨0, some (procEntry 0), some ⟨none, .back (procEntry 0)⟩, 0⟩,
            thread := some (procEntry 0), pc := .idle, held := [] }
      procs := fun p =>
        { context := none, lock := 1, state := if p.val = 0 then .running else .unused,
          channel := none }
      locks := fun _ => 1 }
  disabled := fun _ => 0

theorem oneProc_start : Start oneProc := by
  refine ⟨fun h => ?_, fun h k hk => ?_, fun p k hk => ?_⟩
  · cases h
    · exact .inr rfl
    · exact .inl ⟨rfl, rfl⟩
  · cases h
    · obtain rfl := Option.some.inj hk
      exact ⟨rfl, _, rfl⟩
    · cases hk
  · cases hk

/-- Process 0 sleeps, is made RUNNABLE, and the scheduler of hart `true` takes it. -/
def movedSleeper : List (Event Bool Unit Unit) :=
  [.act (.acquire false ()), .act (.run false), .act (.sleep false () ())] ++
    List.replicate 7 (.act (.run false)) ++ [.wake (procEntry 0)] ++
    List.replicate 4 (.act (.run true))

theorem flagTravels_iff_movedSleeper :
    Meets trackedStep FlagTravels oneProc movedSleeper ↔
      Meets trackedStep FromGiveUp oneProc movedSleeper :=
  flagTravels_iff oneProc movedSleeper oneProc_start

theorem movedSleeper_loaded : ∃ s, run trackedStep oneProc movedSleeper = some s ∧
    (s.machine.harts true).pc = .dispatch (procEntry 0) ∧
    ∃ k, (s.machine.procs (procEntry 0)).context = some k ∧ k.pc = .awake (procEntry 0) () :=
  ⟨_, rfl, rfl, _, rfl, rfl⟩

/-- Process 0 went to sleep with the flag at 0 and gets on with the flag at 1. -/
theorem not_flagTravels : ¬ ∀ (s : Frames Bool Unit Unit) (es : List (Event Bool Unit Unit)),
    Start s → Meets trackedStep FlagTravels s es := by
  intro h
  obtain ⟨s, hs, hpc, k, hk, hslept⟩ := movedSleeper_loaded
  have hI : Inv s := run_invariant (fun _ _ _ hI ht => Inv.step hI ht) oneProc_start.inv hs
  have htravels := (h oneProc (movedSleeper ++ [.act (.run true)]) oneProc_start).last hs
  exact (hI.fromGiveUp htravels true rfl).1 _ k _ _ hpc hk hslept

end Raynix.InterruptFlag
