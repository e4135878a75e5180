import Raynix.ProcessStep

namespace Raynix.ProcessBinding

open Raynix.Lib.Transition Raynix.Process Raynix.ProcessStep

variable {H C L : Type}

/-- The machine with ghost `dispatched`: the process that the scheduler of a hart has switched to,
until control is back in its loop. -/
structure Tracked (H C L : Type) where
  machine : Machine H C L
  dispatched : H → Option (Fin 64)

/-- Hart `h` is about to switch to process `i`. -/
def Switches (m : Machine H C L) (a : Act H C L) (h : H) (i : Fin 64) : Prop :=
  a = .run h ∧ (m.harts h).pc = .dispatch i

variable [DecidableEq H] [DecidableEq C] [DecidableEq L]

/-- `dispatched` of the hart that acts, after the step to `n`. -/
def track (m n : Machine H C L) (h : H) (old : Option (Fin 64)) : Act H C L → Option (Fin 64)
  | .run _ =>
    match (m.harts h).pc, (n.harts h).pc with
    | .dispatch i, _ => some i
    | _, .back _ => none
    | _, _ => old
  | _ => old

def trackedStep (s : Tracked H C L) (a : Act H C L) : Option (Tracked H C L) :=
  (step s.machine a).map fun n =>
    ⟨n, Function.update s.dispatched a.hart
      (track s.machine n a.hart (s.dispatched a.hart) a)⟩

/-- While the hart runs a process for its scheduler, `cur_proc()` is that process and the context
that `enter_sched` resumes is the one the scheduler saved; otherwise `cur_proc()` is null. -/
def Binding (s : Tracked H C L) : Prop :=
  ∀ h, (s.machine.harts h).cpu.curProc = s.dispatched h ∧
    (s.dispatched h ≠ none →
      (s.machine.harts h).cpu.context = (s.machine.harts h).c.context)

def NoSwitch (s : Tracked H C L) (a : Act H C L) : Prop :=
  ∀ h i, ¬ Switches s.machine a h i

def Fresh (s : Tracked H C L) : Prop :=
  ∀ h, (s.machine.harts h).cpu.curProc = none ∧ s.dispatched h = none

omit [DecidableEq H] [DecidableEq C] [DecidableEq L] in
theorem Fresh.binding {s : Tracked H C L} (hs : Fresh s) : Binding s :=
  fun h => ⟨(hs h).1.trans (hs h).2.symm, fun hne => absurd (hs h).2 hne⟩

theorem trackedStep_cases {s t : Tracked H C L} {a : Act H C L} (h : trackedStep s a = some t) :
    step s.machine a = some t.machine ∧ t.dispatched = Function.update s.dispatched a.hart
      (track s.machine t.machine a.hart (s.dispatched a.hart) a) := by
  simp only [trackedStep, Option.map_eq_some_iff] at h
  obtain ⟨n, hn, rfl⟩ := h
  exact ⟨hn, rfl⟩

theorem trackedStep_curProc {s t : Tracked H C L} {a : Act H C L} (hs : Fresh s)
    (h : trackedStep s a = some t) (g : H) : (t.machine.harts g).cpu.curProc = none :=
  (step_sameCpu (trackedStep_cases h).1 g).1.trans (hs g).1

theorem step_fresh {s t : Tracked H C L} {a : Act H C L} (hs : Fresh s) (ha : NoSwitch s a)
    (h : trackedStep s a = some t) : Fresh t := by
  refine fun g => ⟨trackedStep_curProc hs h g, ?_⟩
  obtain ⟨-, hd⟩ := trackedStep_cases h
  rw [hd]
  by_cases hg : g = a.hart
  · subst hg
    rw [Function.update_self]
    cases a with
    | run k =>
      simp only [track]
      split
      case h_1 _ i hpc => exact absurd ⟨rfl, hpc⟩ (ha k i)
      case h_2 => rfl
      case h_3 => exact (hs k).2
    | _ => exact (hs _).2
  · rw [Function.update_of_ne hg]
    exact (hs g).2

/-- The scheduler writes its local `c`: after its first switch the binding is broken. -/
theorem not_binding_of_switch {s t : Tracked H C L} {a : Act H C L} (hs : Fresh s)
    (ha : ¬ NoSwitch s a) (h : trackedStep s a = some t) : ¬ Binding t := by
  simp only [NoSwitch, Classical.not_forall, not_not] at ha
  obtain ⟨g, i, rfl, hpc⟩ := ha
  obtain ⟨-, hd⟩ := trackedStep_cases h
  intro hbinding
  have hcur := (hbinding g).1
  rw [trackedStep_curProc hs h g, hd] at hcur
  simp [Act.hart, track, hpc] at hcur

/-- From zeroed `cpus` on, over any run of any number of harts, the binding holds exactly as long
as no scheduler switches to a process. -/
theorem binding_iff {s u : Tracked H C L} {as : List (Act H C L)} (hs : Fresh s)
    (h : run trackedStep s as = some u) :
    Always trackedStep Binding s as ↔ Meets trackedStep NoSwitch s as :=
  always_iff_meets (fun _ hI => hI.binding) (fun _ _ _ hI ha ht => step_fresh hI ha ht)
    (fun _ _ _ hI ha ht => not_binding_of_switch hI ha ht) hs h

def oneHart : Tracked Unit Unit Unit where
  machine :=
    { harts := fun _ =>
        { sstatus := 0, cpu := ⟨0, none, none, 0⟩, c := ⟨0, none, none, 0⟩, thread := none,
          pc := .enter, held := [] }
      procs := fun p =>
        { context := if p = procEntry 0 then some ⟨some p, .start p⟩ else none, lock := 1,
          state := if p = procEntry 0 then .runnable else .unused, channel := none }
      locks := fun _ => 1 }
  dispatched := fun _ => none

/-- The scheduler takes the lock of process 0 and switches to it. -/
def firstSwitch : List (Act Unit Unit Unit) := List.replicate 5 (.run ())

theorem firstSwitch_isSome : (run trackedStep oneHart firstSwitch).isSome := by
  decide

theorem binding_iff_firstSwitch :
    Always trackedStep Binding oneHart firstSwitch ↔
      Meets trackedStep NoSwitch oneHart firstSwitch :=
  binding_iff (fun _ => ⟨rfl, rfl⟩) (Option.some_get firstSwitch_isSome).symm

/-- After the first switch `cpus[0].cur_proc` is still null. -/
theorem not_binding : ¬ ∀ (s : Tracked Unit Unit Unit) (as : List (Act Unit Unit Unit)), Fresh s →
    Always trackedStep Binding s as := by
  intro h
  have halways := h oneHart firstSwitch (fun _ => ⟨rfl, rfl⟩)
  have hlast := ((((halways.2 _ rfl).2 _ rfl).2 _ rfl).2 _ rfl).2 _ rfl
  exact absurd (hlast ()).1 (by decide)

end Raynix.ProcessBinding
