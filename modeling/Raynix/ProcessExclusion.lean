import Raynix.HandOver
import Raynix.ProcessStep

namespace Raynix.ProcessExclusion

open Raynix.HandOver Raynix.Lib.Transition Raynix.Process Raynix.ProcessStep

variable {H C L : Type}

/-- Every hart enters the scheduler or executes a process of its own outside these functions, with
no lock taken. A RUNNABLE process is to release its own lock first. -/
structure Start (m : Machine H C L) : Prop where
  counters : ∀ h, (m.harts h).cpu.lockLayer = 0 ∧ (m.harts h).held = []
  threads : ∀ h, ((m.harts h).pc = .enter ∧ (m.harts h).thread = none) ∨
    ((m.harts h).pc = .idle ∧ ∃ p, (m.harts h).thread = some p)
  unique : ∀ h g p, (m.harts h).thread = some p → (m.harts g).thread = some p → h = g
  runnable : ∀ p, (m.procs p).state = .runnable →
    (∀ h, (m.harts h).thread ≠ some p) ∧ (m.procs p).context = some ⟨some p, .start p⟩

theorem Start.good {m : Machine H C L} (hm : Start m) : Good m := by
  have hempty : ∀ h l, l ∉ (m.harts h).held := by
    intro h l hl
    rw [(hm.counters h).2] at hl
    cases hl
  refine ⟨fun h => ?_, ⟨?_, ?_, ?_⟩, ⟨hm.unique, ?_, ?_⟩⟩
  · obtain ⟨hlayer, hheld⟩ := hm.counters h
    obtain ⟨hpc, hthread⟩ | ⟨hpc, hthread⟩ := hm.threads h
    · refine ⟨?_, fun _ => ?_⟩
      · rw [hpc]
        exact ⟨hthread, hheld⟩
      · rw [hlayer, hheld, hpc]
        rfl
    · refine ⟨?_, fun _ => ?_⟩
      · rw [hpc]
        exact ⟨hthread, fun l hl => absurd hl (hempty h l)⟩
      · rw [hlayer, hheld, hpc]
        rfl
  · exact fun h g l hl => absurd hl (hempty h l)
  · intro h
    rw [(hm.counters h).2]
    exact List.nodup_nil
  · exact fun h l hl => absurd hl (hempty h l)
  · intro p hp
    obtain ⟨habsent, hcontext⟩ := hm.runnable p hp
    exact .inl ⟨habsent, .start p, hcontext, .inl rfl⟩
  · intro h p hp
    obtain ⟨hpc, -⟩ | ⟨hpc, -⟩ := hm.threads h
    all_goals
      rw [hpc] at hp
      cases hp

/-- The hart executes the process or is about to switch to it. -/
def Uses (x : Hart C L) (p : Fin 64) : Prop := x.thread = some p ∨ x.pc = .dispatch p

def Exclusive (m : Machine H C L) : Prop :=
  ∀ h g p, Uses (m.harts h) p → Uses (m.harts g) p → h = g

theorem Good.exclusive {m : Machine H C L} (hm : Good m) : Exclusive m := by
  rintro h g p (hh | hh) (hg | hg)
  · exact hm.threads.unique h g p hh hg
  · exact absurd hh ((hm.threads.loaded g p hg).2.absent h)
  · exact absurd hg ((hm.threads.loaded h p hh).2.absent g)
  · have hheld := ((hm.harts h).dispatch hh).2
    have hheld' := ((hm.harts g).dispatch hg).2
    exact hm.locks.exclusive h g (.proc p) (by simp [hheld]) (by simp [hheld'])

variable [DecidableEq H] [DecidableEq C] [DecidableEq L]

/-- The hart that changes the state of a process holds the lock of that process. -/
def LockedChange (m : Machine H C L) (a : Act H C L) : Prop :=
  ∀ n p, step m a = some n → (n.procs p).state ≠ (m.procs p).state →
    .proc p ∈ (m.harts a.hart).held

theorem Good.lockedChange {m : Machine H C L} (hm : Good m) (a : Act H C L) : LockedChange m a := by
  intro n p hs hne
  have hfits := (hm.harts a.hart).fits
  obtain ⟨hpc, -⟩ | hpc | ⟨channel, lock, hpc⟩ := (step_procs hs p).1.resolve_left hne
  · rw [hpc] at hfits
    simp [hfits.2]
  · rw [hpc] at hfits
    simp [hfits.2.1]
  · rw [hpc] at hfits
    simp [hfits.2.1]

/-- Nothing of this file writes `cpus[h].cur_proc`, so it stays null. -/
theorem step_curProc {m n : Machine H C L} {a : Act H C L}
    (hm : ∀ h, (m.harts h).cpu.curProc = none) (hs : step m a = some n) (h : H) :
    (n.harts h).cpu.curProc = none :=
  (step_sameCpu hs h).1.trans (hm h)

omit [DecidableEq H] [DecidableEq C] [DecidableEq L] in
theorem boundCall_of_curProc {m : Machine H C L} (hm : ∀ h, (m.harts h).cpu.curProc = none)
    (a : Act H C L) : BoundCall m a := by
  cases a with
  | giveUp h | sleep h channel lock =>
    intro p hp
    rw [hm h] at hp
    cases hp
  | _ => trivial

/-- With `cpus` zeroed, or wherever `cur_proc()` is right when it is not null: no two harts ever
execute the same process, and every change of a state is made under the lock of the process. -/
theorem always_exclusive {m : Machine H C L} {as : List (Act H C L)} (hstart : Start m)
    (hcur : (∀ h, (m.harts h).cpu.curProc = none) ∨ Meets step BoundCall m as)
    (hcontract : Meets step Contract m as) :
    Always step Exclusive m as ∧ Meets step LockedChange m as := by
  have hbound : Meets step BoundCall m as := by
    obtain hzero | hbound := hcur
    · exact hcontract.of_invariant (fun m a n hI _ hs => step_curProc hI hs)
        (fun m a hI _ => boundCall_of_curProc hI a) hzero
    · exact hbound
  have hmeets : Meets step (fun m a => Contract m a ∧ BoundCall m a) m as :=
    meets_and.mpr ⟨hcontract, hbound⟩
  constructor
  · exact (always_good hstart.good hmeets).mono fun n hn => Good.exclusive hn
  · exact hmeets.of_invariant (fun m a n hI ha hs => step_good hI ha.1 ha.2 hs)
      (fun m a hI _ => Good.lockedChange hI a) hstart.good

/-- Hart `true` executes process 0 and has its scheduler to go back to, hart `false` is about to
run its own. -/
def giver : Machine Bool Unit Unit where
  harts h :=
    { sstatus := 0,
      cpu := ⟨0, if h then some (procEntry 0) else none, some ⟨none, .back (procEntry 0)⟩, 0⟩,
      c := ⟨0, none, none, 0⟩, thread := if h then some (procEntry 0) else none,
      pc := if h then .idle else .enter, held := [] }
  procs p :=
    { context := none, lock := 1, state := if p = procEntry 0 then .running else .unused,
      channel := none }
  locks _ := 1

theorem giver_start : Start giver := by
  refine ⟨fun _ => ⟨rfl, rfl⟩, fun h => ?_, fun h g p hp hq => ?_, fun p hp => ?_⟩
  · cases h with
    | true => exact .inr ⟨rfl, procEntry 0, rfl⟩
    | false => exact .inl ⟨rfl, rfl⟩
  · cases h with
    | true => cases g with
      | true => rfl
      | false => cases hq
    | false => cases hp
  · simp only [giver] at hp
    split at hp
    · cases hp
    · cases hp

/-- Process 0 gives up hart `true` and the scheduler of hart `false` dispatches it. -/
def passedOn : List (Act Bool Unit Unit) :=
  [.giveUp true, .run true, .run true, .run true, .run false, .run false, .run true, .run true,
    .run false, .run false, .run false, .run false]

theorem always_exclusive_passedOn :
    Always step Exclusive giver passedOn ∧ Meets step LockedChange giver passedOn ∧
      ((run step giver passedOn).map fun m => (m.harts false).thread) =
        some (some (procEntry 0)) := by
  have hbound : Meets step BoundCall giver passedOn := by
    refine ⟨fun p hp => ?_, by simp [Meets, BoundCall]⟩
    cases hp
    exact ⟨rfl, rfl, rfl⟩
  obtain ⟨halways, hlocked⟩ := always_exclusive giver_start (.inr hbound)
    ⟨rfl, by simp [Meets, Contract]⟩
  exact ⟨halways, hlocked, by decide⟩

end Raynix.ProcessExclusion
