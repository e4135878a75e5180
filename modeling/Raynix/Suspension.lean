import Raynix.HandOver
import Raynix.ProcessStep

namespace Raynix.Suspension

open Raynix.HandOver Raynix.Process Raynix.ProcessStep

variable {H C L : Type}

/-- Where the harts and the saved continuations may stand: a context in `cpus` is that of a
scheduler, and a process is suspended before its first run or inside `enter_sched`. -/
structure Points (m : Machine H C L) : Prop where
  spins : ∀ g lock next, (m.harts g).pc = .spin lock next → Entry next
  scheds : ∀ g k, (m.harts g).cpu.context = some k → k.thread = none ∧ ∃ i, k.pc = .back i
  procs : ∀ q k, (m.procs q).context = some k → ∃ r, Resumes r k.pc

/-- A hart in `enter_sched` switches, and leaves in the context of `q` the continuation `next`. -/
def Leaves (x : Hart C L) (q : Fin 64) (next : Pc C L) : Prop :=
  x.cpu.lockLayer = 1 ∧ x.cpu.curProc = some q ∧
    ((∃ r, x.pc = .yield r ∧ next = .yielded r) ∨
      ∃ r lock, x.pc = .asleep r lock ∧ next = .awake r lock)

/-- A point of the code that is neither the switch of a scheduler nor a wrong `acquire`. -/
def Quiet (pc : Pc C L) : Prop :=
  (∀ lock next, pc = .spin lock next → Entry next) ∧ ∀ i, pc ≠ .dispatch i

theorem quiet_of_resumes {r : Fin 64} {pc : Pc C L} (h : Resumes r pc) : Quiet pc := by
  obtain rfl | rfl | ⟨lock, rfl⟩ := h
  all_goals simp [Quiet]

theorem quiet_back (i : Fin 64) : Quiet (.back i : Pc C L) := by simp [Quiet]

variable [DecidableEq H] [DecidableEq L] {m n : Machine H C L} {h : H} {next : Pc C L}

omit [DecidableEq L] in
theorem enterSched_pc (hm : Points m) (hnext : Quiet next) :
    Quiet ((m.enterSched h next).harts h).pc := by
  simp only [Machine.enterSched]
  split
  · split
    · rw [set_self]
      simp [Quiet, Hart.goto]
    · rw [set_self]
      cases hk : (m.harts h).cpu.context with
      | none => simp [Quiet, Hart.resume, Hart.goto]
      | some k =>
        obtain ⟨-, i, hi⟩ := hm.scheds h k hk
        simp only [Hart.resume, hi]
        exact quiet_back i
  · rw [set_self]
    exact hnext

omit [DecidableEq L] in
theorem enterSched_context (m : Machine H C L) (h : H) (next : Pc C L) (q : Fin 64) :
    ((m.enterSched h next).procs q).context = (m.procs q).context ∨
      (m.harts h).cpu.lockLayer = 1 ∧ (m.harts h).cpu.curProc = some q ∧
        ((m.enterSched h next).procs q).context = some ⟨(m.harts h).thread, next⟩ := by
  simp only [Machine.enterSched]
  split
  case isTrue hlayer =>
    split
    · exact .inl rfl
    case h_2 r hr =>
      rw [set_procs, Machine.setContext]
      by_cases hq : q = r
      · subst hq
        rw [setProc_self]
        exact .inr ⟨hlayer, hr, rfl⟩
      · rw [setProc_of_ne m _ hq]
        exact .inl rfl
  case isFalse => exact .inl rfl

variable [DecidableEq C] {a : Act H C L}

theorem runHart_pc (hm : Points m) (hs : runHart m h = some n) :
    Quiet (n.harts h).pc ∨ ∃ i, (n.harts h).pc = .dispatch i ∧ (m.harts h).pc = .check i ∧
      (m.procs i).state = .runnable := by
  cases runHart_moves hs with
  | spinBusy lock next hpc hword =>
    rw [set_self]
    exact .inl ⟨fun lock' next' he => hm.spins h lock' next' he, by simp [hpc]⟩
  | spinTake lock next hpc hword =>
    have hentry := hm.spins h lock next hpc
    rw [set_self]
    cases next with
    | check i | giveUp p | sleep p channel lock | idle => exact .inl (by simp [Quiet, Hart.goto])
    | _ => cases hentry
  | checkTake i hpc hstate =>
    rw [set_self]
    exact .inr ⟨i, rfl, hpc, hstate⟩
  | dispatch i hpc =>
    rw [set_self]
    refine .inl ?_
    cases hk : (m.procs i).context with
    | none => simp [Quiet, Hart.resume, Hart.goto]
    | some k =>
      obtain ⟨r, hr⟩ := hm.procs i k hk
      exact quiet_of_resumes hr
  | yield q hpc | asleep q lock hpc => exact .inl (enterSched_pc hm (by simp [Quiet]))
  | scan i hpc | retake q lock hpc =>
    rw [set_self]
    exact .inl (by simp [Quiet, Hart.ask, Hart.goto, Entry])
  | _ =>
    simp only [Machine.release, Machine.copyProc, set_self]
    exact .inl (by simp [Quiet, Hart.goto])

omit [DecidableEq C] in
theorem call_pc (hs : Calls m a n) : Quiet (n.harts a.hart).pc := by
  cases hs
  all_goals
    simp only [Machine.release, Act.hart, set_self]
    simp [Quiet, Hart.ask, Hart.goto, Entry]

theorem step_dispatch (hm : Points m) (hs : step m a = some n) {g : H} {i : Fin 64}
    (hn : (n.harts g).pc = .dispatch i) :
    (m.harts g).pc = .dispatch i ∨ (m.harts g).pc = .check i ∧ (m.procs i).state = .runnable := by
  by_cases hg : g = a.hart
  · subst hg
    obtain ⟨h, rfl, -⟩ | hcall := step_moves hs
    · obtain hquiet | ⟨j, hj, hcheck, hstate⟩ := runHart_pc hm hs
      · exact absurd hn (hquiet.2 i)
      · obtain rfl : j = i := Pc.dispatch.inj (hj.symm.trans hn)
        exact .inr ⟨hcheck, hstate⟩
    · exact absurd hn ((call_pc hcall).2 i)
  · rw [step_other hs hg] at hn
    exact .inl hn

theorem runHart_context (hs : runHart m h = some n) (q : Fin 64) :
    (n.procs q).context = (m.procs q).context ∨
      ∃ next, Leaves (m.harts h) q next ∧
        (n.procs q).context = some ⟨(m.harts h).thread, next⟩ := by
  cases runHart_moves hs with
  | yield r hpc =>
    obtain hsame | ⟨hlayer, hcur, hnew⟩ := enterSched_context m h (.yielded r) q
    · exact .inl hsame
    · exact .inr ⟨_, ⟨hlayer, hcur, .inl ⟨r, hpc, rfl⟩⟩, hnew⟩
  | asleep r lock hpc =>
    obtain hsame | ⟨hlayer, hcur, hnew⟩ := enterSched_context m h (.awake r lock) q
    · exact .inl hsame
    · exact .inr ⟨_, ⟨hlayer, hcur, .inr ⟨r, lock, hpc, rfl⟩⟩, hnew⟩
  | checkTake i hpc hstate | giveUp i hpc | sleep i channel lock hpc | channel i channel lock hpc
  | awake i lock hpc =>
    simp only [set_procs, Machine.setState, Machine.setChannel]
    by_cases hq : q = i
    · subst hq
      rw [setProc_self]
      exact .inl rfl
    · rw [setProc_of_ne m _ hq]
      exact .inl rfl
  | spinBusy lock next hpc hword | spinTake lock next hpc hword | unlock i hpc | start i hpc
  | yielded i hpc | drop i lock hpc | retake i lock hpc =>
    simp only [Machine.release, set_procs]
    exact .inl (setWord_procs m _ _ q).2.1
  | _ => exact .inl rfl

theorem step_context (hs : step m a = some n) (q : Fin 64) :
    (n.procs q).context = (m.procs q).context ∨
      ∃ next, a = .run a.hart ∧ Leaves (m.harts a.hart) q next ∧
        (n.procs q).context = some ⟨(m.harts a.hart).thread, next⟩ := by
  obtain ⟨ha, hrun⟩ | ⟨-, -, -, -, hprocs⟩ := call_cases hs
  · obtain hsame | ⟨next, hleaves, hnew⟩ := runHart_context hrun q
    · exact .inl hsame
    · exact .inr ⟨next, ha, hleaves, hnew⟩
  · rw [hprocs]
    exact .inl rfl

omit [DecidableEq H] [DecidableEq L] [DecidableEq C] in
theorem Leaves.resumes {x : Hart C L} {q : Fin 64} {next : Pc C L} (h : Leaves x q next) :
    ∃ r, Resumes r next := by
  obtain ⟨-, -, ⟨r, -, rfl⟩ | ⟨r, lock, -, rfl⟩⟩ := h
  · exact ⟨r, .inr (.inl rfl)⟩
  · exact ⟨r, .inr (.inr ⟨lock, rfl⟩)⟩

theorem Points.step (hm : Points m) (hs : step m a = some n) : Points n := by
  refine ⟨fun g lock next hg => ?_, fun g k hk => ?_, fun q k hk => ?_⟩
  · by_cases hga : g = a.hart
    · subst hga
      obtain ⟨h, rfl, -⟩ | hcall := step_moves hs
      · obtain hquiet | ⟨j, hj, -⟩ := runHart_pc hm hs
        · exact hquiet.1 lock next hg
        · cases hj.symm.trans hg
      · exact (call_pc hcall).1 lock next hg
    · rw [step_other hs hga] at hg
      exact hm.spins g lock next hg
  · rw [(step_sameCpu hs g).2] at hk
    exact hm.scheds g k hk
  · obtain hsame | ⟨next, -, hleaves, hnew⟩ := step_context hs q
    · rw [hsame] at hk
      exact hm.procs q k hk
    · obtain rfl := Option.some.inj (hnew.symm.trans hk)
      exact hleaves.resumes

end Raynix.Suspension
