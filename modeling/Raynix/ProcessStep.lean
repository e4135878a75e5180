import Mathlib.Tactic.Common
import Raynix.Process

namespace Raynix.ProcessStep

open Raynix.Process

variable {H C L : Type} [DecidableEq H] [DecidableEq L]

omit [DecidableEq L] in
theorem enterSched_other (m : Machine H C L) {h g : H} (next : Pc C L) (hg : g ≠ h) :
    (m.enterSched h next).harts g = m.harts g := by
  simp only [Machine.enterSched]
  split
  · split
    · exact set_of_ne _ _ hg
    · exact set_of_ne _ _ hg
  · exact set_of_ne _ _ hg

omit [DecidableEq L] in
theorem enterSched_procs (m : Machine H C L) (h : H) (next : Pc C L) (p : Fin 64) :
    ((m.enterSched h next).procs p).state = (m.procs p).state ∧
      ((m.enterSched h next).procs p).channel = (m.procs p).channel := by
  simp only [Machine.enterSched]
  split
  · split
    · exact ⟨rfl, rfl⟩
    case h_2 q _ =>
      rw [set_procs, Machine.setContext]
      by_cases hp : p = q
      · rw [hp, setProc_self]
        exact ⟨rfl, rfl⟩
      · rw [setProc_of_ne m _ hp]
        exact ⟨rfl, rfl⟩
  · exact ⟨rfl, rfl⟩

/-- No step of a hart writes its entry of `cpus` but for the counters. -/
def SameCpu (x y : Hart C L) : Prop :=
  y.cpu.curProc = x.cpu.curProc ∧ y.cpu.context = x.cpu.context

omit [DecidableEq H] [DecidableEq L] in
theorem resume_sameCpu (x : Hart C L) (k : Option (Process.Cont C L)) : SameCpu x (x.resume k) := by
  cases k <;> exact ⟨rfl, rfl⟩

omit [DecidableEq L] in
theorem enterSched_sameCpu (m : Machine H C L) (h : H) (next : Pc C L) :
    SameCpu (m.harts h) ((m.enterSched h next).harts h) := by
  simp only [Machine.enterSched]
  split
  · split
    · rw [set_self]
      exact ⟨rfl, rfl⟩
    · rw [set_self]
      exact resume_sameCpu (m.harts h).readCurProc _
  · rw [set_self]
    exact ⟨rfl, rfl⟩

/-- Everything that one step of hart `h` can do. -/
inductive Moves (m : Machine H C L) (h : H) : Machine H C L → Prop
  | spinBusy (lock : Lock L) (next : Pc C L) (hpc : (m.harts h).pc = .spin lock next)
      (hword : m.word lock = 0) : Moves m h ((m.setWord lock 0).set h (m.harts h))
  | spinTake (lock : Lock L) (next : Pc C L) (hpc : (m.harts h).pc = .spin lock next)
      (hword : m.word lock ≠ 0) : Moves m h ((m.setWord lock 0).set h
        { (m.harts h).goto next with held := lock :: (m.harts h).held })
  | enter (hpc : (m.harts h).pc = .enter) : Moves m h (m.set h
      { (m.harts h).goto (.scan 0) with c := { (m.harts h).cpu with curProc := none } })
  | scan (i : Fin 64) (hpc : (m.harts h).pc = .scan i) :
      Moves m h (m.set h ((m.harts h).ask (.proc i) (.check i)))
  | checkTake (i : Fin 64) (hpc : (m.harts h).pc = .check i)
      (hstate : (m.procs i).state = .runnable) : Moves m h ((m.setState i .running).set h
        { (m.harts h).goto (.dispatch i) with c := { (m.harts h).c with curProc := some i } })
  | checkSkip (i : Fin 64) (hpc : (m.harts h).pc = .check i)
      (hstate : (m.procs i).state ≠ .runnable) : Moves m h (m.set h ((m.harts h).goto (.unlock i)))
  | dispatch (i : Fin 64) (hpc : (m.harts h).pc = .dispatch i) : Moves m h (m.set h
      ({ m.harts h with
        c := { (m.harts h).c with context := some ⟨(m.harts h).thread, .back i⟩ } }.resume
          (m.procs i).context))
  | back (i : Fin 64) (hpc : (m.harts h).pc = .back i) : Moves m h (m.set h
      { (m.harts h).goto (.unlock i) with c := { (m.harts h).c with curProc := none } })
  | unlock (i : Fin 64) (hpc : (m.harts h).pc = .unlock i) :
      Moves m h (m.release h (.proc i) (.scan (i + 1)))
  | start (p : Fin 64) (hpc : (m.harts h).pc = .start p) : Moves m h (m.release h (.proc p) .idle)
  | giveUp (p : Fin 64) (hpc : (m.harts h).pc = .giveUp p) :
      Moves m h ((m.setState p .runnable).set h ((m.harts h).goto (.yield p)))
  | yield (p : Fin 64) (hpc : (m.harts h).pc = .yield p) : Moves m h (m.enterSched h (.yielded p))
  | yielded (p : Fin 64) (hpc : (m.harts h).pc = .yielded p) :
      Moves m h (m.release h (.proc p) .idle)
  | sleep (p : Fin 64) (channel : C) (lock : L) (hpc : (m.harts h).pc = .sleep p channel lock) :
      Moves m h ((m.setState p .sleeping).set h ((m.harts h).goto (.channel p channel lock)))
  | channel (p : Fin 64) (channel : C) (lock : L)
      (hpc : (m.harts h).pc = .channel p channel lock) :
      Moves m h ((m.setChannel p (some channel)).set h ((m.harts h).goto (.drop p lock)))
  | drop (p : Fin 64) (lock : L) (hpc : (m.harts h).pc = .drop p lock) :
      Moves m h (m.release h (.user lock) (.asleep p lock))
  | asleep (p : Fin 64) (lock : L) (hpc : (m.harts h).pc = .asleep p lock) :
      Moves m h (m.enterSched h (.awake p lock))
  | awake (p : Fin 64) (lock : L) (hpc : (m.harts h).pc = .awake p lock) :
      Moves m h ((m.setChannel p none).set h ((m.harts h).goto (.retake p lock)))
  | retake (p : Fin 64) (lock : L) (hpc : (m.harts h).pc = .retake p lock) :
      Moves m h ((m.release h (.proc p) .idle).set h
        (((m.release h (.proc p) .idle).harts h).ask (.user lock) .idle))
  | wakeDone (channel : C) (hpc : (m.harts h).pc = .wake channel []) :
      Moves m h (m.set h ((m.harts h).goto .idle))
  | wakeCopy (channel : C) (i : Fin 64) (rest : List (Fin 64))
      (hpc : (m.harts h).pc = .wake channel (i :: rest)) :
      Moves m h (m.copyProc h channel i rest)
  | wakeSpin (channel : C) (rest : List (Fin 64)) (cursor : Cursor C)
      (hpc : (m.harts h).pc = .wakeSpin channel rest cursor) (hlock : cursor.lock = 0) :
      Moves m h (m.set h ((m.harts h).goto (.wakeSpin channel rest cursor)))
  | wakeTake (channel : C) (rest : List (Fin 64)) (cursor : Cursor C)
      (hpc : (m.harts h).pc = .wakeSpin channel rest cursor) (hlock : cursor.lock ≠ 0) :
      Moves m h (m.set h ((m.harts h).goto (.wakeTest channel rest { cursor with lock := 0 })))
  | wakeTest (channel : C) (rest : List (Fin 64)) (cursor copy : Cursor C)
      (hpc : (m.harts h).pc = .wakeTest channel rest cursor) :
      Moves m h (m.set h ((m.harts h).goto (.wakeFree channel rest copy)))
  | wakeFree (channel : C) (rest : List (Fin 64)) (cursor : Cursor C)
      (hpc : (m.harts h).pc = .wakeFree channel rest cursor) :
      Moves m h (m.set h ((m.harts h).pop.goto (.wake channel rest)))

/-- Everything that a call can do, made at `idle`. -/
inductive Calls (m : Machine H C L) : Act H C L → Machine H C L → Prop
  | acquire (h : H) (lock : L) (hpc : (m.harts h).pc = .idle) :
      Calls m (.acquire h lock) (m.set h ((m.harts h).ask (.user lock) .idle))
  | release (h : H) (lock : L) (hpc : (m.harts h).pc = .idle) :
      Calls m (.release h lock) (m.release h (.user lock) .idle)
  | giveUpNull (h : H) (hpc : (m.harts h).pc = .idle) (hcur : (m.harts h).cpu.curProc = none) :
      Calls m (.giveUp h) (m.set h ((m.harts h).readCurProc.goto .fault))
  | giveUp (h : H) (p : Fin 64) (hpc : (m.harts h).pc = .idle)
      (hcur : (m.harts h).cpu.curProc = some p) :
      Calls m (.giveUp h) (m.set h ((m.harts h).readCurProc.ask (.proc p) (.giveUp p)))
  | sleepNull (h : H) (channel : C) (lock : L) (hpc : (m.harts h).pc = .idle)
      (hcur : (m.harts h).cpu.curProc = none) :
      Calls m (.sleep h channel lock) (m.set h ((m.harts h).readCurProc.goto .fault))
  | sleep (h : H) (channel : C) (lock : L) (p : Fin 64) (hpc : (m.harts h).pc = .idle)
      (hcur : (m.harts h).cpu.curProc = some p) :
      Calls m (.sleep h channel lock)
        (m.set h ((m.harts h).readCurProc.ask (.proc p) (.sleep p channel lock)))
  | wakeup (h : H) (channel : C) (hpc : (m.harts h).pc = .idle) :
      Calls m (.wakeup h channel)
        (m.set h ((m.harts h).goto (.wake channel (List.finRange 64))))

variable [DecidableEq C] {m n : Machine H C L} {h g : H} {p : Fin 64} {a : Act H C L}

theorem runHart_moves (hs : runHart m h = some n) : Moves m h n := by
  cases hpc : (m.harts h).pc with
  | spin lock next =>
    simp only [runHart, hpc, Option.some.injEq] at hs
    subst hs
    by_cases hword : m.word lock = 0
    · rw [if_pos hword]
      exact .spinBusy lock next hpc hword
    · rw [if_neg hword]
      exact .spinTake lock next hpc hword
  | check i =>
    simp only [runHart, hpc, Option.some.injEq] at hs
    subst hs
    by_cases hstate : (m.procs i).state = .runnable
    · rw [if_pos hstate]
      exact .checkTake i hpc hstate
    · rw [if_neg hstate]
      exact .checkSkip i hpc hstate
  | wake channel rest =>
    cases rest with
    | nil =>
      simp only [runHart, hpc, Option.some.injEq] at hs
      exact hs ▸ .wakeDone channel hpc
    | cons i rest =>
      simp only [runHart, hpc, Option.some.injEq] at hs
      exact hs ▸ .wakeCopy channel i rest hpc
  | wakeSpin channel rest cursor =>
    simp only [runHart, hpc, Option.some.injEq] at hs
    subst hs
    by_cases hlock : cursor.lock = 0
    · rw [if_pos hlock]
      exact .wakeSpin channel rest cursor hpc hlock
    · rw [if_neg hlock]
      exact .wakeTake channel rest cursor hpc hlock
  | enter =>
    simp only [runHart, hpc, Option.some.injEq] at hs
    exact hs ▸ .enter hpc
  | scan i =>
    simp only [runHart, hpc, Option.some.injEq] at hs
    exact hs ▸ .scan i hpc
  | dispatch i =>
    simp only [runHart, hpc, Option.some.injEq] at hs
    exact hs ▸ .dispatch i hpc
  | back i =>
    simp only [runHart, hpc, Option.some.injEq] at hs
    exact hs ▸ .back i hpc
  | unlock i =>
    simp only [runHart, hpc, Option.some.injEq] at hs
    exact hs ▸ .unlock i hpc
  | start p =>
    simp only [runHart, hpc, Option.some.injEq] at hs
    exact hs ▸ .start p hpc
  | giveUp p =>
    simp only [runHart, hpc, Option.some.injEq] at hs
    exact hs ▸ .giveUp p hpc
  | yield p =>
    simp only [runHart, hpc, Option.some.injEq] at hs
    exact hs ▸ .yield p hpc
  | yielded p =>
    simp only [runHart, hpc, Option.some.injEq] at hs
    exact hs ▸ .yielded p hpc
  | sleep p channel lock =>
    simp only [runHart, hpc, Option.some.injEq] at hs
    exact hs ▸ .sleep p channel lock hpc
  | channel p channel lock =>
    simp only [runHart, hpc, Option.some.injEq] at hs
    exact hs ▸ .channel p channel lock hpc
  | drop p lock =>
    simp only [runHart, hpc, Option.some.injEq] at hs
    exact hs ▸ .drop p lock hpc
  | asleep p lock =>
    simp only [runHart, hpc, Option.some.injEq] at hs
    exact hs ▸ .asleep p lock hpc
  | awake p lock =>
    simp only [runHart, hpc, Option.some.injEq] at hs
    exact hs ▸ .awake p lock hpc
  | retake p lock =>
    simp only [runHart, hpc, Option.some.injEq] at hs
    exact hs ▸ .retake p lock hpc
  | wakeTest channel rest cursor =>
    simp only [runHart, hpc, Option.some.injEq] at hs
    exact hs ▸ .wakeTest channel rest cursor _ hpc
  | wakeFree channel rest cursor =>
    simp only [runHart, hpc, Option.some.injEq] at hs
    exact hs ▸ .wakeFree channel rest cursor hpc
  | idle | fault =>
    simp only [runHart, hpc] at hs
    cases hs

theorem step_moves (hs : step m a = some n) : (∃ h, a = .run h ∧ Moves m h n) ∨ Calls m a n := by
  cases a with
  | run h => exact .inl ⟨h, rfl, runHart_moves hs⟩
  | acquire h lock =>
    simp only [step] at hs
    split at hs
    case h_1 hpc => exact Option.some.inj hs ▸ .inr (.acquire h lock hpc)
    case h_2 => cases hs
  | release h lock =>
    simp only [step] at hs
    split at hs
    case h_1 hpc => exact Option.some.inj hs ▸ .inr (.release h lock hpc)
    case h_2 => cases hs
  | wakeup h channel =>
    simp only [step] at hs
    split at hs
    case h_1 hpc => exact Option.some.inj hs ▸ .inr (.wakeup h channel hpc)
    case h_2 => cases hs
  | giveUp h =>
    simp only [step] at hs
    split at hs
    case h_1 hpc =>
      obtain rfl := Option.some.inj hs
      split
      case h_1 hcur => exact .inr (.giveUpNull h hpc hcur)
      case h_2 p hcur => exact .inr (.giveUp h p hpc hcur)
    case h_2 => cases hs
  | sleep h channel lock =>
    simp only [step] at hs
    split at hs
    case h_1 hpc =>
      obtain rfl := Option.some.inj hs
      split
      case h_1 hcur => exact .inr (.sleepNull h channel lock hpc hcur)
      case h_2 p hcur => exact .inr (.sleep h channel lock p hpc hcur)
    case h_2 => cases hs

theorem runHart_other (hs : runHart m h = some n) (hg : g ≠ h) : n.harts g = m.harts g := by
  cases runHart_moves hs with
  | yield p hpc | asleep p lock hpc => exact enterSched_other m _ hg
  | _ =>
    simp [Machine.release, Machine.copyProc, set_of_ne, hg, Machine.setState, Machine.setChannel,
      Machine.setProc]

theorem runHart_sameCpu (hs : runHart m h = some n) : SameCpu (m.harts h) (n.harts h) := by
  cases runHart_moves hs with
  | yield p hpc | asleep p lock hpc => exact enterSched_sameCpu m h _
  | dispatch i hpc =>
    rw [set_self]
    exact resume_sameCpu _ _
  | _ =>
    simp only [Machine.release, Machine.copyProc, set_self]
    exact ⟨rfl, rfl⟩

/-- The hart is about to write the state of `p`. -/
def WritesState (m : Machine H C L) (h : H) (p : Fin 64) : Prop :=
  ((m.harts h).pc = .check p ∧ (m.procs p).state = .runnable) ∨ (m.harts h).pc = .giveUp p ∨
    ∃ channel lock, (m.harts h).pc = .sleep p channel lock

/-- The points of the code at which the channel of `p` is written. -/
def WritesChannel (pc : Pc C L) (p : Fin 64) : Prop :=
  (∃ channel lock, pc = .channel p channel lock) ∨ ∃ lock, pc = .awake p lock

theorem runHart_procs (hs : runHart m h = some n) (p : Fin 64) :
    ((n.procs p).state = (m.procs p).state ∨ WritesState m h p) ∧
      ((n.procs p).channel = (m.procs p).channel ∨ WritesChannel (m.harts h).pc p) := by
  cases runHart_moves hs with
  | yield q hpc | asleep q lock hpc =>
    exact ⟨.inl (enterSched_procs m h _ p).1, .inl (enterSched_procs m h _ p).2⟩
  | spinBusy lock next hpc hword | spinTake lock next hpc hword | unlock i hpc | start i hpc
  | yielded i hpc | drop q lock hpc | retake q lock hpc =>
    simp only [Machine.release, set_procs]
    exact ⟨.inl (setWord_procs m _ _ p).1, .inl (setWord_procs m _ _ p).2.2⟩
  | checkTake q hpc hstate =>
    by_cases hp : p = q
    · subst hp
      refine ⟨.inr (.inl ⟨hpc, hstate⟩), .inl ?_⟩
      rw [set_procs, Machine.setState, setProc_self]
    · rw [set_procs, Machine.setState, setProc_of_ne m _ hp]
      exact ⟨.inl rfl, .inl rfl⟩
  | giveUp q hpc | sleep q channel lock hpc =>
    by_cases hp : p = q
    · subst hp
      refine ⟨.inr (by simp [WritesState, hpc]), .inl ?_⟩
      rw [set_procs, Machine.setState, setProc_self]
    · rw [set_procs, Machine.setState, setProc_of_ne m _ hp]
      exact ⟨.inl rfl, .inl rfl⟩
  | channel q channel lock hpc | awake q lock hpc =>
    by_cases hp : p = q
    · subst hp
      refine ⟨.inl ?_, .inr (by simp [WritesChannel, hpc])⟩
      rw [set_procs, Machine.setChannel, setProc_self]
    · rw [set_procs, Machine.setChannel, setProc_of_ne m _ hp]
      exact ⟨.inl rfl, .inl rfl⟩
  | _ => exact ⟨.inl rfl, .inl rfl⟩

/-- A hart changes what it executes in the scheduler's switch and in `enter_sched` only. -/
theorem runHart_thread (hs : runHart m h = some n) :
    (n.harts h).thread = (m.harts h).thread ∨ (∃ i, (m.harts h).pc = .dispatch i) ∨
      (∃ q, (m.harts h).pc = .yield q) ∨ ∃ q lock, (m.harts h).pc = .asleep q lock := by
  cases runHart_moves hs with
  | dispatch i hpc => exact .inr (.inl ⟨i, hpc⟩)
  | yield q hpc => exact .inr (.inr (.inl ⟨q, hpc⟩))
  | asleep q lock hpc => exact .inr (.inr (.inr ⟨q, lock, hpc⟩))
  | spinBusy lock next hpc hword =>
    rw [set_self]
    exact .inl rfl
  | _ =>
    simp only [Machine.release, Machine.copyProc, set_self]
    exact .inl rfl

omit [DecidableEq C] in
theorem call_thread (hs : Calls m a n) : (n.harts a.hart).thread = (m.harts a.hart).thread := by
  cases hs
  all_goals
    simp only [Machine.release, Act.hart, set_self]
    rfl

theorem call_cases (hs : step m a = some n) :
    a = .run a.hart ∧ runHart m a.hart = some n ∨
      (m.harts a.hart).pc = .idle ∧ (∀ g, g ≠ a.hart → n.harts g = m.harts g) ∧
        (n.harts a.hart).thread = (m.harts a.hart).thread ∧
        SameCpu (m.harts a.hart) (n.harts a.hart) ∧ n.procs = m.procs := by
  obtain ⟨h, rfl, -⟩ | hcall := step_moves hs
  · exact .inl ⟨rfl, hs⟩
  · have hthread := call_thread hcall
    cases hcall
    all_goals
      refine .inr ⟨‹_›, fun g hg => set_of_ne _ _ hg, hthread, ?_, rfl⟩
      simp only [Machine.release, Act.hart, set_self]
      exact ⟨rfl, rfl⟩

theorem step_other (hs : step m a = some n) (hg : g ≠ a.hart) : n.harts g = m.harts g := by
  obtain ⟨-, hrun⟩ | ⟨-, hother, -⟩ := call_cases hs
  · exact runHart_other hrun hg
  · exact hother g hg

theorem step_sameCpu (hs : step m a = some n) (g : H) : SameCpu (m.harts g) (n.harts g) := by
  by_cases hg : g = a.hart
  · subst hg
    obtain ⟨-, hrun⟩ | ⟨-, -, -, hcpu, -⟩ := call_cases hs
    · exact runHart_sameCpu hrun
    · exact hcpu
  · rw [step_other hs hg]
    exact ⟨rfl, rfl⟩

theorem step_procs (hs : step m a = some n) (p : Fin 64) :
    ((n.procs p).state = (m.procs p).state ∨ WritesState m a.hart p) ∧
      ((n.procs p).channel = (m.procs p).channel ∨ WritesChannel (m.harts a.hart).pc p) := by
  obtain ⟨-, hrun⟩ | ⟨-, -, -, -, hprocs⟩ := call_cases hs
  · exact runHart_procs hrun p
  · rw [hprocs]
    exact ⟨.inl rfl, .inl rfl⟩

end Raynix.ProcessStep
