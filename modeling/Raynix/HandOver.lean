import Raynix.ProcessStep

namespace Raynix.HandOver

open Raynix.Lib.Transition Raynix.Process Raynix.ProcessStep

variable {H C L : Type}

/-- `cur_proc()` returns `p`, and `enter_sched` gets back to the scheduler that dispatched it. -/
def Bound (cpu : Cpu C L) (p : Fin 64) : Prop :=
  cpu.curProc = some p ∧ cpu.context = some ⟨none, .back p⟩

/-- Where a call of `acquire` goes on. -/
def Entry : Pc C L → Prop
  | .check _ | .giveUp _ | .sleep _ _ _ | .idle => True
  | _ => False

/-- Who executes at a point of the code, and with which locks. -/
def Fits (thread : Option (Fin 64)) (cpu : Cpu C L) : Pc C L → List (Lock L) → Prop
  | .spin lock next, held => Entry next ∧ Fits thread cpu next (lock :: held)
  | .enter, held | .scan _, held => thread = none ∧ held = []
  | .check i, held | .dispatch i, held | .back i, held | .unlock i, held =>
    thread = none ∧ held = [.proc i]
  | .start p, held | .yielded p, held | .awake p _, held | .retake p _, held =>
    thread = some p ∧ held = [.proc p]
  | .giveUp p, held | .yield p, held | .asleep p _, held =>
    thread = some p ∧ held = [.proc p] ∧ Bound cpu p
  | .sleep p _ lock, held | .channel p _ lock, held | .drop p lock, held =>
    thread = some p ∧ held = [.proc p, .user lock] ∧ Bound cpu p
  | .idle, held | .wake _ _, held | .wakeSpin _ _ _, held | .wakeTest _ _ _, held
  | .wakeFree _ _ _, held => (∃ p, thread = some p) ∧ ∀ l ∈ held, ∃ u, l = .user u
  | .fault, _ => True

/-- The pushes of a hart beyond one for each lock in `held`. -/
def extra : Pc C L → Nat
  | .spin _ _ | .wakeSpin _ _ _ | .wakeTest _ _ _ | .wakeFree _ _ _ => 1
  | _ => 0

structure HartOk (x : Hart C L) : Prop where
  fits : Fits x.thread x.cpu x.pc x.held
  layer : x.pc ≠ .fault → x.cpu.lockLayer = BitVec.ofNat 32 (x.held.length + extra x.pc)

/-- The locks in `held` are taken, and no two harts have one in common. -/
structure Locks (m : Machine H C L) : Prop where
  exclusive : ∀ h g l, l ∈ (m.harts h).held → l ∈ (m.harts g).held → h = g
  nodup : ∀ h, (m.harts h).held.Nodup
  word : ∀ h l, l ∈ (m.harts h).held → m.word l = 0

/-- Where a suspended process goes on. -/
def Resumes (p : Fin 64) (pc : Pc C L) : Prop :=
  pc = .start p ∨ pc = .yielded p ∨ ∃ lock, pc = .awake p lock

/-- No hart executes the process, and its context holds its own continuation. -/
structure Parked (m : Machine H C L) (p : Fin 64) : Prop where
  absent : ∀ h, (m.harts h).thread ≠ some p
  context : ∃ pc, (m.procs p).context = some ⟨some p, pc⟩ ∧ Resumes p pc

structure Threads (m : Machine H C L) : Prop where
  unique : ∀ h g p, (m.harts h).thread = some p → (m.harts g).thread = some p → h = g
  ready : ∀ p, (m.procs p).state = .runnable → Parked m p ∨ ∃ h, (m.harts h).pc = .yield p
  loaded : ∀ h p, (m.harts h).pc = .dispatch p → (m.procs p).state = .running ∧ Parked m p

structure Good (m : Machine H C L) : Prop where
  harts : ∀ h, HartOk (m.harts h)
  locks : Locks m
  threads : Threads m

@[simp]
theorem push_lockLayer (x : Hart C L) : x.push.cpu.lockLayer = x.cpu.lockLayer + 1 := rfl

@[simp]
theorem pop_lockLayer (x : Hart C L) : x.pop.cpu.lockLayer = x.cpu.lockLayer - 1 := by
  change (Spinlock.popInterOff _).lockLayer = _
  rw [Spinlock.popInterOff]
  split
  · rfl
  · rfl

@[simp]
theorem readCurProc_lockLayer (x : Hart C L) : x.readCurProc.cpu.lockLayer = x.cpu.lockLayer := by
  rw [Hart.readCurProc, pop_lockLayer, push_lockLayer]
  exact BitVec.add_sub_cancel _ _

theorem ofNat_succ (n : Nat) : BitVec.ofNat 32 n + 1 = BitVec.ofNat 32 (n + 1) :=
  (BitVec.ofNat_add n 1).symm

theorem ofNat_pred {n : Nat} (h : 0 < n) : BitVec.ofNat 32 n - 1 = BitVec.ofNat 32 (n - 1) := by
  obtain ⟨k, rfl⟩ := Nat.exists_eq_succ_of_ne_zero (Nat.pos_iff_ne_zero.mp h)
  rw [Nat.succ_eq_add_one, ← ofNat_succ, Nat.add_sub_cancel]
  exact BitVec.add_sub_cancel _ _

section Locks

variable {m : Machine H C L}

theorem Locks.keep {n : Machine H C L} (hm : Locks m)
    (hheld : ∀ g, (n.harts g).held = (m.harts g).held) (hword : ∀ l, n.word l = m.word l) :
    Locks n := by
  refine ⟨fun g k l hg hk => ?_, fun g => ?_, fun g l hg => ?_⟩
  · rw [hheld] at hg hk
    exact hm.exclusive g k l hg hk
  · rw [hheld]
    exact hm.nodup g
  · rw [hheld] at hg
    rw [hword]
    exact hm.word g l hg

variable [DecidableEq H] [DecidableEq L] {h : H} {x : Hart C L}

theorem Locks.take (hm : Locks m) {l : Lock L} (hfree : m.word l ≠ 0)
    (hx : x.held = l :: (m.harts h).held) : Locks ((m.setWord l 0).set h x) := by
  have hnone : ∀ g, l ∉ (m.harts g).held := fun g hg => hfree (hm.word g l hg)
  have hmem : ∀ g k, k ∈ (((m.setWord l 0).set h x).harts g).held →
      (k = l ∧ g = h) ∨ k ∈ (m.harts g).held := by
    intro g k hk
    by_cases hg : g = h
    · subst hg
      rw [set_self, hx] at hk
      exact (List.mem_cons.mp hk).imp_left (fun he => ⟨he, rfl⟩)
    · rw [set_of_ne _ _ hg, setWord_harts] at hk
      exact .inr hk
  refine ⟨fun g k i hg hk => ?_, fun g => ?_, fun g k hk => ?_⟩
  · obtain ⟨hi, hgh⟩ | hg' := hmem g i hg
    · obtain ⟨-, hkh⟩ | hk' := hmem k i hk
      · exact hgh.trans hkh.symm
      · exact absurd (hi ▸ hk') (hnone k)
    · obtain ⟨hi, -⟩ | hk' := hmem k i hk
      · exact absurd (hi ▸ hg') (hnone g)
      · exact hm.exclusive g k i hg' hk'
  · by_cases hg : g = h
    · subst hg
      rw [set_self, hx]
      exact List.nodup_cons.mpr ⟨hnone g, hm.nodup g⟩
    · rw [set_of_ne _ _ hg, setWord_harts]
      exact hm.nodup g
  · rw [set_word, setWord_word]
    obtain ⟨hkl, -⟩ | hk' := hmem g k hk
    · exact if_pos hkl
    · have hne : k ≠ l := fun he => hnone g (he ▸ hk')
      rw [if_neg hne]
      exact hm.word g k hk'

theorem Locks.give (hm : Locks m) {l : Lock L} (hl : l ∈ (m.harts h).held)
    (hx : x.held = (m.harts h).held.erase l) : Locks ((m.setWord l 1).set h x) := by
  have hmem : ∀ g k, k ∈ (((m.setWord l 1).set h x).harts g).held →
      k ≠ l ∧ k ∈ (m.harts g).held := by
    intro g k hk
    by_cases hg : g = h
    · subst hg
      rw [set_self, hx] at hk
      exact ((hm.nodup g).mem_erase_iff).mp hk
    · rw [set_of_ne _ _ hg, setWord_harts] at hk
      exact ⟨fun he => hg (hm.exclusive g h k hk (he ▸ hl)), hk⟩
  refine ⟨fun g k i hg hk => ?_, fun g => ?_, fun g k hk => ?_⟩
  · exact hm.exclusive g k i (hmem g i hg).2 (hmem k i hk).2
  · by_cases hg : g = h
    · subst hg
      rw [set_self, hx]
      exact (hm.nodup g).erase l
    · rw [set_of_ne _ _ hg, setWord_harts]
      exact hm.nodup g
  · rw [set_word, setWord_word, if_neg (hmem g k hk).1]
    exact hm.word g k (hmem g k hk).2

end Locks

section Threads

variable {m n : Machine H C L} {h : H}

theorem Parked.congr {p : Fin 64} (hm : Parked m p)
    (hthread : ∀ g, (n.harts g).thread = some p → (m.harts g).thread = some p)
    (hcontext : (n.procs p).context = (m.procs p).context) : Parked n p := by
  refine ⟨fun g hg => hm.absent g (hthread g hg), ?_⟩
  rw [hcontext]
  exact hm.context

theorem Threads.quiet (hm : Threads m) (hthread : ∀ g, (n.harts g).thread = (m.harts g).thread)
    (hpc : ∀ g, g ≠ h → (n.harts g).pc = (m.harts g).pc)
    (hold : ∀ p, (m.harts h).pc ≠ .yield p) (hnew : ∀ p, (n.harts h).pc ≠ .dispatch p)
    (hstate : ∀ p, (n.procs p).state = (m.procs p).state)
    (hcontext : ∀ p, (n.procs p).context = (m.procs p).context) : Threads n := by
  have hparked : ∀ p, Parked m p → Parked n p :=
    fun p hp => hp.congr (fun g hg => (hthread g).symm.trans hg) (hcontext p)
  refine ⟨fun g k p hg hk => ?_, fun p hp => ?_, fun g p hg => ?_⟩
  · rw [hthread] at hg hk
    exact hm.unique g k p hg hk
  · rw [hstate] at hp
    obtain hp | ⟨g, hg⟩ := hm.ready p hp
    · exact .inl (hparked p hp)
    · refine .inr ⟨g, ?_⟩
      rw [hpc g (fun he => hold p (he ▸ hg))]
      exact hg
  · have hne : g ≠ h := fun he => hnew p (he ▸ hg)
    rw [hpc g hne] at hg
    rw [hstate]
    exact ⟨(hm.loaded g p hg).1, hparked p (hm.loaded g p hg).2⟩

theorem HartOk.dispatch {x : Hart C L} (hx : HartOk x) {p : Fin 64} (hpc : x.pc = .dispatch p) :
    x.thread = none ∧ x.held = [.proc p] := by
  have := hx.fits
  rwa [hpc] at this

theorem HartOk.yield {x : Hart C L} (hx : HartOk x) {p : Fin 64} (hpc : x.pc = .yield p) :
    x.thread = some p ∧ x.held = [.proc p] ∧ Bound x.cpu p := by
  have := hx.fits
  rwa [hpc] at this

/-- Under its lock, a process that is RUNNABLE is parked. -/
theorem Good.parked (hm : Good m) {p : Fin 64} (hstate : (m.procs p).state = .runnable)
    (hlock : .proc p ∈ (m.harts h).held) (hpc : (m.harts h).pc ≠ .yield p) : Parked m p := by
  obtain hp | ⟨g, hg⟩ := hm.threads.ready p hstate
  · exact hp
  · have hheld := ((hm.harts g).yield hg).2.1
    have hgh : g = h := hm.locks.exclusive g h (.proc p) (by simp [hheld]) hlock
    exact absurd (hgh ▸ hg) hpc

variable [DecidableEq H] {x : Hart C L} {p : Fin 64}

theorem set_thread (hthread : x.thread = (m.harts h).thread) (g : H) :
    ((m.set h x).harts g).thread = (m.harts g).thread := by
  by_cases hg : g = h
  · rw [hg, set_self, hthread]
  · rw [set_of_ne _ _ hg]

theorem Good.load (hm : Good m) (hlock : .proc p ∈ (m.harts h).held)
    (hcheck : (m.harts h).pc = .check p) (hstate : (m.procs p).state = .runnable)
    (hthread : x.thread = (m.harts h).thread) (hpc : x.pc = .dispatch p) :
    Threads ((m.setState p .running).set h x) := by
  have hharts : ∀ g, g ≠ h → ((m.setState p .running).set h x).harts g = m.harts g :=
    fun g hg => set_of_ne _ _ hg
  have hthreads : ∀ g, (((m.setState p .running).set h x).harts g).thread = (m.harts g).thread :=
    set_thread (m := m.setState p .running) hthread
  have hcontext : ∀ q, (((m.setState p .running).set h x).procs q).context =
      (m.procs q).context := by
    intro q
    by_cases hq : q = p
    · rw [hq, set_procs, Machine.setState, setProc_self]
    · rw [set_procs, Machine.setState, setProc_of_ne m _ hq]
  have hparked : ∀ q, Parked m q → Parked ((m.setState p .running).set h x) q :=
    fun q hq => hq.congr (fun g hg => (hthreads g).symm.trans hg) (hcontext q)
  refine ⟨fun g k q hg hk => ?_, fun q hq => ?_, fun g q hg => ?_⟩
  · rw [hthreads] at hg hk
    exact hm.threads.unique g k q hg hk
  · by_cases hqp : q = p
    · rw [hqp, set_procs, Machine.setState, setProc_self] at hq
      cases hq
    · rw [set_procs, Machine.setState, setProc_of_ne m _ hqp] at hq
      obtain hq | ⟨g, hg⟩ := hm.threads.ready q hq
      · exact .inl (hparked q hq)
      · refine .inr ⟨g, ?_⟩
        rw [hharts g (fun he => by rw [he, hcheck] at hg; cases hg)]
        exact hg
  · by_cases hgh : g = h
    · rw [hgh, set_self, hpc, Pc.dispatch.injEq] at hg
      subst hg
      refine ⟨?_, hparked p (hm.parked hstate hlock (by rw [hcheck]; simp))⟩
      rw [set_procs, Machine.setState, setProc_self]
    · rw [hharts g hgh] at hg
      have hqp : q ≠ p := by
        rintro rfl
        have hheld := ((hm.harts g).dispatch hg).2
        exact hgh (hm.locks.exclusive g h (.proc q) (by simp [hheld]) hlock)
      rw [set_procs, Machine.setState, setProc_of_ne m _ hqp]
      exact ⟨(hm.threads.loaded g q hg).1, hparked q (hm.threads.loaded g q hg).2⟩

theorem Good.enter (hm : Good m) (hpc : (m.harts h).pc = .dispatch p)
    (hthread : x.thread = some p) (hresumes : Resumes p x.pc) : Threads (m.set h x) := by
  obtain ⟨hstate, habsent, -⟩ := hm.threads.loaded h p hpc
  obtain ⟨hnone, hheld⟩ := (hm.harts h).dispatch hpc
  have hother : ∀ q, q ≠ p → Parked m q → Parked (m.set h x) q := by
    intro q hq hparked
    refine hparked.congr (fun g hg => ?_) rfl
    by_cases hgh : g = h
    · rw [hgh, set_self, hthread, Option.some.injEq] at hg
      exact absurd hg.symm hq
    · rwa [set_of_ne _ _ hgh] at hg
  have hp : ∀ g, ((m.set h x).harts g).thread = some p → g = h := by
    intro g hg
    by_contra hne
    rw [set_of_ne _ _ hne] at hg
    exact habsent g hg
  refine ⟨fun g k q hg hk => ?_, fun q hq => ?_, fun g q hg => ?_⟩
  · by_cases hqp : q = p
    · subst hqp
      rw [hp g hg, hp k hk]
    · have hne : ∀ i, ((m.set h x).harts i).thread = some q → (m.harts i).thread = some q := by
        intro i hi
        by_cases hih : i = h
        · rw [hih, set_self, hthread, Option.some.injEq] at hi
          exact absurd hi.symm hqp
        · rwa [set_of_ne _ _ hih] at hi
      exact hm.threads.unique g k q (hne g hg) (hne k hk)
  · rw [set_procs] at hq
    have hqp : q ≠ p := fun he => by
      rw [he, hstate] at hq
      cases hq
    obtain hq | ⟨g, hg⟩ := hm.threads.ready q hq
    · exact .inl (hother q hqp hq)
    · refine .inr ⟨g, ?_⟩
      rw [set_of_ne _ _ (fun he => by rw [he, hpc] at hg; cases hg)]
      exact hg
  · have hgh : g ≠ h := by
      rintro rfl
      rw [set_self] at hg
      simp [Resumes, hg] at hresumes
    rw [set_of_ne _ _ hgh] at hg
    have hqp : q ≠ p := by
      rintro rfl
      have hheld' := ((hm.harts g).dispatch hg).2
      exact hgh (hm.locks.exclusive g h (.proc q) (by simp [hheld']) (by simp [hheld]))
    exact ⟨(hm.threads.loaded g q hg).1, hother q hqp (hm.threads.loaded g q hg).2⟩

theorem Good.mark (hm : Good m) {v : ProcState} (hp : (m.harts h).thread = some p)
    (hold : ∀ q, (m.harts h).pc ≠ .yield q) (hthread : x.thread = some p)
    (hnew : ∀ q, x.pc ≠ .dispatch q) (hv : v = .runnable → x.pc = .yield p) :
    Threads ((m.setState p v).set h x) := by
  have hharts : ∀ g, g ≠ h → ((m.setState p v).set h x).harts g = m.harts g :=
    fun g hg => set_of_ne _ _ hg
  have hthreads : ∀ g, (((m.setState p v).set h x).harts g).thread = (m.harts g).thread :=
    set_thread (m := m.setState p v) (hthread.trans hp.symm)
  have hother : ∀ q, q ≠ p → ((m.setState p v).set h x).procs q = m.procs q :=
    fun q hq => setProc_of_ne m _ hq
  have hparked : ∀ q, Parked m q → q ≠ p ∧ Parked ((m.setState p v).set h x) q := by
    intro q hq
    have hne : q ≠ p := fun he => hq.absent h (he ▸ hp)
    refine ⟨hne, hq.congr (fun g hg => (hthreads g).symm.trans hg) ?_⟩
    rw [hother q hne]
  refine ⟨fun g k q hg hk => ?_, fun q hq => ?_, fun g q hg => ?_⟩
  · rw [hthreads] at hg hk
    exact hm.threads.unique g k q hg hk
  · by_cases hqp : q = p
    · rw [hqp, set_procs, Machine.setState, setProc_self] at hq
      refine .inr ⟨h, ?_⟩
      rw [set_self, hqp]
      exact hv hq
    · rw [hother q hqp] at hq
      obtain hq | ⟨g, hg⟩ := hm.threads.ready q hq
      · exact .inl (hparked q hq).2
      · refine .inr ⟨g, ?_⟩
        rw [hharts g (fun he => hold q (he ▸ hg))]
        exact hg
  · have hgh : g ≠ h := fun he => hnew q (by rw [he, set_self] at hg; exact hg)
    rw [hharts g hgh] at hg
    obtain ⟨hne, hq⟩ := hparked q (hm.threads.loaded g q hg).2
    rw [hother q hne]
    exact ⟨(hm.threads.loaded g q hg).1, hq⟩

theorem Good.leave (hm : Good m) {pc : Pc C L} (hp : (m.harts h).thread = some p)
    (hold : ∀ q, (m.harts h).pc = .yield q → q = p) (hresumes : Resumes p pc)
    (hthread : x.thread = none) (hnew : ∀ q, x.pc ≠ .dispatch q) :
    Threads ((m.setContext p (some ⟨some p, pc⟩)).set h x) := by
  have hharts : ∀ g, g ≠ h →
      ((m.setContext p (some ⟨some p, pc⟩)).set h x).harts g = m.harts g :=
    fun g hg => set_of_ne _ _ hg
  have hsub : ∀ g q, (((m.setContext p (some ⟨some p, pc⟩)).set h x).harts g).thread = some q →
      g ≠ h ∧ (m.harts g).thread = some q := by
    intro g q hg
    have hgh : g ≠ h := by
      rintro rfl
      rw [set_self, hthread] at hg
      cases hg
    rw [hharts g hgh] at hg
    exact ⟨hgh, hg⟩
  have hself : Parked ((m.setContext p (some ⟨some p, pc⟩)).set h x) p := by
    refine ⟨fun g hg => ?_, pc, ?_, hresumes⟩
    · obtain ⟨hgh, hg'⟩ := hsub g p hg
      exact hgh (hm.threads.unique g h p hg' hp)
    · rw [set_procs, Machine.setContext, setProc_self]
  have hother : ∀ q, q ≠ p →
      ((m.setContext p (some ⟨some p, pc⟩)).set h x).procs q = m.procs q :=
    fun q hq => setProc_of_ne m _ hq
  have hparked : ∀ q, Parked m q → Parked ((m.setContext p (some ⟨some p, pc⟩)).set h x) q := by
    intro q hq
    by_cases hqp : q = p
    · exact hqp ▸ hself
    · refine hq.congr (fun g hg => (hsub g q hg).2) ?_
      rw [hother q hqp]
  refine ⟨fun g k q hg hk => ?_, fun q hq => ?_, fun g q hg => ?_⟩
  · exact hm.threads.unique g k q (hsub g q hg).2 (hsub k q hk).2
  · by_cases hqp : q = p
    · exact .inl (hqp ▸ hself)
    · rw [hother q hqp] at hq
      obtain hq | ⟨g, hg⟩ := hm.threads.ready q hq
      · exact .inl (hparked q hq)
      · refine .inr ⟨g, ?_⟩
        rw [hharts g (fun he => hqp (hold q (he ▸ hg)))]
        exact hg
  · have hgh : g ≠ h := fun he => hnew q (by rw [he, set_self] at hg; exact hg)
    rw [hharts g hgh] at hg
    obtain ⟨hstate, hq⟩ := hm.threads.loaded g q hg
    have hqp : q ≠ p := fun he => hq.absent h (he ▸ hp)
    rw [hother q hqp]
    exact ⟨hstate, hparked q hq⟩

end Threads

section Step

variable {x : Hart C L} {lock : Lock L} {next : Pc C L}

theorem Fits.cpu {thread : Option (Fin 64)} {cpu cpu' : Cpu C L} {pc : Pc C L}
    {held : List (Lock L)} (h : Fits thread cpu pc held) (hcur : cpu'.curProc = cpu.curProc)
    (hcontext : cpu'.context = cpu.context) : Fits thread cpu' pc held := by
  induction pc generalizing held with
  | spin lock next ih => exact ⟨h.1, ih h.2⟩
  | giveUp p | yield p | asleep p lock | sleep p channel lock | channel p channel lock
  | drop p lock =>
    refine ⟨h.1, h.2.1, ?_⟩
    rw [Bound, hcur, hcontext]
    exact h.2.2
  | _ => exact h

theorem HartOk.goto (hx : HartOk x) {pc : Pc C L} (hold : x.pc ≠ .fault)
    (hextra : extra pc = extra x.pc) (hfits : Fits x.thread x.cpu pc x.held) :
    HartOk (x.goto pc) := by
  refine ⟨hfits, fun _ => ?_⟩
  change _ = BitVec.ofNat 32 (x.held.length + extra pc)
  rw [hextra]
  exact hx.layer hold

theorem HartOk.fault (x : Hart C L) : HartOk (x.goto .fault) := ⟨trivial, fun h => absurd rfl h⟩

theorem HartOk.ask (hx : HartOk x) (hold : x.pc ≠ .fault) (hextra : extra x.pc = 0)
    (hentry : Entry next) (hfits : Fits x.thread x.cpu next (lock :: x.held)) :
    HartOk (x.ask lock next) := by
  refine ⟨⟨hentry, hfits.cpu rfl rfl⟩, fun _ => ?_⟩
  change x.push.cpu.lockLayer = BitVec.ofNat 32 (x.held.length + 1)
  rw [push_lockLayer, hx.layer hold, hextra]
  exact ofNat_succ _

theorem HartOk.readCurProc (hx : HartOk x) : HartOk x.readCurProc := by
  refine ⟨hx.fits.cpu rfl rfl, fun hpc => ?_⟩
  rw [readCurProc_lockLayer]
  exact hx.layer hpc

theorem Entry.extra {pc : Pc C L} (h : Entry pc) : extra pc = 0 := by
  cases pc with
  | check i | giveUp p | sleep p channel lock | idle => rfl
  | _ => cases h

theorem HartOk.take (hx : HartOk x) (hpc : x.pc = .spin lock next) :
    HartOk { x.goto next with held := lock :: x.held } := by
  have hfits := hx.fits
  rw [hpc] at hfits
  refine ⟨hfits.2, fun _ => ?_⟩
  change x.cpu.lockLayer = BitVec.ofNat 32 (x.held.length + 1 + extra next)
  rw [hx.layer (by rw [hpc]; simp), hpc, hfits.1.extra]
  rfl

variable [DecidableEq L]

theorem HartOk.release (hx : HartOk x) (hold : x.pc ≠ .fault) (hextra : extra x.pc = 0)
    (hmem : lock ∈ x.held) (hnext : extra next = 0)
    (hfits : Fits x.thread x.cpu next (x.held.erase lock)) :
    HartOk ({ x with held := x.held.erase lock }.pop.goto next) := by
  refine ⟨hfits.cpu rfl rfl, fun _ => ?_⟩
  change ({ x with held := x.held.erase lock } : Hart C L).pop.cpu.lockLayer =
    BitVec.ofNat 32 ((x.held.erase lock).length + extra next)
  rw [pop_lockLayer, hnext, List.length_erase_of_mem hmem]
  change x.cpu.lockLayer - 1 = _
  rw [hx.layer hold, hextra]
  exact ofNat_pred (List.length_pos_of_mem hmem)

variable [DecidableEq H] {m n : Machine H C L} {h : H}

omit [DecidableEq L] in
theorem Good.quiet (hm : Good m) (hlocks : Locks n) (hharts : ∀ g, g ≠ h → n.harts g = m.harts g)
    (hok : HartOk (n.harts h)) (hthread : (n.harts h).thread = (m.harts h).thread)
    (hold : ∀ p, (m.harts h).pc ≠ .yield p) (hnew : ∀ p, (n.harts h).pc ≠ .dispatch p)
    (hprocs : ∀ p, (n.procs p).state = (m.procs p).state ∧
      (n.procs p).context = (m.procs p).context) : Good n := by
  refine ⟨fun g => ?_, hlocks, ?_⟩
  · by_cases hg : g = h
    · rw [hg]
      exact hok
    · rw [hharts g hg]
      exact hm.harts g
  · refine hm.threads.quiet (fun g => ?_) (fun g hg => by rw [hharts g hg]) hold hnew
      (fun p => (hprocs p).1) (fun p => (hprocs p).2)
    by_cases hg : g = h
    · rw [hg, hthread]
    · rw [hharts g hg]

omit [DecidableEq L] in
theorem Good.move (hm : Good m) (hok : HartOk x) (hthread : x.thread = (m.harts h).thread)
    (hheld : x.held = (m.harts h).held) (hold : ∀ p, (m.harts h).pc ≠ .yield p)
    (hnew : ∀ p, x.pc ≠ .dispatch p) : Good (m.set h x) := by
  refine hm.quiet (hm.locks.keep (fun g => ?_) (fun l => set_word m h x l))
    (fun g hg => set_of_ne m x hg) ?_ ?_ hold ?_ (fun p => ⟨rfl, rfl⟩)
  · by_cases hg : g = h
    · rw [hg, set_self, hheld]
    · rw [set_of_ne _ _ hg]
  all_goals rw [set_self]
  · exact hok
  · exact hthread
  · exact hnew

theorem Good.release (hm : Good m) (hok : HartOk (((m.release h lock next)).harts h))
    (hmem : lock ∈ (m.harts h).held) (hold : ∀ p, (m.harts h).pc ≠ .yield p)
    (hnew : ∀ p, next ≠ .dispatch p) : Good (m.release h lock next) := by
  refine hm.quiet (hm.locks.give hmem rfl) (fun g hg => ?_) hok ?_ hold ?_ (fun p => ?_)
  · rw [Machine.release, set_of_ne _ _ hg, setWord_harts]
  · rw [Machine.release, set_self]
    rfl
  · rw [Machine.release, set_self]
    exact hnew
  · exact ⟨(setWord_procs m lock 1 p).1, (setWord_procs m lock 1 p).2.1⟩

theorem release_self (m : Machine H C L) (h : H) (lock : Lock L) (next : Pc C L) :
    (m.release h lock next).harts h =
      ({ m.harts h with held := (m.harts h).held.erase lock }.pop.goto next) := set_self ..

/-- The locks that a call may be made with. -/
def Contract (m : Machine H C L) : Act H C L → Prop
  | .release h lock => .user lock ∈ (m.harts h).held
  | .giveUp h => (m.harts h).held = []
  | .sleep h _ lock => (m.harts h).held = [.user lock]
  | _ => True

/-- Where `cur_proc()` is not null, it is the process that calls. -/
def BoundCall (m : Machine H C L) : Act H C L → Prop
  | .giveUp h | .sleep h _ _ =>
    ∀ p, (m.harts h).cpu.curProc = some p → (m.harts h).thread = some p ∧ Bound (m.harts h).cpu p
  | _ => True

omit [DecidableEq L] in
/-- Called by a process that holds its own lock only, `enter_sched` gets to the scheduler. -/
theorem enterSched_eq (hm : Good m) {p : Fin 64} (hthread : (m.harts h).thread = some p)
    (hheld : (m.harts h).held = [.proc p]) (hbound : Bound (m.harts h).cpu p)
    (hpc : (m.harts h).pc ≠ .fault) (hextra : extra (m.harts h).pc = 0) :
    m.enterSched h next = (m.setContext p (some ⟨some p, next⟩)).set h
      { (m.harts h).readCurProc with thread := none, pc := .back p } := by
  have hlayer : (m.harts h).cpu.lockLayer = 1 := by
    rw [(hm.harts h).layer hpc, hheld, hextra]
    rfl
  simp only [Machine.enterSched]
  rw [if_pos hlayer, hbound.1, hbound.2, hthread]
  rfl

omit [DecidableEq L] in
theorem Good.enterSched (hm : Good m) {p : Fin 64} (hthread : (m.harts h).thread = some p)
    (hheld : (m.harts h).held = [.proc p]) (hbound : Bound (m.harts h).cpu p)
    (hpc : (m.harts h).pc ≠ .fault) (hextra : extra (m.harts h).pc = 0)
    (hold : ∀ q, (m.harts h).pc = .yield q → q = p) (hresumes : Resumes p next) :
    Good (m.enterSched h next) := by
  rw [enterSched_eq hm hthread hheld hbound hpc hextra]
  refine ⟨fun g => ?_, hm.locks.keep (fun g => ?_) (fun l => ?_), ?_⟩
  · by_cases hg : g = h
    · rw [hg, set_self]
      refine ⟨⟨rfl, hheld⟩, fun _ => ?_⟩
      refine (hm.harts h).readCurProc.layer hpc |>.trans ?_
      change BitVec.ofNat 32 (_ + extra (m.harts h).pc) = _
      rw [hextra]
      rfl
    · rw [set_of_ne _ _ hg]
      exact hm.harts g
  · by_cases hg : g = h
    · rw [hg, set_self]
      rfl
    · rw [set_of_ne _ _ hg]
      rfl
  · rw [set_word]
    exact setProc_word m p (y := { m.procs p with context := some ⟨some p, next⟩ }) rfl l
  · exact hm.leave hthread hold hresumes rfl (fun q hq => by cases hq)

omit [DecidableEq L] in
theorem Good.write (hm : Good m) {p : Fin 64} {y : Proc C L} (hlock : y.lock = (m.procs p).lock)
    (hstate : y.state = (m.procs p).state) (hcontext : y.context = (m.procs p).context)
    (hok : HartOk x) (hthread : x.thread = (m.harts h).thread)
    (hheld : x.held = (m.harts h).held) (hold : ∀ q, (m.harts h).pc ≠ .yield q)
    (hnew : ∀ q, x.pc ≠ .dispatch q) : Good ((m.setProc p y).set h x) := by
  refine hm.quiet (hm.locks.keep (fun g => ?_) (fun l => ?_)) (fun g hg => set_of_ne _ x hg) ?_ ?_
    hold ?_ (fun q => ?_)
  · by_cases hg : g = h
    · rw [hg, set_self, hheld]
    · rw [set_of_ne _ _ hg]
      rfl
  · rw [set_word]
    exact setProc_word m p hlock l
  · rw [set_self]
    exact hok
  · rw [set_self]
    exact hthread
  · rw [set_self]
    exact hnew
  · rw [set_procs]
    by_cases hq : q = p
    · rw [hq, setProc_self]
      exact ⟨hstate, hcontext⟩
    · rw [setProc_of_ne m y hq]
      exact ⟨rfl, rfl⟩

omit [DecidableEq L] in
theorem Good.state (hm : Good m) {p : Fin 64} {v : ProcState} (hok : HartOk x)
    (hheld : x.held = (m.harts h).held) (hthreads : Threads ((m.setState p v).set h x)) :
    Good ((m.setState p v).set h x) := by
  refine ⟨fun g => ?_, hm.locks.keep (fun g => ?_) (fun l => ?_), hthreads⟩
  · by_cases hg : g = h
    · rw [hg, set_self]
      exact hok
    · rw [set_of_ne _ _ hg]
      exact hm.harts g
  · by_cases hg : g = h
    · rw [hg, set_self, hheld]
    · rw [set_of_ne _ _ hg]
      rfl
  · rw [set_word]
    exact setProc_word m p (y := { m.procs p with state := v }) rfl l

theorem Good.exchange (hm : Good m) (hpc : (m.harts h).pc = .spin lock next) :
    Good ((m.setWord lock 0).set h
      (if m.word lock = 0 then m.harts h
        else { (m.harts h).goto next with held := lock :: (m.harts h).held })) := by
  have hfits := (hm.harts h).fits
  rw [hpc] at hfits
  have hprocs : ∀ y p, (((m.setWord lock 0).set h y).procs p).state = (m.procs p).state ∧
      (((m.setWord lock 0).set h y).procs p).context = (m.procs p).context :=
    fun y p => ⟨(setWord_procs m lock 0 p).1, (setWord_procs m lock 0 p).2.1⟩
  have hharts : ∀ y g, g ≠ h → ((m.setWord lock 0).set h y).harts g = m.harts g := by
    intro y g hg
    rw [set_of_ne _ _ hg, setWord_harts]
  have hold : ∀ p, (m.harts h).pc ≠ .yield p := fun p hp => by
    rw [hpc] at hp
    cases hp
  by_cases hw : m.word lock = 0
  · rw [if_pos hw]
    refine hm.quiet (hm.locks.keep (fun g => ?_) (fun l => ?_)) (hharts _) ?_ ?_ hold ?_ (hprocs _)
    · by_cases hg : g = h
      · rw [hg, set_self]
      · rw [hharts _ g hg]
    · rw [set_word, setWord_word]
      by_cases hl : l = lock
      · rw [if_pos hl, hl, hw]
      · rw [if_neg hl]
    · rw [set_self]
      exact hm.harts h
    · rw [set_self]
    · rw [set_self, hpc]
      exact fun p hp => by cases hp
  · rw [if_neg hw]
    refine hm.quiet (hm.locks.take hw rfl) (hharts _) ?_ ?_ hold ?_ (hprocs _)
    · rw [set_self]
      exact (hm.harts h).take hpc
    · rw [set_self]
      rfl
    · rw [set_self]
      intro p hp
      change next = _ at hp
      rw [hp] at hfits
      exact hfits.1

omit [DecidableEq H] [DecidableEq L] in
theorem Good.readyHart (hm : Good m) {p : Fin 64} (hpc : (m.harts h).pc = .dispatch p) :
    ∃ k, (m.procs p).context = some k ∧ k.thread = some p ∧ Resumes p k.pc ∧
      HartOk { m.harts h with thread := k.thread, pc := k.pc } := by
  obtain ⟨-, -, pc, hcontext, hresumes⟩ := hm.threads.loaded h p hpc
  obtain ⟨-, hheld⟩ := (hm.harts h).dispatch hpc
  have hlayer := (hm.harts h).layer (by rw [hpc]; simp)
  rw [hpc] at hlayer
  refine ⟨⟨some p, pc⟩, hcontext, rfl, hresumes, ?_⟩
  obtain rfl | rfl | ⟨lock, rfl⟩ := hresumes
  all_goals exact ⟨⟨rfl, hheld⟩, fun _ => hlayer⟩

variable [DecidableEq C]

theorem scheduler_good (hm : Good m) (i : Fin 64) (hs : runHart m h = some n)
    (hpc : (m.harts h).pc = .enter ∨ (m.harts h).pc = .scan i ∨ (m.harts h).pc = .check i ∨
      (m.harts h).pc = .dispatch i ∨ (m.harts h).pc = .back i ∨ (m.harts h).pc = .unlock i) :
    Good n := by
  have hok := hm.harts h
  have hfits := hok.fits
  obtain hpc | hpc | hpc | hpc | hpc | hpc := hpc
  all_goals
    simp only [runHart, hpc, Option.some.injEq] at hs
    subst hs
    rw [hpc] at hfits
  · have hgoto : HartOk ((m.harts h).goto (.scan 0)) :=
      hok.goto (by simp [hpc]) (by simp [hpc, extra]) hfits
    exact hm.move ⟨hgoto.fits, hgoto.layer⟩ rfl rfl (by simp [hpc]) (by simp [Hart.goto])
  · have hask : HartOk ((m.harts h).ask (.proc i) (.check i)) :=
      hok.ask (by simp [hpc]) (by simp [hpc, extra]) trivial ⟨hfits.1, by rw [hfits.2]⟩
    exact hm.move hask rfl rfl (by simp [hpc]) (by simp [Hart.ask, Hart.goto])
  · by_cases hstate : (m.procs i).state = .runnable
    · rw [if_pos hstate]
      have hgoto : HartOk ((m.harts h).goto (.dispatch i)) :=
        hok.goto (by simp [hpc]) (by simp [hpc, extra]) hfits
      exact hm.state ⟨hgoto.fits, hgoto.layer⟩ rfl
        (hm.load (by simp [hfits.2]) hpc hstate rfl rfl)
    · rw [if_neg hstate]
      have hgoto : HartOk ((m.harts h).goto (.unlock i)) :=
        hok.goto (by simp [hpc]) (by simp [hpc, extra]) hfits
      exact hm.move hgoto rfl rfl (by simp [hpc]) (by simp [Hart.goto])
  · obtain ⟨k, hcontext, hthread, hresumes, hready⟩ := hm.readyHart hpc
    rw [hcontext]
    refine ⟨fun g => ?_, hm.locks.keep (fun g => ?_) (fun l => set_word ..),
      hm.enter hpc hthread hresumes⟩
    · by_cases hg : g = h
      · rw [hg, set_self]
        exact ⟨hready.fits, hready.layer⟩
      · rw [set_of_ne _ _ hg]
        exact hm.harts g
    · by_cases hg : g = h
      · rw [hg, set_self]
        rfl
      · rw [set_of_ne _ _ hg]
  · have hgoto : HartOk ((m.harts h).goto (.unlock i)) :=
      hok.goto (by simp [hpc]) (by simp [hpc, extra]) hfits
    exact hm.move ⟨hgoto.fits, hgoto.layer⟩ rfl rfl (by simp [hpc]) (by simp [Hart.goto])
  · have hmem : .proc i ∈ (m.harts h).held := by simp [hfits.2]
    refine hm.release ?_ hmem (by simp [hpc]) (by simp)
    rw [release_self]
    exact hok.release (by simp [hpc]) (by simp [hpc, extra]) hmem rfl
      ⟨hfits.1, by simp [hfits.2]⟩

/-- The points of `give_up` and of the first run that follow the call. -/
theorem giveUp_good (hm : Good m) (p : Fin 64) (hs : runHart m h = some n)
    (hpc : (m.harts h).pc = .giveUp p ∨ (m.harts h).pc = .yield p ∨
      (m.harts h).pc = .yielded p ∨ (m.harts h).pc = .start p) : Good n := by
  have hok := hm.harts h
  have hfits := hok.fits
  obtain hpc | hpc | hpc | hpc := hpc
  all_goals
    simp only [runHart, hpc, Option.some.injEq] at hs
    subst hs
    rw [hpc] at hfits
  · have hgoto : HartOk ((m.harts h).goto (.yield p)) :=
      hok.goto (by simp [hpc]) (by simp [hpc, extra]) hfits
    exact hm.state hgoto rfl
      (hm.mark hfits.1 (by simp [hpc]) hfits.1 (by simp [Hart.goto]) (fun _ => rfl))
  · exact hm.enterSched hfits.1 hfits.2.1 hfits.2.2 (by simp [hpc]) (by simp [hpc, extra])
      (by simp [hpc]) (.inr (.inl rfl))
  all_goals
    have hmem : .proc p ∈ (m.harts h).held := by simp [hfits.2]
    refine hm.release ?_ hmem (by simp [hpc]) (by simp)
    rw [release_self]
    exact hok.release (by simp [hpc]) (by simp [hpc, extra]) hmem rfl
      ⟨⟨p, hfits.1⟩, by simp [hfits.2]⟩

theorem sleep_good (hm : Good m) (p : Fin 64) (lock : L) (hs : runHart m h = some n)
    (hpc : (∃ channel, (m.harts h).pc = .sleep p channel lock) ∨
      (∃ channel, (m.harts h).pc = .channel p channel lock) ∨
      (m.harts h).pc = .drop p lock ∨ (m.harts h).pc = .asleep p lock ∨
      (m.harts h).pc = .awake p lock ∨ (m.harts h).pc = .retake p lock) : Good n := by
  have hok := hm.harts h
  have hfits := hok.fits
  obtain ⟨channel, hpc⟩ | ⟨channel, hpc⟩ | hpc | hpc | hpc | hpc := hpc
  all_goals
    simp only [runHart, hpc, Option.some.injEq] at hs
    subst hs
    rw [hpc] at hfits
  · have hgoto : HartOk ((m.harts h).goto (.channel p channel lock)) :=
      hok.goto (by simp [hpc]) (by simp [hpc, extra]) hfits
    exact hm.state hgoto rfl
      (hm.mark hfits.1 (by simp [hpc]) hfits.1 (by simp [Hart.goto]) (fun hv => by cases hv))
  · have hgoto : HartOk ((m.harts h).goto (.drop p lock)) :=
      hok.goto (by simp [hpc]) (by simp [hpc, extra]) hfits
    exact hm.write rfl rfl rfl hgoto rfl rfl (by simp [hpc]) (by simp [Hart.goto])
  · have hmem : .user lock ∈ (m.harts h).held := by simp [hfits.2.1]
    refine hm.release ?_ hmem (by simp [hpc]) (by simp)
    rw [release_self]
    refine hok.release (by simp [hpc]) (by simp [hpc, extra]) hmem rfl ⟨hfits.1, ?_, hfits.2.2⟩
    simp [hfits.2.1]
  · exact hm.enterSched hfits.1 hfits.2.1 hfits.2.2 (by simp [hpc]) (by simp [hpc, extra])
      (by simp [hpc]) (.inr (.inr ⟨lock, rfl⟩))
  · have hgoto : HartOk ((m.harts h).goto (.retake p lock)) :=
      hok.goto (by simp [hpc]) (by simp [hpc, extra]) hfits
    exact hm.write rfl rfl rfl hgoto rfl rfl (by simp [hpc]) (by simp [Hart.goto])
  · have hmem : .proc p ∈ (m.harts h).held := by simp [hfits.2]
    have hidle : HartOk ((m.release h (.proc p) .idle).harts h) := by
      rw [release_self]
      exact hok.release (by simp [hpc]) (by simp [hpc, extra]) hmem rfl
        ⟨⟨p, hfits.1⟩, by simp [hfits.2]⟩
    have hgood : Good (m.release h (.proc p) .idle) :=
      hm.release hidle hmem (by simp [hpc]) (by simp)
    have hpc' : ((m.release h (.proc p) .idle).harts h).pc = .idle := by
      rw [release_self]
      rfl
    have hidlefits := hidle.fits
    rw [hpc'] at hidlefits
    refine hgood.move ?_ rfl rfl (by simp [hpc']) (by simp [Hart.ask, Hart.goto])
    refine hidle.ask (by simp [hpc']) (by simp [hpc', extra]) trivial ⟨hidlefits.1, ?_⟩
    exact List.forall_mem_cons.mpr ⟨⟨lock, rfl⟩, hidlefits.2⟩

theorem wakeup_good (hm : Good m) (channel : C) (rest : List (Fin 64)) (cursor : Cursor C)
    (hs : runHart m h = some n)
    (hpc : (m.harts h).pc = .wake channel rest ∨ (m.harts h).pc = .wakeSpin channel rest cursor ∨
      (m.harts h).pc = .wakeTest channel rest cursor ∨
      (m.harts h).pc = .wakeFree channel rest cursor) : Good n := by
  have hok := hm.harts h
  have hfits := hok.fits
  have hlayer := hok.layer
  obtain hpc | hpc | hpc | hpc := hpc
  all_goals rw [hpc] at hfits hlayer
  · cases rest with
    | nil =>
      simp only [runHart, hpc, Option.some.injEq] at hs
      subst hs
      have hgoto : HartOk ((m.harts h).goto .idle) :=
        hok.goto (by simp [hpc]) (by simp [hpc, extra]) hfits
      exact hm.move hgoto rfl rfl (by simp [hpc]) (by simp [Hart.goto])
    | cons i rest =>
      simp only [runHart, hpc, Option.some.injEq] at hs
      subst hs
      refine hm.move ⟨hfits, fun _ => ?_⟩ rfl rfl (by simp [hpc]) (by simp [Hart.goto])
      change (m.harts h).readCurProc.cpu.lockLayer + 1 = BitVec.ofNat 32 (_ + 1)
      rw [readCurProc_lockLayer, hlayer (by simp)]
      exact ofNat_succ _
  all_goals
    simp only [runHart, hpc, Option.some.injEq] at hs
    subst hs
  · have hgoto : ∀ pc, extra pc = 1 → Fits (m.harts h).thread (m.harts h).cpu pc (m.harts h).held →
        HartOk ((m.harts h).goto pc) :=
      fun pc hextra hpcfits => hok.goto (by simp [hpc]) (by rw [hextra, hpc]; rfl) hpcfits
    by_cases hlock : cursor.lock = 0
    · rw [if_pos hlock]
      exact hm.move (hgoto _ rfl hfits) rfl rfl (by simp [hpc]) (by simp [Hart.goto])
    · rw [if_neg hlock]
      exact hm.move (hgoto _ rfl hfits) rfl rfl (by simp [hpc]) (by simp [Hart.goto])
  · have hgoto : ∀ copy, HartOk ((m.harts h).goto (.wakeFree channel rest copy)) :=
      fun copy => hok.goto (by simp [hpc]) (by simp [hpc, extra]) hfits
    exact hm.move (hgoto _) rfl rfl (by simp [hpc]) (by simp [Hart.goto])
  · refine hm.move ⟨hfits, fun _ => ?_⟩ rfl rfl (by simp [hpc]) (by simp [Hart.goto])
    change (m.harts h).pop.cpu.lockLayer = BitVec.ofNat 32 (_ + 0)
    rw [pop_lockLayer, hlayer (by simp)]
    exact ofNat_pred (Nat.succ_pos _)

theorem runHart_good (hm : Good m) (hs : runHart m h = some n) : Good n := by
  cases hpc : (m.harts h).pc with
  | spin lock next =>
    simp only [runHart, hpc, Option.some.injEq] at hs
    subst hs
    exact hm.exchange hpc
  | enter => exact scheduler_good hm 0 hs (by simp [hpc])
  | scan i | check i | dispatch i | back i | unlock i =>
    exact scheduler_good hm i hs (by simp [hpc])
  | start p | giveUp p | yield p | yielded p => exact giveUp_good hm p hs (by simp [hpc])
  | sleep p _ lock | channel p _ lock | drop p lock | asleep p lock | awake p lock
  | retake p lock => exact sleep_good hm p lock hs (by simp [hpc])
  | wake channel rest => exact wakeup_good hm channel rest ⟨0, .unused, none⟩ hs (by simp [hpc])
  | wakeSpin channel rest cursor | wakeTest channel rest cursor | wakeFree channel rest cursor =>
    exact wakeup_good hm channel rest cursor hs (by simp [hpc])
  | idle | fault =>
    simp only [runHart, hpc] at hs
    cases hs

omit [DecidableEq L] [DecidableEq C] in
/-- A call of `give_up` or `sleep`, from its `cur_proc()` to the exchange loop. -/
theorem call_good (hm : Good m) (hpc : (m.harts h).pc = .idle) {p : Fin 64} (hentry : Entry next)
    (hfits : Fits (m.harts h).thread (m.harts h).cpu next (.proc p :: (m.harts h).held)) :
    Good (m.set h ((m.harts h).readCurProc.ask (.proc p) next)) := by
  have hpc' : (m.harts h).readCurProc.pc = .idle := hpc
  have hask : HartOk ((m.harts h).readCurProc.ask (.proc p) next) :=
    (hm.harts h).readCurProc.ask (by simp [hpc']) (by simp [hpc', extra]) hentry
      (hfits.cpu rfl rfl)
  refine hm.move hask rfl rfl (by simp [hpc]) fun q hq => ?_
  cases hq

theorem step_good {a : Act H C L} (hm : Good m) (hcontract : Contract m a) (hbound : BoundCall m a)
    (hs : step m a = some n) : Good n := by
  obtain ⟨h, rfl, -⟩ | hcall := step_moves hs
  · exact runHart_good hm hs
  cases hcall with
  | acquire h lock hpc =>
    have hfits := (hm.harts h).fits
    rw [hpc] at hfits
    have hask : HartOk ((m.harts h).ask (.user lock) .idle) :=
      (hm.harts h).ask (by simp [hpc]) (by simp [hpc, extra]) trivial
        ⟨hfits.1, List.forall_mem_cons.mpr ⟨⟨lock, rfl⟩, hfits.2⟩⟩
    exact hm.move hask rfl rfl (by simp [hpc]) (by simp [Hart.ask, Hart.goto])
  | release h lock hpc =>
    have hfits := (hm.harts h).fits
    rw [hpc] at hfits
    refine hm.release ?_ hcontract (by simp [hpc]) (by simp)
    rw [release_self]
    exact (hm.harts h).release (by simp [hpc]) (by simp [hpc, extra]) hcontract rfl
      ⟨hfits.1, fun l hl => hfits.2 l (List.mem_of_mem_erase hl)⟩
  | giveUpNull h hpc hcur | sleepNull h channel lock hpc hcur =>
    exact hm.move (HartOk.fault _) rfl rfl (by simp [hpc]) (by simp [Hart.goto])
  | giveUp h p hpc hcur =>
    obtain ⟨hthread, hto⟩ := hbound p hcur
    exact call_good hm hpc trivial ⟨hthread, by rw [hcontract], hto⟩
  | sleep h channel lock p hpc hcur =>
    obtain ⟨hthread, hto⟩ := hbound p hcur
    exact call_good hm hpc trivial ⟨hthread, by rw [hcontract], hto⟩
  | wakeup h channel hpc =>
    have hfits := (hm.harts h).fits
    rw [hpc] at hfits
    have hgoto : HartOk ((m.harts h).goto (.wake channel (List.finRange 64))) :=
      (hm.harts h).goto (by simp [hpc]) (by simp [hpc, extra]) hfits
    exact hm.move hgoto rfl rfl (by simp [hpc]) (by simp [Hart.goto])

/-- The hand-over of the process locks, over whole runs: as long as `cur_proc()` is right where it
is not null, no process is executed by two harts. -/
theorem always_good {as : List (Act H C L)} (hm : Good m)
    (h : Meets step (fun m a => Contract m a ∧ BoundCall m a) m as) : Always step Good m as :=
  always_of_meets (fun _ _ _ hI hok hs => step_good hI hok.1 hok.2 hs) hm h

end Step

end Raynix.HandOver
