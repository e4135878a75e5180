import Raynix.LockRules

namespace Raynix.LockDiscipline

open Raynix.Kernel Raynix.Lib.Command Raynix.Lib.Transition Raynix.LockRules

/-- The calls a process makes here. -/
def ProcessCall : Fn → Prop
  | .pipeRead _ _ _ | .pipeWrite _ _ _ | .begainOp | .acquireSleep _ | .releaseSleep _
  | .bread _ _ | .bwrite _ | .brelease _ => True
  | _ => False

/-- The calls that thread `t` is in when it is about to call `enter_sched`. -/
def schedPath (s : State) (t : Nat) : Option (List Fn) :=
  match advance s.data (s.thread t).stack with
  | some (.op .enterSched st) => some (path st)
  | _ => none

/-- The hart is at layer 1 and the thread holds the lock of process `p` and no other one. -/
def Alone (l : Locks) (p : Fin 64) : Prop := l.layer = 1 ∧ l.held = {.proc p}

def OwnLockOnly (cur : Option (Fin 64)) (l : Locks) : Prop := ∃ p, cur = some p ∧ Alone l p

variable {m : Macros} {cur : Nat → Option (Fin 64)}

/-- Whoever has reached `enter_sched` holds its own lock only. -/
def Discipline (cur : Nat → Option (Fin 64)) (s : State) : Prop :=
  ∀ t ns, schedPath s t = some ns → OwnLockOnly (cur t) (s.thread t).locks

def InBget (ns : List Fn) : Prop := ∃ dev blockNo, .bget dev blockNo ∈ ns

/-- Nobody has reached `enter_sched` from inside `bget`. -/
def NoSleepInBget (s : State) : Prop := ∀ t ns, schedPath s t = some ns → ¬ InBget ns

def sched (cur : Option (Fin 64)) : Spec Prim Fn Locks :=
  lockSpec (fun ns l => OwnLockOnly cur l ↔ ¬ InBget ns) (fun _ _ _ => True)

theorem maySleep {cur : Option (Fin 64)} {ns : List Fn}
    (hns : ∀ dev blockNo, .bget dev blockNo ∉ ns) :
    MaySleep (fun ns l => OwnLockOnly cur l ↔ ¬ InBget ns) cur ns noLocks := by
  intro p channel lock hp
  refine iff_of_true ⟨p, hp, rfl, rfl⟩ ?_
  rintro ⟨dev, blockNo, h⟩
  obtain h | h := List.mem_cons.mp h
  · cases h
  · exact hns dev blockNo h

theorem maySleep_bget {cur : Option (Fin 64)} {ns : List Fn} {dev blockNo : BitVec 32}
    (hns : .bget dev blockNo ∈ ns) :
    MaySleep (fun ns l => OwnLockOnly cur l ↔ ¬ InBget ns) cur ns (take .cache noLocks) := by
  intro p channel lock _
  refine iff_of_false ?_ (not_not.mpr ⟨dev, blockNo, List.mem_cons_of_mem _ hns⟩)
  rintro ⟨q, -, hlayer, -⟩
  have hne : (0 : BitVec 32) + 1 + 1 ≠ 1 := by decide
  exact hne hlayer

theorem wlp_code (t : Nat) (cur : Option (Fin 64)) {f : Fn} (hf : ProcessCall f) :
    wlp (sched cur) (code m t cur f) [f]
      ⟨(· = noLocks), fun _ => False, fun _ => (· = noLocks)⟩ noLocks := by
  cases f with
  | pipeWrite pi startAddr len => exact wlp_pipeWrite (maySleep (by simp)) rfl rfl
  | pipeRead pi target len => exact wlp_pipeRead (maySleep (by simp)) fun _ => rfl
  | begainOp => exact wlp_begainOp (maySleep (by simp)) rfl
  | acquireSleep sllk => exact wlp_acquireSleep (maySleep (by simp)) rfl
  | releaseSleep sllk => exact wlp_releaseSleep rfl
  | bread dev blockNo =>
    have hbget : ∀ i : Fin 30, .bget dev blockNo ∈
        [.acquireSleep (.buffer i), .bget dev blockNo, Fn.bread dev blockNo] := by simp
    exact wlp_bread (fun _ => maySleep (by simp)) (fun i => maySleep_bget (hbget i)) fun _ => rfl
  | bwrite buffer => exact wlp_bwrite (maySleep (by simp)) rfl
  | brelease buffer => exact wlp_brelease rfl
  | _ => exact hf.elim

theorem entry_sched (t : Nat) (cur : Option (Fin 64)) {f : Fn} (hf : ProcessCall f) :
    Safe (sched cur) (· = noLocks) (entry m t cur f) noLocks := by
  refine entry_safe (wlp_mono ⟨?_, ?_, ?_⟩ (wlp_code t cur hf))
  · exact fun _ h => ⟨h, trivial⟩
  · exact fun _ h => h
  · exact fun _ _ h => ⟨h, trivial⟩

/-- Every process keeps to the rules, and it is without a lock outside the calls. -/
def Inv (cur : Nat → Option (Fin 64)) (s : State) : Prop :=
  ∀ t, Safe (sched (cur t)) (· = noLocks) (s.thread t).stack (s.thread t).locks

def CallsOnly (_ : State) (a : Act) : Prop := ∀ t f, a = .call t f → ProcessCall f

theorem step_inv {s s' : State} {a : Act} (hs : Inv cur s) (ha : CallsOnly s a)
    (h : step m cur s a = some s') : Inv cur s' := by
  intro t
  by_cases hcall : ∃ f, a = .call t f
  · obtain ⟨f, rfl⟩ := hcall
    have hidle := hs t
    rw [(step_call h).1] at hidle
    rw [(step_call h).2, hidle]
    exact entry_sched t (cur t) (ha t f rfl)
  · exact (step_safe h (fun f hf => hcall ⟨f, hf⟩) (hs t)).1

theorem discipline_iff_noSleepInBget {s : State} (hs : Inv cur s) :
    Discipline cur s ↔ NoSleepInBget s := by
  refine forall₃_congr fun t ns hsched => ?_
  simp only [schedPath] at hsched
  split at hsched
  case h_1 st hadvance =>
    cases hsched
    exact (advance_op hadvance (hs t)).2
  case h_2 => cases hsched

/-- From a state in which no process is in a call or holds a lock, over any interleaving of these
calls, whoever reaches `enter_sched` is at layer 1 with its own lock only, exactly as long as nobody
reaches it from inside `bget`. -/
theorem discipline_iff {s : State} {as : List Act}
    (hs : ∀ t, (s.thread t).stack = [] ∧ (s.thread t).locks = noLocks)
    (hcalls : ∀ t f, .call t f ∈ as → ProcessCall f) :
    Always (step m cur) (Discipline cur) s as ↔ Always (step m cur) NoSleepInBget s as := by
  have hinv : Inv cur s := by
    intro t
    rw [(hs t).1]
    exact (hs t).2
  have hside : Meets (step m cur) CallsOnly s as :=
    meets_of_forall fun a ha _ t f hf => hcalls t f (hf ▸ ha)
  exact always_iff_always (fun _ _ _ hI ha h => step_inv hI ha h)
    (fun _ hI => discipline_iff_noSleepInBget hI) hinv hside

/-- The buffers linked, all locks free and every process outside the calls. -/
def freeCache : State :=
  idleState { zeroData with cache := BufferCache.binit zeroData.cache } 1

/-- Process 0 reads block 0, up to the first `enter_sched`. -/
def firstRead : List Act := .call 0 (.bread 0 0) :: List.replicate 34 (.run 0)

theorem firstRead_calls (t : Nat) (f : Fn) (h : .call t f ∈ firstRead) : ProcessCall f := by
  obtain h | h := List.mem_cons.mp h
  · cases h
    trivial
  · cases List.eq_of_mem_replicate h

theorem discipline_iff_firstRead :
    Always (step someMacros fun _ => some 0) (Discipline fun _ => some 0) freeCache firstRead ↔
      Always (step someMacros fun _ => some 0) NoSleepInBget freeCache firstRead :=
  discipline_iff (fun _ => ⟨rfl, rfl⟩) firstRead_calls

theorem firstRead_enterSched : (run (step someMacros fun _ => some 0) freeCache firstRead).map
    (fun s => ((schedPath s 0).isSome, (s.thread 0).locks.layer)) = some (true, 2) := by
  decide +kernel

/-- The first read of a block gets to `enter_sched` at layer 2. -/
theorem not_discipline : ¬ ∀ (s : State) (as : List Act),
    (∀ t, (s.thread t).stack = [] ∧ (s.thread t).locks = noLocks) →
    (∀ t f, .call t f ∈ as → ProcessCall f) →
    Always (step someMacros fun _ => some 0) (Discipline fun _ => some 0) s as := by
  intro h
  have halways := h freeCache firstRead (fun _ => ⟨rfl, rfl⟩) firstRead_calls
  obtain ⟨s, hrun, hs⟩ := Option.map_eq_some_iff.mp firstRead_enterSched
  obtain ⟨ns, hns⟩ := Option.isSome_iff_exists.mp (congrArg Prod.fst hs)
  obtain ⟨p, -, hlayer, -⟩ := halways.final hrun 0 ns hns
  rw [show (s.thread 0).locks.layer = 2 from congrArg Prod.snd hs] at hlayer
  exact absurd hlayer (by decide)

end Raynix.LockDiscipline
