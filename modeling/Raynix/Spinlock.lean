import Mathlib.Logic.Function.Basic
import Raynix.Lib.Transition

namespace Raynix.Spinlock

open Raynix.Lib.Transition

/-- `SSTATUS_SIE`, the supervisor interrupt enable. -/
def sstatusSie : BitVec 64 := 1#64 <<< 1

/-- A hart: its `sstatus` register and the fields of `cpus[hart]` used by the locks.
An `int` is a two's complement `BitVec 32`. -/
structure Hart where
  sstatus : BitVec 64
  interruptDisabled : BitVec 32
  lockLayer : BitVec 32
  curProc : BitVec 64

def pushInterOff (h : Hart) : Hart :=
  let layer := h.lockLayer
  -- `==` binds tighter than `&`: the status word is masked with `SSTATUS_SIE == 0`.
  let disabled := if h.sstatus &&& (if sstatusSie = 0 then 1 else 0) ≠ 0 ∨ layer = 0 then 1 else 0
  let sstatus := if layer = 0 then h.sstatus ||| ~~~sstatusSie else h.sstatus
  { h with interruptDisabled := disabled, sstatus := sstatus, lockLayer := layer + 1 }

def popInterOff (h : Hart) : Hart :=
  let layer := h.lockLayer - 1
  if layer = 0 ∧ h.interruptDisabled = 0 then
    { h with lockLayer := layer, sstatus := h.sstatus ||| sstatusSie }
  else { h with lockLayer := layer }

/-- Where a hart stands: between calls, in the exchange loop of `acquire`, in `release` after
its exchange, or in `cur_proc` after its push. -/
inductive Pc (L : Type)
  | idle
  | spin (lock : L)
  | released
  | curProc
  deriving DecidableEq

/-- All harts and lock words. `pending` is ghost: the pushes of a hart not yet popped. -/
structure Machine (H L : Type) where
  harts : H → Hart
  available : L → BitVec 32
  pc : H → Pc L
  returned : H → BitVec 64
  pending : H → Nat

inductive Act (H L : Type)
  | push (h : H)
  | pop (h : H)
  | acquire (h : H) (lock : L)
  | exchange (h : H)
  | release (h : H) (lock : L)
  | curProc (h : H)
  | finish (h : H)

variable {H L : Type} [DecidableEq H] [DecidableEq L]

def Machine.push (m : Machine H L) (h : H) : Machine H L :=
  { m with
    harts := Function.update m.harts h (pushInterOff (m.harts h))
    pending := Function.update m.pending h (m.pending h + 1) }

def Machine.pop (m : Machine H L) (h : H) : Machine H L :=
  { m with
    harts := Function.update m.harts h (popInterOff (m.harts h))
    pending := Function.update m.pending h (m.pending h - 1) }

def Machine.goto (m : Machine H L) (h : H) (pc : Pc L) : Machine H L :=
  { m with pc := Function.update m.pc h pc }

/-- `__sync_lock_test_and_set(&(lock->available), value)`, without its result. -/
def Machine.exchange (m : Machine H L) (lock : L) (value : BitVec 32) : Machine H L :=
  { m with available := Function.update m.available lock value }

def spinlockInit (m : Machine H L) (lock : L) : Machine H L :=
  { m with available := Function.update m.available lock 1 }

/-- One atomic action of one hart. A pop needs an earlier push of that hart to match. -/
def step (m : Machine H L) : Act H L → Option (Machine H L)
  | .push h => if m.pc h = .idle then some (m.push h) else none
  | .pop h => if m.pc h = .idle ∧ 0 < m.pending h then some (m.pop h) else none
  | .acquire h lock => if m.pc h = .idle then some ((m.push h).goto h (.spin lock)) else none
  | .exchange h =>
    match m.pc h with
    | .spin lock =>
      some ((m.exchange lock 0).goto h (if m.available lock = 0 then .spin lock else .idle))
    | _ => none
  | .release h lock => if m.pc h = .idle then some ((m.exchange lock 1).goto h .released) else none
  | .curProc h => if m.pc h = .idle then some ((m.push h).goto h .curProc) else none
  | .finish h =>
    if 0 < m.pending h then
      match m.pc h with
      | .released => some ((m.pop h).goto h .idle)
      | .curProc =>
        some ({ (m.pop h).goto h .idle with
          returned := Function.update m.returned h (m.harts h).curProc })
      | _ => none
    else none

inductive InterOp
  | push
  | pop
  deriving DecidableEq

def InterOp.apply : InterOp → Hart → Hart
  | .push => pushInterOff
  | .pop => popInterOff

def InterOp.depth : InterOp → Nat → Option Nat
  | .push, n => some (n + 1)
  | .pop, n => if 0 < n then some (n - 1) else none

/-- The push or pop, if any, that an action makes on hart `k`. -/
def interOp (k : H) : Act H L → Option InterOp
  | .push h | .acquire h _ | .curProc h => if h = k then some .push else none
  | .pop h | .finish h => if h = k then some .pop else none
  | .exchange _ | .release _ _ => none

def interOps (k : H) (as : List (Act H L)) : List InterOp := as.filterMap (interOp k)

def runOps (h : Hart) (ops : List InterOp) : Hart := ops.foldl (fun h op => op.apply h) h

def depth (n : Nat) (ops : List InterOp) : Option Nat := ops.foldlM (fun n op => op.depth n) n

omit [DecidableEq L] in
@[simp]
theorem goto_harts (m : Machine H L) (h : H) (pc : Pc L) : (m.goto h pc).harts = m.harts := rfl

omit [DecidableEq L] in
@[simp]
theorem goto_pending (m : Machine H L) (h : H) (pc : Pc L) :
    (m.goto h pc).pending = m.pending := rfl

omit [DecidableEq H] in
@[simp]
theorem exchange_harts (m : Machine H L) (lock : L) (v : BitVec 32) :
    (m.exchange lock v).harts = m.harts := rfl

omit [DecidableEq H] in
@[simp]
theorem exchange_pending (m : Machine H L) (lock : L) (v : BitVec 32) :
    (m.exchange lock v).pending = m.pending := rfl

omit [DecidableEq L] in
theorem push_harts (m : Machine H L) (h k : H) :
    (m.push h).harts k = if h = k then pushInterOff (m.harts k) else m.harts k := by
  by_cases hk : h = k
  · subst k; simp [Machine.push]
  · simp [Machine.push, hk, Ne.symm hk]

omit [DecidableEq L] in
theorem push_pending (m : Machine H L) (h k : H) :
    (m.push h).pending k = if h = k then m.pending k + 1 else m.pending k := by
  by_cases hk : h = k
  · subst k; simp [Machine.push]
  · simp [Machine.push, hk, Ne.symm hk]

omit [DecidableEq L] in
theorem pop_harts (m : Machine H L) (h k : H) :
    (m.pop h).harts k = if h = k then popInterOff (m.harts k) else m.harts k := by
  by_cases hk : h = k
  · subst k; simp [Machine.pop]
  · simp [Machine.pop, hk, Ne.symm hk]

omit [DecidableEq L] in
theorem pop_pending (m : Machine H L) (h k : H) :
    (m.pop h).pending k = if h = k then m.pending k - 1 else m.pending k := by
  by_cases hk : h = k
  · subst k; simp [Machine.pop]
  · simp [Machine.pop, hk, Ne.symm hk]

theorem step_hart {m m' : Machine H L} {a : Act H L} (h : step m a = some m') (k : H) :
    (interOp k a = none ∧ m'.harts k = m.harts k ∧ m'.pending k = m.pending k) ∨
      ∃ op, interOp k a = some op ∧ m'.harts k = op.apply (m.harts k) ∧
        op.depth (m.pending k) = some (m'.pending k) := by
  cases a with
  | push g | acquire g lock | curProc g =>
    simp only [step, Option.ite_none_right_eq_some, Option.some.injEq] at h
    obtain ⟨_, rfl⟩ := h
    by_cases hk : g = k <;>
      simp [interOp, InterOp.apply, InterOp.depth, push_harts, push_pending, hk]
  | pop g =>
    simp only [step, Option.ite_none_right_eq_some, Option.some.injEq] at h
    obtain ⟨⟨_, hp⟩, rfl⟩ := h
    by_cases hk : g = k
    · subst g; simp [interOp, InterOp.apply, InterOp.depth, pop_harts, pop_pending, hp]
    · simp [interOp, pop_harts, pop_pending, hk]
  | exchange g =>
    simp only [step] at h
    split at h
    · simp only [Option.some.injEq] at h
      subst m'
      simp [interOp]
    · cases h
  | release g lock =>
    simp only [step, Option.ite_none_right_eq_some, Option.some.injEq] at h
    obtain ⟨_, rfl⟩ := h
    simp [interOp]
  | finish g =>
    simp only [step, Option.ite_none_right_eq_some] at h
    obtain ⟨hp, h⟩ := h
    split at h
    all_goals cases h
    all_goals
      by_cases hk : g = k
      · subst g; simp [interOp, InterOp.apply, InterOp.depth, pop_harts, pop_pending, hp]
      · simp [interOp, pop_harts, pop_pending, hk]

theorem run_hart {m u : Machine H L} {as : List (Act H L)} (h : run step m as = some u) (k : H) :
    u.harts k = runOps (m.harts k) (interOps k as) ∧
      depth (m.pending k) (interOps k as) = some (u.pending k) := by
  induction as generalizing m with
  | nil =>
    simp only [run_nil, Option.some.injEq] at h
    subst u
    exact ⟨rfl, rfl⟩
  | cons a as ih =>
    obtain ⟨t, ht, hu⟩ := run_cons_eq_some.mp h
    obtain ⟨ihh, ihd⟩ := ih hu
    obtain ⟨hop, hh, hd⟩ | ⟨op, hop, hh, hd⟩ := step_hart ht k
    · have hops : interOps k (a :: as) = interOps k as := List.filterMap_cons_none hop
      rw [hops, ← hh, ← hd]
      exact ⟨ihh, ihd⟩
    · have hops : interOps k (a :: as) = op :: interOps k as := List.filterMap_cons_some hop
      rw [hops]
      refine ⟨by rw [ihh, hh]; rfl, ?_⟩
      simp only [depth, List.foldlM_cons, hd, Option.bind_eq_bind, Option.bind_some]
      exact ihd

end Raynix.Spinlock
