import Mathlib.Logic.Function.Basic
import Mathlib.Order.Basic

namespace Raynix.Lib.BumpAllocator

variable {P : Type*} {addr addr' : P → Nat} {used used' : P → Prop} {lo hi : Nat}

/-- The places in use have pairwise different addresses in `[lo, hi)`; `hi` is the next one that a
bump allocator gives out. -/
structure Bump (addr : P → Nat) (used : P → Prop) (lo hi : Nat) : Prop where
  lo_le : ∀ p, used p → lo ≤ addr p
  lt_hi : ∀ p, used p → addr p < hi
  inj : ∀ p q, used p → used q → addr p = addr q → p = q

theorem Bump.of_forall_not (h : ∀ p, ¬used p) : Bump addr used lo hi :=
  ⟨fun p hp => (h p hp).elim, fun p hp => (h p hp).elim, fun p _ hp => (h p hp).elim⟩

theorem Bump.congr (h : Bump addr used lo hi) (hu : ∀ p, used' p → used p)
    (ha : ∀ p, used' p → addr' p = addr p) : Bump addr' used' lo hi where
  lo_le p hp := ha p hp ▸ h.lo_le p (hu p hp)
  lt_hi p hp := ha p hp ▸ h.lt_hi p (hu p hp)
  inj p q hp hq hpq := h.inj p q (hu p hp) (hu q hq) (ha p hp ▸ ha q hq ▸ hpq)

theorem Bump.bump (h : Bump addr used lo hi) {r : P} (hlo : lo ≤ hi)
    (hu : ∀ p, used' p → p = r ∨ used p) (ha : ∀ p, used' p → p ≠ r → addr' p = addr p)
    (hr : addr' r = hi) : Bump addr' used' lo (hi + 1) := by
  have hold : ∀ p, used' p → p ≠ r → lo ≤ addr' p ∧ addr' p < hi := by
    intro p hp hpr
    have hup : used p := (hu p hp).resolve_left hpr
    rw [ha p hp hpr]
    exact ⟨h.lo_le p hup, h.lt_hi p hup⟩
  refine ⟨?_, ?_, ?_⟩
  · intro p hp
    by_cases hpr : p = r
    · rwa [hpr, hr]
    · exact (hold p hp hpr).1
  · intro p hp
    by_cases hpr : p = r
    · rw [hpr, hr]
      exact Nat.lt_succ_self hi
    · exact Nat.lt_succ_of_lt (hold p hp hpr).2
  · intro p q hp hq hpq
    by_cases hpr : p = r
    · by_cases hqr : q = r
      · rw [hpr, hqr]
      · have := (hold q hq hqr).2
        rw [← hpq, hpr, hr] at this
        exact absurd this (Nat.lt_irrefl hi)
    · by_cases hqr : q = r
      · have := (hold p hp hpr).2
        rw [hpq, hqr, hr] at this
        exact absurd this (Nat.lt_irrefl hi)
      · apply h.inj p q ((hu p hp).resolve_left hpr) ((hu q hq).resolve_left hqr)
        rw [← ha p hp hpr, ← ha q hq hqr, hpq]

end Raynix.Lib.BumpAllocator
