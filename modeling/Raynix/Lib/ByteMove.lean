import Raynix.Lib.Memory

namespace Raynix.Lib.ByteMove

open Raynix.Lib.Memory

/-- A memory in which bytes are moved one after the other. `moved` is ghost: the address read and
the address written by each move, latest first. -/
structure Moving where
  mem : Mem
  moved : List (Addr × Addr)

/-- `*d = *s` -/
def Moving.move (m : Moving) (d s : Addr) : Moving :=
  ⟨Function.update m.mem d (m.mem s), (s, d) :: m.moved⟩

/-- `n` rounds of `*d++ = *s++`. -/
def moveUp (m : Moving) (d s : Addr) : Nat → Moving
  | 0 => m
  | n + 1 => moveUp (m.move d s) (d + 1) (s + 1) n

/-- `n` rounds of `*--d = *--s`. -/
def moveDown (m : Moving) (d s : Addr) : Nat → Moving
  | 0 => m
  | n + 1 => moveDown (m.move (d - 1) (s - 1)) (d - 1) (s - 1) n

/-- The `n` bytes from `s` on have gone to `d` in one piece, and no other byte has changed. -/
structure Moved (m t : Mem) (d s : Addr) (n : Nat) : Prop where
  bytes : ∀ k < n, t (d + BitVec.ofNat 64 k) = m (s + BitVec.ofNat 64 k)
  others : ∀ b, (∀ k < n, b ≠ d + BitVec.ofNat 64 k) → t b = m b

theorem add_one_add (a : Addr) (k : Nat) :
    a + 1 + BitVec.ofNat 64 k = a + BitVec.ofNat 64 (k + 1) := by
  rw [BitVec.ofNat_add, BitVec.add_comm (BitVec.ofNat 64 k), ← BitVec.add_assoc]
  rfl

theorem add_ofNat_zero (a : Addr) : a + BitVec.ofNat 64 0 = a := BitVec.add_zero a

theorem add_ofNat_inj (a : Addr) {j k : Nat} (hj : j < 2 ^ 64) (hk : k < 2 ^ 64)
    (h : a + BitVec.ofNat 64 j = a + BitVec.ofNat 64 k) : j = k := by
  bv_omega

/-- Upwards, a byte must be read before its cell is written. -/
theorem moveUp_moved (m : Moving) (d s : Addr) {n : Nat} (hn : n ≤ 2 ^ 64)
    (hsafe : ∀ j k, j < k → k < n → s + BitVec.ofNat 64 k ≠ d + BitVec.ofNat 64 j) :
    Moved m.mem (moveUp m d s n).mem d s n := by
  induction n generalizing m d s with
  | zero => exact ⟨by simp, fun _ _ => rfl⟩
  | succ n ih =>
    have hrest : Moved (m.move d s).mem (moveUp m d s (n + 1)).mem (d + 1) (s + 1) n := by
      refine ih (m.move d s) (d + 1) (s + 1) (by omega) fun j k hjk hk => ?_
      rw [add_one_add, add_one_add]
      exact hsafe (j + 1) (k + 1) (by omega) (by omega)
    constructor
    · intro k hk
      cases k with
      | zero =>
        rw [hrest.others _ fun k hk he => ?_]
        · simp [Moving.move]
        · rw [add_one_add] at he
          have hzero := add_ofNat_inj d (by omega) (by omega) he
          omega
      | succ k =>
        have hunread : s + BitVec.ofNat 64 (k + 1) ≠ d := by
          have hd := hsafe 0 (k + 1) (by omega) hk
          rwa [add_ofNat_zero] at hd
        rw [← add_one_add, hrest.bytes k (by omega), add_one_add]
        exact Function.update_of_ne hunread _ _
    · intro b hb
      have hbd : b ≠ d := by
        have h0 := hb 0 (by omega)
        rwa [add_ofNat_zero] at h0
      rw [hrest.others b fun k hk => ?_]
      · exact Function.update_of_ne hbd _ _
      · rw [add_one_add]
        exact hb (k + 1) (by omega)

theorem add_succ_sub_one (a : Addr) (n : Nat) :
    a + BitVec.ofNat 64 (n + 1) - 1 = a + BitVec.ofNat 64 n := by
  rw [← add_one_add]
  bv_omega

/-- Downwards the order is the other way round. -/
theorem moveDown_moved (m : Moving) (d s : Addr) {n : Nat} (hn : n ≤ 2 ^ 64)
    (hsafe : ∀ j k, k < j → j < n → s + BitVec.ofNat 64 k ≠ d + BitVec.ofNat 64 j) :
    Moved m.mem (moveDown m (d + BitVec.ofNat 64 n) (s + BitVec.ofNat 64 n) n).mem d s n := by
  induction n generalizing m with
  | zero => exact ⟨by simp, fun _ _ => rfl⟩
  | succ n ih =>
    rw [moveDown, add_succ_sub_one, add_succ_sub_one]
    have hrest := ih (m.move (d + BitVec.ofNat 64 n) (s + BitVec.ofNat 64 n)) (by omega)
      fun j k hkj hj => hsafe j k hkj (by omega)
    constructor
    · intro k hk
      by_cases hkn : k = n
      · rw [hkn, hrest.others _ fun j hj he => ?_]
        · exact Function.update_self _ _ _
        · have hnj := add_ofNat_inj d (by omega) (by omega) he
          omega
      · rw [hrest.bytes k (by omega)]
        exact Function.update_of_ne (hsafe n k (by omega) (by omega)) _ _
    · intro b hb
      rw [hrest.others b fun k hk => hb k (by omega)]
      exact Function.update_of_ne (hb n (by omega)) _ _

theorem mem_moved_moveUp (m : Moving) (d s : Addr) (n : Nat) (x : Addr × Addr) :
    x ∈ (moveUp m d s n).moved ↔ (∃ k < n, x = (s + BitVec.ofNat 64 k, d + BitVec.ofNat 64 k)) ∨
      x ∈ m.moved := by
  induction n generalizing m d s with
  | zero => simp [moveUp]
  | succ n ih =>
    rw [moveUp, ih, Nat.exists_lt_succ_left, add_ofNat_zero, add_ofNat_zero, Moving.move,
      List.mem_cons, or_left_comm, or_assoc]
    simp only [add_one_add]

theorem mem_moved_moveDown (m : Moving) (d s : Addr) (n : Nat) (x : Addr × Addr) :
    x ∈ (moveDown m (d + BitVec.ofNat 64 n) (s + BitVec.ofNat 64 n) n).moved ↔
      (∃ k < n, x = (s + BitVec.ofNat 64 k, d + BitVec.ofNat 64 k)) ∨ x ∈ m.moved := by
  induction n generalizing m with
  | zero => simp [moveDown]
  | succ n ih =>
    rw [moveDown, add_succ_sub_one, add_succ_sub_one, ih, Nat.exists_lt_succ_right,
      Moving.move, List.mem_cons, or_assoc]

end Raynix.Lib.ByteMove
