import Raynix.Lib.ByteMove

namespace Raynix.Tools

open Raynix.Lib.Memory Raynix.Lib.ByteMove

def memmove (m : Mem) (dst src : Addr) (n : BitVec 32) : Moving :=
  if n = 0 then ⟨m, []⟩
  else
    let s := src
    let d := dst
    let n' : Addr := n.setWidth 64
    if s < d ∧ s + n' > d then moveDown ⟨m, []⟩ (d + n') (s + n') n.toNat
    else moveUp ⟨m, []⟩ d s n.toNat

theorem setWidth_eq_ofNat (n : BitVec 32) : n.setWidth 64 = BitVec.ofNat 64 n.toNat := by
  bv_omega

/-- `memmove` also moves overlapping ranges in one piece. The source may end at the top of the
address space, where `s + n` is 0, if the destination is not above it. -/
theorem memmove_moved (m : Mem) (dst src : Addr) {n : BitVec 32}
    (hsrc : src.toNat + n.toNat ≤ 2 ^ 64)
    (htop : src.toNat + n.toNat = 2 ^ 64 → dst.toNat ≤ src.toNat) :
    Moved m (memmove m dst src n).mem dst src n.toNat := by
  have hn := n.isLt
  rw [memmove]
  split
  case isTrue h0 =>
    subst h0
    exact ⟨by simp, fun _ _ => rfl⟩
  case isFalse =>
    simp only [setWidth_eq_ofNat]
    split
    case isTrue hback =>
      refine moveDown_moved ⟨m, []⟩ dst src (by omega) fun j k hkj hj => ?_
      obtain ⟨hlt, hend⟩ := hback
      bv_omega
    case isFalse hfwd =>
      refine moveUp_moved ⟨m, []⟩ dst src (by omega) fun j k hjk hk => ?_
      rw [not_and_or] at hfwd
      bv_omega

/-- `memmove` on two ranges in the address space, in whatever position to each other. -/
theorem memmove_range (m : Mem) {dst src : Addr} {n : BitVec 32}
    (hsrc : src.toNat + n.toNat ≤ 2 ^ 64) (hdst : dst.toNat + n.toNat ≤ 2 ^ 64) :
    (∀ i < n.toNat, (memmove m dst src n).mem (dst + BitVec.ofNat 64 i) =
      m (src + BitVec.ofNat 64 i)) ∧
    ∀ b : Addr, b.toNat < dst.toNat ∨ dst.toNat + n.toNat ≤ b.toNat →
      (memmove m dst src n).mem b = m b := by
  have htop : src.toNat + n.toNat = 2 ^ 64 → dst.toNat ≤ src.toNat := by omega
  have hmoved := memmove_moved m dst src hsrc htop
  refine ⟨hmoved.bytes, fun b hb => hmoved.others b ?_⟩
  rintro i hi rfl
  have hn := n.isLt
  have hcell : (dst + BitVec.ofNat 64 i).toNat = dst.toNat + i := by
    rw [BitVec.toNat_add, BitVec.toNat_ofNat]
    omega
  omega

/-- Each address holds its own low byte. -/
def lowBytes : Mem := fun b => b.setWidth 8

/-- A move of eight bytes by two. -/
theorem memmove_range_lowBytes :
    (∀ i < (8 : BitVec 32).toNat, (memmove lowBytes 0x1002 0x1000 8).mem
      (0x1002 + BitVec.ofNat 64 i) = lowBytes (0x1000 + BitVec.ofNat 64 i)) ∧
    ∀ b : Addr, b.toNat < (0x1002 : Addr).toNat ∨
      (0x1002 : Addr).toNat + (8 : BitVec 32).toNat ≤ b.toNat →
        (memmove lowBytes 0x1002 0x1000 8).mem b = lowBytes b :=
  memmove_range lowBytes (by decide) (by decide)

/-- Whatever the direction, `memmove` reads the source range and writes the destination range. -/
theorem mem_moved_memmove (m : Mem) (dst src : Addr) (n : BitVec 32) (x : Addr × Addr) :
    x ∈ (memmove m dst src n).moved ↔
      ∃ k < n.toNat, x = (src + BitVec.ofNat 64 k, dst + BitVec.ofNat 64 k) := by
  rw [memmove]
  split
  case isTrue h0 => simp [h0]
  case isFalse =>
    simp only [setWidth_eq_ofNat]
    split
    · rw [mem_moved_moveDown]
      simp
    · rw [mem_moved_moveUp]
      simp

end Raynix.Tools
