import Mathlib.Data.BitVec
import Mathlib.Logic.Function.Basic

namespace Raynix.Lib.Bytes

abbrev Byte := BitVec 8

/-- The bytes of a block, by offset. -/
abbrev Buf := Nat → Byte

/-- Byte `j` of a word in little-endian order. -/
def byteOf {w : Nat} (x : BitVec w) (j : Nat) : Byte := x.extractLsb' (8 * j) 8

def read16 (b : Buf) (o : Nat) : BitVec 16 := b (o + 1) ++ b o

def read32 (b : Buf) (o : Nat) : BitVec 32 := b (o + 3) ++ b (o + 2) ++ b (o + 1) ++ b o

def write32 (b : Buf) (o : Nat) (x : BitVec 32) : Buf := fun a =>
  if o ≤ a ∧ a < o + 4 then byteOf x (a - o) else b a

/-- Copy the bytes `p` to `b` from offset `o` on. -/
def copy (b : Buf) (o : Nat) (p : List Byte) : Buf := fun a =>
  if o ≤ a then p.getD (a - o) (b a) else b a

theorem read16_congr {b b' : Buf} {o o' : Nat} (h : ∀ j < 2, b (o + j) = b' (o' + j)) :
    read16 b o = read16 b' o' := by
  rw [read16, read16, h 1 (by decide)]
  exact congrArg _ (h 0 (by decide))

theorem read32_congr {b b' : Buf} {o o' : Nat} (h : ∀ j < 4, b (o + j) = b' (o' + j)) :
    read32 b o = read32 b' o' := by
  rw [read32, read32, h 3 (by decide), h 2 (by decide), h 1 (by decide)]
  exact congrArg _ (h 0 (by decide))

theorem read16_eq {b : Buf} {o : Nat} {x : BitVec 16} (h : ∀ j < 2, b (o + j) = byteOf x j) :
    read16 b o = x := by
  have h0 := h 0 (by decide)
  rw [Nat.add_zero] at h0
  rw [read16, h 1 (by decide), h0]
  simp only [byteOf]
  ext i hi
  simp only [BitVec.getElem_append, BitVec.getElem_extractLsb']
  grind

theorem read32_eq {b : Buf} {o : Nat} {x : BitVec 32} (h : ∀ j < 4, b (o + j) = byteOf x j) :
    read32 b o = x := by
  have h0 := h 0 (by decide)
  rw [Nat.add_zero] at h0
  rw [read32, h 3 (by decide), h 2 (by decide), h 1 (by decide), h0]
  simp only [byteOf]
  ext i hi
  simp only [BitVec.getElem_append, BitVec.getElem_extractLsb']
  grind

theorem read32_write32 (b : Buf) (o : Nat) (x : BitVec 32) : read32 (write32 b o x) o = x := by
  apply read32_eq
  intro j hj
  rw [write32, if_pos ⟨by omega, by omega⟩, Nat.add_sub_cancel_left]

theorem read32_write32_of_ne (b : Buf) {o o' : Nat} (x : BitVec 32)
    (h : o' + 4 ≤ o ∨ o + 4 ≤ o') : read32 (write32 b o x) o' = read32 b o' := by
  apply read32_congr
  intro j hj
  rw [write32, if_neg (by omega)]

theorem read32_zero {b : Buf} {o : Nat} (h : ∀ j < 4, b (o + j) = 0) : read32 b o = 0 :=
  read32_eq fun j hj => by rw [h j hj, byteOf]; simp

theorem copy_apply_of_lt (b : Buf) {o a : Nat} (p : List Byte) (h : a < o) :
    copy b o p a = b a := by
  rw [copy, if_neg (by omega)]

theorem copy_apply_add (b : Buf) (o : Nat) {p : List Byte} {k : Nat} (h : k < p.length) :
    copy b o p (o + k) = p[k] := by
  rw [copy, if_pos (by omega), Nat.add_sub_cancel_left, List.getD_eq_getElem?_getD,
    List.getElem?_eq_getElem h, Option.getD_some]

end Raynix.Lib.Bytes
