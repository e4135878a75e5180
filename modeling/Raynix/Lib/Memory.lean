import Mathlib.Data.BitVec
import Mathlib.Logic.Function.Basic

namespace Raynix.Lib.Memory

abbrev Addr := BitVec 64

abbrev Byte := BitVec 8

abbrev Word := BitVec 64

instance : LawfulBEq Addr := inferInstance

/-- A flat byte memory. -/
abbrev Mem := Addr → Byte

/-- The little-endian word at `a`. -/
def readWord (m : Mem) (a : Addr) : Word :=
  m (a + 7) ++ m (a + 6) ++ m (a + 5) ++ m (a + 4) ++ m (a + 3) ++ m (a + 2) ++ m (a + 1) ++ m a

def writeWord (m : Mem) (a : Addr) (w : Word) : Mem := fun b =>
  if (b - a).toNat < 8 then w.extractLsb' (8 * (b - a).toNat) 8 else m b

/-- Store `v` to `n` bytes from `a` on, one after the other. -/
def fill (m : Mem) (a : Addr) (v : Byte) : Nat → Mem
  | 0 => m
  | n + 1 => Function.update (fill m a v n) (a + BitVec.ofNat 64 n) v

theorem fill_apply (m : Mem) (a b : Addr) (v : Byte) {n : Nat} (hn : n ≤ 2 ^ 64) :
    fill m a v n b = if (b - a).toNat < n then v else m b := by
  induction n with
  | zero => rfl
  | succ n ih =>
    rw [fill]
    by_cases hb : b = a + BitVec.ofNat 64 n
    · subst hb
      rw [Function.update_self, if_pos]
      bv_omega
    · rw [Function.update_of_ne hb, ih (by omega)]
      exact if_congr (by bv_omega) rfl rfl

theorem readWord_congr {m m' : Mem} {a : Addr} (h : ∀ b, (b - a).toNat < 8 → m' b = m b) :
    readWord m' a = readWord m a := by
  have hb : ∀ k : Addr, k.toNat < 8 → m' (a + k) = m (a + k) := by
    intro k hk
    apply h
    rwa [add_sub_cancel_left]
  have h0 := h a (by simp)
  rw [readWord, hb 7, hb 6, hb 5, hb 4, hb 3, hb 2, hb 1, h0]
  · rfl
  all_goals decide

theorem readWord_writeWord (m : Mem) (a : Addr) (w : Word) : readWord (writeWord m a w) a = w := by
  have hb : ∀ k : Addr, k.toNat < 8 →
      writeWord m a w (a + k) = w.extractLsb' (8 * k.toNat) 8 := by
    intro k hk
    rw [writeWord, add_sub_cancel_left, if_pos hk]
  have h0 := hb 0 (by decide)
  rw [BitVec.ofNat_eq_ofNat, BitVec.add_zero] at h0
  rw [readWord, hb 7, hb 6, hb 5, hb 4, hb 3, hb 2, hb 1, h0]
  · iterate 7 rw [BitVec.extractLsb'_append_extractLsb'_eq_extractLsb' (by decide)]
    exact BitVec.extractLsb'_eq_self
  all_goals decide

theorem readWord_zero {m : Mem} {a : Addr} (h : ∀ b, (b - a).toNat < 8 → m b = 0) :
    readWord m a = 0 := by
  have hc : readWord m a = readWord (fun _ => 0) a := readWord_congr h
  rw [hc, readWord]
  decide

/-- The page an address lies in. -/
def pageNo (a : Addr) : Nat := a.toNat / 4096

def Aligned (f : Addr) : Prop := f.toNat % 4096 = 0

instance (f : Addr) : Decidable (Aligned f) := inferInstanceAs (Decidable (_ = _))

theorem Aligned.pageNo_inj {f g : Addr} (hf : Aligned f) (hg : Aligned g) :
    pageNo f = pageNo g ↔ f = g := by
  unfold Aligned at hf hg
  unfold pageNo
  bv_omega

/-- The two memories differ at most in the page of `f`. -/
def AgreeOff (f : Addr) (m m' : Mem) : Prop := ∀ b, pageNo b ≠ pageNo f → m' b = m b

theorem AgreeOff.trans {f : Addr} {m m' m'' : Mem} (h : AgreeOff f m m') (h' : AgreeOff f m' m'') :
    AgreeOff f m m'' :=
  fun b hb => (h' b hb).trans (h b hb)

theorem Aligned.mem_iff {f : Addr} (hf : Aligned f) (b : Addr) :
    (b - f).toNat < 4096 ↔ pageNo b = pageNo f := by
  unfold Aligned at hf
  unfold pageNo
  bv_omega

theorem fill_page {m : Mem} {f : Addr} {v : Byte} (hf : Aligned f) (b : Addr) :
    fill m f v 4096 b = if pageNo b = pageNo f then v else m b := by
  rw [fill_apply m f b v (by decide)]
  exact if_congr (hf.mem_iff b) rfl rfl

theorem agreeOff_fill {m : Mem} {f : Addr} {v : Byte} (hf : Aligned f) :
    AgreeOff f m (fill m f v 4096) := by
  intro b hb
  rw [fill_page hf, if_neg hb]

/-- The address of word `i` of the page `t`. -/
def slot (t : Addr) (i : BitVec 9) : Addr := t + 8 * i.setWidth 64

theorem slot_zero (t : Addr) : slot t 0 = t := by
  rw [slot]
  simp

theorem slot_inj {t u : Addr} {i j : BitVec 9} (ht : Aligned t) (hu : Aligned u) :
    slot t i = slot u j ↔ t = u ∧ i = j := by
  unfold Aligned at ht hu
  unfold slot
  bv_omega

theorem mem_slot_iff {t : Addr} (ht : Aligned t) (i : BitVec 9) (b : Addr) :
    (b - slot t i).toNat < 8 ↔ b.toNat / 8 = t.toNat / 8 + i.toNat := by
  unfold Aligned at ht
  unfold slot
  bv_omega

theorem pageNo_of_mem_slot {t : Addr} (ht : Aligned t) {i : BitVec 9} {b : Addr}
    (hb : (b - slot t i).toNat < 8) : pageNo b = pageNo t := by
  rw [mem_slot_iff ht] at hb
  unfold Aligned at ht
  unfold pageNo
  bv_omega

/-- Word `i` of the page `t`. -/
def entry (m : Mem) (t : Addr) (i : BitVec 9) : Word := readWord m (slot t i)

theorem entry_congr {m m' : Mem} {f t : Addr} (h : AgreeOff f m m') (ht : Aligned t)
    (hf : Aligned f) (hne : t ≠ f) (i : BitVec 9) : entry m' t i = entry m t i := by
  apply readWord_congr
  intro b hb
  apply h
  rw [pageNo_of_mem_slot ht hb]
  exact fun he => hne ((ht.pageNo_inj hf).mp he)

theorem entry_writeWord (m : Mem) (t : Addr) (i : BitVec 9) (w : Word) :
    entry (writeWord m (slot t i) w) t i = w := readWord_writeWord _ _ _

theorem agreeOff_writeWord {m : Mem} {t : Addr} {i : BitVec 9} {w : Word} (ht : Aligned t) :
    AgreeOff t m (writeWord m (slot t i) w) := by
  intro b hb
  exact if_neg (fun hs => hb (pageNo_of_mem_slot ht hs))

theorem entry_writeWord_of_ne {m : Mem} {t : Addr} {i j : BitVec 9} {w : Word} (ht : Aligned t)
    (hij : j ≠ i) : entry (writeWord m (slot t i) w) t j = entry m t j := by
  apply readWord_congr
  intro b hb
  apply if_neg
  rw [mem_slot_iff ht] at hb ⊢
  bv_omega

theorem entry_fill_zero {m : Mem} {t : Addr} (ht : Aligned t) (i : BitVec 9) :
    entry (fill m t 0 4096) t i = 0 := by
  apply readWord_zero
  intro b hb
  rw [fill_page ht, if_pos (pageNo_of_mem_slot ht hb)]

end Raynix.Lib.Memory
