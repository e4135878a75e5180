import Mathlib.Data.BitVec
import Mathlib.Data.Nat.ModEq
import Mathlib.Logic.Function.Basic

namespace Raynix.Lib.CircularBuffer

variable {α : Type*} {n : Nat} [NeZero n]

/-- The cells of `buf` from position `start` on, modulo the size, hold the list `xs`. -/
def Holds (buf : Fin n → α) (start : Nat) (xs : List α) : Prop :=
  ∀ i, (h : i < xs.length) → buf (Fin.ofNat n (start + i)) = xs[i]

theorem ofNat_eq_iff (a b : Nat) : Fin.ofNat n a = Fin.ofNat n b ↔ a % n = b % n := by
  rw [Fin.ext_iff]
  rfl

theorem ofNat_add_ne {start i j : Nat} (hi : i < n) (hj : j < n) (hij : i ≠ j) :
    Fin.ofNat n (start + i) ≠ Fin.ofNat n (start + j) := by
  rw [Ne, ofNat_eq_iff]
  intro h
  have hm := Nat.ModEq.add_left_cancel' start h
  exact hij (by rwa [Nat.ModEq, Nat.mod_eq_of_lt hi, Nat.mod_eq_of_lt hj] at hm)

theorem holds_nil (buf : Fin n → α) (start : Nat) : Holds buf start [] := by
  intro i h
  cases h

theorem Holds.congr {buf : Fin n → α} {start start' : Nat} {xs : List α}
    (h : Holds buf start xs) (hs : start % n = start' % n) : Holds buf start' xs := by
  intro i hi
  rw [← h i hi]
  congr 1
  rw [ofNat_eq_iff, Nat.add_mod, ← hs, ← Nat.add_mod]

theorem Holds.push {buf : Fin n → α} {start : Nat} {xs : List α} (h : Holds buf start xs)
    (hroom : xs.length < n) (x : α) :
    Holds (Function.update buf (Fin.ofNat n (start + xs.length)) x) start (xs ++ [x]) := by
  intro i hi
  rw [List.length_append, List.length_singleton] at hi
  by_cases hlast : i = xs.length
  · subst i
    simp
  · have hlt : i < xs.length := by omega
    rw [Function.update_of_ne (ofNat_add_ne (by omega) hroom hlast), List.getElem_append_left hlt]
    exact h i hlt

theorem Holds.head {buf : Fin n → α} {start : Nat} {x : α} {xs : List α}
    (h : Holds buf start (x :: xs)) : buf (Fin.ofNat n start) = x :=
  h 0 (Nat.zero_lt_succ _)

theorem Holds.tail {buf : Fin n → α} {start : Nat} {x : α} {xs : List α}
    (h : Holds buf start (x :: xs)) : Holds buf (start + 1) xs := by
  intro i hi
  have hcell := h (i + 1) (Nat.succ_lt_succ hi)
  rwa [List.getElem_cons_succ, ← Nat.add_assoc, Nat.add_right_comm] at hcell

/-- The items put and not yet got lie in the cells after the one of `r`, and the cursors are
apart by their number. -/
def Buffered {k : Nat} (buf : Fin n → α) (r w : BitVec k) (put got : List α) : Prop :=
  ∃ queued, put = got ++ queued ∧ queued.length = (w - r).toNat ∧ queued.length ≤ n ∧
    Holds buf (r.toNat + 1) queued

section cursors

variable {k : Nat} {buf : Fin n → α} {r w : BitVec k} {put got : List α}

theorem toNat_one_of_lt (h : 1 < 2 ^ k) : (1 : BitVec k).toNat = 1 := by
  rw [BitVec.ofNat_eq_ofNat, BitVec.toNat_ofNat, Nat.mod_eq_of_lt h]

theorem toNat_add_one {c : BitVec k} (h : c.toNat + 1 < 2 ^ k) : (c + 1).toNat = c.toNat + 1 := by
  rw [BitVec.toNat_add, toNat_one_of_lt (by omega), Nat.mod_eq_of_lt h]

theorem toNat_sub_one {c : BitVec k} (h : 0 < c.toNat) : (c - 1).toNat = c.toNat - 1 := by
  have hone : (1 : BitVec k).toNat = 1 := toNat_one_of_lt (by omega)
  rw [BitVec.toNat_sub_of_le (BitVec.le_def.mpr (by omega)), hone]

omit [NeZero n] in
theorem toNat_add_one_mod (hn : n ∣ 2 ^ k) (c : BitVec k) :
    (c + 1).toNat % n = (c.toNat + 1) % n := by
  rw [BitVec.toNat_add, Nat.mod_mod_of_dvd _ hn, BitVec.ofNat_eq_ofNat, BitVec.toNat_ofNat,
    Nat.add_mod, Nat.mod_mod_of_dvd _ hn, ← Nat.add_mod]

omit [NeZero n] in
theorem toNat_sub_mod (hn : n ∣ 2 ^ k) (r w : BitVec k) :
    (r.toNat + (w - r).toNat) % n = w.toNat % n := by
  have hadd : r + (w - r) = w := by rw [BitVec.add_comm, BitVec.sub_add_cancel]
  have hw := congrArg BitVec.toNat hadd
  rw [BitVec.toNat_add] at hw
  rw [← hw, Nat.mod_mod_of_dvd _ hn]

theorem buffered_nil (buf : Fin n → α) (r : BitVec k) : Buffered buf r r [] [] := by
  refine ⟨[], rfl, ?_, Nat.zero_le _, holds_nil _ _⟩
  rw [BitVec.sub_self]
  rfl

theorem Buffered.push (h : Buffered buf r w put got) (hn : n ∣ 2 ^ k) (hk : n < 2 ^ k)
    (hroom : (w - r).toNat < n) (x : α) :
    Buffered (Function.update buf (Fin.ofNat n (w + 1).toNat) x) r (w + 1) (put ++ [x]) got := by
  obtain ⟨queued, rfl, hlen, hcap, hhold⟩ := h
  have hcell : Fin.ofNat n (w + 1).toNat = Fin.ofNat n (r.toNat + 1 + queued.length) := by
    rw [ofNat_eq_iff, toNat_add_one_mod hn, hlen, Nat.add_right_comm, Nat.add_mod,
      ← toNat_sub_mod hn r w, ← Nat.add_mod]
  refine ⟨queued ++ [x], List.append_assoc _ _ _, ?_, ?_, ?_⟩
  · rw [List.length_append, List.length_singleton, ← sub_add_eq_add_sub,
      toNat_add_one (by omega), hlen]
  · rw [List.length_append, List.length_singleton]
    omega
  · rw [hcell]
    exact hhold.push (by omega) x

theorem Buffered.pop (h : Buffered buf r w put got) (hn : n ∣ 2 ^ k) (hne : r ≠ w) :
    Buffered buf (r + 1) w put (got ++ [buf (Fin.ofNat n (r + 1).toNat)]) := by
  obtain ⟨queued, rfl, hlen, hcap, hhold⟩ := h
  have hcell : Fin.ofNat n (r + 1).toNat = Fin.ofNat n (r.toNat + 1) := by
    rw [ofNat_eq_iff, toNat_add_one_mod hn]
  cases queued with
  | nil =>
    have hzero : w - r = 0 := BitVec.eq_of_toNat_eq hlen.symm
    exact absurd (sub_eq_zero.mp hzero).symm hne
  | cons x rest =>
    rw [hcell, hhold.head]
    refine ⟨rest, by simp, ?_, ?_, ?_⟩
    · rw [List.length_cons] at hlen
      rw [sub_add_eq_sub_sub, toNat_sub_one (by omega), ← hlen, Nat.add_sub_cancel]
    · rw [List.length_cons] at hcap
      omega
    · apply hhold.tail.congr
      rw [Nat.add_mod, ← toNat_add_one_mod hn, ← Nat.add_mod]

theorem Buffered.next {x : α} {rest : List α} (h : Buffered buf r w put got) (hn : n ∣ 2 ^ k)
    (hnext : put = got ++ x :: rest) : x = buf (Fin.ofNat n (r + 1).toNat) := by
  obtain ⟨queued, rfl, -, -, hhold⟩ := h
  rw [List.append_cancel_left_eq] at hnext
  rw [hnext] at hhold
  rw [← hhold.head]
  congr 1
  rw [ofNat_eq_iff, toNat_add_one_mod hn]

/-- The items from the cell of `r` on, up to the one of `w`. -/
def Queued (buf : Fin n → α) (r w : BitVec k) (xs : List α) : Prop :=
  xs.length = (w - r).toNat ∧ Holds buf r.toNat xs

variable {xs : List α}

theorem queued_nil (buf : Fin n → α) (r : BitVec k) : Queued buf r r [] := by
  refine ⟨?_, holds_nil _ _⟩
  rw [BitVec.sub_self]
  rfl

theorem Queued.ne_nil (h : Queued buf r w xs) (hne : r ≠ w) : xs ≠ [] := by
  rintro rfl
  have hzero : w - r = 0 := BitVec.eq_of_toNat_eq h.1.symm
  exact hne (sub_eq_zero.mp hzero).symm

theorem Queued.cell_eq (h : Queued buf r w xs) (hn : n ∣ 2 ^ k) :
    Fin.ofNat n w.toNat = Fin.ofNat n (r.toNat + xs.length) := by
  rw [ofNat_eq_iff, h.1, toNat_sub_mod hn]

theorem Queued.write (h : Queued buf r w xs) (hn : n ∣ 2 ^ k) (hroom : xs.length < n) (x : α) :
    Queued (Function.update buf (Fin.ofNat n w.toNat) x) r w xs := by
  refine ⟨h.1, fun i hi => ?_⟩
  rw [h.cell_eq hn, Function.update_of_ne (ofNat_add_ne (by omega) hroom (by omega))]
  exact h.2 i hi

/-- Moving `w` on takes the item in its cell into the queue. -/
theorem Queued.advance {x : α} (h : Queued buf r w xs) (hn : n ∣ 2 ^ k)
    (hk : xs.length + 1 < 2 ^ k) (hx : buf (Fin.ofNat n w.toNat) = x) :
    Queued buf r (w + 1) (xs ++ [x]) := by
  have hlen := h.1
  refine ⟨?_, fun i hi => ?_⟩
  · rw [List.length_append, List.length_singleton, ← sub_add_eq_add_sub,
      toNat_add_one (by omega), hlen]
  · rw [List.length_append, List.length_singleton] at hi
    by_cases hlast : i = xs.length
    · subst i
      rw [← h.cell_eq hn, hx]
      simp
    · rw [List.getElem_append_left (by omega)]
      exact h.2 i (by omega)

theorem Queued.pop {x : α} (h : Queued buf r w (x :: xs)) (hn : n ∣ 2 ^ k) :
    buf (Fin.ofNat n r.toNat) = x ∧ Queued buf (r + 1) w xs := by
  obtain ⟨hlen, hhold⟩ := h
  rw [List.length_cons] at hlen
  refine ⟨hhold.head, ?_, ?_⟩
  · rw [sub_add_eq_sub_sub, toNat_sub_one (by omega), ← hlen, Nat.add_sub_cancel]
  · exact hhold.tail.congr (toNat_add_one_mod hn r).symm

theorem Queued.eq_map (h : Queued buf r w xs) :
    xs = (List.range (w - r).toNat).map fun i => buf (Fin.ofNat n (r.toNat + i)) := by
  apply List.ext_getElem
  · rw [List.length_map, List.length_range, h.1]
  · intro i hi hi'
    rw [List.getElem_map, List.getElem_range]
    exact (h.2 i hi).symm

end cursors

end Raynix.Lib.CircularBuffer
