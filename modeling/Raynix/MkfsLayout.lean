import Raynix.Lib.BumpAllocator
import Raynix.Mkfs

namespace Raynix.MkfsLayout

open Lib.Bytes Lib.BumpAllocator Mkfs

@[simp]
theorem xint_eq (x : BitVec 32) : xint x = x :=
  read32_eq (b := byteOf x) (o := 0) fun j _ => by rw [Nat.zero_add]

theorem sector_eq {sec : Nat} (h : sec < 2 ^ 22) : sector sec = sec := by
  rw [sector]
  omega

theorem addr_setAddr (d : Dinode) (k : Nat) (a : BitVec 32) :
    (d.setAddr k a).addr k = a := Function.update_self ..

theorem addr_setAddr_of_ne (d : Dinode) {k j : Nat} (a : BitVec 32) (hk : k < 13)
    (hj : j < 13) (hjk : j ≠ k) : (d.setAddr k a).addr j = d.addr j := by
  apply Function.update_of_ne
  intro h
  have := congrArg Fin.val h
  rw [Fin.val_ofNat, Fin.val_ofNat] at this
  omega

theorem putDinode_apply (buf : Buf) (slot : Nat) (d : Dinode) {j : Nat} (hj : j < 64) :
    putDinode buf slot d (64 * slot + j) = dinodeByte d j := by
  rw [putDinode, if_pos (by omega)]
  congr 1
  omega

theorem getDinode_congr {b b' : Buf} {slot : Nat}
    (h : ∀ j < 64, b (64 * slot + j) = b' (64 * slot + j)) :
    getDinode b slot = getDinode b' slot := by
  have h16 : ∀ o, o + 2 ≤ 64 → read16 b (64 * slot + o) = read16 b' (64 * slot + o) := by
    intro o ho
    apply read16_congr
    intro j hj
    simpa only [Nat.add_assoc] using h (o + j) (by omega)
  have h32 : ∀ o, o + 4 ≤ 64 → read32 b (64 * slot + o) = read32 b' (64 * slot + o) := by
    intro o ho
    apply read32_congr
    intro j hj
    simpa only [Nat.add_assoc] using h (o + j) (by omega)
  simp only [getDinode, Dinode.mk.injEq]
  refine ⟨h16 0 (by decide), h16 2 (by decide), h16 4 (by decide), h16 6 (by decide),
    h32 8 (by decide), ?_⟩
  funext k
  rw [Nat.add_assoc]
  exact h32 _ (by omega)

theorem getDinode_putDinode (buf : Buf) (slot : Nat) (d : Dinode) :
    getDinode (putDinode buf slot d) slot = d := by
  have h16 : ∀ o x, o + 2 ≤ 64 → (∀ j < 2, dinodeByte d (o + j) = byteOf x j) →
      read16 (putDinode buf slot d) (64 * slot + o) = x := by
    intro o x ho hx
    apply read16_eq
    intro j hj
    rw [Nat.add_assoc, putDinode_apply buf slot d (by omega), hx j hj]
  have h32 : ∀ o x, o + 4 ≤ 64 → (∀ j < 4, dinodeByte d (o + j) = byteOf x j) →
      read32 (putDinode buf slot d) (64 * slot + o) = x := by
    intro o x ho hx
    apply read32_eq
    intro j hj
    rw [Nat.add_assoc, putDinode_apply buf slot d (by omega), hx j hj]
  obtain ⟨type, major, minor, nlink, size, addrs⟩ := d
  simp only [getDinode, Dinode.mk.injEq]
  refine ⟨h16 0 _ (by decide) ?_, h16 2 _ (by decide) ?_, h16 4 _ (by decide) ?_,
    h16 6 _ (by decide) ?_, h32 8 _ (by decide) ?_, ?_⟩
  · intro j hj
    rw [dinodeByte, if_pos (by omega), Nat.zero_add]
  · intro j hj
    rw [dinodeByte, if_neg (by omega), if_pos (by omega), Nat.add_sub_cancel_left]
  · intro j hj
    rw [dinodeByte, if_neg (by omega), if_neg (by omega), if_pos (by omega),
      Nat.add_sub_cancel_left]
  · intro j hj
    rw [dinodeByte, if_neg (by omega), if_neg (by omega), if_neg (by omega), if_pos (by omega),
      Nat.add_sub_cancel_left]
  · intro j hj
    rw [dinodeByte, if_neg (by omega), if_neg (by omega), if_neg (by omega), if_neg (by omega),
      if_pos (by omega), Nat.add_sub_cancel_left]
  · funext k
    rw [Nat.add_assoc]
    apply h32 _ _ (by omega)
    intro j hj
    rw [dinodeByte, if_neg (by omega), if_neg (by omega), if_neg (by omega), if_neg (by omega),
      if_neg (by omega)]
    have hk : (12 + 4 * k.val + j - 12) / 4 = k.val := by omega
    have hr : (12 + 4 * k.val + j - 12) % 4 = j := by omega
    rw [hk, hr, Dinode.addr, Fin.ofNat_eq_cast, Fin.cast_val_eq_self]

theorem getDinode_putDinode_of_ne (buf : Buf) {slot slot' : Nat} (d : Dinode)
    (h : slot' ≠ slot) : getDinode (putDinode buf slot d) slot' = getDinode buf slot' := by
  apply getDinode_congr
  intro j hj
  rw [putDinode, if_neg (by omega)]

/-- The blocks an inode can own: those of its contents and the one with their addresses. -/
inductive Place
  | data (k : Nat)
  | indirect
  deriving DecidableEq

/-- The address that inode `d` has for a place; `B` are the blocks of the disk. -/
def addrOf (d : Dinode) (B : Nat → Buf) : Place → Nat
  | .data k =>
    if k < 12 then (d.addr k).toNat
    else (read32 (B (d.addr 12).toNat) (4 * (k - 12))).toNat
  | .indirect => (d.addr 12).toNat

theorem addrOf_direct (d : Dinode) (B : Nat → Buf) {k : Nat} (hk : k < 12) :
    addrOf d B (.data k) = (d.addr k).toNat := if_pos hk

theorem addrOf_entry (d : Dinode) (B : Nat → Buf) {k : Nat} (hk : 12 ≤ k) :
    addrOf d B (.data k) = (read32 (B (addrOf d B .indirect)) (4 * (k - 12))).toNat :=
  if_neg (by omega)

/-- The place whose address stands in `addrs[k]`. -/
def slotPlace (k : Nat) : Place := if k < 12 then .data k else .indirect

theorem slotPlace_direct {k : Nat} (hk : k < 12) : slotPlace k = .data k := if_pos hk

theorem slotPlace_indirect : slotPlace 12 = .indirect := rfl

theorem slotPlace_eq_data {k m : Nat} (h : slotPlace k = .data m) : m < 12 := by
  rw [slotPlace] at h
  split at h
  · cases h
    assumption
  · cases h

theorem addrOf_slotPlace (d : Dinode) (B : Nat → Buf) {k : Nat} (hk : k < 13) :
    addrOf d B (slotPlace k) = (d.addr k).toNat := by
  by_cases h : k < 12
  · rw [slotPlace_direct h, addrOf_direct d B h]
  · obtain rfl : k = 12 := by omega
    rfl

/-- The inodes `I` have been given blocks in `[lo, free)` for the places in `used`, and none for
other places. `D` are their dinodes, `B` the blocks of the disk. -/
structure Mapped (I : Nat → Prop) (lo : Nat) (D : Nat → Dinode) (B : Nat → Buf)
    (used : Nat × Place → Prop) (free : Nat) : Prop where
  bump : Bump (fun q => addrOf (D q.1) B q.2) used lo free
  lo_le : lo ≤ free
  lo_pos : 0 < lo
  valid : ∀ i p, used (i, p) → I i
  lt_maxfile : ∀ i k, used (i, .data k) → k < 268
  via_indirect : ∀ i k, used (i, .data k) → 12 ≤ k → used (i, .indirect)
  slot_zero : ∀ i k, I i → k < 13 → ¬used (i, slotPlace k) → (D i).addr k = 0
  entry_zero : ∀ i k, used (i, .indirect) → 12 ≤ k → k < 268 → ¬used (i, .data k) →
    read32 (B (addrOf (D i) B .indirect)) (4 * (k - 12)) = 0
  fresh : ∀ b, free ≤ b → ∀ o, B b o = 0

/-- Old places keep their addresses, and blocks of contents their bytes. -/
structure Extends (used : Nat × Place → Prop) (D : Nat → Dinode) (B : Nat → Buf)
    (D' : Nat → Dinode) (B' : Nat → Buf) : Prop where
  addr_eq : ∀ i p, used (i, p) → addrOf (D' i) B' p = addrOf (D i) B p
  block_eq : ∀ i k, used (i, .data k) →
    B' (addrOf (D i) B (.data k)) = B (addrOf (D i) B (.data k))

variable {I : Nat → Prop} {lo free i k : Nat} {D D' : Nat → Dinode} {B B' : Nat → Buf}
  {used used' : Nat × Place → Prop}

theorem Extends.refl : Extends used D B D B := ⟨fun _ _ _ => rfl, fun _ _ _ => rfl⟩

theorem Extends.trans {D'' : Nat → Dinode} {B'' : Nat → Buf} (h : Extends used D B D' B')
    (h' : Extends used' D' B' D'' B'') (hu : ∀ p, used p → used' p) :
    Extends used D B D'' B'' := by
  refine ⟨?_, ?_⟩
  · intro i p hp
    rw [h'.addr_eq i p (hu _ hp), h.addr_eq i p hp]
  · intro i k hk
    rw [← h.addr_eq i _ hk, h'.block_eq i k (hu _ hk), h.addr_eq i _ hk, h.block_eq i k hk]

theorem Mapped.addr_pos (M : Mapped I lo D B used free) {p : Place} (hp : used (i, p)) :
    0 < addrOf (D i) B p := Nat.lt_of_lt_of_le M.lo_pos (M.bump.lo_le _ hp)

theorem Mapped.addr_lt (M : Mapped I lo D B used free) {p : Place} (hp : used (i, p)) :
    addrOf (D i) B p < free := M.bump.lt_hi _ hp

theorem Mapped.addr_ne (M : Mapped I lo D B used free) {p : Place} {q : Place} {j : Nat}
    (hp : used (i, p)) (hq : used (j, q)) (hne : (i, p) ≠ (j, q)) :
    addrOf (D i) B p ≠ addrOf (D j) B q :=
  fun h => hne (M.bump.inj _ _ hp hq h)

theorem Mapped.addr_eq_zero_iff (M : Mapped I lo D B used free) (hi : I i)
    (hk : k < 13) : (D i).addr k = 0 ↔ ¬used (i, slotPlace k) := by
  refine ⟨?_, M.slot_zero i k hi hk⟩
  intro h hu
  have := M.addr_pos hu
  rw [addrOf_slotPlace _ _ hk, h] at this
  exact absurd this (Nat.lt_irrefl 0)

theorem Mapped.congr (M : Mapped I lo D B used free) (hu : ∀ p, used' p ↔ used p) :
    Mapped I lo D B used' free := by
  obtain rfl : used' = used := funext fun p => propext (hu p)
  exact M

/-- What an allocation has to keep, for the new place `r`. -/
theorem Mapped.alloc (M : Mapped I lo D B used free) {r : Place} (hi : I i)
    (hmax : ∀ k, r = .data k → k < 268) (hvia : ∀ k, r = .data k → 12 ≤ k → used (i, .indirect))
    (haddr : ∀ j p, used (j, p) → addrOf (D' j) B' p = addrOf (D j) B p)
    (hnew : addrOf (D' i) B' r = free)
    (hslot : ∀ j m, m < 13 → (j, slotPlace m) ≠ (i, r) → (D' j).addr m = (D j).addr m)
    (hentry : ∀ j m, used (j, .indirect) → 12 ≤ m → m < 268 → (j, .data m) ≠ (i, r) →
      read32 (B' (addrOf (D j) B .indirect)) (4 * (m - 12)) =
        read32 (B (addrOf (D j) B .indirect)) (4 * (m - 12)))
    (hfree : B' free = B free) (hfresh : ∀ b, free < b → B' b = B b) :
    Mapped I lo D' B' (fun p => p = (i, r) ∨ used p) (free + 1) := by
  refine ⟨?_, ?_, M.lo_pos, ?_, ?_, ?_, ?_, ?_, ?_⟩
  · exact M.bump.bump M.lo_le (fun p hp => hp)
      (fun p hp hne => haddr p.1 p.2 (hp.resolve_left hne)) hnew
  · exact Nat.le_succ_of_le M.lo_le
  · rintro j p (hp | hp)
    · obtain ⟨rfl, -⟩ := Prod.mk.inj hp
      exact hi
    · exact M.valid j p hp
  · rintro j m (hp | hp)
    · exact hmax m (Prod.mk.inj hp).2.symm
    · exact M.lt_maxfile j m hp
  · rintro j m (hp | hp) hm
    · obtain ⟨rfl, hr⟩ := Prod.mk.inj hp
      exact Or.inr (hvia m hr.symm hm)
    · exact Or.inr (M.via_indirect j m hp hm)
  · intro j m hj hm hn
    rw [not_or] at hn
    rw [hslot j m hm hn.1]
    exact M.slot_zero j m hj hm hn.2
  · rintro j m (hp | hp) hm hm' hn
    -- The new indirect block is a fresh one.
    · obtain ⟨rfl, rfl⟩ := Prod.mk.inj hp
      rw [hnew, hfree]
      exact read32_zero fun o _ => M.fresh free le_rfl _
    · rw [not_or] at hn
      rw [haddr j _ hp, hentry j m hp hm hm' hn.1]
      exact M.entry_zero j m hp hm hm' hn.2
  · intro b hb
    rw [hfresh b hb]
    exact M.fresh b (Nat.le_of_lt hb)

/-- `din.addrs[k] = freeblock++` -/
theorem Mapped.setAddr (M : Mapped I lo D B used free) (hi : I i) (hk : k < 13)
    (hfree : free < 2 ^ 32) (hu : ¬used (i, slotPlace k)) :
    let D' := Function.update D i ((D i).setAddr k (BitVec.ofNat 32 free))
    Mapped I lo D' B (fun p => p = (i, slotPlace k) ∨ used p) (free + 1) ∧
      Extends used D B D' B ∧ addrOf (D' i) B (slotPlace k) = free := by
  intro D'
  have hself : D' i = (D i).setAddr k (BitVec.ofNat 32 free) := Function.update_self ..
  have hother : ∀ j, j ≠ i → D' j = D j := fun j hj => Function.update_of_ne hj ..
  have hslot : ∀ j m, m < 13 → (j, slotPlace m) ≠ (i, slotPlace k) →
      (D' j).addr m = (D j).addr m := by
    intro j m hm hne
    by_cases hj : j = i
    · subst hj
      have hmk : m ≠ k := fun h => hne (h ▸ rfl)
      rw [hself, addr_setAddr_of_ne _ _ hk hm hmk]
    · rw [hother j hj]
  have hused : ∀ j m, m < 13 → used (j, slotPlace m) →
      addrOf (D' j) B (slotPlace m) = addrOf (D j) B (slotPlace m) := by
    intro j m hm hp
    rw [addrOf_slotPlace _ _ hm, addrOf_slotPlace _ _ hm, hslot j m hm]
    rintro h
    exact hu (h ▸ hp)
  have haddr : ∀ j p, used (j, p) → addrOf (D' j) B p = addrOf (D j) B p := by
    intro j p hp
    cases p with
    | indirect => exact hused j 12 (by decide) hp
    | data m =>
      by_cases hm : m < 12
      · rw [← slotPlace_direct hm] at hp ⊢
        exact hused j m (by omega) hp
      · have hv := hused j 12 (by decide) (M.via_indirect j m hp (by omega))
        rw [addrOf_entry _ _ (by omega), addrOf_entry _ _ (by omega)]
        exact congrArg (fun a => (read32 (B a) (4 * (m - 12))).toNat) hv
  have hnew : addrOf (D' i) B (slotPlace k) = free := by
    rw [addrOf_slotPlace _ _ hk, hself, addr_setAddr, BitVec.toNat_ofNat, Nat.mod_eq_of_lt hfree]
  refine ⟨M.alloc hi ?_ ?_ haddr hnew hslot (fun _ _ _ _ _ _ => rfl) rfl (fun _ _ => rfl),
    ⟨haddr, fun _ _ _ => rfl⟩, hnew⟩
  · intro m hm
    have hlt := slotPlace_eq_data hm
    omega
  · intro m hm hm'
    have hlt := slotPlace_eq_data hm
    omega

/-- `indirect[k - NDIRECT] = freeblock++` -/
theorem Mapped.setEntry (M : Mapped I lo D B used free) (hi : used (i, .indirect))
    (hk : 12 ≤ k) (hk' : k < 268) (hfree : free < 2 ^ 32) (hu : ¬used (i, .data k)) :
    let a := addrOf (D i) B .indirect
    let B' := Function.update B a (write32 (B a) (4 * (k - 12)) (BitVec.ofNat 32 free))
    Mapped I lo D B' (fun p => p = (i, .data k) ∨ used p) (free + 1) ∧
      Extends used D B D B' ∧ addrOf (D i) B' (.data k) = free := by
  intro a B'
  have ha : a < free := M.addr_lt hi
  have hself : B' a = write32 (B a) (4 * (k - 12)) (BitVec.ofNat 32 free) :=
    Function.update_self ..
  have hother : ∀ b, b ≠ a → B' b = B b := fun b hb => Function.update_of_ne hb ..
  have hentry : ∀ j m, used (j, .indirect) → 12 ≤ m → (j, .data m) ≠ (i, Place.data k) →
      read32 (B' (addrOf (D j) B .indirect)) (4 * (m - 12)) =
        read32 (B (addrOf (D j) B .indirect)) (4 * (m - 12)) := by
    intro j m hj hm hne
    by_cases hji : j = i
    · subst hji
      have hmk : m ≠ k := fun h => hne (h ▸ rfl)
      change read32 (B' a) _ = _
      rw [hself, read32_write32_of_ne _ _ (by omega)]
    · rw [hother _ (M.addr_ne hj hi (by simp [hji]))]
  have haddr : ∀ j p, used (j, p) → addrOf (D j) B' p = addrOf (D j) B p := by
    intro j p hp
    cases p with
    | indirect => rfl
    | data m =>
      by_cases hm : m < 12
      · rw [addrOf_direct _ _ hm, addrOf_direct _ _ hm]
      · have hj := M.via_indirect j m hp (by omega)
        rw [addrOf_entry _ _ (by omega), addrOf_entry _ _ (by omega)]
        refine congrArg BitVec.toNat (hentry j m hj (by omega) ?_)
        rintro h
        exact hu (h ▸ hp)
  have hnew : addrOf (D i) B' (.data k) = free := by
    rw [addrOf_entry _ _ hk]
    change (read32 (B' a) (4 * (k - 12))).toNat = free
    rw [hself, read32_write32, BitVec.toNat_ofNat, Nat.mod_eq_of_lt hfree]
  refine ⟨M.alloc (M.valid i _ hi) ?_ (fun _ _ _ => hi) haddr hnew (fun _ _ _ _ => rfl)
    (fun j m hj hm _ hne => hentry j m hj hm hne) ?_ ?_, ⟨haddr, ?_⟩, hnew⟩
  · rintro m h
    cases h
    exact hk'
  · exact hother free (Nat.ne_of_gt ha)
  · exact fun b hb => hother b (by omega)
  · intro j m hj
    exact hother _ (M.addr_ne hj hi (by simp))

theorem Mapped.addrOf_setData (M : Mapped I lo D B used free) (hu : used (i, .data k)) (buf : Buf)
    {j : Nat} {p : Place} (hp : used (j, p)) :
    addrOf (D j) (Function.update B (addrOf (D i) B (.data k)) buf) p = addrOf (D j) B p := by
  cases p with
  | indirect => rfl
  | data m =>
    by_cases hm : m < 12
    · rw [addrOf_direct _ _ hm, addrOf_direct _ _ hm]
    · have hj := M.via_indirect j m hp (by omega)
      have hne := M.addr_ne hj hu (by simp)
      have hm' : 12 ≤ m := by omega
      rw [addrOf_entry (D j) _ hm', addrOf_entry (D j) B hm']
      exact congrArg (fun b => (read32 b (4 * (m - 12))).toNat) (Function.update_of_ne hne ..)

theorem Mapped.setData (M : Mapped I lo D B used free) (hu : used (i, .data k)) (buf : Buf) :
    Mapped I lo D (Function.update B (addrOf (D i) B (.data k)) buf) used free := by
  refine ⟨?_, M.lo_le, M.lo_pos, M.valid, M.lt_maxfile, M.via_indirect, M.slot_zero, ?_, ?_⟩
  · exact M.bump.congr (fun _ hp => hp) (fun p hp => M.addrOf_setData hu buf hp)
  · intro j m hj hm hm' hn
    rw [M.addrOf_setData hu buf hj, Function.update_of_ne (M.addr_ne hj hu (by simp))]
    exact M.entry_zero j m hj hm hm' hn
  · intro b hb
    have := M.addr_lt hu
    rw [Function.update_of_ne (by omega)]
    exact M.fresh b hb

end Raynix.MkfsLayout
