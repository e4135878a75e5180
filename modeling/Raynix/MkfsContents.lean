import Raynix.MkfsLayout

namespace Raynix.MkfsContents

open Lib.Bytes Lib.BumpAllocator Mkfs MkfsLayout

/-- Only sectors from `lo` on have been written, for blocks of contents. -/
structure Keeps (lo : Nat) (s s' : Fs) : Prop where
  disk_eq : ∀ b < lo, s'.disk b = s.disk b
  len_eq : s'.len = s.len
  freeinode_eq : s'.freeinode = s.freeinode
  writes_eq : ∃ ws, s'.writes = s.writes ++ ws ∧ ∀ w ∈ ws, w.1 = .data ∧ lo ≤ w.2

/-- Place `r` of inode `i` has got an address, if it had none. -/
structure Allocates (I : Nat → Prop) (lo i : Nat) (r : Place) (used : Nat × Place → Prop)
    (D : Nat → Dinode) (s : Fs) (D' : Nat → Dinode) (s' : Fs) : Prop where
  mapped : Mapped I lo D' s'.disk (fun p => p = (i, r) ∨ used p) s'.freeblock
  extends_ : Extends used D s.disk D' s'.disk
  keeps : Keeps lo s s'
  freeblock_eq : s'.freeblock = s.freeblock ∨
    s'.freeblock = s.freeblock + 1 ∧ addrOf (D' i) s'.disk r = s.freeblock

variable {I : Nat → Prop} {lo i k : Nat} {D : Nat → Dinode} {used : Nat × Place → Prop}
  {s s' s'' : Fs} {d d' : Dinode}

theorem Keeps.refl : Keeps lo s s := ⟨fun _ _ => rfl, rfl, rfl, [], by simp⟩

theorem Keeps.trans (h : Keeps lo s s') (h' : Keeps lo s' s'') : Keeps lo s s'' := by
  obtain ⟨ws, hws, hall⟩ := h.writes_eq
  obtain ⟨ws', hws', hall'⟩ := h'.writes_eq
  refine ⟨?_, h'.len_eq.trans h.len_eq, h'.freeinode_eq.trans h.freeinode_eq, ws ++ ws', ?_, ?_⟩
  · intro b hb
    rw [h'.disk_eq b hb, h.disk_eq b hb]
  · rw [hws', hws, List.append_assoc]
  · intro w hw
    exact (List.mem_append.mp hw).elim (hall w) (hall' w)

theorem keeps_freeblock (f : Nat) : Keeps lo s { s with freeblock := f } :=
  ⟨fun _ _ => rfl, rfl, rfl, [], by simp⟩

theorem keeps_wsect {b : Nat} (buf : Buf) (hlo : lo ≤ b) (hlen : b < s.len)
    (hs : s.len < 2 ^ 22) : Keeps lo s (wsect s .data b buf) := by
  have hb : sector b = b := sector_eq (by omega)
  refine ⟨?_, ?_, rfl, [(.data, b)], ?_, ?_⟩
  · intro a ha
    rw [wsect, hb]
    exact Function.update_of_ne (by omega) ..
  · simp only [wsect, hb]
    omega
  · rw [wsect, hb]
  · simpa using hlo

theorem rsect_eq_some {b : Nat} {buf : Buf} (hb : b < 2 ^ 22) (h : rsect s b = some buf) :
    b < s.len ∧ buf = s.disk b := by
  rw [rsect, sector_eq hb] at h
  split at h
  · exact ⟨‹_›, (Option.some.inj h).symm⟩
  · cases h

theorem wsect_disk {b : Nat} (part : Part) (buf : Buf) (hb : b < 2 ^ 22) :
    (wsect s part b buf).disk = Function.update s.disk b buf := by
  rw [wsect, sector_eq hb]

theorem allocates_of_used (M : Mapped I lo D s.disk used s.freeblock) {r : Place}
    (hr : used (i, r)) : Allocates I lo i r used D s D s := by
  refine ⟨M.congr ?_, Extends.refl, Keeps.refl, Or.inl rfl⟩
  intro p
  refine ⟨?_, Or.inr⟩
  rintro (rfl | hp)
  · exact hr
  · exact hp

theorem allocAddr_spec (M : Mapped I lo D s.disk used s.freeblock) (hi : I i) (hk : k < 13)
    (hfree : s.freeblock < 2 ^ 32) (hd : D i = d) (h : allocAddr s d k = (s', d')) :
    Allocates I lo i (slotPlace k) used D s (Function.update D i d') s' := by
  subst hd
  rw [allocAddr, xint_eq] at h
  split at h
  · rename_i hz
    obtain ⟨rfl, rfl⟩ := Prod.mk.inj h
    rw [xint_eq]
    have hu := (M.addr_eq_zero_iff hi hk).mp hz
    obtain ⟨hM, hE, hnew⟩ := M.setAddr hi hk hfree hu
    exact ⟨hM, hE, keeps_freeblock _, Or.inr ⟨rfl, hnew⟩⟩
  · rename_i hz
    obtain ⟨rfl, rfl⟩ := Prod.mk.inj h
    rw [Function.update_eq_self]
    rw [M.addr_eq_zero_iff hi hk, not_not] at hz
    exact allocates_of_used M hz

theorem indirectBlock_spec (M : Mapped I lo D s.disk used s.freeblock)
    (hi : used (i, .indirect)) (hk : 12 ≤ k) (hk' : k < 268) (hfree : s.freeblock ≤ s.len + 1)
    (hs : s.len < 2 ^ 22) (hd : D i = d) {x : Nat} (h : indirectBlock s d k = some (s', x)) :
    Allocates I lo i (.data k) used D s D s' ∧ addrOf (D i) s'.disk (.data k) = x ∧
      addrOf (D i) s.disk .indirect < s.len := by
  subst hd
  rw [indirectBlock, Option.bind_eq_bind, Option.bind_eq_some_iff] at h
  obtain ⟨buf, hbuf, h⟩ := h
  have ha := M.addr_lt hi
  rw [xint_eq] at hbuf
  obtain ⟨hlt, rfl⟩ := rsect_eq_some (b := addrOf (D i) s.disk .indirect) (by omega) hbuf
  simp only [xint_eq] at h
  have hentry : addrOf (D i) s.disk (.data k) =
      (read32 (s.disk (addrOf (D i) s.disk .indirect)) (4 * (k - 12))).toNat :=
    addrOf_entry _ _ hk
  split at h
  · rename_i hz
    have hu : ¬used (i, .data k) := by
      intro hu
      have := M.addr_pos hu
      rw [hentry, hz] at this
      exact absurd this (Nat.lt_irrefl 0)
    obtain ⟨hM, hE, hnew⟩ := M.setEntry hi hk hk' (by omega) hu
    obtain ⟨rfl, rfl⟩ := Prod.mk.inj (Option.some.inj h)
    rw [← wsect_disk .data _ (Nat.lt_trans hlt hs)] at hM hE hnew
    refine ⟨⟨hM, hE, ?_, Or.inr ⟨rfl, hnew⟩⟩, hnew.trans ?_, hlt⟩
    · exact (keeps_freeblock (s.freeblock + 1)).trans (keeps_wsect _ (M.bump.lo_le _ hi) hlt hs)
    · rw [read32_write32, BitVec.toNat_ofNat, Nat.mod_eq_of_lt (by omega)]
  · rename_i hz
    obtain ⟨rfl, rfl⟩ := Prod.mk.inj (Option.some.inj h)
    refine ⟨allocates_of_used M ?_, hentry, hlt⟩
    by_contra hu
    exact hz (M.entry_zero i k hi hk hk' hu)

/-- What block `k` of inode `i` needs: its own address and, from `NDIRECT` on, the block with the
addresses. -/
def Needs (i k : Nat) (p : Nat × Place) : Prop :=
  p = (i, .data k) ∨ 12 ≤ k ∧ p = (i, .indirect)

theorem dataBlock_spec (M : Mapped I lo D s.disk used s.freeblock) (hi : I i) (hk : k < 268)
    (hfree : s.freeblock ≤ s.len) (hs : s.len < 2 ^ 22) (hd : D i = d) {x : Nat}
    (h : dataBlock s d k = some (s', d', x)) :
    let D' := Function.update D i d'
    Mapped I lo D' s'.disk (fun p => Needs i k p ∨ used p) s'.freeblock ∧
      Extends used D s.disk D' s'.disk ∧ Keeps lo s s' ∧ addrOf d' s'.disk (.data k) = x ∧
      (s'.freeblock ≤ s.len ∨ s'.freeblock = x + 1 ∧ x ≤ s.len) := by
  intro D'
  rw [dataBlock] at h
  split at h
  · rename_i hk12
    generalize hr : allocAddr s d k = r at h
    obtain ⟨s₁, d₁⟩ := r
    simp only [xint_eq, Option.some.injEq, Prod.mk.injEq] at h
    obtain ⟨rfl, rfl, hx⟩ := h
    have hA := allocAddr_spec M hi (by omega) (by omega) hd hr
    rw [slotPlace_direct hk12] at hA
    have hxa : addrOf d₁ s₁.disk (.data k) = x := by rw [addrOf_direct _ _ hk12, hx]
    refine ⟨hA.mapped.congr ?_, hA.extends_, hA.keeps, hxa, ?_⟩
    · intro p
      simp [Needs, Nat.not_le.mpr hk12]
    · obtain hf | ⟨hf, hf'⟩ := hA.freeblock_eq
      · exact Or.inl (hf ▸ hfree)
      · rw [Function.update_self, hxa] at hf'
        exact Or.inr ⟨hf' ▸ hf, hf' ▸ hfree⟩
  · rename_i hk12
    rw [not_lt] at hk12
    generalize hr : allocAddr s d 12 = r at h
    obtain ⟨s₁, d₁⟩ := r
    simp only [Option.bind_eq_bind, Option.bind_eq_some_iff, Prod.exists, Option.some.injEq,
      Prod.mk.injEq] at h
    obtain ⟨s₂, x', hind, rfl, rfl, rfl⟩ := h
    have hA := allocAddr_spec M hi (by omega) (by omega) hd hr
    rw [slotPlace_indirect] at hA
    have hlen : s₁.len = s.len := hA.keeps.len_eq
    have hfree₁ : s₁.freeblock ≤ s₁.len + 1 := by
      obtain hf | ⟨hf, -⟩ := hA.freeblock_eq <;> omega
    obtain ⟨hB, hxa, hlt⟩ := indirectBlock_spec hA.mapped (Or.inl rfl) hk12 hk hfree₁ (hlen ▸ hs)
      (Function.update_self ..) hind
    rw [Function.update_self] at hxa
    refine ⟨hB.mapped.congr ?_, hA.extends_.trans hB.extends_ (fun p => Or.inr),
      hA.keeps.trans hB.keeps, hxa, ?_⟩
    · intro p
      simp [Needs, hk12, or_assoc]
    -- The indirect block has been read, so its number is below the end of the image.
    · have hle : s₁.freeblock ≤ s.len := by
        obtain hf | ⟨hf, hf'⟩ := hA.freeblock_eq
        · exact hf ▸ hfree
        · rw [hf'] at hlt
          omega
      obtain hf | ⟨hf, hf'⟩ := hB.freeblock_eq
      · exact Or.inl (hf ▸ hle)
      · rw [Function.update_self, hxa] at hf'
        exact Or.inr ⟨hf' ▸ hf, hf' ▸ hle⟩

/-- `ceil(n / BSIZE)` -/
def blocks (n : Nat) : Nat := (n + 1023) / 1024

/-- The places that inodes of `size i` bytes need. -/
def Within (I : Nat → Prop) (size : Nat → Nat) : Nat × Place → Prop
  | (i, .data k) => I i ∧ k < blocks (size i)
  | (i, .indirect) => I i ∧ 12 < blocks (size i)

/-- The blocks of the inodes `I` hold the byte strings `c`. -/
structure Represents (I : Nat → Prop) (lo : Nat) (D : Nat → Dinode) (B : Nat → Buf) (free : Nat)
    (c : Nat → List Byte) : Prop where
  mapped : Mapped I lo D B (Within I fun i => (c i).length) free
  bytes : ∀ i, I i → ∀ o, (h : o < (c i).length) →
    B (addrOf (D i) B (.data (o / 1024))) (o % 1024) = (c i)[o]

variable {B : Nat → Buf} {free : Nat} {c : Nat → List Byte}

theorem represents_nil {lo free : Nat} (hI : ∀ i, ¬I i) (hlo : 0 < lo) (hle : lo ≤ free)
    (hfresh : ∀ b, free ≤ b → ∀ o, B b o = 0) : Represents I lo D B free c := by
  have hno : ∀ p, ¬Within I (fun i => (c i).length) p := by
    rintro ⟨i, k | _⟩ h
    · exact hI i h.1
    · exact hI i h.1
  refine ⟨⟨Bump.of_forall_not hno, hle, hlo, ?_, ?_, ?_, ?_, ?_, hfresh⟩, ?_⟩
  · exact fun i p hp => (hno _ hp).elim
  · exact fun i k hp => (hno _ hp).elim
  · exact fun i k hp => (hno _ hp).elim
  · exact fun i k hi => (hI i hi).elim
  · exact fun i k hp => (hno _ hp).elim
  · exact fun i hi => (hI i hi).elim

theorem Represents.length_le (R : Represents I lo D B free c) (hi : I i) :
    (c i).length ≤ 268 * 1024 := by
  by_contra h
  have hb : 268 < blocks (c i).length := by
    rw [blocks]
    omega
  have := R.mapped.lt_maxfile i 268 ⟨hi, hb⟩
  omega

theorem within_update {size : Nat → Nat} {n : Nat} (hi : I i) (hn : size i ≤ n)
    (hlast : blocks n = size i / 1024 + 1) (p : Nat × Place) :
    Within I (Function.update size i n) p ↔ Needs i (size i / 1024) p ∨ Within I size p := by
  obtain ⟨j, q⟩ := p
  by_cases hj : j = i
  · subst hj
    have hb : blocks (size j) ≤ size j / 1024 + 1 ∧ size j / 1024 ≤ blocks (size j) := by
      rw [blocks]
      omega
    cases q with
    | data k =>
      simp only [Within, Needs, Function.update_self, hlast, hi, Prod.mk.injEq, true_and,
        Place.data.injEq, reduceCtorEq, and_false, or_false]
      omega
    | indirect =>
      simp only [Within, Needs, Function.update_self, hlast, hi, Prod.mk.injEq, true_and,
        reduceCtorEq, and_true, false_or]
      omega
  · cases q <;> simp [Within, Needs, hj]

theorem chunk_le (off n : Nat) : chunk off n ≤ n ∧ off % 1024 + chunk off n ≤ 1024 := by
  rw [chunk]
  omega

theorem Represents.congr {D' : Nat → Dinode} {B' : Nat → Buf} (R : Represents I lo D B free c)
    (hD : ∀ j, I j → (D' j).addrs = (D j).addrs) (hB : ∀ b, lo ≤ b → B' b = B b) :
    Represents I lo D' B' free c := by
  have haddr : ∀ j p, Within I (fun i => (c i).length) (j, p) →
      addrOf (D' j) B' p = addrOf (D j) B p := by
    intro j p hp
    have hj := R.mapped.valid j p hp
    have hslot : ∀ k, (D' j).addr k = (D j).addr k := fun k => congrFun (hD j hj) _
    have he : addrOf (D' j) B' .indirect = addrOf (D j) B .indirect :=
      congrArg BitVec.toNat (hslot 12)
    cases p with
    | indirect => exact he
    | data m =>
      by_cases hm : m < 12
      · rw [addrOf_direct _ _ hm, addrOf_direct _ _ hm, hslot m]
      · have hind := R.mapped.via_indirect j m hp (by omega)
        rw [addrOf_entry (k := m) _ _ (by omega), addrOf_entry (k := m) _ _ (by omega)]
        rw [he, hB _ (R.mapped.bump.lo_le _ hind)]
  refine ⟨⟨R.mapped.bump.congr (fun _ hp => hp) (fun p hp => haddr p.1 p.2 hp), R.mapped.lo_le,
    R.mapped.lo_pos, R.mapped.valid, R.mapped.lt_maxfile, R.mapped.via_indirect, ?_, ?_, ?_⟩, ?_⟩
  · intro j k hj hk hn
    exact (congrFun (hD j hj) _).trans (R.mapped.slot_zero j k hj hk hn)
  · intro j k hj hk hk' hn
    rw [haddr j _ hj, hB _ (R.mapped.bump.lo_le _ hj)]
    exact R.mapped.entry_zero j k hj hk hk' hn
  · intro b hb
    rw [hB b (Nat.le_trans R.mapped.lo_le hb)]
    exact R.mapped.fresh b hb
  · intro j hj o ho
    have hu : Within I (fun i => (c i).length) (j, .data (o / 1024)) := by
      refine ⟨hj, ?_⟩
      simp only [blocks]
      omega
    rw [haddr j _ hu, hB _ (R.mapped.bump.lo_le _ hu)]
    exact R.bytes j hj o ho

theorem Represents.addInode (R : Represents I lo D B free c) (hi : ¬I i)
    (h0 : ∀ k, (D i).addr k = 0) :
    Represents (fun j => j = i ∨ I j) lo D B free (Function.update c i []) := by
  have hused : ∀ p, Within (fun j => j = i ∨ I j) (fun j => (Function.update c i [] j).length) p ↔
      Within I (fun j => (c j).length) p := by
    rintro ⟨j, p⟩
    by_cases hj : j = i
    · subst hj
      cases p <;> simp [Within, hi, blocks]
    · cases p <;> simp [Within, hj]
  refine ⟨Mapped.congr ⟨R.mapped.bump, R.mapped.lo_le, R.mapped.lo_pos, ?_, R.mapped.lt_maxfile,
    R.mapped.via_indirect, ?_, R.mapped.entry_zero, R.mapped.fresh⟩ hused, ?_⟩
  · exact fun j p hp => Or.inr (R.mapped.valid j p hp)
  · rintro j k (rfl | hj) hk hn
    · exact h0 k
    · exact R.mapped.slot_zero j k hj hk hn
  · rintro j hj o ho
    by_cases hji : j = i
    · subst hji
      simp at ho
    · simp only [Function.update_of_ne hji] at ho ⊢
      exact R.bytes j (hj.resolve_left hji) o ho

theorem Represents.append {D' : Nat → Dinode} {B' : Nat → Buf} {free' x : Nat} {q : List Byte}
    (R : Represents I lo D B free c) (hi : I i) (hq : 0 < q.length)
    (hoff : (c i).length % 1024 + q.length ≤ 1024)
    (M : Mapped I lo D' B' (fun p => Needs i ((c i).length / 1024) p ∨
      Within I (fun i => (c i).length) p) free')
    (E : Extends (Within I fun i => (c i).length) D B D' B')
    (hx : addrOf (D' i) B' (.data ((c i).length / 1024)) = x) :
    Represents I lo D' (Function.update B' x (copy (B' x) ((c i).length % 1024) q)) free'
      (Function.update c i (c i ++ q)) := by
  subst hx
  have hu : Needs i ((c i).length / 1024) (i, .data ((c i).length / 1024)) ∨
      Within I (fun i => (c i).length) (i, .data ((c i).length / 1024)) := Or.inl (Or.inl rfl)
  have hblocks : blocks ((c i).length + q.length) = (c i).length / 1024 + 1 := by
    rw [blocks]
    omega
  have hsize : (fun j => (Function.update c i (c i ++ q) j).length) =
      Function.update (fun j => (c j).length) i ((c i).length + q.length) := by
    funext j
    by_cases hj : j = i
    · subst hj
      rw [Function.update_self, Function.update_self, List.length_append]
    · rw [Function.update_of_ne hj, Function.update_of_ne hj]
  -- The bytes that were there before, outside the part written.
  have hold : ∀ j m o, Within I (fun i => (c i).length) (j, .data m) →
      ((j, m) = (i, (c i).length / 1024) → o < (c i).length % 1024) →
      Function.update B' (addrOf (D' i) B' (.data ((c i).length / 1024)))
        (copy (B' (addrOf (D' i) B' (.data ((c i).length / 1024)))) ((c i).length % 1024) q)
        (addrOf (D' j) B' (.data m)) o = B (addrOf (D j) B (.data m)) o := by
    intro j m o hm ho
    by_cases hjm : (j, m) = (i, (c i).length / 1024)
    · obtain ⟨rfl, rfl⟩ := Prod.mk.inj hjm
      rw [Function.update_self, copy_apply_of_lt _ _ (ho rfl), E.addr_eq _ _ hm,
        E.block_eq _ _ hm]
    · have hne : (j, Place.data m) ≠ (i, .data ((c i).length / 1024)) := by
        rintro h
        simp only [Prod.mk.injEq, Place.data.injEq] at h
        exact hjm (Prod.ext h.1 h.2)
      rw [Function.update_of_ne (M.addr_ne (Or.inr hm) hu hne), E.addr_eq _ _ hm,
        E.block_eq _ _ hm]
  refine ⟨(M.setData hu _).congr ?_, ?_⟩
  · intro p
    rw [hsize]
    exact within_update hi (Nat.le_add_right _ _) hblocks p
  · intro j hj o ho
    have hlen : ∀ o, o < (c j).length → Within I (fun i => (c i).length) (j, .data (o / 1024)) := by
      intro o ho
      refine ⟨hj, ?_⟩
      simp only [blocks]
      omega
    by_cases hji : j = i
    · subst hji
      simp only [Function.update_self] at ho ⊢
      by_cases hlt : o < (c j).length
      · rw [M.addrOf_setData hu _ (Or.inr (hlen o hlt)), hold j _ _ (hlen o hlt),
          R.bytes j hj o hlt, List.getElem_append_left hlt]
        intro h
        have := (Prod.mk.inj h).2
        omega
      · rw [List.length_append] at ho
        have hdiv : o / 1024 = (c j).length / 1024 := by omega
        have hmod : o % 1024 = (c j).length % 1024 + (o - (c j).length) := by omega
        rw [hdiv, M.addrOf_setData hu _ hu, Function.update_self, hmod,
          copy_apply_add _ _ (by omega), List.getElem_append_right (by omega)]
    · simp only [Function.update_of_ne hji] at ho ⊢
      rw [M.addrOf_setData hu _ (Or.inr (hlen o ho)), hold j _ _ (hlen o ho), R.bytes j hj o ho]
      intro h
      exact absurd (Prod.mk.inj h).1 hji

theorem appendBlock_spec (R : Represents I lo D s.disk s.freeblock c) (hi : I i)
    {p : List Byte} (hp : 0 < p.length) (hfree : s.freeblock ≤ s.len) (hs : s.len < 2 ^ 22)
    (hd : D i = d) (h : appendBlock s d (c i).length p = some (s', d')) :
    Represents I lo (Function.update D i d') s'.disk s'.freeblock
        (Function.update c i (c i ++ p.take (chunk (c i).length p.length))) ∧
      Keeps lo s s' ∧ s'.freeblock ≤ s'.len := by
  rw [appendBlock] at h
  split at h
  · rename_i hk
    simp only [Option.bind_eq_bind, Option.bind_eq_some_iff, Prod.exists, Option.some.injEq,
      Prod.mk.injEq] at h
    obtain ⟨s₁, d₁, x, hblock, buf, hbuf, rfl, rfl⟩ := h
    obtain ⟨hM, hE, hkeep, hx, hf⟩ := dataBlock_spec R.mapped hi hk hfree hs hd hblock
    have hlen : s₁.len = s.len := hkeep.len_eq
    have hxd : addrOf (Function.update D i d₁ i) s₁.disk (.data ((c i).length / 1024)) = x := by
      rw [Function.update_self, hx]
    have hxf : x < s₁.freeblock := by
      have := hM.addr_lt (Or.inl (Or.inl rfl))
      rwa [hxd] at this
    have hxlo : lo ≤ x := by
      have := hM.bump.lo_le (i, .data ((c i).length / 1024)) (Or.inl (Or.inl rfl))
      rwa [hxd] at this
    obtain ⟨hxlen, rfl⟩ := rsect_eq_some (by omega) hbuf
    have hchunk := chunk_pos (c i).length hp
    have hle := chunk_le (c i).length p.length
    have hoff : (c i).length - (c i).length / 1024 * 1024 = (c i).length % 1024 := by omega
    have hwrite : ∀ buf, Keeps lo s₁ (wsect s₁ .data x buf) := fun buf =>
      keeps_wsect buf hxlo hxlen (hlen ▸ hs)
    rw [hoff, wsect_disk _ _ (by omega)]
    refine ⟨?_, hkeep.trans (hwrite _), ?_⟩
    · refine R.append hi ?_ ?_ hM hE hxd
      · rw [List.length_take]
        omega
      · rw [List.length_take]
        omega
    · rw [(hwrite _).len_eq]
      change s₁.freeblock ≤ s₁.len
      omega
  · cases h

theorem iappendLoop_spec {p : List Byte} (R : Represents I lo D s.disk s.freeblock c) (hi : I i)
    (hfree : s.freeblock ≤ s.len) (hs : s.len < 2 ^ 22) (hd : D i = d) {off off' : Nat}
    (hoff : off = (c i).length) (h : iappendLoop s d off p = some (s', d', off')) :
    Represents I lo (Function.update D i d') s'.disk s'.freeblock
        (Function.update c i (c i ++ p)) ∧
      Keeps lo s s' ∧ s'.freeblock ≤ s'.len ∧ off' = off + p.length := by
  fun_induction iappendLoop s d off p generalizing D c with
  | case1 s d off p hp hnone => cases h
  | case2 s d off p hp s₁ d₁ hblock ih =>
    subst hoff
    obtain ⟨hR, hkeep, hfree₁⟩ := appendBlock_spec R hi hp hfree hs hd hblock
    have hn := chunk_le (c i).length p.length
    obtain ⟨hR', hkeep', hfree', rfl⟩ := ih hR hfree₁ (hkeep.len_eq ▸ hs)
      (Function.update_self ..)
      (by rw [Function.update_self, List.length_append, List.length_take]; omega) h
    refine ⟨?_, hkeep.trans hkeep', hfree', ?_⟩
    · rw [Function.update_idem, Function.update_idem, Function.update_self, List.append_assoc,
        List.take_append_drop] at hR'
      exact hR'
    · rw [List.length_drop]
      omega
  | case3 s d off p hp =>
    simp only [Option.some.injEq, Prod.mk.injEq] at h
    obtain ⟨rfl, rfl, rfl⟩ := h
    obtain rfl : p = [] := List.length_eq_zero_iff.mp (by omega)
    rw [← hd, Function.update_eq_self, List.append_nil, Function.update_eq_self]
    exact ⟨R, Keeps.refl, hfree, rfl⟩

theorem rsect_of_lt {b : Nat} (hb : b < s.len) (hs : s.len < 2 ^ 22) :
    rsect s b = some (s.disk b) := by
  rw [rsect, sector_eq (by omega), if_pos hb]

theorem appendBlock_isSome (R : Represents I lo D s.disk s.freeblock c) (hi : I i)
    {p : List Byte} (hdirect : (c i).length < 12 * 1024) (hfree : s.freeblock < s.len)
    (hs : s.len < 2 ^ 22) (hd : D i = d) :
    ∃ s' d', appendBlock s d (c i).length p = some (s', d') ∧
      s'.freeblock ≤ s.freeblock + 1 := by
  have hk : (c i).length / 1024 < 12 := by omega
  generalize hr : allocAddr s d ((c i).length / 1024) = r
  obtain ⟨s₁, d₁⟩ := r
  have hA := allocAddr_spec R.mapped hi (by omega) (by omega) hd hr
  have hlen : s₁.len = s.len := hA.keeps.len_eq
  have hf : s₁.freeblock ≤ s.freeblock + 1 := by
    obtain hf | ⟨hf, -⟩ := hA.freeblock_eq <;> omega
  have hx := hA.mapped.addr_lt (Or.inl rfl)
  rw [Function.update_self, addrOf_slotPlace _ _ (by omega)] at hx
  have hread := rsect_of_lt (s := s₁) (b := (d₁.addr ((c i).length / 1024)).toNat)
    (by omega) (by omega)
  rw [appendBlock, if_pos (by omega), dataBlock, if_pos hk, hr]
  simp only [xint_eq, Option.bind_eq_bind, Option.bind_some, hread]
  exact ⟨_, _, rfl, hf⟩

/-- The rounds of the loop of `iappend` for a piece of `n` bytes at `off`. -/
def rounds (off n : Nat) : Nat := if n = 0 then 0 else (off % 1024 + n - 1) / 1024 + 1

theorem rounds_le (off : Nat) {n : Nat} (hn : n ≤ 1024) : rounds off n ≤ 2 := by
  rw [rounds]
  split
  · omega
  · omega

theorem rounds_chunk (off : Nat) {n : Nat} (hn : 0 < n) :
    rounds (off + chunk off n) (n - chunk off n) + 1 ≤ rounds off n := by
  rw [rounds, rounds, chunk, if_neg (by omega : n ≠ 0)]
  split
  · omega
  · omega

theorem iappendLoop_isSome (R : Represents I lo D s.disk s.freeblock c) (hi : I i)
    {p : List Byte} (hdirect : (c i).length + p.length ≤ 12 * 1024) {off : Nat}
    (hfree : s.freeblock + rounds off p.length ≤ s.len) (hfree' : s.freeblock ≤ s.len)
    (hs : s.len < 2 ^ 22) (hd : D i = d) (hoff : off = (c i).length) :
    ∃ r, iappendLoop s d off p = some r ∧ r.1.freeblock ≤ s.freeblock + rounds off p.length := by
  fun_induction iappendLoop s d off p generalizing D c with
  | case1 s d off p hp hnone =>
    subst hoff
    have hone := rounds_chunk (c i).length hp
    obtain ⟨s₁, d₁, hb, -⟩ := appendBlock_isSome R hi (p := p) (by omega) (by omega) hs hd
    rw [hnone] at hb
    cases hb
  | case2 s d off p hp s₁ d₁ hblock ih =>
    subst hoff
    have hone := rounds_chunk (c i).length hp
    obtain ⟨s₂, d₂, hb, hf⟩ := appendBlock_isSome R hi (p := p) (by omega) (by omega) hs hd
    obtain ⟨rfl, rfl⟩ := Prod.mk.inj (Option.some.inj (hblock.symm.trans hb))
    obtain ⟨hR, hkeep, hfree₁⟩ := appendBlock_spec R hi hp hfree' hs hd hblock
    have hlen := hkeep.len_eq
    have hn := chunk_le (c i).length p.length
    have hlength : (Function.update c i (c i ++ p.take (chunk (c i).length p.length)) i).length =
        (c i).length + chunk (c i).length p.length := by
      rw [Function.update_self, List.length_append, List.length_take]
      omega
    rw [List.length_drop] at ih
    obtain ⟨r, hr, hf'⟩ := ih hR (by omega) (by omega) hfree₁ (hlen ▸ hs) (Function.update_self ..)
      hlength.symm
    exact ⟨r, hr, by omega⟩
  | case3 s d off p hp => exact ⟨_, rfl, Nat.le_add_right _ _⟩

end Raynix.MkfsContents
