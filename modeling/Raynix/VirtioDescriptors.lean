import Mathlib.Algebra.Order.Group.Nat
import Mathlib.Data.Finset.Card
import Mathlib.Order.Interval.Finset.Nat
import Raynix.VirtioStep

namespace Raynix.VirtioDescriptors

open Lib Virtio VirtioStep

variable {V : Params} {B T : Type}

def Idx.toList (c : Idx) : List Nat := [c.i0, c.i1, c.i2]

/-- Descriptor `i` free and zeroed. -/
def freed (d : Disk V B) (i : Nat) : Disk V B :=
  { d with
    desc := Function.update d.desc i (Desc.zero B)
    free := Function.update d.free i true }

theorem freeDesc_eq {d : Disk V B} {i : Nat} (hi : i < V.num) (hfree : d.free i = false) :
    freeDesc d i = .ok (freed d i) := by
  rw [freeDesc, if_neg (Nat.not_le.mpr hi), if_neg (by simp [hfree])]
  rfl

theorem freeDesc_eq_ok {d d' : Disk V B} {i : Nat} (h : freeDesc d i = .ok d') :
    i < V.num ∧ d.free i = false ∧ d' = freed d i := by
  unfold freeDesc at h
  split at h
  · cases h
  · split at h
    · cases h
    · rename_i hi hfree
      exact ⟨by omega, by simpa using hfree, (Except.ok.inj h).symm⟩

/-- Descriptor `i` no longer free. -/
def reserved (d : Disk V B) (i : Nat) : Disk V B :=
  { d with free := Function.update d.free i false }

theorem reserved_free_self (d : Disk V B) (i : Nat) : (reserved d i).free i = false :=
  Function.update_self ..

theorem reserved_free_of_ne (d : Disk V B) {i j : Nat} (h : j ≠ i) :
    (reserved d i).free j = d.free j := Function.update_of_ne h ..

theorem allocDesc_eq_some {d d' : Disk V B} {i : Nat} (h : allocDesc d = some (i, d')) :
    i < V.num ∧ d.free i = true ∧ d' = reserved d i := by
  unfold allocDesc at h
  split at h
  · rename_i j hj
    obtain ⟨rfl, rfl⟩ := Prod.mk.inj (Option.some.inj h)
    exact ⟨List.mem_range.mp (List.mem_of_find?_eq_some hj), List.find?_some hj, rfl⟩
  · cases h

theorem freed_reserved {d : Disk V B} {i : Nat} (hfree : d.free i = true)
    (hzero : d.desc i = Desc.zero B) : freed (reserved d i) i = d := by
  simp only [freed, reserved, Function.update_idem]
  rw [← hzero, ← hfree, Function.update_eq_self, Function.update_eq_self]

theorem freed_reserved_comm (d : Disk V B) {i j : Nat} (h : i ≠ j) :
    freed (reserved d j) i = reserved (freed d i) j := by
  simp only [freed, reserved]
  rw [Function.update_comm h.symm]

/-- Three descriptors taken. -/
def reserved3 (d : Disk V B) (c : Idx) : Disk V B :=
  reserved (reserved (reserved d c.i0) c.i1) c.i2

theorem alloc3Desc_spec (d : Disk V B)
    (hzero : ∀ i < V.num, d.free i = true → d.desc i = Desc.zero B) :
    alloc3Desc d = .ok (d, none) ∨
      ∃ c, alloc3Desc d = .ok (reserved3 d c, some c) ∧ (Idx.toList c).Nodup ∧
        ∀ i ∈ Idx.toList c, i < V.num ∧ d.free i = true := by
  rw [alloc3Desc]
  split
  · exact Or.inl rfl
  · rename_i i0 d₁ h₀
    obtain ⟨hi0, hf0, rfl⟩ := allocDesc_eq_some h₀
    have hback := freed_reserved hf0 (hzero i0 hi0 hf0)
    split
    · left
      rw [freeDesc_eq hi0 (reserved_free_self d i0), hback]
      rfl
    · rename_i i1 d₂ h₁
      obtain ⟨hi1, hf1, rfl⟩ := allocDesc_eq_some h₁
      have h10 : i1 ≠ i0 := by
        rintro rfl
        rw [reserved_free_self] at hf1
        cases hf1
      rw [reserved_free_of_ne d h10] at hf1
      split
      -- The third descriptor is missing: the two others are given back.
      · left
        have hf0' : (reserved (reserved d i0) i1).free i0 = false := by
          rw [reserved_free_of_ne _ h10.symm, reserved_free_self]
        rw [freeDesc_eq hi0 hf0', freed_reserved_comm _ h10.symm, hback]
        change (freeDesc (reserved d i1) i1).bind (fun d => Except.ok (d, none)) = _
        rw [freeDesc_eq hi1 (reserved_free_self d i1), freed_reserved hf1 (hzero i1 hi1 hf1)]
        rfl
      · rename_i i2 d₃ h₂
        obtain ⟨hi2, hf2, rfl⟩ := allocDesc_eq_some h₂
        have h21 : i2 ≠ i1 := by
          rintro rfl
          rw [reserved_free_self] at hf2
          cases hf2
        rw [reserved_free_of_ne _ h21] at hf2
        have h20 : i2 ≠ i0 := by
          rintro rfl
          rw [reserved_free_self] at hf2
          cases hf2
        rw [reserved_free_of_ne _ h20] at hf2
        refine Or.inr ⟨⟨i0, i1, i2⟩, rfl, ?_, ?_⟩
        · simp [Idx.toList, h10.symm, h20.symm, h21.symm]
        · simp [Idx.toList, hi0, hi1, hi2, hf0, hf1, hf2]

section alloc

variable {d d' : Disk V B} {c : Idx}
  (hzero : ∀ i < V.num, d.free i = true → d.desc i = Desc.zero B)

include hzero

theorem alloc3Desc_ne_error (e : Fault) : alloc3Desc d ≠ .error e := by
  obtain hno | ⟨c, hc, -⟩ := alloc3Desc_spec d hzero
  · rw [hno]
    exact nofun
  · rw [hc]
    exact nofun

theorem alloc3Desc_eq_some (h : alloc3Desc d = .ok (d', some c)) :
    d' = reserved3 d c ∧ (Idx.toList c).Nodup ∧
      ∀ i ∈ Idx.toList c, i < V.num ∧ d.free i = true := by
  obtain hno | ⟨c', hc, hnodup, hfree⟩ := alloc3Desc_spec d hzero
  · rw [hno] at h
    cases h
  · rw [hc] at h
    cases h
    exact ⟨rfl, hnodup, hfree⟩

theorem alloc3Desc_eq_none (h : alloc3Desc d = .ok (d', none)) : d' = d := by
  obtain hno | ⟨c', hc, -⟩ := alloc3Desc_spec d hzero
  · rw [hno] at h
    cases h
    rfl
  · rw [hc] at h
    cases h

end alloc

/-- The three descriptors are a chain, the last one for the status of the head. -/
structure Linked (d : Disk V B) (c : Idx) : Prop where
  flags0 : (d.desc c.i0).flags &&& V.descFNext ≠ 0
  next0 : (d.desc c.i0).next.toNat = c.i1
  flags1 : (d.desc c.i1).flags &&& V.descFNext ≠ 0
  next1 : (d.desc c.i1).next.toNat = c.i2
  flags2 : (d.desc c.i2).flags &&& V.descFNext = 0
  addr2 : (d.desc c.i2).addr = .status c.i0

theorem Linked.congr {d d' : Disk V B} {c : Idx} (h : Linked d c)
    (hd : ∀ i ∈ Idx.toList c, d'.desc i = d.desc i) : Linked d' c := by
  have h0 := hd c.i0 (by simp [Idx.toList])
  have h1 := hd c.i1 (by simp [Idx.toList])
  have h2 := hd c.i2 (by simp [Idx.toList])
  exact ⟨h0 ▸ h.flags0, h0 ▸ h.next0, h1 ▸ h.flags1, h1 ▸ h.next1, h2 ▸ h.flags2, h2 ▸ h.addr2⟩

theorem num_le (V : Params) : V.num ≤ 2 ^ 16 := Nat.le_of_dvd (by decide) V.num_dvd

theorem formatReq_linked [DecidableEq B] (d : Disk V B) (b : B) (write : Bool) {c : Idx}
    (hnodup : (Idx.toList c).Nodup) (hlt : ∀ i ∈ Idx.toList c, i < V.num) :
    Linked (formatReq d b write c) c := by
  obtain ⟨i0, i1, i2⟩ := c
  have hnum := num_le V
  simp only [Idx.toList, List.nodup_cons, List.mem_cons, List.not_mem_nil, or_false, not_or,
    List.nodup_nil, and_true, not_false_eq_true] at hnodup
  obtain ⟨⟨h01, h02⟩, h12⟩ := hnodup
  have hi1 : i1 < V.num := hlt i1 (by simp [Idx.toList])
  have hi2 : i2 < V.num := hlt i2 (by simp [Idx.toList])
  have hand : V.descFNext &&& V.descFNext = V.descFNext := BitVec.and_self
  refine ⟨?_, ?_, ?_, ?_, ?_, ?_⟩
  · simp only [formatReq, Function.update_of_ne h02, Function.update_of_ne h01,
      Function.update_self, hand]
    exact V.next_ne
  · simp only [formatReq, Function.update_of_ne h02, Function.update_of_ne h01,
      Function.update_self, BitVec.toNat_ofNat]
    omega
  · simp only [formatReq, Function.update_of_ne h12, Function.update_self]
    have hfirst : (if write then 0 else V.descFWrite) &&& V.descFNext = 0 := by
      split
      · simp
      · exact V.write_next
    rw [BitVec.and_or_distrib_right, hand, hfirst]
    simpa using V.next_ne
  · simp only [formatReq, Function.update_of_ne h12, Function.update_self, BitVec.toNat_ofNat]
    omega
  · simp only [formatReq, Function.update_self]
    exact V.write_next
  · simp only [formatReq, Function.update_self]

/-- A chain freed. -/
def freed3 (d : Disk V B) (c : Idx) : Disk V B := freed (freed (freed d c.i0) c.i1) c.i2

theorem freeChain_eq {d : Disk V B} {c : Idx} (h : Linked d c) (hnodup : (Idx.toList c).Nodup)
    (hused : ∀ i ∈ Idx.toList c, i < V.num ∧ d.free i = false) :
    freeChain d c.i0 = .ok (freed3 d c) := by
  obtain ⟨i0, i1, i2⟩ := c
  simp only [Idx.toList, List.nodup_cons, List.mem_cons, List.not_mem_nil, or_false, not_or,
    List.nodup_nil, and_true, not_false_eq_true] at hnodup
  obtain ⟨⟨h01, h02⟩, h12⟩ := hnodup
  obtain ⟨hi0, hf0⟩ := hused i0 (by simp [Idx.toList])
  obtain ⟨hi1, hf1⟩ := hused i1 (by simp [Idx.toList])
  obtain ⟨hi2, hf2⟩ := hused i2 (by simp [Idx.toList])
  have hf1' : (freed d i0).free i1 = false :=
    (Function.update_of_ne (Ne.symm h01) ..).trans hf1
  have hf2' : (freed (freed d i0) i1).free i2 = false :=
    (Function.update_of_ne (Ne.symm h12) ..).trans
      ((Function.update_of_ne (Ne.symm h02) ..).trans hf2)
  have hd1 : (freed d i0).desc i1 = d.desc i1 := Function.update_of_ne (Ne.symm h01) ..
  have hd2 : (freed (freed d i0) i1).desc i2 = d.desc i2 :=
    (Function.update_of_ne (Ne.symm h12) ..).trans (Function.update_of_ne (Ne.symm h02) ..)
  obtain ⟨n, hn⟩ : ∃ n, V.num + 1 = n + 3 := ⟨V.num - 2, by have := V.three_le; omega⟩
  rw [freeChain, hn, freeChainLoop, freeDesc_eq hi0 hf0]
  simp only [if_pos h.flags0, h.next0]
  rw [freeChainLoop, freeDesc_eq hi1 hf1']
  simp only [hd1, if_pos h.flags1, h.next1]
  rw [freeChainLoop, freeDesc_eq hi2 hf2']
  simp only [hd2, h.flags2, ne_eq, not_true_eq_false, if_false, freed3]

theorem mem_toList {c : Idx} {i : Nat} : i ∈ Idx.toList c ↔ i = c.i0 ∨ i = c.i1 ∨ i = c.i2 := by
  simp [Idx.toList]

theorem reserved3_free_mem (d : Disk V B) {c : Idx} {i : Nat} (h : i ∈ Idx.toList c) :
    (reserved3 d c).free i = false := by
  obtain rfl | rfl | rfl := mem_toList.mp h <;> simp [reserved3, reserved, Function.update_apply]

theorem reserved3_free_not_mem (d : Disk V B) {c : Idx} {i : Nat} (h : i ∉ Idx.toList c) :
    (reserved3 d c).free i = d.free i := by
  simp only [mem_toList, not_or] at h
  simp [reserved3, reserved, h]

theorem freed3_mem (d : Disk V B) {c : Idx} {i : Nat} (h : i ∈ Idx.toList c) :
    (freed3 d c).free i = true ∧ (freed3 d c).desc i = Desc.zero B := by
  obtain rfl | rfl | rfl := mem_toList.mp h <;> simp [freed3, freed, Function.update_apply]

theorem freed3_not_mem (d : Disk V B) {c : Idx} {i : Nat} (h : i ∉ Idx.toList c) :
    (freed3 d c).free i = d.free i ∧ (freed3 d c).desc i = d.desc i := by
  simp only [mem_toList, not_or] at h
  simp [freed3, freed, h]

theorem formatReq_desc_not_mem [DecidableEq B] (d : Disk V B) (b : B) (write : Bool) {c : Idx}
    {i : Nat} (h : i ∉ Idx.toList c) : (formatReq d b write c).desc i = d.desc i := by
  simp only [mem_toList, not_or] at h
  simp [formatReq, h]

/-- The descriptors that `free_chain` can still free. -/
def inUse (d : Disk V B) : Finset Nat := (Finset.range V.num).filter fun i => d.free i = false

theorem mem_inUse {d : Disk V B} {i : Nat} : i ∈ inUse d ↔ i < V.num ∧ d.free i = false := by
  rw [inUse, Finset.mem_filter, Finset.mem_range]

theorem inUse_freed_lt {d : Disk V B} {i : Nat} (hi : i < V.num) (hfree : d.free i = false) :
    (inUse (freed d i)).card < (inUse d).card := by
  apply Finset.card_lt_card
  have hout : i ∉ inUse (freed d i) := by
    rw [mem_inUse]
    rintro ⟨-, h⟩
    simp [freed] at h
  refine (Finset.ssubset_iff_of_subset ?_).mpr ⟨i, mem_inUse.mpr ⟨hi, hfree⟩, hout⟩
  intro j hj
  have hji : j ≠ i := fun h => hout (h ▸ hj)
  rw [mem_inUse] at hj ⊢
  exact ⟨hj.1, (Function.update_of_ne hji ..).symm.trans hj.2⟩

/-- The bound on the loop of `free_chain` does not cut it short. -/
theorem freeChainLoop_fuel {n m : Nat} {d : Disk V B} {i : Nat} (hn : (inUse d).card < n)
    (hm : (inUse d).card < m) : freeChainLoop n d i = freeChainLoop m d i := by
  induction n generalizing m d i with
  | zero => cases hn
  | succ n ih =>
    cases m with
    | zero => cases hm
    | succ m =>
      rw [freeChainLoop, freeChainLoop]
      split
      · rfl
      · rename_i d' hd'
        obtain ⟨hi, hfree, rfl⟩ := freeDesc_eq_ok hd'
        have hlt := inUse_freed_lt hi hfree
        rw [ih (m := m) (by omega) (by omega)]

theorem freeChainLoop_eq {n : Nat} (hn : V.num < n) (d : Disk V B) (i : Nat) :
    freeChainLoop n d i = freeChain d i := by
  have hcard : (inUse d).card ≤ V.num := by
    apply (Finset.card_filter_le _ _).trans
    rw [Finset.card_range]
  exact freeChainLoop_fuel (by omega) (by omega)

/-- The descriptors that a thread has taken. -/
def chain : Pc B → Option Idx
  | .format _ _ idx => some idx
  | .submit _ idx => some idx
  | .publish _ idx _ => some idx
  | .wait _ idx _ => some idx
  | .waitSleep _ idx _ => some idx
  | .finish _ idx _ => some idx
  | _ => none

/-- The descriptors that a thread has filled in. -/
def linkedChain : Pc B → Option Idx
  | .format _ _ _ => none
  | pc => chain pc

theorem waitSleep_of_chain {pc : Pc B} {c : Idx} (h : chain pc = some c)
    (hcrit : critical pc = false) : ∃ b r, pc = .waitSleep b c r := by
  cases pc <;> simp_all [chain, critical]

/-- The descriptors are free and zero, or belong to one thread. -/
structure Owned (s : State V B T) : Prop where
  nodup : ∀ t c, chain (s.pc t) = some c → (Idx.toList c).Nodup
  used : ∀ t c, chain (s.pc t) = some c → ∀ i ∈ Idx.toList c, i < V.num ∧ s.disk.free i = false
  disjoint : ∀ t u c c', t ≠ u → chain (s.pc t) = some c → chain (s.pc u) = some c' →
    ∀ i ∈ Idx.toList c, i ∉ Idx.toList c'
  covered : ∀ i < V.num, s.disk.free i = false → ∃ t c, chain (s.pc t) = some c ∧
    i ∈ Idx.toList c
  zero : ∀ i < V.num, s.disk.free i = true → s.disk.desc i = Desc.zero B
  linked : ∀ t c, linkedChain (s.pc t) = some c → Linked s.disk c
  no_panic : s.fault ≠ some (.panic "free_desc 1") ∧ s.fault ≠ some (.panic "free_desc 2")

variable {s s' : State V B T} {t : T} {c : Idx}

theorem chain_of_linkedChain {pc : Pc B} (h : linkedChain pc = some c) : chain pc = some c := by
  cases pc <;> first | exact h | cases h

theorem Owned.congr (O : Owned s) (hdesc : s'.disk.desc = s.disk.desc)
    (hfree : s'.disk.free = s.disk.free) (hchain : ∀ u, chain (s'.pc u) = chain (s.pc u))
    (hlinked : ∀ u, linkedChain (s'.pc u) = linkedChain (s.pc u))
    (hfault : s'.fault ≠ some (.panic "free_desc 1") ∧ s'.fault ≠ some (.panic "free_desc 2")) :
    Owned s' := by
  refine ⟨?_, ?_, ?_, ?_, ?_, ?_, hfault⟩
  · intro t c h
    exact O.nodup t c (hchain t ▸ h)
  · intro t c h
    rw [hfree]
    exact O.used t c (hchain t ▸ h)
  · intro t u c c' htu h h'
    exact O.disjoint t u c c' htu (hchain t ▸ h) (hchain u ▸ h')
  · intro i hi hf
    rw [hfree] at hf
    obtain ⟨t, c, h, hmem⟩ := O.covered i hi hf
    exact ⟨t, c, (hchain t).trans h, hmem⟩
  · intro i hi hf
    rw [hfree] at hf
    rw [hdesc]
    exact O.zero i hi hf
  · intro t c h
    exact (O.linked t c (hlinked t ▸ h)).congr fun i _ => by rw [hdesc]

theorem goto_apply [DecidableEq T] {α : Type} (f : Pc B → α) {pc : Pc B}
    (h : f pc = f (s.pc t)) (u : T) : f ((s.goto t pc).pc u) = f (s.pc u) := by
  by_cases hu : u = t
  · subst hu
    rw [goto_pc_self, h]
  · rw [goto_pc_of_ne s pc hu]

theorem Owned.goto [DecidableEq T] (O : Owned s) {pc : Pc B}
    (hpc : s'.pc = (s.goto t pc).pc) (hdesc : s'.disk.desc = s.disk.desc)
    (hfree : s'.disk.free = s.disk.free) (hfault : s'.fault = s.fault)
    (hchain : chain pc = chain (s.pc t)) (hlinked : linkedChain pc = linkedChain (s.pc t)) :
    Owned s' := by
  refine O.congr hdesc hfree ?_ ?_ (hfault ▸ O.no_panic)
  · intro u
    rw [hpc]
    exact goto_apply chain hchain u
  · intro u
    rw [hpc]
    exact goto_apply linkedChain hlinked u

theorem Owned.alloc [DecidableEq T] (O : Owned s) {b : B} {write : Bool}
    (ht : chain (s.pc t) = none) (hnodup : (Idx.toList c).Nodup)
    (hfree : ∀ i ∈ Idx.toList c, i < V.num ∧ s.disk.free i = true) :
    Owned { s.goto t (.format b write c) with disk := reserved3 s.disk c } := by
  have hself : ((s.goto t (.format b write c)).pc t) = .format b write c := goto_pc_self ..
  have hother : ∀ u, u ≠ t → (s.goto t (.format b write c)).pc u = s.pc u := fun u hu =>
    goto_pc_of_ne s _ hu
  have hnew : ∀ u d, u ≠ t → chain (s.pc u) = some d → ∀ i ∈ Idx.toList d, i ∉ Idx.toList c := by
    intro u d hu hd i hi hc
    have := (O.used u d hd i hi).2
    rw [(hfree i hc).2] at this
    cases this
  refine ⟨?_, ?_, ?_, ?_, ?_, ?_, O.no_panic⟩
  · intro u d hd
    by_cases hu : u = t
    · subst hu
      rw [hself] at hd
      exact Option.some.inj hd ▸ hnodup
    · rw [hother u hu] at hd
      exact O.nodup u d hd
  · intro u d hd i hi
    by_cases hu : u = t
    · subst hu
      rw [hself] at hd
      obtain rfl := Option.some.inj hd
      exact ⟨(hfree i hi).1, reserved3_free_mem _ hi⟩
    · rw [hother u hu] at hd
      refine ⟨(O.used u d hd i hi).1, ?_⟩
      exact (reserved3_free_not_mem _ (hnew u d hu hd i hi)).trans (O.used u d hd i hi).2
  · intro u v d d' huv hd hd'
    by_cases hu : u = t
    · subst hu
      rw [hself] at hd
      rw [hother v huv.symm] at hd'
      obtain rfl := Option.some.inj hd
      exact fun i hi hi' => hnew v d' huv.symm hd' i hi' hi
    · rw [hother u hu] at hd
      by_cases hv : v = t
      · subst hv
        rw [hself] at hd'
        exact Option.some.inj hd' ▸ hnew u d hu hd
      · rw [hother v hv] at hd'
        exact O.disjoint u v d d' huv hd hd'
  · intro i hi hf
    by_cases hc : i ∈ Idx.toList c
    · exact ⟨t, c, by rw [hself]; rfl, hc⟩
    · obtain ⟨u, d, hd, hmem⟩ := O.covered i hi ((reserved3_free_not_mem _ hc).symm.trans hf)
      have hu : u ≠ t := by
        rintro rfl
        rw [ht] at hd
        cases hd
      exact ⟨u, d, by rw [hother u hu]; exact hd, hmem⟩
  · intro i hi hf
    have hc : i ∉ Idx.toList c := fun hc => by
      rw [reserved3_free_mem _ hc] at hf
      cases hf
    exact O.zero i hi ((reserved3_free_not_mem _ hc).symm.trans hf)
  · intro u d hd
    by_cases hu : u = t
    · subst hu
      rw [hself] at hd
      cases hd
    · rw [hother u hu] at hd
      exact (O.linked u d hd).congr fun _ _ => rfl

theorem Owned.format [DecidableEq B] [DecidableEq T] (O : Owned s) {b : B} {write : Bool}
    (ht : s.pc t = .format b write c) :
    Owned { s.goto t (.submit b c) with disk := formatReq s.disk b write c } := by
  have htc : chain (s.pc t) = some c := by rw [ht]; rfl
  have hchain : ∀ u, chain ((s.goto t (.submit b c)).pc u) = chain (s.pc u) :=
    goto_apply chain htc.symm
  refine ⟨?_, ?_, ?_, ?_, ?_, ?_, O.no_panic⟩
  · exact fun u d hd => O.nodup u d (hchain u ▸ hd)
  · exact fun u d hd => O.used u d (hchain u ▸ hd)
  · exact fun u v d d' huv hd hd' => O.disjoint u v d d' huv (hchain u ▸ hd) (hchain v ▸ hd')
  · intro i hi hf
    obtain ⟨u, d, hd, hmem⟩ := O.covered i hi hf
    exact ⟨u, d, (hchain u).trans hd, hmem⟩
  · intro i hi hf
    have hc : i ∉ Idx.toList c := fun hc => by
      have := (O.used t c htc i hc).2
      rw [show s.disk.free i = true from hf] at this
      cases this
    exact (formatReq_desc_not_mem _ b write hc).trans (O.zero i hi hf)
  · intro u d hd
    by_cases hu : u = t
    · subst hu
      rw [goto_pc_self] at hd
      obtain rfl := Option.some.inj hd
      exact formatReq_linked _ b write (O.nodup u _ htc) fun i hi => (O.used u _ htc i hi).1
    · rw [goto_pc_of_ne s _ hu] at hd
      refine (O.linked u d hd).congr fun i hi => ?_
      exact formatReq_desc_not_mem _ b write
        (O.disjoint u t d c hu (chain_of_linkedChain hd) htc i hi)

theorem Owned.finish [DecidableEq T] (O : Owned s) {b : B} {r : Nat}
    (ht : s.pc t = .finish b c r) : Owned (finishReq s t b c r) := by
  have htc : chain (s.pc t) = some c := by rw [ht]; rfl
  have hlink : Linked s.disk c := O.linked t c (by rw [ht]; rfl)
  have hfc := freeChain_eq (d := { s.disk with infoB := Function.update s.disk.infoB c.i0 none })
    (hlink.congr fun _ _ => rfl) (O.nodup t c htc) (O.used t c htc)
  rw [finishReq, hfc]
  have hself : ((s.goto t (.rwRelease b r)).pc t) = .rwRelease b r := goto_pc_self ..
  have hother : ∀ u, u ≠ t → (s.goto t (.rwRelease b r)).pc u = s.pc u := fun u hu =>
    goto_pc_of_ne s _ hu
  have hne : ∀ u d, chain ((s.goto t (.rwRelease b r)).pc u) = some d →
      u ≠ t ∧ chain (s.pc u) = some d := by
    intro u d hd
    by_cases hu : u = t
    · subst hu
      rw [hself] at hd
      cases hd
    · exact ⟨hu, hother u hu ▸ hd⟩
  refine ⟨?_, ?_, ?_, ?_, ?_, ?_, O.no_panic⟩
  · exact fun u d hd => O.nodup u d (hne u d hd).2
  · intro u d hd i hi
    obtain ⟨hu, hd⟩ := hne u d hd
    have hc : i ∉ Idx.toList c := O.disjoint u t d c hu hd htc i hi
    exact ⟨(O.used u d hd i hi).1, (freed3_not_mem _ hc).1.trans (O.used u d hd i hi).2⟩
  · exact fun u v d d' huv hd hd' => O.disjoint u v d d' huv (hne u d hd).2 (hne v d' hd').2
  · intro i hi hf
    have hc : i ∉ Idx.toList c := fun hc => by
      rw [(freed3_mem _ hc).1] at hf
      cases hf
    obtain ⟨u, d, hd, hmem⟩ := O.covered i hi ((freed3_not_mem _ hc).1.symm.trans hf)
    have hu : u ≠ t := by
      rintro rfl
      rw [htc] at hd
      exact hc (Option.some.inj hd ▸ hmem)
    exact ⟨u, d, by rw [hother u hu]; exact hd, hmem⟩
  · intro i hi hf
    by_cases hc : i ∈ Idx.toList c
    · exact (freed3_mem _ hc).2
    · exact (freed3_not_mem _ hc).2.trans (O.zero i hi ((freed3_not_mem _ hc).1.symm.trans hf))
  · intro u d hd
    obtain ⟨hu, hd'⟩ := hne u d (chain_of_linkedChain hd)
    rw [hother u hu] at hd
    refine (O.linked u d hd).congr fun i hi => ?_
    exact (freed3_not_mem _ (O.disjoint u t d c hu hd' htc i hi)).2

variable [DecidableEq B] [DecidableEq T] {a : Act B T}

omit [DecidableEq B] [DecidableEq T] in
theorem postReq_disk {k : Nat} {status : BitVec 8} (h : postReq s k status = some s') :
    s'.pc = s.pc ∧ s'.disk.desc = s.disk.desc ∧ s'.disk.free = s.disk.free ∧
      s'.fault = s.fault := by
  unfold postReq at h
  split at h
  · cases h
  · exact Option.some.inj h ▸ ⟨rfl, rfl, rfl, rfl⟩

omit [DecidableEq B] [DecidableEq T] in
theorem Owned.fault (O : Owned s) {e : Fault} (h1 : e ≠ .panic "free_desc 1")
    (h2 : e ≠ .panic "free_desc 2") : Owned { s with fault := some e } :=
  O.congr rfl rfl (fun _ => rfl) (fun _ => rfl) ⟨by simpa using h1, by simpa using h2⟩

theorem Owned.step (O : Owned s) (h : Move s a s') : Owned s' := by
  cases h
  case rw t b write hpc => exact O.goto rfl rfl rfl rfl (by rw [hpc]; rfl) (by rw [hpc]; rfl)
  case intr t hpc => exact O.goto rfl rfl rfl rfl (by rw [hpc]; rfl) (by rw [hpc]; rfl)
  case lockRw t b write hlock hpc =>
    obtain hpc | hpc := hpc
    all_goals exact O.goto rfl rfl rfl rfl (by rw [hpc]; rfl) (by rw [hpc]; rfl)
  case lockWait t b idx r hlock hpc =>
    exact O.goto rfl rfl rfl rfl (by rw [hpc]; rfl) (by rw [hpc]; rfl)
  case lockIntr t hlock hpc =>
    exact O.goto rfl rfl rfl rfl (by rw [hpc]; rfl) (by rw [hpc]; rfl)
  case allocFault t b write e hpc halloc =>
    exact absurd halloc (alloc3Desc_ne_error O.zero e)
  case allocSome t b write d idx hpc halloc =>
    obtain ⟨rfl, hnodup, hfree⟩ := alloc3Desc_eq_some O.zero halloc
    exact O.alloc (by rw [hpc]; rfl) hnodup hfree
  case allocNone t b write d hpc halloc =>
    obtain rfl := alloc3Desc_eq_none O.zero halloc
    exact O.goto rfl rfl rfl rfl (by rw [hpc]; rfl) (by rw [hpc]; rfl)
  case format t b write idx hpc => exact O.format hpc
  case submit t b idx hpc => exact O.goto rfl rfl rfl rfl (by rw [hpc]; rfl) (by rw [hpc]; rfl)
  case publish t b idx r hpc =>
    exact O.goto rfl rfl rfl rfl (by rw [hpc]; rfl) (by rw [hpc]; rfl)
  case waitBusy t b idx r hpc hdisk =>
    exact O.goto rfl rfl rfl rfl (by rw [hpc]; rfl) (by rw [hpc]; rfl)
  case waitDone t b idx r hpc hdisk =>
    exact O.goto rfl rfl rfl rfl (by rw [hpc]; rfl) (by rw [hpc]; rfl)
  case finish t b idx r hpc => exact O.finish hpc
  case rwRelease t b r hpc => exact O.goto rfl rfl rfl rfl (by rw [hpc]; rfl) (by rw [hpc]; rfl)
  case intrNext t hpc hused => exact O.goto rfl rfl rfl rfl (by rw [hpc]; rfl) (by rw [hpc]; rfl)
  case intrDone t hpc => exact O.goto rfl rfl rfl rfl (by rw [hpc]; rfl) (by rw [hpc]; rfl)
  case intrBody t id r hpc =>
    unfold intrBody
    split
    · exact O.fault (by decide) (by decide)
    · split
      · exact O.fault (by decide) (by decide)
      · exact O.goto rfl rfl rfl rfl (by rw [hpc]; rfl) (by rw [hpc]; rfl)
  case consume hidx =>
    exact O.congr rfl rfl (fun _ => rfl) (fun _ => rfl) O.no_panic
  case post k status q hq hs' =>
    obtain ⟨hpc, hdesc, hfree, hfault⟩ := postReq_disk hs'
    exact O.congr hdesc hfree (fun u => by rw [hpc]) (fun u => by rw [hpc]) (hfault ▸ O.no_panic)

omit [DecidableEq B] [DecidableEq T] in
theorem owned_initial (blockno : B → BitVec 32) : Owned (initial V T blockno) := by
  refine ⟨?_, ?_, ?_, ?_, fun _ _ _ => rfl, ?_, nofun, nofun⟩
  · intro t c h
    cases h
  · intro t c h
    cases h
  · intro t u c c' htu h
    cases h
  · intro i hi h
    cases h
  · intro t c h
    cases h

/-- The free descriptors are zero, and the others are disjoint chains of three, one for each
request in flight. -/
structure Split (s : State V B T) : Prop where
  free_or : ∀ i < V.num, s.disk.free i = true ∧ s.disk.desc i = Desc.zero B ∨
    s.disk.free i = false ∧ ∃ t b c r, s.pc t = .waitSleep b c r ∧ i ∈ Idx.toList c
  chains : ∀ t b c r, s.pc t = .waitSleep b c r →
    (Idx.toList c).Nodup ∧ Linked s.disk c ∧
      ∀ i ∈ Idx.toList c, i < V.num ∧ s.disk.free i = false
  disjoint : ∀ t u b b' c c' r r', t ≠ u → s.pc t = .waitSleep b c r →
    s.pc u = .waitSleep b' c' r' → ∀ i ∈ Idx.toList c, i ∉ Idx.toList c'

omit [DecidableEq B] [DecidableEq T] in
/-- With the lock free, the threads that have descriptors all sleep in the last loop. -/
theorem Owned.split (O : Owned s) (H : Held s) (hlock : s.vdiskLock = none) : Split s := by
  have hnot : ∀ t, critical (s.pc t) = false := by
    intro t
    by_contra h
    have := H t (by simpa using h)
    rw [hlock] at this
    cases this
  refine ⟨?_, ?_, ?_⟩
  · intro i hi
    cases hf : s.disk.free i with
    | true => exact Or.inl ⟨rfl, O.zero i hi hf⟩
    | false =>
      obtain ⟨t, c, hc, hmem⟩ := O.covered i hi hf
      obtain ⟨b, r, hpc⟩ := waitSleep_of_chain hc (hnot t)
      exact Or.inr ⟨rfl, t, b, c, r, hpc, hmem⟩
  · intro t b c r h
    have hc : chain (s.pc t) = some c := by rw [h]; rfl
    exact ⟨O.nodup t c hc, O.linked t c (by rw [h]; rfl), O.used t c hc⟩
  · intro t u b b' c c' r r' htu h h'
    exact O.disjoint t u c c' htu (by rw [h]; rfl) (by rw [h']; rfl)

omit [DecidableEq B] [DecidableEq T] in
theorem Owned.freeChain (O : Owned s) {b : B} {r : Nat} (h : s.pc t = .finish b c r) :
    ∃ d, Virtio.freeChain { s.disk with infoB := Function.update s.disk.infoB c.i0 none } c.i0 =
        .ok d ∧
      (∀ n, V.num < n →
        freeChainLoop n { s.disk with infoB := Function.update s.disk.infoB c.i0 none } c.i0 =
          .ok d) ∧
      (∀ i ∈ Idx.toList c, s.disk.free i = false ∧ d.free i = true) ∧
      ∀ i, i ∉ Idx.toList c → d.free i = s.disk.free i ∧ d.desc i = s.disk.desc i := by
  have hc : chain (s.pc t) = some c := by rw [h]; rfl
  have hlink : Linked s.disk c := O.linked t c (by rw [h]; rfl)
  have hfreed := freeChain_eq
    (d := { s.disk with infoB := Function.update s.disk.infoB c.i0 none })
    (hlink.congr fun _ _ => rfl) (O.nodup t c hc) (O.used t c hc)
  refine ⟨_, hfreed, fun n hn => (freeChainLoop_eq hn _ _).trans hfreed, ?_, ?_⟩
  · exact fun i hi => ⟨(O.used t c hc i hi).2, (freed3_mem _ hi).1⟩
  · exact fun i hi => freed3_not_mem _ hi

end Raynix.VirtioDescriptors
