import Raynix.PageTree

namespace Raynix.MapLaw

open Raynix.Lib.Memory Raynix.Kalloc Raynix.PageStack Raynix.Vm Raynix.PageTree

theorem index_toNat (va : Addr) (level : Nat) :
    (index va level).toNat = va.toNat / 2 ^ (12 + 9 * level) % 512 := by
  rw [index, BitVec.toNat_setWidth, BitVec.toNat_ushiftRight, Nat.shiftRight_eq_div_pow]

theorem key_eq_iff_mod (a b : Addr) :
    key a = key b ↔ pageNo a % 2 ^ 27 = pageNo b % 2 ^ 27 := by
  rw [key, key, Prod.mk.injEq, Prod.mk.injEq, BitVec.toNat_eq, BitVec.toNat_eq, BitVec.toNat_eq]
  simp only [index_toNat]
  unfold pageNo
  omega

/-- Below 2^39 the places of two addresses agree exactly when their pages do. -/
theorem key_eq_iff {a b : Addr} (ha : a.toNat < 2 ^ 39) (hb : b.toNat < 2 ^ 39) :
    key a = key b ↔ pageNo a = pageNo b := by
  rw [key_eq_iff_mod]
  unfold pageNo
  omega

/-- The entry of a mapped page. -/
def leafPte (pa : Addr) (permission : Word) : Word := (pa >>> 12) <<< 10 ||| permission ||| pteV

/-- One round of the loop of `map`. -/
def mapPage (s : Phys) (root : Addr) (permission : Word) (va pa : Addr) : Phys :=
  (walk s root va).2.store (walk s root va).1 (leafPte pa permission)

theorem mapLoop_succ (s : Phys) (root : Addr) (permission : Word) (va pa : Addr) (n : Nat) :
    mapLoop s root permission va pa (n + 1) =
      mapLoop (mapPage s root permission va pa) root permission (va + 4096) (pa + 4096) n := rfl

theorem mapPage_handed (s : Phys) (root : Addr) (permission : Word) (va pa : Addr) :
    (mapPage s root permission va pa).handed = (walk s root va).2.handed := rfl

theorem mapPage_space {s : Phys} {root : Addr} {free : List Addr} (va pa : Addr)
    (permission : Word) (hs : Space s root free)
    (hsup : Supplied s (mapPage s root permission va pa)) :
    ∃ free', free.length ≤ free'.length + 2 ∧
      Space (mapPage s root permission va pa) root free' ∧
      lookup (mapPage s root permission va pa).mem root va = some (leafPte pa permission) ∧
      ∀ k, k ≠ key va → Keeps s.mem (mapPage s root permission va pa).mem root k := by
  obtain ⟨t, free', hslot, hlen, hwalk, ht, hkeeps⟩ := walk_space hs hsup
  rw [mapPage, hslot]
  refine ⟨free', hlen, hwalk.storeLeaf rfl ht _ _, ?_, ?_⟩
  · exact lookupKey_writeWord hwalk.tree (key va) ht
  · intro k hk
    apply (hkeeps k).trans
    exact Keeps.of_eq (lookupKey_writeWord_of_ne hwalk.tree (key va) ht hk)

theorem mapLoop_count_le (s : Phys) (root : Addr) (permission : Word) (va pa : Addr) (n : Nat) :
    s.handed.count 0 ≤ (mapLoop s root permission va pa n).handed.count 0 := by
  induction n generalizing s va pa with
  | zero => exact le_rfl
  | succ n ih =>
    have hrest := ih (mapPage s root permission va pa) (va + 4096) (pa + 4096)
    rw [mapPage_handed] at hrest
    rw [mapLoop_succ]
    exact (walk_count_le s root va).trans hrest

theorem mapLoop_supplied {s : Phys} {root va pa : Addr} {permission : Word} {n : Nat}
    (h : Supplied s (mapLoop s root permission va pa (n + 1))) :
    Supplied s (mapPage s root permission va pa) ∧
      Supplied (mapPage s root permission va pa)
        (mapLoop (mapPage s root permission va pa) root permission (va + 4096) (pa + 4096) n) := by
  have hpage := walk_count_le s root va
  have hrest := mapLoop_count_le (mapPage s root permission va pa) root permission
    (va + 4096) (pa + 4096) n
  rw [mapPage_handed] at hrest
  rw [mapLoop_succ] at h
  simp only [Supplied, mapPage_handed] at h ⊢
  omega

/-- Page `x` of the range that starts at `a`. -/
def pageAt (a : Addr) (x : Nat) : Addr := a + BitVec.ofNat 64 (4096 * x)

theorem pageAt_succ (a : Addr) (x : Nat) : pageAt (a + 4096) x = pageAt a (x + 1) := by
  unfold pageAt
  bv_omega

theorem pageAt_zero (a : Addr) : pageAt a 0 = a := by
  unfold pageAt
  bv_omega

/-- What `n` rounds of the loop of `map` do: each page has the entry of its last round, and all
other places are kept. -/
theorem mapLoop_space {s : Phys} {root va pa : Addr} {permission : Word} {free : List Addr}
    (n : Nat) (hs : Space s root free) (hsup : Supplied s (mapLoop s root permission va pa n)) :
    ∃ free', Space (mapLoop s root permission va pa n) root free' ∧
      (∀ x < n, (∀ y < n, x < y → key (pageAt va y) ≠ key (pageAt va x)) →
        lookup (mapLoop s root permission va pa n).mem root (pageAt va x) =
          some (leafPte (pageAt pa x) permission)) ∧
      ∀ k, (∀ x < n, key (pageAt va x) ≠ k) →
        Keeps s.mem (mapLoop s root permission va pa n).mem root k := by
  induction n generalizing s va pa free with
  | zero =>
    refine ⟨free, hs, ?_, fun k _ => Keeps.of_eq rfl⟩
    intro x hx
    omega
  | succ n ih =>
    obtain ⟨hsup1, hsup2⟩ := mapLoop_supplied hsup
    rw [mapLoop_succ]
    obtain ⟨free1, -, hs1, hpage, hkeep1⟩ := mapPage_space va pa permission hs hsup1
    obtain ⟨free2, hs2, hpages, hkeep2⟩ := ih hs1 hsup2
    refine ⟨free2, hs2, ?_, ?_⟩
    · intro x hx hlast
      cases x with
      | zero =>
        rw [pageAt_zero] at hlast ⊢
        rw [pageAt_zero]
        apply (hkeep2 (key va) ?_).1 _ hpage
        intro y hy
        rw [pageAt_succ]
        exact hlast (y + 1) (by omega) (by omega)
      | succ x =>
        rw [← pageAt_succ, ← pageAt_succ]
        apply hpages x (by omega)
        intro y hy hxy
        rw [pageAt_succ, pageAt_succ]
        exact hlast (y + 1) (by omega) (by omega)
    · intro k hk
      apply (hkeep1 k ?_).trans
      · apply hkeep2 k
        intro x hx
        rw [pageAt_succ]
        exact hk (x + 1) (by omega)
      · have h0 := hk 0 (by omega)
        rw [pageAt_zero] at h0
        exact h0.symm

theorem mapLoop_supplied_of_length {s : Phys} {root : Addr} {free : List Addr} (permission : Word)
    (va pa : Addr) {n : Nat} (hs : Space s root free) (hfree : 2 * n ≤ free.length) :
    Supplied s (mapLoop s root permission va pa n) := by
  induction n generalizing s va pa free with
  | zero => rfl
  | succ n ih =>
    have hsup : Supplied s (mapPage s root permission va pa) :=
      walk_supplied va hs (by omega)
    obtain ⟨free', hlen, hs', -, -⟩ := mapPage_space va pa permission hs hsup
    rw [mapLoop_succ]
    exact hsup.trans (ih (va + 4096) (pa + 4096) hs' (by omega))

theorem map_supplied {s : Phys} {root : Addr} {free : List Addr} (va pa : Addr)
    (permission : Word) {size : Word} (hs : Space s root free)
    (hfree : 2 * size.toNat ≤ free.length) : Supplied s (map s va pa root size permission) :=
  mapLoop_supplied_of_length permission _ _ hs hfree

/-- `v` lies in the `size` pages from the page of `va` on. -/
def InRange (va : Addr) (size : Word) (v : Addr) : Prop :=
  (pgRoundDown va).toNat ≤ v.toNat ∧ v.toNat < (pgRoundDown va).toNat + size.toNat * 4096

/-- The entry `map` gives the page of `v`. -/
def mappedPte (va pa : Addr) (permission : Word) (v : Addr) : Word :=
  leafPte (pa + (pgRoundDown v - pgRoundDown va)) permission

/-- The range is mapped page by page with exactly the permission, every other place below 2^39
keeps its entry or stays without one, and the tree stays well-formed. -/
structure Maps (before after : Phys) (root va pa : Addr) (size permission : Word) : Prop where
  mapped : ∀ v, InRange va size v →
    lookup after.mem root v = some (mappedPte va pa permission v) ∧
    mappedPte va pa permission v &&& 0x3ff = permission ||| pteV ∧
    findPa after root v = (pgRoundDown pa + (v - pgRoundDown va), after)
  kept : ∀ v, v.toNat < 2 ^ 39 → ¬ InRange va size v → Keeps before.mem after.mem root (key v)
  wellFormed : WellFormed after.mem root

theorem permission_lt {permission : Word}
    (h : permission &&& (pteR ||| pteW ||| pteX ||| pteU) = permission) :
    (permission ||| pteV).toNat < 2 ^ 10 := by
  have hle : permission.toNat ≤ (pteR ||| pteW ||| pteX ||| pteU).toNat := by
    rw [← h, BitVec.toNat_and]
    exact Nat.and_le_right
  have hbits : (pteR ||| pteW ||| pteX ||| pteU).toNat = 30 := rfl
  rw [BitVec.toNat_or]
  exact Nat.or_lt_two_pow (by omega) (by decide)

theorem leafPte_low {pa : Addr} {permission : Word} (hp : (permission ||| pteV).toNat < 2 ^ 10) :
    leafPte pa permission &&& 0x3ff = permission ||| pteV := by
  rw [leafPte, BitVec.or_assoc, pack_low (page_lt pa) hp]

theorem leafPte_page {pa : Addr} {permission : Word} (hp : (permission ||| pteV).toNat < 2 ^ 10) :
    leafPte pa permission >>> 10 = pa >>> 12 := by
  rw [leafPte, BitVec.or_assoc, pack_high (page_lt pa) hp]

theorem findPa_of_lookup {s : Phys} {root v : Addr} {pte : Word}
    (h : lookup s.mem root v = some pte) :
    findPa s root v = ((pte >>> 10) <<< 12 ||| (v &&& 0xfff), s) := by
  rw [lookup, lookupKey, Option.map_eq_some_iff] at h
  obtain ⟨t, ht, rfl⟩ := h
  rw [findPa, walk_of_table ht]
  rfl

theorem offset_toNat (v : Addr) : (v &&& 0xfff).toNat = v.toNat % 4096 := by
  have hmask : (0xfff : Addr).toNat = 2 ^ 12 - 1 := rfl
  rw [BitVec.toNat_and, hmask, Nat.and_two_pow_sub_one_eq_mod]

theorem pageAt_toNat (a : Addr) (x : Nat) (h : a.toNat + 4096 * x < 2 ^ 64) :
    (pageAt a x).toNat = a.toNat + 4096 * x := by
  rw [pageAt, BitVec.toNat_add, BitVec.toNat_ofNat, Nat.mod_eq_of_lt (by omega : 4096 * x < 2 ^ 64),
    Nat.mod_eq_of_lt h]

theorem InRange.exists_page {va v : Addr} {size : Word} (h : InRange va size v)
    (hsize : (pgRoundDown va).toNat + size.toNat * 4096 ≤ 2 ^ 39) :
    ∃ x < size.toNat, v.toNat = (pageAt (pgRoundDown va) x).toNat + v.toNat % 4096 := by
  obtain ⟨hlo, hhi⟩ := h
  have hal := aligned_pgRoundDown va
  unfold Aligned at hal
  refine ⟨(v.toNat - (pgRoundDown va).toNat) / 4096, by omega, ?_⟩
  rw [pageAt_toNat _ _ (by omega)]
  omega

theorem key_pageAt_ne {a : Addr} {x y : Nat} (hx : a.toNat + 4096 * x < 2 ^ 39)
    (hy : a.toNat + 4096 * y < 2 ^ 39) (hxy : x ≠ y) : key (pageAt a x) ≠ key (pageAt a y) := by
  have hxn := pageAt_toNat a x (by omega)
  have hyn := pageAt_toNat a y (by omega)
  rw [Ne, key_eq_iff (by omega) (by omega), pageNo, pageNo]
  omega

theorem translate_page {va pa v : Addr} {x : Nat} (hpa : pa.toNat < 2 ^ 56)
    (hx : 4096 * x < 2 ^ 39) (hva : (pgRoundDown va).toNat + 4096 * x < 2 ^ 39)
    (hv : v.toNat = (pageAt (pgRoundDown va) x).toNat + v.toNat % 4096) :
    (pageAt pa x >>> 12) <<< 12 ||| (v &&& 0xfff) = pgRoundDown pa + (v - pgRoundDown va) := by
  have hpage : (pageAt pa x >>> 12).toNat = pa.toNat / 4096 + x := by
    rw [BitVec.toNat_ushiftRight, Nat.shiftRight_eq_div_pow, pageAt_toNat _ _ (by omega)]
    omega
  have hoff := offset_toNat v
  rw [pageAt_toNat _ _ (by omega)] at hv
  apply BitVec.eq_of_toNat_eq
  rw [shiftLeft_or_toNat 12 (by omega) (by omega), hpage, hoff, BitVec.toNat_add, BitVec.toNat_sub,
    pgRoundDown_toNat pa]
  omega

theorem pageAt_eq_add_sub {va pa v : Addr} {x : Nat}
    (hva : (pgRoundDown va).toNat + 4096 * x < 2 ^ 39)
    (hv : v.toNat = (pageAt (pgRoundDown va) x).toNat + v.toNat % 4096) :
    pageAt pa x = pa + (pgRoundDown v - pgRoundDown va) := by
  have hal := aligned_pgRoundDown va
  have hpage := pgRoundDown_toNat v
  unfold Aligned at hal
  rw [pageAt_toNat _ _ (by omega)] at hv
  rw [pageAt]
  apply congrArg (pa + ·)
  apply BitVec.eq_of_toNat_eq
  rw [BitVec.toNat_sub, BitVec.toNat_ofNat]
  omega

theorem map_maps {s : Phys} {root va pa : Addr} {size permission : Word} {free : List Addr}
    (hs : Space s root free) (hpa : pa.toNat < 2 ^ 56)
    (hrange : (pgRoundDown va).toNat + size.toNat * 4096 ≤ 2 ^ 39)
    (hperm : permission &&& (pteR ||| pteW ||| pteX ||| pteU) = permission)
    (hsup : Supplied s (map s va pa root size permission)) :
    Maps s (map s va pa root size permission) root va pa size permission := by
  rw [map] at hsup ⊢
  obtain ⟨free', hspace, hpages, hkeeps⟩ := mapLoop_space size.toNat hs hsup
  have hlt := permission_lt hperm
  refine ⟨fun v hv => ?_, fun v hv hout => ?_, hspace.tree⟩
  · obtain ⟨x, hx, hvx⟩ := hv.exists_page hrange
    have hxlt : (pgRoundDown va).toNat + 4096 * x < 2 ^ 39 := by omega
    have hxn := pageAt_toNat (pgRoundDown va) x (by omega)
    have hkey : key v = key (pageAt (pgRoundDown va) x) := by
      rw [key_eq_iff (by omega) (by omega), pageNo, pageNo]
      have hal := aligned_pgRoundDown va
      unfold Aligned at hal
      omega
    have hpte := hpages x hx (fun y hy hxy => key_pageAt_ne (by omega) hxlt (by omega))
    rw [lookup, ← hkey] at hpte
    have hdistance : pageAt pa x = pa + (pgRoundDown v - pgRoundDown va) :=
      pageAt_eq_add_sub hxlt hvx
    refine ⟨?_, leafPte_low hlt, ?_⟩
    · rw [mappedPte, ← hdistance]
      exact hpte
    · rw [findPa_of_lookup hpte, leafPte_page hlt, translate_page hpa (by omega) hxlt hvx]
  · apply hkeeps
    intro x hx hkey
    have hxn := pageAt_toNat (pgRoundDown va) x (by omega)
    have hal := aligned_pgRoundDown va
    unfold Aligned at hal
    rw [key_eq_iff (by omega) hv, pageNo, pageNo] at hkey
    apply hout
    constructor <;> omega

/-- Zero memory with the frames at 0x5000 down to 0x2000 on the list and a zeroed root table at
0x1000. -/
def emptyTree : Phys :=
  ([0x2000, 0x3000, 0x4000, 0x5000].foldl freePage (boot (fun _ => 0))).setMemory 0x1000 0 4096

theorem emptyTree_space : Space emptyTree 0x1000 [0x5000, 0x4000, 0x3000, 0x2000] := by
  apply space_zeroed ?_ (by decide) (by decide)
  exact foldl_freePage (boot_freeList _) (by simp [Aligned]) (by decide)

theorem map_maps_emptyTree : Maps emptyTree
    (map emptyTree 0x1ff123 0x80000000 0x1000 2 (pteR ||| pteW)) 0x1000 0x1ff123 0x80000000 2
      (pteR ||| pteW) := by
  have hsup : Supplied emptyTree (map emptyTree 0x1ff123 0x80000000 0x1000 2 (pteR ||| pteW)) :=
    map_supplied _ _ _ emptyTree_space (by decide)
  exact map_maps emptyTree_space (by decide) (by decide) (by decide) hsup

end Raynix.MapLaw
