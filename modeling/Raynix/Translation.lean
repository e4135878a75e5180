import Raynix.KernelSpace
import Raynix.OutOfPages

namespace Raynix.Translation

open Raynix.Lib.Memory Raynix.Kalloc Raynix.PageStack Raynix.Vm Raynix.PageTree Raynix.MapLaw
open Raynix.KernelSpace Raynix.OutOfPages

/-- The page of `va` has a valid last-level entry. -/
def Mapped (m : Mem) (root va : Addr) : Prop := Valid m root (key va)

/-- No entry of a table has changed and no frame has left the free list. -/
structure Quiet (s t : Phys) (root : Addr) : Prop where
  entries : ∀ p u i, p.length ≤ 2 → tableAt s.mem root p = some u →
    entry t.mem u i = entry s.mem u i
  frames : ∀ f, ¬ HandedOut s t f

/-- The result of `find_pa` for `va` comes from page tables that map `va`, or from page tables that
do not, but not from both. -/
def Tells (s : Phys) (root va : Addr) : Prop :=
  ∀ s' root' free', Space s' root' free' → (findPa s' root' va).1 = (findPa s root va).1 →
    (Mapped s'.mem root' va ↔ Mapped s.mem root va)

/-- The lookup of `va` changes nothing, and its result tells whether `va` is mapped. -/
structure ReadOnly (s : Phys) (root va : Addr) : Prop where
  quiet : Quiet s (findPa s root va).2 root
  tells : Tells s root va

theorem findPa_snd (s : Phys) (root va : Addr) : (findPa s root va).2 = (walk s root va).2 := rfl

theorem findPa_fst (s : Phys) (root va : Addr) : (findPa s root va).1 =
    (readWord (walk s root va).2.mem (walk s root va).1 >>> 10) <<< 12 ||| (va &&& 0xfff) := rfl

theorem Mapped.lookup {m : Mem} {root va : Addr} (h : Mapped m root va) :
    ∃ pte, PageTree.lookup m root va = some pte ∧ pte &&& pteV ≠ 0 := h

theorem findPa_of_mapped {s : Phys} {root va : Addr} (h : Mapped s.mem root va) :
    (findPa s root va).2 = s := by
  obtain ⟨pte, hpte, -⟩ := h.lookup
  rw [findPa_of_lookup hpte]

theorem quiet_self (s : Phys) (root : Addr) : Quiet s s root := by
  refine ⟨fun _ _ _ _ _ => rfl, ?_⟩
  rintro f ⟨-, new, hnew, hf⟩
  rw [List.self_eq_append_left.mp hnew] at hf
  cases hf

theorem pageLink_cases {s : Phys} {free : List Addr} (h : FreeList s free) :
    s.pageLink ∈ free ∨ s.pageLink = 0 := by
  cases free with
  | nil => exact .inr h.chain
  | cons f free =>
    have hlink : s.pageLink = f := h.chain.1
    exact .inl (by simp [hlink])

theorem kalloc_agree {s : Phys} {free : List Addr} (h : FreeList s free) :
    Aligned (kalloc s).1 ∧ FreeList (kalloc s).2 free.tail ∧
      AgreeOff (kalloc s).1 s.mem (kalloc s).2.mem := by
  cases free with
  | nil =>
    obtain ⟨hnull, hlist, hagree⟩ := kalloc_empty h
    rw [hnull]
    exact ⟨aligned_zero, hlist, hagree⟩
  | cons f free =>
    obtain ⟨hf, hlist, hagree⟩ := kalloc_pop h
    rw [hf]
    exact ⟨h.aligned f (by simp), hlist, hagree⟩

theorem addTable_entry {s : Phys} {t u : Addr} {free : List Addr} (h : FreeList s free)
    (ht : Aligned t) (hu : Aligned u) (hut : u ≠ t) (huf : u ≠ (kalloc s).1) (i j : BitVec 9) :
    entry (addTable s t i).mem u j = entry s.mem u j := by
  obtain ⟨hal, -, hagree⟩ := kalloc_agree h
  have hzeroed : AgreeOff (kalloc s).1 s.mem (fill (kalloc s).2.mem (kalloc s).1 0 4096) :=
    hagree.trans (agreeOff_fill hal)
  change entry (writeWord (fill (kalloc s).2.mem (kalloc s).1 0 4096) (slot t i) _) u j = _
  rw [entry_congr (agreeOff_writeWord ht) hu ht hut, entry_congr hzeroed hu hal huf]

theorem addTable_self (s : Phys) (t : Addr) (i : BitVec 9) :
    entry (addTable s t i).mem t i = tablePte (kalloc s).1 := entry_writeWord _ _ _ _

theorem addTable_freeList {s : Phys} {root t : Addr} {p : List (BitVec 9)} {free : List Addr}
    (hs : Space s root free) (hp : p.length ≤ 2) (ht : tableAt s.mem root p = some t)
    (i : BitVec 9) : FreeList (addTable s t i) free.tail := by
  obtain ⟨hal, hlist, -⟩ := kalloc_agree hs.list
  have hfresh : (kalloc s).1 ∉ free.tail := by
    cases free with
    | nil => simp
    | cons f free =>
      rw [(kalloc_pop hs.list).1]
      exact (List.nodup_cons.mp hs.list.nodup).1
  have htail : t ∉ free.tail := fun h => hs.apart p t hp ht (List.mem_of_mem_tail h)
  exact (hlist.setMemory hal hfresh 0).store (tableAt_aligned hs.tree.aligned ht) htail i _

theorem entry_ne_tablePte {m : Mem} {u : Addr} {i : BitVec 9} (f : Addr)
    (h : child m u i = none) : tablePte f ≠ entry m u i := by
  intro he
  rw [child, ← he, if_pos (tablePte_valid f)] at h
  cases h

/-- A missing table above the last level is made by the lookup, which shows in the entry for it,
whether or not a frame was left. -/
theorem walk_new_entry {s : Phys} {root va : Addr} {free : List Addr} (hs : Space s root free)
    (h0 : root ≠ 0) (h : tableAt s.mem root [index va 2, index va 1] = none) :
    ∃ p u i, p.length ≤ 2 ∧ tableAt s.mem root p = some u ∧
      entry (walk s root va).2.mem u i ≠ entry s.mem u i := by
  have hroot : tableAt s.mem root [] = some root := rfl
  have hne : ∀ g, g ∈ free ∨ g = 0 → root ≠ g := by
    rintro g (hg | rfl) rfl
    · exact hs.apart [] root (by simp) hroot hg
    · exact h0 rfl
  have hpath := tableAt_concat s.mem root [index va 2] (index va 1)
  rw [List.singleton_append, h] at hpath
  rw [walk_eq]
  cases hc : child s.mem root (index va 2) with
  | none =>
    have h1 : walkLevel s root va 0 = ((kalloc s).1, addTable s root (index va 2)) :=
      walkLevel_none hc
    refine ⟨[], root, index va 2, by simp, hroot, ?_⟩
    have hkept : entry (walkLevel (addTable s root (index va 2)) (kalloc s).1 va 1).2.mem root
        (index va 2) = entry (addTable s root (index va 2)).mem root (index va 2) := by
      cases hc' : child (addTable s root (index va 2)).mem (kalloc s).1 (index va 1) with
      | some u =>
        have h2 : walkLevel (addTable s root (index va 2)) (kalloc s).1 va 1 =
            (u, addTable s root (index va 2)) := walkLevel_some hc'
        rw [h2]
      | none =>
        have h2 : walkLevel (addTable s root (index va 2)) (kalloc s).1 va 1 =
            ((kalloc (addTable s root (index va 2))).1,
              addTable (addTable s root (index va 2)) (kalloc s).1 (index va 1)) :=
          walkLevel_none hc'
        have hlist := addTable_freeList hs (by simp) hroot (index va 2)
        rw [h2]
        apply addTable_entry hlist (kalloc_agree hs.list).1 hs.tree.aligned
        · exact hne _ (pageLink_cases hs.list)
        · exact hne _ ((pageLink_cases hlist).imp_left List.mem_of_mem_tail)
    rw [h1, hkept, addTable_self]
    exact entry_ne_tablePte _ hc
  | some t =>
    have h1 : walkLevel s root va 0 = (t, s) := walkLevel_some hc
    have ht : tableAt s.mem root [index va 2] = some t := by
      rw [tableAt, hc]
      rfl
    rw [ht, Option.bind_some] at hpath
    have h2 : walkLevel s t va 1 = ((kalloc s).1, addTable s t (index va 1)) :=
      walkLevel_none hpath.symm
    refine ⟨_, t, index va 1, by simp, ht, ?_⟩
    rw [h1, h2, addTable_self]
    exact entry_ne_tablePte _ hpath.symm

theorem findPa_mem_iff {s : Phys} {root va : Addr} {free : List Addr} (hs : Space s root free)
    (h0 : root ≠ 0) : (findPa s root va).2.mem = s.mem ↔
      ∃ t, tableAt s.mem root [index va 2, index va 1] = some t := by
  rw [findPa_snd]
  constructor
  · intro hmem
    refine Option.ne_none_iff_exists'.mp fun h => ?_
    obtain ⟨p, u, i, -, -, hne⟩ := walk_new_entry hs h0 h
    exact hne (by rw [hmem])
  · rintro ⟨t, ht⟩
    rw [walk_of_table ht]

theorem quiet_iff {s : Phys} {root va : Addr} {free : List Addr} (hs : Space s root free)
    (h0 : root ≠ 0) : Quiet s (findPa s root va).2 root ↔
      ∃ t, tableAt s.mem root [index va 2, index va 1] = some t := by
  rw [findPa_snd]
  constructor
  · intro hq
    refine Option.ne_none_iff_exists'.mp fun h => ?_
    obtain ⟨p, u, i, hp, hu, hne⟩ := walk_new_entry hs h0 h
    exact hne (hq.entries p u i hp hu)
  · rintro ⟨t, ht⟩
    rw [walk_of_table ht]
    exact quiet_self s root

theorem emptyTree_no_table (i j : BitVec 9) : tableAt emptyTree.mem 0x1000 [i, j] = none := by
  have hzero : ∀ i, entry emptyTree.mem 0x1000 i = 0 := entry_fill_zero (by decide)
  rw [tableAt, child_of_zero (hzero i)]
  rfl

theorem emptyTree_not_mapped (va : Addr) : ¬ Mapped emptyTree.mem 0x1000 va := by
  rintro ⟨w, hw, -⟩
  rw [lookupKey, emptyTree_no_table] at hw
  cases hw

theorem exists_lookup (va : Addr) (w : Word) : ∃ s root free, Space s root free ∧
    PageTree.lookup s.mem root va = some w := by
  obtain ⟨t, free, -, -, hwalk, ht, -⟩ :=
    walk_space emptyTree_space (walk_supplied va emptyTree_space (by decide))
  have hspace := hwalk.storeLeaf rfl ht (index va 0) w
  exact ⟨_, _, free, hspace, lookupKey_writeWord hwalk.tree (key va) ht⟩

theorem exists_findPa (va : Addr) (pte flags : Word) (hflags : flags.toNat < 2 ^ 10) :
    ∃ s root free, Space s root free ∧
      (findPa s root va).1 = (pte >>> 10) <<< 12 ||| (va &&& 0xfff) ∧
      (Mapped s.mem root va ↔ flags &&& pteV ≠ 0) := by
  have hlt : (pte >>> 10).toNat < 2 ^ 54 := by
    rw [BitVec.toNat_ushiftRight, Nat.shiftRight_eq_div_pow]
    omega
  have hvalid : ((pte >>> 10) <<< 10 ||| flags) &&& pteV = flags &&& pteV :=
    and_of_low (pack_low hlt hflags) (by decide)
  obtain ⟨s, root, free, hs, hpte⟩ := exists_lookup va ((pte >>> 10) <<< 10 ||| flags)
  refine ⟨s, root, free, hs, ?_, fun h => ?_, fun h => ⟨_, hpte, hvalid ▸ h⟩⟩
  · rw [findPa_of_lookup hpte, pack_high hlt hflags]
  · obtain ⟨w, hw, hv⟩ := h.lookup
    rwa [← Option.some.inj (hpte.symm.trans hw), hvalid] at hv

/-- Whatever `find_pa` returns, it returns for a valid entry and for one with `PTE_V` clear. -/
theorem not_tells (s : Phys) (root va : Addr) : ¬ Tells s root va := by
  intro htells
  obtain ⟨s₁, root₁, free₁, hs₁, hfind₁, hmapped₁⟩ :=
    exists_findPa va (readWord (walk s root va).2.mem (walk s root va).1) pteV (by decide)
  obtain ⟨s₀, root₀, free₀, hs₀, hfind₀, hmapped₀⟩ :=
    exists_findPa va (readWord (walk s root va).2.mem (walk s root va).1) 0 (by decide)
  rw [← findPa_fst] at hfind₁ hfind₀
  have hmapped : Mapped s.mem root va :=
    (htells s₁ root₁ free₁ hs₁ hfind₁).mp (hmapped₁.mpr (by decide))
  exact hmapped₀.mp ((htells s₀ root₀ free₀ hs₀ hfind₀).mpr hmapped) (by decide)

/-- The result of `find_pa` never tells a mapped address from an unmapped one. Its side effects are
absent exactly when both tables above the last-level entry are there. -/
theorem not_readOnly_iff (s : Phys) (root va : Addr) :
    ¬ ReadOnly s root va ∧ ∀ free, Space s root free → root ≠ 0 →
      (Quiet s (findPa s root va).2 root ↔
        ∃ t, tableAt s.mem root [index va 2, index va 1] = some t) :=
  ⟨fun h => not_tells s root va h.tells, fun _ hs h0 => quiet_iff hs h0⟩

theorem not_readOnly_iff_emptyTree : ¬ ReadOnly emptyTree 0x1000 0 ∧
    ¬ Quiet emptyTree (findPa emptyTree 0x1000 0).2 0x1000 := by
  obtain ⟨hread, hquiet⟩ := not_readOnly_iff emptyTree 0x1000 0
  refine ⟨hread, fun h => ?_⟩
  obtain ⟨t, ht⟩ := (hquiet _ emptyTree_space (by decide)).mp h
  cases (emptyTree_no_table _ _).symm.trans ht

/-- Looking up address 0 in an empty tree makes two tables. -/
theorem not_readOnly : ¬ ∀ (s : Phys) (root va : Addr) (free : List Addr), Space s root free →
    ¬ IsTable s.mem root 0 → ReadOnly s root va := by
  intro h
  have hzero : ∀ i, entry emptyTree.mem 0x1000 i = 0 := entry_fill_zero (by decide)
  have h0 : ¬ IsTable emptyTree.mem 0x1000 0 := fun h0 =>
    absurd (isTable_zeroed hzero h0) (by decide)
  have hread := h emptyTree 0x1000 0 _ emptyTree_space h0
  obtain ⟨t, ht⟩ := (quiet_iff emptyTree_space (by decide)).mp hread.quiet
  cases (emptyTree_no_table _ _).symm.trans ht

end Raynix.Translation
