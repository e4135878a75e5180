import Mathlib.Data.Finset.Card
import Raynix.MapLaw

namespace Raynix.OutOfPages

open Raynix.Lib.Memory Raynix.Kalloc Raynix.PageStack Raynix.Vm Raynix.PageTree Raynix.MapLaw

/-- `f` is a table of the tree. -/
def IsTable (m : Mem) (root f : Addr) : Prop := ∃ p, p.length ≤ 2 ∧ tableAt m root p = some f

/-- Between the two states `kalloc` has handed out the frame `f`. -/
def HandedOut (s t : Phys) (f : Addr) : Prop := f ≠ 0 ∧ ∃ new, t.handed = new ++ s.handed ∧ f ∈ new

/-- The ranges given to `set_memory` are the pages that `kalloc` answered with. -/
def Logged (s t : Phys) : Prop :=
  ∃ new ranges, t.handed = new ++ s.handed ∧ t.filled = ranges ++ s.filled ∧
    ∀ r, r ∈ ranges ↔ r.1 ∈ new ∧ r.2 = 4096

theorem Logged.refl (s : Phys) : Logged s s := ⟨[], [], rfl, rfl, by simp⟩

theorem Logged.trans {s t u : Phys} (h : Logged s t) (h' : Logged t u) : Logged s u := by
  obtain ⟨new, ranges, hh, hf, hr⟩ := h
  obtain ⟨new', ranges', hh', hf', hr'⟩ := h'
  refine ⟨new' ++ new, ranges' ++ ranges, ?_, ?_, fun r => ?_⟩
  · rw [hh', hh, List.append_assoc]
  · rw [hf', hf, List.append_assoc]
  · rw [List.mem_append, List.mem_append, hr, hr', or_and_right]

theorem Logged.handedOut {s t u : Phys} {f : Addr} (h : Logged t u) (hf : HandedOut s t f) :
    HandedOut s u f := by
  obtain ⟨new, -, hh, -, -⟩ := h
  obtain ⟨h0, new', hh', hf⟩ := hf
  refine ⟨h0, new ++ new', ?_, List.mem_append_right _ hf⟩
  rw [hh, hh', List.append_assoc]

theorem Logged.handedOut_later {s t u : Phys} {f : Addr} (h : Logged s t) (hf : HandedOut t u f) :
    HandedOut s u f := by
  obtain ⟨new, -, hh, -, -⟩ := h
  obtain ⟨h0, new', hh', hf⟩ := hf
  refine ⟨h0, new' ++ new, ?_, List.mem_append_left _ hf⟩
  rw [hh', hh, List.append_assoc]

theorem addTable_logged (s : Phys) (t : Addr) (i : BitVec 9) : Logged s (addTable s t i) := by
  have hfilled : (addTable s t i).filled =
      [((kalloc s).1, 4096), ((kalloc s).1, 4096)] ++ s.filled := by
    have hk : (kalloc s).2.filled = ((kalloc s).1, 4096) :: s.filled := by
      rw [kalloc]
      split <;> rfl
    change ((kalloc s).1, 4096) :: (kalloc s).2.filled = _
    rw [hk]
    rfl
  refine ⟨[(kalloc s).1], _, addTable_handed s t i, hfilled, fun r => ?_⟩
  simp [Prod.ext_iff]

theorem walkLevel_logged (s : Phys) (t va : Addr) (i : Nat) :
    Logged s (walkLevel s t va i).2 := by
  cases h : child s.mem t (index va (2 - i)) with
  | some u =>
    rw [walkLevel_some h]
    exact Logged.refl s
  | none =>
    rw [walkLevel_none h]
    exact addTable_logged s t _

theorem walk_logged (s : Phys) (root va : Addr) : Logged s (walk s root va).2 := by
  rw [walk_eq]
  exact (walkLevel_logged _ _ _ _).trans (walkLevel_logged _ _ _ _)

theorem mapLoop_logged (s : Phys) (root : Addr) (permission : Word) (va pa : Addr) (n : Nat) :
    Logged s (mapLoop s root permission va pa n) := by
  induction n generalizing s va pa with
  | zero => exact Logged.refl s
  | succ n ih =>
    rw [mapLoop_succ]
    have hpage : Logged s (mapPage s root permission va pa) := walk_logged s root va
    exact hpage.trans (ih _ _ _)

/-- A page of zeros or fives is written to exactly where `kalloc` answered null. -/
theorem Logged.supplied_iff {s t : Phys} (h : Logged s t) :
    Supplied s t ↔ ∀ ranges, t.filled = ranges ++ s.filled → ∀ r ∈ ranges, r.1 ≠ 0 := by
  obtain ⟨new, ranges, hh, hf, hr⟩ := h
  have hcount : Supplied s t ↔ 0 ∉ new := by
    rw [Supplied, hh, List.count_append, Nat.add_eq_right, List.count_eq_zero]
  rw [hcount]
  constructor
  · intro h0 ranges' hf' r hmem hr0
    obtain rfl := List.append_cancel_right (hf.symm.trans hf')
    exact h0 (hr0 ▸ ((hr r).mp hmem).1)
  · intro hranges h0
    exact hranges ranges hf (0, 4096) ((hr _).mpr ⟨h0, rfl⟩) rfl

/-- The places of the two tables that the entry of `va` needs besides the root. -/
def pagePaths (va : Addr) : Finset (List (BitVec 9)) :=
  {[index va 2], [index va 2, index va 1]}

/-- The same for `n` pages from `va` on. -/
def tablePaths (va : Addr) : Nat → Finset (List (BitVec 9))
  | 0 => ∅
  | n + 1 => pagePaths va ∪ tablePaths (va + 4096) n

/-- The tables that the tree lacks at the given places. -/
def missing (m : Mem) (root : Addr) (paths : Finset (List (BitVec 9))) :
    Finset (List (BitVec 9)) :=
  paths.filter fun p => tableAt m root p = none

theorem length_of_mem_pagePaths {va : Addr} {p : List (BitVec 9)} (h : p ∈ pagePaths va) :
    p.length ≤ 2 := by
  rw [pagePaths, Finset.mem_insert, Finset.mem_singleton] at h
  obtain rfl | rfl := h <;> simp

theorem length_of_mem_tablePaths {va : Addr} {n : Nat} {p : List (BitVec 9)}
    (h : p ∈ tablePaths va n) : p.length ≤ 2 := by
  induction n generalizing va with
  | zero => simp [tablePaths] at h
  | succ n ih =>
    obtain h | h := Finset.mem_union.mp h
    · exact length_of_mem_pagePaths h
    · exact ih h

/-- From `s` to `t` the tree has got a table at each place of `added`, each from a frame of the
free list. -/
structure Spends (s t : Phys) (root : Addr) (free free' : List Addr)
    (added : Finset (List (BitVec 9))) : Prop where
  space : Space t root free'
  frames : free' ⊆ free
  gained : ∀ p ∈ added, p.length ≤ 2 ∧ tableAt s.mem root p = none ∧ tableAt t.mem root p ≠ none
  others : ∀ p, p.length ≤ 2 → p ∉ added → tableAt t.mem root p = tableAt s.mem root p
  count : free.length = free'.length + added.card

theorem Spends.refl {s : Phys} {root : Addr} {free : List Addr} (hs : Space s root free) :
    Spends s s root free free ∅ :=
  ⟨hs, fun _ hf => hf, by simp, fun _ _ _ => rfl, by simp⟩

theorem Spends.trans {s t u : Phys} {root : Addr} {free free' free'' : List Addr}
    {a a' : Finset (List (BitVec 9))} (h : Spends s t root free free' a)
    (h' : Spends t u root free' free'' a') : Spends s u root free free'' (a ∪ a') := by
  have hdisjoint : Disjoint a a' :=
    Finset.disjoint_left.mpr fun p hp hp' => (h.gained p hp).2.2 (h'.gained p hp').2.1
  refine ⟨h'.space, fun f hf => h.frames (h'.frames hf), fun p hp => ?_, fun p hlen hp => ?_, ?_⟩
  · by_cases hpa : p ∈ a
    · obtain ⟨hlen, hnone, hsome⟩ := h.gained p hpa
      rw [h'.others p hlen (Finset.disjoint_left.mp hdisjoint hpa)]
      exact ⟨hlen, hnone, hsome⟩
    · obtain ⟨hlen, hnone, hsome⟩ := h'.gained p ((Finset.mem_union.mp hp).resolve_left hpa)
      rw [← h.others p hlen hpa]
      exact ⟨hlen, hnone, hsome⟩
  · rw [Finset.mem_union, not_or] at hp
    rw [h'.others p hlen hp.2, h.others p hlen hp.1]
  · rw [Finset.card_union_of_disjoint hdisjoint, h.count, h'.count]
    omega

theorem Spends.card_missing {s t : Phys} {root : Addr} {free free' : List Addr}
    {added paths : Finset (List (BitVec 9))} (h : Spends s t root free free' added)
    (hsub : added ⊆ paths) (hlen : ∀ p ∈ paths, p.length ≤ 2) :
    (missing t.mem root paths).card + added.card = (missing s.mem root paths).card := by
  have hsdiff : missing t.mem root paths = missing s.mem root paths \ added := by
    ext p
    simp only [missing, Finset.mem_filter, Finset.mem_sdiff]
    constructor
    · rintro ⟨hp, ht⟩
      have hpa : p ∉ added := fun hpa => (h.gained p hpa).2.2 ht
      exact ⟨⟨hp, (h.others p (hlen p hp) hpa).symm.trans ht⟩, hpa⟩
    · rintro ⟨⟨hp, hs⟩, hpa⟩
      exact ⟨hp, (h.others p (hlen p hp) hpa).trans hs⟩
  rw [hsdiff]
  refine Finset.card_sdiff_add_card_eq_card fun p hp => ?_
  exact Finset.mem_filter.mpr ⟨hsub hp, (h.gained p hp).2.1⟩

theorem walkLevel_spends {s : Phys} {root t : Addr} {p : List (BitVec 9)} {free : List Addr}
    (va : Addr) (i : Nat) (hs : Space s root free) (hp : p.length ≤ 1)
    (ht : tableAt s.mem root p = some t) (hsup : Supplied s (walkLevel s t va i).2) :
    ∃ free' added, added ⊆ {p ++ [index va (2 - i)]} ∧
      Spends s (walkLevel s t va i).2 root free free' added ∧
      tableAt (walkLevel s t va i).2.mem root (p ++ [index va (2 - i)]) =
        some (walkLevel s t va i).1 := by
  have hpath : tableAt s.mem root (p ++ [index va (2 - i)]) = child s.mem t (index va (2 - i)) := by
    rw [tableAt_concat, ht, Option.bind_some]
  cases h : child s.mem t (index va (2 - i)) with
  | some u =>
    rw [walkLevel_some h]
    exact ⟨free, ∅, by simp, Spends.refl hs, hpath.trans h⟩
  | none =>
    rw [walkLevel_none h] at hsup ⊢
    obtain ⟨free', hfree, hspace, hadds⟩ := addTable_space hs hp ht h hsup
    have hnew := hadds.tableAt_eq hs.tree
    have hlen : (p ++ [index va (2 - i)]).length ≤ 2 := by simpa using hp
    refine ⟨free', {p ++ [index va (2 - i)]}, le_rfl, ⟨hspace, ?_, ?_, ?_, by simp [hfree]⟩, ?_⟩
    · simp [hfree]
    · intro q hq
      obtain rfl := Finset.mem_singleton.mp hq
      rw [hnew _ hlen, if_pos rfl]
      exact ⟨hlen, hpath.trans h, by simp⟩
    · intro q hqlen hq
      rw [hnew q hqlen, if_neg fun he => hq (Finset.mem_singleton.mpr he)]
    · rw [hnew _ hlen, if_pos rfl]

theorem walkLevel_supplied_of {s : Phys} {root t : Addr} {p : List (BitVec 9)} {free : List Addr}
    {paths : Finset (List (BitVec 9))} (va : Addr) (i : Nat) (hs : Space s root free)
    (ht : tableAt s.mem root p = some t) (hmem : p ++ [index va (2 - i)] ∈ paths)
    (hroom : (missing s.mem root paths).card ≤ free.length) :
    Supplied s (walkLevel s t va i).2 := by
  cases h : child s.mem t (index va (2 - i)) with
  | some u =>
    rw [walkLevel_some h]
    rfl
  | none =>
    apply walkLevel_supplied t va i hs
    have hmissing : p ++ [index va (2 - i)] ∈ missing s.mem root paths := by
      refine Finset.mem_filter.mpr ⟨hmem, ?_⟩
      rw [tableAt_concat, ht]
      exact h
    exact (Finset.card_pos.mpr ⟨_, hmissing⟩).trans_le hroom

theorem walk_spends {s : Phys} {root va : Addr} {free : List Addr} (hs : Space s root free)
    (hsup : Supplied s (walk s root va).2) : ∃ t free' added, added ⊆ pagePaths va ∧
      Spends s (walk s root va).2 root free free' added ∧
      (walk s root va).1 = slot t (index va 0) ∧
      tableAt (walk s root va).2.mem root [index va 2, index va 1] = some t := by
  obtain ⟨hsup1, hsup2⟩ := walk_supplied_levels hsup
  have hroot : tableAt s.mem root [] = some root := rfl
  obtain ⟨free1, added1, hsub1, h1, ht1⟩ := walkLevel_spends va 0 hs (by simp) hroot hsup1
  obtain ⟨free2, added2, hsub2, h2, ht2⟩ := walkLevel_spends va 1 h1.space (by simp) ht1 hsup2
  rw [walk_eq]
  refine ⟨_, free2, added1 ∪ added2, ?_, h1.trans h2, rfl, ht2⟩
  exact (Finset.union_subset_union hsub1 hsub2).trans le_rfl

theorem missing_pagePaths {m : Mem} {root va t : Addr}
    (h : tableAt m root [index va 2, index va 1] = some t) : missing m root (pagePaths va) = ∅ := by
  refine Finset.filter_eq_empty_iff.mpr fun p hp hnone => ?_
  rw [pagePaths, Finset.mem_insert, Finset.mem_singleton] at hp
  have hconcat := tableAt_concat m root [index va 2] (index va 1)
  obtain rfl | rfl := hp
  · rw [hnone] at hconcat
    rw [List.singleton_append, h] at hconcat
    cases hconcat
  · rw [h] at hnone
    cases hnone

theorem Spends.storeLeaf {s t : Phys} {root u : Addr} {free free' : List Addr}
    {added : Finset (List (BitVec 9))} {p : List (BitVec 9)}
    (h : Spends s t root free free' added) (hp : p.length = 2) (hu : tableAt t.mem root p = some u)
    (i : BitVec 9) (w : Word) : Spends s (t.store (slot u i) w) root free free' added := by
  have hsame : ∀ q, q.length ≤ 2 →
      tableAt (t.store (slot u i) w).mem root q = tableAt t.mem root q :=
    fun q hq => tableAt_writeWord h.space.tree hp hu q hq
  refine ⟨h.space.storeLeaf hp hu i w, h.frames, fun q hq => ?_, fun q hlen hq => ?_, h.count⟩
  · rw [hsame q (h.gained q hq).1]
    exact h.gained q hq
  · rw [hsame q hlen, h.others q hlen hq]

theorem mapPage_spends {s : Phys} {root : Addr} {free : List Addr} (va pa : Addr)
    (permission : Word) (hs : Space s root free)
    (hsup : Supplied s (mapPage s root permission va pa)) : ∃ free' added, added ⊆ pagePaths va ∧
      Spends s (mapPage s root permission va pa) root free free' added ∧
      missing (mapPage s root permission va pa).mem root (pagePaths va) = ∅ := by
  obtain ⟨t, free', added, hsub, h, hslot, ht⟩ := walk_spends hs hsup
  rw [mapPage, hslot]
  refine ⟨free', added, hsub, h.storeLeaf rfl ht _ _, missing_pagePaths (t := t) ?_⟩
  exact (tableAt_writeWord h.space.tree rfl ht _ (by simp)).trans ht

theorem Spends.missing_eq_empty {s t : Phys} {root : Addr} {free free' : List Addr}
    {added paths : Finset (List (BitVec 9))} (h : Spends s t root free free' added)
    (hlen : ∀ p ∈ paths, p.length ≤ 2) (hs : missing s.mem root paths = ∅) :
    missing t.mem root paths = ∅ := by
  refine Finset.filter_eq_empty_iff.mpr fun p hp hnone => ?_
  have hsome := Finset.filter_eq_empty_iff.mp hs hp
  by_cases hpa : p ∈ added
  · exact hsome (h.gained p hpa).2.1
  · exact hsome ((h.others p (hlen p hp) hpa).symm.trans hnone)

theorem mapLoop_spends {s : Phys} {root va pa : Addr} {permission : Word} {free : List Addr}
    (n : Nat) (hs : Space s root free) (hsup : Supplied s (mapLoop s root permission va pa n)) :
    ∃ free' added, added ⊆ tablePaths va n ∧
      Spends s (mapLoop s root permission va pa n) root free free' added ∧
      missing (mapLoop s root permission va pa n).mem root (tablePaths va n) = ∅ := by
  induction n generalizing s va pa free with
  | zero => exact ⟨free, ∅, le_rfl, Spends.refl hs, rfl⟩
  | succ n ih =>
    obtain ⟨hsup1, hsup2⟩ := mapLoop_supplied hsup
    obtain ⟨free1, added1, hsub1, h1, hmissing1⟩ := mapPage_spends va pa permission hs hsup1
    obtain ⟨free2, added2, hsub2, h2, hmissing2⟩ := ih h1.space hsup2
    rw [mapLoop_succ]
    refine ⟨free2, added1 ∪ added2, Finset.union_subset_union hsub1 hsub2, h1.trans h2, ?_⟩
    have hfirst := h2.missing_eq_empty (fun p hp => length_of_mem_pagePaths hp) hmissing1
    rw [missing, tablePaths, Finset.filter_union]
    exact Finset.union_eq_empty.mpr ⟨hfirst, hmissing2⟩

theorem walk_supplied_of {s : Phys} {root va : Addr} {free : List Addr}
    {paths : Finset (List (BitVec 9))} (hs : Space s root free) (hsub : pagePaths va ⊆ paths)
    (hlen : ∀ p ∈ paths, p.length ≤ 2)
    (hroom : (missing s.mem root paths).card ≤ free.length) : Supplied s (walk s root va).2 := by
  have hroot : tableAt s.mem root [] = some root := rfl
  have hfirst : [] ++ [index va (2 - 0)] ∈ paths := hsub (by simp [pagePaths])
  have hsup1 := walkLevel_supplied_of va 0 hs hroot hfirst hroom
  obtain ⟨free1, added, hadded, h1, ht1⟩ := walkLevel_spends va 0 hs (by simp) hroot hsup1
  have hroom1 : (missing (walkLevel s root va 0).2.mem root paths).card ≤ free1.length := by
    have hcard := h1.card_missing (hadded.trans (Finset.singleton_subset_iff.mpr hfirst)) hlen
    have hcount := h1.count
    omega
  rw [walk_eq]
  exact hsup1.trans (walkLevel_supplied_of va 1 h1.space ht1 (hsub (by simp [pagePaths])) hroom1)

theorem mapLoop_supplied_of {s : Phys} {root va pa : Addr} {permission : Word} {free : List Addr}
    {n : Nat} (hs : Space s root free)
    (hroom : (missing s.mem root (tablePaths va n)).card ≤ free.length) :
    Supplied s (mapLoop s root permission va pa n) := by
  induction n generalizing s va pa free with
  | zero => rfl
  | succ n ih =>
    have hlen : ∀ p ∈ tablePaths va (n + 1), p.length ≤ 2 := fun p => length_of_mem_tablePaths
    have hpage : pagePaths va ⊆ tablePaths va (n + 1) := Finset.subset_union_left
    have hsup : Supplied s (mapPage s root permission va pa) :=
      walk_supplied_of hs hpage hlen hroom
    obtain ⟨free1, added, hadded, h1, -⟩ := mapPage_spends va pa permission hs hsup
    have hcard := h1.card_missing (hadded.trans hpage) hlen
    have hcount := h1.count
    have hrest : (missing (mapPage s root permission va pa).mem root
        (tablePaths (va + 4096) n)).card ≤
        (missing (mapPage s root permission va pa).mem root (tablePaths va (n + 1))).card :=
      Finset.card_le_card (Finset.filter_subset_filter _ Finset.subset_union_right)
    rw [mapLoop_succ]
    exact hsup.trans (ih h1.space (by omega))

theorem mapLoop_supplied_iff {s : Phys} {root : Addr} {free : List Addr} (va pa : Addr)
    (permission : Word) (n : Nat) (hs : Space s root free) :
    Supplied s (mapLoop s root permission va pa n) ↔
      (missing s.mem root (tablePaths va n)).card ≤ free.length := by
  constructor
  · intro hsup
    obtain ⟨free', added, hadded, h, hmissing⟩ := mapLoop_spends n hs hsup
    have hcard := h.card_missing hadded fun p => length_of_mem_tablePaths
    rw [hmissing, Finset.card_empty] at hcard
    have hcount := h.count
    omega
  · exact mapLoop_supplied_of hs

/-- From `s` to `t` only tables of the tree and frames handed out have been written, only frames
handed out have become tables, and all of them come from the free list. -/
structure Confined (root : Addr) (free : List Addr) (s t : Phys) : Prop where
  logged : Logged s t
  frames : ∀ f, HandedOut s t f → f ∈ free
  written : ∀ b, t.mem b ≠ s.mem b →
    ∃ f, pageNo b = pageNo f ∧ (IsTable s.mem root f ∨ HandedOut s t f)
  tables : ∀ f, IsTable t.mem root f → IsTable s.mem root f ∨ HandedOut s t f

theorem HandedOut.split {s t u : Phys} {f : Addr} (hst : Logged s t) (htu : Logged t u)
    (h : HandedOut s u f) : HandedOut s t f ∨ HandedOut t u f := by
  obtain ⟨new, -, hst, -, -⟩ := hst
  obtain ⟨new', -, htu, -, -⟩ := htu
  obtain ⟨h0, all, hall, hf⟩ := h
  rw [htu, hst, ← List.append_assoc] at hall
  obtain rfl := List.append_cancel_right hall
  obtain hf | hf := List.mem_append.mp hf
  · exact .inr ⟨h0, new', htu, hf⟩
  · exact .inl ⟨h0, new, hst, hf⟩

theorem Confined.refl (root : Addr) (free : List Addr) (s : Phys) : Confined root free s s := by
  refine ⟨Logged.refl s, ?_, fun b hb => absurd rfl hb, fun _ hf => .inl hf⟩
  rintro f ⟨-, new, hnew, hf⟩
  rw [List.self_eq_append_left.mp hnew] at hf
  cases hf

theorem Confined.trans {root : Addr} {free free' : List Addr} {s t u : Phys}
    (h : Confined root free s t) (h' : Confined root free' t u) (hsub : free' ⊆ free) :
    Confined root free s u := by
  have hearlier : ∀ f, IsTable s.mem root f ∨ HandedOut s t f →
      IsTable s.mem root f ∨ HandedOut s u f :=
    fun f hf => hf.imp_right fun hf => h'.logged.handedOut hf
  have hlater : ∀ f, IsTable t.mem root f ∨ HandedOut t u f →
      IsTable s.mem root f ∨ HandedOut s u f := by
    rintro f (hf | hf)
    · exact hearlier f (h.tables f hf)
    · exact .inr (h.logged.handedOut_later hf)
  refine ⟨h.logged.trans h'.logged, fun f hf => ?_, fun b hb => ?_, fun f hf => ?_⟩
  · obtain hf | hf := HandedOut.split h.logged h'.logged hf
    · exact h.frames f hf
    · exact hsub (h'.frames f hf)
  · by_cases hbt : u.mem b = t.mem b
    · rw [hbt] at hb
      obtain ⟨f, hpage, hf⟩ := h.written b hb
      exact ⟨f, hpage, hearlier f hf⟩
    · obtain ⟨f, hpage, hf⟩ := h'.written b hbt
      exact ⟨f, hpage, hlater f hf⟩
  · exact hlater f (h'.tables f hf)

theorem addTable_confined {s : Phys} {root t : Addr} {p : List (BitVec 9)} {i : BitVec 9}
    {free : List Addr} (hs : Space s root free) (hp : p.length ≤ 1)
    (ht : tableAt s.mem root p = some t) (hnone : child s.mem t i = none)
    (hsup : Supplied s (addTable s t i)) : Confined root free s (addTable s t i) := by
  obtain ⟨free', rfl, hspace, hadds⟩ := addTable_space hs hp ht hnone hsup
  have hpop := (kalloc_pop hs.list).2.2
  have hf0 : (kalloc s).1 ≠ 0 := hs.list.chain.ne_null (by simp)
  have hhanded := addTable_handed s t i
  have hout : HandedOut s (addTable s t i) (kalloc s).1 :=
    ⟨hf0, [(kalloc s).1], hhanded, by simp⟩
  refine ⟨addTable_logged s t i, ?_, fun b hb => ?_, ?_⟩
  · rintro f ⟨-, new, hnew, hf⟩
    have hnew' : new ++ s.handed = [(kalloc s).1] ++ s.handed := hnew.symm.trans hhanded
    rw [List.append_cancel_right hnew'] at hf
    rw [List.mem_singleton.mp hf]
    exact List.mem_cons_self
  · by_cases hbt : pageNo b = pageNo t
    · exact ⟨t, hbt, .inl ⟨p, by omega, ht⟩⟩
    · refine ⟨(kalloc s).1, ?_, .inr hout⟩
      by_contra hbf
      have hzeroed : AgreeOff (kalloc s).1 s.mem (fill (kalloc s).2.mem (kalloc s).1 0 4096) :=
        hpop.trans (agreeOff_fill hadds.aligned)
      have hal := tableAt_aligned hs.tree.aligned ht
      apply hb
      change writeWord (fill (kalloc s).2.mem (kalloc s).1 0 4096) (slot t i) _ b = _
      rw [agreeOff_writeWord hal b hbt, hzeroed b hbf]
  · rintro f ⟨q, hq, hf⟩
    rw [hadds.tableAt_eq hs.tree q hq] at hf
    by_cases hqi : q = p ++ [i]
    · rw [if_pos hqi] at hf
      exact .inr (Option.some.inj hf ▸ hout)
    · rw [if_neg hqi] at hf
      exact .inl ⟨q, hq, hf⟩

theorem walkLevel_confined {s : Phys} {root t : Addr} {p : List (BitVec 9)} {free : List Addr}
    (va : Addr) (i : Nat) (hs : Space s root free) (hp : p.length ≤ 1)
    (ht : tableAt s.mem root p = some t) (hsup : Supplied s (walkLevel s t va i).2) :
    Confined root free s (walkLevel s t va i).2 := by
  cases h : child s.mem t (index va (2 - i)) with
  | some u =>
    rw [walkLevel_some h]
    exact Confined.refl root free s
  | none =>
    rw [walkLevel_none h] at hsup ⊢
    exact addTable_confined hs hp ht h hsup

theorem walk_confined {s : Phys} {root va : Addr} {free : List Addr} (hs : Space s root free)
    (hsup : Supplied s (walk s root va).2) : Confined root free s (walk s root va).2 := by
  obtain ⟨hsup1, hsup2⟩ := walk_supplied_levels hsup
  have hroot : tableAt s.mem root [] = some root := rfl
  obtain ⟨free1, added1, -, h1, ht1⟩ := walkLevel_spends va 0 hs (by simp) hroot hsup1
  rw [walk_eq]
  exact (walkLevel_confined va 0 hs (by simp) hroot hsup1).trans
    (walkLevel_confined va 1 h1.space (by simp) ht1 hsup2) h1.frames

theorem storeLeaf_confined {s : Phys} {root u : Addr} {p : List (BitVec 9)} {free : List Addr}
    (hs : Space s root free) (hp : p.length = 2) (hu : tableAt s.mem root p = some u)
    (i : BitVec 9) (w : Word) : Confined root free s (s.store (slot u i) w) := by
  refine ⟨Logged.refl s, (Confined.refl root free s).frames, fun b hb => ?_, ?_⟩
  · refine ⟨u, ?_, .inl ⟨p, hp.le, hu⟩⟩
    by_contra hbu
    exact hb (agreeOff_writeWord (tableAt_aligned hs.tree.aligned hu) b hbu)
  · rintro f ⟨q, hq, hf⟩
    exact .inl ⟨q, hq, (tableAt_writeWord hs.tree hp hu q hq).symm.trans hf⟩

theorem mapPage_confined {s : Phys} {root : Addr} {free : List Addr} (va pa : Addr)
    (permission : Word) (hs : Space s root free)
    (hsup : Supplied s (mapPage s root permission va pa)) :
    Confined root free s (mapPage s root permission va pa) := by
  obtain ⟨t, free', added, -, h, hslot, ht⟩ := walk_spends hs hsup
  rw [mapPage, hslot]
  exact (walk_confined hs hsup).trans (storeLeaf_confined h.space rfl ht _ _) h.frames

theorem mapLoop_confined {s : Phys} {root va pa : Addr} {permission : Word} {free : List Addr}
    (n : Nat) (hs : Space s root free) (hsup : Supplied s (mapLoop s root permission va pa n)) :
    Confined root free s (mapLoop s root permission va pa n) := by
  induction n generalizing s va pa free with
  | zero => exact Confined.refl root free s
  | succ n ih =>
    obtain ⟨hsup1, hsup2⟩ := mapLoop_supplied hsup
    obtain ⟨free', added, -, h, -⟩ := mapPage_spends va pa permission hs hsup1
    rw [mapLoop_succ]
    exact (mapPage_confined va pa permission hs hsup1).trans (ih h.space hsup2) h.frames

theorem mapLoop_leaves {s : Phys} {root va pa : Addr} {permission : Word} {free : List Addr}
    {n : Nat} (hs : Space s root free) (hsup : Supplied s (mapLoop s root permission va pa n))
    {k : Key} {w : Word} (hw : lookupKey (mapLoop s root permission va pa n).mem root k = some w) :
    lookupKey s.mem root k = some w ∨ w = 0 ∨
      ∃ x < n, key (pageAt va x) = k ∧ w = leafPte (pageAt pa x) permission := by
  induction n generalizing s va pa free with
  | zero => exact .inl hw
  | succ n ih =>
    obtain ⟨hsup1, hsup2⟩ := mapLoop_supplied hsup
    obtain ⟨free', -, hspace, hpage, hkeeps⟩ := mapPage_space va pa permission hs hsup1
    obtain hold | hzero | ⟨x, hx, hk, hw⟩ := ih hspace hsup2 hw
    · by_cases hkva : k = key va
      · subst hkva
        refine .inr (.inr ⟨0, by omega, by rw [pageAt_zero], ?_⟩)
        rw [pageAt_zero]
        exact Option.some.inj (hold.symm.trans hpage)
      · cases hs : lookupKey s.mem root k with
        | none => exact .inr (.inl ((hkeeps k hkva).2 hs w hold))
        | some w' => exact .inl (((hkeeps k hkva).1 w' hs).symm.trans hold)
    · exact .inr (.inl hzero)
    · rw [pageAt_succ] at hk hw
      exact .inr (.inr ⟨x + 1, by omega, hk, hw⟩)

/-- A request for `n` pages from `va` on. -/
structure Request where
  va : Addr
  pa : Addr
  permission : Word
  n : Nat

/-- From `s` to `t` a request has corrupted nothing: `set_memory` only got frames that `kalloc`
handed out, only these and the tables of the tree have changed, none of it below 4096, every place
outside the request is kept, no table has an entry that points to frame 0, and of the last-level
entries only those of the request have become valid. -/
structure CorruptsNothing (s t : Phys) (root : Addr) (r : Request) : Prop where
  filled : ∃ ranges, t.filled = ranges ++ s.filled ∧
    ∀ range ∈ ranges, range.2 = 4096 ∧ HandedOut s t range.1
  written : ∀ b, t.mem b ≠ s.mem b →
    4096 ≤ b.toNat ∧ ∃ f, pageNo b = pageNo f ∧ (IsTable s.mem root f ∨ HandedOut s t f)
  kept : ∀ k, (∀ x < r.n, key (pageAt r.va x) ≠ k) → Keeps s.mem t.mem root k
  pointers : ∀ p u i, p.length ≤ 1 → tableAt t.mem root p = some u →
    entry t.mem u i &&& pteV ≠ 0 → (entry t.mem u i >>> 10) <<< 12 ≠ 0
  leaves : ∀ k w, lookupKey t.mem root k = some w → w &&& pteV ≠ 0 →
    lookupKey s.mem root k = some w ∨
      ∃ x < r.n, key (pageAt r.va x) = k ∧ w = leafPte (pageAt r.pa x) r.permission

theorem pageNo_pos {f : Addr} (hf : Aligned f) (h0 : f ≠ 0) : 0 < pageNo f := by
  unfold Aligned at hf
  unfold pageNo
  bv_omega

theorem Confined.pageNo_pos {s t : Phys} {root f : Addr} {free : List Addr}
    (h : Confined root free s t) (hs : Space s root free) (h0 : ¬ IsTable s.mem root 0)
    (hf : IsTable s.mem root f ∨ HandedOut s t f) : 0 < pageNo f := by
  obtain hf | hf := hf
  · have hal : Aligned f := by
      obtain ⟨p, -, hp⟩ := hf
      exact tableAt_aligned hs.tree.aligned hp
    exact OutOfPages.pageNo_pos hal fun he => h0 (he ▸ hf)
  · exact OutOfPages.pageNo_pos (hs.list.aligned f (h.frames f hf)) hf.1

theorem Confined.corruptsNothing {s t : Phys} {root : Addr} {r : Request} {free : List Addr}
    (h : Confined root free s t) (hs : Space s root free) (h0 : ¬ IsTable s.mem root 0)
    (hsup : Supplied s t)
    (hkept : ∀ k, (∀ x < r.n, key (pageAt r.va x) ≠ k) → Keeps s.mem t.mem root k)
    (hleaves : ∀ k w, lookupKey t.mem root k = some w → w &&& pteV ≠ 0 →
      lookupKey s.mem root k = some w ∨
        ∃ x < r.n, key (pageAt r.va x) = k ∧ w = leafPte (pageAt r.pa x) r.permission) :
    CorruptsNothing s t root r := by
  have hpages := fun f => h.pageNo_pos (f := f) hs h0
  refine ⟨?_, fun b hb => ?_, hkept, fun p u i hp hu hv => ?_, hleaves⟩
  · obtain ⟨new, ranges, hh, hf, hr⟩ := h.logged
    refine ⟨ranges, hf, fun r hmem => ⟨((hr r).mp hmem).2, ?_, new, hh, ((hr r).mp hmem).1⟩⟩
    exact h.logged.supplied_iff.mp hsup ranges hf r hmem
  · obtain ⟨f, hpage, hf⟩ := h.written b hb
    have hpos := hpages f hf
    rw [← hpage, pageNo] at hpos
    exact ⟨by omega, f, hpage, hf⟩
  · -- An entry that points to frame 0 would make frame 0 a table.
    have htable : IsTable t.mem root ((entry t.mem u i >>> 10) <<< 12) := by
      refine ⟨p ++ [i], by simpa using hp, ?_⟩
      rw [tableAt_concat, hu]
      exact if_pos hv
    have hpos := hpages _ (h.tables _ htable)
    intro he
    rw [he] at hpos
    exact absurd hpos (by decide)

theorem mapLoop_corruptsNothing {s : Phys} {root : Addr} {free : List Addr} (r : Request)
    (hs : Space s root free) (h0 : ¬ IsTable s.mem root 0)
    (hsup : Supplied s (mapLoop s root r.permission r.va r.pa r.n)) :
    CorruptsNothing s (mapLoop s root r.permission r.va r.pa r.n) root r := by
  obtain ⟨-, -, -, hkeeps⟩ := mapLoop_space r.n hs hsup
  refine (mapLoop_confined r.n hs hsup).corruptsNothing hs h0 hsup hkeeps fun k w hw hv => ?_
  obtain hold | rfl | hnew := mapLoop_leaves hs hsup hw
  · exact .inl hold
  · exact absurd rfl hv
  · exact .inr hnew

/-- A call of `walk` alone asks for no page. -/
def noRequest : Request := ⟨0, 0, 0, 0⟩

theorem walk_corruptsNothing {s : Phys} {root va : Addr} {free : List Addr}
    (hs : Space s root free) (h0 : ¬ IsTable s.mem root 0)
    (hsup : Supplied s (walk s root va).2) :
    CorruptsNothing s (walk s root va).2 root noRequest := by
  obtain ⟨-, -, -, -, -, -, hkeeps⟩ := walk_space hs hsup
  refine (walk_confined hs hsup).corruptsNothing hs h0 hsup (fun k _ => hkeeps k)
    fun k w hw hv => ?_
  cases hold : lookupKey s.mem root k with
  | none =>
    obtain rfl := (hkeeps k).2 hold w hw
    exact absurd rfl hv
  | some w' => exact .inl (((hkeeps k).1 w' hold).symm.trans hw)

theorem CorruptsNothing.supplied {s t : Phys} {root : Addr} {r : Request}
    (h : CorruptsNothing s t root r) (hl : Logged s t) : Supplied s t := by
  obtain ⟨ranges, hf, hr⟩ := h.filled
  rw [hl.supplied_iff]
  intro ranges' hf' range hmem
  obtain rfl := List.append_cancel_right (hf.symm.trans hf')
  exact (hr range hmem).2.1

theorem walk_supplied_iff {s : Phys} {root va : Addr} {free : List Addr} (hs : Space s root free) :
    Supplied s (walk s root va).2 ↔ (missing s.mem root (pagePaths va)).card ≤ free.length := by
  constructor
  · intro hsup
    obtain ⟨t, free', added, hadded, h, -, ht⟩ := walk_spends hs hsup
    have hcard := h.card_missing hadded fun p => length_of_mem_pagePaths
    rw [missing_pagePaths ht, Finset.card_empty] at hcard
    have hcount := h.count
    omega
  · exact walk_supplied_of hs le_rfl fun p => length_of_mem_pagePaths

/-- A call of `map` corrupts nothing exactly when the free list holds a frame for each table that
the range is missing, and so does a call of `walk` alone. -/
theorem corruptsNothing_iff {s : Phys} {root : Addr} {free : List Addr} (va pa : Addr)
    (size permission : Word) (hs : Space s root free) (h0 : ¬ IsTable s.mem root 0) :
    (CorruptsNothing s (map s va pa root size permission) root
        ⟨pgRoundDown va, pa, permission, size.toNat⟩ ↔
      (missing s.mem root (tablePaths (pgRoundDown va) size.toNat)).card ≤ free.length) ∧
    (CorruptsNothing s (walk s root va).2 root noRequest ↔
      (missing s.mem root (pagePaths va)).card ≤ free.length) := by
  constructor
  · rw [← mapLoop_supplied_iff (pgRoundDown va) pa permission size.toNat hs]
    constructor
    · exact fun h => h.supplied (mapLoop_logged _ _ _ _ _ _)
    · exact mapLoop_corruptsNothing ⟨pgRoundDown va, pa, permission, size.toNat⟩ hs h0
  · rw [← walk_supplied_iff hs]
    exact ⟨fun h => h.supplied (walk_logged _ _ _), walk_corruptsNothing hs h0⟩

theorem isTable_zeroed {m : Mem} {root f : Addr} (h : ∀ i, entry m root i = 0)
    (hf : IsTable m root f) : f = root := by
  obtain ⟨p, -, hp⟩ := hf
  exact (tableAt_zeroed h hp).2

theorem corruptsNothing_iff_emptyTree :
    (CorruptsNothing emptyTree (map emptyTree 0x1ff123 0x80000000 0x1000 2 (pteR ||| pteW)) 0x1000
        ⟨pgRoundDown 0x1ff123, 0x80000000, pteR ||| pteW, (2 : Word).toNat⟩ ↔
      (missing emptyTree.mem 0x1000
        (tablePaths (pgRoundDown 0x1ff123) (2 : Word).toNat)).card ≤ 4) ∧
    (CorruptsNothing emptyTree (walk emptyTree 0x1000 0x1ff123).2 0x1000 noRequest ↔
      (missing emptyTree.mem 0x1000 (pagePaths 0x1ff123)).card ≤ 4) := by
  refine corruptsNothing_iff 0x1ff123 0x80000000 2 (pteR ||| pteW) emptyTree_space fun h0 => ?_
  have hroot := isTable_zeroed (entry_fill_zero (by decide)) h0
  exact absurd hroot (by decide)

/-- A zeroed root table at 0x1000 and no free frame. -/
def noFrames : Phys := (boot (fun _ => 0)).setMemory 0x1000 0 4096

theorem noFrames_space : Space noFrames 0x1000 [] :=
  space_zeroed (boot_freeList _) (by decide) (by simp)

/-- Mapping one page without a free frame fills the page at address 0. -/
theorem not_corruptsNothing : ¬ ∀ (s : Phys) (root va pa : Addr) (size permission : Word)
    (free : List Addr), Space s root free → ¬ IsTable s.mem root 0 →
    CorruptsNothing s (map s va pa root size permission) root
      ⟨pgRoundDown va, pa, permission, size.toNat⟩ := by
  intro h
  have hzero : ∀ i, entry noFrames.mem 0x1000 i = 0 := entry_fill_zero (by decide)
  have h0 : ¬ IsTable noFrames.mem 0x1000 0 := fun h0 =>
    absurd (isTable_zeroed hzero h0) (by decide)
  have hsup := (h noFrames 0x1000 0 0x80000000 1 pteR [] noFrames_space h0).supplied
    (mapLoop_logged _ _ _ _ _ _)
  have hroom := (mapLoop_supplied_iff _ _ _ _ noFrames_space).mp hsup
  have hmissing : [index (pgRoundDown 0) 2] ∈
      missing noFrames.mem 0x1000 (tablePaths (pgRoundDown 0) (1 : Word).toNat) := by
    refine Finset.mem_filter.mpr ⟨Finset.mem_union_left _ (by simp [pagePaths]), ?_⟩
    rw [tableAt, child_of_zero (hzero _)]
    rfl
  rw [List.length_nil, Nat.le_zero, Finset.card_eq_zero] at hroom
  rw [hroom] at hmissing
  cases hmissing

end Raynix.OutOfPages
