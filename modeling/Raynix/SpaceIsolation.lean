import Raynix.AddressSpaces
import Raynix.Lib.Ownership
import Raynix.OutOfPages

namespace Raynix.SpaceIsolation

open Raynix.Lib.Memory Raynix.Lib.Transition Raynix.Lib.Sv39 Raynix.Lib.Ownership
open Raynix.Kalloc Raynix.PageStack Raynix.Vm Raynix.PageTree Raynix.MapLaw Raynix.OutOfPages
open Raynix.AddressSpaces

/-- What a frame is used for. -/
inductive Owner
  | free
  | held
  | table (root : Addr) (path : List (BitVec 9))

def Owns (s : State) (free : List Addr) (f : Addr) : Owner → Prop
  | .free => f ∈ free
  | .held => f ∈ s.held
  | .table root path => root ∈ s.roots ∧ path.length ≤ 2 ∧ tableAt s.phys.mem root path = some f

/-- What a frame of the memory is: a page of its own below 2^56 and not the one at null. -/
structure IsFrame (f : Addr) : Prop where
  aligned : Aligned f
  ne : f ≠ 0
  lt : f.toNat < 2 ^ 56

/-- Every entry above the last level is as `walk` writes it. -/
def Exact (m : Mem) (root : Addr) : Prop :=
  ∀ p t i u, p.length ≤ 1 → tableAt m root p = some t → child m t i = some u →
    entry m t i = tablePte u

/-- Each frame is on the free list, held, or one table of one root. -/
structure Inv (frames : Set Addr) (s : State) (free : List Addr) : Prop where
  list : FreeList s.phys free
  tree : ∀ r ∈ s.roots, WellFormed s.phys.mem r ∧ Exact s.phys.mem r
  partition : Partition frames (Owns s free)
  held : s.held.Nodup

/-- The last-level entry at a place, zero where there is no table for it. -/
def entryAt (m : Mem) (root : Addr) (k : Key) : Word := (lookupKey m root k).getD 0

/-- The tables hold the entries of each space, and the held frames the bytes. -/
structure Shows (s : State) (a : Spaces) : Prop where
  roots : s.roots = a.roots
  held : s.held = a.held
  entries : ∀ r ∈ s.roots, ∀ k, entryAt s.phys.mem r k = a.entries r k
  bytes : ∀ f ∈ s.held, ∀ b, pageNo b = pageNo f → s.phys.mem b = a.byte b

/-- The page of `f` is as it was. -/
def SamePage (f : Addr) (m m' : Mem) : Prop := ∀ b, pageNo b = pageNo f → m' b = m b

/-- The tables of `r` are as they were. -/
def Untouched (r : Addr) (m m' : Mem) : Prop := ∀ f, IsTable m r f → SamePage f m m'

theorem samePage_of_agreeOff {f g : Addr} {m m' : Mem} (h : AgreeOff g m m') (hf : Aligned f)
    (hg : Aligned g) (hne : f ≠ g) : SamePage f m m' := by
  intro b hb
  apply h
  rw [hb]
  exact fun he => hne ((hf.pageNo_inj hg).mp he)

theorem entry_samePage {f : Addr} {m m' : Mem} (h : SamePage f m m') (hf : Aligned f)
    (i : BitVec 9) : entry m' f i = entry m f i :=
  readWord_congr fun b hb => h b (pageNo_of_mem_slot hf hb)

section Untouched

variable {r : Addr} {m m' : Mem}

theorem Untouched.entry (h : Untouched r m m') (hr : Aligned r) {p : List (BitVec 9)} {t : Addr}
    (hp : p.length ≤ 2) (ht : tableAt m r p = some t) (i : BitVec 9) :
    Lib.Memory.entry m' t i = Lib.Memory.entry m t i :=
  entry_samePage (h t ⟨p, hp, ht⟩) (tableAt_aligned hr ht) i

theorem Untouched.tableAt (h : Untouched r m m') (hr : Aligned r) {p : List (BitVec 9)}
    (hp : p.length ≤ 2) : PageTree.tableAt m' r p = PageTree.tableAt m r p :=
  tableAt_congr (fun _ _ i hq hu => h.entry hr (by omega) hu i) hp

theorem Untouched.lookupKey (h : Untouched r m m') (hr : Aligned r) (k : Key) :
    PageTree.lookupKey m' r k = PageTree.lookupKey m r k := by
  rw [PageTree.lookupKey, PageTree.lookupKey, h.tableAt hr (by simp)]
  cases ht : PageTree.tableAt m r [k.1, k.2.1] with
  | none => rw [Option.map_none, Option.map_none]
  | some t => rw [Option.map_some, Option.map_some, h.entry hr (by simp) ht]

theorem Untouched.wellFormed (h : Untouched r m m') (hw : WellFormed m r) : WellFormed m' r := by
  refine ⟨hw.aligned, fun p q t hp hq ht ht' => ?_, fun p t i hp ht hv => ?_⟩
  · rw [h.tableAt hw.aligned hp] at ht
    rw [h.tableAt hw.aligned hq] at ht'
    exact hw.distinct p q t hp hq ht ht'
  · rw [h.tableAt hw.aligned (by omega)] at ht
    rw [h.entry hw.aligned (by omega) ht] at hv ⊢
    exact hw.pointers p t i hp ht hv

theorem Untouched.exact (h : Untouched r m m') (hr : Aligned r) (he : Exact m r) : Exact m' r := by
  intro p t i u hp ht hu
  rw [h.tableAt hr (by omega)] at ht
  have hentry := h.entry hr (by omega) ht i
  rw [child_congr hentry] at hu
  rw [hentry]
  exact he p t i u hp ht hu

end Untouched

variable {frames : Set Addr} {s : State} {free : List Addr} {r : Addr}

theorem isTable_owned (free : List Addr) (hr : r ∈ s.roots) {f : Addr}
    (hf : IsTable s.phys.mem r f) : ∃ p, Owns s free f (.table r p) := by
  obtain ⟨p, hp, ht⟩ := hf
  exact ⟨p, hr, hp, ht⟩

theorem Inv.table_apart (h : Inv frames s free) (hr : r ∈ s.roots) {f : Addr}
    (hf : IsTable s.phys.mem r f) : f ∉ free ∧ f ∉ s.held ∧
      ∀ r' ∈ s.roots, r' ≠ r → ¬ IsTable s.phys.mem r' f := by
  obtain ⟨p, hp⟩ := isTable_owned free hr hf
  refine ⟨fun hfree => ?_, fun hheld => ?_, fun r' hr' hne hf' => ?_⟩
  · cases h.partition.unique f _ .free hp hfree
  · cases h.partition.unique f _ .held hp hheld
  · obtain ⟨q, hq⟩ := isTable_owned free hr' hf'
    cases h.partition.unique f _ _ hp hq
    exact hne rfl

theorem Inv.held_not_free (h : Inv frames s free) {f : Addr} (hf : f ∈ s.held) : f ∉ free := by
  intro hfree
  cases h.partition.unique f .held .free hf hfree

theorem Inv.space (h : Inv frames s free) (hr : r ∈ s.roots) : Space s.phys r free :=
  ⟨(h.tree r hr).1, h.list, fun p _ hp ht => (h.table_apart hr ⟨p, hp, ht⟩).1⟩

/-- Of the tables and the held frames only the tables of `r` have changed. -/
structure Local (r : Addr) (s : State) (phys : Phys) : Prop where
  tables : ∀ r' ∈ s.roots, r' ≠ r → Untouched r' s.phys.mem phys.mem
  held : ∀ f ∈ s.held, SamePage f s.phys.mem phys.mem

theorem confined_samePage {s t : Phys} {f : Addr} (h : Confined r free s t)
    (hs : Space s r free) (hf : Aligned f) (hfree : f ∉ free) (htable : ¬ IsTable s.mem r f) :
    SamePage f s.mem t.mem := by
  intro b hb
  by_contra hne
  obtain ⟨g, hpage, hg⟩ := h.written b hne
  have hal : Aligned g := by
    obtain ⟨p, -, hp⟩ | hg := hg
    · exact tableAt_aligned hs.tree.aligned hp
    · exact hs.list.aligned g (h.frames g hg)
  obtain rfl := (hf.pageNo_inj hal).mp (hb.symm.trans hpage)
  obtain hg | hg := hg
  · exact htable hg
  · exact hfree (h.frames f hg)

theorem Inv.confined (h : Inv frames s free) (hframes : ∀ f ∈ frames, IsFrame f)
    (hr : r ∈ s.roots) {phys : Phys} (hc : Confined r free s.phys phys) : Local r s phys := by
  refine ⟨fun r' hr' hne f hf => ?_, fun f hf => ?_⟩
  · obtain ⟨hfree, -, hother⟩ := h.table_apart hr' hf
    obtain ⟨p, -, hp⟩ := hf
    exact confined_samePage hc (h.space hr) (tableAt_aligned (h.tree r' hr').1.aligned hp) hfree
      (hother r hr hne.symm)
  · have hal := (hframes f (h.partition.inside f .held hf)).aligned
    exact confined_samePage hc (h.space hr) hal (h.held_not_free hf)
      fun ht => (h.table_apart hr ht).2.1 hf

theorem exact_of_addsTable {m m' : Mem} {t f : Addr} {i : BitVec 9} {p : List (BitVec 9)}
    (h : AddsTable m m' r p i t f) (hw : WellFormed m r) (he : Exact m r) : Exact m' r := by
  intro q u j v hq hu hv
  rw [h.tableAt_eq hw q (by omega)] at hu
  by_cases hqi : q = p ++ [i]
  · rw [if_pos hqi] at hu
    cases hu
    rw [child_of_zero (h.zero j)] at hv
    cases hv
  · rw [if_neg hqi] at hu
    by_cases hut : u = t ∧ j = i
    · obtain ⟨rfl, rfl⟩ := hut
      rw [child_of_tablePte h.aligned h.pointer] at hv
      cases hv
      exact h.pointer
    · have huf : u ≠ f := fun he => h.fresh q (by omega) (he ▸ hu)
      have hentry := h.others u j (tableAt_aligned hw.aligned hu) huf (not_and_or.mp hut)
      rw [child_congr hentry] at hv
      rw [hentry]
      exact he q u j v hq hu hv

theorem mem_cons_ne {f g : Addr} {l : List Addr} : g ∈ f :: l ↔ g = f ∨ g ≠ f ∧ g ∈ l := by
  by_cases hgf : g = f <;> simp [hgf]

theorem mem_tail_iff {f g : Addr} {l : List Addr} (hf : f ∉ l) :
    g ∈ l ↔ g ≠ f ∧ g ∈ f :: l := by
  rw [List.mem_cons]
  refine ⟨fun hg => ⟨?_, .inr hg⟩, fun ⟨hgf, hg⟩ => hg.resolve_left hgf⟩
  rintro rfl
  exact hf hg

theorem addTable_inv (h : Inv frames s free) (hframes : ∀ f ∈ frames, IsFrame f)
    (hr : r ∈ s.roots) {p : List (BitVec 9)} {t : Addr} {i : BitVec 9} (hp : p.length ≤ 1)
    (ht : tableAt s.phys.mem r p = some t) (hnone : child s.phys.mem t i = none)
    (hsup : Supplied s.phys (addTable s.phys t i)) :
    ∃ free', Inv frames { s with phys := addTable s.phys t i } free' := by
  have hlocal := h.confined hframes hr (addTable_confined (h.space hr) hp ht hnone hsup)
  obtain ⟨free', rfl, hspace, hadds⟩ := addTable_space (h.space hr) hp ht hnone hsup
  generalize hf : (kalloc s.phys).1 = f at *
  have hfree : Owns s (f :: free') f .free := List.mem_cons_self
  have hnotfree : f ∉ free' := (List.nodup_cons.mp h.list.nodup).1
  refine ⟨free', hspace.list, fun r' hr' => ?_, ?_, h.held⟩
  · obtain ⟨hw, he⟩ := h.tree r' hr'
    by_cases hrr : r' = r
    · subst hrr
      exact ⟨hspace.tree, exact_of_addsTable hadds hw he⟩
    · have hsame := hlocal.tables r' hr' hrr
      exact ⟨hsame.wellFormed hw, hsame.exact hw.aligned he⟩
  · refine h.partition.transfer (o := .table r (p ++ [i])) (h.partition.inside f _ hfree) ?_
    intro g o
    have hne : ∀ o', Owns s (f :: free') g o' → o' ≠ .free → g ≠ f :=
      fun o' ho' hof => h.partition.ne ho' hfree hof
    cases o with
    | free =>
      simp only [reduceCtorEq, and_false, false_or]
      exact mem_tail_iff hnotfree
    | held =>
      simp only [Owns, reduceCtorEq, and_false, false_or]
      exact ⟨fun hg => ⟨hne .held hg (by simp), hg⟩, fun hg => hg.2⟩
    | table r' q =>
      by_cases hnew : r' = r ∧ q = p ++ [i]
      · obtain ⟨rfl, rfl⟩ := hnew
        have hlen : (p ++ [i]).length ≤ 2 := by simpa using hp
        have hmissing : tableAt s.phys.mem r' (p ++ [i]) = none := by
          rw [tableAt_concat, ht]
          exact hnone
        simp only [Owns, hadds.tableAt_eq (h.tree r' hr).1 _ hlen, hmissing, if_pos, hr, hlen]
        simp [eq_comm]
      · have hsame : Owns { s with phys := addTable s.phys t i } free' g (.table r' q) ↔
            Owns s (f :: free') g (.table r' q) := by
          refine and_congr_right fun hr' => and_congr_right fun hq => ?_
          by_cases hrr : r' = r
          · subst hrr
            rw [hadds.tableAt_eq (h.tree r' hr).1 q hq, if_neg fun he => hnew ⟨rfl, he⟩]
          · rw [(hlocal.tables r' hr' hrr).tableAt (h.tree r' hr').1.aligned hq]
        rw [hsame]
        constructor
        · exact fun hg => .inr ⟨hne _ hg (by simp), hg⟩
        · rintro (⟨-, he⟩ | ⟨-, hg⟩)
          · cases he
            exact absurd ⟨rfl, rfl⟩ hnew
          · exact hg

theorem storeLeaf_inv (h : Inv frames s free) (hframes : ∀ f ∈ frames, IsFrame f)
    (hr : r ∈ s.roots) {p : List (BitVec 9)} {t : Addr} (hp : p.length = 2)
    (ht : tableAt s.phys.mem r p = some t) (i : BitVec 9) (w : Word) :
    Inv frames { s with phys := s.phys.store (slot t i) w } free := by
  have hspace := h.space hr
  have hlocal := h.confined hframes hr (storeLeaf_confined hspace hp ht i w)
  have hsame := tableAt_writeWord (i := i) (w := w) hspace.tree hp ht
  refine ⟨(hspace.storeLeaf hp ht i w).list, fun r' hr' => ?_, h.partition.congr fun g o => ?_,
    h.held⟩
  · obtain ⟨hw, he⟩ := h.tree r' hr'
    by_cases hrr : r' = r
    · subst hrr
      refine ⟨wellFormed_writeWord hw hp ht, fun q u j v hq hu hv => ?_⟩
      have hu' := (hsame q (by omega)).symm.trans hu
      have hentry := entry_above (i := i) (w := w) hw hp ht hq hu' j
      exact hentry.trans (he q u j v hq hu' ((child_congr hentry).symm.trans hv))
    · have hsame' := hlocal.tables r' hr' hrr
      exact ⟨hsame'.wellFormed hw, hsame'.exact hw.aligned he⟩
  · cases o with
    | free => exact Iff.rfl
    | held => exact Iff.rfl
    | table r' q =>
      refine and_congr_right fun hr' => and_congr_right fun hq => ?_
      by_cases hrr : r' = r
      · subst hrr
        exact iff_of_eq (congrArg (· = some g) (hsame q hq))
      · rw [(hlocal.tables r' hr' hrr).tableAt (h.tree r' hr').1.aligned hq]

theorem walkLevel_inv (h : Inv frames s free) (hframes : ∀ f ∈ frames, IsFrame f)
    (hr : r ∈ s.roots) {p : List (BitVec 9)} {t : Addr} (va : Addr) (i : Nat) (hp : p.length ≤ 1)
    (ht : tableAt s.phys.mem r p = some t)
    (hsup : Supplied s.phys (walkLevel s.phys t va i).2) :
    ∃ free', Inv frames { s with phys := (walkLevel s.phys t va i).2 } free' := by
  cases hc : child s.phys.mem t (index va (2 - i)) with
  | some u =>
    rw [walkLevel_some hc]
    exact ⟨free, h⟩
  | none =>
    rw [walkLevel_none hc] at hsup ⊢
    exact addTable_inv h hframes hr hp ht hc hsup

theorem walk_inv (h : Inv frames s free) (hframes : ∀ f ∈ frames, IsFrame f) (hr : r ∈ s.roots)
    {va : Addr} (hsup : Supplied s.phys (walk s.phys r va).2) :
    ∃ free', Inv frames { s with phys := (walk s.phys r va).2 } free' := by
  obtain ⟨hsup1, hsup2⟩ := walk_supplied_levels hsup
  have hroot : tableAt s.phys.mem r [] = some r := rfl
  obtain ⟨free1, h1⟩ := walkLevel_inv h hframes hr va 0 (by simp) hroot hsup1
  obtain ⟨-, -, -, ht1, -⟩ := walkLevel_space va 0 (h.space hr) (by simp) hroot hsup1
  rw [walk_eq]
  exact walkLevel_inv h1 hframes hr va 1 (by simp) ht1 hsup2

theorem mapPage_inv (h : Inv frames s free) (hframes : ∀ f ∈ frames, IsFrame f)
    (hr : r ∈ s.roots) (va pa : Addr) (permission : Word)
    (hsup : Supplied s.phys (mapPage s.phys r permission va pa)) :
    ∃ free', Inv frames { s with phys := mapPage s.phys r permission va pa } free' := by
  obtain ⟨free', hwalk⟩ := walk_inv h hframes hr hsup
  obtain ⟨t, -, hslot, -, -, ht, -⟩ := walk_space (h.space hr) hsup
  rw [mapPage, hslot]
  exact ⟨free', storeLeaf_inv hwalk hframes hr rfl ht _ _⟩

theorem mapLoop_inv (h : Inv frames s free) (hframes : ∀ f ∈ frames, IsFrame f)
    (hr : r ∈ s.roots) {permission va pa : Word} {n : Nat}
    (hsup : Supplied s.phys (mapLoop s.phys r permission va pa n)) :
    ∃ free', Inv frames { s with phys := mapLoop s.phys r permission va pa n } free' := by
  induction n generalizing s va pa free with
  | zero => exact ⟨free, h⟩
  | succ n ih =>
    obtain ⟨hsup1, hsup2⟩ := mapLoop_supplied hsup
    obtain ⟨free1, h1⟩ := mapPage_inv h hframes hr va pa permission hsup1
    rw [mapLoop_succ]
    exact ih h1 hr hsup2

theorem tables_of_agreeOff (h : Inv frames s free) {f : Addr} {m : Mem}
    (hm : AgreeOff f s.phys.mem m) (hf : Aligned f)
    (hnot : ∀ r ∈ s.roots, ¬ IsTable s.phys.mem r f) : ∀ r ∈ s.roots, Untouched r s.phys.mem m := by
  intro r hr t ht
  have hal : Aligned t := by
    obtain ⟨p, -, hp⟩ := ht
    exact tableAt_aligned (h.tree r hr).1.aligned hp
  exact samePage_of_agreeOff hm hal hf fun he => hnot r hr (he ▸ ht)

theorem owns_table_iff (h : Inv frames s free) {t : State} {free' : List Addr}
    (hroots : t.roots = s.roots) (htables : ∀ r ∈ s.roots, Untouched r s.phys.mem t.phys.mem)
    (f r : Addr) (p : List (BitVec 9)) :
    Owns t free' f (.table r p) ↔ Owns s free f (.table r p) := by
  rw [Owns, Owns, hroots]
  refine and_congr_right fun hr => and_congr_right fun hp => ?_
  rw [(htables r hr).tableAt (h.tree r hr).1.aligned hp]

/-- The tables stay: a frame has passed between the free list and the clients, or none has. -/
theorem client_inv (h : Inv frames s free) {t : State} {free' : List Addr}
    (hroots : t.roots = s.roots) (htables : ∀ r ∈ s.roots, Untouched r s.phys.mem t.phys.mem)
    (hlist : FreeList t.phys free') (hheld : t.held.Nodup)
    (hpartition : Partition frames (Owns t free')) : Inv frames t free' := by
  refine ⟨hlist, fun r hr => ?_, hpartition, hheld⟩
  rw [hroots] at hr
  obtain ⟨hw, he⟩ := h.tree r hr
  exact ⟨(htables r hr).wellFormed hw, (htables r hr).exact hw.aligned he⟩

theorem isTable_mem (h : Inv frames s free) (hr : r ∈ s.roots) {f : Addr}
    (hf : IsTable s.phys.mem r f) : f ∈ frames := by
  obtain ⟨p, hp⟩ := isTable_owned free hr hf
  exact h.partition.inside f _ hp

theorem not_isTable_zero (h : Inv frames s free) (hframes : ∀ f ∈ frames, IsFrame f) :
    ∀ r ∈ s.roots, ¬ IsTable s.phys.mem r 0 :=
  fun _ hr h0 => (hframes 0 (isTable_mem h hr h0)).ne rfl

theorem not_isTable_free (h : Inv frames s free) {f : Addr} (hf : f ∈ free) :
    ∀ r ∈ s.roots, ¬ IsTable s.phys.mem r f :=
  fun _ hr ht => (h.table_apart hr ht).1 hf

theorem not_isTable_held (h : Inv frames s free) {f : Addr} (hf : f ∈ s.held) :
    ∀ r ∈ s.roots, ¬ IsTable s.phys.mem r f :=
  fun _ hr ht => (h.table_apart hr ht).2.1 hf

theorem held_samePage (h : Inv frames s free) (hframes : ∀ f ∈ frames, IsFrame f) {f g : Addr}
    {m : Mem} (hm : AgreeOff f s.phys.mem m) (hf : Aligned f) (hg : g ∈ s.held) (hne : g ≠ f) :
    SamePage g s.phys.mem m :=
  samePage_of_agreeOff hm (hframes g (h.partition.inside g .held hg)).aligned hf hne

/-- The page at null is nobody's: writing it changes no use of a frame. -/
theorem null_inv (h : Inv frames s free) (hframes : ∀ f ∈ frames, IsFrame f) {phys : Phys}
    (hm : AgreeOff 0 s.phys.mem phys.mem) (hlist : FreeList phys free) :
    Inv frames { s with phys := phys } free := by
  have htables := tables_of_agreeOff h hm aligned_zero (not_isTable_zero h hframes)
  refine client_inv h rfl htables hlist h.held (h.partition.congr fun f o => ?_)
  cases o with
  | free => exact Iff.rfl
  | held => exact Iff.rfl
  | table r p => exact owns_table_iff (t := { s with phys := phys }) h rfl htables f r p

theorem table_ne (h : Inv frames s free) {f g : Addr} {o : Owner} (hf : Owns s free f o)
    {r : Addr} {p : List (BitVec 9)} (ho : .table r p ≠ o) :
    Owns s free g (.table r p) ↔ g ≠ f ∧ Owns s free g (.table r p) :=
  ⟨fun hg => ⟨h.partition.ne hg hf ho, hg⟩, And.right⟩

theorem kalloc_inv {f : Addr} (h : Inv frames s (f :: free)) :
    Inv frames { s with phys := (kalloc s.phys).2, held := f :: s.held } free := by
  obtain ⟨hf, hlist, hm⟩ := kalloc_pop h.list
  have hmem : f ∈ f :: free := List.mem_cons_self
  have hfree : Owns s (f :: free) f .free := hmem
  have hnotheld : f ∉ s.held := fun hheld => h.held_not_free hheld hmem
  have hnotfree : f ∉ free := (List.nodup_cons.mp h.list.nodup).1
  have htables := tables_of_agreeOff h hm (h.list.aligned f hmem) (not_isTable_free h hmem)
  refine client_inv h rfl htables hlist (List.nodup_cons.mpr ⟨hnotheld, h.held⟩) ?_
  refine h.partition.transfer (o := .held) (h.partition.inside f .free hmem) fun g o => ?_
  cases o with
  | free =>
    simp only [reduceCtorEq, and_false, false_or]
    exact mem_tail_iff hnotfree
  | held =>
    simp only [and_true]
    exact mem_cons_ne
  | table r p =>
    rw [owns_table_iff (t := { s with phys := (kalloc s.phys).2, held := f :: s.held })
      h rfl htables]
    simp only [reduceCtorEq, and_false, false_or]
    exact table_ne h hfree (by simp)

theorem freePage_inv (h : Inv frames s free) (hframes : ∀ f ∈ frames, IsFrame f) {f : Addr}
    (hf : f ∈ s.held) :
    Inv frames { s with phys := freePage s.phys f, held := s.held.erase f } (f :: free) := by
  have hin := h.partition.inside f .held hf
  have hheld : Owns s free f .held := hf
  obtain ⟨hal, h0, -⟩ := hframes f hin
  obtain ⟨hlist, hm⟩ := freePage_push h.list hal h0 (h.held_not_free hf)
  have htables := tables_of_agreeOff h hm hal (not_isTable_held h hf)
  refine client_inv h rfl htables hlist (h.held.erase f) ?_
  refine h.partition.transfer (o := .free) hin fun g o => ?_
  cases o with
  | free =>
    simp only [and_true]
    exact mem_cons_ne
  | held =>
    simp only [Owns, reduceCtorEq, and_false, false_or]
    exact h.held.mem_erase_iff
  | table r p =>
    rw [owns_table_iff (t := { s with phys := freePage s.phys f, held := s.held.erase f })
      h rfl htables]
    simp only [reduceCtorEq, and_false, false_or]
    exact table_ne h hheld (by simp)

theorem write_inv (h : Inv frames s free) {a : Addr} (ha : pgRoundDown a ∈ s.held) (v : Byte) :
    Inv frames { s with phys := { s.phys with mem := Function.update s.phys.mem a v } } free := by
  have hm : AgreeOff (pgRoundDown a) s.phys.mem (Function.update s.phys.mem a v) := by
    intro b hb
    apply Function.update_of_ne
    rintro rfl
    exact hb (pageNo_pgRoundDown b).symm
  have htables := tables_of_agreeOff h hm (aligned_pgRoundDown a) (not_isTable_held h ha)
  have hlist : FreeList { s.phys with mem := Function.update s.phys.mem a v } free :=
    h.list.agree hm rfl (aligned_pgRoundDown a) (h.held_not_free ha)
  refine client_inv h rfl htables hlist h.held (h.partition.congr fun f o => ?_)
  cases o with
  | free => exact Iff.rfl
  | held => exact Iff.rfl
  | table r p =>
    exact owns_table_iff
      (t := { s with phys := { s.phys with mem := Function.update s.phys.mem a v } }) h rfl
      htables f r p

theorem emptyVmCreate_inv {f : Addr} (h : Inv frames s (f :: free)) :
    Inv frames { s with phys := (emptyVmCreate s.phys).2, roots := f :: s.roots } free ∧
      (∀ r ∈ s.roots, Untouched r s.phys.mem (emptyVmCreate s.phys).2.mem) ∧
      AgreeOff f s.phys.mem (emptyVmCreate s.phys).2.mem ∧
      ∀ i, entry (emptyVmCreate s.phys).2.mem f i = 0 := by
  obtain ⟨hf, hlist, hm⟩ := kalloc_pop h.list
  have hmem : f ∈ f :: free := List.mem_cons_self
  have hfree : Owns s (f :: free) f .free := hmem
  have hnotfree : f ∉ free := (List.nodup_cons.mp h.list.nodup).1
  have hal : Aligned f := h.list.aligned f hmem
  have hmade : (emptyVmCreate s.phys).2 = (kalloc s.phys).2.setMemory f 0 4096 := by
    rw [emptyVmCreate, hf]
  have hzero : ∀ i, entry (emptyVmCreate s.phys).2.mem f i = 0 := by
    intro i
    rw [hmade, setMemory_mem]
    exact entry_fill_zero hal i
  have hagree : AgreeOff f s.phys.mem (emptyVmCreate s.phys).2.mem := by
    rw [hmade, setMemory_mem]
    exact hm.trans (agreeOff_fill hal)
  have htables := tables_of_agreeOff h hagree hal (not_isTable_free h hmem)
  have hlist' : FreeList (emptyVmCreate s.phys).2 free := by
    rw [hmade]
    exact hlist.setMemory hal hnotfree 0
  refine ⟨⟨hlist', fun r hr => ?_, ?_, h.held⟩, htables, hagree, hzero⟩
  · obtain rfl | hr := List.mem_cons.mp hr
    · refine ⟨(space_of_zero hlist' hal hnotfree hzero).tree, fun p t i u hp ht hu => ?_⟩
      rw [(tableAt_zeroed hzero ht).2, child_of_zero (hzero i)] at hu
      cases hu
    · obtain ⟨hw, he⟩ := h.tree r hr
      exact ⟨(htables r hr).wellFormed hw, (htables r hr).exact hw.aligned he⟩
  · refine h.partition.transfer (o := .table f []) (h.partition.inside f .free hmem) fun g o => ?_
    cases o with
    | free =>
      simp only [reduceCtorEq, and_false, false_or]
      exact mem_tail_iff hnotfree
    | held =>
      simp only [Owns, reduceCtorEq, and_false, false_or]
      exact ⟨fun hg => ⟨fun he => h.held_not_free hg (he ▸ hmem), hg⟩, fun hg => hg.2⟩
    | table r p =>
      by_cases hrf : r = f
      · -- The new root has no table but itself.
        subst hrf
        have hold : r ∉ s.roots := fun hr => not_isTable_free h hmem r hr ⟨[], by simp, rfl⟩
        simp only [Owns, List.mem_cons, true_and, Owner.table.injEq, hold, false_and,
          and_false, or_false]
        constructor
        · rintro ⟨-, ht⟩
          obtain ⟨rfl, rfl⟩ := tableAt_zeroed hzero ht
          exact ⟨rfl, rfl⟩
        · rintro ⟨rfl, rfl⟩
          exact ⟨by simp, rfl⟩
      · simp only [Owns, List.mem_cons, hrf, false_or, Owner.table.injEq, false_and, and_false]
        constructor
        · rintro ⟨hr, hp, ht⟩
          rw [(htables r hr).tableAt (h.tree r hr).1.aligned hp] at ht
          refine ⟨?_, hr, hp, ht⟩
          rintro rfl
          exact not_isTable_free h hmem r hr ⟨p, hp, ht⟩
        · rintro ⟨-, hr, hp, ht⟩
          exact ⟨hr, hp, ((htables r hr).tableAt (h.tree r hr).1.aligned hp).trans ht⟩

end Raynix.SpaceIsolation
