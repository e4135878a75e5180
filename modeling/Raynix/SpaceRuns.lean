import Raynix.SpaceIsolation
import Raynix.WalkTree

namespace Raynix.SpaceRuns

open Raynix.Lib.Memory Raynix.Lib.Transition Raynix.Lib.Sv39 Raynix.Lib.Ownership
open Raynix.Kalloc hiding step
open Raynix.PageStack Raynix.Vm Raynix.PageTree Raynix.MapLaw Raynix.OutOfPages
open Raynix.AddressSpaces Raynix.SpaceIsolation
open Raynix.WalkTree (sevenFrames sevenFrames_freeList)

variable {frames : Set Addr} {s : State} {free : List Addr} {r : Addr}

theorem entryAt_keeps {m m' : Mem} {k : Key} (h : Keeps m m' r k) :
    entryAt m' r k = entryAt m r k := by
  rw [entryAt, entryAt]
  cases hk : lookupKey m r k with
  | some w => rw [h.1 w hk]
  | none =>
    cases hk' : lookupKey m' r k with
    | none => rfl
    | some w => exact h.2 hk w hk'

theorem entryAt_untouched {m m' : Mem} (h : Untouched r m m') (hr : Aligned r) (k : Key) :
    entryAt m' r k = entryAt m r k := by
  rw [entryAt, entryAt, h.lookupKey hr]

theorem entryAt_of_table {m : Mem} {t va : Addr}
    (h : tableAt m r [index va 2, index va 1] = some t) :
    entryAt m r (key va) = entry m t (index va 0) := by
  have hlookup : lookupKey m r (key va) = some (entry m t (index va 0)) := by
    change (tableAt m r [index va 2, index va 1]).map _ = _
    rw [h]
    rfl
  rw [entryAt, hlookup, Option.getD_some]

theorem mapLoop_entries {s : Phys} {permission va pa : Word} {n : Nat} (hs : Space s r free)
    (hsup : Supplied s (mapLoop s r permission va pa n)) :
    entryAt (mapLoop s r permission va pa n).mem r =
      mapEntries (entryAt s.mem r) permission va pa n := by
  induction n generalizing s va pa free with
  | zero => rfl
  | succ n ih =>
    obtain ⟨hsup1, hsup2⟩ := mapLoop_supplied hsup
    obtain ⟨free1, -, hs1, hpage, hkeeps⟩ := mapPage_space va pa permission hs hsup1
    have hfirst : entryAt (mapPage s r permission va pa).mem r =
        Function.update (entryAt s.mem r) (key va) (leafPte pa permission) := by
      funext k
      by_cases hk : k = key va
      · subst hk
        rw [lookup] at hpage
        rw [Function.update_self, entryAt, hpage, Option.getD_some]
      · rw [Function.update_of_ne hk, entryAt_keeps (hkeeps k hk)]
    rw [mapLoop_succ, mapEntries, ih hs1 hsup2, hfirst]

theorem findPa_entries {s : Phys} {va : Addr} (hs : Space s r free)
    (hsup : Supplied s (findPa s r va).2) :
    (findPa s r va).1 = (entryAt s.mem r (key va) >>> 10) <<< 12 ||| (va &&& 0xfff) ∧
      entryAt (findPa s r va).2.mem r = entryAt s.mem r := by
  obtain ⟨t, free', hslot, -, -, ht, hkeeps⟩ := walk_space hs hsup
  have hentry := entryAt_of_table ht
  rw [entryAt_keeps (hkeeps _)] at hentry
  refine ⟨?_, funext fun k => entryAt_keeps (hkeeps k)⟩
  rw [hentry, entry, ← hslot]
  rfl

theorem getLsbD_tablePte {f : Addr} {i : Nat} (hi : i < 10) :
    (tablePte f).getLsbD i = decide (i = 0) := by
  rw [tablePte, BitVec.getLsbD_or, BitVec.getLsbD_shiftLeft]
  have hv : pteV = BitVec.twoPow 64 0 := rfl
  rw [hv, BitVec.getLsbD_twoPow]
  simp [hi, eq_comm]

theorem valid_tablePte {f : Addr} (hf : f.toNat < 2 ^ 56) : Valid (tablePte f) := by
  have hbit : ∀ i < 10, (tablePte f).getLsbD i = decide (i = 0) := fun i => getLsbD_tablePte
  refine ⟨hbit 0 (by omega), fun h => ?_, ?_⟩
  · rw [hbit 2 (by omega)] at h
    cases h.2
  · have hn := pack_toNat (page_lt f) (b := pteV) (by decide)
    have hpage : (f >>> 12).toNat < 2 ^ 44 := by
      rw [BitVec.toNat_ushiftRight, Nat.shiftRight_eq_div_pow]
      omega
    have hv : pteV.toNat = 1 := rfl
    apply BitVec.eq_of_toNat_eq
    rw [BitVec.extractLsb'_toNat, tablePte, hn, Nat.shiftRight_eq_div_pow]
    change _ = 0
    omega

theorem not_leaf_tablePte (f : Addr) : ¬ Leaf (tablePte f) := by
  rw [Leaf, getLsbD_tablePte (by omega), getLsbD_tablePte (by omega)]
  decide

theorem frame_tablePte {f : Addr} (hf : IsFrame f) : frame (tablePte f) = f := by
  have hn := pack_toNat (page_lt f) (b := pteV) (by decide)
  have hv : pteV.toNat = 1 := rfl
  have hlt := hf.lt
  have hal := hf.aligned
  unfold Aligned at hal
  apply BitVec.eq_of_toNat_eq
  rw [frame, BitVec.toNat_shiftLeft, BitVec.toNat_setWidth, BitVec.extractLsb'_toNat, tablePte, hn,
    BitVec.toNat_ushiftRight, Nat.shiftRight_eq_div_pow, Nat.shiftRight_eq_div_pow,
    Nat.shiftLeft_eq]
  omega

theorem not_valid_of_child {m : Mem} {t : Addr} {i : BitVec 9} (h : child m t i = none) :
    ¬ Valid (entry m t i) := by
  rintro ⟨hv, -, -⟩
  rw [child, ite_eq_right_iff] at h
  have hzero : ¬ entry m t i &&& pteV ≠ 0 := fun hn => by cases h hn
  have hbit := congrArg (BitVec.getLsbD · 0) (not_ne_iff.mp hzero)
  rw [BitVec.getLsbD_and, hv] at hbit
  exact absurd hbit (by decide)

theorem findLeaf_step {m : Mem} {va t : Addr} {level : Nat} {p : List (BitVec 9)}
    (he : Exact m r) (hframe : ∀ f, IsTable m r f → IsFrame f) (hp : p.length ≤ 1)
    (ht : tableAt m r p = some t) : findLeaf m va (level + 1) t =
      (child m t (index va (level + 1))).bind fun u => findLeaf m va level u := by
  cases hc : child m t (index va (level + 1)) with
  | none =>
    rw [Option.bind_none]
    exact findLeaf_invalid (not_valid_of_child hc)
  | some u =>
    have hu : IsFrame u := by
      refine hframe u ⟨p ++ [index va (level + 1)], by simpa using hp, ?_⟩
      rw [tableAt_concat, ht]
      exact hc
    have hentry : entry m t (vpn va (level + 1)) = tablePte u := he p t _ u hp ht hc
    have hv : Valid (entry m t (vpn va (level + 1))) := hentry ▸ valid_tablePte hu.lt
    have hl : ¬ Leaf (entry m t (vpn va (level + 1))) := hentry ▸ not_leaf_tablePte u
    rw [findLeaf_pointer hv hl, hentry, frame_tablePte hu, Option.bind_some]

theorem findLeaf_eq {m : Mem} (va : Addr) (he : Exact m r)
    (hframe : ∀ f, IsTable m r f → IsFrame f) : findLeaf m va 2 r =
      (tableAt m r [index va 2, index va 1]).bind fun t => findLeaf m va 0 t := by
  have hroot : tableAt m r [] = some r := rfl
  have hone : tableAt m r [index va 2] = child m r (index va 2) := Option.bind_fun_some _
  have htwo : tableAt m r [index va 2, index va 1] =
      (child m r (index va 2)).bind fun u => child m u (index va 1) := by
    rw [← List.singleton_append, tableAt_concat, hone]
  rw [findLeaf_step he hframe (by simp) hroot, htwo, Option.bind_assoc]
  cases hu : child m r (index va 2) with
  | none => rw [Option.bind_none, Option.bind_none]
  | some u =>
    rw [Option.bind_some, Option.bind_some]
    exact findLeaf_step he hframe (by simp) (hone.trans hu)

theorem translate_eq {m : Mem} (he : Exact m r) (hframe : ∀ f, IsTable m r f → IsFrame f)
    (mode : Mode) (kind : Access) (va : Addr) :
    (answer mode kind va (entryAt m r (key va)) = none ∧ translate m r mode kind va = none) ∨
    ∃ t pa, tableAt m r [index va 2, index va 1] = some t ∧
      answer mode kind va (entryAt m r (key va)) = some pa ∧
      translate m r mode kind va =
        some (pa, writeWord m (slot t (index va 0)) (entryAt m r (key va) ||| touched kind)) := by
  have hfind := findLeaf_eq va he hframe
  cases ht : tableAt m r [index va 2, index va 1] with
  | none =>
    rw [ht, Option.bind_none] at hfind
    have hzero : entryAt m r (key va) = 0 := by
      have hlookup : lookupKey m r (key va) = none := by
        change (tableAt m r [index va 2, index va 1]).map _ = _
        rw [ht]
        rfl
      rw [entryAt, hlookup, Option.getD_none]
    have hnot : ¬ Grants mode kind 0 := fun h => absurd h.valid.1 (by decide)
    rw [hzero]
    exact .inl ⟨if_neg fun h => hnot h.2, translate_of_none mode kind hfind⟩
  | some t =>
    rw [ht, Option.bind_some] at hfind
    have htranslate := translate_of_lastLevel mode kind hfind
    rw [entryAt_of_table ht]
    by_cases hg : Canonical va ∧ Grants mode kind (entry m t (index va 0))
    · exact .inr ⟨t, _, rfl, if_pos hg, htranslate.trans (if_pos hg)⟩
    · exact .inl ⟨if_neg hg, htranslate.trans (if_neg hg)⟩

variable {a : Spaces}

theorem Spaces.setEntries_self (a : Spaces) (r : Addr) : a.setEntries r (a.entries r) = a := by
  rw [Spaces.setEntries, Function.update_eq_self]

theorem shows_local (h : Inv frames s free) (ha : Shows s a) (hr : r ∈ s.roots) {phys : Phys}
    (hl : Local r s phys) :
    Shows { s with phys := phys } (a.setEntries r (entryAt phys.mem r)) := by
  refine ⟨ha.roots, ha.held, fun r' hr' k => ?_, fun f hf b hb => ?_⟩
  · by_cases hrr : r' = r
    · subst hrr
      exact (congrFun (Function.update_self r' _ a.entries) k).symm
    · refine Eq.trans ?_ (congrFun (Function.update_of_ne hrr _ a.entries) k).symm
      rw [← ha.entries r' hr' k]
      exact entryAt_untouched (hl.tables r' hr' hrr) (h.tree r' hr').1.aligned k
  · exact (hl.held f hf b hb).trans (ha.bytes f hf b hb)

theorem entryAt_shows (ha : Shows s a) (hr : r ∈ s.roots) :
    entryAt s.phys.mem r = a.entries r := funext fun k => ha.entries r hr k

theorem map_refines (hframes : ∀ f ∈ frames, IsFrame f) (h : Inv frames s free) (ha : Shows s a)
    (hr : r ∈ s.roots) {va pa size permission : Word}
    (hsup : Supplied s.phys (map s.phys va pa r size permission)) :
    (∃ free', Inv frames { s with phys := map s.phys va pa r size permission } free') ∧
      Shows { s with phys := map s.phys va pa r size permission }
        (a.setEntries r (mapEntries (a.entries r) permission (pgRoundDown va) pa size.toNat)) := by
  refine ⟨mapLoop_inv h hframes hr hsup, ?_⟩
  have hlocal := h.confined hframes hr (mapLoop_confined _ (h.space hr) hsup)
  have hshows := shows_local h ha hr hlocal
  rwa [mapLoop_entries (h.space hr) hsup, entryAt_shows ha hr] at hshows

theorem findPa_refines (hframes : ∀ f ∈ frames, IsFrame f) (h : Inv frames s free)
    (ha : Shows s a) (hr : r ∈ s.roots) {va : Addr}
    (hsup : Supplied s.phys (findPa s.phys r va).2) :
    (∃ free', Inv frames { s with phys := (findPa s.phys r va).2 } free') ∧
      Shows { s with phys := (findPa s.phys r va).2 } a := by
  refine ⟨walk_inv h hframes hr hsup, ?_⟩
  have hlocal : Local r s (findPa s.phys r va).2 :=
    h.confined hframes hr (walk_confined (h.space hr) hsup)
  have hshows := shows_local h ha hr hlocal
  rwa [(findPa_entries (h.space hr) hsup).2, entryAt_shows ha hr, Spaces.setEntries_self] at hshows

theorem isFrame_of_isTable (hframes : ∀ f ∈ frames, IsFrame f) (h : Inv frames s free)
    (hr : r ∈ s.roots) : ∀ f, IsTable s.phys.mem r f → IsFrame f :=
  fun f hf => hframes f (isTable_mem h hr hf)

theorem entryAt_writeWord {m : Mem} {t va : Addr} {w : Word} (hw : WellFormed m r)
    (ht : tableAt m r [index va 2, index va 1] = some t) :
    entryAt (writeWord m (slot t (index va 0)) w) r =
      Function.update (entryAt m r) (key va) w := by
  funext k
  by_cases hk : k = key va
  · subst hk
    have hself : lookupKey (writeWord m (slot t (index va 0)) w) r (key va) = some w :=
      lookupKey_writeWord hw (key va) ht
    rw [Function.update_self, entryAt, hself, Option.getD_some]
  · have hother : lookupKey (writeWord m (slot t (index va 0)) w) r k = lookupKey m r k :=
      lookupKey_writeWord_of_ne hw (key va) ht hk
    rw [Function.update_of_ne hk, entryAt, hother, entryAt]

theorem access_refines (hframes : ∀ f ∈ frames, IsFrame f) (h : Inv frames s free)
    (ha : Shows s a) (hr : r ∈ s.roots) {mode : Mode} {kind : Access} {va pa : Addr} {mem : Mem}
    (hacc : translate s.phys.mem r mode kind va = some (pa, mem)) :
    answer mode kind va (a.entries r (key va)) = some pa ∧
      Inv frames { s with phys := { s.phys with mem := mem } } free ∧
      Shows { s with phys := { s.phys with mem := mem } } (a.setEntries r
        (Function.update (a.entries r) (key va) (a.entries r (key va) ||| touched kind))) := by
  have hspace := h.space hr
  have hentries := entryAt_shows ha hr
  obtain ⟨-, hnone⟩ | ⟨t, pa', ht, hanswer, hsome⟩ :=
    translate_eq (h.tree r hr).2 (isFrame_of_isTable hframes h hr) mode kind va
  · rw [hnone] at hacc
    cases hacc
  · rw [hsome, Option.some.injEq, Prod.mk.injEq] at hacc
    obtain ⟨rfl, rfl⟩ := hacc
    rw [hentries] at hanswer ⊢
    have hinv := storeLeaf_inv h hframes hr rfl ht (index va 0)
      (a.entries r (key va) ||| touched kind)
    have hlocal := h.confined hframes hr (storeLeaf_confined hspace rfl ht (index va 0)
      (a.entries r (key va) ||| touched kind))
    have hafter := entryAt_writeWord (w := a.entries r (key va) ||| touched kind) hspace.tree ht
    rw [hentries] at hafter
    have hshows := shows_local h ha hr hlocal
    rw [← hafter]
    exact ⟨hanswer, hinv, hshows⟩

theorem shows_client {t : State} (h : Inv frames s free) (ha : Shows s a)
    (hroots : t.roots = s.roots) (htables : ∀ r ∈ s.roots, Untouched r s.phys.mem t.phys.mem)
    {byte : Addr → Byte} {held : List Addr} (hheld : t.held = held)
    (hbytes : ∀ f ∈ t.held, ∀ b, pageNo b = pageNo f → t.phys.mem b = byte b) :
    Shows t { a with byte := byte, held := held } := by
  refine ⟨hroots.trans ha.roots, hheld, fun r hr k => ?_, hbytes⟩
  rw [hroots] at hr
  rw [entryAt_untouched (htables r hr) (h.tree r hr).1.aligned, ha.entries r hr]

theorem null_shows (hframes : ∀ f ∈ frames, IsFrame f) (h : Inv frames s free) (ha : Shows s a)
    {phys : Phys} (hm : AgreeOff 0 s.phys.mem phys.mem) : Shows { s with phys := phys } a := by
  have htables := tables_of_agreeOff h hm aligned_zero (not_isTable_zero h hframes)
  refine shows_client (t := { s with phys := phys }) h ha rfl htables ha.held fun f hf b hb => ?_
  have h0 : f ≠ 0 := (hframes f (h.partition.inside f .held hf)).ne
  exact (held_samePage h hframes hm aligned_zero hf h0 b hb).trans (ha.bytes f hf b hb)

theorem free_not_inUse {f : Addr} (h : Inv frames s (f :: free)) (ha : Shows s a) :
    ¬ a.InUse f := by
  have hmem : f ∈ f :: free := List.mem_cons_self
  rintro (hr | hheld)
  · rw [← ha.roots] at hr
    exact not_isTable_free h hmem f hr ⟨[], by simp, rfl⟩
  · rw [← ha.held] at hheld
    exact h.held_not_free hheld hmem

theorem kalloc_filled {s : Phys} {f : Addr} (h : FreeList s (f :: free)) :
    (kalloc s).2.mem = fill s.mem f 5 4096 := by
  obtain ⟨hlink, h0, -⟩ := h.chain
  rw [kalloc, hlink, if_pos h0]
  rfl

theorem kalloc_refines (hframes : ∀ f ∈ frames, IsFrame f) (h : Inv frames s free)
    (ha : Shows s a) {f : Addr} (hf : (kalloc s.phys).1 = f) :
    ∃ a', spacesStep a (.kalloc f) = some a' ∧
      (∃ free', Inv frames ⟨(kalloc s.phys).2, s.roots, if f = 0 then s.held else f :: s.held⟩
        free') ∧
      Shows ⟨(kalloc s.phys).2, s.roots, if f = 0 then s.held else f :: s.held⟩ a' := by
  cases free with
  | nil =>
    obtain ⟨hnull, hlist, hm⟩ := kalloc_empty h.list
    obtain rfl : f = 0 := hf.symm.trans hnull
    rw [if_pos rfl]
    have hstep : spacesStep a (.kalloc 0) = some a := by rw [spacesStep, if_pos rfl]
    exact ⟨a, hstep, ⟨[], null_inv h hframes hm hlist⟩, null_shows hframes h ha hm⟩
  | cons g free =>
    obtain ⟨hg, -, hm⟩ := kalloc_pop h.list
    obtain rfl : f = g := hf.symm.trans hg
    have hmem : f ∈ f :: free := List.mem_cons_self
    have h0 : f ≠ 0 := h.list.chain.ne_null (by simp)
    have hal := h.list.aligned f hmem
    have htables := tables_of_agreeOff h hm hal (not_isTable_free h hmem)
    rw [if_neg h0, spacesStep, if_neg h0, if_neg (free_not_inUse h ha)]
    refine ⟨_, rfl, ⟨free, kalloc_inv h⟩, ?_⟩
    have hheld : f :: s.held = f :: a.held := congrArg (f :: ·) ha.held
    refine shows_client (t := { s with phys := (kalloc s.phys).2, held := f :: s.held }) h ha rfl
      htables hheld fun x hx b hb => ?_
    obtain rfl | hx := List.mem_cons.mp hx
    · rw [if_pos hb]
      exact (congrFun (kalloc_filled h.list) b).trans ((fill_page hal b).trans (if_pos hb))
    · have hxf : x ≠ f := fun he => h.held_not_free hx (he ▸ hmem)
      have hpage : pageNo b ≠ pageNo f := by
        have halx := (hframes x (h.partition.inside x .held hx)).aligned
        rw [hb]
        exact fun he => hxf ((halx.pageNo_inj hal).mp he)
      rw [if_neg hpage]
      exact (held_samePage h hframes hm hal hx hxf b hb).trans (ha.bytes x hx b hb)

theorem emptyVmCreate_refines (hframes : ∀ f ∈ frames, IsFrame f) (h : Inv frames s free)
    (ha : Shows s a) (hr : (emptyVmCreate s.phys).1 = r) :
    ∃ a', spacesStep a (.emptyVmCreate r) = some a' ∧
      (∃ free', Inv frames
        ⟨(emptyVmCreate s.phys).2, if r = 0 then s.roots else r :: s.roots, s.held⟩ free') ∧
      Shows ⟨(emptyVmCreate s.phys).2, if r = 0 then s.roots else r :: s.roots, s.held⟩ a' := by
  cases free with
  | nil =>
    obtain ⟨hnull, hlist, hm⟩ := kalloc_empty h.list
    obtain rfl : r = 0 := hr.symm.trans hnull
    have hmade : (emptyVmCreate s.phys).2 = (kalloc s.phys).2.setMemory 0 0 4096 := by
      rw [emptyVmCreate, hnull]
    have hagree : AgreeOff 0 s.phys.mem (emptyVmCreate s.phys).2.mem := by
      rw [hmade, setMemory_mem]
      exact hm.trans (agreeOff_fill aligned_zero)
    have hlist' : FreeList (emptyVmCreate s.phys).2 [] := by
      rw [hmade]
      exact hlist.setMemory aligned_zero (by simp) 0
    have hstep : spacesStep a (.emptyVmCreate 0) = some a := by rw [spacesStep, if_pos rfl]
    rw [if_pos rfl]
    exact ⟨a, hstep, ⟨[], null_inv h hframes hagree hlist'⟩, null_shows hframes h ha hagree⟩
  | cons g free =>
    obtain rfl : r = g := hr.symm.trans (kalloc_pop h.list).1
    obtain ⟨hinv, htables, hagree, hzero⟩ := emptyVmCreate_inv h
    have hmem : r ∈ r :: free := List.mem_cons_self
    have h0 : r ≠ 0 := h.list.chain.ne_null (by simp)
    rw [if_neg h0, spacesStep, if_neg h0, if_neg (free_not_inUse h ha)]
    refine ⟨_, rfl, ⟨free, hinv⟩, congrArg (r :: ·) ha.roots, ha.held, fun r' hr' k => ?_,
      fun f hf b hb => ?_⟩
    · by_cases hrr : r' = r
      · subst hrr
        refine Eq.trans ?_ (congrFun (Function.update_self r' _ a.entries) k).symm
        rw [entryAt, lookupKey]
        cases ht : tableAt (emptyVmCreate s.phys).2.mem r' [k.1, k.2.1] with
        | none => rfl
        | some t =>
          obtain ⟨-, rfl⟩ := tableAt_zeroed hzero ht
          exact hzero _
      · have hr' := (List.mem_cons.mp hr').resolve_left hrr
        refine Eq.trans ?_ (congrFun (Function.update_of_ne hrr _ a.entries) k).symm
        rw [← ha.entries r' hr' k]
        exact entryAt_untouched (htables r' hr') (h.tree r' hr').1.aligned k
    · have hal : Aligned r := h.list.aligned r hmem
      have hne : f ≠ r := fun he => h.held_not_free hf (he ▸ hmem)
      exact (held_samePage h hframes hagree hal hf hne b hb).trans (ha.bytes f hf b hb)

theorem freePage_shows (hframes : ∀ f ∈ frames, IsFrame f) (h : Inv frames s free)
    (ha : Shows s a) {f : Addr} (hf : f ∈ s.held) :
    Shows ⟨freePage s.phys f, s.roots, s.held.erase f⟩ { a with held := a.held.erase f } := by
  obtain ⟨hal, h0, -⟩ := hframes f (h.partition.inside f .held hf)
  obtain ⟨-, hm⟩ := freePage_push h.list hal h0 (h.held_not_free hf)
  have htables := tables_of_agreeOff h hm hal (not_isTable_held h hf)
  refine shows_client (t := ⟨freePage s.phys f, s.roots, s.held.erase f⟩) h ha rfl htables
    (by rw [ha.held]) fun g hg b hb => ?_
  obtain ⟨hne, hg⟩ := h.held.mem_erase_iff.mp hg
  exact (held_samePage h hframes hm hal hg hne b hb).trans (ha.bytes g hg b hb)

theorem write_shows (h : Inv frames s free) (ha : Shows s a) {x : Addr}
    (hx : pgRoundDown x ∈ s.held) (v : Byte) :
    Shows { s with phys := { s.phys with mem := Function.update s.phys.mem x v } }
      { a with byte := Function.update a.byte x v } := by
  have hm : AgreeOff (pgRoundDown x) s.phys.mem (Function.update s.phys.mem x v) := by
    intro b hb
    apply Function.update_of_ne
    rintro rfl
    exact hb (pageNo_pgRoundDown b).symm
  have htables := tables_of_agreeOff h hm (aligned_pgRoundDown x) (not_isTable_held h hx)
  refine shows_client
    (t := { s with phys := { s.phys with mem := Function.update s.phys.mem x v } }) h ha rfl
    htables ha.held fun f hf b hb => ?_
  by_cases hbx : b = x
  · subst hbx
    rw [Function.update_self]
    exact Function.update_self ..
  · refine (Function.update_of_ne hbx ..).trans ?_
    rw [Function.update_of_ne hbx]
    exact ha.bytes f hf b hb

theorem byte_shows (ha : Shows s a) {x : Addr} (hx : pgRoundDown x ∈ s.held) :
    s.phys.mem x = a.byte x := ha.bytes _ hx x (pageNo_pgRoundDown x).symm

theorem step_refines (hframes : ∀ f ∈ frames, IsFrame f) (h : Inv frames s free)
    (ha : Shows s a) {t : State} {e : Event} (hstep : step s e = some t) (hsup : Supplies s e) :
    ∃ a', spacesStep a e = some a' ∧ (∃ free', Inv frames t free') ∧ Shows t a' := by
  cases e with
  | emptyVmCreate r =>
    rw [step, Option.ite_none_right_eq_some] at hstep
    obtain ⟨hr, hstep⟩ := hstep
    obtain rfl := Option.some.inj hstep
    exact emptyVmCreate_refines hframes h ha hr
  | map r va pa size permission =>
    rw [step, Option.ite_none_right_eq_some] at hstep
    obtain ⟨hr, hstep⟩ := hstep
    obtain rfl := Option.some.inj hstep
    obtain ⟨hinv, hshows⟩ := map_refines hframes h ha hr hsup
    rw [spacesStep, if_pos (ha.roots ▸ hr)]
    exact ⟨_, rfl, hinv, hshows⟩
  | findPa r va pa =>
    rw [step, Option.ite_none_right_eq_some] at hstep
    obtain ⟨⟨hr, hpa⟩, hstep⟩ := hstep
    obtain rfl := Option.some.inj hstep
    obtain ⟨hinv, hshows⟩ := findPa_refines hframes h ha hr hsup
    have hanswer := (findPa_entries (h.space hr) hsup).1
    rw [entryAt_shows ha hr] at hanswer
    rw [spacesStep, if_pos ⟨ha.roots ▸ hr, hanswer.symm.trans hpa⟩]
    exact ⟨_, rfl, hinv, hshows⟩
  | access r mode kind va pa =>
    rw [step, Option.ite_none_right_eq_some] at hstep
    obtain ⟨hr, hstep⟩ := hstep
    have hr' : r ∈ a.roots := ha.roots ▸ hr
    cases hacc : translate s.phys.mem r mode kind va with
    | none =>
      rw [hacc] at hstep
      simp only [Option.ite_none_right_eq_some, Option.some.injEq] at hstep
      obtain ⟨rfl, rfl⟩ := hstep
      obtain ⟨hanswer, -⟩ | ⟨t, pa, -, -, hsome⟩ :=
        translate_eq (h.tree r hr).2 (isFrame_of_isTable hframes h hr) mode kind va
      · rw [entryAt_shows ha hr] at hanswer
        rw [spacesStep, if_pos ⟨hr', hanswer⟩, if_pos rfl]
        exact ⟨a, rfl, ⟨free, h⟩, ha⟩
      · rw [hacc] at hsome
        cases hsome
    | some found =>
      obtain ⟨found, mem⟩ := found
      rw [hacc] at hstep
      simp only [Option.ite_none_right_eq_some, Option.some.injEq] at hstep
      obtain ⟨rfl, rfl⟩ := hstep
      obtain ⟨hanswer, hinv, hshows⟩ := access_refines hframes h ha hr hacc
      rw [spacesStep, if_pos ⟨hr', hanswer⟩, if_neg (by simp)]
      exact ⟨_, rfl, ⟨free, hinv⟩, hshows⟩
  | kalloc f =>
    rw [step, Option.ite_none_right_eq_some] at hstep
    obtain ⟨hf, hstep⟩ := hstep
    obtain rfl := Option.some.inj hstep
    exact kalloc_refines hframes h ha hf
  | freePage f =>
    rw [step, Option.ite_none_right_eq_some] at hstep
    obtain ⟨hf, hstep⟩ := hstep
    obtain rfl := Option.some.inj hstep
    rw [spacesStep, if_pos (ha.held ▸ hf)]
    exact ⟨_, rfl, ⟨f :: free, freePage_inv h hframes hf⟩, freePage_shows hframes h ha hf⟩
  | read x v =>
    rw [step, Option.ite_none_right_eq_some] at hstep
    obtain ⟨⟨hx, hv⟩, hstep⟩ := hstep
    obtain rfl := Option.some.inj hstep
    rw [byte_shows ha hx] at hv
    rw [spacesStep, if_pos ⟨ha.held ▸ hx, hv⟩]
    exact ⟨a, rfl, ⟨free, h⟩, ha⟩
  | write x v =>
    rw [step, Option.ite_none_right_eq_some] at hstep
    obtain ⟨hx, hstep⟩ := hstep
    obtain rfl := Option.some.inj hstep
    rw [spacesStep, if_pos (ha.held ▸ hx)]
    exact ⟨_, rfl, ⟨free, SpaceIsolation.write_inv h hx v⟩, write_shows h ha hx v⟩

theorem accesses_enabled (hframes : ∀ f ∈ frames, IsFrame f) (h : Inv frames s free)
    (ha : Shows s a) {es : List Event} (hes : ∀ e ∈ es, ∃ r mode kind va pa,
      e = .access r mode kind va pa) {a' : Spaces} (hrun : run spacesStep a es = some a') :
    ∃ t, run step s es = some t := by
  induction es generalizing s a free with
  | nil => exact ⟨s, rfl⟩
  | cons e es ih =>
    obtain ⟨r, mode, kind, va, pa, rfl⟩ := hes e List.mem_cons_self
    obtain ⟨a1, ha1, hrun⟩ := run_cons_eq_some.mp hrun
    have hallowed := ha1
    rw [spacesStep, Option.ite_none_right_eq_some] at hallowed
    obtain ⟨⟨hr, hpa⟩, -⟩ := hallowed
    rw [← ha.roots] at hr
    have hstep : ∃ t, step s (.access r mode kind va pa) = some t := by
      rw [← hpa, ← entryAt_shows ha hr, step, if_pos hr]
      obtain ⟨hanswer, hnone⟩ | ⟨t, pa, -, hanswer, hsome⟩ :=
        translate_eq (h.tree r hr).2 (isFrame_of_isTable hframes h hr) mode kind va
      · rw [hanswer, hnone]
        exact ⟨s, if_pos rfl⟩
      · rw [hanswer, hsome]
        exact ⟨_, if_pos rfl⟩
    obtain ⟨t, ht⟩ := hstep
    obtain ⟨a2, ha2, ⟨free', h'⟩, hshows⟩ := step_refines hframes h ha ht trivial
    obtain rfl : a1 = a2 := Option.some.inj (ha1.symm.trans ha2)
    obtain ⟨u, hu⟩ := ih h' hshows (fun e he => hes e (List.mem_cons_of_mem _ he)) hrun
    exact ⟨u, run_cons_eq_some.mpr ⟨t, ht, hu⟩⟩

theorem emptyVmCreate_enabled (h : Inv frames s (r :: free)) :
    ∃ t, step s (.emptyVmCreate r) = some t ∧ Inv frames t free ∧ t.roots = r :: s.roots := by
  have hr : (emptyVmCreate s.phys).1 = r := (kalloc_pop h.list).1
  have h0 : r ≠ 0 := h.list.chain.ne_null (by simp)
  refine ⟨⟨(emptyVmCreate s.phys).2, r :: s.roots, s.held⟩, ?_, (emptyVmCreate_inv h).1, rfl⟩
  have hroots : (if r = 0 then s.roots else r :: s.roots) = r :: s.roots := if_neg h0
  rw [← hroots]
  exact if_pos hr

/-- The memory before the first page table: nothing but a free list. -/
def unused (phys : Phys) : State := ⟨phys, [], []⟩

def noSpaces : Spaces := ⟨fun _ _ => 0, fun _ => 0, [], []⟩

theorem unused_inv {phys : Phys} (h : FreeList phys free) :
    Inv { f | f ∈ free } (unused phys) free := by
  refine ⟨h, by simp [unused], ⟨fun f hf => ⟨.free, hf⟩, fun f o p ho hp => ?_, fun f o ho => ?_⟩,
    List.nodup_nil⟩
  · cases o <;> cases p <;> simp_all [Owns, unused]
  · cases o <;> simp_all [Owns, unused]

theorem unused_shows (phys : Phys) : Shows (unused phys) noSpaces :=
  ⟨rfl, rfl, by simp [unused], by simp [unused]⟩

/-- Whatever is called, freed, written and accessed, in whatever order, and by however many page
tables: what is answered is what address spaces and pages would answer that have nothing in
common. -/
theorem run_refines_spaces {phys : Phys} (h : FreeList phys free) (hframes : ∀ f ∈ free, IsFrame f)
    {es : List Event} {t : State} (hsup : Meets step Supplies (unused phys) es)
    (hrun : run step (unused phys) es = some t) :
    ∃ a, run spacesStep noSpaces es = some a ∧ Shows t a := by
  have hstep : ∀ (s : State) (a : Spaces) e t,
      (∃ free', Inv { f | f ∈ free } s free') ∧ Shows s a → Supplies s e → step s e = some t →
      ∃ a', spacesStep a e = some a' ∧ (∃ free', Inv { f | f ∈ free } t free') ∧ Shows t a' := by
    rintro s a e t ⟨⟨free', hinv⟩, ha⟩ hsup hstep
    exact step_refines hframes hinv ha hstep hsup
  obtain ⟨a, ha, -, hshows⟩ :=
    run_refines hstep ⟨⟨free, unused_inv h⟩, unused_shows phys⟩ hsup hrun
  exact ⟨a, ha, hshows⟩

/-- Two page tables, a page mapped in the first, and the accesses of a user to it by both. -/
def twoSpaces : List Event :=
  [.emptyVmCreate 0x7000, .emptyVmCreate 0x6000,
    .map 0x7000 0x1000 0x80000000 1 (pteR ||| pteU),
    .access 0x7000 ⟨true, false, false⟩ .load 0x1234 (some 0x80000234),
    .access 0x6000 ⟨true, false, false⟩ .load 0x1234 none]

theorem sevenFrames_isFrame : ∀ f ∈ ([0x7000, 0x6000, 0x5000, 0x4000, 0x3000, 0x2000, 0x1000] :
    List Addr), IsFrame f := by
  intro f hf
  have hall : ∀ f ∈ ([0x7000, 0x6000, 0x5000, 0x4000, 0x3000, 0x2000, 0x1000] : List Addr),
      Aligned f ∧ f ≠ 0 ∧ f.toNat < 2 ^ 56 := by simp [Aligned]
  obtain ⟨hal, h0, hlt⟩ := hall f hf
  exact ⟨hal, h0, hlt⟩

theorem twoSpaces_run : Meets step Supplies (unused sevenFrames) twoSpaces ∧
    ∃ t, run step (unused sevenFrames) twoSpaces = some t := by
  have hf := sevenFrames_isFrame
  have h0 := unused_inv sevenFrames_freeList
  obtain ⟨s1, hs1, h1, hr1⟩ := emptyVmCreate_enabled h0
  obtain ⟨s2, hs2, h2, hr2⟩ := emptyVmCreate_enabled h1
  have hmem : (0x7000 : Addr) ∈ s2.roots := by simp [hr2, hr1]
  have hsup : Supplied s2.phys (map s2.phys 0x1000 0x80000000 0x7000 1 (pteR ||| pteU)) :=
    map_supplied _ _ _ (h2.space hmem) (by decide)
  have hs3 : step s2 (.map 0x7000 0x1000 0x80000000 1 (pteR ||| pteU)) = some _ := if_pos hmem
  have haccesses : ∀ e ∈ twoSpaces.drop 3, ∃ r mode kind va pa, e = .access r mode kind va pa := by
    simp [twoSpaces]
  have hmeets : Meets step Supplies (unused sevenFrames) twoSpaces := by
    refine (meets_cons hs1).mpr ⟨trivial, (meets_cons hs2).mpr ⟨trivial, (meets_cons hs3).mpr
      ⟨hsup, meets_of_forall fun e he s => ?_⟩⟩⟩
    obtain ⟨r, mode, kind, va, pa, rfl⟩ := haccesses e he
    trivial
  obtain ⟨a1, ha1, -, hshow1⟩ := step_refines hf h0 (unused_shows _) hs1 trivial
  obtain ⟨a2, ha2, -, hshow2⟩ := step_refines hf h1 hshow1 hs2 trivial
  obtain ⟨a3, ha3, ⟨free3, h3⟩, hshow3⟩ := step_refines hf h2 hshow2 hs3 hsup
  have hspaces : (run spacesStep noSpaces twoSpaces).isSome := by decide +kernel
  obtain ⟨a, ha⟩ := Option.isSome_iff_exists.mp hspaces
  rw [twoSpaces, run_cons, ha1, Option.bind_some, run_cons, ha2, Option.bind_some, run_cons, ha3,
    Option.bind_some] at ha
  obtain ⟨t, ht⟩ := accesses_enabled hf h3 hshow3 haccesses ha
  exact ⟨hmeets, t, run_cons_eq_some.mpr ⟨s1, hs1, run_cons_eq_some.mpr ⟨s2, hs2,
    run_cons_eq_some.mpr ⟨_, hs3, ht⟩⟩⟩⟩

theorem run_refines_spaces_twoSpaces : ∃ t a, run step (unused sevenFrames) twoSpaces = some t ∧
    run spacesStep noSpaces twoSpaces = some a ∧ Shows t a := by
  obtain ⟨hsup, t, ht⟩ := twoSpaces_run
  obtain ⟨a, ha, hshows⟩ :=
    run_refines_spaces sevenFrames_freeList sevenFrames_isFrame hsup ht
  exact ⟨t, a, ht, ha, hshows⟩

theorem always_inv {phys : Phys} (h : FreeList phys free) (hframes : ∀ f ∈ free, IsFrame f)
    {es : List Event} (hsup : Meets step Supplies (unused phys) es) :
    Always step (fun s => ∃ free' a, Inv { f | f ∈ free } s free' ∧ Shows s a) (unused phys)
      es := by
  refine always_of_meets ?_ ⟨free, noSpaces, unused_inv h, unused_shows phys⟩ hsup
  rintro s e t ⟨free', a, hinv, ha⟩ hsup hstep
  obtain ⟨a', -, ⟨free'', hinv'⟩, ha'⟩ := step_refines hframes hinv ha hstep hsup
  exact ⟨free'', a', hinv', ha'⟩

/-- All along, no frame is lost or used twice. -/
theorem frames_owned {phys : Phys} (h : FreeList phys free) (hframes : ∀ f ∈ free, IsFrame f)
    {es : List Event} (hsup : Meets step Supplies (unused phys) es) :
    Always step (fun s => ∃ free', FreeList s.phys free' ∧
      (∀ f ∈ free, ∃! o, Owns s free' f o) ∧ ∀ f o, Owns s free' f o → f ∈ free)
      (unused phys) es := by
  refine (always_inv h hframes hsup).mono ?_
  rintro s ⟨free', -, hinv, -⟩
  exact ⟨free', hinv.list, hinv.partition.existsUnique, hinv.partition.inside⟩

theorem frames_owned_twoSpaces : Always step (fun s => ∃ free', FreeList s.phys free' ∧
    (∀ f ∈ ([0x7000, 0x6000, 0x5000, 0x4000, 0x3000, 0x2000, 0x1000] : List Addr),
      ∃! o, Owns s free' f o) ∧
    ∀ f o, Owns s free' f o → f ∈ [0x7000, 0x6000, 0x5000, 0x4000, 0x3000, 0x2000, 0x1000])
    (unused sevenFrames) twoSpaces :=
  frames_owned sevenFrames_freeList sevenFrames_isFrame twoSpaces_run.1

end Raynix.SpaceRuns
