import Raynix.PageStack
import Raynix.Vm

namespace Raynix.PageTree

open Raynix.Lib.Memory Raynix.Kalloc Raynix.PageStack Raynix.Vm

theorem shiftLeft_or_toNat {y b : Word} (n : Nat) (hy : y.toNat * 2 ^ n < 2 ^ 64)
    (hb : b.toNat < 2 ^ n) : (y <<< n ||| b).toNat = y.toNat * 2 ^ n + b.toNat := by
  rw [BitVec.toNat_or, BitVec.toNat_shiftLeft, Nat.mod_eq_of_lt, ← Nat.shiftLeft_add_eq_or_of_lt hb,
    Nat.shiftLeft_eq]
  rwa [Nat.shiftLeft_eq]

theorem pack_toNat {y b : Word} (hy : y.toNat < 2 ^ 54) (hb : b.toNat < 2 ^ 10) :
    (y <<< 10 ||| b).toNat = y.toNat * 2 ^ 10 + b.toNat :=
  shiftLeft_or_toNat 10 (by omega) hb

theorem pack_low {y b : Word} (hy : y.toNat < 2 ^ 54) (hb : b.toNat < 2 ^ 10) :
    (y <<< 10 ||| b) &&& 0x3ff = b := by
  apply BitVec.eq_of_toNat_eq
  have hmask : (0x3ff : Word).toNat = 2 ^ 10 - 1 := rfl
  rw [BitVec.toNat_and, hmask, Nat.and_two_pow_sub_one_eq_mod, pack_toNat hy hb]
  omega

theorem pack_high {y b : Word} (hy : y.toNat < 2 ^ 54) (hb : b.toNat < 2 ^ 10) :
    (y <<< 10 ||| b) >>> 10 = y := by
  apply BitVec.eq_of_toNat_eq
  rw [BitVec.toNat_ushiftRight, Nat.shiftRight_eq_div_pow, pack_toNat hy hb]
  omega

theorem and_of_low {x b c : Word} (h : x &&& 0x3ff = b) (hc : 0x3ff &&& c = c) :
    x &&& c = b &&& c := by
  rw [← h, BitVec.and_assoc, hc]

theorem page_lt (a : Addr) : (a >>> 12).toNat < 2 ^ 54 := by
  rw [BitVec.toNat_ushiftRight, Nat.shiftRight_eq_div_pow]
  omega

/-- The table an entry above the last level points to. -/
def child (m : Mem) (t : Addr) (i : BitVec 9) : Option Addr :=
  if entry m t i &&& pteV ≠ 0 then some ((entry m t i >>> 10) <<< 12) else none

/-- The table at the end of a path of indices. -/
def tableAt (m : Mem) : Addr → List (BitVec 9) → Option Addr
  | t, [] => some t
  | t, i :: path => (child m t i).bind (fun u => tableAt m u path)

theorem tableAt_concat (m : Mem) (t : Addr) (path : List (BitVec 9)) (i : BitVec 9) :
    tableAt m t (path ++ [i]) = (tableAt m t path).bind (fun u => child m u i) := by
  induction path generalizing t with
  | nil =>
    exact Option.bind_fun_some _
  | cons j path ih =>
    rw [List.cons_append, tableAt, tableAt, Option.bind_assoc]
    congr 1
    funext u
    exact ih u

/-- A three-level table tree: every table a frame of its own, no leaf above the last level. -/
structure WellFormed (m : Mem) (root : Addr) : Prop where
  aligned : Aligned root
  distinct : ∀ p q t, p.length ≤ 2 → q.length ≤ 2 → tableAt m root p = some t →
    tableAt m root q = some t → p = q
  pointers : ∀ p t i, p.length ≤ 1 → tableAt m root p = some t → entry m t i &&& pteV ≠ 0 →
    entry m t i &&& (pteR ||| pteW ||| pteX) = 0

theorem aligned_shift (x : Word) : Aligned (x <<< 12) := by
  rw [Aligned, BitVec.toNat_shiftLeft, Nat.shiftLeft_eq]
  omega

theorem child_aligned {m : Mem} {t u : Addr} {i : BitVec 9} (h : child m t i = some u) :
    Aligned u := by
  rw [child, Option.ite_none_right_eq_some] at h
  rw [← Option.some.inj h.2]
  exact aligned_shift _

theorem tableAt_aligned {m : Mem} {root t : Addr} {path : List (BitVec 9)} (hr : Aligned root)
    (h : tableAt m root path = some t) : Aligned t := by
  induction path generalizing root with
  | nil =>
    cases h
    exact hr
  | cons i path ih =>
    rw [tableAt, Option.bind_eq_some_iff] at h
    obtain ⟨u, hu, ht⟩ := h
    exact ih (child_aligned hu) ht

theorem child_congr {m m' : Mem} {t : Addr} {i : BitVec 9} (h : entry m' t i = entry m t i) :
    child m' t i = child m t i := by
  rw [child, child, h]

theorem tableAt_congr {m m' : Mem} {root : Addr} {path : List (BitVec 9)}
    (h : ∀ p t i, p.length ≤ 1 → tableAt m root p = some t → entry m' t i = entry m t i)
    (hp : path.length ≤ 2) : tableAt m' root path = tableAt m root path := by
  induction path using List.reverseRecOn with
  | nil => rfl
  | append_singleton path i ih =>
    rw [List.length_append, List.length_singleton] at hp
    rw [tableAt_concat, tableAt_concat, ih (by omega)]
    cases ht : tableAt m root path with
    | none => rw [Option.bind_none, Option.bind_none]
    | some t => exact child_congr (h path t i (by omega) ht)

/-- The entry for a new table. -/
def tablePte (f : Addr) : Word := (f >>> 12) <<< 10 ||| pteV

theorem tablePte_low (f : Addr) : tablePte f &&& 0x3ff = pteV := pack_low (page_lt f) (by decide)

theorem tablePte_valid (f : Addr) : tablePte f &&& pteV ≠ 0 := by
  rw [and_of_low (tablePte_low f) (by decide)]
  decide

theorem tablePte_pointer (f : Addr) : tablePte f &&& (pteR ||| pteW ||| pteX) = 0 := by
  rw [and_of_low (tablePte_low f) (by decide)]
  decide

theorem tablePte_frame {f : Addr} (hf : Aligned f) : (tablePte f >>> 10) <<< 12 = f := by
  rw [tablePte, pack_high (page_lt f) (by decide), ← pgRoundDown_eq, pgRoundDown_of_aligned hf]

/-- From `m` to `m'` the page `f` becomes the missing table at the path `p ++ [i]`, whose parent
is `t`. -/
structure AddsTable (m m' : Mem) (root : Addr) (p : List (BitVec 9)) (i : BitVec 9) (t f : Addr) :
    Prop where
  short : p.length ≤ 1
  parent : tableAt m root p = some t
  missing : child m t i = none
  aligned : Aligned f
  fresh : ∀ q, q.length ≤ 2 → tableAt m root q ≠ some f
  others : ∀ u j, Aligned u → u ≠ f → u ≠ t ∨ j ≠ i → entry m' u j = entry m u j
  pointer : entry m' t i = tablePte f
  zero : ∀ j, entry m' f j = 0

theorem child_of_tablePte {m : Mem} {t f : Addr} {i : BitVec 9} (hf : Aligned f)
    (h : entry m t i = tablePte f) : child m t i = some f := by
  rw [child, h, if_pos (tablePte_valid f), tablePte_frame hf]

theorem child_of_zero {m : Mem} {t : Addr} {i : BitVec 9} (h : entry m t i = 0) :
    child m t i = none := by
  rw [child, h]
  rfl

theorem AddsTable.tableAt_eq {m m' : Mem} {root t f : Addr} {i : BitVec 9}
    {p : List (BitVec 9)} (h : AddsTable m m' root p i t f) (hw : WellFormed m root)
    (path : List (BitVec 9)) (hpath : path.length ≤ 2) :
    tableAt m' root path = if path = p ++ [i] then some f else tableAt m root path := by
  obtain ⟨hp, ht, hnone, hf, hfresh, hothers, hpointer, hzero⟩ := h
  induction path using List.reverseRecOn with
  | nil =>
    rw [if_neg (by simp)]
    rfl
  | append_singleton path j ih =>
    rw [List.length_append, List.length_singleton] at hpath
    rw [tableAt_concat, tableAt_concat, ih (by omega)]
    by_cases hnew : path = p ++ [i]
    · -- Below the new table nothing is mapped, and nothing was.
      have hlen : path ++ [j] ≠ p ++ [i] := by
        rw [hnew]
        intro he
        have hl := congrArg List.length he
        simp at hl
      rw [if_pos hnew, if_neg hlen, hnew, tableAt_concat, ht]
      change child m' f j = (child m t i).bind _
      rw [hnone, child_of_zero (hzero j)]
      rfl
    · rw [if_neg hnew]
      cases hu : tableAt m root path with
      | none =>
        have hne : path ++ [j] ≠ p ++ [i] := by
          intro he
          rw [(List.append_inj' he rfl).1, ht] at hu
          cases hu
        rw [if_neg hne, Option.bind_none, Option.bind_none]
      | some u =>
        change child m' u j = if path ++ [j] = p ++ [i] then some f else child m u j
        have huf : u ≠ f := fun he => hfresh path (by omega) (he ▸ hu)
        by_cases hpj : path ++ [j] = p ++ [i]
        · obtain ⟨rfl, hj⟩ := List.append_inj' hpj rfl
          obtain rfl := List.singleton_inj.mp hj
          obtain rfl : t = u := Option.some.inj (ht.symm.trans hu)
          rw [if_pos rfl]
          exact child_of_tablePte hf hpointer
        · rw [if_neg hpj]
          apply child_congr
          apply hothers u j (tableAt_aligned hw.aligned hu) huf
          by_contra hn
          rw [not_or, not_not, not_not] at hn
          obtain ⟨rfl, rfl⟩ := hn
          rw [hw.distinct path p u (by omega) (by omega) hu ht] at hpj
          exact hpj rfl

theorem AddsTable.wellFormed {m m' : Mem} {root t f : Addr} {i : BitVec 9}
    {p : List (BitVec 9)} (h : AddsTable m m' root p i t f) (hw : WellFormed m root) :
    WellFormed m' root := by
  have hnew := h.tableAt_eq hw
  have hfresh := h.fresh
  refine ⟨hw.aligned, ?_, ?_⟩
  · intro q q' u hq hq' hu hu'
    rw [hnew q hq] at hu
    rw [hnew q' hq'] at hu'
    by_cases hqi : q = p ++ [i]
    · rw [if_pos hqi] at hu
      cases hu
      by_cases hqi' : q' = p ++ [i]
      · rw [hqi, hqi']
      · rw [if_neg hqi'] at hu'
        exact absurd hu' (hfresh q' hq')
    · rw [if_neg hqi] at hu
      by_cases hqi' : q' = p ++ [i]
      · rw [if_pos hqi'] at hu'
        cases hu'
        exact absurd hu (hfresh q hq)
      · rw [if_neg hqi'] at hu'
        exact hw.distinct q q' u hq hq' hu hu'
  · intro q u j hq hu hv
    rw [hnew q (by omega)] at hu
    by_cases hqi : q = p ++ [i]
    · rw [if_pos hqi] at hu
      cases hu
      rw [h.zero j] at hv
      exact absurd rfl hv
    · rw [if_neg hqi] at hu
      by_cases hpi : u = t ∧ j = i
      · obtain ⟨rfl, rfl⟩ := hpi
        rw [h.pointer]
        exact tablePte_pointer f
      · have huf : u ≠ f := fun he => hfresh q (by omega) (he ▸ hu)
        have he := h.others u j (tableAt_aligned hw.aligned hu) huf (not_and_or.mp hpi)
        rw [he] at hv ⊢
        exact hw.pointers q u j hq hu hv

/-- The place of an address in the tree: its indices from the root down. -/
abbrev Key := BitVec 9 × BitVec 9 × BitVec 9

def index (va : Addr) (level : Nat) : BitVec 9 := (va >>> (12 + 9 * level)).setWidth 9

def key (va : Addr) : Key := (index va 2, index va 1, index va 0)

/-- The last-level entry at a place, if there is a table for it. -/
def lookupKey (m : Mem) (root : Addr) (k : Key) : Option Word :=
  (tableAt m root [k.1, k.2.1]).map (fun t => entry m t k.2.2)

def lookup (m : Mem) (root va : Addr) : Option Word := lookupKey m root (key va)

/-- The entry at a place stays; a place without a table stays without one or gets a zero entry. -/
def Keeps (m m' : Mem) (root : Addr) (k : Key) : Prop :=
  (∀ w, lookupKey m root k = some w → lookupKey m' root k = some w) ∧
    (lookupKey m root k = none → ∀ w, lookupKey m' root k = some w → w = 0)

theorem Keeps.of_eq {m m' : Mem} {root : Addr} {k : Key}
    (h : lookupKey m' root k = lookupKey m root k) : Keeps m m' root k := by
  refine ⟨fun w hw => h.trans hw, fun hn w hw => ?_⟩
  rw [h, hn] at hw
  cases hw

theorem Keeps.trans {m m' m'' : Mem} {root : Addr} {k : Key} (h : Keeps m m' root k)
    (h' : Keeps m' m'' root k) : Keeps m m'' root k := by
  refine ⟨fun w hw => h'.1 w (h.1 w hw), fun hn w hw => ?_⟩
  cases hm : lookupKey m' root k with
  | none => exact h'.2 hm w hw
  | some w' =>
    obtain rfl := h.2 hn w' hm
    rw [h'.1 0 hm] at hw
    cases hw
    rfl

theorem AddsTable.keeps {m m' : Mem} {root t f : Addr} {i : BitVec 9}
    {p : List (BitVec 9)} (h : AddsTable m m' root p i t f) (hw : WellFormed m root) (k : Key) :
    Keeps m m' root k := by
  have hnew := h.tableAt_eq hw [k.1, k.2.1] (by simp)
  rw [Keeps, lookupKey, lookupKey, hnew]
  by_cases hpi : [k.1, k.2.1] = p ++ [i]
  · have hold : tableAt m root [k.1, k.2.1] = none := by
      rw [hpi, tableAt_concat, h.parent]
      exact h.missing
    rw [if_pos hpi, hold]
    refine ⟨nofun, fun _ w hw => ?_⟩
    cases hw
    exact h.zero _
  · rw [if_neg hpi]
    cases hu : tableAt m root [k.1, k.2.1] with
    | none => exact ⟨nofun, nofun⟩
    | some u =>
      have huf : u ≠ f := fun he => h.fresh _ (by simp) (he ▸ hu)
      have hut : u ≠ t := by
        rintro rfl
        have hlen := h.short
        rw [hw.distinct p _ u (by omega) (by simp) h.parent hu] at hlen
        simp at hlen
      have he := h.others u k.2.2 (tableAt_aligned hw.aligned hu) huf (.inl hut)
      refine ⟨fun w hw => ?_, nofun⟩
      rw [← hw]
      exact congrArg some he

theorem entry_above {m : Mem} {root t u : Addr} {p q : List (BitVec 9)} {i : BitVec 9} {w : Word}
    (hw : WellFormed m root) (hp : p.length = 2) (ht : tableAt m root p = some t)
    (hq : q.length ≤ 1) (hu : tableAt m root q = some u) (j : BitVec 9) :
    entry (writeWord m (slot t i) w) u j = entry m u j := by
  apply entry_congr (agreeOff_writeWord (tableAt_aligned hw.aligned ht))
    (tableAt_aligned hw.aligned hu) (tableAt_aligned hw.aligned ht)
  rintro rfl
  have hqp := hw.distinct q p u (by omega) (by omega) hu ht
  rw [hqp] at hq
  omega

theorem tableAt_writeWord {m : Mem} {root t : Addr} {p : List (BitVec 9)} {i : BitVec 9} {w : Word}
    (hw : WellFormed m root) (hp : p.length = 2) (ht : tableAt m root p = some t)
    (q : List (BitVec 9)) (hq : q.length ≤ 2) :
    tableAt (writeWord m (slot t i) w) root q = tableAt m root q :=
  tableAt_congr (fun _ _ j hq' hu => entry_above hw hp ht hq' hu j) hq

theorem wellFormed_writeWord {m : Mem} {root t : Addr} {p : List (BitVec 9)} {i : BitVec 9}
    {w : Word} (hw : WellFormed m root) (hp : p.length = 2) (ht : tableAt m root p = some t) :
    WellFormed (writeWord m (slot t i) w) root := by
  refine ⟨hw.aligned, ?_, ?_⟩
  · intro q q' u hq hq' hu hu'
    rw [tableAt_writeWord hw hp ht q hq] at hu
    rw [tableAt_writeWord hw hp ht q' hq'] at hu'
    exact hw.distinct q q' u hq hq' hu hu'
  · intro q u j hq hu hv
    rw [tableAt_writeWord hw hp ht q (by omega)] at hu
    rw [entry_above hw hp ht hq hu] at hv ⊢
    exact hw.pointers q u j hq hu hv

theorem lookupKey_writeWord {m : Mem} {root t : Addr} {w : Word} (hw : WellFormed m root)
    (k : Key) (ht : tableAt m root [k.1, k.2.1] = some t) :
    lookupKey (writeWord m (slot t k.2.2) w) root k = some w := by
  rw [lookupKey, tableAt_writeWord hw rfl ht _ (by simp), ht]
  exact congrArg some (entry_writeWord _ _ _ _)

theorem lookupKey_writeWord_of_ne {m : Mem} {root t : Addr} {k' : Key} {w : Word}
    (hw : WellFormed m root) (k : Key) (ht : tableAt m root [k.1, k.2.1] = some t)
    (hne : k' ≠ k) :
    lookupKey (writeWord m (slot t k.2.2) w) root k' = lookupKey m root k' := by
  rw [lookupKey, lookupKey, tableAt_writeWord hw rfl ht _ (by simp)]
  cases hu : tableAt m root [k'.1, k'.2.1] with
  | none => rw [Option.map_none, Option.map_none]
  | some u =>
    have hal := tableAt_aligned hw.aligned ht
    rw [Option.map_some, Option.map_some, Option.some.injEq]
    by_cases hut : u = t
    · subst hut
      have hpath := hw.distinct _ _ u (by simp) (by simp) hu ht
      apply entry_writeWord_of_ne hal
      intro hi
      apply hne
      simp only [List.cons.injEq, and_true] at hpath
      exact Prod.ext hpath.1 (Prod.ext hpath.2 hi)
    · exact entry_congr (agreeOff_writeWord hal) (tableAt_aligned hw.aligned hu) hal hut _

/-- A table tree beside a free list: no free frame is a table. -/
structure Space (s : Phys) (root : Addr) (free : List Addr) : Prop where
  tree : WellFormed s.mem root
  list : FreeList s free
  apart : ∀ p t, p.length ≤ 2 → tableAt s.mem root p = some t → t ∉ free

/-- No call of `kalloc` between the two states has answered null. -/
def Supplied (s t : Phys) : Prop := t.handed.count 0 = s.handed.count 0

theorem slot_mask (t va : Addr) (n : Nat) :
    t + 8 * ((va >>> n) &&& 0x1ff) = slot t ((va >>> n).setWidth 9) := by
  have hmask : ((va >>> n) &&& 0x1ff : Word) = ((va >>> n).setWidth 9).setWidth 64 := by
    apply BitVec.eq_of_toNat_eq
    have hlow : (0x1ff : Word).toNat = 2 ^ 9 - 1 := rfl
    rw [BitVec.toNat_and, hlow, Nat.and_two_pow_sub_one_eq_mod, BitVec.toNat_setWidth,
      BitVec.toNat_setWidth]
    omega
  rw [slot, hmask]

theorem tableAt_zeroed {m : Mem} {root t : Addr} {path : List (BitVec 9)}
    (h : ∀ i, entry m root i = 0) (ht : tableAt m root path = some t) : path = [] ∧ t = root := by
  cases path with
  | nil =>
    cases ht
    exact ⟨rfl, rfl⟩
  | cons i path =>
    rw [tableAt, child_of_zero (h i)] at ht
    cases ht

theorem space_of_zero {s : Phys} {root : Addr} {free : List Addr} (h : FreeList s free)
    (hr : Aligned root) (hfree : root ∉ free) (hzero : ∀ i, entry s.mem root i = 0) :
    Space s root free := by
  refine ⟨⟨hr, ?_, ?_⟩, h, ?_⟩
  · intro p q t _ _ hp hq
    rw [(tableAt_zeroed hzero hp).1, (tableAt_zeroed hzero hq).1]
  · intro p t i _ hp hv
    rw [(tableAt_zeroed hzero hp).2, hzero i] at hv
    exact absurd rfl hv
  · intro p t _ hp
    rw [(tableAt_zeroed hzero hp).2]
    exact hfree

theorem space_zeroed {s : Phys} {root : Addr} {free : List Addr} (h : FreeList s free)
    (hr : Aligned root) (hfree : root ∉ free) : Space (s.setMemory root 0 4096) root free := by
  refine space_of_zero (h.setMemory hr hfree 0) hr hfree fun i => ?_
  rw [setMemory_mem]
  exact entry_fill_zero hr i

theorem Space.agree {s t : Phys} {root f : Addr} {free free' : List Addr} (hs : Space s root free)
    (hm : AgreeOff f s.mem t.mem) (hf : Aligned f)
    (hnot : ∀ p u, p.length ≤ 2 → tableAt s.mem root p = some u → u ≠ f)
    (hlist : FreeList t free') (hsub : ∀ x ∈ free', x ∈ free) :
    Space t root free' ∧ ∀ k, lookupKey t.mem root k = lookupKey s.mem root k := by
  have hentry : ∀ p u i, p.length ≤ 2 → tableAt s.mem root p = some u →
      entry t.mem u i = entry s.mem u i :=
    fun p u i hp hu =>
      entry_congr hm (tableAt_aligned hs.tree.aligned hu) hf (hnot p u hp hu) i
  have htable : ∀ p, p.length ≤ 2 → tableAt t.mem root p = tableAt s.mem root p :=
    fun p hp => tableAt_congr (fun q u i hq hu => hentry q u i (by omega) hu) hp
  refine ⟨⟨⟨hs.tree.aligned, ?_, ?_⟩, hlist, ?_⟩, fun k => ?_⟩
  · intro p q u hp hq hu hu'
    rw [htable p hp] at hu
    rw [htable q hq] at hu'
    exact hs.tree.distinct p q u hp hq hu hu'
  · intro p u i hp hu hv
    rw [htable p (by omega)] at hu
    rw [hentry p u i (by omega) hu] at hv ⊢
    exact hs.tree.pointers p u i hp hu hv
  · intro p u hp hu hx
    rw [htable p hp] at hu
    exact hs.apart p u hp hu (hsub u hx)
  · rw [lookupKey, lookupKey, htable _ (by simp)]
    cases hu : tableAt s.mem root [k.1, k.2.1] with
    | none => rw [Option.map_none, Option.map_none]
    | some u => rw [Option.map_some, Option.map_some, hentry _ u _ (by simp) hu]

theorem Space.storeLeaf {s : Phys} {root t : Addr} {p : List (BitVec 9)} {free : List Addr}
    (hs : Space s root free) (hp : p.length = 2) (ht : tableAt s.mem root p = some t)
    (i : BitVec 9) (w : Word) : Space (s.store (slot t i) w) root free := by
  have hal := tableAt_aligned hs.tree.aligned ht
  refine ⟨wellFormed_writeWord hs.tree hp ht, hs.list.store hal (hs.apart p t hp.le ht) i w, ?_⟩
  intro q u hq hu
  exact hs.apart q u hq ((tableAt_writeWord hs.tree hp ht q hq).symm.trans hu)

/-- What `walk` does about a missing table. -/
def addTable (s : Phys) (t : Addr) (i : BitVec 9) : Phys :=
  ((kalloc s).2.setMemory (kalloc s).1 0 4096).store (slot t i) (tablePte (kalloc s).1)

theorem walkLevel_eq (s : Phys) (t va : Addr) (i : Nat) : walkLevel s t va i =
    if entry s.mem t (index va (2 - i)) &&& pteV ≠ 0 then
      ((entry s.mem t (index va (2 - i)) >>> 10) <<< 12, s)
    else ((kalloc s).1, addTable s t (index va (2 - i))) := by
  simp only [walkLevel, slot_mask]
  rfl

theorem walkLevel_some {s : Phys} {t u va : Addr} {i : Nat}
    (h : child s.mem t (index va (2 - i)) = some u) : walkLevel s t va i = (u, s) := by
  rw [child, Option.ite_none_right_eq_some] at h
  obtain ⟨hv, hu⟩ := h
  rw [walkLevel_eq, if_pos hv, Option.some.inj hu]

theorem walkLevel_none {s : Phys} {t va : Addr} {i : Nat}
    (h : child s.mem t (index va (2 - i)) = none) :
    walkLevel s t va i = ((kalloc s).1, addTable s t (index va (2 - i))) := by
  rw [child, ite_eq_right_iff] at h
  rw [walkLevel_eq, if_neg]
  intro hv
  cases h hv

theorem addTable_handed (s : Phys) (t : Addr) (i : BitVec 9) :
    (addTable s t i).handed = (kalloc s).1 :: s.handed :=
  kalloc_handed s

theorem walkLevel_count_le (s : Phys) (t va : Addr) (i : Nat) :
    s.handed.count 0 ≤ (walkLevel s t va i).2.handed.count 0 := by
  cases h : child s.mem t (index va (2 - i)) with
  | some u => rw [walkLevel_some h]
  | none =>
    rw [walkLevel_none h]
    change _ ≤ (addTable s t _).handed.count 0
    rw [addTable_handed]
    exact List.count_le_count_cons

theorem addTable_space {s : Phys} {root t : Addr} {p : List (BitVec 9)} {i : BitVec 9}
    {free : List Addr} (hs : Space s root free) (hp : p.length ≤ 1)
    (ht : tableAt s.mem root p = some t) (hnone : child s.mem t i = none)
    (hsup : Supplied s (addTable s t i)) :
    ∃ free', free = (kalloc s).1 :: free' ∧ Space (addTable s t i) root free' ∧
      AddsTable s.mem (addTable s t i).mem root p i t (kalloc s).1 := by
  rw [Supplied, addTable_handed] at hsup
  cases free with
  | nil =>
    rw [(kalloc_empty hs.list).1, List.count_cons_self] at hsup
    omega
  | cons f free =>
    obtain ⟨hf, hlist, hagree⟩ := kalloc_pop hs.list
    have hal : Aligned f := hs.list.aligned f (by simp)
    have htal := tableAt_aligned hs.tree.aligned ht
    have hffree : f ∉ free := (List.nodup_cons.mp hs.list.nodup).1
    have hapart : ∀ q u, q.length ≤ 2 → tableAt s.mem root q = some u → u ≠ f ∧ u ∉ free :=
      fun q u hq hu => not_or.mp (fun hm => hs.apart q u hq hu (List.mem_cons.mpr hm))
    have htf := hapart p t (by omega) ht
    have hzeroed : AgreeOff f s.mem (fill (kalloc s).2.mem f 0 4096) :=
      hagree.trans (agreeOff_fill hal)
    have hmem : (addTable s t i).mem =
        writeWord (fill (kalloc s).2.mem f 0 4096) (slot t i) (tablePte f) := by
      rw [← hf]
      rfl
    have hadds : AddsTable s.mem (addTable s t i).mem root p i t f := by
      refine ⟨hp, ht, hnone, hal, fun q hq hu => (hapart q f hq hu).1 rfl, ?_, ?_, ?_⟩
      · intro u j hu huf hut
        rw [hmem]
        by_cases hut' : u = t
        · subst hut'
          rw [entry_writeWord_of_ne hu (hut.resolve_left (fun hn => hn rfl)),
            entry_congr hzeroed hu hal huf]
        · rw [entry_congr (agreeOff_writeWord htal) hu htal hut', entry_congr hzeroed hu hal huf]
      · rw [hmem, entry_writeWord]
      · intro j
        rw [hmem, entry_congr (agreeOff_writeWord htal) hal htal htf.1.symm, entry_fill_zero hal]
    refine ⟨free, by rw [hf], ⟨hadds.wellFormed hs.tree, ?_, ?_⟩, hf ▸ hadds⟩
    · rw [addTable, hf]
      exact (hlist.setMemory hal hffree 0).store htal htf.2 i (tablePte f)
    · intro q u hq hu
      rw [hadds.tableAt_eq hs.tree q hq] at hu
      by_cases hqi : q = p ++ [i]
      · rw [if_pos hqi] at hu
        cases hu
        exact hffree
      · rw [if_neg hqi] at hu
        exact (hapart q u hq hu).2

theorem walkLevel_space {s : Phys} {root t : Addr} {p : List (BitVec 9)} {free : List Addr}
    (va : Addr) (i : Nat) (hs : Space s root free) (hp : p.length ≤ 1)
    (ht : tableAt s.mem root p = some t) (hsup : Supplied s (walkLevel s t va i).2) :
    ∃ free', free.length ≤ free'.length + 1 ∧ Space (walkLevel s t va i).2 root free' ∧
      tableAt (walkLevel s t va i).2.mem root (p ++ [index va (2 - i)]) =
        some (walkLevel s t va i).1 ∧
      ∀ k, Keeps s.mem (walkLevel s t va i).2.mem root k := by
  cases h : child s.mem t (index va (2 - i)) with
  | some u =>
    rw [walkLevel_some h]
    refine ⟨free, by omega, hs, ?_, fun _ => Keeps.of_eq rfl⟩
    rw [tableAt_concat, ht]
    exact h
  | none =>
    rw [walkLevel_none h] at hsup ⊢
    obtain ⟨free', hfree, hspace, hadds⟩ := addTable_space hs hp ht h hsup
    refine ⟨free', by simp [hfree], hspace, ?_, hadds.keeps hs.tree⟩
    rw [hadds.tableAt_eq hs.tree _ (by simpa using hp), if_pos rfl]

theorem walk_eq (s : Phys) (root va : Addr) :
    walk s root va = (slot (walkLevel (walkLevel s root va 0).2 (walkLevel s root va 0).1 va 1).1
      (index va 0), (walkLevel (walkLevel s root va 0).2 (walkLevel s root va 0).1 va 1).2) := by
  simp only [walk, slot_mask]
  rfl

theorem walk_count_le (s : Phys) (root va : Addr) :
    s.handed.count 0 ≤ (walk s root va).2.handed.count 0 := by
  rw [walk_eq]
  exact (walkLevel_count_le _ _ _ _).trans (walkLevel_count_le _ _ _ _)

theorem walk_supplied_levels {s : Phys} {root va : Addr} (h : Supplied s (walk s root va).2) :
    Supplied s (walkLevel s root va 0).2 ∧ Supplied (walkLevel s root va 0).2
      (walkLevel (walkLevel s root va 0).2 (walkLevel s root va 0).1 va 1).2 := by
  have hle1 := walkLevel_count_le s root va 0
  have hle2 := walkLevel_count_le (walkLevel s root va 0).2 (walkLevel s root va 0).1 va 1
  rw [walk_eq] at h
  simp only [Supplied] at h ⊢
  omega

/-- `walk` leads to the last-level entry of `va`, growing the tree where a table is missing. -/
theorem walk_space {s : Phys} {root va : Addr} {free : List Addr} (hs : Space s root free)
    (hsup : Supplied s (walk s root va).2) : ∃ t free', (walk s root va).1 = slot t (index va 0) ∧
      free.length ≤ free'.length + 2 ∧ Space (walk s root va).2 root free' ∧
      tableAt (walk s root va).2.mem root [index va 2, index va 1] = some t ∧
      ∀ k, Keeps s.mem (walk s root va).2.mem root k := by
  obtain ⟨hsup1, hsup2⟩ := walk_supplied_levels hsup
  rw [walk_eq]
  have hroot : tableAt s.mem root [] = some root := rfl
  obtain ⟨free1, hlen1, hs1, ht1, hk1⟩ := walkLevel_space va 0 hs (by simp) hroot hsup1
  obtain ⟨free2, hlen2, hs2, ht2, hk2⟩ := walkLevel_space va 1 hs1 (by simp) ht1 hsup2
  exact ⟨_, free2, rfl, by omega, hs2, ht2, fun k => (hk1 k).trans (hk2 k)⟩

theorem Supplied.trans {s t u : Phys} (h : Supplied s t) (h' : Supplied t u) : Supplied s u :=
  Eq.trans h' h

theorem walkLevel_supplied {s : Phys} {root : Addr} {free : List Addr} (t va : Addr) (i : Nat)
    (hs : Space s root free) (hfree : 0 < free.length) :
    Supplied s (walkLevel s t va i).2 := by
  cases h : child s.mem t (index va (2 - i)) with
  | some u =>
    rw [walkLevel_some h]
    rfl
  | none =>
    rw [walkLevel_none h, Supplied, addTable_handed]
    obtain ⟨f, free, rfl⟩ := List.exists_cons_of_length_pos hfree
    rw [(kalloc_pop hs.list).1]
    exact List.count_cons_of_ne (hs.list.chain.ne_null (by simp))

theorem walk_supplied {s : Phys} {root : Addr} {free : List Addr} (va : Addr)
    (hs : Space s root free) (hfree : 2 ≤ free.length) : Supplied s (walk s root va).2 := by
  have hroot : tableAt s.mem root [] = some root := rfl
  have hsup := walkLevel_supplied root va 0 hs (by omega)
  obtain ⟨free1, hlen, hs1, -, -⟩ := walkLevel_space va 0 hs (by simp) hroot hsup
  rw [walk_eq]
  exact hsup.trans (walkLevel_supplied _ va 1 hs1 (by omega))

theorem walk_of_table {s : Phys} {root va t : Addr}
    (h : tableAt s.mem root [index va 2, index va 1] = some t) :
    walk s root va = (slot t (index va 0), s) := by
  rw [tableAt, Option.bind_eq_some_iff] at h
  obtain ⟨u, hu, h⟩ := h
  rw [tableAt, Option.bind_eq_some_iff] at h
  obtain ⟨t', ht', h⟩ := h
  cases h
  have h0 : walkLevel s root va 0 = (u, s) := walkLevel_some hu
  have h1 : walkLevel s u va 1 = (t, s) := walkLevel_some ht'
  rw [walk_eq, h0, h1]

end Raynix.PageTree
