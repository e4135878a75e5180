import Raynix.OutOfPages

namespace Raynix.WalkTree

open Raynix.Lib.Memory Raynix.Lib.Transition Raynix.Kalloc Raynix.PageStack Raynix.Vm
open Raynix.PageTree Raynix.MapLaw Raynix.OutOfPages

/-- The memory with the page tables of `root`. `returned` is ghost: the addresses `walk` was called
with and what it answered, latest first. -/
structure State where
  phys : Phys
  returned : List (Addr × Addr)

/-- A call of `walk`, or a write of `w` through a pointer it returned. -/
inductive Act
  | walk (va : Addr)
  | write (pte : Addr) (w : Word)

variable (root : Addr)

def step (s : State) : Act → Option State
  | .walk va =>
    let (pte, phys) := walk s.phys root va
    some ⟨phys, (va, pte) :: s.returned⟩
  | .write pte w =>
    if pte ∈ s.returned.map Prod.snd then some { s with phys := s.phys.store pte w } else none

/-- `kalloc` has a frame for each table that a call of `walk` makes. -/
def Supplies (s : State) : Act → Prop
  | .walk va => Supplied s.phys (walk s.phys root va).2
  | .write _ _ => True

/-- A page of zeros beside a free list. -/
structure Zeroed (s : Phys) (root : Addr) (free : List Addr) : Prop where
  list : FreeList s free
  aligned : Aligned root
  apart : root ∉ free
  zero : ∀ i, entry s.mem root i = 0

/-- `t` is a table `n` levels below the root. -/
def OnLevel (m : Mem) (root : Addr) (n : Nat) (t : Addr) : Prop :=
  ∃ p, p.length = n ∧ tableAt m root p = some t

/-- Entry `e.2` of the table `e.1` on level `n` is valid and leads to `f`. -/
def Refers (m : Mem) (root : Addr) (n : Nat) (e : Addr × BitVec 9) (f : Addr) : Prop :=
  OnLevel m root n e.1 ∧ child m e.1 e.2 = some f

/-- Every table but the root has one entry that leads to it, on the level above its only one. -/
structure Tree (m : Mem) (root : Addr) : Prop where
  referenced : ∀ n ≤ 1, ∀ f, OnLevel m root (n + 1) f → ∃! e, Refers m root n e f
  oneLevel : ∀ n ≤ 2, ∀ n' ≤ 2, ∀ f, OnLevel m root n f → OnLevel m root n' f → n = n'

/-- `pte` is the address of the last-level entry of `va`. -/
def Leads (m : Mem) (root va pte : Addr) : Prop :=
  ∃ t, tableAt m root [index va 2, index va 1] = some t ∧ pte = slot t (index va 0)

def vpn (va : Addr) : BitVec 27 := va.extractLsb' 12 27

structure Law (s : State) : Prop where
  tree : Tree s.phys.mem root
  leads : ∀ a ∈ s.returned, Leads s.phys.mem root a.1 a.2
  addresses : ∀ a ∈ s.returned, ∀ b ∈ s.returned, a.2 = b.2 ↔ vpn a.1 = vpn b.1
  repeats : ∀ a ∈ s.returned, walk s.phys root a.1 = (a.2, s.phys)

/-- The tables are a tree beside the free list, and every answer of `walk` still leads there. -/
structure Inv (free : List Addr) (s : State) : Prop where
  space : Space s.phys root free
  leads : ∀ a ∈ s.returned, Leads s.phys.mem root a.1 a.2

variable {root}

theorem key_eq_iff_vpn (a b : Addr) : key a = key b ↔ vpn a = vpn b := by
  rw [key_eq_iff_mod, BitVec.toNat_eq, vpn, vpn, BitVec.extractLsb'_toNat, BitVec.extractLsb'_toNat,
    Nat.shiftRight_eq_div_pow, Nat.shiftRight_eq_div_pow]
  rfl

theorem tree_of_wellFormed {m : Mem} (h : WellFormed m root) : Tree m root := by
  constructor
  · rintro n hn f ⟨p, hp, hf⟩
    obtain rfl | ⟨q, i, rfl⟩ := p.eq_nil_or_concat'
    · cases hp
    rw [List.length_append, List.length_singleton] at hp
    rw [tableAt_concat, Option.bind_eq_some_iff] at hf
    obtain ⟨t, ht, hf⟩ := hf
    refine ⟨(t, i), ⟨⟨q, by omega, ht⟩, hf⟩, ?_⟩
    rintro ⟨u, j⟩ ⟨⟨q', hq', hu⟩, hf'⟩
    -- Both entries end a path to `f`, and there is one such path only.
    have hpath : tableAt m root (q ++ [i]) = some f := by
      rw [tableAt_concat, ht]
      exact hf
    have hpath' : tableAt m root (q' ++ [j]) = some f := by
      rw [tableAt_concat, hu]
      exact hf'
    have heq := h.distinct (q' ++ [j]) (q ++ [i]) f (by simp; omega) (by simp; omega) hpath' hpath
    obtain ⟨rfl, hij⟩ := List.append_inj' heq rfl
    obtain rfl := List.singleton_inj.mp hij
    obtain rfl : t = u := Option.some.inj (ht.symm.trans hu)
    rfl
  · rintro n hn n' hn' f ⟨p, rfl, hp⟩ ⟨q, rfl, hq⟩
    rw [h.distinct p q f hn hn' hp hq]

theorem Leads.eq_iff {m : Mem} {a b x y : Addr} (h : WellFormed m root) (hx : Leads m root a x)
    (hy : Leads m root b y) : x = y ↔ vpn a = vpn b := by
  obtain ⟨t, ht, rfl⟩ := hx
  obtain ⟨u, hu, rfl⟩ := hy
  rw [slot_inj (tableAt_aligned h.aligned ht) (tableAt_aligned h.aligned hu), ← key_eq_iff_vpn,
    key, key, Prod.mk.injEq, Prod.mk.injEq, ← and_assoc]
  refine and_congr_left fun _ => ⟨fun htu => ?_, fun hi => ?_⟩
  · have hpath := h.distinct _ _ t (by simp) (by simp) ht (htu ▸ hu)
    simp only [List.cons.injEq, and_true] at hpath
    exact hpath
  · rw [hi.1, hi.2, hu] at ht
    exact (Option.some.inj ht).symm

theorem Inv.law {s : State} {free : List Addr} (h : Inv root free s) : Law root s := by
  obtain ⟨hs, hleads⟩ := h
  refine ⟨tree_of_wellFormed hs.tree, hleads, fun a ha b hb => ?_, fun a ha => ?_⟩
  · exact (hleads a ha).eq_iff hs.tree (hleads b hb)
  · obtain ⟨t, ht, hpte⟩ := hleads a ha
    rw [walk_of_table ht, hpte]

theorem Spends.kept {s t : Phys} {free free' : List Addr} {added : Finset (List (BitVec 9))}
    (h : Spends s t root free free' added) {p : List (BitVec 9)} {f : Addr} (hp : p.length ≤ 2)
    (hf : tableAt s.mem root p = some f) : tableAt t.mem root p = some f := by
  have hold : p ∉ added := by
    intro hadded
    rw [(h.gained p hadded).2.1] at hf
    cases hf
  rw [h.others p hp hold]
  exact hf

theorem walk_inv {s : State} {va : Addr} {free : List Addr} (h : Inv root free s)
    (hsup : Supplied s.phys (walk s.phys root va).2) : ∃ free', free.length ≤ free'.length + 2 ∧
      Inv root free'
        ⟨(walk s.phys root va).2, (va, (walk s.phys root va).1) :: s.returned⟩ := by
  obtain ⟨hs, hleads⟩ := h
  obtain ⟨t, free', added, hadded, hspends, hslot, ht⟩ := walk_spends hs hsup
  have hcard : added.card ≤ 2 := (Finset.card_le_card hadded).trans Finset.card_le_two
  have hcount := hspends.count
  refine ⟨free', by omega, hspends.space, fun a ha => ?_⟩
  obtain rfl | ha := List.mem_cons.mp ha
  · exact ⟨t, ht, hslot⟩
  · obtain ⟨u, hu, hpte⟩ := hleads a ha
    exact ⟨u, Spends.kept hspends (by simp) hu, hpte⟩

theorem write_inv {s : State} {pte : Addr} {free : List Addr} (h : Inv root free s)
    (hpte : pte ∈ s.returned.map Prod.snd) (w : Word) :
    Inv root free { s with phys := s.phys.store pte w } := by
  obtain ⟨hs, hleads⟩ := h
  obtain ⟨a, ha, rfl⟩ := List.mem_map.mp hpte
  obtain ⟨t, ht, hslot⟩ := hleads a ha
  rw [hslot]
  refine ⟨hs.storeLeaf rfl ht _ w, fun b hb => ?_⟩
  obtain ⟨u, hu, hb⟩ := hleads b hb
  exact ⟨u, (tableAt_writeWord hs.tree rfl ht _ (by simp)).trans hu, hb⟩

theorem step_inv {s t : State} {a : Act} {free : List Addr} (hs : Inv root free s)
    (hsup : Supplies root s a) (h : step root s a = some t) :
    ∃ free', free.length ≤ free'.length + 2 ∧ Inv root free' t := by
  cases a with
  | walk va =>
    obtain rfl := Option.some.inj h
    exact walk_inv hs hsup
  | write pte w =>
    simp only [step, Option.ite_none_right_eq_some, Option.some.injEq] at h
    obtain ⟨hpte, rfl⟩ := h
    exact ⟨free, by omega, write_inv hs hpte w⟩

theorem meets_supplies {s : State} {free : List Addr} {as : List Act} (hs : Inv root free s)
    (hfree : 2 * as.length ≤ free.length) : Meets (step root) (Supplies root) s as := by
  induction as generalizing s free with
  | nil => trivial
  | cons a as ih =>
    rw [List.length_cons] at hfree
    have hsup : Supplies root s a := by
      cases a with
      | walk va => exact walk_supplied va hs.space (by omega)
      | write pte w => trivial
    refine ⟨hsup, fun t ht => ?_⟩
    obtain ⟨free', hlen, ht⟩ := step_inv hs hsup ht
    exact ih ht (by omega)

theorem Zeroed.inv {s : Phys} {free : List Addr} (h : Zeroed s root free) :
    Inv root free ⟨s, []⟩ :=
  ⟨space_of_zero h.list h.aligned h.apart h.zero, by simp⟩

theorem emptyVmCreate_zeroed {s : Phys} {f : Addr} {free : List Addr}
    (h : FreeList s (f :: free)) :
    (emptyVmCreate s).1 = f ∧ Zeroed (emptyVmCreate s).2 f free := by
  obtain ⟨hf, hlist, -⟩ := kalloc_pop h
  have hal : Aligned f := h.aligned f (by simp)
  have hfree : f ∉ free := (List.nodup_cons.mp h.nodup).1
  have hmade : emptyVmCreate s = (f, (kalloc s).2.setMemory f 0 4096) := by
    rw [emptyVmCreate, hf]
  rw [hmade]
  refine ⟨rfl, hlist.setMemory hal hfree 0, hal, hfree, fun i => ?_⟩
  rw [setMemory_mem]
  exact entry_fill_zero hal i

/-- Whatever addresses `walk` is called with from an empty root on, in whatever order, and whatever
is written through the pointers it returned. -/
theorem law_run {s : Phys} {free : List Addr} (h : Zeroed s root free) {as : List Act}
    (hsup : Meets (step root) (Supplies root) ⟨s, []⟩ as) :
    Always (step root) (Law root) ⟨s, []⟩ as := by
  have hinv : Always (step root) (fun s => ∃ free, Inv root free s) ⟨s, []⟩ as := by
    refine always_of_meets (fun s a t hs hok ht => ?_) ⟨free, h.inv⟩ hsup
    obtain ⟨free, hs⟩ := hs
    obtain ⟨free', -, ht⟩ := step_inv hs hok ht
    exact ⟨free', ht⟩
  refine hinv.mono fun s hs => ?_
  obtain ⟨free, hs⟩ := hs
  exact hs.law

def sevenFrames : Phys :=
  [0x1000, 0x2000, 0x3000, 0x4000, 0x5000, 0x6000, 0x7000].foldl freePage (boot fun _ => 0)

theorem sevenFrames_freeList : FreeList sevenFrames
    [0x7000, 0x6000, 0x5000, 0x4000, 0x3000, 0x2000, 0x1000] :=
  foldl_freePage (boot_freeList _) (by simp [Aligned]) (by decide)

/-- Pages of two tables, and a leaf written through a pointer in between. -/
def calls (pte : Addr) : List Act := [.walk 0x1ff123, .write pte 0x2000000f, .walk 0x200000]

theorem walkWriteWalk_isSome (s : Phys) (root va va' : Addr) (w : Word) :
    (run (step root) ⟨s, []⟩ [.walk va, .write (walk s root va).1 w, .walk va']).isSome := by
  simp [run_cons, step]

theorem calls_length (pte : Addr) : 2 * (calls pte).length ≤ 6 := le_rfl

theorem law_run_calls : ∃ pte,
    (run (step 0x7000) ⟨(emptyVmCreate sevenFrames).2, []⟩ (calls pte)).isSome ∧
      Always (step 0x7000) (Law 0x7000) ⟨(emptyVmCreate sevenFrames).2, []⟩ (calls pte) := by
  have hroot := (emptyVmCreate_zeroed sevenFrames_freeList).2
  exact ⟨_, walkWriteWalk_isSome _ _ _ _ _,
    law_run hroot (meets_supplies hroot.inv (calls_length _))⟩

end Raynix.WalkTree
