import Raynix.MapLaw
import Raynix.PageRange

namespace Raynix.KernelSpace

open Raynix.Lib.Memory Raynix.Kalloc Raynix.PageStack Raynix.PageRange Raynix.Vm
open Raynix.PageTree Raynix.MapLaw

def Valid (m : Mem) (root : Addr) (k : Key) : Prop :=
  ∃ w, lookupKey m root k = some w ∧ w &&& pteV ≠ 0

/-- `kalloc` may answer null on the way from `s` to `t`; where it does not, a table tree beside
the free list is kept and no page is unmapped. -/
structure Grows (root : Addr) (s t : Phys) : Prop where
  count_le : s.handed.count 0 ≤ t.handed.count 0
  space : Supplied s t → (∃ free, Space s root free) → ∃ free, Space t root free
  valid : Supplied s t → (∃ free, Space s root free) → ∀ k, Valid s.mem root k → Valid t.mem root k

theorem Grows.refl (root : Addr) (s : Phys) : Grows root s s :=
  ⟨le_rfl, fun _ h => h, fun _ _ _ h => h⟩

theorem Grows.supplied {root : Addr} {s t u : Phys} (h : Grows root s t) (h' : Grows root t u)
    (hsup : Supplied s u) : Supplied s t ∧ Supplied t u := by
  have hle := h.count_le
  have hle' := h'.count_le
  simp only [Supplied] at *
  omega

theorem Grows.trans {root : Addr} {s t u : Phys} (h : Grows root s t) (h' : Grows root t u) :
    Grows root s u := by
  refine ⟨h.count_le.trans h'.count_le, ?_, ?_⟩
  · intro hsup hs
    obtain ⟨hst, htu⟩ := h.supplied h' hsup
    exact h'.space htu (h.space hst hs)
  · intro hsup hs k hk
    obtain ⟨hst, htu⟩ := h.supplied h' hsup
    exact h'.valid htu (h.space hst hs) k (h.valid hst hs k hk)

theorem leafPte_valid (pa : Addr) (permission : Word) : leafPte pa permission &&& pteV ≠ 0 := by
  have hself : leafPte pa permission &&& pteV = pteV := by
    apply BitVec.eq_of_getLsbD_eq
    intro i _
    rw [leafPte, BitVec.getLsbD_and, BitVec.getLsbD_or, Bool.and_comm, Bool.and_or_distrib_left,
      Bool.and_self, Bool.or_comm]
    cases pteV.getLsbD i <;> rfl
  rw [hself]
  decide

theorem mapPage_valid {s : Phys} {root : Addr} {free : List Addr} (va pa : Addr)
    (permission : Word) (hs : Space s root free)
    (hsup : Supplied s (mapPage s root permission va pa)) :
    Valid (mapPage s root permission va pa).mem root (key va) ∧
      ∀ k, Valid s.mem root k → Valid (mapPage s root permission va pa).mem root k := by
  obtain ⟨free', -, hspace, hpage, hkeep⟩ := mapPage_space va pa permission hs hsup
  have hva : Valid (mapPage s root permission va pa).mem root (key va) :=
    ⟨_, hpage, leafPte_valid pa permission⟩
  refine ⟨hva, fun k hk => ?_⟩
  by_cases hkva : k = key va
  · exact hkva ▸ hva
  · obtain ⟨w, hw, hv⟩ := hk
    exact ⟨w, (hkeep k hkva).1 w hw, hv⟩

theorem mapPage_grows (s : Phys) (root : Addr) (permission : Word) (va pa : Addr) :
    Grows root s (mapPage s root permission va pa) := by
  refine ⟨walk_count_le s root va, ?_, ?_⟩
  · rintro hsup ⟨free, hs⟩
    obtain ⟨free', -, hspace, -, -⟩ := mapPage_space va pa permission hs hsup
    exact ⟨free', hspace⟩
  · rintro hsup ⟨free, hs⟩
    exact (mapPage_valid va pa permission hs hsup).2

theorem mapLoop_grows (s : Phys) (root : Addr) (permission : Word) (va pa : Addr) (n : Nat) :
    Grows root s (mapLoop s root permission va pa n) := by
  induction n generalizing s va pa with
  | zero => exact Grows.refl root s
  | succ n ih =>
    rw [mapLoop_succ]
    exact (mapPage_grows s root permission va pa).trans (ih _ _ _)

theorem mapLoop_valid {s : Phys} {root va pa : Addr} {permission : Word} {n x : Nat}
    (hs : ∃ free, Space s root free) (hsup : Supplied s (mapLoop s root permission va pa n))
    (hx : x < n) :
    Valid (mapLoop s root permission va pa n).mem root (key (pageAt va x)) := by
  induction n generalizing s va pa x with
  | zero => omega
  | succ n ih =>
    obtain ⟨hsup1, hsup2⟩ := mapLoop_supplied hsup
    have hs1 := (mapPage_grows s root permission va pa).space hsup1 hs
    obtain ⟨free, hs⟩ := hs
    rw [mapLoop_succ]
    cases x with
    | zero =>
      rw [pageAt_zero]
      apply (mapLoop_grows _ root permission _ _ n).valid hsup2 hs1
      exact (mapPage_valid va pa permission hs hsup1).1
    | succ x =>
      rw [← pageAt_succ]
      exact ih hs1 hsup2 (by omega)

theorem map_grows (s : Phys) (va pa root : Addr) (size permission : Word) :
    Grows root s (map s va pa root size permission) := mapLoop_grows _ _ _ _ _ _

theorem kalloc_grows (root : Addr) (s : Phys) : Grows root s (kalloc s).2 := by
  have hspace : Supplied s (kalloc s).2 → ∀ free, Space s root free →
      ∃ free', Space (kalloc s).2 root free' ∧
        ∀ k, lookupKey (kalloc s).2.mem root k = lookupKey s.mem root k := by
    intro hsup free hs
    rw [Supplied, kalloc_handed] at hsup
    cases free with
    | nil =>
      rw [(kalloc_empty hs.list).1, List.count_cons_self] at hsup
      omega
    | cons f free =>
      obtain ⟨-, hlist, hagree⟩ := kalloc_pop hs.list
      refine ⟨free, hs.agree hagree (hs.list.aligned f (by simp)) ?_ hlist (by simp +contextual)⟩
      intro p u hp hu huf
      exact hs.apart p u hp hu (by simp [huf])
  refine ⟨?_, ?_, ?_⟩
  · rw [kalloc_handed]
    exact List.count_le_count_cons
  · rintro hsup ⟨free, hs⟩
    obtain ⟨free', hs', -⟩ := hspace hsup free hs
    exact ⟨free', hs'⟩
  · rintro hsup ⟨free, hs⟩ k ⟨w, hw, hv⟩
    obtain ⟨free', -, hlookup⟩ := hspace hsup free hs
    exact ⟨w, (hlookup k).trans hw, hv⟩

theorem initProcKstackLoop_succ (s : Phys) (pgt : Addr) (i n : Nat) :
    initProcKstackLoop s pgt i (n + 1) =
      initProcKstackLoop (map (kalloc s).2 (kstack i) (kalloc s).1 pgt 4096 (pteR ||| pteW)) pgt
        (i + 1) n := by
  conv_lhs => unfold initProcKstackLoop

theorem initProcKstackLoop_grows (s : Phys) (root : Addr) (i n : Nat) :
    Grows root s (initProcKstackLoop s root i n) := by
  induction n generalizing s i with
  | zero => exact Grows.refl root s
  | succ n ih =>
    rw [initProcKstackLoop_succ]
    have hmap := map_grows (kalloc s).2 (kstack i) (kalloc s).1 root 4096 (pteR ||| pteW)
    exact ((kalloc_grows root s).trans hmap).trans (ih _ _)

/-- A device, the kernel or a stack, as the page table is to show it. -/
structure Region where
  start : Addr
  size : Nat
  target : Addr
  permission : Word

def Region.contains (r : Region) (v : Addr) : Prop :=
  r.start.toNat ≤ v.toNat ∧ v.toNat < r.start.toNat + r.size

instance (r : Region) (v : Addr) : Decidable (r.contains v) :=
  inferInstanceAs (Decidable (_ ∧ _))

/-- The regions of the kernel address space; `stack i` is the frame of kernel stack `i`. -/
def regions (etext trampoline : Addr) (stack : Fin 64 → Addr) : List Region :=
  [⟨uart0, 4096, uart0, pteR ||| pteW⟩, ⟨virtio0, 4096, virtio0, pteR ||| pteW⟩,
    ⟨plic, 0x400000, plic, pteR ||| pteW⟩,
    ⟨kernbase, (etext - kernbase).toNat, kernbase, pteR ||| pteX⟩,
    ⟨etext, (physTop - etext).toNat, etext, pteR ||| pteW⟩,
    ⟨trampolineVa, 4096, trampoline, pteR ||| pteX⟩] ++
  (List.finRange 64).map (fun i => ⟨kstack i, 4096, stack i, pteR ||| pteW⟩)

/-- After `kvm_init` every region is mapped to its target with its permission, the kernel stacks
have frames of their own, and every other page is unmapped. -/
structure KernelLayout (before after : Phys) (root etext trampoline : Addr) : Prop where
  supplied : Supplied before after
  layout : ∃ stack : Fin 64 → Addr, Function.Injective stack ∧
    (∀ r ∈ regions etext trampoline stack, ∀ v, r.contains v → ∃ pte,
      lookup after.mem root v = some pte ∧ pte &&& 0x3ff = r.permission ||| pteV ∧
        (pte >>> 10) <<< 12 = pgRoundDown (r.target + (v - r.start))) ∧
    ∀ v, v.toNat < 2 ^ 39 → (∀ r ∈ regions etext trampoline stack, ¬ r.contains v) →
      ∀ pte, lookup after.mem root v = some pte → pte &&& pteV = 0

theorem plic_page : pageAt (pgRoundDown plic) 0x400 = 0x0c400000 := by
  decide

theorem map_valid {s : Phys} {root : Addr} (va pa : Addr) (size permission : Word) (x : Nat)
    (hs : ∃ free, Space s root free) (hsup : Supplied s (map s va pa root size permission))
    (hx : x < size.toNat) : Valid (map s va pa root size permission).mem root
      (key (pageAt (pgRoundDown va) x)) :=
  mapLoop_valid hs hsup hx

/-- The maps of `fatal_pa_map` before the one of the PLIC. -/
def mapDevices (s : Phys) (root : Addr) : Phys :=
  map (map s uart0 uart0 root 4096 (pteR ||| pteW)) virtio0 virtio0 root 4096 (pteR ||| pteW)

def mapPlic (s : Phys) (root : Addr) : Phys := map s plic plic root 0x400000 (pteR ||| pteW)

def mapKernel (s : Phys) (root etext trampoline : Addr) : Phys :=
  map (map (map s kernbase kernbase root (etext - kernbase) (pteR ||| pteX))
    etext etext root (physTop - etext) (pteR ||| pteW))
    trampolineVa trampoline root 4096 (pteR ||| pteX)

theorem fatalPaMap_eq (s : Phys) (root etext trampoline : Addr) :
    fatalPaMap s root etext trampoline =
      mapKernel (mapPlic (mapDevices s root) root) root etext trampoline := by
  unfold fatalPaMap mapKernel mapPlic mapDevices
  rfl

theorem mapDevices_grows (s : Phys) (root : Addr) : Grows root s (mapDevices s root) :=
  (map_grows _ _ _ _ _ _).trans (map_grows _ _ _ _ _ _)

theorem mapKernel_grows (s : Phys) (root etext trampoline : Addr) :
    Grows root s (mapKernel s root etext trampoline) :=
  ((map_grows _ _ _ _ _ _).trans (map_grows _ _ _ _ _ _)).trans (map_grows _ _ _ _ _ _)

theorem fatalPaMap_grows (s : Phys) (root etext trampoline : Addr) :
    Grows root s (fatalPaMap s root etext trampoline) := by
  rw [fatalPaMap_eq]
  have hplic : Grows root (mapDevices s root) (mapPlic (mapDevices s root) root) :=
    map_grows _ _ _ _ _ _
  exact ((mapDevices_grows s root).trans hplic).trans (mapKernel_grows _ _ _ _)

/-- The first page past the PLIC range is mapped by the call for the PLIC, which asks for as many
pages as the range has bytes. -/
theorem fatalPaMap_valid {s : Phys} {root etext trampoline : Addr}
    (hs : ∃ free, Space s root free) (hsup : Supplied s (fatalPaMap s root etext trampoline)) :
    Valid (fatalPaMap s root etext trampoline).mem root (key 0x0c400000) := by
  rw [fatalPaMap_eq] at hsup ⊢
  have hdevices := mapDevices_grows s root
  have hplic : Grows root (mapDevices s root) (mapPlic (mapDevices s root) root) :=
    map_grows _ _ _ _ _ _
  have hkernel := mapKernel_grows (mapPlic (mapDevices s root) root) root etext trampoline
  obtain ⟨hsup, hsup3⟩ := (hdevices.trans hplic).supplied hkernel hsup
  obtain ⟨hsup1, hsup2⟩ := hdevices.supplied hplic hsup
  have hs1 := hdevices.space hsup1 hs
  apply hkernel.valid hsup3 (hplic.space hsup2 hs1)
  rw [← plic_page]
  exact map_valid plic plic 0x400000 (pteR ||| pteW) 0x400 hs1 hsup2 (by decide)

/-- The kernel page table right after its root has been cleared. -/
def clearedRoot (s : Phys) : Phys := (kalloc s).2.setMemory (kalloc s).1 0 4096

theorem clearedRoot_handed (s : Phys) : (clearedRoot s).handed = (kalloc s).1 :: s.handed :=
  kalloc_handed s

theorem kvmInit_eq (s : Phys) (etext trampoline : Addr) : kvmInit s etext trampoline =
    ((kalloc s).1, initProcKstack (fatalPaMap (clearedRoot s) (kalloc s).1 etext trampoline)
      (kalloc s).1) := by
  unfold kvmInit clearedRoot
  rfl

theorem kvmInit_valid {s : Phys} {free : List Addr} {etext trampoline : Addr}
    (h : FreeList s free) (hsup : Supplied s (kvmInit s etext trampoline).2) :
    Valid (kvmInit s etext trampoline).2.mem (kvmInit s etext trampoline).1
      (key 0x0c400000) := by
  rw [kvmInit_eq] at hsup ⊢
  simp only [Supplied, initProcKstack] at hsup
  have hfatal := fatalPaMap_grows (clearedRoot s) (kalloc s).1 etext trampoline
  have hstacks := initProcKstackLoop_grows
    (fatalPaMap (clearedRoot s) (kalloc s).1 etext trampoline) (kalloc s).1 0 64
  have hle := (hfatal.trans hstacks).count_le
  have hcount : (clearedRoot s).handed.count 0 = ((kalloc s).1 :: s.handed).count 0 := by
    rw [clearedRoot_handed]
  cases free with
  | nil =>
    have hnull : ((kalloc s).1 :: s.handed).count 0 = s.handed.count 0 + 1 := by
      rw [(kalloc_empty h).1, List.count_cons_self]
    omega
  | cons f free =>
    obtain ⟨hf, hlist, -⟩ := kalloc_pop h
    have hfree : f ∉ free := (List.nodup_cons.mp h.nodup).1
    have hroot : ∃ free, Space (clearedRoot s) (kalloc s).1 free := by
      rw [clearedRoot, hf]
      exact ⟨free, space_zeroed hlist (h.aligned f (by simp)) hfree⟩
    have hhanded : s.handed.count 0 ≤ ((kalloc s).1 :: s.handed).count 0 :=
      List.count_le_count_cons
    have hsup' : Supplied (clearedRoot s)
        (initProcKstackLoop (fatalPaMap (clearedRoot s) (kalloc s).1 etext trampoline)
          (kalloc s).1 0 64) := by
      rw [Supplied]
      omega
    obtain ⟨hsup1, hsup2⟩ := hfatal.supplied hstacks hsup'
    exact hstacks.valid hsup2 (hfatal.space hsup1 hroot) _ (fatalPaMap_valid hroot hsup1)

theorem not_contains_plicEnd {etext trampoline : Addr} {stack : Fin 64 → Addr}
    (hbase : kernbase < etext) {r : Region} (hr : r ∈ regions etext trampoline stack) :
    ¬ r.contains 0x0c400000 := by
  have hstacks : ∀ i : Fin 64, ¬ (kstack i).toNat ≤ (0x0c400000 : Addr).toNat := by
    decide +kernel
  have hkernel : (0x0c400000 : Addr).toNat < kernbase.toNat := by decide
  have htrampoline : (0x0c400000 : Addr).toNat < trampolineVa.toNat := by decide
  rw [BitVec.lt_def] at hbase
  simp only [regions, List.mem_append, List.mem_cons, List.mem_map, List.not_mem_nil,
    or_false] at hr
  obtain (rfl | rfl | rfl | rfl | rfl | rfl) | ⟨i, -, rfl⟩ := hr
  · decide
  · decide
  · decide
  · exact fun h => absurd h.1 hkernel.not_ge
  · exact fun h => absurd h.1 (hkernel.trans hbase).not_ge
  · exact fun h => absurd h.1 htrampoline.not_ge
  · exact fun h => hstacks i h.1

theorem KernelLayout.plicEnd_unmapped {s t : Phys} {root etext trampoline : Addr}
    (h : KernelLayout s t root etext trampoline) (hbase : kernbase < etext) :
    ¬ Valid t.mem root (key 0x0c400000) := by
  rintro ⟨w, hw, hv⟩
  obtain ⟨stack, -, -, hrest⟩ := h.layout
  exact hv (hrest 0x0c400000 (by decide) (fun r hr => not_contains_plicEnd hbase hr) w hw)

/-- `kvm_init` never builds the intended layout: each size is in bytes and `map` takes pages, so
the call for the PLIC runs past its range unless the frames run out before. -/
theorem not_kernelLayout {s : Phys} {free : List Addr} {etext : Addr} (trampoline : Addr)
    (h : FreeList s free) (hbase : kernbase < etext) :
    ¬ KernelLayout s (kvmInit s etext trampoline).2 (kvmInit s etext trampoline).1 etext
      trampoline := by
  intro hlayout
  exact hlayout.plicEnd_unmapped hbase (kvmInit_valid h hlayout.supplied)

/-- The frames of `[E, PHYSTOP)`. -/
def framesFrom (E : Addr) : List Addr :=
  (List.range ((physTop.toNat - E.toNat) / 4096)).map (pageAt E)

theorem framesFrom_toNat {E : Addr} {x : Nat} (hx : x < (physTop.toNat - E.toNat) / 4096) :
    (pageAt E x).toNat = E.toNat + 4096 * x := by
  have htop := physTop_toNat
  exact pageAt_toNat E x (by omega)

theorem mem_framesFrom {E : Addr} (hE : Aligned E) (f : Addr) :
    f ∈ framesFrom E ↔ FrameIn E f := by
  have htop := physTop_toNat
  unfold Aligned at hE
  simp only [framesFrom, List.mem_map, List.mem_range, FrameIn, Aligned]
  constructor
  · rintro ⟨x, hx, rfl⟩
    have hxn := framesFrom_toNat hx
    omega
  · rintro ⟨hal, hlo, hhi⟩
    have hx : (f.toNat - E.toNat) / 4096 < (physTop.toNat - E.toNat) / 4096 := by omega
    refine ⟨_, hx, BitVec.eq_of_toNat_eq ?_⟩
    rw [framesFrom_toNat hx]
    omega

theorem framesFrom_nodup (E : Addr) : (framesFrom E).Nodup := by
  apply List.Nodup.map_on ?_ List.nodup_range
  intro x hx y hy hxy
  have hxn := framesFrom_toNat (List.mem_range.mp hx)
  have hyn := framesFrom_toNat (List.mem_range.mp hy)
  rw [hxy] at hxn
  omega

/-- Zero memory with the frames of `[E, PHYSTOP)` on the list. -/
def freed (E : Addr) : Phys := (framesFrom E).foldl freePage (boot (fun _ => 0))

theorem freed_freeList {E : Addr} (hE : Aligned E) (h0 : E ≠ 0) :
    ∃ free, FreeList (freed E) free ∧ ∀ f, f ∈ free ↔ FrameIn E f := by
  refine ⟨(framesFrom E).reverse ++ [], ?_, ?_⟩
  · apply foldl_freePage (boot_freeList _)
    · intro f hf
      obtain ⟨hal, hlo, -⟩ := (mem_framesFrom hE f).mp hf
      refine ⟨hal, ?_⟩
      rintro rfl
      bv_omega
    · rw [List.append_nil]
      exact framesFrom_nodup E
  · intro f
    rw [List.append_nil, List.mem_reverse, mem_framesFrom hE]

theorem not_kernelLayout_freed :
    ¬ KernelLayout (freed 0x80021000) (kvmInit (freed 0x80021000) 0x80009000 0x80008000).2
      (kvmInit (freed 0x80021000) 0x80009000 0x80008000).1 0x80009000 0x80008000 := by
  have hE : Aligned 0x80021000 := by decide
  obtain ⟨free, hlist, -⟩ := freed_freeList hE (by decide)
  exact not_kernelLayout 0x80008000 hlist (by decide)

theorem not_layout_kvmInit : ¬ ∀ (s : Phys) (free : List Addr) (E etext trampoline : Addr),
    Aligned E → etext ≤ E → Aligned etext → kernbase < etext → etext < physTop →
    Aligned trampoline → FreeList s free → (∀ f, f ∈ free ↔ FrameIn E f) →
    KernelLayout s (kvmInit s etext trampoline).2 (kvmInit s etext trampoline).1 etext
      trampoline := by
  intro h
  have hE : Aligned 0x80021000 := by decide
  obtain ⟨free, hlist, hframes⟩ := freed_freeList hE (by decide)
  have hlayout := h (freed 0x80021000) free 0x80021000 0x80009000 0x80008000 hE (by decide)
    (by decide) (by decide) (by decide) (by decide) hlist hframes
  have hbase : kernbase < 0x80009000 := by decide
  exact hlayout.plicEnd_unmapped hbase (kvmInit_valid hlist hlayout.supplied)

end Raynix.KernelSpace
