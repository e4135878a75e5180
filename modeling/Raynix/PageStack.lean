import Raynix.Kalloc
import Raynix.Lib.LinkedStack

namespace Raynix.PageStack

open Raynix.Lib.Memory Raynix.Lib.LinkedStack Raynix.Lib.Transition Raynix.Kalloc

theorem pgRoundDown_eq (a : Addr) : pgRoundDown a = (a >>> 12) <<< 12 := by
  have hmask : (~~~(4096 - 1) : Addr) = BitVec.allOnes 64 <<< 12 := by decide
  apply BitVec.eq_of_getLsbD_eq
  intro i hi
  rw [pgRoundDown, hmask, BitVec.getLsbD_and, BitVec.getLsbD_shiftLeft, BitVec.getLsbD_shiftLeft,
    BitVec.getLsbD_ushiftRight, BitVec.getLsbD_allOnes]
  by_cases h : i < 12
  · simp [h]
  · have hlt : i - 12 < 64 := by omega
    rw [Nat.add_sub_cancel' (by omega)]
    simp [h, hi, hlt]

theorem pgRoundDown_toNat (a : Addr) : (pgRoundDown a).toNat = a.toNat / 4096 * 4096 := by
  rw [pgRoundDown_eq, BitVec.toNat_shiftLeft, BitVec.toNat_ushiftRight,
    Nat.shiftRight_eq_div_pow, Nat.shiftLeft_eq]
  omega

theorem aligned_pgRoundDown (a : Addr) : Aligned (pgRoundDown a) := by
  rw [Aligned, pgRoundDown_toNat]
  omega

theorem pageNo_pgRoundDown (a : Addr) : pageNo (pgRoundDown a) = pageNo a := by
  rw [pageNo, pgRoundDown_toNat, pageNo]
  omega

theorem pgRoundDown_of_aligned {f : Addr} (hf : Aligned f) : pgRoundDown f = f :=
  (Aligned.pageNo_inj (aligned_pgRoundDown f) hf).mp (pageNo_pgRoundDown f)

theorem pgRoundUp_of_aligned {f : Addr} (hf : Aligned f) : pgRoundUp f = f := by
  have hup : pgRoundUp f = pgRoundDown (f + 4096 - 1) := rfl
  unfold Aligned at hf
  apply BitVec.eq_of_toNat_eq
  rw [hup, pgRoundDown_toNat]
  bv_omega

theorem readWord_agree {m m' : Mem} {f x : Addr} (h : AgreeOff f m m') (hx : Aligned x)
    (hf : Aligned f) (hne : x ≠ f) : readWord m' x = readWord m x := by
  have he := entry_congr h hx hf hne 0
  rwa [entry, entry, slot_zero] at he

/-- The chain from `page_link` through the first words of the free frames. -/
structure FreeList (s : Phys) (free : List Addr) : Prop where
  chain : Chain (readWord s.mem) 0 s.pageLink free
  aligned : ∀ f ∈ free, Aligned f
  nodup : free.Nodup

theorem FreeList.agree {s t : Phys} {free : List Addr} {f : Addr} (h : FreeList s free)
    (hm : AgreeOff f s.mem t.mem) (hl : t.pageLink = s.pageLink) (hf : Aligned f)
    (hfree : f ∉ free) : FreeList t free := by
  refine ⟨?_, h.aligned, h.nodup⟩
  rw [hl]
  apply h.chain.congr
  intro x hx
  apply readWord_agree hm (h.aligned x hx) hf
  exact fun he => hfree (he ▸ hx)

theorem FreeList.setMemory {s : Phys} {free : List Addr} {f : Addr} (h : FreeList s free)
    (hf : Aligned f) (hfree : f ∉ free) (v : Byte) : FreeList (s.setMemory f v 4096) free := by
  have hagree : AgreeOff f s.mem (s.setMemory f v 4096).mem := by
    rw [setMemory_mem]
    exact agreeOff_fill hf
  exact h.agree hagree rfl hf hfree

theorem FreeList.store {s : Phys} {free : List Addr} {t : Addr} (h : FreeList s free)
    (ht : Aligned t) (hfree : t ∉ free) (i : BitVec 9) (w : Word) :
    FreeList (s.store (slot t i) w) free := by
  have hagree : AgreeOff t s.mem (s.store (slot t i) w).mem := agreeOff_writeWord ht
  exact h.agree hagree rfl ht hfree

theorem freePage_push {s : Phys} {free : List Addr} {f : Addr} (h : FreeList s free)
    (hf : Aligned f) (h0 : f ≠ 0) (hfree : f ∉ free) :
    FreeList (freePage s f) (f :: free) ∧ AgreeOff f s.mem (freePage s f).mem := by
  have hmem : (freePage s f).mem =
      writeWord (fill s.mem (pgRoundUp f) 1 4096) (slot f 0) s.pageLink := by
    rw [slot_zero]
    rfl
  rw [pgRoundUp_of_aligned hf] at hmem
  have hagree : AgreeOff f s.mem (freePage s f).mem := by
    rw [hmem]
    exact (agreeOff_fill hf).trans (agreeOff_writeWord hf)
  refine ⟨⟨?_, ?_, List.nodup_cons.mpr ⟨hfree, h.nodup⟩⟩, hagree⟩
  · apply h.chain.push h0
    · have hnext := readWord_writeWord (fill s.mem f 1 4096) (slot f 0) s.pageLink
      rwa [← hmem, slot_zero] at hnext
    · intro x hx
      apply readWord_agree hagree (h.aligned x hx) hf
      exact fun he => hfree (he ▸ hx)
  · intro x hx
    obtain rfl | hx := List.mem_cons.mp hx
    · exact hf
    · exact h.aligned x hx

theorem foldl_freePage {s : Phys} {free frames : List Addr} (h : FreeList s free)
    (hframes : ∀ f ∈ frames, Aligned f ∧ f ≠ 0) (hnodup : (frames ++ free).Nodup) :
    FreeList (frames.foldl freePage s) (frames.reverse ++ free) := by
  induction frames generalizing s free with
  | nil => exact h
  | cons f frames ih =>
    obtain ⟨hal, h0⟩ := hframes f (by simp)
    have hfree : f ∉ free := fun hf =>
      (List.nodup_cons.mp hnodup).1 (List.mem_append_right _ hf)
    rw [List.reverse_cons, List.append_assoc]
    apply ih (freePage_push h hal h0 hfree).1 (fun g hg => hframes g (by simp [hg]))
    exact List.nodup_middle.mpr hnodup

theorem foldl_freePage_mem {s : Phys} {free frames : List Addr} (h : FreeList s free)
    (hframes : ∀ f ∈ frames, Aligned f ∧ f ≠ 0) (hnodup : (frames ++ free).Nodup) {b : Addr}
    (hb : ∀ f ∈ frames, pageNo b ≠ pageNo f) : (frames.foldl freePage s).mem b = s.mem b := by
  induction frames generalizing s free with
  | nil => rfl
  | cons f frames ih =>
    obtain ⟨hal, h0⟩ := hframes f (by simp)
    have hfree : f ∉ free := fun hf =>
      (List.nodup_cons.mp hnodup).1 (List.mem_append_right _ hf)
    obtain ⟨hlist, hagree⟩ := freePage_push h hal h0 hfree
    rw [List.foldl_cons, ih hlist (fun g hg => hframes g (by simp [hg]))
      (List.nodup_middle.mpr hnodup) (fun g hg => hb g (by simp [hg]))]
    exact hagree b (hb f (by simp))

theorem kalloc_pop {s : Phys} {free : List Addr} {f : Addr} (h : FreeList s (f :: free)) :
    (kalloc s).1 = f ∧ FreeList (kalloc s).2 free ∧ AgreeOff f s.mem (kalloc s).2.mem := by
  obtain ⟨⟨hlink, h0, hchain⟩, hal, hnd⟩ := h
  obtain ⟨hfree, hnd⟩ := List.nodup_cons.mp hnd
  have hf : Aligned f := hal f (by simp)
  have hmem : (kalloc s).2.mem = fill s.mem f 5 4096 := by
    rw [kalloc, hlink, if_pos h0]
    rfl
  have hlink' : (kalloc s).2.pageLink = readWord s.mem f := by
    rw [kalloc, hlink, if_pos h0]
    rfl
  have hagree : AgreeOff f s.mem (kalloc s).2.mem := by
    rw [hmem]
    exact agreeOff_fill hf
  refine ⟨hlink, ⟨?_, fun x hx => hal x (by simp [hx]), hnd⟩, hagree⟩
  rw [hlink']
  apply hchain.congr
  intro x hx
  apply readWord_agree hagree (hal x (by simp [hx])) hf
  exact fun he => hfree (he ▸ hx)

theorem aligned_zero : Aligned 0 := rfl

/-- `kalloc` on an empty list answers null and overwrites the page at address 0. -/
theorem kalloc_empty {s : Phys} (h : FreeList s []) :
    (kalloc s).1 = 0 ∧ FreeList (kalloc s).2 [] ∧ AgreeOff 0 s.mem (kalloc s).2.mem := by
  have hlink : s.pageLink = 0 := h.chain
  have hmem : (kalloc s).2.mem = fill s.mem 0 5 4096 := by
    rw [kalloc, hlink, if_neg (by simp)]
    rfl
  have hlink' : (kalloc s).2.pageLink = 0 := by
    rw [kalloc, hlink, if_neg (by simp)]
    exact hlink
  refine ⟨hlink, ⟨hlink', ?_, List.nodup_nil⟩, ?_⟩
  · simp
  · rw [hmem]
    exact agreeOff_fill aligned_zero

theorem kalloc_fst (s : Phys) : (kalloc s).1 = s.pageLink := rfl

theorem kalloc_handed (s : Phys) : (kalloc s).2.handed = (kalloc s).1 :: s.handed := by
  rw [kalloc]
  split <;> rfl

/-- The operations on the stack of frames and the frames held. -/
def poolStep (p : Pool Addr) : PageOp → Option (Pool Addr)
  | .kalloc => some p.alloc
  | .freePage pa => if pa ∈ p.held then some (p.release pa) else none
  | .write a _ => if pgRoundDown a ∈ p.held then some p else none

/-- `free_page` is called with the start of a frame. -/
def FreesStart (_ : Keeper) (a : PageOp) : Prop := ∀ pa, a = .freePage pa → Aligned pa

instance (s : Keeper) : ∀ a, Decidable (FreesStart s a)
  | .freePage pa => decidable_of_iff (Aligned pa)
      ⟨fun h q ha => by cases ha; exact h, fun h => h pa rfl⟩
  | .kalloc | .write .. => .isTrue nofun

/-- The chain of `page_link` is the stack of free frames; no frame is free twice, held twice, or
free and held. -/
structure Represents (s : Keeper) (p : Pool Addr) : Prop where
  list : FreeList s.phys p.free
  held : s.held = p.held
  handed : s.phys.handed = p.handed.map (fun f => f.getD 0)
  frames : ∀ f ∈ p.items, Aligned f ∧ f ≠ 0
  nodup : p.items.Nodup

theorem poolStep_perm {p q : Pool Addr} {a : PageOp} (h : poolStep p a = some q) :
    q.items.Perm p.items := by
  cases a with
  | kalloc =>
    cases h
    exact p.alloc_perm
  | freePage pa =>
    simp only [poolStep, Option.ite_none_right_eq_some, Option.some.injEq] at h
    obtain ⟨hpa, rfl⟩ := h
    exact Pool.release_perm hpa
  | write a v =>
    simp only [poolStep, Option.ite_none_right_eq_some, Option.some.injEq] at h
    obtain ⟨-, rfl⟩ := h
    rfl

theorem Represents.of_perm {s t : Keeper} {p q : Pool Addr} (hs : Represents s p)
    (hpq : q.items.Perm p.items) (hlist : FreeList t.phys q.free) (hheld : t.held = q.held)
    (hhanded : t.phys.handed = q.handed.map (fun f => f.getD 0)) : Represents t q where
  list := hlist
  held := hheld
  handed := hhanded
  frames f hf := hs.frames f (hpq.mem_iff.mp hf)
  nodup := hpq.nodup_iff.mpr hs.nodup

theorem Represents.not_free {s : Keeper} {p : Pool Addr} {f : Addr} (hs : Represents s p)
    (hf : f ∈ p.held) : f ∉ p.free := by
  intro hfree
  exact (List.nodup_append.mp hs.nodup).2.2 f hfree f hf rfl

theorem step_kalloc (s : Keeper) : step s .kalloc = some ⟨(kalloc s.phys).2,
    if (kalloc s.phys).1 = 0 then s.held else (kalloc s.phys).1 :: s.held⟩ := rfl

theorem kalloc_refines {s t : Keeper} {p : Pool Addr} (hs : Represents s p)
    (h : step s .kalloc = some t) : Represents t p.alloc := by
  rw [step_kalloc] at h
  obtain rfl := Option.some.inj h
  have hperm := p.alloc_perm
  obtain ⟨free, held, handed⟩ := p
  cases free with
  | nil =>
    obtain ⟨hnull, hlist, -⟩ := kalloc_empty hs.list
    apply hs.of_perm hperm hlist
    · rw [if_pos hnull]
      exact hs.held
    · rw [kalloc_handed, hnull, hs.handed]
      rfl
  | cons f free =>
    obtain ⟨hf, hlist, -⟩ := kalloc_pop hs.list
    have h0 : f ≠ 0 := hs.list.chain.ne_null (by simp)
    apply hs.of_perm hperm hlist
    · rw [hf, if_neg h0, hs.held]
      rfl
    · rw [kalloc_handed, hf, hs.handed]
      rfl

theorem freePage_refines {s t : Keeper} {p : Pool Addr} {pa : Addr} (hs : Represents s p)
    (hpa : Aligned pa) (h : step s (.freePage pa) = some t) :
    pa ∈ p.held ∧ Represents t (p.release pa) := by
  rw [step, pgRoundDown_of_aligned hpa, Option.ite_none_right_eq_some, hs.held] at h
  obtain ⟨hheld, h⟩ := h
  cases h
  have h0 : pa ≠ 0 := (hs.frames pa (List.mem_append_right _ hheld)).2
  refine ⟨hheld, hs.of_perm (Pool.release_perm hheld) ?_ rfl hs.handed⟩
  exact (freePage_push hs.list hpa h0 (hs.not_free hheld)).1

theorem write_refines {s t : Keeper} {p : Pool Addr} {a : Addr} {v : Byte} (hs : Represents s p)
    (h : step s (.write a v) = some t) : pgRoundDown a ∈ p.held ∧ Represents t p := by
  rw [step, Option.ite_none_right_eq_some, hs.held] at h
  obtain ⟨hheld, h⟩ := h
  cases h
  have hagree : AgreeOff (pgRoundDown a) s.phys.mem (Function.update s.phys.mem a v) := by
    intro b hb
    apply Function.update_of_ne
    rintro rfl
    exact hb (pageNo_pgRoundDown b).symm
  refine ⟨hheld, hs.of_perm (.refl _) ?_ rfl hs.handed⟩
  exact hs.list.agree hagree rfl (aligned_pgRoundDown a) (hs.not_free hheld)

theorem step_refines {s t : Keeper} {p : Pool Addr} {a : PageOp} (hs : Represents s p)
    (ha : FreesStart s a) (h : step s a = some t) :
    ∃ q, poolStep p a = some q ∧ Represents t q ∧ q.items.Perm p.items := by
  have hq : ∃ q, poolStep p a = some q ∧ Represents t q := by
    cases a with
    | kalloc => exact ⟨_, rfl, kalloc_refines hs h⟩
    | freePage pa =>
      obtain ⟨hheld, ht⟩ := freePage_refines hs (ha pa rfl) h
      exact ⟨_, if_pos hheld, ht⟩
    | write a v =>
      obtain ⟨hheld, ht⟩ := write_refines hs h
      exact ⟨_, if_pos hheld, ht⟩
  obtain ⟨q, hstep, ht⟩ := hq
  exact ⟨q, hstep, ht, poolStep_perm hstep⟩

/-- Every run of the allocator and its clients follows the stack of frames: the chain stays the
list of free frames, the answers of `kalloc` agree, and no frame is lost or doubled. -/
theorem run_refines_pool {s t : Keeper} {p : Pool Addr} {as : List PageOp} (hs : Represents s p)
    (hstart : Meets step FreesStart s as) (h : run step s as = some t) :
    ∃ q, run poolStep p as = some q ∧ Represents t q ∧ q.items.Perm p.items := by
  have hstep : ∀ (u : Keeper) (q : Pool Addr) a v, Represents u q ∧ q.items.Perm p.items →
      FreesStart u a → step u a = some v →
      ∃ r, poolStep q a = some r ∧ Represents v r ∧ r.items.Perm p.items := by
    intro u q a v hu ha hv
    obtain ⟨r, hr, hvr, hperm⟩ := step_refines hu.1 ha hv
    exact ⟨r, hr, hvr, hperm.trans hu.2⟩
  exact run_refines hstep ⟨hs, .refl _⟩ hstart h

theorem boot_freeList (mem : Mem) : FreeList (boot mem) [] :=
  ⟨rfl, by simp, List.nodup_nil⟩

/-- Zero memory with the frames at 0x2000 and 0x1000 on the list. -/
def twoFrames : Keeper := ⟨freePage (freePage (boot (fun _ => 0)) 0x1000) 0x2000, []⟩

theorem twoFrames_represents : Represents twoFrames ⟨[0x2000, 0x1000], [], []⟩ := by
  have h1 : Aligned 0x1000 := by decide
  have h2 : Aligned 0x2000 := by decide
  have hone := (freePage_push (boot_freeList fun _ => 0) h1 (by decide) (by simp)).1
  refine ⟨(freePage_push hone h2 (by decide) (by simp)).1, rfl, rfl, ?_, ?_⟩
  · simp only [Pool.items, List.append_nil, List.forall_mem_cons]
    exact ⟨⟨h2, by decide⟩, ⟨h1, by decide⟩, by simp⟩
  · simp [Pool.items]

/-- Taking a frame, writing to it, giving it back and taking it again. -/
def reuse : List PageOp := [.kalloc, .write 0x2008 7, .freePage 0x2000, .kalloc]

theorem reuse_isSome : (run step twoFrames reuse).isSome := by
  decide +kernel

theorem run_refines_pool_reuse : ∃ q, run poolStep ⟨[0x2000, 0x1000], [], []⟩ reuse = some q ∧
    Represents ((run step twoFrames reuse).get reuse_isSome) q ∧
    q.items.Perm [0x2000, 0x1000] := by
  have hstart : Meets step FreesStart twoFrames reuse := by decide +kernel
  exact run_refines_pool twoFrames_represents hstart (Option.some_get reuse_isSome).symm

end Raynix.PageStack
