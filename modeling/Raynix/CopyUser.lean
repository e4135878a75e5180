import Raynix.Translation

namespace Raynix.CopyUser

open Raynix.Lib.Memory Raynix.Lib.ByteMove Raynix.Kalloc Raynix.Tools Raynix.PageStack Raynix.Vm
open Raynix.PageTree Raynix.MapLaw Raynix.KernelSpace Raynix.OutOfPages Raynix.Translation

/-- Where byte `i` of the range from `addr` on lies, each byte translated on its own. -/
def physByte (s : Phys) (root addr : Addr) (i : Nat) : Addr :=
  (findPa s root (addr + BitVec.ofNat 64 i)).1

/-- The pages of the range are mapped, to physical addresses of 56 bits. -/
structure RangeMapped (s : Phys) (root addr : Addr) (len : Word) : Prop where
  mapped : ∀ i < len.toNat, Mapped s.mem root (addr + BitVec.ofNat 64 i)
  low : ∀ i < len.toNat, (physByte s root addr i).toNat < 2 ^ 56

/-- The tables for `va` are there, whether or not `va` is mapped. -/
def HasTables (m : Mem) (root va : Addr) : Prop :=
  ∃ t, tableAt m root [index va 2, index va 1] = some t

/-- `t` has the range from `addr` on in `target`, and is `s` elsewhere. -/
structure CopiesIn (s t : Phys) (root target addr : Addr) (len : Word) : Prop where
  bytes : ∀ i < len.toNat, t.mem (target + BitVec.ofNat 64 i) = s.mem (physByte s root addr i)
  others : ∀ b, (∀ i < len.toNat, b ≠ target + BitVec.ofNat 64 i) → t.mem b = s.mem b

/-- `t` has the bytes of `source` in the range from `va` on and is `s` elsewhere, and `u` has got
them back into `dst`. -/
structure RoundTrips (s t u : Phys) (root va source dst : Addr) (len : Word) : Prop where
  stored : ∀ i < len.toNat, t.mem (physByte s root va i) = s.mem (source + BitVec.ofNat 64 i)
  kept : ∀ b, (∀ i < len.toNat, b ≠ physByte s root va i) → t.mem b = s.mem b
  back : ∀ i < len.toNat, u.mem (dst + BitVec.ofNat 64 i) = s.mem (source + BitVec.ofNat 64 i)

/-- The byte that ends up in `target[i]`: one translation serves all bytes, and the length is cut
to 32 bits. -/
def byteGot (s : Phys) (root target addr : Addr) (len : Word) (i : Nat) : Byte :=
  s.mem (if i < len.toNat % 2 ^ 32 then (findPa s root addr).1 + BitVec.ofNat 64 i
    else target + BitVec.ofNat 64 i)

theorem physByte_zero (s : Phys) (root addr : Addr) :
    physByte s root addr 0 = (findPa s root addr).1 := by
  rw [physByte, add_ofNat_zero]

theorem add_offset_toNat {a : Addr} {i : Nat} (h : a.toNat % 4096 + i < 4096) :
    (a + BitVec.ofNat 64 i).toNat = a.toNat + i := by
  bv_omega

theorem key_add_offset {a : Addr} {i : Nat} (h : a.toNat % 4096 + i < 4096) :
    key (a + BitVec.ofNat 64 i) = key a := by
  have ha := add_offset_toNat h
  rw [key, key, Prod.mk.injEq, Prod.mk.injEq, BitVec.toNat_eq, BitVec.toNat_eq, BitVec.toNat_eq]
  simp only [index_toNat, ha]
  omega

theorem frame_or_offset (x : Word) {y : Word} (hy : y.toNat < 4096) :
    x <<< 12 ||| y = x <<< 12 + y := by
  symm
  apply BitVec.add_eq_or_of_and_eq_zero
  apply BitVec.eq_of_toNat_eq
  have hmask : y = y &&& 0xfff := BitVec.eq_of_toNat_eq (by rw [offset_toNat, Nat.mod_eq_of_lt hy])
  have hlow : BitVec.allOnes 64 <<< 12 &&& (0xfff : Word) = 0 := by decide
  have hx : x <<< 12 = x <<< 12 &&& BitVec.allOnes 64 <<< 12 := by
    rw [← BitVec.shiftLeft_and_distrib, BitVec.and_allOnes]
  rw [hmask, hx, BitVec.and_comm y, BitVec.and_assoc, ← BitVec.and_assoc _ _ y, hlow]
  simp

theorem physByte_of_page {s : Phys} {root addr : Addr} {i : Nat} (h : Mapped s.mem root addr)
    (hi : addr.toNat % 4096 + i < 4096) :
    physByte s root addr i = (findPa s root addr).1 + BitVec.ofNat 64 i := by
  obtain ⟨pte, hpte, -⟩ := h.lookup
  have hoff := offset_toNat addr
  have hsum : (addr + BitVec.ofNat 64 i) &&& 0xfff = (addr &&& 0xfff) + BitVec.ofNat 64 i := by
    apply BitVec.eq_of_toNat_eq
    rw [offset_toNat, add_offset_toNat hi]
    bv_omega
  have hpte' : PageTree.lookup s.mem root (addr + BitVec.ofNat 64 i) = some pte := by
    rw [PageTree.lookup, key_add_offset hi]
    exact hpte
  rw [physByte, findPa_of_lookup hpte', findPa_of_lookup hpte]
  rw [hsum, frame_or_offset, frame_or_offset, BitVec.add_assoc]
  · omega
  · rw [BitVec.toNat_add, BitVec.toNat_ofNat]
    omega
theorem RangeMapped.room {s : Phys} {root addr : Addr} {len : Word}
    (h : RangeMapped s root addr len) :
    (findPa s root addr).1.toNat + (len.setWidth 32).toNat < 2 ^ 64 := by
  have hn := (len.setWidth 32).isLt
  by_cases hlen : len.toNat = 0
  · have hpa := (findPa s root addr).1.isLt
    rw [BitVec.toNat_setWidth, hlen]
    omega
  · have hlow := h.low 0 (by omega)
    rw [physByte_zero] at hlow
    omega

theorem RangeMapped.findPa_eq {s : Phys} {root addr : Addr} {len : Word}
    (h : RangeMapped s root addr len) (hlen : len.toNat ≠ 0) : (findPa s root addr).2 = s := by
  have hfirst := h.mapped 0 (by omega)
  rw [add_ofNat_zero] at hfirst
  exact findPa_of_mapped hfirst

theorem RangeMapped.mem_eq {s : Phys} {root addr : Addr} {len : Word} {free : List Addr}
    (h : RangeMapped s root addr len) (hs : Space s root free) (h0 : root ≠ 0)
    (htables : len = 0 → HasTables s.mem root addr) : (findPa s root addr).2.mem = s.mem := by
  by_cases hlen : len.toNat = 0
  · exact (findPa_mem_iff hs h0).mpr (htables (BitVec.eq_of_toNat_eq hlen))
  · rw [h.findPa_eq hlen]

/-- As `emptyTree`, in a memory where each byte holds the number of its page. -/
def numbered : Phys :=
  ([0x2000, 0x3000, 0x4000, 0x5000].foldl freePage (boot fun b => (b >>> 12).setWidth 8)).setMemory
    0x1000 0 4096

theorem numbered_space : Space numbered 0x1000 [0x5000, 0x4000, 0x3000, 0x2000] := by
  apply space_zeroed ?_ (by decide) (by decide)
  exact foldl_freePage (boot_freeList _) (by simp [Aligned]) (by decide)

theorem pageNo_frame {f : Addr} (hf : f ∈ ([0x5000, 0x4000, 0x3000, 0x2000] : List Addr)) :
    1 ≤ pageNo f ∧ pageNo f ≤ 5 := by
  simp only [List.mem_cons, List.not_mem_nil, or_false] at hf
  obtain rfl | rfl | rfl | rfl := hf <;> decide

theorem numbered_mem {b : Addr} (hb : 5 < pageNo b) : numbered.mem b = (b >>> 12).setWidth 8 := by
  have hroot : pageNo b ≠ pageNo 0x1000 := by
    change pageNo b ≠ 1
    omega
  rw [numbered, setMemory_mem, fill_page (by decide), if_neg hroot]
  refine foldl_freePage_mem (boot_freeList _) (by simp [Aligned]) (by decide) fun f hf => ?_
  have hpage := (pageNo_frame (List.mem_reverse.mpr hf)).2
  omega

/-- Address 0 is mapped to 0x10000, and the next page to 0x20000. -/
def twoPages : Phys :=
  map (map numbered 0 0x10000 0x1000 1 (pteR ||| pteW)) 0x1000 0x20000 0x1000 1 (pteR ||| pteW)

theorem map_one (s : Phys) (va pa root : Addr) (permission : Word) :
    map s va pa root 1 permission = mapPage s root permission (pgRoundDown va) pa := rfl

theorem map_page {s : Phys} {root : Addr} {free : List Addr} (va pa : Addr) (permission : Word)
    (hs : Space s root free) (hfree : 2 ≤ free.length) : ∃ free', free' ⊆ free ∧
      free.length ≤ free'.length + 2 ∧ Space (map s va pa root 1 permission) root free' ∧
      Confined root free s (map s va pa root 1 permission) ∧
      PageTree.lookup (map s va pa root 1 permission).mem root (pgRoundDown va) =
        some (leafPte pa permission) ∧
      ∀ k, k ≠ key (pgRoundDown va) → Keeps s.mem (map s va pa root 1 permission).mem root k := by
  have hsup : Supplied s (mapPage s root permission (pgRoundDown va) pa) :=
    walk_supplied _ hs hfree
  obtain ⟨free', added, hsub, h, -⟩ := mapPage_spends (pgRoundDown va) pa permission hs hsup
  obtain ⟨-, -, -, hlookup, hkeeps⟩ := mapPage_space (pgRoundDown va) pa permission hs hsup
  have hadded : added.card ≤ 2 := (Finset.card_le_card hsub).trans Finset.card_le_two
  have hcount := h.count
  rw [map_one]
  exact ⟨free', h.frames, by omega, h.space, mapPage_confined _ pa permission hs hsup, hlookup,
    hkeeps⟩

theorem twoPages_tree : ∃ free, Space twoPages 0x1000 free ∧
    Confined 0x1000 [0x5000, 0x4000, 0x3000, 0x2000] numbered twoPages ∧
    PageTree.lookup twoPages.mem 0x1000 0 = some (leafPte 0x10000 (pteR ||| pteW)) ∧
    PageTree.lookup twoPages.mem 0x1000 0x1000 = some (leafPte 0x20000 (pteR ||| pteW)) := by
  obtain ⟨free1, hsub1, hlen1, hs1, hc1, hlookup1, -⟩ :=
    map_page 0 0x10000 (pteR ||| pteW) numbered_space (by decide)
  rw [List.length_cons, List.length_cons, List.length_cons, List.length_cons] at hlen1
  obtain ⟨free2, -, -, hs2, hc2, hlookup2, hkeeps⟩ :=
    map_page 0x1000 0x20000 (pteR ||| pteW) hs1 (by omega)
  refine ⟨free2, hs2, hc1.trans hc2 hsub1, ?_, hlookup2⟩
  exact (hkeeps (key 0) (by decide)).1 _ hlookup1

theorem twoPages_page {f : Addr}
    (h : IsTable numbered.mem 0x1000 f ∨ HandedOut numbered twoPages f) :
    1 ≤ pageNo f ∧ pageNo f ≤ 5 := by
  obtain ⟨-, -, hconfined, -, -⟩ := twoPages_tree
  obtain h | h := h
  · have hroot : f = 0x1000 := isTable_zeroed (entry_fill_zero (by decide)) h
    rw [hroot]
    decide
  · exact pageNo_frame (hconfined.frames f h)

theorem twoPages_mem {b : Addr} (hb : 5 < pageNo b) : twoPages.mem b = (b >>> 12).setWidth 8 := by
  obtain ⟨-, -, hconfined, -, -⟩ := twoPages_tree
  rw [← numbered_mem hb]
  by_contra hne
  obtain ⟨f, hpage, hf⟩ := hconfined.written b hne
  have hle := (twoPages_page hf).2
  omega

theorem twoPages_frame_zero : ¬ IsTable twoPages.mem 0x1000 0 := by
  intro h
  obtain ⟨-, -, hconfined, -, -⟩ := twoPages_tree
  have hpage := (twoPages_page (hconfined.tables 0 h)).1
  exact absurd hpage (by decide)

theorem findPa_of_leaf {s : Phys} {root page va pa : Addr} {permission : Word}
    (h : PageTree.lookup s.mem root page = some (leafPte pa permission))
    (hp : (permission ||| pteV).toNat < 2 ^ 10) (hva : key va = key page) :
    findPa s root va = ((pa >>> 12) <<< 12 ||| (va &&& 0xfff), s) := by
  rw [PageTree.lookup, ← hva] at h
  rw [findPa_of_lookup h, leafPte_page hp]

theorem mapped_of_leaf {s : Phys} {root page va pa : Addr} {permission : Word}
    (h : PageTree.lookup s.mem root page = some (leafPte pa permission))
    (hp : (permission ||| pteV).toNat < 2 ^ 10) (hva : key va = key page)
    (hpa : ((pa >>> 12) <<< 12).toNat < 2 ^ 56) :
    Mapped s.mem root va ∧ (findPa s root va).1.toNat < 2 ^ 56 := by
  have hoff : (va &&& 0xfff).toNat < 2 ^ 56 := by
    rw [offset_toNat]
    omega
  rw [findPa_of_leaf h hp hva, BitVec.toNat_or]
  rw [PageTree.lookup, ← hva] at h
  exact ⟨⟨_, h, leafPte_valid _ _⟩, Nat.or_lt_two_pow hpa hoff⟩

theorem twoPages_translate {va : Addr} (hva : va.toNat < 0x2000) :
    Mapped twoPages.mem 0x1000 va ∧ (findPa twoPages 0x1000 va).1.toNat < 2 ^ 56 := by
  obtain ⟨-, -, -, hlookup, hnext⟩ := twoPages_tree
  have hp : (pteR ||| pteW ||| pteV).toNat < 2 ^ 10 := by decide
  by_cases hpage : va.toNat < 0x1000
  · refine mapped_of_leaf hlookup hp ?_ (by decide)
    rw [key_eq_iff (by omega) (by decide)]
    exact Nat.div_eq_of_lt hpage
  · refine mapped_of_leaf hnext hp ?_ (by decide)
    rw [key_eq_iff (by omega) (by decide)]
    change va.toNat / 4096 = 1
    omega

theorem twoPages_range {addr : Addr} {len : Word} (h : addr.toNat + len.toNat ≤ 0x2000) :
    RangeMapped twoPages 0x1000 addr len := by
  have hva : ∀ i < len.toNat, (addr + BitVec.ofNat 64 i).toNat < 0x2000 := by
    intro i hi
    rw [BitVec.toNat_add, BitVec.toNat_ofNat]
    omega
  refine ⟨fun i hi => (twoPages_translate (hva i hi)).1, fun i hi => ?_⟩
  rw [physByte]
  exact (twoPages_translate (hva i hi)).2

theorem copyIn_moved {s : Phys} {root addr : Addr} {len : Word} (target : Addr)
    (h : RangeMapped s root addr len) :
    Moved (findPa s root addr).2.mem (copyIn s root target addr len).phys.mem target
      (findPa s root addr).1 (len.toNat % 2 ^ 32) := by
  rw [← BitVec.toNat_setWidth]
  exact memmove_moved _ target _ h.room.le fun htop => absurd htop h.room.ne

theorem copyOut_moved {s : Phys} {root va : Addr} {len : Word} (source : Addr)
    (h : RangeMapped s root va len) :
    Moved (findPa s root va).2.mem (copyOut s root va source len).phys.mem source
      (findPa s root va).1 (len.toNat % 2 ^ 32) := by
  rw [← BitVec.toNat_setWidth]
  exact memmove_moved _ source _ h.room.le fun htop => absurd htop h.room.ne

theorem mem_eq_of_empty {s t : Phys} {root addr d : Addr} {len : Word}
    (h : Moved (findPa s root addr).2.mem t.mem d (findPa s root addr).1 (len.toNat % 2 ^ 32))
    (hlen : len = 0) (ht : ∀ b, t.mem b = s.mem b) :
    (findPa s root addr).2.mem = s.mem := by
  subst hlen
  funext b
  rw [← ht b]
  exact (h.others b (by simp)).symm

theorem copyIn_mem {s : Phys} {root addr : Addr} {len : Word} (target : Addr)
    (h : RangeMapped s root addr len) (hmem : (findPa s root addr).2.mem = s.mem) :
    (∀ i < len.toNat, (copyIn s root target addr len).phys.mem (target + BitVec.ofNat 64 i) =
      byteGot s root target addr len i) ∧
    ∀ b, (∀ i < len.toNat, b ≠ target + BitVec.ofNat 64 i) →
      (copyIn s root target addr len).phys.mem b = s.mem b := by
  have hmoved := copyIn_moved target h
  rw [hmem] at hmoved
  have hlen := len.isLt
  refine ⟨fun i hi => ?_, fun b hb => ?_⟩
  · rw [byteGot]
    split
    case isTrue hin => exact hmoved.bytes i hin
    case isFalse hout =>
      apply hmoved.others
      intro k hk he
      have hik := add_ofNat_inj target (by omega) (by omega) he
      omega
  · apply hmoved.others
    intro k hk
    exact hb k (hk.trans_le (Nat.mod_le _ _))

/-- `copy_in` copies the range exactly when each byte of the range is the one that the single
translation finds, and an empty range has its tables. -/
theorem copiesIn_iff {s : Phys} {root addr : Addr} {len : Word} {free : List Addr} (target : Addr)
    (hs : Space s root free) (h0 : root ≠ 0) (h : RangeMapped s root addr len) :
    CopiesIn s (copyIn s root target addr len).phys root target addr len ↔
      (len = 0 → HasTables s.mem root addr) ∧
        ∀ i < len.toNat, byteGot s root target addr len i = s.mem (physByte s root addr i) := by
  constructor
  · intro hc
    have htables : len = 0 → HasTables s.mem root addr := by
      intro hlen
      apply (findPa_mem_iff hs h0).mp
      exact mem_eq_of_empty (copyIn_moved target h) hlen fun b => hc.others b (by simp [hlen])
    refine ⟨htables, fun i hi => ?_⟩
    rw [← hc.bytes i hi]
    exact ((copyIn_mem target h (h.mem_eq hs h0 htables)).1 i hi).symm
  · rintro ⟨htables, hbytes⟩
    obtain ⟨hin, hothers⟩ := copyIn_mem target h (h.mem_eq hs h0 htables)
    exact ⟨fun i hi => (hin i hi).trans (hbytes i hi), hothers⟩

theorem copiesIn_twoPages :
    CopiesIn twoPages (copyIn twoPages 0x1000 0x30000 0xffe 2).phys 0x1000 0x30000 0xffe 2 := by
  obtain ⟨free, hs, -⟩ := twoPages_tree
  have hrange : RangeMapped twoPages 0x1000 0xffe 2 := twoPages_range (by decide)
  refine (copiesIn_iff 0x30000 hs (by decide) hrange).mpr ⟨nofun, fun i hi => ?_⟩
  have hcut : i < (2 : Word).toNat % 2 ^ 32 := hi
  have hpage : (0xffe : Addr).toNat % 4096 + i < 4096 := by
    have hi2 : i < 2 := hi
    have hoff : (0xffe : Addr).toNat % 4096 = 4094 := rfl
    omega
  have hfirst : Mapped twoPages.mem 0x1000 0xffe := hrange.mapped 0 (by decide)
  rw [byteGot, if_pos hcut, physByte_of_page hfirst hpage]

theorem twoPages_bytes : findPa twoPages 0x1000 0xfff = (0x10fff, twoPages) ∧
    physByte twoPages 0x1000 0xfff 0 = 0x10fff ∧ physByte twoPages 0x1000 0xfff 1 = 0x20000 := by
  obtain ⟨-, -, -, hlookup, hlookup'⟩ := twoPages_tree
  have hfirst : findPa twoPages 0x1000 0xfff = (0x10fff, twoPages) :=
    findPa_of_leaf hlookup (by decide) (by decide)
  have hnext : findPa twoPages 0x1000 0x1000 = (0x20000, twoPages) :=
    findPa_of_leaf hlookup' (by decide) (by decide)
  have hadd : (0xfff : Addr) + BitVec.ofNat 64 1 = 0x1000 := by decide
  refine ⟨hfirst, ?_, ?_⟩
  · rw [physByte_zero, hfirst]
  · rw [physByte, hadd, hnext]

theorem forall_lt_two {p : Nat → Prop} (h0 : p 0) (h1 : p 1) : ∀ i < (2 : Word).toNat, p i := by
  intro i hi
  have hi2 : i < 2 := hi
  obtain rfl | rfl : i = 0 ∨ i = 1 := by omega
  · exact h0
  · exact h1

/-- The byte before a page boundary and the one after it come from neighbouring physical addresses,
whatever frame the second page has. -/
theorem not_copiesIn : ¬ ∀ (s : Phys) (root target addr : Addr) (len : Word) (free : List Addr),
    Space s root free → ¬ IsTable s.mem root 0 → RangeMapped s root addr len →
    (∀ i < len.toNat, ∀ j < len.toNat,
      pageNo (target + BitVec.ofNat 64 i) ≠ pageNo (physByte s root addr j)) →
    CopiesIn s (copyIn s root target addr len).phys root target addr len := by
  intro h
  obtain ⟨free, hs, -⟩ := twoPages_tree
  have hrange : RangeMapped twoPages 0x1000 0xfff 2 := twoPages_range (by decide)
  obtain ⟨hfirst, hbyte0, hbyte1⟩ := twoPages_bytes
  have hcopies := h twoPages 0x1000 0x30000 0xfff 2 free hs twoPages_frame_zero hrange ?_
  · have hgot := (copyIn_mem 0x30000 hrange (by rw [hfirst])).1 1 (by decide)
    rw [hcopies.bytes 1 (by decide), hbyte1, byteGot, if_pos (by decide), hfirst] at hgot
    rw [twoPages_mem (by decide)] at hgot
    rw [twoPages_mem (by decide)] at hgot
    exact absurd hgot (by decide)
  · refine forall_lt_two (forall_lt_two ?_ ?_) (forall_lt_two ?_ ?_)
    all_goals
      simp only [hbyte0, hbyte1]
      decide

/-- `copy_out` moves the range into the kernel buffer, which changes nothing when the buffer holds
those bytes already. -/
theorem copyOut_phys {s : Phys} {root va source : Addr} {len : Word}
    (h : RangeMapped s root va len) (hlen : len.toNat ≠ 0)
    (hsame : ∀ k < len.toNat % 2 ^ 32, (copyOut s root va source len).phys.mem
      (source + BitVec.ofNat 64 k) = s.mem (source + BitVec.ofNat 64 k)) :
    (copyOut s root va source len).phys = s := by
  have hmoved := copyOut_moved source h
  rw [h.findPa_eq hlen] at hmoved
  have hmem : (copyOut s root va source len).phys.mem = s.mem := by
    funext b
    by_cases hb : ∃ k < len.toNat % 2 ^ 32, b = source + BitVec.ofNat 64 k
    · obtain ⟨k, hk, rfl⟩ := hb
      exact hsame k hk
    · exact hmoved.others b fun k hk he => hb ⟨k, hk, he⟩
  change { (findPa s root va).2 with mem := (copyOut s root va source len).phys.mem } = s
  rw [hmem, h.findPa_eq hlen]

/-- The range has frames of its own, and the kernel buffers lie elsewhere and apart. -/
structure Separate (s : Phys) (root va source dst : Addr) (len : Word) : Prop where
  frames : ∀ i < len.toNat, ∀ j < len.toNat,
    pageNo (physByte s root va i) = pageNo (physByte s root va j) →
      pageNo (va + BitVec.ofNat 64 i) = pageNo (va + BitVec.ofNat 64 j)
  sourceApart : ∀ i < len.toNat, ∀ j < len.toNat,
    pageNo (source + BitVec.ofNat 64 i) ≠ pageNo (physByte s root va j)
  dstApart : ∀ i < len.toNat, ∀ j < len.toNat,
    pageNo (dst + BitVec.ofNat 64 i) ≠ pageNo (physByte s root va j)
  buffers : ∀ i < len.toNat, ∀ j < len.toNat,
    source + BitVec.ofNat 64 i ≠ dst + BitVec.ofNat 64 j

/-- The round trip works exactly when there is nothing to copy: the range holds the bytes of the
kernel buffer before, where each byte is translated on its own and where one translation serves
all. -/
theorem copies_roundTrip_iff {s : Phys} {root va source : Addr} {len : Word} {free : List Addr}
    (dst : Addr) (hs : Space s root free) (h0 : root ≠ 0)
    (h : RangeMapped s root va len) (hsep : Separate s root va source dst len) :
    RoundTrips s (copyOut s root va source len).phys
        (copyIn (copyOut s root va source len).phys root dst va len).phys root va source dst len ↔
      (len = 0 → HasTables s.mem root va) ∧ ∀ i < len.toNat,
        s.mem (physByte s root va i) = s.mem (source + BitVec.ofNat 64 i) ∧
          byteGot s root dst va len i = s.mem (source + BitVec.ofNat 64 i) := by
  have hcut : len.toNat % 2 ^ 32 ≤ len.toNat := Nat.mod_le _ _
  by_cases hlen : len.toNat = 0
  · have hzero : len = 0 := BitVec.eq_of_toNat_eq hlen
    have hnone : ∀ {p : Nat → Prop}, ∀ i < len.toNat, p i := fun i hi => by omega
    rw [HasTables, ← findPa_mem_iff hs h0]
    constructor
    · intro hr
      refine ⟨fun _ => ?_, hnone⟩
      exact mem_eq_of_empty (copyOut_moved source h) hzero fun b => hr.kept b hnone
    · rintro ⟨hmem, -⟩
      refine ⟨hnone, fun b _ => ?_, hnone⟩
      rw [(copyOut_moved source h).others b fun k hk => by omega]
      exact congrFun (hmem hzero) b
  · have hback := (copyIn_mem dst h (by rw [h.findPa_eq hlen])).1
    constructor
    · intro hr
      have hphys : (copyOut s root va source len).phys = s := by
        refine copyOut_phys h hlen fun k hk => ?_
        exact hr.kept _ fun i hi he => hsep.sourceApart k (by omega) i hi (congrArg pageNo he)
      refine ⟨fun hzero => absurd (congrArg BitVec.toNat hzero) hlen, fun i hi => ⟨?_, ?_⟩⟩
      · rw [← hr.stored i hi, hphys]
      · rw [← hr.back i hi, hphys]
        exact (hback i hi).symm
    · rintro ⟨-, hbytes⟩
      have hphys : (copyOut s root va source len).phys = s := by
        refine copyOut_phys h hlen fun k hk => ?_
        have hgot := (hbytes k (by omega)).2
        rw [byteGot, if_pos hk] at hgot
        rw [(copyOut_moved source h).bytes k hk, h.findPa_eq hlen, hgot]
      rw [hphys]
      exact ⟨fun i hi => (hbytes i hi).1, fun _ _ => rfl,
        fun i hi => (hback i hi).trans (hbytes i hi).2⟩

theorem twoPages_separate : Separate twoPages 0x1000 0xfff 0x30000 0x40000 2 := by
  obtain ⟨-, hbyte0, hbyte1⟩ := twoPages_bytes
  have hbuffers : ∀ i < (2 : Word).toNat, ∀ j < (2 : Word).toNat,
      (0x30000 : Addr) + BitVec.ofNat 64 i ≠ 0x40000 + BitVec.ofNat 64 j := by decide
  refine ⟨?_, ?_, ?_, hbuffers⟩
  all_goals
    refine forall_lt_two (forall_lt_two ?_ ?_) (forall_lt_two ?_ ?_)
    all_goals
      simp only [hbyte0, hbyte1]
      decide

theorem roundTrips_twoPages :
    ¬ RoundTrips twoPages (copyOut twoPages 0x1000 0xfff 0x30000 2).phys
      (copyIn (copyOut twoPages 0x1000 0xfff 0x30000 2).phys 0x1000 0x40000 0xfff 2).phys 0x1000
      0xfff 0x30000 0x40000 2 := by
  obtain ⟨free, hs, -⟩ := twoPages_tree
  obtain ⟨-, hbyte0, -⟩ := twoPages_bytes
  rw [copies_roundTrip_iff 0x40000 hs (by decide) (twoPages_range (by decide)) twoPages_separate]
  rintro ⟨-, hbytes⟩
  have hsame := (hbytes 0 (by decide)).1
  rw [hbyte0, twoPages_mem (by decide), twoPages_mem (by decide)] at hsame
  exact absurd hsame (by decide)

/-- Copying out two bytes leaves the bytes of the user as they were. -/
theorem not_copies_roundTrip : ¬ ∀ (s : Phys) (root va source dst : Addr) (len : Word)
    (free : List Addr), Space s root free → ¬ IsTable s.mem root 0 → RangeMapped s root va len →
    Separate s root va source dst len →
    RoundTrips s (copyOut s root va source len).phys
      (copyIn (copyOut s root va source len).phys root dst va len).phys root va source dst len := by
  intro h
  obtain ⟨free, hs, -⟩ := twoPages_tree
  obtain ⟨-, hbyte0, -⟩ := twoPages_bytes
  have hrange : RangeMapped twoPages 0x1000 0xfff 2 := twoPages_range (by decide)
  have htrip := h twoPages 0x1000 0xfff 0x30000 0x40000 2 free hs twoPages_frame_zero hrange
    twoPages_separate
  have hstored := htrip.stored 0 (by decide)
  have hapart : ∀ k < (2 : Word).toNat % 2 ^ 32,
      (0x10fff : Addr) ≠ 0x30000 + BitVec.ofNat 64 k := by
    decide
  have hold : (copyOut twoPages 0x1000 0xfff 0x30000 2).phys.mem 0x10fff =
      twoPages.mem 0x10fff := by
    rw [(copyOut_moved 0x30000 hrange).others 0x10fff hapart, hrange.findPa_eq (by decide)]
  rw [hbyte0, hold, twoPages_mem (by decide), twoPages_mem (by decide)] at hstored
  exact absurd hstored (by decide)

/-- `a` lies in a frame that the page table maps for a page of the range. -/
def InFrames (m : Mem) (root addr : Addr) (len : Word) (a : Addr) : Prop :=
  ∃ i < len.toNat, ∃ pte, PageTree.lookup m root (addr + BitVec.ofNat 64 i) = some pte ∧
    pte &&& pteV ≠ 0 ∧ pageNo a = pageNo ((pte >>> 10) <<< 12)

def InBuffer (buffer : Addr) (len : Word) (a : Addr) : Prop :=
  ∃ i < len.toNat, a = buffer + BitVec.ofNat 64 i

/-- Besides the kernel buffer, `copy_in` reads and `copy_out` writes frames of the range only, and
neither copies a byte when a page of the range is not mapped. -/
structure StaysInside (s : Phys) (root buffer addr : Addr) (len : Word) : Prop where
  reads : ∀ x ∈ (copyIn s root buffer addr len).moved,
    InFrames s.mem root addr len x.1 ∨ InBuffer buffer len x.1
  writes : ∀ x ∈ (copyOut s root addr buffer len).moved,
    InFrames s.mem root addr len x.2 ∨ InBuffer buffer len x.2
  whole : ∀ i < len.toNat, ¬ Mapped s.mem root (addr + BitVec.ofNat 64 i) →
    (copyIn s root buffer addr len).moved = [] ∧ (copyOut s root addr buffer len).moved = []

theorem mem_copied (s : Phys) (root buffer addr : Addr) (len : Word) (x : Addr × Addr) :
    (x ∈ (copyIn s root buffer addr len).moved ↔ ∃ k < len.toNat % 2 ^ 32,
      x = ((findPa s root addr).1 + BitVec.ofNat 64 k, buffer + BitVec.ofNat 64 k)) ∧
    (x ∈ (copyOut s root addr buffer len).moved ↔ ∃ k < len.toNat % 2 ^ 32,
      x = ((findPa s root addr).1 + BitVec.ofNat 64 k, buffer + BitVec.ofNat 64 k)) := by
  rw [← BitVec.toNat_setWidth]
  exact ⟨mem_moved_memmove _ _ _ _ _, mem_moved_memmove _ _ _ _ _⟩

theorem copied_eq_nil (s : Phys) (root addr : Addr) {len : Word} (buffer : Addr)
    (h : len.toNat % 2 ^ 32 = 0) :
    (copyIn s root buffer addr len).moved = [] ∧ (copyOut s root addr buffer len).moved = [] := by
  constructor
  · apply List.eq_nil_iff_forall_not_mem.mpr
    intro x hx
    obtain ⟨k, hk, -⟩ := (mem_copied s root buffer addr len x).1.mp hx
    omega
  · apply List.eq_nil_iff_forall_not_mem.mpr
    intro x hx
    obtain ⟨k, hk, -⟩ := (mem_copied s root buffer addr len x).2.mp hx
    omega

/-- The copies stay inside exactly when nothing is copied, the length being a multiple of 2^32, or
the whole range is mapped and what follows its first physical byte belongs to it. -/
theorem staysInside_iff (s : Phys) (root buffer addr : Addr) (len : Word) :
    StaysInside s root buffer addr len ↔ len.toNat % 2 ^ 32 = 0 ∨
      (∀ i < len.toNat, Mapped s.mem root (addr + BitVec.ofNat 64 i)) ∧
        ∀ i < len.toNat % 2 ^ 32,
          InFrames s.mem root addr len ((findPa s root addr).1 + BitVec.ofNat 64 i) ∨
            InBuffer buffer len ((findPa s root addr).1 + BitVec.ofNat 64 i) := by
  have hcut : len.toNat % 2 ^ 32 ≤ len.toNat := Nat.mod_le _ _
  constructor
  · intro h
    by_cases hlen : len.toNat % 2 ^ 32 = 0
    · exact .inl hlen
    · refine .inr ⟨fun i hi => ?_, fun i hi => ?_⟩
      · by_contra hunmapped
        have hnil := (h.whole i hi hunmapped).1
        have hfirst := (mem_copied s root buffer addr len _).1.mpr ⟨0, by omega, rfl⟩
        rw [hnil] at hfirst
        cases hfirst
      · exact h.reads _ ((mem_copied s root buffer addr len _).1.mpr ⟨i, hi, rfl⟩)
  · rintro (hlen | ⟨hmapped, hfollow⟩)
    · obtain ⟨hin, hout⟩ := copied_eq_nil s root addr buffer hlen
      refine ⟨fun x hx => ?_, fun x hx => ?_, fun _ _ _ => ⟨hin, hout⟩⟩
      · rw [hin] at hx
        cases hx
      · rw [hout] at hx
        cases hx
    · refine ⟨fun x hx => ?_, fun x hx => ?_, fun i hi hun => absurd (hmapped i hi) hun⟩
      · obtain ⟨k, hk, rfl⟩ := (mem_copied s root buffer addr len x).1.mp hx
        exact hfollow k hk
      · obtain ⟨k, hk, rfl⟩ := (mem_copied s root buffer addr len x).2.mp hx
        exact .inr ⟨k, by omega, rfl⟩

/-- Copying in one byte from an unmapped address reads a byte of frame 0. -/
theorem not_staysInside : ¬ ∀ (s : Phys) (root buffer addr : Addr) (len : Word) (free : List Addr),
    Space s root free → ¬ IsTable s.mem root 0 → StaysInside s root buffer addr len := by
  intro h
  have h0 : ¬ IsTable emptyTree.mem 0x1000 0 := fun h0 =>
    absurd (isTable_zeroed (entry_fill_zero (by decide)) h0) (by decide)
  have hinside := h emptyTree 0x1000 0x30000 0 1 _ emptyTree_space h0
  have hnil := (hinside.whole 0 (by decide) (emptyTree_not_mapped _)).1
  have hfirst := (mem_copied emptyTree 0x1000 0x30000 0 1 _).1.mpr ⟨0, by decide, rfl⟩
  rw [hnil] at hfirst
  cases hfirst

end Raynix.CopyUser
