import Raynix.MkfsReadBack

namespace Raynix.MkfsImage

open Lib.Bytes Mkfs MkfsLayout MkfsContents MkfsReadBack

/-- The file blocks below `ceil(size/BSIZE)` of the inodes handed out, and the indirect blocks to
reach them. -/
def InUse (s : Fs) : Nat × Place → Prop := Within (Handed s) fun i => (inode s i).size.toNat

def address (s : Fs) (p : Nat × Place) : Nat := addrOf (inode s p.1) s.disk p.2

/-- The bit of block `b` in the bitmap. -/
def Marked (s : Fs) (b : Nat) : Prop := (s.disk 45 (b / 8)).getLsbD (b % 8) = true

structure WellFormed (P : Param) (s : Fs) : Prop where
  mapped : ∀ i k, InUse s (i, .data k) →
    k < 268 ∧ address s (i, .data k) ≠ 0 ∧ (12 ≤ k → address s (i, .indirect) ≠ 0)
  distinct : ∀ p q, InUse s p → InUse s q → address s p = address s q → p = q
  range : ∀ p, InUse s p → nmeta P.fssize ≤ address s p ∧ address s p < s.freeblock
  freeblock_le : s.freeblock ≤ P.fssize
  marked_iff : ∀ b < 8192, Marked s b ↔ b < s.freeblock

/-- An image with `n` files: their inodes and the root with `n + 2` directory entries. -/
structure Populated (P : Param) (s : Fs) (n : Nat) (c : Nat → List Byte) : Prop
    extends Image P s c where
  freeinode_eq : s.freeinode = n + 2
  root_length : (c 1).length = 16 * (n + 2)

variable {P : Param} {s s' : Fs} {c : Nat → List Byte} {i n : Nat} {d : Dinode}

theorem dirent_length (inum : Nat) (name : List Byte) : (dirent inum name).length = 16 := by
  simp only [dirent, List.length_cons, List.length_append, List.length_take,
    List.length_replicate]
  omega

theorem Populated.root (Q : Populated P s n c) : Handed s 1 := by
  refine ⟨le_rfl, ?_⟩
  rw [Q.freeinode_eq]
  omega

theorem pieces_spec {pieces : List { p : List Byte // 0 < p.length ∧ p.length ≤ 1024 }}
    (Im : Image P s c) (hi : Handed s i)
    (h : pieces.foldlM (fun s p => iappend s i p.1) s = some s') :
    ∃ c', Image P s' c' ∧ s'.freeinode = s.freeinode ∧ ∀ j, j ≠ i → c' j = c j := by
  induction pieces generalizing s c with
  | nil =>
    obtain rfl := Option.some.inj h
    exact ⟨c, Im, rfl, fun _ _ => rfl⟩
  | cons p pieces ih =>
    simp only [List.foldlM_cons, Option.bind_eq_bind, Option.bind_eq_some_iff] at h
    obtain ⟨s₁, h₁, h⟩ := h
    obtain ⟨Im₁, hfree⟩ := Im.iappend hi h₁
    have hi₁ : Handed s₁ i := ⟨hi.1, hfree ▸ hi.2⟩
    obtain ⟨c', Im', hfree', hc'⟩ := ih Im₁ hi₁ h
    refine ⟨c', Im', hfree'.trans hfree, fun j hj => ?_⟩
    rw [hc' j hj, Function.update_of_ne hj]

theorem makeRoot_spec (h : makeRoot (format P) = some s) : ∃ c, Populated P s 0 c := by
  obtain ⟨Im, hfree, -⟩ := format_image P
  simp only [makeRoot, Option.bind_eq_bind, Option.bind_eq_some_iff, Prod.exists] at h
  obtain ⟨s₁, i, hi, h⟩ := h
  obtain ⟨rfl, hfree₁, Im₁, -⟩ := Im.ialloc (by rw [hfree]; decide) hi
  rw [hfree] at h hfree₁ Im₁
  rw [if_pos rfl, Option.bind_eq_some_iff] at h
  obtain ⟨s₂, h₂, h⟩ := h
  have hH₁ : Handed s₁ 1 := ⟨le_rfl, by rw [hfree₁]; decide⟩
  obtain ⟨Im₂, hfree₂⟩ := Im₁.iappend hH₁ h₂
  have hH₂ : Handed s₂ 1 := ⟨le_rfl, by rw [hfree₂, hfree₁]; decide⟩
  obtain ⟨Im₃, hfree₃⟩ := Im₂.iappend hH₂ h
  refine ⟨_, Im₃, by rw [hfree₃, hfree₂, hfree₁], ?_⟩
  simp only [Function.update_self, List.nil_append, List.length_append, dirent_length]

/-- The three parts of an iteration that goes through: an inode, its name in the root, its data. -/
theorem addFile_cases {file : Input} (h : addFile s file = some s') :
    ∃ (pieces : List { p : List Byte // 0 < p.length ∧ p.length ≤ 1024 }) (s₁ : Fs) (i : Nat)
      (s₂ : Fs), ialloc s 2 = some (s₁, i) ∧
      iappend s₁ 1 (dirent i (skipUnderscore (shortname file.path))) = some s₂ ∧
      pieces.foldlM (fun s p => iappend s i p.1) s₂ = some s' := by
  rw [addFile] at h
  split at h
  · cases h
  · simp only [Option.bind_eq_bind, Option.bind_eq_some_iff, Prod.exists] at h
    obtain ⟨pieces, -, s₁, i, hi, s₂, h₂, h⟩ := h
    exact ⟨pieces, s₁, i, s₂, hi, h₂, h⟩

theorem addFile_spec (Q : Populated P s n c) (hn : n < 206) {file : Input}
    (h : addFile s file = some s') : ∃ c', Populated P s' (n + 1) c' := by
  obtain ⟨pieces, s₁, i, s₂, hi, h₂, h⟩ := addFile_cases h
  have hfree := Q.freeinode_eq
  obtain ⟨rfl, hfree₁, Im₁, -⟩ := Q.toImage.ialloc (by omega) hi
  have hH₁ : Handed s₁ 1 := ⟨le_rfl, by omega⟩
  obtain ⟨Im₂, hfree₂⟩ := Im₁.iappend hH₁ h₂
  obtain ⟨c', Im', hfree', hc'⟩ := pieces_spec Im₂ (i := s.freeinode) ⟨by omega, by omega⟩ h
  refine ⟨c', Im', by omega, ?_⟩
  have hne : 1 ≠ s.freeinode := by omega
  rw [hc' 1 hne, Function.update_self, Function.update_of_ne hne, List.length_append,
    Q.root_length, dirent_length]
  omega

theorem addFiles_spec (Q : Populated P s n c) {files : List Input}
    (hn : n + files.length ≤ 206) (h : files.foldlM addFile s = some s') :
    ∃ c', Populated P s' (n + files.length) c' := by
  induction files generalizing s n c with
  | nil =>
    obtain rfl := Option.some.inj h
    exact ⟨c, Q⟩
  | cons file files ih =>
    rw [List.length_cons] at hn ⊢
    simp only [List.foldlM_cons, Option.bind_eq_bind, Option.bind_eq_some_iff] at h
    obtain ⟨s₁, h₁, h⟩ := h
    obtain ⟨c₁, Q₁⟩ := addFile_spec Q (by omega) h₁
    obtain ⟨c', Q'⟩ := ih Q₁ (by omega) h
    refine ⟨c', ?_⟩
    rwa [show n + (files.length + 1) = n + 1 + files.length by omega]

/-- The size that `fixRoot` gives a directory of `off` bytes. -/
def fixedSize (off : Nat) : Nat := (off / 1024 + 1) * 1024

/-- The image at `exit(0)`, from the one with all files. -/
def final (s : Fs) (off : Nat) : Fs :=
  let t := putInode s 1 { inode s 1 with size := BitVec.ofNat 32 (fixedSize off) }
  { t with
    disk := Function.update t.disk 45 (bitmap s.freeblock)
    writes := t.writes ++ [(.bitmap, 45)] }

theorem main_spec {files : List Input} (hn : files.length ≤ 206) (h : main P files = some s) :
    ∃ t c, Populated P t files.length c ∧ s = final t (16 * (files.length + 2)) := by
  simp only [main, Option.bind_eq_bind, Option.bind_eq_some_iff] at h
  obtain ⟨s₁, h₁, t, ht, s₂, h₂, h⟩ := h
  obtain ⟨c₁, Q₁⟩ := makeRoot_spec h₁
  obtain ⟨c, Q⟩ := addFiles_spec Q₁ (by omega) ht
  rw [Nat.zero_add] at Q
  simp only [fixRoot, Option.bind_eq_bind, Option.bind_eq_some_iff, xint_eq] at h₂
  obtain ⟨d, hd, h₂⟩ := h₂
  obtain ⟨-, rfl⟩ := rinode_eq_some (by decide) hd
  rw [Q.size_eq 1 Q.root, Q.root_length] at h₂
  obtain rfl := winode_eq_some (by decide) h₂
  rw [balloc] at h
  split at h
  · refine ⟨t, c, Q, ?_⟩
    have hlen := Q.len_eq
    have hmeta := P.meta_fits
    have hge := nmeta_ge P.fssize
    rw [← Option.some.inj h, wsect, final, sector_eq (by decide)]
    congr 1
    change max t.len 46 = t.len
    omega
  · cases h

theorem bitmap_getLsbD (used b : Nat) :
    (bitmap used (b / 8)).getLsbD (b % 8) = true ↔ b < used := by
  induction used with
  | zero => simp [bitmap]
  | succ n ih =>
    have hsucc : bitmap (n + 1) = Function.update (bitmap n) (n / 8)
        (bitmap n (n / 8) ||| BitVec.ofNat 8 (1 <<< (n % 8))) := by
      simp only [bitmap, List.range_succ, List.foldl_append, List.foldl_cons, List.foldl_nil]
    rw [hsucc, Function.update_apply]
    split
    · rename_i hb
      rw [BitVec.getLsbD_or, ← hb, Bool.or_eq_true, ih, BitVec.getLsbD_ofNat, Nat.one_shiftLeft,
        Nat.testBit_two_pow]
      simp only [Bool.and_eq_true, decide_eq_true_eq]
      omega
    · rw [ih]
      omega

theorem final_inode (off : Nat) (hi : i < 208) :
    inode (final s off) i = Function.update (inode s) 1
      { inode s 1 with size := BitVec.ofNat 32 (fixedSize off) } i := by
  have hb := iblock_lt hi
  rw [← inode_putInode]
  simp only [inode, final]
  rw [Function.update_of_ne (by omega)]

theorem final_disk {b : Nat} (hb : nmeta P.fssize ≤ b) (off : Nat) :
    (final s off).disk b = s.disk b := by
  have hge := nmeta_ge P.fssize
  simp only [final]
  rw [Function.update_of_ne (by omega), putInode_disk_of_le (by decide) hb]

theorem final_represents (Q : Populated P s n c) (off : Nat) :
    Represents (Handed s) (nmeta P.fssize) (inode (final s off)) (final s off).disk s.freeblock
      c := by
  apply Q.represents.congr
  · intro j hj
    rw [final_inode off (Nat.lt_of_lt_of_le hj.2 Q.freeinode_le)]
    by_cases hj1 : j = 1
    · subst hj1
      rw [Function.update_self]
    · rw [Function.update_of_ne hj1]
  · exact fun b hb => final_disk hb off

theorem final_size (Q : Populated P s n c) (hi : Handed s i) :
    (inode (final s (16 * (n + 2))) i).size.toNat =
      if i = 1 then fixedSize (16 * (n + 2)) else (c i).length := by
  have hn := Q.freeinode_eq
  have hle := Q.freeinode_le
  rw [final_inode _ (Nat.lt_of_lt_of_le hi.2 Q.freeinode_le)]
  split
  · subst ‹i = 1›
    rw [Function.update_self, BitVec.toNat_ofNat, Nat.mod_eq_of_lt]
    rw [fixedSize]
    omega
  · rw [Function.update_of_ne ‹¬i = 1›, Q.size_eq i hi]

theorem inUse_iff (Q : Populated P s n c) (hn : ¬64 ∣ n + 2) (p : Nat × Place) :
    InUse (final s (16 * (n + 2))) p ↔ Within (Handed s) (fun i => (c i).length) p := by
  have hblocks : ∀ i, Handed s i →
      blocks (inode (final s (16 * (n + 2))) i).size.toNat = blocks (c i).length := by
    intro i hi
    rw [final_size Q hi]
    split
    · subst ‹i = 1›
      rw [Q.root_length, fixedSize, blocks, blocks]
      omega
    · rfl
  obtain ⟨i, k | _⟩ := p
  · exact and_congr_right fun hi => by rw [hblocks i hi]
  · exact and_congr_right fun hi => by rw [hblocks i hi]

theorem final_wellFormed (Q : Populated P s n c) (hn : ¬64 ∣ n + 2) :
    WellFormed P (final s (16 * (n + 2))) := by
  have M := (final_represents Q (16 * (n + 2))).mapped
  have hu := inUse_iff Q hn
  refine ⟨?_, ?_, ?_, ?_, ?_⟩
  · intro i k h
    have hw := (hu _).mp h
    refine ⟨M.lt_maxfile i k hw, Nat.ne_of_gt (M.addr_pos hw), fun hk => ?_⟩
    exact Nat.ne_of_gt (M.addr_pos (M.via_indirect i k hw hk))
  · exact fun p q hp hq => M.bump.inj p q ((hu p).mp hp) ((hu q).mp hq)
  · exact fun p hp => ⟨M.bump.lo_le p ((hu p).mp hp), M.bump.lt_hi p ((hu p).mp hp)⟩
  · exact Q.len_eq ▸ Q.freeblock_le
  · intro b _
    simp only [Marked, final, Function.update_self]
    exact bitmap_getLsbD s.freeblock b

/-- With full directory blocks the root's new last block has no address. -/
theorem final_not_wellFormed (Q : Populated P s n c) (hn : 64 ∣ n + 2) :
    ¬WellFormed P (final s (16 * (n + 2))) := by
  intro hW
  have hle := Q.freeinode_le
  have hfree := Q.freeinode_eq
  have hk : 16 * (n + 2) / 1024 < 12 := by omega
  have hin : InUse (final s (16 * (n + 2))) (1, .data (16 * (n + 2) / 1024)) := by
    refine ⟨Q.root, ?_⟩
    change 16 * (n + 2) / 1024 < blocks (inode (final s (16 * (n + 2))) 1).size.toNat
    rw [final_size Q Q.root, if_pos rfl, fixedSize, blocks]
    omega
  have hout : ¬Within (Handed s) (fun i => (c i).length) (1, slotPlace (16 * (n + 2) / 1024)) := by
    rw [slotPlace_direct hk]
    rintro ⟨-, h⟩
    simp only [Q.root_length, blocks] at h
    omega
  obtain ⟨-, hne, -⟩ := hW.mapped _ _ hin
  apply hne
  have h0 := (final_represents Q (16 * (n + 2))).mapped.slot_zero 1 _ Q.root (by omega) hout
  rw [address, addrOf_direct _ _ hk, h0]
  rfl

theorem iappend_dirent_isSome (Im : Image P s c) (hroot : Handed s 1)
    (hlen : (c 1).length % 16 = 0) (hlt : (c 1).length < 12 * 1024) (hfree : s.freeblock < s.len)
    (inum : Nat) (name : List Byte) :
    ∃ s', iappend s 1 (dirent inum name) = some s' ∧ s'.freeblock ≤ s.freeblock + 1 := by
  have hone : rounds (c 1).length (dirent inum name).length = 1 := by
    rw [rounds, dirent_length, if_neg (by decide)]
    omega
  have hsize := dirent_length inum name
  obtain ⟨s', h, hb⟩ := Im.iappend_isSome hroot (p := dirent inum name) (by omega) (by omega)
  exact ⟨s', h, by omega⟩

theorem pieces_isSome (pieces : List { p : List Byte // 0 < p.length ∧ p.length ≤ 1024 })
    (Im : Image P s c) (hi : Handed s i)
    (hdirect : (c i).length + 1024 * pieces.length ≤ 12 * 1024)
    (hfree : s.freeblock + 2 * pieces.length ≤ s.len) :
    ∃ s', pieces.foldlM (fun s p => iappend s i p.1) s = some s' ∧
      s'.freeblock ≤ s.freeblock + 2 * pieces.length := by
  induction pieces generalizing s c with
  | nil => exact ⟨s, rfl, le_rfl⟩
  | cons p pieces ih =>
    rw [List.length_cons] at hdirect hfree
    have hp := p.2.2
    obtain ⟨s₁, c₁, h₁, hi₁, hb₁, Im₁, hc₁, -⟩ :=
      Im.step_iappend hi hp (by omega) (by omega)
    have hl := Im.len_eq
    have hl₁ := Im₁.len_eq
    have hlen : (c₁ i).length = (c i).length + p.1.length := by rw [hc₁, List.length_append]
    obtain ⟨s', h', hb'⟩ := ih Im₁ ⟨hi.1, hi₁ ▸ hi.2⟩ (by omega) (by omega)
    rw [List.foldlM_cons, List.length_cons]
    change iappend s i p.1 = some s₁ at h₁
    simp only [h₁, Option.bind_eq_bind, Option.bind_some]
    exact ⟨s', h', by omega⟩

/-- `open` finds the file, which has no `/` in its name and is read in up to `k` pieces. -/
structure Readable (k : Nat) (file : Input) : Prop where
  name : 0x2f ∉ shortname file.path
  pieces : ∃ pieces, file.pieces = some pieces ∧ pieces.length ≤ k

theorem addFile_isSome (Q : Populated P s n c) (hn : n < 206) {k : Nat} (hk : k ≤ 12)
    {file : Input} (hfile : Readable k file) (hfree : s.freeblock + (2 * k + 1) ≤ s.len) :
    ∃ s', addFile s file = some s' ∧ s'.freeblock ≤ s.freeblock + (2 * k + 1) := by
  obtain ⟨pieces, hpieces, hlen⟩ := hfile.pieces
  have hi := Q.freeinode_eq
  have hroot := Q.root_length
  obtain ⟨s₁, h₁⟩ := Q.toImage.ialloc_isSome (by omega) 2
  obtain ⟨-, hi₁, Im₁, hb₁⟩ := Q.toImage.ialloc (by omega) h₁
  have hne : 1 ≠ s.freeinode := by omega
  have hlen₁ : (Function.update c s.freeinode [] 1).length = 16 * (n + 2) := by
    rw [Function.update_of_ne hne, hroot]
  have hl₁ := Im₁.len_eq
  have hl := Q.len_eq
  have hH₁ : Handed s₁ 1 := ⟨le_rfl, by omega⟩
  obtain ⟨s₂, h₂, hb₂⟩ := iappend_dirent_isSome Im₁ hH₁ (by omega) (by omega) (by omega)
    s.freeinode (skipUnderscore (shortname file.path))
  obtain ⟨Im₂, hi₂⟩ := Im₁.iappend hH₁ h₂
  have hl₂ := Im₂.len_eq
  have hlen₂ : (Function.update (Function.update c s.freeinode []) 1
      (Function.update c s.freeinode [] 1 ++
        dirent s.freeinode (skipUnderscore (shortname file.path))) s.freeinode).length = 0 := by
    rw [Function.update_of_ne hne.symm, Function.update_self]
    rfl
  have hH₂ : Handed s₂ s.freeinode := ⟨by omega, by omega⟩
  obtain ⟨s₃, h₃, hb₃⟩ := pieces_isSome pieces Im₂ hH₂ (by omega) (by omega)
  refine ⟨s₃, ?_, by omega⟩
  rw [addFile, if_neg hfile.name]
  simp only [hpieces, h₁, h₂, Option.bind_eq_bind, Option.bind_some]
  exact h₃

theorem addFiles_isSome {k : Nat} (hk : k ≤ 12) {files : List Input}
    (hfiles : ∀ file ∈ files, Readable k file) (Q : Populated P s n c)
    (hn : n + files.length ≤ 206) (hfree : s.freeblock + files.length * (2 * k + 1) ≤ s.len) :
    ∃ s', files.foldlM addFile s = some s' ∧
      s'.freeblock ≤ s.freeblock + files.length * (2 * k + 1) := by
  induction files generalizing s n c with
  | nil => exact ⟨s, rfl, Nat.le_add_right _ _⟩
  | cons file files ih =>
    rw [List.length_cons] at hn hfree ⊢
    rw [Nat.succ_mul] at hfree ⊢
    obtain ⟨s₁, h₁, hb₁⟩ :=
      addFile_isSome Q (by omega) hk (hfiles file List.mem_cons_self) (by omega)
    obtain ⟨c₁, Q₁⟩ := addFile_spec Q (by omega) h₁
    have hl := Q.len_eq
    have hl₁ := Q₁.len_eq
    obtain ⟨s', h', hb'⟩ := ih (fun f hf => hfiles f (List.mem_cons_of_mem _ hf)) Q₁ (by omega)
      (by omega)
    refine ⟨s', ?_, by omega⟩
    rw [List.foldlM_cons, h₁]
    exact h'

theorem makeRoot_isSome (hroom : nmeta P.fssize + 2 ≤ P.fssize) :
    ∃ s, makeRoot (format P) = some s ∧ s.freeblock ≤ nmeta P.fssize + 2 := by
  obtain ⟨Im, hi, hb⟩ := format_image P
  have hl := Im.len_eq
  obtain ⟨s₁, h₁⟩ := Im.ialloc_isSome (by omega) 1
  obtain ⟨-, hi₁, Im₁, hb₁⟩ := Im.ialloc (by omega) h₁
  rw [hi] at h₁ Im₁
  have hl₁ := Im₁.len_eq
  have hH₁ : Handed s₁ 1 := ⟨le_rfl, by omega⟩
  obtain ⟨s₂, h₂, hb₂⟩ := iappend_dirent_isSome Im₁ hH₁ (by simp) (by simp) (by omega) 1 [0x2e]
  obtain ⟨Im₂, hi₂⟩ := Im₁.iappend hH₁ h₂
  have hl₂ := Im₂.len_eq
  have hlen₂ : (Function.update (Function.update (fun _ => ([] : List Byte)) 1 []) 1
      (Function.update (fun _ => []) 1 [] 1 ++ dirent 1 [0x2e]) 1).length = 16 := by
    rw [Function.update_self, Function.update_self, List.nil_append, dirent_length]
  obtain ⟨s₃, h₃, hb₃⟩ := iappend_dirent_isSome Im₂ ⟨le_rfl, by omega⟩ (by omega) (by omega)
    (by omega) 1 [0x2e, 0x2e]
  refine ⟨s₃, ?_, by omega⟩
  simp only [makeRoot, h₁, Option.bind_eq_bind, Option.bind_some, if_true, h₂, h₃]

/-- No call fails for up to 206 files that leave a block for the bitmap. -/
theorem main_isSome {k : Nat} (hk : k ≤ 12) {files : List Input}
    (hfiles : ∀ file ∈ files, Readable k file) (hn : files.length ≤ 206)
    (hroom : files.length * (2 * k + 1) ≤ 952) : ∃ s, main xv6 files = some s := by
  have hmeta : nmeta xv6.fssize = 46 := rfl
  have hsize : xv6.fssize = 1000 := rfl
  obtain ⟨s₁, h₁, hb₁⟩ := makeRoot_isSome (P := xv6) (by omega)
  obtain ⟨c₁, Q₁⟩ := makeRoot_spec h₁
  have hl₁ := Q₁.len_eq
  obtain ⟨s₂, h₂, hb₂⟩ := addFiles_isSome hk hfiles Q₁ (by omega) (by omega)
  obtain ⟨c₂, Q₂⟩ := addFiles_spec Q₁ (by omega) h₂
  obtain ⟨s₃, h₃, hb₃⟩ := winode_isSome
    (d := { inode s₂ 1 with size := BitVec.ofNat 32 (fixedSize (inode s₂ 1).size.toNat) })
    (Q₂.toImage.iblock_lt_len (i := 1) (by decide)) Q₂.toImage.len_lt
  have hfix : fixRoot s₂ = some s₃ := by
    rw [fixRoot, Q₂.toImage.rinode_eq (by decide)]
    simp only [Option.bind_eq_bind, Option.bind_some, xint_eq]
    exact h₃
  refine ⟨wsect s₃ .bitmap 45 (bitmap s₃.freeblock), ?_⟩
  simp only [main, h₁, h₂, hfix, Option.bind_eq_bind, Option.bind_some]
  rw [balloc, if_pos (by omega)]

/-- A finished image is well formed unless the directory entries fill their last block. -/
theorem wellFormed_iff (P : Param) (files : List Input) (s : Fs) (h : main P files = some s) :
    (files.length ≤ 206 ∧ ¬64 ∣ files.length + 2 → WellFormed P s) ∧
      (files.length ≤ 206 → WellFormed P s → ¬64 ∣ files.length + 2) := by
  constructor
  · rintro ⟨hn, hdvd⟩
    obtain ⟨t, c, Q, rfl⟩ := main_spec hn h
    exact final_wellFormed Q hdvd
  · intro hn hW hdvd
    obtain ⟨t, c, Q, rfl⟩ := main_spec hn h
    exact final_not_wellFormed Q hdvd hW

/-- An empty file `a`. -/
def emptyFile : Input := ⟨[0x61], some []⟩

theorem main_emptyFiles {n : Nat} (hn : n ≤ 206) :
    ∃ s, main xv6 (List.replicate n emptyFile) = some s := by
  have hlen : (List.replicate n emptyFile).length = n := List.length_replicate
  refine main_isSome (k := 0) (by decide) (fun file hfile => ?_) (by omega) (by omega)
  rw [List.eq_of_mem_replicate hfile]
  exact ⟨by decide, [], rfl, le_rfl⟩

/-- With 62 empty files the root directory has 64 entries. -/
theorem wellFormed_fails : ∃ s, main xv6 (List.replicate 62 emptyFile) = some s ∧
    ¬WellFormed xv6 s := by
  obtain ⟨s, hs⟩ := main_emptyFiles (n := 62) (by decide)
  obtain ⟨t, c, Q, rfl⟩ := main_spec (by decide) hs
  exact ⟨_, hs, final_not_wellFormed Q (by decide)⟩

/-- A file `b` of 1003 bytes, read in two pieces. -/
def filledFile : Input :=
  ⟨[0x62], some [⟨List.replicate 1000 7, by rw [List.length_replicate]; decide⟩,
    ⟨[1, 2, 3], by decide⟩]⟩

theorem wellFormed_iff_filled :
    ∃ s, main xv6 [emptyFile, filledFile] = some s ∧ WellFormed xv6 s := by
  have hfiles : ∀ file ∈ [emptyFile, filledFile], Readable 2 file := by
    intro file hfile
    obtain rfl | rfl : file = emptyFile ∨ file = filledFile := by simpa using hfile
    · exact ⟨by decide, [], rfl, by decide⟩
    · exact ⟨by decide, _, rfl, le_rfl⟩
  obtain ⟨s, hs⟩ := main_isSome (by decide) hfiles (by decide) (by decide)
  exact ⟨s, hs, (wellFormed_iff xv6 _ s hs).1 ⟨by decide, by decide⟩⟩

end Raynix.MkfsImage
