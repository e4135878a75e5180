import Raynix.MkfsImage

namespace Raynix.MkfsInodes

open Lib.Bytes Mkfs MkfsLayout MkfsContents MkfsReadBack MkfsImage

/-- The inodes handed out stay below `NINODES`, `winode` writes to inode blocks only, and no other
part of the image is written over the block of an inode handed out. -/
structure TableBound (s : Fs) : Prop where
  handed_lt : ∀ i, Handed s i → i < 200
  inode_writes : ∀ i b, (.inode i, b) ∈ s.writes → 32 ≤ b ∧ b < 45
  untouched : ∀ part b i, (part, b) ∈ s.writes → Handed s i → b = iblock i →
    part = .zeroes ∨ ∃ j, part = .inode j

variable {P : Param} {s s' : Fs} {d d' : Dinode} {i n : Nat} {c : Nat → List Byte}

theorem winode_freeinode (h : winode s i d = some s') : s'.freeinode = s.freeinode := by
  simp only [winode, Option.bind_eq_bind, Option.bind_eq_some_iff, Option.some.injEq] at h
  obtain ⟨_, -, rfl⟩ := h
  rfl

theorem allocAddr_freeinode {k : Nat} (h : allocAddr s d k = (s', d')) :
    s'.freeinode = s.freeinode := by
  rw [allocAddr] at h
  split at h
  all_goals
    obtain ⟨rfl, -⟩ := Prod.mk.inj h
    rfl

theorem indirectBlock_freeinode {k x : Nat} (h : indirectBlock s d k = some (s', x)) :
    s'.freeinode = s.freeinode := by
  simp only [indirectBlock, Option.bind_eq_bind, Option.bind_eq_some_iff] at h
  obtain ⟨_, -, h⟩ := h
  split at h
  all_goals
    obtain ⟨rfl, -⟩ := Prod.mk.inj (Option.some.inj h)
    rfl

theorem dataBlock_freeinode {k x : Nat} (h : dataBlock s d k = some (s', d', x)) :
    s'.freeinode = s.freeinode := by
  rw [dataBlock] at h
  split at h
  · generalize hr : allocAddr s d k = r at h
    obtain ⟨s₁, d₁⟩ := r
    obtain ⟨rfl, -⟩ := Prod.mk.inj (Option.some.inj h)
    exact allocAddr_freeinode hr
  · generalize hr : allocAddr s d 12 = r at h
    obtain ⟨s₁, d₁⟩ := r
    simp only [Option.bind_eq_bind, Option.bind_eq_some_iff, Prod.exists, Option.some.injEq,
      Prod.mk.injEq] at h
    obtain ⟨s₂, x', hind, rfl, -, -⟩ := h
    exact (indirectBlock_freeinode hind).trans (allocAddr_freeinode hr)

theorem appendBlock_freeinode {off : Nat} {p : List Byte}
    (h : appendBlock s d off p = some (s', d')) : s'.freeinode = s.freeinode := by
  rw [appendBlock] at h
  split at h
  · simp only [Option.bind_eq_bind, Option.bind_eq_some_iff, Prod.exists, Option.some.injEq,
      Prod.mk.injEq] at h
    obtain ⟨s₁, d₁, x, hblock, buf, -, rfl, -⟩ := h
    change s₁.freeinode = s.freeinode
    exact dataBlock_freeinode hblock
  · cases h

theorem iappendLoop_freeinode {off off' : Nat} {p : List Byte}
    (h : iappendLoop s d off p = some (s', d', off')) : s'.freeinode = s.freeinode := by
  fun_induction iappendLoop s d off p with
  | case1 s d off p hp hnone => cases h
  | case2 s d off p hp s₁ d₁ hblock ih => exact (ih h).trans (appendBlock_freeinode hblock)
  | case3 s d off p hp =>
    obtain ⟨rfl, -⟩ := Prod.mk.inj (Option.some.inj h)
    rfl

theorem iappend_freeinode {p : List Byte} (h : iappend s i p = some s') :
    s'.freeinode = s.freeinode := by
  simp only [iappend, Option.bind_eq_bind, Option.bind_eq_some_iff, Prod.exists] at h
  obtain ⟨d, -, s₁, d₁, off, hloop, hw⟩ := h
  exact (winode_freeinode hw).trans (iappendLoop_freeinode hloop)

theorem ialloc_freeinode {type : BitVec 16} (h : ialloc s type = some (s', i)) :
    s'.freeinode = s.freeinode + 1 := by
  simp only [ialloc, Option.bind_eq_bind, Option.bind_eq_some_iff, Option.some.injEq,
    Prod.mk.injEq] at h
  obtain ⟨s₁, hw, rfl, -⟩ := h
  exact winode_freeinode hw

theorem pieces_freeinode {pieces : List { p : List Byte // 0 < p.length ∧ p.length ≤ 1024 }}
    (h : pieces.foldlM (fun s p => iappend s i p.1) s = some s') :
    s'.freeinode = s.freeinode := by
  induction pieces generalizing s with
  | nil =>
    obtain rfl := Option.some.inj h
    rfl
  | cons p pieces ih =>
    simp only [List.foldlM_cons, Option.bind_eq_bind, Option.bind_eq_some_iff] at h
    obtain ⟨s₁, h₁, h⟩ := h
    exact (ih h).trans (iappend_freeinode h₁)

theorem addFile_freeinode {file : Input} (h : addFile s file = some s') :
    s'.freeinode = s.freeinode + 1 := by
  obtain ⟨pieces, s₁, i, s₂, hi, h₂, h⟩ := addFile_cases h
  rw [pieces_freeinode h, iappend_freeinode h₂, ialloc_freeinode hi]

theorem addFiles_freeinode {files : List Input} (h : files.foldlM addFile s = some s') :
    s'.freeinode = s.freeinode + files.length := by
  induction files generalizing s with
  | nil =>
    obtain rfl := Option.some.inj h
    rfl
  | cons file files ih =>
    simp only [List.foldlM_cons, Option.bind_eq_bind, Option.bind_eq_some_iff] at h
    obtain ⟨s₁, h₁, h⟩ := h
    rw [ih h, addFile_freeinode h₁, List.length_cons]
    omega

/-- Nothing bounds the inode numbers: each file gets the next one. -/
theorem main_freeinode {files : List Input} (h : main P files = some s) :
    s.freeinode = files.length + 2 := by
  simp only [main, Option.bind_eq_bind, Option.bind_eq_some_iff] at h
  obtain ⟨s₁, h₁, s₂, h₂, s₃, h₃, h⟩ := h
  obtain ⟨c₁, Q₁⟩ := makeRoot_spec h₁
  simp only [fixRoot, Option.bind_eq_bind, Option.bind_eq_some_iff] at h₃
  obtain ⟨d, -, h₃⟩ := h₃
  rw [balloc] at h
  split at h
  · rw [← Option.some.inj h]
    change s₃.freeinode = _
    rw [winode_freeinode h₃, addFiles_freeinode h₂, Q₁.freeinode_eq]
    omega
  · cases h

theorem handed_last {files : List Input} (h : main P files = some s) :
    Handed s (files.length + 1) := by
  refine ⟨Nat.succ_pos _, ?_⟩
  rw [main_freeinode h]
  exact Nat.lt_succ_self _

theorem final_inPlace (Q : Populated P s n c) (off : Nat) :
    ∀ w ∈ (final s off).writes, InPlace P s w := by
  intro w hw
  simp only [final, putInode, List.mem_append, List.mem_singleton] at hw
  obtain (hw | rfl) | rfl := hw
  · exact Q.writes_inPlace w hw
  · exact ⟨Q.root, rfl⟩
  · exact (rfl : 45 = 45)

theorem final_tableBound (Q : Populated P s n c) (hn : n ≤ 198) (off : Nat) :
    TableBound (final s off) := by
  have hlt : ∀ i, Handed (final s off) i → i < 200 := by
    intro i hi
    have := Q.freeinode_eq
    exact Nat.lt_of_lt_of_le hi.2 (by change s.freeinode ≤ 200; omega)
  have hge := nmeta_ge P.fssize
  refine ⟨hlt, ?_, ?_⟩
  · intro i b hw
    obtain ⟨hi, rfl⟩ := final_inPlace Q off _ hw
    have := hlt i hi
    rw [iblock]
    omega
  · intro part b i hw hi hb
    have := hlt i hi
    rw [iblock] at hb
    have hp := final_inPlace Q off _ hw
    cases part with
    | zeroes => exact Or.inl rfl
    | inode j => exact Or.inr ⟨j, rfl⟩
    | superblock =>
      change b = 1 at hp
      omega
    | data =>
      change nmeta P.fssize ≤ b at hp
      omega
    | bitmap =>
      change b = 45 at hp
      omega

theorem tableBound_iff (P : Param) (files : List Input) (s : Fs) (h : main P files = some s) :
    TableBound s ↔ files.length ≤ 198 := by
  constructor
  · intro hT
    have := hT.handed_lt _ (handed_last h)
    omega
  · intro hn
    obtain ⟨t, c, Q, rfl⟩ := main_spec (by omega) h
    exact final_tableBound Q hn _

theorem tableBound_fails : ∃ s, main xv6 (List.replicate 199 emptyFile) = some s ∧
    ¬TableBound s := by
  obtain ⟨s, hs⟩ := main_emptyFiles (n := 199) (by decide)
  refine ⟨s, hs, fun hT => ?_⟩
  have := hT.handed_lt _ (handed_last hs)
  rw [List.length_replicate] at this
  omega

theorem tableBound_iff_one : ∃ s, main xv6 [emptyFile] = some s ∧ TableBound s := by
  obtain ⟨s, hs⟩ := main_emptyFiles (n := 1) (by decide)
  exact ⟨s, hs, (tableBound_iff xv6 _ s hs).2 (by decide)⟩

end Raynix.MkfsInodes
