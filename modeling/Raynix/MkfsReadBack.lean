import Raynix.Lib.Transition
import Raynix.MkfsContents

namespace Raynix.MkfsReadBack

open Lib Lib.Bytes Mkfs MkfsLayout MkfsContents

/-- `ialloc` has given out the number `i`. -/
def Handed (s : Fs) (i : Nat) : Prop := 1 ≤ i ∧ i < s.freeinode

/-- The dinode that the disk has for inode `i`. -/
def inode (s : Fs) (i : Nat) : Dinode := getDinode (s.disk (iblock i)) (i % 16)

/-- The bytes of inode `i`, read through its addresses. -/
def readBack (s : Fs) (i : Nat) : List Byte :=
  (List.range (inode s i).size.toNat).map fun o =>
    s.disk (addrOf (inode s i) s.disk (.data (o / 1024))) (o % 1024)

/-- Where each part of the image is written. -/
def InPlace (P : Param) (s : Fs) : Part × Nat → Prop
  | (.zeroes, _) => True
  | (.superblock, b) => b = 1
  | (.inode i, b) => Handed s i ∧ b = iblock i
  | (.data, b) => nmeta P.fssize ≤ b
  | (.bitmap, b) => b = 45

/-- The inodes handed out are all in the inode blocks and hold the byte strings `c`. -/
structure Image (P : Param) (s : Fs) (c : Nat → List Byte) : Prop where
  len_eq : s.len = P.fssize
  represents : Represents (Handed s) (nmeta P.fssize) (inode s) s.disk s.freeblock c
  size_eq : ∀ i, Handed s i → (inode s i).size.toNat = (c i).length
  freeblock_le : s.freeblock ≤ s.len
  freeinode_pos : 1 ≤ s.freeinode
  freeinode_le : s.freeinode ≤ 208
  writes_inPlace : ∀ w ∈ s.writes, InPlace P s w

variable {P : Param} {s s' : Fs} {c : Nat → List Byte} {i : Nat} {d : Dinode}

theorem nmeta_ge (fssize : Nat) : 46 ≤ nmeta fssize := by
  rw [nmeta, nbitmap]
  omega

theorem Image.len_lt (Im : Image P s c) : s.len < 2 ^ 22 := by
  have hlen := Im.len_eq
  have hfits := P.offset_fits
  omega

theorem InPlace.mono (hH : ∀ j, Handed s j → Handed s' j) {w : Part × Nat} (h : InPlace P s w) :
    InPlace P s' w := by
  obtain ⟨_ | _ | j | _ | _, b⟩ := w
  case inode => exact ⟨hH j h.1, h.2⟩
  all_goals exact h

theorem Image.readBack_eq (Im : Image P s c) (hi : Handed s i) : readBack s i = c i := by
  apply List.ext_getElem
  · rw [readBack, List.length_map, List.length_range, Im.size_eq i hi]
  · intro o ho ho'
    simp only [readBack, List.getElem_map, List.getElem_range]
    exact Im.represents.bytes i hi o ho'

theorem iblock_lt (hi : i < 208) : iblock i < 45 := by
  rw [iblock]
  omega

theorem rinode_eq_some (hi : i < 208) (h : rinode s i = some d) :
    iblock i < s.len ∧ d = inode s i := by
  have hb := iblock_lt hi
  simp only [rinode, Option.bind_eq_bind, Option.bind_eq_some_iff, Option.some.injEq] at h
  obtain ⟨buf, hbuf, rfl⟩ := h
  obtain ⟨hlt, rfl⟩ := rsect_eq_some (by omega) hbuf
  exact ⟨hlt, rfl⟩

/-- The image after `winode(i, &d)`. -/
def putInode (s : Fs) (i : Nat) (d : Dinode) : Fs :=
  { s with
    disk := Function.update s.disk (iblock i) (putDinode (s.disk (iblock i)) (i % 16) d)
    writes := s.writes ++ [(.inode i, iblock i)] }

theorem winode_eq_some (hi : i < 208) (h : winode s i d = some s') : s' = putInode s i d := by
  have hb := iblock_lt hi
  simp only [winode, Option.bind_eq_bind, Option.bind_eq_some_iff, Option.some.injEq] at h
  obtain ⟨buf, hbuf, rfl⟩ := h
  obtain ⟨hlt, rfl⟩ := rsect_eq_some (by omega) hbuf
  rw [wsect, putInode, sector_eq (by omega), Nat.max_eq_left hlt]

theorem inode_putInode (s : Fs) (i : Nat) (d : Dinode) :
    inode (putInode s i d) = Function.update (inode s) i d := by
  funext j
  by_cases hj : j = i
  · subst hj
    simp only [inode, putInode, Function.update_self, getDinode_putDinode]
  · rw [Function.update_of_ne hj]
    simp only [inode, putInode]
    by_cases hb : iblock j = iblock i
    · have hslot : j % 16 ≠ i % 16 := by
        rw [iblock, iblock] at hb
        omega
      rw [hb, Function.update_self, getDinode_putDinode_of_ne _ _ hslot]
    · rw [Function.update_of_ne hb]

theorem putInode_disk_of_le {b : Nat} (hi : i < 208) (hb : nmeta P.fssize ≤ b) :
    (putInode s i d).disk b = s.disk b := by
  have := iblock_lt hi
  have := nmeta_ge P.fssize
  exact Function.update_of_ne (by omega) ..

theorem Keeps.inode_eq (h : Keeps (nmeta P.fssize) s s') (hi : i < 208) :
    inode s' i = inode s i := by
  have := iblock_lt hi
  have := nmeta_ge P.fssize
  rw [inode, inode, h.disk_eq _ (by omega)]

theorem Image.iappend (Im : Image P s c) (hi : Handed s i) {p : List Byte}
    (h : iappend s i p = some s') :
    Image P s' (Function.update c i (c i ++ p)) ∧ s'.freeinode = s.freeinode := by
  have hi208 : i < 208 := Nat.lt_of_lt_of_le hi.2 Im.freeinode_le
  simp only [Mkfs.iappend, Option.bind_eq_bind, Option.bind_eq_some_iff, Prod.exists, xint_eq] at h
  obtain ⟨d, hd, s₁, d₁, off, hloop, hw⟩ := h
  obtain ⟨-, rfl⟩ := rinode_eq_some hi208 hd
  obtain ⟨hR, hK, hfree, rfl⟩ := iappendLoop_spec Im.represents hi Im.freeblock_le Im.len_lt rfl
    (Im.size_eq i hi) hloop
  obtain rfl := winode_eq_some hi208 hw
  have hsize : (BitVec.ofNat 32 ((inode s i).size.toNat + p.length)).toNat =
      (c i ++ p).length := by
    have hle := hR.length_le hi
    rw [Function.update_self] at hle
    rw [Im.size_eq i hi, ← List.length_append, BitVec.toNat_ofNat, Nat.mod_eq_of_lt (by omega)]
  have hHanded : Handed (putInode s₁ i { d₁ with
      size := BitVec.ofNat 32 ((inode s i).size.toNat + p.length) }) = Handed s := by
    funext j
    exact congrArg (fun n => 1 ≤ j ∧ j < n) hK.freeinode_eq
  refine ⟨⟨?_, ?_, ?_, hfree, ?_, ?_, ?_⟩, hK.freeinode_eq⟩
  · exact hK.len_eq.trans Im.len_eq
  · rw [hHanded]
    apply hR.congr
    · intro j hj
      rw [inode_putInode]
      by_cases hji : j = i
      · subst hji
        rw [Function.update_self, Function.update_self]
      · have hj208 : j < 208 := Nat.lt_of_lt_of_le hj.2 Im.freeinode_le
        rw [Function.update_of_ne hji, Function.update_of_ne hji, Keeps.inode_eq hK hj208]
    · exact fun b hb => putInode_disk_of_le hi208 hb
  · rw [hHanded]
    intro j hj
    rw [inode_putInode]
    by_cases hji : j = i
    · subst hji
      rw [Function.update_self, Function.update_self, hsize]
    · have hj208 : j < 208 := Nat.lt_of_lt_of_le hj.2 Im.freeinode_le
      rw [Function.update_of_ne hji, Function.update_of_ne hji, Keeps.inode_eq hK hj208,
        Im.size_eq j hj]
  · exact hK.freeinode_eq ▸ Im.freeinode_pos
  · exact hK.freeinode_eq ▸ Im.freeinode_le
  · obtain ⟨ws, hws, hall⟩ := hK.writes_eq
    intro w hw
    rw [putInode, hws, List.mem_append, List.mem_append, List.mem_singleton] at hw
    obtain (hw | hw) | rfl := hw
    · exact (Im.writes_inPlace w hw).mono fun j hj => hHanded ▸ hj
    · obtain ⟨part, b⟩ := w
      obtain ⟨rfl, hb⟩ := hall _ hw
      exact hb
    · exact ⟨hHanded ▸ hi, rfl⟩

theorem Image.ialloc (Im : Image P s c) (hlt : s.freeinode < 208) {type : BitVec 16}
    (h : ialloc s type = some (s', i)) :
    i = s.freeinode ∧ s'.freeinode = s.freeinode + 1 ∧
      Image P s' (Function.update c s.freeinode []) ∧ s'.freeblock = s.freeblock := by
  simp only [Mkfs.ialloc, Option.bind_eq_bind, Option.bind_eq_some_iff, Option.some.injEq,
    Prod.mk.injEq] at h
  obtain ⟨s₁, hw, rfl, rfl⟩ := h
  obtain rfl := winode_eq_some hlt hw
  refine ⟨rfl, rfl, ?_, rfl⟩
  set s₁ : Fs := { s with freeinode := s.freeinode + 1 } with hs₁
  have hHanded : Handed (putInode s₁ s.freeinode (newDinode type)) =
      fun j => j = s.freeinode ∨ Handed s j := by
    funext j
    have := Im.freeinode_pos
    simp only [Handed, putInode, hs₁, eq_iff_iff]
    omega
  have hnot : ¬Handed s s.freeinode := fun hn => Nat.lt_irrefl _ hn.2
  have hR : Represents (Handed s) (nmeta P.fssize)
      (Function.update (inode s) s.freeinode (newDinode type)) s.disk s.freeblock c := by
    apply Im.represents.congr
    · intro j hj
      rw [Function.update_of_ne (Nat.ne_of_lt hj.2)]
    · exact fun _ _ => rfl
  have hR' := hR.addInode hnot (by intro k; rw [Function.update_self]; rfl)
  refine ⟨Im.len_eq, ?_, ?_, Im.freeblock_le, Nat.succ_le_succ (Nat.zero_le _), hlt, ?_⟩
  · rw [hHanded, inode_putInode]
    exact hR'.congr (fun _ _ => rfl) (fun b hb => putInode_disk_of_le hlt hb)
  · rw [hHanded, inode_putInode]
    intro j hj
    by_cases hji : j = s.freeinode
    · subst hji
      rw [Function.update_self, Function.update_self, newDinode, xint_eq]
      rfl
    · rw [Function.update_of_ne hji, Function.update_of_ne hji]
      exact Im.size_eq j (hj.resolve_left hji)
  · intro w hw
    rw [putInode, List.mem_append, List.mem_singleton] at hw
    obtain hw | rfl := hw
    · exact (Im.writes_inPlace w hw).mono fun j hj => hHanded ▸ Or.inr hj
    · exact ⟨hHanded ▸ Or.inl rfl, rfl⟩

theorem Image.iblock_lt_len (Im : Image P s c) (hi : i < 208) : iblock i < s.len := by
  have hlen := Im.len_eq
  have hmeta := P.meta_fits
  have hge := nmeta_ge P.fssize
  have := iblock_lt hi
  omega

theorem Image.rinode_eq (Im : Image P s c) (hi : i < 208) : rinode s i = some (inode s i) := by
  rw [rinode, rsect_of_lt (Im.iblock_lt_len hi) Im.len_lt]
  rfl

theorem winode_isSome {d : Dinode} (hb : iblock i < s.len) (hs : s.len < 2 ^ 22) :
    ∃ s', winode s i d = some s' ∧ s'.freeblock = s.freeblock := by
  rw [winode, rsect_of_lt hb hs]
  exact ⟨_, rfl, rfl⟩

theorem Image.ialloc_isSome (Im : Image P s c) (hlt : s.freeinode < 208) (type : BitVec 16) :
    ∃ s', Mkfs.ialloc s type = some (s', s.freeinode) := by
  obtain ⟨s', hs', -⟩ := winode_isSome (s := { s with freeinode := s.freeinode + 1 })
    (d := newDinode type) (Im.iblock_lt_len hlt) Im.len_lt
  rw [Mkfs.ialloc]
  simp only [hs', Option.bind_eq_bind, Option.bind_some]
  exact ⟨s', rfl⟩

theorem Image.iappend_isSome (Im : Image P s c) (hi : Handed s i) {p : List Byte}
    (hdirect : (c i).length + p.length ≤ 12 * 1024)
    (hfree : s.freeblock + rounds (c i).length p.length ≤ s.len) :
    ∃ s', Mkfs.iappend s i p = some s' ∧
      s'.freeblock ≤ s.freeblock + rounds (c i).length p.length := by
  have hi208 : i < 208 := Nat.lt_of_lt_of_le hi.2 Im.freeinode_le
  obtain ⟨⟨s₁, d₁, off⟩, hloop, hf⟩ :=
    iappendLoop_isSome Im.represents hi hdirect hfree Im.freeblock_le Im.len_lt rfl rfl
  obtain ⟨-, hK, -, -⟩ := iappendLoop_spec Im.represents hi Im.freeblock_le Im.len_lt rfl rfl hloop
  have hlen : s₁.len = s.len := hK.len_eq
  obtain ⟨s', hs', hf'⟩ := winode_isSome (s := s₁) (i := i)
    (d := { d₁ with size := BitVec.ofNat 32 off })
    (hlen ▸ Im.iblock_lt_len hi208) (hlen ▸ Im.len_lt)
  rw [Mkfs.iappend, Im.rinode_eq hi208]
  simp only [Option.bind_eq_bind, Option.bind_some, xint_eq, Im.size_eq i hi, hloop, hs']
  exact ⟨s', rfl, hf' ▸ hf⟩

theorem zeroSectors_succ (s : Fs) (n : Nat) :
    zeroSectors s (n + 1) = wsect (zeroSectors s n) .zeroes n (fun _ => 0) := by
  simp only [zeroSectors, List.range_succ, List.foldl_append, List.foldl_cons, List.foldl_nil]

/-- What zeroing the first `n` sectors makes of an empty file `s`. -/
structure Zeroed (s t : Fs) (n : Nat) : Prop where
  len_eq : t.len = n
  disk_eq : ∀ b o, t.disk b o = 0
  freeinode_eq : t.freeinode = s.freeinode
  freeblock_eq : t.freeblock = s.freeblock
  writes_eq : ∀ w ∈ t.writes, w ∈ s.writes ∨ w.1 = .zeroes

theorem zeroSectors_zeroed {n : Nat} (hs : s.len = 0) (hz : ∀ b o, s.disk b o = 0)
    (hn : n ≤ 2 ^ 22) : Zeroed s (zeroSectors s n) n := by
  induction n with
  | zero => exact ⟨hs, hz, rfl, rfl, fun w hw => Or.inl hw⟩
  | succ n ih =>
    have Z := ih (by omega)
    have hlen := Z.len_eq
    rw [zeroSectors_succ, wsect, sector_eq (by omega)]
    refine ⟨?_, ?_, Z.freeinode_eq, Z.freeblock_eq, ?_⟩
    · change max (zeroSectors s n).len (n + 1) = n + 1
      omega
    · intro b o
      change Function.update (zeroSectors s n).disk n (fun _ => 0) b o = 0
      rw [Function.update_apply]
      split
      · rfl
      · exact Z.disk_eq b o
    · intro w hmem
      obtain hmem | hmem := List.mem_append.mp hmem
      · exact Z.writes_eq w hmem
      · exact Or.inr (List.mem_singleton.mp hmem ▸ rfl)

theorem format_image (P : Param) :
    Image P (format P) (fun _ => []) ∧ (format P).freeinode = 1 ∧
      (format P).freeblock = nmeta P.fssize := by
  have hfits := P.offset_fits
  have hmeta := P.meta_fits
  have hge := nmeta_ge P.fssize
  have Z : Zeroed (empty P.fssize) (zeroSectors (empty P.fssize) P.fssize) P.fssize :=
    zeroSectors_zeroed rfl (fun _ _ => rfl) (by omega)
  rw [format]
  generalize zeroSectors (empty P.fssize) P.fssize = t at Z
  have hlen := Z.len_eq
  have hi : t.freeinode = 1 := Z.freeinode_eq
  have hb : t.freeblock = nmeta P.fssize := Z.freeblock_eq
  rw [wsect, sector_eq (by decide)]
  have hno : ∀ j, ¬(1 ≤ j ∧ j < t.freeinode) := by
    intro j
    omega
  refine ⟨⟨?_, represents_nil hno (by omega) hb.ge ?_, fun j hj => (hno j hj).elim, ?_, hi.ge, ?_,
    ?_⟩, hi, hb⟩
  · change max t.len 2 = P.fssize
    omega
  · intro b hb' o
    have hb1 : b ≠ 1 := by
      change t.freeblock ≤ b at hb'
      omega
    change Function.update t.disk 1 _ b o = 0
    rw [Function.update_of_ne hb1]
    exact Z.disk_eq b o
  · change t.freeblock ≤ max t.len 2
    omega
  · change t.freeinode ≤ 208
    omega
  · intro w hw
    obtain hw | hw := List.mem_append.mp hw
    · obtain hw | hw := Z.writes_eq w hw
      · cases hw
      · obtain ⟨part, b⟩ := w
        obtain rfl : part = .zeroes := hw
        trivial
    · obtain rfl := List.mem_singleton.mp hw
      exact (rfl : 1 = 1)

/-- A call of `main` into the file system. -/
inductive Op
  | ialloc (type : BitVec 16)
  | iappend (inum : Nat) (p : List Byte)

def step (s : Fs) : Op → Option Fs
  | .ialloc type => (ialloc s type).map Prod.fst
  | .iappend inum p => iappend s inum p

/-- The call is on a valid inode: one that has been handed out, or a next one that is still in the
inode blocks. -/
def Valid (s : Fs) : Op → Prop
  | .ialloc _ => iblock s.freeinode < 45
  | .iappend inum _ => Handed s inum

/-- The pieces appended to inode `i`, in order. -/
def appended (i : Nat) : List Op → List Byte
  | [] => []
  | .ialloc _ :: ops => appended i ops
  | .iappend inum p :: ops => if inum = i then p ++ appended i ops else appended i ops

theorem Image.call (Im : Image P s c) {op : Op} (hv : Valid s op) (h : step s op = some s')
    (hc : ∀ i, ¬Handed s i → c i = []) :
    Image P s' (fun i => c i ++ appended i [op]) ∧
      ∀ i, ¬Handed s' i → c i ++ appended i [op] = [] := by
  cases op with
  | ialloc type =>
    simp only [step, Option.map_eq_some_iff, Prod.exists, exists_and_right,
      exists_eq_right] at h
    obtain ⟨i, h⟩ := h
    have hlt : s.freeinode < 208 := by
      rw [Valid, iblock] at hv
      omega
    obtain ⟨rfl, hfree, hI, -⟩ := Im.ialloc hlt h
    have hnew : c s.freeinode = [] := hc _ fun hn => Nat.lt_irrefl _ hn.2
    rw [← hnew, Function.update_eq_self] at hI
    simp only [appended, List.append_nil]
    refine ⟨hI, fun i hi => hc i fun hn => hi ⟨hn.1, ?_⟩⟩
    rw [hfree]
    exact Nat.lt_succ_of_lt hn.2
  | iappend inum p =>
    obtain ⟨hI, hfree⟩ := Im.iappend hv h
    have happ : (fun i => c i ++ appended i [Op.iappend inum p]) =
        Function.update c inum (c inum ++ p) := by
      funext i
      by_cases hi : i = inum
      · subst hi
        simp [appended]
      · simp [appended, hi, Ne.symm hi]
    refine ⟨happ ▸ hI, fun i hi => ?_⟩
    have hi' : ¬Handed s i := by rwa [Handed, ← hfree]
    have hne : inum ≠ i := fun he => hi' (he ▸ hv)
    simp [appended, hne, hc i hi']

theorem appended_cons (i : Nat) (op : Op) (ops : List Op) :
    appended i (op :: ops) = appended i [op] ++ appended i ops := by
  cases op with
  | ialloc type => rfl
  | iappend inum p =>
    simp only [appended]
    split <;> simp

theorem Image.run (Im : Image P s c) {ops : List Op} (hc : ∀ i, ¬Handed s i → c i = [])
    (hv : Transition.Meets step Valid s ops) (h : Transition.run step s ops = some s') :
    Image P s' (fun i => c i ++ appended i ops) := by
  induction ops generalizing s c with
  | nil =>
    rw [Transition.run_nil, Option.some.injEq] at h
    subst h
    simpa only [appended, List.append_nil] using Im
  | cons op ops ih =>
    obtain ⟨t, ht, h⟩ := Transition.run_cons_eq_some.mp h
    obtain ⟨hI, hc'⟩ := Im.call hv.1 ht hc
    have := ih hI hc' (hv.2 t ht) h
    simpa only [appended_cons _ op ops, List.append_assoc] using this

/-- After any calls on valid inodes, starting from the zeroed image, each inode reads back as what
has been appended to it, and a further `iappend` changes no other inode. -/
theorem readBack_appended (P : Param) (ops : List Op) (s : Fs)
    (hv : Transition.Meets step Valid (format P) ops)
    (h : Transition.run step (format P) ops = some s) :
    (∀ i, Handed s i → readBack s i = appended i ops) ∧
      ∀ i p s', Handed s i → iappend s i p = some s' → ∀ j, Handed s j → j ≠ i →
        (inode s' j).size = (inode s j).size ∧ readBack s' j = readBack s j := by
  have Im : Image P s (fun i => appended i ops) := (format_image P).1.run (fun _ _ => rfl) hv h
  refine ⟨fun i hi => Im.readBack_eq hi, ?_⟩
  intro i p s' hi hs' j hj hji
  obtain ⟨Im', hfree⟩ := Im.iappend hi hs'
  have hj' : Handed s' j := by rwa [Handed, hfree]
  constructor
  · apply BitVec.eq_of_toNat_eq
    rw [Im'.size_eq j hj', Im.size_eq j hj, Function.update_of_ne hji]
  · rw [Im'.readBack_eq hj', Im.readBack_eq hj, Function.update_of_ne hji]

/-- `FSSIZE` as in xv6. -/
def xv6 : Param := ⟨1000, by decide, by decide⟩

theorem Image.step_ialloc (Im : Image P s c) (hlt : s.freeinode < 208)
    (hc : c s.freeinode = []) (type : BitVec 16) :
    ∃ s', step s (.ialloc type) = some s' ∧ s'.freeinode = s.freeinode + 1 ∧
      s'.freeblock = s.freeblock ∧ Image P s' c := by
  obtain ⟨s', h⟩ := Im.ialloc_isSome hlt type
  obtain ⟨-, hi, Im', hb⟩ := Im.ialloc hlt h
  rw [← hc, Function.update_eq_self] at Im'
  refine ⟨s', ?_, hi, hb, Im'⟩
  rw [step, h]
  rfl

theorem Image.step_iappend (Im : Image P s c) (hi : Handed s i) {p : List Byte}
    (hp : p.length ≤ 1024) (hdirect : (c i).length ≤ 11 * 1024) (hfree : s.freeblock + 2 ≤ s.len) :
    ∃ s' c', step s (.iappend i p) = some s' ∧ s'.freeinode = s.freeinode ∧
      s'.freeblock ≤ s.freeblock + 2 ∧ Image P s' c' ∧ c' i = c i ++ p ∧
      ∀ j, j ≠ i → c' j = c j := by
  have hrounds := rounds_le (c i).length hp
  obtain ⟨s', h, hb⟩ := Im.iappend_isSome hi (p := p) (by omega) (by omega)
  obtain ⟨Im', hfree'⟩ := Im.iappend hi h
  exact ⟨s', _, h, hfree', by omega, Im', Function.update_self .., fun j hj =>
    Function.update_of_ne hj ..⟩

def firstPiece : List Byte := List.replicate 1000 7

def secondPiece : List Byte := List.replicate 100 9

/-- Two inodes are handed out; the second piece of the first one crosses the end of its block. -/
def twoInodes : List Op :=
  [.ialloc 2, .ialloc 2, .iappend 1 firstPiece, .iappend 2 [5], .iappend 1 secondPiece]

theorem twoInodes_run : ∃ s, Transition.run step (format xv6) twoInodes = some s ∧
    Transition.Meets step Valid (format xv6) twoInodes ∧ s.freeinode = 3 ∧
    ∃ s', iappend s 2 [6] = some s' := by
  obtain ⟨Im, hi, hb⟩ := format_image xv6
  have hmeta : nmeta xv6.fssize = 46 := rfl
  have hsize : xv6.fssize = 1000 := rfl
  have hfirst : firstPiece.length = 1000 := List.length_replicate
  have hsecond : secondPiece.length = 100 := List.length_replicate
  obtain ⟨s₁, h₁, hi₁, hb₁, Im₁⟩ := Im.step_ialloc (by omega) rfl 2
  obtain ⟨s₂, h₂, hi₂, hb₂, Im₂⟩ := Im₁.step_ialloc (by omega) rfl 2
  have hl₂ := Im₂.len_eq
  have hH : ∀ {s i}, s.freeinode = s₂.freeinode → 1 ≤ i → i ≤ 2 → Handed s i :=
    fun hs hlo hhi => ⟨hlo, by omega⟩
  obtain ⟨s₃, c₃, h₃, hi₃, hb₃, Im₃, hc₃, hk₃⟩ := Im₂.step_iappend (i := 1) (p := firstPiece)
    (hH rfl le_rfl (by decide)) (by omega) (Nat.zero_le _) (by omega)
  have hl₃ := Im₃.len_eq
  obtain ⟨s₄, c₄, h₄, hi₄, hb₄, Im₄, hc₄, hk₄⟩ := Im₃.step_iappend (i := 2) (p := [5])
    (hH (by omega) (by decide) le_rfl) (by decide) (by rw [hk₃ 2 (by decide)]; decide) (by omega)
  have hl₄ := Im₄.len_eq
  have hlen₄ : (c₄ 1).length = 1000 := by
    rw [hk₄ 1 (by decide), hc₃, List.nil_append, hfirst]
  obtain ⟨s₅, c₅, h₅, hi₅, hb₅, Im₅, hc₅, hk₅⟩ := Im₄.step_iappend (i := 1) (p := secondPiece)
    (hH (by omega) le_rfl (by decide)) (by omega) (by omega) (by omega)
  have hl₅ := Im₅.len_eq
  have hlen₅ : (c₅ 2).length = 1 := by
    rw [hk₅ 2 (by decide), hc₄, hk₃ 2 (by decide)]
    rfl
  obtain ⟨s₆, c₆, h₆, -⟩ := Im₅.step_iappend (i := 2) (p := [6])
    (hH (by omega) (by decide) le_rfl) (by decide) (by omega) (by omega)
  refine ⟨s₅, ?_, ?_, by omega, s₆, h₆⟩
  · simp only [twoInodes, Transition.run_cons, h₁, h₂, h₃, h₄, h₅, Option.bind_some,
      Transition.run_nil]
  · have hv : ∀ {s : Fs}, s.freeinode ≤ 2 → iblock s.freeinode < 45 := fun h => by
      rw [iblock]
      omega
    rw [twoInodes, Transition.meets_cons h₁, Transition.meets_cons h₂, Transition.meets_cons h₃,
      Transition.meets_cons h₄, Transition.meets_cons h₅]
    exact ⟨hv (by omega), hv (by omega), hH rfl le_rfl (by decide),
      hH (by omega) (by decide) le_rfl, hH (by omega) le_rfl (by decide), trivial⟩

theorem readBack_appended_twoInodes : ∃ s, Transition.run step (format xv6) twoInodes = some s ∧
    readBack s 1 = firstPiece ++ secondPiece ∧ readBack s 2 = [5] ∧
    ∃ s', iappend s 2 [6] = some s' ∧ readBack s' 1 = firstPiece ++ secondPiece := by
  obtain ⟨s, hrun, hmeets, hfree, s', hs'⟩ := twoInodes_run
  obtain ⟨hback, hothers⟩ := readBack_appended xv6 twoInodes s hmeets hrun
  have hH : ∀ i, 1 ≤ i → i ≤ 2 → Handed s i := fun i hlo hhi => ⟨hlo, by omega⟩
  have hone := hH 1 le_rfl (by decide)
  have htwo := hH 2 (by decide) le_rfl
  have hback₁ : readBack s 1 = firstPiece ++ secondPiece := hback 1 hone
  refine ⟨s, hrun, hback₁, hback 2 htwo, s', hs', ?_⟩
  rw [(hothers 2 [6] s' htwo hs' 1 hone (by decide)).2, hback₁]

end Raynix.MkfsReadBack
