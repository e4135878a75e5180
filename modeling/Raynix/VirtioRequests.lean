import Mathlib.Data.List.Perm.Subperm
import Mathlib.Data.List.Nodup
import Raynix.Lib.CircularBuffer
import Raynix.VirtioDescriptors

namespace Raynix.VirtioRequests

open Lib Lib.CircularBuffer Virtio VirtioStep VirtioDescriptors

variable {V : Params} {B T : Type}

/-- What a thread has to do with requests: nothing, a buffer, a request being set up or published
or waited for, one that is done, or a used entry that it handles. -/
inductive Role (B : Type)
  | none
  | buf (b : B)
  | submit (b : B) (idx : Idx)
  | publish (b : B) (idx : Idx) (r : Nat)
  | wait (b : B) (idx : Idx) (r : Nat)
  | done (b : B) (r : Nat)
  | entry (id : BitVec 32) (r : Nat)

def role : Pc B → Role B
  | .rwLock b _ => .buf b
  | .alloc b _ => .buf b
  | .allocSleep b _ => .buf b
  | .format b _ _ => .buf b
  | .submit b idx => .submit b idx
  | .publish b idx r => .publish b idx r
  | .wait b idx r => .wait b idx r
  | .waitSleep b idx r => .wait b idx r
  | .finish b _ r => .done b r
  | .rwRelease b r => .done b r
  | .intrEntry id r => .entry id r
  | _ => .none

/-- The buffer that a thread's call of `virtio_disk_rw` is about. -/
def Role.buffer : Role B → Option B
  | .buf b => some b
  | .submit b _ => some b
  | .publish b _ _ => some b
  | .wait b _ _ => some b
  | .done b _ => some b
  | _ => Option.none

/-- A request that has been published: its thread, buffer, descriptors and number. -/
structure Req (B T : Type) where
  t : T
  b : B
  idx : Idx
  r : Nat

def Req.availEntry (e : Req B T) : BitVec 16 × Nat := (BitVec.ofNat 16 e.idx.i0, e.r)

def Req.usedEntry (e : Req B T) : BitVec 32 × Nat :=
  ((BitVec.ofNat 16 e.idx.i0).setWidth 32, e.r)

def Req.taken (e : Req B T) : Taken B :=
  { head := BitVec.ofNat 16 e.idx.i0, status := .status e.idx.i0, r := e.r }

/-- The requests in flight: `A` in the avail ring, `K` with the device, `U` in the used ring. All
posted statuses satisfy `Z`. -/
structure Flight (Z : BitVec 8 → Prop) (s : State V B T) (A K U : List (Req B T)) : Prop where
  availQ : Queued (fun i => (s.disk.avail.ring i, s.availReq i)) s.consumed s.disk.avail.idx
    (A.map Req.availEntry)
  takenEq : s.taken = K.map Req.taken
  usedQ : Queued (fun i => (s.disk.used.ring i, s.usedReq i)) s.disk.usedIdx s.disk.used.idx
    (U.map Req.usedEntry)
  nodup : ((A ++ K ++ U).map Req.t).Nodup
  waiting : ∀ e ∈ A ++ K ++ U, role (s.pc e.t) = .wait e.b e.idx e.r ∧
    s.disk.disk e.b = true ∧ s.disk.infoB e.idx.i0 = some e.b
  complete : ∀ t b c r, role (s.pc t) = .wait b c r → s.disk.disk b = true →
    ⟨t, b, c, r⟩ ∈ A ++ K ++ U
  submitted : ∀ t b c, role (s.pc t) = .submit b c → s.disk.disk b = true ∧
    s.disk.infoB c.i0 = some b
  published : ∀ t b c r, role (s.pc t) = .publish b c r → s.disk.disk b = true ∧
    s.disk.infoB c.i0 = some b ∧
    s.disk.avail.ring (slot V s.disk.avail.idx) = BitVec.ofNat 16 c.i0 ∧
    s.availReq (slot V s.disk.avail.idx) = r
  entry : ∀ t id r, role (s.pc t) = .entry id r → ∃ e U', U = e :: U' ∧ e.usedEntry = (id, r)
  answered : ∀ t b c r, role (s.pc t) = .wait b c r → s.disk.disk b = false → r ∈ s.posted
  done : ∀ t b r, role (s.pc t) = .done b r → r ∈ s.posted
  buffers : ∀ t u b, t ≠ u → (role (s.pc t)).buffer = some b → (role (s.pc u)).buffer ≠ some b
  unread : ∀ j, s.unread j = true →
    (∃ i < A.length, j = Fin.ofNat V.num (s.consumed.toNat + i)) ∨
      j = slot V s.disk.avail.idx ∧ ∃ t b c r, role (s.pc t) = .publish b c r
  processed : s.processed ++ U.map Req.r = s.posted
  numbers : (s.posted ++ (K ++ A).map Req.r).Nodup
  numbered : ∀ r ∈ s.posted ++ (K ++ A).map Req.r, r < s.requests
  publishing : ∀ t b c r, role (s.pc t) = .publish b c r →
    r < s.requests ∧ r ∉ s.posted ++ (K ++ A).map Req.r
  status : ∀ e ∈ U, Z (s.disk.infoStatus e.idx.i0)
  faults : s.fault = none ∨
    s.fault = some (.panic "virtio_disk_intr status") ∧ ∃ st, st ≠ 0 ∧ Z st

variable {Z : BitVec 8 → Prop} {s s' : State V B T} {A K U : List (Req B T)} {t : T}
  {e e' : Req B T}

theorem chain_of_wait {pc : Pc B} {b : B} {c : Idx} {r : Nat} (h : role pc = .wait b c r) :
    linkedChain pc = some c := by
  cases pc <;> first | cases h; rfl | cases h

theorem wait_of_role {pc : Pc B} {b : B} {c : Idx} {r : Nat} (h : role pc = .wait b c r) :
    pc = .wait b c r ∨ pc = .waitSleep b c r := by
  cases pc <;> cases h
  · exact Or.inl rfl
  · exact Or.inr rfl

theorem chain_of_publish {pc : Pc B} {b : B} {c : Idx} {r : Nat} (h : role pc = .publish b c r) :
    linkedChain pc = some c := by
  cases pc <;> first | cases h; rfl | cases h

theorem chain_of_submit {pc : Pc B} {b : B} {c : Idx} (h : role pc = .submit b c) :
    linkedChain pc = some c := by
  cases pc <;> first | cases h; rfl | cases h

theorem initial_flight (Z : BitVec 8 → Prop) (blockno : B → BitVec 32) :
    Flight Z (initial V T blockno) [] [] [] := by
  refine ⟨queued_nil _ _, rfl, queued_nil _ _, List.nodup_nil, ?_, ?_, ?_, ?_, ?_, ?_, ?_, ?_, ?_,
    rfl, List.nodup_nil, ?_, ?_, ?_, Or.inl rfl⟩
  all_goals
    intros
    contradiction

theorem Flight.mem_chain (F : Flight Z s A K U) (he : e ∈ A ++ K ++ U) :
    linkedChain (s.pc e.t) = some e.idx := chain_of_wait (F.waiting e he).1

theorem Flight.disjoint (F : Flight Z s A K U) (O : Owned s) (he : e ∈ A ++ K ++ U) {u : T}
    {c : Idx} (hu : e.t ≠ u) (hc : chain (s.pc u) = some c) :
    ∀ i ∈ Idx.toList e.idx, i ∉ Idx.toList c :=
  O.disjoint e.t u e.idx c hu (chain_of_linkedChain (F.mem_chain he)) hc

theorem head_mem (c : Idx) : c.i0 ∈ Idx.toList c := mem_toList.mpr (Or.inl rfl)

theorem head_ne (O : Owned s) {u : T} {c d : Idx} (hut : u ≠ t) (hd : chain (s.pc u) = some d)
    (hc : chain (s.pc t) = some c) : d.i0 ≠ c.i0 := by
  intro h
  exact O.disjoint u t d c hut hd hc _ (head_mem d) (h ▸ head_mem c)

theorem Flight.head_toNat (F : Flight Z s A K U) (O : Owned s) (he : e ∈ A ++ K ++ U) :
    (BitVec.ofNat 16 e.idx.i0).toNat = e.idx.i0 := by
  have hnum := num_le V
  have hlt := (O.used e.t e.idx (chain_of_linkedChain (F.mem_chain he)) _ (head_mem e.idx)).1
  rw [BitVec.toNat_ofNat, Nat.mod_eq_of_lt (by omega)]

theorem length_flatMap_toList (L : List (Req B T)) :
    (L.flatMap fun e => Idx.toList e.idx).length = 3 * L.length := by
  induction L with
  | nil => rfl
  | cons e L ih =>
    rw [List.flatMap_cons, List.length_append, ih, List.length_cons, Idx.toList]
    simp only [List.length_cons, List.length_nil]
    omega

theorem Flight.length_le (F : Flight Z s A K U) (O : Owned s) :
    3 * (A ++ K ++ U).length ≤ V.num := by
  have hnodup : ((A ++ K ++ U).flatMap fun e => Idx.toList e.idx).Nodup := by
    rw [List.nodup_flatMap]
    refine ⟨fun e he => O.nodup e.t e.idx (chain_of_linkedChain (F.mem_chain he)), ?_⟩
    have hpair := List.pairwise_map.mp F.nodup
    refine hpair.imp_of_mem ?_
    intro a b ha hb hab i hi hi'
    exact F.disjoint O ha hab (chain_of_linkedChain (F.mem_chain hb)) i hi hi'
  have hsub : ((A ++ K ++ U).flatMap fun e => Idx.toList e.idx) ⊆ List.range V.num := by
    intro i hi
    obtain ⟨e, he, hi⟩ := List.mem_flatMap.mp hi
    exact List.mem_range.mpr
      (O.used e.t e.idx (chain_of_linkedChain (F.mem_chain he)) i hi).1
  have hle := (hnodup.subperm hsub).length_le
  rwa [length_flatMap_toList, List.length_range] at hle

theorem Flight.frame (F : Flight Z s A K U) (pc : T → Pc B) (lock : Option T)
    (desc : Nat → Desc B) (free : Nat → Bool) (hrole : ∀ u, role (pc u) = role (s.pc u)) :
    Flight Z { s with
      pc := pc
      vdiskLock := lock
      disk := { s.disk with desc := desc, free := free } } A K U := by
  refine ⟨F.availQ, F.takenEq, F.usedQ, F.nodup, ?_, ?_, ?_, ?_, ?_, ?_, ?_, ?_, ?_, F.processed,
    F.numbers, F.numbered, ?_, F.status, F.faults⟩
  · exact fun e he => hrole e.t ▸ F.waiting e he
  · exact fun t b c r h => F.complete t b c r (hrole t ▸ h)
  · exact fun t b c h => F.submitted t b c (hrole t ▸ h)
  · exact fun t b c r h => F.published t b c r (hrole t ▸ h)
  · exact fun t id r h => F.entry t id r (hrole t ▸ h)
  · exact fun t b c r h => F.answered t b c r (hrole t ▸ h)
  · exact fun t b r h => F.done t b r (hrole t ▸ h)
  · exact fun t u b htu h => hrole u ▸ F.buffers t u b htu (hrole t ▸ h)
  · intro j hj
    obtain h | ⟨h, t, b, c, r, hp⟩ := F.unread j hj
    · exact Or.inl h
    · exact Or.inr ⟨h, t, b, c, r, (hrole t).trans hp⟩
  · exact fun t b c r h => F.publishing t b c r (hrole t ▸ h)

theorem Flight.setMemory (F : Flight Z s A K U) (desc : Nat → Desc B) (free : Nat → Bool)
    (ops : Nat → BlkReq) (disk : B → Bool) (infoB : Nat → Option B) (infoStatus : Nat → BitVec 8)
    (hflight : ∀ e ∈ A ++ K ++ U, infoB e.idx.i0 = s.disk.infoB e.idx.i0)
    (hstatus : ∀ e ∈ U, infoStatus e.idx.i0 = s.disk.infoStatus e.idx.i0)
    (hwait : ∀ t b c r, role (s.pc t) = .wait b c r → disk b = s.disk.disk b)
    (hsub : ∀ t b c, role (s.pc t) = .submit b c →
      disk b = s.disk.disk b ∧ infoB c.i0 = s.disk.infoB c.i0)
    (hpub : ∀ t b c r, role (s.pc t) = .publish b c r →
      disk b = s.disk.disk b ∧ infoB c.i0 = s.disk.infoB c.i0) :
    Flight Z { s with
      disk := { s.disk with
        desc := desc, free := free, ops := ops, disk := disk, infoB := infoB
        infoStatus := infoStatus } } A K U := by
  refine ⟨F.availQ, F.takenEq, F.usedQ, F.nodup, ?_, ?_, ?_, ?_, F.entry, ?_, F.done, F.buffers,
    F.unread, F.processed, F.numbers, F.numbered, F.publishing, ?_, F.faults⟩
  · intro e he
    obtain ⟨hw, hd, hb⟩ := F.waiting e he
    exact ⟨hw, (hwait _ _ _ _ hw).trans hd, (hflight e he).trans hb⟩
  · intro t b c r h hd
    exact F.complete t b c r h ((hwait t b c r h).symm.trans hd)
  · intro t b c h
    obtain ⟨hd, hb⟩ := F.submitted t b c h
    exact ⟨(hsub t b c h).1.trans hd, (hsub t b c h).2.trans hb⟩
  · intro t b c r h
    obtain ⟨hd, hb, hring⟩ := F.published t b c r h
    exact ⟨(hpub t b c r h).1.trans hd, (hpub t b c r h).2.trans hb, hring⟩
  · intro t b c r h hd
    exact F.answered t b c r h ((hwait t b c r h).symm.trans hd)
  · intro e he
    change Z (infoStatus e.idx.i0)
    rw [hstatus e he]
    exact F.status e he

section steps

variable [DecidableEq T] {b : B} {c : Idx} {r : Nat}

theorem goto_cases (s : State V B T) (t : T) (pc : Pc B) (u : T) :
    u = t ∧ (s.goto t pc).pc u = pc ∨ u ≠ t ∧ (s.goto t pc).pc u = s.pc u := by
  by_cases hu : u = t
  · exact Or.inl ⟨hu, by rw [hu, goto_pc_self]⟩
  · exact Or.inr ⟨hu, goto_pc_of_ne s pc hu⟩

/-- The facts that a new role of a thread stands for. -/
structure RoleOk (s : State V B T) (A K U : List (Req B T)) (t : T) (new : Role B) : Prop where
  not_wait : ∀ b c r, new ≠ .wait b c r
  submitted : ∀ b c, new = .submit b c → s.disk.disk b = true ∧ s.disk.infoB c.i0 = some b
  published : ∀ b c r, new = .publish b c r → s.disk.disk b = true ∧
    s.disk.infoB c.i0 = some b ∧
    s.disk.avail.ring (slot V s.disk.avail.idx) = BitVec.ofNat 16 c.i0 ∧
    s.availReq (slot V s.disk.avail.idx) = r
  publishing : ∀ b c r, new = .publish b c r →
    r < s.requests ∧ r ∉ s.posted ++ (K ++ A).map Req.r
  entry : ∀ id r, new = .entry id r → ∃ e U', U = e :: U' ∧ e.usedEntry = (id, r)
  done : ∀ b r, new = .done b r → r ∈ s.posted
  buffer : ∀ b, new.buffer = some b → ∀ u, u ≠ t → (role (s.pc u)).buffer ≠ some b

theorem Flight.setRole (F : Flight Z s A K U) (pc : Pc B)
    (hwait : ∀ b c r, role (s.pc t) = .wait b c r → s.disk.disk b = false)
    (hpub : ∀ b c r, role (s.pc t) ≠ .publish b c r) (hnew : RoleOk s A K U t (role pc)) :
    Flight Z (s.goto t pc) A K U := by
  refine ⟨F.availQ, F.takenEq, F.usedQ, F.nodup, ?_, ?_, ?_, ?_, ?_, ?_, ?_, ?_, ?_, F.processed,
    F.numbers, F.numbered, ?_, F.status, F.faults⟩
  · intro e he
    have hw := F.waiting e he
    obtain ⟨hu, -⟩ | ⟨-, hu⟩ := goto_cases s t pc e.t
    · have := hwait _ _ _ (hu ▸ hw.1)
      rw [hw.2.1] at this
      cases this
    · rw [hu]
      exact hw
  · intro u b c r h hb
    obtain ⟨-, hu⟩ | ⟨-, hu⟩ := goto_cases s t pc u
    · exact absurd (hu ▸ h) (hnew.not_wait b c r)
    · exact F.complete u b c r (hu ▸ h) hb
  · intro u b c h
    obtain ⟨-, hu⟩ | ⟨-, hu⟩ := goto_cases s t pc u
    · exact hnew.submitted b c (hu ▸ h)
    · exact F.submitted u b c (hu ▸ h)
  · intro u b c r h
    obtain ⟨-, hu⟩ | ⟨-, hu⟩ := goto_cases s t pc u
    · exact hnew.published b c r (hu ▸ h)
    · exact F.published u b c r (hu ▸ h)
  · intro u id r h
    obtain ⟨-, hu⟩ | ⟨-, hu⟩ := goto_cases s t pc u
    · exact hnew.entry id r (hu ▸ h)
    · exact F.entry u id r (hu ▸ h)
  · intro u b c r h hb
    obtain ⟨-, hu⟩ | ⟨-, hu⟩ := goto_cases s t pc u
    · exact absurd (hu ▸ h) (hnew.not_wait b c r)
    · exact F.answered u b c r (hu ▸ h) hb
  · intro u b r h
    obtain ⟨-, hu⟩ | ⟨-, hu⟩ := goto_cases s t pc u
    · exact hnew.done b r (hu ▸ h)
    · exact F.done u b r (hu ▸ h)
  · intro u v b huv h
    obtain ⟨hut, hu⟩ | ⟨hut, hu⟩ := goto_cases s t pc u
    · obtain ⟨hvt, -⟩ | ⟨hvt, hv⟩ := goto_cases s t pc v
      · exact absurd (hut.trans hvt.symm) huv
      · rw [hv]
        exact hnew.buffer b (hu ▸ h) v hvt
    · obtain ⟨hvt, hv⟩ | ⟨hvt, hv⟩ := goto_cases s t pc v
      · rw [hv]
        intro hb
        exact hnew.buffer b hb u hut (hu ▸ h)
      · rw [hv]
        exact F.buffers u v b huv (hu ▸ h)
  · intro j hj
    obtain h | ⟨h, u, b, c, r, hp⟩ := F.unread j hj
    · exact Or.inl h
    · refine Or.inr ⟨h, u, b, c, r, ?_⟩
      obtain ⟨hut, -⟩ | ⟨-, hu⟩ := goto_cases s t pc u
      · exact absurd (hut ▸ hp) (hpub b c r)
      · rw [hu]
        exact hp
  · intro u b c r h
    obtain ⟨-, hu⟩ | ⟨-, hu⟩ := goto_cases s t pc u
    · exact hnew.publishing b c r (hu ▸ h)
    · exact F.publishing u b c r (hu ▸ h)

omit [DecidableEq T] in
theorem Flight.not_mem_of_buf (F : Flight Z s A K U) (hb : (role (s.pc t)).buffer = some b) {u : T}
    (hu : u ≠ t) {b' : B} (hb' : (role (s.pc u)).buffer = some b') : b' ≠ b := by
  rintro rfl
  exact F.buffers t u b' (Ne.symm hu) hb hb'

theorem Flight.format [DecidableEq B] (F : Flight Z s A K U) (O : Owned s) {write : Bool}
    (ht : s.pc t = .format b write c) :
    Flight Z { s.goto t (.submit b c) with disk := formatReq s.disk b write c } A K U := by
  have hrole : role (s.pc t) = .buf b := by rw [ht]; rfl
  have hbuf : (role (s.pc t)).buffer = some b := by rw [hrole]; rfl
  have hc : chain (s.pc t) = some c := by rw [ht]; rfl
  have hne : ∀ u ρ, role (s.pc u) = ρ → ρ ≠ .buf b → u ≠ t := by
    rintro u ρ h hρ rfl
    exact hρ (h.symm.trans hrole)
  have hhead : ∀ u d, u ≠ t → chain (s.pc u) = some d → d.i0 ≠ c.i0 := fun u d hu hd =>
    head_ne O hu hd hc
  have hmem : ∀ e ∈ A ++ K ++ U, e.idx.i0 ≠ c.i0 := fun e he =>
    head_ne O (hne e.t _ (F.waiting e he).1 (by simp)) (chain_of_linkedChain (F.mem_chain he)) hc
  have hother : ∀ u b', u ≠ t → (role (s.pc u)).buffer = some b' →
      (formatReq s.disk b write c).disk b' = s.disk.disk b' := fun u b' hu hb' =>
    Function.update_of_ne (F.not_mem_of_buf hbuf hu hb') ..
  have hinfo : ∀ i, i ≠ c.i0 → (formatReq s.disk b write c).infoB i = s.disk.infoB i := fun i hi =>
    Function.update_of_ne hi ..
  have F' := F.setMemory (formatReq s.disk b write c).desc s.disk.free
    (formatReq s.disk b write c).ops (formatReq s.disk b write c).disk
    (formatReq s.disk b write c).infoB (formatReq s.disk b write c).infoStatus
    (fun e he => hinfo _ (hmem e he))
    (fun e he => Function.update_of_ne (hmem e (List.mem_append_right _ he)) ..)
    (fun u b' c' r h => hother u b' (hne u _ h (by simp)) (by rw [h]; rfl))
    (fun u b' c' h => ⟨hother u b' (hne u _ h (by simp)) (by rw [h]; rfl),
      hinfo _ (hhead u c' (hne u _ h (by simp)) (chain_of_linkedChain (chain_of_submit h)))⟩)
    (fun u b' c' r h => ⟨hother u b' (hne u _ h (by simp)) (by rw [h]; rfl),
      hinfo _ (hhead u c' (hne u _ h (by simp)) (chain_of_linkedChain (chain_of_publish h)))⟩)
  refine F'.setRole (.submit b c) (t := t) ?_ ?_ ⟨?_, ?_, ?_, ?_, ?_, ?_, ?_⟩
  · intro b' c' r h
    exact absurd (hrole.symm.trans h) (by simp)
  · intro b' c' r h
    exact absurd (hrole.symm.trans h) (by simp)
  · simp [role]
  · rintro b' c' ⟨⟩
    exact ⟨Function.update_self .., Function.update_self ..⟩
  · simp [role]
  · simp [role]
  · simp [role]
  · simp [role]
  · rintro b' ⟨⟩ u hu hb'
    exact F.not_mem_of_buf hbuf hu hb' rfl

omit [DecidableEq T] in
theorem pair_update {α β : Type} {n : Nat} (f : Fin n → α) (g : Fin n → β) (j : Fin n) (a : α)
    (b : β) : (fun i => (Function.update f j a i, Function.update g j b i)) =
      Function.update (fun i => (f i, g i)) j (a, b) := by
  funext i
  by_cases hi : i = j
  · subst hi
    simp only [Function.update_self]
  · simp only [Function.update_of_ne hi]

omit [DecidableEq T] in
theorem Held.eq (H : Held s) {u v : T} (hu : critical (s.pc u) = true)
    (hv : critical (s.pc v) = true) : u = v := Option.some.inj ((H u hu).symm.trans (H v hv))

omit [DecidableEq T] in
theorem critical_of_publish {pc : Pc B} (h : role pc = .publish b c r) : critical pc = true := by
  cases pc <;> first | rfl | cases h

omit [DecidableEq T] in
theorem critical_of_entry {pc : Pc B} {id : BitVec 32} (h : role pc = .entry id r) :
    critical pc = true := by
  cases pc <;> first | rfl | cases h

omit [DecidableEq T] in
theorem Flight.writeAvail (F : Flight Z s A K U) (O : Owned s)
    (hno : ∀ t b c r, role (s.pc t) ≠ .publish b c r) (i0 : BitVec 16) :
    Flight Z { s with
      disk := { s.disk with
        avail := { s.disk.avail with
          ring := Function.update s.disk.avail.ring (slot V s.disk.avail.idx) i0 } }
      availReq := Function.update s.availReq (slot V s.disk.avail.idx) s.requests
      requests := s.requests + 1 } A K U := by
  have hlen := F.length_le O
  have hthree := V.three_le
  refine ⟨?_, F.takenEq, F.usedQ, F.nodup, F.waiting, F.complete, F.submitted, ?_, F.entry,
    F.answered, F.done, F.buffers, F.unread, F.processed, F.numbers, ?_, ?_, F.status, F.faults⟩
  · change Queued (fun i => (Function.update s.disk.avail.ring _ i0 i,
      Function.update s.availReq _ s.requests i)) _ _ _
    rw [pair_update]
    refine F.availQ.write V.num_dvd ?_ _
    simp only [List.length_append] at hlen
    rw [List.length_map]
    omega
  · intro t b c r h
    exact absurd h (hno t b c r)
  · exact fun r hr => Nat.lt_succ_of_lt (F.numbered r hr)
  · intro t b c r h
    exact absurd h (hno t b c r)

omit [DecidableEq T] in
theorem Flight.next_read (F : Flight Z s A K U) (O : Owned s)
    (hno : ∀ t b c r, role (s.pc t) ≠ .publish b c r) :
    s.unread (slot V s.disk.avail.idx) = false := by
  by_contra h
  have hlen := F.length_le O
  have hthree := V.three_le
  simp only [List.length_append] at hlen
  obtain ⟨i, hi, hj⟩ | ⟨-, t, b, c, r, hp⟩ := F.unread _ (by simpa using h)
  · have hcell := F.availQ.cell_eq V.num_dvd
    rw [List.length_map] at hcell
    exact ofNat_add_ne (by omega) (by omega) (by omega) (hj.symm.trans hcell)
  · exact hno t b c r hp

omit [DecidableEq T] in
theorem Held.no_publish (H : Held s) (ht : critical (s.pc t) = true)
    (hrole : ∀ b c r, role (s.pc t) ≠ .publish b c r) (u : T) (b : B) (c : Idx) (r : Nat) :
    role (s.pc u) ≠ .publish b c r := by
  intro h
  obtain rfl := Held.eq H (critical_of_publish h) ht
  exact hrole b c r h

theorem Flight.submit (F : Flight Z s A K U) (O : Owned s) (H : Held s)
    (ht : s.pc t = .submit b c) : Flight Z (putAvail s t b c) A K U := by
  have hrole : role (s.pc t) = .submit b c := by rw [ht]; rfl
  have hno := Held.no_publish H (t := t) (by rw [ht]; rfl) (by simp [hrole])
  have hbuf : (role (s.pc t)).buffer = some b := by rw [hrole]; rfl
  have F₁ := F.writeAvail O hno (BitVec.ofNat 16 c.i0)
  obtain ⟨hdisk, hinfo⟩ := F.submitted t b c hrole
  have F₂ := F₁.setRole (.publish b c s.requests) (t := t)
    (fun b' c' r h => absurd (hrole.symm.trans h) (by simp))
    (fun b' c' r h => absurd (hrole.symm.trans h) (by simp)) (by
      refine ⟨by simp [role], by simp [role], ?_, ?_, by simp [role], by simp [role], ?_⟩
      · rintro b' c' r ⟨⟩
        exact ⟨hdisk, hinfo, Function.update_self .., Function.update_self ..⟩
      · rintro b' c' r ⟨⟩
        exact ⟨Nat.lt_succ_self _, fun h => Nat.lt_irrefl _ (F.numbered _ h)⟩
      · rintro b' ⟨⟩ u hu hb'
        exact F.not_mem_of_buf hbuf hu hb' rfl)
  refine ⟨F₂.availQ, F₂.takenEq, F₂.usedQ, F₂.nodup, F₂.waiting, F₂.complete, F₂.submitted,
    F₂.published, F₂.entry, F₂.answered, F₂.done, F₂.buffers, ?_, F₂.processed, F₂.numbers,
    F₂.numbered, F₂.publishing, F₂.status, F₂.faults⟩
  intro j hj
  by_cases hjs : j = slot V s.disk.avail.idx
  · have hpc : (putAvail s t b c).pc t = .publish b c s.requests := goto_pc_self ..
    exact Or.inr ⟨hjs, t, b, c, s.requests, by rw [hpc]; rfl⟩
  · exact F₂.unread j ((Function.update_of_ne hjs ..).symm.trans hj)

omit [DecidableEq T] in
theorem perm_push (A K U : List (Req B T)) (e : Req B T) :
    ((A ++ [e]) ++ K ++ U).Perm (e :: (A ++ K ++ U)) := by
  simp only [List.append_assoc, List.singleton_append]
  exact List.perm_middle

omit [DecidableEq T] in
theorem mem_push {A K U : List (Req B T)} : e' ∈ (A ++ [e]) ++ K ++ U ↔
    e' = e ∨ e' ∈ A ++ K ++ U := by
  rw [(perm_push A K U e).mem_iff, List.mem_cons]

omit [DecidableEq T] in
theorem numbers_push {P : List Nat} (hnodup : (P ++ (K ++ A).map Req.r).Nodup)
    (hfresh : e.r ∉ P ++ (K ++ A).map Req.r) {n : Nat}
    (hlt : ∀ r ∈ P ++ (K ++ A).map Req.r, r < n) (he : e.r < n) :
    (P ++ (K ++ (A ++ [e])).map Req.r).Nodup ∧ ∀ r ∈ P ++ (K ++ (A ++ [e])).map Req.r, r < n := by
  have hpush : P ++ (K ++ (A ++ [e])).map Req.r = (P ++ (K ++ A).map Req.r) ++ [e.r] := by simp
  rw [hpush]
  constructor
  · refine List.nodup_append.mpr ⟨hnodup, List.nodup_singleton _, ?_⟩
    intro a ha b hb
    rw [List.mem_singleton] at hb
    rintro rfl
    exact hfresh (hb ▸ ha)
  · intro r hr
    obtain hr | hr := List.mem_append.mp hr
    · exact hlt r hr
    · exact List.mem_singleton.mp hr ▸ he

omit [DecidableEq T] in
/-- The new index covers the entry that has been written before it. -/
theorem Flight.unread_push (F : Flight Z s A K U) {j : Fin V.num} (hj : s.unread j = true) :
    ∃ i < (A ++ [e]).length, j = Fin.ofNat V.num (s.consumed.toNat + i) := by
  rw [List.length_append, List.length_singleton]
  obtain ⟨i, hi, hji⟩ | ⟨hjs, -⟩ := F.unread j hj
  · exact ⟨i, by omega, hji⟩
  · refine ⟨A.length, by omega, hjs.trans ?_⟩
    have hcell := F.availQ.cell_eq V.num_dvd
    rwa [List.length_map] at hcell

theorem Flight.publish (F : Flight Z s A K U) (O : Owned s) (H : Held s)
    (ht : s.pc t = .publish b c r) :
    Flight Z (publishAvail s t b c r) (A ++ [⟨t, b, c, r⟩]) K U := by
  have hrole : role (s.pc t) = .publish b c r := by rw [ht]; rfl
  have hno : ∀ u b' c' r', u ≠ t → role (s.pc u) ≠ .publish b' c' r' := fun u b' c' r' hu h =>
    hu (Held.eq H (critical_of_publish h) (critical_of_publish hrole))
  obtain ⟨hdisk, hinfo, hring, hreq⟩ := F.published t b c r hrole
  obtain ⟨hlt, hfresh⟩ := F.publishing t b c r hrole
  have hlen := F.length_le O
  have hnum := num_le V
  simp only [List.length_append] at hlen
  have hne : ∀ e ∈ A ++ K ++ U, e.t ≠ t := by
    rintro e he rfl
    have := (F.waiting e he).1
    rw [hrole] at this
    cases this
  have hcases := goto_cases s t (.wait b c r)
  have hnone : ∀ u b' c' r', role ((s.goto t (.wait b c r)).pc u) ≠ .publish b' c' r' := by
    intro u b' c' r'
    obtain ⟨-, hu⟩ | ⟨hut, hu⟩ := hcases u
    · rw [hu]
      simp [role]
    · rw [hu]
      exact hno u b' c' r' hut
  obtain ⟨hnodup, hbound⟩ :=
    numbers_push (e := ⟨t, b, c, r⟩) F.numbers hfresh F.numbered hlt
  refine ⟨?_, F.takenEq, F.usedQ, ?_, ?_, ?_, ?_, ?_, ?_, ?_, ?_, ?_,
    fun j hj => .inl (F.unread_push hj), F.processed, hnodup, hbound, ?_, F.status, F.faults⟩
  · rw [List.map_append]
    refine F.availQ.advance V.num_dvd ?_ ?_
    · rw [List.length_map]
      omega
    · exact Prod.ext hring hreq
  · rw [((perm_push A K U ⟨t, b, c, r⟩).map Req.t).nodup_iff, List.map_cons, List.nodup_cons]
    refine ⟨?_, F.nodup⟩
    rintro h
    obtain ⟨e, he, het⟩ := List.mem_map.mp h
    exact hne e he het
  · intro e he
    obtain rfl | he := mem_push.mp he
    · refine ⟨?_, hdisk, hinfo⟩
      change role ((s.goto t (.wait b c r)).pc t) = _
      rw [goto_pc_self]
      rfl
    · refine ⟨?_, (F.waiting e he).2⟩
      change role ((s.goto t (.wait b c r)).pc e.t) = _
      rw [goto_pc_of_ne s _ (hne e he)]
      exact (F.waiting e he).1
  · intro u b' c' r' h hd
    obtain ⟨rfl, hu⟩ | ⟨-, hu⟩ := hcases u
    · cases hu ▸ h
      exact mem_push.mpr (Or.inl rfl)
    · exact mem_push.mpr (Or.inr (F.complete u b' c' r' (hu ▸ h) hd))
  · intro u b' c' h
    obtain ⟨-, hu⟩ | ⟨-, hu⟩ := hcases u
    · cases hu ▸ h
    · exact F.submitted u b' c' (hu ▸ h)
  · exact fun u b' c' r' h => absurd h (hnone u b' c' r')
  · intro u id r' h
    obtain ⟨-, hu⟩ | ⟨-, hu⟩ := hcases u
    · cases hu ▸ h
    · exact F.entry u id r' (hu ▸ h)
  · intro u b' c' r' h hd
    obtain ⟨-, hu⟩ | ⟨-, hu⟩ := hcases u
    · cases hu ▸ h
      exact absurd (hdisk.symm.trans hd) (by simp)
    · exact F.answered u b' c' r' (hu ▸ h) hd
  · intro u b' r' h
    obtain ⟨-, hu⟩ | ⟨-, hu⟩ := hcases u
    · cases hu ▸ h
    · exact F.done u b' r' (hu ▸ h)
  · have hbuf : ∀ u, (role ((s.goto t (.wait b c r)).pc u)).buffer = (role (s.pc u)).buffer := by
      intro u
      obtain ⟨rfl, hu⟩ | ⟨-, hu⟩ := hcases u
      · rw [hu, hrole]
        rfl
      · rw [hu]
    intro u v b' huv h
    have h' : (role (s.pc u)).buffer = some b' := hbuf u ▸ h
    exact fun hv => F.buffers u v b' huv h' (hbuf v ▸ hv)
  · exact fun u b' c' r' h => absurd h (hnone u b' c' r')

theorem Flight.finish (F : Flight Z s A K U) (O : Owned s) (ht : s.pc t = .finish b c r) :
    Flight Z (finishReq s t b c r) A K U := by
  have hrole : role (s.pc t) = .done b r := by rw [ht]; rfl
  have hc : chain (s.pc t) = some c := by rw [ht]; rfl
  have hne : ∀ u ρ, role (s.pc u) = ρ → ρ ≠ .done b r → u ≠ t := by
    rintro u ρ h hρ rfl
    exact hρ (h.symm.trans hrole)
  have hinfo : ∀ u d, u ≠ t → chain (s.pc u) = some d →
      Function.update s.disk.infoB c.i0 none d.i0 = s.disk.infoB d.i0 := fun u d hu hd =>
    Function.update_of_ne (head_ne O hu hd hc) ..
  have hfc := freeChain_eq (d := { s.disk with infoB := Function.update s.disk.infoB c.i0 none })
    ((O.linked t c (by rw [ht]; rfl)).congr fun _ _ => rfl) (O.nodup t c hc) (O.used t c hc)
  have F₁ := F.setMemory s.disk.desc s.disk.free s.disk.ops s.disk.disk
    (Function.update s.disk.infoB c.i0 none) s.disk.infoStatus
    (fun e he => hinfo e.t e.idx (hne _ _ (F.waiting e he).1 (by simp))
      (chain_of_linkedChain (F.mem_chain he)))
    (fun _ _ => rfl) (fun _ _ _ _ _ => rfl)
    (fun u b' c' h => ⟨rfl, hinfo u c' (hne u _ h (by simp))
      (chain_of_linkedChain (chain_of_submit h))⟩)
    (fun u b' c' r' h => ⟨rfl, hinfo u c' (hne u _ h (by simp))
      (chain_of_linkedChain (chain_of_publish h))⟩)
  rw [finishReq, hfc]
  refine F₁.frame _ s.vdiskLock (freed3 s.disk c).desc (freed3 s.disk c).free ?_
  intro u
  exact goto_apply role (by rw [hrole]; rfl) u

theorem Flight.intrNext (F : Flight Z s A K U) (ht : s.pc t = .intrLoop)
    (hused : s.disk.usedIdx ≠ s.disk.used.idx) :
    Flight Z (s.goto t (.intrEntry (s.disk.used.ring (slot V s.disk.usedIdx))
      (s.usedReq (slot V s.disk.usedIdx)))) A K U := by
  have hrole : role (s.pc t) = .none := by rw [ht]; rfl
  have hU : U ≠ [] := fun h => F.usedQ.ne_nil hused (by rw [h]; rfl)
  obtain ⟨e, U', rfl⟩ := List.exists_cons_of_ne_nil hU
  obtain ⟨hcell, -⟩ := F.usedQ.pop V.num_dvd
  refine F.setRole _ (by simp [hrole]) (by simp [hrole]) ⟨?_, ?_, ?_, ?_, ?_, ?_, ?_⟩
  · simp [role]
  · simp [role]
  · simp [role]
  · simp [role]
  · rintro id r ⟨⟩
    exact ⟨e, U', rfl, hcell.symm⟩
  · simp [role]
  · rintro b' ⟨⟩

omit [DecidableEq T] in
theorem Flight.entry_req (F : Flight Z s A K U) (O : Owned s) {id : BitVec 32}
    (h : role (s.pc t) = .entry id r) :
    ∃ e U', U = e :: U' ∧ e ∈ A ++ K ++ U ∧ id.toNat = e.idx.i0 ∧ e.r = r := by
  obtain ⟨e, U', rfl, he⟩ := F.entry t id r h
  have hmem : e ∈ A ++ K ++ (e :: U') := List.mem_append_right _ List.mem_cons_self
  obtain ⟨rfl, rfl⟩ := Prod.mk.inj he
  refine ⟨e, U', rfl, hmem, ?_, rfl⟩
  rw [BitVec.toNat_setWidth_of_le (by decide), F.head_toNat O hmem]

omit [DecidableEq T] in
theorem perm_pop (A K U : List (Req B T)) (e : Req B T) :
    (A ++ K ++ (e :: U)).Perm (e :: (A ++ K ++ U)) := List.perm_middle

theorem Flight.popUsed [DecidableEq B] {U' : List (Req B T)} (F : Flight Z s A K (e :: U'))
    (hno : ∀ u id r, role (s.pc u) ≠ .entry id r) :
    Flight Z { s with
      disk := { s.disk with
        disk := Function.update s.disk.disk e.b false
        usedIdx := s.disk.usedIdx + 1 }
      processed := s.processed ++ [e.r] } A K U' := by
  have hmem : e ∈ A ++ K ++ (e :: U') := List.mem_append_right _ List.mem_cons_self
  have hold : ∀ x ∈ A ++ K ++ U', x ∈ A ++ K ++ (e :: U') := fun x hx =>
    (perm_pop A K U' e).mem_iff.mpr (List.mem_cons_of_mem e hx)
  have hrole := (F.waiting e hmem).1
  have hbuf : (role (s.pc e.t)).buffer = some e.b := by rw [hrole]; rfl
  have hother : ∀ u b', u ≠ e.t → (role (s.pc u)).buffer = some b' →
      Function.update s.disk.disk e.b false b' = s.disk.disk b' := fun u b' hu hb' =>
    Function.update_of_ne (F.not_mem_of_buf hbuf hu hb') ..
  have hnodup := ((perm_pop A K U' e).map Req.t).nodup_iff.mp F.nodup
  rw [List.map_cons, List.nodup_cons] at hnodup
  have hne : ∀ u ρ, role (s.pc u) = ρ → ρ ≠ .wait e.b e.idx e.r → u ≠ e.t := by
    rintro u ρ h hρ rfl
    exact hρ (h.symm.trans hrole)
  have hposted : e.r ∈ s.posted := by
    rw [← F.processed, List.map_cons]
    exact List.mem_append_right _ List.mem_cons_self
  refine ⟨F.availQ, F.takenEq, (F.usedQ.pop V.num_dvd).2, hnodup.2, ?_, ?_, ?_, ?_, ?_, ?_, F.done,
    F.buffers, F.unread, ?_, F.numbers, F.numbered, F.publishing, ?_, F.faults⟩
  · intro x hx
    obtain ⟨hw, hd, hb⟩ := F.waiting x (hold x hx)
    have hxt : x.t ≠ e.t := fun h => hnodup.1 (h ▸ List.mem_map_of_mem hx)
    exact ⟨hw, (hother x.t x.b hxt (by rw [hw]; rfl)).trans hd, hb⟩
  · intro u b' c' r' h hd
    have hut : u ≠ e.t := by
      rintro rfl
      cases hrole.symm.trans h
      exact absurd ((Function.update_self e.b false s.disk.disk).symm.trans hd) (by simp)
    have hin := F.complete u b' c' r' h ((hother u b' hut (by rw [h]; rfl)).symm.trans hd)
    obtain rfl | hin := List.mem_cons.mp ((perm_pop A K U' e).mem_iff.mp hin)
    · exact absurd rfl hut
    · exact hin
  · intro u b' c' h
    obtain ⟨hd, hb⟩ := F.submitted u b' c' h
    exact ⟨(hother u b' (hne u _ h (by simp)) (by rw [h]; rfl)).trans hd, hb⟩
  · intro u b' c' r' h
    obtain ⟨hd, hrest⟩ := F.published u b' c' r' h
    exact ⟨(hother u b' (hne u _ h (by simp)) (by rw [h]; rfl)).trans hd, hrest⟩
  · exact fun u id r' h => absurd h (hno u id r')
  · intro u b' c' r' h hd
    by_cases hut : u = e.t
    · subst hut
      cases hrole.symm.trans h
      exact hposted
    · exact F.answered u b' c' r' h ((hother u b' hut (by rw [h]; rfl)).symm.trans hd)
  · rw [List.append_assoc]
    exact F.processed
  · exact fun x hx => F.status x (List.mem_cons_of_mem e hx)

omit [DecidableEq T] in
theorem Flight.fault (F : Flight Z s A K U) {st : BitVec 8} (hst : st ≠ 0) (hZ : Z st) :
    Flight Z { s with fault := some (.panic "virtio_disk_intr status") } A K U :=
  ⟨F.availQ, F.takenEq, F.usedQ, F.nodup, F.waiting, F.complete, F.submitted, F.published, F.entry,
    F.answered, F.done, F.buffers, F.unread, F.processed, F.numbers, F.numbered, F.publishing,
    F.status, Or.inr ⟨rfl, st, hst, hZ⟩⟩

theorem Flight.intrBody [DecidableEq B] (F : Flight Z s A K U) (O : Owned s) (H : Held s)
    {id : BitVec 32} (ht : s.pc t = .intrEntry id r) :
    ∃ U', Flight Z (intrBody s t id r) A K U' := by
  have hrole : role (s.pc t) = .entry id r := by rw [ht]; rfl
  obtain ⟨e, U', rfl, hmem, hid, rfl⟩ := F.entry_req O hrole
  rw [Virtio.intrBody, hid]
  split
  · rename_i hst
    exact ⟨_, F.fault hst (F.status e List.mem_cons_self)⟩
  · obtain ⟨-, -, hinfo⟩ := F.waiting e hmem
    rw [hinfo]
    have F₁ : Flight Z (s.goto t .intrLoop) A K (e :: U') := by
      refine F.setRole _ (by simp [hrole]) (by simp [hrole]) ⟨?_, ?_, ?_, ?_, ?_, ?_, ?_⟩
      all_goals simp [role, Role.buffer]
    refine ⟨U', F₁.popUsed ?_⟩
    intro u id' r' h
    obtain ⟨-, hu⟩ | ⟨hut, hu⟩ := goto_cases s t .intrLoop u
    · cases hu ▸ h
    · have hc : critical (s.pc u) = true := critical_of_entry (hu ▸ h)
      exact hut (Held.eq H hc (critical_of_entry hrole))

omit [DecidableEq T] in
theorem Flight.consume [DecidableEq B] {A' : List (Req B T)} (F : Flight Z s (e :: A') K U)
    (O : Owned s) :
    Flight Z { s with
      consumed := s.consumed + 1
      taken := s.taken ++
        [{ head := s.disk.avail.ring (slot V s.consumed)
           status := statusAddr s.disk (s.disk.avail.ring (slot V s.consumed))
           r := s.availReq (slot V s.consumed) }]
      unread := Function.update s.unread (slot V s.consumed) false } A' (K ++ [e]) U := by
  have hmem : e ∈ (e :: A') ++ K ++ U := List.mem_cons_self
  obtain ⟨hcell, hQ⟩ := F.availQ.pop V.num_dvd
  obtain ⟨hhead, hreq⟩ := Prod.mk.inj hcell
  have hlink := O.linked e.t e.idx (F.mem_chain hmem)
  have hstatus : statusAddr s.disk (s.disk.avail.ring (slot V s.consumed)) =
      .status e.idx.i0 := by
    rw [statusAddr, slot, hhead, F.head_toNat O hmem, hlink.next0, hlink.next1, hlink.addr2]
  have hperm : (A' ++ (K ++ [e]) ++ U).Perm ((e :: A') ++ K ++ U) := by
    simp only [List.append_assoc, List.cons_append]
    rw [← List.append_assoc, ← List.append_assoc]
    exact List.perm_middle
  have hnumbers : s.posted ++ ((K ++ [e]) ++ A').map Req.r =
      s.posted ++ (K ++ (e :: A')).map Req.r := by simp
  refine ⟨hQ, ?_, F.usedQ, (hperm.map Req.t).nodup_iff.mpr F.nodup, ?_, ?_, F.submitted,
    F.published, F.entry, F.answered, F.done, F.buffers, ?_, F.processed, ?_, ?_, ?_, F.status,
    F.faults⟩
  · change s.taken ++ [_] = _
    rw [F.takenEq, List.map_append, hstatus]
    exact congrArg (fun x => K.map Req.taken ++ [x]) (by rw [slot, hhead, hreq]; rfl)
  · exact fun x hx => F.waiting x (hperm.mem_iff.mp hx)
  · exact fun t b c r h hd => hperm.mem_iff.mpr (F.complete t b c r h hd)
  · intro j hj
    have hjs : j ≠ slot V s.consumed := by
      rintro rfl
      exact absurd ((Function.update_self ..).symm.trans hj) (by simp)
    obtain ⟨i, hi, hji⟩ | h := F.unread j ((Function.update_of_ne hjs ..).symm.trans hj)
    · cases i with
      | zero => exact absurd hji hjs
      | succ i =>
        refine Or.inl ⟨i, by simpa using hi, hji.trans ?_⟩
        rw [ofNat_eq_iff]
        change _ = ((s.consumed + 1).toNat + i) % V.num
        rw [Nat.add_mod (s.consumed + 1).toNat, toNat_add_one_mod V.num_dvd, ← Nat.add_mod]
        congr 1
        omega
    · exact Or.inr h
  · rw [hnumbers]
    exact F.numbers
  · rw [hnumbers]
    exact F.numbered
  · intro t b c r h
    rw [hnumbers]
    exact F.publishing t b c r h

omit [DecidableEq T] in
theorem perm_post {K' : List (Req B T)} (A U : List (Req B T)) (hK : (e :: K').Perm K) :
    (A ++ K' ++ (U ++ [e])).Perm (A ++ K ++ U) := by
  rw [← List.append_assoc]
  refine (List.perm_append_singleton e _).trans ?_
  rw [← List.cons_append]
  refine List.Perm.append_right U ?_
  exact List.perm_middle.symm.trans (List.Perm.append_left A hK)

omit [DecidableEq T] in
theorem numbers_post {K' : List (Req B T)} (P : List Nat) (hK : (e :: K').Perm K) :
    ((P ++ [e.r]) ++ (K' ++ A).map Req.r).Perm (P ++ (K ++ A).map Req.r) := by
  rw [List.append_assoc]
  refine List.Perm.append_left _ ?_
  rw [List.singleton_append, ← List.map_cons, ← List.cons_append]
  exact (List.Perm.append_right A hK).map Req.r

omit [DecidableEq T] in
/-- A request that the device has not posted yet shares its head with no entry of the used ring. -/
theorem Flight.head_ne_used (F : Flight Z s A K U) (O : Owned s) (he : e ∈ K) (he' : e' ∈ U) :
    e'.idx.i0 ≠ e.idx.i0 := by
  have hpair := List.pairwise_map.mp F.nodup
  rw [List.pairwise_append] at hpair
  have hne : e.t ≠ e'.t := hpair.2.2 e (List.mem_append_right _ he) e' he'
  have hmem : e ∈ A ++ K ++ U := List.mem_append_left _ (List.mem_append_right _ he)
  exact head_ne O hne.symm (chain_of_linkedChain (F.mem_chain (List.mem_append_right _ he')))
    (chain_of_linkedChain (F.mem_chain hmem))

omit [DecidableEq T] in
theorem Flight.post (F : Flight Z s A K U) (O : Owned s) {k : Nat} {st : BitVec 8} (hZ : Z st)
    (h : postReq s k st = some s') :
    ∃ e, Flight Z s' A (K.eraseIdx k) (U ++ [e]) := by
  rw [postReq, F.takenEq, List.getElem?_map] at h
  by_cases hk : k < K.length
  case neg =>
    rw [List.getElem?_eq_none (by omega)] at h
    cases h
  rw [List.getElem?_eq_getElem hk] at h
  obtain ⟨e, he⟩ : ∃ e, e = K[k] := ⟨_, rfl⟩
  rw [← he] at h
  have hK : (e :: K.eraseIdx k).Perm K := he ▸ List.getElem_cons_eraseIdx_perm hk
  have heK : e ∈ K := he ▸ List.getElem_mem hk
  have hlen := F.length_le O
  have hpos := List.length_pos_of_mem heK
  have hnum := num_le V
  simp only [List.length_append] at hlen
  have hperm := perm_post A U hK
  have hnumbers := numbers_post (A := A) s.posted hK
  obtain rfl := Option.some.inj h
  refine ⟨e, F.availQ, ?_, ?_, (hperm.map Req.t).nodup_iff.mpr F.nodup, ?_, ?_, F.submitted,
    F.published, ?_, ?_, ?_, F.buffers, F.unread, ?_, hnumbers.nodup_iff.mpr F.numbers, ?_, ?_,
    ?_, F.faults⟩
  · change (K.map Req.taken).eraseIdx k = _
    rw [List.eraseIdx_map]
  · rw [List.map_append]
    change Queued (fun i => (Function.update s.disk.used.ring _ _ i,
      Function.update s.usedReq _ _ i)) _ (s.disk.used.idx + 1) _
    rw [pair_update]
    refine (F.usedQ.write V.num_dvd ?_ _).advance V.num_dvd ?_ (Function.update_self ..)
    · rw [List.length_map]
      omega
    · rw [List.length_map]
      omega
  · exact fun x hx => F.waiting x (hperm.mem_iff.mp hx)
  · exact fun t b c r h hd => hperm.mem_iff.mpr (F.complete t b c r h hd)
  · intro t id r h
    obtain ⟨x, U', rfl, hx⟩ := F.entry t id r h
    exact ⟨x, U' ++ [e], rfl, hx⟩
  · exact fun t b c r h hd => List.mem_append_left _ (F.answered t b c r h hd)
  · exact fun t b r h => List.mem_append_left _ (F.done t b r h)
  · rw [List.map_append, ← List.append_assoc, F.processed]
    rfl
  · exact fun r hr => F.numbered r (hnumbers.mem_iff.mp hr)
  · intro t b c r h
    obtain ⟨hlt, hnot⟩ := F.publishing t b c r h
    exact ⟨hlt, fun hr => hnot (hnumbers.mem_iff.mp hr)⟩
  · intro x hx
    change Z (Function.update s.disk.infoStatus e.idx.i0 st x.idx.i0)
    obtain hx | hx := List.mem_append.mp hx
    · rw [Function.update_of_ne (F.head_ne_used O heK hx)]
      exact F.status x hx
    · rw [List.mem_singleton.mp hx, Function.update_self]
      exact hZ

end steps

end Raynix.VirtioRequests
