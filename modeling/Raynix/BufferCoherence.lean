import Raynix.BufferUnique

namespace Raynix.BufferCoherence

open Raynix.Lib.Transition Raynix.BufferCache Raynix.BufferUnique

variable {P : Type} [DecidableEq P]

/-- The contents of a block after the given writes, latest first, to a disk. -/
def latest (disk : BitVec 32 → Block) : List Written → BitVec 32 → Block
  | [], blockNo => disk blockNo
  | w :: ws, blockNo => if w.blockNo = blockNo then w.data else latest disk ws blockNo

/-- A modified buffer is written before it is released. -/
def Disciplined (s : State P) (a : Act P) : Prop :=
  ∀ p i, a = .brelease p i → s.dirty i = false

/-- A block is used with one device number only. -/
def OneDevice (devOf : BitVec 32 → BitVec 32) (_ : State P) (a : Act P) : Prop :=
  ∀ p reading dev blockNo, a = .bget p reading dev blockNo → dev = devOf blockNo

/-- A process in `bget` or `bread` asks for a block under its device, and what it has found
carries that block. -/
def Asks (devOf : BitVec 32 → BitVec 32) (bs : Fin 30 → Buf) : Pc → Prop
  | .enter _ dev blockNo | .find _ dev blockNo _ | .evict _ dev blockNo _ => dev = devOf blockNo
  | .acquire _ dev blockNo i | .check dev blockNo i | .fill dev blockNo i =>
    dev = devOf blockNo ∧ (bs i).Caches dev blockNo
  | .idle | .lost | .releasing _ => True

/-- A buffer with a reference or contents carries its block under the device of that block. -/
def Homed (devOf : BitVec 32 → BitVec 32) (b : Buf) : Prop :=
  b.valid = true ∨ b.linkNo ≠ 0 → b.dev = devOf b.blockNo

/-- The contents of a buffer not modified since the last transfer are those of its block. -/
def Clean (disk : BitVec 32 → Block) (dirty : Bool) (b : Buf) : Prop :=
  b.valid = true → dirty = false → b.data = disk b.blockNo

structure Coherent (disk : BitVec 32 → Block) (devOf : BitVec 32 → BitVec 32) (s : State P) :
    Prop where
  disk : ∀ blockNo, s.disk blockNo = latest disk s.written blockNo
  clean : ∀ i, Clean s.disk (s.dirty i) (s.cache.buffers i)
  homed : ∀ i, Homed devOf (s.cache.buffers i)
  dirty : ∀ i, s.dirty i = true → s.sleepLock i ≠ none
  transfers : ∀ p i, transfers (s.pc p) = some i → s.dirty i = false
  asks : ∀ p, Asks devOf s.cache.buffers (s.pc p)

variable {disk : BitVec 32 → Block} {devOf : BitVec 32 → BitVec 32}

theorem step_disk {s t : State P} {a : Act P} (hc : Coherent disk devOf s) (h : Step s a t)
    (blockNo : BitVec 32) : t.disk blockNo = latest disk t.written blockNo := by
  cases h with
  | bwrite p i =>
    change Function.update s.disk _ _ blockNo = if _ = blockNo then _ else _
    by_cases hb : (s.cache.buffers i).blockNo = blockNo
    · subst hb
      rw [Function.update_self, if_pos rfl]
    · rw [Function.update_of_ne (Ne.symm hb), if_neg hb, hc.disk]
  | _ => exact hc.disk blockNo

theorem step_dirty {s t : State P} {a : Act P} {i : Fin 30} (hc : Coherent disk devOf s)
    (hd : Disciplined s a) (h : Step s a t) (hi : t.dirty i = true) : t.sleepLock i ≠ none := by
  cases h with
  | acquire p reading dev blockNo j =>
    change Function.update s.sleepLock j (some p) i ≠ none
    by_cases hj : i = j
    · simp [hj]
    · rw [Function.update_of_ne hj]
      exact hc.dirty i hi
  | modify p j data hpc hl =>
    by_cases hj : i = j
    · simp [hj, hl]
    · exact hc.dirty i ((Function.update_of_ne hj _ _).symm.trans hi)
  | bwrite p j hpc hl =>
    by_cases hj : i = j
    · simp [hj, hl]
    · exact hc.dirty i ((Function.update_of_ne hj _ _).symm.trans hi)
  | brelease p j =>
    change Function.update s.sleepLock j none i ≠ none
    have hij : i ≠ j := by
      rintro rfl
      exact Bool.false_ne_true ((hd p i rfl).symm.trans hi)
    rw [Function.update_of_ne hij]
    exact hc.dirty i hi
  | _ => exact hc.dirty i hi

theorem transfers_cases {s t : State P} {a : Act P} {q : P} {i : Fin 30} (h : Step s a t)
    (hi : transfers (t.pc q) = some i) :
    transfers (s.pc q) = some i ∨ s.sleepLock i = none ∧ t.dirty = s.dirty := by
  by_cases hq : q = actor a
  · subst hq
    cases h with
    | acquire p reading dev blockNo j hpc hl =>
      right
      cases reading <;> simp_all [actor, State.goto, transfers]
    | check p dev blockNo j hpc =>
      left
      by_cases hv : (s.cache.buffers j).valid = true <;>
        simp_all [actor, State.goto, transfers]
    | spin | modify | bwrite => exact .inl hi
    | _ => simp [actor, State.goto, transfers] at hi
  · rw [step_other_pc h hq] at hi
    exact .inl hi

theorem step_transfers {s t : State P} {a : Act P} {q : P} {i : Fin 30}
    (hc : Coherent disk devOf s) (hs : Locked s) (h : Step s a t)
    (hi : transfers (t.pc q) = some i) : t.dirty i = false := by
  obtain hold | ⟨hl, hd⟩ := transfers_cases h hi
  · have hclean := hc.transfers q i hold
    cases h with
    | modify p j data hpc hl =>
      have hij : i ≠ j := by
        rintro rfl
        have hpq : p = q := Option.some.inj (hl.symm.trans (hs.transfers q i hold))
        rw [← hpq, hpc] at hold
        cases hold
      exact (Function.update_of_ne hij _ _).trans hclean
    | bwrite p j =>
      change Function.update s.dirty j false i = false
      by_cases hij : i = j
      · rw [hij, Function.update_self]
      · rw [Function.update_of_ne hij, hclean]
    | _ => exact hclean
  · rw [hd]
    by_contra hn
    exact hc.dirty i (by simpa using hn) hl

theorem step_homed {s t : State P} {a : Act P} (hc : Coherent disk devOf s)
    (hs : Locked s) (hcnt : ∀ i, Counted s i) (h : Step s a t) :
    ∀ i, Homed devOf (t.cache.buffers i) := by
  have hupdate : ∀ i b, Homed devOf b →
      ∀ j, Homed devOf (Function.update s.cache.buffers i b j) := by
    intro i b hb
    exact (Function.forall_update_iff _ (fun _ => Homed devOf)).mpr ⟨hb, fun j _ => hc.homed j⟩
  cases h with
  | drop p i hl hpc =>
    change ∀ j, Homed devOf ((dropLink s.cache i).buffers j)
    rw [dropLink_buffers]
    apply hupdate
    intro _
    exact hc.homed i (.inr (fun h0 => (hcnt i).counts_ne p h0 (by simp [hpc, counts])))
  | hit p reading dev blockNo i hpc hca =>
    apply hupdate
    intro _
    have hask := hc.asks p
    rw [hpc] at hask
    exact hca.1.trans (hask.trans (congrArg devOf hca.2.symm))
  | recycle p reading dev blockNo i hpc =>
    apply hupdate
    intro _
    have hask := hc.asks p
    rwa [hpc] at hask
  | fill p dev blockNo i hpc =>
    apply hupdate
    intro _
    exact hc.homed i (.inr ((hcnt i).linkNo_ne_zero (hs.transfers p i (by simp [hpc, transfers]))))
  | modify p i data =>
    apply hupdate
    exact hc.homed i
  | _ => exact hc.homed

theorem step_clean {s t : State P} {a : Act P} (hc : Coherent disk devOf s) (hs : Inv s)
    (h : Step s a t) : ∀ i, Clean t.disk (t.dirty i) (t.cache.buffers i) := by
  have hupdate : ∀ i b, Clean s.disk (s.dirty i) b →
      ∀ j, Clean s.disk (s.dirty j) (Function.update s.cache.buffers i b j) := by
    intro i b hb
    apply (Function.forall_update_iff _ (fun j => Clean s.disk (s.dirty j))).mpr
    exact ⟨hb, fun j _ => hc.clean j⟩
  cases h with
  | drop p i =>
    change ∀ j, Clean s.disk (s.dirty j) ((dropLink s.cache i).buffers j)
    rw [dropLink_buffers]
    exact hupdate i _ (hc.clean i)
  | hit p reading dev blockNo i => exact hupdate i _ (hc.clean i)
  | recycle p reading dev blockNo i =>
    apply hupdate
    intro hv
    cases hv
  | fill p dev blockNo i =>
    apply hupdate
    intro _ _
    rfl
  | modify p i data =>
    intro j
    change Clean s.disk (Function.update s.dirty i true j) (Function.update s.cache.buffers i _ j)
    by_cases hj : j = i
    · rw [hj, Function.update_self]
      intro _ hd
      cases hd
    · rw [Function.update_of_ne hj, Function.update_of_ne hj]
      exact hc.clean j
  | bwrite p i hpc hl =>
    intro j
    change Clean (Function.update s.disk _ _) (Function.update s.dirty i false j)
      (s.cache.buffers j)
    by_cases hj : j = i
    · subst hj
      intro _ _
      rw [Function.update_self]
    · rw [Function.update_of_ne hj]
      intro hv hd
      obtain ⟨order, ho⟩ := hs.ordered
      have hi := (hs.counted i).linkNo_ne_zero hl
      -- A valid copy of the written block would be a second one.
      have hne : (s.cache.buffers j).blockNo ≠ (s.cache.buffers i).blockNo := by
        intro he
        have hdev : (s.cache.buffers i).dev = (s.cache.buffers j).dev := by
          rw [hc.homed i (.inr hi), hc.homed j (.inl hv), he]
        have hout := ho.others (Ne.symm hj) hi ⟨hdev, he.symm⟩
        rw [hv] at hout
        cases hout.2
      rw [Function.update_of_ne hne]
      exact hc.clean j hv hd
  | _ => exact hc.clean

theorem step_sameBlock {s t : State P} {a : Act P} {i : Fin 30} (h : Step s a t)
    (hi : (s.cache.buffers i).linkNo ≠ 0) :
    SameBlock (t.cache.buffers i) (s.cache.buffers i) := by
  have hupdate : ∀ j b, (j = i → SameBlock b (s.cache.buffers i)) →
      SameBlock (Function.update s.cache.buffers j b i) (s.cache.buffers i) := by
    intro j b hb
    by_cases hj : i = j
    · rw [hj, Function.update_self]
      exact hj ▸ hb hj.symm
    · rw [Function.update_of_ne hj]
      exact ⟨rfl, rfl⟩
  cases h with
  | drop p j =>
    change SameBlock ((dropLink s.cache j).buffers i) _
    rw [dropLink_buffers]
    apply hupdate
    rintro rfl
    exact ⟨rfl, rfl⟩
  | recycle p reading dev blockNo j hpc hl =>
    apply hupdate
    rintro rfl
    exact absurd hl hi
  | hit p reading dev blockNo j =>
    apply hupdate
    rintro rfl
    exact ⟨rfl, rfl⟩
  | fill p dev blockNo j =>
    apply hupdate
    rintro rfl
    exact ⟨rfl, rfl⟩
  | modify p j data =>
    apply hupdate
    rintro rfl
    exact ⟨rfl, rfl⟩
  | _ => exact ⟨rfl, rfl⟩

omit [DecidableEq P] in
theorem linkNo_ne_zero_of_counts {s : State P} {p : P} {i : Fin 30} (hs : Inv s)
    (h : counts (s.pc p) = some i ∨ transfers (s.pc p) = some i) :
    (s.cache.buffers i).linkNo ≠ 0 := by
  obtain h | h := h
  · exact fun h0 => (hs.counted i).counts_ne p h0 h
  · exact (hs.counted i).linkNo_ne_zero (hs.locked.transfers p i h)

theorem Asks.congr {bs bs' : Fin 30 → Buf} {pc : Pc} (h : Asks devOf bs pc)
    (hb : ∀ i, counts pc = some i ∨ transfers pc = some i → SameBlock (bs' i) (bs i)) :
    Asks devOf bs' pc := by
  cases pc with
  | acquire reading dev blockNo i =>
    have hi := hb i (.inl rfl)
    exact ⟨h.1, hi.1.trans h.2.1, hi.2.trans h.2.2⟩
  | check dev blockNo i | fill dev blockNo i =>
    have hi := hb i (.inr rfl)
    exact ⟨h.1, hi.1.trans h.2.1, hi.2.trans h.2.2⟩
  | _ => exact h

theorem asks_update {bs : Fin 30 → Buf} {pc : P → Pc} {p : P} {new : Pc}
    (h : Asks devOf bs new) : Asks devOf bs (Function.update pc p new p) := by
  rwa [Function.update_self]

theorem asks_acquire {bs : Fin 30 → Buf} {pc : P → Pc} {p : P} {reading : Bool}
    {dev blockNo : BitVec 32} {i : Fin 30} {b : Buf} (h : dev = devOf blockNo)
    (hb : b.Caches dev blockNo) : Asks devOf (Function.update bs i b)
      (Function.update pc p (.acquire reading dev blockNo i) p) := by
  apply asks_update
  refine ⟨h, ?_⟩
  rw [Function.update_self]
  exact hb

theorem step_actor_asks {s t : State P} {a : Act P} (hc : Coherent disk devOf s)
    (hone : OneDevice devOf s a) (h : Step s a t) :
    Asks devOf t.cache.buffers (t.pc (actor a)) := by
  have hask := hc.asks (actor a)
  cases h with
  | enter p reading dev blockNo => exact asks_update (hone p reading dev blockNo rfl)
  | lock p reading dev blockNo hl hpc | miss p reading dev blockNo hpc
  | next p reading dev blockNo i hpc =>
    rw [actor, hpc] at hask
    exact asks_update hask
  | hit p reading dev blockNo i hpc hca =>
    rw [actor, hpc] at hask
    exact asks_acquire hask hca
  | recycle p reading dev blockNo i hpc hl =>
    rw [actor, hpc] at hask
    exact asks_acquire hask ⟨rfl, rfl⟩
  | acquire p reading dev blockNo i hpc hl =>
    rw [actor, hpc] at hask
    apply asks_update
    cases reading with
    | true => exact hask
    | false => trivial
  | check p dev blockNo i hpc =>
    rw [actor, hpc] at hask
    apply asks_update
    split
    · trivial
    · exact hask
  | modify p i data hpc =>
    change Asks devOf _ (s.pc p)
    rw [hpc]
    trivial
  | spin | bwrite => exact hask
  | drop | lose | fill | brelease => exact asks_update trivial

theorem step_asks {s t : State P} {a : Act P} (hc : Coherent disk devOf s) (hs : Inv s)
    (hone : OneDevice devOf s a) (h : Step s a t) (q : P) :
    Asks devOf t.cache.buffers (t.pc q) := by
  by_cases hq : q = actor a
  · subst hq
    exact step_actor_asks hc hone h
  · rw [step_other_pc h hq]
    exact (hc.asks q).congr (fun i hi => step_sameBlock h (linkNo_ne_zero_of_counts hs hi))

theorem step_coherent {s t : State P} {a : Act P} (hc : Coherent disk devOf s) (hs : Inv s)
    (hd : Disciplined s a) (hone : OneDevice devOf s a) (h : Step s a t) :
    Coherent disk devOf t where
  disk := step_disk hc h
  clean := step_clean hc hs h
  homed := step_homed hc hs.locked hs.counted h
  dirty _ := step_dirty hc hd h
  transfers _ _ := step_transfers hc hs.locked h
  asks := step_asks hc hs hone h

/-- `bread(dev, blockNo)` of process `p` returns buffer `i`. -/
def Returns (s : State P) (a : Act P) (t : State P) (dev blockNo : BitVec 32) (i : Fin 30) : Prop :=
  ∃ p, a = .run p ∧ (s.pc p = .check dev blockNo i ∨ s.pc p = .fill dev blockNo i) ∧
    t.pc p = .idle

/-- A `bread` that returns gives the last completed write of its block. -/
def ReadsLatest (disk : BitVec 32 → Block) (s : State P) (a : Act P) : Prop :=
  ∀ t dev blockNo i, step s a = some t → Returns s a t dev blockNo i →
    (t.cache.buffers i).data = latest disk t.written blockNo

theorem readsLatest_of_coherent {s t : State P} {a : Act P} {dev blockNo : BitVec 32} {i : Fin 30}
    (hc : Coherent disk devOf s) (h : Step s a t) (hr : Returns s a t dev blockNo i) :
    (t.cache.buffers i).data = latest disk t.written blockNo := by
  obtain ⟨p, rfl, hpc, hidle⟩ := hr
  have hask := hc.asks p
  cases h with
  | check _ dev' blockNo' j hpc' =>
    obtain ⟨rfl, rfl, rfl⟩ : dev' = dev ∧ blockNo' = blockNo ∧ j = i := by simp_all
    rw [hpc'] at hask
    have hv : (s.cache.buffers j).valid = true := by
      by_contra hn
      change Function.update s.pc p _ p = .idle at hidle
      rw [Function.update_self, if_neg hn] at hidle
      cases hidle
    have hdata := hc.clean j hv (hc.transfers p j (by simp [hpc', transfers]))
    rw [hask.2.2, hc.disk] at hdata
    exact hdata
  | fill _ dev' blockNo' j hpc' =>
    obtain ⟨rfl, rfl, rfl⟩ : dev' = dev ∧ blockNo' = blockNo ∧ j = i := by simp_all
    rw [hpc'] at hask
    change (Function.update s.cache.buffers j _ j).data = latest disk s.written blockNo'
    rw [Function.update_self, hask.2.2]
    exact hc.disk blockNo'
  | _ => simp_all

omit [DecidableEq P] in
theorem booted_coherent {s : State P} (hs : Booted s) : Coherent s.disk devOf s where
  disk blockNo := by rw [hs.written]; rfl
  clean i hv := by simp [(hs.buffers i).2] at hv
  homed i hi := by simp [hs.buffers i] at hi
  dirty i hi := by simp [hs.dirty i] at hi
  transfers p i hi := by simp [hs.pc p, transfers] at hi
  asks p := by rw [hs.pc p]; trivial

/-- A process releases only buffers it holds and has written back. -/
structure WellUsed (s : State P) (a : Act P) : Prop where
  own : OwnRelease s a
  disciplined : Disciplined s a

/-- The step names the block by its one device and does not lose a buffer or a reference. -/
structure Intact (devOf : BitVec 32 → BitVec 32) (s : State P) (a : Act P) : Prop where
  device : OneDevice devOf s a
  unlinks : UnlinksWell s a
  noOverflow : NoOverflow s a

/-- Along every run from the state of `binit` in which each block has one device and each last
release finds its buffer behind its recorded predecessor, every `bread` gives the last completed
`bwrite` of its block, or the initial contents. -/
theorem reads_latest {s : State P} {as : List (Act P)} (hs : Booted s)
    (huse : Meets step WellUsed s as) (hok : Meets step (Intact devOf) s as) :
    Meets step (ReadsLatest s.disk) s as := by
  have hstep : ∀ (u : State P) a t, Inv u ∧ Coherent s.disk devOf u →
      WellUsed u a ∧ Intact devOf u a → step u a = some t → Inv t ∧ Coherent s.disk devOf t := by
    intro u a t hu ha ht
    have h := step_cases ht
    exact ⟨step_inv hu.1 ha.1.own ⟨ha.2.unlinks, ha.2.noOverflow⟩ h,
      step_coherent hu.2 hu.1 ha.1.disciplined ha.2.device h⟩
  refine Meets.of_invariant hstep ?_ ⟨booted_inv hs, booted_coherent hs⟩
    (meets_and.mpr ⟨huse, hok⟩)
  intro u a hu _ t dev blockNo i ht hr
  exact readsLatest_of_coherent hu.2 (step_cases ht) hr

instance (s : State P) : ∀ a, Decidable (Disciplined s a)
  | .brelease p i => decidable_of_iff (s.dirty i = false)
      ⟨fun h q j ha => by cases ha; exact h, fun h => h p i rfl⟩
  | .bget .. | .lock .. | .run .. | .modify .. | .bwrite .. => .isTrue nofun

instance (s : State P) : ∀ a, Decidable (OneDevice devOf s a)
  | .bget p reading dev blockNo => decidable_of_iff (dev = devOf blockNo)
      ⟨fun h q r d b ha => by cases ha; exact h, fun h => h p reading dev blockNo rfl⟩
  | .lock .. | .run .. | .modify .. | .bwrite .. | .brelease .. => .isTrue nofun

/-- Reading, changing, writing and releasing block 0. -/
def firstUpdate : List (Act Unit) :=
  List.flatten [fetch () true 0 0 4, [.modify () 0 (fun _ => 1), .bwrite () 0], giveBack () 0]

theorem reads_latest_firstUpdate :
    Meets step (ReadsLatest (bootState : State Unit).disk) bootState firstUpdate := by
  have huse : Meets step (fun s a => OwnRelease s a ∧ Disciplined s a) bootState firstUpdate := by
    decide +kernel
  have hok : Meets step (fun s a => OneDevice (fun _ => 0) s a ∧ UnlinksWell s a ∧
      ∀ i, (s.cache.buffers i).linkNo.toNat < 2 ^ 32 - 1) bootState firstUpdate := by
    decide +kernel
  apply reads_latest bootState_booted
  · exact huse.mono (fun _ _ h => ⟨h.1, h.2⟩)
  · exact hok.mono (fun _ _ h => ⟨h.1, h.2.1, fun i _ => h.2.2 i⟩)

/-- Block 1 is held in buffer 29 when releasing block 0 drops that buffer from the forward list.
A second process reads block 1 into buffer 28, and again after the first one has written it. -/
def staleRead : List (Act Bool) :=
  List.flatten [fetch true true 0 1 35, giveBack true 29, fetch true true 0 1 3,
    fetch false true 0 0 5, giveBack false 0, fetch false true 0 1 34,
    [.modify true 29 (fun _ => 1), .bwrite true 29], giveBack false 28, fetch false true 0 1 2]

theorem staleRead_isSome : (run step (bootState : State Bool) staleRead).isSome := by
  decide +kernel

def beforeStale : State Bool := (run step bootState staleRead).get staleRead_isSome

theorem beforeStale_isSome : (step beforeStale (.run false)).isSome := by
  decide +kernel

theorem not_reads_latest : ¬ ∀ (s : State Bool) (as : List (Act Bool)), Booted s →
    Meets step WellUsed s as → Meets step (ReadsLatest s.disk) s as := by
  intro h
  have huse : Meets step (fun s a => OwnRelease s a ∧ Disciplined s a) bootState
      (staleRead ++ [.run false]) := by
    decide +kernel
  have hread := h bootState (staleRead ++ [.run false]) bootState_booted
    (huse.mono (fun _ _ h => ⟨h.1, h.2⟩))
  have hlast : ReadsLatest _ beforeStale (.run false) :=
    hread.last (Option.some_get staleRead_isSome).symm
  have hstale := hlast _ 0 1 28 (Option.some_get beforeStale_isSome).symm
    ⟨false, rfl, .inl (by decide +kernel), by decide +kernel⟩
  exact absurd (congrFun hstale 0) (by decide +kernel)

end Raynix.BufferCoherence
