import Mathlib.Data.Finset.Card
import Raynix.BufferRing

namespace Raynix.BufferUnique

open Raynix.Lib.LinkedRing Raynix.Lib.Transition Raynix.BufferCache Raynix.BufferRing

variable {P : Type} [DecidableEq P]

/-- The points of a process between taking and releasing the cache lock. -/
def Inside : Pc → Prop
  | .find _ _ _ _ | .evict _ _ _ _ | .lost | .acquire _ _ _ _ => True
  | .idle | .enter _ _ _ | .check _ _ _ | .fill _ _ _ | .releasing _ => False

/-- The buffer a process in `bread` has locked and is about to read. -/
def transfers : Pc → Option (Fin 30)
  | .check _ _ i | .fill _ _ i => some i
  | .idle | .enter _ _ _ | .find _ _ _ _ | .evict _ _ _ _ | .lost | .acquire _ _ _ _
  | .releasing _ => none

/-- The buffer a process has counted in `link_no` without holding its sleeplock. -/
def counts : Pc → Option (Fin 30)
  | .acquire _ _ _ i | .releasing i => some i
  | .idle | .enter _ _ _ | .find _ _ _ _ | .evict _ _ _ _ | .lost | .check _ _ _
  | .fill _ _ _ => none

structure Locked (s : State P) : Prop where
  inside : ∀ p, Inside (s.pc p) → s.cacheLock = some p
  transfers : ∀ p i, transfers (s.pc p) = some i → s.sleepLock i = some p

/-- `brelease` is called on a buffer its caller holds. -/
def OwnRelease (s : State P) (a : Act P) : Prop :=
  ∀ p i, a = .brelease p i → s.sleepLock i = some p

instance (s : State P) : ∀ a, Decidable (OwnRelease s a)
  | .brelease p i => decidable_of_iff (s.sleepLock i = some p)
      ⟨fun h q j ha => by cases ha; exact h, fun h => h p i rfl⟩
  | .bget .. | .lock .. | .run .. | .modify .. | .bwrite .. => .isTrue nofun

def actor : Act P → P
  | .bget p _ _ _ | .lock p | .run p | .modify p _ _ | .bwrite p _ | .brelease p _ => p

theorem step_other_pc {s t : State P} {a : Act P} {q : P} (h : Step s a t) (hq : q ≠ actor a) :
    t.pc q = s.pc q := by
  cases h with
  | spin | modify | bwrite => rfl
  | _ => exact Function.update_of_ne hq _ _

theorem step_other_cacheLock {s t : State P} {a : Act P} {q : P} (hs : Locked s) (h : Step s a t)
    (hq : q ≠ actor a) (hl : s.cacheLock = some q) : t.cacheLock = some q := by
  cases h with
  | lock p reading dev blockNo hn => simp [hn] at hl
  | acquire p reading dev blockNo i hpc =>
    have hp := hs.inside p (by rw [hpc]; trivial)
    exact absurd (Option.some.inj (hl.symm.trans hp)) hq
  | _ => exact hl

theorem step_other_sleepLock {s t : State P} {a : Act P} {q : P} {i : Fin 30}
    (hown : OwnRelease s a) (h : Step s a t) (hq : q ≠ actor a) (hl : s.sleepLock i = some q) :
    t.sleepLock i = some q := by
  cases h with
  | acquire p reading dev blockNo j hpc hn =>
    have hij : i ≠ j := fun he => by simp [he, hn] at hl
    exact (Function.update_of_ne hij _ _).trans hl
  | brelease p j =>
    have hj := hown p j rfl
    have hij : i ≠ j := fun he => hq (Option.some.inj (hl.symm.trans (he ▸ hj)))
    exact (Function.update_of_ne hij _ _).trans hl
  | _ => exact hl

theorem step_actor_inside {s t : State P} {a : Act P} (hs : Locked s) (h : Step s a t)
    (hin : Inside (t.pc (actor a))) : t.cacheLock = some (actor a) := by
  cases h with
  | lock => rfl
  | miss p | hit p | next p | lose p | recycle p | spin p =>
    refine hs.inside p ?_
    simp_all [Inside]
  | modify p | bwrite p => exact hs.inside p hin
  | acquire p reading => cases reading <;> simp_all [actor, State.goto, Inside]
  | check p dev blockNo i =>
    by_cases hv : (s.cache.buffers i).valid = true <;> simp_all [actor, State.goto, Inside]
  | _ => simp [actor, State.goto, Inside] at hin

theorem step_actor_transfers {s t : State P} {a : Act P} {i : Fin 30} (hs : Locked s)
    (h : Step s a t) (htr : transfers (t.pc (actor a)) = some i) :
    t.sleepLock i = some (actor a) := by
  cases h with
  | acquire p reading =>
    cases reading <;> simp_all [actor, State.goto, transfers]
  | check p dev blockNo j hpc =>
    refine hs.transfers p i ?_
    by_cases hv : (s.cache.buffers j).valid = true <;>
      simp_all [actor, State.goto, transfers]
  | spin p | modify p | bwrite p => exact hs.transfers p i htr
  | _ => simp [actor, State.goto, transfers] at htr

theorem step_locked {s t : State P} {a : Act P} (hs : Locked s) (hown : OwnRelease s a)
    (h : Step s a t) : Locked t := by
  constructor
  · intro q hin
    by_cases hq : q = actor a
    · subst hq
      exact step_actor_inside hs h hin
    · rw [step_other_pc h hq] at hin
      exact step_other_cacheLock hs h hq (hs.inside q hin)
  · intro q i htr
    by_cases hq : q = actor a
    · subst hq
      exact step_actor_transfers hs h htr
    · rw [step_other_pc h hq] at htr
      exact step_other_sleepLock hown h hq (hs.transfers q i htr)

/-- Exactly `n` processes count buffer `i` without holding its sleeplock. -/
def Refs (pc : P → Pc) (i : Fin 30) (n : Nat) : Prop :=
  ∃ refs : Finset P, (∀ p, p ∈ refs ↔ counts (pc p) = some i) ∧ refs.card = n

theorem Refs.keep {pc : P → Pc} {i : Fin 30} {n : Nat} {p : P} {new : Pc} (h : Refs pc i n)
    (hp : counts new = some i ↔ counts (pc p) = some i) : Refs (Function.update pc p new) i n := by
  obtain ⟨refs, hrefs, hcard⟩ := h
  refine ⟨refs, fun q => ?_, hcard⟩
  by_cases hq : q = p
  · rw [hq, Function.update_self, hrefs, hp]
  · rw [Function.update_of_ne hq, hrefs]

theorem Refs.insert {pc : P → Pc} {i : Fin 30} {n : Nat} {p : P} {new : Pc} (h : Refs pc i n)
    (hp : counts (pc p) ≠ some i) (hnew : counts new = some i) :
    Refs (Function.update pc p new) i (n + 1) := by
  obtain ⟨refs, hrefs, hcard⟩ := h
  refine ⟨Insert.insert p refs, fun q => ?_, ?_⟩
  · by_cases hq : q = p
    · simp [hq, hnew]
    · simp [hq, hrefs]
  · rw [Finset.card_insert_of_notMem (fun hm => hp ((hrefs p).mp hm)), hcard]

theorem Refs.erase {pc : P → Pc} {i : Fin 30} {n : Nat} (h : Refs pc i n) (p : P) (new : Pc)
    (hp : counts (pc p) = some i) (hnew : counts new ≠ some i) :
    ∃ m, n = m + 1 ∧ Refs (Function.update pc p new) i m := by
  obtain ⟨refs, hrefs, hcard⟩ := h
  have hm : p ∈ refs := (hrefs p).mpr hp
  refine ⟨(refs.erase p).card, ?_, refs.erase p, fun q => ?_, rfl⟩
  · rw [← hcard, Finset.card_erase_add_one hm]
  · by_cases hq : q = p
    · simp [hq, hnew]
    · simp [hq, hrefs]

def held (s : State P) (i : Fin 30) : Nat := if (s.sleepLock i).isSome then 1 else 0

/-- `link_no` counts the holder of the sleeplock and the processes on their way to or from it. -/
def Counted (s : State P) (i : Fin 30) : Prop :=
  ∃ n, Refs s.pc i n ∧ (s.cache.buffers i).linkNo.toNat = n + held s i

/-- `a` finds block `blockNo` cached in buffer `i`. -/
def Hits (s : State P) (a : Act P) (i : Fin 30) : Prop :=
  ∃ p reading dev blockNo, a = .run p ∧ s.pc p = .find reading dev blockNo (.buf i) ∧
    (s.cache.buffers i).Caches dev blockNo

def NoOverflow (s : State P) (a : Act P) : Prop :=
  ∀ i, Hits s a i → (s.cache.buffers i).linkNo.toNat < 2 ^ 32 - 1

theorem Counted.keep {s t : State P} {p : P} {new : Pc} {i : Fin 30} (h : Counted s i)
    (hpc : t.pc = Function.update s.pc p new)
    (hp : counts new = some i ↔ counts (s.pc p) = some i)
    (hl : (t.cache.buffers i).linkNo = (s.cache.buffers i).linkNo)
    (hs : t.sleepLock i = s.sleepLock i) : Counted t i := by
  obtain ⟨n, hrefs, hn⟩ := h
  refine ⟨n, hpc ▸ hrefs.keep hp, ?_⟩
  rw [hl, hn, held, held, hs]

theorem Counted.insert {s t : State P} {p : P} {new : Pc} {i : Fin 30} (h : Counted s i)
    (hpc : t.pc = Function.update s.pc p new) (hp : counts (s.pc p) ≠ some i)
    (hnew : counts new = some i)
    (hl : (t.cache.buffers i).linkNo.toNat + held s i =
      (s.cache.buffers i).linkNo.toNat + held t i + 1) : Counted t i := by
  obtain ⟨n, hrefs, hn⟩ := h
  refine ⟨n + 1, hpc ▸ hrefs.insert hp hnew, ?_⟩
  omega

theorem Counted.erase {s t : State P} {p : P} {new : Pc} {i : Fin 30} (h : Counted s i)
    (hpc : t.pc = Function.update s.pc p new) (hp : counts (s.pc p) = some i)
    (hnew : counts new ≠ some i)
    (hl : held s i < (s.cache.buffers i).linkNo.toNat →
      (t.cache.buffers i).linkNo.toNat + held s i + 1 =
        (s.cache.buffers i).linkNo.toNat + held t i) : Counted t i := by
  obtain ⟨n, hrefs, hn⟩ := h
  obtain ⟨m, rfl, hrefs'⟩ := hrefs.erase p new hp hnew
  refine ⟨m, hpc ▸ hrefs', ?_⟩
  omega

theorem step_counted {s t : State P} {a : Act P} (hs : ∀ i, Counted s i) (hown : OwnRelease s a)
    (hno : NoOverflow s a) (h : Step s a t) (i : Fin 30) : Counted t i := by
  cases h with
  | enter p reading dev blockNo hpc =>
    exact (hs i).keep rfl (by simp [hpc, counts]) rfl rfl
  | lock p reading dev blockNo hl hpc =>
    exact (hs i).keep rfl (by simp [hpc, counts]) rfl rfl
  | drop p j hl hpc =>
    by_cases hij : i = j
    · subst hij
      refine (hs i).erase rfl (by simp [hpc, counts]) (by simp [counts]) (fun hpos => ?_)
      change ((dropLink s.cache i).buffers i).linkNo.toNat + _ + 1 = _ + held s i
      rw [dropLink_buffers, setBuf_self]
      change ((s.cache.buffers i).linkNo - 1).toNat + _ + 1 = _
      bv_omega
    · refine (hs i).keep rfl (by simp [hpc, counts, Ne.symm hij]) ?_ rfl
      change ((dropLink s.cache j).buffers i).linkNo = _
      rw [dropLink_buffers, setBuf_of_ne _ _ hij]
  | miss p reading dev blockNo hpc =>
    exact (hs i).keep rfl (by simp [hpc, counts]) rfl rfl
  | hit p reading dev blockNo j hpc hc =>
    by_cases hij : i = j
    · subst hij
      have hmax := hno i ⟨p, reading, dev, blockNo, rfl, hpc, hc⟩
      refine (hs i).insert rfl (by simp [hpc, counts]) (by simp [counts]) ?_
      change ((addLink s.cache i).buffers i).linkNo.toNat + _ = _ + held s i + 1
      rw [addLink, setBuf_self]
      change ((s.cache.buffers i).linkNo + 1).toNat + _ = _
      bv_omega
    · refine (hs i).keep rfl (by simp [hpc, counts, Ne.symm hij]) ?_ rfl
      change ((addLink s.cache j).buffers i).linkNo = _
      rw [addLink, setBuf_of_ne _ _ hij]
  | next p reading dev blockNo j hpc hc =>
    exact (hs i).keep rfl (by simp [hpc, counts]) rfl rfl
  | lose p reading dev blockNo hpc =>
    exact (hs i).keep rfl (by simp [hpc, counts]) rfl rfl
  | recycle p reading dev blockNo j hpc hl =>
    by_cases hij : i = j
    · subst hij
      refine (hs i).insert rfl (by simp [hpc, counts]) (by simp [counts]) ?_
      change ((recycle s.cache i dev blockNo).buffers i).linkNo.toNat + _ = _ + held s i + 1
      rw [recycle, setBuf_self]
      change ((s.cache.buffers i).linkNo + 1).toNat + _ = _
      rw [hl]
      bv_omega
    · refine (hs i).keep rfl (by simp [hpc, counts, Ne.symm hij]) ?_ rfl
      change ((recycle s.cache j dev blockNo).buffers i).linkNo = _
      rw [recycle, setBuf_of_ne _ _ hij]
  | spin p reading dev blockNo j hpc hl => exact hs i
  | acquire p reading dev blockNo j hpc hl =>
    have hnew : ∀ k, counts (if reading then .check dev blockNo j else .idle) ≠ some k := by
      cases reading <;> simp [counts]
    by_cases hij : i = j
    · subst hij
      refine (hs i).erase rfl (by simp [hpc, counts]) (hnew i) (fun _ => ?_)
      simp [held, hl, State.goto]
    · refine (hs i).keep rfl ?_ rfl (Function.update_of_ne hij _ _)
      exact iff_of_false (hnew i) (by simp [hpc, counts, Ne.symm hij])
  | check p dev blockNo j hpc =>
    refine (hs i).keep rfl ?_ rfl rfl
    cases (s.cache.buffers j).valid <;> simp [hpc, counts]
  | fill p dev blockNo j hpc =>
    refine (hs i).keep rfl (by simp [hpc, counts]) ?_ rfl
    by_cases hij : i = j
    · subst hij
      simp
    · simp [hij]
  | modify p j data hpc hl =>
    refine (hs i).keep (Function.update_eq_self p s.pc).symm Iff.rfl ?_ rfl
    by_cases hij : i = j
    · subst hij
      simp
    · simp [hij]
  | bwrite p j hpc hl => exact hs i
  | brelease p j hpc hl =>
    by_cases hij : i = j
    · subst hij
      refine (hs i).insert rfl (by simp [hpc, counts]) (by simp [counts]) ?_
      simp [held, hown p i rfl, State.goto]
    · refine (hs i).keep rfl ?_ rfl (Function.update_of_ne hij _ _)
      simp [hpc, counts, Ne.symm hij]

omit [DecidableEq P] in
theorem Counted.linkNo_ne_zero {s : State P} {i : Fin 30} {p : P} (h : Counted s i)
    (hp : s.sleepLock i = some p) : (s.cache.buffers i).linkNo ≠ 0 := by
  obtain ⟨n, -, hn⟩ := h
  rw [held, hp, Option.isSome_some, if_pos rfl] at hn
  exact fun h0 => by simp [h0] at hn

omit [DecidableEq P] in
theorem Counted.counts_ne {s : State P} {i : Fin 30} (h : Counted s i) (p : P)
    (h0 : (s.cache.buffers i).linkNo = 0) : counts (s.pc p) ≠ some i := by
  obtain ⟨n, ⟨refs, hrefs, rfl⟩, hn⟩ := h
  intro hp
  have hpos : 0 < refs.card := Finset.card_pos.mpr ⟨p, (hrefs p).mpr hp⟩
  simp [h0] at hn
  omega

def first : List (Fin 30) → Node
  | [] => .head
  | i :: _ => .buf i

/-- What a process in `bget` knows of the buffers its cursor has passed. -/
def Scanned (bs : Fin 30 → Buf) (order : List (Fin 30)) : Pc → Prop
  | .find _ dev blockNo cursor => ∃ pre post, order = pre ++ post ∧ cursor = first post ∧
      ∀ i ∈ pre, ¬ (bs i).Caches dev blockNo
  | .evict _ dev blockNo _ => ∀ i, ¬ (bs i).Caches dev blockNo
  | .idle | .enter _ _ _ | .lost | .acquire _ _ _ _ | .check _ _ _ | .fill _ _ _
  | .releasing _ => True

def SameBlock (b b' : Buf) : Prop := b.dev = b'.dev ∧ b.blockNo = b'.blockNo

/-- A buffer `j` with the block of a buffer `i` in front of it is out of use. -/
def Shadows (bs : Fin 30 → Buf) (i j : Fin 30) : Prop :=
  SameBlock (bs i) (bs j) → (bs j).linkNo = 0 ∧ (bs j).valid = false

/-- The forward list visits all buffers, and the first one with a block is the one in use. -/
structure Ordered (s : State P) (order : List (Fin 30)) : Prop where
  path : Path s.cache.ring.next .head (order.map .buf) .head
  nodup : order.Nodup
  complete : ∀ i, i ∈ order
  shadows : order.Pairwise (Shadows s.cache.buffers)
  scanned : ∀ p, Scanned s.cache.buffers order (s.pc p)

theorem path_first {f : Node → Node} {a : Node} {l : List (Fin 30)}
    (h : Path f a (l.map .buf) .head) : f a = first l := by
  cases l with
  | nil => exact h
  | cons i l => exact h.1

theorem Scanned.update {bs : Fin 30 → Buf} {order : List (Fin 30)} {pc : Pc} {i : Fin 30} {b : Buf}
    (h : Scanned bs order pc) (hb : SameBlock b (bs i)) :
    Scanned (Function.update bs i b) order pc := by
  have hc : ∀ j dev blockNo,
      (Function.update bs i b j).Caches dev blockNo ↔ (bs j).Caches dev blockNo := by
    intro j dev blockNo
    by_cases hj : j = i
    · rw [hj, Function.update_self, Buf.Caches, hb.1, hb.2]
      rfl
    · rw [Function.update_of_ne hj]
  cases pc with
  | find reading dev blockNo cursor => simpa only [Scanned, hc] using h
  | evict reading dev blockNo cursor => simpa only [Scanned, hc] using h
  | _ => trivial

theorem scanned_of_not_inside {bs : Fin 30 → Buf} {order : List (Fin 30)} {pc : Pc}
    (h : ¬ Inside pc) : Scanned bs order pc := by
  cases pc with
  | find | evict => exact absurd trivial h
  | _ => trivial

omit [DecidableEq P] in
theorem Locked.not_inside_of_ne {s : State P} {p q : P} (hs : Locked s) (hp : Inside (s.pc p))
    (hq : q ≠ p) : ¬ Inside (s.pc q) := by
  intro hin
  exact hq (Option.some.inj ((hs.inside q hin).symm.trans (hs.inside p hp)))

omit [DecidableEq P] in
theorem Locked.not_inside_of_free {s : State P} (hs : Locked s) (hl : s.cacheLock = none) (q : P) :
    ¬ Inside (s.pc q) := by
  intro hin
  exact absurd (hs.inside q hin) (by simp [hl])

omit [DecidableEq P] in
theorem Ordered.others {s : State P} {order : List (Fin 30)} {i j : Fin 30} (ho : Ordered s order)
    (hij : i ≠ j) (hi : (s.cache.buffers i).linkNo ≠ 0)
    (hkey : SameBlock (s.cache.buffers i) (s.cache.buffers j)) :
    (s.cache.buffers j).linkNo = 0 ∧ (s.cache.buffers j).valid = false := by
  have hsymm : Std.Symm fun i j => Shadows s.cache.buffers i j ∨ Shadows s.cache.buffers j i :=
    ⟨fun _ _ h => h.symm⟩
  have hor : order.Pairwise
      (fun i j => Shadows s.cache.buffers i j ∨ Shadows s.cache.buffers j i) :=
    ho.shadows.imp Or.inl
  obtain h | h := hor.forall (ho.complete i) (ho.complete j) hij
  · exact h hkey
  · exact absurd (h ⟨hkey.1.symm, hkey.2.symm⟩).1 hi

theorem pairwise_before {pre post : List (Fin 30)} {i : Fin 30} (hnd : (pre ++ i :: post).Nodup) :
    (pre ++ i :: post).Pairwise (fun j k => k = i → j ∈ pre) := by
  have hi : ∀ k ∈ post, k ≠ i := by
    intro k hk he
    exact (List.nodup_cons.mp (List.nodup_append.mp hnd).2.1).1 (he ▸ hk)
  rw [List.pairwise_append, List.pairwise_cons]
  refine ⟨?_, ⟨fun k hk he => absurd he (hi k hk), ?_⟩, fun j hj _ _ _ => hj⟩
  · exact List.pairwise_of_forall_mem_list (fun j hj _ _ _ => hj)
  · exact List.pairwise_of_forall_mem_list (fun _ _ k hk he => absurd he (hi k hk))

theorem Shadows.update {bs : Fin 30 → Buf} {i j k : Fin 30} {b : Buf} (h : Shadows bs j k)
    (hb : SameBlock b (bs i))
    (hk : k = i → SameBlock (bs j) (bs i) → b.linkNo = 0 ∧ b.valid = false) :
    Shadows (Function.update bs i b) j k := by
  have hsame : ∀ l, SameBlock (Function.update bs i b l) (bs l) := by
    intro l
    by_cases hl : l = i
    · rw [hl, Function.update_self]
      exact hb
    · rw [Function.update_of_ne hl]
      exact ⟨rfl, rfl⟩
  intro hjk
  have hjk' : SameBlock (bs j) (bs k) :=
    ⟨(hsame j).1.symm.trans (hjk.1.trans (hsame k).1),
      (hsame j).2.symm.trans (hjk.2.trans (hsame k).2)⟩
  by_cases hki : k = i
  · rw [hki, Function.update_self]
    exact hk hki (hki ▸ hjk')
  · rw [Function.update_of_ne hki]
    exact h hjk'

/-- A change of buffer `i` that keeps its block leaves the order, the positions of the scans and
the shadowing alone, if no earlier buffer shadows it or it stays out of use. -/
theorem Ordered.update {s t : State P} {pre post : List (Fin 30)} {p : P} {new : Pc} {i : Fin 30}
    {b : Buf} (ho : Ordered s (pre ++ i :: post)) (hpc : t.pc = Function.update s.pc p new)
    (hring : t.cache.ring = s.cache.ring)
    (hbuf : t.cache.buffers = Function.update s.cache.buffers i b)
    (hb : SameBlock b (s.cache.buffers i))
    (hi : ∀ j ∈ pre, Shadows s.cache.buffers j i →
      SameBlock (s.cache.buffers j) (s.cache.buffers i) → b.linkNo = 0 ∧ b.valid = false)
    (hnew : Scanned s.cache.buffers (pre ++ i :: post) new) : Ordered t (pre ++ i :: post) := by
  refine ⟨hring ▸ ho.path, ho.nodup, ho.complete, ?_, fun q => ?_⟩
  · rw [hbuf]
    refine (ho.shadows.and (pairwise_before ho.nodup)).imp (fun {j k} h => ?_)
    apply h.1.update hb
    rintro rfl hsame
    exact hi j (h.2 rfl) h.1 hsame
  · rw [hpc, hbuf]
    by_cases hq : q = p
    · rw [hq, Function.update_self]
      exact hnew.update hb
    · rw [Function.update_of_ne hq]
      exact (ho.scanned q).update hb

theorem Ordered.move {s t : State P} {order : List (Fin 30)} {p : P} {new : Pc}
    (ho : Ordered s order) (hpc : t.pc = Function.update s.pc p new) (hcache : t.cache = s.cache)
    (hnew : Scanned s.cache.buffers order new) : Ordered t order := by
  refine ⟨hcache ▸ ho.path, ho.nodup, ho.complete, hcache ▸ ho.shadows, fun q => ?_⟩
  rw [hpc, hcache]
  by_cases hq : q = p
  · rw [hq, Function.update_self]
    exact hnew
  · rw [Function.update_of_ne hq]
    exact ho.scanned q

/-- The buffer losing its last reference is reached from its recorded predecessor. -/
def UnlinksWell (s : State P) (a : Act P) : Prop :=
  ∀ i, Drops s a i → s.cache.ring.next (s.cache.ring.prior (.buf i)) = .buf i

theorem relink_path {r : Links Node} {order : List (Fin 30)} {i : Fin 30}
    (h : Path r.next .head (order.map .buf) .head) (hnd : order.Nodup) (hc : ∀ i, i ∈ order)
    (hi : r.next (r.prior (.buf i)) = .buf i) :
    Path (relink r (.buf i)).next .head ((i :: order.erase i).map .buf) .head := by
  have hnd' := nodup_head_cons hnd
  have herase := h.erase hnd' (List.mem_map_of_mem (hc i)) (by simp) (mem_head_cons hc _) hi
  rw [← List.map_erase buf_injective] at herase
  rw [relink_next]
  apply herase.insert
  · simp [hnd.mem_erase_iff]
  · simp

omit [DecidableEq P] in
theorem not_shadowed {s : State P} {i j : Fin 30} {b : Buf}
    (hi : (s.cache.buffers i).linkNo ≠ 0) (h : Shadows s.cache.buffers j i)
    (hj : SameBlock (s.cache.buffers j) (s.cache.buffers i)) : b.linkNo = 0 ∧ b.valid = false :=
  absurd (h hj).1 hi

theorem Ordered.recycle {s : State P} {order : List (Fin 30)} {p : P} {reading : Bool}
    {dev blockNo : BitVec 32} {i : Fin 30} (ho : Ordered s order) (hs : Locked s)
    (hpc : s.pc p = .evict reading dev blockNo (.buf i)) :
    Ordered { s.goto p (.acquire reading dev blockNo i) with
      cache := recycle s.cache i dev blockNo } order := by
  have hnone : ∀ j, ¬ (s.cache.buffers j).Caches dev blockNo := by
    have hscan := ho.scanned p
    rwa [hpc] at hscan
  refine ⟨ho.path, ho.nodup, ho.complete, ?_, fun q => ?_⟩
  · refine (ho.shadows.and ho.nodup).imp (fun {j k} h => ?_)
    rintro hjk
    change SameBlock (Function.update s.cache.buffers i _ j)
      (Function.update s.cache.buffers i _ k) at hjk
    change (Function.update s.cache.buffers i _ k).linkNo = 0 ∧
      (Function.update s.cache.buffers i _ k).valid = false
    by_cases hj : j = i
    · subst hj
      rw [Function.update_self, Function.update_of_ne h.2.symm] at hjk
      exact absurd ⟨hjk.1.symm, hjk.2.symm⟩ (hnone k)
    · rw [Function.update_of_ne hj] at hjk
      by_cases hk : k = i
      · subst hk
        rw [Function.update_self] at hjk
        exact absurd hjk (hnone j)
      · rw [Function.update_of_ne hk] at hjk ⊢
        exact h.1 hjk
  · by_cases hq : q = p
    · change Scanned _ order (Function.update s.pc p _ q)
      rw [hq, Function.update_self]
      trivial
    · change Scanned _ order (Function.update s.pc p _ q)
      rw [Function.update_of_ne hq]
      have hp : Inside (s.pc p) := by
        rw [hpc]
        trivial
      exact scanned_of_not_inside (hs.not_inside_of_ne hp hq)

theorem Ordered.drop {s : State P} {order : List (Fin 30)} {p : P} {i : Fin 30}
    (ho : Ordered s order) (hs : Locked s) (hl : s.cacheLock = none)
    (h1 : (s.cache.buffers i).linkNo = 1)
    (hun : s.cache.ring.next (s.cache.ring.prior (.buf i)) = .buf i) :
    Ordered { s.goto p .idle with cache := dropLink s.cache i } (i :: order.erase i) := by
  have hi : (s.cache.buffers i).linkNo ≠ 0 := by
    rw [h1]
    decide
  have hbuf : (dropLink s.cache i).buffers = Function.update s.cache.buffers i
      { s.cache.buffers i with linkNo := (s.cache.buffers i).linkNo - 1 } := dropLink_buffers _ _
  refine ⟨?_, ?_, ?_, ?_, fun q => ?_⟩
  · change Path (dropLink s.cache i).ring.next _ _ _
    rw [dropLink_ring, if_pos h1]
    exact relink_path ho.path ho.nodup ho.complete hun
  · exact List.nodup_cons.mpr ⟨ho.nodup.not_mem_erase, ho.nodup.erase i⟩
  · intro j
    by_cases hj : j = i
    · simp [hj]
    · simp [hj, ho.nodup.mem_erase_iff, ho.complete j]
  · change (i :: order.erase i).Pairwise (Shadows (dropLink s.cache i).buffers)
    rw [hbuf, List.pairwise_cons]
    constructor
    · intro j hj
      have hij : j ≠ i := (ho.nodup.mem_erase_iff.mp hj).1
      apply Shadows.update
      · exact fun hkey => ho.others hij.symm hi hkey
      · exact ⟨rfl, rfl⟩
      · exact fun he => absurd he hij
    · refine (ho.shadows.erase i).imp_of_mem (fun {j k} _ hk h => ?_)
      apply Shadows.update h
      · exact ⟨rfl, rfl⟩
      · exact fun he => absurd he (ho.nodup.mem_erase_iff.mp hk).1
  · change Scanned _ _ (Function.update s.pc p .idle q)
    by_cases hq : q = p
    · rw [hq, Function.update_self]
      trivial
    · rw [Function.update_of_ne hq]
      exact scanned_of_not_inside (hs.not_inside_of_free hl q)

omit [DecidableEq P] in
theorem Ordered.passed {s : State P} {order : List (Fin 30)} {p : P} {reading : Bool}
    {dev blockNo : BitVec 32} {i : Fin 30} (ho : Ordered s order)
    (hpc : s.pc p = .find reading dev blockNo (.buf i)) : ∃ pre post, order = pre ++ i :: post ∧
      ∀ j ∈ pre, ¬ (s.cache.buffers j).Caches dev blockNo := by
  have hscan := ho.scanned p
  rw [hpc] at hscan
  obtain ⟨pre, post, horder, hcur, hpre⟩ := hscan
  cases post with
  | nil => cases hcur
  | cons j post =>
    cases hcur
    exact ⟨pre, post, horder, hpre⟩

theorem step_ordered {s t : State P} {a : Act P} {order : List (Fin 30)} (hs : Locked s)
    (hcnt : ∀ i, Counted s i) (ho : Ordered s order) (hun : UnlinksWell s a) (h : Step s a t) :
    ∃ order', Ordered t order' := by
  cases h with
  | enter p reading dev blockNo hpc => exact ⟨order, ho.move rfl rfl trivial⟩
  | lock p reading dev blockNo hl hpc =>
    refine ⟨order, ho.move rfl rfl ⟨[], order, rfl, path_first ho.path, ?_⟩⟩
    simp
  | drop p i hl hpc =>
    by_cases h1 : (s.cache.buffers i).linkNo = 1
    · exact ⟨_, ho.drop hs hl h1 (hun i ⟨p, rfl, hl, hpc, h1⟩)⟩
    · obtain ⟨pre, post, rfl⟩ := List.append_of_mem (ho.complete i)
      have hi : (s.cache.buffers i).linkNo ≠ 0 :=
        fun h0 => (hcnt i).counts_ne p h0 (by simp [hpc, counts])
      refine ⟨_, ho.update rfl ?_ (dropLink_buffers s.cache i) ⟨rfl, rfl⟩ ?_ trivial⟩
      · change (dropLink s.cache i).ring = _
        rw [dropLink_ring, if_neg h1]
      · exact fun j _ => not_shadowed hi
  | miss p reading dev blockNo hpc =>
    have hscan := ho.scanned p
    rw [hpc] at hscan
    obtain ⟨pre, post, horder, hcur, hpre⟩ := hscan
    refine ⟨order, ho.move rfl rfl (fun i => ?_)⟩
    cases post with
    | nil => exact hpre i (by simpa [horder] using ho.complete i)
    | cons j post => cases hcur
  | hit p reading dev blockNo i hpc hc =>
    obtain ⟨pre, post, rfl, hpre⟩ := ho.passed hpc
    refine ⟨_, ho.update rfl rfl rfl ⟨rfl, rfl⟩ ?_ trivial⟩
    intro j hj _ hsame
    exact absurd ⟨hsame.1.trans hc.1, hsame.2.trans hc.2⟩ (hpre j hj)
  | next p reading dev blockNo i hpc hc =>
    obtain ⟨pre, post, rfl, hpre⟩ := ho.passed hpc
    refine ⟨_, ho.move rfl rfl ⟨pre ++ [i], post, by simp, ?_, ?_⟩⟩
    · have hpath := ho.path
      rw [List.map_append, List.map_cons] at hpath
      exact path_first hpath.drop
    · intro j hj
      obtain hj | hj := List.mem_append.mp hj
      · exact hpre j hj
      · rw [List.mem_singleton.mp hj]
        exact hc
  | lose p reading dev blockNo hpc => exact ⟨order, ho.move rfl rfl trivial⟩
  | recycle p reading dev blockNo i hpc hl => exact ⟨order, ho.recycle hs hpc⟩
  | spin p reading dev blockNo i hpc hl => exact ⟨order, ho⟩
  | acquire p reading dev blockNo i hpc hl =>
    refine ⟨order, ho.move rfl rfl ?_⟩
    cases reading <;> trivial
  | check p dev blockNo i hpc =>
    refine ⟨order, ho.move rfl rfl ?_⟩
    cases (s.cache.buffers i).valid <;> trivial
  | fill p dev blockNo i hpc =>
    obtain ⟨pre, post, rfl⟩ := List.append_of_mem (ho.complete i)
    have hi := (hcnt i).linkNo_ne_zero (hs.transfers p i (by simp [hpc, transfers]))
    exact ⟨_, ho.update rfl rfl rfl ⟨rfl, rfl⟩ (fun j _ => not_shadowed hi) trivial⟩
  | modify p i data hpc hl =>
    obtain ⟨pre, post, rfl⟩ := List.append_of_mem (ho.complete i)
    have hi := (hcnt i).linkNo_ne_zero hl
    refine ⟨_, ho.update (Function.update_eq_self p s.pc).symm rfl rfl ⟨rfl, rfl⟩ ?_ (ho.scanned p)⟩
    exact fun j _ => not_shadowed hi
  | bwrite p i hpc hl =>
    exact ⟨order, ho.move (Function.update_eq_self p s.pc).symm rfl (ho.scanned p)⟩
  | brelease p i hpc hl => exact ⟨order, ho.move rfl rfl trivial⟩

/-- The invariant of a cache whose releases unlink correctly. -/
structure Inv (s : State P) : Prop where
  locked : Locked s
  counted : ∀ i, Counted s i
  ordered : ∃ order, Ordered s order

theorem step_inv {s t : State P} {a : Act P} (hs : Inv s) (hown : OwnRelease s a)
    (hok : UnlinksWell s a ∧ NoOverflow s a) (h : Step s a t) : Inv t := by
  obtain ⟨order, ho⟩ := hs.ordered
  exact ⟨step_locked hs.locked hown h, step_counted hs.counted hown hok.2 h,
    step_ordered hs.locked hs.counted ho hok.1 h⟩

omit [DecidableEq P] in
theorem booted_inv {s : State P} (hs : Booted s) : Inv s := by
  refine ⟨⟨?_, ?_⟩, fun i => ⟨0, ⟨∅, ?_, rfl⟩, ?_⟩, ?_⟩
  · simp [hs.pc, Inside]
  · simp [hs.pc, transfers]
  · simp [hs.pc, counts]
  · simp [held, hs.sleepLock, hs.buffers]
  · obtain ⟨order, ho⟩ := booted_wellLinked hs
    refine ⟨order, ho.path, ho.nodup, ho.complete, ?_, fun p => ?_⟩
    · exact List.pairwise_of_forall_mem_list (fun _ _ j _ _ => hs.buffers j)
    · rw [hs.pc p]
      trivial

/-- No two referenced buffers carry one block, so no two locked ones do. -/
structure Unique (s : State P) : Prop where
  referenced : ∀ i j, i ≠ j → (s.cache.buffers i).linkNo ≠ 0 → (s.cache.buffers j).linkNo ≠ 0 →
    ¬ SameBlock (s.cache.buffers i) (s.cache.buffers j)
  exclusive : ∀ i j p q, i ≠ j → s.sleepLock i = some p → s.sleepLock j = some q →
    ¬ SameBlock (s.cache.buffers i) (s.cache.buffers j)

omit [DecidableEq P] in
theorem Inv.unique {s : State P} (hs : Inv s) : Unique s := by
  obtain ⟨order, ho⟩ := hs.ordered
  have hkeys : ∀ i j, i ≠ j → (s.cache.buffers i).linkNo ≠ 0 → (s.cache.buffers j).linkNo ≠ 0 →
      ¬ SameBlock (s.cache.buffers i) (s.cache.buffers j) :=
    fun i j hij hi hj hsame => hj (ho.others hij hi hsame).1
  refine ⟨hkeys, fun i j p q hij hi hj => hkeys i j hij ?_ ?_⟩
  · exact (hs.counted i).linkNo_ne_zero hi
  · exact (hs.counted j).linkNo_ne_zero hj

theorem always_inv {s : State P} {as : List (Act P)} (hs : Booted s)
    (hown : Meets step OwnRelease s as)
    (hok : Meets step (fun s a => UnlinksWell s a ∧ NoOverflow s a) s as) :
    Always step Inv s as := by
  have hstep : ∀ (s : State P) a t, Inv s →
      (OwnRelease s a ∧ UnlinksWell s a ∧ NoOverflow s a) → step s a = some t → Inv t :=
    fun s a t hI hok h => step_inv hI hok.1 hok.2 (step_cases h)
  exact always_of_meets hstep (booted_inv hs) (meets_and.mpr ⟨hown, hok⟩)

/-- Along every run from the state of `binit` in which each last release finds its buffer behind
its recorded predecessor and no reference count overflows, no block is referenced twice. -/
theorem always_unique {s : State P} {as : List (Act P)} (hs : Booted s)
    (hown : Meets step OwnRelease s as)
    (hok : Meets step (fun s a => UnlinksWell s a ∧ NoOverflow s a) s as) :
    Always step Unique s as :=
  (always_inv hs hown hok).mono (fun _ h => h.unique)

instance (s : State P) : ∀ a i, Decidable (Drops s a i)
  | .lock p, i => decidable_of_iff
      (s.cacheLock = none ∧ s.pc p = .releasing i ∧ (s.cache.buffers i).linkNo = 1)
      ⟨fun h => ⟨p, rfl, h⟩, fun ⟨q, ha, h⟩ => by cases ha; exact h⟩
  | .bget .., _ | .run .., _ | .modify .., _ | .bwrite .., _ | .brelease .., _ => .isFalse nofun

instance (s : State P) (a : Act P) : Decidable (UnlinksWell s a) :=
  inferInstanceAs (Decidable (∀ _, _ → _))

/-- The calls of `bget` or `bread` by a process that takes `n` steps to return. -/
def fetch (p : P) (reading : Bool) (dev blockNo : BitVec 32) (n : Nat) : List (Act P) :=
  .bget p reading dev blockNo :: .lock p :: List.replicate n (.run p)

def giveBack (p : P) (i : Fin 30) : List (Act P) := [.brelease p i, .lock p]

/-- Getting and releasing the first buffer once. -/
def firstRelease : List (Act Unit) := fetch () false 0 0 2 ++ giveBack () 0

theorem always_unique_firstRelease : Always step Unique (bootState : State Unit) firstRelease := by
  have hfew : Meets step (fun s a => UnlinksWell s a ∧
      ∀ i, (s.cache.buffers i).linkNo.toNat < 2 ^ 32 - 1) bootState firstRelease := by
    decide +kernel
  apply always_unique bootState_booted
  · decide +kernel
  · exact hfew.mono (fun s a h => ⟨h.1, fun i _ => h.2 i⟩)

/-- Block 1 is cached in buffer 29 and released, and taken again. Releasing block 0, whose buffer
kept the head as predecessor, then drops buffer 29 out of the forward list. -/
def lostBuffer : List (Act Bool) :=
  List.flatten [fetch true false 0 1 33, giveBack true 29, fetch true false 0 1 2,
    fetch false false 0 0 3, giveBack false 0, fetch false false 0 1 32]

theorem lostBuffer_isSome : (run step (bootState : State Bool) lostBuffer).isSome := by
  decide +kernel

theorem not_unique : ¬ ∀ (s u : State Bool) (as : List (Act Bool)), Booted s →
    Meets step OwnRelease s as → run step s as = some u → Unique u := by
  intro h
  have hu := h bootState ((run step bootState lostBuffer).get lostBuffer_isSome) lostBuffer
    bootState_booted (by decide +kernel) (Option.some_get _).symm
  apply hu.referenced 28 29
  · decide
  · decide +kernel
  · decide +kernel
  · constructor <;> decide +kernel

end Raynix.BufferUnique
