import Mathlib.Data.Fintype.Card
import Raynix.BufferUnique

namespace Raynix.BufferCounts

open Raynix.Lib.Transition Raynix.BufferCache Raynix.BufferUnique

variable {P : Type} [DecidableEq P]

/-- A state with a ghost: for each buffer, the processes that have passed the increment of `bget`
for it and not yet the decrement of `brelease`, one entry an increment. -/
structure Tracked (P : Type) where
  state : State P
  users : Fin 30 → List P

def usersAfter (s : State P) (users : Fin 30 → List P) : Act P → Fin 30 → List P
  | .run p =>
    match s.pc p with
    | .find _ dev blockNo (.buf i) =>
      if (s.cache.buffers i).Caches dev blockNo then Function.update users i (p :: users i)
      else users
    | .evict _ _ _ (.buf i) =>
      if (s.cache.buffers i).linkNo = 0 then Function.update users i (p :: users i) else users
    | _ => users
  | .lock p =>
    match s.pc p with
    | .releasing i => Function.update users i ((users i).erase p)
    | _ => users
  | .bget .. | .modify .. | .bwrite .. | .brelease .. => users

def trackStep (t : Tracked P) (a : Act P) : Option (Tracked P) :=
  (step t.state a).map fun s => ⟨s, usersAfter t.state t.users a⟩

def tracked (s : State P) : Tracked P := ⟨s, fun _ => []⟩

theorem trackStep_cases {t u : Tracked P} {a : Act P} (h : trackStep t a = some u) :
    Step t.state a u.state ∧ u.users = usersAfter t.state t.users a := by
  obtain ⟨s, hs, rfl⟩ := Option.map_eq_some_iff.mp h
  exact ⟨step_cases hs, rfl⟩

def OwnReleases (t : Tracked P) (a : Act P) : Prop := OwnRelease t.state a

/-- With the cache lock free, `link_no` is the number of processes using the buffer. -/
def Accounted (t : Tracked P) : Prop :=
  t.state.cacheLock = none →
    ∀ i, (t.state.cache.buffers i).linkNo.toNat = (t.users i).toFinset.card

/-- The holder of a buffer that calls `brelease`, and a process about to decrement the count,
find the count positive. -/
def NoUnderflow (t : Tracked P) (a : Act P) : Prop :=
  ∀ p i, (a = .brelease p i ∧ t.state.pc p = .idle ∧ t.state.sleepLock i = some p) ∨
    (a = .lock p ∧ t.state.cacheLock = none ∧ t.state.pc p = .releasing i) →
    (t.state.cache.buffers i).linkNo ≠ 0

/-- `a` belongs to a call of `bget`. -/
def OfBget (s : State P) : Act P → Prop
  | .bget .. => True
  | .lock p => ∃ reading dev blockNo, s.pc p = .enter reading dev blockNo
  | .run p => Inside (s.pc p)
  | .modify .. | .bwrite .. | .brelease .. => False

/-- A step of `bget` keeps the block and the validity of every buffer that is counted. -/
def Protects (t : Tracked P) (a : Act P) : Prop :=
  ∀ i s, OfBget t.state a → step t.state a = some s →
    ((t.state.cache.buffers i).linkNo ≠ 0 ∨ t.users i ≠ []) →
    SameBlock (s.cache.buffers i) (t.state.cache.buffers i) ∧
      (s.cache.buffers i).valid = (t.state.cache.buffers i).valid

/-- How often process `q` should be counted for buffer `i`: on its way to or from the sleeplock,
and while it holds it. -/
def share (s : State P) (i : Fin 30) (q : P) : Nat :=
  (if counts (s.pc q) = some i then 1 else 0) + if s.sleepLock i = some q then 1 else 0

theorem share_of_ne {s t : State P} {i : Fin 30} {p q : P} {new : Pc}
    (hpc : t.pc = Function.update s.pc p new)
    (hsl : t.sleepLock i = some q ↔ s.sleepLock i = some q) (hq : q ≠ p) :
    share t i q = share s i q := by
  simp only [share, hpc, Function.update_of_ne hq, hsl]

theorem share_lock {s t : State P} {p : P} {j : Fin 30} (hs : counts (s.pc p) = some j)
    (ht : counts (t.pc p) = none) (hsl : s.sleepLock j = none) (htl : t.sleepLock j = some p)
    (hpc : ∀ q, q ≠ p → t.pc q = s.pc q) (hl : ∀ i, i ≠ j → t.sleepLock i = s.sleepLock i)
    (i : Fin 30) (q : P) : share t i q = share s i q := by
  by_cases hq : q = p
  · by_cases hij : i = j
    · simp [share, hq, hij, hs, ht, hsl, htl]
    · simp [share, hq, hs, ht, hl i hij, Ne.symm hij]
  · by_cases hij : i = j
    · simp [share, hpc q hq, hij, hsl, htl, Ne.symm hq]
    · simp [share, hpc q hq, hl i hij]

/-- The invariant of the counts. -/
structure Accounts (t : Tracked P) : Prop where
  locked : Locked t.state
  users : ∀ i q, (t.users i).count q = share t.state i q
  linkNo : ∀ i, (t.state.cache.buffers i).linkNo = BitVec.ofNat 32 (t.users i).length
  released : ∀ p i, t.state.pc p = .releasing i → t.state.sleepLock i ≠ some p

theorem Accounts.keep {t : Tracked P} {s : State P} {i : Fin 30} {p q : P} {new : Pc}
    (h : Accounts t) (hpc : s.pc = Function.update t.state.pc p new)
    (hsl : s.sleepLock = t.state.sleepLock)
    (hnew : counts new = some i ↔ counts (t.state.pc p) = some i) :
    (t.users i).count q = share s i q := by
  rw [h.users]
  by_cases hq : q = p
  · simp only [share, hpc, hq, Function.update_self, hsl, hnew]
  · exact (share_of_ne hpc (by rw [hsl]) hq).symm

/-- `p` goes on to the sleeplock of a buffer it has just counted itself for. -/
theorem Accounts.enlist {t : Tracked P} {s : State P} {p q : P} {reading : Bool}
    {dev blockNo : BitVec 32} {i j : Fin 30} (h : Accounts t) (hpc : counts (t.state.pc p) = none)
    (hs : s.pc = Function.update t.state.pc p (.acquire reading dev blockNo j))
    (hsl : s.sleepLock = t.state.sleepLock) :
    (Function.update t.users j (p :: t.users j) i).count q = share s i q := by
  have hcounts : counts (.acquire reading dev blockNo j) = some j := rfl
  by_cases hq : q = p
  · subst hq
    by_cases hij : i = j
    · subst hij
      rw [Function.update_self, List.count_cons_self, h.users]
      simp [share, hs, hsl, hpc, hcounts, Nat.add_comm]
    · rw [Function.update_of_ne hij, h.users]
      simp [share, hs, hsl, hpc, hcounts, Ne.symm hij]
  · rw [share_of_ne hs (by rw [hsl]) hq, ← h.users]
    by_cases hij : i = j
    · rw [hij, Function.update_self, List.count_cons_of_ne (Ne.symm hq)]
    · rw [Function.update_of_ne hij]

/-- `p` leaves `brelease` after it has taken itself off the count. -/
theorem Accounts.strike {t : Tracked P} {s : State P} {p q : P} {i j : Fin 30}
    (h : Accounts t) (hpc : t.state.pc p = .releasing j)
    (hs : s.pc = Function.update t.state.pc p .idle) (hsl : s.sleepLock = t.state.sleepLock) :
    (Function.update t.users j ((t.users j).erase p) i).count q = share s i q := by
  by_cases hq : q = p
  · subst hq
    by_cases hij : i = j
    · subst hij
      rw [Function.update_self, List.count_erase_self, h.users]
      simp [share, hs, hsl, hpc, counts]
    · rw [Function.update_of_ne hij, h.users]
      simp [share, hs, hsl, hpc, counts, Ne.symm hij]
  · rw [share_of_ne hs (by rw [hsl]) hq, ← h.users]
    by_cases hij : i = j
    · rw [hij, Function.update_self, List.count_erase_of_ne hq]
    · rw [Function.update_of_ne hij]

theorem step_users {t : Tracked P} {a : Act P} {s : State P} (h : Accounts t)
    (hown : OwnReleases t a) (hstep : Step t.state a s) (i : Fin 30) (q : P) :
    (usersAfter t.state t.users a i).count q = share s i q := by
  cases hstep with
  | enter p reading dev blockNo hpc =>
    exact h.keep rfl rfl (by simp [hpc, counts])
  | lock p reading dev blockNo hl hpc =>
    simp only [usersAfter, hpc]
    exact h.keep rfl rfl (by simp [hpc, counts])
  | drop p j hl hpc =>
    simp only [usersAfter, hpc]
    exact h.strike hpc rfl rfl
  | miss p reading dev blockNo hpc =>
    simp only [usersAfter, hpc]
    exact h.keep rfl rfl (by simp [hpc, counts])
  | hit p reading dev blockNo j hpc hc =>
    simp only [usersAfter, hpc, if_pos hc]
    exact h.enlist (by rw [hpc, counts]) rfl rfl
  | next p reading dev blockNo j hpc hc =>
    simp only [usersAfter, hpc, if_neg hc]
    exact h.keep rfl rfl (by simp [hpc, counts])
  | lose p reading dev blockNo hpc =>
    simp only [usersAfter, hpc]
    exact h.keep rfl rfl (by simp [hpc, counts])
  | recycle p reading dev blockNo j hpc hl =>
    simp only [usersAfter, hpc, if_pos hl]
    exact h.enlist (by rw [hpc, counts]) rfl rfl
  | spin p reading dev blockNo j hpc hl =>
    simp only [usersAfter, hpc, if_neg hl]
    exact h.users i q
  | acquire p reading dev blockNo j hpc hl =>
    simp only [usersAfter, hpc]
    refine (h.users i q).trans (share_lock (p := p) ?_ ?_ hl ?_ ?_ ?_ i q).symm
    · rw [hpc, counts]
    · cases reading <;> simp [State.goto, counts]
    · exact Function.update_self ..
    · exact fun q hq => Function.update_of_ne hq ..
    · exact fun i hi => Function.update_of_ne hi ..
  | check p dev blockNo j hpc =>
    simp only [usersAfter, hpc]
    refine h.keep rfl rfl ?_
    cases (t.state.cache.buffers j).valid <;> simp [hpc, counts]
  | fill p dev blockNo j hpc =>
    simp only [usersAfter, hpc]
    exact h.keep rfl rfl (by simp [hpc, counts])
  | modify p j data hpc hl => exact h.users i q
  | bwrite p j hpc hl => exact h.users i q
  | brelease p j hpc hl =>
    refine (h.users i q).trans (share_lock ?_ ?_ ?_ (hown p j rfl) ?_ ?_ i q)
    · simp [State.goto, counts]
    · rw [hpc, counts]
    · exact Function.update_self ..
    · exact fun q hq => (Function.update_of_ne hq ..).symm
    · exact fun i hi => (Function.update_of_ne hi ..).symm

/-- The users of a buffer are its holder and the processes on their way to or from it. -/
theorem Accounts.mem_iff {t : Tracked P} (h : Accounts t) {i : Fin 30} {q : P} :
    q ∈ t.users i ↔ counts (t.state.pc q) = some i ∨ t.state.sleepLock i = some q := by
  rw [← List.count_pos_iff, h.users, share]
  by_cases hc : counts (t.state.pc q) = some i <;>
    by_cases hl : t.state.sleepLock i = some q <;> simp [hc, hl]

omit [DecidableEq P] in
theorem ofNat_cons (users : List P) (p : P) :
    BitVec.ofNat 32 (p :: users).length = BitVec.ofNat 32 users.length + 1 := by
  rw [List.length_cons, BitVec.ofNat_add]
  rfl

theorem ofNat_erase {users : List P} {p : P} (hp : p ∈ users) :
    BitVec.ofNat 32 (users.erase p).length = BitVec.ofNat 32 users.length - 1 := by
  have hpos : 0 < users.length := List.length_pos_of_mem hp
  rw [List.length_erase_of_mem hp]
  bv_omega

theorem Accounts.setBuf {t : Tracked P} {j : Fin 30} {b : Buf} {l : List P} (h : Accounts t)
    (hb : b.linkNo = BitVec.ofNat 32 l.length) (i : Fin 30) :
    ((t.state.cache.setBuf j b).buffers i).linkNo =
      BitVec.ofNat 32 (Function.update t.users j l i).length := by
  by_cases hij : i = j
  · rw [hij, setBuf_self, Function.update_self, hb]
  · rw [setBuf_of_ne _ _ hij, Function.update_of_ne hij, h.linkNo]

theorem step_linkNo {t : Tracked P} {a : Act P} {s : State P} (h : Accounts t)
    (hstep : Step t.state a s) (i : Fin 30) : (s.cache.buffers i).linkNo =
      BitVec.ofNat 32 (usersAfter t.state t.users a i).length := by
  have hi := h.linkNo i
  cases hstep with
  | enter | bwrite | brelease => exact hi
  | lock p reading dev blockNo hl hpc =>
    simp only [usersAfter, hpc]
    exact hi
  | drop p j hl hpc =>
    simp only [usersAfter, hpc, dropLink_buffers]
    have hp : p ∈ t.users j := h.mem_iff.mpr (.inl (by rw [hpc, counts]))
    exact h.setBuf (by rw [ofNat_erase hp, h.linkNo]) i
  | miss p reading dev blockNo hpc | lose p reading dev blockNo hpc | check p dev blockNo j hpc
  | acquire p reading dev blockNo j hpc hl =>
    simp only [usersAfter, hpc]
    exact hi
  | next p reading dev blockNo j hpc hc | spin p reading dev blockNo j hpc hc =>
    simp only [usersAfter, hpc, if_neg hc]
    exact hi
  | hit p reading dev blockNo j hpc hc =>
    simp only [usersAfter, hpc, if_pos hc, addLink]
    exact h.setBuf (by rw [ofNat_cons, h.linkNo]) i
  | recycle p reading dev blockNo j hpc hl =>
    simp only [usersAfter, hpc, if_pos hl, recycle]
    exact h.setBuf (by rw [ofNat_cons, h.linkNo]) i
  | fill p dev blockNo j hpc =>
    simp only [usersAfter, hpc]
    rw [← Function.update_eq_self j t.users]
    refine h.setBuf ?_ i
    exact h.linkNo j
  | modify p j data hpc hl =>
    simp only [usersAfter]
    rw [← Function.update_eq_self j t.users]
    refine h.setBuf ?_ i
    exact h.linkNo j

theorem step_other_holds {s t : State P} {a : Act P} {q : P} {i : Fin 30} (h : Step s a t)
    (hq : q ≠ actor a) (hl : t.sleepLock i = some q) : s.sleepLock i = some q := by
  cases h with
  | acquire p reading dev blockNo j =>
    change Function.update s.sleepLock j (some p) i = some q at hl
    by_cases hij : i = j
    · rw [hij, Function.update_self] at hl
      exact absurd (Option.some.inj hl).symm hq
    · rwa [Function.update_of_ne hij] at hl
  | brelease p j =>
    change Function.update s.sleepLock j none i = some q at hl
    by_cases hij : i = j
    · rw [hij, Function.update_self] at hl
      cases hl
    · rwa [Function.update_of_ne hij] at hl
  | _ => exact hl

theorem step_released {t : Tracked P} {a : Act P} {s : State P} (h : Accounts t)
    (hstep : Step t.state a s) (q : P) (i : Fin 30) (hq : s.pc q = .releasing i) :
    s.sleepLock i ≠ some q := by
  by_cases hactor : q = actor a
  · subst hactor
    cases hstep with
    | brelease p j =>
      obtain rfl : j = i := by simpa [actor, State.goto] using hq
      simp
    | acquire p reading => cases reading <;> simp [actor, State.goto] at hq
    | check p dev blockNo j hpc =>
      cases hv : (t.state.cache.buffers j).valid <;> simp [actor, State.goto, hv] at hq
    | spin p reading dev blockNo j hpc => simp [actor, hpc] at hq
    | modify p j data hpc | bwrite p j hpc => simp [actor, hpc] at hq
    | _ => simp [actor, State.goto] at hq
  · rw [step_other_pc hstep hactor] at hq
    exact fun hl => h.released q i hq (step_other_holds hstep hactor hl)

theorem step_accounts {t u : Tracked P} {a : Act P} (h : Accounts t) (hown : OwnReleases t a)
    (hstep : trackStep t a = some u) : Accounts u := by
  obtain ⟨hstep, husers⟩ := trackStep_cases hstep
  refine ⟨step_locked h.locked hown hstep, fun i q => ?_, fun i => ?_, step_released h hstep⟩
  · rw [husers]
    exact step_users h hown hstep i q
  · rw [husers]
    exact step_linkNo h hstep i

theorem booted_accounts {s : State P} (hs : Booted s) : Accounts (tracked s) := by
  refine ⟨⟨?_, ?_⟩, fun i q => ?_, fun i => ?_, fun p i hp => ?_⟩
  · simp [tracked, hs.pc, Inside]
  · simp [tracked, hs.pc, transfers]
  · simp [tracked, share, hs.pc, hs.sleepLock, counts]
  · simp [tracked, hs.buffers]
  · simp [tracked, hs.pc] at hp

theorem Accounts.nodup {t : Tracked P} {i : Fin 30} (h : Accounts t)
    (hwait : ∀ q, Inside (t.state.pc q) → counts (t.state.pc q) = some i →
      t.state.sleepLock i ≠ some q) : (t.users i).Nodup := by
  rw [List.nodup_iff_count_le_one]
  intro q
  rw [h.users, share]
  by_cases hc : counts (t.state.pc q) = some i
  · have hl : t.state.sleepLock i ≠ some q := by
      cases hpc : t.state.pc q with
      | acquire reading dev blockNo j => exact hwait q (by rw [hpc]; trivial) hc
      | releasing j =>
        obtain rfl : j = i := by simpa [hpc, counts] using hc
        exact h.released q j hpc
      | _ => simp [hpc, counts] at hc
    rw [if_pos hc, if_neg hl]
  · rw [if_neg hc]
    split <;> omega

/-- Fewer processes than the counter can hold do not make it wrap. -/
theorem Accounts.toNat_linkNo [Fintype P] (hcard : Fintype.card P < 2 ^ 32) {t : Tracked P}
    {i : Fin 30} (h : Accounts t) (hnd : (t.users i).Nodup) :
    (t.state.cache.buffers i).linkNo.toNat = (t.users i).length := by
  rw [h.linkNo, BitVec.toNat_ofNat]
  exact Nat.mod_eq_of_lt (hnd.length_le_card.trans_lt hcard)

theorem Accounts.nodup_of_free {t : Tracked P} (h : Accounts t) (hl : t.state.cacheLock = none)
    (i : Fin 30) : (t.users i).Nodup :=
  h.nodup fun q hin _ => absurd hin (h.locked.not_inside_of_free hl q)

theorem Accounts.linkNo_eq_zero [Fintype P] (hcard : Fintype.card P < 2 ^ 32) {t : Tracked P}
    {i : Fin 30} (h : Accounts t) (hnd : (t.users i).Nodup)
    (h0 : (t.state.cache.buffers i).linkNo = 0) : t.users i = [] := by
  have hlen := h.toNat_linkNo hcard hnd
  rw [h0] at hlen
  exact List.eq_nil_of_length_eq_zero hlen.symm

theorem Accounts.accounted [Fintype P] (hcard : Fintype.card P < 2 ^ 32) {t : Tracked P}
    (h : Accounts t) : Accounted t := by
  intro hl i
  have hnd := h.nodup_of_free hl i
  rw [h.toNat_linkNo hcard hnd, List.toFinset_card_of_nodup hnd]

theorem Accounts.noUnderflow [Fintype P] (hcard : Fintype.card P < 2 ^ 32) {t : Tracked P}
    {a : Act P} (h : Accounts t) : NoUnderflow t a := by
  rintro p i (⟨-, hpc, hl⟩ | ⟨-, hfree, hpc⟩) h0
  · have hnd : (t.users i).Nodup := by
      refine h.nodup fun q hin _ hq => ?_
      obtain rfl : p = q := Option.some.inj (hl.symm.trans hq)
      rw [hpc] at hin
      exact hin
    have hp : p ∈ t.users i := h.mem_iff.mpr (.inr hl)
    exact List.ne_nil_of_mem hp (h.linkNo_eq_zero hcard hnd h0)
  · have hp : p ∈ t.users i := h.mem_iff.mpr (.inl (by rw [hpc, counts]))
    exact List.ne_nil_of_mem hp (h.linkNo_eq_zero hcard (h.nodup_of_free hfree i) h0)

theorem Accounts.victim [Fintype P] (hcard : Fintype.card P < 2 ^ 32) {t : Tracked P} {p : P}
    {reading : Bool} {dev blockNo : BitVec 32} {j : Fin 30} (h : Accounts t)
    (hpc : t.state.pc p = .evict reading dev blockNo (.buf j))
    (hl : (t.state.cache.buffers j).linkNo = 0) : t.users j = [] := by
  have hp : Inside (t.state.pc p) := by
    rw [hpc]
    trivial
  have hnd : (t.users j).Nodup := by
    refine h.nodup fun q hin hc => ?_
    have hq : q ≠ p := by
      rintro rfl
      simp [hpc, counts] at hc
    exact absurd hin (h.locked.not_inside_of_ne hp hq)
  exact h.linkNo_eq_zero hcard hnd hl

theorem Accounts.protects [Fintype P] (hcard : Fintype.card P < 2 ^ 32) {t : Tracked P}
    {a : Act P} (h : Accounts t) : Protects t a := by
  intro i s hbget hstep hcount
  cases step_cases hstep with
  | hit p reading dev blockNo j hpc hc =>
    by_cases hij : i = j
    · subst hij
      simp [addLink, SameBlock]
    · simp [addLink, hij, SameBlock]
  | recycle p reading dev blockNo j hpc hl =>
    have hij : i ≠ j := by
      rintro rfl
      obtain hcount | hcount := hcount
      · exact hcount hl
      · exact hcount (h.victim hcard hpc hl)
    simp [recycle, hij, SameBlock]
  | drop p j hl hpc =>
    obtain ⟨reading, dev, blockNo, hpc'⟩ := hbget
    rw [hpc] at hpc'
    cases hpc'
  | check p dev blockNo j hpc | fill p dev blockNo j hpc =>
    change Inside (t.state.pc p) at hbget
    rw [hpc] at hbget
    exact hbget.elim
  | modify | bwrite | brelease => exact hbget.elim
  | _ => exact ⟨⟨rfl, rfl⟩, rfl⟩

/-- With fewer processes than `link_no` can count, it counts the users of each buffer, never
goes below zero, and keeps `bget` off the buffers in use. -/
theorem counts_protect [Fintype P] (hcard : Fintype.card P < 2 ^ 32) {s : State P}
    {as : List (Act P)} (hs : Booted s) (hown : Meets trackStep OwnReleases (tracked s) as) :
    Always trackStep Accounted (tracked s) as ∧ Meets trackStep NoUnderflow (tracked s) as ∧
      Meets trackStep Protects (tracked s) as := by
  have hstep : ∀ (t : Tracked P) a u, Accounts t → OwnReleases t a → trackStep t a = some u →
      Accounts u := fun _ _ _ h hown => step_accounts h hown
  have hinv := booted_accounts hs
  refine ⟨?_, ?_, ?_⟩
  · exact (always_of_meets hstep hinv hown).mono fun t h => h.accounted hcard
  · exact hown.of_invariant hstep (fun t a h _ => h.noUnderflow hcard) hinv
  · exact hown.of_invariant hstep (fun t a h _ => h.protects hcard) hinv

instance (t : Tracked P) (a : Act P) : Decidable (OwnReleases t a) :=
  inferInstanceAs (Decidable (OwnRelease t.state a))

/-- A process waits for a buffer in use, gets it, and both give it back. -/
def contended : List (Act Bool) :=
  List.flatten [fetch false false 0 0 2, [.bget true false 0 0, .lock true, .run true],
    [.brelease false 0, .run true, .lock false], giveBack true 0]

theorem counts_protect_contended : Always trackStep Accounted (tracked bootState) contended ∧
    Meets trackStep NoUnderflow (tracked bootState) contended ∧
    Meets trackStep Protects (tracked bootState) contended :=
  counts_protect (by decide) bootState_booted (by decide +kernel)

/-- The first buffer holds block 0, processes `0` to `m - 1` count for it, of which only `holder`
still has its sleeplock, and the processes from `n` on are idle. -/
structure Queued (n m : Nat) (holder : Option Nat) (t : Tracked Nat) : Prop where
  cacheLock : t.state.cacheLock = none
  sleepLock : t.state.sleepLock 0 = holder
  pc : ∀ q, n ≤ q → t.state.pc q = .idle
  first : t.state.cache.ring.next .head = .buf 0
  caches : (t.state.cache.buffers 0).Caches 0 0
  linkNo : (t.state.cache.buffers 0).linkNo = BitVec.ofNat 32 m
  users : t.users 0 = (List.range m).reverse

theorem Queued.fetch {n : Nat} {t : Tracked Nat} (h : Queued n n none t) :
    ∃ u, run trackStep t (fetch n false 0 0 2) = some u ∧ Queued n (n + 1) (some n) u := by
  have hcall : trackStep t (.bget n false 0 0) =
      some ⟨t.state.goto n (.enter false 0 0), t.users⟩ := by
    simp [trackStep, step, usersAfter, h.pc n le_rfl]
  have hlock : trackStep ⟨t.state.goto n (.enter false 0 0), t.users⟩ (.lock n) =
      some ⟨{ t.state.goto n (.find false 0 0 (.buf 0)) with cacheLock := some n }, t.users⟩ := by
    simp [trackStep, step, usersAfter, State.goto, h.cacheLock, h.first]
  have hhit : trackStep
      ⟨{ t.state.goto n (.find false 0 0 (.buf 0)) with cacheLock := some n }, t.users⟩ (.run n) =
      some ⟨{ t.state.goto n (.acquire false 0 0 0) with
          cache := addLink t.state.cache 0, cacheLock := some n },
        Function.update t.users 0 (n :: t.users 0)⟩ := by
    have hc : (t.state.cache.buffers 0).Caches 0#32 0#32 := h.caches
    simp [trackStep, step, runStep, usersAfter, State.goto, hc]
  have hacquire : trackStep ⟨{ t.state.goto n (.acquire false 0 0 0) with
          cache := addLink t.state.cache 0, cacheLock := some n },
        Function.update t.users 0 (n :: t.users 0)⟩ (.run n) =
      some ⟨{ t.state.goto n .idle with
          cache := addLink t.state.cache 0
          sleepLock := Function.update t.state.sleepLock 0 (some n)
          cacheLock := none },
        Function.update t.users 0 (n :: t.users 0)⟩ := by
    simp [trackStep, step, runStep, usersAfter, State.goto, h.sleepLock]
  have hrun : run trackStep t (BufferUnique.fetch n false 0 0 2) = _ :=
    run_cons_eq_some.mpr ⟨_, hcall, run_cons_eq_some.mpr ⟨_, hlock,
      run_cons_eq_some.mpr ⟨_, hhit, run_cons_eq_some.mpr ⟨_, hacquire, rfl⟩⟩⟩⟩
  refine ⟨_, hrun, rfl, ?_, fun q hq => ?_, h.first, ?_, ?_, ?_⟩
  · simp
  · by_cases hqn : q = n
    · simp [State.goto, hqn]
    · simp [State.goto, hqn, h.pc q hq]
  · exact h.caches
  · simp [addLink, h.linkNo, BitVec.ofNat_add]
  · simp [h.users, List.range_succ]

theorem Queued.brelease {n : Nat} {t : Tracked Nat} (h : Queued n (n + 1) (some n) t)
    (hn : n < 2 ^ 32 - 1) :
    ∃ u, trackStep t (.brelease n 0) = some u ∧ Queued (n + 1) (n + 1) none u := by
  have hlink : (t.state.cache.buffers 0).linkNo ≠ 0#32 := by
    rw [h.linkNo]
    bv_omega
  have hstep : trackStep t (.brelease n 0) = some ⟨{ t.state.goto n (.releasing 0) with
      sleepLock := Function.update t.state.sleepLock 0 none }, t.users⟩ := by
    simp [trackStep, step, usersAfter, h.pc n le_rfl, hlink]
  refine ⟨_, hstep, h.cacheLock, ?_, fun q hq => ?_, h.first, h.caches, h.linkNo, h.users⟩
  · simp
  · have hqn : q ≠ n := by omega
    simp [State.goto, hqn, h.pc q (by omega)]

/-- Processes `0` to `n - 1` get the first buffer one after the other and stop in `brelease`
before the cache lock. -/
def queue : Nat → List (Act Nat)
  | 0 => []
  | n + 1 => queue n ++ (fetch n false 0 0 2 ++ [.brelease n 0])

theorem meets_fetch {t : Tracked P} (p : P) (reading : Bool) (dev blockNo : BitVec 32) (n : Nat) :
    Meets trackStep OwnReleases t (fetch p reading dev blockNo n) := by
  refine meets_of_forall fun a ha t q i hq => ?_
  simp [fetch, hq] at ha

theorem run_queue {n : Nat} (hn : n < 2 ^ 32) :
    ∃ t, run trackStep (tracked bootState) (queue n) = some t ∧ Queued n n none t ∧
      Meets trackStep OwnReleases (tracked bootState) (queue n) := by
  induction n with
  | zero =>
    refine ⟨_, rfl, ⟨rfl, rfl, fun _ _ => rfl, ?_, ⟨rfl, rfl⟩, rfl, rfl⟩, trivial⟩
    decide +kernel
  | succ n ih =>
    obtain ⟨t, ht, hqueued, hmeets⟩ := ih (by omega)
    obtain ⟨u, hu, hgot⟩ := hqueued.fetch
    obtain ⟨v, hv, hqueued'⟩ := hgot.brelease (by omega)
    have huv : run trackStep t (fetch n false 0 0 2 ++ [.brelease n 0]) = some v := by
      rw [run_append, hu, Option.bind_some, run_cons, hv]
      rfl
    have hown : OwnReleases u (.brelease n 0) := by
      intro p i hp
      cases hp
      exact hgot.sleepLock
    refine ⟨v, ?_, hqueued', ?_⟩
    · rw [queue, run_append, ht, Option.bind_some, huv]
    · exact hmeets.append ht ((meets_fetch n false 0 0 2).append hu ⟨hown, fun _ _ => trivial⟩)

/-- One more process than `link_no` can count wraps it to zero. -/
theorem not_accounted : ¬ ∀ (s : State Nat) (as : List (Act Nat)), Booted s →
    Meets trackStep OwnReleases (tracked s) as → Always trackStep Accounted (tracked s) as := by
  intro h
  obtain ⟨n, hn⟩ : ∃ n, n + 1 = 2 ^ 32 := ⟨2 ^ 32 - 1, by decide⟩
  obtain ⟨t, ht, hqueued, hmeets⟩ := run_queue (n := n) (by omega)
  obtain ⟨u, hu, hgot⟩ := hqueued.fetch
  have hrun : run trackStep (tracked bootState) (queue n ++ fetch n false 0 0 2) = some u := by
    rw [run_append, ht, Option.bind_some, hu]
  have hall := h bootState (queue n ++ fetch n false 0 0 2) bootState_booted
    (hmeets.append ht (meets_fetch n false 0 0 2))
  have hcount := hall.final hrun hgot.cacheLock 0
  have hnd : (List.range (n + 1)).reverse.Nodup := List.nodup_reverse.mpr List.nodup_range
  rw [hgot.linkNo, hgot.users, List.toFinset_card_of_nodup hnd, List.length_reverse,
    List.length_range, hn, BitVec.toNat_ofNat, Nat.mod_self] at hcount
  omega

end Raynix.BufferCounts
