import Raynix.StorageStack

namespace Raynix.StorageCache

open Raynix.Lib Raynix.Lib.Transition Raynix.BufferCache Raynix.BufferUnique Raynix.BufferCounts
open Raynix.StorageStack
open Raynix.VirtioRequests (Role role)
open Raynix.AtomicDisk (Call progress view)

variable {V : Virtio.Params} {P H : Type}

/-- The two caches agree as far as process `p` sees. -/
structure Follows (read : Fin 30 → Prop) (c b : BufferCache.State P) (p : P) : Prop where
  cache : SameBuffers read c.cache b.cache
  cacheLock : b.cacheLock = c.cacheLock
  sleepLock : b.sleepLock = c.sleepLock
  pc : b.pc p = c.pc p

section Follows

variable [DecidableEq P] {read : Fin 30 → Prop} {c c' b : BufferCache.State P} {p : P}

theorem Follows.goto (h : Follows read c b p) (pc : Pc) :
    Follows read (c.goto p pc) (b.goto p pc) p :=
  ⟨h.cache, h.cacheLock, h.sleepLock, by simp [State.goto]⟩

theorem Follows.set {p : P} (h : Follows read c b p) {c₁ b₁ : Cache} (hs : SameBuffers read c₁ b₁)
    (pc : Pc) : Follows read { c.goto p pc with cache := c₁ } { b.goto p pc with cache := b₁ } p :=
  ⟨hs, h.cacheLock, h.sleepLock, by simp [State.goto]⟩

/-- A process that looks at no buffer that has been read takes the same step in both caches. -/
theorem Follows.step {a : BufferCache.Act P} (h : Follows read c b (actor a))
    (hstep : Step c a c') (hquiet : isTransfer c.pc a = false)
    (hcheck : ∀ dev n i, c.pc (actor a) = .check dev n i → ¬ read i)
    (hvictim : ∀ reading dev n i, c.pc (actor a) = .evict reading dev n (.buf i) →
      (c.cache.buffers i).linkNo = 0 → ¬ read i) :
    ∃ b', BufferCache.step b a = some b' ∧ Follows read c' b' (actor a) ∧ b'.disk = b.disk := by
  have hb := h.pc
  cases hstep with
  | enter p reading dev n hpc =>
    rw [actor, hpc] at hb
    exact ⟨_, if_pos hb, h.goto _, rfl⟩
  | lock p reading dev n hl hpc =>
    rw [actor, hpc] at hb
    refine ⟨{ b.goto p (.find reading dev n (c.cache.ring.next .head)) with cacheLock := some p },
      ?_, ⟨h.cache, rfl, h.sleepLock, by simp [actor, State.goto]⟩, rfl⟩
    simp [BufferCache.step, h.cacheLock, hl, hb, h.cache.ring]
  | drop p i hl hpc =>
    rw [actor, hpc] at hb
    refine ⟨_, ?_, h.set (h.cache.dropLink i) .idle, rfl⟩
    simp [BufferCache.step, actor, h.cacheLock, hl, hb]
  | miss p reading dev n hpc =>
    rw [actor, hpc] at hb
    refine ⟨b.goto p (.evict reading dev n (c.cache.ring.prior .head)), ?_, h.goto _, rfl⟩
    simp [BufferCache.step, runStep, hb, h.cache.ring]
  | hit p reading dev n i hpc hc =>
    rw [actor, hpc] at hb
    refine ⟨_, ?_, h.set (h.cache.addLink i) (.acquire reading dev n i), rfl⟩
    simp [BufferCache.step, runStep, actor, hb, (h.cache.caches i dev n).mpr hc]
  | next p reading dev n i hpc hc =>
    rw [actor, hpc] at hb
    refine ⟨b.goto p (.find reading dev n (c.cache.ring.next (.buf i))), ?_, h.goto _, rfl⟩
    simp [BufferCache.step, runStep, hb, (h.cache.caches i dev n).not.mpr hc, h.cache.ring]
  | lose p reading dev n hpc =>
    rw [actor, hpc] at hb
    refine ⟨_, ?_, h.goto .lost, rfl⟩
    simp [BufferCache.step, runStep, actor, hb]
  | recycle p reading dev n i hpc hl =>
    rw [actor, hpc] at hb
    refine ⟨_, ?_, h.set (h.cache.recycle (hvictim reading dev n i hpc hl) dev n)
      (.acquire reading dev n i), rfl⟩
    simp [BufferCache.step, runStep, actor, hb, (h.cache.agree i).linkNo.trans hl]
  | spin p reading dev n i hpc hl =>
    rw [actor, hpc] at hb
    have hl' : (b.cache.buffers i).linkNo ≠ 0#32 := (h.cache.agree i).linkNo ▸ hl
    refine ⟨b, ?_, h, rfl⟩
    simp [BufferCache.step, runStep, hb, hl']
  | acquire p reading dev n i hpc hl =>
    rw [actor, hpc] at hb
    have hl' : b.sleepLock i = none := h.sleepLock ▸ hl
    refine ⟨{ b.goto p (if reading then .check dev n i else .idle) with
      sleepLock := Function.update b.sleepLock i (some p), cacheLock := none }, ?_,
      ⟨h.cache, rfl, congrArg (Function.update · i (some p)) h.sleepLock,
        by simp [actor, State.goto]⟩, rfl⟩
    simp [BufferCache.step, runStep, hb, hl']
  | check p dev n i hpc =>
    rw [actor, hpc] at hb
    refine ⟨b.goto p (if (c.cache.buffers i).valid then .idle else .fill dev n i), ?_,
      h.goto _, rfl⟩
    simp [BufferCache.step, runStep, hb, h.cache.valid i (hcheck dev n i hpc)]
  | fill p dev n i hpc => simp [isTransfer, hpc] at hquiet
  | modify p i data hpc hl =>
    rw [actor, hpc] at hb
    have hl' : b.sleepLock i = some p := h.sleepLock ▸ hl
    exact ⟨_, if_pos ⟨hb, hl'⟩, ⟨h.cache.setData i data, h.cacheLock, h.sleepLock, h.pc⟩, rfl⟩
  | bwrite p i hpc hl => cases hquiet
  | brelease p i hpc hl =>
    rw [actor, hpc] at hb
    have hl' : (b.cache.buffers i).linkNo ≠ 0 := (h.cache.agree i).linkNo ▸ hl
    exact ⟨_, if_pos ⟨hb, hl'⟩, ⟨h.cache, h.cacheLock,
      congrArg (Function.update · i none) h.sleepLock, by simp [actor, State.goto]⟩, rfl⟩

end Follows

/-- The block that a process is on its way to. -/
def wanted : Pc → Option (BitVec 32)
  | .enter _ _ n | .find _ _ n _ | .evict _ _ n _ => some n
  | .idle | .lost | .acquire .. | .check .. | .fill .. | .releasing _ => none

/-- All block numbers have a sector of 32 bits. -/
structure Small (c : BufferCache.State P) : Prop where
  buffers : ∀ i, (c.cache.buffers i).blockNo.toNat < 2 ^ 31
  wanted : ∀ p n, wanted (c.pc p) = some n → n.toNat < 2 ^ 31

section Blocks

variable [DecidableEq P] {c c' : BufferCache.State P} {a : BufferCache.Act P}

theorem setBuf_field {α : Type} (f : Buf → α) (c : Cache) {j : Fin 30} {x : Buf}
    (hx : f x = f (c.buffers j)) (i : Fin 30) : f ((c.setBuf j x).buffers i) = f (c.buffers i) := by
  by_cases hij : i = j
  · rw [hij, setBuf_self, hx]
  · rw [setBuf_of_ne _ _ hij]

theorem step_blockNo (h : Step c a c') (i : Fin 30) :
    (c'.cache.buffers i).blockNo = (c.cache.buffers i).blockNo ∨
      ∃ reading dev n, c.pc (actor a) = .evict reading dev n (.buf i) ∧
        (c.cache.buffers i).linkNo = 0 ∧ (c'.cache.buffers i).blockNo = n := by
  cases h with
  | recycle p reading dev n j hpc hl =>
    by_cases hij : i = j
    · subst hij
      exact .inr ⟨reading, dev, n, hpc, hl, by simp [recycle]⟩
    · exact .inl (by simp [recycle, hij])
  | drop p j hl hpc =>
    refine .inl ?_
    change ((dropLink c.cache j).buffers i).blockNo = _
    rw [dropLink_buffers]
    refine setBuf_field Buf.blockNo _ ?_ i
    rfl
  | hit | fill | modify =>
    refine .inl (setBuf_field Buf.blockNo _ ?_ i)
    rfl
  | _ => exact .inl rfl

theorem step_wanted (h : Step c a c') {p : P} {n : BitVec 32} (hn : wanted (c'.pc p) = some n) :
    wanted (c.pc p) = some n ∨ ∃ reading dev, a = .bget p reading dev n := by
  by_cases hp : p = actor a
  · subst hp
    cases h with
    | enter p reading dev n' hpc =>
      obtain rfl : n' = n := by simpa [actor, State.goto, wanted] using hn
      exact .inr ⟨reading, dev, rfl⟩
    | acquire p reading => cases reading <;> simp [actor, State.goto, wanted] at hn
    | check p dev n' i hpc =>
      cases hv : (c.cache.buffers i).valid <;> simp [actor, State.goto, wanted, hv] at hn
    | spin | modify | bwrite => exact .inl hn
    | _ => exact .inl (by simp_all [actor, State.goto, wanted])
  · rw [step_other_pc h hp] at hn
    exact .inl hn

theorem Small.step (hs : Small c) (h : Step c a c')
    (hnew : ∀ p reading dev n, a = .bget p reading dev n → n.toNat < 2 ^ 31) : Small c' := by
  refine ⟨fun i => ?_, fun p n hn => ?_⟩
  · obtain hi | ⟨reading, dev, n, hpc, -, hi⟩ := step_blockNo h i
    · exact hi ▸ hs.buffers i
    · exact hi ▸ hs.wanted (actor a) n (by rw [hpc]; rfl)
  · obtain hn | ⟨reading, dev, ha⟩ := step_wanted h hn
    · exact hs.wanted p n hn
    · exact hnew p reading dev n ha

end Blocks

/-- Where a process is that has called `virtio_disk_rw`: in `bwrite` or `bread`, with the buffer
locked. -/
structure Calling (s : State V P H) (p : P) (c : Call (Fin 30)) : Prop where
  holds : s.sleepLock c.buffer = some p
  writes : c.write = true → s.pc p = .idle
  reads : c.write = false → ∃ dev n, s.pc p = .fill dev n c.buffer

/-- What holds of every run, with the cache over exact transfers. -/
structure Good [DecidableEq P] (s : State V P H) (b : BufferCache.State P) : Prop where
  shows : Shows s b
  disk : AtomicDisk.Inv s.disk
  accounts : ∃ users, Accounts ⟨b, users⟩
  small : Small s.buffers
  calls : ∀ p c done, s.call p = some (c, done) → Calling s p c
  handlers : ∀ x, (view s.disk).calls (.inr x) = none

theorem progress_buffer (asked : Bool) (moved : List Nat) (ρ : Role (Fin 30)) :
    (progress asked moved ρ).map (fun x => x.1.buffer) = ρ.buffer := by
  cases ρ <;> rfl

section Cache

variable [DecidableEq P] {s s' : State V P H} {b : BufferCache.State P} {p : P}

omit [DecidableEq P] in
theorem call_of_idle (h : s.driver.pc (.inl p) = .idle) : s.call p = none := by
  rw [State.call, h]
  rfl

theorem Good.pc (G : Good s b) (h : s.call p = none) : b.pc p = s.pc p :=
  G.shows.waits p fun i hi => by simp [h] at hi

theorem Good.caller (G : Good s b) {i : Fin 30} {u : P ⊕ H}
    (hu : (role (s.driver.pc u)).buffer = some i) :
    ∃ q, s.call q ≠ none ∧ s.sleepLock i = some q := by
  rw [← progress_buffer (s.asked u) s.moved] at hu
  obtain ⟨⟨c, done⟩, hc, rfl⟩ := Option.map_eq_some_iff.mp hu
  cases u with
  | inl q =>
    refine ⟨q, fun hn => ?_, (G.calls q c done hc).holds⟩
    cases hn.symm.trans hc
  | inr x => cases (G.handlers x).symm.trans hc

theorem Good.not_called (G : Good s b) (h : s.call p = none) {i : Fin 30}
    (hl : s.sleepLock i = some p) (u : P ⊕ H) : (role (s.driver.pc u)).buffer ≠ some i := by
  intro hu
  obtain ⟨q, hq, hlq⟩ := G.caller hu
  obtain rfl := Option.some.inj (hl.symm.trans hlq)
  exact hq h

theorem Good.victim [Fintype P] (hcard : Fintype.card P < 2 ^ 32) (G : Good s b)
    (h : s.call p = none) {reading : Bool} {dev n : BitVec 32} {i : Fin 30}
    (hpc : s.pc p = .evict reading dev n (.buf i)) (hl : (s.cache.buffers i).linkNo = 0)
    (u : P ⊕ H) : (role (s.driver.pc u)).buffer ≠ some i := by
  obtain ⟨users, hA⟩ := G.accounts
  have hnil := hA.victim hcard ((G.pc h).trans hpc) ((G.shows.cache.agree i).linkNo.trans hl)
  intro hu
  obtain ⟨q, -, hlq⟩ := G.caller hu
  have hq := hA.mem_iff.mpr (.inr ((congrFun G.shows.sleepLock i).trans hlq))
  exact List.not_mem_nil (hnil ▸ hq)

omit [DecidableEq P] in
theorem role_of_read {i : Fin 30} (h : s.Read i) :
    ∃ u, (role (s.driver.pc u)).buffer = some i := by
  obtain ⟨q, hq⟩ := h
  refine ⟨.inl q, ?_⟩
  rw [← progress_buffer (s.asked (.inl q)) s.moved]
  exact congrArg (Option.map _) hq

/-- A process outside calls of the driver takes the same step in both caches. -/
theorem Good.follows [Fintype P] (hcard : Fintype.card P < 2 ^ 32) (G : Good s b)
    {a : BufferCache.Act P} {c : BufferCache.State P} (hcall : s.call (actor a) = none)
    (hquiet : isTransfer s.pc a = false) (hstep : Step s.buffers a c) :
    ∃ b', BufferCache.step b a = some b' ∧ Follows s.Read c b' (actor a) ∧ b'.disk = b.disk := by
  have hpc := G.pc hcall
  have hfollows : Follows s.Read s.buffers b (actor a) :=
    ⟨G.shows.cache, G.shows.cacheLock, G.shows.sleepLock, hpc⟩
  refine hfollows.step hstep hquiet (fun dev n i hp hr => ?_) fun reading dev n i hp hl hr => ?_
  · obtain ⟨u, hu⟩ := role_of_read hr
    obtain ⟨users, hA⟩ := G.accounts
    have htr : transfers (b.pc (actor a)) = some i := by
      rw [hpc, show s.pc (actor a) = _ from hp]
      rfl
    have hl := (congrFun G.shows.sleepLock i).symm.trans (hA.locked.transfers _ i htr)
    exact G.not_called hcall hl u hu
  · obtain ⟨u, hu⟩ := role_of_read hr
    exact G.victim hcard hcall hp hl u hu

theorem shows_cache (h : Shows s b) {a : BufferCache.Act P} {c b' : BufferCache.State P}
    (hcall : s.call (actor a) = none) (hstep : Step s.buffers a c) (hstep' : Step b a b')
    (hF : Follows s.Read c b' (actor a)) (hdisk : b'.disk = b.disk) :
    Shows (s.afterCache c) b' := by
  refine ⟨hF.cache, hF.cacheLock, hF.sleepLock, fun n hn => ?_, fun q hq => ?_, fun q i hq => ?_⟩
  · rw [hdisk]
    exact h.disk n hn
  · by_cases hqa : q = actor a
    · exact hqa ▸ hF.pc
    · rw [step_other_pc hstep' hqa, h.waits q hq]
      exact (step_other_pc hstep hqa).symm
  · have hqa : q ≠ actor a := fun he => by cases hcall.symm.trans (he ▸ hq)
    rw [step_other_pc hstep' hqa]
    exact h.passed q i hq

theorem Good.cache [Fintype P] (hcard : Fintype.card P < 2 ^ 32) (G : Good s b)
    {a : BufferCache.Act P} {c : BufferCache.State P} (hidle : s.driver.pc (.inl (actor a)) = .idle)
    (hquiet : isTransfer s.pc a = false) (hown : OwnRelease s.buffers a)
    (hnew : ∀ p reading dev n, a = .bget p reading dev n → n.toNat < 2 ^ 31)
    (h : BufferCache.step s.buffers a = some c) :
    ∃ b', BufferCache.step b a = some b' ∧ Good (s.afterCache c) b' := by
  have hcall := call_of_idle hidle
  have hstep := step_cases h
  obtain ⟨users, hA⟩ := G.accounts
  obtain ⟨b', hb', hF, hdisk⟩ := G.follows hcard hcall hquiet hstep
  have hown' : OwnRelease b a := fun p i ha =>
    (congrFun G.shows.sleepLock i).trans (hown p i ha)
  refine ⟨b', hb', shows_cache G.shows hcall hstep (step_cases hb') hF hdisk, ?_,
    ⟨usersAfter b users a, ?_⟩, ?_, fun q x done hq => ?_, G.handlers⟩
  · have hblock : ∀ u i, (role (s.driver.pc u)).buffer = some i →
        (c.cache.buffers i).blockNo = (s.cache.buffers i).blockNo := by
      intro u i hu
      obtain hi | ⟨reading, dev, n, hp, hl, -⟩ := step_blockNo hstep i
      · exact hi
      · exact absurd hu (G.victim hcard hcall hp hl u)
    exact G.disk.change (fun i => (c.cache.buffers i).data) hblock
  · refine step_accounts (t := ⟨b, users⟩) hA hown' ?_
    rw [trackStep, hb']
    rfl
  · have hsmall := G.small.step hstep hnew
    exact ⟨hsmall.buffers, hsmall.wanted⟩
  · have hqa : q ≠ actor a := fun he => by cases hcall.symm.trans (he ▸ hq)
    have hC := G.calls q x done hq
    have hq' : c.pc q = s.pc q := step_other_pc hstep hqa
    exact ⟨step_other_sleepLock hown hstep hqa hC.holds, fun hw => hq'.trans (hC.writes hw),
      fun hr => (hC.reads hr).imp fun dev hn => hn.imp fun n hn => hq'.trans hn⟩

end Cache

end Raynix.StorageCache
