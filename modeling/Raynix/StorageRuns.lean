import Raynix.StorageCache

namespace Raynix.StorageRuns

open Raynix.Lib Raynix.Lib.Transition Raynix.BufferCache Raynix.BufferUnique Raynix.BufferCounts
open Raynix.StorageStack Raynix.StorageCache
open Raynix.VirtioRequests (Role role)
open Raynix.DiskTransfers (sector)
open Raynix.AtomicDisk (Call number progress view)

variable {V : Virtio.Params} {P H : Type}

section Transfers

variable [DecidableEq P] {s : State V P H} {b b' : BufferCache.State P}
  {d : DiskTransfers.State V (Fin 30) (P ⊕ H) Block} {p : P}

omit [DecidableEq P] in
theorem disk_eq {s' : State V P H} (hdriver : s'.driver = d.driver)
    (hblock : ∀ i, (s'.cache.buffers i).blockNo = d.driver.disk.blockno i)
    (hdata : ∀ i, (s'.cache.buffers i).data = d.data i) (hblocks : s'.blocks = d.blocks)
    (hasked : s'.asked = d.asked) (hmoved : s'.moved = d.moved) : s'.disk = d := by
  rw [StorageStack.State.disk, funext hblock, funext hdata, hdriver, hblocks, hasked, hmoved]

omit [DecidableEq P] in
theorem afterTransfer_disk
    (h : (view d).object.blockno = (view s.disk).object.blockno) : (s.afterTransfer d).disk = d :=
  disk_eq rfl (fun i => (congrFun h i).symm) (fun _ => rfl) rfl rfl rfl

omit [DecidableEq P] in
theorem afterTransfer_cache (h : (view d).object.data = (view s.disk).object.data) :
    (s.afterTransfer d).cache = s.cache := by
  have hdata : d.data = fun i => (s.cache.buffers i).data := h
  rw [State.afterTransfer, hdata]

omit [DecidableEq P] in
theorem afterTransfer_fill {i : Fin 30} {data : Block} (h : (view d).object.data =
      Function.update (view s.disk).object.data i data) :
    (s.afterTransfer d).cache = s.cache.setBuf i { s.cache.buffers i with data := data } := by
  have hdata : d.data = Function.update (fun j => (s.cache.buffers j).data) i data := h
  rw [State.afterTransfer, hdata]
  refine congrArg (fun buffers => { s.cache with buffers := buffers }) (funext fun j => ?_)
  by_cases hij : j = i
  · subst hij
    simp
  · simp [hij]

theorem transfer_good (G : Good s b) (hI : AtomicDisk.Inv d)
    (hblock : (view d).object.blockno = (view s.disk).object.blockno)
    (hshows : Shows (s.afterTransfer d) b') (hA : ∃ users, Accounts ⟨b', users⟩)
    (hcalls : ∀ p c done, (view d).calls (.inl p) = some (c, done) → Calling s p c)
    (hhandlers : ∀ x, (view d).calls (.inr x) = none) : Good (s.afterTransfer d) b' := by
  have hdisk := afterTransfer_disk hblock
  refine ⟨hshows, hdisk ▸ hI, hA, ⟨G.small.buffers, G.small.wanted⟩, fun p c done hp => ?_,
    fun x => ?_⟩
  · have hC := hcalls p c done hp
    exact ⟨hC.holds, hC.writes, hC.reads⟩
  · rw [hdisk]
    exact hhandlers x

omit [DecidableEq P] in
theorem shows_kept (h : Shows s b) (hdata : (view d).object.data = (view s.disk).object.data)
    (hread : ∀ p i, (view d).calls (.inl p) = some (⟨i, false⟩, true) ↔
      s.call p = some (⟨i, false⟩, true)) {disk : BitVec 32 → Block}
    (hdisk : ∀ n : BitVec 32, n.toNat < 2 ^ 31 → disk n = (view d).object.blocks (sector n))
    (dirty : Fin 30 → Bool) (written : List Written) : Shows (s.afterTransfer d)
      { b with disk := disk, dirty := dirty, written := written } := by
  have hR : (s.afterTransfer d).Read = s.Read :=
    funext fun i => propext (exists_congr fun p => hread p i)
  refine ⟨?_, h.cacheLock, h.sleepLock, hdisk, fun p hp => ?_, fun p i hp => ?_⟩
  · rw [hR, afterTransfer_cache hdata]
    exact h.cache
  · exact h.waits p fun i hi => hp i ((hread p i).mpr hi)
  · exact h.passed p i ((hread p i).mp hp)

omit [DecidableEq P] in
theorem shows_quiet (h : Shows s b) (hobject : (view d).object = (view s.disk).object)
    (hread : ∀ p i, (view d).calls (.inl p) = some (⟨i, false⟩, true) ↔
      s.call p = some (⟨i, false⟩, true)) : Shows (s.afterTransfer d) b :=
  shows_kept h (congrArg (·.data) hobject) hread
    (fun n hn => (h.disk n hn).trans (congrFun (congrArg (·.blocks) hobject) (sector n)).symm)
    b.dirty b.written

/-- A step of the driver or the device as the disk that it provides sees it. -/
theorem driver_step [DecidableEq H] (hI : AtomicDisk.Inv s.disk)
    {a : Virtio.Act (Fin 30) (P ⊕ H)} (hd : VirtioCompletion.Distinct s.driver a)
    (h : DiskTransfers.step s.disk (.driver a) = some d) : AtomicDisk.Inv d ∧
    run (AtomicObject.step AtomicDisk.disk) (view s.disk) (AtomicDisk.seen s.disk (.driver a)) =
      some (view d) := by
  simp only [DiskTransfers.step, Option.ite_none_right_eq_some] at h
  obtain ⟨hready, h⟩ := h
  obtain ⟨dd, hdd, rfl⟩ := Option.map_eq_some_iff.mp h
  exact ⟨AtomicDisk.driver_inv hI hd hready hdd,
    AtomicDisk.driver_simulates hI (VirtioStep.step_move hdd).2⟩

section Calls

variable [DecidableEq H] {x : Option (Call (Fin 30) × Bool)}

omit [DecidableEq P] [DecidableEq H] in
theorem calls_cases [DecidableEq (P ⊕ H)]
    (h : (view d).calls = Function.update (view s.disk).calls (.inl p) x) (q : P) :
    q = p ∧ (view d).calls (.inl q) = x ∨ q ≠ p ∧ (view d).calls (.inl q) = s.call q := by
  rw [h]
  by_cases hq : q = p
  · exact .inl ⟨hq, by rw [hq, Function.update_self]⟩
  · exact .inr ⟨hq, Function.update_of_ne (fun he => hq (Sum.inl.inj he)) ..⟩

theorem change_good (G : Good s b) (hI : AtomicDisk.Inv d)
    (hblock : (view d).object.blockno = (view s.disk).object.blockno)
    (h : (view d).calls = Function.update (view s.disk).calls (.inl p) x)
    (hx : ∀ c done, x = some (c, done) → Calling s p c) (hshows : Shows (s.afterTransfer d) b')
    (hA : ∃ users, Accounts ⟨b', users⟩) : Good (s.afterTransfer d) b' := by
  refine transfer_good G hI hblock hshows hA (fun q c done hq => ?_) fun y => ?_
  · obtain ⟨rfl, hc⟩ | ⟨-, hc⟩ := calls_cases h q
    · exact hx c done (hc.symm.trans hq)
    · exact G.calls q c done (hc.symm.trans hq)
  · rw [h, Function.update_of_ne Sum.inr_ne_inl]
    exact G.handlers y

theorem idle_of_rw {i : Fin 30} {write : Bool}
    (h : DiskTransfers.step s.disk (.driver (.rw (.inl p) i write)) = some d) :
    s.driver.pc (.inl p) = .idle := by
  simp only [DiskTransfers.step, Option.ite_none_right_eq_some] at h
  obtain ⟨dd, hdd, -⟩ := Option.map_eq_some_iff.mp h.2
  cases (VirtioStep.step_move hdd).2
  assumption

theorem call_good (G : Good s b) {c : Call (Fin 30)} (hc : Calling s p c)
    (h : DiskTransfers.step s.disk (.driver (.rw (.inl p) c.buffer c.write)) = some d) :
    Good (s.afterTransfer d) b := by
  have hcall := call_of_idle (idle_of_rw h)
  obtain ⟨hI, hview⟩ := driver_step G.disk (a := .rw (.inl p) c.buffer c.write)
    (fun u => G.not_called hcall hc.holds u) h
  obtain ⟨-, hv⟩ := AtomicObject.of_step_call ((run_singleton ..).symm.trans hview)
  have hcalls : (view d).calls =
      Function.update (view s.disk).calls (.inl p) (some (c, false)) := by rw [hv]
  refine change_good G hI (by rw [hv]) hcalls (fun c' done hx => ?_)
    (shows_quiet G.shows (by rw [hv]) fun q i => ?_) G.accounts
  · cases hx
    exact hc
  · obtain ⟨rfl, hq⟩ | ⟨-, hq⟩ := calls_cases hcalls q
    · rw [hq, hcall]
      simp
    · rw [hq]

theorem quiet_good (G : Good s b) {a : Virtio.Act (Fin 30) (P ⊕ H)}
    (h : DiskTransfers.step s.disk (.driver a) = some d)
    (hd : VirtioCompletion.Distinct s.driver a)
    (hseen : AtomicDisk.seen s.disk (.driver a) = []) : Good (s.afterTransfer d) b := by
  obtain ⟨hI, hview⟩ := driver_step G.disk hd h
  rw [hseen, run_nil, Option.some.injEq] at hview
  refine transfer_good G hI (by rw [hview])
    (shows_quiet G.shows (by rw [hview]) fun q i => ?_) G.accounts (fun q c done hq => ?_)
    fun y => ?_
  · rw [← hview]
    rfl
  · rw [← hview] at hq
    exact G.calls q c done hq
  · rw [← hview]
    exact G.handlers y

theorem driver_ret (hI : AtomicDisk.Inv s.disk) {i : Fin 30} {r : Nat}
    (hpc : s.driver.pc (.inl p) = .rwRelease i r)
    (h : DiskTransfers.step s.disk (.driver (.run (.inl p))) = some d) :
    AtomicDisk.Inv d ∧ (∃ c, s.call p = some (c, true)) ∧
      (view d).object = (view s.disk).object ∧
      (view d).calls = Function.update (view s.disk).calls (.inl p) none := by
  obtain ⟨hI', hview⟩ := driver_step hI (a := .run (.inl p)) trivial h
  have hseen : AtomicDisk.seen s.disk (.driver (.run (.inl p))) = [.ret (.inl p)] := by
    have hpc' : s.disk.driver.pc (.inl p) = .rwRelease i r := hpc
    simp only [AtomicDisk.seen, hpc']
  rw [hseen, run_singleton] at hview
  obtain ⟨c, hc, hv⟩ := AtomicObject.of_step_ret hview
  exact ⟨hI', ⟨c, hc⟩, by rw [hv], by rw [hv]⟩

theorem wrote_good (G : Good s b) {i : Fin 30} {r : Nat} {c : Call (Fin 30)}
    (hpc : s.driver.pc (.inl p) = .rwRelease i r) (hc : s.call p = some (c, true))
    (hw : c.write = true)
    (h : DiskTransfers.step s.disk (.driver (.run (.inl p))) = some d) :
    Good (s.afterTransfer d) b := by
  obtain ⟨hI, -, hobject, hcalls⟩ := driver_ret G.disk hpc h
  refine change_good G hI (by rw [hobject]) hcalls nofun
    (shows_quiet G.shows hobject fun q i => ?_) G.accounts
  obtain ⟨rfl, hq⟩ | ⟨-, hq⟩ := calls_cases hcalls q
  · refine iff_of_false (by simp [hq]) fun hr => ?_
    cases Option.some.inj (hc.symm.trans hr)
    cases hw
  · rw [hq]

omit [DecidableEq H] in
theorem validate_field {α : Type} (f : Buf → α) (hf : ∀ x : Buf, f { x with valid := true } = f x)
    (t : State V P H) (p : P) (i j : Fin 30) :
    f ((t.validate p i).cache.buffers j) = f (t.cache.buffers j) :=
  setBuf_field f t.cache (hf _) j

omit [DecidableEq H] in
theorem validate_disk (hobject : (view d).object = (view s.disk).object) (i : Fin 30) :
    ((s.afterTransfer d).validate p i).disk = d := by
  have hblock := congrArg (·.blockno) hobject
  refine disk_eq rfl (fun j => ?_) (fun j => ?_) rfl rfl rfl
  · exact (validate_field Buf.blockNo (fun _ => rfl) _ p i j).trans (congrFun hblock j).symm
  · exact validate_field Buf.data (fun _ => rfl) (s.afterTransfer d) p i j

theorem validate_shows (h : Shows s b) {i : Fin 30} (hc : s.call p = some (⟨i, false⟩, true))
    (hobject : (view d).object = (view s.disk).object)
    (hcalls : (view d).calls = Function.update (view s.disk).calls (.inl p) none) :
    Shows ((s.afterTransfer d).validate p i) b := by
  have hcache : (s.afterTransfer d).cache = s.cache :=
    afterTransfer_cache (congrArg (·.data) hobject)
  have hread : ∀ q j, (view d).calls (.inl q) = some (⟨j, false⟩, true) ↔
      q ≠ p ∧ s.call q = some (⟨j, false⟩, true) := by
    intro q j
    obtain ⟨rfl, hq⟩ | ⟨hqp, hq⟩ := calls_cases hcalls q
    · simp [hq]
    · simp [hq, hqp]
  refine ⟨?_, h.cacheLock, h.sleepLock, fun n hn => ?_, fun q hq => ?_,
    fun q j hq => h.passed q j ((hread q j).mp hq).2⟩
  · have hvalid : SameBuffers ((s.afterTransfer d).validate p i).Read
        (s.cache.setBuf i { s.cache.buffers i with valid := true }) b.cache := by
      refine h.cache.validate ⟨p, hc⟩ (fun j ⟨q, hq⟩ => ⟨q, ((hread q j).mp hq).2⟩)
        fun j ⟨q, hq⟩ => ?_
      by_cases hqp : q = p
      · subst hqp
        cases hc.symm.trans hq
        exact .inl rfl
      · exact .inr ⟨q, (hread q j).mpr ⟨hqp, hq⟩⟩
    rwa [← hcache] at hvalid
  · exact (h.disk n hn).trans (congrFun (congrArg (·.blocks) hobject) (sector n)).symm
  · by_cases hqp : q = p
    · have hself : ((s.afterTransfer d).validate p i).pc p = .idle := Function.update_self ..
      rw [hqp, hself]
      exact h.passed p i hc
    · refine (h.waits q fun j hr => hq j ((hread q j).mpr ⟨hqp, hr⟩)).trans ?_
      exact (Function.update_of_ne hqp ..).symm

theorem hasRead_good (G : Good s b) {i j : Fin 30} {r : Nat}
    (hpc : s.driver.pc (.inl p) = .rwRelease j r) (hc : s.call p = some (⟨i, false⟩, true))
    (h : DiskTransfers.step s.disk (.driver (.run (.inl p))) = some d) :
    Good ((s.afterTransfer d).validate p i) b := by
  obtain ⟨hI, -, hobject, hcalls⟩ := driver_ret G.disk hpc h
  have hdisk := validate_disk (p := p) hobject i
  have hother : ∀ q, q ≠ p → ((s.afterTransfer d).validate p i).pc q = s.pc q :=
    fun q hqp => Function.update_of_ne hqp ..
  refine ⟨validate_shows G.shows hc hobject hcalls, by rwa [hdisk], G.accounts,
    ⟨fun j => ?_, fun q n hn => ?_⟩, fun q c done hq => ?_, fun y => ?_⟩
  · change (((s.afterTransfer d).validate p i).cache.buffers j).blockNo.toNat < _
    rw [validate_field Buf.blockNo (fun _ => rfl)]
    exact G.small.buffers j
  · change wanted (((s.afterTransfer d).validate p i).pc q) = _ at hn
    by_cases hqp : q = p
    · have hself : ((s.afterTransfer d).validate p i).pc p = .idle := Function.update_self ..
      rw [hqp, hself] at hn
      cases hn
    · rw [hother q hqp] at hn
      exact G.small.wanted q n hn
  · obtain ⟨rfl, hq'⟩ | ⟨hqp, hq'⟩ := calls_cases hcalls q
    · cases hq'.symm.trans hq
    · have hC := G.calls q c done (hq'.symm.trans hq)
      refine ⟨hC.holds, fun hw => (hother q hqp).trans (hC.writes hw), fun hr => ?_⟩
      obtain ⟨dev, n, hpc'⟩ := hC.reads hr
      exact ⟨dev, n, (hother q hqp).trans hpc'⟩
  · rw [hdisk, hcalls, Function.update_of_ne Sum.inr_ne_inl]
    exact G.handlers y

theorem sector_inj {m n : BitVec 32} (hm : m.toNat < 2 ^ 31) (hn : n.toNat < 2 ^ 31)
    (h : sector m = sector n) : m = n := by
  have htwo : (2 : BitVec 32).toNat = 2 := rfl
  simp only [sector, BitVec.toNat_eq, BitVec.toNat_setWidth, BitVec.toNat_mul, htwo] at h
  exact BitVec.eq_of_toNat_eq (by omega)

theorem moveOut_good (G : Good s b) {i : Fin 30} (hI : AtomicDisk.Inv d)
    (hc : s.call p = some (⟨i, true⟩, false))
    (hv : view d = ⟨AtomicDisk.disk.act ⟨i, true⟩ (view s.disk).object,
      Function.update (view s.disk).calls (.inl p) (some (⟨i, true⟩, true))⟩) :
    ∃ b', BufferCache.step b (.bwrite p i) = some b' ∧ Good (s.afterTransfer d) b' := by
  have hC := G.calls p _ _ hc
  have hidle : b.pc p = .idle :=
    (G.shows.waits p fun j hj => by cases hc.symm.trans hj).trans (hC.writes rfl)
  have hlock : b.sleepLock i = some p := (congrFun G.shows.sleepLock i).trans hC.holds
  have hagree := G.shows.cache.agree i
  obtain ⟨users, hA⟩ := G.accounts
  refine ⟨_, if_pos ⟨hidle, hlock⟩, ?_⟩
  have hcalls : (view d).calls = _ := congrArg (·.calls) hv
  refine change_good G hI (by rw [hv]; rfl) hcalls (fun c done hx => ?_)
    (shows_kept G.shows (by rw [hv]; rfl) (fun q j => ?_) (fun n hn => ?_) _ _) ⟨users, ?_⟩
  · cases hx
    exact hC
  · obtain ⟨rfl, hq⟩ | ⟨-, hq⟩ := calls_cases hcalls q
    · simp [hq, hc]
    · rw [hq]
  · rw [hv, hagree.blockNo, hagree.data]
    change _ = Function.update s.blocks (sector (s.cache.buffers i).blockNo)
      (s.cache.buffers i).data (sector n)
    by_cases hn' : n = (s.cache.buffers i).blockNo
    · rw [hn', Function.update_self, Function.update_self]
    · have hne := fun h => hn' (sector_inj hn (G.small.buffers i) h)
      rw [Function.update_of_ne hn', Function.update_of_ne hne]
      exact G.shows.disk n hn
  · refine step_accounts (t := ⟨b, users⟩) (a := .bwrite p i) hA (fun _ _ h => by cases h) ?_
    rw [trackStep, BufferCache.step, if_pos ⟨hidle, hlock⟩]
    rfl

theorem moveIn_good (G : Good s b) {i : Fin 30} (hI : AtomicDisk.Inv d)
    (hc : s.call p = some (⟨i, false⟩, false))
    (hv : view d = ⟨AtomicDisk.disk.act ⟨i, false⟩ (view s.disk).object,
      Function.update (view s.disk).calls (.inl p) (some (⟨i, false⟩, true))⟩) :
    ∃ b', BufferCache.step b (.run p) = some b' ∧ Good (s.afterTransfer d) b' := by
  have hC := G.calls p _ _ hc
  obtain ⟨dev, n, hpc⟩ := hC.reads rfl
  have hb : b.pc p = .fill dev n i :=
    (G.shows.waits p fun j hj => by cases hc.symm.trans hj).trans hpc
  have hagree := G.shows.cache.agree i
  obtain ⟨users, hA⟩ := G.accounts
  have hstep : BufferCache.step b (.run p) = some { b.goto p .idle with
      cache := b.cache.setBuf i { b.cache.buffers i with
        data := b.disk (b.cache.buffers i).blockNo, valid := true } } := by
    simp only [BufferCache.step, hb, runStep]
  have hcalls : (view d).calls = _ := congrArg (·.calls) hv
  have hread : ∀ q j, (view d).calls (.inl q) = some (⟨j, false⟩, true) ↔
      (q = p ∧ j = i) ∨ s.call q = some (⟨j, false⟩, true) := by
    intro q j
    obtain ⟨rfl, hq⟩ | ⟨hqp, hq⟩ := calls_cases hcalls q
    · simp [hq, hc, eq_comm]
    · simp [hq, hqp]
  have hdata : b.disk (b.cache.buffers i).blockNo =
      s.blocks (sector (s.cache.buffers i).blockNo) := by
    rw [hagree.blockNo]
    exact G.shows.disk _ (G.small.buffers i)
  have hcache := afterTransfer_fill (congrArg (·.object.data) hv)
  refine ⟨_, hstep, change_good G hI (by rw [hv]; rfl) hcalls (fun c done hx => ?_)
    ⟨?_, G.shows.cacheLock, G.shows.sleepLock, fun n hn => ?_, fun q hq => ?_, fun q j hq => ?_⟩
    ⟨_, step_accounts (t := ⟨b, users⟩) (a := .run p) hA (fun _ _ h => by cases h)
      (by rw [trackStep, hstep]; rfl)⟩⟩
  · cases hx
    exact hC
  · rw [hcache, hdata]
    refine G.shows.cache.fill _ fun j => ⟨fun hj => ?_, ?_⟩
    · obtain ⟨q, hq⟩ := hj
      exact ((hread q j).mp hq).imp And.right fun h => ⟨q, h⟩
    · rintro (rfl | ⟨q, hq⟩)
      · exact ⟨p, (hread p j).mpr (.inl ⟨rfl, rfl⟩)⟩
      · exact ⟨q, (hread q j).mpr (.inr hq)⟩
  · exact (G.shows.disk n hn).trans (congrFun (congrArg (·.object.blocks) hv) (sector n)).symm
  · have hqp : q ≠ p := fun h => hq i ((hread q i).mpr (.inl ⟨h, rfl⟩))
    refine (Function.update_of_ne hqp ..).trans (G.shows.waits q fun j hj => ?_)
    exact hq j ((hread q j).mpr (.inr hj))
  · obtain ⟨rfl, -⟩ | hq := (hread q j).mp hq
    · exact Function.update_self ..
    · by_cases hqp : q = p
      · subst hqp
        exact Function.update_self ..
      · exact (Function.update_of_ne hqp ..).trans (G.shows.passed q j hq)

end Calls

end Transfers

section Runs

variable [DecidableEq P] [DecidableEq H] {s s' : State V P H} {b : BufferCache.State P} {p : P}

omit [DecidableEq P] [DecidableEq H] in
theorem seen_of_not_release {x : P ⊕ H} (h : ∀ i r, s.driver.pc x ≠ .rwRelease i r) :
    AtomicDisk.seen s.disk (.driver (.run x)) = [] := by
  simp only [AtomicDisk.seen]
  split
  case h_1 i r hpc => exact absurd hpc (h i r)
  case h_2 => rfl

omit [DecidableEq H] in
theorem handler_ne (G : Good s b) (x : H) (i : Fin 30) (r : Nat) :
    s.driver.pc (.inr x) ≠ .rwRelease i r := by
  intro hpc
  have hx : progress (s.asked (.inr x)) s.moved (role (s.driver.pc (.inr x))) = none := G.handlers x
  rw [hpc] at hx
  cases hx

theorem finish_good (G : Good s b) {i : Fin 30} {r : Nat}
    {d : DiskTransfers.State V (Fin 30) (P ⊕ H) Block}
    (hpc : s.driver.pc (.inl p) = .rwRelease i r)
    (h : DiskTransfers.step s.disk (.driver (.run (.inl p))) = some d) :
    Good ((s.afterTransfer d).finish p) b := by
  obtain ⟨-, ⟨⟨j, write⟩, hc⟩, -⟩ := driver_ret G.disk hpc h
  have hC := G.calls p _ _ hc
  cases write with
  | true =>
    have hidle : (s.afterTransfer d).pc p = .idle := hC.writes rfl
    rw [State.finish, hidle]
    exact wrote_good G hpc hc rfl h
  | false =>
    obtain ⟨dev, n, hfill⟩ := hC.reads rfl
    have hfill : (s.afterTransfer d).pc p = .fill dev n j := hfill
    rw [State.finish, hfill]
    exact hasRead_good G hpc hc h

theorem driver_good (G : Good s b) {a : Virtio.Act (Fin 30) (P ⊕ H)}
    (h : step s (.driver a) = some s') : Good s' b := by
  cases a with
  | rw => cases h
  | run x =>
    cases x with
    | inl p =>
      obtain ⟨d, hd, rfl⟩ := Option.map_eq_some_iff.mp h
      split
      case h_1 i r hpc => exact finish_good G hpc hd
      case h_2 hpc => exact quiet_good G hd trivial (seen_of_not_release hpc)
    | inr x =>
      obtain ⟨d, hd, rfl⟩ := Option.map_eq_some_iff.mp h
      exact quiet_good G hd trivial (seen_of_not_release (handler_ne G x))
  | intr | lock | consume | post =>
    obtain ⟨d, hd, rfl⟩ := Option.map_eq_some_iff.mp h
    exact quiet_good G hd trivial rfl

theorem move_good (G : Good s b) (hw : V.descFWrite ≠ 0) {k : Nat}
    (h : StorageStack.step s (.move p k) = some s') :
    ∃ b', run BufferCache.step b (seen s (.move p k)) = some b' ∧ Good s' b' := by
  simp only [StorageStack.step] at h
  split at h
  case h_2 => cases h
  case h_1 q hq =>
    simp only [Option.ite_none_right_eq_some] at h
    obtain ⟨hnum, h⟩ := h
    obtain ⟨d, hd, rfl⟩ := Option.map_eq_some_iff.mp h
    obtain ⟨⟨t, hsole, hact⟩, hI⟩ := AtomicDisk.move_simulates G.disk hw hq hd
    obtain rfl := hsole (.inl p) hnum
    obtain ⟨⟨i, write⟩, hc, hv⟩ := AtomicObject.of_step_act hact
    have hc : s.call p = some (⟨i, write⟩, false) := hc
    have hC := G.calls p _ _ hc
    have hbuffer : (role (s.driver.pc (.inl p))).buffer = some i := by
      rw [← progress_buffer (s.asked (.inl p)) s.moved]
      exact congrArg (Option.map _) hc
    cases write with
    | true =>
      have hseen : seen s (.move p k) = [.bwrite p i] := by
        simp only [seen, hC.writes rfl, hbuffer]
      rw [hseen, run_singleton]
      exact moveOut_good G hI hc hv
    | false =>
      obtain ⟨dev, n, hfill⟩ := hC.reads rfl
      have hseen : seen s (.move p k) = [.run p] := by
        simp only [seen, hfill]
      rw [hseen, run_singleton]
      exact moveIn_good G hI hc hv

theorem step_good [Fintype P] (hcard : Fintype.card P < 2 ^ 32) (hw : V.descFWrite ≠ 0)
    (G : Good s b) {a : Act P H} (hproper : Proper s a) (h : StorageStack.step s a = some s') :
    ∃ b', run BufferCache.step b (seen s a) = some b' ∧ Good s' b' := by
  cases a with
  | cache a =>
    simp only [StorageStack.step, Option.ite_none_right_eq_some] at h
    obtain ⟨⟨hidle, hquiet⟩, h⟩ := h
    obtain ⟨c, hc, rfl⟩ := Option.map_eq_some_iff.mp h
    rw [seen, run_singleton]
    exact G.cache hcard hidle hquiet (fun p i ha => hproper.own p i (congrArg _ ha))
      (fun p reading dev n ha => hproper.small p reading dev n (congrArg _ ha)) hc
  | bread p =>
    simp only [StorageStack.step] at h
    split at h
    case h_2 => cases h
    case h_1 dev n i hpc =>
      obtain ⟨d, hd, rfl⟩ := Option.map_eq_some_iff.mp h
      obtain ⟨users, hA⟩ := G.accounts
      have htr : transfers (b.pc p) = some i := by
        rw [G.pc (call_of_idle (idle_of_rw hd)), hpc]
        rfl
      have hl := (congrFun G.shows.sleepLock i).symm.trans (hA.locked.transfers p i htr)
      have hC : Calling s p ⟨i, false⟩ := ⟨hl, nofun, fun _ => ⟨dev, n, hpc⟩⟩
      exact ⟨b, rfl, call_good G hC hd⟩
  | bwrite p i =>
    simp only [StorageStack.step, Option.ite_none_right_eq_some] at h
    obtain ⟨⟨hpc, hl⟩, h⟩ := h
    obtain ⟨d, hd, rfl⟩ := Option.map_eq_some_iff.mp h
    have hC : Calling s p ⟨i, true⟩ := ⟨hl, fun _ => hpc, nofun⟩
    exact ⟨b, rfl, call_good G hC hd⟩
  | driver a => exact ⟨b, rfl, driver_good G h⟩
  | move p k => exact move_good G hw h

omit [DecidableEq P] [DecidableEq H] in
theorem boot_booted (blocks : BitVec 64 → Block) : Booted (boot V P H blocks).buffers :=
  ⟨⟨_, rfl⟩, fun _ => ⟨rfl, rfl⟩, rfl, fun _ => rfl, fun _ => rfl, fun _ => rfl, rfl⟩

omit [DecidableEq H] in
theorem boot_good (blocks : BitVec 64 → Block) :
    Good (boot V P H blocks) (boot V P H blocks).buffers where
  shows :=
    { cache := ⟨rfl, fun _ => ⟨rfl, rfl, rfl, rfl⟩, fun _ _ => rfl, fun _ ⟨_, h⟩ => by cases h⟩
      cacheLock := rfl
      sleepLock := rfl
      disk := fun _ _ => rfl
      waits := fun _ _ => rfl
      passed := nofun }
  disk := AtomicDisk.start_inv _ blocks _
  accounts := ⟨_, booted_accounts (boot_booted blocks)⟩
  small := ⟨fun _ => Nat.two_pow_pos 31, nofun⟩
  calls := nofun
  handlers _ := rfl

theorem run_good [Fintype P] (hcard : Fintype.card P < 2 ^ 32) (hw : V.descFWrite ≠ 0)
    (blocks : BitVec 64 → Block) {as : List (Act P H)}
    (hproper : Meets StorageStack.step Proper (boot V P H blocks) as)
    (h : run StorageStack.step (boot V P H blocks) as = some s) :
    ∃ b, run BufferCache.step (boot V P H blocks).buffers
      (observed StorageStack.step seen (boot V P H blocks) as) = some b ∧ Good s b := by
  obtain ⟨bs, b, hbs, hseen, G⟩ : ∃ bs b,
      run BufferCache.step (boot V P H blocks).buffers bs = some b ∧
      bs.filter (fun _ => true) = observed StorageStack.step seen (boot V P H blocks) as ∧
      Good s b :=
    run_simulates (fun s b a t G hok hstep => by
      obtain ⟨b', hb', G'⟩ := step_good hcard hw G hok hstep
      exact ⟨_, b', hb', List.filter_true _, G'⟩) (boot_good blocks) hproper h
  rw [List.filter_true] at hseen
  exact ⟨b, hseen ▸ hbs, G⟩

/-- Whatever data the device can move is that of a process, so that `Act.move` leaves out none. -/
theorem move_isSome_of_good {b : BufferCache.State P} (G : Good s b) {k : Nat}
    (hmove : (DiskTransfers.step s.disk (.move k)).isSome) :
    ∃ p, (StorageStack.step s (.move p k)).isSome := by
  obtain ⟨d, hd⟩ := Option.isSome_iff_exists.mp hmove
  obtain ⟨q, hq, -⟩ := AtomicDisk.move_taken hd
  obtain ⟨A, K, U, e, F, he, rfl, hrole, -⟩ := G.disk.taken hq
  have hnum : number (role (s.driver.pc e.t)) = some e.taken.r := congrArg number hrole
  cases ht : e.t with
  | inl p =>
    have hq : s.driver.taken[k]? = some e.taken := hq
    refine ⟨p, ?_⟩
    rw [ht] at hnum
    simp only [StorageStack.step, hq, hnum, if_true, hd, Option.map_some, Option.isSome_some]
  | inr x =>
    have hx := G.handlers x
    change progress _ _ (role (s.driver.pc (.inr x))) = none at hx
    rw [← ht, show role (s.driver.pc e.t) = _ from hrole] at hx
    cases hx

/-- Over the driver, the device and its interrupts the buffer cache does what it does over exact
transfers of whole blocks, each made when the device moves the data; and all that the device can
move is a transfer of such a run. -/
theorem stack_refines [Fintype P] (hcard : Fintype.card P < 2 ^ 32) (hw : V.descFWrite ≠ 0)
    (blocks : BitVec 64 → Block) {as : List (Act P H)}
    (hproper : Meets StorageStack.step Proper (boot V P H blocks) as)
    (h : run StorageStack.step (boot V P H blocks) as = some s) :
    (∃ b, run BufferCache.step (boot V P H blocks).buffers
      (observed StorageStack.step seen (boot V P H blocks) as) = some b ∧ Shows s b) ∧
    ∀ k, (DiskTransfers.step s.disk (.move k)).isSome →
      ∃ p, (StorageStack.step s (.move p k)).isSome := by
  obtain ⟨b, hb, G⟩ := run_good hcard hw blocks hproper h
  exact ⟨⟨b, hb, G.shows⟩, fun k => move_isSome_of_good G⟩

end Runs

instance decidableProper [DecidableEq P] (s : State V P H) : ∀ a, Decidable (Proper s a)
  | .cache (.brelease p i) => decidable_of_iff (s.sleepLock i = some p)
      ⟨fun h => ⟨fun q j ha => by cases ha; exact h, nofun⟩, fun h => h.own p i rfl⟩
  | .cache (.bget p reading dev n) => decidable_of_iff (n.toNat < 2 ^ 31)
      ⟨fun h => ⟨nofun, fun q r d m ha => by cases ha; exact h⟩,
        fun h => h.small p reading dev n rfl⟩
  | .cache (.lock _) | .cache (.run _) | .cache (.modify ..) | .cache (.bwrite ..)
  | .bread _ | .bwrite .. | .driver _ | .move .. => .isTrue ⟨nofun, nofun⟩

/-- The steps of the driver, the device and the interrupt in a call of the one process. -/
def transfer : List (Act Unit Unit) :=
  let request : List (Virtio.Act (Fin 30) (Unit ⊕ Unit)) :=
    .lock (.inl ()) :: List.replicate 5 (.run (.inl ())) ++ [.consume]
  let interrupt : List (Virtio.Act (Fin 30) (Unit ⊕ Unit)) :=
    [.post 0 0, .intr (.inr ()), .lock (.inr ())] ++ List.replicate 3 (.run (.inr ()))
  let finish : List (Virtio.Act (Fin 30) (Unit ⊕ Unit)) :=
    .lock (.inl ()) :: List.replicate 3 (.run (.inl ()))
  request.map .driver ++ [.move () 0] ++ (interrupt ++ finish).map .driver

/-- The process reads block 0, changes the buffer, writes it back and releases it. -/
def rewrite : List (Act Unit Unit) :=
  [.cache (.bget () true 0 0), .cache (.lock ()), .cache (.run ()), .cache (.run ()),
    .cache (.run ()), .bread ()] ++ transfer ++
  [.cache (.modify () 0 fun _ => 9), .bwrite () 0] ++ transfer ++ [.cache (.brelease () 0)]

/-- A disk of fives. -/
def fives : State VirtioCompletion.eight Unit Unit :=
  boot VirtioCompletion.eight Unit Unit fun _ _ => 5

theorem rewrite_proper : Meets StorageStack.step Proper fives rewrite := by
  decide +kernel

theorem stack_refines_rewrite : ∃ s b, run StorageStack.step fives rewrite = some s ∧
    s.blocks 0 0 = 9 ∧ run BufferCache.step fives.buffers
      (observed StorageStack.step seen fives rewrite) = some b ∧ Shows s b := by
  have hrun : (run StorageStack.step fives rewrite).map (fun s => s.blocks 0 0) = some 9 := by
    decide +kernel
  obtain ⟨s, hs, hblock⟩ := Option.map_eq_some_iff.mp hrun
  obtain ⟨⟨b, hb, hshows⟩, -⟩ := stack_refines (by decide) (by decide) _ rewrite_proper hs
  exact ⟨s, b, hs, hblock, hb, hshows⟩

end Raynix.StorageRuns
