import Raynix.VirtioCompletion
import Raynix.VirtioInit

namespace Raynix.VirtioHandshake

open Raynix.Lib.Memory Raynix.Lib.DeviceProtocol Raynix.Kalloc Raynix.PageStack Raynix.VirtioInit
open Raynix.VirtioCompletion (eight)

/-- What the driver has read from each register since the start and has written to it since the last
reset. The status counts as not read after it has been written. -/
structure Handshake where
  read : Reg → Option (BitVec 32)
  written : Reg → Option (BitVec 32)

variable {c : Bits} {V : Virtio.Params}

namespace Handshake

def status (p : Handshake) : BitVec 32 :=
  (p.read .status).getD ((p.written .status).getD 0)

def Identified (p : Handshake) : Prop :=
  p.read .magicValue = some 0x74726976 ∧ p.read .version = some 2 ∧ p.read .deviceId = some 2 ∧
    p.read .vendorId = some 0x554d4551

/-- The device has confirmed the features. -/
def Confirmed (c : Bits) (p : Handshake) : Prop :=
  p.Identified ∧ (p.written .driverFeatures).isSome ∧
    ∃ v, p.read .status = some v ∧ v &&& c.featuresOk ≠ 0

/-- Queue 0 is selected and not in use. -/
def QueueIdle (c : Bits) (p : Handshake) : Prop :=
  p.Confirmed c ∧ p.written .queueSel = some 0 ∧ p.read .queueReady = some 0 ∧
    p.written .queueReady = none

/-- The rules of the virtio handshake for a write. Status bits are only added; features that were
not offered are not accepted, nor any after `FEATURES_OK`; a queue is set up when the features
stand, in full before it is made ready, and `DRIVER_OK` comes last. -/
def Allows (c : Bits) (p : Handshake) (v : BitVec 32) : Reg → Prop
  | .status =>
    p.Identified ∧ (v = 0 ∨ p.status &&& ~~~v = 0 ∧
      (v &&& ~~~p.status &&& c.featuresOk ≠ 0 →
        p.status &&& c.driver ≠ 0 ∧ (p.written .driverFeatures).isSome) ∧
      (v &&& c.driverOk ≠ 0 → p.Confirmed c ∧ p.written .queueReady = some 1))
  | .driverFeatures =>
    p.Identified ∧ p.status &&& c.driver ≠ 0 ∧ p.status &&& c.featuresOk = 0 ∧
      ∃ offered, p.read .deviceFeatures = some offered ∧ v &&& ~~~offered = 0
  | .queueSel => p.Confirmed c
  | .queueNum =>
    p.QueueIdle c ∧ v ≠ 0 ∧ ∃ max, p.read .queueNumMax = some max ∧ v ≤ max
  | .queueDescLow | .queueDescHigh | .driverDescLow | .driverDescHigh | .deviceDescLow
  | .deviceDescHigh => p.QueueIdle c
  | .queueReady =>
    p.QueueIdle c ∧ v = 1 ∧
      ∀ r ∈ [Reg.queueNum, .queueDescLow, .queueDescHigh, .driverDescLow, .driverDescHigh,
        .deviceDescLow, .deviceDescHigh], (p.written r).isSome
  | .magicValue | .version | .deviceId | .vendorId | .deviceFeatures | .queueNumMax => False

def afterRead (p : Handshake) (r : Reg) (v : BitVec 32) : Handshake :=
  { p with read := Function.update p.read r (some v) }

def afterWrite (p : Handshake) (r : Reg) (v : BitVec 32) : Handshake :=
  if r = .status then
    { read := Function.update p.read .status none
      written := if v = 0 then fun _ => none else Function.update p.written .status (some v) }
  else { p with written := Function.update p.written r (some v) }

open Classical in
/-- A handshake goes on as long as the rules allow it. -/
noncomputable def next (c : Bits) (p : Handshake) : Access Reg → Option Handshake
  | .read r v => some (p.afterRead r v)
  | .write r v => if p.Allows c v r then some (p.afterWrite r v) else none

end Handshake

/-- Since the last reset the driver has not made the queue ready, nor told the device that it is
ready itself. -/
def NotLive (c : Bits) (p : Handshake) : Prop :=
  p.written .queueReady = none ∧ ∀ v, p.written .status = some v → v &&& c.driverOk = 0

variable {s : Driver} {p : Handshake}

theorem next_write {r : Reg} {v : BitVec 32} (h : p.Allows c v r) :
    p.next c (.write r v) = some (p.afterWrite r v) :=
  if_pos h

theorem afterWrite_of_ne {r : Reg} (h : r ≠ .status) (v : BitVec 32) :
    p.afterWrite r v = { p with written := Function.update p.written r (some v) } :=
  if_neg h

/-- The state of the kernel is left as it is, and of the handshake a property holds. -/
def Keeps {α : Type} (s : Driver) (Q : α → Handshake → Prop) : α → Driver → Handshake → Prop :=
  fun a s' p => s' = s ∧ Q a p

theorem findDisk_obeys (hp : p.written = fun _ => none) :
    Obeys (Handshake.next c) (Keeps s fun _ p => p.Identified ∧ p.written = fun _ => none)
      (fun _ => NotLive c) findDisk s p := by
  have hlive : ∀ q : Handshake, (q.written = fun _ => none) → NotLive c q := by
    intro q hq
    exact ⟨by rw [hq], fun v hv => by rw [hq] at hv; cases hv⟩
  have hexpect : ∀ (r : Reg) (v : BitVec 32) (q : Handshake), (q.written = fun _ => none) →
      Obeys (Handshake.next c) (Keeps s fun _ q' => q' = q.afterRead r v)
        (fun _ => NotLive c) (expect r v) s q := by
    intro r v q hq
    refine obeys_read fun found => ⟨q.afterRead r found, rfl, ?_⟩
    refine obeys_stopIf_last (fun _ => hlive _ hq) fun hfound => ⟨rfl, ?_⟩
    rw [not_not.mp hfound]
  refine Obeys.bind (hexpect .magicValue 0x74726976 p hp) ?_
  rintro _ _ _ ⟨rfl, rfl⟩
  refine Obeys.bind (hexpect .version 2 _ (by exact hp)) ?_
  rintro _ _ _ ⟨rfl, rfl⟩
  refine Obeys.bind (hexpect .deviceId 2 _ (by exact hp)) ?_
  rintro _ _ _ ⟨rfl, rfl⟩
  refine Obeys.mono (hexpect .vendorId 0x554d4551 _ (by exact hp)) ?_
  rintro _ _ _ ⟨rfl, rfl⟩
  refine ⟨rfl, ⟨?_, ?_, ?_, ?_⟩, hp⟩ <;> simp [Handshake.afterRead]

namespace Handshake

@[simp]
theorem identified_afterWrite (p : Handshake) (r : Reg) (v : BitVec 32) :
    (p.afterWrite r v).Identified ↔ p.Identified := by
  rw [afterWrite]
  split <;> simp [Identified]

@[simp]
theorem identified_afterRead (p : Handshake) {r : Reg}
    (h : r ∈ [Reg.deviceFeatures, .status, .queueReady, .queueNumMax]) (v : BitVec 32) :
    (p.afterRead r v).Identified ↔ p.Identified := by
  simp only [List.mem_cons, List.not_mem_nil, or_false] at h
  obtain rfl | rfl | rfl | rfl := h <;> simp [afterRead, Identified]

theorem status_afterWrite (p : Handshake) (v : BitVec 32) :
    (p.afterWrite .status v).status = v := by
  by_cases hv : v = 0
  · subst hv
    simp [afterWrite, status]
  · rw [afterWrite, if_pos rfl, if_neg hv]
    simp [status]

theorem status_afterWrite_of_ne {r : Reg} (h : r ≠ .status) (v : BitVec 32) :
    (p.afterWrite r v).status = p.status := by
  simp [afterWrite_of_ne h, status, h.symm]

theorem status_afterRead_of_ne {r : Reg} (h : r ≠ .status) (v : BitVec 32) :
    (p.afterRead r v).status = p.status := by
  simp [afterRead, status, h.symm]

theorem read_afterRead (p : Handshake) (r : Reg) (v : BitVec 32) :
    (p.afterRead r v).read r = some v :=
  Function.update_self ..

theorem written_afterRead (p : Handshake) (r : Reg) (v : BitVec 32) :
    (p.afterRead r v).written = p.written :=
  rfl

theorem written_afterWrite (p : Handshake) {r : Reg} {v : BitVec 32} (h : r = .status → v ≠ 0) :
    (p.afterWrite r v).written r = some v := by
  by_cases hr : r = .status
  · subst hr
    rw [afterWrite, if_pos rfl, if_neg (h rfl)]
    simp
  · rw [afterWrite_of_ne hr]
    exact Function.update_self ..

theorem written_afterWrite_none {r r' : Reg} (h : p.written r' = none) (hr : r' ≠ r)
    (v : BitVec 32) :
    (p.afterWrite r v).written r' = none := by
  by_cases hstatus : r = .status
  · subst hstatus
    by_cases hv : v = 0
    · subst hv
      rfl
    · rw [afterWrite, if_pos rfl, if_neg hv]
      exact (Function.update_of_ne hr ..).trans h
  · rw [afterWrite_of_ne hstatus]
    exact (Function.update_of_ne hr ..).trans h

theorem written_afterWrite_status {v : BitVec 32} (hv : v ≠ 0) {r : Reg} (hr : r ≠ .status) :
    (p.afterWrite .status v).written r = p.written r := by
  rw [afterWrite, if_pos rfl, if_neg hv]
  exact Function.update_of_ne hr ..

end Handshake

theorem or_and_eq_zero {a b x : BitVec 32} : (a ||| b) &&& x = 0 ↔ a &&& x = 0 ∧ b &&& x = 0 := by
  rw [BitVec.and_or_distrib_right]
  exact BitVec.or_eq_zero_iff

theorem and_not_or (a b : BitVec 32) : a &&& ~~~(a ||| b) = 0 := by
  apply BitVec.eq_of_getLsbD_eq
  intro i hi
  cases ha : a.getLsbD i <;> simp [ha]

theorem and_and_eq_zero {a x : BitVec 32} (h : a &&& x = 0) (b : BitVec 32) :
    a &&& b &&& x = 0 := by
  rw [BitVec.and_assoc, BitVec.and_comm b, ← BitVec.and_assoc, h]
  exact BitVec.zero_and

theorem and_not_negotiated (c : Bits) (offered : BitVec 32) :
    negotiated c offered &&& ~~~offered = 0 := by
  apply BitVec.eq_of_getLsbD_eq
  intro i hi
  simp [negotiated, hi]
  tauto

/-- After the negotiation the device has confirmed the features, and no queue is in use. -/
def Negotiated (c : Bits) (v : BitVec 32) (p : Handshake) : Prop :=
  p.Confirmed c ∧ p.read .status = some v ∧ p.written .queueReady = none ∧ NotLive c p

/-- The driver has found the disk and set the status, and no queue is in use. -/
structure Started (v : BitVec 32) (p : Handshake) : Prop where
  identified : p.Identified
  status : p.status = v
  ready : p.written .queueReady = none

theorem Started.write_status {v w : BitVec 32} {α : Type} {Q : α → Driver → Handshake → Prop}
    {E : Driver → Handshake → Prop} {k : Unit → Init α} (h : Started v p) (hvw : v &&& ~~~w = 0)
    (hF : w &&& c.featuresOk = 0) (hO : w &&& c.driverOk = 0)
    (hk : ∀ q, Started w q → Obeys (Handshake.next c) Q E (k ()) s q) :
    Obeys (Handshake.next c) Q E (write .status w >>= k) s p := by
  refine obeys_write (next_write ⟨h.identified, .inr ⟨?_, ?_, ?_⟩⟩) (hk _ ⟨?_, ?_, ?_⟩)
  · rw [h.status, hvw]
  · exact fun hne => absurd (and_and_eq_zero hF _) hne
  · exact fun hne => absurd hO hne
  · exact (p.identified_afterWrite _ _).mpr h.identified
  · exact p.status_afterWrite w
  · exact Handshake.written_afterWrite_none h.ready (by decide) w

theorem driver_status (c : Bits) : (c.acknowledge ||| c.driver) &&& c.driver ≠ 0 := by
  rw [BitVec.and_or_distrib_right, BitVec.and_self]
  exact fun h => c.driver_ne (BitVec.or_eq_zero_iff.mp h).2

theorem all_status (c : Bits) : c.acknowledge ||| c.driver ||| c.featuresOk ≠ 0 :=
  fun h => c.featuresOk_ne (BitVec.or_eq_zero_iff.mp h).2

theorem confirm_obeys (h : Started (c.acknowledge ||| c.driver) p)
    (hfeatures : (p.written .driverFeatures).isSome) :
    Obeys (Handshake.next c) (Keeps s (Negotiated c)) (fun _ => NotLive c)
      (do
        write .status (c.acknowledge ||| c.driver ||| c.featuresOk)
        let status ← read .status
        stopIf (status &&& c.featuresOk = 0) "virtio disk FEATURES_OK unset"
        return status) s p := by
  have hall := all_status c
  refine obeys_write (next_write ⟨h.identified, .inr ⟨?_, ?_, ?_⟩⟩) ?_
  · rw [h.status]
    exact and_not_or _ _
  · exact fun _ => ⟨h.status ▸ driver_status c, hfeatures⟩
  · exact fun hne => absurd c.driverOk_apart hne
  refine obeys_read fun v => ⟨_, rfl, ?_⟩
  obtain ⟨q, hq⟩ : ∃ q, q = p.afterWrite .status (c.acknowledge ||| c.driver ||| c.featuresOk) :=
    ⟨_, rfl⟩
  have hid : (q.afterRead .status v).Identified := by
    rw [Handshake.identified_afterRead _ (by simp), hq, Handshake.identified_afterWrite]
    exact h.identified
  have hready : q.written .queueReady = none := by
    rw [hq]
    exact Handshake.written_afterWrite_none h.ready (by decide) _
  have hlive : NotLive c (q.afterRead .status v) := by
    refine ⟨hready, fun w hw => ?_⟩
    rw [Handshake.written_afterRead, hq, Handshake.written_afterWrite _ fun _ => hall,
      Option.some.injEq] at hw
    exact hw ▸ c.driverOk_apart
  have hfeatures' : (q.written .driverFeatures).isSome := by
    rw [hq, Handshake.written_afterWrite_status hall (by decide)]
    exact hfeatures
  have hread := q.read_afterRead .status v
  rw [← hq]
  refine obeys_stopIf (fun _ => hlive) fun hv => obeys_done ⟨rfl, ?_⟩
  exact ⟨⟨hid, hfeatures', v, hread, hv⟩, hread, hready, hlive⟩

theorem negotiate_obeys (hp : p.Identified) :
    Obeys (Handshake.next c) (Keeps s (Negotiated c)) (fun _ => NotLive c) (negotiate c) s p := by
  obtain ⟨hackF, -⟩ := or_and_eq_zero.mp c.featuresOk_apart
  obtain ⟨hackdrvO, -⟩ := or_and_eq_zero.mp c.driverOk_apart
  obtain ⟨hackO, -⟩ := or_and_eq_zero.mp hackdrvO
  have hack : 0 ||| c.acknowledge = c.acknowledge := BitVec.zero_or
  unfold negotiate
  rw [hack]
  refine obeys_write (next_write ⟨hp, .inl rfl⟩) ?_
  have h₀ : Started 0 (p.afterWrite .status 0) :=
    ⟨(p.identified_afterWrite _ _).mpr hp, p.status_afterWrite 0, rfl⟩
  refine h₀.write_status (by simp) hackF hackO fun p₁ h₁ => ?_
  refine h₁.write_status (and_not_or _ _) c.featuresOk_apart hackdrvO fun p₂ h₂ => ?_
  refine obeys_read fun offered => ⟨_, rfl, ?_⟩
  have h₃ : Started (c.acknowledge ||| c.driver) (p₂.afterRead .deviceFeatures offered) :=
    ⟨(p₂.identified_afterRead (by simp) _).mpr h₂.identified,
      (p₂.status_afterRead_of_ne (by decide) _).trans h₂.status, h₂.ready⟩
  refine obeys_write (next_write ⟨h₃.identified, h₃.status ▸ driver_status c,
    h₃.status ▸ c.featuresOk_apart, offered, p₂.read_afterRead _ _,
    and_not_negotiated c offered⟩) (confirm_obeys ⟨?_, ?_, ?_⟩ ?_)
  · exact (Handshake.identified_afterWrite _ _ _).mpr h₃.identified
  · exact (Handshake.status_afterWrite_of_ne (by decide) _).trans h₃.status
  · exact Handshake.written_afterWrite_none h₃.ready (by decide) _
  · rw [Handshake.written_afterWrite _ (by simp)]
    rfl

/-- Queue 0 can be set up: it is not in use and large enough. `v` is the status last read. -/
structure Idle (c : Bits) (V : Virtio.Params) (v : BitVec 32) (p : Handshake) : Prop where
  idle : p.QueueIdle c
  status : p.read .status = some v
  max : ∃ max, p.read .queueNumMax = some max ∧ BitVec.ofNat 32 V.num ≤ max
  live : NotLive c p

theorem confirmed_afterRead (h : p.Confirmed c) {r : Reg} (hr : r ∈ [Reg.queueReady, .queueNumMax])
    (v : BitVec 32) : (p.afterRead r v).Confirmed c := by
  obtain ⟨hid, hfeatures, w, hw, hok⟩ := h
  simp only [List.mem_cons, List.not_mem_nil, or_false] at hr
  obtain rfl | rfl := hr
  all_goals
    refine ⟨(p.identified_afterRead (by simp) v).mpr hid, hfeatures, w, ?_, hok⟩
    simpa [Handshake.afterRead] using hw

theorem read_afterWrite {r : Reg} (h : r ≠ .status) (v : BitVec 32) :
    (p.afterWrite r v).read = p.read := by
  rw [afterWrite_of_ne h]

theorem written_afterWrite_of_ne {r r' : Reg} (h : r ≠ .status) (hr : r' ≠ r) (v : BitVec 32) :
    (p.afterWrite r v).written r' = p.written r' := by
  rw [afterWrite_of_ne h]
  exact Function.update_of_ne hr ..

theorem confirmed_afterWrite (h : p.Confirmed c) {r : Reg} (hr : r ≠ .status)
    (hr' : r ≠ .driverFeatures) (v : BitVec 32) : (p.afterWrite r v).Confirmed c := by
  obtain ⟨hid, hfeatures, w, hw, hok⟩ := h
  refine ⟨(p.identified_afterWrite r v).mpr hid, ?_, w, ?_, hok⟩
  · rwa [written_afterWrite_of_ne hr hr'.symm]
  · rwa [read_afterWrite hr]

theorem NotLive.afterWrite (h : NotLive c p) {r : Reg} (hr : r ≠ .status) (hr' : r ≠ .queueReady)
    (v : BitVec 32) : NotLive c (p.afterWrite r v) := by
  refine ⟨Handshake.written_afterWrite_none h.1 hr'.symm v, fun w hw => ?_⟩
  rw [written_afterWrite_of_ne hr hr.symm] at hw
  exact h.2 w hw

theorem checkQueue_obeys {v : BitVec 32} (h : Negotiated c v p) :
    Obeys (Handshake.next c) (Keeps s fun _ => Idle c V v) (fun _ => NotLive c) (checkQueue V) s
      p := by
  obtain ⟨hconf, hread, hready, hlive⟩ := h
  unfold checkQueue
  refine obeys_write (next_write hconf) ?_
  obtain ⟨q, hq⟩ : ∃ q, q = p.afterWrite .queueSel 0 := ⟨_, rfl⟩
  have hconf' : q.Confirmed c := hq ▸ confirmed_afterWrite hconf (by decide) (by decide) 0
  have hlive' : NotLive c q := hq ▸ hlive.afterWrite (by decide) (by decide) 0
  have hread' : q.read .status = some v := by rw [hq, read_afterWrite (by decide), hread]
  have hsel : q.written .queueSel = some 0 := by rw [hq, Handshake.written_afterWrite _ (by simp)]
  rw [← hq]
  refine obeys_read fun ready => ⟨_, rfl, ?_⟩
  refine obeys_stopIf (fun _ => hlive') fun hnot => ?_
  obtain rfl : ready = 0 := not_not.mp hnot
  refine obeys_read fun max => ⟨_, rfl, ?_⟩
  refine obeys_stopIf (fun _ => hlive') fun _ => ?_
  refine obeys_stopIf_last (fun _ => hlive') fun hmax =>
    ⟨rfl, ⟨?_, hsel, ?_, hlive'.1⟩, ?_, ?_, hlive'⟩
  · exact confirmed_afterRead (confirmed_afterRead hconf' (by simp) 0) (by simp) max
  · simp [Handshake.afterRead]
  · simpa [Handshake.afterRead] using hread'
  · exact ⟨max, Handshake.read_afterRead _ _ _, BitVec.not_lt.mp hmax⟩

/-- The frames of the queue have left the free list, and are zero. -/
structure Allocated (free : List Addr) (s : Driver) : Prop where
  frames : ∃ rest, free = s.desc :: s.avail :: s.used :: rest ∧ FreeList s.phys rest
  zero : ∀ b, pageNo b = pageNo s.desc ∨ pageNo b = pageNo s.avail ∨ pageNo b = pageNo s.used →
    s.phys.mem b = 0

theorem kalloc_of_ne {s : Phys} {free : List Addr} (h : FreeList s free) (hne : (kalloc s).1 ≠ 0) :
    ∃ rest, free = (kalloc s).1 :: rest ∧ FreeList (kalloc s).2 rest := by
  cases free with
  | nil => exact absurd (kalloc_empty h).1 hne
  | cons f rest =>
    obtain ⟨hf, hrest, -⟩ := kalloc_pop h
    exact ⟨rest, by rw [hf], hrest⟩

theorem setMemory_zero {s : Phys} {f g h b : Addr} (hf : Aligned f) (hg : Aligned g)
    (hh : Aligned h) (hb : pageNo b = pageNo f ∨ pageNo b = pageNo g ∨ pageNo b = pageNo h) :
    (((s.setMemory f 0 4096).setMemory g 0 4096).setMemory h 0 4096).mem b = 0 := by
  rw [setMemory_mem, fill_page hh, setMemory_mem, fill_page hg, setMemory_mem, fill_page hf]
  obtain hb | hb | hb := hb
  · rw [if_pos hb]
    split
    · rfl
    · split <;> rfl
  · rw [if_pos hb]
    split <;> rfl
  · exact if_pos hb

theorem allocQueue_obeys {free : List Addr} {v : BitVec 32} (hs : FreeList s.phys free)
    (h : Idle c V v p) :
    Obeys (Handshake.next c) (fun _ s' p' => Allocated free s' ∧ p' = p) (fun _ => NotLive c)
      allocQueue s p := by
  unfold allocQueue
  refine obeys_kernel (obeys_kernel (obeys_kernel (obeys_kernel ?_)))
  refine obeys_stopIf (fun _ => h.live) fun hnot => ?_
  obtain ⟨hd, hrest⟩ := not_or.mp hnot
  obtain ⟨ha, hu⟩ := not_or.mp hrest
  obtain ⟨rest₁, hfree₁, hs₁⟩ := kalloc_of_ne hs hd
  obtain ⟨rest₂, hfree₂, hs₂⟩ := kalloc_of_ne hs₁ ha
  obtain ⟨rest, hfree₃, hs₃⟩ := kalloc_of_ne hs₂ hu
  rw [hfree₂, hfree₃] at hfree₁
  have hal := hs.aligned
  have hnodup := hs.nodup
  rw [hfree₁] at hal hnodup
  simp only [List.mem_cons, forall_eq_or_imp] at hal
  simp only [List.nodup_cons, List.mem_cons, not_or] at hnodup
  obtain ⟨hal₁, hal₂, hal₃, -⟩ := hal
  obtain ⟨⟨-, -, hd'⟩, ⟨-, ha'⟩, hu', -⟩ := hnodup
  refine ⟨⟨⟨rest, hfree₁, ?_⟩, fun b hb => ?_⟩, rfl⟩
  · exact ((hs₃.setMemory hal₁ hd' 0).setMemory hal₂ ha' 0).setMemory hal₃ hu' 0
  · exact setMemory_zero hal₁ hal₂ hal₃ hb

/-- The device has been told where the queue is, and that it is ready. -/
structure Given (V : Virtio.Params) (s : Driver) (p : Handshake) : Prop where
  num : p.written .queueNum = some (BitVec.ofNat 32 V.num)
  desc : p.written .queueDescLow = some (s.desc.setWidth 32) ∧
    p.written .queueDescHigh = some ((s.desc >>> 32).setWidth 32)
  avail : p.written .driverDescLow = some (s.avail.setWidth 32) ∧
    p.written .driverDescHigh = some ((s.avail >>> 32).setWidth 32)
  used : p.written .deviceDescLow = some (s.used.setWidth 32) ∧
    p.written .deviceDescHigh = some ((s.used >>> 32).setWidth 32)
  ready : p.written .queueReady = some 1

/-- The registers that describe the queue. -/
def queueRegs : List Reg :=
  [.queueNum, .queueDescLow, .queueDescHigh, .driverDescLow, .driverDescHigh, .deviceDescLow,
    .deviceDescHigh]

theorem Idle.afterWrite {v : BitVec 32} (h : Idle c V v p) {r : Reg} (hr : r ∈ queueRegs)
    (w : BitVec 32) : Idle c V v (p.afterWrite r w) := by
  have hne : r ≠ .status ∧ r ≠ .driverFeatures ∧ r ≠ .queueSel ∧ r ≠ .queueReady := by
    revert hr
    cases r <;> simp [queueRegs]
  obtain ⟨hstatus, hfeatures, hsel, hready⟩ := hne
  obtain ⟨⟨hconf, hsel₀, hread, hnone⟩, hst, hmax, hlive⟩ := h
  refine ⟨⟨confirmed_afterWrite hconf hstatus hfeatures w, ?_, ?_, ?_⟩, ?_, ?_,
    hlive.afterWrite hstatus hready w⟩
  · rwa [written_afterWrite_of_ne hstatus hsel.symm]
  · rwa [read_afterWrite hstatus]
  · exact Handshake.written_afterWrite_none hnone hready.symm w
  · rwa [read_afterWrite hstatus]
  · rwa [read_afterWrite hstatus]

theorem num_ne_zero (V : Virtio.Params) : BitVec.ofNat 32 V.num ≠ 0 := by
  have hthree := V.three_le
  have hnum := Nat.le_of_dvd (by decide) V.num_dvd
  intro h
  have hzero := congrArg BitVec.toNat h
  rw [BitVec.toNat_ofNat, Nat.mod_eq_of_lt (by omega)] at hzero
  change V.num = 0 at hzero
  omega

/-- The queue is given to the device in full before it is made ready. -/
theorem giveQueue_obeys {v : BitVec 32} (h : Idle c V v p) :
    Obeys (Handshake.next c)
      (Keeps s fun _ p => p.Confirmed c ∧ p.read .status = some v ∧ Given V s p)
      (fun _ => NotLive c) (giveQueue V) s p := by
  unfold giveQueue
  obtain ⟨max, hmax, hle⟩ := h.max
  refine obeys_write (next_write ⟨h.idle, num_ne_zero V, max, hmax, hle⟩) (obeys_kernel ?_)
  have h₁ := h.afterWrite (r := .queueNum) (by simp [queueRegs]) (BitVec.ofNat 32 V.num)
  refine obeys_write (next_write h₁.idle) ?_
  have h₂ := h₁.afterWrite (r := .queueDescLow) (by simp [queueRegs]) (s.desc.setWidth 32)
  refine obeys_write (next_write h₂.idle) ?_
  have h₃ := h₂.afterWrite (r := .queueDescHigh) (by simp [queueRegs])
    ((s.desc >>> 32).setWidth 32)
  refine obeys_write (next_write h₃.idle) ?_
  have h₄ := h₃.afterWrite (r := .driverDescLow) (by simp [queueRegs]) (s.avail.setWidth 32)
  refine obeys_write (next_write h₄.idle) ?_
  have h₅ := h₄.afterWrite (r := .driverDescHigh) (by simp [queueRegs])
    ((s.avail >>> 32).setWidth 32)
  refine obeys_write (next_write h₅.idle) ?_
  have h₆ := h₅.afterWrite (r := .deviceDescLow) (by simp [queueRegs]) (s.used.setWidth 32)
  refine obeys_write (next_write h₆.idle) ?_
  have h₇ := h₆.afterWrite (r := .deviceDescHigh) (by simp [queueRegs])
    ((s.used >>> 32).setWidth 32)
  refine ⟨_, next_write ⟨h₇.idle, rfl, by simp [Handshake.afterWrite]⟩, rfl,
    confirmed_afterWrite h₇.idle.1 (by decide) (by decide) 1, ?_, ?_⟩
  · rw [read_afterWrite (by decide)]
    exact h₇.status
  · refine ⟨?_, ⟨?_, ?_⟩, ⟨?_, ?_⟩, ⟨?_, ?_⟩, ?_⟩ <;> simp [Handshake.afterWrite]

theorem freeAll_eq (V : Virtio.Params) (free : Nat → Bool) {i : Nat} (hi : i < V.num) :
    freeAll V free i = true := by
  have hfold : ∀ (is : List Nat) (free : Nat → Bool), i ∈ is ∨ free i = true →
      is.foldl (fun free j => Function.update free j true) free i = true := by
    intro is
    induction is with
    | nil => exact fun free h => h.resolve_left List.not_mem_nil
    | cons j is ih =>
      intro free h
      refine ih _ ?_
      change i ∈ is ∨ Function.update free j true i = true
      by_cases hij : i = j
      · subst hij
        exact .inr (Function.update_self ..)
      · rw [Function.update_of_ne hij]
        exact h.imp_left fun hmem => (List.mem_cons.mp hmem).resolve_left hij
  exact hfold _ free (.inl (List.mem_range.mpr hi))

/-- The disk is ready for `virtio_disk_rw`: all descriptors are free, the queue is zero and the
device knows it. -/
structure Live (c : Bits) (V : Virtio.Params) (free : List Addr) (s : Driver) (p : Handshake) :
    Prop where
  allocated : Allocated free s
  given : Given V s p
  free : ∀ i < V.num, s.free i = true
  status : ∃ v, p.written .status = some v ∧ v &&& c.driverOk = c.driverOk

theorem or_and_self (a b : BitVec 32) : (a ||| b) &&& b = b := by
  apply BitVec.eq_of_getLsbD_eq
  intro i hi
  cases hb : b.getLsbD i <;> simp [hb]

theorem or_and_not (a b : BitVec 32) : (a ||| b) &&& ~~~a = b &&& ~~~a := by
  apply BitVec.eq_of_getLsbD_eq
  intro i hi
  cases ha : a.getLsbD i <;> simp [ha]

theorem virtioDiskInit_obeys {free : List Addr} (hs : FreeList s.phys free)
    (hp : p.written = fun _ => none) :
    Obeys (Handshake.next c) (fun _ => Live c V free) (fun _ => NotLive c) (virtioDiskInit c V) s
      p := by
  unfold virtioDiskInit
  refine (findDisk_obeys hp).bind ?_
  rintro _ _ p₁ ⟨rfl, hid, -⟩
  refine (negotiate_obeys hid).bind ?_
  rintro v _ p₂ ⟨rfl, hneg⟩
  refine (checkQueue_obeys hneg).bind ?_
  rintro _ _ p₃ ⟨rfl, hidle⟩
  refine (allocQueue_obeys hs hidle).bind ?_
  rintro _ s₁ _ ⟨halloc, rfl⟩
  refine (giveQueue_obeys hidle).bind ?_
  rintro _ _ p₄ ⟨rfl, hconf, hread, hgiven⟩
  refine obeys_kernel ?_
  have hstatus : p₄.status = v := by rw [Handshake.status, hread]; rfl
  have hok : c.driverOk &&& c.featuresOk = 0 := by
    rw [BitVec.and_comm]
    exact (or_and_eq_zero.mp c.driverOk_apart).2
  have hne : v ||| c.driverOk ≠ 0 := fun h => c.driverOk_ne (BitVec.or_eq_zero_iff.mp h).2
  refine ⟨_, next_write ⟨hconf.1, .inr ⟨?_, ?_, ?_⟩⟩, ?_⟩
  · rw [hstatus]
    exact and_not_or v c.driverOk
  · rw [hstatus, or_and_not]
    exact fun h => absurd (and_and_eq_zero hok _) h
  · exact fun _ => ⟨hconf, hgiven.ready⟩
  · have hold : ∀ r, r ≠ .status →
        (p₄.afterWrite .status (v ||| c.driverOk)).written r = p₄.written r := fun r hr =>
      Handshake.written_afterWrite_status hne hr
    refine ⟨⟨halloc.frames, halloc.zero⟩, ⟨?_, ?_, ?_, ?_, ?_⟩, fun i hi => freeAll_eq V _ hi, _,
      Handshake.written_afterWrite _ fun _ => hne, or_and_self v c.driverOk⟩
    · rw [hold _ (by decide)]
      exact hgiven.num
    · rw [hold _ (by decide), hold _ (by decide)]
      exact hgiven.desc
    · rw [hold _ (by decide), hold _ (by decide)]
      exact hgiven.avail
    · rw [hold _ (by decide), hold _ (by decide)]
      exact hgiven.used
    · rw [hold _ (by decide)]
      exact hgiven.ready

/-- On every device, from every list of free pages, `virtio_disk_init` keeps to the handshake. When
it returns, the disk is ready; when it panics, the device has neither a queue nor `DRIVER_OK`. -/
theorem handshake_kept {D : Type} (c : Bits) (V : Virtio.Params) (dev : Device D Reg) (d : D)
    (s : Driver) {free : List Addr} (hs : FreeList s.phys free) :
    ∃ p, Lib.Transition.run (Handshake.next c) ⟨fun _ => none, fun _ => none⟩
        ((virtioDiskInit c V).run dev s d).accesses = some p ∧
      ((virtioDiskInit c V).run dev s d).Ends (fun _ s => Live c V free s p)
        (fun _ => NotLive c p) :=
  (virtioDiskInit_obeys hs rfl).run dev d

/-- The constants of the virtio specification. -/
def legacyBits : Bits := ⟨1, 2, 4, 8, 5, 7, 11, 12, 27, 29, 28, by decide, by decide, by decide,
  by decide, by decide⟩

/-- A disk with one queue of 1024 entries that accepts whatever features it is asked for. -/
def plainDisk : Device (Reg → BitVec 32) Reg where
  read r d := (d r, d)
  write r v d := Function.update d r v

def powerOn : Reg → BitVec 32
  | .magicValue => 0x74726976
  | .version => 2
  | .deviceId => 2
  | .vendorId => 0x554d4551
  | .deviceFeatures => 0x30006ed4
  | .queueNumMax => 1024
  | _ => 0

/-- Three free frames, each with the address of the next one. -/
def threeFrames : Phys :=
  ⟨fun a => if a = 0x3001 then 0x20 else if a = 0x2001 then 0x10 else 0, 0x3000, [], []⟩

def bootDriver : Driver := ⟨threeFrames, 0, 0, 0, fun _ => false⟩

theorem bootDriver_freeList : FreeList bootDriver.phys [0x3000, 0x2000, 0x1000] :=
  ⟨⟨rfl, by decide, by decide +kernel, by decide, by decide +kernel, by decide,
    show readWord bootDriver.phys.mem 0x1000 = 0 by decide +kernel⟩, by simp [Aligned], by decide⟩

theorem plainDisk_ok :
    ((virtioDiskInit legacyBits eight).run plainDisk bootDriver powerOn).result = .ok () := by
  decide +kernel

theorem handshake_kept_plainDisk : ∃ p free, Lib.Transition.run (Handshake.next legacyBits)
      ⟨fun _ => none, fun _ => none⟩
      ((virtioDiskInit legacyBits eight).run plainDisk bootDriver powerOn).accesses = some p ∧
    Live legacyBits eight free
      ((virtioDiskInit legacyBits eight).run plainDisk bootDriver powerOn).state p := by
  obtain ⟨p, hrun, hend⟩ := handshake_kept legacyBits eight plainDisk powerOn bootDriver
    bootDriver_freeList
  exact ⟨p, _, hrun, hend.ok () plainDisk_ok⟩

end Raynix.VirtioHandshake
