import Raynix.Virtio

namespace Raynix.VirtioStep

open Virtio

variable {V : Params} {B T : Type} [DecidableEq B] [DecidableEq T]

/-- What a step can do. -/
inductive Move (s : State V B T) : Act B T → State V B T → Prop
  | rw {t b write} (hpc : s.pc t = .idle) : Move s (.rw t b write) (s.goto t (.rwLock b write))
  | intr {t} (hpc : s.pc t = .idle) : Move s (.intr t) (s.goto t .intrLock)
  | lockRw {t b write} (hlock : s.vdiskLock = none)
      (hpc : s.pc t = .rwLock b write ∨ s.pc t = .allocSleep b write) :
      Move s (.lock t) { s.goto t (.alloc b write) with vdiskLock := some t }
  | lockWait {t b idx r} (hlock : s.vdiskLock = none) (hpc : s.pc t = .waitSleep b idx r) :
      Move s (.lock t) { s.goto t (.wait b idx r) with vdiskLock := some t }
  | lockIntr {t} (hlock : s.vdiskLock = none) (hpc : s.pc t = .intrLock) :
      Move s (.lock t) { s.goto t .intrLoop with vdiskLock := some t }
  | allocFault {t b write e} (hpc : s.pc t = .alloc b write)
      (halloc : alloc3Desc s.disk = .error e) : Move s (.run t) { s with fault := some e }
  | allocSome {t b write d idx} (hpc : s.pc t = .alloc b write)
      (halloc : alloc3Desc s.disk = .ok (d, some idx)) :
      Move s (.run t) { s.goto t (.format b write idx) with disk := d }
  | allocNone {t b write d} (hpc : s.pc t = .alloc b write)
      (halloc : alloc3Desc s.disk = .ok (d, none)) :
      Move s (.run t) (release { s with disk := d } t (.allocSleep b write))
  | format {t b write idx} (hpc : s.pc t = .format b write idx) :
      Move s (.run t) { s.goto t (.submit b idx) with disk := formatReq s.disk b write idx }
  | submit {t b idx} (hpc : s.pc t = .submit b idx) : Move s (.run t) (putAvail s t b idx)
  | publish {t b idx r} (hpc : s.pc t = .publish b idx r) :
      Move s (.run t) (publishAvail s t b idx r)
  | waitBusy {t b idx r} (hpc : s.pc t = .wait b idx r) (hdisk : s.disk.disk b = true) :
      Move s (.run t) (release s t (.waitSleep b idx r))
  | waitDone {t b idx r} (hpc : s.pc t = .wait b idx r) (hdisk : s.disk.disk b = false) :
      Move s (.run t) (s.goto t (.finish b idx r))
  | finish {t b idx r} (hpc : s.pc t = .finish b idx r) : Move s (.run t) (finishReq s t b idx r)
  | rwRelease {t b r} (hpc : s.pc t = .rwRelease b r) : Move s (.run t) (release s t .idle)
  | intrNext {t} (hpc : s.pc t = .intrLoop) (hused : s.disk.usedIdx ≠ s.disk.used.idx) :
      Move s (.run t) (s.goto t (.intrEntry (s.disk.used.ring (slot V s.disk.usedIdx))
        (s.usedReq (slot V s.disk.usedIdx))))
  | intrDone {t} (hpc : s.pc t = .intrLoop) : Move s (.run t) (release s t .idle)
  | intrBody {t id r} (hpc : s.pc t = .intrEntry id r) : Move s (.run t) (intrBody s t id r)
  | consume (hidx : s.consumed ≠ s.disk.avail.idx) :
      Move s .consume
        { s with
          consumed := s.consumed + 1
          taken := s.taken ++
            [{ head := s.disk.avail.ring (slot V s.consumed)
               status := statusAddr s.disk (s.disk.avail.ring (slot V s.consumed))
               r := s.availReq (slot V s.consumed) }]
          unread := Function.update s.unread (slot V s.consumed) false }
  | post {k status q s'} (hq : s.taken[k]? = some q) (hs' : postReq s k status = some s') :
      Move s (.post k status) s'

variable {s s' : State V B T} {a : Act B T} {t : T}

theorem runThread_move (h : runThread s t = some s') : Move s (.run t) s' := by
  unfold runThread at h
  split at h
  case h_1 b write hpc =>
    split at h
    · exact Option.some.inj h ▸ .allocFault hpc ‹_›
    · exact Option.some.inj h ▸ .allocSome hpc ‹_›
    · exact Option.some.inj h ▸ .allocNone hpc ‹_›
  case h_2 b write idx hpc => exact Option.some.inj h ▸ .format hpc
  case h_3 b idx hpc => exact Option.some.inj h ▸ .submit hpc
  case h_4 b idx r hpc => exact Option.some.inj h ▸ .publish hpc
  case h_5 b idx r hpc =>
    split at h
    · exact Option.some.inj h ▸ .waitBusy hpc ‹_›
    · exact Option.some.inj h ▸ .waitDone hpc (Bool.eq_false_iff.mpr ‹_›)
  case h_6 b idx r hpc => exact Option.some.inj h ▸ .finish hpc
  case h_7 b r hpc => exact Option.some.inj h ▸ .rwRelease hpc
  case h_8 hpc =>
    rw [intrTest] at h
    split at h
    · exact Option.some.inj h ▸ .intrNext hpc ‹_›
    · exact Option.some.inj h ▸ .intrDone hpc
  case h_9 id r hpc => exact Option.some.inj h ▸ .intrBody hpc
  case h_10 => cases h

theorem lockThread_move (h : lockThread s t = some s') : Move s (.lock t) s' := by
  unfold lockThread at h
  split at h
  case isTrue hlock =>
    split at h
    · exact Option.some.inj h ▸ .lockRw hlock (Or.inl ‹_›)
    · exact Option.some.inj h ▸ .lockRw hlock (Or.inr ‹_›)
    · exact Option.some.inj h ▸ .lockWait hlock ‹_›
    · exact Option.some.inj h ▸ .lockIntr hlock ‹_›
    · cases h
  case isFalse => cases h

theorem step_move (h : step s a = some s') : s.fault = none ∧ Move s a s' := by
  unfold step at h
  split at h
  case isTrue => cases h
  case isFalse hfault =>
    refine ⟨by simpa using hfault, ?_⟩
    cases a with
    | rw t b write =>
      simp only [Option.ite_none_right_eq_some, Option.some.injEq] at h
      exact h.2 ▸ .rw h.1
    | intr t =>
      simp only [Option.ite_none_right_eq_some, Option.some.injEq] at h
      exact h.2 ▸ .intr h.1
    | lock t => exact lockThread_move h
    | run t => exact runThread_move h
    | consume =>
      simp only [consume, Option.ite_none_right_eq_some, Option.some.injEq] at h
      exact h.2 ▸ .consume h.1
    | post k status =>
      have hp := h
      simp only [postReq] at hp
      split at hp
      · cases hp
      · exact .post ‹_› h

/-- The points of a thread that holds `vdisk_lock`. -/
def critical : Pc B → Bool
  | .alloc _ _ => true
  | .format _ _ _ => true
  | .submit _ _ => true
  | .publish _ _ _ => true
  | .wait _ _ _ => true
  | .finish _ _ _ => true
  | .rwRelease _ _ => true
  | .intrLoop => true
  | .intrEntry _ _ => true
  | _ => false

/-- Only the holder of `vdisk_lock` is past its `acquire`. -/
def Held (s : State V B T) : Prop := ∀ t, critical (s.pc t) = true → s.vdiskLock = some t

omit [DecidableEq B] in
@[simp]
theorem goto_pc_self (s : State V B T) (t : T) (pc : Pc B) : (s.goto t pc).pc t = pc :=
  Function.update_self ..

omit [DecidableEq B] in
@[simp]
theorem goto_pc_of_ne (s : State V B T) {t u : T} (pc : Pc B) (h : u ≠ t) :
    (s.goto t pc).pc u = s.pc u := Function.update_of_ne h ..

omit [DecidableEq B] in
theorem Held.congr (H : Held s) {t : T} (hlock : s'.vdiskLock = s.vdiskLock)
    (hpc : ∀ u, u ≠ t → s'.pc u = s.pc u)
    (ht : critical (s'.pc t) = true → critical (s.pc t) = true) : Held s' := by
  intro u hu
  rw [hlock]
  by_cases hut : u = t
  · subst hut
    exact H u (ht hu)
  · exact H u (hpc u hut ▸ hu)

omit [DecidableEq B] in
theorem Held.acquire (H : Held s) (hlock : s.vdiskLock = none) (pc : Pc B) :
    Held { s.goto t pc with vdiskLock := some t } := by
  intro u hu
  by_cases hut : u = t
  · rw [hut]
  · have hu' : critical (s.pc u) = true := by
      rw [← goto_pc_of_ne s pc hut]
      exact hu
    rw [H u hu'] at hlock
    cases hlock

omit [DecidableEq B] in
theorem Held.release (H : Held s) (ht : critical (s.pc t) = true) {pc : Pc B}
    (hpc : critical pc = false) : Held (release s t pc) := by
  intro u hu
  change critical ((s.goto t pc).pc u) = true at hu
  by_cases hut : u = t
  · subst hut
    rw [goto_pc_self, hpc] at hu
    cases hu
  · rw [goto_pc_of_ne s pc hut] at hu
    exact absurd ((H u hu).symm.trans (H t ht)) (by simpa using hut)

omit [DecidableEq B] [DecidableEq T] in
theorem postReq_pc {k : Nat} {status : BitVec 8} (h : postReq s k status = some s') :
    s'.pc = s.pc ∧ s'.vdiskLock = s.vdiskLock := by
  unfold postReq at h
  split at h
  · cases h
  · exact Option.some.inj h ▸ ⟨rfl, rfl⟩

omit [DecidableEq B] in
theorem finishReq_pc {b : B} {idx : Idx} {r : Nat} (u : T) (hu : u ≠ t) :
    (finishReq s t b idx r).pc u = s.pc u ∧
      (finishReq s t b idx r).vdiskLock = s.vdiskLock := by
  unfold finishReq
  split
  · exact ⟨rfl, rfl⟩
  · exact ⟨goto_pc_of_ne s _ hu, rfl⟩

theorem Held.step (H : Held s) (h : Move s a s') : Held s' := by
  cases h
  case rw t b write hpc =>
    exact H.congr rfl (fun u hu => goto_pc_of_ne s _ hu) (by rw [goto_pc_self]; simp [critical])
  case intr t hpc =>
    exact H.congr rfl (fun u hu => goto_pc_of_ne s _ hu) (by rw [goto_pc_self]; simp [critical])
  case lockRw t b write hlock hpc => exact H.acquire hlock _
  case lockWait t b idx r hlock hpc => exact H.acquire hlock _
  case lockIntr t hlock hpc => exact H.acquire hlock _
  case allocFault t b write e hpc halloc => exact H
  case allocSome t b write d idx hpc halloc =>
    exact H.congr (t := t) rfl (fun u hu => goto_pc_of_ne s _ hu) (fun _ => by rw [hpc]; rfl)
  case allocNone t b write d hpc halloc =>
    exact Held.release (s := { s with disk := d }) H (by rw [hpc]; rfl) rfl
  case format t b write idx hpc =>
    exact H.congr (t := t) rfl (fun u hu => goto_pc_of_ne s _ hu) (fun _ => by rw [hpc]; rfl)
  case submit t b idx hpc =>
    exact H.congr (t := t) rfl (fun u hu => goto_pc_of_ne s _ hu) (fun _ => by rw [hpc]; rfl)
  case publish t b idx r hpc =>
    exact H.congr (t := t) rfl (fun u hu => goto_pc_of_ne s _ hu) (fun _ => by rw [hpc]; rfl)
  case waitBusy t b idx r hpc hdisk => exact H.release (by rw [hpc]; rfl) rfl
  case waitDone t b idx r hpc hdisk =>
    exact H.congr (t := t) rfl (fun u hu => goto_pc_of_ne s _ hu) (fun _ => by rw [hpc]; rfl)
  case finish t b idx r hpc =>
    refine H.congr (t := t) ?_ (fun u hu => (finishReq_pc u hu).1) (fun _ => by rw [hpc]; rfl)
    unfold finishReq
    split <;> rfl
  case rwRelease t b r hpc => exact H.release (by rw [hpc]; rfl) rfl
  case intrNext t hpc hused =>
    exact H.congr (t := t) rfl (fun u hu => goto_pc_of_ne s _ hu) (fun _ => by rw [hpc]; rfl)
  case intrDone t hpc => exact H.release (by rw [hpc]; rfl) rfl
  case intrBody t id r hpc =>
    unfold intrBody
    split
    · exact H
    · split
      · exact H
      · exact H.congr (t := t) rfl (fun u hu => goto_pc_of_ne s _ hu) (fun _ => by rw [hpc]; rfl)
  case consume hidx => exact H
  case post k status q hq hs' =>
    obtain ⟨hpc, hlock⟩ := postReq_pc hs'
    intro u hu
    rw [hlock]
    exact H u (hpc ▸ hu)

omit [DecidableEq B] [DecidableEq T] in
theorem held_initial (blockno : B → BitVec 32) : Held (initial V T blockno) := by
  intro t ht
  cases ht

end Raynix.VirtioStep
