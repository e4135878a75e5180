import Mathlib.Data.Fintype.Defs
import Raynix.VirtioRequests

namespace Raynix.VirtioCompletion

open Lib Lib.CircularBuffer Lib.Transition Virtio VirtioStep VirtioDescriptors VirtioRequests

variable {V : Params} {B T : Type}

/-- No two calls of `virtio_disk_rw` in progress are on one buffer. -/
def Distinct (s : State V B T) : Act B T → Prop
  | .rw _ b _ => ∀ u, (role (s.pc u)).buffer ≠ some b
  | _ => True

/-- The device posts status 0. -/
def Success : Act B T → Prop
  | .post _ status => status = 0
  | _ => True

/-- The used entries that `virtio_disk_intr` has not processed, by the numbers of their
requests. -/
def pending (s : State V B T) : List Nat :=
  (List.range (s.disk.used.idx - s.disk.usedIdx).toNat).map fun i =>
    s.usedReq (Fin.ofNat V.num (s.disk.usedIdx.toNat + i))

/-- What holds of every run on distinct buffers. -/
structure Inv (Z : BitVec 8 → Prop) (s : State V B T) : Prop where
  owned : Owned s
  held : Held s
  flight : ∃ A K U, Flight Z s A K U

section steps

variable [DecidableEq B] [DecidableEq T] {Z : BitVec 8 → Prop} {s s' : State V B T} {a : Act B T}
  {A K U : List (Req B T)}

theorem flight_step (F : Flight Z s A K U) (O : Owned s) (H : Held s) (hd : Distinct s a)
    (hZ : ∀ k st, a = .post k st → Z st) (h : Move s a s') : ∃ A K U, Flight Z s' A K U := by
  cases h
  case rw t b write hpc =>
    refine ⟨A, K, U, F.setRole _ (by simp [hpc, role]) (by simp [hpc, role])
      ⟨?_, ?_, ?_, ?_, ?_, ?_, ?_⟩⟩
    · simp [role]
    · simp [role]
    · simp [role]
    · simp [role]
    · simp [role]
    · simp [role]
    · rintro b' ⟨⟩ u -
      exact hd u
  case intr t hpc =>
    exact ⟨A, K, U, F.frame _ _ _ _ (goto_apply role (by rw [hpc]; rfl))⟩
  case lockRw t b write hlock hpc =>
    obtain hpc | hpc := hpc
    all_goals exact ⟨A, K, U, F.frame _ _ _ _ (goto_apply role (by rw [hpc]; rfl))⟩
  case lockWait t b idx r hlock hpc =>
    exact ⟨A, K, U, F.frame _ _ _ _ (goto_apply role (by rw [hpc]; rfl))⟩
  case lockIntr t hlock hpc =>
    exact ⟨A, K, U, F.frame _ _ _ _ (goto_apply role (by rw [hpc]; rfl))⟩
  case allocFault t b write e hpc halloc =>
    exact absurd halloc (alloc3Desc_ne_error O.zero e)
  case allocSome t b write d idx hpc halloc =>
    obtain ⟨rfl, -, -⟩ := alloc3Desc_eq_some O.zero halloc
    exact ⟨A, K, U, F.frame _ _ _ _ (goto_apply role (by rw [hpc]; rfl))⟩
  case allocNone t b write d hpc halloc =>
    obtain rfl := alloc3Desc_eq_none O.zero halloc
    exact ⟨A, K, U, F.frame _ _ _ _ (goto_apply role (by rw [hpc]; rfl))⟩
  case format t b write idx hpc => exact ⟨A, K, U, F.format O hpc⟩
  case submit t b idx hpc => exact ⟨A, K, U, F.submit O H hpc⟩
  case publish t b idx r hpc => exact ⟨_, K, U, F.publish O H hpc⟩
  case waitBusy t b idx r hpc hdisk =>
    exact ⟨A, K, U, F.frame _ _ _ _ (goto_apply role (by rw [hpc]; rfl))⟩
  case waitDone t b idx r hpc hdisk =>
    have hrole : role (s.pc t) = .wait b idx r := by rw [hpc]; rfl
    refine ⟨A, K, U, F.setRole _ ?_ (by simp [hrole]) ⟨?_, ?_, ?_, ?_, ?_, ?_, ?_⟩⟩
    · intro b' c' r' h
      cases hrole.symm.trans h
      exact hdisk
    · simp [role]
    · simp [role]
    · simp [role]
    · simp [role]
    · simp [role]
    · rintro b' r' ⟨⟩
      exact F.answered t b idx r hrole hdisk
    · rintro b' ⟨⟩ u hu
      exact F.buffers t u b hu.symm (by rw [hrole]; rfl)
  case finish t b idx r hpc => exact ⟨A, K, U, F.finish O hpc⟩
  case rwRelease t b r hpc =>
    have hrole : role (s.pc t) = .done b r := by rw [hpc]; rfl
    have F₁ : Flight Z (s.goto t .idle) A K U := by
      refine F.setRole _ (by simp [hrole]) (by simp [hrole]) ⟨?_, ?_, ?_, ?_, ?_, ?_, ?_⟩
      all_goals simp [role, Role.buffer]
    exact ⟨A, K, U, F₁.frame _ _ _ _ fun _ => rfl⟩
  case intrNext t hpc hused => exact ⟨A, K, U, F.intrNext hpc hused⟩
  case intrDone t hpc =>
    exact ⟨A, K, U, F.frame _ _ _ _ (goto_apply role (by rw [hpc]; rfl))⟩
  case intrBody t id r hpc =>
    obtain ⟨U', F'⟩ := F.intrBody O H hpc
    exact ⟨A, K, U', F'⟩
  case consume hidx =>
    have hA : A ≠ [] := fun h => F.availQ.ne_nil hidx (by rw [h]; rfl)
    obtain ⟨e, A', rfl⟩ := List.exists_cons_of_ne_nil hA
    exact ⟨A', _, U, F.consume O⟩
  case post k status q hq hs' =>
    obtain ⟨e, F'⟩ := F.post O (hZ k status rfl) hs'
    exact ⟨A, _, _, F'⟩

theorem Inv.step (I : Inv Z s) (hd : Distinct s a) (hZ : ∀ k st, a = .post k st → Z st)
    (h : step s a = some s') : Inv Z s' := by
  obtain ⟨-, hm⟩ := step_move h
  obtain ⟨A, K, U, F⟩ := I.flight
  exact ⟨I.owned.step hm, I.held.step hm, flight_step F I.owned I.held hd hZ hm⟩

theorem inv_run (blockno : B → BitVec 32) {acts : List (Act B T)}
    (hd : Meets step Distinct (initial V T blockno) acts)
    (hZ : ∀ a ∈ acts, ∀ k st, a = .post k st → Z st)
    (h : run step (initial V T blockno) acts = some s) : Inv Z s := by
  have hI : Inv Z (initial V T blockno) :=
    ⟨owned_initial blockno, held_initial blockno, [], [], [], initial_flight Z blockno⟩
  have hboth : Meets step (fun s a => Distinct s a ∧ ∀ k st, a = .post k st → Z st)
      (initial V T blockno) acts :=
    meets_and.mpr ⟨hd, meets_of_forall fun a ha _ => hZ a ha⟩
  exact (always_of_meets (fun s a t hs hok ht => hs.step hok.1 hok.2 ht) hI hboth).final h

theorem owned_run (blockno : B → BitVec 32) {acts : List (Act B T)}
    (h : run step (initial V T blockno) acts = some s) : Owned s ∧ Held s := by
  refine run_invariant (I := fun s => Owned s ∧ Held s) ?_
    ⟨owned_initial blockno, held_initial blockno⟩ h
  intro s a t hs ht
  obtain ⟨-, hm⟩ := step_move ht
  exact ⟨hs.1.step hm, hs.2.step hm⟩

/-- The descriptors belong to the requests, whatever the buffers are; no avail entry is
overwritten before the device has consumed it, if the buffers are distinct. -/
theorem descriptors_owned (V : Params) (blockno : B → BitVec 32) (acts : List (Act B T))
    (s : State V B T) (h : run step (initial V T blockno) acts = some s) :
    (s.vdiskLock = none → Split s) ∧
      (s.fault ≠ some (.panic "free_desc 1") ∧ s.fault ≠ some (.panic "free_desc 2")) ∧
      (∀ t b c r, s.pc t = .finish b c r →
        ∃ d, freeChain { s.disk with infoB := Function.update s.disk.infoB c.i0 none } c.i0 =
            .ok d ∧
          (∀ n, V.num < n →
            freeChainLoop n { s.disk with infoB := Function.update s.disk.infoB c.i0 none } c.i0 =
              .ok d) ∧
          (∀ i ∈ Idx.toList c, s.disk.free i = false ∧ d.free i = true) ∧
          ∀ i, i ∉ Idx.toList c → d.free i = s.disk.free i ∧ d.desc i = s.disk.desc i) ∧
      (Meets step Distinct (initial V T blockno) acts → ∀ t b c, s.pc t = .submit b c →
        s.unread (slot V s.disk.avail.idx) = false) := by
  obtain ⟨O, H⟩ := owned_run blockno h
  refine ⟨O.split H, O.no_panic, fun t b c r => O.freeChain, ?_⟩
  intro hd t b c ht
  have I : Inv (fun _ => True) s := inv_run blockno hd (fun _ _ _ _ _ => trivial) h
  obtain ⟨A, K, U, F⟩ := I.flight
  refine F.next_read O (Held.no_publish H (t := t) ?_ ?_)
  · rw [ht]
    rfl
  · simp [ht, role]

omit [DecidableEq B] [DecidableEq T] in
theorem pending_of_flight (F : Flight Z s A K U) : pending s = U.map Req.r := by
  have h := congrArg (List.map Prod.snd) F.usedQ.eq_map
  rw [List.map_map, List.map_map] at h
  exact h.symm

omit [DecidableEq B] [DecidableEq T] in
theorem Inv.pending_eq (I : Inv Z s) : s.processed ++ pending s = s.posted := by
  obtain ⟨A, K, U, F⟩ := I.flight
  rw [pending_of_flight F, F.processed]

omit [DecidableEq B] [DecidableEq T] in
theorem Inv.entry (I : Inv Z s) {u : T} {id : BitVec 32} {r : Nat} (h : s.pc u = .intrEntry id r) :
    ∃ t b c, (s.pc t = .wait b c r ∨ s.pc t = .waitSleep b c r) ∧ c.i0 = id.toNat ∧
      s.disk.infoB id.toNat = some b := by
  obtain ⟨A, K, U, F⟩ := I.flight
  obtain ⟨e, U', rfl, hmem, hid, rfl⟩ := F.entry_req I.owned (t := u) (by rw [h]; rfl)
  obtain ⟨hrole, -, hinfo⟩ := F.waiting e hmem
  refine ⟨e.t, e.b, e.idx, ?_, hid.symm, hid ▸ hinfo⟩
  exact wait_of_role hrole

theorem intrLoop_step {u : T} (I : Inv Z s) (hf : s.fault = none) (h : s.pc u = .intrLoop) :
    ∃ s', step s (.run u) = some s' ∧
      (s'.fault = none ∧ s'.processed = s.processed ∧ s'.posted = s.posted) ∧
      ((s'.pc u = .idle ∧ pending s = []) ∨
        ∃ id r rest, s'.pc u = .intrEntry id r ∧ pending s = r :: rest) := by
  obtain ⟨A, K, U, F⟩ := I.flight
  have hstep : step s (.run u) = some (intrTest s u) := by simp [step, hf, runThread, h]
  refine ⟨_, hstep, ?_⟩
  rw [intrTest]
  split
  case isTrue hused =>
    have hU : U ≠ [] := fun h => F.usedQ.ne_nil hused (by rw [h]; rfl)
    obtain ⟨e, U', rfl⟩ := List.exists_cons_of_ne_nil hU
    obtain ⟨hcell, -⟩ := F.usedQ.pop V.num_dvd
    have hr : s.usedReq (slot V s.disk.usedIdx) = e.r := congrArg Prod.snd hcell
    refine ⟨⟨hf, rfl, rfl⟩, Or.inr ⟨_, _, U'.map Req.r, goto_pc_self s u _, ?_⟩⟩
    rw [pending_of_flight F, hr, List.map_cons]
  case isFalse hused =>
    refine ⟨⟨hf, rfl, rfl⟩, Or.inl ⟨goto_pc_self s u _, ?_⟩⟩
    rw [pending, not_not.mp hused, BitVec.sub_self]
    rfl

theorem intrEntry_step {u : T} {id : BitVec 32} {r : Nat} (I : Inv (fun st => st = 0) s)
    (hf : s.fault = none) (h : s.pc u = .intrEntry id r) :
    ∃ s', step s (.run u) = some s' ∧ (s'.fault = none ∧ s'.posted = s.posted) ∧
      s'.pc u = .intrLoop ∧ s'.processed = s.processed ++ [r] := by
  obtain ⟨A, K, U, F⟩ := I.flight
  obtain ⟨e, U', rfl, hmem, hid, rfl⟩ := F.entry_req I.owned (t := u) (by rw [h]; rfl)
  obtain ⟨-, -, hinfo⟩ := F.waiting e hmem
  have hstatus := F.status e List.mem_cons_self
  have hstep : step s (.run u) = some (intrBody s u id e.r) := by simp [step, hf, runThread, h]
  refine ⟨_, hstep, ?_⟩
  rw [intrBody, hid, if_neg (not_not_intro hstatus), hinfo]
  exact ⟨⟨hf, rfl⟩, goto_pc_self s u _, rfl⟩

/-- With the lock taken, the handler on its own gets through all that is posted and returns. -/
theorem intr_returns {u : T} (I : Inv (fun st => st = 0) s) (hf : s.fault = none)
    (h : s.pc u = .intrLoop) :
    ∃ n s', run step s (List.replicate n (.run u)) = some s' ∧ s'.pc u = .idle ∧
      s'.processed = s.posted := by
  generalize hk : (pending s).length = k
  -- Two steps process an entry.
  induction k generalizing s with
  | zero =>
    have hnil : pending s = [] := List.length_eq_zero_iff.mp hk
    obtain ⟨s₁, hs₁, ⟨-, hprocessed, -⟩, ⟨hpc, -⟩ | ⟨id, r, rest, -, hrest⟩⟩ := intrLoop_step I hf h
    · refine ⟨1, s₁, by rw [List.replicate_one, run_singleton, hs₁], hpc, ?_⟩
      rw [hprocessed, ← I.pending_eq, hnil, List.append_nil]
    · rw [hnil] at hrest
      cases hrest
  | succ k ih =>
    obtain ⟨s₁, hs₁, ⟨hf₁, hprocessed, hposted⟩, ⟨-, hnil⟩ | ⟨id, r, rest, hpc, hrest⟩⟩ :=
      intrLoop_step I hf h
    · rw [hnil] at hk
      cases hk
    · have I₁ := I.step (a := .run u) trivial (fun _ _ h => by cases h) hs₁
      obtain ⟨s₂, hs₂, ⟨hf₂, hposted₂⟩, hpc₂, hprocessed₂⟩ := intrEntry_step I₁ hf₁ hpc
      have I₂ := I₁.step (a := .run u) trivial (fun _ _ h => by cases h) hs₂
      have hpending : pending s₂ = rest := by
        have h₂ := I₂.pending_eq
        rw [hposted₂, hposted, ← I.pending_eq, hprocessed₂, hprocessed, hrest,
          List.append_assoc] at h₂
        exact (List.cons.inj (List.append_cancel_left h₂)).2
      have hlen : (pending s₂).length = k := by
        rw [hrest, List.length_cons] at hk
        rw [hpending]
        omega
      obtain ⟨n, s', hrun, hret, hall⟩ := ih I₂ hf₂ hpc₂ hlen
      refine ⟨n + 2, s', ?_, hret, by rw [hall, hposted₂, hposted]⟩
      rw [List.replicate_succ, List.replicate_succ, run_cons, hs₁, Option.bind_some, run_cons, hs₂,
        Option.bind_some, hrun]

/-- Completions are matched with their requests, and `virtio_disk_rw` waits for its own. -/
theorem completions_matched (V : Params) (blockno : B → BitVec 32) (acts : List (Act B T))
    (s : State V B T) (hd : Meets step Distinct (initial V T blockno) acts)
    (hz : ∀ a ∈ acts, Success a) (h : run step (initial V T blockno) acts = some s) :
    s.fault = none ∧
      (s.processed ++ pending s = s.posted ∧ s.posted.Nodup) ∧
      (∀ u id r, s.pc u = .intrEntry id r →
        ∃ t b c, (s.pc t = .wait b c r ∨ s.pc t = .waitSleep b c r) ∧ c.i0 = id.toNat ∧
          s.disk.infoB id.toNat = some b) ∧
      ((∀ u, s.pc u = .intrLoop → ∃ s', step s (.run u) = some s' ∧
          ((s'.pc u = .idle ∧ pending s = []) ∨
            ∃ id r rest, s'.pc u = .intrEntry id r ∧ pending s = r :: rest)) ∧
        (∀ u id r, s.pc u = .intrEntry id r → ∃ s', step s (.run u) = some s' ∧
          s'.pc u = .intrLoop ∧ s'.processed = s.processed ++ [r]) ∧
        ∀ u, s.pc u = .intrLoop → ∃ n s', run step s (List.replicate n (.run u)) = some s' ∧
          s'.pc u = .idle ∧ s'.processed = s.posted) ∧
      (∀ t b c r, s.pc t = .finish b c r → r ∈ s.posted) ∧
      ∀ t b r, s.pc t = .rwRelease b r → r ∈ s.posted := by
  have I : Inv (fun st => st = 0) s := by
    refine inv_run blockno hd ?_ h
    rintro a ha k st rfl
    exact hz _ ha
  obtain ⟨A, K, U, F⟩ := I.flight
  have hf : s.fault = none := by
    obtain hf | ⟨-, st, hne, hzero⟩ := F.faults
    · exact hf
    · exact absurd hzero hne
  refine ⟨hf, ⟨I.pending_eq, F.numbers.of_append_left⟩, fun u id r => I.entry, ⟨?_, ?_, ?_⟩, ?_, ?_⟩
  · intro u hu
    obtain ⟨s', hs', -, hnext⟩ := intrLoop_step I hf hu
    exact ⟨s', hs', hnext⟩
  · intro u id r hu
    obtain ⟨s', hs', -, hnext⟩ := intrEntry_step I hf hu
    exact ⟨s', hs', hnext⟩
  · exact fun u => intr_returns I hf
  · intro t b c r ht
    exact F.done t b r (by rw [ht]; rfl)
  · intro t b r ht
    exact F.done t b r (by rw [ht]; rfl)

end steps

instance decidableDistinct [Fintype T] [DecidableEq B] (s : State V B T) (a : Act B T) :
    Decidable (Distinct s a) :=
  match a with
  | .rw _ b _ => inferInstanceAs (Decidable (∀ u, (role (s.pc u)).buffer ≠ some b))
  | .intr _ => isTrue trivial
  | .lock _ => isTrue trivial
  | .run _ => isTrue trivial
  | .consume => isTrue trivial
  | .post _ _ => isTrue trivial

/-- `NUM` = 8 and the constants of the virtio specification. -/
def eight : Params := ⟨8, 1, 2, 0, 1, by decide, by decide, by decide, by decide⟩

/-- Processes 0 and 1 and the interrupt handler 2; the one buffer is `()`. -/
abbrev Run := List (Act Unit (Fin 3))

/-- A call of `virtio_disk_rw` up to its `sleep`. -/
def request (t : Fin 3) : Run := [.rw t () false, .lock t, .run t, .run t, .run t, .run t, .run t]

/-- A call from its `sleep` to its return. -/
def finishCall (t : Fin 3) : Run := [.lock t, .run t, .run t, .run t]

def interrupt : Run := [.intr 2, .lock 2, .run 2, .run 2, .run 2]

/-- A request is submitted and the lock is free again. -/
theorem descriptors_owned_request : ∃ s : State eight Unit (Fin 3),
    run step (initial eight (Fin 3) fun _ => 0) (request 0) = some s ∧ Split s ∧
      s.fault ≠ some (.panic "free_desc 1") ∧ s.fault ≠ some (.panic "free_desc 2") := by
  have hrun : (run step (initial eight (Fin 3) fun (_ : Unit) => 0) (request 0)).map
      (fun s => decide (s.vdiskLock = none)) = some true := by decide +kernel
  obtain ⟨s, hs, hfree⟩ := Option.map_eq_some_iff.mp hrun
  obtain ⟨hsplit, hpanic, -, -⟩ := descriptors_owned eight (fun _ => 0) (request 0) s hs
  exact ⟨s, hs, hsplit (of_decide_eq_true hfree), hpanic⟩

/-- A request is posted, and the handler is at its loop. -/
def delivered : Run := request 0 ++ [.consume, .post 0 0] ++ interrupt.take 2

/-- A call up to the `release` before its return. -/
def served : Run := request 0 ++ [.consume, .post 0 0] ++ interrupt ++ (finishCall 0).take 3

theorem completions_matched_served :
    (∃ s : State eight Unit (Fin 3),
      run step (initial eight (Fin 3) fun _ => 0) delivered = some s ∧
      pending s = [0] ∧ ∃ n s', run step s (List.replicate n (.run 2)) = some s' ∧
        s'.pc 2 = .idle ∧ s'.processed = [0]) ∧
      ∃ s : State eight Unit (Fin 3), run step (initial eight (Fin 3) fun _ => 0) served = some s ∧
        s.pc 0 = .rwRelease () 0 ∧ s.processed ++ pending s = s.posted ∧ 0 ∈ s.posted := by
  constructor
  · have hd : Meets step Distinct (initial eight (Fin 3) fun (_ : Unit) => 0) delivered := by
      decide +kernel
    have hz : ∀ a ∈ delivered, Success a := by simp [delivered, request, interrupt, Success]
    have hrun : (run step (initial eight (Fin 3) fun (_ : Unit) => 0) delivered).map
        (fun s => decide (s.pc 2 = .intrLoop ∧ s.processed = [] ∧ pending s = [0])) =
          some true := by
      decide +kernel
    obtain ⟨s, hs, hat⟩ := Option.map_eq_some_iff.mp hrun
    obtain ⟨hpc, hprocessed, hpending⟩ := of_decide_eq_true hat
    obtain ⟨-, ⟨hall, -⟩, -, ⟨-, -, hreturns⟩, -⟩ :=
      completions_matched eight (fun _ => 0) delivered s hd hz hs
    rw [hprocessed, hpending] at hall
    obtain ⟨n, s', hn, hidle, hdone⟩ := hreturns 2 hpc
    exact ⟨s, hs, hpending, n, s', hn, hidle, hdone.trans hall.symm⟩
  · have hd : Meets step Distinct (initial eight (Fin 3) fun (_ : Unit) => 0) served := by
      decide +kernel
    have hz : ∀ a ∈ served, Success a := by
      simp [served, request, interrupt, finishCall, Success]
    have hrun : (run step (initial eight (Fin 3) fun (_ : Unit) => 0) served).map
        (fun s => decide (s.pc 0 = .rwRelease () 0)) = some true := by decide +kernel
    obtain ⟨s, hs, hpc⟩ := Option.map_eq_some_iff.mp hrun
    obtain ⟨-, ⟨hpending, -⟩, -, -, -, hreturn⟩ :=
      completions_matched eight (fun _ => 0) served s hd hz hs
    have hat : s.pc 0 = .rwRelease () 0 := of_decide_eq_true hpc
    exact ⟨s, hs, hat, hpending, hreturn 0 () 0 hat⟩

/-- Two requests for the buffer, of which the device consumes only one. -/
def round : Run :=
  request 0 ++ request 1 ++ [.consume, .post 0 0] ++ interrupt ++ finishCall 0 ++ finishCall 1

def overwriting : Run := (List.replicate 7 round).flatten ++ request 0 ++ (request 1).take 4

def AvailBusy (s : State eight Unit (Fin 3)) : Bool :=
  decide (s.pc 1 = .submit () ⟨3, 4, 5⟩) && s.unread (slot eight s.disk.avail.idx)

theorem avail_overwritten : ∃ s : State eight Unit (Fin 3),
    run step (initial eight (Fin 3) fun _ => 0) overwriting = some s ∧
      ∃ t b c, s.pc t = .submit b c ∧ s.unread (slot eight s.disk.avail.idx) = true := by
  have hrun : (run step (initial eight (Fin 3) fun (_ : Unit) => 0) overwriting).map AvailBusy =
      some true := by decide +kernel
  obtain ⟨s, hs, hbusy⟩ := Option.map_eq_some_iff.mp hrun
  rw [AvailBusy, Bool.and_eq_true, decide_eq_true_eq] at hbusy
  exact ⟨s, hs, 1, (), _, hbusy⟩

end Raynix.VirtioCompletion
