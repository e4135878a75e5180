import Raynix.DiskTransfers

namespace Raynix.AtomicDisk

open Raynix.Lib Raynix.Lib.Transition Raynix.Virtio Raynix.VirtioStep Raynix.VirtioDescriptors
  Raynix.VirtioRequests Raynix.VirtioCompletion Raynix.DiskTransfers
open Raynix.Lib.AtomicObject (Object Event)

variable {V : Params} {B T D : Type}

/-- The data of the buffers, the blocks of the disk and the block number of each buffer. -/
structure Contents (B D : Type) where
  data : B → D
  blocks : BitVec 64 → D
  blockno : B → BitVec 32

/-- `virtio_disk_rw(b, write)` -/
structure Call (B : Type) where
  buffer : B
  write : Bool

/-- What processes do to the buffers outside these calls. -/
inductive Change (B D : Type)
  | write (b : B) (x : D)
  | assign (b : B) (n : BitVec 32)

variable [DecidableEq B]

/-- The disk that the driver is to provide: a call moves the block of its buffer. -/
def disk : Object (Contents B D) (Call B) (Change B D) where
  act c o :=
    if c.write then
      { o with
        blocks := Function.update o.blocks (sector (o.blockno c.buffer)) (o.data c.buffer) }
    else
      { o with data := Function.update o.data c.buffer (o.blocks (sector (o.blockno c.buffer))) }
  change
    | .write b x, o => { o with data := Function.update o.data b x }
    | .assign b n, o => { o with blockno := Function.update o.blockno b n }

/-- The call of a thread by what it has to do, with whether the device has moved its data. -/
def progress (asked : Bool) (moved : List Nat) : Role B → Option (Call B × Bool)
  | .buf b | .submit b _ => some (⟨b, asked⟩, false)
  | .publish b _ r | .wait b _ r | .done b r => some (⟨b, asked⟩, decide (r ∈ moved))
  | .none | .entry _ _ => none

def view (s : State V B T D) : AtomicObject.State T (Contents B D) (Call B) :=
  ⟨⟨s.data, s.blocks, s.driver.disk.blockno⟩,
    fun t => progress (s.asked t) s.moved (role (s.driver.pc t))⟩

/-- What callers of the driver see of a step. -/
def seen (s : State V B T D) : Act B T D → List (Event T (Call B) (Change B D))
  | .driver (.rw t b write) => [.call t ⟨b, write⟩]
  | .driver (.run t) =>
    match s.driver.pc t with
    | .rwRelease _ _ => [.ret t]
    | _ => []
  | .driver _ | .move _ => []
  | .write b x => [.change (.write b x)]
  | .assign b n => [.change (.assign b n)]

structure Inv (s : State V B T D) : Prop where
  driver : VirtioCompletion.Inv (fun _ => True) s.driver
  filled : Filled s.driver s.asked
  posted : ∀ r ∈ s.driver.posted, r ∈ s.moved
  moved : ∀ r ∈ s.moved, r ∈ s.driver.posted ∨ ∃ q ∈ s.driver.taken, q.r = r

variable {s s' : State V B T D} {A K U : List (Req B T)} {e : Req B T} {t : T}

omit [DecidableEq B]

/-- The number of the request of a thread. -/
def number : Role B → Option Nat
  | .publish _ _ r | .wait _ _ r | .done _ r => some r
  | _ => none

theorem number_ne {Z : BitVec 8 → Prop} {s : Virtio.State V B T} (F : Flight Z s A K U)
    (he : e ∈ K) {u : T} (hu : u ≠ e.t) : number (role (s.pc u)) ≠ some e.r := by
  have hnodup := List.nodup_append.mp F.numbers
  have hmem : e.r ∈ (K ++ A).map Req.r := List.mem_map_of_mem (List.mem_append_left _ he)
  have hposted : e.r ∉ s.posted := fun h => hnodup.2.2 _ h _ hmem rfl
  intro h
  cases hrole : role (s.pc u) with
  | publish b c r =>
    rw [hrole] at h
    cases h
    exact (F.publishing u b c _ hrole).2 (List.mem_append_right _ hmem)
  | wait b c r =>
    rw [hrole] at h
    cases h
    cases hd : s.disk.disk b with
    | false => exact hposted (F.answered u b c _ hrole hd)
    | true =>
      have hin := F.complete u b c _ hrole hd
      rw [List.append_assoc, List.mem_append, List.mem_append] at hin
      have hKA : ∀ x ∈ K ++ A, x.t = u → x.r ≠ e.r := by
        intro x hx hxt hxr
        have hxe := List.inj_on_of_nodup_map hnodup.2.1 hx (List.mem_append_left _ he) hxr
        exact hu (hxt.symm.trans (congrArg Req.t hxe))
      obtain hA | hK | hU := hin
      · exact hKA _ (List.mem_append_right _ hA) rfl rfl
      · exact hKA _ (List.mem_append_left _ hK) rfl rfl
      · refine hposted ?_
        rw [← F.processed]
        exact List.mem_append_right _ (List.mem_map.mpr ⟨_, hU, rfl⟩)
  | done b r =>
    rw [hrole] at h
    cases h
    exact hposted (F.done u b _ hrole)
  | none | buf b | submit b c | entry id r =>
    rw [hrole] at h
    cases h

theorem progress_cons {asked : Bool} {moved : List Nat} {ρ : Role B} {r : Nat}
    (h : number ρ ≠ some r) : progress asked (r :: moved) ρ = progress asked moved ρ := by
  cases ρ with
  | publish b c r' | wait b c r' | done b r' =>
    have hne : r' ≠ r := fun hr => h (congrArg some hr)
    simp [progress, hne]
  | none | buf b | submit b c | entry id r => rfl

theorem task_of_wait {pc : Pc B} {b : B} {c : Idx} {r : Nat} (h : role pc = .wait b c r) :
    task pc = some (c, b) := by
  obtain rfl | rfl := wait_of_role h <;> rfl

theorem readChain_eq {d : Disk V B} {c : Idx} {b : B} {write : Bool} (hw : V.descFWrite ≠ 0)
    (h : Describes d c b write) (hc : ∀ i ∈ Idx.toList c, i < V.num) :
    readChain d (BitVec.ofNat 16 c.i0) =
      some ⟨⟨if write then V.blkTOut else V.blkTIn, 0, sector (d.blockno b)⟩, b, !write, c.i0⟩ := by
  have hnum := num_le V
  have hnat : ∀ i ∈ Idx.toList c, (BitVec.ofNat 16 i).toNat = i := by
    intro i hi
    have := hc i hi
    rw [BitVec.toNat_ofNat, Nat.mod_eq_of_lt (by omega)]
  have hand : V.descFNext &&& V.descFNext = V.descFNext := BitVec.and_self
  have hnext : ((if write then 0 else V.descFWrite) ||| V.descFNext) &&& V.descFNext ≠ 0 := by
    rw [BitVec.and_or_distrib_right, hand]
    cases write <;> simpa [V.write_next] using V.next_ne
  have hwritable : decide (((if write then 0 else V.descFWrite) ||| V.descFNext) &&&
      V.descFWrite ≠ 0) = !write := by
    rw [BitVec.and_or_distrib_right, BitVec.and_comm V.descFNext, V.write_next]
    cases write with
    | false => simpa using hw
    | true => simp
  simp only [readChain, hnat c.i0 (mem_toList.mpr (.inl rfl)), h.first,
    hnat c.i1 (mem_toList.mpr (.inr (.inl rfl))), h.second,
    hnat c.i2 (mem_toList.mpr (.inr (.inr rfl))), h.third, h.header, hnext, hwritable,
    ne_eq, not_false_eq_true, and_self, if_true]

/-- A request that the device has taken: its thread waits for it, and its chain says what the thread
has asked for. -/
theorem Inv.taken (I : Inv s) {k : Nat} {q : Taken B} (hq : s.driver.taken[k]? = some q) :
    ∃ A K U e, Flight (fun _ => True) s.driver A K U ∧ e ∈ K ∧ q = e.taken ∧
      role (s.driver.pc e.t) = .wait e.b e.idx e.r ∧
      Describes s.driver.disk e.idx e.b (s.asked e.t) ∧ ∀ i ∈ Idx.toList e.idx, i < V.num := by
  obtain ⟨A, K, U, F⟩ := I.driver.flight
  rw [F.takenEq, List.getElem?_map] at hq
  obtain ⟨e, he, rfl⟩ := Option.map_eq_some_iff.mp hq
  have heK : e ∈ K := List.mem_of_getElem? he
  have hmem : e ∈ A ++ K ++ U := List.mem_append_left _ (List.mem_append_right _ heK)
  have hrole := (F.waiting e hmem).1
  have htask := task_of_wait hrole
  refine ⟨A, K, U, e, F, heK, rfl, hrole, I.filled.describes e.t e.idx e.b htask, fun i hi => ?_⟩
  exact (I.driver.owned.used e.t e.idx (chain_of_task htask) i hi).1

theorem Inv.fresh (I : Inv s) : s.driver.requests ∉ s.moved := by
  obtain ⟨A, K, U, F⟩ := I.driver.flight
  intro h
  have hlt : s.driver.requests ∈ s.driver.posted ++ (K ++ A).map Req.r := by
    obtain h | ⟨q, hq, hr⟩ := I.moved _ h
    · exact List.mem_append_left _ h
    · rw [F.takenEq] at hq
      obtain ⟨e, he, rfl⟩ := List.mem_map.mp hq
      exact List.mem_append_right _ (List.mem_map.mpr ⟨e, List.mem_append_left _ he, hr⟩)
  exact Nat.lt_irrefl _ (F.numbered _ hlt)

theorem Inv.done (I : Inv s) {b : B} {r : Nat} (h : role (s.driver.pc t) = .done b r) :
    r ∈ s.moved := by
  obtain ⟨A, K, U, F⟩ := I.driver.flight
  exact I.posted r (F.done t b r h)

theorem start_inv (data : B → D) (blocks : BitVec 64 → D) (blockno : B → BitVec 32) :
    Inv (start V T data blocks blockno) := by
  refine ⟨⟨owned_initial blockno, held_initial blockno, [], [], [],
    initial_flight (fun _ => True) blockno⟩, ⟨fun t c b h => ?_, fun t w h => ?_⟩,
    fun r h => ?_, fun r h => ?_⟩
  all_goals cases h

section Steps

variable [DecidableEq B] [DecidableEq T]

omit [DecidableEq T] in
theorem move_taken {k : Nat} (h : move s k = some s') :
    ∃ q, s.driver.taken[k]? = some q ∧ q.r ∉ s.moved ∧
      (readChain s.driver.disk q.head).bind (carryOut s q.r) = some s' := by
  unfold move at h
  split at h
  case h_2 => cases h
  case h_1 q hq =>
    split at h
    case isTrue => cases h
    case isFalse hnew => exact ⟨q, hq, hnew, h⟩

/-- Moving the data of a request is the moment at which the call of its thread takes effect. -/
theorem move_simulates (I : Inv s) (hw : V.descFWrite ≠ 0) {k : Nat} {q : Taken B}
    (hq : s.driver.taken[k]? = some q) (h : move s k = some s') :
    (∃ t, (∀ u, number (role (s.driver.pc u)) = some q.r → u = t) ∧
      AtomicObject.step disk (view s) (.act t) = some (view s')) ∧ Inv s' := by
  obtain ⟨q', hq', hnew, h⟩ := move_taken h
  obtain rfl := Option.some.inj (hq.symm.trans hq')
  obtain ⟨A, K, U, e, F, heK, rfl, hrole, hdesc, hlt⟩ := I.taken hq
  have hsole : ∀ u, number (role (s.driver.pc u)) = some e.r → u = e.t := fun u hu =>
    by_contra fun hne => number_ne F heK hne hu
  have hcall : (view s).calls e.t = some (⟨e.b, s.asked e.t⟩, false) := by
    change progress (s.asked e.t) s.moved (role (s.driver.pc e.t)) = _
    rw [hrole]
    exact congrArg (fun d => some (_, d)) (decide_eq_false hnew)
  have hcalls : ∀ u, progress (s.asked u) (e.r :: s.moved) (role (s.driver.pc u)) =
      Function.update (view s).calls e.t (some (⟨e.b, s.asked e.t⟩, true)) u := by
    intro u
    by_cases hu : u = e.t
    · subst hu
      rw [Function.update_self, hrole]
      simp [progress]
    · rw [Function.update_of_ne hu]
      exact progress_cons (number_ne F heK hu)
  have hmoved : ∀ r ∈ e.r :: s.moved, r ∈ s.driver.posted ∨ ∃ q ∈ s.driver.taken, q.r = r := by
    intro r hr
    obtain rfl | hr := List.mem_cons.mp hr
    · exact .inr ⟨_, List.mem_of_getElem? hq, rfl⟩
    · exact I.moved r hr
  have hposted : ∀ r ∈ s.driver.posted, r ∈ e.r :: s.moved := fun r hr =>
    List.mem_cons_of_mem _ (I.posted r hr)
  rw [show (Req.taken e).head = BitVec.ofNat 16 e.idx.i0 from rfl, readChain_eq hw hdesc hlt,
    Option.bind_some] at h
  cases hasked : s.asked e.t with
  | true =>
    rw [hasked] at h hcall hcalls
    simp only [carryOut, if_true, Bool.not_true, and_self, Option.some.injEq] at h
    subst h
    refine ⟨⟨e.t, hsole, ?_⟩, I.driver, I.filled, hposted, hmoved⟩
    rw [AtomicObject.step_act hcall, ← funext hcalls]
    rfl
  | false =>
    rw [hasked] at h hcall hcalls
    simp only [carryOut, Bool.not_false, Bool.true_eq_false, and_false, if_false,
      Bool.false_eq_true, and_self, if_true, Option.some.injEq] at h
    subst h
    refine ⟨⟨e.t, hsole, ?_⟩, I.driver, I.filled, hposted, hmoved⟩
    rw [AtomicObject.step_act hcall, ← funext hcalls]
    rfl

/-- A step that the callers of the driver do not see. -/
theorem quiet {d : Virtio.State V B T} (hblock : d.disk.blockno = s.driver.disk.blockno)
    (hrole : ∀ u, progress (s.asked u) s.moved (role (d.pc u)) =
      progress (s.asked u) s.moved (role (s.driver.pc u))) :
    run (AtomicObject.step disk) (view s) [] = some (view { s with driver := d }) := by
  refine congrArg some (AtomicObject.State.ext ?_ (funext fun u => (hrole u).symm))
  exact congrArg (fun n => (⟨s.data, s.blocks, n⟩ : Contents B D)) hblock.symm

theorem quiet_goto {d : Virtio.State V B T} {pc : Pc B}
    (hblock : d.disk.blockno = s.driver.disk.blockno) (hpc : d.pc = (s.driver.goto t pc).pc)
    (h : progress (s.asked t) s.moved (role pc) =
      progress (s.asked t) s.moved (role (s.driver.pc t))) :
    run (AtomicObject.step disk) (view s) [] = some (view { s with driver := d }) := by
  refine quiet hblock fun u => ?_
  obtain ⟨rfl, hu⟩ | ⟨-, hu⟩ := goto_cases s.driver t pc u
  · rw [hpc, hu, h]
  · rw [hpc, hu]

/-- A step of the driver or the device is a call, a return, or not seen. -/
theorem driver_simulates (I : Inv s) {a : Virtio.Act B T} {d : Virtio.State V B T}
    (hm : Move s.driver a d) :
    run (AtomicObject.step disk) (view s) (seen s (.driver a)) =
      some (view { s with driver := d, asked := noteAsked s.asked a }) := by
  have hsee : ∀ es, seen s (.driver a) = es → run (AtomicObject.step disk) (view s) es =
      some (view { s with driver := d, asked := noteAsked s.asked a }) →
      run (AtomicObject.step disk) (view s) (seen s (.driver a)) =
        some (view { s with driver := d, asked := noteAsked s.asked a }) :=
    fun _ hes h => hes ▸ h
  cases hm
  case rw t b write hpc =>
    refine hsee [.call t ⟨b, write⟩] rfl ?_
    have hcall : (view s).calls t = none := by
      change progress _ _ (role (s.driver.pc t)) = none
      rw [hpc]
      rfl
    rw [run_cons, AtomicObject.step_call hcall, Option.bind_some, run_nil]
    refine congrArg some (AtomicObject.State.ext rfl (funext fun u => ?_))
    change Function.update (view s).calls t _ u = progress (Function.update s.asked t write u)
      s.moved (role ((s.driver.goto t (.rwLock b write)).pc u))
    obtain ⟨rfl, hu⟩ | ⟨hut, hu⟩ := goto_cases s.driver t (.rwLock b write) u
    · rw [hu, Function.update_self, Function.update_self]
      rfl
    · rw [hu, Function.update_of_ne hut, Function.update_of_ne hut]
      rfl
  case intr t hpc => exact hsee [] rfl (quiet_goto rfl rfl (by rw [hpc]; rfl))
  case lockRw t b write hlock hpc =>
    refine hsee [] rfl (quiet_goto rfl rfl ?_)
    obtain hpc | hpc := hpc <;> rw [hpc] <;> rfl
  case lockWait t b idx r hlock hpc => exact hsee [] rfl (quiet_goto rfl rfl (by rw [hpc]; rfl))
  case lockIntr t hlock hpc => exact hsee [] rfl (quiet_goto rfl rfl (by rw [hpc]; rfl))
  case allocFault t b write e hpc halloc =>
    exact absurd halloc (alloc3Desc_ne_error I.driver.owned.zero e)
  case allocSome t b write d idx hpc halloc =>
    obtain ⟨rfl, -, -⟩ := alloc3Desc_eq_some I.driver.owned.zero halloc
    exact hsee [] (by simp [seen, hpc]) (quiet_goto rfl rfl (by rw [hpc]; rfl))
  case allocNone t b write d hpc halloc =>
    obtain rfl := alloc3Desc_eq_none I.driver.owned.zero halloc
    exact hsee [] (by simp [seen, hpc]) (quiet_goto rfl rfl (by rw [hpc]; rfl))
  case format t b write idx hpc =>
    exact hsee [] (by simp [seen, hpc]) (quiet_goto rfl rfl (by rw [hpc]; rfl))
  case submit t b idx hpc =>
    refine hsee [] (by simp [seen, hpc]) (quiet_goto rfl rfl ?_)
    rw [hpc]
    simp [role, progress, I.fresh]
  case publish t b idx r hpc =>
    exact hsee [] (by simp [seen, hpc]) (quiet_goto rfl rfl (by rw [hpc]; rfl))
  case waitBusy t b idx r hpc hdisk =>
    exact hsee [] (by simp [seen, hpc]) (quiet_goto rfl rfl (by rw [hpc]; rfl))
  case waitDone t b idx r hpc hdisk =>
    exact hsee [] (by simp [seen, hpc]) (quiet_goto rfl rfl (by rw [hpc]; rfl))
  case finish t b idx r hpc =>
    refine hsee [] (by simp [seen, hpc]) ?_
    unfold finishReq
    split
    · exact quiet rfl fun u => rfl
    · rename_i d hd
      have hc : chain (s.driver.pc t) = some idx := by rw [hpc]; rfl
      have hlink := I.driver.owned.linked t idx (by rw [hpc]; rfl)
      have hfc := freeChain_eq
        (d := { s.driver.disk with infoB := Function.update s.driver.disk.infoB idx.i0 none })
        (hlink.congr fun _ _ => rfl) (I.driver.owned.nodup t idx hc) (I.driver.owned.used t idx hc)
      obtain rfl := Except.ok.inj (hfc.symm.trans hd)
      exact quiet_goto rfl rfl (by rw [hpc]; rfl)
  case rwRelease t b r hpc =>
    have hrole : role (s.driver.pc t) = .done b r := by rw [hpc]; rfl
    refine hsee [.ret t] (by simp [seen, hpc]) ?_
    have hcall : (view s).calls t = some (⟨b, s.asked t⟩, true) := by
      change progress _ _ (role (s.driver.pc t)) = _
      rw [hrole]
      exact congrArg (fun d => some (_, d)) (decide_eq_true (I.done hrole))
    rw [run_cons, AtomicObject.step_ret hcall, Option.bind_some, run_nil]
    refine congrArg some (AtomicObject.State.ext rfl (funext fun u => ?_))
    change Function.update (view s).calls t _ u =
      progress (s.asked u) s.moved (role ((s.driver.goto t .idle).pc u))
    obtain ⟨rfl, hu⟩ | ⟨hut, hu⟩ := goto_cases s.driver t .idle u
    · rw [hu, Function.update_self]
      rfl
    · rw [hu, Function.update_of_ne hut]
      rfl
  case intrNext t hpc hused =>
    exact hsee [] (by simp [seen, hpc]) (quiet_goto rfl rfl (by rw [hpc]; rfl))
  case intrDone t hpc => exact hsee [] (by simp [seen, hpc]) (quiet_goto rfl rfl (by rw [hpc]; rfl))
  case intrBody t id r hpc =>
    refine hsee [] (by simp [seen, hpc]) ?_
    unfold intrBody
    split
    · exact quiet rfl fun u => rfl
    · split
      · exact quiet rfl fun u => rfl
      · exact quiet_goto rfl rfl (by rw [hpc]; rfl)
  case consume hidx => exact hsee [] rfl (quiet rfl fun u => rfl)
  case post k status q hq hs' =>
    rw [postReq, hq] at hs'
    obtain rfl := Option.some.inj hs'
    exact hsee [] rfl (quiet rfl fun u => rfl)

theorem move_posted {s s' : Virtio.State V B T} {a : Virtio.Act B T} (hm : Move s a s') :
    s'.posted = s.posted ∧ (∀ q ∈ s.taken, q ∈ s'.taken) ∨
      ∃ k st q, a = .post k st ∧ s.taken[k]? = some q ∧ s'.posted = s.posted ++ [q.r] ∧
        s'.taken = s.taken.eraseIdx k := by
  cases hm
  case post k status q hq hs' =>
    rw [postReq, hq] at hs'
    obtain rfl := Option.some.inj hs'
    exact .inr ⟨k, status, q, rfl, hq, rfl, rfl⟩
  case consume hidx => exact .inl ⟨rfl, fun q hq => List.mem_append_left _ hq⟩
  case finish t b idx r hpc =>
    unfold finishReq
    split <;> exact .inl ⟨rfl, fun q hq => hq⟩
  case intrBody t id r hpc =>
    unfold intrBody
    split
    · exact .inl ⟨rfl, fun q hq => hq⟩
    · split <;> exact .inl ⟨rfl, fun q hq => hq⟩
  case allocFault t b write e hpc halloc => exact .inl ⟨rfl, fun q hq => hq⟩
  all_goals exact .inl ⟨rfl, fun q hq => hq⟩

theorem driver_inv (I : Inv s) {a : Virtio.Act B T} {d : Virtio.State V B T}
    (hd : Distinct s.driver a) (hready : Ready s a = true)
    (h : Virtio.step s.driver a = some d) :
    Inv { s with driver := d, asked := noteAsked s.asked a } := by
  obtain ⟨-, hm⟩ := step_move h
  refine ⟨I.driver.step hd (fun _ _ _ => trivial) h, I.filled.step I.driver.owned hm, ?_, ?_⟩
  · intro r hr
    obtain ⟨hposted, -⟩ | ⟨k, st, q, rfl, hq, hposted, -⟩ := move_posted hm
    · exact I.posted r (hposted ▸ hr)
    · change r ∈ d.posted at hr
      rw [hposted, List.mem_append, List.mem_singleton] at hr
      obtain hr | rfl := hr
      · exact I.posted r hr
      · simp only [Ready, hq] at hready
        exact of_decide_eq_true hready
  · intro r hr
    change r ∈ d.posted ∨ ∃ q ∈ d.taken, q.r = r
    obtain ⟨hposted, htaken⟩ | ⟨k, st, q, rfl, hq, hposted, htaken⟩ := move_posted hm
    · rw [hposted]
      exact (I.moved r hr).imp_right fun ⟨q, hq, hqr⟩ => ⟨q, htaken q hq, hqr⟩
    · rw [hposted, htaken, List.mem_append, List.mem_singleton]
      obtain hr | ⟨q', hq', rfl⟩ := I.moved r hr
      · exact .inl (.inl hr)
      · obtain ⟨hk, hkq⟩ := List.getElem?_eq_some_iff.mp hq
        obtain rfl | hq' := List.mem_cons.mp
          ((List.getElem_cons_eraseIdx_perm hk).mem_iff.mpr hq')
        · exact .inl (.inr (by rw [hkq]))
        · exact .inr ⟨q', hq', rfl⟩

omit [DecidableEq B] [DecidableEq T] in
theorem Inv.change (I : Inv s) (data : B → D) {blockno : B → BitVec 32}
    (hb : ∀ u b, (role (s.driver.pc u)).buffer = some b → blockno b = s.driver.disk.blockno b) :
    Inv { s with data := data, driver := { s.driver with
      disk := { s.driver.disk with blockno := blockno } } } := by
  have O := I.driver.owned
  obtain ⟨A, K, U, F⟩ := I.driver.flight
  refine ⟨⟨?_, I.driver.held, A, K, U, ?_⟩, ⟨fun u c b hu => ?_, I.filled.asks⟩, I.posted, I.moved⟩
  · exact O.congr rfl rfl (fun _ => rfl) (fun _ => rfl) O.no_panic
  · exact ⟨F.availQ, F.takenEq, F.usedQ, F.nodup, F.waiting, F.complete, F.submitted, F.published,
      F.entry, F.answered, F.done, F.buffers, F.unread, F.processed, F.numbers, F.numbered,
      F.publishing, F.status, F.faults⟩
  · exact (I.filled.describes u c b hu).congr (fun _ _ => rfl) rfl
      (hb u b (linkedChain_of_task hu).2)

omit [DecidableEq B] [DecidableEq T] in
theorem seen_visible (s : State V B T D) (a : Act B T D) :
    (seen s a).filter Event.visible = seen s a := by
  rw [List.filter_eq_self]
  intro e he
  unfold seen at he
  split at he
  case h_2 => split at he <;> simp_all [Event.visible]
  all_goals simp_all [Event.visible]

theorem step_simulates (I : Inv s) (hw : V.descFWrite ≠ 0) {a : Act B T D} (hfair : Fair s a)
    (h : DiskTransfers.step s a = some s') :
    (∃ es, run (AtomicObject.step disk) (view s) es = some (view s') ∧
      es.filter Event.visible = seen s a) ∧ Inv s' := by
  cases a with
  | driver a =>
    simp only [DiskTransfers.step, Option.ite_none_right_eq_some] at h
    obtain ⟨hready, h⟩ := h
    obtain ⟨d, hd, rfl⟩ := Option.map_eq_some_iff.mp h
    exact ⟨⟨_, driver_simulates I (step_move hd).2, seen_visible s _⟩, driver_inv I hfair hready hd⟩
  | move k =>
    obtain ⟨q, hq, -⟩ := move_taken h
    obtain ⟨⟨t, -, ht⟩, hI⟩ := move_simulates I hw hq h
    exact ⟨⟨[.act t], (run_singleton ..).trans ht, rfl⟩, hI⟩
  | write b x =>
    cases h
    exact ⟨⟨[.change (.write b x)], rfl, rfl⟩, I.driver, I.filled, I.posted, I.moved⟩
  | assign b n =>
    cases h
    refine ⟨⟨[.change (.assign b n)], rfl, rfl⟩, I.change s.data fun u b' hu => ?_⟩
    have hne : b' ≠ b := fun hb => hfair u (hb ▸ hu)
    exact Function.update_of_ne hne ..

/-- The driver, its interrupt handler and the device together are the one disk: whatever the
interleaving, each call moves the block of its buffer once, at one moment between its start and its
return. -/
theorem runs_atomic (hw : V.descFWrite ≠ 0) (data : B → D) (blocks : BitVec 64 → D)
    (blockno : B → BitVec 32) {as : List (Act B T D)}
    (hfair : Meets DiskTransfers.step Fair (start V T data blocks blockno) as)
    (h : run DiskTransfers.step (start V T data blocks blockno) as = some s) :
    ∃ es, run (AtomicObject.step disk) ⟨⟨data, blocks, blockno⟩, fun _ => none⟩ es =
        some (view s) ∧
      es.filter Event.visible =
        observed DiskTransfers.step seen (start V T data blocks blockno) as := by
  have hR : Inv (start V T data blocks blockno) ∧ (⟨⟨data, blocks, blockno⟩, fun _ => none⟩ :
      AtomicObject.State T (Contents B D) (Call B)) = view (start V T data blocks blockno) :=
    ⟨start_inv data blocks blockno, rfl⟩
  obtain ⟨es, t, hes, hseen, -, rfl⟩ := run_simulates
    (R := fun s u => Inv s ∧ u = view s) (fun s u a t ⟨I, hu⟩ hok hstep => by
      obtain ⟨⟨es, hes, hseen⟩, hI⟩ := step_simulates I hw hok hstep
      exact ⟨es, view t, hu ▸ hes, hseen, hI, rfl⟩) hR hfair h
  exact ⟨es, hes, hseen⟩

/-- Every request that the device has taken is a chain in memory that says what its caller has asked
for, until the device posts it; so the device can carry it out. -/
theorem chains_described (hw : V.descFWrite ≠ 0) (data : B → D) (blocks : BitVec 64 → D)
    (blockno : B → BitVec 32) {as : List (Act B T D)}
    (hfair : Meets DiskTransfers.step Fair (start V T data blocks blockno) as)
    (h : run DiskTransfers.step (start V T data blocks blockno) as = some s) {k : Nat}
    {q : Taken B} (hq : s.driver.taken[k]? = some q) :
    ∃ t b, (view s).calls t = some (⟨b, s.asked t⟩, decide (q.r ∈ s.moved)) ∧
      readChain s.driver.disk q.head =
        some ⟨⟨if s.asked t then V.blkTOut else V.blkTIn, 0, sector (s.driver.disk.blockno b)⟩, b,
          !s.asked t, q.head.toNat⟩ ∧
      (q.r ∉ s.moved → (move s k).isSome) := by
  have hI : Inv s := (always_of_meets
    (fun s a t hI hok hstep => (step_simulates hI hw hok hstep).2)
    (start_inv data blocks blockno) hfair).final h
  obtain ⟨A, K, U, e, F, heK, rfl, hrole, hdesc, hlt⟩ := hI.taken hq
  have hread : readChain s.driver.disk e.taken.head = _ := readChain_eq hw hdesc hlt
  have hhead : e.taken.head.toNat = e.idx.i0 :=
    F.head_toNat hI.driver.owned (List.mem_append_left _ (List.mem_append_right _ heK))
  rw [← hhead] at hread
  refine ⟨e.t, e.b, ?_, hread, fun hnew => ?_⟩
  · change progress (s.asked e.t) s.moved (role (s.driver.pc e.t)) = _
    rw [hrole]
    rfl
  · have hmove : move s k =
        (readChain s.driver.disk e.taken.head).bind (carryOut s e.taken.r) := by
      rw [move, hq]
      exact if_neg hnew
    rw [hmove, hread, Option.bind_some]
    cases hasked : s.asked e.t <;> simp [carryOut]

end Steps

local instance neZero_threads : NeZero 3 := ⟨by decide⟩

/-- Process 0 writes 7 to block 3 and reads it back into the buffer it has cleared. -/
def readBack : List (Act Unit (Fin 3) Nat) :=
  let transfer : List (Act Unit (Fin 3) Nat) :=
    [.driver .consume, .move 0, .driver (.post 0 0)] ++ (interrupt ++ finishCall 0).map .driver
  [.assign () 3, .write () 7, .driver (.rw 0 () true)] ++ (request 0).tail.map .driver ++
    transfer ++
    [.write () 0] ++ (request 0).map .driver ++ transfer

instance decidableFair (s : DiskTransfers.State eight Unit (Fin 3) Nat) (a) :
    Decidable (Fair s a) :=
  match a with
  | .driver a => decidableDistinct s.driver a
  | .assign b _ => inferInstanceAs (Decidable (∀ u, (role (s.driver.pc u)).buffer ≠ some b))
  | .move _ => isTrue trivial
  | .write _ _ => isTrue trivial

/-- No data, and an empty disk. -/
def blank : DiskTransfers.State eight Unit (Fin 3) Nat :=
  start eight (Fin 3) (fun _ => 0) (fun _ => 0) fun _ => 0

theorem readBack_fair : Meets DiskTransfers.step Fair blank readBack := by
  decide +kernel

theorem runs_atomic_readBack : ∃ s es, run DiskTransfers.step blank readBack = some s ∧
    s.data () = 7 ∧
    run (AtomicObject.step disk) ⟨⟨fun _ => 0, fun _ => 0, fun _ => 0⟩, fun _ => none⟩ es =
      some (view s) ∧
    es.filter Event.visible = observed DiskTransfers.step seen blank readBack := by
  have hrun : (run DiskTransfers.step blank readBack).map (fun s => s.data ()) = some 7 := by
    decide +kernel
  obtain ⟨s, hs, hdata⟩ := Option.map_eq_some_iff.mp hrun
  obtain ⟨es, hes, hseen⟩ := runs_atomic (V := eight) (by decide) _ _ _ readBack_fair hs
  exact ⟨s, es, hs, hdata, hes, hseen⟩

/-- The first steps of `readBack`, up to where the device has taken the write. -/
def writeTaken : List (Act Unit (Fin 3) Nat) := readBack.take 10

theorem writeTaken_fair : Meets DiskTransfers.step Fair blank writeTaken := by
  decide +kernel

theorem chains_described_writeTaken : ∃ s q t b,
    run DiskTransfers.step blank writeTaken = some s ∧ s.driver.taken[0]? = some q ∧
      (view s).calls t = some (⟨b, s.asked t⟩, decide (q.r ∈ s.moved)) ∧
      readChain s.driver.disk q.head =
        some ⟨⟨if s.asked t then 1 else 0, 0, sector (s.driver.disk.blockno b)⟩, b,
          !s.asked t, q.head.toNat⟩ := by
  have hrun : (run DiskTransfers.step blank writeTaken).map (fun s => s.driver.taken[0]?.isSome) =
      some true := by
    decide +kernel
  obtain ⟨s, hs, htaken⟩ := Option.map_eq_some_iff.mp hrun
  obtain ⟨q, hq⟩ := Option.isSome_iff_exists.mp htaken
  obtain ⟨t, b, hcall, hread, -⟩ :=
    chains_described (V := eight) (by decide) _ _ _ writeTaken_fair hs hq
  exact ⟨s, q, t, b, hs, hq, hcall, hread⟩

end Raynix.AtomicDisk
