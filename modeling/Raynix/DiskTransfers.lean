import Raynix.Lib.AtomicObject
import Raynix.VirtioCompletion

namespace Raynix.DiskTransfers

open Raynix.Lib Raynix.Lib.Transition Raynix.Virtio Raynix.VirtioStep Raynix.VirtioDescriptors
  Raynix.VirtioRequests Raynix.VirtioCompletion

variable {V : Params} {B T D : Type}

/-- The driver, the `data` of the buffers and the blocks of the disk by their first sector. `asked`
and `moved` are ghost: whether the last call of a thread was to write, and the requests whose data
the device has moved. -/
structure State (V : Params) (B T D : Type) where
  driver : Virtio.State V B T
  data : B → D
  blocks : BitVec 64 → D
  asked : T → Bool
  moved : List Nat

/-- A step of the driver or the device, the device moving the data of a request it has taken, or a
process writing the data of a buffer or giving it another block. -/
inductive Act (B T D : Type)
  | driver (a : Virtio.Act B T)
  | move (k : Nat)
  | write (b : B) (x : D)
  | assign (b : B) (n : BitVec 32)

/-- What the device finds in a chain: the header, the buffer and whether it may write there, and
whose status byte it is to set. -/
structure Order (B : Type) where
  header : BlkReq
  buffer : B
  writable : Bool
  status : Nat

/-- The device reads the chain of three descriptors from `head`. -/
def readChain (d : Disk V B) (head : BitVec 16) : Option (Order B) :=
  let first := d.desc head.toNat
  let second := d.desc first.next.toNat
  let third := d.desc second.next.toNat
  match first.addr, second.addr, third.addr with
  | .op i, .data b, .status j =>
    if first.len = 16 ∧ second.len = 1024 ∧ third.len = 1 ∧ first.flags = V.descFNext ∧
        second.flags &&& V.descFNext ≠ 0 ∧ third.flags = V.descFWrite then
      some ⟨d.ops i, b, decide (second.flags &&& V.descFWrite ≠ 0), j⟩
    else none
  | _, _, _ => none

variable [DecidableEq B]

/-- The device moves the data of an order, in the direction that its header and its second
descriptor agree on. -/
def carryOut (s : State V B T D) (r : Nat) (o : Order B) : Option (State V B T D) :=
  if o.header.type = V.blkTOut ∧ o.writable = false then
    some { s with
      blocks := Function.update s.blocks o.header.sector (s.data o.buffer)
      moved := r :: s.moved }
  else if o.header.type = V.blkTIn ∧ o.writable = true then
    some { s with
      data := Function.update s.data o.buffer (s.blocks o.header.sector)
      moved := r :: s.moved }
  else none

def move (s : State V B T D) (k : Nat) : Option (State V B T D) :=
  match s.driver.taken[k]? with
  | some q =>
    if q.r ∈ s.moved then none
    else (readChain s.driver.disk q.head).bind (carryOut s q.r)
  | none => none

/-- The device posts a request when it has moved its data. -/
def Ready (s : State V B T D) : Virtio.Act B T → Bool
  | .post k _ =>
    match s.driver.taken[k]? with
    | some q => decide (q.r ∈ s.moved)
    | none => false
  | _ => true

variable [DecidableEq T]

def noteAsked (asked : T → Bool) : Virtio.Act B T → T → Bool
  | .rw t _ write => Function.update asked t write
  | _ => asked

def step (s : State V B T D) : Act B T D → Option (State V B T D)
  | .driver a =>
    if Ready s a then
      (Virtio.step s.driver a).map fun d =>
        { s with driver := d, asked := noteAsked s.asked a }
    else none
  | .move k => move s k
  | .write b x => some { s with data := Function.update s.data b x }
  | .assign b n =>
    some { s with driver := { s.driver with disk := { s.driver.disk with
      blockno := Function.update s.driver.disk.blockno b n } } }

def start (V : Params) (T : Type) (data : B → D) (blocks : BitVec 64 → D)
    (blockno : B → BitVec 32) : State V B T D :=
  ⟨initial V T blockno, data, blocks, fun _ => false, []⟩

/-- A buffer is given to a call, or gets another block, only when no call on it is in progress. -/
def Fair (s : State V B T D) : Act B T D → Prop
  | .driver a => Distinct s.driver a
  | .assign b _ => ∀ u, (role (s.driver.pc u)).buffer ≠ some b
  | _ => True

/-- `b->blockno * (BSIZE / 512)`, a product of 32 bits -/
def sector (n : BitVec 32) : BitVec 64 := (n * 2).setWidth 64

/-- The chain `c` asks for the transfer of the buffer. -/
structure Describes (d : Disk V B) (c : Idx) (b : B) (write : Bool) : Prop where
  first : d.desc c.i0 = ⟨.op c.i0, 16, V.descFNext, BitVec.ofNat 16 c.i1⟩
  second : d.desc c.i1 = ⟨.data b, 1024, (if write then 0 else V.descFWrite) ||| V.descFNext,
    BitVec.ofNat 16 c.i2⟩
  third : d.desc c.i2 = ⟨.status c.i0, 1, V.descFWrite, 0⟩
  header : d.ops c.i0 = ⟨if write then V.blkTOut else V.blkTIn, 0, sector (d.blockno b)⟩

/-- The chain and the buffer of a thread that has filled in its descriptors. -/
def task : Pc B → Option (Idx × B)
  | .submit b c | .publish b c _ | .wait b c _ | .waitSleep b c _ | .finish b c _ => some (c, b)
  | _ => none

/-- The direction of a call that has not filled in its descriptors. -/
def direction : Pc B → Option Bool
  | .rwLock _ write | .alloc _ write | .allocSleep _ write | .format _ write _ => some write
  | _ => none

/-- What the driver has written down for each thread is what the thread has asked for. -/
structure Filled (s : Virtio.State V B T) (asked : T → Bool) : Prop where
  describes : ∀ t c b, task (s.pc t) = some (c, b) → Describes s.disk c b (asked t)
  asks : ∀ t write, direction (s.pc t) = some write → asked t = write

section Filled

variable {s s' : Virtio.State V B T} {asked asked' : T → Bool} {a : Virtio.Act B T} {t : T}
  {c : Idx}
  {b : B}

omit [DecidableEq B] in
theorem Describes.congr {d d' : Disk V B} {write : Bool} (h : Describes d c b write)
    (hdesc : ∀ i ∈ Idx.toList c, d'.desc i = d.desc i) (hops : d'.ops c.i0 = d.ops c.i0)
    (hblock : d'.blockno b = d.blockno b) : Describes d' c b write := by
  have h0 := hdesc c.i0 (mem_toList.mpr (.inl rfl))
  have h1 := hdesc c.i1 (mem_toList.mpr (.inr (.inl rfl)))
  have h2 := hdesc c.i2 (mem_toList.mpr (.inr (.inr rfl)))
  exact ⟨h0.trans h.first, h1.trans h.second, h2.trans h.third,
    hops.trans (by rw [hblock]; exact h.header)⟩

omit [DecidableEq B] in
theorem linkedChain_of_task {pc : Pc B} (h : task pc = some (c, b)) :
    linkedChain pc = some c ∧ (role pc).buffer = some b := by
  cases pc <;> cases h <;> exact ⟨rfl, rfl⟩

omit [DecidableEq B] in
theorem chain_of_task {pc : Pc B} (h : task pc = some (c, b)) : chain pc = some c :=
  chain_of_linkedChain (linkedChain_of_task h).1

theorem formatReq_describes (d : Disk V B) (b : B) (write : Bool)
    (hnodup : (Idx.toList c).Nodup) : Describes (formatReq d b write c) c b write := by
  obtain ⟨i0, i1, i2⟩ := c
  simp only [Idx.toList, List.nodup_cons, List.mem_cons, List.not_mem_nil, or_false, not_or,
    List.nodup_nil, and_true, not_false_eq_true] at hnodup
  obtain ⟨⟨h01, h02⟩, h12⟩ := hnodup
  refine ⟨?_, ?_, ?_, ?_⟩
  · simp only [formatReq, Function.update_of_ne h02, Function.update_of_ne h01,
      Function.update_self]
  · simp only [formatReq, Function.update_of_ne h12, Function.update_self]
  · simp only [formatReq, Function.update_self]
  · simp only [formatReq, Function.update_self]
    rfl

omit [DecidableEq B] [DecidableEq T] in
/-- A step that gives no thread a new chain and leaves those that there are. -/
theorem Filled.frame (h : Filled s asked)
    (htask : ∀ u c b, task (s'.pc u) = some (c, b) → task (s.pc u) = some (c, b) ∧
      ∀ i ∈ Idx.toList c, s'.disk.desc i = s.disk.desc i)
    (hdir : ∀ u write, direction (s'.pc u) = some write → direction (s.pc u) = some write)
    (hops : s'.disk.ops = s.disk.ops) (hblock : s'.disk.blockno = s.disk.blockno) :
    Filled s' asked := by
  refine ⟨fun u c b hu => ?_, fun u write hu => h.asks u write (hdir u write hu)⟩
  obtain ⟨hu, hdesc⟩ := htask u c b hu
  exact (h.describes u c b hu).congr hdesc (by rw [hops]) (by rw [hblock])

omit [DecidableEq B] in
theorem goto_eq_some {α : Type} (f : Pc B → Option α) {pc : Pc B}
    (h : f pc = none ∨ f pc = f (s.pc t)) {u : T} {x : α} (hu : f ((s.goto t pc).pc u) = some x) :
    f (s.pc u) = some x := by
  obtain ⟨rfl, hpc⟩ | ⟨-, hpc⟩ := goto_cases s t pc u
  · rw [hpc] at hu
    obtain h | h := h
    · cases h.symm.trans hu
    · exact h.symm.trans hu
  · rwa [hpc] at hu

omit [DecidableEq B] in
theorem Filled.goto (h : Filled s asked) {pc : Pc B} (hpc : s'.pc = (s.goto t pc).pc)
    (hdesc : s'.disk.desc = s.disk.desc) (hops : s'.disk.ops = s.disk.ops)
    (hblock : s'.disk.blockno = s.disk.blockno) (htask : task pc = none ∨ task pc = task (s.pc t))
    (hdir : direction pc = none ∨ direction pc = direction (s.pc t)) : Filled s' asked := by
  refine h.frame (fun u c b hu => ?_) (fun u write hu => ?_) hops hblock
  · rw [hpc] at hu
    exact ⟨goto_eq_some task htask hu, fun i _ => by rw [hdesc]⟩
  · rw [hpc] at hu
    exact goto_eq_some direction hdir hu

omit [DecidableEq B] in
theorem Filled.call (h : Filled s asked) (b : B) (write : Bool) :
    Filled (s.goto t (.rwLock b write)) (Function.update asked t write) := by
  refine ⟨fun u c b' hu => ?_, fun u w hu => ?_⟩
  · obtain ⟨rfl, hpc⟩ | ⟨hut, hpc⟩ := goto_cases s t (.rwLock b write) u
    · rw [hpc] at hu
      cases hu
    · rw [hpc] at hu
      rw [Function.update_of_ne hut]
      exact h.describes u c b' hu
  · obtain ⟨rfl, hpc⟩ | ⟨hut, hpc⟩ := goto_cases s t (.rwLock b write) u
    · rw [hpc] at hu
      cases hu
      exact Function.update_self ..
    · rw [hpc] at hu
      rw [Function.update_of_ne hut]
      exact h.asks u w hu

theorem Filled.format (h : Filled s asked) (O : Owned s) {write : Bool}
    (ht : s.pc t = .format b write c) :
    Filled { s.goto t (.submit b c) with disk := formatReq s.disk b write c } asked := by
  have hc : chain (s.pc t) = some c := by rw [ht]; rfl
  refine ⟨fun u c' b' hu => ?_, fun u w hu => ?_⟩
  · obtain ⟨rfl, hpc⟩ | ⟨hut, hpc⟩ := goto_cases s t (.submit b c) u
    · change task ((s.goto u (.submit b c)).pc u) = _ at hu
      rw [hpc] at hu
      cases hu
      rw [h.asks u write (by rw [ht]; rfl)]
      exact formatReq_describes s.disk b write (O.nodup u c hc)
    · change task ((s.goto t (.submit b c)).pc u) = _ at hu
      rw [hpc] at hu
      have hc' := chain_of_task hu
      refine (h.describes u c' b' hu).congr (fun i hi => ?_) ?_ rfl
      · exact formatReq_desc_not_mem s.disk b write (O.disjoint u t c' c hut hc' hc i hi)
      · exact Function.update_of_ne (head_ne O hut hc' hc) ..
  · exact h.asks u w (goto_eq_some direction (.inl rfl) hu)

omit [DecidableEq B] in
theorem Filled.finish (h : Filled s asked) (O : Owned s) {r : Nat} (ht : s.pc t = .finish b c r) :
    Filled (finishReq s t b c r) asked := by
  have hc : chain (s.pc t) = some c := by rw [ht]; rfl
  have hfc := freeChain_eq (d := { s.disk with infoB := Function.update s.disk.infoB c.i0 none })
    ((O.linked t c (by rw [ht]; rfl)).congr fun _ _ => rfl) (O.nodup t c hc) (O.used t c hc)
  rw [finishReq, hfc]
  refine h.frame (fun u c' b' hu => ?_) (fun u w hu => ?_) rfl rfl
  · change task ((s.goto t (.rwRelease b r)).pc u) = _ at hu
    obtain ⟨rfl, hpc⟩ | ⟨hut, hpc⟩ := goto_cases s t (.rwRelease b r) u
    · rw [hpc] at hu
      cases hu
    · rw [hpc] at hu
      refine ⟨hu, fun i hi => ?_⟩
      exact (freed3_not_mem _ (O.disjoint u t c' c hut (chain_of_task hu) hc i hi)).2
  · exact goto_eq_some direction (.inl rfl) hu

theorem Filled.step (h : Filled s asked) (O : Owned s) (hm : Move s a s') :
    Filled s' (noteAsked asked a) := by
  cases hm
  case rw t b write hpc => exact h.call b write
  case intr t hpc => exact h.goto rfl rfl rfl rfl (.inl rfl) (.inl rfl)
  case lockRw t b write hlock hpc =>
    refine h.goto rfl rfl rfl rfl (.inl rfl) (.inr ?_)
    obtain hpc | hpc := hpc <;> rw [hpc] <;> rfl
  case lockWait t b idx r hlock hpc =>
    exact h.goto rfl rfl rfl rfl (.inr (by rw [hpc]; rfl)) (.inl rfl)
  case lockIntr t hlock hpc => exact h.goto rfl rfl rfl rfl (.inl rfl) (.inl rfl)
  case allocFault t b write e hpc halloc => exact absurd halloc (alloc3Desc_ne_error O.zero e)
  case allocSome t b write d idx hpc halloc =>
    obtain ⟨rfl, -, -⟩ := alloc3Desc_eq_some O.zero halloc
    exact h.goto rfl rfl rfl rfl (.inl rfl) (.inr (by rw [hpc]; rfl))
  case allocNone t b write d hpc halloc =>
    obtain rfl := alloc3Desc_eq_none O.zero halloc
    exact h.goto rfl rfl rfl rfl (.inl rfl) (.inr (by rw [hpc]; rfl))
  case format t b write idx hpc => exact h.format O hpc
  case submit t b idx hpc =>
    exact h.goto rfl rfl rfl rfl (.inr (by rw [hpc]; rfl)) (.inl rfl)
  case publish t b idx r hpc =>
    exact h.goto rfl rfl rfl rfl (.inr (by rw [hpc]; rfl)) (.inl rfl)
  case waitBusy t b idx r hpc hdisk =>
    exact h.goto rfl rfl rfl rfl (.inr (by rw [hpc]; rfl)) (.inl rfl)
  case waitDone t b idx r hpc hdisk =>
    exact h.goto rfl rfl rfl rfl (.inr (by rw [hpc]; rfl)) (.inl rfl)
  case finish t b idx r hpc => exact h.finish O hpc
  case rwRelease t b r hpc => exact h.goto rfl rfl rfl rfl (.inl rfl) (.inl rfl)
  case intrNext t hpc hused => exact h.goto rfl rfl rfl rfl (.inl rfl) (.inl rfl)
  case intrDone t hpc => exact h.goto rfl rfl rfl rfl (.inl rfl) (.inl rfl)
  case intrBody t id r hpc =>
    unfold intrBody
    split
    · exact h.frame (fun u c b hu => ⟨hu, fun _ _ => rfl⟩) (fun _ _ hu => hu) rfl rfl
    · split
      · exact h.frame (fun u c b hu => ⟨hu, fun _ _ => rfl⟩) (fun _ _ hu => hu) rfl rfl
      · exact h.goto rfl rfl rfl rfl (.inl rfl) (.inl rfl)
  case consume hidx =>
    exact h.frame (fun u c b hu => ⟨hu, fun _ _ => rfl⟩) (fun _ _ hu => hu) rfl rfl
  case post k status q hq hs' =>
    rw [postReq, hq] at hs'
    obtain rfl := Option.some.inj hs'
    exact h.frame (fun u c b hu => ⟨hu, fun _ _ => rfl⟩) (fun _ _ hu => hu) rfl rfl

end Filled

end Raynix.DiskTransfers
