import Raynix.KernelMachine

namespace Raynix.LockRules

open Raynix.Kernel Raynix.Lib.Command Raynix.Lib.Memory

/-- The locks of a thread from operation to operation, where `E` is to hold at each `enter_sched`
and `X` where a function called from outside returns. -/
def lockSpec (E : List Fn → Locks → Prop) (X : Fn → Option Value → Locks → Prop) :
    Spec Prim Fn Locks where
  pre ns o Q l :=
    Q (l.after o) ∧
      match o with
      | .enterSched => E ns l
      | .exit f v => X f v l
      | _ => True
  mono _ _ _ _ hQR _ h := ⟨hQR _ h.1, h.2⟩

def take (lock : Splk) (l : Locks) : Locks := ⟨lock ::ₘ l.held, l.layer + 1⟩

def give (lock : Splk) (l : Locks) : Locks := ⟨l.held.erase lock, l.layer - 1⟩

/-- The locks after `sleep` has given the lock back and taken it again. -/
def retake (lock : Splk) (l : Locks) : Locks := ⟨lock ::ₘ l.held.erase lock, l.layer⟩

@[simp]
theorem give_take (lock : Splk) (l : Locks) : give lock (take lock l) = l := by
  ext1
  · exact Multiset.erase_cons_head lock l.held
  · exact BitVec.add_sub_cancel l.layer 1

@[simp]
theorem give_take_take (lock lock' : Splk) (l : Locks) :
    give lock (take lock' (take lock l)) = take lock' l := by
  ext1
  · change (lock' ::ₘ lock ::ₘ l.held).erase lock = _
    rw [Multiset.cons_swap]
    exact Multiset.erase_cons_head lock _
  · exact BitVec.add_sub_cancel (l.layer + 1) 1

theorem take_give_give_take (lock lock' : Splk) (l : Locks) :
    take lock (give lock' (give lock (take lock' l))) = retake lock l := by
  ext1
  · change lock ::ₘ ((lock' ::ₘ l.held).erase lock).erase lock' = _
    rw [Multiset.erase_comm, Multiset.erase_cons_head]
    rfl
  · change l.layer + 1 - 1 - 1 + 1 = l.layer
    rw [BitVec.add_sub_cancel, BitVec.sub_add_cancel]

@[simp]
theorem retake_take (lock : Splk) (l : Locks) : retake lock (take lock l) = take lock l := by
  ext1
  · exact congrArg (lock ::ₘ ·) (Multiset.erase_cons_head lock l.held)
  · rfl

variable {E : List Fn → Locks → Prop} {X : Fn → Option Value → Locks → Prop} {m : Macros} {t : Nat}
  {cur : Option (Fin 64)} {ns : List Fn} {P : Post Value Locks} {l : Locks}

@[simp]
theorem pre_swtch {Q : Locks → Prop} : (lockSpec E X).pre ns .swtch Q l ↔ Q l :=
  and_iff_left trivial

@[simp]
theorem pre_init {lock : Splk} {Q : Locks → Prop} : (lockSpec E X).pre ns (.init lock) Q l ↔ Q l :=
  and_iff_left trivial

@[simp]
theorem pre_copy {p : Fin 64} {u : Nat} {Q : Locks → Prop} :
    (lockSpec E X).pre ns (.copy p u) Q l ↔ Q l :=
  and_iff_left trivial

@[simp]
theorem pre_enterSched {Q : Locks → Prop} :
    (lockSpec E X).pre ns .enterSched Q l ↔ Q l ∧ E ns l :=
  Iff.rfl

@[simp]
theorem wlp_acquire {lock : Splk} :
    wlp (lockSpec E X) (acquire lock) ns P l ↔ P.normal (take lock l) := by
  simp [acquire, lockSpec, take, Locks.after]

@[simp]
theorem wlp_release {lock : Splk} :
    wlp (lockSpec E X) (release lock) ns P l ↔ P.normal (give lock l) := by
  simp [release, lockSpec, give, Locks.after]

theorem wlp_kalloc (h : ∀ a, P.ret (.addr a) l) : wlp (lockSpec E X) kalloc ns P l := by
  simp [kalloc, h]

theorem wlp_withAddr {f : Fn} {c : Code} {k : Addr → Code}
    (hc : ∀ Q : Post Value Locks, (∀ a, Q.ret (.addr a) l) → wlp (lockSpec E X) c (f :: ns) Q l)
    (hk : ∀ a, wlp (lockSpec E X) (k a) ns P l) :
    wlp (lockSpec E X) (.call f c (withAddr k)) ns P l :=
  hc _ hk

theorem wlp_walkFrom {is : List Nat} {pagetable va : Addr} (h : ∀ a, P.ret (.addr a) l) :
    wlp (lockSpec E X) (walkFrom pagetable va is) ns P l := by
  induction is generalizing pagetable with
  | nil => exact h _
  | cons i is ih =>
    refine fun s => ⟨ih, ?_⟩
    exact wlp_withAddr (fun Q hQ => wlp_kalloc hQ) (fun a => ih)

theorem wlp_walk {pagetable va : Addr} (h : ∀ a, P.ret (.addr a) l) :
    wlp (lockSpec E X) (walk pagetable va) ns P l :=
  wlp_walkFrom h

theorem wlp_findPa {pagetable va : Addr} (h : ∀ a, P.ret (.addr a) l) :
    wlp (lockSpec E X) (findPa pagetable va) ns P l :=
  wlp_withAddr (fun _ hQ => wlp_walk hQ) (fun _ _ => h _)

theorem wlp_copyIn {pagetable addr : Addr} (h : ∀ b, P.ret (.byte b) l) :
    wlp (lockSpec E X) (copyIn pagetable addr) ns P l :=
  wlp_withAddr (fun _ hQ => wlp_findPa hQ) (fun _ _ => h _)

theorem wlp_copyOut {pagetable target : Addr} {source : Byte} (h : P.normal l) :
    wlp (lockSpec E X) (copyOut pagetable target source) ns P l :=
  wlp_withAddr (fun _ hQ => wlp_findPa hQ) (fun _ => h)

theorem wlp_map {va pa pagetable : Addr} {size permission : Word} (h : P.normal l) :
    wlp (lockSpec E X) (map va pa pagetable size permission) ns P l :=
  wlp_rounds (fun _ => wlp_withAddr (fun _ hQ => wlp_walk hQ) (fun _ => rfl)) h

theorem wlp_callMap {va pa pagetable : Addr} {size permission : Word} (h : P.normal l) :
    wlp (lockSpec E X) (callMap va pa pagetable size permission) ns P l :=
  wlp_invoke (wlp_map h)

theorem wlp_kvmInit (h : P.normal l) : wlp (lockSpec E X) (kvmInit m) ns P l := by
  refine wlp_withAddr (fun _ hQ => wlp_kalloc hQ) (fun a => ?_)
  have hkstack : wlp (lockSpec E X) (initProcKstack a) ns P l :=
    wlp_each (fun i => wlp_withAddr (fun _ hQ => wlp_kalloc hQ) (fun _ => wlp_callMap rfl)) h
  simp only [fatalPaMap, wlp_block_cons, wlp_act]
  iterate 6 refine wlp_callMap ?_
  exact hkstack

theorem wlp_main {tp : Nat} (h : P.normal l) : wlp (lockSpec E X) (main m tp) ns P l :=
  ⟨wlp_invoke (wlp_kvmInit h), h⟩

theorem wlp_scheduler : wlp (lockSpec E X) scheduler ns P l := by
  refine wlp_forever (wlp_each (fun i => ?_) rfl)
  simp

theorem wlp_wakeup {channel : Channel} (h : P.normal l) :
    wlp (lockSpec E X) (wakeup t channel) ns P l := by
  refine wlp_each (fun i => ?_) h
  simp

theorem wlp_callWakeup {channel : Channel} (h : P.normal l) :
    wlp (lockSpec E X) (callWakeup t channel) ns P l :=
  wlp_invoke (wlp_wakeup h)

theorem wlp_sleep {channel : Channel} {lock : Splk}
    (hE : ∀ p, cur = some p → E ns (give lock (take (.proc p) l))) (h : P.normal (retake lock l)) :
    wlp (lockSpec E X) (sleep cur channel lock) ns P l := by
  cases cur with
  | none => trivial
  | some p =>
    simp only [sleep, wlp_block_cons, wlp_block_singleton, wlp_act, wlp_op, wlp_acquire,
      wlp_release, pre_enterSched, take_give_give_take]
    exact ⟨h, hE p rfl⟩

/-- A thread with the locks `l` and one to give back meets `E` when it calls `sleep`. -/
def MaySleep (E : List Fn → Locks → Prop) (cur : Option (Fin 64)) (ns : List Fn)
    (l : Locks) : Prop :=
  ∀ p channel lock, cur = some p → E (.sleep channel lock :: ns) (take (.proc p) l)

theorem wlp_callSleep {channel : Channel} {lock : Splk} (hE : MaySleep E cur ns l)
    (h : P.normal (take lock l)) :
    wlp (lockSpec E X) (callSleep cur channel lock) ns P (take lock l) := by
  refine wlp_invoke (wlp_sleep (fun p hp => ?_) ?_)
  · rw [give_take_take]
    exact hE p channel lock hp
  · rwa [retake_take]

theorem wlp_acquireSleep {sllk : Sllk} (hE : MaySleep E cur ns l) (h : P.normal l) :
    wlp (lockSpec E X) (acquireSleep cur sllk) ns P l := by
  simp only [acquireSleep, wlp_block_cons, wlp_acquire]
  refine wlp_while (wlp_callSleep hE rfl) ?_
  simpa using h

theorem wlp_callAcquireSleep {sllk : Sllk} (hE : MaySleep E cur (.acquireSleep sllk :: ns) l)
    (h : P.normal l) : wlp (lockSpec E X) (callAcquireSleep cur sllk) ns P l :=
  wlp_invoke (wlp_acquireSleep hE h)

theorem wlp_releaseSleep {sllk : Sllk} (h : P.normal l) :
    wlp (lockSpec E X) (releaseSleep t sllk) ns P l := by
  simp only [releaseSleep, wlp_block_cons, wlp_acquire]
  refine wlp_callWakeup ?_
  simpa using h

theorem wlp_sleeplockInit {sllk : Sllk} (h : P.normal l) :
    wlp (lockSpec E X) (sleeplockInit sllk) ns P l :=
  ⟨h, trivial⟩

theorem wlp_begainOp (hE : MaySleep E cur ns l) (h : P.normal l) :
    wlp (lockSpec E X) (begainOp m cur) ns P l := by
  simp only [begainOp, wlp_block_cons, wlp_acquire]
  refine wlp_forever ⟨wlp_callSleep hE rfl, wlp_callSleep hE rfl, ?_⟩
  simpa using h

theorem wlp_pipeWrite {pi : Nat} {startAddr : Addr} {len : Int} (hE : MaySleep E cur ns l)
    (hret : P.ret .unit l) (h : P.normal l) :
    wlp (lockSpec E X) (pipeWrite t cur pi startAddr len) ns P l := by
  simp only [pipeWrite, wlp_block_cons, wlp_acquire]
  refine wlp_rounds (fun i => ?_) ?_
  · simp only [wlp_block_cons, wlp_ite, wlp_release, give_take]
    refine ⟨hret, wlp_callWakeup (wlp_callSleep hE rfl), ?_⟩
    cases cur with
    | none => trivial
    | some p => exact fun s => wlp_copyIn (fun b => rfl)
  · refine wlp_callWakeup ?_
    simpa using h

theorem wlp_pipeRead {pi : Nat} {target : Addr} {len : Int} (hE : MaySleep E cur ns l)
    (h : ∀ i, P.ret (.int i) l) : wlp (lockSpec E X) (pipeRead t cur pi target len) ns P l := by
  simp only [pipeRead, wlp_block_cons, wlp_acquire]
  refine wlp_while (wlp_callSleep hE rfl) ?_
  refine wlp_rounds (fun i => ⟨?_, fun s => ?_⟩) ?_
  · refine wlp_callWakeup ?_
    simpa using fun s : Data => h (s.outerI t)
  · cases cur with
    | none => trivial
    | some p => exact fun s => wlp_invoke (wlp_copyOut rfl)
  · refine wlp_callWakeup ?_
    simpa using fun s : Data => h (s.outerI t)

theorem wlp_freeDesc {i : Int} (h : P.normal l) : wlp (lockSpec E X) (freeDesc m t i) ns P l :=
  ⟨trivial, trivial, wlp_callWakeup h⟩

theorem wlp_callFreeDesc {i : Int} (h : P.normal l) :
    wlp (lockSpec E X) (callFreeDesc m t i) ns P l :=
  wlp_invoke (wlp_freeDesc h)

theorem wlp_freeChain {i : Int} (h : P.normal l) : wlp (lockSpec E X) (freeChain m t i) ns P l := by
  refine wlp_loop (fun i s => ?_) h
  simp only [wlp_block_cons, wlp_act]
  exact wlp_callFreeDesc ⟨rfl, h⟩

theorem wlp_alloc3Desc (h : ∀ i, P.ret (.int i) l) :
    wlp (lockSpec E X) (alloc3Desc m t) ns P l := by
  refine wlp_rounds (fun i => ⟨?_, rfl⟩) (h 0)
  exact wlp_rounds (fun j s => wlp_callFreeDesc rfl) (h (-1))

theorem wlp_virtioDiskRw {b : Fin 30} {write : Bool} (hE : MaySleep E cur ns l) (h : P.normal l) :
    wlp (lockSpec E X) (virtioDiskRw m t cur b write) ns P l := by
  simp only [virtioDiskRw, wlp_block_cons, wlp_acquire]
  refine wlp_forever (wlp_alloc3Desc fun i => ⟨?_, wlp_callSleep hE rfl⟩)
  refine wlp_while (wlp_callSleep hE rfl) fun s => ?_
  refine wlp_invoke (wlp_freeChain ?_)
  simpa using h

theorem wlp_callVirtioDiskRw {b : Fin 30} {write : Bool}
    (hE : MaySleep E cur (.virtioDiskRw b write :: ns) l) (h : P.normal l) :
    wlp (lockSpec E X) (callVirtioDiskRw m t cur b write) ns P l :=
  wlp_invoke (wlp_virtioDiskRw hE h)

/-- `bget` sleeps with `cache.lock`; where it returns it has given the lock back, but where it runs
off its end it still has it. -/
theorem wlp_bget {dev blockNo : BitVec 32}
    (hE : ∀ i, MaySleep E cur (.acquireSleep (.buffer i) :: ns) (take .cache l))
    (hret : ∀ i, P.ret (.buf i) l) (h : P.normal (take .cache l)) :
    wlp (lockSpec E X) (bget cur dev blockNo) ns P l := by
  have htake : ∀ i update (Q : Post Value Locks), (∀ j, Q.ret (.buf j) l) →
      wlp (lockSpec E X) (takeBuffer cur i update) ns Q (take .cache l) := by
    intro i update Q hQ
    simp only [takeBuffer, wlp_block_cons, wlp_act]
    refine wlp_callAcquireSleep (hE i) ?_
    simpa using hQ i
  simp only [bget, findCached, findUnused, wlp_block_cons, wlp_letin, wlp_acquire]
  intro s
  refine wlp_loop (fun cursor => ?_) ?_
  · cases cursor with
    | head => rfl
    | buf i => exact ⟨htake i _ _ hret, rfl⟩
  · intro s
    refine wlp_loop (fun cursor => ?_) h
    cases cursor with
    | head => rfl
    | buf i => exact ⟨htake i _ _ hret, rfl⟩

theorem wlp_bread {dev blockNo : BitVec 32}
    (hE : ∀ b, MaySleep E cur (.virtioDiskRw b false :: ns) l)
    (hEbget : ∀ i, MaySleep E cur (.acquireSleep (.buffer i) :: .bget dev blockNo :: ns)
      (take .cache l))
    (h : ∀ i, P.ret (.buf i) l) : wlp (lockSpec E X) (bread m t cur dev blockNo) ns P l := by
  refine wlp_bget hEbget (fun i => ?_) trivial
  simp only [wlp_block_cons]
  exact ⟨h i, wlp_callVirtioDiskRw (hE _) (h i)⟩

theorem wlp_bwrite {buffer : Fin 30} (hE : MaySleep E cur (.virtioDiskRw buffer true :: ns) l)
    (h : P.normal l) : wlp (lockSpec E X) (bwrite m t cur buffer) ns P l :=
  wlp_callVirtioDiskRw hE h

theorem wlp_brelease {buffer : Fin 30} (h : P.normal l) :
    wlp (lockSpec E X) (brelease t buffer) ns P l := by
  simp only [brelease, wlp_block_cons]
  refine wlp_invoke (wlp_releaseSleep ?_)
  simpa using h

theorem wlp_binitLoop {cursor : Fin 30} {is : List (Fin 30)} (h : P.normal l) :
    wlp (lockSpec E X) (binitLoop cursor is) ns P l := by
  induction is generalizing cursor with
  | nil => exact h
  | cons i is ih => exact wlp_invoke (wlp_sleeplockInit ih)

theorem wlp_binit (h : P.normal l) : wlp (lockSpec E X) binit ns P l :=
  ⟨wlp_invoke (wlp_sleeplockInit (wlp_binitLoop h)), trivial⟩

theorem wlp_uartInit (h : P.normal l) : wlp (lockSpec E X) uartInit ns P l :=
  ⟨h, trivial⟩

theorem wlp_uartSend (h : P.ret .unit l) : wlp (lockSpec E X) uartSend ns P l :=
  wlp_forever ⟨h, h, rfl⟩

theorem wlp_uartInput {c : BitVec 32} (h : P.normal l) :
    wlp (lockSpec E X) (uartInput c) ns P l := by
  simp only [uartInput, wlp_block_cons, wlp_acquire]
  refine wlp_while rfl (wlp_invoke (wlp_uartSend ?_))
  simpa using h

theorem wlp_consloeInputHandler {c : BitVec 32} (h : P.normal (take .console l)) :
    wlp (lockSpec E X) (consloeInputHandler c) ns P l :=
  wlp_acquire.mpr h

/-- Every round of `uart_inter` that reads a byte leaves `console.lock` taken; it never ends. -/
theorem wlp_uartInter : wlp (lockSpec E X) uartInter ns P l := by
  simp only [uartInter, wlp_block_cons]
  refine ⟨fun _ => True, trivial, fun q _ => ⟨fun _ _ _ => ⟨fun s => ?_, trivial⟩, ?_⟩⟩
  · exact wlp_invoke (wlp_consloeInputHandler trivial)
  · exact fun _ _ h => by cases h

section Run

variable {cur : Nat → Option (Fin 64)} {s s' : State} {a : Act} {last : Locks → Prop}

theorem step_safe (h : step m cur s a = some s') (hcall : ∀ f, a ≠ .call t f)
    (hs : Safe (lockSpec E X) last (s.thread t).stack (s.thread t).locks) :
    Safe (lockSpec E X) last (s'.thread t).stack (s'.thread t).locks ∧
      (s'.thread t).base = (s.thread t).base := by
  obtain ht | ⟨f, ha, -⟩ | ⟨d, st, -, hadvance, ht⟩ | ⟨o, st, -, hadvance, ht⟩ := step_thread h t
  · rw [ht]
    exact ⟨hs, rfl⟩
  · exact absurd ha (hcall f)
  · rw [ht]
    exact ⟨advance_inner hadvance hs, rfl⟩
  · rw [ht]
    exact ⟨(advance_op hadvance hs).1, rfl⟩

end Run

end Raynix.LockRules
