import Raynix.Lib.WaitGraph
import Raynix.LockRules

namespace Raynix.LockOrder

open Raynix.Kernel Raynix.Lib.Command Raynix.Lib.Memory Raynix.LockRules

local instance neZero_ranks : NeZero 3 := ⟨by decide⟩

/-- `cache.lock` is taken first, and nothing is taken under the locks of the page list and of the
processes. -/
def rank : Splk → Fin 3
  | .cache => 0
  | .inner _ | .pipe _ | .log | .uartTx | .console | .vdisk => 1
  | .pageList | .proc _ | .cursor _ => 2

@[simp]
theorem rank_inner (sllk : Sllk) : rank (.inner sllk) = 1 := rfl

@[simp]
theorem rank_pipe (pi : Nat) : rank (.pipe pi) = 1 := rfl

def Ranked (r : Fin 3) (l : Locks) : Prop := ∀ lock ∈ l.held, rank lock < r

/-- The locks have been taken in order, and the layer counts them. -/
structure Below (r : Fin 3) (l : Locks) : Prop where
  ranked : Ranked r l
  card_le : l.held.card ≤ r.val
  layer : l.layer = BitVec.ofNat 32 l.held.card

/-- The lock of process `p` and no other one. -/
def handed (p : Fin 64) : Locks := take (.proc p) noLocks

theorem handed_held (p : Fin 64) : (handed p).held = {Splk.proc p} := rfl

/-- The lock is not in the copy of a process that another thread has made. -/
def NotForeign (t : Nat) (lock : Splk) : Prop := ∀ u, lock = .cursor u → u = t

/-- Thread `t` takes locks in order, gives back what it holds and initialises none. Where it leaves
its hart, and where a scheduler switches to a process, the lock of the process is all it holds. -/
def inOrder (t : Nat) (cur : Option (Fin 64)) : Spec Prim Fn Locks where
  pre _ o Q l :=
    Q (l.after o) ∧
      match o with
      | .take lock => Ranked (rank lock) l ∧ NotForeign t lock
      | .give lock => lock ∈ l.held
      | .copy _ u => u = t
      | .init _ => False
      | .enterSched => l.layer = 1 → ∃ p, cur = some p ∧ l = handed p
      | .swtch => ∃ p, l = handed p
      | _ => True
  mono _ _ _ _ hQR _ h := ⟨hQR _ h.1, h.2⟩

theorem Below.mono {r r' : Fin 3} {l : Locks} (h : Below r l) (hr : r ≤ r') : Below r' l :=
  ⟨fun lock hlock => (h.ranked lock hlock).trans_le hr, h.card_le.trans hr, h.layer⟩

theorem Below.take {r r' : Fin 3} {l : Locks} {lock : Splk} (h : Below r l) (hr : r < r')
    (hlock : rank lock < r') : Below r' (take lock l) := by
  refine ⟨fun k hk => ?_, ?_, ?_⟩
  · obtain rfl | hk := Multiset.mem_cons.mp hk
    · exact hlock
    · exact (h.ranked k hk).trans hr
  · change (lock ::ₘ l.held).card ≤ r'.val
    rw [Multiset.card_cons]
    exact Nat.succ_le_of_lt (h.card_le.trans_lt hr)
  · change l.layer + 1 = BitVec.ofNat 32 (lock ::ₘ l.held).card
    rw [Multiset.card_cons, BitVec.ofNat_add, ← h.layer]
    rfl

/-- At layer 1 the lock taken last is the only one. -/
theorem Below.eq_handed {r : Fin 3} {l : Locks} (h : Below r l) {p : Fin 64}
    (hlayer : (LockRules.take (.proc p) l).layer = 1) : LockRules.take (.proc p) l = handed p := by
  have hle := h.card_le
  have hr := r.isLt
  change l.layer + 1 = 1 at hlayer
  have hzero : l.layer = 0 := by simpa using hlayer
  have hcard : l.held.card = 0 := by
    have hnat := congrArg BitVec.toNat (h.layer.symm.trans hzero)
    rw [BitVec.toNat_ofNat, Nat.mod_eq_of_lt (by omega)] at hnat
    exact hnat
  have hl : l = noLocks := by
    ext1
    · exact Multiset.card_eq_zero.mp hcard
    · exact hzero
  rw [hl, handed]

theorem below_noLocks (r : Fin 3) : Below r noLocks :=
  ⟨fun _ h => absurd h (Multiset.notMem_zero _), Nat.zero_le _, rfl⟩

theorem mem_take (lock : Splk) (l : Locks) : lock ∈ (take lock l).held :=
  Multiset.mem_cons_self lock l.held

theorem mem_take_take (lock lock' : Splk) (l : Locks) : lock ∈ (take lock' (take lock l)).held :=
  Multiset.mem_cons_of_mem (mem_take lock l)

variable {m : Macros} {t : Nat} {cur : Option (Fin 64)} {ns : List Fn} {P : Post Value Locks}
  {l : Locks}

@[simp]
theorem pre_swtch {Q : Locks → Prop} :
    (inOrder t cur).pre ns .swtch Q l ↔ Q l ∧ ∃ p, l = handed p :=
  Iff.rfl

@[simp]
theorem pre_enterSched {Q : Locks → Prop} : (inOrder t cur).pre ns .enterSched Q l ↔
    Q l ∧ (l.layer = 1 → ∃ p, cur = some p ∧ l = handed p) :=
  Iff.rfl

@[simp]
theorem pre_copy {p : Fin 64} {Q : Locks → Prop} : (inOrder t cur).pre ns (.copy p t) Q l ↔ Q l :=
  and_iff_left rfl

@[simp]
theorem wlp_acquire {lock : Splk} :
    wlp (inOrder t cur) (acquire lock) ns P l ↔
      P.normal (take lock l) ∧ Ranked (rank lock) l ∧ NotForeign t lock := by
  simp [acquire, inOrder, take, Locks.after, Ranked]

@[simp]
theorem wlp_release {lock : Splk} :
    wlp (inOrder t cur) (release lock) ns P l ↔ P.normal (give lock l) ∧ lock ∈ l.held := by
  simp [release, inOrder, give, Locks.after]

theorem notForeign {lock : Splk} (h : ∀ u, lock ≠ .cursor u) : NotForeign t lock :=
  fun u hu => absurd hu (h u)

theorem notForeign_cursor : NotForeign t (.cursor t) := by
  rintro u ⟨⟩
  rfl

theorem wlp_firstRun {p : Fin 64} (h : P.normal noLocks) :
    wlp (inOrder t cur) (release (.proc p)) ns P (handed p) := by
  rw [handed, wlp_release, give_take]
  exact ⟨h, mem_take _ _⟩

theorem wlp_kalloc (hl : Below 2 l) (h : ∀ a, P.ret (.addr a) l) :
    wlp (inOrder t cur) kalloc ns P l := by
  simp only [kalloc, wlp_block_cons, wlp_acquire]
  refine ⟨fun s => ?_, hl.ranked, notForeign (by simp)⟩
  simp [h, mem_take]

theorem wlp_withAddr {f : Fn} {c : Code} {k : Addr → Code}
    (hc : ∀ Q : Post Value Locks, (∀ a, Q.ret (.addr a) l) → wlp (inOrder t cur) c (f :: ns) Q l)
    (hk : ∀ a, wlp (inOrder t cur) (k a) ns P l) :
    wlp (inOrder t cur) (.call f c (withAddr k)) ns P l :=
  hc _ hk

theorem wlp_walkFrom {is : List Nat} {pagetable va : Addr} (hl : Below 2 l)
    (h : ∀ a, P.ret (.addr a) l) : wlp (inOrder t cur) (walkFrom pagetable va is) ns P l := by
  induction is generalizing pagetable with
  | nil => exact h _
  | cons i is ih =>
    refine fun s => ⟨ih, ?_⟩
    exact wlp_withAddr (fun Q hQ => wlp_kalloc hl hQ) (fun a => ih)

theorem wlp_walk {pagetable va : Addr} (hl : Below 2 l) (h : ∀ a, P.ret (.addr a) l) :
    wlp (inOrder t cur) (walk pagetable va) ns P l :=
  wlp_walkFrom hl h

theorem wlp_findPa {pagetable va : Addr} (hl : Below 2 l) (h : ∀ a, P.ret (.addr a) l) :
    wlp (inOrder t cur) (findPa pagetable va) ns P l :=
  wlp_withAddr (fun _ hQ => wlp_walk hl hQ) (fun _ _ => h _)

theorem wlp_copyIn {pagetable addr : Addr} (hl : Below 2 l) (h : ∀ b, P.ret (.byte b) l) :
    wlp (inOrder t cur) (copyIn pagetable addr) ns P l :=
  wlp_withAddr (fun _ hQ => wlp_findPa hl hQ) (fun _ _ => h _)

theorem wlp_copyOut {pagetable target : Addr} {source : Byte} (hl : Below 2 l) (h : P.normal l) :
    wlp (inOrder t cur) (copyOut pagetable target source) ns P l :=
  wlp_withAddr (fun _ hQ => wlp_findPa hl hQ) (fun _ => h)

theorem wlp_map {va pa pagetable : Addr} {size permission : Word} (hl : Below 2 l)
    (h : P.normal l) : wlp (inOrder t cur) (map va pa pagetable size permission) ns P l :=
  wlp_rounds (fun _ => wlp_withAddr (fun _ hQ => wlp_walk hl hQ) (fun _ => rfl)) h

theorem wlp_callMap {va pa pagetable : Addr} {size permission : Word} (hl : Below 2 l)
    (h : P.normal l) : wlp (inOrder t cur) (callMap va pa pagetable size permission) ns P l :=
  wlp_invoke (wlp_map hl h)

theorem wlp_kvmInit (hl : Below 2 l) (h : P.normal l) : wlp (inOrder t cur) (kvmInit m) ns P l := by
  refine wlp_withAddr (fun _ hQ => wlp_kalloc hl hQ) (fun a => ?_)
  have hkstack : wlp (inOrder t cur) (initProcKstack a) ns P l :=
    wlp_each (fun i => wlp_withAddr (fun _ hQ => wlp_kalloc hl hQ) (fun _ => wlp_callMap hl rfl)) h
  simp only [fatalPaMap, wlp_block_cons, wlp_act]
  iterate 6 refine wlp_callMap hl ?_
  exact hkstack

theorem wlp_main {tp : Nat} (hl : Below 2 l) (h : P.normal l) :
    wlp (inOrder t cur) (main m tp) ns P l :=
  ⟨wlp_invoke (wlp_kvmInit hl h), h⟩

theorem wlp_scheduler : wlp (inOrder t cur) scheduler ns P noLocks := by
  refine wlp_forever (wlp_each (fun i => ?_) rfl)
  simp only [wlp_block_cons, wlp_block_singleton, wlp_acquire, wlp_ite, wlp_act, wlp_op, pre_swtch,
    wlp_skip, wlp_release, give_take, true_and]
  exact ⟨⟨⟨mem_take _ _, i, rfl⟩, mem_take _ _⟩, (below_noLocks _).ranked, notForeign (by simp)⟩

theorem wlp_wakeup {channel : Channel} (hl : Below 2 l) (h : P.normal l) :
    wlp (inOrder t cur) (wakeup t channel) ns P l := by
  refine wlp_each (fun i => ?_) h
  simp only [wlp_block_cons, wlp_block_singleton, wlp_acquire, wlp_ite, wlp_act, wlp_op, pre_copy,
    wlp_skip, wlp_release, give_take, true_and, and_self]
  exact ⟨mem_take _ l, hl.ranked, notForeign_cursor⟩

theorem wlp_callWakeup {channel : Channel} (hl : Below 2 l) (h : P.normal l) :
    wlp (inOrder t cur) (callWakeup t channel) ns P l :=
  wlp_invoke (wlp_wakeup hl h)

/-- A thread that sleeps on a condition under `lock` takes the lock of its process above it, and
takes `lock` again when it holds only what it held before. -/
theorem wlp_callSleep {channel : Channel} {lock : Splk} (hl : Below (rank lock) l)
    (hr : rank lock < 2) (ht : NotForeign t lock) (h : P.normal (take lock l)) :
    wlp (inOrder t cur) (callSleep cur channel lock) ns P (take lock l) := by
  cases cur with
  | none => trivial
  | some p =>
    refine wlp_invoke ?_
    simp only [sleep, wlp_block_cons, wlp_block_singleton, wlp_act, wlp_op, wlp_acquire,
      wlp_release, pre_enterSched, give_take_take, give_take]
    refine ⟨⟨⟨⟨⟨h, hl.ranked, ht⟩, mem_take _ l⟩, fun hlayer => ?_⟩, mem_take_take _ _ l⟩,
      (hl.take hr hr).ranked, notForeign (by simp)⟩
    exact ⟨p, rfl, hl.eq_handed hlayer⟩

theorem wlp_giveUp (hl : Below 2 l) (h : P.normal l) : wlp (inOrder t cur) (giveUp cur) ns P l := by
  cases cur with
  | none => trivial
  | some p =>
    simp only [giveUp, wlp_block_cons, wlp_block_singleton, wlp_act, wlp_op, wlp_acquire,
      wlp_release, pre_enterSched, give_take]
    refine ⟨⟨⟨h, mem_take _ l⟩, fun hlayer => ?_⟩, hl.ranked, notForeign (by simp)⟩
    exact ⟨p, rfl, hl.eq_handed hlayer⟩

theorem wlp_acquireSleep {sllk : Sllk} (hl : Below 1 l) (h : P.normal l) :
    wlp (inOrder t cur) (acquireSleep cur sllk) ns P l := by
  simp only [acquireSleep, wlp_block_cons, wlp_acquire]
  refine ⟨wlp_while (wlp_callSleep hl (by simp) (notForeign (by simp)) rfl) ?_, hl.ranked,
    notForeign (by simp)⟩
  simpa using ⟨h, mem_take _ l⟩

theorem wlp_callAcquireSleep {sllk : Sllk} (hl : Below 1 l) (h : P.normal l) :
    wlp (inOrder t cur) (callAcquireSleep cur sllk) ns P l :=
  wlp_invoke (wlp_acquireSleep hl h)

theorem wlp_releaseSleep {sllk : Sllk} (hl : Below 1 l) (h : P.normal l) :
    wlp (inOrder t cur) (releaseSleep t sllk) ns P l := by
  simp only [releaseSleep, wlp_block_cons, wlp_acquire]
  refine ⟨wlp_callWakeup (hl.take (by decide) (by simp)) ?_, hl.ranked, notForeign (by simp)⟩
  simpa using ⟨h, mem_take _ l⟩

theorem wlp_begainOp (hl : Below 1 l) (h : P.normal l) :
    wlp (inOrder t cur) (begainOp m cur) ns P l := by
  have hsleep : ∀ ns (Q : Post Value Locks), Q.normal (take .log l) →
      wlp (inOrder t cur) (callSleep cur .log .log) ns Q (take .log l) :=
    fun _ _ hQ => wlp_callSleep hl (by decide) (notForeign (by simp)) hQ
  simp only [begainOp, wlp_block_cons, wlp_acquire]
  refine ⟨wlp_forever ⟨hsleep _ _ rfl, hsleep _ _ rfl, ?_⟩, hl.ranked, notForeign (by simp)⟩
  simpa using ⟨h, mem_take _ l⟩

theorem wlp_pipeWrite {pi : Nat} {startAddr : Addr} {len : Int} (hl : Below 1 l)
    (hret : P.ret .unit l) (h : P.normal l) :
    wlp (inOrder t cur) (pipeWrite t cur pi startAddr len) ns P l := by
  have hpipe : Below 2 (take (.pipe pi) l) := hl.take (by decide) (by simp)
  simp only [pipeWrite, wlp_block_cons, wlp_acquire]
  refine ⟨wlp_rounds (fun i => ?_) ?_, hl.ranked, notForeign (by simp)⟩
  · simp only [wlp_block_cons, wlp_ite, wlp_release, give_take]
    refine ⟨⟨hret, mem_take _ l⟩, ?_, ?_⟩
    · exact wlp_callWakeup hpipe (wlp_callSleep hl (by simp) (notForeign (by simp)) rfl)
    · cases cur with
      | none => trivial
      | some p => exact fun s => wlp_copyIn hpipe (fun b => rfl)
  · refine wlp_callWakeup hpipe ?_
    simpa using ⟨h, mem_take _ l⟩

theorem wlp_pipeRead {pi : Nat} {target : Addr} {len : Int} (hl : Below 1 l)
    (h : ∀ i, P.ret (.int i) l) : wlp (inOrder t cur) (pipeRead t cur pi target len) ns P l := by
  have hpipe : Below 2 (take (.pipe pi) l) := hl.take (by decide) (by simp)
  have hend : ∀ ns (Q : Post Value Locks), (∀ i, Q.ret (.int i) l) →
      wlp (inOrder t cur) (.block [callWakeup t (.writeCursor pi), release (.pipe pi),
        .letin (fun s => s.outerI t) fun i => .ret (.int i)]) ns Q (take (.pipe pi) l) := by
    intro ns Q hQ
    simp only [wlp_block_cons]
    refine wlp_callWakeup hpipe ?_
    simpa using ⟨fun s : Data => hQ (s.outerI t), mem_take _ l⟩
  simp only [pipeRead, wlp_block_cons, wlp_acquire]
  refine ⟨wlp_while (wlp_callSleep hl (by simp) (notForeign (by simp)) rfl) ?_, hl.ranked,
    notForeign (by simp)⟩
  refine wlp_rounds (fun i => ⟨hend _ _ h, fun s => ?_⟩) (hend _ _ h)
  cases cur with
  | none => trivial
  | some p => exact fun s => wlp_invoke (wlp_copyOut hpipe rfl)

theorem wlp_freeDesc {i : Int} (hl : Below 2 l) (h : P.normal l) :
    wlp (inOrder t cur) (freeDesc m t i) ns P l :=
  ⟨trivial, trivial, wlp_callWakeup hl h⟩

theorem wlp_callFreeDesc {i : Int} (hl : Below 2 l) (h : P.normal l) :
    wlp (inOrder t cur) (callFreeDesc m t i) ns P l :=
  wlp_invoke (wlp_freeDesc hl h)

theorem wlp_freeChain {i : Int} (hl : Below 2 l) (h : P.normal l) :
    wlp (inOrder t cur) (freeChain m t i) ns P l := by
  refine wlp_loop (fun i s => ?_) h
  simp only [wlp_block_cons, wlp_act]
  exact wlp_callFreeDesc hl ⟨rfl, h⟩

theorem wlp_alloc3Desc (hl : Below 2 l) (h : ∀ i, P.ret (.int i) l) :
    wlp (inOrder t cur) (alloc3Desc m t) ns P l := by
  refine wlp_rounds (fun i => ⟨?_, rfl⟩) (h 0)
  exact wlp_rounds (fun j s => wlp_callFreeDesc hl rfl) (h (-1))

theorem wlp_virtioDiskRw {b : Fin 30} {write : Bool} (hl : Below 1 l) (h : P.normal l) :
    wlp (inOrder t cur) (virtioDiskRw m t cur b write) ns P l := by
  have hdisk : Below 2 (take .vdisk l) := hl.take (by decide) (by decide)
  have hsleep : ∀ channel ns (Q : Post Value Locks), Q.normal (take .vdisk l) →
      wlp (inOrder t cur) (callSleep cur channel .vdisk) ns Q (take .vdisk l) :=
    fun _ _ _ hQ => wlp_callSleep hl (by decide) (notForeign (by simp)) hQ
  simp only [virtioDiskRw, wlp_block_cons, wlp_acquire]
  refine ⟨wlp_forever (wlp_alloc3Desc hdisk fun i => ⟨?_, hsleep _ _ _ rfl⟩), hl.ranked,
    notForeign (by simp)⟩
  refine wlp_while (hsleep _ _ _ rfl) fun s => ?_
  refine wlp_invoke (wlp_freeChain hdisk ?_)
  simpa using ⟨h, mem_take _ l⟩

theorem wlp_callVirtioDiskRw {b : Fin 30} {write : Bool} (hl : Below 1 l) (h : P.normal l) :
    wlp (inOrder t cur) (callVirtioDiskRw m t cur b write) ns P l :=
  wlp_invoke (wlp_virtioDiskRw hl h)

/-- Under `cache.lock` a process sleeps on the sleeplock of a buffer. -/
theorem wlp_bget {dev blockNo : BitVec 32} (hl : Below 0 l) (hret : ∀ i, P.ret (.buf i) l)
    (h : P.normal (take .cache l)) : wlp (inOrder t cur) (bget cur dev blockNo) ns P l := by
  have htake : ∀ i update (Q : Post Value Locks), (∀ j, Q.ret (.buf j) l) →
      wlp (inOrder t cur) (takeBuffer cur i update) ns Q (take .cache l) := by
    intro i update Q hQ
    simp only [takeBuffer, wlp_block_cons, wlp_act]
    refine wlp_callAcquireSleep (hl.take (by decide) (by decide)) ?_
    simpa using ⟨hQ i, mem_take _ l⟩
  simp only [bget, findCached, findUnused, wlp_block_cons, wlp_letin, wlp_acquire]
  refine ⟨fun s => ?_, hl.ranked, notForeign (by simp)⟩
  refine wlp_loop (fun cursor => ?_) ?_
  · cases cursor with
    | head => rfl
    | buf i => exact ⟨htake i _ _ hret, rfl⟩
  · intro s
    refine wlp_loop (fun cursor => ?_) h
    cases cursor with
    | head => rfl
    | buf i => exact ⟨htake i _ _ hret, rfl⟩

theorem wlp_bread {dev blockNo : BitVec 32} (hl : Below 0 l) (h : ∀ i, P.ret (.buf i) l) :
    wlp (inOrder t cur) (bread m t cur dev blockNo) ns P l := by
  refine wlp_bget hl (fun i => ?_) trivial
  simp only [wlp_block_cons]
  exact ⟨h i, wlp_callVirtioDiskRw (hl.mono (by decide)) (h i)⟩

theorem wlp_brelease {buffer : Fin 30} (hl : Below 0 l) (h : P.normal l) :
    wlp (inOrder t cur) (brelease t buffer) ns P l := by
  simp only [brelease, wlp_block_cons]
  refine wlp_invoke (wlp_releaseSleep (hl.mono (by decide)) ?_)
  simpa using ⟨⟨h, mem_take _ l⟩, hl.ranked, notForeign (by simp)⟩

theorem wlp_uartSend (h : P.ret .unit l) : wlp (inOrder t cur) uartSend ns P l :=
  wlp_forever ⟨h, h, rfl⟩

theorem wlp_uartInput {c : BitVec 32} (hl : Below 1 l) (h : P.normal l) :
    wlp (inOrder t cur) (uartInput c) ns P l := by
  simp only [uartInput, wlp_block_cons, wlp_acquire]
  refine ⟨wlp_while rfl (wlp_invoke (wlp_uartSend ?_)), hl.ranked, notForeign (by simp)⟩
  simpa using ⟨h, mem_take _ l⟩

end Raynix.LockOrder
