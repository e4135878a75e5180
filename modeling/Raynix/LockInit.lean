import Raynix.KernelMachine

namespace Raynix.LockInit

open Raynix.Kernel Raynix.Lib.Command Raynix.Lib.Transition

/-- The spinlocks that are acquired and that no `spinlock_init` is ever called on. -/
def Forgotten : Splk → Prop
  | .pageList | .proc _ | .cursor _ | .console => True
  | .inner (.buffer i) => i = Fin.last 29
  | _ => False

/-- The locks that are initialised once the call has returned. -/
def Provides : Fn → Splk → Prop
  | .uartInit, lock => lock = .uartTx
  | .binit, lock => lock = .cache ∨ ∃ i, i ≠ Fin.last 29 ∧ lock = .inner (.buffer i)
  | _, _ => False

/-- The calls, where those in `returned` have returned. -/
def Allowed (returned : List Fn) : Fn → Prop
  | .main _ | .scheduler | .sleep _ _ | .wakeup _ | .uartInit | .binit => True
  | .uartSend | .uartInput _ | .uartInter => .uartInit ∈ returned
  | .bget _ _ | .brelease _ => .binit ∈ returned
  | _ => False

def known (returned : List Fn) : Set Splk := {lock | ∃ f ∈ returned, Provides f lock}

/-- What a thread may rely on to be initialised, up to the first acquisition of a forgotten lock. -/
def initSpec : Spec Prim Fn (Set Splk) where
  pre _ o Q K :=
    match o with
    | .take lock => Forgotten lock ∨ (lock ∈ K ∧ Q K)
    | .init lock => ¬ Forgotten lock ∧ Q (insert lock K)
    | .exit f _ => (∀ lock, Provides f lock → lock ∈ K) ∧ Q K
    | _ => Q K
  mono _ o Q R hQR K h := by
    cases o with
    | take lock => exact h.imp_right fun h => ⟨h.1, hQR K h.2⟩
    | init lock => exact ⟨h.1, hQR _ h.2⟩
    | exit f v => exact ⟨h.1, hQR K h.2⟩
    | _ => exact hQR K h

section Rules

variable {m : Macros} {t : Nat} {cur : Option (Fin 64)} {ns : List Fn} {P : Post Value (Set Splk)}
  {K : Set Splk}

theorem wlp_forgotten {lock : Splk} (h : Forgotten lock) : wlp initSpec (acquire lock) ns P K :=
  .inl h

theorem wlp_known {lock : Splk} (h : lock ∈ K) (hP : P.normal K) :
    wlp initSpec (acquire lock) ns P K :=
  .inr ⟨h, hP⟩

theorem pre_copy {p : Fin 64} {u : Nat} {Q : Set Splk → Prop} :
    initSpec.pre ns (.copy p u) Q K ↔ Q K :=
  Iff.rfl

@[simp]
theorem wlp_release {lock : Splk} : wlp initSpec (release lock) ns P K ↔ P.normal K := Iff.rfl

theorem wlp_main {tp : Nat} (h : P.normal K) : wlp initSpec (main m tp) ns P K := by
  refine ⟨?_, h⟩
  change wlp initSpec kalloc (.kalloc :: .kvmInit :: ns) _ K
  exact wlp_block_cons.mpr (wlp_forgotten trivial)

theorem wlp_scheduler : wlp initSpec scheduler ns P K :=
  wlp_forever (wlp_each (fun _ => wlp_forgotten trivial) rfl)

theorem wlp_wakeup {channel : Channel} (h : P.normal K) :
    wlp initSpec (wakeup t channel) ns P K := by
  refine wlp_each (fun i => ?_) h
  simp only [wlp_block_cons, wlp_act, wlp_op, pre_copy]
  exact wlp_forgotten trivial

theorem wlp_sleep {channel : Channel} {lock : Splk} :
    wlp initSpec (sleep cur channel lock) ns P K := by
  cases cur with
  | none => trivial
  | some p => exact wlp_block_cons.mpr (wlp_forgotten trivial)

theorem wlp_sleeplockInit {sllk : Sllk} (hsllk : ¬ Forgotten (.inner sllk))
    (h : P.normal (insert (.inner sllk) K)) : wlp initSpec (sleeplockInit sllk) ns P K :=
  ⟨hsllk, h⟩

theorem wlp_acquireSleep {sllk : Sllk} (hsllk : Forgotten (.inner sllk) ∨ .inner sllk ∈ K)
    (h : P.normal K) : wlp initSpec (acquireSleep cur sllk) ns P K := by
  simp only [acquireSleep, wlp_block_cons]
  obtain hsllk | hsllk := hsllk
  · exact wlp_forgotten hsllk
  · refine wlp_known hsllk (wlp_while (wlp_invoke wlp_sleep) ?_)
    simpa using h

theorem wlp_releaseSleep {sllk : Sllk} (hsllk : Forgotten (.inner sllk) ∨ .inner sllk ∈ K)
    (h : P.normal K) : wlp initSpec (releaseSleep t sllk) ns P K := by
  simp only [releaseSleep, wlp_block_cons]
  obtain hsllk | hsllk := hsllk
  · exact wlp_forgotten hsllk
  · refine wlp_known hsllk (wlp_invoke (wlp_wakeup ?_))
    simpa using h

theorem wlp_bget {dev blockNo : BitVec 32} (hcache : .cache ∈ K)
    (hbuffers : ∀ i, Forgotten (.inner (.buffer i)) ∨ .inner (.buffer i) ∈ K)
    (hret : ∀ i, P.ret (.buf i) K) (h : P.normal K) :
    wlp initSpec (bget cur dev blockNo) ns P K := by
  have htake : ∀ i update (Q : Post Value (Set Splk)), (∀ j, Q.ret (.buf j) K) →
      wlp initSpec (takeBuffer cur i update) ns Q K := by
    intro i update Q hQ
    simp only [takeBuffer, wlp_block_cons, wlp_act]
    refine wlp_invoke (wlp_acquireSleep (hbuffers i) ?_)
    simpa using hQ i
  simp only [bget, wlp_block_cons]
  refine wlp_known hcache fun s => wlp_loop (fun cursor => ?_) ?_
  · cases cursor with
    | head => rfl
    | buf i => exact ⟨htake i _ _ hret, rfl⟩
  · intro s
    refine wlp_loop (fun cursor => ?_) h
    cases cursor with
    | head => rfl
    | buf i => exact ⟨htake i _ _ hret, rfl⟩

theorem wlp_brelease {buffer : Fin 30} (hcache : .cache ∈ K)
    (hbuffer : Forgotten (.inner (.buffer buffer)) ∨ .inner (.buffer buffer) ∈ K)
    (h : P.normal K) : wlp initSpec (brelease t buffer) ns P K := by
  simp only [brelease, wlp_block_cons]
  refine wlp_invoke (wlp_releaseSleep hbuffer ?_)
  simp only [wlp_block_cons]
  exact wlp_known hcache h

theorem wlp_binitLoop {cursor : Fin 30} {is : List (Fin 30)}
    (hinit : ∀ i ∈ (cursor :: is).dropLast, i ≠ Fin.last 29)
    (h : ∀ K', K ⊆ K' → (∀ i ∈ (cursor :: is).dropLast, .inner (.buffer i) ∈ K') → P.normal K') :
    wlp initSpec (binitLoop cursor is) ns P K := by
  induction is generalizing cursor K with
  | nil => exact h K subset_rfl (by simp)
  | cons i is ih =>
    simp only [binitLoop, wlp_block_cons]
    rw [List.dropLast_cons_cons] at hinit h
    refine wlp_invoke (wlp_sleeplockInit (hinit cursor List.mem_cons_self) ?_)
    refine ih (fun j hj => hinit j (List.mem_cons_of_mem _ hj)) fun K' hK hmem => ?_
    refine h K' ((Set.subset_insert _ _).trans hK) fun j hj => ?_
    obtain rfl | hj := List.mem_cons.mp hj
    · exact hK (Set.mem_insert _ _)
    · exact hmem j hj

theorem wlp_binit (h : ∀ K', (∀ lock, Provides .binit lock → lock ∈ K') → P.normal K') :
    wlp initSpec binit ns P K := by
  have hlast : ∀ i : Fin 30, i ∈ (0 :: (List.finRange 30).tail).dropLast ↔ i ≠ Fin.last 29 := by
    decide
  simp only [binit, wlp_block_cons]
  refine ⟨not_false, wlp_invoke (wlp_sleeplockInit (Fin.ne_of_lt (Fin.last_pos)) ?_)⟩
  refine wlp_binitLoop (fun i hi => (hlast i).mp hi) fun K' hK hmem => h K' fun lock hlock => ?_
  obtain rfl | ⟨i, hi, rfl⟩ := hlock
  · exact hK (Set.mem_insert_of_mem _ (Set.mem_insert _ _))
  · exact hmem i ((hlast i).mpr hi)

theorem wlp_uartSend (h : P.ret .unit K) : wlp initSpec uartSend ns P K :=
  wlp_forever ⟨h, h, rfl⟩

theorem wlp_uartInput {c : BitVec 32} (huart : .uartTx ∈ K) (h : P.normal K) :
    wlp initSpec (uartInput c) ns P K := by
  simp only [uartInput, wlp_block_cons]
  refine wlp_known huart (wlp_while rfl (wlp_invoke (wlp_uartSend ?_)))
  simpa using h

theorem wlp_uartInter : wlp initSpec uartInter ns P K :=
  wlp_block_cons.mpr (wlp_forever ⟨fun _ => wlp_invoke (wlp_forgotten trivial), rfl⟩)

theorem wlp_code {returned : List Fn} {f : Fn} (hf : Allowed returned f) :
    wlp initSpec (code m t cur f) [f] ⟨initSpec.pre [] (.exit f none) fun _ => True, fun _ => False,
      fun v => initSpec.pre [] (.exit f (some v)) fun _ => True⟩ (known returned) := by
  have hnothing : (∀ lock, ¬ Provides f lock) →
      (∀ lock, Provides f lock → lock ∈ known returned) ∧ True :=
    fun hp => ⟨fun lock hl => absurd hl (hp lock), trivial⟩
  have hbuffers : .binit ∈ returned → ∀ i,
      Forgotten (.inner (.buffer i)) ∨ .inner (.buffer i) ∈ known returned := by
    intro hb i
    by_cases hi : i = Fin.last 29
    · exact .inl hi
    · exact .inr ⟨_, hb, .inr ⟨i, hi, rfl⟩⟩
  cases f with
  | main tp => exact wlp_main (hnothing fun _ => not_false)
  | scheduler => exact wlp_scheduler
  | sleep channel lock => exact wlp_sleep
  | wakeup channel => exact wlp_wakeup (hnothing fun _ => not_false)
  | uartInit => exact ⟨not_false, fun lock hlock => hlock ▸ Set.mem_insert _ _, trivial⟩
  | binit => exact wlp_binit fun K' hK => ⟨hK, trivial⟩
  | uartSend => exact wlp_uartSend (hnothing fun _ => not_false)
  | uartInput c => exact wlp_uartInput ⟨_, hf, rfl⟩ (hnothing fun _ => not_false)
  | uartInter => exact wlp_uartInter
  | bget dev blockNo =>
    exact wlp_bget ⟨_, hf, .inl rfl⟩ (hbuffers hf) (fun _ => hnothing fun _ => not_false)
      (hnothing fun _ => not_false)
  | brelease buffer =>
    exact wlp_brelease ⟨_, hf, .inl rfl⟩ (hbuffers hf buffer) (hnothing fun _ => not_false)
  | _ => exact hf.elim

end Rules

/-- Only what has been initialised is relied on. -/
structure Inv (s : State) : Prop where
  forgotten : ∀ lock, Forgotten lock → s.ready lock = false
  returned : ∀ lock, lock ∈ known s.returned → s.ready lock = true
  threads : ∀ t, ∃ K : Set Splk, (∀ lock ∈ K, s.ready lock = true) ∧
    Safe initSpec (fun _ => True) (s.thread t).stack K
  held : ∀ lock, s.ready lock = true → s.words lock = 0 → ∃ t, lock ∈ (s.thread t).locks.held

variable {m : Macros} {cur : Nat → Option (Fin 64)} {s s' : State} {a : Act}

/-- The thread that exchanges the word of a spinlock exchanges one that has been initialised, and
one that is 0 has been taken by a thread. -/
def Initialised (s : State) (a : Act) : Prop :=
  ∀ t ns lock, AtOp s a t ns (.take lock) →
    s.ready lock = true ∧ (s.words lock = 0 → ∃ u, lock ∈ (s.thread u).locks.held)

/-- No thread acquires a forgotten lock. -/
def NoForgotten (s : State) (a : Act) : Prop :=
  ∀ t ns lock, AtOp s a t ns (.take lock) → ¬ Forgotten lock

/-- The calls come in order. -/
def Ordered (s : State) (a : Act) : Prop := ∀ t f, a = .call t f → Allowed s.returned f

theorem initialised_iff (hs : Inv s) (a : Act) : Initialised s a ↔ NoForgotten s a := by
  refine forall₃_congr fun t ns lock => imp_congr_right fun hop => ?_
  obtain ⟨-, st, hadvance, -⟩ := hop
  obtain ⟨K, hK, hsafe⟩ := hs.threads t
  have htake : Forgotten lock ∨ _ := advance_op hadvance hsafe
  constructor
  · intro h hlock
    rw [hs.forgotten lock hlock] at h
    exact absurd h.1 Bool.false_ne_true
  · intro h
    have hready := hK lock (htake.resolve_left h).1
    exact ⟨hready, hs.held lock hready⟩

/-- A thread whose stack is safe, where only initialised locks are relied on. -/
def ThreadOk (ready : Splk → Bool) (x : Thread) : Prop :=
  ∃ K : Set Splk, (∀ lock ∈ K, ready lock = true) ∧ Safe initSpec (fun _ => True) x.stack K

theorem Inv.setThread {t : Nat} {x : Thread} (hs : Inv s)
    (hthread : s'.thread = Function.update s.thread t x)
    (hready : s'.ready = s.ready) (hreturned : s'.returned = s.returned)
    (hx : ThreadOk s.ready x)
    (hheld : ∀ lock, s.ready lock = true → s'.words lock = 0 → s.words lock = 0 ∧
      (lock ∈ (s.thread t).locks.held → lock ∈ x.locks.held) ∨ lock ∈ x.locks.held) : Inv s' := by
  refine ⟨?_, ?_, fun u => ?_, fun lock hl hw => ?_⟩
  · rw [hready]
    exact hs.forgotten
  · rw [hready, hreturned]
    exact hs.returned
  · rw [hready, hthread]
    by_cases hu : u = t
    · rw [hu, Function.update_self]
      exact hx
    · rw [Function.update_of_ne hu]
      exact hs.threads u
  · rw [hready] at hl
    have ht : lock ∈ x.locks.held → ∃ u, lock ∈ (s'.thread u).locks.held := by
      intro h
      refine ⟨t, ?_⟩
      rwa [hthread, Function.update_self]
    obtain ⟨hword, hkeep⟩ | h := hheld lock hl hw
    · obtain ⟨u, hu⟩ := hs.held lock hl hword
      by_cases hut : u = t
      · exact ht (hkeep (hut ▸ hu))
      · refine ⟨u, ?_⟩
        rwa [hthread, Function.update_of_ne hut]
    · exact ht h

theorem Inv.init {lock : Splk} (hs : Inv s) (hlock : ¬ Forgotten lock) :
    Inv (s.effect (.init lock)) := by
  have hmono : ∀ k, s.ready k = true → (s.effect (.init lock)).ready k = true := by
    intro k hk
    by_cases hkl : k = lock
    · rw [hkl]
      exact Function.update_self ..
    · exact (Function.update_of_ne hkl _ _).trans hk
  refine ⟨fun k hk => ?_, fun k hk => hmono k (hs.returned k hk), fun t => ?_, fun k hk hw => ?_⟩
  · have hkl : k ≠ lock := fun he => hlock (he ▸ hk)
    exact (Function.update_of_ne hkl _ _).trans (hs.forgotten k hk)
  · obtain ⟨K, hK, hsafe⟩ := hs.threads t
    exact ⟨K, fun k hk => hmono k (hK k hk), hsafe⟩
  · have hkl : k ≠ lock := by
      rintro rfl
      exact absurd ((Function.update_self k 1 s.words).symm.trans hw) (by decide)
    exact hs.held k ((Function.update_of_ne hkl _ _).symm.trans hk)
      ((Function.update_of_ne hkl _ _).symm.trans hw)

theorem Inv.exit {f : Fn} {v : Option Value} (hs : Inv s)
    (hf : ∀ lock, Provides f lock → s.ready lock = true) : Inv (s.effect (.exit f v)) := by
  refine ⟨hs.forgotten, fun lock hlock => ?_, hs.threads, hs.held⟩
  obtain ⟨g, hg, hprovides⟩ := hlock
  obtain rfl | hg := List.mem_cons.mp hg
  · exact hf lock hprovides
  · exact hs.returned lock ⟨g, hg, hprovides⟩

theorem perform_inv {t : Nat} {o : Prim} {st : Stack Data Prim Fn Value} {K : Set Splk} (hs : Inv s)
    (hK : ∀ lock ∈ K, s.ready lock = true)
    (hsafe : initSpec.pre (path st) o (Safe initSpec (fun _ => True) st) K)
    (hforgotten : ∀ lock, o = .take lock → ¬ Forgotten lock) : Inv (s.perform t o st) := by
  cases o with
  | pushInterOff | popInterOff | enterSched | swtch =>
    exact hs.setThread rfl rfl rfl ⟨K, hK, hsafe⟩ fun lock _ hw => .inl ⟨hw, id⟩
  | take lock =>
    simp only [State.perform]
    split
    · exact hs
    · refine hs.setThread rfl rfl rfl ⟨K, hK, (hsafe.resolve_left (hforgotten lock rfl)).2⟩ ?_
      intro lock' _ hw
      by_cases hl : lock' = lock
      · exact .inr (hl ▸ Multiset.mem_cons_self _ _)
      · refine .inl ⟨?_, Multiset.mem_cons_of_mem⟩
        exact (Function.update_of_ne hl _ _).symm.trans hw
  | give lock =>
    refine hs.setThread rfl rfl rfl ⟨K, hK, hsafe⟩ fun lock' _ hw => .inl ?_
    have hl : lock' ≠ lock := by
      rintro rfl
      exact absurd ((Function.update_self lock' 1 s.words).symm.trans hw) (by decide)
    exact ⟨(Function.update_of_ne hl _ _).symm.trans hw, (Multiset.mem_erase_of_ne hl).mpr⟩
  | copy p u =>
    refine hs.setThread rfl rfl rfl ⟨K, hK, hsafe⟩ fun lock hl hw => .inl ⟨?_, id⟩
    have hne : lock ≠ .cursor u := by
      rintro rfl
      rw [hs.forgotten (.cursor u) trivial] at hl
      cases hl
    exact (Function.update_of_ne hne _ _).symm.trans hw
  | init lock =>
    have hready : ∀ k ∈ insert lock K, (s.effect (.init lock)).ready k = true := by
      rintro k (rfl | hk)
      · exact Function.update_self ..
      · by_cases hkl : k = lock
        · rw [hkl]
          exact Function.update_self ..
        · exact (Function.update_of_ne hkl _ _).trans (hK k hk)
    exact (hs.init hsafe.1).setThread rfl rfl rfl ⟨_, hready, hsafe.2⟩
      fun lock _ hw => .inl ⟨hw, id⟩
  | exit f v =>
    exact (hs.exit fun lock hl => hK lock (hsafe.1 lock hl)).setThread rfl rfl rfl ⟨K, hK, hsafe.2⟩
      fun lock _ hw => .inl ⟨hw, id⟩

theorem step_inv (hs : Inv s) (ha : Ordered s a) (hforgotten : NoForgotten s a)
    (h : step m cur s a = some s') : Inv s' := by
  cases a with
  | call t f =>
    simp only [step] at h
    split at h
    case h_1 hstack =>
      cases h
      have hentry : Safe initSpec (fun _ => True) (entry m t (cur t) f) (known s.returned) :=
        entry_safe (wlp_code (ha t f rfl))
      exact hs.setThread rfl rfl rfl ⟨_, hs.returned, hentry⟩ fun lock _ hw => .inl ⟨hw, id⟩
    case h_2 => cases h
  | run t =>
    simp only [step] at h
    obtain ⟨K, hK, hsafe⟩ := hs.threads t
    split at h
    case h_1 => cases h
    case h_2 d st hadvance =>
      cases h
      exact hs.setThread rfl rfl rfl ⟨K, hK, advance_inner hadvance hsafe⟩
        fun lock _ hw => .inl ⟨hw, id⟩
    case h_3 o st hadvance =>
      cases h
      refine perform_inv hs hK (advance_op hadvance hsafe) ?_
      rintro lock rfl
      exact hforgotten t (path st) lock ⟨rfl, st, hadvance, rfl⟩
  | uart lsr rhr | disk b =>
    cases h
    exact ⟨hs.forgotten, hs.returned, hs.threads, hs.held⟩

/-- From zeroed statics on, over any interleaving of the calls in order, every acquired lock has
been initialised, and nobody waits for a lock that nobody holds, exactly as long as nobody acquires
a lock that the code forgets to initialise. -/
theorem initialised_iff_noForgotten {as : List Act}
    (hordered : Meets (step m cur) Ordered (idleState zeroData 0) as) :
    Meets (step m cur) Initialised (idleState zeroData 0) as ↔
      Meets (step m cur) NoForgotten (idleState zeroData 0) as := by
  have hs : Inv (idleState zeroData 0) := by
    refine ⟨fun _ _ => rfl, ?_, fun t => ⟨∅, fun lock hl => hl.elim, trivial⟩, ?_⟩
    · rintro lock ⟨f, hf, -⟩
      cases hf
    · intro lock hl
      cases hl
  exact meets_iff_meets_of (fun _ _ _ hI hside hok h => step_inv hI hside hok h)
    (fun _ a hI => initialised_iff hI a) hs hordered

/-- `main` on hart 0 and `n` steps of it. -/
def mainRun (n : Nat) : List Act := .call 0 (.main 0) :: List.replicate n (.run 0)

theorem mainRun_ordered (n : Nat) :
    Meets (step someMacros fun _ => none) Ordered (idleState zeroData 0) (mainRun n) := by
  refine meets_of_forall fun a ha s t f hf => ?_
  obtain ha | ha := List.mem_cons.mp ha
  · cases hf.symm.trans ha
    trivial
  · cases hf.symm.trans (List.eq_of_mem_replicate ha)

theorem initialised_iff_mainRun :
    Meets (step someMacros fun _ => none) Initialised (idleState zeroData 0) (mainRun 9) ↔
      Meets (step someMacros fun _ => none) NoForgotten (idleState zeroData 0) (mainRun 9) :=
  initialised_iff_noForgotten (mainRun_ordered 9)

/-- `main` gets to `page_list_keeper.lock`, which nobody has initialised. -/
theorem not_initialised : ¬ ∀ as,
    Meets (step someMacros fun _ => none) Ordered (idleState zeroData 0) as →
    Meets (step someMacros fun _ => none) Initialised (idleState zeroData 0) as := by
  intro h
  have hmeets : Meets (step someMacros fun _ => none) Initialised (idleState zeroData 0)
      (mainRun 9 ++ [.run 0]) := h (mainRun 10) (mainRun_ordered 10)
  have htake := hmeets.last rfl 0 [.kalloc, .kvmInit, .main 0] .pageList ⟨rfl, _, rfl, rfl⟩
  exact Bool.false_ne_true htake.1

end Raynix.LockInit
