import Raynix.KernelSwitch
import Raynix.LockOrder

namespace Raynix.Deadlock

open Raynix.Kernel hiding State Act step
open Raynix.KernelSwitch Raynix.Lib.Command Raynix.Lib.Transition Raynix.Lib.WaitGraph
  Raynix.LockOrder Relation

/-- The calls made without locks that give back what they take and initialise nothing. -/
def Serving : Fn → Prop
  | .sleep _ _ | .sleeplockInit _ | .bget _ _ | .binit | .uartInit | .uartInter
  | .consloeInputHandler _ => False
  | _ => True

variable {m : Macros}

theorem wlp_code (t : Nat) (cur : Option (Fin 64)) {f : Fn} (hf : Serving f) :
    wlp (inOrder t cur) (code m t cur f) [f]
      ⟨(· = noLocks), fun _ => False, fun _ => (· = noLocks)⟩ noLocks := by
  cases f with
  | kalloc => exact wlp_kalloc (below_noLocks _) fun _ => rfl
  | walk pagetable va => exact wlp_walk (below_noLocks _) fun _ => rfl
  | findPa pagetable va => exact wlp_findPa (below_noLocks _) fun _ => rfl
  | copyIn pagetable addr => exact wlp_copyIn (below_noLocks _) fun _ => rfl
  | copyOut pagetable target source => exact wlp_copyOut (below_noLocks _) rfl
  | map va pa pagetable size permission => exact wlp_map (below_noLocks _) rfl
  | kvmInit => exact wlp_kvmInit (below_noLocks _) rfl
  | main tp => exact wlp_main (below_noLocks _) rfl
  | scheduler => exact wlp_scheduler
  | wakeup channel => exact wlp_wakeup (below_noLocks _) rfl
  | acquireSleep sllk => exact wlp_acquireSleep (below_noLocks _) rfl
  | releaseSleep sllk => exact wlp_releaseSleep (below_noLocks _) rfl
  | begainOp => exact wlp_begainOp (below_noLocks _) rfl
  | pipeWrite pi startAddr len => exact wlp_pipeWrite (below_noLocks _) rfl rfl
  | pipeRead pi target len => exact wlp_pipeRead (below_noLocks _) fun _ => rfl
  | freeDesc i => exact wlp_freeDesc (below_noLocks _) rfl
  | freeChain i => exact wlp_freeChain (below_noLocks _) rfl
  | alloc3Desc => exact wlp_alloc3Desc (below_noLocks _) fun _ => rfl
  | virtioDiskRw b write => exact wlp_virtioDiskRw (below_noLocks _) rfl
  | bread dev blockNo => exact wlp_bread (below_noLocks _) fun _ => rfl
  | bwrite buffer => exact wlp_callVirtioDiskRw (below_noLocks _) rfl
  | brelease buffer => exact wlp_brelease (below_noLocks _) rfl
  | uartSend => exact wlp_uartSend rfl
  | uartInput c => exact wlp_uartInput (below_noLocks _) rfl
  | _ => exact hf.elim

theorem entry_inOrder (t : Nat) (cur : Option (Fin 64)) {f : Fn} (hf : Serving f) :
    Safe (inOrder t cur) (· = noLocks) (entry m t cur f) noLocks := by
  refine entry_safe (wlp_mono ⟨?_, ?_, ?_⟩ (wlp_code t cur hf))
  · exact fun _ h => ⟨h, trivial⟩
  · exact fun _ h => h
  · exact fun _ _ h => ⟨h, trivial⟩

/-- The lock is in one place that all threads see. -/
def Shared (lock : Splk) : Prop := ∀ u, lock ≠ .cursor u

theorem not_shared {lock : Splk} (h : ¬ Shared lock) : ∃ u, lock = .cursor u :=
  not_forall_not.mp h

/-- No two threads hold one lock. A word is 0 while somebody holds the lock, and all along where
nobody has initialised it. -/
structure Exclusive (unset : Splk → Prop) (words : Splk → BitVec 32)
    (held : Nat → Multiset Splk) : Prop where
  nodup : ∀ t, (held t).Nodup
  own : ∀ t, ∀ lock ∈ held t, NotForeign t lock
  sole : ∀ t u lock, lock ∈ held t → lock ∈ held u → t = u
  word : ∀ lock, Shared lock → (words lock = 0 ↔ unset lock ∨ ∃ t, lock ∈ held t)
  set : ∀ t, ∀ lock ∈ held t, Shared lock → ¬ unset lock

section Exclusive

variable {unset : Splk → Prop} {words : Splk → BitVec 32} {held : Nat → Multiset Splk} {t u : Nat}
  {lock : Splk}

theorem Exclusive.not_held (h : Exclusive unset words held) (hword : words lock ≠ 0)
    (ht : NotForeign t lock) (hlock : lock ∉ held t) (u : Nat) : lock ∉ held u := by
  intro hu
  by_cases hc : Shared lock
  · exact hword ((h.word lock hc).mpr (.inr ⟨u, hu⟩))
  · obtain ⟨v, hv⟩ := not_shared hc
    obtain rfl : t = u := (ht v hv).symm.trans (h.own u lock hu v hv)
    exact hlock hu

/-- The lock goes to `holder` or to nobody, and nothing else changes. -/
theorem Exclusive.change {words' : Splk → BitVec 32} {held' : Nat → Multiset Splk}
    (h : Exclusive unset words held) (holder : Option Nat)
    (hmem : ∀ u k, k ∈ held' u ↔ k = lock ∧ holder = some u ∨ k ≠ lock ∧ k ∈ held u)
    (hnodup : ∀ u, (held' u).Nodup) (hown : ∀ u, holder = some u → NotForeign u lock)
    (hset : Shared lock → ¬ unset lock) (hwords : ∀ k, k ≠ lock → words' k = words k)
    (hword : Shared lock → (words' lock = 0 ↔ ∃ u, holder = some u)) :
    Exclusive unset words' held' := by
  refine ⟨hnodup, fun u k hk => ?_, fun u v k hu hv => ?_, fun k hk => ?_,
    fun u k hk hshared => ?_⟩
  · obtain ⟨rfl, hu⟩ | ⟨-, hk⟩ := (hmem u k).mp hk
    · exact hown u hu
    · exact h.own u k hk
  · obtain ⟨rfl, hu⟩ | ⟨hne, hu⟩ := (hmem u k).mp hu
    · obtain ⟨-, hv⟩ | ⟨hne, -⟩ := (hmem v k).mp hv
      · exact Option.some.inj (hu.symm.trans hv)
      · exact absurd rfl hne
    · obtain ⟨heq, -⟩ | ⟨-, hv⟩ := (hmem v k).mp hv
      · exact absurd heq hne
      · exact h.sole u v k hu hv
  · simp only [hmem]
    by_cases hkl : k = lock
    · subst hkl
      simpa [hset hk] using hword hk
    · simpa [hkl, hwords k hkl] using h.word k hk
  · obtain ⟨rfl, -⟩ | ⟨-, hk⟩ := (hmem u k).mp hk
    · exact hset hshared
    · exact h.set u k hk hshared

theorem nodup_update {x : Multiset Splk} (h : ∀ u, (held u).Nodup) (hx : x.Nodup) (u : Nat) :
    (Function.update held t x u).Nodup := by
  by_cases hu : u = t
  · subst hu
    rwa [Function.update_self]
  · rw [Function.update_of_ne hu]
    exact h u

theorem Exclusive.take (h : Exclusive unset words held) (hword : words lock ≠ 0)
    (ht : NotForeign t lock) (hlock : lock ∉ held t) :
    Exclusive unset (Function.update words lock 0)
      (Function.update held t (lock ::ₘ held t)) := by
  have hfree := h.not_held hword ht hlock
  refine h.change (some t) (fun u k => ?_)
    (nodup_update h.nodup (Multiset.nodup_cons.mpr ⟨hlock, h.nodup t⟩)) ?_
    (fun hshared hunset => hword ((h.word lock hshared).mpr (.inl hunset)))
    (fun k hk => Function.update_of_ne hk ..) fun _ => by simp
  · have hne : ∀ u, k ∈ held u → k ≠ lock := fun u hk hkl => hfree u (hkl ▸ hk)
    by_cases hu : u = t
    · subst hu
      simpa using or_congr_right (and_iff_right_of_imp (hne u)).symm
    · simpa [hu, Ne.symm hu] using (hne u)
  · rintro u ⟨⟩
    exact ht

theorem Exclusive.give (h : Exclusive unset words held) (hlock : lock ∈ held t) :
    Exclusive unset (Function.update words lock 1)
      (Function.update held t ((held t).erase lock)) := by
  refine h.change none (fun u k => ?_) (nodup_update h.nodup ((h.nodup t).erase lock))
    (by simp) (h.set t lock hlock) (fun k hk => Function.update_of_ne hk ..) fun _ => by simp
  by_cases hu : u = t
  · subst hu
    simp [(h.nodup u).mem_erase_iff]
  · have hne : k ∈ held u → k ≠ lock := fun hk hkl => hu (h.sole u t k hk (hkl ▸ hlock))
    simpa [hu] using hne

theorem Exclusive.copy (h : Exclusive unset words held) (u : Nat) (w : BitVec 32) :
    Exclusive unset (Function.update words (.cursor u) w) held := by
  refine ⟨h.nodup, h.own, h.sole, fun k hk => ?_, h.set⟩
  rw [Function.update_of_ne (hk u)]
  exact h.word k hk

/-- A thread hands the only lock it holds over to one that holds none. -/
theorem Exclusive.handOver (h : Exclusive unset words held) (hlock : NotForeign t lock)
    (hu : held u = {lock}) (ht : held t = 0) :
    Exclusive unset words (Function.update (Function.update held u 0) t {lock}) := by
  have hlockU : lock ∈ held u := hu ▸ Multiset.mem_singleton_self lock
  refine h.change (some t) (fun v k => ?_)
    (nodup_update (nodup_update h.nodup Multiset.nodup_zero) (Multiset.nodup_singleton lock)) ?_
    (h.set u lock hlockU) (fun _ _ => rfl) fun hshared => ?_
  · by_cases hvt : v = t
    · subst hvt
      simp [ht]
    · by_cases hvu : v = u
      · subst hvu
        simp [Ne.symm hvt, hvt, hu]
      · have hne : k ∈ held v → k ≠ lock := fun hk hkl => hvu (h.sole v u k hk (hkl ▸ hlockU))
        simpa [hvt, Ne.symm hvt, hvu] using hne
  · rintro v ⟨⟩
    exact hlock
  · simpa using (h.word lock hshared).mpr (.inr ⟨u, hlockU⟩)

end Exclusive

variable {unset : Splk → Prop} {cur : Nat → Option (Fin 64)} {s s' : State} {t u : Nat}

theorem heldBy_of_running (ht : s.suspended t = false) : heldBy s t = (s.locks t).held := by
  rw [heldBy, ht]
  rfl

theorem heldBy_of_suspended (ht : s.suspended t) : heldBy s t = 0 := if_pos ht

theorem heldBy_setThread (x : Thread) (ht : s.suspended t = false) :
    heldBy { s with kernel := s.kernel.setThread t x } =
      Function.update (heldBy s) t x.locks.held := by
  funext v
  by_cases hv : v = t
  · subst hv
    rw [Function.update_self]
    exact (if_neg (Bool.eq_false_iff.mp ht)).trans (congrArg (·.locks.held) (setThread_self ..))
  · rw [Function.update_of_ne hv]
    simp only [heldBy, State.locks, setThread_of_ne _ _ hv]
    rfl

/-- Who is off a hart, and who has switched to whom: their locks are the one that comes along with
the hart. -/
structure Hosted (cur : Nat → Option (Fin 64)) (s : State) : Prop where
  off : ∀ t, s.off t → s.running t = none ∧ ∃ p, cur t = some p ∧ s.locks t = handed p
  running : ∀ u t, s.running u = some t →
    s.off t = false ∧ s.off u = false ∧ ∃ p, cur t = some p ∧ s.locks u = handed p
  hosts : ∀ t p, cur t = some p → s.off t ∨ ∃ u, s.running u = some t
  sole : ∀ u v t, s.running u = some t → s.running v = some t → u = v

theorem Hosted.of_locks {k : Kernel.State} (h : Hosted cur s)
    (hlocks : ∀ t, s.suspended t → (k.thread t).locks = s.locks t) :
    Hosted cur { s with kernel := k } := by
  refine ⟨fun t ht => ?_, fun u t hu => ?_, h.hosts, h.sole⟩
  · obtain ⟨hrun, p, hp, hl⟩ := h.off t ht
    exact ⟨hrun, p, hp, (hlocks t (suspended_of_off ht)).trans hl⟩
  · obtain ⟨ht, hoff, p, hp, hl⟩ := h.running u t hu
    exact ⟨ht, hoff, p, hp, (hlocks u (suspended_of_running hu)).trans hl⟩

structure Inv (unset : Splk → Prop) (cur : Nat → Option (Fin 64)) (s : State) : Prop where
  safe : ∀ t, Safe (inOrder t (cur t)) (· = noLocks) (s.stack t) (s.locks t)
  exclusive : Exclusive unset s.kernel.words (heldBy s)
  hosted : Hosted cur s

theorem Inv.wants_ranked (hs : Inv unset cur s) {lock : Splk} (h : wants s t = some lock) :
    Ranked (rank lock) (s.locks t) ∧ NotForeign t lock := by
  obtain ⟨-, st, hadvance⟩ := wants_eq_some h
  exact (advance_op hadvance (hs.safe t)).2

theorem Inv.ordered (hs : Inv unset cur s) :
    Ordered rank (fun t lock => lock ∈ heldBy s t) (wants s) := by
  intro t lock k hwants hk
  rw [heldBy_of_running (wants_eq_some hwants).1] at hk
  exact (hs.wants_ranked hwants).1 k hk

theorem Exclusive.setThread {words : Splk → BitVec 32} {x : Thread}
    (h : Exclusive unset words (heldBy s)) (ht : s.suspended t = false)
    (hx : x.locks.held = (s.locks t).held) :
    Exclusive unset words (heldBy { s with kernel := s.kernel.setThread t x }) := by
  rw [heldBy_setThread x ht, hx, ← heldBy_of_running ht, Function.update_eq_self]
  exact h

theorem perform_exclusive {o : Prim} {st : Stack Data Prim Fn Value} (hs : Inv unset cur s)
    (ht : s.suspended t = false) (hadvance : advance s.kernel.data (s.stack t) = some (.op o st)) :
    Exclusive unset (s.kernel.perform t o st).words
      (heldBy { s with kernel := s.kernel.perform t o st }) := by
  have hpre := (advance_op hadvance (hs.safe t)).2
  have h := hs.exclusive
  have hheld := heldBy_of_running ht
  cases o with
  | take lock =>
    simp only [State.perform]
    split
    · exact h
    · rename_i hword
      have htake := h.take hword hpre.2 fun hlock => lt_irrefl _ (hpre.1 lock (hheld ▸ hlock))
      rw [hheld] at htake
      exact heldBy_setThread _ ht ▸ htake
  | give lock =>
    have hgive := h.give (hheld ▸ hpre)
    rw [hheld] at hgive
    exact heldBy_setThread _ ht ▸ hgive
  | copy p u =>
    simp only [State.perform]
    exact (h.copy u _).setThread ht rfl
  | init lock => exact hpre.elim
  | pushInterOff | popInterOff | enterSched | swtch | exit f v =>
    simp only [State.perform]
    exact h.setThread ht rfl

/-- The calls of a step are `Serving`. -/
def CallsServing (_ : State) (a : Act) : Prop := ∀ t f, a = .kernel (.call t f) → Serving f

theorem kernel_exclusive {a : Kernel.Act} {k : Kernel.State} (hs : Inv unset cur s)
    (hstays : s.stays a) (h : Kernel.step m cur s.kernel a = some k) :
    Exclusive unset k.words (heldBy { s with kernel := k }) := by
  cases a with
  | call t f =>
    have ht : s.suspended t = false := by simpa [State.stays] using hstays
    simp only [Kernel.step] at h
    split at h
    case h_1 =>
      cases h
      exact hs.exclusive.setThread ht rfl
    case h_2 => cases h
  | run t =>
    have ht : s.suspended t = false := by
      simp only [State.stays, Bool.and_eq_true, Bool.not_eq_true'] at hstays
      exact hstays.1.1
    simp only [Kernel.step] at h
    split at h
    case h_1 => cases h
    case h_2 d st hadvance =>
      cases h
      exact hs.exclusive.setThread ht rfl
    case h_3 o st hadvance =>
      cases h
      exact perform_exclusive hs ht hadvance
  | uart lsr rhr | disk b =>
    cases h
    exact hs.exclusive

theorem kernel_inv {a : Kernel.Act} {k : Kernel.State} (hs : Inv unset cur s) (hstays : s.stays a)
    (ha : ∀ t f, a = .call t f → Serving f) (h : Kernel.step m cur s.kernel a = some k) :
    Inv unset cur { s with kernel := k } := by
  refine ⟨fun t => ?_, kernel_exclusive hs hstays h, hs.hosted.of_locks fun t ht =>
    congrArg (·.locks) (thread_of_suspended hstays h ht)⟩
  · simp only [State.stack, State.locks]
    obtain ht | ⟨f, rfl, hstack, ht⟩ | ⟨d, st, -, hadvance, ht⟩ | ⟨o, st, -, hadvance, ht⟩ :=
      step_thread h t
    · rw [ht]
      exact hs.safe t
    · have hidle := hs.safe t
      rw [State.stack, hstack] at hidle
      rw [ht, show (s.kernel.thread t).locks = noLocks from hidle]
      exact entry_inOrder t (cur t) (ha t f rfl)
    · rw [ht]
      exact advance_inner hadvance (hs.safe t)
    · rw [ht]
      exact (advance_op hadvance (hs.safe t)).1

theorem giveUp_inv (hs : Inv unset cur s) (hstack : s.stack t = [])
    (ht : s.suspended t = false) :
    Inv unset cur { s with
      kernel := s.kernel.setThread t ⟨[.cmd (giveUp (cur t))], s.locks t, s.locks t⟩ } := by
  have hidle : s.locks t = noLocks := by
    have h := hs.safe t
    rw [hstack] at h
    exact h
  refine ⟨fun v => ?_, hs.exclusive.setThread ht rfl, ?_⟩
  · simp only [State.stack, State.locks]
    by_cases hv : v = t
    · subst hv
      rw [setThread_self]
      change Safe _ _ _ (s.locks v)
      rw [hidle]
      exact wlp_giveUp (below_noLocks 2) rfl
    · rw [setThread_of_ne _ _ hv]
      exact hs.safe v
  · refine hs.hosted.of_locks fun v hv => congrArg (·.locks) (setThread_of_ne _ _ ?_)
    rintro rfl
    exact absurd ht (Bool.not_eq_false _ ▸ hv)

theorem resumeWith_locks (k : Kernel.State) (t v : Nat) (st : Stack Data Prim Fn Value) :
    ((resumeWith k t st).thread v).locks = (k.thread v).locks := by
  by_cases hv : v = t
  · subst hv
    exact congrArg (·.locks) (setThread_self ..)
  · exact congrArg (·.locks) (setThread_of_ne _ _ hv)

theorem resumeWith_safe {o : Prim} {st : Stack Data Prim Fn Value} (hs : Inv unset cur s)
    (hadvance : advance s.kernel.data (s.stack t) = some (.op o st))
    (ho : (s.locks t).after o = s.locks t) (v : Nat) :
    Safe (inOrder v (cur v)) (· = noLocks) ((resumeWith s.kernel t st).thread v).stack
      ((resumeWith s.kernel t st).thread v).locks := by
  rw [resumeWith_locks]
  by_cases hv : v = t
  · subst hv
    have hsafe := (advance_op hadvance (hs.safe v)).1
    rw [ho] at hsafe
    rw [resumeWith, setThread_self]
    exact hsafe
  · rw [resumeWith, setThread_of_ne _ _ hv]
    exact hs.safe v

/-- Thread `a` leaves its hart to `b`, and the lock of process `p` with it. -/
theorem switch_exclusive {a b : Nat} {p : Fin 64} (hs : Inv unset cur s)
    (hwords : s'.kernel.words = s.kernel.words) (hlocks : ∀ v, s'.locks v = s.locks v)
    (ha : s.suspended a = false) (ha' : s'.suspended a) (hla : s.locks a = handed p)
    (hb : s.suspended b) (hb' : s'.suspended b = false) (hlb : s.locks b = handed p)
    (hothers : ∀ v, v ≠ a → v ≠ b → s'.suspended v = s.suspended v) :
    Exclusive unset s'.kernel.words (heldBy s') := by
  have hheld : heldBy s' =
      Function.update (Function.update (heldBy s) a 0) b {Splk.proc p} := by
    funext v
    by_cases hvb : v = b
    · subst hvb
      rw [Function.update_self, heldBy_of_running hb', hlocks, hlb, handed_held]
    · rw [Function.update_of_ne hvb]
      by_cases hva : v = a
      · subst hva
        rw [Function.update_self, heldBy_of_suspended ha']
      · rw [Function.update_of_ne hva, heldBy, heldBy, hothers v hva hvb, hlocks]
  rw [hwords, hheld]
  refine hs.exclusive.handOver (notForeign fun _ => Splk.noConfusion) ?_ (heldBy_of_suspended hb)
  rw [heldBy_of_running ha, hla, handed_held]

theorem selects_eq {p q : Fin 64} (hu : s.locks u = handed p) (ht : cur t = some q)
    (h : s.selects cur u t) : q = p := by
  rw [State.selects, ht, hu] at h
  exact Splk.proc.inj (Multiset.mem_singleton.mp (of_decide_eq_true h))

theorem Hosted.dispatch {k : Kernel.State} {p : Fin 64} (h : Hosted cur s)
    (hlocks : ∀ v, (k.thread v).locks = s.locks v) (hu : s.suspended u = false) (ht : s.off t)
    (hp : cur t = some p) (hlu : s.locks u = handed p) :
    Hosted cur ⟨k, Function.update s.off t false, Function.update s.running u (some t)⟩ := by
  obtain ⟨huoff, hurun⟩ := suspended_eq_false.mp hu
  have hoff : ∀ v, Function.update s.off t false v ↔ v ≠ t ∧ s.off v := by
    intro v
    by_cases hv : v = t <;> simp [hv]
  have hon : ∀ v, s.off v = false → Function.update s.off t false v = false := by
    intro v hv
    by_cases hvt : v = t <;> simp [hvt, hv]
  have hrunning : ∀ v w, Function.update s.running u (some t) v = some w ↔
      v = u ∧ w = t ∨ s.running v = some w := by
    intro v w
    by_cases hv : v = u
    · subst hv
      simp [hurun, eq_comm]
    · simp [hv]
  have hfree : ∀ v, s.running v ≠ some t := fun v hv =>
    absurd ht (Bool.eq_false_iff.mp (h.running v t hv).1)
  refine ⟨fun v hv => ?_, fun v w hv => ?_, fun v q hq => ?_, fun v v' w hv hv' => ?_⟩
  · obtain ⟨-, hvoff⟩ := (hoff v).mp hv
    obtain ⟨hrun, q, hq, hl⟩ := h.off v hvoff
    refine ⟨(Function.update_of_ne ?_ ..).trans hrun, q, hq, (hlocks v).trans hl⟩
    rintro rfl
    exact absurd hvoff (Bool.eq_false_iff.mp huoff)
  · obtain ⟨rfl, rfl⟩ | hv := (hrunning v w).mp hv
    · exact ⟨Function.update_self .., hon v huoff, p, hp, (hlocks v).trans hlu⟩
    · obtain ⟨hw, hoffv, q, hq, hl⟩ := h.running v w hv
      exact ⟨hon w hw, hon v hoffv, q, hq, (hlocks v).trans hl⟩
  · by_cases hvt : v = t
    · exact .inr ⟨u, (hrunning u v).mpr (.inl ⟨rfl, hvt⟩)⟩
    · obtain hv | ⟨w, hw⟩ := h.hosts v q hq
      · exact .inl ((hoff v).mpr ⟨hvt, hv⟩)
      · exact .inr ⟨w, (hrunning w v).mpr (.inr hw)⟩
  · obtain ⟨rfl, rfl⟩ | hold := (hrunning v w).mp hv
    · obtain ⟨rfl, -⟩ | hold' := (hrunning v' w).mp hv'
      · rfl
      · exact absurd hold' (hfree v')
    · obtain ⟨rfl, rfl⟩ | hold' := (hrunning v' w).mp hv'
      · exact absurd hold (hfree v)
      · exact h.sole v v' w hold hold'

theorem Hosted.leave {k : Kernel.State} {p : Fin 64} (h : Hosted cur s)
    (hlocks : ∀ v, (k.thread v).locks = s.locks v) (ht : s.suspended t = false)
    (hu : s.running u = some t) (hp : cur t = some p) (hlt : s.locks t = handed p) :
    Hosted cur ⟨k, Function.update s.off t true, Function.update s.running u none⟩ := by
  obtain ⟨-, htrun⟩ := suspended_eq_false.mp ht
  have hoff : ∀ v, Function.update s.off t true v ↔ v = t ∨ s.off v := by
    intro v
    by_cases hv : v = t <;> simp [hv]
  have hon : ∀ v, v ≠ t → s.off v = false → Function.update s.off t true v = false :=
    fun v hvt hv => (Function.update_of_ne hvt ..).trans hv
  have hrunning : ∀ v w, Function.update s.running u none v = some w ↔
      v ≠ u ∧ s.running v = some w := by
    intro v w
    by_cases hv : v = u <;> simp [hv]
  have hrun : ∀ v, s.running v = none → Function.update s.running u none v = none := by
    intro v hv
    by_cases hvu : v = u <;> simp [hvu, hv]
  refine ⟨fun v hv => ?_, fun v w hv => ?_, fun v q hq => ?_, fun v v' w hv hv' => ?_⟩
  · obtain rfl | hv := (hoff v).mp hv
    · exact ⟨hrun v htrun, p, hp, (hlocks v).trans hlt⟩
    · obtain ⟨hrunv, q, hq, hl⟩ := h.off v hv
      exact ⟨hrun v hrunv, q, hq, (hlocks v).trans hl⟩
  · obtain ⟨hvu, hold⟩ := (hrunning v w).mp hv
    obtain ⟨hw, hoffv, q, hq, hl⟩ := h.running v w hold
    refine ⟨hon w ?_ hw, hon v ?_ hoffv, q, hq, (hlocks v).trans hl⟩
    · rintro rfl
      exact hvu (h.sole v u w hold hu)
    · rintro rfl
      rw [htrun] at hold
      cases hold
  · obtain hv | ⟨w, hw⟩ := h.hosts v q hq
    · exact .inl ((hoff v).mpr (.inr hv))
    · by_cases hwu : w = u
      · subst hwu
        exact .inl ((hoff v).mpr (.inl (Option.some.inj (hw.symm.trans hu))))
      · exact .inr ⟨w, (hrunning w v).mpr ⟨hwu, hw⟩⟩
  · exact h.sole v v' w ((hrunning v w).mp hv).2 ((hrunning v' w).mp hv').2

theorem dispatch_inv {st : Stack Data Prim Fn Value} (hs : Inv unset cur s)
    (hu : s.suspended u = false) (ht : s.off t) (hselects : s.selects cur u t)
    (hadvance : advance s.kernel.data (s.stack u) = some (.op .swtch st)) :
    Inv unset cur ⟨resumeWith s.kernel u st, Function.update s.off t false,
      Function.update s.running u (some t)⟩ := by
  obtain ⟨p, hlu⟩ := (advance_op hadvance (hs.safe u)).2
  obtain ⟨hrun, q, hq, hlt⟩ := hs.hosted.off t ht
  obtain rfl := selects_eq hlu hq hselects
  have htu : t ≠ u := by
    rintro rfl
    exact absurd ht (Bool.eq_false_iff.mp (suspended_eq_false.mp hu).1)
  have hlocks := fun v => resumeWith_locks s.kernel u v st
  refine ⟨resumeWith_safe hs hadvance rfl, ?_, hs.hosted.dispatch hlocks hu ht hq hlu⟩
  refine switch_exclusive hs rfl hlocks hu ?_ hlu (suspended_of_off ht) ?_ hlt fun v hvu hvt => ?_
  · exact suspended_of_running (Function.update_self ..)
  · refine suspended_eq_false.mpr ⟨Function.update_self .., ?_⟩
    exact (Function.update_of_ne htu ..).trans hrun
  · simp only [State.suspended, Function.update_of_ne hvu, Function.update_of_ne hvt]

theorem leave_inv {st : Stack Data Prim Fn Value} (hs : Inv unset cur s)
    (ht : s.suspended t = false) (hu : s.running u = some t) (hlayer : (s.locks t).layer = 1)
    (hadvance : advance s.kernel.data (s.stack t) = some (.op .enterSched st)) :
    Inv unset cur ⟨resumeWith s.kernel t st, Function.update s.off t true,
      Function.update s.running u none⟩ := by
  obtain ⟨p, hp, hlt⟩ := (advance_op hadvance (hs.safe t)).2 hlayer
  obtain ⟨-, huoff, q, hq, hlu⟩ := hs.hosted.running u t hu
  obtain rfl := Option.some.inj (hp.symm.trans hq)
  have hut : u ≠ t := by
    rintro rfl
    exact absurd (suspended_of_running hu) (Bool.eq_false_iff.mp ht)
  have hlocks := fun v => resumeWith_locks s.kernel t v st
  refine ⟨resumeWith_safe hs hadvance rfl, ?_, hs.hosted.leave hlocks ht hu hp hlt⟩
  refine switch_exclusive hs rfl hlocks ht ?_ hlt (suspended_of_running hu) ?_ hlu
    fun v hvt hvu => ?_
  · exact suspended_of_off (Function.update_self ..)
  · refine suspended_eq_false.mpr ⟨?_, Function.update_self ..⟩
    exact (Function.update_of_ne hut ..).trans huoff
  · simp only [State.suspended, Function.update_of_ne hvu, Function.update_of_ne hvt]

theorem step_inv {a : Act} (hs : Inv unset cur s) (ha : CallsServing s a)
    (h : step m cur s a = some s') : Inv unset cur s' := by
  cases a with
  | kernel a =>
    obtain ⟨hstays, k, hk, rfl⟩ := step_kernel h
    exact kernel_inv hs hstays (fun t f hf => ha t f (hf ▸ rfl)) hk
  | giveUp t =>
    obtain ⟨hstack, ht, rfl⟩ := step_giveUp h
    exact giveUp_inv hs hstack ht
  | dispatch u t =>
    obtain ⟨hu, ht, hselects, st, hadvance, rfl⟩ := step_dispatch h
    exact dispatch_inv hs hu ht hselects hadvance
  | leave t u =>
    obtain ⟨ht, hu, hlayer, st, hadvance, rfl⟩ := step_leave h
    exact leave_inv hs ht hu hlayer hadvance

/-- The threads of the processes have not run yet, and the other ones are on harts, outside all
functions and without locks. The lock words are arbitrary. -/
structure Booted (cur : Nat → Option (Fin 64)) (s : State) : Prop where
  running : ∀ t, s.running t = none
  process : ∀ t p, cur t = some p → s.off t ∧ s.stack t = firstRun p ∧ s.locks t = handed p
  hart : ∀ t, cur t = none → s.off t = false ∧ s.stack t = [] ∧ s.locks t = noLocks

/-- Nobody has initialised the lock. -/
def Unset (s : State) (lock : Splk) : Prop := s.kernel.words lock = 0

theorem Booted.heldBy_eq_zero (hs : Booted cur s) (t : Nat) : heldBy s t = 0 := by
  cases hp : cur t with
  | none =>
    obtain ⟨hoff, -, hl⟩ := hs.hart t hp
    rw [heldBy_of_running (suspended_eq_false.mpr ⟨hoff, hs.running t⟩), hl]
    rfl
  | some p => exact heldBy_of_suspended (suspended_of_off (hs.process t p hp).1)

theorem Booted.inv (hs : Booted cur s) : Inv (Unset s) cur s := by
  have hheld : ∀ t lock, lock ∉ heldBy s t := by
    intro t lock hlock
    rw [hs.heldBy_eq_zero t] at hlock
    exact Multiset.notMem_zero lock hlock
  have hnone : ∀ u t, s.running u ≠ some t := by
    intro u t hu
    rw [hs.running u] at hu
    cases hu
  refine ⟨fun t => ?_, ⟨fun t => ?_, fun t lock h => absurd h (hheld t lock),
    fun t u lock h => absurd h (hheld t lock), fun lock _ => ?_,
    fun t lock h => absurd h (hheld t lock)⟩, ⟨fun t ht => ?_, fun u t hu => absurd hu (hnone u t),
    fun t p hp => .inl (hs.process t p hp).1, fun u v t hu => absurd hu (hnone u t)⟩⟩
  · cases hp : cur t with
    | none =>
      obtain ⟨-, hstack, hl⟩ := hs.hart t hp
      rw [hstack]
      exact hl
    | some p =>
      obtain ⟨-, hstack, hl⟩ := hs.process t p hp
      rw [hstack, hl]
      exact wlp_firstRun rfl
  · rw [hs.heldBy_eq_zero t]
    exact Multiset.nodup_zero
  · exact ⟨.inl, fun h => h.elim id fun ⟨t, ht⟩ => absurd ht (hheld t lock)⟩
  · cases hp : cur t with
    | none => exact absurd ht (Bool.eq_false_iff.mp (hs.hart t hp).1)
    | some p => exact ⟨hs.running t, p, rfl, (hs.process t p hp).2.2⟩

theorem run_inv {as : List Act} (hs : Booted cur s)
    (hcalls : ∀ t f, .kernel (.call t f) ∈ as → Serving f) (h : run (step m cur) s as = some s') :
    Inv (Unset s) cur s' := by
  have hmeets : Meets (step m cur) CallsServing s as :=
    meets_of_forall fun a ha _ t f hf => hcalls t f (hf ▸ ha)
  exact (always_of_meets (fun _ _ _ hI ha h => step_inv hI ha h) hs.inv hmeets).final h

local instance neZero_procs : NeZero 64 := ⟨by decide⟩

/-- Thread 1 is of process 0 and thread 6 of process 1. -/
def twoProcesses (t : Nat) : Option (Fin 64) :=
  if t = 1 then some 0 else if t = 6 then some 1 else none

/-- All processes can run, and the lock of the page list is the only one that is not initialised. -/
def startState : State where
  kernel :=
    { idleState { zeroData with procs := fun _ => ⟨.runnable, none, 0⟩ } 1 with
      words := fun lock => if lock = .pageList then 0 else 1
      thread := fun t =>
        match twoProcesses t with
        | some p => ⟨firstRun p, handed p, noLocks⟩
        | none => ⟨[], noLocks, noLocks⟩ }
  off t := (twoProcesses t).isSome
  running _ := none

def call (t : Nat) (f : Fn) : Act := .kernel (.call t f)

def runs (t n : Nat) : List Act := List.replicate n (.kernel (.run t))

/-- Scheduler 0 switches to process 0, which gives up and comes back, and scheduler 3 switches to
the process again. -/
def handing : List Act :=
  call 0 .scheduler :: runs 0 11 ++ .dispatch 0 1 :: runs 1 3 ++ .giveUp 1 :: runs 1 7 ++
    .leave 1 0 :: runs 0 2 ++ call 3 .scheduler :: runs 3 11 ++ .dispatch 3 1 :: runs 1 3

/-- Process 1 is to leave its hart. Scheduler 5 has the lock of process 0, thread 1 the lock of a
sleeplock on which it goes to sleep as process 0, and thread 2 wants to release the sleeplock.
Thread 4 wants the lock of the page list. -/
def waiting : List Act :=
  runs 0 11 ++ .dispatch 0 6 :: runs 6 3 ++ .giveUp 6 :: runs 6 7 ++
    call 1 (.acquireSleep (.other 0)) :: runs 1 11 ++ call 5 .scheduler :: runs 5 11 ++
    call 2 (.releaseSleep (.other 0)) :: runs 2 4 ++ call 4 .kalloc :: runs 4 4

def chain : List Act := handing ++ waiting

theorem startState_booted : Booted twoProcesses startState := by
  refine ⟨fun t => rfl, fun t p hp => ?_, fun t hp => ?_⟩
  · simp [startState, State.stack, State.locks, hp]
  · simp [startState, State.stack, State.locks, hp]

theorem mem_runs {t u n : Nat} {f : Fn} : ¬ Act.kernel (.call u f) ∈ runs t n := by
  simp [runs]

theorem chain_serving (t : Nat) (f : Fn) (h : .kernel (.call t f) ∈ chain) : Serving f := by
  simp only [chain, handing, waiting, call, List.mem_append, List.mem_cons, mem_runs, reduceCtorEq,
    or_false, false_or, or_assoc, Act.kernel.injEq, Kernel.Act.call.injEq, List.cons_append] at h
  obtain ⟨-, rfl⟩ | ⟨-, rfl⟩ | ⟨-, rfl⟩ | ⟨-, rfl⟩ | ⟨-, rfl⟩ | ⟨-, rfl⟩ := h <;> trivial

theorem chain_isSome : (run (step someMacros twoProcesses) startState chain).isSome := by
  decide +kernel

/-- The state the chain of waiting threads leads to. -/
def chainState : State := (run (step someMacros twoProcesses) startState chain).get chain_isSome

theorem chain_run : run (step someMacros twoProcesses) startState chain = some chainState :=
  (Option.some_get chain_isSome).symm

/-- Over every interleaving of these calls, the word of an initialised lock is 0 exactly while one
thread holds it, nobody ever gets any other lock, and whoever releases a lock holds it. -/
theorem word_eq_zero_iff {as : List Act} (hs : Booted cur s)
    (hcalls : ∀ t f, .kernel (.call t f) ∈ as → Serving f) (h : run (step m cur) s as = some s') :
    (∀ lock, Shared lock → ¬ Unset s lock →
      (s'.kernel.words lock = 0 ↔ ∃! t, lock ∈ heldBy s' t)) ∧
    (∀ lock, Shared lock → Unset s lock →
      s'.kernel.words lock = 0 ∧ ∀ t, lock ∉ heldBy s' t) ∧
    ∀ t lock, s'.suspended t = false → s'.nextOp t = some (.give lock) → lock ∈ heldBy s' t := by
  have hinv := run_inv hs hcalls h
  refine ⟨fun lock hlock hset => ⟨fun hword => ?_, fun ⟨t, ht, _⟩ => ?_⟩,
    fun lock hlock hunset => ?_, fun t lock ht hop => ?_⟩
  · obtain hunset | ⟨t, ht⟩ := (hinv.exclusive.word lock hlock).mp hword
    · exact absurd hunset hset
    · exact ⟨t, ht, fun u hu => hinv.exclusive.sole u t lock hu ht⟩
  · exact (hinv.exclusive.word lock hlock).mpr (.inr ⟨t, ht⟩)
  · exact ⟨(hinv.exclusive.word lock hlock).mpr (.inl hunset),
      fun t ht => hinv.exclusive.set t lock ht hlock hunset⟩
  · obtain ⟨st, hadvance⟩ := nextOp_eq_some hop
    rw [heldBy_of_running ht]
    exact (advance_op hadvance (hinv.safe t)).2

theorem word_eq_zero_iff_chain :
    (∀ lock, Shared lock → ¬ Unset startState lock →
      (chainState.kernel.words lock = 0 ↔ ∃! t, lock ∈ heldBy chainState t)) ∧
    (∀ lock, Shared lock → Unset startState lock →
      chainState.kernel.words lock = 0 ∧ ∀ t, lock ∉ heldBy chainState t) ∧
    ∀ t lock, chainState.suspended t = false → chainState.nextOp t = some (.give lock) →
      lock ∈ heldBy chainState t :=
  word_eq_zero_iff startState_booted chain_serving chain_run

end Raynix.Deadlock
