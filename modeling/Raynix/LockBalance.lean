import Raynix.BgetSearch

namespace Raynix.LockBalance

open Raynix.BgetSearch Raynix.Kernel Raynix.Lib.Command Raynix.Lib.Transition Raynix.LockRules

/-- The locks of the caller after the call, from those before it. -/
def left : Fn → Option Value → Locks → Locks
  | .consloeInputHandler _, _, l => take .console l
  | .bget _ _, none, l => take .cache l
  | .sleep _ lock, _, l => retake lock l
  | _, _, l => l

/-- The call gives back what it took: it is not one of `consloe_input_handler`, `sleep` was given a
lock of the caller, and `bget` has not (`met`) read the list head in `cache.head.prior`. -/
def GivesBack : Fn → Prop → Locks → Prop
  | .consloeInputHandler _, _, _ => False
  | .bget _ _, met, _ => ¬ met
  | .sleep _ lock, _, l => lock ∈ l.held
  | _, _, _ => True

theorem take_ne (lock : Splk) (l : Locks) : take lock l ≠ l := by
  intro h
  have hcard := congrArg (fun k => k.held.card) h
  simp [take] at hcard

theorem retake_eq_iff (lock : Splk) (l : Locks) : retake lock l = l ↔ lock ∈ l.held := by
  constructor
  · intro h
    rw [← h]
    exact Multiset.mem_cons_self lock _
  · intro h
    ext1
    · exact Multiset.cons_erase h
    · rfl

theorem left_eq_iff {f : Fn} {v : Option Value} {met : Prop} (l : Locks)
    (hmet : ∀ dev blockNo, f = .bget dev blockNo → (met ↔ v = none)) :
    left f v l = l ↔ GivesBack f met l := by
  cases f with
  | consloeInputHandler c => exact iff_false_intro (take_ne _ l)
  | sleep channel lock => exact retake_eq_iff lock l
  | bget dev blockNo =>
    have hbget := hmet dev blockNo rfl
    cases v with
    | none => exact iff_of_false (take_ne _ l) (not_not_intro (hbget.mpr rfl))
    | some v => exact iff_of_true rfl fun h => absurd (hbget.mp h) (by simp)
  | _ => exact iff_of_true rfl trivial

/-- Where the call of `f` made with the locks `l` returns, it leaves what `left` says. -/
def balance (f : Fn) (l : Locks) : Spec Prim Fn Locks :=
  lockSpec (fun _ _ => True) (fun g v l' => g = f ∧ l' = left f v l)

variable {m : Macros}

theorem wlp_code (t : Nat) (cur : Option (Fin 64)) (f : Fn) (l : Locks) :
    wlp (balance f l) (code m t cur f) [f]
      ⟨(· = left f none l), fun _ => False, fun v => (· = left f (some v) l)⟩ l := by
  have hE : ∀ ns k, MaySleep (fun _ _ => True) cur ns k := fun _ _ _ _ _ _ => trivial
  cases f with
  | kalloc => exact wlp_kalloc fun _ => rfl
  | walk pagetable va => exact wlp_walk fun _ => rfl
  | findPa pagetable va => exact wlp_findPa fun _ => rfl
  | copyIn pagetable addr => exact wlp_copyIn fun _ => rfl
  | copyOut pagetable target source => exact wlp_copyOut rfl
  | map va pa pagetable size permission => exact wlp_map rfl
  | kvmInit => exact wlp_kvmInit rfl
  | main tp => exact wlp_main rfl
  | scheduler => exact wlp_scheduler
  | wakeup channel => exact wlp_wakeup rfl
  | sleep channel lock => exact wlp_sleep (fun _ _ => trivial) rfl
  | acquireSleep sllk => exact wlp_acquireSleep (hE _ _) rfl
  | releaseSleep sllk => exact wlp_releaseSleep rfl
  | sleeplockInit sllk => exact wlp_sleeplockInit rfl
  | begainOp => exact wlp_begainOp (hE _ _) rfl
  | pipeWrite pi startAddr len => exact wlp_pipeWrite (hE _ _) rfl rfl
  | pipeRead pi target len => exact wlp_pipeRead (hE _ _) fun _ => rfl
  | freeDesc i => exact wlp_freeDesc rfl
  | freeChain i => exact wlp_freeChain rfl
  | alloc3Desc => exact wlp_alloc3Desc fun _ => rfl
  | virtioDiskRw b write => exact wlp_virtioDiskRw (hE _ _) rfl
  | bget dev blockNo => exact wlp_bget (fun _ => hE _ _) (fun _ => rfl) rfl
  | bread dev blockNo => exact wlp_bread (fun _ => hE _ _) (fun _ => hE _ _) fun _ => rfl
  | bwrite buffer => exact wlp_bwrite (hE _ _) rfl
  | brelease buffer => exact wlp_brelease rfl
  | binit => exact wlp_binit rfl
  | uartInit => exact wlp_uartInit rfl
  | uartSend => exact wlp_uartSend rfl
  | uartInput c => exact wlp_uartInput rfl
  | uartInter => exact wlp_uartInter
  | consloeInputHandler c => exact wlp_consloeInputHandler (c := c) rfl

theorem entry_balance (t : Nat) (cur : Option (Fin 64)) (f : Fn) (l : Locks) :
    Safe (balance f l) (fun _ => True) (entry m t cur f) l := by
  refine entry_safe (wlp_mono ⟨?_, ?_, ?_⟩ (wlp_code t cur f l))
  · exact fun _ h => ⟨trivial, rfl, h⟩
  · exact fun _ h => h
  · exact fun _ _ h => ⟨trivial, rfl, h⟩

/-- The kernel with ghost `met`: the threads that have read the list head in `cache.head.prior` in
their call of `bget`. -/
structure Tracked where
  kernel : State
  met : Nat → Prop

variable {cur : Nat → Option (Fin 64)} {w w' : Tracked} {a : Act} {t : Nat}

def metAfter (cur : Nat → Option (Fin 64)) (w : Tracked) (a : Act) (t : Nat) : Prop :=
  (∀ f, a ≠ .call t f) ∧
    (w.met t ∨ a = .run t ∧ ReadsPrior (cur t) (w.kernel.thread t).stack ∧
      w.kernel.data.cache.ring.prior .head = .head)

def trackedStep (m : Macros) (cur : Nat → Option (Fin 64)) (w : Tracked) (a : Act) :
    Option Tracked :=
  (step m cur w.kernel a).map fun s => ⟨s, metAfter cur w a⟩

/-- A thread in a call leaves what the call leaves. -/
def Good (cur : Nat → Option (Fin 64)) (w : Tracked) (t : Nat) : Prop :=
  let x := w.kernel.thread t
  x.stack = [] ∨ ∃ f, Safe (balance f x.base) (fun _ => True) x.stack x.locks ∧
    ∀ dev blockNo, f = .bget dev blockNo → Stage (cur t) dev blockNo (w.met t) x.locks x.stack

def Inv (cur : Nat → Option (Fin 64)) (w : Tracked) : Prop := ∀ t, Good cur w t

theorem metAfter_of_not_reads (hcall : ∀ f, a ≠ .call t f)
    (h : a = .run t → ¬ ReadsPrior (cur t) (w.kernel.thread t).stack) :
    metAfter cur w a t = w.met t :=
  propext ⟨fun hmet => hmet.2.elim id fun ⟨ha, hread, _⟩ => absurd hread (h ha),
    fun hmet => ⟨hcall, .inl hmet⟩⟩

theorem step_stage {s : State} {dev blockNo : BitVec 32} (h : step m cur w.kernel a = some s)
    (hcall : ∀ f, a ≠ .call t f)
    (hstage : Stage (cur t) dev blockNo (w.met t) (w.kernel.thread t).locks
      (w.kernel.thread t).stack) :
    (s.thread t).stack = [] ∨
      Stage (cur t) dev blockNo (metAfter cur w a t) (s.thread t).locks (s.thread t).stack := by
  by_cases hread : a = .run t ∧ ReadsPrior (cur t) (w.kernel.thread t).stack
  · obtain ⟨rfl, hread⟩ := hread
    simp only [step] at h
    split at h
    case h_1 => cases h
    case h_2 d st hadvance =>
      obtain ⟨hmet, hinner⟩ := hstage.reads hread hadvance
      cases hinner
      cases h
      rw [setThread_self]
      refine .inr (.search _ ⟨fun hafter => (hafter.2.resolve_left hmet).2.2, fun hhead => ?_⟩)
      exact ⟨hcall, .inr ⟨rfl, hread, hhead⟩⟩
    case h_3 o st hadvance => cases (hstage.reads hread hadvance).2
  · have hreads : a = .run t → ¬ ReadsPrior (cur t) (w.kernel.thread t).stack :=
      fun ha hr => hread ⟨ha, hr⟩
    rw [metAfter_of_not_reads hcall hreads]
    obtain ht | ⟨f, ha, -⟩ | ⟨d, st, ha, hadvance, ht⟩ | ⟨o, st, ha, hadvance, ht⟩ :=
      step_thread h t
    · rw [ht]
      exact .inr hstage
    · exact absurd ha (hcall f)
    · rw [ht]
      exact .inr (hstage.goes (hreads ha) hadvance)
    · rw [ht]
      obtain ⟨-, hst⟩ | ⟨v, -, hst, -⟩ := hstage.goes (hreads ha) hadvance
      · exact .inr hst
      · exact .inl hst

theorem step_good (h : trackedStep m cur w a = some w') (hw : Good cur w t) : Good cur w' t := by
  obtain ⟨s, hs, rfl⟩ := Option.map_eq_some_iff.mp h
  by_cases hcall : ∃ f, a = .call t f
  · obtain ⟨f, rfl⟩ := hcall
    refine .inr ⟨f, ?_, ?_⟩
    · rw [(step_call hs).2]
      exact entry_balance t (cur t) f _
    · rintro dev blockNo rfl
      rw [(step_call hs).2]
      exact .call m t fun hmet => hmet.1 _ rfl
  · have hcall' : ∀ f, a ≠ .call t f := fun f hf => hcall ⟨f, hf⟩
    by_cases hnil : (s.thread t).stack = []
    · exact .inl hnil
    · obtain hstack | ⟨f, hsafe, hstage⟩ := hw
      · obtain ht | ⟨f, ha, -⟩ | ⟨d, st, -, hadvance, -⟩ | ⟨o, st, -, hadvance, -⟩ :=
          step_thread hs t
        · exact absurd (ht ▸ hstack) hnil
        · exact absurd ha (hcall' f)
        all_goals
          rw [hstack] at hadvance
          cases hadvance
      · obtain ⟨hsafe', hbase⟩ := step_safe hs hcall' hsafe
        refine .inr ⟨f, ?_, fun dev blockNo hf => ?_⟩
        · rwa [hbase]
        · exact (step_stage hs hcall' (hstage dev blockNo hf)).resolve_left hnil

/-- A call that returns leaves the caller with the locks and the layer it had at the call. -/
def Balanced (s : State) (a : Act) : Prop :=
  ∀ t ns f v, AtOp s a t ns (.exit f v) → (s.thread t).locks = (s.thread t).base

/-- A call that returns has given back what it took. -/
def Returning (w : Tracked) (a : Act) : Prop :=
  ∀ t ns f v, AtOp w.kernel a t ns (.exit f v) →
    GivesBack f (w.met t) (w.kernel.thread t).base

theorem balanced_iff_returning (hw : Inv cur w) (a : Act) :
    Balanced w.kernel a ↔ Returning w a := by
  refine forall₄_congr fun t ns f v => imp_congr_right fun hexit => ?_
  obtain ⟨-, st, hadvance, -⟩ := hexit
  obtain hstack | ⟨g, hsafe, hstage⟩ := hw t
  · rw [hstack] at hadvance
    cases hadvance
  · obtain ⟨-, rfl, hleft⟩ := advance_op hadvance hsafe
    rw [hleft]
    refine left_eq_iff _ fun dev blockNo hf => ?_
    have hat := hstage dev blockNo hf
    have hreads : ¬ ReadsPrior (cur t) (w.kernel.thread t).stack := by
      intro hread
      cases (hat.reads hread hadvance).2
    obtain ⟨hne, -⟩ | ⟨v', hexit, -, hmet⟩ := hat.goes hreads hadvance
    · exact absurd rfl (hne f v)
    · cases hexit
      exact hmet

/-- From any locks and data, in any interleaving of calls, the calls that return balance exactly
when none of them is one that keeps a lock. -/
theorem balanced_iff {s : State} {as : List Act} (hs : ∀ t, (s.thread t).stack = []) :
    Meets (step m cur) Balanced s as ↔
      Meets (trackedStep m cur) Returning ⟨s, fun _ => False⟩ as := by
  have hview : ∀ w a, (trackedStep m cur w a).map Tracked.kernel = step m cur w.kernel a := by
    intro w a
    rw [trackedStep, Option.map_map]
    exact Option.map_id'
  have hstart : Inv cur ⟨s, fun _ => False⟩ := fun t => .inl (hs t)
  exact (meets_view hview).symm.trans (meets_iff_meets
    (fun _ _ _ hI _ h t => step_good h (hI t)) (fun _ a hI => balanced_iff_returning hI a) hstart)

/-- All threads outside the functions and all locks free. -/
def freeState : State := idleState zeroData 1

/-- A call of `bget` that finds the list empty, with its return. -/
def emptySearch : List Act := .call 0 (.bget 1 7) :: List.replicate 12 (.run 0)

theorem balanced_iff_emptySearch :
    Meets (step someMacros fun _ => none) Balanced freeState emptySearch ↔
      Meets (trackedStep someMacros fun _ => none) Returning ⟨freeState, fun _ => False⟩
        emptySearch :=
  balanced_iff fun _ => rfl

/-- A call of `consloe_input_handler` up to its return. -/
def inputCall : List Act := .call 0 (.consloeInputHandler 0) :: List.replicate 5 (.run 0)

/-- `consloe_input_handler` returns with `console.lock`. -/
theorem not_balanced : ¬ ∀ (s : State) (as : List Act), (∀ t, (s.thread t).stack = []) →
    Meets (step someMacros fun _ => none) Balanced s as := by
  intro h
  have hmeets := h freeState (inputCall ++ [.run 0]) (fun _ => rfl)
  have hlocks := hmeets.last rfl 0 [] (.consloeInputHandler 0) none ⟨rfl, [], rfl, rfl⟩
  exact take_ne .console noLocks hlocks

end Raynix.LockBalance
