import Raynix.Spinlock
import Mathlib.Algebra.Group.Int.Defs
import Mathlib.Tactic.Common

namespace Raynix.InterruptNesting

open Raynix.Lib.Transition Raynix.Spinlock

variable {H L : Type} [DecidableEq H] [DecidableEq L]

theorem getLsbD_sstatusSie (i : Nat) : sstatusSie.getLsbD i = decide (i = 1) := by
  have h : sstatusSie = BitVec.twoPow 64 1 := by decide
  rw [h, BitVec.getLsbD_twoPow, show decide (1 < 64) = true from rfl, Bool.true_and]
  exact decide_eq_decide.mpr eq_comm

/-- `SSTATUS_SIE == 0` is false, so the test of the status word in `push_inter_off` is dead. -/
theorem pushInterOff_interruptDisabled (h : Hart) :
    (pushInterOff h).interruptDisabled = if h.lockLayer = 0 then 1 else 0 := by
  have hz : (if sstatusSie = 0 then 1#64 else 0#64) = 0#64 := by decide
  simp only [pushInterOff, BitVec.ofNat_eq_ofNat] at hz ⊢
  rw [hz, BitVec.and_zero]
  simp

theorem pushInterOff_lockLayer (h : Hart) : (pushInterOff h).lockLayer = h.lockLayer + 1 := rfl

theorem pushInterOff_sstatus (h : Hart) : (pushInterOff h).sstatus =
    if h.lockLayer = 0 then h.sstatus ||| ~~~sstatusSie else h.sstatus := rfl

theorem popInterOff_interruptDisabled (h : Hart) :
    (popInterOff h).interruptDisabled = h.interruptDisabled := by
  simp only [popInterOff]
  split <;> rfl

theorem popInterOff_lockLayer (h : Hart) : (popInterOff h).lockLayer = h.lockLayer - 1 := by
  simp only [popInterOff]
  split <;> rfl

theorem popInterOff_sstatus (h : Hart) : (popInterOff h).sstatus =
    if h.lockLayer - 1 = 0 ∧ h.interruptDisabled = 0 then h.sstatus ||| sstatusSie
    else h.sstatus := by
  simp only [popInterOff]
  split <;> rfl

theorem pushInterOff_sie (h : Hart) :
    (pushInterOff h).sstatus.getLsbD 1 = h.sstatus.getLsbD 1 := by
  rw [pushInterOff_sstatus]
  split
  · simp only [BitVec.getLsbD_or, BitVec.getLsbD_not, getLsbD_sstatusSie, decide_true,
      Bool.not_true, Bool.and_false, Bool.or_false]
  · rfl

theorem popInterOff_sie (h : Hart) : (popInterOff h).sstatus.getLsbD 1 =
    (h.sstatus.getLsbD 1 || decide (h.lockLayer - 1 = 0 ∧ h.interruptDisabled = 0)) := by
  rw [popInterOff_sstatus]
  by_cases hr : h.lockLayer - 1 = 0 ∧ h.interruptDisabled = 0
  · rw [if_pos hr, decide_eq_true hr, BitVec.getLsbD_or, getLsbD_sstatusSie]
    rfl
  · rw [if_neg hr, decide_eq_false hr, Bool.or_false]

theorem popInterOff_other (h : Hart) (i : Nat) (hi : i ≠ 1) :
    (popInterOff h).sstatus.getLsbD i = h.sstatus.getLsbD i := by
  rw [popInterOff_sstatus]
  split
  · simp only [BitVec.getLsbD_or, getLsbD_sstatusSie, hi, decide_false, Bool.or_false]
  · rfl

/-- Outside SIE no bit is ever cleared, and a push at layer 0 sets them all. -/
theorem pushInterOff_other (h : Hart) (i : Nat) (hi : i ≠ 1) (hw : i < 64) :
    (pushInterOff h).sstatus.getLsbD i = (h.sstatus.getLsbD i || decide (h.lockLayer = 0)) := by
  rw [pushInterOff_sstatus]
  split <;> rename_i hl <;>
    simp only [hl, hi, hw, BitVec.getLsbD_or, BitVec.getLsbD_not, getLsbD_sstatusSie, decide_true,
      decide_false, Bool.not_false, Bool.and_true, Bool.or_false]

/-- Some pop empties the counter although the latest push before it was a nested one. -/
def reopens (layer : BitVec 32) (nested : Bool) : List InterOp → Bool
  | [] => false
  | .push :: ops => reopens (layer + 1) (layer ≠ 0) ops
  | .pop :: ops => (layer - 1 = 0 && nested) || reopens (layer - 1) nested ops

@[simp]
theorem runOps_cons (h : Hart) (op : InterOp) (ops : List InterOp) :
    runOps h (op :: ops) = runOps (op.apply h) ops := rfl

theorem runOps_sie (h : Hart) (ops : List InterOp) : (runOps h ops).sstatus.getLsbD 1 =
    (h.sstatus.getLsbD 1 || reopens h.lockLayer (h.interruptDisabled = 0) ops) := by
  induction ops generalizing h with
  | nil => simp [runOps, reopens]
  | cons op ops ih =>
    rw [runOps_cons, ih]
    cases op with
    | push =>
      have hd : decide ((pushInterOff h).interruptDisabled = 0) = decide (h.lockLayer ≠ 0) := by
        rw [pushInterOff_interruptDisabled]
        by_cases hl : h.lockLayer = 0
        · simp [hl]
        · rw [if_neg hl, decide_eq_true hl]
          rfl
      rw [InterOp.apply, reopens, pushInterOff_sie, pushInterOff_lockLayer, hd]
    | pop =>
      simp only [InterOp.apply, reopens, popInterOff_sie, popInterOff_lockLayer,
        popInterOff_interruptDisabled, Bool.decide_and, Bool.or_assoc]

theorem runOps_other_mono (h : Hart) (ops : List InterOp) (i : Nat) (hi : i ≠ 1) (hw : i < 64)
    (hb : h.sstatus.getLsbD i = true) : (runOps h ops).sstatus.getLsbD i = true := by
  induction ops generalizing h with
  | nil => exact hb
  | cons op ops ih =>
    rw [runOps_cons]
    refine ih _ ?_
    cases op with
    | push => simp [InterOp.apply, pushInterOff_other h i hi hw, hb]
    | pop => simp [InterOp.apply, popInterOff_other h i hi, hb]

theorem runOps_lockLayer (n : Nat) {h : Hart} {ops : List InterOp} {m : Nat}
    (hl : h.lockLayer = BitVec.ofNat 32 n) (hd : depth n ops = some m) :
    (runOps h ops).lockLayer = BitVec.ofNat 32 m := by
  induction ops generalizing h n with
  | nil =>
    simp only [depth, List.foldlM_nil, Option.pure_def, Option.some.injEq] at hd
    exact hd ▸ hl
  | cons op ops ih =>
    simp only [depth, List.foldlM_cons, Option.bind_eq_bind, Option.bind_eq_some_iff] at hd
    obtain ⟨k, hk, hd⟩ := hd
    rw [runOps_cons]
    refine ih k ?_ hd
    cases op with
    | push =>
      simp only [InterOp.depth, Option.some.injEq] at hk
      subst k
      rw [InterOp.apply, pushInterOff_lockLayer, hl]
      exact (BitVec.ofNat_add n 1).symm
    | pop =>
      simp only [InterOp.depth, Option.ite_none_right_eq_some, Option.some.injEq] at hk
      obtain ⟨hn, rfl⟩ := hk
      rw [InterOp.apply, popInterOff_lockLayer, hl]
      bv_omega

theorem and_sie_eq_zero_iff (x : BitVec 64) : x &&& sstatusSie = 0 ↔ x.getLsbD 1 = false := by
  constructor
  · intro h
    have hb := congrArg (fun y => y.getLsbD 1) h
    simpa only [BitVec.getLsbD_and, getLsbD_sstatusSie, decide_true, Bool.and_true] using! hb
  · intro h
    apply BitVec.eq_of_getLsbD_eq
    intro i _
    by_cases hi : i = 1
    · subst i
      rw [BitVec.getLsbD_and, h, Bool.false_and]
      rfl
    · rw [BitVec.getLsbD_and, getLsbD_sstatusSie, decide_eq_false hi, Bool.and_false]
      exact BitVec.getLsbD_zero.symm

theorem or_sie_eq_allOnes_iff (x : BitVec 64) :
    x ||| sstatusSie = BitVec.allOnes 64 ↔ ∀ i, i ≠ 1 → i < 64 → x.getLsbD i = true := by
  constructor
  · intro h i hi hw
    have hb := congrArg (fun y => y.getLsbD i) h
    simpa only [BitVec.getLsbD_or, getLsbD_sstatusSie, BitVec.getLsbD_allOnes, hi, hw,
      decide_true, decide_false, Bool.or_false] using hb
  · intro h
    apply BitVec.eq_of_getLsbD_eq
    intro i hw
    rw [BitVec.getLsbD_or, getLsbD_sstatusSie, BitVec.getLsbD_allOnes, decide_eq_true hw]
    by_cases hi : i = 1
    · rw [decide_eq_true hi, Bool.or_true]
    · rw [h i hi hw, Bool.true_or]

/-- The SIE bit and the other bits of `sstatus` are back, and no lock layer is left. -/
structure RoundTrip (before after : Hart) : Prop where
  sie : after.sstatus &&& sstatusSie = before.sstatus &&& sstatusSie
  other : after.sstatus &&& ~~~sstatusSie = before.sstatus &&& ~~~sstatusSie
  lockLayer : after.lockLayer = 0

theorem roundTrip_iff_eq (before after : Hart) :
    RoundTrip before after ↔ after.sstatus = before.sstatus ∧ after.lockLayer = 0 := by
  constructor
  · rintro ⟨hs, ho, hl⟩
    refine ⟨?_, hl⟩
    apply BitVec.eq_of_getLsbD_eq
    intro i hw
    have hsi := congrArg (fun y => y.getLsbD i) hs
    have hoi := congrArg (fun y => y.getLsbD i) ho
    simp only [BitVec.getLsbD_and, BitVec.getLsbD_not, getLsbD_sstatusSie, hw, decide_true,
      Bool.true_and] at hsi hoi
    by_cases hi : i = 1
    · simpa only [hi, decide_true, Bool.and_true] using hsi
    · simpa only [hi, decide_false, Bool.not_false, Bool.and_true] using hoi
  · rintro ⟨hs, hl⟩
    exact ⟨by rw [hs], by rw [hs], hl⟩

/-- When a balanced sequence of pushes and pops gives the hart back as it found it: it is empty,
or the bits beside SIE were already set and SIE was set or is never reopened. -/
def Restores (sstatus : BitVec 64) (ops : List InterOp) : Prop :=
  ops = [] ∨ sstatus ||| sstatusSie = BitVec.allOnes 64 ∧
    (sstatus &&& sstatusSie ≠ 0 ∨ reopens 0 false ops = false)

theorem runOps_sstatus_eq_iff {h : Hart} {ops : List InterOp} {m : Nat}
    (hl : h.lockLayer = 0) (hd : depth 0 ops = some m) :
    (runOps h ops).sstatus = h.sstatus ↔ Restores h.sstatus ops := by
  cases ops with
  | nil => simp [runOps, Restores]
  | cons op ops =>
    cases op with
    | pop => simp [depth, InterOp.depth] at hd
    | push =>
      have hsie := runOps_sie h (.push :: ops)
      have hre : reopens h.lockLayer (h.interruptDisabled = 0) (.push :: ops) =
          reopens 0 false (.push :: ops) := by rw [hl]; rfl
      rw [hre] at hsie
      have hother : ∀ i, i ≠ 1 → i < 64 →
          (runOps h (.push :: ops)).sstatus.getLsbD i = true := by
        intro i hi hw
        refine runOps_other_mono _ ops i hi hw ?_
        change (pushInterOff h).sstatus.getLsbD i = true
        rw [pushInterOff_other h i hi hw, decide_eq_true hl, Bool.or_true]
      simp only [Restores, reduceCtorEq, false_or, or_sie_eq_allOnes_iff, ne_eq,
        and_sie_eq_zero_iff, Bool.not_eq_false]
      constructor
      · intro he
        refine ⟨fun i hi hw => he ▸ hother i hi hw, ?_⟩
        rw [he] at hsie
        cases hb : h.sstatus.getLsbD 1 <;> simp_all
      · rintro ⟨hones, hor⟩
        apply BitVec.eq_of_getLsbD_eq
        intro i hw
        by_cases hi : i = 1
        · subst i
          rw [hsie]
          obtain h1 | h1 := hor
          all_goals
            rw [h1]
            simp
        · rw [hother i hi hw, hones i hi hw]

theorem roundTrip_iff {m u : Machine H L} {as : List (Act H L)} (h : run step m as = some u)
    (k : H) (hp : m.pending k = 0) (hl : (m.harts k).lockLayer = 0) (hb : u.pending k = 0) :
    RoundTrip (m.harts k) (u.harts k) ↔ Restores (m.harts k).sstatus (interOps k as) := by
  obtain ⟨hu, hd⟩ := run_hart h k
  rw [hp, hb] at hd
  have hlayer : (u.harts k).lockLayer = 0 := by
    rw [hu]
    exact runOps_lockLayer 0 hl hd
  rw [roundTrip_iff_eq, hu, runOps_sstatus_eq_iff hl hd, ← hu]
  exact and_iff_left hlayer

/-- All harts between calls with no lock layer, all locks free. -/
def idleMachine (sstatus : BitVec 64) : Machine H L where
  harts _ := ⟨sstatus, 0, 0, 0⟩
  available _ := 1
  pc _ := .idle
  returned _ := 0
  pending _ := 0

theorem roundTrip_iff_acquire : ∃ u : Machine Unit Bool,
    run step (idleMachine (BitVec.allOnes 64)) [.acquire () true, .exchange (),
      .acquire () false, .exchange (), .release () true, .finish (), .release () false,
      .finish ()] = some u ∧
    (RoundTrip ((idleMachine (BitVec.allOnes 64) : Machine Unit Bool).harts ()) (u.harts ()) ↔
      Restores (BitVec.allOnes 64) [.push, .push, .pop, .pop]) := by
  have h : run step (idleMachine (BitVec.allOnes 64) : Machine Unit Bool) [.acquire () true,
    .exchange (), .acquire () false, .exchange (), .release () true, .finish (),
    .release () false, .finish ()] = some _ := rfl
  exact ⟨_, h, roundTrip_iff h () rfl rfl rfl⟩

/-- With interrupts off from the start, two nested pushes and their pops switch them on. -/
theorem not_roundTrip : ¬ ∀ (m u : Machine Unit Unit) (as : List (Act Unit Unit)),
    run step m as = some u → m.pending () = 0 → (m.harts ()).lockLayer = 0 → u.pending () = 0 →
      RoundTrip (m.harts ()) (u.harts ()) := by
  intro h
  have hr := h (idleMachine 0) _ [.push (), .push (), .pop (), .pop ()] rfl rfl rfl rfl
  exact absurd hr.sie (by decide)

/-- The counter equals the pushes not yet popped, and SIE is clear while it is positive. -/
def InterruptsOff (k : H) (m : Machine H L) : Prop :=
  (m.harts k).lockLayer.toInt = m.pending k ∧
    (0 < (m.harts k).lockLayer.toInt → (m.harts k).sstatus &&& sstatusSie = 0)

/-- An outermost push finds SIE already clear, and no push overflows the counter. -/
def PushesQuietly (k : H) (m : Machine H L) (a : Act H L) : Prop :=
  interOp k a = some .push →
    (m.harts k).lockLayer.toInt < 2 ^ 31 - 1 ∧
      ((m.harts k).lockLayer = 0 → (m.harts k).sstatus &&& sstatusSie = 0)

theorem toInt_add_one {b : BitVec 32} (h : b.toInt < 2 ^ 31 - 1) :
    (b + 1).toInt = b.toInt + 1 := by
  rw [BitVec.toInt_eq_toNat_cond] at h ⊢
  rw [BitVec.toInt_eq_toNat_cond, BitVec.toNat_add]
  have hb := b.isLt
  simp only [BitVec.ofNat_eq_ofNat, BitVec.toNat_ofNat]
  split at h <;> omega

theorem toInt_add_one_neg {b : BitVec 32} (h : ¬ b.toInt < 2 ^ 31 - 1) : (b + 1).toInt < 0 := by
  rw [BitVec.toInt_eq_toNat_cond] at h ⊢
  rw [BitVec.toNat_add]
  have hb := b.isLt
  simp only [BitVec.ofNat_eq_ofNat, BitVec.toNat_ofNat]
  split at h <;> omega

theorem toInt_sub_one {b : BitVec 32} (h : 0 < b.toInt) : (b - 1).toInt = b.toInt - 1 := by
  rw [BitVec.toInt_eq_toNat_cond] at h ⊢
  rw [BitVec.toInt_eq_toNat_cond, BitVec.toNat_sub]
  have hb := b.isLt
  simp only [BitVec.ofNat_eq_ofNat, BitVec.toNat_ofNat]
  split at h <;> omega

theorem toInt_pos {b : BitVec 32} (h : 0 ≤ b.toInt) (hz : b ≠ 0) : 0 < b.toInt := by
  have hne : b.toInt ≠ 0 := fun he => hz (BitVec.eq_of_toInt_eq he)
  omega

theorem step_interruptsOff {k : H} {m m' : Machine H L} {a : Act H L} (hm : InterruptsOff k m)
    (hq : PushesQuietly k m a) (h : step m a = some m') : InterruptsOff k m' := by
  obtain ⟨hl, hs⟩ := hm
  obtain ⟨_, hh, hp⟩ | ⟨op, hop, hh, hp⟩ := step_hart h k
  · rw [InterruptsOff, hh, hp]
    exact ⟨hl, hs⟩
  · cases op with
    | push =>
      obtain ⟨hmax, hz⟩ := hq hop
      simp only [InterOp.depth, Option.some.injEq] at hp
      have hlayer : (m'.harts k).lockLayer.toInt = m'.pending k := by
        rw [hh, InterOp.apply, pushInterOff_lockLayer, toInt_add_one hmax, hl, ← hp]
        rfl
      refine ⟨hlayer, fun _ => ?_⟩
      rw [hh, and_sie_eq_zero_iff, InterOp.apply, pushInterOff_sie, ← and_sie_eq_zero_iff]
      by_cases hzero : (m.harts k).lockLayer = 0
      · exact hz hzero
      · exact hs (toInt_pos (by omega) hzero)
    | pop =>
      simp only [InterOp.depth, Option.ite_none_right_eq_some, Option.some.injEq] at hp
      obtain ⟨hpos, hp⟩ := hp
      have hpop : ((m.harts k).lockLayer - 1).toInt = m'.pending k := by
        rw [toInt_sub_one (by omega)]
        omega
      refine ⟨by rw [hh, InterOp.apply, popInterOff_lockLayer, hpop], fun hgt => ?_⟩
      rw [hh, InterOp.apply, popInterOff_lockLayer] at hgt
      rw [hh, InterOp.apply, popInterOff_sstatus, if_neg]
      · exact hs (by omega)
      · rintro ⟨hzero, _⟩
        rw [hzero] at hgt
        exact absurd hgt (by decide)

/-- An outermost push leaves SIE as it finds it, so one made with SIE set keeps it set. -/
theorem not_interruptsOff_of_push {k : H} {m m' : Machine H L} {a : Act H L}
    (hm : InterruptsOff k m) (hq : ¬ PushesQuietly k m a) (h : step m a = some m') :
    ¬ InterruptsOff k m' := by
  obtain ⟨hl, _⟩ := hm
  simp only [PushesQuietly, Classical.not_imp, not_and_or] at hq
  obtain ⟨hop, hq⟩ := hq
  obtain ⟨hnone, _⟩ | ⟨op, hsome, hh, hp⟩ := step_hart h k
  · rw [hnone] at hop
    cases hop
  · obtain rfl : op = .push := Option.some.inj (hsome.symm.trans hop)
    rintro ⟨hl', hs'⟩
    rw [hh, InterOp.apply, pushInterOff_lockLayer] at hl' hs'
    obtain hmax | ⟨hzero, hsie⟩ := hq
    · have hneg := toInt_add_one_neg hmax
      omega
    · rw [hzero, and_sie_eq_zero_iff, pushInterOff_sie, ← and_sie_eq_zero_iff] at hs'
      exact hsie (hs' (by decide))

/-- Along a run from lock layer 0 interrupts stay off while a layer is held exactly when every
outermost push already finds them off. -/
theorem always_interruptsOff_iff {m u : Machine H L} {as : List (Act H L)}
    (h : run step m as = some u) (k : H) (hp : m.pending k = 0) (hl : (m.harts k).lockLayer = 0) :
    Always step (InterruptsOff k) m as ↔ Meets step (PushesQuietly k) m as := by
  refine always_iff_meets (fun _ hs => hs) (fun _ _ _ => step_interruptsOff)
    (fun _ _ _ => not_interruptsOff_of_push) ⟨?_, fun hpos => ?_⟩ h
  · rw [hl, hp]
    rfl
  · rw [hl] at hpos
    exact absurd hpos (by decide)

theorem always_interruptsOff_iff_acquire :
    Always step (InterruptsOff ()) (idleMachine 0 : Machine Unit Unit)
        [.acquire () (), .exchange (), .release () (), .finish ()] ↔
      Meets step (PushesQuietly ()) (idleMachine 0 : Machine Unit Unit)
        [.acquire () (), .exchange (), .release () (), .finish ()] :=
  always_interruptsOff_iff rfl () rfl rfl

/-- A single push with interrupts on leaves them on under a held layer. -/
theorem not_interruptsOff : ¬ ∀ (m u : Machine Unit Unit) (as : List (Act Unit Unit)),
    run step m as = some u → m.pending () = 0 → (m.harts ()).lockLayer = 0 →
      InterruptsOff () u := by
  intro h
  have hi := h (idleMachine sstatusSie) _ [.push ()] rfl rfl rfl
  exact absurd (hi.2 (by decide)) (by decide)

end Raynix.InterruptNesting
