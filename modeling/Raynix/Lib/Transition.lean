import Mathlib.Data.List.Basic

namespace Raynix.Lib.Transition

variable {σ α : Type*}

/-- Follow a list of actions, stopping with `none` at the first one that is not enabled. -/
def run (step : σ → α → Option σ) (s : σ) (as : List α) : Option σ := as.foldlM step s

/-- `P` holds in the start state and in every state the actions lead through. -/
def Always (step : σ → α → Option σ) (P : σ → Prop) : σ → List α → Prop
  | s, [] => P s
  | s, a :: as => P s ∧ ∀ t, step s a = some t → Always step P t as

/-- Every action is taken in a state that meets `ok`. -/
def Meets (step : σ → α → Option σ) (ok : σ → α → Prop) : σ → List α → Prop
  | _, [] => True
  | s, a :: as => ok s a ∧ ∀ t, step s a = some t → Meets step ok t as

variable {step : σ → α → Option σ} {P I : σ → Prop} {ok ok' : σ → α → Prop}

@[simp]
theorem run_nil (s : σ) : run step s [] = some s := rfl

theorem run_cons (s : σ) (a : α) (as : List α) :
    run step s (a :: as) = (step s a).bind (fun t => run step t as) := rfl

theorem run_singleton (s : σ) (a : α) : run step s [a] = step s a := by
  rw [run_cons]
  cases step s a <;> rfl

theorem run_cons_eq_some {s u : σ} {a : α} {as : List α} :
    run step s (a :: as) = some u ↔ ∃ t, step s a = some t ∧ run step t as = some u := by
  rw [run_cons, Option.bind_eq_some_iff]

theorem run_append (s : σ) (as bs : List α) :
    run step s (as ++ bs) = (run step s as).bind (fun t => run step t bs) :=
  List.foldlM_append

theorem run_invariant (hstep : ∀ s a t, I s → step s a = some t → I t) {s t : σ} {as : List α}
    (hs : I s) (h : run step s as = some t) : I t := by
  induction as generalizing s with
  | nil =>
    rw [run_nil, Option.some.injEq] at h
    exact h ▸ hs
  | cons a as ih =>
    obtain ⟨u, hu, ht⟩ := run_cons_eq_some.mp h
    exact ih (hstep s a u hs hu) ht

theorem run_replicate_invariant {a : α} (hstep : ∀ s t, I s → step s a = some t → I t) {s t : σ}
    {n : Nat} (hs : I s) (h : run step s (List.replicate n a) = some t) : I t := by
  induction n generalizing s with
  | zero =>
    rw [List.replicate_zero, run_nil, Option.some.injEq] at h
    exact h ▸ hs
  | succ n ih =>
    rw [List.replicate_succ] at h
    obtain ⟨u, hu, ht⟩ := run_cons_eq_some.mp h
    exact ih (hstep s u hs hu) ht

theorem run_replicate_of_step {a : α} {J : Nat → σ → Prop} {n : Nat}
    (hstep : ∀ i < n, ∀ s, J i s → ∃ t, step s a = some t ∧ J (i + 1) t) {s : σ} (hs : J 0 s) :
    ∃ t, run step s (List.replicate n a) = some t ∧ J n t := by
  induction n with
  | zero => exact ⟨s, rfl, hs⟩
  | succ n ih =>
    obtain ⟨t, ht, hJ⟩ := ih fun i hi => hstep i (by omega)
    obtain ⟨u, hu, hJ'⟩ := hstep n (by omega) t hJ
    refine ⟨u, ?_, hJ'⟩
    rw [List.replicate_succ', run_append, ht, Option.bind_some, run_cons, hu]
    rfl

theorem forall_mem_scanl {f : σ → α → σ} {s : σ} {as : List α} (hs : P s)
    (hstep : ∀ t, ∀ a ∈ as, P t → P (f t a)) : ∀ t ∈ as.scanl f s, P t := by
  induction as generalizing s with
  | nil =>
    intro t ht
    rw [List.scanl_nil, List.mem_singleton] at ht
    exact ht ▸ hs
  | cons a as ih =>
    intro t ht
    rw [List.scanl_cons, List.mem_cons] at ht
    obtain rfl | ht := ht
    · exact hs
    · exact ih (hstep s a List.mem_cons_self hs)
        (fun u b hb => hstep u b (List.mem_cons_of_mem a hb)) t ht

theorem Always.start {s : σ} {as : List α} (h : Always step P s as) : P s := by
  cases as with
  | nil => exact h
  | cons a as => exact h.1

theorem Always.mono {Q : σ → Prop} (hPQ : ∀ s, P s → Q s) {s : σ} {as : List α}
    (h : Always step P s as) : Always step Q s as := by
  induction as generalizing s with
  | nil => exact hPQ s h
  | cons a as ih => exact ⟨hPQ s h.1, fun t ht => ih (h.2 t ht)⟩

theorem Always.final {s t : σ} {as : List α} (h : Always step P s as)
    (ht : run step s as = some t) : P t := by
  induction as generalizing s with
  | nil =>
    rw [run_nil, Option.some.injEq] at ht
    exact ht ▸ h
  | cons a as ih =>
    obtain ⟨u, hu, ht⟩ := run_cons_eq_some.mp ht
    exact ih (h.2 u hu) ht

theorem Always.append {s t : σ} {as bs : List α} (h : Always step P s as)
    (ht : run step s as = some t) (hbs : Always step P t bs) : Always step P s (as ++ bs) := by
  induction as generalizing s with
  | nil =>
    rw [run_nil, Option.some.injEq] at ht
    exact ht ▸ hbs
  | cons a as ih =>
    obtain ⟨u, hu, ht⟩ := run_cons_eq_some.mp ht
    refine ⟨h.1, fun v hv => ?_⟩
    obtain rfl : u = v := Option.some.inj (hu.symm.trans hv)
    exact ih (h.2 u hu) ht

/-- An invariant that needs `P` before each step, along a run in which `P` always holds. -/
theorem Always.run_invariant (hstep : ∀ s a t, I s → P s → step s a = some t → I t) {s t : σ}
    {as : List α} (h : Always step P s as) (hs : I s) (ht : run step s as = some t) : I t := by
  induction as generalizing s with
  | nil =>
    rw [run_nil, Option.some.injEq] at ht
    exact ht ▸ hs
  | cons a as ih =>
    obtain ⟨u, hu, ht⟩ := run_cons_eq_some.mp ht
    exact ih (h.2 u hu) (hstep s a u hs h.1 hu) ht

theorem Always.strengthen (hstep : ∀ s a t, I s → P s → step s a = some t → I t) {s : σ}
    {as : List α} (hs : I s) (h : Always step P s as) : Always step (fun s => I s ∧ P s) s as := by
  induction as generalizing s with
  | nil => exact ⟨hs, h⟩
  | cons a as ih => exact ⟨⟨hs, h.1⟩, fun t ht => ih (hstep s a t hs h.1 ht) (h.2 t ht)⟩

theorem Always.meets (hok : ∀ s a, P s → ok s a) {s : σ} {as : List α}
    (h : Always step P s as) : Meets step ok s as := by
  induction as generalizing s with
  | nil => trivial
  | cons a as ih => exact ⟨hok s a h.1, fun t ht => ih (h.2 t ht)⟩

theorem meets_cons {s t : σ} {a : α} {as : List α} (ht : step s a = some t) :
    Meets step ok s (a :: as) ↔ ok s a ∧ Meets step ok t as := by
  refine and_congr_right fun _ => ⟨fun h => h t ht, fun h u hu => ?_⟩
  rwa [Option.some.inj (hu.symm.trans ht)]

theorem Meets.append {s t : σ} {as bs : List α} (h : Meets step ok s as)
    (ht : run step s as = some t) (hbs : Meets step ok t bs) : Meets step ok s (as ++ bs) := by
  induction as generalizing s with
  | nil =>
    rw [run_nil, Option.some.injEq] at ht
    exact ht ▸ hbs
  | cons a as ih =>
    obtain ⟨u, hu, ht⟩ := run_cons_eq_some.mp ht
    exact (meets_cons hu).mpr ⟨h.1, ih (h.2 u hu) ht⟩

theorem Meets.mono (hok : ∀ s a, ok s a → ok' s a) {s : σ} {as : List α}
    (h : Meets step ok s as) : Meets step ok' s as := by
  induction as generalizing s with
  | nil => trivial
  | cons a as ih => exact ⟨hok s a h.1, fun t ht => ih (h.2 t ht)⟩

theorem always_of_meets (hstep : ∀ s a t, I s → ok s a → step s a = some t → I t)
    {s : σ} {as : List α} (hs : I s) (h : Meets step ok s as) : Always step I s as := by
  induction as generalizing s with
  | nil => exact hs
  | cons a as ih => exact ⟨hs, fun t ht => ih (hstep s a t hs h.1 ht) (h.2 t ht)⟩

theorem Meets.last {s t : σ} {as : List α} {a : α} (h : Meets step ok s (as ++ [a]))
    (ht : run step s as = some t) : ok t a := by
  induction as generalizing s with
  | nil =>
    rw [run_nil, Option.some.injEq] at ht
    exact ht ▸ h.1
  | cons b as ih =>
    obtain ⟨u, hu, ht⟩ := run_cons_eq_some.mp ht
    exact ih (h.2 u hu) ht

theorem Meets.of_invariant (hstep : ∀ s a t, I s → ok s a → step s a = some t → I t)
    (hok : ∀ s a, I s → ok s a → ok' s a) {s : σ} {as : List α} (hs : I s)
    (h : Meets step ok s as) : Meets step ok' s as := by
  induction as generalizing s with
  | nil => trivial
  | cons a as ih =>
    exact ⟨hok s a hs h.1, fun t ht => ih (hstep s a t hs h.1 ht) (h.2 t ht)⟩

theorem meets_of_forall {s : σ} {as : List α} (h : ∀ a ∈ as, ∀ t, ok t a) : Meets step ok s as := by
  induction as generalizing s with
  | nil => trivial
  | cons a as ih =>
    exact ⟨h a List.mem_cons_self s, fun t _ => ih fun b hb => h b (List.mem_cons_of_mem a hb)⟩

theorem meets_true {s : σ} {as : List α} : Meets step (fun _ _ => True) s as := by
  induction as generalizing s with
  | nil => trivial
  | cons a as ih => exact ⟨trivial, fun t _ => ih⟩

theorem meets_and {s : σ} {as : List α} :
    Meets step (fun s a => ok s a ∧ ok' s a) s as ↔ Meets step ok s as ∧ Meets step ok' s as := by
  induction as generalizing s with
  | nil => exact (and_self_iff).symm
  | cons a as ih =>
    constructor
    · rintro ⟨⟨ha, ha'⟩, hrest⟩
      exact ⟨⟨ha, fun t ht => (ih.mp (hrest t ht)).1⟩, ⟨ha', fun t ht => (ih.mp (hrest t ht)).2⟩⟩
    · rintro ⟨⟨ha, hrest⟩, ⟨ha', hrest'⟩⟩
      exact ⟨⟨ha, ha'⟩, fun t ht => ih.mpr ⟨hrest t ht, hrest' t ht⟩⟩

/-- Along a run that meets `side`, a safety property holds exactly when every step meets `ok`,
provided steps meeting both keep an invariant above the property and a step that only meets
`side` breaks the property. -/
theorem always_iff_meets_of {side : σ → α → Prop} (hP : ∀ s, I s → P s)
    (hstep : ∀ s a t, I s → side s a → ok s a → step s a = some t → I t)
    (hbad : ∀ s a t, I s → side s a → ¬ ok s a → step s a = some t → ¬ P t)
    {s u : σ} {as : List α} (hs : I s) (h : run step s as = some u) (hside : Meets step side s as) :
    Always step P s as ↔ Meets step ok s as := by
  constructor
  · intro hp
    induction as generalizing s with
    | nil => trivial
    | cons a as ih =>
      obtain ⟨t, ht, hu⟩ := run_cons_eq_some.mp h
      have hok : ok s a := by
        by_contra hn
        exact hbad s a t hs hside.1 hn ht (hp.2 t ht).start
      refine ⟨hok, fun t' ht' => ?_⟩
      obtain rfl : t = t' := Option.some.inj (ht.symm.trans ht')
      exact ih (hstep s a t hs hside.1 hok ht) hu (hside.2 t ht) (hp.2 t ht)
  · intro hm
    exact (always_of_meets (fun s a t hI hok => hstep s a t hI hok.1 hok.2) hs
      (meets_and.mpr ⟨hside, hm⟩)).mono hP

theorem always_iff_meets (hP : ∀ s, I s → P s)
    (hstep : ∀ s a t, I s → ok s a → step s a = some t → I t)
    (hbad : ∀ s a t, I s → ¬ ok s a → step s a = some t → ¬ P t)
    {s u : σ} {as : List α} (hs : I s) (h : run step s as = some u) :
    Always step P s as ↔ Meets step ok s as :=
  always_iff_meets_of hP (fun s a t hI _ => hstep s a t hI) (fun s a t hI _ => hbad s a t hI)
    hs h meets_true

theorem run_refines {σ' : Type*} {step' : σ' → α → Option σ'} {R : σ → σ' → Prop}
    (hstep : ∀ s s' a t, R s s' → ok s a → step s a = some t → ∃ t', step' s' a = some t' ∧ R t t')
    {s t : σ} {s' : σ'} {as : List α} (hs : R s s') (hok : Meets step ok s as)
    (h : run step s as = some t) : ∃ t', run step' s' as = some t' ∧ R t t' := by
  induction as generalizing s s' with
  | nil =>
    rw [run_nil, Option.some.injEq] at h
    exact ⟨s', rfl, h ▸ hs⟩
  | cons a as ih =>
    obtain ⟨u, hu, ht⟩ := run_cons_eq_some.mp h
    obtain ⟨u', hu', hR⟩ := hstep s s' a u hs hok.1 hu
    obtain ⟨t', ht', hR'⟩ := ih hR (hok.2 u hu) ht
    exact ⟨t', run_cons_eq_some.mpr ⟨u', hu', ht'⟩, hR'⟩

instance decidableMeets [∀ s a, Decidable (ok s a)] :
    ∀ s as, Decidable (Meets step ok s as)
  | _, [] => .isTrue trivial
  | s, a :: as =>
    match h : step s a with
    | none => decidable_of_iff (ok s a)
        ⟨fun ha => ⟨ha, fun t ht => by rw [h] at ht; cases ht⟩, fun hm => hm.1⟩
    | some t =>
      have : Decidable (Meets step ok t as) := decidableMeets t as
      decidable_of_iff (ok s a ∧ Meets step ok t as)
        ⟨fun ⟨ha, hm⟩ => ⟨ha, fun u hu => by rw [h] at hu; cases hu; exact hm⟩,
          fun hm => ⟨hm.1, hm.2 t h⟩⟩

/-- Two step conditions agree along a run when they agree wherever the invariant holds. -/
theorem meets_iff_meets (hstep : ∀ s a t, I s → ok' s a → step s a = some t → I t)
    (hiff : ∀ s a, I s → (ok s a ↔ ok' s a)) {s : σ} {as : List α} (hs : I s) :
    Meets step ok s as ↔ Meets step ok' s as := by
  induction as generalizing s with
  | nil => exact Iff.rfl
  | cons a as ih =>
    constructor
    · rintro ⟨ha, hrest⟩
      have ha' := (hiff s a hs).mp ha
      exact ⟨ha', fun t ht => (ih (hstep s a t hs ha' ht)).mp (hrest t ht)⟩
    · rintro ⟨ha', hrest⟩
      exact ⟨(hiff s a hs).mpr ha', fun t ht => (ih (hstep s a t hs ha' ht)).mpr (hrest t ht)⟩

/-- A condition on what a larger state shows of a run is one on the run. -/
theorem meets_view {τ : Type*} {step' : τ → α → Option τ} {view : τ → σ}
    (hview : ∀ w a, (step' w a).map view = step (view w) a) {w : τ} {as : List α} :
    Meets step' (fun w a => ok (view w) a) w as ↔ Meets step ok (view w) as := by
  induction as generalizing w with
  | nil => exact Iff.rfl
  | cons a as ih =>
    refine and_congr_right fun _ => ⟨fun h t ht => ?_, fun h w' hw' => ?_⟩
    · rw [← hview, Option.map_eq_some_iff] at ht
      obtain ⟨w', hw', rfl⟩ := ht
      exact ih.mp (h w' hw')
    · refine ih.mpr (h (view w') ?_)
      rw [← hview, hw', Option.map_some]

theorem meets_iff_meets_of {side : σ → α → Prop}
    (hstep : ∀ s a t, I s → side s a → ok' s a → step s a = some t → I t)
    (hiff : ∀ s a, I s → (ok s a ↔ ok' s a)) {s : σ} {as : List α} (hs : I s)
    (hside : Meets step side s as) : Meets step ok s as ↔ Meets step ok' s as := by
  have hboth : Meets step (fun s a => side s a ∧ ok s a) s as ↔
      Meets step (fun s a => side s a ∧ ok' s a) s as :=
    meets_iff_meets (fun s a t hI ha => hstep s a t hI ha.1 ha.2)
      (fun s a hI => and_congr_right fun _ => hiff s a hI) hs
  rw [meets_and, meets_and] at hboth
  exact ⟨fun h => (hboth.mp ⟨hside, h⟩).2, fun h => (hboth.mpr ⟨hside, h⟩).2⟩

theorem always_iff_always {Q : σ → Prop} {side : σ → α → Prop}
    (hstep : ∀ s a t, I s → side s a → step s a = some t → I t) (hiff : ∀ s, I s → (P s ↔ Q s))
    {s : σ} {as : List α} (hs : I s) (hside : Meets step side s as) :
    Always step P s as ↔ Always step Q s as := by
  induction as generalizing s with
  | nil => exact hiff s hs
  | cons a as ih =>
    refine and_congr (hiff s hs) (forall₂_congr fun t ht => ?_)
    exact ih (hstep s a t hs hside.1 ht) (hside.2 t ht)

section Simulation

variable {σ' β : Type*} {step' : σ' → β → Option σ'} {see : σ → α → List β} {visible : β → Bool}
  {R : σ → σ' → Prop}

/-- What can be seen of a run. -/
def observed (step : σ → α → Option σ) (see : σ → α → List β) : σ → List α → List β
  | _, [] => []
  | s, a :: as =>
    see s a ++ match step s a with
      | some t => observed step see t as
      | none => []

/-- Steps each matched by a run with the same visible events make runs so matched. -/
theorem run_simulates
    (hstep : ∀ s s' a t, R s s' → ok s a → step s a = some t →
      ∃ bs t', run step' s' bs = some t' ∧ bs.filter visible = see s a ∧ R t t')
    {s t : σ} {s' : σ'} {as : List α} (hs : R s s') (hok : Meets step ok s as)
    (h : run step s as = some t) :
    ∃ bs t', run step' s' bs = some t' ∧ bs.filter visible = observed step see s as ∧ R t t' := by
  induction as generalizing s s' with
  | nil =>
    rw [run_nil, Option.some.injEq] at h
    exact ⟨[], s', rfl, rfl, h ▸ hs⟩
  | cons a as ih =>
    obtain ⟨u, hu, ht⟩ := run_cons_eq_some.mp h
    obtain ⟨bs, u', hbs, hsee, hR⟩ := hstep s s' a u hs hok.1 hu
    obtain ⟨bs', t', hbs', hsee', hR'⟩ := ih hR (hok.2 u hu) ht
    refine ⟨bs ++ bs', t', ?_, ?_, hR'⟩
    · rw [run_append, hbs, Option.bind_some, hbs']
    · rw [List.filter_append, hsee, hsee', observed, hu]

end Simulation

end Raynix.Lib.Transition
