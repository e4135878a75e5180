import Mathlib.Data.Set.Basic
import Mathlib.Logic.Function.Basic
import Raynix.Lib.Transition

namespace Raynix.Lib.Threads

open Raynix.Lib.Transition

variable {ι L A V α : Type*}

/-- Threads with states of their own and one memory. -/
structure State (ι L A V : Type*) where
  own : ι → L
  mem : A → V

def Agree (S : Set A) (m m' : A → V) : Prop := ∀ a ∈ S, m' a = m a

theorem Agree.refl (S : Set A) (m : A → V) : Agree S m m := fun _ _ => rfl

theorem Agree.trans {S : Set A} {m m' m'' : A → V} (h : Agree S m m') (h' : Agree S m' m'') :
    Agree S m m'' :=
  fun a ha => (h' a ha).trans (h a ha)

theorem Agree.symm {S : Set A} {m m' : A → V} (h : Agree S m m') : Agree S m' m :=
  fun a ha => (h a ha).symm

theorem Agree.mono {S T : Set A} {m m' : A → V} (hS : S ⊆ T) (h : Agree T m m') : Agree S m m' :=
  fun a ha => h a (hS ha)

/-- What the action `a` of thread `i` makes of its state and the memory, if it is enabled. -/
abbrev Effect (ι α L A V : Type*) := ι → α → L × (A → V) → Option (L × (A → V))

/-- Each thread keeps its own invariant, which no other thread can break: the actions of thread `i`
that are `ok` depend on its state and on the cells of `foot i`, and change those of no other
thread. -/
structure Separate (act : Effect ι α L A V) (ok : α → Prop) (foot : ι → Set A)
    (inv : ι → L → (A → V) → Prop) : Prop where
  reads : ∀ {i l m n}, inv i l m → Agree (foot i) m n → inv i l n
  keeps : ∀ {i a l m l' m'}, inv i l m → ok a → act i a (l, m) = some (l', m') → inv i l' m'
  frame : ∀ {i a l m l' m'}, inv i l m → ok a → act i a (l, m) = some (l', m') →
    ∀ j, j ≠ i → Agree (foot j) m m'
  follows : ∀ {i a l m l' m' n}, inv i l m → ok a → act i a (l, m) = some (l', m') →
    Agree (foot i) m n → ∃ n', act i a (l, n) = some (l', n') ∧ Agree (foot i) m' n'

variable [DecidableEq ι]

/-- Any interleaving: thread `x.1` takes the action `x.2`. -/
def step (act : Effect ι α L A V) (s : State ι L A V) (x : ι × α) : Option (State ι L A V) :=
  (act x.1 x.2 (s.own x.1, s.mem)).map fun r => ⟨Function.update s.own x.1 r.1, r.2⟩

variable {act : Effect ι α L A V} {ok : α → Prop} {foot : ι → Set A} {inv : ι → L → (A → V) → Prop}
  {s t : State ι L A V}

theorem step_eq_some {i : ι} {a : α} (h : step act s (i, a) = some t) :
    act i a (s.own i, s.mem) = some (t.own i, t.mem) ∧ ∀ j, j ≠ i → t.own j = s.own j := by
  obtain ⟨⟨l, m⟩, hact, rfl⟩ := Option.map_eq_some_iff.mp h
  refine ⟨?_, fun j hj => Function.update_of_ne hj _ _⟩
  simpa using hact

theorem step_inv (hsep : Separate act ok foot inv) (hs : ∀ i, inv i (s.own i) s.mem) {x : ι × α}
    (hok : ok x.2) (h : step act s x = some t) (j : ι) : inv j (t.own j) t.mem := by
  obtain ⟨i, a⟩ := x
  obtain ⟨hact, hother⟩ := step_eq_some h
  by_cases hj : j = i
  · subst hj
    exact hsep.keeps (hs j) hok hact
  · rw [hother j hj]
    exact hsep.reads (hs j) (hsep.frame (hs i) hok hact j hj)

theorem run_inv (hsep : Separate act ok foot inv) (hs : ∀ i, inv i (s.own i) s.mem)
    {xs : List (ι × α)} (hok : ∀ x ∈ xs, ok x.2) (h : run (step act) s xs = some t) :
    ∀ i, inv i (t.own i) t.mem := by
  induction xs generalizing s with
  | nil =>
    rw [run_nil, Option.some.injEq] at h
    exact h ▸ hs
  | cons x xs ih =>
    obtain ⟨u, hu, ht⟩ := run_cons_eq_some.mp h
    obtain ⟨hx, hxs⟩ := List.forall_mem_cons.mp hok
    exact ih (step_inv hsep hs hx hu) hxs ht

end Raynix.Lib.Threads
