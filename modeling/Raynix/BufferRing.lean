import Mathlib.Data.Fintype.EquivFin
import Mathlib.Data.Fintype.Option
import Raynix.BufferCache

namespace Raynix.BufferRing

open Raynix.Lib.LinkedRing Raynix.Lib.Transition Raynix.BufferCache

variable {P : Type} [DecidableEq P]

/-- `next` leads from the head through all buffers in the given order and back, and `prior` is
its exact inverse on all nodes. -/
structure WellLinked (r : Links Node) (order : List (Fin 30)) : Prop where
  path : Path r.next .head (order.map .buf) .head
  nodup : order.Nodup
  complete : ∀ i, i ∈ order
  prior_next : ∀ n, r.prior (r.next n) = n
  next_prior : ∀ n, r.next (r.prior n) = n

theorem buf_injective : Function.Injective Node.buf := by
  intro i j h
  cases h
  rfl

instance : Finite Node := by
  refine Finite.of_injective (fun | .head => none | .buf i => some i) ?_
  intro m n h
  cases m <;> cases n <;> simp_all

theorem next_prior_of_prior_next {r : Links Node} (h : ∀ n, r.prior (r.next n) = n) (n : Node) :
    r.next (r.prior n) = n := by
  have hinj : Function.Injective r.next := Function.LeftInverse.injective h
  obtain ⟨m, rfl⟩ := Finite.surjective_of_injective hinj n
  rw [h m]

theorem nodup_head_cons {order : List (Fin 30)} (h : order.Nodup) :
    (Node.head :: order.map .buf).Nodup := by
  refine List.nodup_cons.mpr ⟨?_, h.map buf_injective⟩
  simp

theorem mem_head_cons {order : List (Fin 30)} (h : ∀ i, i ∈ order) (n : Node) :
    n ∈ Node.head :: order.map .buf := by
  cases n with
  | head => simp
  | buf i => simp [h i]

theorem wellLinked_of_isRing {r : Links Node} {order : List (Fin 30)}
    (h : IsRing r .head (order.map .buf)) (hc : ∀ i, i ∈ order) : WellLinked r order := by
  have hinv : ∀ n, r.prior (r.next n) = n := fun n => h.prior_next n (mem_head_cons hc n)
  refine ⟨h.path, ?_, hc, hinv, next_prior_of_prior_next hinv⟩
  exact (List.nodup_cons.mp h.nodup).2.of_map _

theorem binitLoop_link (cursor b : Node) (is : List (Fin 30)) (r : Links Node) :
    (binitLoop cursor is r).2.link (binitLoop cursor is r).1 b =
      r.linkAll cursor (is.map .buf ++ [b]) := by
  induction is generalizing cursor r with
  | nil => rfl
  | cons i is ih => exact ih _ _

theorem binit_wellLinked (c : Cache) : WellLinked (binit c).ring (List.finRange 30) := by
  have hring : (binit c).ring =
      c.ring.linkAll .head ((List.finRange 30).map .buf ++ [.head]) :=
    binitLoop_link (.buf 0) .head (List.finRange 30).tail (c.ring.link .head (.buf 0))
  refine wellLinked_of_isRing ?_ List.mem_finRange
  rw [hring]
  exact isRing_linkAll _ _ _ (nodup_head_cons (List.nodup_finRange 30))

theorem sub_one_eq_zero {x : BitVec 32} : x - 1 = 0 ↔ x = 1 := by
  constructor <;> intro h <;> bv_omega

theorem dropLink_ring (c : Cache) (i : Fin 30) : (dropLink c i).ring =
    if (c.buffers i).linkNo = 1 then relink c.ring (.buf i) else c.ring := by
  by_cases h : (c.buffers i).linkNo = 1
  · rw [if_pos h, dropLink, if_pos (sub_one_eq_zero.mpr h)]
    rfl
  · rw [if_neg h, dropLink, if_neg (fun h0 => h (sub_one_eq_zero.mp h0))]
    rfl

theorem relink_next (r : Links Node) (b : Node) : (relink r b).next =
    Function.update (Function.update (Function.update r.next (r.prior b) (r.next b)) b
      (Function.update r.next (r.prior b) (r.next b) .head)) .head b := rfl

theorem relink_prior (r : Links Node) (b : Node) : (relink r b).prior =
    Function.update (Function.update r.prior (r.next b) (r.prior b)) b .head := by
  have hb : Function.update r.next (r.prior b) (r.next b) b = r.next b := by
    by_cases h : b = r.prior b
    · rw [← h, Function.update_self]
    · rw [Function.update_of_ne h]
  have hp : (relink r b).prior = Function.update (Function.update r.prior
    (Function.update r.next (r.prior b) (r.next b) b) (r.prior b)) b .head := rfl
  rw [hp, hb]

/-- The node behind the moved buffer keeps the head as its predecessor. -/
theorem relink_prior_next {r : Links Node} {i : Fin 30} (h : ∀ n, r.prior (r.next n) = n) :
    (relink r (.buf i)).prior ((relink r (.buf i)).next (.buf i)) = .head := by
  have hb : Node.buf i ≠ .head := by simp
  rw [relink_next, relink_prior, Function.update_of_ne hb, Function.update_self]
  by_cases hh : r.prior (.buf i) = .head
  · have hn : r.next (.buf i) ≠ .buf i := by
      intro he
      have hi := h (.buf i)
      rw [he, hh] at hi
      exact hb hi.symm
    rw [hh, Function.update_self, Function.update_of_ne hn, Function.update_self]
  · have hfb : r.next .head ≠ .buf i := fun he => hh (by rw [← he, h])
    have hfn : r.next .head ≠ r.next (.buf i) := fun he => hb (by rw [← h (.buf i), ← he, h])
    rw [Function.update_of_ne (Ne.symm hh), Function.update_of_ne hfb, Function.update_of_ne hfn, h]

theorem relink_not_wellLinked {r : Links Node} {order order' : List (Fin 30)} {i : Fin 30}
    (h : WellLinked r order) : ¬ WellLinked (relink r (.buf i)) order' := by
  intro h'
  have hb := h'.prior_next (.buf i)
  rw [relink_prior_next h.prior_next] at hb
  cases hb

/-- `a` takes the last reference from buffer `i`. -/
def Drops (s : State P) (a : Act P) (i : Fin 30) : Prop :=
  ∃ p, a = .lock p ∧ s.cacheLock = none ∧ s.pc p = .releasing i ∧ (s.cache.buffers i).linkNo = 1

/-- The step keeps the ring: a buffer losing its last reference moves to the front, all others
keep their order. -/
def RelinksWell (s : State P) (a : Act P) : Prop :=
  ∀ t, step s a = some t → ∀ order, WellLinked s.cache.ring order →
    (∀ i, Drops s a i → WellLinked t.cache.ring (i :: order.erase i)) ∧
      ((∀ i, ¬ Drops s a i) → WellLinked t.cache.ring order)

def KeepsReference (s : State P) (a : Act P) : Prop := ∀ i, ¬ Drops s a i

theorem step_keeps_links {s t : State P} {a : Act P} (hk : KeepsReference s a)
    (h : step s a = some t) : t.cache.ring = s.cache.ring := by
  cases step_cases h with
  | drop p i hl hpc =>
    change (dropLink s.cache i).ring = _
    rw [dropLink_ring, if_neg]
    exact fun h1 => hk i ⟨p, rfl, hl, hpc, h1⟩
  | _ => rfl

theorem drop_links {s : State P} {a : Act P} {i : Fin 30} (h : Drops s a i) :
    ∃ t, step s a = some t ∧ t.cache.ring = relink s.cache.ring (.buf i) := by
  obtain ⟨p, rfl, hl, hpc, h1⟩ := h
  refine ⟨{ s.goto p .idle with cache := dropLink s.cache i }, ?_, ?_⟩
  · simp only [step, hl, hpc, if_true]
  · change (dropLink s.cache i).ring = _
    rw [dropLink_ring, if_pos h1]

theorem relinksWell_iff {s : State P} {a : Act P} (hs : ∃ order, WellLinked s.cache.ring order) :
    RelinksWell s a ↔ KeepsReference s a := by
  obtain ⟨order, hs⟩ := hs
  constructor
  · intro hw i hd
    obtain ⟨t, ht, hr⟩ := drop_links hd
    have hring := (hw t ht order hs).1 i hd
    rw [hr] at hring
    exact relink_not_wellLinked hs hring
  · intro hk t ht order' ho
    refine ⟨fun i hd => absurd hd (hk i), fun _ => ?_⟩
    rw [step_keeps_links hk ht]
    exact ho

omit [DecidableEq P] in
theorem booted_wellLinked {s : State P} (hs : Booted s) :
    ∃ order, WellLinked s.cache.ring order := by
  obtain ⟨c, hc⟩ := hs.cache
  exact ⟨_, hc ▸ binit_wellLinked c⟩

theorem meets_relinksWell_iff {s : State P} {as : List (Act P)} (hs : Booted s) :
    Meets step RelinksWell s as ↔ Meets step KeepsReference s as := by
  refine meets_iff_meets ?_ (fun _ _ => relinksWell_iff) (booted_wellLinked hs)
  rintro s a t ⟨order, ho⟩ hk ht
  exact ⟨order, by rwa [step_keeps_links hk ht]⟩

/-- Along a run from the state of `binit` the ring is established and kept, with every release
moving its buffer to the front, exactly when no step takes the last reference from a buffer. -/
theorem ring_kept_iff {s : State P} {as : List (Act P)} (hs : Booted s) :
    ((∃ order, WellLinked s.cache.ring order) ∧ Meets step RelinksWell s as) ↔
      Meets step KeepsReference s as :=
  (and_iff_right (booted_wellLinked hs)).trans (meets_relinksWell_iff hs)

theorem ring_kept_iff_boot :
    ((∃ order, WellLinked (bootState : State Unit).cache.ring order) ∧
      Meets step RelinksWell (bootState : State Unit) [.bget () false 0 0, .lock ()]) ↔
      Meets step KeepsReference (bootState : State Unit) [.bget () false 0 0, .lock ()] :=
  ring_kept_iff bootState_booted

/-- Getting and releasing the first buffer once already breaks the back pointers. -/
theorem not_ring_kept : ¬ ∀ (s : State Unit) (as : List (Act Unit)), Booted s →
    (∃ order, WellLinked s.cache.ring order) ∧ Meets step RelinksWell s as := by
  intro h
  have hm := h bootState [.bget () false 0 0, .lock (), .run (), .run (), .brelease () 0,
    .lock ()] bootState_booted
  have hk := (meets_relinksWell_iff bootState_booted).mp hm.2
  have hlast := ((((hk.2 _ rfl).2 _ rfl).2 _ rfl).2 _ rfl).2 _ rfl
  exact hlast.1 0 ⟨(), rfl, rfl, rfl, rfl⟩

end Raynix.BufferRing
