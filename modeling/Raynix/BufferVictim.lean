import Raynix.BufferUnique

namespace Raynix.BufferVictim

open Raynix.Lib.LinkedRing Raynix.Lib.Transition Raynix.BufferCache Raynix.BufferRing
open Raynix.BufferUnique

variable {P : Type} [DecidableEq P]

/-- From `s` to `t` a call of `bget` by `p` has handed out buffer `i` for the block. -/
structure Takes (s t : State P) (p : P) (reading : Bool) (dev blockNo : BitVec 32) (i : Fin 30) :
    Prop where
  pc : t.pc p = if reading then .check dev blockNo i else .idle
  cache : t.cache = s.cache.setBuf i
    { s.cache.buffers i with dev := dev, blockNo := blockNo, valid := false, linkNo := 1 }
  cacheLock : t.cacheLock = none
  sleepLock : t.sleepLock = Function.update s.sleepLock i (some p)

/-- From `s` to `t` a call of `bget` by `p` has reported failure. -/
structure Fails (s t : State P) (p : P) : Prop where
  pc : t.pc p = .idle
  cache : t.cache = s.cache
  cacheLock : t.cacheLock = none

/-- `bget` returns the last unreferenced buffer of the order, or fails if all are referenced. -/
def SelectsVictim (s : State P) (p : P) (reading : Bool) (dev blockNo : BitVec 32)
    (order : List (Fin 30)) : Prop :=
  ∃ n t, run step s (fetch p reading dev blockNo n) = some t ∧
    ((∃ i pre post, order = pre ++ i :: post ∧ (s.cache.buffers i).linkNo = 0 ∧
      (∀ j ∈ post, (s.cache.buffers j).linkNo ≠ 0) ∧ Takes s t p reading dev blockNo i) ∨
    ((∀ i, (s.cache.buffers i).linkNo ≠ 0) ∧ Fails s t p))

/-- A caller of `bget` before a block that no buffer caches, with no lock in its way. -/
structure Ready (s : State P) (p : P) (dev blockNo : BitVec 32) (order : List (Fin 30)) : Prop where
  pc : s.pc p = .idle
  cacheLock : s.cacheLock = none
  ring : WellLinked s.cache.ring order
  missing : ∀ i, ¬ (s.cache.buffers i).Caches dev blockNo
  sleepLock : ∀ i, (s.cache.buffers i).linkNo = 0 → s.sleepLock i = none

/-- The state in which `p` has the cache lock and is at `pc`. -/
def under (s : State P) (p : P) (pc : Pc) : State P := { s.goto p pc with cacheLock := some p }

theorem WellLinked.tail {r : Links Node} {order : List (Fin 30)} (h : WellLinked r order) :
    ∃ init last, order = init ++ [last] ∧ r.prior .head = .buf last := by
  have hne : order ≠ [] := List.ne_nil_of_mem (h.complete 0)
  refine ⟨order.dropLast, order.getLast hne, (List.dropLast_append_getLast hne).symm, ?_⟩
  have hpath := h.path
  rw [← List.dropLast_append_getLast hne, List.map_append] at hpath
  have hnext : r.next (.buf (order.getLast hne)) = .head := hpath.drop
  rw [← hnext, h.prior_next]

@[simp]
theorem under_cache (s : State P) (p : P) (pc : Pc) : (under s p pc).cache = s.cache := rfl

theorem under_goto (s : State P) (p : P) (pc pc' : Pc) :
    (under s p pc).goto p pc' = under s p pc' := by
  simp only [under, State.goto, Function.update_idem]

theorem step_under (s : State P) (p : P) (pc : Pc) :
    step (under s p pc) (.run p) = runStep (under s p pc) p pc := by
  have hpc : (under s p pc).pc p = pc := by
    simp only [under, State.goto, Function.update_self]
  rw [step, hpc]

theorem run_call {s : State P} {p : P} {dev blockNo : BitVec 32} {order : List (Fin 30)}
    (h : Ready s p dev blockNo order) (reading : Bool) (n : Nat) :
    run step s (fetch p reading dev blockNo n) =
      run step (under s p (.find reading dev blockNo (s.cache.ring.next .head)))
        (List.replicate n (.run p)) := by
  have hcall : step s (.bget p reading dev blockNo) =
      some (s.goto p (.enter reading dev blockNo)) :=
    if_pos h.pc
  have hlock : step (s.goto p (.enter reading dev blockNo)) (.lock p) =
      some (under s p (.find reading dev blockNo (s.cache.ring.next .head))) := by
    simp [step, State.goto, under, h.cacheLock]
  rw [fetch, run_cons, hcall, Option.bind_some, run_cons, hlock, Option.bind_some]

theorem run_find {s : State P} {dev blockNo : BitVec 32} {n : Node} {post : List (Fin 30)}
    (p : P) (reading : Bool) (hpath : Path s.cache.ring.next n (post.map .buf) .head)
    (hmissing : ∀ i, ¬ (s.cache.buffers i).Caches dev blockNo) :
    run step (under s p (.find reading dev blockNo (s.cache.ring.next n)))
      (List.replicate post.length (.run p)) =
        some (under s p (.find reading dev blockNo .head)) := by
  induction post generalizing n with
  | nil =>
    have hhead : s.cache.ring.next n = .head := hpath
    rw [hhead]
    rfl
  | cons i post ih =>
    obtain ⟨hi, hpost⟩ := hpath
    have hnext : step (under s p (.find reading dev blockNo (.buf i))) (.run p) =
        some (under s p (.find reading dev blockNo (s.cache.ring.next (.buf i)))) := by
      rw [step_under, runStep, under_cache, if_neg (hmissing i), under_goto]
    rw [hi, List.length_cons, List.replicate_succ, run_cons, hnext, Option.bind_some]
    exact ih hpost

theorem takes_tail {s : State P} {p : P} {dev blockNo : BitVec 32} {order : List (Fin 30)}
    {i : Fin 30} (h : Ready s p dev blockNo order) (reading : Bool)
    (htail : s.cache.ring.prior .head = .buf i) (hi : (s.cache.buffers i).linkNo = 0) :
    ∃ n t, run step s (fetch p reading dev blockNo n) = some t ∧
      Takes s t p reading dev blockNo i := by
  have hfind := run_find p reading h.ring.path h.missing
  have hmiss : step (under s p (.find reading dev blockNo .head)) (.run p) =
      some (under s p (.evict reading dev blockNo (.buf i))) := by
    rw [step_under, runStep, under_cache, htail, under_goto]
  have htake : step (under s p (.evict reading dev blockNo (.buf i))) (.run p) =
      some { under s p (.acquire reading dev blockNo i) with
        cache := recycle s.cache i dev blockNo } := by
    rw [step_under, runStep, under_cache, if_pos hi, under_goto]
  have hacquire : step { under s p (.acquire reading dev blockNo i) with
      cache := recycle s.cache i dev blockNo } (.run p) =
        some { (under s p (if reading then .check dev blockNo i else .idle)) with
          cache := recycle s.cache i dev blockNo
          sleepLock := Function.update s.sleepLock i (some p)
          cacheLock := none } := by
    simp [step, runStep, under, State.goto, h.sleepLock i hi]
  have hrun : run step s (fetch p reading dev blockNo (order.length + 3)) =
      step { under s p (.acquire reading dev blockNo i) with
        cache := recycle s.cache i dev blockNo } (.run p) := by
    rw [run_call h, List.replicate_add, run_append, hfind, Option.bind_some, List.replicate_succ,
      run_cons, hmiss, Option.bind_some, List.replicate_succ, run_cons, htake, Option.bind_some]
    exact Option.bind_fun_some _
  refine ⟨_, _, hrun.trans hacquire, Function.update_self .., ?_, rfl, rfl⟩
  change recycle s.cache i dev blockNo = _
  rw [recycle, hi]
  rfl

/-- A referenced buffer at the tail keeps `bget` in its second loop, with the cache lock. -/
theorem stuck_at_tail {s t : State P} {p : P} {reading : Bool} {dev blockNo : BitVec 32}
    {order : List (Fin 30)} {i : Fin 30} {n : Nat} (h : Ready s p dev blockNo order)
    (htail : s.cache.ring.prior .head = .buf i) (hi : (s.cache.buffers i).linkNo ≠ 0)
    (ht : run step s (fetch p reading dev blockNo n) = some t) : t.cacheLock = some p := by
  rw [run_call h] at ht
  have hstuck : (∃ n, t = under s p (.find reading dev blockNo n)) ∨
      t = under s p (.evict reading dev blockNo (.buf i)) := by
    refine run_replicate_invariant
      (I := fun t => (∃ n, t = under s p (.find reading dev blockNo n)) ∨
      t = under s p (.evict reading dev blockNo (.buf i))) ?_ (.inl ⟨_, rfl⟩) ht
    rintro _ u (⟨n, rfl⟩ | rfl) hu
    · rw [step_under] at hu
      cases n with
      | head =>
        rw [runStep, under_cache, htail, under_goto] at hu
        exact .inr (Option.some.inj hu).symm
      | buf j =>
        rw [runStep, under_cache, if_neg (h.missing j), under_goto] at hu
        exact .inl ⟨_, (Option.some.inj hu).symm⟩
    · rw [step_under, runStep, under_cache, if_neg hi] at hu
      exact .inr (Option.some.inj hu).symm
  obtain ⟨n, rfl⟩ | rfl := hstuck <;> rfl

theorem not_selects_of_busy_tail {s : State P} {p : P} {reading : Bool} {dev blockNo : BitVec 32}
    {order : List (Fin 30)} {i : Fin 30} (h : Ready s p dev blockNo order)
    (htail : s.cache.ring.prior .head = .buf i) (hi : (s.cache.buffers i).linkNo ≠ 0) :
    ¬ SelectsVictim s p reading dev blockNo order := by
  rintro ⟨n, t, ht, hout⟩
  have hlock := stuck_at_tail h htail hi ht
  have hfree : t.cacheLock = none := by
    obtain ⟨_, _, _, _, _, _, hout⟩ | ⟨_, hout⟩ := hout
    · exact hout.cacheLock
    · exact hout.cacheLock
  rw [hfree] at hlock
  cases hlock

/-- `bget` selects its victim exactly when the buffer at the tail of the ring is unreferenced. -/
theorem selectsVictim_iff {s : State P} {p : P} {dev blockNo : BitVec 32} {order : List (Fin 30)}
    (reading : Bool) (h : Ready s p dev blockNo order) :
    SelectsVictim s p reading dev blockNo order ↔
      ∃ i, s.cache.ring.prior .head = .buf i ∧ (s.cache.buffers i).linkNo = 0 := by
  obtain ⟨init, last, horder, htail⟩ := WellLinked.tail h.ring
  constructor
  · intro hselects
    refine ⟨last, htail, ?_⟩
    by_contra hlast
    exact not_selects_of_busy_tail h htail hlast hselects
  · rintro ⟨i, hi, hlink⟩
    obtain rfl : last = i := Node.buf.inj (htail.symm.trans hi)
    obtain ⟨n, t, ht, htakes⟩ := takes_tail h reading hi hlink
    exact ⟨n, t, ht, .inl ⟨last, init, [], horder, hlink, by simp, htakes⟩⟩

/-- After `bget` has handed out the last buffer for block 1. -/
def tailInUse : State Unit :=
  { bootState with
    cache := recycle (bootState : State Unit).cache 29 0 1
    sleepLock := Function.update (fun _ => none) 29 (some ()) }

theorem bootState_ready : Ready (bootState : State Unit) () 0 1 (List.finRange 30) :=
  ⟨rfl, rfl, binit_wellLinked _, by decide, fun _ _ => rfl⟩

theorem selectsVictim_boot :
    SelectsVictim (bootState : State Unit) () false 0 1 (List.finRange 30) :=
  (selectsVictim_iff false bootState_ready).mpr ⟨29, by decide +kernel, rfl⟩

theorem tailInUse_ready : Ready tailInUse () 0 2 (List.finRange 30) := by
  refine ⟨rfl, rfl, binit_wellLinked _, by decide +kernel, fun i hi => ?_⟩
  by_cases h : i = 29
  · subst h
    exact absurd hi (by decide +kernel)
  · simp [tailInUse, h]

/-- With the last buffer in use, `bget` never comes back from its search for a victim. -/
theorem not_selectsVictim : ¬ ∀ (s : State Unit) (p : Unit) (reading : Bool)
    (dev blockNo : BitVec 32) (order : List (Fin 30)), Ready s p dev blockNo order →
    SelectsVictim s p reading dev blockNo order := by
  intro h
  have htail : tailInUse.cache.ring.prior .head = .buf 29 := by decide +kernel
  have hbusy : (tailInUse.cache.buffers 29).linkNo ≠ 0 := by decide +kernel
  exact not_selects_of_busy_tail tailInUse_ready htail hbusy (h _ _ false _ _ _ tailInUse_ready)

end Raynix.BufferVictim
