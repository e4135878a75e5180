import Raynix.LockRules

namespace Raynix.BgetSearch

open Raynix.Kernel Raynix.Lib.Command Raynix.LockRules

/-- The way out of a call made from outside. -/
def returnTo (f : Fn) : Item Data Prim Fn Value := .frame f fun v => .op (.exit f v)

/-- The thread is in a `bget` that has not found the block, and is about to read
`cache.head.prior`. -/
def ReadsPrior (cur : Option (Fin 64)) (st : Stack Data Prim Fn Value) : Prop :=
  ∃ dev blockNo, st = [.cmd (findUnused cur dev blockNo), returnTo (.bget dev blockNo)]

/-- Nothing is asked of the locks, and nobody returns from a call made from outside. -/
def anyLocks : Spec Prim Fn Locks := lockSpec (fun _ _ => True) fun _ _ _ => False

/-- Where a call of `bget` is; `met` says that it has read the list head in `cache.head.prior`. -/
inductive Stage (cur : Option (Fin 64)) (dev blockNo : BitVec 32) (met : Prop) (l : Locks) :
    Stack Data Prim Fn Value → Prop
  | call (m t) : ¬ met → Stage cur dev blockNo met l (entry m t cur (.bget dev blockNo))
  | enter : ¬ met →
      Stage cur dev blockNo met l [.cmd (bget cur dev blockNo), returnTo (.bget dev blockNo)]
  | lock (st) : Inside anyLocks .binit st l → ¬ met → Stage cur dev blockNo met l
      (st ++ [.cmd (.seq (findCached cur dev blockNo) (findUnused cur dev blockNo)),
        returnTo (.bget dev blockNo)])
  | find (st) : Inside anyLocks .binit st l → ¬ met → Stage cur dev blockNo met l
      (st ++ [.cmd (findUnused cur dev blockNo), returnTo (.bget dev blockNo)])
  | search (cursor) : (met ↔ cursor = .head) → Stage cur dev blockNo met l
      [.cmd (searchUnused cur dev blockNo cursor), returnTo (.bget dev blockNo)]
  | take (st i) : Inside anyLocks .binit st l → ¬ met → Stage cur dev blockNo met l
      (st ++ [.again (.buf i) (fun cursor _ => cursor ≠ .head) (fun cursor _ => cursor)
        (takeUnused cur dev blockNo), returnTo (.bget dev blockNo)])
  | off : met → Stage cur dev blockNo met l [returnTo (.bget dev blockNo)]
  | back (v) : (met ↔ v = none) →
      Stage cur dev blockNo met l [.cmd (.op (.exit (.bget dev blockNo) v))]

variable {cur : Option (Fin 64)} {dev blockNo : BitVec 32} {met : Prop} {l : Locks} {d : Data}
  {st rest : Stack Data Prim Fn Value} {x : Next Data Prim Fn Value}

/-- The call goes on, or it returns, without a value exactly if it has read the list head. -/
def Goes (cur : Option (Fin 64)) (dev blockNo : BitVec 32) (met : Prop) (l : Locks) :
    Next Data Prim Fn Value → Prop
  | .inner _ st => Stage cur dev blockNo met l st
  | .op o st => (∀ f v, o ≠ .exit f v) ∧ Stage cur dev blockNo met (l.after o) st ∨
      ∃ v, o = .exit (.bget dev blockNo) v ∧ st = [] ∧ (met ↔ v = none)

theorem goes_inside (hst : st ≠ []) (h : Inside anyLocks .binit st l) (hmet : ¬ met)
    (hrest : ∀ st' l', Inside anyLocks .binit st' l' → Stage cur dev blockNo met l' (st' ++ rest))
    (hret : ∀ v, leaveCall v rest = [.cmd (.op (.exit (.bget dev blockNo) (some v)))])
    (hadvance : advance d (st ++ rest) = some x) : Goes cur dev blockNo met l x := by
  obtain ⟨o, st', ns, rfl, hop⟩ | ⟨d', st', rfl, hin⟩ | ⟨v, rfl⟩ := inside_advance hst h hadvance
  · refine .inl ⟨?_, hrest st' _ hop.1⟩
    rintro f v rfl
    exact hop.2
  · exact hrest st' l hin
  · change Stage cur dev blockNo met l (leaveCall v rest)
    rw [hret v]
    exact .back (some v) (iff_of_false hmet (by simp))

theorem wlp_takeBuffer {i : Fin 30} {update : BufferCache.Cache → BufferCache.Cache} {ns : List Fn}
    {P : Post Value Locks} (hret : ∀ v l, P.ret v l) :
    wlp anyLocks (takeBuffer cur i update) ns P l := by
  simp only [takeBuffer, anyLocks, wlp_block_cons, wlp_act]
  refine wlp_callAcquireSleep (fun _ _ _ _ => trivial) ?_
  simp [hret]

theorem inside_acquire : Inside anyLocks .binit [.cmd (acquire .cache)] l := by
  change wlp anyLocks (acquire .cache) _ _ l
  exact wlp_acquire.mpr trivial

theorem inside_findCached : Inside anyLocks .binit [.cmd (findCached cur dev blockNo)] l := by
  intro s
  refine wlp_loop (fun cursor => ?_) trivial
  cases cursor with
  | head => rfl
  | buf i => exact ⟨wlp_takeBuffer fun _ _ => trivial, rfl⟩

theorem inside_takeUnused {cursor : BufferCache.Node} :
    Inside anyLocks .binit [.cmd (takeUnused cur dev blockNo cursor)] l := by
  cases cursor with
  | head => trivial
  | buf i => exact ⟨wlp_takeBuffer fun _ _ => trivial, trivial⟩

theorem Stage.goes (h : Stage cur dev blockNo met l st) (hread : ¬ ReadsPrior cur st)
    (hadvance : advance d st = some x) : Goes cur dev blockNo met l x := by
  cases h with
  | call m t hmet =>
    cases hadvance
    exact .enter hmet
  | enter hmet =>
    cases hadvance
    exact .lock [.cmd (acquire .cache)] inside_acquire hmet
  | lock st hst hmet =>
    cases st with
    | nil =>
      cases hadvance
      exact .find [.cmd (findCached cur dev blockNo)] inside_findCached hmet
    | cons i st =>
      exact goes_inside (List.cons_ne_nil i st) hst hmet (fun st' _ h => .lock st' h hmet)
        (fun _ => rfl) hadvance
  | find st hst hmet =>
    cases st with
    | nil => exact absurd ⟨dev, blockNo, rfl⟩ hread
    | cons i st =>
      exact goes_inside (List.cons_ne_nil i st) hst hmet (fun st' _ h => .find st' h hmet)
        (fun _ => rfl) hadvance
  | search cursor hmet =>
    cases cursor with
    | head =>
      cases hadvance
      exact .off (hmet.mpr rfl)
    | buf i =>
      cases hadvance
      exact .take [.cmd (takeUnused cur dev blockNo (.buf i))] i inside_takeUnused
        fun h => absurd (hmet.mp h) (by simp)
  | take st i hst hmet =>
    cases st with
    | nil =>
      cases hadvance
      exact .search (.buf i) (iff_of_false hmet (by simp))
    | cons j st =>
      exact goes_inside (List.cons_ne_nil j st) hst hmet (fun st' _ h => .take st' i h hmet)
        (fun _ => rfl) hadvance
  | off hmet =>
    cases hadvance
    exact .back none (iff_of_true hmet rfl)
  | back v hmet =>
    cases hadvance
    exact .inr ⟨v, rfl, rfl, hmet⟩

theorem Stage.reads (h : Stage cur dev blockNo met l st) (hread : ReadsPrior cur st)
    (hadvance : advance d st = some x) : ¬ met ∧ x = .inner d
      [.cmd (searchUnused cur dev blockNo (d.cache.ring.prior .head)),
        returnTo (.bget dev blockNo)] := by
  obtain ⟨dev', blockNo', hst⟩ := hread
  have hlong : ∀ (st : Stack Data Prim Fn Value) i j, st ≠ [] → st ++ [i, j] ≠
      [.cmd (findUnused cur dev' blockNo'), returnTo (.bget dev' blockNo')] := by
    intro st i j hne heq
    have hlen := congrArg List.length heq
    rw [List.length_append] at hlen
    exact hne (List.eq_nil_of_length_eq_zero (Nat.add_right_cancel hlen))
  cases h with
  | call m t hmet | off hmet | back v hmet => cases congrArg List.length hst
  | enter hmet | search cursor hmet => cases hst
  | lock st _ hmet | take st i _ hmet =>
    cases st with
    | nil => cases hst
    | cons j st => exact absurd hst (hlong _ _ _ (List.cons_ne_nil j st))
  | find st _ hmet =>
    cases st with
    | nil =>
      cases hadvance
      exact ⟨hmet, rfl⟩
    | cons j st => exact absurd hst (hlong _ _ _ (List.cons_ne_nil j st))

end Raynix.BgetSearch
