import Mathlib.Tactic.Common

namespace Raynix.Lib.Command

/-- Code over a shared state `σ`, with primitive operations `Op`, functions named by `N` and values
`ρ` to return. A local variable is what `letin` binds, or what `loop` carries from one round to the
next; `call` hands the returned value on, or `none` when the body ends without a `ret`. -/
inductive Cmd (σ Op N ρ : Type) : Type 1
  | skip
  | act (f : σ → σ)
  | op (o : Op)
  | seq (c d : Cmd σ Op N ρ)
  | ite (b : σ → Bool) (c d : Cmd σ Op N ρ)
  | letin {α : Type} (e : σ → α) (k : α → Cmd σ Op N ρ)
  | loop {α : Type} (a : α) (test : α → σ → Bool) (next : α → σ → α) (body : α → Cmd σ Op N ρ)
  | brk
  | ret (v : ρ)
  | call (n : N) (c : Cmd σ Op N ρ) (k : Option ρ → Cmd σ Op N ρ)
  | fault

variable {σ Op N ρ π : Type}

def Cmd.block : List (Cmd σ Op N ρ) → Cmd σ Op N ρ
  | [] => .skip
  | [c] => c
  | c :: cs => .seq c (block cs)

def Cmd.while (b : σ → Bool) (c : Cmd σ Op N ρ) : Cmd σ Op N ρ :=
  .loop () (fun _ => b) (fun _ _ => ()) (fun _ => c)

def Cmd.forever (c : Cmd σ Op N ρ) : Cmd σ Op N ρ := .while (fun _ => true) c

/-- The `n` rounds from `i` on. -/
def Cmd.rounds (i n : Nat) (body : Nat → Cmd σ Op N ρ) : Cmd σ Op N ρ :=
  .loop i (fun j _ => decide (j < i + n)) (fun j _ => j + 1) body

/-- A round for each element of a list. -/
def Cmd.each {α : Type} (l : List α) (body : α → Cmd σ Op N ρ) : Cmd σ Op N ρ :=
  .loop l (fun l _ => !l.isEmpty) (fun l _ => l.tail) fun
    | [] => .skip
    | a :: _ => body a

/-- A call whose value is not used. -/
def Cmd.invoke (n : N) (c : Cmd σ Op N ρ) : Cmd σ Op N ρ := .call n c (fun _ => .skip)

/-- A part of what is left to do: code, the next round of a loop, or the way back to a caller. -/
inductive Item (σ Op N ρ : Type) : Type 1
  | cmd (c : Cmd σ Op N ρ)
  | again {α : Type} (a : α) (test : α → σ → Bool) (next : α → σ → α) (body : α → Cmd σ Op N ρ)
  | frame (n : N) (k : Option ρ → Cmd σ Op N ρ)

abbrev Stack (σ Op N ρ : Type) := List (Item σ Op N ρ)

/-- The calls under way, innermost first. -/
def path : Stack σ Op N ρ → List N
  | [] => []
  | .cmd _ :: st | .again _ _ _ _ :: st => path st
  | .frame n _ :: st => n :: path st

def leaveLoop : Stack σ Op N ρ → Stack σ Op N ρ
  | [] => []
  | .again _ _ _ _ :: st => st
  | .cmd _ :: st | .frame _ _ :: st => leaveLoop st

def leaveCall (v : ρ) : Stack σ Op N ρ → Stack σ Op N ρ
  | [] => []
  | .frame _ k :: st => .cmd (k (some v)) :: st
  | .cmd _ :: st | .again _ _ _ _ :: st => leaveCall v st

/-- A step inside the code, or a primitive operation to be done before the rest. -/
inductive Next (σ Op N ρ : Type) : Type 1
  | inner (s : σ) (st : Stack σ Op N ρ)
  | op (o : Op) (st : Stack σ Op N ρ)

def advance (s : σ) : Stack σ Op N ρ → Option (Next σ Op N ρ)
  | [] => none
  | .frame _ k :: st => some (.inner s (.cmd (k none) :: st))
  | .again a test next body :: st => some (.inner s (.cmd (.loop (next a s) test next body) :: st))
  | .cmd c :: st =>
    match c with
    | .skip => some (.inner s st)
    | .act f => some (.inner (f s) st)
    | .op o => some (.op o st)
    | .seq c d => some (.inner s (.cmd c :: .cmd d :: st))
    | .ite b c d => some (.inner s (.cmd (if b s then c else d) :: st))
    | .letin e k => some (.inner s (.cmd (k (e s)) :: st))
    | .loop a test next body =>
      some (.inner s (if test a s then .cmd (body a) :: .again a test next body :: st else st))
    | .brk => some (.inner s (leaveLoop st))
    | .ret v => some (.inner s (leaveCall v st))
    | .call n c k => some (.inner s (.cmd c :: .frame n k :: st))
    | .fault => none

/-- What has to hold where a piece of code ends, breaks its loop or returns. -/
structure Post (ρ π : Type) where
  normal : π → Prop
  brk : π → Prop
  ret : ρ → π → Prop

/-- The condition for a primitive operation inside some calls, from what has to hold after it. -/
structure Spec (Op N π : Type) where
  pre : List N → Op → (π → Prop) → π → Prop
  mono : ∀ ns o (Q R : π → Prop), (∀ p, Q p → R p) → ∀ p, pre ns o Q p → pre ns o R p

/-- The weakest condition on a private state `π` under which code keeps to `spec`, whatever others
do to the shared state meanwhile. -/
def wlp (spec : Spec Op N π) : Cmd σ Op N ρ → List N → Post ρ π → π → Prop
  | .skip, _, P | .act _, _, P => P.normal
  | .op o, ns, P => spec.pre ns o P.normal
  | .seq c d, ns, P => wlp spec c ns { P with normal := wlp spec d ns P }
  | .ite _ c d, ns, P => fun p => wlp spec c ns P p ∧ wlp spec d ns P p
  | .letin e k, ns, P => fun p => ∀ s, wlp spec (k (e s)) ns P p
  | .loop _ test _ body, ns, P => fun p => ∃ I : π → Prop, I p ∧ ∀ q, I q →
    (∀ a s, test a s = true → wlp spec (body a) ns ⟨I, P.normal, P.ret⟩ q) ∧
      ∀ a s, test a s = false → P.normal q
  | .brk, _, P => P.brk
  | .ret v, _, P => P.ret v
  | .call n c k, ns, P =>
    wlp spec c (n :: ns)
      ⟨wlp spec (k none) ns P, fun _ => False, fun v => wlp spec (k (some v)) ns P⟩
  | .fault, _, _ => fun _ => True

/-- What has to hold for the rest of a stack to keep to `spec` and to end with `last`. -/
def post (spec : Spec Op N π) (last : π → Prop) : Stack σ Op N ρ → Post ρ π
  | [] => ⟨last, last, fun _ => last⟩
  | .cmd c :: st =>
    { post spec last st with normal := wlp spec c (path st) (post spec last st) }
  | .again a test next body :: st =>
    ⟨wlp spec (.loop a test next body) (path st) (post spec last st), (post spec last st).normal,
      (post spec last st).ret⟩
  | .frame _ k :: st =>
    ⟨wlp spec (k none) (path st) (post spec last st), fun _ => False,
      fun v => wlp spec (k (some v)) (path st) (post spec last st)⟩

def Safe (spec : Spec Op N π) (last : π → Prop) (st : Stack σ Op N ρ) : π → Prop :=
  (post spec last st).normal

/-- `P` is at least as strong as `Q`. -/
structure Post.Le (P Q : Post ρ π) : Prop where
  normal : ∀ p, P.normal p → Q.normal p
  brk : ∀ p, P.brk p → Q.brk p
  ret : ∀ v p, P.ret v p → Q.ret v p

variable {spec : Spec Op N π} {last : π → Prop} {s t : σ} {st st' : Stack σ Op N ρ}
  {ns : List N} {p : π}

theorem wlp_mono {c : Cmd σ Op N ρ} {P Q : Post ρ π} (hPQ : P.Le Q) (h : wlp spec c ns P p) :
    wlp spec c ns Q p := by
  induction c generalizing ns P Q p with
  | skip | act f => exact hPQ.normal p h
  | op o => exact spec.mono ns o _ _ hPQ.normal p h
  | seq c d ihc ihd =>
    have hseq : Post.Le { P with normal := wlp spec d ns P } { Q with normal := wlp spec d ns Q } :=
      ⟨fun q hq => ihd hPQ hq, hPQ.brk, hPQ.ret⟩
    exact ihc hseq h
  | ite b c d ihc ihd => exact ⟨ihc hPQ h.1, ihd hPQ h.2⟩
  | letin e k ih => exact fun s => ih (e s) hPQ (h s)
  | loop a test next body ih =>
    obtain ⟨I, hp, hI⟩ := h
    refine ⟨I, hp, fun q hq => ⟨fun a s ha => ?_, fun a s ha => ?_⟩⟩
    · have hround : Post.Le ⟨I, P.normal, P.ret⟩ ⟨I, Q.normal, Q.ret⟩ :=
        ⟨fun _ hr => hr, hPQ.normal, hPQ.ret⟩
      exact ih a hround ((hI q hq).1 a s ha)
    · exact hPQ.normal q ((hI q hq).2 a s ha)
  | brk => exact hPQ.brk p h
  | ret v => exact hPQ.ret v p h
  | call n c k ihc ihk =>
    have hback : Post.Le
        ⟨wlp spec (k none) ns P, fun _ => False, fun v => wlp spec (k (some v)) ns P⟩
        ⟨wlp spec (k none) ns Q, fun _ => False, fun v => wlp spec (k (some v)) ns Q⟩ :=
      ⟨fun q hq => ihk none hPQ hq, fun _ hq => hq, fun v q hq => ihk (some v) hPQ hq⟩
    exact ihc hback h
  | fault => trivial

section Rules

variable {P : Post ρ π}

@[simp]
theorem wlp_skip : wlp spec (.skip : Cmd σ Op N ρ) ns P p ↔ P.normal p := Iff.rfl

@[simp]
theorem wlp_act {f : σ → σ} : wlp spec (.act f : Cmd σ Op N ρ) ns P p ↔ P.normal p := Iff.rfl

@[simp]
theorem wlp_op {o : Op} : wlp spec (.op o : Cmd σ Op N ρ) ns P p ↔ spec.pre ns o P.normal p :=
  Iff.rfl

@[simp]
theorem wlp_seq {c d : Cmd σ Op N ρ} :
    wlp spec (.seq c d) ns P p ↔ wlp spec c ns { P with normal := wlp spec d ns P } p :=
  Iff.rfl

@[simp]
theorem wlp_ite {b : σ → Bool} {c d : Cmd σ Op N ρ} :
    wlp spec (.ite b c d) ns P p ↔ wlp spec c ns P p ∧ wlp spec d ns P p :=
  Iff.rfl

@[simp]
theorem wlp_letin {α : Type} {e : σ → α} {k : α → Cmd σ Op N ρ} :
    wlp spec (.letin e k) ns P p ↔ ∀ s, wlp spec (k (e s)) ns P p :=
  Iff.rfl

@[simp]
theorem wlp_brk : wlp spec (.brk : Cmd σ Op N ρ) ns P p ↔ P.brk p := Iff.rfl

@[simp]
theorem wlp_ret {v : ρ} : wlp spec (.ret v : Cmd σ Op N ρ) ns P p ↔ P.ret v p := Iff.rfl

@[simp]
theorem wlp_fault : wlp spec (.fault : Cmd σ Op N ρ) ns P p := trivial

@[simp]
theorem wlp_block_singleton {c : Cmd σ Op N ρ} :
    wlp spec (.block [c]) ns P p ↔ wlp spec c ns P p :=
  Iff.rfl

@[simp]
theorem wlp_block_cons {c d : Cmd σ Op N ρ} {cs : List (Cmd σ Op N ρ)} :
    wlp spec (.block (c :: d :: cs)) ns P p ↔
      wlp spec c ns { P with normal := wlp spec (.block (d :: cs)) ns P } p :=
  Iff.rfl

/-- A loop whose rounds give back the private state they found. -/
theorem wlp_loop {α : Type} {a : α} {test : α → σ → Bool} {next : α → σ → α}
    {body : α → Cmd σ Op N ρ} (hbody : ∀ a, wlp spec (body a) ns ⟨(· = p), P.normal, P.ret⟩ p)
    (hp : P.normal p) : wlp spec (.loop a test next body) ns P p := by
  refine ⟨(· = p), rfl, ?_⟩
  rintro q rfl
  exact ⟨fun a _ _ => hbody a, fun _ _ _ => hp⟩

theorem wlp_while {b : σ → Bool} {c : Cmd σ Op N ρ}
    (hbody : wlp spec c ns ⟨(· = p), P.normal, P.ret⟩ p) (hp : P.normal p) :
    wlp spec (.while b c) ns P p :=
  wlp_loop (fun _ => hbody) hp

theorem wlp_rounds {i n : Nat} {body : Nat → Cmd σ Op N ρ}
    (hbody : ∀ i, wlp spec (body i) ns ⟨(· = p), P.normal, P.ret⟩ p) (hp : P.normal p) :
    wlp spec (.rounds i n body) ns P p :=
  wlp_loop hbody hp

theorem wlp_each {α : Type} {l : List α} {body : α → Cmd σ Op N ρ}
    (hbody : ∀ a, wlp spec (body a) ns ⟨(· = p), P.normal, P.ret⟩ p) (hp : P.normal p) :
    wlp spec (.each l body) ns P p := by
  refine wlp_loop (fun l => ?_) hp
  cases l with
  | nil => rfl
  | cons a l => exact hbody a

theorem wlp_forever {c : Cmd σ Op N ρ} (hbody : wlp spec c ns ⟨(· = p), P.normal, P.ret⟩ p) :
    wlp spec (.forever c) ns P p := by
  refine ⟨(· = p), rfl, ?_⟩
  rintro q rfl
  exact ⟨fun _ _ _ => hbody, fun _ _ h => by cases h⟩

theorem wlp_invoke {n : N} {c : Cmd σ Op N ρ}
    (h : wlp spec c (n :: ns) ⟨P.normal, fun _ => False, fun _ => P.normal⟩ p) :
    wlp spec (.invoke n c) ns P p :=
  h

end Rules

theorem leaveLoop_safe (h : (post spec last st).brk p) :
    Safe spec last (leaveLoop st) p := by
  induction st with
  | nil => exact h
  | cons i st ih =>
    cases i with
    | cmd c => exact ih h
    | again a test next body => exact h
    | frame n k => exact h.elim

theorem leaveCall_safe {v : ρ} (h : (post spec last st).ret v p) :
    Safe spec last (leaveCall v st) p := by
  induction st with
  | nil => exact h
  | cons i st ih =>
    cases i with
    | cmd c => exact ih h
    | again a test next body => exact ih h
    | frame n k => exact h

theorem advance_inner (h : advance s st = some (.inner t st')) (hs : Safe spec last st p) :
    Safe spec last st' p := by
  cases st with
  | nil => cases h
  | cons i st =>
    cases i with
    | frame n k | again a test next body =>
      cases h
      exact hs
    | cmd c =>
      cases c with
      | skip | act f | seq c d | call n c k =>
        cases h
        exact hs
      | op o | fault => cases h
      | ite b c d =>
        cases h
        change wlp spec (if b s = true then c else d) _ _ p
        split
        · exact hs.1
        · exact hs.2
      | letin e k =>
        cases h
        exact hs s
      | loop a test next body =>
        obtain ⟨I, hp, hI⟩ := hs
        cases htest : test a s with
        | true =>
          simp only [advance, htest, if_true, Option.some.injEq, Next.inner.injEq] at h
          obtain ⟨rfl, rfl⟩ := h
          have hround : Post.Le ⟨I, (post spec last st).normal, (post spec last st).ret⟩
              (post spec last (.again a test next body :: st)) :=
            ⟨fun q hq => ⟨I, hq, hI⟩, fun _ hq => hq, fun _ _ hq => hq⟩
          exact wlp_mono hround ((hI p hp).1 a s htest)
        | false =>
          simp only [advance, htest, Bool.false_eq_true, if_false, Option.some.injEq,
            Next.inner.injEq] at h
          obtain ⟨rfl, rfl⟩ := h
          exact (hI p hp).2 a s htest
      | brk =>
        cases h
        exact leaveLoop_safe hs
      | ret v =>
        cases h
        exact leaveCall_safe hs

theorem advance_op {o : Op} (h : advance s st = some (.op o st')) (hs : Safe spec last st p) :
    spec.pre (path st') o (Safe spec last st') p := by
  cases st with
  | nil => cases h
  | cons i st =>
    cases i with
    | frame n k | again a test next body => cases h
    | cmd c =>
      cases c with
      | op o =>
        cases h
        exact hs
      | _ => cases h

/-- The code of the stack on its own: nothing in it breaks a loop outside. -/
def Inside (spec : Spec Op N π) (n : N) (st : Stack σ Op N ρ) : π → Prop :=
  Safe spec (fun _ => True) (st ++ [.frame n fun _ => .skip])

theorem leaveLoop_append {n : N} {k : Option ρ → Cmd σ Op N ρ}
    (h : (post spec last (st ++ [.frame n k])).brk p) :
    ∃ st', ∀ rest, leaveLoop (st ++ rest) = st' ++ rest := by
  induction st with
  | nil => exact h.elim
  | cons i st ih =>
    cases i with
    | cmd c => exact ih h
    | again a test next body => exact ⟨st, fun _ => rfl⟩
    | frame n k => exact h.elim

theorem leaveCall_append (v : ρ) (st : Stack σ Op N ρ) :
    (∃ st', ∀ rest, leaveCall v (st ++ rest) = st' ++ rest) ∨
      ∀ rest, leaveCall v (st ++ rest) = leaveCall v rest := by
  induction st with
  | nil => exact .inr fun _ => rfl
  | cons i st ih =>
    cases i with
    | cmd c | again a test next body => exact ih
    | frame n k => exact .inl ⟨.cmd (k (some v)) :: st, fun _ => rfl⟩

/-- The code on top of a stack does its next step whatever lies below it, or returns from it. -/
theorem advance_append {n : N} (hst : st ≠ []) (h : Inside spec n st p) (s : σ) :
    (∃ o st', ∀ rest, advance s (st ++ rest) = some (.op o (st' ++ rest))) ∨
    (∃ t st', ∀ rest, advance s (st ++ rest) = some (.inner t (st' ++ rest))) ∨
    (∃ v, ∀ rest, advance s (st ++ rest) = some (.inner s (leaveCall v rest))) ∨
    ∀ rest, advance s (st ++ rest) = none := by
  cases st with
  | nil => exact absurd rfl hst
  | cons i st =>
    cases i with
    | frame n k => exact .inr (.inl ⟨s, .cmd (k none) :: st, fun _ => rfl⟩)
    | again a test next body =>
      exact .inr (.inl ⟨s, .cmd (.loop (next a s) test next body) :: st, fun _ => rfl⟩)
    | cmd c =>
      cases c with
      | skip => exact .inr (.inl ⟨s, st, fun _ => rfl⟩)
      | act f => exact .inr (.inl ⟨f s, st, fun _ => rfl⟩)
      | op o => exact .inl ⟨o, st, fun _ => rfl⟩
      | seq c d => exact .inr (.inl ⟨s, .cmd c :: .cmd d :: st, fun _ => rfl⟩)
      | ite b c d => exact .inr (.inl ⟨s, .cmd (if b s then c else d) :: st, fun _ => rfl⟩)
      | letin e k => exact .inr (.inl ⟨s, .cmd (k (e s)) :: st, fun _ => rfl⟩)
      | loop a test next body =>
        cases htest : test a s with
        | true =>
          refine .inr (.inl ⟨s, .cmd (body a) :: .again a test next body :: st, fun rest => ?_⟩)
          simp [advance, htest]
        | false =>
          refine .inr (.inl ⟨s, st, fun rest => ?_⟩)
          simp [advance, htest]
      | brk =>
        have hbrk : (post spec (fun _ => True) (st ++ [.frame n fun _ => .skip])).brk p := h
        obtain ⟨st', hst'⟩ := leaveLoop_append hbrk
        exact .inr (.inl ⟨s, st', fun rest =>
          congrArg (fun x => some (Next.inner s x)) (hst' rest)⟩)
      | ret v =>
        obtain ⟨st', hst'⟩ | hret := leaveCall_append v st
        · exact .inr (.inl ⟨s, st', fun rest =>
            congrArg (fun x => some (Next.inner s x)) (hst' rest)⟩)
        · exact .inr (.inr (.inl ⟨v, fun rest =>
            congrArg (fun x => some (Next.inner s x)) (hret rest)⟩))
      | call n c k => exact .inr (.inl ⟨s, .cmd c :: .frame n k :: st, fun _ => rfl⟩)
      | fault => exact .inr (.inr (.inr fun _ => rfl))

theorem inside_advance {n : N} {rest : Stack σ Op N ρ} {x : Next σ Op N ρ} (hst : st ≠ [])
    (h : Inside spec n st p) (hadvance : advance s (st ++ rest) = some x) :
    (∃ o st' ns, x = .op o (st' ++ rest) ∧ spec.pre ns o (Inside spec n st') p) ∨
    (∃ t st', x = .inner t (st' ++ rest) ∧ Inside spec n st' p) ∨
    ∃ v, x = .inner s (leaveCall v rest) := by
  obtain ⟨o, st', hop⟩ | ⟨t, st', hinner⟩ | ⟨v, hret⟩ | hnone := advance_append hst h s
  · exact .inl ⟨o, st', _, Option.some.inj (hadvance.symm.trans (hop rest)), advance_op (hop _) h⟩
  · exact .inr (.inl ⟨t, st', Option.some.inj (hadvance.symm.trans (hinner rest)),
      advance_inner (hinner _) h⟩)
  · exact .inr (.inr ⟨v, Option.some.inj (hadvance.symm.trans (hret rest))⟩)
  · rw [hnone rest] at hadvance
    cases hadvance

end Raynix.Lib.Command
