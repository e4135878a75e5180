import Mathlib.Data.List.Nodup
import Mathlib.Logic.Function.Basic

namespace Raynix.Lib.LinkedRing

variable {N : Type*} [DecidableEq N]

/-- The two pointers of every node of a doubly linked structure. -/
@[ext]
structure Links (N : Type*) where
  next : N → N
  prior : N → N

def Links.setNext (r : Links N) (n v : N) : Links N := { r with next := Function.update r.next n v }

def Links.setPrior (r : Links N) (n v : N) : Links N :=
  { r with prior := Function.update r.prior n v }

/-- Make `b` the successor of `a` and `a` the predecessor of `b`. -/
def Links.link (r : Links N) (a b : N) : Links N := (r.setNext a b).setPrior b a

/-- Following `next` from `a` visits the nodes of `l` in order and then reaches `b`. -/
def Path (next : N → N) : N → List N → N → Prop
  | a, [], b => next a = b
  | a, x :: l, b => next a = x ∧ Path next x l b

/-- From `head` round the ring: `next` visits `l` and returns, and `prior` inverts `next`. -/
structure IsRing (r : Links N) (head : N) (l : List N) : Prop where
  path : Path r.next head l head
  nodup : (head :: l).Nodup
  prior_next : ∀ n ∈ head :: l, r.prior (r.next n) = n

omit [DecidableEq N] in
theorem Path.congr {f g : N → N} {a b c : N} {l : List N} (h : Path f a l b)
    (hc : g c = f a) (hl : ∀ n ∈ l, g n = f n) : Path g c l b := by
  induction l generalizing a c with
  | nil => exact hc.trans h
  | cons x l ih =>
    refine ⟨hc.trans h.1, ih h.2 (hl x (by simp)) ?_⟩
    exact fun n hn => hl n (by simp [hn])

omit [DecidableEq N] in
theorem Path.next_mem {f : N → N} {a b p : N} {l : List N} (h : Path f a l b)
    (hp : p ∈ a :: l) : f p ∈ l ++ [b] := by
  induction l generalizing a with
  | nil =>
    obtain rfl : p = a := by simpa using hp
    simpa using! h
  | cons x l ih =>
    obtain ⟨hx, hl⟩ := h
    obtain rfl | hp := List.mem_cons.mp hp
    · simp [hx]
    · have hm := ih hl hp
      simp only [List.cons_append, List.mem_cons]
      exact .inr hm

omit [DecidableEq N] in
theorem Path.drop {f : N → N} {a b x : N} {pre post : List N}
    (h : Path f a (pre ++ x :: post) b) : Path f x post b := by
  induction pre generalizing a with
  | nil => exact h.2
  | cons y pre ih => exact ih h.2

/-- Unlinking `x` through a node whose successor it is closes the gap. -/
theorem Path.erase {f : N → N} {a b x p : N} {l : List N} (h : Path f a l b)
    (hnd : (a :: l).Nodup) (hxl : x ∈ l) (hxb : x ≠ b) (hp : p ∈ a :: l) (hpx : f p = x) :
    Path (Function.update f p (f x)) a (l.erase x) b := by
  induction l generalizing a with
  | nil => cases hxl
  | cons y l ih =>
    obtain ⟨hy, hl⟩ := h
    rw [List.nodup_cons] at hnd
    obtain ⟨hal, hnd⟩ := hnd
    by_cases hyx : y = x
    · subst hyx
      have hpa : p = a := by
        refine (List.mem_cons.mp hp).resolve_right (fun hpl => ?_)
        have hm := hl.next_mem hpl
        rw [hpx, List.mem_append, List.mem_singleton] at hm
        exact hm.elim (List.nodup_cons.mp hnd).1 hxb
      subst p
      rw [List.erase_cons_head]
      refine hl.congr (Function.update_self _ _ _) (fun n hn => Function.update_of_ne ?_ _ _)
      exact fun he => hal (by simp [← he, hn])
    · have hpa : p ≠ a := fun he => hyx (by rw [← hy, ← he, hpx])
      have hpl : p ∈ y :: l := (List.mem_cons.mp hp).resolve_left hpa
      have hxl' : x ∈ l := (List.mem_cons.mp hxl).resolve_left (Ne.symm hyx)
      rw [List.erase_cons_tail (by simpa using hyx)]
      exact ⟨by rw [Function.update_of_ne hpa.symm, hy], ih hl hnd hxl' hpl⟩

/-- Inserting `x` behind `a` by its own and the successor pointer of `a`. -/
theorem Path.insert {f : N → N} {a b x : N} {l : List N} (h : Path f a l b)
    (hx : x ∉ a :: l) (ha : a ∉ l) :
    Path (Function.update (Function.update f x (f a)) a x) a (x :: l) b := by
  have hxa : x ≠ a := fun he => hx (by simp [he])
  refine ⟨Function.update_self _ _ _, ?_⟩
  refine h.congr ?_ (fun n hn => ?_)
  · rw [Function.update_of_ne hxa, Function.update_self]
  · rw [Function.update_of_ne (fun he => ha (by rwa [← he])),
      Function.update_of_ne (fun he => hx (by simp [← he, hn]))]

/-- Link the nodes of a list one after the other, starting behind `cursor`. -/
def Links.linkAll (r : Links N) (cursor : N) : List N → Links N
  | [] => r
  | n :: l => (r.link cursor n).linkAll n l

theorem linkAll_next_of_notMem (r : Links N) (cursor n : N) (l : List N)
    (hn : n ∉ (cursor :: l).dropLast) : (r.linkAll cursor l).next n = r.next n := by
  induction l generalizing r cursor with
  | nil => rfl
  | cons x l ih =>
    rw [List.dropLast_cons_cons, List.mem_cons, not_or] at hn
    rw [Links.linkAll, ih _ _ hn.2]
    exact Function.update_of_ne hn.1 _ _

theorem linkAll_prior_of_notMem (r : Links N) (cursor n : N) (l : List N) (hn : n ∉ l) :
    (r.linkAll cursor l).prior n = r.prior n := by
  induction l generalizing r cursor with
  | nil => rfl
  | cons x l ih =>
    rw [List.mem_cons, not_or] at hn
    rw [Links.linkAll, ih _ _ hn.2]
    exact Function.update_of_ne hn.1 _ _

theorem path_linkAll (r : Links N) (cursor b : N) (l : List N) (hnd : (cursor :: l).Nodup)
    (hb : b ∉ l) : Path (r.linkAll cursor (l ++ [b])).next cursor l b := by
  induction l generalizing r cursor with
  | nil => exact Function.update_self _ _ _
  | cons x l ih =>
    obtain ⟨hc, hnd⟩ := List.nodup_cons.mp hnd
    rw [List.mem_cons, not_or] at hb
    refine ⟨?_, ih _ _ hnd hb.2⟩
    rw [List.cons_append, Links.linkAll, linkAll_next_of_notMem]
    · exact Function.update_self _ _ _
    · rw [← List.cons_append, List.dropLast_concat]
      exact hc

theorem linkAll_prior_next (r : Links N) (cursor b : N) (l : List N) (hnd : (cursor :: l).Nodup)
    (hb : b ∉ l) (n : N) (hn : n ∈ cursor :: l) :
    (r.linkAll cursor (l ++ [b])).prior ((r.linkAll cursor (l ++ [b])).next n) = n := by
  induction l generalizing r cursor with
  | nil =>
    obtain rfl : n = cursor := by simpa using hn
    simp [Links.linkAll, Links.link, Links.setNext, Links.setPrior]
  | cons x l ih =>
    have hpath := path_linkAll r cursor b (x :: l) hnd hb
    obtain ⟨hc, hnd⟩ := List.nodup_cons.mp hnd
    have hx := (List.nodup_cons.mp hnd).1
    rw [List.mem_cons, not_or] at hb
    obtain rfl | hn := List.mem_cons.mp hn
    · rw [hpath.1, List.cons_append, Links.linkAll, linkAll_prior_of_notMem]
      · exact Function.update_self _ _ _
      · rw [List.mem_append, List.mem_singleton, not_or]
        exact ⟨hx, Ne.symm hb.1⟩
    · exact ih (r.link cursor x) x hnd hb.2 hn

/-- Linking `l` between two visits of `head` makes the ring of `l`. -/
theorem isRing_linkAll (r : Links N) (head : N) (l : List N) (hnd : (head :: l).Nodup) :
    IsRing (r.linkAll head (l ++ [head])) head l :=
  have hb := (List.nodup_cons.mp hnd).1
  ⟨path_linkAll r head head l hnd hb, hnd, linkAll_prior_next r head head l hnd hb⟩

end Raynix.Lib.LinkedRing
