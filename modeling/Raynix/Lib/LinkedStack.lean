import Mathlib.Data.List.Perm.Basic

namespace Raynix.Lib.LinkedStack

variable {A : Type*}

/-- Following `next` from `a` visits `l` and ends at `null`. -/
def Chain (next : A → A) (null : A) : A → List A → Prop
  | a, [] => a = null
  | a, x :: l => a = x ∧ x ≠ null ∧ Chain next null (next x) l

variable {next next' : A → A} {null a x : A} {l l' : List A}

theorem Chain.congr (h : Chain next null a l) (hl : ∀ x ∈ l, next' x = next x) :
    Chain next' null a l := by
  induction l generalizing a with
  | nil => exact h
  | cons y l ih =>
    obtain ⟨ha, hy, hrest⟩ := h
    refine ⟨ha, hy, ?_⟩
    rw [hl y (by simp)]
    exact ih hrest (fun x hx => hl x (by simp [hx]))

theorem Chain.ne_null (h : Chain next null a l) (hx : x ∈ l) : x ≠ null := by
  induction l generalizing a with
  | nil => cases hx
  | cons y l ih =>
    obtain rfl | hx := List.mem_cons.mp hx
    · exact h.2.1
    · exact ih h.2.2 hx

theorem Chain.push (h : Chain next null a l) (hx : x ≠ null) (hn : next' x = a)
    (hl : ∀ y ∈ l, next' y = next y) : Chain next' null x (x :: l) := by
  refine ⟨rfl, hx, ?_⟩
  rw [hn]
  exact h.congr hl

theorem Chain.unique (h : Chain next null a l) (h' : Chain next null a l') : l = l' := by
  induction l generalizing a l' with
  | nil =>
    cases l' with
    | nil => rfl
    | cons y l' => exact absurd (h'.1.symm.trans h) h'.2.1
  | cons x l ih =>
    cases l' with
    | nil => exact absurd (h.1.symm.trans h') h.2.1
    | cons y l' =>
      obtain rfl : x = y := h.1.symm.trans h'.1
      rw [ih h.2.2 h'.2.2]

theorem Chain.drop {k : List A} (h : Chain next null a (k ++ x :: l)) :
    Chain next null x (x :: l) := by
  induction k generalizing a with
  | nil =>
    obtain ⟨rfl, hx, hrest⟩ := h
    exact ⟨rfl, hx, hrest⟩
  | cons y k ih => exact ih h.2.2

theorem Chain.start_eq {b : A} (h : Chain next null a l) (h' : Chain next null b l')
    (hp : l.Perm l') : a = b := by
  cases l' with
  | nil =>
    rw [hp.eq_nil] at h
    exact h.trans h'.symm
  | cons y l' =>
    obtain ⟨k, r, rfl⟩ := List.append_of_mem (hp.mem_iff.mpr List.mem_cons_self)
    obtain rfl : b = y := h'.1
    have hr : b :: r = b :: l' := h.drop.unique h'
    have hlen := hp.length_eq
    rw [← hr, List.length_append] at hlen
    have hk : k = [] := List.length_eq_zero_iff.mp (by omega)
    subst hk
    exact h.1

/-- A stack of free items, the items handed out, and all answers given, latest first. -/
structure Pool (A : Type*) where
  free : List A
  held : List A
  handed : List (Option A)

def Pool.alloc : Pool A → Pool A
  | ⟨[], held, handed⟩ => ⟨[], held, none :: handed⟩
  | ⟨x :: free, held, handed⟩ => ⟨free, x :: held, some x :: handed⟩

def Pool.release [DecidableEq A] (p : Pool A) (x : A) : Pool A :=
  ⟨x :: p.free, p.held.erase x, p.handed⟩

def Pool.items (p : Pool A) : List A := p.free ++ p.held

theorem Pool.alloc_perm (p : Pool A) : p.alloc.items.Perm p.items := by
  obtain ⟨free, held, handed⟩ := p
  cases free with
  | nil => rfl
  | cons x free => exact List.perm_middle

theorem Pool.release_perm [DecidableEq A] {p : Pool A} (hx : x ∈ p.held) :
    (p.release x).items.Perm p.items := by
  refine (List.perm_middle.symm).trans ?_
  exact (List.perm_cons_erase hx).symm.append_left p.free

end Raynix.Lib.LinkedStack
