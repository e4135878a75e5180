import Mathlib.Data.Set.Defs
import Mathlib.Logic.ExistsUnique

namespace Raynix.Lib.Ownership

variable {F O : Type*} {frames : Set F} {owns owns' : F → O → Prop}

/-- Each of the frames has exactly one owner, and nothing else has one. -/
structure Partition (frames : Set F) (owns : F → O → Prop) : Prop where
  owned : ∀ f ∈ frames, ∃ o, owns f o
  unique : ∀ f o p, owns f o → owns f p → o = p
  inside : ∀ f o, owns f o → f ∈ frames

/-- The frame `f` passes to `o`, and every other one stays where it is. -/
def Transfers (f : F) (o : O) (owns owns' : F → O → Prop) : Prop :=
  ∀ g p, owns' g p ↔ g = f ∧ p = o ∨ g ≠ f ∧ owns g p

theorem Partition.congr (h : Partition frames owns) (ho : ∀ f o, owns' f o ↔ owns f o) :
    Partition frames owns' := by
  refine ⟨fun f hf => ?_, fun f o p hfo hfp => ?_, fun f o hfo => h.inside f o ((ho f o).mp hfo)⟩
  · obtain ⟨o, hfo⟩ := h.owned f hf
    exact ⟨o, (ho f o).mpr hfo⟩
  · exact h.unique f o p ((ho f o).mp hfo) ((ho f p).mp hfp)

theorem Partition.transfer {f : F} {o : O} (h : Partition frames owns) (hf : f ∈ frames)
    (ht : Transfers f o owns owns') : Partition frames owns' := by
  refine ⟨fun g hg => ?_, fun g p q hp hq => ?_, fun g p hp => ?_⟩
  · by_cases hgf : g = f
    · exact ⟨o, (ht g o).mpr (.inl ⟨hgf, rfl⟩)⟩
    · obtain ⟨p, hp⟩ := h.owned g hg
      exact ⟨p, (ht g p).mpr (.inr ⟨hgf, hp⟩)⟩
  · obtain ⟨rfl, rfl⟩ | ⟨hgf, hp⟩ := (ht g p).mp hp
    · obtain ⟨-, rfl⟩ | ⟨hgf, -⟩ := (ht g q).mp hq
      · rfl
      · exact absurd rfl hgf
    · obtain ⟨rfl, -⟩ | ⟨-, hq⟩ := (ht g q).mp hq
      · exact absurd rfl hgf
      · exact h.unique g p q hp hq
  · obtain ⟨rfl, -⟩ | ⟨-, hp⟩ := (ht g p).mp hp
    · exact hf
    · exact h.inside g p hp

theorem Partition.existsUnique (h : Partition frames owns) (f : F) (hf : f ∈ frames) :
    ∃! o, owns f o := by
  obtain ⟨o, ho⟩ := h.owned f hf
  exact ⟨o, ho, fun p hp => h.unique f p o hp ho⟩

theorem Partition.ne {f g : F} {o p : O} (h : Partition frames owns) (hf : owns f o)
    (hg : owns g p) (hop : o ≠ p) : f ≠ g := by
  rintro rfl
  exact hop (h.unique f o p hf hg)

end Raynix.Lib.Ownership
