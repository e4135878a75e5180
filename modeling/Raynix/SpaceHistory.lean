import Raynix.SpaceRuns

namespace Raynix.SpaceHistory

open Raynix.Lib.Memory Raynix.Lib.Transition Raynix.Lib.Sv39
open Raynix.Kalloc hiding step
open Raynix.PageStack Raynix.Vm Raynix.PageTree Raynix.MapLaw
open Raynix.AddressSpaces Raynix.SpaceIsolation Raynix.SpaceRuns
open Raynix.WalkTree (sevenFrames sevenFrames_freeList)

/-- A call of `map` for `root` with a page at the place `k`. -/
def Covers (root : Addr) (k : Key) (e : Event) : Prop :=
  ∃ va pa size permission, e = .map root va pa size permission ∧
    ∃ x < size.toNat, key (pageAt (pgRoundDown va) x) = k

/-- Of the events the last one that asked for the place `k` of `root` asked for the entry `w`. -/
def LastRequest (root : Addr) (k : Key) (es : List Event) (w : Word) : Prop :=
  ∃ before after va pa size permission x,
    es = before ++ .map root va pa size permission :: after ∧
    x < size.toNat ∧ key (pageAt (pgRoundDown va) x) = k ∧
    (∀ y < size.toNat, x < y → key (pageAt (pgRoundDown va) y) ≠ k) ∧
    (∀ e ∈ after, ¬ Covers root k e) ∧ w = leafPte (pageAt pa x) permission

/-- The entry is what was asked for last, but for the bits A and D. -/
def Recorded (root : Addr) (k : Key) (es : List Event) (e : Word) : Prop :=
  (∀ event ∈ es, ¬ Covers root k event) ∧ e = 0 ∨
    ∃ w, LastRequest root k es w ∧ e ||| touched .store = w ||| touched .store

/-- The loop of `map` leaves the entry of the last page at a place. -/
theorem mapEntries_cases (e : Key → Word) (permission : Word) (va pa : Addr) (n : Nat) (k : Key) :
    ((∀ x < n, key (pageAt va x) ≠ k) ∧ mapEntries e permission va pa n k = e k) ∨
    ∃ x < n, key (pageAt va x) = k ∧ (∀ y < n, x < y → key (pageAt va y) ≠ k) ∧
      mapEntries e permission va pa n k = leafPte (pageAt pa x) permission := by
  induction n generalizing e va pa with
  | zero => exact .inl ⟨by simp, rfl⟩
  | succ n ih =>
    rw [mapEntries]
    obtain ⟨hnone, heq⟩ | ⟨x, hx, hk, hlast, heq⟩ :=
      ih (Function.update e (key va) (leafPte pa permission)) (va + 4096) (pa + 4096)
    · have hlater : ∀ x < n + 1, 0 < x → key (pageAt va x) ≠ k := by
        intro x hx h0
        obtain ⟨x, rfl⟩ := Nat.exists_eq_add_one.mpr h0
        rw [← pageAt_succ]
        exact hnone x (by omega)
      by_cases hva : key va = k
      · refine .inr ⟨0, by omega, by rwa [pageAt_zero], hlater, ?_⟩
        rw [heq, hva, Function.update_self, pageAt_zero]
      · refine .inl ⟨fun x hx => ?_, heq.trans (Function.update_of_ne (Ne.symm hva) ..)⟩
        obtain rfl | h0 := Nat.eq_zero_or_pos x
        · rwa [pageAt_zero]
        · exact hlater x hx h0
    · refine .inr ⟨x + 1, by omega, by rwa [← pageAt_succ], fun y hy hxy => ?_, ?_⟩
      · obtain ⟨y, rfl⟩ := Nat.exists_eq_add_one.mpr (by omega : 0 < y)
        rw [← pageAt_succ]
        exact hlast y (by omega) (by omega)
      · rw [heq, pageAt_succ]

section Recorded

variable {root : Addr} {k : Key} {es : List Event} {e : Event} {w : Word}

theorem Recorded.snoc (h : Recorded root k es w) (he : ¬ Covers root k e) :
    Recorded root k (es ++ [e]) w := by
  obtain ⟨hnone, h0⟩ | ⟨v, ⟨before, after, va, pa, size, permission, x, rfl, hx, hk, hlast, hafter,
    hv⟩, hw⟩ := h
  · refine .inl ⟨fun e' he' => ?_, h0⟩
    obtain he' | he' := List.mem_append.mp he'
    · exact hnone e' he'
    · exact List.mem_singleton.mp he' ▸ he
  · refine .inr ⟨v, ⟨before, after ++ [e], va, pa, size, permission, x, by simp, hx, hk, hlast,
      fun e' he' => ?_, hv⟩, hw⟩
    obtain he' | he' := List.mem_append.mp he'
    · exact hafter e' he'
    · exact List.mem_singleton.mp he' ▸ he

theorem Recorded.map {entries : Key → Word} (h : Recorded root k es (entries k))
    (va pa : Addr) (size permission : Word) :
    Recorded root k (es ++ [.map root va pa size permission])
      (mapEntries entries permission (pgRoundDown va) pa size.toNat k) := by
  obtain ⟨hnone, heq⟩ | ⟨x, hx, hk, hlast, heq⟩ :=
    mapEntries_cases entries permission (pgRoundDown va) pa size.toNat k
  · rw [heq]
    apply h.snoc
    rintro ⟨_, _, _, _, he, x, hx, hk⟩
    cases he
    exact hnone x hx hk
  · exact .inr ⟨_, ⟨es, [], va, pa, size, permission, x, rfl, hx, hk, hlast, by simp, rfl⟩,
      by rw [heq]⟩

end Recorded

end Raynix.SpaceHistory
