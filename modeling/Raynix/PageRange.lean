import Raynix.PageStack

namespace Raynix.PageRange

open Raynix.Lib.Memory Raynix.Lib.LinkedStack Raynix.Lib.Transition Raynix.Kalloc Raynix.PageStack

theorem eq_physTop {pa : Addr} (hpa : Aligned pa) (hle : pa ≤ physTop)
    (hnext : ¬ pa + 4096 ≤ physTop) : pa = physTop := by
  have htop := physTop_toNat
  rw [BitVec.le_def] at hle hnext
  unfold Aligned at hpa
  bv_omega

theorem aligned_add_page {pa : Addr} (hpa : Aligned pa) : Aligned (pa + 4096) := by
  unfold Aligned at *
  bv_omega

theorem kallocInitLoop_pageLink {s : Phys} {pa : Addr} (hpa : Aligned pa) (hle : pa ≤ physTop) :
    (kallocInitLoop s pa).pageLink = physTop := by
  induction s, pa using kallocInitLoop.induct with
  | case1 s pa h ih =>
    rw [kallocInitLoop, if_pos h]
    by_cases hnext : pa + 4096 ≤ physTop
    · exact ih (aligned_add_page hpa) hnext
    · rw [kallocInitLoop, if_neg hnext]
      exact eq_physTop hpa h hnext
  | case2 s pa h => exact absurd hle h

theorem kallocInitLoop_filled {s : Phys} {pa : Addr} {r : Addr × Nat} (hr : r ∈ s.filled) :
    r ∈ (kallocInitLoop s pa).filled := by
  induction s, pa using kallocInitLoop.induct with
  | case1 s pa h ih =>
    rw [kallocInitLoop, if_pos h]
    exact ih (List.mem_cons_of_mem _ hr)
  | case2 s pa h =>
    rw [kallocInitLoop, if_neg h]
    exact hr

/-- An address on the list that starts at `a`. -/
inductive Listed (m : Mem) : Addr → Addr → Prop
  | head (a) : a ≠ 0 → Listed m a a
  | next (a f) : a ≠ 0 → Listed m (readWord m a) f → Listed m a f

/-- A frame of `[E, PHYSTOP)`. -/
def FrameIn (E f : Addr) : Prop :=
  Aligned f ∧ E.toNat ≤ f.toNat ∧ f.toNat + 4096 ≤ physTop.toNat

/-- No frame outside `[E, PHYSTOP)` is listed or handed out, and no byte of the kernel image or at
or past `PHYSTOP` is filled. -/
structure RangeSafe (E : Addr) (s : Keeper) : Prop where
  listed : ∀ f, Listed s.phys.mem s.phys.pageLink f → FrameIn E f
  handed : ∀ f ∈ s.phys.handed, f ≠ 0 → FrameIn E f
  filled : ∀ r ∈ s.phys.filled, ∀ b, (b - r.1).toNat < r.2 →
    ¬ (kernbase ≤ b ∧ b < E) ∧ b < physTop

theorem booted_filled (mem : Mem) : (kernbase, 4096) ∈ (booted mem).phys.filled := by
  change (kernbase, 4096) ∈ (kallocInitLoop (boot mem) kernbase).filled
  rw [kallocInitLoop, if_pos (by decide)]
  apply kallocInitLoop_filled
  rw [← pgRoundUp_of_aligned (show Aligned kernbase by decide)]
  exact List.mem_cons_self

theorem step_filled {s t : Keeper} {a : PageOp} {r : Addr × Nat} (hr : r ∈ s.phys.filled)
    (h : step s a = some t) : r ∈ t.phys.filled := by
  cases a with
  | kalloc =>
    rw [step_kalloc] at h
    obtain rfl := Option.some.inj h
    change r ∈ (kalloc s.phys).2.filled
    rw [kalloc]
    split <;> exact List.mem_cons_of_mem _ hr
  | freePage pa =>
    rw [step, Option.ite_none_right_eq_some] at h
    obtain ⟨-, h⟩ := h
    cases h
    exact List.mem_cons_of_mem _ hr
  | write a v =>
    rw [step, Option.ite_none_right_eq_some] at h
    obtain ⟨-, h⟩ := h
    cases h
    exact hr

theorem kernbase_not_safe {E : Addr} {s : Keeper} (hE : kernbase < E)
    (hr : (kernbase, 4096) ∈ s.phys.filled) : ¬ RangeSafe E s := by
  intro h
  refine (h.filled _ hr kernbase ?_).1 ⟨BitVec.le_refl _, hE⟩
  simp

/-- Whatever the end of the kernel image, no state of any run after `kalloc_init` is safe: the
first frame of the image has been freed. -/
theorem not_rangeSafe {E : Addr} {mem : Mem} {as : List PageOp} {t : Keeper} (hE : kernbase < E)
    (h : run step (booted mem) as = some t) : ¬ RangeSafe E t := by
  have hfilled := run_invariant (fun s a t hs ht => step_filled hs ht) (booted_filled mem) h
  exact kernbase_not_safe hE hfilled

theorem not_rangeSafe_booted : ¬ RangeSafe 0x80021000 (booted (fun _ => 0)) :=
  not_rangeSafe (by decide) (run_nil _)

/-- The first page that `kalloc` gives out starts at `PHYSTOP`. -/
theorem kalloc_booted (mem : Mem) : (kalloc (booted mem).phys).1 = physTop := by
  rw [kalloc_fst, booted, kallocInit]
  exact kallocInitLoop_pageLink (by decide) (by decide)

theorem not_rangeSafe_kalloc : ¬ ∀ (E : Addr) (mem : Mem) (as : List PageOp) (t : Keeper),
    kernbase < E → E < physTop → run step (booted mem) as = some t → RangeSafe E t := by
  intro h
  have hsafe := h 0x80021000 (fun _ => 0) [.kalloc] _ (by decide) (by decide) rfl
  have htop : physTop ∈ (kalloc (booted (fun _ => 0)).phys).2.handed := by
    rw [kalloc_handed, kalloc_booted]
    exact List.mem_cons_self
  have hin := hsafe.handed physTop htop (by decide)
  exact absurd hin.2.2 (by decide)

end Raynix.PageRange
