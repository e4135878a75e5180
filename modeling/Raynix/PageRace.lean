import Raynix.PageStack

namespace Raynix.PageRace

open Raynix.Lib.Memory Raynix.Lib.LinkedStack Raynix.Lib.Transition Raynix.Kalloc Raynix.PageStack

/-- Where a hart stands in `free_page` or `kalloc`. A value read from memory stays with the point of
the code up to the write that it is for; `push` has the old head for reference only. -/
inductive Pc
  | idle
  -- free_page
  | fill (pa : Addr)
  | readHead (pa : Addr)
  | link (pa head : Addr)
  | push (pa head : Addr)
  -- kalloc
  | acquire
  | pop
  | next (fp : Addr)
  | unlink (fp next : Addr)
  | release (fp : Addr)
  | clear (fp : Addr)

/-- The allocator and the harts `H` that use it. `held` is ghost: the frames off the list with the
hart that owns them, from the write of `page_link` that takes a frame off to the one that puts it
back. -/
structure State (H : Type) where
  phys : Phys
  lock : Option H
  pc : H → Pc
  held : List (Addr × H)

inductive Act (H : Type)
  | freePage (h : H) (pa : Addr)
  | kalloc (h : H)
  | write (h : H) (a : Addr) (v : Byte)
  | run (h : H)

variable {H : Type} [DecidableEq H]

def State.goto (s : State H) (h : H) (pc : Pc) : State H :=
  { s with pc := Function.update s.pc h pc }

/-- The next read or write of hart `h`. `free_page` takes no lock. -/
def runHart (s : State H) (h : H) : Option (State H) :=
  match s.pc h with
  | .idle => none
  | .fill pa => some { s.goto h (.readHead pa) with phys := s.phys.setMemory (pgRoundUp pa) 1 4096 }
  | .readHead pa => some (s.goto h (.link pa s.phys.pageLink))
  | .link pa head => some { s.goto h (.push pa head) with phys := s.phys.store pa head }
  | .push pa _ =>
    some { s.goto h .idle with
      phys := { s.phys with pageLink := pa }
      held := s.held.erase (pa, h) }
  | .acquire => if s.lock = none then some { s.goto h .pop with lock := some h } else none
  | .pop =>
    let fp := s.phys.pageLink
    some (s.goto h (if fp ≠ 0 then .next fp else .release fp))
  | .next fp => some (s.goto h (.unlink fp (readWord s.phys.mem fp)))
  | .unlink fp next =>
    some { s.goto h (.release fp) with
      phys := { s.phys with pageLink := next }
      held := (fp, h) :: s.held }
  | .release fp => some { s.goto h (.clear fp) with lock := none }
  | .clear fp => some { s.goto h .idle with phys := s.phys.setMemory fp 5 4096 }

/-- A hart frees a frame that it owns, calls `kalloc`, writes to a frame that it owns, or goes on
with its call. -/
def step (s : State H) : Act H → Option (State H)
  | .freePage h pa =>
    match s.pc h with
    | .idle => if (pa, h) ∈ s.held then some (s.goto h (.fill pa)) else none
    | _ => none
  | .kalloc h =>
    match s.pc h with
    | .idle => some (s.goto h .acquire)
    | _ => none
  | .write h a v =>
    match s.pc h with
    | .idle =>
      if (pgRoundDown a, h) ∈ s.held then
        some { s with phys := { s.phys with mem := Function.update s.phys.mem a v } }
      else none
    | _ => none
  | .run h => runHart s h

/-- Each of the frames is on the list once or with one owner. -/
def Intact (frames : List Addr) (s : State H) : Prop :=
  ∃ free, Chain (readWord s.phys.mem) 0 s.phys.pageLink free ∧
    (free ++ s.held.map Prod.fst).Perm frames

/-- No call is in progress. -/
def Quiet (s : State H) : Prop := ∀ h, s.pc h = .idle

/-- A hart that writes `page_link` finds there what it has read. -/
def Current (s : State H) (a : Act H) : Prop :=
  ∀ h, a = .run h → (∀ pa head, s.pc h = .push pa head → s.phys.pageLink = head) ∧
    ∀ fp next, s.pc h = .unlink fp next → s.phys.pageLink = fp

/-- The frames of the allocator, free or with an owner, and nobody in a call. -/
structure Start (frames : List Addr) (s : State H) : Prop where
  quiet : Quiet s
  lock : s.lock = none
  intact : Intact frames s
  valid : ∀ f ∈ frames, Aligned f ∧ f ≠ 0
  nodup : frames.Nodup

/-- What holds of a hart at a point of the code while nobody has overwritten a changed list. -/
def HartOk (s : State H) (free : List Addr) (h : H) : Pc → Prop
  | .idle | .acquire => True
  | .fill pa | .readHead pa | .link pa _ => (pa, h) ∈ s.held
  | .push pa head => (pa, h) ∈ s.held ∧ readWord s.phys.mem pa = head
  | .pop => s.lock = some h
  | .next fp => s.lock = some h ∧ fp ∈ free
  | .unlink fp next => s.lock = some h ∧ fp ∈ free ∧ readWord s.phys.mem fp = next
  | .release fp => s.lock = some h ∧ (fp = 0 ∨ (fp, h) ∈ s.held)
  | .clear fp => fp = 0 ∨ (fp, h) ∈ s.held

structure Inv (frames free : List Addr) (s : State H) : Prop where
  chain : Chain (readWord s.phys.mem) 0 s.phys.pageLink free
  perm : (free ++ s.held.map Prod.fst).Perm frames
  valid : ∀ f ∈ frames, Aligned f ∧ f ≠ 0
  nodup : frames.Nodup
  harts : ∀ h, HartOk s free h (s.pc h)

section Frames

omit [DecidableEq H]

variable {frames free : List Addr} {s t : State H} {h g : H} {f x : Addr}

theorem Inv.free_ok (hs : Inv frames free s) (hx : x ∈ free) : Aligned x ∧ x ≠ 0 :=
  hs.valid x (hs.perm.mem_iff.mp (List.mem_append_left _ hx))

theorem Inv.held_ok (hs : Inv frames free s) (hx : (x, h) ∈ s.held) : Aligned x ∧ x ≠ 0 :=
  hs.valid x (hs.perm.mem_iff.mp (List.mem_append_right _ (List.mem_map.mpr ⟨_, hx, rfl⟩)))

theorem Inv.nodup_items (hs : Inv frames free s) : (free ++ s.held.map Prod.fst).Nodup :=
  hs.perm.nodup_iff.mpr hs.nodup

theorem Inv.not_free (hs : Inv frames free s) (hx : (x, h) ∈ s.held) : x ∉ free :=
  fun hfree => (List.nodup_append.mp hs.nodup_items).2.2 x hfree x
    (List.mem_map.mpr ⟨_, hx, rfl⟩) rfl

theorem Inv.owner_unique (hs : Inv frames free s) (hx : (x, h) ∈ s.held) (hg : (x, g) ∈ s.held) :
    h = g :=
  congrArg Prod.snd
    (List.inj_on_of_nodup_map (List.nodup_append.mp hs.nodup_items).2.1 hx hg rfl)

theorem Inv.mine_not_free (hs : Inv frames free s) (hf : f = 0 ∨ (f, h) ∈ s.held)
    (hx : x ∈ free) : x ≠ f := by
  rintro rfl
  obtain h0 | hheld := hf
  · exact (hs.free_ok hx).2 h0
  · exact hs.not_free hheld hx

theorem Inv.mine_not_other (hs : Inv frames free s) (hf : f = 0 ∨ (f, h) ∈ s.held) (hg : g ≠ h)
    (hx : (x, g) ∈ s.held) : x ≠ f := by
  rintro rfl
  obtain h0 | hheld := hf
  · exact (hs.held_ok hx).2 h0
  · exact hg (hs.owner_unique hx hheld)

theorem Inv.mine_aligned (hs : Inv frames free s) (hf : f = 0 ∨ (f, h) ∈ s.held) : Aligned f := by
  obtain rfl | hheld := hf
  · exact aligned_zero
  · exact (hs.held_ok hheld).1

theorem HartOk.frame {free' : List Addr} {pc : Pc} (hpc : HartOk s free g pc)
    (hlock : s.lock = some g → t.lock = some g)
    (hheld : ∀ x, (x, g) ∈ s.held → (x, g) ∈ t.held)
    (hfree : s.lock = some g → ∀ x ∈ free, x ∈ free')
    (hfreeMem : ∀ x ∈ free, readWord t.phys.mem x = readWord s.phys.mem x)
    (hheldMem : ∀ x, (x, g) ∈ s.held → readWord t.phys.mem x = readWord s.phys.mem x) :
    HartOk t free' g pc := by
  cases pc with
  | idle | acquire => trivial
  | fill pa | readHead pa | link pa head => exact hheld pa hpc
  | push pa head => exact ⟨hheld pa hpc.1, (hheldMem pa hpc.1).trans hpc.2⟩
  | pop => exact hlock hpc
  | next fp => exact ⟨hlock hpc.1, hfree hpc.1 fp hpc.2⟩
  | unlink fp next =>
    exact ⟨hlock hpc.1, hfree hpc.1 fp hpc.2.1, (hfreeMem fp hpc.2.1).trans hpc.2.2⟩
  | release fp => exact ⟨hlock hpc.1, hpc.2.imp_right (hheld fp)⟩
  | clear fp => exact hpc.imp_right (hheld fp)

end Frames

section Steps

variable {frames free : List Addr} {s t : State H} {h : H} {f : Addr} {pc : Pc}

omit [DecidableEq H] in
theorem agreeOff_setMemory {p : Phys} {v : Byte} (hf : Aligned f) :
    AgreeOff f p.mem (p.setMemory f v 4096).mem := by
  rw [setMemory_mem]
  exact agreeOff_fill hf

theorem Inv.quiet (hs : Inv frames free s) (hf : f = 0 ∨ (f, h) ∈ s.held)
    (hmem : AgreeOff f s.phys.mem t.phys.mem) (hlink : t.phys.pageLink = s.phys.pageLink)
    (hheld : t.held = s.held) (hpc : t.pc = Function.update s.pc h pc)
    (hlock : ∀ g, g ≠ h → s.lock = some g → t.lock = some g) (hself : HartOk t free h pc) :
    Inv frames free t := by
  have hal := hs.mine_aligned hf
  have hfree : ∀ x ∈ free, readWord t.phys.mem x = readWord s.phys.mem x :=
    fun x hx => readWord_agree hmem (hs.free_ok hx).1 hal (hs.mine_not_free hf hx)
  refine ⟨?_, ?_, hs.valid, hs.nodup, fun g => ?_⟩
  · rw [hlink]
    exact hs.chain.congr hfree
  · rw [hheld]
    exact hs.perm
  · rw [hpc]
    by_cases hg : g = h
    · rw [hg, Function.update_self]
      exact hself
    · rw [Function.update_of_ne hg]
      refine (hs.harts g).frame (hlock g hg) (fun x hx => hheld ▸ hx) (fun _ x hx => hx) hfree ?_
      exact fun x hx =>
        readWord_agree hmem (hs.held_ok hx).1 hal (hs.mine_not_other hf hg hx)

theorem Inv.goto (hs : Inv frames free s) (hself : HartOk s free h pc) :
    Inv frames free (s.goto h pc) :=
  hs.quiet (.inl rfl) (fun _ _ => rfl) rfl rfl rfl (fun _ _ hl => hl)
    (hself.frame (fun hl => hl) (fun _ hx => hx) (fun _ _ hx => hx) (fun _ _ => rfl)
      (fun _ _ => rfl))

/-- The last write of `free_page`, while the list is as it was read. -/
theorem Inv.push (hs : Inv frames free s) {pa : Addr} (hpc : s.pc h = .push pa s.phys.pageLink) :
    Inv frames (pa :: free) { s.goto h .idle with
      phys := { s.phys with pageLink := pa }, held := s.held.erase (pa, h) } := by
  have hpa : (pa, h) ∈ s.held ∧ readWord s.phys.mem pa = s.phys.pageLink := by
    have := hs.harts h
    rwa [hpc] at this
  refine ⟨?_, ?_, hs.valid, hs.nodup, fun g => ?_⟩
  · exact hs.chain.push (hs.held_ok hpa.1).2 hpa.2 (fun _ _ => rfl)
  · refine List.Perm.trans ?_ hs.perm
    have hmap : (s.held.map Prod.fst).Perm (pa :: (s.held.erase (pa, h)).map Prod.fst) :=
      (List.perm_cons_erase hpa.1).map Prod.fst
    exact (List.perm_middle.symm).trans (hmap.symm.append_left free)
  · change HartOk _ _ g (Function.update s.pc h .idle g)
    by_cases hg : g = h
    · rw [hg, Function.update_self]
      trivial
    · rw [Function.update_of_ne hg]
      refine (hs.harts g).frame (fun hl => hl) (fun x hx => ?_)
        (fun _ x hx => List.mem_cons_of_mem _ hx) (fun _ _ => rfl) (fun _ _ => rfl)
      refine (List.mem_erase_of_ne ?_).mpr hx
      exact fun he => hg (congrArg Prod.snd he)

theorem Inv.unlink (hs : Inv frames free s) {fp next : Addr} (hpc : s.pc h = .unlink fp next)
    (hhead : s.phys.pageLink = fp) :
    ∃ free', Inv frames free' { s.goto h (.release fp) with
      phys := { s.phys with pageLink := next }, held := (fp, h) :: s.held } := by
  obtain ⟨hlock, hmem, hnext⟩ : s.lock = some h ∧ fp ∈ free ∧ readWord s.phys.mem fp = next := by
    have := hs.harts h
    rwa [hpc] at this
  obtain ⟨k, rest, rfl⟩ := List.append_of_mem hmem
  have hchain := hs.chain
  have hfp : k ++ fp :: rest = fp :: rest := by
    refine hchain.unique ?_
    rw [hhead]
    exact hchain.drop
  rw [hfp] at hs hchain
  refine ⟨rest, ?_, ?_, hs.valid, hs.nodup, fun g => ?_⟩
  · rw [← hnext]
    exact hchain.2.2
  · exact List.perm_middle.trans hs.perm
  · change HartOk _ _ g (Function.update s.pc h (.release fp) g)
    by_cases hg : g = h
    · rw [hg, Function.update_self]
      exact ⟨hlock, .inr List.mem_cons_self⟩
    · rw [Function.update_of_ne hg]
      refine (hs.harts g).frame (fun hl => hl) (fun x hx => List.mem_cons_of_mem _ hx)
        (fun hl => ?_) (fun _ _ => rfl) (fun _ _ => rfl)
      exact absurd (Option.some.inj (hl.symm.trans hlock)) hg

end Steps

variable {frames free : List Addr} {s t : State H} {a : Act H} {h : H}

theorem runHart_inv (hs : Inv frames free s) (hcur : Current s (.run h))
    (hstep : runHart s h = some t) : ∃ free', Inv frames free' t := by
  have hself := hs.harts h
  cases hpc : s.pc h with
  | idle =>
    simp only [runHart, hpc] at hstep
    cases hstep
  | fill pa =>
    rw [hpc] at hself
    simp only [runHart, hpc, Option.some.injEq] at hstep
    subst hstep
    have hal := (hs.held_ok hself).1
    rw [pgRoundUp_of_aligned hal]
    exact ⟨free, hs.quiet (.inr hself) (agreeOff_setMemory hal) rfl rfl rfl (fun _ _ hl => hl)
      hself⟩
  | readHead pa =>
    rw [hpc] at hself
    simp only [runHart, hpc, Option.some.injEq] at hstep
    subst hstep
    exact ⟨free, hs.goto hself⟩
  | link pa head =>
    rw [hpc] at hself
    simp only [runHart, hpc, Option.some.injEq] at hstep
    subst hstep
    have hagree : AgreeOff pa s.phys.mem (writeWord s.phys.mem pa head) := by
      have := agreeOff_writeWord (m := s.phys.mem) (i := 0) (w := head) (hs.held_ok hself).1
      rwa [slot_zero] at this
    exact ⟨free, hs.quiet (.inr hself) hagree rfl rfl rfl (fun _ _ hl => hl)
      ⟨hself, readWord_writeWord _ _ _⟩⟩
  | push pa head =>
    obtain rfl := (hcur h rfl).1 pa head hpc
    simp only [runHart, hpc, Option.some.injEq] at hstep
    subst hstep
    exact ⟨_, hs.push hpc⟩
  | acquire =>
    simp only [runHart, hpc, Option.ite_none_right_eq_some, Option.some.injEq] at hstep
    obtain ⟨hlock, rfl⟩ := hstep
    refine ⟨free, hs.quiet (.inl rfl) (fun _ _ => rfl) rfl rfl rfl (fun g _ hl => ?_) rfl⟩
    rw [hlock] at hl
    cases hl
  | pop =>
    rw [hpc] at hself
    simp only [runHart, hpc, Option.some.injEq] at hstep
    subst hstep
    refine ⟨free, hs.goto ?_⟩
    split
    case isTrue hne =>
      have hchain := hs.chain
      cases free with
      | nil => exact absurd hchain hne
      | cons x l =>
        rw [hchain.1]
        exact ⟨hself, List.mem_cons_self⟩
    case isFalse heq => exact ⟨hself, .inl (not_not.mp heq)⟩
  | next fp =>
    rw [hpc] at hself
    simp only [runHart, hpc, Option.some.injEq] at hstep
    subst hstep
    exact ⟨free, hs.goto ⟨hself.1, hself.2, rfl⟩⟩
  | unlink fp next =>
    simp only [runHart, hpc, Option.some.injEq] at hstep
    subst hstep
    exact hs.unlink hpc ((hcur h rfl).2 fp next hpc)
  | release fp =>
    rw [hpc] at hself
    simp only [runHart, hpc, Option.some.injEq] at hstep
    subst hstep
    refine ⟨free, hs.quiet (.inl rfl) (fun _ _ => rfl) rfl rfl rfl (fun g hg hl => ?_) hself.2⟩
    exact absurd (Option.some.inj (hl.symm.trans hself.1)) hg
  | clear fp =>
    rw [hpc] at hself
    simp only [runHart, hpc, Option.some.injEq] at hstep
    subst hstep
    exact ⟨free, hs.quiet hself (agreeOff_setMemory (hs.mine_aligned hself)) rfl rfl rfl
      (fun _ _ hl => hl) trivial⟩

theorem step_inv (hs : Inv frames free s) (hcur : Current s a) (hstep : step s a = some t) :
    ∃ free', Inv frames free' t := by
  cases a with
  | freePage h pa =>
    simp only [step] at hstep
    split at hstep
    · simp only [Option.ite_none_right_eq_some, Option.some.injEq] at hstep
      obtain ⟨hheld, rfl⟩ := hstep
      exact ⟨free, hs.goto hheld⟩
    · cases hstep
  | kalloc h =>
    simp only [step] at hstep
    split at hstep
    · cases hstep
      exact ⟨free, hs.goto trivial⟩
    · cases hstep
  | write h a v =>
    simp only [step] at hstep
    split at hstep
    case h_1 hpc =>
      simp only [Option.ite_none_right_eq_some, Option.some.injEq] at hstep
      obtain ⟨hheld, rfl⟩ := hstep
      have hagree : AgreeOff (pgRoundDown a) s.phys.mem (Function.update s.phys.mem a v) := by
        intro b hb
        refine Function.update_of_ne ?_ ..
        rintro rfl
        exact hb (pageNo_pgRoundDown b).symm
      have hstay : s.pc = Function.update s.pc h .idle := by rw [← hpc, Function.update_eq_self]
      exact ⟨free, hs.quiet (.inr hheld) hagree rfl rfl hstay (fun _ _ hl => hl) trivial⟩
    case h_2 => cases hstep
  | run h => exact runHart_inv hs hcur hstep

omit [DecidableEq H] in
theorem Start.inv (hs : Start frames s) : ∃ free, Inv frames free s := by
  obtain ⟨free, hchain, hperm⟩ := hs.intact
  refine ⟨free, hchain, hperm, hs.valid, hs.nodup, fun h => ?_⟩
  rw [hs.quiet h]
  trivial

omit [DecidableEq H] in
theorem Inv.intact (hs : Inv frames free s) : Intact frames s := ⟨free, hs.chain, hs.perm⟩

/-- The write of `page_link` after a change by another hart loses a frame, or leaves one on the
list that has an owner. -/
theorem not_intact_of_stale (hs : Inv frames free s) (hcur : ¬ Current s a)
    (hstep : step s a = some t) : ¬ Intact frames t := by
  rintro ⟨free', hchain, hperm⟩
  refine hcur ?_
  rintro h rfl
  refine ⟨fun pa head hpc => ?_, fun fp next hpc => ?_⟩
  · have hself := hs.harts h
    rw [hpc] at hself
    simp only [step, runHart, hpc, Option.some.injEq] at hstep
    subst hstep
    have hmap : (s.held.map Prod.fst).Perm (pa :: (s.held.erase (pa, h)).map Prod.fst) :=
      (List.perm_cons_erase hself.1).map Prod.fst
    cases free' with
    | nil => exact absurd hchain (hs.held_ok hself.1).2
    | cons x l =>
      obtain ⟨hx, -, hrest⟩ := hchain
      change pa = x at hx
      subst hx
      change Chain (readWord s.phys.mem) 0 (readWord s.phys.mem pa) l at hrest
      rw [hself.2] at hrest
      refine (hrest.start_eq hs.chain ?_).symm
      have hitems : (l ++ s.held.map Prod.fst).Perm (free ++ s.held.map Prod.fst) :=
        ((hmap.append_left l).trans List.perm_middle).trans (hperm.trans hs.perm.symm)
      exact (List.perm_append_right_iff _).mp hitems
  · have hself := hs.harts h
    rw [hpc] at hself
    simp only [step, runHart, hpc, Option.some.injEq] at hstep
    subst hstep
    have hrest : Chain (readWord s.phys.mem) 0 fp (fp :: free') := by
      refine ⟨rfl, (hs.free_ok hself.2.1).2, ?_⟩
      rw [hself.2.2]
      exact hchain
    refine (hrest.start_eq hs.chain ?_).symm
    have hitems : (fp :: free' ++ s.held.map Prod.fst).Perm (free ++ s.held.map Prod.fst) :=
      (List.perm_middle.symm).trans (hperm.trans hs.perm.symm)
    exact (List.perm_append_right_iff _).mp hitems

/-- From a start with all calls ended, in every run of any number of harts: each frame is on the
list once or with one owner, at all times, exactly when no hart writes `page_link` after it has
been changed since the hart read it. -/
theorem intact_iff {u : State H} {as : List (Act H)} (hs : Start frames s)
    (h : run step s as = some u) :
    (Meets step Current s as → Always step (fun t => Quiet t → Intact frames t) s as) ∧
      (Always step (Intact frames) s as ↔ Meets step Current s as) := by
  have hiff : Always step (Intact frames) s as ↔ Meets step Current s as := by
    refine always_iff_meets (I := fun t => ∃ free, Inv frames free t) ?_ ?_ ?_ hs.inv h
    · rintro t ⟨free, ht⟩
      exact ht.intact
    · rintro t a v ⟨free, ht⟩ hcur hv
      exact step_inv ht hcur hv
    · rintro t a v ⟨free, ht⟩ hcur hv
      exact not_intact_of_stale ht hcur hv
  exact ⟨fun hcur => (hiff.mpr hcur).mono (Q := fun t => Quiet t → Intact frames t)
    fun t ht _ => ht, hiff⟩

/-- Two harts with a frame each and nothing on the list. -/
def twoOwners : State Bool where
  phys := boot fun _ => 0
  lock := none
  pc _ := .idle
  held := [(0x1000, false), (0x2000, true)]

theorem twoOwners_start : Start [0x1000, 0x2000] twoOwners := by
  refine ⟨fun _ => rfl, rfl, ⟨[], rfl, .refl _⟩, ?_, by decide⟩
  simp only [List.forall_mem_cons]
  exact ⟨⟨by decide, by decide⟩, ⟨by decide, by decide⟩, by simp⟩

/-- One hart frees its frame, then the other one. -/
def inTurn : List (Act Bool) :=
  .freePage false 0x1000 :: List.replicate 4 (.run false) ++
    .freePage true 0x2000 :: List.replicate 4 (.run true)

theorem inTurn_isSome : (run step twoOwners inTurn).isSome := by
  decide +kernel

theorem intact_iff_inTurn :
    (Meets step Current twoOwners inTurn →
      Always step (fun t => Quiet t → Intact [0x1000, 0x2000] t) twoOwners inTurn) ∧
      (Always step (Intact [0x1000, 0x2000]) twoOwners inTurn ↔
        Meets step Current twoOwners inTurn) :=
  intact_iff twoOwners_start (Option.some_get inTurn_isSome).symm

/-- Both harts read the empty list before either of them writes `page_link`: the first frame is
lost. -/
theorem not_intact : ¬ ∀ (frames : List Addr) (s u : State Bool) (as : List (Act Bool)),
    Start frames s → run step s as = some u → Quiet u → Intact frames u := by
  intro h
  obtain ⟨free, hchain, hperm⟩ := h [0x1000, 0x2000] twoOwners _
    [.freePage false 0x1000, .freePage true 0x2000, .run false, .run true, .run false, .run true,
      .run false, .run true, .run false, .run true] twoOwners_start rfl
    (fun g => by cases g <;> rfl)
  cases free with
  | nil =>
    have h0 : (0x2000 : Addr) = 0 := hchain
    exact absurd h0 (by decide)
  | cons x l =>
    obtain ⟨hx, -, hrest⟩ := hchain
    change (0x2000 : Addr) = x at hx
    subst hx
    change Chain _ 0 (readWord (writeWord _ 0x2000 0) 0x2000) l at hrest
    rw [readWord_writeWord] at hrest
    have hl : l = [] := hrest.unique (show Chain _ _ _ [] from rfl)
    have hlen := hperm.length_eq
    rw [hl] at hlen
    exact absurd hlen (by decide)

end Raynix.PageRace
