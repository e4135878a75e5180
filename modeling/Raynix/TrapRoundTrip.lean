import Raynix.Lib.Transition
import Raynix.Trampoline

namespace Raynix.TrapRoundTrip

open Raynix.Lib.Memory Raynix.Lib.Riscv Raynix.Lib.Transition Raynix.Trampoline Raynix.Vm

/-- What a user program sees of a hart. -/
structure User where
  gpr : Reg → Word
  pc : Addr

/-- Each process sees its frame at `TRAPFRAME`, and no two share a frame or a stack page. -/
structure Layout (k : Kernel) : Prop where
  mapped : ∀ g, Maps k (page (k.cpus g)) trapframeVa (k.cpus g).tf
  frames : ∀ g g', k.cpus g ≠ k.cpus g' → Separate (k.cpus g).tf (k.cpus g').tf
  kstacks : ∀ g g', (k.cpus g).kstack = (k.cpus g').kstack → k.cpus g = k.cpus g'

/-- A page table of the kernel: it maps the frames directly. -/
def Direct (k : Kernel) (satp : Word) : Prop :=
  ∀ g, Maps k satp (k.cpus g).tf (k.cpus g).tf

/-- From one trap to the next: the hart at the call of `return_2_user`, whose id is `hartId` and
whose process is `p`; what `read_tp` yields in `user_trap` and, twice, in `return_2_user`; and the
user program at the next trap, with what it has done to the memory outside the frames. -/
structure Round (k : Kernel) (p : Proc) where
  hart : Hart
  hartId : Word
  current : k.cpus hartId = p
  direct : Direct k (hart.csr .satp)
  trapTp : Word
  lookupTp : Word
  hartidTp : Word
  user : User
  store : Mem → Mem
  keeps : ∀ g m i, i < 288 →
    store m ((k.cpus g).tf + BitVec.ofNat 64 i) = m ((k.cpus g).tf + BitVec.ofNat 64 i)

/-- The memory after `uservec`, and the hart at its end. The user program at the trap is ghost.
There is none before the first `return_2_user`. -/
structure State where
  mem : Mem
  trap : Option (Hart × User)

variable {k : Kernel} {p : Proc}

def handled (s : State) (a : Round k p) : Mem :=
  match s.trap with
  | none => s.mem
  | some (hart, _) => (userTrap k a.trapTp ⟨hart, s.mem⟩).mem

def resumed (s : State) (a : Round k p) : Machine :=
  execAll k.translate (return2User k a.lookupTp a.hartidTp ⟨a.hart, handled s a⟩) userret

def trapped (s : State) (a : Round k p) : Machine :=
  Machine.trap
    { hart := { (resumed s a).hart with gpr := a.user.gpr, pc := a.user.pc }
      mem := a.store (resumed s a).mem }

def entered (s : State) (a : Round k p) : Machine := execAll k.translate (trapped s a) uservec

def round (s : State) (a : Round k p) : State :=
  ⟨(entered s a).mem, some ((entered s a).hart, a.user)⟩

/-- The user program goes on as it was trapped, and the next trap enters the kernel as it was
left. -/
structure RoundTrip (s : State) (a : Round k p) : Prop where
  gpr : ∀ h u, s.trap = some (h, u) → (resumed s a).hart.gpr = u.gpr
  pc : ∀ h u, s.trap = some (h, u) → (resumed s a).hart.pc = u.pc
  handler : (trapped s a).hart.pc = userHandler k
  satp : (entered s a).hart.csr .satp = a.hart.csr .satp
  sp : (entered s a).hart.gpr .sp = p.kstack + 4096
  tp : (entered s a).hart.gpr .tp = a.hartId
  userTrap : (entered s a).hart.pc = k.userTrap

/-- The frame names the page table in force already, and `read_tp` happens to yield what it is to
yield: for the lookups any index of the process will do, and `user_trap` may miss it if the frame
holds the `pc` of the trap from before. -/
structure Sound (s : State) (a : Round k p) : Prop where
  satp : field s.mem p.tf .kernelSatp = a.hart.csr .satp
  lookup : k.cpus a.lookupTp = p
  hartid : a.hartidTp = a.hartId
  epc : ∀ h u, s.trap = some (h, u) → k.cpus a.trapTp = p ∨ field s.mem p.tf .epc = u.pc

/-- The frame holds the registers of the user program, and the hart runs on a page table of the
kernel. -/
def Kept (p : Proc) (k : Kernel) (s : State) : Prop :=
  ∀ h u, s.trap = some (h, u) →
    (∀ r, field s.mem p.tf (.reg r) = u.gpr r) ∧ h.csr .sepc = u.pc ∧ Direct k (h.csr .satp)

theorem kept_of_none {s : State} (hs : s.trap = none) : Kept p k s :=
  fun _ _ hu => absurd (hs.symm.trans hu) (by simp)

theorem round_mem (s : State) (a : Round k p) : (round s a).mem = (entered s a).mem := by
  rw [round]

theorem round_trap (s : State) (a : Round k p) :
    (round s a).trap = some ((entered s a).hart, a.user) := by
  rw [round]

theorem trapped_gpr (s : State) (a : Round k p) : (trapped s a).hart.gpr = a.user.gpr := by
  unfold trapped Machine.trap Hart.setCsr
  rfl

theorem field_store (a : Round k p) (g : Word) (m : Mem) (f : Field) :
    field (a.store m) (k.cpus g).tf f = field m (k.cpus g).tf f :=
  cell_congr (offset_fits f) (a.keeps g m)

theorem field_handled (L : Layout k) {s : State} (hs : Kept p k s) (a : Round k p) (g : Word)
    (f : Field) : field (handled s a) (k.cpus g).tf f =
      match s.trap with
      | none => field s.mem (k.cpus g).tf f
      | some (_, u) =>
        if f = .epc ∧ k.cpus a.trapTp = k.cpus g then u.pc else field s.mem (k.cpus g).tf f := by
  rw [handled]
  cases hcase : s.trap with
  | none => rfl
  | some x =>
    obtain ⟨h, u⟩ := x
    obtain ⟨-, hsepc, hdirect⟩ := hs h u hcase
    by_cases hg : k.cpus a.trapTp = k.cpus g
    · refine (field_userTrap (m := ⟨h, s.mem⟩) hg (hdirect g) f).trans ?_
      simp only [hg, and_true]
      rw [hsepc]
    · have hsep := L.frames g a.trapTp (Ne.symm hg)
      refine (field_userTrap_of_separate (m := ⟨h, s.mem⟩) rfl (hdirect a.trapTp) hsep f).trans ?_
      simp [hg]

theorem return2User_a0 (s : State) (a : Round k p) :
    (return2User k a.lookupTp a.hartidTp ⟨a.hart, handled s a⟩).hart.gpr .a0 =
      page (k.cpus a.lookupTp) :=
  (return2User_hart (m := ⟨a.hart, handled s a⟩) rfl (a.direct _)).1

theorem maps_return2User (L : Layout k) (s : State) (a : Round k p) :
    Maps k ((return2User k a.lookupTp a.hartidTp ⟨a.hart, handled s a⟩).hart.gpr .a0) trapframeVa
      (k.cpus a.lookupTp).tf := by
  rw [return2User_a0]
  exact L.mapped _

theorem resumed_hart (L : Layout k) (s : State) (a : Round k p) :
    (∀ r, (resumed s a).hart.gpr r = field (handled s a) (k.cpus a.lookupTp).tf (.reg r)) ∧
      (resumed s a).hart.pc = field (handled s a) (k.cpus a.lookupTp).tf .epc := by
  obtain ⟨hgpr, hpc, -, -⟩ := execAll_userret (maps_return2User L s a)
  refine ⟨fun r => ?_, ?_⟩
  · rw [resumed, hgpr, field_return2User rfl (a.direct _)]
    rfl
  · rw [resumed, hpc]
    exact (return2User_hart (m := ⟨a.hart, handled s a⟩) rfl (a.direct _)).2.1

theorem trapped_csr (L : Layout k) (s : State) (a : Round k p) :
    (trapped s a).hart.csr .satp = page (k.cpus a.lookupTp) ∧
      (trapped s a).hart.csr .sepc = a.user.pc ∧ (trapped s a).hart.pc = userHandler k := by
  obtain ⟨-, -, hcsr, -⟩ := execAll_userret (maps_return2User L s a)
  have hstvec : (return2User k a.lookupTp a.hartidTp ⟨a.hart, handled s a⟩).hart.csr .stvec =
      userHandler k :=
    (return2User_hart (m := ⟨a.hart, handled s a⟩) rfl (a.direct a.lookupTp)).2.2
  refine ⟨?_, rfl, ?_⟩
  · change (resumed s a).hart.csr .satp = _
    rw [resumed, hcsr, Function.update_self, return2User_a0]
  · change (resumed s a).hart.csr .stvec = _
    rw [resumed, hcsr, Function.update_of_ne (by decide), hstvec]

theorem field_trapped (L : Layout k) (s : State) (a : Round k p) (f : Field) :
    field (trapped s a).mem (k.cpus a.lookupTp).tf f =
      if f = .kernelHartid then a.hartidTp
      else if f = .kernelTrap then k.userTrap
      else if f = .kernelSp then (k.cpus a.lookupTp).kstack + 4096
      else field (handled s a) (k.cpus a.lookupTp).tf f := by
  obtain ⟨-, -, -, hmem⟩ := execAll_userret (maps_return2User L s a)
  change field (a.store (resumed s a).mem) _ f = _
  rw [field_store, resumed, hmem, field_return2User rfl (a.direct _)]

theorem trapped_kernelSatp (L : Layout k) {s : State} (hs : Kept p k s) (a : Round k p) :
    field (trapped s a).mem (k.cpus a.lookupTp).tf .kernelSatp =
      field s.mem (k.cpus a.lookupTp).tf .kernelSatp := by
  refine (field_trapped L s a .kernelSatp).trans ?_
  rw [field_handled L hs]
  cases s.trap <;> simp

theorem maps_trapped (L : Layout k) (s : State) (a : Round k p) :
    Maps k ((trapped s a).hart.csr .satp) trapframeVa (k.cpus a.lookupTp).tf := by
  rw [(trapped_csr L s a).1]
  exact L.mapped _

/-- `uservec` enters the kernel with what `return_2_user` left, but for the page table: that is
the one the frame held before. -/
theorem entered_hart (L : Layout k) {s : State} (hs : Kept p k s) (a : Round k p) :
    (entered s a).hart.gpr .sp = (k.cpus a.lookupTp).kstack + 4096 ∧
      (entered s a).hart.gpr .tp = a.hartidTp ∧
      (entered s a).hart.pc = k.userTrap ∧
      (entered s a).hart.csr .satp = field s.mem (k.cpus a.lookupTp).tf .kernelSatp ∧
      (entered s a).hart.csr .sepc = a.user.pc := by
  obtain ⟨-, hsp, htp, hpc, hsatp, hsepc⟩ := execAll_uservec (maps_trapped L s a)
  refine ⟨?_, ?_, ?_, ?_, ?_⟩
  · exact hsp.trans (field_trapped L s a .kernelSp)
  · exact htp.trans (field_trapped L s a .kernelHartid)
  · exact hpc.trans (field_trapped L s a .kernelTrap)
  · exact hsatp.trans (trapped_kernelSatp L hs a)
  · exact hsepc.trans (trapped_csr L s a).2.1

theorem sp_iff (L : Layout k) {s : State} (hs : Kept p k s) (a : Round k p) :
    (entered s a).hart.gpr .sp = p.kstack + 4096 ↔ k.cpus a.lookupTp = p := by
  rw [(entered_hart L hs a).1, add_left_inj]
  constructor
  · intro h
    rw [L.kstacks a.lookupTp a.hartId (by rw [h, a.current]), a.current]
  · exact fun h => by rw [h]

theorem pc_iff (L : Layout k) {s : State} (hs : Kept p k s) {a : Round k p}
    (hp : k.cpus a.lookupTp = p) :
    (∀ h u, s.trap = some (h, u) → (resumed s a).hart.pc = u.pc) ↔
      ∀ h u, s.trap = some (h, u) → k.cpus a.trapTp = p ∨ field s.mem p.tf .epc = u.pc := by
  refine forall_congr' fun h => forall_congr' fun u => forall_congr' fun hu => ?_
  rw [(resumed_hart L s a).2, field_handled L hs, hu, hp]
  by_cases htrap : k.cpus a.trapTp = p
  · simp [htrap]
  · simp [htrap]

theorem roundTrip_iff_sound (L : Layout k) {s : State} {a : Round k p} (hs : Kept p k s) :
    RoundTrip s a ↔ Sound s a := by
  obtain ⟨-, htp, htrap, hsatp, -⟩ := entered_hart L hs a
  constructor
  · intro h
    have hp := (sp_iff L hs a).mp h.sp
    refine ⟨?_, hp, htp.symm.trans h.tp, (pc_iff L hs hp).mp h.pc⟩
    rw [← h.satp, hsatp, hp]
  · intro h
    have hp := h.lookup
    refine ⟨?_, (pc_iff L hs hp).mpr h.epc, (trapped_csr L s a).2.2, ?_, (sp_iff L hs a).mpr hp,
      htp.trans h.hartid, htrap⟩
    · intro t u hu
      funext r
      rw [(resumed_hart L s a).1, field_handled L hs, hu, hp, ← (hs t u hu).1 r]
      simp
    · rw [hsatp, hp, h.satp]

theorem round_kept (L : Layout k) {s : State} {a : Round k p} (hs : Kept p k s) (h : Sound s a) :
    Kept p k (round s a) := by
  obtain ⟨hfield, -⟩ := execAll_uservec (maps_trapped L s a)
  obtain ⟨-, -, -, hsatp, hsepc⟩ := entered_hart L hs a
  intro t u hu
  obtain ⟨rfl, rfl⟩ := Prod.mk.inj (Option.some.inj ((round_trap s a).symm.trans hu))
  refine ⟨fun r => ?_, hsepc, ?_⟩
  · have hreg := hfield (.reg r)
    rw [h.lookup] at hreg
    rw [round_mem, entered]
    exact hreg.trans (congrFun (trapped_gpr s a) r)
  · rw [hsatp, h.lookup, h.satp]
    exact a.direct

/-- Over any number of traps, each of them round trips exactly as long as every call of
`return_2_user` finds the page table in force in `kernel_satp` already, which it never writes, and
`read_tp`, which never reads `tp`, yields the hart id and indices of the process. -/
theorem roundTrips_iff (L : Layout k) {s : State} {as : List (Round k p)} (hs : s.trap = none) :
    Meets (fun s a => some (round s a)) RoundTrip s as ↔
      Meets (fun s a => some (round s a)) Sound s as := by
  have hstep : ∀ s (a : Round k p) t, Kept p k s → Sound s a → some (round s a) = some t →
      Kept p k t := by
    intro s a t hs ha ht
    cases ht
    exact round_kept L hs ha
  exact meets_iff_meets hstep (fun s a h => roundTrip_iff_sound L h) (kept_of_none hs)

def oneProc : Proc := ⟨0x87000000, 0x87001000, kstack 0⟩

def otherProc : Proc := ⟨0x87002000, 0x87003000, kstack 1⟩

/-- Two processes, of which hart 1 runs `otherProc`, and page tables that differ in what they show
at `TRAPFRAME`. -/
def oneKernel : Kernel where
  trampoline := 0x80007000
  uservec := 0x80007000
  userret := 0x80007090
  ktraph := 0x80001000
  userTrap := 0x80002000
  cpus g := if g = 1 then otherProc else oneProc
  translate satp a :=
    if satp = page oneProc then oneProc.tf + (a - trapframeVa)
    else if satp = page otherProc then otherProc.tf + (a - trapframeVa)
    else a

theorem oneKernel_cpus (g : Word) :
    oneKernel.cpus g = otherProc ∨ oneKernel.cpus g = oneProc := ite_eq_or_eq _ _ _

theorem oneKernel_layout : Layout oneKernel where
  mapped g i _ := by
    obtain hg | hg := oneKernel_cpus g
    all_goals
      rw [hg]
      simp [oneKernel, oneProc, otherProc, page]
  frames g g' h i j hi hj := by
    obtain hg | hg := oneKernel_cpus g <;> obtain hg' | hg' := oneKernel_cpus g' <;>
      rw [hg, hg'] at h ⊢
    · exact absurd rfl h
    · simp only [oneProc, otherProc]
      bv_omega
    · simp only [oneProc, otherProc]
      bv_omega
    · exact absurd rfl h
  kstacks g g' h := by
    obtain hg | hg := oneKernel_cpus g <;> obtain hg' | hg' := oneKernel_cpus g' <;>
      rw [hg, hg'] at h ⊢
    · exact absurd h (by decide)
    · exact absurd h (by decide)

theorem oneKernel_direct {satp : Word} (h : satp ≠ page oneProc) (h' : satp ≠ page otherProc) :
    Direct oneKernel satp := by
  intro g i _
  change (if satp = _ then _ else if satp = _ then _ else _) = _
  rw [if_neg h, if_neg h']

/-- The kernel runs on its own page table and hart 0, and the user program counts its registers.
`read_tp` yields the hart id. -/
def oneRound : Round oneKernel oneProc where
  hart := { gpr := fun _ => 0, csr := fun _ => 0x8000000000080001, pc := 0x80002000 }
  hartId := 0
  current := rfl
  direct := oneKernel_direct (by decide) (by decide)
  trapTp := 0
  lookupTp := 0
  hartidTp := 0
  user := { gpr := fun r => BitVec.ofNat 64 (Field.reg r).offset, pc := 0x1000 }
  store := id
  keeps := fun _ _ _ _ => rfl

/-- A frame that is still zero, before the first return to user mode. -/
def zeroed : State := ⟨fun _ => 0, none⟩

/-- A frame that names the page table of the kernel. -/
def named : State := ⟨writeWord (fun _ => 0) oneProc.tf 0x8000000000080001, none⟩

theorem named_sound : Meets (fun s a => some (round s a)) Sound named [oneRound, oneRound] := by
  have hnamed : field named.mem oneProc.tf .kernelSatp = 0x8000000000080001 :=
    readWord_writeWord _ _ _
  have hfirst : Sound named oneRound := ⟨hnamed, rfl, rfl, fun _ _ hu => by cases hu⟩
  refine ⟨hfirst, fun t ht => ⟨?_, fun _ _ => trivial⟩⟩
  obtain rfl := Option.some.inj ht
  have hkept : Kept oneProc oneKernel named := kept_of_none rfl
  obtain ⟨hfield, -⟩ := execAll_uservec (maps_trapped oneKernel_layout named oneRound)
  refine ⟨?_, rfl, rfl, fun _ _ _ => Or.inl rfl⟩
  rw [round_mem, entered]
  exact ((hfield .kernelSatp).trans (trapped_kernelSatp oneKernel_layout hkept oneRound)).trans
    hnamed

theorem roundTrips_iff_twice :
    Meets (fun s a => some (round s a)) RoundTrip named [oneRound, oneRound] :=
  (roundTrips_iff oneKernel_layout rfl).mpr named_sound

/-- The first trap of a process enters the kernel on page table 0. -/
theorem not_roundTrips : ¬ ∀ (k : Kernel) (p : Proc) (s : State) (as : List (Round k p)),
    Layout k → s.trap = none → Meets (fun s a => some (round s a)) RoundTrip s as := by
  intro h
  have hsatp := (h oneKernel oneProc zeroed [oneRound] oneKernel_layout rfl).1.satp
  have hzero : field zeroed.mem oneProc.tf .kernelSatp = 0 := readWord_zero (fun _ _ => rfl)
  have hkept : Kept oneProc oneKernel zeroed := kept_of_none rfl
  have hentered := (entered_hart oneKernel_layout hkept oneRound).2.2.2.1
  rw [hentered] at hsatp
  exact absurd (hzero.symm.trans hsatp) (by decide)

end Raynix.TrapRoundTrip
