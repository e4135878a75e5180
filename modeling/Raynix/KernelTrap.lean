import Raynix.Lib.Riscv

namespace Raynix.KernelTrap

open Raynix.Lib.Memory Raynix.Lib.Riscv

/-- `ktraph` up to its call. -/
def saveAll : List Instr :=
  [.addi .sp .sp (-256),
    .sd .ra 0 .sp,
    .sd .sp 8 .sp,
    .sd .gp 16 .sp,
    .sd .tp 24 .sp,
    .sd .t0 32 .sp,
    .sd .t1 40 .sp,
    .sd .t2 48 .sp,
    .sd .s0 56 .sp,
    .sd .s1 64 .sp,
    .sd .a0 72 .sp,
    .sd .a1 80 .sp,
    .sd .a2 88 .sp,
    .sd .a3 96 .sp,
    .sd .a4 104 .sp,
    .sd .a5 112 .sp,
    .sd .a6 120 .sp,
    .sd .a7 128 .sp,
    .sd .s2 136 .sp,
    .sd .s3 144 .sp,
    .sd .s4 152 .sp,
    .sd .s5 160 .sp,
    .sd .s6 168 .sp,
    .sd .s7 176 .sp,
    .sd .s8 184 .sp,
    .sd .s9 192 .sp,
    .sd .s10 200 .sp,
    .sd .s11 208 .sp,
    .sd .t3 216 .sp,
    .sd .t4 224 .sp,
    .sd .t5 232 .sp,
    .sd .t6 240 .sp]

/-- `ktraph` from the return of its call on. -/
def restoreAll : List Instr :=
  [.ld .ra 0 .sp,
    .ld .sp 8 .sp,
    .ld .gp 16 .sp,
    .ld .t0 32 .sp,
    .ld .t1 40 .sp,
    .ld .t2 48 .sp,
    .ld .s0 56 .sp,
    .ld .s1 64 .sp,
    .ld .a0 72 .sp,
    .ld .a1 80 .sp,
    .ld .a2 88 .sp,
    .ld .a3 96 .sp,
    .ld .a4 104 .sp,
    .ld .a5 112 .sp,
    .ld .a6 120 .sp,
    .ld .a7 128 .sp,
    .ld .s2 136 .sp,
    .ld .s3 144 .sp,
    .ld .s4 152 .sp,
    .ld .s5 160 .sp,
    .ld .s6 168 .sp,
    .ld .s7 176 .sp,
    .ld .s8 184 .sp,
    .ld .s9 192 .sp,
    .ld .s10 200 .sp,
    .ld .s11 208 .sp,
    .ld .t3 216 .sp,
    .ld .t4 224 .sp,
    .ld .t5 232 .sp,
    .ld .t6 240 .sp,
    .addi .sp .sp 256,
    .sret]

/-- The registers that a C function hands back. -/
def calleeSaved : List Reg :=
  [.sp, .s0, .s1, .s2, .s3, .s4, .s5, .s6, .s7, .s8, .s9, .s10, .s11]

/-- A C function that leaves `sepc` alone, as `kernel_trap`, which writes no control register. -/
structure CFunction (f : Machine → Machine) : Prop where
  saved : ∀ m, ∀ r ∈ calleeSaved, (f m).hart.gpr r = m.hart.gpr r
  sepc : ∀ m, (f m).hart.csr .sepc = m.hart.csr .sepc
  memory : ∀ m a, m.hart.gpr .sp ≤ a → (f m).mem a = m.mem a

variable (kerneltrap : Machine → Machine) (back : Addr)

/-- `call kerneltrap`, with the address it is to return to. -/
def called (m : Machine) : Machine :=
  let m := execAll bare m saveAll
  kerneltrap { m with hart := m.hart.setGpr .ra back }

/-- A trap in the kernel, up to `sret`. -/
def ktraph (m : Machine) : Machine := execAll bare (called kerneltrap back m.trap) restoreAll

/-- `m` is interrupted, and `t` goes on. -/
structure Resumed (m t : Machine) : Prop where
  pc : t.hart.pc = m.hart.pc
  gpr : ∀ r, r ≠ .tp → t.hart.gpr r = m.hart.gpr r
  tp : t.hart.gpr .tp = (called kerneltrap back m.trap).hart.gpr .tp
  memory : ∀ a, m.hart.gpr .sp ≤ a → t.mem a = m.mem a

/-- The registers with their cells in the frame, other than `sp`, which is the frame's address,
and `tp`, which is not loaded. -/
def slots : Slots :=
  [(.ra, 0), (.gp, 16), (.t0, 32), (.t1, 40), (.t2, 48), (.s0, 56), (.s1, 64),
    (.a0, 72), (.a1, 80), (.a2, 88), (.a3, 96), (.a4, 104), (.a5, 112), (.a6, 120), (.a7, 128),
    (.s2, 136), (.s3, 144), (.s4, 152), (.s5, 160), (.s6, 168), (.s7, 176), (.s8, 184), (.s9, 192),
    (.s10, 200), (.s11, 208), (.t3, 216), (.t4, 224), (.t5, 232), (.t6, 240)]

def allSlots : Slots := (.ra, 0) :: (.sp, 8) :: (.gp, 16) :: (.tp, 24) :: slots.drop 2

theorem saveAll_eq : saveAll = .addi .sp .sp (-256) :: saves allSlots .sp := rfl

theorem restoreAll_eq : restoreAll =
    .ld .ra 0 .sp :: .ld .sp 8 .sp :: (loads (slots.drop 1) .sp ++ [.addi .sp .sp 256, .sret]) :=
  rfl

theorem allSlots_fit : ∀ x ∈ allSlots, x.2 + 8 ≤ 256 := by decide

theorem allSlots_apart : allSlots.Pairwise fun x y => Apart x.2 y.2 := by decide

/-- The frame of a trap with the stack pointer at `sp`. -/
def frame (sp : Addr) : Addr := sp + (-256)

theorem cell_above {sp : Addr} (hsp : 256 ≤ sp.toNat) {i : Nat} (hi : i < 256) :
    frame sp ≤ frame sp + BitVec.ofNat 64 i := by
  unfold frame
  bv_omega

theorem execAll_saveAll {m : Machine} (hsp : 256 ≤ (m.hart.gpr .sp).toNat) :
    (execAll bare m saveAll).hart = m.hart.setGpr .sp (frame (m.hart.gpr .sp)) ∧
      (∀ x ∈ allSlots, cell (execAll bare m saveAll).mem (frame (m.hart.gpr .sp)) x.2 =
        (m.hart.setGpr .sp (frame (m.hart.gpr .sp))).gpr x.1) ∧
      ∀ a, m.hart.gpr .sp ≤ a → (execAll bare m saveAll).mem a = m.mem a := by
  let m₁ : Machine := { m with hart := m.hart.setGpr .sp (frame (m.hart.gpr .sp)) }
  have heq : execAll bare m saveAll = execAll bare m₁ (saves allSlots .sp) := by
    rw [saveAll_eq, execAll_cons]
    rfl
  have hmap : ∀ x ∈ allSlots,
      m₁.address bare .sp x.2 = frame (m.hart.gpr .sp) + BitVec.ofNat 64 x.2 := fun x _ => rfl
  obtain ⟨hhart, hslots, -⟩ :=
    execAll_saves (by decide : 256 < 2 ^ 64) allSlots_fit hmap allSlots_apart
  rw [heq]
  refine ⟨hhart, hslots, fun a ha => ?_⟩
  refine execAll_saves_mem fun x hx => ?_
  have hfit := allSlots_fit x hx
  rw [hmap x hx, frame]
  bv_omega

variable {kerneltrap : Machine → Machine} {back : Addr}

theorem called_eq (m : Machine) : called kerneltrap back m = kerneltrap
    ⟨(execAll bare m saveAll).hart.setGpr .ra back, (execAll bare m saveAll).mem⟩ := rfl

theorem called_frame (hf : CFunction kerneltrap) {m : Machine}
    (hsp : 256 ≤ (m.hart.gpr .sp).toNat) :
    (called kerneltrap back m).hart.gpr .sp = frame (m.hart.gpr .sp) ∧
      (∀ x ∈ allSlots, cell (called kerneltrap back m).mem (frame (m.hart.gpr .sp)) x.2 =
        (m.hart.setGpr .sp (frame (m.hart.gpr .sp))).gpr x.1) ∧
      (∀ a, m.hart.gpr .sp ≤ a → (called kerneltrap back m).mem a = m.mem a) ∧
      (called kerneltrap back m).hart.csr .sepc = m.hart.csr .sepc := by
  obtain ⟨hhart, hslots, hmem⟩ := execAll_saveAll hsp
  rw [called_eq]
  generalize execAll bare m saveAll = t at hhart hslots hmem
  have hsp_t : (t.hart.setGpr .ra back).gpr .sp = frame (m.hart.gpr .sp) := by
    rw [Hart.setGpr_of_ne _ (by decide), hhart, Hart.setGpr_self]
  refine ⟨?_, fun x hx => ?_, fun a ha => ?_, ?_⟩
  · exact (hf.saved _ .sp (by decide)).trans hsp_t
  · refine (cell_congr (allSlots_fit x hx) fun i hi => ?_).trans (hslots x hx)
    refine hf.memory _ _ ?_
    rw [hsp_t]
    exact cell_above hsp hi
  · refine (hf.memory _ _ ?_).trans (hmem a ha)
    rw [hsp_t, frame]
    bv_omega
  · rw [hf.sepc, Hart.setGpr_csr, hhart, Hart.setGpr_csr]

theorem exec_ld_same {m : Machine} {r base : Reg} {off : Nat}
    (h : readWord m.mem (m.address bare base off) = m.hart.gpr r) :
    exec bare m (.ld r off base) = m := by
  change { m with hart := { m.hart with gpr := Function.update m.hart.gpr r _ } } = m
  rw [h, Function.update_eq_self]

theorem slots_fit : ∀ x ∈ slots, (x.1, x.2) ∈ allSlots := by decide

theorem slots_ne_sp : ∀ x ∈ slots, x.1 ≠ .sp := by decide

theorem slots_distinct : slots.Pairwise fun x y => x.1 ≠ y.1 := by decide

theorem mem_slots {r : Reg} (hsp : r ≠ .sp) (htp : r ≠ .tp) : ∃ x ∈ slots, x.1 = r := by
  cases r
  case sp => exact absurd rfl hsp
  case tp => exact absurd rfl htp
  all_goals decide

/-- The frame is loaded through `sp`, which its own cell leaves where it is. -/
theorem execAll_restoreAll {m : Machine} {fr : Addr} (hsp : m.hart.gpr .sp = fr)
    (hcell : cell m.mem fr 8 = fr) :
    (execAll bare m restoreAll).hart.pc = m.hart.csr .sepc ∧
      (execAll bare m restoreAll).mem = m.mem ∧
      (execAll bare m restoreAll).hart.gpr .sp = fr + 256 ∧
      (execAll bare m restoreAll).hart.gpr .tp = m.hart.gpr .tp ∧
      ∀ x ∈ slots, (execAll bare m restoreAll).hart.gpr x.1 = cell m.mem fr x.2 := by
  have hmap : ∀ x ∈ slots, m.address bare .sp x.2 = fr + BitVec.ofNat 64 x.2 :=
    fun x _ => congrArg (· + BitVec.ofNat 64 x.2) hsp
  obtain ⟨hmem, hcsr, hslots, hother⟩ := execAll_loads hmap slots_ne_sp slots_distinct
  have hself : exec bare (exec bare m (.ld .ra 0 .sp)) (.ld .sp 8 .sp) =
      exec bare m (.ld .ra 0 .sp) := by
    apply exec_ld_same
    change cell m.mem (m.hart.gpr .sp) 8 = m.hart.gpr .sp
    rw [hsp, hcell]
  have heq : execAll bare m restoreAll =
      execAll bare (execAll bare m (loads slots .sp)) [.addi .sp .sp 256, .sret] := by
    rw [restoreAll_eq, execAll_cons, execAll_cons, hself, execAll_append]
    rfl
  rw [heq]
  generalize execAll bare m (loads slots .sp) = t at hmem hcsr hslots hother
  refine ⟨?_, hmem, ?_, ?_, fun x hx => ?_⟩
  · exact congrFun hcsr .sepc
  · change (t.hart.setGpr .sp (t.hart.gpr .sp + 256)).gpr .sp = _
    rw [Hart.setGpr_self, hother .sp slots_ne_sp, hsp]
  · change (t.hart.setGpr .sp (t.hart.gpr .sp + 256)).gpr .tp = _
    rw [Hart.setGpr_of_ne _ (by decide)]
    exact hother .tp (by decide)
  · change (t.hart.setGpr .sp (t.hart.gpr .sp + 256)).gpr x.1 = _
    rw [Hart.setGpr_of_ne _ (slots_ne_sp x hx)]
    exact hslots x hx

/-- A trap leaves the interrupted kernel code as it was, if there is room for the frame below its
stack pointer. -/
theorem resumed (hf : CFunction kerneltrap) (m : Machine)
    (hroom : 256 ≤ (m.hart.gpr .sp).toNat) :
    Resumed kerneltrap back m (ktraph kerneltrap back m) := by
  obtain ⟨hsp, hcells, hmem, hsepc⟩ := @called_frame kerneltrap back hf m.trap hroom
  obtain ⟨hpc, hmem', hsp', htp, hslots⟩ :=
    execAll_restoreAll hsp ((hcells (.sp, 8) (by decide)).trans (Hart.setGpr_self ..))
  refine ⟨?_, fun r hr => ?_, htp, fun a ha => ?_⟩
  · rw [ktraph, hpc, hsepc]
    rfl
  · by_cases hr_sp : r = .sp
    · subst hr_sp
      rw [ktraph, hsp', frame]
      exact neg_add_cancel_right _ _
    · obtain ⟨x, hx, rfl⟩ := mem_slots hr_sp hr
      rw [ktraph, hslots x hx, hcells x (slots_fit x hx), Hart.setGpr_of_ne _ hr_sp]
      rfl
  · rw [ktraph, hmem']
    exact hmem a ha

/-- A function with a result, whose own calls have changed `ra`. -/
def answer : Machine → Machine := fun m =>
  { m with hart := (m.hart.setGpr .a0 1).setGpr .ra 0x80001100 }

theorem answer_cFunction : CFunction answer := by
  refine ⟨fun m r hr => ?_, fun m => rfl, fun m a _ => rfl⟩
  have hne : r ≠ .ra ∧ r ≠ .a0 := by
    revert r
    decide
  change ((m.hart.setGpr .a0 1).setGpr .ra 0x80001100).gpr r = _
  rw [Hart.setGpr_of_ne _ hne.1, Hart.setGpr_of_ne _ hne.2]

/-- On the stack of a process, with every register in use. -/
def interrupted : Machine where
  hart := { gpr := fun r => if r = .sp then 0x87005000 else 7, csr := fun _ => 0, pc := 0x80003004 }
  mem := fun _ => 0

theorem resumed_interrupted :
    Resumed answer 0x80001088 interrupted (ktraph answer 0x80001088 interrupted) :=
  resumed answer_cFunction interrupted (by decide)

/-- The stack pointer is at 0. -/
def noRoom : Machine where
  hart := { gpr := fun r => if r = .ra then 1 else 0, csr := fun _ => 0, pc := 0x80003004 }
  mem := fun _ => 0

/-- The frame wraps around to the top of the memory, where `ra` is written. -/
theorem noRoom_notResumed : ¬ ∀ (kerneltrap : Machine → Machine) (back : Addr) (m : Machine),
    CFunction kerneltrap → Resumed kerneltrap back m (ktraph kerneltrap back m) := by
  intro h
  have hid : CFunction id := ⟨fun _ _ _ => rfl, fun _ => rfl, fun _ _ _ => rfl⟩
  have hmem := (h id 0x80001088 noRoom hid).memory (-256) (by decide)
  exact absurd hmem (by decide)

end Raynix.KernelTrap
