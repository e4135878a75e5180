import Raynix.Lib.Riscv
import Raynix.Spinlock
import Raynix.Vm

namespace Raynix.Trampoline

open Raynix.Lib.Memory Raynix.Lib.Riscv Raynix.Spinlock Raynix.Vm

/-- The members of `struct trapframe`. -/
inductive Field
  | kernelSatp
  | kernelSp
  | kernelTrap
  | epc
  | kernelHartid
  | reg (r : Reg)
  deriving DecidableEq

/-- `struct trapframe`, in the order of its declaration. -/
def trapframe : List Field :=
  [.kernelSatp, .kernelSp, .kernelTrap, .epc, .kernelHartid,
    .reg .ra, .reg .sp, .reg .gp, .reg .tp, .reg .t0, .reg .t1, .reg .t2, .reg .s0, .reg .s1,
    .reg .a0, .reg .a1, .reg .a2, .reg .a3, .reg .a4, .reg .a5, .reg .a6, .reg .a7,
    .reg .s2, .reg .s3, .reg .s4, .reg .s5, .reg .s6, .reg .s7, .reg .s8, .reg .s9, .reg .s10,
    .reg .s11, .reg .t3, .reg .t4, .reg .t5, .reg .t6]

def Field.offset (f : Field) : Nat := 8 * trapframe.idxOf f

def trapframeVa : Addr := trampolineVa - 4096

def uservec : List Instr :=
  [.csrw .sscratch .a0,
    .li .a0 trapframeVa,
    .sd .ra 40 .a0,
    .sd .sp 48 .a0,
    .sd .gp 56 .a0,
    .sd .tp 64 .a0,
    .sd .t0 72 .a0,
    .sd .t1 80 .a0,
    .sd .t2 88 .a0,
    .sd .s0 96 .a0,
    .sd .s1 104 .a0,
    .sd .a1 120 .a0,
    .sd .a2 128 .a0,
    .sd .a3 136 .a0,
    .sd .a4 144 .a0,
    .sd .a5 152 .a0,
    .sd .a6 160 .a0,
    .sd .a7 168 .a0,
    .sd .s2 176 .a0,
    .sd .s3 184 .a0,
    .sd .s4 192 .a0,
    .sd .s5 200 .a0,
    .sd .s6 208 .a0,
    .sd .s7 216 .a0,
    .sd .s8 224 .a0,
    .sd .s9 232 .a0,
    .sd .s10 240 .a0,
    .sd .s11 248 .a0,
    .sd .t3 256 .a0,
    .sd .t4 264 .a0,
    .sd .t5 272 .a0,
    .sd .t6 280 .a0,
    .csrr .t0 .sscratch,
    .sd .t0 112 .a0,
    .ld .sp 8 .a0,
    .ld .tp 32 .a0,
    .ld .t0 16 .a0,
    .ld .t1 0 .a0,
    .sfenceVma,
    .csrw .satp .t1,
    .sfenceVma,
    .jr .t0]

def userret : List Instr :=
  [.sfenceVma,
    .csrw .satp .a0,
    .sfenceVma,
    .li .a0 trapframeVa,
    .ld .ra 40 .a0,
    .ld .sp 48 .a0,
    .ld .gp 56 .a0,
    .ld .tp 64 .a0,
    .ld .t0 72 .a0,
    .ld .t1 80 .a0,
    .ld .t2 88 .a0,
    .ld .s0 96 .a0,
    .ld .s1 104 .a0,
    .ld .a1 120 .a0,
    .ld .a2 128 .a0,
    .ld .a3 136 .a0,
    .ld .a4 144 .a0,
    .ld .a5 152 .a0,
    .ld .a6 160 .a0,
    .ld .a7 168 .a0,
    .ld .s2 176 .a0,
    .ld .s3 184 .a0,
    .ld .s4 192 .a0,
    .ld .s5 200 .a0,
    .ld .s6 208 .a0,
    .ld .s7 216 .a0,
    .ld .s8 224 .a0,
    .ld .s9 232 .a0,
    .ld .s10 240 .a0,
    .ld .s11 248 .a0,
    .ld .t3 256 .a0,
    .ld .t4 264 .a0,
    .ld .t5 272 .a0,
    .ld .t6 280 .a0,
    .ld .a0 112 .a0,
    .sret]

/-- The fields of a `struct proc` that the trap path reads. -/
structure Proc where
  tf : Addr
  pagetable : Addr
  kstack : Addr
  deriving DecidableEq

/-- The linked addresses, the process named by each entry of `cpus`, and the page tables: where
the table of a `satp` value sends an address. -/
structure Kernel where
  trampoline : Addr
  uservec : Addr
  userret : Addr
  ktraph : Addr
  userTrap : Addr
  cpus : Word → Proc
  translate : Word → Addr → Addr

variable (k : Kernel)

def tfAddress (m : Machine) (p : Proc) (f : Field) : Addr :=
  k.translate (m.hart.csr .satp) (p.tf + BitVec.ofNat 64 f.offset)

def storeTf (m : Machine) (p : Proc) (f : Field) (v : Word) : Machine :=
  { m with mem := writeWord m.mem (tfAddress k m p f) v }

def loadTf (m : Machine) (p : Proc) (f : Field) : Word := readWord m.mem (tfAddress k m p f)

def writeCsr (m : Machine) (c : Csr) (v : Word) : Machine :=
  { m with hart := m.hart.setCsr c v }

def sstatusSpie : Word := 1#64 <<< 5

/-- The `satp` value of the process's page table. -/
def page (p : Proc) : Word := 8#64 <<< 60 ||| p.pagetable >>> 12

def userHandler : Addr := trampolineVa + (k.uservec - k.trampoline)

/-- `read_tp` is written `mv tp, %0` with `%0` its output: what an unset register holds, `tp` here,
is the result and goes to the register `tp`. -/
def readTp (m : Machine) (tp : Word) : Machine := { m with hart := m.hart.setGpr .tp tp }

/-- `return_2_user`, up to the first instruction of `userret`. Its two calls of `read_tp` yield
`lookup` and `hartid`. -/
def return2User (lookup hartid : Word) (m : Machine) : Machine :=
  let m := readTp m lookup
  let myproc := k.cpus lookup
  let m := writeCsr m .sstatus (m.hart.csr .sstatus ||| ~~~sstatusSie)
  let m := writeCsr m .stvec (userHandler k)
  -- Meant for `kernel_satp`; the next store but one overwrites it.
  let m := storeTf k m myproc .kernelTrap (m.hart.csr .satp)
  let m := storeTf k m myproc .kernelSp (myproc.kstack + 4096)
  let m := storeTf k m myproc .kernelTrap k.userTrap
  let m := readTp m hartid
  let m := storeTf k m myproc .kernelHartid hartid
  let m := writeCsr m .sepc (loadTf k m myproc .epc)
  let m := writeCsr m .sstatus (m.hart.csr .sstatus &&& ~~~(3#64 <<< 11) ||| sstatusSpie)
  -- The argument of `userret` is written `pagetable`, which is not declared: `page` is meant.
  { m with hart :=
      { m.hart.setGpr .a0 (page myproc) with pc := trampolineVa + (k.userret - k.trampoline) } }

/-- `user_trap`, up to its call of `return_2_user`; its call of `read_tp` yields `lookup`. The cases
of its `switch` do nothing. -/
def userTrap (lookup : Word) (m : Machine) : Machine :=
  let m := writeCsr m .stvec k.ktraph
  let m := readTp m lookup
  storeTf k m (k.cpus lookup) .epc (m.hart.csr .sepc)

/-- The member of the trapframe at `tf`. -/
def field (m : Mem) (tf : Addr) (f : Field) : Word := cell m tf f.offset

theorem mem_trapframe (f : Field) : f ∈ trapframe := by
  cases f with
  | reg r => cases r <;> decide
  | _ => decide

theorem offset_fits (f : Field) : f.offset + 8 ≤ 288 := by
  have hlt : trapframe.idxOf f < 36 := List.idxOf_lt_length_of_mem (mem_trapframe f)
  rw [Field.offset]
  omega

theorem offset_apart {f g : Field} (h : f ≠ g) : Apart f.offset g.offset := by
  have hne : trapframe.idxOf f ≠ trapframe.idxOf g :=
    fun he => h ((List.idxOf_inj (mem_trapframe f)).mp he)
  simp only [Apart, Field.offset]
  omega

theorem field_writeWord (m : Mem) (tf : Addr) (f g : Field) (v : Word) :
    field (writeWord m (tf + BitVec.ofNat 64 f.offset) v) tf g =
      if g = f then v else field m tf g := by
  by_cases h : g = f
  · subst h
    rw [if_pos rfl]
    exact cell_writeWord ..
  · rw [if_neg h]
    exact cell_writeWord_of_apart (by decide) (offset_fits f) (offset_fits g)
      (offset_apart (Ne.symm h))

/-- The page table of `satp` sends the frame's bytes, seen from `va` on, to `tf`. -/
def Maps (satp : Word) (va tf : Addr) : Prop :=
  ∀ i, i < 288 → k.translate satp (va + BitVec.ofNat 64 i) = tf + BitVec.ofNat 64 i

variable {k}

theorem Maps.tfAddress {m : Machine} {p : Proc} (h : Maps k (m.hart.csr .satp) p.tf p.tf)
    (f : Field) : tfAddress k m p f = p.tf + BitVec.ofNat 64 f.offset :=
  h f.offset (by have := offset_fits f; omega)

theorem field_storeTf {m : Machine} {p : Proc} (h : Maps k (m.hart.csr .satp) p.tf p.tf)
    (f g : Field) (v : Word) :
    field (storeTf k m p f v).mem p.tf g = if g = f then v else field m.mem p.tf g := by
  rw [storeTf, h.tfAddress]
  exact field_writeWord ..

/-- No byte belongs to both frames. -/
def Separate (tf tf' : Addr) : Prop :=
  ∀ i j, i < 288 → j < 288 → tf + BitVec.ofNat 64 i ≠ tf' + BitVec.ofNat 64 j

theorem field_storeTf_of_separate {m : Machine} {p : Proc} {tf : Addr}
    (h : Maps k (m.hart.csr .satp) p.tf p.tf) (hsep : Separate tf p.tf) (f g : Field) (v : Word) :
    field (storeTf k m p f v).mem tf g = field m.mem tf g := by
  rw [storeTf, h.tfAddress]
  refine cell_congr (offset_fits g) fun i hi => if_neg fun hlt => ?_
  have hfit := offset_fits f
  refine hsep i (f.offset + (tf + BitVec.ofNat 64 i - (p.tf + BitVec.ofNat 64 f.offset)).toNat)
    hi (by omega) ?_
  bv_omega

theorem loadTf_eq {m : Machine} {p : Proc} (h : Maps k (m.hart.csr .satp) p.tf p.tf) (f : Field) :
    loadTf k m p f = field m.mem p.tf f := by
  rw [loadTf, h.tfAddress]
  rfl

variable {lookup hartid : Word}

/-- What `return_2_user` leaves in the frame and the registers, with the frame directly mapped:
the old `kernel_satp` is still there. -/
theorem field_return2User {m : Machine} {p : Proc} (hp : k.cpus lookup = p)
    (h : Maps k (m.hart.csr .satp) p.tf p.tf) (f : Field) :
    field (return2User k lookup hartid m).mem p.tf f =
      if f = .kernelHartid then hartid
      else if f = .kernelTrap then k.userTrap
      else if f = .kernelSp then p.kstack + 4096
      else field m.mem p.tf f := by
  subst hp
  change field (storeTf k _ _ _ _).mem _ f = _
  rw [field_storeTf]
  · change (if f = _ then _ else field (storeTf k _ _ _ _).mem _ f) = _
    rw [field_storeTf, field_storeTf, field_storeTf]
    · by_cases ht : f = .kernelTrap
      · simp [ht]
      · simp [ht, writeCsr, readTp]
    all_goals exact h
  · exact h

theorem return2User_hart {m : Machine} {p : Proc} (hp : k.cpus lookup = p)
    (h : Maps k (m.hart.csr .satp) p.tf p.tf) :
    (return2User k lookup hartid m).hart.gpr .a0 = page p ∧
      (return2User k lookup hartid m).hart.csr .sepc = field m.mem p.tf .epc ∧
      (return2User k lookup hartid m).hart.csr .stvec = userHandler k := by
  subst hp
  refine ⟨rfl, ?_, rfl⟩
  change loadTf k (storeTf k (readTp (storeTf k _ _ _ _) _) _ _ _) _ _ = _
  rw [loadTf_eq, field_storeTf]
  · change field (storeTf k _ _ _ _).mem _ _ = _
    rw [field_storeTf, field_storeTf, field_storeTf]
    · rfl
    all_goals exact h
  all_goals exact h

theorem field_userTrap {m : Machine} {p : Proc} (hp : k.cpus lookup = p)
    (h : Maps k (m.hart.csr .satp) p.tf p.tf) (f : Field) :
    field (userTrap k lookup m).mem p.tf f =
      if f = .epc then m.hart.csr .sepc else field m.mem p.tf f := by
  subst hp
  exact field_storeTf (m := readTp (writeCsr m .stvec k.ktraph) lookup) h .epc f _

theorem field_userTrap_of_separate {m : Machine} {p : Proc} {tf : Addr} (hp : k.cpus lookup = p)
    (h : Maps k (m.hart.csr .satp) p.tf p.tf) (hsep : Separate tf p.tf) (f : Field) :
    field (userTrap k lookup m).mem tf f = field m.mem tf f := by
  subst hp
  exact field_storeTf_of_separate (m := readTp (writeCsr m .stvec k.ktraph) lookup) h hsep .epc f _

/-- The registers between the trapframe's cells and back; `a0` has the frame's address. -/
def slots : Slots :=
  [(.ra, 40), (.sp, 48), (.gp, 56), (.tp, 64), (.t0, 72), (.t1, 80), (.t2, 88), (.s0, 96),
    (.s1, 104), (.a1, 120), (.a2, 128), (.a3, 136), (.a4, 144), (.a5, 152), (.a6, 160), (.a7, 168),
    (.s2, 176), (.s3, 184), (.s4, 192), (.s5, 200), (.s6, 208), (.s7, 216), (.s8, 224), (.s9, 232),
    (.s10, 240), (.s11, 248), (.t3, 256), (.t4, 264), (.t5, 272), (.t6, 280)]

theorem offset_a0 : (Field.reg .a0).offset = 112 := by decide

theorem slots_fit : ∀ x ∈ slots, x.2 + 8 ≤ 288 := by decide

theorem slots_apart : slots.Pairwise fun x y => Apart x.2 y.2 := by decide

theorem slots_distinct : slots.Pairwise fun x y => x.1 ≠ y.1 := by decide

theorem slots_ne_a0 : ∀ x ∈ slots, x.1 ≠ .a0 := by decide

theorem mem_slots {r : Reg} (h : r ≠ .a0) : (r, (Field.reg r).offset) ∈ slots := by
  cases r
  case a0 => exact absurd rfl h
  all_goals decide

/-- What `uservec` loads for the kernel. -/
def kernelSlots : Slots := [(.sp, 8), (.tp, 32), (.t0, 16), (.t1, 0)]

theorem uservec_eq : uservec =
    ([.csrw .sscratch .a0, .li .a0 trapframeVa] : List Instr) ++ saves slots .a0 ++
      ([.csrr .t0 .sscratch, .sd .t0 112 .a0] : List Instr) ++ loads kernelSlots .a0 ++
      ([.sfenceVma, .csrw .satp .t1, .sfenceVma, .jr .t0] : List Instr) := rfl

theorem userret_eq : userret =
    ([.sfenceVma, .csrw .satp .a0, .sfenceVma, .li .a0 trapframeVa] : List Instr) ++
      loads slots .a0 ++ ([.ld .a0 112 .a0, .sret] : List Instr) := rfl

theorem slots_address {m : Machine} {tf : Addr} (hbase : m.hart.gpr .a0 = trapframeVa)
    (h : Maps k (m.hart.csr .satp) trapframeVa tf) :
    ∀ x ∈ slots, m.address k.translate .a0 x.2 = tf + BitVec.ofNat 64 x.2 := by
  intro x hx
  have hfit := slots_fit x hx
  rw [Machine.address, hbase]
  exact h x.2 (by omega)

theorem execAll_userret {m : Machine} {tf : Addr}
    (h : Maps k (m.hart.gpr .a0) trapframeVa tf) :
    (∀ r, (execAll k.translate m userret).hart.gpr r = field m.mem tf (.reg r)) ∧
      (execAll k.translate m userret).hart.pc = m.hart.csr .sepc ∧
      (execAll k.translate m userret).hart.csr = Function.update m.hart.csr .satp (m.hart.gpr .a0) ∧
      (execAll k.translate m userret).mem = m.mem := by
  let m₁ := execAll k.translate m [.sfenceVma, .csrw .satp .a0, .sfenceVma, .li .a0 trapframeVa]
  have hbase : m₁.hart.gpr .a0 = trapframeVa := rfl
  obtain ⟨hmem, hcsr, hslots, hother⟩ :=
    execAll_loads (slots_address hbase h) slots_ne_a0 slots_distinct
  have heq : execAll k.translate m userret =
      execAll k.translate (execAll k.translate m₁ (loads slots .a0)) [.ld .a0 112 .a0, .sret] := by
    rw [userret_eq, execAll_append, execAll_append]
  generalize execAll k.translate m₁ (loads slots .a0) = m₂ at heq hmem hcsr hslots hother
  have hcsr₁ : m₁.hart.csr = Function.update m.hart.csr .satp (m.hart.gpr .a0) := rfl
  have ha0 : m₂.address k.translate .a0 112 = tf + BitVec.ofNat 64 112 := by
    rw [Machine.address, hcsr, hother .a0 slots_ne_a0, hbase]
    exact h 112 (by decide)
  rw [heq]
  refine ⟨fun r => ?_, ?_, ?_, ?_⟩
  · by_cases hr : r = .a0
    · subst hr
      change Function.update m₂.hart.gpr .a0 (readWord m₂.mem (m₂.address k.translate .a0 112)) .a0
        = _
      rw [Function.update_self, ha0, hmem, ← offset_a0]
      rfl
    · change Function.update m₂.hart.gpr .a0 _ r = _
      rw [Function.update_of_ne hr]
      exact hslots (r, _) (mem_slots hr)
  · change m₂.hart.csr .sepc = _
    rw [hcsr, hcsr₁, Function.update_of_ne (by decide)]
  · change m₂.hart.csr = _
    rw [hcsr, hcsr₁]
  · exact hmem

theorem execAll_save {m : Machine} {tf : Addr} (h : Maps k (m.hart.csr .satp) trapframeVa tf) :
    ∃ m', execAll k.translate m uservec =
        execAll k.translate m'
          (loads kernelSlots .a0 ++
            ([.sfenceVma, .csrw .satp .t1, .sfenceVma, .jr .t0] : List Instr)) ∧
      m'.hart.gpr .a0 = trapframeVa ∧
      (∀ c, c ≠ .sscratch → m'.hart.csr c = m.hart.csr c) ∧
      ∀ f, field m'.mem tf f =
        match f with
        | .reg r => m.hart.gpr r
        | f => field m.mem tf f := by
  let m₁ := execAll k.translate m [.csrw .sscratch .a0, .li .a0 trapframeVa]
  have hbase : m₁.hart.gpr .a0 = trapframeVa := rfl
  obtain ⟨hhart, hslots, hother⟩ :=
    execAll_saves (by decide : 288 < 2 ^ 64) slots_fit (slots_address hbase h) slots_apart
  have heq : execAll k.translate m uservec =
      execAll k.translate (execAll k.translate (execAll k.translate m₁ (saves slots .a0))
        [.csrr .t0 .sscratch, .sd .t0 112 .a0])
        (loads kernelSlots .a0 ++
          ([.sfenceVma, .csrw .satp .t1, .sfenceVma, .jr .t0] : List Instr)) := by
    rw [uservec_eq, execAll_append, execAll_append, execAll_append, execAll_append,
      ← execAll_append _ (loads _ _)]
  generalize execAll k.translate m₁ (saves slots .a0) = m₂ at heq hhart hslots hother
  have ha0 : m₂.address k.translate .a0 112 = tf + BitVec.ofNat 64 (Field.reg .a0).offset := by
    rw [Machine.address, hhart, hbase, offset_a0]
    exact h 112 (by decide)
  refine ⟨execAll k.translate m₂ [.csrr .t0 .sscratch, .sd .t0 112 .a0], heq, ?_, ?_, ?_⟩
  · change Function.update m₂.hart.gpr .t0 (m₂.hart.csr .sscratch) .a0 = _
    rw [Function.update_of_ne (by decide), hhart, hbase]
  · intro c hc
    change m₂.hart.csr c = _
    rw [hhart]
    exact Function.update_of_ne hc _ _
  · intro f
    have hmem : (execAll k.translate m₂ [.csrr .t0 .sscratch, .sd .t0 112 .a0]).mem =
        writeWord m₂.mem (m₂.address k.translate .a0 112) (m₂.hart.csr .sscratch) := by
      simp [exec, Machine.address, Hart.setGpr]
    rw [hmem, ha0, field_writeWord, hhart]
    by_cases hf : f = .reg .a0
    · subst hf
      rfl
    · rw [if_neg hf]
      cases f with
      | reg r =>
        have hr : r ≠ .a0 := fun he => hf (congrArg Field.reg he)
        refine (hslots (r, _) (mem_slots hr)).trans ?_
        exact Function.update_of_ne hr _ _
      | _ => exact hother _ (offset_fits _) (by decide)

/-- `uservec` saves the user's registers and goes on with what the frame says of the kernel. -/
theorem execAll_uservec {m : Machine} {tf : Addr} (h : Maps k (m.hart.csr .satp) trapframeVa tf) :
    (∀ f, field (execAll k.translate m uservec).mem tf f =
      match f with
      | .reg r => m.hart.gpr r
      | f => field m.mem tf f) ∧
      (execAll k.translate m uservec).hart.gpr .sp = field m.mem tf .kernelSp ∧
      (execAll k.translate m uservec).hart.gpr .tp = field m.mem tf .kernelHartid ∧
      (execAll k.translate m uservec).hart.pc = field m.mem tf .kernelTrap ∧
      (execAll k.translate m uservec).hart.csr .satp = field m.mem tf .kernelSatp ∧
      (execAll k.translate m uservec).hart.csr .sepc = m.hart.csr .sepc := by
  obtain ⟨m', heq, hbase, hcsr, hfield⟩ := execAll_save h
  have hmap : ∀ x ∈ kernelSlots, m'.address k.translate .a0 x.2 = tf + BitVec.ofNat 64 x.2 := by
    intro x hx
    rw [Machine.address, hbase, hcsr _ (by decide)]
    have hfit : ∀ y ∈ kernelSlots, y.2 < 288 := by decide
    exact h x.2 (hfit x hx)
  obtain ⟨hmem, hcsr', hslots, -⟩ := execAll_loads hmap (by decide) (by decide)
  let m₂ := execAll k.translate m' (loads kernelSlots .a0)
  have hlast : execAll k.translate m uservec =
      execAll k.translate m₂ [.sfenceVma, .csrw .satp .t1, .sfenceVma, .jr .t0] := by
    rw [heq, execAll_append]
  rw [hlast]
  refine ⟨fun f => ?_, ?_, ?_, ?_, ?_, ?_⟩
  · change field m₂.mem tf f = _
    rw [hmem, hfield]
  · exact (hslots (.sp, 8) (by decide)).trans (hfield .kernelSp)
  · exact (hslots (.tp, 32) (by decide)).trans (hfield .kernelHartid)
  · exact (hslots (.t0, 16) (by decide)).trans (hfield .kernelTrap)
  · exact (hslots (.t1, 0) (by decide)).trans (hfield .kernelSatp)
  · change m₂.hart.csr .sepc = _
    rw [hcsr']
    exact hcsr _ (by decide)

end Raynix.Trampoline
