import Mathlib.Tactic.Common
import Raynix.Lib.Memory

namespace Raynix.Lib.Riscv

open Raynix.Lib.Memory

/-- The general registers other than the constant `zero`. -/
inductive Reg
  | ra | sp | gp | tp
  | t0 | t1 | t2 | t3 | t4 | t5 | t6
  | s0 | s1 | s2 | s3 | s4 | s5 | s6 | s7 | s8 | s9 | s10 | s11
  | a0 | a1 | a2 | a3 | a4 | a5 | a6 | a7
  deriving DecidableEq

inductive Csr
  | satp
  | scause
  | sepc
  | sip
  | sscratch
  | sstatus
  | stvec
  | mepc
  | mhartid
  | mie
  | mscratch
  | mstatus
  | mtvec
  deriving DecidableEq

structure Hart where
  gpr : Reg → Word
  csr : Csr → Word
  pc : Addr

structure Machine where
  hart : Hart
  mem : Mem

inductive Instr
  | sd (rs : Reg) (off : Nat) (base : Reg)
  | ld (rd : Reg) (off : Nat) (base : Reg)
  | li (rd : Reg) (imm : Word)
  | addi (rd rs : Reg) (imm : Word)
  | add (rd rs rs' : Reg)
  | csrw (csr : Csr) (rs : Reg)
  | csrr (rd : Reg) (csr : Csr)
  | csrrw (rd : Reg) (csr : Csr) (rs : Reg)
  | sfenceVma
  | jr (rs : Reg)
  | sret
  | mret

def Hart.setGpr (h : Hart) (r : Reg) (v : Word) : Hart :=
  { h with gpr := Function.update h.gpr r v }

def Hart.setCsr (h : Hart) (c : Csr) (v : Word) : Hart :=
  { h with csr := Function.update h.csr c v }

@[simp]
theorem Hart.setGpr_csr (h : Hart) (r : Reg) (v : Word) : (h.setGpr r v).csr = h.csr := rfl

@[simp]
theorem Hart.setGpr_pc (h : Hart) (r : Reg) (v : Word) : (h.setGpr r v).pc = h.pc := rfl

theorem Hart.setGpr_self (h : Hart) (r : Reg) (v : Word) : (h.setGpr r v).gpr r = v :=
  Function.update_self ..

theorem Hart.setGpr_of_ne (h : Hart) {r r' : Reg} (hne : r' ≠ r) (v : Word) :
    (h.setGpr r v).gpr r' = h.gpr r' :=
  Function.update_of_ne hne ..

variable {translate : Word → Addr → Addr}

/-- The physical address of a doubleword under the page table in force. -/
def Machine.address (translate : Word → Addr → Addr) (m : Machine) (base : Reg) (off : Nat) :
    Addr :=
  translate (m.hart.csr .satp) (m.hart.gpr base + BitVec.ofNat 64 off)

/-- One instruction of straight-line code. The program counter is followed through jumps only. -/
def exec (translate : Word → Addr → Addr) (m : Machine) : Instr → Machine
  | .sd rs off base =>
    { m with mem := writeWord m.mem (m.address translate base off) (m.hart.gpr rs) }
  | .ld rd off base =>
    { m with hart := m.hart.setGpr rd (readWord m.mem (m.address translate base off)) }
  | .li rd imm => { m with hart := m.hart.setGpr rd imm }
  | .addi rd rs imm => { m with hart := m.hart.setGpr rd (m.hart.gpr rs + imm) }
  | .add rd rs rs' => { m with hart := m.hart.setGpr rd (m.hart.gpr rs + m.hart.gpr rs') }
  | .csrw csr rs => { m with hart := m.hart.setCsr csr (m.hart.gpr rs) }
  | .csrr rd csr => { m with hart := m.hart.setGpr rd (m.hart.csr csr) }
  | .csrrw rd csr rs =>
    { m with hart := (m.hart.setCsr csr (m.hart.gpr rs)).setGpr rd (m.hart.csr csr) }
  | .sfenceVma => m
  | .jr rs => { m with hart := { m.hart with pc := m.hart.gpr rs } }
  | .sret => { m with hart := { m.hart with pc := m.hart.csr .sepc } }
  | .mret => { m with hart := { m.hart with pc := m.hart.csr .mepc } }

def execAll (translate : Word → Addr → Addr) (m : Machine) (is : List Instr) : Machine :=
  is.foldl (exec translate) m

/-- A trap: the hart keeps the interrupted `pc` in `sepc` and goes on at `stvec`. -/
def Machine.trap (m : Machine) : Machine :=
  { m with hart := { m.hart.setCsr .sepc m.hart.pc with pc := m.hart.csr .stvec } }

@[simp]
theorem execAll_nil (m : Machine) : execAll translate m [] = m := rfl

@[simp]
theorem execAll_cons (m : Machine) (i : Instr) (is : List Instr) :
    execAll translate m (i :: is) = execAll translate (exec translate m i) is := rfl

theorem execAll_append (m : Machine) (is js : List Instr) :
    execAll translate m (is ++ js) = execAll translate (execAll translate m is) js :=
  List.foldl_append

/-- The machine before each instruction and after the last one. -/
def trail (translate : Word → Addr → Addr) (m : Machine) (is : List Instr) : List Machine :=
  is.scanl (exec translate) m

def Hart.machineTrap (h : Hart) : Hart := { h.setCsr .mepc h.pc with pc := h.csr .mtvec }

/-- No translation: machine mode, or the memory as the code addresses it. -/
def bare : Word → Addr → Addr := fun _ a => a

def Csr.machine : Csr → Bool
  | .mepc | .mhartid | .mie | .mscratch | .mstatus | .mtvec => true
  | _ => false

def Instr.stored : Instr → Option (Reg × Nat)
  | .sd _ off base => some (base, off)
  | _ => none

def Instr.target : Instr → Option Reg
  | .ld rd _ _ | .li rd _ | .addi rd _ _ | .add rd _ _ | .csrr rd _ | .csrrw rd _ _ => some rd
  | _ => none

theorem exec_mem {m : Machine} {i : Instr} {b : Addr}
    (h : ∀ x, i.stored = some x → 8 ≤ (b - m.address translate x.1 x.2).toNat) :
    (exec translate m i).mem b = m.mem b := by
  cases i with
  | sd rs off base =>
    exact if_neg (Nat.not_lt.mpr (h (base, off) rfl))
  | _ => rfl

def Instr.written : Instr → Option Csr
  | .csrw csr _ | .csrrw _ csr _ => some csr
  | _ => none

theorem exec_csr {m : Machine} {i : Instr} {c : Csr} (h : i.written ≠ some c) :
    (exec translate m i).hart.csr c = m.hart.csr c := by
  cases i with
  | csrw csr rs => exact Function.update_of_ne (fun he => h (congrArg some he.symm)) _ _
  | csrrw rd csr rs => exact Function.update_of_ne (fun he => h (congrArg some he.symm)) _ _
  | _ => rfl

theorem execAll_csr {m : Machine} {is : List Instr} {c : Csr} (h : ∀ i ∈ is, i.written ≠ some c) :
    (execAll translate m is).hart.csr c = m.hart.csr c := by
  induction is generalizing m with
  | nil => rfl
  | cons i is ih =>
    rw [execAll_cons, ih fun j hj => h j (List.mem_cons_of_mem i hj),
      exec_csr (h i List.mem_cons_self)]

abbrev Slots := List (Reg × Nat)

def saves (slots : Slots) (base : Reg) : List Instr := slots.map fun x => .sd x.1 x.2 base

def loads (slots : Slots) (base : Reg) : List Instr := slots.map fun x => .ld x.1 x.2 base

def cell (m : Mem) (frame : Addr) (off : Nat) : Word := readWord m (frame + BitVec.ofNat 64 off)

/-- Cells eight bytes or more apart. -/
def Apart (off off' : Nat) : Prop := off + 8 ≤ off' ∨ off' + 8 ≤ off

instance (off off' : Nat) : Decidable (Apart off off') := inferInstanceAs (Decidable (_ ∨ _))

theorem cell_congr {m m' : Mem} {frame : Addr} {size off : Nat} (hoff : off + 8 ≤ size)
    (h : ∀ i, i < size → m' (frame + BitVec.ofNat 64 i) = m (frame + BitVec.ofNat 64 i)) :
    cell m' frame off = cell m frame off := by
  apply readWord_congr
  intro b hb
  have hlt : off + (b - (frame + BitVec.ofNat 64 off)).toNat < size := by omega
  have hb' : b = frame + BitVec.ofNat 64 (off + (b - (frame + BitVec.ofNat 64 off)).toNat) := by
    bv_omega
  rw [hb']
  exact h _ hlt

theorem cell_writeWord (m : Mem) (frame : Addr) (off : Nat) (w : Word) :
    cell (writeWord m (frame + BitVec.ofNat 64 off) w) frame off = w := readWord_writeWord _ _ _

theorem cell_writeWord_of_apart {m : Mem} {frame : Addr} {size off off' : Nat} {w : Word}
    (hsize : size < 2 ^ 64) (hoff : off + 8 ≤ size) (hoff' : off' + 8 ≤ size)
    (h : Apart off off') :
    cell (writeWord m (frame + BitVec.ofNat 64 off) w) frame off' = cell m frame off' := by
  apply readWord_congr
  intro b hb
  apply if_neg
  unfold Apart at h
  bv_omega

/-- Saving keeps the registers and the cells away from the slots, and each slot gets its
register. -/
theorem execAll_saves {m : Machine} {slots : Slots} {base : Reg} {frame : Addr} {size : Nat}
    (hsize : size < 2 ^ 64) (hfit : ∀ x ∈ slots, x.2 + 8 ≤ size)
    (hmap : ∀ x ∈ slots, m.address translate base x.2 = frame + BitVec.ofNat 64 x.2)
    (hapart : slots.Pairwise fun x y => Apart x.2 y.2) :
    (execAll translate m (saves slots base)).hart = m.hart ∧
      (∀ x ∈ slots, cell (execAll translate m (saves slots base)).mem frame x.2 = m.hart.gpr x.1) ∧
      ∀ off, off + 8 ≤ size → (∀ x ∈ slots, Apart x.2 off) →
        cell (execAll translate m (saves slots base)).mem frame off = cell m.mem frame off := by
  induction slots generalizing m with
  | nil =>
    refine ⟨rfl, ?_, fun off _ _ => rfl⟩
    intro x hx
    cases hx
  | cons x slots ih =>
    obtain ⟨hx, hrest⟩ := List.pairwise_cons.mp hapart
    have hfit' : ∀ y ∈ slots, y.2 + 8 ≤ size := fun y hy => hfit y (List.mem_cons_of_mem x hy)
    let m' := exec translate m (.sd x.1 x.2 base)
    have hm' : m'.mem = writeWord m.mem (frame + BitVec.ofNat 64 x.2) (m.hart.gpr x.1) := by
      rw [← hmap x List.mem_cons_self]
      rfl
    obtain ⟨hhart, hslots, hoff⟩ := ih (m := m') hfit'
      (fun y hy => hmap y (List.mem_cons_of_mem x hy)) hrest
    refine ⟨hhart, ?_, ?_⟩
    · intro y hy
      obtain rfl | hy := List.mem_cons.mp hy
      · refine (hoff y.2 (hfit y List.mem_cons_self) ?_).trans ?_
        · exact fun z hz => (hx z hz).symm
        · rw [hm']
          exact cell_writeWord ..
      · exact hslots y hy
    · intro off hle haway
      refine (hoff off hle fun y hy => haway y (List.mem_cons_of_mem x hy)).trans ?_
      rw [hm']
      exact cell_writeWord_of_apart hsize (hfit x List.mem_cons_self) hle
        (haway x List.mem_cons_self)

theorem execAll_saves_mem {m : Machine} {slots : Slots} {base : Reg} {b : Addr}
    (h : ∀ x ∈ slots, 8 ≤ (b - m.address translate base x.2).toNat) :
    (execAll translate m (saves slots base)).mem b = m.mem b := by
  induction slots generalizing m with
  | nil => rfl
  | cons x slots ih =>
    have hx := h x List.mem_cons_self
    refine (ih (m := exec translate m (.sd x.1 x.2 base)) ?_).trans ?_
    · exact fun y hy => h y (List.mem_cons_of_mem x hy)
    · refine exec_mem fun y hy => ?_
      cases hy
      exact hx

/-- Loading fills each listed register from its slot and changes nothing else. -/
theorem execAll_loads {m : Machine} {slots : Slots} {base : Reg} {frame : Addr}
    (hmap : ∀ x ∈ slots, m.address translate base x.2 = frame + BitVec.ofNat 64 x.2)
    (hbase : ∀ x ∈ slots, x.1 ≠ base) (hdistinct : slots.Pairwise fun x y => x.1 ≠ y.1) :
    (execAll translate m (loads slots base)).mem = m.mem ∧
      (execAll translate m (loads slots base)).hart.csr = m.hart.csr ∧
      (∀ x ∈ slots,
        (execAll translate m (loads slots base)).hart.gpr x.1 = cell m.mem frame x.2) ∧
      ∀ r, (∀ x ∈ slots, x.1 ≠ r) →
        (execAll translate m (loads slots base)).hart.gpr r = m.hart.gpr r := by
  induction slots generalizing m with
  | nil =>
    refine ⟨rfl, rfl, ?_, fun r _ => rfl⟩
    intro x hx
    cases hx
  | cons x slots ih =>
    obtain ⟨hx, hrest⟩ := List.pairwise_cons.mp hdistinct
    let m' := exec translate m (.ld x.1 x.2 base)
    have hgpr : m'.hart.gpr =
        Function.update m.hart.gpr x.1 (cell m.mem frame x.2) := by
      rw [cell, ← hmap x List.mem_cons_self]
      rfl
    have hmap' : ∀ y ∈ slots, m'.address translate base y.2 = frame + BitVec.ofNat 64 y.2 := by
      intro y hy
      rw [← hmap y (List.mem_cons_of_mem x hy), Machine.address, Machine.address, hgpr,
        Function.update_of_ne (hbase x List.mem_cons_self).symm]
      rfl
    obtain ⟨hmem, hcsr, hslots, hother⟩ := ih (m := m') hmap'
      (fun y hy => hbase y (List.mem_cons_of_mem x hy)) hrest
    refine ⟨hmem, hcsr, ?_, ?_⟩
    · intro y hy
      obtain rfl | hy := List.mem_cons.mp hy
      · refine (hother y.1 fun z hz => (hx z hz).symm).trans ?_
        rw [hgpr, Function.update_self]
      · exact hslots y hy
    · intro r hr
      refine (hother r fun y hy => hr y (List.mem_cons_of_mem x hy)).trans ?_
      rw [hgpr, Function.update_of_ne (hr x List.mem_cons_self).symm]

end Raynix.Lib.Riscv
