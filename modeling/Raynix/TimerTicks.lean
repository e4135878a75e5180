import Mathlib.Data.Fintype.Basic
import Raynix.Lib.Threads
import Raynix.TimerHandler

namespace Raynix.TimerTicks

open Raynix.Lib.Memory Raynix.Lib.Riscv Raynix.Lib.Threads Raynix.Lib.Transition Raynix.Start
  Raynix.TimerHandler

/-- A hart, with what is left of its handler: nothing while it executes other code. -/
structure Core where
  hart : Hart
  todo : List Instr

/-- The code that the timer interrupts goes on, with `hart` and `store` as what it makes of its
registers and of the memory; the timer interrupts; the handler's next instruction is executed. -/
inductive Act
  | program (hart : Hart) (store : Mem → Mem)
  | interrupt
  | execute

variable (im : Image)

def row (h : Nat) : Addr := scratchRow im (BitVec.ofNat 64 h)

def mtimecmp (h : Nat) : Addr := clint + 0x4000 + 8 * BitVec.ofNat 64 h

/-- The row of hart `h` and its comparator. -/
def foot (h : Nat) : Set Addr :=
  {b | (b - row im h).toNat < 40 ∨ (b - mtimecmp h).toNat < 8}

instance (h : Nat) (b : Addr) : Decidable (b ∈ foot im h) := inferInstanceAs (Decidable (_ ∨ _))

variable (n : Nat)

/-- A program does not have the registers of machine mode. -/
def Core.program (c : Core) (x : Hart) : Core :=
  { c with hart := { x with csr := fun r => if r.machine then c.hart.csr r else x.csr r } }

def act (_ : Fin n) : Act → Core × Mem → Option (Core × Mem)
  | .program x store, (c, m) => if c.todo.isEmpty then some (c.program x, store m) else none
  | .interrupt, (c, m) =>
    if c.todo.isEmpty then some (⟨c.hart.machineTrap, ttraph⟩, m) else none
  | .execute, (c, m) =>
    match c.todo with
    | [] => none
    | i :: is => let t := exec bare ⟨c.hart, m⟩ i; some (⟨t.hart, is⟩, t.mem)

/-- All harts that are set up, over the physical memory. -/
abbrev Harts := Lib.Threads.State (Fin n) Core Addr Byte

/-- `timer_inter_init` on hart `h`. -/
def Harts.init (s : Harts n) (h : Fin n) : Harts n :=
  let t := timerInterInit im ⟨(s.own h).hart, s.mem⟩
  ⟨Function.update s.own h { s.own h with hart := t.hart }, t.mem⟩

/-- The comparators of the harts end before `mtime`, their rows are in memory above the devices. -/
structure Placed : Prop where
  comparators : 0x2004000 + 8 * n ≤ 0x200bff8
  scratch : 0x200c000 ≤ im.timerScratch.toNat
  rows : im.timerScratch.toNat + 40 * n ≤ 2 ^ 64

variable {im n}

theorem mem_row_iff (hp : Placed im n) (h : Fin n) {size : Nat} (hsize : size ≤ 40) (b : Addr) :
    (b - row im h).toNat < size ↔ im.timerScratch.toNat + 40 * h ≤ b.toNat ∧
      b.toNat < im.timerScratch.toNat + 40 * h + size := by
  have h1 := hp.rows
  have h2 := h.isLt
  have hrow : (row im h).toNat = im.timerScratch.toNat + 40 * h := by
    have hcomparators := hp.comparators
    rw [row, scratchRow, BitVec.toNat_add, BitVec.toNat_mul, BitVec.toNat_ofNat]
    change (_ + 40 * _ % _) % _ = _
    rw [Nat.mod_eq_of_lt (by omega : (h : Nat) < 2 ^ 64),
      Nat.mod_eq_of_lt (by omega : 40 * (h : Nat) < 2 ^ 64), Nat.mod_eq_of_lt (by omega)]
  bv_omega

theorem mem_mtimecmp_iff (hp : Placed im n) (h : Fin n) (b : Addr) :
    (b - mtimecmp h).toNat < 8 ↔ 0x2004000 + 8 * h ≤ b.toNat ∧
      b.toNat < 0x2004000 + 8 * h + 8 := by
  have h2 := hp.comparators
  have h3 := h.isLt
  have hcmp : (mtimecmp h).toNat = 0x2004000 + 8 * h := by
    rw [mtimecmp, BitVec.toNat_add, BitVec.toNat_mul, BitVec.toNat_ofNat]
    change (0x2004000 + 8 * _ % _) % _ = _
    omega
  bv_omega

theorem away (hp : Placed im n) (h : Fin n) : Away (row im h) (mtimecmp h) := by
  intro b hb
  have h1 := hp.comparators
  have h2 := hp.scratch
  have h3 := h.isLt
  have hrow := mem_row_iff hp h (Nat.le_refl 40) b
  rw [mem_mtimecmp_iff hp h] at hb
  omega

/-- What the handler of hart `h` relies on before its instruction `k`. -/
structure Stand (im : Image) (h k : Nat) (x : Hart) : Prop where
  scratch : k = 0 ∨ 15 ≤ k → x.csr .mscratch = row im h
  base : 1 ≤ k → k ≤ 14 → x.gpr .a0 = row im h
  comparator : 5 ≤ k → k ≤ 8 → x.gpr .a1 = mtimecmp h

structure Inv (im : Image) (h : Nat) (c : Core) (m : Mem) : Prop where
  row : Row m (row im h) (mtimecmp h) (delay.signExtend 64)
  stand : ∃ k, k ≤ 16 ∧ c.todo = ttraph.drop k ∧ Stand im h k c.hart

variable {h k : Nat} {x : Hart} {m m' : Mem} {b : Addr}

variable {i : Instr} {is : List Instr} {c c' : Core} {a : Act}

theorem drop_eq_nil (hk : k ≤ 16) (he : ttraph.drop k = []) : k = 16 := by
  have hlen := List.drop_eq_nil_iff.mp he
  exact Nat.le_antisymm hk hlen

theorem toNat_ofNat (hp : Placed im n) (h : Fin n) : (BitVec.ofNat 64 h).toNat < 2 ^ 28 := by
  have h1 := hp.comparators
  have h2 := h.isLt
  rw [BitVec.toNat_ofNat]
  omega

theorem handled (hp : Placed im n) {h : Fin n} (hinv : Inv im h c m) (hstart : c.todo = []) :
    Ticked c.hart.machineTrap (execAll bare ⟨c.hart.machineTrap, m⟩ ttraph).hart ∧
      readWord (execAll bare ⟨c.hart.machineTrap, m⟩ ttraph).mem (mtimecmp h) =
        readWord m (mtimecmp h) + delay.signExtend 64 := by
  obtain ⟨hrow, k, hk, htodo, hstand⟩ := hinv
  obtain rfl := drop_eq_nil hk (htodo.symm.trans hstart)
  have hscratch : c.hart.machineTrap.csr .mscratch = row im h := hstand.scratch (.inr (by decide))
  rw [← hscratch] at hrow
  exact execAll_ttraph hrow (hscratch ▸ away hp h)

/-- Hart 0 stores a byte and comes to the second instruction of its handler. -/
def before : List (Fin 2 × Act) :=
  [(0, .program reset.hart fun m => Function.update m 0x87000000 1), (0, .interrupt), (0, .execute)]

end Raynix.TimerTicks
