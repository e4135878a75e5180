import Raynix.RootInstall

namespace Raynix.Start

open Raynix.Lib.Memory Raynix.Lib.Riscv Raynix.RootInstall Raynix.Trampoline

/-- The linked addresses that `start.c` names. -/
structure Image where
  main : Addr
  ttraph : Addr
  timerScratch : Addr

def mieMtie : Word := 1#64 <<< 7

def clint : Addr := 0x2000000

def clintMtime : Addr := clint + 0xBFF8

def clintMtimecmp (hartid : BitVec 32) : Addr := clint + 0x4000 + (8 * hartid).signExtend 64

def store (m : Machine) (a : Addr) (v : Word) : Machine := { m with mem := writeWord m.mem a v }

variable (im : Image)

/-- `&timer_scratch[i]`, in an array of rows of five `uint64`. -/
def scratchRow (i : Word) : Addr := im.timerScratch + 40 * i

def delay : BitVec 32 := 1000000

/-- `timer_inter_init`. Paging is off, so that addresses are physical. -/
def timerInterInit (m : Machine) : Machine :=
  let coreId := (m.hart.csr .mhartid).setWidth 32
  let mtimeSinceBoot := readWord m.mem clintMtime
  let m := store m (clintMtimecmp coreId) (mtimeSinceBoot + delay.signExtend 64)
  let row := scratchRow im (coreId.signExtend 64)
  let m := store m (row + 24) (clintMtimecmp coreId)
  let m := store m (row + 32) (delay.signExtend 64)
  let m := writeCsr m .mscratch row
  let m := writeCsr m .mtvec im.ttraph
  -- The value comes from `read_mie`, not from `read_mstatus`.
  let m := writeCsr m .mstatus (m.hart.csr .mie ||| 1#64 <<< 3)
  writeCsr m .mie (m.hart.csr .mie ||| mieMtie)

def start (m : Machine) : Machine :=
  let mstatus := m.hart.csr .mstatus
  let mstatus := mstatus &&& ~~~(3#64 <<< 11)
  let mstatus := mstatus ||| 1#64 <<< 11
  let m := writeCsr m .mstatus mstatus
  let m := writeCsr m .mepc im.main
  let m := writeSatp m 0
  let m := timerInterInit im m
  { m with hart := m.hart.setGpr .tp (m.hart.csr .mhartid) }

/-- `m'` comes to `mret` with the machine `m` handed over: `mret` goes to supervisor mode, the
timer interrupt is on, and its handler finds the row of this hart. -/
structure HandedOver (m m' : Machine) : Prop where
  mpp : (m'.hart.csr .mstatus).getLsbD 12 = false ∧ (m'.hart.csr .mstatus).getLsbD 11 = true
  mie : (m'.hart.csr .mstatus).getLsbD 3 = true
  others : ∀ i, i ≠ 3 → i ≠ 11 → i ≠ 12 →
    (m'.hart.csr .mstatus).getLsbD i = (m.hart.csr .mstatus).getLsbD i
  mtie : m'.hart.csr .mie = m.hart.csr .mie ||| mieMtie
  hasRow : (m.hart.csr .mhartid).toNat < 8
  row : m'.hart.csr .mscratch = scratchRow im (m.hart.csr .mhartid)
  comparator : readWord m'.mem (m'.hart.csr .mscratch + 24) =
    clint + 0x4000 + 8 * m.hart.csr .mhartid
  interval : readWord m'.mem (m'.hart.csr .mscratch + 32) = delay.signExtend 64

/-- What `mie` holds is what `mstatus` is to hold, with the supervisor as the previous mode. -/
def MieFits (m : Machine) : Prop :=
  ∀ i, i ≠ 3 → (m.hart.csr .mie).getLsbD i =
    if i = 11 then true else if i = 12 then false else (m.hart.csr .mstatus).getLsbD i

variable {im}

theorem start_mstatus (m : Machine) :
    (start im m).hart.csr .mstatus = m.hart.csr .mie ||| 1#64 <<< 3 := rfl

theorem start_mie (m : Machine) : (start im m).hart.csr .mie = m.hart.csr .mie ||| mieMtie := rfl

theorem getLsbD_start_mstatus (m : Machine) {i : Nat} (hi : i ≠ 3) :
    ((start im m).hart.csr .mstatus).getLsbD i = (m.hart.csr .mie).getLsbD i := by
  have hmask : 1#64 <<< 3 = BitVec.twoPow 64 3 := by decide
  rw [start_mstatus, BitVec.getLsbD_or, hmask, BitVec.getLsbD_twoPow,
    decide_eq_false (Ne.symm hi), Bool.and_false, Bool.or_false]

/-- A hart id survives the `int` it is kept in. -/
theorem coreId_eq {w : Word} (h : w.toNat < 2 ^ 31) : (w.setWidth 32).signExtend 64 = w := by
  have hmsb : (w.setWidth 32).msb = false := by
    rw [BitVec.msb_eq_false_iff_two_mul_lt, BitVec.toNat_setWidth]
    omega
  rw [BitVec.signExtend_eq_setWidth_of_msb_false hmsb]
  bv_omega

theorem clintMtimecmp_eq {w : Word} (h : w.toNat < 2 ^ 28) :
    clintMtimecmp (w.setWidth 32) = clint + 0x4000 + 8 * w := by
  have hmul : 8 * w.setWidth 32 = (8 * w).setWidth 32 := by bv_omega
  rw [clintMtimecmp, hmul, coreId_eq]
  bv_omega

theorem timerInterInit_mem {m : Machine} {id : Word} (hid : m.hart.csr .mhartid = id)
    (hlt : id.toNat < 2 ^ 28) : (timerInterInit im m).mem =
      writeWord (writeWord (writeWord m.mem (clint + 0x4000 + 8 * id)
        (readWord m.mem clintMtime + delay.signExtend 64))
        (scratchRow im id + 24) (clint + 0x4000 + 8 * id))
        (scratchRow im id + 32) (delay.signExtend 64) := by
  have hcore : (m.hart.csr .mhartid).setWidth 32 = id.setWidth 32 := by rw [hid]
  simp only [timerInterInit, store, writeCsr, hcore, clintMtimecmp_eq hlt,
    coreId_eq (w := id) (by omega)]

theorem timerInterInit_row {m : Machine} {id : Word} (hid : m.hart.csr .mhartid = id)
    (hlt : id.toNat < 2 ^ 28) :
    (timerInterInit im m).hart.csr .mscratch = scratchRow im id ∧
      readWord (timerInterInit im m).mem (scratchRow im id + 24) = clint + 0x4000 + 8 * id ∧
      readWord (timerInterInit im m).mem (scratchRow im id + 32) = delay.signExtend 64 := by
  have hcore : (m.hart.csr .mhartid).setWidth 32 = id.setWidth 32 := by rw [hid]
  rw [timerInterInit_mem hid hlt]
  refine ⟨?_, ?_, readWord_writeWord _ _ _⟩
  · change scratchRow im (((m.hart.csr .mhartid).setWidth 32).signExtend 64) = _
    rw [hcore, coreId_eq (by omega)]
  · have hapart : Apart 32 24 := by decide
    exact (cell_writeWord_of_apart (by decide : 40 < 2 ^ 64) (by decide) (by decide)
      hapart).trans (readWord_writeWord _ _ _)

/-- The second write of `mstatus` undoes the first. The hand-over is right for the values of `mie`
that happen to fit, on the harts that have a row. -/
theorem handedOver_iff (im : Image) (m : Machine) :
    HandedOver im m (start im m) ↔ (m.hart.csr .mhartid).toNat < 8 ∧ MieFits m := by
  constructor
  · intro h
    refine ⟨h.hasRow, fun i hi => ?_⟩
    rw [← @getLsbD_start_mstatus im m i hi]
    by_cases h11 : i = 11
    · subst h11
      exact h.mpp.2
    · by_cases h12 : i = 12
      · subst h12
        exact h.mpp.1
      · rw [if_neg h11, if_neg h12]
        exact h.others i hi h11 h12
  · rintro ⟨hlt, hfits⟩
    obtain ⟨hscratch, hcmp, hinterval⟩ := @timerInterInit_row im m _ rfl (by omega)
    have hrow : (start im m).hart.csr .mscratch = scratchRow im (m.hart.csr .mhartid) := hscratch
    refine ⟨⟨?_, ?_⟩, ?_, ?_, start_mie m, hlt, hrow, ?_, ?_⟩
    · rw [getLsbD_start_mstatus m (by decide), hfits 12 (by decide)]
      rfl
    · rw [getLsbD_start_mstatus m (by decide), hfits 11 (by decide)]
      rfl
    · rw [start_mstatus, BitVec.getLsbD_or]
      exact Bool.or_true _
    · intro i hi h11 h12
      rw [getLsbD_start_mstatus m hi, hfits i hi, if_neg h11, if_neg h12]
    · rw [hrow]
      exact hcmp
    · rw [hrow]
      exact hinterval

def raynixImage : Image := ⟨0x80000400, 0x80001010, 0x8000a000⟩

/-- A hart as it comes out of reset, with id 0. -/
def reset : Machine := ⟨{ gpr := fun _ => 0, csr := fun _ => 0, pc := 0x80000000 }, fun _ => 0⟩

/-- `mret` finds mode 0, the user's. -/
theorem reset_notHandedOver : ¬ HandedOver raynixImage reset (start raynixImage reset) := by
  intro h
  exact absurd h.mpp.2 (by decide)

end Raynix.Start
