import Raynix.InterruptNesting
import Raynix.TrapRoundTrip

namespace Raynix.ReturnStatus

open Raynix.InterruptNesting Raynix.Lib.Memory Raynix.Lib.Riscv Raynix.Lib.Transition
  Raynix.Spinlock Raynix.Trampoline Raynix.Vm

variable (k : Kernel) (lookup hartid : Word)

/-- The statements of `return_2_user` from its first write of `sstatus` to the call of `userret`. -/
def statements (myproc : Proc) : List (Machine → Machine) :=
  [fun m => writeCsr m .sstatus (m.hart.csr .sstatus ||| ~~~sstatusSie),
    fun m => writeCsr m .stvec (userHandler k),
    fun m => storeTf k m myproc .kernelTrap (m.hart.csr .satp),
    fun m => storeTf k m myproc .kernelSp (myproc.kstack + 4096),
    fun m => storeTf k m myproc .kernelTrap k.userTrap,
    fun m => storeTf k (readTp m hartid) myproc .kernelHartid hartid,
    fun m => writeCsr m .sepc (loadTf k m myproc .epc),
    fun m => writeCsr m .sstatus (m.hart.csr .sstatus &&& ~~~(3#64 <<< 11) ||| sstatusSpie),
    fun m =>
      { m with hart :=
          { m.hart.setGpr .a0 (page myproc) with
            pc := trampolineVa + (k.userret - k.trampoline) } }]

def apply (m : Machine) (f : Machine → Machine) : Machine := f m

theorem return2User_eq (m : Machine) : return2User k lookup hartid m =
    (statements k hartid (k.cpus lookup)).foldl apply (readTp m lookup) := rfl

/-- The states from the first write of `sstatus` in `return_2_user` to `sret`. -/
def path (m : Machine) : List Machine :=
  ((statements k hartid (k.cpus lookup)).scanl apply (readTp m lookup)).tail ++
    trail k.translate (return2User k lookup hartid m) userret.dropLast

def beforeSret (m : Machine) : Machine :=
  execAll k.translate (return2User k lookup hartid m) userret.dropLast

/-- Bits 1, 8 and 5 are `SIE`, `SPP` and `SPIE`: the hart enters user mode with interrupts on, and
none could come before. -/
structure ReturnsToUser (m : Machine) : Prop where
  sie : ∀ n ∈ path k lookup hartid m, (n.hart.csr .sstatus).getLsbD 1 = false
  spp : ((beforeSret k lookup hartid m).hart.csr .sstatus).getLsbD 8 = false
  spie : ((beforeSret k lookup hartid m).hart.csr .sstatus).getLsbD 5 = true
  others : ∀ i, i ≠ 1 → i ≠ 8 → i ≠ 5 →
    ((beforeSret k lookup hartid m).hart.csr .sstatus).getLsbD i = (m.hart.csr .sstatus).getLsbD i

variable {k lookup hartid}

theorem dropLast_written : ∀ i ∈ userret.dropLast, i.written ≠ some .sstatus := by decide

theorem beforeSret_sstatus (m : Machine) : (beforeSret k lookup hartid m).hart.csr .sstatus =
    (m.hart.csr .sstatus ||| ~~~sstatusSie) &&& ~~~(3#64 <<< 11) ||| sstatusSpie := by
  rw [beforeSret, execAll_csr dropLast_written]
  rfl

theorem getLsbD_sstatusSpie (i : Nat) : sstatusSpie.getLsbD i = decide (i = 5) := by
  have h : sstatusSpie = BitVec.twoPow 64 5 := by decide
  rw [h, BitVec.getLsbD_twoPow, show decide (5 < 64) = true from rfl, Bool.true_and]
  exact decide_eq_decide.mpr eq_comm

theorem getLsbD_threeMask (i : Nat) : (3#64 <<< 11).getLsbD i = decide (i = 11 ∨ i = 12) := by
  have h : 3#64 <<< 11 = BitVec.twoPow 64 11 ||| BitVec.twoPow 64 12 := by decide
  rw [h, BitVec.getLsbD_or, BitVec.getLsbD_twoPow, BitVec.getLsbD_twoPow, Bool.decide_or]
  simp [eq_comm]

theorem firstWrite_bit (w : Word) {i : Nat} (hi : i < 64) :
    (w ||| ~~~sstatusSie).getLsbD i = (w.getLsbD i || decide (i ≠ 1)) := by
  rw [BitVec.getLsbD_or, BitVec.getLsbD_not, getLsbD_sstatusSie, decide_eq_true hi, Bool.true_and,
    decide_not]

theorem secondWrite_bit (w : Word) {i : Nat} (hi : i < 64) :
    (w &&& ~~~(3#64 <<< 11) ||| sstatusSpie).getLsbD i =
      (w.getLsbD i && decide (¬ (i = 11 ∨ i = 12)) || decide (i = 5)) := by
  rw [BitVec.getLsbD_or, BitVec.getLsbD_and, BitVec.getLsbD_not, getLsbD_sstatusSpie,
    getLsbD_threeMask, decide_eq_true hi, Bool.true_and, decide_not]

/-- `sret` finds all bits set but 1, 11 and 12, and of these only bit 1 as it was. -/
theorem beforeSret_bit (k : Kernel) (lookup hartid : Word) (m : Machine) {i : Nat} (hi : i < 64) :
    ((beforeSret k lookup hartid m).hart.csr .sstatus).getLsbD i =
      if i = 1 then (m.hart.csr .sstatus).getLsbD 1 else decide (¬ (i = 11 ∨ i = 12)) := by
  rw [beforeSret_sstatus, secondWrite_bit _ hi, firstWrite_bit _ hi]
  by_cases h : i = 1
  · subst h
    simp
  · by_cases h5 : i = 5
    · subst h5
      simp
    · simp [h, h5]

theorem apply_sie (p : Proc) (n : Machine) : ∀ f ∈ statements k hartid p,
    ((apply n f).hart.csr .sstatus).getLsbD 1 = (n.hart.csr .sstatus).getLsbD 1 := by
  have hfirst : (n.hart.csr .sstatus ||| ~~~sstatusSie).getLsbD 1 =
      (n.hart.csr .sstatus).getLsbD 1 := by
    rw [firstWrite_bit _ (by decide)]
    exact Bool.or_false _
  have hsecond : (n.hart.csr .sstatus &&& ~~~(3#64 <<< 11) ||| sstatusSpie).getLsbD 1 =
      (n.hart.csr .sstatus).getLsbD 1 := by
    rw [secondWrite_bit _ (by decide)]
    exact (Bool.or_false _).trans (Bool.and_true _)
  simp only [statements, List.forall_mem_cons]
  exact ⟨hfirst, rfl, rfl, rfl, rfl, rfl, rfl, hsecond, rfl, List.forall_mem_nil _⟩

theorem path_sie (m : Machine) :
    ∀ n ∈ path k lookup hartid m,
      (n.hart.csr .sstatus).getLsbD 1 = (m.hart.csr .sstatus).getLsbD 1 := by
  intro n hn
  obtain hn | hn := List.mem_append.mp hn
  · exact forall_mem_scanl (P := fun n => (n.hart.csr .sstatus).getLsbD 1 =
      (m.hart.csr .sstatus).getLsbD 1) rfl (fun t f hf ht => (apply_sie _ t f hf).trans ht) n
      (List.mem_of_mem_tail hn)
  · have hreturn : ((return2User k lookup hartid m).hart.csr .sstatus).getLsbD 1 =
        (m.hart.csr .sstatus).getLsbD 1 := by
      have hsret := beforeSret_bit k lookup hartid m (i := 1) (by decide)
      rw [beforeSret, execAll_csr dropLast_written] at hsret
      exact hsret
    refine forall_mem_scanl (P := fun n => (n.hart.csr .sstatus).getLsbD 1 =
      (m.hart.csr .sstatus).getLsbD 1) hreturn (fun t i hi ht => ?_) n hn
    rw [exec_csr (dropLast_written i hi)]
    exact ht

theorem beforeSret_mem (m : Machine) : beforeSret k lookup hartid m ∈ path k lookup hartid m := by
  refine List.mem_append_right _ ?_
  exact List.mem_of_getLast? List.getLast?_scanl

theorem interruptsOff_iff (m : Machine) :
    (∀ n ∈ path k lookup hartid m, (n.hart.csr .sstatus).getLsbD 1 = false) ↔
      (m.hart.csr .sstatus).getLsbD 1 = false := by
  constructor
  · exact fun h => (path_sie m _ (beforeSret_mem m)).symm.trans (h _ (beforeSret_mem m))
  · exact fun h n hn => (path_sie m n hn).trans h

/-- `sret` finds `SPP` set, whatever `sstatus` held before: it stays in supervisor mode. -/
theorem not_returnsToUser (k : Kernel) (lookup hartid : Word) (m : Machine) :
    ¬ ReturnsToUser k lookup hartid m := by
  intro h
  have hset := beforeSret_bit k lookup hartid m (i := 8) (by decide)
  rw [h.spp] at hset
  cases hset

/-- In the kernel with interrupts off, `SPP` clear and no other bit of `sstatus` set. -/
def quiet : Machine := ⟨{ gpr := fun _ => 0, csr := fun _ => 0, pc := 0x80002000 }, fun _ => 0⟩

theorem quiet_staysSupervisor : ¬ ReturnsToUser TrapRoundTrip.oneKernel 0 0 quiet := by
  intro h
  have hset := beforeSret_bit TrapRoundTrip.oneKernel 0 0 quiet (i := 8) (by decide)
  rw [h.spp] at hset
  cases hset

end Raynix.ReturnStatus
