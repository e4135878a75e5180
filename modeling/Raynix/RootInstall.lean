import Raynix.TrapRoundTrip

namespace Raynix.RootInstall

open Raynix.Lib.Memory Raynix.Lib.Riscv Raynix.Trampoline Raynix.TrapRoundTrip

/-- `write_satp` as it is declared: a `uint` argument reaches the register sign-extended. -/
def writeSatp (m : Machine) (satp : BitVec 32) : Machine := writeCsr m .satp (satp.signExtend 64)

/-- `kvm_page_start`, with the conversion of the argument to a `uint`. -/
def kvmPageStart (m : Machine) (kernelPagetable : Addr) : Machine :=
  let sv39Mode : Word := 8#64 <<< 60
  writeSatp m ((kernelPagetable >>> 12 ||| sv39Mode).setWidth 32)

/-- `return_2_user` and `userret`, up to user mode. -/
def returned (k : Kernel) (lookup hartid : Word) (m : Machine) : Machine :=
  execAll k.translate (return2User k lookup hartid m) userret

structure Satp where
  mode : BitVec 4
  asid : BitVec 16
  ppn : BitVec 44
  deriving DecidableEq

def decode (w : Word) : Satp := ⟨w.extractLsb' 60 4, w.extractLsb' 44 16, w.extractLsb' 0 44⟩

/-- `w` turns on Sv39 with the root table at `root`. -/
def Installs (w : Word) (root : Addr) : Prop :=
  (decode w).mode = 8 ∧ (decode w).asid = 0 ∧ (decode w).ppn.toNat = root.toNat / 4096

/-- Whatever the hart and the process, the table at `root` is installed on both ways. -/
structure Installed (root : Addr) : Prop where
  kernel : ∀ m, Installs ((kvmPageStart m root).hart.csr .satp) root
  user : ∀ k lookup hartid m, (k.cpus lookup).pagetable = root →
    Installs ((returned k lookup hartid m).hart.csr .satp) root

theorem returned_satp (k : Kernel) (lookup hartid : Word) (m : Machine) :
    (returned k lookup hartid m).hart.csr .satp = page (k.cpus lookup) := by
  have hcut : userret = [.sfenceVma, .csrw .satp .a0] ++ userret.drop 2 := rfl
  have hrest : ∀ i ∈ userret.drop 2, i.written ≠ some .satp := by decide
  rw [returned, hcut, execAll_append, execAll_csr hrest]
  rfl

theorem toNat_page {p : Proc} (h : p.pagetable.toNat < 2 ^ 56) :
    (page p).toNat = 2 ^ 63 + p.pagetable.toNat / 4096 := by
  have hbit : (p.pagetable >>> 12).getLsbD 63 = false := by
    rw [BitVec.getLsbD_ushiftRight]
    exact BitVec.getLsbD_of_ge _ _ (by decide)
  have hand : 8#64 <<< 60 &&& p.pagetable >>> 12 = 0#64 := by
    have hmask : 8#64 <<< 60 = BitVec.twoPow 64 63 := by decide
    rw [hmask, BitVec.twoPow_and, hbit]
    rfl
  rw [page, ← BitVec.add_eq_or_of_and_eq_zero _ _ hand]
  bv_omega

theorem installs_page {p : Proc} (h : p.pagetable.toNat < 2 ^ 56) :
    Installs (page p) p.pagetable := by
  have hpage := toNat_page h
  refine ⟨?_, ?_, ?_⟩
  · apply BitVec.eq_of_toNat_eq
    rw [decode, BitVec.extractLsb'_toNat, hpage, Nat.shiftRight_eq_div_pow]
    change _ % 2 ^ 4 = 8
    omega
  · apply BitVec.eq_of_toNat_eq
    rw [decode, BitVec.extractLsb'_toNat, hpage, Nat.shiftRight_eq_div_pow]
    change _ % 2 ^ 16 = 0
    omega
  · rw [decode, BitVec.extractLsb'_toNat, hpage, Nat.shiftRight_zero]
    omega

/-- The mode is one bit of the root's address four times over. -/
theorem not_installs_kvmPageStart (m : Machine) (root : Addr) :
    ¬ Installs ((kvmPageStart m root).hart.csr .satp) root := by
  rintro ⟨hmode, -⟩
  have hbit : ∀ i, i < 4 → (decode ((kvmPageStart m root).hart.csr .satp)).mode.getLsbD i =
      ((root >>> 12 ||| 8#64 <<< 60).setWidth 32).msb := by
    intro i hi
    change (((_ : BitVec 32).signExtend 64).extractLsb' 60 4).getLsbD i = _
    rw [BitVec.getLsbD_extractLsb', BitVec.getLsbD_signExtend, decide_eq_true hi, Bool.true_and,
      decide_eq_true (by omega), Bool.true_and, if_neg (by omega)]
  have htop := hbit 3 (by decide)
  have hlow := hbit 0 (by decide)
  rw [hmode] at htop hlow
  exact absurd (hlow.trans htop.symm) (by decide)

def oneMachine : Machine := ⟨oneRound.hart, fun _ => 0⟩

/-- The way back to user mode installs the table of the process. `kvm_page_start` installs none:
the mode is lost when the value becomes a `uint`. -/
theorem installed_byUserret_only {root : Addr} (hroot : root.toNat < 2 ^ 56) :
    ¬ Installed root ∧ ∀ k lookup hartid m, (k.cpus lookup).pagetable = root →
      Installs ((returned k lookup hartid m).hart.csr .satp) root := by
  refine ⟨fun h => not_installs_kvmPageStart oneMachine root (h.kernel oneMachine), ?_⟩
  rintro k lookup hartid m rfl
  rw [returned_satp]
  exact installs_page hroot

theorem installed_byUserret_oneProc : ¬ Installed oneProc.pagetable ∧
    Installs ((returned oneKernel 0 0 oneMachine).hart.csr .satp) oneProc.pagetable := by
  obtain ⟨hnot, huser⟩ := installed_byUserret_only (show oneProc.pagetable.toNat < 2 ^ 56 by decide)
  exact ⟨hnot, huser oneKernel 0 0 oneMachine rfl⟩

/-- `satp` gets 0x87fff, with mode 0. -/
theorem kernelRoot_notInstalled : ¬ Installed 0x87fff000 := by
  intro h
  exact absurd (h.kernel oneMachine).1 (by decide)

end Raynix.RootInstall
