import Raynix.Kalloc
import Raynix.Tools

namespace Raynix.Vm

open Raynix.Lib.Memory Raynix.Lib.ByteMove Raynix.Kalloc Raynix.Tools

def pteV : Word := 1 <<< 0
def pteR : Word := 1 <<< 1
def pteW : Word := 1 <<< 2
def pteX : Word := 1 <<< 3
def pteU : Word := 1 <<< 4

/-- One round of the loop of `walk`: the table under the entry of `va`, made if it is missing. -/
def walkLevel (s : Phys) (pagetable va : Addr) (i : Nat) : Addr × Phys :=
  let maskIndex : Word := 0x1ff
  let curList := (va >>> (12 + 9 * (2 - i))) &&& maskIndex
  let curPte := pagetable + 8 * curList
  if readWord s.mem curPte &&& pteV ≠ 0 then
    ((readWord s.mem curPte >>> 10) <<< 12, s)
  else
    let (pagetable, s) := kalloc s
    let s := s.setMemory pagetable 0 4096
    (pagetable, s.store curPte ((pagetable >>> 12) <<< 10 ||| pteV))

def walk (s : Phys) (pagetable va : Addr) : Addr × Phys :=
  let maskIndex : Word := 0x1ff
  let (pagetable, s) := walkLevel s pagetable va 0
  let (pagetable, s) := walkLevel s pagetable va 1
  let curList := (va >>> 12) &&& maskIndex
  (pagetable + 8 * curList, s)

def findPa (s : Phys) (pagetable va : Addr) : Addr × Phys :=
  let (pte, s) := walk s pagetable va
  let offsetMask : Word := 0xfff
  ((readWord s.mem pte >>> 10) <<< 12 ||| (va &&& offsetMask), s)

/-- The loop of `map` for the `n` pages still to do. -/
def mapLoop (s : Phys) (pagetable : Addr) (permission : Word) (vaStart pa : Addr) : Nat → Phys
  | 0 => s
  | n + 1 =>
    let (pteCur, s) := walk s pagetable vaStart
    let s := s.store pteCur ((pa >>> 12) <<< 10 ||| permission ||| pteV)
    mapLoop s pagetable permission (vaStart + 4096) (pa + 4096) n

def map (s : Phys) (va pa pagetable : Addr) (size permission : Word) : Phys :=
  mapLoop s pagetable permission (pgRoundDown va) pa size.toNat

def maxVa : Addr := 1 <<< (9 + 9 + 9 + 12 - 1)
def uart0 : Addr := 0x10000000
def virtio0 : Addr := 0x10001000
def plic : Addr := 0x0c000000
def trampolineVa : Addr := maxVa - 4096
def kstack (p : Nat) : Addr := trampolineVa - (BitVec.ofNat 64 p + 1) * 2 * 4096

def fatalPaMap (s : Phys) (kernelPagetable etext trampoline : Addr) : Phys :=
  let s := map s uart0 uart0 kernelPagetable 4096 (pteR ||| pteW)
  let s := map s virtio0 virtio0 kernelPagetable 4096 (pteR ||| pteW)
  let s := map s plic plic kernelPagetable 0x400000 (pteR ||| pteW)
  let s := map s kernbase kernbase kernelPagetable (etext - kernbase) (pteR ||| pteX)
  let s := map s etext etext kernelPagetable (physTop - etext) (pteR ||| pteW)
  map s trampolineVa trampoline kernelPagetable 4096 (pteR ||| pteX)

def initProcKstackLoop (s : Phys) (pgt : Addr) (i : Nat) : Nat → Phys
  | 0 => s
  | n + 1 =>
    let pa := (kalloc s).1
    let s := map (kalloc s).2 (kstack i) pa pgt 4096 (pteR ||| pteW)
    initProcKstackLoop s pgt (i + 1) n

def initProcKstack (s : Phys) (pgt : Addr) : Phys := initProcKstackLoop s pgt 0 64

/-- `kvm_init`, with the root table it leaves in `kernel_pagetable`. -/
def kvmInit (s : Phys) (etext trampoline : Addr) : Addr × Phys :=
  let kernelPagetable := (kalloc s).1
  let s := (kalloc s).2.setMemory kernelPagetable 0 4096
  let s := fatalPaMap s kernelPagetable etext trampoline
  (kernelPagetable, initProcKstack s kernelPagetable)

def emptyVmCreate (s : Phys) : Addr × Phys :=
  let pagetable := (kalloc s).1
  (pagetable, (kalloc s).2.setMemory pagetable 0 4096)

/-- The memory after a copy. `moved` is ghost: where each byte was read and written. -/
structure Copied where
  phys : Phys
  moved : List (Addr × Addr)

def copied (s : Phys) (m : Moving) : Copied := ⟨{ s with mem := m.mem }, m.moved⟩

/-- `copy_in`. The length becomes the `uint` of `memmove`. -/
def copyIn (s : Phys) (pagetable target addr : Addr) (len : Word) : Copied :=
  let (paStar, s) := findPa s pagetable addr
  copied s (memmove s.mem target paStar (len.setWidth 32))

/-- `copy_out`, which passes `source` as the destination of `memmove`. -/
def copyOut (s : Phys) (pagetable target source : Addr) (len : Word) : Copied :=
  let (paStar, s) := findPa s pagetable target
  copied s (memmove s.mem source paStar (len.setWidth 32))

end Raynix.Vm
