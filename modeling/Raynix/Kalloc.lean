import Raynix.Lib.Memory
import Raynix.Lib.Transition

namespace Raynix.Kalloc

open Raynix.Lib.Memory

def kernbase : Addr := 0x80000000

def physTop : Addr := kernbase + 128 * 1024 * 1024

theorem physTop_toNat : physTop.toNat = 0x88000000 := rfl

def pgRoundUp (sz : Addr) : Addr := (sz + 4096 - 1) &&& ~~~(4096 - 1)

def pgRoundDown (a : Addr) : Addr := a &&& ~~~(4096 - 1)

/-- The physical memory and `page_list_keeper` without its lock. `filled` and `handed` are ghost:
the ranges given to `set_memory` and the answers of `kalloc`, latest first. -/
structure Phys where
  mem : Mem
  pageLink : Addr
  filled : List (Addr × Nat)
  handed : List Addr

def Phys.setMemory (s : Phys) (start : Addr) (value : Byte) (length : Nat) : Phys :=
  { s with mem := fill s.mem start value length, filled := (start, length) :: s.filled }

theorem setMemory_mem (s : Phys) (start : Addr) (value : Byte) (length : Nat) :
    (s.setMemory start value length).mem = fill s.mem start value length := rfl

def Phys.store (s : Phys) (a : Addr) (w : Word) : Phys := { s with mem := writeWord s.mem a w }

def freePage (s : Phys) (pa : Addr) : Phys :=
  let paStart := pgRoundUp pa
  let s := s.setMemory paStart 1 4096
  { s.store pa s.pageLink with pageLink := pa }

/-- `kalloc` also fills when the list is empty, at address 0. -/
def kalloc (s : Phys) : Addr × Phys :=
  let fp := s.pageLink
  let s := if fp ≠ 0 then { s with pageLink := readWord s.mem fp } else s
  let s := s.setMemory fp 5 4096
  (fp, { s with handed := fp :: s.handed })

def kallocInitLoop (s : Phys) (pa : Addr) : Phys :=
  if pa ≤ physTop then kallocInitLoop (freePage s pa) (pa + 4096) else s
termination_by physTop.toNat + 1 - pa.toNat
decreasing_by
  have hpa : pa.toNat ≤ physTop.toNat := by assumption
  rw [physTop_toNat] at hpa ⊢
  bv_omega

def kallocInit (s : Phys) : Phys := kallocInitLoop s kernbase

/-- The allocator and its clients on one hart; `held` are the frames given out and not freed. -/
structure Keeper where
  phys : Phys
  held : List Addr

inductive PageOp
  | kalloc
  | freePage (pa : Addr)
  | write (a : Addr) (v : Byte)

/-- A client frees, or writes to, an address inside a frame it holds. -/
def step (s : Keeper) : PageOp → Option Keeper
  | .kalloc =>
    let (fp, phys) := kalloc s.phys
    some ⟨phys, if fp = 0 then s.held else fp :: s.held⟩
  | .freePage pa =>
    if pgRoundDown pa ∈ s.held then
      some ⟨freePage s.phys pa, s.held.erase (pgRoundDown pa)⟩
    else none
  | .write a v =>
    if pgRoundDown a ∈ s.held then
      some { s with phys := { s.phys with mem := Function.update s.phys.mem a v } }
    else none

/-- The allocator before `kalloc_init`: no page listed, none given out. -/
def boot (mem : Mem) : Phys := ⟨mem, 0, [], []⟩

def booted (mem : Mem) : Keeper := ⟨kallocInit (boot mem), []⟩

end Raynix.Kalloc
