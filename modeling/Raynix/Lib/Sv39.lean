import Raynix.Lib.Memory

namespace Raynix.Lib.Sv39

open Raynix.Lib.Memory

inductive Access
  | fetch
  | load
  | store
  deriving DecidableEq

/-- The privilege an access is made with, and the bits SUM and MXR of `sstatus`. -/
structure Mode where
  user : Bool
  sum : Bool
  mxr : Bool
  deriving DecidableEq

def vpn (va : Addr) (level : Nat) : BitVec 9 := (va >>> (12 + 9 * level)).setWidth 9

/-- Bits 63 to 39 repeat bit 38. -/
def Canonical (va : Addr) : Prop := va = (va.setWidth 39).signExtend 64

instance (va : Addr) : Decidable (Canonical va) := inferInstanceAs (Decidable (_ = _))

/-- The entry is valid: V is set, it is not writable without being readable, and its reserved bits
are zero. -/
def Valid (e : Word) : Prop :=
  e.getLsbD 0 = true ∧ ¬ (e.getLsbD 1 = false ∧ e.getLsbD 2 = true) ∧ e.extractLsb' 54 10 = 0

instance (e : Word) : Decidable (Valid e) := inferInstanceAs (Decidable (_ ∧ _))

def Leaf (e : Word) : Prop := e.getLsbD 1 = true ∨ e.getLsbD 3 = true

instance (e : Word) : Decidable (Leaf e) := inferInstanceAs (Decidable (_ ∨ _))

def frame (e : Word) : Addr := (e.extractLsb' 10 44).setWidth 64 <<< 12

def Allows (mode : Mode) (e : Word) : Access → Prop
  | .fetch => e.getLsbD 3 = true
  | .load => e.getLsbD 1 = true ∨ mode.mxr = true ∧ e.getLsbD 3 = true
  | .store => e.getLsbD 2 = true

instance (mode : Mode) (e : Word) : ∀ access, Decidable (Allows mode e access)
  | .fetch | .store => inferInstanceAs (Decidable (_ = _))
  | .load => inferInstanceAs (Decidable (_ ∨ _))

def Reaches (mode : Mode) (e : Word) (access : Access) : Prop :=
  if mode.user then e.getLsbD 4 = true
  else e.getLsbD 4 = false ∨ mode.sum = true ∧ access ≠ .fetch

instance (mode : Mode) (e : Word) (access : Access) : Decidable (Reaches mode e access) := by
  unfold Reaches
  infer_instance

structure Grants (mode : Mode) (access : Access) (e : Word) : Prop where
  valid : Valid e
  leaf : Leaf e
  allows : Allows mode e access
  reaches : Reaches mode e access

instance (mode : Mode) (access : Access) (e : Word) : Decidable (Grants mode access e) :=
  decidable_of_iff (Valid e ∧ Leaf e ∧ Allows mode e access ∧ Reaches mode e access)
    ⟨fun h => ⟨h.1, h.2.1, h.2.2.1, h.2.2.2⟩, fun h => ⟨h.valid, h.leaf, h.allows, h.reaches⟩⟩

structure Found where
  address : Addr
  pte : Word
  level : Nat

/-- Follow the entries of `va` from the table `t` of the given level down. -/
def findLeaf (m : Mem) (va : Addr) : Nat → Addr → Option Found
  | 0, t =>
    let e := entry m t (vpn va 0)
    if Valid e ∧ Leaf e then some ⟨slot t (vpn va 0), e, 0⟩ else none
  | level + 1, t =>
    let e := entry m t (vpn va (level + 1))
    if Valid e then
      if Leaf e then some ⟨slot t (vpn va (level + 1)), e, level + 1⟩
      else findLeaf m va level (frame e)
    else none

/-- A superpage has to start at a multiple of its size. -/
def Fits (f : Found) : Prop := (f.pte >>> 10).toNat % 2 ^ (9 * f.level) = 0

instance (f : Found) : Decidable (Fits f) := inferInstanceAs (Decidable (_ = _))

/-- The low bits of the address that a leaf of the level leaves alone. -/
def offset (va : Addr) (level : Nat) : Addr := BitVec.ofNat 64 (va.toNat % 2 ^ (12 + 9 * level))

def touched : Access → Word
  | .store => 0xc0
  | .fetch | .load => 0x40

/-- The translation of `va` by the tables of `root`: the physical address, and the memory after the
leaf has got its bits A and D. `none` is a page fault. -/
def translate (m : Mem) (root : Addr) (mode : Mode) (access : Access) (va : Addr) :
    Option (Addr × Mem) :=
  if Canonical va then
    (findLeaf m va 2 root).bind fun f =>
      if Grants mode access f.pte ∧ Fits f then
        some (frame f.pte ||| offset va f.level, writeWord m f.address (f.pte ||| touched access))
      else none
  else none

theorem findLeaf_pointer {m : Mem} {va t : Addr} {level : Nat}
    (hv : Valid (entry m t (vpn va (level + 1)))) (hl : ¬ Leaf (entry m t (vpn va (level + 1)))) :
    findLeaf m va (level + 1) t = findLeaf m va level (frame (entry m t (vpn va (level + 1)))) := by
  rw [findLeaf, if_pos hv, if_neg hl]

theorem findLeaf_invalid {m : Mem} {va t : Addr} {level : Nat}
    (hv : ¬ Valid (entry m t (vpn va level))) : findLeaf m va level t = none := by
  cases level with
  | zero => exact if_neg fun h => hv h.1
  | succ level => exact if_neg hv

theorem translate_of_lastLevel {m : Mem} {root t va : Addr} (mode : Mode) (access : Access)
    (h : findLeaf m va 2 root = findLeaf m va 0 t) :
    translate m root mode access va =
      if Canonical va ∧ Grants mode access (entry m t (vpn va 0)) then
        some (frame (entry m t (vpn va 0)) ||| offset va 0,
          writeWord m (slot t (vpn va 0)) (entry m t (vpn va 0) ||| touched access))
      else none := by
  rw [translate, h, findLeaf]
  by_cases hc : Canonical va
  · rw [if_pos hc]
    by_cases hg : Grants mode access (entry m t (vpn va 0))
    · have hfits : Fits ⟨slot t (vpn va 0), entry m t (vpn va 0), 0⟩ := Nat.mod_one _
      rw [if_pos ⟨hg.valid, hg.leaf⟩, Option.bind_some, if_pos ⟨hg, hfits⟩, if_pos ⟨hc, hg⟩]
    · have hn : ¬ (Canonical va ∧ Grants mode access (entry m t (vpn va 0))) := fun h => hg h.2
      rw [if_neg hn]
      by_cases hl : Valid (entry m t (vpn va 0)) ∧ Leaf (entry m t (vpn va 0))
      · rw [if_pos hl, Option.bind_some, if_neg fun h => hg h.1]
      · rw [if_neg hl, Option.bind_none]
  · rw [if_neg hc, if_neg fun h => hc h.1]

theorem translate_of_none {m : Mem} {root va : Addr} (mode : Mode) (access : Access)
    (h : findLeaf m va 2 root = none) : translate m root mode access va = none := by
  rw [translate, h]
  split_ifs <;> rfl

end Raynix.Lib.Sv39
