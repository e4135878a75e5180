import Raynix.Lib.Sv39
import Raynix.MapLaw

namespace Raynix.AddressSpaces

open Raynix.Lib.Memory Raynix.Lib.Transition Raynix.Lib.Sv39
open Raynix.Kalloc Raynix.Vm Raynix.PageTree Raynix.MapLaw

/-- The memory, the page tables created and the frames that clients hold. -/
structure State where
  phys : Phys
  roots : List Addr
  held : List Addr

/-- A call or an access together with its answer. -/
inductive Event
  | emptyVmCreate (root : Addr)
  | map (root va pa : Addr) (size permission : Word)
  | findPa (root va pa : Addr)
  | access (root : Addr) (mode : Mode) (kind : Access) (va : Addr) (pa : Option Addr)
  | kalloc (f : Addr)
  | freePage (f : Addr)
  | read (a : Addr) (v : Byte)
  | write (a : Addr) (v : Byte)

/-- The code and, for an access, the hart, which sets accessed and dirty bits only: the data of a
store are a `write`. A client reads, writes and frees what it holds, and leaves a null pointer
alone. -/
def step (s : State) : Event → Option State
  | .emptyVmCreate root =>
    let (pagetable, phys) := emptyVmCreate s.phys
    if pagetable = root then
      some { s with phys := phys, roots := if root = 0 then s.roots else root :: s.roots }
    else none
  | .map root va pa size permission =>
    if root ∈ s.roots then some { s with phys := map s.phys va pa root size permission } else none
  | .findPa root va pa =>
    let (found, phys) := findPa s.phys root va
    if root ∈ s.roots ∧ found = pa then some { s with phys := phys } else none
  | .access root mode kind va pa =>
    if root ∈ s.roots then
      match translate s.phys.mem root mode kind va with
      | some (found, mem) =>
        if pa = some found then some { s with phys := { s.phys with mem := mem } } else none
      | none => if pa = none then some s else none
    else none
  | .kalloc f =>
    let (fp, phys) := kalloc s.phys
    if fp = f then some { s with phys := phys, held := if f = 0 then s.held else f :: s.held }
    else none
  | .freePage f =>
    if f ∈ s.held then some { s with phys := freePage s.phys f, held := s.held.erase f } else none
  | .read a v => if pgRoundDown a ∈ s.held ∧ s.phys.mem a = v then some s else none
  | .write a v =>
    if pgRoundDown a ∈ s.held then
      some { s with phys := { s.phys with mem := Function.update s.phys.mem a v } }
    else none

/-- `kalloc` has a frame for each table that the call makes. -/
def Supplies (s : State) : Event → Prop
  | .map root va pa size permission => Supplied s.phys (map s.phys va pa root size permission)
  | .findPa root va _ => Supplied s.phys (findPa s.phys root va).2
  | _ => True

/-- What the tables and frames are for: address spaces that have nothing in common, and pages that
nobody but their holder changes. -/
structure Spaces where
  entries : Addr → Key → Word
  byte : Addr → Byte
  roots : List Addr
  held : List Addr

/-- The pages of a call of `map` one after the other. -/
def mapEntries (e : Key → Word) (permission : Word) (va pa : Addr) : Nat → Key → Word
  | 0 => e
  | n + 1 =>
    mapEntries (Function.update e (key va) (leafPte pa permission)) permission (va + 4096)
      (pa + 4096) n

/-- An access to a page by its entry. -/
def answer (mode : Mode) (kind : Access) (va : Addr) (e : Word) : Option Addr :=
  if Canonical va ∧ Grants mode kind e then some (frame e ||| offset va 0) else none

def Spaces.setEntries (a : Spaces) (root : Addr) (e : Key → Word) : Spaces :=
  { a with entries := Function.update a.entries root e }

def Spaces.InUse (a : Spaces) (f : Addr) : Prop := f ∈ a.roots ∨ f ∈ a.held

instance (a : Spaces) (f : Addr) : Decidable (a.InUse f) := inferInstanceAs (Decidable (_ ∨ _))

def spacesStep (a : Spaces) : Event → Option Spaces
  | .emptyVmCreate root =>
    if root = 0 then some a
    else if a.InUse root then none
    else some { a.setEntries root (fun _ => 0) with roots := root :: a.roots }
  | .map root va pa size permission =>
    if root ∈ a.roots then
      some (a.setEntries root
        (mapEntries (a.entries root) permission (pgRoundDown va) pa size.toNat))
    else none
  | .findPa root va pa =>
    if root ∈ a.roots ∧ (a.entries root (key va) >>> 10) <<< 12 ||| (va &&& 0xfff) = pa then some a
    else none
  | .access root mode kind va pa =>
    if root ∈ a.roots ∧ answer mode kind va (a.entries root (key va)) = pa then
      if pa = none then some a
      else some (a.setEntries root
        (Function.update (a.entries root) (key va) (a.entries root (key va) ||| touched kind)))
    else none
  | .kalloc f =>
    if f = 0 then some a
    else if a.InUse f then none
    else some { a with held := f :: a.held
                       byte := fun b => if pageNo b = pageNo f then 5 else a.byte b }
  | .freePage f => if f ∈ a.held then some { a with held := a.held.erase f } else none
  | .read x v => if pgRoundDown x ∈ a.held ∧ a.byte x = v then some a else none
  | .write x v =>
    if pgRoundDown x ∈ a.held then some { a with byte := Function.update a.byte x v } else none

end Raynix.AddressSpaces
