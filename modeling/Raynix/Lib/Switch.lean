import Raynix.Lib.Riscv
import Raynix.Lib.Transition

namespace Raynix.Lib.Switch

open Raynix.Lib.Memory Raynix.Lib.Riscv Raynix.Lib.Transition

/-- A routine that suspends one thread and resumes another: it saves the registers of the slots in
the context that `old` points to, loads them from the one that `new` points to, and returns by
`link`. -/
structure Layout where
  slots : Slots
  size : Nat
  old : Reg
  new : Reg
  link : Reg
  lt : size < 2 ^ 64
  fit : ∀ x ∈ slots, x.2 + 8 ≤ size
  apart : slots.Pairwise fun x y => Apart x.2 y.2
  distinct : slots.Pairwise fun x y => x.1 ≠ y.1
  bases : ∀ x ∈ slots, x.1 ≠ old ∧ x.1 ≠ new
  linked : ∃ x ∈ slots, x.1 = link

variable (l : Layout)

def Layout.code : List Instr := saves l.slots l.old ++ (loads l.slots l.new ++ [.jr l.link])

def Layout.Saved (r : Reg) : Prop := ∃ x ∈ l.slots, x.1 = r

instance (r : Reg) : Decidable (l.Saved r) := inferInstanceAs (Decidable (∃ x ∈ l.slots, x.1 = r))

/-- `b` is a byte of the context `c`. -/
def Layout.Block (c b : Addr) : Prop := (b - c).toNat < l.size

/-- A hart, and what it has still to execute of the routine. -/
structure Cpu where
  hart : Hart
  todo : List Instr

structure System (H : Type*) where
  cpus : H → Cpu
  mem : Mem

/-- Outside the routine a thread computes on its registers, stores a byte or calls the routine. -/
inductive Act (H : Type*)
  | compute (h : H) (hart : Hart)
  | store (h : H) (a : Addr) (v : Byte)
  | call (h : H)
  | exec (h : H)

/-- A hart in whose eyes the routine is one step, and how many instructions it is given for it. -/
structure Thread where
  hart : Hart
  left : Nat

/-- The contexts hold registers, and memory is the rest of memory. -/
structure Atomic (H : Type*) where
  threads : H → Thread
  contexts : Addr → Reg → Word
  mem : Mem

variable {H : Type*} [DecidableEq H]

def System.set (s : System H) (h : H) (x : Cpu) : System H :=
  { s with cpus := Function.update s.cpus h x }

def Atomic.set (a : Atomic H) (h : H) (x : Thread) : Atomic H :=
  { a with threads := Function.update a.threads h x }

/-- The harts execute the instructions of the routine one at a time, in any order. -/
def step (code : List Instr) (s : System H) : Act H → Option (System H)
  | .compute h hart =>
    match (s.cpus h).todo with
    | [] => some (s.set h ⟨hart, []⟩)
    | _ :: _ => none
  | .store h a v =>
    match (s.cpus h).todo with
    | [] => some { s with mem := Function.update s.mem a v }
    | _ :: _ => none
  | .call h =>
    match (s.cpus h).todo with
    | [] => some (s.set h ⟨(s.cpus h).hart, code⟩)
    | _ :: _ => none
  | .exec h =>
    match (s.cpus h).todo with
    | [] => none
    | i :: is =>
      let m := exec bare ⟨(s.cpus h).hart, s.mem⟩ i
      some { s.set h ⟨m.hart, is⟩ with mem := m.mem }

/-- The registers of the thread that is resumed, and the rest as the suspended one left it. -/
def Layout.resume (saved : Reg → Word) (x : Hart) : Hart :=
  { x with
    gpr := fun r => if l.Saved r then saved r else x.gpr r
    pc := saved l.link }

/-- The hart is in the routine, from or to the context `c`. -/
def Uses (s : System H) (h : H) (c : Addr) : Prop :=
  (s.cpus h).todo ≠ [] ∧ ((s.cpus h).hart.gpr l.old = c ∨ (s.cpus h).hart.gpr l.new = c)

/-- The routine is called with two contexts that no hart is switching from or to, and no other code
writes to a context that a hart is switching from or to. -/
def Allowed (contexts : Set Addr) (s : System H) : Act H → Prop
  | .call h =>
    let x := (s.cpus h).hart
    x.gpr l.old ∈ contexts ∧ x.gpr l.new ∈ contexts ∧ x.gpr l.old ≠ x.gpr l.new ∧
      ∀ g, ¬ Uses l s g (x.gpr l.old) ∧ ¬ Uses l s g (x.gpr l.new)
  | .store _ a _ => ∀ c ∈ contexts, l.Block c a → ∀ g, ¬ Uses l s g c
  | .compute .. | .exec _ => True

/-- The context `c` holds these registers. -/
def Layout.Holds (m : Mem) (c : Addr) (slots : Slots) (regs : Reg → Word) : Prop :=
  ∀ x ∈ slots, cell m c x.2 = regs x.1

/-- Some slots have been saved. -/
structure Saving (contexts : Addr → Reg → Word) (m : Mem) (x : Hart) (done rest : Slots) :
    Prop where
  split : l.slots = done ++ rest
  kept : ∀ s ∈ l.slots, contexts (x.gpr l.old) s.1 = x.gpr s.1
  stored : ∀ s ∈ done, cell m (x.gpr l.old) s.2 = contexts (x.gpr l.old) s.1

/-- All slots have been saved, and some loaded. -/
structure Loading (contexts : Addr → Reg → Word) (m : Mem) (x : Hart) (done rest : Slots) :
    Prop where
  split : l.slots = done ++ rest
  stored : ∀ s ∈ l.slots, cell m (x.gpr l.old) s.2 = contexts (x.gpr l.old) s.1
  loaded : ∀ s ∈ done, x.gpr s.1 = contexts (x.gpr l.new) s.1

/-- A hart in the routine, beside the one that has already gone through it. -/
structure Mid (contexts : Addr → Reg → Word) (m : Mem) (x : Hart) (todo : List Instr) (y : Hart) :
    Prop where
  phase : (∃ done rest, todo = saves rest l.old ++ (loads l.slots l.new ++ [.jr l.link]) ∧
      Saving l contexts m x done rest) ∨
    ∃ done rest, todo = loads rest l.new ++ [.jr l.link] ∧ Loading l contexts m x done rest
  saved : ∀ r, l.Saved r → y.gpr r = contexts (x.gpr l.new) r
  others : ∀ r, ¬ l.Saved r → y.gpr r = x.gpr r
  csr : y.csr = x.csr
  pc : y.pc = contexts (x.gpr l.new) l.link

variable {l} {contexts : Addr → Reg → Word} {m : Mem} {x y : Hart}

theorem cell_block {m m' : Mem} {c : Addr} {off : Nat} (hoff : off + 8 ≤ l.size)
    (h : ∀ b, l.Block c b → m' b = m b) : cell m' c off = cell m c off := by
  apply cell_congr hoff
  intro i hi
  apply h
  have hlt := l.lt
  unfold Layout.Block
  bv_omega

/-- A hart in the routine depends on its two contexts only. -/
theorem Mid.congr {contexts' : Addr → Reg → Word} {m' : Mem} {todo : List Instr}
    (h : Mid l contexts m x todo y) (hm : ∀ b, l.Block (x.gpr l.old) b → m' b = m b)
    (hold : contexts' (x.gpr l.old) = contexts (x.gpr l.old))
    (hnew : contexts' (x.gpr l.new) = contexts (x.gpr l.new)) : Mid l contexts' m' x todo y := by
  obtain ⟨hphase, hsaved, hothers, hcsr, hpc⟩ := h
  refine ⟨?_, by rwa [hnew], hothers, hcsr, by rwa [hnew]⟩
  obtain ⟨done, rest, htodo, hsplit, hkept, hstored⟩ | ⟨done, rest, htodo, hsplit, hstored,
    hloaded⟩ := hphase
  · refine .inl ⟨done, rest, htodo, hsplit, by rwa [hold], fun s hs => ?_⟩
    have hmem : s ∈ l.slots := hsplit ▸ List.mem_append_left rest hs
    rw [cell_block (l.fit s hmem) hm, hold, hstored s hs]
  · refine .inr ⟨done, rest, htodo, hsplit, fun s hs => ?_, by rwa [hnew]⟩
    rw [cell_block (l.fit s hs) hm, hold, hstored s hs]

theorem Loading.load {done rest : Slots} {s : Reg × Nat}
    (h : Loading l contexts m x done (s :: rest)) (hs : s ∈ l.slots)
    (hcell : cell m (x.gpr l.new) s.2 = contexts (x.gpr l.new) s.1) :
    Loading l contexts m (x.setGpr s.1 (cell m (x.gpr l.new) s.2)) (done ++ [s]) rest := by
  obtain ⟨hsplit, hstored, hloaded⟩ := h
  obtain ⟨hold, hnew⟩ := l.bases s hs
  have hold' := x.setGpr_of_ne hold.symm (cell m (x.gpr l.new) s.2)
  have hnew' := x.setGpr_of_ne hnew.symm (cell m (x.gpr l.new) s.2)
  refine ⟨by rw [hsplit, List.append_assoc, List.singleton_append], by rwa [hold'], ?_⟩
  intro t ht
  rw [hnew']
  obtain ht | ht := List.mem_append.mp ht
  · have hdistinct := l.distinct
    rw [hsplit, List.pairwise_append] at hdistinct
    rw [x.setGpr_of_ne (hdistinct.2.2 t ht s List.mem_cons_self), hloaded t ht]
  · obtain rfl := List.mem_singleton.mp ht
    rw [x.setGpr_self, hcell]

/-- Contexts are apart. -/
def Layout.Disjoint (l : Layout) (C : Set Addr) : Prop :=
  ∀ c ∈ C, ∀ c' ∈ C, c ≠ c' → ∀ b, l.Block c b → ¬ l.Block c' b

@[simp]
theorem System.set_self (s : System H) (h : H) (x : Cpu) : (s.set h x).cpus h = x :=
  Function.update_self ..

theorem System.set_of_ne (s : System H) {h g : H} (x : Cpu) (hne : g ≠ h) :
    (s.set h x).cpus g = s.cpus g := Function.update_of_ne hne ..

@[simp]
theorem Atomic.set_self (a : Atomic H) (h : H) (x : Thread) : (a.set h x).threads h = x :=
  Function.update_self ..

theorem Atomic.set_of_ne (a : Atomic H) {h g : H} (x : Thread) (hne : g ≠ h) :
    (a.set h x).threads g = a.threads g := Function.update_of_ne hne ..

variable {C : Set Addr} {s : System H} {a : Atomic H} {h : H}

/-- The registers that the context `c` holds. -/
def Layout.regs (l : Layout) (m : Mem) (c : Addr) (r : Reg) : Word :=
  match l.slots.lookup r with
  | some off => cell m c off
  | none => 0

end Raynix.Lib.Switch
