import Raynix.Start

namespace Raynix.TimerHandler

open Raynix.Lib.Memory Raynix.Lib.Riscv Raynix.Start

def ttraph : List Instr :=
  [.csrrw .a0 .mscratch .a0,
    .sd .a1 0 .a0,
    .sd .a2 8 .a0,
    .sd .a3 16 .a0,
    .ld .a1 24 .a0,
    .ld .a2 32 .a0,
    .ld .a3 0 .a1,
    .add .a3 .a3 .a2,
    .sd .a3 0 .a1,
    .li .a1 2,
    .csrw .sip .a1,
    .ld .a3 16 .a0,
    .ld .a2 8 .a0,
    .ld .a1 0 .a0,
    .csrrw .a0 .mscratch .a0,
    .mret]

/-- The registers that the handler uses besides `a0`, with their cells in the row. -/
def spills : Slots := [(.a1, 0), (.a2, 8), (.a3, 16)]

/-- The comparator of the row at `row` gets one interval further. -/
def tick : List Instr :=
  [.ld .a1 24 .a0,
    .ld .a2 32 .a0,
    .ld .a3 0 .a1,
    .add .a3 .a3 .a2,
    .sd .a3 0 .a1,
    .li .a1 2,
    .csrw .sip .a1]

theorem ttraph_eq : ttraph =
    .csrrw .a0 .mscratch .a0 :: (saves spills .a0 ++ (tick ++
      (loads spills.reverse .a0 ++ [.csrrw .a0 .mscratch .a0, .mret]))) := rfl

/-- What the row at `row` tells the handler. -/
structure Row (m : Mem) (row cmp : Addr) (interval : Word) : Prop where
  comparator : readWord m (row + 24) = cmp
  interval : readWord m (row + 32) = interval

variable {m m' : Mem} {row cmp : Addr} {interval : Word}

theorem execAll_tick {x : Hart} (hrow : Row m row cmp interval) (hbase : x.gpr .a0 = row) :
    (execAll bare ⟨x, m⟩ tick).mem = writeWord m cmp (readWord m cmp + interval) ∧
      (execAll bare ⟨x, m⟩ tick).hart.csr = Function.update x.csr .sip 2 ∧
      ∀ r, r ≠ .a1 → r ≠ .a2 → r ≠ .a3 →
        (execAll bare ⟨x, m⟩ tick).hart.gpr r = x.gpr r := by
  subst hbase
  obtain ⟨rfl, rfl⟩ := hrow
  refine ⟨?_, ?_, ?_⟩
  · simp [tick, exec, Machine.address, bare, Hart.setGpr, Hart.setCsr]
  · simp [tick, exec, Machine.address, bare, Hart.setGpr, Hart.setCsr]
  · intro r h1 h2 h3
    simp [tick, exec, Machine.address, bare, Hart.setGpr, Hart.setCsr, h1, h2, h3]

/-- The word at `cmp` is away from the row at `row`. -/
def Away (row cmp : Addr) : Prop := ∀ b : Addr, (b - cmp).toNat < 8 → 40 ≤ (b - row).toNat

theorem Away.cell {w : Word} {off : Nat} (h : Away row cmp) (hoff : off + 8 ≤ 40) :
    cell (writeWord m cmp w) row off = cell m row off := by
  refine cell_congr hoff fun i hi => ?_
  refine if_neg fun hb => ?_
  have hfar := h _ hb
  rw [add_sub_cancel_left, BitVec.toNat_ofNat] at hfar
  omega

/-- The swap of `a0` and `mscratch`. -/
def swapped (x : Hart) : Hart := (x.setCsr .mscratch (x.gpr .a0)).setGpr .a0 (x.csr .mscratch)

/-- The handler's registers are in the row, the rest of the row and the comparator are kept. -/
structure Spilled (x : Hart) (m m' : Mem) (row cmp : Addr) (interval : Word) : Prop where
  cells : ∀ y ∈ spills, cell m' row y.2 = x.gpr y.1
  row : Row m' row cmp interval
  comparator : readWord m' cmp = readWord m cmp

theorem execAll_spill {x : Hart} (hbase : x.gpr .a0 = row) (hrow : Row m row cmp interval)
    (haway : Away row cmp) :
    (execAll bare ⟨x, m⟩ (saves spills .a0)).hart = x ∧
      Spilled x m (execAll bare ⟨x, m⟩ (saves spills .a0)).mem row cmp interval := by
  have hmap : ∀ y ∈ spills, (Machine.mk x m).address bare .a0 y.2 = row + BitVec.ofNat 64 y.2 :=
    fun y _ => congrArg (· + BitVec.ofNat 64 y.2) hbase
  obtain ⟨hhart, hslots, hkept⟩ :=
    execAll_saves (by decide : 40 < 2 ^ 64) (by decide) hmap (by decide)
  refine ⟨hhart, hslots, ⟨?_, ?_⟩, ?_⟩
  · exact (hkept 24 (by decide) (by decide)).trans hrow.comparator
  · exact (hkept 32 (by decide) (by decide)).trans hrow.interval
  · refine readWord_congr fun b hb => execAll_saves_mem fun y hy => ?_
    have hfar := haway b hb
    have hoff : y.2 ≤ 32 := by
      revert y
      decide
    rw [hmap y hy]
    bv_omega

/-- What a run of the handler leaves on a hart. -/
structure Ticked (x y : Hart) : Prop where
  gpr : y.gpr = x.gpr
  mscratch : y.csr .mscratch = x.csr .mscratch
  sip : y.csr .sip = 2
  pc : y.pc = x.csr .mepc

theorem execAll_swapBack {x : Hart} {t : Machine} (hgpr : t.hart.gpr = (swapped x).gpr)
    (hcsr : t.hart.csr = Function.update (swapped x).csr .sip 2) :
    Ticked x (execAll bare t [.csrrw .a0 .mscratch .a0, .mret]).hart := by
  have hmscratch : t.hart.csr .mscratch = x.gpr .a0 := by
    rw [hcsr]
    rfl
  have ha0 : t.hart.gpr .a0 = x.csr .mscratch := by
    rw [hgpr]
    rfl
  refine ⟨?_, ?_, ?_, ?_⟩
  · change Function.update t.hart.gpr .a0 (t.hart.csr .mscratch) = _
    rw [hmscratch, hgpr]
    change Function.update (Function.update x.gpr .a0 _) .a0 _ = _
    rw [Function.update_idem, Function.update_eq_self]
  · exact ha0
  · change t.hart.csr .sip = 2
    rw [hcsr, Function.update_self]
  · change t.hart.csr .mepc = _
    rw [hcsr]
    rfl

theorem execAll_restore {x y : Hart} (hbase : y.gpr .a0 = x.csr .mscratch)
    (hcells : ∀ z ∈ spills, cell m (x.csr .mscratch) z.2 = (swapped x).gpr z.1)
    (hgpr : ∀ r, r ≠ .a1 → r ≠ .a2 → r ≠ .a3 → y.gpr r = (swapped x).gpr r)
    (hcsr : y.csr = Function.update (swapped x).csr .sip 2) :
    let t := execAll bare ⟨y, m⟩ (loads spills.reverse .a0 ++ [.csrrw .a0 .mscratch .a0, .mret])
    t.mem = m ∧ Ticked x t.hart := by
  have hmap : ∀ z ∈ spills.reverse,
      (Machine.mk y m).address bare .a0 z.2 = x.csr .mscratch + BitVec.ofNat 64 z.2 :=
    fun z _ => congrArg (· + BitVec.ofNat 64 z.2) hbase
  obtain ⟨hmem, hcsr', hslots, hother⟩ := execAll_loads hmap (by decide) (by decide)
  rw [execAll_append]
  generalize execAll bare ⟨y, m⟩ (loads spills.reverse .a0) = t at hmem hcsr' hslots hother
  have hback : ∀ r, t.hart.gpr r = (swapped x).gpr r := by
    intro r
    by_cases hr : r = .a1 ∨ r = .a2 ∨ r = .a3
    · obtain rfl | rfl | rfl := hr
      · exact (hslots (.a1, 0) (by decide)).trans (hcells (.a1, 0) (by decide))
      · exact (hslots (.a2, 8) (by decide)).trans (hcells (.a2, 8) (by decide))
      · exact (hslots (.a3, 16) (by decide)).trans (hcells (.a3, 16) (by decide))
    · push Not at hr
      refine (hother r ?_).trans (hgpr r hr.1 hr.2.1 hr.2.2)
      rintro z hz rfl
      revert hr
      revert z
      decide
  exact ⟨hmem, execAll_swapBack (funext hback) (hcsr'.trans hcsr)⟩

theorem execAll_ttraph {x : Hart} (hrow : Row m (x.csr .mscratch) cmp interval)
    (haway : Away (x.csr .mscratch) cmp) :
    Ticked x (execAll bare ⟨x, m⟩ ttraph).hart ∧
      readWord (execAll bare ⟨x, m⟩ ttraph).mem cmp = readWord m cmp + interval := by
  have hswap : exec bare ⟨x, m⟩ (.csrrw .a0 .mscratch .a0) = ⟨swapped x, m⟩ := rfl
  have heq : execAll bare ⟨x, m⟩ ttraph =
      execAll bare (execAll bare (execAll bare ⟨swapped x, m⟩ (saves spills .a0)) tick)
        (loads spills.reverse .a0 ++ [.csrrw .a0 .mscratch .a0, .mret]) := by
    rw [ttraph_eq, execAll_cons, hswap, execAll_append, execAll_append]
  obtain ⟨hhart, hspilled⟩ := execAll_spill (x := swapped x) rfl hrow haway
  rw [heq]
  generalize execAll bare ⟨swapped x, m⟩ (saves spills .a0) = m₂ at hhart hspilled
  obtain ⟨y, m₂⟩ := m₂
  obtain rfl : y = swapped x := hhart
  obtain ⟨hmem, hcsr, hgpr⟩ := execAll_tick (x := swapped x) hspilled.row rfl
  generalize execAll bare ⟨swapped x, m₂⟩ tick = m₃ at hmem hcsr hgpr
  obtain ⟨y, m₃⟩ := m₃
  obtain rfl : m₃ = _ := hmem
  obtain ⟨hmem', hticked⟩ := execAll_restore (x := x) (y := y)
    (hgpr .a0 (by decide) (by decide) (by decide))
    (fun z hz => (haway.cell (by revert z; decide)).trans (hspilled.cells z hz)) hgpr hcsr
  refine ⟨hticked, ?_⟩
  rw [hmem', readWord_writeWord, hspilled.comparator]

end Raynix.TimerHandler
