import Raynix.Lib.Switch

namespace Raynix.ContextSwitch

open Raynix.Lib.Memory Raynix.Lib.Riscv Raynix.Lib.Transition Raynix.Lib.Switch

/-- `struct context` -/
def contextSlots : Slots :=
  [(.ra, 0), (.sp, 8), (.s0, 16), (.s1, 24), (.s2, 32), (.s3, 40), (.s4, 48), (.s5, 56), (.s6, 64),
    (.s7, 72), (.s8, 80), (.s9, 88), (.s10, 96), (.s11, 104)]

def swtch : List Instr :=
  [.sd .ra 0 .a0,
    .sd .sp 8 .a0,
    .sd .s0 16 .a0,
    .sd .s1 24 .a0,
    .sd .s2 32 .a0,
    .sd .s3 40 .a0,
    .sd .s4 48 .a0,
    .sd .s5 56 .a0,
    .sd .s6 64 .a0,
    .sd .s7 72 .a0,
    .sd .s8 80 .a0,
    .sd .s9 88 .a0,
    .sd .s10 96 .a0,
    .sd .s11 104 .a0,
    .ld .ra 0 .a1,
    .ld .sp 8 .a1,
    .ld .s0 16 .a1,
    .ld .s1 24 .a1,
    .ld .s2 32 .a1,
    .ld .s3 40 .a1,
    .ld .s4 48 .a1,
    .ld .s5 56 .a1,
    .ld .s6 64 .a1,
    .ld .s7 72 .a1,
    .ld .s8 80 .a1,
    .ld .s9 88 .a1,
    .ld .s10 96 .a1,
    .ld .s11 104 .a1,
    .jr .ra]

/-- `swtch(old, new)` with the arguments in `a0` and `a1`. -/
def context : Layout where
  slots := contextSlots
  size := 112
  old := .a0
  new := .a1
  link := .ra
  lt := by decide
  fit := by decide
  apart := by decide
  distinct := by decide
  bases := by decide
  linked := by decide

variable {H : Type*} [DecidableEq H]

end Raynix.ContextSwitch
