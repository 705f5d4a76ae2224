import Xinul.Lib.Riscv

/-!
# The assembly of a switch and of a trap

`context_switch.S`, `direct_context_swap.S`, `process_call_wrapper_user.S` and
`supervisor_trap_entry.S`, instruction by instruction, and the layout of `context_t` and
`struct trap_frame`. A jump to C code ends a piece of code.
-/

namespace Xinul

open Rv

/-! ## `context_t` -/

/-- The offsets of `sp`, `ra` and `s[12]` in a `context_t`. -/
def contextRegs : List (Reg × Nat) :=
  [(.sp, 0), (.ra, 8), (.s0, 16), (.s1, 24), (.s2, 32), (.s3, 40), (.s4, 48), (.s5, 56), (.s6, 64), (.s7, 72), (.s8, 80),
    (.s9, 88), (.s10, 96), (.s11, 104)]

/-- The offsets of `sscratch`, `sepc` and `satp`. -/
def contextCsrs : List (Csr × Nat) := [(.sscratch, 112), (.sepc, 120), (.satp, 128)]

/-- `sizeof(context_t)`. -/
def contextSize : Nat := 136

/-- The `context_t` at `a` holds the registers of `c`. -/
structure Saved (m : Bytes.Memory) (a : Nat) (c : Cpu) : Prop where
  regs : ∀ p ∈ contextRegs, word m (a + p.2) = c.get p.1
  csrs : ∀ p ∈ contextCsrs, word m (a + p.2) = c.csr p.1

/-- Two states have the registers of a `context_t` in common. -/
structure Alike (c d : Cpu) : Prop where
  regs : ∀ p ∈ contextRegs, c.get p.1 = d.get p.1
  csrs : ∀ p ∈ contextCsrs, c.csr p.1 = d.csr p.1

/-- `context_switch`. -/
def contextSwitch : List Instr :=
  [.sd .sp 0 .a0, .sd .ra 8 .a0, .sd .s0 16 .a0, .sd .s1 24 .a0, .sd .s2 32 .a0, .sd .s3 40 .a0, .sd .s4 48 .a0,
    .sd .s5 56 .a0, .sd .s6 64 .a0, .sd .s7 72 .a0, .sd .s8 80 .a0, .sd .s9 88 .a0, .sd .s10 96 .a0, .sd .s11 104 .a0,
    .csrr .t0 .sscratch, .sd .t0 112 .a0, .csrr .t0 .sepc, .sd .t0 120 .a0, .csrr .t0 .satp, .sd .t0 128 .a0,
    .ld .sp 0 .a1, .ld .ra 8 .a1, .ld .s0 16 .a1, .ld .s1 24 .a1, .ld .s2 32 .a1, .ld .s3 40 .a1, .ld .s4 48 .a1,
    .ld .s5 56 .a1, .ld .s6 64 .a1, .ld .s7 72 .a1, .ld .s8 80 .a1, .ld .s9 88 .a1, .ld .s10 96 .a1, .ld .s11 104 .a1,
    .ld .t0 112 .a1, .csrw .sscratch .t0, .ld .t0 120 .a1, .csrw .sepc .t0, .ld .t0 128 .a1, .csrw .satp .t0,
    .jr .ra, .jr .ra]

/-- `direct_context_swap`. -/
def directContextSwap : List Instr :=
  [.ld .sp 0 .a0, .ld .ra 8 .a0, .ld .s0 16 .a0, .ld .s1 24 .a0, .ld .s2 32 .a0, .ld .s3 40 .a0, .ld .s4 48 .a0,
    .ld .s5 56 .a0, .ld .s6 64 .a0, .ld .s7 72 .a0, .ld .s8 80 .a0, .ld .s9 88 .a0, .ld .s10 96 .a0, .ld .s11 104 .a0,
    .ld .t0 112 .a0, .csrw .sscratch .t0, .ld .t0 120 .a0, .csrw .sepc .t0, .ld .t0 128 .a0, .csrw .satp .t0,
    .jr .ra]

/-- `process_call_wrapper_user`. -/
def processCallWrapperUser : List Instr := [.mv .a0 .s2, .sret]

/-! ## `struct trap_frame` -/

/-- The size of the frame `strap_entry` makes on the stack. -/
def trapFrameSize : Nat := 37 * 8

/-- The registers the caller of a C function has to keep, at their offsets in the frame. -/
def trapFrameRegs : List (Reg × Nat) :=
  [(.ra, 1 * 8), (.t0, 5 * 8), (.t1, 6 * 8), (.t2, 7 * 8), (.a0, 10 * 8), (.a1, 11 * 8), (.a2, 12 * 8), (.a3, 13 * 8),
    (.a4, 14 * 8), (.a5, 15 * 8), (.a6, 16 * 8), (.a7, 17 * 8), (.t3, 28 * 8), (.t4, 29 * 8), (.t5, 30 * 8), (.t6, 31 * 8)]

/-- `save_full_trap_frame`. -/
def saveFullTrapFrame : List Instr :=
  [.sd .zero (0 * 8) .sp,
    .csrr .t0 .sscratch, .sd .t0 (2 * 8) .sp,
    .sd .gp (3 * 8) .sp, .sd .tp (4 * 8) .sp, .sd .s0 (8 * 8) .sp, .sd .s1 (9 * 8) .sp, .sd .s2 (18 * 8) .sp,
    .sd .s3 (19 * 8) .sp, .sd .s4 (20 * 8) .sp, .sd .s5 (21 * 8) .sp, .sd .s6 (22 * 8) .sp, .sd .s7 (23 * 8) .sp,
    .sd .s8 (24 * 8) .sp, .sd .s9 (25 * 8) .sp, .sd .s10 (26 * 8) .sp, .sd .s11 (27 * 8) .sp,
    .csrr .t1 .sstatus, .sd .t1 (32 * 8) .sp,
    .sd .a1 (33 * 8) .sp,
    .csrr .t2 .stval, .sd .t2 (34 * 8) .sp,
    .sd .a0 (35 * 8) .sp,
    .csrr .t3 .satp, .sd .t3 (36 * 8) .sp]

/-- `strap_entry`, up to the `jal strap_handler` at its label `1`. -/
def strapEntry : List Instr :=
  [.csrrw .sp .sscratch .sp,
    .addi .sp .sp (-37 * 8),
    .sd .ra (1 * 8) .sp, .sd .t0 (5 * 8) .sp, .sd .t1 (6 * 8) .sp, .sd .t2 (7 * 8) .sp, .sd .a0 (10 * 8) .sp,
    .sd .a1 (11 * 8) .sp, .sd .a2 (12 * 8) .sp, .sd .a3 (13 * 8) .sp, .sd .a4 (14 * 8) .sp, .sd .a5 (15 * 8) .sp,
    .sd .a6 (16 * 8) .sp, .sd .a7 (17 * 8) .sp, .sd .t3 (28 * 8) .sp, .sd .t4 (29 * 8) .sp, .sd .t5 (30 * 8) .sp,
    .sd .t6 (31 * 8) .sp,
    .csrr .a0 .scause, .csrr .a1 .sepc, .mv .a2 .sp,
    .bltz .a0 (3 + saveFullTrapFrame.length),
    .andi .t0 .a0 0xf, .li .t1 9,
    .beq .t0 .t1 saveFullTrapFrame.length] ++ saveFullTrapFrame

/-- `strap_entry`, after the call of `strap_handler`. -/
def strapExit : List Instr :=
  [.ld .ra (1 * 8) .sp, .ld .t0 (5 * 8) .sp, .ld .t1 (6 * 8) .sp, .ld .t2 (7 * 8) .sp, .ld .a0 (10 * 8) .sp,
    .ld .a1 (11 * 8) .sp, .ld .a2 (12 * 8) .sp, .ld .a3 (13 * 8) .sp, .ld .a4 (14 * 8) .sp, .ld .a5 (15 * 8) .sp,
    .ld .a6 (16 * 8) .sp, .ld .a7 (17 * 8) .sp, .ld .t3 (28 * 8) .sp, .ld .t4 (29 * 8) .sp, .ld .t5 (30 * 8) .sp,
    .ld .t6 (31 * 8) .sp,
    .addi .sp .sp (37 * 8),
    .csrrw .sp .sscratch .sp,
    .sret]

/-! ## `start_virtual` -/

/-- What `start_virtual` writes in the `context_t` of a new process: `wrapper` is the
address of `process_call_wrapper_user`, `frame` the interrupt frame. The fields it
does not name keep what `malloc` left there. -/
def startContext (mem : Bytes.Memory) (context wrapper stackShift arg pageTable pid frame : Nat) : Bytes.Memory :=
  let mem := Bytes.store64 mem (context + 0) (0x40000000 + 0x1000 * stackShift)
  let mem := Bytes.store64 mem (context + 8) wrapper
  let mem := Bytes.store64 mem (context + 120) 0x40000000
  let mem := Bytes.store64 mem (context + 32) arg
  let mem := Bytes.store64 mem (context + 128) (0x8000000000000000 ||| pageTable >>> 12 ||| pid <<< 44)
  Bytes.store64 mem (context + 112) (frame + 0x1000)

end Xinul
