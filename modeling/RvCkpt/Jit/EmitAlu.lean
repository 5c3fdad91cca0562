import RvCkpt.Jit.Arith

/-! # Compiled arithmetic

The emitters of the integer operations in `src/src/jit/jit-emitter-rv64.h`.
-/

namespace RvCkpt.Jit
open Isa
set_option autoImplicit false

namespace EmitterRv64
variable (E : EmitterRv64)

/-! ## Fragments -/

/-- `gpq` or `gpd` of a register that the host holds, else its place in the processor. -/
def opnd (r : Reg) : Operand := if 0 < E.x86_reg r then .reg (E.gp r) else rbp_reg r

def mov (s : Size) (dst src : Operand) : ArithIns := .ins (.mov s dst src)

def movsxd (dst : Gpr) (src : Operand) : ArithIns := .ins (.movsx .dword dst src)

def emit_sx_32_rd (dec : Operands) : List ArithIns :=
  if 0 < E.x86_reg dec.rd then [movsxd (E.gp dec.rd) (.reg (E.gp dec.rd))]
  else [movsxd rcx (rbp_reg dec.rd), mov .qword (rbp_reg dec.rd) (.reg rcx)]

def emit_zero_rd (dec : Operands) : List ArithIns :=
  if 0 < E.x86_reg dec.rd then [.arith .xor .dword (.reg (E.gp dec.rd)) (.reg (E.gp dec.rd))]
  else [mov .qword (rbp_reg dec.rd) (.imm 0)]

def emit_mv_rax_rs1 (dec : Operands) : List ArithIns := [mov .qword (.reg rax) (E.opnd dec.rs1)]

def emit_mv_eax_rs1 (dec : Operands) : List ArithIns := [mov .dword (.reg rax) (E.opnd dec.rs1)]

/-- `rax` or `eax` from `rs1`. -/
def emitMvRax (s : Size) (dec : Operands) : List ArithIns := [mov s (.reg rax) (E.opnd dec.rs1)]

def emit_mv_cl_rs2 (dec : Operands) : List ArithIns := [mov .dword (.reg rcx) (E.opnd dec.rs2)]

/-- A copy of a register. -/
def emitMv (s : Size) (rd rs : Reg) : List ArithIns :=
  if rd = rs then []
  else if 0 < E.x86_reg rd then [mov s (.reg (E.gp rd)) (E.opnd rs)]
  else if 0 < E.x86_reg rs then [mov s (rbp_reg rd) (.reg (E.gp rs))]
  else [mov s (.reg rax) (rbp_reg rs), mov s (rbp_reg rd) (.reg rax)]

def emit_mv_rd_rs1 (dec : Operands) := E.emitMv .qword dec.rd dec.rs1

def emit_mv_rd_rs1_32 (dec : Operands) := E.emitMv .dword dec.rd dec.rs1

def emit_mv_rd_rs2 (dec : Operands) := E.emitMv .qword dec.rd dec.rs2

def emit_mv_rd_rs1_sx_32 (dec : Operands) : List ArithIns :=
  if 0 < E.x86_reg dec.rd then [movsxd (E.gp dec.rd) (E.opnd dec.rs1)]
  else [movsxd rax (E.opnd dec.rs1), mov .qword (rbp_reg dec.rd) (.reg rax)]

def emit_mv_rd_rs2_sx_32 (dec : Operands) : List ArithIns :=
  if 0 < E.x86_reg dec.rd then
    if 0 < E.x86_reg dec.rs2 then [movsxd (E.gp dec.rd) (.reg (E.gp dec.rs2))]
    -- `mov` of a 64-bit register from a 32-bit place: the register gives the size
    else [mov .qword (.reg (E.gp dec.rd)) (rbp_reg dec.rs2)]
  else [movsxd rax (E.opnd dec.rs2), mov .qword (rbp_reg dec.rd) (.reg rax)]

/-- `rax` to `rd`. -/
def emitRax (rd : Reg) : List ArithIns := [mov .qword (rbp_reg rd) (.reg rax)]

/-- `eax` to `rd`, with its sign. -/
def emitEax (rd : Reg) : List ArithIns := movsxd rax (.reg rax) :: emitRax rd

/-- An operation on `rd` in place. -/
def emitInto (op : Arith) (s : Size) (rd rs : Reg) : List ArithIns :=
  if 0 < E.x86_reg rd then [.arith op s (.reg (E.gp rd)) (E.opnd rs)]
  else if 0 < E.x86_reg rs then [.arith op s (rbp_reg rd) (.reg (E.gp rs))]
  else [mov s (.reg rax) (rbp_reg rs), .arith op s (rbp_reg rd) (.reg rax)]

/-! ## Operations of two registers -/

def emit_auipc (dec : Operands) : List ArithIns :=
  if dec.rd = rv_ireg_x0 then []
  else if 0 < E.x86_reg dec.rd then [mov .qword (.reg (E.gp dec.rd)) (.imm (dec.pc + dec.disp))]
  else [mov .qword (rbp_reg dec.rd) (.imm (dec.pc + dec.disp))]

/-- The operations on registers that are not x0; `turned` is what is done where the operation was
made with its operands exchanged. -/
def emitBinary (op : Arith) (turned : List ArithIns) (dec : Operands) : List ArithIns :=
  if dec.rd = dec.rs1 then E.emitInto op .qword dec.rd dec.rs2
  else if dec.rd = dec.rs2 then E.emitInto op .qword dec.rd dec.rs1 ++ turned
  else if E.x86_reg dec.rd < 0 ∧ (E.x86_reg dec.rs1 < 0 ∨ E.x86_reg dec.rs2 < 0) then
    E.emit_mv_rax_rs1 dec ++ .arith op .qword (.reg rax) (E.opnd dec.rs2) :: emitRax dec.rd
  else
    E.emit_mv_rd_rs1 dec ++
    (if 0 < E.x86_reg dec.rd then [.arith op .qword (.reg (E.gp dec.rd)) (E.opnd dec.rs2)]
      else [.arith op .qword (rbp_reg dec.rd) (.reg (E.gp dec.rs2))])

def emit_add (dec : Operands) : List ArithIns :=
  if dec.rd = rv_ireg_x0 then []
  else if dec.rs1 = rv_ireg_x0 then E.emit_mv_rd_rs2 dec
  else if dec.rs2 = rv_ireg_x0 then E.emit_mv_rd_rs1 dec
  else E.emitBinary .add [] dec

def emit_sub (dec : Operands) : List ArithIns :=
  if dec.rd = rv_ireg_x0 then []
  else if dec.rs1 = rv_ireg_x0 then E.emit_mv_rd_rs2 dec ++ [.neg .qword (E.opnd dec.rd)]
  else if dec.rs2 = rv_ireg_x0 then E.emit_mv_rd_rs1 dec
  else E.emitBinary .sub [.neg .qword (E.opnd dec.rd)] dec

def emit_and (dec : Operands) : List ArithIns :=
  if dec.rd = rv_ireg_x0 then []
  else if dec.rs1 = rv_ireg_x0 ∨ dec.rs2 = rv_ireg_x0 then E.emit_zero_rd dec
  else E.emitBinary .and [] dec

/-- `emit_or` and `emit_xor`. -/
def emitUnion (op : Arith) (dec : Operands) : List ArithIns :=
  if dec.rd = rv_ireg_x0 then []
  else if dec.rs1 = rv_ireg_x0 ∧ dec.rs2 = rv_ireg_x0 then E.emit_zero_rd dec
  else if dec.rs1 = rv_ireg_x0 then E.emit_mv_rd_rs2 dec
  else if dec.rs2 = rv_ireg_x0 then E.emit_mv_rd_rs1 dec
  else E.emitBinary op [] dec

def emit_or := E.emitUnion .or

def emit_xor := E.emitUnion .xor

/-- `emit_addw` and `emit_subw` on registers that are not x0. -/
def emitBinaryW (op : Arith) (turned : List ArithIns) (dec : Operands) : List ArithIns :=
  if dec.rd = dec.rs1 then E.emitInto op .dword dec.rd dec.rs2 ++ E.emit_sx_32_rd dec
  else if dec.rd = dec.rs2 then
    E.emitInto op .dword dec.rd dec.rs1 ++ turned ++ E.emit_sx_32_rd dec
  else if E.x86_reg dec.rd < 0 then
    E.emit_mv_eax_rs1 dec ++ .arith op .dword (.reg rax) (E.opnd dec.rs2) :: emitEax dec.rd
  else
    E.emit_mv_rd_rs1 dec ++ .arith op .dword (.reg (E.gp dec.rd)) (E.opnd dec.rs2) ::
      E.emit_sx_32_rd dec

def emit_addw (dec : Operands) : List ArithIns :=
  if dec.rd = rv_ireg_x0 then []
  else if dec.rs1 = rv_ireg_x0 then E.emit_mv_rd_rs2_sx_32 dec
  else if dec.rs2 = rv_ireg_x0 then E.emit_mv_rd_rs1_sx_32 dec
  else E.emitBinaryW .add [] dec

def emit_subw (dec : Operands) : List ArithIns :=
  if dec.rd = rv_ireg_x0 then []
  else if dec.rs1 = rv_ireg_x0 then
    (if dec.rd = dec.rs2 then [] else E.emit_mv_rd_rs2 dec) ++ .neg .dword (E.opnd dec.rd) ::
      E.emit_sx_32_rd dec
  else if dec.rs2 = rv_ireg_x0 then E.emit_mv_rd_rs1_sx_32 dec
  else E.emitBinaryW .sub [.neg .dword (E.opnd dec.rd)] dec

/-! ## Multiplication -/

/-- `emit_mul` and `emit_mulw`; `fromRax` and `after` are what is done with the result. -/
def emitMul (s : Size) (fromRax after : List ArithIns) (dec : Operands) : List ArithIns :=
  if dec.rd = rv_ireg_x0 then []
  else if dec.rs1 = rv_ireg_x0 ∨ dec.rs2 = rv_ireg_x0 then E.emit_zero_rd dec
  else if dec.rd = dec.rs1 ∧ 0 < E.x86_reg dec.rd then
    .arith .imul s (.reg (E.gp dec.rd)) (E.opnd dec.rs2) :: after
  else if dec.rd = dec.rs2 ∧ 0 < E.x86_reg dec.rd then
    .arith .imul s (.reg (E.gp dec.rd)) (E.opnd dec.rs1) :: after
  else if E.x86_reg dec.rd < 0 then
    E.emitMvRax s dec ++ .arith .imul s (.reg rax) (E.opnd dec.rs2) :: fromRax
  else
    E.emit_mv_rd_rs1 dec ++ .arith .imul s (.reg (E.gp dec.rd)) (E.opnd dec.rs2) :: after

def emit_mul (dec : Operands) := E.emitMul .qword (emitRax dec.rd) [] dec

def emit_mulw (dec : Operands) := E.emitMul .dword
  (mov .dword (rbp_reg dec.rd) (.reg rax) :: E.emit_sx_32_rd dec) (E.emit_sx_32_rd dec) dec

/-- `rdx` is saved in the place of `ra`, which it holds. -/
def saveRdx : ArithIns := mov .qword (rbp_reg rv_ireg_ra) (.reg rdx)

def restoreRdx : ArithIns := mov .qword (.reg rdx) (rbp_reg rv_ireg_ra)

/-- The one-operand multiplication of `rax` by `rs2`. -/
def emitMulRs2 (signed : Bool) (dec : Operands) : List ArithIns :=
  if 0 < E.x86_reg dec.rs2 then [.mul signed (E.gp dec.rs2)]
  else [mov .qword (.reg rcx) (rbp_reg dec.rs2), .mul signed rcx]

/-- `rdx` to `rd`. -/
def emitRdx (dec : Operands) : List ArithIns :=
  if 0 < E.x86_reg dec.rd then
    if E.x86_reg dec.rd ≠ 2 then [mov .qword (.reg (E.gp dec.rd)) (.reg rdx)] else []
  else [mov .qword (rbp_reg dec.rd) (.reg rdx)]

/-- `emit_mulh` and `emit_mulhu`. -/
def emitMulHigh (signed : Bool) (dec : Operands) : List ArithIns :=
  if dec.rd = rv_ireg_x0 then []
  else if dec.rs1 = rv_ireg_x0 ∨ dec.rs2 = rv_ireg_x0 then E.emit_zero_rd dec
  else
    (if E.memory_registers = false ∧ E.x86_reg dec.rd ≠ 2 then [saveRdx] else []) ++
    E.emit_mv_rax_rs1 dec ++ E.emitMulRs2 signed dec ++ E.emitRdx dec ++
    (if E.memory_registers = false ∧ E.x86_reg dec.rd ≠ 2 then [restoreRdx] else [])

def emit_mulh := E.emitMulHigh true

def emit_mulhu := E.emitMulHigh false

/-! The labels of an operation. -/

def labelOut : ℕ := 0

def labelDiv1 : ℕ := 1

def labelDiv2 : ℕ := 2

def labelUmul : ℕ := 3

def emit_mulhsu (dec : Operands) : List ArithIns :=
  if dec.rd = rv_ireg_x0 then []
  else if dec.rs1 = rv_ireg_x0 ∨ dec.rs2 = rv_ireg_x0 then E.emit_zero_rd dec
  else
    (if E.memory_registers = false ∧
        (E.x86_reg dec.rd ≠ 2 ∨ E.x86_reg dec.rs1 = 2 ∨ E.x86_reg dec.rs2 = 2) then [saveRdx]
      else []) ++
    -- if rs1 is positive branch to umul
    E.emit_mv_rax_rs1 dec ++
    [.test .qword (.reg rax) (.reg rax), .jcc .ns labelUmul, .neg .qword (.reg rax)] ++
    -- multiply, negate and stash result in rcx
    E.emitMulRs2 false dec ++
    [.arith .xor .qword (.reg rdx) (.imm (-1)), mov .qword (.reg rcx) (.reg rdx)] ++
    -- if necessary restore rdx input operand
    (if E.memory_registers = false ∧ (E.x86_reg dec.rs1 = 2 ∨ E.x86_reg dec.rs2 = 2) then
        [restoreRdx]
      else []) ++
    -- second multiply
    E.emit_mv_rax_rs1 dec ++ .arith .imul .qword (.reg rax) (E.opnd dec.rs2) ::
    -- handle zero special case
    [.test .qword (.reg rax) (.reg rax), .setcc .e rdx, .ins (.movzx .byte rdx (.reg rdx)),
      .arith .add .qword (.reg rdx) (.reg rcx), .jmp labelOut] ++
    -- unsigned multiply
    .bind labelUmul :: E.emitMulRs2 false dec ++
    -- high result
    .bind labelOut :: E.emitRdx dec ++
    (if E.memory_registers = false ∧ E.x86_reg dec.rd ≠ 2 then [restoreRdx] else [])

/-! ## Division -/

/-- `rd` gets -1. -/
def emitOnes (dec : Operands) : List ArithIns := [mov .qword (E.opnd dec.rd) (.imm (-1))]

/-- `rdx` is kept in `rcx`. -/
def keepRdx (dec : Operands) : List ArithIns :=
  if E.x86_reg dec.rd ≠ 2 then [mov .qword (.reg rcx) (.reg rdx)] else []

def giveRdx (dec : Operands) : List ArithIns :=
  if E.x86_reg dec.rd ≠ 2 then [mov .qword (.reg rdx) (.reg rcx)] else []

/-- Whether `rs2` is zero. A register of the host is tested whole. -/
def emitTestRs2 (s : Size) (dec : Operands) : List ArithIns :=
  if 0 < E.x86_reg dec.rs2 then [.test .qword (.reg (E.gp dec.rs2)) (.reg (E.gp dec.rs2))]
  else [.cmp s (rbp_reg dec.rs2) (.imm 0)]

def intMin (s : Size) : BitVec 64 := (BitVec.intMin s.bits).signExtend 64

/-- The quotient in `rax` to `rd`. -/
def emitQuotient (s : Size) (dec : Operands) : List ArithIns :=
  if s = .qword then [mov .qword (E.opnd dec.rd) (.reg rax)]
  else if 0 < E.x86_reg dec.rd then [movsxd (E.gp dec.rd) (.reg rax)]
  else emitEax dec.rd

/-- The remainder in `rdx` to `rd`. -/
def emitRemainder (s : Size) (dec : Operands) : List ArithIns :=
  if s = .qword then E.emitRdx dec
  else if 0 < E.x86_reg dec.rd then [movsxd (E.gp dec.rd) (.reg rdx)]
  else [movsxd rdx (.reg rdx), mov .qword (rbp_reg dec.rd) (.reg rdx)]

/-- `emit_div` and `emit_divw`. -/
def emitDiv (s : Size) (dec : Operands) : List ArithIns :=
  if dec.rd = rv_ireg_x0 then []
  else if dec.rs2 = rv_ireg_x0 then E.emitOnes dec
  else if dec.rs1 = rv_ireg_x0 then E.emit_zero_rd dec
  else
    [mov s (.reg rax) (.imm (intMin s)), .cmp s (E.opnd dec.rs1) (.reg rax), .jcc .ne labelDiv1,
      .cmp s (E.opnd dec.rs2) (.imm (-1)), .jcc .e labelOut, .bind labelDiv1] ++
    E.emitTestRs2 s dec ++
    [.jcc .ne labelDiv2, mov s (.reg rax) (.imm (-1)), .jmp labelOut, .bind labelDiv2] ++
    E.emitMvRax s dec ++ E.keepRdx dec ++ [.widen s, .div true s (E.opnd dec.rs2)] ++
    E.giveRdx dec ++ .bind labelOut :: E.emitQuotient s dec

def emit_div := E.emitDiv .qword

def emit_divw := E.emitDiv .dword

/-- `emit_rem` and `emit_remw`. -/
def emitRem (s : Size) (dec : Operands) : List ArithIns :=
  if dec.rd = rv_ireg_x0 then []
  else if dec.rs2 = rv_ireg_x0 then E.emitOnes dec
  else if dec.rs1 = rv_ireg_x0 then E.emit_zero_rd dec
  else
    E.keepRdx dec ++
    [mov s (.reg rax) (.imm (intMin s)), .cmp s (E.opnd dec.rs1) (.reg rax), .jcc .ne labelDiv1,
      .arith .xor .dword (.reg rdx) (.reg rdx), .cmp s (E.opnd dec.rs2) (.imm (-1)),
      .jcc .e labelOut, .bind labelDiv1] ++
    E.emitMvRax s dec ++ E.emitTestRs2 s dec ++
    [.jcc .ne labelDiv2, mov s (.reg rdx) (.reg rax), .jmp labelOut, .bind labelDiv2, .widen s,
      .div true s (E.opnd dec.rs2), .bind labelOut] ++
    E.emitRemainder s dec ++ E.giveRdx dec

def emit_rem := E.emitRem .qword

def emit_remw := E.emitRem .dword

/-- `emit_divu` and `emit_divuw`. -/
def emitDivu (s : Size) (dec : Operands) : List ArithIns :=
  if dec.rd = rv_ireg_x0 then []
  else if dec.rs2 = rv_ireg_x0 then E.emitOnes dec
  else if dec.rs1 = rv_ireg_x0 then E.emit_zero_rd dec
  else
    E.emitTestRs2 s dec ++
    [.jcc .ne labelDiv1, mov s (.reg rax) (.imm (-1)), .jmp labelOut, .bind labelDiv1] ++
    E.emitMvRax s dec ++ E.keepRdx dec ++
    [.arith .xor s (.reg rdx) (.reg rdx), .div false s (E.opnd dec.rs2)] ++
    E.giveRdx dec ++ .bind labelOut :: E.emitQuotient s dec

def emit_divu := E.emitDivu .qword

def emit_divuw := E.emitDivu .dword

/-- `emit_remu` and `emit_remuw`. -/
def emitRemu (s : Size) (dec : Operands) : List ArithIns :=
  if dec.rd = rv_ireg_x0 then []
  else if dec.rs2 = rv_ireg_x0 then E.emitOnes dec
  else if dec.rs1 = rv_ireg_x0 then E.emit_zero_rd dec
  else
    E.keepRdx dec ++ E.emitMvRax s dec ++ E.emitTestRs2 s dec ++
    [.jcc .ne labelDiv1, mov s (.reg rdx) (.reg rax), .jmp labelOut, .bind labelDiv1,
      .arith .xor s (.reg rdx) (.reg rdx), .div false s (E.opnd dec.rs2), .bind labelOut] ++
    E.emitRemainder s dec ++ E.giveRdx dec

def emit_remu := E.emitRemu .qword

def emit_remuw := E.emitRemu .dword

/-! ## Comparison -/

/-- A flag to `rd`. -/
def emitFlag (cond : Cond) (dec : Operands) : List ArithIns :=
  .setcc cond rax ::
  (if 0 < E.x86_reg dec.rd then [.ins (.movzx .byte (E.gp dec.rd) (.reg rax))]
    else .ins (.movzx .byte rax (.reg rax)) :: emitRax dec.rd)

/-- `emit_slt` and `emit_sltu`. -/
def emitSlt (cond : Cond) (dec : Operands) : List ArithIns :=
  if dec.rd = rv_ireg_x0 then []
  else
    (if 0 < E.x86_reg dec.rs1 ∧ 0 < E.x86_reg dec.rs2 then
      [.cmp .qword (.reg (E.gp dec.rs1)) (.reg (E.gp dec.rs2))]
    else
      [if dec.rs1 = rv_ireg_x0 then .arith .xor .dword (.reg rax) (.reg rax)
        else mov .qword (.reg rax) (E.opnd dec.rs1),
        .cmp .qword (.reg rax) (if dec.rs2 = rv_ireg_x0 then .imm 0 else E.opnd dec.rs2)]) ++
    E.emitFlag cond dec

def emit_slt := E.emitSlt .l

def emit_sltu := E.emitSlt .b

/-! ## Shifts -/

/-- `emit_sll`, `emit_srl` and `emit_sra`. -/
def emitShift (op : ShiftOp) (dec : Operands) : List ArithIns :=
  if dec.rd = rv_ireg_x0 then []
  else if dec.rs1 = rv_ireg_x0 then E.emit_zero_rd dec
  else if dec.rs2 = 0 then E.emit_mv_rd_rs1 dec
  else if dec.rd = dec.rs1 then
    E.emit_mv_cl_rs2 dec ++ [.shift op .qword (E.opnd dec.rd) .cl]
  else if E.x86_reg dec.rd < 0 then
    E.emit_mv_cl_rs2 dec ++ E.emit_mv_rax_rs1 dec ++ .shift op .qword (.reg rax) .cl ::
      emitRax dec.rd
  else
    E.emit_mv_cl_rs2 dec ++ E.emit_mv_rd_rs1 dec ++ [.shift op .qword (.reg (E.gp dec.rd)) .cl]

def emit_sll := E.emitShift .shl

def emit_srl := E.emitShift .shr

def emit_sra := E.emitShift .sar

/-- `emit_sllw`, `emit_srlw` and `emit_sraw`. -/
def emitShiftW (op : ShiftOp) (dec : Operands) : List ArithIns :=
  if dec.rd = rv_ireg_x0 then []
  else if dec.rs1 = rv_ireg_x0 then E.emit_zero_rd dec
  else if dec.rs2 = 0 then E.emit_mv_rd_rs1_sx_32 dec
  else if dec.rd = dec.rs1 then
    E.emit_mv_cl_rs2 dec ++ .shift op .dword (E.opnd dec.rd) .cl :: E.emit_sx_32_rd dec
  else if E.x86_reg dec.rd < 0 then
    E.emit_mv_cl_rs2 dec ++ E.emit_mv_eax_rs1 dec ++ .shift op .dword (.reg rax) .cl ::
      emitEax dec.rd
  else
    E.emit_mv_cl_rs2 dec ++ E.emit_mv_rd_rs1_32 dec ++ .shift op .dword (.reg (E.gp dec.rd)) .cl ::
      E.emit_sx_32_rd dec

def emit_sllw := E.emitShiftW .shl

def emit_srlw := E.emitShiftW .shr

def emit_sraw := E.emitShiftW .sar

/-! ## Operations with an immediate -/

def emit_addi (dec : Operands) : List ArithIns :=
  if dec.rd = rv_ireg_x0 then []
  else if dec.rs1 = rv_ireg_x0 then
    if 0 < E.x86_reg dec.rd then
      if dec.imm ≠ 0 then [mov .qword (.reg (E.gp dec.rd)) (.imm dec.disp)]
      else [.arith .xor .qword (.reg (E.gp dec.rd)) (.reg (E.gp dec.rd))]
    else [mov .qword (rbp_reg dec.rd) (.imm dec.disp)]
  else if dec.rd = dec.rs1 then
    if dec.imm ≠ 0 then [.arith .add .qword (E.opnd dec.rd) (.imm dec.disp)] else []
  else if dec.imm = 0 then E.emit_mv_rd_rs1 dec
  else E.emit_mv_rd_rs1 dec ++ [.arith .add .qword (E.opnd dec.rd) (.imm dec.disp)]

/-- `emit_slti` and `emit_sltiu`; `result` is the comparison of zero with the immediate. -/
def emitSlti (cond : Cond) (result : Bool) (dec : Operands) : List ArithIns :=
  if dec.rd = rv_ireg_x0 then []
  else if dec.rs1 = rv_ireg_x0 then
    [mov .qword (E.opnd dec.rd) (.imm (if result then 1 else 0))]
  else .cmp .qword (E.opnd dec.rs1) (.imm dec.disp) :: E.emitFlag cond dec

def emit_slti (dec : Operands) := E.emitSlti .l (BitVec.slt 0 dec.disp) dec

def emit_sltiu (dec : Operands) := E.emitSlti .b (BitVec.ult 0 dec.disp) dec

/-- `emit_andi`, `emit_ori` and `emit_xori`; `ofZero` is what is done for x0. -/
def emitLogicImm (op : Arith) (ofZero : List ArithIns) (dec : Operands) : List ArithIns :=
  if dec.rd = rv_ireg_x0 then []
  else if dec.rs1 = rv_ireg_x0 then ofZero
  else if dec.rd = dec.rs1 then [.arith op .qword (E.opnd dec.rd) (.imm dec.disp)]
  else if E.x86_reg dec.rd < 0 then
    E.emit_mv_rax_rs1 dec ++ .arith op .qword (.reg rax) (.imm dec.disp) :: emitRax dec.rd
  else E.emit_mv_rd_rs1 dec ++ [.arith op .qword (E.opnd dec.rd) (.imm dec.disp)]

def emit_andi (dec : Operands) := E.emitLogicImm .and (E.emit_zero_rd dec) dec

def emit_ori (dec : Operands) := E.emitLogicImm .or [mov .qword (E.opnd dec.rd) (.imm dec.disp)] dec

def emit_xori (dec : Operands) :=
  E.emitLogicImm .xor [mov .qword (E.opnd dec.rd) (.imm dec.disp)] dec

/-- `emit_slli`, `emit_srli` and `emit_srai`. -/
def emitShiftImm (op : ShiftOp) (dec : Operands) : List ArithIns :=
  if dec.rd = rv_ireg_x0 then []
  else if dec.rs1 = rv_ireg_x0 then E.emit_zero_rd dec
  else if dec.rd = dec.rs1 then [.shift op .qword (E.opnd dec.rd) (.imm dec.imm.toNat)]
  else if E.x86_reg dec.rd < 0 then
    E.emit_mv_rax_rs1 dec ++ .shift op .qword (.reg rax) (.imm dec.imm.toNat) :: emitRax dec.rd
  else E.emit_mv_rd_rs1 dec ++ [.shift op .qword (E.opnd dec.rd) (.imm dec.imm.toNat)]

def emit_slli := E.emitShiftImm .shl

def emit_srli := E.emitShiftImm .shr

def emit_srai := E.emitShiftImm .sar

def emit_addiw (dec : Operands) : List ArithIns :=
  if dec.rd = rv_ireg_x0 then []
  else if dec.rs1 = rv_ireg_x0 then
    if 0 < E.x86_reg dec.rd then
      if dec.imm ≠ 0 then [mov .qword (.reg (E.gp dec.rd)) (.imm dec.disp)]
      else [.arith .xor .qword (.reg (E.gp dec.rd)) (.reg (E.gp dec.rd))]
    else
      (if dec.imm ≠ 0 then mov .qword (.reg rax) (.imm dec.disp)
        else .arith .xor .dword (.reg rax) (.reg rax)) :: emitRax dec.rd
  else if dec.rd = dec.rs1 then
    if 0 < E.x86_reg dec.rd then
      (if dec.imm ≠ 0 then [.arith .add .dword (.reg (E.gp dec.rd)) (.imm dec.disp)] else []) ++
      E.emit_sx_32_rd dec
    else if dec.imm ≠ 0 then
      mov .dword (.reg rax) (rbp_reg dec.rd) :: .arith .add .dword (.reg rax) (.imm dec.disp) ::
        emitEax dec.rd
    else movsxd rax (rbp_reg dec.rd) :: emitRax dec.rd
  else if E.x86_reg dec.rd < 0 then
    if dec.imm ≠ 0 then
      E.emit_mv_eax_rs1 dec ++ .arith .add .dword (.reg rax) (.imm dec.disp) :: emitEax dec.rd
    else movsxd rax (E.opnd dec.rs1) :: emitRax dec.rd
  else
    E.emit_mv_rd_rs1_32 dec ++
    (if dec.imm ≠ 0 then [.arith .add .dword (.reg (E.gp dec.rd)) (.imm dec.disp)] else []) ++
    E.emit_sx_32_rd dec

/-- `emit_slliw`, `emit_srliw` and `emit_sraiw`. -/
def emitShiftImmW (op : ShiftOp) (dec : Operands) : List ArithIns :=
  if dec.rd = rv_ireg_x0 then []
  else if dec.rs1 = rv_ireg_x0 then E.emit_zero_rd dec
  else if dec.rd = dec.rs1 then
    if 0 < E.x86_reg dec.rd then
      .shift op .dword (.reg (E.gp dec.rd)) (.imm dec.imm.toNat) :: E.emit_sx_32_rd dec
    else
      mov .dword (.reg rax) (rbp_reg dec.rd) :: .shift op .dword (.reg rax) (.imm dec.imm.toNat) ::
        emitEax dec.rd
  else if E.x86_reg dec.rd < 0 then
    E.emit_mv_eax_rs1 dec ++ .shift op .dword (.reg rax) (.imm dec.imm.toNat) :: emitEax dec.rd
  else
    E.emit_mv_rd_rs1_32 dec ++ .shift op .dword (.reg (E.gp dec.rd)) (.imm dec.imm.toNat) ::
      E.emit_sx_32_rd dec

def emit_slliw := E.emitShiftImmW .shl

def emit_srliw := E.emitShiftImmW .shr

def emit_sraiw := E.emitShiftImmW .sar

def emit_lui (dec : Operands) : List ArithIns :=
  if dec.rd = rv_ireg_x0 then [] else [mov .qword (E.opnd dec.rd) (.imm dec.disp)]

end EmitterRv64

/-! ## The operations -/

/-- The integer operations that are compiled. -/
inductive AluOp where
  | reg (op : RegOp)
  | imm (op : ImmOp)
  | lui
  | auipc
  deriving DecidableEq, Repr

def emitReg (E : EmitterRv64) : RegOp → Operands → List ArithIns
  | .add => E.emit_add
  | .sub => E.emit_sub
  | .sll => E.emit_sll
  | .slt => E.emit_slt
  | .sltu => E.emit_sltu
  | .xor => E.emit_xor
  | .srl => E.emit_srl
  | .sra => E.emit_sra
  | .or => E.emit_or
  | .and => E.emit_and
  | .addw => E.emit_addw
  | .subw => E.emit_subw
  | .sllw => E.emit_sllw
  | .srlw => E.emit_srlw
  | .sraw => E.emit_sraw
  | .mul => E.emit_mul
  | .mulh => E.emit_mulh
  | .mulhsu => E.emit_mulhsu
  | .mulhu => E.emit_mulhu
  | .div => E.emit_div
  | .divu => E.emit_divu
  | .rem => E.emit_rem
  | .remu => E.emit_remu
  | .mulw => E.emit_mulw
  | .divw => E.emit_divw
  | .divuw => E.emit_divuw
  | .remw => E.emit_remw
  | .remuw => E.emit_remuw

def emitImm (E : EmitterRv64) : ImmOp → Operands → List ArithIns
  | .addi => E.emit_addi
  | .slti => E.emit_slti
  | .sltiu => E.emit_sltiu
  | .xori => E.emit_xori
  | .ori => E.emit_ori
  | .andi => E.emit_andi
  | .slli => E.emit_slli
  | .srli => E.emit_srli
  | .srai => E.emit_srai
  | .addiw => E.emit_addiw
  | .slliw => E.emit_slliw
  | .srliw => E.emit_srliw
  | .sraiw => E.emit_sraiw

def emitAlu (E : EmitterRv64) : AluOp → Operands → List ArithIns
  | .reg op => emitReg E op
  | .imm op => emitImm E op
  | .lui => E.emit_lui
  | .auipc => E.emit_auipc

end RvCkpt.Jit
