import RvCkpt.Jit.GuestRun

/-! # Compiled jumps and fused operations

The emitters of branches, jumps and fused operations in `src/src/jit/jit-emitter-rv64.h`, up to where
control goes.
-/

namespace RvCkpt.Jit
open Isa
set_option autoImplicit false

namespace EmitterRv64
variable (E : EmitterRv64)

/-! ## Branches -/

/-- The comparison of a branch. -/
def emit_cmp (dec : Operands) : List ArithIns :=
  if dec.rs1 = rv_ireg_x0 then
    [.arith .xor .dword (.reg rax) (.reg rax), .cmp .qword (.reg rax) (E.opnd dec.rs2)]
  else if dec.rs2 = rv_ireg_x0 then [.cmp .qword (E.opnd dec.rs1) (.imm 0)]
  else if 0 < E.x86_reg dec.rs1 then [.cmp .qword (.reg (E.gp dec.rs1)) (E.opnd dec.rs2)]
  else if 0 < E.x86_reg dec.rs2 then [.cmp .qword (rbp_reg dec.rs1) (.reg (E.gp dec.rs2))]
  else [mov .qword (.reg rax) (rbp_reg dec.rs1), .cmp .qword (.reg rax) (rbp_reg dec.rs2)]

/-! ## Jumps -/

/-- A number of 64 bits to a register. -/
def emitConst (rd : Reg) (v : BitVec 64) : List ArithIns :=
  if 0 < E.x86_reg rd then [mov .qword (.reg (E.gp rd)) (.imm v)]
  else [mov .qword (.reg rax) (.imm v), mov .qword (rbp_reg rd) (.reg rax)]

/-- The address behind a jump to `rd`. -/
def emitLink (rd : Reg) (link_addr : BitVec 64) : List ArithIns :=
  if rd = rv_ireg_x0 then [] else E.emitConst rd link_addr

def emit_jal (dec : JitDecode) : List ArithIns := E.emitLink dec.operands.rd dec.cont_pc

/-- The comparison of `ra` with where a return is assumed to go. The immediate of a comparison is a
sign-extended 32-bit number. -/
def emitGuard (rs1 : Reg) (link_addr : BitVec 64) : List ArithIns :=
  if 0 < E.x86_reg rs1 then
    if link_addr < 0xffffffff then
      [.cmp .qword (.reg (E.gp rs1)) (.imm ((link_addr.setWidth 32).signExtend 64))]
    else [mov .qword (.reg rax) (.imm link_addr), .cmp .qword (.reg (E.gp rs1)) (.reg rax)]
  else [mov .qword (.reg rax) (.imm link_addr), .cmp .qword (rbp_reg rs1) (.reg rax)]

/-- The target of an indirect jump to the pc. That of a jump relative to x0 is not stored. -/
def emitTarget (dec : Operands) : List ArithIns :=
  if dec.rs1 = rv_ireg_x0 then
    if dec.imm = 0 then [.arith .xor .dword (.reg rax) (.reg rax)]
    else [mov .dword (.reg rax) (.imm dec.disp)]
  else if 0 < E.x86_reg dec.rs1 then
    if dec.imm = 0 then [mov .qword (.field .pc) (.reg (E.gp dec.rs1))]
    else [.ins (.lea rax (E.gp dec.rs1) dec.disp), mov .qword (.field .pc) (.reg rax)]
  else
    [mov .qword (.reg rax) (rbp_reg dec.rs1), .arith .add .qword (.reg rax) (.imm dec.disp),
      mov .qword (.field .pc) (.reg rax)]

/-- `emit_jalr` where no return is assumed. -/
def emit_jalr (dec : JitDecode) : List ArithIns :=
  E.emitTarget dec.operands ++ E.emitLink dec.operands.rd dec.cont_pc

/-! ## Fused operations -/

def emit_la (dec : JitDecode) : List ArithIns := E.emitLink dec.operands.rd dec.branch_pc

/-- The address behind the operation. -/
def link_addr (dec : JitDecode) : BitVec 64 := dec.pc + dec.sz.zeroExtend 64

def emit_call (dec : JitDecode) : List ArithIns :=
  let rd := dec.operands.rd
  let rs1 := dec.operands.rs1
  (if rd = Isa.rv_ireg_ra then []
    else if 0 < E.x86_reg rd then [mov .qword (.reg (E.gp rd)) (.imm dec.branch_pc)]
    -- the place of `rs1`, which is x0
    else [mov .qword (.reg rax) (.imm dec.branch_pc), mov .qword (rbp_reg rs1) (.reg rax)]) ++
  (if 0 < E.x86_reg Isa.rv_ireg_ra then
      [mov .qword (.reg (E.gp Isa.rv_ireg_ra)) (.imm (link_addr dec))]
    else [mov .qword (.reg rax) (.imm (link_addr dec)), mov .qword (rbp_reg rd) (.reg rax)])

def emit_zextw (dec : JitDecode) : List ArithIns :=
  let o := dec.operands
  if 0 < E.x86_reg o.rd then [mov .dword (.reg (E.gp o.rd)) (E.opnd o.rs1)]
  else mov .dword (.reg rax) (E.opnd o.rs1) :: emitRax o.rd

/-- `none` where the assembler has no encoding: `movzx` of a 32-bit register. -/
def emit_addiwz (dec : JitDecode) : Option (List ArithIns) :=
  let o := dec.operands
  if o.rd = rv_ireg_x0 then some []
  else if 0 < E.x86_reg o.rd then none
  else
    some (mov .dword (.reg rax) (rbp_reg o.rd) :: .arith .add .dword (.reg rax) (.imm o.disp) ::
      emitRax o.rd)

/-- A register of the host to a guest register. -/
def emitWhole (s : Size) (rd : Reg) (r : Gpr) : List ArithIns :=
  if s = .qword then [mov .qword (E.opnd rd) (.reg r)]
  else if 0 < E.x86_reg rd then [movsxd (E.gp rd) (.reg r)]
  else [movsxd r (.reg r), mov .qword (rbp_reg rd) (.reg r)]

/-- The rotations; `inHost` and `inMem` are the shifts that the rest in `rs2` is made with. -/
def emitRotate (s : Size) (residual inHost inMem : ShiftOp) (amount : ℕ) (dec : JitDecode) :
    List ArithIns :=
  let o := dec.operands
  if o.rd = o.rs1 ∨ o.rs2 = o.rs1 then
    mov s (.reg rcx) (E.opnd o.rs1) ::
      mov s (.reg rax) (if 0 < E.x86_reg o.rs1 then .reg (E.gp o.rs1) else .reg rcx) ::
      .shift residual s (.reg rcx) (.imm amount) :: .shift .ror s (.reg rax) (.imm o.imm.toNat) ::
      (E.emitWhole s o.rs2 rcx ++ E.emitWhole s o.rd rax)
  else
    (if 0 < E.x86_reg o.rs2 then
      mov s (.reg (E.gp o.rs2)) (E.opnd o.rs1) ::
        .shift inHost s (.reg (E.gp o.rs2)) (.imm amount) ::
        (if s = .dword then [movsxd (E.gp o.rs2) (.reg (E.gp o.rs2))] else [])
    else E.emitMvRax s o ++ .shift inMem s (.reg rax) (.imm amount) :: E.emitWhole s o.rs2 rax) ++
    (if 0 < E.x86_reg o.rd then
      (if s = .dword then E.emit_mv_rd_rs1_sx_32 o else E.emit_mv_rd_rs1 o) ++
        .shift .ror s (.reg (E.gp o.rd)) (.imm o.imm.toNat) ::
        (if s = .dword then E.emit_sx_32_rd o else [])
    else E.emitMvRax s o ++ .shift .ror s (.reg rax) (.imm o.imm.toNat) :: E.emitWhole s o.rd rax)

def emit_rorwi_rr (dec : JitDecode) := E.emitRotate .dword .shr .shr .sar dec.imm.toNat dec

def emit_rorwi_lr (dec : JitDecode) := E.emitRotate .dword .shl .shl .shl (32 - dec.imm).toNat dec

def emit_rordi_rr (dec : JitDecode) := E.emitRotate .qword .shr .sar .shr dec.imm.toNat dec

def emit_rordi_lr (dec : JitDecode) := E.emitRotate .qword .shl .shl .shl (64 - dec.imm).toNat dec

end EmitterRv64

/-- The code of a fused operation that does not access memory. -/
def emitFused (E : EmitterRv64) (dec : JitDecode) : Option (List ArithIns) :=
  match dec.op with
  | .la => some (E.emit_la dec)
  | .call => some (E.emit_call dec)
  | .zextw => some (E.emit_zextw dec)
  | .addiwz => E.emit_addiwz dec
  | .rorwi_rr => some (E.emit_rorwi_rr dec)
  | .rorwi_lr => some (E.emit_rorwi_lr dec)
  | .rordi_rr => some (E.emit_rordi_rr dec)
  | .rordi_lr => some (E.emit_rordi_lr dec)
  | _ => none

end RvCkpt.Jit
