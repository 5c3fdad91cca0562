import RvCkpt.Asm.Assembler
import RvCkpt.Asm.Model
import RvCkpt.Priv.Hart

/-! # The tracer

The decoded instructions of the compiler (`src/src/jit/jit-decode.h`), `supported_ops` of its two
instruction sets, and `jit_tracer` of `src/src/jit/jit-tracer.h`.
-/

namespace RvCkpt.Jit
open Asm Priv
set_option autoImplicit false

/-! ## Decoded instructions -/

/-- `jit_op`, beside the operations of the instruction set. -/
inductive JitOp where
  | rv (op : Asm.Op)
  | la | call | zextw | addiwz | rorwi_rr | rorwi_lr | rordi_rr | rordi_lr | auipc_lw | auipc_ld
  deriving DecidableEq, Repr

/-- `jit_decode` -/
structure JitDecode where
  pc : BitVec 64
  inst : BitVec 64
  imm : BitVec 32
  op : JitOp
  rd : BitVec 8
  rs1 : BitVec 8
  rs2 : BitVec 8
  brt : Bool
  brc : Bool
  sz : BitVec 4
  deriving DecidableEq, Repr

def rv_ireg_zero : BitVec 8 := 0

def rv_ireg_ra : BitVec 8 := 1

/-- The constructor for a fused operation. -/
def pseudo (pc inst : BitVec 64) (op : JitOp) (rd rs1 rs2 : BitVec 8) (imm : BitVec 64) (sz : ℕ) :
    JitDecode :=
  ⟨pc, inst, imm.truncate 32, op, rd, rs1, rs2, false, false, BitVec.ofNat 4 sz⟩

def Model.ofXlen : Xlen → Asm.Model
  | .rv32 => ⟨.rv32, RV_IMAFDC⟩
  | .rv64 => ⟨.rv64, RV_IMAFDC⟩

/-- `inst_decode` of a new `jit_decode`, whose `pc` and `inst` are then set. -/
def jitDecode (xl : Xlen) (pc : xl.UX) (inst : BitVec 64) : JitDecode :=
  let dec := (Model.ofXlen xl).inst_decode Decode.init inst
  ⟨pc.setWidth 64, inst, dec.imm, .rv dec.op, dec.rd, dec.rs1, dec.rs2, false, false, 0⟩

namespace JitDecode

def branch_pc (dec : JitDecode) : BitVec 64 := dec.pc + dec.imm.signExtend 64

def cont_pc (dec : JitDecode) : BitVec 64 := dec.pc + BitVec.ofNat 64 (inst_length dec.inst)

end JitDecode

/-! ## Supported operations -/

def jit_isa_rv32 : List JitOp :=
  [.rv .auipc, .rv .add, .rv .sub, .rv .mul, .rv .mulh, .rv .mulhu, .rv .mulhsu, .rv .div, .rv .rem,
    .rv .divu, .rv .remu, .rv .slt, .rv .sltu, .rv .and, .rv .or, .rv .xor, .rv .sll, .rv .srl,
    .rv .sra, .rv .addi, .rv .slti, .rv .sltiu, .rv .andi, .rv .ori, .rv .xori, .rv .slli,
    .rv .srli, .rv .srai, .rv .bne, .rv .beq, .rv .blt, .rv .bge, .rv .bltu, .rv .bgeu, .rv .lw,
    .rv .lh, .rv .lhu, .rv .lb, .rv .lbu, .rv .sw, .rv .sh, .rv .sb, .rv .lui, .rv .jal, .rv .jalr,
    .la, .call, .zextw, .addiwz, .auipc_lw]

def jit_isa_rv64 : List JitOp :=
  [.rv .auipc, .rv .add, .rv .sub, .rv .mul, .rv .mulh, .rv .mulhu, .rv .mulhsu, .rv .div, .rv .rem,
    .rv .divu, .rv .remu, .rv .slt, .rv .sltu, .rv .and, .rv .or, .rv .xor, .rv .sll, .rv .srl,
    .rv .sra, .rv .addw, .rv .subw, .rv .mulw, .rv .divw, .rv .remw, .rv .divuw, .rv .remuw,
    .rv .sllw, .rv .srlw, .rv .sraw, .rv .addi, .rv .slti, .rv .sltiu, .rv .andi, .rv .ori,
    .rv .xori, .rv .slli, .rv .srli, .rv .srai, .rv .addiw, .rv .slliw, .rv .srliw, .rv .sraiw,
    .rv .bne, .rv .beq, .rv .blt, .rv .bge, .rv .bltu, .rv .bgeu, .rv .ld, .rv .lw, .rv .lwu,
    .rv .lh, .rv .lhu, .rv .lb, .rv .lbu, .rv .sd, .rv .sw, .rv .sh, .rv .sb, .rv .lui, .rv .jal,
    .rv .jalr, .la, .call, .zextw, .addiwz, .rorwi_rr, .rorwi_lr, .rordi_rr, .rordi_lr, .auipc_lw,
    .auipc_ld]

def supported_ops : Xlen → List JitOp
  | .rv32 => jit_isa_rv32
  | .rv64 => jit_isa_rv64

/-! ## Tracing -/

/-- The integer registers. -/
abbrev Ireg (xl : Xlen) := Fin 32 → xl.UX

structure Tracer where
  labels : List (BitVec 64 × ℕ)
  callstack : List (BitVec 64)
  trace : List JitDecode
  inst_num : ℕ
  deriving DecidableEq

/-- The constructor of `jit_tracer`. -/
def Tracer.init : Tracer := ⟨[], [], [], 0⟩

def branchOp : JitOp → Option Isa.BranchOp
  | .rv .bne => some .bne
  | .rv .beq => some .beq
  | .rv .blt => some .blt
  | .rv .bge => some .bge
  | .rv .bltu => some .bltu
  | .rv .bgeu => some .bgeu
  | _ => none

/-- The condition of a branch. -/
def branchTaken {w : ℕ} (a b : BitVec w) : Isa.BranchOp → Bool
  | .bne => a != b
  | .beq => a == b
  | .blt => a.slt b
  | .bge => !a.slt b
  | .bltu => a.ult b
  | .bgeu => !a.ult b

namespace Tracer

def push (t : Tracer) (dec : JitDecode) : Tracer := { t with trace := t.trace ++ [dec] }

/-- The instruction at a label is the target of a branch. -/
def markTarget (t : Tracer) (pc : BitVec 64) : Tracer :=
  match t.labels.lookup pc with
  | some i => { t with trace := t.trace.modify i fun dec => { dec with brt := true } }
  | none => t

variable {xl : Xlen}

/-- What `emit` does after it has labelled the instruction. -/
def follow (ireg : Ireg xl) (t : Tracer) (dec : JitDecode) : Tracer × Bool :=
  match dec.op with
  | .call => ({ t with callstack := (dec.pc + dec.sz.zeroExtend 64) :: t.callstack }.push dec, true)
  | .rv .jal =>
    let t := if dec.rd = rv_ireg_ra then { t with callstack := dec.cont_pc :: t.callstack } else t
    (t.push dec, true)
  | .rv .jalr =>
    if dec.rd = rv_ireg_zero ∧ dec.rs1 = rv_ireg_ra ∧ t.callstack ≠ [] then
      ({ t with callstack := t.callstack.tail }.push dec, true)
    else
      let t := if dec.rd = rv_ireg_ra then { t with callstack := dec.cont_pc :: t.callstack } else t
      (t.push dec, false)
  | op =>
    match branchOp op with
    | some b =>
      let x := ireg (Fin.ofNat 32 dec.rs1.toNat)
      let y := ireg (Fin.ofNat 32 dec.rs2.toNat)
      let dec := { dec with brc := branchTaken x y b }
      (((t.markTarget dec.branch_pc).markTarget dec.cont_pc).push dec, true)
    | none => if op ∈ supported_ops xl then (t.push dec, true) else (t, false)

/-- `jit_tracer::emit` -/
def emit (ireg : Ireg xl) (t : Tracer) (dec : JitDecode) : Tracer × Bool :=
  match t.labels.lookup dec.pc with
  | some _ => (t, false)
  | none =>
    follow ireg { t with labels := (dec.pc, t.inst_num) :: t.labels, inst_num := t.inst_num + 1 } dec

/-! ## Labels -/

@[simp] theorem push_labels (t : Tracer) (dec : JitDecode) : (t.push dec).labels = t.labels := rfl

@[simp] theorem markTarget_labels (t : Tracer) (pc : BitVec 64) :
    (t.markTarget pc).labels = t.labels := by
  unfold markTarget
  split <;> rfl

theorem follow_labels (ireg : Ireg xl) (t : Tracer) (dec : JitDecode) :
    (follow ireg t dec).1.labels = t.labels := by
  unfold follow
  split
  · rfl
  · by_cases hra : dec.rd = rv_ireg_ra <;> simp [hra]
  · split
    · rfl
    · by_cases hra : dec.rd = rv_ireg_ra <;> simp [hra]
  · split
    · simp
    · split <;> rfl

/-- An instruction that is not refused gets a new label. -/
theorem emit_labels (ireg : Ireg xl) (t : Tracer) (dec : JitDecode) :
    t.labels.lookup dec.pc = none ∧
        (t.emit ireg dec).1.labels = (dec.pc, t.inst_num) :: t.labels ∨
      t.emit ireg dec = (t, false) := by
  unfold emit
  cases hlabel : t.labels.lookup dec.pc with
  | some i => exact .inr rfl
  | none => exact .inl ⟨rfl, follow_labels _ _ _⟩

end Tracer

end RvCkpt.Jit
