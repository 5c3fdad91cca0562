import Mathlib.Data.Nat.Notation
import Mathlib.Algebra.GroupWithZero.Nat
import Mathlib.Data.Fin.Basic

/-! # Decoded instructions

The operations that `exec_inst_rv64` and `inst_priv` execute, grouped by what they do, and the
record `decode` of `src/src/asm/codec.h`. Whatever else the opcode table holds is `illegal` here:
the interpreter rejects it.
-/

namespace RvCkpt.Isa
set_option autoImplicit false

abbrev Reg := Fin 32

instance regsNeZero : NeZero 32 := ⟨by decide⟩

def rv_ireg_x0 : Reg := 0

def rv_ireg_ra : Reg := 1

def rv_ireg_sp : Reg := 2

def rv_ireg_a0 : Reg := 10

inductive BranchOp where
  | beq | bne | blt | bge | bltu | bgeu
  deriving DecidableEq, Repr

inductive LoadOp where
  | lb | lh | lw | lbu | lhu | lwu | ld
  deriving DecidableEq, Repr

inductive StoreOp where
  | sb | sh | sw | sd
  deriving DecidableEq, Repr

inductive ImmOp where
  | addi | slti | sltiu | xori | ori | andi | slli | srli | srai
  | addiw | slliw | srliw | sraiw
  deriving DecidableEq, Repr

inductive RegOp where
  | add | sub | sll | slt | sltu | xor | srl | sra | or | and
  | addw | subw | sllw | srlw | sraw
  | mul | mulh | mulhsu | mulhu | div | divu | rem | remu
  | mulw | divw | divuw | remw | remuw
  deriving DecidableEq, Repr

inductive AmoOp where
  | amoswap | amoadd | amoxor | amoor | amoand | amomin | amomax | amominu | amomaxu
  deriving DecidableEq, Repr

/-- The suffix of an atomic operation. -/
inductive AmoWidth where
  | w | d
  deriving DecidableEq, Repr

/-- The suffix of a floating-point operation. -/
inductive Prec where
  | s | d
  deriving DecidableEq, Repr

/-- The integer formats of the conversions. -/
inductive IntFmt where
  | w | wu | l | lu
  deriving DecidableEq, Repr

inductive FmaOp where
  | fmadd | fmsub | fnmsub | fnmadd
  deriving DecidableEq, Repr

inductive FArithOp where
  | fadd | fsub | fmul | fdiv
  deriving DecidableEq, Repr

inductive FSgnOp where
  | fsgnj | fsgnjn | fsgnjx
  deriving DecidableEq, Repr

inductive FMinMaxOp where
  | fmin | fmax
  deriving DecidableEq, Repr

inductive FCmpOp where
  | fle | flt | feq
  deriving DecidableEq, Repr

inductive CsrOp where
  | csr_rw | csr_rs | csr_rc
  deriving DecidableEq, Repr

/-- The operations that may raise exception flags. -/
inductive FpOp where
  | fma (op : FmaOp) (p : Prec)
  | farith (op : FArithOp) (p : Prec)
  | fsqrt (p : Prec)
  | fminmax (op : FMinMaxOp) (p : Prec)
  | fcmp (op : FCmpOp) (p : Prec)
  | fcvtToInt (f : IntFmt) (p : Prec)
  | fcvtOfInt (p : Prec) (f : IntFmt)
  | fcvt_s_d
  | fcvt_d_s
  deriving DecidableEq, Repr

inductive Op where
  | illegal
  | lui | auipc | jal | jalr
  | branch (op : BranchOp)
  | load (op : LoadOp)
  | store (op : StoreOp)
  | imm (op : ImmOp)
  | reg (op : RegOp)
  | lr (width : AmoWidth)
  | sc (width : AmoWidth)
  | amo (op : AmoOp) (width : AmoWidth)
  | fload (p : Prec)
  | fstore (p : Prec)
  | fp (op : FpOp)
  | fsgn (op : FSgnOp) (p : Prec)
  /-- `fmv_x_s` and `fmv_x_d`. -/
  | fmvToInt (p : Prec)
  /-- `fmv_s_x` and `fmv_d_x`. -/
  | fmvOfInt (p : Prec)
  | fclass (p : Prec)
  | fence | fence_i
  | ecall
  /-- `csrrw`, `csrrs`, `csrrc`; with `uimm` the forms whose value is the number `rs1`. -/
  | csr (op : CsrOp) (uimm : Bool)
  deriving DecidableEq, Repr

structure Decode where
  op : Op
  rd : Reg
  rs1 : Reg
  rs2 : Reg
  rs3 : Reg
  imm : BitVec 32
  rm : BitVec 3
  deriving DecidableEq, Repr

/-- `get_rd` of `src/src/emu/processor-impl.h`: the register whose value can be injected in place
of the instruction, `none` for -1. -/
def get_rd (dec : Decode) : Option Reg :=
  match dec.op with
  | .imm _ | .lui | .auipc | .reg _ | .load _ =>
    if dec.rd = rv_ireg_x0 then some rv_ireg_a0 else some dec.rd
  | _ => none

end RvCkpt.Isa
