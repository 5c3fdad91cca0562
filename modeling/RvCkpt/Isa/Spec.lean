import RvCkpt.Isa.Inst
import RvCkpt.Lib.Bytes
import Mathlib.Logic.Function.Basic

/-! # The integer instructions of the architecture

What the instructions of the I and M extensions compute, for registers of any width. Arithmetic is
on the numbers that the registers stand for; a word form is the operation on the low 32 bits, its
result extended with its sign.
-/

namespace RvCkpt.Isa
open ByteMem
set_option autoImplicit false

/-! ## Results -/

section Results
variable {w : ℕ}

def flag (b : Bool) : BitVec w := if b then 1 else 0

def BranchOp.holds (op : BranchOp) (x y : BitVec w) : Bool :=
  match op with
  | .beq => decide (x = y)
  | .bne => decide (x ≠ y)
  | .blt => decide (x.toInt < y.toInt)
  | .bge => decide (y.toInt ≤ x.toInt)
  | .bltu => decide (x.toNat < y.toNat)
  | .bgeu => decide (y.toNat ≤ x.toNat)

def quotient (x y : BitVec w) : BitVec w :=
  if y = 0 then BitVec.ofInt w (-1)
  else if x = BitVec.intMin w ∧ y = BitVec.ofInt w (-1) then BitVec.intMin w
  else BitVec.ofInt w (x.toInt.tdiv y.toInt)

def remainder (x y : BitVec w) : BitVec w :=
  if y = 0 then x
  else if x = BitVec.intMin w ∧ y = BitVec.ofInt w (-1) then 0
  else BitVec.ofInt w (x.toInt.tmod y.toInt)

def quotientU (x y : BitVec w) : BitVec w :=
  if y = 0 then BitVec.ofInt w (-1) else BitVec.ofNat w (x.toNat / y.toNat)

def remainderU (x y : BitVec w) : BitVec w :=
  if y = 0 then x else BitVec.ofNat w (x.toNat % y.toNat)

/-- The operation on operands of its own width, a word form like the one without the suffix. -/
def RegOp.compute (op : RegOp) (x y : BitVec w) : BitVec w :=
  match op with
  | .add | .addw => BitVec.ofInt w (x.toInt + y.toInt)
  | .sub | .subw => BitVec.ofInt w (x.toInt - y.toInt)
  | .sll | .sllw => x <<< (y.toNat % w)
  | .slt => flag (decide (x.toInt < y.toInt))
  | .sltu => flag (decide (x.toNat < y.toNat))
  | .xor => x ^^^ y
  | .srl | .srlw => x >>> (y.toNat % w)
  | .sra | .sraw => x.sshiftRight (y.toNat % w)
  | .or => x ||| y
  | .and => x &&& y
  | .mul | .mulw => BitVec.ofInt w (x.toInt * y.toInt)
  | .mulh => BitVec.ofInt w (x.toInt * y.toInt / 2 ^ w)
  | .mulhsu => BitVec.ofInt w (x.toInt * y.toNat / 2 ^ w)
  | .mulhu => BitVec.ofNat w (x.toNat * y.toNat / 2 ^ w)
  | .div | .divw => quotient x y
  | .divu | .divuw => quotientU x y
  | .rem | .remw => remainder x y
  | .remu | .remuw => remainderU x y

def RegOp.isWord : RegOp → Bool
  | .addw | .subw | .sllw | .srlw | .sraw | .mulw | .divw | .divuw | .remw | .remuw => true
  | _ => false

def RegOp.result (op : RegOp) (x y : BitVec w) : BitVec w :=
  if op.isWord then (op.compute (x.truncate 32) (y.truncate 32)).signExtend w else op.compute x y

def ImmOp.compute (op : ImmOp) (x : BitVec w) (imm : BitVec 32) : BitVec w :=
  match op with
  | .addi | .addiw => BitVec.ofInt w (x.toInt + imm.toInt)
  | .slti => flag (decide (x.toInt < imm.toInt))
  | .sltiu => flag (decide (x.toNat < (imm.signExtend w).toNat))
  | .xori => x ^^^ imm.signExtend w
  | .ori => x ||| imm.signExtend w
  | .andi => x &&& imm.signExtend w
  | .slli | .slliw => x <<< (imm.toNat % w)
  | .srli | .srliw => x >>> (imm.toNat % w)
  | .srai | .sraiw => x.sshiftRight (imm.toNat % w)

def ImmOp.isWord : ImmOp → Bool
  | .addiw | .slliw | .srliw | .sraiw => true
  | _ => false

def ImmOp.result (op : ImmOp) (x : BitVec w) (imm : BitVec 32) : BitVec w :=
  if op.isWord then (op.compute (x.truncate 32) imm).signExtend w else op.compute x imm

end Results

/-! ## Transitions -/

def LoadOp.width : LoadOp → ℕ
  | .lb | .lbu => 8
  | .lh | .lhu => 16
  | .lw | .lwu => 32
  | .ld => 64

def LoadOp.isUnsigned : LoadOp → Bool
  | .lbu | .lhu | .lwu => true
  | _ => false

def LoadOp.result {w : ℕ} (op : LoadOp) (m : Mem) (addr : ℕ) : BitVec w :=
  let bits := (m.read addr (op.width / 8)).truncate op.width
  if op.isUnsigned then bits.zeroExtend w else bits.signExtend w

def StoreOp.width : StoreOp → ℕ
  | .sb => 8
  | .sh => 16
  | .sw => 32
  | .sd => 64

/-- The part of a processor that the integer instructions work on. -/
structure Core (w : ℕ) where
  pc : BitVec w
  ireg : Reg → BitVec w
  mem : Mem

namespace Core
variable {w : ℕ}

def write (c : Core w) (rd : Reg) (v : BitVec w) : Core w :=
  if rd = rv_ireg_x0 then c else { c with ireg := Function.update c.ireg rd v }

def goto (c : Core w) (pc : BitVec w) : Core w := { c with pc := pc }

def store (c : Core w) (addr bytes : ℕ) (v : BitVec w) : Core w :=
  { c with mem := c.mem.write addr bytes (v.zeroExtend 64) }

/-- The processor after an instruction of `length` bytes. -/
def next (c : Core w) (dec : Decode) (length : ℕ) : Core w :=
  let imm := dec.imm.signExtend w
  let x := c.ireg dec.rs1
  let y := c.ireg dec.rs2
  let behind := c.pc + BitVec.ofNat w length
  match dec.op with
  | .lui => (c.write dec.rd imm).goto behind
  | .auipc => (c.write dec.rd (c.pc + imm)).goto behind
  | .jal => (c.write dec.rd behind).goto (c.pc + imm)
  | .jalr => (c.write dec.rd behind).goto ((x + imm) &&& ~~~1#w)
  | .branch op => c.goto (if op.holds x y then c.pc + imm else behind)
  | .load op => (c.write dec.rd (op.result c.mem (x + imm).toNat)).goto behind
  | .store op => (c.store (x + imm).toNat (op.width / 8) y).goto behind
  | .imm op => (c.write dec.rd (op.result x dec.imm)).goto behind
  | .reg op => (c.write dec.rd (op.result x y)).goto behind
  | _ => c

/-- A state of the architecture: x0 is zero and instructions lie at even addresses. -/
structure Valid (c : Core w) : Prop where
  x0 : c.ireg rv_ireg_x0 = 0
  even : 2 ∣ c.pc.toNat

end Core

/-! ## The instructions of a width -/

/-- The instructions of the I and M extensions that work on the core alone. -/
def Op.isInteger : Op → Bool
  | .lui | .auipc | .jal | .jalr | .branch _ | .load _ | .store _ | .imm _ | .reg _ => true
  | _ => false

/-- The instructions that RV64 adds. -/
def Op.needs64 : Op → Bool
  | .load .lwu | .load .ld | .store .sd => true
  | .imm op => op.isWord
  | .reg op => op.isWord
  | _ => false

/-- The shift amount is below the width that is shifted, and what is added to the program counter
is even. -/
def Encodable (w : ℕ) (dec : Decode) : Prop :=
  match dec.op with
  | .jal | .branch _ => 2 ∣ dec.imm.toNat
  | .imm .slli | .imm .srli | .imm .srai => dec.imm.toNat < w
  | .imm .slliw | .imm .srliw | .imm .sraiw => dec.imm.toNat < 32
  | _ => True

instance (w : ℕ) (dec : Decode) : Decidable (Encodable w dec) := by
  unfold Encodable
  split <;> infer_instance

end RvCkpt.Isa
