import RvCkpt.Isa.Alu
import RvCkpt.Isa.Spec

/-! # The 32-bit interpreter

The integer instructions of `exec_inst_rv32` (`src/src/emu/interp-softfloat.h`) and the upper halves
of products that it takes from `src/src/asm/alu.h`.
-/

namespace RvCkpt.Isa
open ByteMem
set_option autoImplicit false

/-! ## Upper halves of products (`src/src/asm/alu.h`) -/

section MulHigh
variable {w : ℕ}

/-- `h1` and `l1`: the two words of a product, from four products of half words. -/
def mulWords (x y : BitVec w) : BitVec w × BitVec w :=
  let qb := w / 2
  let mask := (1#w <<< qb) - 1
  let x0 := x &&& mask
  let x1 := (x >>> qb) &&& mask
  let y0 := y &&& mask
  let y1 := (y >>> qb) &&& mask
  let z0 := x0 * y0
  let z1 := x1 * y0
  let z2 := x0 * y1
  let z3 := x1 * y1
  let z4 := z1 + (z0 >>> qb)
  let c1 := z2 + (z4 &&& mask)
  (z3 + (z4 >>> qb) + (c1 >>> qb), (c1 <<< qb) + (z0 &&& mask))

/-- `xs`: 1 for a negative number. -/
def signWord (x : BitVec w) : BitVec w := if x.slt 0 then 1 else 0

/-- `xu`: the absolute value. -/
def absWord (x : BitVec w) : BitVec w := (~~~signWord x + 1) ^^^ (x - signWord x)

/-- The upper word of a product whose sign is `rs`. -/
def signedHigh (rs : BitVec w) (words : BitVec w × BitVec w) : BitVec w :=
  let l2 := words.2 - rs
  let hb : BitVec w := if words.2 < l2 then 1 else 0
  let h2 := words.1 - hb
  let hi := -rs ^^^ h2
  hi

def mulhu (x y : BitVec w) : BitVec w := (mulWords x y).1

def mulh (x y : BitVec w) : BitVec w :=
  signedHigh (signWord x ^^^ signWord y) (mulWords (absWord x) (absWord y))

def mulhsu (x y : BitVec w) : BitVec w := signedHigh (signWord x) (mulWords (absWord x) y)

end MulHigh

/-! ## Operations -/

def BranchOp.taken32 : BranchOp → BitVec 32 → BitVec 32 → Bool
  | .beq, x, y => x == y
  | .bne, x, y => x != y
  | .blt, x, y => x.slt y
  | .bge, x, y => !x.slt y
  | .bltu, x, y => x.ult y
  | .bgeu, x, y => !x.ult y

/-- `none` for the operations that have no case. -/
def ImmOp.eval32 (so : ShiftOver) (op : ImmOp) (x imm : BitVec 32) : Option (BitVec 32) :=
  match op with
  | .addi => some (x + imm)
  | .slti => some (if x.slt imm then 1 else 0)
  | .sltiu => some (if x.ult imm then 1 else 0)
  | .xori => some (x ^^^ imm)
  | .ori => some (x ||| imm)
  | .andi => some (x &&& imm)
  | .slli => some (shift so .left x imm.toNat)
  | .srli => some (shift so .right x imm.toNat)
  | .srai => some (shift so .arith x imm.toNat)
  | .addiw | .slliw | .srliw | .sraiw => none

def RegOp.eval32 (so : ShiftOver) (op : RegOp) (x y : BitVec 32) : Option (BitVec 32) :=
  match op with
  | .add => some (x + y)
  | .sub => some (x - y)
  | .sll => some (shift so .left x (y &&& 0b1111111).toNat)
  | .slt => some (if x.slt y then 1 else 0)
  | .sltu => some (if x.ult y then 1 else 0)
  | .xor => some (x ^^^ y)
  | .srl => some (shift so .right x (y &&& 0b1111111).toNat)
  | .sra => some (shift so .arith x (y &&& 0b1111111).toNat)
  | .or => some (x ||| y)
  | .and => some (x &&& y)
  | .mul => some (x * y)
  | .mulh => some (Isa.mulh x y)
  | .mulhsu => some (Isa.mulhsu x y)
  | .mulhu => some (Isa.mulhu x y)
  | .div =>
    some (if x = BitVec.intMin 32 ∧ y = -1 then BitVec.intMin 32
      else if y = 0 then -1 else x.sdiv y)
  | .divu => some (if y = 0 then -1 else x / y)
  | .rem =>
    some (if x = BitVec.intMin 32 ∧ y = -1 then 0 else if y = 0 then x else x.srem y)
  | .remu => some (if y = 0 then x else x % y)
  | .addw | .subw | .sllw | .srlw | .sraw | .mulw | .divw | .divuw | .remw | .remuw => none

/-- The register value of the bytes that were loaded, zero-extended as `x`. -/
def LoadOp.extend32 (op : LoadOp) (x : BitVec 64) : Option (BitVec 32) :=
  match op with
  | .lb => some ((x.truncate 8).signExtend 32)
  | .lh => some ((x.truncate 16).signExtend 32)
  | .lw | .lbu | .lhu => some (x.truncate 32)
  | .lwu | .ld => none

/-! ## Execution -/

namespace Core

/-- The assignment to `proc.ireg[dec.rd]`. -/
def setReg {w : ℕ} (s : Core w) (rd : Reg) (v : BitVec w) : Core w :=
  { s with ireg := Function.update s.ireg rd (if rd = rv_ireg_x0 then 0 else v) }

end Core

/-- The integer cases of `exec_inst_rv32`: the processor and the offset to the next instruction,
-1 for one that has no case. -/
def execInst32 (so : ShiftOver) (dec : Decode) (s : Core 32) (pcOffset : BitVec 32) :
    Core 32 × BitVec 32 :=
  let x := s.ireg dec.rs1
  let y := s.ireg dec.rs2
  let addr := (x + dec.imm).toNat
  let assign (v : Option (BitVec 32)) : Core 32 × BitVec 32 :=
    match v with
    | some v => (s.setReg dec.rd v, pcOffset)
    | none => (s, -1)
  match dec.op with
  | .lui => (s.setReg dec.rd dec.imm, pcOffset)
  | .auipc => (s.setReg dec.rd (s.pc + dec.imm), pcOffset)
  | .jal => (s.setReg dec.rd (s.pc + pcOffset), dec.imm)
  | .jalr => (s.setReg dec.rd (s.pc + pcOffset), (x + dec.imm - s.pc) &&& ~~~1#32)
  | .branch op => (s, if op.taken32 x y then dec.imm else pcOffset)
  | .load op => assign (op.extend32 (s.mem.read addr op.bytes))
  | .store .sd => (s, -1)
  | .store op => ({ s with mem := s.mem.write addr op.bytes (y.zeroExtend 64) }, pcOffset)
  | .imm op => assign (op.eval32 so x dec.imm)
  | .reg op => assign (op.eval32 so x y)
  | _ => (s, -1)

end RvCkpt.Isa
