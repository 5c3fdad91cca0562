import RvCkpt.Isa.Inst
import RvCkpt.Lib.Bytes

/-! # Integer and floating-point operations

What the integer operations of `exec_inst_rv64` compute, and the parts of the machine that are not in
the repository: the floating-point library and what the compiler makes of a shift by the width or
more.
-/

namespace RvCkpt.Isa
set_option autoImplicit false

/-! ## Division (`src/src/asm/alu.h`) -/

section Division
variable {w : ℕ}

def div (x y : BitVec w) : BitVec w :=
  if x = BitVec.intMin w ∧ y = -1 then BitVec.intMin w else if y = 0 then -1 else x.sdiv y

def divu (x y : BitVec w) : BitVec w := if y = 0 then -1 else x / y

def rem (x y : BitVec w) : BitVec w :=
  if x = BitVec.intMin w ∧ y = -1 then 0 else if y = 0 then x else x.srem y

def remu (x y : BitVec w) : BitVec w := if y = 0 then x else x % y

end Division

/-! ## Shifts -/

inductive Shift where
  | left | right | arith
  deriving DecidableEq, Repr

/-- What a shift by the width or more gives on the machine the simulator runs on. -/
structure ShiftOver where
  wide : Shift → (w : ℕ) → BitVec w → ℕ → BitVec w

def shift (so : ShiftOver) (kind : Shift) {w : ℕ} (x : BitVec w) (n : ℕ) : BitVec w :=
  if n < w then
    match kind with
    | .left => x <<< n
    | .right => x >>> n
    | .arith => x.sshiftRight n
  else so.wide kind w x n

/-! ## Integer operations -/

def ofBool (b : Bool) : BitVec 64 := if b then 1 else 0

def word32 (x : BitVec 64) : BitVec 32 := x.truncate 32

def sx (x : BitVec 32) : BitVec 64 := x.signExtend 64

def BranchOp.taken : BranchOp → BitVec 64 → BitVec 64 → Bool
  | .beq, x, y => x == y
  | .bne, x, y => x != y
  | .blt, x, y => x.slt y
  | .bge, x, y => !x.slt y
  | .bltu, x, y => x.ult y
  | .bgeu, x, y => !x.ult y

def ImmOp.eval (so : ShiftOver) (op : ImmOp) (x : BitVec 64) (imm : BitVec 32) : BitVec 64 :=
  match op with
  | .addi => x + sx imm
  | .slti => ofBool (x.slt (sx imm))
  | .sltiu => ofBool (x.ult (sx imm))
  | .xori => x ^^^ sx imm
  | .ori => x ||| sx imm
  | .andi => x &&& sx imm
  | .slli => shift so .left x imm.toNat
  | .srli => shift so .right x imm.toNat
  | .srai => shift so .arith x imm.toNat
  | .addiw => sx (word32 x + imm)
  | .slliw => sx (shift so .left (word32 x) imm.toNat)
  | .srliw => sx (shift so .right (word32 x) imm.toNat)
  | .sraiw => sx (shift so .arith (word32 x) imm.toNat)

/-- The upper half of the product of two numbers widened to 128 bits. -/
def mulHigh (x y : BitVec 128) : BitVec 64 := ((x * y) >>> 64).truncate 64

def RegOp.eval (so : ShiftOver) (op : RegOp) (x y : BitVec 64) : BitVec 64 :=
  match op with
  | .add => x + y
  | .sub => x - y
  | .sll => shift so .left x (y &&& 0b1111111).toNat
  | .slt => ofBool (x.slt y)
  | .sltu => ofBool (x.ult y)
  | .xor => x ^^^ y
  | .srl => shift so .right x (y &&& 0b1111111).toNat
  | .sra => shift so .arith x (y &&& 0b1111111).toNat
  | .or => x ||| y
  | .and => x &&& y
  | .addw => sx (word32 x + word32 y)
  | .subw => sx (word32 x - word32 y)
  | .sllw => sx (shift so .left (word32 x) (y &&& 0b11111).toNat)
  | .srlw => sx (shift so .right (word32 x) (y &&& 0b11111).toNat)
  | .sraw => sx (shift so .arith (word32 x) (y &&& 0b11111).toNat)
  | .mul => x * y
  | .mulh => mulHigh (x.signExtend 128) (y.signExtend 128)
  | .mulhsu => mulHigh (x.signExtend 128) (y.zeroExtend 128)
  | .mulhu => mulHigh (x.zeroExtend 128) (y.zeroExtend 128)
  | .div => Isa.div x y
  | .divu => Isa.divu x y
  | .rem => Isa.rem x y
  | .remu => Isa.remu x y
  | .mulw => sx (word32 x * word32 y)
  | .divw => sx (Isa.div (word32 x) (word32 y))
  -- a `u32` result is widened without its sign
  | .divuw => (Isa.divu (word32 x) (word32 y)).zeroExtend 64
  | .remw => sx (Isa.rem (word32 x) (word32 y))
  | .remuw => (Isa.remu (word32 x) (word32 y)).zeroExtend 64

/-! ## Jump targets -/

section Targets
variable {w : ℕ}

theorem and_not_one_toNat (x : BitVec w) : (x &&& ~~~1#w).toNat = x.toNat / 2 * 2 := by
  have hmask : ∀ j < w, (~~~1#w).getLsbD j = !decide (j < 1) := by
    intro j hj
    rw [BitVec.getLsbD_not, BitVec.getLsbD_one]
    have hw : 0 < w := by omega
    simp only [hj, hw, decide_true, Bool.true_and, Nat.lt_one_iff]
  have hle := x.isLt
  rw [ByteMem.and_not_low hmask, BitVec.toNat_shiftLeft, BitVec.toNat_ushiftRight,
    Nat.shiftLeft_eq, Nat.shiftRight_eq_div_pow, Nat.pow_one]
  exact Nat.mod_eq_of_lt (Nat.lt_of_le_of_lt (Nat.div_mul_le_self _ _) hle)

/-- The distance that `jalr` computes leads to its target from an even address. -/
theorem jalr_offset (hw : 0 < w) {x p : BitVec w} (hp : p.toNat % 2 = 0) :
    p + ((x - p) &&& ~~~1#w) = x &&& ~~~1#w ∧ (x - p) &&& ~~~1#w ≠ -1 := by
  have hx := x.isLt
  have hlt := p.isLt
  obtain ⟨k, rfl⟩ := Nat.exists_eq_succ_of_ne_zero hw.ne'
  rw [Nat.pow_succ] at hx hlt
  constructor
  · apply BitVec.eq_of_toNat_eq
    rw [BitVec.toNat_add, and_not_one_toNat, and_not_one_toNat, BitVec.toNat_sub, Nat.pow_succ]
    by_cases hle : p.toNat ≤ x.toNat
    · have hd : 2 ^ k * 2 - p.toNat + x.toNat = 2 ^ k * 2 + (x.toNat - p.toNat) := by omega
      rw [hd, Nat.add_mod_left, Nat.mod_eq_of_lt (a := x.toNat - p.toNat) (by omega)]
      have hsum : p.toNat + (x.toNat - p.toNat) / 2 * 2 = x.toNat / 2 * 2 := by omega
      rw [hsum, Nat.mod_eq_of_lt (by omega)]
    · rw [Nat.mod_eq_of_lt (a := 2 ^ k * 2 - p.toNat + x.toNat) (by omega)]
      have hsum : p.toNat + (2 ^ k * 2 - p.toNat + x.toNat) / 2 * 2 =
          2 ^ k * 2 + x.toNat / 2 * 2 := by omega
      rw [hsum, Nat.add_mod_left, Nat.mod_eq_of_lt (by omega)]
  · intro heq
    have hodd := congrArg BitVec.toNat heq
    have hneg : (-1 : BitVec (k + 1)).toNat = 2 ^ (k + 1) - 1 :=
      (congrArg BitVec.toNat BitVec.neg_one_eq_allOnes).trans BitVec.toNat_allOnes
    rw [and_not_one_toNat, hneg, Nat.pow_succ] at hodd
    have hpos := Nat.two_pow_pos k
    omega

end Targets

/-! ## Loads, stores and atomics -/

def LoadOp.bytes : LoadOp → ℕ
  | .lb | .lbu => 1
  | .lh | .lhu => 2
  | .lw | .lwu => 4
  | .ld => 8

/-- The register value of the bytes that were loaded, zero-extended as `x`. -/
def LoadOp.extend (op : LoadOp) (x : BitVec 64) : BitVec 64 :=
  match op with
  | .lb => (x.truncate 8).signExtend 64
  | .lh => (x.truncate 16).signExtend 64
  | .lw => (x.truncate 32).signExtend 64
  | .lbu | .lhu | .lwu | .ld => x

def StoreOp.bytes : StoreOp → ℕ
  | .sb => 1
  | .sh => 2
  | .sw => 4
  | .sd => 8

def AmoWidth.bytes : AmoWidth → ℕ
  | .w => 4
  | .d => 8

/-- A value of the width as a register holds it. -/
def AmoWidth.extend (width : AmoWidth) (x : BitVec 64) : BitVec 64 :=
  match width with
  | .w => sx (word32 x)
  | .d => x

/-- `amo_fn` on the signed values, widened to 64 bits. -/
def AmoOp.eval (op : AmoOp) (x y : BitVec 64) : BitVec 64 :=
  match op with
  | .amoswap => y
  | .amoadd => x + y
  | .amoxor => x ^^^ y
  | .amoor => x ||| y
  | .amoand => x &&& y
  | .amomin => if y.slt x then y else x
  | .amomax => if x.slt y then y else x
  | .amominu => if y.ult x then y else x
  | .amomaxu => if x.ult y then y else x

/-! ## Floating point -/

def Prec.bits : Prec → ℕ
  | .s => 32
  | .d => 64

abbrev Fp (p : Prec) := BitVec p.bits

def Prec.bytes : Prec → ℕ
  | .s => 4
  | .d => 8

def IntFmt.bits : IntFmt → ℕ
  | .w | .wu => 32
  | .l | .lu => 64

def box : (p : Prec) → Fp p → BitVec 64
  | .s, x => (-1 : BitVec 32) ++ (x : BitVec 32)
  | .d, x => x

def unbox : (p : Prec) → BitVec 64 → Fp p
  | .s, x => if x.extractLsb' 32 32 = -1 then word32 x else 0x7FC00000#32
  | .d, x => x

def signBit : (p : Prec) → Fp p
  | .s => 0x80000000#32
  | .d => 0x8000000000000000#64

/-- `inv32` and `inv64` -/
def inv {p : Prec} (x : Fp p) : Fp p := x ^^^ signBit p

def FSgnOp.eval {p : Prec} (op : FSgnOp) (x y : Fp p) : Fp p :=
  let sign := match op with
    | .fsgnj => 0
    | .fsgnjn => signBit p
    | .fsgnjx => x
  (x &&& ~~~signBit p) ||| ((sign ^^^ y) &&& signBit p)

/-- The functions of the floating-point library, each with the exception flags it raises. -/
structure Softfloat where
  mulAdd : (p : Prec) → BitVec 3 → Fp p → Fp p → Fp p → Fp p × BitVec 5
  arith : FArithOp → (p : Prec) → BitVec 3 → Fp p → Fp p → Fp p × BitVec 5
  sqrt : (p : Prec) → BitVec 3 → Fp p → Fp p × BitVec 5
  minmax : FMinMaxOp → (p : Prec) → Fp p → Fp p → Fp p × BitVec 5
  cmp : FCmpOp → (p : Prec) → Fp p → Fp p → Bool × BitVec 5
  toInt : (f : IntFmt) → (p : Prec) → BitVec 3 → Fp p → BitVec f.bits × BitVec 5
  ofInt : (p : Prec) → (f : IntFmt) → BitVec 3 → BitVec f.bits → Fp p × BitVec 5
  toDouble : BitVec 3 → Fp .s → Fp .d × BitVec 5
  toSingle : BitVec 3 → Fp .d → Fp .s × BitVec 5
  classify : (p : Prec) → Fp p → BitVec 16

def FmaOp.eval (sf : Softfloat) (op : FmaOp) (p : Prec) (rm : BitVec 3) (x y z : Fp p) :
    Fp p × BitVec 5 :=
  match op with
  | .fmadd => sf.mulAdd p rm x y z
  | .fmsub => sf.mulAdd p rm x y (inv z)
  | .fnmsub => sf.mulAdd p rm (inv x) y z
  | .fnmadd => sf.mulAdd p rm (inv x) y (inv z)

/-- The register value of a converted integer: an `s32` cast for the 32-bit formats. -/
def IntFmt.extend : (f : IntFmt) → BitVec f.bits → BitVec 64
  | .w, x => sx x
  | .wu, x => sx x
  | .l, x => x
  | .lu, x => x

/-- The part of a register that a conversion reads. -/
def IntFmt.part : (f : IntFmt) → BitVec 64 → BitVec f.bits
  | .w, x => word32 x
  | .wu, x => word32 x
  | .l, x => x
  | .lu, x => x

namespace FpOp

/-- The result goes to an integer register. -/
def toInt : FpOp → Bool
  | .fcmp .. | .fcvtToInt .. => true
  | _ => false

/-- The operation begins with `setrm()`. -/
def rounds : FpOp → Bool
  | .fminmax .. | .fcmp .. => false
  | _ => true

/-- The register value and the flags of an operation on integer operand `x` and on floating-point
operands `f₁`, `f₂`, `f₃`. -/
def eval (sf : Softfloat) (op : FpOp) (rm : BitVec 3) (x f₁ f₂ f₃ : BitVec 64) :
    BitVec 64 × BitVec 5 :=
  match op with
  | .fma op p => (op.eval sf p rm (unbox p f₁) (unbox p f₂) (unbox p f₃)).map (box p) id
  | .farith op p => (sf.arith op p rm (unbox p f₁) (unbox p f₂)).map (box p) id
  | .fsqrt p => (sf.sqrt p rm (unbox p f₁)).map (box p) id
  | .fminmax op p => (sf.minmax op p (unbox p f₁) (unbox p f₂)).map (box p) id
  | .fcmp op p => (sf.cmp op p (unbox p f₁) (unbox p f₂)).map ofBool id
  | .fcvtToInt f p => (sf.toInt f p rm (unbox p f₁)).map f.extend id
  | .fcvtOfInt p f => (sf.ofInt p f rm (f.part x)).map (box p) id
  | .fcvt_s_d => (sf.toSingle rm (unbox .d f₁)).map (box .s) id
  | .fcvt_d_s => (sf.toDouble rm (unbox .s f₁)).map (box .d) id

end FpOp

end RvCkpt.Isa
