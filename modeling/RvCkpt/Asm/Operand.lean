import Mathlib.Data.Nat.Notation
import Mathlib.Algebra.Group.Nat.Defs
import Mathlib.Algebra.Order.Group.Int

/-! # Operands

The immediate templates of `src/src/asm/types.h` and the operands of `src/src/asm/operands.h`.
-/

namespace RvCkpt.Asm
set_option autoImplicit false

/-- `B<n,m>`: the bits of a value from `m` to `n`. -/
structure Bits where
  n : ℕ
  m : ℕ
  deriving DecidableEq, Repr

namespace Bits

def width (b : Bits) : ℕ := b.n - b.m + 1

/-- `mask` -/
def mask (b : Bits) : BitVec 64 := ((1 <<< (b.n + 1)) - 1) ^^^ ((1 <<< b.m) - 1)

end Bits

/-- `S<k,l,...>`: the bits of the instruction from `l` to `k`, the first part of the value
uppermost. -/
structure Seg where
  k : ℕ
  l : ℕ
  parts : List Bits
  deriving DecidableEq, Repr

namespace Seg

/-- `offset` -/
def offset : List Bits → ℕ
  | [] => 0
  | h :: t => offset t + h.width

/-- `shift` of the first part. -/
def shift (l : ℕ) (h : Bits) (t : List Bits) : ℤ :=
  (offset (h :: t) : ℤ) + l - h.width - h.m

def decodeParts (l : ℕ) : List Bits → BitVec 64 → BitVec 64
  | [], _ => 0
  | h :: t, inst =>
    ((if shift l h t < 0 then inst <<< (-shift l h t).toNat else inst >>> (shift l h t).toNat) &&&
      h.mask) ||| decodeParts l t inst

def encodeParts (l : ℕ) : List Bits → BitVec 64 → BitVec 64
  | [], _ => 0
  | h :: t, imm =>
    (if shift l h t < 0 then (imm &&& h.mask) >>> (-shift l h t).toNat
      else (imm &&& h.mask) <<< (shift l h t).toNat) ||| encodeParts l t imm

def decode (s : Seg) (inst : BitVec 64) : BitVec 64 := decodeParts s.l s.parts inst

def encode (s : Seg) (imm : BitVec 64) : BitVec 64 := encodeParts s.l s.parts imm

end Seg

/-- `simm_operand_t` and `uimm_operand_t` -/
structure Operand where
  signed : Bool
  width : ℕ
  segs : List Seg
  deriving DecidableEq, Repr

namespace Operand

/-- `imm_operand_impl_t::decode` -/
def decodeSegs : List Seg → BitVec 64 → BitVec 64
  | [], _ => 0
  | h :: t, inst => decodeSegs t inst ||| h.decode inst

/-- `imm_operand_impl_t::encode` -/
def encodeSegs : List Seg → BitVec 64 → BitVec 64
  | [], _ => 0
  | h :: t, imm => encodeSegs t imm ||| h.encode imm

def decode (o : Operand) (inst : BitVec 64) : BitVec 64 :=
  if o.signed then ((decodeSegs o.segs inst).truncate o.width).signExtend 64
  else decodeSegs o.segs inst

def encode (o : Operand) (imm : BitVec 64) : BitVec 64 := encodeSegs o.segs imm

end Operand

/-! ## The operands -/

def operand_rd : Operand := ⟨false, 5, [⟨11, 7, [⟨4, 0⟩]⟩]⟩

def operand_rs1 : Operand := ⟨false, 5, [⟨19, 15, [⟨4, 0⟩]⟩]⟩

def operand_rs2 : Operand := ⟨false, 5, [⟨24, 20, [⟨4, 0⟩]⟩]⟩

def operand_rs3 : Operand := ⟨false, 5, [⟨31, 27, [⟨4, 0⟩]⟩]⟩

def operand_aq : Operand := ⟨false, 1, [⟨26, 26, [⟨0, 0⟩]⟩]⟩

def operand_rl : Operand := ⟨false, 1, [⟨25, 25, [⟨0, 0⟩]⟩]⟩

def operand_pred : Operand := ⟨false, 4, [⟨27, 24, [⟨3, 0⟩]⟩]⟩

def operand_succ : Operand := ⟨false, 4, [⟨23, 20, [⟨3, 0⟩]⟩]⟩

def operand_rm : Operand := ⟨false, 3, [⟨14, 12, [⟨2, 0⟩]⟩]⟩

def operand_imm20 : Operand := ⟨true, 32, [⟨31, 12, [⟨31, 12⟩]⟩]⟩

def operand_jimm20 : Operand := ⟨true, 21, [⟨31, 12, [⟨20, 20⟩, ⟨10, 1⟩, ⟨11, 11⟩, ⟨19, 12⟩]⟩]⟩

def operand_imm12 : Operand := ⟨true, 12, [⟨31, 20, [⟨11, 0⟩]⟩]⟩

def operand_csr12 : Operand := ⟨false, 12, [⟨31, 20, [⟨11, 0⟩]⟩]⟩

def operand_simm12 : Operand := ⟨true, 12, [⟨31, 25, [⟨11, 5⟩]⟩, ⟨11, 7, [⟨4, 0⟩]⟩]⟩

def operand_sbimm12 : Operand :=
  ⟨true, 13, [⟨31, 25, [⟨12, 12⟩, ⟨10, 5⟩]⟩, ⟨11, 7, [⟨4, 1⟩, ⟨11, 11⟩]⟩]⟩

def operand_shamt5 : Operand := ⟨false, 5, [⟨24, 20, [⟨4, 0⟩]⟩]⟩

def operand_shamt6 : Operand := ⟨false, 6, [⟨25, 20, [⟨5, 0⟩]⟩]⟩

def operand_shamt7 : Operand := ⟨false, 7, [⟨26, 20, [⟨6, 0⟩]⟩]⟩

def operand_crdq : Operand := ⟨false, 3, [⟨4, 2, [⟨2, 0⟩]⟩]⟩

def operand_crs1q : Operand := ⟨false, 3, [⟨9, 7, [⟨2, 0⟩]⟩]⟩

def operand_crs1rdq : Operand := ⟨false, 3, [⟨9, 7, [⟨2, 0⟩]⟩]⟩

def operand_crs2q : Operand := ⟨false, 3, [⟨4, 2, [⟨2, 0⟩]⟩]⟩

def operand_crd : Operand := ⟨false, 5, [⟨11, 7, [⟨4, 0⟩]⟩]⟩

def operand_crs1 : Operand := ⟨false, 5, [⟨11, 7, [⟨4, 0⟩]⟩]⟩

def operand_crs1rd : Operand := ⟨false, 5, [⟨11, 7, [⟨4, 0⟩]⟩]⟩

def operand_crs2 : Operand := ⟨false, 5, [⟨6, 2, [⟨4, 0⟩]⟩]⟩

def operand_cimmsh6 : Operand := ⟨false, 6, [⟨12, 12, [⟨5, 5⟩]⟩, ⟨6, 2, [⟨4, 0⟩]⟩]⟩

def operand_cimmi : Operand := ⟨true, 6, [⟨12, 12, [⟨5, 5⟩]⟩, ⟨6, 2, [⟨4, 0⟩]⟩]⟩

def operand_cimmui : Operand := ⟨true, 18, [⟨12, 12, [⟨17, 17⟩]⟩, ⟨6, 2, [⟨16, 12⟩]⟩]⟩

def operand_cimmlwsp : Operand := ⟨false, 8, [⟨12, 12, [⟨5, 5⟩]⟩, ⟨6, 2, [⟨4, 2⟩, ⟨7, 6⟩]⟩]⟩

def operand_cimmldsp : Operand := ⟨false, 9, [⟨12, 12, [⟨5, 5⟩]⟩, ⟨6, 2, [⟨4, 3⟩, ⟨8, 6⟩]⟩]⟩

def operand_cimmlqsp : Operand := ⟨false, 10, [⟨12, 12, [⟨5, 5⟩]⟩, ⟨6, 2, [⟨4, 4⟩, ⟨9, 6⟩]⟩]⟩

def operand_cimm16sp : Operand :=
  ⟨true, 10, [⟨12, 12, [⟨9, 9⟩]⟩, ⟨6, 2, [⟨4, 4⟩, ⟨6, 6⟩, ⟨8, 7⟩, ⟨5, 5⟩]⟩]⟩

def operand_cimmj : Operand :=
  ⟨true, 12, [⟨12, 2, [⟨11, 11⟩, ⟨4, 4⟩, ⟨9, 8⟩, ⟨10, 10⟩, ⟨6, 6⟩, ⟨7, 7⟩, ⟨3, 1⟩, ⟨5, 5⟩]⟩]⟩

def operand_cimmb : Operand :=
  ⟨true, 9, [⟨12, 10, [⟨8, 8⟩, ⟨4, 3⟩]⟩, ⟨6, 2, [⟨7, 6⟩, ⟨2, 1⟩, ⟨5, 5⟩]⟩]⟩

def operand_cimmswsp : Operand := ⟨false, 8, [⟨12, 7, [⟨5, 2⟩, ⟨7, 6⟩]⟩]⟩

def operand_cimmsdsp : Operand := ⟨false, 9, [⟨12, 7, [⟨5, 3⟩, ⟨8, 6⟩]⟩]⟩

def operand_cimmsqsp : Operand := ⟨false, 10, [⟨12, 7, [⟨5, 4⟩, ⟨9, 6⟩]⟩]⟩

def operand_cimm4spn : Operand := ⟨false, 10, [⟨12, 5, [⟨5, 4⟩, ⟨9, 6⟩, ⟨2, 2⟩, ⟨3, 3⟩]⟩]⟩

def operand_cimmw : Operand := ⟨false, 7, [⟨12, 10, [⟨5, 3⟩]⟩, ⟨6, 5, [⟨2, 2⟩, ⟨6, 6⟩]⟩]⟩

def operand_cimmd : Operand := ⟨false, 8, [⟨12, 10, [⟨5, 3⟩]⟩, ⟨6, 5, [⟨7, 6⟩]⟩]⟩

def operand_cimmq : Operand := ⟨false, 9, [⟨12, 10, [⟨5, 4⟩, ⟨8, 8⟩]⟩, ⟨6, 5, [⟨7, 6⟩]⟩]⟩

end RvCkpt.Asm
