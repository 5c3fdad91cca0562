import RvCkpt.Asm.Op
import RvCkpt.Asm.Operand

/-! # Encoding and decoding

`encode_inst`, `decode_inst` and the compressed forms of `src/src/asm/codec.h`, with the codecs of
`src/src/asm/encode.h` and `src/src/asm/decode.h` and the opcode switch of `src/src/asm/switch.h`.
-/

namespace RvCkpt.Asm
set_option autoImplicit false

/-! ## Decoded instructions -/

/-- `decode` -/
structure Decode where
  imm : BitVec 32
  rd : BitVec 8
  rs1 : BitVec 8
  rs2 : BitVec 8
  rs3 : BitVec 8
  op : Op
  codec : Codec
  rm : BitVec 3
  aq : BitVec 1
  rl : BitVec 1
  pred : BitVec 4
  succ : BitVec 4
  deriving DecidableEq, Repr

inductive Field where
  | imm | rd | rs1 | rs2 | rs3 | rm | aq | rl | pred | succ
  deriving DecidableEq, Repr

namespace Decode

/-- The value of a field where it is converted to 64 bits. -/
def get (dec : Decode) : Field → BitVec 64
  | .imm => dec.imm.signExtend 64
  | .rd => dec.rd.zeroExtend 64
  | .rs1 => dec.rs1.zeroExtend 64
  | .rs2 => dec.rs2.zeroExtend 64
  | .rs3 => dec.rs3.zeroExtend 64
  | .rm => dec.rm.zeroExtend 64
  | .aq => dec.aq.zeroExtend 64
  | .rl => dec.rl.zeroExtend 64
  | .pred => dec.pred.zeroExtend 64
  | .succ => dec.succ.zeroExtend 64

def set (dec : Decode) (f : Field) (v : BitVec 64) : Decode :=
  match f with
  | .imm => { dec with imm := v.truncate 32 }
  | .rd => { dec with rd := v.truncate 8 }
  | .rs1 => { dec with rs1 := v.truncate 8 }
  | .rs2 => { dec with rs2 := v.truncate 8 }
  | .rs3 => { dec with rs3 := v.truncate 8 }
  | .rm => { dec with rm := v.truncate 3 }
  | .aq => { dec with aq := v.truncate 1 }
  | .rl => { dec with rl := v.truncate 1 }
  | .pred => { dec with pred := v.truncate 4 }
  | .succ => { dec with succ := v.truncate 4 }

/-- The constructor of `decode`. -/
def init : Decode := ⟨0, 0, 0, 0, 0, .illegal, .illegal, 0, 0, 0, 0, 0⟩

end Decode

/-! ## Encoders -/

/-- A part of what an encoder returns: the operand's bits of a field, to which 8 may be added. -/
structure Part where
  operand : Operand
  field : Field
  plus8 : Bool

inductive Assertion where
  | eq (f : Field) (n : ℕ)
  | rdEqRs1

def Assertion.check (dec : Decode) : Assertion → Bool
  | .eq f n => dec.get f = BitVec.ofNat 64 n
  | .rdEqRs1 => dec.rd = dec.rs1

/-- What the encoder of a codec asserts. -/
def Codec.asserts : Codec → List Assertion
  | .r_l => [.eq .rs2 0]
  | .cb_imm => [.rdEqRs1]
  | .cb_sh6 => [.rdEqRs1]
  | .ci => [.rdEqRs1]
  | .ci_sh6 => [.rdEqRs1]
  | .ci_16sp => [.eq .rd 2, .eq .rs1 2]
  | .ci_lwsp => [.eq .rs1 2]
  | .ci_ldsp => [.eq .rs1 2]
  | .ci_lqsp => [.eq .rs1 2]
  | .ci_li => [.eq .rs1 0]
  | .ci_lui => [.eq .rs1 0]
  | .ci_none => [.eq .rd 0, .eq .rs1 0, .eq .rs2 0]
  | .ciw_4spn => [.eq .rs1 2]
  | .cr => [.rdEqRs1]
  | .cr_mv => [.eq .imm 0]
  | .cr_jalr => [.eq .rd 1]
  | .cr_jr => [.eq .rd 0]
  | .cs => [.rdEqRs1]
  | .css_swsp => [.eq .rs1 2]
  | .css_sdsp => [.eq .rs1 2]
  | .css_sqsp => [.eq .rs1 2]
  | _ => []

/-- What the encoder of a codec puts together. -/
def Codec.parts : Codec → List Part
  | .none => []
  | .u => [⟨operand_rd, .rd, false⟩, ⟨operand_imm20, .imm, false⟩]
  | .uj => [⟨operand_rd, .rd, false⟩, ⟨operand_jimm20, .imm, false⟩]
  | .i => [⟨operand_rd, .rd, false⟩, ⟨operand_rs1, .rs1, false⟩, ⟨operand_imm12, .imm, false⟩]
  | .i_sh5 => [⟨operand_rd, .rd, false⟩, ⟨operand_rs1, .rs1, false⟩, ⟨operand_shamt5, .imm, false⟩]
  | .i_sh6 => [⟨operand_rd, .rd, false⟩, ⟨operand_rs1, .rs1, false⟩, ⟨operand_shamt6, .imm, false⟩]
  | .i_sh7 => [⟨operand_rd, .rd, false⟩, ⟨operand_rs1, .rs1, false⟩, ⟨operand_shamt7, .imm, false⟩]
  | .i_csr => [⟨operand_rd, .rd, false⟩, ⟨operand_rs1, .rs1, false⟩, ⟨operand_csr12, .imm, false⟩]
  | .s => [⟨operand_rs1, .rs1, false⟩, ⟨operand_rs2, .rs2, false⟩, ⟨operand_simm12, .imm, false⟩]
  | .sb => [⟨operand_rs1, .rs1, false⟩, ⟨operand_rs2, .rs2, false⟩, ⟨operand_sbimm12, .imm, false⟩]
  | .r => [⟨operand_rd, .rd, false⟩, ⟨operand_rs1, .rs1, false⟩, ⟨operand_rs2, .rs2, false⟩]
  | .r_m =>
    [⟨operand_rd, .rd, false⟩, ⟨operand_rs1, .rs1, false⟩, ⟨operand_rs2, .rs2, false⟩,
    ⟨operand_rm, .rm, false⟩]
  | .r4_m =>
    [⟨operand_rd, .rd, false⟩, ⟨operand_rs1, .rs1, false⟩, ⟨operand_rs2, .rs2, false⟩,
    ⟨operand_rs3, .rs3, false⟩, ⟨operand_rm, .rm, false⟩]
  | .r_a =>
    [⟨operand_rd, .rd, false⟩, ⟨operand_rs1, .rs1, false⟩, ⟨operand_rs2, .rs2, false⟩,
    ⟨operand_aq, .aq, false⟩, ⟨operand_rl, .rl, false⟩]
  | .r_l =>
    [⟨operand_rd, .rd, false⟩, ⟨operand_rs1, .rs1, false⟩, ⟨operand_aq, .aq, false⟩,
    ⟨operand_rl, .rl, false⟩]
  | .r_f => [⟨operand_pred, .pred, false⟩, ⟨operand_succ, .succ, false⟩]
  | .cb => [⟨operand_crs1q, .rs1, true⟩, ⟨operand_cimmb, .imm, false⟩]
  | .cb_imm => [⟨operand_crs1rdq, .rs1, true⟩, ⟨operand_cimmi, .imm, false⟩]
  | .cb_sh6 => [⟨operand_crs1rdq, .rs1, true⟩, ⟨operand_cimmsh6, .imm, false⟩]
  | .ci => [⟨operand_crs1rd, .rs1, false⟩, ⟨operand_cimmi, .imm, false⟩]
  | .ci_sh6 => [⟨operand_crs1rd, .rs1, false⟩, ⟨operand_cimmsh6, .imm, false⟩]
  | .ci_16sp => [⟨operand_cimm16sp, .imm, false⟩]
  | .ci_lwsp => [⟨operand_crd, .rd, false⟩, ⟨operand_cimmlwsp, .imm, false⟩]
  | .ci_ldsp => [⟨operand_crd, .rd, false⟩, ⟨operand_cimmldsp, .imm, false⟩]
  | .ci_lqsp => [⟨operand_crd, .rd, false⟩, ⟨operand_cimmlqsp, .imm, false⟩]
  | .ci_li => [⟨operand_crd, .rd, false⟩, ⟨operand_cimmi, .imm, false⟩]
  | .ci_lui => [⟨operand_crd, .rd, false⟩, ⟨operand_cimmui, .imm, false⟩]
  | .ci_none => []
  | .ciw_4spn => [⟨operand_crdq, .rd, true⟩, ⟨operand_cimm4spn, .imm, false⟩]
  | .cj => [⟨operand_cimmj, .imm, false⟩]
  | .cj_jal => [⟨operand_cimmj, .imm, false⟩]
  | .cl_lw => [⟨operand_crdq, .rd, true⟩, ⟨operand_crs1q, .rs1, true⟩, ⟨operand_cimmw, .imm, false⟩]
  | .cl_ld => [⟨operand_crdq, .rd, true⟩, ⟨operand_crs1q, .rs1, true⟩, ⟨operand_cimmd, .imm, false⟩]
  | .cl_lq => [⟨operand_crdq, .rd, true⟩, ⟨operand_crs1q, .rs1, true⟩, ⟨operand_cimmq, .imm, false⟩]
  | .cr => [⟨operand_crs1rd, .rd, false⟩, ⟨operand_crs2, .rs2, false⟩]
  | .cr_mv => [⟨operand_crd, .rd, false⟩, ⟨operand_crs2, .rs1, false⟩]
  | .cr_jalr => [⟨operand_crs1, .rs1, false⟩]
  | .cr_jr => [⟨operand_crs1, .rs1, false⟩]
  | .cs => [⟨operand_crdq, .rd, true⟩, ⟨operand_crs1q, .rs1, true⟩]
  | .cs_sw =>
    [⟨operand_crs1q, .rs1, true⟩, ⟨operand_crs2q, .rs2, true⟩, ⟨operand_cimmw, .imm, false⟩]
  | .cs_sd =>
    [⟨operand_crs1q, .rs1, true⟩, ⟨operand_crs2q, .rs2, true⟩, ⟨operand_cimmd, .imm, false⟩]
  | .cs_sq =>
    [⟨operand_crs1q, .rs1, true⟩, ⟨operand_crs2q, .rs2, true⟩, ⟨operand_cimmq, .imm, false⟩]
  | .css_swsp => [⟨operand_crs2, .rs2, false⟩, ⟨operand_cimmswsp, .imm, false⟩]
  | .css_sdsp => [⟨operand_crs2, .rs2, false⟩, ⟨operand_cimmsdsp, .imm, false⟩]
  | .css_sqsp => [⟨operand_crs2, .rs2, false⟩, ⟨operand_cimmsqsp, .imm, false⟩]
  | .illegal => []

def Part.encode (dec : Decode) (p : Part) : BitVec 64 :=
  p.operand.encode (if p.plus8 then dec.get p.field + 8 else dec.get p.field)

def encodeParts (dec : Decode) : List Part → BitVec 64
  | [] => 0
  | p :: ps => p.encode dec ||| encodeParts dec ps

/-- `encode_inst`, `none` where an assertion fails. -/
def encode_inst (dec : Decode) : Option (BitVec 64) :=
  let codec := rv_inst_codec dec.op
  if codec.asserts.all (Assertion.check dec) then
    some (rv_inst_match dec.op ||| encodeParts dec codec.parts)
  else none

/-! ## Decoders -/

inductive Source where
  | const (n : ℕ)
  | operand (o : Operand)
  /-- 8 is added to the operand. -/
  | operand8 (o : Operand)

def Source.value (inst : BitVec 64) : Source → BitVec 64
  | .const n => BitVec.ofNat 64 n
  | .operand o => o.decode inst
  | .operand8 o => o.decode inst + 8

/-- The assignments in the decoder of a codec. -/
def Codec.assigns : Codec → List (Field × Source)
  | .none => [(.rd, .const 0), (.rs1, .const 0), (.rs2, .const 0), (.imm, .const 0)]
  | .u =>
    [(.rd, .operand operand_rd), (.rs1, .const 0), (.rs2, .const 0),
    (.imm, .operand operand_imm20)]
  | .uj =>
    [(.rd, .operand operand_rd), (.rs1, .const 0), (.rs2, .const 0),
    (.imm, .operand operand_jimm20)]
  | .i =>
    [(.rd, .operand operand_rd), (.rs1, .operand operand_rs1), (.rs2, .const 0),
    (.imm, .operand operand_imm12)]
  | .i_sh5 =>
    [(.rd, .operand operand_rd), (.rs1, .operand operand_rs1), (.rs2, .const 0),
    (.imm, .operand operand_shamt5)]
  | .i_sh6 =>
    [(.rd, .operand operand_rd), (.rs1, .operand operand_rs1), (.rs2, .const 0),
    (.imm, .operand operand_shamt6)]
  | .i_sh7 =>
    [(.rd, .operand operand_rd), (.rs1, .operand operand_rs1), (.rs2, .const 0),
    (.imm, .operand operand_shamt7)]
  | .i_csr =>
    [(.rd, .operand operand_rd), (.rs1, .operand operand_rs1), (.rs2, .const 0),
    (.imm, .operand operand_csr12)]
  | .s =>
    [(.rd, .const 0), (.rs1, .operand operand_rs1), (.rs2, .operand operand_rs2),
    (.imm, .operand operand_simm12)]
  | .sb =>
    [(.rd, .const 0), (.rs1, .operand operand_rs1), (.rs2, .operand operand_rs2),
    (.imm, .operand operand_sbimm12)]
  | .r =>
    [(.rd, .operand operand_rd), (.rs1, .operand operand_rs1), (.rs2, .operand operand_rs2),
    (.imm, .const 0)]
  | .r_m =>
    [(.rd, .operand operand_rd), (.rs1, .operand operand_rs1), (.rs2, .operand operand_rs2),
    (.imm, .const 0), (.rm, .operand operand_rm)]
  | .r4_m =>
    [(.rd, .operand operand_rd), (.rs1, .operand operand_rs1), (.rs2, .operand operand_rs2),
    (.rs3, .operand operand_rs3), (.imm, .const 0), (.rm, .operand operand_rm)]
  | .r_a =>
    [(.rd, .operand operand_rd), (.rs1, .operand operand_rs1), (.rs2, .operand operand_rs2),
    (.imm, .const 0), (.aq, .operand operand_aq), (.rl, .operand operand_rl)]
  | .r_l =>
    [(.rd, .operand operand_rd), (.rs1, .operand operand_rs1), (.rs2, .const 0), (.imm, .const 0),
    (.aq, .operand operand_aq), (.rl, .operand operand_rl)]
  | .r_f =>
    [(.rd, .const 0), (.rs1, .const 0), (.rs2, .const 0), (.pred, .operand operand_pred),
    (.succ, .operand operand_succ), (.imm, .const 0)]
  | .cb =>
    [(.rd, .const 0), (.rs1, .operand8 operand_crs1q), (.rs2, .const 0),
    (.imm, .operand operand_cimmb)]
  | .cb_imm =>
    [(.rd, .operand8 operand_crs1rdq), (.rs1, .operand8 operand_crs1rdq), (.rs2, .const 0),
    (.imm, .operand operand_cimmi)]
  | .cb_sh6 =>
    [(.rd, .operand8 operand_crs1rdq), (.rs1, .operand8 operand_crs1rdq), (.rs2, .const 0),
    (.imm, .operand operand_cimmsh6)]
  | .ci =>
    [(.rd, .operand operand_crs1rd), (.rs1, .operand operand_crs1rd), (.rs2, .const 0),
    (.imm, .operand operand_cimmi)]
  | .ci_sh6 =>
    [(.rd, .operand operand_crs1rd), (.rs1, .operand operand_crs1rd), (.rs2, .const 0),
    (.imm, .operand operand_cimmsh6)]
  | .ci_16sp =>
    [(.rd, .const 2), (.rs1, .const 2), (.rs2, .const 0), (.imm, .operand operand_cimm16sp)]
  | .ci_lwsp =>
    [(.rd, .operand operand_crd), (.rs1, .const 2), (.rs2, .const 0),
    (.imm, .operand operand_cimmlwsp)]
  | .ci_ldsp =>
    [(.rd, .operand operand_crd), (.rs1, .const 2), (.rs2, .const 0),
    (.imm, .operand operand_cimmldsp)]
  | .ci_lqsp =>
    [(.rd, .operand operand_crd), (.rs1, .const 2), (.rs2, .const 0),
    (.imm, .operand operand_cimmlqsp)]
  | .ci_li =>
    [(.rd, .operand operand_crd), (.rs1, .const 0), (.rs2, .const 0),
    (.imm, .operand operand_cimmi)]
  | .ci_lui =>
    [(.rd, .operand operand_crd), (.rs1, .const 0), (.rs2, .const 0),
    (.imm, .operand operand_cimmui)]
  | .ci_none => [(.rd, .const 0), (.rs1, .const 0), (.rs2, .const 0), (.imm, .const 0)]
  | .ciw_4spn =>
    [(.rd, .operand8 operand_crdq), (.rs1, .const 2), (.rs2, .const 0),
    (.imm, .operand operand_cimm4spn)]
  | .cj => [(.rd, .const 0), (.rs1, .const 0), (.rs2, .const 0), (.imm, .operand operand_cimmj)]
  | .cj_jal => [(.rd, .const 1), (.rs1, .const 0), (.rs2, .const 0), (.imm, .operand operand_cimmj)]
  | .cl_lw =>
    [(.rd, .operand8 operand_crdq), (.rs1, .operand8 operand_crs1q), (.rs2, .const 0),
    (.imm, .operand operand_cimmw)]
  | .cl_ld =>
    [(.rd, .operand8 operand_crdq), (.rs1, .operand8 operand_crs1q), (.rs2, .const 0),
    (.imm, .operand operand_cimmd)]
  | .cl_lq =>
    [(.rd, .operand8 operand_crdq), (.rs1, .operand8 operand_crs1q), (.rs2, .const 0),
    (.imm, .operand operand_cimmq)]
  | .cr =>
    [(.rd, .operand operand_crs1rd), (.rs1, .operand operand_crs1rd),
    (.rs2, .operand operand_crs2), (.imm, .const 0)]
  | .cr_mv =>
    [(.rd, .operand operand_crd), (.rs1, .operand operand_crs2), (.rs2, .const 0),
    (.imm, .const 0)]
  | .cr_jalr => [(.rd, .const 1), (.rs1, .operand operand_crs1), (.rs2, .const 0), (.imm, .const 0)]
  | .cr_jr => [(.rd, .const 0), (.rs1, .operand operand_crs1), (.rs2, .const 0), (.imm, .const 0)]
  | .cs =>
    [(.rd, .operand8 operand_crs1rdq), (.rs1, .operand8 operand_crs1rdq),
    (.rs2, .operand8 operand_crs2q), (.imm, .const 0)]
  | .cs_sw =>
    [(.rd, .const 0), (.rs1, .operand8 operand_crs1q), (.rs2, .operand8 operand_crs2q),
    (.imm, .operand operand_cimmw)]
  | .cs_sd =>
    [(.rd, .const 0), (.rs1, .operand8 operand_crs1q), (.rs2, .operand8 operand_crs2q),
    (.imm, .operand operand_cimmd)]
  | .cs_sq =>
    [(.rd, .const 0), (.rs1, .operand8 operand_crs1q), (.rs2, .operand8 operand_crs2q),
    (.imm, .operand operand_cimmq)]
  | .css_swsp =>
    [(.rd, .const 0), (.rs1, .const 2), (.rs2, .operand operand_crs2),
    (.imm, .operand operand_cimmswsp)]
  | .css_sdsp =>
    [(.rd, .const 0), (.rs1, .const 2), (.rs2, .operand operand_crs2),
    (.imm, .operand operand_cimmsdsp)]
  | .css_sqsp =>
    [(.rd, .const 0), (.rs1, .const 2), (.rs2, .operand operand_crs2),
    (.imm, .operand operand_cimmsqsp)]
  | .illegal => []

/-! ## Opcodes -/

/-- The values that a `switch` compares: shifted and masked parts of the instruction. -/
abbrev Disc := List (ℕ × ℕ)

def Disc.value (inst : BitVec 64) : Disc → BitVec 64
  | [] => 0
  | (shift, mask) :: d => ((inst >>> shift) &&& BitVec.ofNat 64 mask) ||| Disc.value inst d

inductive Switch where
  /-- The operation depends on the instruction set. -/
  | isa (rv32 rv64 rv128 : Op)
  | test (d : Disc) (n : ℕ) (yes no : Switch)

namespace Switch

def op (o : Op) : Switch := .isa o o o

def illegal : Switch := .op .illegal

def switch (d : Disc) (cases : List (ℕ × Switch)) (default : Switch) : Switch :=
  cases.foldr (fun c rest => .test d c.1 c.2 rest) default

def eval (isa : Isa) (inst : BitVec 64) : Switch → Op
  | .isa rv32 rv64 rv128 =>
    match isa with
    | .rv32 => rv32
    | .rv64 => rv64
    | .rv128 => rv128
  | .test d n yes no =>
    if d.value inst = BitVec.ofNat 64 n then yes.eval isa inst else no.eval isa inst

end Switch

/-- `decode_inst_op`, with all extensions. -/
def decode_inst_op : Switch :=
  .switch [(0, 0x3)]
    [(0, .switch [(13, 0x7)]
      [(0, .op .c_addi4spn), (1, .op .c_fld), (2, .op .c_lw), (3, .isa .c_flw .c_ld .illegal),
       (5, .op .c_fsd), (6, .op .c_sw), (7, .isa .c_fsw .c_sd .illegal)] .illegal),
     (1, .switch [(13, 0x7)]
      [(0, .switch [(2, 0x7ff)]
        [(0, .op .c_nop)] (.op .c_addi)),
       (1, .isa .c_jal .c_addiw .illegal), (2, .op .c_li),
       (3, .switch [(7, 0x1f)]
        [(2, .op .c_addi16sp)] (.op .c_lui)),
       (4, .switch [(10, 0x3)]
        [(0, .isa .c_srli .c_srli .illegal), (1, .isa .c_srai .c_srai .illegal), (2, .op .c_andi),
         (3, .switch [(10, 0x4), (5, 0x3)]
          [(0, .op .c_sub), (1, .op .c_xor), (2, .op .c_or), (3, .op .c_and), (4, .op .c_subw),
           (5, .op .c_addw)] .illegal)] .illegal),
       (5, .op .c_j), (6, .op .c_beqz), (7, .op .c_bnez)] .illegal),
     (2, .switch [(13, 0x7)]
      [(0, .isa .c_slli .c_slli .illegal), (1, .op .c_fldsp), (2, .op .c_lwsp),
       (3, .isa .c_flwsp .c_ldsp .illegal),
       (4, .switch [(12, 0x1)]
        [(0, .switch [(2, 0x1f)]
          [(0, .op .c_jr)] (.op .c_mv)),
         (1, .switch [(2, 0x1f)]
          [(0, .switch [(7, 0x1f)]
            [(0, .op .c_ebreak)] (.op .c_jalr))] (.op .c_add))] .illegal),
       (5, .op .c_fsdsp), (6, .op .c_swsp), (7, .isa .c_fswsp .c_sdsp .illegal)] .illegal),
     (3, .switch [(2, 0x1f)]
      [(0, .switch [(12, 0x7)]
        [(0, .op .lb), (1, .op .lh), (2, .op .lw), (3, .op .ld), (4, .op .lbu), (5, .op .lhu),
         (6, .op .lwu), (7, .isa .illegal .illegal .ldu)] .illegal),
       (1, .switch [(12, 0x7)]
        [(2, .op .flw), (3, .op .fld), (4, .op .flq)] .illegal),
       (3, .switch [(12, 0x7)]
        [(0, .op .fence), (1, .op .fence_i), (2, .isa .illegal .illegal .lq)] .illegal),
       (4, .switch [(12, 0x7)]
        [(0, .op .addi),
         (1, .switch [(27, 0x1f)]
          [(0, .isa .slli .slli .slli)] .illegal),
         (2, .op .slti), (3, .op .sltiu), (4, .op .xori),
         (5, .switch [(27, 0x1f)]
          [(0, .isa .srli .srli .srli), (8, .isa .srai .srai .srai)] .illegal),
         (6, .op .ori), (7, .op .andi)] .illegal),
       (5, .op .auipc),
       (6, .switch [(12, 0x7)]
        [(0, .op .addiw),
         (1, .switch [(25, 0x7f)]
          [(0, .op .slliw)] .illegal),
         (5, .switch [(25, 0x7f)]
          [(0, .op .srliw), (32, .op .sraiw)] .illegal)] .illegal),
       (8, .switch [(12, 0x7)]
        [(0, .op .sb), (1, .op .sh), (2, .op .sw), (3, .op .sd), (4, .isa .illegal .illegal .sq)] .illegal),
       (9, .switch [(12, 0x7)]
        [(2, .op .fsw), (3, .op .fsd), (4, .op .fsq)] .illegal),
       (11, .switch [(24, 0xf8), (12, 0x7)]
        [(2, .op .amoadd_w), (3, .op .amoadd_d), (4, .isa .illegal .illegal .amoadd_q),
         (10, .op .amoswap_w), (11, .op .amoswap_d), (12, .isa .illegal .illegal .amoswap_q),
         (18, .switch [(20, 0x1f)]
          [(0, .op .lr_w)] .illegal),
         (19, .switch [(20, 0x1f)]
          [(0, .op .lr_d)] .illegal),
         (20, .switch [(20, 0x1f)]
          [(0, .isa .illegal .illegal .lr_q)] .illegal),
         (26, .op .sc_w), (27, .op .sc_d), (28, .isa .illegal .illegal .sc_q), (34, .op .amoxor_w),
         (35, .op .amoxor_d), (36, .isa .illegal .illegal .amoxor_q), (66, .op .amoor_w),
         (67, .op .amoor_d), (68, .isa .illegal .illegal .amoor_q), (98, .op .amoand_w),
         (99, .op .amoand_d), (100, .isa .illegal .illegal .amoand_q), (130, .op .amomin_w),
         (131, .op .amomin_d), (132, .isa .illegal .illegal .amomin_q), (162, .op .amomax_w),
         (163, .op .amomax_d), (164, .isa .illegal .illegal .amomax_q), (194, .op .amominu_w),
         (195, .op .amominu_d), (196, .isa .illegal .illegal .amominu_q), (226, .op .amomaxu_w),
         (227, .op .amomaxu_d), (228, .isa .illegal .illegal .amomaxu_q)] .illegal),
       (12, .switch [(22, 0x3f8), (12, 0x7)]
        [(0, .op .add), (1, .op .sll), (2, .op .slt), (3, .op .sltu), (4, .op .xor), (5, .op .srl),
         (6, .op .or), (7, .op .and), (8, .op .mul), (9, .op .mulh), (10, .op .mulhsu),
         (11, .op .mulhu), (12, .op .div), (13, .op .divu), (14, .op .rem), (15, .op .remu),
         (256, .op .sub), (261, .op .sra)] .illegal),
       (13, .op .lui),
       (14, .switch [(22, 0x3f8), (12, 0x7)]
        [(0, .op .addw), (1, .op .sllw), (5, .op .srlw), (8, .op .mulw), (12, .op .divw),
         (13, .op .divuw), (14, .op .remw), (15, .op .remuw), (256, .op .subw), (261, .op .sraw)] .illegal),
       (16, .switch [(25, 0x3)]
        [(0, .op .fmadd_s), (1, .op .fmadd_d), (3, .op .fmadd_q)] .illegal),
       (17, .switch [(25, 0x3)]
        [(0, .op .fmsub_s), (1, .op .fmsub_d), (3, .op .fmsub_q)] .illegal),
       (18, .switch [(25, 0x3)]
        [(0, .op .fnmsub_s), (1, .op .fnmsub_d), (3, .op .fnmsub_q)] .illegal),
       (19, .switch [(25, 0x3)]
        [(0, .op .fnmadd_s), (1, .op .fnmadd_d), (3, .op .fnmadd_q)] .illegal),
       (20, .switch [(25, 0x7f)]
        [(0, .op .fadd_s), (1, .op .fadd_d), (3, .op .fadd_q), (4, .op .fsub_s), (5, .op .fsub_d),
         (7, .op .fsub_q), (8, .op .fmul_s), (9, .op .fmul_d), (11, .op .fmul_q),
         (12, .op .fdiv_s), (13, .op .fdiv_d), (15, .op .fdiv_q),
         (16, .switch [(12, 0x7)]
          [(0, .op .fsgnj_s), (1, .op .fsgnjn_s), (2, .op .fsgnjx_s)] .illegal),
         (17, .switch [(12, 0x7)]
          [(0, .op .fsgnj_d), (1, .op .fsgnjn_d), (2, .op .fsgnjx_d)] .illegal),
         (19, .switch [(12, 0x7)]
          [(0, .op .fsgnj_q), (1, .op .fsgnjn_q), (2, .op .fsgnjx_q)] .illegal),
         (20, .switch [(12, 0x7)]
          [(0, .op .fmin_s), (1, .op .fmax_s)] .illegal),
         (21, .switch [(12, 0x7)]
          [(0, .op .fmin_d), (1, .op .fmax_d)] .illegal),
         (23, .switch [(12, 0x7)]
          [(0, .op .fmin_q), (1, .op .fmax_q)] .illegal),
         (32, .switch [(20, 0x1f)]
          [(1, .op .fcvt_s_d), (3, .op .fcvt_s_q)] .illegal),
         (33, .switch [(20, 0x1f)]
          [(0, .op .fcvt_d_s), (3, .op .fcvt_d_q)] .illegal),
         (35, .switch [(20, 0x1f)]
          [(0, .op .fcvt_q_s), (1, .op .fcvt_q_d)] .illegal),
         (44, .switch [(20, 0x1f)]
          [(0, .op .fsqrt_s)] .illegal),
         (45, .switch [(20, 0x1f)]
          [(0, .op .fsqrt_d)] .illegal),
         (47, .switch [(20, 0x1f)]
          [(0, .op .fsqrt_q)] .illegal),
         (80, .switch [(12, 0x7)]
          [(0, .op .fle_s), (1, .op .flt_s), (2, .op .feq_s)] .illegal),
         (81, .switch [(12, 0x7)]
          [(0, .op .fle_d), (1, .op .flt_d), (2, .op .feq_d)] .illegal),
         (83, .switch [(12, 0x7)]
          [(0, .op .fle_q), (1, .op .flt_q), (2, .op .feq_q)] .illegal),
         (96, .switch [(20, 0x1f)]
          [(0, .op .fcvt_w_s), (1, .op .fcvt_wu_s), (2, .op .fcvt_l_s), (3, .op .fcvt_lu_s)] .illegal),
         (97, .switch [(20, 0x1f)]
          [(0, .op .fcvt_w_d), (1, .op .fcvt_wu_d), (2, .op .fcvt_l_d), (3, .op .fcvt_lu_d)] .illegal),
         (99, .switch [(20, 0x1f)]
          [(0, .op .fcvt_w_q), (1, .op .fcvt_wu_q), (2, .op .fcvt_l_q), (3, .op .fcvt_lu_q)] .illegal),
         (104, .switch [(20, 0x1f)]
          [(0, .op .fcvt_s_w), (1, .op .fcvt_s_wu), (2, .op .fcvt_s_l), (3, .op .fcvt_s_lu)] .illegal),
         (105, .switch [(20, 0x1f)]
          [(0, .op .fcvt_d_w), (1, .op .fcvt_d_wu), (2, .op .fcvt_d_l), (3, .op .fcvt_d_lu)] .illegal),
         (107, .switch [(20, 0x1f)]
          [(0, .op .fcvt_q_w), (1, .op .fcvt_q_wu), (2, .op .fcvt_q_l), (3, .op .fcvt_q_lu)] .illegal),
         (112, .switch [(17, 0xf8), (12, 0x7)]
          [(0, .op .fmv_x_s), (1, .op .fclass_s)] .illegal),
         (113, .switch [(17, 0xf8), (12, 0x7)]
          [(0, .op .fmv_x_d), (1, .op .fclass_d)] .illegal),
         (115, .switch [(17, 0xf8), (12, 0x7)]
          [(0, .op .fmv_x_q), (1, .op .fclass_q)] .illegal),
         (120, .switch [(17, 0xf8), (12, 0x7)]
          [(0, .op .fmv_s_x)] .illegal),
         (121, .switch [(17, 0xf8), (12, 0x7)]
          [(0, .op .fmv_d_x)] .illegal),
         (123, .switch [(17, 0xf8), (12, 0x7)]
          [(0, .op .fmv_q_x)] .illegal)] .illegal),
       (22, .switch [(12, 0x7)]
        [(0, .isa .illegal .illegal .addid),
         (1, .switch [(26, 0x3f)]
          [(0, .isa .illegal .illegal .sllid)] .illegal),
         (5, .switch [(26, 0x3f)]
          [(0, .isa .illegal .illegal .srlid), (16, .isa .illegal .illegal .sraid)] .illegal)] .illegal),
       (24, .switch [(12, 0x7)]
        [(0, .op .beq), (1, .op .bne), (4, .op .blt), (5, .op .bge), (6, .op .bltu),
         (7, .op .bgeu)] .illegal),
       (25, .switch [(12, 0x7)]
        [(0, .op .jalr)] .illegal),
       (27, .op .jal),
       (28, .switch [(12, 0x7)]
        [(0, .switch [(20, 0xfe0), (7, 0x1f)]
          [(0, .switch [(15, 0x3ff)]
            [(0, .op .ecall), (32, .op .ebreak), (64, .op .uret)] .illegal),
           (256, .switch [(20, 0x1f)]
            [(2, .switch [(15, 0x1f)]
              [(0, .op .sret)] .illegal),
             (4, .op .sfence_vm),
             (5, .switch [(15, 0x1f)]
              [(0, .op .wfi)] .illegal)] .illegal),
           (288, .op .sfence_vma),
           (512, .switch [(15, 0x3ff)]
            [(64, .op .hret)] .illegal),
           (768, .switch [(15, 0x3ff)]
            [(64, .op .mret)] .illegal),
           (1952, .switch [(15, 0x3ff)]
            [(576, .op .dret)] .illegal)] .illegal),
         (1, .op .csrrw), (2, .op .csrrs), (3, .op .csrrc), (5, .op .csrrwi), (6, .op .csrrsi),
         (7, .op .csrrci)] .illegal),
       (30, .switch [(22, 0x3f8), (12, 0x7)]
        [(0, .isa .illegal .illegal .addd), (1, .isa .illegal .illegal .slld),
         (5, .isa .illegal .illegal .srld), (8, .isa .illegal .illegal .muld),
         (12, .isa .illegal .illegal .divd), (13, .isa .illegal .illegal .divud),
         (14, .isa .illegal .illegal .remd), (15, .isa .illegal .illegal .remud),
         (256, .isa .illegal .illegal .subd), (261, .isa .illegal .illegal .srad)] .illegal)] .illegal)] .illegal

/-! ## Instructions -/

/-- `decode_inst_type` -/
def decode_inst_type (dec : Decode) (inst : BitVec 64) : Decode :=
  let codec := rv_inst_codec dec.op
  codec.assigns.foldl (fun dec a => dec.set a.1 (a.2.value inst)) { dec with codec := codec }

/-- `decode_inst` on a new `decode`. -/
def decode_inst (isa : Isa) (inst : BitVec 64) : Decode :=
  decode_inst_type { Decode.init with op := decode_inst_op.eval isa inst } inst

def rv_inst_decomp : Isa → Op → Op
  | .rv32 => rv_inst_decomp_rv32
  | .rv64 => rv_inst_decomp_rv64
  | .rv128 => rv_inst_decomp_rv128

/-- `decompress_inst_rv32` and its siblings. -/
def decompress_inst (isa : Isa) (dec : Decode) : Decode :=
  let decomp_op := rv_inst_decomp isa dec.op
  if decomp_op ≠ .illegal then { dec with op := decomp_op, codec := rv_inst_codec decomp_op }
  else dec

/-! ## Compression -/

def Constraint.check (dec : Decode) : Constraint → Bool
  | .simm_6 => -32 ≤ dec.imm.toInt ∧ dec.imm.toInt < 32
  | .simm_9 => -256 ≤ dec.imm.toInt ∧ dec.imm.toInt < 256
  | .simm_10 => -512 ≤ dec.imm.toInt ∧ dec.imm.toInt < 512
  | .simm_12 => -2048 ≤ dec.imm.toInt ∧ dec.imm.toInt < 2048
  | .imm_5 => 0 ≤ dec.imm.toInt ∧ dec.imm.toInt ≤ 0b11111
  | .imm_7 => 0 ≤ dec.imm.toInt ∧ dec.imm.toInt ≤ 0b1111111
  | .imm_8 => 0 ≤ dec.imm.toInt ∧ dec.imm.toInt ≤ 0b11111111
  | .imm_9 => 0 ≤ dec.imm.toInt ∧ dec.imm.toInt ≤ 0b111111111
  | .imm_10 => 0 ≤ dec.imm.toInt ∧ dec.imm.toInt ≤ 0b1111111111
  | .imm_12 => 0 ≤ dec.imm.toInt ∧ dec.imm.toInt ≤ 0b111111111111
  | .imm_18 => 0 ≤ dec.imm.toInt ∧ dec.imm.toInt ≤ 0b111111111111111111
  | .imm_nz => dec.imm ≠ 0
  | .imm_x2 => dec.imm &&& 0b1 = 0
  | .imm_x4 => dec.imm &&& 0b11 = 0
  | .imm_x8 => dec.imm &&& 0b111 = 0
  | .imm_x16 => dec.imm &&& 0b1111 = 0
  | .rd_b3 => 8 ≤ dec.rd.toNat ∧ dec.rd.toNat ≤ 15
  | .rs1_b3 => 8 ≤ dec.rs1.toNat ∧ dec.rs1.toNat ≤ 15
  | .rs2_b3 => 8 ≤ dec.rs2.toNat ∧ dec.rs2.toNat ≤ 15
  | .rd_eq_rs1 => dec.rd = dec.rs1
  | .rd_eq_ra => dec.rd = 1
  | .rd_eq_sp => dec.rd = 2
  | .rd_eq_x0 => dec.rd = 0
  | .rs1_eq_sp => dec.rs1 = 2
  | .rs1_eq_x0 => dec.rs1 = 0
  | .rs2_eq_x0 => dec.rs2 = 0
  | .rd_ne_x0_x2 => dec.rd ≠ 0 ∧ dec.rd ≠ 2
  | .rd_ne_x0 => dec.rd ≠ 0
  | .rs1_ne_x0 => dec.rs1 ≠ 0
  | .rs2_ne_x0 => dec.rs2 ≠ 0
  | .imm_eq_zero => dec.imm = 0
  | .rs2_eq_rs1 => dec.rs2 = dec.rs1
  | .rs1_eq_ra => dec.rs1 = 1
  | .imm_eq_n1 => dec.imm = -1
  | .imm_eq_p1 => dec.imm = 1
  | .csr_eq_0x001 => dec.imm = 0x001
  | .csr_eq_0x002 => dec.imm = 0x002
  | .csr_eq_0x003 => dec.imm = 0x003
  | .csr_eq_0xc00 => dec.imm = 0xc00
  | .csr_eq_0xc01 => dec.imm = 0xc01
  | .csr_eq_0xc02 => dec.imm = 0xc02
  | .csr_eq_0xc80 => dec.imm = 0xc80
  | .csr_eq_0xc81 => dec.imm = 0xc81
  | .csr_eq_0xc82 => dec.imm = 0xc82

/-- `constraint_check` -/
def constraint_check (dec : Decode) (cs : List Constraint) : Bool := cs.all (Constraint.check dec)

def rv_inst_comp : Isa → Op → List (Op × List Constraint)
  | .rv32 => rv_inst_comp_rv32
  | .rv64 => rv_inst_comp_rv64
  | .rv128 => fun _ => []

/-- `compress_inst_rv32` and `compress_inst_rv64`, `none` where they return false. -/
def compress_inst (isa : Isa) (dec : Decode) : Option Decode :=
  match (rv_inst_comp isa dec.op).find? fun c => constraint_check dec c.2 with
  | some c => some { dec with op := c.1, codec := rv_inst_codec c.1 }
  | none => none

end RvCkpt.Asm
