import RvCkpt.Asm.Codec

/-! # Operands and their ranges

What `rv_inst_operand_data` (`src/src/asm/meta.cc`) says of the operands of each codec: which
fields of a decoded instruction they are, and which values their types have.
-/

namespace RvCkpt.Asm
set_option autoImplicit false

/-! ## Ranges -/

inductive Range where
  | fixed (n : ℕ)
  /-- Numbers of `width` bits, multiples of `2 ^ low`. -/
  | unsigned (width low : ℕ)
  | signed (width low : ℕ)
  /-- The registers x8 to x15. -/
  | creg
  /-- One register in two fields. -/
  | likeRs1
  deriving DecidableEq, Repr

namespace Range

def reg : Range := .unsigned 5 0

def Holds (dec : Decode) (x : BitVec 64) : Range → Prop
  | fixed n => x = BitVec.ofNat 64 n
  | unsigned width low => x.toNat < 2 ^ width ∧ 2 ^ low ∣ x.toNat
  | signed width low =>
    -2 ^ (width - 1) ≤ x.toInt ∧ x.toInt < 2 ^ (width - 1) ∧ 2 ^ low ∣ x.toNat
  | creg => 8 ≤ x.toNat ∧ x.toNat < 16
  | likeRs1 => x = dec.get .rs1

instance (dec : Decode) (x : BitVec 64) (r : Range) : Decidable (r.Holds dec x) :=
  match r with
  | fixed n => inferInstanceAs (Decidable (x = BitVec.ofNat 64 n))
  | unsigned width low => inferInstanceAs (Decidable (x.toNat < 2 ^ width ∧ 2 ^ low ∣ x.toNat))
  | signed width low =>
    inferInstanceAs (Decidable
      (-2 ^ (width - 1) ≤ x.toInt ∧ x.toInt < 2 ^ (width - 1) ∧ 2 ^ low ∣ x.toNat))
  | creg => inferInstanceAs (Decidable (8 ≤ x.toNat ∧ x.toNat < 16))
  | likeRs1 => inferInstanceAs (Decidable (x = dec.get .rs1))

end Range

/-- The fields that a codec fills from operands or with implied registers; all others are zero. -/
def Codec.ranges : Codec → List (Field × Range)
  | .none | .illegal | .ci_none => []
  | .u => [(.rd, .reg), (.imm, .signed 32 12)]
  | .uj => [(.rd, .reg), (.imm, .signed 21 1)]
  | .i => [(.rd, .reg), (.rs1, .reg), (.imm, .signed 12 0)]
  | .i_sh5 => [(.rd, .reg), (.rs1, .reg), (.imm, .unsigned 5 0)]
  | .i_sh6 => [(.rd, .reg), (.rs1, .reg), (.imm, .unsigned 6 0)]
  | .i_sh7 => [(.rd, .reg), (.rs1, .reg), (.imm, .unsigned 7 0)]
  | .i_csr => [(.rd, .reg), (.rs1, .reg), (.imm, .unsigned 12 0)]
  | .s => [(.rs1, .reg), (.rs2, .reg), (.imm, .signed 12 0)]
  | .sb => [(.rs1, .reg), (.rs2, .reg), (.imm, .signed 13 1)]
  | .r => [(.rd, .reg), (.rs1, .reg), (.rs2, .reg)]
  | .r_m => [(.rd, .reg), (.rs1, .reg), (.rs2, .reg), (.rm, .unsigned 3 0)]
  | .r4_m => [(.rd, .reg), (.rs1, .reg), (.rs2, .reg), (.rs3, .reg), (.rm, .unsigned 3 0)]
  | .r_a => [(.rd, .reg), (.rs1, .reg), (.rs2, .reg), (.aq, .unsigned 1 0), (.rl, .unsigned 1 0)]
  | .r_l => [(.rd, .reg), (.rs1, .reg), (.aq, .unsigned 1 0), (.rl, .unsigned 1 0)]
  | .r_f => [(.pred, .unsigned 4 0), (.succ, .unsigned 4 0)]
  | .cb => [(.rs1, .creg), (.imm, .signed 9 1)]
  | .cb_imm => [(.rd, .likeRs1), (.rs1, .creg), (.imm, .signed 6 0)]
  | .cb_sh6 => [(.rd, .likeRs1), (.rs1, .creg), (.imm, .unsigned 6 0)]
  | .ci => [(.rd, .likeRs1), (.rs1, .reg), (.imm, .signed 6 0)]
  | .ci_sh6 => [(.rd, .likeRs1), (.rs1, .reg), (.imm, .unsigned 6 0)]
  | .ci_16sp => [(.rd, .fixed 2), (.rs1, .fixed 2), (.imm, .signed 10 4)]
  | .ci_lwsp => [(.rd, .reg), (.rs1, .fixed 2), (.imm, .unsigned 8 2)]
  | .ci_ldsp => [(.rd, .reg), (.rs1, .fixed 2), (.imm, .unsigned 9 3)]
  | .ci_lqsp => [(.rd, .reg), (.rs1, .fixed 2), (.imm, .unsigned 10 4)]
  | .ci_li => [(.rd, .reg), (.imm, .signed 6 0)]
  | .ci_lui => [(.rd, .reg), (.imm, .signed 18 12)]
  | .ciw_4spn => [(.rd, .creg), (.rs1, .fixed 2), (.imm, .unsigned 10 2)]
  | .cj => [(.imm, .signed 12 1)]
  | .cj_jal => [(.rd, .fixed 1), (.imm, .signed 12 1)]
  | .cl_lw => [(.rd, .creg), (.rs1, .creg), (.imm, .unsigned 7 2)]
  | .cl_ld => [(.rd, .creg), (.rs1, .creg), (.imm, .unsigned 8 3)]
  | .cl_lq => [(.rd, .creg), (.rs1, .creg), (.imm, .unsigned 9 4)]
  | .cr => [(.rd, .likeRs1), (.rs1, .reg), (.rs2, .reg)]
  | .cr_mv => [(.rd, .reg), (.rs1, .reg)]
  | .cr_jalr => [(.rd, .fixed 1), (.rs1, .reg)]
  | .cr_jr => [(.rs1, .reg)]
  | .cs => [(.rd, .likeRs1), (.rs1, .creg), (.rs2, .creg)]
  | .cs_sw => [(.rs1, .creg), (.rs2, .creg), (.imm, .unsigned 7 2)]
  | .cs_sd => [(.rs1, .creg), (.rs2, .creg), (.imm, .unsigned 8 3)]
  | .cs_sq => [(.rs1, .creg), (.rs2, .creg), (.imm, .unsigned 9 4)]
  | .css_swsp => [(.rs1, .fixed 2), (.rs2, .reg), (.imm, .unsigned 8 2)]
  | .css_sdsp => [(.rs1, .fixed 2), (.rs2, .reg), (.imm, .unsigned 9 3)]
  | .css_sqsp => [(.rs1, .fixed 2), (.rs2, .reg), (.imm, .unsigned 10 4)]

def Codec.range (codec : Codec) (f : Field) : Range := (codec.ranges.lookup f).getD (.fixed 0)

/-- The registers of its codec that an operation has no operand for: the opcode has their bits. -/
def Op.lacks : Op → List Field
  | .fsqrt_s | .fsqrt_d | .fsqrt_q | .fcvt_w_s | .fcvt_wu_s | .fcvt_s_w | .fcvt_s_wu | .fcvt_l_s
  | .fcvt_lu_s | .fcvt_s_l | .fcvt_s_lu | .fcvt_s_d | .fcvt_d_s | .fcvt_w_d | .fcvt_wu_d
  | .fcvt_d_w | .fcvt_d_wu | .fcvt_l_d | .fcvt_lu_d | .fcvt_d_l | .fcvt_d_lu | .fcvt_s_q
  | .fcvt_q_s | .fcvt_d_q | .fcvt_q_d | .fcvt_w_q | .fcvt_wu_q | .fcvt_q_w | .fcvt_q_wu
  | .fcvt_l_q | .fcvt_lu_q | .fcvt_q_l | .fcvt_q_lu | .fmv_x_s | .fmv_s_x | .fmv_x_d | .fmv_d_x
  | .fmv_x_q | .fmv_q_x | .fclass_s | .fclass_d | .fclass_q => [.rs2]
  | .sfence_vm => [.rd, .rs2]
  | .sfence_vma => [.rd]
  | _ => []

def Op.range (op : Op) (f : Field) : Range :=
  if f ∈ op.lacks then .fixed 0 else (rv_inst_codec op).range f

/-- Every operand has a value of its type. -/
def Decode.InRange (dec : Decode) : Prop := ∀ f, (dec.op.range f).Holds dec (dec.get f)

/-! ## Constraints -/

/-- The constraints of an operation, the same in all instruction sets that have it. -/
def Op.constraints : Op → List Constraint
  | .c_addi4spn => rvcc_c_addi4spn
  | .c_fld => rvcc_c_fld
  | .c_lw => rvcc_c_lw
  | .c_flw => rvcc_c_flw
  | .c_fsd => rvcc_c_fsd
  | .c_sw => rvcc_c_sw
  | .c_fsw => rvcc_c_fsw
  | .c_nop => rvcc_c_nop
  | .c_addi => rvcc_c_addi
  | .c_jal => rvcc_c_jal
  | .c_li => rvcc_c_li
  | .c_addi16sp => rvcc_c_addi16sp
  | .c_lui => rvcc_c_lui
  | .c_srli => rvcc_c_srli_rv64c
  | .c_srai => rvcc_c_srai_rv64c
  | .c_andi => rvcc_c_andi
  | .c_sub => rvcc_c_sub
  | .c_xor => rvcc_c_xor
  | .c_or => rvcc_c_or
  | .c_and => rvcc_c_and
  | .c_subw => rvcc_c_subw
  | .c_addw => rvcc_c_addw
  | .c_j => rvcc_c_j
  | .c_beqz => rvcc_c_beqz
  | .c_bnez => rvcc_c_bnez
  | .c_slli => rvcc_c_slli_rv64c
  | .c_fldsp => rvcc_c_fldsp
  | .c_lwsp => rvcc_c_lwsp
  | .c_flwsp => rvcc_c_flwsp
  | .c_jr => rvcc_c_jr
  | .c_mv => rvcc_c_mv
  | .c_ebreak => rvcc_c_ebreak
  | .c_jalr => rvcc_c_jalr
  | .c_add => rvcc_c_add
  | .c_fsdsp => rvcc_c_fsdsp
  | .c_swsp => rvcc_c_swsp
  | .c_fswsp => rvcc_c_fswsp
  | .c_ld => rvcc_c_ld
  | .c_sd => rvcc_c_sd
  | .c_addiw => rvcc_c_addiw
  | .c_ldsp => rvcc_c_ldsp
  | .c_sdsp => rvcc_c_sdsp
  | .c_lq => rvcc_c_lq
  | .c_sq => rvcc_c_sq
  | .c_lqsp => rvcc_c_lqsp
  | .c_sqsp => rvcc_c_sqsp
  | _ => []

theorem rv_inst_comp_constraints (isa : Isa) (op : Op) :
    ∀ c ∈ rv_inst_comp isa op, c.2 = c.1.constraints := by
  cases isa <;> cases op <;> decide

/-! ## Fields -/

@[simp] theorem Decode.get_withOp (dec : Decode) (op : Op) (codec : Codec) (f : Field) :
    { dec with op := op, codec := codec }.get f = dec.get f := by
  cases f <;> rfl

theorem zeroExtend_inj {n : ℕ} (hn : n ≤ 64) {x y : BitVec n}
    (h : x.zeroExtend 64 = y.zeroExtend 64) : x = y := by
  apply BitVec.eq_of_toNat_eq
  have hnat := congrArg BitVec.toNat h
  rwa [BitVec.toNat_setWidth_of_le hn, BitVec.toNat_setWidth_of_le hn] at hnat

theorem signExtend_inj {n : ℕ} (hn : n ≤ 64) {x y : BitVec n}
    (h : x.signExtend 64 = y.signExtend 64) : x = y := by
  apply BitVec.eq_of_toInt_eq
  have hint := congrArg BitVec.toInt h
  rwa [BitVec.toInt_signExtend_of_le hn, BitVec.toInt_signExtend_of_le hn] at hint

/-- An instruction is its operation and its fields. -/
theorem Decode.ext_get {a b : Decode} (hop : a.op = b.op) (hcodec : a.codec = b.codec)
    (h : ∀ f, a.get f = b.get f) : a = b := by
  have himm : a.imm = b.imm := signExtend_inj (by decide) (h .imm)
  have hrd : a.rd = b.rd := zeroExtend_inj (by decide) (h .rd)
  have hrs1 : a.rs1 = b.rs1 := zeroExtend_inj (by decide) (h .rs1)
  have hrs2 : a.rs2 = b.rs2 := zeroExtend_inj (by decide) (h .rs2)
  have hrs3 : a.rs3 = b.rs3 := zeroExtend_inj (by decide) (h .rs3)
  have hrm : a.rm = b.rm := zeroExtend_inj (by decide) (h .rm)
  have haq : a.aq = b.aq := zeroExtend_inj (by decide) (h .aq)
  have hrl : a.rl = b.rl := zeroExtend_inj (by decide) (h .rl)
  have hpred : a.pred = b.pred := zeroExtend_inj (by decide) (h .pred)
  have hsucc : a.succ = b.succ := zeroExtend_inj (by decide) (h .succ)
  cases a
  cases b
  simp only at hop hcodec himm hrd hrs1 hrs2 hrs3 hrm haq hrl hpred hsucc
  rw [hop, hcodec, himm, hrd, hrs1, hrs2, hrs3, hrm, haq, hrl, hpred, hsucc]

end RvCkpt.Asm
