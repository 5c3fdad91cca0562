import RvCkpt.Asm.RoundTrip

/-! # Processor models

`inst_decode` of the processor models of `src/src/emu/processor-model.h`: the decoder for the
extensions of the model, after which the models with compressed instructions expand them.
-/

namespace RvCkpt.Asm
set_option autoImplicit false

inductive Ext where
  | i | m | a | s | f | d | q | c
  deriving DecidableEq, Repr

/-- The extension that `decode_inst_op` asks for before it returns the operation. -/
def Op.ext : Op → Ext
  | .mul | .mulh | .mulhsu | .mulhu | .div | .divu | .rem | .remu | .mulw | .divw | .divuw | .remw
  | .remuw | .muld | .divd | .divud | .remd | .remud => .m
  | .lr_w | .sc_w | .amoswap_w | .amoadd_w | .amoxor_w | .amoor_w | .amoand_w | .amomin_w
  | .amomax_w | .amominu_w | .amomaxu_w | .lr_d | .sc_d | .amoswap_d | .amoadd_d | .amoxor_d
  | .amoor_d | .amoand_d | .amomin_d | .amomax_d | .amominu_d | .amomaxu_d | .lr_q | .sc_q
  | .amoswap_q | .amoadd_q | .amoxor_q | .amoor_q | .amoand_q | .amomin_q | .amomax_q | .amominu_q
  | .amomaxu_q => .a
  | .ecall | .ebreak | .uret | .sret | .hret | .mret | .dret | .sfence_vm | .sfence_vma | .wfi
  | .csrrw | .csrrs | .csrrc | .csrrwi | .csrrsi | .csrrci => .s
  | .flw | .fsw | .fmadd_s | .fmsub_s | .fnmsub_s | .fnmadd_s | .fadd_s | .fsub_s | .fmul_s
  | .fdiv_s | .fsgnj_s | .fsgnjn_s | .fsgnjx_s | .fmin_s | .fmax_s | .fsqrt_s | .fle_s | .flt_s
  | .feq_s | .fcvt_w_s | .fcvt_wu_s | .fcvt_s_w | .fcvt_s_wu | .fmv_x_s | .fclass_s | .fmv_s_x
  | .fcvt_l_s | .fcvt_lu_s | .fcvt_s_l | .fcvt_s_lu => .f
  | .fld | .fsd | .fmadd_d | .fmsub_d | .fnmsub_d | .fnmadd_d | .fadd_d | .fsub_d | .fmul_d
  | .fdiv_d | .fsgnj_d | .fsgnjn_d | .fsgnjx_d | .fmin_d | .fmax_d | .fcvt_s_d | .fcvt_d_s
  | .fsqrt_d | .fle_d | .flt_d | .feq_d | .fcvt_w_d | .fcvt_wu_d | .fcvt_d_w | .fcvt_d_wu
  | .fclass_d | .fcvt_l_d | .fcvt_lu_d | .fmv_x_d | .fcvt_d_l | .fcvt_d_lu | .fmv_d_x => .d
  | .flq | .fsq | .fmadd_q | .fmsub_q | .fnmsub_q | .fnmadd_q | .fadd_q | .fsub_q | .fmul_q
  | .fdiv_q | .fsgnj_q | .fsgnjn_q | .fsgnjx_q | .fmin_q | .fmax_q | .fcvt_s_q | .fcvt_q_s
  | .fcvt_d_q | .fcvt_q_d | .fsqrt_q | .fle_q | .flt_q | .feq_q | .fcvt_w_q | .fcvt_wu_q | .fcvt_q_w
  | .fcvt_q_wu | .fclass_q | .fcvt_l_q | .fcvt_lu_q | .fcvt_q_l | .fcvt_q_lu | .fmv_x_q
  | .fmv_q_x => .q
  | .c_addi4spn | .c_fld | .c_lw | .c_flw | .c_fsd | .c_sw | .c_fsw | .c_nop | .c_addi | .c_jal
  | .c_li | .c_addi16sp | .c_lui | .c_srli | .c_srai | .c_andi | .c_sub | .c_xor | .c_or | .c_and
  | .c_subw | .c_addw | .c_j | .c_beqz | .c_bnez | .c_slli | .c_fldsp | .c_lwsp | .c_flwsp | .c_jr
  | .c_mv | .c_ebreak | .c_jalr | .c_add | .c_fsdsp | .c_swsp | .c_fswsp | .c_ld | .c_sd | .c_addiw
  | .c_ldsp | .c_sdsp | .c_lq | .c_sq | .c_lqsp | .c_sqsp => .c
  | _ => .i

def RV_I : List Ext := [.i, .s]

def RV_IMA : List Ext := [.i, .m, .a, .s]

def RV_IMAC : List Ext := [.i, .m, .a, .s, .c]

def RV_IMAFD : List Ext := [.i, .m, .a, .s, .f, .d]

def RV_IMAFDC : List Ext := [.i, .m, .a, .s, .f, .d, .c]

/-- `processor_rv32i_model` and its siblings. -/
structure Model where
  isa : Isa
  exts : List Ext

namespace Model

/-- `decode_inst_op` for the extensions of the model. -/
def decode_inst_op (m : Model) (inst : BitVec 64) : Op :=
  let op := RvCkpt.Asm.decode_inst_op.eval m.isa inst
  if op.ext ∈ m.exts then op else .illegal

/-- `inst_decode`, which writes into `dec`. -/
def inst_decode (m : Model) (dec : Decode) (inst : BitVec 64) : Decode :=
  let dec := decode_inst_type { dec with op := m.decode_inst_op inst } inst
  if .c ∈ m.exts then decompress_inst m.isa dec else dec

end Model

/-! ## What an instruction is executed from -/

/-- The fields that the interpreters and `inst_priv` read where they execute the operation. They
have no case for a compressed one. -/
def Op.operands (op : Op) : List Field :=
  if op = .illegal ∨ op.ext = .c then []
  else
    match rv_inst_codec op with
    | .r4_m => [.rd, .rs1, .rs2, .rs3, .rm]
    | .r_m => [.rd, .rs1, .rs2, .rm]
    | _ => [.rd, .rs1, .rs2, .imm]

/-- Two decoded instructions that differ at most in fields nobody reads. -/
structure Decode.Agree (dec dec' : Decode) : Prop where
  op : dec.op = dec'.op
  operands : ∀ f ∈ dec.op.operands, dec.get f = dec'.get f

namespace Decode

theorem Agree.symm {dec dec' : Decode} (h : dec.Agree dec') : dec'.Agree dec :=
  ⟨h.op.symm, fun f hf => (h.operands f (h.op ▸ hf)).symm⟩

theorem Agree.trans {a b c : Decode} (hab : a.Agree b) (hbc : b.Agree c) : a.Agree c :=
  ⟨hab.op.trans hbc.op, fun f hf => (hab.operands f hf).trans (hbc.operands f (hab.op ▸ hf))⟩

end Decode

/-! ## Decoding into a used record -/

/-- An assigned field does not show what was there before. -/
theorem get_foldl_set (assigns : List (Field × Source)) (inst : BitVec 64) (a b : Decode)
    {f : Field} (h : a.get f = b.get f ∨ f ∈ assigns.map Prod.fst) :
    (assigns.foldl (fun dec a => dec.set a.1 (a.2.value inst)) a).get f =
      (assigns.foldl (fun dec a => dec.set a.1 (a.2.value inst)) b).get f := by
  induction assigns generalizing a b with
  | nil => exact h.resolve_right List.not_mem_nil
  | cons s assigns ih =>
    refine ih _ _ ?_
    rw [Decode.get_set, Decode.get_set]
    by_cases hf : f = s.1
    · exact .inl (by rw [if_pos hf, if_pos hf])
    · rw [if_neg hf, if_neg hf]
      refine h.imp_right fun hmem => ?_
      rw [List.map_cons, List.mem_cons] at hmem
      exact hmem.resolve_left hf

theorem get_decode_inst_type {a b : Decode} (hop : a.op = b.op) (inst : BitVec 64) {f : Field}
    (hf : f ∈ (rv_inst_codec a.op).assigns.map Prod.fst) :
    (decode_inst_type a inst).get f = (decode_inst_type b inst).get f := by
  simp only [decode_inst_type, ← hop]
  exact get_foldl_set _ inst _ _ (.inr hf)

theorem decode_inst_type_op (dec : Decode) (inst : BitVec 64) :
    (decode_inst_type dec inst).op = dec.op :=
  (foldl_set_op _ inst _).1

/-- The fields that the decoder of an operation assigns. -/
def Op.assigned (op : Op) : List Field := (rv_inst_codec op).assigns.map Prod.fst

theorem operands_all_assigned :
    (Op.all.all fun op =>
      op.operands.all (· ∈ op.assigned) &&
        Isa.all.all fun isa => (rv_inst_decomp isa op).operands.all (· ∈ op.assigned)) = true := by
  decide +kernel

theorem Op.operands_assigned (op : Op) : ∀ f ∈ op.operands, f ∈ op.assigned := by
  have h := List.all_eq_true.mp operands_all_assigned op op.mem_all
  have hop := (Bool.and_eq_true_iff.mp h).1
  exact fun f hf => of_decide_eq_true (List.all_eq_true.mp hop f hf)

/-- What is expanded is executed from fields that the compressed form assigns. -/
theorem Op.decomp_operands_assigned (isa : Isa) (op : Op) :
    ∀ f ∈ (rv_inst_decomp isa op).operands, f ∈ op.assigned := by
  have h := List.all_eq_true.mp operands_all_assigned op op.mem_all
  have hisa := List.all_eq_true.mp (Bool.and_eq_true_iff.mp h).2 isa (by cases isa <;> decide)
  exact fun f hf => of_decide_eq_true (List.all_eq_true.mp hisa f hf)

theorem decompress_inst_agree (isa : Isa) {a b : Decode} (hop : a.op = b.op)
    (h : ∀ f ∈ a.op.assigned, a.get f = b.get f) :
    (decompress_inst isa a).Agree (decompress_inst isa b) := by
  simp only [decompress_inst, ← hop]
  by_cases hill : rv_inst_decomp isa a.op ≠ .illegal
  · rw [if_pos hill, if_pos hill]
    refine ⟨rfl, fun f hf => ?_⟩
    have hget : a.get f = b.get f := h f (Op.decomp_operands_assigned isa a.op f hf)
    cases f <;> exact hget
  · rw [if_neg hill, if_neg hill]
    exact ⟨hop, fun f hf => h f (a.op.operands_assigned f hf)⟩

namespace Model
variable (m : Model)

/-- What a word is decoded to does not depend on the record it is decoded into. -/
theorem inst_decode_agree (a b : Decode) (inst : BitVec 64) :
    (m.inst_decode a inst).Agree (m.inst_decode b inst) := by
  have hfields : ∀ f ∈ (m.decode_inst_op inst).assigned,
      (decode_inst_type { a with op := m.decode_inst_op inst } inst).get f =
        (decode_inst_type { b with op := m.decode_inst_op inst } inst).get f :=
    fun f hf => get_decode_inst_type (by rfl) inst hf
  have hop : (decode_inst_type { a with op := m.decode_inst_op inst } inst).op =
      (decode_inst_type { b with op := m.decode_inst_op inst } inst).op := by
    rw [decode_inst_type_op, decode_inst_type_op]
  rw [inst_decode, inst_decode]
  by_cases hc : Ext.c ∈ m.exts
  · simp only [if_pos hc]
    refine decompress_inst_agree m.isa hop fun f hf => hfields f ?_
    rwa [decode_inst_type_op] at hf
  · simp only [if_neg hc]
    refine ⟨hop, fun f hf => hfields f ?_⟩
    rw [decode_inst_type_op] at hf
    exact Op.operands_assigned _ f hf

/-! ## The word 0 -/

/-- The models for which the word 0 is an instruction. -/
def expandsZero : Prop := Ext.c ∈ m.exts ∧ m.isa ≠ .rv128

instance expandsZeroDecidable : Decidable m.expandsZero := by
  unfold expandsZero
  infer_instance

theorem decode_inst_op_zero :
    m.decode_inst_op 0 = if Ext.c ∈ m.exts then .c_addi4spn else .illegal := by
  cases h : m.isa <;> simp only [decode_inst_op, h] <;> rfl

theorem inst_decode_zero_op (dec : Decode) (h : m.expandsZero) :
    (m.inst_decode dec 0).op = .addi := by
  have hdecomp : rv_inst_decomp m.isa .c_addi4spn = .addi := by
    cases hisa : m.isa with
    | rv32 => rfl
    | rv64 => rfl
    | rv128 => exact absurd hisa h.2
  simp only [inst_decode, if_pos h.1, decompress_inst, decode_inst_type_op, decode_inst_op_zero,
    hdecomp]
  rfl

/-- Elsewhere it is not executed. -/
theorem inst_decode_zero_op_of_not (dec : Decode) (h : ¬ m.expandsZero) :
    (m.inst_decode dec 0).op = .illegal ∨ (m.inst_decode dec 0).op = .c_addi4spn := by
  by_cases hc : Ext.c ∈ m.exts
  · have hisa : m.isa = .rv128 := by
      by_contra hne
      exact h ⟨hc, hne⟩
    right
    simp only [inst_decode, if_pos hc, decompress_inst, decode_inst_type_op, decode_inst_op_zero,
      hisa]
    rfl
  · left
    simp only [inst_decode, if_neg hc, decode_inst_type_op, decode_inst_op_zero]

end Model

end RvCkpt.Asm
