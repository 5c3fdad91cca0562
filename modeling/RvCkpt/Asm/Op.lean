import Mathlib.Data.Nat.Notation

/-! # The opcode table

The operations of `src/src/asm/meta.h` with their codecs, opcode bits and compressed forms
(`src/src/asm/meta.cc`).
-/

namespace RvCkpt.Asm
set_option autoImplicit false

/-- `rv_op`: the instructions, the compressed ones and the pseudoinstructions. -/
inductive Op where
  | illegal | lui | auipc | jal | jalr | beq | bne | blt | bge | bltu | bgeu | lb | lh | lw | lbu
  | lhu | sb | sh | sw | addi | slti | sltiu | xori | ori | andi | slli | srli | srai | add | sub
  | sll | slt | sltu | xor | srl | sra | or | and | fence | fence_i | lwu | ld | sd | addiw
  | slliw | srliw | sraiw | addw | subw | sllw | srlw | sraw | ldu | lq | sq | addid | sllid
  | srlid | sraid | addd | subd | slld | srld | srad | mul | mulh | mulhsu | mulhu | div | divu
  | rem | remu | mulw | divw | divuw | remw | remuw | muld | divd | divud | remd | remud | lr_w
  | sc_w | amoswap_w | amoadd_w | amoxor_w | amoor_w | amoand_w | amomin_w | amomax_w | amominu_w
  | amomaxu_w | lr_d | sc_d | amoswap_d | amoadd_d | amoxor_d | amoor_d | amoand_d | amomin_d
  | amomax_d | amominu_d | amomaxu_d | lr_q | sc_q | amoswap_q | amoadd_q | amoxor_q | amoor_q
  | amoand_q | amomin_q | amomax_q | amominu_q | amomaxu_q | ecall | ebreak | uret | sret | hret
  | mret | dret | sfence_vm | sfence_vma | wfi | csrrw | csrrs | csrrc | csrrwi | csrrsi | csrrci
  | flw | fsw | fmadd_s | fmsub_s | fnmsub_s | fnmadd_s | fadd_s | fsub_s | fmul_s | fdiv_s
  | fsgnj_s | fsgnjn_s | fsgnjx_s | fmin_s | fmax_s | fsqrt_s | fle_s | flt_s | feq_s | fcvt_w_s
  | fcvt_wu_s | fcvt_s_w | fcvt_s_wu | fmv_x_s | fclass_s | fmv_s_x | fcvt_l_s | fcvt_lu_s
  | fcvt_s_l | fcvt_s_lu | fld | fsd | fmadd_d | fmsub_d | fnmsub_d | fnmadd_d | fadd_d | fsub_d
  | fmul_d | fdiv_d | fsgnj_d | fsgnjn_d | fsgnjx_d | fmin_d | fmax_d | fcvt_s_d | fcvt_d_s
  | fsqrt_d | fle_d | flt_d | feq_d | fcvt_w_d | fcvt_wu_d | fcvt_d_w | fcvt_d_wu | fclass_d
  | fcvt_l_d | fcvt_lu_d | fmv_x_d | fcvt_d_l | fcvt_d_lu | fmv_d_x | flq | fsq | fmadd_q
  | fmsub_q | fnmsub_q | fnmadd_q | fadd_q | fsub_q | fmul_q | fdiv_q | fsgnj_q | fsgnjn_q
  | fsgnjx_q | fmin_q | fmax_q | fcvt_s_q | fcvt_q_s | fcvt_d_q | fcvt_q_d | fsqrt_q | fle_q
  | flt_q | feq_q | fcvt_w_q | fcvt_wu_q | fcvt_q_w | fcvt_q_wu | fclass_q | fcvt_l_q | fcvt_lu_q
  | fcvt_q_l | fcvt_q_lu | fmv_x_q | fmv_q_x
  | c_addi4spn | c_fld | c_lw | c_flw | c_fsd | c_sw | c_fsw | c_nop | c_addi | c_jal | c_li
  | c_addi16sp | c_lui | c_srli | c_srai | c_andi | c_sub | c_xor | c_or | c_and | c_subw | c_addw
  | c_j | c_beqz | c_bnez | c_slli | c_fldsp | c_lwsp | c_flwsp | c_jr | c_mv | c_ebreak | c_jalr
  | c_add | c_fsdsp | c_swsp | c_fswsp | c_ld | c_sd | c_addiw | c_ldsp | c_sdsp | c_lq | c_sq
  | c_lqsp | c_sqsp
  | nop | mv | not | neg | negw | sext_w | seqz | snez | sltz | sgtz | fmv_s | fabs_s | fneg_s
  | fmv_d | fabs_d | fneg_d | fmv_q | fabs_q | fneg_q | beqz | bnez | blez | bgez | bltz | bgtz
  | ble | bleu | bgt | bgtu | j | ret | jr | rdcycle | rdtime | rdinstret | rdcycleh | rdtimeh
  | rdinstreth | frcsr | frrm | frflags | fscsr | fsrm | fsflags | fsrmi | fsflagsi
  deriving DecidableEq, Repr

/-- `rv_codec` -/
inductive Codec where
  | illegal | u | uj | i | sb | s | i_sh7 | r | r_f | none | i_sh5 | i_sh6 | r_l | r_a | i_csr
  | r4_m | r_m | ciw_4spn | cl_ld | cl_lw | cs_sd | cs_sw | ci_none | ci | cj_jal | ci_li
  | ci_16sp | ci_lui | cb_sh6 | cb_imm | cs | cj | cb | ci_sh6 | ci_ldsp | ci_lwsp | cr_jr | cr_mv
  | cr_jalr | cr | css_sdsp | css_swsp | cl_lq | cs_sq | ci_lqsp | css_sqsp
  deriving DecidableEq, Repr

inductive Isa where
  | rv32 | rv64 | rv128
  deriving DecidableEq, Repr

def rv_inst_codec : Op → Codec
  | .illegal => .illegal
  | .lui | .auipc => .u
  | .jal | .j => .uj
  | .jalr | .lb | .lh | .lw | .lbu | .lhu | .addi | .slti | .sltiu | .xori | .ori | .andi | .lwu
  | .ld | .addiw | .ldu | .lq | .addid | .flw | .fld | .flq | .nop | .mv | .not | .sext_w | .seqz
  | .ret | .jr => .i
  | .beq | .bne | .blt | .bge | .bltu | .bgeu | .beqz | .bnez | .blez | .bgez | .bltz | .bgtz
  | .ble | .bleu | .bgt | .bgtu => .sb
  | .sb | .sh | .sw | .sd | .sq | .fsw | .fsd | .fsq => .s
  | .slli | .srli | .srai => .i_sh7
  | .add | .sub | .sll | .slt | .sltu | .xor | .srl | .sra | .or | .and | .addw | .subw | .sllw
  | .srlw | .sraw | .addd | .subd | .slld | .srld | .srad | .mul | .mulh | .mulhsu | .mulhu | .div
  | .divu | .rem | .remu | .mulw | .divw | .divuw | .remw | .remuw | .muld | .divd | .divud
  | .remd | .remud | .sfence_vm | .sfence_vma | .fsgnj_s | .fsgnjn_s | .fsgnjx_s | .fmin_s
  | .fmax_s | .fle_s | .flt_s | .feq_s | .fmv_x_s | .fclass_s | .fmv_s_x | .fsgnj_d | .fsgnjn_d
  | .fsgnjx_d | .fmin_d | .fmax_d | .fle_d | .flt_d | .feq_d | .fclass_d | .fmv_x_d | .fmv_d_x
  | .fsgnj_q | .fsgnjn_q | .fsgnjx_q | .fmin_q | .fmax_q | .fle_q | .flt_q | .feq_q | .fclass_q
  | .fmv_x_q | .fmv_q_x | .neg | .negw | .snez | .sltz | .sgtz | .fmv_s | .fabs_s | .fneg_s
  | .fmv_d | .fabs_d | .fneg_d | .fmv_q | .fabs_q | .fneg_q => .r
  | .fence => .r_f
  | .fence_i | .ecall | .ebreak | .uret | .sret | .hret | .mret | .dret | .wfi => .none
  | .slliw | .srliw | .sraiw => .i_sh5
  | .sllid | .srlid | .sraid => .i_sh6
  | .lr_w | .lr_d | .lr_q => .r_l
  | .sc_w | .amoswap_w | .amoadd_w | .amoxor_w | .amoor_w | .amoand_w | .amomin_w | .amomax_w
  | .amominu_w | .amomaxu_w | .sc_d | .amoswap_d | .amoadd_d | .amoxor_d | .amoor_d | .amoand_d
  | .amomin_d | .amomax_d | .amominu_d | .amomaxu_d | .sc_q | .amoswap_q | .amoadd_q | .amoxor_q
  | .amoor_q | .amoand_q | .amomin_q | .amomax_q | .amominu_q | .amomaxu_q => .r_a
  | .csrrw | .csrrs | .csrrc | .csrrwi | .csrrsi | .csrrci | .rdcycle | .rdtime | .rdinstret
  | .rdcycleh | .rdtimeh | .rdinstreth | .frcsr | .frrm | .frflags | .fscsr | .fsrm | .fsflags
  | .fsrmi | .fsflagsi => .i_csr
  | .fmadd_s | .fmsub_s | .fnmsub_s | .fnmadd_s | .fmadd_d | .fmsub_d | .fnmsub_d | .fnmadd_d
  | .fmadd_q | .fmsub_q | .fnmsub_q | .fnmadd_q => .r4_m
  | .fadd_s | .fsub_s | .fmul_s | .fdiv_s | .fsqrt_s | .fcvt_w_s | .fcvt_wu_s | .fcvt_s_w
  | .fcvt_s_wu | .fcvt_l_s | .fcvt_lu_s | .fcvt_s_l | .fcvt_s_lu | .fadd_d | .fsub_d | .fmul_d
  | .fdiv_d | .fcvt_s_d | .fcvt_d_s | .fsqrt_d | .fcvt_w_d | .fcvt_wu_d | .fcvt_d_w | .fcvt_d_wu
  | .fcvt_l_d | .fcvt_lu_d | .fcvt_d_l | .fcvt_d_lu | .fadd_q | .fsub_q | .fmul_q | .fdiv_q
  | .fcvt_s_q | .fcvt_q_s | .fcvt_d_q | .fcvt_q_d | .fsqrt_q | .fcvt_w_q | .fcvt_wu_q | .fcvt_q_w
  | .fcvt_q_wu | .fcvt_l_q | .fcvt_lu_q | .fcvt_q_l | .fcvt_q_lu => .r_m
  | .c_addi4spn => .ciw_4spn
  | .c_fld | .c_ld => .cl_ld
  | .c_lw | .c_flw => .cl_lw
  | .c_fsd | .c_sd => .cs_sd
  | .c_sw | .c_fsw => .cs_sw
  | .c_nop | .c_ebreak => .ci_none
  | .c_addi | .c_addiw => .ci
  | .c_jal => .cj_jal
  | .c_li => .ci_li
  | .c_addi16sp => .ci_16sp
  | .c_lui => .ci_lui
  | .c_srli | .c_srai => .cb_sh6
  | .c_andi => .cb_imm
  | .c_sub | .c_xor | .c_or | .c_and | .c_subw | .c_addw => .cs
  | .c_j => .cj
  | .c_beqz | .c_bnez => .cb
  | .c_slli => .ci_sh6
  | .c_fldsp | .c_ldsp => .ci_ldsp
  | .c_lwsp | .c_flwsp => .ci_lwsp
  | .c_jr => .cr_jr
  | .c_mv => .cr_mv
  | .c_jalr => .cr_jalr
  | .c_add => .cr
  | .c_fsdsp | .c_sdsp => .css_sdsp
  | .c_swsp | .c_fswsp => .css_swsp
  | .c_lq => .cl_lq
  | .c_sq => .cs_sq
  | .c_lqsp => .ci_lqsp
  | .c_sqsp => .css_sqsp

/-- The bits that are not operands. -/
def rv_inst_match : Op → BitVec 64
  | .lui => 0x37 | .auipc => 0x17 | .jal => 0x6f | .jalr => 0x67 | .beq => 0x63 | .bne => 0x1063
  | .blt => 0x4063 | .bge => 0x5063 | .bltu => 0x6063 | .bgeu => 0x7063 | .lb => 0x3
  | .lh => 0x1003 | .lw => 0x2003 | .lbu => 0x4003 | .lhu => 0x5003 | .sb => 0x23 | .sh => 0x1023
  | .sw => 0x2023 | .addi => 0x13 | .slti => 0x2013 | .sltiu => 0x3013 | .xori => 0x4013
  | .ori => 0x6013 | .andi => 0x7013 | .slli => 0x1013 | .srli => 0x5013 | .srai => 0x40005013
  | .add => 0x33 | .sub => 0x40000033 | .sll => 0x1033 | .slt => 0x2033 | .sltu => 0x3033
  | .xor => 0x4033 | .srl => 0x5033 | .sra => 0x40005033 | .or => 0x6033 | .and => 0x7033
  | .fence => 0xf | .fence_i => 0x100f | .lwu => 0x6003 | .ld => 0x3003 | .sd => 0x3023
  | .addiw => 0x1b | .slliw => 0x101b | .srliw => 0x501b | .sraiw => 0x4000501b | .addw => 0x3b
  | .subw => 0x4000003b | .sllw => 0x103b | .srlw => 0x503b | .sraw => 0x4000503b | .ldu => 0x7003
  | .lq => 0x200f | .sq => 0x4023 | .addid => 0x5b | .sllid => 0x105b | .srlid => 0x505b
  | .sraid => 0x4000505b | .addd => 0x7b | .subd => 0x4000007b | .slld => 0x107b | .srld => 0x507b
  | .srad => 0x4000507b | .mul => 0x2000033 | .mulh => 0x2001033 | .mulhsu => 0x2002033
  | .mulhu => 0x2003033 | .div => 0x2004033 | .divu => 0x2005033 | .rem => 0x2006033
  | .remu => 0x2007033 | .mulw => 0x200003b | .divw => 0x200403b | .divuw => 0x200503b
  | .remw => 0x200603b | .remuw => 0x200703b | .muld => 0x200007b | .divd => 0x200407b
  | .divud => 0x200507b | .remd => 0x200607b | .remud => 0x200707b | .lr_w => 0x1000202f
  | .sc_w => 0x1800202f | .amoswap_w => 0x800202f | .amoadd_w => 0x202f | .amoxor_w => 0x2000202f
  | .amoor_w => 0x4000202f | .amoand_w => 0x6000202f | .amomin_w => 0x8000202f
  | .amomax_w => 0xa000202f | .amominu_w => 0xc000202f | .amomaxu_w => 0xe000202f
  | .lr_d => 0x1000302f | .sc_d => 0x1800302f | .amoswap_d => 0x800302f | .amoadd_d => 0x302f
  | .amoxor_d => 0x2000302f | .amoor_d => 0x4000302f | .amoand_d => 0x6000302f
  | .amomin_d => 0x8000302f | .amomax_d => 0xa000302f | .amominu_d => 0xc000302f
  | .amomaxu_d => 0xe000302f | .lr_q => 0x1000402f | .sc_q => 0x1800402f | .amoswap_q => 0x800402f
  | .amoadd_q => 0x402f | .amoxor_q => 0x2000402f | .amoor_q => 0x4000402f
  | .amoand_q => 0x6000402f | .amomin_q => 0x8000402f | .amomax_q => 0xa000402f
  | .amominu_q => 0xc000402f | .amomaxu_q => 0xe000402f | .ecall => 0x73 | .ebreak => 0x100073
  | .uret => 0x200073 | .sret => 0x10200073 | .hret => 0x20200073 | .mret => 0x30200073
  | .dret => 0x7b200073 | .sfence_vm => 0x10400073 | .sfence_vma => 0x12000073
  | .wfi => 0x10500073 | .csrrw => 0x1073 | .csrrs => 0x2073 | .csrrc => 0x3073
  | .csrrwi => 0x5073 | .csrrsi => 0x6073 | .csrrci => 0x7073 | .flw => 0x2007 | .fsw => 0x2027
  | .fmadd_s => 0x43 | .fmsub_s => 0x47 | .fnmsub_s => 0x4b | .fnmadd_s => 0x4f | .fadd_s => 0x53
  | .fsub_s => 0x8000053 | .fmul_s => 0x10000053 | .fdiv_s => 0x18000053 | .fsgnj_s => 0x20000053
  | .fsgnjn_s => 0x20001053 | .fsgnjx_s => 0x20002053 | .fmin_s => 0x28000053
  | .fmax_s => 0x28001053 | .fsqrt_s => 0x58000053 | .fle_s => 0xa0000053 | .flt_s => 0xa0001053
  | .feq_s => 0xa0002053 | .fcvt_w_s => 0xc0000053 | .fcvt_wu_s => 0xc0100053
  | .fcvt_s_w => 0xd0000053 | .fcvt_s_wu => 0xd0100053 | .fmv_x_s => 0xe0000053
  | .fclass_s => 0xe0001053 | .fmv_s_x => 0xf0000053 | .fcvt_l_s => 0xc0200053
  | .fcvt_lu_s => 0xc0300053 | .fcvt_s_l => 0xd0200053 | .fcvt_s_lu => 0xd0300053 | .fld => 0x3007
  | .fsd => 0x3027 | .fmadd_d => 0x2000043 | .fmsub_d => 0x2000047 | .fnmsub_d => 0x200004b
  | .fnmadd_d => 0x200004f | .fadd_d => 0x2000053 | .fsub_d => 0xa000053 | .fmul_d => 0x12000053
  | .fdiv_d => 0x1a000053 | .fsgnj_d => 0x22000053 | .fsgnjn_d => 0x22001053
  | .fsgnjx_d => 0x22002053 | .fmin_d => 0x2a000053 | .fmax_d => 0x2a001053
  | .fcvt_s_d => 0x40100053 | .fcvt_d_s => 0x42000053 | .fsqrt_d => 0x5a000053
  | .fle_d => 0xa2000053 | .flt_d => 0xa2001053 | .feq_d => 0xa2002053 | .fcvt_w_d => 0xc2000053
  | .fcvt_wu_d => 0xc2100053 | .fcvt_d_w => 0xd2000053 | .fcvt_d_wu => 0xd2100053
  | .fclass_d => 0xe2001053 | .fcvt_l_d => 0xc2200053 | .fcvt_lu_d => 0xc2300053
  | .fmv_x_d => 0xe2000053 | .fcvt_d_l => 0xd2200053 | .fcvt_d_lu => 0xd2300053
  | .fmv_d_x => 0xf2000053 | .flq => 0x4007 | .fsq => 0x4027 | .fmadd_q => 0x6000043
  | .fmsub_q => 0x6000047 | .fnmsub_q => 0x600004b | .fnmadd_q => 0x600004f | .fadd_q => 0x6000053
  | .fsub_q => 0xe000053 | .fmul_q => 0x16000053 | .fdiv_q => 0x1e000053 | .fsgnj_q => 0x26000053
  | .fsgnjn_q => 0x26001053 | .fsgnjx_q => 0x26002053 | .fmin_q => 0x2e000053
  | .fmax_q => 0x2e001053 | .fcvt_s_q => 0x40300053 | .fcvt_q_s => 0x46000053
  | .fcvt_d_q => 0x42300053 | .fcvt_q_d => 0x46100053 | .fsqrt_q => 0x5e000053
  | .fle_q => 0xa6000053 | .flt_q => 0xa6001053 | .feq_q => 0xa6002053 | .fcvt_w_q => 0xc6000053
  | .fcvt_wu_q => 0xc6100053 | .fcvt_q_w => 0xd6000053 | .fcvt_q_wu => 0xd6100053
  | .fclass_q => 0xe6001053 | .fcvt_l_q => 0xc6200053 | .fcvt_lu_q => 0xc6300053
  | .fcvt_q_l => 0xd6200053 | .fcvt_q_lu => 0xd6300053 | .fmv_x_q => 0xe6000053
  | .fmv_q_x => 0xf6000053 | .c_addi4spn => 0x0 | .c_fld => 0x2000 | .c_lw => 0x4000
  | .c_flw => 0x6000 | .c_fsd => 0xa000 | .c_sw => 0xc000 | .c_fsw => 0xe000 | .c_nop => 0x1
  | .c_addi => 0x1 | .c_jal => 0x2001 | .c_li => 0x4001 | .c_addi16sp => 0x6101 | .c_lui => 0x6001
  | .c_srli => 0x8001 | .c_srai => 0x8401 | .c_andi => 0x8801 | .c_sub => 0x8c01
  | .c_xor => 0x8c21 | .c_or => 0x8c41 | .c_and => 0x8c61 | .c_subw => 0x9c01 | .c_addw => 0x9c21
  | .c_j => 0xa001 | .c_beqz => 0xc001 | .c_bnez => 0xe001 | .c_slli => 0x2 | .c_fldsp => 0x2002
  | .c_lwsp => 0x4002 | .c_flwsp => 0x6002 | .c_jr => 0x8002 | .c_mv => 0x8002
  | .c_ebreak => 0x9002 | .c_jalr => 0x9002 | .c_add => 0x9002 | .c_fsdsp => 0xa002
  | .c_swsp => 0xc002 | .c_fswsp => 0xe002 | .c_ld => 0x6000 | .c_sd => 0xe000
  | .c_addiw => 0x2001 | .c_ldsp => 0x6002 | .c_sdsp => 0xe002 | .c_lq => 0x2000 | .c_sq => 0xa000
  | .c_lqsp => 0x2002 | .c_sqsp => 0xa002
  | _ => 0

/-! ## Compressed forms -/

def rv_inst_decomp_rv32 : Op → Op
  | .c_addi4spn => .addi | .c_fld => .fld | .c_lw => .lw | .c_flw => .flw | .c_fsd => .fsd
  | .c_sw => .sw | .c_fsw => .fsw | .c_nop => .addi | .c_addi => .addi | .c_jal => .jal
  | .c_li => .addi | .c_addi16sp => .addi | .c_lui => .lui | .c_srli => .srli | .c_srai => .srai
  | .c_andi => .andi | .c_sub => .sub | .c_xor => .xor | .c_or => .or | .c_and => .and
  | .c_subw => .subw | .c_addw => .addw | .c_j => .jal | .c_beqz => .beq | .c_bnez => .bne
  | .c_slli => .slli | .c_fldsp => .fld | .c_lwsp => .lw | .c_flwsp => .flw | .c_jr => .jalr
  | .c_mv => .addi | .c_ebreak => .ebreak | .c_jalr => .jalr | .c_add => .add | .c_fsdsp => .fsd
  | .c_swsp => .sw | .c_fswsp => .fsw
  | _ => .illegal

def rv_inst_decomp_rv64 : Op → Op
  | .c_addi4spn => .addi | .c_fld => .fld | .c_lw => .lw | .c_fsd => .fsd | .c_sw => .sw
  | .c_nop => .addi | .c_addi => .addi | .c_li => .addi | .c_addi16sp => .addi | .c_lui => .lui
  | .c_srli => .srli | .c_srai => .srai | .c_andi => .andi | .c_sub => .sub | .c_xor => .xor
  | .c_or => .or | .c_and => .and | .c_subw => .subw | .c_addw => .addw | .c_j => .jal
  | .c_beqz => .beq | .c_bnez => .bne | .c_slli => .slli | .c_fldsp => .fld | .c_lwsp => .lw
  | .c_jr => .jalr | .c_mv => .addi | .c_ebreak => .ebreak | .c_jalr => .jalr | .c_add => .add
  | .c_fsdsp => .fsd | .c_swsp => .sw | .c_ld => .ld | .c_sd => .sd | .c_addiw => .addiw
  | .c_ldsp => .ld | .c_sdsp => .sd
  | _ => .illegal

def rv_inst_decomp_rv128 : Op → Op
  | .c_lq => .lq | .c_sq => .sq | .c_lqsp => .lq | .c_sqsp => .sq
  | _ => .illegal

/-- `rvc_constraint`, as far as the compressed forms and the pseudoinstructions need it. -/
inductive Constraint where
  | simm_6 | simm_9 | simm_10 | simm_12 | imm_5 | imm_7 | imm_8 | imm_9 | imm_10 | imm_12 | imm_18
  | imm_nz | imm_x2 | imm_x4 | imm_x8 | imm_x16 | rd_b3 | rs1_b3 | rs2_b3 | rd_eq_rs1 | rd_eq_ra
  | rd_eq_sp | rd_eq_x0 | rs1_eq_sp | rs1_eq_x0 | rs2_eq_x0 | rd_ne_x0_x2 | rd_ne_x0 | rs1_ne_x0
  | rs2_ne_x0 | imm_eq_zero | rs2_eq_rs1 | rs1_eq_ra | imm_eq_n1 | imm_eq_p1 | csr_eq_0x001
  | csr_eq_0x002 | csr_eq_0x003 | csr_eq_0xc00 | csr_eq_0xc01 | csr_eq_0xc02 | csr_eq_0xc80
  | csr_eq_0xc81 | csr_eq_0xc82
  deriving DecidableEq, Repr

def rvcc_c_addi4spn : List Constraint := [.imm_10, .imm_x4, .imm_nz, .rd_b3, .rs1_eq_sp]

def rvcc_c_fld : List Constraint := [.imm_8, .imm_x8, .rd_b3, .rs1_b3]

def rvcc_c_lw : List Constraint := [.imm_7, .imm_x4, .rd_b3, .rs1_b3]

def rvcc_c_flw : List Constraint := [.imm_7, .imm_x4, .rd_b3, .rs1_b3]

def rvcc_c_fsd : List Constraint := [.imm_8, .imm_x8, .rs1_b3, .rs2_b3]

def rvcc_c_sw : List Constraint := [.imm_7, .imm_x4, .rs1_b3, .rs2_b3]

def rvcc_c_fsw : List Constraint := [.imm_7, .imm_x4, .rs1_b3, .rs2_b3]

def rvcc_c_nop : List Constraint := [.rd_eq_x0, .rs1_eq_x0, .rs2_eq_x0]

def rvcc_c_addi : List Constraint := [.simm_6, .imm_nz, .rd_ne_x0, .rd_eq_rs1]

def rvcc_c_jal : List Constraint := [.imm_12, .imm_x2, .rd_eq_ra]

def rvcc_c_li : List Constraint := [.simm_6, .rd_ne_x0, .rs1_eq_x0]

def rvcc_c_addi16sp : List Constraint := [.simm_10, .imm_x4, .imm_nz, .rd_eq_sp, .rs1_eq_sp]

def rvcc_c_lui : List Constraint := [.imm_18, .imm_nz, .rd_ne_x0_x2]

def rvcc_c_srli_rv32c : List Constraint := [.imm_5, .imm_nz, .rd_eq_rs1, .rd_b3, .rs1_b3]

def rvcc_c_srai_rv32c : List Constraint := [.imm_5, .imm_nz, .rd_eq_rs1, .rd_b3, .rs1_b3]

def rvcc_c_andi : List Constraint := [.imm_5, .imm_nz, .rd_eq_rs1, .rd_b3, .rs1_b3]

def rvcc_c_sub : List Constraint := [.rd_eq_rs1, .rd_b3, .rs1_b3, .rs2_b3]

def rvcc_c_xor : List Constraint := [.rd_eq_rs1, .rd_b3, .rs1_b3, .rs2_b3]

def rvcc_c_or : List Constraint := [.rd_eq_rs1, .rd_b3, .rs1_b3, .rs2_b3]

def rvcc_c_and : List Constraint := [.rd_eq_rs1, .rd_b3, .rs1_b3, .rs2_b3]

def rvcc_c_subw : List Constraint := [.rd_eq_rs1, .rd_b3, .rs1_b3, .rs2_b3]

def rvcc_c_addw : List Constraint := [.rd_eq_rs1, .rd_b3, .rs1_b3, .rs2_b3]

def rvcc_c_j : List Constraint := [.simm_12, .imm_x2, .rd_eq_x0]

def rvcc_c_beqz : List Constraint := [.simm_9, .imm_x2, .rs1_b3, .rs2_eq_x0]

def rvcc_c_bnez : List Constraint := [.simm_9, .imm_x2, .rs1_b3, .rs2_eq_x0]

def rvcc_c_slli_rv32c : List Constraint := [.imm_5, .imm_nz, .rd_ne_x0, .rd_eq_rs1]

def rvcc_c_fldsp : List Constraint := [.imm_9, .imm_x8, .rs1_eq_sp]

def rvcc_c_lwsp : List Constraint := [.imm_8, .imm_x4, .rd_ne_x0, .rs1_eq_sp]

def rvcc_c_flwsp : List Constraint := [.imm_8, .imm_x4, .rs1_eq_sp]

def rvcc_c_jr : List Constraint := [.imm_eq_zero, .rd_eq_x0, .rs1_ne_x0]

def rvcc_c_mv : List Constraint := [.imm_eq_zero, .rd_ne_x0]

def rvcc_c_ebreak : List Constraint := []

def rvcc_c_jalr : List Constraint := [.imm_eq_zero, .rd_eq_ra, .rs1_ne_x0]

def rvcc_c_add : List Constraint := [.rd_eq_rs1, .rd_ne_x0, .rs2_ne_x0]

def rvcc_c_fsdsp : List Constraint := [.imm_9, .imm_x8, .rs1_eq_sp]

def rvcc_c_swsp : List Constraint := [.imm_8, .imm_x4, .rs1_eq_sp]

def rvcc_c_fswsp : List Constraint := [.imm_8, .imm_x4, .rs1_eq_sp]

def rvcc_c_ld : List Constraint := [.imm_8, .imm_x8, .rd_b3, .rs1_b3]

def rvcc_c_sd : List Constraint := [.imm_8, .imm_x8, .rs1_b3, .rs2_b3]

def rvcc_c_addiw : List Constraint := [.simm_6, .rd_ne_x0, .rd_eq_rs1]

def rvcc_c_srli_rv64c : List Constraint := [.imm_5, .imm_nz, .rd_eq_rs1, .rd_b3, .rs1_b3]

def rvcc_c_srai_rv64c : List Constraint := [.imm_5, .imm_nz, .rd_eq_rs1, .rd_b3, .rs1_b3]

def rvcc_c_slli_rv64c : List Constraint := [.imm_5, .imm_nz, .rd_ne_x0, .rd_eq_rs1]

def rvcc_c_ldsp : List Constraint := [.imm_9, .imm_x8, .rd_ne_x0, .rs1_eq_sp]

def rvcc_c_sdsp : List Constraint := [.imm_9, .imm_x8, .rs1_eq_sp]

def rvcc_c_lq : List Constraint := [.imm_9, .imm_x16]

def rvcc_c_sq : List Constraint := [.imm_9, .imm_x16]

def rvcc_c_lqsp : List Constraint := [.imm_10, .imm_x16, .rs1_eq_sp]

def rvcc_c_sqsp : List Constraint := [.imm_10, .imm_x16, .rs1_eq_sp]

/-- The compressed forms of an operation, to be tried in this order. -/
def rv_inst_comp_rv32 : Op → List (Op × List Constraint)
  | .lui => [(.c_lui, rvcc_c_lui)]
  | .jal => [(.c_jal, rvcc_c_jal), (.c_j, rvcc_c_j)]
  | .jalr => [(.c_jr, rvcc_c_jr), (.c_jalr, rvcc_c_jalr)]
  | .beq => [(.c_beqz, rvcc_c_beqz)]
  | .bne => [(.c_bnez, rvcc_c_bnez)]
  | .lw => [(.c_lw, rvcc_c_lw), (.c_lwsp, rvcc_c_lwsp)]
  | .sw => [(.c_sw, rvcc_c_sw), (.c_swsp, rvcc_c_swsp)]
  | .addi =>
    [(.c_addi4spn, rvcc_c_addi4spn), (.c_nop, rvcc_c_nop), (.c_addi, rvcc_c_addi),
    (.c_li, rvcc_c_li), (.c_addi16sp, rvcc_c_addi16sp), (.c_mv, rvcc_c_mv)]
  | .andi => [(.c_andi, rvcc_c_andi)]
  | .slli => [(.c_slli, rvcc_c_slli_rv32c)]
  | .srli => [(.c_srli, rvcc_c_srli_rv32c)]
  | .srai => [(.c_srai, rvcc_c_srai_rv32c)]
  | .add => [(.c_add, rvcc_c_add)]
  | .sub => [(.c_sub, rvcc_c_sub)]
  | .xor => [(.c_xor, rvcc_c_xor)]
  | .or => [(.c_or, rvcc_c_or)]
  | .and => [(.c_and, rvcc_c_and)]
  | .ebreak => [(.c_ebreak, rvcc_c_ebreak)]
  | .flw => [(.c_flw, rvcc_c_flw), (.c_flwsp, rvcc_c_flwsp)]
  | .fsw => [(.c_fsw, rvcc_c_fsw), (.c_fswsp, rvcc_c_fswsp)]
  | .fld => [(.c_fld, rvcc_c_fld), (.c_fldsp, rvcc_c_fldsp)]
  | .fsd => [(.c_fsd, rvcc_c_fsd), (.c_fsdsp, rvcc_c_fsdsp)]
  | _ => []

/-- The compressed forms of an operation, to be tried in this order. -/
def rv_inst_comp_rv64 : Op → List (Op × List Constraint)
  | .lui => [(.c_lui, rvcc_c_lui)]
  | .jal => [(.c_j, rvcc_c_j)]
  | .jalr => [(.c_jr, rvcc_c_jr), (.c_jalr, rvcc_c_jalr)]
  | .beq => [(.c_beqz, rvcc_c_beqz)]
  | .bne => [(.c_bnez, rvcc_c_bnez)]
  | .lw => [(.c_lw, rvcc_c_lw), (.c_lwsp, rvcc_c_lwsp)]
  | .sw => [(.c_sw, rvcc_c_sw), (.c_swsp, rvcc_c_swsp)]
  | .addi =>
    [(.c_addi4spn, rvcc_c_addi4spn), (.c_nop, rvcc_c_nop), (.c_addi, rvcc_c_addi),
    (.c_li, rvcc_c_li), (.c_addi16sp, rvcc_c_addi16sp), (.c_mv, rvcc_c_mv)]
  | .andi => [(.c_andi, rvcc_c_andi)]
  | .slli => [(.c_slli, rvcc_c_slli_rv64c)]
  | .srli => [(.c_srli, rvcc_c_srli_rv64c)]
  | .srai => [(.c_srai, rvcc_c_srai_rv64c)]
  | .add => [(.c_add, rvcc_c_add)]
  | .sub => [(.c_sub, rvcc_c_sub)]
  | .xor => [(.c_xor, rvcc_c_xor)]
  | .or => [(.c_or, rvcc_c_or)]
  | .and => [(.c_and, rvcc_c_and)]
  | .ld => [(.c_ld, rvcc_c_ld), (.c_ldsp, rvcc_c_ldsp)]
  | .sd => [(.c_sd, rvcc_c_sd), (.c_sdsp, rvcc_c_sdsp)]
  | .addiw => [(.c_addiw, rvcc_c_addiw)]
  | .addw => [(.c_addw, rvcc_c_addw)]
  | .subw => [(.c_subw, rvcc_c_subw)]
  | .ebreak => [(.c_ebreak, rvcc_c_ebreak)]
  | .fld => [(.c_fld, rvcc_c_fld), (.c_fldsp, rvcc_c_fldsp)]
  | .fsd => [(.c_fsd, rvcc_c_fsd), (.c_fsdsp, rvcc_c_fsdsp)]
  | _ => []

end RvCkpt.Asm
