import RvCkpt.Emu.InstCache
import RvCkpt.Isa.Hidden

/-! # The proxy processor behind the cache

The interpreter of `exec_inst_rv64` executes what the decoder of `processor_rv64imafdc_model`
returns, and its run loop is the one that decodes each word afresh.
-/

namespace RvCkpt.Emu
open Asm
set_option autoImplicit false

/-! ## Operations -/

/-- The case of `exec_inst_rv64` or `inst_priv` for an operation. -/
def execCase : Asm.Op → Isa.Op
  | .lui => .lui | .auipc => .auipc | .jal => .jal | .jalr => .jalr
  | .beq => .branch .beq | .bne => .branch .bne | .blt => .branch .blt | .bge => .branch .bge
  | .bltu => .branch .bltu | .bgeu => .branch .bgeu
  | .lb => .load .lb | .lh => .load .lh | .lw => .load .lw | .lbu => .load .lbu
  | .lhu => .load .lhu | .lwu => .load .lwu | .ld => .load .ld
  | .sb => .store .sb | .sh => .store .sh | .sw => .store .sw | .sd => .store .sd
  | .addi => .imm .addi | .slti => .imm .slti | .sltiu => .imm .sltiu | .xori => .imm .xori
  | .ori => .imm .ori | .andi => .imm .andi | .slli => .imm .slli | .srli => .imm .srli
  | .srai => .imm .srai | .addiw => .imm .addiw | .slliw => .imm .slliw | .srliw => .imm .srliw
  | .sraiw => .imm .sraiw
  | .add => .reg .add | .sub => .reg .sub | .sll => .reg .sll | .slt => .reg .slt
  | .sltu => .reg .sltu | .xor => .reg .xor | .srl => .reg .srl | .sra => .reg .sra
  | .or => .reg .or | .and => .reg .and | .addw => .reg .addw | .subw => .reg .subw
  | .sllw => .reg .sllw | .srlw => .reg .srlw | .sraw => .reg .sraw | .mul => .reg .mul
  | .mulh => .reg .mulh | .mulhsu => .reg .mulhsu | .mulhu => .reg .mulhu | .div => .reg .div
  | .divu => .reg .divu | .rem => .reg .rem | .remu => .reg .remu | .mulw => .reg .mulw
  | .divw => .reg .divw | .divuw => .reg .divuw | .remw => .reg .remw | .remuw => .reg .remuw
  | .lr_w => .lr .w | .sc_w => .sc .w | .amoswap_w => .amo .amoswap .w
  | .amoadd_w => .amo .amoadd .w | .amoxor_w => .amo .amoxor .w | .amoor_w => .amo .amoor .w
  | .amoand_w => .amo .amoand .w | .amomin_w => .amo .amomin .w | .amomax_w => .amo .amomax .w
  | .amominu_w => .amo .amominu .w | .amomaxu_w => .amo .amomaxu .w
  | .lr_d => .lr .d | .sc_d => .sc .d | .amoswap_d => .amo .amoswap .d
  | .amoadd_d => .amo .amoadd .d | .amoxor_d => .amo .amoxor .d | .amoor_d => .amo .amoor .d
  | .amoand_d => .amo .amoand .d | .amomin_d => .amo .amomin .d | .amomax_d => .amo .amomax .d
  | .amominu_d => .amo .amominu .d | .amomaxu_d => .amo .amomaxu .d
  | .flw => .fload .s | .fld => .fload .d | .fsw => .fstore .s | .fsd => .fstore .d
  | .fmadd_s => .fp (.fma .fmadd .s) | .fmsub_s => .fp (.fma .fmsub .s)
  | .fnmsub_s => .fp (.fma .fnmsub .s) | .fnmadd_s => .fp (.fma .fnmadd .s)
  | .fadd_s => .fp (.farith .fadd .s) | .fsub_s => .fp (.farith .fsub .s)
  | .fmul_s => .fp (.farith .fmul .s) | .fdiv_s => .fp (.farith .fdiv .s)
  | .fsqrt_s => .fp (.fsqrt .s) | .fmin_s => .fp (.fminmax .fmin .s)
  | .fmax_s => .fp (.fminmax .fmax .s) | .fle_s => .fp (.fcmp .fle .s)
  | .flt_s => .fp (.fcmp .flt .s) | .feq_s => .fp (.fcmp .feq .s)
  | .fcvt_w_s => .fp (.fcvtToInt .w .s) | .fcvt_wu_s => .fp (.fcvtToInt .wu .s)
  | .fcvt_l_s => .fp (.fcvtToInt .l .s) | .fcvt_lu_s => .fp (.fcvtToInt .lu .s)
  | .fcvt_s_w => .fp (.fcvtOfInt .s .w) | .fcvt_s_wu => .fp (.fcvtOfInt .s .wu)
  | .fcvt_s_l => .fp (.fcvtOfInt .s .l) | .fcvt_s_lu => .fp (.fcvtOfInt .s .lu)
  | .fsgnj_s => .fsgn .fsgnj .s | .fsgnjn_s => .fsgn .fsgnjn .s | .fsgnjx_s => .fsgn .fsgnjx .s
  | .fmv_x_s => .fmvToInt .s | .fmv_s_x => .fmvOfInt .s | .fclass_s => .fclass .s
  | .fmadd_d => .fp (.fma .fmadd .d) | .fmsub_d => .fp (.fma .fmsub .d)
  | .fnmsub_d => .fp (.fma .fnmsub .d) | .fnmadd_d => .fp (.fma .fnmadd .d)
  | .fadd_d => .fp (.farith .fadd .d) | .fsub_d => .fp (.farith .fsub .d)
  | .fmul_d => .fp (.farith .fmul .d) | .fdiv_d => .fp (.farith .fdiv .d)
  | .fsqrt_d => .fp (.fsqrt .d) | .fmin_d => .fp (.fminmax .fmin .d)
  | .fmax_d => .fp (.fminmax .fmax .d) | .fle_d => .fp (.fcmp .fle .d)
  | .flt_d => .fp (.fcmp .flt .d) | .feq_d => .fp (.fcmp .feq .d)
  | .fcvt_w_d => .fp (.fcvtToInt .w .d) | .fcvt_wu_d => .fp (.fcvtToInt .wu .d)
  | .fcvt_l_d => .fp (.fcvtToInt .l .d) | .fcvt_lu_d => .fp (.fcvtToInt .lu .d)
  | .fcvt_d_w => .fp (.fcvtOfInt .d .w) | .fcvt_d_wu => .fp (.fcvtOfInt .d .wu)
  | .fcvt_d_l => .fp (.fcvtOfInt .d .l) | .fcvt_d_lu => .fp (.fcvtOfInt .d .lu)
  | .fsgnj_d => .fsgn .fsgnj .d | .fsgnjn_d => .fsgn .fsgnjn .d | .fsgnjx_d => .fsgn .fsgnjx .d
  | .fmv_x_d => .fmvToInt .d | .fmv_d_x => .fmvOfInt .d | .fclass_d => .fclass .d
  | .fcvt_s_d => .fp .fcvt_s_d | .fcvt_d_s => .fp .fcvt_d_s
  | .fence => .fence | .fence_i => .fence_i | .ecall => .ecall
  | .csrrw => .csr .csr_rw false | .csrrs => .csr .csr_rs false | .csrrc => .csr .csr_rc false
  | .csrrwi => .csr .csr_rw true | .csrrsi => .csr .csr_rs true | .csrrci => .csr .csr_rc true
  | _ => .illegal

def toReg (r : BitVec 8) : Isa.Reg := ⟨r.toNat % 32, Nat.mod_lt _ (by decide)⟩

/-- A decoded instruction as the interpreter sees it. -/
def ofDecode (dec : Asm.Decode) : Isa.Decode :=
  ⟨execCase dec.op, toReg dec.rd, toReg dec.rs1, toReg dec.rs2, toReg dec.rs3, dec.imm, dec.rm⟩

/-! ## What the interpreter reads -/

/-- The fields that the case of an operation reads. -/
def readFields : Isa.Op → List Field
  | .illegal => []
  | .fp (.fma ..) => [.rd, .rs1, .rs2, .rs3, .rm]
  | .fp op => if op.rounds then [.rd, .rs1, .rs2, .rm] else [.rd, .rs1, .rs2]
  | _ => [.rd, .rs1, .rs2, .imm]

theorem readFields_all_operands :
    (Op.all.all fun op => (readFields (execCase op)).all (· ∈ op.operands)) = true := by
  decide +kernel

theorem readFields_operands (op : Asm.Op) : ∀ f ∈ readFields (execCase op), f ∈ op.operands := by
  have h := List.all_eq_true.mp readFields_all_operands op op.mem_all
  exact fun f hf => of_decide_eq_true (List.all_eq_true.mp h f hf)

/-- Two instructions that the interpreter cannot tell apart. -/
structure Alike (a b : Isa.Decode) : Prop where
  op : a.op = b.op
  rd : .rd ∈ readFields a.op → a.rd = b.rd
  rs1 : .rs1 ∈ readFields a.op → a.rs1 = b.rs1
  rs2 : .rs2 ∈ readFields a.op → a.rs2 = b.rs2
  rs3 : .rs3 ∈ readFields a.op → a.rs3 = b.rs3
  imm : .imm ∈ readFields a.op → a.imm = b.imm
  rm : .rm ∈ readFields a.op → a.rm = b.rm

theorem alike_of_agree {a b : Asm.Decode} (h : a.Agree b) : Alike (ofDecode a) (ofDecode b) := by
  have hget : ∀ f ∈ readFields (execCase a.op), a.get f = b.get f := fun f hf =>
    h.operands f (readFields_operands a.op f hf)
  have hreg : ∀ {x y : BitVec 8}, x.zeroExtend 64 = y.zeroExtend 64 → toReg x = toReg y :=
    fun hxy => by rw [zeroExtend_inj (by decide) hxy]
  exact ⟨congrArg execCase h.op, fun hf => hreg (hget _ hf), fun hf => hreg (hget _ hf),
    fun hf => hreg (hget _ hf), fun hf => hreg (hget _ hf),
    fun hf => signExtend_inj (by decide) (hget _ hf),
    fun hf => zeroExtend_inj (by decide) (hget _ hf)⟩

theorem execute_alike (host : Isa.Host) (clock : BitVec 64) {a b : Isa.Decode} (h : Alike a b)
    (length : ℕ) (s : Isa.Machine) :
    Isa.execute host clock a length s = Isa.execute host clock b length s := by
  obtain ⟨op, rd, rs1, rs2, rs3, imm, rm⟩ := a
  obtain ⟨op', rd', rs1', rs2', rs3', imm', rm'⟩ := b
  obtain ⟨hop, hrd, hrs1, hrs2, hrs3, himm, hrm⟩ := h
  simp only at hop hrd hrs1 hrs2 hrs3 himm hrm
  subst hop
  cases op with
  | illegal => rfl
  | fp op =>
    cases op with
    | fma op p =>
      obtain rfl := hrd (by simp [readFields])
      obtain rfl := hrs1 (by simp [readFields])
      obtain rfl := hrs2 (by simp [readFields])
      obtain rfl := hrs3 (by simp [readFields])
      obtain rfl := hrm (by simp [readFields])
      rfl
    | fminmax op p | fcmp op p =>
      obtain rfl := hrd (by simp [readFields, Isa.FpOp.rounds])
      obtain rfl := hrs1 (by simp [readFields, Isa.FpOp.rounds])
      obtain rfl := hrs2 (by simp [readFields, Isa.FpOp.rounds])
      rfl
    | _ =>
      obtain rfl := hrd (by simp [readFields, Isa.FpOp.rounds])
      obtain rfl := hrs1 (by simp [readFields, Isa.FpOp.rounds])
      obtain rfl := hrs2 (by simp [readFields, Isa.FpOp.rounds])
      obtain rfl := hrm (by simp [readFields, Isa.FpOp.rounds])
      rfl
  | fmvToInt p | fmvOfInt p =>
    obtain rfl := hrd (by simp [readFields])
    obtain rfl := hrs1 (by simp [readFields])
    cases p <;> rfl
  | _ =>
    obtain rfl := hrd (by simp [readFields])
    obtain rfl := hrs1 (by simp [readFields])
    obtain rfl := hrs2 (by simp [readFields])
    obtain rfl := himm (by simp [readFields])
    rfl

/-! ## The processor -/

theorem execCase_compressed_all :
    (Op.all.all fun op => decide (op.ext = .c → execCase op = .illegal)) = true := by
  decide +kernel

theorem execute_illegal (host : Isa.Host) (clock : BitVec 64) {dec : Isa.Decode}
    (h : dec.op = .illegal) (length : ℕ) (s : Isa.Machine) :
    Isa.execute host clock dec length s = none := by
  simp [Isa.execute, Isa.execInst, Isa.instPriv, h, Isa.retire]

theorem execute_rejects (host : Isa.Host) (clock : BitVec 64) (dec : Asm.Decode)
    (h : dec.op = .illegal ∨ dec.op.ext = .c) (length : ℕ) (s : Isa.Machine) :
    Isa.execute host clock (ofDecode dec) length s = none := by
  refine execute_illegal host clock ?_ length s
  rcases h with hill | hc
  · simp only [ofDecode, hill]
    rfl
  · have hall := List.all_eq_true.mp execCase_compressed_all dec.op dec.op.mem_all
    exact of_decide_eq_true hall hc

theorem execute_addi (host : Isa.Host) (clock : BitVec 64) (dec : Asm.Decode)
    (h : dec.op = .addi) {pc_offset : BitVec 64} (hoffset : pc_offset ≠ -1) (s : Isa.Machine) :
    Isa.execute host clock (ofDecode dec) pc_offset.toNat s ≠ none := by
  have hcase : (ofDecode dec).op = .imm .addi := congrArg execCase h
  have hnext : (Isa.execInst host (ofDecode dec) s (BitVec.ofNat 64 pc_offset.toNat)).2 ≠ -1 := by
    simpa [Isa.execInst, hcase] using hoffset
  simp only [Isa.execute, if_pos hnext, Isa.retire]
  exact Option.some_ne_none _

def processor_rv64imafdc_model : Model := ⟨.rv64, RV_IMAFDC⟩

def reset : Isa.Machine := ⟨0, fun _ => 0, fun _ => 0, 0, 0, 0, 0, fun _ => 0, []⟩

/-- `processor_proxy` over the model, while the clock stands at `clock`. -/
def proxy (host : Isa.Host) (clock : BitVec 64) : Processor where
  model := processor_rv64imafdc_model
  State := Isa.Machine
  exec dec pc_offset s := Isa.execute host clock (ofDecode dec) pc_offset.toNat s
  exec_agree h pc_offset s := execute_alike host clock (alike_of_agree h) pc_offset.toNat s
  exec_rejects dec h pc_offset s := execute_rejects host clock dec h pc_offset.toNat s
  exec_addi dec h := ⟨2, reset, execute_addi host clock dec h (by decide) reset⟩

/-- The first word after a reset is 0: an illegal instruction instead of `addi x8, sp, 0`. -/
theorem zeroWord_not_transparent :
    ¬ Transparent (proxy Isa.atomicHost 0) [.enter, .fetch 0] := by
  intro h
  have hnot : ¬ Primed [.enter] := by simp [Primed]
  exact (executesAs_zero_iff _ hnot).mp (h [.enter] 0 [] rfl) (by decide)

/-! ## Runs -/

/-- One iteration of the loop in `step`, without the hooks and the breakpoint. -/
def cachedStep (host : Isa.Host) (clock : BitVec 64) (c : Runloop × Isa.Machine) :
    Option (Runloop × Isa.Machine) :=
  let (inst, length) := Isa.instFetch c.2.mem c.2.pc.toNat
  let st := c.1.fetch processor_rv64imafdc_model inst
  (Isa.execute host clock (ofDecode st.dec) length c.2).map fun s => (st, s)

def cachedRun (host : Isa.Host) (clock : ℕ → BitVec 64) :
    ℕ → Runloop × Isa.Machine → Option (Runloop × Isa.Machine)
  | 0, c => some c
  | n + 1, c => cachedStep host (clock 0) c >>= cachedRun host (fun i => clock (i + 1)) n

/-- The decoder of the host is the one of the model, on a new record. -/
def Decodes (host : Isa.Host) : Prop :=
  ∀ inst, host.decode inst = ofDecode (processor_rv64imafdc_model.inst_decode Decode.init inst)

section
variable {host : Isa.Host} (hdec : Decodes host)
include hdec

theorem cachedStep_eq (clock : BitVec 64) {pre : List Event} {st : Runloop} {s : Isa.Machine}
    (hinv : st.Inv processor_rv64imafdc_model pre)
    (hp : (Isa.instFetch s.mem s.pc.toNat).1 = 0 → Primed pre) :
    cachedStep host clock (st, s) =
      (Isa.step host clock s).map fun t =>
        (st.fetch processor_rv64imafdc_model (Isa.instFetch s.mem s.pc.toNat).1, t) := by
  simp only [cachedStep, Isa.step]
  rw [hdec, execute_alike host clock (alike_of_agree (hinv.fetch_agree hp))]

/-- A run in which slot 0 is filled, or the word 0 is not fetched, is the run without the cache. -/
theorem cachedRun_eq (n : ℕ) (clock : ℕ → BitVec 64) {pre : List Event} {st : Runloop}
    {s : Isa.Machine} (hinv : st.Inv processor_rv64imafdc_model pre)
    (hp : ∀ i < n, ∀ t, Isa.run host clock i s = some t →
      (Isa.instFetch t.mem t.pc.toNat).1 = 0 → Primed pre) :
    (cachedRun host clock n (st, s)).map Prod.snd = Isa.run host clock n s := by
  induction n generalizing clock pre st s with
  | zero => rfl
  | succ n ih =>
    have hstep := cachedStep_eq hdec (clock 0) hinv (hp 0 (Nat.succ_pos n) s rfl)
    simp only [cachedRun, Isa.run, hstep]
    cases ht : Isa.step host (clock 0) s with
    | none => rfl
    | some t =>
      refine ih _ (hinv.fetch (Isa.instFetch s.mem s.pc.toNat).1) fun i hi u hu hzero => ?_
      refine (hp (i + 1) (Nat.succ_lt_succ hi) u ?_ hzero).mono _
      simp only [Isa.run, ht]
      exact hu

end

end RvCkpt.Emu
