import RvCkpt.Jit.DivSpec

/-! # Compiled arithmetic and the architecture

When the code of an integer operation computes what the architecture says, for every state it can run
in: that depends on which of its operands the host holds in registers, and on nothing else.
-/

namespace RvCkpt.Jit
open Isa HostState EmitterRv64
set_option autoImplicit false

/-- What an operation computes from the values of its operands. -/
def AluOp.result (op : AluOp) (dec : Operands) (x y : BitVec 64) : BitVec 64 :=
  match op with
  | .reg op => op.result x y
  | .imm op => op.result x dec.imm
  | .lui => dec.disp
  | .auipc => dec.pc + dec.disp

/-- The divisor is not overwritten before the division reads it. -/
def DivisorSafe (E : EmitterRv64) (s : Size) (rs : Reg) : Prop :=
  match s with
  | .qword => E.x86_reg rs ≠ 2
  -- a register of the host is tested whole
  | _ => ¬ 0 < E.x86_reg rs

/-- The quotients: by x0, or with no operand that goes wrong. -/
def QuotientExact (E : EmitterRv64) (s : Size) (dec : Operands) : Prop :=
  dec.rs2 = rv_ireg_x0 ∨ dec.rs1 ≠ rv_ireg_x0 ∧ DivisorSafe E s dec.rs2

/-- The remainders: never by x0. -/
def RemainderExact (E : EmitterRv64) (s : Size) (dec : Operands) : Prop :=
  dec.rs2 ≠ rv_ireg_x0 ∧ (dec.rs1 = rv_ireg_x0 ∨ DivisorSafe E s dec.rs2)

/-- Where the code of an operation is right. -/
def AluOp.Exact (E : EmitterRv64) (op : AluOp) (dec : Operands) : Prop :=
  dec.rd = rv_ireg_x0 ∨
    match op with
    | .reg .addw => ¬ AddwWhole E dec
    | .reg .div | .reg .divu => QuotientExact E .qword dec
    | .reg .divw | .reg .divuw => QuotientExact E .dword dec
    | .reg .rem => RemainderExact E .qword dec ∧ E.x86_reg dec.rs1 ≠ 2
    | .reg .remw => RemainderExact E .dword dec ∧ E.x86_reg dec.rs1 ≠ 2
    | .reg .remu => RemainderExact E .qword dec
    | .reg .remuw => RemainderExact E .dword dec
    | .auipc => 0 < E.x86_reg dec.rd ∨
        ((dec.pc + dec.disp).setWidth 32).signExtend 64 = dec.pc + dec.disp
    | _ => True

section
variable {σ : Type} {mmu : Mmu σ} {junk : Gpr → BitVec 64} {E : EmitterRv64} {c : Cpu σ}
  {dec : Operands} {s : Size}

/-! ## Divisions that are right -/

theorem DivisorSafe.not_inRdx {rs : Reg} (hs : Wide s) (h : DivisorSafe E s rs) :
    E.x86_reg rs ≠ 2 := by
  rcases hs with rfl | rfl
  · exact fun h2 => h (hosted_of_inRdx h2)
  · exact h

theorem DivisorSafe.testsZero {rs : Reg} (hs : Wide s) (h : DivisorSafe E s rs) (v : BitVec 64) :
    testsZero E s rs v = decide (v.setWidth s.bits = 0) := by
  rw [Jit.testsZero]
  by_cases hr : 0 < E.x86_reg rs
  · rw [if_pos hr]
    rcases hs with rfl | rfl
    · exact absurd hr h
    · exact congrArg (fun u : BitVec 64 => decide (u = 0)) (setWidth_qword v).symm
  · rw [if_neg hr]

theorem ones_signExtend (hs : Wide s) : (-1 : BitVec s.bits).signExtend 64 = -1 := by
  rcases hs with rfl | rfl <;> decide

section
variable {rs : Reg} (hs : Wide s) (h : DivisorSafe E s rs) (x : BitVec s.bits) (v : BitVec 64)
include hs h

theorem divOutcome_unsigned :
    divOutcome E false rs x v = some ((divu x (v.setWidth s.bits)).signExtend 64) := by
  rw [divOutcome, h.testsZero hs, divisor, if_neg (h.not_inRdx hs), divide_unsigned, divu]
  by_cases hy : v.setWidth s.bits = 0
  · rw [if_pos (decide_eq_true hy), if_pos hy, ones_signExtend hs]
  · rw [if_neg (by rw [decide_eq_false hy]; decide), if_neg hy, if_neg hy]
    rfl

theorem divOutcome_signed (hover : ¬(x = BitVec.intMin s.bits ∧ v.setWidth s.bits = -1)) :
    divOutcome E true rs x v = some ((Isa.div x (v.setWidth s.bits)).signExtend 64) := by
  rw [divOutcome, h.testsZero hs, divisor, if_neg (h.not_inRdx hs), divide_signed hover, Isa.div,
    if_neg hover]
  by_cases hy : v.setWidth s.bits = 0
  · rw [if_pos (decide_eq_true hy), if_pos hy, ones_signExtend hs]
  · rw [if_neg (by rw [decide_eq_false hy]; decide), if_neg hy, if_neg hy]
    rfl

theorem remOutcome_unsigned :
    remOutcome E false rs x v = some ((remu x (v.setWidth s.bits)).signExtend 64) := by
  rw [remOutcome, h.testsZero hs, divisor, if_neg (h.not_inRdx hs), divide_unsigned, remu]
  by_cases hy : v.setWidth s.bits = 0
  · rw [if_pos (decide_eq_true hy), if_pos hy]
  · rw [if_neg (by rw [decide_eq_false hy]; decide), if_neg hy, if_neg hy]
    rfl

theorem remOutcome_signed (hover : ¬(x = BitVec.intMin s.bits ∧ v.setWidth s.bits = -1)) :
    remOutcome E true rs x v = some ((Isa.rem x (v.setWidth s.bits)).signExtend 64) := by
  rw [remOutcome, h.testsZero hs, divisor, if_neg (h.not_inRdx hs), divide_signed hover, Isa.rem,
    if_neg hover]
  by_cases hy : v.setWidth s.bits = 0
  · rw [if_pos (decide_eq_true hy), if_pos hy]
  · rw [if_neg (by rw [decide_eq_false hy]; decide), if_neg hy, if_neg hy]
    rfl

end

theorem sets_ones (dec : Operands) : Sets mmu junk E (E.emitOnes dec) c dec.rd (-1) :=
  sets_imm dec.rd (by decide)

theorem zero_ne_ones (hs : Wide s) : (0 : BitVec s.bits) ≠ -1 := by
  rcases hs with rfl | rfl <;> decide

theorem zero_ne_intMin (hs : Wide s) : (0 : BitVec s.bits) ≠ BitVec.intMin s.bits := by
  rcases hs with rfl | rfl <;> decide

theorem low_zero (s : Size) : (0 : BitVec 64).setWidth s.bits = 0 := BitVec.setWidth_zero ..

section
variable (hs : Wide s) (hx0 : c.reg E rv_ireg_x0 = 0) (hrd : dec.rd ≠ rv_ireg_x0)
include hs hx0 hrd

theorem sets_div (h : QuotientExact E s dec) : Sets mmu junk E (E.emitDiv s dec) c dec.rd
    ((Isa.div ((c.reg E dec.rs1).setWidth s.bits) ((c.reg E dec.rs2).setWidth s.bits)).signExtend
      64) := by
  by_cases h2 : dec.rs2 = rv_ireg_x0
  · rw [emitDiv, if_neg hrd, if_pos h2, h2, hx0, low_zero, Isa.div,
      if_neg fun h' => zero_ne_ones hs h'.2, if_pos rfl, ones_signExtend hs]
    exact sets_ones dec
  obtain ⟨h1, hsafe⟩ := h.resolve_left h2
  have hgives := gives_div mmu junk E c hs hrd h1 h2
  by_cases hover : (c.reg E dec.rs1).setWidth s.bits = BitVec.intMin s.bits ∧
      (c.reg E dec.rs2).setWidth s.bits = -1
  · rw [if_pos hover] at hgives
    rw [Isa.div, if_pos hover]
    exact hgives.sets
  · rw [if_neg hover, divOutcome_signed hs hsafe _ _ hover] at hgives
    exact hgives.sets

theorem sets_divu (h : QuotientExact E s dec) : Sets mmu junk E (E.emitDivu s dec) c dec.rd
    ((divu ((c.reg E dec.rs1).setWidth s.bits) ((c.reg E dec.rs2).setWidth s.bits)).signExtend
      64) := by
  by_cases h2 : dec.rs2 = rv_ireg_x0
  · rw [emitDivu, if_neg hrd, if_pos h2, h2, hx0, low_zero, divu, if_pos rfl, ones_signExtend hs]
    exact sets_ones dec
  obtain ⟨h1, hsafe⟩ := h.resolve_left h2
  have hgives := gives_divu mmu junk E c hs hrd h1 h2
  rw [divOutcome_unsigned hs hsafe] at hgives
  exact hgives.sets

theorem sets_rem (h : RemainderExact E s dec) (h1 : E.x86_reg dec.rs1 ≠ 2) :
    Sets mmu junk E (E.emitRem s dec) c dec.rd
      ((Isa.rem ((c.reg E dec.rs1).setWidth s.bits) ((c.reg E dec.rs2).setWidth s.bits)).signExtend
        64) := by
  by_cases hz : dec.rs1 = rv_ireg_x0
  · rw [emitRem, if_neg hrd, if_neg h.1, if_pos hz, hz, hx0, low_zero, Isa.rem,
      if_neg fun h' => zero_ne_intMin hs h'.1]
    refine (sets_zero dec).of_eq ?_
    simp only [BitVec.ofNat_eq_ofNat, BitVec.zero_srem, ite_self]
    exact (zero_signExtend hs).symm
  have hsafe := h.2.resolve_left hz
  have hgives := gives_rem mmu junk E c hs hrd hz h.1
  have hreg : ∀ r, E.x86_reg r ≠ 2 →
      (if (c.reg E dec.rs1).setWidth s.bits = BitVec.intMin s.bits then
        (c.setGpr rdx 0).reg E else c.reg E) r = c.reg E r := by
    intro r hr
    split_ifs
    · exact reg_setGpr_rdx_of_ne hr 0
    · rfl
  dsimp only at hgives
  rw [hreg _ h1, hreg _ (hsafe.not_inRdx hs)] at hgives
  by_cases hover : (c.reg E dec.rs1).setWidth s.bits = BitVec.intMin s.bits ∧
      (c.reg E dec.rs2).setWidth s.bits = -1
  · rw [if_pos hover] at hgives
    rw [Isa.rem, if_pos hover]
    exact hgives.sets.of_eq (zero_signExtend hs).symm
  · rw [if_neg hover, remOutcome_signed hs hsafe _ _ hover] at hgives
    exact hgives.sets

theorem sets_remu (h : RemainderExact E s dec) : Sets mmu junk E (E.emitRemu s dec) c dec.rd
    ((remu ((c.reg E dec.rs1).setWidth s.bits) ((c.reg E dec.rs2).setWidth s.bits)).signExtend
      64) := by
  by_cases hz : dec.rs1 = rv_ireg_x0
  · rw [emitRemu, if_neg hrd, if_neg h.1, if_pos hz, hz, hx0, low_zero, remu]
    refine (sets_zero dec).of_eq ?_
    simp only [BitVec.ofNat_eq_ofNat, BitVec.zero_umod, ite_self]
    exact (zero_signExtend hs).symm
  have hgives := gives_remu mmu junk E c hs hrd hz h.1
  rw [remOutcome_unsigned hs (h.2.resolve_left hz)] at hgives
  exact hgives.sets

end

/-! ## All operations -/

/-- An operation on whole registers. -/
theorem whole (op : BitVec 64 → BitVec 64 → BitVec 64) (x y : BitVec 64) :
    BitVec.signExtend 64 (w := 64)
      (op (x.setWidth Size.qword.bits) (y.setWidth Size.qword.bits)) = op x y :=
  (BitVec.signExtend_eq _).trans (congrArg₂ op (setWidth_qword x) (setWidth_qword y))

theorem disp_toInt (dec : Operands) : dec.disp.toInt = dec.imm.toInt :=
  BitVec.toInt_signExtend_of_le (by decide)

section
variable (hx0 : c.reg E rv_ireg_x0 = 0) (hrd : dec.rd ≠ rv_ireg_x0)
include hx0 hrd

theorem sets_reg {op : RegOp} (h : AluOp.Exact E (.reg op) dec) :
    Sets mmu junk E (emitReg E op dec) c dec.rd
      (op.result (c.reg E dec.rs1) (c.reg E dec.rs2)) := by
  have hexact := h.resolve_left hrd
  cases op with
  | add => exact (sets_add hx0 hrd).of_eq (ofInt_toInt_add _ _).symm
  | sub => exact (sets_sub hx0 hrd).of_eq (ofInt_toInt_sub _ _).symm
  | sll => exact sets_shift (by decide : ShiftOp.shl ≠ .ror) hx0 hrd
  | srl => exact sets_shift (by decide : ShiftOp.shr ≠ .ror) hx0 hrd
  | sra => exact sets_shift (by decide : ShiftOp.sar ≠ .ror) hx0 hrd
  | slt => exact (sets_slt_of hx0 hrd .l).of_eq (congrArg flag (holds_l _ _))
  | sltu => exact sets_slt_of hx0 hrd .b
  | xor =>
    exact sets_union hx0 hrd .xor (fun x y => BitVec.xor_comm y x) fun x => BitVec.xor_zero
  | or => exact sets_union hx0 hrd .or (fun x y => BitVec.or_comm y x) fun x => BitVec.or_zero
  | and => exact sets_and hx0 hrd
  | addw => exact (sets_addw hx0 hrd hexact).of_eq (congrArg sx (ofInt_toInt_add _ _).symm)
  | subw => exact (sets_subw hx0 hrd).of_eq (congrArg sx (ofInt_toInt_sub _ _).symm)
  | sllw => exact sets_shiftW (by decide : ShiftOp.shl ≠ .ror) hx0 hrd
  | srlw => exact sets_shiftW (by decide : ShiftOp.shr ≠ .ror) hx0 hrd
  | sraw => exact sets_shiftW (by decide : ShiftOp.sar ≠ .ror) hx0 hrd
  | mul => exact (sets_mul hx0 hrd).of_eq (ofInt_toInt_mul _ _).symm
  | mulw => exact (sets_mulw hx0 hrd).of_eq (congrArg sx (ofInt_toInt_mul _ _).symm)
  | mulh => exact (sets_mulHigh hx0 hrd true).of_eq (mulHigh_ofInt _ _)
  | mulhu => exact (sets_mulHigh hx0 hrd false).of_eq (mulHigh_u _ _)
  | mulhsu => exact sets_mulhsu hx0 hrd
  | div =>
    exact (sets_div (s := .qword) (.inr rfl) hx0 hrd hexact).of_eq
      ((whole Isa.div _ _).trans (quotient_eq (by decide) _ _).symm)
  | divu =>
    exact (sets_divu (s := .qword) (.inr rfl) hx0 hrd hexact).of_eq
      ((whole Isa.divu _ _).trans (quotientU_eq _ _).symm)
  | rem =>
    exact (sets_rem (s := .qword) (.inr rfl) hx0 hrd hexact.1 hexact.2).of_eq
      ((whole Isa.rem _ _).trans (remainder_eq (by decide) _ _).symm)
  | remu =>
    exact (sets_remu (s := .qword) (.inr rfl) hx0 hrd hexact).of_eq
      ((whole Isa.remu _ _).trans (remainderU_eq _ _).symm)
  | divw =>
    exact (sets_div (s := .dword) (.inl rfl) hx0 hrd hexact).of_eq
      (congrArg sx (quotient_eq (by decide) _ _).symm)
  | divuw =>
    exact (sets_divu (s := .dword) (.inl rfl) hx0 hrd hexact).of_eq
      (congrArg sx (quotientU_eq _ _).symm)
  | remw =>
    exact (sets_rem (s := .dword) (.inl rfl) hx0 hrd hexact.1 hexact.2).of_eq
      (congrArg sx (remainder_eq (by decide) _ _).symm)
  | remuw =>
    exact (sets_remu (s := .dword) (.inl rfl) hx0 hrd hexact).of_eq
      (congrArg sx (remainderU_eq _ _).symm)

theorem sets_immOp (op : ImmOp) : Sets mmu junk E (emitImm E op dec) c dec.rd
    (op.result (c.reg E dec.rs1) dec.imm) := by
  cases op with
  | addi =>
    refine (sets_addi hx0 hrd).of_eq ?_
    rw [← ofInt_toInt_add, disp_toInt]
    rfl
  | slti =>
    refine (sets_slti_of hx0 hrd .l (holds_l 0 dec.disp).symm).of_eq ?_
    rw [holds_l, BitVec.slt, disp_toInt]
    rfl
  | sltiu => exact sets_slti_of hx0 hrd .b rfl
  | xori => exact sets_logicImm hx0 hrd .xor ((sets_disp dec dec.rd).of_eq BitVec.zero_xor.symm)
  | ori => exact sets_logicImm hx0 hrd .or ((sets_disp dec dec.rd).of_eq BitVec.zero_or.symm)
  | andi => exact sets_logicImm hx0 hrd .and ((sets_zero dec).of_eq BitVec.zero_and.symm)
  | slli => exact sets_shiftImm hx0 hrd (by decide : ShiftOp.shl ≠ .ror)
  | srli => exact sets_shiftImm hx0 hrd (by decide : ShiftOp.shr ≠ .ror)
  | srai => exact sets_shiftImm hx0 hrd (by decide : ShiftOp.sar ≠ .ror)
  | addiw =>
    refine (sets_addiw hx0 hrd).of_eq (congrArg sx ?_)
    rw [← ofInt_toInt_add]
    rfl
  | slliw => exact sets_shiftImmW hx0 hrd (by decide : ShiftOp.shl ≠ .ror)
  | srliw => exact sets_shiftImmW hx0 hrd (by decide : ShiftOp.shr ≠ .ror)
  | sraiw => exact sets_shiftImmW hx0 hrd (by decide : ShiftOp.sar ≠ .ror)

theorem sets_alu {op : AluOp} (h : op.Exact E dec) : Sets mmu junk E (emitAlu E op dec) c dec.rd
    (op.result dec (c.reg E dec.rs1) (c.reg E dec.rs2)) := by
  cases op with
  | reg op => exact sets_reg hx0 hrd h
  | imm op => exact sets_immOp hx0 hrd op
  | lui => exact sets_lui hrd
  | auipc => exact sets_auipc hrd (h.resolve_left hrd)

end

/-- Nothing is emitted for a result that is thrown away. -/
theorem emitAlu_x0 (E : EmitterRv64) (op : AluOp) {dec : Operands} (hrd : dec.rd = rv_ireg_x0) :
    emitAlu E op dec = [] := by
  rcases op with op | op | _ | _
  · cases op <;> exact if_pos hrd
  · cases op <;> exact if_pos hrd
  · exact if_pos hrd
  · exact if_pos hrd

/-! ## Where it goes wrong -/

/-- A state with given values of the guest's registers. -/
def Cpu.ofRegs [Inhabited σ] (g : Reg → BitVec 64) : Cpu σ where
  gpr r := g (guestOf r)
  field
    | .ireg r => g r
    | _ => 0
  mem := default
  accesses := []
  zf := false
  control := .run

theorem reg_ofRegs [Inhabited σ] (g : Reg → BitVec 64) : (Cpu.ofRegs g : Cpu σ).reg E = g := by
  funext r
  rw [Cpu.reg]
  by_cases h : 0 < E.x86_reg r
  · rw [if_pos h]
    exact congrArg g (guestOf_gp E h)
  · rw [if_neg h]
    rfl

/-- A run has one result. -/
theorem Gives.unique {code : List ArithIns} {rd : Reg} {o : Option (BitVec 64)} {v : BitVec 64}
    (h : Gives mmu junk E code c rd o) (h' : Sets mmu junk E code c rd v) : o = some v := by
  obtain ⟨c', f', hrun, hbecomes⟩ := h' none
  have hends := h none
  rw [hrun] at hends
  cases o with
  | none => exact Status.noConfusion hends
  | some u =>
    obtain ⟨c'', f'', hstate, hbecomes'⟩ := hends
    have hcpu : c' = c'' := (HostState.mk.inj hstate).1
    have hreg := congrFun (hbecomes'.regs.symm.trans (hcpu ▸ hbecomes.regs)) rd
    rw [Function.update_self, Function.update_self] at hreg
    rw [hreg]

variable (mmu junk) in
/-- The code of an operation sets its register to the result, and nothing else, whatever the state
is. -/
def Correct (E : EmitterRv64) (op : AluOp) (dec : Operands) : Prop :=
  ∀ c : Cpu σ, c.reg E rv_ireg_x0 = 0 → Sets mmu junk E (emitAlu E op dec) c dec.rd
    (op.result dec (c.reg E dec.rs1) (c.reg E dec.rs2))

section
variable [Inhabited σ] {op : AluOp} (g : Reg → BitVec 64) (hg : g rv_ireg_x0 = 0)
include hg

/-- A state where the code gives something else. -/
theorem not_correct {o : Option (BitVec 64)}
    (h : Gives mmu junk E (emitAlu E op dec) (Cpu.ofRegs g : Cpu σ) dec.rd o)
    (ho : o ≠ some (op.result dec (g dec.rs1) (g dec.rs2))) : ¬ Correct mmu junk E op dec := by
  intro hcorrect
  have hsets := hcorrect (Cpu.ofRegs g) (by rw [reg_ofRegs, hg])
  rw [reg_ofRegs] at hsets
  exact ho (h.unique hsets)

end

/-- Code that always gives the same. -/
theorem constant_wrong [Inhabited σ] {op : AluOp} {v : BitVec 64}
    (h : ∀ c : Cpu σ, Sets mmu junk E (emitAlu E op dec) c dec.rd v) (hv : op.result dec 0 0 ≠ v) :
    ¬ Correct mmu junk E op dec :=
  not_correct 0 rfl (o := some v) (h _) fun he => hv (Option.some.inj he).symm

section
variable [Inhabited σ] (hrd : dec.rd ≠ rv_ireg_x0)
include hrd

theorem addw_wrong (h : AddwWhole E dec) : ¬ Correct mmu junk E (.reg .addw) dec := by
  obtain ⟨h1, h2, hhost, hmem⟩ := h
  refine not_correct (Function.update 0 dec.rs2 (2 ^ 32)) (Function.update_of_ne h2.symm _ _)
    (o := some (2 ^ 32)) (fun f => ?_) ?_
  · show EndsWith E _ dec.rd (run mmu junk (E.emit_addw dec) _) _
    rw [emit_addw, if_neg hrd, if_pos h1, emit_mv_rd_rs2_sx_32, if_pos hhost, if_neg hmem,
      opnd_stored hmem, run_mov_reg_opnd _ (.inr rfl), cut_qword, reg_ofRegs, Function.update_self,
      run_nil]
    have hset := becomes_setReg (E := E) (Cpu.ofRegs (Function.update 0 dec.rs2 (2 ^ 32)) : Cpu σ)
      dec.rd (2 ^ 32)
    rw [Cpu.setReg, if_pos hhost] at hset
    exact ⟨_, f, rfl, hset⟩
  · rw [Function.update_self, h1, Function.update_of_ne h2.symm]
    show some (2 ^ 32 : BitVec 64) ≠ some (RegOp.addw.result 0 (2 ^ 32))
    decide

theorem auipc_wrong (hmem : ¬ 0 < E.x86_reg dec.rd)
    (h : ((dec.pc + dec.disp).setWidth 32).signExtend 64 ≠ dec.pc + dec.disp) :
    ¬ Correct mmu junk E .auipc dec := by
  refine not_correct 0 rfl (o := some (((dec.pc + dec.disp).setWidth 32).signExtend 64))
    (fun f => ?_) fun he => h (Option.some.inj he)
  show EndsWith E _ dec.rd (run mmu junk (E.emit_auipc dec) _) _
  rw [emit_auipc, if_neg hrd, if_neg hmem, mov, run_cons, exec, rbp_reg, Cpu.exec_mov_field_imm,
    run_nil]
  have hset := becomes_setReg (E := E) (Cpu.ofRegs 0 : Cpu σ) dec.rd
    (((dec.pc + dec.disp).setWidth 32).signExtend 64)
  rw [Cpu.setReg, if_neg hmem] at hset
  exact ⟨_, f, rfl, hset⟩

end

theorem divide_zero {w : ℕ} (signed : Bool) (x : BitVec (w + w)) :
    divide signed x (0 : BitVec w) = none := by
  cases signed with
  | true =>
    rw [divide, if_pos rfl]
    exact if_neg fun h => h.1 rfl
  | false =>
    rw [divide, if_neg Bool.false_ne_true]
    exact if_neg fun h => h.1 rfl

/-- A word whose lower half, or the upper word of the dividend made from it, is zero. -/
def badWord : Size → BitVec 64
  | .qword => 1
  | _ => 0x100000000

theorem bad_fill (hs : Wide s) (signed : Bool) : fill signed ((badWord s).setWidth s.bits) = 0 := by
  rcases hs with rfl | rfl <;> cases signed <;> decide

theorem bad_ne_intMin (hs : Wide s) : (badWord s).setWidth s.bits ≠ BitVec.intMin s.bits := by
  rcases hs with rfl | rfl <;> decide

section
variable {rs : Reg} (hs : Wide s) (hbad : ¬ DivisorSafe E s rs)
include hs hbad

theorem bad_hosted : 0 < E.x86_reg rs := by
  by_contra hno
  rcases hs with rfl | rfl
  · exact hbad hno
  · exact hbad fun h2 => hno (hosted_of_inRdx h2)

theorem bad_divisor (signed : Bool) : divisor E rs (fill signed ((badWord s).setWidth s.bits))
    ((badWord s).setWidth s.bits) = 0 := by
  rw [divisor, bad_fill hs]
  rcases hs with rfl | rfl
  · split_ifs
    · rfl
    · decide
  · exact if_pos (not_not.1 hbad)

theorem bad_testsZero : testsZero E s rs (badWord s) = false := by
  rw [testsZero, if_pos (bad_hosted hs hbad)]
  rcases hs with rfl | rfl <;> decide

theorem divOutcome_bad (signed : Bool) :
    divOutcome E signed rs ((badWord s).setWidth s.bits) (badWord s) = none := by
  rw [divOutcome, bad_testsZero hs hbad, if_neg Bool.false_ne_true, bad_divisor hs hbad, divide_zero]
  rfl

theorem remOutcome_bad (signed : Bool) :
    remOutcome E signed rs ((badWord s).setWidth s.bits) (badWord s) = none := by
  rw [remOutcome, bad_testsZero hs hbad, if_neg Bool.false_ne_true, bad_divisor hs hbad, divide_zero]
  rfl

end

section
variable [Inhabited σ] {op : AluOp} (hs : Wide s) (hrd : dec.rd ≠ rv_ireg_x0)
  (hrs1 : dec.rs1 ≠ rv_ireg_x0) (hrs2 : dec.rs2 ≠ rv_ireg_x0)
include hs hrd hrs1 hrs2

/-- A division whose divisor is overwritten ends in an error. -/
theorem divisor_wrong (hbad : ¬ DivisorSafe E s dec.rs2)
    (hemit : emitAlu E op dec = E.emitDiv s dec ∨ emitAlu E op dec = E.emitDivu s dec ∨
      emitAlu E op dec = E.emitRem s dec ∨ emitAlu E op dec = E.emitRemu s dec) :
    ¬ Correct mmu junk E op dec := by
  obtain ⟨g, hg, h1, h2⟩ : ∃ g : Reg → BitVec 64, g rv_ireg_x0 = 0 ∧ g dec.rs1 = badWord s ∧
      g dec.rs2 = badWord s :=
    ⟨fun r => if r = rv_ireg_x0 then 0 else badWord s, if_pos rfl, if_neg hrs1, if_neg hrs2⟩
  refine not_correct g hg (o := none) ?_ (Option.some_ne_none _).symm
  rcases hemit with hemit | hemit | hemit | hemit
  · have hgives := gives_div mmu junk E (Cpu.ofRegs g) hs hrd hrs1 hrs2
    rw [reg_ofRegs, h1, h2, if_neg fun h => bad_ne_intMin hs h.1, divOutcome_bad hs hbad] at hgives
    rwa [hemit]
  · have hgives := gives_divu mmu junk E (Cpu.ofRegs g) hs hrd hrs1 hrs2
    rw [reg_ofRegs, h1, h2, divOutcome_bad hs hbad] at hgives
    rwa [hemit]
  · have hgives := gives_rem mmu junk E (Cpu.ofRegs g) hs hrd hrs1 hrs2
    rw [reg_ofRegs, h1, if_neg (bad_ne_intMin hs)] at hgives
    dsimp only at hgives
    rw [if_neg fun h => bad_ne_intMin hs h.1, h1, h2, remOutcome_bad hs hbad] at hgives
    rwa [hemit]
  · have hgives := gives_remu mmu junk E (Cpu.ofRegs g) hs hrd hrs1 hrs2
    rw [reg_ofRegs, h1, h2, remOutcome_bad hs hbad] at hgives
    rwa [hemit]

omit hrd hrs1 hrs2 in
theorem three_ne_ones : (3 : BitVec 64).setWidth s.bits ≠ -1 := by
  rcases hs with rfl | rfl <;> decide

/-- A remainder of the smallest number, which is overwritten. -/
theorem dividend_wrong (hsafe : DivisorSafe E s dec.rs2) (hbad : E.x86_reg dec.rs1 = 2)
    (hemit : emitAlu E op dec = E.emitRem s dec)
    (hres : op.result dec (intMin s) 3 ≠ 0) : ¬ Correct mmu junk E op dec := by
  have hne : dec.rs2 ≠ dec.rs1 := fun he => hsafe.not_inRdx hs (he ▸ hbad)
  obtain ⟨g, hg, h1, h2⟩ : ∃ g : Reg → BitVec 64, g rv_ireg_x0 = 0 ∧ g dec.rs1 = intMin s ∧
      g dec.rs2 = 3 :=
    ⟨fun r => if r = rv_ireg_x0 then 0 else if r = dec.rs1 then intMin s else 3, if_pos rfl,
      (if_neg hrs1).trans (if_pos rfl), (if_neg hrs2).trans (if_neg hne)⟩
  refine not_correct g hg (o := some 0) ?_ fun he => hres ?_
  · have hgives := gives_rem mmu junk E (Cpu.ofRegs g) hs hrd hrs1 hrs2
    rw [reg_ofRegs, h1, if_pos (intMin_low hs)] at hgives
    dsimp only at hgives
    rw [reg_setGpr_rdx_of_eq hbad, reg_setGpr_rdx_of_ne (hsafe.not_inRdx hs), reg_ofRegs, h2,
      if_neg fun h => three_ne_ones hs h.2, remOutcome_signed hs hsafe _ _
        fun h => three_ne_ones hs h.2, low_zero] at hgives
    have hzero : (Isa.rem (0 : BitVec s.bits) ((3 : BitVec 64).setWidth s.bits)).signExtend 64 =
        (0 : BitVec 64) := by
      rcases hs with rfl | rfl <;> decide
    rw [hzero] at hgives
    rwa [hemit]
  · rw [h1, h2] at he
    exact (Option.some.inj he).symm

end

section
variable [Inhabited σ] {op : RegOp} (hs : Wide s) (hrd : dec.rd ≠ rv_ireg_x0)
include hs hrd

theorem quotient_wrong (h : ¬ QuotientExact E s dec)
    (hemit : emitReg E op dec = E.emitDiv s dec ∨ emitReg E op dec = E.emitDivu s dec)
    (hres : op.result (0 : BitVec 64) 0 ≠ 0) : ¬ Correct mmu junk E (.reg op) dec := by
  obtain ⟨h2, h1⟩ := not_or.1 h
  by_cases hz : dec.rs1 = rv_ireg_x0
  · refine constant_wrong (v := 0) (fun c => ?_) hres
    rcases hemit with hemit | hemit
    · rw [emitAlu, hemit, emitDiv, if_neg hrd, if_neg h2, if_pos hz]
      exact sets_zero dec
    · rw [emitAlu, hemit, emitDivu, if_neg hrd, if_neg h2, if_pos hz]
      exact sets_zero dec
  · exact divisor_wrong hs hrd hz h2 (fun hsafe => h1 ⟨hz, hsafe⟩) (hemit.imp_right .inl)

theorem remainder_wrong (h : ¬ RemainderExact E s dec)
    (hemit : emitReg E op dec = E.emitRem s dec ∨ emitReg E op dec = E.emitRemu s dec)
    (hres : op.result (0 : BitVec 64) 0 ≠ -1) : ¬ Correct mmu junk E (.reg op) dec := by
  by_cases h2 : dec.rs2 = rv_ireg_x0
  · refine constant_wrong (v := -1) (fun c => ?_) hres
    rcases hemit with hemit | hemit
    · rw [emitAlu, hemit, emitRem, if_neg hrd, if_pos h2]
      exact sets_ones dec
    · rw [emitAlu, hemit, emitRemu, if_neg hrd, if_pos h2]
      exact sets_ones dec
  · have h1 : ¬(dec.rs1 = rv_ireg_x0 ∨ DivisorSafe E s dec.rs2) := fun h1 => h ⟨h2, h1⟩
    obtain ⟨hz, hbad⟩ := not_or.1 h1
    exact divisor_wrong hs hrd hz h2 hbad (.inr (.inr hemit))

/-- A remainder of a number in `rdx`. -/
theorem remainder_dividend_wrong (h : ¬(RemainderExact E s dec ∧ E.x86_reg dec.rs1 ≠ 2))
    (hemit : emitReg E op dec = E.emitRem s dec) (hres : op.result (0 : BitVec 64) 0 ≠ -1)
    (hres' : op.result (intMin s) 3 ≠ 0) : ¬ Correct mmu junk E (.reg op) dec := by
  by_cases hexact : RemainderExact E s dec
  · have hbad : E.x86_reg dec.rs1 = 2 := by
      by_contra hno
      exact h ⟨hexact, hno⟩
    have hz : dec.rs1 ≠ rv_ireg_x0 := fun he => x0_stored (he ▸ hosted_of_inRdx hbad)
    exact dividend_wrong hs hrd hz hexact.1 (hexact.2.resolve_left hz) hbad hemit hres'
  · exact remainder_wrong hs hrd hexact (.inl hemit) hres

end

variable (mmu junk E dec) in
/-- The code of an operation computes its result in every state if and only if its operands are where
it expects them. -/
theorem alu_correct_iff [Inhabited σ] (op : AluOp) :
    (∀ c : Cpu σ, c.reg E rv_ireg_x0 = 0 → Runs mmu junk (emitAlu E op dec) c fun c' =>
      Becomes E c c' (if dec.rd = rv_ireg_x0 then c.reg E else Function.update (c.reg E) dec.rd
        (op.result dec (c.reg E dec.rs1) (c.reg E dec.rs2)))) ↔ op.Exact E dec := by
  by_cases hrd : dec.rd = rv_ireg_x0
  · refine iff_of_true (fun c _ => ?_) (.inl hrd)
    rw [emitAlu_x0 E op hrd, if_pos hrd]
    exact .nil (.refl E c)
  simp only [if_neg hrd]
  show Correct mmu junk E op dec ↔ op.Exact E dec
  refine ⟨fun hcorrect => ?_, fun h c hx0 => sets_alu hx0 hrd h⟩
  by_contra h
  have hnot := fun hexact => h (.inr hexact)
  rcases op with op | op | _ | _
  · cases op
    case addw => exact addw_wrong hrd (not_not.1 hnot) hcorrect
    case div => exact quotient_wrong (.inr rfl) hrd hnot (.inl rfl) (by decide) hcorrect
    case divu => exact quotient_wrong (.inr rfl) hrd hnot (.inr rfl) (by decide) hcorrect
    case divw => exact quotient_wrong (.inl rfl) hrd hnot (.inl rfl) (by decide) hcorrect
    case divuw => exact quotient_wrong (.inl rfl) hrd hnot (.inr rfl) (by decide) hcorrect
    case rem =>
      exact remainder_dividend_wrong (.inr rfl) hrd hnot rfl (by decide) (by decide) hcorrect
    case remw =>
      exact remainder_dividend_wrong (.inl rfl) hrd hnot rfl (by decide) (by decide) hcorrect
    case remu => exact remainder_wrong (.inr rfl) hrd hnot (.inr rfl) (by decide) hcorrect
    case remuw => exact remainder_wrong (.inl rfl) hrd hnot (.inr rfl) (by decide) hcorrect
    all_goals exact hnot trivial
  · exact hnot trivial
  · exact hnot trivial
  · obtain ⟨hmem, hfits⟩ := not_or.1 hnot
    exact auipc_wrong hrd hmem hfits hcorrect

end

end RvCkpt.Jit
