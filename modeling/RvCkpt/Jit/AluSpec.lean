import RvCkpt.Isa.Spec
import RvCkpt.Jit.ArithSpec

/-! # Compiled arithmetic on guest registers

What the emitters of the integer operations do, apart from those that divide and those that multiply
into two words: where the operands are and which of them are the same makes no difference.
-/

namespace RvCkpt.Jit
open Isa HostState EmitterRv64
set_option autoImplicit false

section
variable {σ : Type} {mmu : Mmu σ} {junk : Gpr → BitVec 64} {E : EmitterRv64} {c : Cpu σ}
  {rd rs : Reg} {s : Size}

/-- A register that is neither x0 nor in the host is in memory. -/
theorem stored_iff {r : Reg} (hr : r ≠ rv_ireg_x0) : E.x86_reg r < 0 ↔ ¬ 0 < E.x86_reg r := by
  obtain ⟨m, u⟩ := E
  cases m <;> cases u <;> decide +revert

theorem x0_stored : ¬ 0 < E.x86_reg rv_ireg_x0 := by
  obtain ⟨m, u⟩ := E
  cases m <;> cases u <;> decide

/-! ## Fragments -/

theorem sets_sx_32 (dec : Operands) :
    Sets mmu junk E (E.emit_sx_32_rd dec) c dec.rd (sx (word32 (c.reg E dec.rd))) := by
  rw [emit_sx_32_rd]
  by_cases h : 0 < E.x86_reg dec.rd
  · rw [if_pos h, opnd_hosted h]
    refine sets_setReg (fun f => ⟨f, ?_⟩) (.refl E c)
    rw [run_movsxd_opnd, Cpu.setReg, if_pos h, run_nil]
  · rw [if_neg h, opnd_stored h]
    refine sets_setReg (fun f => ⟨f, ?_⟩) (becomes_rcx c (sx (word32 (c.reg E dec.rd))))
    rw [run_movsxd_opnd, run_mov_opnd_reg, Cpu.setGpr_self, run_nil]

theorem sets_imm (rd : Reg) {v : BitVec 64} (hv : (v.setWidth 32).signExtend 64 = v) :
    Sets mmu junk E [mov .qword (E.opnd rd) (.imm v)] c rd v :=
  sets_setReg (fun f => ⟨f, run_mov_opnd_imm [] rd hv⟩) (.refl E c)

theorem sets_gpr_imm (h : 0 < E.x86_reg rd) (v : BitVec 64) :
    Sets mmu junk E [mov .qword (.reg (E.gp rd)) (.imm v)] c rd v := by
  refine sets_setReg (fun f => ⟨f, ?_⟩) (.refl E c)
  rw [run_mov_reg_imm, Cpu.setReg, if_pos h, run_nil]

theorem sets_gpr_xor (h : 0 < E.x86_reg rd) (hs : Wide s) :
    Sets mmu junk E [.arith .xor s (.reg (E.gp rd)) (.reg (E.gp rd))] c rd 0 := by
  refine sets_setReg (fun f => ⟨none, ?_⟩) (.refl E c)
  rw [run_xor_self [] hs, Cpu.setReg, if_pos h, run_nil]

theorem sets_zero (dec : Operands) : Sets mmu junk E (E.emit_zero_rd dec) c dec.rd 0 := by
  rw [emit_zero_rd]
  by_cases h : 0 < E.x86_reg dec.rd
  · rw [if_pos h]
    exact sets_gpr_xor h (.inl rfl)
  · rw [if_neg h, opnd_stored h]
    exact sets_imm dec.rd (by decide)

/-- A move to a register. -/
theorem setsLow_mov (hs : Wide s) (rd : Reg) {src : Operand}
    (hsrc : (∃ r, src = .reg r) ∨ ∃ fl, src = .field fl) :
    SetsLow mmu junk E s [mov s (E.opnd rd) src] c rd (value mmu c s src) := by
  intro f
  obtain ⟨x, hput, hx⟩ := put_opnd mmu E c hs rd (value mmu c s src)
  refine ⟨_, f, ?_, x, hx, becomes_setReg c rd x⟩
  rw [mov, run_cons, exec, exec_mov c s hsrc, hput, run_nil]

/-- A value in `rax` that is moved to a register. -/
theorem setsLow_rax (hs : Wide s) (rd rs : Reg) :
    SetsLow mmu junk E s [mov s (.reg rax) (E.opnd rs), mov s (E.opnd rd) (.reg rax)] c rd
      ((c.reg E rs).setWidth s.bits) := by
  refine ((setsLow_mov hs rd (.inl ⟨rax, rfl⟩)).of_eq ?_).via_rax
    fun f => ⟨f, run_mov_reg_opnd _ hs rax rs⟩
  rw [value_reg, Cpu.setGpr_self, cut_setWidth]

theorem setsLow_mv (hs : Wide s) (rd rs : Reg) :
    SetsLow mmu junk E s (E.emitMv s rd rs) c rd ((c.reg E rs).setWidth s.bits) := by
  rw [emitMv]
  by_cases heq : rd = rs
  · rw [if_pos heq, ← heq]
    refine .nil ⟨c.reg E rd, rfl, ?_⟩
    rw [Function.update_eq_self]
    exact .refl E c
  rw [if_neg heq]
  by_cases hrd : 0 < E.x86_reg rd
  · rw [if_pos hrd, opnd_hosted hrd]
    exact (setsLow_mov hs rd (opnd_cases rs)).of_eq (value_opnd c s rs)
  rw [if_neg hrd, opnd_stored hrd]
  by_cases hrs : 0 < E.x86_reg rs
  · rw [if_pos hrs, opnd_hosted hrs]
    exact (setsLow_mov hs rd (opnd_cases rs)).of_eq (value_opnd c s rs)
  · rw [if_neg hrs, opnd_stored hrs]
    exact setsLow_rax hs rd rs

theorem sets_mv (rd rs : Reg) : Sets mmu junk E (E.emitMv .qword rd rs) c rd (c.reg E rs) :=
  ((setsLow_mv (.inr rfl) rd rs).sets).of_eq (setWidth_qword _)

theorem sets_mv_sx_32 (dec : Operands) :
    Sets mmu junk E (E.emit_mv_rd_rs1_sx_32 dec) c dec.rd (sx (word32 (c.reg E dec.rs1))) := by
  rw [emit_mv_rd_rs1_sx_32]
  by_cases h : 0 < E.x86_reg dec.rd
  · rw [if_pos h]
    refine sets_setReg (fun f => ⟨f, ?_⟩) (.refl E c)
    rw [run_movsxd_opnd, Cpu.setReg, if_pos h, run_nil]
  · rw [if_neg h, opnd_stored h]
    refine sets_setReg (fun f => ⟨f, ?_⟩) (becomes_rax c (sx (word32 (c.reg E dec.rs1))))
    rw [run_movsxd_opnd, run_mov_opnd_reg, Cpu.setGpr_self, run_nil]

/-- An operation on a register in place. -/
theorem setsLow_arith (hs : Wide s) (op : Arith) (rd : Reg) (src : Operand) :
    SetsLow mmu junk E s [.arith op s (E.opnd rd) src] c rd
      (op.eval ((c.reg E rd).setWidth s.bits) (value mmu c s src)) := by
  intro f
  obtain ⟨x, hput, hx⟩ := put_opnd mmu E c hs rd
    (op.eval ((c.reg E rd).setWidth s.bits) (value mmu c s src))
  refine ⟨_, none, ?_, x, hx, becomes_setReg c rd x⟩
  rw [run_cons, exec, value_opnd, hput, run_nil]

theorem setsLow_neg (hs : Wide s) (rd : Reg) :
    SetsLow mmu junk E s [.neg s (E.opnd rd)] c rd (-(c.reg E rd).setWidth s.bits) := by
  intro f
  obtain ⟨x, hput, hx⟩ := put_opnd mmu E c hs rd (-(c.reg E rd).setWidth s.bits)
  refine ⟨_, none, ?_, x, hx, becomes_setReg c rd x⟩
  rw [run_cons, exec, value_opnd, hput, run_nil]

theorem setsLow_shift (hs : Wide s) (op : ShiftOp) (rd : Reg) (n : Amount) :
    SetsLow mmu junk E s [.shift op s (E.opnd rd) n] c rd
      (op.eval ((c.reg E rd).setWidth s.bits) (amount c s n)) := by
  intro f
  obtain ⟨x, hput, hx⟩ := put_opnd mmu E c hs rd
    (op.eval ((c.reg E rd).setWidth s.bits) (amount c s n))
  refine ⟨_, none, ?_, x, hx, becomes_setReg c rd x⟩
  rw [run_cons, exec, value_opnd, hput, run_nil]

theorem setsLow_into (hs : Wide s) (op : Arith) (rd rs : Reg) :
    SetsLow mmu junk E s (E.emitInto op s rd rs) c rd
      (op.eval ((c.reg E rd).setWidth s.bits) ((c.reg E rs).setWidth s.bits)) := by
  rw [emitInto]
  by_cases hrd : 0 < E.x86_reg rd
  · rw [if_pos hrd, opnd_hosted hrd]
    exact (setsLow_arith hs op rd _).of_eq (by rw [value_opnd])
  rw [if_neg hrd, opnd_stored hrd]
  by_cases hrs : 0 < E.x86_reg rs
  · rw [if_pos hrs, opnd_hosted hrs]
    exact (setsLow_arith hs op rd _).of_eq (by rw [value_opnd])
  · rw [if_neg hrs, opnd_stored hrs]
    refine ((setsLow_arith hs op rd (.reg rax)).of_eq ?_).via_rax
      fun f => ⟨f, run_mov_reg_opnd _ hs rax rs⟩
    rw [value_reg, Cpu.setGpr_self, cut_setWidth, reg_setGpr_rax]

/-! ## Operations of two registers -/

theorem reg_of_update {c' : Cpu σ} {r : Reg} {v : BitVec 64}
    (h : c'.reg E = Function.update (c.reg E) rd v) (hr : r ≠ rd) : c'.reg E r = c.reg E r := by
  rw [h, Function.update_of_ne hr]

theorem sets_skip (rd : Reg) : Sets mmu junk E [] c rd (c.reg E rd) := by
  refine .nil ?_
  rw [Function.update_eq_self]
  exact .refl E c

theorem sets_neg (rd : Reg) : Sets mmu junk E [.neg .qword (E.opnd rd)] c rd (-c.reg E rd) :=
  ((setsLow_neg (.inr rfl) rd).sets).of_eq (congrArg Neg.neg (setWidth_qword _))

/-- An operation in `rax`. -/
theorem sets_in_rax {code : List ArithIns} {v : BitVec 64} (hs : Wide s) (op : Arith) (rs : Reg)
    (src : Operand)
    (h : ∀ c' : Cpu σ, c'.gpr rax = (op.eval ((c.reg E rs).setWidth s.bits)
        (value mmu (c.setGpr rax (cut s (c.reg E rs))) s src)).setWidth 64 →
      Sets mmu junk E code c' rd v) :
    Sets mmu junk E (mov s (.reg rax) (E.opnd rs) :: .arith op s (.reg rax) src :: code) c rd v := by
  refine Sets.via_rax (Sets.via_rax (h _ (Cpu.setGpr_self ..)) fun f => ⟨none, ?_⟩)
    fun f => ⟨f, run_mov_reg_opnd _ hs rax rs⟩
  rw [run_arith_reg code hs, Cpu.setGpr_self, cut_setWidth]

theorem sets_binary {op : Arith} {turned : List ArithIns} (back : BitVec 64 → BitVec 64)
    {dec : Operands} (hrd : dec.rd ≠ rv_ireg_x0)
    (hrs2 : dec.rs2 ≠ rv_ireg_x0) (hback : ∀ x y : BitVec 64, back (op.eval y x) = op.eval x y)
    (hturned : ∀ c' : Cpu σ, Sets mmu junk E turned c' dec.rd (back (c'.reg E dec.rd))) :
    Sets mmu junk E (E.emitBinary op turned dec) c dec.rd
      (op.eval (c.reg E dec.rs1) (c.reg E dec.rs2)) := by
  have hinto : ∀ rd rs, SetsLow mmu junk E .qword (E.emitInto op .qword rd rs) c rd
      (op.eval (c.reg E rd) (c.reg E rs)) := fun rd rs =>
    (setsLow_into (.inr rfl) op rd rs).of_eq (congrArg₂ op.eval (setWidth_qword _)
      (setWidth_qword _))
  rw [emitBinary]
  by_cases h1 : dec.rd = dec.rs1
  · rw [if_pos h1, ← h1]
    exact (hinto dec.rd dec.rs2).sets
  rw [if_neg h1]
  by_cases h2 : dec.rd = dec.rs2
  · rw [if_pos h2, ← h2]
    refine (hinto dec.rd dec.rs1).append_sets fun c' _ hc' => (hturned c').of_eq ?_
    rw [← hback]
    exact congrArg back ((setWidth_qword _).symm.trans hc')
  rw [if_neg h2]
  by_cases hmem : E.x86_reg dec.rd < 0 ∧ (E.x86_reg dec.rs1 < 0 ∨ E.x86_reg dec.rs2 < 0)
  · rw [if_pos hmem]
    refine sets_in_rax (.inr rfl) op dec.rs1 _ fun c' hc' => ?_
    refine (sets_rax ((stored_iff hrd).1 hmem.1)).of_eq ?_
    rw [hc', value_opnd, reg_setGpr_rax]
    simp [Size.bits]
  rw [if_neg hmem]
  refine (setsLow_mv (.inr rfl) dec.rd dec.rs1).append_sets fun c' hreg hc' => ?_
  have harith : ∀ src, value mmu c' .qword src = c.reg E dec.rs2 →
      Sets mmu junk E [.arith op .qword (E.opnd dec.rd) src] c' dec.rd
        (op.eval (c.reg E dec.rs1) (c.reg E dec.rs2)) := fun src hsrc =>
    ((setsLow_arith (.inr rfl) op dec.rd src).of_eq
      (congrArg₂ op.eval (hc'.trans (setWidth_qword _)) hsrc)).sets
  have hrs : value mmu c' .qword (E.opnd dec.rs2) = c.reg E dec.rs2 := by
    rw [value_opnd, reg_of_update hreg (Ne.symm h2)]
    exact setWidth_qword _
  by_cases h : 0 < E.x86_reg dec.rd
  · rw [if_pos h, opnd_hosted h]
    exact harith _ hrs
  · have hhost : 0 < E.x86_reg dec.rs2 := by
      by_contra hno
      exact hmem ⟨(stored_iff hrd).2 h, .inr ((stored_iff hrs2).2 hno)⟩
    rw [if_neg h, opnd_stored h, opnd_hosted hhost]
    exact harith _ hrs

/-- A difference taken the other way round. -/
theorem neg_turned {w : ℕ} (x y : BitVec w) : -Arith.eval .sub y x = Arith.eval .sub x y := by
  show -(y - x) = x - y
  rw [BitVec.neg_sub, BitVec.add_comm, BitVec.sub_eq_add_neg]

section
variable {dec : Operands} (hx0 : c.reg E rv_ireg_x0 = 0) (hrd : dec.rd ≠ rv_ireg_x0)
include hx0 hrd

theorem sets_add : Sets mmu junk E (E.emit_add dec) c dec.rd
    (c.reg E dec.rs1 + c.reg E dec.rs2) := by
  rw [emit_add, if_neg hrd]
  by_cases h1 : dec.rs1 = rv_ireg_x0
  · rw [if_pos h1, h1, hx0]
    exact (sets_mv dec.rd dec.rs2).of_eq (BitVec.zero_add _).symm
  rw [if_neg h1]
  by_cases h2 : dec.rs2 = rv_ireg_x0
  · rw [if_pos h2, h2, hx0]
    exact (sets_mv dec.rd dec.rs1).of_eq (BitVec.add_zero _).symm
  rw [if_neg h2]
  exact sets_binary id hrd h2 (fun x y => BitVec.add_comm y x) fun c' => sets_skip dec.rd

theorem sets_sub : Sets mmu junk E (E.emit_sub dec) c dec.rd
    (c.reg E dec.rs1 - c.reg E dec.rs2) := by
  rw [emit_sub, if_neg hrd]
  by_cases h1 : dec.rs1 = rv_ireg_x0
  · rw [if_pos h1, h1, hx0]
    refine (setsLow_mv (.inr rfl) dec.rd dec.rs2).append_sets fun c' _ hc' => ?_
    refine (sets_neg dec.rd).of_eq ?_
    rw [setWidth_qword, setWidth_qword] at hc'
    rw [hc']
    exact (BitVec.zero_sub _).symm
  rw [if_neg h1]
  by_cases h2 : dec.rs2 = rv_ireg_x0
  · rw [if_pos h2, h2, hx0]
    exact (sets_mv dec.rd dec.rs1).of_eq (BitVec.sub_zero _).symm
  rw [if_neg h2]
  exact sets_binary Neg.neg hrd h2 neg_turned fun c' => sets_neg dec.rd

theorem sets_and : Sets mmu junk E (E.emit_and dec) c dec.rd
    (c.reg E dec.rs1 &&& c.reg E dec.rs2) := by
  rw [emit_and, if_neg hrd]
  by_cases h : dec.rs1 = rv_ireg_x0 ∨ dec.rs2 = rv_ireg_x0
  · rw [if_pos h]
    refine (sets_zero dec).of_eq ?_
    rcases h with h | h
    · rw [h, hx0]
      exact BitVec.zero_and.symm
    · rw [h, hx0]
      exact BitVec.and_zero.symm
  rw [if_neg h]
  exact sets_binary id hrd (fun h2 => h (.inr h2)) (fun x y => BitVec.and_comm y x)
    fun c' => sets_skip dec.rd

theorem sets_union (op : Arith) (hcomm : ∀ x y : BitVec 64, op.eval y x = op.eval x y)
    (hzero : ∀ x : BitVec 64, op.eval x 0 = x) :
    Sets mmu junk E (E.emitUnion op dec) c dec.rd
      (op.eval (c.reg E dec.rs1) (c.reg E dec.rs2)) := by
  rw [emitUnion, if_neg hrd]
  by_cases h : dec.rs1 = rv_ireg_x0 ∧ dec.rs2 = rv_ireg_x0
  · rw [if_pos h, h.1, h.2, hx0]
    exact (sets_zero dec).of_eq (hzero 0).symm
  rw [if_neg h]
  by_cases h1 : dec.rs1 = rv_ireg_x0
  · rw [if_pos h1, h1, hx0]
    exact (sets_mv dec.rd dec.rs2).of_eq ((hzero _).symm.trans (hcomm _ _))
  rw [if_neg h1]
  by_cases h2 : dec.rs2 = rv_ireg_x0
  · rw [if_pos h2, h2, hx0]
    exact (sets_mv dec.rd dec.rs1).of_eq (hzero _).symm
  rw [if_neg h2]
  exact sets_binary id hrd h2 hcomm fun c' => sets_skip dec.rd

end

/-! ### Word operations -/

/-- The lower half of a register, extended with its sign. -/
theorem SetsLow.sx_32 {code : List ArithIns} {dec : Operands} {u : BitVec 32}
    (h : SetsLow mmu junk E .dword code c dec.rd u) :
    Sets mmu junk E (code ++ E.emit_sx_32_rd dec) c dec.rd (sx u) :=
  h.append_sets fun _ _ hc' => (sets_sx_32 dec).of_eq (congrArg sx hc')

/-- A register that is left alone. -/
theorem setsLow_skip (rd : Reg) (s : Size) :
    SetsLow mmu junk E s [] c rd ((c.reg E rd).setWidth s.bits) := by
  refine .nil ⟨c.reg E rd, rfl, ?_⟩
  rw [Function.update_eq_self]
  exact .refl E c

theorem sets_binaryW {op : Arith} {turned : List ArithIns} (back : BitVec 32 → BitVec 32)
    {dec : Operands} (hrd : dec.rd ≠ rv_ireg_x0)
    (hback : ∀ x y : BitVec 32, back (op.eval y x) = op.eval x y)
    (hturned : ∀ c' : Cpu σ,
      SetsLow mmu junk E .dword turned c' dec.rd (back (word32 (c'.reg E dec.rd)))) :
    Sets mmu junk E (E.emitBinaryW op turned dec) c dec.rd
      (sx (op.eval (word32 (c.reg E dec.rs1)) (word32 (c.reg E dec.rs2)))) := by
  rw [emitBinaryW]
  by_cases h1 : dec.rd = dec.rs1
  · rw [if_pos h1, ← h1]
    exact (setsLow_into (.inl rfl) op dec.rd dec.rs2).sx_32
  rw [if_neg h1]
  by_cases h2 : dec.rd = dec.rs2
  · rw [if_pos h2, ← h2, List.append_assoc]
    refine (setsLow_into (.inl rfl) op dec.rd dec.rs1).append_sets fun c' _ hc' => ?_
    refine (hturned c').sx_32.of_eq (congrArg sx ?_)
    rw [← hback]
    exact congrArg back hc'
  rw [if_neg h2]
  by_cases h : E.x86_reg dec.rd < 0
  · rw [if_pos h]
    refine sets_in_rax (.inl rfl) op dec.rs1 _ fun c' hc' => ?_
    refine (sets_eax ((stored_iff hrd).1 h)).of_eq ?_
    rw [hc', value_opnd, reg_setGpr_rax]
    exact congrArg sx (setWidth_up (s := .dword) _)
  rw [if_neg h]
  refine (setsLow_mv (.inr rfl) dec.rd dec.rs1).append_sets fun c' hreg hc' => ?_
  have hhost : 0 < E.x86_reg dec.rd := by
    by_contra hno
    exact h ((stored_iff hrd).2 hno)
  rw [opnd_hosted hhost]
  refine (setsLow_arith (.inl rfl) op dec.rd _).sx_32.of_eq (congrArg sx ?_)
  rw [value_opnd, reg_of_update hreg (Ne.symm h2)]
  rw [setWidth_qword, setWidth_qword] at hc'
  rw [hc']
  rfl

/-- An `addw` that takes a word of 64 bits for the lower half of `rs2`. -/
def AddwWhole (E : EmitterRv64) (dec : Operands) : Prop :=
  dec.rs1 = rv_ireg_x0 ∧ dec.rs2 ≠ rv_ireg_x0 ∧ 0 < E.x86_reg dec.rd ∧ ¬ 0 < E.x86_reg dec.rs2

section
variable {dec : Operands} (hx0 : c.reg E rv_ireg_x0 = 0)
include hx0

theorem sets_mv_rd_rs2_sx_32 (h : dec.rs2 = rv_ireg_x0 ∨ ¬ 0 < E.x86_reg dec.rd ∨
      0 < E.x86_reg dec.rs2) :
    Sets mmu junk E (E.emit_mv_rd_rs2_sx_32 dec) c dec.rd (sx (word32 (c.reg E dec.rs2))) := by
  rw [emit_mv_rd_rs2_sx_32]
  by_cases hhost : 0 < E.x86_reg dec.rd
  · rw [if_pos hhost]
    by_cases hrs : 0 < E.x86_reg dec.rs2
    · rw [if_pos hrs, opnd_hosted hrs]
      refine sets_setReg (fun f => ⟨f, ?_⟩) (.refl E c)
      rw [run_movsxd_opnd, Cpu.setReg, if_pos hhost, run_nil]
    · rw [if_neg hrs, opnd_stored hrs]
      obtain h | h | h := h
      · refine sets_setReg (fun f => ⟨f, ?_⟩) (.refl E c)
        rw [run_mov_reg_opnd _ (.inr rfl), Cpu.setReg, if_pos hhost, run_nil, h, hx0]
        rfl
      · exact absurd hhost h
      · exact absurd h hrs
  · rw [if_neg hhost, opnd_stored hhost]
    refine sets_setReg (fun f => ⟨f, ?_⟩) (becomes_rax c (sx (word32 (c.reg E dec.rs2))))
    rw [run_movsxd_opnd, run_mov_opnd_reg, Cpu.setGpr_self, run_nil]

variable (hrd : dec.rd ≠ rv_ireg_x0)
include hrd

theorem sets_addw (h : ¬ AddwWhole E dec) : Sets mmu junk E (E.emit_addw dec) c dec.rd
    (sx (word32 (c.reg E dec.rs1) + word32 (c.reg E dec.rs2))) := by
  rw [emit_addw, if_neg hrd]
  by_cases h1 : dec.rs1 = rv_ireg_x0
  · rw [if_pos h1]
    refine (sets_mv_rd_rs2_sx_32 hx0 ?_).of_eq (congrArg sx ?_)
    · by_contra hno
      push Not at hno
      exact h ⟨h1, hno.1, hno.2.1, Int.not_lt.2 hno.2.2⟩
    · rw [h1, hx0]
      exact (BitVec.zero_add _).symm
  rw [if_neg h1]
  by_cases h2 : dec.rs2 = rv_ireg_x0
  · rw [if_pos h2, h2, hx0]
    exact (sets_mv_sx_32 dec).of_eq (congrArg sx (BitVec.add_zero _).symm)
  rw [if_neg h2]
  exact sets_binaryW id hrd (fun x y => BitVec.add_comm y x) fun c' => setsLow_skip dec.rd .dword

theorem sets_subw : Sets mmu junk E (E.emit_subw dec) c dec.rd
    (sx (word32 (c.reg E dec.rs1) - word32 (c.reg E dec.rs2))) := by
  rw [emit_subw, if_neg hrd]
  by_cases h1 : dec.rs1 = rv_ireg_x0
  · rw [if_pos h1, h1, hx0]
    have hcopy : SetsLow mmu junk E .qword
        (if dec.rd = dec.rs2 then [] else E.emit_mv_rd_rs2 dec) c dec.rd (c.reg E dec.rs2) := by
      by_cases h : dec.rd = dec.rs2
      · rw [if_pos h, ← h]
        exact (setsLow_skip dec.rd .qword).of_eq (setWidth_qword _)
      · rw [if_neg h]
        exact (setsLow_mv (.inr rfl) dec.rd dec.rs2).of_eq (setWidth_qword _)
    refine hcopy.append_sets fun c' _ hc' => ?_
    refine (setsLow_neg (.inl rfl) dec.rd).sx_32.of_eq (congrArg sx ?_)
    rw [← (setWidth_qword _).symm.trans hc']
    exact (BitVec.zero_sub _).symm
  rw [if_neg h1]
  by_cases h2 : dec.rs2 = rv_ireg_x0
  · rw [if_pos h2, h2, hx0]
    exact (sets_mv_sx_32 dec).of_eq (congrArg sx (BitVec.sub_zero _).symm)
  rw [if_neg h2]
  exact sets_binaryW Neg.neg hrd neg_turned fun c' => setsLow_neg (.inl rfl) dec.rd

end

/-! ### Multiplication -/

/-- `res` is what is made of the product. -/
theorem sets_mul_of {fromRax after : List ArithIns} {dec : Operands}
    (res : BitVec s.bits → BitVec 64) (hs : Wide s) (hx0 : c.reg E rv_ireg_x0 = 0)
    (hrd : dec.rd ≠ rv_ireg_x0) (hres : res 0 = 0)
    (hfrom : ∀ c' : Cpu σ, ¬ 0 < E.x86_reg dec.rd →
      Sets mmu junk E fromRax c' dec.rd (res ((c'.gpr rax).setWidth s.bits)))
    (hafter : ∀ c' : Cpu σ,
      Sets mmu junk E after c' dec.rd (res ((c'.reg E dec.rd).setWidth s.bits))) :
    Sets mmu junk E (E.emitMul s fromRax after dec) c dec.rd
      (res ((c.reg E dec.rs1).setWidth s.bits * (c.reg E dec.rs2).setWidth s.bits)) := by
  have hin : ∀ (c' : Cpu σ) (src : Operand), Sets mmu junk E
      (.arith .imul s (E.opnd dec.rd) src :: after) c' dec.rd
      (res ((c'.reg E dec.rd).setWidth s.bits * value mmu c' s src)) := fun c' src =>
    (setsLow_arith hs .imul dec.rd src).append_sets fun c'' _ hc'' =>
      (hafter c'').of_eq (congrArg res hc'')
  rw [emitMul, if_neg hrd]
  by_cases h : dec.rs1 = rv_ireg_x0 ∨ dec.rs2 = rv_ireg_x0
  · rw [if_pos h]
    have hzero : (0 : BitVec 64).setWidth s.bits = 0 := BitVec.setWidth_zero ..
    refine (sets_zero dec).of_eq (hres.symm.trans (congrArg res ?_))
    rcases h with h | h
    · rw [h, hx0, hzero]
      exact BitVec.zero_mul.symm
    · rw [h, hx0, hzero]
      exact BitVec.mul_zero.symm
  rw [if_neg h]
  by_cases h1 : dec.rd = dec.rs1 ∧ 0 < E.x86_reg dec.rd
  · rw [if_pos h1, opnd_hosted h1.2]
    refine (hin c (E.opnd dec.rs2)).of_eq ?_
    rw [value_opnd, h1.1]
  rw [if_neg h1]
  by_cases h2 : dec.rd = dec.rs2 ∧ 0 < E.x86_reg dec.rd
  · rw [if_pos h2, opnd_hosted h2.2]
    refine (hin c (E.opnd dec.rs1)).of_eq ?_
    rw [value_opnd, h2.1, BitVec.mul_comm]
  rw [if_neg h2]
  by_cases hmem : E.x86_reg dec.rd < 0
  · rw [if_pos hmem]
    refine sets_in_rax hs .imul dec.rs1 _ fun c' hc' => ?_
    refine (hfrom c' ((stored_iff hrd).1 hmem)).of_eq ?_
    rw [hc', setWidth_up, value_opnd, reg_setGpr_rax]
    rfl
  rw [if_neg hmem]
  have hhost : 0 < E.x86_reg dec.rd := by
    by_contra hno
    exact hmem ((stored_iff hrd).2 hno)
  refine (setsLow_mv (.inr rfl) dec.rd dec.rs1).append_sets fun c' hreg hc' => ?_
  rw [opnd_hosted hhost]
  refine (hin c' (E.opnd dec.rs2)).of_eq (congrArg res ?_)
  rw [setWidth_qword, setWidth_qword] at hc'
  rw [value_opnd, reg_of_update hreg fun he => h2 ⟨he.symm, hhost⟩, hc']

section
variable {dec : Operands} (hx0 : c.reg E rv_ireg_x0 = 0) (hrd : dec.rd ≠ rv_ireg_x0)
include hx0 hrd

theorem sets_mul : Sets mmu junk E (E.emit_mul dec) c dec.rd
    (c.reg E dec.rs1 * c.reg E dec.rs2) := by
  refine (sets_mul_of (s := .qword) id (.inr rfl) hx0 hrd rfl (fun c' hmem => ?_) fun c' => ?_).of_eq
    (congrArg₂ (· * ·) (setWidth_qword _) (setWidth_qword _))
  · exact (sets_rax hmem).of_eq (setWidth_qword _).symm
  · exact (sets_skip dec.rd).of_eq (setWidth_qword _).symm

theorem sets_mulw : Sets mmu junk E (E.emit_mulw dec) c dec.rd
    (sx (word32 (c.reg E dec.rs1) * word32 (c.reg E dec.rs2))) := by
  refine sets_mul_of (s := .dword) sx (.inl rfl) hx0 hrd rfl (fun c' hmem => ?_) fun c' =>
    sets_sx_32 dec
  rw [opnd_stored hmem]
  exact ((setsLow_mov (.inl rfl) dec.rd (.inl ⟨rax, rfl⟩)).of_eq (value_reg c' .dword rax)).sx_32

end

/-! ## Shifts -/

/-- Code that leaves a value in `rcx` first. -/
theorem Sets.via_rcx {code code' : List ArithIns} {u v : BitVec 64}
    (h : Sets mmu junk E code (c.setGpr rcx u) rd v)
    (hrun : ∀ f, ∃ f', run mmu junk code' ⟨c, f, .run⟩ =
      run mmu junk code ⟨c.setGpr rcx u, f', .run⟩) : Sets mmu junk E code' c rd v := by
  intro f
  obtain ⟨f', hstep⟩ := hrun f
  obtain ⟨c', f'', hcode, hbecomes⟩ := h f'
  rw [reg_setGpr_rcx] at hbecomes
  exact ⟨c', f'', hstep.trans hcode, (becomes_rcx c u).trans hbecomes⟩

/-- A copy into a register of the host leaves the others. -/
theorem run_mv_hosted (hs : Wide s) (h : 0 < E.x86_reg rd) (hne : rd ≠ rs)
    (code : List ArithIns) (f : Option Flags) :
    run mmu junk (E.emitMv s rd rs ++ code) ⟨c, f, .run⟩ =
      run mmu junk code ⟨c.setReg E rd (cut s (c.reg E rs)), f, .run⟩ := by
  rw [emitMv, if_neg hne, if_pos h]
  show run mmu junk (mov s (.reg (E.gp rd)) (E.opnd rs) :: code) ⟨c, f, .run⟩ = _
  rw [run_mov_reg_opnd code hs, Cpu.setReg, if_pos h]

theorem cut_mod (hs : Wide s) (v : BitVec 64) :
    (cut .dword v).toNat % s.bits = (v.setWidth s.bits).toNat % s.bits := by
  rw [cut, BitVec.toNat_setWidth, BitVec.toNat_setWidth, BitVec.toNat_setWidth]
  rcases hs with rfl | rfl
  · simp only [Size.bits]
    omega
  · simp only [Size.bits]
    omega

/-- A shift in `rax`. -/
theorem sets_shift_rax {code : List ArithIns} {v : BitVec 64} (hs : Wide s) (op : ShiftOp) (rs : Reg)
    (n : Amount)
    (h : ∀ c' : Cpu σ,
      c'.gpr rax = (op.eval ((c.reg E rs).setWidth s.bits) (amount c s n)).setWidth 64 →
      Sets mmu junk E code c' rd v) :
    Sets mmu junk E (mov s (.reg rax) (E.opnd rs) :: .shift op s (.reg rax) n :: code) c rd v := by
  have hamount : ∀ u : BitVec 64, amount (c.setGpr rax u) s n = amount c s n := by
    intro u
    cases n with
    | imm n => rfl
    | cl => rw [amount, amount, Cpu.setGpr_of_ne _ (by decide)]
  refine Sets.via_rax (Sets.via_rax (h _ (Cpu.setGpr_self ..)) fun f => ⟨none, ?_⟩)
    fun f => ⟨f, run_mov_reg_opnd _ hs rax rs⟩
  rw [run_shift_reg code hs, Cpu.setGpr_self, cut_setWidth, hamount]

/-- The shifts by a register: `viaRax` is what is done in `rax` after it, and `after` what is done in
place, `res` being what is made of the result. -/
theorem sets_shift_of {op : ShiftOp} {dec : Operands} {viaRax after : List ArithIns}
    (res : BitVec s.bits → BitVec 64) (hs : Wide s) (hrd : dec.rd ≠ rv_ireg_x0)
    (hfrom : ∀ c' : Cpu σ, ¬ 0 < E.x86_reg dec.rd →
      Sets mmu junk E viaRax c' dec.rd (res ((c'.gpr rax).setWidth s.bits)))
    (hafter : ∀ c' : Cpu σ,
      Sets mmu junk E after c' dec.rd (res ((c'.reg E dec.rd).setWidth s.bits))) :
    Sets mmu junk E
      (if dec.rd = dec.rs1 then
        E.emit_mv_cl_rs2 dec ++ .shift op s (E.opnd dec.rd) .cl :: after
      else if E.x86_reg dec.rd < 0 then
        E.emit_mv_cl_rs2 dec ++ E.emitMvRax s dec ++ .shift op s (.reg rax) .cl :: viaRax
      else
        E.emit_mv_cl_rs2 dec ++ E.emitMv s dec.rd dec.rs1 ++
          .shift op s (.reg (E.gp dec.rd)) .cl :: after) c dec.rd
      (res (op.eval ((c.reg E dec.rs1).setWidth s.bits)
        (((c.reg E dec.rs2).setWidth s.bits).toNat % s.bits))) := by
  have hin : ∀ c' : Cpu σ, Sets mmu junk E (.shift op s (E.opnd dec.rd) .cl :: after) c' dec.rd
      (res (op.eval ((c'.reg E dec.rd).setWidth s.bits) ((c'.gpr rcx).toNat % s.bits))) := fun c' =>
    (setsLow_shift hs op dec.rd .cl).append_sets fun c'' _ hc'' =>
      (hafter c'').of_eq (congrArg res hc'')
  have hcl : ∀ {code : List ArithIns} {v : BitVec 64},
      Sets mmu junk E code (c.setGpr rcx (cut .dword (c.reg E dec.rs2))) dec.rd v →
      Sets mmu junk E (E.emit_mv_cl_rs2 dec ++ code) c dec.rd v := fun h =>
    h.via_rcx fun f => ⟨f, run_mov_reg_opnd _ (.inl rfl) rcx dec.rs2⟩
  by_cases h1 : dec.rd = dec.rs1
  · rw [if_pos h1]
    refine hcl ((hin _).of_eq ?_)
    rw [reg_setGpr_rcx, Cpu.setGpr_self, cut_mod hs, h1]
  rw [if_neg h1]
  by_cases h : E.x86_reg dec.rd < 0
  · rw [if_pos h, List.append_assoc]
    refine hcl (sets_shift_rax hs op dec.rs1 .cl fun c' hc' => ?_)
    refine (hfrom c' ((stored_iff hrd).1 h)).of_eq (congrArg res ?_)
    rw [hc', setWidth_up, reg_setGpr_rcx, amount, Cpu.setGpr_self, cut_mod hs]
  rw [if_neg h, List.append_assoc]
  have hhost : 0 < E.x86_reg dec.rd := by
    by_contra hno
    exact h ((stored_iff hrd).2 hno)
  rw [opnd_hosted hhost]
  refine hcl fun f => ?_
  rw [run_mv_hosted hs hhost h1]
  obtain ⟨c', f', hrun, hbecomes⟩ := hin _ f
  refine ⟨c', f', hrun, ((becomes_setReg _ _ _).trans hbecomes).of_eq ?_⟩
  rw [reg_setReg, Function.update_idem, Function.update_self, gpr_setReg_rcx, Cpu.setGpr_self,
    cut_mod hs, reg_setGpr_rcx, cut_setWidth]

theorem ShiftOp.eval_zero {w : ℕ} {op : ShiftOp} (h : op ≠ .ror) (n : ℕ) :
    op.eval (0 : BitVec w) n = 0 := by
  cases op with
  | shl => exact BitVec.zero_shiftLeft n
  | shr => exact BitVec.zero_ushiftRight
  | sar => exact BitVec.zero_sshiftRight
  | ror => exact absurd rfl h

theorem ShiftOp.eval_by_zero {w : ℕ} {op : ShiftOp} (h : op ≠ .ror) (x : BitVec w) :
    op.eval x 0 = x := by
  cases op with
  | shl => exact BitVec.shiftLeft_zero x
  | shr => exact BitVec.ushiftRight_zero x
  | sar => exact BitVec.sshiftRight_zero
  | ror => exact absurd rfl h

section
variable {op : ShiftOp} {dec : Operands} (hop : op ≠ .ror) (hx0 : c.reg E rv_ireg_x0 = 0)
  (hrd : dec.rd ≠ rv_ireg_x0)
include hop hx0 hrd

theorem sets_shift : Sets mmu junk E (E.emitShift op dec) c dec.rd
    (op.eval (c.reg E dec.rs1) ((c.reg E dec.rs2).toNat % 64)) := by
  rw [emitShift, if_neg hrd]
  by_cases h1 : dec.rs1 = rv_ireg_x0
  · rw [if_pos h1, h1, hx0]
    exact (sets_zero dec).of_eq (ShiftOp.eval_zero hop _).symm
  rw [if_neg h1]
  by_cases h2 : dec.rs2 = 0
  · rw [if_pos h2, h2, show c.reg E 0 = 0 from hx0]
    exact (sets_mv dec.rd dec.rs1).of_eq (ShiftOp.eval_by_zero hop _).symm
  rw [if_neg h2]
  refine (sets_shift_of (s := .qword) id (.inr rfl) hrd (fun c' hmem => ?_) fun c' => ?_).of_eq ?_
  · exact (sets_rax hmem).of_eq (setWidth_qword _).symm
  · exact (sets_skip dec.rd).of_eq (setWidth_qword _).symm
  · rw [setWidth_qword, setWidth_qword]
    rfl

theorem sets_shiftW : Sets mmu junk E (E.emitShiftW op dec) c dec.rd
    (sx (op.eval (word32 (c.reg E dec.rs1)) ((word32 (c.reg E dec.rs2)).toNat % 32))) := by
  rw [emitShiftW, if_neg hrd]
  by_cases h1 : dec.rs1 = rv_ireg_x0
  · rw [if_pos h1, h1, hx0]
    exact (sets_zero dec).of_eq (congrArg sx (ShiftOp.eval_zero hop _).symm)
  rw [if_neg h1]
  by_cases h2 : dec.rs2 = 0
  · rw [if_pos h2, h2, show c.reg E 0 = 0 from hx0]
    exact (sets_mv_sx_32 dec).of_eq (congrArg sx (ShiftOp.eval_by_zero hop _).symm)
  rw [if_neg h2]
  exact sets_shift_of (s := .dword) sx (.inl rfl) hrd (fun c' hmem => sets_eax hmem) fun c' =>
    sets_sx_32 dec

end

/-! ## Comparison -/

theorem holds_e {w : ℕ} (x y : BitVec w) : Cond.e.holds (cmpFlags x y) = decide (x = y) := by
  show (x - y == 0) = decide (x = y)
  rw [Bool.eq_iff_iff, beq_iff_eq, decide_eq_true_iff]
  constructor
  · intro h
    rw [← BitVec.sub_add_cancel x y, h]
    exact BitVec.zero_add y
  · rintro rfl
    exact BitVec.sub_self x

theorem holds_b {w : ℕ} (x y : BitVec w) : Cond.b.holds (cmpFlags x y) = x.ult y := rfl

/-- A difference as a number, which may leave the range by one turn. -/
theorem toInt_sub_cases (x y : BitVec 64) : (x - y).toInt = x.toInt - y.toInt ∨
    (x - y).toInt = x.toInt - y.toInt - 2 ^ 64 ∧ 2 ^ 63 ≤ x.toInt - y.toInt ∨
    (x - y).toInt = x.toInt - y.toInt + 2 ^ 64 ∧ x.toInt - y.toInt < -2 ^ 63 := by
  have hx := x.toInt_lt
  have hx' := x.le_toInt
  have hy := y.toInt_lt
  have hy' := y.le_toInt
  rw [BitVec.toInt_sub, Int.bmod_def]
  split <;> omega

theorem holds_l (x y : BitVec 64) : Cond.l.holds (cmpFlags x y) = x.slt y := by
  have hd := toInt_sub_cases x y
  have hd' := (x - y).toInt_lt
  have hd'' := (x - y).le_toInt
  have hx := x.toInt_lt
  have hx' := x.le_toInt
  have hy := y.toInt_lt
  have hy' := y.le_toInt
  show ((x - y).msb != (x.msb != y.msb && x.msb != (x - y).msb)) = decide (x.toInt < y.toInt)
  rw [BitVec.msb_eq_toInt, BitVec.msb_eq_toInt, BitVec.msb_eq_toInt]
  by_cases hxneg : x.toInt < 0 <;> by_cases hyneg : y.toInt < 0 <;>
    by_cases hneg : (x - y).toInt < 0 <;> by_cases hlt : x.toInt < y.toInt <;>
    simp only [hxneg, hyneg, hneg, hlt, decide_true, decide_false] <;> first | rfl | omega

/-- A flag in a register. -/
theorem run_flag (cond : Cond) (dec : Operands) (fl : Flags) :
    ∃ c' f', run mmu junk (E.emitFlag cond dec) ⟨c, some fl, .run⟩ = ⟨c', f', .run⟩ ∧
      Becomes E c c' (Function.update (c.reg E) dec.rd (flag (cond.holds fl))) := by
  have hset : ∃ u : BitVec 64, put mmu c .byte (.reg rax) (if cond.holds fl then 1 else 0) =
      c.setGpr rax u ∧ u.setWidth 8 = if cond.holds fl then 1 else 0 := by
    refine ⟨_, rfl, ?_⟩
    dsimp only
    rw [join_setWidth _ _ (by decide)]
    cases cond.holds fl <;> rfl
  obtain ⟨u, hput, hu⟩ := hset
  have hzx : ∀ dst : Gpr, (c.setGpr rax u).exec mmu junk (.movzx .byte dst (.reg rax)) =
      (c.setGpr rax u).setGpr dst (flag (cond.holds fl)) := by
    intro dst
    show (c.setGpr rax u).setGpr dst ((((((c.setGpr rax u).gpr rax).setWidth 8).setWidth
      64).setWidth 32).setWidth 64) = _
    rw [Cpu.setGpr_self, hu]
    cases cond.holds fl <;> rfl
  rw [emitFlag, run_cons, exec]
  rw [hput]
  by_cases h : 0 < E.x86_reg dec.rd
  · rw [if_pos h, run_cons, exec, hzx, run_nil]
    refine ⟨_, _, rfl, (becomes_rax c u).trans ?_⟩
    have hreg := becomes_setReg (E := E) (c.setGpr rax u) dec.rd (flag (cond.holds fl))
    rw [Cpu.setReg, if_pos h, reg_setGpr_rax] at hreg
    exact hreg
  · rw [if_neg h, run_cons, exec, hzx, emitRax, opnd_stored h, run_mov_opnd_reg, Cpu.setGpr_self,
      run_nil]
    refine ⟨_, _, rfl, ((becomes_rax c u).trans (becomes_rax _ _)).trans
      ((becomes_setReg _ _ _).of_eq ?_)⟩
    rw [reg_setGpr_rax, reg_setGpr_rax]

/-- The comparison of two operands, put into a register. -/
theorem sets_cmp (cond : Cond) (dec : Operands) (x y : Operand) :
    Sets mmu junk E (.cmp .qword x y :: E.emitFlag cond dec) c dec.rd
      (flag (cond.holds (cmpFlags (value mmu c .qword x) (value mmu c .qword y)))) := by
  intro f
  rw [run_cons, exec]
  exact run_flag cond dec _

section
variable {dec : Operands} (hx0 : c.reg E rv_ireg_x0 = 0) (hrd : dec.rd ≠ rv_ireg_x0)
include hx0 hrd

theorem sets_slt_of (cond : Cond) : Sets mmu junk E (E.emitSlt cond dec) c dec.rd
    (flag (cond.holds (cmpFlags (c.reg E dec.rs1) (c.reg E dec.rs2)))) := by
  rw [emitSlt, if_neg hrd]
  by_cases h : 0 < E.x86_reg dec.rs1 ∧ 0 < E.x86_reg dec.rs2
  · rw [if_pos h, opnd_hosted h.1, opnd_hosted h.2]
    refine (sets_cmp cond dec _ _).of_eq ?_
    rw [value_opnd, value_opnd, setWidth_qword, setWidth_qword]
    rfl
  rw [if_neg h]
  have hrax : ∀ f, ∃ f', run mmu junk
      ((if dec.rs1 = rv_ireg_x0 then .arith .xor .dword (.reg rax) (.reg rax)
        else mov .qword (.reg rax) (E.opnd dec.rs1)) ::
        .cmp .qword (.reg rax) (if dec.rs2 = rv_ireg_x0 then .imm 0 else E.opnd dec.rs2) ::
          E.emitFlag cond dec) ⟨c, f, .run⟩ =
      run mmu junk
        (.cmp .qword (.reg rax) (if dec.rs2 = rv_ireg_x0 then .imm 0 else E.opnd dec.rs2) ::
          E.emitFlag cond dec) ⟨c.setGpr rax (c.reg E dec.rs1), f', .run⟩ := by
    intro f
    by_cases h1 : dec.rs1 = rv_ireg_x0
    · refine ⟨none, ?_⟩
      rw [if_pos h1, run_xor_self _ (.inl rfl), h1, hx0]
    · refine ⟨f, ?_⟩
      rw [if_neg h1, run_mov_reg_opnd _ (.inr rfl), cut_qword]
  refine ((sets_cmp cond dec _ _).of_eq ?_).via_rax hrax
  rw [value_reg, Cpu.setGpr_self, setWidth_qword]
  by_cases h2 : dec.rs2 = rv_ireg_x0
  · rw [if_pos h2, value_imm, h2, hx0]
    rfl
  · rw [if_neg h2, value_opnd, reg_setGpr_rax, setWidth_qword]
    rfl

end

/-! ## Operations with an immediate -/

theorem sx_low (v : BitVec 32) : (v.signExtend 64).setWidth 32 = v :=
  BitVec.eq_of_getLsbD_eq fun i hi => by
    rw [BitVec.getLsbD_setWidth, BitVec.getLsbD_signExtend, if_pos hi]
    simp [hi, Nat.lt_trans hi (by decide : 32 < 64)]

theorem Operands.disp_sx (dec : Operands) : (dec.disp.setWidth 32).signExtend 64 = dec.disp := by
  rw [Operands.disp, sx_low]

/-- A number that is loaded whole. -/
theorem sets_disp (dec : Operands) (rd : Reg) :
    Sets mmu junk E [mov .qword (E.opnd rd) (.imm dec.disp)] c rd dec.disp := sets_imm rd dec.disp_sx

theorem Operands.disp_low (dec : Operands) : dec.disp.setWidth 32 = dec.imm := sx_low dec.imm

theorem Operands.disp_zero {dec : Operands} (h : dec.imm = 0) : dec.disp = 0 := by
  rw [Operands.disp, h]
  rfl

section
variable {dec : Operands} (hx0 : c.reg E rv_ireg_x0 = 0) (hrd : dec.rd ≠ rv_ireg_x0)
include hrd

theorem sets_lui : Sets mmu junk E (E.emit_lui dec) c dec.rd dec.disp := by
  rw [emit_lui, if_neg hrd]
  exact sets_disp dec dec.rd

/-- In memory the sum must be a sign-extended 32-bit number. -/
theorem sets_auipc (h : 0 < E.x86_reg dec.rd ∨
      ((dec.pc + dec.disp).setWidth 32).signExtend 64 = dec.pc + dec.disp) :
    Sets mmu junk E (E.emit_auipc dec) c dec.rd (dec.pc + dec.disp) := by
  rw [emit_auipc, if_neg hrd]
  by_cases hhost : 0 < E.x86_reg dec.rd
  · rw [if_pos hhost]
    exact sets_gpr_imm hhost _
  · rw [if_neg hhost, opnd_stored hhost]
    exact sets_imm dec.rd (h.resolve_left hhost)

include hx0

theorem sets_addi : Sets mmu junk E (E.emit_addi dec) c dec.rd (c.reg E dec.rs1 + dec.disp) := by
  have hadd : ∀ c' : Cpu σ, Sets mmu junk E [.arith .add .qword (E.opnd dec.rd) (.imm dec.disp)] c'
      dec.rd (c'.reg E dec.rd + dec.disp) := fun c' =>
    (setsLow_arith (.inr rfl) .add dec.rd _).sets.of_eq
      (congrArg₂ (· + ·) (setWidth_qword _) (setWidth_qword _))
  rw [emit_addi, if_neg hrd]
  by_cases h1 : dec.rs1 = rv_ireg_x0
  · rw [if_pos h1, h1, hx0, show (0 : BitVec 64) + dec.disp = dec.disp from BitVec.zero_add _]
    by_cases hhost : 0 < E.x86_reg dec.rd
    · rw [if_pos hhost]
      by_cases himm : dec.imm ≠ 0
      · rw [if_pos himm]
        exact sets_gpr_imm hhost _
      · rw [if_neg himm, Operands.disp_zero (not_not.1 himm)]
        exact sets_gpr_xor hhost (.inr rfl)
    · rw [if_neg hhost, opnd_stored hhost]
      exact sets_disp dec dec.rd
  rw [if_neg h1]
  have hsum : dec.imm = 0 → c.reg E dec.rs1 + dec.disp = c.reg E dec.rs1 := fun himm => by
    rw [Operands.disp_zero himm]
    exact BitVec.add_zero _
  by_cases heq : dec.rd = dec.rs1
  · rw [if_pos heq]
    by_cases himm : dec.imm ≠ 0
    · rw [if_pos himm, ← heq]
      exact hadd c
    · rw [if_neg himm, hsum (not_not.1 himm), ← heq]
      exact sets_skip dec.rd
  rw [if_neg heq]
  by_cases himm : dec.imm = 0
  · rw [if_pos himm, hsum himm]
    exact sets_mv dec.rd dec.rs1
  · rw [if_neg himm]
    refine (setsLow_mv (.inr rfl) dec.rd dec.rs1).append_sets fun c' _ hc' => (hadd c').of_eq ?_
    rw [setWidth_qword, setWidth_qword] at hc'
    rw [hc']

theorem sets_slti_of {result : Bool} (cond : Cond)
    (hresult : result = cond.holds (cmpFlags 0 dec.disp)) :
    Sets mmu junk E (E.emitSlti cond result dec) c dec.rd
      (flag (cond.holds (cmpFlags (c.reg E dec.rs1) dec.disp))) := by
  rw [emitSlti, if_neg hrd]
  by_cases h1 : dec.rs1 = rv_ireg_x0
  · rw [if_pos h1, h1, hx0, hresult]
    refine sets_imm dec.rd ?_
    cases cond.holds (cmpFlags 0 dec.disp) <;> decide
  · rw [if_neg h1]
    refine (sets_cmp cond dec _ _).of_eq ?_
    rw [value_opnd, value_imm, setWidth_qword, setWidth_qword]
    rfl

theorem sets_logicImm (op : Arith) {ofZero : List ArithIns}
    (hzero : Sets mmu junk E ofZero c dec.rd (op.eval 0 dec.disp)) :
    Sets mmu junk E (E.emitLogicImm op ofZero dec) c dec.rd
      (op.eval (c.reg E dec.rs1) dec.disp) := by
  have hin : ∀ c' : Cpu σ, Sets mmu junk E [.arith op .qword (E.opnd dec.rd) (.imm dec.disp)] c'
      dec.rd (op.eval (c'.reg E dec.rd) dec.disp) := fun c' =>
    (setsLow_arith (.inr rfl) op dec.rd _).sets.of_eq
      (congrArg₂ op.eval (setWidth_qword _) (setWidth_qword _))
  rw [emitLogicImm, if_neg hrd]
  by_cases h1 : dec.rs1 = rv_ireg_x0
  · rw [if_pos h1, h1, hx0]
    exact hzero
  rw [if_neg h1]
  by_cases heq : dec.rd = dec.rs1
  · rw [if_pos heq, ← heq]
    exact hin c
  rw [if_neg heq]
  by_cases hmem : E.x86_reg dec.rd < 0
  · rw [if_pos hmem]
    refine sets_in_rax (.inr rfl) op dec.rs1 _ fun c' hc' => ?_
    refine (sets_rax ((stored_iff hrd).1 hmem)).of_eq ?_
    rw [hc', value_imm]
    simp [Size.bits]
  · rw [if_neg hmem]
    refine (setsLow_mv (.inr rfl) dec.rd dec.rs1).append_sets fun c' _ hc' => (hin c').of_eq ?_
    rw [setWidth_qword, setWidth_qword] at hc'
    rw [hc']

theorem sets_shiftImm {op : ShiftOp} (hop : op ≠ .ror) :
    Sets mmu junk E (E.emitShiftImm op dec) c dec.rd
      (op.eval (c.reg E dec.rs1) (dec.imm.toNat % 64)) := by
  have hin : ∀ c' : Cpu σ, Sets mmu junk E [.shift op .qword (E.opnd dec.rd) (.imm dec.imm.toNat)]
      c' dec.rd (op.eval (c'.reg E dec.rd) (dec.imm.toNat % 64)) := fun c' =>
    (setsLow_shift (.inr rfl) op dec.rd _).sets.of_eq (congrArg (op.eval · _) (setWidth_qword _))
  rw [emitShiftImm, if_neg hrd]
  by_cases h1 : dec.rs1 = rv_ireg_x0
  · rw [if_pos h1, h1, hx0]
    exact (sets_zero dec).of_eq (ShiftOp.eval_zero hop _).symm
  rw [if_neg h1]
  by_cases heq : dec.rd = dec.rs1
  · rw [if_pos heq, ← heq]
    exact hin c
  rw [if_neg heq]
  by_cases hmem : E.x86_reg dec.rd < 0
  · rw [if_pos hmem]
    refine sets_shift_rax (.inr rfl) op dec.rs1 _ fun c' hc' => ?_
    refine (sets_rax ((stored_iff hrd).1 hmem)).of_eq ?_
    rw [hc', amount]
    simp [Size.bits]
  · rw [if_neg hmem]
    refine (setsLow_mv (.inr rfl) dec.rd dec.rs1).append_sets fun c' _ hc' => (hin c').of_eq ?_
    rw [setWidth_qword, setWidth_qword] at hc'
    rw [hc']

end

section
variable {dec : Operands} (hx0 : c.reg E rv_ireg_x0 = 0) (hrd : dec.rd ≠ rv_ireg_x0)
include hx0 hrd

theorem sets_shiftImmW {op : ShiftOp} (hop : op ≠ .ror) :
    Sets mmu junk E (E.emitShiftImmW op dec) c dec.rd
      (sx (op.eval (word32 (c.reg E dec.rs1)) (dec.imm.toNat % 32))) := by
  have hrax : ¬ 0 < E.x86_reg dec.rd → ∀ rs, Sets mmu junk E
      (mov .dword (.reg rax) (E.opnd rs) :: .shift op .dword (.reg rax) (.imm dec.imm.toNat) ::
        emitEax dec.rd) c dec.rd (sx (op.eval (word32 (c.reg E rs)) (dec.imm.toNat % 32))) := by
    intro hmem rs
    refine sets_shift_rax (.inl rfl) op rs _ fun c' hc' => (sets_eax hmem).of_eq ?_
    rw [hc']
    exact congrArg sx (setWidth_up (s := .dword) _)
  rw [emitShiftImmW, if_neg hrd]
  by_cases h1 : dec.rs1 = rv_ireg_x0
  · rw [if_pos h1, h1, hx0]
    exact (sets_zero dec).of_eq (congrArg sx (ShiftOp.eval_zero hop _).symm)
  rw [if_neg h1]
  by_cases heq : dec.rd = dec.rs1
  · rw [if_pos heq]
    by_cases hhost : 0 < E.x86_reg dec.rd
    · rw [if_pos hhost, opnd_hosted hhost, ← heq]
      exact (setsLow_shift (.inl rfl) op dec.rd _).sx_32
    · rw [if_neg hhost, opnd_stored hhost, ← heq]
      exact hrax hhost dec.rd
  rw [if_neg heq]
  by_cases hmem : E.x86_reg dec.rd < 0
  · rw [if_pos hmem]
    exact hrax ((stored_iff hrd).1 hmem) dec.rs1
  have hhost : 0 < E.x86_reg dec.rd := by
    by_contra hno
    exact hmem ((stored_iff hrd).2 hno)
  rw [if_neg hmem, opnd_hosted hhost]
  refine (setsLow_mv (.inl rfl) dec.rd dec.rs1).append_sets fun c' _ hc' => ?_
  exact (setsLow_shift (.inl rfl) op dec.rd _).sx_32.of_eq (congrArg (sx <| op.eval · _) hc')

theorem sets_addiw : Sets mmu junk E (E.emit_addiw dec) c dec.rd
    (sx (word32 (c.reg E dec.rs1) + dec.imm)) := by
  have hsum : dec.imm = 0 → ∀ x : BitVec 32, x + dec.imm = x := fun himm x => by
    rw [himm]
    exact BitVec.add_zero x
  have hin : ∀ c' : Cpu σ, SetsLow mmu junk E .dword
      (if dec.imm ≠ 0 then [.arith .add .dword (E.opnd dec.rd) (.imm dec.disp)] else []) c' dec.rd
      (word32 (c'.reg E dec.rd) + dec.imm) := by
    intro c'
    by_cases himm : dec.imm ≠ 0
    · rw [if_pos himm]
      exact (setsLow_arith (.inl rfl) .add dec.rd _).of_eq (congrArg (_ + ·) dec.disp_low)
    · rw [if_neg himm]
      exact (setsLow_skip dec.rd .dword).of_eq (hsum (not_not.1 himm) _).symm
  have hrax : ¬ 0 < E.x86_reg dec.rd → ∀ rs, Sets mmu junk E
      (if dec.imm ≠ 0 then mov .dword (.reg rax) (E.opnd rs) ::
        .arith .add .dword (.reg rax) (.imm dec.disp) :: emitEax dec.rd
      else movsxd rax (E.opnd rs) :: emitRax dec.rd) c dec.rd
      (sx (word32 (c.reg E rs) + dec.imm)) := by
    intro hmem rs
    by_cases himm : dec.imm ≠ 0
    · rw [if_pos himm]
      refine sets_in_rax (.inl rfl) .add rs _ fun c' hc' => (sets_eax hmem).of_eq ?_
      rw [hc', value_imm]
      refine congrArg sx ((setWidth_up (s := .dword) _).trans ?_)
      exact congrArg (word32 (c.reg E rs) + ·) dec.disp_low
    · rw [if_neg himm, hsum (not_not.1 himm)]
      refine ((sets_rax hmem).of_eq (Cpu.setGpr_self ..)).via_rax fun f => ⟨f, ?_⟩
      exact run_movsxd_opnd _ rax rs
  rw [emit_addiw, if_neg hrd]
  by_cases h1 : dec.rs1 = rv_ireg_x0
  · have hval : sx (word32 (c.reg E dec.rs1) + dec.imm) = dec.disp := by
      rw [h1, hx0]
      exact congrArg sx (BitVec.zero_add dec.imm)
    rw [if_pos h1, hval]
    by_cases hhost : 0 < E.x86_reg dec.rd
    · rw [if_pos hhost]
      by_cases himm : dec.imm ≠ 0
      · rw [if_pos himm]
        exact sets_gpr_imm hhost _
      · rw [if_neg himm, Operands.disp_zero (not_not.1 himm)]
        exact sets_gpr_xor hhost (.inr rfl)
    · rw [if_neg hhost]
      refine ((sets_rax hhost).of_eq (Cpu.setGpr_self c rax dec.disp)).via_rax fun f => ?_
      by_cases himm : dec.imm ≠ 0
      · rw [if_pos himm]
        exact ⟨f, run_mov_reg_imm _ rax dec.disp⟩
      · rw [if_neg himm, Operands.disp_zero (not_not.1 himm)]
        refine ⟨none, ?_⟩
        exact run_xor_self _ (.inl rfl) rax
  rw [if_neg h1]
  by_cases heq : dec.rd = dec.rs1
  · rw [if_pos heq, ← heq]
    by_cases hhost : 0 < E.x86_reg dec.rd
    · rw [if_pos hhost, opnd_hosted hhost]
      exact (hin c).sx_32
    · rw [if_neg hhost, opnd_stored hhost]
      exact hrax hhost dec.rd
  rw [if_neg heq]
  by_cases hmem : E.x86_reg dec.rd < 0
  · rw [if_pos hmem]
    exact hrax ((stored_iff hrd).1 hmem) dec.rs1
  have hhost : 0 < E.x86_reg dec.rd := by
    by_contra hno
    exact hmem ((stored_iff hrd).2 hno)
  rw [if_neg hmem, opnd_hosted hhost, List.append_assoc]
  refine (setsLow_mv (.inl rfl) dec.rd dec.rs1).append_sets fun c' _ hc' => ?_
  exact (hin c').sx_32.of_eq (congrArg (sx <| · + dec.imm) hc')

end

end

end RvCkpt.Jit
