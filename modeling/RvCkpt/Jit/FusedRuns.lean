import RvCkpt.Jit.DataCorrect
import RvCkpt.Jit.FusedSpec

/-! # Fused operations and their sequences

What a sequence of instructions does to the registers, and what the code of the operation that is made
of it does.
-/

namespace RvCkpt.Jit
open Isa HostState EmitterRv64
set_option autoImplicit false

/-! ## Sequences of integer operations -/

section
variable {σ : Type} {mmu : Mmu σ} {g g' : GuestCore σ} {regs : Reg → BitVec 64}

/-- The registers behind an integer operation. -/
def JitDecode.aluRegs (dec : JitDecode) (op : AluOp) (regs : Reg → BitVec 64) : Reg → BitVec 64 :=
  written regs dec.operands.rd
    (op.result dec.operands (regs dec.operands.rs1) (regs dec.operands.rs2))

/-- The registers behind a sequence of them. -/
def seqRegs (l : List (JitDecode × AluOp)) (regs : Reg → BitVec 64) : Reg → BitVec 64 :=
  l.foldl (fun regs p => p.1.aluRegs p.2 regs) regs

theorem GuestCore.write_state (c : GuestCore σ) (rd : Reg) (v : BitVec 64) :
    (c.write rd v).state = { c.state with ireg := written c.state.ireg rd v } := by
  unfold write written
  split <;> rfl

theorem step_alu {dec : JitDecode} {op : AluOp} (hop : dec.guestOp = some (.alu op)) :
    g.step mmu dec = some g' ↔ dec.pc = g.pc ∧
      g' = ⟨dec.cont_pc, { g.state with ireg := dec.aluRegs op g.state.ireg }⟩ := by
  rw [GuestCore.step, hop]
  have hexec : g.exec mmu dec (.alu op) =
      (⟨dec.cont_pc, { g.state with ireg := dec.aluRegs op g.state.ireg }⟩, none) := by
    rw [GuestCore.exec, GuestCore.goto]
    dsimp only
    rw [GuestCore.write_state]
    rfl
  dsimp only [Option.bind_some]
  rw [hexec]
  by_cases hpc : dec.pc = g.pc
  · rw [if_pos hpc]
    simp only [hpc, true_and, Option.some.injEq]
    exact eq_comm
  · rw [if_neg hpc]
    exact iff_of_false (fun h => by cases h) fun h => hpc h.1

/-- Each instruction is where the one before it ends. -/
def Consecutive (insts : List JitDecode) : Prop := insts.IsChain fun a b => b.pc = a.cont_pc

theorem cont_pc_eq (dec : JitDecode) : dec.cont_pc = dec.pc + BitVec.ofNat 64 (bytesOf [dec]) := by
  rw [bytesOf_singleton]
  rfl

/-- What a sequence of integer operations does. -/
theorem execAll_alu {l : List (JitDecode × AluOp)}
    (hops : ∀ p ∈ l, p.1.guestOp = some (.alu p.2)) (hexec : g.execAll mmu (l.map Prod.fst) = some g') :
    g' = ⟨g.pc + BitVec.ofNat 64 (bytesOf (l.map Prod.fst)),
      { g.state with ireg := seqRegs l g.state.ireg }⟩ := by
  induction l generalizing g with
  | nil =>
    obtain rfl := Option.some.inj hexec
    rw [List.map_nil, show bytesOf [] = 0 from rfl, BitVec.add_zero]
    rfl
  | cons p l ih =>
    rw [List.map_cons, GuestCore.execAll_cons] at hexec
    obtain ⟨g₁, hstep, hrest⟩ := Option.bind_eq_some_iff.mp hexec
    obtain ⟨hpc, rfl⟩ := (step_alu (hops p List.mem_cons_self)).mp hstep
    rw [ih (fun q hq => hops q (List.mem_cons_of_mem p hq)) hrest]
    dsimp only
    rw [cont_pc_eq, hpc, BitVec.add_assoc, ← BitVec.ofNat_add, ← bytesOf_append]
    rfl

/-- A sequence of integer operations runs from its beginning. -/
theorem execAll_consecutive {p : JitDecode × AluOp} {l : List (JitDecode × AluOp)}
    (hops : ∀ q ∈ p :: l, q.1.guestOp = some (.alu q.2))
    (hchain : Consecutive ((p :: l).map Prod.fst)) (hpc : p.1.pc = g.pc) :
    ∃ g', g.execAll mmu ((p :: l).map Prod.fst) = some g' := by
  induction l generalizing g p with
  | nil =>
    refine ⟨⟨p.1.cont_pc, { g.state with ireg := p.1.aluRegs p.2 g.state.ireg }⟩, ?_⟩
    rw [List.map_cons, GuestCore.execAll_cons,
      (step_alu (hops p List.mem_cons_self)).mpr ⟨hpc, rfl⟩]
    rfl
  | cons q l ih =>
    obtain ⟨hqp, hchain⟩ := List.isChain_cons_cons.mp hchain
    obtain ⟨g', hg'⟩ := ih (g := ⟨p.1.cont_pc,
        { g.state with ireg := p.1.aluRegs p.2 g.state.ireg }⟩)
      (fun r hr => hops r (List.mem_cons_of_mem p hr)) hchain hqp
    refine ⟨g', ?_⟩
    rw [List.map_cons, GuestCore.execAll_cons,
      (step_alu (hops p List.mem_cons_self)).mpr ⟨hpc, rfl⟩]
    exact hg'

/-- What a sequence does, from where it begins: the registers become `f` of what they were. -/
def Computes (mmu : Mmu σ) (insts : List JitDecode) (pc pc' : BitVec 64)
    (f : (Reg → BitVec 64) → Reg → BitVec 64) : Prop :=
  ∀ g g' : GuestCore σ, g.state.ireg rv_ireg_x0 = 0 → (g.execAll mmu insts = some g' ↔
    g.pc = pc ∧ g' = ⟨pc', { g.state with ireg := f g.state.ireg }⟩)

theorem computes_alu {p : JitDecode × AluOp} {l : List (JitDecode × AluOp)}
    (hops : ∀ q ∈ p :: l, q.1.guestOp = some (.alu q.2))
    (hchain : Consecutive ((p :: l).map Prod.fst)) :
    Computes mmu ((p :: l).map Prod.fst) p.1.pc
      (p.1.pc + BitVec.ofNat 64 (bytesOf ((p :: l).map Prod.fst))) (seqRegs (p :: l)) := by
  intro g g' _
  constructor
  · intro hexec
    have hpc : p.1.pc = g.pc := by
      rw [List.map_cons, GuestCore.execAll_cons] at hexec
      obtain ⟨g₁, hstep, -⟩ := Option.bind_eq_some_iff.mp hexec
      exact ((step_alu (hops p List.mem_cons_self)).mp hstep).1
    exact ⟨hpc.symm, hpc ▸ execAll_alu hops hexec⟩
  · rintro ⟨hpc, rfl⟩
    obtain ⟨g', hg'⟩ := execAll_consecutive hops hchain hpc.symm
    rw [hg', execAll_alu hops hg', hpc]

/-- Integer operations with what they do. -/
theorem exists_alu {insts : List JitDecode} (hops : ∀ i ∈ insts, ∃ op, i.guestOp = some (.alu op)) :
    ∃ l : List (JitDecode × AluOp), l.map Prod.fst = insts ∧
      ∀ q ∈ l, q.1.guestOp = some (.alu q.2) := by
  induction insts with
  | nil => exact ⟨[], rfl, List.forall_mem_nil _⟩
  | cons i insts ih =>
    obtain ⟨op, hop⟩ := hops i List.mem_cons_self
    obtain ⟨l, rfl, hl⟩ := ih fun j hj => hops j (List.mem_cons_of_mem i hj)
    exact ⟨(i, op) :: l, rfl, List.forall_mem_cons.mpr ⟨hop, hl⟩⟩

theorem exists_computes {i : JitDecode} {insts : List JitDecode}
    (hops : ∀ j ∈ i :: insts, ∃ op, j.guestOp = some (.alu op)) (hchain : Consecutive (i :: insts)) :
    ∃ pc' f, Computes mmu (i :: insts) i.pc pc' f := by
  obtain ⟨l, hl, hall⟩ := exists_alu hops
  cases l with
  | nil => cases hl
  | cons p l =>
    rw [← hl] at hchain ⊢
    obtain rfl : p.1 = i := (List.cons.inj hl).1
    exact ⟨_, _, computes_alu hall hchain⟩

/-! ## Calls -/

/-- Where the sequence of a call goes. -/
def callTarget (a b : JitDecode) : BitVec 64 :=
  ((if a.operands.rd = rv_ireg_x0 then 0 else a.branch_pc) + b.operands.disp) &&& ~~~1#64

def callRegs (a b : JitDecode) (regs : Reg → BitVec 64) : Reg → BitVec 64 :=
  written (a.aluRegs .auipc regs) Isa.rv_ireg_ra b.cont_pc

theorem guestOp_of {dec : JitDecode} {op : Asm.Op} (h : dec.op = .rv op) :
    dec.guestOp = GuestOp.of (Emu.execCase op) := by
  rw [JitDecode.guestOp, h]

theorem toReg_ra : Emu.toReg rv_ireg_ra = Isa.rv_ireg_ra := by decide

theorem aluRegs_self {dec : JitDecode} {op : AluOp} (h : dec.operands.rd ≠ rv_ireg_x0)
    (regs : Reg → BitVec 64) : dec.aluRegs op regs dec.operands.rd =
      op.result dec.operands (regs dec.operands.rs1) (regs dec.operands.rs2) := by
  rw [JitDecode.aluRegs, written, if_neg h, Function.update_self]

/-- The target is read behind the `auipc`. -/
theorem computes_call {a b : JitDecode} (ha : a.op = .rv .auipc) (hb : b.op = .rv .jalr)
    (hrs1 : b.rs1 = a.rd) (hrd : b.rd = rv_ireg_ra) (hchain : Consecutive [a, b]) :
    Computes mmu [a, b] a.pc (callTarget a b) (callRegs a b) := by
  have hbpc : b.pc = a.cont_pc := (List.isChain_cons_cons.mp hchain).1
  have hopA : a.guestOp = some (.alu .auipc) := guestOp_of ha
  have hopB : b.guestOp = some .jalr := guestOp_of hb
  intro g g' hzero
  rw [GuestCore.execAll_cons, Option.bind_eq_some_iff]
  have hjalr : ∀ g₁ : GuestCore σ, g₁ = ⟨a.cont_pc, { g.state with ireg := a.aluRegs .auipc g.state.ireg }⟩ →
      g₁.execAll mmu [b] = some ⟨callTarget a b, { g.state with ireg := callRegs a b g.state.ireg }⟩ := by
    rintro g₁ rfl
    have hread : a.aluRegs .auipc g.state.ireg b.operands.rs1 =
        if a.operands.rd = rv_ireg_x0 then 0 else a.branch_pc := by
      rw [show b.operands.rs1 = a.operands.rd from congrArg Emu.toReg hrs1]
      split
      · rw [JitDecode.aluRegs, written, if_pos ‹_›, ‹a.operands.rd = _›, hzero]
      · rw [aluRegs_self ‹_›]
        rfl
    have hstep : GuestCore.step mmu ⟨a.cont_pc, { g.state with ireg := a.aluRegs .auipc g.state.ireg }⟩
        b = some ⟨callTarget a b, { g.state with ireg := callRegs a b g.state.ireg }⟩ := by
      refine GuestCore.step_of mmu hbpc hopB ?_
      rw [GuestCore.exec]
      dsimp only
      rw [hread, GuestCore.goto, GuestCore.write_state, callTarget, callRegs,
        show b.operands.rd = Isa.rv_ireg_ra from (congrArg Emu.toReg hrd).trans toReg_ra]
    rw [GuestCore.execAll_cons, hstep]
    rfl
  constructor
  · rintro ⟨g₁, hstep, hrest⟩
    obtain ⟨hpc, hg₁⟩ := (step_alu hopA).mp hstep
    rw [hjalr g₁ hg₁] at hrest
    exact ⟨hpc.symm, (Option.some.inj hrest).symm⟩
  · rintro ⟨hpc, rfl⟩
    exact ⟨_, (step_alu hopA).mpr ⟨hpc.symm, rfl⟩, hjalr _ rfl⟩

/-- A sequence that is fused runs through. -/
theorem FusesTo.computes {insts : List JitDecode} {dec : JitDecode} (h : FusesTo insts dec)
    (hchain : Consecutive insts) (hlw : dec.op ≠ .auipc_lw) (hld : dec.op ≠ .auipc_ld) :
    ∃ pc' f, Computes mmu insts dec.pc pc' f := by
  have hop : ∀ {i : JitDecode} {op : Asm.Op} {alu : AluOp}, i.op = .rv op →
      GuestOp.of (Emu.execCase op) = some (.alu alu) → ∃ op, i.guestOp = some (.alu op) :=
    fun hi halu => ⟨_, (guestOp_of hi).trans halu⟩
  cases h with
  | pc ha hb =>
    cases hb with
    | la hb =>
      refine exists_computes (List.forall_mem_cons.mpr ⟨hop ha rfl, List.forall_mem_cons.mpr
        ⟨hop hb.op rfl, List.forall_mem_nil _⟩⟩) hchain
    | call hjalr hrs1 hrd => exact ⟨_, _, computes_call ha hjalr hrs1 hrd hchain⟩
    | auipc_lw => exact absurd rfl hlw
    | auipc_ld => exact absurd rfl hld
  | zextw ha hashift hb hbshift =>
    exact exists_computes (List.forall_mem_cons.mpr ⟨hop ha rfl, List.forall_mem_cons.mpr
      ⟨hop hb.op rfl, List.forall_mem_nil _⟩⟩) hchain
  | addiwz ha hb hbshift hc hcshift =>
    exact exists_computes (List.forall_mem_cons.mpr ⟨hop ha.op rfl, List.forall_mem_cons.mpr
      ⟨hop hb.op rfl, List.forall_mem_cons.mpr ⟨hop hc.op rfl, List.forall_mem_nil _⟩⟩⟩) hchain
  | @rotate l r c first second hshifts hjoins horder hsrc =>
    have hboth : (∃ op, l.guestOp = some (.alu op)) ∧ ∃ op, r.guestOp = some (.alu op) := by
      rcases hshifts.ops with ⟨hl, hr, -⟩ | ⟨hl, hr, -⟩
      · exact ⟨hop hl rfl, hop hr rfl⟩
      · exact ⟨hop hl rfl, hop hr rfl⟩
    have hpair : (∃ op, first.guestOp = some (.alu op)) ∧ ∃ op, second.guestOp = some (.alu op) := by
      rcases horder with ⟨rfl, rfl⟩ | ⟨rfl, rfl⟩
      exacts [hboth, hboth.symm]
    exact exists_computes (List.forall_mem_cons.mpr ⟨hpair.1, List.forall_mem_cons.mpr
      ⟨hpair.2, List.forall_mem_cons.mpr ⟨hop hjoins.op rfl, List.forall_mem_nil _⟩⟩⟩) hchain

end

/-! ## The code -/

section
variable {σ : Type} (mmu : Mmu σ) (junk : Gpr → BitVec 64) (E : EmitterRv64) {c : Cpu σ}
  {dec : JitDecode} {insts : List JitDecode}

/-- The registers behind the code of a rotation. -/
def rotateRegs (s : Size) (residual inHost inMem : ShiftOp) (n : ℕ) (o : Operands)
    (regs : Reg → BitVec 64) : Reg → BitVec 64 :=
  let x := (regs o.rs1).setWidth s.bits
  Function.update (Function.update regs o.rs2
    (signed ((restOp E residual inHost inMem o).eval x (n % s.bits)))) o.rd
    (signed (ShiftOp.ror.eval x (o.imm.toNat % s.bits)))

/-- The registers behind the code of a call. -/
def calledRegs (dec : JitDecode) (regs : Reg → BitVec 64) : Reg → BitVec 64 :=
  let rd := dec.operands.rd
  let regs' := if rd = Isa.rv_ireg_ra then regs
    else Function.update regs (if 0 < E.x86_reg rd then rd else dec.operands.rs1) dec.branch_pc
  Function.update regs' (if 0 < E.x86_reg Isa.rv_ireg_ra then Isa.rv_ireg_ra else rd) (link_addr dec)

/-- A word without its sign. -/
def zx (v : BitVec 32) : BitVec 64 := v.setWidth 64

/-- The registers behind the code of a fused operation. -/
def fusedRegs (dec : JitDecode) (regs : Reg → BitVec 64) : Reg → BitVec 64 :=
  let o := dec.operands
  match dec.op with
  | .la => written regs o.rd dec.branch_pc
  | .call => calledRegs E dec regs
  | .zextw => Function.update regs o.rd (zx (word32 (regs o.rs1)))
  | .addiwz => written regs o.rd (zx (word32 (regs o.rd) + o.imm))
  | .rorwi_rr => rotateRegs E .dword .shr .shr .sar dec.imm.toNat o regs
  | .rorwi_lr => rotateRegs E .dword .shl .shl .shl (32 - dec.imm).toNat o regs
  | .rordi_rr => rotateRegs E .qword .shr .sar .shr dec.imm.toNat o regs
  | .rordi_lr => rotateRegs E .qword .shl .shl .shl (64 - dec.imm).toNat o regs
  | _ => regs

variable {mmu junk E}

theorem runs_call (hrs1 : dec.operands.rs1 = rv_ireg_x0) :
    Runs mmu junk (E.emit_call dec) c fun c' => Becomes E c c' (calledRegs E dec (c.reg E)) := by
  have hlink : ∀ c₁ : Cpu σ, Runs mmu junk
      (if 0 < E.x86_reg Isa.rv_ireg_ra then
        [mov .qword (.reg (E.gp Isa.rv_ireg_ra)) (.imm (link_addr dec))]
      else [mov .qword (.reg rax) (.imm (link_addr dec)),
        mov .qword (rbp_reg dec.operands.rd) (.reg rax)]) c₁ fun c' => Becomes E c₁ c'
      (Function.update (c₁.reg E)
        (if 0 < E.x86_reg Isa.rv_ireg_ra then Isa.rv_ireg_ra else dec.operands.rd) (link_addr dec)) := by
    intro c₁
    by_cases h : 0 < E.x86_reg Isa.rv_ireg_ra
    · rw [if_pos h, if_pos h]
      exact sets_gpr_imm h _
    · have hrd : ¬ 0 < E.x86_reg dec.operands.rd := by
        have hmem : E.memory_registers = true := by
          by_contra hno
          exact h ((inRdx_iff.mpr ⟨Bool.eq_false_iff.mpr hno, rfl⟩).symm ▸ by decide)
        exact not_hosted_of_memory hmem _
      rw [if_neg h, if_neg h]
      have hconst : Sets mmu junk E _ c₁ dec.operands.rd (link_addr dec) := sets_const _ _
      rwa [emitConst, if_neg hrd] at hconst
  rw [emit_call, calledRegs]
  by_cases hra : dec.operands.rd = Isa.rv_ireg_ra
  · rw [if_pos hra, if_pos hra, List.nil_append]
    exact hlink c
  rw [if_neg hra, if_neg hra]
  refine Runs.becomes (g := Function.update (c.reg E)
    (if 0 < E.x86_reg dec.operands.rd then dec.operands.rd else dec.operands.rs1) dec.branch_pc) ?_
    fun c' hregs => hregs ▸ hlink c'
  by_cases h : 0 < E.x86_reg dec.operands.rd
  · rw [if_pos h, if_pos h]
    exact sets_gpr_imm h _
  · have hconst : Sets mmu junk E _ c dec.operands.rs1 dec.branch_pc := sets_const _ _
    rw [emitConst, if_neg (hrs1 ▸ x0_stored)] at hconst
    rw [if_neg h, if_neg h]
    exact hconst

theorem runs_zextw : Runs mmu junk (E.emit_zextw dec) c fun c' => Becomes E c c'
    (Function.update (c.reg E) dec.operands.rd (zx (word32 (c.reg E dec.operands.rs1)))) := by
  rw [emit_zextw]
  by_cases h : 0 < E.x86_reg dec.operands.rd
  · rw [if_pos h]
    refine sets_setReg (fun f => ⟨f, ?_⟩) (.refl E c)
    rw [run_mov_reg_opnd _ (.inl rfl), Cpu.setReg, if_pos h, run_nil]
    rfl
  · rw [if_neg h]
    refine Sets.via_rax ((sets_rax h).of_eq ?_) fun f => ⟨f, run_mov_reg_opnd _ (.inl rfl) rax _⟩
    rw [Cpu.setGpr_self]
    rfl

theorem runs_addiwz {code : List ArithIns} (hcode : E.emit_addiwz dec = some code) :
    Runs mmu junk code c fun c' => Becomes E c c' (written (c.reg E) dec.operands.rd
      (zx (word32 (c.reg E dec.operands.rd) + dec.operands.imm))) := by
  rw [emit_addiwz] at hcode
  rw [written]
  by_cases hrd : dec.operands.rd = rv_ireg_x0
  · rw [if_pos hrd] at hcode
    rw [if_pos hrd, ← Option.some.inj hcode]
    exact .nil (.refl E c)
  by_cases h : 0 < E.x86_reg dec.operands.rd
  · rw [if_neg hrd, if_pos h] at hcode
    cases hcode
  rw [if_neg hrd, if_neg h] at hcode
  rw [if_neg hrd, ← Option.some.inj hcode, opnd_stored h]
  refine Sets.via_rax ?_ fun f => ⟨f, run_mov_reg_opnd _ (.inl rfl) rax _⟩
  refine Sets.via_rax ((sets_rax h).of_eq ?_) fun f => ⟨none, run_arith_reg _ (.inl rfl) .add rax _⟩
  rw [Cpu.setGpr_self, Cpu.setGpr_self, cut_setWidth, value_imm]
  exact congrArg (fun v : BitVec 32 => zx (word32 (c.reg E dec.operands.rd) + v))
    dec.operands.disp_low

/-- What the code of a fused operation does. -/
theorem runs_fused {code : List ArithIns} (hcode : emitFused E dec = some code)
    (hcall : dec.op = .call → dec.operands.rs1 = rv_ireg_x0) :
    Runs mmu junk code c fun c' => Becomes E c c' (fusedRegs E dec (c.reg E)) := by
  rw [emitFused] at hcode
  unfold fusedRegs
  cases hop : dec.op with
  | la =>
    rw [hop] at hcode
    rw [← Option.some.inj hcode]
    exact runs_link _ _
  | call =>
    rw [hop] at hcode
    rw [← Option.some.inj hcode]
    exact runs_call (hcall hop)
  | zextw =>
    rw [hop] at hcode
    rw [← Option.some.inj hcode]
    exact runs_zextw
  | addiwz =>
    rw [hop] at hcode
    exact runs_addiwz hcode
  | rorwi_rr | rorwi_lr =>
    rw [hop] at hcode
    rw [← Option.some.inj hcode]
    exact runs_rotate (.inl rfl) _ _ _ _ dec
  | rordi_rr | rordi_lr =>
    rw [hop] at hcode
    rw [← Option.some.inj hcode]
    exact runs_rotate (.inr rfl) _ _ _ _ dec
  | rv | auipc_lw | auipc_ld =>
    rw [hop] at hcode
    cases hcode

end

end RvCkpt.Jit
