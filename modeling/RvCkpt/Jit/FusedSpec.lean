import RvCkpt.Jit.EmitFlow

/-! # What the code of fused operations does

The registers that the code of a fused operation sets, and those that the sequence of instructions
sets which it stands for.
-/

namespace RvCkpt.Jit
open Isa HostState EmitterRv64
set_option autoImplicit false

section
variable {σ : Type} {mmu : Mmu σ} {junk : Gpr → BitVec 64} {E : EmitterRv64} {c : Cpu σ}
  {rd rs : Reg} {s : Size} {v : BitVec 64}

/-! ## Constants -/

theorem sets_const (rd : Reg) (v : BitVec 64) : Sets mmu junk E (E.emitConst rd v) c rd v := by
  rw [emitConst]
  by_cases h : 0 < E.x86_reg rd
  · rw [if_pos h]
    exact sets_gpr_imm h v
  · rw [if_neg h, opnd_stored h]
    refine sets_setReg (fun f => ⟨f, ?_⟩) (becomes_rax c v)
    rw [run_mov_reg_imm, run_mov_opnd_reg, Cpu.setGpr_self, run_nil]

/-- A register is written, unless it is x0. -/
def written (g : Reg → BitVec 64) (rd : Reg) (v : BitVec 64) : Reg → BitVec 64 :=
  if rd = rv_ireg_x0 then g else Function.update g rd v

theorem written_zero {g : Reg → BitVec 64} (h : g rv_ireg_x0 = 0) (rd : Reg) (v : BitVec 64) :
    written g rd v rv_ireg_x0 = 0 := by
  unfold written
  split
  · exact h
  · rw [Function.update_of_ne (Ne.symm ‹_›), h]

theorem runs_link (rd : Reg) (v : BitVec 64) :
    Runs mmu junk (E.emitLink rd v) c fun c' => Becomes E c c' (written (c.reg E) rd v) := by
  rw [emitLink, written]
  split
  · exact .nil (.refl E c)
  · exact sets_const rd v

/-- Code that sets one register and then code that sets another one. -/
theorem Runs.becomes {code code' : List ArithIns} {g g' : Reg → BitVec 64}
    (h : Runs mmu junk code c fun c' => Becomes E c c' g)
    (h' : ∀ c', c'.reg E = g → Runs mmu junk code' c' fun c'' => Becomes E c' c'' g') :
    Runs mmu junk (code ++ code') c fun c' => Becomes E c c' g' :=
  Runs.append h fun c' hc' => Runs.mono (h' c' hc'.regs) fun _ hc'' => hc'.trans hc''

/-- A scratch register is free. -/
theorem Becomes.rax {c' : Cpu σ} {g : Reg → BitVec 64} (h : Becomes E c c' g) (v : BitVec 64) :
    Becomes E c (c'.setGpr rax v) g := by
  exact h.trans ((becomes_rax c' v).of_eq h.regs)

theorem Becomes.rcx {c' : Cpu σ} {g : Reg → BitVec 64} (h : Becomes E c c' g) (v : BitVec 64) :
    Becomes E c (c'.setGpr rcx v) g := by
  exact h.trans ((becomes_rcx c' v).of_eq h.regs)

/-! ## Rotations -/

/-- A word as it is in a register, with its sign. -/
def signed {s : Size} (v : BitVec s.bits) : BitVec 64 := v.signExtend 64

theorem signed_qword (v : BitVec 64) : signed (s := .qword) v = v := BitVec.signExtend_eq v

theorem runs_whole (hs : Wide s) (rd : Reg) {r : Gpr} (hr : r = rax ∨ r = rcx) :
    Runs mmu junk (E.emitWhole s rd r) c fun c' =>
      Becomes E c c' (Function.update (c.reg E) rd (signed ((c.gpr r).setWidth s.bits))) ∧
        (r = rcx → c'.gpr rax = c.gpr rax) := by
  have hscratch : ∀ u, Becomes E c (c.setGpr r u) (c.reg E) := by
    rcases hr with rfl | rfl
    · exact becomes_rax c
    · exact becomes_rcx c
  have hgpr : ∀ (c' : Cpu σ) (u : BitVec 64), (c'.setReg E rd u).gpr rax = c'.gpr rax :=
    fun c' u => gpr_setReg_rax c' rd u
  rw [emitWhole]
  rcases hs with rfl | rfl
  · rw [if_neg (by decide)]
    by_cases h : 0 < E.x86_reg rd
    · rw [if_pos h]
      intro f
      refine ⟨c.setReg E rd (sx (word32 (c.gpr r))), f, ?_, becomes_setReg c rd _, fun _ => hgpr c _⟩
      rw [run_movsxd_reg, Cpu.setReg, if_pos h, run_nil]
    · rw [if_neg h, opnd_stored h]
      intro f
      refine ⟨(c.setGpr r (sx (word32 (c.gpr r)))).setReg E rd (sx (word32 (c.gpr r))), f, ?_, ?_, ?_⟩
      · rw [run_movsxd_reg, run_mov_opnd_reg, Cpu.setGpr_self, run_nil]
      · exact (hscratch _).trans ((becomes_setReg _ rd _).of_eq (by rw [(hscratch _).regs]; rfl))
      · rintro rfl
        rw [hgpr, c.setGpr_of_ne (by decide)]
  · rw [if_pos rfl]
    intro f
    refine ⟨c.setReg E rd (c.gpr r), f, run_mov_opnd_reg [] rd r, ?_, fun _ => hgpr c _⟩
    exact (becomes_setReg c rd _).of_eq
      (congrArg (Function.update (c.reg E) rd) ((signed_qword _).trans (setWidth_qword _)).symm)

theorem sets_whole (hs : Wide s) (rd : Reg) {r : Gpr} (hr : r = rax ∨ r = rcx) :
    Sets mmu junk E (E.emitWhole s rd r) c rd (signed ((c.gpr r).setWidth s.bits)) :=
  Runs.mono (runs_whole hs rd hr) fun _ h => h.1

/-- A register of the guest, shifted in `rax`. -/
theorem sets_shifted_rax (hs : Wide s) (op : ShiftOp) (rd rs : Reg) (n : ℕ) :
    Sets mmu junk E
      (mov s (.reg rax) (E.opnd rs) :: .shift op s (.reg rax) (.imm n) :: E.emitWhole s rd rax) c rd
      (signed (op.eval ((c.reg E rs).setWidth s.bits) (n % s.bits))) := by
  refine Sets.via_rax ?_ fun f => ⟨f, run_mov_reg_opnd _ hs rax rs⟩
  refine Sets.via_rax ((sets_whole hs rd (.inl rfl)).of_eq ?_)
    fun f => ⟨none, run_shift_reg _ hs op rax (.imm n)⟩
  rw [Cpu.setGpr_self, Cpu.setGpr_self, cut_setWidth, setWidth_up]
  rfl

/-- A register of the guest, shifted in place. -/
theorem sets_shifted_host (h : 0 < E.x86_reg rd) (hs : Wide s) (op : ShiftOp) (rs : Reg) (n : ℕ)
    (pre : List ArithIns) (hpre : SetsLow mmu junk E s pre c rd ((c.reg E rs).setWidth s.bits))
    (after : List ArithIns)
    (hafter : ∀ c' : Cpu σ, Sets mmu junk E after c' rd (signed ((c'.reg E rd).setWidth s.bits))) :
    Sets mmu junk E (pre ++ .shift op s (.reg (E.gp rd)) (.imm n) :: after) c rd
      (signed (op.eval ((c.reg E rs).setWidth s.bits) (n % s.bits))) := by
  rw [opnd_hosted h]
  refine hpre.append_sets fun c₁ _ hlow => ?_
  have hshifted : SetsLow mmu junk E s [.shift op s (E.opnd rd) (.imm n)] c₁ rd _ :=
    setsLow_shift hs op rd (.imm n)
  refine hshifted.append_sets fun c₂ _ hshift => ?_
  refine (hafter c₂).of_eq (congrArg signed ?_)
  rw [hshift, hlow]
  rfl

theorem sets_sx_host (h : 0 < E.x86_reg rd) :
    Sets mmu junk E [movsxd (E.gp rd) (.reg (E.gp rd))] c rd (sx (word32 (c.reg E rd))) := by
  rw [opnd_hosted h]
  refine sets_setReg (fun f => ⟨f, ?_⟩) (.refl E c)
  rw [run_movsxd_opnd, Cpu.setReg, if_pos h, run_nil]

/-- The last step of a shift in place: a word gets its sign. -/
theorem sets_signed_host (h : 0 < E.x86_reg rd) (hs : Wide s) :
    Sets mmu junk E (if s = .dword then [movsxd (E.gp rd) (.reg (E.gp rd))] else []) c rd
      (signed ((c.reg E rd).setWidth s.bits)) := by
  rcases hs with rfl | rfl
  · exact sets_sx_host h
  · exact (sets_skip rd).of_eq ((signed_qword _).trans (setWidth_qword _)).symm

/-- A shift of `rs` into `rd`, as it is made for the rest of a rotation. -/
theorem sets_residual (hs : Wide s) (inHost inMem : ShiftOp) (rd rs : Reg) (n : ℕ) :
    Sets mmu junk E
      (if 0 < E.x86_reg rd then
        mov s (.reg (E.gp rd)) (E.opnd rs) :: .shift inHost s (.reg (E.gp rd)) (.imm n) ::
          (if s = .dword then [movsxd (E.gp rd) (.reg (E.gp rd))] else [])
      else
        mov s (.reg rax) (E.opnd rs) :: .shift inMem s (.reg rax) (.imm n) :: E.emitWhole s rd rax)
      c rd
      (signed ((if 0 < E.x86_reg rd then inHost else inMem).eval ((c.reg E rs).setWidth s.bits)
        (n % s.bits))) := by
  by_cases h : 0 < E.x86_reg rd
  · rw [if_pos h, if_pos h]
    refine sets_shifted_host h hs inHost rs n [mov s (.reg (E.gp rd)) (E.opnd rs)] ?_ _
      fun c' => sets_signed_host h hs
    rw [opnd_hosted h]
    exact (setsLow_mov hs rd (opnd_cases rs)).of_eq (value_opnd c s rs)
  · rw [if_neg h, if_neg h]
    exact sets_shifted_rax hs inMem rd rs n

/-- The rotation of `rs1` into `rd`, as it is made behind the rest. -/
theorem sets_rotated (hs : Wide s) (o : Operands) (n : ℕ) :
    Sets mmu junk E
      (if 0 < E.x86_reg o.rd then
        (if s = .dword then E.emit_mv_rd_rs1_sx_32 o else E.emit_mv_rd_rs1 o) ++
          .shift .ror s (.reg (E.gp o.rd)) (.imm n) ::
          (if s = .dword then E.emit_sx_32_rd o else [])
      else E.emitMvRax s o ++ .shift .ror s (.reg rax) (.imm n) :: E.emitWhole s o.rd rax) c o.rd
      (signed (ShiftOp.ror.eval ((c.reg E o.rs1).setWidth s.bits) (n % s.bits))) := by
  by_cases h : 0 < E.x86_reg o.rd
  · rw [if_pos h]
    refine sets_shifted_host h hs .ror o.rs1 n _ ?_ _ fun c' => ?_
    · rcases hs with rfl | rfl
      · rw [if_pos rfl]
        refine Runs.mono (sets_mv_sx_32 o) fun c' hc' => ⟨_, ?_, hc'⟩
        exact sx_low (word32 (c.reg E o.rs1))
      · exact setsLow_mv (.inr rfl) o.rd o.rs1
    · have hsx : E.emit_sx_32_rd o = [movsxd (E.gp o.rd) (.reg (E.gp o.rd))] := if_pos h
      rw [hsx]
      exact sets_signed_host h hs
  · rw [if_neg h]
    exact sets_shifted_rax hs .ror o.rd o.rs1 n

/-- The shift that the rest of a rotation is made with. -/
def restOp (E : EmitterRv64) (residual inHost inMem : ShiftOp) (o : Operands) : ShiftOp :=
  if o.rd = o.rs1 ∨ o.rs2 = o.rs1 then residual
  else if 0 < E.x86_reg o.rs2 then inHost else inMem

/-- Both registers of a rotation are made from what `rs1` was. -/
theorem runs_rotate (hs : Wide s) (residual inHost inMem : ShiftOp) (n : ℕ) (dec : JitDecode) :
    Runs mmu junk (E.emitRotate s residual inHost inMem n dec) c fun c' =>
      Becomes E c c' (Function.update (Function.update (c.reg E) dec.operands.rs2
        (signed ((restOp E residual inHost inMem dec.operands).eval
          ((c.reg E dec.operands.rs1).setWidth s.bits) (n % s.bits)))) dec.operands.rd
        (signed (ShiftOp.ror.eval ((c.reg E dec.operands.rs1).setWidth s.bits)
          (dec.operands.imm.toNat % s.bits)))) := by
  generalize ho : dec.operands = o
  rw [emitRotate, ho, restOp]
  by_cases halias : o.rd = o.rs1 ∨ o.rs2 = o.rs1
  · rw [if_pos halias, if_pos halias]
    -- both are in scratch registers before either register is written
    have hstart : ∀ code f, run mmu junk (mov s (.reg rcx) (E.opnd o.rs1) ::
        mov s (.reg rax) (if 0 < E.x86_reg o.rs1 then .reg (E.gp o.rs1) else .reg rcx) :: code)
          ⟨c, f, .run⟩ =
        run mmu junk code ⟨(c.setGpr rcx (cut s (c.reg E o.rs1))).setGpr rax (cut s (c.reg E o.rs1)),
          f, .run⟩ := by
      intro code f
      rw [run_mov_reg_opnd _ hs]
      by_cases h : 0 < E.x86_reg o.rs1
      · rw [if_pos h, opnd_hosted h, run_mov_reg_opnd _ hs, reg_setGpr_rcx]
      · rw [if_neg h, mov, run_cons, HostState.exec, exec_mov _ s (.inl ⟨rcx, rfl⟩), value_reg,
          Cpu.setGpr_self, put_reg _ hs, cut_setWidth]
        rfl
    intro f
    rw [hstart, run_shift_reg _ hs, run_shift_reg _ hs, Cpu.setGpr_of_ne _ (by decide : rcx ≠ rax),
      Cpu.setGpr_self, Cpu.setGpr_of_ne _ (by decide : rax ≠ rcx), Cpu.setGpr_self, cut_setWidth]
    generalize hc₁ : ((((c.setGpr rcx (cut s (c.reg E o.rs1))).setGpr rax
      (cut s (c.reg E o.rs1))).setGpr rcx _).setGpr rax _) = c₁
    have hsame : Becomes E c c₁ (c.reg E) := by
      rw [← hc₁]
      exact ((((Becomes.refl E c).rcx _).rax _).rcx _).rax _
    have hrcx : c₁.gpr rcx = ((residual.eval ((c.reg E o.rs1).setWidth s.bits)
        (n % s.bits)).setWidth 64) := by
      rw [← hc₁, Cpu.setGpr_of_ne _ (by decide : rcx ≠ rax), Cpu.setGpr_self]
      rfl
    have hrax : c₁.gpr rax = ((ShiftOp.ror.eval ((c.reg E o.rs1).setWidth s.bits)
        (o.imm.toNat % s.bits)).setWidth 64) := by
      rw [← hc₁, Cpu.setGpr_self]
      rfl
    have hboth : Runs mmu junk (E.emitWhole s o.rs2 rcx ++ E.emitWhole s o.rd rax) c₁ fun c' =>
        Becomes E c₁ c' (Function.update (Function.update (c₁.reg E) o.rs2
          (signed ((c₁.gpr rcx).setWidth s.bits))) o.rd (signed ((c₁.gpr rax).setWidth s.bits))) := by
      refine Runs.append (runs_whole hs o.rs2 (.inr rfl)) fun c₂ hwhole => ?_
      obtain ⟨hc₂, hkept⟩ := hwhole
      refine Runs.mono (sets_whole hs o.rd (.inl rfl)) fun c₃ hc₃ => hc₂.trans ?_
      rw [← hc₂.regs, ← hkept rfl]
      exact hc₃
    rw [hrcx, hrax, setWidth_up, setWidth_up, hsame.regs] at hboth
    obtain ⟨c', f', hrun, hbecomes⟩ := hboth none
    exact ⟨c', f', hrun, hsame.trans hbecomes⟩
  · rw [if_neg halias, if_neg halias]
    obtain ⟨-, hne⟩ := not_or.mp halias
    refine Runs.becomes (sets_residual hs inHost inMem o.rs2 o.rs1 n) fun c' hregs => ?_
    have hrot : Sets mmu junk E _ c' o.rd _ := sets_rotated hs o o.imm.toNat
    rw [hregs, Function.update_of_ne (Ne.symm hne)] at hrot
    exact Runs.mono hrot fun c'' h => h.of_eq (by rw [hregs])

end

end RvCkpt.Jit
