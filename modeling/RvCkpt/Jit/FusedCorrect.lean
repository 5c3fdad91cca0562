import RvCkpt.Jit.FusedRuns

/-! # When fused operations are right

The code of a fused operation sets the registers as the sequence does which it stands for, if and only
if its immediate holds the sum, and its registers are where its emitter expects them.
-/

namespace RvCkpt.Jit
open Isa HostState EmitterRv64
set_option autoImplicit false

/-! ## When both are the same -/

/-- The pc behind a fused operation. -/
def JitDecode.term_pc (dec : JitDecode) : BitVec 64 :=
  if dec.op = .call then dec.branch_pc else link_addr dec

section
variable {σ : Type} (mmu : Mmu σ) (junk : Gpr → BitVec 64) (E : EmitterRv64) (dec : JitDecode)
  (insts : List JitDecode)

/-- Where the sequence runs through, the code of the operation does what it does. -/
def FusedRight : Prop :=
  ∃ code, emitFused E dec = some code ∧ ∀ (c : Cpu σ) (g g' : GuestCore σ),
    Represents E c g.state → g.execAll mmu insts = some g' →
      g'.pc = dec.term_pc ∧ Runs mmu junk code c fun c' => Becomes E c c' g'.state.ireg

/-- What a fused operation needs: an immediate that holds the sum, the target of a call where it
is assumed, and registers where the emitter expects them. -/
def FusedExact : Prop :=
  let o := dec.operands
  match dec.op, insts with
  | .la, [a, b] => o.rd = rv_ireg_x0 ∨ o.disp = a.operands.disp + b.operands.disp
  | .call, [a, b] => dec.branch_pc = callTarget a b ∧
      (o.rd = Isa.rv_ireg_ra ∨ 0 < E.x86_reg o.rd ∧ dec.branch_pc = a.branch_pc ∨
        o.rd = rv_ireg_x0 ∧ 0 < E.x86_reg Isa.rv_ireg_ra ∧ dec.branch_pc = 0)
  | .zextw, _ => o.rd ≠ rv_ireg_x0 ∨ o.rs1 = rv_ireg_x0
  | .addiwz, _ => o.rd = rv_ireg_x0 ∨ ¬ 0 < E.x86_reg o.rd
  | .rorwi_rr, _ => o.rs1 = rv_ireg_x0 ∨ (o.rd = o.rs1 ∨ o.rs2 = o.rs1) ∨ 0 < E.x86_reg o.rs2
  | .rordi_rr, _ => o.rs1 = rv_ireg_x0 ∨ (o.rd = o.rs1 ∨ o.rs2 = o.rs1) ∨ ¬ 0 < E.x86_reg o.rs2
  | .rorwi_lr, _ | .rordi_lr, _ => True
  | _, _ => False

end

section
variable {σ : Type} {mmu : Mmu σ} {junk : Gpr → BitVec 64} {E : EmitterRv64} {dec : JitDecode}
  {insts : List JitDecode} {code : List ArithIns}

/-- Code runs in one way. -/
theorem Runs.both {c : Cpu σ} {P Q : Cpu σ → Prop} (h : Runs mmu junk code c P)
    (h' : Runs mmu junk code c Q) : ∃ c', P c' ∧ Q c' := by
  obtain ⟨c', f', hrun, hP⟩ := h none
  obtain ⟨c'', f'', hrun', hQ⟩ := h' none
  obtain ⟨rfl, -, -⟩ := HostState.mk.inj (hrun.symm.trans hrun')
  exact ⟨c', hP, hQ⟩

theorem represents_ofRegs [Inhabited σ] (E : EmitterRv64) {regs : Reg → BitVec 64}
    (h : regs rv_ireg_x0 = 0) : Represents E (Cpu.ofRegs regs : Cpu σ) ⟨regs, default, []⟩ :=
  ⟨congrFun (reg_ofRegs regs), h, rfl, rfl⟩

/-- Whether an operation is right is a question about registers. -/
theorem fusedRight_iff [Inhabited σ] {pc' : BitVec 64} {f : (Reg → BitVec 64) → Reg → BitVec 64}
    (hcode : emitFused E dec = some code) (hcall : dec.op = .call → dec.operands.rs1 = rv_ireg_x0)
    (hcomp : Computes mmu insts dec.pc pc' f) : FusedRight mmu junk E dec insts ↔
      dec.term_pc = pc' ∧ ∀ regs, regs rv_ireg_x0 = 0 → fusedRegs E dec regs = f regs := by
  constructor
  · rintro ⟨code', hcode', hright⟩
    obtain rfl := Option.some.inj (hcode.symm.trans hcode')
    have hregs : ∀ regs, regs rv_ireg_x0 = 0 → pc' = dec.term_pc ∧ fusedRegs E dec regs = f regs := by
      intro regs hzero
      have hexec := (hcomp ⟨dec.pc, ⟨regs, default, []⟩⟩ _ hzero).mpr ⟨rfl, rfl⟩
      obtain ⟨hpc, hrun⟩ := hright _ _ _ (represents_ofRegs E hzero) hexec
      obtain ⟨c', hc, hc'⟩ := (runs_fused hcode hcall).both hrun
      rw [reg_ofRegs] at hc
      exact ⟨hpc, hc.regs.symm.trans hc'.regs⟩
    exact ⟨(hregs 0 rfl).1.symm, fun regs hzero => (hregs regs hzero).2⟩
  · rintro ⟨hpc, hregs⟩
    refine ⟨code, hcode, fun c g g' hrep hexec => ?_⟩
    obtain ⟨-, rfl⟩ := (hcomp g g' hrep.zero).mp hexec
    refine ⟨hpc.symm, Runs.mono (runs_fused hcode hcall) fun c' hc' => hc'.of_eq ?_⟩
    have hstart : c.reg E = g.state.ireg := funext hrep.regs
    rw [hstart, hregs _ hrep.zero]

/-! ### Values -/

theorem written_idem (g : Reg → BitVec 64) (rd : Reg) (u v : BitVec 64) :
    written (written g rd u) rd v = written g rd v := by
  unfold written
  split
  · rfl
  · exact Function.update_idem ..

/-- A value that is written is seen, but not in x0. -/
theorem written_eq_iff {rd : Reg} {u v : BitVec 64} :
    (∀ g : Reg → BitVec 64, g rv_ireg_x0 = 0 → written g rd u = written g rd v) ↔
      rd = rv_ireg_x0 ∨ u = v := by
  constructor
  · intro h
    by_cases hrd : rd = rv_ireg_x0
    · exact .inl hrd
    · have heq := congrFun (h 0 rfl) rd
      rw [written, written, if_neg hrd, if_neg hrd, Function.update_self, Function.update_self] at heq
      exact .inr heq
  · rintro (hrd | rfl) g -
    · rw [written, written, if_pos hrd, if_pos hrd]
    · rfl

theorem addi_result (x : BitVec 64) (imm : BitVec 32) :
    ImmOp.addi.result x imm = x + imm.signExtend 64 := by
  show BitVec.ofInt 64 (x.toInt + imm.toInt) = _
  rw [← ofInt_toInt_add, BitVec.toInt_signExtend_of_le (by decide)]

theorem addiw_result (x : BitVec 64) (imm : BitVec 32) :
    ImmOp.addiw.result x imm = sx (word32 x + imm) := by
  show sx (BitVec.ofInt 32 ((word32 x).toInt + imm.toInt)) = _
  rw [ofInt_toInt_add]

/-- A register shifted up and down again. -/
theorem shifted_back (x : BitVec 64) : x <<< 32 >>> 32 = zx (word32 x) := by
  apply BitVec.eq_of_toNat_eq
  rw [BitVec.toNat_ushiftRight, BitVec.toNat_shiftLeft, zx, BitVec.toNat_setWidth, word32_toNat,
    Nat.shiftLeft_eq, Nat.shiftRight_eq_div_pow]
  omega

theorem word32_sx (v : BitVec 32) : word32 (sx v) = v := sx_low v

/-! ### One operation after the other -/

theorem bytesOf_le {l : List JitDecode} (h : ∀ dec ∈ l, dec.Encodable) : bytesOf l ≤ 4 * l.length := by
  induction l with
  | nil => exact le_rfl
  | cons dec l ih =>
    have hsize := (h dec List.mem_cons_self).size
    have hrest := ih fun d hd => h d (List.mem_cons_of_mem dec hd)
    rw [List.length_cons]
    show Asm.inst_length dec.inst + bytesOf l ≤ _
    omega

theorem link_addr_pseudo {pc inst imm : BitVec 64} {op : JitOp} {rd rs1 rs2 : BitVec 8} {n : ℕ}
    (hn : n < 16) : link_addr (pseudo pc inst op rd rs1 rs2 imm n) = pc + BitVec.ofNat 64 n := by
  show pc + (BitVec.ofNat 4 n).zeroExtend 64 = _
  congr 1
  apply BitVec.eq_of_toNat_eq
  rw [BitVec.toNat_setWidth, BitVec.toNat_ofNat, BitVec.toNat_ofNat]
  omega

section
variable [Inhabited σ] {p : JitDecode × AluOp} {l : List (JitDecode × AluOp)}

/-- An operation that stands for integer operations. -/
theorem alu_right_iff (hops : ∀ q ∈ p :: l, q.1.guestOp = some (.alu q.2))
    (hchain : Consecutive ((p :: l).map Prod.fst)) (hcode : emitFused E dec = some code)
    (hcall : dec.op ≠ .call) (hpc : dec.pc = p.1.pc)
    (hlink : link_addr dec = p.1.pc + BitVec.ofNat 64 (bytesOf ((p :: l).map Prod.fst))) :
    FusedRight mmu junk E dec ((p :: l).map Prod.fst) ↔
      ∀ regs, regs rv_ireg_x0 = 0 → fusedRegs E dec regs = seqRegs (p :: l) regs := by
  have hcomp : Computes mmu _ _ _ _ := computes_alu hops hchain
  rw [← hpc] at hcomp
  rw [fusedRight_iff hcode (fun h => absurd h hcall) hcomp, JitDecode.term_pc, if_neg hcall, hlink, hpc]
  exact and_iff_right rfl

theorem lengths_fit {insts : List JitDecode} (henc : ∀ inst ∈ insts, inst.Encodable)
    (hlen : insts.length ≤ 3) : bytesOf insts < 16 := by
  have := bytesOf_le henc
  omega

variable {a b d : JitDecode}

theorem la_right_iff (hchain : Consecutive [a, b])
    (ha : a.op = .rv .auipc) (hb : InPlace a.rd b .addi) (hop : dec.op = .la) (hpc : dec.pc = a.pc)
    (hdecrd : dec.rd = a.rd) (hlink : link_addr dec = a.pc + BitVec.ofNat 64 (bytesOf [a, b])) :
    FusedRight mmu junk E dec [a, b] ↔
      dec.operands.rd = rv_ireg_x0 ∨ dec.operands.disp = a.operands.disp + b.operands.disp := by
  have hops : ∀ q ∈ [(a, AluOp.auipc), (b, AluOp.imm .addi)], q.1.guestOp = some (.alu q.2) := by
    exact List.forall_mem_cons.mpr
      ⟨guestOp_of ha, List.forall_mem_cons.mpr ⟨guestOp_of hb.op, List.forall_mem_nil _⟩⟩
  have hcode : emitFused E dec = some (E.emit_la dec) := by rw [emitFused, hop]
  refine (alu_right_iff hops hchain hcode (by rw [hop]; decide) hpc hlink).trans ?_
  have hrd : b.operands.rd = a.operands.rd := congrArg Emu.toReg hb.rd
  have hrs1 : b.operands.rs1 = a.operands.rd := congrArg Emu.toReg hb.rs1
  have hseq : ∀ regs, seqRegs [(a, .auipc), (b, .imm .addi)] regs =
      written regs a.operands.rd (a.branch_pc + b.operands.disp) := by
    intro regs
    show b.aluRegs (.imm .addi) (a.aluRegs .auipc regs) = _
    rw [JitDecode.aluRegs, hrd, hrs1]
    by_cases hzero : a.operands.rd = rv_ireg_x0
    · rw [JitDecode.aluRegs, written, written, written, if_pos hzero, if_pos hzero, if_pos hzero]
    · rw [aluRegs_self hzero]
      refine (written_idem regs _ _ _).trans (congrArg (written regs a.operands.rd) ?_)
      exact addi_result _ b.imm
  have hfused : ∀ regs, fusedRegs E dec regs = written regs a.operands.rd dec.branch_pc := by
    intro regs
    rw [fusedRegs, hop]
    exact congrArg (written regs · dec.branch_pc) (congrArg Emu.toReg hdecrd)
  simp only [hseq, hfused]
  refine written_eq_iff.trans (or_congr ?_ ?_)
  · rw [show dec.operands.rd = a.operands.rd from congrArg Emu.toReg hdecrd]
  · rw [show dec.branch_pc = a.pc + dec.operands.disp from congrArg (· + dec.operands.disp) hpc,
      show a.branch_pc + b.operands.disp = a.pc + (a.operands.disp + b.operands.disp) from
        BitVec.add_assoc _ _ _]
    exact BitVec.add_right_inj a.pc

/-- A shift up and one down, in place. -/
theorem aluRegs_shifts (ha : a.imm = 32) (hb : b.imm = 32) (hrd : b.operands.rd = a.operands.rd)
    (hrs1 : b.operands.rs1 = a.operands.rd) (regs : Reg → BitVec 64) :
    b.aluRegs (.imm .srli) (a.aluRegs (.imm .slli) regs) =
      written regs a.operands.rd (zx (word32 (regs a.operands.rs1))) := by
  rw [JitDecode.aluRegs, hrd, hrs1]
  by_cases hzero : a.operands.rd = rv_ireg_x0
  · rw [JitDecode.aluRegs, written, written, written, if_pos hzero, if_pos hzero, if_pos hzero]
  · rw [aluRegs_self hzero]
    refine (written_idem regs _ _ _).trans (congrArg (written regs a.operands.rd) ?_)
    show (regs a.operands.rs1 <<< (a.imm.toNat % 64)) >>> (b.imm.toNat % 64) = _
    rw [ha, hb]
    exact shifted_back _

theorem zextw_right_iff (hchain : Consecutive [a, b]) (ha : a.op = .rv .slli) (hashift : a.imm = 32)
    (hb : InPlace a.rd b .srli) (hbshift : b.imm = 32) (hop : dec.op = .zextw) (hpc : dec.pc = a.pc)
    (hdecrd : dec.rd = a.rd) (hdecrs1 : dec.rs1 = a.rs1)
    (hlink : link_addr dec = a.pc + BitVec.ofNat 64 (bytesOf [a, b])) :
    FusedRight mmu junk E dec [a, b] ↔
      dec.operands.rd ≠ rv_ireg_x0 ∨ dec.operands.rs1 = rv_ireg_x0 := by
  have hops : ∀ q ∈ [(a, AluOp.imm .slli), (b, AluOp.imm .srli)],
      q.1.guestOp = some (.alu q.2) := by
    exact List.forall_mem_cons.mpr
      ⟨guestOp_of ha, List.forall_mem_cons.mpr ⟨guestOp_of hb.op, List.forall_mem_nil _⟩⟩
  have hcode : emitFused E dec = some (E.emit_zextw dec) := by rw [emitFused, hop]
  refine (alu_right_iff hops hchain hcode (by rw [hop]; decide) hpc hlink).trans ?_
  have hrd : dec.operands.rd = a.operands.rd := congrArg Emu.toReg hdecrd
  have hrs1 : dec.operands.rs1 = a.operands.rs1 := congrArg Emu.toReg hdecrs1
  have hseq : ∀ regs, seqRegs [(a, .imm .slli), (b, .imm .srli)] regs =
      written regs dec.operands.rd (zx (word32 (regs dec.operands.rs1))) := by
    intro regs
    rw [hrd, hrs1]
    exact aluRegs_shifts hashift hbshift (congrArg Emu.toReg hb.rd) (congrArg Emu.toReg hb.rs1) regs
  have hfused : ∀ regs, fusedRegs E dec regs =
      Function.update regs dec.operands.rd (zx (word32 (regs dec.operands.rs1))) := by
    intro regs
    rw [fusedRegs, hop]
  simp only [hseq, hfused]
  by_cases hzero : dec.operands.rd = rv_ireg_x0
  · simp only [written, hzero, if_true, ne_eq, not_true_eq_false, false_or]
    constructor
    · intro h
      by_contra hne
      -- a register that holds one
      have hone := congrFun (h (Function.update 0 dec.operands.rs1 1)
        (Function.update_of_ne (Ne.symm hne) _ _)) rv_ireg_x0
      rw [Function.update_self, Function.update_self, Function.update_of_ne (Ne.symm hne)] at hone
      exact absurd hone (by decide)
    · rintro hrs regs hregs
      rw [hrs, hregs]
      exact Function.update_eq_self_iff.mpr hregs.symm
  · simp only [written, if_neg hzero]
    exact iff_of_true (fun _ _ => trivial) (.inl hzero)

theorem addiwz_right_iff (hchain : Consecutive [a, b, d]) (ha : InPlace a.rd a .addiw)
    (hb : InPlace a.rd b .slli) (hbshift : b.imm = 32) (hd : InPlace a.rd d .srli)
    (hdshift : d.imm = 32) (hop : dec.op = .addiwz) (hpc : dec.pc = a.pc) (hdecrd : dec.rd = a.rd)
    (himm : dec.imm = a.imm)
    (hlink : link_addr dec = a.pc + BitVec.ofNat 64 (bytesOf [a, b, d])) :
    FusedRight mmu junk E dec [a, b, d] ↔
      dec.operands.rd = rv_ireg_x0 ∨ ¬ 0 < E.x86_reg dec.operands.rd := by
  have hops : ∀ q ∈ [(a, AluOp.imm .addiw), (b, .imm .slli), (d, .imm .srli)],
      q.1.guestOp = some (.alu q.2) := by
    exact List.forall_mem_cons.mpr ⟨guestOp_of ha.op, List.forall_mem_cons.mpr
      ⟨guestOp_of hb.op, List.forall_mem_cons.mpr ⟨guestOp_of hd.op, List.forall_mem_nil _⟩⟩⟩
  have hrd : dec.operands.rd = a.operands.rd := congrArg Emu.toReg hdecrd
  have hseq : ∀ regs, fusedRegs E dec regs =
      seqRegs [(a, .imm .addiw), (b, .imm .slli), (d, .imm .srli)] regs := by
    intro regs
    have hbrd : b.operands.rd = a.operands.rd := congrArg Emu.toReg hb.rd
    have hbrs1 : b.operands.rs1 = a.operands.rd := congrArg Emu.toReg hb.rs1
    show _ = d.aluRegs (.imm .srli) (b.aluRegs (.imm .slli) (a.aluRegs (.imm .addiw) regs))
    rw [aluRegs_shifts hbshift hdshift ((congrArg Emu.toReg hd.rd).trans hbrd.symm)
      ((congrArg Emu.toReg hd.rs1).trans hbrd.symm), hbrd, hbrs1, fusedRegs, hop]
    dsimp only
    rw [hrd]
    by_cases hzero : a.operands.rd = rv_ireg_x0
    · rw [JitDecode.aluRegs, written, written, written, if_pos hzero, if_pos hzero, if_pos hzero]
    · rw [aluRegs_self hzero, show a.operands.rs1 = a.operands.rd from congrArg Emu.toReg ha.rs1,
        show dec.operands.imm = a.imm from himm]
      refine Eq.trans ?_ (written_idem regs _ _ _).symm
      refine congrArg (fun v => written regs a.operands.rd (zx v)) ?_
      exact ((congrArg word32 (addiw_result _ _)).trans (word32_sx _)).symm
  by_cases hzero : dec.operands.rd = rv_ireg_x0
  · have hcode : emitFused E dec = some [] := by
      rw [emitFused, hop]
      exact if_pos hzero
    exact iff_of_true ((alu_right_iff hops hchain hcode (by rw [hop]; decide) hpc hlink).mpr
      fun regs _ => hseq regs) (.inl hzero)
  by_cases hhost : 0 < E.x86_reg dec.operands.rd
  · have hcode : emitFused E dec = none := by
      rw [emitFused, hop]
      exact (if_neg hzero).trans (if_pos hhost)
    refine iff_of_false ?_ fun h => h.elim hzero fun h => h hhost
    rintro ⟨code, hsome, -⟩
    exact absurd (hcode.symm.trans hsome) (by simp)
  · have hcode : ∃ code, emitFused E dec = some code := by
      rw [emitFused, hop]
      exact ⟨_, (if_neg hzero).trans (if_neg hhost)⟩
    obtain ⟨code, hcode⟩ := hcode
    exact iff_of_true ((alu_right_iff hops hchain hcode (by rw [hop]; decide) hpc hlink).mpr
      fun regs _ => hseq regs) (.inr hhost)

theorem ra_hosted {r : Reg} (h : 0 < E.x86_reg r) : 0 < E.x86_reg Isa.rv_ireg_ra := by
  have hmem : E.memory_registers = false := by
    by_contra hno
    exact not_hosted_of_memory (Bool.not_eq_false _ ▸ hno) r h
  rw [inRdx_iff.mpr ⟨hmem, rfl⟩]
  decide

/-- A register that is not set is seen where it differs. -/
theorem ne_of_differs {f g : (Reg → BitVec 64) → Reg → BitVec 64} {r : Reg} (v : BitVec 64)
    (hr : r ≠ rv_ireg_x0) (hf : ∀ regs, f regs r = regs r) (hg : ∀ regs, g regs r = v) :
    ¬ ∀ regs, regs rv_ireg_x0 = 0 → f regs = g regs := by
  intro h
  have heq := congrFun (h (Function.update 0 r (v + 1)) (Function.update_of_ne hr.symm _ _)) r
  rw [hf, hg, Function.update_self] at heq
  have hone : (1 : BitVec 64) = 0 := (BitVec.add_right_inj v).mp (heq.trans (BitVec.add_zero v).symm)
  exact absurd hone (by decide)

theorem called_iff (hrs1 : dec.operands.rs1 = rv_ireg_x0) (v : BitVec 64) :
    (∀ regs, regs rv_ireg_x0 = 0 → calledRegs E dec regs =
      Function.update (written regs dec.operands.rd v) Isa.rv_ireg_ra (link_addr dec)) ↔
      (dec.operands.rd = Isa.rv_ireg_ra ∨ 0 < E.x86_reg dec.operands.rd ∧ dec.branch_pc = v ∨
        dec.operands.rd = rv_ireg_x0 ∧ 0 < E.x86_reg Isa.rv_ireg_ra ∧ dec.branch_pc = 0) := by
  have hra : Isa.rv_ireg_ra ≠ rv_ireg_x0 := by decide
  generalize hr : dec.operands.rd = rd
  generalize ht : dec.branch_pc = t
  generalize hl : link_addr dec = link
  unfold calledRegs
  rw [hr, ht, hl, hrs1]
  dsimp only
  by_cases hrd : rd = Isa.rv_ireg_ra
  · refine iff_of_true (fun regs _ => ?_) (.inl hrd)
    rw [if_pos hrd, hrd, ite_self, written, if_neg hra, Function.update_idem]
  simp only [if_neg hrd]
  by_cases hhost : 0 < E.x86_reg rd
  · have hzero : rd ≠ rv_ireg_x0 := fun h => x0_stored (h ▸ hhost)
    have hfun : ∀ regs : Reg → BitVec 64, written regs rd v = Function.update regs rd v :=
      fun _ => if_neg hzero
    simp only [if_pos hhost, if_pos (ra_hosted hhost), hfun]
    constructor
    · intro h
      have heq := congrFun (h 0 rfl) rd
      rw [Function.update_of_ne hrd, Function.update_of_ne hrd, Function.update_self,
        Function.update_self] at heq
      exact .inr (.inl ⟨hhost, heq⟩)
    · rintro (h | ⟨-, rfl⟩ | ⟨h, -⟩) regs -
      · exact absurd h hrd
      · rfl
      · exact absurd h hzero
  simp only [if_neg hhost]
  by_cases hrahost : 0 < E.x86_reg Isa.rv_ireg_ra
  · simp only [if_pos hrahost]
    by_cases hzero : rd = rv_ireg_x0
    · have hfun : ∀ regs : Reg → BitVec 64, written regs rd v = regs := fun _ => if_pos hzero
      simp only [hfun]
      constructor
      · intro h
        have heq := congrFun (h 0 rfl) rv_ireg_x0
        rw [Function.update_of_ne hra.symm, Function.update_of_ne hra.symm,
          Function.update_self] at heq
        exact .inr (.inr ⟨hzero, hrahost, heq⟩)
      · rintro (h | ⟨h, -⟩ | ⟨-, -, rfl⟩) regs hregs
        · exact absurd h hrd
        · exact absurd h hhost
        · have hsame : Function.update regs rv_ireg_x0 0 = regs :=
            Function.update_eq_self_iff.mpr hregs.symm
          rw [hsame]
    · refine iff_of_false (ne_of_differs v hzero (fun regs => ?_) fun regs => ?_) ?_
      · rw [Function.update_of_ne hrd, Function.update_of_ne hzero]
      · rw [Function.update_of_ne hrd, written, if_neg hzero, Function.update_self]
      · rintro (h | ⟨h, -⟩ | ⟨h, -⟩)
        exacts [hrd h, hhost h, hzero h]
  · simp only [if_neg hrahost]
    refine iff_of_false (ne_of_differs link hra (fun regs => ?_) fun regs => ?_) ?_
    · rw [Function.update_of_ne (Ne.symm hrd), Function.update_of_ne hra]
    · rw [Function.update_self]
    · rintro (h | ⟨h, -⟩ | ⟨-, h, -⟩)
      exacts [hrd h, hhost h, hrahost h]

theorem call_right_iff (ha : a.op = .rv .auipc) (hb : b.op = .rv .jalr) (hrs1 : b.rs1 = a.rd)
    (hrd : b.rd = rv_ireg_ra) (hchain : Consecutive [a, b]) (hop : dec.op = .call)
    (hpc : dec.pc = a.pc) (hdecrd : dec.rd = a.rd) (hdecrs1 : dec.rs1 = 0)
    (hlink : link_addr dec = a.pc + BitVec.ofNat 64 (bytesOf [a, b])) :
    FusedRight mmu junk E dec [a, b] ↔ dec.branch_pc = callTarget a b ∧
      (dec.operands.rd = Isa.rv_ireg_ra ∨
        0 < E.x86_reg dec.operands.rd ∧ dec.branch_pc = a.branch_pc ∨
        dec.operands.rd = rv_ireg_x0 ∧ 0 < E.x86_reg Isa.rv_ireg_ra ∧ dec.branch_pc = 0) := by
  have hcomp : Computes mmu _ _ _ _ := computes_call ha hb hrs1 hrd hchain
  rw [← hpc] at hcomp
  have hrs1zero : dec.operands.rs1 = rv_ireg_x0 := congrArg Emu.toReg hdecrs1
  rw [fusedRight_iff (by rw [emitFused, hop]) (fun _ => hrs1zero) hcomp, JitDecode.term_pc,
    if_pos hop]
  refine and_congr_right fun _ => ?_
  have hlinkb : b.cont_pc = link_addr dec := by
    rw [hlink, cont_pc_eq, (List.isChain_cons_cons.mp hchain).1, cont_pc_eq, BitVec.add_assoc,
      ← BitVec.ofNat_add, ← bytesOf_append]
    rfl
  have hfused : ∀ regs, fusedRegs E dec regs = calledRegs E dec regs := by
    intro regs
    rw [fusedRegs, hop]
  have hseq : ∀ regs, callRegs a b regs = Function.update (written regs dec.operands.rd a.branch_pc)
      Isa.rv_ireg_ra (link_addr dec) := by
    intro regs
    rw [callRegs, hlinkb, written, if_neg (by decide),
      show dec.operands.rd = a.operands.rd from congrArg Emu.toReg hdecrd]
    rfl
  simp only [hfused, hseq]
  exact called_iff hrs1zero a.branch_pc

/-! ### Rotations -/

/-- The shift of a word or of a register to the left, and that to the right. -/
def leftShift (s : Size) : ImmOp := if s = .dword then .slliw else .slli

def rightShift (s : Size) : ImmOp := if s = .dword then .srliw else .srli

/-- A rotation to the right, by its parts. -/
theorem rotate_parts {w nl nr : ℕ} (x : BitVec w) (hsum : nl + nr = w) (hr : nr < w) :
    x <<< nl ||| x >>> nr = x.rotateRight nr := by
  rw [BitVec.rotateRight_def, Nat.mod_eq_of_lt hr, show w - nr = nl by omega, BitVec.or_comm]

theorem signed_or {s : Size} (x y : BitVec s.bits) : signed (x ||| y) = signed x ||| signed y :=
  BitVec.signExtend_or

theorem signed_injective {s : Size} (hs : Wide s) : Function.Injective (signed (s := s)) := by
  intro x y h
  rcases hs with rfl | rfl
  · have := congrArg word32 h
    rwa [show word32 (signed x) = x from sx_low x, show word32 (signed y) = y from sx_low y] at this
  · exact (signed_qword x).symm.trans (h.trans (signed_qword y))

theorem left_result {s : Size} (hs : Wide s) (x : BitVec 64) {imm : BitVec 32}
    (h : imm.toNat < s.bits) :
    (leftShift s).result x imm = signed (ShiftOp.shl.eval (x.setWidth s.bits) imm.toNat) := by
  rcases hs with rfl | rfl
  · exact congrArg (fun n => sx (word32 x <<< n)) (Nat.mod_eq_of_lt h)
  · refine Eq.trans ?_ (signed_qword _).symm
    refine (congrArg (x <<< ·) (Nat.mod_eq_of_lt h)).trans ?_
    exact congrArg (fun v : BitVec 64 => v <<< imm.toNat) (setWidth_qword x).symm

theorem right_result {s : Size} (hs : Wide s) (x : BitVec 64) {imm : BitVec 32}
    (h : imm.toNat < s.bits) :
    (rightShift s).result x imm = signed (ShiftOp.shr.eval (x.setWidth s.bits) imm.toNat) := by
  rcases hs with rfl | rfl
  · exact congrArg (fun n => sx (word32 x >>> n)) (Nat.mod_eq_of_lt h)
  · refine Eq.trans ?_ (signed_qword _).symm
    refine (congrArg (x >>> ·) (Nat.mod_eq_of_lt h)).trans ?_
    exact congrArg (fun v : BitVec 64 => v >>> imm.toNat) (setWidth_qword x).symm

/-- What the two shifts and the `or` behind them set: the rotation in one of the registers, and the
shift in the other. -/
theorem seq_rotates {s : Size} (hs : Wide s) {regs : Reg → BitVec 64} {l r first second d : JitDecode}
    {opFirst opSecond : AluOp} (hl : l.imm.toNat < s.bits) (hr : r.imm.toNat < s.bits)
    (hsum : l.imm.toNat + r.imm.toNat = s.bits)
    (horder : (first = l ∧ opFirst = .imm (leftShift s)) ∧ second = r ∧
        opSecond = .imm (rightShift s) ∨
      (first = r ∧ opFirst = .imm (rightShift s)) ∧ second = l ∧ opSecond = .imm (leftShift s))
    (hsrc : first.operands.rd ≠ first.operands.rs1) (hrs1 : r.operands.rs1 = l.operands.rs1)
    (hne : l.operands.rd ≠ r.operands.rd) (hlzero : l.operands.rd ≠ rv_ireg_x0)
    (hrzero : r.operands.rd ≠ rv_ireg_x0)
    (hsrcs : d.operands.rs1 = l.operands.rd ∧ d.operands.rs2 = r.operands.rd ∨
      d.operands.rs1 = r.operands.rd ∧ d.operands.rs2 = l.operands.rd)
    (hdzero : d.operands.rd ≠ rv_ireg_x0) :
    seqRegs [(first, opFirst), (second, opSecond), (d, .reg .or)] regs =
      Function.update
        (Function.update
          (Function.update regs l.operands.rd
            (signed (ShiftOp.shl.eval ((regs l.operands.rs1).setWidth s.bits) l.imm.toNat)))
          r.operands.rd
          (signed (ShiftOp.shr.eval ((regs l.operands.rs1).setWidth s.bits) r.imm.toNat)))
        d.operands.rd
        (signed (ShiftOp.ror.eval ((regs l.operands.rs1).setWidth s.bits) r.imm.toNat)) := by
  generalize hL : signed (ShiftOp.shl.eval ((regs l.operands.rs1).setWidth s.bits) l.imm.toNat) = L
  generalize hR : signed (ShiftOp.shr.eval ((regs l.operands.rs1).setWidth s.bits) r.imm.toNat) = R
  have hshifts : second.aluRegs opSecond (first.aluRegs opFirst regs) =
      Function.update (Function.update regs l.operands.rd L) r.operands.rd R := by
    have hleft : ∀ g : Reg → BitVec 64, g l.operands.rs1 = regs l.operands.rs1 →
        l.aluRegs (.imm (leftShift s)) g = Function.update g l.operands.rd L := by
      intro g hg
      rw [JitDecode.aluRegs, written, if_neg hlzero, hg, ← hL]
      exact congrArg (Function.update g l.operands.rd) (left_result hs _ hl)
    have hright : ∀ g : Reg → BitVec 64, g l.operands.rs1 = regs l.operands.rs1 →
        r.aluRegs (.imm (rightShift s)) g = Function.update g r.operands.rd R := by
      intro g hg
      rw [JitDecode.aluRegs, written, if_neg hrzero, hrs1, hg, ← hR]
      exact congrArg (Function.update g r.operands.rd) (right_result hs _ hr)
    rcases horder with ⟨⟨rfl, rfl⟩, rfl, rfl⟩ | ⟨⟨rfl, rfl⟩, rfl, rfl⟩
    · rw [hleft regs rfl, hright _ (Function.update_of_ne hsrc.symm _ _)]
    · rw [hright regs rfl, hleft _ (Function.update_of_ne (hrs1 ▸ hsrc.symm) _ _),
        Function.update_comm hne]
  show d.aluRegs (.reg .or) (second.aluRegs opSecond (first.aluRegs opFirst regs)) = _
  rw [hshifts, JitDecode.aluRegs, written, if_neg hdzero]
  refine congrArg (Function.update _ d.operands.rd) ?_
  have hjoin : L ||| R = signed (ShiftOp.ror.eval ((regs l.operands.rs1).setWidth s.bits)
      r.imm.toNat) := by
    rw [← hL, ← hR, ← signed_or]
    exact congrArg signed (rotate_parts _ hsum hr)
  rw [← hjoin]
  rcases hsrcs with ⟨h1, h2⟩ | ⟨h1, h2⟩
  · rw [h1, h2, Function.update_of_ne hne, Function.update_self, Function.update_self]
    rfl
  · rw [h1, h2, Function.update_of_ne hne, Function.update_self, Function.update_self]
    exact BitVec.or_comm R L

theorem amounts_add {x y : BitVec 32} {n : ℕ} (hn : n ≤ 64) (hx : x.toNat < n) (hy : y.toNat < n)
    (h : x.signExtend 64 + y.signExtend 64 = BitVec.ofNat 64 n) : x.toNat + y.toNat = n := by
  have hnat : ∀ v : BitVec 32, v.toNat < n → (v.signExtend 64).toNat = v.toNat := by
    intro v hv
    rw [BitVec.signExtend_eq_setWidth_of_msb_false (by rw [BitVec.msb_eq_decide]; simp; omega),
      BitVec.toNat_setWidth, Nat.mod_eq_of_lt (by omega)]
  have := congrArg BitVec.toNat h
  rw [BitVec.toNat_add, hnat x hx, hnat y hy, BitVec.toNat_ofNat] at this
  omega

/-- The shifts of a rotation, by the size that they have. -/
structure ShiftsOf (s : Size) (l r : JitDecode) : Prop where
  wide : Wide s
  left : l.guestOp = some (.alu (.imm (leftShift s)))
  right : r.guestOp = some (.alu (.imm (rightShift s)))
  word : l.op = .rv .slliw ↔ s = .dword
  left_lt : l.imm.toNat < s.bits
  right_lt : r.imm.toNat < s.bits
  sum : l.imm.toNat + r.imm.toNat = s.bits

theorem Shifts.of {l r : JitDecode} (h : Shifts l r) (hl : l.Encodable) (hr : r.Encodable) :
    ∃ s, ShiftsOf s l r := by
  rcases h.ops with ⟨hopl, hopr, hsum⟩ | ⟨hopl, hopr, hsum⟩
  · have h1 : l.imm.toNat < 32 := hl.word (.inl hopl)
    have h2 : r.imm.toNat < 32 := hr.word (.inr hopr)
    exact ⟨.dword, .inl rfl, guestOp_of hopl, guestOp_of hopr, iff_of_true hopl rfl, h1, h2,
      amounts_add (by decide) h1 h2 hsum⟩
  · have h1 : l.imm.toNat < 64 := hl.whole (.inl hopl)
    have h2 : r.imm.toNat < 64 := hr.whole (.inr hopr)
    exact ⟨.qword, .inr rfl, guestOp_of hopl, guestOp_of hopr,
      iff_of_false (by rw [hopl]; decide) (by decide), h1, h2, amounts_add (by decide) h1 h2 hsum⟩

theorem toReg_injective {x y : BitVec 8} (hx : x < 32) (hy : y < 32)
    (h : Emu.toReg x = Emu.toReg y) : x = y := by
  have hval : x.toNat % 32 = y.toNat % 32 := congrArg Fin.val h
  have hx' : x.toNat < 32 := hx
  have hy' : y.toNat < 32 := hy
  exact BitVec.eq_of_toNat_eq (by omega)

theorem update_update_iff {regs : Reg → BitVec 64} {a b : Reg} {u v J : BitVec 64} (h : a ≠ b) :
    Function.update (Function.update regs a u) b J = Function.update (Function.update regs a v) b J ↔
      u = v := by
  constructor
  · intro heq
    have := congrFun heq a
    rwa [Function.update_of_ne h, Function.update_of_ne h, Function.update_self,
      Function.update_self] at this
  · rintro rfl
    rfl

/-- A rotation is right where the rest that it leaves is the shift that the sequence leaves. -/
theorem rotate_right_iff {s : Size} {l r first second : JitDecode}
    {residual inHost inMem : ShiftOp} {n : ℕ} (hshifts : Shifts l r) (hs : ShiftsOf s l r)
    (hjoins : Joins l.rd r.rd d) (horder : first = l ∧ second = r ∨ first = r ∧ second = l)
    (hsrc : first.rd ≠ first.rs1) (hl : l.Encodable) (hr : r.Encodable)
    (hchain : Consecutive [first, second, d]) (hcode : emitFused E dec = some code)
    (hcall : dec.op ≠ .call)
    (hfused : ∀ regs, fusedRegs E dec regs =
      rotateRegs E s residual inHost inMem n dec.operands regs)
    (hpc : dec.pc = first.pc) (hdecrd : dec.rd = d.rd) (hdecrs1 : dec.rs1 = l.rs1)
    (hdecrs2 : dec.rs2 = if d.rd = l.rd then r.rd else l.rd) (himm : dec.imm = r.imm)
    (hlink : link_addr dec = first.pc + BitVec.ofNat 64 (bytesOf [first, second, d])) :
    FusedRight mmu junk E dec [first, second, d] ↔ ∀ regs : Reg → BitVec 64, regs rv_ireg_x0 = 0 →
      (restOp E residual inHost inMem dec.operands).eval
          ((regs dec.operands.rs1).setWidth s.bits) (n % s.bits) =
        if d.rd = l.rd then
          ShiftOp.shr.eval ((regs dec.operands.rs1).setWidth s.bits) r.imm.toNat
        else ShiftOp.shl.eval ((regs dec.operands.rs1).setWidth s.bits) l.imm.toNat := by
  have hlzero : l.operands.rd ≠ rv_ireg_x0 :=
    fun h => hshifts.left (toReg_injective hl.rd (by decide) h)
  have hrzero : r.operands.rd ≠ rv_ireg_x0 :=
    fun h => hshifts.right (toReg_injective hr.rd (by decide) h)
  have hne : l.operands.rd ≠ r.operands.rd := fun h => hshifts.rd (toReg_injective hl.rd hr.rd h)
  have hfirst : first.operands.rd ≠ first.operands.rs1 := by
    have henc : first.Encodable := by
      rcases horder with ⟨rfl, -⟩ | ⟨rfl, -⟩
      exacts [hl, hr]
    exact fun h => hsrc (toReg_injective henc.rd henc.rs1 h)
  have hrs1 : r.operands.rs1 = l.operands.rs1 := congrArg Emu.toReg hshifts.rs1.symm
  have hd : d.operands.rd = l.operands.rd ∨ d.operands.rd = r.operands.rd :=
    hjoins.rd.imp (congrArg Emu.toReg) (congrArg Emu.toReg)
  have hdzero : d.operands.rd ≠ rv_ireg_x0 := by
    rcases hd with h | h
    exacts [h ▸ hlzero, h ▸ hrzero]
  have hsrcs : d.operands.rs1 = l.operands.rd ∧ d.operands.rs2 = r.operands.rd ∨
      d.operands.rs1 = r.operands.rd ∧ d.operands.rs2 = l.operands.rd :=
    hjoins.operands.imp (fun h => ⟨congrArg Emu.toReg h.1, congrArg Emu.toReg h.2⟩)
      fun h => ⟨congrArg Emu.toReg h.1, congrArg Emu.toReg h.2⟩
  have hpair : ∃ opFirst opSecond : AluOp,
      (∀ q ∈ [(first, opFirst), (second, opSecond), (d, .reg .or)], q.1.guestOp = some (.alu q.2)) ∧
      ((first = l ∧ opFirst = .imm (leftShift s)) ∧ second = r ∧ opSecond = .imm (rightShift s) ∨
        (first = r ∧ opFirst = .imm (rightShift s)) ∧ second = l ∧
          opSecond = .imm (leftShift s)) := by
    have hor : d.guestOp = some (.alu (.reg .or)) := guestOp_of hjoins.op
    rcases horder with ⟨rfl, rfl⟩ | ⟨rfl, rfl⟩
    · exact ⟨_, _, List.forall_mem_cons.mpr ⟨hs.left, List.forall_mem_cons.mpr ⟨hs.right,
        List.forall_mem_cons.mpr ⟨hor, List.forall_mem_nil _⟩⟩⟩, .inl ⟨⟨rfl, rfl⟩, rfl, rfl⟩⟩
    · exact ⟨_, _, List.forall_mem_cons.mpr ⟨hs.right, List.forall_mem_cons.mpr ⟨hs.left,
        List.forall_mem_cons.mpr ⟨hor, List.forall_mem_nil _⟩⟩⟩, .inr ⟨⟨rfl, rfl⟩, rfl, rfl⟩⟩
  obtain ⟨opFirst, opSecond, hops, hordered⟩ := hpair
  refine (alu_right_iff hops hchain hcode hcall hpc hlink).trans ?_
  refine forall_congr' fun regs => imp_congr_right fun _ => ?_
  rw [hfused, seq_rotates hs.wide hs.left_lt hs.right_lt hs.sum hordered hfirst hrs1 hne hlzero
    hrzero hsrcs hdzero, rotateRegs]
  rw [show dec.operands.rd = d.operands.rd from congrArg Emu.toReg hdecrd,
    show dec.operands.rs1 = l.operands.rs1 from congrArg Emu.toReg hdecrs1,
    show dec.operands.imm = r.imm from himm, Nat.mod_eq_of_lt hs.right_lt]
  by_cases heq : d.rd = l.rd
  · rw [if_pos heq] at hdecrs2 ⊢
    rw [show dec.operands.rs2 = r.operands.rd from congrArg Emu.toReg hdecrs2,
      show d.operands.rd = l.operands.rd from congrArg Emu.toReg heq,
      Function.update_comm hne, Function.update_idem]
    exact (update_update_iff hne.symm).trans (signed_injective hs.wide).eq_iff
  · rw [if_neg heq] at hdecrs2 ⊢
    rw [show dec.operands.rs2 = l.operands.rd from congrArg Emu.toReg hdecrs2,
      show d.operands.rd = r.operands.rd from congrArg Emu.toReg (hjoins.rd.resolve_left heq),
      Function.update_idem]
    exact (update_update_iff hne).trans (signed_injective hs.wide).eq_iff

/-- The two shifts to the right agree on zero, and not on a negative number. -/
theorem rest_iff {s : Size} {op : ShiftOp} {rs : Reg} {n : ℕ} (hs : Wide s) (hn : 0 < n)
    (hlt : n < s.bits) (hop : op = .shr ∨ op = .sar) :
    (∀ regs : Reg → BitVec 64, regs rv_ireg_x0 = 0 → op.eval ((regs rs).setWidth s.bits) (n % s.bits) =
      ShiftOp.shr.eval ((regs rs).setWidth s.bits) n) ↔ rs = rv_ireg_x0 ∨ op = .shr := by
  rw [Nat.mod_eq_of_lt hlt]
  rcases hop with rfl | rfl
  · exact iff_of_true (fun _ _ => rfl) (.inr rfl)
  by_cases hrs : rs = rv_ireg_x0
  · refine iff_of_true (fun regs hzero => ?_) (.inl hrs)
    rw [hrs, hzero]
    show ((0#64).setWidth s.bits).sshiftRight n = (0#64).setWidth s.bits >>> n
    rw [BitVec.setWidth_zero, BitVec.zero_sshiftRight, BitVec.zero_ushiftRight]
  · refine iff_of_false (fun h => ?_) fun h => h.elim hrs fun h => by cases h
    have heq := h (Function.update 0 rs (BitVec.allOnes 64)) (Function.update_of_ne (Ne.symm hrs) _ _)
    rw [Function.update_self] at heq
    have hmsb : ((BitVec.allOnes 64).setWidth s.bits).msb = true := by
      rcases hs with rfl | rfl <;> decide
    have hleft := congrArg BitVec.msb heq
    rw [ShiftOp.eval, ShiftOp.eval, BitVec.msb_sshiftRight, hmsb, BitVec.msb_ushiftRight] at hleft
    simp [Nat.pos_iff_ne_zero.mp hn] at hleft

/-- The rotations that leave the shift to the right. -/
theorem rr_right_iff {s : Size} {l r first second : JitDecode} {inHost inMem : ShiftOp}
    (hshifts : Shifts l r) (hs : ShiftsOf s l r) (hjoins : Joins l.rd r.rd d)
    (horder : first = l ∧ second = r ∨ first = r ∧ second = l) (hsrc : first.rd ≠ first.rs1)
    (hl : l.Encodable) (hr : r.Encodable) (hchain : Consecutive [first, second, d])
    (hcode : emitFused E dec = some code) (hcall : dec.op ≠ .call)
    (hfused : ∀ regs, fusedRegs E dec regs =
      rotateRegs E s .shr inHost inMem dec.imm.toNat dec.operands regs)
    (hop : inHost = .shr ∧ inMem = .sar ∨ inHost = .sar ∧ inMem = .shr)
    (hpc : dec.pc = first.pc) (hdecrd : dec.rd = d.rd) (hdecrs1 : dec.rs1 = l.rs1)
    (hdecrs2 : dec.rs2 = if d.rd = l.rd then r.rd else l.rd) (himm : dec.imm = r.imm)
    (hlink : link_addr dec = first.pc + BitVec.ofNat 64 (bytesOf [first, second, d]))
    (heq : d.rd = l.rd) :
    FusedRight mmu junk E dec [first, second, d] ↔ dec.operands.rs1 = rv_ireg_x0 ∨
      (dec.operands.rd = dec.operands.rs1 ∨ dec.operands.rs2 = dec.operands.rs1) ∨
        (if 0 < E.x86_reg dec.operands.rs2 then inHost else inMem) = .shr := by
  refine (rotate_right_iff hshifts hs hjoins horder hsrc hl hr hchain hcode hcall hfused hpc hdecrd
    hdecrs1 hdecrs2 himm hlink).trans ?_
  have hpos : 0 < r.imm.toNat := by
    have := hs.sum
    have := hs.left_lt
    omega
  simp only [if_pos heq, himm]
  have hrest : restOp E .shr inHost inMem dec.operands = .shr ∨
      restOp E .shr inHost inMem dec.operands = .sar := by
    unfold restOp
    rcases hop with ⟨rfl, rfl⟩ | ⟨rfl, rfl⟩
    all_goals split_ifs <;> simp
  refine (rest_iff hs.wide hpos hs.right_lt hrest).trans (or_congr_right ?_)
  unfold restOp
  by_cases halias : dec.operands.rd = dec.operands.rs1 ∨ dec.operands.rs2 = dec.operands.rs1
  · exact iff_of_true (if_pos halias) (.inl halias)
  · rw [if_neg halias]
    exact (or_iff_right halias).symm

/-- Those that leave the shift to the left. -/
theorem lr_right {s : Size} {l r first second : JitDecode} {n : ℕ}
    (hshifts : Shifts l r) (hs : ShiftsOf s l r) (hjoins : Joins l.rd r.rd d)
    (horder : first = l ∧ second = r ∨ first = r ∧ second = l) (hsrc : first.rd ≠ first.rs1)
    (hl : l.Encodable) (hr : r.Encodable) (hchain : Consecutive [first, second, d])
    (hcode : emitFused E dec = some code) (hcall : dec.op ≠ .call)
    (hfused : ∀ regs, fusedRegs E dec regs = rotateRegs E s .shl .shl .shl n dec.operands regs)
    (hn : n = l.imm.toNat)
    (hpc : dec.pc = first.pc) (hdecrd : dec.rd = d.rd) (hdecrs1 : dec.rs1 = l.rs1)
    (hdecrs2 : dec.rs2 = if d.rd = l.rd then r.rd else l.rd) (himm : dec.imm = r.imm)
    (hlink : link_addr dec = first.pc + BitVec.ofNat 64 (bytesOf [first, second, d]))
    (hne : d.rd ≠ l.rd) : FusedRight mmu junk E dec [first, second, d] := by
  refine (rotate_right_iff hshifts hs hjoins horder hsrc hl hr hchain hcode hcall hfused hpc hdecrd
    hdecrs1 hdecrs2 himm hlink).mpr fun regs _ => ?_
  rw [if_neg hne, hn, Nat.mod_eq_of_lt hs.left_lt, restOp, ite_self, ite_self]

theorem rotations_right_iff {l r first second : JitDecode} (hshifts : Shifts l r)
    (hjoins : Joins l.rd r.rd d) (horder : first = l ∧ second = r ∨ first = r ∧ second = l)
    (hsrc : first.rd ≠ first.rs1) (hl : l.Encodable) (hr : r.Encodable)
    (hchain : Consecutive [first, second, d]) (hop : dec.op = rotation l d)
    (hpc : dec.pc = first.pc) (hdecrd : dec.rd = d.rd) (hdecrs1 : dec.rs1 = l.rs1)
    (hdecrs2 : dec.rs2 = if d.rd = l.rd then r.rd else l.rd) (himm : dec.imm = r.imm)
    (hlink : link_addr dec = first.pc + BitVec.ofNat 64 (bytesOf [first, second, d])) :
    FusedRight mmu junk E dec [first, second, d] ↔ FusedExact E dec [first, second, d] := by
  obtain ⟨s, hs⟩ := hshifts.of hl hr
  have hamount : (BitVec.ofNat 32 s.bits - dec.imm).toNat = l.imm.toNat := by
    rw [himm, BitVec.toNat_sub, BitVec.toNat_ofNat]
    have := hs.sum
    have := hs.left_lt
    have := hs.right_lt
    have : s.bits ≤ 64 := by
      cases s <;> decide
    omega
  rw [rotation] at hop
  rcases hs.wide with rfl | rfl
  · rw [if_pos (hs.word.mpr rfl)] at hop
    by_cases heq : d.rd = l.rd
    · rw [if_pos heq] at hop
      refine (rr_right_iff hshifts hs hjoins horder hsrc hl hr hchain (by rw [emitFused, hop])
        (by rw [hop]; decide) (fun regs => by rw [fusedRegs, hop]) (.inl ⟨rfl, rfl⟩) hpc hdecrd hdecrs1
        hdecrs2 himm hlink heq).trans ?_
      unfold FusedExact
      rw [hop]
      refine or_congr_right (or_congr_right ?_)
      split_ifs with h <;> simp [h]
    · rw [if_neg heq] at hop
      unfold FusedExact
      rw [hop]
      exact iff_of_true (lr_right hshifts hs hjoins horder hsrc hl hr hchain (by rw [emitFused, hop])
        (by rw [hop]; decide) (fun regs => by rw [fusedRegs, hop]; rfl) hamount hpc hdecrd hdecrs1 hdecrs2
        himm hlink heq) trivial
  · rw [if_neg fun h => by cases hs.word.mp h] at hop
    by_cases heq : d.rd = l.rd
    · rw [if_pos heq] at hop
      refine (rr_right_iff hshifts hs hjoins horder hsrc hl hr hchain (by rw [emitFused, hop])
        (by rw [hop]; decide) (fun regs => by rw [fusedRegs, hop]) (.inr ⟨rfl, rfl⟩) hpc hdecrd hdecrs1
        hdecrs2 himm hlink heq).trans ?_
      unfold FusedExact
      rw [hop]
      refine or_congr_right (or_congr_right ?_)
      split_ifs with h <;> simp [h]
    · rw [if_neg heq] at hop
      unfold FusedExact
      rw [hop]
      exact iff_of_true (lr_right hshifts hs hjoins horder hsrc hl hr hchain (by rw [emitFused, hop])
        (by rw [hop]; decide) (fun regs => by rw [fusedRegs, hop]; rfl) hamount hpc hdecrd hdecrs1 hdecrs2
        himm hlink heq) trivial

theorem fusedRight_iff_exact (hfuses : FusesTo insts dec) (henc : ∀ inst ∈ insts, inst.Encodable)
    (hchain : Consecutive insts) (hlw : dec.op ≠ .auipc_lw) (hld : dec.op ≠ .auipc_ld) :
    FusedRight mmu junk E dec insts ↔ FusedExact E dec insts := by
  have hlength : insts.length ≤ 3 := by
    cases hfuses <;> simp
  have hfit := lengths_fit henc hlength
  cases hfuses with
  | pc ha hb =>
    cases hb with
    | la hb => exact la_right_iff hchain ha hb rfl rfl rfl (link_addr_pseudo hfit)
    | call hop hrs1 hrd => exact call_right_iff ha hop hrs1 hrd hchain rfl rfl rfl rfl (link_addr_pseudo hfit)
    | auipc_lw => exact absurd rfl hlw
    | auipc_ld => exact absurd rfl hld
  | zextw ha hashift hb hbshift =>
    exact zextw_right_iff hchain ha hashift hb hbshift rfl rfl rfl rfl (link_addr_pseudo hfit)
  | addiwz ha hb hbshift hc hcshift =>
    refine addiwz_right_iff hchain ha hb hbshift hc hcshift rfl rfl rfl ?_ (link_addr_pseudo hfit)
    exact sx_low _
  | @rotate l r c first second hshifts hjoins horder hsrc =>
    have hl : l.Encodable := by
      rcases horder with ⟨rfl, -⟩ | ⟨-, rfl⟩
      exacts [henc _ List.mem_cons_self, henc _ (List.mem_cons_of_mem _ List.mem_cons_self)]
    have hr : r.Encodable := by
      rcases horder with ⟨-, rfl⟩ | ⟨rfl, -⟩
      exacts [henc _ (List.mem_cons_of_mem _ List.mem_cons_self), henc _ List.mem_cons_self]
    exact rotations_right_iff hshifts hjoins horder hsrc hl hr hchain rfl rfl rfl rfl rfl (sx_low _)
      (link_addr_pseudo hfit)

/-- The operations that are fused are right where they are exact, and nowhere else. -/
theorem fused_correct_iff (hfuses : FusesTo insts dec) (henc : ∀ inst ∈ insts, inst.Encodable)
    (hchain : Consecutive insts) (hlw : dec.op ≠ .auipc_lw) (hld : dec.op ≠ .auipc_ld) :
    FusedRight mmu junk E dec insts ↔ FusedExact E dec insts :=
  fusedRight_iff_exact hfuses henc hchain hlw hld

end

end

def slliwA2 : JitDecode := ⟨0x10000, 0x0185961b, 24, .rv .slliw, 12, 11, 0, false, false, 0⟩

def srliwA0 : JitDecode := ⟨0x10004, 0x0085d51b, 8, .rv .srliw, 10, 11, 0, false, false, 0⟩

def orA2 : JitDecode := ⟨0x10008, 0x00a66633, 0, .rv .or, 12, 12, 10, false, false, 0⟩

/-- `slliw a2, a1, 24; srliw a0, a1, 8; or a2, a2, a0`. -/
def rotateWord : List JitDecode := [slliwA2, srliwA0, orA2]

def rotatedWord : JitDecode := pseudo 0x10000 0x00a66633 .rorwi_rr 12 11 10 8 12

/-- A rotation of a word is right where the rest of it is in a register of the host, and wrong where it
is in memory. -/
theorem rotate_word_right :
    FusedRight blank (fun _ => 0) ⟨false, false⟩ rotatedWord rotateWord ∧
      ¬ FusedRight blank (fun _ => 0) ⟨true, false⟩ rotatedWord rotateWord := by
  have hfuses : FusesTo rotateWord rotatedWord := by
    have hshifts : Shifts slliwA2 srliwA0 :=
      ⟨.inl ⟨rfl, rfl, by decide⟩, rfl, by decide, by decide, by decide⟩
    have hjoins : Joins slliwA2.rd srliwA0.rd orA2 := ⟨rfl, .inl rfl, .inl ⟨rfl, rfl⟩⟩
    exact .rotate hshifts hjoins (.inl ⟨rfl, rfl⟩) (by decide)
  have henc : ∀ inst ∈ rotateWord, inst.Encodable := by
    refine List.forall_mem_cons.mpr ⟨?_, List.forall_mem_cons.mpr ⟨?_, List.forall_mem_cons.mpr
      ⟨?_, List.forall_mem_nil _⟩⟩⟩
    all_goals exact ⟨by decide, by decide, by decide, by decide, by decide, by decide⟩
  have hchain : Consecutive rotateWord := by
    refine List.isChain_cons_cons.mpr ⟨rfl, List.isChain_cons_cons.mpr ⟨rfl, .singleton _⟩⟩
  have hiff : ∀ E, FusedRight blank (fun _ => 0) E rotatedWord rotateWord ↔
      FusedExact E rotatedWord rotateWord :=
    fun E => fused_correct_iff hfuses henc hchain (by decide) (by decide)
  refine ⟨(hiff _).mpr ?_, fun h => ?_⟩
  · exact .inr (.inr (by decide))
  · rcases (hiff _).mp h with h | (h | h) | h
    all_goals exact absurd h (by decide)

end RvCkpt.Jit
