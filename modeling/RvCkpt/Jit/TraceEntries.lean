import RvCkpt.Jit.TraceStatic

/-! # The operations of a trace and the guest

What the code of each operation does to a host that represents a guest, beside the instructions that the
operation stands for.
-/

namespace RvCkpt.Jit
open Isa EmitterRv64
set_option autoImplicit false

/-! ## What an operation stands for -/

theorem rotation_fused (l c : JitDecode) (op : Asm.Op) : rotation l c ≠ .rv op := by
  unfold rotation
  split_ifs <;> simp

/-- A fused operation is no instruction. -/
theorem FusesTo.guestOp {insts : List JitDecode} {dec : JitDecode} (h : FusesTo insts dec) :
    dec.guestOp = none := by
  cases h with
  | pc ha hb => cases hb <;> rfl
  | zextw | addiwz => rfl
  | @rotate l r c =>
    unfold JitDecode.guestOp
    split
    · rename_i hop
      exact absurd hop (rotation_fused l c _)
    · rfl

namespace Entry
variable {P : Program} {E : EmitterRv64} {e : Entry}

theorem Right.one (h : e.Right P E) {op : GuestOp} (hop : e.dec.guestOp = some op) :
    e.insts = [e.dec.plain] := by
  refine h.stands.resolve_right fun hfuses => ?_
  have hnone : e.dec.guestOp = none := hfuses.guestOp
  exact absurd (hop.symm.trans hnone) (by simp)

theorem Right.fused (h : e.Right P E) (hop : e.dec.guestOp = none) : FusesTo e.insts e.dec.plain := by
  refine h.stands.resolve_left fun hone => ?_
  have hcount := e.covers.instretOf
  rw [hone] at hcount
  cases hdec : e.dec.op with
  | rv op =>
    obtain ⟨g, hg⟩ := guestOp_supported hdec (e.supported hdec)
    exact absurd (hop.symm.trans hg) (by simp)
  | la | call | zextw | addiwz | rorwi_rr | rorwi_lr | rordi_rr | rordi_lr | auipc_lw | auipc_ld =>
    rw [hdec] at hcount
    cases hcount

theorem Right.fetch (h : e.Right P E) {op : GuestOp} (hop : e.dec.guestOp = some op) :
    P.fetch e.dec.pc = some e.dec.plain :=
  h.fetched e.dec.plain (h.one hop ▸ List.mem_cons_self)

end Entry

/-! ## A guest that the host runs -/

section
variable {σ : Type}

/-- The host runs the guest, with no fault noted. -/
structure Live (E : EmitterRv64) (c : Cpu σ) (g : GuestState σ) : Prop where
  represents : Represents E c g
  control : c.control = .run
  cause : c.field .cause = 0

variable {K : Compiler σ} {E : EmitterRv64} {c c' : Cpu σ} {g g' : GuestCore σ} {s : GuestState σ}
  {ireg : Reg → BitVec 64} {P : Program} {e : Entry} {junk : Gpr → BitVec 64}

theorem Live.regs (h : Live E c s) : c.reg E = s.ireg := funext h.represents.regs

theorem Live.x0 (h : Live E c s) : c.reg E rv_ireg_x0 = 0 :=
  (h.represents.regs _).trans h.represents.zero

theorem Live.becomes (h : Live E c s) (hc : Becomes E c c' ireg) (hzero : ireg rv_ireg_x0 = 0) :
    Live E c' { s with ireg := ireg } := by
  refine ⟨⟨congrFun hc.regs, hzero, hc.mem.trans h.represents.mem,
    hc.accesses.trans h.represents.accesses⟩, hc.control.trans h.control, ?_⟩
  exact (hc.field _ fun _ h => by cases h).trans h.cause

/-- Code that leaves the guest's registers as they are. -/
theorem Live.same (h : Live E c s) (hc : Becomes E c c' (c.reg E)) : Live E c' s := by
  have hlive := h.becomes hc h.x0
  rwa [h.regs] at hlive

theorem Live.jumps {pc : BitVec 64} (h : Live E c s) (hc : Jumps E c c' ireg pc)
    (hzero : ireg rv_ireg_x0 = 0) : Live E c' { s with ireg := ireg } :=
  ⟨⟨congrFun hc.regs, hzero, hc.mem.trans h.represents.mem,
    hc.accesses.trans h.represents.accesses⟩, hc.control.trans h.control, hc.cause.trans h.cause⟩

theorem Live.stores {pc : BitVec 64} (h : Live E c s) (hc : Jumps E c c' (c.reg E) pc) :
    Live E c' s := by
  have hlive := h.jumps hc h.x0
  rwa [h.regs] at hlive

/-! ## Operations -/

/-- One instruction of the program. -/
theorem reaches_one (h : e.Right P E) {op : GuestOp} (hop : e.dec.guestOp = some op)
    (hpc : g.pc = e.dec.pc) (hexec : g.exec K.mmu e.dec op = (g', none)) :
    P.Reaches K.mmu g e.insts.length g' := by
  have hone := h.one hop
  have hstep : g.step K.mmu e.dec.plain = some g' := GuestCore.step_of K.mmu hpc.symm hop hexec
  refine ⟨e.insts, rfl, h.fetched, ?_⟩
  rw [hone, GuestCore.execAll_cons, hstep]
  rfl

/-- Code runs as it has been found to. -/
theorem runs_unique {code : List ArithIns} {f f' : Option Flags} {Q : Cpu σ → Prop}
    (hrun : HostState.run K.mmu junk code ⟨c, f, .run⟩ = ⟨c', f', .run⟩)
    (h : Runs K.mmu junk code c Q) : Q c' := by
  obtain ⟨d, f'', hd, hQ⟩ := h f
  obtain ⟨rfl, -, -⟩ := HostState.mk.inj (hrun.symm.trans hd)
  exact hQ

theorem runs_alu {op : AluOp} {dec : Operands} (h : op.Exact E dec) (hx0 : c.reg E rv_ireg_x0 = 0) :
    Runs K.mmu junk (emitAlu E op dec) c fun c' => Becomes E c c'
      (written (c.reg E) dec.rd (op.result dec (c.reg E dec.rs1) (c.reg E dec.rs2))) := by
  rw [written]
  by_cases hrd : dec.rd = rv_ireg_x0
  · rw [if_pos hrd, emitAlu_x0 E op hrd]
    exact .nil (.refl E c)
  · rw [if_neg hrd]
    exact sets_alu hx0 hrd h

/-- The code of a fused operation, beside its instructions. -/
theorem fused_runs (h : e.Right P K.emitter) (hop : e.dec.guestOp = none)
    (hlive : Live K.emitter c g.state) (hpc : g.pc = e.dec.pc) (junk : Gpr → BitVec 64) :
    ∃ code ireg, emitFused K.emitter e.dec = some code ∧ ireg rv_ireg_x0 = 0 ∧
      P.Reaches K.mmu g e.insts.length ⟨e.dec.term_pc, { g.state with ireg := ireg }⟩ ∧
      Runs K.mmu junk code c fun c' => Becomes K.emitter c c' ireg := by
  have hexact := h.exact
  rw [OpExact, hop] at hexact
  have hfuses := h.fused hop
  have hnot : e.dec.op ≠ .auipc_lw ∧ e.dec.op ≠ .auipc_ld := by
    refine ⟨fun hdec => ?_, fun hdec => ?_⟩
    all_goals
      unfold FusedExact at hexact
      rw [hdec] at hexact
      exact hexact
  have : Inhabited σ := ⟨g.state.mem⟩
  have hright : FusedRight K.mmu junk K.emitter e.dec.plain e.insts :=
    (fusedRight_iff_exact hfuses h.encodable h.chain hnot.1 hnot.2).mpr hexact
  obtain ⟨code, hcode, hdoes⟩ := hright
  have hcomputes : ∃ pc' f, Computes K.mmu e.insts e.dec.pc pc' f :=
    hfuses.computes h.chain hnot.1 hnot.2
  obtain ⟨pc', f, hcomp⟩ := hcomputes
  have hexec := (hcomp g _ hlive.represents.zero).mpr ⟨hpc, rfl⟩
  obtain ⟨hnext, hruns⟩ := hdoes c g _ hlive.represents hexec
  obtain rfl : pc' = e.dec.term_pc := hnext
  refine ⟨code, _, hcode, ?_, ⟨e.insts, rfl, h.fetched, hexec⟩, hruns⟩
  exact GuestCore.execAll_zero K.mmu hlive.represents.zero hexec

/-- The code of an operation that goes on to the next one. -/
theorem body_runs (h : e.Right P K.emitter) (hlive : Live K.emitter c g.state)
    (hpc : g.pc = e.dec.pc) {code : List ArithIns} {f f' : Option Flags}
    (hcode : emitBody K.emitter e.dec = some code)
    (hrun : HostState.run K.mmu junk code ⟨c, f, .run⟩ = ⟨c', f', .run⟩) :
    ∃ g', P.Reaches K.mmu g e.insts.length g' ∧ g'.pc = e.dec.next_pc ∧
      Live K.emitter c' g'.state := by
  have hexact := h.exact
  have hzero := hlive.represents.zero
  unfold emitBody at hcode
  unfold OpExact at hexact
  unfold JitDecode.next_pc
  cases hop : e.dec.guestOp with
  | some op =>
    rw [hop] at hcode hexact
    cases op with
    | alu op =>
      obtain rfl := Option.some.inj hcode
      have hbecomes := runs_unique hrun (runs_alu hexact hlive.x0)
      rw [hlive.regs] at hbecomes
      have hstate : ((g.write e.dec.operands.rd (op.result e.dec.operands
          (g.state.ireg e.dec.operands.rs1) (g.state.ireg e.dec.operands.rs2))).goto
          e.dec.cont_pc).state = _ := GuestCore.write_state g _ _
      refine ⟨_, reaches_one h hop hpc rfl, rfl, ?_⟩
      rw [hstate]
      exact hlive.becomes hbecomes (written_zero hzero _ _)
    | jal =>
      obtain rfl := Option.some.inj hcode
      have hbecomes := runs_unique hrun (runs_link e.dec.operands.rd e.dec.cont_pc)
      rw [hlive.regs] at hbecomes
      have hstate : ((g.write e.dec.operands.rd e.dec.cont_pc).goto e.dec.branch_pc).state = _ :=
        GuestCore.write_state g _ _
      refine ⟨_, reaches_one h hop hpc rfl, rfl, ?_⟩
      rw [hstate]
      exact hlive.becomes hbecomes (written_zero hzero _ _)
    | data | branch | jalr => cases hcode
  | none =>
    rw [hop] at hcode
    obtain ⟨code', ireg, hcode', hx0, hreach, hruns⟩ := fused_runs h hop hlive hpc junk
    obtain rfl := Option.some.inj (hcode'.symm.trans hcode)
    exact ⟨_, hreach, rfl, hlive.becomes (runs_unique hrun hruns) hx0⟩

/-! ### Loads and stores -/

theorem dataOp_guestOp {dec : JitDecode} {op : DataOp} (h : dec.dataOp = some op) :
    dec.guestOp = some (.data op) := by
  unfold JitDecode.dataOp at h
  split at h
  · rwa [← Option.some.inj h]
  · cases h

/-- What the guest `g` is left with: its state, or the fault of its next instruction. -/
def Left (P : Program) (mmu : Mmu σ) (g : GuestCore σ) (cause : BitVec 64) (s : GuestState σ) : Prop :=
  cause = 0 ∧ s = g.state ∨ ∃ dec op fault, P.fetch g.pc = some dec ∧ dec.guestOp = some (.data op) ∧
    interpData mmu op dec.operands g.state = (s, some fault) ∧ cause = fault

section
variable (h : e.Right P K.emitter) (hlive : Live K.emitter c g.state) (hpc : g.pc = e.dec.pc)
  {op : DataOp} (hop : e.dec.dataOp = some op)
include h hlive hpc hop

theorem data_runs
    (hrun : (K.run junk c (emitData K.emitter op e.dec.operands)).control = .run) :
    ∃ g', P.Reaches K.mmu g e.insts.length g' ∧ g'.pc = e.dec.next_pc ∧
      Live K.emitter (K.run junk c (emitData K.emitter op e.dec.operands)) g'.state := by
  have hguest := dataOp_guestOp hop
  have hexact := h.exact
  rw [OpExact, hguest] at hexact
  obtain ⟨hrep, hcase⟩ := data_step op hexact hlive.represents hlive.control hlive.cause junk
  cases hinterp : interpData K.mmu op e.dec.operands g.state with
  | mk s fault =>
    rw [hinterp] at hrep hcase
    cases fault with
    | none =>
      refine ⟨⟨e.dec.cont_pc, s⟩, reaches_one h hguest hpc ?_, ?_, hrep, hcase.1, hcase.2⟩
      · rw [GuestCore.exec, hinterp]
      · rw [JitDecode.next_pc, hguest]
    | some fault =>
      rw [hcase.1] at hrun
      cases hrun

theorem data_faults
    (hterm : (K.run junk c (emitData K.emitter op e.dec.operands)).control = .term) :
    ∃ s, Left P K.mmu g ((K.run junk c (emitData K.emitter op e.dec.operands)).field .cause) s ∧
      Represents K.emitter (K.run junk c (emitData K.emitter op e.dec.operands)) s ∧
      (K.run junk c (emitData K.emitter op e.dec.operands)).field .pc = g.pc := by
  have hguest := dataOp_guestOp hop
  have hexact := h.exact
  rw [OpExact, hguest] at hexact
  obtain ⟨hrep, hcase⟩ := data_step op hexact hlive.represents hlive.control hlive.cause junk
  cases hinterp : interpData K.mmu op e.dec.operands g.state with
  | mk s fault =>
    rw [hinterp] at hrep hcase
    cases fault with
    | none =>
      rw [hcase.1] at hterm
      cases hterm
    | some fault =>
      obtain ⟨-, hcause, hfield⟩ := hcase
      refine ⟨s, .inr ⟨e.dec.plain, op, fault, ?_, hguest, hinterp, hcause⟩, hrep, hfield.trans hpc.symm⟩
      rw [hpc]
      exact h.fetch hguest

end

/-! ### Jumps -/

theorem branch_guestOp {dec : JitDecode} {op : BranchOp} (h : branchOp dec.op = some op) :
    dec.guestOp = some (.branch op) := by
  unfold branchOp at h
  split at h
  all_goals first
    | cases h
      rename_i hdec
      exact guestOp_of hdec
    | cases h

/-- The guest's indirect jumps go to even addresses: their lowest bit is not cleared. -/
def EvenJumps (P : Program) (mmu : Mmu σ) (g₀ : GuestCore σ) : Prop :=
  ∀ n g dec, P.Reaches mmu g₀ n g → P.fetch g.pc = some dec → dec.guestOp = some .jalr →
    (g.state.ireg dec.operands.rs1 + dec.operands.disp) &&& ~~~1#64 =
      g.state.ireg dec.operands.rs1 + dec.operands.disp

theorem EvenJumps.target {g₀ : GuestCore σ} {mmu : Mmu σ} {n : ℕ} (heven : EvenJumps P mmu g₀)
    (hreach : P.Reaches mmu g₀ n g) (h : e.Right P E) (hop : e.dec.op = .rv .jalr)
    (hpc : g.pc = e.dec.pc) :
    (g.state.ireg e.dec.operands.rs1 + e.dec.operands.disp) &&& ~~~1#64 =
      g.state.ireg e.dec.operands.rs1 + e.dec.operands.disp := by
  have hguest : e.dec.guestOp = some .jalr := guestOp_of hop
  refine heven n g e.dec.plain hreach ?_ hguest
  rw [hpc]
  exact h.fetch hguest

section
variable (h : e.Right P K.emitter) (hlive : Live K.emitter c g.state) (hpc : g.pc = e.dec.pc)
include h hlive hpc

theorem jalr_runs (hop : e.dec.op = .rv .jalr)
    (heven : (g.state.ireg e.dec.operands.rs1 + e.dec.operands.disp) &&& ~~~1#64 =
      g.state.ireg e.dec.operands.rs1 + e.dec.operands.disp) {f f' : Option Flags}
    (hrun : HostState.run K.mmu junk (K.emitter.emit_jalr e.dec) ⟨c, f, .run⟩ = ⟨c', f', .run⟩) :
    ∃ g', P.Reaches K.mmu g e.insts.length g' ∧ c'.field .pc = g'.pc ∧
      Live K.emitter c' g'.state := by
  have hguest : e.dec.guestOp = some .jalr := guestOp_of hop
  have hexact := h.exact
  rw [OpExact, hguest] at hexact
  have hjumps := runs_unique hrun (runs_jalr hexact)
  rw [hlive.regs] at hjumps
  have hstate : ((g.write e.dec.operands.rd e.dec.cont_pc).goto
      ((g.state.ireg e.dec.operands.rs1 + e.dec.operands.disp) &&& ~~~1#64)).state = _ :=
    GuestCore.write_state g _ _
  refine ⟨_, reaches_one h hguest hpc rfl, hjumps.pc.trans heven.symm, ?_⟩
  rw [hstate]
  exact hlive.jumps hjumps (written_zero hlive.represents.zero _ _)

/-- Where `ra` holds the address, the return goes there. -/
theorem guard_runs (hop : e.dec.op = .rv .jalr) (hrd : e.dec.rd = rv_ireg_zero) (himm : e.dec.imm = 0)
    {link_addr : BitVec 64} (hlink : PcFits link_addr)
    (heven : (g.state.ireg e.dec.operands.rs1 + e.dec.operands.disp) &&& ~~~1#64 =
      g.state.ireg e.dec.operands.rs1 + e.dec.operands.disp) {f : Option Flags} {f' : Flags}
    (hrun : HostState.run K.mmu junk (K.emitter.emitGuard e.dec.operands.rs1 link_addr) ⟨c, f, .run⟩ =
      ⟨c', some f', .run⟩) :
    Live K.emitter c' g.state ∧ (Cond.ne.holds f' = false →
      P.Reaches K.mmu g e.insts.length ⟨link_addr, g.state⟩) := by
  have hguest : e.dec.guestOp = some .jalr := guestOp_of hop
  obtain ⟨d, hd, hbecomes⟩ : ∃ d, HostState.run K.mmu junk
      (K.emitter.emitGuard e.dec.operands.rs1 link_addr) ⟨c, f, .run⟩ = ⟨d, some _, .run⟩ ∧
      Becomes K.emitter c d (c.reg K.emitter) := run_guard hlink e.dec.operands.rs1 f
  obtain ⟨rfl, hf, -⟩ := HostState.mk.inj (hrun.symm.trans hd)
  obtain rfl := Option.some.inj hf
  refine ⟨hlive.same hbecomes, fun hequal => reaches_one h hguest hpc ?_⟩
  have hra : g.state.ireg e.dec.operands.rs1 = link_addr := by
    rw [hlive.regs] at hequal
    have he := holds_e (g.state.ireg e.dec.operands.rs1) link_addr
    rw [show Cond.e.holds _ = true from by simpa [Cond.holds] using hequal] at he
    exact of_decide_eq_true he.symm
  have hzero : e.dec.operands.rd = rv_ireg_x0 := congrArg Emu.toReg hrd
  have hdisp : e.dec.operands.disp = 0 := Operands.disp_zero himm
  rw [GuestCore.exec, heven, hra, hdisp, GuestCore.write, if_pos hzero]
  exact congrArg (fun pc => ((⟨pc, g.state⟩ : GuestCore σ), none)) (BitVec.add_zero link_addr)

/-- The flags behind the comparison say where the branch goes. -/
theorem cmp_runs {op : BranchOp} (hop : branchOp e.dec.op = some op) {f : Option Flags} {f' : Flags}
    (hrun : HostState.run K.mmu junk (K.emitter.emit_cmp e.dec.operands) ⟨c, f, .run⟩ =
      ⟨c', some f', .run⟩) :
    Live K.emitter c' g.state ∧
      (branchConds op).2.holds f' = !(branchConds op).1.holds f' ∧
      P.Reaches K.mmu g e.insts.length
        ⟨if (branchConds op).1.holds f' then e.dec.branch_pc else e.dec.cont_pc, g.state⟩ := by
  obtain ⟨d, hd, hbecomes⟩ : ∃ d, HostState.run K.mmu junk (K.emitter.emit_cmp e.dec.operands)
      ⟨c, f, .run⟩ = ⟨d, some _, .run⟩ ∧ Becomes K.emitter c d (c.reg K.emitter) :=
    run_emit_cmp hlive.x0 e.dec.operands f
  obtain ⟨rfl, hf, -⟩ := HostState.mk.inj (hrun.symm.trans hd)
  obtain rfl := Option.some.inj hf
  obtain ⟨htaken, hinverse⟩ := holds_branch op (c.reg K.emitter e.dec.operands.rs1)
    (c.reg K.emitter e.dec.operands.rs2)
  rw [hinverse, htaken, hlive.regs]
  exact ⟨hlive.same hbecomes, rfl, reaches_one h (branch_guestOp hop) hpc rfl⟩

end

end

end RvCkpt.Jit
