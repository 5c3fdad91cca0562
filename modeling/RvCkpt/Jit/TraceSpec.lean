import RvCkpt.Jit.TraceRun

/-! # What the code around operations does

The guest's registers through the prolog, the comparisons, the jumps, the lookup of a trace and the
epilog.
-/

namespace RvCkpt.Jit
open Isa HostState EmitterRv64
set_option autoImplicit false

section
variable {σ : Type} (K : Compiler σ) (junk : Gpr → BitVec 64) (c : Cpu σ) {l : List (Reg × Gpr)}

/-! ## Saving and loading registers -/

theorem hostRegs_pairwise :
    (hostRegs.Pairwise fun p q => Field.ireg p.1 ≠ Field.ireg q.1) ∧
      hostRegs.Pairwise fun p q => p.2 ≠ q.2 := by
  decide

theorem hostRegs_hosted {E : EmitterRv64} (hm : E.memory_registers = false) {p : Reg × Gpr}
    (hp : p ∈ hostRegs) : 0 < E.x86_reg p.1 ∧ E.gp p.1 = p.2 := by
  obtain ⟨m, u⟩ := E
  subst hm
  have hall : hostRegs.all (fun p => 0 < EmitterRv64.x86_reg ⟨false, u⟩ p.1 ∧
      EmitterRv64.gp ⟨false, u⟩ p.1 = p.2) = true := by
    cases u <;> decide
  simpa using List.all_eq_true.mp hall p hp

theorem hosted_mem {E : EmitterRv64} (hm : E.memory_registers = false) {r : Reg}
    (h : 0 < E.x86_reg r) : (r, E.gp r) ∈ hostRegs := by
  obtain ⟨m, u⟩ := E
  subst hm
  cases u <;> decide +revert

theorem memory_of_hosted {E : EmitterRv64} {r : Reg} (h : 0 < E.x86_reg r) :
    E.memory_registers = false := by
  by_contra hno
  exact not_hosted_of_memory (Bool.not_eq_false _ ▸ hno) r h

/-- Registers that are saved keep their values, and their places get them. -/
structure Saved {σ : Type} (E : EmitterRv64) (l : List (Reg × Gpr)) (c c' : Cpu σ) : Prop where
  becomes : Becomes E c c' (c.reg E)
  gpr : c'.gpr = c.gpr
  others : ∀ f, (∀ p ∈ l, E.memory_registers = false → f ≠ .ireg p.1) → c'.field f = c.field f
  place : ∀ p ∈ l, E.memory_registers = false → c'.field (.ireg p.1) = c.reg E p.1

theorem saved_exec (hl : l.Sublist hostRegs) : Saved K.emitter l c (K.exec junk c (K.emitter.save l)) := by
  rw [Compiler.exec, EmitterRv64.save]
  cases hm : K.emitter.memory_registers with
  | true => exact ⟨.refl _ c, rfl, fun _ _ => rfl, fun p _ h => absurd (hm.symm.trans h) (by decide)⟩
  | false =>
    rw [if_neg (by decide), execAll_save]
    have hfield : ∀ f : Field, (∀ p ∈ l, f ≠ .ireg p.1) →
        l.foldl (fun f p => Function.update f (.ireg p.1) (c.gpr p.2)) c.field f = c.field f :=
      fun f hf => foldl_update_of_notMem _ _ _ _ fun p hp => (hf p hp).symm
    refine ⟨⟨funext fun r => ?_, rfl, rfl, rfl, fun f hf => hfield f fun p _ => hf p.1⟩, rfl,
      fun f hf => hfield f fun p hp => hf p hp hm, fun p hp _ => ?_⟩
    · rw [Cpu.reg, Cpu.reg]
      by_cases h : 0 < K.emitter.x86_reg r
      · rw [if_pos h, if_pos h]
      · rw [if_neg h, if_neg h]
        refine hfield _ fun p hp he => h ?_
        rw [Field.ireg.inj he]
        exact (hostRegs_hosted hm (hl.subset hp)).1
    · obtain ⟨hhost, hgp⟩ := hostRegs_hosted hm (hl.subset hp)
      rw [Cpu.reg, if_pos hhost, hgp]
      exact foldl_update_of_mem (fun p : Reg × Gpr => Field.ireg p.1) (fun p => c.gpr p.2) c.field
        (hostRegs_pairwise.1.sublist hl) hp

/-- Registers that are loaded get the values of their places. -/
theorem reg_loaded (hm : K.emitter.memory_registers = false) (hl : l.Sublist hostRegs) {r : Reg}
    (hr : (r, K.emitter.gp r) ∈ l) :
    (K.exec junk c (K.emitter.load l)).reg K.emitter r = c.field (.ireg r) := by
  obtain ⟨hhost, -⟩ := hostRegs_hosted hm (hl.subset hr)
  rw [Compiler.exec, EmitterRv64.load, if_neg (by rw [hm]; decide), execAll_restore, Cpu.reg,
    if_pos hhost]
  exact foldl_update_of_mem (fun p : Reg × Gpr => p.2) (fun p => c.field (.ireg p.1)) c.gpr
    (hostRegs_pairwise.2.sublist hl) hr

theorem reg_not_loaded (hm : K.emitter.memory_registers = false) (hl : l.Sublist hostRegs) {r : Reg}
    (hr : (r, K.emitter.gp r) ∉ l) :
    (K.exec junk c (K.emitter.load l)).reg K.emitter r = c.reg K.emitter r := by
  rw [Compiler.exec, EmitterRv64.load, if_neg (by rw [hm]; decide), execAll_restore, Cpu.reg, Cpu.reg]
  by_cases h : 0 < K.emitter.x86_reg r
  · rw [if_pos h, if_pos h]
    refine foldl_update_of_notMem _ _ _ _ fun p hp he => hr ?_
    obtain ⟨hhost, hgp⟩ := hostRegs_hosted hm (hl.subset hp)
    have hpr : p.1 = r := gp_inj K.emitter hhost h (hgp.trans he)
    rw [← hpr, hgp]
    exact hp
  · rw [if_neg h, if_neg h]

theorem exec_load_same (l : List (Reg × Gpr)) : (K.exec junk c (K.emitter.load l)).mem = c.mem ∧
      (K.exec junk c (K.emitter.load l)).accesses = c.accesses ∧
      (K.exec junk c (K.emitter.load l)).control = c.control ∧
      (K.exec junk c (K.emitter.load l)).field = c.field := by
  rw [Compiler.exec, EmitterRv64.load]
  split
  · exact ⟨rfl, rfl, rfl, rfl⟩
  · rw [execAll_restore]
    exact ⟨rfl, rfl, rfl, rfl⟩

/-! ## Looking up a trace -/

theorem becomes_fast : Becomes K.emitter c (K.lookupFast junk c) (c.reg K.emitter) :=
  (((Becomes.refl K.emitter c).rcx _).rax _).rcx _

theorem lookupRegs_sublist : Compiler.lookupRegs.Sublist hostRegs := List.take_sublist 8 hostRegs

theorem keptRegs_sublist : (hostRegs.drop 8).Sublist hostRegs := List.drop_sublist 8 hostRegs

/-- The other registers are not changed by a C function. -/
theorem kept_mem {p : Reg × Gpr} (hp : p ∈ hostRegs) (h : p ∉ Compiler.lookupRegs) :
    p.2 ∉ volatile := by
  have hall : hostRegs.all (fun p => p ∈ Compiler.lookupRegs ∨ p.2 ∉ volatile) = true := by decide
  have := List.all_eq_true.mp hall p hp
  exact (of_decide_eq_true this).resolve_left h

theorem lookup_ne_kept {p q : Reg × Gpr} (hp : p ∈ Compiler.lookupRegs) (hq : q ∈ hostRegs.drop 8) :
    p.1 ≠ q.1 := by
  have hall : Compiler.lookupRegs.all (fun p => (hostRegs.drop 8).all fun q => p.1 ≠ q.1) = true := by
    decide
  exact of_decide_eq_true (List.all_eq_true.mp (List.all_eq_true.mp hall p hp) q hq)

/-- Behind the call the registers that the function may use are saved. -/
theorem lookupSlow_spec : ∃ c₂, Becomes K.emitter c c₂ (c.reg K.emitter) ∧
    (∀ p ∈ Compiler.lookupRegs, K.emitter.memory_registers = false →
      c₂.field (.ireg p.1) = c.reg K.emitter p.1) ∧
    (K.lookupSlow junk c).field = c₂.field ∧
    (∀ g, g ∉ volatile → (K.lookupSlow junk c).gpr g = c₂.gpr g) ∧
    (K.lookupSlow junk c).mem = c₂.mem ∧ (K.lookupSlow junk c).accesses = c₂.accesses ∧
    (K.lookupSlow junk c).control = c₂.control := by
  have hfast := becomes_fast K junk c
  obtain ⟨hsaved, -, -, hplace⟩ := saved_exec K junk (K.lookupFast junk c)
    lookupRegs_sublist
  rw [hfast.regs] at hplace hsaved
  refine ⟨_, hfast.trans hsaved, hplace, ?_⟩
  rw [Compiler.lookupSlow]
  dsimp only
  rw [Compiler.exec, execAll_append]
  refine ⟨rfl, fun g hg => ?_, rfl, rfl, rfl⟩
  rw [if_neg hg]
  refine Cpu.setGpr_of_ne _ ?_ _
  rintro rfl
  exact hg (by decide)

theorem becomes_found : Becomes K.emitter c (K.lookupFound junk c) (c.reg K.emitter) := by
  obtain ⟨c₂, hc₂, hplace, hfield, hgpr, hmem, haccesses, hcontrol⟩ :=
    lookupSlow_spec K junk c
  rw [Compiler.lookupFound]
  generalize hc₃ : Compiler.maskRcx (K.exec junk (K.lookupSlow junk c)
    [.mov .qword (.reg rcx) (.field .pc), .mov .qword (.reg rdx) (.reg rcx)]) = c₃
  have hkept : c₃.field = c₂.field ∧ c₃.mem = c₂.mem ∧ c₃.accesses = c₂.accesses ∧
      c₃.control = c₂.control := by
    rw [← hc₃]
    exact ⟨hfield, hmem, haccesses, hcontrol⟩
  have hgpr₃ : ∀ g, g ∉ volatile → c₃.gpr g = c₂.gpr g := by
    intro g hg
    have hrcx : g ≠ rcx := by
      rintro rfl
      exact hg (by decide)
    have hrdx : g ≠ rdx := by
      rintro rfl
      exact hg (by decide)
    rw [← hc₃, ← hgpr g hg, Compiler.maskRcx, Cpu.setGpr_of_ne _ hrcx]
    exact (Cpu.setGpr_of_ne _ hrdx _).trans (Cpu.setGpr_of_ne _ hrcx _)
  obtain ⟨hf, hm, ha, hctl⟩ := hkept
  obtain ⟨hm', ha', hctl', hf'⟩ := exec_load_same K junk c₃ Compiler.lookupRegs
  refine ⟨funext fun r => ?_, hm'.trans (hm.trans hc₂.mem), ha'.trans (ha.trans hc₂.accesses),
    hctl'.trans (hctl.trans hc₂.control), fun f hne => ?_⟩
  · rw [← congrFun hc₂.regs r]
    cases hmemory : K.emitter.memory_registers with
    | true =>
      have hload : K.emitter.load Compiler.lookupRegs = [] := if_pos hmemory
      have hnot := not_hosted_of_memory hmemory r
      rw [hload, Cpu.reg, Cpu.reg, if_neg hnot, if_neg hnot]
      exact congrFun hf _
    | false =>
      by_cases hr : (r, K.emitter.gp r) ∈ Compiler.lookupRegs
      · rw [reg_loaded K junk c₃ hmemory lookupRegs_sublist hr, hf, congrFun hc₂.regs r]
        exact hplace _ hr hmemory
      · rw [reg_not_loaded K junk c₃ hmemory lookupRegs_sublist hr, Cpu.reg, Cpu.reg]
        by_cases hhost : 0 < K.emitter.x86_reg r
        · rw [if_pos hhost, if_pos hhost]
          exact hgpr₃ _ (kept_mem (hosted_mem hmemory hhost) hr)
        · rw [if_neg hhost, if_neg hhost, hf]
  · rw [hf', hf, hc₂.field f hne]

/-- Without a trace every register is where the run loop expects it. -/
theorem lookupFail_spec (r : Reg) : (K.lookupFail junk c).field (.ireg r) = c.reg K.emitter r := by
  obtain ⟨c₂, hc₂, hplace, hfield, hgpr, -⟩ := lookupSlow_spec K junk c
  obtain ⟨-, -, hothers, hlast⟩ := saved_exec K junk (K.lookupSlow junk c) keptRegs_sublist
  rw [Compiler.lookupFail, ← congrFun hc₂.regs r]
  by_cases hhost : 0 < K.emitter.x86_reg r
  · have hmemory := memory_of_hosted hhost
    have hmem := hosted_mem hmemory hhost
    by_cases hfirst : (r, K.emitter.gp r) ∈ Compiler.lookupRegs
    · rw [hothers _ (fun p hp _ he => ?_), hfield, congrFun hc₂.regs r]
      · exact hplace _ hfirst hmemory
      · exact lookup_ne_kept hfirst hp (Field.ireg.inj he)
    · have hkept := (List.mem_append.mp ((List.take_append_drop 8 hostRegs).symm ▸ hmem)).resolve_left
        hfirst
      rw [hlast _ hkept hmemory, Cpu.reg, Cpu.reg, if_pos hhost, if_pos hhost]
      exact hgpr _ (kept_mem hmem hfirst)
  · rw [hothers _ (fun p hp hmemory he => hhost ?_), hfield, Cpu.reg, if_neg hhost]
    rw [Field.ireg.inj he]
    exact (hostRegs_hosted hmemory (List.mem_of_mem_drop hp)).1

theorem lookupFail_same : (K.lookupFail junk c).mem = c.mem ∧
    (K.lookupFail junk c).accesses = c.accesses ∧
    ∀ f, (∀ r, f ≠ .ireg r) → (K.lookupFail junk c).field f = c.field f := by
  obtain ⟨c₂, hc₂, -, hfield, -, hmem, haccesses, -⟩ := lookupSlow_spec K junk c
  obtain ⟨hsaved, -, -, -⟩ := saved_exec K junk (K.lookupSlow junk c) keptRegs_sublist
  refine ⟨hsaved.mem.trans (hmem.trans hc₂.mem), hsaved.accesses.trans (haccesses.trans hc₂.accesses),
    fun f hf => (hsaved.field f hf).trans ?_⟩
  rw [hfield, hc₂.field f hf]

/-- A trace that is looked up is entered with the registers as they were. -/
theorem Compiler.Enters.becomes {K : Compiler σ} {c c' : Cpu σ} (h : K.Enters c c') :
    Becomes K.emitter c c' (c.reg K.emitter) := by
  cases h with
  | fast junk => exact becomes_fast K junk c
  | slow junk => exact becomes_found K junk c

/-! ## The prolog and the epilog -/

theorem prolog_reg (r : Reg) :
    (K.exec junk c K.emitter.emit_prolog).reg K.emitter r = c.field (.ireg r) := by
  rw [emit_prolog]
  cases hmemory : K.emitter.memory_registers with
  | true =>
    have hload : K.emitter.load hostRegs = [] := if_pos hmemory
    rw [hload, Cpu.reg, if_neg (not_hosted_of_memory hmemory r)]
    rfl
  | false =>
    by_cases hhost : 0 < K.emitter.x86_reg r
    · exact reg_loaded K junk c hmemory (List.Sublist.refl _) (hosted_mem hmemory hhost)
    · rw [reg_not_loaded K junk c hmemory (List.Sublist.refl _) fun hr =>
        hhost (hostRegs_hosted hmemory hr).1, Cpu.reg, if_neg hhost]

theorem epilog_field (r : Reg) :
    (K.exec junk c K.emitter.emitSave).field (.ireg r) = c.reg K.emitter r := by
  obtain ⟨-, -, hothers, hplace⟩ := saved_exec K junk c (List.Sublist.refl hostRegs)
  rw [emitSave]
  by_cases hhost : 0 < K.emitter.x86_reg r
  · have hmemory := memory_of_hosted hhost
    exact hplace _ (hosted_mem hmemory hhost) hmemory
  · rw [hothers _ (fun p hp hmemory he => hhost ?_), Cpu.reg, if_neg hhost]
    rw [Field.ireg.inj he]
    exact (hostRegs_hosted hmemory hp).1

end

/-! ## The pc -/

section
variable {σ : Type} {mmu : Mmu σ} {junk : Gpr → BitVec 64} {E : EmitterRv64} {c c' : Cpu σ}

/-- The guest's registers become `g`, and the pc `pc`. -/
structure Jumps {σ : Type} (E : EmitterRv64) (c c' : Cpu σ) (g : Reg → BitVec 64) (pc : BitVec 64) :
    Prop where
  regs : c'.reg E = g
  mem : c'.mem = c.mem
  accesses : c'.accesses = c.accesses
  control : c'.control = c.control
  cause : c'.field .cause = c.field .cause
  pc : c'.field .pc = pc

theorem jumps_setField (pc : BitVec 64) : Jumps E c (c.setField .pc pc) (c.reg E) pc := by
  refine ⟨funext fun r => ?_, rfl, rfl, rfl, ?_, c.setField_self .pc pc⟩
  · rw [Cpu.reg, Cpu.reg]
    split
    · rfl
    · exact c.setField_of_ne (fun h => by cases h) pc
  · exact c.setField_of_ne (fun h => by cases h) pc

theorem Jumps.after {g : Reg → BitVec 64} {pc : BitVec 64} {d : Cpu σ} (h : Becomes E c d (c.reg E))
    (h' : Jumps E d c' g pc) : Jumps E c c' g pc :=
  ⟨h'.regs, h'.mem.trans h.mem, h'.accesses.trans h.accesses, h'.control.trans h.control,
    h'.cause.trans (h.field _ fun _ h => by cases h), h'.pc⟩

theorem Jumps.then {g g' : Reg → BitVec 64} {pc : BitVec 64} {d : Cpu σ} (h : Jumps E c d g pc)
    (h' : Becomes E d c' g') : Jumps E c c' g' pc :=
  ⟨h'.regs, h'.mem.trans h.mem, h'.accesses.trans h.accesses, h'.control.trans h.control,
    (h'.field _ fun _ h => by cases h).trans h.cause, (h'.field _ fun _ h => by cases h).trans h.pc⟩

theorem storePc_spec (K : Compiler σ) (junk : Gpr → BitVec 64) (hrun : c.control = .run)
    (pc : BitVec 64) : Jumps K.emitter c (K.storePc junk c pc) (c.reg K.emitter) (pcStored pc) := by
  rw [Compiler.storePc, Compiler.run, emit_pc, pcStored]
  by_cases h : pc < 0xffffffff
  · rw [if_pos h, if_pos h, Cpu.run_cons, Cpu.run_nil, Cpu.step_ins _ _ _ hrun, Cpu.exec_mov_field_imm]
    exact jumps_setField _
  · have hrun' : (c.setGpr rax pc).control = .run := hrun
    rw [if_neg h, if_neg h, Cpu.run_cons, Cpu.run_cons, Cpu.run_nil, Cpu.step_ins _ _ _ hrun,
      Cpu.exec_mov_reg_imm, Cpu.step_ins _ _ _ hrun', Cpu.exec_mov_field_reg, Cpu.setGpr_self]
    refine .after (becomes_rax c pc) ?_
    rw [← (becomes_rax (E := K.emitter) c pc).regs]
    exact jumps_setField pc

theorem runs_target {dec : Operands} (hrs1 : dec.rs1 ≠ rv_ireg_x0) :
    Runs mmu junk (E.emitTarget dec) c fun c' =>
      Jumps E c c' (c.reg E) (c.reg E dec.rs1 + dec.disp) := by
  have hpc : ∀ (d : Cpu σ) (f : Option Flags) (r : Gpr),
      run mmu junk [mov .qword (.field .pc) (.reg r)] ⟨d, f, .run⟩ =
        ⟨d.setField .pc (d.gpr r), f, .run⟩ := by
    intro d f r
    rw [mov, run_cons, HostState.exec, Cpu.exec_mov_field_reg, run_nil]
  have hrax : ∀ (d : Cpu σ) (v : BitVec 64),
      Jumps E d ((d.setGpr rax v).setField .pc v) (d.reg E) v := by
    intro d v
    refine .after (becomes_rax d v) ?_
    rw [← (becomes_rax (E := E) d v).regs]
    exact jumps_setField v
  intro f
  rw [emitTarget, if_neg hrs1]
  by_cases h : 0 < E.x86_reg dec.rs1
  · have hreg : c.reg E dec.rs1 = c.gpr (E.gp dec.rs1) := if_pos h
    rw [if_pos h]
    by_cases himm : dec.imm = 0
    · rw [if_pos himm, hpc, Operands.disp_zero himm, hreg]
      refine ⟨_, _, rfl, ?_⟩
      rw [show c.gpr (E.gp dec.rs1) + 0 = c.gpr (E.gp dec.rs1) from BitVec.add_zero _]
      exact jumps_setField _
    · rw [if_neg himm, run_cons, HostState.exec, Cpu.exec_lea, hpc, Cpu.setGpr_self, hreg]
      exact ⟨_, _, rfl, hrax c _⟩
  · rw [if_neg h, opnd_stored h, run_mov_reg_opnd _ (.inr rfl), run_arith_reg _ (.inr rfl), hpc,
      Cpu.setGpr_self, Cpu.setGpr_self]
    refine ⟨_, _, rfl, ?_⟩
    have hsum : ((Arith.add.eval ((cut .qword (c.reg E dec.rs1)).setWidth Size.qword.bits)
        (value mmu (c.setGpr rax (cut .qword (c.reg E dec.rs1))) .qword (.imm dec.disp))).setWidth 64 :
          BitVec 64) = c.reg E dec.rs1 + dec.disp := by
      rw [cut_qword, value_imm, setWidth_qword, setWidth_qword]
      exact BitVec.setWidth_eq _
    rw [hsum]
    have hjump := hrax (c.setGpr rax (cut .qword (c.reg E dec.rs1))) (c.reg E dec.rs1 + dec.disp)
    rw [(becomes_rax (E := E) c (cut .qword (c.reg E dec.rs1))).regs] at hjump
    exact .after (becomes_rax c _) hjump

theorem runs_jalr {dec : JitDecode} (hrs1 : dec.operands.rs1 ≠ rv_ireg_x0) :
    Runs mmu junk (E.emit_jalr dec) c fun c' =>
      Jumps E c c' (written (c.reg E) dec.operands.rd dec.cont_pc)
        (c.reg E dec.operands.rs1 + dec.operands.disp) := by
  refine Runs.append (runs_target hrs1) fun d hd => ?_
  refine Runs.mono (runs_link _ _) fun c' hc' => hd.then ?_
  rwa [hd.regs] at hc'

/-! ## Comparisons -/

theorem run_one_cmp (f : Option Flags) (x y : Operand) :
    run mmu junk [.cmp .qword x y] ⟨c, f, .run⟩ =
      ⟨c, some (cmpFlags (value mmu c .qword x) (value mmu c .qword y)), .run⟩ := by
  rw [run_cons, HostState.exec, run_nil]

/-- The flags behind the comparison of a branch. -/
theorem run_emit_cmp (hx0 : c.reg E rv_ireg_x0 = 0) (dec : Operands) (f : Option Flags) :
    ∃ c', run mmu junk (E.emit_cmp dec) ⟨c, f, .run⟩ =
        ⟨c', some (cmpFlags (c.reg E dec.rs1) (c.reg E dec.rs2)), .run⟩ ∧
      Becomes E c c' (c.reg E) := by
  rw [emit_cmp]
  by_cases h1 : dec.rs1 = rv_ireg_x0
  · rw [if_pos h1, run_xor_self _ (.inl rfl), run_one_cmp, value_reg, value_opnd, Cpu.setGpr_self, h1, hx0,
      reg_setGpr_rax]
    exact ⟨_, rfl, becomes_rax c 0⟩
  rw [if_neg h1]
  by_cases h2 : dec.rs2 = rv_ireg_x0
  · rw [if_pos h2, run_one_cmp, value_opnd, value_imm, h2, hx0]
    exact ⟨c, rfl, .refl E c⟩
  rw [if_neg h2]
  by_cases hhost : 0 < E.x86_reg dec.rs1
  · rw [if_pos hhost, opnd_hosted hhost, run_one_cmp, value_opnd, value_opnd]
    exact ⟨c, rfl, .refl E c⟩
  rw [if_neg hhost]
  by_cases hhost2 : 0 < E.x86_reg dec.rs2
  · rw [if_pos hhost2, opnd_hosted hhost2, opnd_stored hhost, run_one_cmp, value_opnd, value_opnd]
    exact ⟨c, rfl, .refl E c⟩
  · rw [if_neg hhost2, opnd_stored hhost, opnd_stored hhost2, run_mov_reg_opnd _ (.inr rfl), run_one_cmp,
      value_reg, value_opnd, Cpu.setGpr_self, reg_setGpr_rax, cut_qword]
    exact ⟨_, rfl, becomes_rax c _⟩

/-- Those behind the comparison of `ra` with an address. -/
theorem run_guard {link_addr : BitVec 64} (hfits : PcFits link_addr) (rs1 : Reg) (f : Option Flags) :
    ∃ c', run mmu junk (E.emitGuard rs1 link_addr) ⟨c, f, .run⟩ =
        ⟨c', some (cmpFlags (c.reg E rs1) link_addr), .run⟩ ∧ Becomes E c c' (c.reg E) := by
  rw [emitGuard]
  by_cases h : 0 < E.x86_reg rs1
  · rw [if_pos h, opnd_hosted h]
    by_cases hsmall : link_addr < 0xffffffff
    · have hstored := (pcStored_eq_iff link_addr).mpr hfits
      rw [pcStored, if_pos hsmall] at hstored
      rw [if_pos hsmall, hstored, run_one_cmp, value_opnd, value_imm]
      exact ⟨c, rfl, .refl E c⟩
    · rw [if_neg hsmall, run_mov_reg_imm, run_one_cmp, value_opnd, value_reg, Cpu.setGpr_self,
        reg_setGpr_rax]
      exact ⟨_, rfl, becomes_rax c _⟩
  · rw [if_neg h, opnd_stored h, run_mov_reg_imm, run_one_cmp, value_opnd, value_reg,
      Cpu.setGpr_self, reg_setGpr_rax]
    exact ⟨_, rfl, becomes_rax c _⟩

/-! ## Conditions -/

theorem holds_ge (x y : BitVec 64) :
    Cond.ge.holds (cmpFlags x y) = !Cond.l.holds (cmpFlags x y) := by
  rw [Cond.holds, Cond.holds, bne, Bool.not_not]

theorem holds_branch (op : BranchOp) (x y : BitVec 64) :
    (branchConds op).1.holds (cmpFlags x y) = op.holds x y ∧
      (branchConds op).2.holds (cmpFlags x y) = !op.holds x y := by
  have hl : decide (y.toInt ≤ x.toInt) = !x.slt y := by
    rw [BitVec.slt, ← decide_not]
    exact decide_eq_decide.mpr (Int.not_lt).symm
  have hb : decide (y.toNat ≤ x.toNat) = !x.ult y := by
    rw [BitVec.ult, ← decide_not]
    exact decide_eq_decide.mpr (Nat.not_lt).symm
  cases op with
  | beq => exact ⟨holds_e x y, congrArg (! ·) (holds_e x y)⟩
  | bne =>
    refine ⟨(congrArg (! ·) (holds_e x y)).trans (decide_not ..).symm, (holds_e x y).trans ?_⟩
    rw [BranchOp.holds, decide_not, Bool.not_not]
  | blt => exact ⟨holds_l x y, (holds_ge x y).trans (congrArg (! ·) (holds_l x y))⟩
  | bge =>
    refine ⟨(holds_ge x y).trans ((congrArg (! ·) (holds_l x y)).trans hl.symm),
      (holds_l x y).trans ?_⟩
    rw [BranchOp.holds, hl, Bool.not_not]
  | bltu => exact ⟨rfl, rfl⟩
  | bgeu =>
    refine ⟨hb.symm, ?_⟩
    rw [BranchOp.holds, hb, Bool.not_not]
    rfl

end

end RvCkpt.Jit
