import RvCkpt.Jit.DataCorrect

/-! # The cause that an access leaves

A compiled load or store notes the cause of its fault, and nothing else does.
-/

namespace RvCkpt.Jit
open Isa
set_option autoImplicit false

section
variable {σ : Type} (mmu : Mmu σ) (wrap : MmuOp → List Ins) (junk : Gpr → BitVec 64)

/-- Code that leaves the noted cause as it is. -/
def KeepsCause (code : List Item) : Prop :=
  ∀ c : Cpu σ, (c.run mmu wrap junk code).field .cause = c.field .cause

variable {mmu wrap junk} {E : EmitterRv64} {code code' : List Item}

theorem KeepsCause.nil : KeepsCause mmu wrap junk [] := fun _ => rfl

theorem KeepsCause.append (h : KeepsCause mmu wrap junk code) (h' : KeepsCause mmu wrap junk code') :
    KeepsCause mmu wrap junk (code ++ code') := by
  intro c
  rw [Cpu.run_append, h', h]

theorem KeepsCause.cons {item : Item} (h : KeepsCause mmu wrap junk [item])
    (h' : KeepsCause mmu wrap junk code) : KeepsCause mmu wrap junk (item :: code) := h.append h'

/-- An instruction, where it is executed. -/
theorem KeepsCause.ins {i : Ins} (h : ∀ c : Cpu σ, (c.exec mmu junk i).field .cause = c.field .cause) :
    KeepsCause mmu wrap junk [.ins i] := by
  intro c
  rw [Cpu.run_cons, Cpu.run_nil]
  unfold Cpu.step
  cases c.control with
  | run => exact h c
  | skip label =>
    dsimp only
    split <;> rfl
  | term => rfl

theorem KeepsCause.mov {s : Size} {dst src : Operand} (h : dst ≠ .field .cause) :
    KeepsCause mmu wrap junk [.ins (.mov s dst src)] := by
  refine .ins fun c => ?_
  have hwrite : ∀ (d : Cpu σ) (v : BitVec 64), (d.write mmu s v dst).field .cause = d.field .cause := by
    intro d v
    cases dst with
    | reg | imm | data => rfl
    | field f => exact d.setField_of_ne (fun he => h (congrArg Operand.field he.symm)) _
  cases src with
  | imm v => exact hwrite c _
  | reg | field => exact hwrite c _
  | data base disp => exact (hwrite _ _).trans rfl

theorem KeepsCause.emit_pc (pc : BitVec 64) : KeepsCause mmu wrap junk (EmitterRv64.emit_pc pc) := by
  rw [EmitterRv64.emit_pc]
  split
  · exact .mov (by decide)
  · exact (KeepsCause.mov (by simp)).cons (.mov (by decide))

theorem KeepsCause.emitCheck (dec : Operands) :
    KeepsCause mmu wrap junk (EmitterRv64.emitCheck dec) := by
  have hone : ∀ item : Item, (∀ i, item ≠ .ins i) → (∀ op, item ≠ .call op) →
      KeepsCause mmu wrap junk [item] := by
    intro item hins hcall c
    rw [Cpu.run_cons, Cpu.run_nil]
    unfold Cpu.step
    cases c.control with
    | run =>
      cases item with
      | ins i => exact absurd rfl (hins i)
      | call op => exact absurd rfl (hcall op)
      | cmp | bind | jmpTerm => rfl
      | je label =>
        dsimp only
        split <;> rfl
    | skip label =>
      dsimp only
      split <;> rfl
    | term => rfl
  rw [EmitterRv64.emitCheck]
  refine (hone _ (by simp) (by simp)).cons ((hone _ (by simp) (by simp)).cons ?_)
  exact (KeepsCause.emit_pc dec.pc).append ((hone _ (by simp) (by simp)).cons
    (hone _ (by simp) (by simp)))

/-! ## Loads and stores -/

/-- Instructions are passed over where control is not. -/
theorem run_map_ins_idle {c : Cpu σ} (h : c.control ≠ .run) (l : List Ins) :
    c.run mmu wrap junk (l.map .ins) = c := by
  induction l with
  | nil => rfl
  | cons i l ih =>
    have hstep : c.step mmu wrap junk (.ins i) = c := by
      unfold Cpu.step
      cases hc : c.control with
      | run => exact absurd hc h
      | skip label => exact if_neg (by simp)
      | term => rfl
    rw [List.map_cons, Cpu.run_cons, hstep, ih]

theorem KeepsCause.toDest {op : LoadOp} {f : EmitterRv64.LoadForm} (hf : f.For mmu junk op) (rd : Reg) :
    KeepsCause mmu wrap junk (toDest E f rd) := by
  rw [Jit.toDest]
  split
  · refine .ins fun c => ?_
    rw [hf.toHost]
    rfl
  · refine KeepsCause.append ?_ (.mov (by simp [EmitterRv64.rbp_reg]))
    intro c
    by_cases hrun : c.control = .run
    · rw [run_map_ins mmu junk wrap hrun, hf.inRax]
      rfl
    · rw [run_map_ins_idle hrun]

theorem KeepsCause.directAddress (rs1 : Reg) : KeepsCause mmu wrap junk (directAddress E rs1) := by
  rw [Jit.directAddress]
  split
  · exact .nil
  · exact .mov (by simp)

theorem KeepsCause.loadDirect {op : LoadOp} {f : EmitterRv64.LoadForm} (hf : f.For mmu junk op)
    (hmmu : E.use_mmu = false) {dec : Operands} (hrd : dec.rd ≠ rv_ireg_x0) :
    KeepsCause mmu wrap junk (E.emitLoad f dec) := by
  rw [emitLoad_direct E hmmu hrd]
  refine (KeepsCause.directAddress dec.rs1).append (KeepsCause.cons (.ins fun c => ?_) ?_)
  · rw [hf.direct]
    rfl
  · split
    · exact .nil
    · exact .mov (by simp [EmitterRv64.rbp_reg])

theorem KeepsCause.storeDirect (hmmu : E.use_mmu = false) (s : Size) (dec : Operands) :
    KeepsCause mmu wrap junk (E.emitStore s dec) := by
  rw [emitStore_direct E hmmu]
  refine KeepsCause.append ?_ ((KeepsCause.directAddress dec.rs1).append (.mov (by simp)))
  rw [directValue]
  split
  · exact .nil
  · exact .mov (by simp)

/-- Behind an access and its check the cause is that of the fault. -/
theorem cause_access {c c₁ : Cpu σ} {op : MmuOp} {addr value : BitVec 64} (hrun : c.control = .run)
    (hpre : SameGuest E c c₁) (haddr : c₁.gpr rax = addr)
    (hvalue : ∀ s, op = .store s → (c₁.gpr rcx).setWidth s.bits = value.setWidth s.bits)
    (hcause : c.field .cause = 0) (dec : Operands) :
    (c₁.run mmu E.create_load_store junk (.call op :: EmitterRv64.emitCheck dec)).field .cause =
      match (mmu.access op addr value c.mem).2 with
      | none => 0
      | some e => e := by
  have haccess := access_value mmu op (c₁.gpr rax) c₁.mem hvalue
  have hcall := run_call E mmu junk (hpre.control.trans hrun) op
  have hnoted := hcall.noted
  have hkept := hcall.kept
  rw [haccess, haddr, hpre.mem] at hnoted hkept
  rw [Cpu.run_cons, KeepsCause.emitCheck dec]
  cases hfault : (mmu.access op addr value c.mem).2 with
  | none => exact (hkept hfault).trans (hpre.cause.trans hcause)
  | some e => exact hnoted e hfault

end

section
variable {σ : Type} {K : Compiler σ} {junk : Gpr → BitVec 64} {c : Cpu σ} {g : GuestState σ}

/-- The fault that the interpreter raises is the memory's. -/
theorem interp_fault (mmu : Mmu σ) (op : DataOp) (dec : Operands) (g : GuestState σ) :
    (interpData mmu op dec g).2 = faultOf mmu op dec g := by
  unfold interpData faultOf Mmu.access
  cases op with
  | load op =>
    dsimp only [DataOp.mmuOp]
    rcases mmu.load (loadSize op) (g.ireg dec.rs1 + dec.disp) g.mem with ⟨m, e | t⟩
    · rfl
    · rfl
  | store op =>
    dsimp only [DataOp.mmuOp]
    rcases mmu.store (storeSize op) (g.ireg dec.rs1 + dec.disp)
      ((g.ireg dec.rs2).setWidth (storeSize op).bits) g.mem with ⟨m, e | u⟩
    · rfl
    · rfl

theorem cause_data (junk : Gpr → BitVec 64) (op : DataOp) {dec : Operands} (hrep : Represents K.emitter c g)
    (hrun : c.control = .run) (hcause : c.field .cause = 0)
    (hload : ∀ l, op = .load l → dec.rd ≠ rv_ireg_x0) :
    (K.run junk c (emitData K.emitter op dec)).field .cause =
      match (interpData K.mmu op dec g).2 with
      | none => 0
      | some e => e := by
  rw [interp_fault, faultOf, DataOp.mmuOp.eq_def]
  cases op with
  | load op =>
    have hrd := hload op rfl
    obtain ⟨f, hemit, hf⟩ := emitData_load K.mmu junk K.emitter op
    rw [hemit]
    cases hmmu : K.emitter.use_mmu with
    | false =>
      obtain ⟨m, t, hok⟩ := (K.direct hmmu).1 (loadSize op) (g.ireg dec.rs1 + dec.disp) g.mem
      dsimp only
      rw [(access_load_ok K.mmu hok _ 0).1]
      exact (KeepsCause.loadDirect hf hmmu hrd c).trans hcause
    | true =>
      obtain ⟨hsame, haddr⟩ := run_callAddress K.mmu junk K.emitter K.emitter.create_load_store hrun
        ((hrep.regs _).trans hrep.zero) dec
      rw [hrep.regs] at haddr
      rw [emitLoad_mmu K.emitter hmmu hrd, hf.size, Compiler.run, Cpu.run_append, Cpu.run_append,
        KeepsCause.toDest hf, ← hrep.mem]
      exact cause_access hrun hsame haddr (fun s h => by cases h) hcause dec
  | store op =>
    rw [emitData_store]
    cases hmmu : K.emitter.use_mmu with
    | false =>
      obtain ⟨m, u, hok⟩ := (K.direct hmmu).2 (storeSize op) (g.ireg dec.rs1 + dec.disp)
        ((g.ireg dec.rs2).setWidth _) g.mem
      dsimp only
      rw [Mmu.access, hok]
      exact (KeepsCause.storeDirect hmmu (storeSize op) dec c).trans hcause
    | true =>
      obtain ⟨hsame, haddr⟩ := run_address K.emitter K.mmu junk K.emitter.create_load_store hrun dec
      rw [emitStore_mmu K.emitter hmmu, Compiler.run, Cpu.run_append]
      generalize c.run K.mmu K.emitter.create_load_store junk (K.emitter.emitAddress dec) = c₁
        at hsame haddr
      have hzero : c₁.reg K.emitter rv_ireg_x0 = 0 :=
        (hsame.regs _).trans ((hrep.regs _).trans hrep.zero)
      obtain ⟨v, hexec, hv⟩ := exec_callValue K.mmu junk K.emitter hzero (storeSize op) dec.rs2
      rw [Cpu.run_cons, Cpu.step_ins _ _ _ (hsame.control.trans hrun), hexec, ← hrep.mem]
      rw [hsame.regs, hrep.regs] at hv
      rw [hrep.regs] at haddr
      refine cause_access hrun (hsame.trans (sameGuest_rcx c₁ v)) ?_ ?_ hcause dec
      · rw [c₁.setGpr_of_ne (by decide), haddr]
      · rintro s hs
        cases hs
        rw [Cpu.setGpr_self, hv]

/-- What a load or store needs to be right in every state without a noted fault. -/
structure DataExact (E : EmitterRv64) (op : DataOp) (dec : Operands) : Prop where
  load : ∀ l, op = .load l → dec.rd ≠ rv_ireg_x0 ∧ (E.use_mmu = true → Widens E dec.rd l)
  pc : E.use_mmu = true → PcFits dec.pc

/-- A compiled access goes on with the guest behind it, or ends with the guest that has failed. -/
theorem data_step (op : DataOp) {dec : Operands} (hexact : DataExact K.emitter op dec)
    (hrep : Represents K.emitter c g) (hrun : c.control = .run) (hcause : c.field .cause = 0)
    (junk : Gpr → BitVec 64) :
    let c' := K.run junk c (emitData K.emitter op dec)
    Represents K.emitter c' (interpData K.mmu op dec g).1 ∧
      match (interpData K.mmu op dec g).2 with
      | none => c'.control = .run ∧ c'.field .cause = 0
      | some e => c'.control = .term ∧ c'.field .cause = e ∧ c'.field .pc = dec.pc := by
  have hmeets : Meets K op dec c g := by
    refine ⟨fun l hl => (hexact.load l hl).1, fun hmmu => ?_⟩
    split
    · exact hexact.pc hmmu
    · exact ⟨hcause, fun l hl => (hexact.load l hl).2 hmmu⟩
  have hagrees : Agrees K junk op dec c g := by
    cases op with
    | load op => exact (load_correct_iff K op dec hrep hrun).mpr hmeets junk
    | store op => exact (store_correct_iff K op dec hrep hrun).mpr hmeets junk
  have hnoted := cause_data junk op hrep hrun hcause fun l hl => (hexact.load l hl).1
  refine ⟨represents_of_agrees hagrees, ?_⟩
  cases hinterp : interpData K.mmu op dec g with
  | mk g' fault =>
    rw [hinterp] at hnoted
    cases fault with
    | none => exact ⟨((agrees_of_ok hinterp).mp hagrees).1, hnoted⟩
    | some e =>
      obtain ⟨hterm, hpc, -⟩ := (agrees_of_error hinterp).mp hagrees
      exact ⟨hterm, hnoted, hpc⟩

end

end RvCkpt.Jit
