import RvCkpt.Jit.LoadStoreSpec

/-! # When compiled loads and stores are right

For every load and store, every placement of its operands and both modes: the code that is emitted
does what the interpreter does, for all that a C function may leave in its registers, if and only if
a load has a destination, the result of a call is widened, a fault comes at a pc that the emitter
can write, and no earlier fault is still noted.
-/

namespace RvCkpt.Jit
open Isa
set_option autoImplicit false

/-- A memory that raises no error: an access that the host does not allow ends in a signal. -/
def Mmu.Total {σ : Type} (mmu : Mmu σ) : Prop :=
  (∀ s addr m, ∃ m' v, mmu.load s addr m = (m', .ok v)) ∧
    ∀ s addr v m, ∃ m' u, mmu.store s addr v m = (m', .ok u)

/-- The compiler with the memory that its code works on. Without the functions for the memory
management unit the guest's memory is the host's. -/
structure Compiler (σ : Type) where
  emitter : EmitterRv64
  mmu : Mmu σ
  direct : emitter.use_mmu = false → mmu.Total

namespace Compiler
variable {σ : Type} (K : Compiler σ)

def run (junk : Gpr → BitVec 64) (c : Cpu σ) (code : List Item) : Cpu σ :=
  c.run K.mmu K.emitter.create_load_store junk code

end Compiler

/-- A guest's state while a trace runs. -/
structure Represents {σ : Type} (E : EmitterRv64) (c : Cpu σ) (g : GuestState σ) : Prop where
  regs : ∀ r, c.reg E r = g.ireg r
  zero : g.ireg rv_ireg_x0 = 0
  mem : c.mem = g.mem
  accesses : c.accesses = g.accesses

/-- The code that is emitted does what the interpreter does: it goes on with the same guest, or it
leaves the trace at the instruction that failed. -/
def Agrees {σ : Type} (K : Compiler σ) (junk : Gpr → BitVec 64) (op : DataOp) (dec : Operands)
    (c : Cpu σ) (g : GuestState σ) : Prop :=
  let c' := K.run junk c (emitData K.emitter op dec)
  match interpData K.mmu op dec g with
  | (g', none) => c'.control = .run ∧ Represents K.emitter c' g'
  | (g', some _) =>
    c'.control = .term ∧ c'.field .pc = dec.pc ∧ Represents K.emitter c' g'

/-! ## The pc of a fault -/

/-- What `emit_pc` leaves in the pc. -/
def pcStored (pc : BitVec 64) : BitVec 64 :=
  if pc < 0xffffffff then (pc.setWidth 32).signExtend 64 else pc

/-- The pc fits into a sign-extended immediate, or is not written as one. -/
def PcFits (pc : BitVec 64) : Prop := pc < 0x80000000 ∨ 0xffffffff ≤ pc

theorem pcStored_eq_iff (pc : BitVec 64) : pcStored pc = pc ↔ PcFits pc := by
  rw [pcStored, PcFits]
  by_cases hbig : pc < 0xffffffff
  · rw [if_pos hbig]
    have hlt : pc.toNat < 0xffffffff := hbig
    have hlow : (pc.setWidth 32).toNat = pc.toNat := by
      rw [BitVec.toNat_setWidth]
      omega
    by_cases hsmall : pc.toNat < 0x80000000
    · have hmsb : (pc.setWidth 32).msb = false := by
        rw [BitVec.msb_eq_false_iff_two_mul_lt, hlow]
        omega
      rw [BitVec.signExtend_eq_setWidth_of_msb_false hmsb]
      refine iff_of_true ?_ (.inl hsmall)
      apply BitVec.eq_of_toNat_eq
      rw [BitVec.toNat_setWidth, hlow]
      omega
    · have hmsb : (pc.setWidth 32).msb = true := by
        rw [BitVec.msb_eq_true_iff_two_mul_ge, hlow]
        omega
      refine iff_of_false (fun h => ?_) (fun h => ?_)
      · have hnat := congrArg BitVec.toNat h
        rw [BitVec.toNat_signExtend, if_pos hmsb, BitVec.toNat_setWidth, hlow] at hnat
        omega
      · rcases h with h | h
        · exact hsmall h
        · exact absurd hbig (BitVec.not_lt.mpr h)
  · rw [if_neg hbig]
    exact iff_of_true rfl (.inr (BitVec.not_lt.mp hbig))

/-! ## Fragments -/

section
variable {σ : Type} (E : EmitterRv64) (mmu : Mmu σ) (junk : Gpr → BitVec 64)
  (wrap : MmuOp → List Ins) {c : Cpu σ}

theorem run_address (hrun : c.control = .run) (dec : Operands) :
    SameGuest E c (c.run mmu wrap junk (E.emitAddress dec)) ∧
      (c.run mmu wrap junk (E.emitAddress dec)).gpr rax = c.reg E dec.rs1 + dec.disp := by
  rw [EmitterRv64.emitAddress, Cpu.reg]
  by_cases h : 0 < E.x86_reg dec.rs1
  · rw [if_pos h, if_pos h, Cpu.run_cons, Cpu.run_nil, Cpu.step_ins _ _ _ hrun, Cpu.exec_lea]
    exact ⟨sameGuest_rax c _, c.setGpr_self rax _⟩
  · have hrun' : (c.setGpr rcx (c.field (.ireg dec.rs1))).control = .run := hrun
    rw [if_neg h, if_neg h, Cpu.run_cons, Cpu.run_cons, Cpu.run_nil, Cpu.step_ins _ _ _ hrun,
      EmitterRv64.rbp_reg, Cpu.exec_mov_reg_field, Cpu.step_ins _ _ _ hrun', Cpu.exec_lea,
      Cpu.setGpr_self]
    exact ⟨(sameGuest_rcx c _).trans (sameGuest_rax _ _), Cpu.setGpr_self _ rax _⟩

/-- Without a fault the check does nothing. -/
theorem run_check_ok (hrun : c.control = .run) (hcause : c.field .cause = 0) (dec : Operands) :
    SameGuest E c (c.run mmu wrap junk (EmitterRv64.emitCheck dec)) ∧
      (c.run mmu wrap junk (EmitterRv64.emitCheck dec)).gpr = c.gpr := by
  have hcheck : c.run mmu wrap junk (EmitterRv64.emitCheck dec) = { c with zf := true } := by
    rw [EmitterRv64.emitCheck, EmitterRv64.emit_pc]
    by_cases h : dec.pc < 0xffffffff
    · rw [if_pos h]
      simp [Cpu.run, Cpu.step, hrun, hcause]
    · rw [if_neg h]
      simp [Cpu.run, Cpu.step, hrun, hcause]
  rw [hcheck]
  exact ⟨⟨fun r => rfl, rfl, rfl, rfl, rfl⟩, rfl⟩

/-- With one it leaves the trace. -/
theorem run_check_fault (hrun : c.control = .run) (hcause : c.field .cause ≠ 0) (dec : Operands) :
    (c.run mmu wrap junk (EmitterRv64.emitCheck dec)).control = .term ∧
      (c.run mmu wrap junk (EmitterRv64.emitCheck dec)).field .pc = pcStored dec.pc ∧
      (∀ r, (c.run mmu wrap junk (EmitterRv64.emitCheck dec)).reg E r = c.reg E r) ∧
      (c.run mmu wrap junk (EmitterRv64.emitCheck dec)).mem = c.mem ∧
      (c.run mmu wrap junk (EmitterRv64.emitCheck dec)).accesses = c.accesses := by
  -- the jump to `okay` is not taken
  have hjump : ∀ code : List Item,
      c.run mmu wrap junk (.cmp .cause 0 :: .je EmitterRv64.okay :: code) =
        ({ c with zf := false } : Cpu σ).run mmu wrap junk code := by
    intro code
    have hcmp : c.step mmu wrap junk (.cmp .cause 0) = { c with zf := false } := by
      unfold Cpu.step
      rw [hrun]
      dsimp only
      rw [beq_eq_false_iff_ne.mpr hcause]
    have hje : ({ c with zf := false } : Cpu σ).step mmu wrap junk (.je EmitterRv64.okay) =
        { c with zf := false } := by
      unfold Cpu.step
      rw [hrun]
      rfl
    rw [Cpu.run_cons, hcmp, Cpu.run_cons, hje]
  have hcheck : ∃ g : Gpr → BitVec 64, (∀ r, r ≠ rax → g r = c.gpr r) ∧
      c.run mmu wrap junk (EmitterRv64.emitCheck dec) =
        { (c.setField .pc (pcStored dec.pc)) with gpr := g, zf := false, control := .term } := by
    rw [EmitterRv64.emitCheck, hjump, EmitterRv64.emit_pc, pcStored]
    by_cases h : dec.pc < 0xffffffff
    · rw [if_pos h, if_pos h]
      exact ⟨c.gpr, fun r _ => rfl, by simp [Cpu.run, Cpu.step, hrun, Cpu.setField]⟩
    · rw [if_neg h, if_neg h]
      refine ⟨(c.setGpr rax dec.pc).gpr, fun r hr => c.setGpr_of_ne hr _, ?_⟩
      simp [Cpu.run, Cpu.step, hrun, Cpu.setField, Cpu.setGpr]
  obtain ⟨g, hg, heq⟩ := hcheck
  rw [heq]
  refine ⟨rfl, Cpu.setField_self c .pc _, fun r => ?_, rfl, rfl⟩
  rw [Cpu.reg, Cpu.reg]
  by_cases h : 0 < E.x86_reg r
  · rw [if_pos h, if_pos h]
    exact hg _ (gp_scratch E h).1
  · rw [if_neg h, if_neg h]
    have hne : Field.ireg r ≠ .pc := fun h => by cases h
    exact c.setField_of_ne hne (pcStored dec.pc)

/-! ## Calls -/

/-- After a call the access has been made, and the guest's registers are as before. -/
structure AfterCall (E : EmitterRv64) (mmu : Mmu σ) (junk : Gpr → BitVec 64) (op : MmuOp)
    (c c' : Cpu σ) : Prop where
  regs : ∀ r, c'.reg E r = c.reg E r
  mem : c'.mem = (mmu.access op (c.gpr rax) (c.gpr rcx) c.mem).1
  accesses : c'.accesses = c.accesses ++ [⟨op, c.gpr rax⟩]
  control : c'.control = .run
  result : c'.gpr rax = mmu.result op (c.gpr rax) c.mem (junk rax)
  noted : ∀ e, (mmu.access op (c.gpr rax) (c.gpr rcx) c.mem).2 = some e → c'.field .cause = e
  kept : (mmu.access op (c.gpr rax) (c.gpr rcx) c.mem).2 = none →
    c'.field .cause = c.field .cause

/-- A load does not look at the value that a store would write. -/
theorem access_called {op : MmuOp} {m : Cpu σ} (hm : Called op c m) :
    mmu.access op (m.gpr rdi) (m.gpr rsi) m.mem =
      mmu.access op (c.gpr rax) (c.gpr rcx) c.mem := by
  rw [hm.addr, hm.mem]
  cases op with
  | load s => rfl
  | store s => rw [hm.value s rfl]

theorem run_call (hrun : c.control = .run) (op : MmuOp) :
    AfterCall E mmu junk op c (c.step mmu E.create_load_store junk (.call op)) := by
  obtain ⟨m, d, hm, hd, hregs, hrax, hcause, hmem, haccesses, hcontrol⟩ :=
    execAll_call mmu junk E op c
  have haccess := access_called mmu hm
  rw [Cpu.step_call _ _ _ hrun]
  refine ⟨hregs, ?_, ?_, ?_, ?_, fun e he => ?_, fun hnone => ?_⟩
  · rw [hmem, hd, ← haccess]
    rfl
  · rw [haccesses, hd, ← hm.addr, ← hm.accesses]
    rfl
  · rw [hcontrol, hd, ← hrun, ← hm.control]
    rfl
  · rw [hrax, hd, ← hm.addr, ← hm.mem, Cpu.callC]
    dsimp only
    exact if_pos rfl
  · rw [hcause, hd, Cpu.callC]
    dsimp only
    rw [haccess, he]
    exact Function.update_self Field.cause _ m.field
  · rw [hcause, hd, Cpu.callC]
    dsimp only
    rw [haccess, hnone]
    exact hm.cause

/-- After a call and its check. -/
structure Checked (E : EmitterRv64) (mmu : Mmu σ) (junk : Gpr → BitVec 64) (op : MmuOp)
    (addr value : BitVec 64) (dec : Operands) (c c' : Cpu σ) : Prop where
  regs : ∀ r, c'.reg E r = c.reg E r
  mem : c'.mem = (mmu.access op addr value c.mem).1
  accesses : c'.accesses = c.accesses ++ [⟨op, addr⟩]
  fault : ∀ e, (mmu.access op addr value c.mem).2 = some e →
    c'.control = .term ∧ c'.field .pc = pcStored dec.pc
  good : (mmu.access op addr value c.mem).2 = none → c.field .cause = 0 →
    c'.control = .run ∧ c'.gpr rax = mmu.result op addr c.mem (junk rax)
  stale : (mmu.access op addr value c.mem).2 = none → c.field .cause ≠ 0 → c'.control = .term

/-- Of the value a store uses what it writes. -/
theorem access_value (op : MmuOp) (addr : BitVec 64) {v v' : BitVec 64} (m : σ)
    (h : ∀ s, op = .store s → v.setWidth s.bits = v'.setWidth s.bits) :
    mmu.access op addr v m = mmu.access op addr v' m := by
  cases op with
  | load s => rfl
  | store s =>
    unfold Mmu.access
    dsimp only
    rw [h s rfl]

theorem run_access {c₁ : Cpu σ} {op : MmuOp} {addr value : BitVec 64} (hrun : c.control = .run)
    (hpre : SameGuest E c c₁) (haddr : c₁.gpr rax = addr)
    (hvalue : ∀ s, op = .store s → (c₁.gpr rcx).setWidth s.bits = value.setWidth s.bits)
    (dec : Operands) :
    Checked E mmu junk op addr value dec c
      (c₁.run mmu E.create_load_store junk (.call op :: EmitterRv64.emitCheck dec)) := by
  have hrun₁ : c₁.control = .run := hpre.control.trans hrun
  have haccess := access_value mmu op (c₁.gpr rax) c₁.mem hvalue
  have hcall := run_call E mmu junk hrun₁ op
  rw [Cpu.run_cons]
  generalize c₁.step mmu E.create_load_store junk (.call op) = c₂ at hcall
  have hmem := hcall.mem
  have haccesses := hcall.accesses
  have hnoted := hcall.noted
  have hkept := hcall.kept
  have hresult := hcall.result
  rw [haccess, haddr, hpre.mem] at hmem hnoted hkept
  rw [haddr, hpre.accesses] at haccesses
  rw [haddr, hpre.mem] at hresult
  have hregs : ∀ r, c₂.reg E r = c.reg E r := fun r => (hcall.regs r).trans (hpre.regs r)
  by_cases hcause : c₂.field .cause = 0
  · obtain ⟨hsame, hgpr⟩ := run_check_ok E mmu junk E.create_load_store hcall.control hcause dec
    refine ⟨fun r => (hsame.regs r).trans (hregs r), hsame.mem.trans hmem,
      hsame.accesses.trans haccesses, fun e he => ?_, fun _ _ => ?_, fun hnone hstale => ?_⟩
    · exact absurd ((hnoted e he).symm.trans hcause) e.2
    · exact ⟨hsame.control.trans hcall.control, (congrFun hgpr rax).trans hresult⟩
    · exact absurd ((hpre.cause.symm.trans (hkept hnone).symm).trans hcause) hstale
  · obtain ⟨hterm, hpc, hsame, hmem', haccesses'⟩ := run_check_fault E mmu junk
      E.create_load_store hcall.control hcause dec
    refine ⟨fun r => (hsame r).trans (hregs r), hmem'.trans hmem, haccesses'.trans haccesses,
      fun _ _ => ⟨hterm, hpc⟩, fun hnone hzero => ?_, fun _ _ => hterm⟩
    exact absurd ((hkept hnone).trans (hpre.cause.trans hzero)) hcause

end

end RvCkpt.Jit
