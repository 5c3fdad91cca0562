import RvCkpt.Jit.LoadStore

/-! # Compiled loads and stores against the interpreter

When the code that is emitted for a load or a store does what the interpreter does, whatever a C
function leaves in the registers that it may use.
-/

namespace RvCkpt.Jit
open Isa
set_option autoImplicit false

/-! ## Words in parts -/

theorem getLsbD_join {w : ℕ} (v : BitVec w) (u : BitVec 64) {i : ℕ} (hi : i < 64) :
    (join v u).getLsbD i = if i < w then v.getLsbD i else u.getLsbD i := by
  rw [join, BitVec.getLsbD_or, BitVec.getLsbD_setWidth, BitVec.getLsbD_shiftLeft]
  by_cases h : i < w
  · simp [h, hi]
  · have hv : v.getLsbD i = false := BitVec.getLsbD_of_ge v i (Nat.not_lt.mp h)
    rw [if_neg h, hv, BitVec.getLsbD_ushiftRight, Nat.add_sub_cancel' (Nat.not_lt.mp h)]
    simp [h, hi]

@[simp] theorem join_setWidth {w : ℕ} (v : BitVec w) (u : BitVec 64) (hw : w ≤ 64) :
    (join v u).setWidth w = v := by
  apply BitVec.eq_of_getLsbD_eq
  intro i hi
  rw [BitVec.getLsbD_setWidth, getLsbD_join v u (by omega), if_pos hi]
  simp [hi]

theorem join_full (v u : BitVec 64) : join v u = v := by
  apply BitVec.eq_of_getLsbD_eq
  intro i hi
  rw [getLsbD_join v u hi, if_pos hi]

/-! ## Registers -/

variable (E : EmitterRv64)

/-- The guest register that a host register holds. -/
def guestOf : Gpr → Reg
  | 2 => rv_ireg_ra | 3 => rv_ireg_sp | 6 => rv_ireg_t0 | 7 => rv_ireg_t1 | 8 => rv_ireg_a0
  | 9 => rv_ireg_a1 | 10 => rv_ireg_a2 | 11 => rv_ireg_a3 | 12 => rv_ireg_a4 | 13 => rv_ireg_a5
  | 14 => rv_ireg_a6 | 15 => rv_ireg_a7
  | _ => 0

theorem guestOf_gp {r : Reg} (h : 0 < E.x86_reg r) : guestOf (E.gp r) = r := by
  obtain ⟨m, u⟩ := E
  cases m with
  | true => exact absurd h (by decide +revert)
  | false => cases u <;> decide +revert

theorem gp_scratch {r : Reg} (h : 0 < E.x86_reg r) : E.gp r ≠ rax ∧ E.gp r ≠ rcx := by
  obtain ⟨m, u⟩ := E
  cases m with
  | true => exact absurd h (by decide +revert)
  | false => cases u <;> decide +revert

theorem gp_inj {r r' : Reg} (h : 0 < E.x86_reg r) (h' : 0 < E.x86_reg r') (he : E.gp r = E.gp r') :
    r = r' := by
  rw [← guestOf_gp E h, ← guestOf_gp E h', he]

/-! ## Instructions -/

section
variable {σ : Type} (mmu : Mmu σ) (junk : Gpr → BitVec 64) (c : Cpu σ)

namespace Cpu

@[simp] theorem exec_mov_reg (a b : Gpr) :
    c.exec mmu junk (.mov .qword (.reg a) (.reg b)) = c.setGpr a (c.gpr b) := by
  simp [exec, read, write, writeGpr, Size.bits]

@[simp] theorem exec_mov_reg_field (a : Gpr) (f : Field) :
    c.exec mmu junk (.mov .qword (.reg a) (.field f)) = c.setGpr a (c.field f) := by
  simp [exec, read, write, writeGpr, Size.bits]

@[simp] theorem exec_mov_field_reg (f : Field) (b : Gpr) :
    c.exec mmu junk (.mov .qword (.field f) (.reg b)) = c.setField f (c.gpr b) := by
  simp [exec, read, write, Size.bits, join_full]

@[simp] theorem exec_mov_reg_imm (a : Gpr) (v : BitVec 64) :
    c.exec mmu junk (.mov .qword (.reg a) (.imm v)) = c.setGpr a v := by
  simp [exec, write, writeGpr, immFor]

@[simp] theorem exec_mov_field_imm (f : Field) (v : BitVec 64) :
    c.exec mmu junk (.mov .qword (.field f) (.imm v)) =
      c.setField f ((v.setWidth 32).signExtend 64) := by
  simp [exec, write, immFor, Size.bits, join_full]

@[simp] theorem exec_lea (a b : Gpr) (disp : BitVec 64) :
    c.exec mmu junk (.lea a b disp) = c.setGpr a (c.gpr b + disp) := rfl

/-! ## Code -/

variable (wrap : MmuOp → List Ins)

theorem run_append (code code' : List Item) :
    c.run mmu wrap junk (code ++ code') =
      (c.run mmu wrap junk code).run mmu wrap junk code' := by
  rw [run, run, run, List.foldl_append]

theorem run_cons (item : Item) (code : List Item) :
    c.run mmu wrap junk (item :: code) =
      (c.step mmu wrap junk item).run mmu wrap junk code := rfl

theorem run_nil : c.run mmu wrap junk [] = c := rfl

variable {c}

/-- Nothing runs behind the end of the trace. -/
theorem run_term (h : c.control = .term) (code : List Item) : c.run mmu wrap junk code = c := by
  induction code with
  | nil => rfl
  | cons item code ih =>
    have hstep : c.step mmu wrap junk item = c := by
      unfold step
      rw [h]
    rw [run_cons, hstep, ih]

theorem step_ins (h : c.control = .run) (i : Ins) :
    c.step mmu wrap junk (.ins i) = c.exec mmu junk i := by
  unfold step
  rw [h]

theorem step_call (h : c.control = .run) (op : MmuOp) :
    c.step mmu wrap junk (.call op) = c.execAll mmu junk (wrap op) := by
  unfold step
  rw [h]

end Cpu

/-! ## Saving registers -/

theorem foldl_update_of_notMem {α β γ : Type} [DecidableEq α] (key : γ → α) (val : γ → β)
    (l : List γ) (f : α → β) {a : α} (h : ∀ p ∈ l, key p ≠ a) :
    l.foldl (fun f p => Function.update f (key p) (val p)) f a = f a := by
  induction l generalizing f with
  | nil => rfl
  | cons p l ih =>
    rw [List.foldl_cons, ih _ fun q hq => h q (List.mem_cons_of_mem _ hq),
      Function.update_of_ne (h p (by simp)).symm]

theorem foldl_update_of_mem {α β γ : Type} [DecidableEq α] (key : γ → α) (val : γ → β)
    {l : List γ} (f : α → β) (hl : l.Pairwise fun p q => key p ≠ key q) {p : γ} (hp : p ∈ l) :
    l.foldl (fun f p => Function.update f (key p) (val p)) f (key p) = val p := by
  induction l generalizing f with
  | nil => cases hp
  | cons q l ih =>
    obtain ⟨hq, hl⟩ := List.pairwise_cons.mp hl
    rw [List.foldl_cons]
    obtain rfl | hp := List.mem_cons.mp hp
    · rw [foldl_update_of_notMem key val l _ fun r hr => (hq r hr).symm, Function.update_self]
    · exact ih _ hl hp

theorem execAll_save (l : List (Reg × Gpr)) :
    c.execAll mmu junk
        (l.map fun p => .mov .qword (EmitterRv64.rbp_reg p.1) (.reg p.2)) =
      { c with
        field := l.foldl (fun f p => Function.update f (.ireg p.1) (c.gpr p.2)) c.field } := by
  induction l generalizing c with
  | nil => rfl
  | cons p l ih =>
    rw [List.map_cons, Cpu.execAll, List.foldl_cons, EmitterRv64.rbp_reg, Cpu.exec_mov_field_reg]
    exact ih (c.setField (.ireg p.1) (c.gpr p.2))

theorem execAll_restore (l : List (Reg × Gpr)) :
    c.execAll mmu junk
        (l.map fun p => .mov .qword (.reg p.2) (EmitterRv64.rbp_reg p.1)) =
      { c with
        gpr := l.foldl (fun g p => Function.update g p.2 (c.field (.ireg p.1))) c.gpr } := by
  induction l generalizing c with
  | nil => rfl
  | cons p l ih =>
    rw [List.map_cons, Cpu.execAll, List.foldl_cons, EmitterRv64.rbp_reg, Cpu.exec_mov_reg_field]
    exact ih (c.setGpr p.2 (c.field (.ireg p.1)))

end

/-! ## The guest's registers -/

section
variable {σ : Type} {mmu : Mmu σ} {junk : Gpr → BitVec 64} {c c' c'' : Cpu σ}

/-- Where the value of a guest register is while a trace runs. -/
def Cpu.reg (E : EmitterRv64) (c : Cpu σ) (r : Reg) : BitVec 64 :=
  if 0 < E.x86_reg r then c.gpr (E.gp r) else c.field (.ireg r)

@[simp] theorem Cpu.setGpr_self (c : Cpu σ) (r : Gpr) (v : BitVec 64) : (c.setGpr r v).gpr r = v :=
  Function.update_self ..

theorem Cpu.setGpr_of_ne (c : Cpu σ) {r r' : Gpr} (h : r' ≠ r) (v : BitVec 64) :
    (c.setGpr r v).gpr r' = c.gpr r' := Function.update_of_ne h ..

@[simp] theorem Cpu.setGpr_field (c : Cpu σ) (r : Gpr) (v : BitVec 64) :
    (c.setGpr r v).field = c.field := rfl

@[simp] theorem Cpu.setGpr_control (c : Cpu σ) (r : Gpr) (v : BitVec 64) :
    (c.setGpr r v).control = c.control := rfl

@[simp] theorem Cpu.setField_self (c : Cpu σ) (f : Field) (v : BitVec 64) :
    (c.setField f v).field f = v := Function.update_self ..

theorem Cpu.setField_of_ne (c : Cpu σ) {f f' : Field} (h : f' ≠ f) (v : BitVec 64) :
    (c.setField f v).field f' = c.field f' := Function.update_of_ne h ..

@[simp] theorem Cpu.setField_gpr (c : Cpu σ) (f : Field) (v : BitVec 64) :
    (c.setField f v).gpr = c.gpr := rfl

theorem reg_setGpr {r : Gpr} (hr : ∀ r', 0 < E.x86_reg r' → E.gp r' ≠ r) (v : BitVec 64) (r' : Reg) :
    (c.setGpr r v).reg E r' = c.reg E r' := by
  rw [Cpu.reg, Cpu.reg]
  by_cases h : 0 < E.x86_reg r'
  · rw [if_pos h, if_pos h, c.setGpr_of_ne (hr r' h)]
  · rw [if_neg h, if_neg h, Cpu.setGpr_field]

theorem reg_setGpr_gp {rd : Reg} (hrd : 0 < E.x86_reg rd) (v : BitVec 64) (r : Reg) :
    (c.setGpr (E.gp rd) v).reg E r = Function.update (c.reg E) rd v r := by
  by_cases h : r = rd
  · rw [h, Cpu.reg, if_pos hrd, Cpu.setGpr_self, Function.update_self]
  · rw [Function.update_of_ne h, Cpu.reg, Cpu.reg]
    by_cases hr : 0 < E.x86_reg r
    · rw [if_pos hr, if_pos hr, c.setGpr_of_ne fun he => h (gp_inj E hr hrd he)]
    · rw [if_neg hr, if_neg hr, Cpu.setGpr_field]

theorem reg_setField_ireg {rd : Reg} (hrd : ¬ 0 < E.x86_reg rd) (v : BitVec 64) (r : Reg) :
    (c.setField (.ireg rd) v).reg E r = Function.update (c.reg E) rd v r := by
  by_cases h : r = rd
  · rw [h, Cpu.reg, if_neg hrd, Cpu.setField_self, Function.update_self]
  · rw [Function.update_of_ne h, Cpu.reg, Cpu.reg]
    by_cases hr : 0 < E.x86_reg r
    · rw [if_pos hr, if_pos hr, Cpu.setField_gpr]
    · rw [if_neg hr, if_neg hr, c.setField_of_ne fun he => h (Field.ireg.inj he)]

/-- Only `rax`, `rcx` and the flags have changed, and the pc. -/
structure SameGuest (E : EmitterRv64) (c c' : Cpu σ) : Prop where
  regs : ∀ r, c'.reg E r = c.reg E r
  mem : c'.mem = c.mem
  accesses : c'.accesses = c.accesses
  cause : c'.field .cause = c.field .cause
  control : c'.control = c.control

theorem SameGuest.refl (c : Cpu σ) : SameGuest E c c := ⟨fun _ => rfl, rfl, rfl, rfl, rfl⟩

variable {E}

theorem SameGuest.trans (h : SameGuest E c c') (h' : SameGuest E c' c'') : SameGuest E c c'' :=
  ⟨fun r => (h'.regs r).trans (h.regs r), h'.mem.trans h.mem, h'.accesses.trans h.accesses,
    h'.cause.trans h.cause, h'.control.trans h.control⟩

theorem sameGuest_rax (c : Cpu σ) (v : BitVec 64) : SameGuest E c (c.setGpr rax v) :=
  ⟨reg_setGpr E (fun _ h => (gp_scratch E h).1) v, rfl, rfl, rfl, rfl⟩

theorem sameGuest_rcx (c : Cpu σ) (v : BitVec 64) : SameGuest E c (c.setGpr rcx v) :=
  ⟨reg_setGpr E (fun _ h => (gp_scratch E h).2) v, rfl, rfl, rfl, rfl⟩

/-! ## A call -/

/-- A C function leaves the registers that it must save, and all fields but one. -/
theorem callC_keeps (mmu : Mmu σ) (junk : Gpr → BitVec 64) (m : Cpu σ) (op : MmuOp) :
    (∀ r, r ∉ volatile → (m.callC mmu junk op).gpr r = m.gpr r) ∧
    ∀ f, f ≠ .cause → (m.callC mmu junk op).field f = m.field f := by
  refine ⟨fun r hr => ?_, fun f hf => ?_⟩
  · have hrax : r ≠ rax := by
      rintro rfl
      exact hr (by decide)
    rw [Cpu.callC]
    dsimp only
    rw [if_neg hrax, if_neg hr]
  · rw [Cpu.callC]
    dsimp only
    cases (mmu.access op (m.gpr rdi) (m.gpr rsi) m.mem).2 with
    | some e => exact Function.update_of_ne hf _ _
    | none => rfl

theorem volatileRegs_pairwise :
    (EmitterRv64.volatileRegs.Pairwise fun p q => Field.ireg p.1 ≠ Field.ireg q.1) ∧
    EmitterRv64.volatileRegs.Pairwise fun p q => p.2 ≠ q.2 := by
  decide

theorem volatileRegs_volatile {p : Reg × Gpr} (hp : p ∈ EmitterRv64.volatileRegs) :
    p.2 ∈ volatile ∧ p.2 ≠ rax := by
  have hall : EmitterRv64.volatileRegs.all (fun p => p.2 ∈ volatile ∧ p.2 ≠ rax) = true := by decide
  simpa using List.all_eq_true.mp hall p hp

theorem volatileRegs_hosted (hm : E.memory_registers = false) {p : Reg × Gpr}
    (hp : p ∈ EmitterRv64.volatileRegs) : 0 < E.x86_reg p.1 := by
  obtain ⟨m, u⟩ := E
  subst hm
  have hall : EmitterRv64.volatileRegs.all
      (fun p => 0 < EmitterRv64.x86_reg ⟨false, u⟩ p.1) = true := by
    cases u <;> decide
  simpa using List.all_eq_true.mp hall p hp

theorem gp_volatile {r : Reg} (hm : E.memory_registers = false) (h : 0 < E.x86_reg r)
    (hgp : E.gp r ∈ volatile) : (r, E.gp r) ∈ EmitterRv64.volatileRegs := by
  obtain ⟨m, u⟩ := E
  subst hm
  cases u <;> decide +revert

/-- The host registers that hold guest registers are saved around a call, or by the function. -/
theorem gp_saved {r : Reg} (hm : E.memory_registers = false) (h : 0 < E.x86_reg r) :
    (r, E.gp r) ∈ EmitterRv64.volatileRegs ∨
      (E.gp r ∉ volatile ∧ ∀ p ∈ EmitterRv64.volatileRegs, p.2 ≠ E.gp r) := by
  by_cases hgp : E.gp r ∈ volatile
  · exact .inl (gp_volatile hm h hgp)
  · refine .inr ⟨hgp, fun p hp he => hgp ?_⟩
    rw [← he]
    exact (volatileRegs_volatile hp).1

/-- What is between saving and restoring the registers: the arguments, and the call. -/
def callArgs (op : MmuOp) : List Ins :=
  .mov .qword (.reg rdi) (.reg rax) ::
    (match op with
      | .load _ => []
      | .store _ => [.mov .qword (.reg rsi) (.reg rcx)])

theorem execAll_append (c : Cpu σ) (code code' : List Ins) :
    c.execAll mmu junk (code ++ code') = (c.execAll mmu junk code).execAll mmu junk code' := by
  rw [Cpu.execAll, Cpu.execAll, Cpu.execAll, List.foldl_append]

/-- The arguments of a call are in place. -/
structure Called (op : MmuOp) (c m : Cpu σ) : Prop where
  addr : m.gpr rdi = c.gpr rax
  value : ∀ s, op = .store s → m.gpr rsi = c.gpr rcx
  gpr : ∀ r, r ∉ volatile → m.gpr r = c.gpr r
  cause : m.field .cause = c.field .cause
  mem : m.mem = c.mem
  accesses : m.accesses = c.accesses
  control : m.control = c.control

theorem called_args (mmu : Mmu σ) (junk : Gpr → BitVec 64) (op : MmuOp) (c : Cpu σ) :
    Called op c (c.execAll mmu junk (callArgs op)) ∧
      (c.execAll mmu junk (callArgs op)).field = c.field := by
  have hrdi : ∀ r, r ∉ volatile → r ≠ rdi := by
    rintro r hr rfl
    exact hr (by decide)
  have hrsi : ∀ r, r ∉ volatile → r ≠ rsi := by
    rintro r hr rfl
    exact hr (by decide)
  cases op with
  | load s =>
    rw [callArgs, Cpu.execAll, List.foldl_cons, List.foldl_nil, Cpu.exec_mov_reg]
    exact ⟨⟨c.setGpr_self rdi _, (fun s h => by cases h),
      fun r hr => c.setGpr_of_ne (hrdi r hr) _, rfl, rfl, rfl, rfl⟩, rfl⟩
  | store s =>
    rw [callArgs, Cpu.execAll, List.foldl_cons, List.foldl_cons, List.foldl_nil, Cpu.exec_mov_reg,
      Cpu.exec_mov_reg]
    refine ⟨⟨?_, fun s _ => ?_, fun r hr => ?_, rfl, rfl, rfl, rfl⟩, rfl⟩
    · rw [Cpu.setGpr_of_ne _ (by decide), Cpu.setGpr_self]
    · rw [Cpu.setGpr_self, Cpu.setGpr_of_ne _ (by decide)]
    · rw [Cpu.setGpr_of_ne _ (hrsi r hr), Cpu.setGpr_of_ne _ (hrdi r hr)]

/-- A function of `create_load_store` does what the C function does, and keeps the guest's
registers. -/
theorem execAll_call (mmu : Mmu σ) (junk : Gpr → BitVec 64) (E : EmitterRv64) (op : MmuOp)
    (c : Cpu σ) :
    ∃ m d : Cpu σ, Called op c m ∧ d = m.callC mmu junk op ∧
      (∀ r, (c.execAll mmu junk (E.create_load_store op)).reg E r = c.reg E r) ∧
      (c.execAll mmu junk (E.create_load_store op)).gpr rax = d.gpr rax ∧
      (c.execAll mmu junk (E.create_load_store op)).field .cause = d.field .cause ∧
      (c.execAll mmu junk (E.create_load_store op)).mem = d.mem ∧
      (c.execAll mmu junk (E.create_load_store op)).accesses = d.accesses ∧
      (c.execAll mmu junk (E.create_load_store op)).control = d.control := by
  have hcode : E.create_load_store op =
      E.save_volatile ++ (callArgs op ++ (.callC op :: E.restore_volatile)) := by
    cases op <;> simp [EmitterRv64.create_load_store, callArgs]
  rw [hcode, execAll_append, execAll_append]
  cases hm : E.memory_registers with
  | true =>
    have hsave : E.save_volatile = [] := by rw [EmitterRv64.save_volatile, if_pos hm]
    have hrestore : E.restore_volatile = [] := by rw [EmitterRv64.restore_volatile, if_pos hm]
    have hreg : ∀ r, ¬ 0 < E.x86_reg r := by
      intro r
      rw [EmitterRv64.x86_reg, if_pos hm]
      decide
    rw [hsave, hrestore]
    obtain ⟨hcalled, hargs⟩ := called_args mmu junk op c
    obtain ⟨-, hfield⟩ := callC_keeps mmu junk (c.execAll mmu junk (callArgs op)) op
    refine ⟨_, _, hcalled, rfl, fun r => ?_, rfl, rfl, rfl, rfl, rfl⟩
    rw [Cpu.reg, Cpu.reg, if_neg (hreg r), if_neg (hreg r)]
    exact (hfield _ (fun h => by cases h)).trans (congrFun hargs _)
  | false =>
    have hsave : E.save_volatile = EmitterRv64.volatileRegs.map fun p =>
        .mov .qword (EmitterRv64.rbp_reg p.1) (.reg p.2) := by
      rw [EmitterRv64.save_volatile, if_neg (by rw [hm]; decide)]
    have hrestore : E.restore_volatile = EmitterRv64.volatileRegs.map fun p =>
        .mov .qword (.reg p.2) (EmitterRv64.rbp_reg p.1) := by
      rw [EmitterRv64.restore_volatile, if_neg (by rw [hm]; decide)]
    rw [hsave, hrestore, execAll_save]
    let c₁ : Cpu σ := { c with
      field := EmitterRv64.volatileRegs.foldl
        (fun f p => Function.update f (.ireg p.1) (c.gpr p.2)) c.field }
    obtain ⟨hcalled, hargs⟩ := called_args mmu junk op c₁
    obtain ⟨hgpr, hfield⟩ := callC_keeps mmu junk (c₁.execAll mmu junk (callArgs op)) op
    have hcause₁ : c₁.field .cause = c.field .cause :=
      foldl_update_of_notMem _ _ _ _ fun p _ h => by cases h
    obtain ⟨m, hm₁⟩ : ∃ m, m = c₁.execAll mmu junk (callArgs op) := ⟨_, rfl⟩
    obtain ⟨d, hd⟩ : ∃ d, d = m.callC mmu junk op := ⟨_, rfl⟩
    rw [← hm₁] at hcalled hargs hgpr hfield
    rw [← hd] at hgpr hfield
    have hrestored : m.execAll mmu junk (.callC op :: EmitterRv64.volatileRegs.map fun p =>
          .mov .qword (.reg p.2) (EmitterRv64.rbp_reg p.1)) =
        { d with
          gpr := EmitterRv64.volatileRegs.foldl
            (fun g p => Function.update g p.2 (d.field (.ireg p.1))) d.gpr } := by
      rw [hd]
      exact execAll_restore mmu junk (m.callC mmu junk op) EmitterRv64.volatileRegs
    have hslot : ∀ r, d.field (.ireg r) = c₁.field (.ireg r) :=
      fun r => (hfield _ (fun h => by cases h)).trans (congrFun hargs _)
    rw [← hm₁, hrestored]
    refine ⟨m, d, ⟨hcalled.addr, hcalled.value, hcalled.gpr, hcalled.cause.trans hcause₁,
      hcalled.mem, hcalled.accesses, hcalled.control⟩, hd, fun r => ?_, ?_, rfl, rfl, rfl, rfl⟩
    · rw [Cpu.reg, Cpu.reg]
      by_cases h : 0 < E.x86_reg r
      · rw [if_pos h, if_pos h]
        dsimp only
        obtain hsaved | ⟨hfree, hother⟩ := gp_saved hm h
        · have hback := foldl_update_of_mem (fun p : Reg × Gpr => p.2)
            (fun p => d.field (.ireg p.1)) d.gpr volatileRegs_pairwise.2 hsaved
          have hkept := foldl_update_of_mem (fun p : Reg × Gpr => Field.ireg p.1)
            (fun p => c.gpr p.2) c.field volatileRegs_pairwise.1 hsaved
          exact hback.trans ((hslot r).trans hkept)
        · rw [foldl_update_of_notMem _ _ _ _ hother, hgpr _ hfree]
          exact hcalled.gpr _ hfree
      · rw [if_neg h, if_neg h]
        dsimp only
        rw [hslot]
        refine foldl_update_of_notMem _ _ _ _ fun p hp he => h ?_
        rw [← Field.ireg.inj he]
        exact volatileRegs_hosted hm hp
    · exact foldl_update_of_notMem _ _ _ _ fun p hp => (volatileRegs_volatile hp).2

end

end RvCkpt.Jit
