import RvCkpt.Isa.Correct
import RvCkpt.Jit.AluSpec

/-! # Compiled operations that use `rdx`

`rdx` holds the guest's `ra`. The emitters of the upper half of a product lend it out: they keep its
value elsewhere while the host uses it for its own result, and give it back.
-/

namespace RvCkpt.Jit
open Isa HostState EmitterRv64
set_option autoImplicit false

section
variable {σ : Type} {mmu : Mmu σ} {junk : Gpr → BitVec 64} {E : EmitterRv64} {c c' : Cpu σ}
  {r rd rs : Reg} {s : Size} {g : Reg → BitVec 64}

/-! ## The register `rdx` -/

theorem inRdx_iff : E.x86_reg r = 2 ↔ E.memory_registers = false ∧ r = rv_ireg_ra := by
  obtain ⟨m, u⟩ := E
  cases m <;> cases u <;> decide +revert

theorem gp_eq_rdx (h : 0 < E.x86_reg r) : E.gp r = rdx ↔ E.x86_reg r = 2 := by
  obtain ⟨m, u⟩ := E
  cases m <;> cases u <;> revert h <;> decide +revert

theorem hosted_of_inRdx (h : E.x86_reg r = 2) : 0 < E.x86_reg r := by omega

theorem not_hosted_of_memory (h : E.memory_registers = true) (r : Reg) : ¬ 0 < E.x86_reg r := by
  rw [EmitterRv64.x86_reg, if_pos h]
  decide

theorem reg_setGpr_rdx_of_ne (h : E.x86_reg r ≠ 2) (v : BitVec 64) :
    (c.setGpr rdx v).reg E r = c.reg E r := by
  rw [Cpu.reg, Cpu.reg]
  by_cases hr : 0 < E.x86_reg r
  · rw [if_pos hr, if_pos hr, c.setGpr_of_ne fun he => h ((gp_eq_rdx hr).1 he)]
  · rw [if_neg hr, if_neg hr, Cpu.setGpr_field]

theorem reg_of_inRdx (h : E.x86_reg r = 2) : c.reg E r = c.gpr rdx := by
  have hr := hosted_of_inRdx h
  rw [Cpu.reg, if_pos hr, (gp_eq_rdx hr).2 h]

theorem reg_setGpr_rdx_of_eq (h : E.x86_reg r = 2) (v : BitVec 64) :
    (c.setGpr rdx v).reg E r = v := by rw [reg_of_inRdx h, Cpu.setGpr_self]

theorem Cpu.setGpr_idem (c : Cpu σ) (r : Gpr) (u v : BitVec 64) :
    (c.setGpr r u).setGpr r v = c.setGpr r v := by
  rw [Cpu.setGpr, Cpu.setGpr, Cpu.setGpr, Function.update_idem]

theorem Cpu.setGpr_comm (c : Cpu σ) {r r' : Gpr} (h : r ≠ r') (u v : BitVec 64) :
    (c.setGpr r u).setGpr r' v = (c.setGpr r' v).setGpr r u := by
  rw [Cpu.setGpr, Cpu.setGpr, Cpu.setGpr, Cpu.setGpr, Function.update_comm h]

/-! ## Lending -/

/-- With the value of `ra` back in `rdx`, the guest's registers would be `g`. -/
def Lent (E : EmitterRv64) (c c' : Cpu σ) (g : Reg → BitVec 64) : Prop :=
  Becomes E c (c'.setGpr rdx (g rv_ireg_ra)) g

theorem lent_iff : Lent E c c' g ↔
    (∀ r, E.x86_reg r ≠ 2 → c'.reg E r = g r) ∧ c'.mem = c.mem ∧ c'.accesses = c.accesses ∧
      c'.control = c.control ∧ ∀ f, (∀ r, f ≠ .ireg r) → c'.field f = c.field f := by
  constructor
  · intro h
    refine ⟨fun r hr => ?_, h.mem, h.accesses, h.control, h.field⟩
    rw [← reg_setGpr_rdx_of_ne hr (g rv_ireg_ra), h.regs]
  · rintro ⟨hreg, hmem, haccesses, hcontrol, hfield⟩
    refine ⟨funext fun r => ?_, hmem, haccesses, hcontrol, hfield⟩
    by_cases hr : E.x86_reg r = 2
    · rw [reg_setGpr_rdx_of_eq hr, (inRdx_iff.1 hr).2]
    · rw [reg_setGpr_rdx_of_ne hr, hreg r hr]

theorem Lent.reg (h : Lent E c c' g) (hr : E.x86_reg r ≠ 2) : c'.reg E r = g r :=
  (lent_iff.1 h).1 r hr

theorem Becomes.lent (h : Becomes E c c' g) : Lent E c c' g :=
  lent_iff.2 ⟨fun r _ => congrFun h.regs r, h.mem, h.accesses, h.control, h.field⟩

theorem Lent.becomes (h : Lent E c c' g) (hback : ∀ r, E.x86_reg r = 2 → c'.gpr rdx = g r) :
    Becomes E c c' g := by
  obtain ⟨hreg, hmem, haccesses, hcontrol, hfield⟩ := lent_iff.1 h
  refine ⟨funext fun r => ?_, hmem, haccesses, hcontrol, hfield⟩
  by_cases hr : E.x86_reg r = 2
  · rw [reg_of_inRdx hr, hback r hr]
  · exact hreg r hr

theorem Lent.rdx (h : Lent E c c' g) (v : BitVec 64) : Lent E c (c'.setGpr rdx v) g := by
  rw [Lent, Cpu.setGpr_idem]
  exact h

theorem Lent.rax (h : Lent E c c' g) (v : BitVec 64) : Lent E c (c'.setGpr rax v) g := by
  rw [Lent, c'.setGpr_comm (by decide)]
  exact h.trans ((becomes_rax _ v).of_eq h.regs)

theorem Lent.rcx (h : Lent E c c' g) (v : BitVec 64) : Lent E c (c'.setGpr rcx v) g := by
  rw [Lent, c'.setGpr_comm (by decide)]
  exact h.trans ((becomes_rcx _ v).of_eq h.regs)

/-- A register that is set while `rdx` is lent out. -/
theorem Lent.setReg (h : Lent E c c' g) (rd : Reg) (v : BitVec 64) :
    Lent E c (c'.setReg E rd v) (Function.update g rd v) := by
  obtain ⟨hreg, hmem, haccesses, hcontrol, hfield⟩ := lent_iff.1 h
  have hset := becomes_setReg (E := E) c' rd v
  refine lent_iff.2 ⟨fun r hr => ?_, hset.mem.trans hmem, hset.accesses.trans haccesses,
    hset.control.trans hcontrol, fun f hf => (hset.field f hf).trans (hfield f hf)⟩
  rw [hset.regs]
  by_cases he : r = rd
  · rw [he, Function.update_self, Function.update_self]
  · rw [Function.update_of_ne he, Function.update_of_ne he, hreg r hr]

/-- The register that was in `rdx` is to be set anyway. -/
theorem Lent.update (h : Lent E c c' g) (hrd : E.x86_reg rd = 2) (v : BitVec 64) :
    Lent E c c' (Function.update g rd v) := by
  obtain ⟨hreg, hrest⟩ := lent_iff.1 h
  refine lent_iff.2 ⟨fun r hr => ?_, hrest⟩
  have hne : r ≠ rd := fun he => hr (he.symm ▸ hrd)
  rw [hreg r hr, Function.update_of_ne hne]

/-! ## Values while `rdx` is lent out -/

@[simp] theorem gpr_setReg_rdx (c : Cpu σ) (h : E.x86_reg rd ≠ 2) (v : BitVec 64) :
    (c.setReg E rd v).gpr rdx = c.gpr rdx := by
  unfold Cpu.setReg
  by_cases hr : 0 < E.x86_reg rd
  · rw [if_pos hr]
    exact c.setGpr_of_ne (fun he => h ((gp_eq_rdx hr).1 he.symm)) v
  · rw [if_neg hr]
    rfl

theorem field_setReg_ra (hm : E.memory_registers = false) (h : E.x86_reg rd ≠ 2) (v : BitVec 64) :
    (c.setReg E rd v).field (.ireg rv_ireg_ra) = c.field (.ireg rv_ireg_ra) := by
  unfold Cpu.setReg
  by_cases hr : 0 < E.x86_reg rd
  · rw [if_pos hr]
    rfl
  · rw [if_neg hr]
    exact c.setField_of_ne (fun he => h (inRdx_iff.2 ⟨hm, (Field.ireg.inj he).symm⟩)) v

/-- The place of a register that the host holds is no part of the guest. -/
theorem becomes_slot (h : 0 < E.x86_reg r) (v : BitVec 64) :
    Becomes E c (c.setField (.ireg r) v) (c.reg E) := by
  refine ⟨funext fun r' => ?_, rfl, rfl, rfl, fun f hf => c.setField_of_ne (hf r) v⟩
  rw [Cpu.reg, Cpu.reg]
  by_cases hr : 0 < E.x86_reg r'
  · rw [if_pos hr, if_pos hr, Cpu.setField_gpr]
  · rw [if_neg hr, if_neg hr]
    have hne : r' ≠ r := fun he => hr (he ▸ h)
    exact c.setField_of_ne (fun he => hne (Field.ireg.inj he)) v

/-! ## Multiplication -/

/-- The product of two words as two words. -/
def product (signed : Bool) (x y : BitVec 64) : BitVec 128 :=
  if signed then x.signExtend 128 * y.signExtend 128 else x.zeroExtend 128 * y.zeroExtend 128

/-- The upper word of a product. -/
def high (signed : Bool) (x y : BitVec 64) : BitVec 64 := (product signed x y >>> 64).truncate 64

theorem run_mul (signed : Bool) (r : Gpr) (code : List ArithIns) (f : Option Flags) :
    run mmu junk (.mul signed r :: code) ⟨c, f, .run⟩ = run mmu junk code
      ⟨(c.setGpr rax ((product signed (c.gpr rax) (c.gpr r)).truncate 64)).setGpr rdx
        (high signed (c.gpr rax) (c.gpr r)), none, .run⟩ := rfl

variable (mmu junk) in
/-- `rax` by `rs2`: the lower word to `rax` and the upper one to `rdx`. -/
theorem run_mulRs2 (signed : Bool) (dec : Operands) (c : Cpu σ) :
    ∃ c', (∀ code f, run mmu junk (E.emitMulRs2 signed dec ++ code) ⟨c, f, .run⟩ =
        run mmu junk code ⟨c', none, .run⟩) ∧
      c'.gpr rdx = high signed (c.gpr rax) (c.reg E dec.rs2) ∧
      c'.field = c.field ∧ ∀ (c₀ : Cpu σ) (g : Reg → BitVec 64), Lent E c₀ c g → Lent E c₀ c' g := by
  rw [emitMulRs2]
  by_cases h : 0 < E.x86_reg dec.rs2
  · have hreg : c.gpr (E.gp dec.rs2) = c.reg E dec.rs2 := by rw [Cpu.reg, if_pos h]
    rw [if_pos h]
    refine ⟨_, fun code f => run_mul signed _ code f, ?_, rfl,
      fun c₀ g hlent => (hlent.rax _).rdx _⟩
    rw [Cpu.setGpr_self, hreg]
  · rw [if_neg h, opnd_stored h]
    refine ⟨_, fun code f => (run_mov_reg_opnd _ (.inr rfl) rcx dec.rs2).trans
      (run_mul signed rcx code f), ?_, rfl, fun c₀ g hlent => ((hlent.rcx _).rax _).rdx _⟩
    rw [Cpu.setGpr_self, Cpu.setGpr_of_ne _ (by decide), Cpu.setGpr_self, cut_qword]

section
variable (code : List ArithIns) (f : Option Flags)

theorem run_emitRdx (dec : Operands) :
    run mmu junk (E.emitRdx dec ++ code) ⟨c, f, .run⟩ = run mmu junk code
      ⟨if E.x86_reg dec.rd = 2 then c else c.setReg E dec.rd (c.gpr rdx), f, .run⟩ := by
  rw [emitRdx]
  by_cases h : 0 < E.x86_reg dec.rd
  · rw [if_pos h]
    by_cases h2 : E.x86_reg dec.rd = 2
    · rw [if_neg (not_not.2 h2), if_pos h2]
      rfl
    · rw [if_pos h2, if_neg h2, Cpu.setReg, if_pos h]
      exact run_mov_reg code (E.gp dec.rd) rdx
  · rw [if_neg h, if_neg fun h2 => h (hosted_of_inRdx h2), opnd_stored h]
    exact run_mov_opnd_reg code dec.rd rdx

theorem run_restoreRdx :
    run mmu junk (restoreRdx :: code) ⟨c, f, .run⟩ =
      run mmu junk code ⟨c.setGpr rdx (c.field (.ireg rv_ireg_ra)), f, .run⟩ := by
  rw [restoreRdx, mov, rbp_reg, run_cons, exec, Cpu.exec_mov_reg_field]

theorem run_saveRdx :
    run mmu junk (saveRdx :: code) ⟨c, f, .run⟩ =
      run mmu junk code ⟨c.setField (.ireg rv_ireg_ra) (c.gpr rdx), f, .run⟩ := by
  rw [saveRdx, mov, rbp_reg, run_cons, exec, Cpu.exec_mov_field_reg]

end

variable (mmu junk) in
/-- The result is in `rdx` and the value of `ra` in its place. -/
theorem run_takeRdx {dec : Operands} (hlent : Lent E c c' (c.reg E))
    (hslot : E.memory_registers = false → E.x86_reg dec.rd ≠ 2 →
      c'.field (.ireg rv_ireg_ra) = c.reg E rv_ireg_ra) (f : Option Flags) :
    ∃ c'' f', run mmu junk (E.emitRdx dec ++
        (if E.memory_registers = false ∧ E.x86_reg dec.rd ≠ 2 then [restoreRdx] else []))
        ⟨c', f, .run⟩ = ⟨c'', f', .run⟩ ∧
      Becomes E c c'' (Function.update (c.reg E) dec.rd (c'.gpr rdx)) := by
  rw [run_emitRdx]
  by_cases h2 : E.x86_reg dec.rd = 2
  · rw [if_pos h2, if_neg fun h => h.2 h2]
    refine ⟨c', f, rfl, (hlent.update h2 _).becomes fun r hr => ?_⟩
    have hra : r = dec.rd := (inRdx_iff.1 hr).2.trans (inRdx_iff.1 h2).2.symm
    rw [hra, Function.update_self]
  rw [if_neg h2]
  have hset := hlent.setReg dec.rd (c'.gpr rdx)
  by_cases hm : E.memory_registers = false
  · rw [if_pos ⟨hm, h2⟩, run_restoreRdx, run_nil]
    refine ⟨_, f, rfl, (hset.rdx _).becomes fun r hr => ?_⟩
    have hne : r ≠ dec.rd := fun he => h2 (he ▸ hr)
    rw [Cpu.setGpr_self, field_setReg_ra hm h2, hslot hm h2, Function.update_of_ne hne,
      (inRdx_iff.1 hr).2]
  · rw [if_neg fun h => hm h.1]
    exact ⟨_, f, rfl, hset.becomes fun r hr => absurd (inRdx_iff.1 hr).1 hm⟩

variable (mmu junk) in
/-- The value of `ra` is kept in its place where `p` says so. -/
theorem run_save {p : Prop} [Decidable p] (hp : p → E.memory_registers = false) (c : Cpu σ) :
    ∃ c', (∀ code f, run mmu junk ((if p then [saveRdx] else []) ++ code) ⟨c, f, .run⟩ =
        run mmu junk code ⟨c', f, .run⟩) ∧
      Becomes E c c' (c.reg E) ∧ (p → c'.field (.ireg rv_ireg_ra) = c.reg E rv_ireg_ra) := by
  by_cases h : p
  · have hra : E.x86_reg rv_ireg_ra = 2 := inRdx_iff.2 ⟨hp h, rfl⟩
    refine ⟨c.setField (.ireg rv_ireg_ra) (c.gpr rdx), fun code f => ?_, ?_, fun _ => ?_⟩
    · rw [if_pos h]
      exact run_saveRdx code f
    · exact becomes_slot (hosted_of_inRdx hra) _
    · rw [Cpu.setField_self, reg_of_inRdx hra]
  · refine ⟨c, fun code f => ?_, .refl E c, fun h' => absurd h' h⟩
    rw [if_neg h]
    rfl

theorem product_zero (signed : Bool) (x y : BitVec 64) (h : x = 0 ∨ y = 0) :
    product signed x y = 0 := by
  unfold product
  rcases h with rfl | rfl <;> cases signed <;> simp

section
variable {dec : Operands} (hx0 : c.reg E rv_ireg_x0 = 0) (hrd : dec.rd ≠ rv_ireg_x0)
include hx0 hrd

theorem sets_mulHigh (signed : Bool) : Sets mmu junk E (E.emitMulHigh signed dec) c dec.rd
    (high signed (c.reg E dec.rs1) (c.reg E dec.rs2)) := by
  rw [emitMulHigh, if_neg hrd]
  by_cases h : dec.rs1 = rv_ireg_x0 ∨ dec.rs2 = rv_ireg_x0
  · rw [if_pos h]
    refine (sets_zero dec).of_eq ?_
    rw [high, product_zero signed _ _ (h.imp (fun he => he ▸ hx0) fun he => he ▸ hx0)]
    rfl
  rw [if_neg h]
  intro f
  obtain ⟨c₁, hsave, hbecomes, hslot⟩ := run_save mmu junk (E := E)
    (p := E.memory_registers = false ∧ E.x86_reg dec.rd ≠ 2) And.left c
  simp only [List.append_assoc]
  rw [hsave]
  show ∃ c' f', run mmu junk (mov .qword (.reg rax) (E.opnd dec.rs1) ::
    (E.emitMulRs2 signed dec ++ _)) ⟨c₁, f, .run⟩ = _ ∧ _
  rw [run_mov_reg_opnd _ (.inr rfl), cut_qword, hbecomes.regs]
  obtain ⟨c₂, hmul, hhigh, hfield, hlent⟩ := run_mulRs2 mmu junk (E := E) signed dec
    (c₁.setGpr rax (c.reg E dec.rs1))
  rw [hmul]
  rw [Cpu.setGpr_self, reg_setGpr_rax, hbecomes.regs] at hhigh
  have hkept : E.memory_registers = false → E.x86_reg dec.rd ≠ 2 →
      c₂.field (.ireg rv_ireg_ra) = c.reg E rv_ireg_ra := fun hm h2 => by
    rw [hfield, Cpu.setGpr_field, hslot ⟨hm, h2⟩]
  have htake := run_takeRdx mmu junk (hlent c _ (hbecomes.lent.rax _)) hkept none
  rw [hhigh] at htake
  exact htake

end

/-! ### A signed by an unsigned number -/

theorem high_nonneg {x : BitVec 64} (hx : x.msb = false) (y : BitVec 64) :
    high false x y = BitVec.ofInt 64 (x.toInt * y.toNat / 2 ^ 64) := by
  rw [BitVec.toInt_eq_toNat_of_msb hx]
  refine (mulHigh_u x y).trans ?_
  rw [← BitVec.ofInt_natCast]
  push_cast
  rfl

/-- The upper word of a product is made from that of the opposite one. -/
theorem high_neg {x : BitVec 64} (hx : x.msb = true) (y : BitVec 64) :
    flag (x * y == 0) + (high false (-x) y ^^^ -1) =
      BitVec.ofInt 64 (x.toInt * y.toNat / 2 ^ 64) := by
  have hlt := x.isLt
  have hge : 2 ^ 63 ≤ x.toNat := by
    rw [BitVec.msb_eq_decide] at hx
    simpa using hx
  obtain ⟨n, hn⟩ : ∃ n : ℕ, x.toNat + n = 2 ^ 64 := ⟨2 ^ 64 - x.toNat, by omega⟩
  have hneg : (-x).toNat = n := by
    rw [BitVec.toNat_neg]
    omega
  have hint : x.toInt * y.toNat = -((n * y.toNat : ℕ) : ℤ) := by
    have hx' : x.toInt = -(n : ℤ) := by
      rw [BitVec.toInt_eq_msb_cond, if_pos hx]
      omega
    rw [hx', Nat.cast_mul, neg_mul]
  have hhigh : high false (-x) y = BitVec.ofNat 64 (n * y.toNat / 2 ^ 64) := by
    rw [← hneg]
    exact mulHigh_u (-x) y
  have hlow : (x * y == 0) = decide (n * y.toNat % 2 ^ 64 = 0) := by
    have hsum : x.toNat * y.toNat + n * y.toNat = 2 ^ 64 * y.toNat := by rw [← Nat.add_mul, hn]
    rw [Bool.eq_iff_iff, beq_iff_eq, decide_eq_true_iff, ← BitVec.toNat_inj, BitVec.toNat_mul]
    show _ = 0 ↔ _
    omega
  rw [hhigh, hlow, hint, show (-1 : BitVec 64) = BitVec.allOnes 64 from rfl, BitVec.xor_allOnes]
  generalize n * y.toNat = p
  by_cases hp : p % 2 ^ 64 = 0
  · have hdiv : -(p : ℤ) / 2 ^ 64 = -((p / 2 ^ 64 : ℕ) : ℤ) := by omega
    have hone : flag true = 1#64 := rfl
    rw [hdiv, BitVec.ofInt_neg, BitVec.ofInt_natCast, BitVec.neg_eq_not_add, decide_eq_true hp,
      hone, BitVec.add_comm]
  · have hdiv : -(p : ℤ) / 2 ^ 64 = -((p / 2 ^ 64 : ℕ) : ℤ) + -1 := by omega
    have hzero : flag false = 0#64 := rfl
    rw [hdiv, BitVec.ofInt_add, BitVec.ofInt_neg, BitVec.ofInt_natCast, BitVec.not_eq_neg_add,
      decide_eq_false hp, hzero, BitVec.zero_add, BitVec.sub_eq_add_neg, ofInt_neg_one]
    rfl

def ArithIns.isBind : ArithIns → Bool
  | .bind _ => true
  | _ => false

theorem run_skip_cons {i : ArithIns} (hi : i.isBind = false) (label : ℕ) (code : List ArithIns)
    (f : Option Flags) : run mmu junk (i :: code) ⟨c, f, .skip label⟩ =
      run mmu junk code ⟨c, f, .skip label⟩ := by
  have hne : i ≠ .bind label := fun he => by
    rw [he] at hi
    exact Bool.false_ne_true hi.symm
  rw [HostState.run, List.foldl_cons, HostState.step]
  dsimp only
  rw [if_neg hne, HostState.run]

/-- Code without labels. -/
def Straight (code : List ArithIns) : Prop := code.all (fun i => !i.isBind) = true

theorem Straight.notMem {code : List ArithIns} (h : Straight code) (label : ℕ) :
    .bind label ∉ code := fun hin => Bool.false_ne_true (List.all_eq_true.1 h _ hin)

theorem Straight.append {code code' : List ArithIns} (h : Straight code) (h' : Straight code') :
    Straight (code ++ code') := by
  rw [Straight, List.all_append, h, h']
  rfl

theorem Straight.ite {p : Prop} [Decidable p] {code code' : List ArithIns} (h : Straight code)
    (h' : Straight code') : Straight (if p then code else code') := by
  by_cases hp : p
  · rwa [if_pos hp]
  · rwa [if_neg hp]

theorem Straight.run_skip {code : List ArithIns} (h : Straight code) (label : ℕ)
    (code' : List ArithIns) (f : Option Flags) :
    run mmu junk (code ++ code') ⟨c, f, .skip label⟩ =
      run mmu junk code' ⟨c, f, .skip label⟩ := by
  rw [run_append, HostState.run_skip (h.notMem label)]

theorem straight_mulRs2 (signed : Bool) (dec : Operands) : Straight (E.emitMulRs2 signed dec) :=
  .ite rfl rfl

section
variable {cond : Cond} {label : ℕ} {fl : Flags} (code : List ArithIns)

theorem run_jcc_taken (h : cond.holds fl = true) :
    run mmu junk (.jcc cond label :: code) ⟨c, some fl, .run⟩ =
      run mmu junk code ⟨c, some fl, .skip label⟩ := by
  rw [run_cons, exec, if_pos h]

theorem run_jcc_not (h : cond.holds fl = false) :
    run mmu junk (.jcc cond label :: code) ⟨c, some fl, .run⟩ =
      run mmu junk code ⟨c, some fl, .run⟩ := by
  rw [run_cons, exec, if_neg (Bool.eq_false_iff.1 h)]

end

/-- A jump over code without the label. -/
theorem run_jump {skipped : List ArithIns} {label : ℕ} (h : .bind label ∉ skipped)
    (code : List ArithIns) (c : Cpu σ) (f : Option Flags) :
    run mmu junk (skipped ++ .bind label :: code) ⟨c, f, .skip label⟩ =
      run mmu junk code ⟨c, f, .run⟩ := by
  rw [run_append, run_skip h, run_bind]

variable (mmu junk) in
/-- Whether `rax` is zero, added to what is in `rcx`. -/
theorem run_flagRdx (c : Cpu σ) :
    ∃ c', (∀ code f, run mmu junk (.test .qword (.reg rax) (.reg rax) :: .setcc .e rdx ::
        .ins (.movzx .byte rdx (.reg rdx)) :: .arith .add .qword (.reg rdx) (.reg rcx) :: code)
        ⟨c, f, .run⟩ = run mmu junk code ⟨c', none, .run⟩) ∧
      c'.gpr rdx = flag (c.gpr rax == 0) + c.gpr rcx ∧ c'.field = c.field ∧
      ∀ (c₀ : Cpu σ) (g : Reg → BitVec 64), Lent E c₀ c g → Lent E c₀ c' g := by
  have hset : ∃ u : BitVec 64, put mmu c .byte (.reg rdx)
      (if Cond.e.holds (testFlags (c.gpr rax) (c.gpr rax)) then 1 else 0) = c.setGpr rdx u ∧
      u.setWidth 8 = if c.gpr rax == 0 then 1 else 0 := by
    refine ⟨_, rfl, ?_⟩
    rw [testFlags, Cond.holds, BitVec.and_self]
    dsimp only
    rw [join_setWidth _ _ (by decide)]
    cases c.gpr rax == 0 <;> rfl
  obtain ⟨u, hput, hu⟩ := hset
  have hzx : (c.setGpr rdx u).exec mmu junk (.movzx .byte rdx (.reg rdx)) =
      c.setGpr rdx (flag (c.gpr rax == 0)) := by
    show (c.setGpr rdx u).setGpr rdx ((((((c.setGpr rdx u).gpr rdx).setWidth 8).setWidth
      64).setWidth 32).setWidth 64) = _
    rw [Cpu.setGpr_self, hu, Cpu.setGpr_idem]
    cases c.gpr rax == 0 <;> rfl
  refine ⟨(c.setGpr rdx (flag (c.gpr rax == 0))).setGpr rdx (flag (c.gpr rax == 0) + c.gpr rcx),
    fun code f => ?_, Cpu.setGpr_self .., rfl, fun c₀ g hlent => (hlent.rdx _).rdx _⟩
  rw [run_cons, exec, run_cons, exec, value_reg]
  show run mmu junk _ ⟨put mmu c .byte (.reg rdx)
    (if Cond.e.holds (testFlags (c.gpr rax) (c.gpr rax)) then 1 else 0), _, .run⟩ = _
  rw [hput, run_cons, exec, hzx, run_arith_reg _ (.inr rfl), Cpu.setGpr_self, value_reg,
    Cpu.setGpr_of_ne _ (by decide)]
  refine congrArg (fun v => run mmu junk code ⟨Cpu.setGpr _ rdx v, none, .run⟩) ?_
  exact (setWidth_qword _).trans (congrArg₂ (· + ·) (setWidth_qword _) (setWidth_qword _))

variable (mmu junk) in
/-- `rdx` gets its value back where `p` says so. -/
theorem run_restore {p : Prop} [Decidable p] {g : Reg → BitVec 64} (hlent : Lent E c c' g)
    (hslot : p → c'.field (.ireg rv_ireg_ra) = g rv_ireg_ra) :
    ∃ c'', (∀ code f, run mmu junk ((if p then [restoreRdx] else []) ++ code) ⟨c', f, .run⟩ =
        run mmu junk code ⟨c'', f, .run⟩) ∧
      Lent E c c'' g ∧ c''.field = c'.field ∧ c''.gpr rcx = c'.gpr rcx ∧
      ∀ r, (E.x86_reg r = 2 → p) → c''.reg E r = g r := by
  by_cases h : p
  · refine ⟨c'.setGpr rdx (g rv_ireg_ra), fun code f => ?_, hlent.rdx _, rfl,
      Cpu.setGpr_of_ne _ (by decide) _, fun r _ => congrFun hlent.regs r⟩
    rw [if_pos h, ← hslot h]
    exact run_restoreRdx code f
  · refine ⟨c', fun code f => ?_, hlent, rfl, rfl, fun r hr => hlent.reg fun h2 => h (hr h2)⟩
    rw [if_neg h]
    rfl

/-! Whole registers. -/

section
variable (r r' : Gpr) (code : List ArithIns) (f : Option Flags)

theorem run_neg : run mmu junk (.neg .qword (.reg r) :: code) ⟨c, f, .run⟩ =
    run mmu junk code ⟨c.setGpr r (-c.gpr r), none, .run⟩ := by
  rw [run_cons, exec, put_reg c (.inr rfl), value_reg]
  refine congrArg (fun v => run mmu junk code ⟨c.setGpr r v, none, .run⟩) ?_
  exact (setWidth_qword _).trans (congrArg Neg.neg (setWidth_qword _))

theorem run_arith_imm (op : Arith) (v : BitVec 64) :
    run mmu junk (.arith op .qword (.reg r) (.imm v) :: code) ⟨c, f, .run⟩ =
      run mmu junk code ⟨c.setGpr r (op.eval (c.gpr r) v), none, .run⟩ := by
  rw [run_arith_reg code (.inr rfl), value_imm]
  refine congrArg (fun v => run mmu junk code ⟨c.setGpr r v, none, .run⟩) ?_
  exact (setWidth_qword _).trans (congrArg₂ op.eval (setWidth_qword _) (setWidth_qword _))

theorem run_arith_opnd (op : Arith) (x : Reg) :
    run mmu junk (.arith op .qword (.reg r) (E.opnd x) :: code) ⟨c, f, .run⟩ =
      run mmu junk code ⟨c.setGpr r (op.eval (c.gpr r) (c.reg E x)), none, .run⟩ := by
  rw [run_arith_reg code (.inr rfl), value_opnd]
  refine congrArg (fun v => run mmu junk code ⟨c.setGpr r v, none, .run⟩) ?_
  exact (setWidth_qword _).trans (congrArg₂ op.eval (setWidth_qword _) (setWidth_qword _))

theorem run_test : run mmu junk (.test .qword (.reg r) (.reg r) :: code) ⟨c, f, .run⟩ =
    run mmu junk code ⟨c, some (testFlags (c.gpr r) (c.gpr r)), .run⟩ := by
  rw [run_cons, exec, value_reg]
  refine congrArg (fun fl => run mmu junk code ⟨c, some fl, .run⟩) ?_
  exact congrArg₂ (testFlags (w := 64)) (setWidth_qword _) (setWidth_qword _)

end

theorem holds_ns (x : BitVec 64) : Cond.ns.holds (testFlags x x) = !x.msb := by
  rw [testFlags, BitVec.and_self]
  rfl

section
variable {dec : Operands} (hx0 : c.reg E rv_ireg_x0 = 0) (hrd : dec.rd ≠ rv_ireg_x0)
include hx0 hrd

theorem sets_mulhsu : Sets mmu junk E (E.emit_mulhsu dec) c dec.rd
    (BitVec.ofInt 64 ((c.reg E dec.rs1).toInt * (c.reg E dec.rs2).toNat / 2 ^ 64)) := by
  rw [emit_mulhsu, if_neg hrd]
  by_cases h : dec.rs1 = rv_ireg_x0 ∨ dec.rs2 = rv_ireg_x0
  · rw [if_pos h]
    refine (sets_zero dec).of_eq ?_
    rcases h with h | h
    · rw [h, hx0, show (0 : BitVec 64).toInt = 0 from rfl, Int.zero_mul]
      rfl
    · rw [h, hx0, show (0 : BitVec 64).toNat = 0 from rfl, Nat.cast_zero, Int.mul_zero]
      rfl
  rw [if_neg h]
  intro f
  obtain ⟨c₁, hsave, hbecomes, hslot⟩ := run_save mmu junk (E := E)
    (p := E.memory_registers = false ∧
      (E.x86_reg dec.rd ≠ 2 ∨ E.x86_reg dec.rs1 = 2 ∨ E.x86_reg dec.rs2 = 2)) And.left c
  have hkept : ∀ c' : Cpu σ, c'.field = c₁.field → E.memory_registers = false →
      E.x86_reg dec.rd ≠ 2 → c'.field (.ireg rv_ireg_ra) = c.reg E rv_ireg_ra :=
    fun c' hfield hm h2 => by rw [hfield, hslot ⟨hm, .inl h2⟩]
  simp only [List.append_assoc, List.cons_append, List.nil_append, emit_mv_rax_rs1]
  rw [hsave, run_mov_reg_opnd _ (.inr rfl), cut_qword, hbecomes.regs, run_test, Cpu.setGpr_self]
  by_cases hneg : (c.reg E dec.rs1).msb = true
  · rw [run_jcc_not _ (by rw [holds_ns, hneg]; rfl), run_neg, Cpu.setGpr_idem, Cpu.setGpr_self]
    obtain ⟨c₂, hmul, hhigh, hfield, hlent⟩ := run_mulRs2 mmu junk (E := E) false dec
      (c₁.setGpr rax (-c.reg E dec.rs1))
    rw [Cpu.setGpr_self, reg_setGpr_rax, hbecomes.regs] at hhigh
    rw [hmul, run_arith_imm, run_mov_reg, Cpu.setGpr_self, hhigh]
    obtain ⟨c₃, hgive, hlent₃, hfield₃, hrcx, hreg⟩ := run_restore mmu junk
      (p := E.memory_registers = false ∧ (E.x86_reg dec.rs1 = 2 ∨ E.x86_reg dec.rs2 = 2))
      (((hlent c _ (hbecomes.lent.rax _)).rdx
        (Arith.xor.eval (high false (-c.reg E dec.rs1) (c.reg E dec.rs2)) (-1))).rcx
        (Arith.xor.eval (high false (-c.reg E dec.rs1) (c.reg E dec.rs2)) (-1))) fun hp => by
          show c₂.field _ = _
          rw [hfield, Cpu.setGpr_field, hslot ⟨hp.1, .inr hp.2⟩]
    rw [Cpu.setGpr_self] at hrcx
    have hrs1 : c₃.reg E dec.rs1 = c.reg E dec.rs1 := hreg _ fun h2 =>
      ⟨(inRdx_iff.1 h2).1, .inl h2⟩
    have hrs2 : c₃.reg E dec.rs2 = c.reg E dec.rs2 := hreg _ fun h2 =>
      ⟨(inRdx_iff.1 h2).1, .inr h2⟩
    rw [hgive, run_mov_reg_opnd _ (.inr rfl), cut_qword, run_arith_opnd, Cpu.setGpr_self,
      Cpu.setGpr_idem, hrs1, reg_setGpr_rax, hrs2]
    obtain ⟨c₄, hflag, hrdx, hfield₄, hlent₄⟩ := run_flagRdx mmu junk (E := E)
      (c₃.setGpr rax (Arith.imul.eval (c.reg E dec.rs1) (c.reg E dec.rs2)))
    rw [Cpu.setGpr_self, Cpu.setGpr_of_ne _ (by decide), hrcx] at hrdx
    rw [hflag, run_cons, exec]
    have hout : .bind labelOut ∉ (.bind labelUmul :: E.emitMulRs2 false dec : List ArithIns) :=
      List.not_mem_cons_of_ne_of_not_mem (by decide) ((straight_mulRs2 false dec).notMem labelOut)
    have hkeep : c₄.field = c₁.field := by rw [hfield₄, Cpu.setGpr_field, hfield₃]; exact hfield
    have htake := run_takeRdx mmu junk (hlent₄ c _ (hlent₃.rax _)) (hkept c₄ hkeep) none
    rw [← List.cons_append, run_jump hout, ← high_neg hneg]
    rw [hrdx] at htake
    exact htake
  · have hpos : (c.reg E dec.rs1).msb = false := Bool.eq_false_iff.2 hneg
    obtain ⟨c₂, hmul, hhigh, hfield, hlent⟩ := run_mulRs2 mmu junk (E := E) false dec
      (c₁.setGpr rax (c.reg E dec.rs1))
    rw [Cpu.setGpr_self, reg_setGpr_rax, hbecomes.regs] at hhigh
    have hrestore : Straight (if E.memory_registers = false ∧
        (E.x86_reg dec.rs1 = 2 ∨ E.x86_reg dec.rs2 = 2) then [restoreRdx] else []) := .ite rfl rfl
    rw [run_jcc_taken _ (by rw [holds_ns, hpos]; rfl), run_skip_cons rfl,
      (straight_mulRs2 false dec).run_skip, run_skip_cons rfl, run_skip_cons rfl, hrestore.run_skip]
    iterate 7 rw [run_skip_cons rfl]
    have htake := run_takeRdx mmu junk (hlent c _ (hbecomes.lent.rax _)) (hkept c₂ hfield) none
    rw [run_bind, hmul, run_cons, exec, ← high_nonneg hpos]
    rw [hhigh] at htake
    exact htake

end

end

end RvCkpt.Jit
