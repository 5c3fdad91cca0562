import RvCkpt.Jit.WideSpec

/-! # Compiled division

The code that divides keeps the value of `ra` in `rcx` while the host's division uses `rdx`. It reads
the divisor after `rdx` has been overwritten, and tests a whole register for zero where it divides by
its lower half.
-/

namespace RvCkpt.Jit
open Isa HostState EmitterRv64
set_option autoImplicit false

/-! ## The host's division -/

section
variable {w : ℕ}

/-- The upper word of a dividend. -/
def fill (signed : Bool) (x : BitVec w) : BitVec w := if signed && x.msb then -1 else 0

theorem wide_fill_signed (x : BitVec w) : (wide (fill true x) x).toInt = x.toInt := by
  have hwide : wide (fill true x) x = x.signExtend (w + w) := by
    apply BitVec.eq_of_getLsbD_eq
    intro i hi
    rw [wide, BitVec.getLsbD_append, BitVec.getLsbD_signExtend, fill, Bool.true_and]
    by_cases hlow : i < w
    · simp [hlow, hi]
    · have hi' : i - w < w := by omega
      have hones : (-1 : BitVec w) = BitVec.allOnes w := BitVec.neg_one_eq_allOnes
      rw [if_neg hlow, if_neg hlow, hones]
      cases x.msb <;> simp [hi, hi']
  rw [hwide, BitVec.toInt_signExtend_of_le (Nat.le_add_left w w)]

theorem wide_fill_unsigned (x : BitVec w) : (wide (fill false x) x).toNat = x.toNat := by
  rw [wide, fill, Bool.false_and, if_neg Bool.false_ne_true, BitVec.toNat_append]
  simp

/-- The host divides unless the quotient does not fit. -/
theorem divide_signed {x d : BitVec w} (h : ¬(x = BitVec.intMin w ∧ d = -1)) :
    divide true (wide (fill true x) x) d = if d = 0 then none else some (x.sdiv d, x.srem d) := by
  have hfits : (x.sdiv d).toInt = x.toInt.tdiv d.toInt :=
    BitVec.toInt_sdiv_of_ne_or_ne x d (not_and_or.1 h)
  rw [divide, if_pos rfl, wide_fill_signed]
  dsimp only
  rw [ofInt_tdiv, ofInt_tmod, hfits]
  by_cases hd : d = 0
  · rw [if_pos hd, if_neg fun h' => h'.1 hd]
  · rw [if_neg hd, if_pos ⟨hd, rfl⟩]

theorem divide_unsigned (x d : BitVec w) :
    divide false (wide (fill false x) x) d = if d = 0 then none else some (x / d, x % d) := by
  rw [divide, if_neg Bool.false_ne_true, wide_fill_unsigned]
  dsimp only
  rw [ofNat_div, ofNat_mod]
  by_cases hd : d = 0
  · rw [if_pos hd, if_neg fun h => h.1 hd]
  · rw [if_neg hd, if_pos ⟨hd, Nat.lt_of_le_of_lt (Nat.div_le_self _ _) x.isLt⟩]

end

section
variable {σ : Type} {mmu : Mmu σ} {junk : Gpr → BitVec 64} {E : EmitterRv64} {c c' : Cpu σ}
  {r rd rs : Reg} {s : Size} {g : Reg → BitVec 64} {dec : Operands}

/-! ## Fragments -/

theorem run_mov_imm (hs : Wide s) (r : Gpr) (v : BitVec 64) (code : List ArithIns)
    (f : Option Flags) :
    run mmu junk (mov s (.reg r) (.imm v) :: code) ⟨c, f, .run⟩ =
      run mmu junk code ⟨c.setGpr r (cut s v), f, .run⟩ := by
  rcases hs with rfl | rfl
  · rfl
  · rw [run_mov_reg_imm, cut_qword]

theorem run_mov_reg_cut (hs : Wide s) (r r' : Gpr) (code : List ArithIns) (f : Option Flags) :
    run mmu junk (mov s (.reg r) (.reg r') :: code) ⟨c, f, .run⟩ =
      run mmu junk code ⟨c.setGpr r (cut s (c.gpr r')), f, .run⟩ := by
  rw [mov, run_cons, exec, exec_mov c s (.inl ⟨r', rfl⟩), value_reg, put_reg c hs, cut]

theorem run_cmp (x y : Operand) (code : List ArithIns) (f : Option Flags) :
    run mmu junk (.cmp s x y :: code) ⟨c, f, .run⟩ =
      run mmu junk code ⟨c, some (cmpFlags (value mmu c s x) (value mmu c s y)), .run⟩ := rfl

theorem holds_ne {w : ℕ} (x y : BitVec w) : Cond.ne.holds (cmpFlags x y) = !decide (x = y) :=
  congrArg not (holds_e x y)

/-- Whether the code takes the divisor for zero. -/
def testsZero (E : EmitterRv64) (s : Size) (rs : Reg) (v : BitVec 64) : Bool :=
  if 0 < E.x86_reg rs then decide (v = 0) else decide (v.setWidth s.bits = 0)

variable (mmu junk) in
theorem run_testRs2 (s : Size) (dec : Operands) (c : Cpu σ) :
    ∃ fl, (∀ code f, run mmu junk (E.emitTestRs2 s dec ++ code) ⟨c, f, .run⟩ =
        run mmu junk code ⟨c, some fl, .run⟩) ∧
      Cond.ne.holds fl = !testsZero E s dec.rs2 (c.reg E dec.rs2) := by
  rw [emitTestRs2, testsZero]
  by_cases h : 0 < E.x86_reg dec.rs2
  · have hreg : c.gpr (E.gp dec.rs2) = c.reg E dec.rs2 := by rw [Cpu.reg, if_pos h]
    rw [if_pos h, if_pos h]
    refine ⟨_, fun code f => run_test _ code f, ?_⟩
    rw [hreg, testFlags, BitVec.and_self]
    show (!(c.reg E dec.rs2 == 0)) = _
    rw [beq_eq_decide]
  · rw [if_neg h, if_neg h, opnd_stored h]
    refine ⟨_, fun code f => run_cmp _ _ code f, ?_⟩
    rw [holds_ne, value_opnd, value_imm, show (0 : BitVec 64).setWidth s.bits = 0 from
      BitVec.setWidth_zero ..]

/-- What makes the upper word of the dividend. -/
def clearRdx : Bool → Size → ArithIns
  | true, s => .widen s
  | false, s => .arith .xor s (.reg rdx) (.reg rdx)

variable (mmu junk) in
theorem run_clearRdx (hs : Wide s) (signed : Bool) {x : BitVec s.bits}
    (hx : (c.gpr rax).setWidth s.bits = x) (code : List ArithIns) (f : Option Flags) :
    ∃ f', run mmu junk (clearRdx signed s :: code) ⟨c, f, .run⟩ =
      run mmu junk code ⟨c.setGpr rdx ((fill signed x).setWidth 64), f', .run⟩ := by
  cases signed with
  | true =>
    refine ⟨f, ?_⟩
    rw [clearRdx, run_cons, exec, value_reg, hx, put_reg c hs, fill, Bool.true_and]
  | false =>
    refine ⟨none, ?_⟩
    rw [clearRdx, run_xor_self code hs, fill, Bool.false_and, if_neg Bool.false_ne_true]
    refine congrArg (fun v => run mmu junk code ⟨c.setGpr rdx v, none, .run⟩) ?_
    exact (BitVec.setWidth_zero ..).symm

/-- The divisor, which may have been overwritten. -/
def divisor (E : EmitterRv64) (rs : Reg) (hi y : BitVec s.bits) : BitVec s.bits :=
  if E.x86_reg rs = 2 then hi else y

theorem reg_divisor (hi : BitVec s.bits) :
    ((c.setGpr rdx (hi.setWidth 64)).reg E rs).setWidth s.bits =
      divisor E rs hi ((c.reg E rs).setWidth s.bits) := by
  rw [divisor]
  by_cases h : E.x86_reg rs = 2
  · rw [if_pos h, reg_setGpr_rdx_of_eq h, setWidth_up]
  · rw [if_neg h, reg_setGpr_rdx_of_ne h]

section
variable (hs : Wide s) {signed : Bool} {x : BitVec s.bits} (hx : (c.gpr rax).setWidth s.bits = x)
  (code : List ArithIns) (f : Option Flags)
include hs hx

variable (mmu junk) in
/-- The values of the dividend and the divisor when the host divides. -/
theorem run_division (rs : Reg) {o : Option (BitVec s.bits × BitVec s.bits)}
    (ho : divide signed (wide (fill signed x) x)
      (divisor E rs (fill signed x) ((c.reg E rs).setWidth s.bits)) = o) :
    ∃ f', run mmu junk (clearRdx signed s :: .div signed s (E.opnd rs) :: code) ⟨c, f, .run⟩ =
      run mmu junk code (match o with
        | some (q, r) => ⟨(c.setGpr rax (q.setWidth 64)).setGpr rdx (r.setWidth 64), none, .run⟩
        | none => ⟨c.setGpr rdx ((fill signed x).setWidth 64), f', .error⟩) := by
  obtain ⟨f', hclear⟩ := run_clearRdx mmu junk hs signed hx
    (.div signed s (E.opnd rs) :: code) f
  refine ⟨f', hclear.trans ?_⟩
  rw [run_cons, exec, value_reg, value_reg, value_opnd, Cpu.setGpr_self, setWidth_up,
    Cpu.setGpr_of_ne _ (by decide), hx, reg_divisor, ho]
  cases o with
  | none => rfl
  | some p =>
    dsimp only
    rw [put_reg _ hs, put_reg _ hs, Cpu.setGpr_comm _ (by decide : rax ≠ rdx), Cpu.setGpr_idem,
      Cpu.setGpr_comm _ (by decide : rdx ≠ rax)]

end

/-! ## Results -/

/-- The code has run to its end with `rd` set, or has stopped with an error. -/
def EndsWith (E : EmitterRv64) (c : Cpu σ) (rd : Reg) (h : HostState σ) : Option (BitVec 64) → Prop
  | some v => ∃ c' f', h = ⟨c', f', .run⟩ ∧ Becomes E c c' (Function.update (c.reg E) rd v)
  | none => h.status = .error

variable (mmu junk) in
def Gives (E : EmitterRv64) (code : List ArithIns) (c : Cpu σ) (rd : Reg) (o : Option (BitVec 64)) :
    Prop := ∀ f, EndsWith E c rd (run mmu junk code ⟨c, f, .run⟩) o

theorem Gives.sets {code : List ArithIns} {v : BitVec 64}
    (h : Gives mmu junk E code c rd (some v)) : Sets mmu junk E code c rd v := h

theorem ends_error (code : List ArithIns) (f : Option Flags) :
    EndsWith E c rd (run mmu junk code ⟨c', f, .error⟩) none := by
  rw [EndsWith, run_error]

/-- A register is set while `rdx` may be lent out. -/
theorem becomes_of_lent (hlent : Lent E c c' (c.reg E))
    (hback : E.x86_reg rd ≠ 2 → ∀ r, E.x86_reg r = 2 → c'.gpr rdx = c.reg E r) (v : BitVec 64) :
    Becomes E c (c'.setReg E rd v) (Function.update (c.reg E) rd v) := by
  refine (hlent.setReg rd v).becomes fun r hr => ?_
  by_cases h : E.x86_reg rd = 2
  · have he : r = rd := (inRdx_iff.1 hr).2.trans (inRdx_iff.1 h).2.symm
    rw [he, Function.update_self, ← reg_of_inRdx h, reg_setReg, Function.update_self]
  · have hne : r ≠ rd := fun he => h (he ▸ hr)
    rw [gpr_setReg_rdx c' h, hback h r hr, Function.update_of_ne hne]

theorem sx_up {s : Size} (hs : s = .dword) (u : BitVec 64) :
    sx (word32 u) = (u.setWidth s.bits).signExtend 64 := by
  subst hs
  rfl

variable (mmu junk) in
/-- The quotient to its register. -/
theorem run_quotient (dec : Operands) (hs : Wide s) (hlent : Lent E c c' (c.reg E))
    (hback : E.x86_reg dec.rd ≠ 2 → ∀ r, E.x86_reg r = 2 → c'.gpr rdx = c.reg E r)
    (f : Option Flags) :
    EndsWith E c dec.rd (run mmu junk (E.emitQuotient s dec) ⟨c', f, .run⟩)
      (some (((c'.gpr rax).setWidth s.bits).signExtend 64)) := by
  rw [emitQuotient]
  rcases hs with rfl | rfl
  · rw [if_neg (by decide), ← sx_up rfl]
    by_cases h : 0 < E.x86_reg dec.rd
    · rw [if_pos h, run_movsxd_reg, run_nil]
      refine ⟨_, f, rfl, ?_⟩
      have hset := becomes_of_lent hlent hback (sx (word32 (c'.gpr rax)))
      rw [Cpu.setReg, if_pos h] at hset
      exact hset
    · rw [if_neg h, emitEax, emitRax, opnd_stored h, run_movsxd_reg, run_mov_opnd_reg,
        Cpu.setGpr_self, run_nil]
      refine ⟨_, f, rfl, becomes_of_lent (hlent.rax _) (fun h2 r hr => ?_) _⟩
      rw [Cpu.setGpr_of_ne _ (by decide), hback h2 r hr]
  · rw [if_pos rfl, run_mov_opnd_reg, run_nil]
    refine ⟨_, f, rfl, ?_⟩
    have hv : ((c'.gpr rax).setWidth Size.qword.bits).signExtend 64 = c'.gpr rax :=
      (congrArg (BitVec.signExtend 64) (setWidth_qword _)).trans (BitVec.signExtend_eq _)
    rw [hv]
    exact becomes_of_lent hlent hback _

theorem run_giveRdx (code : List ArithIns) (f : Option Flags) :
    run mmu junk (E.giveRdx dec ++ code) ⟨c, f, .run⟩ = run mmu junk code
      ⟨if E.x86_reg dec.rd ≠ 2 then c.setGpr rdx (c.gpr rcx) else c, f, .run⟩ := by
  rw [giveRdx]
  by_cases h : E.x86_reg dec.rd ≠ 2
  · rw [if_pos h, if_pos h]
    exact run_mov_reg code rdx rcx
  · rw [if_neg h, if_neg h]
    rfl

/-- The value of `ra` is in `rcx` if it is needed. -/
def Kept (E : EmitterRv64) (dec : Operands) (c c' : Cpu σ) : Prop :=
  Lent E c c' (c.reg E) ∧ (E.x86_reg dec.rd ≠ 2 → ∀ r, E.x86_reg r = 2 → c'.gpr rcx = c.reg E r)

variable (mmu junk) in
theorem run_keepRdx (dec : Operands) (h : Becomes E c c' (c.reg E)) :
    ∃ c₁, (∀ code f, run mmu junk (E.keepRdx dec ++ code) ⟨c', f, .run⟩ =
        run mmu junk code ⟨c₁, f, .run⟩) ∧
      Becomes E c c₁ (c.reg E) ∧ Kept E dec c c₁ ∧ c₁.gpr rax = c'.gpr rax := by
  by_cases h2 : E.x86_reg dec.rd ≠ 2
  · refine ⟨c'.setGpr rcx (c'.gpr rdx), fun code f => ?_, (h.trans (becomes_rcx c' _)).of_eq h.regs,
      ⟨h.lent.rcx _, fun _ r hr => ?_⟩, Cpu.setGpr_of_ne _ (by decide) _⟩
    · rw [keepRdx, if_pos h2]
      exact run_mov_reg code rcx rdx
    · rw [Cpu.setGpr_self, ← reg_of_inRdx hr, h.regs]
  · refine ⟨c', fun code f => ?_, h, ⟨h.lent, fun h2' => absurd h2' h2⟩, rfl⟩
    rw [keepRdx, if_neg h2]
    rfl

theorem Kept.rax (h : Kept E dec c c') (v : BitVec 64) : Kept E dec c (c'.setGpr rax v) :=
  ⟨h.1.rax v, fun h2 r hr => (Cpu.setGpr_of_ne _ (by decide) v).trans (h.2 h2 r hr)⟩

theorem Kept.rdx (h : Kept E dec c c') (v : BitVec 64) : Kept E dec c (c'.setGpr rdx v) :=
  ⟨h.1.rdx v, fun h2 r hr => (Cpu.setGpr_of_ne _ (by decide) v).trans (h.2 h2 r hr)⟩

variable (mmu junk) in
theorem ends_giveRdx (h : Kept E dec c c') (v : BitVec 64) (f : Option Flags) :
    EndsWith E c dec.rd (run mmu junk (E.giveRdx dec) ⟨c'.setReg E dec.rd v, f, .run⟩) (some v) := by
  rw [← List.append_nil (E.giveRdx dec), run_giveRdx, run_nil]
  refine ⟨_, f, rfl, ?_⟩
  by_cases h2 : E.x86_reg dec.rd ≠ 2
  · rw [if_pos h2]
    refine ((h.1.setReg dec.rd v).rdx _).becomes fun r hr => ?_
    have hne : r ≠ dec.rd := fun he => h2 (he ▸ hr)
    rw [Cpu.setGpr_self, gpr_setReg_rcx, h.2 h2 r hr, Function.update_of_ne hne]
  · rw [if_neg h2]
    exact becomes_of_lent h.1 (fun h2' => absurd h2' h2) v

variable (mmu junk) in
/-- The remainder to its register. -/
theorem run_remainder (hs : Wide s) (h : Kept E dec c c') (f : Option Flags) :
    EndsWith E c dec.rd (run mmu junk (E.emitRemainder s dec ++ E.giveRdx dec) ⟨c', f, .run⟩)
      (some (((c'.gpr rdx).setWidth s.bits).signExtend 64)) := by
  rw [emitRemainder]
  rcases hs with rfl | rfl
  · rw [if_neg (by decide), ← sx_up rfl]
    by_cases hr : 0 < E.x86_reg dec.rd
    · rw [if_pos hr]
      show EndsWith E c dec.rd (run mmu junk (movsxd (E.gp dec.rd) (.reg rdx) :: E.giveRdx dec) _) _
      have hset := ends_giveRdx mmu junk h (sx (word32 (c'.gpr rdx))) f
      rw [Cpu.setReg, if_pos hr] at hset
      rw [run_movsxd_reg]
      exact hset
    · rw [if_neg hr, opnd_stored hr]
      show EndsWith E c dec.rd (run mmu junk (movsxd rdx (.reg rdx) ::
        mov .qword (E.opnd dec.rd) (.reg rdx) :: E.giveRdx dec) _) _
      rw [run_movsxd_reg, run_mov_opnd_reg, Cpu.setGpr_self]
      exact ends_giveRdx mmu junk (h.rdx _) _ f
  · have hv : ((c'.gpr rdx).setWidth Size.qword.bits).signExtend 64 = c'.gpr rdx :=
      (congrArg (BitVec.signExtend 64) (setWidth_qword _)).trans (BitVec.signExtend_eq _)
    rw [if_pos rfl, run_emitRdx, hv]
    have hset := ends_giveRdx mmu junk h (c'.gpr rdx) f
    by_cases h2 : E.x86_reg dec.rd = 2
    · rw [if_pos h2]
      have hr := hosted_of_inRdx h2
      have hsame : c'.setReg E dec.rd (c'.gpr rdx) = c' := by
        rw [Cpu.setReg, if_pos hr, (gp_eq_rdx hr).2 h2, Cpu.setGpr, Function.update_eq_self]
      rwa [hsame] at hset
    · rw [if_neg h2]
      exact hset

variable (mmu junk) in
theorem ends_quotient (hs : Wide s) (h : Kept E dec c c') (f : Option Flags) :
    EndsWith E c dec.rd (run mmu junk (E.giveRdx dec ++ .bind labelOut :: E.emitQuotient s dec)
      ⟨c', f, .run⟩) (some (((c'.gpr rax).setWidth s.bits).signExtend 64)) := by
  rw [run_giveRdx, run_cons, exec]
  by_cases h2 : E.x86_reg dec.rd ≠ 2
  · rw [if_pos h2]
    have hquotient := run_quotient mmu junk dec hs (h.1.rdx (c'.gpr rcx))
      (fun _ r hr => by rw [Cpu.setGpr_self, h.2 h2 r hr]) f
    rwa [Cpu.setGpr_of_ne _ (by decide)] at hquotient
  · rw [if_neg h2]
    exact run_quotient mmu junk dec hs h.1 (fun h2' => absurd h2' h2) f

variable (mmu junk) in
/-- A quotient that was not computed by a division. -/
theorem ends_quotient_rax (dec : Operands) (hs : Wide s) (h : Becomes E c c' (c.reg E)) (u : BitVec 64)
    (f : Option Flags) :
    EndsWith E c dec.rd (run mmu junk (E.emitQuotient s dec) ⟨c'.setGpr rax u, f, .run⟩)
      (some ((u.setWidth s.bits).signExtend 64)) := by
  have hquotient := run_quotient mmu junk dec hs (h.lent.rax u) (fun _ r hr => by
    rw [Cpu.setGpr_of_ne _ (by decide), ← reg_of_inRdx hr, h.regs]) f
  rwa [Cpu.setGpr_self] at hquotient

/-! ## The code behind the test for the overflow -/

theorem run_skip_bind {label label' : ℕ} (h : label' ≠ label) (code : List ArithIns)
    (f : Option Flags) : run mmu junk (.bind label' :: code) ⟨c, f, .skip label⟩ =
      run mmu junk code ⟨c, f, .skip label⟩ := by
  have hne : ArithIns.bind label' ≠ .bind label := fun he => h (ArithIns.bind.inj he)
  rw [HostState.run, List.foldl_cons, HostState.step]
  dsimp only
  rw [if_neg hne, HostState.run]

theorem straight_keepRdx (dec : Operands) : Straight (E.keepRdx dec) := .ite rfl rfl

theorem straight_giveRdx (dec : Operands) : Straight (E.giveRdx dec) := .ite rfl rfl

/-- What the code for a quotient makes of the dividend and of the register of the divisor. -/
def divOutcome (E : EmitterRv64) (signed : Bool) (rs : Reg) (x : BitVec s.bits) (v : BitVec 64) :
    Option (BitVec 64) :=
  if testsZero E s rs v then some (-1)
  else (divide signed (wide (fill signed x) x)
    (divisor E rs (fill signed x) (v.setWidth s.bits))).map fun p => p.1.signExtend 64

/-- What the code for a remainder makes of them. -/
def remOutcome (E : EmitterRv64) (signed : Bool) (rs : Reg) (x : BitVec s.bits) (v : BitVec 64) :
    Option (BitVec 64) :=
  if testsZero E s rs v then some (x.signExtend 64)
  else (divide signed (wide (fill signed x) x)
    (divisor E rs (fill signed x) (v.setWidth s.bits))).map fun p => p.2.signExtend 64

section
variable (hs : Wide s) (signed : Bool) {label : ℕ} (hlabel : label ≠ labelOut) (f : Option Flags)
include hs hlabel

variable (mmu junk) in
theorem ends_divRest (h : Becomes E c c' (c.reg E)) :
    EndsWith E c dec.rd (run mmu junk (E.emitTestRs2 s dec ++ .jcc .ne label ::
        mov s (.reg rax) (.imm (-1)) :: .jmp labelOut :: .bind label :: mov s (.reg rax)
        (E.opnd dec.rs1) :: (E.keepRdx dec ++ clearRdx signed s :: .div signed s (E.opnd dec.rs2) ::
        (E.giveRdx dec ++ .bind labelOut :: E.emitQuotient s dec))) ⟨c', f, .run⟩)
      (divOutcome E signed dec.rs2 ((c.reg E dec.rs1).setWidth s.bits) (c.reg E dec.rs2)) := by
  obtain ⟨fl, htest, hne⟩ := run_testRs2 mmu junk (E := E) s dec c'
  rw [h.regs] at hne
  rw [htest, divOutcome]
  by_cases hzero : testsZero E s dec.rs2 (c.reg E dec.rs2) = true
  · rw [if_pos hzero, run_jcc_not _ (by rw [hne, hzero]; rfl), run_mov_imm hs, run_cons, exec,
      run_skip_bind hlabel, run_skip_cons rfl, (straight_keepRdx dec).run_skip]
    have hclear : (clearRdx signed s).isBind = false := by cases signed <;> rfl
    rw [run_skip_cons hclear, run_skip_cons rfl, (straight_giveRdx dec).run_skip, run_bind]
    have hquotient := ends_quotient_rax mmu junk dec hs h (cut s (-1)) (some fl)
    have hones : ((cut s (-1)).setWidth s.bits).signExtend 64 = (-1 : BitVec 64) := by
      rcases hs with rfl | rfl <;> decide
    rwa [hones] at hquotient
  have hfalse : testsZero E s dec.rs2 (c.reg E dec.rs2) = false := Bool.eq_false_iff.2 hzero
  rw [if_neg hzero, run_jcc_taken _ (by rw [hne, hfalse]; rfl), run_skip_cons rfl,
    run_skip_cons rfl, run_bind, run_mov_reg_opnd _ hs, h.regs]
  obtain ⟨c₁, hkeep, hsame, hkept, hrax⟩ := run_keepRdx mmu junk dec
    ((h.trans (becomes_rax c' (cut s (c.reg E dec.rs1)))).of_eq h.regs)
  rw [Cpu.setGpr_self] at hrax
  have hx : (c₁.gpr rax).setWidth s.bits = (c.reg E dec.rs1).setWidth s.bits := by
    rw [hrax, cut_setWidth]
  obtain ⟨f', hdivision⟩ := run_division mmu junk hs hx
    (E.giveRdx dec ++ .bind labelOut :: E.emitQuotient s dec) (some fl) dec.rs2 rfl
  rw [hkeep, hdivision, hsame.regs]
  generalize divide signed _ _ = o
  cases o with
  | none => exact ends_error _ _
  | some p =>
    have hquotient := ends_quotient mmu junk hs
      ((hkept.rax (p.1.setWidth 64)).rdx (p.2.setWidth 64)) none
    rw [Cpu.setGpr_of_ne _ (by decide), Cpu.setGpr_self, setWidth_up] at hquotient
    exact hquotient

variable (mmu junk) in
theorem ends_remRest {x : BitVec s.bits} (h : Kept E dec c c')
    (hx : (c'.gpr rax).setWidth s.bits = x) :
    EndsWith E c dec.rd (run mmu junk (E.emitTestRs2 s dec ++ .jcc .ne label ::
        mov s (.reg rdx) (.reg rax) :: .jmp labelOut :: .bind label :: clearRdx signed s ::
        .div signed s (E.opnd dec.rs2) :: .bind labelOut ::
        (E.emitRemainder s dec ++ E.giveRdx dec)) ⟨c', f, .run⟩)
      (remOutcome E signed dec.rs2 x (c'.reg E dec.rs2)) := by
  obtain ⟨fl, htest, hne⟩ := run_testRs2 mmu junk (E := E) s dec c'
  rw [htest, remOutcome]
  by_cases hzero : testsZero E s dec.rs2 (c'.reg E dec.rs2) = true
  · rw [if_pos hzero, run_jcc_not _ (by rw [hne, hzero]; rfl), run_mov_reg_cut hs, run_cons, exec,
      run_skip_bind hlabel]
    have hclear : (clearRdx signed s).isBind = false := by cases signed <;> rfl
    rw [run_skip_cons hclear, run_skip_cons rfl, run_bind]
    have hremainder := run_remainder mmu junk hs (h.rdx (cut s (c'.gpr rax))) (some fl)
    rwa [Cpu.setGpr_self, cut_setWidth, hx] at hremainder
  have hfalse : testsZero E s dec.rs2 (c'.reg E dec.rs2) = false := Bool.eq_false_iff.2 hzero
  rw [if_neg hzero, run_jcc_taken _ (by rw [hne, hfalse]; rfl), run_skip_cons rfl,
    run_skip_cons rfl, run_bind]
  obtain ⟨f', hdivision⟩ := run_division mmu junk hs hx
    (.bind labelOut :: (E.emitRemainder s dec ++ E.giveRdx dec)) (some fl) dec.rs2 rfl
  rw [hdivision]
  generalize divide signed _ _ = o
  cases o with
  | none => exact ends_error _ _
  | some p =>
    dsimp only
    rw [run_cons, exec]
    have hremainder := run_remainder mmu junk hs
      ((h.rax (p.1.setWidth 64)).rdx (p.2.setWidth 64)) none
    rw [Cpu.setGpr_self, setWidth_up] at hremainder
    exact hremainder

end

/-! ## The four divisions -/

theorem intMin_low (hs : Wide s) : (intMin s).setWidth s.bits = BitVec.intMin s.bits := by
  rcases hs with rfl | rfl <;> decide

theorem ones_low (hs : Wide s) : (-1 : BitVec 64).setWidth s.bits = -1 := by
  rcases hs with rfl | rfl <;> decide

theorem zero_signExtend (hs : Wide s) : (0 : BitVec s.bits).signExtend 64 = 0 := by
  rcases hs with rfl | rfl <;> decide

theorem straight_testRs2 (s : Size) (dec : Operands) : Straight (E.emitTestRs2 s dec) :=
  .ite rfl rfl

section
variable (hs : Wide s) (hrd : dec.rd ≠ rv_ireg_x0) (hrs1 : dec.rs1 ≠ rv_ireg_x0)
  (hrs2 : dec.rs2 ≠ rv_ireg_x0)
include hs hrd hrs1 hrs2

variable (mmu junk E c) in
theorem gives_divu : Gives mmu junk E (E.emitDivu s dec) c dec.rd
    (divOutcome E false dec.rs2 ((c.reg E dec.rs1).setWidth s.bits) (c.reg E dec.rs2)) := by
  intro f
  rw [emitDivu, if_neg hrd, if_neg hrs2, if_neg hrs1]
  simp only [List.append_assoc, List.cons_append, List.nil_append, emitMvRax]
  exact ends_divRest mmu junk hs false (by decide) f (.refl E c)

variable (mmu junk E c) in
theorem gives_remu : Gives mmu junk E (E.emitRemu s dec) c dec.rd
    (remOutcome E false dec.rs2 ((c.reg E dec.rs1).setWidth s.bits) (c.reg E dec.rs2)) := by
  intro f
  rw [emitRemu, if_neg hrd, if_neg hrs2, if_neg hrs1]
  simp only [List.append_assoc, List.cons_append, List.nil_append, emitMvRax]
  obtain ⟨c₁, hkeep, hsame, hkept, -⟩ := run_keepRdx mmu junk dec (.refl E c)
  rw [hkeep, run_mov_reg_opnd _ hs, hsame.regs]
  have hrest := ends_remRest mmu junk hs false (by decide : labelDiv1 ≠ labelOut) f
    (hkept.rax (cut s (c.reg E dec.rs1))) rfl
  rw [Cpu.setGpr_self, cut_setWidth, reg_setGpr_rax, hsame.regs] at hrest
  exact hrest

variable (mmu junk E c) in
/-- The smallest number divided by -1 is told apart. -/
theorem gives_div : Gives mmu junk E (E.emitDiv s dec) c dec.rd
    (if (c.reg E dec.rs1).setWidth s.bits = BitVec.intMin s.bits ∧
        (c.reg E dec.rs2).setWidth s.bits = -1 then
      some ((BitVec.intMin s.bits).signExtend 64)
    else divOutcome E true dec.rs2 ((c.reg E dec.rs1).setWidth s.bits) (c.reg E dec.rs2)) := by
  intro f
  rw [emitDiv, if_neg hrd, if_neg hrs2, if_neg hrs1]
  simp only [List.append_assoc, List.cons_append, List.nil_append, emitMvRax]
  have hsame : Becomes E c (c.setGpr rax (cut s (intMin s))) (c.reg E) := becomes_rax c _
  rw [run_mov_imm hs, run_cmp, value_opnd, value_reg, Cpu.setGpr_self, cut_setWidth, intMin_low hs,
    hsame.regs]
  by_cases hx : (c.reg E dec.rs1).setWidth s.bits = BitVec.intMin s.bits
  · rw [run_jcc_not _ (by rw [holds_ne, hx, decide_eq_true rfl]; rfl), run_cmp, value_opnd,
      value_imm, ones_low hs, hsame.regs]
    by_cases hy : (c.reg E dec.rs2).setWidth s.bits = -1
    · rw [if_pos ⟨hx, hy⟩, run_jcc_taken _ (by rw [holds_e, hy, decide_eq_true rfl]),
        run_skip_bind (by decide), (straight_testRs2 s dec).run_skip, run_skip_cons rfl,
        run_skip_cons rfl, run_skip_cons rfl, run_skip_bind (by decide), run_skip_cons rfl,
        (straight_keepRdx dec).run_skip, run_skip_cons rfl, run_skip_cons rfl,
        (straight_giveRdx dec).run_skip, run_bind]
      have hquotient := ends_quotient_rax mmu junk dec hs (.refl E c) (cut s (intMin s))
      rw [cut_setWidth, intMin_low hs] at hquotient
      exact hquotient _
    · rw [if_neg fun h => hy h.2, run_jcc_not _ (by rw [holds_e, decide_eq_false hy]), run_cons,
        exec]
      exact ends_divRest mmu junk hs true (by decide) _ hsame
  · rw [if_neg fun h => hx h.1, run_jcc_taken _ (by rw [holds_ne, decide_eq_false hx]; rfl),
      run_skip_cons rfl, run_skip_cons rfl, run_bind]
    exact ends_divRest mmu junk hs true (by decide) _ hsame

variable (mmu junk E c) in
/-- Before that test `rdx` is cleared, with what the guest has in it. -/
theorem gives_rem : Gives mmu junk E (E.emitRem s dec) c dec.rd
    (let g := if (c.reg E dec.rs1).setWidth s.bits = BitVec.intMin s.bits then
        (c.setGpr rdx 0).reg E else c.reg E
    if (c.reg E dec.rs1).setWidth s.bits = BitVec.intMin s.bits ∧
        (g dec.rs2).setWidth s.bits = -1 then some 0
    else remOutcome E true dec.rs2 ((g dec.rs1).setWidth s.bits) (g dec.rs2)) := by
  intro f
  rw [emitRem, if_neg hrd, if_neg hrs2, if_neg hrs1]
  simp only [List.append_assoc, List.cons_append, List.nil_append, emitMvRax]
  obtain ⟨c₁, hkeep, hsame, hkept, -⟩ := run_keepRdx mmu junk dec (.refl E c)
  rw [hkeep, run_mov_imm hs, run_cmp, value_opnd, value_reg, Cpu.setGpr_self, cut_setWidth,
    intMin_low hs, reg_setGpr_rax, hsame.regs]
  by_cases hx : (c.reg E dec.rs1).setWidth s.bits = BitVec.intMin s.bits
  · obtain ⟨c₂, hc₂⟩ : ∃ c₂, c₂ = (c₁.setGpr rax (cut s (intMin s))).setGpr rdx 0 := ⟨_, rfl⟩
    have hreg : c₂.reg E = (c.setGpr rdx 0).reg E := funext fun r => by
      rw [hc₂]
      by_cases hr : E.x86_reg r = 2
      · rw [reg_setGpr_rdx_of_eq hr, reg_setGpr_rdx_of_eq hr]
      · rw [reg_setGpr_rdx_of_ne hr, reg_setGpr_rdx_of_ne hr, reg_setGpr_rax, hsame.regs]
    have hkept₂ : Kept E dec c c₂ := hc₂ ▸ (hkept.rax _).rdx _
    have hrdx : c₂.gpr rdx = 0 := by rw [hc₂, Cpu.setGpr_self]
    rw [if_pos hx, run_jcc_not _ (by rw [holds_ne, hx, decide_eq_true rfl]; rfl),
      run_xor_self _ (.inl rfl), ← hc₂, run_cmp, value_opnd,
      value_imm, ones_low hs, hreg]
    by_cases hy : ((c.setGpr rdx 0).reg E dec.rs2).setWidth s.bits = -1
    · rw [if_pos ⟨hx, hy⟩, run_jcc_taken _ (by rw [holds_e, hy, decide_eq_true rfl]),
        run_skip_bind (by decide), run_skip_cons rfl, (straight_testRs2 s dec).run_skip,
        run_skip_cons rfl, run_skip_cons rfl, run_skip_cons rfl, run_skip_bind (by decide),
        run_skip_cons rfl, run_skip_cons rfl, run_bind]
      have hremainder := run_remainder mmu junk hs hkept₂
      have hzero : (0 : BitVec 64).setWidth s.bits = 0 := BitVec.setWidth_zero ..
      rw [hrdx, hzero, zero_signExtend hs] at hremainder
      exact hremainder _
    · rw [if_neg fun h => hy h.2, run_jcc_not _ (by rw [holds_e, decide_eq_false hy]), run_cons,
        exec, run_mov_reg_opnd _ hs, hreg]
      have hrest := fun f => ends_remRest mmu junk hs true (by decide : labelDiv2 ≠ labelOut) f
        (hkept₂.rax (cut s ((c.setGpr rdx 0).reg E dec.rs1))) rfl
      rw [Cpu.setGpr_self, cut_setWidth, reg_setGpr_rax, hreg] at hrest
      exact hrest _
  · rw [if_neg hx, if_neg fun h => hx h.1, run_jcc_taken _ (by
      rw [holds_ne, decide_eq_false hx]; rfl), run_skip_cons rfl, run_skip_cons rfl,
      run_skip_cons rfl, run_bind, run_mov_reg_opnd _ hs, reg_setGpr_rax, Cpu.setGpr_idem,
      hsame.regs]
    have hrest := fun f => ends_remRest mmu junk hs true (by decide : labelDiv2 ≠ labelOut) f
      (hkept.rax (cut s (c.reg E dec.rs1))) rfl
    rw [Cpu.setGpr_self, cut_setWidth, reg_setGpr_rax, hsame.regs] at hrest
    exact hrest _

end

end

end RvCkpt.Jit
