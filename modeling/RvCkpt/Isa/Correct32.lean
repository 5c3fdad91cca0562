import RvCkpt.Isa.Correct
import RvCkpt.Isa.Hidden
import RvCkpt.Isa.Product

/-! # The 32-bit interpreter and the architecture -/

namespace RvCkpt.Isa
open ByteMem
set_option autoImplicit false

/-! ## Operations of RV32 -/

theorem BranchOp.taken32_eq (op : BranchOp) (x y : BitVec 32) : op.taken32 x y = op.holds x y := by
  cases op with
  | beq => exact beq_eq_decide x y
  | bne =>
    have h : (x != y) = !decide (x = y) := congrArg not (beq_eq_decide x y)
    simp only [taken32, holds, h, ne_eq, decide_not]
  | blt => rfl
  | bge => simp only [taken32, holds, BitVec.slt, ← decide_not, not_lt]
  | bltu => rfl
  | bgeu => simp only [taken32, holds, BitVec.ult, ← decide_not, not_lt]

theorem ImmOp.eval32_eq (so : ShiftOver) {op : ImmOp} {dec : Decode} (hop : dec.op = .imm op)
    (hword : op.isWord = false) (h : Encodable 32 dec) (x : BitVec 32) :
    op.eval32 so x dec.imm = some (op.result x dec.imm) := by
  unfold Encodable at h
  rw [hop] at h
  have himm : dec.imm.signExtend 32 = dec.imm := BitVec.signExtend_eq _
  cases op with
  | addi => exact congrArg some (ofInt_toInt_add x dec.imm).symm
  | slti => rfl
  | sltiu | xori | ori | andi =>
    rw [result, if_neg (by decide), compute, himm]
    rfl
  | slli => exact congrArg some (shift_imm so .left x h)
  | srli => exact congrArg some (shift_imm so .right x h)
  | srai => exact congrArg some (shift_imm so .arith x h)
  | addiw | slliw | srliw | sraiw => cases hword

/-- The shift amounts for which the result is the specified one. -/
def RegOp.Exact32 (op : RegOp) (y : BitVec 32) : Prop :=
  match op with
  | .sll | .srl | .sra => y.toNat % 2 ^ 7 < 32
  | _ => True

instance (op : RegOp) (y : BitVec 32) : Decidable (op.Exact32 y) := by
  unfold RegOp.Exact32
  split <;> infer_instance

theorem RegOp.eval32_iff {op : RegOp} (hword : op.isWord = false) (x y : BitVec 32) :
    (∀ so, op.eval32 so x y = some (op.result x y)) ↔ op.Exact32 y := by
  have always : ∀ {p : ShiftOver → Prop}, (∀ so, p so) → ((∀ so, p so) ↔ True) :=
    fun h => iff_of_true h trivial
  have shifted : ∀ kind : Shift,
      (∀ so, some (shift so kind x (y &&& 0b1111111).toNat) =
        some (kind.apply x (y.toNat % 32))) ↔ y.toNat % 2 ^ 7 < 32 := by
    intro kind
    simp only [Option.some.injEq]
    exact regShift_iff (by decide) (by decide) kind x y _ rfl
  cases op with
  | add => exact always fun _ => congrArg some (ofInt_toInt_add x y).symm
  | sub => exact always fun _ => congrArg some (ofInt_toInt_sub x y).symm
  | sll => exact shifted .left
  | srl => exact shifted .right
  | sra => exact shifted .arith
  | slt | sltu | xor | or | and => exact always fun _ => rfl
  | mul => exact always fun _ => congrArg some (ofInt_toInt_mul x y).symm
  | mulh => exact always fun _ => congrArg some (mulh_eq (n := 16) rfl (by decide) x y)
  | mulhsu => exact always fun _ => congrArg some (mulhsu_eq (n := 16) rfl (by decide) x y)
  | mulhu => exact always fun _ => congrArg some (mulhu_eq (n := 16) rfl (by decide) x y)
  | div => exact always fun _ => congrArg some (quotient_eq (by decide) x y).symm
  | divu => exact always fun _ => congrArg some (quotientU_eq x y).symm
  | rem => exact always fun _ => congrArg some (remainder_eq (by decide) x y).symm
  | remu => exact always fun _ => congrArg some (remainderU_eq x y).symm
  | addw | subw | sllw | srlw | sraw | mulw | divw | divuw | remw | remuw => cases hword

theorem RegOp.eval32_isSome {op : RegOp} (hword : op.isWord = false) (so : ShiftOver)
    (x y : BitVec 32) : ∃ v, op.eval32 so x y = some v := by
  cases op with
  | addw | subw | sllw | srlw | sraw | mulw | divw | divuw | remw | remuw => cases hword
  | _ => exact ⟨_, rfl⟩

theorem LoadOp.extend32_eq {op : LoadOp} (h : (Op.load op).needs64 = false) (m : Mem) (addr : ℕ) :
    op.extend32 (m.read addr op.bytes) = some (op.result m addr) := by
  cases op with
  | lb | lh => rfl
  | lw => exact congrArg some (BitVec.signExtend_eq _).symm
  | lbu => exact congrArg some (read_truncate m addr 32 (n := 1) (v := 8) rfl).symm
  | lhu => exact congrArg some (read_truncate m addr 32 (n := 2) (v := 16) rfl).symm
  | lwu | ld => cases h

/-! ## Instructions of RV32 -/

/-- The processor behind an executed instruction. -/
def Core.after {w : ℕ} (out : Core w × BitVec w) : Core w := out.1.goto (out.1.pc + out.2)

theorem Core.after_setReg {w : ℕ} {s : Core w} (hx0 : s.ireg rv_ireg_x0 = 0) (rd : Reg)
    (v off : BitVec w) : after (s.setReg rd v, off) = (s.write rd v).goto (s.pc + off) := by
  unfold Core.write
  by_cases hrd : rd = rv_ireg_x0
  · rw [if_pos hrd, hrd, setReg, if_pos rfl, ← hx0, Function.update_eq_self]
    rfl
  · rw [if_neg hrd, setReg, if_neg hrd]
    rfl

/-- The interpreter accepts the instruction and does what the architecture says. -/
structure Meets32 (so : ShiftOver) (dec : Decode) (length : ℕ) (s : Core 32) : Prop where
  accepted : (execInst32 so dec s (BitVec.ofNat 32 length)).2 ≠ -1
  result : Core.after (execInst32 so dec s (BitVec.ofNat 32 length)) = s.next dec length

/-- The operands for which the result is the specified one. -/
def Exact32 (dec : Decode) (s : Core 32) : Prop :=
  match dec.op with
  | .reg op => dec.rd = rv_ireg_x0 ∨ op.Exact32 (s.ireg dec.rs2)
  | _ => True

section Rv32
variable {dec : Decode} {length : ℕ} {s : Core 32} {so : ShiftOver}

theorem meets32_iff_setReg {v v' off : BitVec 32} (hx0 : s.ireg rv_ireg_x0 = 0)
    (hexec : execInst32 so dec s (BitVec.ofNat 32 length) = (s.setReg dec.rd v, off))
    (hoff : off ≠ -1) (hnext : s.next dec length = (s.write dec.rd v').goto (s.pc + off)) :
    Meets32 so dec length s ↔ dec.rd = rv_ireg_x0 ∨ v = v' := by
  constructor
  · rintro ⟨-, h⟩
    rw [hexec, Core.after_setReg hx0, hnext] at h
    by_cases hrd : dec.rd = rv_ireg_x0
    · exact .inl hrd
    · have hreg := congrFun (congrArg Core.ireg h) dec.rd
      simp only [Core.goto, Core.write, if_neg hrd, Function.update_self] at hreg
      exact .inr hreg
  · intro h
    have hwrite : s.write dec.rd v = s.write dec.rd v' := by
      cases h with
      | inl hrd =>
        unfold Core.write
        rw [if_pos hrd, if_pos hrd]
      | inr hv => rw [hv]
    refine ⟨?_, ?_⟩
    · rw [hexec]
      exact hoff
    · rw [hexec, Core.after_setReg hx0, hnext, hwrite]

theorem meets32_setReg {v off : BitVec 32} (hx0 : s.ireg rv_ireg_x0 = 0)
    (hexec : execInst32 so dec s (BitVec.ofNat 32 length) = (s.setReg dec.rd v, off))
    (hoff : off ≠ -1) (hnext : s.next dec length = (s.write dec.rd v).goto (s.pc + off)) :
    Meets32 so dec length s :=
  (meets32_iff_setReg hx0 hexec hoff hnext).mpr (.inr rfl)

theorem meets32_of_not_reg (so : ShiftOver) (hvalid : s.Valid) (hint : dec.op.isInteger)
    (h32 : dec.op.needs64 = false) (henc : Encodable 32 dec) (hlen : 2 ∣ length)
    (hreg : ∀ op, dec.op ≠ .reg op) : Meets32 so dec length s := by
  have hx0 : s.ireg rv_ireg_x0 = 0 := hvalid.x0
  have hseq := length_accepted (w := 32) (by decide) hlen
  have himm : dec.imm.signExtend 32 = dec.imm := BitVec.signExtend_eq _
  match hop : dec.op with
  | .lui =>
    have hexec : execInst32 so dec s (BitVec.ofNat 32 length) =
        (s.setReg dec.rd dec.imm, BitVec.ofNat 32 length) := by rw [execInst32, hop]
    exact meets32_setReg hx0 hexec hseq (by rw [Core.next, hop, himm])
  | .auipc =>
    have hexec : execInst32 so dec s (BitVec.ofNat 32 length) =
        (s.setReg dec.rd (s.pc + dec.imm), BitVec.ofNat 32 length) := by rw [execInst32, hop]
    exact meets32_setReg hx0 hexec hseq (by rw [Core.next, hop, himm])
  | .jal =>
    have heven : 2 ∣ dec.imm.toNat := by rwa [Encodable, hop] at henc
    have hexec : execInst32 so dec s (BitVec.ofNat 32 length) =
        (s.setReg dec.rd (s.pc + BitVec.ofNat 32 length), dec.imm) := by rw [execInst32, hop]
    exact meets32_setReg hx0 hexec (ne_neg_one_of_even (by decide) heven)
      (by rw [Core.next, hop, himm])
  | .jalr =>
    obtain ⟨htarget, hne⟩ := jalr_offset (by decide) (x := s.ireg dec.rs1 + dec.imm)
      (Nat.mod_eq_zero_of_dvd hvalid.even)
    have hexec : execInst32 so dec s (BitVec.ofNat 32 length) =
        (s.setReg dec.rd (s.pc + BitVec.ofNat 32 length),
          (s.ireg dec.rs1 + dec.imm - s.pc) &&& ~~~1#32) := by rw [execInst32, hop]
    exact meets32_setReg hx0 hexec hne (by rw [Core.next, hop, himm, htarget])
  | .branch op =>
    have heven : 2 ∣ dec.imm.toNat := by rwa [Encodable, hop] at henc
    have hexec : execInst32 so dec s (BitVec.ofNat 32 length) =
        (s, if op.holds (s.ireg dec.rs1) (s.ireg dec.rs2) then dec.imm
          else BitVec.ofNat 32 length) := by
      rw [execInst32, hop, ← op.taken32_eq]
    have hnext : s.next dec length =
        s.goto (if op.holds (s.ireg dec.rs1) (s.ireg dec.rs2) then s.pc + dec.imm
          else s.pc + BitVec.ofNat 32 length) := by
      rw [Core.next, hop, himm]
    by_cases htaken : op.holds (s.ireg dec.rs1) (s.ireg dec.rs2) = true
    · rw [if_pos htaken] at hexec hnext
      refine ⟨?_, ?_⟩
      · rw [hexec]
        exact ne_neg_one_of_even (by decide) heven
      · rw [hexec, hnext]
        rfl
    · rw [if_neg htaken] at hexec hnext
      refine ⟨?_, ?_⟩
      · rw [hexec]
        exact hseq
      · rw [hexec, hnext]
        rfl
  | .load op =>
    have hexec : execInst32 so dec s (BitVec.ofNat 32 length) =
        (s.setReg dec.rd (op.result s.mem (s.ireg dec.rs1 + dec.imm).toNat),
          BitVec.ofNat 32 length) := by
      rw [hop] at h32
      rw [execInst32, hop]
      simp only [LoadOp.extend32_eq h32]
    exact meets32_setReg hx0 hexec hseq (by rw [Core.next, hop, himm])
  | .store op =>
    have hexec : execInst32 so dec s (BitVec.ofNat 32 length) =
        (s.store (s.ireg dec.rs1 + dec.imm).toNat (op.width / 8) (s.ireg dec.rs2),
          BitVec.ofNat 32 length) := by
      rw [hop] at h32
      cases op with
      | sb | sh | sw =>
        rw [execInst32, hop]
        rfl
      | sd => cases h32
    have hnext : s.next dec length =
        (s.store (s.ireg dec.rs1 + dec.imm).toNat (op.width / 8) (s.ireg dec.rs2)).goto
          (s.pc + BitVec.ofNat 32 length) := by
      rw [Core.next, hop, himm]
    refine ⟨?_, ?_⟩
    · rw [hexec]
      exact hseq
    · rw [hexec, hnext]
      rfl
  | .imm op =>
    have hexec : execInst32 so dec s (BitVec.ofNat 32 length) =
        (s.setReg dec.rd (op.result (s.ireg dec.rs1) dec.imm), BitVec.ofNat 32 length) := by
      have hword : op.isWord = false := by rwa [hop] at h32
      rw [execInst32, hop]
      simp only [ImmOp.eval32_eq so hop hword henc]
    exact meets32_setReg hx0 hexec hseq (by rw [Core.next, hop])
  | .reg op => exact absurd hop (hreg op)
  | .illegal | .lr _ | .sc _ | .amo .. | .fload _ | .fstore _ | .fp _ | .fsgn .. | .fmvToInt _
  | .fmvOfInt _ | .fclass _ | .fence | .fence_i | .ecall | .csr .. =>
    rw [hop] at hint
    cases hint

theorem meets32_iff (hvalid : s.Valid) (hint : dec.op.isInteger) (h32 : dec.op.needs64 = false)
    (henc : Encodable 32 dec) (hlen : 2 ∣ length) :
    (∀ so, Meets32 so dec length s) ↔ Exact32 dec s := by
  unfold Exact32
  by_cases hreg : ∃ op, dec.op = .reg op
  · obtain ⟨op, hop⟩ := hreg
    have hword : op.isWord = false := by rwa [hop] at h32
    have hiff : ∀ so, Meets32 so dec length s ↔
        dec.rd = rv_ireg_x0 ∨
          op.eval32 so (s.ireg dec.rs1) (s.ireg dec.rs2) =
            some (op.result (s.ireg dec.rs1) (s.ireg dec.rs2)) := by
      intro so
      obtain ⟨v, hv⟩ := RegOp.eval32_isSome hword so (s.ireg dec.rs1) (s.ireg dec.rs2)
      rw [hv, Option.some.injEq]
      refine meets32_iff_setReg hvalid.x0 ?_ (length_accepted (by decide) hlen) ?_
      · rw [execInst32, hop]
        simp only [hv]
      · rw [Core.next, hop]
    rw [hop]
    simp only [hiff, ← RegOp.eval32_iff hword (s.ireg dec.rs1)]
    exact forall_or_left
  · have hreg' : ∀ op, dec.op ≠ .reg op := fun op h => hreg ⟨op, h⟩
    refine iff_of_true (fun so => meets32_of_not_reg so hvalid hint h32 henc hlen hreg') ?_
    split
    · rename_i op hop
      exact absurd hop (hreg' op)
    · trivial

end Rv32

/-! ## States of the architecture -/

namespace Core
variable {w : ℕ}

theorem Valid.write {c : Core w} (h : c.Valid) (rd : Reg) (v : BitVec w) : (c.write rd v).Valid := by
  unfold Core.write
  by_cases hrd : rd = rv_ireg_x0
  · rwa [if_pos hrd]
  · rw [if_neg hrd]
    refine ⟨?_, h.even⟩
    exact (Function.update_of_ne (Ne.symm hrd) _ _).trans h.x0

theorem Valid.goto {c : Core w} (h : c.Valid) {pc : BitVec w} (heven : 2 ∣ pc.toNat) :
    (c.goto pc).Valid := ⟨h.x0, heven⟩

theorem Valid.store {c : Core w} (h : c.Valid) (addr bytes : ℕ) (v : BitVec w) :
    (c.store addr bytes v).Valid := ⟨h.x0, h.even⟩

end Core

section Even
variable {w : ℕ}

theorem even_add (hw : 0 < w) {x y : BitVec w} (hx : 2 ∣ x.toNat) (hy : 2 ∣ y.toNat) :
    2 ∣ (x + y).toNat := by
  rw [BitVec.toNat_add]
  exact even_mod hw (Nat.dvd_add hx hy)

theorem even_length (hw : 0 < w) {length : ℕ} (h : 2 ∣ length) :
    2 ∣ (BitVec.ofNat w length).toNat := by
  rw [BitVec.toNat_ofNat]
  exact even_mod hw h

theorem even_iff_getLsbD (x : BitVec w) : 2 ∣ x.toNat ↔ x.getLsbD 0 = false := by
  rw [BitVec.getLsbD, Nat.testBit_zero]
  simp only [decide_eq_false_iff_not]
  omega

theorem even_signExtend {imm : BitVec 32} (h : 2 ∣ imm.toNat) :
    2 ∣ (imm.signExtend w).toNat := by
  rw [even_iff_getLsbD] at h ⊢
  rw [BitVec.getLsbD_signExtend, h, if_pos (by decide), Bool.and_false]

end Even

/-- The architecture stays within its states. -/
theorem Core.next_valid {w : ℕ} (hw : 0 < w) {c : Core w} (h : c.Valid) {dec : Decode} {length : ℕ}
    (henc : Encodable w dec) (hlen : 2 ∣ length) : (c.next dec length).Valid := by
  have hseq := even_add hw h.even (even_length hw hlen)
  match hop : dec.op with
  | .lui | .auipc | .load _ | .imm _ | .reg _ =>
    rw [Core.next, hop]
    exact (h.write _ _).goto hseq
  | .jal =>
    have heven : 2 ∣ dec.imm.toNat := by rwa [Encodable, hop] at henc
    rw [Core.next, hop]
    exact (h.write _ _).goto (even_add hw h.even (even_signExtend heven))
  | .jalr =>
    rw [Core.next, hop]
    refine (h.write _ _).goto ?_
    rw [and_not_one_toNat]
    exact Nat.dvd_mul_left _ _
  | .branch op =>
    have heven : 2 ∣ dec.imm.toNat := by rwa [Encodable, hop] at henc
    rw [Core.next, hop]
    refine h.goto ?_
    split
    · exact even_add hw h.even (even_signExtend heven)
    · exact hseq
  | .store _ =>
    rw [Core.next, hop]
    exact (h.store _ _ _).goto hseq
  | .illegal | .lr _ | .sc _ | .amo .. | .fload _ | .fstore _ | .fp _ | .fsgn .. | .fmvToInt _
  | .fmvOfInt _ | .fclass _ | .fence | .fence_i | .ecall | .csr .. =>
    rw [Core.next, hop]
    exact h

/-- The interpreter stays within them too, also where its result is another one. -/
theorem after_valid (host : Host) {dec : Decode} {length : ℕ} {s : Machine}
    (hvalid : s.core.Valid) (hint : dec.op.isInteger) (henc : Encodable 64 dec)
    (hlen : 2 ∣ length) :
    (Machine.after (execInst host dec s (BitVec.ofNat 64 length))).core.Valid := by
  by_cases hreg : ∃ op, dec.op = .reg op
  · obtain ⟨op, hop⟩ := hreg
    rw [execInst, hop]
    simp only
    rw [Machine.after_setReg hvalid.x0]
    exact (hvalid.write _ _).goto
      (even_add (by decide) hvalid.even (even_length (by decide) hlen))
  · have hreg' : ∀ op, dec.op ≠ .reg op := fun op h => hreg ⟨op, h⟩
    rw [(meets_of_not_reg host hvalid hint henc hlen hreg').result]
    exact Core.next_valid (by decide) hvalid henc hlen

theorem after32_valid (so : ShiftOver) {dec : Decode} {length : ℕ} {s : Core 32}
    (hvalid : s.Valid) (hint : dec.op.isInteger) (h32 : dec.op.needs64 = false)
    (henc : Encodable 32 dec) (hlen : 2 ∣ length) :
    (Core.after (execInst32 so dec s (BitVec.ofNat 32 length))).Valid := by
  by_cases hreg : ∃ op, dec.op = .reg op
  · obtain ⟨op, hop⟩ := hreg
    have hword : op.isWord = false := by rwa [hop] at h32
    obtain ⟨v, hv⟩ := RegOp.eval32_isSome hword so (s.ireg dec.rs1) (s.ireg dec.rs2)
    rw [execInst32, hop]
    simp only [hv]
    rw [Core.after_setReg hvalid.x0]
    exact (hvalid.write _ _).goto
      (even_add (by decide) hvalid.even (even_length (by decide) hlen))
  · have hreg' : ∀ op, dec.op ≠ .reg op := fun op h => hreg ⟨op, h⟩
    rw [(meets32_of_not_reg so hvalid hint h32 henc hlen hreg').result]
    exact Core.next_valid (by decide) hvalid henc hlen

/-- **When the interpreters follow the architecture**, whatever the compiler makes of a shift by
the width or more. -/
theorem interpreters_exact (host : Host) (dec : Decode) (length : ℕ) :
    (∀ s : Machine, s.core.Valid → dec.op.isInteger → Encodable 64 dec → 2 ∣ length →
      ((∀ so, Meets { host with shiftOver := so } dec length s) ↔ Exact64 dec s) ∧
        (Machine.after (execInst host dec s (BitVec.ofNat 64 length))).core.Valid) ∧
    ∀ s : Core 32, s.Valid → dec.op.isInteger → dec.op.needs64 = false → Encodable 32 dec →
      2 ∣ length →
        ((∀ so, Meets32 so dec length s) ↔ Exact32 dec s) ∧
          ∀ so, (Core.after (execInst32 so dec s (BitVec.ofNat 32 length))).Valid := by
  refine ⟨?_, ?_⟩
  · intro s hvalid hint henc hlen
    exact ⟨meets_iff host hvalid hint henc hlen, after_valid host hvalid hint henc hlen⟩
  · intro s hvalid hint h32 henc hlen
    exact ⟨meets32_iff hvalid hint h32 henc hlen, fun so => after32_valid so hvalid hint h32 henc hlen⟩

/-- A machine in front of an instruction on a1 and a2. -/
def wordMachine (x y : BitVec 64) : Machine :=
  { atomicMachine 0x10000 0 0 with ireg := fun r => if r = 11 then x else if r = 12 then y else 0 }

theorem wordMachine_valid (x y : BitVec 64) : (wordMachine x y).core.Valid :=
  ⟨rfl, ⟨0x8000, rfl⟩⟩

/-- `remuw a0, a1, a2` and `remu a0, a1, a2` on 7 and 5. -/
theorem remainder_exact :
    (∀ so, Meets { atomicHost with shiftOver := so } ⟨.reg .remuw, 10, 11, 12, 0, 0, 0⟩ 4
      (wordMachine 7 5)) ∧
    ∀ so, Meets32 so ⟨.reg .remu, 10, 11, 12, 0, 0, 0⟩ 4
      ⟨0x10000, fun r => if r = 11 then 7 else if r = 12 then 5 else 0, fun _ => 0⟩ := by
  refine ⟨?_, ?_⟩
  · obtain ⟨h64, -⟩ := interpreters_exact atomicHost ⟨.reg .remuw, 10, 11, 12, 0, 0, 0⟩ 4
    refine (h64 _ (wordMachine_valid 7 5) rfl (by decide) (by decide)).1.mpr ?_
    exact .inr (by decide)
  · obtain ⟨-, h32⟩ := interpreters_exact atomicHost ⟨.reg .remu, 10, 11, 12, 0, 0, 0⟩ 4
    refine (h32 _ ⟨rfl, by decide⟩ rfl rfl (by decide) (by decide)).1.mpr ?_
    exact .inr trivial

/-- `divuw a0, a1, a2` divides 0x80000000 by 1: the quotient is to be extended with its sign. -/
theorem divuw_not_extended :
    (wordMachine 0x80000000 1).core.Valid ∧
      Encodable 64 ⟨.reg .divuw, 10, 11, 12, 0, 0, 0⟩ ∧
        ¬ Meets atomicHost ⟨.reg .divuw, 10, 11, 12, 0, 0, 0⟩ 4 (wordMachine 0x80000000 1) := by
  refine ⟨wordMachine_valid _ _, by decide, ?_⟩
  rintro ⟨-, h⟩
  have hreg := congrFun (congrArg Machine.ireg h) 10
  exact absurd hreg (by decide)

end RvCkpt.Isa
