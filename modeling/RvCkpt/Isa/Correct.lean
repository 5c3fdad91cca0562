import RvCkpt.Isa.Exec
import RvCkpt.Isa.Rv32
import Mathlib.Tactic.Ring
import Mathlib.Tactic.Linarith

/-! # The interpreter and the architecture

`exec_inst_rv32` and `exec_inst_rv64` against the integer instructions of the architecture.
-/

namespace RvCkpt.Isa
open ByteMem
set_option autoImplicit false

/-! ## Arithmetic -/

section Arithmetic
variable {w : ℕ}

theorem ofInt_neg_one : BitVec.ofInt w (-1) = -1 := by
  rw [BitVec.ofInt_neg]
  rfl

theorem ofInt_toInt_add (x y : BitVec w) : BitVec.ofInt w (x.toInt + y.toInt) = x + y := by
  rw [BitVec.ofInt_add, BitVec.ofInt_toInt, BitVec.ofInt_toInt]

theorem ofInt_toInt_sub (x y : BitVec w) : BitVec.ofInt w (x.toInt - y.toInt) = x - y := by
  rw [Int.sub_eq_add_neg, BitVec.ofInt_add, BitVec.ofInt_neg, BitVec.ofInt_toInt,
    BitVec.ofInt_toInt, BitVec.sub_eq_add_neg]

theorem ofInt_toInt_mul (x y : BitVec w) : BitVec.ofInt w (x.toInt * y.toInt) = x * y := by
  rw [BitVec.ofInt_mul, BitVec.ofInt_toInt, BitVec.ofInt_toInt]

theorem ofInt_tdiv (x y : BitVec w) : BitVec.ofInt w (x.toInt.tdiv y.toInt) = x.sdiv y := by
  apply BitVec.eq_of_toInt_eq
  rw [BitVec.toInt_ofInt, BitVec.toInt_sdiv]

theorem ofInt_tmod (x y : BitVec w) : BitVec.ofInt w (x.toInt.tmod y.toInt) = x.srem y := by
  rw [← BitVec.toInt_srem, BitVec.ofInt_toInt]

theorem ofNat_div (x y : BitVec w) : BitVec.ofNat w (x.toNat / y.toNat) = x / y := by
  apply BitVec.eq_of_toNat_eq
  rw [BitVec.toNat_ofNat, BitVec.toNat_udiv]
  exact Nat.mod_eq_of_lt (Nat.lt_of_le_of_lt (Nat.div_le_self _ _) x.isLt)

theorem ofNat_mod (x y : BitVec w) : BitVec.ofNat w (x.toNat % y.toNat) = x % y := by
  apply BitVec.eq_of_toNat_eq
  rw [BitVec.toNat_ofNat, BitVec.toNat_umod]
  exact Nat.mod_eq_of_lt (Nat.lt_of_le_of_lt (Nat.mod_le _ _) x.isLt)

theorem neg_one_ne_zero (hw : 0 < w) : (-1 : BitVec w) ≠ 0 := by
  intro h
  have h0 := BitVec.neg_one_eq_zero_iff.mp h
  omega

/-- The tests for zero and for the overflow exclude each other. -/
theorem quotient_eq (hw : 0 < w) (x y : BitVec w) : quotient x y = div x y := by
  unfold quotient div
  rw [ofInt_neg_one, ofInt_tdiv]
  by_cases hy : y = 0
  · have hover : ¬(x = BitVec.intMin w ∧ y = -1) := by
      rintro ⟨-, h⟩
      exact neg_one_ne_zero hw (h.symm.trans hy)
    rw [if_pos hy, if_neg hover, if_pos hy]
  · rw [if_neg hy, if_neg hy]

theorem remainder_eq (hw : 0 < w) (x y : BitVec w) : remainder x y = rem x y := by
  unfold remainder rem
  rw [ofInt_neg_one, ofInt_tmod]
  by_cases hy : y = 0
  · have hover : ¬(x = BitVec.intMin w ∧ y = -1) := by
      rintro ⟨-, h⟩
      exact neg_one_ne_zero hw (h.symm.trans hy)
    rw [if_pos hy, if_neg hover, if_pos hy]
  · rw [if_neg hy, if_neg hy]

theorem quotientU_eq (x y : BitVec w) : quotientU x y = divu x y := by
  unfold quotientU divu
  rw [ofInt_neg_one, ofNat_div]

theorem remainderU_eq (x y : BitVec w) : remainderU x y = remu x y := by
  unfold remainderU remu
  rw [ofNat_mod]

end Arithmetic

/-! ## Products of 64-bit numbers -/

section Products

theorem signExtend_eq_ofInt {w v : ℕ} (x : BitVec w) :
    x.signExtend v = BitVec.ofInt v x.toInt := rfl

theorem zeroExtend_eq_ofInt {w v : ℕ} (x : BitVec w) :
    x.zeroExtend v = BitVec.ofInt v x.toNat := by
  apply BitVec.eq_of_toNat_eq
  rw [BitVec.toNat_setWidth, BitVec.toNat_ofInt]
  omega

/-- The upper half does not depend on how far the product was reduced. -/
theorem mulHigh_ofInt (p q : ℤ) :
    mulHigh (BitVec.ofInt 128 p) (BitVec.ofInt 128 q) = BitVec.ofInt 64 (p * q / 2 ^ 64) := by
  rw [mulHigh, ← BitVec.ofInt_mul]
  apply BitVec.eq_of_toNat_eq
  rw [BitVec.toNat_setWidth, BitVec.toNat_ushiftRight, BitVec.toNat_ofInt, BitVec.toNat_ofInt,
    Nat.shiftRight_eq_div_pow]
  generalize p * q = r
  omega

theorem mulHigh_su (x y : BitVec 64) :
    mulHigh (x.signExtend 128) (y.zeroExtend 128) =
      BitVec.ofInt 64 (x.toInt * y.toNat / 2 ^ 64) := by
  rw [zeroExtend_eq_ofInt]
  exact mulHigh_ofInt x.toInt y.toNat

theorem mulHigh_u (x y : BitVec 64) :
    mulHigh (x.zeroExtend 128) (y.zeroExtend 128) =
      BitVec.ofNat 64 (x.toNat * y.toNat / 2 ^ 64) := by
  rw [zeroExtend_eq_ofInt, zeroExtend_eq_ofInt, mulHigh_ofInt, ← BitVec.ofInt_natCast]
  push_cast
  rfl

end Products

/-! ## Shifts -/

section Shifts
variable {w : ℕ}

def Shift.apply (kind : Shift) (x : BitVec w) (n : ℕ) : BitVec w :=
  match kind with
  | .left => x <<< n
  | .right => x >>> n
  | .arith => x.sshiftRight n

instance : Nonempty ShiftOver := ⟨⟨fun _ _ _ _ => 0⟩⟩

theorem shift_of_lt (so : ShiftOver) (kind : Shift) (x : BitVec w) {n : ℕ} (h : n < w) :
    shift so kind x n = kind.apply x n := by
  unfold shift
  rw [if_pos h]
  cases kind <;> rfl

/-- A value can be relied on just for a shift amount below the width. -/
theorem shift_iff (hw : 0 < w) (kind : Shift) (x v : BitVec w) (n : ℕ) :
    (∀ so, shift so kind x n = v) ↔ n < w ∧ kind.apply x n = v := by
  constructor
  · intro h
    have hn : n < w := by
      by_contra hn
      have hwide : ∀ wide : Shift → (w : ℕ) → BitVec w → ℕ → BitVec w, wide kind w x n = v := by
        intro wide
        have hso := h ⟨wide⟩
        unfold shift at hso
        rwa [if_neg hn] at hso
      have h0 := hwide fun _ _ _ _ => 0
      have h1 := hwide fun _ _ _ _ => -1
      exact neg_one_ne_zero hw (h1.trans h0.symm)
    have hv := h ⟨fun _ _ _ _ => 0⟩
    rw [shift_of_lt _ kind x hn] at hv
    exact ⟨hn, hv⟩
  · rintro ⟨hn, hv⟩ so
    rw [shift_of_lt so kind x hn, hv]

theorem low_toNat (y : BitVec w) (k : ℕ) (mask : BitVec w) (h : mask.toNat = 2 ^ k - 1) :
    (y &&& mask).toNat = y.toNat % 2 ^ k := by
  rw [BitVec.toNat_and, h, Nat.and_two_pow_sub_one_eq_mod]

/-- The mask of the register shifts keeps seven bits. -/
theorem regShift_iff (hw : 0 < w) (hdvd : w ∣ 2 ^ 7) (kind : Shift) (x y mask : BitVec w)
    (h : mask.toNat = 2 ^ 7 - 1) :
    (∀ so, shift so kind x (y &&& mask).toNat = kind.apply x (y.toNat % w)) ↔
      y.toNat % 2 ^ 7 < w := by
  rw [shift_iff hw, low_toNat y 7 mask h]
  constructor
  · rintro ⟨hn, -⟩
    exact hn
  · intro hn
    refine ⟨hn, ?_⟩
    rw [← Nat.mod_mod_of_dvd y.toNat hdvd, Nat.mod_eq_of_lt hn]

end Shifts

/-! ## Operations of RV64 -/

theorem BranchOp.taken_eq (op : BranchOp) (x y : BitVec 64) : op.taken x y = op.holds x y := by
  cases op with
  | beq => exact beq_eq_decide x y
  | bne =>
    have h : (x != y) = !decide (x = y) := congrArg not (beq_eq_decide x y)
    simp only [taken, holds, h, ne_eq, decide_not]
  | blt => rfl
  | bge => simp only [taken, holds, BitVec.slt, ← decide_not, not_lt]
  | bltu => rfl
  | bgeu => simp only [taken, holds, BitVec.ult, ← decide_not, not_lt]

theorem word32_toNat (x : BitVec 64) : (word32 x).toNat = x.toNat % 2 ^ 32 :=
  BitVec.toNat_setWidth ..

theorem wordShift_amount (y : BitVec 64) :
    (y &&& 0b11111).toNat = (y.truncate 32).toNat % 32 := by
  rw [low_toNat y 5 _ rfl, BitVec.toNat_setWidth]
  omega

theorem wordShift_eq (so : ShiftOver) (kind : Shift) (x y : BitVec 64) :
    sx (shift so kind (word32 x) (y &&& 0b11111).toNat) =
      sx (kind.apply (word32 x) ((y.truncate 32).toNat % 32)) := by
  rw [wordShift_amount, shift_of_lt _ _ _ (Nat.mod_lt _ (by decide))]

/-- Widening without the sign gives the sign-extended value of a non-negative number. -/
theorem zeroExtend_eq_signExtend_iff (v : BitVec 32) :
    v.zeroExtend 64 = v.signExtend 64 ↔ v.toNat < 2 ^ 31 := by
  constructor
  · intro h
    have hn := congrArg BitVec.toNat h
    rw [BitVec.toNat_setWidth, BitVec.toNat_signExtend, BitVec.msb_eq_decide] at hn
    by_contra hge
    rw [if_pos (by simpa using hge)] at hn
    simp only [BitVec.toNat_setWidth] at hn
    omega
  · intro h
    apply BitVec.eq_of_toNat_eq
    rw [BitVec.toNat_signExtend, BitVec.msb_eq_decide, if_neg (by simpa using h)]
    rfl

theorem divu_small_iff (x y : BitVec 32) :
    (divu x y).toNat < 2 ^ 31 ↔ y.toNat ≠ 0 ∧ ¬(y.toNat = 1 ∧ 2 ^ 31 ≤ x.toNat) := by
  unfold divu
  have hx := x.isLt
  by_cases hy : y = 0
  · rw [if_pos hy]
    have hy0 : y.toNat = 0 := by rw [hy]; rfl
    have hneg : ((-1 : BitVec 32)).toNat = 2 ^ 32 - 1 := rfl
    omega
  · rw [if_neg hy, BitVec.toNat_udiv]
    have hy0 : y.toNat ≠ 0 := fun h => hy (BitVec.eq_of_toNat_eq h)
    by_cases hone : y.toNat = 1
    · rw [hone, Nat.div_one]
      omega
    · have hle : x.toNat / y.toNat ≤ x.toNat / 2 :=
        Nat.div_le_div_left (by omega) (by decide)
      omega

theorem remu_small_iff (x y : BitVec 32) :
    (remu x y).toNat < 2 ^ 31 ↔ ¬(2 ^ 31 ≤ x.toNat ∧ (y.toNat = 0 ∨ x.toNat < y.toNat)) := by
  unfold remu
  have hx := x.isLt
  by_cases hy : y = 0
  · rw [if_pos hy]
    have hy0 : y.toNat = 0 := by rw [hy]; rfl
    omega
  · rw [if_neg hy, BitVec.toNat_umod]
    have hy0 : y.toNat ≠ 0 := fun h => hy (BitVec.eq_of_toNat_eq h)
    by_cases hlt : x.toNat < y.toNat
    · rw [Nat.mod_eq_of_lt hlt]
      omega
    · have hmod := Nat.mod_lt x.toNat (Nat.pos_of_ne_zero hy0)
      have hsub := Nat.mod_le (x.toNat - y.toNat) y.toNat
      rw [← Nat.mod_eq_sub_mod (Nat.le_of_not_lt hlt)] at hsub
      omega

/-- The operands for which the interpreter's result is the specified one. -/
def RegOp.Exact (op : RegOp) (x y : BitVec 64) : Prop :=
  match op with
  | .sll | .srl | .sra => y.toNat % 2 ^ 7 < 64
  | .divuw => y.toNat % 2 ^ 32 ≠ 0 ∧ ¬(y.toNat % 2 ^ 32 = 1 ∧ 2 ^ 31 ≤ x.toNat % 2 ^ 32)
  | .remuw =>
    ¬(2 ^ 31 ≤ x.toNat % 2 ^ 32 ∧
      (y.toNat % 2 ^ 32 = 0 ∨ x.toNat % 2 ^ 32 < y.toNat % 2 ^ 32))
  | _ => True

instance (op : RegOp) (x y : BitVec 64) : Decidable (op.Exact x y) := by
  unfold RegOp.Exact
  split <;> infer_instance

theorem RegOp.eval_iff (op : RegOp) (x y : BitVec 64) :
    (∀ so, op.eval so x y = op.result x y) ↔ op.Exact x y := by
  have always : ∀ {p : ShiftOver → Prop}, (∀ so, p so) → ((∀ so, p so) ↔ True) :=
    fun h => iff_of_true h trivial
  cases op with
  | add => exact always fun _ => (ofInt_toInt_add x y).symm
  | sub => exact always fun _ => (ofInt_toInt_sub x y).symm
  | sll => exact regShift_iff (by decide) (by decide) .left x y _ rfl
  | srl => exact regShift_iff (by decide) (by decide) .right x y _ rfl
  | sra => exact regShift_iff (by decide) (by decide) .arith x y _ rfl
  | slt | sltu | xor | or | and => exact always fun _ => rfl
  | addw => exact always fun _ => congrArg sx (ofInt_toInt_add (word32 x) (word32 y)).symm
  | subw => exact always fun _ => congrArg sx (ofInt_toInt_sub (word32 x) (word32 y)).symm
  | mulw => exact always fun _ => congrArg sx (ofInt_toInt_mul (word32 x) (word32 y)).symm
  | sllw => exact always fun so => wordShift_eq so .left x y
  | srlw => exact always fun so => wordShift_eq so .right x y
  | sraw => exact always fun so => wordShift_eq so .arith x y
  | mul => exact always fun _ => (ofInt_toInt_mul x y).symm
  | mulh => exact always fun _ => mulHigh_ofInt x.toInt y.toInt
  | mulhsu => exact always fun _ => mulHigh_su x y
  | mulhu => exact always fun _ => mulHigh_u x y
  | div => exact always fun _ => (quotient_eq (by decide) x y).symm
  | divu => exact always fun _ => (quotientU_eq x y).symm
  | rem => exact always fun _ => (remainder_eq (by decide) x y).symm
  | remu => exact always fun _ => (remainderU_eq x y).symm
  | divw => exact always fun _ => congrArg sx (quotient_eq (by decide) (word32 x) (word32 y)).symm
  | remw => exact always fun _ => congrArg sx (remainder_eq (by decide) (word32 x) (word32 y)).symm
  | divuw =>
    rw [Exact, ← word32_toNat, ← word32_toNat, ← divu_small_iff, ← zeroExtend_eq_signExtend_iff]
    have hspec := congrArg sx (quotientU_eq (word32 x) (word32 y))
    exact ⟨fun h => (h (Classical.arbitrary _)).trans hspec, fun h _ => h.trans hspec.symm⟩
  | remuw =>
    rw [Exact, ← word32_toNat, ← word32_toNat, ← remu_small_iff, ← zeroExtend_eq_signExtend_iff]
    have hspec := congrArg sx (remainderU_eq (word32 x) (word32 y))
    exact ⟨fun h => (h (Classical.arbitrary _)).trans hspec, fun h _ => h.trans hspec.symm⟩

theorem sx_toInt (imm : BitVec 32) : (sx imm).toInt = imm.toInt :=
  BitVec.toInt_signExtend_of_le (by decide)

theorem shift_imm (so : ShiftOver) (kind : Shift) {w : ℕ} (x : BitVec w) {imm : BitVec 32}
    (h : imm.toNat < w) : shift so kind x imm.toNat = kind.apply x (imm.toNat % w) := by
  rw [shift_of_lt so kind x h, Nat.mod_eq_of_lt h]

theorem ImmOp.eval_eq (so : ShiftOver) {op : ImmOp} {dec : Decode} (hop : dec.op = .imm op)
    (h : Encodable 64 dec) (x : BitVec 64) : op.eval so x dec.imm = op.result x dec.imm := by
  unfold Encodable at h
  rw [hop] at h
  cases op with
  | addi =>
    have hadd := ofInt_toInt_add x (sx dec.imm)
    rw [sx_toInt] at hadd
    exact hadd.symm
  | slti =>
    have hlt : x.slt (sx dec.imm) = decide (x.toInt < dec.imm.toInt) := by
      rw [BitVec.slt, sx_toInt]
    exact congrArg flag hlt
  | sltiu | xori | ori | andi => rfl
  | slli => exact shift_imm so .left x h
  | srli => exact shift_imm so .right x h
  | srai => exact shift_imm so .arith x h
  | addiw => exact congrArg sx (ofInt_toInt_add (word32 x) dec.imm).symm
  | slliw => exact congrArg sx (shift_imm so .left (word32 x) h)
  | srliw => exact congrArg sx (shift_imm so .right (word32 x) h)
  | sraiw => exact congrArg sx (shift_imm so .arith (word32 x) h)

/-- The bytes read fill no more than their own width. -/
theorem read_truncate (m : Mem) (addr w : ℕ) {n v : ℕ} (hn : 256 ^ n = 2 ^ v) :
    ((m.read addr n).truncate v).zeroExtend w = (m.read addr n).truncate w := by
  have hlt : (m.read addr n).toNat < 2 ^ v := by
    rw [← hn]
    exact Nat.lt_of_le_of_lt (Nat.mod_le _ _) (leNat_lt (fun i => m (addr + i)) n)
  apply BitVec.eq_of_toNat_eq
  rw [BitVec.toNat_setWidth, BitVec.toNat_setWidth, BitVec.toNat_setWidth, Nat.mod_eq_of_lt hlt]

theorem LoadOp.extend_eq (op : LoadOp) (m : Mem) (addr : ℕ) :
    op.extend (m.read addr op.bytes) = op.result m addr := by
  have hread : ∀ n v, 256 ^ n = 2 ^ v →
      m.read addr n = ((m.read addr n).truncate v).zeroExtend 64 := by
    intro n v h
    rw [read_truncate m addr 64 h]
    exact (BitVec.setWidth_eq _).symm
  cases op with
  | lb | lh | lw => rfl
  | lbu => exact hread 1 8 rfl
  | lhu => exact hread 2 16 rfl
  | lwu => exact hread 4 32 rfl
  | ld => exact ((BitVec.signExtend_eq _).trans (BitVec.setWidth_eq _)).symm

theorem StoreOp.bytes_eq (op : StoreOp) : op.bytes = op.width / 8 := by
  cases op with
  | sb | sh | sw | sd => rfl

/-! ## Instructions of RV64 -/

namespace Machine

def core (s : Machine) : Core 64 where
  pc := s.pc
  ireg := s.ireg
  mem := s.mem

def withCore (s : Machine) (c : Core 64) : Machine :=
  { s with pc := c.pc, ireg := c.ireg, mem := c.mem }

/-- The processor behind an executed instruction. -/
def after (out : Machine × BitVec 64) : Machine := { out.1 with pc := out.1.pc + out.2 }

theorem after_setReg {s : Machine} (hx0 : s.ireg rv_ireg_x0 = 0) (rd : Reg) (v off : BitVec 64) :
    after (s.setReg rd v, off) = s.withCore ((s.core.write rd v).goto (s.pc + off)) := by
  unfold Core.write
  by_cases hrd : rd = rv_ireg_x0
  · rw [if_pos hrd, hrd, setReg, if_pos rfl, ← hx0, Function.update_eq_self]
    rfl
  · rw [if_neg hrd, setReg, if_neg hrd]
    rfl

end Machine

/-- The interpreter accepts the instruction and does what the architecture says. -/
structure Meets (host : Host) (dec : Decode) (length : ℕ) (s : Machine) : Prop where
  accepted : (execInst host dec s (BitVec.ofNat 64 length)).2 ≠ -1
  result : Machine.after (execInst host dec s (BitVec.ofNat 64 length)) =
    s.withCore (s.core.next dec length)

/-- The operands for which the result is the specified one. -/
def Exact64 (dec : Decode) (s : Machine) : Prop :=
  match dec.op with
  | .reg op => dec.rd = rv_ireg_x0 ∨ op.Exact (s.ireg dec.rs1) (s.ireg dec.rs2)
  | _ => True

theorem ne_neg_one_of_even {w : ℕ} (hw : 0 < w) {x : BitVec w} (h : 2 ∣ x.toNat) : x ≠ -1 := by
  intro heq
  have hx := congrArg BitVec.toNat heq
  have hneg : (-1 : BitVec w).toNat = 2 ^ w - 1 :=
    (congrArg BitVec.toNat BitVec.neg_one_eq_allOnes).trans BitVec.toNat_allOnes
  obtain ⟨k, rfl⟩ := Nat.exists_eq_succ_of_ne_zero hw.ne'
  rw [hneg, Nat.pow_succ] at hx
  have hpos := Nat.two_pow_pos k
  omega

theorem even_mod {w n : ℕ} (hw : 0 < w) (h : 2 ∣ n) : 2 ∣ n % 2 ^ w := by
  obtain ⟨k, rfl⟩ := Nat.exists_eq_succ_of_ne_zero hw.ne'
  exact (Nat.dvd_mod_iff (dvd_pow_self 2 (by omega))).mpr h

section Rv64
variable {dec : Decode} {length : ℕ} {s : Machine}

/-- An instruction that sets a register and has a next one at an even distance. -/
theorem meets_iff_setReg {host : Host} {v v' off : BitVec 64} (hx0 : s.ireg rv_ireg_x0 = 0)
    (hexec : execInst host dec s (BitVec.ofNat 64 length) = (s.setReg dec.rd v, off))
    (hoff : off ≠ -1)
    (hnext : s.core.next dec length = (s.core.write dec.rd v').goto (s.pc + off)) :
    Meets host dec length s ↔ dec.rd = rv_ireg_x0 ∨ v = v' := by
  constructor
  · rintro ⟨-, h⟩
    rw [hexec, Machine.after_setReg hx0, hnext] at h
    by_cases hrd : dec.rd = rv_ireg_x0
    · exact .inl hrd
    · have hreg := congrFun (congrArg Machine.ireg h) dec.rd
      simp only [Machine.withCore, Core.goto, Core.write, if_neg hrd,
        Function.update_self] at hreg
      exact .inr hreg
  · intro h
    have hwrite : s.core.write dec.rd v = s.core.write dec.rd v' := by
      cases h with
      | inl hrd =>
        unfold Core.write
        rw [if_pos hrd, if_pos hrd]
      | inr hv => rw [hv]
    refine ⟨?_, ?_⟩
    · rw [hexec]
      exact hoff
    · rw [hexec, Machine.after_setReg hx0, hnext, hwrite]

theorem meets_setReg {host : Host} {v off : BitVec 64} (hx0 : s.ireg rv_ireg_x0 = 0)
    (hexec : execInst host dec s (BitVec.ofNat 64 length) = (s.setReg dec.rd v, off))
    (hoff : off ≠ -1)
    (hnext : s.core.next dec length = (s.core.write dec.rd v).goto (s.pc + off)) :
    Meets host dec length s :=
  (meets_iff_setReg hx0 hexec hoff hnext).mpr (.inr rfl)

theorem length_accepted {w : ℕ} (hw : 0 < w) (hlen : 2 ∣ length) : BitVec.ofNat w length ≠ -1 := by
  refine ne_neg_one_of_even hw ?_
  rw [BitVec.toNat_ofNat]
  exact even_mod hw hlen

theorem sx_accepted {imm : BitVec 32} (h : 2 ∣ imm.toNat) : sx imm ≠ -1 := by
  intro heq
  have himm : imm = -1 := by
    apply BitVec.eq_of_toInt_eq
    rw [← sx_toInt, heq]
    rfl
  exact ne_neg_one_of_even (by decide) h himm

theorem meets_of_not_reg (host : Host) (hvalid : s.core.Valid) (hint : dec.op.isInteger)
    (henc : Encodable 64 dec) (hlen : 2 ∣ length) (hreg : ∀ op, dec.op ≠ .reg op) :
    Meets host dec length s := by
  have hx0 : s.ireg rv_ireg_x0 = 0 := hvalid.x0
  have hseq := length_accepted (w := 64) (by decide) hlen
  match hop : dec.op with
  | .lui =>
    have hexec : execInst host dec s (BitVec.ofNat 64 length) =
        (s.setReg dec.rd (sx dec.imm), BitVec.ofNat 64 length) := by rw [execInst, hop]
    exact meets_setReg hx0 hexec hseq (by rw [Core.next, hop]; rfl)
  | .auipc =>
    have hexec : execInst host dec s (BitVec.ofNat 64 length) =
        (s.setReg dec.rd (s.pc + sx dec.imm), BitVec.ofNat 64 length) := by rw [execInst, hop]
    exact meets_setReg hx0 hexec hseq (by rw [Core.next, hop]; rfl)
  | .jal =>
    have heven : 2 ∣ dec.imm.toNat := by rwa [Encodable, hop] at henc
    have hexec : execInst host dec s (BitVec.ofNat 64 length) =
        (s.setReg dec.rd (s.pc + BitVec.ofNat 64 length), sx dec.imm) := by rw [execInst, hop]
    exact meets_setReg hx0 hexec (sx_accepted heven) (by rw [Core.next, hop]; rfl)
  | .jalr =>
    obtain ⟨htarget, hne⟩ := jalr_offset (by decide) (x := s.ireg dec.rs1 + sx dec.imm)
      (Nat.mod_eq_zero_of_dvd hvalid.even)
    have hexec : execInst host dec s (BitVec.ofNat 64 length) =
        (s.setReg dec.rd (s.pc + BitVec.ofNat 64 length),
          (s.ireg dec.rs1 + sx dec.imm - s.pc) &&& ~~~1#64) := by rw [execInst, hop]
    refine meets_setReg hx0 hexec hne ?_
    rw [Core.next, hop]
    exact congrArg (Core.goto _) htarget.symm
  | .branch op =>
    have heven : 2 ∣ dec.imm.toNat := by rwa [Encodable, hop] at henc
    have hexec : execInst host dec s (BitVec.ofNat 64 length) =
        (s, if op.holds (s.ireg dec.rs1) (s.ireg dec.rs2) then sx dec.imm
          else BitVec.ofNat 64 length) := by
      rw [execInst, hop, ← op.taken_eq]
    have hnext : s.core.next dec length =
        s.core.goto (if op.holds (s.ireg dec.rs1) (s.ireg dec.rs2) then s.pc + sx dec.imm
          else s.pc + BitVec.ofNat 64 length) := by
      rw [Core.next, hop]
      rfl
    by_cases htaken : op.holds (s.ireg dec.rs1) (s.ireg dec.rs2) = true
    · rw [if_pos htaken] at hexec hnext
      refine ⟨?_, ?_⟩
      · rw [hexec]
        exact sx_accepted heven
      · rw [hexec, hnext]
        rfl
    · rw [if_neg htaken] at hexec hnext
      refine ⟨?_, ?_⟩
      · rw [hexec]
        exact hseq
      · rw [hexec, hnext]
        rfl
  | .load op =>
    have hexec : execInst host dec s (BitVec.ofNat 64 length) =
        (s.setReg dec.rd (op.result s.mem (dataAddr dec s)), BitVec.ofNat 64 length) := by
      rw [execInst, hop, ← op.extend_eq]
    exact meets_setReg hx0 hexec hseq (by rw [Core.next, hop]; rfl)
  | .store op =>
    have hexec : execInst host dec s (BitVec.ofNat 64 length) =
        (s.setMem (s.mem.write (dataAddr dec s) (op.width / 8) (s.ireg dec.rs2)),
          BitVec.ofNat 64 length) := by
      rw [execInst, hop, ← op.bytes_eq]
    have hnext : s.core.next dec length =
        (s.core.store (dataAddr dec s) (op.width / 8) (s.ireg dec.rs2)).goto
          (s.pc + BitVec.ofNat 64 length) := by
      rw [Core.next, hop]
      rfl
    refine ⟨?_, ?_⟩
    · rw [hexec]
      exact hseq
    · have hwide : (s.ireg dec.rs2).zeroExtend 64 = s.ireg dec.rs2 := BitVec.setWidth_eq _
      rw [hexec, hnext, Core.store, hwide]
      rfl
  | .imm op =>
    have hexec : execInst host dec s (BitVec.ofNat 64 length) =
        (s.setReg dec.rd (op.result (s.ireg dec.rs1) dec.imm), BitVec.ofNat 64 length) := by
      rw [execInst, hop, ← ImmOp.eval_eq host.shiftOver hop henc]
    exact meets_setReg hx0 hexec hseq (by rw [Core.next, hop]; rfl)
  | .reg op => exact absurd hop (hreg op)
  | .illegal | .lr _ | .sc _ | .amo .. | .fload _ | .fstore _ | .fp _ | .fsgn .. | .fmvToInt _
  | .fmvOfInt _ | .fclass _ | .fence | .fence_i | .ecall | .csr .. =>
    rw [hop] at hint
    cases hint

theorem meets_iff (host : Host) (hvalid : s.core.Valid) (hint : dec.op.isInteger)
    (henc : Encodable 64 dec) (hlen : 2 ∣ length) :
    (∀ so, Meets { host with shiftOver := so } dec length s) ↔ Exact64 dec s := by
  unfold Exact64
  by_cases hreg : ∃ op, dec.op = .reg op
  · obtain ⟨op, hop⟩ := hreg
    have hiff : ∀ so, Meets { host with shiftOver := so } dec length s ↔
        dec.rd = rv_ireg_x0 ∨
          op.eval so (s.ireg dec.rs1) (s.ireg dec.rs2) =
            op.result (s.ireg dec.rs1) (s.ireg dec.rs2) := by
      intro so
      refine meets_iff_setReg hvalid.x0 ?_ (length_accepted (by decide) hlen) ?_
      · rw [execInst, hop]
      · rw [Core.next, hop]
        rfl
    rw [hop]
    simp only [hiff, ← op.eval_iff]
    exact forall_or_left
  · have hreg' : ∀ op, dec.op ≠ .reg op := fun op h => hreg ⟨op, h⟩
    refine iff_of_true (fun so => meets_of_not_reg _ hvalid hint henc hlen hreg') ?_
    split
    · rename_i op hop
      exact absurd hop (hreg' op)
    · trivial

end Rv64

end RvCkpt.Isa
