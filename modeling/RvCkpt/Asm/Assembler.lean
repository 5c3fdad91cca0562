import RvCkpt.Asm.RoundTrip
import RvCkpt.Lib.Bytes
import Mathlib.Algebra.Ring.Int.Parity
import Mathlib.Tactic.Linarith
import Mathlib.Tactic.Ring

/-! # The assembler

The part of `src/src/asm/assembler.cc` that materialises an immediate, with the emitters of
`src/src/asm/jit.cc` that it calls. A section is the list of its bytes.
-/

namespace RvCkpt.Asm
open ByteMem
set_option autoImplicit false

/-! ## Operands -/

/-- `simm_t<W>::valid()` -/
def simm_valid (w : ℕ) (imm : BitVec 64) : Bool :=
  imm.toInt ≤ 2 ^ (w - 1) - 1 && -2 ^ (w - 1) ≤ imm.toInt

/-- `uimm_t<W>::valid()` -/
def uimm_valid (w : ℕ) (imm : BitVec 64) : Bool := imm.toNat ≤ 2 ^ w - 1

/-- `bitextend` on `s64`. -/
def bitextend (val : BitVec 64) (b : ℕ) : BitVec 64 :=
  let mask := 1 <<< (b - 1)
  let val := val &&& ((1 <<< b) - 1)
  (val ^^^ mask) - mask

/-- `ctz` -/
def ctz (val : BitVec 64) : ℕ := val.ctz.toNat

def ispow2 (val : BitVec 64) : Bool := val ≠ 0 && val &&& (val - 1) = 0

/-! ## Emitters -/

section Emit
variable (rd rs1 imm : BitVec 64)

/-- The constructor of `decode` with the fields that an emitter of these sets. -/
def emitted (op : Op) : Decode :=
  { Decode.init with op := op, rd := rd.truncate 8, rs1 := rs1.truncate 8, imm := imm.truncate 32 }

def emit_lui : Option (BitVec 64) :=
  if !(uimm_valid 5 rd && simm_valid 32 imm) then some 0 else encode_inst (emitted rd 0 imm .lui)

def emit_addi : Option (BitVec 64) :=
  if !(uimm_valid 5 rd && uimm_valid 5 rs1 && simm_valid 12 imm) then some 0
  else encode_inst (emitted rd rs1 imm .addi)

def emit_slli : Option (BitVec 64) :=
  if !(uimm_valid 5 rd && uimm_valid 5 rs1 && uimm_valid 7 imm) then some 0
  else encode_inst (emitted rd rs1 imm .slli)

end Emit

def inst_length (inst : BitVec 64) : ℕ :=
  if inst &&& 0b11 ≠ 0b11 then 2
  else if inst &&& 0b11100 ≠ 0b11100 then 4
  else if inst &&& 0b111111 = 0b011111 then 6
  else if inst &&& 0b1111111 = 0b0111111 then 8
  else 0

/-- `assembler::append` of the low `n` bytes. -/
def append (n : ℕ) (d : BitVec 64) (buf : List Byte) : List Byte :=
  buf ++ (List.range n).map (byteAt d)

def add_inst (inst : BitVec 64) (buf : List Byte) : List Byte :=
  match inst_length inst with
  | 2 => append 2 inst buf
  | 4 => append 4 inst buf
  | 6 => append 2 (inst >>> 32) (append 4 inst buf)
  | 8 => append 8 inst buf
  | _ => buf

/-! ## Immediates -/

/-- The test for 32 bits in `load_imm_r`. -/
def isWord (val : BitVec 64) : Bool :=
  val &&& ~~~0x7fffffff = 0 || val &&& ~~~0x7fffffff = ~~~0x7fffffff

/-- `hi` of `load_imm_r`: what is left of `val` without the digit that an `addi` adds. -/
def highPart (val : BitVec 64) : BitVec 64 := val - bitextend val 12

def shiftOf (hi : BitVec 64) : ℕ := 12 + ctz (hi >>> 12)

/-! ## The digits of an immediate -/

/-- The exclusive or flips the sign, and what it adds or takes away is then subtracted. -/
theorem flip_sub (x : BitVec 12) : (x.zeroExtend 64 ^^^ 2048) - 2048 = x.signExtend 64 := by
  have hlt := x.isLt
  have hmod : (x.toNat ^^^ 2048) % 2 ^ 11 = x.toNat % 2 ^ 11 := by
    rw [Nat.xor_mod_two_pow]
    exact Nat.xor_zero _
  have hdiv : (x.toNat ^^^ 2048) / 2 ^ 11 = x.toNat / 2 ^ 11 ^^^ 1 := Nat.xor_div_two_pow
  have hflip : (x.zeroExtend 64 ^^^ 2048).toNat = x.toNat ^^^ 2048 := by
    rw [BitVec.toNat_xor, BitVec.toNat_setWidth_of_le (by decide)]
    rfl
  apply BitVec.eq_of_toInt_eq
  rw [BitVec.toInt_signExtend_of_le (by decide), BitVec.toInt_eq_toNat_cond,
    BitVec.toInt_eq_toNat_cond, BitVec.toNat_sub, hflip]
  have hconst : (2048 : BitVec 64).toNat = 2048 := rfl
  rcases (show x.toNat / 2 ^ 11 = 0 ∨ x.toNat / 2 ^ 11 = 1 by omega) with htop | htop
  · rw [htop] at hdiv
    have hone : (x.toNat ^^^ 2048) / 2 ^ 11 = 1 := hdiv
    omega
  · rw [htop] at hdiv
    have hzero : (x.toNat ^^^ 2048) / 2 ^ 11 = 0 := hdiv
    omega

theorem bitextend_eq (val : BitVec 64) : bitextend val 12 = (val.truncate 12).signExtend 64 := by
  have hlow : val &&& ((1 <<< 12) - 1) = (val.truncate 12).zeroExtend 64 := by
    apply BitVec.eq_of_toNat_eq
    rw [BitVec.toNat_and, BitVec.toNat_setWidth, BitVec.toNat_setWidth]
    exact (Nat.and_two_pow_sub_one_eq_mod _ 12).trans (by omega)
  rw [bitextend, hlow]
  exact flip_sub _

theorem bitextend_toInt (val : BitVec 64) : (bitextend val 12).toInt = val.toInt.bmod 4096 := by
  rw [bitextend_eq, BitVec.toInt_signExtend_of_le (by decide), BitVec.toInt_setWidth,
    BitVec.toInt_eq_toNat_bmod, Int.bmod_bmod_of_dvd (by decide)]

theorem bmod_digit (v : ℤ) : -2048 ≤ v.bmod 4096 ∧ v.bmod 4096 < 2048 := by
  constructor <;> rw [Int.bmod_def] <;> split <;> omega

theorem dvd_sub_bmod (v : ℤ) : 4096 ∣ v - v.bmod 4096 := by
  rw [Int.bmod_def]
  split <;> omega

theorem toInt_cases (x : BitVec 64) :
    x.toInt = x.toNat ∧ x.toNat < 2 ^ 63 ∨ x.toInt = x.toNat - 2 ^ 64 ∧ 2 ^ 63 ≤ x.toNat := by
  rw [BitVec.toInt_eq_toNat_cond]
  split
  · exact .inl ⟨rfl, by omega⟩
  · exact .inr ⟨by norm_cast, by omega⟩

theorem isWord_iff (val : BitVec 64) :
    isWord val = true ↔ -2 ^ 31 ≤ val.toInt ∧ val.toInt < 2 ^ 31 := by
  have hhigh : (val &&& ~~~0x7fffffff).toNat = val.toNat / 2 ^ 31 * 2 ^ 31 := by
    have hmask : ∀ j < 64, (~~~0x7fffffff : BitVec 64).getLsbD j = !decide (j < 31) := by decide
    rw [and_not_low hmask, BitVec.toNat_shiftLeft, BitVec.toNat_ushiftRight, Nat.shiftLeft_eq,
      Nat.shiftRight_eq_div_pow]
    omega
  have hlt := val.isLt
  rw [isWord, Bool.or_eq_true, decide_eq_true_eq, decide_eq_true_eq, BitVec.toNat_eq,
    BitVec.toNat_eq, hhigh, show (~~~0x7fffffff : BitVec 64).toNat = 0xffffffff80000000 from rfl,
    show (0 : BitVec 64).toNat = 0 from rfl]
  rcases toInt_cases val with ⟨hint, hb⟩ | ⟨hint, hb⟩ <;> rw [hint] <;> omega

theorem ctz_spec {x : BitVec 64} (hx : x ≠ 0) : ∃ q, x.toNat = 2 ^ ctz x * (2 * q + 1) := by
  have hdvd : x.toNat % 2 ^ ctz x = 0 := by
    apply Nat.eq_of_testBit_eq
    intro i
    rw [Nat.testBit_mod_two_pow, Nat.zero_testBit]
    by_cases hi : i < ctz x
    · have hbit : x.toNat.testBit i = false := BitVec.getLsbD_false_of_lt_ctz hi
      rw [hbit, Bool.and_false]
    · rw [decide_eq_false hi, Bool.false_and]
  have hodd : x.toNat / 2 ^ ctz x % 2 = 1 := by
    have hbit : x.toNat.testBit (ctz x) = true := BitVec.getLsbD_true_ctz_of_ne_zero hx
    rwa [Nat.testBit_eq_decide_div_mod_eq, decide_eq_true_eq] at hbit
  refine ⟨x.toNat / 2 ^ ctz x / 2, ?_⟩
  have hq := Nat.div_add_mod (x.toNat / 2 ^ ctz x) 2
  rw [hodd] at hq
  rw [hq]
  exact (Nat.mul_div_cancel' (Nat.dvd_of_mod_eq_zero hdvd)).symm

theorem ispow2_spec {val : BitVec 64} (h : ispow2 val = true) : val.toNat = 2 ^ ctz val := by
  rw [ispow2, Bool.and_eq_true, decide_eq_true_eq, decide_eq_true_eq] at h
  obtain ⟨hne, hand⟩ := h
  obtain ⟨q, hq⟩ := ctz_spec hne
  have hpos : 0 < 2 ^ ctz val := Nat.two_pow_pos _
  have hsum : val.toNat = 2 ^ (ctz val + 1) * q + 2 ^ ctz val := by
    rw [hq, Nat.pow_succ]
    ring
  have hpred : (val - 1).toNat = 2 ^ (ctz val + 1) * q + (2 ^ ctz val - 1) := by
    have hlt := val.isLt
    rw [BitVec.toNat_sub]
    show (2 ^ 64 - 1 + val.toNat) % 2 ^ 64 = _
    omega
  have hle : 2 ^ ctz val < 2 ^ (ctz val + 1) := Nat.pow_lt_pow_succ (by decide)
  -- above the lowest bit both numbers have the bits of `q`
  have hq0 : q = 0 := by
    apply Nat.eq_of_testBit_eq
    intro i
    have hbits : (val.toNat &&& (val - 1).toNat).testBit (i + (ctz val + 1)) = false := by
      rw [← BitVec.toNat_and, hand]
      exact Nat.zero_testBit _
    rw [Nat.testBit_and, ← Nat.testBit_div_two_pow, ← Nat.testBit_div_two_pow, hpred, hsum,
      Nat.mul_add_div (Nat.two_pow_pos _), Nat.mul_add_div (Nat.two_pow_pos _),
      Nat.div_eq_of_lt hle, Nat.div_eq_of_lt (by omega), Nat.add_zero, Bool.and_self] at hbits
    rw [hbits, Nat.zero_testBit]
  rw [hsum, hq0, Nat.mul_zero, Nat.zero_add]

theorem ctz_lt {val : BitVec 64} (h : ispow2 val = true) : ctz val < 64 := by
  rw [← Nat.pow_lt_pow_iff_right (a := 2) (by decide), ← ispow2_spec h]
  exact val.isLt

theorem shiftOf_lt {hi : BitVec 64} {q : ℕ} (h : hi.toNat = 2 ^ shiftOf hi * (2 * q + 1)) :
    shiftOf hi < 64 := by
  rw [← Nat.pow_lt_pow_iff_right (a := 2) (by decide)]
  exact Nat.lt_of_le_of_lt (Nat.le_mul_of_pos_right _ (Nat.succ_pos _)) (h ▸ hi.isLt)

/-- The shift takes off all trailing zeros of a multiple of 4096. -/
theorem exists_odd_high {hi : BitVec 64} (hdvd : 4096 ∣ hi.toNat) (hpos : 0 < hi.toNat) :
    shiftOf hi < 64 ∧ ∃ m : ℤ, hi.toInt = m * 2 ^ shiftOf hi ∧ Odd m := by
  obtain ⟨q, hq⟩ : ∃ q, hi.toNat = 2 ^ shiftOf hi * (2 * q + 1) := by
    have hne : hi >>> 12 ≠ 0 := by
      rw [ne_eq, BitVec.toNat_eq, BitVec.toNat_ushiftRight, Nat.shiftRight_eq_div_pow]
      exact Nat.ne_of_gt (Nat.div_pos (Nat.le_of_dvd hpos hdvd) (by decide))
    obtain ⟨q, hq⟩ := ctz_spec hne
    rw [BitVec.toNat_ushiftRight, Nat.shiftRight_eq_div_pow] at hq
    refine ⟨q, ?_⟩
    rw [shiftOf, Nat.pow_add, Nat.mul_assoc, ← hq]
    exact (Nat.mul_div_cancel' hdvd).symm
  have hlt := shiftOf_lt hq
  refine ⟨hlt, ?_⟩
  have hcast : (hi.toNat : ℤ) = 2 ^ shiftOf hi * (2 * q + 1) := by
    rw [hq]
    push_cast
    rfl
  rcases toInt_cases hi with ⟨hint, -⟩ | ⟨hint, -⟩
  · exact ⟨2 * q + 1, by rw [hint, hcast, mul_comm], q, rfl⟩
  · obtain ⟨u, hu⟩ : ∃ u, 64 = shiftOf hi + (u + 1) := ⟨63 - shiftOf hi, by omega⟩
    refine ⟨2 * q + 1 - 2 ^ (u + 1), ?_, q - 2 ^ u, by ring⟩
    rw [hint, hcast, hu, pow_add]
    ring

/-- What `load_imm_r` computes from a value that is too long: its lowest digit, and an odd number
of which the rest is a multiple. -/
structure Peeled (val : BitVec 64) (m d : ℤ) : Prop where
  low : (bitextend val 12).toInt = d
  high : ((highPart val).sshiftRight (shiftOf (highPart val))).toInt = m
  odd : Odd m
  digit : -2048 ≤ d ∧ d < 2048
  lt : shiftOf (highPart val) < 64
  /-- Only 2 ^ 63 wraps. -/
  sum : val.toInt = m * 2 ^ shiftOf (highPart val) + d ∨
    m = -1 ∧ shiftOf (highPart val) = 63 ∧ val.toInt = 2 ^ 63 + d

theorem exists_peeled {val : BitVec 64} (hlong : isWord val = false) :
    ∃ m d, Peeled val m d := by
  have hnot : ¬ (-2 ^ 31 ≤ val.toInt ∧ val.toInt < 2 ^ 31) := by
    rw [← isWord_iff, hlong]
    exact Bool.false_ne_true
  have hlo := @BitVec.le_toInt 64 val
  have hhi := @BitVec.toInt_lt 64 val
  have hd := bmod_digit val.toInt
  have hdvd := dvd_sub_bmod val.toInt
  have hH : (highPart val).toInt = (val.toInt - val.toInt.bmod 4096).bmod (2 ^ 64) := by
    rw [highPart, BitVec.toInt_sub, bitextend_toInt]
  generalize hdd : val.toInt.bmod 4096 = d at hd hdvd hH
  have hwrap : (highPart val).toInt = val.toInt - d ∨
      (highPart val).toInt = -2 ^ 63 ∧ val.toInt = 2 ^ 63 + d := by
    rw [hH, Int.bmod_def]
    split <;> omega
  have hx : 4096 ∣ (highPart val).toNat ∧ 0 < (highPart val).toNat := by
    rcases toInt_cases (highPart val) with ⟨hint, -⟩ | ⟨hint, -⟩ <;> omega
  obtain ⟨hlt, m, hm, hodd⟩ := exists_odd_high hx.1 hx.2
  refine ⟨m, d, by rw [bitextend_toInt, hdd], ?_, hodd, hd, hlt, ?_⟩
  · rw [BitVec.toInt_sshiftRight, Int.shiftRight_eq_div_pow, hm]
    exact Int.mul_ediv_cancel _ (by positivity)
  · rcases hwrap with h | ⟨h, hv⟩
    · exact .inl (by omega)
    · right
      obtain ⟨u, hu⟩ : ∃ u, 63 = shiftOf (highPart val) + u := ⟨63 - shiftOf (highPart val), by omega⟩
      have hmu : m = -2 ^ u := by
        rw [h, hu, pow_add, ← neg_mul, neg_mul_comm, mul_comm] at hm
        exact (mul_right_cancel₀ (by positivity) hm).symm
      cases u with
      | zero => exact ⟨hmu, by omega, hv⟩
      | succ u =>
        -- the power of two would be odd
        obtain ⟨j, hj⟩ := hodd
        rw [pow_succ] at hmu
        omega

theorem shiftOf_le (hi : BitVec 64) : 12 ≤ shiftOf hi := Nat.le_add_right _ _

/-- The value gets smaller, so the recursion ends; the bytes emitted for a digit are at most 8. -/
theorem natAbs_high_le {val : BitVec 64} (hlong : isWord val = false) :
    ((highPart val).sshiftRight (shiftOf (highPart val))).toInt.natAbs + 8 ≤
      val.toInt.natAbs := by
  obtain ⟨m, d, h⟩ := exists_peeled hlong
  have hnot : ¬ (-2 ^ 31 ≤ val.toInt ∧ val.toInt < 2 ^ 31) := by
    rw [← isWord_iff, hlong]
    exact Bool.false_ne_true
  obtain ⟨u, hu⟩ : ∃ u, shiftOf (highPart val) = 12 + u :=
    ⟨shiftOf (highPart val) - 12, (Nat.add_sub_cancel' (shiftOf_le _)).symm⟩
  have hd := h.digit
  rw [h.high]
  rcases h.sum with hv | ⟨rfl, -, hv⟩
  · have hpow : (1 : ℤ) ≤ 2 ^ u := one_le_pow₀ (by decide)
    rw [hu, pow_add, mul_comm ((2 : ℤ) ^ 12), ← mul_assoc] at hv
    have hle : m.natAbs ≤ (m * 2 ^ u).natAbs := by
      rw [Int.natAbs_mul]
      exact Nat.le_mul_of_pos_right _ (Int.natAbs_pos.mpr (by omega))
    omega
  · omega

def load_imm_r (rd val : BitVec 64) (buf : List Byte) : Option (List Byte) :=
  if isWord val then do
    let buf := add_inst (← emit_lui rd (val.sshiftRight 12 <<< 12)) buf
    let val := val - val.sshiftRight 12 <<< 12
    if val ≠ 0 then
      return add_inst (← emit_addi rd rd (bitextend val 12)) buf
    else
      return buf
  else do
    let lo := bitextend val 12
    let hi := val - lo
    let shift := 12 + ctz (hi >>> 12)
    let buf ← load_imm_r rd (hi.sshiftRight shift) buf
    let buf := add_inst (← emit_slli rd rd (BitVec.ofNat 64 shift)) buf
    if lo ≠ 0 then
      return add_inst (← emit_addi rd rd (bitextend lo 12)) buf
    else
      return buf
termination_by val.toInt.natAbs
decreasing_by
  rename_i hword
  have hle := natAbs_high_le (Bool.eq_false_of_not_eq_true hword)
  exact Nat.lt_of_lt_of_le (Nat.lt_add_of_pos_right (by decide)) hle

def load_imm (rd val : BitVec 64) (buf : List Byte) : Option (List Byte) :=
  if -2048 ≤ val.toInt ∧ val.toInt ≤ 2047 then do
    return add_inst (← emit_addi rd 0 val) buf
  else if ispow2 val then do
    let buf := add_inst (← emit_addi rd 0 1) buf
    return add_inst (← emit_slli rd rd (BitVec.ofNat 64 (ctz val))) buf
  else
    load_imm_r rd val buf

end RvCkpt.Asm
