import RvCkpt.Asm.Int128

/-! # Integers of 128 bits against exact arithmetic

Every operator is that of the words of 128 bits, except the products, that lose the upper word of
the lower words' product.
-/

namespace RvCkpt.Asm
set_option autoImplicit false

open DoubleWord

/-! ## Two words together -/

theorem shiftCount_ofNat {s : ℕ} (hs : s < 128) : shiftCount (.ofNat 32 s) = s := by
  have hmask : (127 : BitVec 32).toNat = 2 ^ 7 - 1 := rfl
  rw [shiftCount, BitVec.toNat_and, BitVec.toNat_ofNat, hmask, Nat.and_two_pow_sub_one_eq_mod]
  omega

theorem word_ult (a b : BitVec 64) : word (a.ult b) = .ofNat 64 (if a < b then 1 else 0) := by
  by_cases h : a < b
  · rw [BitVec.ult_iff_lt.mpr h, if_pos h]
    rfl
  · rw [Bool.eq_false_iff.mpr fun hult => h (BitVec.ult_iff_lt.mp hult), if_neg h]
    rfl

theorem bool_eq_decide {b : Bool} {p : Prop} [Decidable p] (h : b = true ↔ p) : b = decide p :=
  Bool.eq_iff_iff.mpr (h.trans decide_eq_true_iff.symm)

theorem append_sum (xh xl yh yl : BitVec 64) :
    (xh + yh + word ((xl + yl).ult xl)) ++ (xl + yl) = (xh ++ xl) + (yh ++ yl) := by
  rw [append_add, word_ult]

theorem append_diff (xh xl yh yl : BitVec 64) :
    (xh - yh - word (xl.ult (xl - yl))) ++ (xl - yl) = (xh ++ xl) - (yh ++ yl) := by
  rw [append_sub, word_ult]

theorem sign_word (x : BitVec 64) : x >>> 63 = word x.msb := by
  have hx := x.isLt
  apply BitVec.eq_of_toNat_eq
  rw [BitVec.toNat_ushiftRight, Nat.shiftRight_eq_div_pow, BitVec.msb_eq_decide]
  by_cases h : 2 ^ (64 - 1) ≤ x.toNat
  · rw [decide_eq_true h]
    change _ = 1
    omega
  · rw [decide_eq_false h]
    change _ = 0
    omega

/-- The constructor from one word extends its sign. -/
theorem append_fill (lo : BitVec 64) :
    ~~~(lo >>> 63 - 1) ++ lo = lo.signExtend (64 + 64) := by
  rw [signExtend_eq, sshiftRight_width, sign_word]
  cases lo.msb <;> rfl

theorem neg_sign (x : BitVec 64) : -(x >>> 63) = x.sshiftRight 64 := by
  rw [sshiftRight_width, sign_word]
  cases x.msb <;> rfl

/-! ## Products -/

/-- The sum of the products as both types form it. -/
theorem append_cross (a b c l : BitVec 64) :
    (a.signExtend (64 + 64) + b.signExtend (64 + 64) + c.signExtend (64 + 64)) <<< 64 +
        l.signExtend (64 + 64) =
      (a + b + (c - word l.msb)) ++ l := by
  have hcarry : ¬(0#64 + l < 0#64) := BitVec.not_lt_zero
  rw [signExtend_eq, signExtend_eq, signExtend_eq, signExtend_eq, append_add, append_add,
    append_shiftLeft_of_ge _ _ (Nat.le_refl 64), append_add, if_neg hcarry, ← neg_sign l, sign_word,
    Nat.sub_self, BitVec.shiftLeft_zero, BitVec.zero_add, BitVec.add_zero, BitVec.sub_eq_add_neg,
    BitVec.add_assoc]

/-- What is added to the cross products is the upper word of the lower words' product where that
product, rounded to words, is the carry. -/
theorem append_cross_eq_iff (xh xl yh yl : BitVec 64) (c : Bool) :
    (xh * yl + xl * yh + (word c - word (xl * yl).msb)) ++ (xl * yl) = (xh ++ xl) * (yh ++ yl) ↔
      (xl.toNat * yl.toNat + 2 ^ 63) / 2 ^ 64 = if c then 1 else 0 := by
  have hupper : word c - word (xl * yl).msb = BitVec.ofNat 64 (xl.toNat * yl.toNat / 2 ^ 64) ↔
      (word c).toNat = (xl.toNat * yl.toNat / 2 ^ 64 + (word (xl * yl).msb).toNat) % 2 ^ 64 := by
    rw [BitVec.sub_eq_iff_eq_add, BitVec.toNat_eq, BitVec.toNat_add, BitVec.toNat_ofNat,
      Nat.mod_add_mod]
  have hbound : xl.toNat * yl.toNat ≤ (2 ^ 64 - 1) * (2 ^ 64 - 1) :=
    Nat.mul_le_mul (Nat.le_sub_one_of_lt xl.isLt) (Nat.le_sub_one_of_lt yl.isLt)
  have hmsb : (word (xl * yl).msb).toNat = xl.toNat * yl.toNat % 2 ^ 64 / 2 ^ 63 := by
    rw [← sign_word, BitVec.toNat_ushiftRight, Nat.shiftRight_eq_div_pow, BitVec.toNat_mul]
  have hword : (word c).toNat = if c then 1 else 0 := by cases c <;> rfl
  rw [append_mul, ← hword]
  refine Iff.trans ⟨fun h => ?_, fun h => ?_⟩ (hupper.trans ?_)
  · exact add_left_cancel (append_inj h).1
  · rw [h]
  · have hone : (word c).toNat ≤ 1 := by cases c <;> decide
    generalize xl.toNat * yl.toNat = p at hbound hmsb ⊢
    omega

/-! ## Unsigned -/

namespace U128

def bits (x : U128) : BitVec (64 + 64) := x.hi ++ x.lo

theorem bits_toNat (x : U128) : x.bits.toNat = x.value := toNat_append x.hi x.lo

theorem value_lt (x : U128) : x.value < 2 ^ 128 := x.bits_toNat ▸ x.bits.isLt

@[simp] theorem bits_ofWord (lo : BitVec 64) : (ofWord lo).bits = lo.signExtend (64 + 64) :=
  append_fill lo

theorem bits_one : (1 : U128).bits = 1 := rfl

theorem bits_and (x y : U128) : (x.and y).bits = x.bits &&& y.bits := BitVec.and_append.symm

theorem bits_or (x y : U128) : (x.or y).bits = x.bits ||| y.bits := BitVec.or_append.symm

theorem bits_not (x : U128) : x.not.bits = ~~~x.bits := BitVec.not_append.symm

theorem bits_add (x y : U128) : (x.add y).bits = x.bits + y.bits :=
  append_sum x.hi x.lo y.hi y.lo

theorem bits_sub (x y : U128) : (x.sub y).bits = x.bits - y.bits :=
  append_diff x.hi x.lo y.hi y.lo

theorem bits_neg (x : U128) : x.neg.bits = -x.bits := by
  rw [neg, bits_add, bits_not, bits_one, BitVec.neg_eq_not_add]
  rfl

theorem bits_shl (x : U128) {s : ℕ} (hs : s < 128) :
    (x.shl (.ofNat 32 s)).bits = x.bits <<< s := by
  simp only [shl, shiftCount_ofNat hs]
  split_ifs with hzero hlow
  · rw [hzero, BitVec.shiftLeft_zero]
  · exact (append_shiftLeft_of_lt x.hi x.lo hlow).symm
  · exact (append_shiftLeft_of_ge x.hi x.lo (Nat.le_of_not_lt hlow)).symm

theorem bits_shr (x : U128) {s : ℕ} (hs : s < 128) :
    (x.shr (.ofNat 32 s)).bits = x.bits >>> s := by
  simp only [shr, shiftCount_ofNat hs]
  split_ifs with hzero hlow
  · rw [hzero, BitVec.ushiftRight_zero]
  · exact (append_ushiftRight_of_lt x.hi x.lo hlow).symm
  · exact (append_ushiftRight_of_ge x.hi x.lo (Nat.le_of_not_lt hlow)).symm

/-! ### Comparisons -/

theorem eq_iff (x y : U128) : x.eq y = true ↔ x.value = y.value := by
  have hx := x.lo.isLt
  have hy := y.lo.isLt
  rw [eq, Bool.and_eq_true, beq_iff_eq, beq_iff_eq, BitVec.toNat_eq, BitVec.toNat_eq, value, value]
  omega

theorem lt_iff (x y : U128) : x.lt y = true ↔ x.value < y.value := by
  have hx := x.lo.isLt
  have hy := y.lo.isLt
  rw [lt, Bool.or_eq_true, Bool.and_eq_true, beq_iff_eq, BitVec.ult_iff_lt, BitVec.ult_iff_lt,
    BitVec.lt_def, BitVec.lt_def, BitVec.toNat_eq, value, value]
  omega

theorem ge_iff (x y : U128) : x.ge y = true ↔ y.value ≤ x.value := by
  have hx := x.lo.isLt
  have hy := y.lo.isLt
  rw [ge, Bool.or_eq_true, Bool.and_eq_true, beq_iff_eq, BitVec.ult_iff_lt, BitVec.ule_iff_le,
    BitVec.lt_def, BitVec.le_def, BitVec.toNat_eq, value, value]
  omega

theorem ne_eq_not (x y : U128) : x.ne y = !x.eq y := by
  rw [ne, eq, Bool.not_and]
  rfl

theorem gt_eq_lt (x y : U128) : x.gt y = y.lt x := by
  rw [gt, lt, Bool.beq_comm]

theorem le_eq_ge (x y : U128) : x.le y = y.ge x := by
  rw [le, ge, Bool.beq_comm]

/-! ### Products -/

theorem mul_bits (x y : U128) :
    (x.mul y).bits =
      (x.hi * y.lo + x.lo * y.hi +
        (word (((ofWord (x.hi * y.lo)).add (ofWord (x.lo * y.hi))).lt (ofWord (x.hi * y.lo))) -
          word (x.lo * y.lo).msb)) ++ (x.lo * y.lo) := by
  have hcount : (64 : BitVec 32) = .ofNat 32 64 := rfl
  simp only [mul]
  rw [bits_add, hcount, bits_shl _ (by decide), bits_add, bits_add, bits_ofWord, bits_ofWord,
    bits_ofWord, bits_ofWord, append_cross]

theorem value_ofWord (lo : BitVec 64) :
    (ofWord lo).value = (if 2 ^ 63 ≤ lo.toNat then 2 ^ 128 - 2 ^ 64 else 0) + lo.toNat := by
  rw [value, ofWord, sign_word, BitVec.msb_eq_decide]
  have hones : (~~~(word true - 1)).toNat = 2 ^ 64 - 1 := by decide
  have hzeros : (~~~(word false - 1)).toNat = 0 := by decide
  by_cases h : 2 ^ (64 - 1) ≤ lo.toNat
  · have hupper : (2 ^ 64 - 1) * 2 ^ 64 = 2 ^ 128 - 2 ^ 64 := by decide
    rw [decide_eq_true h, if_pos h, hones, hupper]
  · rw [decide_eq_false h, if_neg h, hzeros, Nat.zero_mul]

/-- The carry of the extended cross products is that of their lower words. -/
theorem carry_iff (a b : BitVec 64) :
    ((ofWord a).add (ofWord b)).lt (ofWord a) = true ↔ 2 ^ 64 ≤ a.toNat + b.toNat := by
  have ha := a.isLt
  have hb := b.isLt
  rw [lt_iff, ← bits_toNat, bits_add, BitVec.toNat_add, bits_toNat, bits_toNat, value_ofWord,
    value_ofWord]
  split_ifs <;> omega

theorem mul_value_iff (x y : U128) :
    (x.mul y).value = x.value * y.value % 2 ^ 128 ↔ MulFits x y := by
  have hbits : (x.mul y).value = x.value * y.value % 2 ^ 128 ↔
      (x.mul y).bits = x.bits * y.bits := by
    rw [BitVec.toNat_eq, BitVec.toNat_mul, bits_toNat, bits_toNat, bits_toNat]
  have ha := Nat.mod_lt (x.hi.toNat * y.lo.toNat) (Nat.two_pow_pos 64)
  have hb := Nat.mod_lt (x.lo.toNat * y.hi.toNat) (Nat.two_pow_pos 64)
  have hcarry : (if ((ofWord (x.hi * y.lo)).add (ofWord (x.lo * y.hi))).lt (ofWord (x.hi * y.lo))
      then 1 else 0) =
      (x.hi.toNat * y.lo.toNat % 2 ^ 64 + x.lo.toNat * y.hi.toNat % 2 ^ 64) / 2 ^ 64 := by
    simp only [carry_iff, BitVec.toNat_mul]
    split_ifs <;> omega
  rw [hbits, mul_bits, bits, bits, append_cross_eq_iff, MulFits, hcarry]

/-! ### Division -/

theorem ofWord_word (b : Bool) : ofWord (word b) = if b then 1 else 0 := by
  cases b <;> rfl

/-- The divisor or nothing. -/
theorem bits_masked (y : U128) (b : Bool) :
    (y.and (ofWord (word b)).neg).bits = if b then y.bits else 0 := by
  rw [bits_and, bits_neg, ofWord_word]
  cases b with
  | false => exact BitVec.and_zero
  | true => exact BitVec.and_allOnes

theorem value_or (x y : U128) {k m : ℕ} (hx : x.value = k * 2 ^ m) (hy : y.value < 2 ^ m) :
    (x.or y).value = x.value + y.value := by
  rw [← bits_toNat, bits_or, BitVec.toNat_or, bits_toNat, bits_toNat, hx, ← Nat.shiftLeft_eq,
    ← Nat.shiftLeft_add_eq_or_of_lt hy]

theorem value_shl (x : U128) {s : ℕ} (hs : s < 128) :
    (x.shl (.ofNat 32 s)).value = x.value * 2 ^ s % 2 ^ 128 := by
  rw [← bits_toNat, bits_shl x hs, BitVec.toNat_shiftLeft, bits_toNat, Nat.shiftLeft_eq]

theorem value_shr (x : U128) {s : ℕ} (hs : s < 128) :
    (x.shr (.ofNat 32 s)).value = x.value / 2 ^ s := by
  rw [← bits_toNat, bits_shr x hs, BitVec.toNat_ushiftRight, bits_toNat,
    Nat.shiftRight_eq_div_pow]

theorem value_and_one (x : U128) : (x.and 1).value = x.value % 2 := by
  rw [← bits_toNat, bits_and, BitVec.toNat_and, bits_toNat]
  exact Nat.and_one_is_mod x.value

/-- The next bit of the dividend below the remainder. -/
theorem value_next (x r : U128) {i : ℕ} (hi : i < 128) (hr : r.value < 2 ^ 127) :
    ((r.shl 1).or ((x.shr (.ofNat 32 i)).and 1)).value = 2 * r.value + x.value / 2 ^ i % 2 := by
  have hbit : ((x.shr (.ofNat 32 i)).and 1).value = x.value / 2 ^ i % 2 := by
    rw [value_and_one, value_shr x hi]
  have hshl : (r.shl 1).value = r.value * 2 ^ 1 := by
    have hcount : (1 : BitVec 32) = .ofNat 32 1 := rfl
    rw [hcount, value_shl r (by decide), Nat.mod_eq_of_lt (by omega)]
  rw [value_or _ _ hshl (by rw [hbit]; exact Nat.mod_lt _ (by decide)), hbit, hshl, Nat.pow_one,
    Nat.mul_comm]

theorem value_quotient (q : U128) (b : Bool) {i k : ℕ} (hi : i < 128)
    (hq : q.value = k * 2 ^ (i + 1)) :
    (q.or ((ofWord (word b)).shl (.ofNat 32 i))).value = (2 * k + if b then 1 else 0) * 2 ^ i := by
  have hbit : ((ofWord (word b)).shl (.ofNat 32 i)).value = (if b then 1 else 0) * 2 ^ i := by
    have hlt : 2 ^ i < 2 ^ 128 := Nat.pow_lt_pow_right (by decide) hi
    have hone : (ofWord (word b)).value = if b then 1 else 0 := by cases b <;> rfl
    rw [value_shl _ hi, hone]
    cases b with
    | false => rw [if_neg Bool.false_ne_true, Nat.zero_mul, Nat.zero_mod]
    | true => rw [if_pos rfl, Nat.one_mul, Nat.mod_eq_of_lt hlt]
  have hlt : (if b then 1 else 0) * 2 ^ i < 2 ^ (i + 1) := by
    have hpos := Nat.two_pow_pos i
    rw [Nat.pow_succ]
    cases b <;> simp
  rw [value_or _ _ hq (hbit ▸ hlt), hbit, hq, Nat.pow_succ]
  ring

/-- The quotient, shifted, and the remainder of the dividend's upper bits. -/
structure Divides (x y : U128) (i : ℕ) (qr : U128 × U128) : Prop where
  quotient : qr.1.value = x.value / 2 ^ i / y.value * 2 ^ i
  remainder : qr.2.value = x.value / 2 ^ i % y.value

theorem Divides.init (x y : U128) : Divides x y 128 (0, 0) := by
  have hx : x.value / 2 ^ 128 = 0 := Nat.div_eq_of_lt x.value_lt
  refine ⟨?_, ?_⟩
  · rw [hx, Nat.zero_div, Nat.zero_mul]
    rfl
  · rw [hx, Nat.zero_mod]
    rfl

theorem Divides.step {x y : U128} {i : ℕ} {qr : U128 × U128} (hi : i < 128) (hy : y.value ≠ 0)
    (h : Divides x y (i + 1) qr) : Divides x y i (divStep x y i qr) := by
  have hpos : 0 < y.value := Nat.pos_of_ne_zero hy
  have hr : qr.2.value < 2 ^ 127 := by
    have hle : x.value / 2 ^ (i + 1) ≤ x.value / 2 :=
      Nat.div_le_div_left (Nat.le_self_pow (Nat.succ_ne_zero i) 2) (by decide)
    have hx := x.value_lt
    have hmod := Nat.mod_le (x.value / 2 ^ (i + 1)) y.value
    rw [h.remainder]
    omega
  have hbit : x.value / 2 ^ i % 2 < 2 := Nat.mod_lt _ (by decide)
  have hnext := value_next x qr.2 hi hr
  obtain ⟨hdiv, hmod⟩ := bit_div_mod (m := x.value / 2 ^ (i + 1)) hbit hpos
  rw [← div_two_pow, ← h.remainder, ← hnext] at hdiv hmod
  have hge := ge_iff ((qr.2.shl 1).or ((x.shr (.ofNat 32 i)).and 1)) y
  refine ⟨?_, ?_⟩
  · simp only [divStep]
    rw [value_quotient _ _ hi h.quotient, hdiv]
    simp only [hge]
  · simp only [divStep]
    rw [← bits_toNat, bits_sub, bits_masked, hmod]
    by_cases hle : y.value ≤ ((qr.2.shl 1).or ((x.shr (.ofNat 32 i)).and 1)).value
    · rw [if_pos (hge.mpr hle), if_pos hle, BitVec.toNat_sub_of_le, bits_toNat, bits_toNat]
      rw [BitVec.le_def, bits_toNat, bits_toNat]
      exact hle
    · rw [if_neg fun h => hle (hge.mp h), if_neg hle, Nat.sub_zero]
      change (_ - 0#(64 + 64)).toNat = _
      rw [BitVec.sub_zero, bits_toNat]

theorem Divides.loop {x y : U128} (hy : y.value ≠ 0) {n : ℕ} {qr : U128 × U128} (hn : n ≤ 128)
    (h : Divides x y n qr) : Divides x y 0 (divLoop x y n qr) := by
  induction n generalizing qr with
  | zero => exact h
  | succ n ih => exact ih (Nat.le_of_succ_le hn) (h.step hn hy)

theorem eq_zero_iff (y : U128) : y.eq 0 = true ↔ y.value = 0 := eq_iff y 0

theorem value_div {x y : U128} (hy : y.value ≠ 0) : (x.div y).value = x.value / y.value := by
  have h := ((Divides.init x y).loop hy (Nat.le_refl 128)).quotient
  rw [Nat.pow_zero, Nat.div_one, Nat.mul_one] at h
  rw [div, if_neg fun hzero => hy ((eq_zero_iff y).mp hzero), h]

theorem value_mod {x y : U128} (hy : y.value ≠ 0) : (x.mod y).value = x.value % y.value := by
  have h := ((Divides.init x y).loop hy (Nat.le_refl 128)).remainder
  rw [Nat.pow_zero, Nat.div_one] at h
  rw [mod, if_neg fun hzero => hy ((eq_zero_iff y).mp hzero), h]

/-! ### All operators -/

theorem value_add (x y : U128) : (x.add y).value = (x.value + y.value) % 2 ^ 128 := by
  rw [← bits_toNat, bits_add, BitVec.toNat_add, bits_toNat, bits_toNat]

theorem value_sub (x y : U128) : ((x.sub y).value : ℤ) = (x.value - y.value) % 2 ^ 128 := by
  have hx := x.value_lt
  have hy := y.value_lt
  rw [← bits_toNat, bits_sub, BitVec.toNat_sub, bits_toNat, bits_toNat]
  omega

theorem value_neg (x : U128) : (x.neg.value : ℤ) = -x.value % 2 ^ 128 := by
  have hx := x.value_lt
  rw [← bits_toNat, bits_neg, BitVec.toNat_neg, bits_toNat]
  omega

theorem right_iff (x y : U128) : x.Right y ↔ MulFits x y := by
  refine ⟨fun h => (mul_value_iff x y).mp h.mul, fun h => ?_⟩
  exact
    { eq := bool_eq_decide (eq_iff x y)
      ne := by rw [ne_eq_not, bool_eq_decide (eq_iff x y), decide_not]
      lt := bool_eq_decide (lt_iff x y)
      gt := by rw [gt_eq_lt]; exact bool_eq_decide (lt_iff y x)
      ge := bool_eq_decide (ge_iff x y)
      le := by rw [le_eq_ge]; exact bool_eq_decide (ge_iff y x)
      shl := fun s hs => value_shl x hs
      shr := fun s hs => value_shr x hs
      add := value_add x y
      sub := value_sub x y
      neg := value_neg x
      mul := (mul_value_iff x y).mpr h
      div := value_div
      mod := value_mod
      restores := fun hy => by rw [value_div hy, value_mod hy, Nat.div_add_mod']
      smaller := fun hy => by rw [value_mod hy]; exact Nat.mod_lt _ (Nat.pos_of_ne_zero hy) }

end U128

/-! ## Signed -/

namespace S128

def bits (x : S128) : BitVec (64 + 64) := x.hi ++ x.lo

theorem bits_toInt (x : S128) : x.bits.toInt = x.value := toInt_append x.hi x.lo

theorem bits_ofWord (lo : BitVec 64) : (ofWord lo).bits = lo.signExtend (64 + 64) :=
  append_fill lo

theorem bits_not (x : S128) : x.not.bits = ~~~x.bits := BitVec.not_append.symm

theorem bits_add (x y : S128) : (x.add y).bits = x.bits + y.bits :=
  append_sum x.hi x.lo y.hi y.lo

theorem bits_sub (x y : S128) : (x.sub y).bits = x.bits - y.bits :=
  append_diff x.hi x.lo y.hi y.lo

theorem bits_neg (x : S128) : x.neg.bits = -x.bits := by
  rw [neg, bits_add, bits_not, BitVec.neg_eq_not_add]
  rfl

theorem bits_shl (x : S128) {s : ℕ} (hs : s < 128) :
    (x.shl (.ofNat 32 s)).bits = x.bits <<< s := by
  simp only [shl, shiftCount_ofNat hs]
  split_ifs with hzero hlow
  · rw [hzero, BitVec.shiftLeft_zero]
  · exact (append_shiftLeft_of_lt x.hi x.lo hlow).symm
  · exact (append_shiftLeft_of_ge x.hi x.lo (Nat.le_of_not_lt hlow)).symm

theorem bits_shr (x : S128) {s : ℕ} (hs : s < 128) :
    (x.shr (.ofNat 32 s)).bits = x.bits.sshiftRight s := by
  simp only [shr, shiftCount_ofNat hs]
  split_ifs with hzero hlow
  · rw [hzero, BitVec.sshiftRight_zero]
  · exact (append_sshiftRight_of_lt x.hi x.lo hlow).symm
  · rw [neg_sign]
    exact (append_sshiftRight_of_ge x.hi x.lo (Nat.le_of_not_lt hlow)).symm

/-! ### Comparisons -/

theorem eq_iff (x y : S128) : x.eq y = true ↔ x.value = y.value := by
  have hx := x.lo.isLt
  have hy := y.lo.isLt
  rw [eq, Bool.and_eq_true, beq_iff_eq, beq_iff_eq, BitVec.toNat_eq, ← BitVec.toInt_inj, value,
    value]
  omega

theorem lt_iff (x y : S128) : x.lt y = true ↔ x.value < y.value := by
  have hx := x.lo.isLt
  have hy := y.lo.isLt
  rw [lt, Bool.or_eq_true, Bool.and_eq_true, beq_iff_eq, BitVec.slt_iff_toInt_lt,
    BitVec.ult_iff_lt, BitVec.lt_def, ← BitVec.toInt_inj, value, value]
  omega

theorem ge_iff (x y : S128) : x.ge y = true ↔ y.value ≤ x.value := by
  have hx := x.lo.isLt
  have hy := y.lo.isLt
  rw [ge, Bool.or_eq_true, Bool.and_eq_true, beq_iff_eq, BitVec.slt_iff_toInt_lt,
    BitVec.ule_iff_le, BitVec.le_def, ← BitVec.toInt_inj, value, value]
  omega

theorem ne_eq_not (x y : S128) : x.ne y = !x.eq y := by
  rw [ne, eq, Bool.not_and]
  rfl

theorem gt_eq_lt (x y : S128) : x.gt y = y.lt x := by
  rw [gt, lt, Bool.beq_comm]

theorem le_eq_ge (x y : S128) : x.le y = y.ge x := by
  rw [le, ge, Bool.beq_comm]

/-! ### Products -/

theorem mul_bits (x y : S128) :
    (x.mul y).bits =
      (x.hi * y.lo + x.lo * y.hi +
        (word (((ofWord (x.hi * y.lo)).add (ofWord (x.lo * y.hi))).lt (ofWord (x.hi * y.lo))) -
          word (x.lo * y.lo).msb)) ++ (x.lo * y.lo) := by
  have hcount : (64 : BitVec 32) = .ofNat 32 64 := rfl
  simp only [mul]
  rw [bits_add, hcount, bits_shl _ (by decide), bits_add, bits_add, bits_ofWord, bits_ofWord,
    bits_ofWord, bits_ofWord, append_cross]

theorem value_ofWord (lo : BitVec 64) : (ofWord lo).value = lo.toInt := by
  rw [← bits_toInt, bits_ofWord, BitVec.toInt_signExtend_of_le (by decide)]

theorem value_add (x y : S128) : (x.add y).value = (x.value + y.value).bmod (2 ^ 128) := by
  rw [← bits_toInt, bits_add, BitVec.toInt_add, bits_toInt, bits_toInt]

/-- Without an overflow the sum is smaller where the second cross product is negative. -/
theorem carry_iff (a b : BitVec 64) :
    ((ofWord a).add (ofWord b)).lt (ofWord a) = true ↔ 2 ^ 63 ≤ b.toNat := by
  have ha := a.toInt_lt
  have ha' := a.le_toInt
  have hb := b.toInt_lt
  have hb' := b.le_toInt
  have hsum : (a.toInt + b.toInt).bmod (2 ^ 128) = a.toInt + b.toInt :=
    Int.bmod_eq_of_le_mul_two (by omega) (by omega)
  have hsign := b.toInt_eq_toNat_cond
  have hlt := b.isLt
  rw [lt_iff, value_add, value_ofWord, value_ofWord, hsum]
  split_ifs at hsign <;> omega

theorem mul_value_iff (x y : S128) :
    (x.mul y).value = (x.value * y.value).bmod (2 ^ 128) ↔ MulFits x y := by
  have hbits : (x.mul y).value = (x.value * y.value).bmod (2 ^ 128) ↔
      (x.mul y).bits = x.bits * y.bits := by
    rw [← BitVec.toInt_inj, BitVec.toInt_mul, bits_toInt, bits_toInt, bits_toInt]
  have hb := Nat.mod_lt (x.lo.toNat * y.hi.toNat) (Nat.two_pow_pos 64)
  have hcarry : (if ((ofWord (x.hi * y.lo)).add (ofWord (x.lo * y.hi))).lt (ofWord (x.hi * y.lo))
      then 1 else 0) = x.lo.toNat * y.hi.toNat % 2 ^ 64 / 2 ^ 63 := by
    simp only [carry_iff, BitVec.toNat_mul]
    split_ifs <;> omega
  rw [hbits, mul_bits, bits, bits, append_cross_eq_iff, MulFits, hcarry]

/-! ### All operators -/

theorem value_sub (x y : S128) : (x.sub y).value = (x.value - y.value).bmod (2 ^ 128) := by
  rw [← bits_toInt, bits_sub, BitVec.toInt_sub, bits_toInt, bits_toInt]

theorem value_neg (x : S128) : x.neg.value = (-x.value).bmod (2 ^ 128) := by
  rw [← bits_toInt, bits_neg, BitVec.toInt_neg, bits_toInt]

theorem value_shl (x : S128) {s : ℕ} (hs : s < 128) :
    (x.shl (.ofNat 32 s)).value = (x.value * 2 ^ s).bmod (2 ^ 128) := by
  have hpow : ((2 ^ s : ℕ) : ℤ) = 2 ^ s := Nat.cast_pow 2 s
  rw [← bits_toInt, bits_shl x hs, BitVec.toInt_eq_toNat_bmod, BitVec.toNat_shiftLeft,
    Nat.shiftLeft_eq, Int.natCast_emod, Int.emod_bmod, Int.natCast_mul, hpow, ← bits_toInt x,
    BitVec.toInt_eq_toNat_bmod x.bits, Int.bmod_mul_bmod]

theorem value_shr (x : S128) {s : ℕ} (hs : s < 128) :
    (x.shr (.ofNat 32 s)).value = x.value / 2 ^ s := by
  rw [← bits_toInt, bits_shr x hs, BitVec.toInt_sshiftRight, bits_toInt, Int.shiftRight_eq_div_pow]
  push_cast
  rfl

theorem right_iff (x y : S128) : x.Right y ↔ MulFits x y := by
  refine ⟨fun h => (mul_value_iff x y).mp h.mul, fun h => ?_⟩
  exact
    { eq := bool_eq_decide (eq_iff x y)
      ne := by rw [ne_eq_not, bool_eq_decide (eq_iff x y), decide_not]
      lt := bool_eq_decide (lt_iff x y)
      gt := by rw [gt_eq_lt]; exact bool_eq_decide (lt_iff y x)
      ge := bool_eq_decide (ge_iff x y)
      le := by rw [le_eq_ge]; exact bool_eq_decide (ge_iff y x)
      shl := fun s hs => value_shl x hs
      shr := fun s hs => value_shr x hs
      add := value_add x y
      sub := value_sub x y
      neg := value_neg x
      mul := (mul_value_iff x y).mpr h }

end S128

/-- The operators of both types are right exactly where the products' carries happen to be. -/
theorem operators_right_iff (x y : U128) (sx sy : S128) :
    x.Right y ∧ sx.Right sy ↔ x.MulFits y ∧ sx.MulFits sy :=
  and_congr (U128.right_iff x y) (S128.right_iff sx sy)

/-- The square of `2 ^ 32` loses its upper word. -/
theorem square_not_right : ¬∀ (x y : U128) (sx sy : S128), x.Right y ∧ sx.Right sy := by
  intro hall
  have hmul := (hall ⟨0, 4294967296⟩ ⟨0, 4294967296⟩ ⟨0, 0⟩ ⟨0, 0⟩).1.mul
  have hwrong : (U128.mul ⟨0, 4294967296⟩ ⟨0, 4294967296⟩).value = 0 := by decide
  have hright : (⟨0, 4294967296⟩ : U128).value = 2 ^ 32 := by decide
  rw [hwrong, hright] at hmul
  omega

end RvCkpt.Asm
