import RvCkpt.Isa.Rv32
import Mathlib.Data.BitVec
import Mathlib.Tactic.Ring
import Mathlib.Tactic.Linarith
import Mathlib.Algebra.Order.Ring.Abs

/-! # Products of half words

The upper halves of products in `src/src/asm/alu.h`, on words of an even width.
-/

namespace RvCkpt.Isa
set_option autoImplicit false

/-! ## Sums of products of digits -/

/-- A product of two digits in base `B`, with a carry below `B`, fits into two digits. -/
theorem digit_sum_lt {B z c : ℕ} (hz : z ≤ (B - 1) * (B - 1)) (hc : c < B) : z + c < B * B := by
  obtain ⟨b, rfl⟩ : ∃ b, B = b + 1 := ⟨B - 1, by omega⟩
  rw [Nat.add_sub_cancel] at hz
  nlinarith

theorem digit_div_lt {B z c : ℕ} (hz : z ≤ (B - 1) * (B - 1)) (hc : c < B) : (z + c) / B < B :=
  Nat.div_lt_of_lt_mul (digit_sum_lt hz hc)

/-- The upper two digits of a product of numbers with two digits each. -/
theorem digit_high_lt {B z c d : ℕ} (hz : z ≤ (B - 1) * (B - 1)) (hc : c < B) (hd : d < B) :
    z + c + d < B * B := by
  obtain ⟨b, rfl⟩ : ∃ b, B = b + 1 := ⟨B - 1, by omega⟩
  rw [Nat.add_sub_cancel] at hz
  nlinarith

theorem two_digits_lt {B h l : ℕ} (hh : h < B) (hl : l < B) : h * B + l < B * B := by
  calc h * B + l < h * B + B := by omega
    _ = (h + 1) * B := by ring
    _ ≤ B * B := Nat.mul_le_mul_right B hh

/-- Adding the partial products carries everything into the upper digits. -/
theorem digit_carry (B z0 z1 z2 z3 : ℕ) :
    (z3 + (z1 + z0 / B) / B + (z2 + (z1 + z0 / B) % B) / B) * (B * B) +
        ((z2 + (z1 + z0 / B) % B) % B * B + z0 % B) =
      z3 * (B * B) + (z1 + z2) * B + z0 := by
  generalize h4 : z1 + z0 / B = z4
  generalize hc : z2 + z4 % B = c1
  have e0 : z0 / B * B + z0 % B = z0 := Nat.div_add_mod' z0 B
  have e4 : z4 / B * B + z4 % B = z4 := Nat.div_add_mod' z4 B
  have ec : c1 / B * B + c1 % B = c1 := Nat.div_add_mod' c1 B
  calc (z3 + z4 / B + c1 / B) * (B * B) + (c1 % B * B + z0 % B)
      = z3 * (B * B) + z4 / B * B * B + (c1 / B * B + c1 % B) * B + z0 % B := by ring
    _ = z3 * (B * B) + (z4 / B * B + z4 % B + z2) * B + z0 % B := by rw [ec, ← hc]; ring
    _ = z3 * (B * B) + (z1 + z2) * B + (z0 / B * B + z0 % B) := by rw [e4, ← h4]; ring
    _ = z3 * (B * B) + (z1 + z2) * B + z0 := by rw [e0]

/-! ## Unsigned -/

section Words
variable {w n : ℕ}

theorem half_mask_toNat (hw : w = 2 * n) (hn : 0 < n) :
    ((1#w <<< (w / 2)) - 1).toNat = 2 ^ n - 1 := by
  have hhalf : w / 2 = n := by omega
  have hpow : (2 : ℕ) ^ n < 2 ^ w := Nat.pow_lt_pow_right (by omega) (by omega)
  have hpos : 0 < (2 : ℕ) ^ n := Nat.two_pow_pos n
  have hone : (1#w).toNat = 1 := BitVec.toNat_one (by omega)
  have hsh : (1#w <<< n).toNat = 2 ^ n := by
    rw [BitVec.toNat_shiftLeft, hone, Nat.shiftLeft_eq, one_mul, Nat.mod_eq_of_lt hpow]
  have hle : 1#w ≤ 1#w <<< n := by
    rw [BitVec.le_def, hone, hsh]
    exact hpos
  rw [hhalf]
  change (1#w <<< n - 1#w).toNat = 2 ^ n - 1
  rw [BitVec.toNat_sub_of_le hle, hsh, hone]

theorem low_half (hw : w = 2 * n) (hn : 0 < n) (x : BitVec w) :
    (x &&& (1#w <<< (w / 2)) - 1).toNat = x.toNat % 2 ^ n := by
  rw [BitVec.toNat_and, half_mask_toNat hw hn]
  exact Nat.and_two_pow_sub_one_eq_mod x.toNat n

theorem high_half (hw : w = 2 * n) (x : BitVec w) :
    (x >>> (w / 2)).toNat = x.toNat / 2 ^ n := by
  have hhalf : w / 2 = n := by omega
  rw [BitVec.toNat_ushiftRight, Nat.shiftRight_eq_div_pow, hhalf]

theorem two_pow_halves (hw : w = 2 * n) : (2 : ℕ) ^ w = 2 ^ n * 2 ^ n := by
  rw [hw, two_mul, Nat.pow_add]

theorem toNat_lt_halves (hw : w = 2 * n) (x : BitVec w) : x.toNat < 2 ^ n * 2 ^ n :=
  x.isLt.trans_eq (two_pow_halves hw)

theorem half_mul (hw : w = 2 * n) {u v : BitVec w} (hu : u.toNat < 2 ^ n) (hv : v.toNat < 2 ^ n) :
    (u * v).toNat = u.toNat * v.toNat ∧
      u.toNat * v.toNat ≤ (2 ^ n - 1) * (2 ^ n - 1) := by
  have hle : u.toNat * v.toNat ≤ (2 ^ n - 1) * (2 ^ n - 1) :=
    Nat.mul_le_mul (by omega) (by omega)
  refine ⟨?_, hle⟩
  have hlt : u.toNat * v.toNat < 2 ^ w := by
    have h := digit_sum_lt hle (Nat.two_pow_pos n)
    rwa [add_zero, ← two_pow_halves hw] at h
  rw [BitVec.toNat_mul, Nat.mod_eq_of_lt hlt]

theorem addParts_toNat (hw : w = 2 * n) (hn : 0 < n) (z0 : BitVec w) {z1 z2 z3 z4 c1 : BitVec w}
    (h1 : z1.toNat ≤ (2 ^ n - 1) * (2 ^ n - 1)) (h2 : z2.toNat ≤ (2 ^ n - 1) * (2 ^ n - 1))
    (h3 : z3.toNat ≤ (2 ^ n - 1) * (2 ^ n - 1)) (h4 : z4 = z1 + (z0 >>> (w / 2)))
    (hc : c1 = z2 + (z4 &&& (1#w <<< (w / 2)) - 1)) :
    (z3 + (z4 >>> (w / 2)) + (c1 >>> (w / 2))).toNat * 2 ^ w +
      ((c1 <<< (w / 2)) + (z0 &&& (1#w <<< (w / 2)) - 1)).toNat =
        z3.toNat * 2 ^ w + (z1.toNat + z2.toNat) * 2 ^ n + z0.toNat := by
  have hpow := two_pow_halves hw
  have hhalf : w / 2 = n := by omega
  have hmod : ∀ a : ℕ, a % 2 ^ n < 2 ^ n := fun a => Nat.mod_lt a (Nat.two_pow_pos n)
  have h0 : z0.toNat / 2 ^ n < 2 ^ n := Nat.div_lt_of_lt_mul (toNat_lt_halves hw z0)
  have e4 : z4.toNat = z1.toNat + z0.toNat / 2 ^ n := by
    rw [h4, BitVec.toNat_add, high_half hw, hpow, Nat.mod_eq_of_lt (digit_sum_lt h1 h0)]
  have ec : c1.toNat = z2.toNat + z4.toNat % 2 ^ n := by
    rw [hc, BitVec.toNat_add, low_half hw hn, hpow,
      Nat.mod_eq_of_lt (digit_sum_lt h2 (hmod _))]
  have h4d : z4.toNat / 2 ^ n < 2 ^ n := e4 ▸ digit_div_lt h1 h0
  have hcd : c1.toNat / 2 ^ n < 2 ^ n := ec ▸ digit_div_lt h2 (hmod _)
  have ehi : (z3 + (z4 >>> (w / 2)) + (c1 >>> (w / 2))).toNat =
      z3.toNat + z4.toNat / 2 ^ n + c1.toNat / 2 ^ n := by
    have hlt := digit_high_lt h3 h4d hcd
    rw [BitVec.toNat_add, BitVec.toNat_add, high_half hw, high_half hw, hpow,
      Nat.mod_add_mod, Nat.mod_eq_of_lt hlt]
  have elo : ((c1 <<< (w / 2)) + (z0 &&& (1#w <<< (w / 2)) - 1)).toNat =
      c1.toNat % 2 ^ n * 2 ^ n + z0.toNat % 2 ^ n := by
    have hlt := two_digits_lt (hmod c1.toNat) (hmod z0.toNat)
    rw [BitVec.toNat_add, BitVec.toNat_shiftLeft, low_half hw hn, Nat.shiftLeft_eq, hhalf, hpow,
      Nat.mul_mod_mul_right, Nat.mod_eq_of_lt hlt]
  rw [ehi, elo, hpow, ec, e4]
  exact digit_carry (2 ^ n) z0.toNat z1.toNat z2.toNat z3.toNat

theorem mulWords_toNat (hw : w = 2 * n) (hn : 0 < n) (x y : BitVec w) :
    (mulWords x y).1.toNat * 2 ^ w + (mulWords x y).2.toNat = x.toNat * y.toNat := by
  have hlow : ∀ u : BitVec w, (u &&& (1#w <<< (w / 2)) - 1).toNat < 2 ^ n := by
    intro u
    rw [low_half hw hn]
    exact Nat.mod_lt _ (Nat.two_pow_pos n)
  have hhigh : ∀ u : BitVec w,
      ((u >>> (w / 2)) &&& (1#w <<< (w / 2)) - 1).toNat = u.toNat / 2 ^ n := by
    intro u
    rw [low_half hw hn, high_half hw,
      Nat.mod_eq_of_lt (Nat.div_lt_of_lt_mul (toNat_lt_halves hw u))]
  obtain ⟨e0, -⟩ := half_mul hw (hlow x) (hlow y)
  obtain ⟨e1, h1⟩ := half_mul hw (hlow (x >>> (w / 2))) (hlow y)
  obtain ⟨e2, h2⟩ := half_mul hw (hlow x) (hlow (y >>> (w / 2)))
  obtain ⟨e3, h3⟩ := half_mul hw (hlow (x >>> (w / 2))) (hlow (y >>> (w / 2)))
  have hpow := two_pow_halves hw
  have hsum := addParts_toNat hw hn ((x &&& (1#w <<< (w / 2)) - 1) * (y &&& (1#w <<< (w / 2)) - 1))
    (e1 ▸ h1) (e2 ▸ h2) (e3 ▸ h3) rfl rfl
  rw [e0, e1, e2, e3, hhigh, hhigh, low_half hw hn, low_half hw hn] at hsum
  refine hsum.trans ?_
  have hxs : x.toNat / 2 ^ n * 2 ^ n + x.toNat % 2 ^ n = x.toNat := Nat.div_add_mod' _ _
  have hys : y.toNat / 2 ^ n * 2 ^ n + y.toNat % 2 ^ n = y.toNat := Nat.div_add_mod' _ _
  calc x.toNat / 2 ^ n * (y.toNat / 2 ^ n) * 2 ^ w +
        (x.toNat / 2 ^ n * (y.toNat % 2 ^ n) + x.toNat % 2 ^ n * (y.toNat / 2 ^ n)) * 2 ^ n +
          x.toNat % 2 ^ n * (y.toNat % 2 ^ n)
      = (x.toNat / 2 ^ n * 2 ^ n + x.toNat % 2 ^ n) *
          (y.toNat / 2 ^ n * 2 ^ n + y.toNat % 2 ^ n) := by rw [hpow]; ring
    _ = x.toNat * y.toNat := by rw [hxs, hys]

theorem mulWords_high (hw : w = 2 * n) (hn : 0 < n) (x y : BitVec w) :
    (mulWords x y).1.toNat = x.toNat * y.toNat / 2 ^ w := by
  have hlo := (mulWords x y).2.isLt
  rw [← mulWords_toNat hw hn, Nat.mul_comm, Nat.mul_add_div (Nat.two_pow_pos w),
    Nat.div_eq_of_lt hlo, add_zero]

theorem mulhu_eq (hw : w = 2 * n) (hn : 0 < n) (x y : BitVec w) :
    Isa.mulhu x y = BitVec.ofNat w (x.toNat * y.toNat / 2 ^ w) := by
  apply BitVec.eq_of_toNat_eq
  rw [Isa.mulhu, BitVec.toNat_ofNat, ← mulWords_high hw hn, Nat.mod_eq_of_lt (BitVec.isLt _)]

/-! ## Signs -/

theorem signWord_of_neg {x : BitVec w} (h : x.toInt < 0) : signWord x = 1 := by
  have hslt : x.slt 0 = true := by
    rw [BitVec.slt, show (0 : BitVec w).toInt = 0 from BitVec.toInt_zero]
    exact decide_eq_true h
  rw [signWord, if_pos hslt]

theorem signWord_of_nonneg {x : BitVec w} (h : 0 ≤ x.toInt) : signWord x = 0 := by
  have hslt : ¬x.slt 0 = true := by
    rw [BitVec.slt, show (0 : BitVec w).toInt = 0 from BitVec.toInt_zero]
    exact fun hs => absurd (of_decide_eq_true hs) (not_lt.mpr h)
  rw [signWord, if_neg hslt]

theorem zero_xor_word (x : BitVec w) : 0 ^^^ x = x := BitVec.zero_xor

/-- The complement, plus 1, of the sign word: all ones for a negative number. -/
theorem not_sign_add_one : ~~~(1 : BitVec w) + 1 = BitVec.allOnes w :=
  (BitVec.neg_eq_not_add (1 : BitVec w)).symm.trans BitVec.neg_one_eq_allOnes

theorem absWord_toNat (hpos : 0 < w) (x : BitVec w) : (absWord x).toNat = x.toInt.natAbs := by
  have hx := x.isLt
  have hint := BitVec.toInt_eq_toNat_cond x
  have hone : (1 : BitVec w).toNat = 1 := BitVec.toNat_one hpos
  by_cases hneg : x.toInt < 0
  · rw [absWord, signWord_of_neg hneg, not_sign_add_one, BitVec.allOnes_xor, BitVec.toNat_not,
      BitVec.toNat_sub, hone]
    split_ifs at hint
    · omega
    · have hge : 1 ≤ x.toNat := by omega
      rw [show 2 ^ w - 1 + x.toNat = x.toNat - 1 + 2 ^ w by omega, Nat.add_mod_right,
        Nat.mod_eq_of_lt (by omega)]
      omega
  · have hzero : ~~~(0 : BitVec w) + 1 = 0 :=
      (BitVec.neg_eq_not_add (0 : BitVec w)).symm.trans neg_zero
    rw [absWord, signWord_of_nonneg (not_lt.mp hneg), hzero, zero_xor_word, sub_zero]
    split_ifs at hint <;> omega

theorem signedHigh_zero (words : BitVec w × BitVec w) : signedHigh 0 words = words.1 := by
  have hb : ¬words.2 < words.2 - 0 := by
    rw [sub_zero]
    exact BitVec.lt_irrefl _
  rw [signedHigh, if_neg hb]
  simp only [sub_zero, neg_zero, zero_xor_word]

/-- Negating a double word borrows from the upper one just when the lower one is not zero. -/
theorem neg_double_div {W h l : ℤ} (hl0 : 0 ≤ l) (hlW : l < W) :
    -(h * W + l) / W = if l = 0 then -h else -h - 1 := by
  have hW : W ≠ 0 := by omega
  split_ifs with hzero
  · rw [hzero, add_zero, ← Int.neg_mul, Int.mul_ediv_cancel _ hW]
  · have hsplit : -(h * W + l) = (W - l) + (-h - 1) * W := by ring
    rw [hsplit, Int.add_mul_ediv_right _ _ hW, Int.ediv_eq_zero_of_lt (by omega) (by omega),
      zero_add]

theorem signedHigh_one (hpos : 0 < w) {words : BitVec w × BitVec w} {p : ℕ}
    (h : words.1.toNat * 2 ^ w + words.2.toNat = p) :
    signedHigh 1 words = BitVec.ofInt w (-(p : ℤ) / 2 ^ w) := by
  have hlo := words.2.isLt
  have hone : (1 : BitVec w).toNat = 1 := BitVec.toNat_one hpos
  have hpow : 2 ≤ 2 ^ w := Nat.le_self_pow (by omega) 2
  have hones : -(1 : BitVec w) = BitVec.allOnes w := BitVec.neg_one_eq_allOnes
  have hword : BitVec.ofInt w words.1.toNat = words.1 := by
    rw [BitVec.ofInt_natCast, BitVec.ofNat_toNat, BitVec.setWidth_eq]
  have hlo' : (words.2.toNat : ℤ) < 2 ^ w := by exact_mod_cast hlo
  have hdiv := neg_double_div (h := (words.1.toNat : ℤ)) (by omega : 0 ≤ (words.2.toNat : ℤ)) hlo'
  have hp : (p : ℤ) = words.1.toNat * 2 ^ w + words.2.toNat := by
    rw [← h]
    push_cast
    rfl
  rw [hp, hdiv, signedHigh]
  by_cases hzero : words.2.toNat = 0
  · have hb : words.2 < words.2 - 1 := by
      rw [BitVec.lt_def, BitVec.toNat_sub, hone, hzero, Nat.add_zero, Nat.mod_eq_of_lt (by omega)]
      omega
    rw [if_pos hb, if_pos (by omega)]
    simp only [hones, BitVec.allOnes_xor]
    have hone' : (1 : BitVec w) = 1#w := rfl
    rw [BitVec.not_eq_neg_add, BitVec.ofInt_neg, hword, hone']
    ring
  · have hb : ¬words.2 < words.2 - 1 := by
      have hle : (1 : BitVec w) ≤ words.2 := by
        rw [BitVec.le_def, hone]
        omega
      rw [BitVec.lt_def, BitVec.toNat_sub_of_le hle, hone]
      omega
    rw [if_neg hb, if_neg (by omega)]
    simp only [hones, BitVec.allOnes_xor, sub_zero]
    have hm : BitVec.ofInt w (-1) = -1#w := BitVec.ofInt_neg
    rw [BitVec.not_eq_neg_add, sub_eq_add_neg (-(words.1.toNat : ℤ)), BitVec.ofInt_add,
      BitVec.ofInt_neg, hword, hm, BitVec.sub_eq_add_neg]

/-! ## Signed -/

/-- The upper word of a product, from the absolute values and the sign. -/
theorem signedHigh_eq (hw : w = 2 * n) (hn : 0 < n) {x y : BitVec w} {rs : BitVec w} {p : ℤ}
    (h : rs = 0 ∧ p = (x.toNat * y.toNat : ℕ) ∨ rs = 1 ∧ p = -((x.toNat * y.toNat : ℕ) : ℤ)) :
    signedHigh rs (mulWords x y) = BitVec.ofInt w (p / 2 ^ w) := by
  rcases h with ⟨rfl, rfl⟩ | ⟨rfl, rfl⟩
  · rw [signedHigh_zero]
    apply BitVec.eq_of_toNat_eq
    rw [mulWords_high hw hn, BitVec.toNat_ofInt]
    have hlt : x.toNat * y.toNat / 2 ^ w < 2 ^ w := by
      rw [← mulWords_high hw hn]
      exact BitVec.isLt _
    have hcast : ((x.toNat * y.toNat : ℕ) : ℤ) / 2 ^ w % ((2 ^ w : ℕ) : ℤ) =
        ((x.toNat * y.toNat / 2 ^ w % 2 ^ w : ℕ) : ℤ) := by
      push_cast
      rfl
    rw [hcast, Int.toNat_natCast, Nat.mod_eq_of_lt hlt]
  · exact signedHigh_one (by omega) (mulWords_toNat hw hn x y)

theorem mulhsu_eq (hw : w = 2 * n) (hn : 0 < n) (x y : BitVec w) :
    Isa.mulhsu x y = BitVec.ofInt w (x.toInt * y.toNat / 2 ^ w) := by
  apply signedHigh_eq hw hn
  rw [absWord_toNat (by omega)]
  by_cases hx : x.toInt < 0
  · right
    refine ⟨signWord_of_neg hx, ?_⟩
    push_cast
    rw [abs_of_neg hx]
    ring
  · left
    refine ⟨signWord_of_nonneg (not_lt.mp hx), ?_⟩
    push_cast
    rw [abs_of_nonneg (not_lt.mp hx)]

theorem mulh_eq (hw : w = 2 * n) (hn : 0 < n) (x y : BitVec w) :
    Isa.mulh x y = BitVec.ofInt w (x.toInt * y.toInt / 2 ^ w) := by
  apply signedHigh_eq hw hn
  rw [absWord_toNat (by omega), absWord_toNat (by omega)]
  push_cast
  by_cases hx : x.toInt < 0
  · by_cases hy : y.toInt < 0
    · rw [signWord_of_neg hx, signWord_of_neg hy, abs_of_neg hx, abs_of_neg hy]
      exact .inl ⟨BitVec.xor_self, by ring⟩
    · rw [signWord_of_neg hx, signWord_of_nonneg (not_lt.mp hy), abs_of_neg hx,
        abs_of_nonneg (not_lt.mp hy)]
      exact .inr ⟨BitVec.xor_zero, by ring⟩
  · by_cases hy : y.toInt < 0
    · rw [signWord_of_nonneg (not_lt.mp hx), signWord_of_neg hy, abs_of_nonneg (not_lt.mp hx),
        abs_of_neg hy]
      exact .inr ⟨BitVec.zero_xor, by ring⟩
    · rw [signWord_of_nonneg (not_lt.mp hx), signWord_of_nonneg (not_lt.mp hy),
        abs_of_nonneg (not_lt.mp hx), abs_of_nonneg (not_lt.mp hy)]
      exact .inl ⟨BitVec.xor_self, rfl⟩

/-! ## The upper half of the exact product -/

theorem toInt_ofInt_high (hpos : 0 < w) {p : ℤ} (hlo : -(2 ^ (w - 1) * 2 ^ w) ≤ p)
    (hhi : p < 2 ^ (w - 1) * 2 ^ w) : (BitVec.ofInt w (p / 2 ^ w)).toInt = p / 2 ^ w := by
  have hW : (0 : ℤ) < 2 ^ w := by positivity
  apply BitVec.toInt_ofInt_eq_self hpos
  · exact (Int.le_ediv_iff_mul_le hW).mpr (by linarith)
  · exact (Int.ediv_lt_iff_lt_mul hW).mpr hhi

/-- A signed number times one whose absolute value is at most `2 ^ w`. -/
theorem signed_product_bounds (x : BitVec w) {b : ℤ} (hlo : -(2 ^ w) < b)
    (hhi : b < 2 ^ w) :
    -(2 ^ (w - 1) * 2 ^ w) ≤ x.toInt * b ∧ x.toInt * b < 2 ^ (w - 1) * 2 ^ w := by
  have hx0 : -(2 ^ (w - 1)) ≤ x.toInt := BitVec.le_toInt x
  have hx1 : x.toInt < 2 ^ (w - 1) := BitVec.toInt_lt
  have hH : (0 : ℤ) < 2 ^ (w - 1) := by positivity
  have habs : |x.toInt * b| < 2 ^ (w - 1) * 2 ^ w := by
    rw [abs_mul]
    have hxa : |x.toInt| ≤ 2 ^ (w - 1) := abs_le.mpr ⟨hx0, hx1.le⟩
    have hba : |b| < 2 ^ w := abs_lt.mpr ⟨hlo, hhi⟩
    exact mul_lt_mul' hxa hba (abs_nonneg b) hH
  exact ⟨(abs_lt.mp habs).1.le, (abs_lt.mp habs).2⟩


end Words

/-- The three functions return the upper half of the exact product, read as numbers. -/
def HighExact (w : ℕ) : Prop :=
  ∀ x y : BitVec w,
    (Isa.mulhu x y).toNat = x.toNat * y.toNat / 2 ^ w ∧
      (Isa.mulh x y).toInt = x.toInt * y.toInt / 2 ^ w ∧
      (Isa.mulhsu x y).toInt = x.toInt * y.toNat / 2 ^ w

theorem highExact {w n : ℕ} (hw : w = 2 * n) (hn : 0 < n) : HighExact w := by
  intro x y
  have hpos : 0 < w := by omega
  have hsy : -(2 ^ w) < y.toInt ∧ y.toInt < 2 ^ w := by
    have hpow : (2 : ℤ) ^ (w - 1) < 2 ^ w := pow_lt_pow_right₀ (by omega) (by omega)
    have h0 : -(2 ^ (w - 1)) ≤ y.toInt := BitVec.le_toInt y
    have h1 : y.toInt < 2 ^ (w - 1) := BitVec.toInt_lt
    constructor <;> linarith
  have huy : -(2 ^ w) < (y.toNat : ℤ) ∧ (y.toNat : ℤ) < 2 ^ w := by
    have hlt : (y.toNat : ℤ) < 2 ^ w := by exact_mod_cast y.isLt
    have hW : (0 : ℤ) < 2 ^ w := by positivity
    exact ⟨by omega, hlt⟩
  obtain ⟨hs0, hs1⟩ := signed_product_bounds x hsy.1 hsy.2
  obtain ⟨hu0, hu1⟩ := signed_product_bounds x huy.1 huy.2
  refine ⟨mulWords_high hw hn x y, ?_, ?_⟩
  · rw [mulh_eq hw hn, toInt_ofInt_high hpos hs0 hs1]
  · rw [mulhsu_eq hw hn, toInt_ofInt_high hpos hu0 hu1]

/-- The supported widths: 32 and 64 bits. -/
theorem high_products_exact : HighExact 32 ∧ HighExact 64 :=
  ⟨highExact (n := 16) rfl (by omega), highExact (n := 32) rfl (by omega)⟩

end RvCkpt.Isa
