import Mathlib.Data.BitVec
import Mathlib.Data.Nat.Bitwise
import Mathlib.Tactic.Common
import Mathlib.Tactic.Ring

/-! # Numbers of two words

Arithmetic on an upper and a lower word of one width, with the carries and shifts between them,
and division that takes the dividend bit by bit.
-/

namespace DoubleWord
set_option autoImplicit false

variable {w : ℕ}

/-! ## Values -/

theorem toNat_append (hi lo : BitVec w) : (hi ++ lo).toNat = hi.toNat * 2 ^ w + lo.toNat := by
  rw [BitVec.toNat_append, ← Nat.shiftLeft_add_eq_or_of_lt lo.isLt, Nat.shiftLeft_eq]

theorem toInt_append (hi lo : BitVec w) : (hi ++ lo).toInt = hi.toInt * 2 ^ w + lo.toNat := by
  rcases Nat.eq_zero_or_pos w with hzero | hpos
  · subst hzero
    simp [BitVec.toInt, BitVec.of_length_zero]
  · have hne : ¬(w == 0) = true := by simpa using hpos.ne'
    rw [BitVec.toInt_append, if_neg hne, Int.mul_comm]

theorem append_inj {xh xl yh yl : BitVec w} (h : xh ++ xl = yh ++ yl) : xh = yh ∧ xl = yl := by
  have hlow := congrArg (BitVec.extractLsb' 0 w) h
  have hhigh := congrArg (BitVec.extractLsb' w w) h
  rw [BitVec.extractLsb'_append_eq_right, BitVec.extractLsb'_append_eq_right] at hlow
  rw [BitVec.extractLsb'_append_eq_left, BitVec.extractLsb'_append_eq_left] at hhigh
  exact ⟨hhigh, hlow⟩

/-- The upper digit of a number that is cut to two digits. -/
theorem mod_two_digits {B a b : ℕ} (hb : b < B) : (a * B + b) % (B * B) = a % B * B + b := by
  have hpos : 0 < B := Nat.zero_lt_of_lt hb
  have hdiv : (b + a * B) / B = a := by
    rw [Nat.add_mul_div_right b a hpos, Nat.div_eq_of_lt hb, Nat.zero_add]
  rw [Nat.add_comm, Nat.mod_mul, hdiv, Nat.add_mul_mod_self_right, Nat.mod_eq_of_lt hb,
    Nat.mul_comm B, Nat.add_comm]

/-! ## Sums -/

/-- A sum of words has wrapped where it is below a summand. -/
theorem carry_eq (xl yl : BitVec w) :
    (if xl + yl < xl then 1 else 0) = (xl.toNat + yl.toNat) / 2 ^ w := by
  have hx := xl.isLt
  have hy := yl.isLt
  have hpos := Nat.two_pow_pos w
  simp only [BitVec.lt_def, BitVec.toNat_add]
  rcases Nat.lt_or_ge (xl.toNat + yl.toNat) (2 ^ w) with hfits | hwraps
  · rw [Nat.mod_eq_of_lt hfits, if_neg (by omega), Nat.div_eq_of_lt hfits]
  · rw [Nat.mod_eq_sub_mod hwraps, Nat.mod_eq_of_lt (by omega), if_pos (by omega),
      Nat.div_eq_sub_div hpos hwraps, Nat.div_eq_of_lt (by omega)]

theorem append_add (xh xl yh yl : BitVec w) :
    (xh ++ xl) + (yh ++ yl) =
      (xh + yh + BitVec.ofNat w (if xl + yl < xl then 1 else 0)) ++ (xl + yl) := by
  apply BitVec.eq_of_toNat_eq
  rw [BitVec.toNat_add, toNat_append, toNat_append, toNat_append, carry_eq, Nat.pow_add]
  have hsum : xh.toNat * 2 ^ w + xl.toNat + (yh.toNat * 2 ^ w + yl.toNat) =
      (xh.toNat + yh.toNat + (xl.toNat + yl.toNat) / 2 ^ w) * 2 ^ w +
        (xl.toNat + yl.toNat) % 2 ^ w := by
    calc xh.toNat * 2 ^ w + xl.toNat + (yh.toNat * 2 ^ w + yl.toNat)
        = (xh.toNat + yh.toNat) * 2 ^ w + (xl.toNat + yl.toNat) := by ring
      _ = (xh.toNat + yh.toNat) * 2 ^ w + ((xl.toNat + yl.toNat) / 2 ^ w * 2 ^ w +
            (xl.toNat + yl.toNat) % 2 ^ w) := by rw [Nat.div_add_mod']
      _ = _ := by ring
  rw [hsum, mod_two_digits (Nat.mod_lt _ (Nat.two_pow_pos w))]
  simp only [BitVec.toNat_add, BitVec.toNat_ofNat, Nat.mod_add_mod, Nat.add_mod_mod]

/-- A difference is the summand that is missing. -/
theorem append_sub (xh xl yh yl : BitVec w) :
    (xh ++ xl) - (yh ++ yl) =
      (xh - yh - BitVec.ofNat w (if xl < xl - yl then 1 else 0)) ++ (xl - yl) := by
  have hback : xh - yh - BitVec.ofNat w (if xl < xl - yl then 1 else 0) + yh +
      BitVec.ofNat w (if xl < xl - yl then 1 else 0) = xh := by
    rw [add_right_comm, BitVec.sub_add_cancel, BitVec.sub_add_cancel]
  rw [BitVec.sub_eq_iff_eq_add, append_add]
  simp only [BitVec.sub_add_cancel, hback]

/-! ## Products -/

/-- The cross products and the upper word of the lower words' product are in the upper word. -/
theorem append_mul (xh xl yh yl : BitVec w) :
    (xh ++ xl) * (yh ++ yl) =
      (xh * yl + xl * yh + BitVec.ofNat w (xl.toNat * yl.toNat / 2 ^ w)) ++ (xl * yl) := by
  apply BitVec.eq_of_toNat_eq
  rw [BitVec.toNat_mul, toNat_append, toNat_append, toNat_append, Nat.pow_add]
  have hprod : (xh.toNat * 2 ^ w + xl.toNat) * (yh.toNat * 2 ^ w + yl.toNat) =
      xh.toNat * yh.toNat * (2 ^ w * 2 ^ w) + ((xh.toNat * yl.toNat + xl.toNat * yh.toNat +
        xl.toNat * yl.toNat / 2 ^ w) * 2 ^ w + xl.toNat * yl.toNat % 2 ^ w) := by
    calc (xh.toNat * 2 ^ w + xl.toNat) * (yh.toNat * 2 ^ w + yl.toNat)
        = xh.toNat * yh.toNat * (2 ^ w * 2 ^ w) +
            (xh.toNat * yl.toNat + xl.toNat * yh.toNat) * 2 ^ w + xl.toNat * yl.toNat := by ring
      _ = xh.toNat * yh.toNat * (2 ^ w * 2 ^ w) +
            (xh.toNat * yl.toNat + xl.toNat * yh.toNat) * 2 ^ w +
            (xl.toNat * yl.toNat / 2 ^ w * 2 ^ w + xl.toNat * yl.toNat % 2 ^ w) := by
          rw [Nat.div_add_mod']
      _ = _ := by ring
  rw [hprod, Nat.add_comm, Nat.add_mul_mod_self_right,
    mod_two_digits (Nat.mod_lt _ (Nat.two_pow_pos w))]
  simp only [BitVec.toNat_add, BitVec.toNat_mul, BitVec.toNat_ofNat, Nat.mod_add_mod,
    Nat.add_mod_mod]

/-! ## Shifts -/

theorem append_shiftLeft_of_lt (hi lo : BitVec w) {s : ℕ} (hs : s < w) :
    (hi ++ lo) <<< s = (hi <<< s ||| lo >>> (w - s)) ++ (lo <<< s) := by
  apply BitVec.eq_of_getLsbD_eq
  intro i hi'
  simp only [BitVec.getLsbD_shiftLeft, BitVec.getLsbD_append, BitVec.getLsbD_or,
    BitVec.getLsbD_ushiftRight]
  rcases Nat.lt_or_ge i w with hlow | hhigh
  · have hbelow : i - s < w := by omega
    simp [hi', hlow, hbelow]
  · have habove : i - w < w := by omega
    rcases Nat.lt_or_ge (i - w) s with hlo | hup
    · have hbelow : i - s < w := by omega
      have hpos : w - s + (i - w) = i - s := by omega
      simp [hi', hlo, hbelow, hpos, Nat.not_lt.mpr hhigh, Nat.not_lt.mpr (hs.le.trans hhigh)]
    · have hup' : ¬i - s < w := by omega
      have hpos : i - s - w = i - w - s := by omega
      have hout : lo.getLsbD (w - s + (i - w)) = false :=
        BitVec.getLsbD_of_ge lo _ (by omega)
      simp [hi', habove, hup', hpos, hout, Nat.not_lt.mpr hhigh, Nat.not_lt.mpr hup,
        Nat.not_lt.mpr (hs.le.trans hhigh)]

theorem append_shiftLeft_of_ge (hi lo : BitVec w) {s : ℕ} (hs : w ≤ s) :
    (hi ++ lo) <<< s = (lo <<< (s - w)) ++ 0#w := by
  apply BitVec.eq_of_getLsbD_eq
  intro i hi'
  simp only [BitVec.getLsbD_shiftLeft, BitVec.getLsbD_append, BitVec.getLsbD_zero]
  rcases Nat.lt_or_ge i w with hlow | hhigh
  · simp [hlow, hlow.trans_le hs]
  · have habove : i - w < w := by omega
    have hbelow : i - s < w := by omega
    have hpos : i - w - (s - w) = i - s := by omega
    have hiff : i - w < s - w ↔ i < s := by omega
    simp [hi', habove, hbelow, hpos, hiff, Nat.not_lt.mpr hhigh]

theorem append_ushiftRight_of_lt (hi lo : BitVec w) {s : ℕ} (hs : s < w) :
    (hi ++ lo) >>> s = (hi >>> s) ++ (lo >>> s ||| hi <<< (w - s)) := by
  apply BitVec.eq_of_getLsbD_eq
  intro i hi'
  simp only [BitVec.getLsbD_ushiftRight, BitVec.getLsbD_append, BitVec.getLsbD_or,
    BitVec.getLsbD_shiftLeft]
  rcases Nat.lt_or_ge i w with hlow | hhigh
  · rcases Nat.lt_or_ge (s + i) w with hlo | hup
    · have hout : i < w - s := by omega
      simp [hlow, hlo, hout]
    · have hpos : i - (w - s) = s + i - w := by omega
      have hout : ¬i < w - s := by omega
      have hlo : lo.getLsbD (s + i) = false := BitVec.getLsbD_of_ge lo _ hup
      simp [hlow, hlo, hpos, hout, Nat.not_lt.mpr hup]
  · have hup : ¬s + i < w := by omega
    have hpos : s + i - w = s + (i - w) := by omega
    simp [hup, hpos, Nat.not_lt.mpr hhigh]

theorem append_ushiftRight_of_ge (hi lo : BitVec w) {s : ℕ} (hs : w ≤ s) :
    (hi ++ lo) >>> s = 0#w ++ (hi >>> (s - w)) := by
  apply BitVec.eq_of_getLsbD_eq
  intro i hi'
  simp only [BitVec.getLsbD_ushiftRight, BitVec.getLsbD_append, BitVec.getLsbD_zero]
  have hup : ¬s + i < w := by omega
  rcases Nat.lt_or_ge i w with hlow | hhigh
  · have hpos : s + i - w = s - w + i := by omega
    simp [hlow, hup, hpos]
  · have hout : hi.getLsbD (s + i - w) = false := BitVec.getLsbD_of_ge hi _ (by omega)
    simp [hup, hout, Nat.not_lt.mpr hhigh]

theorem msb_append (hi lo : BitVec w) : (hi ++ lo).msb = hi.msb := by
  rcases Nat.eq_zero_or_pos w with hzero | hpos
  · subst hzero
    simp [BitVec.of_length_zero]
  · rw [BitVec.msb_append, if_neg hpos.ne']

theorem append_sshiftRight_of_lt (hi lo : BitVec w) {s : ℕ} (hs : s < w) :
    (hi ++ lo).sshiftRight s = (hi.sshiftRight s) ++ (lo >>> s ||| hi <<< (w - s)) := by
  apply BitVec.eq_of_getLsbD_eq
  intro i hi'
  simp only [BitVec.getLsbD_sshiftRight, BitVec.getLsbD_append, BitVec.getLsbD_or,
    BitVec.getLsbD_shiftLeft, BitVec.getLsbD_ushiftRight, msb_append]
  rcases Nat.lt_or_ge i w with hlow | hhigh
  · have hin : s + i < w + w := by omega
    rcases Nat.lt_or_ge (s + i) w with hlo | hup
    · have hout : i < w - s := by omega
      simp [hi', hin, hlow, hlo, hout]
    · have hpos : i - (w - s) = s + i - w := by omega
      have hout : ¬i < w - s := by omega
      have hlo : lo.getLsbD (s + i) = false := BitVec.getLsbD_of_ge lo _ hup
      simp [hi', hin, hlow, hlo, hpos, hout, Nat.not_lt.mpr hup]
  · have hup : ¬s + i < w := by omega
    have hpos : s + i - w = s + (i - w) := by omega
    have hiff : s + i < w + w ↔ s + (i - w) < w := by omega
    have habove : i - w < w := by omega
    simp [hup, hpos, hiff, Nat.not_lt.mpr hhigh, Nat.not_le.mpr hi', Nat.not_le.mpr habove]

/-- From the width of a word on, the upper one is filled with the sign. -/
theorem append_sshiftRight_of_ge (hi lo : BitVec w) {s : ℕ} (hs : w ≤ s) :
    (hi ++ lo).sshiftRight s = (hi.sshiftRight w) ++ (hi.sshiftRight (s - w)) := by
  apply BitVec.eq_of_getLsbD_eq
  intro i hi'
  simp only [BitVec.getLsbD_sshiftRight, BitVec.getLsbD_append, msb_append]
  have hup : ¬s + i < w := by omega
  rcases Nat.lt_or_ge i w with hlow | hhigh
  · have hpos : s + i - w = s - w + i := by omega
    have hiff : s + i < w + w ↔ s - w + i < w := by omega
    simp [hup, hpos, hiff, hlow, Nat.not_le.mpr hi', Nat.not_le.mpr hlow]
  · have hout : ¬s + i < w + w := by omega
    have habove : i - w < w := by omega
    simp [hout, Nat.not_lt.mpr hhigh, Nat.not_le.mpr hi', Nat.not_le.mpr habove]

theorem sshiftRight_width (x : BitVec w) :
    x.sshiftRight w = if x.msb then BitVec.allOnes w else 0#w := by
  apply BitVec.eq_of_getLsbD_eq
  intro i hi
  have hout : ¬w + i < w := by omega
  rw [BitVec.getLsbD_sshiftRight, if_neg hout, decide_eq_false (Nat.not_le.mpr hi)]
  cases x.msb <;> simp [hi]

/-- A word with copies of its sign above it. -/
theorem signExtend_eq (lo : BitVec w) : lo.signExtend (w + w) = lo.sshiftRight w ++ lo := by
  apply BitVec.eq_of_getLsbD_eq
  intro i hi'
  simp only [BitVec.getLsbD_signExtend, BitVec.getLsbD_append, BitVec.getLsbD_sshiftRight]
  rcases Nat.lt_or_ge i w with hlow | hhigh
  · simp [hi', hlow]
  · have hout : ¬w + (i - w) < w := by omega
    have habove : i - w < w := by omega
    simp [hi', hout, Nat.not_lt.mpr hhigh, Nat.not_le.mpr habove]

/-! ## Division bit by bit -/

/-- The number that is cut before the bit `i`, from the one that is cut before the next bit. -/
theorem div_two_pow (x i : ℕ) : x / 2 ^ i = 2 * (x / 2 ^ (i + 1)) + x / 2 ^ i % 2 := by
  rw [Nat.pow_succ, ← Nat.div_div_eq_div_mul]
  omega

/-- The quotient and the remainder of a number with one more bit. -/
theorem bit_div_mod {m b y : ℕ} (hb : b < 2) (hy : 0 < y) :
    (2 * m + b) / y = 2 * (m / y) + (if y ≤ 2 * (m % y) + b then 1 else 0) ∧
      (2 * m + b) % y = 2 * (m % y) + b - (if y ≤ 2 * (m % y) + b then y else 0) := by
  have hmod := Nat.mod_lt m hy
  have hm : y * (m / y) + m % y = m := Nat.div_add_mod m y
  rw [Nat.div_mod_unique hy]
  split_ifs with hle
  · refine ⟨?_, by omega⟩
    calc 2 * (m % y) + b - y + y * (2 * (m / y) + 1)
        = 2 * (y * (m / y)) + (2 * (m % y) + b - y + y) := by ring
      _ = 2 * (y * (m / y) + m % y) + b := by omega
      _ = 2 * m + b := by rw [hm]
  · refine ⟨?_, by omega⟩
    calc 2 * (m % y) + b - 0 + y * (2 * (m / y) + 0)
        = 2 * (y * (m / y) + m % y) + b := by rw [Nat.sub_zero]; ring
      _ = 2 * m + b := by rw [hm]

end DoubleWord
