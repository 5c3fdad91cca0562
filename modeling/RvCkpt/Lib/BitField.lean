import Mathlib.Data.Nat.Notation
import Mathlib.Algebra.Group.Nat.Defs
import Mathlib.Tactic.Common

/-! # Bit fields of a word

A field of a word is read as a number and written with a number modulo its size. Fields that do not
overlap do not see each other.
-/

namespace BitField
set_option autoImplicit false

structure Field where
  lo : ℕ
  len : ℕ
  deriving DecidableEq, Repr

namespace Field

def Disjoint (f g : Field) : Prop := f.lo + f.len ≤ g.lo ∨ g.lo + g.len ≤ f.lo

instance decidableDisjoint (f g : Field) : Decidable (f.Disjoint g) := instDecidableOr

end Field

variable {w : ℕ}

def get (x : BitVec w) (f : Field) : ℕ := x.toNat >>> f.lo % 2 ^ f.len

def put (x : BitVec w) (f : Field) (v : ℕ) : BitVec w :=
  x &&& ~~~BitVec.ofNat w ((2 ^ f.len - 1) <<< f.lo) ||| BitVec.ofNat w ((v % 2 ^ f.len) <<< f.lo)

theorem testBit_get (x : BitVec w) (f : Field) (i : ℕ) :
    (get x f).testBit i = (decide (i < f.len) && x.getLsbD (f.lo + i)) := by
  rw [get, Nat.testBit_mod_two_pow, Nat.testBit_shiftRight]
  rfl

theorem getLsbD_put (x : BitVec w) (f : Field) (v : ℕ) {i : ℕ} (hi : i < w) :
    (put x f v).getLsbD i =
      if f.lo ≤ i ∧ i < f.lo + f.len then v.testBit (i - f.lo) else x.getLsbD i := by
  rw [put, BitVec.getLsbD_or, BitVec.getLsbD_and, BitVec.getLsbD_not, BitVec.getLsbD_ofNat,
    BitVec.getLsbD_ofNat, Nat.testBit_shiftLeft, Nat.testBit_shiftLeft, Nat.testBit_mod_two_pow,
    Nat.testBit_two_pow_sub_one]
  by_cases hlo : f.lo ≤ i
  · by_cases hlen : i < f.lo + f.len
    · have hsub : i - f.lo < f.len := by omega
      simp [hi, hlo, hlen, hsub]
    · have hsub : ¬ i - f.lo < f.len := by omega
      simp [hi, hlo, hlen, hsub]
  · simp [hi, hlo]

/-- A field holds what was written to it. -/
theorem get_put {x : BitVec w} {f : Field} (h : f.lo + f.len ≤ w) (v : ℕ) :
    get (put x f v) f = v % 2 ^ f.len := by
  apply Nat.eq_of_testBit_eq
  intro i
  rw [testBit_get, Nat.testBit_mod_two_pow]
  by_cases hi : i < f.len
  · rw [getLsbD_put x f v (by omega), if_pos (by omega), Nat.add_sub_cancel_left]
  · rw [decide_eq_false hi, Bool.false_and, Bool.false_and]

/-- Writing another field leaves a field as it is. -/
theorem get_put_of_disjoint {x : BitVec w} {f g : Field} (h : f.Disjoint g) (v : ℕ) :
    get (put x g v) f = get x f := by
  apply Nat.eq_of_testBit_eq
  intro i
  rw [testBit_get, testBit_get]
  by_cases hi : i < f.len
  · by_cases hw : f.lo + i < w
    · have hout : ¬(g.lo ≤ f.lo + i ∧ f.lo + i < g.lo + g.len) := by
        rcases h with h | h <;> omega
      rw [getLsbD_put x g v hw, if_neg hout]
    · rw [BitVec.getLsbD_of_ge _ _ (Nat.le_of_not_lt hw), BitVec.getLsbD_of_ge _ _ (Nat.le_of_not_lt hw)]
  · rw [decide_eq_false hi, Bool.false_and, Bool.false_and]

end BitField
