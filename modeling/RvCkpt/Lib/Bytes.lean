import Mathlib.Data.Nat.Notation
import Mathlib.Tactic.Common
import Mathlib.Tactic.Ring

/-! # Byte memories

Little-endian words over a memory of bytes. `byteAt x i` is byte `i` of a 64-bit word, `leNat f n`
the number spelled by the bytes `f 0, …, f (n - 1)`, and `Mem.read` / `Mem.write` access `n`
consecutive bytes of a memory. A memory is total: whether an address is mapped is the business
of the layer that uses it.
-/

namespace ByteMem
set_option autoImplicit false

abbrev Byte := BitVec 8

abbrev Mem := ℕ → Byte

def byteAt (x : BitVec 64) (i : ℕ) : Byte := x.extractLsb' (8 * i) 8

def leNat (f : ℕ → Byte) : ℕ → ℕ
  | 0 => 0
  | n + 1 => (f 0).toNat + 256 * leNat (fun i => f (i + 1)) n

namespace Mem

def read (m : Mem) (a n : ℕ) : BitVec 64 := BitVec.ofNat 64 (leNat (fun i => m (a + i)) n)

def write (m : Mem) (a n : ℕ) (x : BitVec 64) : Mem :=
  fun b => if a ≤ b ∧ b < a + n then byteAt x (b - a) else m b

def writeBytes (m : Mem) (a : ℕ) (bs : List Byte) : Mem :=
  fun b => if a ≤ b ∧ b < a + bs.length then bs.getD (b - a) 0 else m b

def bytes (m : Mem) (a n : ℕ) : List Byte := (List.range n).map fun i => m (a + i)

/-- The bytes `bs` are in memory from `a` on. -/
def Holds (m : Mem) (a : ℕ) : List Byte → Prop
  | [] => True
  | b :: bs => m a = b ∧ Holds m (a + 1) bs

end Mem

/-- The eight bytes of a word. -/
def word (x : BitVec 64) : List Byte := (List.range 8).map (byteAt x)

/-! ## Bytes of a word -/

theorem byteAt_toNat (x : BitVec 64) (i : ℕ) : (byteAt x i).toNat = x.toNat / 256 ^ i % 256 := by
  rw [byteAt, BitVec.extractLsb'_toNat, Nat.shiftRight_eq_div_pow, Nat.pow_mul]

theorem byteAt_ushiftRight (x : BitVec 64) (k i : ℕ) :
    byteAt (x >>> (8 * k)) i = byteAt x (k + i) := by
  apply BitVec.eq_of_getLsbD_eq
  intro j _
  rw [byteAt, byteAt, BitVec.getLsbD_extractLsb', BitVec.getLsbD_extractLsb',
    BitVec.getLsbD_ushiftRight, Nat.mul_add, Nat.add_assoc]

@[simp] theorem byteAt_zero (i : ℕ) : byteAt 0 i = 0 := by simp [byteAt]

theorem leNat_lt (f : ℕ → Byte) (n : ℕ) : leNat f n < 256 ^ n := by
  induction n generalizing f with
  | zero => simp [leNat]
  | succ n ih =>
    have h0 := (f 0).isLt
    have hn := ih fun i => f (i + 1)
    rw [leNat, Nat.pow_succ]
    omega

theorem leNat_congr {f g : ℕ → Byte} {n : ℕ} (h : ∀ i < n, f i = g i) : leNat f n = leNat g n := by
  induction n generalizing f g with
  | zero => rfl
  | succ n ih =>
    rw [leNat, leNat, h 0 (by omega), ih fun i hi => h (i + 1) (by omega)]

theorem leNat_div (f : ℕ → Byte) {n i : ℕ} (hi : i < n) : leNat f n / 256 ^ i % 256 = (f i).toNat := by
  induction n generalizing f i with
  | zero => omega
  | succ n ih =>
    have h0 := (f 0).isLt
    cases i with
    | zero =>
      rw [leNat, Nat.pow_zero, Nat.div_one]
      omega
    | succ i =>
      have hdiv : leNat f (n + 1) / 256 = leNat (fun i => f (i + 1)) n := by
        rw [leNat]
        omega
      rw [Nat.pow_succ, Nat.mul_comm, ← Nat.div_div_eq_div_mul, hdiv]
      exact ih (fun i => f (i + 1)) (by omega)

theorem leNat_byteAt (x : BitVec 64) (n k : ℕ) :
    leNat (fun i => byteAt x (k + i)) n = x.toNat / 256 ^ k % 256 ^ n := by
  induction n generalizing k with
  | zero => simp [leNat, Nat.mod_one]
  | succ n ih =>
    have hs : (fun i => byteAt x (k + (i + 1))) = fun i => byteAt x (k + 1 + i) := by
      funext i
      rw [Nat.add_assoc, Nat.add_comm 1 i]
    rw [leNat, hs, ih (k + 1), Nat.add_zero, byteAt_toNat, Nat.pow_succ 256 k,
      ← Nat.div_div_eq_div_mul, Nat.pow_succ', Nat.mod_mul]

theorem byteAt_ofNat_leNat (f : ℕ → Byte) {n i : ℕ} (hn : n ≤ 8) (hi : i < n) :
    byteAt (BitVec.ofNat 64 (leNat f n)) i = f i := by
  have hlt : leNat f n < 2 ^ 64 := by
    calc leNat f n < 256 ^ n := leNat_lt f n
      _ ≤ 256 ^ 8 := Nat.pow_le_pow_right (by decide) hn
      _ = 2 ^ 64 := by norm_num
  apply BitVec.eq_of_toNat_eq
  rw [byteAt_toNat, BitVec.toNat_ofNat, Nat.mod_eq_of_lt hlt, leNat_div f hi]

/-- Clearing the bits below `k`. -/
theorem and_not_low {w : ℕ} {mask : BitVec w} {k : ℕ}
    (hmask : ∀ j < w, (~~~mask).getLsbD j = !decide (j < k)) (x : BitVec w) :
    x &&& ~~~mask = x >>> k <<< k := by
  apply BitVec.eq_of_getLsbD_eq
  intro i hi
  rw [BitVec.getLsbD_and, BitVec.getLsbD_shiftLeft, BitVec.getLsbD_ushiftRight, hmask i hi]
  by_cases hik : i < k
  · simp [hik]
  · simp [hik, hi, show k + (i - k) = i by omega]

/-! ## Reading and writing -/

namespace Mem

theorem write_of_mem {m : Mem} {a n b : ℕ} {x : BitVec 64} (h : a ≤ b ∧ b < a + n) :
    m.write a n x b = byteAt x (b - a) := if_pos h

theorem write_of_not_mem {m : Mem} {a n b : ℕ} {x : BitVec 64} (h : b < a ∨ a + n ≤ b) :
    m.write a n x b = m b := if_neg (by omega)

theorem writeBytes_of_not_mem {m : Mem} {a b : ℕ} {bs : List Byte}
    (h : b < a ∨ a + bs.length ≤ b) : m.writeBytes a bs b = m b := if_neg (by omega)

@[simp] theorem writeBytes_nil (m : Mem) (a : ℕ) : m.writeBytes a [] = m := by
  funext b
  exact writeBytes_of_not_mem (by simp; omega)

theorem read_congr {m m' : Mem} {a n : ℕ} (h : ∀ i < n, m (a + i) = m' (a + i)) :
    m.read a n = m'.read a n := by
  rw [read, read, leNat_congr h]

theorem read_write_same (m : Mem) (a n : ℕ) (x : BitVec 64) :
    (m.write a n x).read a n = BitVec.ofNat 64 (x.toNat % 256 ^ n) := by
  have h : leNat (fun i => m.write a n x (a + i)) n = leNat (fun i => byteAt x (0 + i)) n := by
    apply leNat_congr
    intro i hi
    rw [write_of_mem ⟨by omega, by omega⟩, Nat.add_sub_cancel_left, Nat.zero_add]
  rw [read, h, leNat_byteAt, Nat.pow_zero, Nat.div_one]

@[simp] theorem read_write_word (m : Mem) (a : ℕ) (x : BitVec 64) :
    (m.write a 8 x).read a 8 = x := by
  rw [read_write_same]
  apply BitVec.eq_of_toNat_eq
  have h := x.isLt
  rw [BitVec.toNat_ofNat]
  norm_num at *
  omega

theorem read_write_of_disjoint {m : Mem} {a n b k : ℕ} {x : BitVec 64}
    (h : b + k ≤ a ∨ a + n ≤ b) : (m.write a n x).read b k = m.read b k := by
  apply read_congr
  intro i hi
  exact write_of_not_mem (by omega)

theorem byteAt_read (m : Mem) (a : ℕ) {n i : ℕ} (hn : n ≤ 8) (hi : i < n) :
    byteAt (m.read a n) i = m (a + i) := byteAt_ofNat_leNat (fun i => m (a + i)) hn hi

theorem getLsbD_read (m : Mem) (a : ℕ) {n j : ℕ} (hn : n ≤ 8) (hj : j < 8 * n) :
    (m.read a n).getLsbD j = (m (a + j / 8)).getLsbD (j % 8) := by
  rw [← byteAt_read m a hn (show j / 8 < n by omega), byteAt, BitVec.getLsbD_extractLsb',
    Nat.div_add_mod, decide_eq_true (Nat.mod_lt j (by decide)), Bool.true_and]

/-- A memory that tells two addresses apart. -/
theorem exists_read_bit_ne {a b n : ℕ} (hne : a ≠ b) (hpos : 0 < n) (hn : n ≤ 8) :
    ∃ m : Mem, (m.read a n).getLsbD 0 ≠ (m.read b n).getLsbD 0 := by
  have hbit : 0 < 8 * n := by omega
  refine ⟨fun i => if i = a then 1 else 0, ?_⟩
  rw [getLsbD_read _ _ hn hbit, getLsbD_read _ _ hn hbit, Nat.zero_div, Nat.add_zero,
    Nat.add_zero, if_pos rfl, if_neg hne.symm]
  decide

/-- Bits of the first `k` bytes. -/
theorem read_and_congr {m m' : Mem} {a n k : ℕ} {mask : BitVec 64} (hkn : k ≤ n) (hn : n ≤ 8)
    (hmask : mask.toNat < 2 ^ (8 * k)) (h : ∀ i < k, m' (a + i) = m (a + i)) :
    m'.read a n &&& mask = m.read a n &&& mask := by
  apply BitVec.eq_of_getLsbD_eq
  intro j _
  rw [BitVec.getLsbD_and, BitVec.getLsbD_and]
  by_cases hj : j < 8 * k
  · rw [getLsbD_read m a hn (by omega), getLsbD_read m' a hn (by omega), h _ (by omega)]
  · have hzero : mask.getLsbD j = false :=
      Nat.testBit_lt_two_pow (hmask.trans_le (Nat.pow_le_pow_right (by decide) (by omega)))
    rw [hzero, Bool.and_false, Bool.and_false]

theorem writeBytes_of_mem {m : Mem} {a b : ℕ} {bs : List Byte} (h : a ≤ b ∧ b < a + bs.length) :
    m.writeBytes a bs b = bs.getD (b - a) 0 := if_pos h

theorem writeBytes_cons (m : Mem) (a : ℕ) (b : Byte) (bs : List Byte) :
    m.writeBytes a (b :: bs) = Mem.writeBytes (m.writeBytes a [b]) (a + 1) bs := by
  funext c
  by_cases hc : c < a ∨ a + (b :: bs).length ≤ c
  · rw [writeBytes_of_not_mem hc]
    rw [List.length_cons] at hc
    rw [writeBytes_of_not_mem (by omega), writeBytes_of_not_mem (by simp; omega)]
  · rw [writeBytes_of_mem (by omega)]
    rw [List.length_cons] at hc
    by_cases hca : c = a
    · rw [writeBytes_of_not_mem (by omega), writeBytes_of_mem (by simp; omega), hca, Nat.sub_self]
      rfl
    · rw [writeBytes_of_mem (by omega), show c - a = c - (a + 1) + 1 by omega,
        List.getD_cons_succ]

/-! ## Bytes in memory -/

theorem holds_append {m : Mem} {a : ℕ} {xs ys : List Byte} :
    m.Holds a (xs ++ ys) ↔ m.Holds a xs ∧ m.Holds (a + xs.length) ys := by
  induction xs generalizing a with
  | nil => simp [Holds]
  | cons x xs ih =>
    rw [List.cons_append, Holds, Holds, ih, List.length_cons, and_assoc,
      show a + 1 + xs.length = a + (xs.length + 1) by omega]

theorem holds_congr {m m' : Mem} {a : ℕ} {xs : List Byte}
    (h : ∀ b, a ≤ b → b < a + xs.length → m' b = m b) (hm : m.Holds a xs) : m'.Holds a xs := by
  induction xs generalizing a with
  | nil => trivial
  | cons x xs ih =>
    rw [List.length_cons] at h
    refine ⟨(h a le_rfl (by omega)).trans hm.1, ih ?_ hm.2⟩
    intro b hlo hhi
    exact h b (by omega) (by omega)

theorem holds_iff {m : Mem} {a : ℕ} {xs : List Byte} :
    m.Holds a xs ↔ ∀ i < xs.length, m (a + i) = xs.getD i 0 := by
  induction xs generalizing a with
  | nil => simp [Holds]
  | cons x xs ih =>
    rw [Holds, ih]
    constructor
    · rintro ⟨h0, hrest⟩ i hi
      cases i with
      | zero => exact h0
      | succ i =>
        rw [List.getD_cons_succ, ← hrest i (by simpa using hi), Nat.add_assoc, Nat.add_comm 1 i]
    · intro h
      refine ⟨h 0 (by simp), ?_⟩
      intro i hi
      rw [← List.getD_cons_succ, ← h (i + 1) (by simpa using hi), Nat.add_assoc, Nat.add_comm 1 i]

theorem holds_writeBytes (m : Mem) (a : ℕ) (xs : List Byte) : (m.writeBytes a xs).Holds a xs := by
  rw [holds_iff]
  intro i hi
  rw [writeBytes_of_mem (by omega), Nat.add_sub_cancel_left]

theorem read_of_holds_word {m : Mem} {a n : ℕ} {x : BitVec 64} (hn : n ≤ 8)
    (h : m.Holds a (word x)) : m.read a n = BitVec.ofNat 64 (x.toNat % 256 ^ n) := by
  rw [← read_write_same m a n x]
  apply read_congr
  intro i hi
  have hb := holds_iff.mp h i (by simp [word]; omega)
  rw [hb, write_of_mem (by omega), Nat.add_sub_cancel_left]
  simp [word, List.getElem?_range (show i < 8 by omega)]

theorem read_of_holds_word_full {m : Mem} {a : ℕ} {x : BitVec 64} (h : m.Holds a (word x)) :
    m.read a 8 = x := by
  rw [read_of_holds_word le_rfl h]
  apply BitVec.eq_of_toNat_eq
  have hx := x.isLt
  rw [BitVec.toNat_ofNat]
  norm_num at *
  omega

end Mem

@[simp] theorem word_length (x : BitVec 64) : (word x).length = 8 := by simp [word]

end ByteMem
