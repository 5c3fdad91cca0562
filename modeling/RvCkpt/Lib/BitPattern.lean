import Mathlib.Data.Nat.Notation
import Mathlib.Data.List.Basic
import Mathlib.Data.Nat.Bitwise

/-! # Words with variable bits

A pattern describes the words that agree with it: a bit is a constant, a named variable or not
known. The operations on words that only move bits have counterparts on patterns, so a fact about
all the words of a pattern is checked by computing on the pattern.
-/

namespace BitPattern
set_option autoImplicit false

variable {V : Type}

inductive Bit (V : Type) where
  | const (b : Bool)
  | var (v : V)
  | unknown
  deriving DecidableEq

namespace Bit

def Holds (env : V → Bool) : Bit V → Bool → Prop
  | const b, x => x = b
  | var v, x => x = env v
  | unknown, _ => True

def isZero : Bit V → Bool
  | const false => true
  | _ => false

def isOne : Bit V → Bool
  | const true => true
  | _ => false

def or [DecidableEq V] : Bit V → Bit V → Bit V
  | const false, b => b
  | a, const false => a
  | const true, _ => const true
  | _, const true => const true
  | var u, var v => if u = v then var u else unknown
  | _, _ => unknown

theorem Holds.or [DecidableEq V] {env : V → Bool} {a b : Bit V} {x y : Bool}
    (ha : a.Holds env x) (hb : b.Holds env y) : (a.or b).Holds env (x || y) := by
  cases a with
  | const c =>
    have hx : x = c := ha
    cases c with
    | false =>
      rw [hx, Bool.false_or]
      cases b <;> exact hb
    | true =>
      rw [hx, Bool.true_or]
      cases b with
      | const d => cases d <;> rfl
      | var v => rfl
      | unknown => rfl
  | var u =>
    cases b with
    | const d =>
      have hy : y = d := hb
      cases d with
      | false =>
        rw [hy, Bool.or_false]
        exact ha
      | true =>
        rw [hy, Bool.or_true]
        rfl
    | var v =>
      change (if u = v then Bit.var u else unknown).Holds env (x || y)
      by_cases huv : u = v
      · have hx : x = env u := ha
        have hy : y = env v := hb
        rw [if_pos huv, hx, hy, huv, Bool.or_self]
        rfl
      · rw [if_neg huv]
        trivial
    | unknown => trivial
  | unknown =>
    cases b with
    | const d =>
      have hy : y = d := hb
      cases d with
      | false => trivial
      | true =>
        rw [hy, Bool.or_true]
        rfl
    | var v => trivial
    | unknown => trivial

/-- Both bits are known, and they are the same in all words. -/
def same [DecidableEq V] : Bit V → Bit V → Bool
  | const a, const b => a == b
  | var u, var v => decide (u = v)
  | _, _ => false

theorem Holds.unique [DecidableEq V] {env : V → Bool} {a b : Bit V} {x y : Bool}
    (h : a.same b = true) (hx : a.Holds env x) (hy : b.Holds env y) : x = y := by
  cases a with
  | const c =>
    cases b with
    | const d =>
      have hcd : c = d := eq_of_beq h
      exact hx.trans (hcd.trans hy.symm)
    | var v => cases h
    | unknown => cases h
  | var u =>
    cases b with
    | const d => cases h
    | var v =>
      have huv : u = v := of_decide_eq_true h
      exact hx.trans ((congrArg env huv).trans hy.symm)
    | unknown => cases h
  | unknown => cases h

theorem eq_zero_of_isZero {a : Bit V} (h : a.isZero = true) : a = const false := by
  cases a with
  | const b =>
    cases b with
    | false => rfl
    | true => cases h
  | var v => cases h
  | unknown => cases h

end Bit

/-! ## Patterns -/

/-- The bits from the lowest on; what lies behind the list is zero. -/
abbrev Pattern (V : Type) := List (Bit V)

namespace Pattern

def get (p : Pattern V) (i : ℕ) : Bit V := p[i]?.getD (.const false)

theorem get_tail (p : Pattern V) (i : ℕ) : get p.tail i = p.get (i + 1) := by
  cases p with
  | nil => rfl
  | cons a p => rfl

/-- The word agrees with the pattern where the variables stand for `env`. -/
def Models {w : ℕ} (env : V → Bool) (p : Pattern V) (x : BitVec w) : Prop :=
  ∀ i < w, (p.get i).Holds env (x.getLsbD i)

variable {w : ℕ} {env : V → Bool} {p q : Pattern V} {x y : BitVec w}

/-! ### Constants -/

def constant : ℕ → ℕ → Pattern V
  | 0, _ => []
  | n + 1, c => if c = 0 then [] else .const (decide (c % 2 = 1)) :: constant n (c / 2)

theorem get_constant (n c i : ℕ) (hi : i < n) :
    get (constant n c : Pattern V) i = .const (c.testBit i) := by
  induction n generalizing c i with
  | zero => omega
  | succ n ih =>
    by_cases hc : c = 0
    · rw [constant, if_pos hc, hc, Nat.zero_testBit]
      rfl
    · rw [constant, if_neg hc]
      cases i with
      | zero =>
        rw [Nat.testBit_zero]
        rfl
      | succ i =>
        rw [Nat.testBit_succ]
        exact ih (c / 2) i (Nat.lt_of_succ_lt_succ hi)

theorem models_constant (c : ℕ) : Models env (constant w c) (BitVec.ofNat w c) := by
  intro i hi
  rw [get_constant w c i hi, BitVec.getLsbD_ofNat, decide_eq_true hi, Bool.true_and]
  rfl

/-! ### Bitwise or -/

def or [DecidableEq V] : Pattern V → Pattern V → Pattern V
  | [], q => q
  | p, [] => p
  | a :: p, b :: q => a.or b :: or p q

theorem get_or [DecidableEq V] {env : V → Bool} (p q : Pattern V) (i : ℕ) {x y : Bool}
    (hp : (p.get i).Holds env x) (hq : (q.get i).Holds env y) :
    ((or p q).get i).Holds env (x || y) := by
  induction p generalizing q i with
  | nil =>
    have hx : x = false := hp
    rw [hx, Bool.false_or]
    exact hq
  | cons a p ih =>
    cases q with
    | nil =>
      have hy : y = false := hq
      rw [hy, Bool.or_false]
      exact hp
    | cons b q =>
      cases i with
      | zero => exact hp.or hq
      | succ i => exact ih q i hp hq

theorem Models.or [DecidableEq V] (hp : Models env p x) (hq : Models env q y) :
    Models env (or p q) (x ||| y) := by
  intro i hi
  rw [BitVec.getLsbD_or]
  exact get_or p q i (hp i hi) (hq i hi)

/-! ### Masks -/

def mask : ℕ → Pattern V → Pattern V
  | _, [] => []
  | c, a :: p => if c = 0 then [] else (if c % 2 = 1 then a else .const false) :: mask (c / 2) p

theorem get_mask {env : V → Bool} (p : Pattern V) (c i : ℕ) {x : Bool}
    (hp : (p.get i).Holds env x) : ((mask c p).get i).Holds env (x && c.testBit i) := by
  induction p generalizing c i with
  | nil =>
    have hx : x = false := hp
    rw [hx, Bool.false_and]
    rfl
  | cons a p ih =>
    by_cases hc : c = 0
    · rw [mask, if_pos hc, hc, Nat.zero_testBit, Bool.and_false]
      rfl
    · rw [mask, if_neg hc]
      cases i with
      | zero =>
        rw [Nat.testBit_zero]
        change (if c % 2 = 1 then a else .const false).Holds env _
        by_cases hodd : c % 2 = 1
        · rw [if_pos hodd, decide_eq_true hodd, Bool.and_true]
          exact hp
        · rw [if_neg hodd, decide_eq_false hodd, Bool.and_false]
          rfl
      | succ i =>
        rw [Nat.testBit_succ]
        exact ih (c / 2) i hp

theorem Models.mask (hp : Models env p x) (c : ℕ) :
    Models env (mask c p) (x &&& BitVec.ofNat w c) := by
  intro i hi
  rw [BitVec.getLsbD_and, BitVec.getLsbD_ofNat, decide_eq_true hi, Bool.true_and]
  exact get_mask p c i (hp i hi)

/-! ### Shifts -/

def shiftRight (w n : ℕ) (p : Pattern V) : Pattern V := (p.take w).drop n

theorem Models.shiftRight (hp : Models env p x) (n : ℕ) :
    Models env (shiftRight w n p) (x >>> n) := by
  intro i hi
  rw [get, Pattern.shiftRight, List.getElem?_drop, List.getElem?_take, BitVec.getLsbD_ushiftRight]
  by_cases hn : n + i < w
  · rw [if_pos hn]
    exact hp (n + i) hn
  · rw [if_neg hn, BitVec.getLsbD_of_ge _ _ (Nat.le_of_not_lt hn)]
    rfl

def shiftLeft (n : ℕ) (p : Pattern V) : Pattern V := List.replicate n (.const false) ++ p

theorem Models.shiftLeft (hp : Models env p x) (n : ℕ) :
    Models env (shiftLeft n p) (x <<< n) := by
  intro i hi
  rw [get, Pattern.shiftLeft, BitVec.getLsbD_shiftLeft, decide_eq_true hi, Bool.true_and]
  by_cases hn : i < n
  · rw [List.getElem?_append_left (by simpa using hn), List.getElem?_replicate, if_pos hn,
      decide_eq_true hn]
    rfl
  · rw [List.getElem?_append_right (by simpa using hn), List.length_replicate,
      decide_eq_false hn, Bool.not_false, Bool.true_and]
    exact hp (i - n) (by omega)

/-! ### Extension -/

/-- The first `n` bits, and the last of them up to `w`; it is `b` where `n` is zero. -/
def extend : ℕ → ℕ → Bit V → Pattern V → Pattern V
  | 0, _, _, _ => []
  | w + 1, 0, b, _ => b :: extend w 0 b []
  | w + 1, n + 1, _, p => p.get 0 :: extend w n (p.get 0) p.tail

theorem get_extend (w n : ℕ) (b : Bit V) (p : Pattern V) (i : ℕ) (hi : i < w) :
    get (extend w n b p) i = if i < n then p.get i else if n = 0 then b else p.get (n - 1) := by
  induction w generalizing n b p i with
  | zero => omega
  | succ w ih =>
    cases n with
    | zero =>
      cases i with
      | zero => rfl
      | succ i => exact ih 0 b [] i (Nat.lt_of_succ_lt_succ hi)
    | succ n =>
      cases i with
      | zero => rfl
      | succ i =>
        have hrest := ih n (p.get 0) p.tail i (Nat.lt_of_succ_lt_succ hi)
        refine Eq.trans hrest ?_
        simp only [Nat.succ_lt_succ_iff, get_tail, Nat.succ_ne_zero, if_false]
        by_cases hin : i < n
        · rw [if_pos hin, if_pos hin]
        · rw [if_neg hin, if_neg hin]
          by_cases hn : n = 0
          · rw [if_pos hn, hn]
          · rw [if_neg hn, Nat.sub_add_cancel (Nat.pos_of_ne_zero hn), Nat.add_sub_cancel]

def signExtend (w n : ℕ) (p : Pattern V) : Pattern V := extend w n (.const false) p

theorem Models.signExtend (hp : Models env p x) {n : ℕ} (hn : 0 < n) (hnw : n ≤ w) (v : ℕ) :
    Models env (signExtend v n p) ((x.truncate n).signExtend v) := by
  intro i hi
  rw [Pattern.signExtend, get_extend v n _ p i hi, BitVec.getLsbD_signExtend, decide_eq_true hi,
    Bool.true_and, if_neg (Nat.ne_of_gt hn)]
  by_cases hin : i < n
  · simp only [BitVec.truncate_eq_setWidth, BitVec.getLsbD_setWidth, hin, if_true, decide_true,
      Bool.true_and]
    exact hp i (Nat.lt_of_lt_of_le hin hnw)
  · rw [if_neg hin, if_neg hin]
    have hmsb := hp (n - 1) (by omega)
    simpa [BitVec.msb_setWidth, hn] using hmsb

theorem Models.take (hp : Models env p x) {n : ℕ} (hnw : n ≤ w) (v : ℕ) :
    Models env (p.take n) ((x.truncate n).zeroExtend v) := by
  intro i hi
  simp only [BitVec.truncate_eq_setWidth, BitVec.getLsbD_setWidth, hi, decide_true, Bool.true_and]
  rw [get, List.getElem?_take]
  by_cases hin : i < n
  · rw [if_pos hin, decide_eq_true hin, Bool.true_and]
    exact hp i (Nat.lt_of_lt_of_le hin hnw)
  · rw [if_neg hin, decide_eq_false hin, Bool.false_and]
    rfl

/-! ### Adding a power of two -/

/-- Adding `2 ^ k` keeps the bits below; a word below `2 ^ k` gets the one bit. -/
def addPow (w k : ℕ) (p : Pattern V) : Pattern V :=
  (List.range w).map fun i =>
    if i < k then p.get i
    else if ((List.range w).drop k).all fun j => (p.get j).isZero then
      .const (decide (i = k))
    else .unknown

theorem Models.addPow (hp : Models env p x) {k : ℕ} (hk : k < w) :
    Models env (addPow w k p) (x + BitVec.ofNat w (2 ^ k)) := by
  intro i hi
  have hpow : 2 ^ k < 2 ^ w := Nat.pow_lt_pow_right (by decide) hk
  have hbit : (x + BitVec.ofNat w (2 ^ k)).getLsbD i = (2 ^ k + x.toNat).testBit i := by
    rw [BitVec.getLsbD, BitVec.toNat_add, BitVec.toNat_ofNat, Nat.mod_eq_of_lt hpow,
      Nat.testBit_mod_two_pow, decide_eq_true hi, Bool.true_and, Nat.add_comm]
  rw [get, Pattern.addPow, List.getElem?_map, List.getElem?_range hi, hbit]
  simp only [Option.map_some, Option.getD_some]
  by_cases hik : i < k
  · rw [if_pos hik, Nat.testBit_two_pow_add_gt hik]
    exact hp i hi
  · rw [if_neg hik]
    split
    · rename_i hzero
      have hlow : x.toNat < 2 ^ k := by
        apply Nat.lt_pow_two_of_testBit
        intro j hj
        by_cases hjw : j < w
        · have hmem : j ∈ (List.range w).drop k := by
            rw [List.mem_drop_iff_getElem]
            exact ⟨j - k, by simp; omega, by simp; omega⟩
          have hconst := List.all_eq_true.mp hzero j hmem
          have hholds := hp j hjw
          cases hget : p.get j with
          | const b =>
            rw [hget] at hconst hholds
            cases b with
            | false => exact hholds
            | true => cases hconst
          | var v =>
            rw [hget] at hconst
            cases hconst
          | unknown =>
            rw [hget] at hconst
            cases hconst
        · exact BitVec.getLsbD_of_ge x j (Nat.le_of_not_lt hjw)
      have hor : 2 ^ k + x.toNat = 2 ^ k ||| x.toNat := by
        simpa using Nat.two_pow_add_eq_or_of_lt hlow 1
      rw [hor, Nat.testBit_or, Nat.testBit_two_pow,
        Nat.testBit_lt_two_pow (Nat.lt_of_lt_of_le hlow (Nat.pow_le_pow_right (by decide) (by omega))),
        Bool.or_false]
      exact decide_eq_decide.mpr eq_comm
    · trivial

/-! ### Assumptions -/

/-- The patterns of the words where a variable is set. -/
def assume [DecidableEq V] (v : V) (p : Pattern V) : Pattern V :=
  p.map fun b => if b = .var v then .const true else b

theorem Models.assume [DecidableEq V] (hp : Models env p x) {v : V} (hv : env v = true) :
    Models env (assume v p) x := by
  intro i hi
  have hbit := hp i hi
  rw [get, Pattern.assume, List.getElem?_map]
  rw [get] at hbit
  cases hget : p[i]? with
  | none =>
    rw [hget] at hbit
    exact hbit
  | some b =>
    rw [hget] at hbit
    simp only [Option.getD_some] at hbit
    simp only [Option.map_some, Option.getD_some]
    by_cases hb : b = .var v
    · rw [hb] at hbit
      rw [if_pos hb]
      exact Eq.trans hbit hv
    · rw [if_neg hb]
      exact hbit

/-! ### Comparison -/

/-- The patterns name the same word. -/
def agree [DecidableEq V] : ℕ → Pattern V → Pattern V → Bool
  | 0, _, _ => true
  | _ + 1, [], [] => true
  | n + 1, [], b :: q => b.isZero && agree n [] q
  | n + 1, a :: p, [] => a.isZero && agree n p []
  | n + 1, a :: p, b :: q => a.same b && agree n p q

theorem same_of_agree [DecidableEq V] {n : ℕ} {p q : Pattern V} (h : agree n p q = true) {i : ℕ}
    (hi : i < n) : (p.get i).same (q.get i) = true := by
  induction n generalizing p q i with
  | zero => omega
  | succ n ih =>
    cases p with
    | nil =>
      cases q with
      | nil => rfl
      | cons b q =>
        obtain ⟨hzero, hrest⟩ := Bool.and_eq_true_iff.mp h
        cases i with
        | zero =>
          rw [Bit.eq_zero_of_isZero hzero]
          rfl
        | succ i => exact ih hrest (Nat.lt_of_succ_lt_succ hi)
    | cons a p =>
      cases q with
      | nil =>
        obtain ⟨hzero, hrest⟩ := Bool.and_eq_true_iff.mp h
        cases i with
        | zero =>
          rw [Bit.eq_zero_of_isZero hzero]
          rfl
        | succ i => exact ih hrest (Nat.lt_of_succ_lt_succ hi)
      | cons b q =>
        obtain ⟨hsame, hrest⟩ := Bool.and_eq_true_iff.mp h
        cases i with
        | zero => exact hsame
        | succ i => exact ih hrest (Nat.lt_of_succ_lt_succ hi)

theorem eq_of_agree [DecidableEq V] (hp : Models env p x) (hq : Models env q y)
    (h : agree w p q = true) : x = y := by
  apply BitVec.eq_of_getLsbD_eq
  intro i hi
  exact Bit.Holds.unique (same_of_agree h hi) (hp i hi) (hq i hi)

end Pattern

/-! ## Bounds

A coarser view that computes on numbers: the bits that are set in all words of a pattern, and
those that are set in some.
-/

structure Bounds where
  lo : ℕ
  hi : ℕ
  deriving DecidableEq

namespace Bounds

def Holds (b : Bounds) (x : ℕ) : Prop :=
  ∀ i, (b.lo.testBit i = true → x.testBit i = true) ∧ (x.testBit i = true → b.hi.testBit i = true)

theorem Holds.zero : Holds ⟨0, 0⟩ 0 := fun _ => ⟨id, id⟩

def shiftRight (n : ℕ) (b : Bounds) : Bounds := ⟨b.lo >>> n, b.hi >>> n⟩

theorem Holds.shiftRight {b : Bounds} {x : ℕ} (h : b.Holds x) (n : ℕ) :
    (b.shiftRight n).Holds (x >>> n) := by
  intro i
  simp only [Bounds.shiftRight, Nat.testBit_shiftRight]
  exact h (n + i)

def mask (c : ℕ) (b : Bounds) : Bounds := ⟨b.lo &&& c, b.hi &&& c⟩

theorem Holds.mask {b : Bounds} {x : ℕ} (h : b.Holds x) (c : ℕ) : (b.mask c).Holds (x &&& c) := by
  intro i
  simp only [Bounds.mask, Nat.testBit_and, Bool.and_eq_true]
  exact ⟨fun hlo => ⟨(h i).1 hlo.1, hlo.2⟩, fun hx => ⟨(h i).2 hx.1, hx.2⟩⟩

def or (b c : Bounds) : Bounds := ⟨b.lo ||| c.lo, b.hi ||| c.hi⟩

theorem Holds.or {b c : Bounds} {x y : ℕ} (hb : b.Holds x) (hc : c.Holds y) :
    (b.or c).Holds (x ||| y) := by
  intro i
  simp only [Bounds.or, Nat.testBit_or, Bool.or_eq_true]
  exact ⟨Or.imp (hb i).1 (hc i).1, Or.imp (hb i).2 (hc i).2⟩

theorem Holds.lt_two_pow {b : Bounds} {x n : ℕ} (h : b.Holds x) (hhi : b.hi < 2 ^ n) :
    x < 2 ^ n := by
  apply Nat.lt_pow_two_of_testBit
  intro i hi
  have hfalse : b.hi.testBit i = false :=
    Nat.testBit_lt_two_pow (Nat.lt_of_lt_of_le hhi (Nat.pow_le_pow_right (by decide) hi))
  cases hx : x.testBit i with
  | false => rfl
  | true =>
    rw [(h i).2 hx] at hfalse
    cases hfalse

theorem Holds.two_pow_dvd {b : Bounds} {x n : ℕ} (h : b.Holds x) (hhi : b.hi % 2 ^ n = 0) :
    2 ^ n ∣ x := by
  apply Nat.dvd_of_mod_eq_zero
  apply Nat.eq_of_testBit_eq
  intro i
  rw [Nat.zero_testBit, Nat.testBit_mod_two_pow]
  by_cases hi : i < n
  · have hmod := congrArg (Nat.testBit · i) hhi
    simp only [Nat.testBit_mod_two_pow, hi, decide_true, Bool.true_and, Nat.zero_testBit] at hmod
    cases hx : x.testBit i with
    | false => rw [Bool.and_false]
    | true =>
      rw [(h i).2 hx] at hmod
      cases hmod
  · rw [decide_eq_false hi, Bool.false_and]

/-- Whether the words are all the number `c`, or all another one. -/
def equals (c : ℕ) (b : Bounds) : Option Bool :=
  if b.lo = c ∧ b.hi = c then some true
  else if b.lo &&& c = b.lo ∧ c &&& b.hi = c then none
  else some false

theorem Holds.equals {b : Bounds} {x c : ℕ} (h : b.Holds x) {r : Bool}
    (hr : b.equals c = some r) : x = c ↔ r = true := by
  unfold Bounds.equals at hr
  split at hr
  · rename_i heq
    obtain rfl : true = r := Option.some.inj hr
    refine iff_of_true ?_ rfl
    apply Nat.eq_of_testBit_eq
    intro i
    have hbits := h i
    rw [heq.1, heq.2] at hbits
    exact Bool.eq_iff_iff.mpr ⟨hbits.2, hbits.1⟩
  · split at hr
    · cases hr
    · rename_i hne
      obtain rfl : false = r := Option.some.inj hr
      refine iff_of_false ?_ (by decide)
      intro hxc
      rw [hxc] at h
      apply hne
      constructor
      · apply Nat.eq_of_testBit_eq
        intro i
        rw [Nat.testBit_and]
        cases hlo : b.lo.testBit i with
        | false => rfl
        | true => rw [(h i).1 hlo]; rfl
      · apply Nat.eq_of_testBit_eq
        intro i
        rw [Nat.testBit_and]
        cases hc : c.testBit i with
        | false => rfl
        | true => rw [(h i).2 hc]; rfl

end Bounds

namespace Pattern

variable {w : ℕ} {env : V → Bool} {p : Pattern V} {x : BitVec w}

def lo : Pattern V → ℕ
  | [] => 0
  | a :: p => Nat.bit a.isOne (lo p)

def hi : Pattern V → ℕ
  | [] => 0
  | a :: p => Nat.bit (!a.isZero) (hi p)

def bounds (w : ℕ) (p : Pattern V) : Bounds := ⟨lo (p.take w), hi (p.take w)⟩

theorem testBit_lo (p : Pattern V) (i : ℕ) : (lo p).testBit i = (p.get i).isOne := by
  induction p generalizing i with
  | nil => exact Nat.zero_testBit i
  | cons a p ih =>
    cases i with
    | zero => exact Nat.testBit_bit_zero _ _
    | succ i => exact (Nat.testBit_bit_succ i _ _).trans (ih i)

theorem testBit_hi (p : Pattern V) (i : ℕ) :
    (hi p).testBit i = !(p.get i).isZero := by
  induction p generalizing i with
  | nil => exact Nat.zero_testBit i
  | cons a p ih =>
    cases i with
    | zero => exact Nat.testBit_bit_zero _ _
    | succ i => exact (Nat.testBit_bit_succ i _ _).trans (ih i)

theorem Models.bounds (hp : Models env p x) : (bounds w p).Holds x.toNat := by
  intro i
  have htake : (Pattern.get (p.take w) i).Holds env (x.toNat.testBit i) := by
    by_cases hi : i < w
    · have hget : Pattern.get (p.take w) i = p.get i := by
        rw [get, get, List.getElem?_take, if_pos hi]
      rw [hget]
      exact hp i hi
    · have hget : Pattern.get (p.take w) i = .const false := by
        rw [get, List.getElem?_take, if_neg hi, Option.getD_none]
      rw [hget]
      exact BitVec.getLsbD_of_ge x i (Nat.le_of_not_lt hi)
  rw [Pattern.bounds, testBit_lo, testBit_hi]
  cases hbit : Pattern.get (p.take w) i with
  | const b =>
    rw [hbit] at htake
    have hx : x.toNat.testBit i = b := htake
    rw [hx]
    cases b with
    | false => exact ⟨id, id⟩
    | true => exact ⟨id, id⟩
  | var v => exact ⟨fun h => absurd h Bool.false_ne_true, fun _ => rfl⟩
  | unknown => exact ⟨fun h => absurd h Bool.false_ne_true, fun _ => rfl⟩

end Pattern

end BitPattern
