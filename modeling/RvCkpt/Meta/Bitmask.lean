import RvCkpt.Meta.DecodeTree

/-! # Bit mask expressions

`bitmask_to_bitrange` and `format_bitmask` of `src/src/model/model.cc`: the expression that a
switch is printed with has the value of the chosen bits.
-/

namespace RvCkpt.Meta
set_option autoImplicit false

structure rv_bitrange where
  msb : ℕ
  lsb : ℕ

def rv_bitrange.bits (r : rv_bitrange) : List ℕ := downTo r.msb r.lsb

/-- The loop of `bitmask_to_bitrange`, with the last range in front. -/
def addBit (v : List rv_bitrange) (bit : ℕ) : List rv_bitrange :=
  match v with
  | r :: v => if bit + 1 = r.lsb then ⟨r.msb, bit⟩ :: v else ⟨bit, bit⟩ :: r :: v
  | [] => [⟨bit, bit⟩]

def bitmask_to_bitrange : List ℕ → List rv_bitrange
  | [] => []
  | bit :: bits => (bits.foldl addBit [⟨bit, bit⟩]).reverse

/-- `((inst >> shift) & mask)` -/
structure Term where
  shift : ℕ
  mask : ℕ

/-- The term of a range; `range_start` is the number of bits from this range on, which lie below
`msb + 1`. -/
def formatRange (total_length range_start : ℕ) (r : rv_bitrange) : Term :=
  let range_end := range_start - (r.msb - r.lsb)
  { shift := r.msb + 1 - range_start
    mask := literal ((downTo total_length 1).map fun i => i ≤ range_start && range_end ≤ i) }

def formatRanges (total_length : ℕ) : ℕ → List rv_bitrange → List Term
  | _, [] => []
  | range_start, r :: rs =>
    formatRange total_length range_start r ::
      formatRanges total_length (range_start - ((r.msb - r.lsb) + 1)) rs

def format_bitmask (bits : List ℕ) : List Term :=
  formatRanges bits.length bits.length (bitmask_to_bitrange bits)

def Term.value (inst : ℕ) (t : Term) : ℕ := (inst >>> t.shift) &&& t.mask

def exprValue (inst : ℕ) : List Term → ℕ
  | [] => 0
  | t :: ts => t.value inst ||| exprValue inst ts

/-! ## Ranges -/

theorem downTo_succ {msb bit : ℕ} (h : bit ≤ msb) :
    downTo msb bit = downTo msb (bit + 1) ++ [bit] := by
  have hlen : msb + 1 - bit = (msb + 1 - (bit + 1)) + 1 := by omega
  have hmap : ∀ n, (List.range (n + 1)).map (bit + ·) =
      bit :: (List.range n).map (bit + 1 + ·) := by
    intro n
    rw [List.range_succ_eq_map, List.map_cons, List.map_map]
    congr 1
    exact List.map_congr_left fun i _ => by simp only [Function.comp_apply]; omega
  rw [downTo, hlen, hmap, List.reverse_cons, downTo]

theorem downTo_self (bit : ℕ) : downTo bit bit = [bit] := by
  rw [downTo_succ (le_refl bit), downTo]
  simp

/-- The bits of the ranges that have been found. -/
theorem addBit_bits {v : List rv_bitrange} (hv : ∀ r ∈ v, r.lsb ≤ r.msb) (bit : ℕ) :
    (∀ r ∈ addBit v bit, r.lsb ≤ r.msb) ∧
      (addBit v bit).reverse.flatMap rv_bitrange.bits =
        v.reverse.flatMap rv_bitrange.bits ++ [bit] := by
  cases v with
  | nil =>
    refine ⟨fun r hr => ?_, ?_⟩
    · rw [addBit, List.mem_singleton] at hr
      rw [hr]
    · simp [addBit, rv_bitrange.bits, downTo_self]
  | cons r v =>
    have hr : r.lsb ≤ r.msb := hv r List.mem_cons_self
    by_cases hadj : bit + 1 = r.lsb
    · simp only [addBit, if_pos hadj]
      refine ⟨fun q hq => ?_, ?_⟩
      · rw [List.mem_cons] at hq
        rcases hq with hq | hq
        · rw [hq]
          simp only
          omega
        · exact hv q (List.mem_cons_of_mem _ hq)
      · have hbits : downTo r.msb bit = downTo r.msb r.lsb ++ [bit] := by
          rw [downTo_succ (by omega : bit ≤ r.msb), hadj]
        simp [rv_bitrange.bits, hbits]
    · simp only [addBit, if_neg hadj]
      refine ⟨fun q hq => ?_, ?_⟩
      · rw [List.mem_cons] at hq
        rcases hq with hq | hq
        · rw [hq]
        · exact hv q hq
      · simp [rv_bitrange.bits, downTo_self]

theorem bitmask_to_bitrange_bits (bits : List ℕ) :
    (∀ r ∈ bitmask_to_bitrange bits, r.lsb ≤ r.msb) ∧
      (bitmask_to_bitrange bits).flatMap rv_bitrange.bits = bits := by
  have hfold : ∀ (bits : List ℕ) (v : List rv_bitrange), (∀ r ∈ v, r.lsb ≤ r.msb) →
      (∀ r ∈ bits.foldl addBit v, r.lsb ≤ r.msb) ∧
        (bits.foldl addBit v).reverse.flatMap rv_bitrange.bits =
          v.reverse.flatMap rv_bitrange.bits ++ bits := by
    intro bits
    induction bits with
    | nil => exact fun v hv => ⟨hv, by simp⟩
    | cons bit bits ih =>
      intro v hv
      obtain ⟨hle, hbits⟩ := addBit_bits hv bit
      obtain ⟨hle', hbits'⟩ := ih (addBit v bit) hle
      refine ⟨hle', ?_⟩
      rw [List.foldl_cons, hbits', hbits, List.append_assoc, List.singleton_append]
  cases bits with
  | nil => exact ⟨fun r hr => absurd hr List.not_mem_nil, rfl⟩
  | cons bit bits =>
    obtain ⟨hle, hbits⟩ := hfold bits [⟨bit, bit⟩] (by simp)
    refine ⟨fun r hr => hle r (List.mem_reverse.mp hr), ?_⟩
    rw [bitmask_to_bitrange, hbits]
    simp [rv_bitrange.bits, downTo_self]

/-! ## Values -/

/-- The bits of a number whose digits are those at the positions of a range. -/
theorem testBit_literal_downTo (f : ℕ → Bool) (msb lsb i : ℕ) :
    (literal ((downTo msb lsb).map f)).testBit i =
      (decide (i < msb + 1 - lsb) && f (lsb + i)) := by
  rw [testBit_literal, downTo, ← List.map_reverse, List.reverse_reverse, List.map_map]
  by_cases hi : i < msb + 1 - lsb
  · simp [hi]
  · rw [List.getD_eq_default _ _ (by simpa using hi)]
    simp [hi]

theorem literal_append (xs ys : List Bool) :
    literal (xs ++ ys) = literal xs <<< ys.length ||| literal ys := by
  apply Nat.eq_of_testBit_eq
  intro i
  rw [Nat.testBit_or, Nat.testBit_shiftLeft, testBit_literal, testBit_literal, testBit_literal,
    List.reverse_append]
  by_cases hi : i < ys.length
  · rw [List.getD_append _ _ _ _ (by simpa using hi)]
    simp [Nat.not_le.mpr hi]
  · have hle : ys.length ≤ i := Nat.le_of_not_lt hi
    rw [List.getD_append_right _ _ _ _ (by simpa using hle),
      List.getD_eq_default ys.reverse _ (by simpa using hle)]
    simp [hle]

/-- Descending bits are at most as many as the first allows. -/
theorem length_le_of_desc {bit : ℕ} {bits : List ℕ} (h : (bit :: bits).Pairwise (· > ·)) :
    bits.length ≤ bit := by
  induction bits generalizing bit with
  | nil => exact Nat.zero_le bit
  | cons b bits ih =>
    rw [List.pairwise_cons] at h
    have hlt : b < bit := h.1 b List.mem_cons_self
    have hlen := ih h.2
    rw [List.length_cons]
    omega

theorem formatRange_value (inst : ℕ) {total_length range_start rest : ℕ} {r : rv_bitrange}
    (hle : r.lsb ≤ r.msb) (hstart : range_start = r.bits.length + rest)
    (htotal : range_start ≤ total_length) (hmsb : range_start ≤ r.msb + 1) :
    (formatRange total_length range_start r).value inst =
      literal (r.bits.map inst.testBit) <<< rest := by
  have hlen : r.bits.length = r.msb + 1 - r.lsb := by simp [rv_bitrange.bits, downTo]
  apply Nat.eq_of_testBit_eq
  intro i
  simp only [Term.value, formatRange, Nat.testBit_and, Nat.testBit_shiftRight,
    testBit_literal_downTo, Nat.testBit_shiftLeft, rv_bitrange.bits]
  by_cases hi : rest ≤ i ∧ i < range_start
  · have hbit : r.msb + 1 - range_start + i = r.lsb + (i - rest) := by omega
    have hmask : (1 + i ≤ range_start) ∧ range_start - (r.msb - r.lsb) ≤ 1 + i := by omega
    have hdigit : i < total_length := by omega
    have hrange : i - rest < r.msb + 1 - r.lsb := by omega
    simp [hbit, hmask.1, hmask.2, hdigit, hi.1, hrange]
  · have hmask : ¬ (1 + i ≤ range_start ∧ range_start - (r.msb - r.lsb) ≤ 1 + i) := by omega
    have hrange : ¬ (rest ≤ i ∧ i - rest < r.msb + 1 - r.lsb) := by omega
    have hleft : (decide (1 + i ≤ range_start) &&
        decide (range_start - (r.msb - r.lsb) ≤ 1 + i)) = false := by simpa using hmask
    have hright : (decide (i ≥ rest) && (decide (i - rest < r.msb + 1 - r.lsb) &&
        inst.testBit (r.lsb + (i - rest)))) = false := by
      simp only [Bool.and_eq_false_iff, decide_eq_false_iff_not]
      omega
    rw [hleft, hright, Bool.and_false, Bool.and_false]

theorem formatRanges_value (inst total_length : ℕ) (rs : List rv_bitrange)
    (hle : ∀ r ∈ rs, r.lsb ≤ r.msb) (hdesc : (rs.flatMap rv_bitrange.bits).Pairwise (· > ·))
    (htotal : (rs.flatMap rv_bitrange.bits).length ≤ total_length) :
    exprValue inst (formatRanges total_length (rs.flatMap rv_bitrange.bits).length rs) =
      literal ((rs.flatMap rv_bitrange.bits).map inst.testBit) := by
  induction rs with
  | nil => rfl
  | cons r rs ih =>
    have hr : r.lsb ≤ r.msb := hle r List.mem_cons_self
    have hlen : r.bits.length = r.msb - r.lsb + 1 := by
      simp [rv_bitrange.bits, downTo]
      omega
    rw [List.flatMap_cons] at hdesc htotal ⊢
    rw [List.length_append] at htotal
    have hhead : ∃ bits, r.bits ++ rs.flatMap rv_bitrange.bits = r.msb :: bits := by
      obtain ⟨n, hn⟩ : ∃ n, r.msb = r.lsb + n := Nat.exists_eq_add_of_le hr
      have hrange : r.msb + 1 - r.lsb = n + 1 := by omega
      rw [rv_bitrange.bits, downTo, hrange, List.range_succ, List.map_append, List.reverse_append]
      exact ⟨_, by rw [hn]; rfl⟩
    have hmsb : r.bits.length + (rs.flatMap rv_bitrange.bits).length ≤ r.msb + 1 := by
      obtain ⟨bits, hbits⟩ := hhead
      have hcount := congrArg List.length hbits
      rw [hbits] at hdesc
      have hdescLen := length_le_of_desc hdesc
      rw [List.length_append, List.length_cons] at hcount
      omega
    have hrest : r.bits.length + (rs.flatMap rv_bitrange.bits).length - (r.msb - r.lsb + 1) =
        (rs.flatMap rv_bitrange.bits).length := by omega
    rw [List.length_append, formatRanges, exprValue, hrest,
      formatRange_value inst hr rfl htotal hmsb,
      ih (fun q hq => hle q (List.mem_cons_of_mem _ hq)) (List.pairwise_append.mp hdesc).2.1
        (by omega),
      List.map_append, literal_append, List.length_map]

/-- The expression gathers the bits. -/
theorem format_bitmask_value (inst : ℕ) {bits : List ℕ} (hdesc : bits.Pairwise (· > ·)) :
    exprValue inst (format_bitmask bits) = literal (bits.map inst.testBit) := by
  obtain ⟨hle, hbits⟩ := bitmask_to_bitrange_bits bits
  have hvalue := formatRanges_value inst bits.length (bitmask_to_bitrange bits) hle
  rw [hbits] at hvalue
  exact hvalue hdesc le_rfl

end RvCkpt.Meta
