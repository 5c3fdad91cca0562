import Mathlib.Data.Nat.Bitwise
import Mathlib.Data.List.Dedup
import Mathlib.Data.List.Sort
import Mathlib.Data.List.Induction
import Mathlib.Data.Nat.Notation

/-! # The decode tree

Opcodes with their masks (`src/src/model/model.h`), and `generate_map`, `generate_codec` and
`generate_codec_node` of `src/src/app/rv-meta.cc`, which build the tree that the opcode switch is
printed from.
-/

namespace RvCkpt.Meta
set_option autoImplicit false

/-! ## Opcodes -/

def kMaxInstructionWidth : ℕ := 32

/-- `rv_opcode_mask`: the bits from `msb` down to `lsb` have the value `val`. -/
structure rv_opcode_mask where
  msb : ℕ
  lsb : ℕ
  val : ℕ

structure rv_extension where
  isa_width : ℕ
  /-- The prefix and the alphabetic code. -/
  shortname : String
  deriving DecidableEq

structure rv_opcode where
  name : String
  masks : List rv_opcode_mask
  extensions : List rv_extension
  fits : ∀ m ∈ masks, m.msb < kMaxInstructionWidth
  /-- `parse_opcode` stops at an opcode without extensions. -/
  hasExtension : extensions ≠ []

abbrev rv_opcode_list := List rv_opcode

def downTo (msb lsb : ℕ) : List ℕ := ((List.range (msb + 1 - lsb)).map (lsb + ·)).reverse

theorem mem_downTo {msb lsb bit : ℕ} : bit ∈ downTo msb lsb ↔ lsb ≤ bit ∧ bit ≤ msb := by
  simp only [downTo, List.mem_reverse, List.mem_map, List.mem_range]
  constructor
  · intro h
    obtain ⟨i, hi, hbit⟩ := h
    omega
  · intro h
    exact ⟨bit - lsb, by omega, by omega⟩

namespace rv_opcode

def is_pseudo (o : rv_opcode) : Bool := o.name.toList.head? = some '@'

/-- One bit of a mask: the mask and the match with it. -/
def mapBit (m : rv_opcode_mask) (mm : BitVec 64 × BitVec 64) (bit : ℕ) : BitVec 64 × BitVec 64 :=
  (mm.1 ||| 1#64 <<< bit, mm.2 ||| ((BitVec.ofNat 64 m.val >>> (bit - m.lsb)) &&& 1#64) <<< bit)

/-- `generate_map` -/
def generate_map (o : rv_opcode) : BitVec 64 × BitVec 64 :=
  o.masks.foldl (fun mm m => (downTo m.msb m.lsb).foldl (mapBit m) mm) (0, 0)

def mask (o : rv_opcode) : BitVec 64 := o.generate_map.1

def value (o : rv_opcode) : BitVec 64 := o.generate_map.2

/-- The match has bits of the mask only, and the mask bits of an instruction only. -/
def Masked (mm : BitVec 64 × BitVec 64) : Prop :=
  ∀ i, (mm.2.getLsbD i = true → mm.1.getLsbD i = true) ∧
    (mm.1.getLsbD i = true → i < kMaxInstructionWidth)

theorem Masked.mapBit {mm : BitVec 64 × BitVec 64} (h : Masked mm) (m : rv_opcode_mask) {bit : ℕ}
    (hbit : bit < kMaxInstructionWidth) : Masked (mapBit m mm bit) := by
  have hone : ∀ i, (1#64).getLsbD i = decide (i = 0) := by
    intro i
    rw [BitVec.getLsbD_one]
    simp
  intro i
  simp only [rv_opcode.mapBit, BitVec.getLsbD_or, BitVec.getLsbD_shiftLeft, BitVec.getLsbD_and,
    hone, Bool.or_eq_true, Bool.and_eq_true, decide_eq_true_eq]
  constructor
  · intro hi
    rcases hi with hold | hnew
    · exact .inl ((h i).1 hold)
    · exact .inr ⟨hnew.1, hnew.2.2⟩
  · intro hi
    rcases hi with hold | hnew
    · exact (h i).2 hold
    · simp only [Bool.not_eq_true', decide_eq_false_iff_not] at hnew
      omega

theorem masked_generate_map (o : rv_opcode) : Masked o.generate_map := by
  have hbits : ∀ (m : rv_opcode_mask) (bits : List ℕ) (mm : BitVec 64 × BitVec 64),
      (∀ bit ∈ bits, bit < kMaxInstructionWidth) → Masked mm →
        Masked (bits.foldl (mapBit m) mm) := by
    intro m bits
    induction bits with
    | nil => exact fun mm _ h => h
    | cons bit bits ih =>
      intro mm hlt h
      exact ih _ (fun b hb => hlt b (List.mem_cons_of_mem _ hb))
        (h.mapBit m (hlt bit List.mem_cons_self))
  have hmasks : ∀ (masks : List rv_opcode_mask) (mm : BitVec 64 × BitVec 64),
      (∀ m ∈ masks, m.msb < kMaxInstructionWidth) → Masked mm →
        Masked (masks.foldl (fun mm m => (downTo m.msb m.lsb).foldl (mapBit m) mm) mm) := by
    intro masks
    induction masks with
    | nil => exact fun mm _ h => h
    | cons m masks ih =>
      intro mm hlt h
      refine ih _ (fun b hb => hlt b (List.mem_cons_of_mem _ hb)) (hbits m _ mm ?_ h)
      intro bit hbit
      exact (mem_downTo.mp hbit).2.trans_lt (hlt m List.mem_cons_self)
  refine hmasks o.masks (0, 0) o.fits fun i => ?_
  simp

theorem mask_of_value (o : rv_opcode) {i : ℕ} (h : o.value.getLsbD i = true) :
    o.mask.getLsbD i = true :=
  (o.masked_generate_map i).1 h

theorem lt_of_mask (o : rv_opcode) {i : ℕ} (h : o.mask.getLsbD i = true) :
    i < kMaxInstructionWidth :=
  (o.masked_generate_map i).2 h

/-- The word has the bits of the operation. -/
def Satisfies (inst : BitVec 64) (o : rv_opcode) : Prop := inst &&& o.mask = o.value

instance satisfiesDecidable (inst : BitVec 64) (o : rv_opcode) : Decidable (Satisfies inst o) :=
  inferInstanceAs (Decidable (_ = _))

theorem satisfies_iff {inst : BitVec 64} {o : rv_opcode} :
    Satisfies inst o ↔
      ∀ i, o.mask.getLsbD i = true → inst.getLsbD i = o.value.getLsbD i := by
  constructor
  · intro h i hi
    have hbit := congrArg (BitVec.getLsbD · i) h
    simpa only [BitVec.getLsbD_and, hi, Bool.and_true] using hbit
  · intro h
    apply BitVec.eq_of_getLsbD_eq
    intro i _
    rw [BitVec.getLsbD_and]
    cases hi : o.mask.getLsbD i with
    | true => rw [h i hi, Bool.and_true]
    | false =>
      rw [Bool.and_false]
      cases hv : o.value.getLsbD i with
      | false => rfl
      | true => exact absurd (o.mask_of_value hv) (by rw [hi]; exact Bool.false_ne_true)

/-- `a` fixes the bits that `b` fixes, in the same way, and more. -/
def Specialises (a b : rv_opcode) : Prop :=
  a.mask &&& b.mask = b.mask ∧ a.mask ≠ b.mask ∧ a.value &&& b.mask = b.value

theorem Specialises.mask {a b : rv_opcode} (h : a.Specialises b) {i : ℕ}
    (hi : b.mask.getLsbD i = true) : a.mask.getLsbD i = true := by
  have hbit := congrArg (BitVec.getLsbD · i) h.1
  simpa only [BitVec.getLsbD_and, hi, Bool.and_true] using hbit

end rv_opcode

/-! ## Values of bits -/

/-- The number that is made of the digits by `val = (val << 1) | digit`. -/
def literal (digits : List Bool) : ℕ := digits.foldl (fun val d => Nat.bit d val) 0

theorem literal_concat (digits : List Bool) (d : Bool) :
    literal (digits ++ [d]) = Nat.bit d (literal digits) := by
  rw [literal, List.foldl_append]
  rfl

theorem testBit_literal (digits : List Bool) (i : ℕ) :
    (literal digits).testBit i = digits.reverse.getD i false := by
  induction digits using List.reverseRecOn generalizing i with
  | nil => simp [literal]
  | append_singleton digits d ih =>
    rw [literal_concat, List.reverse_append]
    cases i with
    | zero => simp
    | succ i => simpa [Nat.testBit_bit_succ] using ih i

theorem literal_lt (digits : List Bool) : literal digits < 2 ^ digits.length := by
  apply Nat.lt_pow_two_of_testBit
  intro i hi
  rw [testBit_literal]
  exact List.getD_eq_default _ _ (by simpa using hi)

/-- Numbers of the same digits have the same bits. -/
theorem literal_map_inj {f g : ℕ → Bool} {bits : List ℕ} :
    literal (bits.map f) = literal (bits.map g) ↔ ∀ bit ∈ bits, f bit = g bit := by
  induction bits using List.reverseRecOn with
  | nil => simp
  | append_singleton bits b ih =>
    simp only [List.map_append, List.map_cons, List.map_nil, literal_concat, List.mem_append,
      List.mem_singleton]
    constructor
    · intro h bit hbit
      have hdigit : f b = g b := by simpa using congrArg (Nat.testBit · 0) h
      have hrest : literal (bits.map f) = literal (bits.map g) :=
        Nat.eq_of_testBit_eq fun i => by
          simpa [Nat.testBit_bit_succ] using congrArg (Nat.testBit · (i + 1)) h
      rcases hbit with hbit | hbit
      · exact ih.mp hrest bit hbit
      · rw [hbit]
        exact hdigit
    · intro h
      rw [ih.mpr fun bit hbit => h bit (.inl hbit), h b (.inr rfl)]

/-! ## The tree -/

/-- The bits of an instruction, from the highest. -/
def columns : List ℕ := downTo (kMaxInstructionWidth - 1) 0

/-- `DEFAULT`, the largest `ssize_t`. -/
def DEFAULT : ℕ := 2 ^ 63 - 1

/-- The rows of a column. What `done` holds of an opcode is the same for all opcodes of a list:
the bits chosen on the way to the node. -/
def coverage (done : List ℕ) (opcode_list : rv_opcode_list) (bit : ℕ) : ℕ :=
  opcode_list.countP fun o => o.mask.getLsbD bit && !done.contains bit

@[irreducible] def max_rows (done : List ℕ) (opcode_list : rv_opcode_list) : ℕ :=
  (columns.map (coverage done opcode_list)).foldl max 0

/-- The bits that cover the maximum number of rows, none if there are no bits to match. -/
def chosen (done : List ℕ) (opcode_list : rv_opcode_list) : List ℕ :=
  let max_rows := max_rows done opcode_list
  if max_rows = 0 then []
  else columns.filter fun bit => coverage done opcode_list bit = max_rows

/-- The value of the chosen bits in an opcode, `DEFAULT` for one that does not fix them all. -/
def rv_opcode.val (o : rv_opcode) (bits : List ℕ) : ℕ :=
  if bits.all o.mask.getLsbD then literal (bits.map o.value.getLsbD) else DEFAULT

/-- `rv_codec_node`, with its maps as functions. -/
inductive rv_codec_node where
  | empty
  | mk (bits : List ℕ) (vals : List ℕ) (val_opcodes : ℕ → rv_opcode_list)
    (val_decodes : ℕ → rv_codec_node)

namespace rv_codec_node

def bits : rv_codec_node → List ℕ
  | empty => []
  | mk bits _ _ _ => bits

end rv_codec_node

/-- The bits that are not done. -/
def undone (done : List ℕ) : List ℕ := columns.filter fun bit => !done.contains bit

theorem mem_columns {bit : ℕ} : bit ∈ columns ↔ bit < kMaxInstructionWidth := by
  rw [columns, mem_downTo, kMaxInstructionWidth]
  omega

/-- The running maximum is that of an element, or what it started from. -/
theorem foldl_max_mem (xs : List ℕ) (n : ℕ) : xs.foldl max n = n ∨ xs.foldl max n ∈ xs := by
  induction xs generalizing n with
  | nil => exact .inl rfl
  | cons x xs ih =>
    rw [List.foldl_cons, List.mem_cons]
    rcases ih (max n x) with h | h
    · rcases Nat.le_total n x with hle | hle
      · exact .inr (.inl (h.trans (Nat.max_eq_right hle)))
      · exact .inl (h.trans (Nat.max_eq_left hle))
    · exact .inr (.inr h)

theorem le_foldl_max (xs : List ℕ) (n : ℕ) {x : ℕ} (h : x = n ∨ x ∈ xs) : x ≤ xs.foldl max n := by
  induction xs generalizing n x with
  | nil => exact (h.resolve_right List.not_mem_nil).le
  | cons y xs ih =>
    rw [List.foldl_cons]
    rw [List.mem_cons] at h
    rcases h with h | h | h
    · exact (h.le.trans (Nat.le_max_left n y)).trans (ih (max n y) (.inl rfl))
    · exact (h.le.trans (Nat.le_max_right n y)).trans (ih (max n y) (.inl rfl))
    · exact ih (max n y) (.inr h)

section
variable {done : List ℕ} {opcode_list : rv_opcode_list}

/-- A chosen bit is a bit that some opcode fixes and that is not done. -/
theorem mem_chosen {bit : ℕ} (h : bit ∈ chosen done opcode_list) :
    bit < kMaxInstructionWidth ∧ bit ∉ done := by
  simp only [chosen] at h
  split at h
  · exact absurd h List.not_mem_nil
  · rename_i hmax
    simp only [List.mem_filter, decide_eq_true_eq] at h
    refine ⟨mem_columns.mp h.1, fun hdone => hmax ?_⟩
    rw [← h.2, coverage, List.countP_eq_zero]
    intro o _
    simp [hdone]

theorem coverage_le_max_rows {bit : ℕ} (h : bit ∈ columns) :
    coverage done opcode_list bit ≤ max_rows done opcode_list := by
  unfold max_rows
  exact le_foldl_max _ 0 (.inr (List.mem_map_of_mem h))

theorem exists_max_rows (h : max_rows done opcode_list ≠ 0) :
    ∃ bit ∈ columns, coverage done opcode_list bit = max_rows done opcode_list := by
  unfold max_rows at h ⊢
  exact List.mem_map.mp ((foldl_max_mem _ 0).resolve_left h)

/-- Where no bits are chosen, all bits of the opcodes are done. -/
theorem mem_done_of_chosen_nil (h : chosen done opcode_list = []) {o : rv_opcode}
    (ho : o ∈ opcode_list) {bit : ℕ} (hbit : o.mask.getLsbD bit = true) : bit ∈ done := by
  have hmax : max_rows done opcode_list = 0 := by
    by_contra hne
    obtain ⟨b, hb, hcov⟩ := exists_max_rows hne
    simp only [chosen, if_neg hne, List.filter_eq_nil_iff, decide_eq_true_eq] at h
    exact h b hb hcov
  have hzero : coverage done opcode_list bit = 0 :=
    Nat.le_zero.mp (hmax ▸ coverage_le_max_rows (mem_columns.mpr (o.lt_of_mask hbit)))
  rw [coverage, List.countP_eq_zero] at hzero
  have hnot := hzero o ho
  simpa [hbit] using hnot

theorem undone_lt (h : chosen done opcode_list ≠ []) :
    (undone (done ++ chosen done opcode_list)).length < (undone done).length := by
  obtain ⟨bit, bits, hbits⟩ := List.exists_cons_of_ne_nil h
  have hbit : bit ∈ chosen done opcode_list := by
    rw [hbits]
    exact List.mem_cons_self
  have hsub : undone (done ++ chosen done opcode_list) =
      (undone done).filter fun b => !(chosen done opcode_list).contains b := by
    simp only [undone, List.filter_filter]
    exact List.filter_congr fun b _ => by simp [Bool.and_comm]
  have hmem : bit ∈ undone done := by
    rw [undone, List.mem_filter]
    exact ⟨mem_columns.mpr (mem_chosen hbit).1, by simpa using (mem_chosen hbit).2⟩
  have hnot : ¬ (!(chosen done opcode_list).contains bit) = true := by simpa using hbit
  rw [hsub]
  exact List.length_filter_lt_length_iff_exists.mpr ⟨bit, hmem, hnot⟩

end

/-- `generate_codec_node` -/
def generate_codec_node (done : List ℕ) (opcode_list : rv_opcode_list) : rv_codec_node :=
  let bits := chosen done opcode_list
  if h : bits = [] then .empty
  else
    let vals := (opcode_list.map (rv_opcode.val · bits)).dedup.mergeSort
    let val_opcodes := fun val => opcode_list.filter fun o => o.val bits = val
    .mk bits vals val_opcodes fun val => generate_codec_node (done ++ bits) (val_opcodes val)
termination_by (undone done).length
decreasing_by exact undone_lt h

/-- `generate_codec` -/
def generate_codec (all_opcodes : rv_opcode_list) : rv_codec_node :=
  generate_codec_node [] (all_opcodes.filter fun o => !o.is_pseudo)

end RvCkpt.Meta
