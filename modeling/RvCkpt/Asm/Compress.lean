import RvCkpt.Asm.Decoded

/-! # Compression

`compress_inst` picks a compressed operation by its constraints. The constraints of most
operations say that the operands fit; where they do not, the boundary is made exact here.
-/

namespace RvCkpt.Asm
set_option autoImplicit false
open BitPattern

/-- The compressed instruction is a half word that decompresses to the original one. -/
def Preserved (isa : Isa) (dec cdec : Decode) : Prop :=
  ∃ inst, encode_inst cdec = some inst ∧ inst.toNat < 2 ^ 16 ∧
    (decompress_inst isa (decode_inst isa inst)).op = dec.op ∧
      ∀ f, (decompress_inst isa (decode_inst isa inst)).get f = dec.get f

/-- What the constraints leave out. -/
def Decode.Fits (cdec : Decode) : Prop :=
  match cdec.op with
  | .c_nop => cdec.imm = 0
  | .c_addi16sp => cdec.imm &&& 0b1111 = 0
  | .c_lui => cdec.imm.toInt < 0x20000
  | .c_jal => cdec.imm.toInt < 0x800
  | _ => rv_inst_codec cdec.op = .cs → cdec.rs2 = cdec.rs1

instance (cdec : Decode) : Decidable cdec.Fits := by
  unfold Decode.Fits
  split <;> infer_instance

/-! ## Constraints that imply a range -/

/-- The constraint bounds an immediate of so many bits. -/
def Constraint.bounds (width : ℕ) : Constraint → Bool
  | .imm_5 => 5 ≤ width
  | .imm_7 => 7 ≤ width
  | .imm_8 => 8 ≤ width
  | .imm_9 => 9 ≤ width
  | .imm_10 => 10 ≤ width
  | .imm_12 => 12 ≤ width
  | .imm_18 => 18 ≤ width
  | _ => false

def Constraint.boundsSigned (width : ℕ) : Constraint → Bool
  | .simm_6 => 6 ≤ width
  | .simm_9 => 9 ≤ width
  | .simm_10 => 10 ≤ width
  | .simm_12 => 12 ≤ width
  | c => c.bounds (width - 1)

def Constraint.aligns (low : ℕ) : Constraint → Bool
  | .imm_x2 => low ≤ 1
  | .imm_x4 => low ≤ 2
  | .imm_x8 => low ≤ 3
  | .imm_x16 => low ≤ 4
  | _ => false

theorem Decode.toInt_imm (dec : Decode) : (dec.get .imm).toInt = dec.imm.toInt :=
  BitVec.toInt_signExtend_of_le (by decide)

theorem two_pow_le {m n : ℕ} (h : m ≤ n) : (2 : ℤ) ^ m ≤ 2 ^ n := by
  exact_mod_cast Nat.pow_le_pow_right (by decide) h

theorem toNat_of_nonneg {x : BitVec 64} (h : 0 ≤ x.toInt) : (x.toNat : ℤ) = x.toInt := by
  have hlt := x.isLt
  rw [BitVec.toInt_eq_toNat_cond] at h ⊢
  split at h
  · rename_i hsmall
    rw [if_pos hsmall]
  · omega

theorem Constraint.lt_of_bounds {dec : Decode} {c : Constraint} {width : ℕ}
    (hb : c.bounds width = true) (hc : c.check dec = true) :
    0 ≤ dec.imm.toInt ∧ dec.imm.toInt < 2 ^ width := by
  cases c with
  | imm_5 | imm_7 | imm_8 | imm_9 | imm_10 | imm_12 | imm_18 =>
    simp only [Constraint.check, decide_eq_true_eq] at hc
    have := two_pow_le (of_decide_eq_true hb)
    omega
  | _ => cases hb

theorem Constraint.lt_of_boundsSigned {dec : Decode} {c : Constraint} {width : ℕ}
    (hb : c.boundsSigned width = true) (hc : c.check dec = true) :
    -2 ^ (width - 1) ≤ dec.imm.toInt ∧ dec.imm.toInt < 2 ^ (width - 1) := by
  have hsigned {n : ℕ} (hn : n ≤ width) : (2 : ℤ) ^ (n - 1) ≤ 2 ^ (width - 1) :=
    two_pow_le (Nat.sub_le_sub_right hn 1)
  have hunsigned (h : c.bounds (width - 1) = true) :
      -2 ^ (width - 1) ≤ dec.imm.toInt ∧ dec.imm.toInt < 2 ^ (width - 1) := by
    obtain ⟨h0, hlt⟩ := Constraint.lt_of_bounds h hc
    have hpos : (0 : ℤ) < 2 ^ (width - 1) := by exact_mod_cast Nat.two_pow_pos _
    exact ⟨by omega, hlt⟩
  cases c with
  | simm_6 | simm_9 | simm_10 | simm_12 =>
    simp only [Constraint.check, decide_eq_true_eq] at hc
    have := hsigned (of_decide_eq_true hb)
    omega
  | _ => exact hunsigned hb

theorem dvd_of_and {x : BitVec 32} {low : ℕ} (hlow : low ≤ 32)
    (h : x &&& BitVec.ofNat 32 (2 ^ low - 1) = 0) : 2 ^ low ∣ (x.signExtend 64).toNat := by
  apply Nat.dvd_of_mod_eq_zero
  apply Nat.eq_of_testBit_eq
  intro i
  rw [Nat.zero_testBit, Nat.testBit_mod_two_pow]
  by_cases hi : i < low
  · have hbit := congrArg (BitVec.getLsbD · i) h
    have hi32 : i < 32 := Nat.lt_of_lt_of_le hi hlow
    simp only [BitVec.getLsbD_and, BitVec.getLsbD_ofNat, hi32, decide_true,
      Nat.testBit_two_pow_sub_one, hi, Bool.and_true] at hbit
    have hext : (x.signExtend 64).getLsbD i = x.getLsbD i := by
      rw [BitVec.getLsbD_signExtend, if_pos hi32, decide_eq_true (by omega), Bool.true_and]
    have hzero : (x.signExtend 64).toNat.testBit i = false :=
      hext.trans (hbit.trans BitVec.getLsbD_zero)
    rw [hzero, Bool.and_false]
  · rw [decide_eq_false hi, Bool.false_and]

theorem and_of_dvd {x : BitVec 32} {low : ℕ}
    (h : 2 ^ low ∣ (x.signExtend 64).toNat) : x &&& BitVec.ofNat 32 (2 ^ low - 1) = 0 := by
  apply BitVec.eq_of_getLsbD_eq
  intro i hi32
  rw [BitVec.getLsbD_and, BitVec.getLsbD_ofNat, decide_eq_true hi32, Bool.true_and,
    Nat.testBit_two_pow_sub_one]
  by_cases hi : i < low
  · have hext : (x.signExtend 64).getLsbD i = x.getLsbD i := by
      rw [BitVec.getLsbD_signExtend, if_pos hi32, decide_eq_true (by omega), Bool.true_and]
    rw [← hext, getLsbD_of_dvd h hi, Bool.false_and]
    exact BitVec.getLsbD_zero.symm
  · rw [decide_eq_false hi, Bool.and_false]
    exact BitVec.getLsbD_zero.symm

theorem Constraint.dvd_of_aligns {dec : Decode} {c : Constraint} {low : ℕ}
    (ha : c.aligns low = true) (hc : c.check dec = true) : 2 ^ low ∣ (dec.get .imm).toNat := by
  have hdvd {n : ℕ} (hn : low ≤ n) (h32 : n ≤ 32)
      (h : dec.imm &&& BitVec.ofNat 32 (2 ^ n - 1) = 0) : 2 ^ low ∣ (dec.get .imm).toNat :=
    (Nat.pow_dvd_pow 2 hn).trans (dvd_of_and h32 h)
  cases c with
  | imm_x2 => exact hdvd (of_decide_eq_true ha) (by decide) (of_decide_eq_true hc)
  | imm_x4 => exact hdvd (of_decide_eq_true ha) (by decide) (of_decide_eq_true hc)
  | imm_x8 => exact hdvd (of_decide_eq_true ha) (by decide) (of_decide_eq_true hc)
  | imm_x16 => exact hdvd (of_decide_eq_true ha) (by decide) (of_decide_eq_true hc)
  | _ => cases ha

/-- The constraint gives a field its value. -/
def Constraint.fixes (f : Field) (n : ℕ) : Constraint → Bool
  | .rd_eq_x0 => f = .rd && n = 0
  | .rd_eq_ra => f = .rd && n = 1
  | .rd_eq_sp => f = .rd && n = 2
  | .rs1_eq_x0 => f = .rs1 && n = 0
  | .rs1_eq_sp => f = .rs1 && n = 2
  | .rs2_eq_x0 => f = .rs2 && n = 0
  | .imm_eq_zero => f = .imm && n = 0
  | _ => false

theorem Constraint.get_of_fixes {dec : Decode} {c : Constraint} {f : Field} {n : ℕ}
    (hf : c.fixes f n = true) (hc : c.check dec = true) : dec.get f = BitVec.ofNat 64 n := by
  cases c with
  | rd_eq_x0 | rd_eq_ra | rd_eq_sp | rs1_eq_x0 | rs1_eq_sp | rs2_eq_x0 =>
    simp only [Constraint.fixes, Bool.and_eq_true, decide_eq_true_eq] at hf
    obtain ⟨rfl, rfl⟩ := hf
    exact congrArg (BitVec.zeroExtend 64) (of_decide_eq_true hc)
  | imm_eq_zero =>
    simp only [Constraint.fixes, Bool.and_eq_true, decide_eq_true_eq] at hf
    obtain ⟨rfl, rfl⟩ := hf
    exact congrArg (BitVec.signExtend 64) (of_decide_eq_true hc)
  | _ => cases hf

def Constraint.compresses (f : Field) : Constraint → Bool
  | .rd_b3 => f = .rd
  | .rs1_b3 => f = .rs1
  | .rs2_b3 => f = .rs2
  | _ => false

theorem Constraint.creg_of_compresses {dec : Decode} {c : Constraint} {f : Field}
    (hf : c.compresses f = true) (hc : c.check dec = true) : Range.creg.Holds dec (dec.get f) := by
  have hreg {x : BitVec 8} (hx : 8 ≤ x.toNat ∧ x.toNat ≤ 15) :
      8 ≤ (x.zeroExtend 64).toNat ∧ (x.zeroExtend 64).toNat < 16 := by
    rw [BitVec.toNat_setWidth_of_le (by decide)]
    omega
  cases c with
  | rd_b3 | rs1_b3 | rs2_b3 =>
    obtain rfl := of_decide_eq_true hf
    exact hreg (of_decide_eq_true hc)
  | _ => cases hf

/-- The range of a field follows from the range it has before and from constraints. -/
def Range.follows (base : Range) (cs : List Constraint) (f : Field) (r : Range) : Bool :=
  decide (base = r) ||
    match r with
    | .fixed n => cs.any (Constraint.fixes f n)
    | .unsigned width low =>
      decide (f = .imm) && cs.any (Constraint.bounds width) &&
        (decide (low = 0) || cs.any (Constraint.aligns low))
    | .signed width low =>
      decide (f = .imm) && cs.any (Constraint.boundsSigned width) &&
        (decide (low = 0) || cs.any (Constraint.aligns low))
    | .creg => cs.any (Constraint.compresses f)
    | .likeRs1 => decide (f = .rd) && decide (Constraint.rd_eq_rs1 ∈ cs)

theorem exists_check {dec : Decode} {cs : List Constraint} {q : Constraint → Bool}
    (hcs : constraint_check dec cs = true) (hany : cs.any q = true) :
    ∃ c, q c = true ∧ c.check dec = true := by
  obtain ⟨c, hmem, hc⟩ := List.any_eq_true.mp hany
  exact ⟨c, hc, List.all_eq_true.mp hcs c hmem⟩

theorem dvd_of_aligned {dec : Decode} {cs : List Constraint} {low : ℕ}
    (hcs : constraint_check dec cs = true)
    (h : (decide (low = 0) || cs.any (Constraint.aligns low)) = true) :
    2 ^ low ∣ (dec.get .imm).toNat := by
  rcases Bool.or_eq_true_iff.mp h with hzero | hany
  · rw [of_decide_eq_true hzero]
    exact Nat.one_dvd _
  · obtain ⟨c, ha, hc⟩ := exists_check hcs hany
    exact Constraint.dvd_of_aligns ha hc

theorem Range.holds_of_follows {dec : Decode} {base r : Range} {cs : List Constraint} {f : Field}
    (hbase : base.Holds dec (dec.get f)) (hcs : constraint_check dec cs = true)
    (h : base.follows cs f r = true) : r.Holds dec (dec.get f) := by
  rcases Bool.or_eq_true_iff.mp h with heq | hcons
  · exact of_decide_eq_true heq ▸ hbase
  · cases r with
    | fixed n =>
      obtain ⟨c, hf, hc⟩ := exists_check hcs hcons
      exact Constraint.get_of_fixes hf hc
    | unsigned width low =>
      simp only [Bool.and_eq_true, decide_eq_true_eq] at hcons
      obtain ⟨⟨rfl, hany⟩, haligned⟩ := hcons
      obtain ⟨c, hb, hc⟩ := exists_check hcs hany
      obtain ⟨h0, hlt⟩ := Constraint.lt_of_bounds hb hc
      refine ⟨?_, dvd_of_aligned hcs haligned⟩
      rw [← dec.toInt_imm] at h0 hlt
      have hnat : (((dec.get .imm).toNat : ℕ) : ℤ) < ((2 ^ width : ℕ) : ℤ) := by
        rw [toNat_of_nonneg h0]
        exact_mod_cast hlt
      exact_mod_cast hnat
    | signed width low =>
      simp only [Bool.and_eq_true, decide_eq_true_eq] at hcons
      obtain ⟨⟨rfl, hany⟩, haligned⟩ := hcons
      obtain ⟨c, hb, hc⟩ := exists_check hcs hany
      obtain ⟨hlo, hhi⟩ := Constraint.lt_of_boundsSigned hb hc
      rw [← dec.toInt_imm] at hlo hhi
      exact ⟨hlo, hhi, dvd_of_aligned hcs haligned⟩
    | creg =>
      obtain ⟨c, hf, hc⟩ := exists_check hcs hcons
      exact Constraint.creg_of_compresses hf hc
    | likeRs1 =>
      simp only [Bool.and_eq_true, decide_eq_true_eq] at hcons
      obtain ⟨rfl, hmem⟩ := hcons
      have heq := of_decide_eq_true (List.all_eq_true.mp hcs _ hmem)
      exact congrArg (BitVec.zeroExtend 64) heq

/-! ## The table of compressed forms -/

/-- The operations whose constraints do not bound the immediate. -/
def Op.unbounded : List Op := [.c_nop, .c_addi16sp, .c_lui, .c_jal]

/-- What is to be checked of a compressed form. -/
def Op.compressesTo (isa : Isa) (op : Op) (c : Op × List Constraint) : Bool :=
  decide (rv_inst_decomp isa c.1 = op) && decide (op ≠ .illegal) && decide (c.1 ≠ .illegal) &&
    decide (c.1 ∉ Op.undecoded) && decide (c.1.lacks = []) &&
    (Field.all.all fun f =>
      decide (f = .imm) && decide (c.1 ∈ Op.unbounded) ||
        (op.range f).follows c.2 f (c.1.range f)) &&
    decide ((Pattern.bounds 64 (c.1.wordPat c.1.sym)).hi < 2 ^ 16)

theorem comp_compressesTo :
    (Isa.all.all fun isa => Op.all.all fun op =>
      (rv_inst_comp isa op).all (op.compressesTo isa)) = true := by
  decide +kernel

/-- A compressed form of an operation, as the table has it. -/
structure Compressed (isa : Isa) (op : Op) (c : Op × List Constraint) : Prop where
  decomp : rv_inst_decomp isa c.1 = op
  legal : op ≠ .illegal
  supported : Supported isa c.1
  decoded : c.1 ∉ Op.undecoded
  lacks : c.1.lacks = []
  follows : ∀ f, f = .imm ∧ c.1 ∈ Op.unbounded ∨
    (op.range f).follows c.2 f (c.1.range f) = true
  short : (Pattern.bounds 64 (c.1.wordPat c.1.sym)).hi < 2 ^ 16
  constraints : c.2 = c.1.constraints

theorem compressed_of_mem {isa : Isa} {op : Op} {c : Op × List Constraint}
    (hc : c ∈ rv_inst_comp isa op) : Compressed isa op c := by
  have hisa := List.all_eq_true.mp comp_compressesTo isa (by cases isa <;> decide)
  have hop := List.all_eq_true.mp hisa op op.mem_all
  have hform := List.all_eq_true.mp hop c hc
  simp only [Op.compressesTo, Bool.and_eq_true, decide_eq_true_eq] at hform
  obtain ⟨⟨⟨⟨⟨⟨hdecomp, hlegal⟩, hclegal⟩, hdecoded⟩, hlacks⟩, hfields⟩, hshort⟩ := hform
  refine ⟨hdecomp, hlegal, ⟨hclegal, .inr (hdecomp ▸ hlegal)⟩, hdecoded, hlacks, ?_, hshort,
    rv_inst_comp_constraints isa op c hc⟩
  intro f
  have hfield := List.all_eq_true.mp hfields f (by cases f <;> decide)
  simpa only [Bool.or_eq_true, Bool.and_eq_true, decide_eq_true_eq] using hfield

theorem Constraint.check_withOp (dec : Decode) (op : Op) (codec : Codec) (c : Constraint) :
    c.check { dec with op := op, codec := codec } = c.check dec := by
  cases c <;> rfl

theorem Range.holds_withOp {dec : Decode} {op : Op} {codec : Codec} {r : Range} {x : BitVec 64}
    (h : r.Holds dec x) : r.Holds { dec with op := op, codec := codec } x := by
  cases r <;> exact h

theorem compress_inst_eq_some {isa : Isa} {dec cdec : Decode}
    (h : compress_inst isa dec = some cdec) :
    ∃ c ∈ rv_inst_comp isa dec.op, constraint_check dec c.2 = true ∧
      (rv_inst_comp isa dec.op).find? (fun c => constraint_check dec c.2) = some c ∧
        cdec = { dec with op := c.1, codec := rv_inst_codec c.1 } := by
  unfold compress_inst at h
  split at h
  · rename_i c hfind
    have hcheck := List.find?_some hfind
    exact ⟨c, List.mem_of_find?_eq_some hfind, hcheck, hfind, (Option.some.inj h).symm⟩
  · cases h

theorem decompress_inst_get (isa : Isa) (dec : Decode) (f : Field) :
    (decompress_inst isa dec).get f = dec.get f := by
  unfold decompress_inst
  simp only
  split
  · exact Decode.get_withOp _ _ _ f
  · rfl

section
variable {isa : Isa} {dec : Decode} {c : Op × List Constraint}

/-- The compressed instruction. -/
abbrev Decode.compressed (dec : Decode) (op : Op) : Decode :=
  { dec with op := op, codec := rv_inst_codec op }

theorem Compressed.range (h : Compressed isa dec.op c) (hrange : dec.InRange)
    (hcheck : constraint_check dec c.2 = true) {f : Field}
    (hf : f ≠ .imm ∨ c.1 ∉ Op.unbounded) :
    (c.1.range f).Holds (dec.compressed c.1) ((dec.compressed c.1).get f) := by
  rw [Decode.get_withOp]
  apply Range.holds_withOp
  rcases h.follows f with ⟨himm, hop⟩ | hfollows
  · rcases hf with hne | hnot
    · exact absurd himm hne
    · exact absurd hop hnot
  · exact Range.holds_of_follows (hrange f) hcheck hfollows

/-- The boundary of the operations whose constraints leave it out. -/
theorem Compressed.imm_range (h : Compressed isa dec.op c) (hrange : dec.InRange)
    (hcheck : constraint_check dec c.2 = true) (hfits : (dec.compressed c.1).Fits)
    (hop : c.1 ∈ Op.unbounded) : (c.1.range .imm).Holds dec (dec.get .imm) := by
  rw [h.constraints] at hcheck
  simp only [Op.unbounded, List.mem_cons, List.not_mem_nil, or_false] at hop
  rcases hop with hop | hop | hop | hop
  · have hzero : dec.imm = 0 := by
      simpa only [Decode.Fits, Decode.compressed, hop] using hfits
    rw [hop]
    exact congrArg (BitVec.signExtend 64) hzero
  · have halign : dec.imm &&& 0b1111 = 0 := by
      simpa only [Decode.Fits, Decode.compressed, hop] using hfits
    rw [hop] at hcheck ⊢
    simp only [Op.constraints, constraint_check, rvcc_c_addi16sp, List.all_cons, List.all_nil,
      Constraint.check, Bool.and_eq_true, decide_eq_true_eq] at hcheck
    obtain ⟨⟨hlo, hhi⟩, -⟩ := hcheck
    rw [← dec.toInt_imm] at hlo hhi
    exact ⟨hlo, hhi, dvd_of_and (show 4 ≤ 32 by decide) halign⟩
  · have hlt : dec.imm.toInt < 0x20000 := by
      simpa only [Decode.Fits, Decode.compressed, hop] using hfits
    have hbase : dec.op = .lui := by
      have hdecomp := h.decomp
      rw [hop] at hdecomp
      cases isa with
      | rv32 => exact hdecomp.symm
      | rv64 => exact hdecomp.symm
      | rv128 => exact absurd hdecomp.symm h.legal
    rw [hop] at hcheck ⊢
    simp only [Op.constraints, constraint_check, rvcc_c_lui, List.all_cons, List.all_nil,
      Constraint.check, Bool.and_eq_true, decide_eq_true_eq] at hcheck
    obtain ⟨⟨hlo, -⟩, -⟩ := hcheck
    have himm := hrange .imm
    rw [hbase] at himm
    rw [← dec.toInt_imm] at hlo hlt
    refine ⟨?_, hlt, himm.2.2⟩
    exact le_trans (by decide) hlo
  · have hlt : dec.imm.toInt < 0x800 := by
      simpa only [Decode.Fits, Decode.compressed, hop] using hfits
    rw [hop] at hcheck ⊢
    simp only [Op.constraints, constraint_check, rvcc_c_jal, List.all_cons, List.all_nil,
      Constraint.check, Bool.and_eq_true, decide_eq_true_eq] at hcheck
    obtain ⟨⟨hlo, -⟩, halign, -⟩ := hcheck
    rw [← dec.toInt_imm] at hlo hlt
    refine ⟨le_trans (by decide) hlo, hlt, dvd_of_and (show 1 ≤ 32 by decide) halign⟩

theorem Compressed.inRange (h : Compressed isa dec.op c) (hrange : dec.InRange)
    (hcheck : constraint_check dec c.2 = true) (hfits : (dec.compressed c.1).Fits) :
    (dec.compressed c.1).InRange := by
  intro f
  by_cases hf : f ≠ .imm ∨ c.1 ∉ Op.unbounded
  · exact h.range hrange hcheck hf
  · obtain ⟨himm, hop⟩ := not_or.mp hf
    obtain rfl := not_not.mp himm
    exact Range.holds_withOp (h.imm_range hrange hcheck hfits (not_not.mp hop))

/-- `c_li`, which is tried before `c_mv`, takes the moves from x0. -/
theorem li_of_mv (hmv : constraint_check dec rvcc_c_mv = true) (hzero : dec.rs1 = 0) :
    constraint_check dec rvcc_c_li = true := by
  simp only [constraint_check, rvcc_c_mv, List.all_cons, List.all_nil, Constraint.check,
    Bool.and_eq_true, decide_eq_true_eq] at hmv
  obtain ⟨himm, hrd, -⟩ := hmv
  simp only [constraint_check, rvcc_c_li, List.all_cons, List.all_nil, Constraint.check,
    Bool.and_eq_true, decide_eq_true_eq]
  refine ⟨?_, hrd, hzero, trivial⟩
  rw [himm]
  decide

theorem Compressed.rs1_of_mv (h : Compressed isa dec.op c)
    (hfind : (rv_inst_comp isa dec.op).find? (fun c => constraint_check dec c.2) = some c)
    (hmv : c.1 = .c_mv) : dec.rs1 ≠ 0 := by
  intro hzero
  have hcheck := List.find?_some hfind
  have hcons : c.2 = rvcc_c_mv := by
    rw [h.constraints, hmv]
    rfl
  simp only [hcons] at hcheck
  have hli := li_of_mv hcheck hzero
  have hop : rv_inst_comp isa dec.op = rv_inst_comp_rv64 .addi := by
    have hdecomp := h.decomp
    rw [hmv] at hdecomp
    cases isa with
    | rv32 => rw [← hdecomp]; rfl
    | rv64 => rw [← hdecomp]; rfl
    | rv128 => exact absurd hdecomp.symm h.legal
  rw [hop, rv_inst_comp_rv64] at hfind
  have hne {op : Op} {cs : List Constraint} (hop : op ≠ .c_mv) : some (op, cs) ≠ some c := by
    intro heq
    obtain rfl := Option.some.inj heq
    exact hop hmv
  simp only [List.find?_cons, hli] at hfind
  split at hfind
  · exact hne (by decide) hfind
  · split at hfind
    · exact hne (by decide) hfind
    · split at hfind
      · exact hne (by decide) hfind
      · exact hne (by decide) hfind

theorem Compressed.cs_of_fits (hfits : (dec.compressed c.1).Fits)
    (hcs : rv_inst_codec c.1 = .cs) : dec.rs2 = dec.rs1 := by
  unfold Decode.Fits at hfits
  split at hfits
  · rename_i hop
    rw [show c.1 = .c_nop from hop] at hcs
    cases hcs
  · rename_i hop
    rw [show c.1 = .c_addi16sp from hop] at hcs
    cases hcs
  · rename_i hop
    rw [show c.1 = .c_lui from hop] at hcs
    cases hcs
  · rename_i hop
    rw [show c.1 = .c_jal from hop] at hcs
    cases hcs
  · exact hfits hcs

theorem Compressed.check (h : Compressed isa dec.op c) (hcheck : constraint_check dec c.2 = true) :
    constraint_check (dec.compressed c.1) c.1.constraints = true := by
  have hcongr : Constraint.check (dec.compressed c.1) = Constraint.check dec :=
    funext (Constraint.check_withOp dec _ _)
  rw [← h.constraints, constraint_check, hcongr]
  exact hcheck

/-- A compressed instruction that decodes again is decompressed to the original one. -/
theorem Compressed.preserved (h : Compressed isa dec.op c) (hrange : dec.InRange)
    (hcheck : constraint_check dec c.2 = true) (hmv : c.1 = .c_mv → dec.rs1 ≠ 0)
    (hfits : (dec.compressed c.1).Fits) : Preserved isa dec (dec.compressed c.1) := by
  have hin := h.inRange hrange hcheck hfits
  have hccheck := h.check hcheck
  have hdecodable : (dec.compressed c.1).Decodable :=
    ⟨h.decoded, Compressed.cs_of_fits hfits, hmv⟩
  obtain ⟨inst, henc, hop, hfields⟩ := roundTrip_of_decodable h.supported hin hccheck hdecodable
  refine ⟨inst, henc, ?_, ?_, ?_⟩
  · have hword := c.1.models_word (Op.models_sym hin)
    rw [encode_inst_word henc]
    exact hword.bounds.lt_two_pow h.short
  · have hdecomp : rv_inst_decomp isa (decode_inst isa inst).op = dec.op := by
      rw [hop]
      exact h.decomp
    rw [decompress_inst, hdecomp]
    simp only [ne_eq, h.legal, not_false_eq_true, if_true]
  · intro f
    rw [decompress_inst_get, hfields f (by rw [h.lacks]; exact List.not_mem_nil),
      Decode.get_withOp]

/-! ## The boundary -/

/-- The operands with the immediate not known. -/
def Op.anyImm (op : Op) : Sym := op.sym.update .imm anyValue

def Op.anyImmVariants (op : Op) : List Sym :=
  match op.split with
  | some (f, bits) => bits.map fun i g => Pattern.assume (f, i) (op.anyImm g)
  | none => [op.anyImm]

theorem unbounded_decoded :
    (Op.unbounded.all fun op =>
      decide (op ≠ .c_mv) && op.anyImmVariants.all fun s => op.decoded s) = true := by
  decide

theorem cs_decoded :
    (Op.all.all fun op => !decide (rv_inst_codec op = .cs) ||
      decide (op ∉ Op.unbounded) && op.decoded op.anyRs2) = true := by
  decide +kernel

theorem Compressed.exists_anyImm (h : Compressed isa dec.op c) (hrange : dec.InRange)
    (hcheck : constraint_check dec c.2 = true) (hmv : c.1 ≠ .c_mv) :
    ∃ s ∈ c.1.anyImmVariants, s.Models (dec.compressed c.1).bit (dec.compressed c.1) := by
  have hfields (f : Field) (hf : f ≠ .imm) := h.range hrange hcheck (.inl hf)
  have hany : c.1.anyImm.Models (dec.compressed c.1).bit (dec.compressed c.1) := by
    intro f
    unfold Op.anyImm Sym.update
    by_cases hf : f = .imm
    · rw [if_pos hf]
      exact models_anyValue _
    · rw [if_neg hf]
      exact Op.models_sym_field (hfields .rs1 (by decide)) (hfields f hf)
  unfold Op.anyImmVariants
  cases hsplit : c.1.split with
  | none => exact ⟨c.1.anyImm, List.mem_singleton_self _, hany⟩
  | some fb =>
    obtain ⟨f, bits⟩ := fb
    obtain ⟨i, hi, hbit⟩ := Op.exists_bit_of_split hfields (h.check hcheck)
      (fun hop => absurd hop hmv) hsplit
    exact ⟨_, List.mem_map_of_mem hi, fun g => (hany g).assume hbit⟩

/-- The immediate that the decoder gives back is in the range of the compressed operation. -/
theorem Compressed.imm_of_preserved (h : Compressed isa dec.op c) (hrange : dec.InRange)
    (hcheck : constraint_check dec c.2 = true) (hop : c.1 ∈ Op.unbounded)
    (hpres : Preserved isa dec (dec.compressed c.1)) :
    ∃ a : Decode, (c.1.range .imm).Holds a (dec.get .imm) := by
  obtain ⟨inst, henc, -, -, hfields⟩ := hpres
  have htable := List.all_eq_true.mp unbounded_decoded c.1 hop
  obtain ⟨hmv, hvariants⟩ := Bool.and_eq_true_iff.mp htable
  obtain ⟨s, hmem, hs⟩ := h.exists_anyImm hrange hcheck (of_decide_eq_true hmv)
  have hdec : (decode_inst isa inst).op = c.1 := by
    rw [encode_inst_word henc]
    exact op_of_decoded hs h.supported (List.all_eq_true.mp hvariants s hmem)
  refine ⟨decode_inst isa inst, ?_⟩
  have hin := decode_inst_inRange isa inst (by rw [hdec, h.lacks]) .imm
  rwa [hdec, ← decompress_inst_get isa, hfields .imm] at hin

theorem Compressed.cs_of_preserved (h : Compressed isa dec.op c) (hrange : dec.InRange)
    (hcheck : constraint_check dec c.2 = true) (hcs : rv_inst_codec c.1 = .cs)
    (hpres : Preserved isa dec (dec.compressed c.1)) : dec.rs2 = dec.rs1 := by
  obtain ⟨inst, henc, -, -, hfields⟩ := hpres
  have htable := List.all_eq_true.mp cs_decoded c.1 c.1.mem_all
  rw [decide_eq_true hcs, Bool.not_true, Bool.false_or] at htable
  obtain ⟨hnot, hdecoded⟩ := Bool.and_eq_true_iff.mp htable
  have hin : (dec.compressed c.1).InRange :=
    fun f => h.range hrange hcheck (.inr (of_decide_eq_true hnot))
  have hdec : (decode_inst isa inst).op = c.1 := by
    rw [encode_inst_word henc]
    exact op_of_decoded (Op.models_anyRs2 hin) h.supported hdecoded
  have hround : RoundTrip isa (dec.compressed c.1) := by
    refine ⟨inst, henc, hdec, fun f _ => ?_⟩
    have hget := hfields f
    rw [decompress_inst_get] at hget
    exact hget.trans (Decode.get_withOp dec c.1 _ f).symm
  have hrs2 := hround.cs hin hcs
  exact hrs2

theorem Compressed.fits_of_preserved (h : Compressed isa dec.op c) (hrange : dec.InRange)
    (hcheck : constraint_check dec c.2 = true)
    (hpres : Preserved isa dec (dec.compressed c.1)) : (dec.compressed c.1).Fits := by
  have himm (hop : c.1 ∈ Op.unbounded) := h.imm_of_preserved hrange hcheck hop hpres
  unfold Decode.Fits
  split
  · rename_i hop
    have hc : c.1 = .c_nop := hop
    obtain ⟨a, hrange⟩ := himm (by rw [hc]; decide)
    rw [hc] at hrange
    exact signExtend_inj (y := 0) (by decide) hrange
  · rename_i hop
    have hc : c.1 = .c_addi16sp := hop
    obtain ⟨a, hrange⟩ := himm (by rw [hc]; decide)
    rw [hc] at hrange
    exact and_of_dvd (show 2 ^ 4 ∣ _ from hrange.2.2)
  · rename_i hop
    have hc : c.1 = .c_lui := hop
    obtain ⟨a, hrange⟩ := himm (by rw [hc]; decide)
    rw [hc] at hrange
    rw [← dec.toInt_imm]
    exact hrange.2.1
  · rename_i hop
    have hc : c.1 = .c_jal := hop
    obtain ⟨a, hrange⟩ := himm (by rw [hc]; decide)
    rw [hc] at hrange
    rw [← dec.toInt_imm]
    exact hrange.2.1
  · exact fun hcs => h.cs_of_preserved hrange hcheck hcs hpres

end

/-- **When compression preserves the instruction**: RV32 and RV64 (RV128 has no compressed forms
here). -/
theorem compress_exact (isa : Isa) (dec cdec : Decode) (hrange : dec.InRange)
    (h : compress_inst isa dec = some cdec) : Preserved isa dec cdec ↔ cdec.Fits := by
  obtain ⟨c, hmem, hcheck, hfind, rfl⟩ := compress_inst_eq_some h
  have hc := compressed_of_mem hmem
  exact ⟨hc.fits_of_preserved hrange hcheck,
    hc.preserved hrange hcheck (hc.rs1_of_mv hfind)⟩

/-- `addi a0, a0, -1` becomes `c.addi a0, -1`. -/
theorem addi_preserved :
    Preserved .rv64 ⟨-1, 10, 10, 0, 0, .addi, .i, 0, 0, 0, 0, 0⟩
      ⟨-1, 10, 10, 0, 0, .c_addi, .ci, 0, 0, 0, 0, 0⟩ := by
  refine (compress_exact .rv64 _ _ ?_ (by decide)).mpr (by decide)
  intro f
  cases f <;> decide

/-- `sub a0, a0, a1` becomes `c.sub a0, a0`. -/
theorem sub_not_preserved :
    ∃ dec cdec : Decode, (decode_inst .rv64 0x40b50533 = dec) ∧
      compress_inst .rv64 dec = some cdec ∧ ¬ Preserved .rv64 dec cdec := by
  refine ⟨⟨0, 10, 10, 11, 0, .sub, .r, 0, 0, 0, 0, 0⟩, ⟨0, 10, 10, 11, 0, .c_sub, .cs, 0, 0, 0, 0, 0⟩,
    by decide, by decide, ?_⟩
  rintro ⟨inst, henc, -, -, hfields⟩
  obtain rfl : 0x8d09 = inst := by
    have hword := Option.some.inj henc
    exact hword
  exact absurd (hfields .rs2) (by decide)

end RvCkpt.Asm
