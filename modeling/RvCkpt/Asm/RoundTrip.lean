import RvCkpt.Asm.Symbolic

/-! # Decoding what was encoded

For which instructions `decode_inst` undoes `encode_inst`: the operands are variables that are
only known to be in their ranges, and the word they give is decoded bit by bit.
-/

namespace RvCkpt.Asm
set_option autoImplicit false
open BitPattern

/-! ## Operands as patterns -/

namespace Range

def pat (f : Field) (rs1 : Pattern Var) : Range → Pattern Var
  | fixed n => Pattern.constant 64 n
  | unsigned width low =>
    (List.range width).map fun i => if i < low then .const false else .var (f, i)
  | signed width low =>
    (List.range 64).map fun i =>
      if i < low then .const false else .var (f, if i < width then i else width - 1)
  | creg => [.var (f, 0), .var (f, 1), .var (f, 2), .const true]
  | likeRs1 => rs1

/-- A signed range is narrower than the registers. -/
def WellFormed : Range → Prop
  | signed width _ => 0 < width ∧ width ≤ 64
  | _ => True

instance (r : Range) : Decidable r.WellFormed :=
  match r with
  | fixed _ => inferInstanceAs (Decidable True)
  | unsigned _ _ => inferInstanceAs (Decidable True)
  | signed width _ => inferInstanceAs (Decidable (0 < width ∧ width ≤ 64))
  | creg => inferInstanceAs (Decidable True)
  | likeRs1 => inferInstanceAs (Decidable True)

end Range

theorem getLsbD_of_dvd {x : BitVec 64} {low i : ℕ} (h : 2 ^ low ∣ x.toNat) (hi : i < low) :
    x.getLsbD i = false := by
  obtain ⟨c, hc⟩ := h
  rw [BitVec.getLsbD, hc, Nat.testBit_two_pow_mul, decide_eq_false (Nat.not_le_of_lt hi),
    Bool.false_and]

theorem getLsbD_of_lt {x : BitVec 64} {width i : ℕ} (h : x.toNat < 2 ^ width) (hi : width ≤ i) :
    x.getLsbD i = false :=
  Nat.testBit_lt_two_pow (Nat.lt_of_lt_of_le h (Nat.pow_le_pow_right (by decide) hi))

/-- The bits of a small number behind its sign are the sign. -/
theorem getLsbD_of_toInt {x : BitVec 64} {width i : ℕ} (hpos : 0 < width) (hle : width ≤ 64)
    (hlo : -2 ^ (width - 1) ≤ x.toInt) (hhi : x.toInt < 2 ^ (width - 1)) (hi : width ≤ i)
    (hi64 : i < 64) : x.getLsbD i = x.getLsbD (width - 1) := by
  have hx : (x.signExtend width).signExtend 64 = x := by
    apply BitVec.eq_of_toInt_eq
    rw [BitVec.toInt_signExtend_of_le hle, BitVec.toInt_signExtend_eq_toInt_bmod_of_le x hle]
    obtain ⟨m, rfl⟩ : ∃ m, width = m + 1 := ⟨width - 1, (Nat.sub_add_cancel hpos).symm⟩
    rw [Nat.add_sub_cancel] at hlo hhi
    apply Int.bmod_eq_of_le
    · push_cast
      omega
    · push_cast
      omega
  have hsign {j : ℕ} (hj : j < 64) (hw : width - 1 ≤ j) :
      ((x.signExtend width).signExtend 64).getLsbD j = (x.signExtend width).msb := by
    rw [BitVec.getLsbD_signExtend, decide_eq_true hj, Bool.true_and]
    split
    · have hjw : j = width - 1 := by omega
      rw [hjw, BitVec.msb_eq_getLsbD_last]
    · rfl
  rw [← hx, hsign hi64 (by omega), hsign (by omega) le_rfl]

theorem get_map_range (n i : ℕ) (g : ℕ → Bit Var) :
    Pattern.get ((List.range n).map g) i = if i < n then g i else .const false := by
  rw [Pattern.get, List.getElem?_map]
  by_cases hi : i < n
  · rw [List.getElem?_range hi, if_pos hi]
    rfl
  · rw [List.getElem?_eq_none (by simpa using Nat.le_of_not_lt hi), if_neg hi]
    rfl

theorem Range.models_pat {dec : Decode} {f : Field} {r : Range} (hwf : r.WellFormed)
    (h : r.Holds dec (dec.get f)) {rs1 : Pattern Var}
    (hrs1 : r = .likeRs1 → Pattern.Models dec.bit rs1 (dec.get .rs1)) :
    Pattern.Models dec.bit (r.pat f rs1) (dec.get f) := by
  cases r with
  | fixed n =>
    have hx : dec.get f = BitVec.ofNat 64 n := h
    rw [hx]
    exact Pattern.models_constant n
  | unsigned width low =>
    obtain ⟨hlt, hdvd⟩ := h
    intro i hi
    rw [pat, get_map_range]
    by_cases hw : i < width
    · rw [if_pos hw]
      by_cases hlow : i < low
      · rw [if_pos hlow]
        exact getLsbD_of_dvd hdvd hlow
      · rw [if_neg hlow]
        rfl
    · rw [if_neg hw]
      exact getLsbD_of_lt hlt (Nat.le_of_not_lt hw)
  | signed width low =>
    obtain ⟨hlo, hhi, hdvd⟩ := h
    obtain ⟨hpos, hle⟩ := hwf
    intro i hi
    rw [pat, get_map_range, if_pos hi]
    by_cases hlow : i < low
    · rw [if_pos hlow]
      exact getLsbD_of_dvd hdvd hlow
    · rw [if_neg hlow]
      by_cases hw : i < width
      · rw [if_pos hw]
        rfl
      · rw [if_neg hw]
        exact getLsbD_of_toInt hpos hle hlo hhi (Nat.le_of_not_lt hw) hi
  | creg =>
    obtain ⟨hlo, hhi⟩ := h
    have hthree : (dec.get f).getLsbD 3 = true := by
      rw [BitVec.getLsbD, Nat.testBit_eq_decide_div_mod_eq]
      exact decide_eq_true (by omega)
    intro i hi
    match i with
    | 0 | 1 | 2 => rfl
    | 3 => exact hthree
    | i + 4 => exact getLsbD_of_lt (show (dec.get f).toNat < 2 ^ 4 from hhi) (by omega)
  | likeRs1 =>
    have hx : dec.get f = dec.get .rs1 := h
    rw [hx]
    exact hrs1 rfl

/-- The fields of an operation with all operands variable. -/
def Op.sym (op : Op) : Sym := fun f => (op.range f).pat f ((op.range .rs1).pat .rs1 [])

theorem Codec.ranges_wellFormed (codec : Codec) : ∀ c ∈ codec.ranges, c.2.WellFormed := by
  cases codec <;> decide

theorem Codec.range_wellFormed (codec : Codec) (f : Field) : (codec.range f).WellFormed := by
  unfold Codec.range
  cases hrange : codec.ranges.lookup f with
  | none => trivial
  | some r =>
    have hmem : (f, r) ∈ codec.ranges := by
      obtain ⟨l₁, l₂, hsplit, -⟩ := List.lookup_eq_some_iff.mp hrange
      rw [hsplit]
      exact List.mem_append_right _ List.mem_cons_self
    exact codec.ranges_wellFormed _ hmem

theorem Op.range_wellFormed (op : Op) (f : Field) : (op.range f).WellFormed := by
  unfold Op.range
  split
  · trivial
  · exact (rv_inst_codec op).range_wellFormed f

theorem Op.range_rs1 (op : Op) : op.range .rs1 ≠ .likeRs1 := by
  cases op <;> decide

theorem Op.models_sym_field {dec : Decode} {f : Field}
    (hrs1 : (dec.op.range .rs1).Holds dec (dec.get .rs1))
    (hf : (dec.op.range f).Holds dec (dec.get f)) :
    Pattern.Models dec.bit (dec.op.sym f) (dec.get f) := by
  refine Range.models_pat (dec.op.range_wellFormed f) hf fun _ => ?_
  exact Range.models_pat (dec.op.range_wellFormed .rs1) hrs1
    fun hlike => absurd hlike dec.op.range_rs1

theorem Op.models_sym {dec : Decode} (h : dec.InRange) : dec.op.sym.Models dec.bit dec :=
  fun f => Op.models_sym_field (h .rs1) (h f)

/-! ## The operations of an instruction set -/

def Switch.names (isa : Isa) (op : Op) : Switch → Bool
  | .isa rv32 rv64 rv128 =>
    match isa with
    | .rv32 => rv32 = op
    | .rv64 => rv64 = op
    | .rv128 => rv128 = op
  | .test _ _ yes no => yes.names isa op || no.names isa op

theorem Switch.names_eval (isa : Isa) (inst : BitVec 64) (sw : Switch) :
    sw.names isa (sw.eval isa inst) = true := by
  induction sw with
  | isa rv32 rv64 rv128 => cases isa <;> exact decide_eq_true rfl
  | test d n yes no ihyes ihno =>
    rw [eval, names]
    split
    · rw [ihyes, Bool.true_or]
    · rw [ihno, Bool.or_true]

theorem Switch.names_resolve {b : Bounds} {ops : Isa → Op} (isa : Isa) (sw : Switch)
    (h : sw.resolve b = some ops) : sw.names isa (ops isa) = true := by
  induction sw with
  | isa rv32 rv64 rv128 =>
    rw [← Option.some.inj h]
    cases isa <;> exact decide_eq_true rfl
  | test d n yes no ihyes ihno =>
    rw [names]
    unfold resolve at h
    split at h
    · rw [ihyes h, Bool.true_or]
    · rw [ihno h, Bool.or_true]
    · cases h

def Switch.all (q : Op → Bool) : Switch → Bool
  | .isa rv32 rv64 rv128 => q rv32 && q rv64 && q rv128
  | .test _ _ yes no => yes.all q && no.all q

theorem Switch.of_names {isa : Isa} {op : Op} {q : Op → Bool} (sw : Switch)
    (hall : sw.all q = true) (h : sw.names isa op = true) : q op = true := by
  induction sw with
  | isa rv32 rv64 rv128 =>
    simp only [Switch.all, Bool.and_eq_true] at hall
    obtain ⟨⟨h32, h64⟩, h128⟩ := hall
    cases isa with
    | rv32 => exact of_decide_eq_true h ▸ h32
    | rv64 => exact of_decide_eq_true h ▸ h64
    | rv128 => exact of_decide_eq_true h ▸ h128
  | test d n yes no ihyes ihno =>
    obtain ⟨hyes, hno⟩ := Bool.and_eq_true_iff.mp hall
    rcases Bool.or_eq_true_iff.mp h with hin | hin
    · exact ihyes hyes hin
    · exact ihno hno hin

/-- The decoder or the table of compressed forms has the operation. -/
def Supported (isa : Isa) (op : Op) : Prop :=
  op ≠ .illegal ∧ (decode_inst_op.names isa op = true ∨ rv_inst_decomp isa op ≠ .illegal)

instance (isa : Isa) (op : Op) : Decidable (Supported isa op) :=
  inferInstanceAs (Decidable (_ ∧ _))

def Op.isPseudo : Op → Bool
  | .nop | .mv | .not | .neg | .negw | .sext_w | .seqz | .snez | .sltz | .sgtz | .fmv_s | .fabs_s
  | .fneg_s | .fmv_d | .fabs_d | .fneg_d | .fmv_q | .fabs_q | .fneg_q | .beqz | .bnez | .blez
  | .bgez | .bltz | .bgtz | .ble | .bleu | .bgt | .bgtu | .j | .ret | .jr | .rdcycle | .rdtime
  | .rdinstret | .rdcycleh | .rdtimeh | .rdinstreth | .frcsr | .frrm | .frflags | .fscsr | .fsrm
  | .fsflags | .fsrmi | .fsflagsi => true
  | _ => false

/-! ## The round trip -/

def RoundTrip (isa : Isa) (dec : Decode) : Prop :=
  ∃ inst, encode_inst dec = some inst ∧ (decode_inst isa inst).op = dec.op ∧
    ∀ f ∉ dec.op.lacks, (decode_inst isa inst).get f = dec.get f

/-- The operations that the decoder leaves out. -/
def Op.undecoded : List Op := [.c_lq, .c_sq, .c_lqsp, .c_sqsp]

/-- The encoder of the `cs` codec drops rs2; `c_mv` from x0 has the bits of `c_jr`. -/
def Decode.Decodable (dec : Decode) : Prop :=
  dec.op ∉ Op.undecoded ∧ (rv_inst_codec dec.op = .cs → dec.rs2 = dec.rs1) ∧
    (dec.op = .c_mv → dec.rs1 ≠ 0)

instance (dec : Decode) : Decidable dec.Decodable := inferInstanceAs (Decidable (_ ∧ _ ∧ _))

/-! ## Computation -/

/-- Bits of which one is set, where the operation depends on it. -/
def Op.split : Op → Option (Field × List ℕ)
  | .c_addi => some (.rs1, [0, 1, 2, 3, 4])
  | .c_lui => some (.rd, [0, 2, 3, 4])
  | .c_mv => some (.rs1, [0, 1, 2, 3, 4])
  | .c_jalr => some (.rs1, [0, 1, 2, 3, 4])
  | .c_add => some (.rs2, [0, 1, 2, 3, 4])
  | _ => none

def Op.base (op : Op) : Sym :=
  if rv_inst_codec op = .cs then op.sym.update .rs2 (op.sym .rs1) else op.sym

def Op.variants (op : Op) : List Sym :=
  match op.split with
  | some (f, bits) => bits.map fun i g => Pattern.assume (f, i) (op.base g)
  | none => [op.base]

def Field.all : List Field := [.imm, .rd, .rs1, .rs2, .rs3, .rm, .aq, .rl, .pred, .succ]

/-- The decoder gives the operands back. -/
def Op.restores (op : Op) (s : Sym) : Bool :=
  (rv_inst_codec op).asserts.all (Assertion.holds s) &&
    Field.all.all fun f =>
      decide (f ∈ op.lacks) ||
        Pattern.agree 64 ((rv_inst_codec op).decodePat (op.wordPat s) f) (s f)

def Isa.all : List Isa := [.rv32, .rv64, .rv128]

def Op.decoded (op : Op) (s : Sym) : Bool :=
  match opsOf (op.wordPat s) with
  | some ops =>
    (Isa.all.any fun isa => decide (ops isa = op)) &&
      Isa.all.all fun isa => decide (ops isa = op) || !decide (Supported isa op)
  | none => false

theorem Op.exists_of_decoded {op : Op} {s : Sym} (h : op.decoded s = true) :
    ∃ ops, opsOf (op.wordPat s) = some ops ∧ (∃ isa, ops isa = op) ∧
      ∀ isa, Supported isa op → ops isa = op := by
  unfold Op.decoded at h
  cases hops : opsOf (op.wordPat s) with
  | none =>
    rw [hops] at h
    cases h
  | some ops =>
    rw [hops] at h
    obtain ⟨hany, hall⟩ := Bool.and_eq_true_iff.mp h
    obtain ⟨isa, -, hisa⟩ := List.any_eq_true.mp hany
    refine ⟨ops, rfl, ⟨isa, of_decide_eq_true hisa⟩, fun isa hsupp => ?_⟩
    rcases Bool.or_eq_true_iff.mp (List.all_eq_true.mp hall isa (by cases isa <;> decide)) with
      heq | hnot
    · exact of_decide_eq_true heq
    · rw [decide_eq_true hsupp] at hnot
      cases hnot

def Op.all : List Op := (List.range 319).map Op.ofNat

theorem Op.ctorIdx_lt (op : Op) : op.ctorIdx < 319 := by
  cases op <;> exact Nat.le_of_ble_eq_true rfl

theorem Op.mem_all (op : Op) : op ∈ Op.all := by
  rw [Op.all, List.mem_map]
  exact ⟨op.ctorIdx, List.mem_range.mpr op.ctorIdx_lt, Op.ofNat_ctorIdx op⟩

/-- Eight parts that hold all operations, for the kernel to go through one after the other. -/
def Op.part (k : Fin 8) : List Op := (List.range 40).map fun i => Op.ofNat (40 * k + i)

theorem Op.mem_part (op : Op) : ∃ k, op ∈ Op.part k := by
  have hlt := op.ctorIdx_lt
  refine ⟨⟨op.ctorIdx / 40, by omega⟩, List.mem_map.mpr ⟨op.ctorIdx % 40, ?_, ?_⟩⟩
  · exact List.mem_range.mpr (Nat.mod_lt _ (by decide))
  · rw [Nat.div_add_mod, Op.ofNat_ctorIdx]

/-- A check of all operations, part by part. -/
theorem Op.all_of_parts {p : Op → Bool} (h : ∀ k, (Op.part k).all p = true) :
    Op.all.all p = true := by
  rw [List.all_eq_true]
  intro op _
  obtain ⟨k, hk⟩ := op.mem_part
  exact List.all_eq_true.mp (h k) op hk

theorem variants_decoded :
    (Op.all.all fun op =>
      op.isPseudo || decide (op = .illegal) || decide (op ∈ Op.undecoded) ||
        op.variants.all fun s => op.restores s && op.decoded s) = true :=
  Op.all_of_parts fun
    | 0 => by decide +kernel
    | 1 => by decide +kernel
    | 2 => by decide +kernel
    | 3 => by decide +kernel
    | 4 => by decide +kernel
    | 5 => by decide +kernel
    | 6 => by decide +kernel
    | 7 => by decide +kernel

/-! ## Instructions that are decoded -/

theorem op_of_decoded {isa : Isa} {dec : Decode} {s : Sym} (hs : s.Models dec.bit dec)
    (hsupp : Supported isa dec.op) (hdec : dec.op.decoded s = true) :
    (decode_inst isa (dec.op.word dec)).op = dec.op := by
  obtain ⟨ops, hops, -, hisa⟩ := Op.exists_of_decoded hdec
  rw [op_of_opsOf (dec.op.models_word hs) hops isa]
  exact hisa isa hsupp

theorem RoundTrip.of_sym {isa : Isa} {dec : Decode} {s : Sym} (hs : s.Models dec.bit dec)
    (hsupp : Supported isa dec.op) (hrest : dec.op.restores s = true)
    (hdec : dec.op.decoded s = true) : RoundTrip isa dec := by
  obtain ⟨hasserts, hfields⟩ := Bool.and_eq_true_iff.mp hrest
  have hop := op_of_decoded hs hsupp hdec
  refine ⟨dec.op.word dec, encode_inst_of_holds hs hasserts, hop, ?_⟩
  intro f hf
  have hdecoded := models_decode_inst isa (dec.op.models_word hs)
  rw [hop] at hdecoded
  have hfield := List.all_eq_true.mp hfields f (by cases f <;> decide)
  rcases Bool.or_eq_true_iff.mp hfield with hlacks | hagree
  · exact absurd (of_decide_eq_true hlacks) hf
  · exact Pattern.eq_of_agree (hdecoded f) (hs f) hagree

theorem exists_bit {n : ℕ} (hlt : n < 32) (h0 : n ≠ 0) :
    (∃ i ∈ [0, 1, 2, 3, 4], n.testBit i = true) ∧
      (n ≠ 2 → ∃ i ∈ [0, 2, 3, 4], n.testBit i = true) := by
  revert h0
  revert n
  decide

theorem Op.base_models {dec : Decode} (hrange : dec.InRange) (hdec : dec.Decodable) :
    dec.op.base.Models dec.bit dec := by
  unfold Op.base
  split
  · rename_i hcs
    refine (Op.models_sym hrange).update ?_
    have heq : dec.get .rs2 = dec.get .rs1 := congrArg (BitVec.zeroExtend 64) (hdec.2.1 hcs)
    rw [heq]
    exact Op.models_sym hrange .rs1
  · exact Op.models_sym hrange

theorem exists_bit_of_ne {dec : Decode} {f : Field} (hreg : Range.reg.Holds dec (dec.get f))
    (h0 : dec.get f ≠ 0) : ∃ i ∈ [0, 1, 2, 3, 4], dec.bit (f, i) = true :=
  (exists_bit hreg.1 fun h => h0 (BitVec.eq_of_toNat_eq h)).1

/-- Constraints exclude the registers that would give other operations. -/
theorem Op.exists_bit_of_split {dec : Decode}
    (hrange : ∀ f, f ≠ .imm → (dec.op.range f).Holds dec (dec.get f))
    (hc : constraint_check dec dec.op.constraints = true)
    (hmv : dec.op = .c_mv → dec.rs1 ≠ 0) {f : Field} {bits : List ℕ}
    (hsplit : dec.op.split = some (f, bits)) :
    ∃ i ∈ bits, dec.bit (f, i) = true := by
  have hget {x : BitVec 8} (hx : x ≠ 0) : x.zeroExtend 64 ≠ 0 :=
    fun h => hx (zeroExtend_inj (y := 0) (by decide) h)
  unfold Op.split at hsplit
  split at hsplit
  · rename_i hop
    obtain ⟨rfl, rfl⟩ := Prod.mk.inj (Option.some.inj hsplit)
    have hreg := hrange .rs1 (by decide)
    rw [hop] at hreg hc
    simp only [Op.constraints, constraint_check, rvcc_c_addi, List.all_cons, List.all_nil,
      Constraint.check, Bool.and_eq_true, decide_eq_true_eq] at hc
    obtain ⟨-, -, hrd, heq, -⟩ := hc
    exact exists_bit_of_ne hreg (hget (heq ▸ hrd))
  · rename_i hop
    obtain ⟨rfl, rfl⟩ := Prod.mk.inj (Option.some.inj hsplit)
    have hreg := hrange .rd (by decide)
    rw [hop] at hreg hc
    simp only [Op.constraints, constraint_check, rvcc_c_lui, List.all_cons, List.all_nil,
      Constraint.check, Bool.and_eq_true, decide_eq_true_eq] at hc
    obtain ⟨-, -, ⟨hrd0, hrd2⟩, -⟩ := hc
    have h0 : (dec.get .rd).toNat ≠ 0 := fun h => hget hrd0 (BitVec.eq_of_toNat_eq h)
    have h2 : (dec.get .rd).toNat ≠ 2 := by
      intro h
      have heq : dec.rd.zeroExtend 64 = (2 : BitVec 8).zeroExtend 64 := BitVec.eq_of_toNat_eq h
      exact hrd2 (zeroExtend_inj (by decide) heq)
    exact (exists_bit hreg.1 h0).2 h2
  · rename_i hop
    obtain ⟨rfl, rfl⟩ := Prod.mk.inj (Option.some.inj hsplit)
    have hreg := hrange .rs1 (by decide)
    rw [hop] at hreg
    exact exists_bit_of_ne hreg (hget (hmv hop))
  · rename_i hop
    obtain ⟨rfl, rfl⟩ := Prod.mk.inj (Option.some.inj hsplit)
    have hreg := hrange .rs1 (by decide)
    rw [hop] at hreg hc
    simp only [Op.constraints, constraint_check, rvcc_c_jalr, List.all_cons, List.all_nil,
      Constraint.check, Bool.and_eq_true, decide_eq_true_eq] at hc
    obtain ⟨-, -, hrs1, -⟩ := hc
    exact exists_bit_of_ne hreg (hget hrs1)
  · rename_i hop
    obtain ⟨rfl, rfl⟩ := Prod.mk.inj (Option.some.inj hsplit)
    have hreg := hrange .rs2 (by decide)
    rw [hop] at hreg hc
    simp only [Op.constraints, constraint_check, rvcc_c_add, List.all_cons, List.all_nil,
      Constraint.check, Bool.and_eq_true, decide_eq_true_eq] at hc
    obtain ⟨-, -, hrs2, -⟩ := hc
    exact exists_bit_of_ne hreg (hget hrs2)
  · cases hsplit

theorem Op.exists_variant {dec : Decode} (hrange : dec.InRange)
    (hc : constraint_check dec dec.op.constraints = true) (hdec : dec.Decodable) :
    ∃ s ∈ dec.op.variants, s.Models dec.bit dec := by
  have hbase := Op.base_models hrange hdec
  unfold Op.variants
  cases hsplit : dec.op.split with
  | none => exact ⟨dec.op.base, List.mem_singleton_self _, hbase⟩
  | some fb =>
    obtain ⟨f, bits⟩ := fb
    obtain ⟨i, hi, hbit⟩ := Op.exists_bit_of_split (fun f _ => hrange f) hc hdec.2.2 hsplit
    exact ⟨_, List.mem_map_of_mem hi, fun g => (hbase g).assume hbit⟩

theorem names_not_pseudo : decode_inst_op.all (fun op => !op.isPseudo) = true := by
  decide

theorem decomp_not_pseudo :
    (Op.all.all fun op => !op.isPseudo ||
      Isa.all.all fun isa => decide (rv_inst_decomp isa op = .illegal)) = true := by
  decide +kernel

theorem Supported.not_pseudo {isa : Isa} {op : Op} (h : Supported isa op) :
    op.isPseudo = false := by
  cases hps : op.isPseudo with
  | false => rfl
  | true =>
    rcases h.2 with hnames | hdecomp
    · have hnot := Switch.of_names decode_inst_op names_not_pseudo hnames
      rw [hps] at hnot
      cases hnot
    · have htable := List.all_eq_true.mp decomp_not_pseudo op op.mem_all
      rw [hps, Bool.not_true, Bool.false_or] at htable
      exact absurd (of_decide_eq_true
        (List.all_eq_true.mp htable isa (by cases isa <;> decide))) hdecomp

theorem decoded_of_not_pseudo {op : Op} (hpseudo : op.isPseudo = false) (hill : op ≠ .illegal)
    (hund : op ∉ Op.undecoded) {s : Sym} (hs : s ∈ op.variants) :
    op.restores s = true ∧ op.decoded s = true := by
  have htable := List.all_eq_true.mp variants_decoded op op.mem_all
  rw [hpseudo, decide_eq_false hill, decide_eq_false hund, Bool.false_or, Bool.false_or,
    Bool.false_or] at htable
  exact Bool.and_eq_true_iff.mp (List.all_eq_true.mp htable s hs)

theorem roundTrip_of_decodable {isa : Isa} {dec : Decode} (hsupp : Supported isa dec.op)
    (hrange : dec.InRange) (hc : constraint_check dec dec.op.constraints = true)
    (hdec : dec.Decodable) : RoundTrip isa dec := by
  obtain ⟨s, hmem, hs⟩ := Op.exists_variant hrange hc hdec
  obtain ⟨hrest, hdecoded⟩ := decoded_of_not_pseudo hsupp.not_pseudo hsupp.1 hdec.1 hmem
  exact RoundTrip.of_sym hs hsupp hrest hdecoded

/-! ## Instructions that are not -/

theorem undecoded_unnamed (isa : Isa) {op : Op} (h : op ∈ Op.undecoded) :
    decode_inst_op.names isa op = false := by
  simp only [Op.undecoded, List.mem_cons, List.not_mem_nil, or_false] at h
  rcases h with rfl | rfl | rfl | rfl <;> cases isa <;> decide

theorem RoundTrip.not_undecoded {isa : Isa} {dec : Decode} (h : RoundTrip isa dec) :
    dec.op ∉ Op.undecoded := by
  intro hmem
  obtain ⟨inst, -, hop, -⟩ := h
  have hnames := Switch.names_eval isa inst decode_inst_op
  rw [← (decode_inst_op_codec isa inst).1, hop, undecoded_unnamed isa hmem] at hnames
  cases hnames

def anyValue : Pattern Var := List.replicate 64 .unknown

theorem models_anyValue {env : Var → Bool} (x : BitVec 64) : Pattern.Models env anyValue x := by
  intro i hi
  rw [anyValue, Pattern.get, List.getElem?_replicate, if_pos hi]
  trivial

/-- The operands with rs2 not known. -/
def Op.anyRs2 (op : Op) : Sym := op.sym.update .rs2 anyValue

theorem Op.models_anyRs2 {dec : Decode} (hrange : dec.InRange) :
    dec.op.anyRs2.Models dec.bit dec :=
  (Op.models_sym hrange).update (models_anyValue _)

theorem cs_decodes_rs1 :
    (Op.all.all fun op => !decide (rv_inst_codec op = .cs) || decide (op.lacks = []) &&
      Pattern.agree 64 ((rv_inst_codec op).decodePat (op.wordPat op.anyRs2) .rs2)
        (op.anyRs2 .rs1)) = true := by
  decide +kernel

theorem encode_inst_word {dec : Decode} {inst : BitVec 64} (h : encode_inst dec = some inst) :
    inst = dec.op.word dec := by
  unfold encode_inst at h
  simp only at h
  split at h
  · exact (Option.some.inj h).symm
  · cases h

/-- The decoder of the `cs` codec reads rs2 where the encoder puts rd. -/
theorem RoundTrip.cs {isa : Isa} {dec : Decode} (hrange : dec.InRange)
    (h : RoundTrip isa dec) (hcs : rv_inst_codec dec.op = .cs) : dec.rs2 = dec.rs1 := by
  obtain ⟨inst, henc, hop, hfields⟩ := h
  have hs := Op.models_anyRs2 hrange
  have hword := dec.op.models_word hs
  rw [← encode_inst_word henc] at hword
  have hdecoded := models_decode_inst isa hword
  rw [hop] at hdecoded
  have htable := List.all_eq_true.mp cs_decodes_rs1 dec.op dec.op.mem_all
  rw [decide_eq_true hcs, Bool.not_true, Bool.false_or] at htable
  obtain ⟨hnone, hagree⟩ := Bool.and_eq_true_iff.mp htable
  have hrs1 := Pattern.eq_of_agree (hdecoded .rs2) (hs .rs1) hagree
  have hlacks : Field.rs2 ∉ dec.op.lacks := by
    rw [of_decide_eq_true hnone]
    exact List.not_mem_nil
  exact zeroExtend_inj (by decide) ((hfields .rs2 hlacks).symm.trans hrs1)

theorem mv_x0_decodes :
    ((opsOf (Op.c_mv.wordPat (Op.c_mv.sym.update .rs1 []))).any fun ops =>
      Isa.all.all fun isa => decide (ops isa = .c_jr)) = true := by
  decide

theorem RoundTrip.mv {isa : Isa} {dec : Decode} (hrange : dec.InRange)
    (h : RoundTrip isa dec) (hmv : dec.op = .c_mv) : dec.rs1 ≠ 0 := by
  intro hzero
  obtain ⟨inst, henc, hop, -⟩ := h
  have hget : dec.get .rs1 = 0 := congrArg (BitVec.zeroExtend 64) hzero
  have hs : (Op.c_mv.sym.update .rs1 []).Models dec.bit dec := by
    rw [← hmv]
    refine (Op.models_sym hrange).update ?_
    rw [hget]
    exact models_nil
  have hword := Op.c_mv.models_word hs
  rw [← hmv, ← encode_inst_word henc, hmv] at hword
  have hany := mv_x0_decodes
  cases hops : opsOf (Op.c_mv.wordPat (Op.c_mv.sym.update .rs1 [])) with
  | none =>
    rw [hops] at hany
    cases hany
  | some ops =>
    rw [hops] at hany
    have hjr := of_decide_eq_true (List.all_eq_true.mp hany isa (by cases isa <;> decide))
    rw [op_of_opsOf hword hops isa, hjr, hmv] at hop
    cases hop

theorem RoundTrip.decodable {isa : Isa} {dec : Decode} (hrange : dec.InRange)
    (h : RoundTrip isa dec) : dec.Decodable :=
  ⟨h.not_undecoded, h.cs hrange, h.mv hrange⟩

theorem Op.exists_mem_variants (op : Op) : ∃ s, s ∈ op.variants := by
  unfold Op.variants
  split
  · rename_i f bits hsplit
    have hne : ∃ i, i ∈ bits := by
      unfold Op.split at hsplit
      split at hsplit
      all_goals
        first
        | cases hsplit; done
        | obtain ⟨-, rfl⟩ := Prod.mk.inj (Option.some.inj hsplit)
          exact ⟨_, List.mem_cons_self⟩
    obtain ⟨i, hi⟩ := hne
    exact ⟨_, List.mem_map_of_mem hi⟩
  · exact ⟨_, List.mem_singleton_self _⟩

theorem exists_supported {op : Op} (hpseudo : op.isPseudo = false) (hill : op ≠ .illegal) :
    ∃ isa, Supported isa op := by
  by_cases hund : op ∈ Op.undecoded
  · refine ⟨.rv128, hill, .inr ?_⟩
    simp only [Op.undecoded, List.mem_cons, List.not_mem_nil, or_false] at hund
    rcases hund with rfl | rfl | rfl | rfl <;> decide
  · obtain ⟨s, hs⟩ := op.exists_mem_variants
    obtain ⟨-, hdecoded⟩ := decoded_of_not_pseudo hpseudo hill hund hs
    obtain ⟨ops, hops, ⟨isa, hisa⟩, -⟩ := Op.exists_of_decoded hdecoded
    exact ⟨isa, hill, .inl (hisa ▸ Switch.names_resolve isa decode_inst_op hops)⟩

/-- **When decoding undoes encoding**, for every operation of the table in every instruction set
that has it. -/
theorem decode_encode_exact (isa : Isa) (dec : Decode) :
    (∀ op : Op, op.isPseudo = false → op ≠ .illegal → ∃ isa, Supported isa op) ∧
    (Supported isa dec.op → dec.InRange →
      constraint_check dec dec.op.constraints = true → (RoundTrip isa dec ↔ dec.Decodable)) := by
  refine ⟨?_, ?_⟩
  · intro op hpseudo hill
    exact exists_supported hpseudo hill
  · intro hsupp hrange hc
    exact ⟨RoundTrip.decodable hrange, roundTrip_of_decodable hsupp hrange hc⟩

/-- `fmadd.d fa0, fa1, fa2, fa3` with dynamic rounding. -/
theorem fmadd_decodes :
    RoundTrip .rv64 ⟨0, 10, 11, 12, 13, .fmadd_d, .r4_m, 7, 0, 0, 0, 0⟩ := by
  refine ((decode_encode_exact .rv64 _).2 (by decide) ?_ rfl).mpr ?_
  · intro f
    cases f <;> decide
  · decide

/-- `c.sub a0, a1` is encoded as `c.sub a0, a0`. -/
theorem c_sub_loses_rs2 :
    ∃ dec : Decode, Supported .rv64 dec.op ∧ dec.InRange ∧
      constraint_check dec dec.op.constraints = true ∧ ¬ RoundTrip .rv64 dec := by
  refine ⟨⟨0, 10, 10, 11, 0, .c_sub, .cs, 0, 0, 0, 0, 0⟩, by decide, ?_, by decide, ?_⟩
  · intro f
    cases f <;> decide
  · rintro ⟨inst, henc, -, hfields⟩
    obtain rfl : 0x8d09 = inst := by
      have hword := Option.some.inj henc
      exact hword
    exact absurd (hfields .rs2 (by decide)) (by decide)

end RvCkpt.Asm
