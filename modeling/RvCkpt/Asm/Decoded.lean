import RvCkpt.Asm.RoundTrip

/-! # What the decoder accepts

Whatever word it is given, `decode_inst` returns operands that are in the ranges of the operation
it returns: here the bits of the word are the variables.
-/

namespace RvCkpt.Asm
set_option autoImplicit false
open BitPattern

/-! ## Ranges of patterns -/

/-- The words of the pattern are in the range. -/
def Range.admits (p rs1 : Pattern Var) : Range → Bool
  | fixed n => Pattern.agree 64 p (Pattern.constant 64 n)
  | unsigned width low =>
    (Pattern.bounds 64 p).hi < 2 ^ width && (Pattern.bounds 64 p).hi % 2 ^ low = 0
  | signed width low =>
    Pattern.agree 64 p (Pattern.signExtend 64 width p) &&
      (Pattern.bounds 64 p).hi % 2 ^ low = 0
  | creg =>
    (Pattern.bounds 64 p).lo.testBit 3 && (Pattern.bounds 64 p).hi < 16
  | likeRs1 => Pattern.agree 64 p rs1

/-- A word that is the extension of its low bits is a small number. -/
theorem toInt_of_signExtend {x : BitVec 64} {width : ℕ} (hle : width ≤ 64)
    (h : x = (x.truncate width).signExtend 64) :
    -2 ^ (width - 1) ≤ x.toInt ∧ x.toInt < 2 ^ (width - 1) := by
  have hint : x.toInt = (x.truncate width).toInt := by
    have := congrArg BitVec.toInt h
    rwa [BitVec.toInt_signExtend_of_le hle] at this
  rw [hint]
  exact ⟨BitVec.le_toInt _, BitVec.toInt_lt⟩

theorem Range.holds_of_admits {env : Var → Bool} {dec : Decode} {r : Range} (hwf : r.WellFormed)
    {p rs1 : Pattern Var} {x : BitVec 64} (hp : Pattern.Models env p x)
    (hrs1 : Pattern.Models env rs1 (dec.get .rs1)) (h : r.admits p rs1 = true) :
    r.Holds dec x := by
  cases r with
  | fixed n => exact Pattern.eq_of_agree hp (Pattern.models_constant n) h
  | unsigned width low =>
    simp only [admits, Bool.and_eq_true, decide_eq_true_eq] at h
    exact ⟨hp.bounds.lt_two_pow h.1, hp.bounds.two_pow_dvd h.2⟩
  | signed width low =>
    simp only [admits, Bool.and_eq_true, decide_eq_true_eq] at h
    obtain ⟨hpos, hle⟩ := hwf
    have hx := Pattern.eq_of_agree hp (hp.signExtend hpos hle 64) h.1
    obtain ⟨hlo, hhi⟩ := toInt_of_signExtend hle hx
    exact ⟨hlo, hhi, hp.bounds.two_pow_dvd h.2⟩
  | creg =>
    simp only [admits, Bool.and_eq_true, decide_eq_true_eq] at h
    have hbit : x.toNat.testBit 3 = true := (hp.bounds 3).1 h.1
    exact ⟨Nat.ge_two_pow_of_testBit hbit, hp.bounds.lt_two_pow (n := 4) h.2⟩
  | likeRs1 => exact Pattern.eq_of_agree hp hrs1 h

/-! ## Decoded words -/

/-- A word with all bits variable. -/
def anyWord : Pattern Var := (List.range 64).map fun i => .var (.imm, i)

theorem models_anyWord (inst : BitVec 64) :
    Pattern.Models (fun v => inst.getLsbD v.2) anyWord inst := by
  intro i hi
  rw [anyWord, get_map_range, if_pos hi]
  rfl

def Codec.all : List Codec := (List.range 46).map Codec.ofNat

theorem Codec.mem_all (codec : Codec) : codec ∈ Codec.all := by
  rw [Codec.all, List.mem_map]
  refine ⟨codec.ctorIdx, ?_, Codec.ofNat_ctorIdx codec⟩
  rw [List.mem_range]
  cases codec <;> exact Nat.le_of_ble_eq_true rfl

theorem codecs_decode_inRange :
    (Codec.all.all fun codec => Field.all.all fun f =>
      (codec.range f).admits (codec.decodePat anyWord f) (codec.decodePat anyWord .rs1)) =
        true := by
  decide +kernel

theorem decode_inst_range (isa : Isa) (inst : BitVec 64) (f : Field) :
    ((rv_inst_codec (decode_inst isa inst).op).range f).Holds (decode_inst isa inst)
      ((decode_inst isa inst).get f) := by
  have hmodels := models_decode_inst isa (models_anyWord inst)
  have hcodec := List.all_eq_true.mp codecs_decode_inRange _ (Codec.mem_all
    (rv_inst_codec (decode_inst isa inst).op))
  have hfield := List.all_eq_true.mp hcodec f (by cases f <;> decide)
  exact Range.holds_of_admits (Codec.range_wellFormed _ f) (hmodels f) (hmodels .rs1) hfield

/-- Decoded instructions are within the ranges that the encoder needs, where the operation has
all the operands of its codec. -/
theorem decode_inst_inRange (isa : Isa) (inst : BitVec 64)
    (h : (decode_inst isa inst).op.lacks = []) : (decode_inst isa inst).InRange := by
  intro f
  rw [Op.range, h, if_neg List.not_mem_nil]
  exact decode_inst_range isa inst f

end RvCkpt.Asm
