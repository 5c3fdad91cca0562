import RvCkpt.Asm.Assembler
import RvCkpt.Emu.Proxy
import RvCkpt.Isa.Correct
import Mathlib.Data.Int.ModEq
import Mathlib.Tactic.IntervalCases

/-! # Materialised immediates

What the code that `assembler::load_imm` emits leaves in the register, on the integer core of the
architecture with 64-bit registers.
-/

namespace RvCkpt.Emu
open Asm ByteMem Isa
set_option autoImplicit false

/-! ## Straight code -/

/-- One instruction of RV64. -/
def step64 (c : Core 64) : Core 64 :=
  let (inst, length) := instFetch c.mem c.pc.toNat
  c.next (ofDecode (decode_inst .rv64 inst)) length

/-- The code lies at the program counter, and does not run over the end of the address space. -/
structure Placed (c : Core 64) (code : List Byte) : Prop where
  holds : c.mem.Holds c.pc.toNat code
  fits : c.pc.toNat + code.length ≤ 2 ^ 64

/-- The core behind code that has written `v`. -/
def behind (c : Core 64) (rd : Reg) (code : List Byte) (v : BitVec 64) : Core 64 :=
  (c.write rd v).goto (c.pc + BitVec.ofNat 64 code.length)

/-- Wherever it lies, the code of four-byte instructions replaces the register by `f` of it and
changes nothing else. -/
structure Computes (rd : Reg) (code : List Byte) (f : BitVec 64 → BitVec 64) : Prop where
  whole : 4 ∣ code.length
  run : ∀ c : Core 64, c.ireg rv_ireg_x0 = 0 → Placed c code →
    step64^[code.length / 4] c = behind c rd code (f (c.ireg rd))

section Behind
variable {rd : Reg} (hrd : rd ≠ rv_ireg_x0)
include hrd

theorem behind_ireg (c : Core 64) (code : List Byte) (v : BitVec 64) :
    (behind c rd code v).ireg = Function.update c.ireg rd v := by
  rw [behind, Core.write, if_neg hrd]
  rfl

theorem behind_behind (c : Core 64) (xs ys : List Byte) (v w : BitVec 64) :
    behind (behind c rd xs v) rd ys w = behind c rd (xs ++ ys) w := by
  simp only [behind, Core.write, if_neg hrd, Core.goto, Function.update_idem, List.length_append,
    BitVec.add_assoc, BitVec.ofNat_add]

theorem placed_behind {c : Core 64} {xs ys : List Byte} (h : Placed c (xs ++ ys)) (v : BitVec 64)
    (hys : ys ≠ []) : Placed (behind c rd xs v) ys := by
  have hlen := List.length_pos_iff.mpr hys
  have hfits := h.fits
  rw [List.length_append] at hfits
  have hpc : (behind c rd xs v).pc.toNat = c.pc.toNat + xs.length := by
    show (c.pc + BitVec.ofNat 64 xs.length).toNat = _
    rw [BitVec.toNat_add, BitVec.toNat_ofNat]
    omega
  have hmem : (behind c rd xs v).mem = c.mem := by
    rw [behind, Core.write, if_neg hrd]
    rfl
  refine ⟨?_, by rw [hpc]; omega⟩
  rw [hpc, hmem]
  exact (Mem.holds_append.mp h.holds).2

theorem Computes.append {xs ys : List Byte} {f g : BitVec 64 → BitVec 64} (hx : Computes rd xs f)
    (hy : Computes rd ys g) (hys : ys ≠ []) : Computes rd (xs ++ ys) (g ∘ f) := by
  refine ⟨?_, fun c hc hplaced => ?_⟩
  · rw [List.length_append]
    exact Nat.dvd_add hx.whole hy.whole
  · have hcount : (xs ++ ys).length / 4 = ys.length / 4 + xs.length / 4 := by
      have hwhole := hx.whole
      rw [List.length_append]
      omega
    have hfirst : Placed c xs := by
      refine ⟨(Mem.holds_append.mp hplaced.holds).1, ?_⟩
      have hfits := hplaced.fits
      rw [List.length_append] at hfits
      omega
    have hrest := placed_behind hrd hplaced (f (c.ireg rd)) hys
    have hzero : (behind c rd xs (f (c.ireg rd))).ireg rv_ireg_x0 = 0 := by
      rw [behind_ireg hrd, Function.update_of_ne hrd.symm, hc]
    have hown : (behind c rd xs (f (c.ireg rd))).ireg rd = f (c.ireg rd) := by
      rw [behind_ireg hrd, Function.update_self]
    rw [hcount, Function.iterate_add_apply, hx.run c hc hfirst, hy.run _ hzero hrest, hown,
      behind_behind hrd]
    rfl

end Behind

/-- A core at address 0 with the code there. -/
def coreOf (code : List Byte) : Core 64 := ⟨0, fun _ => 0, Mem.writeBytes (fun _ => 0) 0 code⟩

/-- Code computes one value only. -/
theorem Computes.unique {rd : Reg} (hrd : rd ≠ rv_ireg_x0) {code : List Byte} {v w : BitVec 64}
    (hlen : code.length ≤ 2 ^ 64) (hv : Computes rd code fun _ => v)
    (hw : Computes rd code fun _ => w) : v = w := by
  have hplaced : Placed (coreOf code) code :=
    ⟨Mem.holds_writeBytes _ _ _, (Nat.zero_add _).symm ▸ hlen⟩
  have heq := (hv.run _ rfl hplaced).symm.trans (hw.run _ rfl hplaced)
  have hreg := congrFun (congrArg Core.ireg heq) rd
  rwa [behind_ireg hrd, behind_ireg hrd, Function.update_self, Function.update_self] at hreg

/-! ## Emitted words -/

/-- A four-byte instruction that decodes to `dec`. -/
structure WordOf (inst : BitVec 64) (dec : Isa.Decode) : Prop where
  lt : inst.toNat < 2 ^ 32
  low : inst &&& 0b11 = 0b11
  mid : inst &&& 0b11100 ≠ 0b11100
  decodes : ofDecode (decode_inst .rv64 inst) = dec

def bytes4 (inst : BitVec 64) : List Byte := (List.range 4).map (byteAt inst)

@[simp] theorem bytes4_length (inst : BitVec 64) : (bytes4 inst).length = 4 := by simp [bytes4]

theorem WordOf.add_inst {inst : BitVec 64} {dec : Isa.Decode} (h : WordOf inst dec)
    (buf : List Byte) : add_inst inst buf = buf ++ bytes4 inst := by
  rw [Asm.add_inst, inst_length, if_neg (not_not_intro h.low), if_pos h.mid]
  rfl

theorem read_bytes4 {m : Mem} {a : ℕ} {inst : BitVec 64} (hlt : inst.toNat < 2 ^ 32)
    (h : m.Holds a (bytes4 inst)) : m.read a 4 = inst := by
  have hread := Mem.read_write_same m a 4 inst
  rw [Nat.mod_eq_of_lt (show inst.toNat < 256 ^ 4 from hlt), BitVec.ofNat_toNat,
    BitVec.setWidth_eq] at hread
  rw [← hread]
  apply Mem.read_congr
  intro i hi
  have hb := Mem.holds_iff.mp h i (by rw [bytes4_length]; exact hi)
  rw [hb, Mem.write_of_mem (by omega), Nat.add_sub_cancel_left]
  simp [bytes4, List.getElem?_range hi]

theorem WordOf.step {inst : BitVec 64} {dec : Isa.Decode} (h : WordOf inst dec) {c : Core 64}
    (hplaced : Placed c (bytes4 inst)) : step64 c = c.next dec 4 := by
  have hread := read_bytes4 h.lt hplaced.holds
  have hfetch : instFetch c.mem c.pc.toNat = (inst, 4) := by
    simp only [instFetch, hread]
    rw [if_neg (not_not_intro h.low), if_pos h.mid]
  rw [step64, hfetch]
  exact congrArg (c.next · 4) h.decodes

/-- The code of one instruction. -/
theorem WordOf.computes {inst : BitVec 64} {dec : Isa.Decode} (h : WordOf inst dec) {rd : Reg}
    {f : BitVec 64 → BitVec 64}
    (hnext : ∀ c : Core 64, c.ireg rv_ireg_x0 = 0 →
      c.next dec 4 = (c.write rd (f (c.ireg rd))).goto (c.pc + 4)) :
    Computes rd (bytes4 inst) f := by
  refine ⟨⟨1, bytes4_length inst⟩, fun c hc hplaced => ?_⟩
  rw [behind, bytes4_length]
  exact (h.step hplaced).trans (hnext c hc)

/-- The codec is all that is lost. -/
theorem ofDecode_congr {a b : Asm.Decode} (hop : a.op = b.op) (h : ∀ f, a.get f = b.get f) :
    ofDecode a = ofDecode b := by
  have heq : a = { b with codec := a.codec } := Decode.ext_get hop rfl fun f => by
    rw [h f]
    cases f <;> rfl
  rw [heq]
  rfl

/-- The operations that `load_imm` emits. -/
def loadOps : List Asm.Op := [.lui, .addi, .slli]

/-- The word of an operation of which the decoder gives all operands back, as its bits show. -/
def isWordOp (op : Asm.Op) : Bool :=
  let b := BitPattern.Pattern.bounds 64 (op.wordPat op.sym)
  decide (b.hi < 2 ^ 32) && decide ((b.mask 0b11).equals 0b11 = some true) &&
    decide ((b.mask 0b11100).equals 0b11100 = some false) &&
      decide (Supported .rv64 op ∧ op.lacks = [] ∧ op.constraints = [] ∧ op ∉ Op.undecoded ∧
        rv_inst_codec op ≠ .cs ∧ op ≠ .c_mv)

theorem loadOps_isWordOp : loadOps.all isWordOp = true := by
  decide +kernel

theorem exists_wordOf {dec : Asm.Decode} (hop : isWordOp dec.op = true) (hrange : dec.InRange) :
    ∃ inst, encode_inst dec = some inst ∧ WordOf inst (ofDecode dec) := by
  simp only [isWordOp, Bool.and_eq_true, decide_eq_true_eq] at hop
  obtain ⟨⟨⟨hhi, hlow⟩, hmid⟩, hsupp, hlacks, hcons, hund, hcs, hmv⟩ := hop
  have hdec : dec.Decodable := ⟨hund, fun h => absurd h hcs, fun h => absurd h hmv⟩
  have hround := roundTrip_of_decodable hsupp hrange (by rw [hcons]; rfl) hdec
  obtain ⟨inst, henc, hdop, hfields⟩ := hround
  have hmodels := dec.op.models_word (Op.models_sym hrange)
  rw [← encode_inst_word henc] at hmodels
  have hb := hmodels.bounds
  have hthree : inst.toNat &&& 0b11 = 0b11 := ((hb.mask 0b11).equals hlow).mpr rfl
  have hfour : ¬ inst.toNat &&& 0b11100 = 0b11100 := fun h => by
    cases ((hb.mask 0b11100).equals hmid).mp h
  refine ⟨inst, henc, hb.lt_two_pow hhi, ?_, ?_, ?_⟩
  · exact BitVec.eq_of_toNat_eq (by rw [BitVec.toNat_and]; exact hthree)
  · intro h
    exact hfour ((BitVec.toNat_and ..).symm.trans (congrArg BitVec.toNat h))
  · exact ofDecode_congr hdop fun f => hfields f (by rw [hlacks]; exact List.not_mem_nil)

/-! ## The emitters -/

/-- The number of a register as the assembler takes it. -/
def regNum (rd : Reg) : BitVec 64 := BitVec.ofNat 64 rd.val

theorem regNum_toNat (rd : Reg) : (regNum rd).toNat = rd.val := by
  have hlt := rd.isLt
  rw [regNum, BitVec.toNat_ofNat]
  omega

theorem regNum_valid (rd : Reg) : uimm_valid 5 (regNum rd) = true := by
  have hlt := rd.isLt
  rw [uimm_valid, regNum_toNat, decide_eq_true_eq]
  omega

theorem toReg_regNum (rd : Reg) : toReg ((regNum rd).truncate 8) = rd := by
  have hlt := rd.isLt
  apply Fin.ext
  show ((regNum rd).setWidth 8).toNat % 32 = rd.val
  rw [BitVec.toNat_setWidth, regNum_toNat]
  omega

theorem reg_holds (dec : Asm.Decode) (rd : Reg) :
    Range.reg.Holds dec (((regNum rd).truncate 8).zeroExtend 64) := by
  have hlt := rd.isLt
  have hnum : (((regNum rd).truncate 8).zeroExtend 64).toNat = rd.val := by
    rw [BitVec.toNat_setWidth, BitVec.toNat_setWidth, regNum_toNat]
    omega
  exact ⟨by rw [hnum]; exact hlt, by rw [hnum]; exact Nat.one_dvd _⟩

/-- The emitted operands are in range when the immediate is. -/
theorem emitted_inRange {op : Asm.Op} (hop : op ∈ loadOps) {rd rs1 : Reg} {imm : BitVec 64}
    (hrs1 : op = .lui → rs1 = 0)
    (himm : (op.range .imm).Holds (emitted (regNum rd) (regNum rs1) imm op)
      ((imm.truncate 32).signExtend 64)) :
    (emitted (regNum rd) (regNum rs1) imm op).InRange := by
  intro f
  simp only [loadOps, List.mem_cons, List.not_mem_nil, or_false] at hop
  rcases hop with rfl | rfl | rfl <;> cases f
  all_goals
    first
    | exact himm
    | exact reg_holds _ _
    | (obtain rfl := hrs1 rfl; rfl)
    | rfl

theorem ofDecode_emitted (rd rs1 : Reg) (imm : BitVec 64) (op : Asm.Op) :
    ofDecode (emitted (regNum rd) (regNum rs1) imm op) =
      ⟨execCase op, rd, rs1, 0, 0, imm.truncate 32, 0⟩ := by
  show Isa.Decode.mk (execCase op) (toReg ((regNum rd).truncate 8))
    (toReg ((regNum rs1).truncate 8)) 0 0 (imm.truncate 32) 0 = _
  rw [toReg_regNum, toReg_regNum]

theorem simm_valid_iff {w : ℕ} {imm : BitVec 64} :
    simm_valid w imm = true ↔ -2 ^ (w - 1) ≤ imm.toInt ∧ imm.toInt < 2 ^ (w - 1) := by
  rw [simm_valid, Bool.and_eq_true, decide_eq_true_eq, decide_eq_true_eq]
  omega

/-- An immediate of at most 32 bits survives `dec.imm`. -/
theorem signExtend_truncate {imm : BitVec 64} (hlo : -2 ^ 31 ≤ imm.toInt)
    (hhi : imm.toInt < 2 ^ 31) : (imm.truncate 32).signExtend 64 = imm := by
  apply BitVec.eq_of_toInt_eq
  rw [BitVec.toInt_signExtend_of_le (by decide), BitVec.toInt_setWidth, Int.bmod_def]
  have hcases := toInt_cases imm
  split <;> omega

/-- An emitter that appends code which computes `f`. -/
def Emits (emit : Option (BitVec 64)) (rd : Reg) (f : BitVec 64 → BitVec 64) : Prop :=
  ∃ inst, emit = some inst ∧ (∀ buf, add_inst inst buf = buf ++ bytes4 inst) ∧
    Computes rd (bytes4 inst) f

theorem Emits.of_encode {op : Asm.Op} (hop : op ∈ loadOps) {rd rs1 : Reg} {imm : BitVec 64}
    (hrange : (emitted (regNum rd) (regNum rs1) imm op).InRange) {f : BitVec 64 → BitVec 64}
    (hnext : ∀ c : Core 64, c.ireg rv_ireg_x0 = 0 →
      c.next ⟨execCase op, rd, rs1, 0, 0, imm.truncate 32, 0⟩ 4 =
        (c.write rd (f (c.ireg rd))).goto (c.pc + 4)) :
    Emits (encode_inst (emitted (regNum rd) (regNum rs1) imm op)) rd f := by
  obtain ⟨inst, henc, hword⟩ :=
    exists_wordOf (List.all_eq_true.mp loadOps_isWordOp _ hop) hrange
  rw [ofDecode_emitted] at hword
  exact ⟨inst, henc, hword.add_inst, hword.computes hnext⟩

theorem emits_lui (rd : Reg) {imm : BitVec 64} (hvalid : simm_valid 32 imm = true)
    (hdvd : 2 ^ 12 ∣ imm.toNat) : Emits (emit_lui (regNum rd) imm) rd fun _ => imm := by
  have hmem : Asm.Op.lui ∈ loadOps := by decide
  obtain ⟨hlo, hhi⟩ := simm_valid_iff.mp hvalid
  have himm := signExtend_truncate hlo hhi
  have hrange : (emitted (regNum rd) (regNum 0) imm .lui).InRange := by
    refine emitted_inRange hmem (fun _ => rfl) ?_
    rw [himm]
    exact ⟨hlo, hhi, hdvd⟩
  rw [emit_lui, regNum_valid, hvalid]
  refine Emits.of_encode hmem hrange fun c _ => ?_
  show (c.write rd ((imm.truncate 32).signExtend 64)).goto _ = _
  rw [himm]
  rfl

theorem emitted_addi_inRange (rd rs1 : Reg) {imm : BitVec 64} (hvalid : simm_valid 12 imm = true) :
    (emitted (regNum rd) (regNum rs1) imm .addi).InRange := by
  obtain ⟨hlo, hhi⟩ := simm_valid_iff.mp hvalid
  refine emitted_inRange (by decide) (fun h => by cases h) ?_
  rw [signExtend_truncate (by omega) (by omega)]
  exact ⟨hlo, hhi, Nat.one_dvd _⟩

theorem addi_result {imm : BitVec 64} (hvalid : simm_valid 12 imm = true) (x : BitVec 64) :
    ImmOp.addi.result x (imm.truncate 32) = x + imm := by
  obtain ⟨hlo, hhi⟩ := simm_valid_iff.mp hvalid
  have himm : (imm.truncate 32).signExtend 64 = imm :=
    signExtend_truncate (by omega) (by omega)
  show BitVec.ofInt 64 (x.toInt + (imm.truncate 32).toInt) = _
  rw [BitVec.ofInt_add, BitVec.ofInt_toInt, ← signExtend_eq_ofInt, himm]

/-- `addi rd, rd, imm` -/
theorem emits_addi (rd : Reg) {imm : BitVec 64} (hvalid : simm_valid 12 imm = true) :
    Emits (emit_addi (regNum rd) (regNum rd) imm) rd fun x => x + imm := by
  rw [emit_addi, regNum_valid, hvalid]
  refine Emits.of_encode (by decide) (emitted_addi_inRange rd rd hvalid) fun c _ => ?_
  show (c.write rd (ImmOp.addi.result (c.ireg rd) _)).goto _ = _
  rw [addi_result hvalid]
  rfl

/-- `addi rd, x0, imm` -/
theorem emits_li (rd : Reg) {imm : BitVec 64} (hvalid : simm_valid 12 imm = true) :
    Emits (emit_addi (regNum rd) 0 imm) rd fun _ => imm := by
  rw [emit_addi, regNum_valid, hvalid]
  have hrange := emitted_addi_inRange rd rv_ireg_x0 hvalid
  refine Emits.of_encode (by decide) hrange fun c hc => ?_
  show (c.write rd (ImmOp.addi.result (c.ireg rv_ireg_x0) _)).goto _ = _
  rw [addi_result hvalid, hc]
  exact congrArg (fun v => (c.write rd v).goto (c.pc + 4)) (BitVec.zero_add imm)

theorem emits_slli (rd : Reg) {n : ℕ} (hn : n < 64) :
    Emits (emit_slli (regNum rd) (regNum rd) (BitVec.ofNat 64 n)) rd fun x => x <<< n := by
  have hmem : Asm.Op.slli ∈ loadOps := by decide
  have hnum : (BitVec.ofNat 64 n).toNat = n := by
    rw [BitVec.toNat_ofNat]
    omega
  have hvalid : uimm_valid 7 (BitVec.ofNat 64 n) = true := by
    rw [uimm_valid, hnum, decide_eq_true_eq]
    omega
  have hint : (BitVec.ofNat 64 n).toInt = n := by
    rcases toInt_cases (BitVec.ofNat 64 n) with ⟨h, -⟩ | ⟨-, h⟩
    · rw [h, hnum]
    · omega
  have hrange : (emitted (regNum rd) (regNum rd) (BitVec.ofNat 64 n) .slli).InRange := by
    refine emitted_inRange hmem (fun h => by cases h) ?_
    rw [signExtend_truncate (by omega) (by omega)]
    exact ⟨by rw [hnum]; omega, Nat.one_dvd _⟩
  rw [emit_slli, regNum_valid, hvalid]
  refine Emits.of_encode hmem hrange fun c _ => ?_
  show (c.write rd (c.ireg rd <<< (((BitVec.ofNat 64 n).truncate 32).toNat % 64))).goto _ = _
  rw [show ((BitVec.ofNat 64 n).truncate 32).toNat % 64 = n by
    rw [BitVec.toNat_setWidth, hnum]; omega]
  rfl

/-! ## Digits of a number -/

/-- `v` is `l * 2 ^ s` and digits of twelve bits with a sign below it: the digits are taken off
from the bottom, each with the zeros above it, until 32 bits hold the rest. -/
inductive Leading : ℤ → ℤ → ℕ → Prop
  | word {v : ℤ} (hlo : -2 ^ 31 ≤ v) (hhi : v < 2 ^ 31) : Leading v v 0
  | digit {v m d l : ℤ} {t s : ℕ} (hlong : ¬ (-2 ^ 31 ≤ v ∧ v < 2 ^ 31)) (hv : v = m * 2 ^ t + d)
    (hodd : Odd m) (hlo : -2048 ≤ d) (hhi : d < 2048) (ht : 12 ≤ t) (h : Leading m l s) :
    Leading v l (s + t)

theorem dvd_pow_of_le {t : ℕ} (ht : 12 ≤ t) (m : ℤ) : 4096 ∣ m * 2 ^ t := by
  obtain ⟨u, rfl⟩ : ∃ u, t = 12 + u := ⟨t - 12, by omega⟩
  exact ⟨m * 2 ^ u, by ring⟩

theorem odd_pow_le {m n : ℤ} {t u : ℕ} (hm : Odd m) (h : m * 2 ^ t = n * 2 ^ u) : u ≤ t := by
  by_contra hlt
  obtain ⟨k, rfl⟩ : ∃ k, u = t + (k + 1) := ⟨u - t - 1, by omega⟩
  have heq : m = n * 2 ^ (k + 1) := by
    rw [pow_add, mul_comm ((2 : ℤ) ^ t), ← mul_assoc] at h
    exact mul_right_cancel₀ (by positivity) h
  obtain ⟨j, hj⟩ := hm
  rw [pow_succ, ← mul_assoc] at heq
  omega

theorem Leading.unique {v l l' : ℤ} {s s' : ℕ} (h : Leading v l s) (h' : Leading v l' s') :
    l = l' ∧ s = s' := by
  induction h generalizing l' s' with
  | word hlo hhi =>
    cases h' with
    | word => exact ⟨rfl, rfl⟩
    | digit hlong => exact absurd ⟨hlo, hhi⟩ hlong
  | @digit v m d l t s hlong hv hodd hlo hhi ht _ ih =>
    cases h' with
    | word hlo' hhi' => exact absurd ⟨hlo', hhi'⟩ hlong
    | @digit _ m' d' _ t' s' _ hv' hodd' hlo' hhi' ht' hrest =>
      have hdvd := dvd_pow_of_le ht m
      have hdvd' := dvd_pow_of_le ht' m'
      have heq : m * 2 ^ t = m' * 2 ^ t' := by omega
      obtain rfl : t = t' := le_antisymm (odd_pow_le hodd' heq.symm) (odd_pow_le hodd heq)
      obtain rfl : m = m' := mul_right_cancel₀ (by positivity) heq
      obtain ⟨rfl, rfl⟩ := ih hrest
      exact ⟨rfl, rfl⟩

/-- What the value misses where nothing makes up for the sign of the last `addi`. -/
def slip (l : ℤ) (s : ℕ) : ℤ := if 2048 ≤ l % 4096 then 2 ^ (12 + s) else 0

theorem ofInt_sub_slip (v l : ℤ) (s : ℕ) :
    BitVec.ofInt 64 (v - slip l s) = BitVec.ofInt 64 v ↔ l % 4096 < 2048 ∨ 52 ≤ s := by
  have hofInt : ∀ x y : ℤ, BitVec.ofInt 64 (x - y) = BitVec.ofInt 64 x ↔ (2 ^ 64 : ℤ) ∣ y := by
    intro x y
    rw [← BitVec.toNat_inj, BitVec.toNat_ofInt, BitVec.toNat_ofInt]
    omega
  rw [hofInt, slip]
  by_cases hl : 2048 ≤ l % 4096
  · rw [if_pos hl]
    have hpow : (2 ^ 64 : ℤ) ∣ 2 ^ (12 + s) ↔ 64 ≤ 12 + s := by
      constructor
      · intro h
        by_contra hlt
        have hpos : (0 : ℤ) < 2 ^ (12 + s) := by positivity
        have hle := Int.le_of_dvd hpos h
        have hmono : (2 : ℤ) ^ (12 + s) < 2 ^ 64 := pow_lt_pow_right₀ (by decide) (by omega)
        omega
      · exact pow_dvd_pow 2
    rw [hpow]
    omega
  · rw [if_neg hl]
    exact iff_of_true (dvd_zero _) (.inl (by omega))

/-! ## What is loaded -/

/-- Code of at most `n` bytes goes behind what is in the section. -/
def Loads (rd : Reg) (n : ℕ) (emit : List Byte → Option (List Byte))
    (f : BitVec 64 → BitVec 64) : Prop :=
  ∃ code, code ≠ [] ∧ code.length ≤ n ∧ (∀ buf, emit buf = some (buf ++ code)) ∧ Computes rd code f

theorem bytes4_ne_nil (inst : BitVec 64) : bytes4 inst ≠ [] := by
  rw [← List.length_pos_iff, bytes4_length]
  decide

section Rules
variable {rd : Reg} {emit : Option (BitVec 64)} {f g : BitVec 64 → BitVec 64}

theorem Emits.loads (h : Emits emit rd f) :
    Loads rd 4 (fun buf => do return add_inst (← emit) buf) f := by
  obtain ⟨inst, rfl, hadd, hcomp⟩ := h
  exact ⟨bytes4 inst, bytes4_ne_nil inst, (bytes4_length inst).le,
    fun buf => congrArg some (hadd buf), hcomp⟩

theorem Loads.then (hrd : rd ≠ rv_ireg_x0) {n : ℕ} {code : List Byte → Option (List Byte)}
    (h : Loads rd n code f) (hemit : Emits emit rd g) :
    Loads rd (n + 4) (fun buf => do let buf ← code buf; return add_inst (← emit) buf) (g ∘ f) := by
  obtain ⟨bs, hne, hlen, hcode, hcomp⟩ := h
  obtain ⟨inst, rfl, hadd, hinst⟩ := hemit
  refine ⟨bs ++ bytes4 inst, List.append_ne_nil_of_left_ne_nil hne _, ?_, fun buf => ?_,
    hcomp.append hrd hinst (bytes4_ne_nil inst)⟩
  · rw [List.length_append, bytes4_length]
    exact Nat.add_le_add_right hlen 4
  · show (code buf).bind (fun buf => some (add_inst inst buf)) = _
    rw [hcode]
    exact congrArg some ((hadd _).trans (List.append_assoc _ _ _))

theorem Loads.mono {n m : ℕ} (hnm : n ≤ m) {code : List Byte → Option (List Byte)}
    (h : Loads rd n code f) : Loads rd m code f := by
  obtain ⟨bs, hne, hlen, hcode⟩ := h
  exact ⟨bs, hne, hlen.trans hnm, hcode⟩

end Rules

theorem low_toInt (val : BitVec 64) (hword : isWord val = true) :
    (val.sshiftRight 12 <<< 12).toInt = val.toInt - val.toInt % 4096 := by
  obtain ⟨hlo, hhi⟩ := (isWord_iff val).mp hword
  rw [BitVec.toInt_shiftLeft, Nat.shiftLeft_eq]
  have hs : (val.sshiftRight 12).toInt = val.toInt / 4096 := by
    rw [BitVec.toInt_sshiftRight, Int.shiftRight_eq_div_pow]
    rfl
  have hn : ((val.sshiftRight 12).toNat : ℤ) = val.toInt / 4096 % 2 ^ 64 := by
    rcases toInt_cases (val.sshiftRight 12) with ⟨h, hb⟩ | ⟨h, hb⟩ <;> omega
  rw [Int.bmod_def]
  push_cast
  rw [hn]
  split <;> omega

theorem digit_valid {val : BitVec 64} : simm_valid 12 (bitextend val 12) = true := by
  rw [simm_valid_iff, bitextend_toInt]
  exact bmod_digit _

theorem bitextend_bitextend (val : BitVec 64) :
    bitextend (bitextend val 12) 12 = bitextend val 12 := by
  apply BitVec.eq_of_toInt_eq
  rw [bitextend_toInt, bitextend_toInt]
  exact Int.bmod_bmod

/-- The value of `lui` and `addi`. -/
theorem word_value (v : ℤ) : v - v % 4096 + v.bmod 4096 = v - slip v 0 := by
  rw [slip, Int.bmod_def]
  split <;> split <;> omega

theorem load_imm_r_word {rd : Reg} (hrd : rd ≠ rv_ireg_x0) {val : BitVec 64}
    (hword : isWord val = true) :
    Loads rd 8 (load_imm_r (regNum rd) val)
      fun _ => BitVec.ofInt 64 (val.toInt - slip val.toInt 0) := by
  have hlow := low_toInt val hword
  obtain ⟨hlo, hhi⟩ := (isWord_iff val).mp hword
  have hvalid : simm_valid 32 (val.sshiftRight 12 <<< 12) = true := by
    rw [simm_valid_iff, hlow]
    omega
  have hdvd : 2 ^ 12 ∣ (val.sshiftRight 12 <<< 12).toNat := by
    rcases toInt_cases (val.sshiftRight 12 <<< 12) with ⟨h, -⟩ | ⟨h, -⟩ <;> omega
  have hlui := (emits_lui rd hvalid hdvd).loads
  generalize hhigh : val.sshiftRight 12 <<< 12 = high at hlow hvalid hdvd hlui
  have hsub : (val - high).toInt = val.toInt % 4096 := by
    rw [BitVec.toInt_sub, hlow, Int.bmod_def]
    split <;> omega
  have hdigit : (bitextend (val - high) 12).toInt = val.toInt.bmod 4096 := by
    rw [bitextend_toInt, hsub]
    exact Int.emod_bmod val.toInt 4096
  have hvalue : BitVec.ofInt 64 (val.toInt - slip val.toInt 0) =
      high + bitextend (val - high) 12 := by
    rw [← word_value, ← hlow, ← hdigit, BitVec.ofInt_add, BitVec.ofInt_toInt, BitVec.ofInt_toInt]
  by_cases hzero : val - high = 0
  · have hcode : load_imm_r (regNum rd) val =
        fun buf => do return add_inst (← emit_lui (regNum rd) high) buf := by
      funext buf
      rw [load_imm_r, if_pos hword, hhigh]
      simp only [hzero, ne_eq, not_true_eq_false, if_false]
    have hsum : high + bitextend (val - high) 12 = high := by
      rw [hzero]
      exact BitVec.add_zero high
    rw [hcode, hvalue, hsum]
    exact hlui.mono (by decide)
  · have hcode : load_imm_r (regNum rd) val = fun buf => do
        let buf ← (fun buf => do return add_inst (← emit_lui (regNum rd) high) buf :
          List Byte → Option (List Byte)) buf
        return add_inst (← emit_addi (regNum rd) (regNum rd) (bitextend (val - high) 12)) buf := by
      funext buf
      rw [load_imm_r, if_pos hword, hhigh]
      simp only [hzero, ne_eq, not_false_eq_true, if_true]
      cases emit_lui (regNum rd) high <;> rfl
    rw [hcode, hvalue]
    exact hlui.then hrd (emits_addi rd digit_valid)

theorem ofInt_shiftLeft (x : ℤ) (t : ℕ) :
    BitVec.ofInt 64 x <<< t = BitVec.ofInt 64 (x * 2 ^ t) := by
  apply BitVec.eq_of_toNat_eq
  rw [BitVec.toNat_shiftLeft, BitVec.toNat_ofInt, BitVec.toNat_ofInt, Nat.shiftLeft_eq]
  zify
  rw [Int.toNat_of_nonneg (Int.emod_nonneg _ (by decide)),
    Int.toNat_of_nonneg (Int.emod_nonneg _ (by decide))]
  exact (Int.mod_modEq x _).mul_right _

theorem slip_add (l : ℤ) (s t : ℕ) : slip l (s + t) = slip l s * 2 ^ t := by
  rw [slip, slip]
  split
  · rw [← Nat.add_assoc, pow_add]
  · exact (zero_mul _).symm

/-- A digit behind code that loads the rest. -/
theorem load_imm_r_digit {rd : Reg} (hrd : rd ≠ rv_ireg_x0) {val : BitVec 64}
    (hlong : isWord val = false) {m d : ℤ} (hpeel : Peeled val m d) {n : ℕ} {r : ℤ}
    (h : Loads rd n (load_imm_r (regNum rd)
      ((highPart val).sshiftRight (shiftOf (highPart val)))) fun _ => BitVec.ofInt 64 r) :
    Loads rd (n + 8) (load_imm_r (regNum rd) val)
      fun _ => BitVec.ofInt 64 (r * 2 ^ shiftOf (highPart val) + d) := by
  have hslli := h.then hrd (emits_slli rd hpeel.lt)
  have hvalue : BitVec.ofInt 64 (r * 2 ^ shiftOf (highPart val) + d) =
      BitVec.ofInt 64 r <<< shiftOf (highPart val) + bitextend val 12 := by
    rw [ofInt_shiftLeft, BitVec.ofInt_add, ← hpeel.low, BitVec.ofInt_toInt]
  by_cases hzero : bitextend val 12 = 0
  · have hcode : load_imm_r (regNum rd) val = fun buf => do
        let buf ← load_imm_r (regNum rd)
          ((highPart val).sshiftRight (shiftOf (highPart val))) buf
        return add_inst (← emit_slli (regNum rd) (regNum rd)
          (BitVec.ofNat 64 (shiftOf (highPart val)))) buf := by
      funext buf
      rw [load_imm_r, if_neg (Bool.eq_false_iff.mp hlong)]
      apply bind_congr
      intro buf
      apply bind_congr
      intro inst
      exact if_neg (not_not_intro hzero)
    have hsum : BitVec.ofInt 64 r <<< shiftOf (highPart val) + bitextend val 12 =
        BitVec.ofInt 64 r <<< shiftOf (highPart val) := by
      rw [hzero]
      exact BitVec.add_zero _
    rw [hcode, hvalue, hsum]
    exact hslli.mono (by omega)
  · have hcode : load_imm_r (regNum rd) val = fun buf => do
        let buf ← (fun buf => do
          let buf ← load_imm_r (regNum rd)
            ((highPart val).sshiftRight (shiftOf (highPart val))) buf
          return add_inst (← emit_slli (regNum rd) (regNum rd)
            (BitVec.ofNat 64 (shiftOf (highPart val)))) buf : List Byte → Option (List Byte)) buf
        return add_inst (← emit_addi (regNum rd) (regNum rd) (bitextend val 12)) buf := by
      funext buf
      rw [load_imm_r, if_neg (Bool.eq_false_iff.mp hlong)]
      simp only [bind_assoc, pure_bind]
      apply bind_congr
      intro buf
      apply bind_congr
      intro inst
      refine (if_pos hzero).trans ?_
      rw [bitextend_bitextend]
    rw [hcode, hvalue]
    exact hslli.then hrd (emits_addi rd digit_valid)

/-- What `load_imm_r` loads is the value but for the slip. -/
theorem load_imm_r_loads {rd : Reg} (hrd : rd ≠ rv_ireg_x0) (val : BitVec 64) :
    ∃ l s, Leading val.toInt l s ∧ Loads rd (8 + val.toInt.natAbs) (load_imm_r (regNum rd) val)
      fun _ => BitVec.ofInt 64 (val.toInt - slip l s) := by
  induction hk : val.toInt.natAbs using Nat.strong_induction_on generalizing val with
  | _ k ih =>
    cases hword : isWord val with
    | true =>
      obtain ⟨hlo, hhi⟩ := (isWord_iff val).mp hword
      exact ⟨val.toInt, 0, .word hlo hhi, (load_imm_r_word hrd hword).mono (Nat.le_add_right _ _)⟩
    | false =>
      have hnot : ¬ (-2 ^ 31 ≤ val.toInt ∧ val.toInt < 2 ^ 31) := by
        rw [← isWord_iff, hword]
        exact Bool.false_ne_true
      have hle := natAbs_high_le hword
      obtain ⟨m, d, hpeel⟩ := exists_peeled hword
      obtain ⟨l, s, hlead, hloads⟩ := ih ((highPart val).sshiftRight
        (shiftOf (highPart val))).toInt.natAbs (by omega) _ rfl
      have hmore := load_imm_r_digit hrd hword hpeel hloads
      rw [hpeel.high] at hlead hmore hle
      have ht := shiftOf_le (highPart val)
      rcases hpeel.sum with hv | ⟨rfl, ht63, hv⟩
      · refine ⟨l, _, .digit hnot hv hpeel.odd hpeel.digit.1 hpeel.digit.2 ht hlead, ?_⟩
        have hvalue : val.toInt - slip l (s + shiftOf (highPart val)) =
            (m - slip l s) * 2 ^ shiftOf (highPart val) + d := by
          rw [slip_add, hv]
          ring
        rw [hvalue]
        exact hmore.mono (by omega)
      · -- the rest of 2 ^ 63 is taken for -1
        obtain ⟨rfl, rfl⟩ := hlead.unique (.word (by decide) (by decide))
        rw [ht63] at hmore
        refine ⟨1, 0 + 63, .digit hnot (m := 1) (by omega) odd_one hpeel.digit.1 hpeel.digit.2
          (by decide) (.word (by decide) (by decide)), ?_⟩
        have hvalue : BitVec.ofInt 64 (val.toInt - slip 1 (0 + 63)) =
            BitVec.ofInt 64 ((-1 - slip (-1) 0) * 2 ^ 63 + d) := by
          rw [← BitVec.toNat_inj, BitVec.toNat_ofInt, BitVec.toNat_ofInt,
            show slip 1 (0 + 63) = 0 from rfl, show slip (-1) 0 = 4096 from rfl]
          omega
        rw [hvalue]
        exact hmore.mono (by omega)

/-- The values that are loaded: nothing makes up for the sign of the `addi` behind a `lui`, which
matters where bit 11 of the leading part is set, unless the shifts push it out. -/
def Loadable (v : ℤ) : Prop :=
  -2048 ≤ v ∧ v ≤ 2048 ∨ ∃ l s, Leading v l s ∧ (l % 4096 < 2048 ∨ 52 ≤ s)

theorem pow_mod_4096 {k : ℕ} (h : k ≠ 11) : (2 : ℤ) ^ k % 4096 < 2048 := by
  rcases Nat.lt_or_ge k 12 with hlt | hge
  · interval_cases k <;> first | decide | exact absurd rfl h
  · obtain ⟨u, rfl⟩ : ∃ u, k = 12 + u := ⟨k - 12, by omega⟩
    rw [pow_add, show (2 : ℤ) ^ 12 = 4096 from rfl, Int.mul_emod_right]
    decide

theorem loadable_pow {k : ℕ} (hk : k < 63) : Loadable (2 ^ k) := by
  have hpos : (0 : ℤ) < 2 ^ k := by positivity
  by_cases h11 : k = 11
  · left
    rw [h11]
    decide
  · right
    rcases Nat.lt_or_ge k 31 with hlt | hge
    · have hle : (2 : ℤ) ^ k < 2 ^ 31 := pow_lt_pow_right₀ (by decide) hlt
      exact ⟨2 ^ k, 0, .word (by omega) hle, .inl (pow_mod_4096 h11)⟩
    · have hle : (2 : ℤ) ^ 31 ≤ 2 ^ k := pow_le_pow_right₀ (by decide) hge
      exact ⟨1, _, .digit (m := 1) (d := 0) (by omega) (by ring) odd_one (by decide) (by decide)
        (by omega) (.word (by decide) (by decide)), .inl (by decide)⟩

theorem loadable_min : Loadable (-2 ^ 63) :=
  .inr ⟨-1, 0 + 63, .digit (m := -1) (d := 0) (by decide) (by decide) (by decide) (by decide)
    (by decide) (by decide) (.word (by decide) (by decide)), .inr (by decide)⟩

theorem loadable_of_ispow2 {val : BitVec 64} (h : ispow2 val = true) : Loadable val.toInt := by
  have hspec := ispow2_spec h
  have hlt := ctz_lt h
  rcases toInt_cases val with ⟨hint, hb⟩ | ⟨hint, hb⟩
  · rw [hspec] at hb
    have hk : ctz val < 63 := (Nat.pow_lt_pow_iff_right (a := 2) (by decide)).mp hb
    rw [hint, hspec]
    push_cast
    exact loadable_pow hk
  · have hk : ctz val = 63 := by
      rw [hspec] at hb
      have := (Nat.pow_le_pow_iff_right (a := 2) (by decide)).mp hb
      omega
    rw [hint, hspec, hk]
    exact loadable_min

/-- `load_imm` returns, and its code leaves the value in the register. -/
def LoadsImm (rd : Reg) (val : BitVec 64) : Prop :=
  ∃ code, (∀ buf, load_imm (regNum rd) val buf = some (buf ++ code)) ∧ Computes rd code fun _ => val

theorem Loads.loadsImm_iff {rd : Reg} (hrd : rd ≠ rv_ireg_x0) {val v : BitVec 64} {n : ℕ}
    (hn : n ≤ 2 ^ 64) (h : Loads rd n (load_imm (regNum rd) val) fun _ => v) :
    LoadsImm rd val ↔ v = val := by
  obtain ⟨code, -, hlen, hcode, hcomp⟩ := h
  constructor
  · rintro ⟨code', hcode', hcomp'⟩
    have hsame : code = code' :=
      List.append_cancel_left (Option.some.inj ((hcode []).symm.trans (hcode' [])))
    exact hcomp.unique hrd (hlen.trans hn) (hsame ▸ hcomp')
  · rintro rfl
    exact ⟨code, hcode, hcomp⟩

theorem load_imm_small {rd : Reg} {val : BitVec 64} (h : -2048 ≤ val.toInt ∧ val.toInt ≤ 2047) :
    Loads rd 4 (load_imm (regNum rd) val) fun _ => val := by
  have hcode : load_imm (regNum rd) val =
      fun buf => do return add_inst (← emit_addi (regNum rd) 0 val) buf := by
    funext buf
    rw [load_imm, if_pos h]
  rw [hcode]
  exact (emits_li rd (simm_valid_iff.mpr (by omega))).loads

theorem load_imm_pow {rd : Reg} (hrd : rd ≠ rv_ireg_x0) {val : BitVec 64}
    (hbig : ¬ (-2048 ≤ val.toInt ∧ val.toInt ≤ 2047)) (h : ispow2 val = true) :
    Loads rd 8 (load_imm (regNum rd) val) fun _ => val := by
  have hcode : load_imm (regNum rd) val = fun buf => do
      let buf ← (fun buf => do return add_inst (← emit_addi (regNum rd) 0 1) buf :
        List Byte → Option (List Byte)) buf
      return add_inst (← emit_slli (regNum rd) (regNum rd) (BitVec.ofNat 64 (ctz val))) buf := by
    funext buf
    rw [load_imm, if_neg hbig, if_pos h]
    simp only [bind_assoc, pure_bind]
  have hvalue : (1 : BitVec 64) <<< ctz val = val := by
    apply BitVec.eq_of_toNat_eq
    rw [BitVec.toNat_shiftLeft, Nat.shiftLeft_eq, show (1 : BitVec 64).toNat = 1 from rfl,
      Nat.one_mul, ← ispow2_spec h]
    exact Nat.mod_eq_of_lt val.isLt
  have hone : Emits (emit_addi (regNum rd) 0 1) rd fun _ => 1 := emits_li rd rfl
  have hloads := hone.loads.then hrd (emits_slli rd (ctz_lt h))
  rw [hcode]
  simpa only [Function.comp_def, hvalue] using hloads

/-- A value is loaded, or another one that differs by the slip. -/
theorem load_imm_loads {rd : Reg} (hrd : rd ≠ rv_ireg_x0) (val : BitVec 64) :
    ∃ v, Loads rd (2 ^ 64) (load_imm (regNum rd) val) (fun _ => v) ∧
      (v = val ↔ Loadable val.toInt) := by
  by_cases hsmall : -2048 ≤ val.toInt ∧ val.toInt ≤ 2047
  · exact ⟨val, (load_imm_small hsmall).mono (by decide),
      iff_of_true rfl (.inl ⟨hsmall.1, by omega⟩)⟩
  · by_cases hpow : ispow2 val = true
    · exact ⟨val, (load_imm_pow hrd hsmall hpow).mono (by decide),
        iff_of_true rfl (loadable_of_ispow2 hpow)⟩
    · obtain ⟨l, s, hlead, hloads⟩ := load_imm_r_loads hrd val
      have hcode : load_imm (regNum rd) val = load_imm_r (regNum rd) val := by
        funext buf
        rw [load_imm, if_neg hsmall, if_neg hpow]
      have hlo := @BitVec.le_toInt 64 val
      have hhi := @BitVec.toInt_lt 64 val
      refine ⟨_, hcode ▸ hloads.mono (by omega), ?_⟩
      have hslip := ofInt_sub_slip val.toInt l s
      rw [BitVec.ofInt_toInt] at hslip
      rw [hslip]
      constructor
      · intro h
        exact .inr ⟨l, s, hlead, h⟩
      · rintro (⟨hlo', hhi'⟩ | ⟨l', s', hlead', h⟩)
        · -- only 2048 is left, a power of two
          have hval : val = 2048 := BitVec.eq_of_toInt_eq (by
            rw [show (2048 : BitVec 64).toInt = 2048 from rfl]
            omega)
          exact absurd (by rw [hval]; rfl) hpow
        · obtain ⟨rfl, rfl⟩ := hlead.unique hlead'
          exact h

theorem loadsImm_iff {rd : Reg} (hrd : rd ≠ rv_ireg_x0) (val : BitVec 64) :
    LoadsImm rd val ↔ Loadable val.toInt := by
  obtain ⟨v, hloads, hv⟩ := load_imm_loads hrd val
  exact (hloads.loadsImm_iff hrd le_rfl).trans hv

/-- **When `load_imm` loads its immediate**: it always returns, and the code it appends leaves the
value in the register and everything else as it was exactly for the loadable values. -/
theorem load_imm_exact (rd : Reg) (hrd : rd ≠ rv_ireg_x0) (val : BitVec 64) :
    (∃ code, ∀ buf, load_imm (regNum rd) val buf = some (buf ++ code)) ∧
      (LoadsImm rd val ↔ Loadable val.toInt) := by
  obtain ⟨v, ⟨code, -, -, hcode, -⟩, -⟩ := load_imm_loads hrd val
  exact ⟨⟨code, hcode⟩, loadsImm_iff hrd val⟩

/-- The address that the tests load into a0. -/
theorem load_imm_a0 : LoadsImm 10 0x10000000 :=
  (load_imm_exact 10 (by decide) 0x10000000).2.mpr
    (.inr ⟨0x10000000, 0, .word (by decide) (by decide), .inl (by decide)⟩)

/-- `load_imm(rv_ireg_a0, 0xfeedcafebabe)` of `src/src/app/test-jit.cc`. -/
theorem feedcafebabe_not_loaded : ¬ LoadsImm 10 0xfeedcafebabe := by
  have hlead : Leading 0xfeedcafebabe 0x3fbb73 (0 + 12 + 14) :=
    .digit (m := 0x3fbb72bfb) (d := -1346) (by decide) (by decide) (by decide) (by decide)
      (by decide) (by decide)
      (.digit (m := 0x3fbb73) (d := -1029) (by decide) (by decide) (by decide) (by decide)
        (by decide) (by decide) (.word (by decide) (by decide)))
  rw [loadsImm_iff (by decide)]
  rintro (⟨-, h⟩ | ⟨l, s, h, hslip⟩)
  · exact absurd h (by decide)
  · obtain ⟨rfl, rfl⟩ := hlead.unique h
    exact absurd hslip (by decide)

end RvCkpt.Emu
