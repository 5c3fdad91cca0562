import RvCkpt.Asm.Range
import RvCkpt.Lib.BitPattern

/-! # Encoding and decoding patterns

The encoder and the decoder on instructions whose operands are variables. What they give for a
pattern they give for each instruction of the pattern, so one computation settles a codec.
-/

namespace RvCkpt.Asm
set_option autoImplicit false
open BitPattern

/-! ## Instructions with variables -/

/-- A bit of a field. -/
abbrev Var := Field × ℕ

abbrev Sym := Field → Pattern Var

def Decode.bit (dec : Decode) (v : Var) : Bool := (dec.get v.1).getLsbD v.2

namespace Sym

def Models (env : Var → Bool) (s : Sym) (dec : Decode) : Prop :=
  ∀ f, Pattern.Models env (s f) (dec.get f)

def update (s : Sym) (f : Field) (p : Pattern Var) : Sym := fun g => if g = f then p else s g

theorem Models.update {env : Var → Bool} {s : Sym} {dec : Decode} (hs : s.Models env dec)
    {f : Field} {p : Pattern Var} (hp : Pattern.Models env p (dec.get f)) :
    (s.update f p).Models env dec := by
  intro g
  by_cases hg : g = f
  · rw [Sym.update, if_pos hg, hg]
    exact hp
  · rw [Sym.update, if_neg hg]
    exact hs g

end Sym

section
variable {env : Var → Bool}

theorem models_nil : Pattern.Models env [] (0 : BitVec 64) := by
  intro i _
  exact BitVec.getLsbD_zero

theorem models_mask {p : Pattern Var} {x : BitVec 64} (hp : Pattern.Models env p x)
    (m : BitVec 64) : Pattern.Models env (Pattern.mask m.toNat p) (x &&& m) := by
  have hmask := hp.mask m.toNat
  rwa [BitVec.ofNat_toNat, BitVec.setWidth_eq] at hmask

/-- The registers of the compressed codecs have 8 added. -/
theorem models_plus8 {p : Pattern Var} {x : BitVec 64} (hp : Pattern.Models env p x) :
    Pattern.Models env (Pattern.addPow 64 3 p) (x + 8) := hp.addPow (by decide)

/-! ## Operands -/

namespace Seg

def decodePartsPat (l : ℕ) : List Bits → Pattern Var → Pattern Var
  | [], _ => []
  | h :: t, p =>
    Pattern.or
      (Pattern.mask h.mask.toNat
        (if shift l h t < 0 then Pattern.shiftLeft (-shift l h t).toNat p
          else Pattern.shiftRight 64 (shift l h t).toNat p))
      (decodePartsPat l t p)

theorem models_decodeParts (l : ℕ) (parts : List Bits) {p : Pattern Var} {inst : BitVec 64}
    (hp : Pattern.Models env p inst) :
    Pattern.Models env (decodePartsPat l parts p) (decodeParts l parts inst) := by
  induction parts with
  | nil => exact models_nil
  | cons h t ih =>
    refine Pattern.Models.or (models_mask ?_ _) ih
    split
    · exact hp.shiftLeft _
    · exact hp.shiftRight _

def encodePartsPat (l : ℕ) : List Bits → Pattern Var → Pattern Var
  | [], _ => []
  | h :: t, p =>
    Pattern.or
      (if shift l h t < 0 then
          Pattern.shiftRight 64 (-shift l h t).toNat (Pattern.mask h.mask.toNat p)
        else Pattern.shiftLeft (shift l h t).toNat (Pattern.mask h.mask.toNat p))
      (encodePartsPat l t p)

theorem models_encodeParts (l : ℕ) (parts : List Bits) {p : Pattern Var} {imm : BitVec 64}
    (hp : Pattern.Models env p imm) :
    Pattern.Models env (encodePartsPat l parts p) (encodeParts l parts imm) := by
  induction parts with
  | nil => exact models_nil
  | cons h t ih =>
    refine Pattern.Models.or ?_ ih
    split
    · exact (models_mask hp _).shiftRight _
    · exact (models_mask hp _).shiftLeft _

end Seg

namespace Operand

def decodeSegsPat : List Seg → Pattern Var → Pattern Var
  | [], _ => []
  | h :: t, p => Pattern.or (decodeSegsPat t p) (Seg.decodePartsPat h.l h.parts p)

theorem models_decodeSegs (segs : List Seg) {p : Pattern Var} {inst : BitVec 64}
    (hp : Pattern.Models env p inst) :
    Pattern.Models env (decodeSegsPat segs p) (decodeSegs segs inst) := by
  induction segs with
  | nil => exact models_nil
  | cons h t ih => exact ih.or (Seg.models_decodeParts h.l h.parts hp)

def encodeSegsPat : List Seg → Pattern Var → Pattern Var
  | [], _ => []
  | h :: t, p => Pattern.or (encodeSegsPat t p) (Seg.encodePartsPat h.l h.parts p)

theorem models_encodeSegs (segs : List Seg) {p : Pattern Var} {imm : BitVec 64}
    (hp : Pattern.Models env p imm) :
    Pattern.Models env (encodeSegsPat segs p) (encodeSegs segs imm) := by
  induction segs with
  | nil => exact models_nil
  | cons h t ih => exact ih.or (Seg.models_encodeParts h.l h.parts hp)

/-- A signed operand has between 1 and 64 bits. -/
def WellFormed (o : Operand) : Prop := o.signed = true → 0 < o.width ∧ o.width ≤ 64

instance (o : Operand) : Decidable o.WellFormed :=
  inferInstanceAs (Decidable (o.signed = true → 0 < o.width ∧ o.width ≤ 64))

def decodePat (o : Operand) (p : Pattern Var) : Pattern Var :=
  if o.signed then Pattern.signExtend 64 o.width (decodeSegsPat o.segs p)
  else decodeSegsPat o.segs p

theorem models_decode {o : Operand} (ho : o.WellFormed) {p : Pattern Var} {inst : BitVec 64}
    (hp : Pattern.Models env p inst) : Pattern.Models env (o.decodePat p) (o.decode inst) := by
  unfold decodePat decode
  by_cases hs : o.signed = true
  · rw [if_pos hs, if_pos hs]
    obtain ⟨hpos, hle⟩ := ho hs
    exact (models_decodeSegs o.segs hp).signExtend hpos hle 64
  · rw [if_neg hs, if_neg hs]
    exact models_decodeSegs o.segs hp

end Operand

/-! ## The encoder -/

def Part.encodePat (s : Sym) (p : Part) : Pattern Var :=
  Operand.encodeSegsPat p.operand.segs
    (if p.plus8 then Pattern.addPow 64 3 (s p.field) else s p.field)

theorem Part.models_encode {s : Sym} {dec : Decode} (hs : s.Models env dec) (p : Part) :
    Pattern.Models env (p.encodePat s) (p.encode dec) := by
  refine Operand.models_encodeSegs p.operand.segs ?_
  split
  · exact models_plus8 (hs p.field)
  · exact hs p.field

def encodePartsPat (s : Sym) : List Part → Pattern Var
  | [] => []
  | p :: ps => Pattern.or (p.encodePat s) (encodePartsPat s ps)

theorem models_encodeParts {s : Sym} {dec : Decode} (hs : s.Models env dec) (ps : List Part) :
    Pattern.Models env (encodePartsPat s ps) (encodeParts dec ps) := by
  induction ps with
  | nil => exact models_nil
  | cons p ps ih => exact (p.models_encode hs).or ih

/-- The word of an operation. -/
def Op.word (op : Op) (dec : Decode) : BitVec 64 :=
  rv_inst_match op ||| encodeParts dec (rv_inst_codec op).parts

def Op.wordPat (op : Op) (s : Sym) : Pattern Var :=
  Pattern.or (Pattern.constant 64 (rv_inst_match op).toNat)
    (encodePartsPat s (rv_inst_codec op).parts)

theorem Op.models_word {s : Sym} {dec : Decode} (hs : s.Models env dec) (op : Op) :
    Pattern.Models env (op.wordPat s) (op.word dec) := by
  have hmatch : Pattern.Models env (Pattern.constant 64 (rv_inst_match op).toNat)
      (BitVec.ofNat 64 (rv_inst_match op).toNat) := Pattern.models_constant _
  rw [BitVec.ofNat_toNat, BitVec.setWidth_eq] at hmatch
  exact hmatch.or (models_encodeParts hs _)

def Assertion.holds (s : Sym) : Assertion → Bool
  | .eq f n => Pattern.agree 64 (s f) (Pattern.constant 64 n)
  | .rdEqRs1 => Pattern.agree 64 (s .rd) (s .rs1)

theorem Assertion.check_of_holds {s : Sym} {dec : Decode} (hs : s.Models env dec)
    {a : Assertion} (h : a.holds s = true) : a.check dec = true := by
  cases a with
  | eq f n =>
    exact decide_eq_true (Pattern.eq_of_agree (hs f) (Pattern.models_constant n) h)
  | rdEqRs1 =>
    have heq := Pattern.eq_of_agree (hs .rd) (hs .rs1) h
    exact decide_eq_true (zeroExtend_inj (by decide) heq)

theorem encode_inst_of_holds {s : Sym} {dec : Decode} (hs : s.Models env dec)
    (h : (rv_inst_codec dec.op).asserts.all (Assertion.holds s) = true) :
    encode_inst dec = some (dec.op.word dec) := by
  have hall : (rv_inst_codec dec.op).asserts.all (Assertion.check dec) = true := by
    rw [List.all_eq_true] at h ⊢
    intro a ha
    exact Assertion.check_of_holds hs (h a ha)
  exact if_pos hall

/-! ## The decoder -/

namespace Source

def WellFormed : Source → Prop
  | .const _ => True
  | .operand o => o.WellFormed
  | .operand8 o => o.WellFormed

instance (src : Source) : Decidable src.WellFormed :=
  match src with
  | .const _ => inferInstanceAs (Decidable True)
  | .operand o => inferInstanceAs (Decidable o.WellFormed)
  | .operand8 o => inferInstanceAs (Decidable o.WellFormed)

def pat (p : Pattern Var) : Source → Pattern Var
  | .const n => Pattern.constant 64 n
  | .operand o => o.decodePat p
  | .operand8 o => Pattern.addPow 64 3 (o.decodePat p)

theorem models_value {src : Source} (hsrc : src.WellFormed) {p : Pattern Var} {inst : BitVec 64}
    (hp : Pattern.Models env p inst) : Pattern.Models env (src.pat p) (src.value inst) := by
  cases src with
  | const n => exact Pattern.models_constant n
  | operand o => exact Operand.models_decode hsrc hp
  | operand8 o => exact models_plus8 (Operand.models_decode hsrc hp)

end Source

namespace Field

/-- What a field keeps of a value. -/
def store (v : BitVec 64) : Field → BitVec 64
  | .imm => (v.truncate 32).signExtend 64
  | .rd | .rs1 | .rs2 | .rs3 => (v.truncate 8).zeroExtend 64
  | .rm => (v.truncate 3).zeroExtend 64
  | .aq | .rl => (v.truncate 1).zeroExtend 64
  | .pred | .succ => (v.truncate 4).zeroExtend 64

def storePat (p : Pattern Var) : Field → Pattern Var
  | .imm => Pattern.signExtend 64 32 p
  | .rd | .rs1 | .rs2 | .rs3 => p.take 8
  | .rm => p.take 3
  | .aq | .rl => p.take 1
  | .pred | .succ => p.take 4

theorem models_store (f : Field) {p : Pattern Var} {v : BitVec 64}
    (hp : Pattern.Models env p v) : Pattern.Models env (f.storePat p) (f.store v) := by
  cases f with
  | imm => exact hp.signExtend (by decide) (by decide) 64
  | rd | rs1 | rs2 | rs3 | rm | aq | rl | pred | succ => exact hp.take (by decide) 64

end Field

end

theorem Decode.get_set (dec : Decode) (f g : Field) (v : BitVec 64) :
    (dec.set f v).get g = if g = f then f.store v else dec.get g := by
  cases f <;> cases g <;> rfl

section
variable {env : Var → Bool}

def assignPat (p : Pattern Var) (s : Sym) (a : Field × Source) : Sym :=
  s.update a.1 (a.1.storePat (a.2.pat p))

theorem models_assigns (assigns : List (Field × Source)) (hwf : ∀ a ∈ assigns, a.2.WellFormed)
    {p : Pattern Var} {inst : BitVec 64} (hp : Pattern.Models env p inst) {s : Sym}
    {dec : Decode} (hs : s.Models env dec) :
    (assigns.foldl (assignPat p) s).Models env
      (assigns.foldl (fun dec a => dec.set a.1 (a.2.value inst)) dec) := by
  induction assigns generalizing s dec with
  | nil => exact hs
  | cons a assigns ih =>
    refine ih (fun b hb => hwf b (List.mem_cons_of_mem _ hb)) ?_
    intro g
    rw [Decode.get_set, assignPat, Sym.update]
    by_cases hg : g = a.1
    · rw [if_pos hg, if_pos hg]
      exact Field.models_store a.1 (Source.models_value (hwf a List.mem_cons_self) hp)
    · rw [if_neg hg, if_neg hg]
      exact hs g

theorem assigns_wellFormed (codec : Codec) : ∀ a ∈ codec.assigns, a.2.WellFormed := by
  cases codec <;> decide

/-! ## Opcodes -/

def Disc.bounds (b : Bounds) : Disc → Bounds
  | [] => ⟨0, 0⟩
  | (shift, mask) :: d => ((b.shiftRight shift).mask (mask % 2 ^ 64)).or (Disc.bounds b d)

theorem Disc.holds_bounds {b : Bounds} {inst : BitVec 64} (hb : b.Holds inst.toNat) (d : Disc) :
    (Disc.bounds b d).Holds (d.value inst).toNat := by
  induction d with
  | nil => exact Bounds.Holds.zero
  | cons c d ih =>
    rw [Disc.value, BitVec.toNat_or, BitVec.toNat_and, BitVec.toNat_ushiftRight, BitVec.toNat_ofNat]
    exact ((hb.shiftRight c.1).mask _).or ih

namespace Switch

/-- The operations of all words within the bounds, where the switch cannot tell them apart. -/
def resolve (b : Bounds) : Switch → Option (Isa → Op)
  | .isa rv32 rv64 rv128 => some fun isa =>
    match isa with
    | .rv32 => rv32
    | .rv64 => rv64
    | .rv128 => rv128
  | .test d n yes no =>
    match (Disc.bounds b d).equals (n % 2 ^ 64) with
    | some true => yes.resolve b
    | some false => no.resolve b
    | none => none

theorem eval_of_resolve {b : Bounds} {inst : BitVec 64} (hb : b.Holds inst.toNat)
    (sw : Switch) {ops : Isa → Op} (h : sw.resolve b = some ops) (isa : Isa) :
    sw.eval isa inst = ops isa := by
  induction sw with
  | isa rv32 rv64 rv128 =>
    have hops := congrFun (Option.some.inj h) isa
    cases isa <;> exact hops
  | test d n yes no ihyes ihno =>
    have hiff : d.value inst = BitVec.ofNat 64 n ↔ (d.value inst).toNat = n % 2 ^ 64 := by
      rw [← BitVec.toNat_inj, BitVec.toNat_ofNat]
    rw [resolve] at h
    cases hr : (Disc.bounds b d).equals (n % 2 ^ 64) with
    | none =>
      rw [hr] at h
      cases h
    | some r =>
      have hres := (Disc.holds_bounds hb d).equals hr
      rw [hr] at h
      cases r with
      | true =>
        rw [eval, if_pos (hiff.mpr (hres.mpr rfl))]
        exact ihyes h
      | false =>
        have hne : d.value inst ≠ BitVec.ofNat 64 n :=
          fun heq => Bool.false_ne_true (hres.mp (hiff.mp heq))
        rw [eval, if_neg hne]
        exact ihno h

end Switch

/-- The fields of all decoded words of a pattern. -/
def Codec.decodePat (codec : Codec) (p : Pattern Var) : Sym :=
  codec.assigns.foldl (assignPat p) fun _ => []

theorem foldl_set_op (assigns : List (Field × Source)) (inst : BitVec 64) (dec : Decode) :
    (assigns.foldl (fun dec a => dec.set a.1 (a.2.value inst)) dec).op = dec.op ∧
      (assigns.foldl (fun dec a => dec.set a.1 (a.2.value inst)) dec).codec = dec.codec := by
  induction assigns generalizing dec with
  | nil => exact ⟨rfl, rfl⟩
  | cons a assigns ih =>
    have hset : (dec.set a.1 (a.2.value inst)).op = dec.op ∧
        (dec.set a.1 (a.2.value inst)).codec = dec.codec := by
      cases a.1 <;> exact ⟨rfl, rfl⟩
    obtain ⟨hop, hcodec⟩ := ih (dec.set a.1 (a.2.value inst))
    exact ⟨hop.trans hset.1, hcodec.trans hset.2⟩

theorem decode_inst_op_codec (isa : Isa) (inst : BitVec 64) :
    (decode_inst isa inst).op = decode_inst_op.eval isa inst ∧
      (decode_inst isa inst).codec = rv_inst_codec (decode_inst_op.eval isa inst) :=
  foldl_set_op _ inst _

theorem models_init (op : Op) (codec : Codec) :
    Sym.Models env (fun _ => []) { Decode.init with op := op, codec := codec } := by
  intro f
  rw [Decode.get_withOp]
  cases f <;> exact models_nil

/-- The fields of a decoded word are those of its pattern. -/
theorem models_decode_inst (isa : Isa) {p : Pattern Var} {inst : BitVec 64}
    (hp : Pattern.Models env p inst) :
    ((rv_inst_codec (decode_inst isa inst).op).decodePat p).Models env (decode_inst isa inst) := by
  rw [(decode_inst_op_codec isa inst).1]
  exact models_assigns _ (assigns_wellFormed _) hp (models_init _ _)

/-- The operations, by instruction set, of all words of a pattern. -/
def opsOf (p : Pattern Var) : Option (Isa → Op) :=
  decode_inst_op.resolve (Pattern.bounds 64 p)

theorem op_of_opsOf {p : Pattern Var} {inst : BitVec 64} (hp : Pattern.Models env p inst)
    {ops : Isa → Op} (hops : opsOf p = some ops) (isa : Isa) :
    (decode_inst isa inst).op = ops isa := by
  rw [(decode_inst_op_codec isa inst).1]
  exact Switch.eval_of_resolve hp.bounds decode_inst_op hops isa

end

end RvCkpt.Asm
