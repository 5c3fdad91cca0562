import RvCkpt.Asm.Compress
import RvCkpt.Asm.Relocate
import RvCkpt.Emu.LoadImm

/-! # Patched immediates

The addresses that instructions form with their immediates, and what another immediate in their
place gives when the word is encoded, stored and decoded again.
-/

namespace RvCkpt.Emu
open Asm ByteMem Isa
set_option autoImplicit false

/-! ## High and low parts -/

/-- A number of `width` bits with a sign, a multiple of `2 ^ low`. -/
def Signed (width low : ℕ) (x : BitVec 64) : Prop :=
  -2 ^ (width - 1) ≤ x.toInt ∧ x.toInt < 2 ^ (width - 1) ∧ 2 ^ low ∣ x.toNat

instance (width low : ℕ) (x : BitVec 64) : Decidable (Signed width low x) :=
  inferInstanceAs (Decidable (_ ∧ _ ∧ _))

/-- `upper` without the truncation. -/
def hi20 (x : BitVec 64) : BitVec 64 := ((x + 0x800) >>> 12) <<< 12

theorem hi20_toNat (x : BitVec 64) : (hi20 x).toNat = (x.toNat + 2048) % 2 ^ 64 / 4096 * 4096 := by
  rw [hi20, BitVec.toNat_shiftLeft, BitVec.toNat_ushiftRight, BitVec.toNat_add, Nat.shiftLeft_eq,
    Nat.shiftRight_eq_div_pow]
  exact Nat.mod_eq_of_lt (by omega)

theorem dvd_hi20 (x : BitVec 64) : 2 ^ 12 ∣ (hi20 x).toNat := by
  rw [hi20_toNat]
  exact Nat.dvd_mul_left _ _

theorem sx_upper (x : BitVec 64) : sx (upper x) = hi20 x ↔ Signed 32 12 (hi20 x) := by
  constructor
  · intro h
    refine ⟨?_, ?_, dvd_hi20 x⟩
    · rw [← h, sx, BitVec.toInt_signExtend_of_le (by decide)]
      exact BitVec.le_toInt _
    · rw [← h, sx, BitVec.toInt_signExtend_of_le (by decide)]
      exact BitVec.toInt_lt
  · rintro ⟨hlo, hhi, -⟩
    exact signExtend_truncate hlo hhi

/-- The part of a number below `hi20`, with its sign. -/
theorem sub_hi20_toInt (x : BitVec 64) : (x - hi20 x).toInt = (x.toNat : ℤ).bmod 4096 := by
  have hx := x.isLt
  have hcases := toInt_cases (x - hi20 x)
  have hsub : (x - hi20 x).toNat = (2 ^ 64 - (hi20 x).toNat + x.toNat) % 2 ^ 64 :=
    BitVec.toNat_sub ..
  rw [hi20_toNat] at hsub
  rw [Int.bmod_def]
  split <;> omega

theorem sx_lower (x : BitVec 64) : sx (lower x) = x - hi20 x := by
  have hlow : lower x = (x - hi20 x).truncate 32 := by
    have hupper : (sx (upper x)).toNat % 2 ^ 32 = (hi20 x).toNat % 2 ^ 32 := by
      rw [sx, BitVec.toNat_signExtend, BitVec.toNat_setWidth_of_le (by decide)]
      show (((hi20 x).setWidth 32).toNat + _) % 2 ^ 32 = _
      rw [BitVec.toNat_setWidth]
      split <;> omega
    have hlt := (sx (upper x)).isLt
    have hlt' := (hi20 x).isLt
    apply BitVec.eq_of_toNat_eq
    show ((x - sx (upper x)).setWidth 32).toNat = ((x - hi20 x).setWidth 32).toNat
    rw [BitVec.toNat_setWidth, BitVec.toNat_setWidth, BitVec.toNat_sub, BitVec.toNat_sub]
    omega
  have hint := sub_hi20_toInt x
  have hdigit := bmod_digit x.toNat
  rw [hlow]
  exact signExtend_truncate (by omega) (by omega)

theorem lower_signed (x : BitVec 64) : Signed 12 0 (sx (lower x)) := by
  have hint := sub_hi20_toInt x
  have hdigit := bmod_digit x.toNat
  rw [sx_lower]
  exact ⟨by omega, by omega, Nat.one_dvd _⟩

theorem hi20_add {h l : BitVec 64} (hh : 2 ^ 12 ∣ h.toNat) (hlo : -2048 ≤ l.toInt)
    (hhi : l.toInt < 2048) : hi20 (h + l) = h := by
  apply BitVec.eq_of_toNat_eq
  have hcases := toInt_cases l
  have hlt := h.isLt
  rw [hi20_toNat, BitVec.toNat_add]
  omega

/-! ## Addresses -/

/-- What an instruction adds its immediate to, `none` where it forms no address. -/
def origin (op : Isa.Op) (pc base : BitVec 64) : Option (BitVec 64) :=
  match op with
  | .lui => some 0
  | .auipc | .jal | .branch _ => some pc
  | .jalr | .imm .addi | .load _ | .store _ | .fload _ | .fstore _ => some base
  | _ => none

/-- Where an instruction gets with the sum: `jalr` drops the lowest bit of the distance. -/
def land (op : Isa.Op) (pc sum : BitVec 64) : BitVec 64 :=
  if op = .jalr then pc + ((sum - pc) &&& ~~~1#64) else sum

def address (dec : Isa.Decode) (s : Machine) : Option (BitVec 64) :=
  (origin dec.op s.pc (s.ireg dec.rs1)).map fun o => land dec.op s.pc (o + sx dec.imm)

/-- The interpreter goes to the address, leaves it in `rd`, or reads or writes memory there. -/
def Uses (host : Host) (dec : Isa.Decode) (s : Machine) (length addr : BitVec 64) : Prop :=
  let out := execInst host dec s length
  match dec.op with
  | .lui | .auipc | .imm .addi => out = (s.setReg dec.rd addr, length)
  | .jal | .jalr => s.pc + out.2 = addr
  | .branch op =>
    out.2 = if op.taken (s.ireg dec.rs1) (s.ireg dec.rs2) then addr - s.pc else length
  | .load op => out = (s.setReg dec.rd (op.extend (s.mem.read addr.toNat op.bytes)), length)
  | .store op => out = (s.setMem (s.mem.write addr.toNat op.bytes (s.ireg dec.rs2)), length)
  | .fload p =>
    out = (s.setFreg dec.rd (box p ((s.mem.read addr.toNat p.bytes).truncate p.bits)), length)
  | .fstore p => out = (s.setMem (s.mem.write addr.toNat p.bytes (s.freg dec.rs2)), length)
  | _ => False

/-- The address is the one that the interpreter uses. -/
theorem uses_of_address {dec : Isa.Decode} {s : Machine} {addr : BitVec 64}
    (h : address dec s = some addr) (host : Host) (length : BitVec 64) :
    Uses host dec s length addr := by
  obtain ⟨op, rd, rs1, rs2, rs3, imm, rm⟩ := dec
  obtain ⟨o, ho, rfl⟩ := Option.map_eq_some_iff.mp h
  cases op with
  | lui =>
    obtain rfl := Option.some.inj ho
    exact congrArg (fun v => (s.setReg rd v, length)) (BitVec.zero_add (sx imm)).symm
  | branch op =>
    obtain rfl := Option.some.inj ho
    have hback : s.pc + sx imm - s.pc = sx imm := by
      rw [BitVec.add_comm, BitVec.add_sub_cancel]
    show (if _ then sx imm else length) = if _ then s.pc + sx imm - s.pc else length
    rw [hback]
  | imm op =>
    cases op with
    | addi =>
      obtain rfl := Option.some.inj ho
      rfl
    | _ => cases ho
  | auipc | jal | jalr | load op | store op | fload p | fstore p =>
    obtain rfl := Option.some.inj ho
    rfl
  | _ => cases ho

/-- Wherever it is executed at `pc`, with `base` in the register that it reads, the instruction
refers to the address. -/
structure Points (pc : BitVec 64) (base : Option (BitVec 64)) (dec : Isa.Decode)
    (addr : BitVec 64) : Prop where
  address : ∀ s : Machine, s.pc = pc → (∀ b ∈ base, s.ireg dec.rs1 = b) →
    address dec s = some addr
  uses : ∀ s : Machine, s.pc = pc → (∀ b ∈ base, s.ireg dec.rs1 = b) →
    ∀ host, Uses host dec s 4 addr

/-- The base is given for the instructions that read it. -/
def Based (op : Isa.Op) (base : Option (BitVec 64)) : Prop :=
  base = none → ∀ pc b c, origin op pc b = origin op pc c

theorem points_of_origin {pc : BitVec 64} {base : Option (BitVec 64)} (dec : Isa.Decode)
    (hbase : Based dec.op base) {o : BitVec 64} (ho : origin dec.op pc (base.getD 0) = some o) :
    Points pc base dec (land dec.op pc (o + sx dec.imm)) := by
  have haddress : ∀ s : Machine, s.pc = pc → (∀ b ∈ base, s.ireg dec.rs1 = b) →
      address dec s = some (land dec.op pc (o + sx dec.imm)) := by
    intro s hpc hb
    have hsame : origin dec.op s.pc (s.ireg dec.rs1) = some o := by
      rw [← ho, hpc]
      cases base with
      | none => exact hbase rfl _ _ _
      | some b => rw [hb b rfl, Option.getD_some]
    rw [address, hsame, hpc]
    rfl
  exact ⟨haddress, fun s hpc hb host => uses_of_address (haddress s hpc hb) host 4⟩

theorem Points.origin {pc : BitVec 64} {base : Option (BitVec 64)} {dec : Isa.Decode}
    {addr : BitVec 64} (h : Points pc base dec addr) :
    ∃ o, Emu.origin dec.op pc (base.getD 0) = some o ∧
      land dec.op pc (o + sx dec.imm) = addr := by
  have hmachine := h.address { reset with pc := pc, ireg := fun _ => base.getD 0 } rfl
    fun b hb => by rw [hb, Option.getD_some]
  exact Option.map_eq_some_iff.mp hmachine

/-! ## Another immediate -/

def forms (op : Isa.Op) : Bool := (origin op 0 0).isSome

/-- The width of the immediate and its zero bits. -/
def field : Isa.Op → ℕ × ℕ
  | .jal => (21, 1)
  | .branch _ => (13, 1)
  | .lui | .auipc => (32, 12)
  | _ => (12, 0)

def ImmFits (op : Isa.Op) (x : BitVec 64) : Prop := Signed (field op).1 (field op).2 x

theorem forms_table :
    (Op.all.all fun op => !forms (execCase op) ||
      isWordOp op && decide (rv_inst_decomp .rv64 op = .illegal) &&
        decide (op.range .imm = .signed (field (execCase op)).1 (field (execCase op)).2)) =
          true := by
  decide +kernel

theorem forms_spec {op : Asm.Op} (h : forms (execCase op) = true) :
    isWordOp op = true ∧ rv_inst_decomp .rv64 op = .illegal ∧
      op.range .imm = .signed (field (execCase op)).1 (field (execCase op)).2 := by
  have htable := List.all_eq_true.mp forms_table op op.mem_all
  rw [h, Bool.not_true, Bool.false_or] at htable
  simp only [Bool.and_eq_true, decide_eq_true_eq] at htable
  exact ⟨htable.1.1, htable.1.2, htable.2⟩

/-- The operation that `decompress_inst` leaves. -/
def decompressed (op : Asm.Op) : Asm.Op :=
  if rv_inst_decomp .rv64 op ≠ .illegal then rv_inst_decomp .rv64 op else op

theorem decode_inst_rv64_op (inst : BitVec 64) :
    (decode_inst_rv64 inst).op = decompressed (decode_inst .rv64 inst).op := by
  simp only [decode_inst_rv64, decompress_inst, decompressed]
  split <;> rfl

/-- The operands of a compressed instruction are in the ranges of the operation that it becomes. -/
theorem decompressed_table :
    (Op.all.all fun op => !forms (execCase (decompressed op)) || Field.all.all fun f =>
      ((decompressed op).range f).admits ((rv_inst_codec op).decodePat anyWord f)
        ((rv_inst_codec op).decodePat anyWord .rs1)) = true := by
  decide +kernel

theorem decoded_inRange {inst : BitVec 64}
    (h : forms (execCase (decode_inst_rv64 inst).op) = true) :
    (decode_inst_rv64 inst).InRange := by
  intro f
  have hget := decompress_inst_get .rv64 (decode_inst .rv64 inst)
  have hmodels := models_decode_inst .rv64 (models_anyWord inst)
  have htable := List.all_eq_true.mp decompressed_table _ (decode_inst .rv64 inst).op.mem_all
  rw [← decode_inst_rv64_op, h, Bool.not_true, Bool.false_or] at htable
  have hfield := List.all_eq_true.mp htable f (by cases f <;> decide)
  have hf := hmodels f
  have hrs1 := hmodels .rs1
  rw [← hget] at hf hrs1
  exact Range.holds_of_admits (Op.range_wellFormed _ f) hf hrs1 hfield

theorem decoded_immFits {inst : BitVec 64} (h : forms (execCase (decode_inst_rv64 inst).op) = true) :
    ImmFits (execCase (decode_inst_rv64 inst).op) (sx (decode_inst_rv64 inst).imm) := by
  have himm := decoded_inRange h .imm
  rw [(forms_spec h).2.2] at himm
  exact himm

theorem get_withImm (dec : Asm.Decode) (imm : BitVec 32) {f : Asm.Field} (hf : f ≠ .imm) :
    { dec with imm := imm }.get f = dec.get f := by
  cases f with
  | imm => exact absurd rfl hf
  | _ => rfl

theorem Range.holds_congr {a b : Asm.Decode} (h : a.get .rs1 = b.get .rs1) {x : BitVec 64}
    {r : Asm.Range} (hr : r.Holds a x) : r.Holds b x := by
  cases r with
  | likeRs1 => exact Eq.trans (b := a.get .rs1) hr h
  | _ => exact hr

/-- The instruction with another immediate that fits is encoded to a word that decodes to it. -/
theorem exists_patched {inst : BitVec 64}
    (h : forms (execCase (decode_inst_rv64 inst).op) = true) {imm : BitVec 32}
    (hfits : ImmFits (execCase (decode_inst_rv64 inst).op) (sx imm)) :
    ∃ word, encode_inst { decode_inst_rv64 inst with imm := imm } = some word ∧
      WordOf word { ofDecode (decode_inst_rv64 inst) with imm := imm } := by
  obtain ⟨hword, -, himm⟩ := forms_spec h
  have hrange : { decode_inst_rv64 inst with imm := imm }.InRange := by
    intro f
    by_cases hf : f = .imm
    · rw [hf, himm]
      exact hfits
    · rw [get_withImm _ _ hf]
      exact Range.holds_congr (get_withImm _ _ (by decide)).symm (decoded_inRange h f)
  exact exists_wordOf hword hrange

/-- The words of these operations have four bytes, so that nothing is decompressed. -/
theorem WordOf.decodes_rv64 {inst : BitVec 64} {dec : Isa.Decode} (h : WordOf inst dec)
    (hforms : forms dec.op = true) : ofDecode (decode_inst_rv64 inst) = dec := by
  have hop : execCase (decode_inst .rv64 inst).op = dec.op := congrArg Isa.Decode.op h.decodes
  have hdecomp := (forms_spec (hop ▸ hforms)).2.1
  rw [decode_inst_rv64, decompress_inst, if_neg (not_not_intro hdecomp)]
  exact h.decodes

/-! ## Patched sections -/

/-- The instruction at an offset and its length. -/
def decoded (a : Assembler) (k : SectionOffset) : Option (Isa.Decode × ℕ) :=
  (a.inst_fetch k).map fun fetched => (ofDecode (decode_inst_rv64 fetched.1), fetched.2)

theorem inst_fetch_eq_some {a : Assembler} {k : SectionOffset} {inst : BitVec 64} {length : ℕ} :
    a.inst_fetch k = some (inst, length) ↔
      ∃ s, a.sections[k.sec]? = some s ∧ instFetch s.buf k.offset = (inst, length) ∧
        k.offset + max 4 length ≤ s.size := by
  unfold Assembler.inst_fetch
  cases a.sections[k.sec]? with
  | none => simp
  | some s =>
    constructor
    · intro h
      simp only at h
      split at h
      · rename_i hle
        have heq := Option.some.inj h
        exact ⟨s, rfl, heq, by rwa [heq] at hle⟩
      · cases h
    · rintro ⟨s', hs, heq, hle⟩
      obtain rfl := Option.some.inj hs
      simp only [heq, if_pos hle]

theorem store_eq_some {a a' : Assembler} {k : SectionOffset} {n : ℕ} {x : BitVec 64} :
    a.store k n x = some a' ↔
      ∃ s, a.sections[k.sec]? = some s ∧ k.offset + n ≤ s.size ∧
        a' = { a with sections := a.sections.set k.sec (s.store k.offset n x) } := by
  unfold Assembler.store
  cases a.sections[k.sec]? with
  | none => simp
  | some s =>
    simp only [Option.some.injEq, exists_eq_left']
    split <;> rename_i hle
    · simp [hle, eq_comm]
    · simp [hle]

/-- The `n` bytes at one offset and the `m` bytes at another do not overlap. -/
def Apart (k : SectionOffset) (n : ℕ) (k' : SectionOffset) (m : ℕ) : Prop :=
  k.sec ≠ k'.sec ∨ k.offset + n ≤ k'.offset ∨ k'.offset + m ≤ k.offset

theorem instFetch_write {m : Mem} {at' n addr : ℕ} {x : BitVec 64}
    (h : at' + n ≤ addr ∨ addr + max 4 (instFetch m addr).2 ≤ at') :
    instFetch (m.write at' n x) addr = instFetch m addr := by
  have hread : (m.write at' n x).read addr 4 = m.read addr 4 :=
    Mem.read_write_of_disjoint (by omega)
  have hrest : ∀ j, 4 + j ≤ (instFetch m addr).2 →
      (m.write at' n x).read (addr + 4) j = m.read (addr + 4) j :=
    fun j hj => Mem.read_write_of_disjoint (by omega)
  simp only [instFetch, hread] at hrest ⊢
  split_ifs with h2 h4 h6 h8
  · rfl
  · rfl
  · rw [hrest 2 (by rw [if_neg h2, if_neg h4, if_pos h6])]
  · rw [hrest 4 (by rw [if_neg h2, if_neg h4, if_neg h6, if_pos h8])]
  · rfl

/-- A store leaves the instructions elsewhere as they are. -/
theorem inst_fetch_store {a a' : Assembler} {k k' : SectionOffset} {n : ℕ} {x : BitVec 64}
    (hstore : a.store k n x = some a') {inst : BitVec 64} {length : ℕ}
    (h : a.inst_fetch k' = some (inst, length)) (hapart : Apart k n k' (max 4 length)) :
    a'.inst_fetch k' = some (inst, length) := by
  obtain ⟨s, hs, -, rfl⟩ := store_eq_some.mp hstore
  obtain ⟨s', hs', hfetch, hle⟩ := inst_fetch_eq_some.mp h
  by_cases hsec : k.sec = k'.sec
  · rw [← hsec, hs] at hs'
    obtain rfl := Option.some.inj hs'
    refine inst_fetch_eq_some.mpr ⟨s.store k.offset n x, ?_, ?_, hle⟩
    · rw [← hsec]
      exact List.getElem?_set_self (List.getElem?_eq_some_iff.mp hs).1
    · have hoff := hapart.resolve_left (not_not_intro hsec)
      rw [← hfetch]
      exact instFetch_write (by rwa [hfetch])
  · refine inst_fetch_eq_some.mpr ⟨s', ?_, hfetch, hle⟩
    rw [List.getElem?_set_ne hsec, hs']

theorem inst_fetch_store_same {a a' : Assembler} {k : SectionOffset} {inst : BitVec 64}
    {dec : Isa.Decode} (hword : WordOf inst dec) (hstore : a.store k 4 inst = some a') :
    a'.inst_fetch k = some (inst, 4) := by
  obtain ⟨s, hs, hle, rfl⟩ := store_eq_some.mp hstore
  refine inst_fetch_eq_some.mpr ⟨s.store k.offset 4 inst,
    List.getElem?_set_self (List.getElem?_eq_some_iff.mp hs).1, ?_, hle⟩
  have hread := Mem.read_write_same s.buf k.offset 4 inst
  rw [Nat.mod_eq_of_lt (show inst.toNat < 256 ^ 4 from hword.lt), BitVec.ofNat_toNat,
    BitVec.setWidth_eq] at hread
  simp only [instFetch, Section.store, hread]
  rw [if_neg (not_not_intro hword.low), if_pos hword.mid]

/-- `reencode_inst` with an immediate that fits: the instruction at the offset is the one that was
there, with this immediate. -/
theorem reencode_patched {a : Assembler} {k : SectionOffset} {inst : BitVec 64} {length : ℕ}
    (hfetch : a.inst_fetch k = some (inst, length))
    (hforms : forms (execCase (decode_inst_rv64 inst).op) = true) (imm : BitVec 32)
    (hfits : ImmFits (execCase (decode_inst_rv64 inst).op) (sx imm)) :
    ∃ a' word, a.reencode_inst { decode_inst_rv64 inst with imm := imm } k = some a' ∧
      a.store k 4 word = some a' ∧
        decoded a' k = some ({ ofDecode (decode_inst_rv64 inst) with imm := imm }, 4) := by
  obtain ⟨word, henc, hword⟩ := exists_patched hforms hfits
  obtain ⟨s, hs, -, hle⟩ := inst_fetch_eq_some.mp hfetch
  have hlength : inst_length word = 4 := by
    rw [inst_length, if_neg (not_not_intro hword.low), if_pos hword.mid]
  have hstore : a.store k 4 word =
      some { a with sections := a.sections.set k.sec (s.store k.offset 4 word) } :=
    store_eq_some.mpr ⟨s, hs, by omega, rfl⟩
  refine ⟨_, word, ?_, hstore, ?_⟩
  · simp only [Assembler.reencode_inst, henc, hlength]
    exact hstore
  · rw [decoded, inst_fetch_store_same hword hstore, Option.map_some, hword.decodes_rv64 hforms]

end RvCkpt.Emu
