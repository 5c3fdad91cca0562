import RvCkpt.Asm.Assembler
import RvCkpt.Asm.Sections
import RvCkpt.Isa.Exec

/-! # Relocation

`relocate` and `link` of `assembler` (`src/src/asm/assembler.cc`). `none` is undefined behaviour:
an access outside a section, or a failed assertion of an encoder.
-/

namespace RvCkpt.Asm
open ByteMem
set_option autoImplicit false

/-- `decode_inst_rv64`, which also decompresses. -/
def decode_inst_rv64 (inst : BitVec 64) : Decode := decompress_inst .rv64 (decode_inst .rv64 inst)

/-- `upper` in `relocate`. -/
def upper (offset : BitVec 64) : BitVec 32 := (((offset + 0x800) >>> 12) <<< 12).truncate 32

/-- What is left below `upper`, which is widened with its sign. -/
def lower (offset : BitVec 64) : BitVec 32 := (offset - (upper offset).signExtend 64).truncate 32

def Section.store (offset n : ℕ) (x : BitVec 64) (s : Section) : Section :=
  { s with buf := s.buf.write offset n x }

namespace Assembler
variable (a : Assembler)

/-! ## Addresses -/

/-- The final address of an offset in a section. -/
def address (k : SectionOffset) : Option (BitVec 64) :=
  a.sections[k.sec]?.map fun s => s.offset + BitVec.ofNat 64 k.offset

def label_offset (label : Label) : Option (BitVec 64) := a.address label.offset

def reloc_offset (reloc : Reloc) : Option (BitVec 64) := a.address reloc.offset

/-- `label_off` in `relocate`, with the values of constants. -/
def symbol_offset (label : Label) : Option (BitVec 64) :=
  if label.offset.sec = SHN_ABS then some (BitVec.ofNat 64 label.offset.offset)
  else a.label_offset label

/-! ## Instructions -/

/-- `inst_fetch` in a section. Four bytes are read even if the instruction has two. -/
def inst_fetch (k : SectionOffset) : Option (BitVec 64 × ℕ) :=
  match a.sections[k.sec]? with
  | none => none
  | some s =>
    let fetched := Isa.instFetch s.buf k.offset
    if k.offset + max 4 fetched.2 ≤ s.size then some fetched else none

/-- The low `n` bytes are stored in a section. -/
def store (k : SectionOffset) (n : ℕ) (x : BitVec 64) : Option Assembler :=
  match a.sections[k.sec]? with
  | none => none
  | some s =>
    if k.offset + n ≤ s.size then
      some { a with sections := a.sections.set k.sec (s.store k.offset n x) }
    else none

def reencode_inst (dec : Decode) (k : SectionOffset) : Option Assembler :=
  match encode_inst dec with
  | none => none
  | some inst =>
    match inst_length inst with
    | 2 => a.store k 2 inst
    | 4 => a.store k 4 inst
    | _ => some a

/-! ## Relocations -/

/-- `reloc->name = name` in the table's entry. -/
def rename (reloc : Reloc) (name : List Char) : Assembler :=
  { a with
    relocs_byoffset := a.relocs_byoffset.insert reloc.offset { reloc with name := name } }

/-- The distance that a low part belongs to, from the relocation that its label marks to that
one's symbol: `some none` where `relocate` returns false. -/
def pcrel_distance (reloc : Reloc) (label_off : BitVec 64) : Option (Option (BitVec 64)) :=
  match a.relocs_byoffset.get? (section_offset reloc.offset.sec label_off.toNat) with
  | none => some none
  | some ri => do
    let reloc_off ← a.reloc_offset ri
    match a.lookup_name ri.name with
    | none => some none
    | some label => do
      let label_off ← a.label_offset label
      some (some (label_off - reloc_off))

def relocate (reloc : Reloc) : Option (Assembler × Bool) :=
  match a.lookup_label reloc reloc.name with
  | none => some (a, false)
  | some label => do
    let a := a.rename reloc label.name
    let label_off ← a.symbol_offset label
    let reloc_off ← a.reloc_offset reloc
    let (inst, pc_offset) ← a.inst_fetch reloc.offset
    let dec := decode_inst_rv64 inst
    let re_encode (a : Assembler) (imm : BitVec 32) : Option (Assembler × Bool) :=
      (a.reencode_inst { dec with imm := imm } reloc.offset).map (·, true)
    match reloc.rela_type with
    | .R_RISCV_JAL | .R_RISCV_BRANCH => re_encode a ((label_off - reloc_off).truncate 32)
    | .R_RISCV_HI20 => re_encode a (upper label_off)
    | .R_RISCV_LO12_I | .R_RISCV_LO12_S => re_encode a (lower label_off)
    | .R_RISCV_PCREL_HI20 => re_encode a (upper (label_off - reloc_off))
    | .R_RISCV_PCREL_LO12_I | .R_RISCV_PCREL_LO12_S =>
      match ← a.pcrel_distance reloc label_off with
      | none => some (a, false)
      | some distance => re_encode a (lower distance)
    | .R_RISCV_CALL => do
      let next := section_offset reloc.offset.sec (reloc.offset.offset + pc_offset)
      let (inst, _) ← a.inst_fetch next
      let jalr := { decode_inst_rv64 inst with imm := lower (label_off - reloc_off) }
      let a ← a.reencode_inst jalr next
      re_encode a (upper (label_off - reloc_off))
    | .R_RISCV_32 => (a.store reloc.offset 4 label_off).map (·, true)
    | .R_RISCV_64 => (a.store reloc.offset 8 label_off).map (·, true)
    | .other => some (a, true)

/-! ## Linking -/

/-- The sections one behind the other. -/
def place : BitVec 64 → List Section → List Section
  | _, [] => []
  | offset, s :: ss => { s with offset := offset } :: place (offset + BitVec.ofNat 64 s.size) ss

end Assembler

/-- The loop of `link`, which only counts the relocations that fail. -/
def relocateAll (a : Assembler) : List SectionOffset → Option Assembler
  | [] => some a
  | k :: ks =>
    match a.relocs_byoffset.get? k with
    | none => relocateAll a ks
    | some reloc => do
      let (a, _) ← a.relocate reloc
      relocateAll a ks

def Assembler.link (a : Assembler) : Option Assembler :=
  relocateAll { a with sections := Assembler.place 0 a.sections }
    (a.relocs_byoffset.entries.map Prod.fst)

end RvCkpt.Asm
