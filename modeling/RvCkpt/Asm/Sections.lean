import RvCkpt.Lib.Bytes
import RvCkpt.Lib.OrderedMap
import RvCkpt.Lib.Text
import Mathlib.Data.List.Nodup
import Mathlib.Data.List.Perm.Subperm
import Mathlib.Data.Prod.Lex

/-! # Sections, labels and relocations

The tables of `assembler` (`src/src/asm/assembler.h`) and the calls that fill them and look labels
up (`src/src/asm/assembler.cc`).
-/

namespace RvCkpt.Asm
open ByteMem
set_option autoImplicit false

def SHN_ABS : ℕ := 0xfff1

/-- A section's index and an offset in it, in the order of `std::pair`. -/
abbrev SectionOffset := ℕ ×ₗ ℕ

def section_offset (sec offset : ℕ) : SectionOffset := toLex (sec, offset)

namespace SectionOffset

def sec (k : SectionOffset) : ℕ := (ofLex k).1

def offset (k : SectionOffset) : ℕ := (ofLex k).2

end SectionOffset

/-- The bytes are those of `buf` below the size. -/
structure Section where
  name : List Char
  offset : BitVec 64
  size : ℕ
  buf : Mem

structure Label where
  name : List Char
  offset : SectionOffset
  num : BitVec 64
  deriving DecidableEq

/-- `rela_type`, `other` one that `relocate` has no case for. -/
inductive Rela where
  | R_RISCV_32 | R_RISCV_64 | R_RISCV_BRANCH | R_RISCV_JAL | R_RISCV_CALL | R_RISCV_PCREL_HI20
  | R_RISCV_PCREL_LO12_I | R_RISCV_PCREL_LO12_S | R_RISCV_HI20 | R_RISCV_LO12_I | R_RISCV_LO12_S
  | other
  deriving DecidableEq, Repr

structure Reloc where
  offset : SectionOffset
  name : List Char
  rela_type : Rela
  deriving DecidableEq

structure Assembler where
  sections : List Section
  current : ℕ
  labels_byoffset : OrderedMap SectionOffset Label
  labels_byname : List (List Char × Label)
  relocs_byoffset : OrderedMap SectionOffset Reloc

def Section.append (n : ℕ) (d : BitVec 64) (s : Section) : Section :=
  { s with size := s.size + n, buf := s.buf.write s.size n d }

/-! ## Names -/

/-- `std::to_string` -/
def to_string (n : ℤ) : List Char :=
  if n < 0 then '-' :: Text.numeral 10 n.natAbs else Text.numeral 10 n.natAbs

/-- `strtoull` on a string of digits. -/
def strtoull (digits : List Char) : BitVec 64 := .ofNat 64 (min (Text.value 10 digits) (2 ^ 64 - 1))

def check_local (arg : List Char) : Bool :=
  if arg.length < 2 ∨ ¬(arg.getLast? = some 'b' ∨ arg.getLast? = some 'f') then false
  else arg.dropLast.all (Text.isDigit 10)

/-- The name that `add_label` tries for a numeric label. -/
def num_label (num : BitVec 64) (i : ℕ) : List Char :=
  '.' :: 'L' :: (to_string num.toInt ++ to_string i)

namespace Assembler
variable (a : Assembler)

/-! ## Sections -/

/-- The section of the name becomes the current one. -/
def get_section (name : List Char) : Assembler :=
  match a.sections.findIdx? fun s => s.name = name with
  | some index => { a with current := index }
  | none => { a with
      sections := a.sections ++ [⟨name, 0, 0, fun _ => 0⟩]
      current := a.sections.length }

/-- The constructor. -/
def init : Assembler :=
  (get_section ⟨[], 0, .empty, [], .empty⟩ []).get_section ".text".toList

def current_offset : SectionOffset :=
  section_offset a.current ((a.sections[a.current]?.map Section.size).getD 0)

/-- `append` of the low `n` bytes. -/
def append (n : ℕ) (d : BitVec 64) : Assembler :=
  { a with sections := a.sections.modify a.current (Section.append n d) }

/-! ## Labels -/

/-- A label of a name that is not taken; it replaces the label at its offset. -/
def new_label (l : Label) : Assembler :=
  { a with
    labels_byname := (l.name, l) :: a.labels_byname
    labels_byoffset := a.labels_byoffset.insert l.offset l }

/-- `lookup_label` by name. -/
def lookup_name (label_name : List Char) : Option Label := a.labels_byname.lookup label_name

/-- `add_label` with an offset. -/
def add_label_at (label_name : List Char) (offset : SectionOffset) : Assembler × Option Label :=
  if (a.lookup_name label_name).isSome then (a, none)
  else
    let l : Label := ⟨label_name, offset, 0⟩
    (a.new_label l, some l)

def add_label (label_name : List Char) : Assembler × Option Label :=
  a.add_label_at label_name a.current_offset

/-- The loop of the numeric `add_label`, with the names that are left to try. -/
def freeNumber (num : BitVec 64) : ℕ → ℕ → Option ℕ
  | 0, _ => none
  | n + 1, i =>
    if (a.lookup_name (num_label num i)).isSome then freeNumber num n (i + 1) else some i

/-- `add_label` of a number. -/
def add_label_num (num : BitVec 64) : Assembler × Option Label :=
  match a.freeNumber num (a.labels_byname.length + 1) 1 with
  | some i =>
    let l : Label := ⟨num_label num i, a.current_offset, num⟩
    (a.new_label l, some l)
  | none => (a, none)

def add_constant (label_name : List Char) (value : BitVec 64) : Assembler × Option Label :=
  if (a.lookup_name label_name).isSome then (a, none)
  else
    let l : Label := ⟨label_name, section_offset SHN_ABS value.toNat, 0⟩
    (a.new_label l, some l)

/-! ## Relocations -/

def add_reloc (label_name : List Char) (rela_type : Rela) : Assembler × Option Reloc :=
  if (a.relocs_byoffset.get? a.current_offset).isSome then (a, none)
  else
    let r : Reloc := ⟨a.current_offset, label_name, rela_type⟩
    ({ a with relocs_byoffset := a.relocs_byoffset.insert r.offset r }, some r)

/-! ## Numeric labels -/

/-- The scan of `lookup_label_f`. -/
def scan_f (offset : SectionOffset) (num : BitVec 64) :
    Bool → List (SectionOffset × Label) → Option Label
  | _, [] => none
  | found, ent :: rest =>
    let found := if ent.1 > offset then true else found
    if found ∧ ent.2.num = num then some ent.2 else scan_f offset num found rest

/-- The scan of `lookup_label_b`. -/
def scan_b (offset : SectionOffset) (num : BitVec 64) :
    Option Label → List (SectionOffset × Label) → Option Label
  | found, [] => found
  | found, ent :: rest =>
    if ent.1 > offset then found
    else scan_b offset num (if ent.2.num = num then some ent.2 else found) rest

def lookup_label_f (reloc : Reloc) (num : BitVec 64) : Option Label :=
  scan_f reloc.offset num false a.labels_byoffset.entries

def lookup_label_b (reloc : Reloc) (num : BitVec 64) : Option Label :=
  scan_b reloc.offset num none a.labels_byoffset.entries

/-- `lookup_label` of what a relocation refers to. -/
def lookup_label (reloc : Reloc) (name : List Char) : Option Label :=
  if check_local name then
    if name.getLast? = some 'f' then a.lookup_label_f reloc (strtoull name.dropLast)
    else if name.getLast? = some 'b' then a.lookup_label_b reloc (strtoull name.dropLast)
    else a.lookup_name name
  else a.lookup_name name

end Assembler

/-! ## Programs -/

/-- The calls that build a program. The other ones append. -/
inductive Call where
  | get_section (name : List Char)
  | append (n : ℕ) (d : BitVec 64)
  | add_label_at (label_name : List Char) (offset : SectionOffset)
  | add_label (label_name : List Char)
  | add_label_num (num : BitVec 64)
  | add_constant (label_name : List Char) (value : BitVec 64)
  | add_reloc (label_name : List Char) (rela_type : Rela)

namespace Assembler

/-- The assembler after a call, and the label that the call returns. -/
def call (a : Assembler) : Call → Assembler × Option Label
  | .get_section name => (a.get_section name, none)
  | .append n d => (a.append n d, none)
  | .add_label_at label_name offset => a.add_label_at label_name offset
  | .add_label label_name => a.add_label label_name
  | .add_label_num num => a.add_label_num num
  | .add_constant label_name value => a.add_constant label_name value
  | .add_reloc label_name rela_type => ((a.add_reloc label_name rela_type).1, none)

end Assembler

/-- A label as it was defined, by its number or otherwise. -/
structure Definition where
  label : Label
  numeric : Bool

def Call.numeric : Call → Bool
  | .add_label_num _ => true
  | _ => false

namespace Assembler

/-- The assembler after a program. -/
def run (a : Assembler) (calls : List Call) : Assembler := calls.foldl (fun a c => (a.call c).1) a

/-- The labels that a program defines, in the order of their definitions. -/
def defined (a : Assembler) : List Call → List Definition
  | [] => []
  | c :: calls =>
    ((a.call c).2.map fun l => ⟨l, c.numeric⟩).toList ++ defined (a.call c).1 calls

/-! ## The tables -/

@[simp] theorem new_label_labels_byoffset (a : Assembler) (l : Label) :
    (a.new_label l).labels_byoffset = a.labels_byoffset.insert l.offset l := rfl

/-- A call that defines a label enters it; the others leave the table of labels as it is. -/
theorem call_labels_byoffset (a : Assembler) (c : Call) :
    (a.call c).1.labels_byoffset =
      match (a.call c).2 with
      | some l => a.labels_byoffset.insert l.offset l
      | none => a.labels_byoffset := by
  cases c with
  | get_section name =>
    simp only [call, get_section]
    split <;> rfl
  | append n d => rfl
  | add_label_at label_name offset =>
    simp only [call, add_label_at]
    split_ifs <;> rfl
  | add_label label_name =>
    simp only [call, add_label, add_label_at]
    split_ifs <;> rfl
  | add_label_num num =>
    simp only [call, add_label_num]
    split <;> rfl
  | add_constant label_name value =>
    simp only [call, add_constant]
    split_ifs <;> rfl
  | add_reloc label_name rela_type =>
    simp only [call, add_reloc]
    split_ifs <;> rfl

/-- The label at an offset is the last one that was defined there. -/
theorem get?_run (a : Assembler) (calls : List Call) (k : SectionOffset) :
    (a.run calls).labels_byoffset.get? k =
      ((((a.defined calls).map Definition.label).filter fun l => l.offset = k).getLast?).or
        (a.labels_byoffset.get? k) := by
  induction calls generalizing a with
  | nil => rfl
  | cons c calls ih =>
    have hrun : a.run (c :: calls) = (a.call c).1.run calls := rfl
    rw [hrun, ih, call_labels_byoffset, defined]
    cases hlabel : (a.call c).2 with
    | none => rfl
    | some l =>
      have hfirst : ([l].filter fun l => l.offset = k).getLast? =
          if k = l.offset then some l else none := by
        by_cases hk : k = l.offset
        · simp [hk]
        · simp [hk, Ne.symm hk]
      simp only [Option.map_some, Option.toList_some, List.map_append, List.map_cons, List.map_nil,
        List.filter_append, List.getLast?_append, hfirst, OrderedMap.get?_insert, Option.or_assoc]
      split_ifs <;> rfl

/-! ## The loop of the numeric `add_label` -/

theorem num_label_inj (num : BitVec 64) {i j : ℕ} (h : num_label num i = num_label num j) :
    i = j := by
  have hnat : ∀ n : ℕ, to_string n = Text.numeral 10 n := fun n => by
    rw [to_string, if_neg (Int.not_lt.mpr (Int.natCast_nonneg n)), Int.natAbs_natCast]
  rw [num_label, num_label, List.cons_inj_right, List.cons_inj_right, List.append_cancel_left_eq,
    hnat, hnat] at h
  rw [← Text.value_numeral (b := 10) (by decide) (by decide) i, h,
    Text.value_numeral (by decide) (by decide)]

/-- All names that the loop gives up on are taken. -/
theorem taken_of_freeNumber (a : Assembler) (num : BitVec 64) {n i : ℕ}
    (h : a.freeNumber num n i = none) :
    ∀ j < n, num_label num (i + j) ∈ a.labels_byname.map Prod.fst := by
  induction n generalizing i with
  | zero => exact fun j hj => absurd hj (Nat.not_lt_zero j)
  | succ n ih =>
    intro j hj
    rw [freeNumber] at h
    split_ifs at h with htaken
    cases j with
    | zero =>
      obtain ⟨l, hl⟩ := Option.isSome_iff_exists.mp htaken
      obtain ⟨xs, ys, heq, -⟩ := List.lookup_eq_some_iff.mp hl
      have hmem : (num_label num i, l) ∈ a.labels_byname := by
        rw [heq]
        exact List.mem_append_right xs List.mem_cons_self
      exact List.mem_map_of_mem hmem
    | succ j =>
      have hlater := ih h j (by omega)
      rwa [Nat.add_assoc, Nat.add_comm 1 j] at hlater

/-- There are more names to try than there are labels. -/
theorem exists_freeNumber (a : Assembler) (num : BitVec 64) :
    ∃ i, a.freeNumber num (a.labels_byname.length + 1) 1 = some i := by
  cases h : a.freeNumber num (a.labels_byname.length + 1) 1 with
  | some i => exact ⟨i, rfl⟩
  | none =>
    have htaken := a.taken_of_freeNumber num h
    have hnodup : ((List.range (a.labels_byname.length + 1)).map
        fun j => num_label num (1 + j)).Nodup :=
      List.Nodup.map (fun i j hij => Nat.add_left_cancel (num_label_inj num hij)) List.nodup_range
    have hsub : ((List.range (a.labels_byname.length + 1)).map fun j => num_label num (1 + j)) ⊆
        a.labels_byname.map Prod.fst := by
      intro name hname
      obtain ⟨j, hj, rfl⟩ := List.mem_map.mp hname
      exact htaken j (List.mem_range.mp hj)
    have hle := (hnodup.subperm hsub).length_le
    rw [List.length_map, List.length_map, List.length_range] at hle
    omega

/-- A numeric label is always defined, where the program stands and with its number. -/
theorem add_label_num_defines (a : Assembler) (num : BitVec 64) :
    ∃ name, (a.add_label_num num).2 = some ⟨name, a.current_offset, num⟩ := by
  obtain ⟨i, hi⟩ := a.exists_freeNumber num
  exact ⟨num_label num i, by rw [add_label_num, hi]⟩

end Assembler

end RvCkpt.Asm
