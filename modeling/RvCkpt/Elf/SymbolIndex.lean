import RvCkpt.Lib.Bytes
import RvCkpt.Lib.OrderedMap

/-! # The symbol index of an ELF file

The symbols of `elf_file` (`src/src/elf/elf-file.cc`) with the maps from addresses and from names to
their numbers. Of a symbol only the name and the value are kept. A loaded file is given by the
tables that are read from it.
-/

namespace RvCkpt.Elf
open ByteMem
set_option autoImplicit false

/-! ## Data -/

structure Sym where
  /-- The position of the name in the string table. -/
  st_name : ℕ
  st_value : ℕ
  deriving DecidableEq

structure Section where
  offset : ℕ
  buf : List Byte

structure ElfFile where
  symtab : ℕ
  strtab : ℕ
  /-- `shdrs[strtab].sh_offset` -/
  strtab_offset : ℕ
  sections : List Section
  symbols : List Sym
  addr_symbol_map : OrderedMap ℕ ℕ
  name_symbol_map : List Byte → Option ℕ

/-- What `load` reads of a file: the section headers' numbers and offsets, the sections and the
entries of the symbol table. -/
structure Tables where
  symtab : ℕ
  strtab : ℕ
  strtab_offset : ℕ
  sections : List Section
  symbols : List Sym

/-- `elf_load_exec` and `elf_load_headers` read no symbols. -/
inductive Load
  | exec
  | headers
  | all (tables : Tables)

/-! ## Names -/

def Section.Has (s : Section) (offset : ℕ) : Prop :=
  s.offset ≤ offset ∧ offset < s.offset + s.buf.length

instance instDecidableHas (s : Section) (offset : ℕ) : Decidable (s.Has offset) :=
  inferInstanceAs (Decidable (_ ∧ _))

/-- The string that starts the bytes. -/
def cstr (bytes : List Byte) : List Byte := bytes.takeWhile (· ≠ 0)

namespace ElfFile

/-- The bytes of the first section that has the offset, from there on. `none`: a panic. -/
def offset (e : ElfFile) (offset : ℕ) : Option (List Byte) :=
  (e.sections.find? fun s => s.Has offset).map fun s => s.buf.drop (offset - s.offset)

def sym_name (e : ElfFile) (i : ℕ) : Option (List Byte) :=
  if e.strtab = 0 then some []
  else
    match e.symbols[i]? with
    | none => some []
    | some sym => (e.offset (e.strtab_offset + sym.st_name)).map cstr

/-! ## Operations -/

def clear : ElfFile := ⟨0, 0, 0, [], [], .empty, fun _ => none⟩

/-- A name and an address of a symbol go into the maps. -/
def index (e : ElfFile) (name : List Byte) (addr i : ℕ) : ElfFile :=
  { e with
    name_symbol_map := Function.update e.name_symbol_map name (some i)
    addr_symbol_map := e.addr_symbol_map.insert addr i }

/-- One iteration of the loop over the symbols. -/
def indexSymbol (e : ElfFile) (i : ℕ) : Option ElfFile :=
  match e.symbols[i]? with
  | none => some e
  | some sym =>
    if sym.st_value = 0 then some e
    else do
      let name ← e.sym_name i
      if name = [] then some e else some (e.index name sym.st_value i)

/-- `copy_from_symbol_table_sections`, with the entries of the table. -/
def copy_from_symbol_table_sections (e : ElfFile) (symbols : List Sym) : Option ElfFile :=
  let e := { e with symbols := [], addr_symbol_map := .empty, name_symbol_map := fun _ => none }
  if e.symtab = 0 then some e
  else
    let e := { e with symbols := symbols }
    if e.strtab = 0 then some e else (List.range e.symbols.length).foldlM indexSymbol e

/-- `none`: the process panics. -/
def load : Load → Option ElfFile
  | .exec => some clear
  | .headers => some clear
  | .all t =>
    { clear with
      symtab := t.symtab
      strtab := t.strtab
      strtab_offset := t.strtab_offset
      sections := t.sections }.copy_from_symbol_table_sections t.symbols

/-- The name and the symbol, behind the others. -/
def pushSymbol (e : ElfFile) (names : Section) (name : List Byte) (st_value : ℕ) : ElfFile :=
  { e with
    sections := e.sections.set e.strtab { names with buf := names.buf ++ name ++ [0] }
    symbols := e.symbols ++ [⟨names.buf.length % 2 ^ 32, st_value⟩] }

def add_symbol (e : ElfFile) (name : List Byte) (st_value : ℕ) : Option (ElfFile × ℕ) :=
  if e.symtab = 0 ∨ e.strtab = 0 then some (e, 0)
  else do
    let names ← e.sections[e.strtab]?
    let i := e.symbols.length
    let e := e.pushSymbol names name st_value
    let key ← e.sym_name i
    some
      ({ e with
          name_symbol_map := Function.update e.name_symbol_map key (some i)
          addr_symbol_map := e.addr_symbol_map.insert i st_value }, i)

/-- What a read through the iterator of an erased entry gives for its value. -/
structure Erased where
  read : ℕ → ℕ

def update_sym_addr (erased : Erased) (e : ElfFile) (old_addr new_addr : ℕ) : ElfFile :=
  if old_addr = new_addr then e
  else
    match e.addr_symbol_map.get? old_addr with
    | none => e
    | some i =>
      let i := erased.read i
      { e with
        symbols := e.symbols.modify i fun sym => { sym with st_value := new_addr }
        addr_symbol_map := (e.addr_symbol_map.erase old_addr).insert new_addr i }

/-- The number of the symbol that is returned. -/
def sym_by_nearest_addr (e : ElfFile) (addr : ℕ) : Option ℕ :=
  match e.addr_symbol_map.lower_bound addr with
  | none => none
  | some ai =>
    if ai.2 = addr then some ai.2
    else
      match e.addr_symbol_map.before ai.1 with
      | none => some ai.2
      | some before => some before.2

end ElfFile

inductive Op
  | load (l : Load)
  | add_symbol (name : List Byte) (st_value : ℕ)
  | update_sym_addr (old_addr new_addr : ℕ)
  | sym_by_nearest_addr (addr : ℕ)

def ElfFile.step (erased : ElfFile.Erased) (e : ElfFile) : Op → Option ElfFile
  | .load l => ElfFile.load l
  | .add_symbol name st_value => (e.add_symbol name st_value).map Prod.fst
  | .update_sym_addr old_addr new_addr => some (e.update_sym_addr erased old_addr new_addr)
  | .sym_by_nearest_addr _ => some e

/-! ## The property -/

/-- The name under which the loop adds a symbol: symbols without a value and without a name are left
out. -/
def ElfFile.entry (e : ElfFile) (i : ℕ) : Option (List Byte × ℕ) :=
  match e.symbols[i]? with
  | none => none
  | some sym =>
    if sym.st_value = 0 then none
    else (e.sym_name i).bind fun name => if name = [] then none else some (name, i)

/-- The names of a loaded file's symbols, in the order of the table. -/
def ElfFile.loaded (e : ElfFile) : List (List Byte × ℕ) :=
  if e.symtab = 0 ∨ e.strtab = 0 then [] else (List.range e.symbols.length).filterMap e.entry

/-- The names and numbers of the symbols that were added since the last load, `e'` being the file
after the operation. -/
def Op.added (e e' : ElfFile) (added : List (List Byte × ℕ)) : Op → List (List Byte × ℕ)
  | .load _ => e'.loaded
  | .add_symbol name _ =>
    if e.symtab = 0 ∨ e.strtab = 0 then added else added ++ [(name, e.symbols.length)]
  | .update_sym_addr _ _ => added
  | .sym_by_nearest_addr _ => added

/-- The last symbol that was added under a name. -/
def latest (added : List (List Byte × ℕ)) (name : List Byte) : Option ℕ :=
  (added.filter (·.1 = name)).getLast?.map Prod.snd

namespace ElfFile

def AddrRight (e : ElfFile) : Prop :=
  ∀ a i, e.addr_symbol_map.get? a = some i → ∃ sym, e.symbols[i]? = some sym ∧ sym.st_value = a

def NameRight (e : ElfFile) (added : List (List Byte × ℕ)) : Prop :=
  ∀ name, e.name_symbol_map name = latest added name

/-- A symbol at the greatest indexed address not above, none if there is no such address. -/
structure NearestRight (e : ElfFile) (addr : ℕ) : Prop where
  none : e.sym_by_nearest_addr addr = none ↔ ∀ a i, e.addr_symbol_map.get? a = some i → addr < a
  some : ∀ i, e.sym_by_nearest_addr addr = some i →
    ∃ a, e.addr_symbol_map.get? a = some i ∧ a ≤ addr ∧
      ∀ a' i', e.addr_symbol_map.get? a' = some i' → a' ≤ addr → a' ≤ a

/-- Every lookup is right, and the maps are right after every operation. -/
def Right (erased : Erased) (e : ElfFile) (added : List (List Byte × ℕ)) : List Op → Prop
  | [] => True
  | op :: ops =>
    (∀ addr, op = .sym_by_nearest_addr addr → e.NearestRight addr) ∧
      ∀ e', e.step erased op = .some e' →
        e'.AddrRight ∧ e'.NameRight (op.added e e' added) ∧
          Right erased e' (op.added e e' added) ops

end ElfFile

/-! ## The condition -/

namespace ElfFile

/-- The name ends where it is meant to, and is found in the string table. -/
structure NameStored (e : ElfFile) (name : List Byte) (names : Section) : Prop where
  chars : (0 : Byte) ∉ name
  size : names.buf.length < 2 ^ 32
  offset : names.offset = e.strtab_offset
  first : ∀ j < e.strtab, ∀ s, e.sections[j]? = some s → ¬s.Has (e.strtab_offset + names.buf.length)

/-- There are no tables; or the new symbol's number is the value of the symbol that its own value is
the number of. -/
def AddMeets (e : ElfFile) (name : List Byte) (st_value : ℕ) : Prop :=
  e.symtab = 0 ∨ e.strtab = 0 ∨
    (e.symbols.map Sym.st_value ++ [st_value])[st_value]? = some e.symbols.length ∧
      ∀ names, e.sections[e.strtab]? = some names → e.NameStored name names

/-- There is nothing to move, or the erased entry can still be read. -/
def UpdateMeets (erased : Erased) (e : ElfFile) (old_addr new_addr : ℕ) : Prop :=
  old_addr = new_addr ∨ ∀ i, e.addr_symbol_map.get? old_addr = some i → erased.read i = i

/-- The index is empty; or the address is indexed, and is the lowest one or the number of its own
symbol; or it lies between indexed addresses, and is not the number of the next one's symbol. -/
def NearestMeets (e : ElfFile) (addr : ℕ) : Prop :=
  match e.addr_symbol_map.lower_bound addr with
  | none => e.addr_symbol_map.entries = []
  | some ai =>
    if ai.1 = addr then ai.2 = addr ∨ e.addr_symbol_map.before addr = none
    else ai.2 ≠ addr ∧ e.addr_symbol_map.before ai.1 ≠ none

instance instDecidableNearestMeets (e : ElfFile) (addr : ℕ) : Decidable (e.NearestMeets addr) :=
  match h : e.addr_symbol_map.lower_bound addr with
  | none => decidable_of_iff (e.addr_symbol_map.entries = []) (by rw [NearestMeets, h])
  | some ai =>
    decidable_of_iff
      (if ai.1 = addr then ai.2 = addr ∨ e.addr_symbol_map.before addr = none
        else ai.2 ≠ addr ∧ e.addr_symbol_map.before ai.1 ≠ none) (by rw [NearestMeets, h])

def StepMeets (erased : Erased) (e : ElfFile) : Op → Prop
  | .load _ => True
  | .add_symbol name st_value => e.AddMeets name st_value
  | .update_sym_addr old_addr new_addr => e.UpdateMeets erased old_addr new_addr
  | .sym_by_nearest_addr addr => e.NearestMeets addr

def Meets (erased : Erased) (e : ElfFile) : List Op → Prop
  | [] => True
  | op :: ops =>
    e.StepMeets erased op ∧ ∀ e', e.step erased op = some e' → Meets erased e' ops

end ElfFile

end RvCkpt.Elf
