import RvCkpt.Parse.Image

/-! # Loading an image

`main` of `src/ckpt/main.c` and `map_pages` of `src/ckpt/cl.c`. `main` reads the configuration,
finds a place for the loader `cl` and its table where no page of the image comes, and hands over;
`map_pages` then reads the table there and maps the pages. `none` is a message and an exit. The
code of `cl`, the decompression of FastLZ and the end of the user addresses are parameters; what
`map_pages` keeps on its stack is left out.
-/

namespace RvCkpt.Loader
open ByteMem Text Parse
set_option autoImplicit false

/-! ## Reading numbers -/

/-- A sign. -/
def scanSign : List Char → Bool × List Char
  | '-' :: cs => (true, cs)
  | '+' :: cs => (false, cs)
  | cs => (false, cs)

def scanPrefix : List Char → List Char
  | '0' :: 'x' :: cs => cs
  | '0' :: 'X' :: cs => cs
  | cs => cs

/-- A number as `fscanf` finds it: its sign, its value and the rest of the text. -/
def scanNumber (b : ℕ) (cs : List Char) : Option (Bool × ℕ × List Char) :=
  let (neg, cs) := scanSign (cs.dropWhile blank)
  let cs := if b = 16 then scanPrefix cs else cs
  if (cs.takeWhile (isDigit b)).isEmpty then none
  else some (neg, value b (cs.takeWhile (isDigit b)), cs.dropWhile (isDigit b))

/-- `strtoull` -/
def toUnsigned (neg : Bool) (n : ℕ) : ℕ :=
  if 2 ^ 64 ≤ n then 2 ^ 64 - 1 else if neg then (2 ^ 64 - n) % 2 ^ 64 else n

/-- `%llx` -/
def scanLong (cs : List Char) : Option (ℕ × List Char) := do
  let (neg, n, cs) ← scanNumber 16 cs
  some (toUnsigned neg n, cs)

/-- `%x` -/
def scanInt (cs : List Char) : Option (ℕ × List Char) := do
  let (neg, n, cs) ← scanNumber 16 cs
  some (toUnsigned neg n % 2 ^ 32, cs)

/-- `%d`, of which the low 32 bits count. There is no memory for a negative number of mappings. -/
def scanCount (cs : List Char) : Option (ℕ × List Char) := do
  let (neg, n, cs) ← scanNumber 10 cs
  let num := (if neg then 2 ^ 64 - min n (2 ^ 63) else min n (2 ^ 63 - 1)) % 2 ^ 32
  if 2 ^ 31 ≤ num then none else some (num, cs)

def scanEntry (cs : List Char) : Option (MmapCfg × List Char) := do
  let (addr, cs) ← scanLong cs
  let (offset, cs) ← scanLong cs
  let (size, cs) ← scanInt cs
  let (length, cs) ← scanInt cs
  some (⟨addr, offset, size, length⟩, cs)

def scanTable : ℕ → List Char → Option (List MmapCfg × List Char)
  | 0, cs => some ([], cs)
  | num + 1, cs => do
    let (entry, cs) ← scanEntry cs
    let (rest, cs) ← scanTable num cs
    some (entry :: rest, cs)

/-- The mappings and the entry point. -/
def scanCfg (cs : List Char) : Option (List MmapCfg × ℕ) := do
  let (num, cs) ← scanCount cs
  let (table, cs) ← scanTable num cs
  let (pc, _) ← scanLong cs
  some (table, pc)

/-! ## A place for the loader -/

def CL_BASE : ℕ := 0x60000000

def CL_TOP : ℕ := 0x80000000

def CL_STACK_SIZE : ℕ := 4096

def CL_BUF_SIZE : ℕ := 2048

/-- `sizeof(mmap_cfg)` -/
def ENTRY_SIZE : ℕ := 24

/-- `ALIGN_PAGE` -/
def alignPage (n : ℕ) : ℕ := (n + 0xfff) / 0x1000 * 0x1000

def u64 (n : ℕ) : ℕ := n % 2 ^ 64

/-- The bytes for the table of `num` mappings and the stack. -/
def tableSize (num : ℕ) : ℕ := alignPage (num * ENTRY_SIZE + CL_STACK_SIZE)

def totalSize (clSize num : ℕ) : ℕ := alignPage clSize + tableSize num

def sortByAddr (table : List MmapCfg) : List MmapCfg :=
  table.insertionSort fun a b => a.addr ≤ b.addr

def sortByOffset (table : List MmapCfg) : List MmapCfg :=
  table.insertionSort fun a b => a.offset ≤ b.offset

/-- Go past a mapping that is in the way. -/
def passBy (total foundBase : ℕ) (entry : MmapCfg) : ℕ :=
  if entry.addr < u64 (foundBase + total) ∧ foundBase < u64 (entry.addr + entry.size) then
    u64 (entry.addr + entry.size)
  else foundBase

def findBase (clSize : ℕ) (table : List MmapCfg) : Option ℕ :=
  let total := totalSize clSize table.length
  let foundBase := (sortByAddr table).foldl (passBy total) CL_BASE
  if CL_TOP < u64 (foundBase + total) then none else some foundBase

/-! ## Mapping -/

/-- The pages that are mapped, and what memory holds. -/
structure Space where
  mapped : ℕ → Bool
  mem : Mem

/-- The end of the user addresses. -/
structure Kernel where
  limit : ℕ
  limit_le : limit ≤ 2 ^ 63

namespace Space

/-- `mmap` of whole pages at a fixed address. -/
def mmap (kernel : Kernel) (s : Space) (addr size : ℕ) (content : ℕ → Byte) : Option Space :=
  if addr % PAGE_SIZE = 0 ∧ 0 < size ∧ addr + alignPage size ≤ kernel.limit then
    some {
      mapped := fun pn =>
        decide (addr ≤ pn * PAGE_SIZE ∧ pn * PAGE_SIZE < addr + alignPage size) || s.mapped pn
      mem := fun a =>
        if addr ≤ a ∧ a < addr + alignPage size then content (a - addr) else s.mem a }
  else none

def write (s : Space) (addr : ℕ) (bs : List Byte) : Space :=
  { s with mem := s.mem.writeBytes addr bs }

/-- `mmap` of a part of a file. -/
def mmapFile (kernel : Kernel) (s : Space) (addr size : ℕ) (file : List Byte) (offset : ℕ) :
    Option Space :=
  if offset % PAGE_SIZE = 0 then s.mmap kernel addr size fun i => file.getD (offset + i) 0
  else none

end Space

/-- The low `n` bytes of a number. -/
def lowBytes (n x : ℕ) : List Byte := (List.range n).map (byteAt (BitVec.ofNat 64 x))

def entryBytes (entry : MmapCfg) : List Byte :=
  lowBytes 8 entry.addr ++ (lowBytes 8 entry.offset ++
    (lowBytes 4 entry.size ++ lowBytes 4 entry.length))

/-- Entry `i` of the table at `mcP`. -/
def readTable (m : Mem) (mcP i : ℕ) : MmapCfg :=
  let p := mcP + i * ENTRY_SIZE
  ⟨(m.read p 8).toNat, (m.read (p + 8) 8).toNat, (m.read (p + 16) 4).toNat,
    (m.read (p + 20) 4).toNat⟩

section
variable (kernel : Kernel) (decompress : List Byte → ℕ → Option (List Byte)) (file : List Byte)

/-- One mapping. A read that does not fit into the buffer is not defined. -/
def mapEntry (s : Space) (entry : MmapCfg) : Option Space :=
  if entry.size = entry.length then
    s.mmapFile kernel entry.addr entry.size file entry.offset
  else do
    let s ← s.mmap kernel entry.addr entry.size fun _ => 0
    let buf := (file.drop entry.offset).take entry.length
    if entry.length ≤ CL_BUF_SIZE ∧ buf.length = entry.length then do
      let data ← decompress buf entry.size
      if data.isEmpty then none else some (s.write entry.addr data)
    else none

/-- `map_pages`, from entry `i` on. -/
def mapPages (mcP : ℕ) : ℕ → ℕ → Space → Option Space
  | 0, _, s => some s
  | num + 1, i, s => do
    let s ← mapEntry kernel decompress file s (readTable s.mem mcP i)
    mapPages mcP num (i + 1) s

/-- Map cl, and the table behind it. -/
def mapLoader (cl : List Byte) (clP : ℕ) (table : List MmapCfg) (s : Space) : Option Space := do
  let s ← s.mmap kernel clP (alignPage cl.length) fun _ => 0
  let s := s.write clP cl
  let mcP := clP + alignPage cl.length
  let s ← s.mmap kernel mcP (tableSize table.length) fun _ => 0
  some (s.write mcP ((sortByOffset table).flatMap entryBytes))

/-- The whole of loading: the final address space and the entry point. -/
def load (cl : List Byte) (cfg : List Char) (s : Space) : Option (Space × ℕ) := do
  let (table, pc) ← scanCfg cfg
  let clP ← findBase cl.length table
  let s ← mapLoader kernel cl clP table s
  let s ← mapPages kernel decompress file (clP + alignPage cl.length) table.length 0 s
  some (s, pc)

end

end RvCkpt.Loader
