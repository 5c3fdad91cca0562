import RvCkpt.Lib.Groups
import RvCkpt.Lib.Text
import RvCkpt.Parse.PageMap
import Mathlib.Data.List.ModifyLast
import Mathlib.Data.Rat.Defs

/-! # Checkpoint images

`PageMap.dump` of `src/ckpt/parse.py` and `src/ckpt/compress.py`. An image is a text that lists the
mappings and ends with the entry point, and a file with their data. `none` is an exception of the
script. The compression of FastLZ is a parameter.
-/

namespace RvCkpt.Parse
open ByteMem Text
set_option autoImplicit false

/-- One mapping, `mmap_cfg` of the loader. -/
structure MmapCfg where
  addr : ℕ
  offset : ℕ
  size : ℕ
  length : ℕ

structure Image where
  cfg : List Char
  dump : List Byte

/-- `%x\t%x\t%x\t%x\n` -/
def MmapCfg.line (e : MmapCfg) : List Char :=
  numeral 16 e.addr ++ '\t' :: (numeral 16 e.offset ++ '\t' :: (numeral 16 e.size ++
    '\t' :: (numeral 16 e.length ++ ['\n'])))

/-- The number of mappings, the mappings, and the entry point. -/
def cfgText (table : List MmapCfg) (entryPc : ℕ) : List Char :=
  numeral 10 table.length ++ '\n' ::
    (table.flatMap MmapCfg.line ++ (numeral 16 entryPc ++ ['\n']))

/-! ## Dumping a page map -/

/-- `get`, the bytes of a page. -/
def Page.get (page : Page) : List Byte := (List.range PAGE_SIZE).map page.data

namespace PageMap

/-- Merge successive pages. The state is the list of runs, each with its first page and its number
of pages, and the last page. -/
def mergeStep (st : List (ℕ × ℕ) × Option ℕ) (pn : ℕ) : List (ℕ × ℕ) × Option ℕ :=
  match st.2 with
  | none => (st.1 ++ [(pn, 1)], some pn)
  | some lastPn =>
    if lastPn + 1 < pn then (st.1 ++ [(pn, 1)], some pn)
    else (st.1.modifyLast fun run => (run.1, run.2 + 1), some pn)

def mergeRuns (pns : List ℕ) : List (ℕ × ℕ) := (pns.foldl mergeStep ([], none)).1

def runTable : ℕ → List (ℕ × ℕ) → List MmapCfg
  | _, [] => []
  | offs, (pn, count) :: rest =>
    ⟨pn * PAGE_SIZE, offs, count * PAGE_SIZE, count * PAGE_SIZE⟩ ::
      runTable (offs + count * PAGE_SIZE) rest

/-- `dump`. The entry point is added to the text by `process_once`. -/
def dump (m : PageMap) (entryPc : ℕ) : Image where
  cfg := cfgText (runTable 0 (mergeRuns (m.items.map (·.1)))) entryPc
  dump := m.items.flatMap fun p => p.2.get

end PageMap

/-! ## Compressing an image -/

/-- A `bytes` for every address. -/
abbrev PageData := AList fun _ : ℕ => List Byte

/-- An address and the data of the pages from there on. -/
abbrev Group := ℕ × List (List Byte)

namespace Image

/-- Split dump into single pages. -/
def splitPages (pages : PageData) (addr : ℕ) (data : List Byte) (size : ℕ) : PageData :=
  (List.range ((size + 4095) / 4096)).foldl
    (fun pages i => pages.insert (addr + 4096 * i) ((data.drop (4096 * i)).take 4096)) pages

def readEntry (dump : List Byte) (pages : PageData) (line : List Char) : Option PageData := do
  let tokens := words line
  if tokens.length = 4 then do
    let addr ← tokens[0]?.bind readHex
    let offset ← tokens[1]?.bind readHex
    let size ← tokens[2]?.bind readHex
    let length ← tokens[3]?.bind readHex
    let data := (dump.drop offset).take length
    if size = length ∧ data.length = length then some (splitPages pages addr data size) else none
  else none

/-- `int` of a line. -/
def lineInt (read : List Char → Option ℕ) (line : List Char) : Option ℕ :=
  match words line with
  | [w] => read w
  | _ => none

/-- The pages of an image and its entry point. -/
def readImage (image : Image) : Option (PageData × ℕ) := do
  let rows := lines image.cfg
  let num ← rows[0]?.bind (lineInt (readDigits 10))
  let pages ← ((rows.drop 1).take num).foldlM (readEntry image.dump) ∅
  let entryPc ← rows[num + 1]?.bind (lineInt readHex)
  some (pages, entryPc)

/-- `sorted(page_map.items())` -/
def sortedPages (pages : PageData) : List (ℕ × List Byte) :=
  (pages.entries.insertionSort fun p q => p.1 ≤ q.1).map fun p => (p.1, p.2)

section
variable (compress : List Byte → List Byte) (maxRatio : ℚ) (maxLength : ℤ)

def startGroup (page : ℕ × List Byte) : Group := (page.1, [page.2])

def pushPage (g : Group) (page : ℕ × List Byte) : Group := (g.1, g.2 ++ [page.2])

/-- The page does not come after a gap. -/
def follows (g : Group) (page : ℕ × List Byte) : Bool :=
  !decide (g.1 + g.2.length * 4096 < page.1)

/-- The page fits into the minimal compression ratio. -/
def compressible (page : ℕ × List Byte) : Bool :=
  decide (((compress page.2).length : ℚ) ≤ page.2.length * maxRatio)

/-- Compressed pages may be coalesced if the total length is within the maximal length. -/
def coalesces (g : Group) (page : ℕ × List Byte) : Bool :=
  follows g page && !decide (maxLength < (compress (g.2.flatten ++ page.2)).length)

/-- The groups of compressed pages and of uncompressed ones. -/
def groupPages (pages : List (ℕ × List Byte)) : List Group × List Group :=
  pages.foldl (fun st page =>
    if compressible compress maxRatio page then
      (Groups.add startGroup pushPage (coalesces compress maxLength) st.1 page, st.2)
    else (st.1, Groups.add startGroup pushPage follows st.2 page)) ([], [])

/-- The mappings of groups whose data is written from `offset` on. -/
def groupTable (length : Group → ℕ) : ℕ → List Group → List MmapCfg
  | _, [] => []
  | offset, g :: rest =>
    ⟨g.1, offset, g.2.length * 4096, length g⟩ :: groupTable length (offset + length g) rest

/-- Dump uncompressed pages first since they need to be page-aligned. -/
def writeImage (entryPc : ℕ) (comp uncomp : List Group) : Image :=
  let rawLength := fun g : Group => g.2.length * 4096
  let compLength := fun g : Group => (compress g.2.flatten).length
  { cfg := cfgText (groupTable rawLength 0 uncomp ++
      groupTable compLength (uncomp.map rawLength).sum comp) entryPc
    dump := (uncomp.flatMap fun g => g.2.flatten) ++ comp.flatMap fun g => compress g.2.flatten }

/-- The whole of `compress.py`. FastLZ wants at least 16 bytes. -/
def compressImage (image : Image) : Option Image := do
  let (pages, entryPc) ← readImage image
  let sorted := sortedPages pages
  if sorted.all fun page => decide (16 ≤ page.2.length) then
    let groups := groupPages compress maxRatio maxLength sorted
    some (writeImage compress entryPc groups.1 groups.2)
  else none

end

end Image

end RvCkpt.Parse
