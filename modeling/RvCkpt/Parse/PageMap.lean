import RvCkpt.Recorder.PageRec
import Mathlib.Data.List.AList
import Mathlib.Data.List.Sort

/-! # The page map of a checkpoint

`Page` and `PageMap` of `src/ckpt/parse.py`. A bitmap is the number whose bit `i` says that byte
`i` of the page is in use. The dictionary is an association list with distinct keys; a page's
execution counts serve the basic-block vectors only and are left out. An operation returns `none`
where the script raises an exception or never comes back.
-/

namespace RvCkpt.Parse
open ByteMem
set_option autoImplicit false

def PAGE_OFFS : ℕ := 12

def FIRST_PN : ℕ := 0x10

structure Page where
  bitmap : ℕ
  data : Mem

namespace Page

/-- `Page(bitmap, data)` of bytes read from the dump file. -/
def ofBytes (bitmap data : ℕ → Byte) : Page := ⟨leNat bitmap (PAGE_SIZE / 8), data⟩

def empty : Page := ⟨0, fun _ => 0⟩

def put (page : Page) (offs : ℕ) (data : List Byte) : Page where
  bitmap := page.bitmap ||| ((1 <<< data.length) - 1) <<< offs
  data := page.data.writeBytes offs data

def isFree (page : Page) (offs : ℕ) : Bool := page.bitmap &&& (1 <<< offs) == 0

end Page

abbrev PageMap := AList fun _ : ℕ => Page

namespace PageMap

/-- `self[pn]`, which makes a new page for a missing one. -/
def getItem (m : PageMap) (pn : ℕ) : Page := (m.lookup pn).getD .empty

/-- The loop of `put` over `count` pages from `pn` on. -/
def putPages (m : PageMap) (addr : ℕ) (data : List Byte) : ℕ → ℕ → PageMap
  | _, 0 => m
  | pn, count + 1 =>
    let beginAddr := max addr (pn * PAGE_SIZE)
    let endAddr := min (addr + data.length) ((pn + 1) * PAGE_SIZE)
    let part := (data.take (endAddr - addr)).drop (beginAddr - addr)
    putPages (m.insert pn ((m.getItem pn).put (beginAddr % PAGE_SIZE) part)) addr data (pn + 1)
      count

def put (m : PageMap) (addr : ℕ) (data : List Byte) : PageMap :=
  let beginPn := addr >>> PAGE_OFFS
  let endPn := (addr + data.length + PAGE_SIZE - 1) >>> PAGE_OFFS
  m.putPages addr data beginPn (endPn - beginPn)

/-- `sorted(self._map.items())` -/
def items (m : PageMap) : List (Σ _ : ℕ, Page) := m.entries.insertionSort fun p q => p.1 ≤ q.1

/-- The `page` lines of a log, each with its page of the dump file. -/
def readPages (m : PageMap) (pages : List (Σ _ : ℕ, PageRec)) : PageMap :=
  pages.foldl (fun m page => m.insert page.1 (.ofBytes page.2.visited page.2.content)) m

/-- The `exec` lines: a page that was not dumped is made. -/
def readExecs (m : PageMap) (execs : List ℕ) : PageMap :=
  execs.foldl (fun m pn => m.insert pn (m.getItem pn)) m

/-! ## The free list -/

/-- End a free range: align its boundaries to 2 and keep it unless it is empty. -/
def closeRange (freeList : List (ℕ × ℕ)) (cur pos : ℕ) : List (ℕ × ℕ) :=
  let first := (cur + 1) / 2 * 2
  let last := pos / 2 * 2
  if first < last then freeList ++ [(first, last)] else freeList

/-- One byte of the scan. The state is the free list and the start of the current free range. -/
def scanByte (st : List (ℕ × ℕ) × Option ℕ) (pos : ℕ) (free : Bool) :
    List (ℕ × ℕ) × Option ℕ :=
  match st.2, free with
  | none, true => (st.1, some pos)
  | some cur, false => (closeRange st.1 cur pos, none)
  | _, _ => st

def scanPage (st : List (ℕ × ℕ) × Option ℕ) (entry : Σ _ : ℕ, Page) :
    List (ℕ × ℕ) × Option ℕ :=
  (List.range PAGE_SIZE).foldl
    (fun st i => scanByte st (entry.1 * PAGE_SIZE + i) (entry.2.isFree i)) st

def makeFreeList (m : PageMap) : List (ℕ × ℕ) :=
  (m.items.foldl scanPage ([], some (FIRST_PN * PAGE_SIZE))).1

/-! ## Reserving space -/

/-- The binary search for the free ranges around `baseAddr`. In a range that contains `baseAddr`
it goes on forever. -/
def search (freeList : List (ℕ × ℕ)) (baseAddr : ℕ) : ℕ → ℕ → ℕ → Option (ℕ × ℕ)
  | 0, s, e => some (s, e)
  | fuel + 1, s, e =>
    if s + 1 < e then do
      let range ← freeList[(s + e) / 2]?
      if range.2 ≤ baseAddr then search freeList baseAddr fuel ((s + e) / 2) e
      else if baseAddr < range.1 then search freeList baseAddr fuel s ((s + e) / 2)
      else none
    else some (s, e)

/-- The downward half of the search for a range with room, from index `s - 1` on. The two halves
share a loop but no variable. -/
def searchDown (freeList : List (ℕ × ℕ)) (size : ℕ) : ℕ → Option ℕ
  | 0 => none
  | s + 1 =>
    match freeList[s]? with
    | none => none
    | some range =>
      if range.1 + size ≤ range.2 then some s else searchDown freeList size s

/-- The upward half, with `fuel` ranges left from index `e` on. -/
def searchUp (freeList : List (ℕ × ℕ)) (size : ℕ) : ℕ → ℕ → Option ℕ
  | 0, _ => none
  | fuel + 1, e =>
    match freeList[e]? with
    | none => none
    | some range =>
      if range.1 + size ≤ range.2 then some e else searchUp freeList size fuel (e + 1)

/-- The upper bound and the lower bound of the free range, the latter counted from 1 so that 0
is the index before the first range. -/
def bounds (freeList : List (ℕ × ℕ)) (baseAddr : ℕ) : Option (ℕ × ℕ) := do
  let head ← freeList.head?
  let last ← freeList.getLast?
  if baseAddr < head.1 then some (0, 0)
  else if last.2 ≤ baseAddr then some (freeList.length, freeList.length)
  else
    let (s, e) ← search freeList baseAddr freeList.length 0 (freeList.length - 1)
    some (s + 1, e)

/-- Select the nearest of the two ranges that were hit. -/
def nearest (freeList : List (ℕ × ℕ)) (baseAddr : ℕ) : Option ℕ → Option ℕ → Option ℕ
  | some s, some e =>
    let below := (freeList.getD s (0, 0)).2
    let above := (freeList.getD e (0, 0)).1
    if (baseAddr : ℤ) - below < (above : ℤ) - baseAddr then some s else some e
  | some s, none => some s
  | none, some e => some e
  | none, none => none

/-- `reserve`, with the free list it updates. -/
def reserve (m : PageMap) (freeList : List (ℕ × ℕ)) (baseAddr size : ℕ) :
    Option (PageMap × List (ℕ × ℕ) × ℕ) := do
  let (s, e) ← bounds freeList baseAddr
  let use ← nearest freeList baseAddr (searchDown freeList size s)
    (searchUp freeList size (freeList.length - e) e)
  let (first, last) ← freeList[use]?
  let (range, nearAddr) :=
    if baseAddr < first then ((first + size, last), first)
    else ((first, last - size), last - size)
  some (m.put nearAddr (List.replicate size 0), freeList.set use range, nearAddr)

/-- The loop of `reserve_page` over the sorted page numbers. -/
def reserveScan (pagesNeeded : ℕ) : List ℕ → ℕ → ℕ
  | [], cur => cur
  | pn :: rest, cur =>
    if (pn : ℤ) - cur < pagesNeeded then reserveScan pagesNeeded rest (pn + 1) else cur

def reservePage (m : PageMap) (size : ℕ) : ℕ :=
  let pagesNeeded := (size + PAGE_SIZE - 1) >>> PAGE_OFFS
  reserveScan pagesNeeded (m.keys.insertionSort (· ≤ ·)) FIRST_PN

end PageMap

end RvCkpt.Parse
