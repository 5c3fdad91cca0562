import RvCkpt.Lib.FirstTouch
import RvCkpt.Recorder.PageRec
import Mathlib.Data.List.AList

/-! # The memory trace of one checkpoint interval

`MemTrace` of `src/src/util/fmt.h`. The two `unordered_map`s are association lists with distinct
keys. Page objects are never moved or freed while the trace lives, so a pointer to one is the page
number it was allocated for, and `none` is the null pointer that a fresh `PtrCache` holds. An
operation returns `none` when it dereferences that pointer: `get_page(pn, cache)` hands it out for
page 0 as long as the cache has not been used. `uint32_t` counters are 32-bit words; addresses are
numbers, page `a / 4096`, offset `a % 4096`.
-/

namespace RvCkpt
open ByteMem
set_option autoImplicit false

structure ExecRec where
  count : ℕ → BitVec 32

namespace ExecRec

def new : ExecRec := ⟨fun _ => 0⟩

-- instructions are 2-aligned
def get (e : ExecRec) (offs : ℕ) : BitVec 32 := e.count (offs / 2)

def incr (e : ExecRec) (offs : ℕ) : ExecRec :=
  ⟨Function.update e.count (offs / 2) (e.count (offs / 2) + 1)⟩

end ExecRec

structure StoreRec where
  addr : ℕ
  size : ℕ
  deriving DecidableEq, Repr

structure PtrCache where
  idx : ℕ
  ptr : Option ℕ
  deriving DecidableEq, Repr

def PtrCache.new : PtrCache := ⟨0, none⟩

def STREC_SIZE : ℕ := 256

structure MemTrace where
  pages : AList fun _ : ℕ => PageRec
  execs : AList fun _ : ℕ => ExecRec
  stores : ℕ → StoreRec
  fetchCache : PtrCache
  loadCache : PtrCache
  execCache : PtrCache

namespace MemTrace

def new : MemTrace := ⟨∅, ∅, fun _ => ⟨0, 0⟩, .new, .new, .new⟩

/-! ## Pages and caches -/

def getPage (T : MemTrace) (pn : ℕ) : MemTrace :=
  match T.pages.lookup pn with
  | some _ => T
  | none => { T with pages := T.pages.insert pn .new }

def getPageCached (T : MemTrace) (pn : ℕ) (cache : PtrCache) : MemTrace × PtrCache :=
  if pn ≠ cache.idx then (T.getPage pn, ⟨pn, some pn⟩) else (T, cache)

/-- The page the pointer of a cache refers to. -/
def deref (T : MemTrace) (cache : PtrCache) : Option PageRec :=
  cache.ptr.bind fun pn => T.pages.lookup pn

def putPage (T : MemTrace) (cache : PtrCache) (page : PageRec) : MemTrace :=
  match cache.ptr with
  | some pn => { T with pages := T.pages.insert pn page }
  | none => T

def getExec (T : MemTrace) (pn : ℕ) : MemTrace :=
  match T.execs.lookup pn with
  | some _ => T
  | none => { T with execs := T.execs.insert pn .new }

/-- The part of `get_exec_counter` that selects the record of the page. -/
def selectExec (T : MemTrace) (addr : ℕ) : MemTrace :=
  if addr / PAGE_SIZE ≠ T.execCache.idx then
    { T.getExec (addr / PAGE_SIZE) with
      execCache := ⟨addr / PAGE_SIZE, some (addr / PAGE_SIZE)⟩ }
  else T

def getExecCounter (T : MemTrace) (addr : ℕ) : Option (MemTrace × BitVec 32) := do
  let T := T.selectExec addr
  let exec ← T.execCache.ptr.bind fun pn => T.execs.lookup pn
  some (T, exec.get (addr % PAGE_SIZE))

-- `get_exec_counter(addr)++`
def incrExecCounter (T : MemTrace) (addr : ℕ) : Option MemTrace := do
  let T := T.selectExec addr
  let pn ← T.execCache.ptr
  let exec ← T.execs.lookup pn
  some { T with execs := T.execs.insert pn (exec.incr (addr % PAGE_SIZE)) }

/-! ## Fetch -/

/-- `fetch(PageRec *page, int offset, T inst)`. The last branch is the one for bytes that are
partly visited. -/
def fetchPage (w : Width) (page : PageRec) (offset : ℕ) (inst : BitVec 64) : PageRec × Bool :=
  let mask := page.check w offset
  if mask = 0 then (page.put w offset inst, true)
  else if mask = w.mask then (page, false)
  else
    ((List.range w.bytes).foldl (fun page i =>
      -- every visited byte `i` goes to `offset`, not to `offset + i`
      if mask.getLsbD i then page.put .w1 offset (inst >>> (i * 8)) else page) page, false)

def fetchAt (w : Width) (T : MemTrace) (cache : PtrCache) (offset : ℕ) (inst : BitVec 64) :
    Option (MemTrace × Bool) := do
  let page ← T.deref cache
  let (page, first) := fetchPage w page offset inst
  some (T.putPage cache page, first)

/-- Point the fetch cache at a page. -/
def selectFetch (T : MemTrace) (pn : ℕ) : MemTrace :=
  let (T', cache) := T.getPageCached pn T.fetchCache
  { T' with fetchCache := cache }

def fetch (T : MemTrace) (addr : ℕ) (inst : BitVec 64) (length : ℕ) :
    Option (MemTrace × Bool) := do
  let T ← T.incrExecCounter addr
  let pn := addr / PAGE_SIZE
  let T := T.selectFetch pn
  let offset := addr % PAGE_SIZE
  -- fetch is expected to be 2-aligned, even for 4-byte insts
  if length = 2 then
    fetchAt .w2 T T.fetchCache offset inst
  else if addr % 4 = 0 then
    fetchAt .w4 T T.fetchCache offset inst
  else
    let (T, first1) ← fetchAt .w2 T T.fetchCache offset inst
    let crosses := offset + 2 = PAGE_SIZE
    let T := if crosses then T.selectFetch (pn + 1) else T
    let (T, first2) ← fetchAt .w2 T T.fetchCache (if crosses then 0 else offset + 2) (inst >>> 16)
    some (T, first1 && first2)

def prefetch (T : MemTrace) (addr : ℕ) (length : ℕ) : Option (MemTrace × Bool) := do
  let T := T.selectFetch (addr / PAGE_SIZE)
  if length = 2 then
    let page ← T.deref T.fetchCache
    some (T, page.check .w2 (addr % PAGE_SIZE) = 0)
  else some (T, false)

/-! ## Load and store -/

def selectLoad (T : MemTrace) (pn : ℕ) : MemTrace :=
  let (T', cache) := T.getPageCached pn T.loadCache
  { T' with loadCache := cache }

/-- The byte by byte loop of `load`: `k` bytes are left, byte `i` of the data is next and goes to
position `pos` (the source's `offset + i`). -/
def loadLoop (pn : ℕ) (data : BitVec 64) : ℕ → ℕ → ℕ → MemTrace → Option MemTrace
  | 0, _, _, T => some T
  | k + 1, i, pos, T => do
    let crosses := pos = PAGE_SIZE
    let T := if crosses then T.selectLoad (pn + 1) else T
    let pos := if crosses then 0 else pos
    let page ← T.deref T.loadCache
    let T := if page.check .w1 pos = 0 then
        T.putPage T.loadCache (page.put .w1 pos (data >>> (8 * i)))
      else T
    loadLoop pn data k (i + 1) (pos + 1) T

def load (w : Width) (T : MemTrace) (addr : ℕ) (data : BitVec 64) : Option MemTrace := do
  let pn := addr / PAGE_SIZE
  let T := T.selectLoad pn
  let offset := addr % PAGE_SIZE
  let page ← T.deref T.loadCache
  -- perform a coalesced put if it's aligned and complete
  if offset % w.bytes = 0 ∧ page.check w offset = 0 then
    some (T.putPage T.loadCache (page.put w offset data))
  else if offset % w.bytes = 0 ∧ page.check w offset = w.mask then
    some T
  else
    -- otherwise, put it byte by byte
    loadLoop pn data w.bytes 0 offset T

/-- The hash of a store address: the exclusive or of its eight bytes. -/
def storeHash (addr : ℕ) : ℕ :=
  ((List.range 8).foldl (fun (hash, shift) _ =>
    (hash ^^^ shift % STREC_SIZE, shift / STREC_SIZE)) (0, addr)).1

def store (w : Width) (T : MemTrace) (addr : ℕ) : Option MemTrace := do
  let T ← load w T addr 0
  some { T with stores := Function.update T.stores (storeHash addr) ⟨addr, w.bytes⟩ }

/-- The stores that `CheckpointManager::syscall` records for a memory write, byte by byte. -/
def storeBytes (T : MemTrace) (addr : ℕ) : ℕ → Option MemTrace
  | 0 => some T
  | size + 1 => do
    let T ← T.store .w1 addr
    storeBytes T (addr + 1) size

end MemTrace

end RvCkpt
