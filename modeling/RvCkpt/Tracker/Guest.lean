import RvCkpt.Tracker.Pages

/-! # The guest's mappings

`__guest_mmap` and `__munmap` of `src/src/mem/mmap-core.c`, the mmap of `src/src/mem/mmap-linux.c`,
`abi_sys_brk` and the segments that `src/src/emu/processor-proxy.h` loads. Only the first two go
through the bitmap. What the host answers to a call is part of the call; where it refuses to
allocate a page of the bitmap, the process exits.
-/

namespace RvCkpt.Tracker
open ByteMem
set_option autoImplicit false

def MAP_FAILED : ℕ := 2 ^ 64 - 1

/-- The end of the addresses that the host maps. -/
def TASK_SIZE : ℕ := 0x7ffffffff000

structure Proc where
  mem : Mem
  map_inited : Bool
  /-- The base of the interposed mmap. -/
  map_base : ℕ
  heap_begin : ℕ
  heap_end : ℕ
  brk : ℕ
  /-- The pages of the guest's mappings. -/
  live : ℕ → Bool

/-! ## The host -/

/-- The byte is in a page of the range. -/
def Covers (addr len b : ℕ) : Prop := addr ≤ b ∧ b / PAGE_SIZE * PAGE_SIZE < addr + len

instance instDecidableCovers (addr len b : ℕ) : Decidable (Covers addr len b) :=
  inferInstanceAs (Decidable (_ ∧ _))

/-- The host maps and unmaps whole pages below the end of its addresses. -/
def Mappable (addr len : ℕ) : Prop := len ≠ 0 ∧ PAGE_SIZE ∣ addr ∧ addr + len ≤ TASK_SIZE

instance instDecidableMappable (addr len : ℕ) : Decidable (Mappable addr len) :=
  inferInstanceAs (Decidable (_ ∧ _))

/-- The host's mmap: the address of the mapping. -/
def hostMmap (addr len : ℕ) (fixed : Bool) (answer : Option ℕ) : Option ℕ :=
  (answer.map fun chosen => if fixed then addr else chosen).filter fun a => Mappable a len

/-- The host's munmap. -/
def hostMunmap (addr len : ℕ) (ok : Bool) : Bool := ok && Mappable addr len

namespace Proc

/-- A mapping is there, or the pages of a range are not mapped any more. -/
def place (p : Proc) (addr len : ℕ) (v : Bool) (content : Mem) : Proc :=
  { p with
    mem := fun b => if Covers addr len b then content b else p.mem b
    live := markRange v p.live (addr / PAGE_SIZE) (addr + len) }

def init_mmap (p : Proc) : Proc :=
  if p.map_inited then p
  else { p with mem := mapPage p.mem METADATA_BASE, map_inited := true }

/-- `__guest_mmap` from the host's mmap on. -/
def mmapAt (p : Proc) (addr : ℕ) (fixed : Bool) (c : Space.MmapCall) : Proc × ℕ :=
  match hostMmap addr c.len fixed (c.answer.map Prod.fst) with
  | some rv =>
    let content := if c.anonymous then fun _ => 0 else (c.answer.map Prod.snd).getD p.mem
    let p := p.place rv c.len true content
    ({ p with mem := mark_used p.mem rv c.len }, rv)
  | none => (p, MAP_FAILED)

def guest_mmap (p : Proc) (c : Space.MmapCall) : Proc × ℕ :=
  if HOST_MMAP_BASE < (c.addr + c.len) % 2 ^ 64 then (p, MAP_FAILED)
  else
    let p := p.init_mmap
    if c.addr = 0 then
      let found := find_free p.mem GUEST_MMAP_BASE HOST_MMAP_BASE c.len
      let p := { p with mem := found.1 }
      if found.2 = 0 then (p, found.2)
      else p.mmapAt found.2 true c
    else p.mmapAt c.addr c.fixed c

def guest_munmap (p : Proc) (addr len : ℕ) (ok : Bool) : Proc × ℤ :=
  let p := p.init_mmap
  if hostMunmap addr len ok then
    let p := p.place addr len false p.mem
    ({ p with mem := mark_free p.mem addr len }, 0)
  else (p, -1)

/-- Where the interposed mmap asks the host to map. -/
def mmapStart (p : Proc) (addr : ℕ) : ℕ := if addr = 0 then p.map_base else addr

/-- The mmap of `src/src/mem/mmap-linux.c`, anonymous and fixed. -/
def mmap (p : Proc) (addr len : ℕ) (ok : Bool) : Proc × ℕ :=
  match hostMmap (p.mmapStart addr) len true (if ok then some 0 else none) with
  | some rv =>
    let p := p.place rv len true fun _ => 0
    (if addr = 0 then { p with map_base := p.map_base + roundUp len } else p, rv)
  | none => (p, MAP_FAILED)

/-- The length of the heap segment that `abi_sys_brk` maps. -/
def heapGrowth (p : Proc) (new_brk : ℕ) : ℕ :=
  (roundUp new_brk + (2 ^ 64 - p.heap_end)) % 2 ^ 64

def ENOMEM : ℤ := 12

def abi_sys_brk (p : Proc) (new_brk : ℕ) (ok : Bool) : Proc × ℤ :=
  -- return current brk
  if new_brk = 0 then (p, p.brk)
  -- shrink brk
  else if new_brk ≤ p.heap_end then ({ p with brk := new_brk }, new_brk)
  -- map a new heap segment
  else
    let mapped := p.mmap p.heap_end (p.heapGrowth new_brk) ok
    if mapped.2 = MAP_FAILED then (mapped.1, -ENOMEM)
    else ({ mapped.1 with heap_end := roundUp new_brk, brk := new_brk }, new_brk)

/-- `map_load_segment_user`, with the rounded address and length in the call. The process panics
where the segment is not mapped. -/
def map_load_segment_user (p : Proc) (c : Space.MmapCall) (brk : ℕ) : Proc :=
  let mapped := p.guest_mmap c
  if mapped.2 = MAP_FAILED then mapped.1
  else
    let p := mapped.1
    let map_end := c.addr + c.len
    -- set heap mmap area begin and end
    let p := if p.heap_begin < map_end then { p with heap_begin := map_end, heap_end := map_end }
      else p
    -- set the program break
    if p.brk < brk then { p with brk := brk } else p

end Proc

/-! ## Operations -/

inductive Op
  | mmap (c : Space.MmapCall)
  | munmap (addr len : ℕ) (ok : Bool)
  | brk (new_brk : ℕ) (ok : Bool)
  | segment (c : Space.MmapCall) (brk : ℕ)

def step (p : Proc) : Op → Proc
  | .mmap c => (p.guest_mmap c).1
  | .munmap addr len ok => (p.guest_munmap addr len ok).1
  | .brk new_brk ok => (p.abi_sys_brk new_brk ok).1
  | .segment c brk => p.map_load_segment_user c brk

end RvCkpt.Tracker
