import RvCkpt.Recorder.Fidelity

/-! # The guest's address space

The calls that change what is mapped: `guest_mmap` and `guest_munmap` of `src/src/mem/mmap-core.c`
with their bitmap of used pages, and the handlers of mmap, munmap and brk in
`src/src/abi/unknown-abi.h`. A byte is accessible when it is mapped with some access right; the
simulator's own reads of another byte fault, as the guest's do. What the host answers is part of
the call: where it puts a mapping that is not fixed, and what a mapped file holds.
-/

namespace RvCkpt
open ByteMem
set_option autoImplicit false

def GUEST_MMAP_BASE : ℕ := 0x40000000

def HOST_MMAP_BASE : ℕ := 0x7fff00000000

def roundUp (n : ℕ) : ℕ := (n + (PAGE_SIZE - 1)) % 2 ^ 64 / PAGE_SIZE * PAGE_SIZE

structure Space where
  mapped : ℕ → Bool
  mem : Mem
  /-- The pages that the tracker holds for used. -/
  used : ℕ → Bool
  brk : ℕ
  heapEnd : ℕ

/-- A successful mmap of the host: the bytes from `start` on, and what they are now. -/
structure Remap where
  start : ℕ
  length : ℕ
  access : Bool
  content : Mem

namespace Remap

def covers (r : Remap) (b : ℕ) : Bool := decide (r.start ≤ b ∧ b < r.start + roundUp r.length)

theorem covers_iff {r : Remap} {b : ℕ} :
    r.covers b = true ↔ r.start ≤ b ∧ b < r.start + roundUp r.length := by
  rw [covers, decide_eq_true_eq]

end Remap

namespace Space

def remap (s : Space) (r : Remap) : Space :=
  { s with
    mapped := fun b => if r.covers b then r.access else s.mapped b
    mem := fun b => if r.covers b then r.content b else s.mem b }

/-! ## The tracker -/

/-- The pages that the loops of `mark_used` and `mark_free` visit. -/
def markPages (s : Space) (start len : ℕ) (v : Bool) : Space :=
  { s with
    used := fun pn =>
      if start / PAGE_SIZE ≤ pn ∧ pn < start / PAGE_SIZE + (len + (PAGE_SIZE - 1)) / PAGE_SIZE
      then v else s.used pn }

def markUsed (s : Space) (start len : ℕ) : Space := s.markPages start len true

def markFree (s : Space) (start len : ℕ) : Space := s.markPages start len false

/-- The two loops of `find_free` as one: `n` pages are left before the end of the range. -/
def findFree (s : Space) (len : ℕ) : ℕ → ℕ → ℕ → Option ℕ
  | 0, _, _ => none
  | n + 1, startOfRange, addr =>
    if s.used (addr / PAGE_SIZE) then
      findFree s len n (addr + PAGE_SIZE) (addr + PAGE_SIZE)
    else if len ≤ addr - startOfRange then some startOfRange
    else findFree s len n startOfRange (addr + PAGE_SIZE)

/-! ## Mapping and unmapping -/

/-- The arguments of an mmap, and the answer of the host: `none` for a failure, else the address
of a mapping that is not fixed and the bytes of one that is not anonymous. -/
structure MmapCall where
  addr : ℕ
  len : ℕ
  prot : BitVec 32
  flags : BitVec 32
  answer : Option (ℕ × Mem)

namespace MmapCall

def MAP_FIXED : BitVec 32 := 0x10

def MAP_ANON : BitVec 32 := 0x20

/-- Any of `PROT_READ`, `PROT_WRITE` and `PROT_EXEC` makes the bytes readable on the host. -/
def access (c : MmapCall) : Bool := c.prot &&& 7 ≠ 0

def anonymous (c : MmapCall) : Bool := c.flags &&& MAP_ANON ≠ 0

def fixed (c : MmapCall) : Bool := c.flags &&& MAP_FIXED ≠ 0

end MmapCall

/-- Where the host is asked to map, and whether it has to map there. `none`: the request is
refused, or `find_free` finds nothing. -/
def mmapRequest (s : Space) (c : MmapCall) : Option (ℕ × Bool) :=
  if HOST_MMAP_BASE < (c.addr + c.len) % 2 ^ 64 then none
  else if c.addr = 0 then
    (s.findFree c.len ((HOST_MMAP_BASE - GUEST_MMAP_BASE) / PAGE_SIZE) GUEST_MMAP_BASE
      GUEST_MMAP_BASE).map fun a => (a, true)
  else some (c.addr, c.fixed)

/-- What `__guest_mmap` maps. -/
def guestMmap (s : Space) (c : MmapCall) : Option Remap := do
  let (addr, fixed) ← s.mmapRequest c
  let (chosen, file) ← c.answer
  some ⟨if fixed then addr else chosen, c.len, c.access, if c.anonymous then fun _ => 0 else file⟩

def sysMmap (s : Space) (c : MmapCall) : Space :=
  match s.guestMmap c with
  | some r => (s.remap r).markUsed r.start r.length
  | none => s

/-- What an unmapping leaves of a range. -/
def unmapping (s : Space) (addr len : ℕ) : Remap := ⟨addr, len, false, s.mem⟩

def sysMunmap (s : Space) (addr len : ℕ) (ok : Bool) : Space :=
  if ok then (s.remap (s.unmapping addr len)).markFree addr len else s

/-- The heap segment that `abi_sys_brk` maps past the end of the heap. This mapping is not the
tracker's. -/
def brkRemap (s : Space) (newBrk : ℕ) (ok : Bool) : Option Remap :=
  if newBrk = 0 ∨ newBrk ≤ s.heapEnd then none
  else if ok then
    some ⟨s.heapEnd, (roundUp newBrk + (2 ^ 64 - s.heapEnd)) % 2 ^ 64, true, fun _ => 0⟩
  else none

def sysBrk (s : Space) (newBrk : ℕ) (ok : Bool) : Space :=
  -- return current brk
  if newBrk = 0 then s
  -- shrink brk
  else if newBrk ≤ s.heapEnd then { s with brk := newBrk }
  -- map a new heap segment
  else
    match s.brkRemap newBrk ok with
    | some r => { s.remap r with heapEnd := roundUp newBrk, brk := newBrk }
    | none => s

/-! ## What the calls do to the bytes -/

/-- The bytes are those of `s` with `r`, if any, mapped over them. -/
structure Remapped (s s' : Space) (r : Option Remap) : Prop where
  mapped : s'.mapped = (r.elim s fun r => s.remap r).mapped
  mem : s'.mem = (r.elim s fun r => s.remap r).mem

theorem sysMmap_remapped (s : Space) (c : MmapCall) :
    Remapped s (s.sysMmap c) (s.guestMmap c) := by
  unfold sysMmap
  cases s.guestMmap c with
  | none => exact ⟨rfl, rfl⟩
  | some r => exact ⟨rfl, rfl⟩

theorem sysMunmap_remapped (s : Space) (addr len : ℕ) (ok : Bool) :
    Remapped s (s.sysMunmap addr len ok) (if ok then some (s.unmapping addr len) else none) := by
  unfold sysMunmap
  cases ok with
  | false => exact ⟨rfl, rfl⟩
  | true => exact ⟨rfl, rfl⟩

theorem sysBrk_remapped (s : Space) (newBrk : ℕ) (ok : Bool) :
    Remapped s (s.sysBrk newBrk ok) (s.brkRemap newBrk ok) := by
  unfold sysBrk
  by_cases hzero : newBrk = 0
  · rw [if_pos hzero, brkRemap, if_pos (.inl hzero)]
    exact ⟨rfl, rfl⟩
  rw [if_neg hzero]
  by_cases hle : newBrk ≤ s.heapEnd
  · rw [if_pos hle, brkRemap, if_pos (.inr hle)]
    exact ⟨rfl, rfl⟩
  rw [if_neg hle]
  cases s.brkRemap newBrk ok with
  | none => exact ⟨rfl, rfl⟩
  | some r => exact ⟨rfl, rfl⟩

end Space

end RvCkpt
