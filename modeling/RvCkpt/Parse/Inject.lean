import RvCkpt.Parse.FreeList
import RvCkpt.Parse.ReplayTable

/-! # Injecting the replay code

`MakeHelper` and `Checkpoint.process_once` of `src/ckpt/parse.py`. The assembler that makes the
binaries of `near.S`, `far.S` and `jump.S` is a parameter. `processOnce` returns the page map it
dumps and where it put what; `none` is an exception or a search that never ends.
-/

namespace RvCkpt.Parse
open ByteMem
set_option autoImplicit false

def J_MAX_OFFS : ℤ := 1 <<< 20

/-- The `ALTER_RD` flags that `near.S` is assembled with. -/
inductive Alter where
  | none
  | sp
  | reg (rd : ℕ)
  deriving DecidableEq, Repr

def alterFlag : Option ℕ → Alter
  | some 10 => .none
  | some 2 => .sp
  | some rd => .reg rd
  | none => .none

/-- `make near.bin`, `make far.bin` and `make jump.bin`, by their parameters. -/
structure Assembler where
  nearBin : (nearBuf : ℕ) → (farCall : Option ℕ) → Alter → List Byte
  farBin : (replaySp replayPc : ℕ) → List Byte
  jumpBin : (offset : ℤ) → List Byte

/-- Every instruction is encoded in the same number of bytes whatever constants it is given, and
`jump.S` is not compressed. -/
structure Assembler.FixedSize (asm : Assembler) : Prop where
  near : ∀ nearBuf nearBuf' farCall farCall' alter, farCall.isSome = farCall'.isSome →
    (asm.nearBin nearBuf farCall alter).length = (asm.nearBin nearBuf' farCall' alter).length
  far : ∀ sp sp' pc pc', (asm.farBin sp pc).length = (asm.farBin sp' pc').length
  jump : ∀ offset, (asm.jumpBin offset).length = 4

namespace MakeHelper

variable (asm : Assembler)

def jump (offset : ℤ) : Option (List Byte) :=
  if offset < J_MAX_OFFS ∧ -J_MAX_OFFS ≤ offset then some (asm.jumpBin offset) else none

def near (retPc nearPc nearBuf : ℕ) (farPc alterRd : Option ℕ) : Option (List Byte) := do
  let near := asm.nearBin nearBuf farPc (alterFlag alterRd)
  let ret ← jump asm ((retPc : ℤ) - nearPc - near.length)
  some (near ++ ret)

def far (replaySp replayPc : ℕ) : List Byte := asm.farBin replaySp replayPc

end MakeHelper

structure Checkpoint where
  entryPc : ℕ
  regs : List (BitVec 64)
  syscalls : List SysCall
  pages : PageMap
  stores : List StoreRecord

/-- The dictionary from a call's address to the place reserved for its near call. -/
abbrev NearMap := List (ℕ × ℕ)

/-- A near call that has been written, with the jump that leads to it. -/
structure Site where
  addr : ℕ
  trap : List Byte
  nearAddr : ℕ
  nearCall : List Byte

structure Injection where
  pages : PageMap
  sites : List Site
  entryAddr : ℕ
  entryCall : List Byte
  farAddr : ℕ
  farCall : List Byte
  regsAddr : ℕ
  replayStackSize : ℕ

namespace Checkpoint

/-- The pages with all four bytes of every call set. -/
def markSites (pages : PageMap) (syscalls : List SysCall) : PageMap :=
  syscalls.foldl (fun pages call => pages.put call.addr (List.replicate 4 0)) pages

/-- Reserve space for the near calls, one for each address. -/
def reserveNear (asm : Assembler) :
    PageMap → List (ℕ × ℕ) → NearMap → List SysCall → Option (PageMap × List (ℕ × ℕ) × NearMap)
  | pages, freeList, nearMap, [] => some (pages, freeList, nearMap)
  | pages, freeList, nearMap, call :: rest =>
    if (nearMap.lookup call.addr).isSome then reserveNear asm pages freeList nearMap rest
    else do
      let size ← (MakeHelper.near asm 0 0 0 (some 0) call.alterRd).map List.length
      let (pages, freeList, nearAddr) ← pages.reserve freeList call.addr size
      reserveNear asm pages freeList (nearMap ++ [(call.addr, nearAddr)]) rest

/-- Write the near calls and the jumps to them; an address is popped with its first call. -/
def writeNear (asm : Assembler) (nearBuf farAddr : ℕ) :
    PageMap → NearMap → List SysCall → Option (PageMap × List Site)
  | pages, _, [] => some (pages, [])
  | pages, nearMap, call :: rest =>
    match nearMap.lookup call.addr with
    | none => writeNear asm nearBuf farAddr pages nearMap rest
    | some nearAddr => do
      let trap ← MakeHelper.jump asm ((nearAddr : ℤ) - call.addr)
      let nearCall ← MakeHelper.near asm (call.addr + 4) nearAddr nearBuf (some farAddr) call.alterRd
      let pages := (pages.put call.addr trap).put nearAddr nearCall
      let (pages, sites) ← writeNear asm nearBuf farAddr pages
        (nearMap.filter fun entry => entry.1 ≠ call.addr) rest
      some (pages, ⟨call.addr, trap, nearAddr, nearCall⟩ :: sites)

/-- The registers as they are written to the replay stack: the far call in place of x0, the entry
call in place of a0. -/
def patchedRegs (regs : List (BitVec 64)) (farAddr entryAddr : ℕ) : List (BitVec 64) :=
  (regs.set 0 (BitVec.ofNat 64 farAddr)).set 10 (BitVec.ofNat 64 entryAddr)

/-- Everything after the free list has been made. -/
def place (asm : Assembler) (cp : Checkpoint) (verbose : Bool) (pages : PageMap)
    (freeList : List (ℕ × ℕ)) : Option Injection := do
  let (pages, freeList, nearMap) ← reserveNear asm pages freeList [] cp.syscalls
  let entrySize ← (MakeHelper.near asm 0 0 0 none none).map List.length
  let (pages, freeList, entryAddr) ← pages.reserve freeList cp.entryPc entrySize
  let (pages, _, farAddr) ← pages.reserve freeList cp.entryPc (MakeHelper.far asm 0 0).length
  let a0 ← cp.regs[10]?
  let sp ← cp.regs[2]?
  let replayTable := makeReplayTable verbose a0 cp.syscalls cp.stores
  let replayStackSize := 64 * 8 + 8 + 8 + replayTable.length + 8
  let regsAddr := pages.reservePage replayStackSize * PAGE_SIZE
  let replaySpAddr := regsAddr + 64 * 8
  let replayPcAddr := replaySpAddr + 8
  let replayTableAddr := replayPcAddr + 8
  let nearBuf := replayTableAddr + replayTable.length
  let (pages, sites) ← writeNear asm nearBuf farAddr pages nearMap cp.syscalls
  let entryCall ← MakeHelper.near asm cp.entryPc entryAddr nearBuf none none
  let farCall := MakeHelper.far asm replaySpAddr replayPcAddr
  let pages := (pages.put entryAddr entryCall).put farAddr farCall
  let regs := (patchedRegs cp.regs farAddr entryAddr).flatMap word
  let pages := ((pages.put regsAddr regs).put replayTableAddr replayTable).put nearBuf (word sp)
  some ⟨pages, sites, entryAddr, entryCall, farAddr, farCall, regsAddr, replayStackSize⟩

def processOnce (asm : Assembler) (cp : Checkpoint) (verbose : Bool) : Option Injection :=
  let pages := markSites cp.pages cp.syscalls
  place asm cp verbose pages pages.makeFreeList

end Checkpoint

end RvCkpt.Parse
