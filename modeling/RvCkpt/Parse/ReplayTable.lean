import RvCkpt.Recorder.PageRec
import Mathlib.Data.List.Sort

/-! # The replay table

`SysCall.make_entry` and `Checkpoint.make_replay_table` of `src/ckpt/parse.py`. An item of the
table begins with a tag or an address in its first word, its data is padded to whole words, and
the items are joined without anything in between.
-/

namespace RvCkpt.Parse
open ByteMem
set_option autoImplicit false

def RET : BitVec 64 := 0

def EXIT : BitVec 64 := 1

def ENTRY : BitVec 64 := 2

def RET_VERBOSE : BitVec 64 := 3

/-- A system call, or the breakpoint that ends a checkpoint (`isBreak`). A write is the pair of
`waddr` and `wdata`. -/
structure SysCall where
  addr : ℕ
  retval : BitVec 64
  alterRd : Option ℕ
  isBreak : Bool
  write : Option (BitVec 64 × List Byte)
  deriving DecidableEq

namespace SysCall

def padding (wdata : List Byte) : List Byte :=
  List.replicate ((wdata.length + 7) / 8 * 8 - wdata.length) 0

def writeItem (waddr : BitVec 64) (wdata : List Byte) : List Byte :=
  word waddr ++ word (BitVec.ofNat 64 wdata.length) ++ wdata ++ padding wdata

def makeEntry (verbose : Bool) (call : SysCall) : List Byte :=
  (match call.write with
    | some (waddr, wdata) => writeItem waddr wdata
    | none => []) ++
  if call.isBreak then word EXIT ++ word 0
  else word (if verbose then RET_VERBOSE else RET) ++ word call.retval

end SysCall

/-- A store of the store trace: its slot is in use and its value has its width. -/
structure StoreRecord where
  addr : BitVec 64
  size : Width
  data : BitVec 64
  used : addr ≠ 0
  fits : data.toNat < 256 ^ size.bytes

namespace StoreRecord

/-- The order of the tuples `(addr, size, data)`. -/
def Le (s t : StoreRecord) : Prop :=
  s.addr.toNat < t.addr.toNat ∨ (s.addr = t.addr ∧
    (s.size.bytes < t.size.bytes ∨ (s.size = t.size ∧ s.data.toNat ≤ t.data.toNat)))

instance : DecidableRel Le := fun s t =>
  inferInstanceAs (Decidable (s.addr.toNat < t.addr.toNat ∨ (s.addr = t.addr ∧
    (s.size.bytes < t.size.bytes ∨ (s.size = t.size ∧ s.data.toNat ≤ t.data.toNat)))))

def entry (s : StoreRecord) : List Byte :=
  word s.addr ++ word (BitVec.ofNat 64 s.size.bytes) ++ word s.data

end StoreRecord

def sortedStores (stores : List StoreRecord) : List StoreRecord :=
  stores.insertionSort StoreRecord.Le

def storeTable (stores : List StoreRecord) : List Byte :=
  (sortedStores stores).flatMap StoreRecord.entry ++ (word 0 ++ word 0)

/-- `make_replay_table`; `a0` is register 10 of the checkpoint. -/
def makeReplayTable (verbose : Bool) (a0 : BitVec 64) (syscalls : List SysCall)
    (stores : List StoreRecord) : List Byte :=
  (word ENTRY ++ word a0) ++ syscalls.flatMap (SysCall.makeEntry verbose) ++ storeTable stores

end RvCkpt.Parse
