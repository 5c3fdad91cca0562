import RvCkpt.Lib.Text
import RvCkpt.Parse.PageMap
import RvCkpt.Parse.ReplayTable

/-! # Reading a log

`main` of `src/ckpt/parse.py`, up to the checkpoints that it hands to `process`. An exception ends
it; what has been handed over until then is kept. The directory holds the dump files by name and
says which outputs exist already; what `process` itself writes carries the name of its own
checkpoint.
-/

namespace RvCkpt.Parse
open ByteMem Text
set_option autoImplicit false

/-- A checkpoint while its lines are read. A page's execution counts are kept beside the page. -/
structure Draft where
  entryPc : ℕ
  regs : List (BitVec 64)
  syscalls : List SysCall
  breakpoint : Option (ℕ × ℕ × ℕ)
  pages : PageMap
  counts : AList fun _ : ℕ => List ℕ
  pathPrefix : Option (List Char)
  stores : List (ℕ × ℕ × ℕ)

def Draft.new (entryPc : ℕ) : Draft := ⟨entryPc, [], [], none, ∅, ∅, none, []⟩

structure Directory where
  files : List Char → Option (List Byte)
  present : List Char → Bool
  rebuild : Bool
  bbv : Bool

/-- The root of `os.path.splitext` for a name without a directory. -/
def splitext (name : List Char) : List Char :=
  match name.reverse.dropWhile (· ≠ '.') with
  | [] => name
  | _ :: root => if root.all (· = '.') then name else root.reverse

/-- `exists` of a checkpoint with its path prefix. -/
def Directory.exists (dir : Directory) (pathPrefix : List Char) (breakpoint : Option (ℕ × ℕ × ℕ)) :
    Bool :=
  let pass := if breakpoint.isNone then ".1".toList else ".2".toList
  (!dir.bbv || dir.present (pathPrefix ++ ".bb".toList)) &&
    dir.present (pathPrefix ++ pass ++ ".cfg".toList) &&
    dir.present (pathPrefix ++ pass ++ ".dump".toList)

/-- `dump` is what is left to read of the open dump file, if one is open. -/
structure State where
  cur : Option Draft
  dump : Option (List Byte)
  submitted : List Draft

namespace State

/-- `submit_task`. It fails for a checkpoint without a `file` line. -/
def submit (st : State) : Except (List Draft) State :=
  match st.cur with
  | none => .ok st
  | some d =>
    if d.pathPrefix.isNone then .error st.submitted
    else .ok { st with dump := none, submitted := st.submitted ++ [d] }

/-- The value, or the exception. -/
def orRaise {α : Type} (st : State) : Option α → Except (List Draft) α
  | some x => .ok x
  | none => .error st.submitted

def readBegin (st : State) (args : List (List Char)) : Except (List Draft) State := do
  let st ← st.submit
  let entryPc ← st.orRaise (args[0]?.bind readHex)
  .ok { st with cur := some (.new entryPc) }

def readReg (val : List Char) : Option (BitVec 64) := do
  let reg ← readHex val
  if reg < 2 ^ 64 then some (BitVec.ofNat 64 reg) else none

def readRegs (d : Draft) (args : List (List Char)) : Option Draft := do
  let regs ← args.mapM readReg
  some { d with regs := d.regs ++ regs }

/-- `set_wdata` -/
def readBytes : List Char → Option (List Byte)
  | [] => some []
  | a :: b :: rest => do
    let v ← readHex [a, b]
    let vs ← readBytes rest
    some (BitVec.ofNat 8 v :: vs)
  | [_] => none

def breakCall (addr : ℕ) : SysCall := ⟨addr, 0, none, true, none⟩

def readSyscall (d : Draft) (args : List (List Char)) : Option Draft := do
  let addr ← args[0]?.bind readHex
  if args[2]? = some "exit".toList then
    some { d with syscalls := d.syscalls ++ [breakCall addr] }
  else do
    let retval ← args[1]?.bind readHex
    let write ← match args[2]? with
      | none => some none
      | some waddr => do
        let waddr ← readHex waddr
        let wdata ← args[3]?.bind readBytes
        some (some (BitVec.ofNat 64 waddr, wdata))
    some { d with
      syscalls := d.syscalls ++ [⟨addr, BitVec.ofNat 64 retval, none, false, write⟩] }

def readBreak (d : Draft) (args : List (List Char)) : Option Draft := do
  let addr ← args[0]?.bind readHex
  let kind ← args[1]?
  if kind = "repeat".toList then do
    let count ← args[2]?.bind (readDigits 10)
    let rd ← args[3]?.bind (readDigits 10)
    if rd ≠ 0 then some { d with breakpoint := some (addr, rd, count) } else none
  else some { d with syscalls := d.syscalls ++ [breakCall addr] }

def readFile (dir : Directory) (st : State) (args : List (List Char)) : Option State := do
  let d ← st.cur
  let name ← args[0]?
  let pathPrefix := splitext name
  if dir.rebuild || !dir.exists pathPrefix d.breakpoint then do
    let bytes ← dir.files name
    some { st with cur := some { d with pathPrefix := some pathPrefix }, dump := some bytes }
  else some { st with cur := none }

/-- The `count` execution counts of a page. -/
def countsOf (data : List Byte) : List ℕ :=
  (List.range (PAGE_SIZE / 2)).map fun i => leNat (fun j => data.getD (4 * i + j) 0) 4

def readPage (st : State) (args : List (List Char)) : Option State :=
  match st.cur with
  | none => some st
  | some d => do
    let dump ← st.dump
    let bitmap := dump.take (PAGE_SIZE / 8)
    let data := (dump.drop (PAGE_SIZE / 8)).take PAGE_SIZE
    let pn ← args[0]?.bind readHex
    let page := Page.ofBytes (fun i => bitmap.getD i 0) fun i => data.getD i 0
    some { st with
      cur := some { d with pages := d.pages.insert pn page, counts := d.counts.erase pn }
      dump := some ((dump.drop (PAGE_SIZE / 8)).drop PAGE_SIZE) }

def readExec (st : State) (args : List (List Char)) : Option State :=
  match st.cur with
  | none => some st
  | some d => do
    let dump ← st.dump
    let data := dump.take (PAGE_SIZE * 2)
    let pn ← args[0]?.bind readHex
    some { st with
      cur := some { d with
        pages := d.pages.insert pn (d.pages.getItem pn)
        counts := d.counts.insert pn (countsOf data) }
      dump := some (dump.drop (PAGE_SIZE * 2)) }

def readStore (st : State) (args : List (List Char)) : Option State :=
  match st.cur with
  | none => some st
  | some d => do
    let addr ← args[0]?.bind readHex
    let digits ← args[1]?
    let data ← readHex digits
    some { st with cur := some { d with stores := d.stores ++ [(addr, digits.length / 2, data)] } }

/-- A line that adds to the current checkpoint. -/
def onCur (st : State) (f : Draft → Option Draft) : Option State := do
  let d ← st.cur
  let d ← f d
  some { st with cur := some d }

def readLine (dir : Directory) (st : State) (line : List Char) : Except (List Draft) State :=
  match words line with
  | [] => .error st.submitted
  | kw :: args =>
    if kw = "begin".toList then st.readBegin args
    else if kw = "ireg".toList ∨ kw = "freg".toList then
      st.orRaise (st.onCur fun d => readRegs d args)
    else if kw = "syscall".toList then st.orRaise (st.onCur fun d => readSyscall d args)
    else if kw = "break".toList then st.orRaise (st.onCur fun d => readBreak d args)
    else if kw = "file".toList then st.orRaise (readFile dir st args)
    else if kw = "page".toList then st.orRaise (readPage st args)
    else if kw = "exec".toList then st.orRaise (readExec st args)
    else if kw = "store".toList then st.orRaise (readStore st args)
    else .error st.submitted

/-- What has been handed over when the reading is over. -/
def finish : Except (List Draft) State → List Draft
  | .error submitted => submitted
  | .ok st =>
    match st.submit with
    | .error submitted => submitted
    | .ok st => st.submitted

end State

/-- The checkpoints that `main` hands to `process`. -/
def main (dir : Directory) (log : List Char) : List Draft :=
  State.finish ((lines log).foldlM (State.readLine dir) ⟨none, none, []⟩)

end RvCkpt.Parse
