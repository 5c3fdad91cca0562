import RvCkpt.Lib.Text
import RvCkpt.Recorder.LogShape

/-! # What a log and its dump files look like

The text that the `fprintf` calls of `CheckpointManager` and of `MemTrace::dump` print, and the
bytes of the page and execution records that `dump` writes.
-/

namespace RvCkpt
open ByteMem Text
set_option autoImplicit false

/-- `%lx` -/
def hex (n : ℕ) : List Char := numeral 16 n

/-- `0x%lx`, and `%p` of a pointer that is not null -/
def prefixedHex (n : ℕ) : List Char := '0' :: 'x' :: numeral 16 n

/-- `%02x` for every byte -/
def hexBytes (bs : List Byte) : List Char := bs.flatMap fun b => padded 16 2 b.toNat

def BreakKind.words : BreakKind → List (List Char)
  | .ecall => ["ecall".toList]
  | .first => ["first".toList]
  | .firstrvc => ["firstrvc".toList]
  | .repeat count rd => ["repeat".toList, numeral 10 count.toNat, numeral 10 rd]

/-- `checkpoint_%019lu_%019lu` -/
def fileRoot (beginInstret instret : BitVec 64) : List Char :=
  "checkpoint_".toList ++ padded 10 19 beginInstret.toNat ++
    '_' :: padded 10 19 instret.toNat

def fileName (beginInstret instret : BitVec 64) : List Char :=
  fileRoot beginInstret instret ++ ".dump".toList

def pageLine (pn : ℕ) : List Char := unwords ["page".toList, prefixedHex pn] ++ ['\n']

def execLine (pn : ℕ) : List Char := unwords ["exec".toList, prefixedHex pn] ++ ['\n']

def regWords (reg : ℕ → BitVec 64) : List (List Char) :=
  (List.range 32).map fun i => hex (reg i).toNat

def LogItem.text : LogItem → List Char
  | .begin addr ireg freg =>
    unwords ["begin".toList, prefixedHex addr] ++ '\n' ::
      (unwords ("ireg".toList :: regWords ireg) ++ '\n' ::
        (unwords ("freg".toList :: regWords freg) ++ ['\n']))
  | .break addr kind => unwords ("break".toList :: prefixedHex addr :: kind.words) ++ ['\n']
  | .file beginInstret instret pages execs =>
    unwords ["file".toList, fileName beginInstret instret] ++ '\n' ::
      (pages.flatMap fun page => pageLine page.1) ++ execs.flatMap fun exec => execLine exec.1
  | .store addr size data =>
    unwords ["store".toList, prefixedHex addr, padded 16 (size * 2) data.toNat] ++ ['\n']
  | .syscall addr => unwords ["syscall".toList, prefixedHex addr]
  | .result retval write =>
    ' ' :: hex retval.toNat ++
      (match write with
        | some (addr, data) => ' ' :: prefixedHex addr ++ ' ' :: hexBytes data
        | none => []) ++ ['\n']
  | .exit rc => ' ' :: unwords [hex rc.toNat, "exit".toList] ++ ['\n']

def logText (items : List LogItem) : List Char := items.flatMap LogItem.text

/-! ## Dump files -/

def PageRec.bytes (p : PageRec) : List Byte :=
  (List.range (PAGE_SIZE / 8)).map p.visited ++ (List.range PAGE_SIZE).map p.content

def ExecRec.bytes (e : ExecRec) : List Byte :=
  (List.range (PAGE_SIZE / 2)).flatMap fun i =>
    (List.range 4).map (byteAt ((e.count i).setWidth 64))

def dumpBytes (pages : List (Σ _ : ℕ, PageRec)) (execs : List (Σ _ : ℕ, ExecRec)) : List Byte :=
  (pages.flatMap fun page => page.2.bytes) ++ execs.flatMap fun exec => exec.2.bytes

/-- The dump files by their names. A file of the same name is written over. -/
def dumpFiles : List LogItem → List Char → Option (List Byte)
  | [], _ => none
  | item :: rest, name =>
    (dumpFiles rest name).orElse fun _ =>
      match item with
      | .file beginInstret instret pages execs =>
        if name = fileName beginInstret instret then some (dumpBytes pages execs) else none
      | _ => none

end RvCkpt
