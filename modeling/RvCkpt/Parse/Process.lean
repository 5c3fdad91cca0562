import RvCkpt.Parse.Inject
import RvCkpt.Parse.ReadLog

/-! # A checkpoint that breaks at a repeating instruction

`Checkpoint.process` of `src/ckpt/parse.py`. The checkpoint is injected, run again under the
monitor, and injected once more with the executions of the break instruction put among the system
calls, in the order in which the rerun prints them.
-/

namespace RvCkpt.Parse
open Text State
set_option autoImplicit false

/-- `readline` again and again: the lines with their newlines. -/
def readlines : List Char → List (List Char)
  | [] => []
  | c :: cs =>
    if c = '\n' then ['\n'] :: readlines cs
    else
      match readlines cs with
      | [] => [[c]]
      | line :: rest => (c :: line) :: rest

/-- How the rerun can fail: without the loader's last line, at the end of the output, with a
system call too many or with another result, or with a line that has no number. -/
inductive RerunError where
  | expectedCl
  | incomplete
  | emptyQueue
  | wrongResult
  | noNumber
  deriving DecidableEq, Repr

def skipLoader : List (List Char) → Except RerunError (List (List Char))
  | [] => .error .expectedCl
  | line :: rest => if line = "invoke cl\n".toList then .ok rest else skipLoader rest

/-- The loop's variables. The first system call of `syscallQueue` is the next to be popped. -/
structure Merge where
  syscallQueue : List SysCall
  newSyscalls : List SysCall
  repeatCount : ℤ

/-- The second word of a line, as a hexadecimal number. -/
def lineValue (line : List Char) : Option ℕ := (words line)[1]?.bind readHex

/-- An execution of the break instruction, which sets `rd`. -/
def execution (addr rd : ℕ) (val : BitVec 64) : SysCall := ⟨addr, val, some rd, false, none⟩

def mergeLine (addr rd : ℕ) (st : Merge) (line : List Char) : Except RerunError Merge :=
  if "execute".toList.isPrefixOf line then
    match lineValue line with
    | none => .error .noNumber
    | some val => .ok { st with
        newSyscalls := st.newSyscalls ++ [execution addr rd (BitVec.ofNat 64 val)]
        repeatCount := st.repeatCount - 1 }
  else if "syscall".toList.isPrefixOf line then
    match lineValue line, st.syscallQueue with
    | none, _ => .error .noNumber
    | some _, [] => .error .emptyQueue
    | some val, call :: queue =>
      if call.isBreak = false ∧ val = call.retval.toNat then
        .ok { st with syscallQueue := queue, newSyscalls := st.newSyscalls ++ [call] }
      else .error .wrongResult
  else .ok st

/-- The loop: the new system calls, and the lines that have not been read. -/
def mergeLines (addr rd : ℕ) :
    Merge → List (List Char) → Except RerunError (List SysCall × List (List Char))
  | _, [] => .error .incomplete
  | st, line :: rest => do
    let st ← mergeLine addr rd st line
    if st.repeatCount = 1 ∧ st.syscallQueue = [] then
      .ok (st.newSyscalls ++ [breakCall addr], rest)
    else mergeLines addr rd st rest

namespace Checkpoint

/-- What is made of the output of the rerun. The breakpoint is the break's address, destination
register and execution count. -/
def rerun (cp : Checkpoint) (breakpoint : ℕ × ℕ × ℕ) (output : List Char) :
    Except RerunError (List SysCall × List (List Char)) := do
  let (addr, rd, count) := breakpoint
  let rest ← skipLoader (readlines output)
  mergeLines addr rd ⟨cp.syscalls, [], count⟩ rest

/-- `process`, with the output that the rerun of an injected checkpoint prints. -/
def process (asm : Assembler) (cp : Checkpoint) (breakpoint : Option (ℕ × ℕ × ℕ))
    (run : Injection → List Char) : Option Injection :=
  match breakpoint with
  | none => processOnce asm cp false
  | some breakpoint => do
    let first ← processOnce asm cp true
    match rerun cp breakpoint (run first) with
    | .error _ => none
    | .ok (newSyscalls, _) => processOnce asm { cp with syscalls := newSyscalls } false

end Checkpoint

end RvCkpt.Parse
