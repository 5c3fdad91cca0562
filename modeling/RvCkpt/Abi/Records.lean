import RvCkpt.Abi.Calls
import RvCkpt.Parse.LogSpec

/-! # The calls in the log of a run

A run of a guest whose ecalls are handled by `proxy_syscall`, and the lines that its log has for
them. The hook starts a line for an ecall in an open interval, and the handler completes it.
-/

namespace RvCkpt.Abi
open ByteMem Parse
set_option autoImplicit false

/-! ## Runs of a guest -/

/-- A pass that is no ecall. -/
structure PlainPass where
  pass : Pass
  inst : pass.inst ≠ ECALL
  accesses : ∀ r : Report, r.effect ∉ pass.effects

/-- The handler works on the registers and the memory of the pass. -/
structure Proc.At (p : Proc) (pass : Pass) : Prop where
  a0 : p.a0 = pass.ireg 10
  a1 : p.a1 = pass.ireg 11
  a2 : p.a2 = pass.ireg 12
  a3 : p.a3 = pass.ireg 13
  a7 : p.a7 = pass.ireg 17
  mem : p.space.mem = pass.live

/-- An ecall with a number that `proxy_syscall` handles. -/
structure Ecall where
  pass : Pass
  inst : pass.inst = ECALL
  proc : Proc
  regs : proc.At pass
  host : Host
  call : AbiSyscall
  number : AbiSyscall.ofNumber proc.a7.toNat = some call

structure CallPass extends Ecall where
  done : Done
  returned : proxy_syscall proc host = some (.returned done)
  effects : pass.effects = done.calls.map Report.effect

structure ExitPass extends Ecall where
  rc : BitVec 32
  exited : proxy_syscall proc host = some (.exited rc)
  effects : pass.effects = []

/-- The emulator ends in the handler. -/
structure FaultPass extends Ecall where
  faulted : proxy_syscall proc host = none
  effects : pass.effects = []

inductive Step where
  | plain (p : PlainPass)
  | call (c : CallPass)

def Step.pass : Step → Pass
  | plain p => p.pass
  | call c => c.pass

inductive Halt where
  | between
  | trap (p : PlainPass)
  | exit (e : ExitPass)
  | fault (f : FaultPass)

def Halt.ending : Halt → Ending
  | between => .between
  | trap p => .trap p.pass
  | exit e => .exit e.pass e.rc
  | fault f => .trap f.pass

/-- A run from the start of the emulator, with its log. -/
structure Run where
  manager : Manager
  out : manager.out = true
  mem : manager.mem = none
  instret : BitVec 64
  steps : List Step
  halt : Halt
  items : List (ℕ × LogItem)
  run : runProgram manager instret (steps.map Step.pass) halt.ending = some items

/-! ## Calls in open intervals -/

/-- Whether an interval is open when the instruction of the pass is executed. -/
def opened (M : Manager) (instret : BitVec 64) (p : Pass) : Bool :=
  match M.fetch p.live (p.fetched instret) with
  | some M' => M'.mem.isSome
  | none => false

/-- The step, if it is an ecall in an open interval. -/
def Step.openCall (M : Manager) (instret : BitVec 64) (i : ℕ) : Step → List (ℕ × CallPass)
  | plain _ => []
  | call c => if opened M instret c.pass then [(i, c)] else []

/-- The ecalls that are executed while an interval is open, with the numbers of their passes. -/
def openCalls (M : Manager) (instret : BitVec 64) (i : ℕ) : List Step → List (ℕ × CallPass)
  | [] => []
  | s :: steps =>
    s.openCall M instret i ++
      match s.pass.perform M instret with
      | some M' => openCalls M' (instret + 1) (i + 1) steps
      | none => []

namespace Run

def openCalls (r : Run) : List (ℕ × CallPass) := Abi.openCalls r.manager r.instret 0 r.steps

/-- The manager before the last pass. -/
def last (r : Run) : Option Manager :=
  (runLoop r.manager r.instret 0 (r.steps.map Step.pass)).map Prod.fst

/-- Whether an interval is open when the instruction of the last pass is executed. -/
def lastOpened (r : Run) (p : Pass) : Bool :=
  match r.last with
  | some M => opened M (r.instret + BitVec.ofNat 64 r.steps.length) p
  | none => false

/-- The line of an exit in an open interval. -/
def exitLine (r : Run) : List (ℕ × LogItem) :=
  match r.halt with
  | .exit e =>
    if r.lastOpened e.pass then
      [(r.steps.length, .syscall e.pass.addr), (r.steps.length, .exit e.rc)]
    else []
  | _ => []

/-- A handler has ended the emulator while an interval was open. -/
def Died (r : Run) : Prop := ∃ f, r.halt = .fault f ∧ r.lastOpened f.pass = true

end Run

/-! ## Complete logs -/

/-- The parts of `syscall` lines. -/
def callPart : LogItem → Bool
  | .syscall _ => true
  | .result _ _ => true
  | .exit _ => true
  | _ => false

/-- The script reads the text inside a checkpoint and goes on. -/
def Accepted (text : List Char) : Prop :=
  ∀ (dir : Directory) (st : State) (d : Draft), st.cur = some d → ∃ st', Reads dir st text st'

/-- One whole line for each call, in order, with the value that the handler leaves in `a0`. -/
inductive Recorded : List (ℕ × CallPass) → List (ℕ × LogItem) → Prop
  | nil : Recorded [] []
  | call {i : ℕ} {c : CallPass} {write : Option (ℕ × List Byte)} {calls : List (ℕ × CallPass)}
      {items : List (ℕ × LogItem)} (hdata : hasData write = true)
      (haccepted : Accepted (callText c.pass.addr c.done.a0 write)) (hrest : Recorded calls items) :
      Recorded ((i, c) :: calls)
        ((i, .syscall c.pass.addr) :: (i, .result c.done.a0 write) :: items)

/-- The log has one record for each ecall of each interval, and only these. An exit, which does not
return, has a line of its own. -/
def Run.Complete (r : Run) : Prop :=
  (∃ lines, r.items.filter (fun x => callPart x.2) = lines ++ r.exitLine ∧
    Recorded r.openCalls lines) ∧
  ∀ e, r.halt = .exit e →
    Accepted ((LogItem.syscall e.pass.addr).text ++ (LogItem.exit e.rc).text)

end RvCkpt.Abi
