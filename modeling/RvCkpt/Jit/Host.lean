import RvCkpt.Isa.Inst
import Mathlib.Logic.Function.Basic
import Mathlib.Tactic.Common

/-! # Host code

The x86-64 instructions that the compiler emits for loads and stores, on the state they work on:
the host's registers, the fields of the processor that `rbp` points to, and the guest's memory. The
processor and the guest's memory are apart. A call of a C function leaves anything in the registers
that the callee may use, and in the upper part of a narrow result.
-/

namespace RvCkpt.Jit
open Isa
set_option autoImplicit false

/-! ## Operands -/

/-- `byte_ptr`, `word_ptr`, `dword_ptr`, `qword_ptr` -/
inductive Size where
  | byte | word | dword | qword
  deriving DecidableEq, Repr

def Size.bits : Size → ℕ
  | byte => 8
  | word => 16
  | dword => 32
  | qword => 64

abbrev Gpr := Fin 16

def rax : Gpr := 0
def rcx : Gpr := 1
def rdx : Gpr := 2
def rbx : Gpr := 3
def rsi : Gpr := 6
def rdi : Gpr := 7
def r8 : Gpr := 8
def r9 : Gpr := 9
def r10 : Gpr := 10
def r11 : Gpr := 11
def r12 : Gpr := 12
def r13 : Gpr := 13
def r14 : Gpr := 14
def r15 : Gpr := 15

/-- A field of the processor. -/
inductive Field where
  | ireg (r : Reg)
  | pc
  | cause
  deriving DecidableEq, Repr

inductive Operand where
  | reg (r : Gpr)
  | imm (v : BitVec 64)
  /-- `[rbp + proc_offset(f)]` -/
  | field (f : Field)
  /-- `[base + disp]` in the guest's memory. -/
  | data (base : Gpr) (disp : BitVec 64)
  deriving DecidableEq, Repr

/-- The functions of `mmu_ops`. -/
inductive MmuOp where
  | load (s : Size)
  | store (s : Size)
  deriving DecidableEq, Repr

inductive Ins where
  | mov (s : Size) (dst src : Operand)
  /-- Into a 32-bit register, which clears the upper half. -/
  | movzx (s : Size) (dst : Gpr) (src : Operand)
  /-- Into a 64-bit register; `movsxd` for a `dword`. -/
  | movsx (s : Size) (dst : Gpr) (src : Operand)
  | lea (dst base : Gpr) (disp : BitVec 64)
  /-- Of two 32-bit registers. -/
  | xor (dst src : Gpr)
  /-- The call of a C function. -/
  | callC (op : MmuOp)
  deriving DecidableEq, Repr

/-- What is emitted: instructions, calls of the functions that `create_load_store` makes, labels
and jumps. -/
inductive Item where
  | ins (i : Ins)
  | call (op : MmuOp)
  | cmp (f : Field) (v : BitVec 64)
  | je (label : ℕ)
  | bind (label : ℕ)
  | jmpTerm
  deriving DecidableEq, Repr

/-! ## The guest's memory -/

/-- The cause of a fault. -/
abbrev Fault := { c : BitVec 64 // c ≠ 0 }

/-- The guest's memory, with the errors that an access can raise. -/
structure Mmu (σ : Type) where
  load : (s : Size) → BitVec 64 → σ → σ × Except Fault (BitVec s.bits)
  store : (s : Size) → BitVec 64 → BitVec s.bits → σ → σ × Except Fault Unit

structure Access where
  op : MmuOp
  addr : BitVec 64
  deriving DecidableEq, Repr

/-! ## Execution -/

/-- Running, jumping ahead to a label, or at the end of the trace. -/
inductive Control where
  | run
  | skip (label : ℕ)
  | term
  deriving DecidableEq, Repr

structure Cpu (σ : Type) where
  gpr : Gpr → BitVec 64
  field : Field → BitVec 64
  mem : σ
  accesses : List Access
  zf : Bool
  control : Control

/-- A word whose lower part is `v`, and whose upper part is that of `u`. -/
def join {w : ℕ} (v : BitVec w) (u : BitVec 64) : BitVec 64 := v.setWidth 64 ||| (u >>> w) <<< w

/-- The registers that a C function may use. -/
def volatile : List Gpr := [rax, rcx, rdx, rsi, rdi, r8, r9, r10, r11]

/-- The access that a function of `mmu_ops` makes. -/
def Mmu.access {σ : Type} (mmu : Mmu σ) (op : MmuOp) (addr value : BitVec 64) (m : σ) :
    σ × Option Fault :=
  match op with
  | .load s =>
    match mmu.load s addr m with
    | (m', .ok _) => (m', none)
    | (m', .error e) => (m', some e)
  | .store s =>
    match mmu.store s addr (value.setWidth s.bits) m with
    | (m', .ok _) => (m', none)
    | (m', .error e) => (m', some e)

/-- What a function returns in `rax`. The result of a load that fails is not set. -/
def Mmu.result {σ : Type} (mmu : Mmu σ) (op : MmuOp) (addr : BitVec 64) (m : σ) (u : BitVec 64) :
    BitVec 64 :=
  match op with
  | .load s =>
    match mmu.load s addr m with
    | (_, .ok v) => join v u
    | (_, .error _) => u
  | .store _ => u

namespace Cpu
variable {σ : Type}

def setGpr (c : Cpu σ) (r : Gpr) (v : BitVec 64) : Cpu σ :=
  { c with gpr := Function.update c.gpr r v }

def setField (c : Cpu σ) (f : Field) (v : BitVec 64) : Cpu σ :=
  { c with field := Function.update c.field f v }

variable (mmu : Mmu σ)

/-- An access to the guest's memory by an operand. One that the host does not allow ends in a
signal, not here. -/
def loadData (c : Cpu σ) (s : Size) (addr : BitVec 64) : Cpu σ × BitVec 64 :=
  let (mem, value) := mmu.load s addr c.mem
  ({ c with mem := mem, accesses := c.accesses ++ [⟨.load s, addr⟩] },
    match value with
    | .ok v => v.setWidth 64
    | .error _ => 0)

def storeData (c : Cpu σ) (s : Size) (addr v : BitVec 64) : Cpu σ :=
  { c with
    mem := (mmu.store s addr (v.setWidth s.bits) c.mem).1
    accesses := c.accesses ++ [⟨.store s, addr⟩] }

/-- The value of an operand, cut to its size. -/
def read (c : Cpu σ) (s : Size) : Operand → Cpu σ × BitVec 64
  | .reg r => (c, ((c.gpr r).setWidth s.bits).setWidth 64)
  | .imm v => (c, v)
  | .field f => (c, ((c.field f).setWidth s.bits).setWidth 64)
  | .data base disp => c.loadData mmu s (c.gpr base + disp)

/-- A 32-bit register clears the upper half, a smaller one keeps the rest. -/
def writeGpr (c : Cpu σ) (s : Size) (r : Gpr) (v : BitVec 64) : Cpu σ :=
  c.setGpr r (match s with
    | .qword => v
    | .dword => (v.setWidth 32).setWidth 64
    | .word => join (v.setWidth 16) (c.gpr r)
    | .byte => join (v.setWidth 8) (c.gpr r))

def write (c : Cpu σ) (s : Size) (v : BitVec 64) : Operand → Cpu σ
  | .reg r => c.writeGpr s r v
  | .imm _ => c
  | .field f => c.setField f (join (v.setWidth s.bits) (c.field f))
  | .data base disp => c.storeData mmu s (c.gpr base + disp) v

/-- An immediate operand of a memory operand is a sign-extended 32-bit number. -/
def immFor (dst : Operand) (v : BitVec 64) : BitVec 64 :=
  match dst with
  | .reg _ => v
  | _ => (v.setWidth 32).signExtend 64

/-- A C function, with what it leaves in the registers that it may use. The processor notes the
cause of a fault. -/
def callC (junk : Gpr → BitVec 64) (c : Cpu σ) (op : MmuOp) : Cpu σ :=
  let done := mmu.access op (c.gpr rdi) (c.gpr rsi) c.mem
  { c with
    gpr := fun r =>
      if r = rax then mmu.result op (c.gpr rdi) c.mem (junk rax)
      else if r ∈ volatile then junk r else c.gpr r
    field := match done.2 with
      | some e => Function.update c.field .cause e
      | none => c.field
    mem := done.1
    accesses := c.accesses ++ [⟨op, c.gpr rdi⟩] }

def exec (junk : Gpr → BitVec 64) (c : Cpu σ) : Ins → Cpu σ
  | .mov s dst (.imm v) => c.write mmu s (immFor dst v) dst
  | .mov s dst src =>
    let (c, v) := c.read mmu s src
    c.write mmu s v dst
  | .movzx s dst src =>
    let (c, v) := c.read mmu s src
    c.writeGpr .dword dst v
  | .movsx s dst src =>
    let (c, v) := c.read mmu s src
    c.setGpr dst ((v.setWidth s.bits).signExtend 64)
  | .lea dst base disp => c.setGpr dst (c.gpr base + disp)
  | .xor dst src => c.writeGpr .dword dst (c.gpr dst ^^^ c.gpr src)
  | .callC op => c.callC mmu junk op

def execAll (junk : Gpr → BitVec 64) (c : Cpu σ) (code : List Ins) : Cpu σ :=
  code.foldl (exec mmu junk) c

/-- One item; `wrap` is the code of the functions that are called. -/
def step (wrap : MmuOp → List Ins) (junk : Gpr → BitVec 64) (c : Cpu σ) (item : Item) : Cpu σ :=
  match c.control with
  | .term => c
  | .skip label => if item = .bind label then { c with control := .run } else c
  | .run =>
    match item with
    | .ins i => c.exec mmu junk i
    | .call op => c.execAll mmu junk (wrap op)
    | .cmp f v => { c with zf := c.field f == v }
    | .je label => if c.zf then { c with control := .skip label } else c
    | .bind _ => c
    | .jmpTerm => { c with control := .term }

def run (wrap : MmuOp → List Ins) (junk : Gpr → BitVec 64) (c : Cpu σ) (code : List Item) :
    Cpu σ :=
  code.foldl (step mmu wrap junk) c

end Cpu

end RvCkpt.Jit
