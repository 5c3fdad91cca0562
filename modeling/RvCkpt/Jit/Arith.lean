import RvCkpt.Jit.LoadStoreSpec

/-! # Host arithmetic

The x86-64 instructions that the compiler emits for integer arithmetic, with the jumps between
labels of one operation. The flags are those of the last comparison: what another instruction leaves
in them no code of the compiler reads, and to read it is an error here, as a division that overflows.
-/

namespace RvCkpt.Jit
open Isa
set_option autoImplicit false

/-! ## Operations -/

/-- The operations of two operands. -/
inductive Arith where
  | add | sub | and | or | xor | imul
  deriving DecidableEq, Repr

def Arith.eval {w : ℕ} (op : Arith) (x y : BitVec w) : BitVec w :=
  match op with
  | add => x + y
  | sub => x - y
  | and => x &&& y
  | or => x ||| y
  | xor => x ^^^ y
  | imul => x * y

inductive ShiftOp where
  | shl | shr | sar | ror
  deriving DecidableEq, Repr

/-- A shift, by an amount below the width. -/
def ShiftOp.eval {w : ℕ} (op : ShiftOp) (x : BitVec w) (n : ℕ) : BitVec w :=
  match op with
  | shl => x <<< n
  | shr => x >>> n
  | sar => x.sshiftRight n
  | ror => x.rotateRight n

/-- The amount of a shift: an immediate, or the register `cl`. -/
inductive Amount where
  | imm (n : ℕ)
  | cl
  deriving DecidableEq, Repr

/-! ## Flags -/

structure Flags where
  zf : Bool
  sf : Bool
  cf : Bool
  of : Bool
  deriving DecidableEq, Repr

/-- The flags of a comparison. -/
def cmpFlags {w : ℕ} (x y : BitVec w) : Flags :=
  ⟨x - y == 0, (x - y).msb, x.ult y, x.msb != y.msb && x.msb != (x - y).msb⟩

/-- The flags of `test`. -/
def testFlags {w : ℕ} (x y : BitVec w) : Flags := ⟨x &&& y == 0, (x &&& y).msb, false, false⟩

/-- `x86::Cond`; `setz` is `sete`. -/
inductive Cond where
  | e | ne | l | ge | b | ae | ns
  deriving DecidableEq, Repr

def Cond.holds (cond : Cond) (f : Flags) : Bool :=
  match cond with
  | e => f.zf
  | ne => !f.zf
  | l => f.sf != f.of
  | ge => f.sf == f.of
  | b => f.cf
  | ae => !f.cf
  | ns => !f.sf

/-! ## Instructions -/

inductive ArithIns where
  /-- An instruction that leaves the flags. -/
  | ins (i : Ins)
  | arith (op : Arith) (s : Size) (dst src : Operand)
  | neg (s : Size) (dst : Operand)
  | shift (op : ShiftOp) (s : Size) (dst : Operand) (amount : Amount)
  /-- `imul` and `mul` of one operand: `rax` by it, into `rdx` and `rax`. -/
  | mul (signed : Bool) (src : Gpr)
  /-- `idiv` and `div`: `rdx` and `rax` by the operand, the quotient to `rax`. -/
  | div (signed : Bool) (s : Size) (src : Operand)
  /-- `cdq` and `cqo` -/
  | widen (s : Size)
  | cmp (s : Size) (x y : Operand)
  | test (s : Size) (x y : Operand)
  /-- Into the lowest byte of a register. -/
  | setcc (cond : Cond) (dst : Gpr)
  | jcc (cond : Cond) (label : ℕ)
  | jmp (label : ℕ)
  | bind (label : ℕ)
  deriving DecidableEq, Repr

/-- Running, jumping ahead to a label, or stopped by an error. -/
inductive Status where
  | run
  | skip (label : ℕ)
  | error
  deriving DecidableEq, Repr

structure HostState (σ : Type) where
  cpu : Cpu σ
  flags : Option Flags
  status : Status

/-- Two words as one number. -/
def wide {w : ℕ} (hi lo : BitVec w) : BitVec (w + w) := hi ++ lo

/-- The quotient and the remainder of a division, `none` for the divide error. -/
def divide (signed : Bool) {w : ℕ} (n : BitVec (w + w)) (d : BitVec w) :
    Option (BitVec w × BitVec w) :=
  if signed then
    let q := n.toInt.tdiv d.toInt
    if d ≠ 0 ∧ (BitVec.ofInt w q).toInt = q then
      some (BitVec.ofInt w q, BitVec.ofInt w (n.toInt.tmod d.toInt))
    else none
  else
    let q := n.toNat / d.toNat
    if d ≠ 0 ∧ q < 2 ^ w then some (BitVec.ofNat w q, BitVec.ofNat w (n.toNat % d.toNat)) else none

namespace HostState
variable {σ : Type} (mmu : Mmu σ) (junk : Gpr → BitVec 64)

/-- The value of an operand as a word of its size. -/
def value (c : Cpu σ) (s : Size) (x : Operand) : BitVec s.bits := (c.read mmu s x).2.setWidth s.bits

def put (c : Cpu σ) (s : Size) (dst : Operand) (v : BitVec s.bits) : Cpu σ :=
  c.write mmu s (v.setWidth 64) dst

def amount (c : Cpu σ) (s : Size) : Amount → ℕ
  | .imm n => n % s.bits
  | .cl => (c.gpr rcx).toNat % s.bits

/-- An instruction while the code runs. -/
def exec (c : Cpu σ) (flags : Option Flags) : ArithIns → HostState σ
  | .ins i => ⟨c.exec mmu junk i, flags, .run⟩
  | .arith op s dst src =>
    ⟨put mmu c s dst (op.eval (value mmu c s dst) (value mmu c s src)), none, .run⟩
  | .neg s dst => ⟨put mmu c s dst (-value mmu c s dst), none, .run⟩
  | .shift op s dst n => ⟨put mmu c s dst (op.eval (value mmu c s dst) (amount c s n)), none, .run⟩
  | .mul signed src =>
    let product : BitVec 128 :=
      if signed then (c.gpr rax).signExtend 128 * (c.gpr src).signExtend 128
      else (c.gpr rax).zeroExtend 128 * (c.gpr src).zeroExtend 128
    ⟨(c.setGpr rax (product.truncate 64)).setGpr rdx ((product >>> 64).truncate 64), none, .run⟩
  | .div signed s src =>
    match divide signed (wide (value mmu c s (.reg rdx)) (value mmu c s (.reg rax)))
      (value mmu c s src) with
    | some (q, r) => ⟨put mmu (put mmu c s (.reg rax) q) s (.reg rdx) r, none, .run⟩
    | none => ⟨c, flags, .error⟩
  | .widen s =>
    ⟨put mmu c s (.reg rdx) (if (value mmu c s (.reg rax)).msb then -1 else 0), flags, .run⟩
  | .cmp s x y => ⟨c, some (cmpFlags (value mmu c s x) (value mmu c s y)), .run⟩
  | .test s x y => ⟨c, some (testFlags (value mmu c s x) (value mmu c s y)), .run⟩
  | .setcc cond dst =>
    match flags with
    | some f => ⟨put mmu c .byte (.reg dst) (if cond.holds f then 1 else 0), flags, .run⟩
    | none => ⟨c, flags, .error⟩
  | .jcc cond label =>
    match flags with
    | some f => ⟨c, flags, if cond.holds f then .skip label else .run⟩
    | none => ⟨c, flags, .error⟩
  | .jmp label => ⟨c, flags, .skip label⟩
  | .bind _ => ⟨c, flags, .run⟩

def step (h : HostState σ) (i : ArithIns) : HostState σ :=
  match h.status with
  | .run => exec mmu junk h.cpu h.flags i
  | .skip label => if i = .bind label then { h with status := .run } else h
  | .error => h

def run (code : List ArithIns) (h : HostState σ) : HostState σ := code.foldl (step mmu junk) h

end HostState

end RvCkpt.Jit
