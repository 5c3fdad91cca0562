import RvCkpt.Priv.Types
import RvCkpt.Lib.BitField
import RvCkpt.Isa.Inst
import Mathlib.Logic.Function.Basic

/-! # The state of a hart

The registers of `processor_base` and `processor_priv` (`src/src/emu/processor-base.h` and
`src/src/emu/processor-priv-1.9.h`) that the control and status instructions, traps and interrupts
read or write.
-/

namespace RvCkpt.Priv
set_option autoImplicit false
open BitField

inductive Xlen where
  | rv32 | rv64
  deriving DecidableEq, Repr

def Xlen.width : Xlen → ℕ
  | rv32 => 32
  | rv64 => 64

theorem Xlen.width_ge (xl : Xlen) : 32 ≤ xl.width := by
  cases xl <;> decide

abbrev Xlen.UX (xl : Xlen) := BitVec xl.width

/-- The registers that control and status instructions reach. -/
inductive Reg where
  | fcsr | time | instret
  | misa | mvendorid | marchid | mimpid | mhartid | mstatus | mtvec | medeleg | mideleg | mip | mie
  | mhcounteren | mscounteren | mucounteren | mscratch | mepc | mcause | mbadaddr
  | mbase | mbound | mibase | mibound | mdbase | mdbound
  | stvec | sedeleg | sideleg | sscratch | sepc | scause | sbadaddr | sptbr
  deriving DecidableEq, Repr

@[reducible] def Reg.width (xl : Xlen) : Reg → ℕ
  | fcsr => 32
  | time => 64
  | instret => 64
  | _ => xl.width

/-- The registers, with the floating-point flags that the host has accrued (in the places they have
in `fcsr`) and its rounding mode. -/
structure Hart (xl : Xlen) where
  pc : xl.UX
  ireg : Fin 32 → xl.UX
  mode : Mode
  badaddr : xl.UX
  csr : (r : Reg) → BitVec (r.width xl)
  fenv : BitVec 32
  rm : BitVec 3

namespace Hart

variable {xl : Xlen}

def set (s : Hart xl) (r : Reg) (x : BitVec (r.width xl)) : Hart xl :=
  { s with csr := Function.update s.csr r x }

@[simp] theorem set_csr_self (s : Hart xl) (r : Reg) (x : BitVec (r.width xl)) :
    (s.set r x).csr r = x := Function.update_self _ _ _

@[simp] theorem set_csr_of_ne (s : Hart xl) {r r' : Reg} (x : BitVec (r.width xl)) (h : r' ≠ r) :
    (s.set r x).csr r' = s.csr r' := Function.update_of_ne h _ _

@[simp] theorem set_mode (s : Hart xl) (r : Reg) (x : BitVec (r.width xl)) :
    (s.set r x).mode = s.mode := rfl

@[simp] theorem set_pc (s : Hart xl) (r : Reg) (x : BitVec (r.width xl)) :
    (s.set r x).pc = s.pc := rfl

@[simp] theorem set_fenv (s : Hart xl) (r : Reg) (x : BitVec (r.width xl)) :
    (s.set r x).fenv = s.fenv := rfl

theorem set_self (s : Hart xl) (r : Reg) : s.set r (s.csr r) = s := by
  unfold set
  rw [Function.update_eq_self]

/-- A field of a register gets a value. -/
def setField (s : Hart xl) (r : Reg) (f : Field) (v : ℕ) : Hart xl := s.set r (put (s.csr r) f v)

def field (s : Hart xl) (r : Reg) (f : Field) : ℕ := get (s.csr r) f

end Hart

/-! ## Fields -/

/-- `status` -/
def Status.sie : Field := ⟨1, 1⟩

def Status.mie : Field := ⟨3, 1⟩

def Status.spie : Field := ⟨5, 1⟩

def Status.mpie : Field := ⟨7, 1⟩

def Status.spp : Field := ⟨8, 1⟩

def Status.mpp : Field := ⟨11, 2⟩

def Status.mprv : Field := ⟨17, 1⟩

def Status.vm : Field := ⟨24, 4⟩

/-- The bits of `ip` and of `ie`. -/
def Intr.ss : Field := ⟨1, 1⟩

def Intr.ms : Field := ⟨3, 1⟩

def Intr.st : Field := ⟨5, 1⟩

def Intr.mt : Field := ⟨7, 1⟩

def Intr.se : Field := ⟨9, 1⟩

def Intr.me : Field := ⟨11, 1⟩

end RvCkpt.Priv
