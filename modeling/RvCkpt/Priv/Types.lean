import Mathlib.Data.Nat.Notation

/-! # Modes, causes and interrupts

The enumerations of `src/src/asm/meta.h` that the privileged machine and its memory management
share.
-/

namespace RvCkpt.Priv
set_option autoImplicit false

/-- `rv_mode` -/
inductive Mode where
  | U | S | H | M
  deriving DecidableEq, Repr

namespace Mode

def toNat : Mode → ℕ
  | U => 0
  | S => 1
  | H => 2
  | M => 3

/-- The mode that a field of mstatus holds. -/
def ofField (n : ℕ) : Mode :=
  match n % 4 with
  | 0 => U
  | 1 => S
  | 2 => H
  | _ => M

@[simp] theorem ofField_toNat (m : Mode) : ofField m.toNat = m := by
  cases m <;> rfl

end Mode

/-- `rv_cause`, as far as the emulator raises it. -/
inductive Cause where
  | misaligned_fetch | fault_fetch | illegal_instruction | breakpoint | misaligned_load
  | fault_load | misaligned_store | fault_store | user_ecall | supervisor_ecall
  | hypervisor_ecall | machine_ecall
  deriving DecidableEq, Repr

def Cause.code : Cause → ℕ
  | misaligned_fetch => 0
  | fault_fetch => 1
  | illegal_instruction => 2
  | breakpoint => 3
  | misaligned_load => 4
  | fault_load => 5
  | misaligned_store => 6
  | fault_store => 7
  | user_ecall => 8
  | supervisor_ecall => 9
  | hypervisor_ecall => 10
  | machine_ecall => 11

end RvCkpt.Priv
