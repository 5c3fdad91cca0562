import RvCkpt.Lib.Bytes

/-! # The timer device

`timer_mmio_device` of `src/src/emu/device-timer.h`: its registers as the bytes of the object, the
comparators first and then the claim times.
-/

namespace RvCkpt.Priv
set_option autoImplicit false
open ByteMem

/-- `timer_mmio_device` for `n` harts: the bytes from `timecmp` on, with what lies behind. -/
structure Timer (n : ℕ) where
  mem : Mem

/-- The width of an access. -/
inductive Width where
  | w8 | w16 | w32 | w64
  deriving DecidableEq, Repr

def Width.bytes : Width → ℕ
  | w8 => 1
  | w16 => 2
  | w32 => 4
  | w64 => 8

theorem Width.bytes_dvd (w : Width) : w.bytes ∣ 8 := by
  cases w <;> decide

theorem Width.bytes_pos (w : Width) : 0 < w.bytes := by
  cases w <;> decide

namespace Timer

variable {n : ℕ}

def total_size (n : ℕ) : ℕ := 64 * n

/-- Where an element starts that is indexed by `va` in elements of the width. -/
def element (w : Width) (va : ℕ) : ℕ := va / w.bytes * w.bytes

def claimedAddr (n hart : ℕ) : ℕ := 8 * n + 8 * hart

def timecmp (t : Timer n) (hart : ℕ) : BitVec 64 := t.mem.read (8 * hart) 8

def claimed (t : Timer n) (hart : ℕ) : BitVec 64 := t.mem.read (claimedAddr n hart) 8

/-- The constructor: comparators of 0 that nobody waits for. -/
def start (n : ℕ) : Timer n :=
  ⟨fun i => if 8 * n ≤ i ∧ i < 16 * n then BitVec.allOnes 8 else 0⟩

/-- The address is one of an element within the size. -/
def InWindow (n : ℕ) (w : Width) (va : ℕ) : Prop := va < total_size n - (w.bytes - 1)

instance decidableInWindow (n : ℕ) (w : Width) (va : ℕ) : Decidable (InWindow n w va) :=
  Nat.decLt _ _

/-- `load_8` and its siblings. -/
def load (t : Timer n) (w : Width) (va : ℕ) : BitVec 64 :=
  if InWindow n w va then t.mem.read (element w va) w.bytes else 0

/-- `store_8` and its siblings. -/
def store (t : Timer n) (w : Width) (va : ℕ) (val : BitVec 64) : Timer n :=
  if InWindow n w va then
    ⟨(t.mem.write (element w va) w.bytes val).write (claimedAddr n (va / 8)) 8 0⟩
  else t

def timer_pending (t : Timer n) (hart_id : ℕ) (time : BitVec 64) : Bool × Timer n :=
  if n ≤ hart_id ∨ t.claimed hart_id ≠ 0 then (false, t)
  else if t.timecmp hart_id ≤ time then (true, ⟨t.mem.write (claimedAddr n hart_id) 8 time⟩)
  else (false, t)

end Timer

end RvCkpt.Priv
