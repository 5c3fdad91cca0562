import RvCkpt.Priv.Hart
import RvCkpt.Priv.Timer

/-! # Traps and interrupts

`strap`, `mtrap`, `isr`, `trap` and the returns `sret` and `mret` of
`src/src/emu/processor-priv-1.9.h`.
-/

namespace RvCkpt.Priv
set_option autoImplicit false
open BitField Status

section
variable {xl : Xlen}

/-! ## Entry and return -/

/-- The level whose handler is entered. -/
inductive Entry where
  | s | m
  deriving DecidableEq, Repr

/-- What a cause register is set to. -/
def causeWord (cause : ℕ) (interrupt : Bool) : xl.UX :=
  BitVec.ofNat _ cause ||| if interrupt then BitVec.twoPow _ (xl.width - 1) else 0

def strap (s : Hart xl) (cause : ℕ) (interrupt : Bool) : Hart xl :=
  let s₁ := (s.set .sepc s.pc).set .scause (causeWord cause interrupt)
  let s₂ := s₁.setField .mstatus spp s.mode.toNat
  let s₃ := s₂.setField .mstatus spie (s₂.field .mstatus sie)
  let s₄ := s₃.setField .mstatus sie 0
  { s₄ with mode := .S, pc := s₄.csr .stvec }

def mtrap (s : Hart xl) (cause : ℕ) (interrupt : Bool) : Hart xl :=
  let s₁ := (s.set .mepc s.pc).set .mcause (causeWord cause interrupt)
  let s₂ := s₁.setField .mstatus mpp s.mode.toNat
  let s₃ := s₂.setField .mstatus mpie (s₂.field .mstatus mie)
  let s₄ := s₃.setField .mstatus mie 0
  { s₄ with mode := .M, pc := s₄.csr .mtvec }

/-- A trap to a level. -/
def enter : Entry → Hart xl → ℕ → Bool → Hart xl
  | .s => strap
  | .m => mtrap

/-- `sret`, with the offset to the next instruction; `none` in a mode that may not use it. -/
def sret (s : Hart xl) : Option (Hart xl × xl.UX) :=
  if Mode.S.toNat ≤ s.mode.toNat then
    let s₁ := { s with mode := Mode.ofField (s.field .mstatus spp) }
    let s₂ := s₁.setField .mstatus spp Mode.U.toNat
    let s₃ := s₂.setField .mstatus sie (s₂.field .mstatus spie)
    let s₄ := s₃.setField .mstatus spie 0
    some (s₄, s₄.csr .sepc - s₄.pc)
  else none

/-- `mret`, with the offset to the next instruction; `none` in a mode that may not use it. -/
def mret (s : Hart xl) : Option (Hart xl × xl.UX) :=
  if Mode.M.toNat ≤ s.mode.toNat then
    let s₁ := { s with mode := Mode.ofField (s.field .mstatus mpp) }
    let s₂ := s₁.setField .mstatus mpp Mode.U.toNat
    let s₃ := s₂.setField .mstatus mie (s₂.field .mstatus mpie)
    let s₄ := s₃.setField .mstatus mpie 0
    some (s₄, s₄.csr .mepc - s₄.pc)
  else none

/-- The end of an instruction in `step`: an offset of -1 stands for an illegal instruction. -/
def retire (r : Option (Hart xl × xl.UX)) : Option (Hart xl) :=
  r.bind fun r =>
    if r.2 = BitVec.allOnes _ then none
    else some { r.1.set .instret (r.1.csr .instret + 1) with pc := r.1.pc + r.2 }

/-- The instruction that returns from a level. -/
def ret : Entry → Hart xl → Option (Hart xl)
  | .s, s => retire (sret s)
  | .m, s => retire (mret s)

/-! ## Interrupts -/

/-- A source of interrupts: its bits in `mip` and `mie`, and the causes it has for each level. -/
structure Source where
  m : Field
  s : Field
  causeM : ℕ
  causeS : ℕ
  deriving DecidableEq, Repr

def external : Source := ⟨Intr.me, Intr.se, 11, 9⟩

def timer : Source := ⟨Intr.mt, Intr.st, 7, 5⟩

def software : Source := ⟨Intr.ms, Intr.ss, 3, 1⟩

/-- The pending bits of a source follow its request. -/
def latch (s : Hart xl) (src : Source) (request : Bool) : Hart xl :=
  (s.setField .mip src.m request.toNat).setField .mip src.s request.toNat

/-- To which level a source that requests an interrupt is taken: delegation is implicit in the
enable bits. -/
def taken (s : Hart xl) (src : Source) : Option Entry :=
  if s.field .mstatus mie = 1 ∧ s.field .mie src.m = 1 then some .m
  else if s.field .mstatus sie = 1 ∧ s.field .mie src.s = 1 then some .s
  else none

def Source.cause (src : Source) : Entry → ℕ
  | .m => src.causeM
  | .s => src.causeS

/-- The service of one source: the level that its interrupt is taken to, if any. -/
def service (s : Hart xl) (src : Source) (request : Bool) : Hart xl × Option Entry :=
  let s₁ := latch s src request
  match if request then taken s₁ src else none with
  | some e => (enter e s₁ (src.cause e) true, some e)
  | none => (s₁, none)

/-- What `isr` is told by the devices other than the timer. -/
structure Requests where
  eip : Bool
  sip : Bool

/-- `isr`, with the source and the level of the interrupt that it takes. -/
def isr {n : ℕ} (hart_id : ℕ) (req : Requests) (time : BitVec 64) (s : Hart xl) (t : Timer n) :
    Hart xl × Timer n × Option (Source × Entry) :=
  match service s external req.eip with
  | (s₁, some e) => (s₁, t, some (external, e))
  | (s₁, none) =>
    let (tip, t₁) := t.timer_pending hart_id time
    match service s₁ timer tip with
    | (s₂, some e) => (s₂, t₁, some (timer, e))
    | (s₂, none) =>
      match service s₂ software req.sip with
      | (s₃, some e) => (s₃, t₁, some (software, e))
      | (s₃, none) => (s₃, t₁, none)

/-! ## Exceptions -/

/-- The instruction that was decoded last, as far as `trap` looks at it. -/
inductive DecodedOp where
  | ebreak | ecall | other
  deriving DecidableEq, Repr

/-- The causes that are caught as illegal instructions. -/
def translateCause (mode : Mode) : DecodedOp → Cause → Cause
  | .ebreak, .illegal_instruction => .breakpoint
  | .ecall, .illegal_instruction =>
    match mode with
    | .U => .user_ecall
    | .S => .supervisor_ecall
    | .H => .hypervisor_ecall
    | .M => .machine_ecall
  | _, cause => cause

def set_badaddr : Cause → Bool
  | .misaligned_fetch | .misaligned_load | .misaligned_store => true
  | .fault_fetch | .fault_load | .fault_store => true
  | _ => false

/-- `medeleg` has the bit of the cause. -/
def delegated (s : Hart xl) (cause : Cause) : Prop :=
  s.csr .medeleg &&& BitVec.ofNat _ (2 ^ cause.code) ≠ 0

instance decidableDelegated (s : Hart xl) (cause : Cause) : Decidable (delegated s cause) :=
  instDecidableNot

/-- `trap`: `none` where an `ebreak` starts the command line or ends the run. -/
def trap (s : Hart xl) (op : DecodedOp) (cause : Cause) : Option (Hart xl × Entry) :=
  let cause := translateCause s.mode op cause
  if op = .ebreak then none
  else if delegated s cause then
    let s₁ := if set_badaddr cause then s.set .sbadaddr s.badaddr else s
    let s₂ := ((s₁.setField .mip Intr.st 0).setField .mip Intr.se 0).setField .mip Intr.ss 0
    some (strap s₂ cause.code false, .s)
  else
    let s₁ := if set_badaddr cause then s.set .mbadaddr s.badaddr else s
    let s₂ := ((s₁.setField .mip Intr.mt 0).setField .mip Intr.me 0).setField .mip Intr.ms 0
    some (mtrap s₂ cause.code false, .m)

end

end RvCkpt.Priv
