import RvCkpt.Priv.Hart

/-! # Control and status registers

`set_csr`, `get_csr` and their variants for upper halves (`src/src/emu/processor-impl.h`), and
`inst_csr` (`src/src/emu/processor-priv-1.9.h`).
-/

namespace RvCkpt.Priv
set_option autoImplicit false
open BitField

/-! ## Access -/

inductive CsrOp where
  | rw | rs | rc
  deriving DecidableEq, Repr

/-- The mode that a register number asks for. -/
def csr_mode (csr : ℕ) : ℕ := (csr >>> 8) % 4

section
variable {w v : ℕ}

/-- What `set_csr` stores. -/
def set_csr (op : CsrOp) (csr : ℕ) (reg : BitVec w) (value : BitVec v) (write_mask : BitVec w)
    (shift : ℕ) : BitVec w :=
  let bits := (value.setWidth w &&& write_mask) <<< shift
  if csr.testBit 12 then reg
  else
    match op with
    | .rw => reg &&& ~~~(write_mask <<< shift) ||| bits
    | .rs => if value ≠ 0 then reg ||| bits else reg
    | .rc => if value ≠ 0 then reg &&& ~~~bits else reg

/-- What `set_csr_hi` stores. -/
def set_csr_hi (op : CsrOp) (csr : ℕ) (reg : BitVec 64) (value : BitVec v) : BitVec 64 :=
  let bits := value.setWidth 64 <<< 32
  if csr.testBit 12 then reg
  else
    match op with
    | .rw => bits ||| reg &&& 0xffffffff
    | .rs => if value ≠ 0 then reg ||| bits else reg
    | .rc => if value ≠ 0 then reg &&& (~~~bits ||| 0xffffffff) else reg

/-- What `set_csr` and `get_csr` put into `rd`. -/
def read_csr (mode : Mode) (csr : ℕ) (reg read_mask : BitVec w) (shift : ℕ) : BitVec v :=
  if csr_mode csr ≤ mode.toNat then (reg >>> shift &&& read_mask).setWidth v else 0

/-- What `set_csr_hi` and `get_csr_hi` put into `rd`. -/
def read_csr_hi (mode : Mode) (csr : ℕ) (reg : BitVec w) : BitVec v :=
  if csr_mode csr ≤ mode.toNat then ((reg >>> 32).setWidth 32).signExtend v else 0

end

/-- How a register is reached: by which function, as which mode, and with which masks. -/
inductive Handler (xl : Xlen) where
  | set (asU : Bool) (reg : Reg) (write_mask read_mask : BitVec (reg.width xl)) (shift : ℕ)
  | get (asU : Bool) (reg : Reg)
  /-- `set_csr_hi` of `instret`. -/
  | setHi
  | getHi (reg : Reg)

/-- The registers that `inst_csr` knows. -/
inductive Csr where
  | fflags | frm | fcsr | cycle | time | instret | cycleh | timeh | instreth
  | misa | mvendorid | marchid | mimpid | mhartid | mstatus | mtvec | medeleg | mideleg | mip | mie
  | mhcounteren | mscounteren | mucounteren | mscratch | mepc | mcause | mbadaddr
  | mbase | mbound | mibase | mibound | mdbase | mdbound | mcycle | minstret | mcycleh | minstreth
  | sstatus | stvec | sedeleg | sideleg | sip | sie | sscratch | sepc | scause | sbadaddr | sptbr
  deriving DecidableEq, Repr

namespace Csr

/-- `rv_csr` of `src/src/asm/meta.h` -/
def number : Csr → ℕ
  | fflags => 0x001
  | frm => 0x002
  | fcsr => 0x003
  | cycle => 0xC00
  | time => 0xC01
  | instret => 0xC02
  | cycleh => 0xC80
  | timeh => 0xC81
  | instreth => 0xC82
  | misa => 0x301
  | mvendorid => 0xF11
  | marchid => 0xF12
  | mimpid => 0xF13
  | mhartid => 0xF14
  | mstatus => 0x300
  | mtvec => 0x305
  | medeleg => 0x302
  | mideleg => 0x303
  | mip => 0x344
  | mie => 0x304
  | mhcounteren => 0x322
  | mscounteren => 0x321
  | mucounteren => 0x320
  | mscratch => 0x340
  | mepc => 0x341
  | mcause => 0x342
  | mbadaddr => 0x343
  | mbase => 0x380
  | mbound => 0x381
  | mibase => 0x382
  | mibound => 0x383
  | mdbase => 0x384
  | mdbound => 0x385
  | mcycle => 0xB00
  | minstret => 0xB02
  | mcycleh => 0xB80
  | minstreth => 0xB82
  | sstatus => 0x100
  | stvec => 0x105
  | sedeleg => 0x102
  | sideleg => 0x103
  | sip => 0x144
  | sie => 0x104
  | sscratch => 0x140
  | sepc => 0x141
  | scause => 0x142
  | sbadaddr => 0x143
  | sptbr => 0x180

def all : List Csr :=
  [fflags, frm, fcsr, cycle, time, instret, cycleh, timeh, instreth, misa, mvendorid, marchid,
    mimpid, mhartid, mstatus, mtvec, medeleg, mideleg, mip, mie, mhcounteren, mscounteren,
    mucounteren, mscratch, mepc, mcause, mbadaddr, mbase, mbound, mibase, mibound, mdbase, mdbound,
    mcycle, minstret, mcycleh, minstreth, sstatus, stvec, sedeleg, sideleg, sip, sie, sscratch,
    sepc, scause, sbadaddr, sptbr]

def ofNumber (csr : ℕ) : Option Csr := all.find? fun c => c.number = csr

section
variable (xl : Xlen)

def misa_wmask : xl.UX := BitVec.ofNat _ (2 ^ (xl.width - 2) - 1)

def mstatus_wmask : xl.UX := BitVec.ofNat _ (2 ^ (xl.width - 1) - 1)

def sstatus_wmask : xl.UX := BitVec.ofNat _ 0b1011110000100110011

def sstatus_rmask : xl.UX := sstatus_wmask xl ||| BitVec.twoPow _ (xl.width - 1)

def si_mask : xl.UX := BitVec.ofNat _ 0b001100110011

def tvec_rmask : xl.UX := BitVec.allOnes _

def tvec_wmask : xl.UX := BitVec.allOnes _ <<< 2

/-- The register with the default masks. -/
def plain (reg : Reg) : Handler xl := .set false reg (BitVec.allOnes _) (BitVec.allOnes _) 0

/-- The cases of `inst_csr`. -/
def handler : Csr → Handler xl
  | fflags => .set true .fcsr 0x1f 0x1f 0
  | frm => .set true .fcsr 0x3 0x3 5
  | fcsr => .set true .fcsr 0xff 0xff 0
  | cycle => .get true .instret
  | time => .get true .time
  | instret => .get false .instret
  | cycleh => .getHi .instret
  | timeh => .getHi .time
  | instreth => .getHi .instret
  | misa => .set false .misa (misa_wmask xl) (BitVec.allOnes _) 0
  | mvendorid => .get false .mvendorid
  | marchid => .get false .marchid
  | mimpid => .get false .mimpid
  | mhartid => .get false .mhartid
  | mstatus => .set false .mstatus (mstatus_wmask xl) (BitVec.allOnes _) 0
  -- the masks stand the other way round
  | mtvec => .set false .mtvec (tvec_rmask xl) (tvec_wmask xl) 0
  | medeleg => plain xl .medeleg
  | mideleg => plain xl .mideleg
  | mip => plain xl .mip
  | mie => plain xl .mie
  | mhcounteren => plain xl .mhcounteren
  | mscounteren => plain xl .mscounteren
  | mucounteren => plain xl .mucounteren
  | mscratch => plain xl .mscratch
  | mepc => plain xl .mepc
  | mcause => plain xl .mcause
  | mbadaddr => plain xl .mbadaddr
  | mbase => plain xl .mbase
  | mbound => plain xl .mbound
  | mibase => plain xl .mibase
  | mibound => plain xl .mibound
  | mdbase => plain xl .mdbase
  | mdbound => plain xl .mdbound
  | mcycle => .set true .instret (BitVec.allOnes _) (BitVec.allOnes _) 0
  | minstret => plain xl .instret
  | mcycleh => .setHi
  | minstreth => .setHi
  | sstatus => .set false .mstatus (sstatus_wmask xl) (sstatus_rmask xl) 0
  | stvec => .set false .stvec (tvec_rmask xl) (tvec_wmask xl) 0
  | sedeleg => plain xl .sedeleg
  | sideleg => plain xl .sideleg
  | sip => .set false .mip (si_mask xl) (si_mask xl) 0
  | sie => .set false .mie (si_mask xl) (si_mask xl) 0
  | sscratch => plain xl .sscratch
  | sepc => plain xl .sepc
  | scause => plain xl .scause
  | sbadaddr => plain xl .sbadaddr
  | sptbr => plain xl .sptbr

end

end Csr

section
variable {xl : Xlen}

def Hart.setRd (s : Hart xl) (rd : Fin 32) (x : xl.UX) : Hart xl :=
  if rd ≠ 0 then { s with ireg := Function.update s.ireg rd x } else s

@[simp] theorem Hart.setRd_csr (s : Hart xl) (rd : Fin 32) (x : xl.UX) :
    (s.setRd rd x).csr = s.csr := by
  unfold setRd
  split <;> rfl

def access (s : Hart xl) (rd : Fin 32) (op : CsrOp) (csr : ℕ) (value : xl.UX) :
    Handler xl → Hart xl
  | .set asU reg write_mask read_mask shift =>
    let mode := if asU then .U else s.mode
    (s.setRd rd (read_csr mode csr (s.csr reg) read_mask shift)).set reg
      (set_csr op csr (s.csr reg) value write_mask shift)
  | .get asU reg =>
    let mode := if asU then .U else s.mode
    s.setRd rd (read_csr mode csr (s.csr reg) (BitVec.allOnes _) 0)
  | .setHi =>
    (s.setRd rd (read_csr_hi s.mode csr (s.csr .instret))).set .instret
      (set_csr_hi op csr (s.csr .instret) value)
  | .getHi reg => s.setRd rd (read_csr_hi s.mode csr (s.csr reg))

/-- `fenv_getflags` -/
def fenv_getflags (s : Hart xl) : Hart xl := s.set .fcsr (s.csr .fcsr ||| s.fenv)

/-- `fenv_clearflags`: flags that are not in `fcsr` are cleared. -/
def fenv_clearflags (s : Hart xl) : Hart xl := { s with fenv := s.fenv &&& s.csr .fcsr }

/-- `fenv_setrm`: ties to max magnitude are rounded like ties to even. -/
def fenv_setrm (s : Hart xl) : Hart xl :=
  let rm := (s.csr .fcsr).extractLsb' 5 3
  if rm.toNat < 4 then { s with rm := rm }
  else if rm.toNat = 4 then { s with rm := 0 }
  else s

@[simp] theorem fenv_setrm_csr (s : Hart xl) : (fenv_setrm s).csr = s.csr := by
  unfold fenv_setrm
  dsimp only
  split
  · rfl
  · split <;> rfl

/-- What a case of `inst_csr` does before it reaches the register, at the given time. -/
def before (clock : BitVec 64) (s : Hart xl) : Csr → Hart xl
  | .fflags => fenv_getflags s
  | .fcsr => fenv_getflags s
  | .time => s.set .time clock
  | _ => s

/-- What a case of `inst_csr` does afterwards. -/
def after (s : Hart xl) : Csr → Hart xl
  | .fflags => fenv_clearflags s
  | .frm => fenv_setrm s
  | .fcsr => fenv_setrm (fenv_clearflags s)
  | _ => s

/-- `inst_csr`; `none` for an illegal instruction. -/
def inst_csr (clock : BitVec 64) (s : Hart xl) (rd : Fin 32) (op : CsrOp) (csr : ℕ)
    (value : xl.UX) : Option (Hart xl) :=
  (Csr.ofNumber csr).map fun c => after (access (before clock s c) rd op csr value (c.handler xl)) c

/-- `csrrw` and so on: the operand is register `rs1` or the number `rs1` itself. -/
structure CsrInst where
  op : CsrOp
  imm : Bool
  rd : Fin 32
  rs1 : Fin 32
  csr : ℕ

namespace CsrInst

def value (i : CsrInst) (s : Hart xl) : xl.UX :=
  if i.imm then BitVec.ofNat _ i.rs1 else s.ireg i.rs1

def exec (i : CsrInst) (clock : BitVec 64) (s : Hart xl) : Option (Hart xl) :=
  inst_csr clock s i.rd i.op i.csr (i.value s)

/-- Setting or clearing with `x0` or 0 is a read. -/
def writes (i : CsrInst) : Prop := i.op = .rw ∨ i.rs1 ≠ 0

end CsrInst

end

end RvCkpt.Priv
