import RvCkpt.Isa.Alu
import RvCkpt.Lib.Bytes
import Mathlib.Logic.Function.Basic

/-! # The proxy processor

`exec_inst_rv64` of `src/src/emu/interp-softfloat.h`, `inst_priv` of
`src/src/emu/processor-proxy.h` and one iteration of the loop in `step` of
`src/src/emu/processor-runloop.h`. The decoder is a parameter, and the results of the system calls
are read off a list. `none` is an instruction that the interpreter rejects, or a missing result.
-/

namespace RvCkpt.Isa
open ByteMem
set_option autoImplicit false

/-- What is not the interpreter's own. -/
structure Host where
  shiftOver : ShiftOver
  softfloat : Softfloat
  /-- `inst_decode`, compressed forms expanded. -/
  decode : BitVec 64 → Decode

structure SyscallResult where
  retval : BitVec 64
  writes : List (BitVec 64 × List Byte)

structure Machine where
  pc : BitVec 64
  ireg : Reg → BitVec 64
  freg : Reg → BitVec 64
  lr : BitVec 64
  fcsr : BitVec 32
  time : BitVec 64
  instret : BitVec 64
  mem : Mem
  results : List SyscallResult

namespace Machine

def setReg (s : Machine) (rd : Reg) (v : BitVec 64) : Machine :=
  { s with ireg := Function.update s.ireg rd (if rd = rv_ireg_x0 then 0 else v) }

def setFreg (s : Machine) (rd : Reg) (v : BitVec 64) : Machine :=
  { s with freg := Function.update s.freg rd v }

def setMem (s : Machine) (m : Mem) : Machine := { s with mem := m }

def setLr (s : Machine) (lr : BitVec 64) : Machine := { s with lr := lr }

def setFcsr (s : Machine) (fcsr : BitVec 32) : Machine := { s with fcsr := fcsr }

/-- `setff()` -/
def setff (s : Machine) (flags : BitVec 5) : Machine := s.setFcsr (s.fcsr ||| flags.zeroExtend 32)

end Machine

/-- `setrm()` -/
def setrm (dec : Decode) (fcsr : BitVec 32) : BitVec 3 :=
  if dec.rm = 0b111 then (fcsr >>> 5).truncate 3 else dec.rm

/-- `memory_top - 1` of `mmu_proxy`, to which only atomic operations are confined. -/
def AMO_MASK : BitVec 64 := 0x7fffffff

/-! ## Instructions -/

section Exec
variable (host : Host) (dec : Decode) (s : Machine)

/-- The address of a load or store. -/
def dataAddr : ℕ := (s.ireg dec.rs1 + sx dec.imm).toNat

def execAmo (op : AmoOp) (width : AmoWidth) : Machine :=
  let va := (s.ireg dec.rs1 &&& AMO_MASK).toNat
  let old := width.extend (s.mem.read va width.bytes)
  (s.setMem (s.mem.write va width.bytes (op.eval old (width.extend (s.ireg dec.rs2))))).setReg
    dec.rd old

def execSc (width : AmoWidth) : Machine :=
  if s.lr ≠ s.ireg dec.rs1 then s.setReg dec.rd 1
  else (s.setMem (s.mem.write (s.ireg dec.rs1).toNat width.bytes (s.ireg dec.rs2))).setReg dec.rd 0

def fpEval (op : FpOp) : BitVec 64 × BitVec 5 :=
  op.eval host.softfloat (setrm dec s.fcsr) (s.ireg dec.rs1) (s.freg dec.rs1) (s.freg dec.rs2)
    (s.freg dec.rs3)

def execFp (op : FpOp) : Machine :=
  let (v, flags) := fpEval host dec s op
  if op.toInt then
    -- the operation itself is skipped for x0
    if dec.rd = rv_ireg_x0 then s.setReg dec.rd 0 else (s.setReg dec.rd v).setff flags
  else (s.setFreg dec.rd v).setff flags

/-- `exec_inst_rv64`: the machine after the instruction and the offset to the next one, -1 for an
instruction that is not handled here. -/
def execInst (pcOffset : BitVec 64) : Machine × BitVec 64 :=
  match dec.op with
  | .lui => (s.setReg dec.rd (sx dec.imm), pcOffset)
  | .auipc => (s.setReg dec.rd (s.pc + sx dec.imm), pcOffset)
  | .jal => (s.setReg dec.rd (s.pc + pcOffset), sx dec.imm)
  | .jalr =>
    (s.setReg dec.rd (s.pc + pcOffset), (s.ireg dec.rs1 + sx dec.imm - s.pc) &&& ~~~1#64)
  | .branch op =>
    (s, if op.taken (s.ireg dec.rs1) (s.ireg dec.rs2) then sx dec.imm else pcOffset)
  | .load op => (s.setReg dec.rd (op.extend (s.mem.read (dataAddr dec s) op.bytes)), pcOffset)
  | .store op =>
    (s.setMem (s.mem.write (dataAddr dec s) op.bytes (s.ireg dec.rs2)), pcOffset)
  | .imm op => (s.setReg dec.rd (op.eval host.shiftOver (s.ireg dec.rs1) dec.imm), pcOffset)
  | .reg op =>
    (s.setReg dec.rd (op.eval host.shiftOver (s.ireg dec.rs1) (s.ireg dec.rs2)), pcOffset)
  | .lr width =>
    ((s.setLr (s.ireg dec.rs1)).setReg dec.rd
      (width.extend (s.mem.read (s.ireg dec.rs1).toNat width.bytes)), pcOffset)
  | .sc width => (execSc dec s width, pcOffset)
  | .amo op width => (execAmo dec s op width, pcOffset)
  | .fload p =>
    (s.setFreg dec.rd (box p ((s.mem.read (dataAddr dec s) p.bytes).truncate p.bits)), pcOffset)
  | .fstore p => (s.setMem (s.mem.write (dataAddr dec s) p.bytes (s.freg dec.rs2)), pcOffset)
  | .fp op => (execFp host dec s op, pcOffset)
  | .fsgn op p =>
    (s.setFreg dec.rd (box p (op.eval (unbox p (s.freg dec.rs1)) (unbox p (s.freg dec.rs2)))),
      pcOffset)
  | .fmvToInt .s => (s.setReg dec.rd (sx (word32 (s.freg dec.rs1))), pcOffset)
  | .fmvToInt .d => (s.setReg dec.rd (s.freg dec.rs1), pcOffset)
  | .fmvOfInt .s => (s.setFreg dec.rd (box .s (word32 (s.ireg dec.rs1))), pcOffset)
  | .fmvOfInt .d => (s.setFreg dec.rd (s.ireg dec.rs1), pcOffset)
  | .fclass p =>
    (s.setReg dec.rd ((host.softfloat.classify p (unbox p (s.freg dec.rs1))).zeroExtend 64),
      pcOffset)
  | .illegal | .fence | .fence_i | .ecall | .csr .. => (s, -1)

/-! ## Control and status registers -/

inductive Csr where
  | fflags | frm | fcsr | cycle | time | instret | cycleh | timeh | instreth
  deriving DecidableEq, Repr

/-- The registers of the proxy processor, all of them user registers. -/
def csrOf (csr : BitVec 32) : Option Csr :=
  if csr = 0x001 then some .fflags
  else if csr = 0x002 then some .frm
  else if csr = 0x003 then some .fcsr
  else if csr = 0xC00 then some .cycle
  else if csr = 0xC01 then some .time
  else if csr = 0xC02 then some .instret
  else if csr = 0xC80 then some .cycleh
  else if csr = 0xC81 then some .timeh
  else if csr = 0xC82 then some .instreth
  else none

/-- The assignment to `rd` in `set_csr` and `get_csr`, which spares x0. -/
def readCsr (v : BitVec 64) : Machine :=
  if dec.rd ≠ rv_ireg_x0 then s.setReg dec.rd v else s

def CsrOp.update (op : CsrOp) (reg : BitVec 32) (value : BitVec 64) (mask : BitVec 32)
    (shift : ℕ) : BitVec 32 :=
  let bits := (word32 value &&& mask) <<< shift
  match op with
  | .csr_rw => (reg &&& ~~~(mask <<< shift)) ||| bits
  | .csr_rs => if value ≠ 0 then reg ||| bits else reg
  | .csr_rc => if value ≠ 0 then reg &&& ~~~bits else reg

/-- `set_csr` on `fcsr`, with the same mask for reading and writing. -/
def setCsr (op : CsrOp) (value : BitVec 64) (mask : BitVec 32) (shift : ℕ) : Machine :=
  (readCsr dec s (((s.fcsr >>> shift) &&& mask).zeroExtend 64)).setFcsr
    (op.update s.fcsr value mask shift)

def getCsr (reg : BitVec 64) : Machine := readCsr dec s reg

def getCsrHi (reg : BitVec 64) : Machine := readCsr dec s (sx (word32 (reg >>> 32)))

def fflags_mask : BitVec 32 := 0x1f

def frm_mask : BitVec 32 := 0x3

def fcsr_mask : BitVec 32 := 0xff

/-- `inst_csr`; `clock` is what `cpu_cycle_clock()` returns. -/
def instCsr (clock : BitVec 64) (op : CsrOp) (value pcOffset : BitVec 64) : Machine × BitVec 64 :=
  match csrOf dec.imm with
  | some .fflags => (setCsr dec s op value fflags_mask 0, pcOffset)
  | some .frm => (setCsr dec s op value frm_mask 5, pcOffset)
  | some .fcsr => (setCsr dec s op value fcsr_mask 0, pcOffset)
  | some .cycle => (getCsr dec s s.instret, pcOffset)
  | some .time => (getCsr dec { s with time := clock } clock, pcOffset)
  | some .instret => (getCsr dec s s.instret, pcOffset)
  | some .cycleh => (getCsrHi dec s s.instret, pcOffset)
  | some .timeh => (getCsrHi dec s s.time, pcOffset)
  | some .instreth => (getCsrHi dec s s.instret, pcOffset)
  | none => (s, -1)

/-- The value operand of a CSR instruction. -/
def csrValue (uimm : Bool) : BitVec 64 :=
  if uimm then BitVec.ofNat 64 dec.rs1.val else s.ireg dec.rs1

/-- `proxy_syscall` -/
def proxySyscall (result : SyscallResult) (rest : List SyscallResult) : Machine :=
  { s with
    results := rest
    mem := result.writes.foldl (fun m w => m.writeBytes w.1.toNat w.2) s.mem
    ireg := Function.update s.ireg rv_ireg_a0 result.retval }

def instPriv (clock pcOffset : BitVec 64) : Option (Machine × BitVec 64) :=
  match dec.op with
  | .fence | .fence_i => some (s, pcOffset)
  | .ecall =>
    match s.results with
    | result :: rest => some (proxySyscall s result rest, pcOffset)
    | [] => none
  | .csr op uimm => some (instCsr dec s clock op (csrValue dec s uimm) pcOffset)
  | _ => some (s, -1)

end Exec

/-! ## Steps -/

/-- `inst_fetch`: the instruction and its length, 0 for one that is too long. -/
def instFetch (m : Mem) (addr : ℕ) : BitVec 64 × ℕ :=
  let inst := m.read addr 4
  if inst &&& 0b11 ≠ 0b11 then (inst &&& 0xffff, 2)
  else if inst &&& 0b11100 ≠ 0b11100 then (inst, 4)
  else if inst &&& 0b111111 = 0b011111 then (inst ||| m.read (addr + 4) 2 <<< 32, 6)
  else if inst &&& 0b1111111 = 0b0111111 then (inst ||| m.read (addr + 4) 4 <<< 32, 8)
  else (0, 0)

theorem instFetch_length (m : Mem) (addr : ℕ) :
    (instFetch m addr).2 = 0 ∨ 2 ≤ (instFetch m addr).2 := by
  simp only [instFetch]
  split_ifs
  · exact .inr le_rfl
  · exact .inr (by decide : 2 ≤ 4)
  · exact .inr (by decide : 2 ≤ 6)
  · exact .inr (by decide : 2 ≤ 8)
  · exact .inl rfl

/-- The instruction depends on the bytes it consists of. -/
theorem instFetch_congr {m m' : Mem} {addr : ℕ} (hlen : (instFetch m addr).2 ≠ 0)
    (h : ∀ a, addr ≤ a → a < addr + (instFetch m addr).2 → m' a = m a) :
    instFetch m' addr = instFetch m addr := by
  have hpart : ∀ n k, k ≤ n → n ≤ 8 → k ≤ (instFetch m addr).2 → ∀ mask : BitVec 64,
      mask.toNat < 2 ^ (8 * k) → m'.read addr n &&& mask = m.read addr n &&& mask := by
    intro n k hkn hn hk mask hmask
    exact Mem.read_and_congr hkn hn hmask fun i hi => h _ (by omega) (by omega)
  have hwhole : ∀ d n, d + n ≤ (instFetch m addr).2 →
      m'.read (addr + d) n = m.read (addr + d) n := by
    intro d n hn
    exact Mem.read_congr fun i hi => h _ (by omega) (by omega)
  have htwo : 2 ≤ (instFetch m addr).2 := (instFetch_length m addr).resolve_left hlen
  have hlow := fun mask hmask => hpart 4 2 (by decide) (by decide) htwo mask hmask
  have h2 := hlow 0b11 (by decide)
  have h3 := hlow 0b11100 (by decide)
  have h6 := hlow 0b111111 (by decide)
  have h7 := hlow 0b1111111 (by decide)
  have h16 := hlow 0xffff (by decide)
  simp only [instFetch, h2, h3, h6, h7, h16] at hwhole hlen ⊢
  by_cases hc2 : m.read addr 4 &&& 0b11 ≠ 0b11
  · rw [if_pos hc2, if_pos hc2]
  · simp only [if_neg hc2] at hwhole hlen ⊢
    by_cases hc4 : m.read addr 4 &&& 0b11100 ≠ 0b11100
    · simp only [if_pos hc4] at hwhole ⊢
      rw [show m'.read addr 4 = m.read addr 4 from hwhole 0 4 (by decide)]
    · simp only [if_neg hc4] at hwhole hlen ⊢
      by_cases hc6 : m.read addr 4 &&& 0b111111 = 0b011111
      · simp only [if_pos hc6] at hwhole ⊢
        rw [show m'.read addr 4 = m.read addr 4 from hwhole 0 4 (by decide),
          hwhole 4 2 (by decide)]
      · simp only [if_neg hc6] at hwhole hlen ⊢
        by_cases hc8 : m.read addr 4 &&& 0b1111111 = 0b0111111
        · simp only [if_pos hc8] at hwhole ⊢
          rw [show m'.read addr 4 = m.read addr 4 from hwhole 0 4 (by decide),
            hwhole 4 4 (by decide)]
        · simp only [if_neg hc8] at hlen
          exact absurd rfl hlen

/-- An executed instruction moves the program counter, unless its offset is that of an illegal
one. -/
def retire (out : Machine × BitVec 64) : Option Machine :=
  if out.2 ≠ -1 then some { out.1 with pc := out.1.pc + out.2, instret := out.1.instret + 1 }
  else none

def execute (host : Host) (clock : BitVec 64) (dec : Decode) (length : ℕ) (s : Machine) :
    Option Machine :=
  let out := execInst host dec s (BitVec.ofNat 64 length)
  if out.2 ≠ -1 then retire out
  else instPriv dec out.1 clock (BitVec.ofNat 64 length) >>= retire

def step (host : Host) (clock : BitVec 64) (s : Machine) : Option Machine :=
  let (inst, length) := instFetch s.mem s.pc.toNat
  execute host clock (host.decode inst) length s

def run (host : Host) (clock : ℕ → BitVec 64) : ℕ → Machine → Option Machine
  | 0, s => some s
  | n + 1, s => step host (clock 0) s >>= run host (fun i => clock (i + 1)) n

end RvCkpt.Isa
