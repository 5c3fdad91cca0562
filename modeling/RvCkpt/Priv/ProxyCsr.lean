import RvCkpt.Priv.Csr
import RvCkpt.Isa.Exec

/-! # Control and status registers of the proxy processor

`inst_csr` of `src/src/emu/processor-proxy.h` for both widths of registers, and that the one of
the 64-bit interpreter is it.
-/

namespace RvCkpt.Priv
set_option autoImplicit false

/-! ## The proxy processor -/

structure Proxy (xl : Xlen) where
  ireg : Fin 32 → xl.UX
  fcsr : BitVec 32
  time : BitVec 64
  instret : BitVec 64

namespace Proxy
variable {xl : Xlen}

def setRd (s : Proxy xl) (rd : Fin 32) (x : xl.UX) : Proxy xl :=
  if rd ≠ 0 then { s with ireg := Function.update s.ireg rd x } else s

/-- `set_csr` on `fcsr`. -/
def setFcsr (s : Proxy xl) (rd : Fin 32) (op : CsrOp) (csr : ℕ) (value : xl.UX)
    (mask : BitVec 32) (shift : ℕ) : Proxy xl :=
  { s.setRd rd (read_csr .U csr s.fcsr mask shift) with
    fcsr := set_csr op csr s.fcsr value mask shift }

def get_csr (s : Proxy xl) (rd : Fin 32) (csr : ℕ) (reg : BitVec 64) : Proxy xl :=
  s.setRd rd (read_csr .U csr reg (BitVec.allOnes _) 0)

def get_csr_hi (s : Proxy xl) (rd : Fin 32) (csr : ℕ) (reg : BitVec 64) : Proxy xl :=
  s.setRd rd (read_csr_hi .U csr reg)

/-- `inst_csr` at the given time; `none` for an illegal instruction. -/
def inst_csr (clock : BitVec 64) (s : Proxy xl) (rd : Fin 32) (op : CsrOp) (csr : ℕ)
    (value : xl.UX) : Option (Proxy xl) :=
  match Csr.ofNumber csr with
  | some .fflags => some (s.setFcsr rd op csr value 0x1f 0)
  | some .frm => some (s.setFcsr rd op csr value 0x3 5)
  | some .fcsr => some (s.setFcsr rd op csr value 0xff 0)
  | some .cycle => some (s.get_csr rd csr s.instret)
  | some .time => some ({ s with time := clock }.get_csr rd csr clock)
  | some .instret => some (s.get_csr rd csr s.instret)
  | some .cycleh => some (s.get_csr_hi rd csr s.instret)
  | some .timeh => some (s.get_csr_hi rd csr s.time)
  | some .instreth => some (s.get_csr_hi rd csr s.instret)
  | _ => none

def value (s : Proxy xl) (i : CsrInst) : xl.UX :=
  if i.imm then BitVec.ofNat _ i.rs1 else s.ireg i.rs1

def exec (clock : BitVec 64) (s : Proxy xl) (i : CsrInst) : Option (Proxy xl) :=
  s.inst_csr clock i.rd i.op i.csr (s.value i)

end Proxy

/-! ## The proxy processor of the interpreter -/

section Interpreter

/-- The registers of the interpreter's state that `inst_csr` works on. -/
def Proxy.ofMachine (s : Isa.Machine) : Proxy .rv64 := ⟨s.ireg, s.fcsr, s.time, s.instret⟩

def Proxy.toMachine (p : Proxy .rv64) (s : Isa.Machine) : Isa.Machine :=
  { s with ireg := p.ireg, fcsr := p.fcsr, time := p.time, instret := p.instret }

def CsrOp.ofIsa : Isa.CsrOp → CsrOp
  | .csr_rw => .rw
  | .csr_rs => .rs
  | .csr_rc => .rc

theorem Csr.ofNumber_eq_some {n : ℕ} {c : Csr} (h : Csr.ofNumber n = some c) : c.number = n := by
  have hfound := List.find?_some h
  exact of_decide_eq_true hfound

theorem Csr.number_ne {n : ℕ} (h : Csr.ofNumber n = none) (c : Csr) : n ≠ c.number := by
  intro hn
  have hall : c ∈ Csr.all := by cases c <;> decide
  exact absurd (decide_eq_true hn.symm) (List.find?_eq_none.mp h c hall)

/-- The proxy processor has the user registers. -/
def Csr.ofUser : Csr → Option Isa.Csr
  | fflags => some .fflags
  | frm => some .frm
  | fcsr => some .fcsr
  | cycle => some .cycle
  | time => some .time
  | instret => some .instret
  | cycleh => some .cycleh
  | timeh => some .timeh
  | instreth => some .instreth
  | _ => none

theorem csrOf_eq (csr : BitVec 32) :
    Isa.csrOf csr = (Csr.ofNumber csr.toNat).bind Csr.ofUser := by
  cases h : Csr.ofNumber csr.toNat with
  | none =>
    have hne : ∀ c : Csr, csr ≠ BitVec.ofNat 32 c.number := by
      intro c hc
      refine Csr.number_ne h c ?_
      rw [hc]
      cases c <;> rfl
    rw [Isa.csrOf, if_neg (show csr ≠ 0x001 from hne .fflags),
      if_neg (show csr ≠ 0x002 from hne .frm), if_neg (show csr ≠ 0x003 from hne .fcsr),
      if_neg (show csr ≠ 0xC00 from hne .cycle), if_neg (show csr ≠ 0xC01 from hne .time),
      if_neg (show csr ≠ 0xC02 from hne .instret), if_neg (show csr ≠ 0xC80 from hne .cycleh),
      if_neg (show csr ≠ 0xC81 from hne .timeh), if_neg (show csr ≠ 0xC82 from hne .instreth)]
    rfl
  | some c =>
    have hn : csr = BitVec.ofNat 32 c.number := by
      rw [Csr.ofNumber_eq_some h, BitVec.ofNat_toNat, BitVec.setWidth_eq]
    rw [hn]
    cases c <;> rfl

section Access
variable (dec : Isa.Decode) (s : Isa.Machine) {csr : ℕ}

theorem readCsr_eq (x : BitVec 64) :
    Isa.readCsr dec s x = ((Proxy.ofMachine s).setRd dec.rd x).toMachine s := by
  by_cases hrd : dec.rd = 0
  · have hp : (Proxy.ofMachine s).setRd dec.rd x = Proxy.ofMachine s := if_neg (not_not_intro hrd)
    rw [hp]
    exact if_neg (not_not_intro hrd)
  · have hp : (Proxy.ofMachine s).setRd dec.rd x =
        { Proxy.ofMachine s with ireg := Function.update s.ireg dec.rd x } := if_pos hrd
    have hl : Isa.readCsr dec s x = { s with ireg := Function.update s.ireg dec.rd x } := by
      rw [Isa.readCsr, if_pos (show dec.rd ≠ Isa.rv_ireg_x0 from hrd), Isa.Machine.setReg,
        if_neg (show ¬ dec.rd = Isa.rv_ireg_x0 from hrd)]
    exact hl.trans (congrArg (Proxy.toMachine · s) hp).symm

theorem setCsr_eq (hmode : csr_mode csr = 0) (htop : csr.testBit 12 = false) (op : Isa.CsrOp)
    (value : BitVec 64) (mask : BitVec 32) (shift : ℕ) :
    Isa.setCsr dec s op value mask shift =
      ((Proxy.ofMachine s).setFcsr dec.rd (.ofIsa op) csr value mask shift).toMachine s := by
  have hread : (read_csr .U csr s.fcsr mask shift : BitVec 64) =
      ((s.fcsr >>> shift) &&& mask).zeroExtend 64 := if_pos (by rw [hmode]; exact Nat.zero_le _)
  have hset : set_csr (.ofIsa op) csr s.fcsr value mask shift =
      op.update s.fcsr value mask shift := by
    unfold set_csr
    rw [htop]
    cases op <;> rfl
  rw [Isa.setCsr, readCsr_eq, ← hread, ← hset]
  rfl

theorem getCsr_eq (hmode : csr_mode csr = 0) (reg : BitVec 64) :
    Isa.getCsr dec s reg = ((Proxy.ofMachine s).get_csr dec.rd csr reg).toMachine s := by
  have hread : (read_csr .U csr reg (BitVec.allOnes _) 0 : BitVec 64) = reg := by
    rw [read_csr, if_pos (by rw [hmode]; exact Nat.zero_le _), BitVec.ushiftRight_zero,
      BitVec.and_allOnes, BitVec.setWidth_eq]
  rw [Isa.getCsr, readCsr_eq, Proxy.get_csr]
  exact congrArg (fun x => ((Proxy.ofMachine s).setRd dec.rd x).toMachine s) hread.symm

theorem getCsrHi_eq (hmode : csr_mode csr = 0) (reg : BitVec 64) :
    Isa.getCsrHi dec s reg = ((Proxy.ofMachine s).get_csr_hi dec.rd csr reg).toMachine s := by
  have hread : (read_csr_hi .U csr reg : BitVec 64) = Isa.sx (Isa.word32 (reg >>> 32)) :=
    if_pos (by rw [hmode]; exact Nat.zero_le _)
  rw [Isa.getCsrHi, readCsr_eq, Proxy.get_csr_hi]
  exact congrArg (fun x => ((Proxy.ofMachine s).setRd dec.rd x).toMachine s) hread.symm

/-- `inst_csr` of the interpreter for registers of 64 bits is this one. -/
theorem instCsr_eq (clock : BitVec 64) (op : Isa.CsrOp) (value pcOffset : BitVec 64) :
    Isa.instCsr dec s clock op value pcOffset =
      match (Proxy.ofMachine s).inst_csr clock dec.rd (.ofIsa op) dec.imm.toNat value with
      | some p => (p.toMachine s, pcOffset)
      | none => (s, -1) := by
  unfold Isa.instCsr Proxy.inst_csr
  rw [csrOf_eq]
  cases h : Csr.ofNumber dec.imm.toNat with
  | none => rfl
  | some c =>
    rw [← Csr.ofNumber_eq_some h]
    cases c
    case fflags | frm | fcsr =>
      exact congrArg (·, pcOffset) (setCsr_eq dec s (by decide) (by decide) op value _ _)
    case cycle | instret =>
      exact congrArg (·, pcOffset) (getCsr_eq dec s (by decide) _)
    case time =>
      exact congrArg (·, pcOffset) (getCsr_eq dec { s with time := clock } (by decide) _)
    case cycleh | timeh | instreth =>
      exact congrArg (·, pcOffset) (getCsrHi_eq dec s (by decide) _)
    all_goals rfl

end Access

end Interpreter

end RvCkpt.Priv
