import RvCkpt.Priv.Protect
import RvCkpt.Priv.Discipline
import RvCkpt.Lib.Runs

/-! # Runs of a hart

The privileged machine: a hart with its timer device, over instructions, traps and interrupts in any
order. Protection of the registers and trap discipline are properties of the steps of its runs.
-/

namespace RvCkpt.Priv
set_option autoImplicit false
open BitField Status Runs

structure Machine (xl : Xlen) (n : ℕ) where
  hart : Hart xl
  timer : Timer n

/-- What can happen next. -/
inductive HartEvent (xl : Xlen) (n : ℕ) where
  | csr (i : CsrInst) (clock : BitVec 64)
  | ret (e : Entry)
  /-- Any other instruction: it leaves the privileged state alone. -/
  | inst (h : Hart xl)
  | trap (op : DecodedOp) (cause : Cause)
  | isr (hart_id : ℕ) (req : Requests) (time : BitVec 64)
  /-- An access to the timer. -/
  | device (t : Timer n)
  | reset

namespace Machine

variable {xl : Xlen} {n : ℕ}

/-- The state of a hart after an instruction that is not privileged. -/
def userPart (h s : Hart xl) : Hart xl :=
  { h with
    mode := s.mode
    csr := fun r => if r = .fcsr ∨ r = .time ∨ r = .instret then h.csr r else s.csr r }

/-- `reset` -/
def reset (s : Hart xl) : Hart xl :=
  let s₁ := ((s.setField .mstatus vm 0).setField .mstatus mprv 0).setField .mstatus mie 0
  { s₁.set .mcause 0 with mode := .M, pc := BitVec.ofNat _ 0x1000 }

def step (s : Machine xl n) : HartEvent xl n → Option (Machine xl n)
  | .csr i clock =>
    (i.exec clock s.hart).bind fun h => (retire (some (h, 4))).map fun h => { s with hart := h }
  | .ret e => (Priv.ret e s.hart).map fun h => { s with hart := h }
  | .inst h => some { s with hart := userPart h s.hart }
  | .trap op cause => (Priv.trap s.hart op cause).map fun r => { s with hart := r.1 }
  | .isr hart_id req time =>
    let r := Priv.isr hart_id req time s.hart s.timer
    some ⟨r.1, r.2.1⟩
  | .device t => some { s with timer := t }
  | .reset => some { s with hart := reset s.hart }

/-- A hart in machine mode with registers of 0. -/
def start (xl : Xlen) (n : ℕ) : Machine xl n :=
  ⟨⟨0x1000, fun _ => 0, .M, 0, fun _ => 0, 0, 0⟩, .start n⟩

/-! ## Protection -/

/-- The step leaves the registers alone that it may not write. -/
def Protects (s : Machine xl n) : HartEvent xl n → Prop
  | .csr i clock => i.Protected clock s.hart
  | _ => True

def Guards (s : Machine xl n) : HartEvent xl n → Prop
  | .csr i clock => i.Guarded clock s.hart
  | _ => True

theorem protects_iff (s : Machine xl n) (e : HartEvent xl n) : s.Protects e ↔ s.Guards e := by
  cases e with
  | csr i clock => exact protected_iff i clock s.hart
  | _ => exact Iff.rfl

/-! ## Discipline -/

/-- The step does not lower the mode by a trap or an interrupt, and a return right after it takes
the hart back. -/
def Disciplines (s : Machine xl n) : HartEvent xl n → Prop
  | .trap op cause => ∀ h e, Priv.trap s.hart op cause = some (h, e) → Disciplined e s.hart h
  | .isr hart_id req time =>
    ∀ src e, (Priv.isr hart_id req time s.hart s.timer).2.2 = some (src, e) →
      Disciplined e s.hart (Priv.isr hart_id req time s.hart s.timer).1
  | _ => True

def Steady (s : Machine xl n) : HartEvent xl n → Prop
  | .trap op cause => op ≠ .ebreak → Safe (trapLevel s.hart op cause) s.hart
  | .isr hart_id req time =>
    ∀ src e, interrupt hart_id req time s.hart s.timer = some (src, e) → Safe e s.hart
  | _ => True

theorem disciplines_iff (s : Machine xl n) (e : HartEvent xl n) : s.Disciplines e ↔ s.Steady e := by
  cases e with
  | trap op cause =>
    constructor
    · intro h hop
      have hsome : ∃ s', Priv.trap s.hart op cause = some (s', trapLevel s.hart op cause) :=
        trap_isSome hop
      obtain ⟨s', hs'⟩ := hsome
      obtain ⟨-, -, hent⟩ := trap_cases hs'
      exact (disciplined_iff hent).mp (h s' _ hs')
    · intro h s' e hs'
      obtain ⟨hop, rfl, hent⟩ := trap_cases hs'
      exact (disciplined_iff hent).mpr (h hop)
  | isr hart_id req time =>
    obtain ⟨hint, hent⟩ := isr_cases hart_id req time s.hart s.timer
    unfold Disciplines Steady
    dsimp only
    rw [hint]
    constructor
    · intro h src e he
      exact (disciplined_iff (hent src e he)).mp (h src e he)
    · intro h src e he
      exact (disciplined_iff (hent src e he)).mpr (h src e he)
  | _ => exact Iff.rfl

end Machine

section
variable {xl : Xlen} {n : ℕ}

/-- **Protection.** In a run every instruction leaves the registers alone that it may not write,
and writes the others under their masks, exactly if all its instructions are guarded. -/
theorem protected_exact (s : Machine xl n) (es : List (HartEvent xl n)) :
    Meets Machine.step Machine.Protects s es ↔ Meets Machine.step Machine.Guards s es :=
  meets_congr Machine.protects_iff s es

/-- `mret` to user mode, and then `csrrwi x0, mtvec, 4`. -/
def userWritesMtvec : List (HartEvent .rv64 4) := [.ret .m, .csr ⟨.rw, true, 0, 4, 0x305⟩ 0]

/-- A write from user mode reaches the vector of the machine. -/
theorem userWritesMtvec_not_protected :
    ¬ Meets Machine.step Machine.Protects (Machine.start .rv64 4) userWritesMtvec := by
  intro h
  have hprot := ((h _ rfl).2 _ rfl).1 _ rfl
  have hsame := congrFun (hprot.1 (.inl (by decide))) .mtvec
  have hne : (4 : BitVec 64) ≠ 0 := by decide
  exact hne hsame

/-- **Discipline.** In a run no trap and no interrupt lowers the mode, and a return right after it
restores the mode, the interrupt enable and the program counter, exactly if all of them are taken
from a mode that is not above their level and from a place that is not right before the handler. -/
theorem disciplined_exact (s : Machine xl n) (es : List (HartEvent xl n)) :
    Meets Machine.step Machine.Disciplines s es ↔ Meets Machine.step Machine.Steady s es :=
  meets_congr Machine.disciplines_iff s es

/-- `csrrwi x0, medeleg, 4`, and then an illegal instruction, all in machine mode. -/
def machineTraps : List (HartEvent .rv64 4) :=
  [.csr ⟨.rw, true, 0, 4, 0x302⟩ 0, .trap .other .illegal_instruction]

/-- The delegated trap takes the hart from machine mode to supervisor mode. -/
theorem machineTraps_not_disciplined :
    ¬ Meets Machine.step Machine.Disciplines (Machine.start .rv64 4) machineTraps := by
  intro h
  have hdis := ((h _ rfl).2 _ rfl).1 _ _ rfl
  exact absurd hdis.1 (by decide)

end

end RvCkpt.Priv
