import RvCkpt.Jit.FusedStream
import RvCkpt.Jit.AluCorrect
import RvCkpt.Emu.Proxy

/-! # The guest

What the instructions that are compiled do, for a guest whose memory may raise errors.
-/

namespace RvCkpt.Jit
open Isa
set_option autoImplicit false

/-! ## Instructions -/

/-- The instructions that are compiled, by what they do. -/
inductive GuestOp where
  | alu (op : AluOp)
  | data (op : DataOp)
  | branch (op : BranchOp)
  | jal
  | jalr
  deriving DecidableEq, Repr

def GuestOp.of : Isa.Op → Option GuestOp
  | .lui => some (.alu .lui)
  | .auipc => some (.alu .auipc)
  | .imm op => some (.alu (.imm op))
  | .reg op => some (.alu (.reg op))
  | .load op => some (.data (.load op))
  | .store op => some (.data (.store op))
  | .branch op => some (.branch op)
  | .jal => some .jal
  | .jalr => some .jalr
  | _ => none

namespace JitDecode

/-- What an instruction does; a fused operation is none. -/
def guestOp (dec : JitDecode) : Option GuestOp :=
  match dec.op with
  | .rv op => GuestOp.of (Emu.execCase op)
  | _ => none

def operands (dec : JitDecode) : Operands :=
  ⟨dec.pc, Emu.toReg dec.rd, Emu.toReg dec.rs1, Emu.toReg dec.rs2, dec.imm⟩

/-- The fields are those of an instruction: it has four bytes at most, its registers exist, and its
shift amounts are below the width. -/
structure Encodable (dec : JitDecode) : Prop where
  size : Asm.inst_length dec.inst ≤ 4
  rd : dec.rd < 32
  rs1 : dec.rs1 < 32
  rs2 : dec.rs2 < 32
  word : dec.op = .rv .slliw ∨ dec.op = .rv .srliw → dec.imm < 32
  whole : dec.op = .rv .slli ∨ dec.op = .rv .srli → dec.imm < 64

end JitDecode

/-- Everything that the compiler supports is an instruction, or fused. -/
theorem guestOp_supported {dec : JitDecode} {op : Asm.Op} (hop : dec.op = .rv op)
    (h : dec.op ∈ jit_isa_rv64) : ∃ g, dec.guestOp = some g := by
  have hall : jit_isa_rv64.all (fun op => match op with
      | .rv op => (GuestOp.of (Emu.execCase op)).isSome
      | _ => true) = true := by decide
  have hsome := List.all_eq_true.mp hall _ h
  rw [hop] at hsome
  rw [JitDecode.guestOp, hop]
  exact Option.isSome_iff_exists.mp hsome

/-! ## Execution -/

structure GuestCore (σ : Type) where
  pc : BitVec 64
  state : GuestState σ

namespace GuestCore
variable {σ : Type} (mmu : Mmu σ)

def write (c : GuestCore σ) (rd : Reg) (v : BitVec 64) : GuestCore σ :=
  if rd = rv_ireg_x0 then c
  else { c with state := { c.state with ireg := Function.update c.state.ireg rd v } }

def goto (c : GuestCore σ) (pc : BitVec 64) : GuestCore σ := { c with pc := pc }

/-- The guest behind an instruction, with the fault that it has raised. -/
def exec (dec : JitDecode) (op : GuestOp) (c : GuestCore σ) : GuestCore σ × Option Fault :=
  let o := dec.operands
  let x := c.state.ireg o.rs1
  let y := c.state.ireg o.rs2
  match op with
  | .alu op => ((c.write o.rd (op.result o x y)).goto dec.cont_pc, none)
  | .data op =>
    match interpData mmu op o c.state with
    | (g, none) => (⟨dec.cont_pc, g⟩, none)
    | (g, some e) => (⟨c.pc, g⟩, some e)
  | .branch op => (c.goto (if op.holds x y then dec.branch_pc else dec.cont_pc), none)
  | .jal => ((c.write o.rd dec.cont_pc).goto dec.branch_pc, none)
  | .jalr => ((c.write o.rd dec.cont_pc).goto ((x + o.disp) &&& ~~~1#64), none)

/-- One instruction, where the guest is. -/
def step (c : GuestCore σ) (dec : JitDecode) : Option (GuestCore σ) :=
  if dec.pc = c.pc then
    dec.guestOp.bind fun op =>
      match c.exec mmu dec op with
      | (c', none) => some c'
      | (_, some _) => none
  else none

/-- Instructions one after the other. -/
def execAll (c : GuestCore σ) (insts : List JitDecode) : Option (GuestCore σ) :=
  insts.foldlM (step mmu) c

theorem execAll_append (c : GuestCore σ) (l l' : List JitDecode) :
    c.execAll mmu (l ++ l') = (c.execAll mmu l).bind fun c' => c'.execAll mmu l' := by
  rw [execAll, List.foldlM_append]
  rfl

@[simp] theorem execAll_nil (c : GuestCore σ) : c.execAll mmu [] = some c := rfl

theorem execAll_cons (c : GuestCore σ) (dec : JitDecode) (l : List JitDecode) :
    c.execAll mmu (dec :: l) = (c.step mmu dec).bind fun c' => c'.execAll mmu l := rfl

theorem step_of {c : GuestCore σ} {dec : JitDecode} {op : GuestOp} (hpc : dec.pc = c.pc)
    (hop : dec.guestOp = some op) {c' : GuestCore σ} (hexec : c.exec mmu dec op = (c', none)) :
    c.step mmu dec = some c' := by
  rw [step, if_pos hpc, hop]
  dsimp only [Option.bind_some]
  rw [hexec]

@[simp] theorem write_pc (c : GuestCore σ) (rd : Reg) (v : BitVec 64) : (c.write rd v).pc = c.pc := by
  unfold write
  split <;> rfl

theorem write_ireg (c : GuestCore σ) (rd : Reg) (v : BitVec 64) : (c.write rd v).state.ireg =
    if rd = rv_ireg_x0 then c.state.ireg else Function.update c.state.ireg rd v := by
  unfold write
  split <;> rfl

@[simp] theorem write_mem (c : GuestCore σ) (rd : Reg) (v : BitVec 64) :
    (c.write rd v).state.mem = c.state.mem := by
  unfold write
  split <;> rfl

@[simp] theorem write_accesses (c : GuestCore σ) (rd : Reg) (v : BitVec 64) :
    (c.write rd v).state.accesses = c.state.accesses := by
  unfold write
  split <;> rfl

/-- The register x0 stays zero. -/
theorem write_zero {c : GuestCore σ} (h : c.state.ireg rv_ireg_x0 = 0) (rd : Reg) (v : BitVec 64) :
    (c.write rd v).state.ireg rv_ireg_x0 = 0 := by
  rw [write_ireg]
  split
  · exact h
  · rw [Function.update_of_ne (Ne.symm ‹_›), h]

theorem interpData_zero {g : GuestState σ} (h : g.ireg rv_ireg_x0 = 0) (op : DataOp) (dec : Operands) :
    (interpData mmu op dec g).1.ireg rv_ireg_x0 = 0 := by
  unfold interpData
  cases op with
  | load op =>
    dsimp only
    split
    · dsimp only
      rw [Function.update_apply]
      split
      · exact if_pos (Eq.symm ‹_›)
      · exact h
    · exact h
  | store op =>
    dsimp only
    split <;> exact h

theorem exec_zero {c : GuestCore σ} (h : c.state.ireg rv_ireg_x0 = 0) (dec : JitDecode) (op : GuestOp) :
    (c.exec mmu dec op).1.state.ireg rv_ireg_x0 = 0 := by
  cases op with
  | alu op => exact write_zero h _ _
  | data op =>
    have hdata := interpData_zero mmu h op dec.operands
    unfold exec
    dsimp only
    split
    all_goals
      rename_i hinterp
      rw [hinterp] at hdata
      exact hdata
  | branch op => exact h
  | jal => exact write_zero h _ _
  | jalr => exact write_zero h _ _

theorem step_zero {c c' : GuestCore σ} {dec : JitDecode} (h : c.state.ireg rv_ireg_x0 = 0)
    (hstep : c.step mmu dec = some c') : c'.state.ireg rv_ireg_x0 = 0 := by
  unfold step at hstep
  split at hstep
  · obtain ⟨op, -, hexec⟩ := Option.bind_eq_some_iff.mp hstep
    have hzero := exec_zero mmu h dec op
    split at hexec
    · rename_i hc
      rw [hc] at hzero
      exact Option.some.inj hexec ▸ hzero
    · cases hexec
  · cases hstep

theorem execAll_zero {c c' : GuestCore σ} {insts : List JitDecode} (h : c.state.ireg rv_ireg_x0 = 0)
    (hexec : c.execAll mmu insts = some c') : c'.state.ireg rv_ireg_x0 = 0 := by
  induction insts generalizing c with
  | nil => exact Option.some.inj hexec ▸ h
  | cons dec insts ih =>
    obtain ⟨c₁, hstep, hrest⟩ := Option.bind_eq_some_iff.mp hexec
    exact ih (step_zero mmu h hstep) hrest

end GuestCore

/-! ## Programs -/

/-- The instruction at each address. -/
structure Program where
  fetch : BitVec 64 → Option JitDecode
  pc : ∀ a dec, fetch a = some dec → dec.pc = a

/-- A run of the guest: so many instructions of the program, none of which fails. -/
def Program.Reaches {σ : Type} (P : Program) (mmu : Mmu σ) (c : GuestCore σ) (n : ℕ)
    (c' : GuestCore σ) : Prop :=
  ∃ insts : List JitDecode, insts.length = n ∧ (∀ dec ∈ insts, P.fetch dec.pc = some dec) ∧
    c.execAll mmu insts = some c'

section
variable {σ : Type} {P : Program} {mmu : Mmu σ} {c c' c'' : GuestCore σ} {m n : ℕ}

theorem Program.Reaches.refl (P : Program) (mmu : Mmu σ) (c : GuestCore σ) : P.Reaches mmu c 0 c :=
  ⟨[], rfl, List.forall_mem_nil _, rfl⟩

theorem Program.Reaches.trans (h : P.Reaches mmu c m c') (h' : P.Reaches mmu c' n c'') :
    P.Reaches mmu c (m + n) c'' := by
  obtain ⟨l, rfl, hl, hexec⟩ := h
  obtain ⟨l', rfl, hl', hexec'⟩ := h'
  refine ⟨l ++ l', List.length_append, fun dec hdec => ?_, ?_⟩
  · exact (List.mem_append.mp hdec).elim (hl dec) (hl' dec)
  · rw [GuestCore.execAll_append, hexec]
    exact hexec'

end

end RvCkpt.Jit
