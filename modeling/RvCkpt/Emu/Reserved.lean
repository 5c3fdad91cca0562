import RvCkpt.Isa.Exec
import RvCkpt.Priv.Hart

/-! # Load-reserved and store-conditional

The `lr` and `sc` cases of the interpreters in `src/src/emu/interp-softfloat.h`, which are the same
for both widths and all word lengths, over the memory that an MMU serves. The reservation register
`lr` of `src/src/emu/processor-base.h` against the history of a hart.
-/

namespace RvCkpt.Emu.Reserved
set_option autoImplicit false
open ByteMem Isa
open Priv (Xlen)

/-! ## The two instructions -/

/-- `load` and `store` of an MMU, which may raise an exception. -/
structure Mmu (w : ℕ) (μ : Type) where
  load : AmoWidth → BitVec w → μ → Option (BitVec w) × μ
  store : AmoWidth → BitVec w → BitVec w → μ → Bool × μ

structure Hart (w : ℕ) (μ : Type) where
  ireg : Reg → BitVec w
  lr : BitVec w
  mem : μ

/-- The reservation register of a new hart is 0. -/
def Hart.start {w : ℕ} {μ : Type} (ireg : Reg → BitVec w) (mem : μ) : Hart w μ := ⟨ireg, 0, mem⟩

/-- An instruction: one of the two, or any other, which leaves the reservation register alone. -/
inductive MemOp (w : ℕ) (μ : Type) where
  | lr (width : AmoWidth) (rd rs1 : Reg)
  | sc (width : AmoWidth) (rd rs1 rs2 : Reg)
  | other (f : (Reg → BitVec w) → μ → (Reg → BitVec w) × μ)

/-- How a store-conditional ends. -/
inductive ScEnd where
  | stored | refused | raised
  deriving DecidableEq, Repr

/-- What a hart has done: a load-reserved, which may have raised an exception, a store-conditional,
or something else. -/
inductive Event (w : ℕ) where
  | lr (addr : BitVec w) (ok : Bool)
  | sc (addr : BitVec w) (res : ScEnd)
  | other
  deriving DecidableEq, Repr

section
variable {w : ℕ} {μ : Type}

def Hart.setReg (h : Hart w μ) (rd : Reg) (v : BitVec w) : Hart w μ :=
  { h with ireg := Function.update h.ireg rd (if rd = rv_ireg_x0 then 0 else v) }

/-- One instruction. -/
def Hart.step (mmu : Mmu w μ) (h : Hart w μ) : MemOp w μ → Hart w μ × Event w
  | .lr width rd rs1 =>
    let addr := h.ireg rs1
    -- the register is written before the load, which may raise an exception
    match mmu.load width addr h.mem with
    | (none, m) => ({ h with lr := addr, mem := m }, .lr addr false)
    | (some t, m) => (Hart.setReg { h with lr := addr, mem := m } rd t, .lr addr true)
  | .sc width rd rs1 rs2 =>
    let addr := h.ireg rs1
    if h.lr ≠ addr then (h.setReg rd 1, .sc addr .refused)
    else
      match mmu.store width addr (h.ireg rs2) h.mem with
      | (false, m) => ({ h with mem := m }, .sc addr .raised)
      | (true, m) => (Hart.setReg { h with mem := m } rd 0, .sc addr .stored)
  | .other f => ({ h with ireg := (f h.ireg h.mem).1, mem := (f h.ireg h.mem).2 }, .other)

/-! ## Histories, the newest event first -/

/-- The address of the most recent reservation, if no store-conditional has been executed since. -/
def reservation : List (Event w) → Option (BitVec w)
  | [] => none
  | .lr addr ok :: hist => if ok then some addr else reservation hist
  | .sc _ res :: hist => if res = .raised then reservation hist else none
  | .other :: hist => reservation hist

/-- The address of the last load-reserved, completed or not; 0 before the first one. -/
def attempted : List (Event w) → BitVec w
  | [] => 0
  | .lr addr _ :: _ => addr
  | _ :: hist => attempted hist

/-- A store-conditional stores only at the address of the reservation; one that refuses leaves
memory as it is and returns 1. -/
def StepRight (mmu : Mmu w μ) (hist : List (Event w)) (h : Hart w μ) : MemOp w μ → Prop
  | .sc width rd rs1 rs2 =>
    let r := h.step mmu (.sc width rd rs1 rs2)
    (r.2 = .sc (h.ireg rs1) .stored → reservation hist = some (h.ireg rs1)) ∧
      (r.2 = .sc (h.ireg rs1) .refused →
        r.1.mem = h.mem ∧ (rd ≠ rv_ireg_x0 → r.1.ireg rd ≠ 0))
  | _ => True

/-- A store-conditional to the address of the last load-reserved finds that address reserved,
unless its store raises an exception. -/
def StepSafe (mmu : Mmu w μ) (hist : List (Event w)) (h : Hart w μ) : MemOp w μ → Prop
  | .sc width _ rs1 rs2 =>
    attempted hist = h.ireg rs1 → (mmu.store width (h.ireg rs1) (h.ireg rs2) h.mem).1 = true →
      reservation hist = some (h.ireg rs1)
  | _ => True

/-- All steps of a run meet `P`, which may depend on the history. -/
def Always (mmu : Mmu w μ) (P : List (Event w) → Hart w μ → MemOp w μ → Prop) :
    List (Event w) → Hart w μ → List (MemOp w μ) → Prop
  | _, _, [] => True
  | hist, h, op :: ops =>
    P hist h op ∧ Always mmu P ((h.step mmu op).2 :: hist) (h.step mmu op).1 ops

/-! ## The reservation register -/

variable {mmu : Mmu w μ} {hist : List (Event w)} {h : Hart w μ}

/-- The register holds the address of the last load-reserved. -/
theorem step_lr (hlr : h.lr = attempted hist) (op : MemOp w μ) :
    (h.step mmu op).1.lr = attempted ((h.step mmu op).2 :: hist) := by
  cases op with
  | lr width rd rs1 =>
    rw [Hart.step]
    cases mmu.load width (h.ireg rs1) h.mem with
    | mk t m => cases t <;> rfl
  | sc width rd rs1 rs2 =>
    rw [Hart.step]
    split
    · exact hlr
    · cases mmu.store width (h.ireg rs1) (h.ireg rs2) h.mem with
      | mk ok m => cases ok <;> exact hlr
  | other f => exact hlr

variable (mmu h) in
/-- What a store-conditional does. -/
theorem step_sc (width : AmoWidth) (rd rs1 rs2 : Reg) :
    (h.lr ≠ h.ireg rs1 ∧ h.step mmu (.sc width rd rs1 rs2) =
      (h.setReg rd 1, .sc (h.ireg rs1) .refused)) ∨
    (h.lr = h.ireg rs1 ∧ (mmu.store width (h.ireg rs1) (h.ireg rs2) h.mem).1 = false ∧
      (h.step mmu (.sc width rd rs1 rs2)).2 = .sc (h.ireg rs1) .raised) ∨
    (h.lr = h.ireg rs1 ∧ (mmu.store width (h.ireg rs1) (h.ireg rs2) h.mem).1 = true ∧
      (h.step mmu (.sc width rd rs1 rs2)).2 = .sc (h.ireg rs1) .stored) := by
  rw [Hart.step]
  by_cases hlr : h.lr = h.ireg rs1
  · right
    rw [if_neg (not_not.mpr hlr)]
    cases mmu.store width (h.ireg rs1) (h.ireg rs2) h.mem with
    | mk ok m =>
      cases ok with
      | false => exact .inl ⟨hlr, rfl, rfl⟩
      | true => exact .inr ⟨hlr, rfl, rfl⟩
  · exact .inl ⟨hlr, if_pos hlr⟩

theorem stepRight_iff (hw : (1 : BitVec w) ≠ 0) (hlr : h.lr = attempted hist) (op : MemOp w μ) :
    StepRight mmu hist h op ↔ StepSafe mmu hist h op := by
  cases op with
  | lr width rd rs1 => exact Iff.rfl
  | other f => exact Iff.rfl
  | sc width rd rs1 rs2 =>
    unfold StepRight StepSafe
    rw [← hlr]
    dsimp only
    rcases step_sc mmu h width rd rs1 rs2 with
      ⟨hne, hstep⟩ | ⟨heq, hstore, hev⟩ | ⟨heq, hstore, hev⟩
    · rw [hstep]
      refine iff_of_true ⟨nofun, fun _ => ⟨rfl, ?_⟩⟩ (fun h => absurd h hne)
      intro hrd
      dsimp only [Hart.setReg]
      rw [Function.update_self, if_neg hrd]
      exact hw
    · rw [hev, hstore]
      exact iff_of_true ⟨nofun, nofun⟩ (fun _ => nofun)
    · rw [hev, hstore]
      constructor
      · rintro ⟨hstored, -⟩ - -
        exact hstored rfl
      · intro hsafe
        exact ⟨fun _ => hsafe heq rfl, nofun⟩

/-- A whole run, by induction on the operations: each step is right exactly if it is safe. -/
theorem always_right_iff (hw : (1 : BitVec w) ≠ 0) (hlr : h.lr = attempted hist)
    (ops : List (MemOp w μ)) :
    Always mmu (StepRight mmu) hist h ops ↔ Always mmu (StepSafe mmu) hist h ops := by
  induction ops generalizing hist h with
  | nil => exact Iff.rfl
  | cons op ops ih =>
    rw [Always, Always, stepRight_iff hw hlr op, ih (step_lr hlr op)]

end

/-- **When store-conditionals respect reservations**, for every memory, every run of a hart from
its start, and both word lengths. -/
theorem lrsc_right_iff (xl : Xlen) {μ : Type} (mmu : Mmu xl.width μ) (ireg : Reg → xl.UX) (mem : μ)
    (ops : List (MemOp xl.width μ)) :
    Always mmu (StepRight mmu) [] (.start ireg mem) ops ↔
      Always mmu (StepSafe mmu) [] (.start ireg mem) ops := by
  refine always_right_iff ?_ rfl ops
  cases xl <;> decide

/-- The memory of the proxy MMU. -/
def proxyMmu : Mmu 64 Mem where
  load width addr m := (some (width.extend (m.read addr.toNat width.bytes)), m)
  store width addr x m := (true, m.write addr.toNat width.bytes x)

/-- A second store-conditional after one load-reserved stores again. -/
theorem secondSc_not_right :
    ¬ Always proxyMmu (StepRight proxyMmu) [] (.start (fun _ => 0x1000) fun _ => 0)
      [.lr .w 10 11, .sc .w 12 11 13, .sc .w 12 11 13] := by
  rintro ⟨-, -, ⟨hstored, -⟩, -⟩
  exact absurd (hstored rfl) (by decide)

/-! ## The interpreter of the proxy processor -/

/-- What the two instructions see of the machine. -/
def ofMachine (s : Machine) : Hart 64 Mem := ⟨s.ireg, s.lr, s.mem⟩

/-- An instruction of `exec_inst_rv64`. -/
def memOp (host : Host) (dec : Decode) (s : Machine) (off : BitVec 64) : MemOp 64 Mem :=
  match dec.op with
  | .lr width => .lr width dec.rd dec.rs1
  | .sc width => .sc width dec.rd dec.rs1 dec.rs2
  | _ => .other fun _ _ => ((execInst host dec s off).1.ireg, (execInst host dec s off).1.mem)

/-- Only a load-reserved writes the reservation register. -/
theorem execInst_keeps_lr (host : Host) (dec : Decode) (s : Machine) (off : BitVec 64)
    (h : ∀ width, dec.op ≠ .lr width) : (execInst host dec s off).1.lr = s.lr := by
  unfold execInst
  cases hop : dec.op with
  | lr width => exact absurd hop (h width)
  | sc width =>
    dsimp only [execSc]
    split <;> rfl
  | fp op =>
    dsimp only [execFp]
    split
    · split <;> rfl
    · rfl
  | fmvToInt p => cases p <;> rfl
  | fmvOfInt p => cases p <;> rfl
  | _ => rfl

/-- The interpreter takes the steps of this module. -/
theorem execInst_step (host : Host) (dec : Decode) (s : Machine) (off : BitVec 64) :
    ofMachine (execInst host dec s off).1 =
      ((ofMachine s).step proxyMmu (memOp host dec s off)).1 := by
  by_cases hlr : ∃ width, dec.op = .lr width
  · obtain ⟨width, hop⟩ := hlr
    rw [memOp, hop, execInst, hop]
    rfl
  · have hkeep := execInst_keeps_lr host dec s off (fun width hop => hlr ⟨width, hop⟩)
    by_cases hsc : ∃ width, dec.op = .sc width
    · obtain ⟨width, hop⟩ := hsc
      rw [memOp, hop, execInst, hop]
      dsimp only [execSc, Hart.step]
      by_cases hne : s.lr ≠ s.ireg dec.rs1
      · rw [if_pos hne, if_pos (show (ofMachine s).lr ≠ (ofMachine s).ireg dec.rs1 from hne)]
        rfl
      · rw [if_neg hne, if_neg (show ¬ (ofMachine s).lr ≠ (ofMachine s).ireg dec.rs1 from hne)]
        rfl
    · have hother : memOp host dec s off =
          .other fun _ _ => ((execInst host dec s off).1.ireg, (execInst host dec s off).1.mem) := by
        unfold memOp
        cases hop : dec.op with
        | lr width => exact absurd ⟨width, hop⟩ hlr
        | sc width => exact absurd ⟨width, hop⟩ hsc
        | _ => rfl
      rw [hother, ofMachine, hkeep]
      rfl

end RvCkpt.Emu.Reserved
