import RvCkpt.Stub.Protocol

/-! # Replacing a repeated instruction

The breakpoint instruction of a `repeat` break is executed in a first run, which prints its
destination register each time, and is replaced by a trap worth the printed values in the second.
-/

namespace RvCkpt.Stub
open ByteMem Isa Parse
set_option autoImplicit false

/-! ## What the instruction does -/

/-- `execute` of `CheckpointManager`: the register that is printed after the instruction. -/
def printedValue (host : Host) (dec : Decode) (s : Machine) : BitVec 64 :=
  (execInst host dec s 4).1.ireg dec.rd

/-- An instruction with a destination that can be injected writes it and goes on. -/
theorem execInst_of_get_rd {host : Host} {dec : Decode} {rd : Reg} (h : get_rd dec = some rd)
    (s : Machine) (off : BitVec 64) : ∃ v, execInst host dec s off = (s.setReg dec.rd v, off) := by
  unfold get_rd at h
  split at h
  · rename_i op hop
    exact ⟨_, by rw [execInst, hop]⟩
  · rename_i hop
    exact ⟨_, by rw [execInst, hop]⟩
  · rename_i hop
    exact ⟨_, by rw [execInst, hop]⟩
  · rename_i op hop
    exact ⟨_, by rw [execInst, hop]⟩
  · rename_i op hop
    exact ⟨_, by rw [execInst, hop]⟩
  · cases h

theorem get_rd_eq {dec : Decode} {rd : Reg} (h : get_rd dec = some rd) :
    rd = if dec.rd = rv_ireg_x0 then rv_ireg_a0 else dec.rd := by
  unfold get_rd at h
  by_cases hx0 : dec.rd = rv_ireg_x0
  · rw [if_pos hx0]
    split at h <;> simp only [if_pos hx0, Option.some.injEq, reduceCtorEq] at h <;> exact h.symm
  · rw [if_neg hx0]
    split at h <;> simp only [if_neg hx0, Option.some.injEq, reduceCtorEq] at h <;> exact h.symm

/-- Nothing but the integer registers, and the next instruction is the one behind. -/
structure OnlyRegs (s s' : Machine) (off : BitVec 64) : Prop where
  freg : s'.freg = s.freg
  lr : s'.lr = s.lr
  fcsr : s'.fcsr = s.fcsr
  mem : s'.mem = s.mem
  results : s'.results = s.results
  next : off = 4

theorem onlyRegs_of_get_rd {host : Host} {dec : Decode} {rd : Reg} (h : get_rd dec = some rd)
    (s : Machine) : OnlyRegs s (execInst host dec s 4).1 (execInst host dec s 4).2 := by
  obtain ⟨v, hexec⟩ := execInst_of_get_rd h s 4
  rw [hexec]
  exact ⟨rfl, rfl, rfl, rfl, rfl, rfl⟩

/-! ## The trap in its place -/

/-- The machine `t` behind the trap is as the instruction would have left it, and the instruction
has no other effect. -/
structure Substituted (host : Host) (dec : Decode) (s t : Machine) : Prop where
  regs : ∀ r, t.ireg r = (execInst host dec s 4).1.ireg r
  only : OnlyRegs s (execInst host dec s 4).1 (execInst host dec s 4).2

/-- The trap stands for the instruction just when the register that is printed is the one that is
injected, or it makes no difference. -/
theorem substituted_iff {host : Host} {dec : Decode} {rd : Reg} {s t : Machine}
    (h : get_rd dec = some rd) (hx0 : s.ireg rv_ireg_x0 = 0)
    (ht : ∀ r, t.ireg r = if r = rd then printedValue host dec s else s.ireg r) :
    Substituted host dec s t ↔ dec.rd ≠ rv_ireg_x0 ∨ s.ireg rv_ireg_a0 = 0 := by
  obtain ⟨v, hexec⟩ : ∃ v, execInst host dec s 4 = (s.setReg dec.rd v, 4) :=
    execInst_of_get_rd h s 4
  have hrd := get_rd_eq h
  have hself : printedValue host dec s = if dec.rd = rv_ireg_x0 then 0 else v := by
    rw [printedValue, hexec]
    exact Function.update_self _ _ _
  have hother : ∀ r, r ≠ dec.rd → (execInst host dec s 4).1.ireg r = s.ireg r := by
    intro r hr
    rw [hexec]
    exact Function.update_of_ne hr _ _
  by_cases hdec : dec.rd = rv_ireg_x0
  · rw [if_pos hdec] at hrd hself
    constructor
    · intro hsub
      right
      have ha0 := hsub.regs rv_ireg_a0
      rw [ht, if_pos hrd.symm, hself, hother _ (by rw [hdec]; decide)] at ha0
      exact ha0.symm
    · rintro (hne | ha0)
      · exact absurd hdec hne
      · refine ⟨?_, onlyRegs_of_get_rd h s⟩
        intro r
        rw [ht]
        by_cases hr : r = rd
        · rw [if_pos hr, hself, hr, hrd, hother _ (by rw [hdec]; decide), ha0]
        · rw [if_neg hr]
          by_cases hr0 : r = dec.rd
          · rw [hr0, show (execInst host dec s 4).1.ireg dec.rd = printedValue host dec s from rfl,
              hself, hdec, hx0]
          · rw [hother r hr0]
  · rw [if_neg hdec] at hrd
    refine iff_of_true ⟨?_, onlyRegs_of_get_rd h s⟩ (.inl hdec)
    intro r
    rw [ht]
    by_cases hr : r = rd
    · rw [if_pos hr, hr, hrd]
      rfl
    · rw [if_neg hr, hother r (by rwa [← hrd])]

theorem trap_regs {host : Host} {rd : Reg} {trap : Trap} {env : FarEnv} {K : ℕ → Prop}
    {s : Machine} {v : BitVec 64} (halter : trap.alterRd = some rd.val)
    (hready : trap.Ready env host s.mem) (hkeeps : trap.Keeps env K)
    (hreplays : trap.Replays env host K s.mem v) (hpc : s.pc = BitVec.ofNat 64 trap.addr)
    (hx0 : s.ireg rv_ireg_x0 = 0) :
    ∃ t, Reaches host s t ∧ t.pc = BitVec.ofNat 64 (trap.addr + 4) ∧
      ∀ r, t.ireg r = if r = rd then v else s.ireg r := by
  obtain ⟨t, ht, hdone⟩ := trap_run hready hkeeps hreplays hpc
  have htrap : trap.rd = rd.val := by rw [Trap.rd, halter, Option.getD_some]
  refine ⟨t, ht, hdone.pc, ?_⟩
  intro r
  by_cases hr : r = rv_ireg_x0
  · have hne : r ≠ rd := by
      have hpos := hready.rd.1
      rintro rfl
      rw [htrap, hr] at hpos
      exact absurd hpos (by decide)
    rw [if_neg hne, hr, hdone.x0, hx0]
  · have hiff : r.val = trap.rd ↔ r = rd := by rw [htrap, Fin.ext_iff]
    rw [hdone.regs r hr]
    simp only [hiff]

/-- **The trap in place of the instruction**, as near, far and replay code execute it. -/
theorem substitution_exact {host : Host} {dec : Decode} {rd : Reg} {trap : Trap} {env : FarEnv}
    {K : ℕ → Prop} {s : Machine} (hrd : get_rd dec = some rd) (halter : trap.alterRd = some rd.val)
    (hready : trap.Ready env host s.mem) (hkeeps : trap.Keeps env K)
    (hreplays : trap.Replays env host K s.mem (printedValue host dec s))
    (hpc : s.pc = BitVec.ofNat 64 trap.addr) (hx0 : s.ireg rv_ireg_x0 = 0) :
    ∃ t, Reaches host s t ∧ t.pc = BitVec.ofNat 64 (trap.addr + 4) ∧
      (∀ r, t.ireg r = if r = rd then printedValue host dec s else s.ireg r) ∧
      (Substituted host dec s t ↔ dec.rd ≠ rv_ireg_x0 ∨ s.ireg rv_ireg_a0 = 0) := by
  obtain ⟨t, ht, htpc, hregs⟩ := trap_regs halter hready hkeeps hreplays hpc hx0
  exact ⟨t, ht, htpc, hregs, substituted_iff hrd hx0 hregs⟩

/-- `addi t0, t1, 70`, decoded. -/
def exampleAddi : Decode := ⟨.imm .addi, 5, 6, 0, 0, 70, 0⟩

theorem exampleAddi_substituted :
    ∃ t, Reaches exampleHost (exampleMachine 0x10000 0x1002 0x11220) t ∧ t.pc = 0x10004 ∧
      (∀ r, t.ireg r = if r = 5 then
        printedValue exampleHost exampleAddi (exampleMachine 0x10000 0x1002 0x11220) else
          (exampleMachine 0x10000 0x1002 0x11220).ireg r) ∧
      (Substituted exampleHost exampleAddi (exampleMachine 0x10000 0x1002 0x11220) t ↔
        exampleAddi.rd ≠ rv_ireg_x0 ∨
          (exampleMachine 0x10000 0x1002 0x11220).ireg rv_ireg_a0 = 0) := by
  have hmem : ∀ a, (a < 0x21080 ∨ 0x21088 ≤ a) →
      (exampleMachine 0x10000 0x1002 0x11220).mem a = exampleMem a :=
    fun a ha => Mem.write_of_not_mem (by omega)
  have hkeeps : exampleTrap.Keeps exampleEntry.far fun _ => True :=
    ⟨fun _ _ => trivial, fun _ _ => trivial, fun _ _ => trivial, fun _ _ => trivial⟩
  have hrd : get_rd exampleAddi = some 5 := rfl
  have halter : exampleTrap.alterRd = some (5 : Reg).val := rfl
  exact substitution_exact hrd halter (exampleTrap_ready hmem) hkeeps exampleTrap_replays rfl rfl

/-! ## A no-op -/

/-- `addi x0, x0, 0`, decoded. -/
def exampleNop : Decode := ⟨.imm .addi, 0, 0, 0, 0, 0, 0⟩

def nopTrapCode : List (BitVec 32) := [0x3000006f]

def nopNearCode : List (BitVec 32) :=
  [0x00011537, 0x22253823, 0x00010537, 0x20050567, 0x00011137, 0x23013103, 0xcedff06f]

/-- The no-op has been replaced, and the table holds what was printed for it. -/
def nopMem : Mem :=
  let traps := Mem.writeBytes (Mem.writeBytes exampleMem 0x10300 (codeBytes nopNearCode)) 0x10000
    (codeBytes nopTrapCode)
  Mem.write (Mem.write traps 0x11228 8 0) 0x21080 8 0x11220

def nopMachine : Machine := { exampleMachine 0x10000 0x1002 0 with mem := nopMem }

def nopTrap : Trap where
  addr := 0x10000
  alterRd := some 10
  nearAddr := 0x10300
  nearEnd := 0x1031c
  nearBuf := 0x11230

theorem nopMem_eq {a : ℕ} (h : 0x20500 ≤ a ∧ a < 0x20508 ∨ 0x10200 ≤ a ∧ a < 0x102ac) :
    nopMem a = exampleMem a := by
  have hnear : (codeBytes nopNearCode).length = 28 := by decide
  have htrap : (codeBytes nopTrapCode).length = 4 := by decide
  rw [nopMem, Mem.write_of_not_mem (by omega), Mem.write_of_not_mem (by omega),
    Mem.writeBytes_of_not_mem (by omega), Mem.writeBytes_of_not_mem (by omega)]

theorem nopTrap_ready : nopTrap.Ready exampleEntry.far exampleHost nopMem := by
  have hfar : FarAt exampleHost nopMem 0x11200 0x11208 0x10200 0x102ac :=
    exampleFar fun a hlo hhi => nopMem_eq (.inr ⟨hlo, hhi⟩)
  have hjump : BlockAt exampleHost nopMem 0x10000 [] 0x10000 (relJump 0x10000 0x10300) 0x10004 :=
    ⟨rfl, by decide +kernel⟩
  have hnear : NearAt exampleHost nopMem 0x11230 0x10200 .none 0x10004 0x10300 0x1031c :=
    ⟨0x1030c, 0x10310, 0x10318, ⟨by decide +kernel, by decide +kernel⟩,
      ⟨by decide +kernel, by decide +kernel⟩, by decide⟩
  have hready : exampleEntry.far.Ready exampleHost nopMem := by
    refine ⟨hfar, by decide +kernel, by decide +kernel, ?_, ?_, ?_, ?_, ?_, ?_, ?_, ?_, ?_⟩ <;>
      simp only [EntryEnv.far, exampleEntry, Reachable] <;> decide
  refine ⟨?_, hjump, ?_, hnear, hready, ?_, ?_, ?_, ?_, ?_, ?_, ?_, ?_, ?_, ?_⟩ <;>
    simp only [nopTrap, Trap.rd, EntryEnv.far, exampleEntry, Reachable, InReach, J_MAX_OFFS] <;>
    decide

theorem nopTrap_replays :
    nopTrap.Replays exampleEntry.far exampleHost (fun _ => True) nopMem 0 := by
  intro w
  refine exampleReplay (k := 0x11220) ?_ ?_ (by decide) ?_
  · intro a hlo hhi
    rw [show nopTrap.nearBuf = 0x11230 from rfl, Mem.write_of_not_mem (by omega)]
    exact nopMem_eq (.inl ⟨hlo, hhi⟩)
  · rw [show nopTrap.nearBuf = 0x11230 from rfl, Mem.read_write_of_disjoint (by decide)]
    exact Mem.read_write_word _ _ _
  · rw [show nopTrap.nearBuf = 0x11230 from rfl, Mem.read_write_of_disjoint (by decide)]
    decide +kernel

/-- The trap clears a0, the no-op does not. -/
theorem nop_not_substituted :
    get_rd exampleNop = some rv_ireg_a0 ∧
      ∃ t, Reaches exampleHost nopMachine t ∧ t.pc = 0x10004 ∧
        (∀ r, t.ireg r = if r = rv_ireg_a0 then printedValue exampleHost exampleNop nopMachine
          else nopMachine.ireg r) ∧ ¬ Substituted exampleHost exampleNop nopMachine t := by
  have hrd : get_rd exampleNop = some rv_ireg_a0 := rfl
  have hkeeps : nopTrap.Keeps exampleEntry.far fun _ => True :=
    ⟨fun _ _ => trivial, fun _ _ => trivial, fun _ _ => trivial, fun _ _ => trivial⟩
  have halter : nopTrap.alterRd = some rv_ireg_a0.val := rfl
  have hprinted : printedValue exampleHost exampleNop nopMachine = 0 := by decide +kernel
  obtain ⟨t, ht, htpc, hregs⟩ := trap_regs (s := nopMachine) halter nopTrap_ready hkeeps
    nopTrap_replays rfl rfl
  rw [← hprinted] at hregs
  refine ⟨hrd, t, ht, htpc, hregs, ?_⟩
  rw [substituted_iff hrd rfl hregs]
  decide

end RvCkpt.Stub
