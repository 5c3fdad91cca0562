import RvCkpt.Emu.RunLoop

/-! # The run loop with compiled traces

`step` of `src/src/jit/jit-runloop.h`: a turn may be a whole trace, which moves the counter by what
its code adds to it.
-/

namespace RvCkpt.Jit
open Priv WhileLoop Emu
set_option autoImplicit false

def internal_cause_hotspot : ℤ := 0x1004

/-- What the call of a compiled trace does. -/
inductive Compiled (xl : Xlen) (σ : Type) where
  /-- There is no trace for the program counter. -/
  | absent
  | returns (s : ProcessorBase xl σ) (retired : ℕ)
  /-- A signal came while the code ran. -/
  | raises (cause : ℤ) (s : ProcessorBase xl σ) (retired : ℕ)
  | forever (s : ProcessorBase xl σ)

/-- What the run loop calls. -/
structure Calls (xl : Xlen) (σ ι : Type) extends Emu.Calls xl σ ι where
  /-- `log & proc_log_jit_trap` -/
  log_jit_trap : ProcessorBase xl σ → Bool
  /-- `log & proc_log_jit_audit` -/
  log_jit_audit : ProcessorBase xl σ → Bool
  jit_exec : ProcessorBase xl σ → Compiled xl σ
  inst_fence_i : ι → xl.UX → Act xl σ (Option xl.UX)
  /-- `none` where the recording does not end. -/
  jit_trace : ProcessorBase xl σ → Option (ProcessorBase xl σ)

namespace Calls
variable {xl : Xlen} {σ ι : Type} (p : Calls xl σ ι)

/-- `jit_audit`, which leaves the registers to the interpreter. -/
def jit_audit (dec : ι) (pc_offset : xl.UX) : Act xl σ Unit := do
  match ← p.inst_exec dec pc_offset with
  | some new_offset => retire new_offset
  | none =>
    match ← p.inst_priv dec pc_offset with
    | some new_offset => retire new_offset
    | none => raise rv_cause_illegal_instruction (← get).pc

/-- The body of the loop from `inst_fetch` on. -/
def inst : Act xl σ Unit := do
  let (dec, pc_offset) ← p.inst_fetch
  if p.log_jit_audit (← get) then p.jit_audit dec pc_offset
  else
    match ← p.inst_exec dec pc_offset with
    | some new_offset => retire new_offset
    | none =>
      match ← p.inst_fence_i dec pc_offset with
      | some new_offset => retire new_offset
      | none =>
        match ← p.inst_priv dec pc_offset with
        | some new_offset => retire new_offset
        | none => raise rv_cause_illegal_instruction (← get).pc

def interpret (s : ProcessorBase xl σ) (n : ℕ) : Conf xl σ ⊕ (ExitCause × ProcessorBase xl σ) :=
  if s.pc = s.breakpoint ∧ s.breakpoint ≠ 0 then .inr (.exit_cause_cli, s)
  else .inl (Emu.Calls.retires p.inst s n)

def turn : Turn xl σ
  | ⟨.head, s, n⟩ =>
    if p.log_jit_trap s then
      match p.jit_exec s with
      | .absent => p.interpret s n
      | .returns s' retired => .inl ⟨.head, s', n + retired⟩
      | .raises cause s' retired => .inl ⟨.caught cause, s', n + retired⟩
      | .forever s' => .inl ⟨.away, s', n⟩
    else p.interpret s n
  | ⟨.caught cause, s, n⟩ =>
    if cause = internal_cause_cli then .inr (.exit_cause_cli, s)
    else if cause = internal_cause_fatal ∨ cause = internal_cause_poweroff then
      .inr (.exit_cause_poweroff, s)
    else if cause = internal_cause_hotspot then
      match p.jit_trace s with
      | some s' => .inr (.exit_cause_continue, s')
      | none => .inl ⟨.away, s, n⟩
    else p.trapReturn cause s n
  | ⟨.away, s, n⟩ => .inl ⟨.away, s, n⟩

end Calls

/-! ## Bounded steps -/

/-- **When a step is bounded.** The counter moves with the instructions, the stop value fits the
registers, and no compiled code runs past it. -/
theorem step_bounded (xl : Xlen) (σ ι : Type) (s : ProcessorBase xl σ) (count : BitVec 64) :
    (∀ p : Emu.Calls xl σ ι, Counted p.isr p.turn s count →
      (Fits s count → Bounded p.isr p.turn s count) ∧
      (Reaches p.isr p.turn s count → (Bounded p.isr p.turn s count ↔ Fits s count))) ∧
    ∀ p : Calls xl σ ι, Counted p.isr p.turn s count →
      (Fits s count → (Bounded p.isr p.turn s count ↔
        Lands p.isr p.turn s count ∧ Returns p.isr p.turn s count)) ∧
      (Lands p.isr p.turn s count → Returns p.isr p.turn s count →
        Reaches p.isr p.turn s count → (Bounded p.isr p.turn s count ↔ Fits s count)) := by
  refine ⟨fun p hcounted => ⟨fun hfits => ?_, fun hreaches => ?_⟩,
    fun p hcounted => ⟨?_, ?_⟩⟩
  · exact (hcounted.bounded_iff_lands hfits).mpr ⟨Emu.Calls.lands, Emu.Calls.returns⟩
  · exact hcounted.bounded_iff_fits Emu.Calls.lands Emu.Calls.returns hreaches
  · exact hcounted.bounded_iff_lands
  · exact hcounted.bounded_iff_fits

/-! ## Instructions without effect -/

/-- A processor whose instructions do nothing. -/
def nops (xl : Xlen) : Emu.Calls xl Unit Unit where
  isr := id
  inst_fetch := pure ((), 4)
  checkpoint_fetch _ := pure ()
  inst_exec _ pc_offset := pure (some pc_offset)
  inst_priv _ _ := pure none
  checkpoint_execute _ := pure ()
  trap _ := pure ()

/-- The same processor with a trace of three of them. -/
def threeNops : Calls .rv64 Unit Unit where
  toCalls := nops .rv64
  log_jit_trap _ := true
  log_jit_audit _ := false
  jit_exec s := .returns { s with pc := s.pc + 12, instret := s.instret + 3 } 3
  inst_fence_i _ _ := pure none
  jit_trace s := some s

def startAt (xl : Xlen) (instret : BitVec 64) : ProcessorBase xl Unit := ⟨0, 0, 0, true, instret, ()⟩

theorem nops_counted (xl : Xlen) (s : ProcessorBase xl Unit) (count : BitVec 64) :
    Counted (nops xl).isr (nops xl).turn s count := by
  refine ⟨rfl, fun t t' _ _ hturn => ?_⟩
  obtain ⟨point, s, n⟩ := t
  cases point with
  | head =>
    rw [Emu.Calls.turn] at hturn
    split at hturn
    · cases hturn
    · obtain rfl := Sum.inl.inj hturn
      have hinst : Emu.Calls.retires (nops xl).inst s n =
          ⟨.head, { s with pc := s.pc + 4, instret := s.instret + 1 }, n + 1⟩ := rfl
      rw [hinst]
      show s.instret + 1 + BitVec.ofNat 64 n = s.instret + BitVec.ofNat 64 (n + 1)
      rw [BitVec.ofNat_add, BitVec.add_assoc, BitVec.add_comm 1]
      rfl
  | caught cause =>
    rw [Emu.Calls.turn] at hturn
    split at hturn
    · cases hturn
    · split at hturn
      · cases hturn
      · have htrap : (nops xl).trapReturn cause s n =
            if s.running then .inl ⟨.head, s, n⟩ else .inr (.exit_cause_poweroff, s) := rfl
        rw [htrap] at hturn
        split at hturn
        · obtain rfl := Sum.inl.inj hturn
          rfl
        · cases hturn
  | away =>
    obtain rfl := Sum.inl.inj hturn
    rfl

theorem step_bounded_nops : Bounded (nops .rv32).isr (nops .rv32).turn (startAt .rv32 7) 100000 :=
  (((step_bounded .rv32 Unit Unit (startAt .rv32 7) 100000).1 (nops .rv32)
    (nops_counted _ _ _)).1 (by decide))

/-- A step of one instruction where the low half of the counter overflows, and of two before a trace
of three. -/
theorem stop_missed :
    ¬ Bounded (nops .rv32).isr (nops .rv32).turn (startAt .rv32 0xffffffff) 1 ∧
      ¬ Bounded threeNops.isr threeNops.turn (startAt .rv64 0) 2 := by
  constructor
  · intro h
    have htwo := h.leaves 2
    revert htwo
    decide
  · intro h
    have htwo := h.leaves 2
    revert htwo
    decide

end RvCkpt.Jit
