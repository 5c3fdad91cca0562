import RvCkpt.Lib.WhileLoop
import RvCkpt.Priv.Hart

/-! # The run loop

`step` of `src/src/emu/processor-runloop.h`. Fetching, executing and trapping are parameters; what
they raise goes to `setjmp`, with the state as it was left.
-/

namespace RvCkpt.Emu
open Priv WhileLoop
set_option autoImplicit false

/-! ## Processors -/

/-- `exit_cause` -/
inductive ExitCause where
  | exit_cause_continue | exit_cause_cli | exit_cause_poweroff
  deriving DecidableEq, Repr

/-- The fields of `processor_base` that the run loop uses, and the rest of the processor. -/
structure ProcessorBase (xl : Xlen) (σ : Type) where
  pc : xl.UX
  badaddr : xl.UX
  breakpoint : xl.UX
  running : Bool
  instret : BitVec 64
  rest : σ
  deriving DecidableEq

/-- Code that may raise a cause. -/
abbrev Act (xl : Xlen) (σ α : Type) := EStateM ℤ (ProcessorBase xl σ) α

def internal_cause_cli : ℤ := 0x1001

def internal_cause_poweroff : ℤ := 0x1002

def internal_cause_fatal : ℤ := 0x1003

def rv_cause_illegal_instruction : ℤ := 2

section
variable {xl : Xlen} {σ ι : Type}

/-- `raise` with `exceptions` set. -/
def raise {α : Type} (ex_cause : ℤ) (ex_addr : xl.UX) : Act xl σ α := do
  modify fun s => { s with badaddr := ex_addr }
  throw ex_cause

def retire (new_offset : xl.UX) : Act xl σ Unit :=
  modify fun s => { s with pc := s.pc + new_offset, instret := s.instret + 1 }

end

/-- What the run loop calls; `none` stands for the offset -1. -/
structure Calls (xl : Xlen) (σ ι : Type) where
  isr : ProcessorBase xl σ → ProcessorBase xl σ
  /-- `inst_fetch` and the decoder behind its cache. -/
  inst_fetch : Act xl σ (ι × xl.UX)
  checkpoint_fetch : ι → Act xl σ Unit
  inst_exec : ι → xl.UX → Act xl σ (Option xl.UX)
  inst_priv : ι → xl.UX → Act xl σ (Option xl.UX)
  checkpoint_execute : ι → Act xl σ Unit
  trap : ℤ → Act xl σ Unit

/-! ## Turns of the loop -/

inductive Point where
  /-- Before the test of the loop. -/
  | head
  /-- `setjmp` has returned this cause. -/
  | caught (cause : ℤ)
  /-- Code was called that never returns. -/
  | away
  deriving DecidableEq

/-- Where the loop is, and how many instructions have retired since `step` was called. -/
structure Conf (xl : Xlen) (σ : Type) where
  point : Point
  s : ProcessorBase xl σ
  retired : ℕ
  deriving DecidableEq

abbrev Turn (xl : Xlen) (σ : Type) := Conf xl σ → Conf xl σ ⊕ (ExitCause × ProcessorBase xl σ)

namespace Calls
variable {xl : Xlen} {σ ι : Type} (p : Calls xl σ ι)

/-- The body of the loop from `inst_fetch` on. -/
def inst : Act xl σ Unit := do
  let (dec, pc_offset) ← p.inst_fetch
  p.checkpoint_fetch dec
  match ← p.inst_exec dec pc_offset with
  | some new_offset => do
    p.checkpoint_execute dec
    retire new_offset
  | none =>
    match ← p.inst_priv dec pc_offset with
    | some new_offset => do
      p.checkpoint_execute dec
      retire new_offset
    | none => raise rv_cause_illegal_instruction (← get).pc

/-- Code that retires an instruction unless it raises. -/
def retires (a : Act xl σ Unit) (s : ProcessorBase xl σ) (retired : ℕ) : Conf xl σ :=
  match a s with
  | .ok _ s' => ⟨.head, s', retired + 1⟩
  | .error cause s' => ⟨.caught cause, s', retired⟩

/-- The trap return path, without the internal causes. -/
def trapReturn (cause : ℤ) (s : ProcessorBase xl σ) (retired : ℕ) :
    Conf xl σ ⊕ (ExitCause × ProcessorBase xl σ) :=
  match p.trap cause s with
  | .ok _ s' => if s'.running then .inl ⟨.head, s', retired⟩ else .inr (.exit_cause_poweroff, s')
  | .error cause' s' => .inl ⟨.caught cause', s', retired⟩

def turn : Turn xl σ
  | ⟨.head, s, n⟩ =>
    if s.pc = s.breakpoint ∧ s.breakpoint ≠ 0 then .inr (.exit_cause_cli, s)
    else .inl (retires p.inst s n)
  | ⟨.caught cause, s, n⟩ =>
    if cause = internal_cause_cli then .inr (.exit_cause_cli, s)
    else if cause = internal_cause_fatal ∨ cause = internal_cause_poweroff then
      .inr (.exit_cause_poweroff, s)
    else p.trapReturn cause s n
  | ⟨.away, s, n⟩ => .inl ⟨.away, s, n⟩

end Calls

/-! ## The loop -/

section
variable {xl : Xlen} {σ : Type}

def inststop (s : ProcessorBase xl σ) (count : BitVec 64) : xl.UX := (s.instret + count).setWidth _

/-- `!(instret != inststop)` -/
def stops (stop : xl.UX) (c : Conf xl σ) : Bool :=
  decide (c.point = .head ∧ c.s.instret = stop.setWidth 64)

/-- `step`, after so many tests. The result is the state where the test ended the loop, or what the
code in the loop returned. -/
def step (isr : ProcessorBase xl σ → ProcessorBase xl σ) (turn : Turn xl σ)
    (s : ProcessorBase xl σ) (count : BitVec 64) (tests : ℕ) :
    Option (Conf xl σ ⊕ (ExitCause × ProcessorBase xl σ)) :=
  loop (stops (inststop s count)) turn tests ⟨.head, isr s, 0⟩

/-! ## Bounded steps -/

/-- At the head of the loop as many instructions have retired as were asked for. -/
def due (count : BitVec 64) (c : Conf xl σ) : Bool :=
  decide (c.point = .head ∧ count.toNat ≤ c.retired)

variable (isr : ProcessorBase xl σ → ProcessorBase xl σ) (turn : Turn xl σ)
  (s : ProcessorBase xl σ) (count : BitVec 64)

/-- The states of a loop that is left as soon as the instructions have retired. -/
abbrev Due (t : Conf xl σ) : Prop := Tested (due count) turn ⟨.head, isr s, 0⟩ t

/-- The loop is left as soon as the instructions have retired, and it gets there or the code in it
returns or traps. -/
structure Bounded : Prop where
  leaves : ∀ tests, step isr turn s count tests =
    loop (due count) turn tests ⟨.head, isr s, 0⟩
  returns : ∀ t, Due isr turn s count t → t.point ≠ .away

/-- Until then the counter has moved by the instructions that retired. -/
structure Counted : Prop where
  entered : (isr s).instret = s.instret
  moves : ∀ t t', Due isr turn s count t → due count t = false → turn t = .inl t' →
    t'.s.instret + BitVec.ofNat 64 t.retired = t.s.instret + BitVec.ofNat 64 t'.retired

/-- The stop value is a number of the width of the registers. -/
def Fits : Prop := (s.instret + count).toNat < 2 ^ xl.width

instance : Decidable (Fits s count) := inferInstanceAs (Decidable (_ < _))

/-- The instructions that were asked for are due after exactly their number (up to a whole turn of
the counter). -/
def Lands : Prop :=
  ∀ t, Due isr turn s count t → due count t = true → t.retired % 2 ^ 64 = count.toNat

/-- All code that is called until then returns. -/
def Returns : Prop := ∀ t, Due isr turn s count t → t.point ≠ .away

/-- The instructions that were asked for retire. -/
def Reaches : Prop := ∃ t, Due isr turn s count t ∧ due count t = true

variable {isr turn s count} {t : Conf xl σ}

theorem due_iff : due count t = true ↔ t.point = .head ∧ count.toNat ≤ t.retired :=
  decide_eq_true_iff

theorem Counted.instret (h : Counted isr turn s count) (ht : Due isr turn s count t) :
    t.s.instret = s.instret + BitVec.ofNat 64 t.retired := by
  induction ht with
  | start =>
    rw [h.entered]
    exact (BitVec.add_zero _).symm
  | turn ht hdue hturn ih =>
    have hmoves := h.moves _ _ ht hdue hturn
    rw [ih, BitVec.add_assoc, BitVec.add_comm (BitVec.ofNat 64 _) (BitVec.ofNat 64 _),
      ← BitVec.add_assoc] at hmoves
    exact (BitVec.add_left_inj _).mp hmoves

/-- On 64 bits every stop value fits. -/
theorem fits_rv64 (s : ProcessorBase .rv64 σ) (count : BitVec 64) : Fits s count :=
  (s.instret + count).isLt

theorem setWidth_inststop : (inststop s count).setWidth 64 = s.instret + count ↔ Fits s count := by
  have hwidth : xl.width ≤ 64 := by cases xl <;> decide
  have hpow : 2 ^ xl.width ≤ 2 ^ 64 := Nat.pow_le_pow_right (by decide) hwidth
  rw [← BitVec.toNat_inj, inststop, BitVec.toNat_setWidth, BitVec.toNat_setWidth]
  have hlt : (s.instret + count).toNat % 2 ^ xl.width < 2 ^ xl.width :=
    Nat.mod_lt _ (Nat.two_pow_pos _)
  rw [Nat.mod_eq_of_lt (Nat.lt_of_lt_of_le hlt hpow)]
  constructor
  · intro h
    rw [h] at hlt
    exact hlt
  · exact Nat.mod_eq_of_lt

/-- At the head the stop value is met where the counter has moved by the number that was asked
for. -/
theorem Counted.stops_iff (h : Counted isr turn s count) (hfits : Fits s count)
    (ht : Due isr turn s count t) :
    stops (inststop s count) t = true ↔
      t.point = .head ∧ t.retired % 2 ^ 64 = count.toNat := by
  rw [stops, decide_eq_true_iff, setWidth_inststop.mpr hfits, h.instret ht, BitVec.add_right_inj,
    ← BitVec.toNat_inj, BitVec.toNat_ofNat]

theorem bounded_iff_agree :
    Bounded isr turn s count ↔
      (∀ t, Due isr turn s count t → stops (inststop s count) t = due count t) ∧
        Returns isr turn s count := by
  constructor
  · exact fun h => ⟨loop_eq_iff.mp h.leaves, h.returns⟩
  · exact fun h => ⟨loop_eq_iff.mpr h.1, h.2⟩

/-- Where the stop value fits, no code may carry the counter past it. -/
theorem Counted.bounded_iff_lands (h : Counted isr turn s count) (hfits : Fits s count) :
    Bounded isr turn s count ↔ Lands isr turn s count ∧ Returns isr turn s count := by
  rw [bounded_iff_agree]
  refine and_congr_left fun _ => ⟨fun hagree t ht hdue => ?_, fun hlands t ht => ?_⟩
  · have hstops := (hagree t ht).trans hdue
    exact ((h.stops_iff hfits ht).mp hstops).2
  · rw [Bool.eq_iff_iff, h.stops_iff hfits ht]
    constructor
    · rintro ⟨hhead, hret⟩
      exact due_iff.mpr ⟨hhead, hret ▸ Nat.mod_le _ _⟩
    · intro hdue
      exact ⟨(due_iff.mp hdue).1, hlands t ht hdue⟩

/-- Where the number is met exactly, the stop value has to fit. -/
theorem Counted.bounded_iff_fits (h : Counted isr turn s count) (hlands : Lands isr turn s count)
    (hreturns : Returns isr turn s count) (hreaches : Reaches isr turn s count) :
    Bounded isr turn s count ↔ Fits s count := by
  constructor
  · intro hbounded
    obtain ⟨t, ht, hdue⟩ := hreaches
    have hstops := ((bounded_iff_agree.mp hbounded).1 t ht).trans hdue
    obtain ⟨-, hstop⟩ := decide_eq_true_iff.mp hstops
    have hret : BitVec.ofNat 64 t.retired = count := by
      rw [← BitVec.toNat_inj, BitVec.toNat_ofNat]
      exact hlands t ht hdue
    rw [h.instret ht, hret] at hstop
    exact setWidth_inststop.mp hstop.symm
  · exact fun hfits => (h.bounded_iff_lands hfits).mpr ⟨hlands, hreturns⟩

end

/-! ## The interpreter -/

section
variable {xl : Xlen} {σ ι : Type} {p : Calls xl σ ι} {isr : ProcessorBase xl σ → ProcessorBase xl σ}
  {s : ProcessorBase xl σ} {count : BitVec 64} {t t' : Conf xl σ}

theorem Calls.retires_cases (a : Act xl σ Unit) (s : ProcessorBase xl σ) (n : ℕ) :
    (∃ s', Calls.retires a s n = ⟨.head, s', n + 1⟩) ∨
      ∃ cause s', Calls.retires a s n = ⟨.caught cause, s', n⟩ := by
  unfold retires
  cases a s with
  | ok _ s' => exact .inl ⟨s', rfl⟩
  | error cause s' => exact .inr ⟨cause, s', rfl⟩

theorem Calls.trapReturn_inl {cause : ℤ} {n : ℕ} (h : p.trapReturn cause s n = .inl t') :
    t'.retired = n ∧ t'.point ≠ .away := by
  unfold trapReturn at h
  cases htrap : p.trap cause s with
  | ok _ s' =>
    simp only [htrap] at h
    split at h
    · obtain rfl := Sum.inl.inj h
      exact ⟨rfl, Point.noConfusion⟩
    · cases h
  | error cause' s' =>
    simp only [htrap] at h
    obtain rfl := Sum.inl.inj h
    exact ⟨rfl, Point.noConfusion⟩

/-- A turn of the loop retires one instruction, at its end, or none. -/
theorem Calls.turn_inl (h : p.turn t = .inl t') (ht : t.point ≠ .away) :
    t'.point ≠ .away ∧
      (t'.retired = t.retired ∨ t.point = .head ∧ t'.point = .head ∧
        t'.retired = t.retired + 1) := by
  obtain ⟨point, s, n⟩ := t
  cases point with
  | head =>
    rw [turn] at h
    split at h
    · cases h
    · obtain rfl := Sum.inl.inj h
      rcases retires_cases p.inst s n with ⟨s', hret⟩ | ⟨cause, s', hret⟩
      · rw [hret]
        exact ⟨Point.noConfusion, .inr ⟨rfl, rfl, rfl⟩⟩
      · rw [hret]
        exact ⟨Point.noConfusion, .inl rfl⟩
  | caught cause =>
    rw [turn] at h
    split at h
    · cases h
    · split at h
      · cases h
      · obtain ⟨hret, hpoint⟩ := trapReturn_inl h
        exact ⟨hpoint, .inl hret⟩
  | away => exact absurd rfl ht

/-- One instruction at a time never carries the loop past the number. -/
theorem Calls.due_retired (ht : Due isr p.turn s count t) :
    t.point ≠ .away ∧ t.retired ≤ count.toNat ∧ (t.point ≠ .head → t.retired < count.toNat) := by
  induction ht with
  | start => exact ⟨Point.noConfusion, Nat.zero_le _, fun h => absurd rfl h⟩
  | @turn t t' _ hdue hturn ih =>
    obtain ⟨haway, hle, hlt⟩ := ih
    have hbefore : t.retired < count.toNat := by
      by_cases hhead : t.point = .head
      · by_contra hge
        rw [due_iff.mpr ⟨hhead, Nat.le_of_not_lt hge⟩] at hdue
        cases hdue
      · exact hlt hhead
    obtain ⟨haway', hret | ⟨-, hhead', hret⟩⟩ := Calls.turn_inl hturn haway
    · exact ⟨haway', by omega, fun _ => by omega⟩
    · exact ⟨haway', by omega, fun h => absurd hhead' h⟩

theorem Calls.lands : Lands isr p.turn s count := by
  intro t ht hdue
  have hret : t.retired = count.toNat :=
    Nat.le_antisymm (Calls.due_retired ht).2.1 (due_iff.mp hdue).2
  rw [hret]
  exact Nat.mod_eq_of_lt count.isLt

theorem Calls.returns : Returns isr p.turn s count := fun _ ht => (Calls.due_retired ht).1

end

end RvCkpt.Emu
