import Mathlib.Data.Nat.Notation
import Mathlib.Tactic.Common
import Mathlib.Logic.Function.Basic

/-! # The serial port

`uart_mmio_device` (`src/src/emu/device-uart.h`) with the characters of its console. The case of IER
in the load has no `break`, and there is none for SCR while the divisor latch is selected. Only
accesses of one byte are implemented.
-/

namespace RvCkpt.Emu.Uart
set_option autoImplicit false

inductive Register
  | rbr | thr | ier | iir | fcr | lcr | mcr | lsr | msr | scr | dll | dlm
  deriving DecidableEq, Repr

@[simp] def REG_RBR : ℕ := 0
@[simp] def REG_THR : ℕ := 0
@[simp] def REG_DLL : ℕ := 0
@[simp] def REG_IER : ℕ := 1
@[simp] def REG_DLM : ℕ := 1
@[simp] def REG_IIR : ℕ := 2
@[simp] def REG_FCR : ℕ := 2
@[simp] def REG_LCR : ℕ := 3
@[simp] def REG_MCR : ℕ := 4
@[simp] def REG_LSR : ℕ := 5
@[simp] def REG_MSR : ℕ := 6
@[simp] def REG_SCR : ℕ := 7

def IER_MASK : BitVec 8 := 0x0f
def IIR_TX_RDY : BitVec 8 := 0x02
def IIR_RD_LSR : BitVec 8 := 0x06
def LCR_DLAB : BitVec 8 := 0x80
def LSR_DA : BitVec 8 := 0x01
def LSR_RE : BitVec 8 := 0x20
def MSR_DSR : BitVec 8 := 0x20
def MSR_DCD : BitVec 8 := 0x80

/-- The registers, the characters that the console has, and those that were written to it. -/
structure Device where
  com : Register → BitVec 8
  input : List (BitVec 8)
  output : List (BitVec 8)

namespace Device

def init (input : List (BitVec 8)) : Device := ⟨fun _ => 0, input, []⟩

def dlab (s : Device) : Bool := decide (s.com .lcr &&& LCR_DLAB ≠ 0)

def has_char (s : Device) : Bool := !s.input.isEmpty

def setCom (s : Device) (r : Register) (val : BitVec 8) : Device :=
  { s with com := Function.update s.com r val }

/-- The receive buffer takes a character where there is one. -/
def receive (s : Device) : Device :=
  match s.input with
  | [] => s
  | c :: cs => { s.setCom .rbr c with input := cs }

def load_8 (s : Device) (va : ℕ) (val : BitVec 8) : Device × BitVec 8 :=
  if s.dlab then
    if va = REG_DLL then (s, s.com .dll)
    else if va = REG_DLM then (s, s.com .dlm)
    else if va = REG_LCR then (s, s.com .lcr)
    else if va = REG_MCR then (s, s.com .mcr)
    else (s, val)
  else if va = REG_RBR then (s.receive, s.receive.com .rbr)
  -- the value of `com.ier` is overwritten
  else if va = REG_IER ∨ va = REG_IIR then (s, if s.has_char then IIR_RD_LSR else IIR_TX_RDY)
  else if va = REG_LCR then (s, s.com .lcr)
  else if va = REG_MCR then (s, s.com .mcr)
  else if va = REG_LSR then (s, LSR_RE ||| if s.has_char then LSR_DA else 0)
  else if va = REG_MSR then (s, MSR_DCD ||| MSR_DSR)
  else if va = REG_SCR then (s, s.com .scr)
  else (s, 0)

def store_8 (s : Device) (va : ℕ) (val : BitVec 8) : Device :=
  if s.dlab then
    if va = REG_DLL then s.setCom .dll val
    else if va = REG_DLM then s.setCom .dlm val
    else if va = REG_LCR then s.setCom .lcr val
    else if va = REG_MCR then s.setCom .mcr val
    else s
  else if va = REG_THR then { s.setCom .thr val with output := s.output ++ [val] }
  else if va = REG_IER then s.setCom .ier (val &&& IER_MASK)
  else if va = REG_FCR then s
  else if va = REG_LCR then s.setCom .lcr val
  else if va = REG_MCR then s.setCom .mcr val
  else if va = REG_LSR then s
  else if va = REG_MSR then s
  else if va = REG_SCR then s.setCom .scr val
  else s

end Device

/-- A load leaves `val` where it loads nothing. An access of another width is a bus error. -/
inductive Op
  | load_8 (va : ℕ) (val : BitVec 8)
  | store_8 (va : ℕ) (val : BitVec 8)
  | other
  | arrive (c : BitVec 8)

/-- The device after an operation, and the value that a load returns. -/
def Device.step (s : Device) : Op → Device × BitVec 8
  | .load_8 va val => s.load_8 va val
  | .store_8 va val => (s.store_8 va val, 0)
  | .other => (s, 0)
  | .arrive c => ({ s with input := s.input ++ [c] }, 0)

/-! ## The property -/

/-- The register that a load addresses. -/
def loaded (dlab : Bool) : ℕ → Option Register
  | 0 => some (if dlab then .dll else .rbr)
  | 1 => some (if dlab then .dlm else .ier)
  | 2 => some .iir
  | 3 => some .lcr
  | 4 => some .mcr
  | 5 => some .lsr
  | 6 => some .msr
  | 7 => some .scr
  | _ => none

/-- The register that a store addresses. -/
def stored (dlab : Bool) : ℕ → Option Register
  | 0 => some (if dlab then .dll else .thr)
  | 1 => some (if dlab then .dlm else .ier)
  | 2 => some .fcr
  | 3 => some .lcr
  | 4 => some .mcr
  | 5 => some .lsr
  | 6 => some .msr
  | 7 => some .scr
  | _ => none

/-- The registers that read back as they were written. -/
def Register.ReadsBack : Register → Prop
  | .ier | .lcr | .mcr | .scr | .dll | .dlm => True
  | _ => False

/-- The implemented bits of what is written. -/
def Register.implemented (r : Register) (val : BitVec 8) : BitVec 8 :=
  match r with
  | .ier => val &&& IER_MASK
  | _ => val

/-- LCR, which holds the setting, and MCR are one register under either setting. -/
def Register.under (r : Register) (dlab : Bool) : Option Bool :=
  match r with
  | .lcr | .mcr => none
  | _ => some dlab

/-- The last value that was written to a register under a setting. -/
abbrev Written := Register → Option Bool → Option (BitVec 8)

def Written.init : Written := fun _ _ => none

def Written.put (w : Written) (r : Register) (d : Option Bool) (val : BitVec 8) : Written :=
  fun r' d' => if r' = r ∧ d' = d then some val else w r' d'

def Written.after (w : Written) (dlab : Bool) : Op → Written
  | .store_8 va val =>
    match stored dlab va with
    | some r => w.put r (r.under dlab) (r.implemented val)
    | none => w
  | .load_8 _ _ | .other | .arrive _ => w

/-- The register that an operation addresses. -/
def Op.register (dlab : Bool) : Op → Option Register
  | .load_8 va _ => loaded dlab va
  | .store_8 va _ => stored dlab va
  | .other => none
  | .arrive _ => none

/-- The operation has an effect on the console, or comes from it. -/
def Op.OnData (dlab : Bool) : Op → Prop
  | .load_8 va _ => loaded dlab va = some .rbr
  | .store_8 va _ => stored dlab va = some .thr
  | .other => False
  | .arrive _ => True

/-- What a load has to return. -/
def Returns (w : Written) (dlab : Bool) (op : Op) (val : BitVec 8) : Prop :=
  match op with
  | .load_8 va _ =>
    ∀ r, loaded dlab va = some r → r.ReadsBack → ∀ v, w r (r.under dlab) = some v → val = v
  | .store_8 _ _ | .other | .arrive _ => True

structure StepRight (s : Device) (w : Written) (op : Op) : Prop where
  returns : Returns w s.dlab op (s.step op).2
  others : ∀ r, op.register s.dlab ≠ some r → (s.step op).1.com r = s.com r
  console : ¬op.OnData s.dlab → (s.step op).1.input = s.input ∧ (s.step op).1.output = s.output

def Right (s : Device) (w : Written) : List Op → Prop
  | [] => True
  | op :: ops => StepRight s w op ∧ Right (s.step op).1 (w.after s.dlab op) ops

/-- A load of IER finds what the interrupt identity shows, and one of SCR under DLAB is given what it
has to return. -/
def OpMeets (s : Device) (w : Written) : Op → Prop
  | .load_8 va val =>
    (s.dlab = false → va = REG_IER → ∀ v, w .ier (some false) = some v →
      v = if s.has_char then IIR_RD_LSR else IIR_TX_RDY) ∧
    (s.dlab = true → va = REG_SCR → ∀ v, w .scr (some true) = some v → v = val)
  | .store_8 _ _ | .other | .arrive _ => True

def Meets (s : Device) (w : Written) : List Op → Prop
  | [] => True
  | op :: ops => OpMeets s w op ∧ Meets (s.step op).1 (w.after s.dlab op) ops

/-! ## One access -/

/-- The register reads back under the setting. -/
def Register.Selected (dlab : Bool) : Register → Prop
  | .ier => dlab = false
  | .dll | .dlm => dlab = true
  | .lcr | .mcr | .scr => True
  | _ => False

namespace Device
variable {s : Device}

/-- A load, by the register that it addresses. -/
def read (s : Device) (r : Register) (val : BitVec 8) : Device × BitVec 8 :=
  match r with
  | .rbr => (s.receive, s.receive.com .rbr)
  | .ier => (s, if s.has_char then IIR_RD_LSR else IIR_TX_RDY)
  | .iir => (s, if s.dlab then val else if s.has_char then IIR_RD_LSR else IIR_TX_RDY)
  | .lcr | .mcr | .dll | .dlm => (s, s.com r)
  | .lsr => (s, if s.dlab then val else LSR_RE ||| if s.has_char then LSR_DA else 0)
  | .msr => (s, if s.dlab then val else MSR_DCD ||| MSR_DSR)
  | .scr => (s, if s.dlab then val else s.com .scr)
  | .thr | .fcr => (s, val)

/-- A store, by the register that it addresses. -/
def write (s : Device) (r : Register) (val : BitVec 8) : Device :=
  match r with
  | .thr => { s.setCom .thr val with output := s.output ++ [val] }
  | .ier | .lcr | .mcr | .dll | .dlm => s.setCom r (r.implemented val)
  | .scr => if s.dlab then s else s.setCom .scr val
  | .rbr | .iir | .fcr | .lsr | .msr => s

theorem load_eq (va : ℕ) (val : BitVec 8) :
    s.load_8 va val = match loaded s.dlab va with
      | some r => s.read r val
      | none => (s, if s.dlab then val else 0) := by
  rw [load_8]
  cases hd : s.dlab <;> rcases va with _ | _ | _ | _ | _ | _ | _ | _ | va <;>
    simp [loaded, read, hd]

theorem store_eq (va : ℕ) (val : BitVec 8) :
    s.store_8 va val = match stored s.dlab va with
      | some r => s.write r val
      | none => s := by
  rw [store_8]
  cases hd : s.dlab <;> rcases va with _ | _ | _ | _ | _ | _ | _ | _ | va <;>
    simp [stored, write, hd, Register.implemented]

theorem receive_com {r : Register} (hr : r ≠ .rbr) : s.receive.com r = s.com r := by
  rw [receive]
  split
  · rfl
  · exact Function.update_of_ne hr _ _

theorem read_state {r : Register} (hr : r ≠ .rbr) (val : BitVec 8) : (s.read r val).1 = s := by
  cases r
  case rbr => exact absurd rfl hr
  all_goals rfl

theorem write_com {r r' : Register} (hr : r' ≠ r) (val : BitVec 8) :
    (s.write r val).com r' = s.com r' := by
  cases r
  case scr =>
    rw [write]
    split_ifs
    · rfl
    · exact Function.update_of_ne hr _ _
  all_goals first | rfl | exact Function.update_of_ne hr _ _

theorem setCom_same (r : Register) (val : BitVec 8) : (s.setCom r val).com r = val := by
  simp [setCom]

theorem write_same {r : Register} (hr : r.Selected s.dlab) (hscr : ¬(r = .scr ∧ s.dlab = true))
    (val : BitVec 8) : (s.write r val).com r = r.implemented val := by
  cases r with
  | rbr | thr | iir | fcr | lsr | msr => exact hr.elim
  | scr =>
    rw [write, if_neg fun h => hscr ⟨rfl, h⟩]
    exact setCom_same _ _
  | ier | lcr | mcr | dll | dlm => exact setCom_same _ _

theorem write_console {r : Register} (hr : r ≠ .thr) (val : BitVec 8) :
    (s.write r val).input = s.input ∧ (s.write r val).output = s.output := by
  cases r
  case thr => exact absurd rfl hr
  case scr =>
    rw [write]
    split_ifs <;> exact ⟨rfl, rfl⟩
  all_goals exact ⟨rfl, rfl⟩

end Device

/-- No operation changes a register that it does not address. -/
theorem step_others {s : Device} {op : Op} {r : Register} (h : op.register s.dlab ≠ some r) :
    (s.step op).1.com r = s.com r := by
  cases op with
  | load_8 va val =>
    rw [Op.register] at h
    rw [Device.step, Device.load_eq]
    cases hload : loaded s.dlab va with
    | none => rfl
    | some r' =>
      rw [hload] at h
      have hne : r ≠ r' := fun heq => h (congrArg some heq.symm)
      by_cases hrbr : r' = .rbr
      · rw [hrbr] at hne ⊢
        exact Device.receive_com hne
      · simp only [Device.read_state hrbr]
  | store_8 va val =>
    rw [Op.register] at h
    simp only [Device.step, Device.store_eq]
    cases hstore : stored s.dlab va with
    | none => rfl
    | some r' =>
      rw [hstore] at h
      exact Device.write_com (fun heq => h (congrArg some heq.symm)) val
  | other => rfl
  | arrive c => rfl

theorem step_console {s : Device} {op : Op} (h : ¬op.OnData s.dlab) :
    (s.step op).1.input = s.input ∧ (s.step op).1.output = s.output := by
  cases op with
  | load_8 va val =>
    rw [Op.OnData] at h
    rw [Device.step, Device.load_eq]
    cases hload : loaded s.dlab va with
    | none => exact ⟨rfl, rfl⟩
    | some r =>
      rw [hload] at h
      simp only [Device.read_state fun heq => h (congrArg some heq), and_self]
  | store_8 va val =>
    rw [Op.OnData] at h
    simp only [Device.step, Device.store_eq]
    cases hstore : stored s.dlab va with
    | none => exact ⟨rfl, rfl⟩
    | some r =>
      rw [hstore] at h
      exact Device.write_console (fun heq => h (congrArg some heq)) val
  | other => exact ⟨rfl, rfl⟩
  | arrive c => exact absurd trivial h

/-! ## What is written -/

theorem selected_of_loaded {dlab : Bool} {va : ℕ} {r : Register} (h : loaded dlab va = some r)
    (hback : r.ReadsBack) : r.Selected dlab := by
  cases dlab <;> rcases va with _ | _ | _ | _ | _ | _ | _ | _ | va <;> cases h <;>
    first | rfl | exact hback

theorem loaded_ier {dlab : Bool} {va : ℕ} (h : loaded dlab va = some .ier) : va = REG_IER := by
  cases dlab <;> rcases va with _ | _ | _ | _ | _ | _ | _ | _ | va <;> cases h
  rfl

theorem loaded_scr {dlab : Bool} {va : ℕ} (h : loaded dlab va = some .scr) : va = REG_SCR := by
  cases dlab <;> rcases va with _ | _ | _ | _ | _ | _ | _ | _ | va <;> cases h <;> rfl

theorem stored_ier {dlab : Bool} {va : ℕ} (h : stored dlab va = some .ier) : dlab = false := by
  cases dlab <;> rcases va with _ | _ | _ | _ | _ | _ | _ | _ | va <;> cases h
  rfl

theorem stored_dll {dlab : Bool} {va : ℕ} (h : stored dlab va = some .dll) : dlab = true := by
  cases dlab <;> rcases va with _ | _ | _ | _ | _ | _ | _ | _ | va <;> cases h
  rfl

theorem stored_dlm {dlab : Bool} {va : ℕ} (h : stored dlab va = some .dlm) : dlab = true := by
  cases dlab <;> rcases va with _ | _ | _ | _ | _ | _ | _ | _ | va <;> cases h
  rfl

/-- What was written is in the register, except to SCR under DLAB. -/
def Inv (s : Device) (w : Written) : Prop :=
  ∀ dlab r, Register.Selected dlab r → ∀ v, w r (r.under dlab) = some v →
    r = .scr ∧ dlab = true ∨ s.com r = v

theorem Inv.init (input : List (BitVec 8)) : Inv (.init input) .init :=
  fun _ _ _ _ h => nomatch h

section
variable {s s' : Device} {w : Written}

theorem Inv.congr (h : Inv s w) (hcom : ∀ r, r ≠ .rbr → s'.com r = s.com r) : Inv s' w := by
  intro dlab r hr v hv
  have hne : r ≠ .rbr := by
    rintro rfl
    exact hr
  rw [hcom r hne]
  exact h dlab r hr v hv

/-- A store under a setting puts the value where it is read back under that setting. -/
theorem Inv.write (h : Inv s w) {va : ℕ} {r : Register} (hstore : stored s.dlab va = some r)
    (val : BitVec 8) :
    Inv (s.write r val) (w.put r (r.under s.dlab) (r.implemented val)) := by
  intro dlab r' hr' v hv
  rw [Written.put] at hv
  by_cases hr : r' = r
  · subst hr
    by_cases hd : dlab = s.dlab
    · rw [if_pos ⟨rfl, by rw [hd]⟩, Option.some_inj] at hv
      rw [hd] at hr' ⊢
      by_cases hscr : r' = .scr ∧ s.dlab = true
      · exact .inl hscr
      · exact .inr ((Device.write_same hr' hscr val).trans hv)
    · -- the two settings share LCR and MCR only
      cases r' with
      | rbr | thr | iir | fcr | lsr | msr => exact hr'.elim
      | ier => exact absurd (hr'.trans (stored_ier hstore).symm) hd
      | dll => exact absurd (hr'.trans (stored_dll hstore).symm) hd
      | dlm => exact absurd (hr'.trans (stored_dlm hstore).symm) hd
      | lcr =>
        rw [if_pos ⟨rfl, rfl⟩, Option.some_inj] at hv
        exact .inr ((Device.write_same (r := .lcr) trivial (fun heq => nomatch heq.1) val).trans hv)
      | mcr =>
        rw [if_pos ⟨rfl, rfl⟩, Option.some_inj] at hv
        exact .inr ((Device.write_same (r := .mcr) trivial (fun heq => nomatch heq.1) val).trans hv)
      | scr =>
        rw [if_neg fun heq => hd (Option.some_inj.mp heq.2)] at hv
        cases dlab with
        | true => exact .inl ⟨rfl, rfl⟩
        | false =>
          have hdlab : s.dlab = true := by
            cases h' : s.dlab with
            | true => rfl
            | false => exact absurd h'.symm hd
          rw [Device.write, if_pos hdlab]
          exact h false .scr trivial v hv
  · rw [if_neg fun heq => hr heq.1] at hv
    rw [Device.write_com hr]
    exact h dlab r' hr' v hv

theorem Inv.step (h : Inv s w) (op : Op) : Inv (s.step op).1 (w.after s.dlab op) := by
  cases op with
  | load_8 va val =>
    refine h.congr fun r hr => ?_
    rw [Device.step, Device.load_eq]
    cases hload : loaded s.dlab va with
    | none => rfl
    | some r' =>
      by_cases hrbr : r' = .rbr
      · rw [hrbr]
        exact Device.receive_com hr
      · simp only [Device.read_state hrbr]
  | store_8 va val =>
    simp only [Device.step, Device.store_eq, Written.after]
    cases hstore : stored s.dlab va with
    | none => exact h
    | some r => exact h.write hstore val
  | other => exact h
  | arrive c => exact h.congr fun _ _ => rfl

/-- A load returns what it has to exactly where the operation meets the condition. -/
theorem Inv.returns_iff (h : Inv s w) (op : Op) :
    Returns w s.dlab op (s.step op).2 ↔ OpMeets s w op := by
  cases op with
  | load_8 va val =>
    rw [Returns, OpMeets, Device.step, Device.load_eq]
    constructor
    · intro hreturns
      refine ⟨fun hdlab hva v hv => ?_, fun hdlab hva v hv => ?_⟩
      · rw [hva, hdlab] at hreturns
        exact (hreturns .ier rfl trivial v hv).symm
      · rw [hva, hdlab] at hreturns
        have hval := hreturns .scr rfl trivial v hv
        simp only [loaded, Device.read, hdlab, if_true] at hval
        exact hval.symm
    · rintro ⟨hier, hscr⟩ r hload hback v hv
      have hselected := selected_of_loaded hload hback
      simp only [hload]
      cases r with
      | rbr | thr | iir | fcr | lsr | msr => exact hback.elim
      | ier => exact (hier hselected (loaded_ier hload) v (by rw [← hv, hselected]; rfl)).symm
      | scr =>
        simp only [Device.read]
        split_ifs with hdlab
        · exact (hscr hdlab (loaded_scr hload) v (by rw [← hv, hdlab]; rfl)).symm
        · exact (h s.dlab .scr hselected v hv).resolve_left fun heq => hdlab heq.2
      | lcr | mcr | dll | dlm =>
        exact (h s.dlab _ hselected v hv).resolve_left fun heq => nomatch heq.1
  | store_8 va val => exact Iff.rfl
  | other => exact Iff.rfl
  | arrive c => exact Iff.rfl

end

/-! ## Runs -/

theorem Inv.stepRight_iff {s : Device} {w : Written} (h : Inv s w) (op : Op) :
    StepRight s w op ↔ OpMeets s w op := by
  rw [← h.returns_iff op]
  exact ⟨fun hright => hright.returns, fun hreturns =>
    ⟨hreturns, fun _ hr => step_others hr, fun hdata => step_console hdata⟩⟩

theorem Inv.run_iff {s : Device} {w : Written} (h : Inv s w) (ops : List Op) :
    Right s w ops ↔ Meets s w ops := by
  induction ops generalizing s w with
  | nil => exact Iff.rfl
  | cons op ops ih =>
    rw [Right, Meets, h.stepRight_iff op, ih (h.step op)]

/-- Any operations on the device as it is constructed, whatever the console has. -/
theorem registers_right_iff (input : List (BitVec 8)) (ops : List Op) :
    Right (.init input) .init ops ↔ Meets (.init input) .init ops :=
  (Inv.init input).run_iff ops

/-- IER is written with 1, and reads as 2. -/
theorem ierRead_not_right :
    ¬∀ (input : List (BitVec 8)) (ops : List Op), Right (.init input) .init ops := by
  intro hall
  have hright := hall [] [.store_8 REG_IER 1, .load_8 REG_IER 0]
  have hvalue := hright.2.1.returns .ier rfl trivial 1 rfl
  exact absurd hvalue (by decide)

end RvCkpt.Emu.Uart
