import RvCkpt.Isa.Alu
import Mathlib.Data.BitVec

/-! # The interrupt controller

`plic_mmio_device` (`src/src/emu/device-plic.h`). Its two registers have 32 bits, and a claim leaves
the pending bit as it is. There is no enable register: every source is enabled.
-/

namespace RvCkpt.Emu.Plic
open Isa
set_option autoImplicit false

def NUM_IRQS : ℕ := 64

structure Registers where
  pending : BitVec 32
  served : BitVec 32
  deriving DecidableEq

def Registers.init : Registers := ⟨0, 0⟩

/-- `1 << irq` -/
def irqBit (so : ShiftOver) (irq : ℕ) : BitVec 32 := shift so .left 1#32 irq

namespace Registers

def set_irq (so : ShiftOver) (s : Registers) (irq : ℕ) (val : BitVec 32) : Registers :=
  if val ≠ 0 then { s with pending := s.pending ||| irqBit so irq }
  else { s with pending := s.pending &&& ~~~irqBit so irq }

def mask (s : Registers) : BitVec 32 := s.pending &&& ~~~s.served

def irq_pending (s : Registers) : Bool := decide (0 < s.mask)

/-- What a load from the claim register does, and the value that it loads. -/
def claim (so : ShiftOver) (s : Registers) : Registers × ℕ :=
  if s.mask ≠ 0 then
    let i := s.mask.ctz.toNat
    ({ s with served := s.served ||| irqBit so i }, i + 1)
  else (s, 0)

/-- What a store to the claim register does. -/
def complete (so : ShiftOver) {w : ℕ} (s : Registers) (val : BitVec w) : Registers :=
  let val := val - 1
  if val.toNat < 32 then { s with served := s.served &&& ~~~irqBit so val.toNat } else s

def load_32 (so : ShiftOver) (s : Registers) (va : ℕ) : Registers × ℕ :=
  if va = 4 then s.claim so else (s, 0)

def load_64 (so : ShiftOver) (s : Registers) (va : ℕ) : Registers × ℕ :=
  if va = 0 then s.claim so else (s, 0)

def store_32 (so : ShiftOver) (s : Registers) (va : ℕ) (val : BitVec 32) : Registers :=
  if va = 4 then s.complete so val else s

def store_64 (so : ShiftOver) (s : Registers) (va : ℕ) (val : BitVec 64) : Registers :=
  if va = 0 then s.complete so val else s

/-- What the controller keeps of a source. -/
def source (s : Registers) (i : ℕ) : Bool × Bool := (s.pending.getLsbD i, s.served.getLsbD i)

end Registers

inductive Op
  | set_irq (irq : ℕ) (val : BitVec 32)
  | load_32 (va : ℕ)
  | load_64 (va : ℕ)
  | store_32 (va : ℕ) (val : BitVec 32)
  | store_64 (va : ℕ) (val : BitVec 64)

/-- The registers after an operation, and the value that a load returns. -/
def Registers.step (so : ShiftOver) (s : Registers) : Op → Registers × ℕ
  | .set_irq irq val => (s.set_irq so irq val, 0)
  | .load_32 va => s.load_32 so va
  | .load_64 va => s.load_64 so va
  | .store_32 va val => (s.store_32 so va val, 0)
  | .store_64 va val => (s.store_64 so va val, 0)

/-! ## The property -/

/-- What an operation is for. -/
inductive Action
  | raise (i : ℕ)
  | lower (i : ℕ)
  | claim
  | complete (i : ℕ)
  | nothing

/-- The number that is written to the claim register is that of the source and one. -/
def completion {w : ℕ} (val : BitVec w) : Action :=
  if val = 0 then .nothing else .complete (val.toNat - 1)

def Op.action : Op → Action
  | .set_irq irq val => if val ≠ 0 then .raise irq else .lower irq
  | .load_32 va => if va = 4 then .claim else .nothing
  | .load_64 va => if va = 0 then .claim else .nothing
  | .store_32 va val => if va = 4 then completion val else .nothing
  | .store_64 va val => if va = 0 then completion val else .nothing

/-- The interrupts that were raised and neither claimed nor lowered since, and the sources that were
claimed and not completed since. -/
structure Lines where
  raised : ℕ → Bool
  serving : ℕ → Bool

namespace Lines

def init : Lines := ⟨fun _ => false, fun _ => false⟩

/-- A claim returned `r`. -/
def claimed (l : Lines) : ℕ → Lines
  | 0 => l
  | i + 1 => ⟨Function.update l.raised i false, Function.update l.serving i true⟩

def after (l : Lines) (a : Action) (r : ℕ) : Lines :=
  match a with
  | .raise i => { l with raised := Function.update l.raised i true }
  | .lower i => { l with raised := Function.update l.raised i false }
  | .claim => l.claimed r
  | .complete i => { l with serving := Function.update l.serving i false }
  | .nothing => l

def Claimable (l : Lines) (i : ℕ) : Prop := l.raised i = true ∧ l.serving i = false

/-- What a claim has to return: the lowest claimable source and one, or 0. -/
def Claims (l : Lines) : ℕ → Prop
  | 0 => ∀ i, ¬l.Claimable i
  | i + 1 => l.Claimable i ∧ ∀ j < i, ¬l.Claimable j

end Lines

/-- The source that an operation may change. -/
def Action.Concerns (a : Action) (r i : ℕ) : Prop :=
  match a with
  | .raise j => i = j
  | .lower j => i = j
  | .claim => r = i + 1
  | .complete j => i = j
  | .nothing => False

/-- The interrupt is pending after it was raised, and not after it was lowered. A claim returns what
it has to. -/
def Answers (l : Lines) (a : Action) (s' : Registers) (r : ℕ) : Prop :=
  match a with
  | .raise i => s'.pending.getLsbD i = true
  | .lower i => s'.pending.getLsbD i = false
  | .claim => l.Claims r
  | .complete i => s'.served.getLsbD i = false
  | .nothing => True

structure StepRight (so : ShiftOver) (s : Registers) (l : Lines) (op : Op) : Prop where
  answers : Answers l op.action (s.step so op).1 (s.step so op).2
  others : ∀ i, ¬op.action.Concerns (s.step so op).2 i → (s.step so op).1.source i = s.source i

def Right (so : ShiftOver) (s : Registers) (l : Lines) : List Op → Prop
  | [] => True
  | op :: ops =>
    StepRight so s l op ∧ Right so (s.step so op).1 (l.after op.action (s.step so op).2) ops

/-- There is a bit for a source that is raised or lowered, or lowering it clears no other bit. The
lowest source that is pending and not being served was raised since it was last claimed. -/
def ActionMeets (so : ShiftOver) (s : Registers) (l : Lines) : Action → Prop
  | .raise i => i < 32
  | .lower i => i < 32 ∨ s.pending &&& irqBit so i = 0
  | .claim => s.mask ≠ 0 → l.raised s.mask.ctz.toNat = true
  | .complete _ => True
  | .nothing => True

def Meets (so : ShiftOver) (s : Registers) (l : Lines) : List Op → Prop
  | [] => True
  | op :: ops =>
    ActionMeets so s l op.action ∧
      Meets so (s.step so op).1 (l.after op.action (s.step so op).2) ops

/-! ## Bits -/

theorem irqBit_getLsbD (so : ShiftOver) {i : ℕ} (hi : i < 32) (j : ℕ) :
    (irqBit so i).getLsbD j = decide (j = i) := by
  rw [irqBit, shift, if_pos hi]
  by_cases hj : j = i
  · simp [hj, hi]
  · by_cases hlt : j < i
    · simp [hj, hlt]
    · have hsub : j - i ≠ 0 := by omega
      simp [hj, hsub]

theorem set_bit (so : ShiftOver) (x : BitVec 32) {i : ℕ} (hi : i < 32) (j : ℕ) :
    (x ||| irqBit so i).getLsbD j = if j = i then true else x.getLsbD j := by
  rw [BitVec.getLsbD_or, irqBit_getLsbD so hi]
  split_ifs with hj
  · simp [hj]
  · simp [hj]

theorem clear_bit (so : ShiftOver) (x : BitVec 32) {i : ℕ} (hi : i < 32) (j : ℕ) :
    (x &&& ~~~irqBit so i).getLsbD j = if j = i then false else x.getLsbD j := by
  rw [BitVec.getLsbD_and, BitVec.getLsbD_not, irqBit_getLsbD so hi]
  split_ifs with hj
  · simp [hj]
  · by_cases hlt : j < 32
    · simp [hj, hlt]
    · simp [hj, BitVec.getLsbD_of_ge x j (by omega)]

theorem and_not_eq_self_iff (x y : BitVec 32) : x &&& ~~~y = x ↔ x &&& y = 0 := by
  constructor
  · intro h
    rw [← h, BitVec.and_assoc, BitVec.and_comm (~~~y), BitVec.and_not_self]
    exact BitVec.and_zero
  · intro h
    apply BitVec.eq_of_getLsbD_eq
    intro i hi
    have hbit : (x &&& y).getLsbD i = false := by
      rw [h]
      exact BitVec.getLsbD_zero
    rw [BitVec.getLsbD_and] at hbit
    rw [BitVec.getLsbD_and, BitVec.getLsbD_not, decide_eq_true hi]
    cases hx : x.getLsbD i with
    | false => rfl
    | true => simpa [hx] using hbit

theorem mask_bit (s : Registers) (i : ℕ) :
    s.mask.getLsbD i = (s.pending.getLsbD i && !s.served.getLsbD i) := by
  rw [Registers.mask, BitVec.getLsbD_and, BitVec.getLsbD_not]
  by_cases hi : i < 32
  · simp [hi]
  · simp [BitVec.getLsbD_of_ge s.pending i (by omega)]

/-- The interrupt line is up where a claim has something to return. -/
theorem irq_pending_iff (so : ShiftOver) (s : Registers) :
    s.irq_pending = true ↔ (s.claim so).2 ≠ 0 := by
  have hzero : 0 < s.mask ↔ s.mask ≠ 0 := by
    rw [BitVec.lt_def, show (0 : BitVec 32).toNat = 0 from rfl, Nat.pos_iff_ne_zero]
    exact not_congr ⟨fun h => BitVec.eq_of_toNat_eq h, fun h => congrArg BitVec.toNat h⟩
  rw [Registers.irq_pending, decide_eq_true_iff, hzero, Registers.claim]
  split_ifs with h
  · exact iff_of_true h (Nat.succ_ne_zero _)
  · exact iff_of_false h (fun hne => hne rfl)

/-! ## One operation -/

/-- The registers after an action. -/
def Registers.act (so : ShiftOver) (s : Registers) : Action → Registers × ℕ
  | .raise i => ({ s with pending := s.pending ||| irqBit so i }, 0)
  | .lower i => ({ s with pending := s.pending &&& ~~~irqBit so i }, 0)
  | .claim => s.claim so
  | .complete i =>
    (if i < 32 then { s with served := s.served &&& ~~~irqBit so i } else s, 0)
  | .nothing => (s, 0)

theorem complete_eq (so : ShiftOver) (s : Registers) {w : ℕ} (hw : 5 < w) (val : BitVec w) :
    (s.complete so val, 0) = s.act so (completion val) := by
  have hpow : 2 ^ 6 ≤ 2 ^ w := Nat.pow_le_pow_right (by omega) hw
  have hone : (1 : BitVec w).toNat = 1 := BitVec.toNat_one (by omega)
  rw [completion, Registers.complete]
  by_cases hzero : val = 0
  · rw [if_pos hzero]
    have hlarge : ¬(val - 1).toNat < 32 := by
      have hnat : val.toNat = 0 := by rw [hzero]; exact BitVec.toNat_zero
      rw [BitVec.toNat_sub, hone, hnat, Nat.add_zero, Nat.mod_eq_of_lt (by omega)]
      omega
    simp only [if_neg hlarge, Registers.act]
  · rw [if_neg hzero]
    have hpos : val.toNat ≠ 0 :=
      fun h => hzero (BitVec.eq_of_toNat_eq (h.trans BitVec.toNat_zero.symm))
    have hsub : (val - 1).toNat = val.toNat - 1 := by
      have hle : (1 : BitVec w) ≤ val := by
        rw [BitVec.le_def, hone]
        omega
      rw [BitVec.toNat_sub_of_le hle, hone]
    simp only [hsub, Registers.act]

/-- Loads and stores elsewhere do nothing. -/
theorem step_eq (so : ShiftOver) (s : Registers) (op : Op) : s.step so op = s.act so op.action := by
  cases op with
  | set_irq irq val =>
    simp only [Registers.step, Registers.set_irq, Op.action]
    split_ifs <;> rfl
  | load_32 va =>
    simp only [Registers.step, Registers.load_32, Op.action]
    split_ifs <;> rfl
  | load_64 va =>
    simp only [Registers.step, Registers.load_64, Op.action]
    split_ifs <;> rfl
  | store_32 va val =>
    simp only [Registers.step, Registers.store_32, Op.action]
    split_ifs
    · exact complete_eq so s (by omega) val
    · rfl
  | store_64 va val =>
    simp only [Registers.step, Registers.store_64, Op.action]
    split_ifs
    · exact complete_eq so s (by omega) val
    · rfl

/-- A raised interrupt is pending, and the served bits are those of the sources being served. -/
structure Inv (s : Registers) (l : Lines) : Prop where
  pending : ∀ i, l.raised i = true → s.pending.getLsbD i = true
  served : ∀ i, l.serving i = s.served.getLsbD i

theorem Inv.init : Inv .init .init :=
  ⟨fun _ h => absurd h Bool.false_ne_true, fun _ => BitVec.getLsbD_zero.symm⟩

section
variable {so : ShiftOver} {s : Registers} {l : Lines}

theorem Inv.mask_of_claimable (h : Inv s l) {i : ℕ} (hi : l.Claimable i) :
    s.mask.getLsbD i = true := by
  rw [mask_bit, h.pending i hi.1, ← h.served i, hi.2]
  rfl

theorem Inv.claimable (h : Inv s l) {i : ℕ} (hmask : s.mask.getLsbD i = true)
    (hraised : l.raised i = true) : l.Claimable i := by
  rw [mask_bit, Bool.and_eq_true] at hmask
  refine ⟨hraised, ?_⟩
  rw [h.served i]
  simpa using hmask.2

theorem ctz_bit (h : s.mask ≠ 0) :
    s.mask.getLsbD s.mask.ctz.toNat = true ∧ s.mask.ctz.toNat < 32 := by
  have hbit := BitVec.getLsbD_true_ctz_of_ne_zero h
  refine ⟨hbit, ?_⟩
  by_contra hge
  rw [BitVec.getLsbD_of_ge _ _ (by omega)] at hbit
  cases hbit

/-- A claim returns what it has to where the lowest bit of the mask is that of an interrupt. -/
theorem Inv.claim_iff (h : Inv s l) :
    l.Claims (s.claim so).2 ↔ (s.mask ≠ 0 → l.raised s.mask.ctz.toNat = true) := by
  rw [Registers.claim]
  split_ifs with hzero
  · have hbit := (ctz_bit hzero).1
    constructor
    · exact fun hclaims _ => hclaims.1.1
    · intro hraised
      refine ⟨h.claimable hbit (hraised hzero), fun j hj hclaimable => ?_⟩
      have hlow := BitVec.getLsbD_false_of_lt_ctz hj
      rw [h.mask_of_claimable hclaimable] at hlow
      cases hlow
  · refine iff_of_true (fun i hi => ?_) (fun hne => absurd hne hzero)
    have hbit := h.mask_of_claimable hi
    rw [not_not.mp hzero, show (0 : BitVec 32) = 0#32 from rfl, BitVec.getLsbD_zero] at hbit
    cases hbit

theorem claim_source (i : ℕ) (hi : (s.claim so).2 ≠ i + 1) :
    (s.claim so).1.source i = s.source i := by
  rw [Registers.claim] at hi ⊢
  split_ifs at hi ⊢ with hzero
  · have hne : i ≠ s.mask.ctz.toNat := fun heq => hi (by rw [heq])
    simp only [Registers.source, set_bit so _ (ctz_bit hzero).2, if_neg hne]
  · rfl

theorem Inv.claimed (h : Inv s l) : Inv (s.claim so).1 (l.claimed (s.claim so).2) := by
  rw [Registers.claim]
  split_ifs with hzero
  · refine ⟨fun i hi => ?_, fun i => ?_⟩
    · simp only [Lines.claimed, Function.update_apply] at hi
      split_ifs at hi
      exact h.pending i hi
    · simp only [Lines.claimed, Function.update_apply, set_bit so _ (ctz_bit hzero).2, h.served i]
  · exact h

/-! ## Each action -/

/-- The property of a step, by what the operation is for. -/
structure ActionRight (so : ShiftOver) (s : Registers) (l : Lines) (a : Action) : Prop where
  answers : Answers l a (s.act so a).1 (s.act so a).2
  others : ∀ i, ¬a.Concerns (s.act so a).2 i → (s.act so a).1.source i = s.source i

theorem stepRight_iff (op : Op) : StepRight so s l op ↔ ActionRight so s l op.action := by
  constructor
  · rintro ⟨hanswers, hothers⟩
    rw [step_eq] at hanswers hothers
    exact ⟨hanswers, hothers⟩
  · rintro ⟨hanswers, hothers⟩
    rw [← step_eq] at hanswers hothers
    exact ⟨hanswers, hothers⟩

/-- An action that meets the condition is right, and keeps the invariant. -/
theorem Inv.act (h : Inv s l) {a : Action} (hmeets : ActionMeets so s l a) :
    ActionRight so s l a ∧ Inv (s.act so a).1 (l.after a (s.act so a).2) := by
  cases a with
  | raise i =>
    have hi : i < 32 := hmeets
    refine ⟨⟨?_, fun j hj => ?_⟩, ⟨fun j hj => ?_, h.served⟩⟩
    · simp only [Answers, Registers.act, set_bit so _ hi, if_true]
    · have hne : j ≠ i := hj
      simp only [Registers.act, Registers.source, set_bit so _ hi, if_neg hne]
    · simp only [Registers.act, set_bit so _ hi]
      simp only [Lines.after, Function.update_apply] at hj
      split_ifs at hj ⊢
      · rfl
      · exact h.pending j hj
  | lower i =>
    -- past the register nothing is cleared
    have hbit : ∀ j, (s.pending &&& ~~~irqBit so i).getLsbD j =
        if j = i then false else s.pending.getLsbD j := by
      intro j
      rcases hmeets with hi | hnone
      · exact clear_bit so _ hi j
      · rw [(and_not_eq_self_iff _ _).mpr hnone]
        split_ifs with hj
        · by_cases hi : i < 32
          · rw [hj, ← (and_not_eq_self_iff _ _).mpr hnone, clear_bit so _ hi, if_pos rfl]
          · exact BitVec.getLsbD_of_ge _ _ (by omega)
        · rfl
    refine ⟨⟨?_, fun j hj => ?_⟩, ⟨fun j hj => ?_, h.served⟩⟩
    · simp only [Answers, Registers.act, hbit, if_true]
    · have hne : j ≠ i := hj
      simp only [Registers.act, Registers.source, hbit, if_neg hne]
    · simp only [Registers.act, hbit]
      simp only [Lines.after, Function.update_apply] at hj
      split_ifs at hj ⊢
      exact h.pending j hj
  | claim =>
    exact ⟨⟨h.claim_iff.mpr hmeets, fun j hj => claim_source j hj⟩, h.claimed⟩
  | complete i =>
    have hbit : ∀ j, (s.act so (.complete i)).1.served.getLsbD j =
        if j = i then false else s.served.getLsbD j := by
      intro j
      simp only [Registers.act]
      by_cases hi : i < 32
      · rw [if_pos hi]
        exact clear_bit so _ hi j
      · rw [if_neg hi]
        split_ifs with hj
        · exact BitVec.getLsbD_of_ge _ _ (by omega)
        · rfl
    have hpending : (s.act so (.complete i)).1.pending = s.pending := by
      simp only [Registers.act]
      split_ifs <;> rfl
    refine ⟨⟨?_, fun j hj => ?_⟩, ⟨fun j hj => ?_, fun j => ?_⟩⟩
    · simp only [Answers, hbit, if_true]
    · have hne : j ≠ i := hj
      simp only [Registers.source, hpending, hbit, if_neg hne]
    · rw [hpending]
      exact h.pending j hj
    · simp only [Lines.after, Function.update_apply, hbit, h.served j]
  | nothing => exact ⟨⟨trivial, fun _ _ => rfl⟩, h⟩

/-- An action that does not meet the condition is not right. -/
theorem Inv.meets (h : Inv s l) {a : Action} (hright : ActionRight so s l a) :
    ActionMeets so s l a := by
  cases a with
  | raise i =>
    by_contra hge
    have hbit : (s.pending ||| irqBit so i).getLsbD i = true := hright.answers
    rw [BitVec.getLsbD_of_ge _ _ (Nat.le_of_not_lt hge)] at hbit
    cases hbit
  | lower i =>
    by_cases hi : i < 32
    · exact .inl hi
    · refine .inr ((and_not_eq_self_iff _ _).mp (BitVec.eq_of_getLsbD_eq fun j hj => ?_))
      have hne : j ≠ i := by omega
      exact congrArg Prod.fst (hright.others j hne)
  | claim => exact h.claim_iff.mp hright.answers
  | complete i => trivial
  | nothing => trivial

/-! ## Runs -/

theorem Inv.run_iff (h : Inv s l) (ops : List Op) : Right so s l ops ↔ Meets so s l ops := by
  induction ops generalizing s l with
  | nil => exact Iff.rfl
  | cons op ops ih =>
    rw [Right, Meets, stepRight_iff, step_eq]
    constructor
    · rintro ⟨hright, hrest⟩
      have hmeets := h.meets hright
      exact ⟨hmeets, (ih (h.act hmeets).2).mp hrest⟩
    · rintro ⟨hmeets, hrest⟩
      obtain ⟨hright, hinv⟩ : ActionRight so s l op.action ∧ _ := h.act hmeets
      exact ⟨hright, (ih hinv).mpr hrest⟩

end

/-- Any operations on the controller as it is constructed. -/
theorem interrupts_right_iff (so : ShiftOver) (ops : List Op) :
    Right so .init .init ops ↔ Meets so .init .init ops :=
  Inv.init.run_iff ops

/-- Source 40 has no bit. -/
theorem source40_not_right :
    ¬∀ (so : ShiftOver) (ops : List Op), (∀ i val, Op.set_irq i val ∈ ops → i < NUM_IRQS) →
      Right so .init .init ops := by
  intro hall
  have hsources : ∀ i val, Op.set_irq i val ∈ [Op.set_irq 40 1, .load_64 0] → i < NUM_IRQS := by
    intro i val hmem
    rw [List.mem_cons, List.mem_singleton] at hmem
    rcases hmem with heq | heq
    · cases heq
      decide
    · cases heq
  have hright := hall ⟨fun _ _ x _ => x⟩ [.set_irq 40 1, .load_64 0] hsources
  have hraised : (0#32 ||| irqBit ⟨fun _ _ x _ => x⟩ 40).getLsbD 40 = true := hright.1.answers
  rw [BitVec.getLsbD_of_ge _ _ (by decide)] at hraised
  cases hraised

end RvCkpt.Emu.Plic
