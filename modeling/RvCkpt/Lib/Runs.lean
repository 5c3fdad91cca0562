import Mathlib.Data.Nat.Notation

/-! # Runs of a machine

A property that a step keeps exactly when a condition on the step holds: it holds in all states of
a run exactly when all steps of the run meet the condition.
-/

namespace Runs
set_option autoImplicit false

variable {σ ε : Type} (step : σ → ε → Option σ)

/-- The state after a run; a step that the machine cannot do ends it. -/
def run (s : σ) : List ε → Option σ
  | [] => some s
  | e :: es => (step s e).bind fun s' => run s' es

/-- The property holds in all states of the run. -/
def Always (p : σ → Prop) (s : σ) : List ε → Prop
  | [] => p s
  | e :: es => p s ∧ ∀ s', step s e = some s' → Always p s' es

/-- All steps of the run meet the condition. -/
def Meets (c : σ → ε → Prop) (s : σ) : List ε → Prop
  | [] => True
  | e :: es => ∀ s', step s e = some s' → c s e ∧ Meets c s' es

variable {step} {p q : σ → Prop} {c : σ → ε → Prop}

theorem Always.head {s : σ} {es : List ε} (h : Always step p s es) : p s := by
  cases es with
  | nil => exact h
  | cons e es => exact h.1

/-- The property holds where the run ends. -/
theorem Always.last {s s' : σ} {es : List ε} (h : Always step p s es)
    (hrun : run step s es = some s') : p s' := by
  induction es generalizing s with
  | nil =>
    obtain rfl := Option.some.inj hrun
    exact h
  | cons e es ih =>
    obtain ⟨s₁, hstep, hrest⟩ := Option.bind_eq_some_iff.mp hrun
    exact ih (h.2 s₁ hstep) hrest

/-- `q` is kept by every step, and `p` by the steps that meet the condition only. -/
theorem always_iff_meets (hq : ∀ s e s', step s e = some s' → q s → q s')
    (hp : ∀ s e s', step s e = some s' → q s → p s → (p s' ↔ c s e)) {s : σ} (es : List ε)
    (hqs : q s) (hps : p s) : Always step p s es ↔ Meets step c s es := by
  induction es generalizing s with
  | nil => exact ⟨fun _ => trivial, fun _ => hps⟩
  | cons e es ih =>
    constructor
    · intro h s' hstep
      have hs' := hq s e s' hstep hqs
      have hps' := (h.2 s' hstep).head
      exact ⟨(hp s e s' hstep hqs hps).mp hps', (ih hs' hps').mp (h.2 s' hstep)⟩
    · intro h
      refine ⟨hps, fun s' hstep => ?_⟩
      obtain ⟨hc, hrest⟩ := h s' hstep
      exact (ih (hq s e s' hstep hqs) ((hp s e s' hstep hqs hps).mpr hc)).mpr hrest

/-- A property of steps that follows from the condition, by what such steps keep. -/
theorem Meets.imp {d : σ → ε → Prop}
    (hq : ∀ s e s', step s e = some s' → q s → c s e → q s')
    (hd : ∀ s e s', step s e = some s' → q s → c s e → d s e) {s : σ} {es : List ε} (hqs : q s)
    (h : Meets step c s es) : Meets step d s es := by
  induction es generalizing s with
  | nil => trivial
  | cons e es ih =>
    intro s' hstep
    obtain ⟨hc, hrest⟩ := h s' hstep
    exact ⟨hd s e s' hstep hqs hc, ih (hq s e s' hstep hqs hc) hrest⟩

theorem meets_congr {d : σ → ε → Prop} (h : ∀ s e, c s e ↔ d s e) (s : σ) (es : List ε) :
    Meets step c s es ↔ Meets step d s es := by
  induction es generalizing s with
  | nil => exact Iff.rfl
  | cons e es ih =>
    constructor
    · intro hs s' hstep
      exact ⟨(h s e).mp (hs s' hstep).1, (ih s').mp (hs s' hstep).2⟩
    · intro hs s' hstep
      exact ⟨(h s e).mpr (hs s' hstep).1, (ih s').mpr (hs s' hstep).2⟩

end Runs
