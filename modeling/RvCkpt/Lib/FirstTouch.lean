import Mathlib.Data.List.Basic
import Mathlib.Tactic.Common

/-! # First-touch recording

A recorder watches the reads and writes of a program and keeps, for each cell, what the program
found there when it first touched it: the value of a cell first read, a fixed filler for a cell
first written. `image` fills the untouched cells with the filler. Running the same accesses on
the image shows the program what it saw originally (`observe_image`), and the record holds
exactly the touched cells (`recordAll_isSome_iff`).

`α` is the set of cells and `β` the values; an access covers any decidable set of cells.
-/

namespace FirstTouch
set_option autoImplicit false

variable {α β : Type}

inductive Access (α β : Type) where
  | read (s : α → Bool)
  | write (s : α → Bool) (f : α → β)

namespace Access

def cells : Access α β → α → Bool
  | read s => s
  | write s _ => s

def apply (m : α → β) : Access α β → α → β
  | read _ => m
  | write s f => fun a => if s a then f a else m a

end Access

/-- A partial record of the memory: `none` for a cell not touched so far. -/
abbrev Record (α β : Type) := α → Option β

/-- Keep what is recorded, and record `f` on the cells of `s` not recorded so far. -/
def touch (R : Record α β) (s : α → Bool) (f : α → β) : Record α β :=
  fun a => match R a with
    | some b => some b
    | none => if s a then some (f a) else none

/-- The recorder's step: the memory `m` is the one the access finds. -/
def record (d : β) (m : α → β) (R : Record α β) : Access α β → Record α β
  | .read s => touch R s m
  | .write s _ => touch R s fun _ => d

def recordAll (d : β) (m : α → β) (R : Record α β) : List (Access α β) → Record α β
  | [] => R
  | e :: es => recordAll d (e.apply m) (record d m R e) es

def image (d : β) (R : Record α β) : α → β := fun a => (R a).getD d

/-- What the reads of a run see, in order. -/
def observe (m : α → β) : List (Access α β) → List (α → Option β)
  | [] => []
  | .read s :: es => (fun a => if s a then some (m a) else none) :: observe m es
  | .write s f :: es => observe ((Access.write s f).apply m) es

/-! ## One step -/

theorem touch_of_some {R : Record α β} {s : α → Bool} {f : α → β} {a : α} {b : β}
    (h : R a = some b) : touch R s f a = some b := by
  simp [touch, h]

theorem touch_of_none {R : Record α β} {s : α → Bool} {f : α → β} {a : α} (h : R a = none) :
    touch R s f a = if s a then some (f a) else none := by
  simp [touch, h]

theorem touch_isSome (R : Record α β) (s : α → Bool) (f : α → β) (a : α) :
    (touch R s f a).isSome = ((R a).isSome || s a) := by
  cases h : R a with
  | some b => simp [touch_of_some h]
  | none => rw [touch_of_none h]; cases s a <;> rfl

theorem record_of_some (d : β) {m : α → β} {R : Record α β} {a : α} {b : β} (e : Access α β)
    (h : R a = some b) : record d m R e a = some b := by
  cases e with
  | read s => exact touch_of_some h
  | write s f =>
    show touch R s (fun _ => d) a = some b
    exact touch_of_some h

theorem record_isSome (d : β) (m : α → β) (R : Record α β) (e : Access α β) (a : α) :
    (record d m R e a).isSome = ((R a).isSome || e.cells a) := by
  cases e with
  | read s => exact touch_isSome R s m a
  | write s f => exact touch_isSome R s (fun _ => d) a

theorem touch_congr {R : Record α β} {s : α → Bool} {f g : α → β}
    (h : ∀ a, R a = none → s a = true → f a = g a) : touch R s f = touch R s g := by
  funext a
  cases hR : R a with
  | some b => rw [touch_of_some hR, touch_of_some hR]
  | none =>
    rw [touch_of_none hR, touch_of_none hR]
    by_cases hs : s a = true
    · rw [if_pos hs, if_pos hs, h a hR hs]
    · rw [if_neg hs, if_neg hs]

theorem touch_touch (R : Record α β) (s t : α → Bool) (f : α → β) :
    touch (touch R s f) t f = touch R (fun a => s a || t a) f := by
  funext a
  cases hR : R a with
  | some b => rw [touch_of_some (touch_of_some hR), touch_of_some hR]
  | none =>
    by_cases hs : s a = true
    · have h1 : touch R s f a = some (f a) := by rw [touch_of_none hR, if_pos hs]
      rw [touch_of_some h1, touch_of_none hR, hs, Bool.true_or, if_pos rfl]
    · have h1 : touch R s f a = none := by rw [touch_of_none hR, if_neg hs]
      rw [touch_of_none h1, touch_of_none hR]
      simp [hs]

theorem touch_of_all_seen {R : Record α β} {s : α → Bool} (f : α → β)
    (h : ∀ a, s a = true → (R a).isSome) : touch R s f = R := by
  funext a
  cases hR : R a with
  | some b => exact touch_of_some hR
  | none =>
    rw [touch_of_none hR, if_neg]
    intro hs
    have ha := h a hs
    rw [hR] at ha
    cases ha

/-! ## Runs -/

theorem recordAll_append (d : β) (m : α → β) (R : Record α β) (es fs : List (Access α β)) :
    recordAll d m R (es ++ fs) =
      recordAll d (es.foldl Access.apply m) (recordAll d m R es) fs := by
  induction es generalizing m R with
  | nil => rfl
  | cons e es ih => exact ih (e.apply m) (record d m R e)

theorem recordAll_of_some (d : β) {m : α → β} {R : Record α β} {a : α} {b : β}
    (es : List (Access α β)) (h : R a = some b) : recordAll d m R es a = some b := by
  induction es generalizing m R with
  | nil => exact h
  | cons e es ih => exact ih (record_of_some d e h)

theorem recordAll_isSome_iff (d : β) (m : α → β) (R : Record α β) (es : List (Access α β))
    (a : α) : (recordAll d m R es a).isSome ↔ (R a).isSome ∨ ∃ e ∈ es, e.cells a := by
  induction es generalizing m R with
  | nil => simp [recordAll]
  | cons e es ih =>
    rw [recordAll, ih, record_isSome, Bool.or_eq_true, List.exists_mem_cons_iff, or_assoc]

/-- The invariant of a replay: the two memories agree where the record has a value, and
elsewhere the replay's memory still holds what the final image says. -/
theorem observe_eq (d : β) (es : List (Access α β)) (m m' : α → β) (R : Record α β)
    (hsome : ∀ a, (R a).isSome → m' a = m a)
    (hnone : ∀ a, R a = none → m' a = image d (recordAll d m R es) a) :
    observe m' es = observe m es := by
  induction es generalizing m m' R with
  | nil => rfl
  | cons e es ih =>
    cases e with
    | read s =>
      have hs : ∀ a, (touch R s m a).isSome → m' a = m a := by
        intro a ha
        cases hR : R a with
        | some b => exact hsome a (by simp [hR])
        | none =>
          have hsa : s a = true := by simpa [touch_isSome, hR] using ha
          have ht : touch R s m a = some (m a) := by rw [touch_of_none hR, if_pos hsa]
          have hfin := recordAll_of_some d (m := m) es ht
          rw [hnone a hR]
          simp only [image, recordAll, record, Access.apply]
          rw [hfin, Option.getD_some]
      have hrest : observe m' es = observe m es := by
        apply ih m m' (touch R s m) hs
        intro a ha
        have hRa : R a = none := by
          cases hR : R a with
          | none => rfl
          | some b => rw [touch_of_some hR] at ha; cases ha
        exact hnone a hRa
      have hsee : (fun a => if s a then some (m' a) else none) =
          fun a => if s a then some (m a) else none := by
        funext a
        by_cases hsa : s a = true
        · rw [if_pos hsa, if_pos hsa, hs a (by simp [touch_isSome, hsa])]
        · rw [if_neg hsa, if_neg hsa]
      rw [observe, observe, hsee, hrest]
    | write s f =>
      apply ih _ _ (touch R s fun _ => d)
      · intro a ha
        simp only [Access.apply]
        by_cases hsa : s a = true
        · rw [if_pos hsa, if_pos hsa]
        · rw [if_neg hsa, if_neg hsa]
          apply hsome
          simpa [touch_isSome, hsa] using ha
      · intro a ha
        have hboth : R a = none ∧ s a = false := by
          have h := touch_isSome R s (fun _ => d) a
          rw [ha] at h
          simpa using h.symm
        simp only [Access.apply, hboth.2]
        exact hnone a hboth.1

/-- **Replay on the image.** A run on the image of its own record sees what it saw. -/
theorem observe_image (d : β) (m : α → β) (es : List (Access α β)) :
    observe (image d (recordAll d m (fun _ => none) es)) es = observe m es := by
  apply observe_eq d es m _ fun _ => none
  · intro a ha
    simp at ha
  · intro a _
    rfl

/-- A run depends on the cells it touches only. -/
theorem observe_congr_cells {m m' : α → β} {es : List (Access α β)}
    (h : ∀ a, (∃ e ∈ es, e.cells a = true) → m' a = m a) : observe m' es = observe m es := by
  induction es generalizing m m' with
  | nil => rfl
  | cons e es ih =>
    cases e with
    | read s =>
      have hsee : (fun a => if s a then some (m' a) else none) =
          fun a => if s a then some (m a) else none := by
        funext a
        by_cases hs : s a = true
        · rw [if_pos hs, if_pos hs, h a ⟨.read s, by simp, hs⟩]
        · rw [if_neg hs, if_neg hs]
      have hrest : observe m' es = observe m es := by
        apply ih
        rintro a ⟨e, he, hc⟩
        exact h a ⟨e, List.mem_cons_of_mem _ he, hc⟩
      rw [observe, observe, hsee, hrest]
    | write s f =>
      apply ih
      rintro a ⟨e, he, hc⟩
      simp only [Access.apply]
      rw [h a ⟨e, List.mem_cons_of_mem _ he, hc⟩]

end FirstTouch
