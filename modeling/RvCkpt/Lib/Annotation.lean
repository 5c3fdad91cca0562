import Mathlib.Data.List.Basic
import Mathlib.Tactic.Common

/-! # Annotated code

What is known in front of each piece of a code, from the pieces before it, and the pieces that may
stand there.
-/

namespace Annotation
set_option autoImplicit false

section
variable {α β : Type*} (behind : β → α → β) (Admits : β → α → Prop) (b : β)

/-- What is known in front of a position. -/
def before (code : List α) (pos : ℕ) : β := (code.take pos).foldl behind b

/-- What is known at the end. -/
def final (code : List α) : β := code.foldl behind b

/-- Every piece may stand where it does. -/
def Fits (code : List α) : Prop :=
  ∀ (pos : ℕ) (p : α), code[pos]? = some p → Admits (before behind b code pos) p

variable {behind Admits b} {code : List α} {p : α} {pos : ℕ}

@[simp] theorem before_zero : before behind b code 0 = b := rfl

theorem before_succ (h : code[pos]? = some p) :
    before behind b code (pos + 1) = behind (before behind b code pos) p := by
  rw [before, before, List.take_add_one, h, Option.toList_some, List.foldl_append]
  rfl

theorem final_snoc : final behind b (code ++ [p]) = behind (final behind b code) p := by
  rw [final, final, List.foldl_append]
  rfl

theorem Fits.nil : Fits behind Admits b [] := by
  intro pos p h
  cases h

theorem Fits.snoc (h : Fits behind Admits b code) (hp : Admits (final behind b code) p) :
    Fits behind Admits b (code ++ [p]) := by
  intro pos q hq
  rw [before]
  rcases Nat.lt_trichotomy pos code.length with hlt | heq | hgt
  · rw [List.getElem?_append_left hlt] at hq
    rw [List.take_append_of_le_length (Nat.le_of_lt hlt)]
    exact h pos q hq
  · rw [heq, List.getElem?_concat_length] at hq
    obtain rfl := Option.some.inj hq
    rw [heq, List.take_left]
    exact hp
  · rw [List.getElem?_eq_none (by simp; omega)] at hq
    cases hq

end

end Annotation
