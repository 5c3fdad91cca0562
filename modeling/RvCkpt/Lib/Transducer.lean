import Mathlib.Data.Nat.Notation
import Mathlib.Data.List.Basic

/-! # Transducers

A machine that reads a word letter by letter, puts something out at every letter, and something
more at the end.
-/

set_option autoImplicit false

structure Transducer (σ α β : Type) where
  step : σ → α → σ
  emit : σ → α → List β
  final : σ → List β

namespace Transducer

variable {σ α β : Type} (T : Transducer σ α β)

/-- The state after a word. -/
def after (s : σ) (xs : List α) : σ := xs.foldl T.step s

/-- What is put out before the end. -/
def emitted : σ → List α → List β
  | _, [] => []
  | s, x :: xs => T.emit s x ++ emitted (T.step s x) xs

def output (s : σ) (xs : List α) : List β := T.emitted s xs ++ T.final (T.after s xs)

theorem output_nil (s : σ) : T.output s [] = T.final s := rfl

theorem output_cons (s : σ) (x : α) (xs : List α) :
    T.output s (x :: xs) = T.emit s x ++ T.output (T.step s x) xs := List.append_assoc _ _ _

theorem after_cons (s : σ) (x : α) (xs : List α) :
    T.after s (x :: xs) = T.after (T.step s x) xs := rfl

theorem after_append (s : σ) (xs ys : List α) :
    T.after s (xs ++ ys) = T.after (T.after s xs) ys := List.foldl_append

/-- A word that is read in two parts. -/
theorem output_append (s : σ) (xs ys : List α) :
    T.output s (xs ++ ys) = T.emitted s xs ++ T.output (T.after s xs) ys := by
  induction xs generalizing s with
  | nil => rfl
  | cons x xs ih =>
    rw [List.cons_append, output_cons, ih, emitted, List.append_assoc]
    rfl

variable {T}

/-- Letters after a word that put out what the end of the word does. -/
theorem output_append_of_final {s : σ} {xs ys : List α}
    (h : T.output (T.after s xs) ys = T.final (T.after s xs)) :
    T.output s (xs ++ ys) = T.output s xs := by
  rw [output_append, h]
  rfl

/-- A property of states that the letters of a word keep. -/
theorem after_invariant {p : σ → Prop} {xs : List α} (hstep : ∀ x ∈ xs, ∀ s, p s → p (T.step s x))
    {s : σ} (hs : p s) : p (T.after s xs) := by
  induction xs generalizing s with
  | nil => exact hs
  | cons x xs ih =>
    exact ih (fun y hy => hstep y (List.mem_cons_of_mem x hy)) (hstep x List.mem_cons_self s hs)

/-- A property of states that the letters of a word keep, and what is put out in such states. -/
theorem forall_output {p : σ → Prop} {q : β → Prop} {xs : List α}
    (hstep : ∀ x ∈ xs, ∀ s, p s → p (T.step s x) ∧ ∀ b ∈ T.emit s x, q b)
    (hfinal : ∀ s, p s → ∀ b ∈ T.final s, q b) {s : σ} (hs : p s) : ∀ b ∈ T.output s xs, q b := by
  induction xs generalizing s with
  | nil => exact hfinal s hs
  | cons x xs ih =>
    obtain ⟨hnext, hemit⟩ := hstep x List.mem_cons_self s hs
    intro b hb
    rw [output_cons, List.mem_append] at hb
    rcases hb with hb | hb
    · exact hemit b hb
    · exact ih (fun y hy => hstep y (List.mem_cons_of_mem x hy)) hnext b hb

/-- Letters that are collected in the state. -/
theorem collect {f : List α → σ} {xs : List α}
    (h : ∀ x ∈ xs, ∀ w, T.step (f w) x = f (w ++ [x]) ∧ T.emit (f w) x = []) (w ys : List α) :
    T.output (f w) (xs ++ ys) = T.output (f (w ++ xs)) ys ∧
      T.after (f w) (xs ++ ys) = T.after (f (w ++ xs)) ys := by
  induction xs generalizing w with
  | nil =>
    rw [List.nil_append, List.append_nil]
    exact ⟨rfl, rfl⟩
  | cons x xs ih =>
    obtain ⟨hstep, hemit⟩ := h x List.mem_cons_self w
    obtain ⟨hout, hafter⟩ := ih (fun y hy => h y (List.mem_cons_of_mem x hy)) (w ++ [x])
    rw [List.append_assoc, List.singleton_append] at hout hafter
    rw [List.cons_append, output_cons, hstep, hemit, ← hout, ← hafter, ← hstep]
    exact ⟨rfl, rfl⟩

/-- Letters that leave a state as it is and put nothing out. -/
theorem output_of_idle {s : σ} {xs : List α} (h : ∀ x ∈ xs, T.step s x = s ∧ T.emit s x = [])
    (ys : List α) : T.output s (xs ++ ys) = T.output s ys :=
  (collect (f := fun _ => s) (fun x hx _ => h x hx) [] ys).1

end Transducer
