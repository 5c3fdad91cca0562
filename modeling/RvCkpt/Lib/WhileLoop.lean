import Mathlib.Tactic.Common
import Mathlib.Data.Nat.Notation

/-! # While loops

Big steps of a loop over a state. A loop ends if a measure goes down as long as an invariant and
the condition hold, and never ends where an invariant keeps the condition true. Small steps of a
loop whose body may leave it: two tests end it at the same places if they agree wherever it gets.
-/

namespace WhileLoop
set_option autoImplicit false

variable {σ : Type} (cond : σ → Prop) (body : σ → σ)

/-- `while cond: body`, begun in the first state, ends in the second. -/
inductive Ends : σ → σ → Prop
  | stop {s : σ} (h : ¬ cond s) : Ends s s
  | step {s t : σ} (h : cond s) (rest : Ends (body s) t) : Ends s t

variable {cond body} {p : σ → Prop} {s t t' : σ}

theorem ends_of_not (h : ¬ cond s) : Ends cond body s t ↔ t = s := by
  constructor
  · intro hends
    cases hends with
    | stop _ => rfl
    | step hs _ => exact absurd hs h
  · rintro rfl
    exact .stop h

theorem ends_of_cond (h : cond s) : Ends cond body s t ↔ Ends cond body (body s) t := by
  constructor
  · intro hends
    cases hends with
    | stop hs => exact absurd h hs
    | step _ rest => exact rest
  · exact .step h

theorem Ends.not_cond (h : Ends cond body s t) : ¬ cond t := by
  induction h with
  | stop h => exact h
  | step _ _ ih => exact ih

theorem Ends.unique (h : Ends cond body s t) (h' : Ends cond body s t') : t = t' := by
  induction h with
  | stop hs => exact ((ends_of_not hs).mp h').symm
  | step hs _ ih => exact ih ((ends_of_cond hs).mp h')

theorem Ends.keeps (hp : ∀ s, cond s → p s → p (body s)) (h : Ends cond body s t) (hs : p s) :
    p t := by
  induction h with
  | stop _ => exact hs
  | step hc _ ih => exact ih (hp _ hc hs)

theorem exists_ends {μ : σ → ℕ} (hp : ∀ s, cond s → p s → p (body s))
    (hμ : ∀ s, cond s → p s → μ (body s) < μ s) (hs : p s) : ∃ t, Ends cond body s t := by
  induction hn : μ s using Nat.strongRecOn generalizing s with
  | _ n ih =>
    by_cases hc : cond s
    · obtain ⟨t, ht⟩ := ih (μ (body s)) (hn ▸ hμ s hc hs) (hp s hc hs) rfl
      exact ⟨t, .step hc ht⟩
    · exact ⟨s, .stop hc⟩

theorem not_ends (hp : ∀ s, p s → cond s ∧ p (body s)) (hs : p s) : ¬ Ends cond body s t := by
  intro h
  exact h.not_cond (hp t (h.keeps (fun s _ hps => (hp s hps).2) hs)).1

/-! ## Loops that the body leaves -/

section
variable {ρ : Type} (stop : σ → Bool) (turn : σ → σ ⊕ ρ)

/-- `while !stop: turn` for so many tests: the state where the test ends the loop, or what the body
leaves it with. -/
def loop : ℕ → σ → Option (σ ⊕ ρ)
  | 0, _ => none
  | n + 1, s =>
    if stop s then some (.inl s)
    else
      match turn s with
      | .inl s' => loop n s'
      | .inr r => some (.inr r)

/-- The states that are tested. -/
inductive Tested (s : σ) : σ → Prop
  | start : Tested s s
  | turn {t t' : σ} (h : Tested s t) (hstop : stop t = false) (hturn : turn t = .inl t') :
    Tested s t'

end

section
variable {ρ : Type} {stop stop' : σ → Bool} {turn : σ → σ ⊕ ρ} {n : ℕ}

theorem loop_of_stop (h : stop s = true) : loop stop turn (n + 1) s = some (.inl s) := by
  rw [loop, if_pos h]

theorem loop_of_goes (h : stop s = false) (hturn : turn s = .inl t) :
    loop stop turn (n + 1) s = loop stop turn n t := by
  rw [loop, if_neg (by rw [h]; exact Bool.false_ne_true), hturn]

theorem loop_of_leaves {r : ρ} (h : stop s = false) (hturn : turn s = .inr r) :
    loop stop turn (n + 1) s = some (.inr r) := by
  rw [loop, if_neg (by rw [h]; exact Bool.false_ne_true), hturn]

/-- What the first test gives tells the tests apart. -/
theorem stop_eq_of_loop_one (h : loop stop turn 1 s = loop stop' turn 1 s) : stop s = stop' s := by
  rw [loop, loop] at h
  by_cases hs : stop s = true <;> by_cases hs' : stop' s = true
  · rw [hs, hs']
  · rw [if_pos hs, if_neg hs'] at h
    cases hturn : turn s with
    | inl t => rw [hturn] at h; cases h
    | inr r => rw [hturn] at h; cases h
  · rw [if_neg hs, if_pos hs'] at h
    cases hturn : turn s with
    | inl t => rw [hturn] at h; cases h
    | inr r => rw [hturn] at h; cases h
  · rw [Bool.not_eq_true] at hs hs'
    rw [hs, hs']

theorem loop_eq_of_tested (h : ∀ t, Tested stop' turn s t → stop t = stop' t) (n : ℕ) :
    loop stop turn n s = loop stop' turn n s := by
  suffices hall : ∀ n t, Tested stop' turn s t → loop stop turn n t = loop stop' turn n t from
    hall n s .start
  intro n
  induction n with
  | zero => exact fun _ _ => rfl
  | succ n ih =>
    intro t ht
    cases hstop : stop' t with
    | true => rw [loop_of_stop hstop, loop_of_stop ((h t ht).trans hstop)]
    | false =>
      have hstop' : stop t = false := (h t ht).trans hstop
      cases hturn : turn t with
      | inl t' =>
        rw [loop_of_goes hstop hturn, loop_of_goes hstop' hturn]
        exact ih t' (.turn ht hstop hturn)
      | inr r => rw [loop_of_leaves hstop hturn, loop_of_leaves hstop' hturn]

/-- Two tests end the loop at the same places exactly if they agree on the states that one of them
gets to. -/
theorem loop_eq_iff :
    (∀ n, loop stop turn n s = loop stop' turn n s) ↔
      ∀ t, Tested stop' turn s t → stop t = stop' t := by
  refine ⟨fun h t ht => ?_, loop_eq_of_tested⟩
  suffices hloop : ∀ n, loop stop turn n t = loop stop' turn n t from stop_eq_of_loop_one (hloop 1)
  induction ht with
  | start => exact h
  | turn ht hstop hturn ih =>
    intro n
    have hstop' : stop _ = false := (stop_eq_of_loop_one (ih 1)).trans hstop
    have hnext := ih (n + 1)
    rwa [loop_of_goes hstop hturn, loop_of_goes hstop' hturn] at hnext

end

end WhileLoop
