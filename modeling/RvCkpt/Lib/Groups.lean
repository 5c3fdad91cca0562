import Mathlib.Data.List.Basic
import Mathlib.Data.List.Induction
import Mathlib.Data.Nat.Notation
import Mathlib.Tactic.Common

/-! # Grouping a list

One pass over a list that puts each element into the last group, or starts a group with it. The
groups hold the elements in their order, and what holds of a new group and is kept by every
element that joins one holds of all of them.
-/

namespace Groups
set_option autoImplicit false

variable {α γ : Type} (start : α → γ) (push : γ → α → γ) (joins : γ → α → Bool)

def add (gs : List γ) (x : α) : List γ :=
  match gs.getLast? with
  | some g => if joins g x then gs.dropLast ++ [push g x] else gs ++ [start x]
  | none => [start x]

def collect (xs : List α) : List γ := xs.foldl (add start push joins) []

theorem add_cases (gs : List γ) (x : α) :
    add start push joins gs x = gs ++ [start x] ∨
    ∃ init g, gs = init ++ [g] ∧ joins g x = true ∧
      add start push joins gs x = init ++ [push g x] := by
  unfold add
  cases hlast : gs.getLast? with
  | none =>
    rw [List.getLast?_eq_none_iff.mp hlast]
    exact .inl rfl
  | some g =>
    dsimp only
    by_cases hjoins : joins g x = true
    · rw [if_pos hjoins]
      obtain ⟨init, rfl⟩ := List.getLast?_eq_some_iff.mp hlast
      rw [List.dropLast_concat]
      exact .inr ⟨init, g, rfl, hjoins, rfl⟩
    · rw [if_neg hjoins]
      exact .inl rfl

section
variable {start push joins} {elems : γ → List α} {R : α → α → Prop} {P : γ → Prop}
  (hstart : ∀ x, elems (start x) = [x])
  (hpush : ∀ g x, P g → (∀ y ∈ elems g, R y x) → joins g x = true →
    elems (push g x) = elems g ++ [x] ∧ P (push g x))

include hstart hpush

theorem add_spec {gs : List γ} {x : α} (hP : ∀ g ∈ gs, P g) (hx : P (start x))
    (hR : ∀ y ∈ gs.flatMap elems, R y x) :
    (add start push joins gs x).flatMap elems = gs.flatMap elems ++ [x] ∧
      ∀ g ∈ add start push joins gs x, P g := by
  rcases add_cases start push joins gs x with hadd | ⟨init, g, rfl, hjoins, hadd⟩
  · rw [hadd, List.flatMap_append, List.flatMap_singleton, hstart]
    refine ⟨rfl, fun g hg => ?_⟩
    rcases List.mem_append.mp hg with hg | hg
    · exact hP g hg
    · rwa [List.mem_singleton.mp hg]
  · have hlast : ∀ y ∈ elems g, R y x := by
      intro y hy
      exact hR y (List.mem_flatMap.mpr ⟨g, List.mem_append_right _ (List.mem_singleton_self g), hy⟩)
    obtain ⟨helems, hPg⟩ := hpush g x
      (hP g (List.mem_append_right _ (List.mem_singleton_self g))) hlast hjoins
    rw [hadd, List.flatMap_append, List.flatMap_append, List.flatMap_singleton,
      List.flatMap_singleton, helems, List.append_assoc]
    refine ⟨rfl, fun g' hg' => ?_⟩
    rcases List.mem_append.mp hg' with hg' | hg'
    · exact hP g' (List.mem_append_left _ hg')
    · rwa [List.mem_singleton.mp hg']

theorem foldl_add_spec {xs : List α} {gs : List γ} (hP : ∀ g ∈ gs, P g)
    (hx : ∀ x ∈ xs, P (start x)) (hR : (gs.flatMap elems ++ xs).Pairwise R) :
    (xs.foldl (add start push joins) gs).flatMap elems = gs.flatMap elems ++ xs ∧
      ∀ g ∈ xs.foldl (add start push joins) gs, P g := by
  induction xs generalizing gs with
  | nil => exact ⟨(List.append_nil _).symm, hP⟩
  | cons x xs ih =>
    have hbefore : ∀ y ∈ gs.flatMap elems, R y x := fun y hy =>
      (List.pairwise_append.mp hR).2.2 y hy x List.mem_cons_self
    obtain ⟨helems, hP'⟩ := add_spec hstart hpush hP (hx x List.mem_cons_self) hbefore
    rw [List.foldl_cons]
    have hsplit : gs.flatMap elems ++ x :: xs =
        (add start push joins gs x).flatMap elems ++ xs := by
      rw [helems, List.append_assoc, List.singleton_append]
    rw [hsplit] at hR ⊢
    exact ih hP' (fun y hy => hx y (List.mem_cons_of_mem x hy)) hR

/-- The groups hold all elements in order. -/
theorem collect_spec {xs : List α} (hx : ∀ x ∈ xs, P (start x)) (hR : xs.Pairwise R) :
    (collect start push joins xs).flatMap elems = xs ∧
      ∀ g ∈ collect start push joins xs, P g := by
  have hnone : ∀ g ∈ ([] : List γ), P g := fun _ h => absurd h List.not_mem_nil
  have h := foldl_add_spec hstart hpush hnone hx hR
  rwa [List.flatMap_nil, List.nil_append] at h

end

/-! ## Groups of one element -/

section
variable {start push joins}

theorem add_of_not_joins {gs : List γ} {x : α}
    (h : ∀ g, gs.getLast? = some g → joins g x = false) :
    add start push joins gs x = gs ++ [start x] := by
  rcases add_cases start push joins gs x with hadd | ⟨init, g, rfl, hjoins, -⟩
  · exact hadd
  · rw [h g List.getLast?_concat] at hjoins
    cases hjoins

theorem add_concat {init : List γ} {g : γ} {x : α} (h : joins g x = true) :
    add start push joins (init ++ [g]) x = init ++ [push g x] := by
  unfold add
  rw [List.getLast?_concat, List.dropLast_concat]
  exact if_pos h

theorem collect_concat (xs : List α) (x : α) :
    collect start push joins (xs ++ [x]) =
      add start push joins (collect start push joins xs) x := by
  rw [collect, List.foldl_append]
  rfl

/-- Only the last group is open. -/
theorem foldl_add_closed (init : List γ) (g : γ) (xs : List α) :
    ∃ rest, xs.foldl (add start push joins) (init ++ [g]) = init ++ rest := by
  induction xs generalizing init g with
  | nil => exact ⟨[g], rfl⟩
  | cons x xs ih =>
    rw [List.foldl_cons]
    rcases add_cases start push joins (init ++ [g]) x with hadd | ⟨init', g', heq, -, hadd⟩
    · obtain ⟨rest, hrest⟩ := ih (init ++ [g]) (start x)
      exact ⟨g :: rest, by rw [hadd, hrest, List.append_assoc, List.singleton_append]⟩
    · obtain ⟨rfl, -⟩ := List.append_inj' heq rfl
      obtain ⟨rest, hrest⟩ := ih init (push g' x)
      exact ⟨rest, by rw [hadd, hrest]⟩

variable (start push joins)

/-- The last element of the list starts a group. -/
def Starts (xs : List α) (x : α) : Prop :=
  ∃ pre, xs = pre ++ [x] ∧
    ∀ g, (collect start push joins pre).getLast? = some g → joins g x = false

/-- The element starts a group that the next one does not join. -/
def Closed (xs : List α) (x : α) : Prop :=
  ∃ pre y post, xs = pre ++ y :: post ∧ Starts start push joins pre x ∧ joins (start x) y = false

/-- The element has a group of its own. -/
def Alone (xs : List α) (x : α) : Prop :=
  Starts start push joins xs x ∨ Closed start push joins xs x

variable {start push joins}

theorem Starts.collect_eq {xs : List α} {x : α} (h : Starts start push joins xs x) :
    ∃ init, collect start push joins xs = init ++ [start x] := by
  obtain ⟨pre, rfl, hstart⟩ := h
  exact ⟨_, by rw [collect_concat, add_of_not_joins hstart]⟩

theorem Alone.mem_collect {xs : List α} {x : α} (h : Alone start push joins xs x) :
    start x ∈ collect start push joins xs := by
  rcases h with h | ⟨pre, y, post, rfl, h, hnext⟩
  · obtain ⟨init, hinit⟩ := h.collect_eq
    rw [hinit]
    simp
  · obtain ⟨init, hinit⟩ := h.collect_eq
    have hadd : add start push joins (init ++ [start x]) y = init ++ [start x] ++ [start y] := by
      refine add_of_not_joins fun g hg => ?_
      rw [List.getLast?_concat] at hg
      rw [← Option.some.inj hg]
      exact hnext
    obtain ⟨rest, hrest⟩ : ∃ rest, post.foldl (add start push joins)
        (init ++ [start x] ++ [start y]) = init ++ [start x] ++ rest :=
      foldl_add_closed (init ++ [start x]) (start y) post
    rw [collect, List.foldl_append, ← collect, hinit, List.foldl_cons, hadd, hrest]
    simp

theorem Closed.concat {xs : List α} {x : α} (h : Closed start push joins xs x) (y : α) :
    Closed start push joins (xs ++ [y]) x := by
  obtain ⟨pre, z, post, rfl, hstart, hnext⟩ := h
  exact ⟨pre, z, post ++ [y], by rw [List.append_assoc]; rfl, hstart, hnext⟩

/-- A group has one element, or an element has joined it last. -/
theorem collect_cases {xs : List α} {init : List γ} {g : γ}
    (h : collect start push joins xs = init ++ [g]) :
    (∀ g' ∈ init, (∃ x, Closed start push joins xs x ∧ g' = start x) ∨
      ∃ g'' x, joins g'' x = true ∧ g' = push g'' x) ∧
    ((∃ x, Starts start push joins xs x ∧ g = start x) ∨
      ∃ g' x, joins g' x = true ∧ g = push g' x) := by
  induction xs using List.reverseRecOn generalizing init g with
  | nil => exact absurd h.symm (by simp [collect])
  | append_singleton xs y ih =>
    rw [collect_concat] at h
    by_cases hjoins : ∀ g', (collect start push joins xs).getLast? = some g' → joins g' y = false
    · rw [add_of_not_joins hjoins] at h
      obtain ⟨hinit, hg⟩ := List.append_inj' h rfl
      obtain rfl := List.cons.inj hg |>.1
      refine ⟨fun g' hg' => ?_, .inl ⟨y, ⟨xs, rfl, hjoins⟩, rfl⟩⟩
      obtain ⟨init', last, hlast⟩ := List.eq_nil_or_concat' init |>.resolve_left
        (List.ne_nil_of_mem hg')
      obtain ⟨hclosed, hopen⟩ := ih (hinit.trans hlast)
      rw [hlast] at hg'
      rcases List.mem_append.mp hg' with hg' | hg'
      · rcases hclosed g' hg' with ⟨x, hx, heq⟩ | hpush
        · exact .inl ⟨x, hx.concat y, heq⟩
        · exact .inr hpush
      · obtain rfl := List.mem_singleton.mp hg'
        rcases hopen with ⟨x, hx, rfl⟩ | hpush
        · have hlast' : (collect start push joins xs).getLast? = some (start x) := by
            rw [hinit, hlast, List.getLast?_concat]
          exact .inl ⟨x, ⟨xs, y, [], rfl, hx, hjoins _ hlast'⟩, rfl⟩
        · exact .inr hpush
    · simp only [not_forall, Bool.not_eq_false] at hjoins
      obtain ⟨g', hlast, hjoin⟩ := hjoins
      obtain ⟨init', heq⟩ := List.getLast?_eq_some_iff.mp hlast
      rw [heq, add_concat hjoin] at h
      obtain ⟨rfl, hg⟩ := List.append_inj' h rfl
      obtain rfl := List.cons.inj hg |>.1
      refine ⟨fun g'' hg'' => ?_, .inr ⟨g', y, hjoin, rfl⟩⟩
      rcases (ih heq).1 g'' hg'' with ⟨x, hx, heq⟩ | hpush
      · exact .inl ⟨x, hx.concat y, heq⟩
      · exact .inr hpush

/-- What an element that joins a group makes true holds of all groups if it holds of those of one
element. -/
theorem forall_collect_iff {P : γ → Prop} (hpush : ∀ g x, joins g x = true → P (push g x))
    (xs : List α) :
    (∀ g ∈ collect start push joins xs, P g) ↔
      ∀ x, Alone start push joins xs x → P (start x) := by
  constructor
  · intro h x hx
    exact h _ hx.mem_collect
  · intro h g hg
    obtain ⟨init, last, hlast⟩ := List.eq_nil_or_concat' _ |>.resolve_left (List.ne_nil_of_mem hg)
    obtain ⟨hinit, hopen⟩ := collect_cases hlast
    rw [hlast] at hg
    rcases List.mem_append.mp hg with hg | hg
    · rcases hinit g hg with ⟨x, hx, rfl⟩ | ⟨g', x, hjoin, rfl⟩
      · exact h x (.inr hx)
      · exact hpush g' x hjoin
    · obtain rfl := List.mem_singleton.mp hg
      rcases hopen with ⟨x, hx, rfl⟩ | ⟨g', x, hjoin, rfl⟩
      · exact h x (.inl hx)
      · exact hpush g' x hjoin

end

/-- A pass that sends every element to one of two states does each with its own elements. -/
theorem foldl_split {β δ : Type} (p : α → Bool) (f : β → α → β) (g : δ → α → δ) (xs : List α)
    (b : β) (d : δ) :
    xs.foldl (fun st x => if p x then (f st.1 x, st.2) else (st.1, g st.2 x)) (b, d) =
      ((xs.filter p).foldl f b, (xs.filter fun x => !p x).foldl g d) := by
  induction xs generalizing b d with
  | nil => rfl
  | cons x xs ih =>
    rw [List.foldl_cons]
    cases hp : p x with
    | true =>
      rw [if_pos rfl, ih, List.filter_cons_of_pos hp,
        List.filter_cons_of_neg (by rw [hp]; decide), List.foldl_cons]
    | false =>
      rw [if_neg Bool.false_ne_true, ih, List.filter_cons_of_neg (by rw [hp]; decide),
        List.filter_cons_of_pos (by rw [hp]; decide), List.foldl_cons]

end Groups
