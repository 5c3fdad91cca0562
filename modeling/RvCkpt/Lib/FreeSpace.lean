import Mathlib.Algebra.GroupWithZero.Nat
import Mathlib.Data.List.Pairwise
import Mathlib.Tactic.Common
import Mathlib.Data.Nat.Basic

/-! # Handing out space

Blocks cut off the ends of free ranges. The ranges are ascending; what has been handed out, what
was in use before and what is still free never meet, whatever is cut off.
-/

namespace FreeSpace
set_option autoImplicit false

/-- A block of `size` addresses from `start` on. -/
structure Block where
  start : ℕ
  size : ℕ
  deriving DecidableEq, Repr

namespace Block

def Has (b : Block) (a : ℕ) : Prop := b.start ≤ a ∧ a < b.start + b.size

def Apart (b c : Block) : Prop := ∀ a, b.Has a → ¬ c.Has a

theorem Apart.symm {b c : Block} (h : b.Apart c) : c.Apart b := fun a hc hb => h a hb hc

theorem apart_of_before {b c : Block} (h : b.start + b.size ≤ c.start) : b.Apart c := by
  intro a hb hc
  exact absurd (Nat.lt_of_lt_of_le hb.2 h) (Nat.not_lt.mpr hc.1)

/-- Two blocks of the same positive size that share no address are a whole block apart. -/
theorem apart_iff {b c : Block} {size : ℕ} (hb : b.size = size) (hc : c.size = size)
    (hpos : 0 < size) : b.Apart c ↔ b.start + size ≤ c.start ∨ c.start + size ≤ b.start := by
  constructor
  · intro h
    by_contra hmeet
    rcases Nat.le_total b.start c.start with hle | hle
    · exact h c.start ⟨hle, by omega⟩ ⟨le_rfl, by omega⟩
    · exact h b.start ⟨le_rfl, by omega⟩ ⟨hle, by omega⟩
  · intro h
    rcases h with h | h
    · exact apart_of_before (by omega)
    · exact (apart_of_before (by omega)).symm

/-- Blocks of the given sizes, one behind the other. -/
def row : ℕ → List ℕ → List Block
  | _, [] => []
  | start, size :: sizes => ⟨start, size⟩ :: row (start + size) sizes

theorem row_bounds {start : ℕ} {sizes : List ℕ} {b : Block} (h : b ∈ row start sizes) :
    start ≤ b.start ∧ b.start + b.size ≤ start + sizes.sum := by
  induction sizes generalizing start with
  | nil => cases h
  | cons size sizes ih =>
    rw [List.sum_cons]
    rcases List.mem_cons.mp h with rfl | h
    · exact ⟨Nat.le_refl _, by simp only; omega⟩
    · have hrest := ih h
      omega

theorem row_apart (start : ℕ) (sizes : List ℕ) : (row start sizes).Pairwise Apart := by
  induction sizes generalizing start with
  | nil => exact List.Pairwise.nil
  | cons size sizes ih =>
    refine List.pairwise_cons.mpr ⟨fun b hb => ?_, ih (start + size)⟩
    exact apart_of_before (row_bounds hb).1

end Block

open Block

/-- The free ranges and the blocks handed out, over the addresses `U` in use before. -/
structure Alloc (U : ℕ → Prop) (ranges : List (ℕ × ℕ)) (given : List Block) : Prop where
  free : ∀ r ∈ ranges, ∀ a, r.1 ≤ a → a < r.2 → ¬ U a ∧ ∀ b ∈ given, ¬ b.Has a
  ascending : ranges.Pairwise fun r s => r.2 ≤ s.1
  fresh : ∀ b ∈ given, ∀ a, b.Has a → ¬ U a
  apart : given.Pairwise Apart

theorem Alloc.start {U : ℕ → Prop} {ranges : List (ℕ × ℕ)}
    (hfree : ∀ r ∈ ranges, ∀ a, r.1 ≤ a → a < r.2 → ¬ U a)
    (hasc : ranges.Pairwise fun r s => r.2 ≤ s.1) : Alloc U ranges [] := by
  refine ⟨?_, hasc, ?_, List.Pairwise.nil⟩
  · intro r hr a hlo hhi
    refine ⟨hfree r hr a hlo hhi, ?_⟩
    intro b hb
    cases hb
  · intro b hb
    cases hb

/-- An address that a range holds is in no other range. -/
theorem ranges_unique {ranges : List (ℕ × ℕ)} (hasc : ranges.Pairwise fun r s => r.2 ≤ s.1)
    {i j : ℕ} {r s : ℕ × ℕ} (hi : ranges[i]? = some r) (hj : ranges[j]? = some s) {a : ℕ}
    (hr : r.1 ≤ a ∧ a < r.2) (hs : s.1 ≤ a ∧ a < s.2) : i = j := by
  obtain ⟨hilt, hri⟩ := List.getElem?_eq_some_iff.mp hi
  obtain ⟨hjlt, hsj⟩ := List.getElem?_eq_some_iff.mp hj
  have hsorted := List.pairwise_iff_getElem.mp hasc
  rcases Nat.lt_trichotomy i j with hlt | heq | hlt
  · have := hsorted i j hilt hjlt hlt
    rw [hri, hsj] at this
    omega
  · exact heq
  · have := hsorted j i hjlt hilt hlt
    rw [hri, hsj] at this
    omega

/-- A range may shrink. -/
theorem ascending_set {ranges : List (ℕ × ℕ)} (hasc : ranges.Pairwise fun r s => r.2 ≤ s.1)
    {i first last first' last' : ℕ} (hi : ranges[i]? = some (first, last)) (hlo : first ≤ first')
    (hhi : last' ≤ last) :
    (ranges.set i (first', last')).Pairwise fun r s => r.2 ≤ s.1 := by
  obtain ⟨hilt, hri⟩ := List.getElem?_eq_some_iff.mp hi
  have hsorted := List.pairwise_iff_getElem.mp hasc
  rw [List.pairwise_iff_getElem]
  intro j k hj hk hjk
  rw [List.length_set] at hj hk
  have hjk' := hsorted j k hj hk hjk
  rw [List.getElem_set, List.getElem_set]
  by_cases hij : i = j
  · subst hij
    rw [if_pos rfl, if_neg (by omega)]
    rw [hri] at hjk'
    exact Nat.le_trans hhi hjk'
  · rw [if_neg hij]
    by_cases hik : i = k
    · subst hik
      rw [if_pos rfl]
      rw [hri] at hjk'
      exact Nat.le_trans hjk' hlo
    · rw [if_neg hik]
      exact hjk'

/-- A block is cut off one end of a range. -/
theorem Alloc.cut {U : ℕ → Prop} {ranges : List (ℕ × ℕ)} {given : List Block}
    (h : Alloc U ranges given) {i first last first' last' addr size : ℕ}
    (hi : ranges[i]? = some (first, last)) (hlo : first ≤ first') (hhi : last' ≤ last)
    (hstart : first ≤ addr) (hend : addr + size ≤ last)
    (hside : addr + size ≤ first' ∨ last' ≤ addr) :
    Alloc U (ranges.set i (first', last')) (given ++ [⟨addr, size⟩]) := by
  have hmem : (first, last) ∈ ranges := List.mem_of_getElem? hi
  have hold : ∀ a, (⟨addr, size⟩ : Block).Has a →
      ¬ U a ∧ ∀ b ∈ given, ¬ b.Has a := by
    intro a ha
    exact h.free _ hmem a (Nat.le_trans hstart ha.1) (Nat.lt_of_lt_of_le ha.2 hend)
  refine ⟨?_, ascending_set h.ascending hi hlo hhi, ?_, ?_⟩
  · intro r hr a hra hra'
    obtain ⟨j, hj, rfl⟩ := List.getElem_of_mem hr
    rw [List.getElem_set] at hra hra'
    rw [List.length_set] at hj
    -- the address was free before, and the new block lies outside what is left of its range
    have hout : (¬ U a ∧ ∀ b ∈ given, ¬ b.Has a) ∧ ¬ (⟨addr, size⟩ : Block).Has a := by
      by_cases hij : i = j
      · rw [if_pos hij] at hra hra'
        refine ⟨h.free _ hmem a (Nat.le_trans hlo hra) (Nat.lt_of_lt_of_le hra' hhi), ?_⟩
        intro hnew
        have hlow : addr ≤ a := hnew.1
        have hhigh : a < addr + size := hnew.2
        rcases hside with hside | hside
        · exact absurd (Nat.lt_of_lt_of_le hhigh hside) (Nat.not_lt.mpr hra)
        · exact absurd (Nat.lt_of_lt_of_le hra' hside) (Nat.not_lt.mpr hlow)
      · rw [if_neg hij] at hra hra'
        refine ⟨h.free _ (List.getElem_mem hj) a hra hra', ?_⟩
        intro hnew
        exact hij (ranges_unique h.ascending hi (List.getElem?_eq_getElem hj)
          ⟨Nat.le_trans hstart hnew.1, Nat.lt_of_lt_of_le hnew.2 hend⟩ ⟨hra, hra'⟩)
    refine ⟨hout.1.1, ?_⟩
    intro b hb
    rcases List.mem_append.mp hb with hb | hb
    · exact hout.1.2 b hb
    · rw [List.mem_singleton.mp hb]
      exact hout.2
  · intro b hb a ha
    rcases List.mem_append.mp hb with hb | hb
    · exact h.fresh b hb a ha
    · rw [List.mem_singleton.mp hb] at ha
      exact (hold a ha).1
  · refine List.pairwise_append.mpr ⟨h.apart, List.pairwise_singleton _ _, ?_⟩
    intro b hb c hc a hba hca
    rw [List.mem_singleton.mp hc] at hca
    exact (hold a hca).2 b hb hba

end FreeSpace
