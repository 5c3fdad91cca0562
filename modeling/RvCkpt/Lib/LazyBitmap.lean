import Mathlib.Data.Nat.Notation
import Mathlib.Logic.Function.Basic
import Mathlib.Tactic.Common

/-! # Lazily allocated bitmaps

A bitmap over the numbers in blocks of `fan` bits, allocated when they are needed, `group` blocks
at a time. The bits of two further levels say which blocks of the level below there are; a bit
counts only below bits that are set, and an allocation clears the blocks that it allocates.
-/

namespace LazyBitmap
set_option autoImplicit false

structure Levels where
  l3 : ℕ → Bool
  l2 : ℕ → Bool
  l1 : ℕ → Bool

namespace Levels

section
variable (fan group : ℕ) (L : Levels) (n : ℕ)

def present : Bool := L.l3 (n / fan / fan) && L.l2 (n / fan) && L.l1 n

/-- The block of the second level for `n` is there. -/
def reify2 : Levels :=
  if L.l3 (n / fan / fan) then L
  else
    { L with
      l3 := fun k => decide (k / group = n / fan / fan / group) || L.l3 k
      l2 := fun j => !decide (j / fan / group = n / fan / fan / group) && L.l2 j }

/-- The block of the first level for `n` is there. -/
def reify1 : Levels :=
  if L.l2 (n / fan) then L
  else
    { L with
      l2 := fun j => decide (j / group = n / fan / group) || L.l2 j
      l1 := fun i => !decide (i / fan / group = n / fan / group) && L.l1 i }

def reify : Levels := (L.reify2 fan group n).reify1 fan group n

def set (v : Bool) : Levels := { L with l1 := Function.update L.l1 n v }

/-- Blocks that are allocated at a time are there at a time. -/
structure Grouped : Prop where
  l3 : ∀ k k', k / group = k' / group → L.l3 k = L.l3 k'
  l2 : ∀ j j', L.l3 (j / fan) = true → j / group = j' / group → L.l2 j = L.l2 j'

end

section
variable {fan group : ℕ} {L : Levels}

theorem Grouped.set (h : Grouped fan group L) (n : ℕ) (v : Bool) :
    Grouped fan group (L.set n v) :=
  ⟨h.l3, h.l2⟩

theorem block_eq (hdvd : group ∣ fan) {j j' : ℕ} (h : j / group = j' / group) :
    j / fan = j' / fan := by
  obtain ⟨q, hq⟩ := hdvd
  rw [hq, ← Nat.div_div_eq_div_mul, ← Nat.div_div_eq_div_mul, h]

theorem Grouped.reify2 (hdvd : group ∣ fan) (h : Grouped fan group L) (n : ℕ) :
    Grouped fan group (L.reify2 fan group n) := by
  unfold Levels.reify2
  split
  · exact h
  · refine ⟨fun k k' hk => ?_, fun j j' hl3 hj => ?_⟩
    · simp only [h.l3 k k' hk, hk]
    · simp only [block_eq hdvd hj] at hl3 ⊢
      by_cases hnew : j' / fan / group = n / fan / fan / group
      · simp [hnew]
      · have hold : L.l3 (j / fan) = true := by simpa [hnew, block_eq hdvd hj] using hl3
        simp [h.l2 j j' hold hj]

theorem Grouped.reify1 (h : Grouped fan group L) (n : ℕ) :
    Grouped fan group (L.reify1 fan group n) := by
  unfold Levels.reify1
  split
  · exact h
  · refine ⟨h.l3, fun j j' hl3 hj => ?_⟩
    simp only [h.l2 j j' hl3 hj, hj]

theorem Grouped.reify (hdvd : group ∣ fan) (h : Grouped fan group L) (n : ℕ) :
    Grouped fan group (L.reify fan group n) :=
  (h.reify2 hdvd n).reify1 n

theorem present_reify2 (h : Grouped fan group L) (n i : ℕ) :
    (L.reify2 fan group n).present fan i = L.present fan i := by
  unfold Levels.reify2
  split
  · rfl
  · rename_i hnot
    by_cases hi : i / fan / fan / group = n / fan / fan / group
    · have hl3 : L.l3 (i / fan / fan) = false := by
        rw [h.l3 _ _ hi]
        exact Bool.eq_false_iff.mpr hnot
      simp [present, hi, hl3]
    · simp [present, hi]

theorem present_reify1 (h : Grouped fan group L) (n i : ℕ) :
    (L.reify1 fan group n).present fan i = L.present fan i := by
  unfold Levels.reify1
  split
  · rfl
  · rename_i hnot
    by_cases hi : i / fan / group = n / fan / group
    · cases hl3 : L.l3 (i / fan / fan) with
      | false => simp [present, hl3]
      | true =>
        have hl2 : L.l2 (i / fan) = false := by
          rw [h.l2 _ _ hl3 hi]
          exact Bool.eq_false_iff.mpr hnot
        simp [present, hi, hl2]
    · simp [present, hi]

theorem present_reify (hdvd : group ∣ fan) (h : Grouped fan group L) (n i : ℕ) :
    (L.reify fan group n).present fan i = L.present fan i := by
  rw [reify, present_reify1 (h.reify2 hdvd n), present_reify2 h]

theorem l3_reify2 (L : Levels) (n : ℕ) : (L.reify2 fan group n).l3 (n / fan / fan) = true := by
  unfold Levels.reify2
  split
  · assumption
  · simp

theorem l2_reify1 (L : Levels) (n : ℕ) : (L.reify1 fan group n).l2 (n / fan) = true := by
  unfold Levels.reify1
  split
  · assumption
  · simp

theorem l3_reify1 (L : Levels) (n : ℕ) : (L.reify1 fan group n).l3 = L.l3 := by
  unfold Levels.reify1
  split <;> rfl

/-- A bit is set where its blocks are there. -/
theorem present_set_reify (hdvd : group ∣ fan) (h : Grouped fan group L) (n i : ℕ) (v : Bool) :
    ((L.reify fan group n).set n v).present fan i =
      if i = n then v else L.present fan i := by
  by_cases hi : i = n
  · subst hi
    have hl3 : (L.reify fan group i).l3 (i / fan / fan) = true := by
      rw [reify, l3_reify1]
      exact l3_reify2 L i
    have hl2 : (L.reify fan group i).l2 (i / fan) = true := l2_reify1 _ i
    simp [present, set, hl3, hl2]
  · rw [if_neg hi, ← present_reify hdvd h n i]
    simp [present, set, Function.update_of_ne hi]

end

end Levels

end LazyBitmap
