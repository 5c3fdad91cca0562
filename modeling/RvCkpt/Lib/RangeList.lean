import RvCkpt.Lib.FreeSpace

/-! # Sorted ranges

Lists of half-open ranges in ascending order: what they cover, which of them are near an address,
and what is left when a block is cut out of one of them.
-/

namespace RangeList
open FreeSpace
set_option autoImplicit false

structure Sorted (ranges : List (ℕ × ℕ)) : Prop where
  proper : ∀ r ∈ ranges, r.1 ≤ r.2
  ascending : ranges.Pairwise fun r s => r.2 ≤ s.1

def Covers (ranges : List (ℕ × ℕ)) (a : ℕ) : Prop := ∃ r ∈ ranges, r.1 ≤ a ∧ a < r.2

/-- The distance of an address from a range: 0 within the range and at its end. -/
def distance (a : ℕ) (r : ℕ × ℕ) : ℕ := (a - r.2) + (r.1 - a)

variable {ranges : List (ℕ × ℕ)} {i j a : ℕ} {r s : ℕ × ℕ}

theorem Sorted.proper_at (h : Sorted ranges) (hi : ranges[i]? = some r) : r.1 ≤ r.2 :=
  h.proper r (List.mem_of_getElem? hi)

theorem Sorted.apart (h : Sorted ranges) (hij : i < j) (hi : ranges[i]? = some r)
    (hj : ranges[j]? = some s) : r.2 ≤ s.1 := by
  obtain ⟨hilt, rfl⟩ := List.getElem?_eq_some_iff.mp hi
  obtain ⟨hjlt, rfl⟩ := List.getElem?_eq_some_iff.mp hj
  exact List.pairwise_iff_getElem.mp h.ascending i j hilt hjlt hij

theorem Sorted.first_le (h : Sorted ranges) (hij : i ≤ j) (hi : ranges[i]? = some r)
    (hj : ranges[j]? = some s) : r.1 ≤ s.1 := by
  obtain hlt | rfl := Nat.lt_or_eq_of_le hij
  · exact Nat.le_trans (h.proper_at hi) (h.apart hlt hi hj)
  · rw [hi] at hj
    rw [Option.some.inj hj]

theorem Sorted.last_le (h : Sorted ranges) (hij : i ≤ j) (hi : ranges[i]? = some r)
    (hj : ranges[j]? = some s) : r.2 ≤ s.2 := by
  obtain hlt | rfl := Nat.lt_or_eq_of_le hij
  · exact Nat.le_trans (h.apart hlt hi hj) (h.proper_at hj)
  · rw [hi] at hj
    rw [Option.some.inj hj]

/-- Of the ranges that begin below an address the higher one is nearer. -/
theorem Sorted.distance_below (h : Sorted ranges) (hij : i ≤ j) (hi : ranges[i]? = some r)
    (hj : ranges[j]? = some s) (ha : s.1 ≤ a) : distance a s ≤ distance a r := by
  have hlast := h.last_le hij hi hj
  simp only [distance]
  omega

/-- Of the ranges that end above an address the lower one is nearer. -/
theorem Sorted.distance_above (h : Sorted ranges) (hij : i ≤ j) (hi : ranges[i]? = some r)
    (hj : ranges[j]? = some s) (ha : a ≤ r.2) : distance a r ≤ distance a s := by
  have hfirst := h.first_le hij hi hj
  simp only [distance]
  omega

theorem Sorted.set (h : Sorted ranges) {first last first' last' : ℕ}
    (hi : ranges[i]? = some (first, last)) (hlo : first ≤ first') (hhi : last' ≤ last)
    (hproper : first' ≤ last') : Sorted (ranges.set i (first', last')) := by
  refine ⟨?_, ascending_set h.ascending hi hlo hhi⟩
  intro r hr
  obtain hr | rfl := List.mem_or_eq_of_mem_set hr
  · exact h.proper r hr
  · exact hproper

/-- A range is cut down to what a block leaves of it. -/
theorem Sorted.covers_set (h : Sorted ranges) {addr size : ℕ} (hi : ranges[i]? = some r)
    (hlo : r.1 ≤ addr) (hhi : addr + size ≤ r.2)
    (hcut : ∀ x, (s.1 ≤ x ∧ x < s.2) ↔ (r.1 ≤ x ∧ x < r.2) ∧ ¬ (addr ≤ x ∧ x < addr + size))
    (x : ℕ) :
    Covers (ranges.set i s) x ↔ Covers ranges x ∧ ¬ (addr ≤ x ∧ x < addr + size) := by
  obtain ⟨hilt, hri⟩ := List.getElem?_eq_some_iff.mp hi
  constructor
  · rintro ⟨q, hq, hx⟩
    obtain ⟨j, hj, rfl⟩ := List.getElem_of_mem hq
    rw [List.getElem_set] at hx
    rw [List.length_set] at hj
    by_cases hij : i = j
    · rw [if_pos hij] at hx
      obtain ⟨hold, hout⟩ := (hcut x).mp hx
      exact ⟨⟨r, List.mem_of_getElem? hi, hold⟩, hout⟩
    · rw [if_neg hij] at hx
      refine ⟨⟨_, List.getElem_mem hj, hx⟩, ?_⟩
      intro hblock
      have hin : r.1 ≤ x ∧ x < r.2 := by omega
      exact hij (ranges_unique h.ascending hi (List.getElem?_eq_getElem hj) hin hx)
  · rintro ⟨⟨q, hq, hx⟩, hout⟩
    obtain ⟨j, hj, rfl⟩ := List.getElem_of_mem hq
    by_cases hij : i = j
    · subst hij
      rw [hri] at hx
      exact ⟨s, List.mem_set hilt s, (hcut x).mpr ⟨hx, hout⟩⟩
    · have hget : (ranges.set i s)[j]? = some ranges[j] := by
        rw [List.getElem?_set_ne hij, List.getElem?_eq_getElem hj]
      exact ⟨_, List.mem_of_getElem? hget, hx⟩

end RangeList
