import RvCkpt.Lib.OrderedMap
import Mathlib.Data.Set.Finite.Lemmas
import Mathlib.Data.Set.Finite.List
import Mathlib.Order.Bounds.Basic

/-! # Nearest keys

The greatest and the least element of a set of keys, two sets that have the same one, and the
entries of an ordered map that are the first or the last to pass a test.
-/

set_option autoImplicit false

namespace Nearest

section Sets
variable {α : Type} [LinearOrder α] {s t : Set α}

theorem exists_isGreatest (hs : s.Finite) {k : α} (hk : k ∈ s) : ∃ g, IsGreatest s g := by
  obtain ⟨g, hg, hle⟩ := Set.exists_max_image s id hs ⟨k, hk⟩
  exact ⟨g, hg, fun k' hk' => hle k' hk'⟩

/-- Two finite sets have the same greatest element where that of the first is in the second, and
what else the second has lies below. -/
theorem same_greatest_iff (hs : s.Finite) (ht : t.Finite) :
    (∀ k, IsGreatest t k ↔ IsGreatest s k) ↔
      (∀ k, IsGreatest s k → k ∈ t) ∧ ∀ k ∈ t, k ∉ s → ∃ g, IsGreatest s g ∧ k < g := by
  constructor
  · intro h
    refine ⟨fun k hk => ((h k).mpr hk).1, fun k hk hks => ?_⟩
    obtain ⟨g, hg⟩ := exists_isGreatest ht hk
    have hgs := (h g).mp hg
    refine ⟨g, hgs, lt_of_le_of_ne (hg.2 hk) ?_⟩
    rintro rfl
    exact hks hgs.1
  · rintro ⟨hmem, hother⟩ k
    constructor
    · intro hk
      have hks : k ∈ s := by
        by_contra hks
        obtain ⟨g, hg, hlt⟩ := hother k hk.1 hks
        exact absurd (hk.2 (hmem g hg)) (not_le.mpr hlt)
      obtain ⟨g, hg⟩ := exists_isGreatest hs hks
      have heq : g = k := le_antisymm (hk.2 (hmem g hg)) (hg.2 hks)
      rwa [heq] at hg
    · intro hk
      refine ⟨hmem k hk, fun k' hk' => ?_⟩
      by_cases hks : k' ∈ s
      · exact hk.2 hks
      · obtain ⟨g, hg, hlt⟩ := hother k' hk' hks
        exact (hlt.trans_le (hk.2 hg.1)).le

theorem same_least_iff (hs : s.Finite) (ht : t.Finite) :
    (∀ k, IsLeast t k ↔ IsLeast s k) ↔
      (∀ k, IsLeast s k → k ∈ t) ∧ ∀ k ∈ t, k ∉ s → ∃ g, IsLeast s g ∧ g < k :=
  same_greatest_iff (α := αᵒᵈ) hs ht

end Sets

end Nearest

namespace OrderedMap
variable {κ α : Type} [LinearOrder κ] (m : OrderedMap κ α) (p : κ × α → Bool)

/-- The keys of the entries that pass a test. -/
def keysOf : Set κ := {k | ∃ v, (k, v) ∈ m.entries ∧ p (k, v) = true}

/-- The first entry that passes a test has the least key of those. -/
theorem find?_key_eq_some_iff {k : κ} :
    (m.entries.find? p).map Prod.fst = some k ↔ IsLeast (m.keysOf p) k := by
  have hleast : ∀ e, m.entries.find? p = some e → IsLeast (m.keysOf p) e.1 := by
    intro e he
    obtain ⟨hmem, hp, hfirst⟩ := m.find?_spec he
    refine ⟨⟨e.2, hmem, hp⟩, ?_⟩
    rintro k' ⟨v', hmem', hp'⟩
    exact hfirst (k', v') hmem' hp'
  constructor
  · intro h
    obtain ⟨e, he, rfl⟩ := Option.map_eq_some_iff.mp h
    exact hleast e he
  · intro hk
    obtain ⟨v, hmem, hp⟩ := hk.1
    cases hfind : m.entries.find? p with
    | none => exact absurd hp (List.find?_eq_none.mp hfind (k, v) hmem)
    | some e => exact congrArg some ((hleast e hfind).unique hk)

/-- The last entry that passes a test has the greatest key of those. -/
theorem getLast?_key_eq_some_iff {k : κ} :
    (m.entries.filter p).getLast?.map Prod.fst = some k ↔ IsGreatest (m.keysOf p) k := by
  have hgreatest : ∀ e, (m.entries.filter p).getLast? = some e → IsGreatest (m.keysOf p) e.1 := by
    intro e he
    obtain ⟨hmem, hp, hlast⟩ := m.getLast?_spec he
    refine ⟨⟨e.2, hmem, hp⟩, ?_⟩
    rintro k' ⟨v', hmem', hp'⟩
    exact hlast (k', v') hmem' hp'
  constructor
  · intro h
    obtain ⟨e, he, rfl⟩ := Option.map_eq_some_iff.mp h
    exact hgreatest e he
  · intro hk
    obtain ⟨v, hmem, hp⟩ := hk.1
    cases hlast : (m.entries.filter p).getLast? with
    | none =>
      have hnil := List.getLast?_eq_none_iff.mp hlast
      exact absurd (List.mem_filter.mpr ⟨hmem, hp⟩) (hnil ▸ List.not_mem_nil)
    | some e => exact congrArg some ((hgreatest e hlast).unique hk)

end OrderedMap
