import Mathlib.Data.Nat.Notation
import Mathlib.Order.Lattice
import Mathlib.Data.List.Pairwise
import Mathlib.Tactic.Common

/-! # Ordered maps

A map over a linear order as its entries in the order of the keys, each key once. Bounds and scans
go over the entries in that order.
-/

set_option autoImplicit false

structure OrderedMap (κ α : Type) [LinearOrder κ] where
  entries : List (κ × α)
  sorted : entries.Pairwise fun a b => a.1 < b.1

namespace OrderedMap
variable {κ α : Type} [LinearOrder κ]

def empty : OrderedMap κ α := ⟨[], .nil⟩

/-- The value of a key. -/
def get? (m : OrderedMap κ α) (k : κ) : Option α :=
  (m.entries.find? fun e => e.1 = k).map Prod.snd

/-- The entries before a key, and those after it. -/
def below (m : OrderedMap κ α) (k : κ) : List (κ × α) := m.entries.filter fun e => e.1 < k

def above (m : OrderedMap κ α) (k : κ) : List (κ × α) := m.entries.filter fun e => k < e.1

theorem sorted_insert (m : OrderedMap κ α) (k : κ) (v : α) :
    (m.below k ++ (k, v) :: m.above k).Pairwise fun a b => a.1 < b.1 := by
  have hbelow : ∀ e ∈ m.below k, e.1 < k := fun e he => of_decide_eq_true (List.mem_filter.mp he).2
  have habove : ∀ e ∈ m.above k, k < e.1 := fun e he => of_decide_eq_true (List.mem_filter.mp he).2
  refine List.pairwise_append.mpr ⟨m.sorted.filter _, List.pairwise_cons.mpr
    ⟨habove, m.sorted.filter _⟩, fun a ha b hb => ?_⟩
  rcases List.mem_cons.mp hb with rfl | hb
  · exact hbelow a ha
  · exact lt_trans (hbelow a ha) (habove b hb)

/-- The key has the value, whether it had one before or not. -/
def insert (m : OrderedMap κ α) (k : κ) (v : α) : OrderedMap κ α :=
  ⟨m.below k ++ (k, v) :: m.above k, m.sorted_insert k v⟩

def erase (m : OrderedMap κ α) (k : κ) : OrderedMap κ α :=
  ⟨m.entries.filter fun e => e.1 ≠ k, m.sorted.filter _⟩

/-- The first entry from a key on. -/
def lower_bound (m : OrderedMap κ α) (k : κ) : Option (κ × α) :=
  m.entries.find? fun e => k ≤ e.1

/-- The last entry before a key. -/
def before (m : OrderedMap κ α) (k : κ) : Option (κ × α) := (m.below k).getLast?

/-! ## Entries -/

theorem key_unique_of_sorted {entries : List (κ × α)}
    (hsorted : entries.Pairwise fun a b => a.1 < b.1) {a b : κ × α} (ha : a ∈ entries)
    (hb : b ∈ entries) (h : a.1 = b.1) : a = b := by
  induction entries with
  | nil => cases ha
  | cons e entries ih =>
    obtain ⟨hfirst, hrest⟩ := List.pairwise_cons.mp hsorted
    rcases List.mem_cons.mp ha with rfl | ha'
    · rcases List.mem_cons.mp hb with rfl | hb'
      · rfl
      · exact absurd h (hfirst b hb').ne
    · rcases List.mem_cons.mp hb with rfl | hb'
      · exact absurd h.symm (hfirst a ha').ne
      · exact ih hrest ha' hb'

theorem get?_eq_some_iff (m : OrderedMap κ α) {k : κ} {v : α} :
    m.get? k = some v ↔ (k, v) ∈ m.entries := by
  rw [get?, Option.map_eq_some_iff]
  constructor
  · rintro ⟨e, hfind, rfl⟩
    have hkey : e.1 = k := by simpa using List.find?_some hfind
    rw [← hkey]
    exact List.mem_of_find?_eq_some hfind
  · intro hmem
    cases hfind : m.entries.find? fun e => e.1 = k with
    | none => exact absurd (by simp) (List.find?_eq_none.mp hfind (k, v) hmem)
    | some e =>
      have hkey : e.1 = k := by simpa using List.find?_some hfind
      have heq := key_unique_of_sorted m.sorted (List.mem_of_find?_eq_some hfind) hmem hkey
      exact ⟨e, rfl, congrArg Prod.snd heq⟩

theorem mem_below (m : OrderedMap κ α) {k : κ} {e : κ × α} :
    e ∈ m.below k ↔ e ∈ m.entries ∧ e.1 < k := by
  simp [below]

theorem mem_above (m : OrderedMap κ α) {k : κ} {e : κ × α} :
    e ∈ m.above k ↔ e ∈ m.entries ∧ k < e.1 := by
  simp [above]

theorem mem_insert (m : OrderedMap κ α) {k : κ} {v : α} {e : κ × α} :
    e ∈ (m.insert k v).entries ↔ e = (k, v) ∨ e ∈ m.entries ∧ e.1 ≠ k := by
  simp only [insert, List.mem_append, List.mem_cons, mem_below, mem_above]
  constructor
  · rintro (⟨hmem, hlt⟩ | heq | ⟨hmem, hlt⟩)
    · exact .inr ⟨hmem, hlt.ne⟩
    · exact .inl heq
    · exact .inr ⟨hmem, hlt.ne'⟩
  · rintro (heq | ⟨hmem, hne⟩)
    · exact .inr (.inl heq)
    · rcases lt_or_gt_of_ne hne with hlt | hgt
      · exact .inl ⟨hmem, hlt⟩
      · exact .inr (.inr ⟨hmem, hgt⟩)

theorem mem_erase (m : OrderedMap κ α) {k : κ} {e : κ × α} :
    e ∈ (m.erase k).entries ↔ e ∈ m.entries ∧ e.1 ≠ k := by
  simp [erase]

/-! ## Values -/

@[simp] theorem get?_empty (k : κ) : (empty : OrderedMap κ α).get? k = none := rfl

theorem get?_insert (m : OrderedMap κ α) (k k' : κ) (v : α) :
    (m.insert k v).get? k' = if k' = k then some v else m.get? k' := by
  ext w
  rw [get?_eq_some_iff, mem_insert]
  split_ifs with h
  · constructor
    · rintro (heq | ⟨-, hne⟩)
      · exact congrArg some (congrArg Prod.snd heq).symm
      · exact absurd h hne
    · intro heq
      cases heq
      exact .inl (by rw [h])
  · rw [get?_eq_some_iff]
    constructor
    · rintro (heq | ⟨hmem, -⟩)
      · exact absurd (congrArg Prod.fst heq) h
      · exact hmem
    · exact fun hmem => .inr ⟨hmem, h⟩

@[simp] theorem get?_insert_self (m : OrderedMap κ α) (k : κ) (v : α) :
    (m.insert k v).get? k = some v := by
  rw [get?_insert, if_pos rfl]

theorem get?_erase (m : OrderedMap κ α) (k k' : κ) :
    (m.erase k).get? k' = if k' = k then none else m.get? k' := by
  ext w
  rw [get?_eq_some_iff, mem_erase]
  split_ifs with h
  · exact iff_of_false (fun hmem => hmem.2 h) (fun hnone => nomatch hnone)
  · rw [get?_eq_some_iff]
    exact ⟨fun hmem => hmem.1, fun hmem => ⟨hmem, h⟩⟩

/-! ## Scans -/

/-- The first entry that passes a test is before all others that do. -/
theorem find?_spec (m : OrderedMap κ α) {p : κ × α → Bool} {e : κ × α}
    (h : m.entries.find? p = some e) :
    e ∈ m.entries ∧ p e = true ∧ ∀ e' ∈ m.entries, p e' = true → e.1 ≤ e'.1 := by
  obtain ⟨hp, first, rest, heq, hbefore⟩ := List.find?_eq_some_iff_append.mp h
  have hsorted := m.sorted
  rw [heq] at hsorted
  obtain ⟨-, hrest, -⟩ := List.pairwise_append.mp hsorted
  refine ⟨by rw [heq]; simp, hp, fun e' he' hp' => ?_⟩
  rw [heq] at he'
  rcases List.mem_append.mp he' with hfirst | hlast
  · have hnot := hbefore e' hfirst
    rw [hp', Bool.not_true] at hnot
    cases hnot
  · rcases List.mem_cons.mp hlast with rfl | hlast
    · exact le_rfl
    · exact ((List.pairwise_cons.mp hrest).1 e' hlast).le

/-- The last entry that passes a test is behind all others that do. -/
theorem getLast?_spec (m : OrderedMap κ α) {p : κ × α → Bool} {e : κ × α}
    (h : (m.entries.filter p).getLast? = some e) :
    e ∈ m.entries ∧ p e = true ∧ ∀ e' ∈ m.entries, p e' = true → e'.1 ≤ e.1 := by
  obtain ⟨first, heq⟩ := List.getLast?_eq_some_iff.mp h
  have hmem : e ∈ m.entries.filter p := by
    rw [heq]
    simp
  have hsorted : (m.entries.filter p).Pairwise fun a b => a.1 < b.1 := m.sorted.filter _
  rw [heq] at hsorted
  refine ⟨(List.mem_filter.mp hmem).1, (List.mem_filter.mp hmem).2, fun e' he' hp' => ?_⟩
  have hpasses : e' ∈ m.entries.filter p := List.mem_filter.mpr ⟨he', hp'⟩
  rw [heq] at hpasses
  rcases List.mem_append.mp hpasses with hfirst | hlast
  · exact ((List.pairwise_append.mp hsorted).2.2 e' hfirst e (by simp)).le
  · rw [List.mem_singleton.mp hlast]

/-! ## Bounds -/

theorem lower_bound_eq_none_iff (m : OrderedMap κ α) {k : κ} :
    m.lower_bound k = none ↔ ∀ e ∈ m.entries, e.1 < k := by
  simp [lower_bound, List.find?_eq_none]

/-- The first entry from a key on: no entry from the key on is before it. -/
theorem lower_bound_spec (m : OrderedMap κ α) {k : κ} {e : κ × α} (h : m.lower_bound k = some e) :
    e ∈ m.entries ∧ k ≤ e.1 ∧ ∀ e' ∈ m.entries, k ≤ e'.1 → e.1 ≤ e'.1 := by
  obtain ⟨hmem, hp, hfirst⟩ := m.find?_spec h
  exact ⟨hmem, of_decide_eq_true hp, fun e' he' hk => hfirst e' he' (decide_eq_true hk)⟩

/-- The last entry before a key: no other entry before the key is after it. -/
theorem before_spec (m : OrderedMap κ α) {k : κ} {e : κ × α} (h : m.before k = some e) :
    e ∈ m.entries ∧ e.1 < k ∧ ∀ e' ∈ m.entries, e'.1 < k → e'.1 ≤ e.1 := by
  obtain ⟨hmem, hp, hlast⟩ := m.getLast?_spec h
  exact ⟨hmem, of_decide_eq_true hp, fun e' he' hlt => hlast e' he' (decide_eq_true hlt)⟩

end OrderedMap
