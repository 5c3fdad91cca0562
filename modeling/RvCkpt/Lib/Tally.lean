import Mathlib.Data.List.Count
import Mathlib.Data.BitVec
import Mathlib.Tactic.Common

/-! # Tables of counters

A table with a `w`-bit counter for each of the keys that are counted. Every event adds one to the
counter of its key, modulo `2 ^ w`, so the table is exact as long as no key has `2 ^ w` events.
-/

namespace Tally
set_option autoImplicit false

variable {α : Type} [DecidableEq α] {w : ℕ}

/-- The counters of the keys in `keys` are the numbers of their events, modulo `2 ^ w`. -/
def Counts (keys : α → Prop) (table : α → BitVec w) (events : List α) : Prop :=
  ∀ a, keys a → table a = BitVec.ofNat w (events.count a)

/-- One event of the key `e`. -/
def Bumps (keys : α → Prop) (table table' : α → BitVec w) (e : α) : Prop :=
  ∀ a, keys a → table' a = table a + if a = e then 1 else 0

variable {keys : α → Prop} {table table' : α → BitVec w} {events : List α} {e : α}

theorem counts_nil : Counts keys (fun _ => (0 : BitVec w)) [] := fun _ _ => rfl

theorem Counts.congr (h : Counts keys table events) (hsame : ∀ a, keys a → table' a = table a) :
    Counts keys table' events :=
  fun a ha => (hsame a ha).trans (h a ha)

theorem Counts.bump (h : Counts keys table events) (hbump : Bumps keys table table' e) :
    Counts keys table' (events ++ [e]) := by
  intro a ha
  rw [hbump a ha, h a ha, List.count_append, BitVec.ofNat_add]
  by_cases hae : a = e
  · rw [if_pos hae, hae, List.count_singleton_self]
    rfl
  · rw [if_neg hae, List.count_singleton, if_neg (by simpa using Ne.symm hae)]
    rfl

theorem Counts.toNat (h : Counts keys table events) {a : α} (ha : keys a) :
    (table a).toNat = events.count a % 2 ^ w := by
  rw [h a ha, BitVec.toNat_ofNat]

/-- A counter is exact until its key has had `2 ^ w` events. -/
theorem Counts.exact_iff (h : Counts keys table events) {a : α} (ha : keys a) :
    (table a).toNat = events.count a ↔ events.count a < 2 ^ w := by
  rw [h.toNat ha, Nat.mod_eq_iff_lt (Nat.two_pow_pos w).ne']

/-- After `2 ^ w` events of its key a counter is back at zero. -/
theorem Counts.wrapped (h : Counts keys table events) {a : α} (ha : keys a)
    (hevents : events.count a = 2 ^ w) : table a = 0 := by
  apply BitVec.eq_of_toNat_eq
  rw [h.toNat ha, hevents, Nat.mod_self]
  rfl

end Tally
