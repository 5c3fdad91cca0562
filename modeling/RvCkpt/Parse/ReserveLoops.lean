import RvCkpt.Parse.PageMap
import RvCkpt.Lib.WhileLoop

/-! # The loops of `reserve`

The binary search and the outward scan of `PageMap.reserve`, one turn at a time, and what the
functions of the model have to do with them: `search` finds what the binary search ends with, and
has no result exactly if it never ends; `searchDown` and `searchUp` are the two hits of the scan,
which always ends.
-/

namespace RvCkpt.Parse
open WhileLoop
set_option autoImplicit false

namespace PageMap

variable (freeList : List (ℕ × ℕ)) (baseAddr size : ℕ)

/-! ## The binary search -/

def Wide (b : ℕ × ℕ) : Prop := b.1 + 1 < b.2

/-- One turn. A range that contains `baseAddr` is not excluded, and the bounds stay. -/
def bisect (b : ℕ × ℕ) : ℕ × ℕ :=
  match freeList[(b.1 + b.2) / 2]? with
  | none => b
  | some range =>
    if range.2 ≤ baseAddr then ((b.1 + b.2) / 2, b.2)
    else if baseAddr < range.1 then (b.1, (b.1 + b.2) / 2)
    else b

variable {freeList baseAddr size}

theorem search_iff {fuel s e : ℕ} {b : ℕ × ℕ} (hfuel : e ≤ s + fuel + 1)
    (he : e < freeList.length) :
    search freeList baseAddr fuel s e = some b ↔
      Ends Wide (bisect freeList baseAddr) (s, e) b := by
  induction fuel generalizing s e with
  | zero =>
    have hstop : ¬ Wide (s, e) := by
      simp only [Wide]
      omega
    rw [search, ends_of_not hstop, Option.some.injEq, eq_comm]
  | succ fuel ih =>
    by_cases hwide : s + 1 < e
    · have hlt : (s + e) / 2 < freeList.length := by omega
      have hrange := List.getElem?_eq_getElem hlt
      rw [search, if_pos hwide, hrange, Option.bind_eq_bind, Option.bind_some]
      rw [ends_of_cond (show Wide (s, e) from hwide)]
      by_cases hbelow : (freeList[(s + e) / 2]).2 ≤ baseAddr
      · have hturn : bisect freeList baseAddr (s, e) = ((s + e) / 2, e) := by
          simp only [bisect, hrange, if_pos hbelow]
        rw [if_pos hbelow, hturn]
        exact ih (by omega) he
      · by_cases habove : baseAddr < (freeList[(s + e) / 2]).1
        · have hturn : bisect freeList baseAddr (s, e) = (s, (s + e) / 2) := by
            simp only [bisect, hrange, if_neg hbelow, if_pos habove]
          rw [if_neg hbelow, if_pos habove, hturn]
          exact ih (by omega) (by omega)
        · have hturn : bisect freeList baseAddr (s, e) = (s, e) := by
            simp only [bisect, hrange, if_neg hbelow, if_neg habove]
          rw [if_neg hbelow, if_neg habove, hturn]
          constructor
          · intro h
            cases h
          · intro h
            refine absurd h (not_ends (p := fun b => b = (s, e)) ?_ rfl)
            rintro _ rfl
            exact ⟨hwide, hturn⟩
    · rw [search, if_neg hwide, ends_of_not (show ¬ Wide (s, e) from hwide), Option.some.injEq,
        eq_comm]

/-! ## The outward scan -/

def Fits (size : ℕ) (range : ℕ × ℕ) : Prop := range.1 + size ≤ range.2

instance (size : ℕ) (range : ℕ × ℕ) : Decidable (Fits size range) :=
  inferInstanceAs (Decidable (range.1 + size ≤ range.2))

variable (freeList baseAddr size)

/-- The downward cursor, counted from 1, and whether it has hit. -/
def stepDown (c : ℕ × Bool) : ℕ × Bool :=
  if 0 < c.1 ∧ c.2 = false then
    match freeList[c.1 - 1]? with
    | none => c
    | some range => if Fits size range then (c.1, true) else (c.1 - 1, false)
  else c

def stepUp (c : ℕ × Bool) : ℕ × Bool :=
  if c.1 < freeList.length ∧ c.2 = false then
    match freeList[c.1]? with
    | none => c
    | some range => if Fits size range then (c.1, true) else (c.1 + 1, false)
  else c

def Searching (c : (ℕ × Bool) × (ℕ × Bool)) : Prop :=
  (0 < c.1.1 ∧ c.1.2 = false) ∨ (c.2.1 < freeList.length ∧ c.2.2 = false)

def stepBoth (c : (ℕ × Bool) × (ℕ × Bool)) : (ℕ × Bool) × (ℕ × Bool) :=
  (stepDown freeList size c.1, stepUp freeList size c.2)

/-- What the downward cursor still finds. -/
def foundDown (c : ℕ × Bool) : Option ℕ :=
  if c.2 then some (c.1 - 1) else searchDown freeList size c.1

def foundUp (c : ℕ × Bool) : Option ℕ :=
  if c.2 then some c.1 else searchUp freeList size (freeList.length - c.1) c.1

variable {freeList baseAddr size}

/-- A cursor that goes on comes to a hit or to the next range, and what it finds is the same. -/
theorem stepDown_found (size : ℕ) (c : ℕ × Bool) (hc : c.1 ≤ freeList.length) :
    foundDown freeList size (stepDown freeList size c) = foundDown freeList size c ∧
      (stepDown freeList size c).1 ≤ freeList.length := by
  obtain ⟨s, hit⟩ := c
  by_cases hdo : 0 < s ∧ hit = false
  · obtain ⟨hs, rfl⟩ := hdo
    obtain ⟨s, rfl⟩ := Nat.exists_eq_add_of_lt hs
    rw [Nat.zero_add] at *
    have hrange := List.getElem?_eq_getElem (show s < freeList.length from hc)
    by_cases hfit : Fits size freeList[s]
    · have hstep : stepDown freeList size (s + 1, false) = (s + 1, true) := by
        simp [stepDown, hrange, hfit]
      rw [hstep]
      refine ⟨?_, hc⟩
      have hroom : (freeList[s]).1 + size ≤ (freeList[s]).2 := hfit
      simp [foundDown, searchDown, hrange, hroom]
    · have hstep : stepDown freeList size (s + 1, false) = (s, false) := by
        simp [stepDown, hrange, hfit]
      rw [hstep]
      refine ⟨?_, Nat.le_of_succ_le hc⟩
      have hroom : ¬ (freeList[s]).1 + size ≤ (freeList[s]).2 := hfit
      simp [foundDown, searchDown, hrange, hroom]
  · rw [stepDown, if_neg hdo]
    exact ⟨rfl, hc⟩

theorem stepUp_found (c : ℕ × Bool) :
    foundUp freeList size (stepUp freeList size c) = foundUp freeList size c := by
  obtain ⟨e, hit⟩ := c
  by_cases hdo : e < freeList.length ∧ hit = false
  · obtain ⟨he, rfl⟩ := hdo
    have hrange := List.getElem?_eq_getElem he
    have hleft : freeList.length - e = freeList.length - (e + 1) + 1 := by omega
    by_cases hfit : Fits size freeList[e]
    · have hstep : stepUp freeList size (e, false) = (e, true) := by
        simp [stepUp, hfit, he]
      have hroom : (freeList[e]).1 + size ≤ (freeList[e]).2 := hfit
      rw [hstep]
      simp [foundUp, hleft, searchUp, hrange, hroom]
    · have hstep : stepUp freeList size (e, false) = (e + 1, false) := by
        simp [stepUp, hfit, he]
      have hroom : ¬ (freeList[e]).1 + size ≤ (freeList[e]).2 := hfit
      rw [hstep]
      simp [foundUp, hleft, searchUp, hrange, hroom]
  · rw [stepUp, if_neg hdo]

/-- The ranges that a cursor has left. -/
def leftDown (c : ℕ × Bool) : ℕ := if c.2 then 0 else c.1 + 1

def leftUp (freeList : List (ℕ × ℕ)) (c : ℕ × Bool) : ℕ :=
  if c.2 then 0 else freeList.length - c.1 + 1

theorem stepDown_left (size : ℕ) (c : ℕ × Bool) (hc : c.1 ≤ freeList.length) :
    leftDown (stepDown freeList size c) ≤ leftDown c ∧
      (0 < c.1 ∧ c.2 = false → leftDown (stepDown freeList size c) < leftDown c) := by
  by_cases hdo : 0 < c.1 ∧ c.2 = false
  · have hlt : leftDown (stepDown freeList size c) < leftDown c := by
      have hrange := List.getElem?_eq_getElem (show c.1 - 1 < freeList.length by omega)
      rw [stepDown, if_pos hdo, hrange]
      simp only
      by_cases hfit : Fits size freeList[c.1 - 1]
      · rw [if_pos hfit]
        simp [leftDown, hdo.2]
      · rw [if_neg hfit]
        simp only [leftDown, hdo.2, Bool.false_eq_true, if_false]
        omega
    exact ⟨hlt.le, fun _ => hlt⟩
  · rw [stepDown, if_neg hdo]
    exact ⟨le_rfl, fun h => absurd h hdo⟩

theorem stepUp_left (freeList : List (ℕ × ℕ)) (size : ℕ) (c : ℕ × Bool) :
    leftUp freeList (stepUp freeList size c) ≤ leftUp freeList c ∧
      (c.1 < freeList.length ∧ c.2 = false →
        leftUp freeList (stepUp freeList size c) < leftUp freeList c) := by
  by_cases hdo : c.1 < freeList.length ∧ c.2 = false
  · have hlt : leftUp freeList (stepUp freeList size c) < leftUp freeList c := by
      have hrange := List.getElem?_eq_getElem hdo.1
      rw [stepUp, if_pos hdo, hrange]
      simp only
      by_cases hfit : Fits size freeList[c.1]
      · rw [if_pos hfit]
        simp [leftUp, hdo.2]
      · rw [if_neg hfit]
        simp only [leftUp, hdo.2, Bool.false_eq_true, if_false]
        omega
    exact ⟨hlt.le, fun _ => hlt⟩
  · rw [stepUp, if_neg hdo]
    exact ⟨le_rfl, fun h => absurd h hdo⟩

def outwardStart (b : ℕ × ℕ) : (ℕ × Bool) × (ℕ × Bool) := ((b.1, false), (b.2, false))

theorem outward_ends (size : ℕ) (b : ℕ × ℕ) (hb : b.1 ≤ freeList.length) :
    ∃ c, Ends (Searching freeList) (stepBoth freeList size) (outwardStart b) c := by
  refine exists_ends (p := fun c => c.1.1 ≤ freeList.length)
    (μ := fun c => leftDown c.1 + leftUp freeList c.2) ?_ ?_ hb
  · intro c _ hc
    exact (stepDown_found size c.1 hc).2
  · intro c hcond hc
    obtain ⟨hdown, hdown'⟩ := stepDown_left size c.1 hc
    obtain ⟨hup, hup'⟩ := stepUp_left freeList size c.2
    simp only [stepBoth]
    obtain hs | he := hcond
    · have := hdown' hs
      omega
    · have := hup' he
      omega

/-- The index that a cursor has hit. -/
def hitDown (c : ℕ × Bool) : Option ℕ := if c.2 then some (c.1 - 1) else none

def hitUp (c : ℕ × Bool) : Option ℕ := if c.2 then some c.1 else none

/-- The scan ends with the hits of the two searches. -/
theorem outward_hits {b : ℕ × ℕ} {c : (ℕ × Bool) × (ℕ × Bool)} (hb : b.1 ≤ freeList.length)
    (h : Ends (Searching freeList) (stepBoth freeList size) (outwardStart b) c) :
    hitDown c.1 = searchDown freeList size b.1 ∧
      hitUp c.2 = searchUp freeList size (freeList.length - b.2) b.2 := by
  have hkeep : c.1.1 ≤ freeList.length ∧
      foundDown freeList size c.1 = searchDown freeList size b.1 ∧
      foundUp freeList size c.2 = searchUp freeList size (freeList.length - b.2) b.2 := by
    refine h.keeps (p := fun c => c.1.1 ≤ freeList.length ∧
      foundDown freeList size c.1 = searchDown freeList size b.1 ∧
      foundUp freeList size c.2 = searchUp freeList size (freeList.length - b.2) b.2) ?_ ?_
    · rintro c _ ⟨hle, hdown, hup⟩
      obtain ⟨hfound, hle'⟩ := stepDown_found size c.1 hle
      refine ⟨hle', ?_, ?_⟩
      · simp only [stepBoth]
        rw [hfound, hdown]
      · simp only [stepBoth]
        rw [stepUp_found, hup]
    · simp [outwardStart, foundDown, foundUp, hb]
  obtain ⟨-, hdown, hup⟩ := hkeep
  obtain ⟨hs, he⟩ := not_or.mp h.not_cond
  refine ⟨?_, ?_⟩
  · rw [← hdown]
    cases hhit : c.1.2 with
    | true => simp [hitDown, foundDown, hhit]
    | false =>
      have hzero : c.1.1 = 0 := by
        by_contra hne
        exact hs ⟨Nat.pos_of_ne_zero hne, hhit⟩
      simp [hitDown, foundDown, hhit, hzero, searchDown]
  · rw [← hup]
    cases hhit : c.2.2 with
    | true => simp [hitUp, foundUp, hhit]
    | false =>
      have hend : freeList.length - c.2.1 = 0 := by
        by_contra hne
        exact he ⟨by omega, hhit⟩
      simp [hitUp, foundUp, hhit, hend, searchUp]

/-! ## The whole function -/

variable (freeList baseAddr size)

/-- The bounds are found: the list has a first and a last range, and `baseAddr` lies before the
one, behind the other, or between them at a place where the binary search ends. -/
def Bounded (b : ℕ × ℕ) : Prop :=
  ∃ head ∈ freeList.head?, ∃ last ∈ freeList.getLast?,
    if baseAddr < head.1 then b = (0, 0)
    else if last.2 ≤ baseAddr then b = (freeList.length, freeList.length)
    else ∃ se, Ends Wide (bisect freeList baseAddr) (0, freeList.length - 1) se ∧
      b = (se.1 + 1, se.2)

/-- What follows the loops: a range is chosen and cut, or the exception is raised (`none`). -/
def cutChosen (m : PageMap) (hits : (ℕ × Bool) × (ℕ × Bool)) :
    Option (PageMap × List (ℕ × ℕ) × ℕ) := do
  let use ← nearest freeList baseAddr (hitDown hits.1) (hitUp hits.2)
  let (first, last) ← freeList[use]?
  let (range, nearAddr) :=
    if baseAddr < first then ((first + size, last), first)
    else ((first, last - size), last - size)
  some (m.put nearAddr (List.replicate size 0), freeList.set use range, nearAddr)

/-- `reserve` comes to its end with the result: `none` is its own exception. -/
def ReserveEnds (m : PageMap) (result : Option (PageMap × List (ℕ × ℕ) × ℕ)) : Prop :=
  ∃ b hits, Bounded freeList baseAddr b ∧
    Ends (Searching freeList) (stepBoth freeList size) (outwardStart b) hits ∧
    result = cutChosen freeList baseAddr size m hits

variable {freeList baseAddr size}

theorem bounds_iff (b : ℕ × ℕ) :
    bounds freeList baseAddr = some b ↔ Bounded freeList baseAddr b := by
  cases freeList with
  | nil => simp [bounds, Bounded]
  | cons head rest =>
    have hlast : (head :: rest).getLast? = some ((head :: rest).getLast (by simp)) :=
      List.getLast?_eq_some_getLast _
    simp only [bounds, Bounded, List.head?_cons, hlast, Option.mem_def, Option.some.injEq,
      exists_eq_left', Option.bind_eq_bind, Option.bind_some]
    by_cases hlow : baseAddr < head.1
    · rw [if_pos hlow, if_pos hlow, Option.some.injEq, eq_comm]
    · rw [if_neg hlow, if_neg hlow]
      by_cases hhigh : ((head :: rest).getLast (by simp)).2 ≤ baseAddr
      · rw [if_pos hhigh, if_pos hhigh, Option.some.injEq, eq_comm]
      · rw [if_neg hhigh, if_neg hhigh]
        have hsearch : ∀ se, search (head :: rest) baseAddr (head :: rest).length 0
            ((head :: rest).length - 1) = some se ↔
              Ends Wide (bisect (head :: rest) baseAddr) (0, (head :: rest).length - 1) se :=
          fun se => search_iff (by omega) (by simp)
        constructor
        · intro h
          obtain ⟨se, hse, hb⟩ := Option.bind_eq_some_iff.mp h
          exact ⟨se, (hsearch se).mp hse, (Option.some.inj hb).symm⟩
        · rintro ⟨se, hse, rfl⟩
          rw [(hsearch se).mpr hse, Option.bind_some]

/-- The bounds that the binary search keeps. -/
theorem bisect_keeps {b : ℕ × ℕ} (hwide : Wide b) (hb : b.1 ≤ b.2 ∧ b.2 < freeList.length) :
    (bisect freeList baseAddr b).1 ≤ (bisect freeList baseAddr b).2 ∧
      (bisect freeList baseAddr b).2 < freeList.length := by
  obtain ⟨s, e⟩ := b
  simp only [Wide] at hwide
  simp only at hb
  have hrange := List.getElem?_eq_getElem (show (s + e) / 2 < freeList.length by omega)
  simp only [bisect, hrange]
  by_cases hbelow : (freeList[(s + e) / 2]).2 ≤ baseAddr
  · rw [if_pos hbelow]
    simp only
    omega
  · rw [if_neg hbelow]
    by_cases habove : baseAddr < (freeList[(s + e) / 2]).1
    · rw [if_pos habove]
      simp only
      omega
    · rw [if_neg habove]
      exact hb

theorem bisect_within {b : ℕ × ℕ} (hne : freeList ≠ [])
    (h : Ends Wide (bisect freeList baseAddr) (0, freeList.length - 1) b) :
    b.1 ≤ b.2 ∧ b.2 < freeList.length := by
  have hpos := List.length_pos_of_ne_nil hne
  exact h.keeps (p := fun b => b.1 ≤ b.2 ∧ b.2 < freeList.length)
    (fun _ hwide hb => bisect_keeps hwide hb) ⟨by simp, by simpa using hpos⟩

theorem Bounded.ne_nil {b : ℕ × ℕ} (h : Bounded freeList baseAddr b) : freeList ≠ [] := by
  obtain ⟨head, hhead, -⟩ := h
  intro hnil
  rw [hnil] at hhead
  cases hhead

theorem Bounded.le {b : ℕ × ℕ} (h : Bounded freeList baseAddr b) :
    b.1 ≤ freeList.length ∧ b.2 ≤ freeList.length := by
  have hne := h.ne_nil
  obtain ⟨head, -, last, -, h⟩ := h
  by_cases hlow : baseAddr < head.1
  · rw [if_pos hlow] at h
    rw [h]
    exact ⟨Nat.zero_le _, Nat.zero_le _⟩
  · rw [if_neg hlow] at h
    by_cases hhigh : last.2 ≤ baseAddr
    · rw [if_pos hhigh] at h
      rw [h]
      exact ⟨le_rfl, le_rfl⟩
    · rw [if_neg hhigh] at h
      obtain ⟨se, hends, rfl⟩ := h
      obtain ⟨hle, hlt⟩ := bisect_within hne hends
      simp only
      omega

/-- The model's function finds what the script's comes to, if it comes to an end. -/
theorem reserve_of_ends {m : PageMap} {result : Option (PageMap × List (ℕ × ℕ) × ℕ)}
    (h : ReserveEnds freeList baseAddr size m result) :
    m.reserve freeList baseAddr size = result := by
  obtain ⟨b, hits, hb, hends, rfl⟩ := h
  obtain ⟨hdown, hup⟩ := outward_hits hb.le.1 hends
  rw [reserve, (bounds_iff b).mpr hb, Option.bind_eq_bind, Option.bind_some, cutChosen, hdown, hup]
  rfl

theorem reserve_ends {m : PageMap} {b : ℕ × ℕ} (hb : Bounded freeList baseAddr b) :
    ReserveEnds freeList baseAddr size m (m.reserve freeList baseAddr size) := by
  obtain ⟨hits, hends⟩ := outward_ends size b hb.le.1
  have h : ReserveEnds freeList baseAddr size m (cutChosen freeList baseAddr size m hits) :=
    ⟨b, hits, hb, hends, rfl⟩
  rwa [reserve_of_ends h]

end PageMap

end RvCkpt.Parse
