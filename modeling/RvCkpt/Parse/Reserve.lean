import RvCkpt.Parse.FreeList

/-! # Putting and reserving

What `put` marks in use, what `reserve` hands out and which pages `reservePage` finds. The blocks
handed out so far and the free list are kept apart by one invariant (`Alloc`).
-/

namespace RvCkpt.Parse
open ByteMem
set_option autoImplicit false

/-! ## Putting -/

theorem put_isFree (page : Page) (offs : ℕ) (data : List Byte) (i : ℕ) :
    (page.put offs data).isFree i =
      (page.isFree i && !decide (offs ≤ i ∧ i < offs + data.length)) := by
  rw [isFree_iff, isFree_iff, Page.put, Nat.testBit_or, Nat.testBit_shiftLeft, Nat.one_shiftLeft,
    Nat.testBit_two_pow_sub_one, Bool.not_or]
  congr 2
  rw [Bool.eq_iff_iff]
  simp only [Bool.and_eq_true, decide_eq_true_eq]
  omega

namespace PageMap

/-- The part of the data that falls into page `k`, and its offset there. -/
def partOf (addr : ℕ) (data : List Byte) (k : ℕ) : ℕ × List Byte :=
  (max addr (k * PAGE_SIZE) % PAGE_SIZE,
    (data.take (min (addr + data.length) ((k + 1) * PAGE_SIZE) - addr)).drop
      (max addr (k * PAGE_SIZE) - addr))

theorem getItem_insert_ne {m : PageMap} {pn k : ℕ} {page : Page} (h : k ≠ pn) :
    getItem (m.insert pn page) k = m.getItem k := by
  rw [getItem, getItem, AList.lookup_insert_ne h]

theorem putPages_lookup (m : PageMap) (addr : ℕ) (data : List Byte) (pn count k : ℕ) :
    (m.putPages addr data pn count).lookup k =
      if pn ≤ k ∧ k < pn + count then
        some ((m.getItem k).put (partOf addr data k).1 (partOf addr data k).2)
      else m.lookup k := by
  induction count generalizing m pn with
  | zero =>
    rw [putPages, if_neg (by omega)]
  | succ count ih =>
    simp only [putPages]
    rw [ih]
    by_cases hk : k = pn
    · subst hk
      rw [if_neg (by omega), if_pos (by omega), AList.lookup_insert]
      rfl
    · rw [getItem_insert_ne hk, AList.lookup_insert_ne hk]
      by_cases hin : pn ≤ k ∧ k < pn + (count + 1)
      · rw [if_pos hin, if_pos (by omega)]
      · rw [if_neg hin, if_neg (by omega)]

theorem put_lookup (m : PageMap) (addr : ℕ) (data : List Byte) (k : ℕ) :
    (m.put addr data).lookup k =
      if addr / PAGE_SIZE ≤ k ∧ k < (addr + data.length + PAGE_SIZE - 1) / PAGE_SIZE then
        some ((m.getItem k).put (partOf addr data k).1 (partOf addr data k).2)
      else m.lookup k := by
  have hshift : ∀ n, n >>> PAGE_OFFS = n / PAGE_SIZE := fun n => Nat.shiftRight_eq_div_pow n 12
  simp only [put, putPages_lookup, hshift]
  by_cases hk : addr / PAGE_SIZE ≤ k ∧ k < (addr + data.length + PAGE_SIZE - 1) / PAGE_SIZE
  · rw [if_pos hk, if_pos (by omega)]
  · rw [if_neg hk, if_neg (by omega)]

theorem partOf_bounds {addr : ℕ} {data : List Byte} {k a : ℕ} (hk : a / PAGE_SIZE = k)
    (hlo : addr / PAGE_SIZE ≤ k) :
    (partOf addr data k).1 ≤ a % PAGE_SIZE ∧
      a % PAGE_SIZE < (partOf addr data k).1 + (partOf addr data k).2.length ↔
    addr ≤ a ∧ a < addr + data.length := by
  simp only [partOf, List.length_drop, List.length_take]
  unfold PAGE_SIZE at *
  omega

theorem getItem_isFree_of_none {m : PageMap} {k : ℕ} (h : m.lookup k = none) (i : ℕ) :
    (m.getItem k).isFree i = true := by
  rw [getItem, h, Option.getD_none, Page.empty_isFree]

theorem put_used (m : PageMap) (addr : ℕ) (data : List Byte) (a : ℕ) :
    (m.put addr data).Used a ↔ m.Used a ∨ (addr ≤ a ∧ a < addr + data.length) := by
  rw [Used, put_lookup]
  by_cases hk : addr / PAGE_SIZE ≤ a / PAGE_SIZE ∧
      a / PAGE_SIZE < (addr + data.length + PAGE_SIZE - 1) / PAGE_SIZE
  · rw [if_pos hk, ← partOf_bounds rfl hk.1]
    have hold : m.Used a ↔ (m.getItem (a / PAGE_SIZE)).isFree (a % PAGE_SIZE) = false := by
      rw [Used]
      cases hl : m.lookup (a / PAGE_SIZE) with
      | none =>
        rw [getItem_isFree_of_none hl]
        simp
      | some page =>
        rw [getItem, hl, Option.getD_some]
        simp
    rw [hold]
    constructor
    · rintro ⟨page, hpage, hfree⟩
      rw [← Option.some.inj hpage, put_isFree, Bool.and_eq_false_iff, Bool.not_eq_false',
        decide_eq_true_eq] at hfree
      exact hfree
    · intro h
      refine ⟨_, rfl, ?_⟩
      rw [put_isFree, Bool.and_eq_false_iff, Bool.not_eq_false', decide_eq_true_eq]
      exact h
  · rw [if_neg hk]
    have hout : ¬ (addr ≤ a ∧ a < addr + data.length) := by
      unfold PAGE_SIZE at hk
      omega
    rw [or_iff_left hout]
    rfl

theorem mem_of_used {m : PageMap} {a : ℕ} (h : m.Used a) : a / PAGE_SIZE ∈ m := by
  obtain ⟨page, hpage, -⟩ := h
  exact AList.lookup_isSome.mp (by rw [hpage]; rfl)

/-! ## Reserving -/

theorem searchDown_spec {freeList : List (ℕ × ℕ)} {size s use : ℕ}
    (h : searchDown freeList size s = some use) :
    ∃ range, freeList[use]? = some range ∧ range.1 + size ≤ range.2 := by
  induction s with
  | zero => cases h
  | succ s ih =>
    rw [searchDown] at h
    cases hr : freeList[s]? with
    | none =>
      rw [hr] at h
      cases h
    | some range =>
      rw [hr] at h
      by_cases hroom : range.1 + size ≤ range.2
      · simp only [if_pos hroom] at h
        cases h
        exact ⟨range, hr, hroom⟩
      · simp only [if_neg hroom] at h
        exact ih h

theorem searchUp_spec {freeList : List (ℕ × ℕ)} {size fuel e use : ℕ}
    (h : searchUp freeList size fuel e = some use) :
    ∃ range, freeList[use]? = some range ∧ range.1 + size ≤ range.2 := by
  induction fuel generalizing e with
  | zero => cases h
  | succ fuel ih =>
    rw [searchUp] at h
    cases hr : freeList[e]? with
    | none =>
      rw [hr] at h
      cases h
    | some range =>
      rw [hr] at h
      by_cases hroom : range.1 + size ≤ range.2
      · simp only [if_pos hroom] at h
        cases h
        exact ⟨range, hr, hroom⟩
      · simp only [if_neg hroom] at h
        exact ih h

theorem nearest_spec {freeList : List (ℕ × ℕ)} {baseAddr use : ℕ} {s e : Option ℕ}
    (h : nearest freeList baseAddr s e = some use) : s = some use ∨ e = some use := by
  cases s with
  | none =>
    cases e with
    | none => cases h
    | some e => exact .inr h
  | some s =>
    cases e with
    | none => exact .inl h
    | some e =>
      simp only [nearest] at h
      split at h
      · exact .inl h
      · exact .inr h

/-- `reserve` cuts the block off one end of a range with room for it. -/
theorem reserve_spec {m m' : PageMap} {freeList freeList' : List (ℕ × ℕ)}
    {baseAddr size nearAddr : ℕ}
    (h : m.reserve freeList baseAddr size = some (m', freeList', nearAddr)) :
    ∃ (use first last first' last' : ℕ), freeList[use]? = some (first, last) ∧
      freeList' = freeList.set use (first', last') ∧
      first ≤ first' ∧ first' ≤ last' ∧ last' ≤ last ∧
      first ≤ nearAddr ∧ nearAddr + size ≤ last ∧
      (nearAddr + size ≤ first' ∨ last' ≤ nearAddr) ∧
      m' = m.put nearAddr (List.replicate size 0) := by
  obtain ⟨⟨s, e⟩, -, h⟩ := Option.bind_eq_some_iff.mp h
  obtain ⟨use, huse, h⟩ := Option.bind_eq_some_iff.mp h
  obtain ⟨⟨first, last⟩, hrange, h⟩ := Option.bind_eq_some_iff.mp h
  have hroom : first + size ≤ last := by
    have hhit : ∃ range, freeList[use]? = some range ∧ range.1 + size ≤ range.2 := by
      obtain hs | he := nearest_spec huse
      · exact searchDown_spec hs
      · exact searchUp_spec he
    obtain ⟨range, hr, hroom⟩ := hhit
    rw [hrange] at hr
    rw [← Option.some.inj hr] at hroom
    exact hroom
  by_cases hlow : baseAddr < first
  · simp only [if_pos hlow, Option.some.injEq, Prod.mk.injEq] at h
    obtain ⟨hm, hfree, hnear⟩ := h
    subst hnear
    exact ⟨use, first, last, first + size, last, hrange, hfree.symm, by omega, by omega, le_rfl,
      le_rfl, by omega, .inl le_rfl, hm.symm⟩
  · simp only [if_neg hlow, Option.some.injEq, Prod.mk.injEq] at h
    obtain ⟨hm, hfree, hnear⟩ := h
    subst hnear
    exact ⟨use, first, last, first, last - size, hrange, hfree.symm, le_rfl, by omega, by omega,
      by omega, by omega, .inr le_rfl, hm.symm⟩

theorem reserveScan_spec {needed : ℕ} (cur : ℕ) {pns : List ℕ} (hsorted : pns.Pairwise (· ≤ ·)) :
    (∀ k, k < cur → (∀ pn ∈ pns, k ≤ pn) → k < reserveScan needed pns cur) ∧
    ∀ pn ∈ pns, pn < reserveScan needed pns cur ∨ reserveScan needed pns cur + needed ≤ pn := by
  induction pns generalizing cur with
  | nil =>
    refine ⟨fun k hk _ => hk, ?_⟩
    intro pn hpn
    cases hpn
  | cons pn rest ih =>
    obtain ⟨hle, hrest⟩ := List.pairwise_cons.mp hsorted
    rw [reserveScan]
    by_cases hgap : (pn : ℤ) - cur < needed
    · rw [if_pos hgap]
      obtain ⟨hbelow, hapart⟩ := ih (pn + 1) hrest
      refine ⟨?_, ?_⟩
      · intro k _ hk
        have hkpn := hk pn List.mem_cons_self
        exact hbelow k (by omega) fun q hq => hkpn.trans (hle q hq)
      · intro q hq
        obtain rfl | hq := List.mem_cons.mp hq
        · exact .inl (hbelow q (Nat.lt_succ_self q) hle)
        · exact hapart q hq
    · rw [if_neg hgap]
      refine ⟨fun k hk _ => hk, ?_⟩
      intro q hq
      obtain rfl | hq := List.mem_cons.mp hq
      · exact .inr (by omega)
      · have := hle q hq
        exact .inr (by omega)

/-- `reserve_page` finds a run of pages that the map does not have. -/
theorem reservePage_spec (m : PageMap) (size : ℕ) {pn : ℕ} (h : pn ∈ m) :
    pn < m.reservePage size ∨
      m.reservePage size + (size + PAGE_SIZE - 1) / PAGE_SIZE ≤ pn := by
  have hshift : (size + PAGE_SIZE - 1) >>> PAGE_OFFS = (size + PAGE_SIZE - 1) / PAGE_SIZE :=
    Nat.shiftRight_eq_div_pow _ 12
  have hsorted := List.pairwise_insertionSort (· ≤ ·) m.keys
  have hmem : pn ∈ m.keys.insertionSort (· ≤ ·) := (List.perm_insertionSort _ _).mem_iff.mpr h
  simp only [reservePage, hshift]
  exact (reserveScan_spec _ hsorted).2 pn hmem

end PageMap

end RvCkpt.Parse
