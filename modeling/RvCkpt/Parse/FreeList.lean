import RvCkpt.Parse.PageMap
import Mathlib.Data.Nat.Bitwise

/-! # The free list

No range of `makeFreeList` contains a byte that the page map marks in use, and the ranges are
nonempty, ascending and disjoint. The scan is followed by a watermark: every address below it has
been looked at.
-/

namespace RvCkpt.Parse
open ByteMem
set_option autoImplicit false

namespace PageMap

def Used (m : PageMap) (a : ℕ) : Prop :=
  ∃ page, m.lookup (a / PAGE_SIZE) = some page ∧ page.isFree (a % PAGE_SIZE) = false

/-- A free list of ranges that are ascending, nonempty and free of the addresses in `U`. -/
structure FreeRanges (U : ℕ → Prop) (ranges : List (ℕ × ℕ)) : Prop where
  free : ∀ r ∈ ranges, ∀ a, r.1 ≤ a → a < r.2 → ¬ U a
  nonempty : ∀ r ∈ ranges, r.1 < r.2
  ascending : ranges.Pairwise fun r s => r.2 ≤ s.1

/-- The scan has passed every address below `pos`. -/
structure ScanInv (U : ℕ → Prop) (pos : ℕ) (st : List (ℕ × ℕ) × Option ℕ) : Prop where
  ranges : FreeRanges U st.1
  below : ∀ r ∈ st.1, r.2 ≤ pos
  free : ∀ cur, st.2 = some cur → ∀ a, cur ≤ a → a < pos → ¬ U a
  after : ∀ cur, st.2 = some cur → ∀ r ∈ st.1, r.2 ≤ cur

variable {U : ℕ → Prop}

theorem ScanInv.init : ScanInv U 0 ([], some (FIRST_PN * PAGE_SIZE)) := by
  refine ⟨⟨?_, ?_, List.Pairwise.nil⟩, ?_, ?_, ?_⟩
  · intro r hr
    cases hr
  · intro r hr
    cases hr
  · intro r hr
    cases hr
  · intro cur _ a _ ha
    omega
  · intro cur _ r hr
    cases hr

theorem ScanInv.advance {pos pos' : ℕ} {st : List (ℕ × ℕ) × Option ℕ} (h : ScanInv U pos st)
    (hle : pos ≤ pos') (hgap : ∀ a, pos ≤ a → a < pos' → ¬ U a) : ScanInv U pos' st := by
  refine ⟨h.ranges, fun r hr => (h.below r hr).trans hle, ?_, h.after⟩
  intro cur hcur a hlo hhi
  by_cases ha : a < pos
  · exact h.free cur hcur a hlo ha
  · exact hgap a (by omega) hhi

/-- What closing a range adds. -/
theorem mem_closeRange {ranges : List (ℕ × ℕ)} {cur pos : ℕ} {r : ℕ × ℕ} :
    r ∈ closeRange ranges cur pos ↔
      r ∈ ranges ∨ (r = ((cur + 1) / 2 * 2, pos / 2 * 2) ∧ r.1 < r.2) := by
  simp only [closeRange]
  split
  · rename_i hne
    rw [List.mem_append, List.mem_singleton]
    refine or_congr_right ⟨?_, And.left⟩
    rintro rfl
    exact ⟨rfl, hne⟩
  · rename_i hne
    refine ⟨Or.inl, ?_⟩
    rintro (hr | ⟨rfl, hlt⟩)
    · exact hr
    · exact absurd hlt hne

theorem pairwise_closeRange {R : ℕ × ℕ → ℕ × ℕ → Prop} {ranges : List (ℕ × ℕ)} {cur pos : ℕ}
    (h : ranges.Pairwise R)
    (hnew : ∀ r ∈ ranges, R r ((cur + 1) / 2 * 2, pos / 2 * 2)) :
    (closeRange ranges cur pos).Pairwise R := by
  simp only [closeRange]
  split
  · refine List.pairwise_append.mpr ⟨h, List.pairwise_singleton _ _, ?_⟩
    intro r hr s hs
    rw [List.mem_singleton.mp hs]
    exact hnew r hr
  · exact h

theorem closeRange_ranges {ranges : List (ℕ × ℕ)} {cur pos : ℕ} (h : FreeRanges U ranges)
    (hfree : ∀ a, cur ≤ a → a < pos → ¬ U a) (hafter : ∀ r ∈ ranges, r.2 ≤ cur) :
    FreeRanges U (closeRange ranges cur pos) := by
  refine ⟨?_, ?_, pairwise_closeRange h.ascending ?_⟩
  · intro r hr a hlo hhi
    obtain hr | ⟨rfl, -⟩ := mem_closeRange.mp hr
    · exact h.free r hr a hlo hhi
    · exact hfree a (by omega) (by omega)
  · intro r hr
    obtain hr | ⟨-, hne⟩ := mem_closeRange.mp hr
    · exact h.nonempty r hr
    · exact hne
  · intro r hr
    have := hafter r hr
    omega

theorem closeRange_below {ranges : List (ℕ × ℕ)} {cur pos : ℕ} (h : ∀ r ∈ ranges, r.2 ≤ pos) :
    ∀ r ∈ closeRange ranges cur pos, r.2 ≤ pos := by
  intro r hr
  obtain hr | ⟨rfl, -⟩ := mem_closeRange.mp hr
  · exact h r hr
  · omega

theorem ScanInv.byte {pos : ℕ} {st : List (ℕ × ℕ) × Option ℕ} {free : Bool}
    (h : ScanInv U pos st) (hU : U pos ↔ free = false) :
    ScanInv U (pos + 1) (scanByte st pos free) := by
  obtain ⟨ranges, cur⟩ := st
  cases free with
  | true =>
    have hpos : ¬ U pos := fun hu => absurd (hU.mp hu) (by decide)
    have hgap : ∀ a, pos ≤ a → a < pos + 1 → ¬ U a := by
      intro a hlo hhi
      rwa [show a = pos by omega]
    cases cur with
    | some cur => exact h.advance (by omega) hgap
    | none =>
      refine ⟨h.ranges, fun r hr => (h.below r hr).trans (by omega), ?_, ?_⟩
      · rintro cur ⟨⟩ a hlo hhi
        exact hgap a hlo hhi
      · rintro cur ⟨⟩ r hr
        exact h.below r hr
  | false =>
    cases cur with
    | none =>
      refine ⟨h.ranges, fun r hr => (h.below r hr).trans (by omega), ?_, ?_⟩
      · rintro cur ⟨⟩
      · rintro cur ⟨⟩
    | some cur =>
      refine ⟨closeRange_ranges h.ranges (h.free cur rfl) (h.after cur rfl), ?_, ?_, ?_⟩
      · intro r hr
        exact (closeRange_below h.below r hr).trans (by omega)
      · rintro cur ⟨⟩
      · rintro cur ⟨⟩

theorem ScanInv.bytes {base n : ℕ} {st : List (ℕ × ℕ) × Option ℕ} {free : ℕ → Bool}
    (h : ScanInv U base st) (hU : ∀ i < n, U (base + i) ↔ free i = false) :
    ScanInv U (base + n) ((List.range n).foldl (fun st i => scanByte st (base + i) (free i)) st) := by
  induction n with
  | zero => exact h
  | succ n ih =>
    rw [List.range_succ, List.foldl_append]
    exact (ih fun i hi => hU i (by omega)).byte (hU n (by omega))

theorem ScanInv.page {st : List (ℕ × ℕ) × Option ℕ} {entry : Σ _ : ℕ, Page}
    (h : ScanInv U (entry.1 * PAGE_SIZE) st)
    (hU : ∀ i < PAGE_SIZE, U (entry.1 * PAGE_SIZE + i) ↔ entry.2.isFree i = false) :
    ScanInv U ((entry.1 + 1) * PAGE_SIZE) (scanPage st entry) := by
  rw [Nat.add_mul, Nat.one_mul, scanPage]
  exact h.bytes hU

theorem ScanInv.pages {k : ℕ} {st : List (ℕ × ℕ) × Option ℕ} {entries : List (Σ _ : ℕ, Page)}
    (h : ScanInv U (k * PAGE_SIZE) st) (hsorted : entries.Pairwise fun p q => p.1 < q.1)
    (hk : ∀ entry ∈ entries, k ≤ entry.1)
    (hU : ∀ a, k * PAGE_SIZE ≤ a → (U a ↔
      ∃ entry ∈ entries, entry.1 = a / PAGE_SIZE ∧ entry.2.isFree (a % PAGE_SIZE) = false)) :
    ∃ pos, ScanInv U pos (entries.foldl scanPage st) := by
  induction entries generalizing k st with
  | nil => exact ⟨_, h⟩
  | cons entry entries ih =>
    obtain ⟨hfirst, hrest⟩ := List.pairwise_cons.mp hsorted
    have hke := hk entry (by simp)
    have hat : ScanInv U (entry.1 * PAGE_SIZE) st := by
      apply h.advance (Nat.mul_le_mul_right _ hke)
      intro a hlo hhi hu
      obtain ⟨e, he, hpn, -⟩ := (hU a hlo).mp hu
      have hdiv : a / PAGE_SIZE < entry.1 := (Nat.div_lt_iff_lt_mul (by decide)).mpr hhi
      obtain rfl | he := List.mem_cons.mp he
      · omega
      · have := hfirst e he
        omega
    have hpage : ∀ i < PAGE_SIZE,
        U (entry.1 * PAGE_SIZE + i) ↔ entry.2.isFree i = false := by
      intro i hi
      have hdiv : (entry.1 * PAGE_SIZE + i) / PAGE_SIZE = entry.1 := by
        unfold PAGE_SIZE at *
        omega
      have hmod : (entry.1 * PAGE_SIZE + i) % PAGE_SIZE = i := by
        unfold PAGE_SIZE at *
        omega
      rw [hU _ (Nat.le_add_right_of_le (Nat.mul_le_mul_right _ hke)), hdiv, hmod]
      constructor
      · rintro ⟨e, he, hpn, hfree⟩
        obtain rfl | he := List.mem_cons.mp he
        · exact hfree
        · have := hfirst e he
          omega
      · intro hfree
        exact ⟨entry, by simp, rfl, hfree⟩
    rw [List.foldl_cons]
    apply ih (hat.page hpage) hrest
    · intro e he
      exact hfirst e he
    · intro a ha
      have hlt : entry.1 < a / PAGE_SIZE := by
        rw [Nat.lt_iff_add_one_le, Nat.le_div_iff_mul_le (by decide)]
        exact ha
      rw [hU a (by have := Nat.mul_le_mul_right PAGE_SIZE hke; rw [Nat.add_mul] at ha; omega)]
      constructor
      · rintro ⟨e, he, hpn, hfree⟩
        obtain rfl | he := List.mem_cons.mp he
        · omega
        · exact ⟨e, he, hpn, hfree⟩
      · rintro ⟨e, he, hpn, hfree⟩
        exact ⟨e, List.mem_cons_of_mem _ he, hpn, hfree⟩

/-! ## One block in use -/

theorem scanByte_end (ranges : List (ℕ × ℕ)) (cur pos : ℕ) :
    scanByte (ranges, some cur) pos false = (closeRange ranges cur pos, none) := rfl

theorem scanByte_begin (ranges : List (ℕ × ℕ)) (pos : ℕ) :
    scanByte (ranges, none) pos true = (ranges, some pos) := rfl

theorem scan_free {f : ℕ → Bool} {base a n cur : ℕ} {ranges : List (ℕ × ℕ)}
    (h : ∀ i, a ≤ i → i < a + n → f i = true) :
    (List.range' a n).foldl (fun st i => scanByte st (base + i) (f i)) (ranges, some cur) =
      (ranges, some cur) := by
  induction n generalizing a with
  | zero => rfl
  | succ n ih =>
    rw [List.range'_succ, List.foldl_cons, h a le_rfl (by omega)]
    exact ih fun i hlo hhi => h i (by omega) (by omega)

theorem scan_used {f : ℕ → Bool} {base a n : ℕ} {ranges : List (ℕ × ℕ)}
    (h : ∀ i, a ≤ i → i < a + n → f i = false) :
    (List.range' a n).foldl (fun st i => scanByte st (base + i) (f i)) (ranges, none) =
      (ranges, none) := by
  induction n generalizing a with
  | zero => rfl
  | succ n ih =>
    rw [List.range'_succ, List.foldl_cons, h a le_rfl (by omega)]
    exact ih fun i hlo hhi => h i (by omega) (by omega)

/-- A page with one block in use ends the current range and begins another. -/
theorem scanPage_block {ranges : List (ℕ × ℕ)} {cur pn a b : ℕ} {page : Page}
    (h : ∀ i < PAGE_SIZE, page.isFree i = !decide (a ≤ i ∧ i < b)) (hab : a < b)
    (hb : b < PAGE_SIZE) :
    scanPage (ranges, some cur) ⟨pn, page⟩ =
      (closeRange ranges cur (pn * PAGE_SIZE + a), some (pn * PAGE_SIZE + b)) := by
  have hfree : ∀ i < PAGE_SIZE, (i < a ∨ b ≤ i) → page.isFree i = true := by
    intro i hi hout
    rw [h i hi, decide_eq_false (by omega), Bool.not_false]
  have hused : ∀ i, a ≤ i → i < b → page.isFree i = false := by
    intro i hlo hhi
    rw [h i (hhi.trans hb), decide_eq_true ⟨hlo, hhi⟩, Bool.not_true]
  have hsplit : List.range PAGE_SIZE = List.range' 0 a ++ (List.range' a (b - a - 1 + 1) ++
      List.range' b (PAGE_SIZE - b - 1 + 1)) := by
    have hrest : List.range' a (b - a - 1 + 1) ++ List.range' b (PAGE_SIZE - b - 1 + 1) =
        List.range' a (PAGE_SIZE - a) := by
      have happend := List.range'_append_1 (s := a) (m := b - a) (n := PAGE_SIZE - b)
      rw [show a + (b - a) = b by omega, show b - a + (PAGE_SIZE - b) = PAGE_SIZE - a by omega]
        at happend
      rw [show b - a - 1 + 1 = b - a by omega, show PAGE_SIZE - b - 1 + 1 = PAGE_SIZE - b by omega,
        happend]
    have happend := List.range'_append_1 (s := 0) (m := a) (n := PAGE_SIZE - a)
    rw [Nat.zero_add, show a + (PAGE_SIZE - a) = PAGE_SIZE by omega] at happend
    rw [hrest, happend, List.range_eq_range']
  rw [scanPage, hsplit, List.foldl_append, List.foldl_append,
    scan_free fun i _ hhi => hfree i (by omega) (.inl (by omega)), List.range'_succ,
    List.foldl_cons, hused a le_rfl hab, scanByte_end,
    scan_used fun i hlo hhi => hused i (by omega) (by omega), List.range'_succ, List.foldl_cons,
    hfree b hb (.inr le_rfl), scanByte_begin,
    scan_free fun i hlo hhi => hfree i (by omega) (.inr (by omega))]

/-! ## Sorted items -/

instance : Std.Total fun p q : (Σ _ : ℕ, Page) => p.1 ≤ q.1 := ⟨fun p q => le_total p.1 q.1⟩

instance : IsTrans (Σ _ : ℕ, Page) fun p q => p.1 ≤ q.1 := ⟨fun _ _ _ => le_trans⟩

theorem items_perm (m : PageMap) : m.items.Perm m.entries := List.perm_insertionSort _ _

theorem items_sorted (m : PageMap) : m.items.Pairwise fun p q => p.1 < q.1 := by
  have hle : m.items.Pairwise fun p q => p.1 ≤ q.1 := List.pairwise_insertionSort _ _
  have hne : m.items.Pairwise fun p q => p.1 ≠ q.1 :=
    List.nodupKeys_iff_pairwise.mp ((List.perm_nodupKeys (items_perm m)).mpr m.nodupKeys)
  exact (hle.and hne).imp fun h => lt_of_le_of_ne h.1 h.2

theorem mem_items {m : PageMap} {pn : ℕ} {page : Page} :
    (⟨pn, page⟩ : Σ _ : ℕ, Page) ∈ m.items ↔ m.lookup pn = some page := by
  rw [(items_perm m).mem_iff, ← Option.mem_def, AList.mem_lookup_iff]

theorem makeFreeList_ranges (m : PageMap) : FreeRanges m.Used m.makeFreeList := by
  have hinit : ScanInv m.Used (0 * PAGE_SIZE) ([], some (FIRST_PN * PAGE_SIZE)) := by
    rw [Nat.zero_mul]
    exact ScanInv.init
  obtain ⟨pos, h⟩ := hinit.pages (items_sorted m) (fun _ _ => Nat.zero_le _) (by
    intro a _
    constructor
    · rintro ⟨page, hpage, hfree⟩
      exact ⟨⟨a / PAGE_SIZE, page⟩, mem_items.mpr hpage, rfl, hfree⟩
    · rintro ⟨⟨pn, page⟩, hmem, rfl, hfree⟩
      exact ⟨page, mem_items.mp hmem, hfree⟩)
  exact h.ranges

end PageMap

/-! ## Bitmaps -/

theorem isFree_iff (page : Page) (offs : ℕ) : page.isFree offs = !page.bitmap.testBit offs := by
  rw [Page.isFree, Nat.one_shiftLeft, Nat.and_two_pow]
  cases page.bitmap.testBit offs with
  | true => simp
  | false => simp

@[simp] theorem Page.empty_isFree (offs : ℕ) : Page.empty.isFree offs = true := by
  rw [isFree_iff, Page.empty, Nat.zero_testBit]
  rfl

theorem testBit_leNat (f : ℕ → Byte) {n i : ℕ} (hi : i < 8 * n) :
    (leNat f n).testBit i = (f (i / 8)).getLsbD (i % 8) := by
  have hdiv := leNat_div f (show i / 8 < n by omega)
  have h256 : 256 ^ (i / 8) = 2 ^ (8 * (i / 8)) := by rw [Nat.pow_mul]
  rw [BitVec.getLsbD, ← hdiv, h256, show 256 = 2 ^ 8 from rfl, Nat.testBit_mod_two_pow,
    Nat.testBit_div_two_pow, decide_eq_true (by omega), Bool.true_and, Nat.add_comm,
    Nat.div_add_mod]

/-- A dumped page is free where it has not been visited. -/
theorem ofBytes_isFree (page : PageRec) {offs : ℕ} (h : offs < PAGE_SIZE) :
    (Page.ofBytes page.visited page.content).isFree offs = !page.seen offs := by
  rw [isFree_iff, Page.ofBytes, testBit_leNat _ (by unfold PAGE_SIZE at *; omega), PageRec.seen]

end RvCkpt.Parse
