import RvCkpt.Parse.Reserve
import Mathlib.Data.Finset.Max

/-! # What the free list holds

The scan begins a range at the first address it covers or at a byte of a page that the map has,
and ends it at a byte in use. So a unit of two bytes is in the list exactly if it is reached from
such a begin and a byte in use follows (`holds_makeFreeList`); all other units that are free are
lost.
-/

namespace RvCkpt.Parse
open ByteMem
set_option autoImplicit false

namespace PageMap

/-- The first address that the scan covers. -/
def firstAddr : ℕ := FIRST_PN * PAGE_SIZE

/-- An address at which the scan may begin a range. -/
def Begin (m : PageMap) (a : ℕ) : Prop := a = firstAddr ∨ a / PAGE_SIZE ∈ m

def Reached (m : PageMap) (a : ℕ) : Prop :=
  ∃ b ≤ a, m.Begin b ∧ ∀ x, b ≤ x → x ≤ a → ¬ m.Used x

/-- The list holds the unit of the bytes `2 * u` and `2 * u + 1`. -/
def Holds (freeList : List (ℕ × ℕ)) (u : ℕ) : Prop :=
  ∃ r ∈ freeList, r.1 ≤ 2 * u ∧ 2 * u < r.2

/-- Nonempty ranges between even addresses, ascending and with a gap between each two. -/
structure Separate (freeList : List (ℕ × ℕ)) : Prop where
  aligned : ∀ r ∈ freeList, 2 ∣ r.1 ∧ 2 ∣ r.2
  nonempty : ∀ r ∈ freeList, r.1 < r.2
  apart : freeList.Pairwise fun r s => r.2 < s.1

/-! ## The scan -/

/-- The scan has passed every address below `pos`. -/
structure ScanExact (m : PageMap) (pos : ℕ) (st : List (ℕ × ℕ) × Option ℕ) : Prop where
  ranges : Separate st.1
  below : ∀ r ∈ st.1, r.2 < pos
  current : ∀ cur, st.2 = some cur → m.Begin cur ∧ cur ≤ pos ∧ ∀ a, cur ≤ a → a < pos → ¬ m.Used a
  after : ∀ cur, st.2 = some cur → ∀ r ∈ st.1, r.2 < cur
  started : ∀ b, m.Begin b → b < pos → (∀ x, b ≤ x → x < pos → ¬ m.Used x) →
    ∃ cur ≤ b, st.2 = some cur
  holds : ∀ u, Holds st.1 u ↔
    m.Reached (2 * u) ∧ ¬ m.Used (2 * u + 1) ∧ ∃ a, m.Used a ∧ 2 * u + 1 < a ∧ a < pos

variable {m : PageMap}

theorem separate_closeRange {ranges : List (ℕ × ℕ)} {cur pos : ℕ} (h : Separate ranges)
    (hafter : ∀ r ∈ ranges, r.2 < cur) : Separate (closeRange ranges cur pos) := by
  refine ⟨?_, ?_, pairwise_closeRange h.apart ?_⟩
  · intro r hr
    obtain hr | ⟨rfl, -⟩ := mem_closeRange.mp hr
    · exact h.aligned r hr
    · exact ⟨Nat.dvd_mul_left _ _, Nat.dvd_mul_left _ _⟩
  · intro r hr
    obtain hr | ⟨-, hne⟩ := mem_closeRange.mp hr
    · exact h.nonempty r hr
    · exact hne
  · intro r hr
    have := hafter r hr
    simp only
    omega

theorem holds_closeRange (ranges : List (ℕ × ℕ)) (cur pos u : ℕ) :
    Holds (closeRange ranges cur pos) u ↔
      Holds ranges u ∨ (cur ≤ 2 * u ∧ 2 * u + 1 < pos) := by
  constructor
  · rintro ⟨r, hr, hlo, hhi⟩
    obtain hr | ⟨rfl, -⟩ := mem_closeRange.mp hr
    · exact .inl ⟨r, hr, hlo, hhi⟩
    · simp only at hlo hhi
      exact .inr (by omega)
  · rintro (⟨r, hr, hu⟩ | hu)
    · exact ⟨r, mem_closeRange.mpr (.inl hr), hu⟩
    · refine ⟨_, mem_closeRange.mpr (.inr ⟨rfl, ?_⟩), ?_⟩
      · simp only
        omega
      · simp only
        omega

/-- A unit that ends before the scan's position is free up to there, or a byte in use has been
met behind it. -/
theorem used_or_clear (m : PageMap) (u pos : ℕ) :
    (∃ a, m.Used a ∧ u < a ∧ a < pos) ∨ ∀ x, u < x → x < pos → ¬ m.Used x := by
  by_cases h : ∃ a, m.Used a ∧ u < a ∧ a < pos
  · exact .inl h
  · refine .inr ?_
    intro x hlo hhi hx
    exact h ⟨x, hx, hlo, hhi⟩

/-- The first range is open when the scan comes to the first page. -/
theorem ScanExact.init {pos : ℕ} (hpos : firstAddr ≤ pos)
    (hclear : ∀ a, firstAddr ≤ a → a < pos → ¬ m.Used a)
    (hpages : ∀ a < pos, a / PAGE_SIZE ∉ m) :
    ScanExact m pos ([], some firstAddr) := by
  have hused : ∀ a < pos, ¬ m.Used a := by
    rintro a ha ⟨page, hpage, -⟩
    exact hpages a ha (AList.lookup_isSome.mp (by rw [hpage]; rfl))
  refine ⟨⟨?_, ?_, List.Pairwise.nil⟩, ?_, ?_, ?_, ?_, ?_⟩
  · intro r hr
    cases hr
  · intro r hr
    cases hr
  · intro r hr
    cases hr
  · rintro cur ⟨⟩
    exact ⟨.inl rfl, hpos, hclear⟩
  · intro cur _ r hr
    cases hr
  · intro b hb hlt _
    obtain rfl | hb := hb
    · exact ⟨firstAddr, le_rfl, rfl⟩
    · exact absurd hb (hpages b hlt)
  · intro u
    constructor
    · rintro ⟨r, hr, -⟩
      cases hr
    · rintro ⟨-, -, a, ha, -, hlt⟩
      exact absurd ha (hused a hlt)

theorem ScanExact.advance {pos pos' : ℕ} {st : List (ℕ × ℕ) × Option ℕ} (h : ScanExact m pos st)
    (hle : pos ≤ pos') (hgap : ∀ a, pos ≤ a → a < pos' → ¬ m.Used a ∧ ¬ m.Begin a) :
    ScanExact m pos' st := by
  refine ⟨h.ranges, fun r hr => (h.below r hr).trans_le hle, ?_, h.after, ?_, ?_⟩
  · intro cur hcur
    obtain ⟨hbegin, hpos, hclear⟩ := h.current cur hcur
    refine ⟨hbegin, hpos.trans hle, ?_⟩
    intro a hlo hhi
    by_cases ha : a < pos
    · exact hclear a hlo ha
    · exact (hgap a (by omega) hhi).1
  · intro b hb hlt hclear
    have hbpos : b < pos := by
      by_contra hge
      exact (hgap b (by omega) hlt).2 hb
    exact h.started b hb hbpos fun x hlo hhi => hclear x hlo (by omega)
  · intro u
    rw [h.holds u]
    constructor
    · rintro ⟨hreach, hodd, a, ha, hlo, hhi⟩
      exact ⟨hreach, hodd, a, ha, hlo, by omega⟩
    · rintro ⟨hreach, hodd, a, ha, hlo, hhi⟩
      refine ⟨hreach, hodd, a, ha, hlo, ?_⟩
      by_contra hge
      exact (hgap a (by omega) hhi).1 ha

/-- A free byte. -/
theorem ScanExact.freeByte {pos : ℕ} {st : List (ℕ × ℕ) × Option ℕ} (h : ScanExact m pos st)
    (hbegin : m.Begin pos) (hfree : ¬ m.Used pos) :
    ScanExact m (pos + 1) (scanByte st pos true) := by
  have hholds : ∀ u, Holds st.1 u ↔ m.Reached (2 * u) ∧ ¬ m.Used (2 * u + 1) ∧
      ∃ a, m.Used a ∧ 2 * u + 1 < a ∧ a < pos + 1 := by
    intro u
    rw [h.holds u]
    constructor
    · rintro ⟨hreach, hodd, a, ha, hlo, hhi⟩
      exact ⟨hreach, hodd, a, ha, hlo, by omega⟩
    · rintro ⟨hreach, hodd, a, ha, hlo, hhi⟩
      have hne : a ≠ pos := fun heq => hfree (heq ▸ ha)
      exact ⟨hreach, hodd, a, ha, hlo, by omega⟩
  obtain ⟨ranges, cur⟩ := st
  have hbelow : ∀ r ∈ ranges, r.2 < pos + 1 := fun r hr => (h.below r hr).trans (by omega)
  cases cur with
  | some cur =>
    obtain ⟨hcur, hpos, hclear⟩ := h.current cur rfl
    refine ⟨h.ranges, hbelow, ?_, h.after, ?_, hholds⟩
    · rintro _ ⟨⟩
      refine ⟨hcur, by omega, ?_⟩
      intro a hlo hhi
      by_cases ha : a = pos
      · rwa [ha]
      · exact hclear a hlo (by omega)
    · intro b hb hlt hx
      by_cases hbpos : b = pos
      · exact ⟨cur, by omega, rfl⟩
      · exact h.started b hb (by omega) fun x hlo hhi => hx x hlo (by omega)
  | none =>
    refine ⟨h.ranges, hbelow, ?_, ?_, ?_, hholds⟩
    · rintro _ ⟨⟩
      refine ⟨hbegin, by omega, ?_⟩
      intro a hlo hhi
      rwa [show a = pos by omega]
    · rintro _ ⟨⟩ r hr
      exact h.below r hr
    · intro b hb hlt hx
      by_cases hbpos : b = pos
      · exact ⟨pos, by omega, rfl⟩
      · obtain ⟨cur, -, hcur⟩ := h.started b hb (by omega) fun x hlo hhi => hx x hlo (by omega)
        cases hcur

/-- A byte in use ends the range that is open. -/
theorem ScanExact.usedByte {pos : ℕ} {st : List (ℕ × ℕ) × Option ℕ} (h : ScanExact m pos st)
    (hused : m.Used pos) : ScanExact m (pos + 1) (scanByte st pos false) := by
  have hstarted : ∀ b, m.Begin b → b < pos + 1 → (∀ x, b ≤ x → x < pos + 1 → ¬ m.Used x) →
      ∃ cur ≤ b, (none : Option ℕ) = some cur := by
    intro b _ hlt hx
    exact absurd hused (hx pos (by omega) (by omega))
  obtain ⟨ranges, cur⟩ := st
  cases cur with
  | none =>
    refine ⟨h.ranges, fun r hr => (h.below r hr).trans (by omega), ?_, ?_, hstarted, ?_⟩
    · rintro _ ⟨⟩
    · rintro _ ⟨⟩
    · intro u
      simp only [scanByte]
      rw [h.holds u]
      constructor
      · rintro ⟨hreach, hodd, a, ha, hlo, hhi⟩
        exact ⟨hreach, hodd, a, ha, hlo, by omega⟩
      · rintro ⟨⟨b, hb, hbegin, hx⟩, hodd, a, ha, hlo, hhi⟩
        refine ⟨⟨b, hb, hbegin, hx⟩, hodd, ?_⟩
        obtain hmet | hclear := used_or_clear m (2 * u + 1) pos
        · exact hmet
        · -- no range is open, so a byte in use follows the begin
          obtain ⟨cur, -, hcur⟩ := h.started b hbegin (by omega) (by
            intro x hlo' hhi'
            by_cases hxu : x ≤ 2 * u
            · exact hx x hlo' hxu
            · by_cases hxo : x = 2 * u + 1
              · rwa [hxo]
              · exact hclear x (by omega) hhi')
          cases hcur
  | some cur =>
    obtain ⟨hbegin, hpos, hclear⟩ := h.current cur rfl
    refine ⟨separate_closeRange h.ranges (h.after cur rfl), ?_, ?_, ?_, hstarted, ?_⟩
    · intro r hr
      have hlast : r.2 ≤ pos := closeRange_below (fun r hr => (h.below r hr).le) r hr
      omega
    · rintro _ ⟨⟩
    · rintro _ ⟨⟩
    · intro u
      simp only [scanByte]
      rw [holds_closeRange, h.holds u]
      constructor
      · rintro (⟨hreach, hodd, a, ha, hlo, hhi⟩ | ⟨hlo, hhi⟩)
        · exact ⟨hreach, hodd, a, ha, hlo, by omega⟩
        · refine ⟨⟨cur, hlo, hbegin, ?_⟩, hclear _ (by omega) hhi, pos, hused, hhi, by omega⟩
          intro x hlo' hhi'
          exact hclear x hlo' (by omega)
      · rintro ⟨⟨b, hb, hbegin', hx⟩, hodd, a, ha, hlo, hhi⟩
        obtain hmet | hclear' := used_or_clear m (2 * u + 1) pos
        · exact .inl ⟨⟨b, hb, hbegin', hx⟩, hodd, hmet⟩
        · obtain ⟨cur', hle, hcur⟩ := h.started b hbegin' (by omega) (by
            intro x hlo' hhi'
            by_cases hxu : x ≤ 2 * u
            · exact hx x hlo' hxu
            · by_cases hxo : x = 2 * u + 1
              · rwa [hxo]
              · exact hclear' x (by omega) hhi')
          obtain rfl := Option.some.inj hcur
          exact .inr ⟨hle.trans hb, by omega⟩

theorem ScanExact.bytes {base n : ℕ} {st : List (ℕ × ℕ) × Option ℕ} {free : ℕ → Bool}
    (h : ScanExact m base st)
    (hbytes : ∀ i < n, m.Begin (base + i) ∧ (m.Used (base + i) ↔ free i = false)) :
    ScanExact m (base + n)
      ((List.range n).foldl (fun st i => scanByte st (base + i) (free i)) st) := by
  induction n with
  | zero => exact h
  | succ n ih =>
    rw [List.range_succ, List.foldl_append]
    have hscan := ih fun i hi => hbytes i (by omega)
    obtain ⟨hbegin, hused⟩ := hbytes n (by omega)
    simp only [List.foldl_cons, List.foldl_nil]
    cases hfree : free n with
    | true => exact hscan.freeByte hbegin (by rw [hused, hfree]; decide)
    | false => exact hscan.usedByte (hused.mpr hfree)

theorem addr_div {pn i : ℕ} (hi : i < PAGE_SIZE) : (pn * PAGE_SIZE + i) / PAGE_SIZE = pn := by
  unfold PAGE_SIZE at *
  omega

theorem addr_mod {pn i : ℕ} (hi : i < PAGE_SIZE) : (pn * PAGE_SIZE + i) % PAGE_SIZE = i := by
  unfold PAGE_SIZE at *
  omega

theorem used_addr {pn i : ℕ} {page : Page} (hpage : m.lookup pn = some page)
    (hi : i < PAGE_SIZE) : m.Used (pn * PAGE_SIZE + i) ↔ page.isFree i = false := by
  rw [Used, addr_div hi, addr_mod hi, hpage]
  constructor
  · rintro ⟨page', hpage', hfree⟩
    rwa [Option.some.inj hpage']
  · intro hfree
    exact ⟨page, rfl, hfree⟩

theorem ScanExact.page {st : List (ℕ × ℕ) × Option ℕ} {entry : Σ _ : ℕ, Page}
    (h : ScanExact m (entry.1 * PAGE_SIZE) st) (hpage : m.lookup entry.1 = some entry.2) :
    ScanExact m ((entry.1 + 1) * PAGE_SIZE) (scanPage st entry) := by
  rw [Nat.add_mul, Nat.one_mul, scanPage]
  apply h.bytes
  intro i hi
  refine ⟨.inr ?_, used_addr hpage hi⟩
  rw [addr_div hi]
  exact AList.lookup_isSome.mp (by rw [hpage]; rfl)

/-- The pages from `k` on are the ones still to come. -/
structure Rest (m : PageMap) (k : ℕ) (entries : List (Σ _ : ℕ, Page)) : Prop where
  sorted : entries.Pairwise fun p q => p.1 < q.1
  above : ∀ entry ∈ entries, k ≤ entry.1
  lookup : ∀ entry ∈ entries, m.lookup entry.1 = some entry.2
  mem : ∀ pn, k ≤ pn → pn ∈ m → ∃ entry ∈ entries, entry.1 = pn

theorem Rest.tail {k : ℕ} {entry : Σ _ : ℕ, Page} {entries : List (Σ _ : ℕ, Page)}
    (h : Rest m k (entry :: entries)) : Rest m (entry.1 + 1) entries := by
  obtain ⟨hfirst, hrest⟩ := List.pairwise_cons.mp h.sorted
  refine ⟨hrest, hfirst, fun e he => h.lookup e (List.mem_cons_of_mem _ he), ?_⟩
  intro pn hpn hmem
  have hk := h.above entry List.mem_cons_self
  obtain ⟨e, he, rfl⟩ := h.mem pn (by omega) hmem
  obtain rfl | he := List.mem_cons.mp he
  · omega
  · exact ⟨e, he, rfl⟩

/-- Between `k` and the next page the map has nothing. -/
theorem Rest.gap {k : ℕ} {entry : Σ _ : ℕ, Page} {entries : List (Σ _ : ℕ, Page)}
    (h : Rest m k (entry :: entries)) {a : ℕ} (hlo : k * PAGE_SIZE ≤ a)
    (hhi : a < entry.1 * PAGE_SIZE) : a / PAGE_SIZE ∉ m := by
  intro hmem
  have hlt : a / PAGE_SIZE < entry.1 := (Nat.div_lt_iff_lt_mul (by decide)).mpr hhi
  have hge : k ≤ a / PAGE_SIZE := (Nat.le_div_iff_mul_le (by decide)).mpr hlo
  obtain ⟨e, he, hpn⟩ := h.mem _ hge hmem
  obtain rfl | he := List.mem_cons.mp he
  · omega
  · have := (List.pairwise_cons.mp h.sorted).1 e he
    omega

theorem mem_of_lookup {pn : ℕ} {page : Page} (h : m.lookup pn = some page) : pn ∈ m :=
  AList.lookup_isSome.mp (by rw [h]; rfl)

theorem ScanExact.pages {k : ℕ} {st : List (ℕ × ℕ) × Option ℕ} {entries : List (Σ _ : ℕ, Page)}
    (h : ScanExact m (k * PAGE_SIZE) st) (hrest : Rest m k entries) (hk : FIRST_PN < k) :
    ∃ pos, ScanExact m pos (entries.foldl scanPage st) ∧ ∀ a, m.Used a → a < pos := by
  induction entries generalizing k st with
  | nil =>
    refine ⟨_, h, ?_⟩
    intro a ha
    by_contra hge
    have hpn : k ≤ a / PAGE_SIZE := (Nat.le_div_iff_mul_le (by decide)).mpr (by omega)
    obtain ⟨e, he, -⟩ := hrest.mem _ hpn (mem_of_used ha)
    cases he
  | cons entry entries ih =>
    have hke := hrest.above entry List.mem_cons_self
    have hat : ScanExact m (entry.1 * PAGE_SIZE) st := by
      apply h.advance (Nat.mul_le_mul_right _ hke)
      intro a hlo hhi
      have hmem := hrest.gap hlo hhi
      refine ⟨fun hused => hmem (mem_of_used hused), ?_⟩
      rintro (rfl | hbegin)
      · have hlt : firstAddr < k * PAGE_SIZE := Nat.mul_lt_mul_of_pos_right hk (by decide)
        omega
      · exact hmem hbegin
    rw [List.foldl_cons]
    exact ih (hat.page (hrest.lookup entry List.mem_cons_self)) hrest.tail (by omega)

/-! ## The whole map -/

theorem rest_items (m : PageMap) : Rest m 0 m.items := by
  refine ⟨items_sorted m, fun _ _ => Nat.zero_le _, fun entry hmem => mem_items.mp hmem, ?_⟩
  intro pn _ hmem
  obtain ⟨page, hpage⟩ := Option.isSome_iff_exists.mp (AList.lookup_isSome.mpr hmem)
  exact ⟨⟨pn, page⟩, mem_items.mpr hpage, rfl⟩

theorem makeFreeList_exact (hlow : ∀ pn ∈ m, FIRST_PN ≤ pn) :
    Separate m.makeFreeList ∧ ∀ u, Holds m.makeFreeList u ↔
      m.Reached (2 * u) ∧ ¬ m.Used (2 * u + 1) ∧ ∃ a, m.Used a ∧ 2 * u + 1 < a := by
  have hscan : ∃ pos, ScanExact m pos (m.items.foldl scanPage ([], some firstAddr)) ∧
      ∀ a, m.Used a → a < pos := by
    have hrest := rest_items m
    cases hitems : m.items with
    | nil =>
      rw [hitems] at hrest
      have hempty : ∀ pn, pn ∉ m := by
        intro pn hmem
        obtain ⟨e, he, -⟩ := hrest.mem pn (Nat.zero_le _) hmem
        cases he
      refine ⟨firstAddr, ScanExact.init le_rfl ?_ fun a _ => hempty _, ?_⟩
      · intro a hlo hhi
        omega
      · intro a ha
        exact absurd (mem_of_used ha) (hempty _)
    | cons entry entries =>
      rw [hitems] at hrest
      have hentry := hrest.lookup entry List.mem_cons_self
      have hfirst : FIRST_PN ≤ entry.1 := hlow _ (mem_of_lookup hentry)
      have hgap : ∀ a < entry.1 * PAGE_SIZE, a / PAGE_SIZE ∉ m := by
        intro a ha
        exact hrest.gap (by omega) ha
      have hinit : ScanExact m (entry.1 * PAGE_SIZE) ([], some firstAddr) :=
        ScanExact.init (Nat.mul_le_mul_right _ hfirst)
          (fun a _ ha hused => hgap a ha (mem_of_used hused)) hgap
      rw [List.foldl_cons]
      exact (hinit.page hentry).pages hrest.tail (by omega)
  obtain ⟨pos, h, hpos⟩ := hscan
  refine ⟨h.ranges, ?_⟩
  intro u
  rw [makeFreeList, show FIRST_PN * PAGE_SIZE = firstAddr from rfl, h.holds u]
  constructor
  · rintro ⟨hreach, hodd, a, ha, hlo, -⟩
    exact ⟨hreach, hodd, a, ha, hlo⟩
  · rintro ⟨hreach, hodd, a, ha, hlo⟩
    exact ⟨hreach, hodd, a, ha, hlo, hpos a ha⟩

end PageMap

/-! ## Exactness -/

/-- A page map whose pages are at or above `FIRST_PN`. -/
structure UserMap where
  map : PageMap
  low : ∀ pn ∈ map, FIRST_PN ≤ pn

namespace UserMap
open PageMap

/-- A unit of two bytes that have not been visited, between the first page that may be used and
the end of the last page of the map. -/
structure FreeUnit (m : UserMap) (u : ℕ) : Prop where
  first : FIRST_PN * PAGE_SIZE ≤ 2 * u
  last : ∃ pn ∈ m.map, 2 * u + 2 ≤ (pn + 1) * PAGE_SIZE
  even : ¬ m.map.Used (2 * u)
  odd : ¬ m.map.Used (2 * u + 1)

/-- The free list is exact. -/
structure ListExact (m : UserMap) : Prop where
  ranges : Separate m.map.makeFreeList
  holds : ∀ u, Holds m.map.makeFreeList u ↔ m.FreeUnit u

/-- A byte in use ends the last page, and nothing is missing behind a page that ends so. -/
structure EndsUsed (m : UserMap) : Prop where
  last : ∀ pn ∈ m.map, (∀ q ∈ m.map, q ≤ pn) →
    m.map.Used (pn * PAGE_SIZE + (PAGE_SIZE - 2)) ∨ m.map.Used (pn * PAGE_SIZE + (PAGE_SIZE - 1))
  inner : ∀ pn ∈ m.map, m.map.Used (pn * PAGE_SIZE + (PAGE_SIZE - 1)) →
    (∃ q ∈ m.map, pn < q) → pn + 1 ∈ m.map

variable {m : UserMap}

theorem FreeUnit.of_holds {u : ℕ} (h : Holds m.map.makeFreeList u) : m.FreeUnit u := by
  obtain ⟨⟨b, hb, hbegin, hclear⟩, hodd, a, ha, hlo⟩ :=
    ((makeFreeList_exact m.low).2 u).mp h
  refine ⟨?_, ⟨a / PAGE_SIZE, mem_of_used ha, ?_⟩, hclear _ hb le_rfl, hodd⟩
  · obtain rfl | hpage := hbegin
    · exact hb
    · have hpn := m.low _ hpage
      have hle : FIRST_PN * PAGE_SIZE ≤ b := (Nat.le_div_iff_mul_le (by decide)).mp hpn
      exact hle.trans hb
  · have hlt : a < (a / PAGE_SIZE + 1) * PAGE_SIZE := by
      unfold PAGE_SIZE
      omega
    omega

/-- A unit that is free lies in the list if the scan reaches it and does not end before a byte in
use. -/
theorem holds_of_freeUnit {u : ℕ} (h : m.FreeUnit u) (hreach : m.map.Reached (2 * u))
    (hused : ∃ a, m.map.Used a ∧ 2 * u + 1 < a) : Holds m.map.makeFreeList u :=
  ((makeFreeList_exact m.low).2 u).mpr ⟨hreach, h.odd, hused⟩

theorem exists_greatest {p : ℕ → Prop} (hp : ∃ pn ∈ m.map, p pn) :
    ∃ pn ∈ m.map, p pn ∧ ∀ q ∈ m.map, p q → q ≤ pn := by
  classical
  have hmem : ∀ pn, pn ∈ m.map.keys.toFinset.filter p ↔ pn ∈ m.map ∧ p pn := by
    intro pn
    rw [Finset.mem_filter, List.mem_toFinset, AList.mem_keys]
  obtain ⟨pn, hpn, hp⟩ := hp
  obtain ⟨last, hlast, hle⟩ := Finset.exists_max_image (m.map.keys.toFinset.filter p) id
    ⟨pn, (hmem pn).mpr ⟨hpn, hp⟩⟩
  obtain ⟨hlast, hplast⟩ := (hmem last).mp hlast
  exact ⟨last, hlast, hplast, fun q hq hpq => hle q ((hmem q).mpr ⟨hq, hpq⟩)⟩

theorem div_of_between {pn a : ℕ} (hlo : pn * PAGE_SIZE ≤ a) (hhi : a < (pn + 1) * PAGE_SIZE) :
    a / PAGE_SIZE = pn := by
  unfold PAGE_SIZE at *
  omega

theorem EndsUsed.reached (h : m.EndsUsed) {u : ℕ} (hu : m.FreeUnit u) :
    m.map.Reached (2 * u) := by
  by_cases hpage : 2 * u / PAGE_SIZE ∈ m.map
  · refine ⟨2 * u, le_rfl, .inr hpage, ?_⟩
    intro x hlo hhi
    rw [show x = 2 * u by omega]
    exact hu.even
  · by_cases hbelow : ∃ pn ∈ m.map, pn < 2 * u / PAGE_SIZE
    · -- the last page before the unit ends with a free byte
      obtain ⟨pn, hpn, hlt, hgreatest⟩ := exists_greatest hbelow
      obtain ⟨q, hq, hend⟩ := hu.last
      have hbig : pn < q := by
        unfold PAGE_SIZE at *
        omega
      have hlast : ¬ m.map.Used (pn * PAGE_SIZE + (PAGE_SIZE - 1)) := by
        intro hused
        have hnext := h.inner pn hpn hused ⟨q, hq, hbig⟩
        by_cases heq : pn + 1 = 2 * u / PAGE_SIZE
        · exact hpage (heq ▸ hnext)
        · have := hgreatest _ hnext (by omega)
          omega
      refine ⟨pn * PAGE_SIZE + (PAGE_SIZE - 1), ?_, .inr ?_, ?_⟩
      · unfold PAGE_SIZE at *
        omega
      · rw [addr_div (by decide)]
        exact hpn
      · intro x hlo hhi hused
        by_cases hx : x = pn * PAGE_SIZE + (PAGE_SIZE - 1)
        · exact hlast (hx ▸ hused)
        · have hmem := mem_of_used hused
          by_cases heq : x / PAGE_SIZE = 2 * u / PAGE_SIZE
          · exact hpage (heq ▸ hmem)
          · have hle := hgreatest _ hmem (by unfold PAGE_SIZE at *; omega)
            unfold PAGE_SIZE at *
            omega
    · refine ⟨firstAddr, hu.first, .inl rfl, ?_⟩
      intro x hlo hhi hused
      have hmem := mem_of_used hused
      have hle : x / PAGE_SIZE ≤ 2 * u / PAGE_SIZE := Nat.div_le_div_right hhi
      obtain hlt | heq := Nat.lt_or_eq_of_le hle
      · exact hbelow ⟨_, hmem, hlt⟩
      · exact hpage (heq ▸ hmem)

theorem EndsUsed.later (h : m.EndsUsed) {u : ℕ} (hu : m.FreeUnit u) :
    ∃ a, m.map.Used a ∧ 2 * u + 1 < a := by
  obtain ⟨q, hq, hend⟩ := hu.last
  obtain ⟨last, hlast, -, hle⟩ := exists_greatest (p := fun _ => True) ⟨q, hq, trivial⟩
  have hqle := hle q hq trivial
  have hbound : 2 * u + 2 ≤ (last + 1) * PAGE_SIZE :=
    hend.trans (Nat.mul_le_mul_right _ (by omega))
  obtain hused | hused := h.last last hlast fun p hp => hle p hp trivial
  · refine ⟨_, hused, ?_⟩
    by_contra hge
    have heven : 2 * u = last * PAGE_SIZE + (PAGE_SIZE - 2) := by
      unfold PAGE_SIZE at *
      omega
    exact hu.even (heven ▸ hused)
  · refine ⟨_, hused, ?_⟩
    by_contra hge
    have hodd : 2 * u + 1 = last * PAGE_SIZE + (PAGE_SIZE - 1) := by
      unfold PAGE_SIZE at *
      omega
    exact hu.odd (hodd ▸ hused)

/-- A page that ends free is not the last one. -/
theorem ListExact.last_used (h : m.ListExact) {pn : ℕ} (hpn : pn ∈ m.map)
    (hlast : ∀ q ∈ m.map, q ≤ pn) :
    m.map.Used (pn * PAGE_SIZE + (PAGE_SIZE - 2)) ∨
      m.map.Used (pn * PAGE_SIZE + (PAGE_SIZE - 1)) := by
  have hlow : FIRST_PN * PAGE_SIZE ≤ pn * PAGE_SIZE := Nat.mul_le_mul_right _ (m.low pn hpn)
  by_contra hfree
  obtain ⟨heven, hodd⟩ := not_or.mp hfree
  obtain ⟨u, hu⟩ : ∃ u, 2 * u = pn * PAGE_SIZE + (PAGE_SIZE - 2) :=
    ⟨pn * 2048 + 2047, by unfold PAGE_SIZE; omega⟩
  have hu' : 2 * u + 1 = pn * PAGE_SIZE + (PAGE_SIZE - 1) := by
    unfold PAGE_SIZE at *
    omega
  have hunit : m.FreeUnit u := by
    refine ⟨by omega, ⟨pn, hpn, ?_⟩, hu ▸ heven, hu' ▸ hodd⟩
    unfold PAGE_SIZE at *
    omega
  obtain ⟨-, -, a, ha, hlt⟩ := ((makeFreeList_exact m.low).2 u).mp ((h.holds u).mpr hunit)
  have hle := hlast _ (mem_of_used ha)
  unfold PAGE_SIZE at *
  omega

/-- Free space behind a page that ends with a byte in use belongs to a page. -/
theorem ListExact.next_mem (h : m.ListExact) {pn : ℕ} (hpn : pn ∈ m.map)
    (hused : m.map.Used (pn * PAGE_SIZE + (PAGE_SIZE - 1))) (hq : ∃ q ∈ m.map, pn < q) :
    pn + 1 ∈ m.map := by
  have hlow : FIRST_PN * PAGE_SIZE ≤ pn * PAGE_SIZE := Nat.mul_le_mul_right _ (m.low pn hpn)
  by_contra hnext
  obtain ⟨q, hqmem, hlt⟩ := hq
  obtain ⟨u, hu⟩ : ∃ u, 2 * u = (pn + 1) * PAGE_SIZE :=
    ⟨(pn + 1) * 2048, by unfold PAGE_SIZE; omega⟩
  have hgap : ∀ a, (pn + 1) * PAGE_SIZE ≤ a → a < (pn + 1 + 1) * PAGE_SIZE → ¬ m.map.Used a := by
    intro a hlo hhi ha
    exact hnext (div_of_between hlo hhi ▸ mem_of_used ha)
  have hunit : m.FreeUnit u := by
    have hne : q ≠ pn + 1 := fun heq => hnext (heq ▸ hqmem)
    refine ⟨?_, ⟨q, hqmem, ?_⟩, hgap _ hu.ge ?_, hgap _ (by omega) ?_⟩
    · rw [hu, Nat.succ_mul]
      omega
    · unfold PAGE_SIZE at *
      omega
    · unfold PAGE_SIZE at *
      omega
    · unfold PAGE_SIZE at *
      omega
  obtain ⟨⟨b, hb, hbegin, hclear⟩, -⟩ :=
    ((makeFreeList_exact m.low).2 u).mp ((h.holds u).mpr hunit)
  have hbefore : b ≤ pn * PAGE_SIZE + (PAGE_SIZE - 1) := by
    obtain rfl | hpage := hbegin
    · exact hlow.trans (Nat.le_add_right _ _)
    · by_contra hgt
      have hdiv : b / PAGE_SIZE = pn + 1 := by
        unfold PAGE_SIZE at *
        omega
      exact hnext (hdiv ▸ hpage)
  have hwithin : pn * PAGE_SIZE + (PAGE_SIZE - 1) ≤ 2 * u := by
    unfold PAGE_SIZE at hu ⊢
    omega
  exact hclear _ hbefore hwithin hused

/-- The free list is exact only if the last page ends with a byte in use and only free space that
follows a free byte, or begins the scan, belongs to no page. -/
theorem listExact_iff (m : UserMap) : m.ListExact ↔ m.EndsUsed := by
  constructor
  · intro h
    exact ⟨fun _ hpn hlast => h.last_used hpn hlast, fun _ hpn hused hq => h.next_mem hpn hused hq⟩
  · intro h
    refine ⟨(makeFreeList_exact m.low).1, ?_⟩
    intro u
    exact ⟨FreeUnit.of_holds, fun hu => holds_of_freeUnit hu (h.reached hu) (h.later hu)⟩

end UserMap

/-- One page with nothing in use. -/
def blankMap : UserMap where
  map := (∅ : PageMap).insert FIRST_PN Page.empty
  low := by
    intro pn hpn
    obtain rfl | hpn := (AList.mem_insert _).mp hpn
    · exact le_rfl
    · exact absurd hpn (AList.notMem_empty _)

theorem blankMap_not_exact : ¬ ∀ m : UserMap, m.ListExact := by
  intro h
  have hfree : ∀ a, ¬ blankMap.map.Used a := by
    rintro a ⟨page, hpage, hused⟩
    have hdiv : a / PAGE_SIZE = FIRST_PN := by
      obtain heq | hmem := (AList.mem_insert _).mp (PageMap.mem_of_lookup hpage)
      · exact heq
      · exact absurd hmem (AList.notMem_empty _)
    rw [hdiv, blankMap, AList.lookup_insert, Option.some.injEq] at hpage
    rw [← hpage, Page.empty_isFree] at hused
    cases hused
  have hmem : FIRST_PN ∈ blankMap.map := (AList.mem_insert _).mpr (.inl rfl)
  have hlast : ∀ q ∈ blankMap.map, q ≤ FIRST_PN := by
    intro q hq
    obtain rfl | hq := (AList.mem_insert _).mp hq
    · exact le_rfl
    · exact absurd hq (AList.notMem_empty _)
  obtain hused | hused := (h blankMap).last_used hmem hlast
  · exact hfree _ hused
  · exact hfree _ hused

end RvCkpt.Parse
