import RvCkpt.Loader.LoadImage

/-! # Segments of an image

An image as it is meant: segments of consecutive pages, each with the bytes that the file holds for
it, as they are or compressed. Mapping the table of such an image puts every segment in its place.
-/

namespace RvCkpt.Loader
open ByteMem Text Parse
set_option autoImplicit false

/-- Consecutive pages from `pn` on, and what the file holds for them. -/
structure Segment where
  pn : ℕ
  pages : List (List Byte)
  stored : List Byte

/-- Pages with their numbers. -/
def numbered : ℕ → List (List Byte) → List (ℕ × List Byte)
  | _, [] => []
  | pn, page :: pages => (pn, page) :: numbered (pn + 1) pages

theorem mem_numbered {pn : ℕ} {pages : List (List Byte)} {k : ℕ} :
    k ∈ (numbered pn pages).map Prod.fst ↔ pn ≤ k ∧ k < pn + pages.length := by
  induction pages generalizing pn with
  | nil =>
    rw [numbered, List.length_nil]
    simp
  | cons page pages ih =>
    rw [numbered, List.map_cons, List.mem_cons, ih, List.length_cons]
    dsimp only
    omega

namespace Segment

def contents (g : Segment) : List (ℕ × List Byte) := numbered g.pn g.pages

def keys (g : Segment) : List ℕ := g.contents.map Prod.fst

def addr (g : Segment) : ℕ := g.pn * PAGE_SIZE

def size (g : Segment) : ℕ := g.pages.length * PAGE_SIZE

theorem mem_keys {g : Segment} {k : ℕ} : k ∈ g.keys ↔ g.pn ≤ k ∧ k < g.pn + g.pages.length :=
  mem_numbered

/-- There are pages, and they have their size. -/
structure Whole (g : Segment) : Prop where
  some_page : g.pages ≠ []
  sized : ∀ page ∈ g.pages, page.length = PAGE_SIZE

theorem Whole.flatten_length {g : Segment} (h : g.Whole) : g.pages.flatten.length = g.size := by
  have hlen : ∀ pages : List (List Byte), (∀ page ∈ pages, page.length = PAGE_SIZE) →
      pages.flatten.length = pages.length * PAGE_SIZE := by
    intro pages hpages
    induction pages with
    | nil => rw [List.length_nil, Nat.zero_mul]; rfl
    | cons page pages ih =>
      rw [List.flatten_cons, List.length_append, hpages page (by simp),
        ih fun page' h' => hpages page' (by simp [h']), List.length_cons, Nat.succ_mul,
        Nat.add_comm]
  exact hlen g.pages h.sized

theorem Whole.size_pos {g : Segment} (h : g.Whole) : PAGE_SIZE ≤ g.size :=
  Nat.le_mul_of_pos_left _ (List.length_pos_of_ne_nil h.some_page)

def Raw (g : Segment) : Prop := g.stored = g.pages.flatten

/-- The file holds what decompresses to the pages, and it fits into the loader's buffer. -/
structure Packed (decompress : List Byte → ℕ → Option (List Byte)) (g : Segment) : Prop where
  short : g.stored.length ≤ CL_BUF_SIZE
  data : decompress g.stored g.size = some g.pages.flatten

end Segment

open Segment

/-- The mappings of segments whose data is in the file from `offset` on. -/
def tableOf : ℕ → List Segment → List MmapCfg
  | _, [] => []
  | offset, g :: rest =>
    ⟨g.addr, offset, g.size, g.stored.length⟩ :: tableOf (offset + g.stored.length) rest

def fileOf (segs : List Segment) : List Byte := segs.flatMap (·.stored)

/-- The mapping finds the segment in the file. -/
structure Finds (decompress : List Byte → ℕ → Option (List Byte)) (file : List Byte)
    (e : MmapCfg) (g : Segment) : Prop where
  addr : e.addr = g.addr
  size : e.size = g.size
  length : e.length = g.stored.length
  stored : (file.drop e.offset).take e.length = g.stored
  kind : (g.Raw ∧ e.offset % PAGE_SIZE = 0) ∨ g.Packed decompress

/-! ## One segment -/

/-- The address space with the segment in its place. -/
def placed (s : Space) (g : Segment) : Space where
  mapped := fun pn => decide (pn ∈ g.keys) || s.mapped pn
  mem := s.mem.writeBytes g.addr g.pages.flatten

@[simp] theorem placed_mapped (s : Space) (g : Segment) (pn : ℕ) :
    (placed s g).mapped pn = (decide (pn ∈ g.keys) || s.mapped pn) := rfl

@[simp] theorem placed_mem (s : Space) (g : Segment) :
    (placed s g).mem = s.mem.writeBytes g.addr g.pages.flatten := rfl

theorem alignPage_size (g : Segment) : alignPage g.size = g.size := by
  unfold alignPage Segment.size PAGE_SIZE
  omega

theorem page_in_range (g : Segment) (pn : ℕ) :
    (g.addr ≤ pn * PAGE_SIZE ∧ pn * PAGE_SIZE < g.addr + g.size) ↔ pn ∈ g.keys := by
  rw [mem_keys]
  unfold Segment.addr Segment.size PAGE_SIZE
  omega

theorem mmap_segment {kernel : Kernel} (s : Space) {g : Segment} (hg : g.Whole)
    (hlimit : g.addr + g.size ≤ kernel.limit) (content : ℕ → Byte) :
    s.mmap kernel g.addr g.size content = some
      ⟨fun pn => decide (pn ∈ g.keys) || s.mapped pn, fun a =>
        if g.addr ≤ a ∧ a < g.addr + g.size then content (a - g.addr) else s.mem a⟩ := by
  have haddr : g.addr % PAGE_SIZE = 0 := Nat.mul_mod_left _ _
  have hpos : 0 < g.size := lt_of_lt_of_le (by decide) hg.size_pos
  rw [Space.mmap, alignPage_size, if_pos ⟨haddr, hpos, hlimit⟩]
  simp only [page_in_range]

/-- What is written over the whole segment is all that is left there. -/
theorem mem_segment (m : Mem) {g : Segment} (hg : g.Whole) {f : ℕ → Byte}
    (hin : ∀ i < g.size, f (g.addr + i) = g.pages.flatten.getD i 0)
    (hout : ∀ a, a < g.addr ∨ g.addr + g.size ≤ a → f a = m a) :
    f = m.writeBytes g.addr g.pages.flatten := by
  funext a
  by_cases ha : a < g.addr ∨ g.addr + g.size ≤ a
  · rw [hout a ha, Mem.writeBytes_of_not_mem (by rw [hg.flatten_length]; exact ha)]
  · have hi := hin (a - g.addr) (by omega)
    rw [Nat.add_sub_cancel' (by omega)] at hi
    rw [hi, Mem.writeBytes_of_mem (by rw [hg.flatten_length]; omega)]

section
variable {kernel : Kernel} {decompress : List Byte → ℕ → Option (List Byte)} {file : List Byte}

theorem mapEntry_raw (s : Space) {e : MmapCfg} {g : Segment} (hg : g.Whole)
    (he : Finds decompress file e g) (hlimit : g.addr + g.size ≤ kernel.limit) (hraw : g.Raw)
    (hoffset : e.offset % PAGE_SIZE = 0) :
    mapEntry kernel decompress file s e = some (placed s g) := by
  have hstored : g.stored = g.pages.flatten := hraw
  have hlen : g.stored.length = g.size := by rw [hstored, hg.flatten_length]
  have hfile : ∀ i < g.size, file.getD (e.offset + i) 0 = g.pages.flatten.getD i 0 := by
    intro i hi
    rw [← hstored, ← he.stored, he.length, List.getD_eq_getElem?_getD,
      List.getD_eq_getElem?_getD, List.getElem?_take_of_lt (by omega), List.getElem?_drop]
  rw [mapEntry, he.size, he.length, hlen, if_pos rfl, Space.mmapFile, if_pos hoffset, he.addr,
    mmap_segment s hg hlimit, placed]
  congr 2
  apply mem_segment s.mem hg
  · intro i hi
    rw [if_pos (by omega), Nat.add_sub_cancel_left, hfile i hi]
  · intro a ha
    rw [if_neg (by omega)]

theorem mapEntry_packed (s : Space) {e : MmapCfg} {g : Segment} (hg : g.Whole)
    (he : Finds decompress file e g) (hlimit : g.addr + g.size ≤ kernel.limit)
    (hpacked : g.Packed decompress) :
    mapEntry kernel decompress file s e = some (placed s g) := by
  have hpos := hg.size_pos
  have hshort := hpacked.short
  have hne : g.size ≠ g.stored.length := by
    unfold CL_BUF_SIZE at hshort
    unfold PAGE_SIZE at hpos
    omega
  have hdata : g.pages.flatten.isEmpty = false := by
    rw [List.isEmpty_eq_false_iff]
    intro hnil
    have hlen := hg.flatten_length
    rw [hnil, List.length_nil] at hlen
    unfold PAGE_SIZE at hpos
    omega
  rw [mapEntry, he.size, he.length, if_neg hne, he.addr, mmap_segment s hg hlimit,
    Option.bind_eq_bind, Option.bind_some, ← he.length, he.stored, he.length,
    if_pos ⟨hshort, rfl⟩, hpacked.data, Option.bind_eq_bind, Option.bind_some, hdata,
    if_neg Bool.false_ne_true, Space.write, placed]
  congr 2
  apply mem_segment s.mem hg
  · intro i hi
    rw [Mem.writeBytes_of_mem (by rw [hg.flatten_length]; omega), Nat.add_sub_cancel_left]
  · intro a ha
    rw [Mem.writeBytes_of_not_mem (by rw [hg.flatten_length]; exact ha)]
    exact if_neg (by omega)

/-- **One mapping** puts its segment in its place. -/
theorem mapEntry_placed (s : Space) {e : MmapCfg} {g : Segment} (hg : g.Whole)
    (he : Finds decompress file e g) (hlimit : g.addr + g.size ≤ kernel.limit) :
    mapEntry kernel decompress file s e = some (placed s g) := by
  rcases he.kind with ⟨hraw, hoffset⟩ | hpacked
  · exact mapEntry_raw s hg he hlimit hraw hoffset
  · exact mapEntry_packed s hg he hlimit hpacked

/-! ## All segments -/

/-- The segment and the range share no byte. -/
def ApartFrom (start stop : ℕ) (g : Segment) : Prop :=
  g.addr + g.size ≤ start ∨ stop ≤ g.addr

theorem placed_outside (s : Space) {g : Segment} (hg : g.Whole) {start stop : ℕ}
    (h : ApartFrom start stop g) {a : ℕ} (ha : start ≤ a ∧ a < stop) :
    (placed s g).mem a = s.mem a := by
  rw [placed_mem, Mem.writeBytes_of_not_mem]
  rw [hg.flatten_length]
  rcases h with h | h <;> omega

theorem readTable_congr {m m' : Mem} {mcP i : ℕ}
    (h : ∀ a, mcP + i * ENTRY_SIZE ≤ a → a < mcP + (i + 1) * ENTRY_SIZE → m' a = m a) :
    readTable m' mcP i = readTable m mcP i := by
  have hread : ∀ k n, k + n ≤ ENTRY_SIZE →
      m'.read (mcP + i * ENTRY_SIZE + k) n = m.read (mcP + i * ENTRY_SIZE + k) n := by
    intro k n hkn
    apply Mem.read_congr
    intro j hj
    exact h _ (by omega) (by rw [Nat.succ_mul]; omega)
  unfold readTable
  dsimp only
  rw [hread 8 8 (by decide), hread 16 4 (by decide), hread 20 4 (by decide)]
  have hfirst := hread 0 8 (by decide)
  rw [Nat.add_zero] at hfirst
  rw [hfirst]

/-- `map_pages` reads its table where no segment comes, and places all segments. -/
theorem mapPages_placed {mcP total : ℕ} {table : List MmapCfg} {segs : List Segment}
    (hfinds : List.Forall₂ (Finds decompress file) table segs) (hwhole : ∀ g ∈ segs, g.Whole)
    (hlimit : ∀ g ∈ segs, g.addr + g.size ≤ kernel.limit)
    (hapart : ∀ g ∈ segs, ApartFrom mcP (mcP + total * ENTRY_SIZE) g) {i : ℕ} {s : Space}
    (htable : ∀ k e, table[k]? = some e → readTable s.mem mcP (i + k) = e)
    (htotal : i + table.length ≤ total) :
    mapPages kernel decompress file mcP table.length i s = some (segs.foldl placed s) := by
  induction hfinds generalizing i s with
  | nil => rfl
  | @cons e g table segs he _ ih =>
    have hg := hwhole g (by simp)
    rw [List.length_cons] at htotal
    have hentry : readTable s.mem mcP i = e := htable 0 e rfl
    rw [List.length_cons, mapPages, hentry, mapEntry_placed s hg he (hlimit g (by simp)),
      Option.bind_eq_bind, Option.bind_some, List.foldl_cons]
    refine ih (fun g' h' => hwhole g' (by simp [h'])) (fun g' h' => hlimit g' (by simp [h']))
      (fun g' h' => hapart g' (by simp [h'])) ?_ (by omega)
    intro k e' hk
    have hlt : k < table.length := by
      by_contra hge
      rw [List.getElem?_eq_none (by omega)] at hk
      cases hk
    rw [readTable_congr (m := s.mem), Nat.add_assoc, Nat.add_comm 1 k]
    · exact htable (k + 1) e' hk
    · intro a hlo hhi
      refine placed_outside s hg (hapart g (by simp)) ⟨?_, ?_⟩
      · exact (Nat.le_add_right _ _).trans hlo
      · exact hhi.trans_le (Nat.add_le_add_left (Nat.mul_le_mul_right _ (by omega)) _)

end

/-! ## What is in place -/

/-- The page is mapped and holds the bytes. -/
def PageAt (s : Space) (page : ℕ × List Byte) : Prop :=
  s.mapped page.1 = true ∧ s.mem.Holds (page.1 * PAGE_SIZE) page.2

theorem holds_numbered {m : Mem} {pages : List (List Byte)} {pn : ℕ}
    (hsized : ∀ page ∈ pages, page.length = PAGE_SIZE)
    (h : m.Holds (pn * PAGE_SIZE) pages.flatten) :
    ∀ page ∈ numbered pn pages, m.Holds (page.1 * PAGE_SIZE) page.2 := by
  induction pages generalizing pn with
  | nil => exact fun page hpage => absurd hpage List.not_mem_nil
  | cons first pages ih =>
    rw [List.flatten_cons, Mem.holds_append, hsized first (by simp), ← Nat.succ_mul] at h
    intro page hpage
    rcases List.mem_cons.mp hpage with rfl | hpage
    · exact h.1
    · exact ih (fun page' h' => hsized page' (by simp [h'])) h.2 page hpage

theorem placed_page (s : Space) {g : Segment} (hg : g.Whole) {page : ℕ × List Byte}
    (hpage : page ∈ g.contents) : PageAt (placed s g) page := by
  have hkey : page.1 ∈ g.keys := List.mem_map_of_mem hpage
  refine ⟨?_, ?_⟩
  · rw [placed_mapped, decide_eq_true hkey]
    rfl
  · exact holds_numbered hg.sized (Mem.holds_writeBytes s.mem g.addr g.pages.flatten) page hpage

/-- A page that is not in the segment stays as it is. -/
theorem placed_other (s : Space) {g : Segment} (hg : g.Whole) {pn : ℕ} (hpn : pn ∉ g.keys) :
    (placed s g).mapped pn = s.mapped pn ∧
      ∀ a, pn * PAGE_SIZE ≤ a → a < (pn + 1) * PAGE_SIZE → (placed s g).mem a = s.mem a := by
  constructor
  · rw [placed_mapped, decide_eq_false hpn, Bool.false_or]
  · intro a hlo hhi
    have happart : ApartFrom (pn * PAGE_SIZE) ((pn + 1) * PAGE_SIZE) g := by
      rw [mem_keys] at hpn
      unfold ApartFrom Segment.addr Segment.size PAGE_SIZE
      omega
    exact placed_outside s hg happart ⟨hlo, hhi⟩

theorem foldl_placed_other {segs : List Segment} (hwhole : ∀ g ∈ segs, g.Whole) {pn : ℕ}
    (hpn : ∀ g ∈ segs, pn ∉ g.keys) (s : Space) :
    (segs.foldl placed s).mapped pn = s.mapped pn ∧
      ∀ a, pn * PAGE_SIZE ≤ a → a < (pn + 1) * PAGE_SIZE →
        (segs.foldl placed s).mem a = s.mem a := by
  induction segs generalizing s with
  | nil => exact ⟨rfl, fun a _ _ => rfl⟩
  | cons g segs ih =>
    obtain ⟨hmapped, hmem⟩ := placed_other s (hwhole g (by simp)) (hpn g (by simp))
    obtain ⟨hmapped', hmem'⟩ := ih (fun g' h' => hwhole g' (by simp [h']))
      (fun g' h' => hpn g' (by simp [h'])) (placed s g)
    rw [List.foldl_cons]
    exact ⟨hmapped'.trans hmapped, fun a hlo hhi => (hmem' a hlo hhi).trans (hmem a hlo hhi)⟩

theorem pageAt_congr {s s' : Space} {page : ℕ × List Byte} (hlen : page.2.length = PAGE_SIZE)
    (h : s'.mapped page.1 = s.mapped page.1 ∧ ∀ a, page.1 * PAGE_SIZE ≤ a →
      a < (page.1 + 1) * PAGE_SIZE → s'.mem a = s.mem a) (hpage : PageAt s page) :
    PageAt s' page := by
  refine ⟨h.1.trans hpage.1, Mem.holds_congr ?_ hpage.2⟩
  intro b hlo hhi
  rw [hlen, ← Nat.succ_mul] at hhi
  exact h.2 b hlo hhi

theorem contents_sized {g : Segment} (hg : g.Whole) {page : ℕ × List Byte}
    (hpage : page ∈ g.contents) : page.2.length = PAGE_SIZE := by
  have hmem : ∀ (pages : List (List Byte)) (pn : ℕ), page ∈ numbered pn pages →
      page.2 ∈ pages := by
    intro pages
    induction pages with
    | nil => exact fun pn h => absurd h List.not_mem_nil
    | cons first pages ih =>
      intro pn h
      rcases List.mem_cons.mp h with rfl | h
      · exact List.mem_cons_self
      · exact List.mem_cons_of_mem _ (ih _ h)
  exact hg.sized _ (hmem g.pages g.pn hpage)

/-- Segments that share no page are all in place in the end. -/
theorem foldl_placed_page {segs : List Segment} (hwhole : ∀ g ∈ segs, g.Whole)
    (hnodup : (segs.flatMap Segment.keys).Nodup) (s : Space) :
    ∀ page ∈ segs.flatMap Segment.contents, PageAt (segs.foldl placed s) page := by
  induction segs generalizing s with
  | nil => exact fun page hpage => absurd hpage List.not_mem_nil
  | cons g segs ih =>
    rw [List.flatMap_cons, List.nodup_append] at hnodup
    obtain ⟨-, hrest, hdisjoint⟩ := hnodup
    have hwhole' : ∀ g' ∈ segs, g'.Whole := fun g' h' => hwhole g' (by simp [h'])
    intro page hpage
    rw [List.flatMap_cons] at hpage
    rw [List.foldl_cons]
    rcases List.mem_append.mp hpage with hpage | hpage
    · have hg := hwhole g (by simp)
      have hkey : page.1 ∈ g.keys := List.mem_map_of_mem hpage
      have hother : ∀ g' ∈ segs, page.1 ∉ g'.keys := fun g' h' hin =>
        hdisjoint page.1 hkey page.1 (List.mem_flatMap.mpr ⟨g', h', hin⟩) rfl
      exact pageAt_congr (contents_sized hg hpage)
        (foldl_placed_other hwhole' hother (placed s g)) (placed_page s hg hpage)
    · exact ih hwhole' hrest (placed s g) page hpage

end RvCkpt.Loader
