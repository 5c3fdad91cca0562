import RvCkpt.Loader.Place
import Mathlib.Algebra.Order.BigOperators.Group.List

/-! # Loading puts the segments in place

An image whose table finds its segments is loaded whole, whenever there is room for the loader. The
loader and its table are where no page of the image comes, and nothing else changes.
-/

namespace RvCkpt.Loader
open ByteMem Text Parse Segment
set_option autoImplicit false

/-! ## The table of an image -/

theorem fileOf_append (segs segs' : List Segment) :
    fileOf (segs ++ segs') = fileOf segs ++ fileOf segs' := List.flatMap_append

theorem tableOf_append (offset : ℕ) (segs segs' : List Segment) :
    tableOf offset (segs ++ segs') =
      tableOf offset segs ++ tableOf (offset + (fileOf segs).length) segs' := by
  induction segs generalizing offset with
  | nil => rfl
  | cons g segs ih =>
    rw [List.cons_append, tableOf, tableOf, ih, List.cons_append, fileOf, fileOf,
      List.flatMap_cons, List.length_append, Nat.add_assoc]

theorem tableOf_length (offset : ℕ) (segs : List Segment) :
    (tableOf offset segs).length = segs.length := by
  induction segs generalizing offset with
  | nil => rfl
  | cons g segs ih => rw [tableOf, List.length_cons, List.length_cons, ih]

/-- A mapping is one of a segment, within the file. -/
theorem mem_tableOf {offset : ℕ} {segs : List Segment} {e : MmapCfg}
    (he : e ∈ tableOf offset segs) : ∃ g ∈ segs, e.addr = g.addr ∧ e.size = g.size ∧
      e.length = g.stored.length ∧ offset ≤ e.offset ∧
      e.offset + e.length ≤ offset + (fileOf segs).length := by
  induction segs generalizing offset with
  | nil => cases he
  | cons g segs ih =>
    rw [fileOf, List.flatMap_cons, List.length_append]
    rcases List.mem_cons.mp he with rfl | he
    · exact ⟨g, by simp, rfl, rfl, rfl, le_rfl, Nat.add_le_add_left (Nat.le_add_right _ _) _⟩
    · obtain ⟨g', hg', haddr, hsize, hlength, hlo, hhi⟩ := ih he
      refine ⟨g', by simp [hg'], haddr, hsize, hlength, (Nat.le_add_right _ _).trans hlo, ?_⟩
      rwa [Nat.add_assoc] at hhi

theorem tableOf_of_mem (offset : ℕ) {segs : List Segment} {g : Segment} (hg : g ∈ segs) :
    ∃ e ∈ tableOf offset segs, e.addr = g.addr ∧ e.size = g.size := by
  induction segs generalizing offset with
  | nil => cases hg
  | cons g' segs ih =>
    rcases List.mem_cons.mp hg with rfl | hg
    · exact ⟨_, List.mem_cons_self, rfl, rfl⟩
    · obtain ⟨e, he, h⟩ := ih (offset + g'.stored.length) hg
      exact ⟨e, List.mem_cons_of_mem _ he, h⟩

/-- No two file ranges overlap. -/
theorem tableOf_ascending (offset : ℕ) (segs : List Segment) :
    (tableOf offset segs).Pairwise fun e e' => e.offset + e.length ≤ e'.offset := by
  induction segs generalizing offset with
  | nil => exact List.Pairwise.nil
  | cons g segs ih =>
    refine List.Pairwise.cons (fun e' he' => ?_) (ih _)
    obtain ⟨-, -, -, -, -, hlo, -⟩ := mem_tableOf he'
    exact hlo

theorem apart_of_keys {g g' : Segment} (hg : g.Whole) (hg' : g'.Whole)
    (h : ∀ k ∈ g.keys, k ∉ g'.keys) :
    g'.addr + g'.size ≤ g.addr ∨ g.addr + g.size ≤ g'.addr := by
  have hlen := List.length_pos_of_ne_nil hg.some_page
  have hlen' := List.length_pos_of_ne_nil hg'.some_page
  have hfirst : g.pn ∈ g'.keys ∨ g'.pn ∈ g.keys ∨ g'.pn + g'.pages.length ≤ g.pn ∨
      g.pn + g.pages.length ≤ g'.pn := by
    rw [mem_keys, mem_keys]
    omega
  unfold Segment.addr Segment.size PAGE_SIZE
  rcases hfirst with hin | hin | hle | hle
  · exact absurd hin (h g.pn (mem_keys.mpr ⟨le_rfl, by omega⟩))
  · exact absurd (mem_keys.mpr ⟨le_rfl, by omega⟩) (h g'.pn hin)
  · omega
  · omega

theorem tableOf_apart (offset : ℕ) {segs : List Segment} (hwhole : ∀ g ∈ segs, g.Whole)
    (hnodup : (segs.flatMap Segment.keys).Nodup) :
    (tableOf offset segs).Pairwise fun e e' => Misses e.addr (e.addr + e.size) e' := by
  induction segs generalizing offset with
  | nil => exact List.Pairwise.nil
  | cons g segs ih =>
    rw [List.flatMap_cons, List.nodup_append] at hnodup
    obtain ⟨-, hrest, hdisjoint⟩ := hnodup
    refine List.Pairwise.cons (fun e' he' => ?_) (ih _ (fun g' h' => hwhole g' (by simp [h'])) hrest)
    obtain ⟨g', hg', haddr, hsize, -⟩ := mem_tableOf he'
    have hapart := apart_of_keys (hwhole g (by simp)) (hwhole g' (by simp [hg']))
      fun k hk hk' => hdisjoint k hk k (List.mem_flatMap.mpr ⟨g', hg', hk'⟩) rfl
    rw [Misses, haddr, hsize]
    exact hapart

/-- Segments that the file holds as they are, from a page boundary on. -/
theorem finds_raw {decompress : List Byte → ℕ → Option (List Byte)} {segs : List Segment}
    (hwhole : ∀ g ∈ segs, g.Whole) (hraw : ∀ g ∈ segs, g.Raw) (before after : List Byte)
    (hbefore : before.length % PAGE_SIZE = 0) :
    List.Forall₂ (Finds decompress (before ++ (fileOf segs ++ after)))
      (tableOf before.length segs) segs := by
  induction segs generalizing before with
  | nil => exact .nil
  | cons g segs ih =>
    have hlen : g.stored.length = g.size := by
      rw [show g.stored = g.pages.flatten from hraw g (by simp), (hwhole g (by simp)).flatten_length]
    have hfile : before ++ (fileOf (g :: segs) ++ after) =
        (before ++ g.stored) ++ (fileOf segs ++ after) := by
      rw [fileOf, fileOf, List.flatMap_cons]
      simp only [List.append_assoc]
    refine .cons ⟨rfl, rfl, rfl, ?_, .inl ⟨hraw g (by simp), hbefore⟩⟩ ?_
    · rw [hfile, List.append_assoc, List.drop_left, List.take_left]
    · rw [hfile, ← List.length_append]
      refine ih (fun g' h' => hwhole g' (by simp [h'])) (fun g' h' => hraw g' (by simp [h'])) _ ?_
      rw [List.length_append, hlen, Segment.size, Nat.add_mul_mod_self_right]
      exact hbefore

/-- Segments that the file holds compressed, anywhere. -/
theorem finds_packed {decompress : List Byte → ℕ → Option (List Byte)} {segs : List Segment}
    (hpacked : ∀ g ∈ segs, g.Packed decompress) (before : List Byte) :
    List.Forall₂ (Finds decompress (before ++ fileOf segs)) (tableOf before.length segs) segs := by
  induction segs generalizing before with
  | nil => exact .nil
  | cons g segs ih =>
    have hfile : before ++ fileOf (g :: segs) = (before ++ g.stored) ++ fileOf segs := by
      rw [fileOf, fileOf, List.flatMap_cons, List.append_assoc]
    refine .cons ⟨rfl, rfl, rfl, ?_, .inr (hpacked g (by simp))⟩ ?_
    · rw [hfile, List.append_assoc, List.drop_left, List.take_left]
    · rw [hfile, ← List.length_append]
      exact ih (fun g' h' => hpacked g' (by simp [h'])) _

/-! ## Room for the loader -/

/-- A range that no page comes into, between the bounds for the loader. -/
def Room (total : ℕ) (pns : List ℕ) : Prop :=
  ∃ b, CL_BASE ≤ b ∧ b + total ≤ CL_TOP ∧
    ∀ pn ∈ pns, (pn + 1) * PAGE_SIZE ≤ b ∨ b + total ≤ pn * PAGE_SIZE

/-- Pages that follow each other are all on the same side of a range. -/
theorem apartFrom_of_pages {g : Segment} (hg : g.Whole) {b total : ℕ} (htotal : 0 < total)
    (h : ∀ pn ∈ g.keys, (pn + 1) * PAGE_SIZE ≤ b ∨ b + total ≤ pn * PAGE_SIZE) :
    ApartFrom b (b + total) g := by
  have hlen := List.length_pos_of_ne_nil hg.some_page
  by_cases hfirst : b + total ≤ g.addr
  · exact .inr hfirst
  · have hall : ∀ j < g.pages.length, (g.pn + j + 1) * PAGE_SIZE ≤ b := by
      intro j hj
      induction j with
      | zero => exact (h g.pn (mem_keys.mpr ⟨le_rfl, by omega⟩)).resolve_right hfirst
      | succ j ih =>
        have hprev := ih (by omega)
        refine (h (g.pn + (j + 1)) (mem_keys.mpr ⟨by omega, by omega⟩)).resolve_right ?_
        rw [← Nat.add_assoc]
        omega
    have hlast := hall (g.pages.length - 1) (by omega)
    left
    rw [show g.pn + (g.pages.length - 1) + 1 = g.pn + g.pages.length by omega, Nat.add_mul] at hlast
    exact hlast

/-! ## Loading -/

/-- An image as it is meant: whole segments that share no page, of less than 4 GiB. -/
structure Laid (decompress : List Byte → ℕ → Option (List Byte)) (segs : List Segment) :
    Prop where
  whole : ∀ g ∈ segs, g.Whole
  finds : List.Forall₂ (Finds decompress (fileOf segs)) (tableOf 0 segs) segs
  distinct : (segs.flatMap Segment.keys).Nodup
  small : (segs.map Segment.size).sum < 2 ^ 32

theorem Finds.stored_le {decompress : List Byte → ℕ → Option (List Byte)} {file : List Byte}
    {e : MmapCfg} {g : Segment} (h : Finds decompress file e g) (hg : g.Whole) :
    g.stored.length ≤ g.size := by
  rcases h.kind with ⟨hraw, -⟩ | hpacked
  · rw [show g.stored = g.pages.flatten from hraw, hg.flatten_length]
  · have hshort := hpacked.short
    have hpos := hg.size_pos
    unfold CL_BUF_SIZE at hshort
    unfold PAGE_SIZE at hpos
    omega

theorem stored_le {decompress : List Byte → ℕ → Option (List Byte)} {file : List Byte}
    {table : List MmapCfg} {segs : List Segment}
    (h : List.Forall₂ (Finds decompress file) table segs) (hwhole : ∀ g ∈ segs, g.Whole) :
    ∀ g ∈ segs, g.stored.length ≤ g.size := by
  induction h with
  | nil => simp
  | @cons e g table segs he _ ih =>
    intro g' hg'
    rcases List.mem_cons.mp hg' with rfl | hg'
    · exact he.stored_le (hwhole g' (by simp))
    · exact ih (fun g'' h'' => hwhole g'' (by simp [h''])) g' hg'

theorem fileOf_length_le {segs : List Segment} (h : ∀ g ∈ segs, g.stored.length ≤ g.size) :
    (fileOf segs).length ≤ (segs.map Segment.size).sum := by
  induction segs with
  | nil => exact le_rfl
  | cons g segs ih =>
    rw [fileOf, List.flatMap_cons, List.length_append, List.map_cons, List.sum_cons]
    exact Nat.add_le_add (h g (by simp)) (ih fun g' h' => h g' (by simp [h']))

theorem length_le_sizes {segs : List Segment} (hwhole : ∀ g ∈ segs, g.Whole) :
    segs.length * PAGE_SIZE ≤ (segs.map Segment.size).sum := by
  induction segs with
  | nil => rw [List.length_nil, Nat.zero_mul]; exact Nat.zero_le _
  | cons g segs ih =>
    rw [List.length_cons, Nat.succ_mul, List.map_cons, List.sum_cons, Nat.add_comm]
    exact Nat.add_le_add (hwhole g (by simp)).size_pos (ih fun g' h' => hwhole g' (by simp [h']))

theorem alignPage_idem (n : ℕ) : alignPage (alignPage n) = alignPage n := by
  unfold alignPage
  omega

theorem le_alignPage (n : ℕ) : n ≤ alignPage n := by
  unfold alignPage
  omega

theorem alignPage_mod (n : ℕ) : alignPage n % PAGE_SIZE = 0 := by
  unfold alignPage PAGE_SIZE
  omega

/-- Mapping whole pages at a page boundary changes nothing else. -/
theorem mmap_some {kernel : Kernel} (s : Space) {addr n : ℕ} (content : ℕ → Byte)
    (haddr : addr % PAGE_SIZE = 0) (hn : 0 < n) (hlimit : addr + alignPage n ≤ kernel.limit) :
    ∃ s', s.mmap kernel addr (alignPage n) content = some s' ∧
      (∀ pn, (pn + 1) * PAGE_SIZE ≤ addr ∨ addr + alignPage n ≤ pn * PAGE_SIZE →
        s'.mapped pn = s.mapped pn) ∧
      ∀ a, a < addr ∨ addr + alignPage n ≤ a → s'.mem a = s.mem a := by
  have hpos : 0 < alignPage n := hn.trans_le (le_alignPage n)
  rw [Space.mmap, alignPage_idem, if_pos ⟨haddr, hpos, hlimit⟩]
  refine ⟨_, rfl, fun pn hpn => ?_, fun a ha => if_neg (by omega)⟩
  have hout : ¬ (addr ≤ pn * PAGE_SIZE ∧ pn * PAGE_SIZE < addr + alignPage n) := by
    rw [Nat.succ_mul] at hpn
    unfold PAGE_SIZE at hpn ⊢
    omega
  dsimp only
  rw [decide_eq_false hout, Bool.false_or]

theorem foldl_placed_outside {segs : List Segment} (hwhole : ∀ g ∈ segs, g.Whole)
    {start stop : ℕ} (hapart : ∀ g ∈ segs, ApartFrom start stop g) (s : Space) {a : ℕ}
    (ha : start ≤ a ∧ a < stop) : (segs.foldl placed s).mem a = s.mem a := by
  induction segs generalizing s with
  | nil => rfl
  | cons g segs ih =>
    rw [List.foldl_cons, ih (fun g' h' => hwhole g' (by simp [h']))
      (fun g' h' => hapart g' (by simp [h'])),
      placed_outside s (hwhole g (by simp)) (hapart g (by simp)) ha]

/-! ## The loader's own pages -/

/-- The range is mapped and written, and nothing else. -/
structure LoaderMapped (cl : List Byte) (base num : ℕ) (bytes : List Byte) (s s' : Space) :
    Prop where
  code : s'.mem.Holds base cl
  table : s'.mem.Holds (base + alignPage cl.length) bytes
  mapped : ∀ pn, (pn + 1) * PAGE_SIZE ≤ base ∨ base + totalSize cl.length num ≤ pn * PAGE_SIZE →
    s'.mapped pn = s.mapped pn
  mem : ∀ a, a < base ∨ base + totalSize cl.length num ≤ a → s'.mem a = s.mem a

theorem mapLoader_some {kernel : Kernel} {cl : List Byte} (hcl : cl ≠ []) {base : ℕ}
    (haligned : base % PAGE_SIZE = 0) {table : List MmapCfg}
    (hlimit : base + totalSize cl.length table.length ≤ kernel.limit) (s : Space) :
    ∃ s', mapLoader kernel cl base table s = some s' ∧
      LoaderMapped cl base table.length ((sortByOffset table).flatMap entryBytes) s s' := by
  have hclpos := List.length_pos_of_ne_nil hcl
  have hclle := le_alignPage cl.length
  have hclmod := alignPage_mod cl.length
  have htable : table.length * ENTRY_SIZE + CL_STACK_SIZE ≤ tableSize table.length :=
    le_alignPage _
  have hbytes : ((sortByOffset table).flatMap entryBytes).length + CL_STACK_SIZE ≤
      tableSize table.length := by
    rw [tableBytes_length, sortByOffset, List.length_insertionSort]
    exact htable
  have htotal : totalSize cl.length table.length =
    alignPage cl.length + tableSize table.length := rfl
  have hmcmod : (base + alignPage cl.length) % PAGE_SIZE = 0 := by
    unfold PAGE_SIZE at haligned hclmod ⊢
    omega
  obtain ⟨s₁, hs₁, hmapped₁, hmem₁⟩ := mmap_some s (fun _ => 0) haligned hclpos
    (show base + alignPage cl.length ≤ kernel.limit by omega)
  obtain ⟨s₂, hs₂, hmapped₂, hmem₂⟩ := mmap_some (s₁.write base cl) (fun _ => 0) hmcmod
    (show 0 < table.length * ENTRY_SIZE + CL_STACK_SIZE by unfold CL_STACK_SIZE; omega)
    (show base + alignPage cl.length + tableSize table.length ≤ kernel.limit by omega)
  have hs₂' : (s₁.write base cl).mmap kernel (base + alignPage cl.length)
      (tableSize table.length) (fun _ => 0) = some s₂ := hs₂
  have hsize : alignPage (table.length * ENTRY_SIZE + CL_STACK_SIZE) = tableSize table.length :=
    rfl
  rw [hsize] at hmapped₂ hmem₂
  have hfinal : ∀ a, a < base + alignPage cl.length ∨
      base + alignPage cl.length + tableSize table.length ≤ a →
      (s₂.write (base + alignPage cl.length) ((sortByOffset table).flatMap entryBytes)).mem a =
        s₂.mem a := fun a ha => Mem.writeBytes_of_not_mem (by omega)
  refine ⟨s₂.write (base + alignPage cl.length) ((sortByOffset table).flatMap entryBytes),
    ?_, ?_, ?_, ?_, ?_⟩
  · rw [mapLoader, hs₁, Option.bind_eq_bind, Option.bind_some]
    dsimp only
    rw [hs₂']
    rfl
  · refine Mem.holds_congr ?_ (Mem.holds_writeBytes s₁.mem base cl)
    intro a hlo hhi
    exact (hfinal a (.inl (by omega))).trans (hmem₂ a (.inl (by omega)))
  · exact Mem.holds_writeBytes _ _ _
  · intro pn hpn
    have hpn₁ : (pn + 1) * PAGE_SIZE ≤ base ∨ base + alignPage cl.length ≤ pn * PAGE_SIZE := by
      omega
    have hpn₂ : (pn + 1) * PAGE_SIZE ≤ base + alignPage cl.length ∨
        base + alignPage cl.length + tableSize table.length ≤ pn * PAGE_SIZE := by omega
    exact (hmapped₂ pn hpn₂).trans (hmapped₁ pn hpn₁)
  · intro a ha
    have hwritten : (s₁.write base cl).mem a = s₁.mem a :=
      Mem.writeBytes_of_not_mem (by omega)
    rw [hfinal a (by omega), hmem₂ a (by omega), hwritten, hmem₁ a (by omega)]

/-- What loading leaves: the pages of the image, the loader's code, and everything else as it
was. -/
structure Loaded (cl : List Byte) (num : ℕ) (pages : List (ℕ × List Byte)) (s s' : Space) :
    Prop where
  page : ∀ page ∈ pages, PageAt s' page
  other : ∃ base, CL_BASE ≤ base ∧ base + totalSize cl.length num ≤ CL_TOP ∧
    s'.mem.Holds base cl ∧ ∀ pn ∉ pages.map Prod.fst,
      (pn + 1) * PAGE_SIZE ≤ base ∨ base + totalSize cl.length num ≤ pn * PAGE_SIZE →
      s'.mapped pn = s.mapped pn ∧
        ∀ a, pn * PAGE_SIZE ≤ a → a < (pn + 1) * PAGE_SIZE → s'.mem a = s.mem a

section
variable {kernel : Kernel} {decompress : List Byte → ℕ → Option (List Byte)}
  {segs : List Segment}

theorem Laid.fits (h : Laid decompress segs)
    (hlimit : ∀ g ∈ segs, g.addr + g.size ≤ kernel.limit) : ∀ e ∈ tableOf 0 segs, Fits e := by
  intro e he
  obtain ⟨g, hg, haddr, hsize, hlength, -, hend⟩ := mem_tableOf he
  have hstored := stored_le h.finds h.whole
  have hfile := fileOf_length_le hstored
  have hsmall := h.small
  have hkernel := kernel.limit_le
  have hle : g.size ≤ (segs.map Segment.size).sum :=
    List.single_le_sum (by simp) _ (List.mem_map_of_mem hg)
  have hstored' := hstored g hg
  have hlimit' := hlimit g hg
  exact ⟨by omega, by omega, by omega, by omega⟩

theorem Laid.count (h : Laid decompress segs) : (tableOf 0 segs).length < 2 ^ 31 := by
  have hlen : (tableOf 0 segs).length = segs.length := tableOf_length 0 segs
  have hsizes := length_le_sizes h.whole
  have hsmall := h.small
  unfold PAGE_SIZE at hsizes
  omega

theorem Laid.regions (h : Laid decompress segs)
    (hlimit : ∀ g ∈ segs, g.addr + g.size ≤ kernel.limit) : Regions (tableOf 0 segs) := by
  have hkernel := kernel.limit_le
  have hentry : ∀ e ∈ tableOf 0 segs, 0 < e.size ∧
      (e.addr % PAGE_SIZE = 0 ∧ e.size % PAGE_SIZE = 0) ∧ e.addr + e.size ≤ 2 ^ 63 := by
    intro e he
    obtain ⟨g, hg, haddr, hsize, -⟩ := mem_tableOf he
    have hpos := (h.whole g hg).size_pos
    have hlimit' := hlimit g hg
    rw [haddr, hsize]
    exact ⟨lt_of_lt_of_le (by decide) hpos, ⟨Nat.mul_mod_left _ _, Nat.mul_mod_left _ _⟩, by omega⟩
  exact ⟨h.count, fun e he => (hentry e he).1, fun e he => (hentry e he).2.1,
    fun e he => (hentry e he).2.2, tableOf_apart 0 h.whole h.distinct⟩

/-- A range clear of the image's pages misses every region of the table. -/
theorem Laid.misses (h : Laid decompress segs) {b n : ℕ} (hn : 0 < n)
    (hpages : ∀ pn ∈ segs.flatMap Segment.keys, (pn + 1) * PAGE_SIZE ≤ b ∨ b + n ≤ pn * PAGE_SIZE) :
    ∀ e ∈ tableOf 0 segs, Misses b (b + n) e := by
  intro e he
  obtain ⟨g, hg, haddr, hsize, -⟩ := mem_tableOf he
  have hapart := apartFrom_of_pages (h.whole g hg) hn fun pn hpn =>
    hpages pn (List.mem_flatMap.mpr ⟨g, hg, hpn⟩)
  rw [Misses, haddr, hsize]
  exact hapart

/-- A range that misses every region of the table is apart from the segments. -/
theorem apartFrom_of_misses {b n : ℕ} (hclear : ∀ e ∈ tableOf 0 segs, Misses b (b + n) e) :
    ∀ g ∈ segs, ApartFrom b (b + n) g := by
  intro g hg
  obtain ⟨e, he, haddr, hsize⟩ := tableOf_of_mem 0 hg
  have hclear' := hclear e he
  rw [Misses, haddr, hsize] at hclear'
  exact hclear'

theorem sortByOffset_tableOf (segs : List Segment) :
    sortByOffset (tableOf 0 segs) = tableOf 0 segs :=
  ((tableOf_ascending 0 segs).imp fun hle => (Nat.le_add_right _ _).trans hle).insertionSort_eq

theorem contents_keys (segs : List Segment) :
    (segs.flatMap Segment.contents).map Prod.fst = segs.flatMap Segment.keys := by
  rw [List.map_flatMap]
  rfl

/-- **Loading.** Whenever there is room, the image is loaded. -/
theorem load_laid (h : Laid decompress segs) {cl : List Byte} (hcl : cl ≠ [])
    (hlimit : ∀ g ∈ segs, g.addr + g.size ≤ kernel.limit) (htop : CL_TOP ≤ kernel.limit)
    (hroom : Room (totalSize cl.length segs.length) (segs.flatMap Segment.keys)) {pc : ℕ}
    (hpc : pc < 2 ^ 64) (s : Space) :
    ∃ s', load kernel decompress (fileOf segs) cl (cfgText (tableOf 0 segs) pc) s =
        some (s', pc) ∧
      Loaded cl segs.length (segs.flatMap Segment.contents) s s' := by
  have hclpos := List.length_pos_of_ne_nil hcl
  have hkernel := kernel.limit_le
  have hlen : (tableOf 0 segs).length = segs.length := tableOf_length 0 segs
  have hfits := h.fits hlimit
  have htotalpos : 0 < totalSize cl.length segs.length := by
    have hle := le_alignPage cl.length
    unfold totalSize
    omega
  obtain ⟨b, hb, hbtop, hpages⟩ := hroom
  have hclsize : cl.length < 2 ^ 62 := by
    have hle := le_alignPage cl.length
    unfold totalSize CL_TOP at hbtop
    omega
  obtain ⟨base, hfind, hbase, hbasetop, haligned, hbaseclear⟩ := findBase_clear (h.regions hlimit) hclsize
    hb (by rw [hlen]; exact hbtop) (by rw [hlen]; exact h.misses htotalpos hpages)
  rw [hlen] at hbasetop hbaseclear
  have hapart := apartFrom_of_misses hbaseclear
  have hlimit' : base + totalSize cl.length (tableOf 0 segs).length ≤ kernel.limit := by
    rw [hlen]
    exact hbasetop.trans htop
  obtain ⟨s₁, hs₁, hmapped⟩ := mapLoader_some hcl haligned hlimit' s
  rw [sortByOffset_tableOf, hlen] at hmapped
  have htotal : totalSize cl.length segs.length = alignPage cl.length + tableSize segs.length := rfl
  have hsize : segs.length * ENTRY_SIZE ≤ tableSize segs.length :=
    (Nat.le_add_right _ _).trans (le_alignPage _)
  have htable : ∀ k e, (tableOf 0 segs)[k]? = some e →
      readTable s₁.mem (base + alignPage cl.length) (0 + k) = e := by
    intro k e hk
    rw [Nat.zero_add]
    exact readTable_entry (hfits e (List.mem_of_getElem? hk)) (holds_table hmapped.table hk)
  have hpages : mapPages kernel decompress (fileOf segs) (base + alignPage cl.length)
      (tableOf 0 segs).length 0 s₁ = some (segs.foldl placed s₁) := by
    have htableApart : ∀ g ∈ segs, ApartFrom (base + alignPage cl.length)
        (base + alignPage cl.length + segs.length * ENTRY_SIZE) g := by
      intro g hg
      have hg' := hapart g hg
      unfold ApartFrom at hg' ⊢
      omega
    exact mapPages_placed h.finds h.whole hlimit htableApart htable (by omega)
  refine ⟨segs.foldl placed s₁, ?_, foldl_placed_page h.whole h.distinct s₁,
    base, hbase, hbasetop, ?_, ?_⟩
  · rw [load, scanCfg_cfgText hfits h.count hpc, Option.bind_eq_bind, Option.bind_some]
    dsimp only
    rw [hfind, Option.bind_eq_bind, Option.bind_some, hs₁, Option.bind_eq_bind, Option.bind_some,
      hpages]
    rfl
  · refine Mem.holds_congr ?_ hmapped.code
    intro a hlo hhi
    have hle := le_alignPage cl.length
    exact foldl_placed_outside h.whole hapart s₁ ⟨hlo, by omega⟩
  · intro pn hpn hout
    have hkeys : ∀ g ∈ segs, pn ∉ g.keys := by
      intro g hg hin
      rw [contents_keys] at hpn
      exact hpn (List.mem_flatMap.mpr ⟨g, hg, hin⟩)
    obtain ⟨hother, hmem⟩ := foldl_placed_other h.whole hkeys s₁
    refine ⟨hother.trans (hmapped.mapped pn hout), fun a hlo hhi => ?_⟩
    rw [hmem a hlo hhi]
    exact hmapped.mem a (by omega)

end

end RvCkpt.Loader
