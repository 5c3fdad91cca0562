import RvCkpt.Loader.ImageGroups

/-! # Round trip of checkpoint images

What `dump` writes is loaded as the pages of the map, and what `compress.py` makes of it too,
whenever there is room for the loader.
-/

namespace RvCkpt.Loader
open ByteMem Text Parse Image
set_option autoImplicit false

/-! ## The pages of a map -/

/-- The pages of a map with their numbers. -/
def pagesOf (m : PageMap) : List (ℕ × List Byte) := m.items.map fun p => (p.1, p.2.get)

/-- The same with their addresses. -/
def pageAddrs (m : PageMap) : List (ℕ × List Byte) :=
  m.items.map fun p => (p.1 * PAGE_SIZE, p.2.get)

theorem get_length (page : Page) : page.get.length = PAGE_SIZE := by
  rw [Page.get, List.length_map, List.length_range]

theorem proper_page (p : Σ _ : ℕ, Page) : Proper (p.1 * PAGE_SIZE, p.2.get) := by
  refine ⟨Nat.mul_mod_left _ _, ?_⟩
  dsimp only
  rw [get_length]

theorem pageAddrs_proper (m : PageMap) : ∀ page ∈ pageAddrs m, Proper page := by
  intro page hpage
  obtain ⟨p, -, rfl⟩ := List.mem_map.mp hpage
  exact proper_page p

theorem pageAddrs_sorted (m : PageMap) : (pageAddrs m).Pairwise Before := by
  refine List.pairwise_map.mpr ((PageMap.items_sorted m).imp fun {p q} h => ?_)
  refine ⟨?_, proper_page q⟩
  rw [← Nat.succ_mul]
  exact Nat.mul_le_mul_right _ h

theorem pagesOf_eq (m : PageMap) :
    (pageAddrs m).map (fun page => (page.1 / PAGE_SIZE, page.2)) = pagesOf m := by
  rw [pageAddrs, pagesOf, List.map_map]
  apply List.map_congr_left
  intro p _
  rw [Function.comp_apply, Nat.mul_div_cancel _ (by decide)]

theorem pagesOf_keys (m : PageMap) : ((pagesOf m).map Prod.fst).Perm m.keys := by
  have hmap : (pagesOf m).map Prod.fst = m.items.map Sigma.fst := by
    rw [pagesOf, List.map_map]
    rfl
  rw [hmap]
  exact (PageMap.items_perm m).map Sigma.fst

/-! ## Segments that hold the pages of a map -/

/-- The image of `segs` holds the pages of the map and no others. -/
structure Holds (decompress : List Byte → ℕ → Option (List Byte)) (m : PageMap)
    (segs : List Segment) : Prop where
  whole : ∀ g ∈ segs, g.Whole
  finds : List.Forall₂ (Finds decompress (fileOf segs)) (tableOf 0 segs) segs
  pages : (segs.flatMap Segment.contents).Perm (pagesOf m)

theorem size_sum (segs : List Segment) :
    (segs.map Segment.size).sum = (segs.flatMap Segment.contents).length * PAGE_SIZE := by
  have hlen : ∀ (pages : List (List Byte)) (pn : ℕ), (numbered pn pages).length = pages.length := by
    intro pages
    induction pages with
    | nil => exact fun pn => rfl
    | cons page pages ih => exact fun pn => by rw [numbered, List.length_cons, ih, List.length_cons]
  induction segs with
  | nil => rw [List.flatMap_nil, List.length_nil, Nat.zero_mul]; rfl
  | cons g segs ih =>
    rw [List.map_cons, List.sum_cons, ih, List.flatMap_cons, List.length_append, Nat.add_mul,
      Segment.contents, hlen]
    rfl

section
variable {decompress : List Byte → ℕ → Option (List Byte)} {m : PageMap} {segs : List Segment}
  (h : Holds decompress m segs)

include h

theorem Holds.keys : (segs.flatMap Segment.keys).Perm m.keys := by
  rw [← contents_keys]
  exact (h.pages.map Prod.fst).trans (pagesOf_keys m)

theorem Holds.laid (hsize : m.keys.length * PAGE_SIZE < 2 ^ 32) : Laid decompress segs := by
  refine ⟨h.whole, h.finds, h.keys.nodup_iff.mpr m.nodupKeys, ?_⟩
  have hlen : (pagesOf m).length = m.keys.length := by
    rw [← (pagesOf_keys m).length_eq, List.length_map]
  rw [size_sum, h.pages.length_eq, hlen]
  exact hsize

theorem Holds.limit {kernel : Kernel}
    (hlimit : ∀ pn ∈ m.keys, (pn + 1) * PAGE_SIZE ≤ kernel.limit) :
    ∀ g ∈ segs, g.addr + g.size ≤ kernel.limit := by
  intro g hg
  have hlen := List.length_pos_of_ne_nil (h.whole g hg).some_page
  have hlast : g.pn + g.pages.length - 1 ∈ g.keys := Segment.mem_keys.mpr ⟨by omega, by omega⟩
  have hkey := h.keys.mem_iff.mp (List.mem_flatMap.mpr ⟨g, hg, hlast⟩)
  have hle := hlimit _ hkey
  rw [Nat.sub_add_cancel (by omega), Nat.add_mul] at hle
  exact hle

end

theorem Loaded.perm {cl : List Byte} {num : ℕ} {pages pages' : List (ℕ × List Byte)}
    {s s' : Space} (hperm : pages.Perm pages') (h : Loaded cl num pages s s') :
    Loaded cl num pages' s s' := by
  obtain ⟨base, hbase, htop, hcode, hother⟩ := h.other
  refine ⟨fun page hpage => h.page page (hperm.mem_iff.mpr hpage), base, hbase, htop, hcode, ?_⟩
  intro pn hpn hout
  exact hother pn (fun hin => hpn ((hperm.map Prod.fst).mem_iff.mp hin)) hout

/-- The table of an image is laid out for the loader, and whenever there is room for the loader
the image is loaded as the pages of the map. -/
structure LoadsAs (kernel : Kernel) (decompress : List Byte → ℕ → Option (List Byte))
    (cl : List Byte) (m : PageMap) (pc : ℕ) (image : Image) (table : List MmapCfg) : Prop where
  read : scanCfg image.cfg = some (table, pc)
  aligned : ∀ e ∈ table, e.size = e.length → e.offset % PAGE_SIZE = 0
  expanded : ∀ e ∈ table, e.size ≠ e.length → ∃ data,
    decompress ((image.dump.drop e.offset).take e.length) e.size = some data ∧
      data.length = e.size
  inside : ∀ e ∈ table, e.offset + e.length ≤ image.dump.length
  apart : table.Pairwise fun e e' => e.offset + e.length ≤ e'.offset
  loaded : Room (totalSize cl.length table.length) m.keys → ∀ s, ∃ s',
    load kernel decompress image.dump cl image.cfg s = some (s', pc) ∧
      Loaded cl table.length (pagesOf m) s s'

theorem finds_of_mem {decompress : List Byte → ℕ → Option (List Byte)} {file : List Byte}
    {table : List MmapCfg} {segs : List Segment}
    (h : List.Forall₂ (Finds decompress file) table segs) {e : MmapCfg} (he : e ∈ table) :
    ∃ g ∈ segs, Finds decompress file e g := by
  induction h with
  | nil => cases he
  | @cons e' g table segs hfinds _ ih =>
    rcases List.mem_cons.mp he with rfl | he
    · exact ⟨g, by simp, hfinds⟩
    · obtain ⟨g', hg', hfinds'⟩ := ih he
      exact ⟨g', by simp [hg'], hfinds'⟩

/-- **Loading a map.** -/
theorem Holds.loadsAs {kernel : Kernel} {decompress : List Byte → ℕ → Option (List Byte)}
    {m : PageMap} {segs : List Segment} (h : Holds decompress m segs) {cl : List Byte}
    (hcl : cl ≠ []) (htop : CL_TOP ≤ kernel.limit)
    (hlimit : ∀ pn ∈ m.keys, (pn + 1) * PAGE_SIZE ≤ kernel.limit)
    (hsize : m.keys.length * PAGE_SIZE < 2 ^ 32) {pc : ℕ} (hpc : pc < 2 ^ 64) :
    LoadsAs kernel decompress cl m pc ⟨cfgText (tableOf 0 segs) pc, fileOf segs⟩
      (tableOf 0 segs) := by
  have hlaid := h.laid hsize
  have hsegs := h.limit hlimit
  have hcount : (tableOf 0 segs).length < 2 ^ 31 := by
    have hsizes := length_le_sizes h.whole
    have hsmall := hlaid.small
    rw [tableOf_length]
    unfold PAGE_SIZE at hsizes
    omega
  refine ⟨scanCfg_cfgText (hlaid.fits hsegs) hcount hpc, ?_, ?_, ?_, tableOf_ascending 0 segs, ?_⟩
  · intro e he heq
    obtain ⟨g, hg, hfinds⟩ := finds_of_mem h.finds he
    rcases hfinds.kind with ⟨-, haligned⟩ | hpacked
    · exact haligned
    · have hshort := hpacked.short
      have hpos := (h.whole g hg).size_pos
      rw [hfinds.size, hfinds.length] at heq
      unfold CL_BUF_SIZE at hshort
      unfold PAGE_SIZE at hpos
      omega
  · intro e he hne
    obtain ⟨g, hg, hfinds⟩ := finds_of_mem h.finds he
    have hlen := (h.whole g hg).flatten_length
    rcases hfinds.kind with ⟨hraw, -⟩ | hpacked
    · rw [hfinds.size, hfinds.length, show g.stored = g.pages.flatten from hraw, hlen] at hne
      exact absurd rfl hne
    · refine ⟨g.pages.flatten, ?_, by rw [hlen, hfinds.size]⟩
      rw [hfinds.stored, hfinds.size]
      exact hpacked.data
  · intro e he
    obtain ⟨g, -, -, -, -, -, hend⟩ := mem_tableOf he
    rwa [Nat.zero_add] at hend
  · intro hroom s
    rw [tableOf_length] at hroom ⊢
    have hroom' : Room (totalSize cl.length segs.length) (segs.flatMap Segment.keys) := by
      obtain ⟨b, hb, hbtop, hpages⟩ := hroom
      exact ⟨b, hb, hbtop, fun pn hpn => hpages pn (h.keys.mem_iff.mp hpn)⟩
    obtain ⟨s', hload, hloaded⟩ := load_laid hlaid hcl hsegs htop hroom' hpc s
    exact ⟨s', hload, hloaded.perm h.pages⟩

/-! ## The dumped image -/

/-- The groups of a map that `dump` writes. -/
def dumpGroups (m : PageMap) : List Group :=
  Groups.collect startGroup pushPage follows (pageAddrs m)

theorem dumpGroups_spec (m : PageMap) :
    (dumpGroups m).flatMap elems = pageAddrs m ∧ ∀ g ∈ dumpGroups m, WholeGroup g := by
  obtain ⟨helems, hwhole⟩ := collect_pages (P := fun _ => True) (fun g page h => h)
    (fun g page _ => trivial) (pageAddrs_proper m) (fun page _ => trivial) (pageAddrs_sorted m)
  exact ⟨helems, fun g hg => (hwhole g hg).1⟩

def dumpSegments (m : PageMap) : List Segment := (dumpGroups m).map (segOf rawOf)

theorem rawOf_elems {gs : List Group} : (gs.flatMap elems).flatMap Prod.snd = gs.flatMap rawOf := by
  have hone : ∀ (pages : List (List Byte)) (addr : ℕ),
      (addressed addr pages).flatMap Prod.snd = pages.flatten := by
    intro pages
    induction pages with
    | nil => exact fun addr => rfl
    | cons page pages ih =>
      intro addr
      rw [addressed, List.flatMap_cons, ih, List.flatten_cons]
  induction gs with
  | nil => rfl
  | cons g gs ih =>
    rw [List.flatMap_cons, List.flatMap_append, ih, List.flatMap_cons, elems, hone]
    rfl

/-- **The dumped image** is that of its segments. -/
theorem dump_eq (m : PageMap) (pc : ℕ) :
    m.dump pc = ⟨cfgText (tableOf 0 (dumpSegments m)) pc, fileOf (dumpSegments m)⟩ := by
  obtain ⟨helems, hwhole⟩ := dumpGroups_spec m
  have hpns : m.items.map (·.1) = (pageAddrs m).map fun page => page.1 / PAGE_SIZE := by
    rw [pageAddrs, List.map_map]
    apply List.map_congr_left
    intro p _
    rw [Function.comp_apply, Nat.mul_div_cancel _ (by decide)]
  have hruns : ∀ (gs : List Group) (offs : ℕ), (∀ g ∈ gs, WholeGroup g) →
      PageMap.runTable offs (gs.map runOf) = tableOf offs (gs.map (segOf rawOf)) := by
    intro gs
    induction gs with
    | nil => exact fun offs _ => rfl
    | cons g gs ih =>
      intro offs hgs
      have hlen := rawOf_length (hgs g (by simp))
      have hstored : (segOf rawOf g).stored.length = g.2.length * PAGE_SIZE := hlen
      rw [List.map_cons, List.map_cons, runOf, PageMap.runTable,
        ih _ fun g' h' => hgs g' (by simp [h']), tableOf, hstored]
      rfl
  have hdata : (m.items.flatMap fun p => p.2.get) = fileOf (dumpSegments m) := by
    rw [dumpSegments, fileOf_segOf, ← rawOf_elems, helems, pageAddrs, List.flatMap_map]
  rw [PageMap.dump, hpns, mergeRuns_collect (pageAddrs_proper m) (pageAddrs_sorted m), hdata]
  have hgroups : Groups.collect startGroup pushPage follows (pageAddrs m) = dumpGroups m := rfl
  rw [hgroups, hruns _ 0 hwhole]
  rfl

theorem dump_holds (decompress : List Byte → ℕ → Option (List Byte)) (m : PageMap) :
    Holds decompress m (dumpSegments m) := by
  obtain ⟨helems, hwhole⟩ := dumpGroups_spec m
  have hsegs : ∀ g ∈ dumpSegments m, g.Whole ∧ g.Raw := by
    intro g hg
    obtain ⟨g', hg', rfl⟩ := List.mem_map.mp hg
    exact ⟨segOf_whole (hwhole g' hg'), segOf_raw g'⟩
  refine ⟨fun g hg => (hsegs g hg).1, ?_, ?_⟩
  · have hfinds : List.Forall₂ (Finds decompress ([] ++ (fileOf (dumpSegments m) ++ [])))
        (tableOf 0 (dumpSegments m)) (dumpSegments m) :=
      finds_raw (fun g hg => (hsegs g hg).1) (fun g hg => (hsegs g hg).2) [] [] rfl
    rwa [List.nil_append, List.append_nil] at hfinds
  · rw [dumpSegments, contents_of_elems hwhole, helems, pagesOf_eq]

end RvCkpt.Loader
