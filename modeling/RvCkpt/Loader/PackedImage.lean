import RvCkpt.Loader.ImageRoundTrip

/-! # Compressed images

`compress.py` reads back the pages that were dumped, and writes them as raw segments, which come
first, and compressed ones.
-/

namespace RvCkpt.Loader
open ByteMem Text Parse Image
set_option autoImplicit false

/-! ## Reading the dumped image -/

def insertPage (pages : PageData) (page : ℕ × List Byte) : PageData := pages.insert page.1 page.2

theorem splitPages_flatten {ds : List (List Byte)} (hsized : ∀ d ∈ ds, d.length = PAGE_SIZE)
    (pages : PageData) (addr : ℕ) :
    splitPages pages addr ds.flatten (ds.length * PAGE_SIZE) =
      (addressed addr ds).foldl insertPage pages := by
  have hnum : (ds.length * PAGE_SIZE + 4095) / 4096 = ds.length := by
    unfold PAGE_SIZE
    omega
  rw [splitPages, hnum]
  clear hnum
  induction ds generalizing pages addr with
  | nil => rfl
  | cons d ds ih =>
    have hd : d.length = 4096 := hsized d (by simp)
    have hfirst : (((d :: ds).flatten.drop (4096 * 0)).take 4096) = d := by
      rw [Nat.mul_zero, List.drop_zero, List.flatten_cons, List.take_left' hd]
    have hrest : (fun (pages : PageData) i => pages.insert (addr + 4096 * (i + 1))
        (((d :: ds).flatten.drop (4096 * (i + 1))).take 4096)) =
        fun (pages : PageData) i => pages.insert (addr + 4096 + 4096 * i)
          ((ds.flatten.drop (4096 * i)).take 4096) := by
      funext pages i
      have hdrop : (d :: ds).flatten.drop (4096 * (i + 1)) = ds.flatten.drop (4096 * i) := by
        rw [List.flatten_cons, Nat.mul_succ, Nat.add_comm, ← List.drop_drop, List.drop_left' hd]
      rw [hdrop, Nat.mul_succ, Nat.add_comm (4096 * i), ← Nat.add_assoc]
    rw [List.length_cons, List.range_succ_eq_map, List.foldl_cons, List.foldl_map, hfirst,
      addressed, List.foldl_cons]
    have hih := ih (fun d' h' => hsized d' (by simp [h'])) (insertPage pages (addr, d)) (addr + 4096)
    rw [← hih, ← hrest]
    rfl

theorem readEntry_row {decompress : List Byte → ℕ → Option (List Byte)} {file : List Byte}
    {e : MmapCfg} {g : Segment} (he : Finds decompress file e g) (hg : g.Whole) (hraw : g.Raw)
    (pages : PageData) :
    readEntry file pages (row e) =
      some ((addressed g.addr g.pages).foldl insertPage pages) := by
  have hlen : g.stored.length = g.size := by
    rw [show g.stored = g.pages.flatten from hraw, hg.flatten_length]
  have hsize : e.size = e.length := by rw [he.size, he.length, hlen]
  have hdata : ((file.drop e.offset).take e.length).length = e.length := by
    rw [he.stored, he.length]
  rw [readEntry]
  dsimp only
  have hfour : [numeral 16 e.addr, numeral 16 e.offset, numeral 16 e.size,
      numeral 16 e.length].length = 4 := rfl
  rw [words_row, if_pos hfour]
  simp only [List.getElem?_cons_zero, List.getElem?_cons_succ, Option.bind_eq_bind,
    Option.bind_some, readHex_numeral]
  rw [if_pos ⟨hsize, hdata⟩, he.stored, he.addr, he.size, show g.stored = g.pages.flatten from hraw]
  exact congrArg some (splitPages_flatten hg.sized pages g.addr)

theorem readEntries_rows {decompress : List Byte → ℕ → Option (List Byte)} {file : List Byte}
    {table : List MmapCfg} {segs : List Segment}
    (h : List.Forall₂ (Finds decompress file) table segs) (hwhole : ∀ g ∈ segs, g.Whole)
    (hraw : ∀ g ∈ segs, g.Raw) (pages : PageData) :
    (table.map row).foldlM (readEntry file) pages =
      some ((segs.flatMap fun g => addressed g.addr g.pages).foldl insertPage pages) := by
  induction h generalizing pages with
  | nil => rfl
  | @cons e g table segs he _ ih =>
    rw [List.map_cons, List.foldlM_cons, readEntry_row he (hwhole g (by simp)) (hraw g (by simp)),
      List.flatMap_cons, List.foldl_append]
    exact ih (fun g' h' => hwhole g' (by simp [h'])) (fun g' h' => hraw g' (by simp [h'])) _

theorem insertPages_entries {pages : List (ℕ × List Byte)} {data : PageData}
    (hdistinct : pages.Pairwise fun p q => p.1 ≠ q.1) (hnew : ∀ page ∈ pages, page.1 ∉ data) :
    (pages.foldl insertPage data).entries =
      (pages.map fun page => ⟨page.1, page.2⟩).reverse ++ data.entries := by
  induction pages generalizing data with
  | nil => rfl
  | cons page pages ih =>
    obtain ⟨hne, hdistinct⟩ := List.pairwise_cons.mp hdistinct
    have hentries : (insertPage data page).entries = ⟨page.1, page.2⟩ :: data.entries :=
      AList.entries_insert_of_notMem (hnew page (by simp))
    have hnew' : ∀ page' ∈ pages, page'.1 ∉ insertPage data page := by
      intro page' h' hin
      rcases (AList.mem_insert _).mp hin with heq | hin
      · exact hne page' h' heq.symm
      · exact hnew page' (by simp [h']) hin
    rw [List.foldl_cons, ih hdistinct hnew', hentries, List.map_cons, List.reverse_cons,
      List.append_assoc, List.singleton_append]

/-- Sorting the dictionary gives the pages back in their order. -/
theorem sortedPages_insertPages {pages : List (ℕ × List Byte)} (hsorted : pages.Pairwise Before) :
    sortedPages (pages.foldl insertPage ∅) = pages := by
  have hlt : pages.Pairwise fun p q => p.1 < q.1 := hsorted.imp fun {p q} h => by
    have hle := h.1
    unfold PAGE_SIZE at hle
    omega
  have hentries : (pages.foldl insertPage ∅).entries =
      (pages.map fun page => (⟨page.1, page.2⟩ : Σ _ : ℕ, List Byte)).reverse := by
    rw [insertPages_entries (hlt.imp fun h => h.ne) fun page _ => AList.notMem_empty _]
    exact List.append_nil _
  have htotal : Std.Total fun p q : (Σ _ : ℕ, List Byte) => p.1 ≤ q.1 :=
    ⟨fun p q => Nat.le_total _ _⟩
  have htrans : IsTrans (Σ _ : ℕ, List Byte) fun p q => p.1 ≤ q.1 := ⟨fun p q r => Nat.le_trans⟩
  have hmap : (pages.map fun page => (⟨page.1, page.2⟩ : Σ _ : ℕ, List Byte)).Pairwise
      fun p q => p.1 < q.1 := List.pairwise_map.mpr hlt
  have hperm : ((pages.foldl insertPage ∅).entries.insertionSort fun p q => p.1 ≤ q.1).Perm
      (pages.map fun page => (⟨page.1, page.2⟩ : Σ _ : ℕ, List Byte)) := by
    rw [hentries]
    exact (List.perm_insertionSort _ _).trans (List.reverse_perm _)
  have hnodup : ((pages.foldl insertPage ∅).entries.insertionSort fun p q => p.1 ≤ q.1).Pairwise
      fun p q => p.1 < q.1 := by
    have hne : ((pages.foldl insertPage ∅).entries.insertionSort fun p q => p.1 ≤ q.1).Pairwise
        fun p q => p.1 ≠ q.1 :=
      (hperm.pairwise_iff fun h => Ne.symm h).mpr (hmap.imp fun h => h.ne)
    exact ((List.pairwise_insertionSort _ _).and hne).imp fun h => lt_of_le_of_ne h.1 h.2
  have heq := List.Perm.eq_of_pairwise (fun p q _ _ hpq hqp => absurd hpq (Nat.lt_asymm hqp))
    hnodup hmap hperm
  rw [sortedPages, heq, List.map_map]
  exact List.map_id _

theorem readImage_dump (m : PageMap) (pc : ℕ) :
    ∃ pages, readImage (m.dump pc) = some (pages, pc) ∧ sortedPages pages = pageAddrs m := by
  obtain ⟨helems, hwhole⟩ := dumpGroups_spec m
  have hholds := dump_holds (fun _ _ => none) m
  have hraw : ∀ g ∈ dumpSegments m, g.Raw := by
    intro g hg
    obtain ⟨g', -, rfl⟩ := List.mem_map.mp hg
    exact segOf_raw g'
  have hpages : ((dumpSegments m).flatMap fun g => addressed g.addr g.pages) = pageAddrs m := by
    rw [← helems, dumpSegments, List.flatMap_map]
    apply List.flatMap_congr
    intro g hg
    rw [segOf_addr (hwhole g hg)]
    rfl
  refine ⟨(pageAddrs m).foldl insertPage ∅, ?_, sortedPages_insertPages (pageAddrs_sorted m)⟩
  rw [dump_eq, readImage_cfgText, readEntries_rows hholds.finds hholds.whole hraw, hpages]
  rfl

/-! ## Packing -/

section
variable (compress : List Byte → List Byte) (maxRatio : ℚ) (maxLength : ℤ) (m : PageMap)

/-- The groups that are compressed. -/
def compGroups : List Group :=
  Groups.collect startGroup pushPage (coalesces compress maxLength)
    ((pageAddrs m).filter (compressible compress maxRatio))

/-- The groups that are left as they are. -/
def rawGroups : List Group :=
  Groups.collect startGroup pushPage follows
    ((pageAddrs m).filter fun page => !compressible compress maxRatio page)

/-- The data of a group, compressed. -/
def packOf (g : Group) : List Byte := compress g.2.flatten

def packedSegments : List Segment :=
  (rawGroups compress maxRatio m).map (segOf rawOf) ++
    (compGroups compress maxRatio maxLength m).map (segOf (packOf compress))

theorem groupPages_eq :
    groupPages compress maxRatio maxLength (pageAddrs m) =
      (compGroups compress maxRatio maxLength m, rawGroups compress maxRatio m) :=
  Groups.foldl_split _ _ _ _ _ _

theorem rawGroups_spec :
    (rawGroups compress maxRatio m).flatMap elems =
        (pageAddrs m).filter (fun page => !compressible compress maxRatio page) ∧
      ∀ g ∈ rawGroups compress maxRatio m, WholeGroup g := by
  obtain ⟨helems, hwhole⟩ := collect_pages (P := fun _ => True) (fun g page h => h)
    (fun g page _ => trivial)
    (fun page hpage => pageAddrs_proper m page (List.mem_filter.mp hpage).1)
    (fun page _ => trivial)
    ((pageAddrs_sorted m).filter fun page => !compressible compress maxRatio page)
  exact ⟨helems, fun g hg => (hwhole g hg).1⟩

variable {maxRatio maxLength}

/-- A compressed group stays within the maximal length. -/
theorem compGroups_spec (hratio : maxRatio * 4096 ≤ maxLength) :
    (compGroups compress maxRatio maxLength m).flatMap elems =
        (pageAddrs m).filter (compressible compress maxRatio) ∧
      ∀ g ∈ compGroups compress maxRatio maxLength m,
        WholeGroup g ∧ ((packOf compress g).length : ℤ) ≤ maxLength := by
  refine collect_pages ?_ ?_
    (fun page hpage => pageAddrs_proper m page (List.mem_filter.mp hpage).1) ?_
    ((pageAddrs_sorted m).filter _)
  · intro g page h
    rw [coalesces, Bool.and_eq_true] at h
    exact h.1
  · intro g page h
    rw [coalesces, Bool.and_eq_true, Bool.not_eq_true', decide_eq_false_iff_not, not_lt] at h
    rw [packOf, pushPage, List.flatten_append, List.flatten_singleton]
    exact h.2
  · intro page hpage
    obtain ⟨hmem, hfits⟩ := List.mem_filter.mp hpage
    rw [compressible, decide_eq_true_eq, (pageAddrs_proper m page hmem).sized] at hfits
    have hle : ((compress page.2).length : ℚ) ≤ maxLength :=
      hfits.trans ((mul_comm _ _).trans_le hratio)
    rw [packOf, startGroup, List.flatten_singleton]
    exact_mod_cast hle

variable {compress}

/-- The compressed image is that of its segments. -/
theorem writeImage_eq (hratio : maxRatio * 4096 ≤ maxLength) (pc : ℕ) :
    writeImage compress pc (compGroups compress maxRatio maxLength m)
        (rawGroups compress maxRatio m) =
      ⟨cfgText (tableOf 0 (packedSegments compress maxRatio maxLength m)) pc,
        fileOf (packedSegments compress maxRatio maxLength m)⟩ := by
  obtain ⟨-, hraw⟩ := rawGroups_spec compress maxRatio m
  obtain ⟨-, hcomp⟩ := compGroups_spec compress m hratio
  have hrawLength : ∀ g ∈ rawGroups compress maxRatio m,
      g.2.length * 4096 = (rawOf g).length := fun g hg => (rawOf_length (hraw g hg)).symm
  have hsum : ((rawGroups compress maxRatio m).map fun g : Group => g.2.length * 4096).sum =
      (fileOf ((rawGroups compress maxRatio m).map (segOf rawOf))).length := by
    rw [fileOf_segOf, List.length_flatMap]
    exact congrArg List.sum (List.map_congr_left hrawLength)
  have hcompLength : ∀ g ∈ compGroups compress maxRatio maxLength m,
      (compress g.2.flatten).length = (packOf compress g).length := fun g _ => rfl
  rw [writeImage, hsum, groupTable_segOf hraw hrawLength,
    groupTable_segOf (fun g hg => (hcomp g hg).1) hcompLength, packedSegments, tableOf_append,
    Nat.zero_add, fileOf_append, fileOf_segOf, fileOf_segOf]
  rfl

theorem packed_holds {decompress : List Byte → ℕ → Option (List Byte)}
    (hinverse : ∀ data, 16 ≤ data.length → decompress (compress data) data.length = some data)
    (hratio : maxRatio * 4096 ≤ maxLength) (hmax : maxLength ≤ CL_BUF_SIZE) :
    Holds decompress m (packedSegments compress maxRatio maxLength m) := by
  obtain ⟨hrawElems, hraw⟩ := rawGroups_spec compress maxRatio m
  obtain ⟨hcompElems, hcomp⟩ := compGroups_spec compress m hratio
  have hrawSegs : ∀ g ∈ (rawGroups compress maxRatio m).map (segOf rawOf), g.Whole ∧ g.Raw := by
    intro g hg
    obtain ⟨g', hg', rfl⟩ := List.mem_map.mp hg
    exact ⟨segOf_whole (hraw g' hg'), segOf_raw g'⟩
  have hcompSegs : ∀ g ∈ (compGroups compress maxRatio maxLength m).map
      (segOf (packOf compress)), g.Whole ∧ g.Packed decompress := by
    intro g hg
    obtain ⟨g', hg', rfl⟩ := List.mem_map.mp hg
    obtain ⟨hwhole, hlength⟩ := hcomp g' hg'
    have hseg : (segOf (packOf compress) g').Whole := segOf_whole hwhole
    have hlen : g'.2.flatten.length = (segOf (packOf compress) g').size := hseg.flatten_length
    have hpos := hseg.size_pos
    have hshort : ((packOf compress g').length : ℤ) ≤ (CL_BUF_SIZE : ℕ) := hlength.trans hmax
    refine ⟨hseg, Int.ofNat_le.mp hshort, ?_⟩
    rw [← hlen]
    refine hinverse g'.2.flatten ?_
    unfold PAGE_SIZE at hpos
    omega
  refine ⟨?_, ?_, ?_⟩
  · intro g hg
    rcases List.mem_append.mp hg with hg | hg
    · exact (hrawSegs g hg).1
    · exact (hcompSegs g hg).1
  · rw [packedSegments, tableOf_append, Nat.zero_add, fileOf_append]
    have hfirst : List.Forall₂ (Finds decompress
        ([] ++ (fileOf ((rawGroups compress maxRatio m).map (segOf rawOf)) ++
          fileOf ((compGroups compress maxRatio maxLength m).map (segOf (packOf compress))))))
        (tableOf 0 ((rawGroups compress maxRatio m).map (segOf rawOf)))
        ((rawGroups compress maxRatio m).map (segOf rawOf)) :=
      finds_raw (fun g hg => (hrawSegs g hg).1) (fun g hg => (hrawSegs g hg).2) [] _ rfl
    have hsecond := finds_packed (fun g hg => (hcompSegs g hg).2)
      (fileOf ((rawGroups compress maxRatio m).map (segOf rawOf)))
    exact List.rel_append hfirst hsecond
  · rw [packedSegments, List.flatMap_append, contents_of_elems hraw,
      contents_of_elems fun g hg => (hcomp g hg).1, hrawElems, hcompElems, ← List.map_append,
      ← pagesOf_eq]
    exact (List.perm_append_comm.trans
      (List.filter_append_perm (compressible compress maxRatio) (pageAddrs m))).map _

theorem compressImage_dump (hratio : maxRatio * 4096 ≤ maxLength) (pc : ℕ) :
    compressImage compress maxRatio maxLength (m.dump pc) =
      some ⟨cfgText (tableOf 0 (packedSegments compress maxRatio maxLength m)) pc,
        fileOf (packedSegments compress maxRatio maxLength m)⟩ := by
  obtain ⟨pages, hread, hsorted⟩ := readImage_dump m pc
  have hall : (pageAddrs m).all (fun page => decide (16 ≤ page.2.length)) = true := by
    rw [List.all_eq_true]
    intro page hpage
    rw [decide_eq_true_eq, (pageAddrs_proper m page hpage).sized]
    decide
  rw [compressImage, hread, Option.bind_eq_bind, Option.bind_some]
  dsimp only
  rw [hsorted, if_pos hall, groupPages_eq, writeImage_eq m hratio]

end

/-! ## The round trip -/

/-- **Images.** What `dump` writes, and what `compress.py` makes of it, is laid out for the loader;
whenever there is room for the loader, both are loaded as the pages of the map. -/
theorem image_round_trip {kernel : Kernel} (htop : CL_TOP ≤ kernel.limit)
    {compress : List Byte → List Byte} {decompress : List Byte → ℕ → Option (List Byte)}
    (hinverse : ∀ data, 16 ≤ data.length → decompress (compress data) data.length = some data)
    {maxRatio : ℚ} {maxLength : ℤ} (hratio : maxRatio * 4096 ≤ maxLength)
    (hmax : maxLength ≤ CL_BUF_SIZE) {cl : List Byte} (hcl : cl ≠ []) {m : PageMap}
    (hsize : m.keys.length * PAGE_SIZE < 2 ^ 32)
    (hlimit : ∀ pn ∈ m.keys, (pn + 1) * PAGE_SIZE ≤ kernel.limit) {pc : ℕ} (hpc : pc < 2 ^ 64) :
    (∃ table, LoadsAs kernel decompress cl m pc (m.dump pc) table) ∧
      ∃ image table, compressImage compress maxRatio maxLength (m.dump pc) = some image ∧
        LoadsAs kernel decompress cl m pc image table := by
  constructor
  · rw [dump_eq]
    exact ⟨_, (dump_holds decompress m).loadsAs hcl htop hlimit hsize hpc⟩
  · exact ⟨_, _, compressImage_dump m hratio pc,
      (packed_holds m hinverse hratio hmax).loadsAs hcl htop hlimit hsize hpc⟩

/-! ## No room -/

/-- A compression that knows one run only. -/
def runCompress : List Byte → List Byte
  | [] => []
  | b :: data => if data.all (· = b) then [0, b] else 1 :: b :: data

def runDecompress (stored : List Byte) (size : ℕ) : Option (List Byte) :=
  match stored with
  | [] => none
  | k :: data => if k = 0 then data.head?.map (List.replicate size) else some data

theorem runDecompress_runCompress (data : List Byte) (h : 16 ≤ data.length) :
    runDecompress (runCompress data) data.length = some data := by
  cases data with
  | nil => cases h
  | cons b data =>
    rw [runCompress]
    by_cases hall : data.all (· = b) = true
    · rw [if_pos hall]
      have hdata : data = List.replicate data.length b := by
        rw [List.eq_replicate_iff]
        refine ⟨rfl, fun c hc => ?_⟩
        exact of_decide_eq_true (List.all_eq_true.mp hall c hc)
      have hrun : List.replicate (b :: data).length b = b :: data := by
        rw [List.length_cons, List.replicate_succ, ← hdata]
      rw [runDecompress, if_pos rfl, List.head?_cons, Option.map_some, hrun]
    · rw [if_neg hall, runDecompress, if_neg (by decide)]

/-- Empty pages from `first` on. -/
def filled (first count : ℕ) : PageMap where
  entries := (List.range' first count).map fun pn => ⟨pn, Page.empty⟩
  nodupKeys := by
    rw [List.NodupKeys, List.keys, List.map_map]
    have hkeys : (Sigma.fst ∘ fun pn : ℕ => (⟨pn, Page.empty⟩ : Σ _ : ℕ, Page)) = id := rfl
    rw [hkeys, List.map_id]
    exact List.nodup_range'

theorem filled_keys (first count : ℕ) : (filled first count).keys = List.range' first count := by
  have hkeys : (filled first count).keys = ((List.range' first count).map fun pn =>
      (⟨pn, Page.empty⟩ : Σ _ : ℕ, Page)).map Sigma.fst := rfl
  rw [hkeys, List.map_map]
  exact List.map_id _

theorem emptyPage_round_trip :
    (∃ table, LoadsAs ⟨2 ^ 38, by decide⟩ runDecompress [0x13] (filled 0x10 1) 0x10000
        ((filled 0x10 1).dump 0x10000) table) ∧
      ∃ image table, compressImage runCompress (1 / 2) 2048 ((filled 0x10 1).dump 0x10000) =
          some image ∧
        LoadsAs ⟨2 ^ 38, by decide⟩ runDecompress [0x13] (filled 0x10 1) 0x10000 image table := by
  have hkeys := filled_keys 0x10 1
  refine image_round_trip (by decide) runDecompress_runCompress (by norm_num) (by decide)
    (List.cons_ne_nil _ _) (by rw [hkeys]; decide) ?_ (by decide)
  intro pn hpn
  rw [hkeys, List.mem_range'_1] at hpn
  dsimp only
  unfold PAGE_SIZE
  omega

theorem filled_pageAddrs (first count : ℕ) : pageAddrs (filled first count) =
    (List.range' first count).map fun pn => (pn * PAGE_SIZE, Page.empty.get) := by
  have hitems : (filled first count).items = (filled first count).entries := by
    refine List.Pairwise.insertionSort_eq (List.pairwise_map.mpr ?_)
    exact List.pairwise_le_range'
  rw [pageAddrs, hitems, filled, List.map_map]
  rfl

/-- Pages that follow each other are one group. -/
theorem collect_consecutive (first n : ℕ) (d : List Byte) :
    Groups.collect startGroup pushPage follows
      ((List.range' first (n + 1)).map fun pn => (pn * PAGE_SIZE, d)) =
      [(first * PAGE_SIZE, List.replicate (n + 1) d)] := by
  induction n with
  | zero => rfl
  | succ n ih =>
    have hfollows : follows (first * PAGE_SIZE, List.replicate (n + 1) d)
        ((first + (n + 1)) * PAGE_SIZE, d) = true := by
      rw [follows, Bool.not_eq_true', decide_eq_false_iff_not, List.length_replicate]
      dsimp only
      unfold PAGE_SIZE
      omega
    have hpush : pushPage (first * PAGE_SIZE, List.replicate (n + 1) d)
        ((first + (n + 1)) * PAGE_SIZE, d) =
        (first * PAGE_SIZE, List.replicate (n + 1 + 1) d) := by
      rw [pushPage, List.replicate_succ' (n := n + 1)]
    rw [Groups.collect] at ih ⊢
    rw [List.range'_concat, List.map_append, List.foldl_append, ih, Nat.one_mul, List.map_singleton,
      List.foldl_cons, List.foldl_nil, Groups.add, List.getLast?_singleton]
    dsimp only
    rw [if_pos hfollows, hpush]
    rfl

theorem one_table {first n : ℕ} {d : List Byte}
    (h : WholeGroup (first * PAGE_SIZE, List.replicate n d)) :
    tableOf 0 [segOf rawOf (first * PAGE_SIZE, List.replicate n d)] =
      [⟨first * PAGE_SIZE, 0, n * PAGE_SIZE, n * PAGE_SIZE⟩] := by
  have hlen := rawOf_length h
  rw [List.length_replicate] at hlen
  have hstored : (segOf rawOf (first * PAGE_SIZE, List.replicate n d)).stored.length =
      n * PAGE_SIZE := hlen
  rw [tableOf, tableOf, hstored, segOf_addr h, Segment.size, segOf, List.length_replicate]

theorem filled_table (first n : ℕ) : tableOf 0 (dumpSegments (filled first (n + 1))) =
    [⟨first * PAGE_SIZE, 0, (n + 1) * PAGE_SIZE, (n + 1) * PAGE_SIZE⟩] := by
  have hgroups : dumpGroups (filled first (n + 1)) =
      [(first * PAGE_SIZE, List.replicate (n + 1) Page.empty.get)] := by
    rw [dumpGroups, filled_pageAddrs]
    exact collect_consecutive first n _
  have hwhole := (dumpGroups_spec (filled first (n + 1))).2
  rw [hgroups] at hwhole
  rw [dumpSegments, hgroups]
  exact one_table (hwhole _ (List.mem_singleton_self _))

theorem load_refused {kernel : Kernel} {decompress : List Byte → ℕ → Option (List Byte)}
    {file cl : List Byte} {cfg : List Char} {table : List MmapCfg} {pc : ℕ}
    (hcfg : scanCfg cfg = some (table, pc)) (hbase : findBase cl.length table = none) (s : Space) :
    load kernel decompress file cl cfg s = none := by
  rw [load, hcfg, Option.bind_eq_bind, Option.bind_some]
  dsimp only
  rw [hbase]
  rfl

/-- Pages that take up all the space for the loader: it is refused. -/
theorem fullMap_refused :
    (filled 0x60000 0x20000).keys.length * PAGE_SIZE < 2 ^ 32 ∧
    load ⟨2 ^ 38, by decide⟩ runDecompress ((filled 0x60000 0x20000).dump 0x60000000).dump [0x13]
      ((filled 0x60000 0x20000).dump 0x60000000).cfg ⟨fun _ => false, fun _ => 0⟩ = none := by
  have hkeys : (filled 0x60000 0x20000).keys.length = 0x20000 := by
    rw [filled_keys, List.length_range']
  have htable : tableOf 0 (dumpSegments (filled 0x60000 0x20000)) =
      [⟨0x60000 * PAGE_SIZE, 0, 0x20000 * PAGE_SIZE, 0x20000 * PAGE_SIZE⟩] :=
    filled_table 0x60000 0x1ffff
  have hfits : ∀ e ∈ [(⟨0x60000 * PAGE_SIZE, 0, 0x20000 * PAGE_SIZE, 0x20000 * PAGE_SIZE⟩ :
      MmapCfg)], Fits e := by
    intro e he
    rw [List.mem_singleton.mp he]
    exact ⟨by decide, by decide, by decide, by decide⟩
  refine ⟨by rw [hkeys]; decide, ?_⟩
  rw [dump_eq, htable]
  exact load_refused (scanCfg_cfgText hfits (by decide) (by decide)) (by decide) _

end RvCkpt.Loader
