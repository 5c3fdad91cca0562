import RvCkpt.Loader.PackedImage
import Mathlib.Data.List.DropRight

/-! # What the loader makes of a compressed image

`map_pages` of `src/ckpt/cl.c` reads compressed data into a buffer of `CL_BUF_SIZE` bytes and takes
an entry for raw where its length is its size. `src/ckpt/compress.py` holds a page against the ratio
when it starts a group and a group against the maximal length when a page joins it, so only a group
of one page can be too long.
-/

namespace RvCkpt.Loader
open ByteMem Text Parse Image
set_option autoImplicit false

section
variable (compress : List Byte → List Byte) (maxRatio : ℚ) (maxLength : ℤ) (pages : PageData)

/-! ## The entries -/

def rawLength (g : Group) : ℕ := g.2.length * 4096

/-- The entries that `compress.py` writes for the pages it leaves as they are. -/
def rawTable : List MmapCfg :=
  groupTable rawLength 0 (groupPages compress maxRatio maxLength (sortedPages pages)).2

/-- The entries that it writes for compressed data. -/
def compTable : List MmapCfg :=
  groupTable (fun g => (compress g.2.flatten).length)
    ((groupPages compress maxRatio maxLength (sortedPages pages)).2.map rawLength).sum
    (groupPages compress maxRatio maxLength (sortedPages pages)).1

/-- The pages that are compressed, in order. -/
def compPages : List (ℕ × List Byte) :=
  (sortedPages pages).filter (compressible compress maxRatio)

/-- The page is the only one of its group. -/
def PackedAlone (page : ℕ × List Byte) : Prop :=
  Groups.Alone startGroup pushPage (coalesces compress maxLength)
    (compPages compress maxRatio pages) page

/-- `map_pages` reads the entry into its buffer and decompresses it. -/
structure Readable (e : MmapCfg) : Prop where
  fits : e.length ≤ CL_BUF_SIZE
  packed : e.length ≠ e.size

/-- The compressed image is one that `map_pages` takes for what it is. -/
structure Respected (entryPc : ℕ) (image : Image) : Prop where
  cfg : image.cfg = cfgText (rawTable compress maxRatio maxLength pages ++
    compTable compress maxRatio maxLength pages) entryPc
  raw : ∀ e ∈ rawTable compress maxRatio maxLength pages, e.length = e.size
  comp : ∀ e ∈ compTable compress maxRatio maxLength pages, Readable e

end

theorem mem_groupTable {length : Group → ℕ} {offset : ℕ} {groups : List Group} {e : MmapCfg}
    (h : e ∈ groupTable length offset groups) :
    ∃ g ∈ groups, e.size = g.2.length * 4096 ∧ e.length = length g := by
  induction groups generalizing offset with
  | nil => cases h
  | cons g groups ih =>
    rcases List.mem_cons.mp h with rfl | h
    · exact ⟨g, List.mem_cons_self, rfl, rfl⟩
    · obtain ⟨g', hg', hsize, hlength⟩ := ih h
      exact ⟨g', List.mem_cons_of_mem g hg', hsize, hlength⟩

theorem exists_mem_groupTable (length : Group → ℕ) {groups : List Group} {g : Group}
    (h : g ∈ groups) (offset : ℕ) :
    ∃ e ∈ groupTable length offset groups, e.size = g.2.length * 4096 ∧ e.length = length g := by
  induction groups generalizing offset with
  | nil => cases h
  | cons g' groups ih =>
    rcases List.mem_cons.mp h with rfl | h
    · exact ⟨_, List.mem_cons_self, rfl, rfl⟩
    · obtain ⟨e, he, hsize, hlength⟩ := ih h (offset + length g')
      exact ⟨e, List.mem_cons_of_mem _ he, hsize, hlength⟩

section
variable {compress : List Byte → List Byte} {maxRatio : ℚ} {maxLength : ℤ} {pages : PageData}

theorem groupPages_comp :
    (groupPages compress maxRatio maxLength (sortedPages pages)).1 =
      Groups.collect startGroup pushPage (coalesces compress maxLength)
        (compPages compress maxRatio pages) := by
  rw [groupPages, Groups.foldl_split]
  rfl

theorem collect_ne_nil {joins : Group → ℕ × List Byte → Bool} {xs : List (ℕ × List Byte)} :
    ∀ g ∈ Groups.collect startGroup pushPage joins xs, g.2 ≠ [] := by
  rw [Groups.forall_collect_iff fun g page _ => by simp [pushPage]]
  intro page _
  exact List.cons_ne_nil _ _

/-- A group is readable where its data fits into the buffer. -/
theorem compTable_readable_iff :
    (∀ e ∈ compTable compress maxRatio maxLength pages, Readable e) ↔
      ∀ g ∈ Groups.collect startGroup pushPage (coalesces compress maxLength)
        (compPages compress maxRatio pages), (compress g.2.flatten).length ≤ CL_BUF_SIZE := by
  rw [compTable, groupPages_comp]
  constructor
  · intro h g hg
    obtain ⟨e, he, -, hlength⟩ := exists_mem_groupTable (fun g : Group =>
      (compress g.2.flatten).length) hg _
    rw [← hlength]
    exact (h e he).fits
  · intro h e he
    obtain ⟨g, hg, hsize, hlength⟩ := mem_groupTable he
    have hfits := h g hg
    have hpos : 0 < g.2.length := List.length_pos_of_ne_nil (collect_ne_nil g hg)
    refine ⟨by rw [hlength]; exact hfits, ?_⟩
    rw [hlength, hsize]
    unfold CL_BUF_SIZE at hfits
    omega

/-- A group that a page has joined fits into the buffer. -/
theorem pushed_fits (hmax : maxLength ≤ CL_BUF_SIZE) (g : Group) (page : ℕ × List Byte)
    (h : coalesces compress maxLength g page = true) :
    (compress (pushPage g page).2.flatten).length ≤ CL_BUF_SIZE := by
  rw [coalesces, Bool.and_eq_true, Bool.not_eq_true', decide_eq_false_iff_not, not_lt] at h
  rw [pushPage, List.flatten_append, List.flatten_singleton]
  exact Int.ofNat_le.mp (h.2.trans hmax)

theorem compTable_readable (hmax : maxLength ≤ CL_BUF_SIZE) :
    (∀ e ∈ compTable compress maxRatio maxLength pages, Readable e) ↔
      ∀ page, PackedAlone compress maxRatio maxLength pages page →
        (compress page.2).length ≤ CL_BUF_SIZE := by
  rw [compTable_readable_iff, Groups.forall_collect_iff (pushed_fits hmax)]
  simp only [startGroup, List.flatten_singleton]
  rfl

theorem not_respected (hmax : maxLength ≤ CL_BUF_SIZE) {addr : ℕ} {data : List Byte}
    (halone : PackedAlone compress maxRatio maxLength pages (addr, data))
    (hlarge : CL_BUF_SIZE < (compress data).length) {entryPc : ℕ} {out : Image} :
    ¬ Respected compress maxRatio maxLength pages entryPc out := fun h =>
  absurd ((compTable_readable hmax).mp h.comp _ halone) (Nat.not_le.mpr hlarge)

/-- What `compress.py` writes, where it raises no exception. -/
theorem compressImage_cfg {image out : Image} {entryPc : ℕ}
    (hread : readImage image = some (pages, entryPc))
    (h : compressImage compress maxRatio maxLength image = some out) :
    out.cfg = cfgText (rawTable compress maxRatio maxLength pages ++
      compTable compress maxRatio maxLength pages) entryPc := by
  rw [compressImage, hread, Option.bind_eq_bind, Option.bind_some] at h
  dsimp only at h
  split_ifs at h
  rw [← Option.some.inj h]
  rfl

/-- **The entries of a compressed image** are what the loader takes them for if and only if every
page that has a group of its own fits into the loader's buffer. -/
theorem respected_iff (hmax : maxLength ≤ CL_BUF_SIZE) (image : Image) :
    (∀ pages entryPc out, readImage image = some (pages, entryPc) →
      compressImage compress maxRatio maxLength image = some out →
        Respected compress maxRatio maxLength pages entryPc out) ↔
    ∀ pages entryPc out, readImage image = some (pages, entryPc) →
      compressImage compress maxRatio maxLength image = some out →
        ∀ page, PackedAlone compress maxRatio maxLength pages page →
          (compress page.2).length ≤ CL_BUF_SIZE := by
  constructor
  · intro h pages entryPc out hread hout
    exact (compTable_readable hmax).mp (h pages entryPc out hread hout).comp
  · intro h pages entryPc out hread hout
    refine ⟨compressImage_cfg hread hout, fun e he => ?_,
      (compTable_readable hmax).mpr (h pages entryPc out hread hout)⟩
    obtain ⟨g, -, hsize, hlength⟩ := mem_groupTable he
    rw [hsize, hlength, rawLength]

end


/-! ## A page that is too long -/

theorem compressible_of_le {compress : List Byte → List Byte} {maxRatio : ℚ} {data : List Byte}
    (addr : ℕ) (h : ((compress data).length : ℚ) ≤ data.length * maxRatio) :
    compressible compress maxRatio (addr, data) = true := decide_eq_true h

/-- A compression that leaves out the zeroes at the end. -/
def zeroTail (data : List Byte) : List Byte :=
  let body := data.rdropWhile (· = 0)
  body ++ lowBytes 2 (data.length - body.length)

/-- A page with 3000 bytes in it. -/
def longData : List Byte := (List.range PAGE_SIZE).map fun i => if i < 3000 then 1 else 0

def longPage : PageMap := AList.singleton 0x10 ⟨0, fun i => if i < 3000 then 1 else 0⟩

theorem longPage_pageAddrs : pageAddrs longPage = [(0x10000, longData)] := rfl

theorem longData_length : longData.length = PAGE_SIZE := by
  rw [longData, List.length_map, List.length_range]

theorem longData_packed : (zeroTail longData).length = 3002 := by
  decide +kernel

theorem respected_default :
    (∀ pages entryPc out, readImage (longPage.dump 0x10000) = some (pages, entryPc) →
      compressImage zeroTail (3 / 10) 2048 (longPage.dump 0x10000) = some out →
        Respected zeroTail (3 / 10) 2048 pages entryPc out) ↔
    ∀ pages entryPc out, readImage (longPage.dump 0x10000) = some (pages, entryPc) →
      compressImage zeroTail (3 / 10) 2048 (longPage.dump 0x10000) = some out →
        ∀ page, PackedAlone zeroTail (3 / 10) 2048 pages page →
          (zeroTail page.2).length ≤ CL_BUF_SIZE :=
  respected_iff le_rfl _

/-- With a ratio of 0.75 the page is written as 3002 bytes of compressed data. -/
theorem longPage_not_respected :
    ¬ ∀ pages entryPc out, readImage (longPage.dump 0x10000) = some (pages, entryPc) →
      compressImage zeroTail (3 / 4) 2048 (longPage.dump 0x10000) = some out →
        Respected zeroTail (3 / 4) 2048 pages entryPc out := by
  obtain ⟨pages, hread, hsorted⟩ := readImage_dump longPage 0x10000
  rw [longPage_pageAddrs] at hsorted
  have hlong : (sortedPages pages).all (fun page => decide (16 ≤ page.2.length)) = true := by
    rw [hsorted, List.all_cons, List.all_nil, Bool.and_true, decide_eq_true_eq, longData_length]
    decide
  have hcomp : compPages zeroTail (3 / 4) pages = [(0x10000, longData)] := by
    have hle : ((3002 : ℕ) : ℚ) ≤ (PAGE_SIZE : ℕ) * (3 / 4) := by norm_num [PAGE_SIZE]
    rw [← longData_packed, ← longData_length] at hle
    have hfits := compressible_of_le 0x10000 hle
    rw [compPages, hsorted, List.filter_cons_of_pos hfits, List.filter_nil]
  have halone : PackedAlone zeroTail (3 / 4) 2048 pages (0x10000, longData) := by
    rw [PackedAlone, hcomp]
    exact .inl ⟨[], rfl, fun g hg => by cases hg⟩
  have hout : compressImage zeroTail (3 / 4) 2048 (longPage.dump 0x10000) =
      some (writeImage zeroTail 0x10000
        (groupPages zeroTail (3 / 4) 2048 (sortedPages pages)).1
        (groupPages zeroTail (3 / 4) 2048 (sortedPages pages)).2) := by
    rw [compressImage, hread, Option.bind_eq_bind, Option.bind_some]
    exact if_pos hlong
  intro h
  have hlarge : CL_BUF_SIZE < (zeroTail longData).length := by
    rw [longData_packed]
    decide
  exact not_respected le_rfl halone hlarge (h pages 0x10000 _ hread hout)

end RvCkpt.Loader
