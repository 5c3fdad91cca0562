import RvCkpt.Recorder.MemTrace

/-! # What the recorder's operations do to the record

`MemTrace.recorded` reads a trace as a partial memory: the recorded content of every visited byte.
Each operation on a well-formed trace is then one first touch of the bytes it covers. For `fetch`
this needs that the unit it checks is not partly visited (`Whole`), which `load` gets along
without.
-/

namespace RvCkpt
open ByteMem FirstTouch
set_option autoImplicit false

/-! ## Address ranges -/

def span (a n : ℕ) : ℕ → Bool := fun b => decide (a ≤ b ∧ b < a + n)

def spell (a : ℕ) (data : BitVec 64) : ℕ → Byte := fun b => byteAt data (b - a)

theorem span_iff {a n b : ℕ} : span a n b = true ↔ a ≤ b ∧ b < a + n := by
  simp [span]

@[simp] theorem span_zero (a : ℕ) : span a 0 = fun _ => false := by
  funext b
  simp [span]

theorem span_append (a n k : ℕ) : (fun b => span a n b || span (a + n) k b) = span a (n + k) := by
  funext b
  rw [Bool.eq_iff_iff, Bool.or_eq_true, span_iff, span_iff, span_iff]
  omega

theorem touch_none (R : Record ℕ Byte) (f : ℕ → Byte) : touch R (fun _ => false) f = R :=
  touch_of_all_seen f fun _ h => by cases h

theorem touch_off_span (R : Record ℕ Byte) {a n b : ℕ} (f : ℕ → Byte) (h : span a n b = false) :
    touch R (span a n) f b = R b := by
  cases hr : R b with
  | some c => exact touch_of_some hr
  | none => rw [touch_of_none hr, h, if_neg Bool.false_ne_true]

/-- What holds of every byte of a range holds of those of its two parts. -/
theorem forall_span_add (P : ℕ → Prop) (a n k : ℕ) : (∀ b, span a (n + k) b = true → P b) ↔
    (∀ b, span a n b = true → P b) ∧ ∀ b, span (a + n) k b = true → P b := by
  constructor
  · intro h
    constructor <;> intro b hb <;> rw [span_iff] at hb <;> exact h b (span_iff.mpr (by omega))
  · rintro ⟨hfirst, hsecond⟩ b hb
    rw [span_iff] at hb
    by_cases hlo : b < a + n
    · exact hfirst b (span_iff.mpr ⟨hb.1, hlo⟩)
    · exact hsecond b (span_iff.mpr (by omega))

namespace MemTrace

/-! ## The record of a trace -/

def recorded (T : MemTrace) : Record ℕ Byte := fun a =>
  (T.pages.lookup (a / PAGE_SIZE)).bind fun page => page.get (a % PAGE_SIZE)

/-- The memory a checkpoint starts from: recorded content, and zero elsewhere. -/
def image (T : MemTrace) : Mem := FirstTouch.image 0 T.recorded

theorem recorded_new : new.recorded = fun _ => none := rfl

theorem recorded_page {T : MemTrace} {pn : ℕ} (offset : ℕ) {page : PageRec}
    (h : T.pages.lookup pn = some page) (ho : offset < PAGE_SIZE) :
    T.recorded (pn * PAGE_SIZE + offset) = page.get offset := by
  have hdiv : (pn * PAGE_SIZE + offset) / PAGE_SIZE = pn := by unfold PAGE_SIZE at *; omega
  have hmod : (pn * PAGE_SIZE + offset) % PAGE_SIZE = offset := by unfold PAGE_SIZE at *; omega
  rw [recorded, hdiv, hmod, h, Option.bind_some]

/-! ## Well-formed traces -/

/-- A cache is unused, or points to a page that exists. -/
def Valid (present : ℕ → Prop) (cache : PtrCache) : Prop :=
  (cache.ptr = none ∧ cache.idx = 0) ∨ (cache.ptr = some cache.idx ∧ present cache.idx)

structure Wf (T : MemTrace) : Prop where
  fetch : Valid (fun pn => pn ∈ T.pages) T.fetchCache
  load : Valid (fun pn => pn ∈ T.pages) T.loadCache
  exec : Valid (fun pn => pn ∈ T.execs) T.execCache

theorem wf_new : new.Wf := ⟨.inl ⟨rfl, rfl⟩, .inl ⟨rfl, rfl⟩, .inl ⟨rfl, rfl⟩⟩

theorem Valid.mono {present present' : ℕ → Prop} {cache : PtrCache} (h : Valid present cache)
    (hp : ∀ pn, present pn → present' pn) : Valid present' cache :=
  h.imp_right fun hs => ⟨hs.1, hp _ hs.2⟩

/-- The pointer that `get_page` returns for a page other than 0, or once the cache is in use. -/
theorem Valid.ptr {present : ℕ → Prop} {cache : PtrCache} (h : Valid present cache)
    (hu : cache.idx ≠ 0 ∨ cache.ptr.isSome) : cache.ptr = some cache.idx ∧ present cache.idx := by
  obtain ⟨hptr, hidx⟩ | hs := h
  · obtain hne | hsome := hu
    · exact absurd hidx hne
    · rw [hptr] at hsome
      cases hsome
  · exact hs

/-! ## Selecting a page -/

theorem mem_getPage (T : MemTrace) (pn k : ℕ) : k ∈ (T.getPage pn).pages ↔ k = pn ∨ k ∈ T.pages := by
  unfold getPage
  cases h : T.pages.lookup pn with
  | none => exact AList.mem_insert T.pages
  | some page =>
    have hpn : pn ∈ T.pages := AList.lookup_isSome.mp (by rw [h]; rfl)
    constructor
    · exact .inr
    · rintro (rfl | hk)
      · exact hpn
      · exact hk

theorem getPage_recorded (T : MemTrace) (pn : ℕ) : (T.getPage pn).recorded = T.recorded := by
  unfold getPage
  cases h : T.pages.lookup pn with
  | some page => rfl
  | none =>
    funext a
    simp only [recorded]
    by_cases ha : a / PAGE_SIZE = pn
    · rw [ha, AList.lookup_insert, h]
      exact PageRec.new_get _
    · rw [AList.lookup_insert_ne ha]

theorem getPage_execs (T : MemTrace) (pn : ℕ) :
    (T.getPage pn).execs = T.execs ∧ (T.getPage pn).execCache = T.execCache := by
  unfold getPage
  cases T.pages.lookup pn <;> exact ⟨rfl, rfl⟩

theorem getPage_caches (T : MemTrace) (pn : ℕ) :
    (T.getPage pn).fetchCache = T.fetchCache ∧ (T.getPage pn).loadCache = T.loadCache := by
  unfold getPage
  cases T.pages.lookup pn <;> exact ⟨rfl, rfl⟩

/-- Going from `T` to `T'` leaves the record, the caches and the counters, and drops no page. -/
structure SameRecord (T T' : MemTrace) : Prop where
  recorded : T'.recorded = T.recorded
  fetchCache : T'.fetchCache = T.fetchCache
  loadCache : T'.loadCache = T.loadCache
  execs : T'.execs = T.execs
  execCache : T'.execCache = T.execCache
  pages : ∀ pn, pn ∈ T.pages → pn ∈ T'.pages

theorem SameRecord.refl (T : MemTrace) : SameRecord T T :=
  ⟨rfl, rfl, rfl, rfl, rfl, fun _ => id⟩

theorem getPage_sameRecord (T : MemTrace) (pn : ℕ) : SameRecord T (T.getPage pn) := by
  refine ⟨getPage_recorded T pn, (getPage_caches T pn).1, (getPage_caches T pn).2,
    (getPage_execs T pn).1, (getPage_execs T pn).2, ?_⟩
  intro k hk
  exact (mem_getPage T pn k).mpr (.inr hk)

/-- `get_page(pn, cache)` hands out the page, unless it is page 0 and the cache is unused. -/
theorem getPageCached_spec {T : MemTrace} {cache : PtrCache} {pn : ℕ}
    (hv : Valid (fun k => k ∈ T.pages) cache) (hu : pn ≠ 0 ∨ cache.ptr.isSome) :
    (T.getPageCached pn cache).2 = ⟨pn, some pn⟩ ∧
    pn ∈ (T.getPageCached pn cache).1.pages ∧ SameRecord T (T.getPageCached pn cache).1 := by
  unfold getPageCached
  by_cases hpn : pn = cache.idx
  · rw [if_neg (not_not_intro hpn)]
    obtain ⟨idx, ptr⟩ := cache
    obtain ⟨hptr, hmem⟩ := hv.ptr (hpn ▸ hu)
    simp only at hpn hptr hmem
    subst hpn hptr
    exact ⟨rfl, hmem, .refl T⟩
  · rw [if_pos hpn]
    exact ⟨rfl, (mem_getPage T pn pn).mpr (.inl rfl), getPage_sameRecord T pn⟩

theorem selectFetch_spec {T : MemTrace} (pn : ℕ) (h : T.Wf)
    (hu : pn ≠ 0 ∨ T.fetchCache.ptr.isSome) :
    (T.selectFetch pn).Wf ∧ (T.selectFetch pn).recorded = T.recorded ∧
    (T.selectFetch pn).fetchCache = ⟨pn, some pn⟩ ∧ pn ∈ (T.selectFetch pn).pages ∧
    (T.selectFetch pn).loadCache = T.loadCache ∧ (T.selectFetch pn).execs = T.execs ∧
    (T.selectFetch pn).execCache = T.execCache := by
  obtain ⟨hcache, hmem, hsame⟩ := getPageCached_spec h.fetch hu
  simp only [selectFetch]
  rw [hcache]
  refine ⟨⟨.inr ⟨rfl, hmem⟩, ?_, ?_⟩, hsame.recorded, rfl, hmem, hsame.loadCache, hsame.execs,
    hsame.execCache⟩
  · rw [hsame.loadCache]
    exact h.load.mono hsame.pages
  · rw [hsame.execCache, hsame.execs]
    exact h.exec

theorem selectLoad_spec {T : MemTrace} (pn : ℕ) (h : T.Wf)
    (hu : pn ≠ 0 ∨ T.loadCache.ptr.isSome) :
    (T.selectLoad pn).Wf ∧ (T.selectLoad pn).recorded = T.recorded ∧
    (T.selectLoad pn).loadCache = ⟨pn, some pn⟩ ∧ pn ∈ (T.selectLoad pn).pages ∧
    (T.selectLoad pn).fetchCache = T.fetchCache ∧
    (T.selectLoad pn).execCache = T.execCache := by
  obtain ⟨hcache, hmem, hsame⟩ := getPageCached_spec h.load hu
  simp only [selectLoad]
  rw [hcache]
  refine ⟨⟨?_, .inr ⟨rfl, hmem⟩, ?_⟩, hsame.recorded, rfl, hmem, hsame.fetchCache,
    hsame.execCache⟩
  · rw [hsame.fetchCache]
    exact h.fetch.mono hsame.pages
  · rw [hsame.execCache, hsame.execs]
    exact h.exec

/-! ## Writing one unit of a page -/

theorem lookup_of_mem {T : MemTrace} {pn : ℕ} (h : pn ∈ T.pages) :
    ∃ page, T.pages.lookup pn = some page :=
  Option.isSome_iff_exists.mp (AList.lookup_isSome.mpr h)

theorem putPage_wf {T : MemTrace} {cache : PtrCache} {page : PageRec} (h : T.Wf) :
    (T.putPage cache page).Wf := by
  unfold putPage
  cases cache.ptr with
  | none => exact h
  | some pn =>
    have hgrow : ∀ k, k ∈ T.pages → k ∈ T.pages.insert pn page := by
      intro k hk
      exact (AList.mem_insert T.pages).mpr (.inr hk)
    exact ⟨h.fetch.mono hgrow, h.load.mono hgrow, h.exec⟩

theorem putPage_fetchCache (T : MemTrace) (cache : PtrCache) (page : PageRec) :
    (T.putPage cache page).fetchCache = T.fetchCache := by
  unfold putPage
  cases cache.ptr <;> rfl

theorem putPage_loadCache (T : MemTrace) (cache : PtrCache) (page : PageRec) :
    (T.putPage cache page).loadCache = T.loadCache := by
  unfold putPage
  cases cache.ptr <;> rfl

theorem putPage_execCache (T : MemTrace) (cache : PtrCache) (page : PageRec) :
    (T.putPage cache page).execCache = T.execCache := by
  unfold putPage
  cases cache.ptr <;> rfl

theorem mem_putPage (T : MemTrace) {cache : PtrCache} {page : PageRec} {pn : ℕ}
    (h : pn ∈ T.pages) : pn ∈ (T.putPage cache page).pages := by
  unfold putPage
  cases cache.ptr with
  | none => exact h
  | some k => exact (AList.mem_insert T.pages).mpr (.inr h)

theorem put_recorded {T : MemTrace} {cache : PtrCache} {page : PageRec} {w : Width}
    {pn offset : ℕ} (data : BitVec 64) (hptr : cache.ptr = some pn)
    (hpage : T.pages.lookup pn = some page) (hfits : PageRec.Fits w offset)
    (ho : offset < PAGE_SIZE) (h0 : page.check w offset = 0) :
    (T.putPage cache (page.put w offset data)).recorded =
      touch T.recorded (span (pn * PAGE_SIZE + offset) w.bytes)
        (spell (pn * PAGE_SIZE + offset) data) := by
  have hend : offset + w.bytes ≤ PAGE_SIZE := by
    unfold PageRec.Fits at hfits
    unfold PAGE_SIZE at *
    omega
  have hnew : (T.putPage cache (page.put w offset data)).pages =
      T.pages.insert pn (page.put w offset data) := by
    rw [putPage, hptr]
  have hunseen := (PageRec.check_eq_zero_iff hfits).mp h0
  funext a
  by_cases ha : a / PAGE_SIZE = pn
  · have hget := PageRec.put_get w page hfits data (a % PAGE_SIZE)
    have hleft : (T.putPage cache (page.put w offset data)).recorded a =
        (page.put w offset data).get (a % PAGE_SIZE) := by
      rw [recorded, ha, hnew, AList.lookup_insert, Option.bind_some]
    have hright : T.recorded a = page.get (a % PAGE_SIZE) := by
      rw [recorded, ha, hpage, Option.bind_some]
    rw [hleft, hget]
    by_cases hx : offset ≤ a % PAGE_SIZE ∧ a % PAGE_SIZE < offset + w.bytes
    · have hs := hunseen (a % PAGE_SIZE - offset) (by omega)
      rw [Nat.add_sub_cancel' hx.1] at hs
      have hnone : T.recorded a = none := by
        rw [hright, PageRec.get, hs]
        rfl
      have hin : span (pn * PAGE_SIZE + offset) w.bytes a = true := by
        rw [span_iff]
        unfold PAGE_SIZE at *
        omega
      have hoff : a % PAGE_SIZE - offset = a - (pn * PAGE_SIZE + offset) := by
        unfold PAGE_SIZE at *
        omega
      rw [if_pos hx, touch_of_none hnone, if_pos hin, spell, hoff]
    · have hout : span (pn * PAGE_SIZE + offset) w.bytes a = false := by
        rw [Bool.eq_false_iff, Ne, span_iff]
        unfold PAGE_SIZE at *
        omega
      rw [if_neg hx, ← hright, touch_off_span _ _ hout]
  · have hout : span (pn * PAGE_SIZE + offset) w.bytes a = false := by
      rw [Bool.eq_false_iff, Ne, span_iff]
      unfold PAGE_SIZE at *
      omega
    have hleft : (T.putPage cache (page.put w offset data)).recorded a = T.recorded a := by
      rw [recorded, recorded, hnew, AList.lookup_insert_ne ha]
    rw [hleft, touch_off_span _ _ hout]

theorem keep_recorded {T : MemTrace} {page : PageRec} {w : Width} {pn offset : ℕ}
    (f : ℕ → Byte) (hpage : T.pages.lookup pn = some page) (hfits : PageRec.Fits w offset)
    (ho : offset < PAGE_SIZE) (hm : page.check w offset = w.mask) :
    touch T.recorded (span (pn * PAGE_SIZE + offset) w.bytes) f = T.recorded := by
  have hseen := (PageRec.check_eq_mask_iff hfits).mp hm
  apply touch_of_all_seen
  intro a ha
  obtain ⟨hlo, hhi⟩ := span_iff.mp ha
  unfold PageRec.Fits at hfits
  have hrec := recorded_page (offset + (a - (pn * PAGE_SIZE + offset))) hpage
    (by unfold PAGE_SIZE at *; omega)
  have haddr : pn * PAGE_SIZE + (offset + (a - (pn * PAGE_SIZE + offset))) = a := by omega
  rw [haddr] at hrec
  rw [hrec, PageRec.get_isSome]
  exact hseen _ (by omega)

/-! ## Fetch -/

/-- The bytes are all recorded, or none of them is. -/
def Whole (R : Record ℕ Byte) (a n : ℕ) : Prop :=
  (∀ b, span a n b = true → R b = none) ∨ (∀ b, span a n b = true → (R b).isSome)

theorem check_zero_iff {T : MemTrace} {page : PageRec} {w : Width} {pn offset : ℕ}
    (hpage : T.pages.lookup pn = some page) (hfits : PageRec.Fits w offset)
    (ho : offset < PAGE_SIZE) :
    page.check w offset = 0 ↔
      ∀ b, span (pn * PAGE_SIZE + offset) w.bytes b = true → T.recorded b = none := by
  have hend : offset + w.bytes ≤ PAGE_SIZE := by
    unfold PageRec.Fits at hfits
    unfold PAGE_SIZE at *
    omega
  rw [PageRec.check_eq_zero_iff hfits]
  constructor
  · intro h b hb
    obtain ⟨hlo, hhi⟩ := span_iff.mp hb
    have hrec := recorded_page (b - pn * PAGE_SIZE) hpage (by omega)
    rw [Nat.add_sub_cancel' (by omega)] at hrec
    have hseen := h (b - (pn * PAGE_SIZE + offset)) (by omega)
    rw [show offset + (b - (pn * PAGE_SIZE + offset)) = b - pn * PAGE_SIZE by omega] at hseen
    rw [hrec, PageRec.get, hseen]
    rfl
  · intro h i hi
    have hb := h (pn * PAGE_SIZE + offset + i) (span_iff.mpr (by omega))
    rw [Nat.add_assoc, recorded_page _ hpage (by omega)] at hb
    rw [← PageRec.get_isSome, hb]
    rfl

theorem check_mask_of_seen {T : MemTrace} {page : PageRec} {w : Width} {pn offset : ℕ}
    (hpage : T.pages.lookup pn = some page) (hfits : PageRec.Fits w offset)
    (ho : offset < PAGE_SIZE)
    (h : ∀ b, span (pn * PAGE_SIZE + offset) w.bytes b = true → (T.recorded b).isSome) :
    page.check w offset = w.mask := by
  rw [PageRec.check_eq_mask_iff hfits]
  intro i hi
  unfold PageRec.Fits at hfits
  have hb := h (pn * PAGE_SIZE + offset + i) (span_iff.mpr (by omega))
  rw [Nat.add_assoc, recorded_page _ hpage (by unfold PAGE_SIZE at *; omega)] at hb
  rw [← PageRec.get_isSome]
  exact hb

/-- `fetch` of one unit that is not partly visited. -/
theorem fetchAt_spec {T : MemTrace} {cache : PtrCache} {w : Width} {pn offset : ℕ}
    (inst : BitVec 64) (h : T.Wf) (hptr : cache.ptr = some pn) (hmem : pn ∈ T.pages)
    (hfits : PageRec.Fits w offset) (ho : offset < PAGE_SIZE)
    (hw : Whole T.recorded (pn * PAGE_SIZE + offset) w.bytes) :
    ∃ T' first, fetchAt w T cache offset inst = some (T', first) ∧ T'.Wf ∧
      T'.recorded = touch T.recorded (span (pn * PAGE_SIZE + offset) w.bytes)
        (spell (pn * PAGE_SIZE + offset) inst) ∧
      (first = true ↔
        ∀ b, span (pn * PAGE_SIZE + offset) w.bytes b = true → T.recorded b = none) ∧
      T'.fetchCache = T.fetchCache ∧ T'.loadCache = T.loadCache ∧
      T'.execCache = T.execCache ∧ (∀ k, k ∈ T.pages → k ∈ T'.pages) := by
  obtain ⟨page, hpage⟩ := lookup_of_mem hmem
  have hd : T.deref cache = some page := by rw [deref, hptr, Option.bind_some, hpage]
  have hz := check_zero_iff hpage hfits ho
  by_cases h0 : page.check w offset = 0
  · refine ⟨T.putPage cache (page.put w offset inst), true, ?_, putPage_wf h, ?_, ?_,
      putPage_fetchCache _ _ _, putPage_loadCache _ _ _, putPage_execCache _ _ _,
      fun k hk => mem_putPage T hk⟩
    · simp [fetchAt, hd, fetchPage, h0]
    · exact put_recorded inst hptr hpage hfits ho h0
    · simpa using hz.mp h0
  · have hm : page.check w offset = w.mask := by
      obtain hnone | hsome := hw
      · exact absurd (hz.mpr hnone) h0
      · exact check_mask_of_seen hpage hfits ho hsome
    have hsame : (T.putPage cache page).recorded = T.recorded := by
      funext a
      rw [recorded, recorded, putPage, hptr]
      by_cases ha : a / PAGE_SIZE = pn
      · rw [ha, AList.lookup_insert, hpage]
      · rw [AList.lookup_insert_ne ha]
    refine ⟨T.putPage cache page, false, ?_, putPage_wf h, ?_, ?_,
      putPage_fetchCache _ _ _, putPage_loadCache _ _ _, putPage_execCache _ _ _,
      fun k hk => mem_putPage T hk⟩
    · rw [fetchAt, hd, Option.bind_eq_bind, Option.bind_some, fetchPage, if_neg h0, if_pos hm]
    · rw [hsame, keep_recorded _ hpage hfits ho hm]
    · rw [← hz]
      exact ⟨fun hf => absurd hf Bool.false_ne_true, fun h0' => absurd h0' h0⟩

theorem incrExecCounter_spec {T : MemTrace} {addr : ℕ} (h : T.Wf)
    (hu : addr / PAGE_SIZE ≠ 0 ∨ T.execCache.ptr.isSome) :
    ∃ T', T.incrExecCounter addr = some T' ∧ T'.Wf ∧ T'.pages = T.pages ∧
      T'.fetchCache = T.fetchCache ∧ T'.loadCache = T.loadCache ∧
      T'.execCache.ptr = some (addr / PAGE_SIZE) := by
  have hsel : ∃ exec, (T.selectExec addr).execCache = ⟨addr / PAGE_SIZE, some (addr / PAGE_SIZE)⟩ ∧
      (T.selectExec addr).execs.lookup (addr / PAGE_SIZE) = some exec ∧
      (T.selectExec addr).pages = T.pages ∧ (T.selectExec addr).fetchCache = T.fetchCache ∧
      (T.selectExec addr).loadCache = T.loadCache := by
    unfold selectExec
    by_cases hpn : addr / PAGE_SIZE = T.execCache.idx
    · rw [if_neg (not_not_intro hpn)]
      obtain ⟨hptr, hmem⟩ := h.exec.ptr (hpn ▸ hu)
      obtain ⟨exec, hexec⟩ := Option.isSome_iff_exists.mp (AList.lookup_isSome.mpr hmem)
      refine ⟨exec, ?_, hpn ▸ hexec, rfl, rfl, rfl⟩
      rw [hpn, ← hptr]
    · rw [if_pos hpn]
      unfold getExec
      cases hexec : T.execs.lookup (addr / PAGE_SIZE) with
      | some exec => exact ⟨exec, rfl, hexec, rfl, rfl, rfl⟩
      | none => exact ⟨.new, rfl, AList.lookup_insert _, rfl, rfl, rfl⟩
  obtain ⟨exec, hcache, hlook, hpages, hfc, hlc⟩ := hsel
  refine ⟨{ T.selectExec addr with
    execs := (T.selectExec addr).execs.insert (addr / PAGE_SIZE)
      (exec.incr (addr % PAGE_SIZE)) }, ?_, ⟨?_, ?_, ?_⟩, hpages, hfc, hlc, ?_⟩
  · simp [incrExecCounter, hcache, hlook]
  · simpa only [hpages, hfc] using h.fetch
  · simpa only [hpages, hlc] using h.load
  · right
    simp only [hcache]
    exact ⟨trivial, (AList.mem_insert _).mpr (.inl rfl)⟩
  · simp only [hcache]

/-- The units that `fetch` checks as a whole. -/
def fetchUnits (addr length : ℕ) : List (ℕ × ℕ) :=
  if length = 2 then [(addr, 2)]
  else if addr % 4 = 0 then [(addr, 4)]
  else [(addr, 2), (addr + 2, 2)]

theorem spell_shift (addr : ℕ) (inst : BitVec 64) {b : ℕ} (h : addr + 2 ≤ b) :
    spell (addr + 2) (inst >>> 16) b = spell addr inst b := by
  rw [spell, spell, show (16 : ℕ) = 8 * 2 from rfl, byteAt_ushiftRight,
    show 2 + (b - (addr + 2)) = b - addr by omega]

theorem page_addr (addr : ℕ) : addr / PAGE_SIZE * PAGE_SIZE + addr % PAGE_SIZE = addr :=
  Nat.div_add_mod' _ _

theorem offset_lt (addr : ℕ) : addr % PAGE_SIZE < PAGE_SIZE := Nat.mod_lt _ (by decide)

/-- The state `fetch` checks the bytes in: the counter is incremented, the page selected. -/
theorem fetchStart_spec {T : MemTrace} {addr : ℕ} (h : T.Wf)
    (hu : addr / PAGE_SIZE ≠ 0 ∨ (T.fetchCache.ptr.isSome ∧ T.execCache.ptr.isSome)) :
    ∃ T₁ T₂, T.incrExecCounter addr = some T₁ ∧ T₂ = T₁.selectFetch (addr / PAGE_SIZE) ∧
      T₂.Wf ∧ T₂.recorded = T.recorded ∧ T₂.fetchCache.ptr = some (addr / PAGE_SIZE) ∧
      addr / PAGE_SIZE ∈ T₂.pages ∧ T₂.loadCache = T.loadCache ∧ T₂.execCache.ptr.isSome := by
  obtain ⟨T₁, hT₁, hwf₁, hpages₁, hfc₁, hlc₁, hec₁⟩ :=
    incrExecCounter_spec h (hu.imp_right And.right)
  have hrec₁ : T₁.recorded = T.recorded := by
    funext a
    rw [recorded, recorded, hpages₁]
  obtain ⟨hwf₂, hrec₂, hfc₂, hmem₂, hlc₂, -, hec₂⟩ :=
    selectFetch_spec (addr / PAGE_SIZE) hwf₁ (by rw [hfc₁]; exact hu.imp_right And.left)
  refine ⟨T₁, _, hT₁, rfl, hwf₂, hrec₂.trans hrec₁, by rw [hfc₂], hmem₂, hlc₂.trans hlc₁, ?_⟩
  rw [hec₂, hec₁]
  rfl

theorem fetch_unit_spec {T : MemTrace} {addr : ℕ} {w : Width} (inst : BitVec 64) (h : T.Wf)
    (hcase : w = .w2 ∧ addr % 2 = 0 ∨ w = .w4 ∧ addr % 4 = 0)
    (hu : addr / PAGE_SIZE ≠ 0 ∨ (T.fetchCache.ptr.isSome ∧ T.execCache.ptr.isSome))
    (hw : Whole T.recorded addr w.bytes) :
    ∃ T' first, T.fetch addr inst w.bytes = some (T', first) ∧ T'.Wf ∧
      T'.recorded = touch T.recorded (span addr w.bytes) (spell addr inst) ∧
      (first = true ↔ ∀ b, span addr w.bytes b = true → T.recorded b = none) ∧
      T'.fetchCache.ptr.isSome ∧ T'.execCache.ptr.isSome ∧ T'.loadCache = T.loadCache := by
  obtain ⟨T₁, T₂, hT₁, hT₂, hwf₂, hrec₂, hptr₂, hmem₂, hlc₂, hec₂⟩ := fetchStart_spec h hu
  have halign : addr % PAGE_SIZE % w.bytes = 0 := by
    obtain ⟨rfl, ha⟩ | ⟨rfl, ha⟩ := hcase <;> simp only [Width.bytes] <;> unfold PAGE_SIZE <;> omega
  obtain ⟨T', first, hT', hwf', hrec', hfirst, hfc', hlc', hec', -⟩ :=
    fetchAt_spec (w := w) inst hwf₂ hptr₂ hmem₂ (PageRec.fits_of_aligned halign) (offset_lt addr)
      (by rw [page_addr, hrec₂]; exact hw)
  rw [page_addr, hrec₂] at hrec' hfirst
  refine ⟨T', first, ?_, hwf', hrec', hfirst, ?_, ?_, hlc'.trans hlc₂⟩
  · simp only [fetch, hT₁, Option.bind_eq_bind, Option.bind_some, ← hT₂]
    obtain ⟨rfl, ha⟩ | ⟨rfl, ha⟩ := hcase
    · rw [if_pos (show Width.w2.bytes = 2 from rfl)]
      exact hT'
    · rw [if_neg (by decide), if_pos ha]
      exact hT'
  · rw [hfc', hptr₂]
    rfl
  · rw [hec']
    exact hec₂

/-- The page and the offset of the second half of an instruction that is not 4-aligned. -/
theorem secondHalf_spec {T : MemTrace} {addr : ℕ} (h : T.Wf) (ha : addr % 2 = 0)
    (hptr : T.fetchCache.ptr = some (addr / PAGE_SIZE)) (hmem : addr / PAGE_SIZE ∈ T.pages) :
    ∃ T' pn offset,
      T' = (if addr % PAGE_SIZE + 2 = PAGE_SIZE then T.selectFetch (addr / PAGE_SIZE + 1) else T) ∧
      offset = (if addr % PAGE_SIZE + 2 = PAGE_SIZE then 0 else addr % PAGE_SIZE + 2) ∧
      pn * PAGE_SIZE + offset = addr + 2 ∧ offset < PAGE_SIZE ∧ offset % 2 = 0 ∧
      T'.Wf ∧ T'.recorded = T.recorded ∧ T'.fetchCache.ptr = some pn ∧ pn ∈ T'.pages ∧
      T'.loadCache = T.loadCache ∧ T'.execCache = T.execCache := by
  have haddr := page_addr addr
  have ho := offset_lt addr
  have heven : addr % PAGE_SIZE % 2 = 0 := by
    unfold PAGE_SIZE
    omega
  by_cases hcross : addr % PAGE_SIZE + 2 = PAGE_SIZE
  · obtain ⟨hwf, hrec, hfc, hmem', hlc, -, hec⟩ :=
      selectFetch_spec (addr / PAGE_SIZE + 1) h (.inl (Nat.succ_ne_zero _))
    refine ⟨_, addr / PAGE_SIZE + 1, _, rfl, rfl, ?_⟩
    rw [if_pos hcross, if_pos hcross, hfc]
    refine ⟨?_, by decide, by decide, hwf, hrec, rfl, hmem', hlc, hec⟩
    rw [Nat.add_mul]
    omega
  · refine ⟨_, addr / PAGE_SIZE, _, rfl, rfl, ?_⟩
    rw [if_neg hcross, if_neg hcross]
    have hlt : addr % PAGE_SIZE + 2 < PAGE_SIZE := by
      unfold PAGE_SIZE at *
      omega
    exact ⟨by omega, hlt, by omega, h, rfl, hptr, hmem, rfl, rfl⟩

theorem fetch_split_spec {T : MemTrace} {addr : ℕ} (inst : BitVec 64) (h : T.Wf)
    (ha : addr % 2 = 0) (hal : addr % 4 ≠ 0)
    (hu : addr / PAGE_SIZE ≠ 0 ∨ (T.fetchCache.ptr.isSome ∧ T.execCache.ptr.isSome))
    (hw1 : Whole T.recorded addr 2) (hw2 : Whole T.recorded (addr + 2) 2) :
    ∃ T' first, T.fetch addr inst 4 = some (T', first) ∧ T'.Wf ∧
      T'.recorded = touch T.recorded (span addr 4) (spell addr inst) ∧
      (first = true ↔ ∀ b, span addr 4 b = true → T.recorded b = none) ∧
      T'.fetchCache.ptr.isSome ∧ T'.execCache.ptr.isSome ∧ T'.loadCache = T.loadCache := by
  obtain ⟨T₁, T₂, hT₁, hT₂, hwf₂, hrec₂, hptr₂, hmem₂, hlc₂, hec₂⟩ := fetchStart_spec h hu
  have halign : addr % PAGE_SIZE % Width.w2.bytes = 0 := by
    simp only [Width.bytes]
    unfold PAGE_SIZE
    omega
  obtain ⟨T₃, first1, hT₃, hwf₃, hrec₃, hfirst1, hfc₃, hlc₃, hec₃, hgrow₃⟩ :=
    fetchAt_spec (w := .w2) inst hwf₂ hptr₂ hmem₂ (PageRec.fits_of_aligned halign)
      (offset_lt addr) (by rw [page_addr, hrec₂]; exact hw1)
  rw [page_addr, hrec₂] at hrec₃ hfirst1
  simp only [Width.bytes] at hrec₃ hfirst1
  obtain ⟨T₄, pn₄, offset₄, hT₄, hoff₄, haddr₄, ho₄, heven₄, hwf₄, hrec₄, hptr₄, hmem₄, hlc₄,
    hec₄⟩ := secondHalf_spec hwf₃ ha (by rw [hfc₃, hptr₂]) (hgrow₃ _ hmem₂)
  have hout : ∀ b, span (addr + 2) 2 b = true → T₃.recorded b = T.recorded b := by
    intro b hb
    rw [hrec₃]
    apply touch_off_span
    rw [Bool.eq_false_iff, Ne, span_iff]
    have := span_iff.mp hb
    omega
  have hwhole₄ : Whole T₄.recorded (pn₄ * PAGE_SIZE + offset₄) Width.w2.bytes := by
    rw [haddr₄, hrec₄]
    obtain hnone | hsome := hw2
    · exact .inl fun b hb => by rw [hout b hb, hnone b hb]
    · exact .inr fun b hb => by rw [hout b hb]; exact hsome b hb
  obtain ⟨T', first2, hT', hwf', hrec', hfirst2, hfc', hlc', hec', -⟩ :=
    fetchAt_spec (w := .w2) (inst >>> 16) hwf₄ hptr₄ hmem₄ (PageRec.fits_of_aligned heven₄) ho₄
      hwhole₄
  rw [haddr₄, hrec₄] at hrec' hfirst2
  simp only [Width.bytes] at hrec' hfirst2
  refine ⟨T', first1 && first2, ?_, hwf', ?_, ?_, ?_, ?_, ?_⟩
  · rw [fetch, hT₁, Option.bind_eq_bind, Option.bind_some, if_neg (by decide), if_neg hal]
    simp only [← hT₂, hT₃, Option.bind_eq_bind, Option.bind_some, ← hT₄, ← hoff₄, hT']
  · have hshift : touch T₃.recorded (span (addr + 2) 2) (spell (addr + 2) (inst >>> 16)) =
        touch T₃.recorded (span (addr + 2) 2) (spell addr inst) :=
      touch_congr fun b _ hb => spell_shift addr inst (span_iff.mp hb).1
    rw [hrec', hshift, hrec₃, touch_touch, span_append addr 2 2]
  · rw [Bool.and_eq_true, hfirst1, hfirst2, forall_span_add _ addr 2 2]
    refine and_congr_right fun _ => forall_congr' fun b => ?_
    exact forall_congr' fun hb => by rw [hout b hb]
  · rw [hfc', hptr₄]
    rfl
  · rw [hec', hec₄, hec₃]
    exact hec₂
  · rw [hlc', hlc₄, hlc₃, hlc₂]

theorem fetch_spec {T : MemTrace} {addr length : ℕ} (inst : BitVec 64) (h : T.Wf)
    (ha : addr % 2 = 0) (hl : length = 2 ∨ length = 4)
    (hu : addr / PAGE_SIZE ≠ 0 ∨ (T.fetchCache.ptr.isSome ∧ T.execCache.ptr.isSome))
    (hw : ∀ u ∈ fetchUnits addr length, Whole T.recorded u.1 u.2) :
    ∃ T' first, T.fetch addr inst length = some (T', first) ∧ T'.Wf ∧
      T'.recorded = touch T.recorded (span addr length) (spell addr inst) ∧
      (first = true ↔ ∀ b, span addr length b = true → T.recorded b = none) ∧
      T'.fetchCache.ptr.isSome ∧ T'.execCache.ptr.isSome ∧ T'.loadCache = T.loadCache := by
  obtain rfl | rfl := hl
  · exact fetch_unit_spec (w := .w2) inst h (.inl ⟨rfl, ha⟩) hu
      (hw (addr, 2) (by simp [fetchUnits]))
  · by_cases hal : addr % 4 = 0
    · exact fetch_unit_spec (w := .w4) inst h (.inr ⟨rfl, hal⟩) hu
        (hw (addr, 4) (by simp [fetchUnits, hal]))
    · exact fetch_split_spec inst h ha hal hu (hw (addr, 2) (by simp [fetchUnits, hal]))
        (hw (addr + 2, 2) (by simp [fetchUnits, hal]))

theorem prefetch_spec {T : MemTrace} (addr : ℕ) (h : T.Wf) (ha : addr % 2 = 0)
    (hu : addr / PAGE_SIZE ≠ 0 ∨ T.fetchCache.ptr.isSome) :
    ∃ T' first, T.prefetch addr 2 = some (T', first) ∧ T'.Wf ∧ T'.recorded = T.recorded ∧
      (first = true ↔ ∀ b, span addr 2 b = true → T.recorded b = none) := by
  obtain ⟨hwf, hrec, hfc, hmem, -⟩ := selectFetch_spec (addr / PAGE_SIZE) h hu
  obtain ⟨page, hpage⟩ := lookup_of_mem hmem
  have hfits : PageRec.Fits .w2 (addr % PAGE_SIZE) := by
    apply PageRec.fits_of_aligned
    simp only [Width.bytes]
    unfold PAGE_SIZE
    omega
  have hz := check_zero_iff hpage hfits (offset_lt addr)
  rw [page_addr, hrec] at hz
  refine ⟨_, decide (page.check .w2 (addr % PAGE_SIZE) = 0), ?_, hwf, hrec, ?_⟩
  · simp only [prefetch, if_pos, deref, hfc, Option.bind_some, hpage, Option.bind_eq_bind]
  · rw [decide_eq_true_iff]
    exact hz

/-! ## Load and store -/

/-- One byte of the loop of `load`: recorded unless it was visited before. -/
theorem loadByte_spec {T : MemTrace} {pn offset : ℕ} (data : BitVec 64) (h : T.Wf)
    (hptr : T.loadCache.ptr = some pn) (hmem : pn ∈ T.pages) (ho : offset < PAGE_SIZE) :
    ∃ page T', T.deref T.loadCache = some page ∧
      T' = (if page.check .w1 offset = 0 then T.putPage T.loadCache (page.put .w1 offset data)
        else T) ∧
      T'.Wf ∧ T'.recorded = touch T.recorded (span (pn * PAGE_SIZE + offset) 1)
        (spell (pn * PAGE_SIZE + offset) data) ∧
      T'.fetchCache = T.fetchCache ∧ T'.loadCache = T.loadCache ∧
      T'.execCache = T.execCache ∧ pn ∈ T'.pages := by
  obtain ⟨page, hpage⟩ := lookup_of_mem hmem
  have hfits : PageRec.Fits .w1 offset := by
    apply PageRec.fits_of_aligned
    simp [Width.bytes, Nat.mod_one]
  refine ⟨page, _, by rw [deref, hptr, Option.bind_some, hpage], rfl, ?_⟩
  by_cases h0 : page.check .w1 offset = 0
  · rw [if_pos h0]
    exact ⟨putPage_wf h, put_recorded data hptr hpage hfits ho h0, putPage_fetchCache _ _ _,
      putPage_loadCache _ _ _, putPage_execCache _ _ _, mem_putPage T hmem⟩
  · rw [if_neg h0]
    have hm : page.check .w1 offset = Width.w1.mask := by
      rw [PageRec.check_eq_mask_iff hfits]
      rw [PageRec.check_eq_zero_iff hfits] at h0
      intro i hi
      have hi0 : i = 0 := by
        simp only [Width.bytes] at hi
        omega
      subst hi0
      by_contra hs
      apply h0
      intro j hj
      have hj0 : j = 0 := by
        simp only [Width.bytes] at hj
        omega
      rw [hj0]
      simpa using hs
    exact ⟨h, (keep_recorded (w := .w1) _ hpage hfits ho hm).symm, rfl, rfl, rfl, hmem⟩

/-- The loop touches the `k` bytes that are left. The page it is in is `pn`, or `pn + 1` with no
boundary left to cross. -/
theorem loadLoop_spec (pn : ℕ) (data : BitVec 64) (k i pos : ℕ) {p : ℕ} {T : MemTrace} (h : T.Wf)
    (hptr : T.loadCache.ptr = some p) (hmem : p ∈ T.pages)
    (hpos : (p = pn ∧ pos ≤ PAGE_SIZE ∧ k ≤ PAGE_SIZE) ∨ pos + k ≤ PAGE_SIZE) :
    ∃ T', loadLoop pn data k i pos T = some T' ∧ T'.Wf ∧
      T'.recorded = touch T.recorded (span (p * PAGE_SIZE + pos) k)
        (fun b => byteAt data (i + (b - (p * PAGE_SIZE + pos)))) ∧
      T'.fetchCache = T.fetchCache ∧ T'.loadCache.ptr.isSome ∧ T'.execCache = T.execCache := by
  induction k generalizing i pos p T with
  | zero =>
    refine ⟨T, rfl, h, ?_, rfl, by rw [hptr]; rfl, rfl⟩
    rw [span_zero, touch_none]
  | succ k ih =>
    -- the page and the position after a possible crossing
    obtain ⟨T₁, p₁, pos₁, hT₁, hpos₁, haddr₁, hlt₁, hnext₁, hwf₁, hrec₁, hptr₁, hmem₁, hfc₁,
        hec₁⟩ : ∃ T₁ p₁ pos₁,
        T₁ = (if pos = PAGE_SIZE then T.selectLoad (pn + 1) else T) ∧
        pos₁ = (if pos = PAGE_SIZE then 0 else pos) ∧
        p₁ * PAGE_SIZE + pos₁ = p * PAGE_SIZE + pos ∧ pos₁ < PAGE_SIZE ∧
        ((p₁ = pn ∧ pos₁ + 1 ≤ PAGE_SIZE ∧ k ≤ PAGE_SIZE) ∨ pos₁ + 1 + k ≤ PAGE_SIZE) ∧
        T₁.Wf ∧ T₁.recorded = T.recorded ∧ T₁.loadCache.ptr = some p₁ ∧ p₁ ∈ T₁.pages ∧
        T₁.fetchCache = T.fetchCache ∧ T₁.execCache = T.execCache := by
      by_cases hcross : pos = PAGE_SIZE
      · obtain ⟨hp, -, hk⟩ := hpos.resolve_right (by omega)
        obtain ⟨hwf, hrec, hlc, hmem', hfc, hec⟩ :=
          selectLoad_spec (pn + 1) h (.inl (Nat.succ_ne_zero _))
        refine ⟨_, pn + 1, _, rfl, rfl, ?_⟩
        rw [if_pos hcross, if_pos hcross, hlc]
        refine ⟨?_, by decide, .inr (by omega), hwf, hrec, rfl, hmem', hfc, hec⟩
        rw [hp, hcross, Nat.add_mul]
        omega
      · refine ⟨_, p, _, rfl, rfl, ?_⟩
        rw [if_neg hcross, if_neg hcross]
        have hlt : pos < PAGE_SIZE := by omega
        refine ⟨rfl, hlt, ?_, h, rfl, hptr, hmem, rfl, rfl⟩
        obtain ⟨hp, -, hk⟩ | hle := hpos
        · exact .inl ⟨hp, hlt, by omega⟩
        · exact .inr (by omega)
    obtain ⟨page, T₂, hd, hT₂, hwf₂, hrec₂, hfc₂, hlc₂, hec₂, hmem₂⟩ :=
      loadByte_spec (data >>> (8 * i)) hwf₁ hptr₁ hmem₁ hlt₁
    obtain ⟨T', hT', hwf', hrec', hfc', hlc', hec'⟩ :=
      ih (i + 1) (pos₁ + 1) hwf₂ (by rw [hlc₂, hptr₁]) hmem₂ hnext₁
    refine ⟨T', ?_, hwf', ?_, by rw [hfc', hfc₂, hfc₁], hlc', by rw [hec', hec₂, hec₁]⟩
    · simp only [loadLoop, ← hT₁, ← hpos₁, hd, Option.bind_eq_bind, Option.bind_some, ← hT₂]
      exact hT'
    · have haddr : p₁ * PAGE_SIZE + (pos₁ + 1) = p * PAGE_SIZE + pos + 1 := by omega
      rw [haddr₁, hrec₁] at hrec₂
      rw [hrec', hrec₂, haddr, Nat.add_comm k 1, ← span_append]
      have hfirst : touch T.recorded (span (p * PAGE_SIZE + pos) 1)
          (spell (p * PAGE_SIZE + pos) (data >>> (8 * i))) =
          touch T.recorded (span (p * PAGE_SIZE + pos) 1)
            (fun b => byteAt data (i + (b - (p * PAGE_SIZE + pos)))) := by
        apply touch_congr
        intro b _ hb
        have hb0 : b - (p * PAGE_SIZE + pos) = 0 := by
          have := span_iff.mp hb
          omega
        rw [spell, byteAt_ushiftRight, hb0]
      rw [hfirst, ← touch_touch]
      apply touch_congr
      intro b _ hb
      have := span_iff.mp hb
      rw [show i + 1 + (b - (p * PAGE_SIZE + pos + 1)) = i + (b - (p * PAGE_SIZE + pos)) by omega]

theorem load_spec {T : MemTrace} {w : Width} {addr : ℕ} (data : BitVec 64) (h : T.Wf)
    (hu : addr / PAGE_SIZE ≠ 0 ∨ T.loadCache.ptr.isSome) :
    ∃ T', load w T addr data = some T' ∧ T'.Wf ∧
      T'.recorded = touch T.recorded (span addr w.bytes) (spell addr data) ∧
      T'.fetchCache = T.fetchCache ∧ T'.loadCache.ptr.isSome ∧ T'.execCache = T.execCache := by
  obtain ⟨hwf₁, hrec₁, hlc₁, hmem₁, hfc₁, hec₁⟩ := selectLoad_spec (addr / PAGE_SIZE) h hu
  have hptr₁ : (T.selectLoad (addr / PAGE_SIZE)).loadCache.ptr = some (addr / PAGE_SIZE) := by
    rw [hlc₁]
  obtain ⟨page, hpage⟩ := lookup_of_mem hmem₁
  have hd : (T.selectLoad (addr / PAGE_SIZE)).deref
      (T.selectLoad (addr / PAGE_SIZE)).loadCache = some page := by
    rw [deref, hptr₁, Option.bind_some, hpage]
  simp only [load, hd, Option.bind_eq_bind, Option.bind_some]
  by_cases h0 : addr % PAGE_SIZE % w.bytes = 0 ∧ page.check w (addr % PAGE_SIZE) = 0
  · have hput := put_recorded data hptr₁ hpage (PageRec.fits_of_aligned h0.1) (offset_lt addr) h0.2
    rw [page_addr, hrec₁] at hput
    refine ⟨_, if_pos h0, putPage_wf hwf₁, hput, ?_, ?_, ?_⟩
    · rw [putPage_fetchCache, hfc₁]
    · rw [putPage_loadCache, hptr₁]
      rfl
    · rw [putPage_execCache, hec₁]
  · rw [if_neg h0]
    by_cases hm : addr % PAGE_SIZE % w.bytes = 0 ∧ page.check w (addr % PAGE_SIZE) = w.mask
    · have hkeep := keep_recorded (spell addr data) hpage (PageRec.fits_of_aligned hm.1)
        (offset_lt addr) hm.2
      rw [page_addr, hrec₁] at hkeep
      refine ⟨_, if_pos hm, hwf₁, hrec₁.trans hkeep.symm, hfc₁, ?_, hec₁⟩
      rw [hptr₁]
      rfl
    · rw [if_neg hm]
      have hw := w.bytes_le
      obtain ⟨T', hT', hwf', hrec', hfc', hlc', hec'⟩ :=
        loadLoop_spec (addr / PAGE_SIZE) data w.bytes 0 (addr % PAGE_SIZE) hwf₁ hptr₁ hmem₁ (.inl ⟨rfl, (offset_lt addr).le, by unfold PAGE_SIZE; omega⟩)
      refine ⟨T', hT', hwf', ?_, hfc'.trans hfc₁, hlc', hec'.trans hec₁⟩
      rw [hrec', hrec₁, page_addr]
      simp only [Nat.zero_add]
      rfl

theorem spell_zero (addr : ℕ) : spell addr 0 = fun _ => 0 := by
  funext b
  exact byteAt_zero _

theorem store_spec {T : MemTrace} {w : Width} {addr : ℕ} (h : T.Wf)
    (hu : addr / PAGE_SIZE ≠ 0 ∨ T.loadCache.ptr.isSome) :
    ∃ T', store w T addr = some T' ∧ T'.Wf ∧
      T'.recorded = touch T.recorded (span addr w.bytes) (fun _ => 0) ∧
      T'.fetchCache = T.fetchCache ∧ T'.loadCache.ptr.isSome ∧ T'.execCache = T.execCache := by
  obtain ⟨T', hT', hwf', hrec', hfc', hlc', hec'⟩ := load_spec 0 h hu
  rw [spell_zero] at hrec'
  refine ⟨{ T' with stores := Function.update T'.stores (storeHash addr) ⟨addr, w.bytes⟩ }, ?_,
    ⟨hwf'.fetch, hwf'.load, hwf'.exec⟩, hrec', hfc', hlc', hec'⟩
  rw [store, hT', Option.bind_eq_bind, Option.bind_some]

end MemTrace

end RvCkpt
