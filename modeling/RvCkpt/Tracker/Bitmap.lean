import RvCkpt.Lib.LazyBitmap
import RvCkpt.Recorder.Space

/-! # The bitmap of used pages

The bitmap of `src/src/mem/mmap-core.c` as it lies in memory: a page of bits for blocks of bits for
blocks of page bits. `find_free`, `mark_used` and `mark_free` go over it page by page.
-/

namespace RvCkpt.Tracker
open ByteMem LazyBitmap
set_option autoImplicit false

/-! ## The bits in memory -/

def METADATA_BASE : ℕ := 0x7f0000000000

def PAGE_MASK : ℕ := 4095

def LEVEL_SIZE : ℕ := 4096

def LEVEL_BYTES : ℕ := 512

/-- The bitmap of a level that has the bit for an address. -/
def level_bmap (level addr : ℕ) : ℕ :=
  match level with
  | 3 => METADATA_BASE
  | 2 => METADATA_BASE + PAGE_SIZE + ((addr >>> 36) &&& 0xfff) * LEVEL_BYTES
  | 1 =>
    METADATA_BASE + PAGE_SIZE + (LEVEL_SIZE * LEVEL_BYTES) + ((addr >>> 24) &&& 0xffffff) *
      LEVEL_BYTES
  | _ => 2 ^ 64 - 1

/-- What `level_bmap` returns through its third argument. -/
def level_offset (level addr : ℕ) : ℕ := (addr >>> (12 * level)) &&& PAGE_MASK

/-- `bmap[offset >> 3] & 1 << (offset & 7)` -/
def testBmap (m : Mem) (bmap offset : ℕ) : Bool := (m (bmap + offset >>> 3)).getLsbD (offset &&& 7)

def page_present (m : Mem) (addr : ℕ) : Bool :=
  [3, 2, 1].all fun level => testBmap m (level_bmap level addr) (level_offset level addr)

/-- An anonymous page is mapped. -/
def mapPage (m : Mem) (a : ℕ) : Mem := fun b => if a ≤ b ∧ b < a + PAGE_SIZE then 0 else m b

/-- One iteration in `reify_bmap`. -/
def reifyLevel (m : Mem) (level addr : ℕ) : Mem :=
  let bmap1 := level_bmap (level + 1) addr
  let offset1 := level_offset (level + 1) addr
  if testBmap m bmap1 offset1 then m
  else
    let bmap2 := level_bmap level addr
    let map_addr := bmap2 / PAGE_SIZE * PAGE_SIZE
    Function.update (mapPage m map_addr) (bmap1 + offset1 >>> 3) 0xff

def reify_bmap (m : Mem) (addr : ℕ) : Mem := reifyLevel (reifyLevel m 2 addr) 1 addr

/-- The bit of a page is set or cleared. -/
def markPage (v : Bool) (m : Mem) (addr : ℕ) : Mem :=
  let offset := level_offset 1 addr
  let byte := level_bmap 1 addr + offset >>> 3
  let mask := 1#8 <<< (offset &&& 7)
  Function.update m byte (if v then m byte ||| mask else m byte &&& ~~~mask)

/-- The loop of `mark_used` and `mark_free`. -/
def markLoop (v : Bool) (m : Mem) (addr stop : ℕ) : Mem :=
  if addr < stop then markLoop v (markPage v (reify_bmap m addr) addr) (addr + PAGE_SIZE) stop
  else m
termination_by stop - addr
decreasing_by
  unfold PAGE_SIZE
  omega

def mark_used (m : Mem) (start_of_range len : ℕ) : Mem :=
  markLoop true m start_of_range (start_of_range + len)

def mark_free (m : Mem) (start_of_range len : ℕ) : Mem :=
  markLoop false m start_of_range (start_of_range + len)

/-- The inner loop of `find_free`: the range that is found, or where the loop ends. -/
def scanFree (m : Mem) (stop len start_of_range addr : ℕ) : ℕ ⊕ ℕ :=
  if addr < stop ∧ ¬ page_present m addr then
    if len ≤ addr - start_of_range then .inl start_of_range
    else scanFree m stop len start_of_range (addr + PAGE_SIZE)
  else .inr addr
termination_by stop - addr
decreasing_by
  unfold PAGE_SIZE
  omega

theorem le_scanFree (m : Mem) (stop len start_of_range addr : ℕ) {next : ℕ}
    (h : scanFree m stop len start_of_range addr = .inr next) : addr ≤ next := by
  induction hn : stop - addr using Nat.strongRecOn generalizing addr with
  | _ n ih =>
    rw [scanFree] at h
    split at h
    · rename_i hcond
      split at h
      · cases h
      · have hlt : stop - (addr + PAGE_SIZE) < n := by
          unfold PAGE_SIZE
          omega
        exact (Nat.le_add_right _ _).trans (ih _ hlt _ h rfl)
    · cases h
      exact le_rfl

/-- `find_free`: the memory after it, and the range or 0. -/
def find_free (m : Mem) (addr stop len : ℕ) : Mem × ℕ :=
  if addr < stop then
    let m := reify_bmap m addr
    match _h : scanFree m stop len addr addr with
    | .inl start_of_range => (m, start_of_range)
    | .inr next => find_free m (next + PAGE_SIZE) stop len
  else (m, 0)
termination_by stop - addr
decreasing_by
  have hle := le_scanFree _ _ _ _ _ _h
  unfold PAGE_SIZE
  omega

/-! ## The bits by number -/

def bit (m : Mem) (p : ℕ) : Bool := (m (p / 8)).getLsbD (p % 8)

def BMAP2 : ℕ := METADATA_BASE + PAGE_SIZE

def BMAP1 : ℕ := METADATA_BASE + PAGE_SIZE + LEVEL_SIZE * LEVEL_BYTES

/-- The end of the bitmap. -/
def METADATA_END : ℕ := BMAP1 + 2 ^ 33

/-- The memory holds the levels. -/
structure Views (m : Mem) (L : Levels) : Prop where
  l3 : ∀ k < 2 ^ 12, bit m (8 * METADATA_BASE + k) = L.l3 k
  l2 : ∀ j < 2 ^ 24, bit m (8 * BMAP2 + j) = L.l2 j
  l1 : ∀ i < 2 ^ 36, bit m (8 * BMAP1 + i) = L.l1 i

theorem testBmap_eq (m : Mem) {bmap offset p : ℕ} (h : p = 8 * bmap + offset) :
    testBmap m bmap offset = bit m p := by
  have hbyte : bmap + offset / 8 = p / 8 := by omega
  have hbit : offset % 8 = p % 8 := by omega
  rw [testBmap, bit, Nat.shiftRight_eq_div_pow, show (7 : ℕ) = 2 ^ 3 - 1 from rfl,
    Nat.and_two_pow_sub_one_eq_mod, ← hbyte, ← hbit]

theorem pos_level3 {addr : ℕ} (h : addr < 2 ^ 48) :
    8 * METADATA_BASE + addr / PAGE_SIZE / 4096 / 4096 =
      8 * level_bmap 3 addr + level_offset 3 addr := by
  simp only [level_bmap, level_offset, PAGE_MASK, Nat.shiftRight_eq_div_pow, PAGE_SIZE,
    show (4095 : ℕ) = 2 ^ 12 - 1 from rfl, Nat.and_two_pow_sub_one_eq_mod]
  omega

theorem pos_level2 {addr : ℕ} (h : addr < 2 ^ 48) :
    8 * BMAP2 + addr / PAGE_SIZE / 4096 = 8 * level_bmap 2 addr + level_offset 2 addr := by
  simp only [level_bmap, level_offset, PAGE_MASK, Nat.shiftRight_eq_div_pow, PAGE_SIZE, BMAP2,
    LEVEL_BYTES, show (4095 : ℕ) = 2 ^ 12 - 1 from rfl, Nat.and_two_pow_sub_one_eq_mod]
  omega

theorem pos_level1 {addr : ℕ} (h : addr < 2 ^ 48) :
    8 * BMAP1 + addr / PAGE_SIZE = 8 * level_bmap 1 addr + level_offset 1 addr := by
  simp only [level_bmap, level_offset, PAGE_MASK, Nat.shiftRight_eq_div_pow, PAGE_SIZE, BMAP1,
    LEVEL_BYTES, show (4095 : ℕ) = 2 ^ 12 - 1 from rfl, show (0xffffff : ℕ) = 2 ^ 24 - 1 from rfl,
    Nat.and_two_pow_sub_one_eq_mod]
  omega

section
variable {m : Mem} {L : Levels} {addr : ℕ}

theorem Views.test3 (hv : Views m L) (h : addr < 2 ^ 48) :
    testBmap m (level_bmap 3 addr) (level_offset 3 addr) =
      L.l3 (addr / PAGE_SIZE / 4096 / 4096) := by
  rw [testBmap_eq m (pos_level3 h), hv.l3]
  unfold PAGE_SIZE
  omega

theorem Views.test2 (hv : Views m L) (h : addr < 2 ^ 48) :
    testBmap m (level_bmap 2 addr) (level_offset 2 addr) = L.l2 (addr / PAGE_SIZE / 4096) := by
  rw [testBmap_eq m (pos_level2 h), hv.l2]
  unfold PAGE_SIZE
  omega

theorem Views.test1 (hv : Views m L) (h : addr < 2 ^ 48) :
    testBmap m (level_bmap 1 addr) (level_offset 1 addr) = L.l1 (addr / PAGE_SIZE) := by
  rw [testBmap_eq m (pos_level1 h), hv.l1]
  unfold PAGE_SIZE
  omega

theorem page_present_eq (hv : Views m L) (h : addr < 2 ^ 48) :
    page_present m addr = L.present 4096 (addr / PAGE_SIZE) := by
  simp only [page_present, List.all_cons, List.all_nil, hv.test3 h, hv.test2 h, hv.test1 h,
    Levels.present, Bool.and_true, Bool.and_assoc]

/-! ## Steps -/

/-- Memory outside the bitmap is of no interest. -/
theorem Views.congr (hv : Views m L) {m' : Mem}
    (h : ∀ b, METADATA_BASE ≤ b → b < METADATA_END → m' b = m b) : Views m' L := by
  have hbit : ∀ p, 8 * METADATA_BASE ≤ p → p < 8 * METADATA_END → bit m' p = bit m p := by
    intro p hlo hhi
    rw [bit, bit, h (p / 8) (by omega) (by omega)]
  have hB2 : BMAP2 = METADATA_BASE + 4096 := rfl
  have hB1 : BMAP1 = METADATA_BASE + 2101248 := rfl
  have hE : METADATA_END = METADATA_BASE + 8592035840 := rfl
  refine ⟨fun k hk => ?_, fun j hj => ?_, fun i hi => ?_⟩
  · rw [hbit _ (by omega) (by omega), hv.l3 k hk]
  · rw [hbit _ (by omega) (by omega), hv.l2 j hj]
  · rw [hbit _ (by omega) (by omega), hv.l1 i hi]

theorem bit_mapPage (m : Mem) (a p : ℕ) :
    bit (mapPage m a) p = (!decide (a ≤ p / 8 ∧ p / 8 < a + PAGE_SIZE) && bit m p) := by
  simp only [bit, mapPage]
  by_cases h : a ≤ p / 8 ∧ p / 8 < a + PAGE_SIZE
  · simp [h]
  · simp [h]

theorem bit_update_ff (m : Mem) (b p : ℕ) :
    bit (Function.update m b 0xff) p = (decide (p / 8 = b) || bit m p) := by
  have hones : ∀ i < 8, (0xff#8).getLsbD i = true := by decide
  by_cases h : p / 8 = b
  · have hmod : p % 8 < 8 := Nat.mod_lt _ (by decide)
    simpa [bit, h] using hones _ hmod
  · simp [bit, h]

theorem bit_markPage (v : Bool) (m : Mem) (h : addr < 2 ^ 48) (p : ℕ) :
    bit (markPage v m addr) p = if p = 8 * BMAP1 + addr / PAGE_SIZE then v else bit m p := by
  have hpos := pos_level1 h
  have hoffset : level_offset 1 addr &&& 7 = (8 * BMAP1 + addr / PAGE_SIZE) % 8 := by
    rw [show (7 : ℕ) = 2 ^ 3 - 1 from rfl, Nat.and_two_pow_sub_one_eq_mod]
    omega
  have hbyte : level_bmap 1 addr + level_offset 1 addr >>> 3 =
      (8 * BMAP1 + addr / PAGE_SIZE) / 8 := by
    rw [Nat.shiftRight_eq_div_pow]
    omega
  have hmask : ∀ i < 8, ∀ j < 8, (1#8 <<< i).getLsbD j = decide (j = i) := by decide
  simp only [markPage, hoffset, hbyte]
  have hlt : ∀ q, q % 8 < 8 := fun q => Nat.mod_lt _ (by decide)
  by_cases hp : p / 8 = (8 * BMAP1 + addr / PAGE_SIZE) / 8
  · have hiff : p = 8 * BMAP1 + addr / PAGE_SIZE ↔ p % 8 = (8 * BMAP1 + addr / PAGE_SIZE) % 8 := by
      omega
    rw [bit, hp, Function.update_self]
    simp only [hiff]
    cases v with
    | true =>
      rw [if_pos rfl, BitVec.getLsbD_or, hmask _ (hlt _) _ (hlt _), bit, hp]
      split_ifs with hbit
      · rw [decide_eq_true hbit, Bool.or_true]
      · rw [decide_eq_false hbit, Bool.or_false]
    | false =>
      rw [if_neg Bool.false_ne_true, BitVec.getLsbD_and, BitVec.getLsbD_not,
        hmask _ (hlt _) _ (hlt _), decide_eq_true (hlt p), Bool.true_and, bit, hp]
      split_ifs with hbit
      · rw [decide_eq_true hbit, Bool.not_true, Bool.and_false]
      · rw [decide_eq_false hbit, Bool.not_false, Bool.and_true]
  · have hne : p ≠ 8 * BMAP1 + addr / PAGE_SIZE := fun heq => hp (congrArg (· / 8) heq)
    rw [if_neg hne, bit, Function.update_of_ne hp, bit]

/-- A page of bits is mapped, and the eight bits for its blocks are set. -/
theorem bit_reify (m : Mem) (a b p : ℕ) :
    bit (Function.update (mapPage m a) b 0xff) p =
      if p / 8 = b then true
      else if a ≤ p / 8 ∧ p / 8 < a + PAGE_SIZE then false else bit m p := by
  rw [bit_update_ff, bit_mapPage]
  split_ifs with hbyte hpage
  · rw [decide_eq_true hbyte, Bool.true_or]
  · rw [decide_eq_false hbyte, decide_eq_true hpage, Bool.not_true, Bool.false_and, Bool.or_self]
  · rw [decide_eq_false hbyte, decide_eq_false hpage, Bool.not_false, Bool.true_and, Bool.false_or]

theorem page_lt (h : addr < 2 ^ 48) : addr / PAGE_SIZE < 2 ^ 36 := by
  unfold PAGE_SIZE
  omega

theorem level_bmap_2 (h : addr < 2 ^ 48) :
    level_bmap 2 addr = BMAP2 + addr / PAGE_SIZE / 4096 / 4096 * 512 := by
  simp only [level_bmap, Nat.shiftRight_eq_div_pow, LEVEL_BYTES, PAGE_SIZE,
    show (0xfff : ℕ) = 2 ^ 12 - 1 from rfl, Nat.and_two_pow_sub_one_eq_mod, BMAP2]
  omega

theorem level_bmap_1 (h : addr < 2 ^ 48) :
    level_bmap 1 addr = BMAP1 + addr / PAGE_SIZE / 4096 * 512 := by
  simp only [level_bmap, Nat.shiftRight_eq_div_pow, LEVEL_BYTES, PAGE_SIZE,
    show (0xffffff : ℕ) = 2 ^ 24 - 1 from rfl, Nat.and_two_pow_sub_one_eq_mod, BMAP1]
  omega

theorem Views.reify2 (hv : Views m L) (h : addr < 2 ^ 48) :
    Views (reifyLevel m 2 addr) (L.reify2 4096 8 (addr / PAGE_SIZE)) := by
  have htest := hv.test3 h
  simp only [reifyLevel, Levels.reify2, Nat.reduceAdd]
  rw [htest]
  split
  · exact hv
  · have hB2 : BMAP2 = METADATA_BASE + 4096 := rfl
    have hB1 : BMAP1 = METADATA_BASE + 2101248 := rfl
    have hM : METADATA_BASE = 139637976727552 := rfl
    have hpage : PAGE_SIZE = 4096 := rfl
    have hlt := page_lt h
    have hpos := pos_level3 h
    have hblock := level_bmap_2 h
    obtain ⟨k, hk⟩ : ∃ k, addr / PAGE_SIZE / 4096 / 4096 = k := ⟨_, rfl⟩
    rw [hk] at hpos hblock ⊢
    have hklt : k < 4096 := by omega
    have hbyte : level_bmap 3 addr + level_offset 3 addr >>> 3 = METADATA_BASE + k / 8 := by
      rw [Nat.shiftRight_eq_div_pow]
      omega
    have hmap : level_bmap 2 addr / PAGE_SIZE * PAGE_SIZE = BMAP2 + k / 8 * 4096 := by
      rw [hblock, hpage]
      omega
    have hbit := bit_reify m (BMAP2 + k / 8 * 4096) (METADATA_BASE + k / 8)
    rw [hbyte, hmap]
    refine ⟨fun k' hk' => ?_, fun j hj => ?_, fun i hi => ?_⟩
    · have hin : ¬ (BMAP2 + k / 8 * 4096 ≤ (8 * METADATA_BASE + k') / 8 ∧
          (8 * METADATA_BASE + k') / 8 < BMAP2 + k / 8 * 4096 + PAGE_SIZE) := by omega
      have hiff : (8 * METADATA_BASE + k') / 8 = METADATA_BASE + k / 8 ↔ k' / 8 = k / 8 := by omega
      rw [hbit, if_neg hin, hv.l3 k' hk']
      simp only [hiff]
      split_ifs with hgroup <;> simp [hgroup]
    · have hne : (8 * BMAP2 + j) / 8 ≠ METADATA_BASE + k / 8 := by omega
      have hiff : (BMAP2 + k / 8 * 4096 ≤ (8 * BMAP2 + j) / 8 ∧
          (8 * BMAP2 + j) / 8 < BMAP2 + k / 8 * 4096 + PAGE_SIZE) ↔ j / 4096 / 8 = k / 8 := by
        omega
      rw [hbit, if_neg hne, hv.l2 j hj]
      simp only [hiff]
      split_ifs with hgroup <;> simp [hgroup]
    · have hne : (8 * BMAP1 + i) / 8 ≠ METADATA_BASE + k / 8 := by omega
      have hin : ¬ (BMAP2 + k / 8 * 4096 ≤ (8 * BMAP1 + i) / 8 ∧
          (8 * BMAP1 + i) / 8 < BMAP2 + k / 8 * 4096 + PAGE_SIZE) := by omega
      rw [hbit, if_neg hne, if_neg hin, hv.l1 i hi]

theorem Views.reify1 (hv : Views m L) (h : addr < 2 ^ 48) :
    Views (reifyLevel m 1 addr) (L.reify1 4096 8 (addr / PAGE_SIZE)) := by
  have htest := hv.test2 h
  simp only [reifyLevel, Levels.reify1, Nat.reduceAdd]
  rw [htest]
  split
  · exact hv
  · have hB2 : BMAP2 = METADATA_BASE + 4096 := rfl
    have hB1 : BMAP1 = METADATA_BASE + 2101248 := rfl
    have hM : METADATA_BASE = 139637976727552 := rfl
    have hpage : PAGE_SIZE = 4096 := rfl
    have hlt := page_lt h
    have hpos := pos_level2 h
    have hblock := level_bmap_1 h
    obtain ⟨j, hj⟩ : ∃ j, addr / PAGE_SIZE / 4096 = j := ⟨_, rfl⟩
    rw [hj] at hpos hblock ⊢
    have hjlt : j < 16777216 := by omega
    have hbyte : level_bmap 2 addr + level_offset 2 addr >>> 3 = BMAP2 + j / 8 := by
      rw [Nat.shiftRight_eq_div_pow]
      omega
    have hmap : level_bmap 1 addr / PAGE_SIZE * PAGE_SIZE = BMAP1 + j / 8 * 4096 := by
      rw [hblock, hpage]
      omega
    have hbit := bit_reify m (BMAP1 + j / 8 * 4096) (BMAP2 + j / 8)
    rw [hbyte, hmap]
    refine ⟨fun k hk => ?_, fun j' hj' => ?_, fun i hi => ?_⟩
    · have hne : (8 * METADATA_BASE + k) / 8 ≠ BMAP2 + j / 8 := by omega
      have hin : ¬ (BMAP1 + j / 8 * 4096 ≤ (8 * METADATA_BASE + k) / 8 ∧
          (8 * METADATA_BASE + k) / 8 < BMAP1 + j / 8 * 4096 + PAGE_SIZE) := by omega
      rw [hbit, if_neg hne, if_neg hin, hv.l3 k hk]
    · have hin : ¬ (BMAP1 + j / 8 * 4096 ≤ (8 * BMAP2 + j') / 8 ∧
          (8 * BMAP2 + j') / 8 < BMAP1 + j / 8 * 4096 + PAGE_SIZE) := by omega
      have hiff : (8 * BMAP2 + j') / 8 = BMAP2 + j / 8 ↔ j' / 8 = j / 8 := by omega
      rw [hbit, if_neg hin, hv.l2 j' hj']
      simp only [hiff]
      split_ifs with hgroup <;> simp [hgroup]
    · have hne : (8 * BMAP1 + i) / 8 ≠ BMAP2 + j / 8 := by omega
      have hiff : (BMAP1 + j / 8 * 4096 ≤ (8 * BMAP1 + i) / 8 ∧
          (8 * BMAP1 + i) / 8 < BMAP1 + j / 8 * 4096 + PAGE_SIZE) ↔ i / 4096 / 8 = j / 8 := by
        omega
      rw [hbit, if_neg hne, hv.l1 i hi]
      simp only [hiff]
      split_ifs with hgroup <;> simp [hgroup]

theorem Views.reify (hv : Views m L) (h : addr < 2 ^ 48) :
    Views (reify_bmap m addr) (L.reify 4096 8 (addr / PAGE_SIZE)) :=
  (hv.reify2 h).reify1 h

theorem Views.markPage (hv : Views m L) (h : addr < 2 ^ 48) (v : Bool) :
    Views (markPage v m addr) (L.set (addr / PAGE_SIZE) v) := by
  have hB2 : BMAP2 = METADATA_BASE + 4096 := rfl
  have hB1 : BMAP1 = METADATA_BASE + 2101248 := rfl
  refine ⟨fun k hk => ?_, fun j hj => ?_, fun i hi => ?_⟩
  · have hbelow : 8 * METADATA_BASE + k < 8 * BMAP1 := by omega
    rw [bit_markPage v m h, if_neg (hbelow.trans_le (Nat.le_add_right _ _)).ne, hv.l3 k hk]
    rfl
  · have hbelow : 8 * BMAP2 + j < 8 * BMAP1 := by omega
    rw [bit_markPage v m h, if_neg (hbelow.trans_le (Nat.le_add_right _ _)).ne, hv.l2 j hj]
    rfl
  · rw [bit_markPage v m h, hv.l1 i hi]
    by_cases heq : i = addr / PAGE_SIZE
    · rw [if_pos (by rw [heq]), heq]
      simp only [Levels.set, Function.update_self]
    · have hne : 8 * BMAP1 + i ≠ 8 * BMAP1 + addr / PAGE_SIZE := by omega
      rw [if_neg hne]
      simp only [Levels.set, Function.update_of_ne heq]

end

/-! ## Outside the bitmap -/

/-- A byte of the bitmap's area, allocated or not. -/
def Metadata (b : ℕ) : Prop := METADATA_BASE ≤ b ∧ b < METADATA_END

/-- The memories agree outside the bitmap. -/
def SameOutside (m m' : Mem) : Prop := ∀ b, ¬ Metadata b → m' b = m b

namespace SameOutside
variable {m m₁ m₂ : Mem}

theorem refl (m : Mem) : SameOutside m m := fun _ _ => rfl

theorem trans (h₁ : SameOutside m m₁) (h₂ : SameOutside m₁ m₂) : SameOutside m m₂ :=
  fun b hb => (h₂ b hb).trans (h₁ b hb)

theorem mapPage (m : Mem) {a : ℕ} (hlo : METADATA_BASE ≤ a) (hhi : a + PAGE_SIZE ≤ METADATA_END) :
    SameOutside m (mapPage m a) := by
  intro b hb
  rw [Tracker.mapPage, if_neg]
  intro hin
  exact hb ⟨hlo.trans hin.1, hin.2.trans_le hhi⟩

theorem update (m : Mem) {a : ℕ} (ha : Metadata a) (v : Byte) :
    SameOutside m (Function.update m a v) := by
  intro b hb
  have hne : b ≠ a := by
    intro heq
    rw [heq] at hb
    exact hb ha
  exact Function.update_of_ne hne _ _

end SameOutside

theorem reifyLevel_2_same (m : Mem) {addr : ℕ} (h : addr < 2 ^ 48) :
    SameOutside m (reifyLevel m 2 addr) := by
  have hlt := page_lt h
  have hblock := level_bmap_2 h
  have hpos := pos_level3 h
  have hB2 : BMAP2 = METADATA_BASE + 4096 := rfl
  have hE : METADATA_END = METADATA_BASE + 8592035840 := rfl
  have hM : METADATA_BASE = 139637976727552 := rfl
  have hpage : PAGE_SIZE = 4096 := rfl
  have hbyte := Nat.shiftRight_eq_div_pow (level_offset 3 addr) 3
  simp only [reifyLevel, Nat.reduceAdd]
  split
  · exact .refl m
  · have hlo : METADATA_BASE ≤ level_bmap 2 addr / PAGE_SIZE * PAGE_SIZE := by
      rw [hpage]
      omega
    have hhi : level_bmap 2 addr / PAGE_SIZE * PAGE_SIZE + PAGE_SIZE ≤ METADATA_END := by
      rw [hpage]
      omega
    have hin : Metadata (level_bmap 3 addr + level_offset 3 addr >>> 3) := ⟨by omega, by omega⟩
    exact (SameOutside.mapPage m hlo hhi).trans (.update _ hin _)

theorem reifyLevel_1_same (m : Mem) {addr : ℕ} (h : addr < 2 ^ 48) :
    SameOutside m (reifyLevel m 1 addr) := by
  have hlt := page_lt h
  have hblock := level_bmap_1 h
  have hpos := pos_level2 h
  have hB2 : BMAP2 = METADATA_BASE + 4096 := rfl
  have hB1 : BMAP1 = METADATA_BASE + 2101248 := rfl
  have hE : METADATA_END = METADATA_BASE + 8592035840 := rfl
  have hM : METADATA_BASE = 139637976727552 := rfl
  have hpage : PAGE_SIZE = 4096 := rfl
  have hbyte := Nat.shiftRight_eq_div_pow (level_offset 2 addr) 3
  simp only [reifyLevel, Nat.reduceAdd]
  split
  · exact .refl m
  · have hlo : METADATA_BASE ≤ level_bmap 1 addr / PAGE_SIZE * PAGE_SIZE := by
      rw [hpage]
      omega
    have hhi : level_bmap 1 addr / PAGE_SIZE * PAGE_SIZE + PAGE_SIZE ≤ METADATA_END := by
      rw [hpage]
      omega
    have hin : Metadata (level_bmap 2 addr + level_offset 2 addr >>> 3) := ⟨by omega, by omega⟩
    exact (SameOutside.mapPage m hlo hhi).trans (.update _ hin _)

theorem reify_bmap_same (m : Mem) {addr : ℕ} (h : addr < 2 ^ 48) :
    SameOutside m (reify_bmap m addr) :=
  (reifyLevel_2_same m h).trans (reifyLevel_1_same _ h)

theorem find_free_same (m : Mem) {addr stop len : ℕ} (hstop : stop ≤ 2 ^ 48) :
    SameOutside m (find_free m addr stop len).1 := by
  induction hn : stop - addr using Nat.strongRecOn generalizing m addr with
  | _ n ih =>
    rw [find_free]
    split
    · rename_i hlt
      have hreify := reify_bmap_same m (hlt.trans_le hstop)
      simp only
      split
      · exact hreify
      · rename_i next hscan
        have hle := le_scanFree _ _ _ _ _ hscan
        refine hreify.trans (ih _ ?_ _ rfl)
        unfold PAGE_SIZE
        omega
    · exact .refl m

end RvCkpt.Tracker
