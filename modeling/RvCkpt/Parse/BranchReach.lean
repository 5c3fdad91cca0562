import RvCkpt.Parse.ReserveSpec
import RvCkpt.Parse.Inject
import Mathlib.Data.Finset.Max

/-! # Branch reach

The jump from a trap site to its near call and the jump back from the end of the near call must
both lie in the range of `jal`. `reserve` looks at the distance of the free ranges only: it takes
the range below the site if its end is nearer than the begin of the range above. The near call
then begins a whole block below that end, while above the site it may begin 8 bytes further off
than its own size allows below. So a range below that is just out of reach can be preferred to a
range above that is in reach, and nothing else can go wrong.
-/

namespace RvCkpt.Parse
open WhileLoop RangeList PageMap
set_option autoImplicit false

/-- The offsets of `jal`. -/
def JalOffset (offset : ℤ) : Prop := -J_MAX_OFFS ≤ offset ∧ offset < J_MAX_OFFS ∧ 2 ∣ offset

/-- A free list from which code has been handed out: the sizes are even. -/
inductive CodeListOf : PageMap → List (ℕ × ℕ) → Prop
  | made (m : PageMap) : CodeListOf m m.makeFreeList
  | served {m m' : PageMap} {freeList freeList' : List (ℕ × ℕ)} {baseAddr size nearAddr : ℕ}
      (before : CodeListOf m freeList) (even : 2 ∣ size)
      (call : m.reserve freeList baseAddr size = some (m', freeList', nearAddr)) :
      CodeListOf m' freeList'

theorem CodeListOf.freeListOf {m : PageMap} {freeList : List (ℕ × ℕ)} (h : CodeListOf m freeList) :
    FreeListOf m freeList := by
  induction h with
  | made m => exact .made m
  | served _ _ call ih => exact .served ih call

def EvenEnds (freeList : List (ℕ × ℕ)) : Prop := ∀ r ∈ freeList, 2 ∣ r.1 ∧ 2 ∣ r.2

theorem closeRange_even {ranges : List (ℕ × ℕ)} {cur pos : ℕ} (h : EvenEnds ranges) :
    EvenEnds (closeRange ranges cur pos) := by
  intro r hr
  obtain hr | ⟨rfl, -⟩ := mem_closeRange.mp hr
  · exact h r hr
  · exact ⟨Nat.dvd_mul_left _ _, Nat.dvd_mul_left _ _⟩

theorem scanByte_even {st : List (ℕ × ℕ) × Option ℕ} {pos : ℕ} {free : Bool}
    (h : EvenEnds st.1) : EvenEnds (scanByte st pos free).1 := by
  obtain ⟨ranges, cur⟩ := st
  cases cur with
  | none =>
    cases free with
    | true => exact h
    | false => exact h
  | some cur =>
    cases free with
    | true => exact h
    | false => exact closeRange_even h

theorem makeFreeList_even (m : PageMap) : EvenEnds m.makeFreeList := by
  have hpage : ∀ (st : List (ℕ × ℕ) × Option ℕ) (entry : Σ _ : ℕ, Page), EvenEnds st.1 →
      EvenEnds (scanPage st entry).1 := by
    intro st entry h
    rw [scanPage]
    exact List.foldlRecOn (motive := fun st : List (ℕ × ℕ) × Option ℕ => EvenEnds st.1) _ _ h
      fun st hst _ _ => scanByte_even hst
  refine List.foldlRecOn (motive := fun st : List (ℕ × ℕ) × Option ℕ => EvenEnds st.1) _ _ ?_
    fun st hst entry _ => hpage st entry hst
  intro r hr
  cases hr

theorem CodeListOf.even {m : PageMap} {freeList : List (ℕ × ℕ)} (h : CodeListOf m freeList) :
    EvenEnds freeList := by
  induction h with
  | made m => exact makeFreeList_even m
  | served _ heven call ih =>
    obtain ⟨b, use, r, -, -, hr, hfits, -, hcut⟩ := reserve_cases call
    have hroom : r.1 + _ ≤ r.2 := hfits
    obtain ⟨hfirst, hlast⟩ := ih r (List.mem_of_getElem? hr)
    obtain ⟨-, -, rfl⟩ | ⟨-, -, rfl⟩ := hcut
    · intro q hq
      obtain hq | rfl := List.mem_or_eq_of_mem_set hq
      · exact ih q hq
      · exact ⟨Nat.dvd_add hfirst heven, hlast⟩
    · intro q hq
      obtain hq | rfl := List.mem_or_eq_of_mem_set hq
      · exact ih q hq
      · exact ⟨hfirst, Nat.dvd_sub hlast heven⟩

/-- No free range holds an address in use. -/
theorem PageMap.FreeListOf.free {m : PageMap} {freeList : List (ℕ × ℕ)} (h : FreeListOf m freeList)
    {a : ℕ} (ha : Covers freeList a) : ¬ m.Used a := by
  induction h with
  | made m =>
    obtain ⟨r, hr, hlo, hhi⟩ := ha
    exact (makeFreeList_ranges m).free r hr a hlo hhi
  | served before call ih =>
    have hplaced := placed_of_reserve before.sorted call
    obtain ⟨-, -, -, -, -, -, -, rfl, -⟩ := reserve_cases call
    obtain ⟨hcovers, hout⟩ := (hplaced.removed a).mp ha
    rw [put_used, List.length_replicate]
    rintro (hused | hin)
    · exact ih hcovers hused
    · exact hout hin

/-! ## The two nearest ranges -/

section Sides

variable {freeList : List (ℕ × ℕ)} {baseAddr size : ℕ}

/-- The highest range with room below the base. -/
structure IsBelow (freeList : List (ℕ × ℕ)) (baseAddr size : ℕ) (r : ℕ × ℕ) : Prop where
  mem : r ∈ freeList
  fits : Fits size r
  below : r.2 ≤ baseAddr
  highest : ∀ q ∈ freeList, Fits size q → q.2 ≤ baseAddr → q.2 ≤ r.2

/-- The lowest range with room above the base. -/
structure IsAbove (freeList : List (ℕ × ℕ)) (baseAddr size : ℕ) (r : ℕ × ℕ) : Prop where
  mem : r ∈ freeList
  fits : Fits size r
  above : baseAddr < r.1
  lowest : ∀ q ∈ freeList, Fits size q → baseAddr < q.1 → r.1 ≤ q.1

/-- A range that does not hold the base, and is not empty, lies on one side of it. -/
theorem side_of_outside (hout : ¬ Covers freeList baseAddr) {r : ℕ × ℕ} (hr : r ∈ freeList) :
    r.2 ≤ baseAddr ∨ baseAddr < r.1 := by
  by_contra hin
  exact hout ⟨r, hr, by omega⟩

variable {b : ℕ × ℕ}

theorem isBelow_of_hit (hb : Bracket freeList baseAddr b) (hsorted : Sorted freeList)
    (hout : ¬ Covers freeList baseAddr) {s : ℕ}
    (hs : searchDown freeList size b.1 = some s) :
    ∃ r, freeList[s]? = some r ∧ IsBelow freeList baseAddr size r := by
  obtain ⟨r, hr, hfits⟩ := searchDown_spec hs
  obtain ⟨hlt, hmax⟩ := searchDown_some hs
  have hmem := List.mem_of_getElem? hr
  have hfirst := hb.below s r hr hlt
  have hside := side_of_outside hout hmem
  refine ⟨r, hr, hmem, hfits, by omega, ?_⟩
  intro q hq hqfits hqbelow
  obtain ⟨i, hi, hlow | hhigh⟩ := hb.cases hq
  · exact hsorted.last_le (hmax i q hi hlow hqfits) hi hr
  · have := hb.above i q hi hhigh
    omega

theorem isAbove_of_hit (hb : Bracket freeList baseAddr b) (hsorted : Sorted freeList)
    (hout : ¬ Covers freeList baseAddr) {e : ℕ}
    (he : searchUp freeList size (freeList.length - b.2) b.2 = some e) :
    ∃ r, freeList[e]? = some r ∧ IsAbove freeList baseAddr size r := by
  obtain ⟨r, hr, hfits⟩ := searchUp_spec he
  obtain ⟨hle, hmin⟩ := searchUp_some he
  have hmem := List.mem_of_getElem? hr
  have hlast := hb.above e r hr hle
  have hside := side_of_outside hout hmem
  refine ⟨r, hr, hmem, hfits, by omega, ?_⟩
  intro q hq hqfits hqabove
  obtain ⟨i, hi, hlow | hhigh⟩ := hb.cases hq
  · have := hb.below i q hi hlow
    omega
  · exact hsorted.first_le (hmin i q hi hhigh hqfits) hr hi

theorem not_isBelow_of_miss (hb : Bracket freeList baseAddr b) (hlen : b.1 ≤ freeList.length)
    (hs : searchDown freeList size b.1 = none) (r : ℕ × ℕ) :
    ¬ IsBelow freeList baseAddr size r := by
  intro h
  have hbelow := h.below
  obtain ⟨i, hi, hlow | hhigh⟩ := hb.cases h.mem
  · exact searchDown_none hs hlen i r hi hlow h.fits
  · have := hb.above i r hi hhigh
    omega

theorem not_isAbove_of_miss (hb : Bracket freeList baseAddr b)
    (he : searchUp freeList size (freeList.length - b.2) b.2 = none) (r : ℕ × ℕ) :
    ¬ IsAbove freeList baseAddr size r := by
  intro h
  have habove := h.above
  obtain ⟨i, hi, hlow | hhigh⟩ := hb.cases h.mem
  · have := hb.below i r hi hlow
    omega
  · exact searchUp_none he (by omega) i r hi hhigh h.fits

/-- The end of the range below, where it is the only one or strictly nearer. -/
def TakesBelow (freeList : List (ℕ × ℕ)) (baseAddr size nearAddr : ℕ) : Prop :=
  ∃ r, IsBelow freeList baseAddr size r ∧ nearAddr = r.2 - size ∧
    ∀ q, IsAbove freeList baseAddr size q → (baseAddr : ℤ) - r.2 < (q.1 : ℤ) - baseAddr

/-- The begin of the range above, where it is the only one or not farther. -/
def TakesAbove (freeList : List (ℕ × ℕ)) (baseAddr size nearAddr : ℕ) : Prop :=
  ∃ r, IsAbove freeList baseAddr size r ∧ nearAddr = r.1 ∧
    ∀ q, IsBelow freeList baseAddr size q → (r.1 : ℤ) - baseAddr ≤ (baseAddr : ℤ) - q.2

theorem reserve_takes {m m' : PageMap} {freeList' : List (ℕ × ℕ)} {nearAddr : ℕ}
    (hsorted : Sorted freeList) (hout : ¬ Covers freeList baseAddr)
    (h : m.reserve freeList baseAddr size = some (m', freeList', nearAddr)) :
    TakesBelow freeList baseAddr size nearAddr ∨ TakesAbove freeList baseAddr size nearAddr := by
  obtain ⟨b, use, r, hbound, huse, hr, -, -, hcut⟩ := reserve_cases h
  have hb := hbound.bracket hsorted
  have hproper := hsorted.proper_at hr
  -- where the chosen range lies decides which of its ends is cut
  have hbelow : IsBelow freeList baseAddr size r → nearAddr = r.2 - size := by
    intro hr
    have := hr.below
    obtain ⟨hlow, -, -⟩ | ⟨-, hnear, -⟩ := hcut
    · omega
    · exact hnear
  have habove : IsAbove freeList baseAddr size r → nearAddr = r.1 := by
    intro hr
    have := hr.above
    obtain ⟨-, hnear, -⟩ | ⟨hlow, -, -⟩ := hcut
    · exact hnear
    · omega
  cases hs : searchDown freeList size b.1 with
  | none =>
    have hmiss := not_isBelow_of_miss hb hbound.le.1 hs
    cases he : searchUp freeList size (freeList.length - b.2) b.2 with
    | none =>
      rw [hs, he] at huse
      cases huse
    | some e =>
      rw [hs, he] at huse
      obtain rfl := Option.some.inj huse
      obtain ⟨q, hq, hqabove⟩ := isAbove_of_hit hb hsorted hout he
      rw [hr] at hq
      obtain rfl := Option.some.inj hq
      exact .inr ⟨r, hqabove, habove hqabove, fun q hq => absurd hq (hmiss q)⟩
  | some s =>
    obtain ⟨below, hbelowAt, hisBelow⟩ := isBelow_of_hit hb hsorted hout hs
    cases he : searchUp freeList size (freeList.length - b.2) b.2 with
    | none =>
      have hmiss := not_isAbove_of_miss hb he
      rw [hs, he] at huse
      obtain rfl := Option.some.inj huse
      rw [hr] at hbelowAt
      obtain rfl := Option.some.inj hbelowAt
      exact .inl ⟨r, hisBelow, hbelow hisBelow, fun q hq => absurd hq (hmiss q)⟩
    | some e =>
      obtain ⟨above, haboveAt, hisAbove⟩ := isAbove_of_hit hb hsorted hout he
      rw [hs, he] at huse
      simp only [nearest, getD_of_getElem? hbelowAt, getD_of_getElem? haboveAt] at huse
      by_cases hcloser : (baseAddr : ℤ) - below.2 < (above.1 : ℤ) - baseAddr
      · rw [if_pos hcloser] at huse
        obtain rfl := Option.some.inj huse
        rw [hr] at hbelowAt
        obtain rfl := Option.some.inj hbelowAt
        refine .inl ⟨r, hisBelow, hbelow hisBelow, ?_⟩
        intro q hq
        have := hisAbove.lowest q hq.mem hq.fits hq.above
        omega
      · rw [if_neg hcloser] at huse
        obtain rfl := Option.some.inj huse
        rw [hr] at haboveAt
        obtain rfl := Option.some.inj haboveAt
        refine .inr ⟨r, hisAbove, habove hisAbove, ?_⟩
        intro q hq
        have := hisBelow.highest q hq.mem hq.fits hq.below
        omega

/-- Where a range has room, the call finds a block, and the nearest ranges are there to be
chosen. -/
theorem reserve_finds {m : PageMap} (hsorted : Sorted freeList)
    (hout : ¬ Covers freeList baseAddr) {q : ℕ × ℕ} (hq : q ∈ freeList) (hfits : Fits size q) :
    ∃ result, m.reserve freeList baseAddr size = some result := by
  have hstrict : ∀ r ∈ freeList, ¬ (r.1 < baseAddr ∧ baseAddr < r.2) := by
    rintro r hr ⟨hlo, hhi⟩
    exact hout ⟨r, hr, hlo.le, hhi⟩
  have hat : ¬ AtInner freeList baseAddr := by
    rintro ⟨j, r, -, -, hr, hbase, hne⟩
    exact hout ⟨r, List.mem_of_getElem? hr, hbase.le, hne⟩
  obtain ⟨b, hb⟩ := (exists_bounded_iff hsorted hstrict).mpr ⟨List.ne_nil_of_mem hq, hat⟩
  have hresult : ResultRight freeList baseAddr size (m.reserve freeList baseAddr size) :=
    reserve_result hsorted hb
  cases hr : m.reserve freeList baseAddr size with
  | none =>
    rw [hr] at hresult
    exact absurd hfits (hresult q hq)
  | some result => exact ⟨result, rfl⟩

theorem exists_isBelow {q : ℕ × ℕ} (hq : q ∈ freeList) (hfits : Fits size q)
    (hbelow : q.2 ≤ baseAddr) : ∃ r, IsBelow freeList baseAddr size r := by
  classical
  obtain ⟨r, hr, hmax⟩ := Finset.exists_max_image
    (freeList.toFinset.filter fun r => Fits size r ∧ r.2 ≤ baseAddr) Prod.snd
    ⟨q, by simp [hq, hfits, hbelow]⟩
  simp only [Finset.mem_filter, List.mem_toFinset] at hr hmax
  exact ⟨r, hr.1, hr.2.1, hr.2.2, fun p hp hpfits hple => hmax p ⟨hp, hpfits, hple⟩⟩

theorem exists_isAbove {q : ℕ × ℕ} (hq : q ∈ freeList) (hfits : Fits size q)
    (habove : baseAddr < q.1) : ∃ r, IsAbove freeList baseAddr size r := by
  classical
  obtain ⟨r, hr, hmin⟩ := Finset.exists_min_image
    (freeList.toFinset.filter fun r => Fits size r ∧ baseAddr < r.1) Prod.fst
    ⟨q, by simp [hq, hfits, habove]⟩
  simp only [Finset.mem_filter, List.mem_toFinset] at hr hmin
  exact ⟨r, hr.1, hr.2.1, hr.2.2, fun p hp hpfits hple => hmin p ⟨hp, hpfits, hple⟩⟩

end Sides

/-! ## Reach -/

/-- A trap site whose bytes are marked in use, and the near call to be placed for it: `body` bytes
and the jump back. -/
structure TrapSite where
  pages : PageMap
  freeList : List (ℕ × ℕ)
  addr : ℕ
  body : ℕ
  reached : CodeListOf pages freeList
  marked : pages.Used addr
  addr_even : 2 ∣ addr
  body_even : 2 ∣ body

namespace TrapSite

variable (site : TrapSite)

def size : ℕ := site.body + 4

def trapOffset (nearAddr : ℕ) : ℤ := (nearAddr : ℤ) - site.addr

def returnOffset (nearAddr : ℕ) : ℤ := ((site.addr + 4 : ℕ) : ℤ) - nearAddr - site.body

/-- Both jumps of the placement are in range. -/
def Reaches (nearAddr : ℕ) : Prop :=
  JalOffset (site.trapOffset nearAddr) ∧ JalOffset (site.returnOffset nearAddr)

/-- The placement lies in a free range. -/
def Room (nearAddr : ℕ) : Prop :=
  ∃ r ∈ site.freeList, r.1 ≤ nearAddr ∧ nearAddr + site.size ≤ r.2

/-- The jumps of the placement pass the assertion of `jump`. -/
def Assembles (nearAddr : ℕ) : Prop :=
  ∀ (asm : Assembler) (nearBuf farPc : ℕ) (alterRd : Option ℕ),
    (asm.nearBin nearBuf (some farPc) (alterFlag alterRd)).length = site.body →
      (MakeHelper.jump asm ((nearAddr : ℤ) - site.addr)).isSome ∧
        (MakeHelper.near asm (site.addr + 4) nearAddr nearBuf (some farPc) alterRd).isSome

/-- If a placement is in reach, `reserve` returns one. -/
def BranchRight : Prop :=
  ∀ a, site.Room a → site.Reaches a →
    ∃ m' freeList' nearAddr,
      site.pages.reserve site.freeList site.addr site.size = some (m', freeList', nearAddr) ∧
        site.Reaches nearAddr ∧ site.Assembles nearAddr

/-- The nearest range below is nearer than the nearest range above, but the block at its end is
out of reach, and the one at the begin of the range above is in reach. -/
def Overtaken : Prop :=
  ∃ below above, IsBelow site.freeList site.addr site.size below ∧
    IsAbove site.freeList site.addr site.size above ∧
    site.addr - below.2 < above.1 - site.addr ∧
    (2 ^ 20 < site.addr - below.2 + site.size ∨ 2 ^ 20 ≤ site.addr - below.2 + 8) ∧
    above.1 - site.addr < 2 ^ 20 ∧ above.1 - site.addr + site.size ≤ 2 ^ 20 + 8

variable {site} {r : ℕ × ℕ} {a : ℕ}

theorem jMaxOffs : J_MAX_OFFS = 2 ^ 20 := rfl

theorem outside (site : TrapSite) : ¬ Covers site.freeList site.addr :=
  fun hcovers => site.reached.freeListOf.free hcovers site.marked

theorem reaches_iff (ha : 2 ∣ a) : site.Reaches a ↔
    -2 ^ 20 ≤ (a : ℤ) - site.addr ∧ (a : ℤ) - site.addr < 2 ^ 20 ∧
      -2 ^ 20 ≤ (site.addr : ℤ) + 8 - a - site.size ∧
      (site.addr : ℤ) + 8 - a - site.size < 2 ^ 20 := by
  have haddr := site.addr_even
  have hbody := site.body_even
  simp only [Reaches, JalOffset, trapOffset, returnOffset, jMaxOffs, size]
  omega

/-- Among the placements below the site the highest reaches furthest. -/
theorem Reaches.up {a' : ℕ} (h : site.Reaches a) (ha : 2 ∣ a) (ha' : 2 ∣ a') (hle : a ≤ a')
    (hbelow : a' + site.size ≤ site.addr) : site.Reaches a' := by
  rw [reaches_iff ha] at h
  rw [reaches_iff ha']
  omega

/-- Among the placements above the site the lowest reaches furthest. -/
theorem Reaches.down {a' : ℕ} (h : site.Reaches a) (ha : 2 ∣ a) (ha' : 2 ∣ a') (hle : a' ≤ a)
    (habove : site.addr < a') : site.Reaches a' := by
  rw [reaches_iff ha] at h
  rw [reaches_iff ha']
  omega

theorem Reaches.even (h : site.Reaches a) : 2 ∣ a := by
  obtain ⟨⟨-, -, htrap⟩, -⟩ := h
  have haddr := site.addr_even
  simp only [trapOffset] at htrap
  omega

theorem Reaches.assembles (h : site.Reaches a) : site.Assembles a := by
  obtain ⟨⟨hlo, hhi, -⟩, hlo', hhi', -⟩ := h
  intro asm nearBuf farPc alterRd hlen
  refine ⟨?_, ?_⟩
  · simp only [trapOffset] at hlo hhi
    rw [MakeHelper.jump, if_pos ⟨hhi, hlo⟩]
    rfl
  · simp only [returnOffset] at hlo' hhi'
    simp only [MakeHelper.near, MakeHelper.jump, hlen]
    rw [if_pos ⟨hhi', hlo'⟩]
    rfl

theorem size_pos (site : TrapSite) : 0 < site.size := Nat.succ_pos _

theorem size_even (site : TrapSite) : 2 ∣ site.size := by
  have := site.body_even
  simp only [size]
  omega

theorem below_even (h : IsBelow site.freeList site.addr site.size r) : 2 ∣ r.2 - site.size :=
  Nat.dvd_sub (site.reached.even r h.mem).2 site.size_even

theorem above_even (h : IsAbove site.freeList site.addr site.size r) : 2 ∣ r.1 :=
  (site.reached.even r h.mem).1

theorem reaches_below_iff (h : IsBelow site.freeList site.addr site.size r) :
    site.Reaches (r.2 - site.size) ↔
      site.addr - r.2 + site.size ≤ 2 ^ 20 ∧ site.addr - r.2 + 8 < 2 ^ 20 := by
  have hfits : r.1 + site.size ≤ r.2 := h.fits
  have hbelow := h.below
  rw [reaches_iff (below_even h)]
  omega

theorem reaches_above_iff (h : IsAbove site.freeList site.addr site.size r) :
    site.Reaches r.1 ↔
      r.1 - site.addr < 2 ^ 20 ∧ r.1 - site.addr + site.size ≤ 2 ^ 20 + 8 := by
  have habove := h.above
  rw [reaches_iff (above_even h)]
  omega

/-- Where the range above is taken, no placement below reaches further. -/
theorem reaches_of_takesAbove (htake : TakesAbove site.freeList site.addr site.size a)
    {a' : ℕ} (hroom : site.Room a') (hreach : site.Reaches a') : site.Reaches a := by
  obtain ⟨r, hr, rfl, hnot⟩ := htake
  obtain ⟨q, hq, hlo, hhi⟩ := hroom
  have hfits : Fits site.size q := show q.1 + site.size ≤ q.2 by omega
  have hra := hr.above
  obtain hside | hside := side_of_outside site.outside hq
  · obtain ⟨p, hp⟩ := exists_isBelow hq hfits hside
    have hdist := hnot p hp
    have hhigh := hp.highest q hq hfits hside
    have hpb := hp.below
    rw [reaches_iff hreach.even] at hreach
    rw [reaches_above_iff hr]
    omega
  · exact hreach.down hreach.even (above_even hr) ((hr.lowest q hq hfits hside).trans hlo) hra

theorem reaches_of_takesBelow (hok : ¬ site.Overtaken)
    (htake : TakesBelow site.freeList site.addr site.size a) {a' : ℕ} (hroom : site.Room a')
    (hreach : site.Reaches a') : site.Reaches a := by
  obtain ⟨r, hr, rfl, hnear⟩ := htake
  obtain ⟨q, hq, hlo, hhi⟩ := hroom
  have hfits : Fits site.size q := show q.1 + site.size ≤ q.2 by omega
  have hrfits : r.1 + site.size ≤ r.2 := hr.fits
  have hrb := hr.below
  obtain hside | hside := side_of_outside site.outside hq
  · have hhigh := hr.highest q hq hfits hside
    exact hreach.up hreach.even (below_even hr) (by omega) (by omega)
  · obtain ⟨p, hp⟩ := exists_isAbove hq hfits hside
    have hdist := hnear p hp
    have hlow := hp.lowest q hq hfits hside
    have hpa := hp.above
    have hpreach := hreach.down hreach.even (above_even hp) (hlow.trans hlo) hpa
    rw [reaches_above_iff hp] at hpreach
    by_contra hout
    rw [reaches_below_iff hr] at hout
    exact hok ⟨r, p, hr, hp, by omega, by omega, hpreach⟩

theorem branchRight_of_not_overtaken (hok : ¬ site.Overtaken) : site.BranchRight := by
  intro a hroom hreach
  obtain ⟨r, hr, hlo, hhi⟩ := hroom
  have hfits : Fits site.size r := show r.1 + site.size ≤ r.2 by omega
  obtain ⟨⟨m', freeList', nearAddr⟩, hcall⟩ :=
    reserve_finds (m := site.pages) site.reached.freeListOf.sorted site.outside hr hfits
  have hnear : site.Reaches nearAddr := by
    obtain htake | htake := reserve_takes site.reached.freeListOf.sorted site.outside hcall
    · exact reaches_of_takesBelow hok htake ⟨r, hr, hlo, hhi⟩ hreach
    · exact reaches_of_takesAbove htake ⟨r, hr, hlo, hhi⟩ hreach
  exact ⟨m', freeList', nearAddr, hcall, hnear, hnear.assembles⟩

theorem not_branchRight_of_overtaken (h : site.Overtaken) : ¬ site.BranchRight := by
  obtain ⟨below, above, hbelow, habove, hcloser, hfar, hnear⟩ := h
  have hab := habove.above
  have hbb := hbelow.below
  have hroom : site.Room above.1 := ⟨above, habove.mem, le_rfl, habove.fits⟩
  have hreach : site.Reaches above.1 := (reaches_above_iff habove).mpr hnear
  intro hright
  obtain ⟨m', freeList', nearAddr, hcall, hnearReach, -⟩ := hright _ hroom hreach
  obtain ⟨r, hr, rfl, -⟩ | ⟨r, hr, rfl, hnot⟩ :=
    reserve_takes site.reached.freeListOf.sorted site.outside hcall
  · have hle := hbelow.highest r hr.mem hr.fits hr.below
    rw [reaches_below_iff hr] at hnearReach
    omega
  · have hle := habove.lowest r hr.mem hr.fits hr.above
    have hdist := hnot below hbelow
    omega

/-- `reserve` misses a placement in reach exactly if a range below the site that is out of reach is
nearer than a range above it that is in reach. -/
theorem branchRight_iff (site : TrapSite) : site.BranchRight ↔ ¬ site.Overtaken :=
  ⟨fun hright hover => not_branchRight_of_overtaken hover hright, branchRight_of_not_overtaken⟩

end TrapSite

/-! ## A site at the limit -/

/-- A page in use from an offset on. -/
def tailPage (x : ℕ) : Page := Page.empty.put x (List.replicate (PAGE_SIZE - x) 0)

theorem tailPage_isFree {x i : ℕ} (hi : i < PAGE_SIZE) :
    (tailPage x).isFree i = !decide (x ≤ i) := by
  rw [tailPage, put_isFree, Page.empty_isFree, Bool.true_and, List.length_replicate]
  congr 2
  rw [eq_iff_iff]
  omega

theorem range_split {x : ℕ} (hx : x < PAGE_SIZE) :
    List.range PAGE_SIZE = List.range' 0 x ++ x :: List.range' (x + 1) (PAGE_SIZE - x - 1) := by
  have happend := List.range'_append_1 (s := 0) (m := x) (n := PAGE_SIZE - x)
  rw [Nat.zero_add, show x + (PAGE_SIZE - x) = PAGE_SIZE by omega] at happend
  rw [List.range_eq_range', ← happend, ← List.range'_succ,
    show PAGE_SIZE - x - 1 + 1 = PAGE_SIZE - x by omega]

/-- Such a page ends the range that is open. -/
theorem scanPage_tail_open {ranges : List (ℕ × ℕ)} {cur pn x : ℕ} (hx : x < PAGE_SIZE) :
    scanPage (ranges, some cur) ⟨pn, tailPage x⟩ =
      (closeRange ranges cur (pn * PAGE_SIZE + x), none) := by
  have hused : ∀ i, x ≤ i → i < PAGE_SIZE → (tailPage x).isFree i = false := by
    intro i hlo hhi
    rw [tailPage_isFree hhi, decide_eq_true hlo, Bool.not_true]
  have hfree : ∀ i, i < x → (tailPage x).isFree i = true := by
    intro i hi
    rw [tailPage_isFree (hi.trans hx), decide_eq_false (by omega), Bool.not_false]
  rw [scanPage, range_split hx, List.foldl_append, scan_free fun i _ hhi => hfree i (by omega),
    List.foldl_cons, hused x le_rfl hx, scanByte_end,
    scan_used fun i hlo hhi => hused i (by omega) (by omega)]

/-- If none is open and its first byte is free, it makes one range. -/
theorem scanPage_tail_closed {ranges : List (ℕ × ℕ)} {pn x : ℕ} (hpos : 0 < x)
    (hx : x < PAGE_SIZE) :
    scanPage (ranges, none) ⟨pn, tailPage x⟩ =
      (closeRange ranges (pn * PAGE_SIZE) (pn * PAGE_SIZE + x), none) := by
  have hfirst : (tailPage x).isFree 0 = true := by
    rw [tailPage_isFree (hpos.trans hx), decide_eq_false (by omega), Bool.not_false]
  have hopen : scanPage (ranges, some (pn * PAGE_SIZE)) ⟨pn, tailPage x⟩ =
      (closeRange ranges (pn * PAGE_SIZE) (pn * PAGE_SIZE + x), none) := scanPage_tail_open hx
  have hkeep : scanByte (ranges, some (pn * PAGE_SIZE)) (pn * PAGE_SIZE + 0) true =
      (ranges, some (pn * PAGE_SIZE)) := rfl
  have hbegin : scanByte (ranges, none) (pn * PAGE_SIZE + 0) true =
      (ranges, some (pn * PAGE_SIZE)) := by
    rw [scanByte_begin, Nat.add_zero]
  have hsplit : List.range PAGE_SIZE = 0 :: List.range' 1 (PAGE_SIZE - 1) := by
    rw [List.range_eq_range', show PAGE_SIZE = PAGE_SIZE - 1 + 1 from rfl, List.range'_succ]
    rfl
  rw [scanPage, hsplit, List.foldl_cons, hfirst] at hopen ⊢
  rw [hkeep] at hopen
  rw [hbegin, hopen]

/-- A page that is all in use changes nothing where no range is open. -/
theorem scanPage_full {ranges : List (ℕ × ℕ)} {pn : ℕ} :
    scanPage (ranges, none) ⟨pn, tailPage 0⟩ = (ranges, none) := by
  rw [scanPage, List.range_eq_range']
  refine scan_used ?_
  intro i _ hhi
  rw [tailPage_isFree (by omega), decide_eq_true (Nat.zero_le i), Bool.not_true]

/-- A page in use with two pages about 1 MiB away, one below and one above. -/
def limitPages : PageMap :=
  (((∅ : PageMap).insert 528 (tailPage 64)).insert 272 (tailPage 0)).insert 16 (tailPage 74)

theorem limitPages_freeList :
    limitPages.makeFreeList = [(0x10000, 0x1004a), (0x210000, 0x210040)] := by
  have hitems : limitPages.items = [⟨16, tailPage 74⟩, ⟨272, tailPage 0⟩, ⟨528, tailPage 64⟩] := rfl
  rw [makeFreeList, hitems, List.foldl_cons, List.foldl_cons, List.foldl_cons, List.foldl_nil,
    scanPage_tail_open (by decide), scanPage_full, scanPage_tail_closed (by decide) (by decide)]
  rfl

theorem limitPages_used : limitPages.Used 0x110024 :=
  ⟨tailPage 0, rfl, tailPage_isFree (by decide)⟩

/-- A near call of 40 bytes for a site 38 bytes less than 1 MiB above the one free range, and 36
bytes less below the other. -/
def limitSite : TrapSite where
  pages := limitPages
  freeList := limitPages.makeFreeList
  addr := 0x110024
  body := 36
  reached := .made limitPages
  marked := limitPages_used
  addr_even := by decide
  body_even := by decide

theorem limitSite_not_right : ¬ ∀ site : TrapSite, site.BranchRight := by
  intro h
  refine TrapSite.not_branchRight_of_overtaken ?_ (h limitSite)
  refine ⟨(0x10000, 0x1004a), (0x210000, 0x210040), ?_, ?_, by decide, by decide, by decide,
    by decide⟩
  · refine ⟨?_, by decide, by decide, ?_⟩
    · simp only [limitSite, limitPages_freeList]
      decide
    · simp only [limitSite, limitPages_freeList]
      decide
  · refine ⟨?_, by decide, by decide, ?_⟩
    · simp only [limitSite, limitPages_freeList]
      decide
    · simp only [limitSite, limitPages_freeList]
      decide

end RvCkpt.Parse
