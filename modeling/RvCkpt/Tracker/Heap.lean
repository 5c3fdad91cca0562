import RvCkpt.Tracker.GuestSpec

/-! # The heap

`abi_sys_brk` (`src/src/abi/unknown-abi.h`) after the segments are loaded
(`map_load_segment_user` in `src/src/emu/processor-proxy.h`). The heap starts where the last
segment's pages end; the break starts where the segment itself ends.
-/

namespace RvCkpt.Tracker
open ByteMem
set_option autoImplicit false

/-! ## Segments -/

/-- What `map_load_segment_user` reads of a program header, the protection that
`elf_p_flags_mmap` makes of its flags, and the answer of the host. -/
structure Segment where
  p_offset : BitVec 64
  p_vaddr : BitVec 64
  p_memsz : BitVec 64
  voffset : BitVec 64
  prot : BitVec 32
  answer : Option (ℕ × Mem)

namespace Segment

def MAP_PRIVATE : BitVec 32 := 0x02

def map_delta (s : Segment) : BitVec 64 := s.p_offset &&& BitVec.ofNat 64 (PAGE_SIZE - 1)

def map_vaddr (s : Segment) : BitVec 64 := s.p_vaddr + s.voffset - s.map_delta

def map_len (s : Segment) : ℕ := roundUp (s.p_memsz + s.map_delta).toNat

def brk (s : Segment) : ℕ := (s.p_vaddr + s.voffset + s.p_memsz).toNat

def call (s : Segment) : Space.MmapCall :=
  ⟨s.map_vaddr.toNat, s.map_len, s.prot, Space.MmapCall.MAP_FIXED ||| MAP_PRIVATE, s.answer⟩

end Segment

namespace Proc

/-- `none` where the process panics. -/
def loadSegment (p : Proc) (s : Segment) : Option Proc :=
  if (p.guest_mmap s.call).2 = MAP_FAILED then none
  else some (p.map_load_segment_user s.call s.brk)

def loadSegments (p : Proc) (segments : List Segment) : Option Proc :=
  segments.foldlM loadSegment p

end Proc

/-! ## The property -/

/-- The argument of a brk, and whether the host maps the pages that it is asked for. -/
structure BrkCall where
  new_brk : BitVec 64
  ok : Bool

namespace Proc

def brkStep (p : Proc) (c : BrkCall) : Proc × ℤ := p.abi_sys_brk c.new_brk.toNat c.ok

/-- What the host answers when the heap grows. -/
def heapMapping (p : Proc) (c : BrkCall) : Option ℕ :=
  hostMmap (p.mmapStart p.heap_end) (p.heapGrowth c.new_brk.toNat) true
    (if c.ok then some 0 else none)

/-- Below the start of the heap, or past its end where the host does not map more. -/
def Refused (p : Proc) (c : BrkCall) : Prop :=
  c.new_brk.toNat < p.heap_begin ∨ p.heap_end < c.new_brk.toNat ∧ p.heapMapping c = none

instance instDecidableRefused (p : Proc) (c : BrkCall) : Decidable (p.Refused c) :=
  inferInstanceAs (Decidable (_ ∨ _))

structure HeapRight (p : Proc) : Prop where
  start : p.heap_begin ≤ p.brk
  stop : p.brk ≤ p.heap_end
  mapped : ∀ a, p.heap_begin ≤ a → a < p.brk → p.live (a / PAGE_SIZE) = true

/-- A request that cannot be honoured changes nothing and returns the current break. -/
def BrkRight (p : Proc) (c : BrkCall) : Prop :=
  p.Refused c →
    (p.brkStep c).1.brk = p.brk ∧ (p.brkStep c).1.heap_end = p.heap_end ∧ (p.brkStep c).2 = p.brk

/-- The heap is right before each call and after the last one, and every call is right. -/
def BrksRight (p : Proc) : List BrkCall → Prop
  | [] => p.HeapRight
  | c :: calls => p.HeapRight ∧ p.BrkRight c ∧ BrksRight (p.brkStep c).1 calls

/-- Each call asks for the current break, or can be honoured. -/
def BrksMeet (p : Proc) : List BrkCall → Prop
  | [] => True
  | c :: calls => (c.new_brk = 0 ∨ ¬p.Refused c) ∧ BrksMeet (p.brkStep c).1 calls

end Proc

/-- After the segments are loaded, before the first brk. -/
structure Loaded (p : Proc) : Prop where
  heap : p.heap_begin = p.heap_end
  pos : 0 < p.heap_begin

/-! ## Loading -/

theorem mmapAt_heap (p : Proc) (addr : ℕ) (fixed : Bool) (c : Space.MmapCall) :
    (p.mmapAt addr fixed c).1.heap_begin = p.heap_begin ∧
      (p.mmapAt addr fixed c).1.heap_end = p.heap_end ∧
      (p.mmapAt addr fixed c).1.brk = p.brk := by
  unfold Proc.mmapAt
  split
  · exact ⟨rfl, rfl, rfl⟩
  · exact ⟨rfl, rfl, rfl⟩

theorem guest_mmap_heap (p : Proc) (c : Space.MmapCall) :
    (p.guest_mmap c).1.heap_begin = p.heap_begin ∧ (p.guest_mmap c).1.heap_end = p.heap_end ∧
      (p.guest_mmap c).1.brk = p.brk := by
  by_cases hcheck : HOST_MMAP_BASE < (c.addr + c.len) % 2 ^ 64
  · rw [guest_mmap_refused hcheck]
    exact ⟨rfl, rfl, rfl⟩
  have hinit := init_mmap_unchanged p
  rw [guest_mmap_eq hcheck, ← hinit.heap_begin, ← hinit.heap_end, ← hinit.brk]
  split
  · simp only
    split
    · exact ⟨rfl, rfl, rfl⟩
    · exact mmapAt_heap _ _ _ _
  · exact mmapAt_heap _ _ _ _

theorem loadSegment_heap {p p' : Proc} {s : Segment} (h : p.heap_begin = p.heap_end)
    (hload : p.loadSegment s = some p') : p'.heap_begin = p'.heap_end := by
  obtain ⟨hbegin, hend, -⟩ := guest_mmap_heap p s.call
  unfold Proc.loadSegment at hload
  split at hload
  · cases hload
  · rename_i hok
    rw [Option.some.injEq, Proc.map_load_segment_user] at hload
    simp only [if_neg hok] at hload
    subst hload
    have hsame : (p.guest_mmap s.call).1.heap_begin = (p.guest_mmap s.call).1.heap_end := by
      rw [hbegin, hend, h]
    split_ifs
    · rfl
    · rfl
    · exact hsame
    · exact hsame

/-- The heap is empty after the segments, however many there are. -/
theorem loadSegments_heap {segments : List Segment} {p p' : Proc}
    (h : p.heap_begin = p.heap_end) (hload : p.loadSegments segments = some p') :
    p'.heap_begin = p'.heap_end := by
  induction segments generalizing p with
  | nil =>
    cases hload
    exact h
  | cons s segments ih =>
    rw [Proc.loadSegments, List.foldlM_cons, Option.bind_eq_bind, Option.bind_eq_some_iff] at hload
    obtain ⟨p₁, hfirst, hrest⟩ := hload
    exact ih (loadSegment_heap h hfirst) hrest

/-- A segment that the host maps where it is to go. -/
theorem loadSegment_mapped (p : Proc) {s : Segment} (haddr : s.call.addr ≠ 0)
    (hcheck : ¬HOST_MMAP_BASE < (s.call.addr + s.call.len) % 2 ^ 64)
    (hmap : Mappable s.call.addr s.call.len) (hfixed : s.call.fixed = true)
    (hanswer : s.answer.isSome = true) (hbegin : p.heap_begin < s.call.addr + s.call.len)
    (hbrk : p.brk < s.brk) :
    ∃ p', p.loadSegment s = some p' ∧ p'.heap_begin = s.call.addr + s.call.len ∧
      p'.heap_end = s.call.addr + s.call.len ∧ p'.brk = s.brk := by
  obtain ⟨hold, -, holdbrk⟩ := guest_mmap_heap p s.call
  obtain ⟨answer, hsome⟩ := Option.isSome_iff_exists.mp hanswer
  have hhost : hostMmap s.call.addr s.call.len true (some answer.1) = some s.call.addr := by
    simp [hostMmap, hmap]
  have hresult : (p.guest_mmap s.call).2 = s.call.addr := by
    have hcall : s.call.answer = some answer := hsome
    rw [guest_mmap_eq hcheck, if_neg haddr, Proc.mmapAt, hfixed, hcall, Option.map_some, hhost]
  have hok : (p.guest_mmap s.call).2 ≠ MAP_FAILED := by
    rw [hresult]
    exact hmap.ne_failed
  refine ⟨_, by rw [Proc.loadSegment, if_neg hok], ?_⟩
  rw [← hold] at hbegin
  rw [← holdbrk] at hbrk
  simp only [Proc.map_load_segment_user, if_neg hok, if_pos hbegin, if_pos hbrk]
  exact ⟨trivial, trivial, trivial⟩

theorem Loaded.of_segments {segments : List Segment} {p p' : Proc}
    (h : p.heap_begin = p.heap_end) (hload : p.loadSegments segments = some p')
    (hpos : 0 < p'.heap_begin) : Loaded p' :=
  ⟨loadSegments_heap h hload, hpos⟩

/-! ## One call -/

/-- The heap's pages are mapped, up to its end. -/
structure HeapInv (p : Proc) : Prop where
  pos : 0 < p.heap_begin
  start : p.heap_begin ≤ p.brk
  stop : p.brk ≤ p.heap_end
  mapped : ∀ a, p.heap_begin ≤ a → a < p.heap_end → p.live (a / PAGE_SIZE) = true

theorem HeapInv.right {p : Proc} (h : HeapInv p) : p.HeapRight :=
  ⟨h.start, h.stop, fun a hlo hhi => h.mapped a hlo (hhi.trans_le h.stop)⟩

theorem Loaded.inv {p : Proc} (h : Loaded p) (hbrk : p.brk = p.heap_begin) : HeapInv p := by
  refine ⟨h.pos, hbrk.ge, (hbrk.trans h.heap).le, fun a hlo hhi => ?_⟩
  rw [← h.heap] at hhi
  exact absurd hlo (Nat.not_le.mpr hhi)

section
variable {p : Proc} {c : BrkCall}

theorem brkStep_zero (hzero : c.new_brk = 0) : p.brkStep c = (p, (p.brk : ℤ)) := by
  have hnat : c.new_brk.toNat = 0 := by rw [hzero]; rfl
  rw [Proc.brkStep, Proc.abi_sys_brk, if_pos hnat]

theorem toNat_ne_zero (hzero : c.new_brk ≠ 0) : c.new_brk.toNat ≠ 0 :=
  fun h => hzero (BitVec.eq_of_toNat_eq h)

theorem brkStep_within (hzero : c.new_brk ≠ 0) (hle : c.new_brk.toNat ≤ p.heap_end) :
    p.brkStep c = ({ p with brk := c.new_brk.toNat }, (c.new_brk.toNat : ℤ)) := by
  rw [Proc.brkStep, Proc.abi_sys_brk, if_neg (toNat_ne_zero hzero), if_pos hle]

theorem brkStep_failed (hlt : p.heap_end < c.new_brk.toNat) (hnone : p.heapMapping c = none) :
    p.brkStep c = (p, -Proc.ENOMEM) := by
  have hzero : c.new_brk.toNat ≠ 0 := by omega
  have hmmap : p.mmap p.heap_end (p.heapGrowth c.new_brk.toNat) c.ok = (p, MAP_FAILED) := by
    rw [Proc.mmap]
    rw [Proc.heapMapping] at hnone
    rw [hnone]
  rw [Proc.brkStep, Proc.abi_sys_brk, if_neg hzero, if_neg (Nat.not_le.mpr hlt)]
  simp only [hmmap, if_true]

/-- The pages up to the new end of the heap are mapped. -/
theorem brkStep_grown (hpos : 0 < p.heap_end) (hlt : p.heap_end < c.new_brk.toNat) {rv : ℕ}
    (hsome : p.heapMapping c = some rv) :
    p.brkStep c =
      ({ p.place p.heap_end (p.heapGrowth c.new_brk.toNat) true (fun _ => 0) with
          heap_end := roundUp c.new_brk.toNat
          brk := c.new_brk.toNat }, (c.new_brk.toNat : ℤ)) ∧
      p.heap_end + p.heapGrowth c.new_brk.toNat = roundUp c.new_brk.toNat ∧
      c.new_brk.toNat ≤ roundUp c.new_brk.toNat := by
  have hzero : c.new_brk.toNat ≠ 0 := by omega
  have hstart : p.mmapStart p.heap_end = p.heap_end := if_neg hpos.ne'
  obtain ⟨hmap, hrv⟩ := hostMmap_some hsome
  rw [hstart] at hrv
  have hrv' : rv = p.heap_end := hrv rfl
  have hmmap : p.mmap p.heap_end (p.heapGrowth c.new_brk.toNat) c.ok =
      (p.place p.heap_end (p.heapGrowth c.new_brk.toNat) true (fun _ => 0), p.heap_end) := by
    rw [Proc.mmap]
    rw [Proc.heapMapping] at hsome
    rw [hsome]
    simp only [hrv', if_neg hpos.ne']
  have hne : p.heap_end ≠ MAP_FAILED := hrv' ▸ hmap.ne_failed
  have hlen := hmap.2.2
  have hbound := c.new_brk.isLt
  rw [hrv'] at hlen
  refine ⟨?_, ?_, ?_⟩
  · rw [Proc.brkStep, Proc.abi_sys_brk, if_neg hzero, if_neg (Nat.not_le.mpr hlt)]
    simp only [hmmap, if_neg hne]
  · unfold Proc.heapGrowth roundUp PAGE_SIZE TASK_SIZE at *
    omega
  · unfold Proc.heapGrowth roundUp PAGE_SIZE TASK_SIZE at *
    omega

/-- A call that meets the condition keeps the heap in order, and is right. -/
theorem HeapInv.step (h : HeapInv p) (hmeets : c.new_brk = 0 ∨ ¬p.Refused c) :
    HeapInv (p.brkStep c).1 ∧ p.BrkRight c := by
  by_cases hzero : c.new_brk = 0
  · rw [Proc.BrkRight, brkStep_zero hzero]
    exact ⟨h, fun _ => ⟨rfl, rfl, rfl⟩⟩
  have hnot := hmeets.resolve_left hzero
  refine ⟨?_, fun hrefused => absurd hrefused hnot⟩
  obtain ⟨hlo, hmap⟩ := not_or.mp hnot
  rw [Nat.not_lt] at hlo
  by_cases hle : c.new_brk.toNat ≤ p.heap_end
  · rw [brkStep_within hzero hle]
    exact ⟨h.pos, hlo, hle, h.mapped⟩
  · rw [Nat.not_le] at hle
    obtain ⟨rv, hsome⟩ := Option.ne_none_iff_exists'.mp fun hnone => hmap ⟨hle, hnone⟩
    have hend : 0 < p.heap_end := h.pos.trans_le (h.start.trans h.stop)
    obtain ⟨heq, hsum, hround⟩ := brkStep_grown hend hle hsome
    rw [heq]
    refine ⟨h.pos, hlo, hround, fun a hal hah => ?_⟩
    simp only [Proc.place, hsum, markRange] at hah ⊢
    split_ifs with hin
    · rfl
    · refine h.mapped a hal (Nat.lt_of_not_le fun hge => hin ⟨Nat.div_le_div_right hge, ?_⟩)
      exact (Nat.div_mul_le_self a PAGE_SIZE).trans_lt hah

/-- A call that does not meet it leaves the break below the heap, or returns an error. -/
theorem HeapInv.meets (h : HeapInv p) (hright : p.BrkRight c)
    (hnext : (p.brkStep c).1.HeapRight) : c.new_brk = 0 ∨ ¬p.Refused c := by
  by_contra hmeets
  obtain ⟨hzero, hrefused⟩ := not_or.mp hmeets
  rw [not_not] at hrefused
  rcases hrefused with hlow | ⟨hhigh, hnone⟩
  · have hle : c.new_brk.toNat ≤ p.heap_end := hlow.le.trans (h.start.trans h.stop)
    have hstart := hnext.start
    rw [brkStep_within hzero hle] at hstart
    exact absurd hlow (Nat.not_lt.mpr hstart)
  · have hresult := (hright (.inr ⟨hhigh, hnone⟩)).2.2
    rw [brkStep_failed hhigh hnone] at hresult
    have hnonneg : (0 : ℤ) ≤ p.brk := Int.natCast_nonneg _
    have hneg : ¬(0 : ℤ) ≤ -Proc.ENOMEM := by decide
    rw [← hresult] at hnonneg
    exact hneg hnonneg

/-! ## Runs -/

theorem HeapInv.run_iff (h : HeapInv p) (calls : List BrkCall) :
    p.BrksRight calls ↔ p.BrksMeet calls := by
  induction calls generalizing p with
  | nil => exact iff_of_true h.right trivial
  | cons c calls ih =>
    constructor
    · rintro ⟨-, hright, hrest⟩
      have hnext : (p.brkStep c).1.HeapRight := by
        cases calls with
        | nil => exact hrest
        | cons d calls => exact hrest.1
      have hmeets := h.meets hright hnext
      exact ⟨hmeets, (ih (h.step hmeets).1).mp hrest⟩
    · rintro ⟨hmeets, hrest⟩
      obtain ⟨hinv, hright⟩ := h.step hmeets
      exact ⟨h.right, hright, (ih hinv).mpr hrest⟩

theorem Proc.BrksRight.heap {calls : List BrkCall} (h : p.BrksRight calls) : p.HeapRight := by
  cases calls with
  | nil => exact h
  | cons c calls => exact h.1

/-- The break starts at the heap's start, and each request can be honoured. -/
theorem Loaded.brksRight_iff (h : Loaded p) (calls : List BrkCall) :
    p.BrksRight calls ↔ p.brk = p.heap_begin ∧ p.BrksMeet calls := by
  constructor
  · intro hright
    have hheap := hright.heap
    have hbrk : p.brk = p.heap_begin := le_antisymm (hheap.stop.trans h.heap.ge) hheap.start
    exact ⟨hbrk, ((h.inv hbrk).run_iff calls).mp hright⟩
  · rintro ⟨hbrk, hmeets⟩
    exact ((h.inv hbrk).run_iff calls).mpr hmeets

end

/-- After any segments, over any calls. -/
theorem brk_right_iff {p p' : Proc} {segments : List Segment} (hempty : p.heap_begin = p.heap_end)
    (hload : p.loadSegments segments = some p') (hpos : 0 < p'.heap_begin)
    (calls : List BrkCall) :
    p'.BrksRight calls ↔ p'.brk = p'.heap_begin ∧ p'.BrksMeet calls :=
  (Loaded.of_segments hempty hload hpos).brksRight_iff calls

/-! ## A segment of one page -/

/-- Before the segments are loaded. -/
def emptyProc : Proc := { freshProc with heap_begin := 0, heap_end := 0, brk := 0 }

def pageSegment : Segment := ⟨0, 0x10000, 0x1000, 0, 5, some (0, fun _ => 0)⟩

theorem pageSegment_loaded :
    ∃ p, emptyProc.loadSegments [pageSegment] = some p ∧ p.heap_begin = 0x11000 ∧
      p.heap_end = 0x11000 ∧ p.brk = 0x11000 := by
  obtain ⟨p, hload, hbegin, hend, hbrk⟩ := loadSegment_mapped emptyProc (s := pageSegment)
    (by decide) (by decide) (by decide) (by decide) rfl (by decide) (by decide)
  refine ⟨p, ?_, hbegin.trans (by decide), hend.trans (by decide), hbrk.trans (by decide)⟩
  rw [Proc.loadSegments, List.foldlM_cons, hload]
  rfl

/-- The heap grows by a page. -/
theorem pageSegment_brk_right :
    ∃ p, emptyProc.loadSegments [pageSegment] = some p ∧ p.BrksRight [⟨0x11800, true⟩] := by
  obtain ⟨p, hload, hbegin, hend, hbrk⟩ := pageSegment_loaded
  have hmap : p.heapMapping ⟨0x11800, true⟩ ≠ none := by
    rw [Proc.heapMapping, Proc.mmapStart, Proc.heapGrowth, hend, if_neg (by decide)]
    decide
  refine ⟨p, hload, (brk_right_iff rfl hload (by omega) _).mpr
    ⟨hbrk.trans hbegin.symm, .inr ?_, trivial⟩⟩
  rintro (hlow | hhigh)
  · rw [hbegin] at hlow
    exact absurd hlow (by decide)
  · exact hmap hhigh.2

/-- A break below the start of the heap is taken. -/
theorem lowBrk_not_right :
    ¬∀ (p p' : Proc) (segments : List Segment) (calls : List BrkCall),
      p.heap_begin = p.heap_end → p.loadSegments segments = some p' → 0 < p'.heap_begin →
        p'.BrksRight calls := by
  intro hall
  obtain ⟨p, hload, hbegin, hend, hbrk⟩ := pageSegment_loaded
  have hright := hall emptyProc p [pageSegment] [⟨0x10800, true⟩] rfl hload (by omega)
  have hstart := hright.2.2.start
  rw [brkStep_within (by decide) (by rw [hend]; decide)] at hstart
  exact absurd (hbegin.symm.le.trans hstart) (by decide : ¬0x11000 ≤ (0x10800#64).toNat)

end RvCkpt.Tracker
