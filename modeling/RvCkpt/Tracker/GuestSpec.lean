import RvCkpt.Tracker.Guest

/-! # What the bitmap is for

The bitmap holds the pages of the guest's mappings between two bases, and a mapping whose address
the guest leaves open goes to pages that nothing is mapped on. Both hold as long as the heap
grows outside that window, the bitmap's own pages there stay out of the guest's calls, and
`find_free` finds a range.
-/

namespace RvCkpt.Tracker
open ByteMem
set_option autoImplicit false

/-! ## The property -/

def Window (pn : ℕ) : Prop := GUEST_MMAP_BASE ≤ pn * PAGE_SIZE ∧ pn * PAGE_SIZE < HOST_MMAP_BASE

/-- The pages that the bitmap holds for used. -/
def Proc.used (p : Proc) (pn : ℕ) : Bool := p.map_inited && page_present p.mem (pn * PAGE_SIZE)

def Tracked (p : Proc) : Prop := ∀ pn, Window pn → p.used pn = p.live pn

/-- The page is in the range. -/
def InRange (addr len pn : ℕ) : Prop := addr / PAGE_SIZE ≤ pn ∧ pn * PAGE_SIZE < addr + len

structure Unchanged (p p' : Proc) : Prop where
  mem : SameOutside p.mem p'.mem
  map_base : p'.map_base = p.map_base
  heap_begin : p'.heap_begin = p.heap_begin
  heap_end : p'.heap_end = p.heap_end
  brk : p'.brk = p.brk
  live : p'.live = p.live

/-- The range is in the window, and no live mapping has a page of it. -/
structure Vacant (live : ℕ → Bool) (addr len : ℕ) : Prop where
  lower : GUEST_MMAP_BASE ≤ addr
  upper : addr + len ≤ HOST_MMAP_BASE
  aligned : PAGE_SIZE ∣ addr
  free : ∀ pn, InRange addr len pn → live pn = false

/-- An mmap with no address: what it has to answer. -/
def Answered (p : Proc) (c : Space.MmapCall) : Prop :=
  ((p.guest_mmap c).2 = MAP_FAILED ∧ Unchanged p (p.guest_mmap c).1) ∨
    Vacant p.live (p.guest_mmap c).2 c.len

def Op.Right (p : Proc) : Op → Prop
  | .mmap c => c.addr = 0 → Answered p c
  | .segment c _ => c.addr = 0 → Answered p c
  | .munmap _ _ _ => True
  | .brk _ _ => True

/-- Every operation of the run is right, and the bitmap holds the live pages after it. -/
def Good (p : Proc) : List Op → Prop
  | [] => True
  | op :: ops => op.Right p ∧ Tracked (step p op) ∧ Good (step p op) ops

/-- Before the first mapping. The heap's variables are what they may be. -/
structure Start (p : Proc) : Prop where
  map_inited : p.map_inited = false
  live : ∀ pn, p.live pn = false

/-! ## The condition -/

/-- Free pages of the window from `s` on: those of the length and one more. -/
def Fits (live : ℕ → Bool) (len s : ℕ) : Prop :=
  GUEST_MMAP_BASE ≤ s * PAGE_SIZE ∧
    ∃ t, s ≤ t ∧ len ≤ (t - s) * PAGE_SIZE ∧ FreeRange live s t HOST_MMAP_BASE

structure FirstFit (live : ℕ → Bool) (len s : ℕ) : Prop where
  fits : Fits live len s
  first : ∀ s', Fits live len s' → s ≤ s'

/-- Where an mmap is to go. -/
def Requests (p : Proc) (c : Space.MmapCall) (addr : ℕ) (fixed : Bool) : Prop :=
  if c.addr = 0 then fixed = true ∧ ∃ s, addr = s * PAGE_SIZE ∧ FirstFit p.live c.len s
  else addr = c.addr ∧ fixed = c.fixed

/-- No page of the range is the bitmap's. -/
def Away (addr len : ℕ) : Prop := ∀ b, Covers addr len b → ¬ Metadata b

def MeetsMmap (p : Proc) (c : Space.MmapCall) : Prop :=
  HOST_MMAP_BASE < (c.addr + c.len) % 2 ^ 64 ∨
    ∃ addr fixed, Requests p c addr fixed ∧
      ∀ rv, hostMmap addr c.len fixed (c.answer.map Prod.fst) = some rv → Away rv c.len

def Op.Meets (p : Proc) : Op → Prop
  | .mmap c => MeetsMmap p c
  | .segment c _ => MeetsMmap p c
  | .munmap addr len ok => hostMunmap addr len ok = true → Away addr len
  | .brk new_brk ok =>
    p.heap_end < new_brk →
      hostMmap (p.mmapStart p.heap_end) (p.heapGrowth new_brk) true (if ok then some 0 else none)
        ≠ none →
      ∀ pn, InRange (p.mmapStart p.heap_end) (p.heapGrowth new_brk) pn → Window pn →
        p.live pn = true

def RunMeets (p : Proc) : List Op → Prop
  | [] => True
  | op :: ops => op.Meets p ∧ RunMeets (step p op) ops

/-! ## The bitmap and the live pages -/

/-- The bitmap in memory is that of the live pages of the window. -/
def Synced (m : Mem) (live : ℕ → Bool) : Prop :=
  ∃ used, Tracks m used ∧ ∀ pn, Window pn → used pn = live pn

theorem Window.lt {pn : ℕ} (h : Window pn) : pn * PAGE_SIZE < 2 ^ 48 :=
  h.2.trans (by decide)

theorem Synced.present {m : Mem} {live : ℕ → Bool} (h : Synced m live) {pn : ℕ}
    (hpn : Window pn) : page_present m (pn * PAGE_SIZE) = live pn := by
  obtain ⟨used, ht, heq⟩ := h
  rw [ht.present hpn.lt, heq pn hpn]

theorem markRange_congr {used live : ℕ → Bool} {pn : ℕ} (h : used pn = live pn) (v : Bool)
    (a stop : ℕ) : markRange v used a stop pn = markRange v live a stop pn := by
  simp only [markRange, h]

theorem Synced.markLoop {m : Mem} {live : ℕ → Bool} (h : Synced m live) (v : Bool) {a len : ℕ}
    (hmap : Mappable a len) :
    Synced (markLoop v m a (a + len)) (markRange v live (a / PAGE_SIZE) (a + len)) := by
  obtain ⟨used, ht, heq⟩ := h
  obtain ⟨-, ⟨p, hp⟩, hend⟩ := hmap
  have hstop : a + len ≤ 2 ^ 48 := hend.trans (by decide)
  have hpage : a = p * PAGE_SIZE := hp.trans (Nat.mul_comm _ _)
  have hmark := ht.markLoop v (p := p) hstop
  rw [← hpage] at hmark
  rw [show a / PAGE_SIZE = p by rw [hpage, page_mul_div]]
  exact ⟨_, hmark, fun pn hpn => markRange_congr (heq pn hpn) v p (a + len)⟩

theorem covers_of_inRange {addr len b : ℕ} (hdvd : PAGE_SIZE ∣ addr)
    (h : InRange addr len (b / PAGE_SIZE)) : Covers addr len b := by
  obtain ⟨q, rfl⟩ := hdvd
  refine ⟨?_, h.2⟩
  have hle := h.1
  rw [Nat.mul_div_cancel_left q (by decide)] at hle
  exact (Nat.mul_le_mul_left PAGE_SIZE hle).trans (Nat.mul_div_le b PAGE_SIZE)

/-! ## The invariant -/

/-- No live page is the bitmap's. -/
def LiveAway (live : ℕ → Bool) : Prop := ∀ b, live (b / PAGE_SIZE) = true → ¬ Metadata b

structure Inv (p : Proc) : Prop where
  synced : p.map_inited = true → Synced p.mem p.live
  fresh : p.map_inited = false → ∀ pn, Window pn → p.live pn = false
  away : LiveAway p.live

theorem Start.inv {p : Proc} (h : Start p) : Inv p := by
  refine ⟨fun hin => ?_, fun _ pn _ => h.live pn, fun b hb => ?_⟩
  · rw [h.map_inited] at hin
    cases hin
  · rw [h.live] at hb
    cases hb

theorem Inv.tracked {p : Proc} (h : Inv p) : Tracked p := by
  intro pn hpn
  cases hin : p.map_inited with
  | false => rw [Proc.used, hin, Bool.false_and, h.fresh hin pn hpn]
  | true => rw [Proc.used, hin, Bool.true_and, (h.synced hin).present hpn]

/-- The bitmap is there, and it is that of the live pages. -/
structure Ready (p : Proc) : Prop where
  inited : p.map_inited = true
  synced : Synced p.mem p.live
  away : LiveAway p.live

theorem Ready.inv {p : Proc} (h : Ready p) : Inv p := by
  refine ⟨fun _ => h.synced, fun hnot => ?_, h.away⟩
  rw [h.inited] at hnot
  cases hnot

theorem Inv.init_mmap {p : Proc} (h : Inv p) : Ready p.init_mmap := by
  unfold Proc.init_mmap
  cases hin : p.map_inited with
  | true => exact ⟨hin, h.synced hin, h.away⟩
  | false => exact ⟨rfl, ⟨_, Tracks.init p.mem, fun pn hpn => (h.fresh hin pn hpn).symm⟩, h.away⟩

theorem init_mmap_unchanged (p : Proc) : Unchanged p p.init_mmap := by
  unfold Proc.init_mmap
  split
  · exact ⟨.refl _, rfl, rfl, rfl, rfl, rfl⟩
  · exact ⟨.mapPage p.mem le_rfl (by decide), rfl, rfl, rfl, rfl, rfl⟩

section
variable {p : Proc} {addr len : ℕ}

theorem LiveAway.markRange (h : LiveAway p.live) (v : Bool) (hdvd : PAGE_SIZE ∣ addr)
    (haway : Away addr len) :
    LiveAway (markRange v p.live (addr / PAGE_SIZE) (addr + len)) := by
  intro b hb
  rw [Tracker.markRange] at hb
  split at hb
  · rename_i hin
    exact haway b (covers_of_inRange hdvd hin)
  · exact h b hb

/-- Away from the bitmap, a mapping leaves it as it is. -/
theorem Synced.place (h : Synced p.mem p.live) (v : Bool) (content : Mem)
    (haway : Away addr len) : Synced (p.place addr len v content).mem p.live := by
  obtain ⟨used, ht, heq⟩ := h
  refine ⟨used, ht.congr fun b hlo hhi => ?_, heq⟩
  have hnot : ¬ Covers addr len b := fun hcov => haway b hcov ⟨hlo, hhi⟩
  simp only [Proc.place, if_neg hnot]

/-- The host's mapping and the loop over its pages. -/
theorem Ready.placeMark (h : Ready p) (v : Bool) (content : Mem) (hmap : Mappable addr len)
    (haway : Away addr len) :
    Ready { p.place addr len v content with
      mem := markLoop v (p.place addr len v content).mem addr (addr + len) } :=
  ⟨h.inited, (h.synced.place v content haway).markLoop v hmap,
    h.away.markRange v hmap.2.1 haway⟩

theorem hostMmap_some {fixed : Bool} {answer : Option ℕ} {rv : ℕ}
    (h : hostMmap addr len fixed answer = some rv) :
    Mappable rv len ∧ (fixed = true → rv = addr) := by
  rw [hostMmap, Option.filter_eq_some_iff, Option.map_eq_some_iff] at h
  obtain ⟨⟨chosen, -, hrv⟩, hmap⟩ := h
  refine ⟨of_decide_eq_true hmap, fun hfixed => ?_⟩
  rw [hfixed, if_pos rfl] at hrv
  exact hrv.symm

theorem Mappable.ne_failed {rv : ℕ} (h : Mappable rv len) : rv ≠ MAP_FAILED := by
  have hle := (Nat.le_add_right rv len).trans h.2.2
  intro heq
  rw [heq] at hle
  exact absurd hle (by decide)

/-! ## The calls -/

theorem Ready.mmapAt (h : Ready p) {fixed : Bool} {c : Space.MmapCall}
    (haway : ∀ rv, hostMmap addr c.len fixed (c.answer.map Prod.fst) = some rv → Away rv c.len) :
    Ready (p.mmapAt addr fixed c).1 := by
  unfold Proc.mmapAt
  split
  · rename_i rv hhost
    exact h.placeMark true _ (hostMmap_some hhost).1 (haway rv hhost)
  · exact h

theorem fits_iff {used live : ℕ → Bool} (heq : ∀ pn, Window pn → used pn = live pn) {s t : ℕ}
    (hs : GUEST_MMAP_BASE ≤ s * PAGE_SIZE) (h : FreeRange used s t HOST_MMAP_BASE) :
    FreeRange live s t HOST_MMAP_BASE := by
  refine ⟨fun pn hsp hpt => ?_, h.stop⟩
  have hlo := Nat.mul_le_mul_right PAGE_SIZE hsp
  have hhi := Nat.mul_le_mul_right PAGE_SIZE hpt
  rw [← heq pn ⟨hs.trans hlo, hhi.trans_lt h.stop⟩]
  exact h.free pn hsp hpt

theorem Ready.found (h : Ready p) (len : ℕ) :
    Ready { p with mem := (find_free p.mem GUEST_MMAP_BASE HOST_MMAP_BASE len).1 } := by
  obtain ⟨used, ht, heq⟩ := h.synced
  have hstop : HOST_MMAP_BASE ≤ 2 ^ 48 := by decide
  have hfree : Tracks (find_free p.mem GUEST_MMAP_BASE HOST_MMAP_BASE len).1 used :=
    find_free_tracks (a := 0x40000) ht hstop
  exact ⟨h.inited, ⟨used, hfree, heq⟩, h.away⟩

/-- `find_free` finds the first range that fits. -/
theorem Ready.find_free_eq (h : Ready p) {s : ℕ} (hs : FirstFit p.live len s) :
    (find_free p.mem GUEST_MMAP_BASE HOST_MMAP_BASE len).2 = s * PAGE_SIZE ∧ s * PAGE_SIZE ≠ 0 := by
  obtain ⟨used, ht, heq⟩ := h.synced
  have hstop : HOST_MMAP_BASE ≤ 2 ^ 48 := by decide
  obtain ⟨hlo, t, hst, hlen, hfree⟩ := hs.fits
  have hbase : 0x40000 ≤ s := Nat.le_of_mul_le_mul_right hlo (by decide : 0 < PAGE_SIZE)
  have hused := fits_iff (fun pn hpn => (heq pn hpn).symm) hlo hfree
  obtain ⟨hne, hle⟩ := find_free_first ht hstop (by decide) hbase hst hlen hused
  obtain ⟨s', t', hs', hlo', hst', hlen', hfree'⟩ := find_free_found ht hstop hne
  have hlow : GUEST_MMAP_BASE ≤ s' * PAGE_SIZE := Nat.mul_le_mul_right PAGE_SIZE hlo'
  have hfirst := hs.first s' ⟨hlow, t', hst', hlen', fits_iff heq hlow hfree'⟩
  have heqs : s' * PAGE_SIZE = s * PAGE_SIZE :=
    le_antisymm (hs'.symm.le.trans hle) (Nat.mul_le_mul_right PAGE_SIZE hfirst)
  rw [heqs] at hs'
  refine ⟨hs', ?_⟩
  rw [← hs']
  exact hne

/-- An mmap that the first check passes. -/
theorem guest_mmap_eq {c : Space.MmapCall} (hcheck : ¬ HOST_MMAP_BASE < (c.addr + c.len) % 2 ^ 64) :
    p.guest_mmap c =
      if c.addr = 0 then
        let found := find_free p.init_mmap.mem GUEST_MMAP_BASE HOST_MMAP_BASE c.len
        if found.2 = 0 then ({ p.init_mmap with mem := found.1 }, found.2)
        else { p.init_mmap with mem := found.1 }.mmapAt found.2 true c
      else p.init_mmap.mmapAt c.addr c.fixed c := by
  rw [Proc.guest_mmap, if_neg hcheck]

theorem guest_mmap_refused {c : Space.MmapCall}
    (hcheck : HOST_MMAP_BASE < (c.addr + c.len) % 2 ^ 64) : p.guest_mmap c = (p, MAP_FAILED) := by
  rw [Proc.guest_mmap, if_pos hcheck]

/-- An mmap with no address, where a range fits. -/
theorem guest_mmap_null (h : Inv p) {c : Space.MmapCall} (hzero : c.addr = 0)
    (hcheck : ¬ HOST_MMAP_BASE < (c.addr + c.len) % 2 ^ 64) {s : ℕ}
    (hs : FirstFit p.live c.len s) :
    p.guest_mmap c =
      { p.init_mmap with
        mem := (find_free p.init_mmap.mem GUEST_MMAP_BASE HOST_MMAP_BASE c.len).1 }.mmapAt
          (s * PAGE_SIZE) true c := by
  have hlive := (init_mmap_unchanged p).live
  rw [← hlive] at hs
  obtain ⟨hfound, hne⟩ := h.init_mmap.find_free_eq hs
  rw [guest_mmap_eq hcheck, if_pos hzero]
  simp only [hfound, if_neg hne]

theorem Inv.guest_mmap (h : Inv p) {c : Space.MmapCall} (hmeets : MeetsMmap p c) :
    Inv (p.guest_mmap c).1 := by
  by_cases hcheck : HOST_MMAP_BASE < (c.addr + c.len) % 2 ^ 64
  · rw [guest_mmap_refused hcheck]
    exact h
  obtain ⟨addr, fixed, hreq, haway⟩ := hmeets.resolve_left hcheck
  unfold Requests at hreq
  by_cases hzero : c.addr = 0
  · rw [if_pos hzero] at hreq
    obtain ⟨rfl, s, rfl, hs⟩ := hreq
    rw [guest_mmap_null h hzero hcheck hs]
    exact ((h.init_mmap.found c.len).mmapAt haway).inv
  · rw [if_neg hzero] at hreq
    obtain ⟨rfl, rfl⟩ := hreq
    rw [guest_mmap_eq hcheck, if_neg hzero]
    exact (h.init_mmap.mmapAt haway).inv

theorem Inv.guest_munmap (h : Inv p) {ok : Bool}
    (haway : hostMunmap addr len ok = true → Away addr len) :
    Inv (p.guest_munmap addr len ok).1 := by
  unfold Proc.guest_munmap
  simp only
  split
  · rename_i hok
    rw [hostMunmap, Bool.and_eq_true] at hok
    exact (h.init_mmap.placeMark false _ (of_decide_eq_true hok.2)
      (haway (by rw [hostMunmap, hok.1, hok.2, Bool.and_self]))).inv
  · exact h.init_mmap.inv

/-- A fixed mapping past the bitmap: its pages in the window are live already. -/
theorem Inv.place (h : Inv p) (hdvd : PAGE_SIZE ∣ addr) (content : Mem)
    (hlive : ∀ pn, InRange addr len pn → Window pn → p.live pn = true) :
    Inv (p.place addr len true content) := by
  have hwindow : ∀ b, Metadata b → Window (b / PAGE_SIZE) := by
    intro b hb
    obtain ⟨hlo, hhi⟩ := hb
    have hE : METADATA_END = 139646568763392 := rfl
    have hM : METADATA_BASE = 139637976727552 := rfl
    unfold Window GUEST_MMAP_BASE HOST_MMAP_BASE PAGE_SIZE
    omega
  have haway : Away addr len := by
    intro b hcov hb
    refine h.away b (hlive _ ⟨?_, hcov.2⟩ (hwindow b hb)) hb
    exact Nat.div_le_div_right hcov.1
  have heq : ∀ pn, Window pn →
      markRange true p.live (addr / PAGE_SIZE) (addr + len) pn = p.live pn := by
    intro pn hpn
    rw [markRange]
    split
    · rename_i hin
      exact (hlive pn hin hpn).symm
    · rfl
  refine ⟨fun hin => ?_, fun hnot pn hpn => ?_, h.away.markRange true hdvd haway⟩
  · obtain ⟨used, ht, hused⟩ := (h.synced hin).place true content haway
    exact ⟨used, ht, fun pn hpn => (hused pn hpn).trans (heq pn hpn).symm⟩
  · exact (heq pn hpn).trans (h.fresh hnot pn hpn)

/-- The bitmap and the live pages are all that the invariant is about. -/
theorem Inv.congr (h : Inv p) {p' : Proc} (hmem : p'.mem = p.mem)
    (hin : p'.map_inited = p.map_inited) (hlive : p'.live = p.live) : Inv p' := by
  refine ⟨?_, ?_, ?_⟩
  · rw [hmem, hin, hlive]
    exact h.synced
  · rw [hin, hlive]
    exact h.fresh
  · rw [hlive]
    exact h.away

theorem Inv.mmap (h : Inv p) {ok : Bool}
    (hlive : hostMmap (p.mmapStart addr) len true (if ok then some 0 else none) ≠ none →
      ∀ pn, InRange (p.mmapStart addr) len pn → Window pn → p.live pn = true) :
    Inv (p.mmap addr len ok).1 := by
  unfold Proc.mmap
  split
  · rename_i rv hhost
    obtain ⟨hmap, hrv⟩ := hostMmap_some hhost
    rw [hhost] at hlive
    rw [← hrv rfl] at hlive
    have hplace := h.place hmap.2.1 (fun _ => 0) (hlive (Option.some_ne_none rv))
    simp only
    split
    · exact hplace.congr rfl rfl rfl
    · exact hplace
  · exact h

theorem Inv.abi_sys_brk (h : Inv p) {new_brk : ℕ} {ok : Bool}
    (hmeets : (Op.brk new_brk ok).Meets p) : Inv (p.abi_sys_brk new_brk ok).1 := by
  unfold Proc.abi_sys_brk
  split
  · exact h
  split
  · exact h.congr rfl rfl rfl
  rename_i hgrow
  have hmmap := h.mmap (hmeets (Nat.lt_of_not_le hgrow))
  simp only
  split
  · exact hmmap
  · exact hmmap.congr rfl rfl rfl

theorem Inv.map_load_segment_user (h : Inv p) {c : Space.MmapCall} {brk : ℕ}
    (hmeets : MeetsMmap p c) : Inv (p.map_load_segment_user c brk) := by
  have hmmap := h.guest_mmap hmeets
  unfold Proc.map_load_segment_user
  simp only
  split
  · exact hmmap
  split
  · split
    · exact hmmap.congr rfl rfl rfl
    · exact hmmap.congr rfl rfl rfl
  · split
    · exact hmmap.congr rfl rfl rfl
    · exact hmmap

theorem Inv.step (h : Inv p) {op : Op} (hmeets : op.Meets p) : Inv (step p op) := by
  cases op with
  | mmap c => exact h.guest_mmap hmeets
  | munmap addr len ok => exact h.guest_munmap hmeets
  | brk new_brk ok => exact h.abi_sys_brk hmeets
  | segment c brk => exact h.map_load_segment_user hmeets

/-! ## The answers -/

theorem Unchanged.trans {p₁ p₂ : Proc} (h₁ : Unchanged p p₁) (h₂ : Unchanged p₁ p₂) :
    Unchanged p p₂ :=
  ⟨h₁.mem.trans h₂.mem, h₂.map_base.trans h₁.map_base, h₂.heap_begin.trans h₁.heap_begin,
    h₂.heap_end.trans h₁.heap_end, h₂.brk.trans h₁.brk, h₂.live.trans h₁.live⟩

theorem Fits.vacant {live : ℕ → Bool} {s : ℕ} (h : Fits live len s) :
    Vacant live (s * PAGE_SIZE) len := by
  obtain ⟨hlo, t, hst, hlen, hfree⟩ := h
  have hsum : s * PAGE_SIZE + (t - s) * PAGE_SIZE = t * PAGE_SIZE := by
    rw [← Nat.add_mul, Nat.add_sub_cancel' hst]
  have hend := hfree.stop
  refine ⟨hlo, by omega, Nat.dvd_mul_left _ _, fun pn hin => ?_⟩
  obtain ⟨hsp, hpt⟩ := hin
  rw [page_mul_div] at hsp
  have hlt : pn * PAGE_SIZE < t * PAGE_SIZE := by omega
  exact hfree.free pn hsp (Nat.lt_of_mul_lt_mul_right hlt).le

theorem Inv.answered (h : Inv p) {c : Space.MmapCall} (hmeets : MeetsMmap p c)
    (hzero : c.addr = 0) : Answered p c := by
  by_cases hcheck : HOST_MMAP_BASE < (c.addr + c.len) % 2 ^ 64
  · left
    rw [guest_mmap_refused hcheck]
    exact ⟨rfl, ⟨.refl _, rfl, rfl, rfl, rfl, rfl⟩⟩
  obtain ⟨addr, fixed, hreq, haway⟩ := hmeets.resolve_left hcheck
  rw [Requests, if_pos hzero] at hreq
  obtain ⟨rfl, s, rfl, hs⟩ := hreq
  rw [Answered, guest_mmap_null h hzero hcheck hs]
  unfold Proc.mmapAt
  split
  · rename_i rv hhost
    right
    rw [(hostMmap_some hhost).2 rfl]
    exact hs.fits.vacant
  · left
    have hfound : SameOutside p.init_mmap.mem
        (find_free p.init_mmap.mem GUEST_MMAP_BASE HOST_MMAP_BASE c.len).1 :=
      find_free_same _ (by decide)
    exact ⟨rfl, (init_mmap_unchanged p).trans ⟨hfound, rfl, rfl, rfl, rfl, rfl⟩⟩

theorem Inv.right (h : Inv p) {op : Op} (hmeets : op.Meets p) : op.Right p := by
  cases op with
  | mmap c => exact h.answered hmeets
  | munmap addr len ok => trivial
  | brk new_brk ok => trivial
  | segment c brk => exact h.answered hmeets

/-- An operation that meets the condition is right, and keeps the invariant for the rest. -/
theorem Inv.good (h : Inv p) {ops : List Op} (hmeets : RunMeets p ops) : Good p ops := by
  induction ops generalizing p with
  | nil => trivial
  | cons op ops ih =>
    obtain ⟨hop, hrest⟩ := hmeets
    exact ⟨h.right hop, (h.step hop).tracked, ih (h.step hop) hrest⟩

end

/-! ## Runs -/

theorem guest_mappings_tracked {p : Proc} (hstart : Start p) {ops : List Op}
    (hmeets : RunMeets p ops) : Good p ops :=
  hstart.inv.good hmeets

/-- Nothing is mapped yet. -/
def freshProc : Proc where
  mem := fun _ => 0
  map_inited := false
  map_base := HOST_MMAP_BASE
  heap_begin := 0x20000
  heap_end := 0x20000
  brk := 0x20000
  live := fun _ => false

theorem freshProc_start : Start freshProc := ⟨rfl, fun _ => rfl⟩

def pageMmap : Space.MmapCall := ⟨0, 4096, 3, 0x22, some (0, fun _ => 0)⟩

theorem guest_mappings_tracked_page : Good freshProc [.mmap pageMmap] := by
  refine guest_mappings_tracked freshProc_start ⟨.inr ⟨0x40000 * PAGE_SIZE, true, ?_, ?_⟩, trivial⟩
  · refine ⟨rfl, 0x40000, rfl, ⟨le_rfl, 0x40001, by decide, le_rfl, fun _ _ _ => rfl, by decide⟩,
      fun s' hs' => ?_⟩
    exact Nat.le_of_mul_le_mul_right hs'.1 (by decide : 0 < PAGE_SIZE)
  · intro rv hhost b hcov hb
    have hM : METADATA_BASE = 139637976727552 := rfl
    have hrange := hcov.2
    have hlo := hb.1
    have hlen : pageMmap.len = 4096 := rfl
    rw [(hostMmap_some hhost).2 rfl, hlen] at hrange
    unfold PAGE_SIZE at hrange
    omega

/-! ## Without the condition -/

/-- Where nothing fits, the answer is 0: no failure for the guest. -/
theorem Inv.guest_mmap_unfit {p : Proc} (h : Inv p) {c : Space.MmapCall} (hzero : c.addr = 0)
    (hcheck : ¬ HOST_MMAP_BASE < (c.addr + c.len) % 2 ^ 64)
    (hunfit : ∀ s, ¬ Fits p.live c.len s) : (p.guest_mmap c).2 = 0 := by
  have hnone : (find_free p.init_mmap.mem GUEST_MMAP_BASE HOST_MMAP_BASE c.len).2 = 0 := by
    by_contra hne
    obtain ⟨used, ht, heq⟩ := h.init_mmap.synced
    obtain ⟨s, t, -, hs, hst, hlen, hfree⟩ :=
      find_free_found (a := 0x40000) ht (by decide : HOST_MMAP_BASE ≤ 2 ^ 48) hne
    have hlow : GUEST_MMAP_BASE ≤ s * PAGE_SIZE := Nat.mul_le_mul_right PAGE_SIZE hs
    rw [(init_mmap_unchanged p).live] at heq
    exact hunfit s ⟨hlow, t, hst, hlen, fits_iff heq hlow hfree⟩
  rw [guest_mmap_eq hcheck, if_pos hzero]
  simp only [hnone, if_true]

theorem Inv.not_answered {p : Proc} (h : Inv p) {c : Space.MmapCall} (hzero : c.addr = 0)
    (hcheck : ¬ HOST_MMAP_BASE < (c.addr + c.len) % 2 ^ 64)
    (hunfit : ∀ s, ¬ Fits p.live c.len s) : ¬ Answered p c := by
  rw [Answered, h.guest_mmap_unfit hzero hcheck hunfit]
  rintro (⟨hfailed, -⟩ | hvacant)
  · cases hfailed
  · exact absurd hvacant.lower (by decide)

/-- Fresh zero bytes set no bit of the bitmap. -/
theorem page_present_place {p : Proc} {addr len pn : ℕ}
    (h : page_present (p.place addr len true fun _ => 0).mem (pn * PAGE_SIZE) = true) :
    page_present p.mem (pn * PAGE_SIZE) = true := by
  have hbit : ∀ bmap offset, testBmap (p.place addr len true fun _ => 0).mem bmap offset = true →
      testBmap p.mem bmap offset = true := by
    intro bmap offset htest
    simp only [testBmap, Proc.place] at htest ⊢
    split at htest
    · simp at htest
    · exact htest
  simp only [page_present, List.all_cons, List.all_nil, Bool.and_true, Bool.and_eq_true] at h ⊢
  exact ⟨hbit _ _ h.1, hbit _ _ h.2.1, hbit _ _ h.2.2⟩

/-- The pages by which the heap grows into the window are not in the bitmap. -/
theorem not_tracked_brk {p : Proc} (h : Inv p) {new_brk : ℕ} {ok : Bool}
    (hmeets : ¬ (Op.brk new_brk ok).Meets p) : ¬ Tracked (step p (.brk new_brk ok)) := by
  intro htracked
  refine hmeets fun hgrow hhost pn hin hpn => ?_
  obtain ⟨rv, hrv⟩ := Option.ne_none_iff_exists'.mp hhost
  obtain ⟨hmap, hstart⟩ := hostMmap_some hrv
  have heq := hstart rfl
  have hpos : new_brk ≠ 0 := Nat.ne_of_gt (Nat.zero_lt_of_lt hgrow)
  have hused := htracked pn hpn
  have hlive : (step p (.brk new_brk ok)).live pn = true ∧
      ((step p (.brk new_brk ok)).used pn = true → p.used pn = true) := by
    simp only [step, Proc.abi_sys_brk, if_neg hpos, if_neg (Nat.not_le.mpr hgrow), Proc.mmap, hrv,
      if_neg hmap.ne_failed]
    have hplace : (p.place rv (p.heapGrowth new_brk) true fun _ => 0).live pn = true := by
      simp only [Proc.place, markRange, heq]
      exact if_pos hin
    have hpresent : (p.place rv (p.heapGrowth new_brk) true fun _ => 0).used pn = true →
        p.used pn = true := by
      rw [Proc.used, Proc.used, Bool.and_eq_true, Bool.and_eq_true]
      exact fun hboth => ⟨hboth.1, page_present_place hboth.2⟩
    split
    · exact ⟨hplace, hpresent⟩
    · exact ⟨hplace, hpresent⟩
  rw [hlive.1] at hused
  rw [← h.tracked pn hpn]
  exact hlive.2 hused

/-- More than the window has. -/
def wideMmap : Space.MmapCall := ⟨0, HOST_MMAP_BASE, 3, 0x22, none⟩

theorem wideMmap_not_tracked : ¬ ∀ p ops, Start p → Good p ops := by
  intro hall
  refine freshProc_start.inv.not_answered (c := wideMmap) rfl (by decide) (fun s hfits => ?_)
    ((hall freshProc [.mmap wideMmap] freshProc_start).1 rfl)
  have hlower := hfits.vacant.lower
  have hupper := hfits.vacant.upper
  have hbase : 0 < GUEST_MMAP_BASE := by decide
  have hlen : wideMmap.len = HOST_MMAP_BASE := rfl
  omega

end RvCkpt.Tracker
