import RvCkpt.Tracker.Pages

/-! # What `find_free` finds

The bitmap after any marks, clears and searches, against the set of used pages. The inner loop of
`find_free` looks at a page more than the length has before it returns.
-/

namespace RvCkpt.Tracker
open ByteMem LazyBitmap
set_option autoImplicit false

/-! ## Operations on the bitmap -/

/-- A range from a page on. The bitmap has the bits of 48-bit addresses. -/
structure PageRange where
  page : ℕ
  len : ℕ
  bound : page * PAGE_SIZE + len ≤ 2 ^ 48

/-- The page is one of the range's. -/
def PageRange.Has (r : PageRange) (pn : ℕ) : Prop :=
  r.page ≤ pn ∧ pn * PAGE_SIZE < r.page * PAGE_SIZE + r.len

instance instDecidableHas (r : PageRange) (pn : ℕ) : Decidable (r.Has pn) :=
  inferInstanceAs (Decidable (_ ∧ _))

inductive BitmapOp
  | mark_used (r : PageRange)
  | mark_free (r : PageRange)
  | find_free (len : ℕ)

/-- The search of `__guest_mmap`. -/
def searchGuest (m : Mem) (len : ℕ) : Mem × ℕ := find_free m GUEST_MMAP_BASE HOST_MMAP_BASE len

def BitmapOp.step (m : Mem) : BitmapOp → Mem
  | .mark_used r => Tracker.mark_used m (r.page * PAGE_SIZE) r.len
  | .mark_free r => Tracker.mark_free m (r.page * PAGE_SIZE) r.len
  | .find_free len => (searchGuest m len).1

/-- The memory after `init_mmap` and the operations. -/
def bitmapAfter (m : Mem) (ops : List BitmapOp) : Mem :=
  ops.foldl BitmapOp.step (mapPage m METADATA_BASE)

/-! ## The property -/

/-- The set of used pages after an operation. -/
def BitmapOp.pages (used : ℕ → Bool) : BitmapOp → ℕ → Bool
  | .mark_used r => fun pn => if r.Has pn then true else used pn
  | .mark_free r => fun pn => if r.Has pn then false else used pn
  | .find_free _ => used

def usedAfter (ops : List BitmapOp) : ℕ → Bool := ops.foldl BitmapOp.pages fun _ => false

/-- The pages of a length, the last one perhaps in part. -/
def pagesOf (len : ℕ) : ℕ := (len + (PAGE_SIZE - 1)) / PAGE_SIZE

/-- Free pages for the length from `s` on, inside the guest's window. -/
structure FreeRun (used : ℕ → Bool) (len s : ℕ) : Prop where
  lower : GUEST_MMAP_BASE ≤ s * PAGE_SIZE
  upper : (s + pagesOf len) * PAGE_SIZE ≤ HOST_MMAP_BASE
  free : ∀ pn, s ≤ pn → pn < s + pagesOf len → used pn = false

structure FirstRun (used : ℕ → Bool) (len s : ℕ) : Prop where
  run : FreeRun used len s
  first : ∀ s', FreeRun used len s' → s ≤ s'

structure BitmapRight (m : Mem) (used : ℕ → Bool) (len : ℕ) : Prop where
  found : ∀ s, FirstRun used len s → (searchGuest m len).2 = s * PAGE_SIZE
  failed : (∀ s, ¬ FreeRun used len s) → (searchGuest m len).2 = 0
  marked : ∀ (r : PageRange) (pn : ℕ), pn * PAGE_SIZE < 2 ^ 48 →
    page_present (mark_used m (r.page * PAGE_SIZE) r.len) (pn * PAGE_SIZE) =
      if r.Has pn then true else page_present m (pn * PAGE_SIZE)
  cleared : ∀ (r : PageRange) (pn : ℕ), pn * PAGE_SIZE < 2 ^ 48 →
    page_present (mark_free m (r.page * PAGE_SIZE) r.len) (pn * PAGE_SIZE) =
      if r.Has pn then false else page_present m (pn * PAGE_SIZE)

/-- The page after the first run is free as well, and in the window. -/
def NextFree (used : ℕ → Bool) (len : ℕ) : Prop :=
  ∀ s, FirstRun used len s →
    used (s + pagesOf len) = false ∧ (s + pagesOf len) * PAGE_SIZE < HOST_MMAP_BASE

/-! ## Steps -/

section
variable {m : Mem} {used : ℕ → Bool}

theorem Tracks.mark (h : Tracks m used) (v : Bool) (r : PageRange) :
    Tracks (Tracker.markLoop v m (r.page * PAGE_SIZE) (r.page * PAGE_SIZE + r.len))
      fun pn => if r.Has pn then v else used pn :=
  h.markLoop v r.bound

theorem Tracks.search (h : Tracks m used) (len : ℕ) : Tracks (searchGuest m len).1 used :=
  find_free_tracks (a := 0x40000) h (by decide)

theorem Tracks.step (h : Tracks m used) (op : BitmapOp) : Tracks (op.step m) (op.pages used) := by
  cases op with
  | mark_used r => exact h.mark true r
  | mark_free r => exact h.mark false r
  | find_free len => exact h.search len

theorem Tracks.foldl (h : Tracks m used) (ops : List BitmapOp) :
    Tracks (ops.foldl BitmapOp.step m) (ops.foldl BitmapOp.pages used) := by
  induction ops generalizing m used with
  | nil => exact h
  | cons op ops ih => exact ih (h.step op)

theorem bitmapAfter_tracks (m : Mem) (ops : List BitmapOp) :
    Tracks (bitmapAfter m ops) (usedAfter ops) :=
  (Tracks.init m).foldl ops

theorem Tracks.present_mark (h : Tracks m used) (v : Bool) (r : PageRange) {pn : ℕ}
    (hpn : pn * PAGE_SIZE < 2 ^ 48) :
    page_present (Tracker.markLoop v m (r.page * PAGE_SIZE) (r.page * PAGE_SIZE + r.len))
        (pn * PAGE_SIZE) = if r.Has pn then v else page_present m (pn * PAGE_SIZE) := by
  rw [(h.mark v r).present hpn, h.present hpn]

/-! ## Runs -/

theorem pagesOf_le {len n : ℕ} (h : len ≤ n * PAGE_SIZE) : pagesOf len ≤ n := by
  unfold pagesOf
  unfold PAGE_SIZE at h ⊢
  omega

theorem le_pagesOf (len : ℕ) : len ≤ pagesOf len * PAGE_SIZE := by
  unfold pagesOf PAGE_SIZE
  omega

theorem window_page {s : ℕ} (h : GUEST_MMAP_BASE ≤ s * PAGE_SIZE) : 0x40000 ≤ s :=
  Nat.le_of_mul_le_mul_right h (by decide : 0 < PAGE_SIZE)

theorem FirstRun.of_run {len s : ℕ} (h : FreeRun used len s) :
    ∃ s', FirstRun used len s' := by
  classical
  have hex : ∃ s, FreeRun used len s := ⟨s, h⟩
  exact ⟨Nat.find hex, Nat.find_spec hex, fun s' hs' => Nat.find_min' hex hs'⟩

/-- The bitmap is right: something is found exactly where there is a run. -/
theorem BitmapRight.found_iff {len : ℕ} (h : BitmapRight m used len) :
    (searchGuest m len).2 ≠ 0 ↔ ∃ s, FreeRun used len s := by
  constructor
  · intro hne
    by_contra hnone
    exact hne (h.failed fun s hs => hnone ⟨s, hs⟩)
  · rintro ⟨s, hs⟩
    obtain ⟨s', hs'⟩ := FirstRun.of_run hs
    rw [h.found s' hs']
    exact (Nat.lt_of_lt_of_le (by decide) hs'.run.lower).ne'

/-- What is found is a run, and the page after it is free. -/
theorem Tracks.found_next (h : Tracks m used) {len : ℕ} (hne : (searchGuest m len).2 ≠ 0) :
    ∃ s, (searchGuest m len).2 = s * PAGE_SIZE ∧ FreeRun used len s ∧
      used (s + pagesOf len) = false ∧ (s + pagesOf len) * PAGE_SIZE < HOST_MMAP_BASE := by
  obtain ⟨s, t, heq, hlow, hst, hlen, hfree⟩ :=
    find_free_found (a := 0x40000) h (by decide : HOST_MMAP_BASE ≤ 2 ^ 48) hne
  have hpages : pagesOf len ≤ t - s := pagesOf_le hlen
  have hnext : (s + pagesOf len) * PAGE_SIZE < HOST_MMAP_BASE :=
    (Nat.mul_le_mul_right PAGE_SIZE (by omega)).trans_lt hfree.stop
  refine ⟨s, heq, ⟨Nat.mul_le_mul_right PAGE_SIZE hlow, hnext.le, fun pn hs hpn => ?_⟩, ?_, hnext⟩
  · exact hfree.free pn hs (by omega)
  · exact hfree.free _ (Nat.le_add_right _ _) (by omega)

/-- Where the page after the first run is free, the run is found. -/
theorem Tracks.found_first (h : Tracks m used) {len s : ℕ} (hs : FirstRun used len s)
    (hfree : used (s + pagesOf len) = false)
    (hnext : (s + pagesOf len) * PAGE_SIZE < HOST_MMAP_BASE) :
    (searchGuest m len).2 = s * PAGE_SIZE := by
  have hrange : FreeRange used s (s + pagesOf len) HOST_MMAP_BASE := by
    refine ⟨fun pn hsp hpn => ?_, hnext⟩
    rcases Nat.eq_or_lt_of_le hpn with heq | hlt
    · rw [heq]
      exact hfree
    · exact hs.run.free pn hsp hlt
  have hlen : len ≤ (s + pagesOf len - s) * PAGE_SIZE := by
    rw [Nat.add_sub_cancel_left]
    exact le_pagesOf len
  obtain ⟨hne, hle⟩ := find_free_first h (by decide : HOST_MMAP_BASE ≤ 2 ^ 48) (by decide)
    (window_page hs.run.lower) (Nat.le_add_right _ _) hlen hrange
  obtain ⟨s', heq, hrun', -⟩ := h.found_next hne
  have hle' : s' * PAGE_SIZE ≤ s * PAGE_SIZE := heq.symm.le.trans hle
  rw [heq]
  exact le_antisymm hle' (Nat.mul_le_mul_right PAGE_SIZE (hs.first s' hrun'))

/-- A run is only found with a free page behind it. -/
theorem Tracks.next_of_found (h : Tracks m used) {len s : ℕ} (hs : FirstRun used len s)
    (heq : (searchGuest m len).2 = s * PAGE_SIZE) :
    used (s + pagesOf len) = false ∧ (s + pagesOf len) * PAGE_SIZE < HOST_MMAP_BASE := by
  have hpos : 0 < s * PAGE_SIZE := Nat.lt_of_lt_of_le (by decide) hs.run.lower
  obtain ⟨s', heq', -, hnext⟩ := h.found_next (heq.trans_ne hpos.ne')
  have hpage : s' = s := Nat.eq_of_mul_eq_mul_right (by decide : 0 < PAGE_SIZE)
    (heq'.symm.trans heq)
  rwa [hpage] at hnext

theorem Tracks.right_iff (h : Tracks m used) (len : ℕ) :
    BitmapRight m used len ↔ NextFree used len := by
  constructor
  · intro hright s hs
    exact h.next_of_found hs (hright.found s hs)
  · intro hnext
    refine ⟨fun s hs => h.found_first hs (hnext s hs).1 (hnext s hs).2, fun hnone => ?_,
      fun r pn hpn => h.present_mark true r hpn, fun r pn hpn => h.present_mark false r hpn⟩
    by_contra hne
    obtain ⟨s, -, hrun, -⟩ := h.found_next hne
    exact hnone s hrun

end

/-- After any operations, for any length. -/
theorem find_free_right_iff (m : Mem) (ops : List BitmapOp) (len : ℕ) :
    BitmapRight (bitmapAfter m ops) (usedAfter ops) len ↔ NextFree (usedAfter ops) len :=
  (bitmapAfter_tracks m ops).right_iff len

/-- All pages of the window but the last one. -/
def allButLast : PageRange := ⟨0x40000, HOST_MMAP_BASE - GUEST_MMAP_BASE - 4096, by decide⟩

theorem lastPage_not_found :
    ¬ ∀ m ops len, BitmapRight (bitmapAfter m ops) (usedAfter ops) len := by
  intro hall
  have hused : ∀ pn, usedAfter [.mark_used allButLast] pn = decide (allButLast.Has pn) := by
    intro pn
    by_cases hpn : allButLast.Has pn
    · simp [usedAfter, BitmapOp.pages, hpn]
    · simp [usedAfter, BitmapOp.pages, hpn]
  have hlast : FirstRun (usedAfter [.mark_used allButLast]) 4096 0x7ffefffff := by
    refine ⟨⟨by decide, by decide, fun pn hlo hhi => ?_⟩, fun s hs => ?_⟩
    · have hone : pagesOf 4096 = 1 := by decide
      have hpn : pn = 0x7ffefffff := by omega
      rw [hpn, hused]
      decide
    · by_contra hlt
      have hfree := hs.free s le_rfl (Nat.lt_add_of_pos_right (by decide))
      have hlow := window_page hs.lower
      have hin : allButLast.Has s := by
        refine ⟨hlow, ?_⟩
        have hlen : allButLast.page * PAGE_SIZE + allButLast.len = 0x7ffefffff * 4096 := by decide
        rw [hlen]
        unfold PAGE_SIZE
        omega
      rw [hused, decide_eq_true hin] at hfree
      cases hfree
  have htracks := bitmapAfter_tracks (fun _ => 0) [.mark_used allButLast]
  have hnext := (htracks.next_of_found hlast ((hall _ _ _).found _ hlast)).2
  exact absurd hnext (by decide)

end RvCkpt.Tracker
