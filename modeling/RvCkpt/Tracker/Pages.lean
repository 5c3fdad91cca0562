import RvCkpt.Tracker.Bitmap

/-! # The pages of the bitmap

What the loops of `src/src/mem/mmap-core.c` do to the set of used pages, and what `find_free`
finds.
-/

namespace RvCkpt.Tracker
open ByteMem LazyBitmap
set_option autoImplicit false

/-- The bitmap in memory is that of the used pages. -/
def Tracks (m : Mem) (used : ℕ → Bool) : Prop :=
  ∃ L : Levels, Views m L ∧ L.Grouped 4096 8 ∧
    ∀ pn < 2 ^ 36, L.present 4096 pn = used pn

/-- Pages from `p` on, up to an address, are marked. -/
def markRange (v : Bool) (used : ℕ → Bool) (p stop : ℕ) : ℕ → Bool :=
  fun pn => if p ≤ pn ∧ pn * PAGE_SIZE < stop then v else used pn

section
variable {m : Mem} {used : ℕ → Bool}

theorem page_mul_div (p : ℕ) : p * PAGE_SIZE / PAGE_SIZE = p :=
  Nat.mul_div_cancel p (by decide)

theorem Tracks.present (h : Tracks m used) {p : ℕ} (hp : p * PAGE_SIZE < 2 ^ 48) :
    page_present m (p * PAGE_SIZE) = used p := by
  obtain ⟨L, hv, -, hused⟩ := h
  have hlt := page_lt hp
  rw [page_mul_div] at hlt
  rw [page_present_eq hv hp, page_mul_div, hused p hlt]

theorem Tracks.reify (h : Tracks m used) {p : ℕ} (hp : p * PAGE_SIZE < 2 ^ 48) :
    Tracks (reify_bmap m (p * PAGE_SIZE)) used := by
  obtain ⟨L, hv, hg, hused⟩ := h
  refine ⟨_, hv.reify hp, hg.reify (by decide) _, fun pn hpn => ?_⟩
  rw [Levels.present_reify (by decide) hg, hused pn hpn]

theorem Tracks.markPage (h : Tracks m used) {p : ℕ} (hp : p * PAGE_SIZE < 2 ^ 48) (v : Bool) :
    Tracks (markPage v (reify_bmap m (p * PAGE_SIZE)) (p * PAGE_SIZE))
      (Function.update used p v) := by
  obtain ⟨L, hv, hg, hused⟩ := h
  refine ⟨_, (hv.reify hp).markPage hp v, (hg.reify (by decide) _).set _ v, fun pn hpn => ?_⟩
  rw [Levels.present_set_reify (by decide) hg, page_mul_div, hused pn hpn, Function.update_apply]

theorem Tracks.congr (h : Tracks m used) {m' : Mem}
    (heq : ∀ b, METADATA_BASE ≤ b → b < METADATA_END → m' b = m b) : Tracks m' used := by
  obtain ⟨L, hv, hrest⟩ := h
  exact ⟨L, hv.congr heq, hrest⟩

/-- The bitmap's first page is mapped: no page is used. -/
theorem Tracks.init (m : Mem) : Tracks (mapPage m METADATA_BASE) fun _ => false := by
  refine ⟨⟨fun _ => false, fun j => bit (mapPage m METADATA_BASE) (8 * BMAP2 + j),
    fun i => bit (mapPage m METADATA_BASE) (8 * BMAP1 + i)⟩, ⟨fun k hk => ?_, fun _ _ => rfl,
    fun _ _ => rfl⟩, ⟨fun _ _ _ => rfl, fun _ _ hnot _ => nomatch hnot⟩, fun _ _ => rfl⟩
  have hin : METADATA_BASE ≤ (8 * METADATA_BASE + k) / 8 ∧
      (8 * METADATA_BASE + k) / 8 < METADATA_BASE + PAGE_SIZE := by
    unfold PAGE_SIZE
    omega
  rw [bit_mapPage, decide_eq_true hin, Bool.not_true, Bool.false_and]

theorem Tracks.markLoop (h : Tracks m used) (v : Bool) {p stop : ℕ} (hstop : stop ≤ 2 ^ 48) :
    Tracks (markLoop v m (p * PAGE_SIZE) stop) (markRange v used p stop) := by
  induction hn : stop - p * PAGE_SIZE using Nat.strongRecOn generalizing m used p with
  | _ n ih =>
    rw [Tracker.markLoop]
    by_cases hlt : p * PAGE_SIZE < stop
    · rw [if_pos hlt, ← Nat.succ_mul]
      have hdec : stop - (p + 1) * PAGE_SIZE < n := by
        rw [Nat.succ_mul]
        unfold PAGE_SIZE at hlt hn ⊢
        omega
      have hrec := ih _ hdec (h.markPage (hlt.trans_le hstop) v) rfl
      have heq : markRange v (Function.update used p v) (p + 1) stop =
          markRange v used p stop := by
        funext pn
        simp only [markRange, Function.update_apply]
        by_cases hpn : pn = p
        · subst hpn
          rw [if_neg (by omega), if_pos rfl, if_pos ⟨le_rfl, hlt⟩]
        · have hiff : p + 1 ≤ pn ↔ p ≤ pn := by omega
          rw [if_neg hpn]
          simp only [hiff]
      rwa [heq] at hrec
    · rw [if_neg hlt]
      have heq : markRange v used p stop = used := by
        funext pn
        rw [markRange, if_neg]
        intro hpn
        exact hlt ((Nat.mul_le_mul_right PAGE_SIZE hpn.1).trans_lt hpn.2)
      rwa [heq]

/-! ## Searching -/

/-- Free pages from `s` to `t`, the last of them before the end. -/
structure FreeRange (used : ℕ → Bool) (s t stop : ℕ) : Prop where
  free : ∀ pn, s ≤ pn → pn ≤ t → used pn = false
  stop : t * PAGE_SIZE < stop

theorem scanFree_found (h : Tracks m used) {stop len s a r : ℕ} (hstop : stop ≤ 2 ^ 48)
    (hsa : s ≤ a) (hfree : ∀ pn, s ≤ pn → pn < a → used pn = false)
    (hr : scanFree m stop len (s * PAGE_SIZE) (a * PAGE_SIZE) = .inl r) :
    r = s * PAGE_SIZE ∧ ∃ t, s ≤ t ∧ len ≤ (t - s) * PAGE_SIZE ∧ FreeRange used s t stop := by
  induction hn : stop - a * PAGE_SIZE using Nat.strongRecOn generalizing a with
  | _ n ih =>
    rw [scanFree] at hr
    split at hr
    · rename_i hcond
      have hlt : a * PAGE_SIZE < stop := hcond.1
      have hpage : used a = false := by
        have hpres := hcond.2
        rw [h.present (hlt.trans_le hstop)] at hpres
        exact Bool.eq_false_iff.mpr hpres
      have hfree' : ∀ pn, s ≤ pn → pn < a + 1 → used pn = false := by
        intro pn hs ha
        rcases Nat.lt_succ_iff_lt_or_eq.mp ha with hlt | heq
        · exact hfree pn hs hlt
        · rw [heq]
          exact hpage
      split at hr
      · rename_i hlen
        cases hr
        refine ⟨rfl, a, hsa, ?_, fun pn hs ha => hfree' pn hs (Nat.lt_succ_of_le ha), hlt⟩
        rwa [Nat.sub_mul]
      · rw [← Nat.succ_mul] at hr
        have hdec : stop - (a + 1) * PAGE_SIZE < n := by
          rw [Nat.succ_mul]
          unfold PAGE_SIZE at hlt hn ⊢
          omega
        exact ih _ hdec (Nat.le_succ_of_le hsa) hfree' hr rfl
    · cases hr

/-- Where the inner loop ends without a range, none that it passed is long enough. -/
theorem scanFree_ended (h : Tracks m used) {stop len s a r : ℕ} (hstop : stop ≤ 2 ^ 48)
    (hsa : s ≤ a) (hr : scanFree m stop len (s * PAGE_SIZE) (a * PAGE_SIZE) = .inr r) :
    ∃ b, a ≤ b ∧ r = b * PAGE_SIZE ∧ (stop ≤ r ∨ used b = true) ∧
      ∀ c, a ≤ c → c < b → (c - s) * PAGE_SIZE < len := by
  induction hn : stop - a * PAGE_SIZE using Nat.strongRecOn generalizing a with
  | _ n ih =>
    rw [scanFree] at hr
    split at hr
    · rename_i hcond
      have hlt : a * PAGE_SIZE < stop := hcond.1
      split at hr
      · cases hr
      · rename_i hlen
        rw [← Nat.succ_mul] at hr
        have hdec : stop - (a + 1) * PAGE_SIZE < n := by
          rw [Nat.succ_mul]
          unfold PAGE_SIZE at hlt hn ⊢
          omega
        obtain ⟨b, hab, hrb, hend, hshort⟩ := ih _ hdec (Nat.le_succ_of_le hsa) hr rfl
        refine ⟨b, Nat.le_of_succ_le hab, hrb, hend, fun c hac hcb => ?_⟩
        rcases Nat.eq_or_lt_of_le hac with heq | hlt
        · rw [← heq, Nat.sub_mul]
          exact Nat.lt_of_not_le hlen
        · exact hshort c hlt hcb
    · rename_i hcond
      cases hr
      refine ⟨a, le_rfl, rfl, ?_, fun c hac hca => absurd hac (Nat.not_le.mpr hca)⟩
      by_cases hlt : a * PAGE_SIZE < stop
      · right
        rw [← h.present (hlt.trans_le hstop)]
        by_contra hpres
        exact hcond ⟨hlt, hpres⟩
      · exact .inl (Nat.le_of_not_lt hlt)

theorem find_free_tracks (h : Tracks m used) {a stop len : ℕ} (hstop : stop ≤ 2 ^ 48) :
    Tracks (find_free m (a * PAGE_SIZE) stop len).1 used := by
  induction hn : stop - a * PAGE_SIZE using Nat.strongRecOn generalizing m a with
  | _ n ih =>
    rw [find_free]
    split
    · rename_i hlt
      have hreify := h.reify (hlt.trans_le hstop)
      simp only
      split
      · exact hreify
      · rename_i next hscan
        obtain ⟨b, hab, hrb, -⟩ := scanFree_ended hreify hstop le_rfl hscan
        rw [hrb, ← Nat.succ_mul]
        have hle := Nat.mul_le_mul_right PAGE_SIZE hab
        refine ih _ ?_ hreify rfl
        rw [Nat.succ_mul]
        unfold PAGE_SIZE at hlt hn hle ⊢
        omega
    · exact h

/-- What is found is free, and so is one page more. -/
theorem find_free_found (h : Tracks m used) {a stop len : ℕ} (hstop : stop ≤ 2 ^ 48)
    (hr : (find_free m (a * PAGE_SIZE) stop len).2 ≠ 0) :
    ∃ s t, (find_free m (a * PAGE_SIZE) stop len).2 = s * PAGE_SIZE ∧ a ≤ s ∧ s ≤ t ∧
      len ≤ (t - s) * PAGE_SIZE ∧ FreeRange used s t stop := by
  induction hn : stop - a * PAGE_SIZE using Nat.strongRecOn generalizing m a with
  | _ n ih =>
    rw [find_free] at hr ⊢
    split at hr
    · rename_i hlt
      have hreify := h.reify (hlt.trans_le hstop)
      rw [if_pos hlt]
      simp only at hr ⊢
      split at hr
      · rename_i r hscan
        obtain ⟨hrs, t, hst, hlen, hfree⟩ := scanFree_found hreify hstop le_rfl
          (fun pn hs ha => absurd hs (Nat.not_le.mpr ha)) hscan
        exact ⟨a, t, hrs, le_rfl, hst, hlen, hfree⟩
      · rename_i next hscan
        obtain ⟨b, hab, hrb, -⟩ := scanFree_ended hreify hstop le_rfl hscan
        rw [hrb, ← Nat.succ_mul] at hr ⊢
        have hle := Nat.mul_le_mul_right PAGE_SIZE hab
        have hdec : stop - (b + 1) * PAGE_SIZE < n := by
          rw [Nat.succ_mul]
          unfold PAGE_SIZE at hlt hn hle ⊢
          omega
        obtain ⟨s, t, heq, hbs, hrest⟩ := ih _ hdec hreify hr rfl
        exact ⟨s, t, heq, by omega, hrest⟩
    · exact absurd rfl hr

/-- Free pages for the length and one more are found, or others before them. -/
theorem find_free_first (h : Tracks m used) {a stop len s t : ℕ} (hstop : stop ≤ 2 ^ 48)
    (ha : 0 < a) (has : a ≤ s) (hst : s ≤ t) (hlen : len ≤ (t - s) * PAGE_SIZE)
    (hfree : FreeRange used s t stop) :
    (find_free m (a * PAGE_SIZE) stop len).2 ≠ 0 ∧
      (find_free m (a * PAGE_SIZE) stop len).2 ≤ s * PAGE_SIZE := by
  induction hn : stop - a * PAGE_SIZE using Nat.strongRecOn generalizing m a with
  | _ n ih =>
    have hle : a * PAGE_SIZE ≤ t * PAGE_SIZE := Nat.mul_le_mul_right PAGE_SIZE (has.trans hst)
    have hlt : a * PAGE_SIZE < stop := hle.trans_lt hfree.stop
    have hreify := h.reify (hlt.trans_le hstop)
    rw [find_free, if_pos hlt]
    simp only
    split
    · rename_i r hscan
      obtain ⟨hrs, -⟩ := scanFree_found hreify hstop le_rfl
        (fun pn hs ha => absurd hs (Nat.not_le.mpr ha)) hscan
      rw [hrs]
      exact ⟨(Nat.mul_pos ha (by decide)).ne', Nat.mul_le_mul_right _ has⟩
    · rename_i next hscan
      obtain ⟨b, hab, hrb, hend, hshort⟩ := scanFree_ended hreify hstop le_rfl hscan
      have hbs : b < s := by
        by_contra hsb
        have htb : t < b := by
          rcases hend with hstopb | husedb
          · rw [hrb] at hstopb
            exact Nat.lt_of_mul_lt_mul_right (hfree.stop.trans_le hstopb)
          · by_contra hbt
            have hnot := hfree.free b (Nat.le_of_not_lt hsb) (Nat.le_of_not_lt hbt)
            rw [husedb] at hnot
            cases hnot
        have hshort' := hshort t (has.trans hst) htb
        have hmono : (t - s) * PAGE_SIZE ≤ (t - a) * PAGE_SIZE :=
          Nat.mul_le_mul_right _ (by omega)
        omega
      have hleb := Nat.mul_le_mul_right PAGE_SIZE hab
      rw [hrb, ← Nat.succ_mul]
      refine ih _ ?_ hreify (Nat.succ_pos b) hbs rfl
      rw [Nat.succ_mul]
      unfold PAGE_SIZE at hlt hn hleb ⊢
      omega

end

end RvCkpt.Tracker
