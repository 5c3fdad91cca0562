import RvCkpt.Parse.LogRoundTrip

/-! # Rebuilding a checkpoint

What `main` has read when it comes to the end of a checkpoint's lines: the checkpoint as it was
recorded, or nothing when its output exists already.
-/

namespace RvCkpt.Parse
open ByteMem Text State
set_option autoImplicit false

/-! ## Page and counter tables -/

section
variable (d : Draft)

theorem foldl_addPage {pages : List (Σ _ : ℕ, PageRec)} (hnodup : pages.NodupKeys)
    (hcounts : ∀ pn, d.counts.lookup pn = none) :
    ∃ m c, pages.foldl addPage d = { d with pages := m, counts := c } ∧
      (∀ pn, m.lookup pn = ((pages.dlookup pn).map pageOf).or (d.pages.lookup pn)) ∧
      ∀ pn, c.lookup pn = none := by
  induction pages generalizing d with
  | nil => exact ⟨d.pages, d.counts, rfl, fun pn => rfl, hcounts⟩
  | cons page pages ih =>
    obtain ⟨pn', p⟩ := page
    obtain ⟨hnotin, hnodup⟩ := List.nodupKeys_cons.mp hnodup
    have hcounts' : ∀ pn, (addPage d ⟨pn', p⟩).counts.lookup pn = none := by
      intro pn
      by_cases hpn : pn = pn'
      · rw [hpn]
        exact AList.lookup_erase pn' d.counts
      · exact (AList.lookup_erase_ne hpn).trans (hcounts pn)
    obtain ⟨m, c, heq, hm, hc⟩ := ih (addPage d ⟨pn', p⟩) hnodup hcounts'
    refine ⟨m, c, heq, fun pn => ?_, hc⟩
    rw [hm]
    by_cases hpn : pn = pn'
    · obtain rfl := hpn
      rw [List.dlookup_eq_none.mpr hnotin, List.dlookup_cons_eq]
      exact AList.lookup_insert d.pages
    · rw [List.dlookup_cons_ne _ _ hpn]
      congr 1
      exact AList.lookup_insert_ne hpn

theorem foldl_addExec {execs : List (Σ _ : ℕ, ExecRec)} (hnodup : execs.NodupKeys)
    (hpages : ∀ pn ∈ execs.keys, (d.pages.lookup pn).isSome) :
    ∃ m c, execs.foldl addExec d = { d with pages := m, counts := c } ∧
      (∀ pn, m.lookup pn = d.pages.lookup pn) ∧
      ∀ pn, c.lookup pn = ((execs.dlookup pn).map countsList).or (d.counts.lookup pn) := by
  induction execs generalizing d with
  | nil => exact ⟨d.pages, d.counts, rfl, fun pn => rfl, fun pn => rfl⟩
  | cons exec execs ih =>
    obtain ⟨pn', e⟩ := exec
    obtain ⟨hnotin, hnodup⟩ := List.nodupKeys_cons.mp hnodup
    have hkeep : ∀ pn, (addExec d ⟨pn', e⟩).pages.lookup pn = d.pages.lookup pn := by
      intro pn
      by_cases hpn : pn = pn'
      · obtain rfl := hpn
        obtain ⟨page, hpage⟩ := Option.isSome_iff_exists.mp (hpages pn (by simp))
        rw [hpage, addExec]
        dsimp only
        rw [AList.lookup_insert, PageMap.getItem, hpage]
        rfl
      · exact AList.lookup_insert_ne hpn
    have hpages' : ∀ pn ∈ execs.keys, ((addExec d ⟨pn', e⟩).pages.lookup pn).isSome := by
      intro pn hpn
      rw [hkeep]
      exact hpages pn (by rw [List.keys_cons]; exact List.mem_cons_of_mem _ hpn)
    obtain ⟨m, c, heq, hm, hc⟩ := ih (addExec d ⟨pn', e⟩) hnodup hpages'
    refine ⟨m, c, heq, fun pn => (hm pn).trans (hkeep pn), fun pn => ?_⟩
    rw [hc]
    by_cases hpn : pn = pn'
    · obtain rfl := hpn
      rw [List.dlookup_eq_none.mpr hnotin, List.dlookup_cons_eq]
      exact AList.lookup_insert d.counts
    · rw [List.dlookup_cons_ne _ _ hpn]
      congr 1
      exact AList.lookup_insert_ne hpn

end

variable {dir : Directory}

/-! ## The store list -/

def storesOf (T : MemTrace) (live : Mem) : List (ℕ × ℕ × ℕ) :=
  (List.range STREC_SIZE).filterMap fun i =>
    if (T.stores i).addr ≠ 0 then
      some ((T.stores i).addr, (T.stores i).size,
        (live.read (T.stores i).addr (T.stores i).size).toNat)
    else none

def storeItem (s : ℕ × ℕ × ℕ) : LogItem := .store s.1 s.2.1 (BitVec.ofNat 64 s.2.2)

theorem storeItems_eq (T : MemTrace) (live : Mem) :
    Manager.storeItems T live = (storesOf T live).map storeItem := by
  rw [Manager.storeItems, storesOf, List.map_filterMap]
  apply List.filterMap_congr
  intro i _
  by_cases haddr : (T.stores i).addr ≠ 0
  · rw [if_pos haddr, if_pos haddr, Option.map_some, storeItem, BitVec.ofNat_toNat,
      BitVec.setWidth_eq]
  · rw [if_neg haddr, if_neg haddr]
    rfl

/-- A store that fits its size, which fits a word. -/
def StoreFits (s : ℕ × ℕ × ℕ) : Prop := 0 < s.2.1 ∧ s.2.1 ≤ 8 ∧ s.2.2 < 256 ^ s.2.1

theorem storesOf_fits {T : MemTrace} (h : T.Consistent) (live : Mem) :
    ∀ s ∈ storesOf T live, StoreFits s := by
  intro s hs
  obtain ⟨i, -, hi⟩ := List.mem_filterMap.mp hs
  by_cases haddr : (T.stores i).addr ≠ 0
  · rw [if_pos haddr] at hi
    obtain rfl := Option.some.inj hi
    obtain ⟨w, hw⟩ := h.sized i haddr
    refine ⟨hw ▸ w.bytes_pos, hw ▸ w.bytes_le, ?_⟩
    rw [Mem.read, BitVec.toNat_ofNat]
    exact (Nat.mod_le _ _).trans_lt (leNat_lt _ _)
  · rw [if_neg haddr] at hi
    cases hi

theorem reads_store {st : State} {d : Draft} (hcur : st.cur = some d) {s : ℕ × ℕ × ℕ}
    (hs : StoreFits s) :
    Reads dir st (storeItem s).text (st.withCur { d with stores := d.stores ++ [s] }) := by
  obtain ⟨addr, size, data⟩ := s
  obtain ⟨hpos, hle, hlt⟩ := hs
  dsimp only at hpos hle hlt
  have hbig : data < 2 ^ 64 := hlt.trans_le <|
    calc 256 ^ size ≤ 256 ^ 8 := Nat.pow_le_pow_right (by decide) hle
      _ = 2 ^ 64 := by decide
  have hdata : (BitVec.ofNat 64 data).toNat = data := by
    rw [BitVec.toNat_ofNat, Nat.mod_eq_of_lt hbig]
  have hlen : (padded 16 (size * 2) data).length = size * 2 := by
    refine padded_length (by decide) (by omega) (hlt.trans_eq ?_)
    rw [Nat.mul_comm, Nat.pow_mul]
  have hdigits : (padded 16 (size * 2) data).all (isDigit 16) = true :=
    padded_digits (by decide) (by decide) _ _
  have hws : ∀ w ∈ ["store".toList, prefixedHex addr, padded 16 (size * 2) data], Word w := by
    simpa using ⟨by decide, word_prefixedHex addr,
      word_of_digits (b := 16) le_rfl (padded_ne_nil 16 _ _) hdigits⟩
  have hread : readHex (padded 16 (size * 2) data) = some data := by
    rw [readHex_eq hdigits]
    exact readDigits_padded (by decide) (by decide) _ _
  rw [storeItem, LogItem.text]
  dsimp only
  rw [hdata]
  apply reads_line (line_unwords hws)
  rw [readLine_store (words_unwords hws), readStore, hcur]
  dsimp only
  simp only [List.getElem?_cons_zero, List.getElem?_cons_succ, Option.bind_eq_bind,
    Option.bind_some, readHex_prefixedHex, hread]
  rw [hlen, Nat.mul_div_cancel _ (by decide)]
  rfl

theorem reads_stores {st : State} {d : Draft} (hcur : st.cur = some d) {ss : List (ℕ × ℕ × ℕ)}
    (hss : ∀ s ∈ ss, StoreFits s) :
    Reads dir st (logText (ss.map storeItem))
      (st.withCur { d with stores := d.stores ++ ss }) := by
  induction ss generalizing st d with
  | nil =>
    have hsame : st.withCur { d with stores := d.stores ++ [] } = st := by
      rw [List.append_nil, withCur, ← hcur]
    rw [hsame]
    exact .nil st
  | cons s ss ih =>
    have hfirst : Reads dir st (storeItem s).text
        (st.withCur { d with stores := d.stores ++ [s] }) := reads_store hcur (hss s (by simp))
    have hrest := hfirst.append (ih (withCur_cur st _) fun s' hs' => hss s' (by simp [hs']))
    rw [withCur_withCur, List.append_assoc, List.singleton_append] at hrest
    exact hrest

/-! ## The lines of a checkpoint that is skipped -/

section
variable {st : State}

theorem skips_page (hcur : st.cur = none) (pn : ℕ) : Reads dir st (pageLine pn) st := by
  have hws := forall_words_two (show Word "page".toList by decide) (word_prefixedHex pn)
  apply reads_line (line_unwords hws)
  rw [readLine_page (words_unwords hws), readPage, hcur]
  rfl

theorem skips_exec (hcur : st.cur = none) (pn : ℕ) : Reads dir st (execLine pn) st := by
  have hws := forall_words_two (show Word "exec".toList by decide) (word_prefixedHex pn)
  apply reads_line (line_unwords hws)
  rw [readLine_exec (words_unwords hws), readExec, hcur]
  rfl

theorem skips_store (hcur : st.cur = none) (s : ℕ × ℕ × ℕ) :
    Reads dir st (storeItem s).text st := by
  obtain ⟨addr, size, data⟩ := s
  have hws : ∀ w ∈ ["store".toList, prefixedHex addr,
      padded 16 (size * 2) (BitVec.ofNat 64 data).toNat], Word w := by
    simpa using ⟨by decide, word_prefixedHex addr, word_of_digits (b := 16) le_rfl
      (padded_ne_nil 16 _ _) (padded_digits (by decide) (by decide) _ _)⟩
  apply reads_line (line_unwords hws)
  rw [readLine_store (words_unwords hws), readStore, hcur]
  rfl

theorem skips_all {α : Type} {text : α → List Char} (h : ∀ a, Reads dir st (text a) st)
    (l : List α) : Reads dir st (l.flatMap text) st := by
  induction l with
  | nil => exact .nil st
  | cons a l ih => exact (h a).append ih

end

/-! ## The `file` line -/

/-- The extension is cut off. -/
theorem splitext_dump {root : List Char} (h : root.all (· = '.') = false) :
    splitext (root ++ ".dump".toList) = root := by
  have hdrop : (root ++ ".dump".toList).reverse.dropWhile (· ≠ '.') = '.' :: root.reverse := by
    rw [List.reverse_append]
    rfl
  rw [splitext, hdrop]
  dsimp only
  rw [List.all_reverse, h, List.reverse_reverse]
  rfl

theorem splitext_fileName (beginInstret instret : BitVec 64) :
    splitext (fileName beginInstret instret) = fileRoot beginInstret instret :=
  splitext_dump rfl

theorem not_blank_of_digits {cs : List Char} (h : cs.all (isDigit 10) = true) :
    ∀ c ∈ cs, blank c = false :=
  fun c hc => digit_not_blank (by decide) (List.all_eq_true.mp h c hc)

theorem word_fileName (beginInstret instret : BitVec 64) :
    Word (fileName beginInstret instret) := by
  have hstart : Word "checkpoint_".toList := by decide
  have hdigits : ∀ x : BitVec 64, ∀ c ∈ padded 10 19 x.toNat, blank c = false := fun x =>
    not_blank_of_digits (padded_digits (by decide) (by decide) 19 x.toNat)
  have hend : ∀ c ∈ '_' :: padded 10 19 instret.toNat, blank c = false := by
    intro c hc
    rcases List.mem_cons.mp hc with rfl | hc
    · decide
    · exact hdigits instret c hc
  have hdump : Word ".dump".toList := by decide
  exact ((hstart.append (hdigits beginInstret)).append hend).append hdump.2

/-- The name of a dump file tells where its interval began. -/
theorem fileName_inj {b b' e e' : BitVec 64} (h : fileName b e = fileName b' e') : b = b' := by
  rw [fileName, fileName] at h
  have hroot := List.append_cancel_right h
  unfold fileRoot at hroot
  simp only [List.append_assoc] at hroot
  have htake : ∀ x y : BitVec 64, (padded 10 19 x.toNat ++ '_' :: padded 10 19 y.toNat).takeWhile
      (· ≠ '_') = padded 10 19 x.toNat := by
    intro x y
    rw [List.takeWhile_append_of_pos]
    · rw [List.takeWhile_cons_of_neg (by decide), List.append_nil]
    · intro c hc
      have hdigit := List.all_eq_true.mp
        (padded_digits (b := 10) (by decide) (by decide) 19 x.toNat) c hc
      rw [decide_eq_true_eq]
      rintro rfl
      exact absurd hdigit (by decide)
  have hpadded := congrArg (List.takeWhile (· ≠ '_')) ((List.append_right_inj _).mp hroot)
  rw [htake, htake] at hpadded
  exact BitVec.eq_of_toNat_eq (padded_inj (by decide) (by decide) hpadded)

section
variable {st : State} {d : Draft} (beginInstret instret : BitVec 64)

theorem words_file :
    words (unwords ["file".toList, fileName beginInstret instret]) =
      ["file".toList, fileName beginInstret instret] :=
  words_unwords (forall_words_two (by decide) (word_fileName beginInstret instret))

theorem line_file : Line (unwords ["file".toList, fileName beginInstret instret]) :=
  line_unwords (forall_words_two (by decide) (word_fileName beginInstret instret))

theorem opens_file (hcur : st.cur = some d) {bytes : List Byte}
    (hskip : (!dir.rebuild && dir.exists (fileRoot beginInstret instret) d.breakpoint) = false)
    (hbytes : dir.files (fileName beginInstret instret) = some bytes) :
    Reads dir st (unwords ["file".toList, fileName beginInstret instret] ++ ['\n'])
      { st with
        cur := some { d with pathPrefix := some (fileRoot beginInstret instret) }
        dump := some bytes } := by
  have hopen : (dir.rebuild || !dir.exists (fileRoot beginInstret instret) d.breakpoint) = true := by
    revert hskip
    cases dir.rebuild <;> cases dir.exists (fileRoot beginInstret instret) d.breakpoint <;> decide
  apply reads_line (line_file beginInstret instret)
  rw [readLine_file (words_file beginInstret instret), readFile, hcur]
  simp only [List.getElem?_cons_zero, Option.bind_eq_bind, Option.bind_some, splitext_fileName,
    hopen, if_true, hbytes]
  rfl

theorem skips_file (hcur : st.cur = some d)
    (hskip : (!dir.rebuild && dir.exists (fileRoot beginInstret instret) d.breakpoint) = true) :
    Reads dir st (unwords ["file".toList, fileName beginInstret instret] ++ ['\n'])
      { st with cur := none } := by
  have hopen : (dir.rebuild || !dir.exists (fileRoot beginInstret instret) d.breakpoint) = false := by
    revert hskip
    cases dir.rebuild <;> cases dir.exists (fileRoot beginInstret instret) d.breakpoint <;> decide
  apply reads_line (line_file beginInstret instret)
  rw [readLine_file (words_file beginInstret instret), readFile, hcur]
  simp only [List.getElem?_cons_zero, Option.bind_eq_bind, Option.bind_some, splitext_fileName,
    hopen]
  rfl

end

end RvCkpt.Parse
