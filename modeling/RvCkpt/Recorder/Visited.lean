import RvCkpt.Recorder.Fidelity
import RvCkpt.Recorder.Manager
import RvCkpt.Parse.FreeList

/-! # Visited bytes, free space and fresh breakpoints

What the visited bits of a trace are used for. `makeFreeList` gives away bytes that are not
visited, and a breakpoint of kind `first` or `firstrvc` overwrites four bytes that were not
visited when its instruction was fetched.
-/

namespace RvCkpt
open ByteMem FirstTouch
set_option autoImplicit false

namespace MemTrace

def visited (T : MemTrace) (a : ℕ) : Bool :=
  match T.pages.lookup (a / PAGE_SIZE) with
  | some page => page.seen (a % PAGE_SIZE)
  | none => false

theorem recorded_isSome (T : MemTrace) (a : ℕ) : (T.recorded a).isSome = T.visited a := by
  unfold recorded visited
  cases T.pages.lookup (a / PAGE_SIZE) with
  | none => rfl
  | some page => exact PageRec.get_isSome page _

/-- The page map that `parse.py` reads back from a dump of the trace. -/
def dumped (T : MemTrace) : Parse.PageMap :=
  (Parse.PageMap.readPages ∅ T.pages.entries).readExecs T.execs.keys

end MemTrace

/-! ## Reading a dump back -/

namespace Parse.PageMap

theorem readPages_lookup {entries : List (Σ _ : ℕ, PageRec)} (h : entries.NodupKeys)
    (m : PageMap) (pn : ℕ) :
    (m.readPages entries).lookup pn =
      match entries.dlookup pn with
      | some page => some (.ofBytes page.visited page.content)
      | none => m.lookup pn := by
  induction entries generalizing m with
  | nil => rfl
  | cons entry entries ih =>
    obtain ⟨k, page⟩ := entry
    obtain ⟨hk, hrest⟩ := List.nodupKeys_cons.mp h
    rw [readPages, List.foldl_cons, ← readPages, ih hrest]
    by_cases hpn : pn = k
    · subst hpn
      rw [List.dlookup_eq_none.mpr hk, List.dlookup_cons_eq, AList.lookup_insert]
    · have hcons : List.dlookup pn ((⟨k, page⟩ : Σ _ : ℕ, PageRec) :: entries) =
          entries.dlookup pn := List.dlookup_cons_ne _ _ hpn
      rw [hcons]
      cases entries.dlookup pn with
      | some page' => rfl
      | none => exact AList.lookup_insert_ne hpn

theorem readExecs_used (m : PageMap) (execs : List ℕ) (a : ℕ) :
    (m.readExecs execs).Used a ↔ m.Used a := by
  induction execs generalizing m with
  | nil => rfl
  | cons pn execs ih =>
    rw [readExecs, List.foldl_cons, ← readExecs, ih, Used, Used]
    by_cases ha : a / PAGE_SIZE = pn
    · rw [ha, AList.lookup_insert, getItem]
      cases hl : m.lookup pn with
      | some page => rfl
      | none =>
        constructor
        · rintro ⟨page, ⟨⟩, hfree⟩
          rw [Option.getD_none, Page.empty_isFree] at hfree
          cases hfree
        · rintro ⟨page, ⟨⟩, -⟩
    · rw [AList.lookup_insert_ne ha]

end Parse.PageMap

theorem dumped_used (T : MemTrace) (a : ℕ) : T.dumped.Used a ↔ T.visited a = true := by
  have ho := MemTrace.offset_lt a
  have hlook := Parse.PageMap.readPages_lookup T.pages.nodupKeys ∅ (a / PAGE_SIZE)
  rw [MemTrace.dumped, Parse.PageMap.readExecs_used, Parse.PageMap.Used, hlook,
    ← AList.lookup, MemTrace.visited]
  cases T.pages.lookup (a / PAGE_SIZE) with
  | some page =>
    constructor
    · rintro ⟨page', hpage, hfree⟩
      rw [← Option.some.inj hpage, Parse.ofBytes_isFree page ho] at hfree
      simpa using hfree
    · intro hseen
      refine ⟨_, rfl, ?_⟩
      rw [Parse.ofBytes_isFree page ho]
      simpa using hseen
  | none =>
    constructor
    · rintro ⟨page, hpage, -⟩
      cases hpage
    · intro h
      cases h

/-! ## Fresh breakpoints -/

theorem repeatBreak_kind {T T' : MemTrace} {x : Fetched} {totalExec : BitVec 64}
    {kind : BreakKind} (h : Manager.repeatBreak T x totalExec = some (T', some kind)) :
    ∃ count rd, kind = .repeat count rd := by
  unfold Manager.repeatBreak at h
  by_cases hl : x.length = 4 ∧ 0 < x.rd
  · rw [if_pos hl] at h
    obtain ⟨⟨T₁, execCount⟩, -, h⟩ := Option.bind_eq_some_iff.mp h
    by_cases hc : execCount.setWidth 64 < totalExec >>> 18
    · simp only [if_pos hc] at h
      cases h
      exact ⟨_, _, rfl⟩
    · simp only [if_neg hc] at h
      cases h
  · rw [if_neg hl] at h
    cases h

theorem chooseBreak_first {T T' : MemTrace} {x : Fetched} {firstVisit : Bool}
    {totalExec : BitVec 64}
    (h : Manager.chooseBreak T x firstVisit totalExec = some (T', some .first)) :
    firstVisit = true ∧ x.length = 4 := by
  unfold Manager.chooseBreak at h
  by_cases he : x.inst = ECALL
  · rw [if_pos he] at h
    cases h
  · rw [if_neg he] at h
    by_cases hf : firstVisit = true ∧ x.length = 4
    · exact hf
    · rw [if_neg hf] at h
      obtain ⟨⟨T₁, rvc⟩, -, h⟩ := Option.bind_eq_some_iff.mp h
      cases rvc with
      | true => cases h
      | false =>
        obtain ⟨count, rd, hkind⟩ := repeatBreak_kind h
        cases hkind

theorem chooseBreak_firstrvc {T T' : MemTrace} {x : Fetched} {firstVisit : Bool}
    {totalExec : BitVec 64}
    (h : Manager.chooseBreak T x firstVisit totalExec = some (T', some .firstrvc)) :
    firstVisit = true ∧ x.length = 2 ∧ T.prefetch (x.addr + 2) 2 = some (T', true) := by
  unfold Manager.chooseBreak at h
  by_cases he : x.inst = ECALL
  · rw [if_pos he] at h
    cases h
  · rw [if_neg he] at h
    by_cases hf : firstVisit = true ∧ x.length = 4
    · rw [if_pos hf] at h
      cases h
    · rw [if_neg hf] at h
      obtain ⟨⟨T₁, rvc⟩, hpre, h⟩ := Option.bind_eq_some_iff.mp h
      unfold Manager.firstRvc at hpre
      cases rvc with
      | true =>
        cases h
        by_cases hl : firstVisit = true ∧ x.length = 2
        · rw [if_pos hl] at hpre
          exact ⟨hl.1, hl.2, hpre⟩
        · rw [if_neg hl] at hpre
          cases hpre
      | false =>
        obtain ⟨count, rd, hkind⟩ := repeatBreak_kind h
        cases hkind

/-- The manager's hook names a kind of breakpoint only as `chooseBreak` finds it. -/
theorem fetch_break {M M' : Manager} {live : Mem} {x : Fetched} {T : MemTrace} {kind : BreakKind}
    {rest : List LogItem} (hout : M.out = true) (hmem : M.mem = some T)
    (h : M.fetch live x = some M') (hlog : M'.log = M.log ++ .break x.addr kind :: rest) :
    ∃ T₁ T₂ firstVisit, T.fetch x.addr x.inst x.length = some (T₁, firstVisit) ∧
      Manager.chooseBreak T₁ x firstVisit (x.instret - M.beginInstret) = some (T₂, some kind) := by
  obtain ⟨T', hnone, -⟩ | ⟨T₀, T', -, rfl⟩ |
    ⟨T₀, T₁, T₂, firstVisit, found, hT₀, hfetch, -, hchoose, rfl⟩ := Manager.fetch_cases hout h
  · rw [hmem] at hnone
    cases hnone
  · exfalso
    have hmark := List.append_cancel_left hlog
    rw [Manager.markItems] at hmark
    by_cases he : x.inst = ECALL
    · rw [if_pos he] at hmark
      cases hmark
    · rw [if_neg he] at hmark
      cases hmark
  · rw [hmem] at hT₀
    cases hT₀
    have hitem := (List.cons.inj (List.append_cancel_left hlog)).1
    cases hitem
    exact ⟨T₁, T₂, firstVisit, hfetch, hchoose⟩

/-! ## Completeness -/

/-- What the visited bits promise at the end of the interval `es`. `live` and `x` are those of a
further fetch that ends the interval with a breakpoint. -/
structure VisitedComplete (m : Mem) (es : List Event) (T : MemTrace) : Prop where
  visited : ∀ e ∈ es, ∀ b, e.cells b = true → T.visited b = true
  notFree : ∀ e ∈ es, ∀ b, e.cells b = true →
    ∀ range ∈ T.dumped.makeFreeList, ¬ (range.1 ≤ b ∧ b < range.2)
  fresh : ∀ (M M' : Manager) (live : Mem) (x : Fetched) (kind : BreakKind) (rest : List LogItem),
    M.out = true → M.mem = some T → M.fetch live x = some M' →
    M'.log = M.log ++ .break x.addr kind :: rest → kind = .first ∨ kind = .firstrvc →
    ∀ (ha : x.addr % 2 = 0) (hl : x.length = 2 ∨ x.length = 4),
    (Event.fetch x.addr x.length ha hl).Clean es →
    (∀ e ∈ es, ∀ b, e.cells b = true → ¬ (x.addr ≤ b ∧ b < x.addr + 4)) ∧
    ∀ image : Mem, (∀ b, ¬ (x.addr ≤ b ∧ b < x.addr + 4) → image b = T.image b) →
      observe image es = observe m es

theorem not_cells_of_none {m₀ m : Mem} {es : List Event} {T : MemTrace} (h : RunInv m₀ es m T)
    {b : ℕ} (hb : T.recorded b = none) : ∀ e ∈ es, e.cells b = false := by
  intro e he
  by_contra hcell
  have hsome := (h.isSome_iff b).mpr ⟨e, he, by simpa using hcell⟩
  rw [hb] at hsome
  cases hsome

/-- Before a breakpoint of kind `first` or `firstrvc` the four bytes are not recorded. -/
theorem fresh_unrecorded {m₀ m : Mem} {es : List Event} {T : MemTrace} (hinv : RunInv m₀ es m T)
    {M M' : Manager} {live : Mem} {x : Fetched} {kind : BreakKind} {rest : List LogItem}
    (hout : M.out = true) (hmem : M.mem = some T) (hfetch : M.fetch live x = some M')
    (hlog : M'.log = M.log ++ .break x.addr kind :: rest)
    (hkind : kind = .first ∨ kind = .firstrvc) (ha : x.addr % 2 = 0)
    (hl : x.length = 2 ∨ x.length = 4)
    (hclean : (Event.fetch x.addr x.length ha hl).Clean es) :
    ∀ b, x.addr ≤ b ∧ b < x.addr + 4 → T.recorded b = none := by
  obtain ⟨T₁, T₂, firstVisit, hT₁, hchoose⟩ := fetch_break hout hmem hfetch hlog
  have hpage : x.addr / PAGE_SIZE ≠ 0 ∨ (T.fetchCache.ptr.isSome ∧ T.execCache.ptr.isSome) := by
    by_cases hp : x.addr / PAGE_SIZE = 0
    · have hlow : x.addr < PAGE_SIZE := by
        unfold PAGE_SIZE at *
        omega
      have hsize : (Event.fetch x.addr x.length ha hl).size ≠ 0 := by
        rw [Event.size]
        omega
      obtain ⟨f, hf, hs, hk⟩ := hclean.started hsize hlow
      exact .inr (hinv.fetched ⟨f, hf, hs, hk⟩)
    · exact .inl hp
  obtain ⟨T', first, hT', hwf', hrec', hfirst, hfc', -, -⟩ :=
    MemTrace.fetch_spec x.inst hinv.wf ha hl hpage (hinv.whole hclean)
  rw [hT₁] at hT'
  cases hT'
  obtain rfl | rfl := hkind
  · obtain ⟨rfl, hlen⟩ := chooseBreak_first hchoose
    intro b hb
    exact hfirst.mp rfl b (span_iff.mpr (hlen ▸ hb))
  · obtain ⟨rfl, hlen, hpre⟩ := chooseBreak_firstrvc hchoose
    obtain ⟨T'', first, hT'', -, -, hfresh⟩ :=
      MemTrace.prefetch_spec (x.addr + 2) hwf' (by omega) (.inr hfc')
    rw [hpre] at hT''
    cases hT''
    intro b hb
    by_cases hlo : b < x.addr + 2
    · exact hfirst.mp rfl b (span_iff.mpr (hlen ▸ ⟨hb.1, hlo⟩))
    · have hnone := hfresh.mp rfl b (span_iff.mpr (by omega))
      have hsome := touch_isSome T.recorded (span x.addr x.length) (spell x.addr x.inst) b
      rw [← hrec', hnone] at hsome
      cases hr : T.recorded b with
      | none => rfl
      | some c =>
        rw [hr] at hsome
        simp at hsome

theorem visitedComplete_of_clean (m : Mem) (es : List Event) (hc : CleanRun es) :
    ∃ T, recordRun m .new es = some T ∧ VisitedComplete m es T := by
  obtain ⟨T, hT, hinv⟩ := recordRun_clean m hc
  have hvisited : ∀ e ∈ es, ∀ b, e.cells b = true → T.visited b = true := by
    intro e he b hb
    rw [← MemTrace.recorded_isSome, hinv.isSome_iff]
    exact ⟨e, he, hb⟩
  refine ⟨T, hT, hvisited, ?_, ?_⟩
  · intro e he b hb range hrange hin
    have hused := (dumped_used T b).mpr (hvisited e he b hb)
    exact (Parse.PageMap.makeFreeList_ranges T.dumped).free range hrange b hin.1 hin.2 hused
  · intro M M' live x kind rest hout hmem hfetch hlog hkind ha hl hclean
    have hnone := fresh_unrecorded hinv hout hmem hfetch hlog hkind ha hl hclean
    have hfar : ∀ e ∈ es, ∀ b, e.cells b = true → ¬ (x.addr ≤ b ∧ b < x.addr + 4) := by
      intro e he b hb hin
      have := not_cells_of_none hinv (hnone b hin) e he
      rw [hb] at this
      cases this
    refine ⟨hfar, ?_⟩
    intro image himage
    rw [← observe_image_of_inv hinv]
    apply observe_congr
    apply observe_congr_cells
    rintro b ⟨a, ha', hcell⟩
    obtain ⟨e, he, rfl⟩ := List.mem_map.mp ha'
    rw [access_cells] at hcell
    exact himage b (hfar e he b hcell)

theorem visitedComplete_overlapping : ∃ T,
    recordRun (fun a => BitVec.ofNat 8 a) .new overlappingEvents = some T ∧
      VisitedComplete (fun a => BitVec.ofNat 8 a) overlappingEvents T :=
  visitedComplete_of_clean _ overlappingEvents (by decide)

/-- The second half of the instruction is fetched after a load has visited the first one. -/
def halfVisited : List Event := [.load .w2 0x10000, .fetch 0x10000 4 (by decide) length_four]

theorem halfVisited_incomplete :
    ¬ ∀ (m : Mem) (es : List Event), ∃ T, recordRun m .new es = some T ∧
      VisitedComplete m es T := by
  intro h
  obtain ⟨T, hT, hcomplete⟩ := h (fun _ => 0) halfVisited
  have hseen := hcomplete.visited (.fetch 0x10000 4 (by decide) (by decide)) (by decide) 0x10002
    (by decide)
  have hunseen : (recordRun (fun _ => 0) .new halfVisited).map (fun T => T.visited 0x10002) =
      some false := by decide
  rw [hT, Option.map_some, hseen] at hunseen
  cases hunseen

end RvCkpt
