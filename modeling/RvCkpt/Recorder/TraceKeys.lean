import RvCkpt.Recorder.Segmentation
import RvCkpt.Recorder.StoreCheck

/-! # The keys of a trace

In the trace of an open interval each page with counters is recorded, each slot in use has the
width of an access, and the caches point to pages that exist, whatever the interval does.
-/

namespace RvCkpt
open ByteMem
set_option autoImplicit false

/-! ## Traces -/

namespace MemTrace

/-- A step of the recorder that counts nothing. -/
structure Extends (T T' : MemTrace) : Prop where
  wf : T.Wf → T'.Wf
  pages : ∀ pn, pn ∈ T.pages → pn ∈ T'.pages
  execs : T'.execs = T.execs

theorem Extends.refl (T : MemTrace) : Extends T T := ⟨id, fun _ => id, rfl⟩

theorem Extends.trans {T T' T'' : MemTrace} (h : Extends T T') (h' : Extends T' T'') :
    Extends T T'' :=
  ⟨fun hw => h'.wf (h.wf hw), fun pn hp => h'.pages pn (h.pages pn hp), h'.execs.trans h.execs⟩

theorem selectLoad_extends (T : MemTrace) (pn : ℕ) : Extends T (T.selectLoad pn) := by
  unfold selectLoad getPageCached
  by_cases h : pn ≠ T.loadCache.idx
  · rw [if_pos h]
    have hsame := getPage_sameRecord T pn
    refine ⟨fun hw => ⟨?_, .inr ⟨rfl, (mem_getPage T pn pn).mpr (.inl rfl)⟩, ?_⟩, hsame.pages,
      hsame.execs⟩
    · dsimp only
      rw [hsame.fetchCache]
      exact hw.fetch.mono hsame.pages
    · dsimp only
      rw [hsame.execCache, hsame.execs]
      exact hw.exec
  · rw [if_neg h]
    exact .refl T

theorem selectFetch_extends (T : MemTrace) (pn : ℕ) : Extends T (T.selectFetch pn) := by
  unfold selectFetch getPageCached
  by_cases h : pn ≠ T.fetchCache.idx
  · rw [if_pos h]
    have hsame := getPage_sameRecord T pn
    refine ⟨fun hw => ⟨.inr ⟨rfl, (mem_getPage T pn pn).mpr (.inl rfl)⟩, ?_, ?_⟩, hsame.pages,
      hsame.execs⟩
    · dsimp only
      rw [hsame.loadCache]
      exact hw.load.mono hsame.pages
    · dsimp only
      rw [hsame.execCache, hsame.execs]
      exact hw.exec
  · rw [if_neg h]
    exact .refl T

theorem putPage_extends (T : MemTrace) (cache : PtrCache) (page : PageRec) :
    Extends T (T.putPage cache page) := by
  refine ⟨putPage_wf, fun pn => mem_putPage T, ?_⟩
  unfold putPage
  cases cache.ptr <;> rfl

theorem fetchAt_extends {w : Width} {T : MemTrace} {cache : PtrCache} {offset : ℕ}
    {inst : BitVec 64} {r : MemTrace × Bool} (h : fetchAt w T cache offset inst = some r) :
    Extends T r.1 := by
  obtain ⟨page, -, h⟩ := Option.bind_eq_some_iff.mp h
  rw [← Option.some.inj h]
  exact putPage_extends T cache _

theorem prefetch_extends {T : MemTrace} {addr length : ℕ} {r : MemTrace × Bool}
    (h : T.prefetch addr length = some r) : Extends T r.1 := by
  unfold prefetch at h
  dsimp only at h
  by_cases h2 : length = 2
  · rw [if_pos h2] at h
    obtain ⟨page, -, h⟩ := Option.bind_eq_some_iff.mp h
    rw [← Option.some.inj h]
    exact selectFetch_extends T _
  · rw [if_neg h2] at h
    rw [← Option.some.inj h]
    exact selectFetch_extends T _

theorem loadLoop_extends {pn : ℕ} {data : BitVec 64} {k i pos : ℕ} {T T' : MemTrace}
    (h : loadLoop pn data k i pos T = some T') : Extends T T' := by
  induction k generalizing i pos T with
  | zero =>
    obtain rfl := Option.some.inj h
    exact .refl T
  | succ k ih =>
    obtain ⟨page, -, h⟩ := Option.bind_eq_some_iff.mp h
    refine Extends.trans ?_ (ih h)
    have hput : ∀ (T₁ : MemTrace) (p : Prop) [Decidable p] (page : PageRec),
        Extends T₁ (if p then T₁.putPage T₁.loadCache page else T₁) := by
      intro T₁ p _ page
      by_cases hp : p
      · rw [if_pos hp]
        exact putPage_extends T₁ _ page
      · rw [if_neg hp]
        exact .refl T₁
    refine Extends.trans ?_ (hput _ _ _)
    by_cases hcross : pos = PAGE_SIZE
    · rw [if_pos hcross]
      exact selectLoad_extends T _
    · rw [if_neg hcross]
      exact .refl T

theorem load_extends {w : Width} {T T' : MemTrace} {addr : ℕ} {data : BitVec 64}
    (h : T.load w addr data = some T') : Extends T T' := by
  obtain ⟨page, -, h⟩ := Option.bind_eq_some_iff.mp h
  refine Extends.trans (selectLoad_extends T (addr / PAGE_SIZE)) ?_
  split at h
  · rw [← Option.some.inj h]
    exact putPage_extends _ _ _
  · split at h
    · rw [← Option.some.inj h]
      exact .refl _
    · exact loadLoop_extends h

theorem store_extends {w : Width} {T T' : MemTrace} {addr : ℕ} (h : T.store w addr = some T') :
    Extends T T' := by
  obtain ⟨T₁, hload, h⟩ := Option.bind_eq_some_iff.mp h
  have hext := load_extends hload
  rw [← Option.some.inj h]
  refine ⟨fun hw => ?_, hext.pages, hext.execs⟩
  obtain ⟨hfetch, hload, hexec⟩ := hext.wf hw
  exact ⟨hfetch, hload, hexec⟩

/-! ## Counters -/

theorem selectExec_keys (T : MemTrace) (addr : ℕ) :
    (T.Wf → (T.selectExec addr).Wf) ∧ (T.selectExec addr).pages = T.pages ∧
    (T.selectExec addr).fetchCache = T.fetchCache ∧
    ∀ k, k ∈ (T.selectExec addr).execs → k ∈ T.execs ∨ k = addr / PAGE_SIZE := by
  unfold selectExec
  by_cases hpn : addr / PAGE_SIZE ≠ T.execCache.idx
  · rw [if_pos hpn]
    unfold getExec
    cases hexec : T.execs.lookup (addr / PAGE_SIZE) with
    | some exec =>
      have hmem : addr / PAGE_SIZE ∈ T.execs := AList.lookup_isSome.mp (by rw [hexec]; rfl)
      exact ⟨fun hw => ⟨hw.fetch, hw.load, .inr ⟨rfl, hmem⟩⟩, rfl, rfl, fun k => .inl⟩
    | none =>
      refine ⟨fun hw => ⟨hw.fetch, hw.load, .inr ⟨rfl, (AList.mem_insert _).mpr (.inl rfl)⟩⟩, rfl,
        rfl, fun k hk => ?_⟩
      exact ((AList.mem_insert _).mp hk).symm
  · rw [if_neg hpn]
    exact ⟨id, rfl, rfl, fun k => .inl⟩

theorem incrExecCounter_keys {T T' : MemTrace} {addr : ℕ} (h : T.incrExecCounter addr = some T') :
    (T.Wf → T'.Wf) ∧ T'.pages = T.pages ∧ T'.fetchCache = T.fetchCache ∧
    ∀ k, k ∈ T'.execs → k ∈ T.execs ∨ k = addr / PAGE_SIZE := by
  obtain ⟨hwf, hpages, hfetch, hkeys⟩ := selectExec_keys T addr
  obtain ⟨pn, hptr, h⟩ := Option.bind_eq_some_iff.mp h
  obtain ⟨exec, hexec, h⟩ := Option.bind_eq_some_iff.mp h
  have hmem : pn ∈ (T.selectExec addr).execs := AList.lookup_isSome.mp (by rw [hexec]; rfl)
  rw [← Option.some.inj h]
  refine ⟨fun hw => ?_, hpages, hfetch, fun k hk => ?_⟩
  · have hw' := hwf hw
    refine ⟨hw'.fetch, hw'.load, hw'.exec.mono fun k hk => ?_⟩
    exact (AList.mem_insert _).mpr (.inr hk)
  · rcases (AList.mem_insert _).mp hk with rfl | hk
    · exact hkeys _ hmem
    · exact hkeys _ hk

/-- Every page with counters is recorded, and a slot in use has the width of an access. -/
structure Consistent (T : MemTrace) : Prop where
  wf : T.Wf
  counted : ∀ pn, pn ∈ T.execs → pn ∈ T.pages
  sized : ∀ i, (T.stores i).addr ≠ 0 → ∃ w : Width, (T.stores i).size = w.bytes

theorem consistent_new : new.Consistent :=
  ⟨wf_new, fun pn h => absurd h (AList.notMem_empty pn), fun _ h => absurd rfl h⟩

theorem Consistent.extends {T T' : MemTrace} (h : T.Consistent) (hext : Extends T T')
    (hstores : T'.stores = T.stores) : T'.Consistent := by
  refine ⟨hext.wf h.wf, fun pn hpn => hext.pages pn (h.counted pn (hext.execs ▸ hpn)), ?_⟩
  rw [hstores]
  exact h.sized

theorem Consistent.load {w : Width} {T T' : MemTrace} {addr : ℕ} {data : BitVec 64}
    (h : T.Consistent) (hload : T.load w addr data = some T') : T'.Consistent :=
  h.extends (load_extends hload) (load_stores hload)

theorem Consistent.store {w : Width} {T T' : MemTrace} {addr : ℕ} (h : T.Consistent)
    (hstore : T.store w addr = some T') : T'.Consistent := by
  have hext := store_extends hstore
  refine ⟨hext.wf h.wf, fun pn hpn => hext.pages pn (h.counted pn (hext.execs ▸ hpn)), ?_⟩
  intro i hi
  rw [store_stores hstore] at hi ⊢
  by_cases hslot : i = storeHash addr
  · rw [hslot, Function.update_self]
    exact ⟨w, rfl⟩
  · rw [Function.update_of_ne hslot] at hi ⊢
    exact h.sized i hi

theorem Consistent.storeBytes {T T' : MemTrace} {addr size : ℕ} (h : T.Consistent)
    (hstore : T.storeBytes addr size = some T') : T'.Consistent := by
  induction size generalizing T addr with
  | zero => rwa [← Option.some.inj hstore]
  | succ size ih =>
    obtain ⟨T₁, hfirst, hrest⟩ := Option.bind_eq_some_iff.mp hstore
    exact ih (h.store hfirst) hrest

/-- A page from which the fetch cache could be read after it was selected. -/
theorem mem_of_deref {T : MemTrace} {pn : ℕ} {page : PageRec} (h : T.Wf)
    (hd : (T.selectFetch pn).deref (T.selectFetch pn).fetchCache = some page) :
    pn ∈ (T.selectFetch pn).pages := by
  unfold selectFetch getPageCached at hd ⊢
  by_cases hpn : pn ≠ T.fetchCache.idx
  · rw [if_pos hpn]
    exact (mem_getPage T pn pn).mpr (.inl rfl)
  · rw [if_neg hpn] at hd ⊢
    obtain ⟨k, hptr, -⟩ := Option.bind_eq_some_iff.mp hd
    dsimp only at hptr ⊢
    rw [not_not.mp hpn]
    exact (h.fetch.ptr (.inr (by rw [hptr]; rfl))).2

/-- A fetch counts, and then records; it begins by reading the page that it has selected. -/
theorem fetch_steps {T : MemTrace} {addr length : ℕ} {inst : BitVec 64} {r : MemTrace × Bool}
    (hf : T.fetch addr inst length = some r) :
    ∃ T₁, T.incrExecCounter addr = some T₁ ∧ Extends (T₁.selectFetch (addr / PAGE_SIZE)) r.1 ∧
      ∃ page, (T₁.selectFetch (addr / PAGE_SIZE)).deref
        (T₁.selectFetch (addr / PAGE_SIZE)).fetchCache = some page := by
  obtain ⟨T₁, hincr, hf⟩ := Option.bind_eq_some_iff.mp hf
  refine ⟨T₁, hincr, ?_⟩
  dsimp only at hf
  by_cases h2 : length = 2
  · rw [if_pos h2] at hf
    obtain ⟨page, hpage, -⟩ := Option.bind_eq_some_iff.mp hf
    exact ⟨fetchAt_extends hf, page, hpage⟩
  rw [if_neg h2] at hf
  by_cases h4 : addr % 4 = 0
  · rw [if_pos h4] at hf
    obtain ⟨page, hpage, -⟩ := Option.bind_eq_some_iff.mp hf
    exact ⟨fetchAt_extends hf, page, hpage⟩
  rw [if_neg h4] at hf
  obtain ⟨⟨T₂, first₁⟩, hfirst, hf⟩ := Option.bind_eq_some_iff.mp hf
  obtain ⟨⟨T₃, first₂⟩, hsecond, hf⟩ := Option.bind_eq_some_iff.mp hf
  obtain ⟨page, hpage, -⟩ := Option.bind_eq_some_iff.mp hfirst
  rw [← Option.some.inj hf]
  have hext := fetchAt_extends hsecond
  refine ⟨(fetchAt_extends hfirst).trans (Extends.trans ?_ hext), page, hpage⟩
  by_cases hcross : addr % PAGE_SIZE + 2 = PAGE_SIZE
  · rw [if_pos hcross]
    exact selectFetch_extends T₂ _
  · rw [if_neg hcross]
    exact .refl T₂

theorem fetch_keys {T : MemTrace} {addr length : ℕ} {inst : BitVec 64} {r : MemTrace × Bool}
    (h : T.Consistent) (hf : T.fetch addr inst length = some r) :
    r.1.Consistent ∧ addr / PAGE_SIZE ∈ r.1.pages := by
  have hstores := fetch_stores hf
  obtain ⟨T₁, hincr, hext, page, hpage⟩ := fetch_steps hf
  obtain ⟨hwf₁, hpages₁, -, hkeys₁⟩ := incrExecCounter_keys hincr
  have hselect := selectFetch_extends T₁ (addr / PAGE_SIZE)
  have hmem := hext.pages _ (mem_of_deref (hwf₁ h.wf) hpage)
  refine ⟨⟨hext.wf (hselect.wf (hwf₁ h.wf)), fun pn hpn => ?_, hstores ▸ h.sized⟩, hmem⟩
  rw [hext.execs, hselect.execs] at hpn
  rcases hkeys₁ pn hpn with hpn | rfl
  · exact hext.pages pn (hselect.pages pn (hpages₁ ▸ h.counted pn hpn))
  · exact hmem

theorem prefetch_stores {T : MemTrace} {addr length : ℕ} {r : MemTrace × Bool}
    (h : T.prefetch addr length = some r) : r.1.stores = T.stores := by
  unfold prefetch at h
  dsimp only at h
  by_cases h2 : length = 2
  · rw [if_pos h2] at h
    obtain ⟨page, -, h⟩ := Option.bind_eq_some_iff.mp h
    rw [← Option.some.inj h]
    exact selectFetch_stores T _
  · rw [if_neg h2] at h
    rw [← Option.some.inj h]
    exact selectFetch_stores T _

theorem selectExec_stores (T : MemTrace) (addr : ℕ) : (T.selectExec addr).stores = T.stores := by
  unfold selectExec
  by_cases hpn : addr / PAGE_SIZE ≠ T.execCache.idx
  · rw [if_pos hpn]
    exact getExec_stores T _
  · rw [if_neg hpn]

theorem getExecCounter_consistent {T : MemTrace} {addr : ℕ} {r : MemTrace × BitVec 32}
    (h : T.Consistent) (hmem : addr / PAGE_SIZE ∈ T.pages)
    (hr : T.getExecCounter addr = some r) : r.1.Consistent := by
  obtain ⟨hwf, hpages, -, hkeys⟩ := selectExec_keys T addr
  obtain ⟨exec, -, hr⟩ := Option.bind_eq_some_iff.mp hr
  rw [← Option.some.inj hr]
  refine ⟨hwf h.wf, fun pn hpn => ?_, ?_⟩
  · rw [hpages]
    rcases hkeys pn hpn with hpn | rfl
    · exact h.counted pn hpn
    · exact hmem
  · rw [selectExec_stores]
    exact h.sized

end MemTrace

namespace Manager

theorem firstRvc_consistent {T : MemTrace} {x : Fetched} {firstVisit : Bool}
    {r : MemTrace × Bool} (h : T.Consistent) (hr : firstRvc T x firstVisit = some r) :
    r.1.Consistent ∧ ∀ pn, pn ∈ T.pages → pn ∈ r.1.pages := by
  unfold firstRvc at hr
  by_cases hrvc : firstVisit ∧ x.length = 2
  · rw [if_pos hrvc] at hr
    have hext := MemTrace.prefetch_extends hr
    exact ⟨h.extends hext (MemTrace.prefetch_stores hr), hext.pages⟩
  · rw [if_neg hrvc] at hr
    rw [← Option.some.inj hr]
    exact ⟨h, fun _ => id⟩

theorem repeatBreak_consistent {T : MemTrace} {x : Fetched} {totalExec : BitVec 64}
    {r : MemTrace × Option BreakKind} (h : T.Consistent) (hmem : x.addr / PAGE_SIZE ∈ T.pages)
    (hr : repeatBreak T x totalExec = some r) : r.1.Consistent := by
  unfold repeatBreak at hr
  by_cases hrd : x.length = 4 ∧ 0 < x.rd
  · rw [if_pos hrd] at hr
    obtain ⟨counted, hcounter, hr⟩ := Option.bind_eq_some_iff.mp hr
    rw [← Option.some.inj hr]
    exact MemTrace.getExecCounter_consistent h hmem hcounter
  · rw [if_neg hrd] at hr
    rw [← Option.some.inj hr]
    exact h

theorem chooseBreak_consistent {T : MemTrace} {x : Fetched} {firstVisit : Bool}
    {totalExec : BitVec 64} {r : MemTrace × Option BreakKind} (h : T.Consistent)
    (hmem : x.addr / PAGE_SIZE ∈ T.pages) (hr : chooseBreak T x firstVisit totalExec = some r) :
    r.1.Consistent := by
  unfold chooseBreak at hr
  by_cases hecall : x.inst = ECALL
  · rw [if_pos hecall] at hr
    rw [← Option.some.inj hr]
    exact h
  rw [if_neg hecall] at hr
  by_cases hfirst : firstVisit = true ∧ x.length = 4
  · rw [if_pos hfirst] at hr
    rw [← Option.some.inj hr]
    exact h
  rw [if_neg hfirst] at hr
  obtain ⟨⟨T₁, rvc⟩, hrvc, hr⟩ := Option.bind_eq_some_iff.mp hr
  obtain ⟨h₁, hpages⟩ := firstRvc_consistent h hrvc
  cases rvc with
  | true =>
    rw [← Option.some.inj hr]
    exact h₁
  | false => exact repeatBreak_consistent h₁ (hpages _ hmem) hr

theorem beginHere_consistent {M : Manager} (x : Fetched)
    (h : ∀ T, M.mem = some T → T.Consistent) : (M.beginHere x).2.Consistent := by
  unfold beginHere
  cases hmem : M.mem with
  | none => exact MemTrace.consistent_new
  | some T => exact h T hmem

/-- The hook leaves a consistent trace in the open interval. -/
theorem fetch_consistent {M M' : Manager} {live : Mem} {x : Fetched} {T' : MemTrace}
    (hout : M.out = true) (h : ∀ T, M.mem = some T → T.Consistent)
    (hf : M.fetch live x = some M') (hmem : M'.mem = some T') : T'.Consistent := by
  rw [fetch_eq hout] at hf
  obtain ⟨⟨T₁, firstVisit⟩, hfetch, hf⟩ := Option.bind_eq_some_iff.mp hf
  obtain ⟨⟨T₂, found⟩, hfound, hf⟩ := Option.bind_eq_some_iff.mp hf
  dsimp only at hfetch hfound hf
  obtain ⟨h₁, hpn⟩ := MemTrace.fetch_keys (beginHere_consistent x h) hfetch
  have h₂ : T₂.Consistent := by
    unfold lookForBreak at hfound
    split at hfound
    · exact chooseBreak_consistent h₁ hpn hfound
    · obtain ⟨rfl, -⟩ := Prod.mk.inj (Option.some.inj hfound)
      exact h₁
  cases found with
  | some kind =>
    rw [← Option.some.inj hf] at hmem
    cases hmem
  | none =>
    have hT : M'.mem = some T₂ := by
      rw [← Option.some.inj hf]
      by_cases he : x.inst = ECALL
      · rw [if_pos he]
        rfl
      · rw [if_neg he]
    obtain rfl := Option.some.inj (hmem.symm.trans hT)
    exact h₂

end Manager

end RvCkpt
