import RvCkpt.Recorder.Counters

/-! # What the checkpoints report

The log of a run, each item with the number of the pass that printed it, read back as a list of
reports: the first and the last pass of a checkpoint, its break, and the records that are dumped.
In each of them the counters are the numbers of fetches from the first pass to the last, modulo
`2 ^ 32`, and so is the count of a repeating instruction.
-/

namespace RvCkpt
open ByteMem Tally
set_option autoImplicit false

structure Report where
  start : ℕ
  stop : ℕ
  kind : Option (ℕ × BreakKind)
  pages : List (Σ _ : ℕ, PageRec)
  execs : List (Σ _ : ℕ, ExecRec)

/-- The checkpoint that is being read: its first pass, and its break once it has come. -/
structure ReportReading where
  done : List Report
  cur : Option (ℕ × Option (ℕ × BreakKind))

def readReport (st : ReportReading) : ℕ × LogItem → ReportReading
  | (i, .begin ..) => { st with cur := some (i, none) }
  | (_, .break addr kind) => { st with cur := st.cur.map fun c => (c.1, some (addr, kind)) }
  | (i, .file _ _ pages execs) =>
    match st.cur with
    | some (start, kind) => ⟨st.done ++ [⟨start, i, kind, pages, execs⟩], none⟩
    | none => st
  | _ => st

def reports (items : List (ℕ × LogItem)) : List Report :=
  (items.foldl readReport ⟨[], none⟩).done

/-- The addresses fetched from pass `k` on, up to but not including pass `i`. -/
def fetches (addr : ℕ → ℕ) (k i : ℕ) : List ℕ := (List.range' k (i - k)).map addr

theorem fetches_self (addr : ℕ → ℕ) (k : ℕ) : fetches addr k k = [] := by
  rw [fetches, Nat.sub_self, List.range'_zero, List.map_nil]

theorem fetches_succ (addr : ℕ → ℕ) {k i : ℕ} (h : k ≤ i) :
    fetches addr k (i + 1) = fetches addr k i ++ [addr i] := by
  rw [fetches, fetches, Nat.sub_add_comm h, List.range'_concat, List.map_append,
    List.map_singleton, Nat.one_mul, Nat.add_sub_cancel' h]

/-- The fetches of a checkpoint, that of its break instruction included. -/
def Report.fetches (addr : ℕ → ℕ) (r : Report) : List ℕ :=
  RvCkpt.fetches addr r.start (r.stop + 1)

/-- What every report of a run is like. -/
structure Report.Counted (addr : ℕ → ℕ) (r : Report) : Prop where
  counts : Counts Halfword (counterOf r.execs) (r.fetches addr)
  again : ∀ a count rd, r.kind = some (a, .repeat count rd) →
    Halfword a ∧ count = counterOf r.execs a
  pagesNodup : r.pages.NodupKeys
  execsNodup : r.execs.NodupKeys
  paged : ∀ pn ∈ r.execs.keys, pn ∈ r.pages.keys

/-! ## The hook -/

namespace Manager

theorem firstRvc_counter {T : MemTrace} {x : Fetched} {firstVisit : Bool} {r : MemTrace × Bool}
    (hr : firstRvc T x firstVisit = some r) : r.1.counter = T.counter := by
  unfold firstRvc at hr
  by_cases hrvc : firstVisit ∧ x.length = 2
  · rw [if_pos hrvc] at hr
    exact (MemTrace.prefetch_extends hr).counter
  · rw [if_neg hrvc] at hr
    rw [← Option.some.inj hr]

theorem repeatBreak_counter {T : MemTrace} {x : Fetched} {totalExec : BitVec 64}
    {r : MemTrace × Option BreakKind} (h : T.Wf) (hr : repeatBreak T x totalExec = some r) :
    r.1.counter = T.counter ∧
      ∀ count rd, r.2 = some (.repeat count rd) → count = T.counter x.addr := by
  unfold repeatBreak at hr
  by_cases hrd : x.length = 4 ∧ 0 < x.rd
  · rw [if_pos hrd] at hr
    obtain ⟨⟨T₁, execCount⟩, hcount, hr⟩ := Option.bind_eq_some_iff.mp hr
    obtain ⟨hsame, hvalue⟩ := MemTrace.getExecCounter_counter h hcount
    rw [← Option.some.inj hr]
    refine ⟨hsame, fun count rd hkind => ?_⟩
    dsimp only at hkind
    split at hkind
    · rw [← (BreakKind.repeat.inj (Option.some.inj hkind)).1]
      exact hvalue
    · cases hkind
  · rw [if_neg hrd] at hr
    rw [← Option.some.inj hr]
    exact ⟨rfl, fun count rd hkind => by cases hkind⟩

theorem chooseBreak_counter {T : MemTrace} {x : Fetched} {firstVisit : Bool}
    {totalExec : BitVec 64} {r : MemTrace × Option BreakKind} (h : T.Consistent)
    (hr : chooseBreak T x firstVisit totalExec = some r) :
    r.1.counter = T.counter ∧
      ∀ count rd, r.2 = some (.repeat count rd) → count = T.counter x.addr := by
  unfold chooseBreak at hr
  by_cases hecall : x.inst = ECALL
  · rw [if_pos hecall] at hr
    rw [← Option.some.inj hr]
    exact ⟨rfl, fun count rd hkind => by cases hkind⟩
  rw [if_neg hecall] at hr
  by_cases hfirst : firstVisit = true ∧ x.length = 4
  · rw [if_pos hfirst] at hr
    rw [← Option.some.inj hr]
    exact ⟨rfl, fun count rd hkind => by cases hkind⟩
  rw [if_neg hfirst] at hr
  obtain ⟨⟨T₁, rvc⟩, hrvc, hr⟩ := Option.bind_eq_some_iff.mp hr
  have hsame := firstRvc_counter hrvc
  cases rvc with
  | true =>
    rw [← Option.some.inj hr]
    exact ⟨hsame, fun count rd hkind => by cases hkind⟩
  | false =>
    obtain ⟨hsame', hcount⟩ := repeatBreak_counter (firstRvc_consistent h hrvc).1.wf hr
    exact ⟨hsame'.trans hsame, fun count rd hkind => by rw [hcount count rd hkind, hsame]⟩

/-- The search for a breakpoint counts nothing, and a repeating instruction is reported with its
counter. -/
theorem lookForBreak_counter {M : Manager} {T : MemTrace} {x : Fetched} {firstVisit : Bool}
    {r : MemTrace × Option BreakKind} (h : T.Consistent) (hmem : x.addr / PAGE_SIZE ∈ T.pages)
    (hr : M.lookForBreak T x firstVisit = some r) :
    r.1.Consistent ∧ r.1.counter = T.counter ∧
      ∀ count rd, r.2 = some (.repeat count rd) → count = T.counter x.addr := by
  unfold lookForBreak at hr
  by_cases hp : M.period < x.instret - M.beginInstret
  · rw [if_pos hp] at hr
    exact ⟨chooseBreak_consistent h hmem hr, chooseBreak_counter h hr⟩
  · rw [if_neg hp] at hr
    rw [← Option.some.inj hr]
    exact ⟨h, rfl, fun count rd hkind => by cases hkind⟩

end Manager

/-! ## Items that no report is read from -/

def LogItem.Quiet : LogItem → Prop
  | .begin .. => False
  | .break .. => False
  | .file .. => False
  | _ => True

theorem readReport_quiet (st : ReportReading) (i : ℕ) {item : LogItem} (h : item.Quiet) :
    readReport st (i, item) = st := by
  cases item with
  | begin addr ireg freg => cases h
  | «break» addr kind => cases h
  | file b e pages execs => cases h
  | store addr size data => rfl
  | syscall addr => rfl
  | result retval write => rfl
  | exit rc => rfl

theorem foldl_quiet (st : ReportReading) (i : ℕ) {items : List LogItem}
    (h : ∀ item ∈ items, item.Quiet) :
    (items.map fun item => (i, item)).foldl readReport st = st := by
  induction items with
  | nil => rfl
  | cons item items ih =>
    rw [List.map_cons, List.foldl_cons, readReport_quiet st i (h item (by simp))]
    exact ih fun item' hi => h item' (List.mem_cons_of_mem _ hi)

theorem markItems_quiet (x : Fetched) : ∀ item ∈ Manager.markItems x, item.Quiet := by
  intro item hitem
  rw [Manager.markItems] at hitem
  by_cases he : x.inst = ECALL
  · rw [if_pos he, List.mem_singleton] at hitem
    rw [hitem]
    trivial
  · rw [if_neg he] at hitem
    cases hitem

theorem storeItems_quiet (T : MemTrace) (live : Mem) :
    ∀ item ∈ Manager.storeItems T live, item.Quiet := by
  intro item hitem
  obtain ⟨i, -, hi⟩ := List.mem_filterMap.mp hitem
  by_cases ha : (T.stores i).addr ≠ 0
  · rw [if_pos ha] at hi
    rw [← Option.some.inj hi]
    trivial
  · rw [if_neg ha] at hi
    cases hi

/-! ## One pass -/

/-- The log has been read up to pass `i`. The trace of an open checkpoint holds the fetches since
its first pass. -/
structure CountInv (addr : ℕ → ℕ) (i : ℕ) (M : Manager) (st : ReportReading) : Prop where
  out : M.out = true
  done : ∀ r ∈ st.done, r.Counted addr
  shape : (st.cur = none ∧ M.mem = none) ∨
    ∃ k T, st.cur = some (k, none) ∧ M.mem = some T ∧ k ≤ i ∧ T.Consistent ∧
      Counts Halfword T.counter (fetches addr k i)

section
variable {addr : ℕ → ℕ} {i : ℕ} {M M' : Manager} {st : ReportReading}

/-- A checkpoint is begun unless one is open; either way its trace holds the fetches so far. -/
theorem CountInv.begin (h : CountInv addr i M st) (x : Fetched) :
    ∃ items k, (M.beginHere x).1.out = true ∧ (M.beginHere x).1.log = M.log ++ items ∧
      (items.map fun item => (i, item)).foldl readReport st = ⟨st.done, some (k, none)⟩ ∧
      k ≤ i ∧ (M.beginHere x).2.Consistent ∧
      Counts Halfword (M.beginHere x).2.counter (fetches addr k i) := by
  unfold Manager.beginHere
  obtain ⟨-, hnone⟩ | ⟨k, T, hcur, hT, hk, hc, hcounts⟩ := h.shape
  · rw [hnone]
    refine ⟨[.begin x.addr x.ireg x.freg], i, h.out, rfl, rfl, le_rfl, MemTrace.consistent_new, ?_⟩
    rw [fetches_self]
    exact counts_nil
  · rw [hT]
    refine ⟨[], k, h.out, (List.append_nil _).symm, ?_, hk, hc, hcounts⟩
    rw [List.map_nil, List.foldl_nil, ← hcur]

/-- The report that a break or an exit closes. -/
theorem counted_report {k : ℕ} {T : MemTrace} {kind : Option (ℕ × BreakKind)} (hc : T.Consistent)
    (hcounts : Counts Halfword T.counter (fetches addr k (i + 1)))
    (hkind : ∀ a count rd, kind = some (a, .repeat count rd) →
      Halfword a ∧ count = T.counter a) :
    (⟨k, i, kind, T.pages.entries, T.execs.entries⟩ : Report).Counted addr :=
  ⟨hcounts, hkind, T.pages.nodupKeys, T.execs.nodupKeys, hc.counted⟩

theorem CountInv.fetch (h : CountInv addr i M st) {live : Mem} {x : Fetched}
    (ha : addr i = x.addr) (heven : Halfword x.addr) (hf : M.fetch live x = some M') :
    ∃ items, M'.log = M.log ++ items ∧
      CountInv addr (i + 1) M' ((items.map fun item => (i, item)).foldl readReport st) := by
  obtain ⟨items, k, hout, hlog, hread, hk, hc, hcounts⟩ := h.begin x
  rw [Manager.fetch_eq h.out] at hf
  obtain ⟨⟨T₁, firstVisit⟩, hfetch, hf⟩ := Option.bind_eq_some_iff.mp hf
  obtain ⟨⟨T₂, found⟩, hfound, hf⟩ := Option.bind_eq_some_iff.mp hf
  dsimp only at hfetch hfound hf
  obtain ⟨hc₁, hmem⟩ := MemTrace.fetch_keys hc hfetch
  obtain ⟨hc₂, hsame, hrepeat⟩ := Manager.lookForBreak_counter hc₁ hmem hfound
  dsimp only at hc₁ hc₂ hsame hrepeat
  have hcounts₂ : Counts Halfword T₂.counter (fetches addr k (i + 1)) := by
    rw [fetches_succ addr hk, ha, hsame]
    exact hcounts.bump (MemTrace.fetch_bumps hc.wf heven hfetch)
  cases found with
  | none =>
    have hstep : M'.out = true ∧ M'.mem = some T₂ ∧
        M'.log = M.log ++ (items ++ Manager.markItems x) := by
      rw [← Option.some.inj hf, Manager.markItems]
      by_cases he : x.inst = ECALL
      · rw [if_pos he, if_pos he, ← List.append_assoc, ← hlog]
        exact ⟨hout, rfl, rfl⟩
      · rw [if_neg he, if_neg he, List.append_nil, ← hlog]
        exact ⟨hout, rfl, rfl⟩
    obtain ⟨hout', hmem', hlog'⟩ := hstep
    refine ⟨_, hlog', ?_⟩
    rw [List.map_append, List.foldl_append, hread, foldl_quiet _ _ (markItems_quiet x)]
    exact ⟨hout', h.done, .inr ⟨k, T₂, rfl, hmem', hk.trans (Nat.le_succ i), hc₂, hcounts₂⟩⟩
  | some kind =>
    have hstep : M'.out = true ∧ M'.mem = none ∧ M'.log = M.log ++ (items ++
        .break x.addr kind :: .file (M.beginHere x).1.beginInstret x.instret T₂.pages.entries
          T₂.execs.entries :: Manager.storeItems T₂ live) := by
      rw [← Option.some.inj hf, ← List.append_assoc, ← hlog]
      simp only [Manager.breakHere, Manager.emit, List.append_assoc, List.cons_append,
        List.nil_append]
      exact ⟨hout, trivial, trivial⟩
    obtain ⟨hout', hmem', hlog'⟩ := hstep
    have hreport : (⟨k, i, some (x.addr, kind), T₂.pages.entries, T₂.execs.entries⟩ :
        Report).Counted addr := by
      apply counted_report hc₂ hcounts₂
      intro a count rd hkind
      obtain ⟨rfl, rfl⟩ := Prod.mk.inj (Option.some.inj hkind)
      exact ⟨heven, by rw [hrepeat count rd rfl, hsame]⟩
    refine ⟨_, hlog', ?_⟩
    rw [List.map_append, List.foldl_append, hread, List.map_cons, List.foldl_cons, List.map_cons,
      List.foldl_cons, foldl_quiet _ _ (storeItems_quiet T₂ live)]
    refine ⟨hout', fun r hr => ?_, .inl ⟨rfl, hmem'⟩⟩
    obtain hr | hr := List.mem_append.mp hr
    · exact h.done r hr
    · rw [List.mem_singleton.mp hr]
      exact hreport

/-! ## A run -/

theorem CountInv.effect (h : CountInv addr i M st) {e : Effect} (he : e.perform M = some M') :
    ∃ items, M'.log = M.log ++ items ∧ (∀ item ∈ items, item.Quiet) ∧ CountInv addr i M' st := by
  obtain ⟨hcur, hnone⟩ | ⟨k, T, hcur, hT, hk, hc, hcounts⟩ := h.shape
  · have hsame : M' = M := by
      cases e <;> simp only [Effect.perform, Manager.load, Manager.store, Manager.syscall, hnone]
        at he <;> exact (Option.some.inj he).symm
    exact ⟨[], by rw [hsame, List.append_nil], by simp, hsame ▸ h⟩
  -- every effect keeps the counters and prints at most a record
  have hinv : ∀ (T' : MemTrace) (log : List LogItem), T'.Consistent → T'.counter = T.counter →
      CountInv addr i { M with mem := some T', log := log } st := by
    intro T' log hc' hsame
    exact ⟨h.out, h.done, .inr ⟨k, T', hcur, rfl, hk, hc', by rw [hsame]; exact hcounts⟩⟩
  cases e with
  | load w addr data =>
    simp only [Effect.perform, Manager.load, hT] at he
    obtain ⟨T', hload, rfl⟩ := Option.map_eq_some_iff.mp he
    exact ⟨[], (List.append_nil _).symm, by simp,
      hinv T' M.log (hc.load hload) (MemTrace.load_extends hload).counter⟩
  | store w addr =>
    simp only [Effect.perform, Manager.store, hT] at he
    obtain ⟨T', hstore, rfl⟩ := Option.map_eq_some_iff.mp he
    exact ⟨[], (List.append_nil _).symm, by simp,
      hinv T' M.log (hc.store hstore) (MemTrace.store_extends hstore).counter⟩
  | syscall live retval addr size =>
    simp only [Effect.perform, Manager.syscall, hT] at he
    by_cases ha : addr ≠ 0
    · rw [if_pos ha] at he
      obtain ⟨T', hstore, rfl⟩ := Option.map_eq_some_iff.mp he
      exact ⟨[.result retval (some (addr, live.bytes addr size))], rfl, by simp [LogItem.Quiet],
        hinv T' _ (hc.storeBytes hstore) (MemTrace.storeBytes_counter hstore)⟩
    · rw [if_neg ha] at he
      obtain rfl := Option.some.inj he
      have hkeep := hinv T (M.log ++ [.result retval none]) hc rfl
      rw [← hT] at hkeep
      exact ⟨[.result retval none], rfl, by simp [LogItem.Quiet], hkeep⟩

theorem CountInv.effects (h : CountInv addr i M st) {es : List Effect}
    (hes : es.foldlM Effect.perform M = some M') :
    ∃ items, M'.log = M.log ++ items ∧ (∀ item ∈ items, item.Quiet) ∧ CountInv addr i M' st := by
  induction es generalizing M with
  | nil =>
    obtain rfl := Option.some.inj hes
    exact ⟨[], (List.append_nil _).symm, by simp, h⟩
  | cons e es ih =>
    obtain ⟨M₁, hM₁, hrest⟩ := Option.bind_eq_some_iff.mp hes
    obtain ⟨items₁, hlog₁, hquiet₁, h₁⟩ := h.effect hM₁
    obtain ⟨items₂, hlog₂, hquiet₂, h₂⟩ := ih h₁ hrest
    refine ⟨items₁ ++ items₂, by rw [hlog₂, hlog₁, List.append_assoc], ?_, h₂⟩
    intro item hitem
    exact (List.mem_append.mp hitem).elim (hquiet₁ item) (hquiet₂ item)

theorem CountInv.pass (h : CountInv addr i M st) {p : Pass} {instret : BitVec 64}
    (ha : addr i = p.addr) (heven : Halfword p.addr) (hp : p.perform M instret = some M') :
    (∃ items, M'.log = M.log ++ items) ∧
      CountInv addr (i + 1) M' ((newItems i M M').foldl readReport st) := by
  obtain ⟨M₁, hM₁, heffects⟩ := Option.bind_eq_some_iff.mp hp
  obtain ⟨items₁, hlog₁, h₁⟩ := h.fetch (x := p.fetched instret) ha heven hM₁
  obtain ⟨items₂, hlog₂, hquiet, h₂⟩ := h₁.effects heffects
  have hlog : M'.log = M.log ++ (items₁ ++ items₂) := by
    rw [hlog₂, hlog₁, List.append_assoc]
  refine ⟨⟨_, hlog⟩, ?_⟩
  rw [newItems_eq i hlog, List.map_append, List.foldl_append, foldl_quiet _ _ hquiet]
  exact h₂

/-- The exit system call closes the open checkpoint. -/
theorem exit_report {T : MemTrace} {k : ℕ} (hT : M.mem = some T) (hcur : st.cur = some (k, none))
    (i : ℕ) (live : Mem) (instret : BitVec 64) (rc : BitVec 32) :
    ∃ items, (M.exit live instret rc).log = M.log ++ items ∧
      (items.map fun item => (i, item)).foldl readReport st =
        ⟨st.done ++ [⟨k, i, none, T.pages.entries, T.execs.entries⟩], none⟩ := by
  have hlog : (M.exit live instret rc).log = M.log ++ (.exit rc ::
      .file M.beginInstret instret T.pages.entries T.execs.entries ::
      Manager.storeItems T live) := by
    rw [Manager.exit, hT]
    simp only [Manager.breakHere, Manager.emit, hT, List.append_assoc, List.cons_append,
      List.nil_append]
  refine ⟨_, hlog, ?_⟩
  rw [List.map_cons, List.foldl_cons, readReport_quiet _ _ (by trivial), List.map_cons,
    List.foldl_cons, foldl_quiet _ _ (storeItems_quiet T live), readReport, hcur]

theorem CountInv.exit (h : CountInv addr (i + 1) M st) (live : Mem) (instret : BitVec 64)
    (rc : BitVec 32) :
    ∃ items, (M.exit live instret rc).log = M.log ++ items ∧
      ∀ r ∈ ((items.map fun item => (i, item)).foldl readReport st).done, r.Counted addr := by
  obtain ⟨hcur, hnone⟩ | ⟨k, T, hcur, hT, -, hc, hcounts⟩ := h.shape
  · rw [Manager.exit, hnone]
    exact ⟨[], (List.append_nil _).symm, h.done⟩
  · obtain ⟨items, hlog, hread⟩ := exit_report hT hcur i live instret rc
    refine ⟨items, hlog, fun r hr => ?_⟩
    rw [hread] at hr
    obtain hr | hr := List.mem_append.mp hr
    · exact h.done r hr
    · rw [List.mem_singleton.mp hr]
      exact counted_report hc hcounts fun a count rd hkind => by cases hkind

theorem CountInv.loop (h : CountInv addr i M st) {ps : List Pass} {instret : BitVec 64}
    {items : List (ℕ × LogItem)}
    (ha : ∀ k p, ps[k]? = some p → addr (i + k) = p.addr ∧ Halfword p.addr)
    (hrun : runLoop M instret i ps = some (M', items)) :
    CountInv addr (i + ps.length) M' (items.foldl readReport st) := by
  induction ps generalizing i instret M st items with
  | nil =>
    cases hrun
    exact h
  | cons p ps ih =>
    obtain ⟨M₁, hM₁, hrun⟩ := Option.bind_eq_some_iff.mp hrun
    obtain ⟨⟨M₂, rest⟩, hrest, hrun⟩ := Option.bind_eq_some_iff.mp hrun
    cases hrun
    obtain ⟨haddr, heven⟩ := ha 0 p rfl
    have h₁ := (h.pass haddr heven hM₁).2
    have hnext := ih h₁ (fun k q hq => by
      have hq' := ha (k + 1) q (by simpa using hq)
      rwa [show i + 1 + k = i + (k + 1) by omega]) hrest
    rw [List.foldl_append, List.length_cons, show i + (ps.length + 1) = i + 1 + ps.length by omega]
    exact hnext

end

/-- Every pass of the run, the one that ends it included, is at an even address. -/
def Aligned (ps : List Pass) (ending : Ending) : Prop :=
  ∀ p ∈ ps ++ ending.pass.toList, Halfword p.addr

/-- In every report of a run the counters are the numbers of fetches modulo `2 ^ 32`. -/
theorem runProgram_counted {M : Manager} {instret : BitVec 64} {ps : List Pass}
    {ending : Ending} {items : List (ℕ × LogItem)} (hout : M.out = true) (hmem : M.mem = none)
    (haligned : Aligned ps ending) (hrun : runProgram M instret ps ending = some items) :
    ∀ r ∈ reports items, r.Counted (passAddr ps ending) := by
  obtain ⟨⟨M₁, items₁⟩, hM₁, hrun⟩ := Option.bind_eq_some_iff.mp hrun
  obtain ⟨M₂, hM₂, hrun⟩ := Option.bind_eq_some_iff.mp hrun
  obtain rfl := Option.some.inj hrun
  have hinit : CountInv (passAddr ps ending) 0 M ⟨[], none⟩ :=
    ⟨hout, by simp, .inl ⟨rfl, hmem⟩⟩
  have hloop := hinit.loop (fun k p hp => by
    obtain ⟨hlt, hget⟩ := List.getElem?_eq_some_iff.mp hp
    refine ⟨?_, haligned p (List.mem_append_left _ (hget ▸ List.getElem_mem hlt))⟩
    rw [Nat.zero_add, passAddr, List.getElem?_append_left hlt, hp]
    rfl) hM₁
  rw [Nat.zero_add] at hloop
  have hlast : ∀ p, ending.pass = some p →
      passAddr ps ending ps.length = p.addr ∧ Halfword p.addr := by
    intro p hp
    refine ⟨?_, haligned p (List.mem_append_right _ (by rw [hp]; simp))⟩
    rw [passAddr, hp, List.getElem?_append_right le_rfl]
    simp
  rw [reports, List.foldl_append]
  cases ending with
  | between =>
    cases hM₂
    have hnil : newItems ps.length M₁ M₁ = [] := newItems_eq ps.length (List.append_nil _).symm
    rw [hnil]
    exact hloop.done
  | trap p =>
    obtain ⟨haddr, heven⟩ := hlast p rfl
    exact (hloop.pass haddr heven hM₂).2.done
  | exit p rc =>
    obtain ⟨haddr, heven⟩ := hlast p rfl
    obtain ⟨M₃, hM₃, hexit⟩ := Option.bind_eq_some_iff.mp hM₂
    obtain rfl := Option.some.inj hexit
    obtain ⟨⟨new, hnew⟩, hinv⟩ := hloop.pass haddr heven hM₃
    obtain ⟨closing, hlog, hcounted⟩ :=
      hinv.exit p.live (instret + BitVec.ofNat 64 ps.length) rc
    have hlog' : (M₃.exit p.live (instret + BitVec.ofNat 64 ps.length) rc).log =
        M₁.log ++ (new ++ closing) := by
      rw [hlog, hnew, List.append_assoc]
    rw [newItems_eq _ hlog', List.map_append, List.foldl_append, ← newItems_eq _ hnew]
    exact hcounted

end RvCkpt
