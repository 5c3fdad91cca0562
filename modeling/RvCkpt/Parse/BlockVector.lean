import RvCkpt.Parse.FreeList
import RvCkpt.Parse.Rebuild
import RvCkpt.Recorder.Reports
import Mathlib.Data.Finset.Sort

/-! # Basic-block vectors

`dump_bbv` of `src/ckpt/parse.py`. The index of a branch comes from a disassembly of the program;
it is a parameter. The counts that a checkpoint reports, and the block vector made from them, are
exact as long as none of its addresses is fetched `2 ^ 32` times.
-/

namespace RvCkpt.Parse
open ByteMem Text Tally
set_option autoImplicit false

/-- `:%d:%d `, for an address that has an index. -/
def bbvEntry (count : ℕ) : Option ℕ → List Char
  | some index => ':' :: numeral 10 index ++ ':' :: numeral 10 count ++ [' ']
  | none => []

section
variable (index : ℕ → Option ℕ)

/-- The counts of one page. -/
def dumpCounts (pn : ℕ) (execCount : List ℕ) : List Char :=
  execCount.zipIdx.flatMap fun (count, i) =>
    if count = 0 then [] else bbvEntry count (index (pn * PAGE_SIZE + i * 2))

def dumpBbv (d : Draft) : List Char :=
  'T' :: (d.pages.items.flatMap fun page =>
    match d.counts.lookup page.1 with
    | none => []
    | some execCount => dumpCounts index page.1 execCount) ++ ['\n']

/-- The block vector of a sequence of fetches: each address that was fetched and has an index, in
order, with the number of its fetches. -/
def blockVector (events : List ℕ) : List Char :=
  'T' :: (events.toFinset.sort.flatMap fun pc => bbvEntry (events.count pc) (index pc)) ++ ['\n']

end

/-! ## The addresses of a page -/

def halfwords (pn : ℕ) : List ℕ := (List.range (PAGE_SIZE / 2)).map fun i => pn * PAGE_SIZE + i * 2

theorem mem_halfwords {pn pc : ℕ} : pc ∈ halfwords pn ↔ Halfword pc ∧ pc / PAGE_SIZE = pn := by
  rw [halfwords, List.mem_map, Halfword]
  unfold PAGE_SIZE
  constructor
  · rintro ⟨i, hi, rfl⟩
    rw [List.mem_range] at hi
    omega
  · rintro ⟨heven, hpage⟩
    exact ⟨pc % 4096 / 2, List.mem_range.mpr (by omega), by omega⟩

theorem halfwords_pairwise (pn : ℕ) : (halfwords pn).Pairwise (· < ·) := by
  rw [halfwords, List.pairwise_map]
  exact List.pairwise_lt_range.imp fun hlt => by omega

/-- The addresses of a table's pages that were fetched are in order. -/
theorem fetched_pairwise {items : List (Σ _ : ℕ, Page)}
    (h : items.Pairwise fun p q => p.1 < q.1) (events : List ℕ) :
    (items.flatMap fun page => (halfwords page.1).filter (· ∈ events)).Pairwise (· < ·) := by
  rw [List.pairwise_flatMap]
  refine ⟨fun page _ => (halfwords_pairwise page.1).filter _, h.imp ?_⟩
  intro p q hlt a ha b hb
  have hpa := (mem_halfwords.mp (List.mem_filter.mp ha).1).2
  have hqb := (mem_halfwords.mp (List.mem_filter.mp hb).1).2
  by_contra hle
  have hdiv := Nat.div_le_div_right (c := PAGE_SIZE) (Nat.not_lt.mp hle)
  omega

theorem zipIdx_counts (e : ExecRec) : (countsList e).zipIdx =
    (List.range (PAGE_SIZE / 2)).map fun i => ((e.count i).toNat, i) := by
  apply List.ext_getElem
  · simp [countsList]
  · intro i h₁ h₂
    simp [countsList]

/-! ## Exact counts -/

/-- The counts of a checkpoint that has been read. -/
structure Draft.HasCounts (d : Draft) (execs : List (Σ _ : ℕ, ExecRec)) : Prop where
  counts : ∀ pn, d.counts.lookup pn = (execs.dlookup pn).map countsList
  pages : ∀ pn ∈ execs.keys, (d.pages.lookup pn).isSome

variable {index : ℕ → Option ℕ} {execs : List (Σ _ : ℕ, ExecRec)} {events : List ℕ}

/-- Skipping what has no count is skipping what has no event. -/
theorem flatMap_counts (count pc : ℕ → ℕ) (text : ℕ → ℕ → List Char) (l : List ℕ)
    (h : ∀ i ∈ l, count i = events.count (pc i)) :
    (l.flatMap fun i => if count i = 0 then [] else text (count i) (pc i)) =
      (l.filter ((fun a => decide (a ∈ events)) ∘ pc)).flatMap fun i =>
        text (events.count (pc i)) (pc i) := by
  induction l with
  | nil => rfl
  | cons i l ih =>
    rw [List.flatMap_cons, ih fun j hj => h j (List.mem_cons_of_mem _ hj), List.filter_cons,
      h i (by simp)]
    by_cases hmem : pc i ∈ events
    · rw [if_neg (List.count_pos_iff.mpr hmem).ne', if_pos (by simpa using hmem),
        List.flatMap_cons]
    · rw [if_pos (List.count_eq_zero.mpr hmem), if_neg (by simpa using hmem), List.nil_append]

/-- The text of a page, in terms of its addresses. -/
theorem dumpCounts_eq {pn : ℕ} {e : ExecRec} (hexec : execs.dlookup pn = some e)
    (hexact : ∀ pc, Halfword pc → (counterOf execs pc).toNat = events.count pc) :
    dumpCounts index pn (countsList e) =
      ((halfwords pn).filter (· ∈ events)).flatMap fun pc =>
        bbvEntry (events.count pc) (index pc) := by
  have hcount : ∀ i < PAGE_SIZE / 2, (e.count i).toNat = events.count (pn * PAGE_SIZE + i * 2) := by
    intro i hi
    have hpage : (pn * PAGE_SIZE + i * 2) / PAGE_SIZE = pn ∧
        (pn * PAGE_SIZE + i * 2) % PAGE_SIZE / 2 = i := by
      unfold PAGE_SIZE at *
      omega
    have heven : Halfword (pn * PAGE_SIZE + i * 2) := by
      unfold Halfword PAGE_SIZE
      omega
    rw [← hexact _ heven, counterOf, hpage.1, hexec, Option.map_some, Option.getD_some,
      ExecRec.get, hpage.2]
  rw [dumpCounts, zipIdx_counts, List.flatMap_map, halfwords, List.filter_map, List.flatMap_map]
  exact flatMap_counts (fun i => (e.count i).toNat) (fun i => pn * PAGE_SIZE + i * 2)
    (fun count pc => bbvEntry count (index pc)) _ fun i hi => hcount i (List.mem_range.mp hi)

/-- With exact counts the block vector is exact. -/
theorem dumpBbv_eq {d : Draft} (hd : d.HasCounts execs) (hevents : ∀ pc ∈ events, Halfword pc)
    (hexact : ∀ pc, Halfword pc → (counterOf execs pc).toNat = events.count pc) :
    dumpBbv index d = blockVector index events := by
  have hpage : ∀ page ∈ d.pages.items,
      (match d.counts.lookup page.1 with
        | none => []
        | some execCount => dumpCounts index page.1 execCount) =
      ((halfwords page.1).filter (· ∈ events)).flatMap fun pc =>
        bbvEntry (events.count pc) (index pc) := by
    intro page _
    rw [hd.counts]
    cases hexec : execs.dlookup page.1 with
    | some e => exact dumpCounts_eq hexec hexact
    | none =>
      -- no address of a page without counts was fetched
      have hnone : (halfwords page.1).filter (· ∈ events) = [] := by
        rw [List.filter_eq_nil_iff]
        intro pc hpc hmem
        obtain ⟨heven, hpn⟩ := mem_halfwords.mp hpc
        have hzero := hexact pc heven
        rw [counterOf, hpn, hexec] at hzero
        exact (List.count_pos_iff.mpr (of_decide_eq_true hmem)).ne hzero
      rw [hnone]
      rfl
  have hsorted := fetched_pairwise (PageMap.items_sorted d.pages) events
  have hset : (d.pages.items.flatMap fun page =>
      (halfwords page.1).filter (· ∈ events)).toFinset = events.toFinset := by
    ext pc
    simp only [List.mem_toFinset, List.mem_flatMap, List.mem_filter, decide_eq_true_eq]
    constructor
    · rintro ⟨_, _, _, hmem⟩
      exact hmem
    · intro hmem
      have heven := hevents pc hmem
      have hkey : pc / PAGE_SIZE ∈ execs.keys := by
        by_contra hnot
        have hzero := hexact pc heven
        rw [counterOf, List.dlookup_eq_none.mpr hnot] at hzero
        exact (List.count_pos_iff.mpr hmem).ne hzero
      obtain ⟨page, hlookup⟩ := Option.isSome_iff_exists.mp (hd.pages _ hkey)
      exact ⟨⟨_, page⟩, PageMap.mem_items.mpr hlookup, mem_halfwords.mpr ⟨heven, rfl⟩, hmem⟩
  rw [dumpBbv, blockVector, List.flatMap_congr hpage, ← List.flatMap_assoc, ← hset,
    (List.toFinset_sort _ hsorted.nodup).mpr (hsorted.imp fun h => h.le)]

/-! ## The reports of a run -/

/-- A checkpoint after the lines about its dump have been read. -/
def readDump (d : Draft) (r : Report) : Draft := r.execs.foldl addExec (r.pages.foldl addPage d)

theorem readDump_hasCounts {addr : ℕ → ℕ} {r : Report} (hr : r.Counted addr) {d : Draft}
    (hnone : ∀ pn, d.counts.lookup pn = none) : (readDump d r).HasCounts r.execs := by
  obtain ⟨m₁, c₁, heq₁, hm₁, hc₁⟩ := foldl_addPage d hr.pagesNodup hnone
  have hkeys : ∀ pn ∈ r.execs.keys, (m₁.lookup pn).isSome := by
    intro pn hpn
    have hpage := List.dlookup_isSome.mpr (hr.paged pn hpn)
    rw [hm₁, Option.isSome_or, Option.isSome_map, hpage, Bool.true_or]
  obtain ⟨m₂, c₂, heq₂, hm₂, hc₂⟩ :=
    foldl_addExec { d with pages := m₁, counts := c₁ } hr.execsNodup hkeys
  rw [readDump, heq₁, heq₂]
  refine ⟨fun pn => ?_, fun pn hpn => ?_⟩
  · rw [hc₂, hc₁, Option.or_none]
  · rw [hm₂]
    exact hkeys pn hpn

/-- What a checkpoint reports is exact: its counters, the count of a repeating break instruction,
and the block vector that is derived from them, for any program. -/
structure Exact (addr : ℕ → ℕ) (r : Report) : Prop where
  counts : ∀ pc, Halfword pc → (counterOf r.execs pc).toNat = (r.fetches addr).count pc
  again : ∀ pc count rd, r.kind = some (pc, .repeat count rd) →
    count.toNat = (r.fetches addr).count pc
  vector : ∀ (index : ℕ → Option ℕ) (d : Draft), (∀ pn, d.counts.lookup pn = none) →
    dumpBbv index (readDump d r) = blockVector index (r.fetches addr)

theorem exact_iff {addr : ℕ → ℕ} (haddr : ∀ i, Halfword (addr i)) {r : Report}
    (hr : r.Counted addr) : Exact addr r ↔ ∀ pc, (r.fetches addr).count pc < 2 ^ 32 := by
  have heven : ∀ pc ∈ r.fetches addr, Halfword pc := by
    intro pc hpc
    obtain ⟨i, -, rfl⟩ := List.mem_map.mp hpc
    exact haddr i
  constructor
  · intro h pc
    by_cases hpc : Halfword pc
    · exact (hr.counts.exact_iff hpc).mp (h.counts pc hpc)
    · rw [List.count_eq_zero.mpr fun hmem => hpc (heven pc hmem)]
      decide
  · intro h
    have hcounts : ∀ pc, Halfword pc →
        (counterOf r.execs pc).toNat = (r.fetches addr).count pc :=
      fun pc hpc => (hr.counts.exact_iff hpc).mpr (h pc)
    refine ⟨hcounts, fun pc count rd hkind => ?_, fun index d hd => ?_⟩
    · obtain ⟨hpc, rfl⟩ := hr.again pc count rd hkind
      exact hcounts pc hpc
    · exact dumpBbv_eq (readDump_hasCounts hr hd) heven hcounts

theorem passAddr_even {ps : List Pass} {ending : Ending} (h : Aligned ps ending) (i : ℕ) :
    Halfword (passAddr ps ending i) := by
  rw [passAddr]
  cases hpass : (ps ++ ending.pass.toList)[i]? with
  | none => rfl
  | some p => exact h p (List.mem_of_getElem? hpass)

/-- **Execution counters.** For any run, each checkpoint's counters, repeat count and block vector
are exact if and only if none of its addresses is fetched `2 ^ 32` times. -/
theorem counters_exact_iff {M : Manager} {instret : BitVec 64} {ps : List Pass} {ending : Ending}
    {items : List (ℕ × LogItem)} (hout : M.out = true) (hmem : M.mem = none)
    (haligned : Aligned ps ending) (hrun : runProgram M instret ps ending = some items) :
    ∀ r ∈ reports items, Exact (passAddr ps ending) r ↔
      ∀ pc, (r.fetches (passAddr ps ending)).count pc < 2 ^ 32 :=
  fun r hr => exact_iff (passAddr_even haligned) (runProgram_counted hout hmem haligned hrun r hr)

theorem shortRun_exact : ∃ items, runProgram (manager 0) 5 shortRun .between = some items ∧
    ((reports items).map fun r => (r.start, r.stop)) = [(0, 1), (2, 3)] ∧
    ∀ r ∈ reports items, Exact (passAddr shortRun .between) r := by
  have hrun : ((runProgram (manager 0) 5 shortRun .between).map fun items =>
      (reports items).map fun r => (r.start, r.stop)) = some [(0, 1), (2, 3)] := by
    decide
  obtain ⟨items, hitems, hreports⟩ := Option.map_eq_some_iff.mp hrun
  have haligned : Aligned shortRun .between := by
    unfold Aligned Halfword
    decide
  refine ⟨items, hitems, hreports, fun r hr => ?_⟩
  apply (counters_exact_iff rfl rfl haligned hitems r hr).mpr
  intro pc
  have hmem : (r.start, r.stop) ∈ [(0, 1), (2, 3)] :=
    hreports ▸ List.mem_map.mpr ⟨r, hr, rfl⟩
  have hstop : r.stop ≤ 3 := by
    simp only [List.mem_cons, List.not_mem_nil, Prod.mk.injEq, or_false] at hmem
    omega
  have hle := List.count_le_length (a := pc) (l := r.fetches (passAddr shortRun .between))
  rw [Report.fetches, fetches, List.length_map, List.length_range'] at hle
  rw [Report.fetches, fetches]
  omega

/-! ## A hot loop -/

/-- The instruction of a loop that jumps to itself, in an interval that no break ends. -/
def hotManager : Manager := manager (BitVec.allOnes 64)

def hotPass : Pass := nopAt 0x10000

/-- The run is at pass `i` of the loop, in the checkpoint that pass 0 has begun. -/
structure Hot (i : ℕ) (M : Manager) (st : ReportReading) : Prop where
  out : M.out = true
  period : M.period = BitVec.allOnes 64
  shape : (i = 0 ∧ M.mem = none ∧ st = ⟨[], none⟩) ∨
    ∃ T, M.mem = some T ∧ T.Consistent ∧ st = ⟨[], some (0, none)⟩

theorem fetch_hot {T : MemTrace} (h : T.Consistent) :
    ∃ r, T.fetch hotPass.addr hotPass.inst hotPass.length = some r := by
  have hpage : hotPass.addr / PAGE_SIZE ≠ 0 := by decide
  obtain ⟨T₁, hincr, hwf, -⟩ := MemTrace.incrExecCounter_spec h.wf (.inl hpage)
  obtain ⟨-, -, hcache, hmem, -⟩ := MemTrace.selectFetch_spec (hotPass.addr / PAGE_SIZE) hwf
    (.inl hpage)
  obtain ⟨page, hlookup⟩ := MemTrace.lookup_of_mem hmem
  have hderef : (T₁.selectFetch (hotPass.addr / PAGE_SIZE)).deref
      (T₁.selectFetch (hotPass.addr / PAGE_SIZE)).fetchCache = some page := by
    rw [MemTrace.deref, hcache]
    exact hlookup
  rw [MemTrace.fetch, hincr, Option.bind_eq_bind, Option.bind_some]
  dsimp only
  rw [if_neg (by decide), if_pos (by decide), MemTrace.fetchAt, hderef]
  exact ⟨_, rfl⟩

theorem perform_hot {M : Manager} {instret : BitVec 64} (hout : M.out = true)
    (hperiod : (M.beginHere (hotPass.fetched instret)).1.period = BitVec.allOnes 64)
    (hc : (M.beginHere (hotPass.fetched instret)).2.Consistent) :
    ∃ T, T.Consistent ∧ hotPass.perform M instret =
      some { (M.beginHere (hotPass.fetched instret)).1 with mem := some T } := by
  obtain ⟨⟨T, firstVisit⟩, hfetch⟩ := fetch_hot hc
  have hnone : (M.beginHere (hotPass.fetched instret)).1.lookForBreak T (hotPass.fetched instret)
      firstVisit = some (T, none) := by
    rw [Manager.lookForBreak, hperiod, if_neg]
    exact BitVec.not_allOnes_lt
  have hhook : M.fetch hotPass.live (hotPass.fetched instret) =
      some { (M.beginHere (hotPass.fetched instret)).1 with mem := some T } := by
    have hfetch' : (M.beginHere (hotPass.fetched instret)).2.fetch (hotPass.fetched instret).addr
        (hotPass.fetched instret).inst (hotPass.fetched instret).length =
        some (T, firstVisit) := hfetch
    rw [Manager.fetch_eq hout, hfetch', Option.bind_some, hnone, Option.bind_some]
    rfl
  exact ⟨T, (MemTrace.fetch_keys hc hfetch).1, by rw [Pass.perform, hhook]; rfl⟩

theorem Hot.pass {i : ℕ} {M : Manager} {st : ReportReading} (h : Hot i M st) (instret : BitVec 64) :
    ∃ M', hotPass.perform M instret = some M' ∧ (∃ items, M'.log = M.log ++ items) ∧
      Hot (i + 1) M' ((newItems i M M').foldl readReport st) := by
  obtain ⟨hi, hnone, hst⟩ | ⟨T, hT, hc, hst⟩ := h.shape
  · have hbegin : M.beginHere (hotPass.fetched instret) = ({ M with
        beginInstret := instret
        log := M.log ++ [.begin hotPass.addr hotPass.ireg hotPass.freg] }, .new) := by
      rw [Manager.beginHere, hnone]
      rfl
    obtain ⟨T', hc', hpass⟩ := perform_hot h.out (by rw [hbegin]; exact h.period)
      (by rw [hbegin]; exact MemTrace.consistent_new)
    rw [hbegin] at hpass
    refine ⟨_, hpass, ⟨_, rfl⟩, h.out, h.period, .inr ⟨T', rfl, hc', ?_⟩⟩
    rw [newItems_eq i rfl, hi, hst]
    rfl
  · have hbegin : M.beginHere (hotPass.fetched instret) = (M, T) := by
      rw [Manager.beginHere, hT]
    obtain ⟨T', hc', hpass⟩ := perform_hot h.out (by rw [hbegin]; exact h.period)
      (by rw [hbegin]; exact hc)
    rw [hbegin] at hpass
    have hlog : ({ M with mem := some T' } : Manager).log = M.log ++ [] :=
      (List.append_nil M.log).symm
    refine ⟨_, hpass, ⟨_, hlog⟩, h.out, h.period, .inr ⟨T', rfl, hc', ?_⟩⟩
    rw [newItems_eq i hlog, hst]
    rfl

theorem Hot.loop {i : ℕ} {M : Manager} {st : ReportReading} (h : Hot i M st) (instret : BitVec 64)
    (n : ℕ) : ∃ M' items, runLoop M instret i (List.replicate n hotPass) = some (M', items) ∧
      Hot (i + n) M' (items.foldl readReport st) := by
  induction n generalizing i M st instret with
  | zero => exact ⟨M, [], rfl, h⟩
  | succ n ih =>
    obtain ⟨M₁, hM₁, -, h₁⟩ := h.pass instret
    obtain ⟨M₂, items, hM₂, h₂⟩ := ih h₁ (instret + 1)
    refine ⟨M₂, newItems i M M₁ ++ items, ?_, ?_⟩
    · rw [List.replicate_succ, runLoop, hM₁, Option.bind_eq_bind, Option.bind_some, hM₂]
      rfl
    · rw [List.foldl_append, show i + (n + 1) = i + 1 + n by omega]
      exact h₂

/-- A loop of any length, up to the exit system call in its last pass. -/
theorem hot_report (n : ℕ) :
    ∃ items r, runProgram hotManager 0 (List.replicate n hotPass) (.exit hotPass 0) = some items ∧
      r ∈ reports items ∧ r.start = 0 ∧ r.stop = n := by
  have hinit : Hot 0 hotManager ⟨[], none⟩ := ⟨rfl, rfl, .inl ⟨rfl, rfl, rfl⟩⟩
  obtain ⟨M₁, items, hloop, h₁⟩ := hinit.loop 0 n
  rw [Nat.zero_add] at h₁
  obtain ⟨M₂, hpass, ⟨new, hnew⟩, h₂⟩ := h₁.pass (0 + BitVec.ofNat 64 n)
  obtain ⟨hzero, -⟩ | ⟨T, hT, -, hst⟩ := h₂.shape
  · omega
  have hcur : ((newItems n M₁ M₂).foldl readReport (items.foldl readReport ⟨[], none⟩)).cur =
      some (0, none) := by
    rw [hst]
  obtain ⟨closing, hlog, hread⟩ :=
    exit_report hT hcur n hotPass.live (0 + BitVec.ofNat 64 n) 0
  rw [hnew, List.append_assoc] at hlog
  refine ⟨items ++ (new ++ closing).map fun item => (n, item),
    ⟨0, n, none, T.pages.entries, T.execs.entries⟩, ?_, ?_, rfl, rfl⟩
  · rw [runProgram, hloop, Option.bind_eq_bind, Option.bind_some]
    dsimp only
    rw [Ending.perform, List.length_replicate, hpass]
    exact congrArg (fun new => some (items ++ new)) (newItems_eq n hlog)
  · rw [reports, List.foldl_append, List.map_append, List.foldl_append, ← newItems_eq n hnew,
      hread]
    exact List.mem_append_right _ (List.mem_singleton.mpr rfl)

theorem hot_fetches (n : ℕ) :
    fetches (passAddr (List.replicate n hotPass) (.exit hotPass 0)) 0 (n + 1) =
      List.replicate (n + 1) 0x10000 := by
  rw [fetches, Nat.sub_zero]
  refine List.eq_replicate_iff.mpr ⟨by rw [List.length_map, List.length_range'], fun b hb => ?_⟩
  obtain ⟨i, hi, rfl⟩ := List.mem_map.mp hb
  have hlt : i < n + 1 := by
    rw [List.mem_range'_1] at hi
    omega
  have hpasses : List.replicate n hotPass ++ (Ending.exit hotPass 0).pass.toList =
      List.replicate (n + 1) hotPass := List.replicate_succ'.symm
  rw [passAddr, hpasses, List.getElem?_replicate, if_pos hlt]
  rfl

/-- After `2 ^ 32` turns of a loop the counter of its instruction is back at zero. -/
theorem hot_loop_wraps : ∃ items r,
    runProgram hotManager 0 (List.replicate (2 ^ 32 - 1) hotPass) (.exit hotPass 0) = some items ∧
    r ∈ reports items ∧ counterOf r.execs 0x10000 = 0 ∧
    (r.fetches (passAddr (List.replicate (2 ^ 32 - 1) hotPass) (.exit hotPass 0))).count 0x10000 =
      2 ^ 32 := by
  obtain ⟨items, r, hrun, hr, hstart, hstop⟩ := hot_report (2 ^ 32 - 1)
  have haligned : Aligned (List.replicate (2 ^ 32 - 1) hotPass) (.exit hotPass 0) := by
    intro p hp
    obtain hp | hp := List.mem_append.mp hp
    · rw [List.eq_of_mem_replicate hp]
      rfl
    · rw [List.mem_singleton.mp hp]
      rfl
  have hcount : (r.fetches (passAddr (List.replicate (2 ^ 32 - 1) hotPass)
      (.exit hotPass 0))).count 0x10000 = 2 ^ 32 := by
    rw [Report.fetches, hstart, hstop, hot_fetches, List.count_replicate_self]
    exact Nat.sub_add_cancel (Nat.two_pow_pos 32)
  exact ⟨items, r, hrun, hr, (runProgram_counted rfl rfl haligned hrun r hr).counts.wrapped rfl
    hcount, hcount⟩

end RvCkpt.Parse
