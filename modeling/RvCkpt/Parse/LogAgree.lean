import RvCkpt.Parse.Rebuild
import RvCkpt.Recorder.LogFiles

/-! # The recorder and the parser agree

`main` hands over the checkpoints of a run in order, each as it was recorded, up to the first one
that has a `syscall` line which is not completed. A checkpoint whose output exists is left out, and
the others are the same with it or without it.
-/

namespace RvCkpt.Parse
open ByteMem Text State
set_option autoImplicit false

/-- The checkpoint that `main` hands over is the one that was recorded. -/
structure Rebuilds (d : Draft) (r : Recorded) : Prop where
  entryPc : d.entryPc = r.addr
  regs : d.regs = (List.range 32).map r.ireg ++ (List.range 32).map r.freg
  syscalls : callsOf r.body r.stop = some d.syscalls
  breakpoint : d.breakpoint = stopBreakpoint r.stop
  pages : ∀ pn, d.pages.lookup pn = (r.trace.pages.lookup pn).map pageOf
  counts : ∀ pn, d.counts.lookup pn = (r.trace.execs.lookup pn).map countsList
  pathPrefix : d.pathPrefix = some (fileRoot r.beginInstret r.instret)
  stores : d.stores = storesOf r.trace r.live

/-- Every `syscall` line of the checkpoint is completed, by one record with its data. -/
def completed (r : Recorded) : Bool := (callsOf r.body r.stop).isSome

def skipped (dir : Directory) (r : Recorded) : Bool :=
  !dir.rebuild && dir.exists (fileRoot r.beginInstret r.instret) (stopBreakpoint r.stop)

variable {dir : Directory}

/-! ## One checkpoint -/

def State.withDump (st : State) (d : Draft) (bytes : List Byte) : State :=
  { st with cur := some d, dump := some bytes }

/-- The lines that say what the dump file holds. -/
def dumpText (T : MemTrace) : List Char :=
  (T.pages.entries.flatMap fun page => pageLine page.1) ++
    T.execs.entries.flatMap fun exec => execLine exec.1

theorem reads_dump {st : State} {d : Draft} (hcur : st.cur = some d) {T : MemTrace}
    (hT : T.Consistent) (hdump : st.dump = some (dumpBytes T.pages.entries T.execs.entries))
    (hpages : ∀ pn, d.pages.lookup pn = none) (hcounts : ∀ pn, d.counts.lookup pn = none) :
    ∃ m c, Reads dir st (dumpText T) (st.withDump { d with pages := m, counts := c } []) ∧
      (∀ pn, m.lookup pn = (T.pages.lookup pn).map pageOf) ∧
      ∀ pn, c.lookup pn = (T.execs.lookup pn).map countsList := by
  obtain ⟨m₁, c₁, heq₁, hm₁, hc₁⟩ := foldl_addPage d T.pages.nodupKeys hcounts
  have hm₁' : ∀ pn, m₁.lookup pn = (T.pages.lookup pn).map pageOf := by
    intro pn
    rw [hm₁, hpages, Option.or_none]
    rfl
  have hkeys : ∀ pn ∈ T.execs.entries.keys, (m₁.lookup pn).isSome := by
    intro pn hpn
    have hmem : pn ∈ T.pages := hT.counted pn hpn
    rw [hm₁', Option.isSome_map]
    exact AList.lookup_isSome.mpr hmem
  obtain ⟨m₂, c₂, heq₂, hm₂, hc₂⟩ :=
    foldl_addExec { d with pages := m₁, counts := c₁ } T.execs.nodupKeys hkeys
  refine ⟨m₂, c₂, ?_, fun pn => (hm₂ pn).trans (hm₁' pn), fun pn => ?_⟩
  · have hread : Reads dir st (T.pages.entries.flatMap fun page => pageLine page.1)
        (st.withDump (T.pages.entries.foldl addPage d)
          (T.execs.entries.flatMap fun exec => exec.2.bytes)) := reads_pages _ hcur hdump
    rw [heq₁] at hread
    have hexecs : Reads dir (st.withDump { d with pages := m₁, counts := c₁ }
          (T.execs.entries.flatMap fun exec => exec.2.bytes))
        (T.execs.entries.flatMap fun exec => execLine exec.1)
        (st.withDump (T.execs.entries.foldl addExec { d with pages := m₁, counts := c₁ }) []) :=
      reads_execs _ rfl (by rw [List.append_nil]; rfl)
    rw [heq₂] at hexecs
    exact hread.append hexecs
  · rw [hc₂, hc₁, Option.or_none]
    rfl

theorem skips_dump {st : State} (hcur : st.cur = none) (T : MemTrace) :
    Reads dir st (dumpText T) st :=
  (skips_all (fun page : Σ _ : ℕ, PageRec => skips_page hcur page.1) T.pages.entries).append
    (skips_all (fun exec : Σ _ : ℕ, ExecRec => skips_exec hcur exec.1) T.execs.entries)

theorem record_text (r : Recorded) : logText r.items =
    (LogItem.begin r.addr r.ireg r.freg).text ++ (bodyText r.body r.stop ++
      ((unwords ["file".toList, fileName r.beginInstret r.instret] ++ ['\n']) ++
        (dumpText r.trace ++ logText ((storesOf r.trace r.live).map storeItem)))) := by
  rw [Recorded.items, Opened.items, storeItems_eq]
  simp only [logText, List.flatMap_append, List.flatMap_cons, List.cons_append, bodyText,
    List.append_assoc]
  have hfile : (LogItem.file r.beginInstret r.instret r.trace.pages.entries
      r.trace.execs.entries).text =
      (unwords ["file".toList, fileName r.beginInstret r.instret] ++ ['\n']) ++
        dumpText r.trace := by
    simp only [LogItem.text, dumpText, List.append_assoc, List.cons_append, List.nil_append]
  rw [hfile]
  simp only [List.append_assoc, List.cons_append, List.nil_append]

/-- What the body of a completed checkpoint leaves to be handed over. -/
def bodyDraft (r : Recorded) (calls : List SysCall) : Draft :=
  addStop (opened r.toOpened) calls r.stop

def fileDraft (r : Recorded) (calls : List SysCall) : Draft :=
  { bodyDraft r calls with pathPrefix := some (fileRoot r.beginInstret r.instret) }

theorem withDump_cur (st : State) (d : Draft) (bytes : List Byte) :
    (st.withDump d bytes).cur = some d := rfl

/-- A checkpoint whose lines are all completed is read; it is kept unless it is skipped. -/
theorem read_record {st : State} (hready : Ready st) {r : Recorded} (hr : r.Sound)
    (hfile : dir.files (fileName r.beginInstret r.instret) =
      some (dumpBytes r.trace.pages.entries r.trace.execs.entries))
    (hcompleted : completed r = true) :
    ∃ st', Reads dir st (logText r.items) st' ∧ Ready st' ∧
      st'.submitted = st.submitted ++ st.cur.toList ∧
      List.Forall₂ Rebuilds st'.cur.toList ([r].filter fun r => !skipped dir r) := by
  obtain ⟨calls, hcalls⟩ := Option.isSome_iff_exists.mp hcompleted
  obtain ⟨st₁, hsubmit, hsubmitted⟩ := submit_ready hready
  have hbegin : Reads dir st (LogItem.begin r.addr r.ireg r.freg).text
      (st₁.withCur (opened r.toOpened)) := reads_begin hsubmit r.toOpened
  have hbody : Reads dir (st₁.withCur (opened r.toOpened)) (bodyText r.body r.stop)
      (st₁.withCur (bodyDraft r calls)) :=
    (read_body dir r.body hr.stop (withCur_cur st₁ _) rfl).1 calls hcalls
  rw [record_text]
  cases hskip : skipped dir r with
  | true =>
    have hfileLine : Reads dir (st₁.withCur (bodyDraft r calls))
        (unwords ["file".toList, fileName r.beginInstret r.instret] ++ ['\n'])
        { st₁ with cur := none } :=
      skips_file r.beginInstret r.instret (withCur_cur st₁ (bodyDraft r calls)) hskip
    have hnone : ({ st₁ with cur := none } : State).cur = none := rfl
    refine ⟨{ st₁ with cur := none }, hbegin.append (hbody.append (hfileLine.append ((skips_dump hnone r.trace).append
      ?_))), ?_, hsubmitted, ?_⟩
    · rw [logText, List.flatMap_map]
      exact skips_all (fun s => skips_store hnone s) _
    · intro d hd
      cases hd
    · rw [List.filter_singleton, hskip]
      exact .nil
  | false =>
    have hfileLine : Reads dir (st₁.withCur (bodyDraft r calls))
        (unwords ["file".toList, fileName r.beginInstret r.instret] ++ ['\n'])
        (st₁.withDump (fileDraft r calls)
          (dumpBytes r.trace.pages.entries r.trace.execs.entries)) :=
      opens_file r.beginInstret r.instret (withCur_cur st₁ (bodyDraft r calls)) hskip hfile
    obtain ⟨m, c, hdump, hm, hc⟩ : ∃ m c, Reads dir (st₁.withDump (fileDraft r calls)
          (dumpBytes r.trace.pages.entries r.trace.execs.entries)) (dumpText r.trace)
        (st₁.withDump { fileDraft r calls with pages := m, counts := c } []) ∧
        (∀ pn, m.lookup pn = (r.trace.pages.lookup pn).map pageOf) ∧
        ∀ pn, c.lookup pn = (r.trace.execs.lookup pn).map countsList :=
      reads_dump (withDump_cur st₁ _ _) hr.consistent rfl (fun pn => rfl) (fun pn => rfl)
    have hstores : Reads dir (st₁.withDump { fileDraft r calls with pages := m, counts := c } [])
        (logText ((storesOf r.trace r.live).map storeItem))
        (st₁.withDump { fileDraft r calls with
          pages := m, counts := c, stores := storesOf r.trace r.live } []) :=
      reads_stores (withDump_cur st₁ _ _) (storesOf_fits hr.consistent r.live)
    refine ⟨_, hbegin.append (hbody.append (hfileLine.append (hdump.append hstores))), ?_,
      hsubmitted, ?_⟩
    · intro d hd
      rw [← Option.some.inj hd]
      rfl
    · rw [List.filter_singleton, hskip]
      refine .cons ⟨rfl, rfl, hcalls.trans ?_, rfl, hm, hc, rfl, rfl⟩ .nil
      rfl

/-- At a line that is not completed the reading ends. -/
theorem fail_record {st : State} (hready : Ready st) {r : Recorded} (hr : r.Sound)
    (hcompleted : completed r = false) (rest : List Char) :
    finish ((lines (logText r.items ++ rest)).foldlM (readLine dir) st) =
      st.submitted ++ st.cur.toList := by
  obtain ⟨st₁, hsubmit, hsubmitted⟩ := submit_ready hready
  have hnone : callsOf r.body r.stop = none := by
    rw [completed, Option.isSome_eq_false_iff, Option.isNone_iff_eq_none] at hcompleted
    exact hcompleted
  have hbody : Fails dir (st₁.withCur (opened r.toOpened)) (bodyText r.body r.stop) :=
    (read_body dir r.body hr.stop (withCur_cur st₁ _) rfl).2 hnone
  rw [record_text, List.append_assoc, reads_begin hsubmit r.toOpened, List.append_assoc, hbody]
  exact hsubmitted

/-! ## A whole log -/

theorem logText_append (items items' : List LogItem) :
    logText (items ++ items') = logText items ++ logText items' := List.flatMap_append

/-- What is handed over: the checkpoints before the first one that is not completed, without those
that are skipped. -/
theorem read_records {recs : List Recorded} (hsound : ∀ r ∈ recs, r.Sound)
    (hfiles : ∀ r ∈ recs, dir.files (fileName r.beginInstret r.instret) =
      some (dumpBytes r.trace.pages.entries r.trace.execs.entries))
    (cur : Option Opened) {st : State} (hready : Ready st) :
    ∃ ds, finish ((lines (logText (recs.flatMap Recorded.items ++ openItems cur))).foldlM
        (readLine dir) st) = st.submitted ++ st.cur.toList ++ ds ∧
      List.Forall₂ Rebuilds ds ((recs.takeWhile completed).filter fun r => !skipped dir r) := by
  induction recs generalizing st with
  | nil =>
    refine ⟨[], ?_, .nil⟩
    rw [List.flatMap_nil, List.nil_append, List.append_nil]
    cases cur with
    | none => exact finish_ready hready
    | some o =>
      obtain ⟨st₁, hsubmit, hsubmitted⟩ := submit_ready hready
      have htext : logText (openItems (some o)) =
          (LogItem.begin o.addr o.ireg o.freg).text ++ logText (o.body.map CallItem.item) := rfl
      rw [htext, reads_begin hsubmit o, ← hsubmitted]
      exact finish_open dir o.body (withCur_cur st₁ (opened o)) rfl
  | cons r recs ih =>
    rw [List.flatMap_cons, List.append_assoc, logText_append]
    have hr := hsound r (by simp)
    cases hcompleted : completed r with
    | false =>
      refine ⟨[], ?_, ?_⟩
      · rw [fail_record hready hr hcompleted, List.append_nil]
      · rw [List.takeWhile_cons_of_neg (by rw [hcompleted]; decide)]
        exact .nil
    | true =>
      obtain ⟨st', hread, hready', hsubmitted, hcur⟩ :=
        read_record hready hr (hfiles r (by simp)) hcompleted
      obtain ⟨ds, hds, hrebuilds⟩ := ih (fun r' hr' => hsound r' (by simp [hr']))
        (fun r' hr' => hfiles r' (by simp [hr'])) hready'
      refine ⟨st'.cur.toList ++ ds, ?_, ?_⟩
      · rw [hread, hds, hsubmitted]
        simp only [List.append_assoc]
      · rw [List.takeWhile_cons_of_pos hcompleted, ← List.singleton_append, List.filter_append]
        exact List.rel_append hcur hrebuilds

theorem dumpNames_nodup {recs : List Recorded} (h : (recs.map (·.beginInstret)).Nodup) :
    (recs.map dumpName).Nodup :=
  List.pairwise_map.mpr ((List.pairwise_map.mp h).imp fun hne heq => hne (fileName_inj heq))

/-- Nothing is missing exactly if everything that is not handed over is skipped. -/
theorem all_kept_iff {recs : List Recorded} {ds : List Draft}
    (h : List.Forall₂ Rebuilds ds ((recs.takeWhile completed).filter fun r => !skipped dir r)) :
    List.Forall₂ Rebuilds ds (recs.filter fun r => !skipped dir r) ↔
      ∀ r ∈ recs.dropWhile completed, skipped dir r = true := by
  have hsplit : recs.filter (fun r => !skipped dir r) =
      ((recs.takeWhile completed).filter fun r => !skipped dir r) ++
        (recs.dropWhile completed).filter fun r => !skipped dir r := by
    rw [← List.filter_append, List.takeWhile_append_dropWhile]
  have hnil : (recs.dropWhile completed).filter (fun r => !skipped dir r) = [] ↔
      ∀ r ∈ recs.dropWhile completed, skipped dir r = true := by
    rw [List.filter_eq_nil_iff]
    simp only [Bool.not_eq_true, Bool.not_eq_false']
  rw [← hnil, hsplit]
  constructor
  · intro hall
    have hlen := hall.length_eq
    rw [List.length_append, h.length_eq] at hlen
    exact List.eq_nil_of_length_eq_zero (by omega)
  · intro hdrop
    rwa [hdrop, List.append_nil]

/-- **Recorder and parser.** However the tables of a run's traces are walked, `main` hands over
every checkpoint that is not skipped, as it was recorded, exactly if from the first one on that has
a `syscall` line which is not completed, all are skipped. -/
theorem rebuilt_exact {M : Manager} {instret : BitVec 64} {ps : List Pass} {ending : Ending}
    {items : List (ℕ × LogItem)} {printed : List LogItem} (hout : M.out = true)
    (hmem : M.mem = none) (hrun : runProgram M instret ps ending = some items)
    (hprinted : List.Forall₂ Printed printed (items.map Prod.snd)) :
    ∃ (recs : List Recorded) (cur : Option Opened),
      printed = recs.flatMap Recorded.items ++ openItems cur ∧
      (ps.length < 2 ^ 64 → (recs.map dumpName).Nodup) ∧
      ((recs.map dumpName).Nodup → ∀ dir : Directory, dir.files = dumpFiles printed →
        (List.Forall₂ Rebuilds (main dir (logText printed))
            (recs.filter fun r => !skipped dir r) ↔
          ∀ r ∈ recs.dropWhile completed, skipped dir r = true)) := by
  obtain ⟨recs₀, cur, hitems, hsound₀, hnodup⟩ := runProgram_shape hout hmem hrun
  rw [hitems] at hprinted
  obtain ⟨start, rest, rfl, hstart, hrest⟩ := forall₂_split hprinted
  obtain rfl := printed_open hrest
  obtain ⟨recs, rfl, hsound, hbegins⟩ := printed_records hsound₀ hstart
  refine ⟨recs, cur, rfl, fun hlen => dumpNames_nodup (hbegins ▸ hnodup hlen), ?_⟩
  intro hnames dir hfiles
  have hfile : ∀ r ∈ recs, dir.files (fileName r.beginInstret r.instret) =
      some (dumpBytes r.trace.pages.entries r.trace.execs.entries) := by
    intro r hr
    rw [hfiles]
    exact dumpFiles_records hnames cur hr
  have hready : Ready ⟨none, none, []⟩ := fun d hd => by cases hd
  obtain ⟨ds, hds, hrebuilds⟩ := read_records hsound hfile cur hready
  have hmain : main dir (logText (recs.flatMap Recorded.items ++ openItems cur)) = ds := hds
  rw [hmain]
  exact all_kept_iff hrebuilds

/-! ## A system call without a record -/

def emptyDirectory (items : List LogItem) : Directory :=
  ⟨dumpFiles items, fun _ => false, false, false⟩

theorem shortRun_rebuilt : ∃ items, runProgram (manager 0) 5 shortRun .between = some items ∧
    ∃ (recs : List Recorded) (cur : Option Opened),
      items.map Prod.snd = recs.flatMap Recorded.items ++ openItems cur ∧
      (shortRun.length < 2 ^ 64 → (recs.map dumpName).Nodup) ∧
      ((recs.map dumpName).Nodup → ∀ dir : Directory,
        dir.files = dumpFiles (items.map Prod.snd) →
        (List.Forall₂ Rebuilds (main dir (logText (items.map Prod.snd)))
            (recs.filter fun r => !skipped dir r) ↔
          ∀ r ∈ recs.dropWhile completed, skipped dir r = true)) := by
  have hsome : (runProgram (manager 0) 5 shortRun .between).isSome = true := by decide
  obtain ⟨items, hitems⟩ := Option.isSome_iff_exists.mp hsome
  exact ⟨items, hitems, rebuilt_exact rfl rfl hitems
    (List.forall₂_same.mpr fun item _ => .same item)⟩

def ecallAt (addr : ℕ) : Pass :=
  ⟨fun _ => 0, fun _ => 0, -1, addr, ECALL, 4, fun _ => 0, []⟩

theorem no_stop_item {body : List CallItem} {stop : Stop} {rest tail : List LogItem} {a b : ℕ}
    (h : body.map CallItem.item ++ stop.item :: rest = .syscall a :: .syscall b :: tail) :
    callsOf body stop = none := by
  have hstop : ∀ addr, stop.item ≠ .syscall addr := by
    intro addr haddr
    cases stop <;> cases haddr
  have hcall : ∀ {call : CallItem} {addr : ℕ}, call.item = .syscall addr →
      call = .started addr := by
    intro call addr haddr
    cases call with
    | started addr' =>
      cases haddr
      rfl
    | recorded retval write => cases haddr
  match body with
  | [] => exact absurd (List.cons.inj h).1 (hstop a)
  | [call] => exact absurd (List.cons.inj (List.cons.inj h).2).1 (hstop b)
  | call :: call' :: body =>
    obtain ⟨hfirst, hrest⟩ := List.cons.inj h
    rw [hcall hfirst, hcall (List.cons.inj hrest).1]
    cases stop <;> rfl

/-- Two system calls in a row without a record, and an exit. -/
theorem not_rebuilt {recs : List Recorded} {cur : Option Opened} {ds : List Draft}
    {addr a b : ℕ} {ireg freg : ℕ → BitVec 64} {rc : BitVec 32} {tail : List LogItem}
    (h : recs.flatMap Recorded.items ++ openItems cur =
      .begin addr ireg freg :: .syscall a :: .syscall b :: .exit rc :: tail) :
    ¬ List.Forall₂ Rebuilds ds recs := by
  intro hall
  cases recs with
  | nil =>
    cases cur with
    | none => cases h
    | some o =>
      have hbody : o.body.map CallItem.item = .syscall a :: .syscall b :: .exit rc :: tail :=
        (List.cons.inj h).2
      have hmem : LogItem.exit rc ∈ o.body.map CallItem.item := by
        rw [hbody]
        simp
      obtain ⟨call, -, hcall⟩ := List.mem_map.mp hmem
      cases call <;> cases hcall
  | cons r recs =>
    rw [List.flatMap_cons, Recorded.items, Opened.items, List.append_assoc, List.append_assoc,
      List.cons_append] at h
    have hnone : callsOf r.body r.stop = none := no_stop_item (List.cons.inj h).2
    cases hall with
    | cons hrebuilds _ =>
      have hcalls := hrebuilds.syscalls
      rw [hnone] at hcalls
      cases hcalls

/-- A `readv` makes no record. With the exit that follows it the checkpoint is whole, but it is not
handed over. -/
theorem unrecorded_not_rebuilt : ∃ (items : List (ℕ × LogItem)) (recs : List Recorded)
    (cur : Option Opened),
    runProgram (manager 1000) 5 [ecallAt 0x10000] (.exit (ecallAt 0x10004) 0) = some items ∧
    items.map Prod.snd = recs.flatMap Recorded.items ++ openItems cur ∧
    ¬ List.Forall₂ Rebuilds
      (main (emptyDirectory (items.map Prod.snd)) (logText (items.map Prod.snd))) recs := by
  have hsome : (runProgram (manager 1000) 5 [ecallAt 0x10000]
      (.exit (ecallAt 0x10004) 0)).isSome = true := by decide
  have hlog : ((runProgram (manager 1000) 5 [ecallAt 0x10000]
      (.exit (ecallAt 0x10004) 0)).map fun items => (items.map Prod.snd).take 4) =
      some [.begin 0x10000 (fun _ => 0) (fun _ => 0), .syscall 0x10000, .syscall 0x10004,
        .exit 0] := rfl
  obtain ⟨items, hitems⟩ := Option.isSome_iff_exists.mp hsome
  rw [hitems] at hlog
  obtain ⟨recs, cur, hshape, -⟩ := runProgram_shape rfl rfl hitems
  have hitems' : recs.flatMap Recorded.items ++ openItems cur =
      .begin 0x10000 (fun _ => 0) (fun _ => 0) :: .syscall 0x10000 :: .syscall 0x10004 ::
        .exit 0 :: (items.map Prod.snd).drop 4 := by
    have htake : (items.map Prod.snd).take 4 = [.begin 0x10000 (fun _ => 0) (fun _ => 0),
        .syscall 0x10000, .syscall 0x10004, .exit 0] := Option.some.inj hlog
    rw [← hshape]
    conv_lhs => rw [← List.take_append_drop 4 (items.map Prod.snd), htake]
    rfl
  exact ⟨items, recs, cur, hitems, hshape, not_rebuilt hitems'⟩

end RvCkpt.Parse
