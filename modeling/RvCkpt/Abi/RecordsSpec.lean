import RvCkpt.Abi.Records

/-! # When the log has every call

What a run prints for its ecalls, pass by pass, and when this is one whole record for each of them.
-/

namespace RvCkpt.Abi
open ByteMem Parse
set_option autoImplicit false

/-! ## The lines of a call -/

/-- What the hook and the handler print for a call. -/
def callLines (x : ℕ × CallPass) : List (ℕ × LogItem) :=
  (x.1, .syscall x.2.pass.addr) :: x.2.done.calls.map fun r => (x.1, r.item)

theorem accepted_iff (addr : ℕ) (retval : BitVec 64) (write : Option (ℕ × List Byte)) :
    Accepted (callText addr retval write) ↔ hasData write = true := by
  constructor
  · intro h
    by_contra hdata
    rw [Bool.not_eq_true] at hdata
    obtain ⟨st', hst'⟩ := h ⟨fun _ => none, fun _ => false, false, false⟩
      ⟨some (.new 0), none, []⟩ (.new 0) rfl
    have hfails : Fails ⟨fun _ => none, fun _ => false, false, false⟩ ⟨some (.new 0), none, []⟩
        (callText addr retval write) := fails_call _ addr retval hdata
    have hread := (hst' []).symm.trans (hfails [])
    cases hread
  · intro hdata dir st d hcur
    exact ⟨_, reads_call hcur addr retval hdata⟩

theorem hasData_write (r : Report) : hasData r.write = true ↔ (r.addr ≠ 0 → r.size ≠ 0) := by
  unfold Report.write
  split
  · rename_i haddr
    rw [hasData, Bool.not_eq_true', List.isEmpty_eq_false_iff]
    have hlen : (r.live.bytes r.addr r.size).length = r.size := by
      rw [Mem.bytes, List.length_map, List.length_range]
    constructor
    · rintro hne - hzero
      exact hne (List.eq_nil_of_length_eq_zero (hlen.trans hzero))
    · intro hsize hnil
      refine hsize haddr ?_
      rw [← hlen, hnil]
      rfl
  · rename_i haddr
    exact iff_of_true rfl fun hne => absurd hne haddr

theorem Recorded.cons_iff {x : ℕ × CallPass} {calls : List (ℕ × CallPass)}
    {items : List (ℕ × LogItem)} :
    Recorded (x :: calls) items ↔ ∃ write rest,
      items = (x.1, .syscall x.2.pass.addr) :: (x.1, .result x.2.done.a0 write) :: rest ∧
        hasData write = true ∧ Recorded calls rest := by
  obtain ⟨i, c⟩ := x
  constructor
  · intro h
    cases h with
    | call hdata _ hrest => exact ⟨_, _, rfl, hdata, hrest⟩
  · rintro ⟨write, rest, rfl, hdata, hrest⟩
    exact .call hdata ((accepted_iff _ _ _).mpr hdata) hrest

/-- A list of lines does not begin inside a line. -/
def Begins (items : List (ℕ × LogItem)) : Prop :=
  ∀ x ∈ items.head?, ∃ addr, x.2 = .syscall addr

theorem begins_lines (calls : List (ℕ × CallPass)) {tail : List (ℕ × LogItem)} (h : Begins tail) :
    Begins (calls.flatMap callLines ++ tail) := by
  cases calls with
  | nil => exact h
  | cons x calls =>
    intro y hy
    obtain rfl := Option.some.inj hy
    exact ⟨_, rfl⟩

theorem Recorded.begins {calls : List (ℕ × CallPass)} {items : List (ℕ × LogItem)}
    (h : Recorded calls items) : Begins items := by
  intro x hx
  cases h with
  | nil => cases hx
  | call _ _ _ =>
    obtain rfl := Option.some.inj hx
    exact ⟨_, rfl⟩

theorem not_begins_item (i : ℕ) (r : Report) (items : List (ℕ × LogItem)) :
    ¬ Begins ((i, r.item) :: items) := by
  intro h
  obtain ⟨addr, haddr⟩ := h _ rfl
  cases haddr

/-- The lines of the calls are whole exactly if each of them is reported, and nothing follows. -/
theorem recorded_lines_iff (calls : List (ℕ × CallPass)) {tail : List (ℕ × LogItem)}
    (htail : Begins tail) :
    Recorded calls (calls.flatMap callLines ++ tail) ↔
      (∀ x ∈ calls, x.2.done.Reported) ∧ tail = [] := by
  induction calls with
  | nil =>
    constructor
    · intro h
      cases h
      exact ⟨fun x hx => absurd hx List.not_mem_nil, rfl⟩
    · rintro ⟨-, rfl⟩
      exact .nil
  | cons x calls ih =>
    rw [Recorded.cons_iff, List.forall_mem_cons, and_assoc, ← ih, List.flatMap_cons, callLines,
      List.append_assoc, List.cons_append]
    have hbegins := begins_lines calls htail
    constructor
    · rintro ⟨write, rest, hitems, hdata, hrest⟩
      have hline := (List.cons.inj hitems).2
      cases hcalls : x.2.done.calls with
      | nil =>
        rw [hcalls, List.map_nil, List.nil_append] at hline
        rw [hline] at hbegins
        obtain ⟨addr, haddr⟩ := hbegins _ rfl
        cases haddr
      | cons r rs =>
        rw [hcalls, List.map_cons, List.cons_append] at hline
        obtain ⟨hitem, hrs⟩ := List.cons.inj hline
        obtain ⟨hret, hwrite⟩ := LogItem.result.inj (Prod.mk.inj hitem).2
        cases rs with
        | nil =>
          rw [List.map_nil, List.nil_append] at hrs
          rw [hrs]
          refine ⟨⟨r, hcalls, hret, ?_⟩, hrest⟩
          rwa [← hasData_write, hwrite]
        | cons r' rs =>
          rw [List.map_cons, List.cons_append] at hrs
          have hb := hrest.begins
          rw [← hrs] at hb
          exact absurd hb (not_begins_item _ _ _)
    · rintro ⟨⟨r, hcalls, hret, hsize⟩, hrest⟩
      refine ⟨r.write, _, ?_, (hasData_write r).mpr hsize, hrest⟩
      rw [hcalls, List.map_singleton, List.singleton_append, Report.item, hret]

/-! ## The lines of a run -/

/-- `M'` has printed `items` more than `M`, and `lines` of them are parts of `syscall` lines. -/
structure Prints (M M' : Manager) (lines : List LogItem) : Prop where
  out : M'.out = M.out
  log : ∃ items, M'.log = M.log ++ items ∧ items.filter callPart = lines

variable {M M' : Manager}

theorem Prints.trans {M'' : Manager} {lines lines' : List LogItem} (h : Prints M M' lines)
    (h' : Prints M' M'' lines') : Prints M M'' (lines ++ lines') := by
  obtain ⟨items, hlog, hlines⟩ := h.log
  obtain ⟨items', hlog', hlines'⟩ := h'.log
  refine ⟨h'.out.trans h.out, items ++ items', by rw [hlog', hlog, List.append_assoc], ?_⟩
  rw [List.filter_append, hlines, hlines']

theorem Prints.newItems {lines : List LogItem} (h : Prints M M' lines) (i : ℕ) :
    (newItems i M M').filter (fun x => callPart x.2) = lines.map fun item => (i, item) := by
  obtain ⟨items, hlog, rfl⟩ := h.log
  rw [newItems_eq i hlog, List.filter_map]
  rfl

theorem storeItems_lines (T : MemTrace) (live : Mem) :
    (Manager.storeItems T live).filter callPart = [] := by
  rw [List.filter_eq_nil_iff]
  intro item hitem
  obtain ⟨i, -, hi⟩ := List.mem_filterMap.mp hitem
  split at hi
  · rw [← Option.some.inj hi]
    exact Bool.false_ne_true
  · cases hi

theorem markItems_lines (x : Fetched) :
    (Manager.markItems x).filter callPart = Manager.markItems x := by
  unfold Manager.markItems
  split <;> rfl

/-- The hook starts a line in an open interval only. -/
theorem fetch_prints {live : Mem} {x : Fetched} (hout : M.out = true)
    (h : M.fetch live x = some M') :
    Prints M M' (if M'.mem.isSome then Manager.markItems x else []) := by
  obtain ⟨T', -, rfl⟩ | ⟨T, T', -, rfl⟩ | ⟨T, T₁, T₂, firstVisit, kind, -, -, -, -, rfl⟩ :=
    Manager.fetch_cases hout h
  · refine ⟨rfl, _, rfl, ?_⟩
    rw [List.filter_cons_of_neg (by exact Bool.false_ne_true), markItems_lines]
    rfl
  · refine ⟨rfl, _, rfl, ?_⟩
    rw [markItems_lines]
    rfl
  · refine ⟨rfl, _, rfl, ?_⟩
    rw [List.filter_cons_of_neg (by exact Bool.false_ne_true),
      List.filter_cons_of_neg (by exact Bool.false_ne_true), storeItems_lines]
    rfl

theorem access_prints {e : Effect} (he : ∀ r : Report, e ≠ r.effect)
    (h : e.perform M = some M') : Prints M M' [] := by
  have hkeep := perform_keeps h
  refine ⟨hkeep.out, [], ?_, rfl⟩
  rw [List.append_nil]
  cases e with
  | load w addr data =>
    rw [Effect.perform, Manager.load] at h
    split at h
    · obtain ⟨T', -, rfl⟩ := Option.map_eq_some_iff.mp h
      rfl
    · rw [← Option.some.inj h]
  | store w addr =>
    rw [Effect.perform, Manager.store] at h
    split at h
    · obtain ⟨T', -, rfl⟩ := Option.map_eq_some_iff.mp h
      rfl
    · rw [← Option.some.inj h]
  | syscall live retval addr size => exact absurd rfl (he ⟨live, retval, addr, size⟩)

theorem accesses_print {es : List Effect} (hes : ∀ r : Report, r.effect ∉ es)
    (h : es.foldlM Effect.perform M = some M') : Prints M M' [] := by
  induction es generalizing M with
  | nil =>
    obtain rfl := Option.some.inj h
    exact ⟨rfl, [], by rw [List.append_nil], rfl⟩
  | cons e es ih =>
    obtain ⟨M₁, hM₁, hrest⟩ := Option.bind_eq_some_iff.mp h
    refine (access_prints (fun r heq => ?_) hM₁).trans
      (ih (fun r hr => hes r (List.mem_cons_of_mem e hr)) hrest)
    exact hes r (heq ▸ List.mem_cons_self)

theorem report_prints {r : Report} (h : r.effect.perform M = some M') :
    Prints M M' (if M.mem.isSome then [r.item] else []) := by
  have hkeep := perform_keeps h
  refine ⟨hkeep.out, ?_⟩
  rw [Report.effect, Effect.perform, Manager.syscall] at h
  cases hmem : M.mem with
  | none =>
    rw [hmem] at h
    obtain rfl := Option.some.inj h
    exact ⟨[], by rw [List.append_nil], rfl⟩
  | some T =>
    rw [hmem] at h
    dsimp only at h
    refine ⟨[r.item], ?_, rfl⟩
    rw [Report.item, Report.write]
    by_cases haddr : r.addr ≠ 0
    · rw [if_pos haddr] at h ⊢
      obtain ⟨T', -, rfl⟩ := Option.map_eq_some_iff.mp h
      rfl
    · rw [if_neg haddr] at h ⊢
      rw [← Option.some.inj h]
      rfl

theorem reports_print {rs : List Report}
    (h : (rs.map Report.effect).foldlM Effect.perform M = some M') :
    Prints M M' (if M.mem.isSome then rs.map Report.item else []) := by
  induction rs generalizing M with
  | nil =>
    obtain rfl := Option.some.inj h
    exact ⟨rfl, [], by rw [List.append_nil], by rw [List.map_nil, ite_self]; rfl⟩
  | cons r rs ih =>
    obtain ⟨M₁, hM₁, hrest⟩ := Option.bind_eq_some_iff.mp h
    have hprints := (report_prints hM₁).trans (ih hrest)
    rw [(perform_keeps hM₁).mem] at hprints
    cases hopen : M.mem.isSome with
    | false =>
      rw [hopen] at hprints
      exact hprints
    | true =>
      rw [hopen] at hprints
      exact hprints

/-- What a pass prints for its ecall, if it is one. -/
theorem step_prints {s : Step} {instret : BitVec 64} (i : ℕ) (hout : M.out = true)
    (h : s.pass.perform M instret = some M') :
    M'.out = true ∧ (newItems i M M').filter (fun x => callPart x.2) =
      (s.openCall M instret i).flatMap callLines := by
  obtain ⟨M₁, hM₁, heffects⟩ := Option.bind_eq_some_iff.mp h
  have hfetch := fetch_prints hout hM₁
  cases s with
  | plain p =>
    have hmark : Manager.markItems (p.pass.fetched instret) = [] := if_neg p.inst
    have hprints := hfetch.trans (accesses_print p.accesses heffects)
    refine ⟨hprints.out.trans hout, ?_⟩
    rw [hprints.newItems i]
    simp only [Step.pass, hmark, ite_self, List.append_nil, List.map_nil, Step.openCall,
      List.flatMap_nil]
  | call c =>
    have hmark : Manager.markItems (c.pass.fetched instret) = [.syscall c.pass.addr] :=
      if_pos c.inst
    have hopen : opened M instret c.pass = M₁.mem.isSome := by
      rw [opened]
      simp only [Step.pass] at hM₁
      rw [hM₁]
    rw [Step.pass, c.effects] at heffects
    have hprints := hfetch.trans (reports_print heffects)
    refine ⟨hprints.out.trans hout, ?_⟩
    rw [hprints.newItems i, Step.openCall, hopen, Step.pass, hmark]
    cases M₁.mem.isSome with
    | false => rfl
    | true =>
      simp only [if_true, List.flatMap_singleton, callLines, List.singleton_append, List.map_cons,
        List.map_map, Function.comp_def]

theorem loop_prints {steps : List Step} {instret : BitVec 64} {i : ℕ}
    {items : List (ℕ × LogItem)} (hout : M.out = true)
    (h : runLoop M instret i (steps.map Step.pass) = some (M', items)) :
    M'.out = true ∧ items.filter (fun x => callPart x.2) =
      (openCalls M instret i steps).flatMap callLines := by
  induction steps generalizing M instret i items with
  | nil =>
    obtain ⟨rfl, rfl⟩ := Prod.mk.inj (Option.some.inj h)
    exact ⟨hout, rfl⟩
  | cons s steps ih =>
    obtain ⟨M₁, hM₁, hrun⟩ := Option.bind_eq_some_iff.mp h
    obtain ⟨⟨M₂, rest⟩, hrest, hrun⟩ := Option.bind_eq_some_iff.mp hrun
    obtain ⟨rfl, rfl⟩ := Prod.mk.inj (Option.some.inj hrun)
    obtain ⟨hout₁, hstep⟩ := step_prints i hout hM₁
    obtain ⟨hout₂, hloop⟩ := ih hout₁ hrest
    refine ⟨hout₂, ?_⟩
    rw [List.filter_append, hstep, hloop, openCalls, hM₁, List.flatMap_append]

namespace Run

/-- What the last pass prints for its ecall, if it is one. -/
def lastLines (r : Run) : List (ℕ × LogItem) :=
  match r.halt with
  | .fault f => if r.lastOpened f.pass then [(r.steps.length, .syscall f.pass.addr)] else []
  | _ => r.exitLine

/-- The hook of a last pass without effects. -/
theorem ecall_prints {e : Ecall} {instret : BitVec 64} (hout : M.out = true)
    (heffects : e.pass.effects = []) (h : e.pass.perform M instret = some M') :
    M'.mem.isSome = opened M instret e.pass ∧
      Prints M M' (if opened M instret e.pass then [.syscall e.pass.addr] else []) := by
  obtain ⟨M₁, hM₁, hnil⟩ := Option.bind_eq_some_iff.mp h
  rw [heffects] at hnil
  obtain rfl := Option.some.inj hnil
  have hopen : opened M instret e.pass = M₁.mem.isSome := by rw [opened, hM₁]
  have hmark : Manager.markItems (e.pass.fetched instret) = [.syscall e.pass.addr] :=
    if_pos e.inst
  have hprints := fetch_prints hout hM₁
  rw [hmark, ← hopen] at hprints
  exact ⟨hopen.symm, hprints⟩

theorem exit_prints (live : Mem) (instret : BitVec 64) (rc : BitVec 32) :
    Prints M (M.exit live instret rc) (if M.mem.isSome then [.exit rc] else []) := by
  unfold Manager.exit
  cases hmem : M.mem with
  | none => exact ⟨rfl, [], by rw [List.append_nil], rfl⟩
  | some T =>
    have hbreak : (M.emit (.exit rc)).breakHere live instret = { M with
        mem := none
        log := M.log ++ .exit rc :: .file M.beginInstret instret T.pages.entries T.execs.entries ::
          Manager.storeItems T live } := by
      simp only [Manager.emit, Manager.breakHere, hmem, List.append_assoc, List.cons_append,
        List.nil_append]
    dsimp only
    rw [hbreak]
    refine ⟨rfl, _, rfl, ?_⟩
    rw [List.filter_cons_of_pos (by rfl), List.filter_cons_of_neg (by exact Bool.false_ne_true),
      storeItems_lines]
    rfl

/-- All that a run prints for its ecalls. -/
theorem lines_eq (r : Run) :
    r.items.filter (fun x => callPart x.2) = r.openCalls.flatMap callLines ++ r.lastLines := by
  obtain ⟨⟨M₁, items₁⟩, hM₁, hrun⟩ := Option.bind_eq_some_iff.mp r.run
  obtain ⟨M₂, hM₂, hrun⟩ := Option.bind_eq_some_iff.mp hrun
  have hitems := Option.some.inj hrun
  rw [List.length_map] at hM₂ hitems
  obtain ⟨hout, hloop⟩ := loop_prints r.out hM₁
  have hlast : r.last = some M₁ := by rw [last, hM₁, Option.map_some]
  rw [← hitems, List.filter_append, hloop]
  congr 1
  cases hhalt : r.halt with
  | between =>
    rw [hhalt] at hM₂
    obtain rfl := Option.some.inj hM₂
    have hnone : Prints M₁ M₁ [] := ⟨rfl, [], by rw [List.append_nil], rfl⟩
    rw [hnone.newItems, lastLines, hhalt, exitLine, hhalt]
    rfl
  | trap p =>
    rw [hhalt] at hM₂
    obtain ⟨-, hlines⟩ := step_prints (s := .plain p) r.steps.length hout hM₂
    rw [hlines, lastLines, hhalt, exitLine, hhalt]
    rfl
  | exit e =>
    rw [hhalt] at hM₂
    obtain ⟨M₃, hM₃, hexit⟩ := Option.bind_eq_some_iff.mp hM₂
    obtain rfl := Option.some.inj hexit
    obtain ⟨hmem, hprints⟩ := ecall_prints hout e.effects hM₃
    have hall := hprints.trans
      (exit_prints e.pass.live (r.instret + BitVec.ofNat 64 r.steps.length) e.rc)
    rw [hall.newItems, lastLines, hhalt, exitLine, hhalt, hmem]
    dsimp only
    rw [lastOpened, hlast]
    dsimp only
    split <;> rfl
  | fault f =>
    rw [hhalt] at hM₂
    obtain ⟨-, hprints⟩ := ecall_prints hout f.effects hM₂
    rw [hprints.newItems, lastLines, hhalt]
    dsimp only
    rw [lastOpened, hlast]
    dsimp only
    split <;> rfl

theorem complete_iff_reported (r : Run) :
    r.Complete ↔ (∀ x ∈ r.openCalls, x.2.done.Reported) ∧ ¬ r.Died := by
  have hexits : ∀ e, r.halt = .exit e →
      Accepted ((LogItem.syscall e.pass.addr).text ++ (LogItem.exit e.rc).text) := by
    intro e _ dir st d hcur
    exact ⟨_, reads_exit hcur e.pass.addr e.rc⟩
  rw [Complete, and_iff_left hexits, lines_eq]
  have hwhole : ∀ tail, Begins tail → r.lastLines = tail ++ r.exitLine →
      ((∃ lines, r.openCalls.flatMap callLines ++ r.lastLines = lines ++ r.exitLine ∧
        Recorded r.openCalls lines) ↔ (∀ x ∈ r.openCalls, x.2.done.Reported) ∧ tail = []) := by
    intro tail htail hlast
    rw [hlast, ← List.append_assoc, ← recorded_lines_iff r.openCalls htail]
    constructor
    · rintro ⟨lines, hlines, hrec⟩
      rwa [List.append_cancel_right hlines]
    · exact fun hrec => ⟨_, rfl, hrec⟩
  have hbegins : Begins [] := fun x hx => absurd hx (by simp)
  by_cases hfault : ∃ f, r.halt = .fault f
  · obtain ⟨f, hhalt⟩ := hfault
    have hexit : r.exitLine = [] := by rw [exitLine, hhalt]
    rw [hwhole r.lastLines ?_ (by rw [hexit, List.append_nil]), lastLines, hhalt, Died]
    · refine and_congr_right fun _ => ?_
      dsimp only
      constructor
      · rintro hnil ⟨f', hf', hopen⟩
        obtain rfl := Halt.fault.inj (hhalt.symm.trans hf')
        rw [if_pos hopen] at hnil
        cases hnil
      · intro hnot
        rw [if_neg fun hopen => hnot ⟨f, hhalt, hopen⟩]
    · rw [lastLines, hhalt]
      dsimp only
      split
      · intro x hx
        obtain rfl := Option.some.inj hx
        exact ⟨_, rfl⟩
      · exact hbegins
  · have hlast : r.lastLines = r.exitLine := by
      rw [lastLines]
      split
      · rename_i f hhalt
        exact absurd ⟨f, hhalt⟩ hfault
      · rfl
    rw [hwhole [] hbegins hlast]
    refine and_congr_right fun _ => iff_of_true rfl ?_
    rintro ⟨f, hf, -⟩
    exact hfault ⟨f, hf⟩

end Run

/-! ## A call without a record -/

/-- `madvise(0, 0, 0)` -/
def madviseCall : CallPass where
  pass := ⟨fun i => if i = 17 then 233 else 0, fun _ => 0, -1, 0x10000, ECALL, 4, fun _ => 0, []⟩
  inst := rfl
  proc := ⟨0, 0, 0, 0, 233, blankSpace, rfl⟩
  regs := ⟨rfl, rfl, rfl, rfl, rfl, rfl⟩
  host := blankHost
  call := .madvise
  number := rfl
  done := ⟨0, blankSpace, []⟩
  returned := rfl
  effects := rfl

theorem madviseRun_isSome :
    (runProgram (RvCkpt.manager 0) 5 [madviseCall.pass] .between).isSome = true := by decide

/-- A run of this one call, which begins an interval. -/
def madviseRun : Run where
  manager := RvCkpt.manager 0
  out := rfl
  mem := rfl
  instret := 5
  steps := [.call madviseCall]
  halt := .between
  items := (runProgram (RvCkpt.manager 0) 5 [madviseCall.pass] .between).get madviseRun_isSome
  run := (Option.some_get madviseRun_isSome).symm

end RvCkpt.Abi
