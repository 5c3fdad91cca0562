import RvCkpt.Parse.LogSpec
import Mathlib.Data.List.GetD

/-! # Round trip of logs and dump files

`main` rebuilds every checkpoint of a run whose dump it opens, in order, exactly if in all of them
each `syscall` line is completed by one record that has its data.
-/

namespace RvCkpt.Parse
open ByteMem Text State
set_option autoImplicit false

variable {dir : Directory}

/-! ## The first lines -/

/-- The checkpoint after its first three lines. -/
def opened (o : Opened) : Draft :=
  { Draft.new o.addr with regs := (List.range 32).map o.ireg ++ (List.range 32).map o.freg }

theorem readReg_hex (x : BitVec 64) : readReg (hex x.toNat) = some x := by
  rw [readReg, readHex_hex, Option.bind_eq_bind, Option.bind_some, if_pos x.isLt,
    BitVec.ofNat_toNat, BitVec.setWidth_eq]

theorem mapM_readReg (reg : ℕ → BitVec 64) (l : List ℕ) :
    (l.map fun i => hex (reg i).toNat).mapM readReg = some (l.map reg) := by
  induction l with
  | nil => rfl
  | cons i l ih =>
    rw [List.map_cons, List.mapM_cons, readReg_hex, ih]
    rfl

theorem regWords_word (reg : ℕ → BitVec 64) : ∀ w ∈ regWords reg, Word w := by
  intro w hw
  obtain ⟨i, -, rfl⟩ := List.mem_map.mp hw
  exact word_hex _

theorem reads_regs {st : State} {d : Draft} (hcur : st.cur = some d) {kw : List Char}
    (hkw : kw = "ireg".toList ∨ kw = "freg".toList) (reg : ℕ → BitVec 64) :
    Reads dir st (unwords (kw :: regWords reg) ++ ['\n'])
      (st.withCur { d with regs := d.regs ++ (List.range 32).map reg }) := by
  have hword : Word kw := by rcases hkw with rfl | rfl <;> decide
  have hws : ∀ w ∈ kw :: regWords reg, Word w := by
    simpa using ⟨hword, regWords_word reg⟩
  apply reads_line (line_unwords hws)
  rw [readLine_regs hkw (words_unwords hws)]
  refine onCur_some hcur ?_
  rw [readRegs, regWords, mapM_readReg]
  rfl

theorem reads_begin {st st' : State} (hsubmit : st.submit = .ok st') (o : Opened) :
    Reads dir st (LogItem.begin o.addr o.ireg o.freg).text (st'.withCur (opened o)) := by
  have hws := forall_words_two (show Word "begin".toList by decide) (word_prefixedHex o.addr)
  have htext : (LogItem.begin o.addr o.ireg o.freg).text =
      (unwords ["begin".toList, prefixedHex o.addr] ++ ['\n']) ++
        ((unwords ("ireg".toList :: regWords o.ireg) ++ ['\n']) ++
          (unwords ("freg".toList :: regWords o.freg) ++ ['\n'])) := by
    simp only [LogItem.text, List.append_assoc, List.singleton_append]
  have hbegin : Reads dir st (unwords ["begin".toList, prefixedHex o.addr] ++ ['\n'])
      (st'.withCur (.new o.addr)) := by
    apply reads_line (line_unwords hws)
    rw [readLine_begin (words_unwords hws), readBegin, hsubmit]
    have haddr : [prefixedHex o.addr][0]?.bind readHex = some o.addr := readHex_prefixedHex o.addr
    simp only [bind, Except.bind]
    rw [haddr]
    rfl
  have hireg : Reads dir (st'.withCur (.new o.addr))
      (unwords ("ireg".toList :: regWords o.ireg) ++ ['\n'])
      (st'.withCur { Draft.new o.addr with regs := (List.range 32).map o.ireg }) :=
    reads_regs (withCur_cur st' _) (.inl rfl) o.ireg
  have hfreg : Reads dir
      (st'.withCur { Draft.new o.addr with regs := (List.range 32).map o.ireg })
      (unwords ("freg".toList :: regWords o.freg) ++ ['\n']) (st'.withCur (opened o)) :=
    reads_regs (withCur_cur st' _) (.inr rfl) o.freg
  rw [htext]
  exact hbegin.append (hireg.append hfreg)

/-- Whatever is being read could be handed over. -/
def Ready (st : State) : Prop := ∀ d, st.cur = some d → d.pathPrefix.isSome

theorem submit_ready {st : State} (h : Ready st) :
    ∃ st', st.submit = .ok st' ∧ st'.submitted = st.submitted ++ st.cur.toList := by
  unfold submit
  cases hcur : st.cur with
  | none => exact ⟨st, rfl, by rw [Option.toList_none, List.append_nil]⟩
  | some d =>
    have hsome := h d hcur
    have hnone : d.pathPrefix.isNone = false := by
      rw [← Option.not_isSome, hsome]
      rfl
    dsimp only
    rw [hnone]
    exact ⟨_, rfl, rfl⟩

theorem finish_ready {st : State} (h : Ready st) :
    finish (.ok st) = st.submitted ++ st.cur.toList := by
  obtain ⟨st', hsubmit, hsubmitted⟩ := submit_ready h
  rw [finish, hsubmit]
  exact hsubmitted

/-! ## The end of a log -/

/-- An interval that is still open is never handed over. -/
theorem finish_open (dir : Directory) : ∀ (body : List CallItem) {st : State} {d : Draft},
    st.cur = some d → d.pathPrefix = none →
    finish ((lines (logText (body.map CallItem.item))).foldlM (readLine dir) st) = st.submitted
  | [], st, d, hcur, hnone => by
    have hsubmit : st.submit = .error st.submitted := by
      rw [submit, hcur]
      dsimp only
      rw [hnone]
      rfl
    have hnil : finish ((lines (logText (([] : List CallItem).map CallItem.item))).foldlM
        (readLine dir) st) = finish (.ok st) := rfl
    rw [hnil, finish, hsubmit]
  | [.started addr], st, d, hcur, hnone => by
    have hws := forall_words_two (show Word "syscall".toList by decide) (word_prefixedHex addr)
    have htext : logText ([CallItem.started addr].map CallItem.item) =
        unwords ["syscall".toList, prefixedHex addr] := by
      simp only [logText, List.map_cons, List.map_nil, List.flatMap_cons, List.flatMap_nil,
        List.append_nil, CallItem.item, LogItem.text]
    have hshort : ∀ d, readSyscall d [prefixedHex addr] = none := by
      intro d
      rw [readSyscall]
      simp only [List.getElem?_cons_zero, List.getElem?_cons_succ, List.getElem?_nil,
        Option.bind_some, Option.bind_none, Option.bind_eq_bind, readHex_prefixedHex]
      rfl
    rw [htext, lines_last (line_unwords hws) (by simp [unwords]), List.foldlM_cons,
      readLine_syscall (words_unwords hws), onCur_none hshort]
    rfl
  | .started addr :: .recorded retval write :: body, st, d, hcur, hnone => by
    have htext : logText ((.started addr :: .recorded retval write :: body).map CallItem.item) =
        callText addr retval write ++ logText (body.map CallItem.item) := by
      simp only [logText, List.map_cons, List.flatMap_cons, callText, CallItem.item,
        List.append_assoc]
    rw [htext]
    cases hdata : hasData write with
    | false =>
      rw [fails_call st addr retval hdata]
      rfl
    | true =>
      rw [reads_call hcur addr retval hdata]
      exact finish_open dir body (withCur_cur st _) hnone
  | .started addr :: .started addr' :: body, st, _, _, _ => by
    simp only [logText, List.map_cons, List.flatMap_cons]
    have hfails : Fails dir st ((LogItem.syscall addr).text ++ ((LogItem.syscall addr').text ++ [])) :=
      fails_run_on_syscall st addr addr' []
    have happend := hfails ((body.map CallItem.item).flatMap LogItem.text)
    rw [List.append_nil, List.append_assoc] at happend
    rw [CallItem.item, CallItem.item, happend]
    rfl
  | .recorded retval write :: body, st, _, _, _ => by
    simp only [logText, List.map_cons, List.flatMap_cons]
    rw [CallItem.item, fails_result st retval write]
    rfl

/-! ## Pages and counters of the dump file -/

def pageOf (p : PageRec) : Page :=
  ⟨leNat p.visited (PAGE_SIZE / 8), fun i => if i < PAGE_SIZE then p.content i else 0⟩

def countsList (e : ExecRec) : List ℕ := (List.range (PAGE_SIZE / 2)).map fun i => (e.count i).toNat

theorem getD_map_range (f : ℕ → Byte) {n i : ℕ} :
    ((List.range n).map f).getD i 0 = if i < n then f i else 0 := by
  by_cases hi : i < n
  · rw [if_pos hi, List.getD_eq_getElem?_getD, List.getElem?_map, List.getElem?_range hi]
    rfl
  · rw [if_neg hi, List.getD_eq_default]
    rw [List.length_map, List.length_range]
    omega

theorem ofBytes_pageOf (p : PageRec) :
    Page.ofBytes (fun i => ((List.range (PAGE_SIZE / 8)).map p.visited).getD i 0)
      (fun i => ((List.range PAGE_SIZE).map p.content).getD i 0) = pageOf p := by
  have hbitmap : leNat (fun i => ((List.range (PAGE_SIZE / 8)).map p.visited).getD i 0)
      (PAGE_SIZE / 8) = leNat p.visited (PAGE_SIZE / 8) :=
    leNat_congr fun i hi => by rw [getD_map_range, if_pos hi]
  have hdata : (fun i => ((List.range PAGE_SIZE).map p.content).getD i 0) =
      fun i => if i < PAGE_SIZE then p.content i else 0 :=
    funext fun i => getD_map_range p.content
  rw [Page.ofBytes, pageOf, hbitmap, hdata]

theorem bytes_split (p : PageRec) (rest : List Byte) :
    (p.bytes ++ rest).take (PAGE_SIZE / 8) = (List.range (PAGE_SIZE / 8)).map p.visited ∧
    ((p.bytes ++ rest).drop (PAGE_SIZE / 8)).take PAGE_SIZE =
      (List.range PAGE_SIZE).map p.content ∧
    ((p.bytes ++ rest).drop (PAGE_SIZE / 8)).drop PAGE_SIZE = rest := by
  have hv : ((List.range (PAGE_SIZE / 8)).map p.visited).length = PAGE_SIZE / 8 := by
    rw [List.length_map, List.length_range]
  have hc : ((List.range PAGE_SIZE).map p.content).length = PAGE_SIZE := by
    rw [List.length_map, List.length_range]
  rw [PageRec.bytes, List.append_assoc]
  exact ⟨List.take_left' hv, by rw [List.drop_left' hv, List.take_left' hc],
    by rw [List.drop_left' hv, List.drop_left' hc]⟩

/-- A block of a text that is made of blocks of four. -/
theorem getD_blocks {f : ℕ → List Byte} (hf : ∀ i, (f i).length = 4) (l : List ℕ) {k i j : ℕ}
    (hi : l[i]? = some k) (hj : j < 4) (rest : List Byte) :
    (l.flatMap f ++ rest).getD (4 * i + j) 0 = (f k).getD j 0 := by
  induction l generalizing i with
  | nil => cases hi
  | cons a l ih =>
    rw [List.flatMap_cons, List.append_assoc]
    cases i with
    | zero =>
      obtain rfl := Option.some.inj hi
      rw [Nat.mul_zero, Nat.zero_add, List.getD_append _ _ _ _ (by rw [hf]; exact hj)]
    | succ i =>
      rw [List.getD_append_right _ _ _ _ (by rw [hf]; omega), hf,
        show 4 * (i + 1) + j - 4 = 4 * i + j by omega]
      exact ih hi

theorem exec_bytes_length (e : ExecRec) : e.bytes.length = PAGE_SIZE * 2 := by
  have hlen : ∀ l : List ℕ, (l.flatMap fun i =>
      (List.range 4).map (byteAt ((e.count i).setWidth 64))).length = 4 * l.length := by
    intro l
    induction l with
    | nil => rfl
    | cons i l ih =>
      rw [List.flatMap_cons, List.length_append, ih, List.length_map, List.length_range,
        List.length_cons]
      omega
  rw [ExecRec.bytes, hlen, List.length_range]
  rfl

theorem countsOf_bytes (e : ExecRec) (rest : List Byte) :
    countsOf ((e.bytes ++ rest).take (PAGE_SIZE * 2)) = countsList e := by
  rw [List.take_left' (exec_bytes_length e), countsOf, countsList]
  apply List.map_congr_left
  intro i hi
  have hlt := List.mem_range.mp hi
  have hbyte : ∀ j < 4, e.bytes.getD (4 * i + j) 0 = byteAt ((e.count i).setWidth 64) (0 + j) := by
    intro j hj
    have hblock := getD_blocks (f := fun i => (List.range 4).map (byteAt ((e.count i).setWidth 64)))
      (fun i => by rw [List.length_map, List.length_range]) (List.range (PAGE_SIZE / 2))
      (List.getElem?_range hlt) hj []
    rw [List.append_nil, getD_map_range, if_pos hj] at hblock
    rw [Nat.zero_add]
    exact hblock
  have hcount := (e.count i).isLt
  rw [leNat_congr hbyte, leNat_byteAt, BitVec.toNat_setWidth]
  omega

section
variable {st : State} {d : Draft}

def addPage (d : Draft) (page : Σ _ : ℕ, PageRec) : Draft :=
  { d with pages := d.pages.insert page.1 (pageOf page.2), counts := d.counts.erase page.1 }

def addExec (d : Draft) (exec : Σ _ : ℕ, ExecRec) : Draft :=
  { d with
    pages := d.pages.insert exec.1 (d.pages.getItem exec.1)
    counts := d.counts.insert exec.1 (countsList exec.2) }

theorem reads_page (hcur : st.cur = some d) (page : Σ _ : ℕ, PageRec) {rest : List Byte}
    (hdump : st.dump = some (page.2.bytes ++ rest)) :
    Reads dir st (pageLine page.1)
      { st with cur := some (addPage d page), dump := some rest } := by
  obtain ⟨htake, hdata, hrest⟩ := bytes_split page.2 rest
  have hws := forall_words_two (show Word "page".toList by decide) (word_prefixedHex page.1)
  have hpn : [prefixedHex page.1][0]?.bind readHex = some page.1 := readHex_prefixedHex page.1
  apply reads_line (line_unwords hws)
  rw [readLine_page (words_unwords hws), readPage, hcur, hdump]
  dsimp only
  rw [Option.bind_eq_bind, Option.bind_some, htake, hdata, hrest, hpn, Option.bind_eq_bind,
    Option.bind_some, ofBytes_pageOf]
  rfl

theorem reads_pages (pages : List (Σ _ : ℕ, PageRec)) {st : State} {d : Draft}
    (hcur : st.cur = some d) {rest : List Byte}
    (hdump : st.dump = some ((pages.flatMap fun page => page.2.bytes) ++ rest)) :
    Reads dir st (pages.flatMap fun page => pageLine page.1)
      { st with cur := some (pages.foldl addPage d), dump := some rest } := by
  induction pages generalizing st d with
  | nil =>
    have hsame : { st with cur := some d, dump := some rest } = st := by
      rw [← hcur, show some rest = st.dump from hdump.symm]
    rw [List.foldl_nil, hsame]
    exact .nil st
  | cons page pages ih =>
    rw [List.flatMap_cons, List.append_assoc] at hdump
    rw [List.flatMap_cons, List.foldl_cons]
    exact (reads_page hcur page hdump).append (ih rfl rfl)

theorem reads_exec (hcur : st.cur = some d) (exec : Σ _ : ℕ, ExecRec) {rest : List Byte}
    (hdump : st.dump = some (exec.2.bytes ++ rest)) :
    Reads dir st (execLine exec.1)
      { st with cur := some (addExec d exec), dump := some rest } := by
  have hws := forall_words_two (show Word "exec".toList by decide) (word_prefixedHex exec.1)
  have hpn : [prefixedHex exec.1][0]?.bind readHex = some exec.1 := readHex_prefixedHex exec.1
  apply reads_line (line_unwords hws)
  rw [readLine_exec (words_unwords hws), readExec, hcur, hdump]
  dsimp only
  rw [Option.bind_eq_bind, Option.bind_some, countsOf_bytes,
    List.drop_left' (exec_bytes_length exec.2), hpn, Option.bind_eq_bind, Option.bind_some]
  rfl

theorem reads_execs (execs : List (Σ _ : ℕ, ExecRec)) {st : State} {d : Draft}
    (hcur : st.cur = some d) {rest : List Byte}
    (hdump : st.dump = some ((execs.flatMap fun exec => exec.2.bytes) ++ rest)) :
    Reads dir st (execs.flatMap fun exec => execLine exec.1)
      { st with cur := some (execs.foldl addExec d), dump := some rest } := by
  induction execs generalizing st d with
  | nil =>
    have hsame : { st with cur := some d, dump := some rest } = st := by
      rw [← hcur, show some rest = st.dump from hdump.symm]
    rw [List.foldl_nil, hsame]
    exact .nil st
  | cons exec execs ih =>
    rw [List.flatMap_cons, List.append_assoc] at hdump
    rw [List.flatMap_cons, List.foldl_cons]
    exact (reads_exec hcur exec hdump).append (ih rfl rfl)

end

end RvCkpt.Parse
