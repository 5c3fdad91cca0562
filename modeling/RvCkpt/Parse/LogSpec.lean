import RvCkpt.Parse.ReadLog
import RvCkpt.Recorder.LogText

/-! # Reading back what the recorder wrote

Every line that the recorder completes is read as what it says. A `syscall` line that is not
completed by one record with its data runs into the next one, or ends early, and the reading ends
with an exception.
-/

namespace RvCkpt.Parse
open ByteMem Text State
set_option autoImplicit false

/-! ## Texts and lines -/

variable {dir : Directory}

/-- Reading the text takes the one state to the other. -/
def Reads (dir : Directory) (st : State) (text : List Char) (st' : State) : Prop :=
  ∀ rest, (lines (text ++ rest)).foldlM (readLine dir) st = (lines rest).foldlM (readLine dir) st'

/-- Reading the text raises an exception. -/
def Fails (dir : Directory) (st : State) (text : List Char) : Prop :=
  ∀ rest, (lines (text ++ rest)).foldlM (readLine dir) st = .error st.submitted

theorem Reads.nil (st : State) : Reads dir st [] st := fun _ => rfl

theorem Reads.append {st st' st'' : State} {text text' : List Char} (h : Reads dir st text st')
    (h' : Reads dir st' text' st'') : Reads dir st (text ++ text') st'' := by
  intro rest
  rw [List.append_assoc, h, h']

theorem Fails.append {st : State} {text : List Char} (h : Fails dir st text) (text' : List Char) :
    Fails dir st (text ++ text') := by
  intro rest
  rw [List.append_assoc, h]

theorem Reads.fails {st st' : State} {text text' : List Char} (h : Reads dir st text st')
    (h' : Fails dir st' text') (hsame : st'.submitted = st.submitted) :
    Fails dir st (text ++ text') := by
  intro rest
  rw [List.append_assoc, h, h', hsame]

theorem reads_line {st st' : State} {l : List Char} (hl : Line l)
    (h : readLine dir st l = .ok st') : Reads dir st (l ++ ['\n']) st' := by
  intro rest
  rw [List.append_assoc, List.singleton_append, lines_cons hl, List.foldlM_cons, h]
  rfl

theorem fails_line {st : State} {l : List Char} (hl : Line l)
    (h : readLine dir st l = .error st.submitted) : Fails dir st (l ++ ['\n']) := by
  intro rest
  rw [List.append_assoc, List.singleton_append, lines_cons hl, List.foldlM_cons, h]
  rfl

/-- The beginning of a line that no continuation of the line makes readable. -/
theorem fails_head {st : State} {l : List Char} (hl : Line l) (hne : l ≠ [])
    (h : ∀ l', readLine dir st (l ++ l') = .error st.submitted) : Fails dir st l := by
  intro rest
  obtain ⟨l', ls, hlines⟩ := lines_head hl hne rest
  rw [hlines, List.foldlM_cons, h]
  rfl

/-! ## The words of a line -/

theorem word_hex (n : ℕ) : Word (hex n) := word_numeral (by decide) (by decide) n

theorem word_prefixedHex (n : ℕ) : Word (prefixedHex n) := word_prefixed n

theorem readHex_hex (n : ℕ) : readHex (hex n) = some n := readHex_numeral n

theorem readHex_prefixedHex (n : ℕ) : readHex (prefixedHex n) = some n := readHex_prefixed n

theorem hexBytes_digits (bs : List Byte) : (hexBytes bs).all (isDigit 16) = true := by
  rw [hexBytes, List.all_flatMap, List.all_eq_true]
  intro b _
  exact padded_digits (by decide) (by decide) 2 b.toNat

theorem padded_pair (b : Byte) : ∃ c d, padded 16 2 b.toNat = [c, d] := by
  have hlen : (padded 16 2 b.toNat).length = 2 :=
    padded_length (by decide) (by decide) (by have := b.isLt; omega)
  exact List.length_eq_two.mp hlen

theorem word_hexBytes {bs : List Byte} (h : bs ≠ []) : Word (hexBytes bs) := by
  refine word_of_digits (b := 16) le_rfl ?_ (hexBytes_digits bs)
  obtain ⟨b, bs, rfl⟩ := List.exists_cons_of_ne_nil h
  rw [hexBytes, List.flatMap_cons]
  intro hnil
  exact padded_ne_nil 16 2 b.toNat (List.append_eq_nil_iff.mp hnil).1

/-- `set_wdata` undoes the printing of the bytes. -/
theorem readBytes_hexBytes (bs : List Byte) : readBytes (hexBytes bs) = some bs := by
  induction bs with
  | nil => rfl
  | cons b bs ih =>
    obtain ⟨c, d, hpair⟩ := padded_pair b
    have hread : readHex [c, d] = some b.toNat := by
      rw [← hpair, readHex_eq (padded_digits (by decide) (by decide) 2 b.toNat)]
      exact readDigits_padded (by decide) (by decide) 2 b.toNat
    rw [hexBytes, List.flatMap_cons, hpair, List.cons_append, List.cons_append, List.nil_append,
      readBytes, hread, Option.bind_eq_bind, Option.bind_some, ← hexBytes, ih]
    simp only [Option.bind_eq_bind, Option.bind_some, BitVec.ofNat_toNat, BitVec.setWidth_eq]

/-- A line whose first word is a number is not understood. -/
theorem readLine_number {st : State} {l w : List Char} {ws : List (List Char)}
    (hl : words l = w :: ws) (hw : w.all (isDigit 16) = true) :
    readLine dir st l = .error st.submitted := by
  have hne : ∀ kw : List Char, kw.all (isDigit 16) = false → w ≠ kw := by
    intro kw hkw h
    rw [h, hkw] at hw
    cases hw
  rw [readLine, hl]
  dsimp only
  rw [if_neg (hne _ (by decide)), if_neg (not_or.mpr ⟨hne _ (by decide), hne _ (by decide)⟩),
    if_neg (hne _ (by decide)), if_neg (hne _ (by decide)), if_neg (hne _ (by decide)),
    if_neg (hne _ (by decide)), if_neg (hne _ (by decide)), if_neg (hne _ (by decide))]

section
variable {st : State} {l : List Char} {args : List (List Char)}

theorem readLine_begin (hl : words l = "begin".toList :: args) :
    readLine dir st l = st.readBegin args := by
  rw [readLine, hl]
  dsimp only
  rw [if_pos rfl]

theorem readLine_regs {kw : List Char} (hkw : kw = "ireg".toList ∨ kw = "freg".toList)
    (hl : words l = kw :: args) :
    readLine dir st l = st.orRaise (st.onCur fun d => readRegs d args) := by
  have hne : kw ≠ "begin".toList := by rcases hkw with rfl | rfl <;> decide
  rw [readLine, hl]
  dsimp only
  rw [if_neg hne, if_pos hkw]

theorem readLine_syscall (hl : words l = "syscall".toList :: args) :
    readLine dir st l = st.orRaise (st.onCur fun d => readSyscall d args) := by
  rw [readLine, hl]
  dsimp only
  rw [if_neg (by decide), if_neg (by decide), if_pos rfl]

theorem readLine_break (hl : words l = "break".toList :: args) :
    readLine dir st l = st.orRaise (st.onCur fun d => readBreak d args) := by
  rw [readLine, hl]
  dsimp only
  rw [if_neg (by decide), if_neg (by decide), if_neg (by decide), if_pos rfl]

theorem readLine_file (hl : words l = "file".toList :: args) :
    readLine dir st l = st.orRaise (readFile dir st args) := by
  rw [readLine, hl]
  dsimp only
  rw [if_neg (by decide), if_neg (by decide), if_neg (by decide), if_neg (by decide), if_pos rfl]

theorem readLine_page (hl : words l = "page".toList :: args) :
    readLine dir st l = st.orRaise (readPage st args) := by
  rw [readLine, hl]
  dsimp only
  rw [if_neg (by decide), if_neg (by decide), if_neg (by decide), if_neg (by decide),
    if_neg (by decide), if_pos rfl]

theorem readLine_exec (hl : words l = "exec".toList :: args) :
    readLine dir st l = st.orRaise (readExec st args) := by
  rw [readLine, hl]
  dsimp only
  rw [if_neg (by decide), if_neg (by decide), if_neg (by decide), if_neg (by decide),
    if_neg (by decide), if_neg (by decide), if_pos rfl]

theorem readLine_store (hl : words l = "store".toList :: args) :
    readLine dir st l = st.orRaise (readStore st args) := by
  rw [readLine, hl]
  dsimp only
  rw [if_neg (by decide), if_neg (by decide), if_neg (by decide), if_neg (by decide),
    if_neg (by decide), if_neg (by decide), if_neg (by decide), if_pos rfl]

end

/-! ## The lines of a system call -/

def hasData : Option (ℕ × List Byte) → Bool
  | none => true
  | some (_, data) => !data.isEmpty

def callOf (addr : ℕ) (retval : BitVec 64) (write : Option (ℕ × List Byte)) : SysCall :=
  ⟨addr, retval, none, false, write.map fun w => (BitVec.ofNat 64 w.1, w.2)⟩

/-- A line that has been started and its record. -/
def callText (addr : ℕ) (retval : BitVec 64) (write : Option (ℕ × List Byte)) : List Char :=
  (LogItem.syscall addr).text ++ (LogItem.result retval write).text

def addCall (d : Draft) (call : SysCall) : Draft := { d with syscalls := d.syscalls ++ [call] }

theorem readSyscall_plain (d : Draft) (addr : ℕ) (retval : BitVec 64) :
    readSyscall d [prefixedHex addr, hex retval.toNat] = some (addCall d (callOf addr retval none)) := by
  have h0 : ([prefixedHex addr, hex retval.toNat][0]?.bind readHex) = some addr :=
    readHex_prefixedHex addr
  have h1 : ([prefixedHex addr, hex retval.toNat][1]?.bind readHex) = some retval.toNat :=
    readHex_hex retval.toNat
  have h2 : [prefixedHex addr, hex retval.toNat][2]? = none := rfl
  rw [readSyscall, h0, h1, h2, Option.bind_eq_bind, Option.bind_some, if_neg (by simp)]
  simp only [Option.bind_eq_bind, Option.bind_some, BitVec.ofNat_toNat, BitVec.setWidth_eq, addCall,
    callOf, Option.map_none]

theorem prefixedHex_ne_exit (n : ℕ) : some (prefixedHex n) ≠ some "exit".toList := by
  intro h
  have hcons : '0' = 'e' := (List.cons.inj (Option.some.inj h)).1
  exact absurd hcons (by decide)

theorem readSyscall_write (d : Draft) (addr : ℕ) (retval : BitVec 64) (waddr : ℕ)
    (data : List Byte) :
    readSyscall d [prefixedHex addr, hex retval.toNat, prefixedHex waddr, hexBytes data] =
      some (addCall d (callOf addr retval (some (waddr, data)))) := by
  rw [readSyscall]
  simp only [List.getElem?_cons_zero, List.getElem?_cons_succ, Option.bind_some, Option.bind_eq_bind,
    readHex_prefixedHex, readHex_hex, readBytes_hexBytes]
  rw [if_neg (prefixedHex_ne_exit waddr)]
  simp only [BitVec.ofNat_toNat, BitVec.setWidth_eq, addCall, callOf, Option.map_some]

def State.withCur (st : State) (d : Draft) : State := { st with cur := some d }

theorem onCur_some {st : State} {d d' : Draft} {f : Draft → Option Draft} (hcur : st.cur = some d)
    (hf : f d = some d') : st.orRaise (st.onCur f) = .ok (st.withCur d') := by
  rw [onCur, hcur, Option.bind_eq_bind, Option.bind_some, hf]
  rfl

theorem onCur_none {st : State} {f : Draft → Option Draft} (hf : ∀ d, f d = none) :
    st.orRaise (st.onCur f) = .error st.submitted := by
  rw [onCur]
  cases st.cur with
  | none => rfl
  | some d =>
    rw [Option.bind_eq_bind, Option.bind_some, hf]
    rfl

theorem forall_words_two {v w : List Char} (hv : Word v) (hw : Word w) : ∀ u ∈ [v, w], Word u := by
  simpa using ⟨hv, hw⟩

theorem reads_call {st : State} {d : Draft} (hcur : st.cur = some d) (addr : ℕ)
    (retval : BitVec 64) {write : Option (ℕ × List Byte)} (hdata : hasData write = true) :
    Reads dir st (callText addr retval write)
      (st.withCur (addCall d (callOf addr retval write))) := by
  cases write with
  | none =>
    have hws : ∀ w ∈ ["syscall".toList, prefixedHex addr, hex retval.toNat], Word w := by
      simpa using ⟨by decide, word_prefixedHex addr, word_hex retval.toNat⟩
    have htext : callText addr retval none =
        unwords ["syscall".toList, prefixedHex addr, hex retval.toNat] ++ ['\n'] := by
      simp only [callText, LogItem.text, unwords, List.append_assoc, List.cons_append,
        List.nil_append]
    rw [htext]
    apply reads_line (line_unwords hws)
    rw [readLine_syscall (words_unwords hws)]
    exact onCur_some hcur (readSyscall_plain d addr retval)
  | some write =>
    obtain ⟨waddr, data⟩ := write
    have hne : data ≠ [] := by
      rintro rfl
      cases hdata
    have hws : ∀ w ∈ ["syscall".toList, prefixedHex addr, hex retval.toNat, prefixedHex waddr,
        hexBytes data], Word w := by
      simpa using ⟨by decide, word_prefixedHex addr, word_hex retval.toNat,
        word_prefixedHex waddr, word_hexBytes hne⟩
    have htext : callText addr retval (some (waddr, data)) = unwords ["syscall".toList,
        prefixedHex addr, hex retval.toNat, prefixedHex waddr, hexBytes data] ++ ['\n'] := by
      simp only [callText, LogItem.text, unwords, List.append_assoc, List.cons_append]
    rw [htext]
    apply reads_line (line_unwords hws)
    rw [readLine_syscall (words_unwords hws)]
    exact onCur_some hcur (readSyscall_write d addr retval waddr data)

/-- A write without data leaves its line one word short. -/
theorem fails_call (st : State) (addr : ℕ) (retval : BitVec 64)
    {write : Option (ℕ × List Byte)} (hdata : hasData write = false) :
    Fails dir st (callText addr retval write) := by
  cases write with
  | none => cases hdata
  | some write =>
    obtain ⟨waddr, data⟩ := write
    have hnil : data = [] := by
      cases data with
      | nil => rfl
      | cons b data => cases hdata
    subst hnil
    have hws : ∀ w ∈ ["syscall".toList, prefixedHex addr, hex retval.toNat, prefixedHex waddr],
        Word w := by
      simpa using ⟨by decide, word_prefixedHex addr, word_hex retval.toNat,
        word_prefixedHex waddr⟩
    have htext : callText addr retval (some (waddr, [])) = (unwords ["syscall".toList,
        prefixedHex addr, hex retval.toNat, prefixedHex waddr] ++ [' ']) ++ ['\n'] := by
      simp only [callText, LogItem.text, unwords, List.append_assoc, List.cons_append,
        List.nil_append, hexBytes, List.flatMap_nil]
    have hline : Line [' '] := by decide
    have hwords : words (unwords ["syscall".toList, prefixedHex addr, hex retval.toNat,
        prefixedHex waddr] ++ [' ']) =
        ["syscall".toList, prefixedHex addr, hex retval.toNat, prefixedHex waddr] := by
      rw [words_unwords_append hws (by decide), words_nil, List.append_nil]
    rw [htext]
    apply fails_line (line_append (line_unwords hws) hline)
    rw [readLine_syscall hwords]
    apply onCur_none
    intro d
    rw [readSyscall]
    simp only [List.getElem?_cons_zero, List.getElem?_cons_succ, Option.bind_some,
      Option.bind_eq_bind, readHex_prefixedHex, readHex_hex, List.getElem?_nil, Option.bind_none]
    rw [if_neg (prefixedHex_ne_exit waddr)]

/-- The start of a `syscall` line that runs on into the word `v` and a letter that is no digit. -/
theorem fails_run_on (st : State) (addr : ℕ) {v : List Char} {c : Char}
    (hv : ∀ d ∈ v ++ [c], blank d = false) (hc : isDigit 16 c = false) :
    Fails dir st ((LogItem.syscall addr).text ++ (v ++ [c])) := by
  have hword : Word (prefixedHex addr ++ (v ++ [c])) := (word_prefixedHex addr).append hv
  have htext : (LogItem.syscall addr).text ++ (v ++ [c]) =
      unwords ["syscall".toList, prefixedHex addr ++ (v ++ [c])] := by
    simp only [LogItem.text, unwords, List.append_assoc, List.cons_append]
  rw [htext]
  apply fails_head (line_unwords (forall_words_two (by decide) hword)) (by simp [unwords])
  intro l'
  obtain ⟨w', ws, hwords⟩ := words_head hword l'
  have hline : words (unwords ["syscall".toList, prefixedHex addr ++ (v ++ [c])] ++ l') =
      "syscall".toList :: (prefixedHex addr ++ (v ++ [c]) ++ w') :: ws := by
    rw [unwords, unwords, List.append_assoc, List.cons_append, words_word (by decide) (by decide),
      hwords]
  rw [readLine_syscall hline]
  apply onCur_none
  intro d
  have hnone : readHex (prefixedHex addr ++ (v ++ [c]) ++ w') = none := by
    have happend : prefixedHex addr ++ (v ++ [c]) ++ w' =
        '0' :: 'x' :: ((numeral 16 addr ++ v) ++ c :: w') := by
      simp only [prefixedHex, List.append_assoc, List.cons_append, List.nil_append]
    rw [happend]
    exact readHex_run_on hc
  rw [readSyscall, List.getElem?_cons_zero, Option.bind_some, hnone]
  rfl

theorem line_digits {cs : List Char} (h : cs.all (isDigit 16) = true) : Line cs := by
  intro c hc
  by_contra hn
  rw [Bool.not_eq_false, beq_iff_eq] at hn
  have hblank := digit_not_blank le_rfl (List.all_eq_true.mp h c hc)
  rw [hn] at hblank
  cases hblank

/-- A record without a line that it completes. -/
theorem fails_result (st : State) (retval : BitVec 64) (write : Option (ℕ × List Byte)) :
    Fails dir st (LogItem.result retval write).text := by
  have hret : (hex retval.toNat).all (isDigit 16) = true :=
    numeral_digits (by decide) (by decide) retval.toNat
  have hstart : Line (' ' :: hex retval.toNat) := line_append (l := [' ']) (by decide) (line_digits hret)
  cases write with
  | none =>
    have htext : (LogItem.result retval none).text = (' ' :: hex retval.toNat) ++ ['\n'] := by
      simp only [LogItem.text, List.append_nil]
    rw [htext]
    apply fails_line hstart
    exact readLine_number (by rw [words_blank (by decide), words_single (word_hex _)]) hret
  | some write =>
    obtain ⟨waddr, data⟩ := write
    have htext : (LogItem.result retval (some (waddr, data))).text = ((' ' :: hex retval.toNat) ++
        ([' '] ++ (prefixedHex waddr ++ ([' '] ++ hexBytes data)))) ++ ['\n'] := by
      simp only [LogItem.text, List.append_assoc, List.cons_append, List.nil_append]
    rw [htext]
    have hline : Line ([' '] ++ (prefixedHex waddr ++ ([' '] ++ hexBytes data))) :=
      line_append (by decide) (line_append (word_prefixedHex waddr).line
        (line_append (by decide) (line_digits (hexBytes_digits data))))
    apply fails_line (line_append hstart hline)
    have hwords : words ((' ' :: hex retval.toNat) ++
        ([' '] ++ (prefixedHex waddr ++ ([' '] ++ hexBytes data)))) =
        hex retval.toNat :: words (prefixedHex waddr ++ ([' '] ++ hexBytes data)) := by
      rw [List.cons_append, words_blank (by decide), List.singleton_append,
        words_word (word_hex _) (by decide)]
    exact readLine_number hwords hret

theorem fails_exit (st : State) (rc : BitVec 32) : Fails dir st (Stop.exit rc).item.text := by
  have hws := forall_words_two (word_hex rc.toNat) (show Word "exit".toList by decide)
  have htext : (Stop.exit rc).item.text =
      ([' '] ++ unwords [hex rc.toNat, "exit".toList]) ++ ['\n'] := rfl
  have hrc : (hex rc.toNat).all (isDigit 16) = true :=
    numeral_digits (by decide) (by decide) rc.toNat
  rw [htext]
  apply fails_line (line_append (by decide) (line_unwords hws))
  exact readLine_number (by rw [List.singleton_append, words_blank (by decide), words_unwords hws])
    hrc

theorem reads_exit {st : State} {d : Draft} (hcur : st.cur = some d) (addr : ℕ) (rc : BitVec 32) :
    Reads dir st ((LogItem.syscall addr).text ++ (Stop.exit rc).item.text)
      (st.withCur (addCall d (breakCall addr))) := by
  have hws : ∀ w ∈ ["syscall".toList, prefixedHex addr, hex rc.toNat, "exit".toList], Word w := by
    simpa using ⟨by decide, word_prefixedHex addr, word_hex rc.toNat, by decide⟩
  have htext : (LogItem.syscall addr).text ++ (Stop.exit rc).item.text =
      unwords ["syscall".toList, prefixedHex addr, hex rc.toNat, "exit".toList] ++ ['\n'] := by
    simp only [Stop.item, LogItem.text, unwords, List.append_assoc, List.cons_append]
  rw [htext]
  apply reads_line (line_unwords hws)
  rw [readLine_syscall (words_unwords hws)]
  refine onCur_some hcur ?_
  have hexit : [prefixedHex addr, hex rc.toNat, "exit".toList][2]? = some "exit".toList := rfl
  rw [readSyscall, List.getElem?_cons_zero, Option.bind_some, readHex_prefixedHex,
    Option.bind_eq_bind, Option.bind_some, if_pos hexit]
  rfl

/-! ## The break line -/

def stopBreakpoint : Stop → Option (ℕ × ℕ × ℕ)
  | .break addr (.repeat count rd) => some (addr, rd, count.toNat)
  | _ => none

/-- The call that ends a checkpoint at a breakpoint, unless its instruction repeats. -/
def breakCalls (addr : ℕ) : BreakKind → List SysCall
  | .repeat _ _ => []
  | _ => [breakCall addr]

theorem kind_words (kind : BreakKind) : ∀ w ∈ kind.words, Word w := by
  cases kind with
  | «repeat» count rd =>
    simpa [BreakKind.words] using ⟨by decide, word_numeral (by decide) (by decide) count.toNat,
      word_numeral (by decide) (by decide) rd⟩
  | ecall => simpa [BreakKind.words] using (by decide : Word "ecall".toList)
  | first => simpa [BreakKind.words] using (by decide : Word "first".toList)
  | firstrvc => simpa [BreakKind.words] using (by decide : Word "firstrvc".toList)

theorem readBreak_eq (d : Draft) (addr : ℕ) {kind : BreakKind}
    (hsound : (Stop.break addr kind).Sound) (hnone : d.breakpoint = none) :
    readBreak d (prefixedHex addr :: kind.words) = some { d with
      syscalls := d.syscalls ++ breakCalls addr kind
      breakpoint := stopBreakpoint (.break addr kind) } := by
  have haddr : ((prefixedHex addr :: kind.words)[0]?.bind readHex) = some addr :=
    readHex_prefixedHex addr
  rw [readBreak, haddr, Option.bind_eq_bind, Option.bind_some]
  cases kind with
  | «repeat» count rd =>
    simp only [BreakKind.words, List.getElem?_cons_succ, List.getElem?_cons_zero,
      Option.bind_eq_bind, Option.bind_some, if_true,
      readDigits_numeral (show 1 < 10 by decide) (show 10 ≤ 16 by decide)]
    have hrd : rd ≠ 0 := hsound
    rw [if_pos hrd, breakCalls, List.append_nil]
    rfl
  | ecall =>
    have hstop : stopBreakpoint (.break addr .ecall) = d.breakpoint := hnone.symm
    simp only [BreakKind.words, List.getElem?_cons_succ, List.getElem?_cons_zero,
      Option.bind_eq_bind, Option.bind_some]
    rw [if_neg (by decide), hstop]
    rfl
  | first =>
    have hstop : stopBreakpoint (.break addr .first) = d.breakpoint := hnone.symm
    simp only [BreakKind.words, List.getElem?_cons_succ, List.getElem?_cons_zero,
      Option.bind_eq_bind, Option.bind_some]
    rw [if_neg (by decide), hstop]
    rfl
  | firstrvc =>
    have hstop : stopBreakpoint (.break addr .firstrvc) = d.breakpoint := hnone.symm
    simp only [BreakKind.words, List.getElem?_cons_succ, List.getElem?_cons_zero,
      Option.bind_eq_bind, Option.bind_some]
    rw [if_neg (by decide), hstop]
    rfl

theorem reads_break {st : State} {d : Draft} (hcur : st.cur = some d) {addr : ℕ}
    {kind : BreakKind} (hsound : (Stop.break addr kind).Sound) (hnone : d.breakpoint = none) :
    Reads dir st (Stop.break addr kind).item.text (st.withCur { d with
      syscalls := d.syscalls ++ breakCalls addr kind
      breakpoint := stopBreakpoint (.break addr kind) }) := by
  have hws : ∀ w ∈ "break".toList :: prefixedHex addr :: kind.words, Word w := by
    simpa using ⟨by decide, word_prefixedHex addr, kind_words kind⟩
  have htext : (Stop.break addr kind).item.text =
      unwords ("break".toList :: prefixedHex addr :: kind.words) ++ ['\n'] := rfl
  rw [htext]
  apply reads_line (line_unwords hws)
  rw [readLine_break (words_unwords hws)]
  exact onCur_some hcur (readBreak_eq d addr hsound hnone)

/-! ## The inside of an interval -/

/-- The calls of an interval, if every line in it is completed. -/
def callsOf : List CallItem → Stop → Option (List SysCall)
  | [], .break addr kind => some (breakCalls addr kind)
  | [.started addr], .exit _ => some [breakCall addr]
  | .started addr :: .recorded retval write :: body, stop =>
    if hasData write then (callsOf body stop).map (callOf addr retval write :: ·) else none
  | _, _ => none

def addStop (d : Draft) (calls : List SysCall) (stop : Stop) : Draft :=
  { d with syscalls := d.syscalls ++ calls, breakpoint := stopBreakpoint stop }

theorem withCur_cur (st : State) (d : Draft) : (st.withCur d).cur = some d := rfl

theorem withCur_withCur (st : State) (d d' : Draft) : (st.withCur d).withCur d' = st.withCur d' := rfl

/-- The body of an interval and its last line. -/
def bodyText (body : List CallItem) (stop : Stop) : List Char :=
  logText (body.map CallItem.item) ++ stop.item.text

theorem bodyText_call (addr : ℕ) (retval : BitVec 64) (write : Option (ℕ × List Byte))
    (body : List CallItem) (stop : Stop) :
    bodyText (.started addr :: .recorded retval write :: body) stop =
      callText addr retval write ++ bodyText body stop := by
  simp only [bodyText, logText, List.map_cons, List.flatMap_cons, callText, CallItem.item,
    List.append_assoc]

theorem callsOf_call (addr : ℕ) (retval : BitVec 64) (write : Option (ℕ × List Byte))
    (body : List CallItem) (stop : Stop) :
    callsOf (.started addr :: .recorded retval write :: body) stop =
      if hasData write then (callsOf body stop).map (callOf addr retval write :: ·) else none := by
  cases stop <;> rfl

theorem fails_run_on_syscall (st : State) (addr addr' : ℕ) (rest : List Char) :
    Fails dir st ((LogItem.syscall addr).text ++ ((LogItem.syscall addr').text ++ rest)) := by
  have hfails : Fails dir st ((LogItem.syscall addr).text ++ ([] ++ ['s'])) :=
    fails_run_on st addr (show Word ['s'] by decide).2 (by decide)
  have htext : (LogItem.syscall addr).text ++ ((LogItem.syscall addr').text ++ rest) =
      (LogItem.syscall addr).text ++ ([] ++ ['s']) ++
        ("yscall".toList ++ ' ' :: prefixedHex addr' ++ rest) := by
    rw [List.append_assoc]
    rfl
  rw [htext]
  exact hfails.append _

theorem fails_run_on_break (st : State) (addr addr' : ℕ) (kind : BreakKind) :
    Fails dir st ((LogItem.syscall addr).text ++ (Stop.break addr' kind).item.text) := by
  have hfails : Fails dir st ((LogItem.syscall addr).text ++ (['b'] ++ ['r'])) :=
    fails_run_on st addr (show Word ['b', 'r'] by decide).2 (by decide)
  have htext : (LogItem.syscall addr).text ++ (Stop.break addr' kind).item.text =
      (LogItem.syscall addr).text ++ (['b'] ++ ['r']) ++
        ("eak".toList ++ ' ' :: unwords (prefixedHex addr' :: kind.words) ++ ['\n']) := by
    rw [List.append_assoc]
    rfl
  rw [htext]
  exact hfails.append _

theorem addStop_call (d : Draft) (call : SysCall) (calls : List SysCall) (stop : Stop) :
    addStop (addCall d call) calls stop = addStop d (call :: calls) stop := by
  rw [addStop, addCall, addStop, List.append_assoc]
  rfl

/-- The body is read as its calls, or the reading ends. -/
theorem read_body (dir : Directory) : ∀ (body : List CallItem) {stop : Stop} {st : State}
    {d : Draft}, stop.Sound → st.cur = some d → d.breakpoint = none →
    (∀ calls, callsOf body stop = some calls →
      Reads dir st (bodyText body stop) (st.withCur (addStop d calls stop))) ∧
    (callsOf body stop = none → Fails dir st (bodyText body stop))
  | [], .break addr kind, st, d, hstop, hcur, hnone => by
    refine ⟨fun calls h => ?_, fun h => absurd h (by simp [callsOf])⟩
    rw [← Option.some.inj h]
    exact reads_break hcur hstop hnone
  | [], .exit rc, st, _, _, _, _ =>
    ⟨fun calls h => absurd h (by simp [callsOf]), fun _ => fails_exit st rc⟩
  | [.started addr], .break addr' kind, st, _, _, _, _ => by
    refine ⟨fun calls h => absurd h (by simp [callsOf]), fun _ => ?_⟩
    simp only [bodyText, logText, List.map_cons, List.map_nil, List.flatMap_cons,
      List.flatMap_nil, List.append_nil]
    exact fails_run_on_break st addr addr' kind
  | [.started addr], .exit rc, st, d, _, hcur, hnone => by
    refine ⟨fun calls h => ?_, fun h => absurd h (by simp [callsOf])⟩
    have hstop : stopBreakpoint (.exit rc) = d.breakpoint := hnone.symm
    rw [← Option.some.inj h, addStop, hstop]
    simp only [bodyText, logText, List.map_cons, List.map_nil, List.flatMap_cons,
      List.flatMap_nil, List.append_nil]
    exact reads_exit hcur addr rc
  | .started addr :: .recorded retval write :: body, stop, st, d, hstop, hcur, hnone => by
    rw [bodyText_call, callsOf_call]
    cases hdata : hasData write with
    | false =>
      exact ⟨fun calls h => absurd h (by simp), fun _ => (fails_call st addr retval hdata).append _⟩
    | true =>
      have hcall : Reads dir st (callText addr retval write)
          (st.withCur (addCall d (callOf addr retval write))) := reads_call hcur addr retval hdata
      obtain ⟨hok, hfail⟩ := read_body dir body hstop
        (withCur_cur st (addCall d (callOf addr retval write))) hnone
      constructor
      · intro calls h
        obtain ⟨calls', hcalls, rfl⟩ := Option.map_eq_some_iff.mp h
        have hread := hcall.append (hok calls' hcalls)
        rwa [withCur_withCur, addStop_call] at hread
      · intro h
        exact hcall.fails (hfail (Option.map_eq_none_iff.mp h)) rfl
  | .started addr :: .started addr' :: body, stop, st, _, _, _, _ => by
    refine ⟨fun calls h => absurd h (by simp [callsOf]), fun _ => ?_⟩
    simp only [bodyText, logText, List.map_cons, List.flatMap_cons, List.append_assoc]
    exact fails_run_on_syscall st addr addr' _
  | .recorded retval write :: body, stop, st, _, _, _, _ => by
    refine ⟨fun calls h => absurd h (by simp [callsOf]), fun _ => ?_⟩
    simp only [bodyText, logText, List.map_cons, List.flatMap_cons, List.append_assoc]
    exact (fails_result st retval write).append _

end RvCkpt.Parse
