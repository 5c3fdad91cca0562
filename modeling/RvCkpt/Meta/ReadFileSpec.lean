import RvCkpt.Meta.Tokens

/-! # Reading the meta data

`read_file` gives a row for each line that has tokens where every line that fits into the buffer
has a comment at its first `#`, and a longer line has its tokens in one piece.
-/

namespace RvCkpt.Meta.ReadFile
set_option autoImplicit false

/-! ## The property -/

/-- The first line of a text with its newline, and the rest of the text. -/
def nextLine : List Char → List Char × List Char
  | [] => ([], [])
  | c :: cs => if c = '\n' then ([c], cs) else (c :: (nextLine cs).1, (nextLine cs).2)

theorem nextLine_append (cs : List Char) : (nextLine cs).1 ++ (nextLine cs).2 = cs := by
  induction cs with
  | nil => rfl
  | cons c cs ih =>
    rw [nextLine]
    split_ifs
    · rfl
    · rw [List.cons_append, ih]

theorem nextLine_ne_nil (c : Char) (cs : List Char) : (nextLine (c :: cs)).1 ≠ [] := by
  rw [nextLine]
  split_ifs <;> exact List.cons_ne_nil _ _

/-- The lines of a file with their newlines. -/
def fileLines : List Char → List (List Char)
  | [] => []
  | c :: cs => (nextLine (c :: cs)).1 :: fileLines (nextLine (c :: cs)).2
  termination_by cs => cs.length
  decreasing_by
    have hlength := congrArg List.length (nextLine_append (c :: cs))
    have hpos := List.length_pos_iff.mpr (nextLine_ne_nil c cs)
    rw [List.length_append] at hlength
    omega

/-- The rows of lines: the tokens of each that has any. -/
def rows (lines : List (List Char)) : List (List Token) := (lines.map tokens).filter (· ≠ [])

/-- Whatever lines have been read, `read_file` has their rows. -/
def Right (file : List Char) : Prop :=
  ∀ before behind, fileLines file = before ++ behind → read_file before.flatten = rows before

/-- The first `#` of the line is outside quotes, and no null character is before it. -/
def Clean (line : List Char) : Prop :=
  let text := line.takeWhile fun c => c ≠ '#' ∧ c ≠ '\x00'
  text = line ∨ ¬Unclosed text ∧ ∃ comment, line = text ++ '#' :: comment

/-- A text in pieces of `n` characters. -/
def chunks (n : ℕ) : List Char → List (List Char)
  | [] => []
  | c :: cs =>
    if _h : 0 < n then (c :: cs).take n :: chunks n ((c :: cs).drop n) else [c :: cs]
  termination_by cs => cs.length
  decreasing_by
    rw [List.length_drop, List.length_cons]
    omega

/-- The tokens of the line are those of one of its pieces, and the others have none. -/
def InOnePiece (line : List Char) : Prop :=
  ∃ before piece behind, chunks (BUF_SIZE - 1) line = before ++ piece :: behind ∧
    tokens (lineText piece) = tokens line ∧
    ∀ other ∈ before ++ behind, tokens (lineText other) = []

def LineMeets (line : List Char) : Prop :=
  if line.length < BUF_SIZE then Clean line else InOnePiece line

def FileMeets (file : List Char) : Prop := ∀ line ∈ fileLines file, LineMeets line

/-! ## One line -/

theorem loop_whitespace {p : LineParser} (h : p.state = .whitespace) (c : Char) (cs : List Char) :
    p.loop (c :: cs) =
      if isspace c then p.loop cs
      else if c = '#' then { p with state := .comment }.loop (c :: cs)
      else if c = '"' then { p with state := .quoted_token }.loop cs
      else { p with state := .unquoted_token }.loop (c :: cs) := by
  rw [LineParser.loop]
  split <;> simp_all

theorem loop_quoted {p : LineParser} (h : p.state = .quoted_token) (c : Char) (cs : List Char) :
    p.loop (c :: cs) = if c = '"' then p.complete.loop cs else (p.push c).loop cs := by
  rw [LineParser.loop]
  split <;> simp_all

theorem loop_unquoted {p : LineParser} (h : p.state = .unquoted_token) (c : Char)
    (cs : List Char) :
    p.loop (c :: cs) = if isspace c then p.complete.loop cs else (p.push c).loop cs := by
  rw [LineParser.loop]
  split <;> simp_all

theorem loop_comment {p : LineParser} (h : p.state = .comment) (cs : List Char) :
    p.loop cs = p := by
  induction cs with
  | nil => rw [LineParser.loop]
  | cons c cs ih =>
    rw [LineParser.loop]
    split <;> simp_all

/-- `parse_line` after its loop. -/
def finish (p : LineParser) : List Token :=
  if 0 < p.token.length then p.comps ++ [p.token] else p.comps

/-- The variables of `parse_line` at a place in the grammar. -/
def parserAt (comps : List Token) : Place → LineParser
  | .gap => ⟨.whitespace, [], comps⟩
  | .word w => ⟨.unquoted_token, w, comps⟩
  | .quote q => ⟨.quoted_token, q, comps⟩
  | .comment => ⟨.comment, [], comps⟩

/-- A character that starts no comment takes `parse_line` to the next place. -/
theorem loop_step {c : Char} (hc : c ≠ '#') (s : Place) (comps : List Token) (text : List Char) :
    (parserAt comps s).loop (c :: text) =
      (parserAt (comps ++ lexer.emit s c) (lexer.step s c)).loop text := by
  cases s with
  | gap =>
    rw [show lexer.emit .gap c = [] from rfl, List.append_nil, loop_whitespace rfl]
    by_cases hspace : isspace c = true
    · have hstep : lexer.step .gap c = .gap := if_pos hspace
      rw [if_pos hspace, hstep]
    · rw [if_neg hspace, if_neg hc]
      by_cases hquote : c = '"'
      · rw [if_pos hquote, hquote]
        rfl
      · have hstep : lexer.step .gap c = .word [c] := by
          simp only [lexer, Place.step, if_neg hspace, if_neg hc, if_neg hquote]
        rw [if_neg hquote, loop_unquoted rfl, if_neg hspace, hstep]
        rfl
  | word w =>
    rw [loop_unquoted rfl]
    by_cases hspace : isspace c = true
    · have hstep : lexer.step (.word w) c = .gap := if_pos hspace
      have hemit : lexer.emit (.word w) c = [w] := if_neg (by
        rw [plain, hspace]
        exact Bool.false_ne_true)
      rw [if_pos hspace, hstep, hemit]
      rfl
    · obtain ⟨hstep, hemit⟩ := word_step (w := w)
        (plain_iff.mpr ⟨Bool.not_eq_true _ ▸ hspace, hc⟩)
      rw [if_neg hspace, hstep, hemit, List.append_nil]
      rfl
  | quote q =>
    rw [loop_quoted rfl]
    by_cases hquote : c = '"'
    · have hstep : lexer.step (.quote q) c = .gap := if_pos hquote
      have hemit : lexer.emit (.quote q) c = [q] := if_pos hquote
      rw [if_pos hquote, hstep, hemit]
      rfl
    · obtain ⟨hstep, hemit⟩ := quote_step (q := q) hquote
      rw [if_neg hquote, hstep, hemit, List.append_nil]
      rfl
  | comment =>
    rw [loop_comment rfl, loop_comment rfl, show lexer.emit .comment c = [] from rfl,
      List.append_nil]
    rfl

/-- A word has a character. -/
theorem step_ne_word (s : Place) (c : Char) : lexer.step s c ≠ .word [] := by
  cases s with
  | comment => simp [lexer, Place.step]
  | gap | word w | quote q =>
    simp only [lexer, Place.step]
    split_ifs <;> simp

theorem finish_eq {s : Place} (hs : s ≠ .word []) (comps : List Token) :
    finish (parserAt comps s) = comps ++ lexer.final s := by
  cases s with
  | gap => simp [finish, parserAt, lexer, Place.final]
  | comment => simp [finish, parserAt, lexer, Place.final]
  | word w =>
    have hw : w ≠ [] := fun h => hs (by rw [h])
    simp [finish, parserAt, lexer, Place.final, List.length_pos_iff, hw]
  | quote q =>
    by_cases hq : q = []
    · simp [finish, parserAt, lexer, Place.final, hq]
    · simp [finish, parserAt, lexer, Place.final, List.length_pos_iff, hq]

/-- Without comments `parse_line` goes through the places of the grammar. -/
theorem loop_eq {text : List Char} (htext : '#' ∉ text) {s : Place} (hs : s ≠ .word [])
    (comps : List Token) :
    finish ((parserAt comps s).loop text) = comps ++ lexer.output s text := by
  induction text generalizing s comps with
  | nil =>
    rw [LineParser.loop, Transducer.output_nil]
    exact finish_eq hs comps
  | cons c text ih =>
    obtain ⟨hc, htext⟩ := not_or.mp (mt List.mem_cons.mpr htext)
    rw [loop_step (Ne.symm hc), ih htext (step_ne_word s c), Transducer.output_cons,
      List.append_assoc]

theorem parse_line_eq {line : List Char} (h : '#' ∉ line) : parse_line line = tokens line := by
  rw [tokens_eq]
  exact (loop_eq h (s := .gap) (by simp) []).trans (List.nil_append _)

theorem mem_rtrim {c : Char} {s : List Char} (h : c ∈ rtrim s) : c ∈ s :=
  (List.rdropWhile_prefix isspace s).subset h

theorem mem_ltrim {c : Char} {s : List Char} (h : c ∈ ltrim s) : c ∈ s :=
  (List.dropWhile_suffix isspace).subset h

theorem hash_not_mem_lineText (s : List Char) : '#' ∉ lineText s := by
  simp only [lineText]
  split_ifs with hhash
  · intro hmem
    have htaken := List.mem_takeWhile_imp (mem_rtrim (mem_ltrim hmem))
    simp at htaken
  · exact hhash

theorem parse_lineText (s : List Char) : parse_line (lineText s) = tokens (lineText s) :=
  parse_line_eq (hash_not_mem_lineText s)

/-- Trimming a text with closed quotes. -/
theorem tokens_trim {text : List Char} (h : ¬Unclosed text) :
    tokens (ltrim (rtrim text)) = tokens text := by
  have hback : rtrim text ++ text.rtakeWhile isspace = text :=
    List.rdropWhile_append_rtakeWhile
  have hfront : (rtrim text).takeWhile isspace ++ ltrim (rtrim text) = rtrim text :=
    List.takeWhile_append_dropWhile
  calc tokens (ltrim (rtrim text))
      = tokens ((rtrim text).takeWhile isspace ++ ltrim (rtrim text)) :=
        (tokens_blank_append (fun _ hc => List.mem_takeWhile_imp hc) _).symm
    _ = tokens (rtrim text) := by rw [hfront]
    _ = tokens (rtrim text ++ text.rtakeWhile isspace) := by
        refine (tokens_append_blank (fun _ hc => List.mem_rtakeWhile_imp hc) ?_).symm
        rw [hback]
        exact h
    _ = tokens text := by rw [hback]

/-! ## A line that is cut -/

/-- The character is neither where a comment may start nor the end of a string. -/
def kept (c : Char) : Bool := decide (c ≠ '#' ∧ c ≠ '\x00')

theorem kept_of_all {text : List Char} (h : ∀ c ∈ text, kept c = true) :
    '#' ∉ text ∧ '\x00' ∉ text :=
  ⟨fun hmem => absurd (h _ hmem) (by decide), fun hmem => absurd (h _ hmem) (by decide)⟩

theorem takeWhile_ne {text : List Char} {d : Char} (h : d ∉ text) (rest : List Char) :
    (text ++ rest).takeWhile (· ≠ d) = text ++ rest.takeWhile (· ≠ d) :=
  List.takeWhile_append_of_pos fun c hc => decide_eq_true fun heq : c = d => h (heq ▸ hc)

theorem lineText_kept {text : List Char} (h : ∀ c ∈ text, kept c = true) :
    lineText text = text := by
  obtain ⟨hhash, hnull⟩ := kept_of_all h
  have hline := takeWhile_ne hnull []
  rw [List.takeWhile_nil, List.append_nil] at hline
  simp only [lineText, hline, if_neg hhash]

theorem lineText_hash {text : List Char} (h : ∀ c ∈ text, kept c = true) (rest : List Char) :
    lineText (text ++ '#' :: rest) = ltrim (rtrim text) := by
  obtain ⟨hhash, hnull⟩ := kept_of_all h
  have hline : (text ++ '#' :: rest).takeWhile (· ≠ '\x00') =
      text ++ '#' :: rest.takeWhile (· ≠ '\x00') := by
    rw [takeWhile_ne hnull, List.takeWhile_cons_of_pos (by decide)]
  have htext : (text ++ '#' :: rest.takeWhile (· ≠ '\x00')).takeWhile (· ≠ '#') = text := by
    rw [takeWhile_ne hhash, List.takeWhile_cons_of_neg (by decide), List.append_nil]
  have hmem : '#' ∈ text ++ '#' :: rest.takeWhile (· ≠ '\x00') :=
    List.mem_append_right text List.mem_cons_self
  simp only [lineText, hline, if_pos hmem, htext]

theorem lineText_null {text : List Char} (h : ∀ c ∈ text, kept c = true) (rest : List Char) :
    lineText (text ++ '\x00' :: rest) = text := by
  obtain ⟨hhash, hnull⟩ := kept_of_all h
  have hline : (text ++ '\x00' :: rest).takeWhile (· ≠ '\x00') = text := by
    rw [takeWhile_ne hnull, List.takeWhile_cons_of_neg (by decide), List.append_nil]
  simp only [lineText, hline, if_neg hhash]

/-- A character that a place holds on to is in a token. -/
theorem exists_token {text : List Char} {c : Char}
    (h : c ∈ (lexer.step (lexer.after .gap text) c).held) (rest : List Char) :
    ∃ token ∈ tokens (text ++ c :: rest), c ∈ token := by
  obtain ⟨token, htoken, hc⟩ := held_output h rest
  refine ⟨token, ?_, hc⟩
  rw [tokens_eq, Transducer.output_append, Transducer.output_cons]
  exact List.mem_append_right _ (List.mem_append_right _ htoken)

/-- A `#` in quotes. -/
theorem hash_token {text : List Char} (h : Unclosed text) (rest : List Char) :
    ∃ token ∈ tokens (text ++ '#' :: rest), '#' ∈ token := by
  rw [unclosed_iff] at h
  refine exists_token ?_ rest
  cases hs : lexer.after .gap text with
  | gap => rw [hs] at h; exact h.elim
  | word w => rw [hs] at h; exact h.elim
  | comment => rw [hs] at h; exact h.elim
  | quote q => exact List.mem_append_right q List.mem_cons_self

/-- A null character that no comment is before. -/
theorem null_token {text : List Char} (h : '#' ∉ text) (rest : List Char) :
    ∃ token ∈ tokens (text ++ '\x00' :: rest), '\x00' ∈ token := by
  have hplace : lexer.after .gap text ≠ .comment := by
    refine Transducer.after_invariant (p := fun s : Place => s ≠ .comment) (fun c hc s hs => ?_)
      (by simp)
    have hhash : c ≠ '#' := fun heq => h (heq ▸ hc)
    cases s with
    | comment => exact hs
    | gap =>
      simp only [lexer, Place.step, if_neg hhash]
      split_ifs <;> simp
    | word w =>
      simp only [lexer, Place.step, if_neg hhash]
      split_ifs <;> simp
    | quote q =>
      simp only [lexer, Place.step]
      split_ifs <;> simp
  refine exists_token ?_ rest
  cases hs : lexer.after .gap text with
  | gap => exact List.mem_singleton_self _
  | word w => exact List.mem_append_right w List.mem_cons_self
  | quote q => exact List.mem_append_right q List.mem_cons_self
  | comment => exact absurd hs hplace

/-- A line is cut at its first `#` without a loss exactly where that is outside quotes. -/
theorem tokens_cut_hash {text : List Char} (h : ∀ c ∈ text, kept c = true) (rest : List Char) :
    tokens (lineText (text ++ '#' :: rest)) = tokens (text ++ '#' :: rest) ↔ ¬Unclosed text := by
  constructor
  · intro heq hopen
    obtain ⟨token, htoken, hc⟩ := hash_token hopen rest
    rw [← heq] at htoken
    exact hash_not_mem_lineText _ (mem_tokens htoken hc)
  · intro hclosed
    rw [lineText_hash h, tokens_trim hclosed, tokens_comment hclosed]

theorem tokens_cut_null {text : List Char} (h : ∀ c ∈ text, kept c = true) (rest : List Char) :
    tokens (lineText (text ++ '\x00' :: rest)) ≠ tokens (text ++ '\x00' :: rest) := by
  obtain ⟨hhash, hnull⟩ := kept_of_all h
  intro heq
  obtain ⟨token, htoken, hc⟩ := null_token hhash rest
  rw [← heq, lineText_null h] at htoken
  exact hnull (mem_tokens htoken hc)

/-- What is parsed of a line has the tokens of the line exactly where the line is clean. -/
theorem tokens_lineText_iff (line : List Char) :
    tokens (lineText line) = tokens line ↔ Clean line := by
  have hclean : Clean line ↔ line.takeWhile kept = line ∨ ¬Unclosed (line.takeWhile kept) ∧
      ∃ comment, line = line.takeWhile kept ++ '#' :: comment := Iff.rfl
  have hkept : ∀ c ∈ line.takeWhile kept, kept c = true := fun c hc => List.mem_takeWhile_imp hc
  have hsplit : line.takeWhile kept ++ line.dropWhile kept = line :=
    List.takeWhile_append_dropWhile
  rw [hclean]
  generalize line.takeWhile kept = text at hkept hsplit ⊢
  cases hrest : line.dropWhile kept with
  | nil =>
    rw [hrest, List.append_nil] at hsplit
    rw [hsplit] at hkept
    exact iff_of_true (by rw [lineText_kept hkept]) (.inl hsplit)
  | cons d rest =>
    have hd : kept d = false := by
      have hhead := List.head?_dropWhile_not kept line
      rw [hrest] at hhead
      exact hhead
    have hcut : d = '#' ∨ d = '\x00' := by
      rw [kept, decide_eq_false_iff_not] at hd
      tauto
    rw [hrest] at hsplit
    rw [← hsplit]
    have hne : ¬text = text ++ d :: rest := by simp
    rcases hcut with rfl | rfl
    · rw [tokens_cut_hash hkept, iff_false_intro hne, false_or]
      exact (and_iff_left ⟨rest, rfl⟩).symm
    · refine iff_of_false (tokens_cut_null hkept rest) ?_
      rintro (heq | ⟨_, comment, heq⟩)
      · exact hne heq
      · exact absurd (List.cons.inj (List.append_cancel_left heq)).1 (by decide)

/-! ## The pieces of a file -/

/-- What `fgets` reads of a file in a row. -/
def pieces (n : ℕ) (file : List Char) : List (List Char) :=
  if _h : (fgets n file).1 = [] then []
  else (fgets n file).1 :: pieces n (fgets n file).2
  termination_by file.length
  decreasing_by
    have hlength := fgets_length n file
    have hpos := List.length_pos_iff.mpr _h
    omega

theorem pieces_cons {n : ℕ} {file : List Char} (h : (fgets n file).1 ≠ []) :
    pieces n file = (fgets n file).1 :: pieces n (fgets n file).2 := by
  rw [pieces, dif_neg h]

/-- The rows that pieces give. -/
def pieceRows (ps : List (List Char)) : List (List Token) :=
  (ps.map fun s => tokens (lineText s)).filter (· ≠ [])

theorem pieceRows_append (ps qs : List (List Char)) :
    pieceRows (ps ++ qs) = pieceRows ps ++ pieceRows qs := by
  rw [pieceRows, List.map_append, List.filter_append]
  rfl

theorem readLoop_eq (data : List (List Token)) (file : List Char) :
    readLoop data file = data ++ pieceRows (pieces (BUF_SIZE - 1) file) := by
  induction data, file using readLoop.induct with
  | case1 data file hs =>
    rw [readLoop, dif_pos hs, pieces, dif_pos hs]
    exact (List.append_nil data).symm
  | case2 data file hs part hpart ih =>
    have hnil : tokens (lineText (fgets (BUF_SIZE - 1) file).1) = [] := by
      rw [← parse_lineText]
      exact List.eq_nil_of_length_eq_zero hpart
    rw [readLoop, dif_neg hs, if_pos hpart, ih, pieces_cons hs]
    simp [pieceRows, hnil]
  | case3 data file hs part hpart ih =>
    have hne : tokens (lineText (fgets (BUF_SIZE - 1) file).1) ≠ [] := by
      rw [← parse_lineText]
      exact fun hnil => hpart (congrArg List.length hnil)
    rw [readLoop, dif_neg hs, if_neg hpart, ih, pieces_cons hs]
    have hpartEq : part = tokens (lineText (fgets (BUF_SIZE - 1) file).1) := parse_lineText _
    simp [pieceRows, hne, hpartEq]

/-- The text is a line with its newline, or without where nothing follows. -/
def LineBefore : List Char → List Char → Prop
  | [], rest => rest = []
  | c :: cs, rest => if c = '\n' then cs = [] else LineBefore cs rest

theorem nextLine_lineBefore (file : List Char) :
    LineBefore (nextLine file).1 (nextLine file).2 := by
  induction file with
  | nil => rfl
  | cons c file ih =>
    rw [nextLine]
    split_ifs with hc
    · exact (if_pos hc).mpr rfl
    · exact (if_neg hc).mpr ih

theorem LineBefore.imp {line rest rest' : List Char} (h : LineBefore line rest)
    (hrest : rest = [] → rest' = []) : LineBefore line rest' := by
  induction line with
  | nil => exact hrest h
  | cons c line ih =>
    rw [LineBefore] at h ⊢
    split_ifs at h ⊢ with hc
    · exact h
    · exact ih h

/-- A line that fits is read as it is. -/
theorem fgets_line {line rest : List Char} (h : LineBefore line rest) {n : ℕ}
    (hn : line.length ≤ n) : fgets n (line ++ rest) = (line, rest) := by
  induction line generalizing n with
  | nil =>
    have hrest : rest = [] := h
    rw [hrest]
    cases n <;> rfl
  | cons c line ih =>
    obtain ⟨n, rfl⟩ : ∃ m, n = m + 1 := ⟨n - 1, by rw [List.length_cons] at hn; omega⟩
    rw [LineBefore] at h
    rw [List.cons_append, fgets]
    split_ifs at h ⊢ with hc
    · rw [h]
      rfl
    · rw [ih h (by rw [List.length_cons] at hn; omega)]

/-- Of a longer line `n` characters are read, and the rest is a line again. -/
theorem fgets_long {line rest : List Char} (h : LineBefore line rest) {n : ℕ}
    (hn : n < line.length) :
    fgets n (line ++ rest) = (line.take n, line.drop n ++ rest) ∧
      LineBefore (line.drop n) rest := by
  induction n generalizing line with
  | zero => exact ⟨rfl, h⟩
  | succ n ih =>
    obtain ⟨c, line, rfl⟩ := List.exists_cons_of_length_pos (Nat.zero_lt_of_lt hn)
    rw [List.length_cons] at hn
    rw [LineBefore] at h
    rw [List.cons_append, fgets]
    split_ifs at h ⊢ with hc
    · rw [h, List.length_nil] at hn
      omega
    · obtain ⟨hread, hline⟩ := ih h (by omega)
      rw [hread]
      exact ⟨rfl, hline⟩

theorem chunks_of_le {n : ℕ} {line : List Char} (hne : line ≠ []) (hn : line.length ≤ n) :
    chunks n line = [line] := by
  obtain ⟨c, cs, rfl⟩ := List.exists_cons_of_ne_nil hne
  have hpos : 0 < n := by
    rw [List.length_cons] at hn
    omega
  rw [chunks, dif_pos hpos, List.take_of_length_le hn, List.drop_of_length_le hn, chunks]

theorem chunks_ne_nil {n : ℕ} {line : List Char} (hne : line ≠ []) : chunks n line ≠ [] := by
  obtain ⟨c, cs, rfl⟩ := List.exists_cons_of_ne_nil hne
  rw [chunks]
  split_ifs <;> exact List.cons_ne_nil _ _

/-- The pieces of a line before those of what follows. -/
theorem pieces_line {n : ℕ} (hpos : 0 < n) {line rest : List Char} (h : LineBefore line rest) :
    pieces n (line ++ rest) = chunks n line ++ pieces n rest := by
  induction hlen : line.length using Nat.strongRecOn generalizing line with
  | ind len ih =>
    cases hline : line with
    | nil => rw [List.nil_append, chunks, List.nil_append]
    | cons c cs =>
      rw [← hline]
      have hne : line ≠ [] := by
        rw [hline]
        exact List.cons_ne_nil c cs
      rcases Nat.lt_or_ge n line.length with hlong | hfits
      · obtain ⟨hread, hdrop⟩ := fgets_long h hlong
        have htake : line.take n ≠ [] := by
          rw [← List.length_pos_iff, List.length_take]
          omega
        rw [pieces, hread, dif_neg htake, ih _ (by rw [List.length_drop]; omega) hdrop rfl]
        rw [hline, chunks, dif_pos hpos]
        rfl
      · rw [pieces, fgets_line h hfits, dif_neg hne, chunks_of_le hne hfits]
        rfl

/-- The pieces of the first lines of a file. -/
theorem pieces_lines {n : ℕ} (hpos : 0 < n) {file : List Char} {before behind : List (List Char)}
    (h : fileLines file = before ++ behind) :
    pieces n before.flatten = before.flatMap (chunks n) := by
  induction before generalizing file with
  | nil =>
    have hnil : (fgets n []).1 = [] := by cases n <;> rfl
    rw [List.flatten_nil, pieces, dif_pos hnil]
    rfl
  | cons line before ih =>
    cases file with
    | nil =>
      rw [fileLines] at h
      cases h
    | cons c cs =>
      rw [fileLines, List.cons_append] at h
      obtain ⟨hline, hrest⟩ := List.cons.inj h
      have hbefore : LineBefore line before.flatten := by
        rw [← hline]
        refine (nextLine_lineBefore (c :: cs)).imp fun hnil => ?_
        rw [hnil, fileLines] at hrest
        rw [(List.append_eq_nil_iff.mp hrest.symm).1]
        rfl
      rw [List.flatten_cons, pieces_line hpos hbefore, ih hrest, List.flatMap_cons]

theorem fileLines_ne_nil {file line : List Char} (h : line ∈ fileLines file) : line ≠ [] := by
  induction file using fileLines.induct with
  | case1 =>
    rw [fileLines] at h
    cases h
  | case2 c cs ih =>
    rw [fileLines, List.mem_cons] at h
    rcases h with rfl | h
    · exact nextLine_ne_nil c cs
    · exact ih h

/-! ## One row for each line -/

/-- At most one of some values is there, and that is `b`. -/
theorem filter_map_eq_iff {α β : Type} [DecidableEq β] (f : α → List β) {xs : List α} (hne : xs ≠ [])
    (b : List β) :
    (xs.map f).filter (· ≠ []) = [b].filter (· ≠ []) ↔
      ∃ before x behind, xs = before ++ x :: behind ∧ f x = b ∧
        ∀ y ∈ before ++ behind, f y = [] := by
  constructor
  · intro heq
    by_cases hb : b = []
    · rw [hb, List.filter_eq_nil_iff.mpr (by simp : ∀ c ∈ [([] : List β)], ¬decide (c ≠ []) = true),
        List.filter_eq_nil_iff] at heq
      have hall : ∀ y ∈ xs, f y = [] := by
        intro y hy
        simpa using heq (f y) (List.mem_map_of_mem hy)
      obtain ⟨x, behind, rfl⟩ := List.exists_cons_of_ne_nil hne
      exact ⟨[], x, behind, rfl, (hall x List.mem_cons_self).trans hb.symm,
        fun y hy => hall y (List.mem_cons_of_mem x hy)⟩
    · have hone : [b].filter (· ≠ []) = [b] := List.filter_cons_of_pos (by simpa using hb)
      rw [hone] at heq
      clear hne
      induction xs with
      | nil => cases heq
      | cons x xs ih =>
        by_cases hx : f x = []
        · rw [List.map_cons, List.filter_cons_of_neg (by simpa using hx)] at heq
          obtain ⟨before, y, behind, hxs, hy, hrest⟩ := ih heq
          refine ⟨x :: before, y, behind, by rw [hxs]; rfl, hy, ?_⟩
          rintro z (_ | ⟨_, hz⟩)
          · exact hx
          · exact hrest z hz
        · rw [List.map_cons, List.filter_cons_of_pos (by simpa using hx)] at heq
          obtain ⟨hhead, htail⟩ := List.cons.inj heq
          refine ⟨[], x, xs, rfl, hhead, fun y hy => ?_⟩
          simpa using List.filter_eq_nil_iff.mp htail (f y) (List.mem_map_of_mem hy)
  · rintro ⟨before, x, behind, rfl, hx, hrest⟩
    have hnone : ∀ ys : List α, (∀ y ∈ ys, f y = []) → (ys.map f).filter (· ≠ []) = [] := by
      intro ys hys
      rw [List.filter_eq_nil_iff]
      intro c hc
      obtain ⟨y, hy, rfl⟩ := List.mem_map.mp hc
      simp [hys y hy]
    rw [List.map_append, List.filter_append, List.map_cons,
      hnone before fun y hy => hrest y (List.mem_append_left behind hy), List.nil_append, hx,
      ← List.singleton_append, List.filter_append,
      hnone behind fun y hy => hrest y (List.mem_append_right before hy), List.append_nil]

/-- The pieces of a line give its row exactly where it meets the condition. -/
theorem line_iff {line : List Char} (hne : line ≠ []) :
    pieceRows (chunks (BUF_SIZE - 1) line) = rows [line] ↔ LineMeets line := by
  have hrows := filter_map_eq_iff (fun s => tokens (lineText s))
    (chunks_ne_nil (n := BUF_SIZE - 1) hne) (tokens line)
  rw [LineMeets]
  split_ifs with hlen
  · rw [← tokens_lineText_iff]
    refine hrows.trans ?_
    rw [chunks_of_le hne (Nat.le_sub_one_of_lt hlen)]
    constructor
    · rintro ⟨before, piece, behind, hsplit, hpiece, _⟩
      have hmem : piece ∈ [line] := by
        rw [hsplit]
        exact List.mem_append_right before List.mem_cons_self
      rw [List.mem_singleton.mp hmem] at hpiece
      exact hpiece
    · exact fun heq => ⟨[], line, [], rfl, heq, fun y hy => nomatch hy⟩
  · exact hrows

theorem read_file_lines {file : List Char} {before behind : List (List Char)}
    (h : fileLines file = before ++ behind) :
    read_file before.flatten = pieceRows (before.flatMap (chunks (BUF_SIZE - 1))) := by
  rw [read_file, readLoop_eq, List.nil_append, pieces_lines (by decide) h]

theorem rows_append (ls ls' : List (List Char)) : rows (ls ++ ls') = rows ls ++ rows ls' := by
  rw [rows, List.map_append, List.filter_append]
  rfl

/-- Any file. -/
theorem read_file_right_iff (file : List Char) : Right file ↔ FileMeets file := by
  constructor
  · intro h line hline
    obtain ⟨before, behind, hsplit⟩ := List.append_of_mem hline
    have hsplit' : fileLines file = (before ++ [line]) ++ behind := by
      rw [hsplit, List.append_assoc, List.singleton_append]
    have hbefore := h before (line :: behind) hsplit
    have hthrough := h (before ++ [line]) behind hsplit'
    rw [read_file_lines hsplit] at hbefore
    rw [read_file_lines hsplit', List.flatMap_append, pieceRows_append, hbefore, rows_append,
      List.append_cancel_left_eq, List.flatMap_singleton] at hthrough
    exact (line_iff (fileLines_ne_nil hline)).mp hthrough
  · intro h before behind hsplit
    rw [read_file_lines hsplit]
    have hmeets : ∀ line ∈ before, pieceRows (chunks (BUF_SIZE - 1) line) = rows [line] := by
      intro line hline
      have hmem : line ∈ fileLines file := by
        rw [hsplit]
        exact List.mem_append_left behind hline
      exact (line_iff (fileLines_ne_nil hmem)).mpr (h line hmem)
    clear hsplit
    induction before with
    | nil => rfl
    | cons line before ih =>
      rw [List.flatMap_cons, pieceRows_append, hmeets line List.mem_cons_self,
        ih fun l hl => hmeets l (List.mem_cons_of_mem line hl), ← rows_append]
      rfl

/-- A quoted `#`. -/
theorem quotedHash_not_right : ¬∀ file, Right file := by
  intro hall
  have hlines : fileLines ['"', '#', '"'] = [['"', '#', '"']] ++ [] := by
    simp [fileLines, nextLine]
  have hread := hall _ _ _ hlines
  have hchunks : chunks (BUF_SIZE - 1) ['"', '#', '"'] = [['"', '#', '"']] :=
    chunks_of_le (by decide) (by decide)
  have hquote : ['#', '"'].dropWhile (· ≠ '"') = '"' :: [] := by decide
  -- the line ends where the token starts
  have hcut : tokens (lineText ['"', '#', '"']) = [] := by
    rw [show lineText ['"', '#', '"'] = ['"'] by decide, tokens, scan_unclosed (by decide)]
    rfl
  have hwhole : tokens ['"', '#', '"'] = [['#']] := by
    rw [tokens, scan_quoted hquote, scan]
    rfl
  rw [read_file_lines hlines] at hread
  simp [pieceRows, rows, hchunks, hcut, hwhole] at hread

end RvCkpt.Meta.ReadFile
