import RvCkpt.Meta.ReadFile
import RvCkpt.Lib.Transducer

/-! # The tokens of the meta data

A token is a quoted text or a run of characters that are neither blanks nor `#`, and a `#` that is
not quoted starts a comment.
-/

namespace RvCkpt.Meta.ReadFile
set_option autoImplicit false

abbrev Token := List Char

/-- The characters of a token without quotes, after the first. -/
def plain (c : Char) : Bool := !isspace c && c != '#'

/-- The tokens of a text, and whether it ends inside quotes. A token whose quotes are not closed
ends with the text. -/
def scan : List Char → List Token × Bool
  | [] => ([], false)
  | c :: cs =>
    if isspace c then scan cs
    else if c = '#' then ([], false)
    else if c = '"' then
      match _h : cs.dropWhile (· ≠ '"') with
      | [] => (if cs = [] then [] else [cs], true)
      | _ :: rest => (cs.takeWhile (· ≠ '"') :: (scan rest).1, (scan rest).2)
    else
      ((c :: cs.takeWhile plain) :: (scan (cs.dropWhile plain)).1, (scan (cs.dropWhile plain)).2)
  termination_by cs => cs.length
  decreasing_by
    · exact Nat.lt_succ_self _
    · have hlength := (List.dropWhile_suffix (l := cs) (· ≠ '"')).length_le
      rw [_h, List.length_cons] at hlength
      rw [List.length_cons]
      omega
    · have hlength := (List.dropWhile_suffix (l := cs) plain).length_le
      rw [List.length_cons]
      omega

def tokens (text : List Char) : List Token := (scan text).1

def Unclosed (text : List Char) : Prop := (scan text).2 = true

/-! ## The grammar as a transducer -/

/-- Where a text stands in the grammar, with what there is of the current token. -/
inductive Place
  | gap
  | word (w : Token)
  | quote (q : Token)
  | comment

namespace Place

def step : Place → Char → Place
  | gap, c => if isspace c then gap else if c = '#' then comment else if c = '"' then quote []
      else word [c]
  | word w, c => if isspace c then gap else if c = '#' then comment else word (w ++ [c])
  | quote q, c => if c = '"' then gap else quote (q ++ [c])
  | comment, _ => comment

def emit : Place → Char → List Token
  | gap, _ => []
  | word w, c => if plain c then [] else [w]
  | quote q, c => if c = '"' then [q] else []
  | comment, _ => []

def final : Place → List Token
  | gap => []
  | word w => [w]
  | quote q => if q = [] then [] else [q]
  | comment => []

def IsQuote : Place → Prop
  | gap => False
  | word _ => False
  | quote _ => True
  | comment => False

end Place

def lexer : Transducer Place Char Token := ⟨Place.step, Place.emit, Place.final⟩

theorem plain_iff {c : Char} : plain c = true ↔ isspace c = false ∧ c ≠ '#' := by
  rw [plain, Bool.and_eq_true, Bool.not_eq_true', bne_iff_ne]

theorem word_step {w : Token} {c : Char} (hc : plain c = true) :
    lexer.step (.word w) c = .word (w ++ [c]) ∧ lexer.emit (.word w) c = [] := by
  obtain ⟨hspace, hhash⟩ := plain_iff.mp hc
  constructor
  · simp only [lexer, Place.step, hspace, hhash, if_false, Bool.false_eq_true]
  · exact if_pos hc

theorem quote_open : lexer.step .gap '"' = .quote [] := rfl

theorem quote_step {q : Token} {c : Char} (hc : c ≠ '"') :
    lexer.step (.quote q) c = .quote (q ++ [c]) ∧ lexer.emit (.quote q) c = [] :=
  ⟨if_neg hc, if_neg hc⟩

/-- The characters of a word. -/
theorem word_output {text : Token} (htext : ∀ c ∈ text, plain c = true) (w rest : List Char) :
    lexer.output (.word w) (text ++ rest) = lexer.output (.word (w ++ text)) rest ∧
      lexer.after (.word w) (text ++ rest) = lexer.after (.word (w ++ text)) rest :=
  Transducer.collect (fun c hc _ => word_step (htext c hc)) w rest

/-- The characters between quotes. -/
theorem quote_output {text : Token} (htext : ∀ c ∈ text, c ≠ '"') (q rest : List Char) :
    lexer.output (.quote q) (text ++ rest) = lexer.output (.quote (q ++ text)) rest ∧
      lexer.after (.quote q) (text ++ rest) = lexer.after (.quote (q ++ text)) rest :=
  Transducer.collect (fun c hc _ => quote_step (htext c hc)) q rest

theorem comment_output (text : List Char) :
    lexer.output .comment text = [] ∧ lexer.after .comment text = .comment := by
  induction text with
  | nil => exact ⟨rfl, rfl⟩
  | cons c text ih => exact ih

/-- What follows a word ends it. -/
theorem word_end {w rest : List Char} (hrest : ∀ c, rest.head? = some c → plain c = false) :
    lexer.output (.word w) rest = w :: lexer.output .gap rest ∧
      ((lexer.after (.word w) rest).IsQuote ↔ (lexer.after .gap rest).IsQuote) := by
  cases rest with
  | nil => exact ⟨rfl, Iff.rfl⟩
  | cons c cs =>
    have hc : plain c = false := hrest c rfl
    have hemit : lexer.emit (.word w) c = [w] := if_neg (by rw [hc]; exact Bool.false_ne_true)
    have hstep : lexer.step (.word w) c = lexer.step .gap c := by
      simp only [lexer, Place.step]
      by_cases hspace : isspace c = true
      · rw [if_pos hspace, if_pos hspace]
      · have hhash : c = '#' := by
          by_contra hne
          rw [plain_iff.mpr ⟨Bool.not_eq_true _ ▸ hspace, hne⟩] at hc
          cases hc
        rw [if_neg hspace, if_neg hspace, if_pos hhash, if_pos hhash]
    rw [Transducer.output_cons, Transducer.output_cons, hemit, hstep]
    refine ⟨rfl, ?_⟩
    rw [Transducer.after_cons, Transducer.after_cons, hstep]

theorem scan_unclosed {cs : List Char} (h : cs.dropWhile (· ≠ '"') = []) :
    scan ('"' :: cs) = (if cs = [] then [] else [cs], true) := by
  rw [scan, if_neg (by decide), if_neg (by decide), if_pos rfl]
  split
  · rfl
  · next heq => rw [h] at heq; cases heq

theorem scan_quoted {cs rest : List Char} {d : Char} (h : cs.dropWhile (· ≠ '"') = d :: rest) :
    scan ('"' :: cs) = (cs.takeWhile (· ≠ '"') :: (scan rest).1, (scan rest).2) := by
  rw [scan, if_neg (by decide), if_neg (by decide), if_pos rfl]
  split
  · next heq => rw [h] at heq; cases heq
  · next heq =>
    rw [h] at heq
    cases heq
    rfl

theorem quoted_token {cs rest : List Char} {d : Char} (h : cs.dropWhile (· ≠ '"') = d :: rest) :
    lexer.output .gap ('"' :: cs) = cs.takeWhile (· ≠ '"') :: lexer.output .gap rest ∧
      lexer.after .gap ('"' :: cs) = lexer.after .gap rest := by
  have hcs : ∀ c ∈ cs.takeWhile (· ≠ '"'), c ≠ '"' := by
    intro c hc
    simpa using List.mem_takeWhile_imp hc
  have hd : d = '"' := by
    have hhead := List.head?_dropWhile_not (· ≠ '"') cs
    rw [h] at hhead
    simpa using hhead
  obtain ⟨hout, hafter⟩ := quote_output hcs [] (d :: rest)
  rw [← h, List.takeWhile_append_dropWhile, h, List.nil_append, hd] at hout hafter
  rw [Transducer.output_cons, Transducer.after_cons, quote_open, hafter]
  refine ⟨hout.trans ?_, rfl⟩
  rw [Transducer.output_cons]
  rfl

theorem plain_token {c : Char} {cs : List Char} (hspace : ¬isspace c = true) (hhash : ¬c = '#')
    (hquote : ¬c = '"') :
    lexer.output .gap (c :: cs) =
        (c :: cs.takeWhile plain) :: lexer.output .gap (cs.dropWhile plain) ∧
      ((lexer.after .gap (c :: cs)).IsQuote ↔
        (lexer.after .gap (cs.dropWhile plain)).IsQuote) := by
  have hcs : ∀ d ∈ cs.takeWhile plain, plain d = true := fun d hd => List.mem_takeWhile_imp hd
  have hrest : ∀ d, (cs.dropWhile plain).head? = some d → plain d = false := by
    intro d hd
    have hhead := List.head?_dropWhile_not plain cs
    rw [hd] at hhead
    exact hhead
  have hstep : lexer.step .gap c = .word [c] := by
    simp only [lexer, Place.step, if_neg hspace, if_neg hhash, if_neg hquote]
  obtain ⟨hout, hafter⟩ := word_output hcs [c] (cs.dropWhile plain)
  obtain ⟨hendOut, hendAfter⟩ := word_end (w := c :: cs.takeWhile plain) hrest
  rw [List.takeWhile_append_dropWhile, List.singleton_append] at hout hafter
  rw [Transducer.output_cons, Transducer.after_cons, hstep, hafter]
  exact ⟨hout.trans hendOut, hendAfter⟩

/-- The transducer finds the tokens, and ends in quotes where the text does. -/
theorem scan_eq (text : List Char) :
    lexer.output .gap text = tokens text ∧ ((lexer.after .gap text).IsQuote ↔ Unclosed text) := by
  simp only [tokens, Unclosed]
  induction text using scan.induct with
  | case1 =>
    rw [scan]
    exact ⟨rfl, iff_of_false id Bool.false_ne_true⟩
  | case2 c cs hspace ih =>
    have hstep : lexer.step .gap c = .gap := if_pos hspace
    rw [scan, if_pos hspace, Transducer.output_cons, hstep, Transducer.after_cons, hstep]
    exact ih
  | case3 cs hspace =>
    rw [scan, if_neg hspace, if_pos rfl]
    have hout := comment_output cs
    exact ⟨hout.1, by
      rw [show lexer.after .gap ('#' :: cs) = .comment from hout.2]
      exact iff_of_false id Bool.false_ne_true⟩
  | case4 cs hnil hspace hhash =>
    have hcs : ∀ c ∈ cs, c ≠ '"' := by
      simpa using List.dropWhile_eq_nil_iff.mp hnil
    obtain ⟨hout, hafter⟩ := quote_output hcs [] []
    rw [List.append_nil, List.nil_append] at hout hafter
    rw [scan_unclosed hnil, Transducer.output_cons, Transducer.after_cons, quote_open, hafter]
    exact ⟨hout, iff_of_true trivial rfl⟩
  | case5 cs d rest hrest hspace hhash ih =>
    obtain ⟨hout, hafter⟩ := quoted_token hrest
    rw [scan_quoted hrest, hout, hafter, ih.1]
    exact ⟨rfl, ih.2⟩
  | case6 c cs hspace hhash hquote ih =>
    obtain ⟨hout, hafter⟩ := plain_token hspace hhash hquote
    rw [scan, if_neg hspace, if_neg hhash, if_neg hquote, hout, ih.1]
    exact ⟨rfl, hafter.trans ih.2⟩

theorem tokens_eq (text : List Char) : tokens text = lexer.output .gap text := (scan_eq text).1.symm

theorem unclosed_iff (text : List Char) : Unclosed text ↔ (lexer.after .gap text).IsQuote :=
  (scan_eq text).2.symm

/-! ## Characters of tokens -/

/-- What there is of the current token. -/
def Place.held : Place → Token
  | gap => []
  | word w => w
  | quote q => q
  | comment => []

/-- A character that is held is put out. -/
theorem held_output {c : Char} {s : Place} (hc : c ∈ s.held) (text : List Char) :
    ∃ token ∈ lexer.output s text, c ∈ token := by
  induction text generalizing s with
  | nil =>
    rw [Transducer.output_nil]
    cases s with
    | gap => cases hc
    | comment => cases hc
    | word w => exact ⟨w, List.mem_singleton_self w, hc⟩
    | quote q =>
      have hne : q ≠ [] := List.ne_nil_of_mem hc
      have hfinal : lexer.final (.quote q) = [q] := if_neg hne
      exact ⟨q, by rw [hfinal]; exact List.mem_singleton_self q, hc⟩
  | cons d text ih =>
    rw [Transducer.output_cons]
    cases s with
    | gap => cases hc
    | comment => cases hc
    | word w =>
      by_cases hd : plain d = true
      · obtain ⟨hstep, hemit⟩ := word_step (w := w) hd
        rw [hstep, hemit]
        exact ih (List.mem_append_left [d] hc)
      · have hemit : lexer.emit (.word w) d = [w] := if_neg hd
        rw [hemit]
        exact ⟨w, List.mem_cons_self, hc⟩
    | quote q =>
      by_cases hd : d = '"'
      · have hemit : lexer.emit (.quote q) d = [q] := if_pos hd
        rw [hemit]
        exact ⟨q, List.mem_cons_self, hc⟩
      · obtain ⟨hstep, hemit⟩ := quote_step (q := q) hd
        rw [hstep, hemit]
        exact ih (List.mem_append_left [d] hc)

/-- A letter is held, or what is held is put out. -/
theorem held_step {p : Char → Prop} {s : Place} {c : Char} (hc : p c) (hs : ∀ d ∈ s.held, p d) :
    (∀ d ∈ (lexer.step s c).held, p d) ∧ ∀ token ∈ lexer.emit s c, ∀ d ∈ token, p d := by
  have happend : ∀ d ∈ s.held ++ [c], p d := by
    intro d hd
    rcases List.mem_append.mp hd with hd | hd
    · exact hs d hd
    · rw [List.mem_singleton.mp hd]
      exact hc
  have hnone : ∀ d ∈ ([] : Token), p d := fun d hd => nomatch hd
  have hone : ∀ token ∈ [s.held], ∀ d ∈ token, p d := by
    intro token htoken
    rw [List.mem_singleton.mp htoken]
    exact hs
  cases s with
  | gap =>
    refine ⟨?_, fun token htoken => nomatch htoken⟩
    simp only [lexer, Place.step]
    split_ifs
    · exact hnone
    · exact hnone
    · exact hnone
    · exact happend
  | comment => exact ⟨hnone, fun token htoken => nomatch htoken⟩
  | word w =>
    simp only [lexer, Place.step, Place.emit]
    constructor
    · split_ifs
      · exact hnone
      · exact hnone
      · exact happend
    · split_ifs
      · exact fun token htoken => nomatch htoken
      · exact hone
  | quote q =>
    simp only [lexer, Place.step, Place.emit]
    split_ifs
    · exact ⟨hnone, hone⟩
    · exact ⟨happend, fun token htoken => nomatch htoken⟩

/-- The characters of the tokens are characters of the text. -/
theorem mem_tokens {text token : List Char} {c : Char} (htoken : token ∈ tokens text)
    (hc : c ∈ token) : c ∈ text := by
  rw [tokens_eq] at htoken
  have hall : ∀ token ∈ lexer.output .gap text, ∀ d ∈ token, d ∈ text := by
    refine Transducer.forall_output (p := fun s => ∀ d ∈ s.held, d ∈ text)
      (fun x hx _ hs => held_step hx hs) (fun s hs token htoken d hd => ?_)
      (fun d hd => nomatch hd)
    cases s with
    | gap => cases htoken
    | comment => cases htoken
    | word w =>
      rw [List.mem_singleton.mp htoken] at hd
      exact hs d hd
    | quote q =>
      simp only [lexer, Place.final] at htoken
      split_ifs at htoken
      · cases htoken
      · rw [List.mem_singleton.mp htoken] at hd
        exact hs d hd
  exact hall token htoken c hc

/-! ## Comments and blanks -/

/-- A comment after closed quotes has no tokens. -/
theorem tokens_comment {text : List Char} (h : ¬Unclosed text) (comment : List Char) :
    tokens (text ++ '#' :: comment) = tokens text := by
  rw [unclosed_iff] at h
  rw [tokens_eq, tokens_eq]
  refine Transducer.output_append_of_final ?_
  cases hs : lexer.after .gap text with
  | gap => exact (comment_output comment).1
  | word w =>
    rw [Transducer.output_cons]
    exact congrArg ([w] ++ ·) (comment_output comment).1
  | quote q =>
    rw [hs] at h
    exact absurd trivial h
  | comment => exact (comment_output comment).1

/-- Blanks before a text. -/
theorem tokens_blank_append {blanks : List Char} (h : ∀ c ∈ blanks, isspace c = true)
    (text : List Char) : tokens (blanks ++ text) = tokens text := by
  rw [tokens_eq, tokens_eq]
  exact Transducer.output_of_idle (fun c hc => ⟨if_pos (h c hc), rfl⟩) text

/-- Blanks after a text with closed quotes. -/
theorem tokens_append_blank {text blanks : List Char} (h : ∀ c ∈ blanks, isspace c = true)
    (hclosed : ¬Unclosed (text ++ blanks)) : tokens (text ++ blanks) = tokens text := by
  rw [unclosed_iff, Transducer.after_append] at hclosed
  rw [tokens_eq, tokens_eq]
  refine Transducer.output_append_of_final ?_
  have hgap : ∀ bs : List Char, (∀ c ∈ bs, isspace c = true) → lexer.output .gap bs = [] := by
    intro bs hbs
    rw [← List.append_nil bs]
    exact Transducer.output_of_idle (fun c hc => ⟨if_pos (hbs c hc), rfl⟩) []
  cases hs : lexer.after .gap text with
  | gap => exact hgap blanks h
  | word w =>
    cases blanks with
    | nil => rfl
    | cons c blanks =>
      have hc := h c List.mem_cons_self
      have hstep : lexer.step (.word w) c = .gap := if_pos hc
      have hemit : lexer.emit (.word w) c = [w] := if_neg (by
        rw [plain, hc]
        exact Bool.false_ne_true)
      rw [Transducer.output_cons, hstep, hemit, hgap blanks fun d hd => h d (List.mem_cons_of_mem c hd)]
      rfl
  | quote q =>
    rw [hs] at hclosed
    have hquote : ∀ c ∈ blanks, c ≠ '"' := by
      rintro c hc rfl
      exact absurd (h _ hc) (by decide)
    have hafter := (quote_output hquote q []).2
    rw [List.append_nil] at hafter
    rw [hafter] at hclosed
    exact absurd trivial hclosed
  | comment => exact (comment_output blanks).1

end RvCkpt.Meta.ReadFile
