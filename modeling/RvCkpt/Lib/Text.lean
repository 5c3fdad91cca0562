import Mathlib.Data.Nat.Notation
import Mathlib.Order.Basic
import Mathlib.Tactic.Common
import Mathlib.Tactic.IntervalCases

/-! # Text

Numerals, words and lines of a text, and how a reader gets back what a writer put into them. A
word is a maximal run of characters that are not blank; a line ends with a newline or with the
text.
-/

namespace Text
set_option autoImplicit false

/-! ## Numerals -/

/-- The number `n` in base `b`, in small letters. -/
def numeral (b n : ℕ) : List Char := Nat.toDigits b n

/-- A numeral with zeros in front of it up to a width. -/
def padded (b width n : ℕ) : List Char :=
  List.replicate (width - (numeral b n).length) '0' ++ numeral b n

def digitVal (c : Char) : ℕ :=
  if '0' ≤ c ∧ c ≤ '9' then c.toNat - '0'.toNat
  else if 'a' ≤ c ∧ c ≤ 'f' then c.toNat - 'a'.toNat + 10
  else if 'A' ≤ c ∧ c ≤ 'F' then c.toNat - 'A'.toNat + 10
  else 16

def isDigit (b : ℕ) (c : Char) : Bool := decide (digitVal c < b)

def value (b : ℕ) (cs : List Char) : ℕ := cs.foldl (fun v c => b * v + digitVal c) 0

/-- The value of a text that consists of digits only. -/
def readDigits (b : ℕ) (cs : List Char) : Option ℕ :=
  if cs ≠ [] ∧ cs.all (isDigit b) then some (value b cs) else none

theorem digitVal_digitChar {d : ℕ} (h : d < 16) : digitVal (Nat.digitChar d) = d := by
  interval_cases d <;> rfl

theorem value_concat (b : ℕ) (cs : List Char) (c : Char) :
    value b (cs ++ [c]) = b * value b cs + digitVal c := by
  rw [value, List.foldl_append]
  rfl

theorem value_zeros (b k : ℕ) (cs : List Char) :
    value b (List.replicate k '0' ++ cs) = value b cs := by
  induction k with
  | zero => rfl
  | succ k ih =>
    rw [← ih, List.replicate_succ, List.cons_append, value, List.foldl_cons, Nat.mul_zero]
    rfl

theorem numeral_ne_nil (b n : ℕ) : numeral b n ≠ [] := Nat.toDigits_ne_nil

theorem padded_ne_nil (b width n : ℕ) : padded b width n ≠ [] :=
  fun h => numeral_ne_nil b n (List.append_eq_nil_iff.mp h).2

section
variable {b : ℕ} (hb : 1 < b) (hb' : b ≤ 16)
include hb hb'

theorem value_numeral (n : ℕ) : value b (numeral b n) = n := by
  induction n using Nat.strongRecOn with
  | ind n ih =>
    by_cases hn : n < b
    · rw [numeral, Nat.toDigits_of_lt_base hn, value, List.foldl_cons, List.foldl_nil,
        digitVal_digitChar (by omega), Nat.mul_zero, Nat.zero_add]
    · have hdiv : n / b < n := Nat.div_lt_self (by omega) hb
      have hmod : n % b < b := Nat.mod_lt n (by omega)
      rw [numeral, Nat.toDigits_of_base_le hb (by omega), value_concat, ← numeral, ih _ hdiv,
        digitVal_digitChar (by omega)]
      exact Nat.div_add_mod n b

theorem numeral_digits (n : ℕ) : (numeral b n).all (isDigit b) = true := by
  induction n using Nat.strongRecOn with
  | ind n ih =>
    have hdigit : ∀ d < b, isDigit b (Nat.digitChar d) = true := by
      intro d hd
      rw [isDigit, digitVal_digitChar (by omega), decide_eq_true hd]
    by_cases hn : n < b
    · rw [numeral, Nat.toDigits_of_lt_base hn, List.all_cons, hdigit n hn, List.all_nil,
        Bool.and_self]
    · have hdiv : n / b < n := Nat.div_lt_self (by omega) hb
      have hmod : n % b < b := Nat.mod_lt n (by omega)
      rw [numeral, Nat.toDigits_of_base_le hb (by omega), List.all_append, ← numeral, ih _ hdiv,
        List.all_cons, hdigit _ hmod, List.all_nil, Bool.and_self, Bool.and_self]

theorem readDigits_numeral (n : ℕ) : readDigits b (numeral b n) = some n := by
  rw [readDigits, if_pos ⟨numeral_ne_nil b n, numeral_digits hb hb' n⟩, value_numeral hb hb']

theorem padded_digits (width n : ℕ) : (padded b width n).all (isDigit b) = true := by
  have hzero : isDigit b '0' = true := decide_eq_true (show digitVal '0' < b by
    rw [show digitVal '0' = 0 from rfl]
    omega)
  rw [padded, List.all_append, numeral_digits hb hb' n, Bool.and_true, List.all_eq_true]
  intro c hc
  rw [(List.mem_replicate.mp hc).2]
  exact hzero

theorem readDigits_padded (width n : ℕ) : readDigits b (padded b width n) = some n := by
  rw [readDigits, if_pos ⟨padded_ne_nil b width n, padded_digits hb hb' width n⟩, padded,
    value_zeros, value_numeral hb hb']

theorem padded_inj {width n n' : ℕ} (h : padded b width n = padded b width n') : n = n' := by
  have hn := readDigits_padded hb hb' width n
  rw [h, readDigits_padded hb hb'] at hn
  exact (Option.some.inj hn).symm

end

theorem padded_length {b width n : ℕ} (hb : 1 < b) (hw : 0 < width) (h : n < b ^ width) :
    (padded b width n).length = width := by
  have hlen : (numeral b n).length ≤ width := (Nat.length_toDigits_le_iff hb hw).mpr h
  rw [padded, List.length_append, List.length_replicate]
  omega

/-- `int(cs, 16)`. A sign and an underscore between digits, which no writer here prints, are not
accepted. -/
def readHex : List Char → Option ℕ
  | '0' :: 'x' :: cs => readDigits 16 cs
  | '0' :: 'X' :: cs => readDigits 16 cs
  | cs => readDigits 16 cs

theorem readHex_eq {cs : List Char} (h : cs.all (isDigit 16) = true) :
    readHex cs = readDigits 16 cs := by
  unfold readHex
  split
  · rw [List.all_cons, List.all_cons] at h
    have hx : isDigit 16 'x' = false := by decide
    rw [hx] at h
    simp at h
  · rw [List.all_cons, List.all_cons] at h
    have hx : isDigit 16 'X' = false := by decide
    rw [hx] at h
    simp at h
  · rfl

theorem readHex_numeral (n : ℕ) : readHex (numeral 16 n) = some n := by
  rw [readHex_eq (numeral_digits (by decide) (by decide) n)]
  exact readDigits_numeral (by decide) (by decide) n

theorem readHex_prefixed (n : ℕ) : readHex ('0' :: 'x' :: numeral 16 n) = some n :=
  readDigits_numeral (by decide) (by decide) n

/-- A numeral that runs on into a letter that is no digit is no numeral. -/
theorem readHex_run_on {cs rest : List Char} {c : Char} (hc : isDigit 16 c = false) :
    readHex ('0' :: 'x' :: (cs ++ c :: rest)) = none := by
  have hall : (cs ++ c :: rest).all (isDigit 16) = false := by
    rw [List.all_append, List.all_cons, hc, Bool.false_and, Bool.and_false]
  rw [readHex, readDigits, if_neg]
  rintro ⟨-, h⟩
  rw [hall] at h
  cases h

/-! ## Words -/

def blank (c : Char) : Bool := c == ' ' || c == '\t' || c == '\n' || c == '\r' || c == '\x0b' ||
  c == '\x0c'

def words (cs : List Char) : List (List Char) := (cs.splitOnP blank).filter fun w => w ≠ []

def Word (w : List Char) : Prop := w ≠ [] ∧ ∀ c ∈ w, blank c = false

-- Instances for the list at hand: the ones over all characters cannot be run.
instance (w : List Char) : Decidable (Word w) :=
  @instDecidableAnd _ _ _ (List.decidableBAll (fun c => blank c = false) w)

/-- The words with a space between any two of them. -/
def unwords : List (List Char) → List Char
  | [] => []
  | [w] => w
  | w :: w' :: ws => w ++ ' ' :: unwords (w' :: ws)

theorem words_nil : words [] = [] := rfl

theorem words_blank {c : Char} (hc : blank c = true) (rest : List Char) :
    words (c :: rest) = words rest := by
  rw [words, words, ← List.nil_append (c :: rest),
    List.splitOnP_append_cons_of_forall_mem (by simp) c hc, List.filter_cons_of_neg (by simp)]

theorem words_word {w : List Char} (hw : Word w) {c : Char} (hc : blank c = true)
    (rest : List Char) : words (w ++ c :: rest) = w :: words rest := by
  rw [words, words, List.splitOnP_append_cons_of_forall_mem hw.2 c hc, List.filter_cons_of_pos (by simpa using hw.1)]

theorem words_single {w : List Char} (hw : Word w) : words w = [w] := by
  rw [words, List.splitOnP_eq_singleton hw.2, List.filter_cons_of_pos (by simpa using hw.1),
    List.filter_nil]

theorem words_unwords_append {ws : List (List Char)} (h : ∀ w ∈ ws, Word w) {c : Char}
    (hc : blank c = true) (rest : List Char) : words (unwords ws ++ c :: rest) = ws ++ words rest := by
  induction ws with
  | nil => exact words_blank hc rest
  | cons w ws ih =>
    have hw := h w (by simp)
    cases ws with
    | nil => exact words_word hw hc rest
    | cons w' ws =>
      rw [unwords, List.append_assoc, List.cons_append, words_word hw (by decide),
        ih fun v hv => h v (List.mem_cons_of_mem w hv)]
      rfl

/-- A text that starts with the characters of a word has a first word that starts so too. -/
theorem words_head {w : List Char} (hw : Word w) (rest : List Char) :
    ∃ w' ws, words (w ++ rest) = (w ++ w') :: ws := by
  induction rest generalizing w with
  | nil => exact ⟨[], [], by rw [List.append_nil, words_single hw]⟩
  | cons c rest ih =>
    cases hc : blank c with
    | true => exact ⟨[], words rest, by rw [words_word hw hc, List.append_nil]⟩
    | false =>
      have hw' : Word (w ++ [c]) := by
        refine ⟨by simp, fun d hd => ?_⟩
        rcases List.mem_append.mp hd with hd | hd
        · exact hw.2 d hd
        · rw [List.mem_singleton.mp hd]
          exact hc
      obtain ⟨w', ws, h⟩ := ih hw'
      rw [List.append_assoc, List.append_assoc, List.singleton_append, List.singleton_append] at h
      exact ⟨c :: w', ws, h⟩

theorem digit_not_blank {b : ℕ} (hb : b ≤ 16) {c : Char} (h : isDigit b c = true) :
    blank c = false := by
  by_contra hc
  rw [Bool.not_eq_false] at hc
  have h16 : digitVal c < 16 := Nat.lt_of_lt_of_le (of_decide_eq_true h) hb
  have hblank : c = ' ' ∨ c = '\t' ∨ c = '\n' ∨ c = '\r' ∨ c = '\x0b' ∨ c = '\x0c' := by
    simpa [blank, or_assoc] using hc
  rcases hblank with rfl | rfl | rfl | rfl | rfl | rfl <;> exact absurd h16 (by decide)

theorem word_of_digits {b : ℕ} (hb : b ≤ 16) {cs : List Char} (hne : cs ≠ [])
    (h : cs.all (isDigit b) = true) : Word cs :=
  ⟨hne, fun c hc => digit_not_blank hb (List.all_eq_true.mp h c hc)⟩

theorem word_numeral {b : ℕ} (hb : 1 < b) (hb' : b ≤ 16) (n : ℕ) : Word (numeral b n) :=
  word_of_digits hb' (numeral_ne_nil b n) (numeral_digits hb hb' n)

theorem Word.append {v w : List Char} (hv : Word v) (hw : ∀ c ∈ w, blank c = false) :
    Word (v ++ w) := by
  refine ⟨fun h => hv.1 (List.append_eq_nil_iff.mp h).1, fun c hc => ?_⟩
  rcases List.mem_append.mp hc with hc | hc
  · exact hv.2 c hc
  · exact hw c hc

theorem word_prefixed (n : ℕ) : Word ('0' :: 'x' :: numeral 16 n) :=
  Word.append (v := ['0', 'x']) (by decide) (word_numeral (by decide) (by decide) n).2

theorem words_unwords {ws : List (List Char)} (h : ∀ w ∈ ws, Word w) :
    words (unwords ws) = ws := by
  induction ws with
  | nil => rfl
  | cons w ws ih =>
    have hw := h w (by simp)
    cases ws with
    | nil => exact words_single hw
    | cons w' ws =>
      rw [unwords, words_word hw (by decide), ih fun v hv => h v (List.mem_cons_of_mem w hv)]

/-! ## Lines -/

/-- The lines of a text without their newlines. -/
def lines (cs : List Char) : List (List Char) :=
  let ls := cs.splitOnP (· == '\n')
  if ls.getLast? = some [] then ls.dropLast else ls

def Line (l : List Char) : Prop := ∀ c ∈ l, (c == '\n') = false

instance (l : List Char) : Decidable (Line l) :=
  List.decidableBAll (fun c => (c == '\n') = false) l

theorem lines_cons {l : List Char} (hl : Line l) (rest : List Char) :
    lines (l ++ '\n' :: rest) = l :: lines rest := by
  have hne := List.splitOnP_ne_nil (fun c : Char => c == '\n') rest
  have hlast : (l :: rest.splitOnP (· == '\n')).getLast? = (rest.splitOnP (· == '\n')).getLast? :=
    List.getLast?_cons_of_ne_nil hne
  simp only [lines]
  rw [List.splitOnP_append_cons_of_forall_mem hl '\n' (by decide), hlast]
  by_cases hnil : (rest.splitOnP (· == '\n')).getLast? = some []
  · rw [if_pos hnil, if_pos hnil, List.dropLast_cons_of_ne_nil hne]
  · rw [if_neg hnil, if_neg hnil]

theorem lines_last {l : List Char} (hl : Line l) (hne : l ≠ []) : lines l = [l] := by
  simp only [lines]
  rw [List.splitOnP_eq_singleton hl, if_neg]
  simpa using hne

/-- Where a text starts without a newline, its first line starts so too. -/
theorem lines_head {l : List Char} (hl : Line l) (hne : l ≠ []) (rest : List Char) :
    ∃ l' ls, lines (l ++ rest) = (l ++ l') :: ls := by
  induction rest generalizing l with
  | nil =>
    rw [List.append_nil]
    exact ⟨[], [], by rw [List.append_nil, lines_last hl hne]⟩
  | cons c rest ih =>
    by_cases hc : c = '\n'
    · rw [hc, lines_cons hl]
      exact ⟨[], lines rest, by rw [List.append_nil]⟩
    · have hl' : Line (l ++ [c]) := by
        intro d hd
        rcases List.mem_append.mp hd with hd | hd
        · exact hl d hd
        · rw [List.mem_singleton.mp hd]
          exact beq_eq_false_iff_ne.mpr hc
      obtain ⟨l', ls, h⟩ := ih hl' (by simp)
      rw [List.append_assoc, List.append_assoc, List.singleton_append, List.singleton_append] at h
      exact ⟨c :: l', ls, h⟩

theorem Word.line {w : List Char} (hw : Word w) : Line w := by
  intro c hc
  have hblank := hw.2 c hc
  rw [blank] at hblank
  by_contra h
  rw [Bool.not_eq_false] at h
  rw [h] at hblank
  simp at hblank

theorem line_append {l l' : List Char} (h : Line l) (h' : Line l') : Line (l ++ l') := by
  intro c hc
  exact (List.mem_append.mp hc).elim (h c) (h' c)

theorem line_unwords {ws : List (List Char)} (h : ∀ w ∈ ws, Word w) : Line (unwords ws) := by
  induction ws with
  | nil => exact fun c hc => by cases hc
  | cons w ws ih =>
    have hw := (h w (by simp)).line
    cases ws with
    | nil => exact hw
    | cons w' ws =>
      have hrest := ih fun v hv => h v (List.mem_cons_of_mem w hv)
      rw [unwords]
      refine line_append hw fun c hc => ?_
      rcases List.mem_cons.mp hc with rfl | hc
      · rfl
      · exact hrest c hc

end Text
