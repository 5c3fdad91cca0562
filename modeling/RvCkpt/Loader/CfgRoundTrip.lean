import RvCkpt.Loader.LoadImage

/-! # The configuration is read back

Both readers of a configuration, `main` of the loader and `compress.py`, find the table and the
entry point that were written.
-/

namespace RvCkpt.Loader
open ByteMem Text Parse
set_option autoImplicit false

/-! ## The loader's numbers -/

theorem scanSign_digit {c : Char} (hc : isDigit 16 c = true) (cs : List Char) :
    scanSign (c :: cs) = (false, c :: cs) := by
  have hne : ∀ d : Char, isDigit 16 d = false → c ≠ d := by
    rintro d hd rfl
    rw [hd] at hc
    cases hc
  unfold scanSign
  split
  · rename_i heq
    exact absurd (List.cons.inj heq).1 (hne '-' (by decide))
  · rename_i heq
    exact absurd (List.cons.inj heq).1 (hne '+' (by decide))
  · rfl

theorem scanPrefix_other {c : Char} (h : c ≠ 'x') (h' : c ≠ 'X') (a : Char) (cs : List Char) :
    scanPrefix (a :: c :: cs) = a :: c :: cs := by
  unfold scanPrefix
  split
  · rename_i heq
    exact absurd (List.cons.inj (List.cons.inj heq).2).1 h
  · rename_i heq
    exact absurd (List.cons.inj (List.cons.inj heq).2).1 h'
  · rfl

theorem scanPrefix_digits {ds : List Char} (hne : ds ≠ []) (hds : ds.all (isDigit 16) = true)
    {c : Char} (h : c ≠ 'x') (h' : c ≠ 'X') (rest : List Char) :
    scanPrefix (ds ++ c :: rest) = ds ++ c :: rest := by
  cases ds with
  | nil => exact absurd rfl hne
  | cons a ds =>
    cases ds with
    | nil => exact scanPrefix_other h h' a rest
    | cons b ds =>
      have hb : isDigit 16 b = true := List.all_eq_true.mp hds b (by simp)
      have hother : ∀ d : Char, isDigit 16 d = false → b ≠ d := by
        rintro d hd rfl
        rw [hd] at hb
        cases hb
      exact scanPrefix_other (hother 'x' (by decide)) (hother 'X' (by decide)) a _

/-- A numeral after blanks, up to a blank. -/
theorem scanNumber_numeral {b : ℕ} (hb : b = 10 ∨ b = 16) (n : ℕ) {before : List Char}
    (hbefore : before.all blank = true) {c : Char} (hc : blank c = true) (rest : List Char) :
    scanNumber b (before ++ (numeral b n ++ c :: rest)) = some (false, n, c :: rest) := by
  have hb1 : 1 < b := by omega
  have hb16 : b ≤ 16 := by omega
  have hdigits := numeral_digits hb1 hb16 n
  have hnotDigit : isDigit b c = false := by
    by_contra h
    rw [Bool.not_eq_false] at h
    rw [digit_not_blank hb16 h] at hc
    cases hc
  obtain ⟨d, ds, hds⟩ := List.exists_cons_of_ne_nil (numeral_ne_nil b n)
  have hd : isDigit b d = true := List.all_eq_true.mp hdigits d (by rw [hds]; simp)
  have hd16 : isDigit 16 d = true := by
    rw [isDigit, decide_eq_true_eq] at hd ⊢
    omega
  have hdrop : (before ++ (numeral b n ++ c :: rest)).dropWhile blank =
      numeral b n ++ c :: rest := by
    rw [List.dropWhile_append_of_pos (List.all_eq_true.mp hbefore), hds, List.cons_append,
      List.dropWhile_cons_of_neg (by rw [digit_not_blank hb16 hd]; decide)]
  have hsign : scanSign (numeral b n ++ c :: rest) = (false, numeral b n ++ c :: rest) := by
    rw [hds, List.cons_append]
    exact scanSign_digit hd16 _
  have hstripped : (if b = 16 then scanPrefix (numeral b n ++ c :: rest)
      else numeral b n ++ c :: rest) = numeral b n ++ c :: rest := by
    by_cases h16 : b = 16
    · rw [if_pos h16]
      obtain rfl := h16
      refine scanPrefix_digits (numeral_ne_nil 16 n) hdigits ?_ ?_ rest
      · rintro rfl
        cases hc
      · rintro rfl
        cases hc
    · rw [if_neg h16]
  have htake : (numeral b n ++ c :: rest).takeWhile (isDigit b) = numeral b n := by
    rw [List.takeWhile_append_of_pos (List.all_eq_true.mp hdigits),
      List.takeWhile_cons_of_neg (by rw [hnotDigit]; decide), List.append_nil]
  have hrest : (numeral b n ++ c :: rest).dropWhile (isDigit b) = c :: rest := by
    rw [List.dropWhile_append_of_pos (List.all_eq_true.mp hdigits),
      List.dropWhile_cons_of_neg (by rw [hnotDigit]; decide)]
  have hempty : (numeral b n).isEmpty = false := by
    rw [hds]
    rfl
  rw [scanNumber, hdrop, hsign]
  dsimp only
  rw [hstripped, htake, hrest, hempty, if_neg Bool.false_ne_true, value_numeral hb1 hb16]

section
variable {before : List Char} (hbefore : before.all blank = true) {c : Char}
  (hc : blank c = true) (rest : List Char)

include hbefore hc

theorem scanLong_numeral {n : ℕ} (hn : n < 2 ^ 64) :
    scanLong (before ++ (numeral 16 n ++ c :: rest)) = some (n, c :: rest) := by
  rw [scanLong, scanNumber_numeral (.inr rfl) n hbefore hc rest]
  simp only [Option.bind_eq_bind, Option.bind_some, toUnsigned, if_neg (Nat.not_le.mpr hn)]
  rfl

theorem scanInt_numeral {n : ℕ} (hn : n < 2 ^ 32) :
    scanInt (before ++ (numeral 16 n ++ c :: rest)) = some (n, c :: rest) := by
  rw [scanInt, scanNumber_numeral (.inr rfl) n hbefore hc rest]
  have hle : ¬ 2 ^ 64 ≤ n := by omega
  simp only [Option.bind_eq_bind, Option.bind_some, toUnsigned, if_neg hle]
  rw [if_neg Bool.false_ne_true, Nat.mod_eq_of_lt hn]

theorem scanCount_numeral {n : ℕ} (hn : n < 2 ^ 31) :
    scanCount (before ++ (numeral 10 n ++ c :: rest)) = some (n, c :: rest) := by
  rw [scanCount, scanNumber_numeral (.inl rfl) n hbefore hc rest]
  have hmin : min n (2 ^ 63 - 1) % 2 ^ 32 = n := by omega
  simp only [Option.bind_eq_bind, Option.bind_some]
  rw [if_neg Bool.false_ne_true, hmin, if_neg (Nat.not_le.mpr hn)]

end

/-! ## The loader's table -/

/-- The fields fit into `mmap_cfg`. -/
structure Fits (e : MmapCfg) : Prop where
  addr : e.addr < 2 ^ 64
  offset : e.offset < 2 ^ 64
  size : e.size < 2 ^ 32
  length : e.length < 2 ^ 32

theorem scanEntry_line {e : MmapCfg} (he : Fits e) (rest : List Char) :
    scanEntry ('\n' :: (e.line ++ rest)) = some (e, '\n' :: rest) := by
  have hline : '\n' :: (e.line ++ rest) = ['\n'] ++ (numeral 16 e.addr ++ '\t' ::
      (numeral 16 e.offset ++ '\t' :: (numeral 16 e.size ++ '\t' ::
        (numeral 16 e.length ++ '\n' :: rest)))) := by
    simp only [MmapCfg.line, List.append_assoc, List.cons_append, List.nil_append]
  have htab : ∀ cs : List Char, '\t' :: cs = ['\t'] ++ cs := fun cs => rfl
  rw [hline, scanEntry, scanLong_numeral rfl rfl _ he.addr, Option.bind_eq_bind, Option.bind_some]
  dsimp only
  rw [htab, scanLong_numeral rfl rfl _ he.offset, Option.bind_some]
  dsimp only
  rw [htab, scanInt_numeral rfl rfl _ he.size, Option.bind_some]
  dsimp only
  rw [htab, scanInt_numeral rfl rfl _ he.length]
  rfl

theorem scanTable_lines {table : List MmapCfg} (h : ∀ e ∈ table, Fits e) (rest : List Char) :
    scanTable table.length ('\n' :: (table.flatMap MmapCfg.line ++ rest)) =
      some (table, '\n' :: rest) := by
  induction table with
  | nil => rfl
  | cons e table ih =>
    rw [List.flatMap_cons, List.append_assoc, List.length_cons, scanTable,
      scanEntry_line (h e (by simp)), Option.bind_eq_bind, Option.bind_some]
    dsimp only
    rw [ih fun e' he' => h e' (by simp [he'])]
    rfl

/-- `main` reads what was written. -/
theorem scanCfg_cfgText {table : List MmapCfg} (h : ∀ e ∈ table, Fits e)
    (hlen : table.length < 2 ^ 31) {pc : ℕ} (hpc : pc < 2 ^ 64) :
    scanCfg (cfgText table pc) = some (table, pc) := by
  have hcount : scanCount ([] ++ (numeral 10 table.length ++ '\n' ::
      (table.flatMap MmapCfg.line ++ (numeral 16 pc ++ ['\n'])))) = some (table.length,
      '\n' :: (table.flatMap MmapCfg.line ++ (numeral 16 pc ++ ['\n']))) :=
    scanCount_numeral rfl rfl _ hlen
  have hlast : scanLong (['\n'] ++ (numeral 16 pc ++ '\n' :: [])) = some (pc, ['\n']) :=
    scanLong_numeral rfl rfl [] hpc
  rw [List.nil_append] at hcount
  rw [scanCfg, cfgText, hcount, Option.bind_eq_bind, Option.bind_some]
  dsimp only
  rw [scanTable_lines h, Option.bind_eq_bind, Option.bind_some]
  dsimp only
  rw [← List.singleton_append, hlast]
  rfl

/-! ## The rows that are compressed -/

/-- A mapping as a row of the text. -/
def row (e : MmapCfg) : List Char :=
  numeral 16 e.addr ++ '\t' :: (numeral 16 e.offset ++ '\t' :: (numeral 16 e.size ++
    '\t' :: numeral 16 e.length))

theorem word_hexNumeral (n : ℕ) : Word (numeral 16 n) := word_numeral (by decide) (by decide) n

theorem words_row (e : MmapCfg) : words (row e) =
    [numeral 16 e.addr, numeral 16 e.offset, numeral 16 e.size, numeral 16 e.length] := by
  rw [row, words_word (word_hexNumeral _) rfl, words_word (word_hexNumeral _) rfl,
    words_word (word_hexNumeral _) rfl, words_single (word_hexNumeral _)]

theorem line_row (e : MmapCfg) : Line (row e) := by
  have hnumeral : ∀ n, Line (numeral 16 n) := fun n => (word_hexNumeral n).line
  have htab : ∀ {l : List Char}, Line l → Line ('\t' :: l) := fun hl =>
    line_append (l := ['\t']) (by decide) hl
  exact line_append (hnumeral _) (htab (line_append (hnumeral _) (htab
    (line_append (hnumeral _) (htab (hnumeral _))))))

theorem lines_rows (table : List MmapCfg) (rest : List Char) :
    lines (table.flatMap MmapCfg.line ++ rest) = table.map row ++ lines rest := by
  induction table with
  | nil => rfl
  | cons e table ih =>
    have hline : e.line ++ (table.flatMap MmapCfg.line ++ rest) =
        row e ++ '\n' :: (table.flatMap MmapCfg.line ++ rest) := by
      simp only [MmapCfg.line, row, List.append_assoc, List.cons_append, List.nil_append]
    rw [List.flatMap_cons, List.append_assoc, hline, lines_cons (line_row e), ih, List.map_cons,
      List.cons_append]

theorem lines_cfgText (table : List MmapCfg) (pc : ℕ) :
    lines (cfgText table pc) =
      numeral 10 table.length :: (table.map row ++ [numeral 16 pc]) := by
  have hnum : Line (numeral 10 table.length) := (word_numeral (by decide) (by decide) _).line
  have hlast : lines (numeral 16 pc ++ ['\n']) = [numeral 16 pc] := lines_cons (word_hexNumeral pc).line []
  rw [cfgText, lines_cons hnum, lines_rows, hlast]

theorem lineInt_numeral {b : ℕ} (hb : 1 < b) (hb' : b ≤ 16) {read : List Char → Option ℕ}
    {n : ℕ} (hread : read (numeral b n) = some n) : Image.lineInt read (numeral b n) = some n := by
  rw [Image.lineInt, words_single (word_numeral hb hb' n)]
  exact hread

/-- `compress.py` reads the rows of the table and the entry point. -/
theorem readImage_cfgText (table : List MmapCfg) (pc : ℕ) (dump : List Byte) :
    Image.readImage ⟨cfgText table pc, dump⟩ =
      ((table.map row).foldlM (Image.readEntry dump) ∅).map fun pages => (pages, pc) := by
  have htake : ((numeral 10 table.length :: (table.map row ++ [numeral 16 pc])).drop 1).take
      table.length = table.map row := by
    rw [List.drop_one, List.tail_cons]
    exact List.take_left' (List.length_map row)
  have hlast : (numeral 10 table.length :: (table.map row ++ [numeral 16 pc]))[table.length + 1]? =
      some (numeral 16 pc) := by
    rw [List.getElem?_cons_succ, List.getElem?_append_right (by rw [List.length_map]),
      List.length_map, Nat.sub_self]
    rfl
  have hnum : Image.lineInt (readDigits 10) (numeral 10 table.length) = some table.length :=
    lineInt_numeral (by decide) (by decide) (readDigits_numeral (by decide) (by decide) _)
  have hpc : Image.lineInt readHex (numeral 16 pc) = some pc :=
    lineInt_numeral (by decide) le_rfl (readHex_numeral pc)
  rw [Image.readImage]
  dsimp only
  rw [lines_cfgText, List.getElem?_cons_zero, Option.bind_some, hnum, Option.bind_eq_bind,
    Option.bind_some, htake, hlast]
  cases (table.map row).foldlM (Image.readEntry dump) ∅ with
  | none => rfl
  | some pages =>
    rw [Option.bind_eq_bind, Option.bind_some, Option.bind_some, hpc]
    rfl

end RvCkpt.Loader
