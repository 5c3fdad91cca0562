import RvCkpt.Lib.Text
import Mathlib.Data.List.DropRight

/-! # The files of the meta data

`parse_line` and `read_file` of `src/src/model/model.cc`, with `ltrim` and `rtrim` of
`src/src/util/util.cc`. The file is read in pieces of one buffer, a comment is cut off, and what
remains is taken apart into tokens.
-/

namespace RvCkpt.Meta
set_option autoImplicit false

def isspace (c : Char) : Bool := Text.blank c

inductive LineState
  | whitespace | quoted_token | unquoted_token | comment
  deriving DecidableEq

/-- The variables of `parse_line`. -/
structure LineParser where
  state : LineState
  token : List Char
  comps : List (List Char)

namespace LineParser

def push (p : LineParser) (c : Char) : LineParser := { p with token := p.token ++ [c] }

/-- The token is complete. -/
def complete (p : LineParser) : LineParser := ⟨.whitespace, [], p.comps ++ [p.token]⟩

/-- The loop of `parse_line`: a change to an unquoted token or to a comment reads the character
once more. -/
def loop (p : LineParser) : List Char → LineParser
  | [] => p
  | c :: cs =>
    match _hs : p.state with
    | .whitespace =>
      if isspace c then loop p cs
      else if c = '#' then loop { p with state := .comment } (c :: cs)
      else if c = '"' then loop { p with state := .quoted_token } cs
      else loop { p with state := .unquoted_token } (c :: cs)
    | .quoted_token => if c = '"' then loop p.complete cs else loop (p.push c) cs
    | .unquoted_token => if isspace c then loop p.complete cs else loop (p.push c) cs
    | .comment => loop p cs
  termination_by cs => (cs.length, if p.state = .whitespace then 1 else 0)
  decreasing_by
    all_goals first
      | exact Prod.Lex.left _ _ (Nat.lt_succ_self _)
      | exact Prod.Lex.right _ (by simp [_hs])

end LineParser

def parse_line (line : List Char) : List (List Char) :=
  let p := LineParser.loop ⟨.whitespace, [], []⟩ line
  if 0 < p.token.length then p.comps ++ [p.token] else p.comps

def ltrim (s : List Char) : List Char := s.dropWhile isspace

def rtrim (s : List Char) : List Char := s.rdropWhile isspace

/-- What `fgets` reads where the buffer has room for `left` more characters, and what it leaves. -/
def fgets : ℕ → List Char → List Char × List Char
  | 0, file => ([], file)
  | _ + 1, [] => ([], [])
  | left + 1, c :: file =>
    if c = '\n' then ([c], file)
    else
      let (s, file) := fgets left file
      (c :: s, file)

/-- `sizeof(buf)` -/
def BUF_SIZE : ℕ := 256

theorem fgets_length (left : ℕ) (file : List Char) :
    (fgets left file).1.length + (fgets left file).2.length = file.length := by
  induction left generalizing file with
  | zero => simp [fgets]
  | succ left ih =>
    cases file with
    | nil => rfl
    | cons c file =>
      have h := ih file
      rw [fgets]
      split_ifs
      · simp only [List.length_cons, List.length_nil]
        omega
      · simp only [List.length_cons]
        omega

/-- The text that a piece of the file is parsed as. -/
def lineText (s : List Char) : List Char :=
  -- the string ends at the first null character
  let line := s.takeWhile (· ≠ '\x00')
  if '#' ∈ line then ltrim (rtrim (line.takeWhile (· ≠ '#'))) else line

/-- The loop of `read_file`. -/
def readLoop (data : List (List (List Char))) (file : List Char) : List (List (List Char)) :=
  if hs : (fgets (BUF_SIZE - 1) file).1 = [] then data
  else
    let part := parse_line (lineText (fgets (BUF_SIZE - 1) file).1)
    if part.length = 0 then readLoop data (fgets (BUF_SIZE - 1) file).2
    else readLoop (data ++ [part]) (fgets (BUF_SIZE - 1) file).2
  termination_by file.length
  decreasing_by
    all_goals
      have hlength := fgets_length (BUF_SIZE - 1) file
      have hpos := List.length_pos_iff.mpr hs
      omega

def read_file (file : List Char) : List (List (List Char)) := readLoop [] file

end RvCkpt.Meta
