import RvCkpt.Parse.Process
import RvCkpt.Recorder.LogText

/-! # The replay sequence of a repeating break

The rerun's output holds the executions of the break instruction and the replayed system calls as
they happen. After each line the loop stops where one execution is left and no system call; the
line that the loader prints on its way into the checkpoint makes this test come before the first
of them too, so a break with one execution and no system call is no exception.
-/

namespace RvCkpt.Parse
open Text State
set_option autoImplicit false

/-! ## The output -/

/-- What the program does in a rerun: an instruction at `pc`, which leaves a value in its
destination register, or a system call that is replayed. -/
inductive Step where
  | inst (pc : ℕ) (val : BitVec 64)
  | replay (call : SysCall)

def executeLine (val : BitVec 64) : List Char := unwords ["execute".toList, hex val.toNat]

/-- `CheckpointManager::execute` -/
def execute (monitorPc pc : ℕ) (val : BitVec 64) : List Char :=
  if pc = monitorPc then executeLine val ++ ['\n'] else []

/-- What `replay` prints for an entry that is to be logged. -/
def syscallLine (retval : BitVec 64) : List Char :=
  unwords ["syscall".toList, padded 16 16 retval.toNat]

namespace Step

def text (monitorPc : ℕ) : Step → List Char
  | inst pc val => execute monitorPc pc val
  | replay call => syscallLine call.retval ++ ['\n']

/-- The entry of the replay sequence that stands for the step. -/
def entry (addr rd : ℕ) : Step → List SysCall
  | inst pc val => if pc = addr then [execution addr rd val] else []
  | replay call => [call]

def executes (addr : ℕ) : Step → ℕ
  | inst pc _ => if pc = addr then 1 else 0
  | replay _ => 0

def replayed : Step → List SysCall
  | inst _ _ => []
  | replay call => [call]

end Step

/-- The rerun of a checkpoint from its entry to the last execution of the break instruction: its
steps, with the system calls of the checkpoint among them, then the execution itself. -/
structure Rerun (cp : Checkpoint) where
  addr : ℕ
  rd : ℕ
  loader : List (List Char)
  steps : List Step
  last : BitVec 64
  rest : List Char
  loader_lines : ∀ line ∈ loader, Line line ∧ line ≠ "invoke cl".toList
  replays : steps.flatMap Step.replayed = cp.syscalls
  returns : ∀ call ∈ cp.syscalls, call.isBreak = false

namespace Rerun

variable {cp : Checkpoint} (r : Rerun cp)

/-- The executions of the break instruction, the last one included. -/
def count : ℕ := (r.steps.map (Step.executes r.addr)).sum + 1

def stepsText : List Char := r.steps.flatMap (Step.text r.addr)

/-- What follows the steps. -/
def after : List Char := executeLine r.last ++ '\n' :: r.rest

/-- `main.c` prints `invoke cl` last, and `map_pages` of `cl.c` one line more. -/
def output : List Char :=
  (r.loader.flatMap fun line => line ++ ['\n']) ++
    ("invoke cl".toList ++ '\n' :: ("begin execution".toList ++ '\n' :: (r.stepsText ++ r.after)))

def sequence : List SysCall := r.steps.flatMap (Step.entry r.addr r.rd)

end Rerun

/-! ## Lines -/

theorem readlines_line {line : List Char} (h : Line line) (rest : List Char) :
    readlines (line ++ '\n' :: rest) = (line ++ ['\n']) :: readlines rest := by
  induction line with
  | nil => rw [List.nil_append, List.nil_append, readlines, if_pos rfl]
  | cons c line ih =>
    have hc : c ≠ '\n' := by simpa using h c List.mem_cons_self
    rw [List.cons_append, readlines, if_neg hc, ih fun d hd => h d (List.mem_cons_of_mem c hd)]
    rfl

theorem skipLoader_line {line : List Char} (hne : line ≠ "invoke cl".toList)
    (rest : List (List Char)) : skipLoader ((line ++ ['\n']) :: rest) = skipLoader rest := by
  have hne' : line ++ ['\n'] ≠ "invoke cl\n".toList := by
    intro h
    exact hne (List.append_inj_left' (h.trans (show _ = "invoke cl".toList ++ ['\n'] from rfl)) rfl)
  rw [skipLoader, if_neg hne']

theorem skipLoader_loader {loader : List (List Char)}
    (h : ∀ line ∈ loader, Line line ∧ line ≠ "invoke cl".toList) (rest : List Char) :
    skipLoader (readlines ((loader.flatMap fun line => line ++ ['\n']) ++
      ("invoke cl".toList ++ '\n' :: rest))) = .ok (readlines rest) := by
  induction loader with
  | nil =>
    rw [List.flatMap_nil, List.nil_append, readlines_line (by decide), skipLoader, if_pos (by decide)]
  | cons line loader ih =>
    obtain ⟨hline, hne⟩ := h line List.mem_cons_self
    rw [List.flatMap_cons, List.append_assoc, List.append_assoc, List.singleton_append,
      readlines_line hline, skipLoader_line hne]
    exact ih fun l hl => h l (List.mem_cons_of_mem line hl)

theorem line_executeLine (val : BitVec 64) : Line (executeLine val) := by
  apply line_unwords
  intro w hw
  simp only [List.mem_cons, List.not_mem_nil, or_false] at hw
  obtain rfl | rfl := hw
  · decide
  · exact word_numeral (by decide) (by decide) _

theorem lineValue_unwords {kw num : List Char} {n : ℕ} (hkw : Word kw)
    (hnum : num ≠ [] ∧ num.all (isDigit 16) = true) (hread : readDigits 16 num = some n) :
    lineValue (unwords [kw, num] ++ ['\n']) = some n := by
  have hword : Word num := word_of_digits (by decide) hnum.1 hnum.2
  have hws : ∀ w ∈ [kw, num], Word w := by
    intro w hw
    simp only [List.mem_cons, List.not_mem_nil, or_false] at hw
    obtain rfl | rfl := hw
    · exact hkw
    · exact hword
  rw [lineValue, words_unwords_append hws (by decide), words_nil, List.append_nil]
  show readHex num = some n
  rw [readHex_eq hnum.2, hread]

theorem lineValue_execute (val : BitVec 64) :
    lineValue (executeLine val ++ ['\n']) = some val.toNat :=
  lineValue_unwords (by decide)
    ⟨numeral_ne_nil 16 _, numeral_digits (by decide) (by decide) _⟩
    (readDigits_numeral (by decide) (by decide) _)

theorem lineValue_syscall (retval : BitVec 64) :
    lineValue (syscallLine retval ++ ['\n']) = some retval.toNat :=
  lineValue_unwords (by decide)
    ⟨padded_ne_nil 16 16 _, padded_digits (by decide) (by decide) 16 _⟩
    (readDigits_padded (by decide) (by decide) 16 _)

theorem line_syscallLine (retval : BitVec 64) : Line (syscallLine retval) := by
  apply line_unwords
  intro w hw
  simp only [List.mem_cons, List.not_mem_nil, or_false] at hw
  obtain rfl | rfl := hw
  · decide
  · exact word_of_digits (by decide) (padded_ne_nil 16 16 _)
      (padded_digits (by decide) (by decide) 16 _)

/-! ## One line -/

variable {addr rd : ℕ}

theorem mergeLine_execute (st : Merge) (val : BitVec 64) :
    mergeLine addr rd st (executeLine val ++ ['
']) = .ok { st with
      newSyscalls := st.newSyscalls ++ [execution addr rd val]
      repeatCount := st.repeatCount - 1 } := by
  have hprefix : "execute".toList.isPrefixOf (executeLine val ++ ['
']) = true := rfl
  rw [mergeLine, if_pos hprefix, lineValue_execute]
  simp only [BitVec.ofNat_toNat, BitVec.setWidth_eq]

theorem mergeLine_syscall {st : Merge} {call : SysCall} {queue : List SysCall}
    (hqueue : st.syscallQueue = call :: queue) (hreturns : call.isBreak = false) :
    mergeLine addr rd st (syscallLine call.retval ++ ['
']) = .ok { st with
      syscallQueue := queue, newSyscalls := st.newSyscalls ++ [call] } := by
  have hexecute : ¬ "execute".toList.isPrefixOf (syscallLine call.retval ++ ['
']) = true := by
    intro h
    cases h
  have hprefix : "syscall".toList.isPrefixOf (syscallLine call.retval ++ ['
']) = true := rfl
  rw [mergeLine, if_neg hexecute, if_pos hprefix, lineValue_syscall, hqueue]
  simp only [hreturns, and_self, if_true]

theorem mergeLine_other {st : Merge} {line : List Char}
    (hexecute : "execute".toList.isPrefixOf line = false)
    (hsyscall : "syscall".toList.isPrefixOf line = false) : mergeLine addr rd st line = .ok st := by
  rw [mergeLine, hexecute, hsyscall]
  rfl

/-! ## The loop -/

/-- The test at the end of a turn, and the turns after it. -/
def afterLine (addr rd : ℕ) (st : Merge) (rest : List (List Char)) :
    Except RerunError (List SysCall × List (List Char)) :=
  if st.repeatCount = 1 ∧ st.syscallQueue = [] then
    .ok (st.newSyscalls ++ [breakCall addr], rest)
  else mergeLines addr rd st rest

theorem mergeLines_cons {st st' : Merge} {line : List Char}
    (h : mergeLine addr rd st line = .ok st') (rest : List (List Char)) :
    mergeLines addr rd st (line :: rest) = afterLine addr rd st' rest := by
  rw [mergeLines, h]
  rfl

/-- As long as there are steps with a line of their own, the test fails: an execution or a system
call is still to come. -/
theorem afterLine_steps {steps : List Step} {st : Merge}
    (hcount : st.repeatCount = (steps.map (Step.executes addr)).sum + 1)
    (hqueue : st.syscallQueue = steps.flatMap Step.replayed)
    (hreturns : ∀ call ∈ st.syscallQueue, call.isBreak = false) (tail : List Char) :
    afterLine addr rd st (readlines (steps.flatMap (Step.text addr) ++ tail)) =
      .ok (st.newSyscalls ++ steps.flatMap (Step.entry addr rd) ++ [breakCall addr],
        readlines tail) := by
  induction steps generalizing st with
  | nil =>
    have hdone : st.repeatCount = 1 ∧ st.syscallQueue = [] := ⟨by simpa using hcount, hqueue⟩
    rw [afterLine, if_pos hdone]
    simp only [List.flatMap_nil, List.append_nil, List.nil_append]
  | cons step steps ih =>
    cases step with
    | inst pc val =>
      by_cases hpc : pc = addr
      · subst hpc
        have hmore : ¬ (st.repeatCount = 1 ∧ st.syscallQueue = []) := by
          rintro ⟨hone, -⟩
          simp only [List.map_cons, Step.executes, if_true, List.sum_cons] at hcount
          omega
        have htext : (Step.inst pc val :: steps).flatMap (Step.text pc) ++ tail =
            executeLine val ++ '\n' :: (steps.flatMap (Step.text pc) ++ tail) := by
          simp only [List.flatMap_cons, Step.text, execute, if_true, List.append_assoc,
            List.cons_append, List.nil_append]
        rw [afterLine, if_neg hmore, htext, readlines_line (line_executeLine val),
          mergeLines_cons (mergeLine_execute st val)]
        refine (ih ?_ ?_ ?_).trans ?_
        · simp only [List.map_cons, Step.executes, if_true, List.sum_cons] at hcount
          simp only
          omega
        · exact hqueue
        · exact hreturns
        · simp only [List.flatMap_cons, Step.entry, if_true, List.append_assoc]
      · have htext : (Step.inst pc val :: steps).flatMap (Step.text addr) =
            steps.flatMap (Step.text addr) := by
          simp only [List.flatMap_cons, Step.text, execute, if_neg hpc, List.nil_append]
        have hentry : (Step.inst pc val :: steps).flatMap (Step.entry addr rd) =
            steps.flatMap (Step.entry addr rd) := by
          simp only [List.flatMap_cons, Step.entry, if_neg hpc, List.nil_append]
        rw [htext, hentry]
        refine ih ?_ hqueue hreturns
        simpa only [List.map_cons, Step.executes, if_neg hpc, List.sum_cons, Nat.zero_add]
          using hcount
    | replay call =>
      have hnext : st.syscallQueue = call :: steps.flatMap Step.replayed := by
        rw [hqueue, List.flatMap_cons]
        rfl
      have hmore : ¬ (st.repeatCount = 1 ∧ st.syscallQueue = []) := by
        rintro ⟨-, hnil⟩
        rw [hnext] at hnil
        cases hnil
      have htext : (Step.replay call :: steps).flatMap (Step.text addr) ++ tail =
          syscallLine call.retval ++ '\n' :: (steps.flatMap (Step.text addr) ++ tail) := by
        simp only [List.flatMap_cons, Step.text, List.append_assoc, List.cons_append,
          List.nil_append]
      have hcall : call.isBreak = false := hreturns call (by rw [hnext]; exact List.mem_cons_self)
      rw [afterLine, if_neg hmore, htext, readlines_line (line_syscallLine call.retval),
        mergeLines_cons (mergeLine_syscall hnext hcall)]
      refine (ih ?_ rfl ?_).trans ?_
      · simpa only [List.map_cons, Step.executes, List.sum_cons, Nat.zero_add] using hcount
      · intro c hc
        exact hreturns c (by rw [hnext]; exact List.mem_cons_of_mem call hc)
      · simp only [List.flatMap_cons, Step.entry, List.append_assoc]

/-! ## The whole run -/

namespace Checkpoint

variable {cp : Checkpoint}

theorem rerun_output (r : Rerun cp) :
    rerun cp (r.addr, r.rd, r.count) r.output =
      .ok (r.sequence ++ [breakCall r.addr], readlines r.after) := by
  have hloader := skipLoader_loader r.loader_lines
    ("begin execution".toList ++ '\n' :: (r.stepsText ++ r.after))
  have hsteps : afterLine r.addr r.rd ⟨cp.syscalls, [], r.count⟩
      (readlines (r.stepsText ++ r.after)) =
        .ok ([] ++ r.sequence ++ [breakCall r.addr], readlines r.after) :=
    afterLine_steps (by simp [Rerun.count]) r.replays.symm r.returns r.after
  have hbanner : Line "begin execution".toList := by decide
  rw [rerun, Rerun.output, hloader]
  show mergeLines r.addr r.rd _ _ = _
  rw [readlines_line hbanner, mergeLines_cons (mergeLine_other rfl rfl)]
  exact hsteps

/-- The second pass replays the executions and the system calls in the order in which the rerun
has done them, and then breaks; the line of the last execution is the next to be read. -/
theorem process_merges (asm : Assembler) (r : Rerun cp) :
    rerun cp (r.addr, r.rd, r.count) r.output =
        .ok (r.sequence ++ [breakCall r.addr], readlines r.after) ∧
      process asm cp (some (r.addr, r.rd, r.count)) (fun _ => r.output) =
        (processOnce asm cp true).bind fun _ =>
          processOnce asm { cp with syscalls := r.sequence ++ [breakCall r.addr] } false := by
  refine ⟨rerun_output r, ?_⟩
  simp only [process, rerun_output r]
  rfl

end Checkpoint

end RvCkpt.Parse
