import RvCkpt.Recorder.MemTrace

/-! # The checkpoint manager

`CheckpointManager` of `src/src/util/fmt.h` and `src/src/util/fmt.cc`. The text it prints is kept
as the sequence of the `fprintf` calls that print it, one `LogItem` for a call or a group of calls
that always go together. A hook returns `none` when the trace it works on dereferences the null
pointer. The counters are 64-bit words; addresses are numbers and their sums do not wrap.
-/

namespace RvCkpt
open ByteMem
set_option autoImplicit false

inductive BreakKind where
  | ecall
  | first
  | firstrvc
  | repeat (count : BitVec 32) (rd : ℕ)
  deriving DecidableEq

inductive LogItem where
  | begin (addr : ℕ) (ireg freg : ℕ → BitVec 64)
  | break (addr : ℕ) (kind : BreakKind)
  | file (beginInstret instret : BitVec 64) (pages : List (Σ _ : ℕ, PageRec))
      (execs : List (Σ _ : ℕ, ExecRec))
  | store (addr size : ℕ) (data : BitVec 64)
  /-- The start of a line that a `result` or an `exit` completes. -/
  | syscall (addr : ℕ)
  | result (retval : BitVec 64) (write : Option (ℕ × List Byte))
  | exit (rc : BitVec 32)

structure Manager where
  out : Bool
  period : BitVec 64
  beginInstret : BitVec 64
  mem : Option MemTrace
  monitorPc : ℕ
  log : List LogItem

/-- What the hook of the run loop is called with: the processor's registers and counter, `get_rd`
of the decoded instruction, the pc, the instruction and its length. -/
structure Fetched where
  instret : BitVec 64
  ireg : ℕ → BitVec 64
  freg : ℕ → BitVec 64
  rd : ℤ
  addr : ℕ
  inst : BitVec 64
  length : ℕ

def ECALL : BitVec 64 := 0x00000073

namespace Manager

def emit (M : Manager) (item : LogItem) : Manager := { M with log := M.log ++ [item] }

/-- The store trace: the slots in use, with what memory holds there now. -/
def storeItems (T : MemTrace) (live : Mem) : List LogItem :=
  (List.range STREC_SIZE).filterMap fun i =>
    if (T.stores i).addr ≠ 0 then
      some (.store (T.stores i).addr (T.stores i).size
        (live.read (T.stores i).addr (T.stores i).size))
    else none

def breakHere (M : Manager) (live : Mem) (instret : BitVec 64) : Manager :=
  match M.mem with
  | some T =>
    { M with
      mem := none
      log := M.log ++ [.file M.beginInstret instret T.pages.entries T.execs.entries] ++
        storeItems T live }
  | none => M

/-- Begin a new checkpoint unless one is open. -/
def beginHere (M : Manager) (x : Fetched) : Manager × MemTrace :=
  match M.mem with
  | some T => (M, T)
  | none =>
    ({ M with beginInstret := x.instret, log := M.log ++ [.begin x.addr x.ireg x.freg] }, .new)

def firstRvc (T : MemTrace) (x : Fetched) (firstVisit : Bool) : Option (MemTrace × Bool) :=
  if firstVisit ∧ x.length = 2 then T.prefetch (x.addr + 2) 2 else some (T, false)

/-- Any instruction that can be replaced by ecall, once it has become rare enough. -/
def repeatBreak (T : MemTrace) (x : Fetched) (totalExec : BitVec 64) :
    Option (MemTrace × Option BreakKind) :=
  if x.length = 4 ∧ 0 < x.rd then do
    let (T, execCount) ← T.getExecCounter x.addr
    some (T, if execCount.setWidth 64 < totalExec >>> 18 then
      some (.repeat execCount x.rd.toNat) else none)
  else some (T, none)

/-- Which kind of breakpoint the instruction is, if any. -/
def chooseBreak (T : MemTrace) (x : Fetched) (firstVisit : Bool) (totalExec : BitVec 64) :
    Option (MemTrace × Option BreakKind) :=
  if x.inst = ECALL then some (T, some .ecall)
  else if firstVisit ∧ x.length = 4 then some (T, some .first)
  else do
    let (T, rvc) ← firstRvc T x firstVisit
    if rvc then some (T, some .firstrvc) else repeatBreak T x totalExec

def lookForBreak (M : Manager) (T : MemTrace) (x : Fetched) (firstVisit : Bool) :
    Option (MemTrace × Option BreakKind) :=
  if M.period < x.instret - M.beginInstret then
    chooseBreak T x firstVisit (x.instret - M.beginInstret)
  else some (T, none)

def fetch (M : Manager) (live : Mem) (x : Fetched) : Option Manager :=
  if M.out then do
    let (M, T) := M.beginHere x
    let (T, firstVisit) ← T.fetch x.addr x.inst x.length
    let (T, kind) ← M.lookForBreak T x firstVisit
    let M := { M with mem := some T }
    match kind with
    | some kind => some ((M.emit (.break x.addr kind)).breakHere live x.instret)
    | none => some (if x.inst = ECALL then M.emit (.syscall x.addr) else M)
  else some M

/-- What `execute` prints for the monitored instruction: the register `rd` it has just written. -/
def execute (M : Manager) (addr : ℕ) (ireg : ℕ → BitVec 64) (rd : ℕ) : Option (BitVec 64) :=
  if addr = M.monitorPc then some (ireg rd) else none

def load (w : Width) (M : Manager) (addr : ℕ) (data : BitVec 64) : Option Manager :=
  match M.mem with
  | some T => (T.load w addr data).map fun T => { M with mem := some T }
  | none => some M

def store (w : Width) (M : Manager) (addr : ℕ) : Option Manager :=
  match M.mem with
  | some T => (T.store w addr).map fun T => { M with mem := some T }
  | none => some M

def syscall (M : Manager) (live : Mem) (retval : BitVec 64) (addr size : ℕ) : Option Manager :=
  match M.mem with
  | some T =>
    if addr ≠ 0 then
      (T.storeBytes addr size).map fun T =>
        { M with mem := some T }.emit (.result retval (some (addr, live.bytes addr size)))
    else some (M.emit (.result retval none))
  | none => some M

def exit (M : Manager) (live : Mem) (instret : BitVec 64) (rc : BitVec 32) : Manager :=
  match M.mem with
  | some _ => (M.emit (.exit rc)).breakHere live instret
  | none => M

/-! ## What the hook can do -/

theorem fetch_eq {M : Manager} {live : Mem} {x : Fetched} (hout : M.out = true) :
    M.fetch live x =
      ((M.beginHere x).2.fetch x.addr x.inst x.length).bind fun visit =>
        ((M.beginHere x).1.lookForBreak visit.1 x visit.2).bind fun found =>
          match found.2 with
          | some kind => some ((({ (M.beginHere x).1 with mem := some found.1 } : Manager).emit
              (.break x.addr kind)).breakHere live x.instret)
          | none => some (if x.inst = ECALL then
              ({ (M.beginHere x).1 with mem := some found.1 } : Manager).emit (.syscall x.addr)
            else { (M.beginHere x).1 with mem := some found.1 }) := by
  rw [fetch, if_pos hout]
  rfl

/-- The line that the hook starts for an ecall it does not break at. -/
def markItems (x : Fetched) : List LogItem := if x.inst = ECALL then [.syscall x.addr] else []

/-- The hook opens an interval, goes on in the open one, or closes it at a breakpoint. -/
theorem fetch_cases {M M' : Manager} {live : Mem} {x : Fetched} (hout : M.out = true)
    (h : M.fetch live x = some M') :
    (∃ T', M.mem = none ∧ M' = { M with
      beginInstret := x.instret, mem := some T',
      log := M.log ++ .begin x.addr x.ireg x.freg :: markItems x }) ∨
    (∃ T T', M.mem = some T ∧ M' = { M with mem := some T', log := M.log ++ markItems x }) ∨
    (∃ T T₁ T₂ firstVisit kind, M.mem = some T ∧
      T.fetch x.addr x.inst x.length = some (T₁, firstVisit) ∧
      M.period < x.instret - M.beginInstret ∧
      chooseBreak T₁ x firstVisit (x.instret - M.beginInstret) = some (T₂, some kind) ∧
      M' = { M with
        mem := none
        log := M.log ++ .break x.addr kind ::
          .file M.beginInstret x.instret T₂.pages.entries T₂.execs.entries ::
          storeItems T₂ live }) := by
  rw [fetch_eq hout] at h
  obtain ⟨⟨T₁, firstVisit⟩, hfetch, h⟩ := Option.bind_eq_some_iff.mp h
  obtain ⟨⟨T₂, found⟩, hfound, h⟩ := Option.bind_eq_some_iff.mp h
  dsimp only at hfetch hfound h
  cases hmem : M.mem with
  | none =>
    left
    have hbegin : M.beginHere x = ({ M with
        beginInstret := x.instret, log := M.log ++ [.begin x.addr x.ireg x.freg] }, .new) := by
      rw [beginHere, hmem]
    rw [hbegin] at hfound h
    -- an interval that has just begun covers no instruction
    have hnone : found = none := by
      rw [lookForBreak, if_neg] at hfound
      · exact (Prod.mk.inj (Option.some.inj hfound)).2.symm
      · rw [BitVec.sub_self]
        exact BitVec.not_lt_zero
    subst hnone
    refine ⟨T₂, rfl, ?_⟩
    rw [← Option.some.inj h, markItems]
    by_cases he : x.inst = ECALL
    · rw [if_pos he, if_pos he, emit, List.append_assoc]
      rfl
    · rw [if_neg he, if_neg he]
  | some T =>
    right
    have hbegin : M.beginHere x = (M, T) := by rw [beginHere, hmem]
    rw [hbegin] at hfetch hfound h
    cases found with
    | none =>
      left
      refine ⟨T, T₂, rfl, ?_⟩
      rw [← Option.some.inj h, markItems]
      by_cases he : x.inst = ECALL
      · rw [if_pos he, if_pos he]
        rfl
      · rw [if_neg he, if_neg he, List.append_nil]
    | some kind =>
      right
      have hlook : M.period < x.instret - M.beginInstret ∧
          chooseBreak T₁ x firstVisit (x.instret - M.beginInstret) = some (T₂, some kind) := by
        rw [lookForBreak] at hfound
        by_cases hp : M.period < x.instret - M.beginInstret
        · rw [if_pos hp] at hfound
          exact ⟨hp, hfound⟩
        · rw [if_neg hp] at hfound
          cases hfound
      refine ⟨T, T₁, T₂, firstVisit, kind, rfl, hfetch, hlook.1, hlook.2, ?_⟩
      rw [← Option.some.inj h]
      simp only [breakHere, emit, List.append_assoc, List.cons_append, List.nil_append]

end Manager

end RvCkpt
