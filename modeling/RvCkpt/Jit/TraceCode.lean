import RvCkpt.Jit.FusedCorrect
import RvCkpt.Jit.Instret

/-! # The code of a trace

What `src/src/jit/jit-emitter-rv64.h` emits for a whole trace: the code of each operation, the
conditions and targets of its jumps, and the pc that is stored at its end.
-/

namespace RvCkpt.Jit
open Isa
set_option autoImplicit false

/-! ## The code -/

/-- A piece of the code, with what it needs to run. -/
inductive Chunk where
  | add (n : ℕ)
  | body (e : Entry)
  | access (e : Entry)
  /-- With the address that `ra` is compared with. -/
  | guard (e : Entry) (link_addr : BitVec 64)
  | cmp (e : Entry)
  | jcc (cond : Cond) (target : Target)
  | jmp (target : Target)
  | bind (pc : BitVec 64)
  | lookup (e : Entry)
  /-- What `end` emits: `term_pc` is stored, and the label `term` is behind that. -/
  | term (term_pc : BitVec 64)
  | ret

def Chunk.piece : Chunk → Piece
  | add n => .add n
  | body e => .body e
  | access e => .access e
  | guard e _ => .guard e
  | cmp e => .cmp e
  | jcc _ target => .jcc target
  | jmp target => .jmp target
  | bind pc => .bind pc
  | lookup e => .lookup e
  | term _ => .term
  | ret => .ret

/-- The condition of each branch, and its inverse. -/
def branchConds : BranchOp → Cond × Cond
  | .bne => (.ne, .e)
  | .beq => (.e, .ne)
  | .blt => (.l, .ge)
  | .bge => (.ge, .l)
  | .bltu => (.b, .ae)
  | .bgeu => (.ae, .b)

/-- The pc behind an operation that goes on to the next one. -/
def JitDecode.fall_pc (dec : JitDecode) : BitVec 64 :=
  match dec.op with
  | .rv _ => dec.cont_pc
  | _ => EmitterRv64.link_addr dec

theorem lawful_pc : LawfulBEq (BitVec 64) := inferInstance

attribute [local instance] lawful_pc

/-- The emitter while a trace is compiled. -/
structure Assembly where
  instret : ℕ
  labels : List (BitVec 64)
  callstack : List (BitVec 64)
  term_pc : BitVec 64
  code : List Chunk

namespace Assembly

def init : Assembly := ⟨0, [], [], 0, []⟩

def put (s : Assembly) (p : Chunk) : Assembly := { s with code := s.code ++ [p] }

def commit_instret (s : Assembly) : Assembly :=
  if 0 < s.instret then { s.put (.add s.instret) with instret := 0 } else s

variable (E : EmitterRv64) (lookup_trace_slow : BitVec 64 → Bool)

/-- `bf` holds if the branch is taken, and `ibf` if it is not. -/
def emit_branch (s : Assembly) (e : Entry) (bf ibf : Cond) : Assembly :=
  let outside := Emission.outside lookup_trace_slow
  let s := s.commit_instret.put (.cmp e)
  if e.dec.branch_pc ∈ s.labels ∧ e.dec.cont_pc ∈ s.labels then
    (s.put (.jcc bf (.label e.dec.branch_pc))).put (.jmp (.label e.dec.cont_pc))
  else if e.dec.brc ∧ e.dec.branch_pc ∈ s.labels then
    { (s.put (.jcc bf (.label e.dec.branch_pc))).put (.jmp (outside e.dec.cont_pc)) with term_pc := 0 }
  else if ¬ e.dec.brc ∧ e.dec.cont_pc ∈ s.labels then
    { (s.put (.jcc ibf (.label e.dec.cont_pc))).put (.jmp (outside e.dec.branch_pc)) with term_pc := 0 }
  else if e.dec.brc then
    { s.put (.jcc ibf (outside e.dec.cont_pc)) with term_pc := e.dec.branch_pc }
  else { s.put (.jcc bf (outside e.dec.branch_pc)) with term_pc := e.dec.cont_pc }

def emit_jal (s : Assembly) (e : Entry) : Assembly :=
  let s := if e.dec.rd = rv_ireg_ra then { s with callstack := e.dec.cont_pc :: s.callstack } else s
  { s.put (.body e) with term_pc := e.dec.branch_pc }

def emit_jalr (s : Assembly) (e : Entry) : Assembly × Bool :=
  let s := { s with term_pc := 0 }
  if e.dec.rd = rv_ireg_zero ∧ e.dec.rs1 = rv_ireg_ra ∧ s.callstack ≠ [] then
    ({ s with callstack := s.callstack.tail }.put (.guard e (s.callstack.headD 0)), true)
  else
    let s := s.commit_instret
    let s :=
      if e.dec.rd = rv_ireg_ra then { s with callstack := e.dec.cont_pc :: s.callstack } else s
    (s.put (.lookup e), false)

def emit_call (s : Assembly) (e : Entry) : Assembly :=
  { s with callstack := EmitterRv64.link_addr e.dec :: s.callstack, term_pc := e.dec.branch_pc }.put
    (.body e)

/-- The target of a branch gets a label. -/
def label (s : Assembly) (e : Entry) : Assembly :=
  if e.dec.brt then
    { s.commit_instret with labels := e.dec.pc :: s.labels }.put (.bind e.dec.pc)
  else s

/-- The switch of `emit`. -/
def emitOp (s : Assembly) (e : Entry) : Assembly × Bool :=
  match e.dec.op with
  | .rv .bne => (s.emit_branch lookup_trace_slow e .ne .e, true)
  | .rv .beq => (s.emit_branch lookup_trace_slow e .e .ne, true)
  | .rv .blt => (s.emit_branch lookup_trace_slow e .l .ge, true)
  | .rv .bge => (s.emit_branch lookup_trace_slow e .ge .l, true)
  | .rv .bltu => (s.emit_branch lookup_trace_slow e .b .ae, true)
  | .rv .bgeu => (s.emit_branch lookup_trace_slow e .ae .b, true)
  | .rv .jal => (s.emit_jal e, true)
  | .rv .jalr => s.emit_jalr e
  | .call => (s.emit_call e, true)
  | _ =>
    ({ s with term_pc := e.dec.fall_pc }.put
      (if Emission.calls E e.dec then .access e else .body e), true)

/-- `emit` of the emitter. -/
def emit (s : Assembly) (e : Entry) : Assembly × Bool :=
  if e.dec.pc ∈ s.labels then (s, false)
  else
    let s := s.label e
    match instretOf e.dec.op with
    | none => (s, false)
    | some n => { s with instret := s.instret + n }.emitOp E lookup_trace_slow e

/-- `end` and `emit_epilog`. -/
def emit_epilog (s : Assembly) : Assembly := (s.put (.term s.term_pc)).commit_instret.put .ret

def emitAll (trace : List Entry) : Assembly :=
  trace.foldl (fun s e => (s.emit E lookup_trace_slow e).1) init

/-! ## What is counted -/

/-- What the count of instructions depends on. -/
def emission (s : Assembly) : Emission := ⟨s.instret, s.labels, s.callstack, s.code.map Chunk.piece⟩

theorem emission_put (s : Assembly) (p : Chunk) : (s.put p).emission = s.emission.put p.piece := by
  simp [emission, put, Emission.put]

theorem emission_commit (s : Assembly) : s.commit_instret.emission = s.emission.commit_instret := by
  unfold commit_instret Emission.commit_instret
  rw [show s.emission.instret = s.instret from rfl]
  split
  · simp [emission, put, Emission.put, Chunk.piece]
  · rfl

theorem emission_branch (s : Assembly) (e : Entry) (bf ibf : Cond) :
    (s.emit_branch lookup_trace_slow e bf ibf).emission = s.emission.emit_branch lookup_trace_slow e := by
  have hcmp : (s.commit_instret.put (.cmp e)).emission = s.emission.commit_instret.put (.cmp e) := by
    rw [emission_put, emission_commit]
    rfl
  unfold emit_branch Emission.emit_branch
  dsimp only
  rw [← hcmp]
  generalize s.commit_instret.put (.cmp e) = s'
  have hjumps : ∀ (cond : Cond) (target target' : Target),
      ((s'.put (.jcc cond target)).put (.jmp target')).emission =
        (s'.emission.put (.jcc target)).put (.jmp target') := by
    intro cond target target'
    rw [emission_put, emission_put]
    rfl
  rw [show s'.emission.labels = s'.labels from rfl]
  split
  · exact hjumps _ _ _
  split
  · exact hjumps _ _ _
  split
  · exact hjumps _ _ _
  split
  · exact emission_put s' _
  · exact emission_put s' _

theorem emission_jal (s : Assembly) (e : Entry) : (s.emit_jal e).emission = s.emission.emit_jal e := by
  unfold emit_jal Emission.emit_jal
  dsimp only
  split
  · exact emission_put { s with callstack := e.dec.cont_pc :: s.callstack } (.body e)
  · exact emission_put s (.body e)

theorem emission_jalr (s : Assembly) (e : Entry) :
    (s.emit_jalr e).1.emission = (s.emission.emit_jalr e).1 := by
  unfold emit_jalr Emission.emit_jalr
  dsimp only
  rw [show s.emission.callstack = s.callstack from rfl]
  split
  · exact emission_put _ _
  · dsimp only
    have hcommit : ({ s with term_pc := 0 } : Assembly).commit_instret.emission =
        s.emission.commit_instret := emission_commit { s with term_pc := 0 }
    rw [← hcommit]
    split
    · exact emission_put _ _
    · exact emission_put _ _

theorem emission_label (s : Assembly) (e : Entry) :
    (s.label e).emission = if e.dec.brt then
      { s.emission.commit_instret with labels := e.dec.pc :: s.labels }.put (.bind e.dec.pc)
    else s.emission := by
  unfold label
  split
  · rw [emission_put, ← emission_commit]
    rfl
  · rfl

theorem emitOp_branch {s : Assembly} {e : Entry} {op : BranchOp} (hop : branchOp e.dec.op = some op) :
    (s.emitOp E lookup_trace_slow e).1 =
      s.emit_branch lookup_trace_slow e (branchConds op).1 (branchConds op).2 := by
  unfold branchOp at hop
  unfold emitOp
  split at hop
  all_goals first
    | cases hop
      rename_i hdec
      rw [hdec]
      rfl
    | cases hop

theorem emitOp_straight {s : Assembly} {e : Entry} (hbranch : branchOp e.dec.op = none)
    (hop : e.dec.op ≠ .rv .jal ∧ e.dec.op ≠ .rv .jalr ∧ e.dec.op ≠ .call) :
    (s.emitOp E lookup_trace_slow e).1 = { s with term_pc := e.dec.fall_pc }.put
      (if Emission.calls E e.dec then .access e else .body e) := by
  unfold emitOp
  split
  case h_10 => rfl
  case h_7 hdec => exact absurd hdec hop.1
  case h_8 hdec => exact absurd hdec hop.2.1
  case h_9 hdec => exact absurd hdec hop.2.2
  all_goals
    rename_i hdec
    rw [hdec] at hbranch
    cases hbranch

end Assembly

/-! ### The switch of the count -/

namespace Emission
variable {E : EmitterRv64} {lookup_trace_slow : BitVec 64 → Bool} {s : Emission} {e : Entry}

/-- The emitter in front of the switch. -/
def labelled (s : Emission) (e : Entry) : Emission :=
  let s' := if e.dec.brt then
      { s.commit_instret with labels := e.dec.pc :: s.labels }.put (.bind e.dec.pc)
    else s
  { s' with instret := s'.instret + e.insts.length }

section
variable (h : e.dec.pc ∉ s.labels)
include h

theorem emit_branchOp {op : BranchOp} (hop : branchOp e.dec.op = some op) :
    (s.emit E lookup_trace_slow e).1 = (s.labelled e).emit_branch lookup_trace_slow e := by
  rw [emit, if_neg h, e.covers.instretOf]
  unfold branchOp at hop
  split at hop
  all_goals first
    | cases hop
      rename_i hdec
      rw [hdec]
      rfl
    | cases hop

theorem emit_jalOp (hop : e.dec.op = .rv .jal) :
    (s.emit E lookup_trace_slow e).1 = (s.labelled e).emit_jal e := by
  rw [emit, if_neg h, e.covers.instretOf, hop]
  rfl

theorem emit_jalrOp (hop : e.dec.op = .rv .jalr) :
    (s.emit E lookup_trace_slow e).1 = ((s.labelled e).emit_jalr e).1 := by
  rw [emit, if_neg h, e.covers.instretOf, hop]
  rfl

theorem emit_callOp (hop : e.dec.op = .call) :
    (s.emit E lookup_trace_slow e).1 = (s.labelled e).emit_call e := by
  rw [emit, if_neg h, e.covers.instretOf, hop]
  rfl

theorem emit_straight (hbranch : branchOp e.dec.op = none)
    (hop : e.dec.op ≠ .rv .jal ∧ e.dec.op ≠ .rv .jalr ∧ e.dec.op ≠ .call) :
    (s.emit E lookup_trace_slow e).1 =
      (s.labelled e).put (if calls E e.dec then .access e else .body e) := by
  rw [emit, if_neg h, e.covers.instretOf]
  dsimp only
  split
  case h_10 => rfl
  case h_7 hdec => exact absurd hdec hop.1
  case h_8 hdec => exact absurd hdec hop.2.1
  case h_9 hdec => exact absurd hdec hop.2.2
  all_goals
    rename_i hdec
    rw [hdec] at hbranch
    cases hbranch

end

end Emission

namespace Assembly
variable (E : EmitterRv64) (lookup_trace_slow : BitVec 64 → Bool)

theorem emission_emit (s : Assembly) (e : Entry) :
    (s.emit E lookup_trace_slow e).1.emission = (s.emission.emit E lookup_trace_slow e).1 := by
  by_cases hlabel : e.dec.pc ∈ s.labels
  · have hold : e.dec.pc ∈ s.emission.labels := hlabel
    rw [emit, if_pos hlabel, Emission.emit, if_pos hold]
  have hnew : e.dec.pc ∉ s.emission.labels := hlabel
  have hswitch : (s.emit E lookup_trace_slow e).1 =
      ({ s.label e with instret := (s.label e).instret + e.insts.length }.emitOp E
        lookup_trace_slow e).1 := by
    rw [emit, if_neg hlabel, e.covers.instretOf]
  have hlabelled : ({ s.label e with instret := (s.label e).instret + e.insts.length } :
      Assembly).emission = s.emission.labelled e := by
    unfold Emission.labelled
    rw [show s.emission.labels = s.labels from rfl, ← emission_label]
    rfl
  rw [hswitch]
  generalize ({ s.label e with instret := (s.label e).instret + e.insts.length } : Assembly) = s₁
    at hlabelled
  cases hbranch : branchOp e.dec.op with
  | some op =>
    rw [emitOp_branch E lookup_trace_slow hbranch, Emission.emit_branchOp hnew hbranch, ← hlabelled]
    exact emission_branch lookup_trace_slow s₁ e _ _
  | none =>
    by_cases hjal : e.dec.op = .rv .jal
    · rw [Emission.emit_jalOp hnew hjal, ← hlabelled, emitOp, hjal]
      exact emission_jal s₁ e
    by_cases hjalr : e.dec.op = .rv .jalr
    · rw [Emission.emit_jalrOp hnew hjalr, ← hlabelled, emitOp, hjalr]
      exact emission_jalr s₁ e
    by_cases hcall : e.dec.op = .call
    · rw [Emission.emit_callOp hnew hcall, ← hlabelled, emitOp, hcall]
      exact emission_put _ (.body e)
    have hpiece : (if Emission.calls E e.dec then Chunk.access e else .body e).piece =
        if Emission.calls E e.dec then Piece.access e else .body e := by
      split <;> rfl
    rw [emitOp_straight E lookup_trace_slow hbranch ⟨hjal, hjalr, hcall⟩,
      Emission.emit_straight hnew hbranch ⟨hjal, hjalr, hcall⟩, ← hlabelled, ← hpiece]
    exact emission_put _ _

theorem emission_foldl (s : Assembly) (trace : List Entry) :
    (trace.foldl (fun s e => (s.emit E lookup_trace_slow e).1) s).emission =
      trace.foldl (fun s e => (s.emit E lookup_trace_slow e).1) s.emission := by
  induction trace generalizing s with
  | nil => rfl
  | cons e trace ih =>
    rw [List.foldl_cons, List.foldl_cons, ih, emission_emit]

theorem emission_epilog (s : Assembly) : s.emit_epilog.emission = s.emission.emit_epilog := by
  rw [emit_epilog, Emission.emit_epilog, emission_put, emission_commit, emission_put]
  rfl

end Assembly

namespace CompiledTrace
variable (t : CompiledTrace)

/-- The emitter after the trace, before `end`. -/
def assembly : Assembly := .emitAll t.emitter t.lookup_trace_slow t.trace

def chunks : List Chunk := t.assembly.emit_epilog.code

theorem emission_assembly : t.assembly.emission = t.emission :=
  Assembly.emission_foldl t.emitter t.lookup_trace_slow Assembly.init t.trace

/-- The code is the one that is counted. -/
theorem chunks_piece : t.chunks.map Chunk.piece = t.code := by
  rw [code, ← emission_assembly, ← Assembly.emission_epilog]
  rfl

theorem piece_at {pos : ℕ} {p : Chunk} (h : t.chunks[pos]? = some p) :
    t.code[pos]? = some p.piece := by
  rw [← chunks_piece, List.getElem?_map, h]
  rfl

theorem chunk_at {pos : ℕ} {p : Piece} (h : t.code[pos]? = some p) :
    ∃ q, t.chunks[pos]? = some q ∧ q.piece = p := by
  rw [← chunks_piece, List.getElem?_map, Option.map_eq_some_iff] at h
  exact h

end CompiledTrace

end RvCkpt.Jit
