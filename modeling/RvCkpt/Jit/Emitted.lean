import RvCkpt.Jit.Covers
import RvCkpt.Jit.LoadStore

/-! # Counting in compiled code

What `src/src/jit/jit-emitter-rv64.h` emits for a trace, as far as it decides where control goes and
what is added to the processor's `instret`, with `update_instret` set.
-/

namespace RvCkpt.Jit
open Asm Priv
set_option autoImplicit false

/-- An operation of a trace with the guest instructions that it stands for. -/
structure Entry where
  dec : JitDecode
  insts : List JitDecode
  covers : Covers dec insts

/-- The operations of a trace that is recorded. -/
theorem Tracer.Covered.entries {t : Tracer} (h : t.Covered) :
    ∃ trace : List Entry, trace.map Entry.dec = t.trace := by
  have hall : ∀ decs : List JitDecode, (∀ dec ∈ decs, ∃ insts, Covers dec insts) →
      ∃ trace : List Entry, trace.map Entry.dec = decs := by
    intro decs
    induction decs with
    | nil => exact fun _ => ⟨[], rfl⟩
    | cons dec decs ih =>
      intro hdecs
      obtain ⟨insts, hinsts⟩ := hdecs dec List.mem_cons_self
      obtain ⟨trace, htrace⟩ := ih fun d hd => hdecs d (List.mem_cons_of_mem _ hd)
      exact ⟨⟨dec, insts, hinsts⟩ :: trace, congrArg (dec :: ·) htrace⟩
  exact hall t.trace h

/-- An instruction that is not fused. -/
def Entry.single (dec : JitDecode) (op : Asm.Op) (hop : dec.op = .rv op)
    (hsupported : dec.op ∈ jit_isa_rv64) : Entry :=
  ⟨dec, [dec], .one hop hsupported rfl rfl⟩

/-- Where a jump goes: to a label of the trace, to another trace that existed when this one was
compiled, or to a trampoline that looks for one. -/
inductive Target where
  | label (pc : BitVec 64)
  | entry (pc : BitVec 64)
  | tramp (pc : BitVec 64)

/-- A piece of the code. -/
inductive Piece where
  /-- `add qword [instret], n` -/
  | add (n : ℕ)
  /-- The code of an operation that goes on to the next one. -/
  | body (e : Entry)
  /-- The code of a load or store by a call, which goes to `term` when the access fails. -/
  | access (e : Entry)
  /-- A return whose target is assumed; it goes to `term` when `ra` holds something else. -/
  | guard (e : Entry)
  /-- The comparison of a branch. -/
  | cmp (e : Entry)
  | jcc (target : Target)
  | jmp (target : Target)
  | bind (pc : BitVec 64)
  /-- An indirect jump to `lookup_trace_fast`. -/
  | lookup (e : Entry)
  | term
  | ret

/-- The emitter's state while a trace is compiled. -/
structure Emission where
  instret : ℕ
  labels : List (BitVec 64)
  callstack : List (BitVec 64)
  code : List Piece

namespace Emission

/-- After `emit_prolog` and `begin`. -/
def init : Emission := ⟨0, [], [], []⟩

def put (s : Emission) (p : Piece) : Emission := { s with code := s.code ++ [p] }

def commit_instret (s : Emission) : Emission :=
  if 0 < s.instret then { s.put (.add s.instret) with instret := 0 } else s

variable (E : EmitterRv64) (lookup_trace_slow : BitVec 64 → Bool)

/-- Where a jump out of the trace goes. -/
def outside (pc : BitVec 64) : Target := if lookup_trace_slow pc then .entry pc else .tramp pc

def emit_branch (s : Emission) (e : Entry) : Emission :=
  let s := s.commit_instret.put (.cmp e)
  if e.dec.branch_pc ∈ s.labels ∧ e.dec.cont_pc ∈ s.labels then
    (s.put (.jcc (.label e.dec.branch_pc))).put (.jmp (.label e.dec.cont_pc))
  else if e.dec.brc ∧ e.dec.branch_pc ∈ s.labels then
    (s.put (.jcc (.label e.dec.branch_pc))).put (.jmp (outside lookup_trace_slow e.dec.cont_pc))
  else if ¬ e.dec.brc ∧ e.dec.cont_pc ∈ s.labels then
    (s.put (.jcc (.label e.dec.cont_pc))).put (.jmp (outside lookup_trace_slow e.dec.branch_pc))
  else if e.dec.brc then s.put (.jcc (outside lookup_trace_slow e.dec.cont_pc))
  else s.put (.jcc (outside lookup_trace_slow e.dec.branch_pc))

def emit_jal (s : Emission) (e : Entry) : Emission :=
  let s := if e.dec.rd = rv_ireg_ra then { s with callstack := e.dec.cont_pc :: s.callstack } else s
  s.put (.body e)

def emit_jalr (s : Emission) (e : Entry) : Emission × Bool :=
  if e.dec.rd = rv_ireg_zero ∧ e.dec.rs1 = rv_ireg_ra ∧ s.callstack ≠ [] then
    ({ s with callstack := s.callstack.tail }.put (.guard e), true)
  else
    let s := s.commit_instret
    let s :=
      if e.dec.rd = rv_ireg_ra then { s with callstack := e.dec.cont_pc :: s.callstack } else s
    (s.put (.lookup e), false)

def emit_call (s : Emission) (e : Entry) : Emission :=
  { s with callstack := (e.dec.pc + e.dec.sz.zeroExtend 64) :: s.callstack }.put (.body e)

/-- The loads and stores that call a function, which can report a fault. A load to `x0` is not
made. -/
def calls (dec : JitDecode) : Bool :=
  E.use_mmu &&
    match dec.op with
    | .rv .ld | .rv .lw | .rv .lwu | .rv .lh | .rv .lhu | .rv .lb | .rv .lbu | .auipc_lw
    | .auipc_ld => dec.rd != rv_ireg_zero
    | .rv .sd | .rv .sw | .rv .sh | .rv .sb => true
    | _ => false

/-- `emit` of the emitter. -/
def emit (s : Emission) (e : Entry) : Emission × Bool :=
  if e.dec.pc ∈ s.labels then (s, false)
  else
    let s :=
      if e.dec.brt then
        { s.commit_instret with labels := e.dec.pc :: s.labels }.put (.bind e.dec.pc)
      else s
    match instretOf e.dec.op with
    | none => (s, false)
    | some n =>
      let s := { s with instret := s.instret + n }
      match e.dec.op with
      | .rv .bne | .rv .beq | .rv .blt | .rv .bge | .rv .bltu | .rv .bgeu =>
        (s.emit_branch lookup_trace_slow e, true)
      | .rv .jal => (s.emit_jal e, true)
      | .rv .jalr => s.emit_jalr e
      | .call => (s.emit_call e, true)
      | _ => (s.put (if calls E e.dec then .access e else .body e), true)

/-- `end`, which binds `term`, and `emit_epilog`. -/
def emit_epilog (s : Emission) : Emission := (s.put .term).commit_instret.put .ret

/-- The loop of `jit_trace` over a trace, which does not look at what `emit` returns. -/
def emitAll (trace : List Entry) : Emission :=
  trace.foldl (fun s e => (s.emit E lookup_trace_slow e).1) init

end Emission

end RvCkpt.Jit
