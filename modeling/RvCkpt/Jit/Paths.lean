import RvCkpt.Jit.Emitted

/-! # Paths through compiled code

What control can do in the traces of the cache, from the entry of one of them to the return to the
run loop. Branches go either way, assumed returns and accesses may fail, and a trace that is left
goes on in another one or returns.
-/

namespace RvCkpt.Jit
open Asm Priv
set_option autoImplicit false

/-- How many guest instructions a trace stands for. -/
def traceSize (trace : List Entry) : ℕ := (trace.map fun e => e.insts.length).sum

/-- A trace of the cache. The emitter's count is an `int`, and no trace is too long for it. -/
structure CompiledTrace where
  pc : BitVec 64
  emitter : EmitterRv64
  lookup_trace_slow : BitVec 64 → Bool
  trace : List Entry
  short : traceSize trace < 2 ^ 31

namespace CompiledTrace

/-- The emitter after the trace, before `end`. -/
def emission (t : CompiledTrace) : Emission := .emitAll t.emitter t.lookup_trace_slow t.trace

def code (t : CompiledTrace) : List Piece := t.emission.emit_epilog.code

/-- Where `end` binds `term`. -/
def term (t : CompiledTrace) : ℕ := t.emission.code.length

end CompiledTrace

structure Exec where
  trace : CompiledTrace
  pos : ℕ
  instret : BitVec 64
  /-- The guest instructions that have been retired. -/
  retired : ℕ
  /-- Where the path has gone to `term` from. -/
  failed : Option ℕ
  returned : Bool

namespace Exec

/-- At the entry of a trace. -/
def start (t : CompiledTrace) (instret : BitVec 64) : Exec := ⟨t, 0, instret, 0, none, false⟩

/-- The next piece of the code. -/
def At (s : Exec) (p : Piece) : Prop := s.returned = false ∧ s.trace.code[s.pos]? = some p

def next (s : Exec) : Exec := { s with pos := s.pos + 1 }

def retire (s : Exec) (e : Entry) : Exec := { s with retired := s.retired + e.insts.length }

/-- `jmp term` at an operation that is not retired. -/
def fail (s : Exec) : Exec := { s with pos := s.trace.term, failed := some s.pos }

def enter (s : Exec) (t : CompiledTrace) : Exec := { s with trace := t, pos := 0 }

def leave (s : Exec) : Exec := { s with returned := true }

end Exec

/-- The trace that a jump out of a trace finds. -/
def Target.Finds (t : CompiledTrace) : Target → Prop
  | label _ => False
  | entry pc | tramp pc => t.pc = pc

/-- A step of control, in the traces of a cache. -/
inductive Step (cache : Set CompiledTrace) : Exec → Exec → Prop
  | add {s : Exec} {n : ℕ} (h : s.At (.add n)) :
    Step cache s { s.next with instret := s.instret + BitVec.ofNat 64 n }
  | body {s : Exec} {e : Entry} (h : s.At (.body e)) : Step cache s (s.retire e).next
  | access {s : Exec} {e : Entry} (h : s.At (.access e)) : Step cache s (s.retire e).next
  | fault {s : Exec} {e : Entry} (h : s.At (.access e)) : Step cache s s.fail
  | guard {s : Exec} {e : Entry} (h : s.At (.guard e)) : Step cache s (s.retire e).next
  | astray {s : Exec} {e : Entry} (h : s.At (.guard e)) : Step cache s s.fail
  | cmp {s : Exec} {e : Entry} (h : s.At (.cmp e)) : Step cache s (s.retire e).next
  | bind {s : Exec} {pc : BitVec 64} (h : s.At (.bind pc)) : Step cache s s.next
  | notTaken {s : Exec} {target : Target} (h : s.At (.jcc target)) : Step cache s s.next
  | loop {s : Exec} {pc : BitVec 64} {pos : ℕ}
    (h : s.At (.jcc (.label pc)) ∨ s.At (.jmp (.label pc)))
    (hpos : s.trace.code[pos]? = some (.bind pc)) : Step cache s { s with pos := pos }
  | chain {s : Exec} {target : Target} {t : CompiledTrace}
    (h : s.At (.jcc target) ∨ s.At (.jmp target)) (ht : t ∈ cache) (hfinds : target.Finds t) :
    Step cache s (s.enter t)
  | miss {s : Exec} {pc : BitVec 64} (h : s.At (.jcc (.tramp pc)) ∨ s.At (.jmp (.tramp pc))) :
    Step cache s s.leave
  | jump {s : Exec} {e : Entry} {t : CompiledTrace} (h : s.At (.lookup e)) (ht : t ∈ cache) :
    Step cache s ((s.retire e).enter t)
  | jumpMiss {s : Exec} {e : Entry} (h : s.At (.lookup e)) : Step cache s (s.retire e).leave
  | term {s : Exec} (h : s.At .term) : Step cache s s.next
  | ret {s : Exec} (h : s.At .ret) : Step cache s s.leave

end RvCkpt.Jit
