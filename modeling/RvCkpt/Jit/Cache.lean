import Mathlib.Data.List.AList
import Mathlib.Data.Nat.Notation
import Mathlib.Algebra.Group.Nat.Defs
import RvCkpt.Lib.Runs

/-! # The code cache

The compiled traces of `src/src/jit/jit-runloop.h` with the tables that lead to them:
`trace_cache_prolog` and `trace_cache_entry`, the table that the emitted lookup
(`create_trace_lookup` of `src/src/jit/jit-emitter-rv64.h`) reads and fills, the jumps between
traces and the jumps that are to be patched.
-/

namespace RvCkpt.Jit
set_option autoImplicit false

abbrev Addr := BitVec 64

/-! ## Code -/

/-- What the emitter leaves in a `CodeHolder`: the label `start`, and for each jump that leaves
the trace the label behind it with the pc it goes to. -/
structure Code where
  size : ℕ
  start : ℕ
  jumps : List (ℕ × Addr)
  start_lt : start < size
  label_le : ∀ j ∈ jumps, 0 < j.1 ∧ j.1 ≤ size
  nodup : (jumps.map Prod.fst).Nodup

/-- A jump in compiled code. Where it has no target it goes to a trampoline, which looks `pc` up. -/
structure Jump where
  addr : Addr
  pc : Addr
  target : Option Addr
  deriving DecidableEq

/-- Compiled code that has not been released. -/
structure Trace where
  pc : Addr
  prolog : Addr
  entry : Addr
  size : ℕ
  jumps : List Jump
  deriving DecidableEq

/-- The displacement of a jump is stored as an `int`. -/
def displacement (d : Addr) : Addr := (d.truncate 32).signExtend 64

def Jump.patch (entry_addr fixup_addr : Addr) (j : Jump) : Jump :=
  if j.addr = fixup_addr then
    { j with target := some (fixup_addr + displacement (entry_addr - fixup_addr)) }
  else j

def Trace.patch (entry_addr fixup_addr : Addr) (t : Trace) : Trace :=
  { t with jumps := t.jumps.map (Jump.patch entry_addr fixup_addr) }

/-- The trace that control is in. -/
def Trace.runs (t : Trace) (loc : Addr × Addr) : Prop :=
  t.pc = loc.2 ∧ (loc.1 = t.prolog ∨ loc.1 = t.entry)

instance (t : Trace) (loc : Addr × Addr) : Decidable (t.runs loc) :=
  inferInstanceAs (Decidable (_ ∧ _))

/-- The two blocks have no byte in common. -/
def Apart (a : Addr) (m : ℕ) (b : Addr) (n : ℕ) : Prop :=
  a.toNat + m ≤ b.toNat ∨ b.toNat + n ≤ a.toNat

instance (a : Addr) (m : ℕ) (b : Addr) (n : ℕ) : Decidable (Apart a m b n) :=
  inferInstanceAs (Decidable (_ ∨ _))

/-! ## State -/

structure Cache where
  traces : List Trace
  trace_cache_prolog : AList fun _ : Addr => Addr
  trace_cache_entry : AList fun _ : Addr => Addr
  trace_pc : Addr → Addr
  trace_fn : Addr → Addr
  jmp_fixup_addrs : AList fun _ : Addr => List Addr
  /-- The address that was last jumped to and the pc it was jumped to for, where compiled code
  is running. -/
  control : Option (Addr × Addr)

namespace Cache

def init : Cache := ⟨[], ∅, ∅, fun _ => 0, fun _ => 0, ∅, none⟩

def trace_l1_size : ℕ := 1024

/-- The index that `create_trace_lookup` computes. -/
def l1 (pc : Addr) : Addr := pc &&& BitVec.ofNat 64 ((trace_l1_size - 1) <<< 1)

/-! ## Lookup -/

def lookup_trace (s : Cache) (pc : Addr) : Option Addr := s.trace_cache_entry.lookup pc

/-- The code of `create_trace_lookup`. -/
def lookup_trace_fast (s : Cache) (pc : Addr) : Cache :=
  if s.trace_pc (l1 pc) = pc then { s with control := some (s.trace_fn (l1 pc), pc) }
  else
    match s.lookup_trace pc with
    | some fn =>
      { s with
        trace_fn := Function.update s.trace_fn (l1 pc) fn
        trace_pc := Function.update s.trace_pc (l1 pc) pc
        control := some (fn, pc) }
    | none => { s with control := none }

/-! ## Compilation -/

def jit_apply_fixups (s : Cache) (pc entry_addr : Addr) : Cache :=
  match s.jmp_fixup_addrs.lookup pc with
  | some fixups =>
    { s with
      traces := fixups.foldl (fun ts a => ts.map (Trace.patch entry_addr a)) s.traces
      jmp_fixup_addrs := s.jmp_fixup_addrs.erase pc }
  | none => s

def stash (m : AList fun _ : Addr => List Addr) (j : Jump) : AList fun _ : Addr => List Addr :=
  m.insert j.pc (((m.lookup j.pc).getD []) ++ [j.addr])

def jit_stash_fixups (s : Cache) (jumps : List Jump) : Cache :=
  { s with jmp_fixup_addrs := jumps.foldl stash s.jmp_fixup_addrs }

/-- The jumps of a trace at its address: direct where there is a trace for the pc already. -/
def emit (s : Cache) (fn : Addr) (code : Code) : List Jump :=
  code.jumps.map fun j => ⟨fn + BitVec.ofNat 64 j.1, j.2, s.lookup_trace j.2⟩

/-- `jit_cache` of the code that was emitted for `pc`, which `rt.add` has put at `fn`. -/
def jit_cache (s : Cache) (pc : Addr) (code : Code) (fn : Addr) : Cache :=
  let jumps := s.emit fn code
  let entry_addr := fn + BitVec.ofNat 64 code.start
  let s' := { s with
    traces := ⟨pc, fn, entry_addr, code.size, jumps⟩ :: s.traces
    trace_cache_prolog := s.trace_cache_prolog.insert pc fn
    trace_cache_entry := s.trace_cache_entry.insert pc entry_addr }
  (s'.jit_apply_fixups pc entry_addr).jit_stash_fixups
    (jumps.filter fun j => j.target.isNone)

/-- What `rt.add` promises: memory that is not in use. -/
def Fresh (s : Cache) (code : Code) (fn : Addr) : Prop :=
  fn ≠ 0 ∧ fn.toNat + code.size < 2 ^ 64 ∧
    ∀ t ∈ s.traces, Apart fn code.size t.prolog t.size

instance (s : Cache) (code : Code) (fn : Addr) : Decidable (s.Fresh code fn) :=
  inferInstanceAs (Decidable (_ ∧ _ ∧ _))

def clear_trace_cache (s : Cache) : Cache :=
  { s with
    traces := s.traces.filter fun t =>
      !s.trace_cache_prolog.entries.any fun ent => ent.2 = t.prolog
    trace_cache_prolog := ∅
    trace_cache_entry := ∅ }

/-! ## Steps -/

inductive Event where
  /-- `jit_trace` where the code at `pc` is hot. -/
  | compile (pc : Addr) (code : Code) (fn : Addr)
  | fence_i
  /-- `jit_exec` -/
  | exec (pc : Addr)
  /-- A jump of the trace that is running is taken. -/
  | jump (j : Jump)
  /-- An indirect jump to `pc`. -/
  | indirect (pc : Addr)
  /-- The end of the trace, or a trap in it. -/
  | leave

/-- The run loop interprets only where no trace is cached; then the code there may be hot, or be
a `fence.i`. -/
def step (s : Cache) : Event → Option Cache
  | .compile pc code fn =>
    if s.control = none ∧ s.trace_cache_prolog.lookup pc = none ∧ s.Fresh code fn then
      some (s.jit_cache pc code fn)
    else none
  | .fence_i => if s.control = none then some s.clear_trace_cache else none
  | .exec pc =>
    match s.control, s.trace_cache_prolog.lookup pc with
    | none, some fn => some { s with control := some (fn, pc) }
    | _, _ => none
  | .jump j =>
    match s.control with
    | some loc =>
      if ∃ t ∈ s.traces, t.runs loc ∧ j ∈ t.jumps then
        match j.target with
        | some fn => some { s with control := some (fn, j.pc) }
        | none => some (s.lookup_trace_fast j.pc)
      else none
    | none => none
  | .indirect pc =>
    match s.control with
    | some _ => some (s.lookup_trace_fast pc)
    | none => none
  | .leave => if s.control ≠ none then some { s with control := none } else none

end Cache

end RvCkpt.Jit
