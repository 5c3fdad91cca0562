import RvCkpt.Jit.TraceCode

/-! # Running traces

The host in the traces of a cache: what each piece of the code does to the processor, how control
goes from one trace to another, and what is saved when it returns to the run loop.
-/

namespace RvCkpt.Jit
open Isa
set_option autoImplicit false

/-! ## The code of an operation -/

/-- The code of an operation that goes on to the next one and does not access memory. -/
def emitBody (E : EmitterRv64) (dec : JitDecode) : Option (List ArithIns) :=
  match dec.guestOp with
  | some (.alu op) => some (emitAlu E op dec.operands)
  | some .jal => some (E.emit_jal dec)
  | some _ => none
  | none => emitFused E dec

/-- The load or store that an operation is. -/
def JitDecode.dataOp (dec : JitDecode) : Option DataOp :=
  match dec.guestOp with
  | some (.data op) => some op
  | _ => none

/-! ## Entering and leaving -/

namespace EmitterRv64
variable (E : EmitterRv64)

/-- The guest registers that the host holds, in the order of `emit_prolog`. -/
def hostRegs : List (Reg × Gpr) :=
  [(Isa.rv_ireg_ra, rdx), (rv_ireg_sp, rbx), (rv_ireg_t0, rsi), (rv_ireg_t1, rdi),
    (rv_ireg_a0, r8), (rv_ireg_a1, r9), (rv_ireg_a2, r10), (rv_ireg_a3, r11), (rv_ireg_a4, r12),
    (rv_ireg_a5, r13), (rv_ireg_a6, r14), (rv_ireg_a7, r15)]

def load (l : List (Reg × Gpr)) : List Ins :=
  if E.memory_registers then []
  else l.map fun p => .mov .qword (.reg p.2) (rbp_reg p.1)

def save (l : List (Reg × Gpr)) : List Ins :=
  if E.memory_registers then []
  else l.map fun p => .mov .qword (rbp_reg p.1) (.reg p.2)

def emit_prolog : List Ins := E.load hostRegs

/-- What `emit_epilog` emits behind the count. -/
def emitSave : List Ins := E.save hostRegs

end EmitterRv64

/-! ## Looking up a trace -/

/-- The index into the table of traces, `(trace_l1_size - 1) << 1` at most. -/
def lookupMask : BitVec 64 := 2046

namespace Compiler
variable {σ : Type} (K : Compiler σ) (junk : Gpr → BitVec 64)

def exec (c : Cpu σ) (code : List Ins) : Cpu σ := c.execAll K.mmu junk code

def maskRcx (c : Cpu σ) : Cpu σ := c.setGpr rcx (c.gpr rcx &&& lookupMask)

/-- `create_trace_lookup`, up to the comparison with the table. A trace that the table holds is
entered from here. -/
def lookupFast (c : Cpu σ) : Cpu σ :=
  maskRcx (K.exec junk c [.mov .qword (.reg rcx) (.field .pc), .mov .qword (.reg rax) (.reg rcx)])

/-- The registers that are saved around the call. -/
def lookupRegs : List (Reg × Gpr) := EmitterRv64.hostRegs.take 8

theorem lawful_gpr : LawfulBEq Gpr := inferInstance

attribute [local instance] lawful_gpr

/-- Behind the call of `lookup_trace_slow`, which leaves anything in the registers that it may use. -/
def lookupSlow (c : Cpu σ) : Cpu σ :=
  let c := K.exec junk (K.lookupFast junk c)
    (K.emitter.save lookupRegs ++ [.mov .qword (.reg rdi) (.reg rax)])
  { c with gpr := fun r => if r ∈ volatile then junk r else c.gpr r }

/-- A trace that is found is entered from here. -/
def lookupFound (c : Cpu σ) : Cpu σ :=
  K.exec junk
    (maskRcx (K.exec junk (K.lookupSlow junk c)
      [.mov .qword (.reg rcx) (.field .pc), .mov .qword (.reg rdx) (.reg rcx)]))
    (K.emitter.load lookupRegs)

/-- Without a trace the rest of the registers is saved, and the run loop goes on. -/
def lookupFail (c : Cpu σ) : Cpu σ :=
  K.exec junk (K.lookupSlow junk c) (K.emitter.save (EmitterRv64.hostRegs.drop 8))

/-- The ways into a trace that is looked up. -/
inductive Enters : Cpu σ → Cpu σ → Prop
  | fast (junk : Gpr → BitVec 64) (c : Cpu σ) : Enters c (K.lookupFast junk c)
  | slow (junk : Gpr → BitVec 64) (c : Cpu σ) : Enters c (K.lookupFound junk c)

/-- `emit_pc` -/
def storePc (c : Cpu σ) (pc : BitVec 64) : Cpu σ := K.run junk c (EmitterRv64.emit_pc pc)

end Compiler

/-! ## Steps -/

/-- The host in a trace. -/
structure Machine (σ : Type) where
  exec : Exec
  cpu : Cpu σ
  flags : Option Flags

namespace Machine
variable {σ : Type}

/-- The trace is called by the run loop. -/
def call (K : Compiler σ) (t : CompiledTrace) (instret : BitVec 64) (c : Cpu σ) : Machine σ :=
  ⟨.start t instret, K.exec (fun _ => 0) c K.emitter.emit_prolog, none⟩

/-- The next piece of the code. -/
def At (m : Machine σ) (p : Chunk) : Prop :=
  m.exec.returned = false ∧ m.exec.trace.chunks[m.exec.pos]? = some p

/-- A jump is made. -/
def Goes (m : Machine σ) (target : Target) : Prop :=
  m.At (.jmp target) ∨
    ∃ cond f, m.At (.jcc cond target) ∧ m.flags = some f ∧ cond.holds f = true

end Machine

/-- A step of the host, in the traces of a cache. -/
inductive HostStep {σ : Type} (K : Compiler σ) (cache : Set CompiledTrace) :
    Machine σ → Machine σ → Prop
  | add {m : Machine σ} {n : ℕ} (h : m.At (.add n)) :
    HostStep K cache m
      ⟨{ m.exec.next with instret := m.exec.instret + BitVec.ofNat 64 n }, m.cpu, none⟩
  | body {m : Machine σ} {e : Entry} {code : List ArithIns} {c : Cpu σ} {f : Option Flags}
    (junk : Gpr → BitVec 64) (h : m.At (.body e)) (hcode : emitBody K.emitter e.dec = some code)
    (hrun : HostState.run K.mmu junk code ⟨m.cpu, m.flags, .run⟩ = ⟨c, f, .run⟩) :
    HostStep K cache m ⟨(m.exec.retire e).next, c, f⟩
  | data {m : Machine σ} {e : Entry} {op : DataOp} (junk : Gpr → BitVec 64)
    (h : m.At (.body e) ∨ m.At (.access e)) (hop : e.dec.dataOp = some op)
    (hrun : (K.run junk m.cpu (emitData K.emitter op e.dec.operands)).control = .run) :
    HostStep K cache m
      ⟨(m.exec.retire e).next, K.run junk m.cpu (emitData K.emitter op e.dec.operands), none⟩
  | fault {m : Machine σ} {e : Entry} {op : DataOp} (junk : Gpr → BitVec 64)
    (h : m.At (.access e)) (hop : e.dec.dataOp = some op)
    (hterm : (K.run junk m.cpu (emitData K.emitter op e.dec.operands)).control = .term) :
    HostStep K cache m
      ⟨m.exec.fail,
        { K.run junk m.cpu (emitData K.emitter op e.dec.operands) with control := .run }, none⟩
  | guard {m : Machine σ} {e : Entry} {link_addr : BitVec 64} {c : Cpu σ} {f : Flags}
    (junk : Gpr → BitVec 64) (h : m.At (.guard e link_addr))
    (hrun : HostState.run K.mmu junk (K.emitter.emitGuard e.dec.operands.rs1 link_addr)
      ⟨m.cpu, m.flags, .run⟩ = ⟨c, some f, .run⟩) (hf : Cond.ne.holds f = false) :
    HostStep K cache m ⟨(m.exec.retire e).next, c, some f⟩
  | astray {m : Machine σ} {e : Entry} {link_addr : BitVec 64} {c : Cpu σ} {f : Flags}
    (junk : Gpr → BitVec 64) (h : m.At (.guard e link_addr))
    (hrun : HostState.run K.mmu junk (K.emitter.emitGuard e.dec.operands.rs1 link_addr)
      ⟨m.cpu, m.flags, .run⟩ = ⟨c, some f, .run⟩) (hf : Cond.ne.holds f = true) :
    HostStep K cache m ⟨m.exec.fail, K.storePc junk c e.dec.pc, none⟩
  | cmp {m : Machine σ} {e : Entry} {c : Cpu σ} {f : Flags} (junk : Gpr → BitVec 64)
    (h : m.At (.cmp e))
    (hrun : HostState.run K.mmu junk (K.emitter.emit_cmp e.dec.operands)
      ⟨m.cpu, m.flags, .run⟩ = ⟨c, some f, .run⟩) :
    HostStep K cache m ⟨(m.exec.retire e).next, c, some f⟩
  | bind {m : Machine σ} {pc : BitVec 64} (h : m.At (.bind pc)) :
    HostStep K cache m ⟨m.exec.next, m.cpu, m.flags⟩
  | notTaken {m : Machine σ} {cond : Cond} {target : Target} {f : Flags}
    (h : m.At (.jcc cond target)) (hflags : m.flags = some f) (hf : cond.holds f = false) :
    HostStep K cache m ⟨m.exec.next, m.cpu, m.flags⟩
  | loop {m : Machine σ} {pc : BitVec 64} {pos : ℕ} (h : m.Goes (.label pc))
    (hpos : m.exec.trace.chunks[pos]? = some (.bind pc)) :
    HostStep K cache m ⟨{ m.exec with pos := pos }, m.cpu, m.flags⟩
  | chain {m : Machine σ} {target : Target} {t : CompiledTrace} (h : m.Goes target)
    (ht : t ∈ cache) (hfinds : target.Finds t) :
    HostStep K cache m ⟨m.exec.enter t, m.cpu, m.flags⟩
  | tramp {m : Machine σ} {pc : BitVec 64} {t : CompiledTrace} {c : Cpu σ}
    (junk : Gpr → BitVec 64) (h : m.Goes (.tramp pc)) (ht : t ∈ cache)
    (hpc : t.pc = (K.storePc junk m.cpu pc).field .pc)
    (hc : K.Enters (K.storePc junk m.cpu pc) c) :
    HostStep K cache m ⟨m.exec.enter t, c, none⟩
  | miss {m : Machine σ} {pc : BitVec 64} (junk : Gpr → BitVec 64) (h : m.Goes (.tramp pc)) :
    HostStep K cache m ⟨m.exec.leave, K.lookupFail junk (K.storePc junk m.cpu pc), none⟩
  | jump {m : Machine σ} {e : Entry} {t : CompiledTrace} {c c' : Cpu σ} {f : Option Flags}
    (junk : Gpr → BitVec 64) (h : m.At (.lookup e))
    (hrun : HostState.run K.mmu junk (K.emitter.emit_jalr e.dec) ⟨m.cpu, m.flags, .run⟩ =
      ⟨c, f, .run⟩) (ht : t ∈ cache) (hpc : t.pc = c.field .pc) (hc : K.Enters c c') :
    HostStep K cache m ⟨(m.exec.retire e).enter t, c', none⟩
  | jumpMiss {m : Machine σ} {e : Entry} {c : Cpu σ} {f : Option Flags}
    (junk : Gpr → BitVec 64) (h : m.At (.lookup e))
    (hrun : HostState.run K.mmu junk (K.emitter.emit_jalr e.dec) ⟨m.cpu, m.flags, .run⟩ =
      ⟨c, f, .run⟩) :
    HostStep K cache m ⟨(m.exec.retire e).leave, K.lookupFail junk c, none⟩
  -- a path that has failed has gone to the label, which is behind the store
  | term {m : Machine σ} {pc : BitVec 64} (junk : Gpr → BitVec 64) (h : m.At (.term pc)) :
    HostStep K cache m
      ⟨m.exec.next,
        if m.exec.failed = none ∧ pc ≠ 0 then K.storePc junk m.cpu pc else m.cpu, none⟩
  | ret {m : Machine σ} (junk : Gpr → BitVec 64) (h : m.At .ret) :
    HostStep K cache m ⟨m.exec.leave, K.exec junk m.cpu K.emitter.emitSave, none⟩

end RvCkpt.Jit
