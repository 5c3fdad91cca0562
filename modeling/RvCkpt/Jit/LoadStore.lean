import RvCkpt.Isa.Alu
import RvCkpt.Jit.Host

/-! # Compiled loads and stores

The emitters of loads and stores in `src/src/jit/jit-emitter-rv64.h`, the functions that
`create_load_store` makes, and the instructions of `src/src/emu/interp.h` that they stand for.
-/

namespace RvCkpt.Jit
open Isa
set_option autoImplicit false

def rv_ireg_sp : Reg := 2
def rv_ireg_t0 : Reg := 5
def rv_ireg_t1 : Reg := 6
def rv_ireg_a0 : Reg := 10
def rv_ireg_a1 : Reg := 11
def rv_ireg_a2 : Reg := 12
def rv_ireg_a3 : Reg := 13
def rv_ireg_a4 : Reg := 14
def rv_ireg_a5 : Reg := 15
def rv_ireg_a6 : Reg := 16
def rv_ireg_a7 : Reg := 17

/-- What a `jit_decode` says of a load or a store. -/
structure Operands where
  pc : BitVec 64
  rd : Reg
  rs1 : Reg
  rs2 : Reg
  imm : BitVec 32
  deriving DecidableEq, Repr

def Operands.disp (dec : Operands) : BitVec 64 := dec.imm.signExtend 64

/-- How the emitter is set up. -/
structure EmitterRv64 where
  memory_registers : Bool
  use_mmu : Bool
  deriving DecidableEq, Repr

namespace EmitterRv64
variable (E : EmitterRv64)

def x86_reg (rd : Reg) : ℤ :=
  if E.memory_registers then -1
  else if rd = rv_ireg_x0 then 0
  else if rd = rv_ireg_ra then 2
  else if rd = rv_ireg_sp then 3
  else if rd = rv_ireg_t0 then 6
  else if rd = rv_ireg_t1 then 7
  else if rd = rv_ireg_a0 then 8
  else if rd = rv_ireg_a1 then 9
  else if rd = rv_ireg_a2 then 10
  else if rd = rv_ireg_a3 then 11
  else if rd = rv_ireg_a4 then 12
  else if rd = rv_ireg_a5 then 13
  else if rd = rv_ireg_a6 then 14
  else if rd = rv_ireg_a7 then 15
  else -1

/-- The host register of a guest register that has one. -/
theorem gpr_neZero : NeZero 16 := ⟨by decide⟩

def gp (rd : Reg) : Gpr := @Fin.ofNat 16 gpr_neZero (E.x86_reg rd).toNat

def rbp_reg (rd : Reg) : Operand := .field (.ireg rd)

/-! ## Calls -/

/-- The guest registers that a C function may overwrite. -/
def volatileRegs : List (Reg × Gpr) :=
  [(rv_ireg_ra, rdx), (rv_ireg_t0, rsi), (rv_ireg_t1, rdi), (rv_ireg_a0, r8), (rv_ireg_a1, r9),
    (rv_ireg_a2, r10), (rv_ireg_a3, r11)]

def save_volatile : List Ins :=
  if E.memory_registers then []
  else volatileRegs.map fun p => .mov .qword (rbp_reg p.1) (.reg p.2)

def restore_volatile : List Ins :=
  if E.memory_registers then []
  else volatileRegs.map fun p => .mov .qword (.reg p.2) (rbp_reg p.1)

/-- The functions that `create_load_store` makes. -/
def create_load_store (op : MmuOp) : List Ins :=
  E.save_volatile ++ .mov .qword (.reg rdi) (.reg rax) ::
    (match op with
      | .load _ => []
      | .store _ => [.mov .qword (.reg rsi) (.reg rcx)]) ++
    .callC op :: E.restore_volatile

/-! ## Fragments -/

def emit_pc (new_pc : BitVec 64) : List Item :=
  if new_pc < 0xffffffff then [.ins (.mov .qword (.field .pc) (.imm new_pc))]
  else [.ins (.mov .qword (.reg rax) (.imm new_pc)), .ins (.mov .qword (.field .pc) (.reg rax))]

/-- The label `okay`. -/
def okay : ℕ := 0

/-- Leave the trace if the access has failed. -/
def emitCheck (dec : Operands) : List Item :=
  .cmp .cause 0 :: .je okay :: (emit_pc dec.pc ++ [.jmpTerm, .bind okay])

/-- The address of an access in `rax`. -/
def emitAddress (dec : Operands) : List Item :=
  if 0 < E.x86_reg dec.rs1 then [.ins (.lea rax (E.gp dec.rs1) dec.disp)]
  else [.ins (.mov .qword (.reg rcx) (rbp_reg dec.rs1)), .ins (.lea rax rcx dec.disp)]

/-! ## Loads -/

/-- What the emitters of loads do in their own way: what takes the result of the call from `rax` to
a host register, what comes before it is stored, and the instruction that loads directly. -/
structure LoadForm where
  size : Size
  toHost : Gpr → Ins
  inRax : List Ins
  direct : Gpr → Operand → Ins

/-- An emitter of a load. -/
def emitLoad (f : LoadForm) (dec : Operands) : List Item :=
  if dec.rd = rv_ireg_x0 then []
  else if E.use_mmu then
    (if dec.rs1 = rv_ireg_x0 then [.ins (.mov .qword (.reg rax) (.imm dec.disp))]
      else E.emitAddress dec) ++
    .call (.load f.size) :: emitCheck dec ++
    (if 0 < E.x86_reg dec.rd then [.ins (f.toHost (E.gp dec.rd))]
      else f.inRax.map .ins ++ [.ins (.mov .qword (rbp_reg dec.rd) (.reg rax))])
  else if 0 < E.x86_reg dec.rd then
    if 0 < E.x86_reg dec.rs1 then
      [.ins (f.direct (E.gp dec.rd) (.data (E.gp dec.rs1) dec.disp))]
    else
      [.ins (.mov .qword (.reg rax) (rbp_reg dec.rs1)),
        .ins (f.direct (E.gp dec.rd) (.data rax dec.disp))]
  else
    (if 0 < E.x86_reg dec.rs1 then
      [.ins (f.direct rax (.data (E.gp dec.rs1) dec.disp))]
    else
      [.ins (.mov .qword (.reg rax) (rbp_reg dec.rs1)),
        .ins (f.direct rax (.data rax dec.disp))]) ++
    [.ins (.mov .qword (rbp_reg dec.rd) (.reg rax))]

def emit_ld := E.emitLoad
  ⟨.qword, fun r => .mov .qword (.reg r) (.reg rax), [], fun r m => .mov .qword (.reg r) m⟩

def emit_lw := E.emitLoad
  ⟨.dword, fun r => .movsx .dword r (.reg rax), [.movsx .dword rax (.reg rax)],
    fun r m => .movsx .dword r m⟩

def emit_lwu := E.emitLoad
  ⟨.dword, fun r => .mov .dword (.reg r) (.reg rax), [], fun r m => .mov .dword (.reg r) m⟩

def emit_lh := E.emitLoad
  ⟨.word, fun r => .movsx .word r (.reg rax), [.movsx .word rax (.reg rax)],
    fun r m => .movsx .word r m⟩

def emit_lhu := E.emitLoad
  ⟨.word, fun r => .mov .dword (.reg r) (.reg rax), [], fun r m => .movzx .word r m⟩

def emit_lb := E.emitLoad
  ⟨.byte, fun r => .movsx .byte r (.reg rax), [.movsx .byte rax (.reg rax)],
    fun r m => .movsx .byte r m⟩

def emit_lbu := E.emitLoad
  ⟨.byte, fun r => .mov .dword (.reg r) (.reg rax), [], fun r m => .movzx .byte r m⟩

/-! ## Stores -/

/-- An emitter of a store. -/
def emitStore (s : Size) (dec : Operands) : List Item :=
  if dec.rs2 = rv_ireg_x0 then
    if E.use_mmu then
      E.emitAddress dec ++ .ins (.xor rcx rcx) :: .call (.store s) :: emitCheck dec
    else if 0 < E.x86_reg dec.rs1 then
      [.ins (.mov s (.data (E.gp dec.rs1) dec.disp) (.imm 0))]
    else
      [.ins (.mov .qword (.reg rax) (rbp_reg dec.rs1)),
        .ins (.mov s (.data rax dec.disp) (.imm 0))]
  else if E.use_mmu then
    -- `sd` moves the whole register, the others its lower half
    E.emitAddress dec ++
    .ins (.mov (if s = .qword then .qword else .dword) (.reg rcx)
      (if 0 < E.x86_reg dec.rs2 then .reg (E.gp dec.rs2) else rbp_reg dec.rs2)) ::
    .call (.store s) :: emitCheck dec
  else if 0 < E.x86_reg dec.rs2 then
    if 0 < E.x86_reg dec.rs1 then
      [.ins (.mov s (.data (E.gp dec.rs1) dec.disp) (.reg (E.gp dec.rs2)))]
    else
      [.ins (.mov .qword (.reg rax) (rbp_reg dec.rs1)),
        .ins (.mov s (.data rax dec.disp) (.reg (E.gp dec.rs2)))]
  else
    .ins (.mov .qword (.reg rcx) (rbp_reg dec.rs2)) ::
    (if 0 < E.x86_reg dec.rs1 then
      [.ins (.mov s (.data (E.gp dec.rs1) dec.disp) (.reg rcx))]
    else
      [.ins (.mov .qword (.reg rax) (rbp_reg dec.rs1)),
        .ins (.mov s (.data rax dec.disp) (.reg rcx))])

def emit_sd := E.emitStore .qword

def emit_sw := E.emitStore .dword

def emit_sh := E.emitStore .word

def emit_sb := E.emitStore .byte

end EmitterRv64

/-! ## The operations -/

/-- The loads and stores that are compiled. -/
inductive DataOp where
  | load (op : LoadOp)
  | store (op : StoreOp)
  deriving DecidableEq, Repr

def emitData (E : EmitterRv64) : DataOp → Operands → List Item
  | .load .ld => E.emit_ld
  | .load .lw => E.emit_lw
  | .load .lwu => E.emit_lwu
  | .load .lh => E.emit_lh
  | .load .lhu => E.emit_lhu
  | .load .lb => E.emit_lb
  | .load .lbu => E.emit_lbu
  | .store .sd => E.emit_sd
  | .store .sw => E.emit_sw
  | .store .sh => E.emit_sh
  | .store .sb => E.emit_sb

/-! ## The interpreter -/

def loadSize : LoadOp → Size
  | .lb | .lbu => .byte
  | .lh | .lhu => .word
  | .lw | .lwu => .dword
  | .ld => .qword

def storeSize : StoreOp → Size
  | .sb => .byte
  | .sh => .word
  | .sw => .dword
  | .sd => .qword

structure GuestState (σ : Type) where
  ireg : Reg → BitVec 64
  mem : σ
  accesses : List Access

/-- A load or store of the interpreter. A fault leaves the registers as they are. -/
def interpData {σ : Type} (mmu : Mmu σ) (op : DataOp) (dec : Operands) (g : GuestState σ) :
    GuestState σ × Option Fault :=
  let addr := g.ireg dec.rs1 + dec.disp
  match op with
  | .load op =>
    let g' : GuestState σ := { g with accesses := g.accesses ++ [⟨.load (loadSize op), addr⟩] }
    match mmu.load (loadSize op) addr g.mem with
    | (mem, .ok t) =>
      ({ g' with
        mem := mem
        ireg := Function.update g.ireg dec.rd
          (if dec.rd = rv_ireg_x0 then 0 else op.extend (t.setWidth 64)) }, none)
    | (mem, .error e) => ({ g' with mem := mem }, some e)
  | .store op =>
    let g' : GuestState σ := { g with accesses := g.accesses ++ [⟨.store (storeSize op), addr⟩] }
    match mmu.store (storeSize op) addr ((g.ireg dec.rs2).setWidth _) g.mem with
    | (mem, .ok _) => ({ g' with mem := mem }, none)
    | (mem, .error e) => ({ g' with mem := mem }, some e)

end RvCkpt.Jit
