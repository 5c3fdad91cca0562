import RvCkpt.Jit.EmitAlu

/-! # Host arithmetic on guest registers

What the fragments of the emitters do, seen from the guest: which of its registers they read, which
one they set, and that they leave everything else.
-/

namespace RvCkpt.Jit
open Isa
set_option autoImplicit false

section
variable {σ : Type} {mmu : Mmu σ} {junk : Gpr → BitVec 64} {E : EmitterRv64} {c c' c'' : Cpu σ}
  {f : Option Flags}

/-! ## The guest's registers -/

/-- A guest register is written where it is. -/
def Cpu.setReg (E : EmitterRv64) (c : Cpu σ) (r : Reg) (v : BitVec 64) : Cpu σ :=
  if 0 < E.x86_reg r then c.setGpr (E.gp r) v else c.setField (.ireg r) v

/-- From `c` to `c'` the guest's registers have become `g`, and nothing else of it has changed. -/
structure Becomes (E : EmitterRv64) (c c' : Cpu σ) (g : Reg → BitVec 64) : Prop where
  regs : c'.reg E = g
  mem : c'.mem = c.mem
  accesses : c'.accesses = c.accesses
  control : c'.control = c.control
  field : ∀ f, (∀ r, f ≠ .ireg r) → c'.field f = c.field f

theorem Becomes.refl (E : EmitterRv64) (c : Cpu σ) : Becomes E c c (c.reg E) :=
  ⟨rfl, rfl, rfl, rfl, fun _ _ => rfl⟩

theorem Becomes.trans {g g' : Reg → BitVec 64} (h : Becomes E c c' g) (h' : Becomes E c' c'' g') :
    Becomes E c c'' g' :=
  ⟨h'.regs, h'.mem.trans h.mem, h'.accesses.trans h.accesses, h'.control.trans h.control,
    fun f hf => (h'.field f hf).trans (h.field f hf)⟩

theorem Becomes.of_eq {g g' : Reg → BitVec 64} (h : Becomes E c c' g) (hg : g = g') :
    Becomes E c c' g' := hg ▸ h

theorem becomes_setGpr {r : Gpr} {g : Reg → BitVec 64} (v : BitVec 64)
    (h : (c.setGpr r v).reg E = g) : Becomes E c (c.setGpr r v) g :=
  ⟨h, rfl, rfl, rfl, fun _ _ => rfl⟩

@[simp] theorem reg_setGpr_rax (c : Cpu σ) (v : BitVec 64) : (c.setGpr rax v).reg E = c.reg E :=
  funext (reg_setGpr E (fun _ h => (gp_scratch E h).1) v)

@[simp] theorem reg_setGpr_rcx (c : Cpu σ) (v : BitVec 64) : (c.setGpr rcx v).reg E = c.reg E :=
  funext (reg_setGpr E (fun _ h => (gp_scratch E h).2) v)

theorem becomes_rax (c : Cpu σ) (v : BitVec 64) : Becomes E c (c.setGpr rax v) (c.reg E) :=
  becomes_setGpr v (reg_setGpr_rax c v)

theorem becomes_rcx (c : Cpu σ) (v : BitVec 64) : Becomes E c (c.setGpr rcx v) (c.reg E) :=
  becomes_setGpr v (reg_setGpr_rcx c v)

theorem becomes_setReg (c : Cpu σ) (r : Reg) (v : BitVec 64) :
    Becomes E c (c.setReg E r v) (Function.update (c.reg E) r v) := by
  unfold Cpu.setReg
  by_cases h : 0 < E.x86_reg r
  · rw [if_pos h]
    exact becomes_setGpr v (funext (reg_setGpr_gp E h v))
  · rw [if_neg h]
    refine ⟨funext (reg_setField_ireg E h v), rfl, rfl, rfl, fun f hf => ?_⟩
    exact c.setField_of_ne (hf r) v

@[simp] theorem reg_setReg (c : Cpu σ) (r : Reg) (v : BitVec 64) :
    (c.setReg E r v).reg E = Function.update (c.reg E) r v := (becomes_setReg c r v).regs

theorem gpr_setReg {r : Gpr} (hr : ∀ r', 0 < E.x86_reg r' → E.gp r' ≠ r) (rd : Reg)
    (v : BitVec 64) : (c.setReg E rd v).gpr r = c.gpr r := by
  unfold Cpu.setReg
  by_cases h : 0 < E.x86_reg rd
  · rw [if_pos h]
    exact c.setGpr_of_ne (hr rd h).symm v
  · rw [if_neg h]
    rfl

@[simp] theorem gpr_setReg_rax (c : Cpu σ) (rd : Reg) (v : BitVec 64) :
    (c.setReg E rd v).gpr rax = c.gpr rax := gpr_setReg (fun _ h => (gp_scratch E h).1) rd v

@[simp] theorem gpr_setReg_rcx (c : Cpu σ) (rd : Reg) (v : BitVec 64) :
    (c.setReg E rd v).gpr rcx = c.gpr rcx := gpr_setReg (fun _ h => (gp_scratch E h).2) rd v

/-! ## Operands -/

theorem Size.bits_le (s : Size) : s.bits ≤ 64 := by cases s <;> decide

namespace HostState

@[simp] theorem value_reg (c : Cpu σ) (s : Size) (r : Gpr) :
    value mmu c s (.reg r) = (c.gpr r).setWidth s.bits := by
  cases s <;> simp [value, Cpu.read, Size.bits]

@[simp] theorem value_imm (c : Cpu σ) (s : Size) (v : BitVec 64) :
    value mmu c s (.imm v) = v.setWidth s.bits := rfl

@[simp] theorem value_field (c : Cpu σ) (s : Size) (fl : Field) :
    value mmu c s (.field fl) = (c.field fl).setWidth s.bits := by
  cases s <;> simp [value, Cpu.read, Size.bits]

@[simp] theorem value_opnd (c : Cpu σ) (s : Size) (r : Reg) :
    value mmu c s (E.opnd r) = (c.reg E r).setWidth s.bits := by
  rw [EmitterRv64.opnd, Cpu.reg]
  by_cases h : 0 < E.x86_reg r
  · rw [if_pos h, if_pos h, value_reg]
  · rw [if_neg h, if_neg h, EmitterRv64.rbp_reg, value_field]

/-- The sizes that arithmetic is done in. -/
def Wide (s : Size) : Prop := s = .dword ∨ s = .qword

/-- A word cut to a size. -/
def cut (s : Size) (v : BitVec 64) : BitVec 64 := (v.setWidth s.bits).setWidth 64

@[simp] theorem cut_qword (v : BitVec 64) : cut .qword v = v := by simp [cut, Size.bits]

@[simp] theorem setWidth_qword (v : BitVec 64) : v.setWidth Size.qword.bits = v :=
  BitVec.setWidth_eq v

/-- A word that is widened and cut again. -/
@[simp] theorem setWidth_up {s : Size} (v : BitVec s.bits) : (v.setWidth 64).setWidth s.bits = v :=
  (BitVec.setWidth_setWidth_of_le v s.bits_le).trans (BitVec.setWidth_eq v)

theorem cut_setWidth (s : Size) (v : BitVec 64) : (cut s v).setWidth s.bits = v.setWidth s.bits :=
  setWidth_up _

/-- A register is written whole. -/
theorem put_reg (c : Cpu σ) {s : Size} (hs : Wide s) (r : Gpr) (v : BitVec s.bits) :
    put mmu c s (.reg r) v = c.setGpr r (v.setWidth 64) := by
  rcases hs with rfl | rfl
  · exact congrArg (fun x : BitVec 32 => c.setGpr r (x.setWidth 64)) (setWidth_up v)
  · rfl

/-- A word written to a register, whose upper half is the machine's. -/
theorem put_opnd (mmu : Mmu σ) (E : EmitterRv64) (c : Cpu σ) {s : Size} (hs : Wide s) (r : Reg)
    (v : BitVec s.bits) :
    ∃ x : BitVec 64, put mmu c s (E.opnd r) v = c.setReg E r x ∧ x.setWidth s.bits = v := by
  by_cases h : 0 < E.x86_reg r
  · refine ⟨v.setWidth 64, ?_, setWidth_up v⟩
    rw [EmitterRv64.opnd, if_pos h, Cpu.setReg, if_pos h, put_reg c hs]
  · refine ⟨join v (c.field (.ireg r)), ?_, join_setWidth v _ s.bits_le⟩
    rw [EmitterRv64.opnd, if_neg h, Cpu.setReg, if_neg h]
    show c.setField _ (join ((v.setWidth 64).setWidth s.bits) _) = _
    rw [setWidth_up]

theorem put_qword_opnd (c : Cpu σ) (r : Reg) (v : BitVec Size.qword.bits) :
    put mmu c .qword (E.opnd r) v = c.setReg E r (v.setWidth 64) := by
  obtain ⟨x, hx, rfl⟩ := put_opnd mmu E c (.inr rfl) r v
  rw [hx]
  exact congrArg (c.setReg E r) (cut_qword x).symm

end HostState

/-! ## Code -/

namespace HostState

@[simp] theorem run_nil (h : HostState σ) : run mmu junk [] h = h := rfl

theorem run_append (code code' : List ArithIns) (h : HostState σ) :
    run mmu junk (code ++ code') h = run mmu junk code' (run mmu junk code h) :=
  List.foldl_append

theorem run_cons (i : ArithIns) (code : List ArithIns) (c : Cpu σ) (f : Option Flags) :
    run mmu junk (i :: code) ⟨c, f, .run⟩ = run mmu junk code (exec mmu junk c f i) := rfl

theorem run_bind (label : ℕ) (code : List ArithIns) (c : Cpu σ) (f : Option Flags) :
    run mmu junk (.bind label :: code) ⟨c, f, .skip label⟩ = run mmu junk code ⟨c, f, .run⟩ := by
  rw [run, List.foldl_cons, step]
  dsimp only
  rw [if_pos rfl, run]

/-- Code without the label is jumped over. -/
theorem run_skip {label : ℕ} {code : List ArithIns} (h : .bind label ∉ code) (c : Cpu σ)
    (f : Option Flags) : run mmu junk code ⟨c, f, .skip label⟩ = ⟨c, f, .skip label⟩ := by
  induction code with
  | nil => rfl
  | cons i code ih =>
    have hne : i ≠ .bind label := fun he => h (he ▸ List.mem_cons_self)
    rw [run, List.foldl_cons, step]
    dsimp only
    rw [if_neg hne]
    exact ih fun hin => h (List.mem_cons_of_mem i hin)

theorem run_error (code : List ArithIns) (c : Cpu σ) (f : Option Flags) :
    run mmu junk code ⟨c, f, .error⟩ = ⟨c, f, .error⟩ := by
  induction code with
  | nil => rfl
  | cons i code ih => exact ih

/-- A move takes the value of its source. -/
theorem exec_mov (c : Cpu σ) (s : Size) {dst src : Operand}
    (hsrc : (∃ r, src = .reg r) ∨ ∃ fl, src = .field fl) :
    c.exec mmu junk (.mov s dst src) = put mmu c s dst (value mmu c s src) := by
  have hcut : ∀ v : BitVec 64, (((v.setWidth s.bits).setWidth 64).setWidth s.bits).setWidth 64 =
      (v.setWidth s.bits).setWidth 64 := fun v => by rw [setWidth_up]
  rcases hsrc with ⟨r, rfl⟩ | ⟨fl, rfl⟩
  · rw [put, value, Cpu.read, hcut]
    rfl
  · rw [put, value, Cpu.read, hcut]
    rfl

theorem opnd_cases (r : Reg) : (∃ g, E.opnd r = .reg g) ∨ ∃ fl, E.opnd r = .field fl := by
  rw [EmitterRv64.opnd]
  by_cases h : 0 < E.x86_reg r
  · exact .inl ⟨_, if_pos h⟩
  · exact .inr ⟨_, if_neg h⟩

theorem opnd_hosted {r : Reg} (h : 0 < E.x86_reg r) : .reg (E.gp r) = E.opnd r := (if_pos h).symm

theorem opnd_stored {r : Reg} (h : ¬ 0 < E.x86_reg r) : EmitterRv64.rbp_reg r = E.opnd r :=
  (if_neg h).symm

open EmitterRv64 (mov movsxd)

variable (code : List ArithIns)

theorem run_mov_reg_opnd {s : Size} (hs : Wide s) (r : Gpr) (x : Reg) :
    run mmu junk (mov s (.reg r) (E.opnd x) :: code) ⟨c, f, .run⟩ =
      run mmu junk code ⟨c.setGpr r (cut s (c.reg E x)), f, .run⟩ := by
  rw [mov, run_cons, exec, exec_mov c s (opnd_cases x), value_opnd, put_reg c hs, cut]

theorem run_mov_opnd_reg (x : Reg) (r : Gpr) :
    run mmu junk (mov .qword (E.opnd x) (.reg r) :: code) ⟨c, f, .run⟩ =
      run mmu junk code ⟨c.setReg E x (c.gpr r), f, .run⟩ := by
  rw [mov, run_cons, exec, exec_mov c .qword (.inl ⟨r, rfl⟩), value_reg, put_qword_opnd]
  exact congrArg (fun v => run mmu junk code ⟨c.setReg E x v, f, .run⟩) (cut_qword _)

theorem run_mov_reg (r r' : Gpr) :
    run mmu junk (mov .qword (.reg r) (.reg r') :: code) ⟨c, f, .run⟩ =
      run mmu junk code ⟨c.setGpr r (c.gpr r'), f, .run⟩ := by
  rw [mov, run_cons, exec, Cpu.exec_mov_reg]

theorem run_mov_reg_imm (r : Gpr) (v : BitVec 64) :
    run mmu junk (mov .qword (.reg r) (.imm v) :: code) ⟨c, f, .run⟩ =
      run mmu junk code ⟨c.setGpr r v, f, .run⟩ := by
  rw [mov, run_cons, exec, Cpu.exec_mov_reg_imm]

theorem run_movsxd_opnd (r : Gpr) (x : Reg) :
    run mmu junk (movsxd r (E.opnd x) :: code) ⟨c, f, .run⟩ =
      run mmu junk code ⟨c.setGpr r (sx (word32 (c.reg E x))), f, .run⟩ := by
  have hvalue : (c.read mmu .dword (E.opnd x)) = (c, (word32 (c.reg E x)).setWidth 64) := by
    rw [EmitterRv64.opnd, Cpu.reg]
    by_cases h : 0 < E.x86_reg x
    · rw [if_pos h, if_pos h]
      rfl
    · rw [if_neg h, if_neg h]
      rfl
  rw [movsxd, run_cons, exec, Cpu.exec, hvalue]
  dsimp only
  rw [show (((word32 (c.reg E x)).setWidth 64).setWidth Size.dword.bits) = word32 (c.reg E x) from
    BitVec.setWidth_setWidth_of_le _ (by decide)]
  rfl

theorem run_movsxd_reg (r r' : Gpr) :
    run mmu junk (movsxd r (.reg r') :: code) ⟨c, f, .run⟩ =
      run mmu junk code ⟨c.setGpr r (sx (word32 (c.gpr r'))), f, .run⟩ := by
  rw [movsxd, run_cons, exec, Cpu.exec, Cpu.read]
  dsimp only
  rw [show ((((c.gpr r').setWidth Size.dword.bits).setWidth 64).setWidth Size.dword.bits) =
    word32 (c.gpr r') from BitVec.setWidth_setWidth_of_le _ (by decide)]
  rfl

/-- An immediate for a register; in memory it is a sign-extended 32-bit number. -/
theorem run_mov_opnd_imm (x : Reg) {v : BitVec 64} (hv : ((v.setWidth 32).signExtend 64) = v) :
    run mmu junk (mov .qword (E.opnd x) (.imm v) :: code) ⟨c, f, .run⟩ =
      run mmu junk code ⟨c.setReg E x v, f, .run⟩ := by
  rw [mov, run_cons, exec, EmitterRv64.opnd, Cpu.setReg]
  by_cases h : 0 < E.x86_reg x
  · rw [if_pos h, if_pos h, Cpu.exec_mov_reg_imm]
  · rw [if_neg h, if_neg h, EmitterRv64.rbp_reg, Cpu.exec_mov_field_imm, hv]

theorem run_arith_reg {s : Size} (hs : Wide s) (op : Arith) (r : Gpr) (src : Operand) :
    run mmu junk (.arith op s (.reg r) src :: code) ⟨c, f, .run⟩ =
      run mmu junk code
        ⟨c.setGpr r ((op.eval ((c.gpr r).setWidth s.bits) (value mmu c s src)).setWidth 64), none,
          .run⟩ := by
  rw [run_cons, exec, value_reg, put_reg c hs]

/-- A register is cleared. -/
theorem run_xor_self {s : Size} (hs : Wide s) (r : Gpr) :
    run mmu junk (.arith .xor s (.reg r) (.reg r) :: code) ⟨c, f, .run⟩ =
      run mmu junk code ⟨c.setGpr r 0, none, .run⟩ := by
  rw [run_arith_reg code hs, value_reg, Arith.eval, BitVec.xor_self]
  refine congrArg (fun v => run mmu junk code ⟨c.setGpr r v, none, .run⟩) ?_
  exact BitVec.setWidth_zero ..

theorem run_shift_reg {s : Size} (hs : Wide s) (op : ShiftOp) (r : Gpr) (n : Amount) :
    run mmu junk (.shift op s (.reg r) n :: code) ⟨c, f, .run⟩ =
      run mmu junk code
        ⟨c.setGpr r ((op.eval ((c.gpr r).setWidth s.bits) (amount c s n)).setWidth 64), none,
          .run⟩ := by
  rw [run_cons, exec, value_reg, put_reg c hs]

end HostState

/-! ## Fragments -/

open HostState

variable (mmu junk) in
/-- The code runs to its end, where `P` holds. -/
def Runs (code : List ArithIns) (c : Cpu σ) (P : Cpu σ → Prop) : Prop :=
  ∀ f, ∃ c' f', run mmu junk code ⟨c, f, .run⟩ = ⟨c', f', .run⟩ ∧ P c'

variable (mmu junk) in
/-- The code sets the register `rd` to `v`, and nothing else of the guest. -/
def Sets (E : EmitterRv64) (code : List ArithIns) (c : Cpu σ) (rd : Reg) (v : BitVec 64) : Prop :=
  Runs mmu junk code c fun c' => Becomes E c c' (Function.update (c.reg E) rd v)

variable (mmu junk) in
/-- The code sets the lower part of `rd` to `v`; what its upper part is, is left open. -/
def SetsLow (E : EmitterRv64) (s : Size) (code : List ArithIns) (c : Cpu σ) (rd : Reg)
    (v : BitVec s.bits) : Prop :=
  Runs mmu junk code c fun c' =>
    ∃ x, x.setWidth s.bits = v ∧ Becomes E c c' (Function.update (c.reg E) rd x)

section
variable {code code' : List ArithIns} {P Q : Cpu σ → Prop} {rd rs : Reg} {v : BitVec 64} {s : Size}

theorem Runs.nil (h : P c) : Runs mmu junk [] c P := fun f => ⟨c, f, rfl, h⟩

theorem Runs.append (h : Runs mmu junk code c P) (h' : ∀ c', P c' → Runs mmu junk code' c' Q) :
    Runs mmu junk (code ++ code') c Q := by
  intro f
  obtain ⟨c', f', hrun, hP⟩ := h f
  obtain ⟨c'', f'', hrun', hQ⟩ := h' c' hP f'
  exact ⟨c'', f'', by rw [run_append, hrun, hrun'], hQ⟩

theorem Runs.mono (h : Runs mmu junk code c P) (h' : ∀ c', P c' → Q c') :
    Runs mmu junk code c Q := by
  intro f
  obtain ⟨c', f', hrun, hP⟩ := h f
  exact ⟨c', f', hrun, h' c' hP⟩

/-- An instruction at the front. -/
theorem Runs.cons {i : ArithIns} {c' : Cpu σ}
    (hi : ∀ f, ∃ f', exec mmu junk c f i = ⟨c', f', .run⟩) (h : Runs mmu junk code c' P) :
    Runs mmu junk (i :: code) c P := by
  intro f
  obtain ⟨f', hexec⟩ := hi f
  rw [run_cons, hexec]
  exact h f'

theorem Sets.of_eq {v' : BitVec 64} (h : Sets mmu junk E code c rd v) (hv : v = v') :
    Sets mmu junk E code c rd v' := hv ▸ h

theorem SetsLow.of_eq {v v' : BitVec s.bits} (h : SetsLow mmu junk E s code c rd v) (hv : v = v') :
    SetsLow mmu junk E s code c rd v' := hv ▸ h

theorem SetsLow.sets {v : BitVec Size.qword.bits} (h : SetsLow mmu junk E .qword code c rd v) :
    Sets mmu junk E code c rd v := by
  refine Runs.mono h fun c' ⟨x, hx, hbecomes⟩ => ?_
  rw [setWidth_qword] at hx
  exact hx ▸ hbecomes

/-- Code that leaves the guest and then code that sets a register. -/
theorem Runs.sets (h : Runs mmu junk code c fun c' => Becomes E c c' (c.reg E) ∧ P c')
    (h' : ∀ c', Becomes E c c' (c.reg E) → P c' → Sets mmu junk E code' c' rd v) :
    Sets mmu junk E (code ++ code') c rd v := by
  refine Runs.append h fun c' ⟨hsame, hP⟩ => Runs.mono (h' c' hsame hP) fun c'' hbecomes => ?_
  exact hsame.trans (hbecomes.of_eq (by rw [hsame.regs]))

/-- What is set twice is what it is set to at last. -/
theorem SetsLow.append_sets {u : BitVec s.bits} (h : SetsLow mmu junk E s code c rd u)
    (h' : ∀ c', Cpu.reg E c' = Function.update (c.reg E) rd (c'.reg E rd) →
      (c'.reg E rd).setWidth s.bits = u → Sets mmu junk E code' c' rd v) :
    Sets mmu junk E (code ++ code') c rd v := by
  refine Runs.append h fun c' ⟨x, hx, hbecomes⟩ => ?_
  have hrd : c'.reg E rd = x := by rw [hbecomes.regs, Function.update_self]
  refine Runs.mono (h' c' (by rw [hrd, hbecomes.regs]) (by rw [hrd, hx])) fun c'' hlast => ?_
  refine (hbecomes.trans hlast).of_eq ?_
  rw [hbecomes.regs, Function.update_idem]

/-- Code that leaves a value in `rax` first. -/
theorem SetsLow.via_rax {v : BitVec s.bits} {u : BitVec 64}
    (h : SetsLow mmu junk E s code (c.setGpr rax u) rd v)
    (hrun : ∀ f, ∃ f', run mmu junk code' ⟨c, f, .run⟩ =
      run mmu junk code ⟨c.setGpr rax u, f', .run⟩) : SetsLow mmu junk E s code' c rd v := by
  intro f
  obtain ⟨f', hstep⟩ := hrun f
  obtain ⟨c', f'', hcode, x, hx, hbecomes⟩ := h f'
  rw [reg_setGpr_rax] at hbecomes
  exact ⟨c', f'', hstep.trans hcode, x, hx, (becomes_rax c u).trans hbecomes⟩

theorem Sets.via_rax {u : BitVec 64} (h : Sets mmu junk E code (c.setGpr rax u) rd v)
    (hrun : ∀ f, ∃ f', run mmu junk code' ⟨c, f, .run⟩ =
      run mmu junk code ⟨c.setGpr rax u, f', .run⟩) : Sets mmu junk E code' c rd v := by
  intro f
  obtain ⟨f', hstep⟩ := hrun f
  obtain ⟨c', f'', hcode, hbecomes⟩ := h f'
  rw [reg_setGpr_rax] at hbecomes
  exact ⟨c', f'', hstep.trans hcode, (becomes_rax c u).trans hbecomes⟩

theorem sets_setReg {code : List ArithIns} {g : Cpu σ}
    (hcode : ∀ f, ∃ f', run mmu junk code ⟨c, f, .run⟩ = ⟨g.setReg E rd v, f', .run⟩)
    (hsame : Becomes E c g (c.reg E)) : Sets mmu junk E code c rd v := by
  intro f
  obtain ⟨f', hrun⟩ := hcode f
  refine ⟨_, f', hrun, hsame.trans ((becomes_setReg g rd v).of_eq ?_)⟩
  rw [hsame.regs]

/-! ### Results in `rax` -/

theorem sets_rax (hrd : ¬ 0 < E.x86_reg rd) :
    Sets mmu junk E (EmitterRv64.emitRax rd) c rd (c.gpr rax) := by
  rw [EmitterRv64.emitRax, opnd_stored hrd]
  exact sets_setReg (fun f => ⟨f, run_mov_opnd_reg [] rd rax⟩) (.refl E c)

theorem sets_eax (hrd : ¬ 0 < E.x86_reg rd) :
    Sets mmu junk E (EmitterRv64.emitEax rd) c rd (sx (word32 (c.gpr rax))) := by
  rw [EmitterRv64.emitEax, EmitterRv64.emitRax, opnd_stored hrd]
  refine sets_setReg (fun f => ⟨f, ?_⟩) (becomes_rax c (sx (word32 (c.gpr rax))))
  rw [run_movsxd_reg, run_mov_opnd_reg, Cpu.setGpr_self, run_nil]

end

end

end RvCkpt.Jit
