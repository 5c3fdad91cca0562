import RvCkpt.Jit.DataSpec

/-! # When compiled loads and stores are right

For every load and store, every placement of its operands and both modes: the code that is emitted
does what the interpreter does, for all that a C function may leave in its registers, if and only if
a load has a destination, the result of a call is widened, a fault comes at a pc that the emitter
can write, and no earlier fault is still noted.
-/

namespace RvCkpt.Jit
open Isa
set_option autoImplicit false

/-! ## The result of a load -/

/-- What a load makes of the word in `rax`, when the destination is a host register. -/
def hostResult : LoadOp → BitVec 64 → BitVec 64
  | .lwu, x | .lhu, x | .lbu, x => (x.setWidth 32).setWidth 64
  | op, x => op.extend x

/-- What a load makes of the word in `rax`. A field of the processor gets it whole, unless the load
is of a signed value. -/
def loadResult (E : EmitterRv64) (rd : Reg) (op : LoadOp) (x : BitVec 64) : BitVec 64 :=
  if 0 < E.x86_reg rd then hostResult op x else op.extend x

/-- The result of the call is widened before it is the register's value. -/
def Widens (E : EmitterRv64) (rd : Reg) : LoadOp → Prop
  | .lbu | .lhu => False
  | .lwu => 0 < E.x86_reg rd
  | _ => True

theorem join_ones_ne {w : ℕ} (v : BitVec w) {n : ℕ} (hw : w < n) (hn : n ≤ 64) :
    ((join v (BitVec.allOnes 64)).setWidth n).setWidth 64 ≠ v.setWidth 64 := by
  intro h
  have hbit := congrArg (fun x => x.getLsbD w) h
  rw [BitVec.getLsbD_setWidth, BitVec.getLsbD_setWidth, getLsbD_join v _ (by omega),
    if_neg (Nat.lt_irrefl w), BitVec.getLsbD_setWidth, BitVec.getLsbD_of_ge v w le_rfl,
    BitVec.getLsbD_allOnes] at hbit
  have hw64 : w < 64 := by omega
  simp [hw, hw64] at hbit

theorem join_ones_ne_full {w : ℕ} (v : BitVec w) (hw : w < 64) :
    join v (BitVec.allOnes 64) ≠ v.setWidth 64 := by
  have h := join_ones_ne v hw le_rfl
  rwa [BitVec.setWidth_eq] at h

/-- Whatever a call leaves above a narrow result, the register gets the value that was loaded. -/
theorem widens_iff (E : EmitterRv64) (rd : Reg) (op : LoadOp) (t : BitVec (loadSize op).bits) :
    (∀ u, loadResult E rd op (join t u) = op.extend (t.setWidth 64)) ↔ Widens E rd op := by
  have hsigned : ∀ {w : ℕ} (v : BitVec w) (u : BitVec 64), w ≤ 64 →
      ((join v u).setWidth w).signExtend 64 = ((v.setWidth 64).setWidth w).signExtend 64 := by
    intro w v u hw
    rw [join_setWidth v u hw, BitVec.setWidth_setWidth_of_le v hw, BitVec.setWidth_eq]
  have hfull : ∀ v : BitVec 64, v.setWidth 64 = v := fun v => BitVec.setWidth_eq v
  unfold loadResult
  cases op with
  | lb | lh | lw =>
    refine iff_of_true (fun u => ?_) trivial
    exact (ite_self _).trans (hsigned t u (by decide))
  | ld =>
    refine iff_of_true (fun u => ?_) trivial
    exact (ite_self _).trans ((join_full t u).trans (hfull t).symm)
  | lbu | lhu =>
    refine iff_of_false (fun h => ?_) id
    have hones := h (BitVec.allOnes 64)
    split at hones
    · exact join_ones_ne t (by decide) (by decide) hones
    · exact join_ones_ne_full t (by decide) hones
  | lwu =>
    by_cases hrd : 0 < E.x86_reg rd
    · refine iff_of_true (fun u => ?_) hrd
      rw [if_pos hrd]
      exact congrArg (BitVec.setWidth 64) (join_setWidth t u (by decide))
    · refine iff_of_false (fun h => ?_) hrd
      have hones := h (BitVec.allOnes 64)
      rw [if_neg hrd] at hones
      exact join_ones_ne_full t (by decide) hones

/-! ## The emitters of loads -/

section
variable {σ : Type} (mmu : Mmu σ) (junk : Gpr → BitVec 64)

/-- What the parts of an emitter do for an operation. -/
structure EmitterRv64.LoadForm.For (f : EmitterRv64.LoadForm) (op : LoadOp) : Prop where
  size : f.size = loadSize op
  toHost : ∀ (c : Cpu σ) (r : Gpr),
    c.exec mmu junk (f.toHost r) = c.setGpr r (hostResult op (c.gpr rax))
  inRax : ∀ c : Cpu σ, c.execAll mmu junk f.inRax = c.setGpr rax (op.extend (c.gpr rax))
  direct : ∀ (c : Cpu σ) (r base : Gpr) (disp : BitVec 64),
    c.exec mmu junk (f.direct r (.data base disp)) =
      (c.loadData mmu (loadSize op) (c.gpr base + disp)).1.setGpr r
        (op.extend (c.loadData mmu (loadSize op) (c.gpr base + disp)).2)

theorem setGpr_same (c : Cpu σ) (r : Gpr) : c.setGpr r (c.gpr r) = c := by
  rw [Cpu.setGpr, Function.update_eq_self]

/-- What is loaded fits into its size. -/
theorem loadData_fits (c : Cpu σ) (s : Size) (addr : BitVec 64) {w : ℕ} (hs : s.bits ≤ w)
    (hw : w ≤ 64) :
    ((c.loadData mmu s addr).2.setWidth w).setWidth 64 = (c.loadData mmu s addr).2 := by
  unfold Cpu.loadData
  dsimp only
  cases (mmu.load s addr c.mem).2 with
  | ok v =>
    have hv : v.toNat < 2 ^ w := v.isLt.trans_le (Nat.pow_le_pow_right (by decide) hs)
    dsimp only
    rw [BitVec.setWidth_setWidth_of_le v hw]
    apply BitVec.eq_of_toNat_eq
    rw [BitVec.toNat_setWidth, BitVec.toNat_setWidth, BitVec.toNat_setWidth, Nat.mod_eq_of_lt hv]
  | error e => simp

/-- Every load has its emitter. -/
theorem emitData_load (E : EmitterRv64) (op : LoadOp) :
    ∃ f, emitData E (.load op) = E.emitLoad f ∧ f.For mmu junk op := by
  cases op with
  | ld =>
    refine ⟨_, rfl, rfl, fun c r => ?_, fun c => (setGpr_same c rax).symm, fun c r base disp => ?_⟩
    · exact Cpu.exec_mov_reg mmu junk c r rax
    · rfl
  | lw | lh | lb =>
    refine ⟨_, rfl, rfl, fun c r => ?_, fun c => ?_, fun c r base disp => rfl⟩
    · simp [Cpu.exec, Cpu.read, hostResult, LoadOp.extend, Size.bits]
    · simp [Cpu.execAll, Cpu.exec, Cpu.read, LoadOp.extend, Size.bits]
  | lwu | lhu | lbu =>
    refine ⟨_, rfl, rfl, fun c r => ?_, fun c => (setGpr_same c rax).symm, fun c r base disp => ?_⟩
    · simp [Cpu.exec, Cpu.read, Cpu.write, Cpu.writeGpr, hostResult, Size.bits]
    · exact congrArg (Cpu.setGpr _ r) (loadData_fits mmu c _ _ (by decide) (by decide))

/-! ## Loads by a call -/

variable (E : EmitterRv64) (wrap : MmuOp → List Ins) {c : Cpu σ} {op : LoadOp} {dec : Operands}
  {f : EmitterRv64.LoadForm}

/-- What an emitter puts before the call of a load. -/
def callAddress (dec : Operands) : List Item :=
  if dec.rs1 = rv_ireg_x0 then [.ins (.mov .qword (.reg rax) (.imm dec.disp))]
  else E.emitAddress dec

/-- What it puts behind the check. -/
def toDest (f : EmitterRv64.LoadForm) (rd : Reg) : List Item :=
  if 0 < E.x86_reg rd then [.ins (f.toHost (E.gp rd))]
  else f.inRax.map .ins ++ [.ins (.mov .qword (EmitterRv64.rbp_reg rd) (.reg rax))]

theorem emitLoad_mmu (hmmu : E.use_mmu = true) (hrd : dec.rd ≠ rv_ireg_x0) :
    E.emitLoad f dec =
      callAddress E dec ++ ((.call (.load f.size) :: EmitterRv64.emitCheck dec) ++
        toDest E f dec.rd) := by
  rw [EmitterRv64.emitLoad, if_neg hrd, if_pos hmmu, callAddress, toDest, List.append_assoc]

theorem run_callAddress (hrun : c.control = .run) (hzero : c.reg E rv_ireg_x0 = 0)
    (dec : Operands) :
    SameGuest E c (c.run mmu wrap junk (callAddress E dec)) ∧
      (c.run mmu wrap junk (callAddress E dec)).gpr rax = c.reg E dec.rs1 + dec.disp := by
  rw [callAddress]
  by_cases h : dec.rs1 = rv_ireg_x0
  · rw [if_pos h, h, hzero, Cpu.run_cons, Cpu.run_nil, Cpu.step_ins _ _ _ hrun,
      Cpu.exec_mov_reg_imm, Cpu.setGpr_self]
    exact ⟨sameGuest_rax c _, (BitVec.zero_add _).symm⟩
  · rw [if_neg h]
    exact run_address E mmu junk wrap hrun dec

/-- Only the register `rd` has changed. -/
structure Loaded (rd : Reg) (v : BitVec 64) (c c' : Cpu σ) : Prop where
  regs : ∀ r, c'.reg E r = Function.update (c.reg E) rd v r
  mem : c'.mem = c.mem
  accesses : c'.accesses = c.accesses
  control : c'.control = .run

/-- Instructions go on to the next one. -/
theorem exec_control (c : Cpu σ) (i : Ins) : (c.exec mmu junk i).control = c.control := by
  cases i with
  | mov s dst src => cases src <;> cases dst <;> rfl
  | movzx s dst src | movsx s dst src => cases src <;> rfl
  | lea | xor | callC => rfl

theorem run_map_ins (hrun : c.control = .run) (code : List Ins) :
    c.run mmu wrap junk (code.map .ins) = c.execAll mmu junk code := by
  induction code generalizing c with
  | nil => rfl
  | cons i code ih =>
    rw [List.map_cons, Cpu.run_cons, Cpu.step_ins _ _ _ hrun]
    exact ih ((exec_control mmu junk c i).trans hrun)

theorem run_toDest (hf : f.For mmu junk op) (hrun : c.control = .run) (rd : Reg) :
    Loaded E rd (loadResult E rd op (c.gpr rax)) c (c.run mmu wrap junk (toDest E f rd)) := by
  rw [toDest, loadResult]
  by_cases hrd : 0 < E.x86_reg rd
  · rw [if_pos hrd, if_pos hrd, Cpu.run_cons, Cpu.run_nil, Cpu.step_ins _ _ _ hrun, hf.toHost]
    exact ⟨reg_setGpr_gp E hrd _, rfl, rfl, hrun⟩
  · have hrun' : (c.setGpr rax (op.extend (c.gpr rax))).control = .run := hrun
    have hregs := (sameGuest_rax (E := E) c (op.extend (c.gpr rax))).regs
    rw [if_neg hrd, if_neg hrd, Cpu.run_append, run_map_ins mmu junk wrap hrun, hf.inRax,
      Cpu.run_cons, Cpu.run_nil, Cpu.step_ins _ _ _ hrun', EmitterRv64.rbp_reg,
      Cpu.exec_mov_field_reg, Cpu.setGpr_self]
    refine ⟨fun r => ?_, rfl, rfl, hrun⟩
    rw [reg_setField_ireg E hrd, funext hregs]

/-! ## Direct accesses -/

/-- The register that an address is relative to. -/
def directBase (rs1 : Reg) : Gpr := if 0 < E.x86_reg rs1 then E.gp rs1 else rax

def directAddress (rs1 : Reg) : List Item :=
  if 0 < E.x86_reg rs1 then [] else [.ins (.mov .qword (.reg rax) (EmitterRv64.rbp_reg rs1))]

theorem run_directAddress (hrun : c.control = .run) (rs1 : Reg) :
    SameGuest E c (c.run mmu wrap junk (directAddress E rs1)) ∧
      (c.run mmu wrap junk (directAddress E rs1)).gpr (directBase E rs1) = c.reg E rs1 ∧
      (c.run mmu wrap junk (directAddress E rs1)).gpr rcx = c.gpr rcx := by
  rw [directAddress, directBase, Cpu.reg]
  by_cases h : 0 < E.x86_reg rs1
  · rw [if_pos h, if_pos h, if_pos h, Cpu.run_nil]
    exact ⟨SameGuest.refl E c, rfl, rfl⟩
  · rw [if_neg h, if_neg h, if_neg h, Cpu.run_cons, Cpu.run_nil, Cpu.step_ins _ _ _ hrun,
      EmitterRv64.rbp_reg, Cpu.exec_mov_reg_field]
    exact ⟨sameGuest_rax c _, c.setGpr_self rax _, c.setGpr_of_ne (by decide) _⟩

theorem emitLoad_direct (hmmu : E.use_mmu = false) (hrd : dec.rd ≠ rv_ireg_x0) :
    E.emitLoad f dec =
      directAddress E dec.rs1 ++
        .ins (f.direct (if 0 < E.x86_reg dec.rd then E.gp dec.rd else rax)
          (.data (directBase E dec.rs1) dec.disp)) ::
        (if 0 < E.x86_reg dec.rd then []
          else [.ins (.mov .qword (EmitterRv64.rbp_reg dec.rd) (.reg rax))]) := by
  have hmmu' : ¬ E.use_mmu = true := by rw [hmmu]; decide
  rw [EmitterRv64.emitLoad, if_neg hrd, if_neg hmmu', directAddress, directBase]
  by_cases h : 0 < E.x86_reg dec.rd <;> by_cases h' : 0 < E.x86_reg dec.rs1 <;> simp [h, h']

/-- A load that is not a call, when the memory answers. -/
theorem run_loadDirect (hf : f.For mmu junk op) (hmmu : E.use_mmu = false)
    (hrd : dec.rd ≠ rv_ireg_x0) (hrun : c.control = .run) {m : σ} {t : BitVec (loadSize op).bits}
    (hload : mmu.load (loadSize op) (c.reg E dec.rs1 + dec.disp) c.mem = (m, .ok t)) :
    Loaded E dec.rd (op.extend (t.setWidth 64))
      ({ c with
        mem := m
        accesses := c.accesses ++ [⟨.load (loadSize op), c.reg E dec.rs1 + dec.disp⟩] } : Cpu σ)
      (c.run mmu wrap junk (E.emitLoad f dec)) := by
  obtain ⟨hsame, hbase, -⟩ := run_directAddress mmu junk E wrap hrun dec.rs1
  rw [emitLoad_direct E hmmu hrd, Cpu.run_append]
  generalize c.run mmu wrap junk (directAddress E dec.rs1) = c₁ at hsame hbase
  have hrun₁ : c₁.control = .run := hsame.control.trans hrun
  have hdata : c₁.loadData mmu (loadSize op) (c₁.gpr (directBase E dec.rs1) + dec.disp) =
      ({ c₁ with
        mem := m
        accesses := c.accesses ++ [⟨.load (loadSize op), c.reg E dec.rs1 + dec.disp⟩] },
        t.setWidth 64) := by
    rw [Cpu.loadData, hbase, hsame.mem, hload, hsame.accesses]
  rw [Cpu.run_cons, Cpu.step_ins _ _ _ hrun₁, hf.direct, hdata]
  generalize hc₂ : ({ c₁ with
    mem := m
    accesses := c.accesses ++ [⟨.load (loadSize op), c.reg E dec.rs1 + dec.disp⟩] } : Cpu σ) = c₂
  have hregs : c₂.reg E = c.reg E := by
    rw [← hc₂]
    exact funext hsame.regs
  have hmem : c₂.mem = m := by rw [← hc₂]
  have haccesses : c₂.accesses =
      c.accesses ++ [⟨.load (loadSize op), c.reg E dec.rs1 + dec.disp⟩] := by rw [← hc₂]
  have hrun₂ : c₂.control = .run := by rw [← hc₂]; exact hrun₁
  by_cases hhost : 0 < E.x86_reg dec.rd
  · rw [if_pos hhost, if_pos hhost, Cpu.run_nil]
    refine ⟨fun r => ?_, hmem, haccesses, hrun₂⟩
    rw [reg_setGpr_gp E hhost, hregs]
    rfl
  · have hrun₃ : (c₂.setGpr rax (op.extend (t.setWidth 64))).control = .run := hrun₂
    rw [if_neg hhost, if_neg hhost, Cpu.run_cons, Cpu.run_nil, Cpu.step_ins _ _ _ hrun₃,
      EmitterRv64.rbp_reg, Cpu.exec_mov_field_reg, Cpu.setGpr_self]
    refine ⟨fun r => ?_, hmem, haccesses, hrun₂⟩
    rw [reg_setField_ireg E hhost, funext (sameGuest_rax (E := E) c₂ _).regs, hregs]
    rfl

/-! ## Stores -/

/-- The instruction that puts the value for a call into `rcx`. -/
def callValue (s : Size) (rs2 : Reg) : Ins :=
  if rs2 = rv_ireg_x0 then .xor rcx rcx
  else .mov (if s = .qword then .qword else .dword) (.reg rcx)
    (if 0 < E.x86_reg rs2 then .reg (E.gp rs2) else EmitterRv64.rbp_reg rs2)

theorem emitStore_mmu (hmmu : E.use_mmu = true) (s : Size) (dec : Operands) :
    E.emitStore s dec =
      E.emitAddress dec ++ .ins (callValue E s dec.rs2) ::
        .call (.store s) :: EmitterRv64.emitCheck dec := by
  rw [EmitterRv64.emitStore, callValue]
  by_cases h : dec.rs2 = rv_ireg_x0
  · rw [if_pos h, if_pos hmmu, if_pos h]
  · rw [if_neg h, if_pos hmmu, if_neg h]

/-- A value that is moved in a size of at least the store's. -/
theorem setWidth_moved {s : Size} {w : ℕ} (hs : s.bits ≤ w) (hw : w ≤ 64) (x : BitVec 64) :
    (((x.setWidth w).setWidth 64).setWidth s.bits) = x.setWidth s.bits := by
  rw [BitVec.setWidth_setWidth_of_le _ (hs.trans hw), BitVec.setWidth_setWidth_of_le _ hs]

theorem exec_callValue (hzero : c.reg E rv_ireg_x0 = 0) (s : Size) (rs2 : Reg) :
    ∃ v : BitVec 64, c.exec mmu junk (callValue E s rs2) = c.setGpr rcx v ∧
      v.setWidth s.bits = (c.reg E rs2).setWidth s.bits := by
  rw [callValue]
  by_cases h : rs2 = rv_ireg_x0
  · rw [if_pos h, h, hzero]
    refine ⟨_, rfl, ?_⟩
    rw [BitVec.xor_self]
    simp
  · rw [if_neg h, Cpu.reg]
    by_cases hhost : 0 < E.x86_reg rs2
    · rw [if_pos hhost, if_pos hhost]
      cases s with
      | qword => exact ⟨_, Cpu.exec_mov_reg mmu junk c rcx (E.gp rs2), rfl⟩
      | dword | word | byte =>
        exact ⟨_, rfl, (setWidth_moved (w := 32) (by decide) (by decide) _).trans
          (setWidth_moved (w := 32) (by decide) (by decide) _)⟩
    · rw [if_neg hhost, if_neg hhost]
      cases s with
      | qword => exact ⟨_, Cpu.exec_mov_reg_field mmu junk c rcx _, rfl⟩
      | dword | word | byte =>
        exact ⟨_, rfl, (setWidth_moved (w := 32) (by decide) (by decide) _).trans
          (setWidth_moved (w := 32) (by decide) (by decide) _)⟩

/-- The instruction that stores directly. -/
def directSource (rs2 : Reg) : Operand :=
  if rs2 = rv_ireg_x0 then .imm 0 else .reg (if 0 < E.x86_reg rs2 then E.gp rs2 else rcx)

def directValue (rs2 : Reg) : List Item :=
  if rs2 = rv_ireg_x0 ∨ 0 < E.x86_reg rs2 then []
  else [.ins (.mov .qword (.reg rcx) (EmitterRv64.rbp_reg rs2))]

theorem emitStore_direct (hmmu : E.use_mmu = false) (s : Size) (dec : Operands) :
    E.emitStore s dec =
      directValue E dec.rs2 ++ (directAddress E dec.rs1 ++
        [.ins (.mov s (.data (directBase E dec.rs1) dec.disp) (directSource E dec.rs2))]) := by
  have hmmu' : ¬ E.use_mmu = true := by rw [hmmu]; decide
  rw [EmitterRv64.emitStore, directValue, directAddress, directBase, directSource]
  by_cases h : dec.rs2 = rv_ireg_x0
  · rw [if_pos h, if_neg hmmu', if_pos h]
    by_cases h' : 0 < E.x86_reg dec.rs1 <;> simp [h, h']
  · rw [if_neg h, if_neg hmmu', if_neg h]
    by_cases h' : 0 < E.x86_reg dec.rs1 <;> by_cases h'' : 0 < E.x86_reg dec.rs2 <;>
      simp [h, h', h'']

theorem run_directValue (hrun : c.control = .run) (rs2 : Reg) :
    SameGuest E c (c.run mmu wrap junk (directValue E rs2)) ∧
      (rs2 ≠ rv_ireg_x0 → ¬ 0 < E.x86_reg rs2 →
        (c.run mmu wrap junk (directValue E rs2)).gpr rcx = c.reg E rs2) := by
  rw [directValue]
  by_cases h : rs2 = rv_ireg_x0 ∨ 0 < E.x86_reg rs2
  · rw [if_pos h, Cpu.run_nil]
    exact ⟨SameGuest.refl E c, fun hne hhost => absurd h (not_or.mpr ⟨hne, hhost⟩)⟩
  · rw [if_neg h, Cpu.run_cons, Cpu.run_nil, Cpu.step_ins _ _ _ hrun, EmitterRv64.rbp_reg,
      Cpu.exec_mov_reg_field, Cpu.setGpr_self, Cpu.reg]
    exact ⟨sameGuest_rcx c _, fun _ hhost => (if_neg hhost).symm⟩

/-- Only the memory has changed, by a store. -/
structure Stored (s : Size) (addr value : BitVec 64) (c c' : Cpu σ) : Prop where
  regs : ∀ r, c'.reg E r = c.reg E r
  mem : c'.mem = (mmu.access (.store s) addr value c.mem).1
  accesses : c'.accesses = c.accesses ++ [⟨.store s, addr⟩]
  control : c'.control = .run

theorem access_store_fst (mmu : Mmu σ) (s : Size) (addr v : BitVec 64) (m : σ) :
    (mmu.access (.store s) addr v m).1 = (mmu.store s addr (v.setWidth s.bits) m).1 := by
  unfold Mmu.access
  dsimp only
  split <;> simp [*]

theorem run_storeDirect (hmmu : E.use_mmu = false) (hrun : c.control = .run)
    (hzero : c.reg E rv_ireg_x0 = 0) (s : Size) (dec : Operands) :
    Stored mmu E s (c.reg E dec.rs1 + dec.disp) (c.reg E dec.rs2) c
      (c.run mmu wrap junk (E.emitStore s dec)) := by
  obtain ⟨hsame, hvalue⟩ := run_directValue mmu junk E wrap hrun dec.rs2
  rw [emitStore_direct E hmmu, Cpu.run_append, Cpu.run_append]
  generalize c.run mmu wrap junk (directValue E dec.rs2) = c₁ at hsame hvalue
  have hrun₁ : c₁.control = .run := hsame.control.trans hrun
  obtain ⟨hsame', hbase, hrcx⟩ := run_directAddress mmu junk E wrap hrun₁ dec.rs1
  generalize c₁.run mmu wrap junk (directAddress E dec.rs1) = c₂ at hsame' hbase hrcx
  have hall := hsame.trans hsame'
  have hrun₂ : c₂.control = .run := hall.control.trans hrun
  rw [hsame.regs] at hbase
  rw [Cpu.run_cons, Cpu.run_nil, Cpu.step_ins _ _ _ hrun₂]
  -- the part of the source that is written is that of the register
  have hexec : ∃ v : BitVec 64, v.setWidth s.bits = (c.reg E dec.rs2).setWidth s.bits ∧
      c₂.exec mmu junk (.mov s (.data (directBase E dec.rs1) dec.disp) (directSource E dec.rs2)) =
        c₂.storeData mmu s (c.reg E dec.rs1 + dec.disp) v := by
    rw [← hbase, directSource]
    by_cases hrs2 : dec.rs2 = rv_ireg_x0
    · rw [if_pos hrs2, hrs2, hzero]
      exact ⟨0, rfl, rfl⟩
    · rw [if_neg hrs2]
      refine ⟨_, ?_, rfl⟩
      have hsource : c₂.gpr (if 0 < E.x86_reg dec.rs2 then E.gp dec.rs2 else rcx) =
          c.reg E dec.rs2 := by
        by_cases hhost : 0 < E.x86_reg dec.rs2
        · rw [if_pos hhost, ← hall.regs, Cpu.reg, if_pos hhost]
        · rw [if_neg hhost, hrcx, hvalue hrs2 hhost]
      have hbits : s.bits ≤ 64 := by cases s <;> decide
      rw [hsource, BitVec.setWidth_setWidth_of_le _ hbits, BitVec.setWidth_eq]
  obtain ⟨v, hv, hexec⟩ := hexec
  rw [hexec]
  refine ⟨hall.regs, ?_, ?_, hrun₂⟩
  · rw [access_store_fst, ← hv, Cpu.storeData, hall.mem]
  · rw [Cpu.storeData, hall.accesses]

/-! ## Outcomes -/

theorem interp_load_ok {g : GuestState σ} {m : σ} {t : BitVec (loadSize op).bits}
    (hrd : dec.rd ≠ rv_ireg_x0)
    (hload : mmu.load (loadSize op) (g.ireg dec.rs1 + dec.disp) g.mem = (m, .ok t)) :
    interpData mmu (.load op) dec g =
      (⟨Function.update g.ireg dec.rd (op.extend (t.setWidth 64)), m,
        g.accesses ++ [⟨.load (loadSize op), g.ireg dec.rs1 + dec.disp⟩]⟩, none) := by
  rw [interpData]
  dsimp only
  rw [hload]
  dsimp only
  rw [if_neg hrd]

theorem interp_load_error {g : GuestState σ} {m : σ} {e : Fault}
    (hload : mmu.load (loadSize op) (g.ireg dec.rs1 + dec.disp) g.mem = (m, .error e)) :
    interpData mmu (.load op) dec g =
      (⟨g.ireg, m, g.accesses ++ [⟨.load (loadSize op), g.ireg dec.rs1 + dec.disp⟩]⟩, some e) := by
  rw [interpData]
  dsimp only
  rw [hload]

theorem access_load_ok {s : Size} {addr : BitVec 64} {m m' : σ} {t : BitVec s.bits}
    (hload : mmu.load s addr m = (m', .ok t)) (value u : BitVec 64) :
    mmu.access (.load s) addr value m = (m', none) ∧ mmu.result (.load s) addr m u = join t u := by
  rw [Mmu.access, Mmu.result, hload]
  exact ⟨rfl, rfl⟩

theorem access_load_error {s : Size} {addr : BitVec 64} {m m' : σ} {e : Fault}
    (hload : mmu.load s addr m = (m', .error e)) (value : BitVec 64) :
    mmu.access (.load s) addr value m = (m', some e) := by
  rw [Mmu.access, hload]

theorem interp_store (op : StoreOp) (dec : Operands) (g : GuestState σ) :
    interpData mmu (.store op) dec g =
      (⟨g.ireg,
        (mmu.access (.store (storeSize op)) (g.ireg dec.rs1 + dec.disp) (g.ireg dec.rs2) g.mem).1,
        g.accesses ++ [⟨.store (storeSize op), g.ireg dec.rs1 + dec.disp⟩]⟩,
        (mmu.access (.store (storeSize op)) (g.ireg dec.rs1 + dec.disp) (g.ireg dec.rs2) g.mem).2) := by
  rw [interpData, Mmu.access]
  dsimp only
  cases mmu.store (storeSize op) (g.ireg dec.rs1 + dec.disp)
    ((g.ireg dec.rs2).setWidth (storeSize op).bits) g.mem with
  | mk m' r =>
    cases r with
    | ok u => rfl
    | error e => rfl

theorem emitData_store (E : EmitterRv64) (op : StoreOp) :
    emitData E (.store op) = E.emitStore (storeSize op) := by
  cases op <;> rfl

end

section
variable {σ : Type} {K : Compiler σ} {junk : Gpr → BitVec 64} {c : Cpu σ} {g g' : GuestState σ}
  {op : DataOp} {dec : Operands}

theorem agrees_of_ok (h : interpData K.mmu op dec g = (g', none)) :
    Agrees K junk op dec c g ↔
      (K.run junk c (emitData K.emitter op dec)).control = .run ∧
        Represents K.emitter (K.run junk c (emitData K.emitter op dec)) g' := by
  rw [Agrees, h]

theorem agrees_of_error {e : Fault} (h : interpData K.mmu op dec g = (g', some e)) :
    Agrees K junk op dec c g ↔
      (K.run junk c (emitData K.emitter op dec)).control = .term ∧
        (K.run junk c (emitData K.emitter op dec)).field .pc = dec.pc ∧
        Represents K.emitter (K.run junk c (emitData K.emitter op dec)) g' := by
  rw [Agrees, h]

theorem represents_of_agrees (h : Agrees K junk op dec c g) :
    Represents K.emitter (K.run junk c (emitData K.emitter op dec))
      (interpData K.mmu op dec g).1 := by
  cases hinterp : interpData K.mmu op dec g with
  | mk g' fault =>
    cases fault with
    | none => exact ((agrees_of_ok hinterp).mp h).2
    | some e => exact ((agrees_of_error hinterp).mp h).2.2

/-- A load whose result is not used is not made. -/
theorem agrees_load_zero {op : LoadOp} (hrep : Represents K.emitter c g)
    (hrd : dec.rd = rv_ireg_x0) : ¬ Agrees K junk (.load op) dec c g := by
  intro h
  obtain ⟨f, hf, -⟩ := emitData_load K.mmu junk K.emitter op
  have hrun : K.run junk c (emitData K.emitter (.load op) dec) = c := by
    rw [hf, EmitterRv64.emitLoad, if_pos hrd]
    rfl
  have hmade : (interpData K.mmu (.load op) dec g).1.accesses =
      g.accesses ++ [⟨.load (loadSize op), g.ireg dec.rs1 + dec.disp⟩] := by
    unfold interpData
    dsimp only
    split <;> rfl
  have haccesses := (represents_of_agrees h).accesses
  rw [hrun, hmade, hrep.accesses] at haccesses
  exact absurd (congrArg List.length haccesses) (by simp)

/-- A load by a call: the access and its check, and then the destination. -/
theorem run_loadMmu {op : LoadOp} {f : EmitterRv64.LoadForm} (hmmu : K.emitter.use_mmu = true)
    (hf : f.For K.mmu junk op) (hrep : Represents K.emitter c g) (hrun : c.control = .run)
    (hrd : dec.rd ≠ rv_ireg_x0) :
    ∃ c', Checked K.emitter K.mmu junk (.load (loadSize op)) (g.ireg dec.rs1 + dec.disp) 0 dec c c' ∧
      K.run junk c (K.emitter.emitLoad f dec) = K.run junk c' (toDest K.emitter f dec.rd) := by
  obtain ⟨hsame, haddr⟩ := run_callAddress K.mmu junk K.emitter K.emitter.create_load_store hrun
    ((hrep.regs _).trans hrep.zero) dec
  rw [hrep.regs] at haddr
  refine ⟨_, run_access K.emitter K.mmu junk hrun hsame haddr (fun s h => by cases h) dec, ?_⟩
  rw [emitLoad_mmu K.emitter hmmu hrd, hf.size, Compiler.run, Cpu.run_append, Cpu.run_append]
  rfl

/-- A load by a call, when the memory answers. -/
theorem agrees_load_ok {op : LoadOp} {m : σ} {t : BitVec (loadSize op).bits}
    (hmmu : K.emitter.use_mmu = true) (hrep : Represents K.emitter c g) (hrun : c.control = .run)
    (hrd : dec.rd ≠ rv_ireg_x0)
    (hload : K.mmu.load (loadSize op) (g.ireg dec.rs1 + dec.disp) g.mem = (m, .ok t)) :
    Agrees K junk (.load op) dec c g ↔
      c.field .cause = 0 ∧
        loadResult K.emitter dec.rd op (join t (junk rax)) = op.extend (t.setWidth 64) := by
  obtain ⟨f, hemit, hf⟩ := emitData_load K.mmu junk K.emitter op
  obtain ⟨c', hchecked, hcode⟩ := run_loadMmu hmmu hf hrep hrun hrd
  rw [← hrep.mem] at hload
  obtain ⟨haccess, hresult⟩ := access_load_ok K.mmu hload 0 (junk rax)
  rw [agrees_of_ok (interp_load_ok K.mmu hrd (hrep.mem ▸ hload)), hemit, hcode]
  have hmem := hchecked.mem
  have hgood := hchecked.good
  rw [haccess] at hmem
  rw [haccess, hresult] at hgood
  by_cases hcause : c.field .cause = 0
  · obtain ⟨hcontrol, hrax⟩ := hgood rfl hcause
    have hloaded := run_toDest K.mmu junk K.emitter K.emitter.create_load_store hf hcontrol dec.rd
    rw [hrax] at hloaded
    refine ⟨fun ⟨_, hrep'⟩ => ⟨hcause, ?_⟩, fun ⟨_, hvalue⟩ => ⟨hloaded.control, ?_⟩⟩
    · have hreg := (hloaded.regs dec.rd).symm.trans (hrep'.regs dec.rd)
      rw [Function.update_self] at hreg
      exact hreg.trans (Function.update_self ..)
    · rw [hvalue] at hloaded
      refine ⟨fun r => ?_, ?_, hloaded.mem.trans hmem, ?_⟩
      · refine (hloaded.regs r).trans ?_
        rw [funext hchecked.regs, funext hrep.regs]
      · dsimp only
        rw [Function.update_of_ne hrd.symm, hrep.zero]
      · refine hloaded.accesses.trans ?_
        rw [hchecked.accesses, hrep.accesses]
  · have hterm := hchecked.stale (congrArg Prod.snd haccess) hcause
    have hstop : K.run junk c' (toDest K.emitter f dec.rd) = c' :=
      Cpu.run_term K.mmu junk K.emitter.create_load_store hterm _
    rw [hstop, hterm]
    exact iff_of_false (fun h => by cases h.1) (fun h => hcause h.1)

/-- A load by a call that fails leaves the trace. -/
theorem agrees_load_error {op : LoadOp} {m : σ} {e : Fault} (hmmu : K.emitter.use_mmu = true)
    (hrep : Represents K.emitter c g) (hrun : c.control = .run) (hrd : dec.rd ≠ rv_ireg_x0)
    (hload : K.mmu.load (loadSize op) (g.ireg dec.rs1 + dec.disp) g.mem = (m, .error e)) :
    Agrees K junk (.load op) dec c g ↔ PcFits dec.pc := by
  obtain ⟨f, hemit, hf⟩ := emitData_load K.mmu junk K.emitter op
  obtain ⟨c', hchecked, hcode⟩ := run_loadMmu hmmu hf hrep hrun hrd
  rw [← hrep.mem] at hload
  have haccess := access_load_error K.mmu hload 0
  obtain ⟨hterm, hpc⟩ := hchecked.fault e (congrArg Prod.snd haccess)
  have hmem := hchecked.mem
  rw [haccess] at hmem
  have hstop : K.run junk c' (toDest K.emitter f dec.rd) = c' :=
    Cpu.run_term K.mmu junk K.emitter.create_load_store hterm _
  rw [agrees_of_error (interp_load_error K.mmu (hrep.mem ▸ hload)), hemit, hcode, hstop, hpc,
    pcStored_eq_iff]
  refine ⟨fun h => h.2.1, fun h => ⟨hterm, h, ?_⟩⟩
  refine ⟨fun r => (hchecked.regs r).trans (hrep.regs r), hrep.zero, hmem, ?_⟩
  rw [hchecked.accesses, hrep.accesses]

/-- A load that is not a call is right. -/
theorem agrees_load_direct {op : LoadOp} (hmmu : K.emitter.use_mmu = false)
    (hrep : Represents K.emitter c g) (hrun : c.control = .run) (hrd : dec.rd ≠ rv_ireg_x0) :
    Agrees K junk (.load op) dec c g := by
  obtain ⟨f, hemit, hf⟩ := emitData_load K.mmu junk K.emitter op
  obtain ⟨m, t, hload⟩ := (K.direct hmmu).1 (loadSize op) (g.ireg dec.rs1 + dec.disp) g.mem
  rw [agrees_of_ok (interp_load_ok K.mmu hrd hload), hemit]
  rw [← hrep.regs, ← hrep.mem] at hload
  have hloaded := run_loadDirect K.mmu junk K.emitter K.emitter.create_load_store hf hmmu hrd hrun
    hload
  refine ⟨hloaded.control, fun r => ?_, ?_, hloaded.mem, ?_⟩
  · refine (hloaded.regs r).trans ?_
    have hregs : c.reg K.emitter = g.ireg := funext hrep.regs
    rw [← hregs]
    rfl
  · dsimp only
    rw [Function.update_of_ne hrd.symm, hrep.zero]
  · refine hloaded.accesses.trans ?_
    rw [hrep.accesses, hrep.regs]

/-- A store that is not a call is right. -/
theorem agrees_store_direct {op : StoreOp} (hmmu : K.emitter.use_mmu = false)
    (hrep : Represents K.emitter c g) (hrun : c.control = .run) :
    Agrees K junk (.store op) dec c g := by
  have hstored := run_storeDirect K.mmu junk K.emitter K.emitter.create_load_store hmmu hrun
    ((hrep.regs _).trans hrep.zero) (storeSize op) dec
  rw [hrep.regs, hrep.regs] at hstored
  have hnone : (K.mmu.access (.store (storeSize op)) (g.ireg dec.rs1 + dec.disp) (g.ireg dec.rs2)
      g.mem).2 = none := by
    obtain ⟨m, u, hstore⟩ := (K.direct hmmu).2 (storeSize op) (g.ireg dec.rs1 + dec.disp)
      ((g.ireg dec.rs2).setWidth _) g.mem
    rw [Mmu.access, hstore]
  have hinterp := interp_store K.mmu op dec g
  rw [hnone] at hinterp
  rw [agrees_of_ok hinterp, emitData_store]
  refine ⟨hstored.control, fun r => (hstored.regs r).trans (hrep.regs r), hrep.zero, ?_, ?_⟩
  · rw [← hrep.mem]
    exact hstored.mem
  · rw [← hrep.accesses]
    exact hstored.accesses

/-- A store by a call. -/
theorem run_storeMmu (junk : Gpr → BitVec 64) (hmmu : K.emitter.use_mmu = true)
    (hrep : Represents K.emitter c g) (hrun : c.control = .run) (s : Size) (dec : Operands) :
    Checked K.emitter K.mmu junk (.store s) (g.ireg dec.rs1 + dec.disp) (g.ireg dec.rs2) dec c
      (K.run junk c (K.emitter.emitStore s dec)) := by
  obtain ⟨hsame, haddr⟩ := run_address K.emitter K.mmu junk K.emitter.create_load_store hrun dec
  rw [emitStore_mmu K.emitter hmmu, Compiler.run, Cpu.run_append]
  generalize c.run K.mmu K.emitter.create_load_store junk (K.emitter.emitAddress dec) = c₁
    at hsame haddr
  have hrun₁ : c₁.control = .run := hsame.control.trans hrun
  have hzero : c₁.reg K.emitter rv_ireg_x0 = 0 :=
    (hsame.regs _).trans ((hrep.regs _).trans hrep.zero)
  obtain ⟨v, hexec, hv⟩ := exec_callValue K.mmu junk K.emitter hzero s dec.rs2
  rw [Cpu.run_cons, Cpu.step_ins _ _ _ hrun₁, hexec]
  rw [hsame.regs, hrep.regs] at hv
  rw [hrep.regs] at haddr
  refine run_access K.emitter K.mmu junk hrun (hsame.trans (sameGuest_rcx c₁ v)) ?_ ?_ dec
  · rw [c₁.setGpr_of_ne (by decide), haddr]
  · rintro s' hs'
    cases hs'
    rw [Cpu.setGpr_self, hv]

/-- It is right unless the pc of a fault does not fit, or an earlier fault is still noted. -/
theorem agrees_store_mmu {op : StoreOp} (hmmu : K.emitter.use_mmu = true)
    (hrep : Represents K.emitter c g) (hrun : c.control = .run) :
    Agrees K junk (.store op) dec c g ↔
      match (K.mmu.access (.store (storeSize op)) (g.ireg dec.rs1 + dec.disp) (g.ireg dec.rs2)
        g.mem).2 with
      | some _ => PcFits dec.pc
      | none => c.field .cause = 0 := by
  have hchecked := run_storeMmu junk hmmu hrep hrun (storeSize op) dec
  have hinterp := interp_store K.mmu op dec g
  obtain ⟨hregs, hmem, haccesses, hfault, hgood, hstale⟩ := hchecked
  rw [hrep.mem] at hmem hfault hgood hstale
  rw [hrep.accesses] at haccesses
  have hguest : Represents K.emitter
      (K.run junk c (K.emitter.emitStore (storeSize op) dec))
      ⟨g.ireg, (K.mmu.access (.store (storeSize op)) (g.ireg dec.rs1 + dec.disp) (g.ireg dec.rs2)
        g.mem).1, g.accesses ++ [⟨.store (storeSize op), g.ireg dec.rs1 + dec.disp⟩]⟩ :=
    ⟨fun r => (hregs r).trans (hrep.regs r), hrep.zero, hmem, haccesses⟩
  cases haccess : (K.mmu.access (.store (storeSize op)) (g.ireg dec.rs1 + dec.disp)
      (g.ireg dec.rs2) g.mem).2 with
  | some e =>
    obtain ⟨hterm, hpc⟩ := hfault e haccess
    rw [haccess] at hinterp
    rw [agrees_of_error hinterp, emitData_store, hpc, pcStored_eq_iff]
    exact ⟨fun h => h.2.1, fun h => ⟨hterm, h, hguest⟩⟩
  | none =>
    rw [haccess] at hinterp
    rw [agrees_of_ok hinterp, emitData_store]
    dsimp only
    by_cases hcause : c.field .cause = 0
    · exact iff_of_true ⟨(hgood haccess hcause).1, hguest⟩ hcause
    · rw [hstale haccess hcause]
      exact iff_of_false (fun h => by cases h.1) hcause

end

/-! ## When the code is right -/

def DataOp.mmuOp : DataOp → MmuOp
  | .load op => .load (loadSize op)
  | .store op => .store (storeSize op)

/-- The memory's answer to the access. -/
def faultOf {σ : Type} (mmu : Mmu σ) (op : DataOp) (dec : Operands) (g : GuestState σ) :
    Option Fault :=
  (mmu.access op.mmuOp (g.ireg dec.rs1 + dec.disp) (g.ireg dec.rs2) g.mem).2

/-- A load has a destination. By a call, a fault comes at a pc that the emitter can write; without
one no earlier fault is still noted, and the result of a load is widened. -/
def Meets {σ : Type} (K : Compiler σ) (op : DataOp) (dec : Operands) (c : Cpu σ)
    (g : GuestState σ) : Prop :=
  (∀ l, op = .load l → dec.rd ≠ rv_ireg_x0) ∧
    (K.emitter.use_mmu = true →
      match faultOf K.mmu op dec g with
      | some _ => PcFits dec.pc
      | none => c.field .cause = 0 ∧ ∀ l, op = .load l → Widens K.emitter dec.rd l)

theorem load_correct_iff {σ : Type} (K : Compiler σ) (op : LoadOp) (dec : Operands) {c : Cpu σ}
    {g : GuestState σ} (hrep : Represents K.emitter c g) (hrun : c.control = .run) :
    (∀ junk, Agrees K junk (.load op) dec c g) ↔ Meets K (.load op) dec c g := by
  by_cases hrd : dec.rd = rv_ireg_x0
  · exact iff_of_false (fun h => agrees_load_zero hrep hrd (h fun _ => 0))
      (fun h => h.1 op rfl hrd)
  cases hmmu : K.emitter.use_mmu with
  | false =>
    refine iff_of_true (fun junk => agrees_load_direct hmmu hrep hrun hrd) ⟨fun _ _ => hrd, ?_⟩
    rw [hmmu]
    exact fun h => absurd h (by decide)
  | true =>
    rw [Meets, faultOf, DataOp.mmuOp]
    cases hload : K.mmu.load (loadSize op) (g.ireg dec.rs1 + dec.disp) g.mem with
    | mk m r =>
      cases r with
      | ok t =>
        rw [(access_load_ok K.mmu hload _ 0).1, forall_congr' fun junk =>
          agrees_load_ok hmmu hrep hrun hrd hload]
        constructor
        · intro h
          refine ⟨fun _ _ => hrd, fun _ => ⟨(h fun _ => 0).1, ?_⟩⟩
          rintro l hl
          cases hl
          exact (widens_iff K.emitter dec.rd op t).mp fun u => (h fun _ => u).2
        · rintro ⟨-, h⟩ junk
          obtain ⟨hcause, hwidens⟩ := h hmmu
          exact ⟨hcause, (widens_iff K.emitter dec.rd op t).mpr (hwidens op rfl) (junk rax)⟩
      | error e =>
        rw [access_load_error K.mmu hload, forall_congr' fun junk =>
          agrees_load_error hmmu hrep hrun hrd hload]
        exact ⟨fun h => ⟨fun _ _ => hrd, fun _ => h fun _ => 0⟩, fun h _ => h.2 hmmu⟩

theorem store_correct_iff {σ : Type} (K : Compiler σ) (op : StoreOp) (dec : Operands) {c : Cpu σ}
    {g : GuestState σ} (hrep : Represents K.emitter c g) (hrun : c.control = .run) :
    (∀ junk, Agrees K junk (.store op) dec c g) ↔ Meets K (.store op) dec c g := by
  have hstore : ∀ l, DataOp.store op ≠ .load l := fun l h => by cases h
  cases hmmu : K.emitter.use_mmu with
  | false =>
    refine iff_of_true (fun junk => agrees_store_direct hmmu hrep hrun)
      ⟨fun l hl => absurd hl (hstore l), ?_⟩
    rw [hmmu]
    exact fun h => absurd h (by decide)
  | true =>
    rw [Meets, faultOf, DataOp.mmuOp, forall_congr' fun junk => agrees_store_mmu hmmu hrep hrun]
    cases (K.mmu.access (.store (storeSize op)) (g.ireg dec.rs1 + dec.disp) (g.ireg dec.rs2)
      g.mem).2 with
    | some e =>
      exact ⟨fun h => ⟨fun l hl => absurd hl (hstore l), fun _ => h fun _ => 0⟩,
        fun h _ => h.2 hmmu⟩
    | none =>
      exact ⟨fun h => ⟨fun l hl => absurd hl (hstore l),
        fun _ => ⟨h fun _ => 0, fun l hl => absurd hl (hstore l)⟩⟩, fun h _ => (h.2 hmmu).1⟩

/-- The compiled loads and stores do what the interpreter does, whatever a C function leaves in
its registers, exactly when they meet the condition. -/
theorem data_correct_iff {σ : Type} (K : Compiler σ) (op : DataOp) (dec : Operands) {c : Cpu σ}
    {g : GuestState σ} (hrep : Represents K.emitter c g) (hrun : c.control = .run) :
    (∀ junk, Agrees K junk op dec c g) ↔ Meets K op dec c g := by
  cases op with
  | load op => exact load_correct_iff K op dec hrep hrun
  | store op => exact store_correct_iff K op dec hrep hrun

/-! ## Two loads -/

/-- A memory that is zero. -/
def blank : Mmu Unit := ⟨fun _ _ m => (m, .ok 0), fun _ _ _ m => (m, .ok ())⟩

def jit (use_mmu : Bool) : Compiler Unit where
  emitter := ⟨false, use_mmu⟩
  mmu := blank
  direct := fun _ => ⟨fun _ _ m => ⟨m, 0, rfl⟩, fun _ _ _ m => ⟨m, (), rfl⟩⟩

def idle : Cpu Unit := ⟨fun _ => 0, fun _ => 0, (), [], false, .run⟩

def idleGuest : GuestState Unit := ⟨fun _ => 0, (), []⟩

theorem idle_represents (E : EmitterRv64) : Represents E idle idleGuest :=
  ⟨fun _ => ite_self _, rfl, rfl, rfl⟩

/-- `lw a0, 8(a1)` by a call. -/
theorem word_load_correct :
    Meets (jit true) (.load .lw) ⟨0x10000, rv_ireg_a0, rv_ireg_a1, 0, 8⟩ idle idleGuest ∧
      ∀ junk, Agrees (jit true) junk (.load .lw) ⟨0x10000, rv_ireg_a0, rv_ireg_a1, 0, 8⟩ idle
        idleGuest := by
  have hmeets : Meets (jit true) (.load .lw) ⟨0x10000, rv_ireg_a0, rv_ireg_a1, 0, 8⟩ idle
      idleGuest := by
    refine ⟨fun _ _ => by decide, fun _ => ⟨rfl, fun l hl => ?_⟩⟩
    cases hl
    trivial
  exact ⟨hmeets, (data_correct_iff (jit true) (.load .lw)
    ⟨0x10000, rv_ireg_a0, rv_ireg_a1, 0, 8⟩ (idle_represents _) rfl).mpr hmeets⟩

/-- `lw x0, 8(a1)` is not made, and `lhu a0, 8(a1)` by a call that leaves ones above its result does
not load what is in memory. -/
theorem zero_and_narrow_loads_differ :
    Represents (jit false).emitter idle idleGuest ∧ Represents (jit true).emitter idle idleGuest ∧
    idle.control = .run ∧
    ¬ Agrees (jit false) (fun _ => 0) (.load .lw) ⟨0x10000, rv_ireg_x0, rv_ireg_a1, 0, 8⟩ idle
      idleGuest ∧
    ¬ Agrees (jit true) (fun _ => BitVec.allOnes 64) (.load .lhu)
      ⟨0x10000, rv_ireg_a0, rv_ireg_a1, 0, 8⟩ idle idleGuest := by
  refine ⟨idle_represents _, idle_represents _, rfl, agrees_load_zero (idle_represents _) rfl,
    fun h => ?_⟩
  obtain ⟨-, hvalue⟩ := (agrees_load_ok rfl (idle_represents _) rfl (by decide) rfl).mp h
  revert hvalue
  decide

end RvCkpt.Jit
