import RvCkpt.Jit.TraceCorrect

/-! # Compiled traces go on

The labels of a trace are bound, the traces it jumps to are there, and the host comes to the end of the
code of every operation: it is never stuck before it is back in the run loop.
-/

namespace RvCkpt.Jit
open Isa Annotation
set_option autoImplicit false

/-! ## The code -/

/-- The operations that go on to the next one. -/
def GuestOp.straight : GuestOp → Bool
  | .branch _ | .jalr => false
  | _ => true

/-- A target that a jump of the code finds. -/
def Target.Closed (lookup_trace_slow : BitVec 64 → Bool) (code : List Chunk) : Target → Prop
  | .label pc => Chunk.bind pc ∈ code
  | .entry pc => lookup_trace_slow pc = true
  | .tramp _ => True

/-- A piece that is the code of its operation, and whose jumps have targets. -/
def Chunk.Closed (E : EmitterRv64) (lookup_trace_slow : BitVec 64 → Bool) (code : List Chunk) :
    Chunk → Prop
  | .jcc _ target | .jmp target => target.Closed lookup_trace_slow code
  | .body e => e.dec.guestOp.all GuestOp.straight = true ∧
      ∀ op, e.dec.dataOp = some op → Emission.calls E e.dec = false
  | .access e => (∃ op, e.dec.dataOp = some op) ∨ e.dec.op = .auipc_lw ∨ e.dec.op = .auipc_ld
  | _ => True

section
variable {E : EmitterRv64} {lookup_trace_slow : BitVec 64 → Bool} {code code' : List Chunk} {e : Entry}

theorem Target.Closed.mono {target : Target} (h : target.Closed lookup_trace_slow code)
    (hsub : code ⊆ code') : target.Closed lookup_trace_slow code' := by
  cases target with
  | label pc => exact hsub h
  | entry pc => exact h
  | tramp pc => exact h

theorem Chunk.Closed.mono {p : Chunk} (h : p.Closed E lookup_trace_slow code) (hsub : code ⊆ code') :
    p.Closed E lookup_trace_slow code' := by
  cases p with
  | jcc cond target => exact Target.Closed.mono h hsub
  | jmp target => exact Target.Closed.mono h hsub
  | add | body | access | guard | cmp | bind | lookup | term | ret => exact h

theorem outside_closed (pc : BitVec 64) :
    (Emission.outside lookup_trace_slow pc).Closed lookup_trace_slow code := by
  unfold Emission.outside
  split
  · exact ‹lookup_trace_slow pc = true›
  · trivial

/-! ### Operations -/

theorem guestOp_straight : jit_isa_rv64.all (fun op => match op with
    | .rv op => branchOp (.rv op) = none → op ≠ .jalr →
        (GuestOp.of (Emu.execCase op)).all GuestOp.straight = true
    | _ => true) = true := by
  decide

/-- The branches and indirect jumps are emitted as such. -/
theorem Entry.straight (hbranch : branchOp e.dec.op = none) (hjalr : e.dec.op ≠ .rv .jalr) :
    e.dec.guestOp.all GuestOp.straight = true := by
  cases hop : e.dec.op with
  | rv op =>
    have hone := List.all_eq_true.mp guestOp_straight _ (e.supported hop)
    rw [hop] at hone hbranch hjalr
    rw [guestOp_of hop]
    exact of_decide_eq_true hone hbranch fun h => hjalr (congrArg JitOp.rv h)
  | la | call | zextw | addiwz | rorwi_rr | rorwi_lr | rordi_rr | rordi_lr | auipc_lw | auipc_ld =>
    have hnone : e.dec.guestOp = none := by rw [JitDecode.guestOp, hop]
    rw [hnone]
    rfl

/-- The operations that call a function are loads and stores. -/
theorem closed_access (h : Emission.calls E e.dec = true) :
    (Chunk.access e).Closed E lookup_trace_slow code := by
  have hdata : ∀ {op : Asm.Op} {d : DataOp}, e.dec.op = .rv op →
      GuestOp.of (Emu.execCase op) = some (.data d) → ∃ op, e.dec.dataOp = some op := by
    intro op d hop hd
    refine ⟨d, ?_⟩
    rw [JitDecode.dataOp, guestOp_of hop, hd]
  obtain ⟨-, hop⟩ := Bool.and_eq_true_iff.mp h
  split at hop
  case h_8 hdec => exact .inr (.inl hdec)
  case h_9 hdec => exact .inr (.inr hdec)
  case h_14 => cases hop
  all_goals exact .inl (hdata ‹_› rfl)

def loadOps : List JitOp :=
  [.rv .ld, .rv .lw, .rv .lwu, .rv .lh, .rv .lhu, .rv .lb, .rv .lbu]

def storeOps : List JitOp := [.rv .sd, .rv .sw, .rv .sh, .rv .sb]

theorem guestOp_data : jit_isa_rv64.all (fun op => match op with
    | .rv o =>
      match GuestOp.of (Emu.execCase o) with
      | some (.data (.load _)) => .rv o ∈ loadOps
      | some (.data (.store _)) => .rv o ∈ storeOps
      | _ => true
    | _ => true) = true := by
  decide

theorem Entry.data_mem {d : DataOp} (h : e.dec.dataOp = some d) :
    (∃ l, d = .load l) ∧ e.dec.op ∈ loadOps ∨ e.dec.op ∈ storeOps := by
  have hguest := dataOp_guestOp h
  cases hop : e.dec.op with
  | rv op =>
    have hone := List.all_eq_true.mp guestOp_data _ (e.supported hop)
    rw [guestOp_of hop] at hguest
    rw [hop] at hone
    dsimp only at hone
    rw [hguest] at hone
    cases d with
    | load l => exact .inl ⟨⟨l, rfl⟩, of_decide_eq_true hone⟩
    | store s => exact .inr (of_decide_eq_true hone)
  | la | call | zextw | addiwz | rorwi_rr | rorwi_lr | rordi_rr | rordi_lr | auipc_lw | auipc_ld =>
    rw [JitDecode.guestOp, hop] at hguest
    cases hguest

/-- A load or store calls a function where the memory management unit is used. -/
theorem calls_data {d : DataOp} (h : e.dec.dataOp = some d)
    (hrd : ∀ l, d = .load l → e.dec.rd ≠ rv_ireg_zero) : Emission.calls E e.dec = E.use_mmu := by
  rcases Entry.data_mem h with ⟨⟨l, hl⟩, hmem⟩ | hmem
  · have hrd := bne_iff_ne.mpr (hrd l hl)
    simp only [loadOps, List.mem_cons, List.not_mem_nil, or_false] at hmem
    rcases hmem with hop | hop | hop | hop | hop | hop | hop
    all_goals
      rw [Emission.calls, hop]
      exact (congrArg (E.use_mmu && ·) hrd).trans (Bool.and_true _)
  · simp only [storeOps, List.mem_cons, List.not_mem_nil, or_false] at hmem
    rcases hmem with hop | hop | hop | hop
    all_goals
      rw [Emission.calls, hop]
      exact Bool.and_true _

/-! ### The emitter -/

namespace Assembly
variable {s : Assembly} {p : Chunk}

/-- The code so far is closed, and its labels are bound. -/
structure Closed (E : EmitterRv64) (lookup_trace_slow : BitVec 64 → Bool) (s : Assembly) : Prop where
  pieces : ∀ p ∈ s.code, p.Closed E lookup_trace_slow s.code
  labels : ∀ pc ∈ s.labels, Chunk.bind pc ∈ s.code

theorem Closed.put (h : s.Closed E lookup_trace_slow) (hp : p.Closed E lookup_trace_slow s.code) :
    (s.put p).Closed E lookup_trace_slow := by
  have hsub : s.code ⊆ (s.put p).code := List.subset_append_left ..
  refine ⟨fun q hq => ?_, fun pc hpc => hsub (h.labels pc hpc)⟩
  rcases List.mem_append.mp hq with hq | hq
  · exact (h.pieces q hq).mono hsub
  · rw [List.mem_singleton.mp hq]
    exact hp.mono hsub

theorem Closed.commit_instret (h : s.Closed E lookup_trace_slow) :
    s.commit_instret.Closed E lookup_trace_slow := by
  unfold Assembly.commit_instret
  split
  · obtain ⟨hpieces, hlabels⟩ := h.put (p := .add s.instret) trivial
    exact ⟨hpieces, hlabels⟩
  · exact h

theorem Closed.jump (h : s.Closed E lookup_trace_slow) (cond : Cond) {target : Target}
    (htarget : target.Closed lookup_trace_slow s.code) :
    (s.put (.jcc cond target)).Closed E lookup_trace_slow := h.put (p := .jcc cond target) htarget

theorem Closed.emit_branch (h : s.Closed E lookup_trace_slow) (e : Entry) (bf ibf : Cond) :
    (s.emit_branch lookup_trace_slow e bf ibf).Closed E lookup_trace_slow := by
  have hcmp : (s.commit_instret.put (.cmp e)).Closed E lookup_trace_slow :=
    h.commit_instret.put trivial
  unfold Assembly.emit_branch
  dsimp only
  generalize s.commit_instret.put (.cmp e) = s₁ at hcmp
  have htwo : ∀ (cond : Cond) (target target' : Target), target.Closed lookup_trace_slow s₁.code →
      target'.Closed lookup_trace_slow s₁.code →
        ((s₁.put (.jcc cond target)).put (.jmp target')).Closed E lookup_trace_slow := by
    intro cond target target' htarget htarget'
    refine (hcmp.jump cond htarget).put ?_
    exact htarget'.mono (List.subset_append_left ..)
  split
  · rename_i hlabels
    exact htwo _ (.label _) (.label _) (hcmp.labels _ hlabels.1) (hcmp.labels _ hlabels.2)
  split
  · rename_i hlabel
    obtain ⟨hpieces, hbound⟩ := htwo bf (.label _) _ (hcmp.labels _ hlabel.2) (outside_closed e.dec.cont_pc)
    exact ⟨hpieces, hbound⟩
  split
  · rename_i hlabel
    obtain ⟨hpieces, hbound⟩ := htwo ibf (.label _) _ (hcmp.labels _ hlabel.2) (outside_closed e.dec.branch_pc)
    exact ⟨hpieces, hbound⟩
  split
  · obtain ⟨hpieces, hbound⟩ := hcmp.jump ibf (outside_closed e.dec.cont_pc)
    exact ⟨hpieces, hbound⟩
  · obtain ⟨hpieces, hbound⟩ := hcmp.jump bf (outside_closed e.dec.branch_pc)
    exact ⟨hpieces, hbound⟩

theorem closed_body (hguest : e.dec.guestOp = some .jal ∨ e.dec.guestOp = none) :
    (Chunk.body e).Closed E lookup_trace_slow code := by
  refine ⟨?_, fun op hop => ?_⟩
  · rcases hguest with h | h
    all_goals
      rw [h]
      rfl
  · have hdata := dataOp_guestOp hop
    rcases hguest with h | h
    all_goals
      rw [h] at hdata
      cases hdata

theorem Closed.emit_jal (h : s.Closed E lookup_trace_slow) (hop : e.dec.op = .rv .jal) :
    (s.emit_jal e).Closed E lookup_trace_slow := by
  have hbody : (Chunk.body e).Closed E lookup_trace_slow s.code := closed_body (.inl (guestOp_of hop))
  obtain ⟨hpieces, hlabels⟩ := h.put hbody
  unfold Assembly.emit_jal
  dsimp only
  split
  · exact ⟨hpieces, hlabels⟩
  · exact ⟨hpieces, hlabels⟩

theorem Closed.emit_jalr (h : s.Closed E lookup_trace_slow) (e : Entry) :
    (s.emit_jalr e).1.Closed E lookup_trace_slow := by
  have hcommit : ({ s with term_pc := 0 } : Assembly).commit_instret.Closed E lookup_trace_slow :=
    Closed.commit_instret ⟨h.pieces, h.labels⟩
  unfold Assembly.emit_jalr
  dsimp only
  split
  · obtain ⟨hpieces, hlabels⟩ := h.put (p := .guard e (s.callstack.headD 0)) trivial
    exact ⟨hpieces, hlabels⟩
  · obtain ⟨hpieces, hlabels⟩ := hcommit.put (p := .lookup e) trivial
    dsimp only
    split
    · exact ⟨hpieces, hlabels⟩
    · exact ⟨hpieces, hlabels⟩

theorem Closed.emit_call (h : s.Closed E lookup_trace_slow) (hop : e.dec.op = .call) :
    (s.emit_call e).Closed E lookup_trace_slow := by
  have hnone : e.dec.guestOp = none := by rw [JitDecode.guestOp, hop]
  obtain ⟨hpieces, hlabels⟩ := h.put (p := .body e) (closed_body (.inr hnone))
  exact ⟨hpieces, hlabels⟩

theorem Closed.emitOp (h : s.Closed E lookup_trace_slow) (e : Entry) :
    (s.emitOp E lookup_trace_slow e).1.Closed E lookup_trace_slow := by
  cases hbranch : branchOp e.dec.op with
  | some op =>
    rw [emitOp_branch _ _ hbranch]
    exact h.emit_branch e _ _
  | none =>
    by_cases hjal : e.dec.op = .rv .jal
    · rw [show (s.emitOp E lookup_trace_slow e).1 = s.emit_jal e by rw [Assembly.emitOp, hjal]]
      exact h.emit_jal hjal
    by_cases hjalr : e.dec.op = .rv .jalr
    · rw [show (s.emitOp E lookup_trace_slow e).1 = (s.emit_jalr e).1 by rw [Assembly.emitOp, hjalr]]
      exact h.emit_jalr e
    by_cases hcall : e.dec.op = .call
    · rw [show (s.emitOp E lookup_trace_slow e).1 = s.emit_call e by rw [Assembly.emitOp, hcall]]
      exact h.emit_call hcall
    rw [emitOp_straight _ _ hbranch ⟨hjal, hjalr, hcall⟩]
    have hpiece : (if Emission.calls E e.dec then Chunk.access e else .body e).Closed E lookup_trace_slow
        s.code := by
      split
      · exact closed_access ‹_›
      · exact ⟨Entry.straight hbranch hjalr, fun _ _ => Bool.eq_false_iff.mpr ‹_›⟩
    obtain ⟨hpieces, hlabels⟩ := h.put hpiece
    exact ⟨hpieces, hlabels⟩

theorem Closed.label (h : s.Closed E lookup_trace_slow) (e : Entry) :
    (s.label e).Closed E lookup_trace_slow := by
  unfold Assembly.label
  split
  · obtain ⟨hpieces, hlabels⟩ := h.commit_instret.put (p := .bind e.dec.pc) trivial
    refine ⟨hpieces, fun pc hpc => ?_⟩
    rcases List.mem_cons.mp hpc with rfl | hpc
    · exact List.mem_append_right _ List.mem_cons_self
    · exact hlabels pc (by simpa using hpc)
  · exact h

theorem Closed.emit (h : s.Closed E lookup_trace_slow) (e : Entry) :
    (s.emit E lookup_trace_slow e).1.Closed E lookup_trace_slow := by
  obtain ⟨hpieces, hlabels⟩ := h.label e
  unfold Assembly.emit
  split
  · exact h
  · rw [e.covers.instretOf]
    exact Closed.emitOp
      (s := { s.label e with instret := (s.label e).instret + e.insts.length }) ⟨hpieces, hlabels⟩ e

theorem Closed.foldl (h : s.Closed E lookup_trace_slow) (trace : List Entry) :
    (trace.foldl (fun s e => (s.emit E lookup_trace_slow e).1) s).Closed E lookup_trace_slow := by
  induction trace generalizing s with
  | nil => exact h
  | cons e trace ih => exact ih (h.emit e)

end Assembly

end

namespace CompiledTrace
variable (t : CompiledTrace)

theorem closed {p : Chunk} (hp : p ∈ t.chunks) : p.Closed t.emitter t.lookup_trace_slow t.chunks := by
  have hinit : Assembly.init.Closed t.emitter t.lookup_trace_slow :=
    ⟨List.forall_mem_nil _, List.forall_mem_nil _⟩
  have hterm := (hinit.foldl t.trace).put (p := .term t.assembly.term_pc) trivial
  exact (hterm.commit_instret.put (p := .ret) trivial).pieces p hp

/-- The code ends with the return. -/
theorem chunks_ret : ∃ code, t.chunks = code ++ [.ret] := ⟨_, rfl⟩

end CompiledTrace

/-! ## Operations -/

section
variable {σ : Type} {P : Program} {K : Compiler σ} {c : Cpu σ} {g : GuestCore σ} {e : Entry}

/-- Code that does not access memory runs through. -/
theorem body_proceeds (h : e.Right P K.emitter) (hlive : Live K.emitter c g.state)
    (hpc : g.pc = e.dec.pc) (hstraight : e.dec.guestOp.all GuestOp.straight = true)
    (hdata : e.dec.dataOp = none) (junk : Gpr → BitVec 64) (f : Option Flags) :
    ∃ code c' f', emitBody K.emitter e.dec = some code ∧
      HostState.run K.mmu junk code ⟨c, f, .run⟩ = ⟨c', f', .run⟩ := by
  have hexact := h.exact
  unfold OpExact at hexact
  unfold emitBody
  cases hop : e.dec.guestOp with
  | some op =>
    rw [hop] at hexact hstraight
    cases op with
    | alu op =>
      have hruns : Runs K.mmu junk _ c _ := runs_alu hexact hlive.x0
      obtain ⟨c', f', hrun, -⟩ := hruns f
      exact ⟨_, c', f', rfl, hrun⟩
    | jal =>
      have hruns : Runs K.mmu junk (K.emitter.emit_jal e.dec) c _ := runs_link _ _
      obtain ⟨c', f', hrun, -⟩ := hruns f
      exact ⟨_, c', f', rfl, hrun⟩
    | data op =>
      rw [JitDecode.dataOp, hop] at hdata
      cases hdata
    | branch | jalr => cases hstraight
  | none =>
    rw [hop] at hexact
    obtain ⟨code, ireg, hcode, -, -, hruns⟩ := fused_runs h hop hlive hpc junk
    obtain ⟨c', f', hrun, -⟩ := hruns f
    exact ⟨code, c', f', hcode, hrun⟩

/-- The guest's memory as the host's raises no fault. -/
theorem faultOf_direct (hmmu : K.emitter.use_mmu = false) (op : DataOp) (dec : Operands)
    (s : GuestState σ) : faultOf K.mmu op dec s = none := by
  obtain ⟨hload, hstore⟩ := K.direct hmmu
  unfold faultOf Mmu.access
  cases op with
  | load op =>
    obtain ⟨m, v, hok⟩ := hload (loadSize op) (s.ireg dec.rs1 + dec.disp) s.mem
    dsimp only [DataOp.mmuOp]
    rw [hok]
  | store op =>
    obtain ⟨m, u, hok⟩ := hstore (storeSize op) (s.ireg dec.rs1 + dec.disp)
      ((s.ireg dec.rs2).setWidth _) s.mem
    dsimp only [DataOp.mmuOp]
    rw [hok]

/-- A load or store that does not call a function raises no fault. -/
theorem data_proceeds (h : e.Right P K.emitter) (hlive : Live K.emitter c g.state) {op : DataOp}
    (hop : e.dec.dataOp = some op) (junk : Gpr → BitVec 64) :
    let c' := K.run junk c (emitData K.emitter op e.dec.operands)
    (c'.control = .run ∨ c'.control = .term) ∧
      (Emission.calls K.emitter e.dec = false → c'.control = .run) := by
  have hguest := dataOp_guestOp hop
  have hexact := h.exact
  rw [OpExact, hguest] at hexact
  obtain ⟨-, hcase⟩ := data_step op hexact hlive.represents hlive.control hlive.cause junk
  have hcalls := calls_data (E := K.emitter) hop fun l hl hrd =>
    (hexact.load l hl).1 (congrArg Emu.toReg hrd)
  dsimp only
  cases hfault : (interpData K.mmu op e.dec.operands g.state).2 with
  | none =>
    rw [hfault] at hcase
    exact ⟨.inl hcase.1, fun _ => hcase.1⟩
  | some fault =>
    rw [hfault] at hcase
    refine ⟨.inr hcase.1, fun hnot => ?_⟩
    have hnone := faultOf_direct (hcalls.symm.trans hnot) op e.dec.operands g.state
    rw [← interp_fault, hfault] at hnone
    cases hnone

end

/-! ## Steps -/

/-- Control is in a trace of the cache, in front of a piece of it. -/
structure Exec.Inside (cache : Set CompiledTrace) (s : Exec) : Prop where
  trace : s.trace ∈ cache
  pos : s.returned = false → s.pos < s.trace.code.length

section
variable {cache : Set CompiledTrace} {s s' : Exec} {p : Piece}

theorem CompiledTrace.term_lt (t : CompiledTrace) : t.term < t.code.length := by
  obtain ⟨tail, htail, -⟩ := t.code_eq
  have hret : t.code ≠ t.emission.code := by
    intro h
    have hlast := congrArg List.length h
    unfold CompiledTrace.code Emission.emit_epilog Emission.commit_instret at hlast
    split at hlast
    all_goals simp [Emission.put] at hlast
  rw [htail, CompiledTrace.term, List.length_append, Nat.lt_add_right_iff_pos, List.length_pos_iff]
  rintro rfl
  exact hret (htail.trans (List.append_nil _))

/-- Nothing is behind the return. -/
theorem Exec.At.next_lt (h : s.At p) (hp : p ≠ .ret) : s.pos + 1 < s.trace.code.length := by
  obtain ⟨code, hcode⟩ := s.trace.chunks_ret
  have hpieces : s.trace.code = code.map Chunk.piece ++ [.ret] := by
    rw [← CompiledTrace.chunks_piece, hcode, List.map_append]
    rfl
  have hlt := (List.getElem?_eq_some_iff.mp h.2).1
  rw [hpieces, List.length_append, List.length_singleton] at hlt ⊢
  refine Nat.succ_lt_succ (Nat.lt_of_le_of_ne (Nat.le_of_lt_succ hlt) fun heq => hp ?_)
  have hat := h.2
  rw [hpieces, heq, List.getElem?_concat_length] at hat
  exact (Option.some.inj hat).symm

theorem Step.inside (hstep : Step cache s s') (h : s.Inside cache) : s'.Inside cache := by
  have hnext : ∀ {p : Piece}, s.At p → p ≠ .ret → s.pos + 1 < s.trace.code.length :=
    fun hat hp => hat.next_lt hp
  have hentry : ∀ t : CompiledTrace, 0 < t.code.length := fun t => Nat.zero_lt_of_lt t.term_lt
  cases hstep with
  | add hat | body hat | access hat | guard hat | cmp hat | bind hat | notTaken hat | term hat =>
    exact ⟨h.trace, fun _ => hnext hat (by simp)⟩
  | fault | astray => exact ⟨h.trace, fun _ => s.trace.term_lt⟩
  | loop hat hpos => exact ⟨h.trace, fun _ => (List.getElem?_eq_some_iff.mp hpos).1⟩
  | chain hat ht | jump hat ht => exact ⟨ht, fun _ => hentry _⟩
  | miss | jumpMiss | ret => exact ⟨h.trace, fun hreturned => by cases hreturned⟩

end

section
variable {σ : Type} {P : Program} {K : Compiler σ} {cache : Set CompiledTrace} {g₀ : GuestCore σ}
  {c : Cpu σ} {m : Machine σ}

/-- A jump has somewhere to go. -/
theorem Machine.Goes.proceeds {target : Target} (h : m.Goes target)
    (hclosed : target.Closed m.exec.trace.lookup_trace_slow m.exec.trace.chunks)
    (hfound : ∀ pc, m.exec.trace.lookup_trace_slow pc = true → ∃ t ∈ cache, t.pc = pc) :
    ∃ m', HostStep K cache m m' := by
  cases target with
  | label pc =>
    obtain ⟨pos, hpos⟩ := List.mem_iff_getElem?.mp hclosed
    exact ⟨_, .loop h hpos⟩
  | entry pc =>
    obtain ⟨t, ht, hpc⟩ := hfound pc hclosed
    exact ⟨_, .chain h ht hpc⟩
  | tramp pc => exact ⟨_, .miss (fun _ => 0) h⟩

theorem Machine.Simulates.proceeds (h : m.Simulates P K g₀) (hinside : m.exec.Inside cache)
    (hfound : ∀ pc, m.exec.trace.lookup_trace_slow pc = true → ∃ t ∈ cache, t.pc = pc)
    (hreturned : m.exec.returned = false) : ∃ m', HostStep K cache m m' := by
  have hlt := hinside.pos hreturned
  rw [← CompiledTrace.chunks_piece, List.length_map] at hlt
  obtain ⟨p, hp⟩ : ∃ p, m.exec.trace.chunks[m.exec.pos]? = some p := ⟨_, List.getElem?_eq_getElem hlt⟩
  have hat : m.At p := ⟨hreturned, hp⟩
  have hclosed := m.exec.trace.closed (List.mem_of_getElem? hp)
  rw [h.emitter] at hclosed
  cases p with
  | add n => exact ⟨_, .add hat⟩
  | bind pc => exact ⟨_, .bind hat⟩
  | term pc => exact ⟨_, .term (fun _ => 0) hat⟩
  | ret => exact ⟨_, .ret (fun _ => 0) hat⟩
  | body e =>
    obtain ⟨g, -, -, hright, hpc, hlive, -⟩ := h.operation hat rfl
    obtain ⟨hstraight, hcalls⟩ := hclosed
    cases hop : e.dec.dataOp with
    | none =>
      obtain ⟨code, c', f', hcode, hrun⟩ := body_proceeds hright hlive hpc hstraight hop (fun _ => 0) m.flags
      exact ⟨_, .body (fun _ => 0) hat hcode hrun⟩
    | some op =>
      obtain ⟨-, hrun⟩ := data_proceeds hright hlive hop fun _ => 0
      exact ⟨_, .data (fun _ => 0) (.inl hat) hop (hrun (hcalls op hop))⟩
  | access e =>
    obtain ⟨g, -, -, hright, hpc, hlive, -⟩ := h.operation hat rfl
    have hexact := hright.exact
    rcases hclosed with ⟨op, hop⟩ | hop
    · obtain ⟨hrun | hterm, -⟩ := data_proceeds hright hlive hop fun _ => 0
      · exact ⟨_, .data (fun _ => 0) (.inr hat) hop hrun⟩
      · exact ⟨_, .fault (fun _ => 0) hat hop hterm⟩
    · have hnone : e.dec.guestOp = none := by
        unfold JitDecode.guestOp
        rcases hop with hop | hop
        all_goals rw [hop]
      rw [OpExact, hnone] at hexact
      unfold FusedExact at hexact
      rcases hop with hop | hop
      all_goals
        rw [hop] at hexact
        exact hexact.elim
  | guard e link_addr =>
    obtain ⟨g, -, -, hright, hpc, hlive, point, hreached, hadmits⟩ := h.operation hat rfl
    cases hadmits with
    | unreached => exact absurd rfl hreached
    | guard _ hop hrd himm hlink hfits =>
      obtain ⟨c', hrun, -⟩ : ∃ c', HostState.run K.mmu (fun _ => 0)
          (K.emitter.emitGuard e.dec.operands.rs1 link_addr) ⟨m.cpu, m.flags, .run⟩ =
            ⟨c', some _, .run⟩ ∧ Becomes K.emitter m.cpu c' (m.cpu.reg K.emitter) :=
        run_guard hlink e.dec.operands.rs1 m.flags
      cases hf : Cond.ne.holds (cmpFlags (m.cpu.reg K.emitter e.dec.operands.rs1) link_addr) with
      | false => exact ⟨_, .guard (fun _ => 0) hat hrun hf⟩
      | true => exact ⟨_, .astray (fun _ => 0) hat hrun hf⟩
  | cmp e =>
    obtain ⟨g, -, -, hright, hpc, hlive, -⟩ := h.operation hat rfl
    obtain ⟨c', hrun, -⟩ : ∃ c', HostState.run K.mmu (fun _ => 0) (K.emitter.emit_cmp e.dec.operands)
        ⟨m.cpu, m.flags, .run⟩ = ⟨c', some _, .run⟩ ∧
        Becomes K.emitter m.cpu c' (m.cpu.reg K.emitter) :=
      run_emit_cmp hlive.x0 e.dec.operands m.flags
    exact ⟨_, .cmp (fun _ => 0) hat hrun⟩
  | jcc cond target =>
    obtain ⟨g, -, -, hholds, hadmits⟩ := h.running hat fun hp => hp
    have hflags : ∃ f, m.flags = some f := by
      generalize m.exec.trace.pointAt m.exec.pos = point at hholds hadmits
      cases hadmits with
      | unreached => exact hholds.elim
      | taken | inverse =>
        obtain ⟨-, f, hf, -⟩ := hholds
        exact ⟨f, hf⟩
    obtain ⟨f, hf⟩ := hflags
    cases hcond : cond.holds f with
    | false => exact ⟨_, .notTaken hat hf hcond⟩
    | true =>
      have hgoes : m.Goes target := .inr ⟨cond, f, hat, hf, hcond⟩
      exact hgoes.proceeds hclosed hfound
  | jmp target =>
    have hgoes : m.Goes target := .inl hat
    exact hgoes.proceeds hclosed hfound
  | lookup e =>
    obtain ⟨g, -, -, hright, hpc, hlive, point, hreached, hadmits⟩ := h.operation hat rfl
    cases hadmits with
    | unreached => exact absurd rfl hreached
    | lookup _ hop =>
      have hguest : e.dec.guestOp = some .jalr := guestOp_of hop
      have hexact := hright.exact
      rw [OpExact, hguest] at hexact
      have hruns : Runs K.mmu (fun _ => 0) (K.emitter.emit_jalr e.dec) m.cpu _ := runs_jalr hexact
      obtain ⟨c', f', hrun, -⟩ := hruns m.flags
      exact ⟨_, .jumpMiss (fun _ => 0) hat hrun⟩

theorem inside_of_path {s s' : Exec} (hpath : Relation.ReflTransGen (Step cache) s s')
    (h : s.Inside cache) : s'.Inside cache := by
  induction hpath with
  | refl => exact h
  | tail _ hstep ih => exact hstep.inside ih

end

end RvCkpt.Jit
