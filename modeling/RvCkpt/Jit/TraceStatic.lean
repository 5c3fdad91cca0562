import RvCkpt.Jit.TraceSpec
import RvCkpt.Jit.DataStep
import RvCkpt.Lib.Annotation

/-! # Traces that follow the guest

The traces whose operations come one after the other as they do in the guest, and what is known of the
pc in front of each piece of their code.
-/

namespace RvCkpt.Jit
open Isa Annotation
set_option autoImplicit false

/-! ## Operations -/

/-- An operation as it has been matched, before the tracer marks it. -/
def JitDecode.plain (dec : JitDecode) : JitDecode := { dec with brt := false, brc := false }

/-- The pc behind an operation that is no branch and no indirect jump. -/
def JitDecode.next_pc (dec : JitDecode) : BitVec 64 :=
  match dec.guestOp with
  | some .jal => dec.branch_pc
  | some _ => dec.cont_pc
  | none => dec.term_pc

/-- What the code of an operation needs. -/
def OpExact (E : EmitterRv64) (dec : JitDecode) (insts : List JitDecode) : Prop :=
  match dec.guestOp with
  | some (.alu op) => op.Exact E dec.operands
  | some (.data op) => DataExact E op dec.operands
  | some (.branch _) | some .jal => True
  -- the target of a jump relative to x0 is not stored
  | some .jalr => dec.operands.rs1 ≠ rv_ireg_x0
  | none => FusedExact E dec insts

/-- An operation that stands for instructions of the program, and that is compiled right. -/
structure Entry.Right (P : Program) (E : EmitterRv64) (e : Entry) : Prop where
  stands : StandsFor e.dec.plain e.insts
  fetched : ∀ i ∈ e.insts, P.fetch i.pc = some i
  encodable : ∀ i ∈ e.insts, i.Encodable
  chain : Consecutive e.insts
  exact : OpExact E e.dec e.insts

theorem Entry.supported (e : Entry) {op : Asm.Op} (hop : e.dec.op = .rv op) :
    e.dec.op ∈ jit_isa_rv64 := by
  by_contra hno
  have hcount := e.covers.instretOf
  rw [hop] at hcount hno
  exact absurd (hcount.symm.trans (if_neg hno)) (by simp)

theorem guestOp_jal : jit_isa_rv64.all (fun op => match op with
    | .rv op => GuestOp.of (Emu.execCase op) = some .jal → op = .jal
    | _ => true) = true := by
  decide

/-- The operations whose code goes on to the next instruction. -/
theorem Entry.next_pc_eq {e : Entry} (hjal : e.dec.op ≠ .rv .jal) (hcall : e.dec.op ≠ .call) :
    e.dec.next_pc = e.dec.fall_pc := by
  unfold JitDecode.next_pc JitDecode.fall_pc
  cases hop : e.dec.op with
  | rv op =>
    have hsupported := e.supported hop
    have hnot : e.dec.guestOp ≠ some .jal := by
      have hone := List.all_eq_true.mp guestOp_jal _ hsupported
      rw [hop] at hone
      rw [guestOp_of hop]
      exact fun h => hjal (hop.trans (congrArg JitOp.rv (of_decide_eq_true hone h)))
    obtain ⟨g, hg⟩ := guestOp_supported hop hsupported
    rw [hg] at hnot ⊢
    cases g with
    | jal => exact absurd rfl hnot
    | alu | data | branch | jalr => rfl
  | call => exact absurd hop hcall
  | la | zextw | addiwz | rorwi_rr | rorwi_lr | rordi_rr | rordi_lr | auipc_lw | auipc_ld =>
    have hnone : e.dec.guestOp = none := by rw [JitDecode.guestOp, hop]
    rw [hnone]
    exact if_neg hcall

theorem Entry.next_pc_jal {e : Entry} (h : e.dec.op = .rv .jal) : e.dec.next_pc = e.dec.branch_pc := by
  have hop : e.dec.guestOp = some .jal := guestOp_of h
  rw [JitDecode.next_pc, hop]

theorem Entry.next_pc_call {e : Entry} (h : e.dec.op = .call) : e.dec.next_pc = e.dec.branch_pc := by
  have hop : e.dec.guestOp = none := by rw [JitDecode.guestOp, h]
  rw [JitDecode.next_pc, hop]
  exact if_pos h

/-! ## Traces -/

/-- The operations from `pc` on follow the guest, with the returns that are assumed: a branch goes on
where it went when it was recorded, and a return behind its call. A trace does not end with a return. -/
inductive Follows (P : Program) (E : EmitterRv64) : BitVec 64 → List (BitVec 64) → List Entry → Prop
  | stop {pc : BitVec 64} {stack : List (BitVec 64)} (hpc : pc ≠ 0) (hfits : PcFits pc) :
    Follows P E pc stack []
  | branch {e : Entry} {op : BranchOp} {stack : List (BitVec 64)} {trace : List Entry}
    (hright : e.Right P E) (hop : branchOp e.dec.op = some op)
    (hfits : PcFits e.dec.branch_pc ∧ PcFits e.dec.cont_pc)
    (htail : Follows P E (if e.dec.brc then e.dec.branch_pc else e.dec.cont_pc) stack trace) :
    Follows P E e.dec.pc stack (e :: trace)
  | jal {e : Entry} {stack : List (BitVec 64)} {trace : List Entry} (hright : e.Right P E)
    (hop : e.dec.op = .rv .jal)
    (htail : Follows P E e.dec.branch_pc
      (if e.dec.rd = rv_ireg_ra then e.dec.cont_pc :: stack else stack) trace) :
    Follows P E e.dec.pc stack (e :: trace)
  | call {e : Entry} {stack : List (BitVec 64)} {trace : List Entry} (hright : e.Right P E)
    (hop : e.dec.op = .call)
    (htail : Follows P E e.dec.branch_pc (EmitterRv64.link_addr e.dec :: stack) trace) :
    Follows P E e.dec.pc stack (e :: trace)
  | ret {e e' : Entry} {link_addr : BitVec 64} {stack : List (BitVec 64)} {trace : List Entry}
    (hright : e.Right P E) (hop : e.dec.op = .rv .jalr) (hrd : e.dec.rd = rv_ireg_zero)
    (hrs1 : e.dec.rs1 = rv_ireg_ra) (himm : e.dec.imm = 0) (hlink : PcFits link_addr)
    (hfits : PcFits e.dec.pc) (htail : Follows P E link_addr stack (e' :: trace)) :
    Follows P E e.dec.pc (link_addr :: stack) (e :: e' :: trace)
  | indirect {e : Entry} {stack : List (BitVec 64)} (hright : e.Right P E)
    (hop : e.dec.op = .rv .jalr)
    (hassumed : ¬(e.dec.rd = rv_ireg_zero ∧ e.dec.rs1 = rv_ireg_ra ∧ stack ≠ [])) :
    Follows P E e.dec.pc stack [e]
  | straight {e : Entry} {stack : List (BitVec 64)} {trace : List Entry} (hright : e.Right P E)
    (hbranch : branchOp e.dec.op = none)
    (hop : e.dec.op ≠ .rv .jal ∧ e.dec.op ≠ .rv .jalr ∧ e.dec.op ≠ .call)
    (htail : Follows P E e.dec.fall_pc stack trace) : Follows P E e.dec.pc stack (e :: trace)

/-- A trace that follows the guest, with no instruction twice. -/
structure CompiledTrace.Sound (P : Program) (t : CompiledTrace) : Prop where
  follows : Follows P t.emitter t.pc [] t.trace
  nodup : (t.trace.map fun e => e.dec.pc).Nodup
  nonempty : t.trace ≠ []

/-! ## The code -/

/-- What is known in front of a piece of the code. -/
inductive Point where
  /-- Control does not come from the piece before. -/
  | unreached
  | known (pc : BitVec 64)
  | compared (dec : JitDecode) (op : BranchOp)
  /-- The pc is stored. -/
  | term

def Target.pc : Target → BitVec 64
  | .label pc | .entry pc | .tramp pc => pc

/-- The pc that a trampoline stores. -/
def Target.Fits : Target → Prop
  | .tramp pc => PcFits pc
  | _ => True

namespace Point

/-- What is known behind a piece. -/
def behind (point : Point) : Chunk → Point
  | .add _ => point
  | .body e | .access e => .known e.dec.next_pc
  | .guard _ link_addr => .known link_addr
  | .cmp e =>
    match branchOp e.dec.op with
    | some op => .compared e.dec op
    | none => .unreached
  | .jcc cond _ =>
    match point with
    | .compared dec op => .known (if cond = (branchConds op).1 then dec.cont_pc else dec.branch_pc)
    | _ => .unreached
  | .jmp _ | .lookup _ | .ret => .unreached
  | .bind pc => .known pc
  | .term _ => .term

/-- The pieces that may stand at a point. -/
inductive Admits (P : Program) (E : EmitterRv64) : Point → Chunk → Prop
  | unreached (p : Chunk) : Admits P E .unreached p
  | add (pc : BitVec 64) (n : ℕ) : Admits P E (.known pc) (.add n)
  | addTerm (n : ℕ) : Admits P E .term (.add n)
  | body {e : Entry} (h : e.Right P E) : Admits P E (.known e.dec.pc) (.body e)
  | access {e : Entry} (h : e.Right P E) : Admits P E (.known e.dec.pc) (.access e)
  | guard {e : Entry} {link_addr : BitVec 64} (h : e.Right P E) (hop : e.dec.op = .rv .jalr)
    (hrd : e.dec.rd = rv_ireg_zero) (himm : e.dec.imm = 0) (hlink : PcFits link_addr)
    (hfits : PcFits e.dec.pc) : Admits P E (.known e.dec.pc) (.guard e link_addr)
  | cmp {e : Entry} {op : BranchOp} (h : e.Right P E) (hop : branchOp e.dec.op = some op) :
    Admits P E (.known e.dec.pc) (.cmp e)
  | taken {dec : JitDecode} {op : BranchOp} {target : Target} (hpc : target.pc = dec.branch_pc)
    (hfits : target.Fits) : Admits P E (.compared dec op) (.jcc (branchConds op).1 target)
  | inverse {dec : JitDecode} {op : BranchOp} {target : Target} (hpc : target.pc = dec.cont_pc)
    (hfits : target.Fits) : Admits P E (.compared dec op) (.jcc (branchConds op).2 target)
  | jmp {target : Target} (hfits : target.Fits) : Admits P E (.known target.pc) (.jmp target)
  | bind (pc : BitVec 64) : Admits P E (.known pc) (.bind pc)
  | lookup {e : Entry} (h : e.Right P E) (hop : e.dec.op = .rv .jalr) :
    Admits P E (.known e.dec.pc) (.lookup e)
  | store {pc : BitVec 64} (hpc : pc ≠ 0) (hfits : PcFits pc) : Admits P E (.known pc) (.term pc)
  | ret : Admits P E .term .ret

end Point

/-! ## The emitter -/

namespace Assembly

/-- What is known behind the code that has been emitted. -/
def point (start : BitVec 64) (s : Assembly) : Point := final Point.behind (.known start) s.code

/-- The code so far is sound, and goes on at `pc` where it is reached. -/
structure Reads (P : Program) (E : EmitterRv64) (start : BitVec 64) (s : Assembly) (pc : BitVec 64) :
    Prop where
  fits : Fits Point.behind (Point.Admits P E) (.known start) s.code
  point : s.point start = .unreached ∨ s.point start = .known pc

section
variable {P : Program} {E : EmitterRv64} {lookup_trace_slow : BitVec 64 → Bool} {start pc pc' : BitVec 64}
  {s : Assembly} {e : Entry} {p : Chunk}

@[simp] theorem put_callstack (s : Assembly) (p : Chunk) : (s.put p).callstack = s.callstack := rfl

@[simp] theorem put_labels (s : Assembly) (p : Chunk) : (s.put p).labels = s.labels := rfl

@[simp] theorem put_term_pc (s : Assembly) (p : Chunk) : (s.put p).term_pc = s.term_pc := rfl

@[simp] theorem commit_callstack (s : Assembly) : s.commit_instret.callstack = s.callstack := by
  unfold commit_instret
  split <;> rfl

@[simp] theorem commit_labels (s : Assembly) : s.commit_instret.labels = s.labels := by
  unfold commit_instret
  split <;> rfl

@[simp] theorem commit_term_pc (s : Assembly) : s.commit_instret.term_pc = s.term_pc := by
  unfold commit_instret
  split <;> rfl

theorem point_put (start : BitVec 64) (s : Assembly) (p : Chunk) :
    (s.put p).point start = (s.point start).behind p := final_snoc

/-- A piece that may stand where the code goes on. -/
theorem fits_put (h : s.Reads P E start pc) (hp : Point.Admits P E (.known pc) p) :
    Fits Point.behind (Point.Admits P E) (.known start) (s.put p).code := by
  refine h.fits.snoc (show Point.Admits P E (s.point start) p from ?_)
  rcases h.point with hpoint | hpoint
  · rw [hpoint]
    exact .unreached p
  · rwa [hpoint]

/-- One behind which `pc'` is known, whatever is in front of it. -/
theorem Reads.put (h : s.Reads P E start pc) (hp : Point.Admits P E (.known pc) p)
    (hbehind : ∀ point : Point, point.behind p = .known pc') : (s.put p).Reads P E start pc' :=
  ⟨fits_put h hp, .inr ((point_put start s p).trans (hbehind _))⟩

theorem Reads.commit_instret (h : s.Reads P E start pc) : s.commit_instret.Reads P E start pc := by
  unfold Assembly.commit_instret
  split
  · have hpoint : (s.put (.add s.instret)).point start = s.point start := point_put start s _
    exact ⟨fits_put h (.add pc _), hpoint ▸ h.point⟩
  · exact h

/-- A piece behind which control does not go on. -/
theorem Reads.leave (h : s.Reads P E start pc) (hp : Point.Admits P E (.known pc) p)
    (hbehind : ∀ point : Point, point.behind p = .unreached) :
    (s.put p).Reads P E start pc' ∧ (s.put p).point start = .unreached := by
  have hpoint := (point_put start s p).trans (hbehind _)
  exact ⟨⟨fits_put h hp, .inl hpoint⟩, hpoint⟩

/-! ### Branches -/

theorem outside_pc (lookup_trace_slow : BitVec 64 → Bool) (pc : BitVec 64) : (Emission.outside lookup_trace_slow pc).pc = pc := by
  unfold Emission.outside
  split <;> rfl

theorem outside_fits (h : PcFits pc) : (Emission.outside lookup_trace_slow pc).Fits := by
  unfold Emission.outside
  split
  · trivial
  · exact h

/-- Behind the comparison. -/
structure Compares (P : Program) (E : EmitterRv64) (start : BitVec 64) (s : Assembly) (e : Entry)
    (op : BranchOp) : Prop where
  fits : Fits Point.behind (Point.Admits P E) (.known start) s.code
  point : s.point start = .compared e.dec op

theorem Reads.cmp {op : BranchOp} (h : s.Reads P E start e.dec.pc) (hright : e.Right P E)
    (hop : branchOp e.dec.op = some op) : (s.put (.cmp e)).Compares P E start e op := by
  refine ⟨fits_put h (.cmp hright hop), (point_put start s _).trans ?_⟩
  rw [Point.behind, hop]

theorem conds_ne (op : BranchOp) : (branchConds op).2 ≠ (branchConds op).1 := by
  cases op <;> decide

section
variable {op : BranchOp} {target : Target} (h : s.Compares P E start e op) (hfits : target.Fits)
include h hfits

theorem Compares.taken (hpc : target.pc = e.dec.branch_pc) :
    (s.put (.jcc (branchConds op).1 target)).Reads P E start e.dec.cont_pc := by
  refine ⟨h.fits.snoc ?_, .inr ((point_put start s _).trans ?_)⟩
  · show Point.Admits P E (s.point start) _
    rw [h.point]
    exact .taken hpc hfits
  · rw [h.point]
    exact congrArg Point.known (if_pos rfl)

theorem Compares.inverse (hpc : target.pc = e.dec.cont_pc) :
    (s.put (.jcc (branchConds op).2 target)).Reads P E start e.dec.branch_pc := by
  refine ⟨h.fits.snoc ?_, .inr ((point_put start s _).trans ?_)⟩
  · show Point.Admits P E (s.point start) _
    rw [h.point]
    exact .inverse hpc hfits
  · rw [h.point]
    exact congrArg Point.known (if_neg (conds_ne op))

end

/-- Where the code does not leave a trace it ends at the pc that is stored. -/
def Ends (start : BitVec 64) (s : Assembly) (pc : BitVec 64) : Prop :=
  s.point start = .unreached ∨ s.term_pc = pc

theorem Reads.jmp (h : s.Reads P E start pc) (target : Target) (hpc : target.pc = pc)
    (hfits : target.Fits) :
    (s.put (.jmp target)).Reads P E start pc' ∧ (s.put (.jmp target)).point start = .unreached := by
  obtain rfl := hpc
  exact h.leave (.jmp hfits) fun _ => rfl

theorem emit_branch_reads {op : BranchOp} (h : s.Reads P E start e.dec.pc) (hright : e.Right P E)
    (hop : branchOp e.dec.op = some op) (hfits : PcFits e.dec.branch_pc ∧ PcFits e.dec.cont_pc) :
    let s' := s.emit_branch lookup_trace_slow e (branchConds op).1 (branchConds op).2
    let pc' := if e.dec.brc then e.dec.branch_pc else e.dec.cont_pc
    s'.Reads P E start pc' ∧ s'.Ends start pc' ∧ s'.callstack = s.callstack ∧
      s'.labels = s.labels := by
  have hcmp := h.commit_instret.cmp hright hop
  unfold emit_branch
  dsimp only
  have hsame : (s.commit_instret.put (.cmp e)).callstack = s.callstack ∧
      (s.commit_instret.put (.cmp e)).labels = s.labels := by simp
  generalize s.commit_instret.put (.cmp e) = s₁ at hcmp hsame
  have htaken : (s₁.put (.jcc (branchConds op).1 (.label e.dec.branch_pc))).Reads P E start
      e.dec.cont_pc := hcmp.taken trivial rfl
  have hinverse : (s₁.put (.jcc (branchConds op).2 (.label e.dec.cont_pc))).Reads P E start
      e.dec.branch_pc := hcmp.inverse trivial rfl
  split
  · obtain ⟨hreads, hpoint⟩ := htaken.jmp (.label e.dec.cont_pc) rfl trivial
    exact ⟨hreads, .inl hpoint, hsame⟩
  split
  · obtain ⟨hreads, hpoint⟩ := htaken.jmp _ (outside_pc lookup_trace_slow _) (outside_fits hfits.2)
    exact ⟨⟨hreads.fits, hreads.point⟩, .inl hpoint, hsame⟩
  split
  · obtain ⟨hreads, hpoint⟩ := hinverse.jmp _ (outside_pc lookup_trace_slow _) (outside_fits hfits.1)
    exact ⟨⟨hreads.fits, hreads.point⟩, .inl hpoint, hsame⟩
  split
  · obtain ⟨hcode, hpoint⟩ := hcmp.inverse (outside_fits hfits.2) (outside_pc _ e.dec.cont_pc)
    exact ⟨⟨hcode, hpoint⟩, .inr rfl, hsame⟩
  · obtain ⟨hcode, hpoint⟩ := hcmp.taken (outside_fits hfits.1) (outside_pc _ e.dec.branch_pc)
    exact ⟨⟨hcode, hpoint⟩, .inr rfl, hsame⟩

/-! ### Other operations -/

/-- What an operation leaves: the code goes on at `pc`, with the returns of `stack` assumed. -/
structure Emits (P : Program) (E : EmitterRv64) (start : BitVec 64) (s s' : Assembly) (pc : BitVec 64)
    (stack : List (BitVec 64)) : Prop where
  reads : s'.Reads P E start pc
  callstack : s'.callstack = stack
  labels : s'.labels = s.labels

theorem emit_jal_emits (h : s.Reads P E start e.dec.pc) (hright : e.Right P E)
    (hop : e.dec.op = .rv .jal) :
    Emits P E start s (s.emit_jal e) e.dec.branch_pc
      (if e.dec.rd = rv_ireg_ra then e.dec.cont_pc :: s.callstack else s.callstack) ∧
      (s.emit_jal e).term_pc = e.dec.branch_pc := by
  have hbehind : ∀ point : Point, point.behind (.body e) = .known e.dec.branch_pc :=
    fun _ => congrArg Point.known (Entry.next_pc_jal hop)
  unfold emit_jal
  dsimp only
  by_cases hra : e.dec.rd = rv_ireg_ra
  · obtain ⟨hcode, hpoint⟩ := Reads.put (s := { s with callstack := e.dec.cont_pc :: s.callstack })
      ⟨h.fits, h.point⟩ (.body hright) hbehind
    rw [if_pos hra, if_pos hra]
    exact ⟨⟨⟨hcode, hpoint⟩, rfl, rfl⟩, rfl⟩
  · obtain ⟨hcode, hpoint⟩ := h.put (.body hright) hbehind
    rw [if_neg hra, if_neg hra]
    exact ⟨⟨⟨hcode, hpoint⟩, rfl, rfl⟩, rfl⟩

theorem emit_call_emits (h : s.Reads P E start e.dec.pc) (hright : e.Right P E)
    (hop : e.dec.op = .call) :
    Emits P E start s (s.emit_call e) e.dec.branch_pc (EmitterRv64.link_addr e.dec :: s.callstack) ∧
      (s.emit_call e).term_pc = e.dec.branch_pc := by
  have hbehind : ∀ point : Point, point.behind (.body e) = .known e.dec.branch_pc :=
    fun _ => congrArg Point.known (Entry.next_pc_call hop)
  exact ⟨⟨Reads.put ⟨h.fits, h.point⟩ (.body hright) hbehind, rfl, rfl⟩, rfl⟩

theorem emit_ret_emits {link_addr : BitVec 64} {stack : List (BitVec 64)}
    (h : s.Reads P E start e.dec.pc) (hright : e.Right P E) (hop : e.dec.op = .rv .jalr)
    (hrd : e.dec.rd = rv_ireg_zero) (hrs1 : e.dec.rs1 = rv_ireg_ra) (himm : e.dec.imm = 0)
    (hlink : PcFits link_addr) (hfits : PcFits e.dec.pc) (hstack : s.callstack = link_addr :: stack) :
    Emits P E start s (s.emit_jalr e).1 link_addr stack := by
  have hassumed : e.dec.rd = rv_ireg_zero ∧ e.dec.rs1 = rv_ireg_ra ∧ s.callstack ≠ [] :=
    ⟨hrd, hrs1, by rw [hstack]; simp⟩
  unfold emit_jalr
  dsimp only
  rw [if_pos hassumed, hstack]
  exact ⟨Reads.put ⟨h.fits, h.point⟩ (.guard hright hop hrd himm hlink hfits) fun _ => rfl, rfl, rfl⟩

theorem emit_indirect_emits (pc' : BitVec 64) (h : s.Reads P E start e.dec.pc) (hright : e.Right P E)
    (hop : e.dec.op = .rv .jalr)
    (hassumed : ¬(e.dec.rd = rv_ireg_zero ∧ e.dec.rs1 = rv_ireg_ra ∧ s.callstack ≠ [])) :
    (s.emit_jalr e).1.Reads P E start pc' ∧ (s.emit_jalr e).1.point start = .unreached := by
  have hcommit : ({ s with term_pc := 0 } : Assembly).commit_instret.Reads P E start e.dec.pc :=
    Reads.commit_instret ⟨h.fits, h.point⟩
  unfold emit_jalr
  dsimp only
  rw [if_neg hassumed]
  dsimp only
  split
  · exact Reads.leave ⟨hcommit.fits, hcommit.point⟩ (.lookup hright hop) fun _ => rfl
  · exact hcommit.leave (.lookup hright hop) fun _ => rfl

theorem emit_straight_emits (h : s.Reads P E start e.dec.pc) (hright : e.Right P E)
    (hnext : e.dec.next_pc = e.dec.fall_pc) (calls : Bool) :
    Emits P E start s
      ({ s with term_pc := e.dec.fall_pc }.put (if calls then .access e else .body e)) e.dec.fall_pc
      s.callstack := by
  refine ⟨Reads.put ⟨h.fits, h.point⟩ ?_ fun point => ?_, rfl, rfl⟩
  · cases calls
    exacts [.body hright, .access hright]
  · rw [← hnext]
    cases calls <;> rfl

/-! ### The whole trace -/

theorem label_reads (h : s.Reads P E start e.dec.pc) : (s.label e).Reads P E start e.dec.pc ∧
    (s.label e).callstack = s.callstack ∧
    ∀ pc ∈ (s.label e).labels, pc = e.dec.pc ∨ pc ∈ s.labels := by
  have hcommit := h.commit_instret
  unfold label
  split
  · refine ⟨Reads.put ⟨hcommit.fits, hcommit.point⟩ (.bind _) fun _ => rfl, s.commit_callstack, ?_⟩
    exact fun pc hpc => List.mem_cons.mp hpc
  · exact ⟨h, rfl, fun pc hpc => .inr hpc⟩

/-- The switch is reached with the label and the count. -/
theorem emit_emitOp (h : s.Reads P E start e.dec.pc) (hlabel : e.dec.pc ∉ s.labels) :
    ∃ s₁ : Assembly, s₁.Reads P E start e.dec.pc ∧ s₁.callstack = s.callstack ∧
      (∀ pc ∈ s₁.labels, pc = e.dec.pc ∨ pc ∈ s.labels) ∧
      (s.emit E lookup_trace_slow e).1 = (s₁.emitOp E lookup_trace_slow e).1 := by
  obtain ⟨hreads, hcallstack, hlabels⟩ := label_reads h
  refine ⟨{ s.label e with instret := (s.label e).instret + e.insts.length },
    ⟨hreads.fits, hreads.point⟩, hcallstack, hlabels, ?_⟩
  rw [emit, if_neg hlabel, e.covers.instretOf]

/-- Where the code of a trace ends: control has left it, or goes on at the pc that is stored. -/
def Stops (P : Program) (E : EmitterRv64) (start : BitVec 64) (s : Assembly) : Prop :=
  ∃ pc, s.Reads P E start pc ∧ s.Ends start pc ∧ (s.point start = .unreached ∨ pc ≠ 0 ∧ PcFits pc)

/-- A trace that follows the guest is compiled to code that does. -/
theorem emits_follows {stack : List (BitVec 64)} {trace : List Entry} (h : Follows P E pc stack trace)
    (hs : s.Reads P E start pc) (hstack : s.callstack = stack)
    (hlabels : ∀ e ∈ trace, e.dec.pc ∉ s.labels) (hnodup : (trace.map fun e => e.dec.pc).Nodup)
    (hends : trace = [] → s.Ends start pc) :
    (trace.foldl (fun s e => (s.emit E lookup_trace_slow e).1) s).Stops P E start := by
  -- the labels of the rest are new
  have hfresh : ∀ {e : Entry} {trace : List Entry} {s s' : Assembly},
      (∀ pc ∈ s'.labels, pc = e.dec.pc ∨ pc ∈ s.labels) → (∀ e' ∈ e :: trace, e'.dec.pc ∉ s.labels) →
      ((e :: trace).map fun e => e.dec.pc).Nodup →
        (∀ e' ∈ trace, e'.dec.pc ∉ s'.labels) ∧ (trace.map fun e => e.dec.pc).Nodup := by
    intro e trace s s' hsub hnot hnodup
    obtain ⟨hhead, htail⟩ := List.nodup_cons.mp hnodup
    refine ⟨fun e' he' hmem => ?_, htail⟩
    rcases hsub _ hmem with heq | hold
    · exact hhead (List.mem_map.mpr ⟨e', he', heq⟩)
    · exact hnot e' (List.mem_cons_of_mem e he') hold
  induction h generalizing s with
  | stop hpc hfits => exact ⟨_, hs, hends rfl, .inr ⟨hpc, hfits⟩⟩
  | @branch e op stack trace hright hop hfits htail ih =>
    obtain ⟨s₁, hs₁, hcallstack, hsub, hemit⟩ := emit_emitOp hs (hlabels e List.mem_cons_self)
    obtain ⟨hreads, hended, hcallstack', hlabels'⟩ := emit_branch_reads hs₁ hright hop hfits
    rw [List.foldl_cons, hemit, emitOp_branch _ _ hop]
    obtain ⟨hrest, hnodup'⟩ := hfresh (hlabels' ▸ hsub) hlabels hnodup
    exact ih hreads (hcallstack'.trans (hcallstack.trans hstack)) hrest hnodup' fun _ => hended
  | @jal e stack trace hright hop htail ih =>
    obtain ⟨s₁, hs₁, hcallstack, hsub, hemit⟩ := emit_emitOp hs (hlabels e List.mem_cons_self)
    obtain ⟨⟨hreads, hcallstack', hlabels'⟩, hterm⟩ := emit_jal_emits hs₁ hright hop
    have hswitch : (s₁.emitOp E lookup_trace_slow e).1 = s₁.emit_jal e := by rw [emitOp, hop]
    rw [List.foldl_cons, hemit, hswitch]
    obtain ⟨hrest, hnodup'⟩ := hfresh (hlabels' ▸ hsub) hlabels hnodup
    refine ih hreads ?_ hrest hnodup' fun _ => .inr hterm
    rw [hcallstack', hcallstack, hstack]
  | @call e stack trace hright hop htail ih =>
    obtain ⟨s₁, hs₁, hcallstack, hsub, hemit⟩ := emit_emitOp hs (hlabels e List.mem_cons_self)
    obtain ⟨⟨hreads, hcallstack', hlabels'⟩, hterm⟩ := emit_call_emits hs₁ hright hop
    have hswitch : (s₁.emitOp E lookup_trace_slow e).1 = s₁.emit_call e := by rw [emitOp, hop]
    rw [List.foldl_cons, hemit, hswitch]
    obtain ⟨hrest, hnodup'⟩ := hfresh (hlabels' ▸ hsub) hlabels hnodup
    refine ih hreads ?_ hrest hnodup' fun _ => .inr hterm
    rw [hcallstack', hcallstack, hstack]
  | @ret e e' link_addr stack trace hright hop hrd hrs1 himm hlink hfits htail ih =>
    obtain ⟨s₁, hs₁, hcallstack, hsub, hemit⟩ := emit_emitOp hs (hlabels e List.mem_cons_self)
    obtain ⟨hreads, hcallstack', hlabels'⟩ :=
      emit_ret_emits hs₁ hright hop hrd hrs1 himm hlink hfits (hcallstack.trans hstack)
    have hswitch : (s₁.emitOp E lookup_trace_slow e).1 = (s₁.emit_jalr e).1 := by rw [emitOp, hop]
    rw [List.foldl_cons, hemit, hswitch]
    obtain ⟨hrest, hnodup'⟩ := hfresh (hlabels' ▸ hsub) hlabels hnodup
    exact ih hreads hcallstack' hrest hnodup' fun h => by cases h
  | @indirect e stack hright hop hassumed =>
    obtain ⟨s₁, hs₁, hcallstack, -, hemit⟩ := emit_emitOp hs (hlabels e List.mem_cons_self)
    rw [← hstack, ← hcallstack] at hassumed
    obtain ⟨hreads, hpoint⟩ := emit_indirect_emits 0 hs₁ hright hop hassumed
    have hswitch : (s₁.emitOp E lookup_trace_slow e).1 = (s₁.emit_jalr e).1 := by rw [emitOp, hop]
    rw [List.foldl_cons, hemit, hswitch]
    exact ⟨_, hreads, .inl hpoint, .inl hpoint⟩
  | @straight e stack trace hright hbranch hop htail ih =>
    obtain ⟨s₁, hs₁, hcallstack, hsub, hemit⟩ := emit_emitOp hs (hlabels e List.mem_cons_self)
    obtain ⟨hreads, hcallstack', hlabels'⟩ := emit_straight_emits hs₁ hright
      (Entry.next_pc_eq hop.1 hop.2.2) (Emission.calls E e.dec)
    rw [List.foldl_cons, hemit, emitOp_straight _ _ hbranch hop]
    obtain ⟨hrest, hnodup'⟩ := hfresh (hlabels' ▸ hsub) hlabels hnodup
    exact ih hreads (hcallstack'.trans (hcallstack.trans hstack)) hrest hnodup' fun _ => .inr rfl

/-- The epilog stores the pc where control comes to it. -/
theorem Stops.epilog (h : s.Stops P E start) :
    Fits Point.behind (Point.Admits P E) (.known start) s.emit_epilog.code := by
  obtain ⟨pc, hreads, hended, hfits⟩ := h
  have hterm : Point.Admits P E (s.point start) (.term s.term_pc) := by
    rcases hreads.point with hpoint | hpoint
    · rw [hpoint]
      exact .unreached _
    · have hnot : s.point start ≠ .unreached := by
        rw [hpoint]
        simp
      obtain ⟨hzero, hpc⟩ := hfits.resolve_left hnot
      rw [hpoint, hended.resolve_left hnot]
      exact .store hzero hpc
  have hcode : Fits Point.behind (Point.Admits P E) (.known start) (s.put (.term s.term_pc)).code :=
    hreads.fits.snoc hterm
  have hpoint : (s.put (.term s.term_pc)).point start = .term := point_put start s _
  unfold emit_epilog commit_instret
  split
  · have hadd : Point.Admits P E ((s.put (.term s.term_pc)).point start) (.add s.instret) := by
      rw [hpoint]
      exact .addTerm _
    refine (hcode.snoc hadd).snoc (show Point.Admits P E (((s.put (.term s.term_pc)).put
      (.add s.instret)).point start) .ret from ?_)
    rw [point_put, hpoint]
    exact .ret
  · refine hcode.snoc (show Point.Admits P E ((s.put (.term s.term_pc)).point start) .ret from ?_)
    rw [hpoint]
    exact .ret

end

end Assembly

/-- The code of a trace that follows the guest. -/
theorem CompiledTrace.Sound.fits {P : Program} {t : CompiledTrace} (h : t.Sound P) :
    Fits Point.behind (Point.Admits P t.emitter) (.known t.pc) t.chunks := by
  refine Assembly.Stops.epilog (Assembly.emits_follows h.follows ⟨.nil, .inr rfl⟩ rfl ?_ h.nodup ?_)
  · exact fun e _ hmem => by cases hmem
  · exact fun hnil => absurd hnil h.nonempty

end RvCkpt.Jit
