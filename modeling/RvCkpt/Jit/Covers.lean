import RvCkpt.Jit.Recording

/-! # What the operations of a trace stand for

An operation of a trace stands for one guest instruction, or for those that the matcher has fused
into it. What is recorded consists of such operations only.
-/

namespace RvCkpt.Jit
open Asm Priv
set_option autoImplicit false

/-- What `emit` of the emitter adds to its count for an operation, in the switch that lists the
operations which it compiles. -/
def instretOf (op : JitOp) : Option ℕ :=
  match op with
  | .la | .call | .zextw | .auipc_lw | .auipc_ld => some 2
  | .addiwz | .rorwi_rr | .rorwi_lr | .rordi_rr | .rordi_lr => some 3
  | .rv op => if .rv op ∈ jit_isa_rv64 then some 1 else none

/-! ## The queue -/

/-- How many instructions are queued. -/
def MatchState.queued : MatchState → ℕ
  | none => 0
  | auipc | zextw | addiw | rotw_slliw | rotw_srliw | rotd_slli | rotd_srli => 1
  | addiwz | rotw_or | rotd_or => 2

/-- What the matcher makes of an instruction: it is one more in the queue, it completes what is
counted for the operation, or it is the first one in the queue. -/
inductive Next.Counted (m : Matcher) (dec : JitDecode) : Next → Prop
  | queued {m₁ : Matcher} {state : MatchState} (hqueue : m₁.queue = m.queue)
    (hstate : state.queued = m.state.queued + 1) : Counted m dec (.queued (m₁.push state dec))
  | fused {m₁ : Matcher} {pseudo : JitDecode}
    (hcount : instretOf pseudo.op = some (m.state.queued + 1)) :
    Counted m dec (.fused m₁.clear_queue pseudo)
  | requeued {m₁ : Matcher} {state : MatchState} (hqueue : m₁.queue = [])
    (hstate : state.queued = 1) : Counted m dec (.requeued (m₁.push state dec))
  | passed : Counted m dec .passed

namespace Matcher
variable {m : Matcher} {dec : JitDecode}

theorem counted_start {m₁ : Matcher} {state : MatchState} (hs : m.state = .none)
    (hqueue : m₁.queue = m.queue) (hstate : state.queued = 1) :
    (Next.queued (m₁.start dec state)).Counted m dec :=
  .queued hqueue (by rw [hs, hstate]; rfl)

theorem counted_first (hs : m.state = .none) : (m.first dec).Counted m dec := by
  unfold first
  split
  · exact counted_start hs rfl rfl
  · split
    · exact counted_start hs rfl rfl
    · exact .passed
  · split
    · exact counted_start hs rfl rfl
    · exact .passed
  · split
    · exact counted_start hs rfl rfl
    · exact .passed
  · split
    · exact counted_start hs rfl rfl
    · split
      · exact counted_start hs rfl rfl
      · exact .passed
  · split
    · exact counted_start hs rfl rfl
    · exact .passed
  · exact .passed

theorem counted_left {op : JitOp} {width : BitVec 64} {state : MatchState}
    (hstate : state.queued = m.state.queued + 1) : (m.left dec op width state).Counted m dec := by
  unfold left
  split
  · exact .queued rfl hstate
  · exact .passed

theorem counted_right {op : JitOp} {state : MatchState}
    (hstate : state.queued = m.state.queued + 1) : (m.right dec op state).Counted m dec := by
  unfold right
  split
  · exact .queued rfl hstate
  · exact .passed

theorem counted_rotate {rr lr : JitOp} (hrr : instretOf rr = some (m.state.queued + 1))
    (hlr : instretOf lr = some (m.state.queued + 1)) : (m.rotate dec rr lr).Counted m dec := by
  unfold rotate
  split
  · split
    · exact .fused hrr
    · exact .fused hlr
  · exact .passed

theorem counted_next (m : Matcher) (dec : JitDecode) : (m.next dec).Counted m dec := by
  unfold next
  cases hs : m.state with
  | none => exact counted_first hs
  | addiw =>
    dsimp only
    split
    · exact .queued rfl (by rw [hs]; rfl)
    · split
      · exact .requeued rfl rfl
      · exact .passed
  | addiwz | zextw =>
    dsimp only
    split
    · exact .fused (by rw [hs]; rfl)
    · exact .passed
  | auipc =>
    dsimp only
    split
    · exact .fused (by rw [hs]; rfl)
    split
    · exact .fused (by rw [hs]; rfl)
    split
    · exact .fused (by rw [hs]; rfl)
    split
    · exact .fused (by rw [hs]; rfl)
    · exact .passed
  | rotw_slliw | rotd_slli => exact counted_left (by rw [hs]; rfl)
  | rotw_srliw | rotd_srli => exact counted_right (by rw [hs]; rfl)
  | rotw_or | rotd_or => exact counted_rotate (by rw [hs]; rfl) (by rw [hs]; rfl)

/-- The queue holds the beginning of a sequence. -/
structure Filled (m : Matcher) : Prop where
  length : m.queue.length = m.state.queued
  ops : ∀ dec ∈ m.queue, ∃ op, dec.op = .rv op

theorem Filled.init : Matcher.init.Filled := ⟨rfl, fun _ h => by cases h⟩

theorem Filled.clear_queue (m : Matcher) : m.clear_queue.Filled := ⟨rfl, fun _ h => by cases h⟩

theorem Filled.push {queue : List JitDecode} {state : MatchState} {m₁ : Matcher}
    (hops : ∀ d ∈ queue, ∃ op, d.op = .rv op) (hqueue : m₁.queue = queue)
    (hdec : ∃ op, dec.op = .rv op) (hstate : state.queued = queue.length + 1) :
    (m₁.push state dec).Filled := by
  refine ⟨?_, fun d hd => ?_⟩
  · rw [Matcher.push, hqueue, List.length_append]
    exact hstate.symm
  · rw [Matcher.push, hqueue] at hd
    obtain hd | hd := List.mem_append.mp hd
    · exact hops d hd
    · rwa [List.mem_singleton.mp hd]

theorem Filled.next {m' : Matcher} (h : m.Filled) (hdec : ∃ op, dec.op = .rv op)
    (hnext : (m.next dec).matcher = some m') : m'.Filled := by
  have hcounted := counted_next m dec
  cases hout : m.next dec with
  | queued m₁ =>
    rw [hout] at hcounted hnext
    obtain rfl := Option.some.inj hnext
    obtain ⟨hqueue, hstate⟩ := hcounted
    exact .push h.ops hqueue hdec (by rw [hstate, h.length])
  | fused m₁ pseudo =>
    rw [hout] at hcounted hnext
    obtain rfl := Option.some.inj hnext
    cases hcounted
    exact .clear_queue _
  | requeued m₁ =>
    rw [hout] at hcounted hnext
    obtain rfl := Option.some.inj hnext
    obtain - | - | ⟨hqueue, hstate⟩ := hcounted
    exact .push (fun _ h => by cases h) hqueue hdec hstate
  | passed =>
    rw [hout] at hnext
    cases hnext

end Matcher

/-! ## Operations -/

/-- The guest instructions that an operation stands for. -/
inductive Covers (dec : JitDecode) : List JitDecode → Prop
  | one {inst : JitDecode} {op : Asm.Op} (hop : dec.op = .rv op) (hsupported : dec.op ∈ jit_isa_rv64)
    (hinst : inst.op = dec.op) (hpc : inst.pc = dec.pc) : Covers dec [inst]
  | fused {m m' : Matcher} {last pseudo : JitDecode} (hm : m.Filled)
    (hnext : m.next last = .fused m' pseudo) (hop : pseudo.op = dec.op) (hpc : pseudo.pc = dec.pc) :
    Covers dec (m.queue ++ [last])

/-- The emitter counts an operation as what it stands for. -/
theorem Covers.instretOf {dec : JitDecode} {insts : List JitDecode} (h : Covers dec insts) :
    instretOf dec.op = some insts.length := by
  cases h with
  | one hop hsupported =>
    rw [hop] at hsupported ⊢
    exact if_pos hsupported
  | @fused m m' last pseudo hm hnext hop hpc =>
    have hcounted := m.counted_next last
    rw [hnext] at hcounted
    obtain - | hcount := hcounted
    rw [← hop, hcount, List.length_append, hm.length]
    rfl

/-- It stays one when the flags of the branches are set. -/
theorem Covers.congr {dec dec' : JitDecode} {insts : List JitDecode} (h : Covers dec insts)
    (hop : dec.op = dec'.op) (hpc : dec.pc = dec'.pc) : Covers dec' insts := by
  cases h with
  | one hrv hsupported hinst hinstpc =>
    exact .one (hop.symm.trans hrv) (hop ▸ hsupported) (hinst.trans hop) (hinstpc.trans hpc)
  | fused hm hnext hpseudo hpseudopc => exact .fused hm hnext (hpseudo.trans hop) (hpseudopc.trans hpc)

/-! ## Recording -/

def Tracer.Covered (t : Tracer) : Prop := ∀ dec ∈ t.trace, ∃ insts, Covers dec insts

theorem Tracer.Covered.init : Tracer.init.Covered := fun _ h => by cases h

theorem Tracer.Covered.push {t : Tracer} {dec : JitDecode} (h : t.Covered)
    (hdec : ∃ insts, Covers dec insts) : (t.push dec).Covered := by
  intro d hd
  obtain hd | hd := List.mem_append.mp hd
  · exact h d hd
  · rwa [List.mem_singleton.mp hd]

theorem Tracer.Covered.markTarget {t : Tracer} (h : t.Covered) (pc : BitVec 64) :
    (t.markTarget pc).Covered := by
  unfold Tracer.markTarget
  split
  · rename_i i hi
    intro d hd
    obtain ⟨k, hk, rfl⟩ := List.mem_iff_getElem.mp hd
    rw [List.getElem_modify]
    rw [List.length_modify] at hk
    obtain ⟨insts, hinsts⟩ := h _ (List.getElem_mem hk)
    refine ⟨insts, ?_⟩
    split
    · exact hinsts.congr rfl rfl
    · exact hinsts
  · exact h

theorem branchOp_supported {op : JitOp} {b : Isa.BranchOp} (h : branchOp op = some b) :
    op ∈ jit_isa_rv64 := by
  unfold branchOp at h
  split at h
  all_goals
    first
    | cases h; done
    | decide

theorem Tracer.Covered.follow {t : Tracer} (h : t.Covered) (ireg : Ireg .rv64) {dec : JitDecode}
    (hdec : dec.op ∈ jit_isa_rv64 → ∃ insts, Covers dec insts) :
    (t.follow ireg dec).1.Covered := by
  unfold Tracer.follow
  split
  · rename_i hop
    exact .push h (hdec (by rw [hop]; decide))
  · rename_i hop
    refine .push ?_ (hdec (by rw [hop]; decide))
    split <;> exact h
  · rename_i hop
    have hjalr := hdec (by rw [hop]; decide)
    split
    · exact .push h hjalr
    · refine .push ?_ hjalr
      split <;> exact h
  · split
    · rename_i b hb
      obtain ⟨insts, hinsts⟩ := hdec (branchOp_supported hb)
      exact .push ((h.markTarget _).markTarget _) ⟨insts, hinsts.congr rfl rfl⟩
    · split
      · exact .push h (hdec ‹_›)
      · exact h

/-- What the tracer takes stands for something if it may be compiled. -/
theorem Tracer.Covered.emit {t : Tracer} (h : t.Covered) (ireg : Ireg .rv64) {dec : JitDecode}
    (hdec : dec.op ∈ jit_isa_rv64 → ∃ insts, Covers dec insts) : (t.emit ireg dec).1.Covered := by
  unfold Tracer.emit
  split
  · exact h
  · refine Tracer.Covered.follow ?_ ireg hdec
    exact h

/-- An instruction as it is decoded stands for itself. -/
theorem covers_self {dec : JitDecode} (hdec : ∃ op, dec.op = .rv op)
    (hsupported : dec.op ∈ jit_isa_rv64) : ∃ insts, Covers dec insts := by
  obtain ⟨op, hop⟩ := hdec
  exact ⟨[dec], .one hop hsupported rfl rfl⟩

section
variable {σ : Type} {g : Guest .rv64 σ}

theorem fetched_op {s : σ} {dec : JitDecode} (h : g.fetched s = some dec) :
    ∃ op, dec.op = .rv op := by
  obtain ⟨inst, -, rfl⟩ := Option.map_eq_some_iff.mp h
  exact ⟨_, rfl⟩

/-- What a recording keeps true of its emitter. -/
theorem record_keeps {ε : Type} {E : Emitter .rv64 ε} {P : ε → Prop}
    (hemit : ∀ ireg e dec, (∃ op, dec.op = .rv op) → P e → P (E ireg e dec).1) {n : ℕ} {s s' : σ}
    {e e' : ε} (he : P e) (h : record E g n s e = some (s', e')) : P e' := by
  induction n generalizing s e with
  | zero => cases h
  | succ n ih =>
    rw [record] at h
    cases hfetch : g.fetched s with
    | none =>
      rw [hfetch] at h
      obtain ⟨-, rfl⟩ := Prod.mk.inj (Option.some.inj h)
      exact he
    | some dec =>
      have hstep := hemit (g.ireg s) e dec (fetched_op hfetch) he
      rw [hfetch] at h
      dsimp only at h
      generalize E (g.ireg s) e dec = r at h hstep
      obtain ⟨e₁, taken⟩ := r
      cases taken with
      | false =>
        obtain ⟨-, rfl⟩ := Prod.mk.inj (Option.some.inj h)
        exact hstep
      | true =>
        dsimp only at h
        cases hexec : g.inst_exec s dec with
        | none =>
          rw [hexec] at h
          obtain ⟨-, rfl⟩ := Prod.mk.inj (Option.some.inj h)
          exact hstep
        | some s₁ =>
          rw [hexec] at h
          exact ih hstep h

/-- The tracer alone records instructions. -/
theorem recorded_covered {n : ℕ} {s s' : σ} {t : Tracer}
    (h : record Tracer.emit g n s Tracer.init = some (s', t)) : t.Covered :=
  record_keeps (P := Tracer.Covered) (fun ireg _ _ hop ht => Tracer.Covered.emit ht ireg (covers_self hop))
    Tracer.Covered.init h

/-- What is true behind the matcher. -/
structure Fusion.Covered (f : Fusion Tracer) : Prop where
  filled : f.m.Filled
  trace : f.e.Covered

theorem Fusion.Covered.emit_queue {f : Fusion Tracer} (h : f.Covered) (ireg : Ireg .rv64) :
    (f.emit_queue (Tracer.emit ireg)).Covered := by
  refine ⟨.clear_queue _, ?_⟩
  have hfold : ∀ (queue : List JitDecode), (∀ dec ∈ queue, ∃ op, dec.op = .rv op) →
      ∀ t : Tracer, t.Covered →
        (queue.foldl (fun t dec => (Tracer.emit ireg t dec).1) t).Covered := by
    intro queue
    induction queue with
    | nil => exact fun _ t ht => ht
    | cons dec queue ih =>
      intro hops t ht
      exact ih (fun d hd => hops d (List.mem_cons_of_mem _ hd)) _
        (Tracer.Covered.emit ht ireg (covers_self (hops dec List.mem_cons_self)))
  exact hfold _ h.filled.ops _ h.trace

theorem Fusion.Covered.emit {f : Fusion Tracer} (h : f.Covered) (ireg : Ireg .rv64)
    {dec : JitDecode} (hdec : ∃ op, dec.op = .rv op) :
    (f.emit (Tracer.emit ireg) dec).1.Covered := by
  have hfilled : ∀ m, (f.m.next dec).matcher = some m → m.Filled :=
    fun _ hnext => h.filled.next hdec hnext
  unfold Fusion.emit
  cases hnext : f.m.next dec with
  | queued m => exact ⟨hfilled m (by rw [hnext]; rfl), h.trace⟩
  | fused m pseudo =>
    exact ⟨hfilled m (by rw [hnext]; rfl), h.trace.emit ireg fun _ =>
      ⟨_, .fused h.filled hnext rfl rfl⟩⟩
  | requeued m => exact ⟨hfilled m (by rw [hnext]; rfl), (h.emit_queue ireg).trace⟩
  | passed =>
    dsimp only
    split
    · exact ⟨h.filled, h.trace.emit ireg (covers_self hdec)⟩
    · exact ⟨(h.emit_queue ireg).filled, (h.emit_queue ireg).trace.emit ireg (covers_self hdec)⟩

/-- Behind the matcher it records instructions and the sequences that are fused, up to the end,
where the queue is passed on. -/
theorem recorded_fused_covered {n : ℕ} {s s' : σ} {f : Fusion Tracer}
    (h : record (fusing Tracer.emit) g n s Fusion.init = some (s', f)) :
    (f.emit_queue (Tracer.emit (g.ireg s'))).e.Covered := by
  have hf : f.Covered := record_keeps (P := Fusion.Covered)
    (fun ireg _ _ hop hf => Fusion.Covered.emit hf ireg hop) ⟨.init, .init⟩ h
  exact (hf.emit_queue (g.ireg s')).trace

end

end RvCkpt.Jit
