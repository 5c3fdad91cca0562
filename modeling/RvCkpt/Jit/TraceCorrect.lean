import RvCkpt.Jit.TraceEntries

/-! # Compiled traces do what the guest does

Control goes through the traces of a cache, by labels, from one trace to another and by lookups, until
it returns to the run loop. What it leaves there is what the guest comes to.
-/

namespace RvCkpt.Jit
open Isa Annotation
set_option autoImplicit false

/-! ## What is shown -/

/-- What is known at a position. A label is reached from its jumps, too. -/
def CompiledTrace.pointAt (t : CompiledTrace) (pos : ℕ) : Point :=
  match t.chunks[pos]? with
  | some (.bind pc) => .known pc
  | _ => before Point.behind (.known t.pc) t.chunks pos

/-- The operation that a piece is the code of. -/
def Chunk.entry : Chunk → Option Entry
  | .body e | .access e | .guard e _ | .cmp e | .lookup e => some e
  | _ => none

section
variable {σ : Type}

/-- What holds of the host and the guest at a point. -/
def Point.Holds (E : EmitterRv64) (c : Cpu σ) (flags : Option Flags) (g : GuestCore σ) : Point → Prop
  | .unreached => False
  | .known pc => g.pc = pc ∧ Live E c g.state
  | .compared dec op => Live E c g.state ∧ ∃ f, flags = some f ∧
      (branchConds op).2.holds f = !(branchConds op).1.holds f ∧
      g.pc = if (branchConds op).1.holds f then dec.branch_pc else dec.cont_pc
  | .term => Live E c g.state ∧ c.field .pc = g.pc

/-- The guest is left, with its pc stored. -/
structure Stopped (P : Program) (mmu : Mmu σ) (E : EmitterRv64) (c : Cpu σ) (g : GuestCore σ) :
    Prop where
  pc : c.field .pc = g.pc
  left : ∃ s, Left P mmu g (c.field .cause) s ∧ Represents E c s

/-- The guest that the run loop finds in its processor. -/
structure Resumes (P : Program) (mmu : Mmu σ) (c : Cpu σ) (g : GuestCore σ) : Prop where
  pc : c.field .pc = g.pc
  left : ∃ s, Left P mmu g (c.field .cause) s ∧ (∀ r, c.field (.ireg r) = s.ireg r) ∧ c.mem = s.mem ∧
    c.accesses = s.accesses

namespace Machine

inductive Shows (P : Program) (K : Compiler σ) (m : Machine σ) (g : GuestCore σ) : Prop
  | runs (hreturned : m.exec.returned = false) (hfailed : m.exec.failed = none)
    (hholds : (m.exec.trace.pointAt m.exec.pos).Holds K.emitter m.cpu m.flags g)
  | failed (hreturned : m.exec.returned = false) (hfailed : m.exec.failed ≠ none)
    (hpos : m.exec.trace.term ≤ m.exec.pos) (hstopped : Stopped P K.mmu K.emitter m.cpu g)
  | returned (hreturned : m.exec.returned = true) (hresumes : Resumes P K.mmu m.cpu g)

/-- The host is where the guest comes to after as many instructions as have been retired. -/
structure Simulates (P : Program) (K : Compiler σ) (g₀ : GuestCore σ) (m : Machine σ) : Prop where
  sound : m.exec.trace.Sound P
  emitter : m.exec.trace.emitter = K.emitter
  guest : ∃ g, P.Reaches K.mmu g₀ m.exec.retired g ∧ m.Shows P K g

end Machine

/-! ## Positions -/

section
variable {P : Program} {E : EmitterRv64} {t : CompiledTrace} {pos : ℕ} {p : Chunk} {c : Cpu σ}
  {flags : Option Flags} {g : GuestCore σ}

theorem behind_pointAt (h : t.chunks[pos]? = some p) :
    (t.pointAt pos).behind p = before Point.behind (.known t.pc) t.chunks (pos + 1) := by
  rw [before_succ h, CompiledTrace.pointAt, h]
  cases p <;> rfl

theorem CompiledTrace.Sound.admits (ht : t.Sound P) (h : t.chunks[pos]? = some p) :
    (t.pointAt pos).Admits P t.emitter p := by
  have hfits := ht.fits pos p h
  rw [CompiledTrace.pointAt, h]
  cases p with
  | bind pc => exact .bind pc
  | add | body | access | guard | cmp | jcc | jmp | lookup | term | ret => exact hfits

/-- What the pieces before a position show holds there. -/
theorem holds_pointAt (ht : t.Sound P)
    (h : (before Point.behind (.known t.pc) t.chunks pos).Holds E c flags g) :
    (t.pointAt pos).Holds E c flags g := by
  unfold CompiledTrace.pointAt
  split
  · rename_i pc hbind
    have hadmits := ht.fits pos _ hbind
    generalize before Point.behind (.known t.pc) t.chunks pos = point at h hadmits
    cases hadmits with
    | unreached => exact h.elim
    | bind => exact h
  · exact h

end

/-! ## Steps -/

section
variable {P : Program} {K : Compiler σ} {g₀ g : GuestCore σ} {m m' : Machine σ} {p : Chunk}
  {cache : Set CompiledTrace}

namespace Machine

/-- A piece in front of the epilog. -/
theorem Simulates.running (h : m.Simulates P K g₀) (hat : m.At p) (hp : ¬ p.piece.InEpilog) :
    ∃ g, P.Reaches K.mmu g₀ m.exec.retired g ∧ m.exec.failed = none ∧
      (m.exec.trace.pointAt m.exec.pos).Holds K.emitter m.cpu m.flags g ∧
      (m.exec.trace.pointAt m.exec.pos).Admits P K.emitter p := by
  obtain ⟨g, hreach, hshows⟩ := h.guest
  have hadmits := h.sound.admits hat.2
  rw [h.emitter] at hadmits
  cases hshows with
  | runs hreturned hfailed hholds => exact ⟨g, hreach, hfailed, hholds, hadmits⟩
  | failed hreturned hfailed hpos hstopped =>
    exact absurd (m.exec.trace.inEpilog hpos (m.exec.trace.piece_at hat.2)) hp
  | returned hreturned => exact absurd (hat.1.symm.trans hreturned) (by decide)

theorem Simulates.next (h : m.Simulates P K g₀) (hat : m.At p) (htrace : m'.exec.trace = m.exec.trace)
    (hpos : m'.exec.pos = m.exec.pos + 1) (hreturned : m'.exec.returned = false)
    (hfailed : m'.exec.failed = none) (hreach : P.Reaches K.mmu g₀ m'.exec.retired g)
    (hholds : ((m.exec.trace.pointAt m.exec.pos).behind p).Holds K.emitter m'.cpu m'.flags g) :
    m'.Simulates P K g₀ := by
  refine ⟨htrace ▸ h.sound, htrace ▸ h.emitter, g, hreach, .runs hreturned hfailed ?_⟩
  rw [htrace, hpos]
  rw [behind_pointAt hat.2] at hholds
  exact holds_pointAt h.sound hholds

/-- The host goes to a label, or enters a trace. -/
theorem simulates_enter {t : CompiledTrace} (ht : t.Sound P) (hemitter : t.emitter = K.emitter)
    (htrace : m'.exec.trace = t) (hpos : m'.exec.pos = 0) (hreturned : m'.exec.returned = false)
    (hfailed : m'.exec.failed = none) (hreach : P.Reaches K.mmu g₀ m'.exec.retired g)
    (hpc : g.pc = t.pc) (hlive : Live K.emitter m'.cpu g.state) : m'.Simulates P K g₀ := by
  refine ⟨htrace ▸ ht, htrace ▸ hemitter, g, hreach, .runs hreturned hfailed ?_⟩
  rw [htrace, hpos]
  exact holds_pointAt ht ⟨hpc, hlive⟩

theorem Simulates.fail (h : m.Simulates P K g₀) {c : Cpu σ} (hreturned : m.exec.returned = false)
    (hreach : P.Reaches K.mmu g₀ m.exec.retired g) (hstopped : Stopped P K.mmu K.emitter c g) :
    (⟨m.exec.fail, c, none⟩ : Machine σ).Simulates P K g₀ :=
  ⟨h.sound, h.emitter, g, hreach, .failed hreturned (by simp [Exec.fail]) le_rfl hstopped⟩

theorem Simulates.leave (h : m.Simulates P K g₀) {c : Cpu σ} {s : Exec}
    (htrace : s.trace = m.exec.trace) (hreach : P.Reaches K.mmu g₀ s.retired g)
    (hresumes : Resumes P K.mmu c g) : (⟨s.leave, c, none⟩ : Machine σ).Simulates P K g₀ :=
  ⟨htrace ▸ h.sound, htrace ▸ h.emitter, g, hreach, .returned rfl hresumes⟩

/-- At the code of an operation the guest is at its instructions. -/
theorem Simulates.operation (h : m.Simulates P K g₀) (hat : m.At p) {e : Entry}
    (he : p.entry = some e) :
    ∃ g, P.Reaches K.mmu g₀ m.exec.retired g ∧ m.exec.failed = none ∧ e.Right P K.emitter ∧
      g.pc = e.dec.pc ∧ Live K.emitter m.cpu g.state ∧
      ∃ point : Point, point ≠ .unreached ∧ point.Admits P K.emitter p := by
  have hp : ¬ p.piece.InEpilog := by
    intro hp
    cases p with
    | body | access | guard | cmp | lookup => exact hp
    | add | jcc | jmp | bind | term | ret => cases he
  obtain ⟨g, hreach, hfailed, hholds, hadmits⟩ := h.running hat hp
  have hreached : m.exec.trace.pointAt m.exec.pos ≠ .unreached := by
    intro hpoint
    rw [hpoint] at hholds
    exact hholds
  have hguest : e.Right P K.emitter ∧ g.pc = e.dec.pc ∧ Live K.emitter m.cpu g.state := by
    generalize m.exec.trace.pointAt m.exec.pos = point at hholds hadmits
    cases hadmits with
    | unreached => exact hholds.elim
    | add | addTerm | taken | inverse | jmp | bind | store | ret => cases he
    | body hright | access hright | guard hright | cmp hright | lookup hright =>
      obtain rfl := Option.some.inj he
      exact ⟨hright, hholds⟩
  obtain ⟨hright, hpc, hlive⟩ := hguest
  exact ⟨g, hreach, hfailed, hright, hpc, hlive, _, hreached, hadmits⟩

/-- Where a jump is made, the guest is at its target. -/
theorem Simulates.goes (h : m.Simulates P K g₀) {target : Target} (hgoes : m.Goes target) :
    ∃ g, P.Reaches K.mmu g₀ m.exec.retired g ∧ m.exec.failed = none ∧ m.exec.returned = false ∧
      g.pc = target.pc ∧ Live K.emitter m.cpu g.state ∧ target.Fits := by
  rcases hgoes with hat | ⟨cond, f, hat, hflags, hf⟩
  · obtain ⟨g, hreach, hfailed, hholds, hadmits⟩ := h.running hat fun hp => hp
    generalize m.exec.trace.pointAt m.exec.pos = point at hholds hadmits
    cases hadmits with
    | unreached => exact hholds.elim
    | jmp hfits => exact ⟨g, hreach, hfailed, hat.1, hholds.1, hholds.2, hfits⟩
  · obtain ⟨g, hreach, hfailed, hholds, hadmits⟩ := h.running hat fun hp => hp
    generalize m.exec.trace.pointAt m.exec.pos = point at hholds hadmits
    cases hadmits with
    | unreached => exact hholds.elim
    | @taken dec op _ hpc hfits =>
      obtain ⟨hlive, f', hf', -, hguest⟩ := hholds
      obtain rfl := Option.some.inj (hflags.symm.trans hf')
      rw [if_pos hf] at hguest
      exact ⟨g, hreach, hfailed, hat.1, hguest.trans hpc.symm, hlive, hfits⟩
    | @inverse dec op _ hpc hfits =>
      obtain ⟨hlive, f', hf', hinverse, hguest⟩ := hholds
      obtain rfl := Option.some.inj (hflags.symm.trans hf')
      rw [hf] at hinverse
      rw [if_neg (by rw [Bool.eq_false_of_not_eq_true' hinverse.symm]; decide)] at hguest
      exact ⟨g, hreach, hfailed, hat.1, hguest.trans hpc.symm, hlive, hfits⟩

end Machine

/-! ### Leaving -/

variable {c : Cpu σ} {junk : Gpr → BitVec 64}

theorem Live.left (h : Live K.emitter c g.state) : Left P K.mmu g (c.field .cause) g.state :=
  .inl ⟨h.cause, rfl⟩

/-- A trace that is looked up and not found. -/
theorem resumes_fail (hlive : Live K.emitter c g.state) (hpc : c.field .pc = g.pc) :
    Resumes P K.mmu (K.lookupFail junk c) g := by
  obtain ⟨hmem, haccesses, hfield⟩ := lookupFail_same K junk c
  have hcause := hfield .cause fun _ h => by cases h
  refine ⟨(hfield .pc fun _ h => by cases h).trans hpc, g.state, hcause ▸ hlive.left, fun r => ?_,
    hmem.trans hlive.represents.mem, haccesses.trans hlive.represents.accesses⟩
  rw [lookupFail_spec, hlive.represents.regs]

theorem resumes_ret (h : Stopped P K.mmu K.emitter c g) :
    Resumes P K.mmu (K.exec junk c K.emitter.emitSave) g := by
  obtain ⟨hpc, s, hleft, hrep⟩ := h
  obtain ⟨hbecomes, -, hothers, -⟩ := saved_exec K junk c (List.Sublist.refl EmitterRv64.hostRegs)
  have hcause : (K.exec junk c K.emitter.emitSave).field .cause = c.field .cause :=
    hothers _ fun _ _ _ h => by cases h
  refine ⟨(hothers .pc fun _ _ _ h => by cases h).trans hpc, s, hcause ▸ hleft, fun r => ?_,
    hbecomes.mem.trans hrep.mem, hbecomes.accesses.trans hrep.accesses⟩
  rw [epilog_field, hrep.regs]

theorem storePc_live (junk : Gpr → BitVec 64) (hlive : Live K.emitter c g.state) {pc : BitVec 64} (hfits : PcFits pc) :
    Live K.emitter (K.storePc junk c pc) g.state ∧ (K.storePc junk c pc).field .pc = pc := by
  have hjumps := storePc_spec K junk hlive.control pc
  exact ⟨hlive.stores hjumps, hjumps.pc.trans ((pcStored_eq_iff pc).mpr hfits)⟩

/-! ### One step -/

/-- A step keeps what the host simulates. -/
theorem HostStep.simulates (hcache : ∀ t ∈ cache, t.Sound P ∧ t.emitter = K.emitter)
    (heven : EvenJumps P K.mmu g₀) (hstep : HostStep K cache m m') (h : m.Simulates P K g₀) :
    m'.Simulates P K g₀ := by
  cases hstep with
  | @add n hat =>
    obtain ⟨g, hreach, hshows⟩ := h.guest
    cases hshows with
    | runs hreturned hfailed hholds =>
      have hadmits := h.sound.admits hat.2
      refine h.next hat rfl rfl hreturned hfailed hreach ?_
      rw [Point.behind]
      generalize m.exec.trace.pointAt m.exec.pos = point at hholds hadmits
      cases hadmits with
      | unreached => exact hholds.elim
      | add => exact hholds
      | addTerm => exact hholds
    | failed hreturned hfailed hpos hstopped =>
      exact ⟨h.sound, h.emitter, g, hreach, .failed hreturned hfailed (hpos.trans (Nat.le_succ _)) hstopped⟩
    | returned hreturned => exact absurd (hat.1.symm.trans hreturned) (by decide)
  | @body e code c f junk hat hcode hrun =>
    obtain ⟨g, hreach, hfailed, hright, hpc, hlive, -⟩ := h.operation hat rfl
    obtain ⟨g', hinsts, hpc', hlive'⟩ := body_runs hright hlive hpc hcode hrun
    exact h.next hat rfl rfl hat.1 hfailed (hreach.trans hinsts) ⟨hpc', hlive'⟩
  | @data e op junk hat hop hrun =>
    rcases hat with hat | hat
    all_goals
      obtain ⟨g, hreach, hfailed, hright, hpc, hlive, -⟩ := h.operation hat rfl
      obtain ⟨g', hinsts, hpc', hlive'⟩ := data_runs hright hlive hpc hop hrun
      exact h.next hat rfl rfl hat.1 hfailed (hreach.trans hinsts) ⟨hpc', hlive'⟩
  | @fault e op junk hat hop hterm =>
    obtain ⟨g, hreach, hfailed, hright, hpc, hlive, -⟩ := h.operation hat rfl
    obtain ⟨s, hleft, hrep, hpc'⟩ := data_faults hright hlive hpc hop hterm
    exact h.fail hat.1 hreach ⟨hpc', s, hleft, hrep.regs, hrep.zero, hrep.mem, hrep.accesses⟩
  | @guard e link_addr c f junk hat hrun hf =>
    obtain ⟨g, hreach, hfailed, hright, hpc, hlive, point, hreached, hadmits⟩ := h.operation hat rfl
    cases hadmits with
    | unreached => exact absurd rfl hreached
    | guard _ hop hrd himm hlink hfits =>
      have htarget := heven.target hreach hright hop hpc
      obtain ⟨hlive', hreturns⟩ := guard_runs hright hlive hpc hop hrd himm hlink
        htarget hrun
      exact h.next hat rfl rfl hat.1 hfailed (hreach.trans (hreturns hf)) ⟨rfl, hlive'⟩
  | @astray e link_addr c f junk hat hrun hf =>
    obtain ⟨g, hreach, hfailed, hright, hpc, hlive, point, hreached, hadmits⟩ := h.operation hat rfl
    cases hadmits with
    | unreached => exact absurd rfl hreached
    | guard _ hop hrd himm hlink hfits =>
      have htarget := heven.target hreach hright hop hpc
      obtain ⟨hlive', -⟩ := guard_runs hright hlive hpc hop hrd himm hlink
        htarget hrun
      obtain ⟨hlive'', hfield⟩ := storePc_live junk hlive' hfits
      exact h.fail hat.1 hreach ⟨hfield.trans hpc.symm, g.state, hlive''.left, hlive''.represents⟩
  | @cmp e c f junk hat hrun =>
    obtain ⟨g, hreach, hfailed, hright, hpc, hlive, point, hreached, hadmits⟩ := h.operation hat rfl
    cases hadmits with
    | unreached => exact absurd rfl hreached
    | cmp _ hop =>
      obtain ⟨hlive', hinverse, hinsts⟩ := cmp_runs hright hlive hpc hop hrun
      refine h.next hat rfl rfl hat.1 hfailed (hreach.trans hinsts) ?_
      rw [Point.behind, hop]
      exact ⟨hlive', f, rfl, hinverse, rfl⟩
  | @bind pc hat =>
    obtain ⟨g, hreach, hfailed, hholds, hadmits⟩ := h.running hat fun hp => hp
    have hpoint : m.exec.trace.pointAt m.exec.pos = .known pc := by
      rw [CompiledTrace.pointAt, hat.2]
    rw [hpoint] at hholds
    exact h.next hat rfl rfl hat.1 hfailed hreach hholds
  | @notTaken cond target f hat hflags hf =>
    obtain ⟨g, hreach, hfailed, hholds, hadmits⟩ := h.running hat fun hp => hp
    refine h.next hat rfl rfl hat.1 hfailed hreach ?_
    generalize m.exec.trace.pointAt m.exec.pos = point at hholds hadmits ⊢
    cases hadmits with
    | unreached => exact hholds.elim
    | @taken dec op _ hpc hfits =>
      obtain ⟨hlive, f', hf', -, hguest⟩ := hholds
      obtain rfl := Option.some.inj (hflags.symm.trans hf')
      rw [if_neg (by rw [hf]; decide)] at hguest
      rw [Point.behind, if_pos rfl]
      exact ⟨hguest, hlive⟩
    | @inverse dec op _ hpc hfits =>
      obtain ⟨hlive, f', hf', hinverse, hguest⟩ := hholds
      obtain rfl := Option.some.inj (hflags.symm.trans hf')
      rw [hf] at hinverse
      rw [if_pos (by simpa using hinverse.symm)] at hguest
      rw [Point.behind, if_neg (Assembly.conds_ne op)]
      exact ⟨hguest, hlive⟩
  | @loop pc pos hgoes hpos =>
    obtain ⟨g, hreach, hfailed, hreturned, hpc, hlive, -⟩ := h.goes hgoes
    refine ⟨h.sound, h.emitter, g, hreach, .runs hreturned hfailed ?_⟩
    have hpoint : m.exec.trace.pointAt pos = .known pc := by rw [CompiledTrace.pointAt, hpos]
    rw [hpoint]
    exact ⟨hpc, hlive⟩
  | @chain target t hgoes ht hfinds =>
    obtain ⟨g, hreach, hfailed, hreturned, hpc, hlive, -⟩ := h.goes hgoes
    obtain ⟨hsound, hemitter⟩ := hcache t ht
    have htarget : t.pc = target.pc := by
      cases target with
      | label => exact hfinds.elim
      | entry | tramp => exact hfinds
    exact Machine.simulates_enter hsound hemitter rfl rfl hreturned hfailed hreach
      (hpc.trans htarget.symm) hlive
  | @tramp pc t c junk hgoes ht hpc' hc =>
    obtain ⟨g, hreach, hfailed, hreturned, hpc, hlive, hfits⟩ := h.goes hgoes
    obtain ⟨hsound, hemitter⟩ := hcache t ht
    obtain ⟨hlive', hfield⟩ := storePc_live junk hlive hfits
    exact Machine.simulates_enter hsound hemitter rfl rfl hreturned hfailed hreach
      (hpc.trans (hfield.symm.trans hpc'.symm)) (hlive'.same hc.becomes)
  | @miss pc junk hgoes =>
    obtain ⟨g, hreach, hfailed, hreturned, hpc, hlive, hfits⟩ := h.goes hgoes
    obtain ⟨hlive', hfield⟩ := storePc_live junk hlive hfits
    exact h.leave rfl hreach (resumes_fail hlive' (hfield.trans hpc.symm))
  | @jump e t c c' f junk hat hrun ht hpc' hc =>
    obtain ⟨g, hreach, hfailed, hright, hpc, hlive, point, hreached, hadmits⟩ := h.operation hat rfl
    obtain ⟨hsound, hemitter⟩ := hcache t ht
    cases hadmits with
    | unreached => exact absurd rfl hreached
    | lookup _ hop =>
      have htarget := heven.target hreach hright hop hpc
      obtain ⟨g', hinsts, hfield, hlive'⟩ := jalr_runs hright hlive hpc hop
        htarget hrun
      exact Machine.simulates_enter hsound hemitter rfl rfl hat.1 hfailed (hreach.trans hinsts)
        (hfield.symm.trans hpc'.symm) (hlive'.same hc.becomes)
  | @jumpMiss e c f junk hat hrun =>
    obtain ⟨g, hreach, hfailed, hright, hpc, hlive, point, hreached, hadmits⟩ := h.operation hat rfl
    cases hadmits with
    | unreached => exact absurd rfl hreached
    | lookup _ hop =>
      have htarget := heven.target hreach hright hop hpc
      obtain ⟨g', hinsts, hfield, hlive'⟩ := jalr_runs hright hlive hpc hop
        htarget hrun
      exact h.leave rfl (hreach.trans hinsts) (resumes_fail hlive' hfield)
  | @term pc junk hat =>
    obtain ⟨g, hreach, hshows⟩ := h.guest
    cases hshows with
    | runs hreturned hfailed hholds =>
      have hadmits := h.sound.admits hat.2
      refine h.next hat rfl rfl hreturned hfailed hreach ?_
      generalize m.exec.trace.pointAt m.exec.pos = point at hholds hadmits
      cases hadmits with
      | unreached => exact hholds.elim
      | store hzero hfits =>
        obtain ⟨hpc, hlive⟩ := hholds
        obtain ⟨hlive', hfield⟩ := storePc_live junk hlive hfits
        dsimp only
        rw [if_pos ⟨hfailed, hzero⟩]
        exact ⟨hlive', hfield.trans hpc.symm⟩
    | failed hreturned hfailed hpos hstopped =>
      rw [if_neg fun hboth => hfailed hboth.1]
      exact ⟨h.sound, h.emitter, g, hreach,
        .failed hreturned hfailed (hpos.trans (Nat.le_succ _)) hstopped⟩
    | returned hreturned => exact absurd (hat.1.symm.trans hreturned) (by decide)
  | @ret junk hat =>
    obtain ⟨g, hreach, hshows⟩ := h.guest
    cases hshows with
    | runs hreturned hfailed hholds =>
      have hadmits := h.sound.admits hat.2
      generalize m.exec.trace.pointAt m.exec.pos = point at hholds hadmits
      cases hadmits with
      | unreached => exact hholds.elim
      | ret =>
        obtain ⟨hlive, hpc⟩ := hholds
        exact h.leave rfl hreach (resumes_ret ⟨hpc, g.state, hlive.left, hlive.represents⟩)
    | failed hreturned hfailed hpos hstopped => exact h.leave rfl hreach (resumes_ret hstopped)
    | returned hreturned => exact absurd (hat.1.symm.trans hreturned) (by decide)

/-! ## Runs -/

/-- A step of the host is one of control. -/
theorem HostStep.step (h : HostStep K cache m m') (hsim : m.Simulates P K g₀) :
    Step cache m.exec m'.exec := by
  have hat : ∀ {p : Chunk}, m.At p → m.exec.At p.piece :=
    fun h => ⟨h.1, m.exec.trace.piece_at h.2⟩
  have hgoes : ∀ {target : Target}, m.Goes target →
      m.exec.At (.jcc target) ∨ m.exec.At (.jmp target) := by
    intro target h
    rcases h with h | ⟨cond, f, h, -⟩
    exacts [.inr (hat h), .inl (hat h)]
  cases h with
  | add h => exact .add (hat h)
  | body junk h => exact .body (hat h)
  | data junk h => exact h.elim (fun h => .body (hat h)) fun h => .access (hat h)
  | fault junk h => exact .fault (hat h)
  | guard junk h => exact .guard (hat h)
  | astray junk h => exact .astray (hat h)
  | cmp junk h => exact .cmp (hat h)
  | bind h => exact .bind (hat h)
  | notTaken h => exact .notTaken (hat h)
  | loop h hpos => exact .loop (hgoes h) (m.exec.trace.piece_at hpos)
  | chain h ht hfinds => exact .chain (hgoes h) ht hfinds
  | tramp junk h ht hpc =>
    obtain ⟨g, -, -, -, -, hlive, hfits⟩ := hsim.goes h
    exact .chain (hgoes h) ht (hpc.trans (storePc_live _ hlive hfits).2)
  | miss junk h => exact .miss (hgoes h)
  | jump junk h hrun ht => exact .jump (hat h) ht
  | jumpMiss junk h => exact .jumpMiss (hat h)
  | term junk h => exact .term (hat h)
  | ret junk h => exact .ret (hat h)

/-- The guest in the processor of the run loop, when a trace is called. -/
structure Parked (c : Cpu σ) (s : GuestState σ) : Prop where
  regs : ∀ r, c.field (.ireg r) = s.ireg r
  zero : s.ireg rv_ireg_x0 = 0
  mem : c.mem = s.mem
  accesses : c.accesses = s.accesses
  control : c.control = .run
  cause : c.field .cause = 0

theorem simulates_call {t : CompiledTrace} (ht : t.Sound P) (hemitter : t.emitter = K.emitter)
    (hparked : Parked c g₀.state) (hpc : g₀.pc = t.pc) (i : BitVec 64) :
    (Machine.call K t i c).Simulates P K g₀ := by
  obtain ⟨hmem, haccesses, hcontrol, hfield⟩ := exec_load_same K (fun _ => 0) c EmitterRv64.hostRegs
  refine Machine.simulates_enter ht hemitter rfl rfl rfl rfl (.refl P K.mmu g₀) hpc ⟨⟨fun r => ?_,
    hparked.zero, hmem.trans hparked.mem, haccesses.trans hparked.accesses⟩,
    hcontrol.trans hparked.control, (congrFun hfield _).trans hparked.cause⟩
  exact (prolog_reg K _ c r).trans (hparked.regs r)

theorem simulates_of_path (hcache : ∀ t ∈ cache, t.Sound P ∧ t.emitter = K.emitter)
    (heven : EvenJumps P K.mmu g₀) (hpath : Relation.ReflTransGen (HostStep K cache) m m')
    (h : m.Simulates P K g₀) :
    m'.Simulates P K g₀ ∧ Relation.ReflTransGen (Step cache) m.exec m'.exec := by
  induction hpath with
  | refl => exact ⟨h, .refl⟩
  | tail _ hstep ih =>
    obtain ⟨hsim, hcontrol⟩ := ih
    exact ⟨hstep.simulates hcache heven hsim, hcontrol.tail (hstep.step hsim)⟩

end

end

/-! ## One instruction -/

def addiTrace : CompiledTrace where
  pc := 0x10004
  emitter := ⟨false, false⟩
  lookup_trace_slow := fun _ => false
  trace := [addiEntry]
  short := by decide

def addiProgram : Program where
  fetch a := if a = 0x10004 then some addiEntry.dec else none
  pc a dec h := by
    split at h
    · rw [← Option.some.inj h, ‹a = _›]
      rfl
    · cases h

theorem addiTrace_sound : addiTrace.Sound addiProgram := by
  have hright : addiEntry.Right addiProgram addiTrace.emitter := by
    refine ⟨.inl rfl, List.forall_mem_singleton.mpr rfl, List.forall_mem_singleton.mpr ?_,
      .singleton _, .inr trivial⟩
    exact ⟨by decide, by decide, by decide, by decide, by decide, by decide⟩
  refine ⟨.straight hright rfl ⟨by decide, by decide, by decide⟩ ?_, List.nodup_singleton _, by decide⟩
  exact .stop (by decide) (.inl (by decide))

theorem addiTrace_chunks :
    addiTrace.chunks = [.body addiEntry, .term 0x10008, .add 1, .ret] := rfl

theorem addi_cache : ∀ t ∈ ({addiTrace} : Set CompiledTrace),
    t.Sound addiProgram ∧ t.emitter = (jit false).emitter := by
  rintro t rfl
  exact ⟨addiTrace_sound, rfl⟩

theorem addi_even : EvenJumps addiProgram (jit false).mmu ⟨0x10004, idleGuest⟩ := by
  intro n g dec hreach hfetch hop
  unfold addiProgram at hfetch
  dsimp only at hfetch
  split at hfetch
  · rw [← Option.some.inj hfetch] at hop
    cases hop
  · cases hfetch

theorem idle_parked : Parked idle idleGuest := ⟨fun _ => rfl, rfl, rfl, rfl, rfl, rfl⟩

end RvCkpt.Jit
