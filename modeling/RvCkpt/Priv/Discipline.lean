import RvCkpt.Priv.Trap

/-! # Trap discipline

A trap or an interrupt and the return from it: when the mode is not lowered, and when the return
restores the mode, the interrupt enable and the program counter.
-/

namespace RvCkpt.Priv
set_option autoImplicit false
open BitField Status

section
variable {xl : Xlen}

namespace Hart

@[simp] theorem setField_mode (s : Hart xl) (r : Reg) (f : Field) (v : ℕ) :
    (s.setField r f v).mode = s.mode := rfl

@[simp] theorem setField_pc (s : Hart xl) (r : Reg) (f : Field) (v : ℕ) :
    (s.setField r f v).pc = s.pc := rfl

@[simp] theorem setField_csr_of_ne (s : Hart xl) {r r' : Reg} (f : Field) (v : ℕ) (h : r' ≠ r) :
    (s.setField r f v).csr r' = s.csr r' := set_csr_of_ne s _ h

theorem field_setField (s : Hart xl) (r : Reg) {f : Field} (h : f.lo + f.len ≤ r.width xl) (v : ℕ) :
    (s.setField r f v).field r f = v % 2 ^ f.len := by
  unfold field setField
  rw [set_csr_self]
  exact get_put h v

theorem field_setField_of_disjoint (s : Hart xl) (r : Reg) {f g : Field} (h : f.Disjoint g)
    (v : ℕ) : (s.setField r g v).field r f = s.field r f := by
  unfold field setField
  rw [set_csr_self]
  exact get_put_of_disjoint h v

theorem field_lt (s : Hart xl) (r : Reg) (f : Field) : s.field r f < 2 ^ f.len :=
  Nat.mod_lt _ (Nat.two_pow_pos _)

end Hart

theorem mstatus_fits {f : Field} (h : f.lo + f.len ≤ 32) : f.lo + f.len ≤ Reg.width xl .mstatus :=
  h.trans xl.width_ge

/-! ## Entry -/

/-- The interrupt enable of a level. -/
def Entry.ie : Entry → Field
  | s => sie
  | m => mie

/-- The vector of a level. -/
def Entry.tvec : Entry → Reg
  | s => .stvec
  | m => .mtvec

/-- The place to return to. -/
def Entry.epc : Entry → Reg
  | s => .sepc
  | m => .mepc

/-- The previous interrupt enable. -/
def Entry.pie : Entry → Field
  | s => spie
  | m => mpie

/-- The previous mode. -/
def Entry.pp : Entry → Field
  | s => spp
  | m => mpp

def Entry.mode : Entry → Mode
  | s => .S
  | m => .M

@[simp] theorem Entry.tvec_width (e : Entry) : e.tvec.width xl = xl.width := by
  cases e <;> rfl

/-- The vector of a level, as an address. -/
def Hart.tvec (s : Hart xl) : Entry → xl.UX
  | .s => s.csr .stvec
  | .m => s.csr .mtvec

def Hart.epc (s : Hart xl) : Entry → xl.UX
  | .s => s.csr .sepc
  | .m => s.csr .mepc

/-- What a trap leaves. -/
structure Entered (e : Entry) (s s' : Hart xl) : Prop where
  mode : s'.mode = e.mode
  pc : s'.pc = s.tvec e
  epc : s'.epc e = s.pc
  pp : s'.field .mstatus e.pp = s.mode.toNat % 2 ^ e.pp.len
  pie : s'.field .mstatus e.pie = s.field .mstatus e.ie

/-- The stack of a level after the previous mode and interrupt enable have been pushed. -/
theorem field_push (e : Entry) (s : Hart xl) (v : ℕ) :
    let s₂ := s.setField .mstatus e.pp v
    let s₃ := s₂.setField .mstatus e.pie (s₂.field .mstatus e.ie)
    let s₄ := s₃.setField .mstatus e.ie 0
    s₄.field .mstatus e.pp = v % 2 ^ e.pp.len ∧ s₄.field .mstatus e.pie = s.field .mstatus e.ie := by
  have hpp : e.pp.Disjoint e.ie ∧ e.pp.Disjoint e.pie ∧ e.pp.lo + e.pp.len ≤ 32 := by
    cases e <;> decide
  have hpie : e.pie.Disjoint e.ie ∧ e.pie.lo + e.pie.len ≤ 32 ∧ e.pie.len = e.ie.len ∧
      e.ie.Disjoint e.pp := by
    cases e <;> decide
  refine ⟨?_, ?_⟩
  · rw [Hart.field_setField_of_disjoint _ _ hpp.1, Hart.field_setField_of_disjoint _ _ hpp.2.1,
      Hart.field_setField _ _ (mstatus_fits hpp.2.2)]
  · rw [Hart.field_setField_of_disjoint _ _ hpie.1, Hart.field_setField _ _ (mstatus_fits hpie.2.1),
      Hart.field_setField_of_disjoint _ _ hpie.2.2.2, hpie.2.2.1]
    exact Nat.mod_eq_of_lt (s.field_lt .mstatus e.ie)

theorem entered_enter (e : Entry) (s : Hart xl) (cause : ℕ) (interrupt : Bool) :
    Entered e s (enter e s cause interrupt) := by
  cases e with
  | s =>
    obtain ⟨hpp, hpie⟩ := field_push .s ((s.set .sepc s.pc).set .scause (causeWord cause interrupt))
      s.mode.toNat
    refine ⟨rfl, ?_, ?_, hpp, hpie.trans ?_⟩
    · unfold enter strap
      simp [Hart.tvec]
    · unfold enter strap Hart.epc
      simp
    · simp [Hart.field]
  | m =>
    obtain ⟨hpp, hpie⟩ := field_push .m ((s.set .mepc s.pc).set .mcause (causeWord cause interrupt))
      s.mode.toNat
    refine ⟨rfl, ?_, ?_, hpp, hpie.trans ?_⟩
    · unfold enter mtrap
      simp [Hart.tvec]
    · unfold enter mtrap Hart.epc
      simp
    · simp [Hart.field]

/-! ## Return -/

/-- What a return leaves. -/
structure Returned (e : Entry) (s s' : Hart xl) : Prop where
  mode : s'.mode = Mode.ofField (s.field .mstatus e.pp)
  pc : s'.pc = s.epc e
  ie : s'.field .mstatus e.ie = s.field .mstatus e.pie

/-- The stack of a level after it has been popped. -/
theorem field_pop (e : Entry) (s : Hart xl) (v : ℕ) :
    let s₂ := s.setField .mstatus e.pp v
    let s₃ := s₂.setField .mstatus e.ie (s₂.field .mstatus e.pie)
    let s₄ := s₃.setField .mstatus e.pie 0
    s₄.field .mstatus e.ie = s.field .mstatus e.pie := by
  have hie : e.ie.Disjoint e.pie ∧ e.ie.lo + e.ie.len ≤ 32 ∧ e.ie.len = e.pie.len ∧
      e.pie.Disjoint e.pp := by
    cases e <;> decide
  intro s₂ s₃ s₄
  rw [Hart.field_setField_of_disjoint _ _ hie.1, Hart.field_setField _ _ (mstatus_fits hie.2.1),
    Hart.field_setField_of_disjoint _ _ hie.2.2.2, hie.2.2.1]
  exact Nat.mod_eq_of_lt (s.field_lt .mstatus e.pie)

theorem retire_eq_some_iff {s s' : Hart xl} {offset : xl.UX} :
    retire (some (s, offset)) = some s' ↔ offset ≠ BitVec.allOnes _ ∧
      s' = { s.set .instret (s.csr .instret + 1) with pc := s.pc + offset } := by
  unfold retire
  rw [Option.bind_some]
  dsimp only
  split
  · rename_i h
    exact iff_of_false nofun (fun hs => hs.1 h)
  · rename_i h
    constructor
    · intro hs
      exact ⟨h, (Option.some.inj hs).symm⟩
    · rintro ⟨-, rfl⟩
      rfl

/-- The state after a level has been left, but for the program counter. -/
def popped (e : Entry) (s : Hart xl) : Hart xl :=
  let s₁ := { s with mode := Mode.ofField (s.field .mstatus e.pp) }
  let s₂ := s₁.setField .mstatus e.pp Mode.U.toNat
  let s₃ := s₂.setField .mstatus e.ie (s₂.field .mstatus e.pie)
  s₃.setField .mstatus e.pie 0

theorem ret_eq (e : Entry) {s : Hart xl} (hmode : e.mode.toNat ≤ s.mode.toNat) :
    ret e s = retire (some (popped e s, s.epc e - s.pc)) := by
  cases e with
  | s => exact congrArg retire (if_pos hmode)
  | m => exact congrArg retire (if_pos hmode)

/-- A return is executed unless the place to return to is the one before the instruction. -/
theorem ret_eq_none_iff (e : Entry) {s : Hart xl} (hmode : e.mode.toNat ≤ s.mode.toNat) :
    ret e s = none ↔ s.epc e - s.pc = BitVec.allOnes _ := by
  rw [ret_eq e hmode, retire, Option.bind_some]
  dsimp only
  split
  · rename_i h
    exact iff_of_true rfl h
  · rename_i h
    exact iff_of_false nofun h

theorem returned_of_ret (e : Entry) {s s' : Hart xl} (hmode : e.mode.toNat ≤ s.mode.toNat)
    (h : ret e s = some s') : Returned e s s' := by
  rw [ret_eq e hmode] at h
  obtain ⟨-, rfl⟩ := retire_eq_some_iff.mp h
  refine ⟨rfl, ?_, ?_⟩
  · have hpc : (popped e s).pc = s.pc := rfl
    dsimp only
    rw [hpc, BitVec.add_comm, BitVec.sub_add_cancel]
  · exact field_pop e { s with mode := Mode.ofField (s.field .mstatus e.pp) } Mode.U.toNat

/-! ## Entry and return -/

/-- The return from a trap gives the mode, the interrupt enable and the program counter back. -/
def Restores (e : Entry) (s s' : Hart xl) : Prop :=
  ∃ s'', ret e s' = some s'' ∧ s''.mode = s.mode ∧ s''.pc = s.pc ∧
    s''.field .mstatus e.ie = s.field .mstatus e.ie

/-- A trap from `s` that leaves `s'`. -/
def Disciplined (e : Entry) (s s' : Hart xl) : Prop :=
  s.mode.toNat ≤ s'.mode.toNat ∧ Restores e s s'

/-- The mode is not above the level that is entered, and the handler does not stand right behind the
instruction that is interrupted. -/
def Safe (e : Entry) (s : Hart xl) : Prop :=
  s.mode.toNat ≤ e.mode.toNat ∧ s.tvec e ≠ s.pc + 1

/-- A mode fits into the field of a level that is not below it. -/
theorem ofField_mod (e : Entry) {m : Mode} (h : m.toNat ≤ e.mode.toNat) :
    Mode.ofField (m.toNat % 2 ^ e.pp.len) = m := by
  cases e with
  | s =>
    cases m with
    | U => rfl
    | S => rfl
    | H => exact absurd h (by decide)
    | M => exact absurd h (by decide)
  | m => cases m <;> rfl

theorem sub_eq_allOnes_iff {w : ℕ} (x y : BitVec w) : x - y = BitVec.allOnes w ↔ y = x + 1 := by
  rw [← BitVec.neg_one_eq_allOnes, BitVec.sub_eq_iff_eq_add, BitVec.add_comm, ← BitVec.sub_eq_add_neg,
    BitVec.eq_sub_iff_add_eq]
  exact eq_comm

theorem disciplined_iff {e : Entry} {s s' : Hart xl} (h : Entered e s s') :
    Disciplined e s s' ↔ Safe e s := by
  have hmode : e.mode.toNat ≤ s'.mode.toNat := by rw [h.mode]
  have hnone : ret e s' = none ↔ s.tvec e = s.pc + 1 := by
    rw [ret_eq_none_iff e hmode, h.epc, h.pc, sub_eq_allOnes_iff]
  unfold Disciplined Safe
  rw [h.mode]
  constructor
  · rintro ⟨hle, s'', hret, -⟩
    refine ⟨hle, fun htvec => ?_⟩
    rw [hnone.mpr htvec] at hret
    cases hret
  · rintro ⟨hle, htvec⟩
    refine ⟨hle, ?_⟩
    cases hret : ret e s' with
    | none => exact absurd (hnone.mp hret) htvec
    | some s'' =>
      have hback := returned_of_ret e hmode hret
      refine ⟨s'', hret, ?_, ?_, ?_⟩
      · rw [hback.mode, h.pp, ofField_mod e hle]
      · rw [hback.pc, h.epc]
      · rw [hback.ie, h.pie]

/-! ## What is done before an entry -/

/-- The states agree in everything that an entry looks at. -/
structure SameContext (s s₁ : Hart xl) : Prop where
  mode : s₁.mode = s.mode
  pc : s₁.pc = s.pc
  mstatus : s₁.csr .mstatus = s.csr .mstatus
  mie : s₁.csr .mie = s.csr .mie
  stvec : s₁.csr .stvec = s.csr .stvec
  mtvec : s₁.csr .mtvec = s.csr .mtvec

namespace SameContext

theorem refl (s : Hart xl) : SameContext s s := ⟨rfl, rfl, rfl, rfl, rfl, rfl⟩

theorem trans {s s₁ s₂ : Hart xl} (h : SameContext s s₁) (h' : SameContext s₁ s₂) :
    SameContext s s₂ :=
  ⟨h'.mode.trans h.mode, h'.pc.trans h.pc, h'.mstatus.trans h.mstatus, h'.mie.trans h.mie,
    h'.stvec.trans h.stvec, h'.mtvec.trans h.mtvec⟩

theorem setField {s s₁ : Hart xl} (h : SameContext s s₁) (f : Field) (v : ℕ) :
    SameContext s (s₁.setField .mip f v) where
  mode := h.mode
  pc := h.pc
  mstatus := (Hart.setField_csr_of_ne s₁ f v (by decide)).trans h.mstatus
  mie := (Hart.setField_csr_of_ne s₁ f v (by decide)).trans h.mie
  stvec := (Hart.setField_csr_of_ne s₁ f v (by decide)).trans h.stvec
  mtvec := (Hart.setField_csr_of_ne s₁ f v (by decide)).trans h.mtvec

theorem sbadaddr (s : Hart xl) : SameContext s (s.set .sbadaddr s.badaddr) :=
  ⟨rfl, rfl, rfl, rfl, rfl, rfl⟩

theorem mbadaddr (s : Hart xl) : SameContext s (s.set .mbadaddr s.badaddr) :=
  ⟨rfl, rfl, rfl, rfl, rfl, rfl⟩

theorem entered {s s₁ s' : Hart xl} {e : Entry} (h : SameContext s s₁) (he : Entered e s₁ s') :
    Entered e s s' where
  mode := he.mode
  pc := by
    rw [he.pc]
    cases e with
    | s => exact h.stvec
    | m => exact h.mtvec
  epc := he.epc.trans h.pc
  pp := by rw [he.pp, h.mode]
  pie := by rw [he.pie, Hart.field, Hart.field, h.mstatus]

theorem taken {s s₁ : Hart xl} (h : SameContext s s₁) (src : Source) :
    taken s₁ src = Priv.taken s src := by
  unfold Priv.taken Hart.field
  rw [h.mstatus, h.mie]

end SameContext

/-! ## Interrupts -/

/-- The level that a source is taken to. -/
def level (s : Hart xl) (src : Source) (request : Bool) : Option Entry :=
  if request then taken s src else none

/-- The interrupt that a state and the requests of the devices call for: external before timer
before software. -/
def interrupt {n : ℕ} (hart_id : ℕ) (req : Requests) (time : BitVec 64) (s : Hart xl) (t : Timer n) :
    Option (Source × Entry) :=
  match level s external req.eip with
  | some e => some (external, e)
  | none =>
    match level s timer (t.timer_pending hart_id time).1 with
    | some e => some (timer, e)
    | none => (level s software req.sip).map fun e => (software, e)

/-- The service of a source in a state that agrees with `s`. -/
theorem service_cases {s s₁ : Hart xl} (h : SameContext s s₁) (src : Source) (request : Bool) :
    (level s src request = none ∧ ∃ s₂, service s₁ src request = (s₂, none) ∧ SameContext s s₂) ∨
      ∃ e s₂, level s src request = some e ∧ service s₁ src request = (s₂, some e) ∧
        Entered e s s₂ := by
  have hlatch : SameContext s (latch s₁ src request) := (h.setField _ _).setField _ _
  have hlevel : (if request then Priv.taken (latch s₁ src request) src else none) =
      level s src request := by
    rw [level, hlatch.taken]
  cases hl : level s src request with
  | none =>
    refine .inl ⟨rfl, latch s₁ src request, ?_, hlatch⟩
    rw [service, hlevel, hl]
  | some e =>
    refine .inr ⟨e, _, rfl, ?_, hlatch.entered (entered_enter e _ (src.cause e) true)⟩
    rw [service, hlevel, hl]

theorem isr_cases {n : ℕ} (hart_id : ℕ) (req : Requests) (time : BitVec 64) (s : Hart xl)
    (t : Timer n) :
    (isr hart_id req time s t).2.2 = interrupt hart_id req time s t ∧
      ∀ src e, interrupt hart_id req time s t = some (src, e) →
        Entered e s (isr hart_id req time s t).1 := by
  unfold isr interrupt
  rcases service_cases (SameContext.refl s) external req.eip with
    ⟨hl, s₁, hs, hsame⟩ | ⟨e, s₁, hl, hs, hent⟩
  · rw [hl, hs]
    dsimp only
    rcases service_cases hsame timer (t.timer_pending hart_id time).1 with
      ⟨hl, s₂, hs, hsame⟩ | ⟨e, s₂, hl, hs, hent⟩
    · rw [hl, hs]
      dsimp only
      rcases service_cases hsame software req.sip with ⟨hl, s₃, hs, -⟩ | ⟨e, s₃, hl, hs, hent⟩
      · rw [hl, hs]
        exact ⟨rfl, nofun⟩
      · rw [hl, hs]
        refine ⟨rfl, fun src e' h => ?_⟩
        obtain ⟨-, rfl⟩ := Prod.mk.inj (Option.some.inj h)
        exact hent
    · rw [hl, hs]
      refine ⟨rfl, fun src e' h => ?_⟩
      obtain ⟨-, rfl⟩ := Prod.mk.inj (Option.some.inj h)
      exact hent
  · rw [hl, hs]
    refine ⟨rfl, fun src e' h => ?_⟩
    obtain ⟨-, rfl⟩ := Prod.mk.inj (Option.some.inj h)
    exact hent

/-! ## Exceptions -/

/-- The level that an exception is taken to. -/
def trapLevel (s : Hart xl) (op : DecodedOp) (cause : Cause) : Entry :=
  if delegated s (translateCause s.mode op cause) then .s else .m

theorem trap_cases {s s' : Hart xl} {op : DecodedOp} {cause : Cause} {e : Entry}
    (h : trap s op cause = some (s', e)) :
    op ≠ .ebreak ∧ e = trapLevel s op cause ∧ Entered e s s' := by
  unfold trap at h
  dsimp only at h
  split at h
  · cases h
  · rename_i hop
    unfold trapLevel
    split at h
    · rename_i hdel
      obtain ⟨rfl, rfl⟩ := Prod.mk.inj (Option.some.inj h)
      refine ⟨hop, (if_pos hdel).symm, SameContext.entered ?_ (entered_enter .s _ _ false)⟩
      refine ((SameContext.setField ?_ _ _).setField _ _).setField _ _
      split
      · exact SameContext.sbadaddr s
      · exact SameContext.refl s
    · rename_i hdel
      obtain ⟨rfl, rfl⟩ := Prod.mk.inj (Option.some.inj h)
      refine ⟨hop, (if_neg hdel).symm, SameContext.entered ?_ (entered_enter .m _ _ false)⟩
      refine ((SameContext.setField ?_ _ _).setField _ _).setField _ _
      split
      · exact SameContext.mbadaddr s
      · exact SameContext.refl s

theorem trap_isSome {s : Hart xl} {op : DecodedOp} {cause : Cause} (hop : op ≠ .ebreak) :
    ∃ s', trap s op cause = some (s', trapLevel s op cause) := by
  unfold trap trapLevel
  dsimp only
  rw [if_neg hop]
  split
  · exact ⟨_, rfl⟩
  · exact ⟨_, rfl⟩

end

end RvCkpt.Priv
