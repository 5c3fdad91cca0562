import RvCkpt.Isa.Exec

/-! # What the begin record determines

Two machines that agree on what a checkpoint restores run alike as long as no instruction looks at
`fcsr` or the load reservation before the interval has written it. `Known` keeps track of what the
interval has written.
-/

namespace RvCkpt.Isa
open ByteMem
set_option autoImplicit false

/-! ## Reading and writing the hidden state -/

/-- Bits of `fcsr`, and whether the load reservation belongs to the set. -/
structure Known where
  fcsr : BitVec 32
  lr : Bool
  deriving DecidableEq, Repr

namespace Known

def none : Known := ⟨0, false⟩

def join (k l : Known) : Known := ⟨k.fcsr ||| l.fcsr, k.lr || l.lr⟩

/-- Everything in `r` is known. -/
def Covers (k r : Known) : Prop := r.fcsr &&& ~~~k.fcsr = 0 ∧ (r.lr = true → k.lr = true)

instance (k r : Known) : Decidable (k.Covers r) :=
  inferInstanceAs (Decidable (r.fcsr &&& ~~~k.fcsr = 0 ∧ (r.lr = true → k.lr = true)))

@[simp] theorem join_none (k : Known) : k.join none = k := by
  simp [join, none]

end Known

section Access
variable (host : Host) (dec : Decode) (s : Machine)

/-- The fields of `fcsr` and the reservation that an instruction looks at. -/
def hiddenReads : Known :=
  match dec.op with
  | .fp op => if op.rounds && dec.rm == 0b111 then ⟨0xe0, false⟩ else .none
  | .sc _ => ⟨0, true⟩
  | .csr .. =>
    if dec.rd = rv_ireg_x0 then .none
    else
      match csrOf dec.imm with
      | some .fflags => ⟨fflags_mask, false⟩
      | some .frm => ⟨frm_mask <<< 5, false⟩
      | some .fcsr => ⟨fcsr_mask, false⟩
      | _ => .none
  | _ => .none

/-- The bits that a CSR instruction determines. -/
def CsrOp.written (op : CsrOp) (value : BitVec 64) (mask : BitVec 32) (shift : ℕ) : BitVec 32 :=
  match op with
  | .csr_rw => mask <<< shift
  | .csr_rs | .csr_rc => (word32 value &&& mask) <<< shift

def csrWritten (op : CsrOp) (value : BitVec 64) : BitVec 32 :=
  match csrOf dec.imm with
  | some .fflags => op.written value fflags_mask 0
  | some .frm => op.written value frm_mask 5
  | some .fcsr => op.written value fcsr_mask 0
  | _ => 0

/-- The bits that a floating-point operation sets. -/
def fpWritten (op : FpOp) : BitVec 32 :=
  if op.toInt = true ∧ dec.rd = rv_ireg_x0 then 0 else (fpEval host dec s op).2.zeroExtend 32

/-- What an instruction leaves known, whatever it was before. -/
def newlyKnown : Known :=
  match dec.op with
  | .fp op => ⟨fpWritten host dec s op, false⟩
  | .lr _ => ⟨0, true⟩
  | .csr op uimm => ⟨csrWritten dec op (csrValue dec s uimm), false⟩
  | _ => .none

/-- The bytes that an instruction loads, as ranges. -/
def dataReads : List (ℕ × ℕ) :=
  match dec.op with
  | .load op => [(dataAddr dec s, op.bytes)]
  | .fload p => [(dataAddr dec s, p.bytes)]
  | .lr width => [((s.ireg dec.rs1).toNat, width.bytes)]
  | .amo _ width => [((s.ireg dec.rs1 &&& AMO_MASK).toNat, width.bytes)]
  | _ => []

/-- The instruction reads the cycle, time or instret register. -/
def readsCounter : Prop :=
  ∃ op uimm, dec.op = .csr op uimm ∧ dec.rd ≠ rv_ireg_x0 ∧ ∃ csr, csrOf dec.imm = some csr ∧
    csr ≠ .fflags ∧ csr ≠ .frm ∧ csr ≠ .fcsr

end Access

def Within (V : ℕ → Prop) (ranges : List (ℕ × ℕ)) : Prop :=
  ∀ r ∈ ranges, ∀ a, r.1 ≤ a → a < r.1 + r.2 → V a

/-! ## Agreement -/

/-- The machines agree on what a checkpoint restores, the memory image being `V`, and on what is
known of the rest. -/
structure Agree (V : ℕ → Prop) (k : Known) (s t : Machine) : Prop where
  pc : t.pc = s.pc
  ireg : t.ireg = s.ireg
  freg : t.freg = s.freg
  results : t.results = s.results
  mem : ∀ a, V a → t.mem a = s.mem a
  fcsr : t.fcsr &&& k.fcsr = s.fcsr &&& k.fcsr
  lr : k.lr = true → t.lr = s.lr

theorem bits_agree {x y k r : BitVec 32} (h : y &&& k = x &&& k) (hr : r &&& ~~~k = 0) :
    y &&& r = x &&& r := by
  apply BitVec.eq_of_getLsbD_eq
  intro i hi
  have hx := congrArg (BitVec.getLsbD · i) h
  have hk := congrArg (BitVec.getLsbD · i) hr
  simp only [BitVec.getLsbD_and, BitVec.getLsbD_not, hi, decide_true, Bool.true_and,
    BitVec.ofNat_eq_ofNat, BitVec.getLsbD_zero] at hx hk ⊢
  cases hki : k.getLsbD i with
  | true =>
    rw [hki, Bool.and_true, Bool.and_true] at hx
    rw [hx]
  | false =>
    rw [hki, Bool.not_false, Bool.and_true] at hk
    rw [hk, Bool.and_false, Bool.and_false]

/-- Bits that are set, cleared or replaced become known. -/
theorem bits_update {x y k b c : BitVec 32} (h : y &&& k = x &&& k) :
    ((y &&& ~~~c) ||| b) &&& (k ||| (c ||| b)) = ((x &&& ~~~c) ||| b) &&& (k ||| (c ||| b)) := by
  apply BitVec.eq_of_getLsbD_eq
  intro i hi
  have hx := congrArg (BitVec.getLsbD · i) h
  simp only [BitVec.getLsbD_and, BitVec.getLsbD_not, BitVec.getLsbD_or, hi, decide_true,
    Bool.true_and] at hx ⊢
  revert hx
  generalize y.getLsbD i = y', x.getLsbD i = x', k.getLsbD i = k', b.getLsbD i = b',
    c.getLsbD i = c'
  revert y' x' k' b' c'
  decide

namespace Agree
variable {V : ℕ → Prop} {k : Known} {s t : Machine}

theorem known (h : Agree V k s t) {r : Known} (hr : k.Covers r) :
    t.fcsr &&& r.fcsr = s.fcsr &&& r.fcsr := bits_agree h.fcsr hr.1

theorem setReg (h : Agree V k s t) (rd : Reg) (v : BitVec 64) :
    Agree V k (s.setReg rd v) (t.setReg rd v) :=
  { h with ireg := by simp only [Machine.setReg, h.ireg] }

theorem setFreg (h : Agree V k s t) (rd : Reg) (v : BitVec 64) :
    Agree V k (s.setFreg rd v) (t.setFreg rd v) :=
  { h with freg := by simp only [Machine.setFreg, h.freg] }

theorem store (h : Agree V k s t) (addr n : ℕ) (v : BitVec 64) :
    Agree V k (s.setMem (s.mem.write addr n v)) (t.setMem (t.mem.write addr n v)) :=
  { h with
    mem := by
      intro a ha
      simp only [Machine.setMem, Mem.write, h.mem a ha] }

theorem reserve (h : Agree V k s t) (v : BitVec 64) :
    Agree V (k.join ⟨0, true⟩) (s.setLr v) (t.setLr v) :=
  { h with
    fcsr := by
      simp only [Known.join, BitVec.ofNat_eq_ofNat, BitVec.or_zero]
      exact h.fcsr
    lr := fun _ => rfl }

theorem setFcsr (h : Agree V k s t) (b c : BitVec 32) :
    Agree V (k.join ⟨c ||| b, false⟩) (s.setFcsr ((s.fcsr &&& ~~~c) ||| b))
      (t.setFcsr ((t.fcsr &&& ~~~c) ||| b)) :=
  { h with
    fcsr := bits_update h.fcsr
    lr := by
      simp only [Known.join, Bool.or_false]
      exact h.lr }

theorem setff (h : Agree V k s t) (flags : BitVec 5) :
    Agree V (k.join ⟨flags.zeroExtend 32, false⟩) (s.setff flags) (t.setff flags) := by
  have hset := h.setFcsr (flags.zeroExtend 32) 0
  simp only [BitVec.ofNat_eq_ofNat, BitVec.not_zero, BitVec.and_allOnes, BitVec.zero_or] at hset
  exact hset

theorem read (h : Agree V k s t) {addr n : ℕ} (hV : ∀ a, addr ≤ a → a < addr + n → V a) :
    t.mem.read addr n = s.mem.read addr n :=
  Mem.read_congr fun i hi => h.mem _ (hV (addr + i) (by omega) (by omega))

end Agree

/-! ## One instruction -/

section Step
variable {V : ℕ → Prop} {k : Known} {s t : Machine} {host : Host} {dec : Decode}

theorem within_singleton {addr n : ℕ} (h : Within V [(addr, n)]) :
    ∀ a, addr ≤ a → a < addr + n → V a :=
  h (addr, n) (List.mem_singleton_self _)

theorem dataAddr_eq (h : Agree V k s t) : dataAddr dec t = dataAddr dec s := by
  rw [dataAddr, dataAddr, h.ireg]

/-- An operation that does not round ignores the rounding mode. -/
theorem eval_of_not_rounds {sf : Softfloat} {op : FpOp} (h : op.rounds = false)
    (rm rm' : BitVec 3) (x f₁ f₂ f₃ : BitVec 64) :
    op.eval sf rm x f₁ f₂ f₃ = op.eval sf rm' x f₁ f₂ f₃ := by
  cases op with
  | fminmax op p => rfl
  | fcmp op p => rfl
  | _ => cases h

/-- The rounding mode consists of bits 5 to 7. -/
theorem setrm_congr {x y : BitVec 32} (h : y &&& 0xe0 = x &&& 0xe0) :
    (y >>> 5).truncate 3 = (x >>> 5).truncate 3 := by
  apply BitVec.eq_of_getLsbD_eq
  intro i hi
  have hbit := congrArg (BitVec.getLsbD · (5 + i)) h
  have hmask : ∀ i < 3, (0xe0 : BitVec 32).getLsbD (5 + i) = true := by decide
  simp only [BitVec.getLsbD_and, hmask i hi, Bool.and_true] at hbit
  simp only [BitVec.truncate_eq_setWidth, BitVec.getLsbD_setWidth, BitVec.getLsbD_ushiftRight,
    hbit]

theorem fpEval_eq (h : Agree V k s t) {op : FpOp} (hop : dec.op = .fp op)
    (hcov : k.Covers (hiddenReads dec)) : fpEval host dec t op = fpEval host dec s op := by
  rw [fpEval, fpEval, h.ireg, h.freg]
  cases hr : op.rounds with
  | false => exact eval_of_not_rounds hr _ _ _ _ _ _
  | true =>
    by_cases hrm : dec.rm = 0b111
    · have hknown := h.known hcov
      simp only [hiddenReads, hop, hr, hrm, beq_self_eq_true, Bool.and_self, if_true] at hknown
      rw [setrm, setrm, if_pos hrm, if_pos hrm, setrm_congr hknown]
    · rw [setrm, setrm, if_neg hrm, if_neg hrm]

theorem execFp_agree (h : Agree V k s t) {op : FpOp} (hop : dec.op = .fp op)
    (hcov : k.Covers (hiddenReads dec)) :
    Agree V (k.join ⟨fpWritten host dec s op, false⟩) (execFp host dec s op)
      (execFp host dec t op) := by
  have heval : fpEval host dec t op = fpEval host dec s op := fpEval_eq h hop hcov
  simp only [execFp, fpWritten, heval]
  cases hint : op.toInt with
  | false =>
    simp only [Bool.false_eq_true, false_and, if_false]
    exact (h.setFreg _ _).setff _
  | true =>
    by_cases hrd : dec.rd = rv_ireg_x0
    · simp only [hrd, and_self, if_true]
      rw [show (⟨0, false⟩ : Known) = .none from rfl, Known.join_none]
      exact h.setReg _ _
    · simp only [hrd, and_false, if_true, if_false]
      exact (h.setReg _ _).setff _

theorem execAmo_agree (h : Agree V k s t) (op : AmoOp) (width : AmoWidth)
    (hreads : Within V [((s.ireg dec.rs1 &&& AMO_MASK).toNat, width.bytes)]) :
    Agree V k (execAmo dec s op width) (execAmo dec t op width) := by
  simp only [execAmo, h.ireg, h.read (within_singleton hreads)]
  exact (h.store _ _ _).setReg _ _

theorem execSc_agree (h : Agree V k s t) (width : AmoWidth) (hlr : k.lr = true) :
    Agree V k (execSc dec s width) (execSc dec t width) := by
  simp only [execSc, h.ireg, h.lr hlr]
  by_cases hfail : s.lr ≠ s.ireg dec.rs1
  · rw [if_pos hfail, if_pos hfail]
    exact h.setReg _ _
  · rw [if_neg hfail, if_neg hfail]
    exact (h.store _ _ _).setReg _ _

/-- What `execInst` itself leaves known. -/
def execKnown (host : Host) (dec : Decode) (s : Machine) : Known :=
  match dec.op with
  | .csr .. => .none
  | _ => newlyKnown host dec s

variable (host) in
theorem execInst_agree (h : Agree V k s t) (hcov : k.Covers (hiddenReads dec))
    (hreads : Within V (dataReads dec s)) (pcOffset : BitVec 64) :
    Agree V (k.join (execKnown host dec s)) (execInst host dec s pcOffset).1
        (execInst host dec t pcOffset).1 ∧
      (execInst host dec t pcOffset).2 = (execInst host dec s pcOffset).2 := by
  have haddr : dataAddr dec t = dataAddr dec s := dataAddr_eq h
  cases hop : dec.op with
  | fp op =>
    simp only [execKnown, newlyKnown, execInst, hop]
    exact ⟨execFp_agree h hop hcov, trivial⟩
  | lr width =>
    simp only [dataReads, hop] at hreads
    simp only [execKnown, newlyKnown, execInst, hop, h.ireg, h.read (within_singleton hreads)]
    exact ⟨(h.reserve _).setReg _ _, trivial⟩
  | sc width =>
    have hlr : k.lr = true := hcov.2 (by simp only [hiddenReads, hop])
    simp only [execKnown, newlyKnown, execInst, hop, Known.join_none]
    exact ⟨execSc_agree h width hlr, trivial⟩
  | amo op width =>
    simp only [dataReads, hop] at hreads
    simp only [execKnown, newlyKnown, execInst, hop, Known.join_none]
    exact ⟨execAmo_agree h op width hreads, trivial⟩
  | load op =>
    simp only [dataReads, hop] at hreads
    simp only [execKnown, newlyKnown, execInst, hop, Known.join_none, haddr,
      h.read (within_singleton hreads)]
    exact ⟨h.setReg _ _, trivial⟩
  | fload p =>
    simp only [dataReads, hop] at hreads
    simp only [execKnown, newlyKnown, execInst, hop, Known.join_none, haddr,
      h.read (within_singleton hreads)]
    exact ⟨h.setFreg _ _, trivial⟩
  | store op =>
    simp only [execKnown, newlyKnown, execInst, hop, Known.join_none, haddr, h.ireg]
    exact ⟨h.store _ _ _, trivial⟩
  | fstore p =>
    simp only [execKnown, newlyKnown, execInst, hop, Known.join_none, haddr, h.freg]
    exact ⟨h.store _ _ _, trivial⟩
  | fsgn op p =>
    simp only [execKnown, newlyKnown, execInst, hop, Known.join_none, h.freg]
    exact ⟨h.setFreg _ _, trivial⟩
  | fmvToInt p =>
    simp only [execKnown, newlyKnown, execInst, hop, Known.join_none]
    cases p with
    | s =>
      simp only [h.freg]
      exact ⟨h.setReg _ _, trivial⟩
    | d =>
      simp only [h.freg]
      exact ⟨h.setReg _ _, trivial⟩
  | fmvOfInt p =>
    simp only [execKnown, newlyKnown, execInst, hop, Known.join_none]
    cases p with
    | s =>
      simp only [h.ireg]
      exact ⟨h.setFreg _ _, trivial⟩
    | d =>
      simp only [h.ireg]
      exact ⟨h.setFreg _ _, trivial⟩
  | fclass p =>
    simp only [execKnown, newlyKnown, execInst, hop, Known.join_none, h.freg]
    exact ⟨h.setReg _ _, trivial⟩
  | branch op =>
    simp only [execKnown, newlyKnown, execInst, hop, Known.join_none, h.ireg]
    exact ⟨h, trivial⟩
  | csr op uimm =>
    simp only [execKnown, execInst, hop, Known.join_none]
    exact ⟨h, trivial⟩
  | illegal | fence | fence_i | ecall =>
    simp only [execKnown, newlyKnown, execInst, hop, Known.join_none]
    exact ⟨h, trivial⟩
  | lui | auipc | jal | jalr | imm op | reg op =>
    simp only [execKnown, newlyKnown, execInst, hop, Known.join_none, h.ireg, h.pc]
    exact ⟨h.setReg _ _, trivial⟩

theorem csrValue_eq (h : Agree V k s t) (uimm : Bool) :
    csrValue dec t uimm = csrValue dec s uimm := by
  rw [csrValue, csrValue, h.ireg]

theorem readCsr_agree (h : Agree V k s t) {v w : BitVec 64}
    (hv : dec.rd ≠ rv_ireg_x0 → w = v) : Agree V k (readCsr dec s v) (readCsr dec t w) := by
  simp only [readCsr]
  by_cases hrd : dec.rd ≠ rv_ireg_x0
  · rw [if_pos hrd, if_pos hrd, hv hrd]
    exact h.setReg _ _
  · rw [if_neg hrd, if_neg hrd]
    exact h

/-- A field of `fcsr` that is known reads the same. -/
theorem field_eq {x y mask : BitVec 32} {shift : ℕ}
    (h : y &&& (mask <<< shift) = x &&& (mask <<< shift)) (hfit : mask <<< shift >>> shift = mask) :
    (y >>> shift) &&& mask = (x >>> shift) &&& mask := by
  have hshift := congrArg (fun z : BitVec 32 => z >>> shift) h
  simp only [BitVec.ushiftRight_and_distrib, hfit] at hshift
  exact hshift

@[simp] theorem readCsr_fcsr (v : BitVec 64) : (readCsr dec s v).fcsr = s.fcsr := by
  rw [readCsr]
  split
  · rfl
  · rfl

theorem update_agree (h : Agree V k s t) (op : CsrOp) (value : BitVec 64) (mask : BitVec 32)
    (shift : ℕ) :
    Agree V (k.join ⟨op.written value mask shift, false⟩)
      (s.setFcsr (op.update s.fcsr value mask shift))
      (t.setFcsr (op.update t.fcsr value mask shift)) := by
  cases op with
  | csr_rw =>
    have hset := h.setFcsr ((word32 value &&& mask) <<< shift) (mask <<< shift)
    have hbits : mask <<< shift ||| (word32 value &&& mask) <<< shift = mask <<< shift := by
      apply BitVec.eq_of_getLsbD_eq
      intro i hi
      simp only [BitVec.getLsbD_or, BitVec.getLsbD_shiftLeft, BitVec.getLsbD_and]
      generalize decide (i < 32) = a, decide (i < shift) = b, mask.getLsbD (i - shift) = c,
        (word32 value).getLsbD (i - shift) = d
      revert a b c d
      decide
    rw [hbits] at hset
    exact hset
  | csr_rs =>
    simp only [CsrOp.update, CsrOp.written]
    by_cases hv : value ≠ 0
    · rw [if_pos hv, if_pos hv]
      have hset := h.setFcsr ((word32 value &&& mask) <<< shift) 0
      simp only [BitVec.ofNat_eq_ofNat, BitVec.not_zero, BitVec.and_allOnes, BitVec.zero_or]
        at hset
      exact hset
    · rw [if_neg hv, if_neg hv]
      obtain rfl : value = 0 := not_not.mp hv
      simp only [word32, BitVec.ofNat_eq_ofNat, BitVec.truncate_eq_setWidth, BitVec.setWidth_zero,
        BitVec.zero_and, BitVec.zero_shiftLeft]
      exact (Known.join_none k).symm ▸ h
  | csr_rc =>
    simp only [CsrOp.update, CsrOp.written]
    by_cases hv : value ≠ 0
    · rw [if_pos hv, if_pos hv]
      have hset := h.setFcsr 0 ((word32 value &&& mask) <<< shift)
      simp only [BitVec.ofNat_eq_ofNat, BitVec.or_zero] at hset
      exact hset
    · rw [if_neg hv, if_neg hv]
      obtain rfl : value = 0 := not_not.mp hv
      simp only [word32, BitVec.ofNat_eq_ofNat, BitVec.truncate_eq_setWidth, BitVec.setWidth_zero,
        BitVec.zero_and, BitVec.zero_shiftLeft]
      exact (Known.join_none k).symm ▸ h

theorem setCsr_agree (h : Agree V k s t) (op : CsrOp) (value : BitVec 64) {mask : BitVec 32}
    {shift : ℕ} (hfit : mask <<< shift >>> shift = mask)
    (hcov : dec.rd ≠ rv_ireg_x0 → k.Covers ⟨mask <<< shift, false⟩) :
    Agree V (k.join ⟨op.written value mask shift, false⟩) (setCsr dec s op value mask shift)
      (setCsr dec t op value mask shift) := by
  have hread : Agree V k (readCsr dec s (((s.fcsr >>> shift) &&& mask).zeroExtend 64))
      (readCsr dec t (((t.fcsr >>> shift) &&& mask).zeroExtend 64)) := by
    apply readCsr_agree h
    intro hrd
    rw [field_eq (h.known (hcov hrd)) hfit]
  have hupdate := update_agree hread op value mask shift
  rw [readCsr_fcsr, readCsr_fcsr] at hupdate
  exact hupdate

theorem instCsr_agree (h : Agree V k s t) {op : CsrOp} {uimm : Bool} (hop : dec.op = .csr op uimm)
    (hcov : k.Covers (hiddenReads dec)) (hcounter : ¬ readsCounter dec) (clock clock' : BitVec 64)
    (value pcOffset : BitVec 64) :
    Agree V (k.join ⟨csrWritten dec op value, false⟩) (instCsr dec s clock op value pcOffset).1
        (instCsr dec t clock' op value pcOffset).1 ∧
      (instCsr dec t clock' op value pcOffset).2 = (instCsr dec s clock op value pcOffset).2 := by
  have hnone : (⟨0, false⟩ : Known) = .none := rfl
  cases hcsr : csrOf dec.imm with
  | none =>
    simp only [instCsr, csrWritten, hcsr, hnone, Known.join_none]
    exact ⟨h, trivial⟩
  | some csr =>
    simp only [hiddenReads, hop, hcsr] at hcov
    cases csr with
    | fflags =>
      simp only [instCsr, csrWritten, hcsr]
      exact ⟨setCsr_agree h op value (by decide) fun hrd => by rwa [if_neg hrd] at hcov, trivial⟩
    | frm =>
      simp only [instCsr, csrWritten, hcsr]
      exact ⟨setCsr_agree h op value (by decide) fun hrd => by rwa [if_neg hrd] at hcov, trivial⟩
    | fcsr =>
      simp only [instCsr, csrWritten, hcsr]
      exact ⟨setCsr_agree h op value (by decide) fun hrd => by rwa [if_neg hrd] at hcov, trivial⟩
    | cycle | time | instret | cycleh | timeh | instreth =>
      -- a counter is only ever named with x0
      have hrd : dec.rd = rv_ireg_x0 := by
        by_contra hrd
        exact hcounter ⟨op, uimm, hop, hrd, _, hcsr, by decide, by decide, by decide⟩
      have hidle : ∀ s : Machine, ∀ v, readCsr dec s v = s := fun s v => by
        rw [readCsr, if_neg (not_not.mpr hrd)]
      simp only [instCsr, csrWritten, hcsr, getCsr, getCsrHi, hidle, hnone, Known.join_none]
      exact ⟨{ h with }, trivial⟩

theorem retire_agree {s' : Machine} {off off' : BitVec 64} (h : Agree V k s t) (hoff : off' = off)
    (hs : retire (s, off) = some s') : ∃ t', retire (t, off') = some t' ∧ Agree V k s' t' := by
  subst hoff
  simp only [retire] at hs ⊢
  by_cases hgo : off' ≠ -1
  · rw [if_pos hgo] at hs ⊢
    refine ⟨_, rfl, ?_⟩
    rw [← Option.some.inj hs]
    exact { h with pc := by simp only [h.pc] }
  · rw [if_neg hgo] at hs
    cases hs

theorem proxySyscall_agree (h : Agree V k s t) (result : SyscallResult)
    (rest : List SyscallResult) :
    Agree V k (proxySyscall s result rest) (proxySyscall t result rest) := by
  have hwrites : ∀ (ws : List (BitVec 64 × List Byte)) (m m' : Mem), (∀ a, V a → m' a = m a) →
      ∀ a, V a → ws.foldl (fun m w => m.writeBytes w.1.toNat w.2) m' a =
        ws.foldl (fun m w => m.writeBytes w.1.toNat w.2) m a := by
    intro ws
    induction ws with
    | nil => exact fun m m' hm => hm
    | cons w ws ih =>
      intro m m' hm
      apply ih
      intro a ha
      simp only [Mem.writeBytes, hm a ha]
  exact { h with
    ireg := by simp only [proxySyscall, h.ireg]
    results := rfl
    mem := hwrites _ _ _ h.mem }

theorem instPriv_agree (h : Agree V k s t) (hcov : k.Covers (hiddenReads dec))
    (hcounter : ¬ readsCounter dec) (clock clock' : BitVec 64) {pcOffset : BitVec 64}
    {s' : Machine} (hs : instPriv dec s clock pcOffset >>= retire = some s') :
    ∃ t', instPriv dec t clock' pcOffset >>= retire = some t' ∧
      Agree V (k.join (newlyKnown host dec s)) s' t' := by
  simp only [instPriv] at hs ⊢
  cases hop : dec.op with
  | fence | fence_i =>
    simp only [newlyKnown, hop, Known.join_none, Option.bind_eq_bind, Option.bind_some] at hs ⊢
    exact retire_agree h rfl hs
  | ecall =>
    rw [h.results]
    cases hres : s.results with
    | nil =>
      simp only [hop, hres] at hs
      cases hs
    | cons result rest =>
      simp only [newlyKnown, hop, hres, Known.join_none, Option.bind_eq_bind, Option.bind_some]
        at hs ⊢
      exact retire_agree (proxySyscall_agree h result rest) rfl hs
  | csr op uimm =>
    simp only [hop, Option.bind_eq_bind, Option.bind_some] at hs
    simp only [newlyKnown, hop, Option.bind_eq_bind, Option.bind_some, csrValue_eq h]
    obtain ⟨hagree, heq⟩ := instCsr_agree h hop hcov hcounter clock clock'
      (csrValue dec s uimm) pcOffset
    exact retire_agree hagree heq hs
  | _ =>
    simp only [hop, Option.bind_eq_bind, Option.bind_some, retire] at hs
    cases hs

theorem execKnown_eq {pcOffset : BitVec 64} (h : (execInst host dec s pcOffset).2 ≠ -1) :
    execKnown host dec s = newlyKnown host dec s := by
  cases hop : dec.op with
  | csr op uimm =>
    simp only [execInst, hop] at h
    exact absurd rfl h
  | _ => simp only [execKnown, hop]

/-- An instruction that only `instPriv` handles is left alone by `execInst`. -/
theorem execInst_idle {pcOffset : BitVec 64} {clock : BitVec 64} {s₁ s' : Machine}
    (hs : instPriv dec s₁ clock pcOffset >>= retire = some s') (s : Machine) :
    (execInst host dec s pcOffset).1 = s := by
  simp only [instPriv] at hs
  cases hop : dec.op with
  | fence | fence_i | ecall | csr op uimm => simp only [execInst, hop]
  | _ =>
    simp only [hop, Option.bind_eq_bind, Option.bind_some, retire] at hs
    cases hs

theorem execute_agree (h : Agree V k s t) (hcov : k.Covers (hiddenReads dec))
    (hreads : Within V (dataReads dec s)) (hcounter : ¬ readsCounter dec)
    {clock clock' : BitVec 64} {length : ℕ} {s' : Machine}
    (hs : execute host clock dec length s = some s') :
    ∃ t', execute host clock' dec length t = some t' ∧
      Agree V (k.join (newlyKnown host dec s)) s' t' := by
  obtain ⟨hagree, hoff⟩ := execInst_agree host h hcov hreads (BitVec.ofNat 64 length)
  simp only [execute] at hs ⊢
  rw [hoff]
  by_cases hgo : (execInst host dec s (BitVec.ofNat 64 length)).2 ≠ -1
  · rw [if_pos hgo] at hs ⊢
    rw [execKnown_eq hgo] at hagree
    exact retire_agree hagree hoff hs
  · rw [if_neg hgo] at hs ⊢
    rw [execInst_idle hs s] at hs
    rw [execInst_idle hs t]
    exact instPriv_agree h hcov hcounter clock clock' hs

end Step

/-! ## Runs -/

/-- The words executed, with their addresses. -/
def trace (host : Host) (clock : ℕ → BitVec 64) : ℕ → Machine → List (BitVec 64 × BitVec 64)
  | 0, _ => []
  | n + 1, s =>
    (s.pc, (instFetch s.mem s.pc.toNat).1) ::
      match step host (clock 0) s with
      | some s' => trace host (fun i => clock (i + 1)) n s'
      | none => []

/-- The begin record of a checkpoint, its memory image and its system calls, are those of both
machines. -/
structure SameBegin (V : ℕ → Prop) (s t : Machine) : Prop where
  pc : t.pc = s.pc
  ireg : t.ireg = s.ireg
  freg : t.freg = s.freg
  mem : ∀ a, V a → t.mem a = s.mem a
  results : t.results = s.results

def currentInst (host : Host) (s : Machine) : Decode :=
  host.decode (instFetch s.mem s.pc.toNat).1

/-- The next instruction lies in the image with what it loads, and reads no counter. -/
structure StepWithin (host : Host) (V : ℕ → Prop) (s : Machine) : Prop where
  length : (instFetch s.mem s.pc.toNat).2 ≠ 0
  fetch : Within V [(s.pc.toNat, (instFetch s.mem s.pc.toNat).2)]
  loads : Within V (dataReads (currentInst host s) s)
  counters : ¬ readsCounter (currentInst host s)

/-- An interval of `n` instructions over the image `V`. -/
def Interval (host : Host) (V : ℕ → Prop) (clock : ℕ → BitVec 64) : ℕ → Machine → Prop
  | 0, _ => True
  | n + 1, s => StepWithin host V s ∧ ∀ s', step host (clock 0) s = some s' →
      Interval host V (fun i => clock (i + 1)) n s'

/-- No instruction of the interval looks at hidden state that is not known when it gets there. -/
def Initialised (host : Host) (clock : ℕ → BitVec 64) : ℕ → Known → Machine → Prop
  | 0, _, _ => True
  | n + 1, k, s => k.Covers (hiddenReads (currentInst host s)) ∧
      ∀ s', step host (clock 0) s = some s' →
        Initialised host (fun i => clock (i + 1)) n
          (k.join (newlyKnown host (currentInst host s) s)) s'

/-- `t` executes what `s` executes and ends with the same registers and memory. -/
structure SameRun (host : Host) (V : ℕ → Prop) (clock clock' : ℕ → BitVec 64) (n : ℕ)
    (s s' t : Machine) : Prop where
  trace : trace host clock' n t = trace host clock n s
  final : ∃ t', run host clock' n t = some t' ∧ SameBegin V s' t'

theorem step_agree {V : ℕ → Prop} {k : Known} {s s' t : Machine} {host : Host}
    {clock : BitVec 64} (clock' : BitVec 64) (h : Agree V k s t) (hwithin : StepWithin host V s)
    (hcov : k.Covers (hiddenReads (currentInst host s))) (hs : step host clock s = some s') :
    instFetch t.mem t.pc.toNat = instFetch s.mem s.pc.toNat ∧
      ∃ t', step host clock' t = some t' ∧
        Agree V (k.join (newlyKnown host (currentInst host s) s)) s' t' := by
  have hfetch : instFetch t.mem t.pc.toNat = instFetch s.mem s.pc.toNat := by
    rw [h.pc]
    apply instFetch_congr hwithin.length
    intro a hlo hhi
    exact h.mem a (within_singleton hwithin.fetch a hlo hhi)
  refine ⟨hfetch, ?_⟩
  rw [step, hfetch]
  exact execute_agree h hcov hwithin.loads hwithin.counters hs

theorem run_agree {V : ℕ → Prop} {host : Host} {clock clock' : ℕ → BitVec 64} {n : ℕ} {k : Known}
    {s s' t : Machine} (h : Agree V k s t) (hwithin : Interval host V clock n s)
    (hinit : Initialised host clock n k s) (hs : run host clock n s = some s') :
    SameRun host V clock clock' n s s' t := by
  induction n generalizing k s t clock clock' with
  | zero =>
    obtain rfl := Option.some.inj hs
    exact ⟨rfl, t, rfl, h.pc, h.ireg, h.freg, h.mem, h.results⟩
  | succ n ih =>
    obtain ⟨s₁, hstep, hrest⟩ := Option.bind_eq_some_iff.mp hs
    obtain ⟨hfetch, t₁, hstep', hagree⟩ := step_agree (clock' 0) h hwithin.1 hinit.1 hstep
    have hsame : SameRun host V (fun i => clock (i + 1)) (fun i => clock' (i + 1)) n s₁ s' t₁ :=
      ih hagree (hwithin.2 s₁ hstep) (hinit.2 s₁ hstep) hrest
    obtain ⟨htrace, t', hrun, hend⟩ := hsame
    refine ⟨?_, t', ?_, hend⟩
    · rw [trace, trace, hfetch, h.pc, hstep, hstep']
      simp only [htrace]
    · rw [run, hstep']
      exact hrun

/-- `lr.w a0, (a2)` -/
def lrWord : BitVec 64 := 0x1006252f

/-- `sc.w a0, a1, (a2)` -/
def scWord : BitVec 64 := 0x18b6252f

/-- A host that knows the two words; nothing else is executed. -/
def atomicHost : Host where
  shiftOver := ⟨fun _ _ x _ => x⟩
  softfloat :=
    { mulAdd := fun _ _ x _ _ => (x, 0)
      arith := fun _ _ _ x _ => (x, 0)
      sqrt := fun _ _ x => (x, 0)
      minmax := fun _ _ x _ => (x, 0)
      cmp := fun _ _ _ _ => (false, 0)
      toInt := fun _ _ _ _ => (0, 0)
      ofInt := fun _ _ _ _ => (0, 0)
      toDouble := fun _ _ => (0, 0)
      toSingle := fun _ _ => (0, 0)
      classify := fun _ _ => 0 }
  decode := fun inst =>
    if inst = lrWord then ⟨.lr .w, 10, 12, 0, 0, 0, 0⟩
    else if inst = scWord then ⟨.sc .w, 10, 12, 11, 0, 0, 0⟩
    else ⟨.illegal, 0, 0, 0, 0, 0, 0⟩

/-- A machine in front of the two words, with the reservation and `fcsr` left open. -/
def atomicMachine (pc lr : BitVec 64) (fcsr : BitVec 32) : Machine where
  pc := pc
  ireg := fun r => if r = 12 then 0x20000 else 0
  freg := fun _ => 0
  lr := lr
  fcsr := fcsr
  time := 0
  instret := 0
  mem := Mem.write (Mem.write (fun _ => 0) 0x10000 4 lrWord) 0x10004 4 scWord
  results := []

def atomicImage (a : ℕ) : Prop := (0x10000 ≤ a ∧ a < 0x10008) ∨ (0x20000 ≤ a ∧ a < 0x20004)

theorem atomicMachine_begin (pc lr lr' : BitVec 64) (fcsr fcsr' : BitVec 32) :
    SameBegin atomicImage (atomicMachine pc lr fcsr) (atomicMachine pc lr' fcsr') :=
  ⟨rfl, rfl, rfl, fun _ _ => rfl, rfl⟩

theorem not_readsCounter {dec : Decode} (h : ∀ op uimm, dec.op ≠ .csr op uimm) :
    ¬ readsCounter dec := by
  rintro ⟨op, uimm, hop, -⟩
  exact h op uimm hop

theorem atomicStep_within {s : Machine} {pc word : BitVec 64} {dec : Decode} (hpc : s.pc = pc)
    (hfetch : instFetch s.mem pc.toNat = (word, 4)) (hdec : atomicHost.decode word = dec)
    (hcode : 0x10000 ≤ pc.toNat ∧ pc.toNat ≤ 0x10004)
    (hreads : Within atomicImage (dataReads dec s)) (hcsr : ∀ op uimm, dec.op ≠ .csr op uimm) :
    currentInst atomicHost s = dec ∧ StepWithin atomicHost atomicImage s := by
  subst hpc
  have hcur : currentInst atomicHost s = dec := by rw [currentInst, hfetch, hdec]
  refine ⟨hcur, ?_, ?_, ?_, not_readsCounter ?_⟩
  · rw [hfetch]
    exact Nat.succ_ne_zero 3
  · rw [hfetch]
    intro r hr a hlo hhi
    obtain rfl := List.mem_singleton.mp hr
    simp only at hlo hhi
    exact .inl (by omega)
  · rw [hcur]
    exact hreads
  · rw [hcur]
    exact hcsr

theorem within_nil (V : ℕ → Prop) : Within V [] := by
  intro r hr
  cases hr

theorem scStep_within {s : Machine} (hpc : s.pc = 0x10004)
    (hfetch : instFetch s.mem 0x10004 = (scWord, 4)) :
    currentInst atomicHost s = ⟨.sc .w, 10, 12, 11, 0, 0, 0⟩ ∧
      StepWithin atomicHost atomicImage s :=
  atomicStep_within hpc hfetch rfl (by decide) (within_nil _) (by intro op uimm hop; cases hop)

end RvCkpt.Isa
