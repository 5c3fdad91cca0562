import RvCkpt.Priv.ProxyCsr
import RvCkpt.Lib.Runs
import Mathlib.Data.Nat.Bitwise

/-! # The views of fcsr

The control and status instructions on `fflags`, `frm` and `fcsr`, in the proxy processor
(`src/src/emu/processor-proxy.h`) and in the privileged one, against a register of eight bits of
which the three are fields.
-/

namespace RvCkpt.Priv
set_option autoImplicit false
open BitField

/-! ## One register -/

inductive View where
  | fflags | frm | fcsr
  deriving DecidableEq, Repr

def View.field : View → Field
  | fflags => ⟨0, 5⟩
  | frm => ⟨5, 3⟩
  | fcsr => ⟨0, 8⟩

def View.csr : View → Csr
  | fflags => .fflags
  | frm => .frm
  | fcsr => .fcsr

/-- A control and status instruction on one of the views. -/
structure ViewInst where
  op : CsrOp
  imm : Bool
  rd : Fin 32
  rs1 : Fin 32
  view : View

def ViewInst.inst (i : ViewInst) : CsrInst := ⟨i.op, i.imm, i.rd, i.rs1, i.view.csr.number⟩

/-- What a field holds after an operation. -/
def CsrOp.combine (op : CsrOp) (old n : ℕ) : ℕ :=
  match op with
  | .rw => n
  | .rs => old ||| n
  | .rc => old ^^^ (old &&& n)

structure Views (xl : Xlen) where
  reg : BitVec 8
  ireg : Fin 32 → xl.UX

namespace Views
variable {xl : Xlen}

def value (v : Views xl) (i : ViewInst) : xl.UX :=
  if i.imm then BitVec.ofNat _ i.rs1 else v.ireg i.rs1

def exec (v : Views xl) (i : ViewInst) : Views xl :=
  let old := get v.reg i.view.field
  { reg := put v.reg i.view.field (i.op.combine old (v.value i).toNat)
    ireg := if i.rd ≠ 0 then Function.update v.ireg i.rd (BitVec.ofNat _ old) else v.ireg }

/-- The upper bit of `frm` is neither asked for nor to be changed. -/
def SparesTop (v : Views xl) (i : ViewInst) : Prop :=
  (i.rd = 0 ∨ v.reg.getLsbD 7 = false) ∧
    match i.op with
    | .rw => (v.value i).getLsbD 2 = v.reg.getLsbD 7
    | .rs => (v.value i).getLsbD 2 = true → v.reg.getLsbD 7 = true
    | .rc => (v.value i).getLsbD 2 = true → v.reg.getLsbD 7 = false

def Spares (v : Views xl) (i : ViewInst) : Prop := i.view = .frm → v.SparesTop i

/-- A view is read as it was written. -/
theorem get_exec (v : Views xl) (i : ViewInst) : get (v.exec i).reg i.view.field =
    i.op.combine (get v.reg i.view.field) (v.value i).toNat % 2 ^ i.view.field.len :=
  get_put (by cases i.view <;> decide) _

/-- Writing a view leaves the bits of another one. -/
theorem get_exec_of_disjoint (v : Views xl) (i : ViewInst) {f : Field}
    (h : f.Disjoint i.view.field) : get (v.exec i).reg f = get v.reg f :=
  get_put_of_disjoint h _

end Views

/-! ## Fields of eight bits -/

theorem CsrOp.testBit_combine (op : CsrOp) (old n i : ℕ) :
    (op.combine old n).testBit i =
      match op with
      | .rw => n.testBit i
      | .rs => old.testBit i || n.testBit i
      | .rc => old.testBit i && !n.testBit i := by
  cases op with
  | rw => rfl
  | rs => exact Nat.testBit_or _ _ _
  | rc =>
    simp only [combine, Nat.testBit_xor, Nat.testBit_and]
    cases old.testBit i <;> cases n.testBit i <;> rfl

section Fields
variable {v : ℕ} {f : BitVec 32} {len shift csr : ℕ}

theorem getLsbD_mask (len i : ℕ) :
    (BitVec.ofNat 32 (2 ^ len - 1)).getLsbD i = (decide (i < 32) && decide (i < len)) := by
  rw [BitVec.getLsbD_ofNat, Nat.testBit_two_pow_sub_one]

theorem getLsbD_shifted (x : BitVec 32) {i : ℕ} (hi : i < 32) :
    ((x &&& BitVec.ofNat 32 (2 ^ len - 1)) <<< shift).getLsbD i =
      (decide (shift ≤ i ∧ i < shift + len) && x.getLsbD (i - shift)) := by
  rw [BitVec.getLsbD_shiftLeft, BitVec.getLsbD_and, getLsbD_mask]
  by_cases hlo : shift ≤ i
  · by_cases hup : i < shift + len
    · simp [hlo, hup, hi, show i - shift < 32 by omega, show i - shift < len by omega,
        show ¬ i < shift by omega]
    · simp [hup, show ¬ i - shift < len by omega]
  · simp [hlo, show i < shift by omega]

/-- `set_csr` with the mask of a field operates on the bits of the field. -/
theorem getLsbD_set_csr (hcsr : csr.testBit 12 = false) (op : CsrOp) (value : BitVec v) {i : ℕ}
    (hi : i < 32) :
    (set_csr op csr f value (BitVec.ofNat 32 (2 ^ len - 1)) shift).getLsbD i =
      if shift ≤ i ∧ i < shift + len then
        match op with
        | .rw => value.getLsbD (i - shift)
        | .rs => f.getLsbD i || value.getLsbD (i - shift)
        | .rc => f.getLsbD i && !value.getLsbD (i - shift)
      else f.getLsbD i := by
  have hbits : ((value.setWidth 32 &&& BitVec.ofNat 32 (2 ^ len - 1)) <<< shift).getLsbD i = _ :=
    getLsbD_shifted _ hi
  have hmask : ((BitVec.ofNat 32 (2 ^ len - 1)) <<< shift).getLsbD i =
      decide (shift ≤ i ∧ i < shift + len) := by
    have h : ((BitVec.allOnes 32 &&& BitVec.ofNat 32 (2 ^ len - 1)) <<< shift).getLsbD i = _ :=
      getLsbD_shifted _ hi
    rw [BitVec.allOnes_and] at h
    rw [h, BitVec.getLsbD_allOnes, decide_eq_true (by omega : i - shift < 32), Bool.and_true]
  rw [BitVec.getLsbD_setWidth, decide_eq_true (by omega : i - shift < 32), Bool.true_and] at hbits
  simp only [set_csr, hcsr, Bool.false_eq_true, if_false]
  cases op with
  | rw =>
    rw [BitVec.getLsbD_or, BitVec.getLsbD_and, BitVec.getLsbD_not, hbits, hmask]
    by_cases hin : shift ≤ i ∧ i < shift + len <;> simp [hin, hi]
  | rs =>
    by_cases hzero : value = 0
    · simp [hzero]
    · simp only [ne_eq, hzero, not_false_eq_true, if_true, BitVec.getLsbD_or, hbits]
      by_cases hin : shift ≤ i ∧ i < shift + len <;> simp [hin]
  | rc =>
    by_cases hzero : value = 0
    · simp [hzero]
    · simp only [ne_eq, hzero, not_false_eq_true, if_true, BitVec.getLsbD_and, BitVec.getLsbD_not,
        hbits]
      by_cases hin : shift ≤ i ∧ i < shift + len <;> simp [hin, hi]

/-- On the low eight bits it operates on the field. -/
theorem setWidth_set_csr (hcsr : csr.testBit 12 = false) (op : CsrOp) (value : BitVec v) :
    (set_csr op csr f value (BitVec.ofNat 32 (2 ^ len - 1)) shift).setWidth 8 =
      put (f.setWidth 8) ⟨shift, len⟩
        (op.combine (get (f.setWidth 8) ⟨shift, len⟩) value.toNat) := by
  apply BitVec.eq_of_getLsbD_eq
  intro i hi
  rw [BitVec.getLsbD_setWidth, decide_eq_true hi, Bool.true_and,
    getLsbD_set_csr hcsr op value (by omega), getLsbD_put _ _ _ hi]
  by_cases hin : shift ≤ i ∧ i < shift + len
  · have hlen : i - shift < len := by omega
    have hold : (get (f.setWidth 8) ⟨shift, len⟩).testBit (i - shift) = f.getLsbD i := by
      rw [testBit_get, decide_eq_true hlen, Nat.add_sub_cancel' hin.1, BitVec.getLsbD_setWidth,
        decide_eq_true hi, Bool.true_and, Bool.true_and]
    rw [if_pos hin, if_pos hin, CsrOp.testBit_combine, hold]
    cases op <;> rfl
  · rw [if_neg hin, if_neg hin, BitVec.getLsbD_setWidth, decide_eq_true hi, Bool.true_and]

/-- What is read with the mask of a field is the field. -/
theorem read_csr_eq (hle : shift + len ≤ 8) (hcsr : csr_mode csr = 0) :
    (read_csr .U csr f (BitVec.ofNat 32 (2 ^ len - 1)) shift : BitVec v) =
      BitVec.ofNat v (get (f.setWidth 8) ⟨shift, len⟩) := by
  rw [read_csr, if_pos (by rw [hcsr]; exact Nat.zero_le _)]
  apply BitVec.eq_of_getLsbD_eq
  intro i hi
  rw [BitVec.getLsbD_setWidth, BitVec.getLsbD_and, BitVec.getLsbD_ushiftRight, getLsbD_mask,
    BitVec.getLsbD_ofNat, testBit_get, BitVec.getLsbD_setWidth]
  by_cases hlen : i < len
  · simp [hi, hlen, show i < 32 by omega, show shift + i < 8 by omega]
  · simp [hlen]

end Fields

/-! ## The two masks of frm -/

/-- The field that the processors give to `frm`. -/
def maskedFrm : Field := ⟨5, 2⟩

section Frm
variable (x : BitVec 8)

theorem testBit_get_masked {i : ℕ} (hi : i < 2) :
    (get x maskedFrm).testBit i = (get x View.frm.field).testBit i := by
  rw [testBit_get, testBit_get, maskedFrm, View.field, decide_eq_true hi,
    decide_eq_true (by omega : i < 3)]

/-- Without the upper bit nothing else is lost. -/
theorem get_masked_iff : get x maskedFrm = get x View.frm.field ↔ x.getLsbD 7 = false := by
  have htop : (get x View.frm.field).testBit 2 = x.getLsbD 7 := by
    rw [testBit_get, View.field, decide_eq_true (by decide : 2 < 3), Bool.true_and]
  constructor
  · intro h
    rw [← htop, ← h, testBit_get]
    rfl
  · intro h
    apply Nat.eq_of_testBit_eq
    intro i
    rcases Nat.lt_trichotomy i 2 with hi | rfl | hi
    · exact testBit_get_masked x hi
    · rw [htop, h, testBit_get]
      rfl
    · rw [testBit_get, testBit_get, maskedFrm, View.field, decide_eq_false (by omega : ¬ i < 2),
        decide_eq_false (by omega : ¬ i < 3), Bool.false_and]

/-- A write spares the upper bit exactly when that keeps its value. -/
theorem put_masked_iff (op : CsrOp) (n : ℕ) :
    put x maskedFrm (op.combine (get x maskedFrm) n) =
        put x View.frm.field (op.combine (get x View.frm.field) n) ↔
      (op.combine (get x View.frm.field) n).testBit 2 = x.getLsbD 7 := by
  constructor
  · intro h
    have h7 := congrArg (BitVec.getLsbD · 7) h
    simp only [getLsbD_put x _ _ (by decide : 7 < 8)] at h7
    rw [if_neg (by decide), if_pos (by decide)] at h7
    exact h7.symm
  · intro h
    apply BitVec.eq_of_getLsbD_eq
    intro i hi
    rw [getLsbD_put x _ _ hi, getLsbD_put x _ _ hi]
    by_cases hlo : 5 ≤ i
    · rcases Nat.lt_or_ge i 7 with hi7 | hi7
      · rw [if_pos ⟨hlo, hi7⟩, if_pos ⟨hlo, Nat.lt_succ_of_lt hi7⟩, CsrOp.testBit_combine,
          CsrOp.testBit_combine]
        show _ = _
        have hold := testBit_get_masked x (i := i - 5) (by omega)
        cases op <;> simp only [maskedFrm, View.field] at hold ⊢ <;> simp only [hold]
      · obtain rfl : i = 7 := by omega
        rw [if_neg (by decide), if_pos (by decide)]
        exact h.symm
    · rw [if_neg (fun h => hlo h.1), if_neg (fun h => hlo h.1)]

theorem combine_top_iff (op : CsrOp) {v : ℕ} (n : BitVec v) :
    (op.combine (get x View.frm.field) n.toNat).testBit 2 = x.getLsbD 7 ↔
      match op with
      | .rw => n.getLsbD 2 = x.getLsbD 7
      | .rs => n.getLsbD 2 = true → x.getLsbD 7 = true
      | .rc => n.getLsbD 2 = true → x.getLsbD 7 = false := by
  have htop : (get x View.frm.field).testBit 2 = x.getLsbD 7 := by
    rw [testBit_get, View.field, decide_eq_true (by decide : 2 < 3), Bool.true_and]
  rw [CsrOp.testBit_combine, htop, BitVec.testBit_toNat]
  cases op <;> cases n.getLsbD 2 <;> cases x.getLsbD 7 <;> simp

end Frm

/-! ## Steps -/

section Step
variable {xl : Xlen}

theorem View.number_top (view : View) : view.csr.number.testBit 12 = false := by
  cases view <;> decide

theorem View.number_mode (view : View) : csr_mode view.csr.number = 0 := by
  cases view <;> decide

/-- The field that the mask of a view selects. -/
def View.masked : View → Field
  | fflags => View.fflags.field
  | frm => maskedFrm
  | fcsr => View.fcsr.field

/-- What both processors do to the register: the view without the upper bit of `frm`. -/
def Views.execMasked (v : Views xl) (i : ViewInst) : Views xl :=
  let old := get v.reg i.view.masked
  { reg := put v.reg i.view.masked (i.op.combine old (v.value i).toNat)
    ireg := if i.rd ≠ 0 then Function.update v.ireg i.rd (BitVec.ofNat _ old) else v.ireg }

theorem ofNat_get_inj {w m n : ℕ} (hw : 32 ≤ w) (hm : m < 256) (hn : n < 256) :
    BitVec.ofNat w m = BitVec.ofNat w n ↔ m = n := by
  have hpow : 2 ^ 32 ≤ 2 ^ w := Nat.pow_le_pow_right (by decide) hw
  rw [← BitVec.toNat_inj, BitVec.toNat_ofNat, BitVec.toNat_ofNat, Nat.mod_eq_of_lt (by omega),
    Nat.mod_eq_of_lt (by omega)]

theorem get_lt (x : BitVec 8) (f : Field) : get x f < 256 := by
  have hlt := x.isLt
  refine Nat.lt_of_le_of_lt (Nat.mod_le _ _) ?_
  rw [Nat.shiftRight_eq_div_pow]
  exact Nat.lt_of_le_of_lt (Nat.div_le_self _ _) hlt

theorem Views.execMasked_iff (v : Views xl) (i : ViewInst) :
    v.execMasked i = v.exec i ↔ v.Spares i := by
  obtain ⟨op, imm, rd, rs1, view⟩ := i
  cases view with
  | fflags => exact iff_of_true rfl fun h => by cases h
  | fcsr => exact iff_of_true rfl fun h => by cases h
  | frm =>
    have hspares : v.Spares ⟨op, imm, rd, rs1, .frm⟩ ↔ v.SparesTop ⟨op, imm, rd, rs1, .frm⟩ :=
      ⟨fun h => h rfl, fun h _ => h⟩
    rw [hspares, execMasked, exec, Views.mk.injEq, SparesTop, ← combine_top_iff v.reg op,
      ← put_masked_iff v.reg op, and_comm]
    refine and_congr_left' ?_
    show (if rd ≠ 0 then Function.update v.ireg rd _ else v.ireg) = _ ↔ rd = 0 ∨ _
    by_cases hrd : rd = 0
    · simp [hrd]
    · rw [if_pos hrd, if_pos hrd, or_iff_right hrd, ← get_masked_iff]
      constructor
      · intro h
        have hval := congrFun h rd
        rw [Function.update_self, Function.update_self] at hval
        exact (ofNat_get_inj xl.width_ge (get_lt _ _) (get_lt _ _)).mp hval
      · intro h
        show Function.update v.ireg rd (BitVec.ofNat _ (get v.reg maskedFrm)) = _
        rw [h]

/-- `set_csr` on a word whose low bits are the register. -/
theorem set_csr_view (f : BitVec 32) (view : View) (op : CsrOp) (value : xl.UX) :
    (set_csr op view.csr.number f value (BitVec.ofNat 32 (2 ^ view.masked.len - 1))
      view.masked.lo).setWidth 8 =
      put (f.setWidth 8) view.masked (op.combine (get (f.setWidth 8) view.masked) value.toNat) :=
  setWidth_set_csr view.number_top op value

theorem read_csr_view (f : BitVec 32) (view : View) :
    (read_csr .U view.csr.number f (BitVec.ofNat 32 (2 ^ view.masked.len - 1)) view.masked.lo :
      xl.UX) = BitVec.ofNat _ (get (f.setWidth 8) view.masked) :=
  read_csr_eq (by cases view <;> decide) view.number_mode

namespace Proxy

def views (s : Proxy xl) : Views xl := ⟨s.fcsr.setWidth 8, s.ireg⟩

theorem inst_csr_view (clock : BitVec 64) (s : Proxy xl) (rd : Fin 32) (op : CsrOp) (view : View)
    (value : xl.UX) : s.inst_csr clock rd op view.csr.number value =
      some (s.setFcsr rd op view.csr.number value (BitVec.ofNat 32 (2 ^ view.masked.len - 1))
        view.masked.lo) := by
  cases view <;> rfl

/-- An instruction on a view in the proxy processor. -/
theorem exec_views (clock : BitVec 64) (s : Proxy xl) (i : ViewInst) :
    ∃ s', s.exec clock i.inst = some s' ∧ s'.views = s.views.execMasked i := by
  refine ⟨_, s.inst_csr_view clock i.rd i.op i.view (s.value i.inst), ?_⟩
  have hireg : ∀ x : xl.UX, (s.setRd i.rd x).ireg =
      if i.rd ≠ 0 then Function.update s.ireg i.rd x else s.ireg := by
    intro x
    unfold setRd
    split <;> rfl
  rw [views, setFcsr, Views.mk.injEq]
  refine ⟨set_csr_view _ _ _ _, ?_⟩
  show (s.setRd i.rd _).ireg = _
  rw [hireg, read_csr_view]
  rfl

end Proxy

/-! ## The privileged processor -/

section Flags
variable {f e : BitVec 32}

/-- The flags of the host are below `frm`. -/
theorem getLsbD_flags (he : e.toNat < 32) {i : ℕ} (hi : 5 ≤ i) : e.getLsbD i = false :=
  Nat.testBit_lt_two_pow (Nat.lt_of_lt_of_le he (Nat.pow_le_pow_right (n := 2) (by decide) hi))

theorem get_or_flags (he : e.toNat < 32) :
    get ((f ||| e).setWidth 8) maskedFrm = get (f.setWidth 8) maskedFrm := by
  apply Nat.eq_of_testBit_eq
  intro i
  rw [testBit_get, testBit_get, BitVec.getLsbD_setWidth, BitVec.getLsbD_setWidth,
    BitVec.getLsbD_or]
  have hflag : e.getLsbD (maskedFrm.lo + i) = false := getLsbD_flags he (Nat.le_add_right 5 i)
  rw [hflag, Bool.or_false]

theorem put_or_flags (he : e.toNat < 32) (g : BitVec 32) (n : ℕ)
    (hg : g.setWidth 8 = put (f.setWidth 8) maskedFrm n) :
    (g ||| e).setWidth 8 = put ((f ||| e).setWidth 8) maskedFrm n := by
  apply BitVec.eq_of_getLsbD_eq
  intro i hi
  have hbit := congrArg (BitVec.getLsbD · i) hg
  simp only [getLsbD_put _ _ _ hi, BitVec.getLsbD_setWidth, hi, decide_true, Bool.true_and] at hbit
  rw [getLsbD_put _ _ _ hi, BitVec.getLsbD_setWidth, BitVec.getLsbD_setWidth, BitVec.getLsbD_or,
    BitVec.getLsbD_or, decide_eq_true hi, Bool.true_and, Bool.true_and, hbit]
  by_cases hin : maskedFrm.lo ≤ i ∧ i < maskedFrm.lo + maskedFrm.len
  · rw [if_pos hin, if_pos hin, getLsbD_flags he hin.1, Bool.or_false]
  · rw [if_neg hin, if_neg hin]

theorem or_and_self (g e : BitVec 32) : g ||| e &&& g = g := by
  apply BitVec.eq_of_getLsbD_eq
  intro i _
  rw [BitVec.getLsbD_or, BitVec.getLsbD_and]
  cases g.getLsbD i <;> simp

end Flags

namespace Hart

/-- What is in `fcsr` and what the host has accrued. -/
def views (s : Hart xl) : Views xl := ⟨(s.csr .fcsr ||| s.fenv).setWidth 8, s.ireg⟩

@[simp] theorem setRd_fenv (s : Hart xl) (rd : Fin 32) (x : xl.UX) :
    (s.setRd rd x).fenv = s.fenv := by
  unfold setRd
  split <;> rfl

theorem setRd_ireg (s : Hart xl) (rd : Fin 32) (x : xl.UX) :
    (s.setRd rd x).ireg = if rd ≠ 0 then Function.update s.ireg rd x else s.ireg := by
  unfold setRd
  split <;> rfl

@[simp] theorem fenv_setrm_fenv (s : Hart xl) : (fenv_setrm s).fenv = s.fenv := by
  unfold fenv_setrm
  dsimp only
  split
  · rfl
  · split <;> rfl

@[simp] theorem fenv_setrm_ireg (s : Hart xl) : (fenv_setrm s).ireg = s.ireg := by
  unfold fenv_setrm
  dsimp only
  split
  · rfl
  · split <;> rfl

theorem inst_csr_view (clock : BitVec 64) (s : Hart xl) (i : ViewInst) :
    i.inst.exec clock s = some (after (access (before clock s i.view.csr) i.rd i.op
      i.view.csr.number (i.inst.value s) (i.view.csr.handler xl)) i.view.csr) := by
  obtain ⟨op, imm, rd, rs1, view⟩ := i
  cases view <;> rfl

theorem handler_view (view : View) : view.csr.handler xl =
    .set true .fcsr (BitVec.ofNat 32 (2 ^ view.masked.len - 1))
      (BitVec.ofNat 32 (2 ^ view.masked.len - 1)) view.masked.lo := by
  cases view <;> rfl

/-- The register behind a view after the access. -/
structure Accessed (s t : Hart xl) (rd : Fin 32) (op : CsrOp) (view : View) (value : xl.UX) :
    Prop where
  fcsr : (t.csr .fcsr).setWidth 8 = put ((s.csr .fcsr).setWidth 8) view.masked
    (op.combine (get ((s.csr .fcsr).setWidth 8) view.masked) value.toNat)
  ireg : t.ireg = if rd ≠ 0 then
    Function.update s.ireg rd (BitVec.ofNat _ (get ((s.csr .fcsr).setWidth 8) view.masked))
    else s.ireg
  fenv : t.fenv = s.fenv

theorem accessed (s : Hart xl) (rd : Fin 32) (op : CsrOp) (view : View) (value : xl.UX) :
    Accessed s (access s rd op view.csr.number value (view.csr.handler xl)) rd op view value := by
  rw [handler_view]
  constructor
  · show (((s.setRd rd _).set .fcsr _).csr .fcsr).setWidth 8 = _
    rw [set_csr_self]
    exact set_csr_view _ _ _ _
  · show (s.setRd rd _).ireg = _
    rw [setRd_ireg]
    exact congrArg (fun x => if rd ≠ 0 then Function.update s.ireg rd x else s.ireg)
      (read_csr_view _ _)
  · show (s.setRd rd _).fenv = _
    rw [setRd_fenv]

theorem and_lt_32 {e g : BitVec 32} (he : e.toNat < 32) : (e &&& g).toNat < 32 := by
  rw [BitVec.toNat_and]
  exact Nat.lt_of_le_of_lt Nat.and_le_left he

theorem views_clearflags (s : Hart xl) :
    (fenv_clearflags s).views = ⟨(s.csr .fcsr).setWidth 8, s.ireg⟩ :=
  congrArg (fun x : BitVec 32 => Views.mk (x.setWidth 8) s.ireg) (or_and_self _ _)

theorem views_setrm (s : Hart xl) : (fenv_setrm s).views = s.views := by
  rw [views, fenv_setrm_csr, fenv_setrm_fenv, fenv_setrm_ireg]
  rfl

/-- Where the flags have been collected the register is all there is. -/
theorem Accessed.views_clearflags {s t : Hart xl} {i : ViewInst}
    (h : Accessed (fenv_getflags s) t i.rd i.op i.view (i.inst.value s)) :
    (fenv_clearflags t).views = s.views.execMasked i := by
  have hflags : (fenv_getflags s).csr .fcsr = s.csr .fcsr ||| s.fenv := set_csr_self _ _ _
  rw [Hart.views_clearflags, h.fcsr, h.ireg, hflags]
  rfl

/-- `frm` is written beside the flags of the host, which are below it. -/
theorem Accessed.views_frm {s t : Hart xl} (hs : s.fenv.toNat < 32) {i : ViewInst}
    (hview : i.view = .frm) (h : Accessed s t i.rd i.op i.view (i.inst.value s)) :
    t.views = s.views.execMasked i := by
  have hfcsr := h.fcsr
  have hireg := h.ireg
  have hmasked : i.view.masked = maskedFrm := by rw [hview]; rfl
  rw [hmasked] at hfcsr hireg
  have hreg := put_or_flags hs _ _ hfcsr
  rw [← get_or_flags hs] at hreg hireg
  rw [views, Views.execMasked, Views.mk.injEq, h.fenv, hireg, hmasked]
  exact ⟨hreg, rfl⟩

theorem exec_views (clock : BitVec 64) {s : Hart xl} (hs : s.fenv.toNat < 32) (i : ViewInst) :
    ∃ s', i.inst.exec clock s = some s' ∧ s'.views = s.views.execMasked i ∧ s'.fenv.toNat < 32 := by
  refine ⟨_, inst_csr_view clock s i, ?_⟩
  have hget := accessed (fenv_getflags s) i.rd i.op i.view (i.inst.value s)
  have hclear : (fenv_clearflags (access (fenv_getflags s) i.rd i.op i.view.csr.number
      (i.inst.value s) (i.view.csr.handler xl))).fenv.toNat < 32 :=
    and_lt_32 (by rw [hget.fenv]; exact hs)
  have hviews := hget.views_clearflags
  have hplain := accessed s i.rd i.op i.view (i.inst.value s)
  cases hview : i.view with
  | fflags =>
    rw [hview] at hviews hclear
    exact ⟨hviews, hclear⟩
  | frm =>
    show (fenv_setrm _).views = _ ∧ (fenv_setrm _).fenv.toNat < 32
    rw [views_setrm, fenv_setrm_fenv]
    have hfrm := hplain.views_frm hs hview
    have hfenv := hplain.fenv.symm ▸ hs
    rw [hview] at hfrm hfenv
    exact ⟨hfrm, hfenv⟩
  | fcsr =>
    show (fenv_setrm _).views = _ ∧ (fenv_setrm _).fenv.toNat < 32
    rw [views_setrm, fenv_setrm_fenv]
    rw [hview] at hviews hclear
    exact ⟨hviews, hclear⟩

end Hart

/-! ## Sequences -/

/-- A processor and the register side by side, the instruction executed by both. -/
def beside {σ : Type} (exec : σ → CsrInst → Option σ) (p : σ × Views xl) (i : ViewInst) :
    Option (σ × Views xl) :=
  (exec p.1 i.inst).map fun s => (s, p.2.exec i)

/-- The processor shows the register after every instruction of the sequence. -/
def Shows {σ : Type} (exec : σ → CsrInst → Option σ) (views : σ → Views xl) (s : σ)
    (is : List ViewInst) : Prop :=
  Runs.Always (beside exec) (fun p => views p.1 = p.2) (s, views s) is

/-- Every instruction spares the upper bit of `frm` where it is executed. -/
def AllSpare {σ : Type} (exec : σ → CsrInst → Option σ) (views : σ → Views xl) (s : σ)
    (is : List ViewInst) : Prop :=
  Runs.Meets (beside exec) (fun p i => (views p.1).Spares i) (s, views s) is

theorem shows_iff {σ : Type} {exec : σ → CsrInst → Option σ} {views : σ → Views xl} {q : σ → Prop}
    (hexec : ∀ s i, q s → ∃ s', exec s i.inst = some s' ∧ views s' = (views s).execMasked i ∧ q s')
    {s : σ} (hs : q s) (is : List ViewInst) : Shows exec views s is ↔ AllSpare exec views s is := by
  have hstep : ∀ (p : σ × Views xl) i p', beside exec p i = some p' → q p.1 →
      views p'.1 = (views p.1).execMasked i ∧ p'.2 = p.2.exec i ∧ q p'.1 := by
    intro p i p' hp hq
    obtain ⟨s', hs', hviews, hq'⟩ := hexec p.1 i hq
    rw [beside, hs'] at hp
    obtain rfl := Option.some.inj hp
    exact ⟨hviews, rfl, hq'⟩
  refine Runs.always_iff_meets (q := fun p => q p.1) ?_ ?_ is hs rfl
  · intro p i p' hp hq
    exact (hstep p i p' hp hq).2.2
  · intro p i p' hp hq hshow
    obtain ⟨hviews, hreg, -⟩ := hstep p i p' hp hq
    rw [hviews, hreg, ← hshow]
    exact (views p.1).execMasked_iff i

/-- **When `fflags`, `frm` and `fcsr` are views of one register**, for every sequence of
instructions on them in the proxy processor and in the privileged one. -/
theorem fcsr_views (xl : Xlen) (clock : BitVec 64) (is : List ViewInst) :
    (∀ s : Proxy xl, Shows (Proxy.exec clock) Proxy.views s is ↔
      AllSpare (Proxy.exec clock) Proxy.views s is) ∧
    ∀ s : Hart xl, s.fenv.toNat < 32 →
      (Shows (fun s i => i.exec clock s) Hart.views s is ↔
        AllSpare (fun s i => i.exec clock s) Hart.views s is) := by
  constructor
  · intro s
    refine shows_iff (q := fun _ => True) (fun s i _ => ?_) trivial is
    obtain ⟨s', hexec, hviews⟩ := s.exec_views clock i
    exact ⟨s', hexec, hviews, trivial⟩
  · intro s hs
    exact shows_iff (q := fun s => s.fenv.toNat < 32) (fun s i h => Hart.exec_views clock h i) hs is

end Step

/-- A hart with all registers zero. -/
def zeroHart : Hart .rv64 := ⟨0, fun _ => 0, .M, 0, fun _ => 0, 0, 0⟩

/-- A proxy processor with all registers zero. -/
def zeroProxy : Proxy .rv64 := ⟨fun _ => 0, 0, 0, 0⟩

/-- `csrrwi a0, frm, 3` -/
theorem round_up_shown :
    Shows (fun s i => CsrInst.exec i 0 s) Hart.views zeroHart [⟨.rw, true, 10, 3, .frm⟩] := by
  refine ((fcsr_views .rv64 0 [⟨.rw, true, 10, 3, .frm⟩]).2 zeroHart (by decide)).mpr ?_
  exact fun s' _ => ⟨fun _ => ⟨.inr rfl, rfl⟩, trivial⟩

/-- `csrrwi x0, frm, 4` leaves `frm` zero in both processors. -/
theorem round_max_magnitude_lost :
    ¬ Shows (Proxy.exec 0) Proxy.views zeroProxy [⟨.rw, true, 0, 4, .frm⟩] ∧
      ¬ Shows (fun s i => CsrInst.exec i 0 s) Hart.views zeroHart
        [⟨.rw, true, 0, 4, .frm⟩] := by
  constructor
  · intro h
    have hreg := congrArg Views.reg (h.2 _ rfl)
    exact absurd hreg (by decide)
  · intro h
    have hreg := congrArg Views.reg (h.2 _ rfl)
    exact absurd hreg (by decide)

end RvCkpt.Priv
