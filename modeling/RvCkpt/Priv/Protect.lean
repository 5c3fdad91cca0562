import RvCkpt.Priv.Csr

/-! # Protection of the control and status registers

What a permitted write makes of a register, and when `inst_csr` keeps registers from instructions
that may not write them.
-/

namespace RvCkpt.Priv
set_option autoImplicit false
open BitField

/-! ## Writes under a mask -/

/-- A write without a mask. -/
def CsrOp.apply {w : ℕ} : CsrOp → BitVec w → BitVec w → BitVec w
  | rw, _, x => x
  | rs, old, x => old ||| x
  | rc, old, x => old &&& ~~~x

/-- A write of the bits in the mask: they take the written, set or cleared value. -/
def CsrOp.applyMasked {w : ℕ} (op : CsrOp) (mask old x : BitVec w) : BitVec w :=
  old &&& ~~~mask ||| op.apply old x &&& mask

section
variable {w v : ℕ}

theorem getLsbD_applyMasked (op : CsrOp) (mask old x : BitVec w) {i : ℕ} (hi : i < w) :
    (op.applyMasked mask old x).getLsbD i =
      if mask.getLsbD i then (op.apply old x).getLsbD i else old.getLsbD i := by
  unfold CsrOp.applyMasked
  simp only [BitVec.getLsbD_and, BitVec.getLsbD_or, BitVec.getLsbD_not, hi, decide_true,
    Bool.true_and]
  cases mask.getLsbD i <;> simp

/-- Two masks, one within the other, make the same of a register exactly if the write does not
change the bits between them. -/
theorem applyMasked_eq_applyMasked_iff (op : CsrOp) {mask small : BitVec w}
    (hsmall : small &&& mask = small) (old x : BitVec w) :
    op.applyMasked mask old x = op.applyMasked small old x ↔
      op.apply old x &&& (mask &&& ~~~small) = old &&& (mask &&& ~~~small) := by
  have hiff : ∀ i < w, ((op.applyMasked mask old x).getLsbD i =
      (op.applyMasked small old x).getLsbD i ↔
        (op.apply old x &&& (mask &&& ~~~small)).getLsbD i =
          (old &&& (mask &&& ~~~small)).getLsbD i) := by
    intro i hi
    have hbit := congrArg (fun y => y.getLsbD i) hsmall
    rw [getLsbD_applyMasked op mask old x hi, getLsbD_applyMasked op small old x hi]
    simp only [BitVec.getLsbD_and, BitVec.getLsbD_not, hi, decide_true, Bool.true_and] at hbit ⊢
    cases hs : small.getLsbD i with
    | true =>
      rw [hs, Bool.true_and] at hbit
      simp [hbit]
    | false => cases mask.getLsbD i <;> simp
  constructor
  · intro h
    apply BitVec.eq_of_getLsbD_eq
    intro i hi
    rw [← hiff i hi, h]
  · intro h
    apply BitVec.eq_of_getLsbD_eq
    intro i hi
    rw [hiff i hi, h]

@[simp] theorem applyMasked_zero (op : CsrOp) (old x : BitVec w) :
    op.applyMasked 0#w old x = old := by
  apply BitVec.eq_of_getLsbD_eq
  intro i hi
  rw [getLsbD_applyMasked op 0#w old x hi, BitVec.getLsbD_zero, if_neg Bool.false_ne_true]

/-- A write changes nothing exactly if it does not change the bits in the mask. -/
theorem applyMasked_eq_iff (op : CsrOp) (mask old x : BitVec w) :
    op.applyMasked mask old x = old ↔ op.apply old x &&& mask = old &&& mask := by
  have hiff := applyMasked_eq_applyMasked_iff op (BitVec.zero_and : 0#w &&& mask = 0#w) old x
  rwa [applyMasked_zero, BitVec.not_zero, BitVec.and_allOnes] at hiff

theorem or_eq_applyMasked (mask old x : BitVec w) :
    old ||| (x &&& mask) = CsrOp.rs.applyMasked mask old x := by
  apply BitVec.eq_of_getLsbD_eq
  intro i hi
  rw [getLsbD_applyMasked _ mask old x hi]
  simp only [CsrOp.apply, BitVec.getLsbD_and, BitVec.getLsbD_or]
  cases mask.getLsbD i <;> simp

theorem and_not_eq_applyMasked (mask old x : BitVec w) :
    old &&& ~~~(x &&& mask) = CsrOp.rc.applyMasked mask old x := by
  apply BitVec.eq_of_getLsbD_eq
  intro i hi
  rw [getLsbD_applyMasked _ mask old x hi]
  simp only [CsrOp.apply, BitVec.getLsbD_and, BitVec.getLsbD_not, hi, decide_true, Bool.true_and]
  cases mask.getLsbD i <;> simp

/-- `set_csr` is a write under its mask. -/
theorem set_csr_eq (op : CsrOp) {csr : ℕ} (hcsr : csr < 4096) (reg : BitVec w) (value : BitVec v)
    (write_mask : BitVec w) (shift : ℕ) :
    set_csr op csr reg value write_mask shift =
      op.applyMasked (write_mask <<< shift) reg (value.setWidth w <<< shift) := by
  have hbit : csr.testBit 12 = false := Nat.testBit_lt_two_pow hcsr
  have hand : (value.setWidth w &&& write_mask) <<< shift =
      value.setWidth w <<< shift &&& write_mask <<< shift := BitVec.shiftLeft_and_distrib _ _ _
  unfold set_csr
  dsimp only
  rw [hbit, if_neg Bool.false_ne_true, hand]
  cases op with
  | rw => rfl
  | rs =>
    dsimp only
    rw [← or_eq_applyMasked]
    by_cases hvalue : value = 0
    · subst hvalue
      simp
    · rw [if_pos hvalue]
  | rc =>
    dsimp only
    rw [← and_not_eq_applyMasked]
    by_cases hvalue : value = 0
    · subst hvalue
      simp
    · rw [if_pos hvalue]

/-- The upper half of a register of 64 bits. -/
def hiMask : BitVec 64 := BitVec.allOnes 64 <<< 32

theorem set_csr_hi_eq (op : CsrOp) {csr : ℕ} (hcsr : csr < 4096) (reg : BitVec 64)
    (value : BitVec v) :
    set_csr_hi op csr reg value = op.applyMasked hiMask reg (value.setWidth 64 <<< 32) := by
  have hbit : csr.testBit 12 = false := Nat.testBit_lt_two_pow hcsr
  have hmask : (0xffffffff : BitVec 64) = ~~~hiMask := by decide
  have hand : value.setWidth 64 <<< 32 &&& hiMask = value.setWidth 64 <<< 32 := by
    rw [hiMask, ← BitVec.shiftLeft_and_distrib, BitVec.and_allOnes]
  unfold set_csr_hi
  dsimp only
  rw [hbit, if_neg Bool.false_ne_true, hmask]
  cases op with
  | rw =>
    unfold CsrOp.applyMasked
    dsimp only [CsrOp.apply]
    rw [hand, BitVec.or_comm]
  | rs =>
    dsimp only
    rw [← or_eq_applyMasked, hand]
    by_cases hvalue : value = 0
    · subst hvalue
      simp
    · rw [if_pos hvalue]
  | rc =>
    dsimp only
    rw [← and_not_eq_applyMasked, BitVec.not_and]
    by_cases hvalue : value = 0
    · subst hvalue
      have hones : ~~~((0 : BitVec v).setWidth 64 <<< 32) = BitVec.allOnes 64 := by simp
      rw [hones, BitVec.allOnes_or, BitVec.and_allOnes]
      exact if_neg (fun h => h rfl)
    · rw [if_pos hvalue]

end

/-! ## The part of a register that a number stands for -/

/-- A part of a register: the bits in the mask. The operand is shifted to them. -/
structure Window (xl : Xlen) where
  reg : Reg
  mask : BitVec (reg.width xl)
  shift : ℕ

section
variable {xl : Xlen}

namespace Window

/-- The register after a write of the part. -/
def write (p : Window xl) (op : CsrOp) (old : BitVec (p.reg.width xl)) (value : xl.UX) :
    BitVec (p.reg.width xl) :=
  op.applyMasked p.mask old (value.setWidth _ <<< p.shift)

/-- The write changes none of the bits. -/
def Keeps (p : Window xl) (bits : BitVec (p.reg.width xl)) (op : CsrOp)
    (old : BitVec (p.reg.width xl)) (value : xl.UX) : Prop :=
  op.apply old (value.setWidth _ <<< p.shift) &&& bits = old &&& bits

end Window

/-- What a handler writes. -/
def Handler.window : Handler xl → Option (Window xl)
  | .set _ reg write_mask _ shift => some ⟨reg, write_mask <<< shift, shift⟩
  | .setHi => some ⟨.instret, hiMask, 32⟩
  | _ => none

/-- The bits that a register number lets be written, as the masks of `inst_csr` are named. -/
def Csr.writable : (c : Csr) → (p : Window xl) → BitVec (p.reg.width xl)
  | .mtvec, _ => BitVec.allOnes _ <<< 2
  | .stvec, _ => BitVec.allOnes _ <<< 2
  | _, p => p.mask

/-- The register numbers that cannot be written. -/
def readOnly (csr : ℕ) : Prop := (csr >>> 10) % 4 = 3

theorem ofNumber_number {csr : ℕ} {c : Csr} (h : Csr.ofNumber csr = some c) : c.number = csr := by
  have hfound := List.find?_some h
  exact of_decide_eq_true hfound

theorem number_lt (c : Csr) : c.number < 4096 := by
  cases c <;> decide

/-- A number is that of a read-only register exactly if `inst_csr` only gets it. -/
theorem readOnly_iff (c : Csr) : readOnly c.number ↔ (c.handler xl).window = none := by
  cases c <;> first
    | exact iff_of_true rfl rfl
    | exact iff_of_false (by unfold readOnly; decide) nofun

/-- The part of the register that `access` writes. -/
theorem access_csr {s : Hart xl} {rd : Fin 32} {op : CsrOp} {csr : ℕ} (hcsr : csr < 4096)
    {value : xl.UX} {h : Handler xl} {p : Window xl} (hp : h.window = some p) :
    (access s rd op csr value h).csr = (s.set p.reg (p.write op (s.csr p.reg) value)).csr := by
  cases h with
  | set asU reg write_mask read_mask shift =>
    obtain rfl := Option.some.inj hp
    rw [access, Window.write, ← set_csr_eq op hcsr]
    unfold Hart.set
    rw [Hart.setRd_csr]
  | get asU reg => cases hp
  | setHi =>
    obtain rfl := Option.some.inj hp
    rw [access, Window.write, ← set_csr_hi_eq op hcsr]
    unfold Hart.set
    rw [Hart.setRd_csr]
  | getHi reg => cases hp

theorem access_csr_of_none {s : Hart xl} {rd : Fin 32} {op : CsrOp} {csr : ℕ} {value : xl.UX}
    {h : Handler xl} (hp : h.window = none) : (access s rd op csr value h).csr = s.csr := by
  cases h with
  | set asU reg write_mask read_mask shift => cases hp
  | get asU reg => exact Hart.setRd_csr _ _ _
  | setHi => cases hp
  | getHi reg => exact Hart.setRd_csr _ _ _

theorem after_csr (s : Hart xl) (c : Csr) : (after s c).csr = s.csr := by
  cases c with
  | fcsr => exact fenv_setrm_csr _
  | frm => exact fenv_setrm_csr _
  | _ => rfl

/-- Nothing but the register of the part is brought up to date before it is written. -/
theorem before_set {clock : BitVec 64} {s : Hart xl} {c : Csr} {p : Window xl}
    (hp : (c.handler xl).window = some p) (x : BitVec (p.reg.width xl)) :
    ((before clock s c).set p.reg x).csr = (s.set p.reg x).csr := by
  cases c with
  | fflags =>
    obtain rfl := Option.some.inj hp
    exact Function.update_idem _ _ _
  | fcsr =>
    obtain rfl := Option.some.inj hp
    exact Function.update_idem _ _ _
  | time => cases hp
  | _ => rfl

/-- Only registers that every mode may write are brought up to date before they are written. -/
theorem before_of_denied {clock : BitVec 64} {s : Hart xl} {c : Csr} {p : Window xl}
    (hp : (c.handler xl).window = some p) (hmode : s.mode.toNat < csr_mode c.number) :
    before clock s c = s := by
  cases c with
  | fflags => exact absurd hmode (Nat.not_lt_zero _)
  | fcsr => exact absurd hmode (Nat.not_lt_zero _)
  | time => cases hp
  | _ => rfl

/-! ## Protection -/

/-- An instruction that may not write its register. -/
def CsrInst.Denied (i : CsrInst) (s : Hart xl) : Prop :=
  s.mode.toNat < csr_mode i.csr ∨ readOnly i.csr ∧ i.writes

/-- A denied instruction changes no register. A permitted one changes the writable bits of its
register, where the flags that the host has accrued count as set in `fcsr`, and nothing else. -/
def CsrInst.Protected (i : CsrInst) (clock : BitVec 64) (s : Hart xl) : Prop :=
  ∀ s', i.exec clock s = some s' →
    (i.Denied s → s'.csr = s.csr) ∧
    ∀ c p, Csr.ofNumber i.csr = some c → (c.handler xl).window = some p →
      csr_mode i.csr ≤ s.mode.toNat →
        s'.csr p.reg = i.op.applyMasked (c.writable p) ((before clock s c).csr p.reg)
          ((i.value s).setWidth _ <<< p.shift) ∧
        ∀ r, r ≠ p.reg → s'.csr r = s.csr r

/-- The bits that are written although the number does not let them be written. -/
def Csr.leak (c : Csr) (p : Window xl) : BitVec (p.reg.width xl) := p.mask &&& ~~~c.writable p

/-- What has to hold for the registers to be protected: the time is not brought up to date by an
instruction that would write it, a mode that is too low changes no bit, and a permitted write
changes none of the bits that its number does not let be written. -/
def CsrInst.Guarded (i : CsrInst) (clock : BitVec 64) (s : Hart xl) : Prop :=
  ∀ c, Csr.ofNumber i.csr = some c →
    (c = .time → i.writes → clock = s.csr .time) ∧
    ∀ p, (c.handler xl).window = some p →
      if s.mode.toNat < csr_mode i.csr then p.Keeps p.mask i.op (s.csr p.reg) (i.value s)
      else p.Keeps (c.leak p) i.op (s.csr p.reg) (i.value s)

theorem writable_and_mask {c : Csr} {p : Window xl} (hp : (c.handler xl).window = some p) :
    c.writable p &&& p.mask = c.writable p := by
  cases c with
  | mtvec =>
    obtain rfl := Option.some.inj hp
    have hones : Csr.tvec_rmask xl <<< 0 = BitVec.allOnes _ := BitVec.shiftLeft_zero _
    dsimp only [Csr.writable]
    rw [hones, BitVec.and_allOnes]
  | stvec =>
    obtain rfl := Option.some.inj hp
    have hones : Csr.tvec_rmask xl <<< 0 = BitVec.allOnes _ := BitVec.shiftLeft_zero _
    dsimp only [Csr.writable]
    rw [hones, BitVec.and_allOnes]
  | _ => exact BitVec.and_self

/-- Where a permitted write goes too far, nothing was brought up to date before it. -/
theorem keeps_leak_before {clock : BitVec 64} {s : Hart xl} {c : Csr} {p : Window xl} {op : CsrOp}
    {value : xl.UX} :
    p.Keeps (c.leak p) op ((before clock s c).csr p.reg) value ↔
      p.Keeps (c.leak p) op (s.csr p.reg) value := by
  have hnone : c.writable p = p.mask → ∀ old, p.Keeps (c.leak p) op old value := by
    intro hw old
    unfold Window.Keeps Csr.leak
    rw [hw]
    simp
  cases c with
  | fflags => exact iff_of_true (hnone rfl _) (hnone rfl _)
  | fcsr => exact iff_of_true (hnone rfl _) (hnone rfl _)
  | time => exact iff_of_true (hnone rfl _) (hnone rfl _)
  | _ => rfl

/-- A register that is only read. -/
theorem protected_iff_of_none {i : CsrInst} {clock : BitVec 64} {s : Hart xl} {c : Csr}
    (hc : Csr.ofNumber i.csr = some c) (hp : (c.handler xl).window = none) :
    i.Protected clock s ↔ i.Guarded clock s := by
  have hnum := ofNumber_number hc
  have hro : readOnly i.csr := by
    rw [← hnum]
    exact (readOnly_iff c).mpr hp
  have hexec : i.exec clock s =
      some (after (access (before clock s c) i.rd i.op i.csr (i.value s) (c.handler xl)) c) := by
    rw [CsrInst.exec, inst_csr, hc, Option.map_some]
  have hcsr : (after (access (before clock s c) i.rd i.op i.csr (i.value s) (c.handler xl)) c).csr =
      (before clock s c).csr := by
    rw [after_csr, access_csr_of_none hp]
  have hprot : i.Protected clock s ↔ (i.Denied s → (before clock s c).csr = s.csr) := by
    constructor
    · intro h hden
      rw [← hcsr]
      exact (h _ hexec).1 hden
    · intro h s' hs'
      obtain rfl := Option.some.inj (hexec.symm.trans hs')
      refine ⟨fun hden => hcsr.trans (h hden), fun c' p hc' hp' _ => ?_⟩
      obtain rfl := Option.some.inj (hc.symm.trans hc')
      rw [hp] at hp'
      cases hp'
  have hguard : i.Guarded clock s ↔ (c = .time → i.writes → clock = s.csr .time) := by
    constructor
    · intro h
      exact (h c hc).1
    · intro h c' hc'
      obtain rfl := Option.some.inj (hc.symm.trans hc')
      refine ⟨h, fun p hp' => ?_⟩
      rw [hp] at hp'
      cases hp'
  rw [hprot, hguard]
  by_cases htime : c = .time
  · subst htime
    constructor
    · intro h _ hw
      have hsame := congrFun (h (.inr ⟨hro, hw⟩)) .time
      rw [← hsame]
      exact (Hart.set_csr_self s .time clock).symm
    · intro h hden
      have hw : i.writes := by
        rcases hden with hmode | hden
        · rw [← hnum] at hmode
          exact absurd hmode (Nat.not_lt_zero _)
        · exact hden.2
      have hset : s.set .time clock = s := by
        rw [h rfl hw, Hart.set_self]
      exact congrArg Hart.csr hset
  · have hbefore : before clock s c = s := by
      cases c with
      | fflags => cases hp
      | fcsr => cases hp
      | time => exact absurd rfl htime
      | _ => rfl
    rw [hbefore]
    exact iff_of_true (fun _ => rfl) (fun h => absurd h htime)

/-- A register that can be written. -/
theorem protected_iff_of_some {i : CsrInst} {clock : BitVec 64} {s : Hart xl} {c : Csr}
    {p : Window xl} (hc : Csr.ofNumber i.csr = some c) (hp : (c.handler xl).window = some p) :
    i.Protected clock s ↔ i.Guarded clock s := by
  have hnum := ofNumber_number hc
  have hlt : i.csr < 4096 := by
    rw [← hnum]
    exact number_lt c
  have hro : ¬ readOnly i.csr := by
    rw [← hnum, readOnly_iff c, hp]
    exact nofun
  have hexec : i.exec clock s =
      some (after (access (before clock s c) i.rd i.op i.csr (i.value s) (c.handler xl)) c) := by
    rw [CsrInst.exec, inst_csr, hc, Option.map_some]
  have hcsr : (after (access (before clock s c) i.rd i.op i.csr (i.value s) (c.handler xl)) c).csr =
      (s.set p.reg (p.write i.op ((before clock s c).csr p.reg) (i.value s))).csr := by
    rw [after_csr, access_csr hlt hp, before_set hp]
  have htime : c ≠ .time := by
    rintro rfl
    cases hp
  have hguard : i.Guarded clock s ↔
      if s.mode.toNat < csr_mode i.csr then p.Keeps p.mask i.op (s.csr p.reg) (i.value s)
      else p.Keeps (c.leak p) i.op (s.csr p.reg) (i.value s) := by
    constructor
    · intro h
      exact (h c hc).2 p hp
    · intro h c' hc'
      obtain rfl := Option.some.inj (hc.symm.trans hc')
      refine ⟨fun h => absurd h htime, fun p' hp' => ?_⟩
      obtain rfl := Option.some.inj (hp.symm.trans hp')
      exact h
  rw [hguard]
  by_cases hmode : s.mode.toNat < csr_mode i.csr
  · have hbefore : before clock s c = s := before_of_denied hp (by rwa [hnum])
    rw [if_pos hmode]
    rw [hbefore] at hcsr hexec
    constructor
    · intro h
      have hsame := congrFun (hcsr.symm.trans ((h _ hexec).1 (.inl hmode))) p.reg
      rw [Hart.set_csr_self] at hsame
      exact (applyMasked_eq_iff _ _ _ _).mp hsame
    · intro h s' hs'
      obtain rfl := Option.some.inj (hexec.symm.trans hs')
      have hkeep : p.write i.op (s.csr p.reg) (i.value s) = s.csr p.reg :=
        (applyMasked_eq_iff _ _ _ _).mpr h
      rw [hkeep, Hart.set_self] at hcsr
      exact ⟨fun _ => hcsr, fun _ _ _ _ hle => absurd hmode (Nat.not_lt.mpr hle)⟩
  · rw [if_neg hmode, ← keeps_leak_before]
    have hpermit := Nat.le_of_not_lt hmode
    have hiff := applyMasked_eq_applyMasked_iff i.op (writable_and_mask hp)
      ((before clock s c).csr p.reg) ((i.value s).setWidth _ <<< p.shift)
    constructor
    · intro h
      have hreg := ((h _ hexec).2 c p hc hp hpermit).1
      rw [hcsr, Hart.set_csr_self] at hreg
      exact hiff.mp hreg
    · intro h s' hs'
      obtain rfl := Option.some.inj (hexec.symm.trans hs')
      refine ⟨fun hden => ?_, fun c' p' hc' hp' _ => ?_⟩
      · rcases hden with hden | hden
        · exact absurd hden hmode
        · exact absurd hden.1 hro
      · obtain rfl := Option.some.inj (hc.symm.trans hc')
        obtain rfl := Option.some.inj (hp.symm.trans hp')
        rw [hcsr]
        refine ⟨?_, fun r hr => Hart.set_csr_of_ne s _ hr⟩
        rw [Hart.set_csr_self]
        exact hiff.mpr h

/-- One instruction: the registers are protected from it exactly if it is guarded. -/
theorem protected_iff (i : CsrInst) (clock : BitVec 64) (s : Hart xl) :
    i.Protected clock s ↔ i.Guarded clock s := by
  cases hc : Csr.ofNumber i.csr with
  | none =>
    refine iff_of_true (fun s' hs' => ?_) (fun c hc' => ?_)
    · rw [CsrInst.exec, inst_csr, hc] at hs'
      cases hs'
    · rw [hc] at hc'
      cases hc'
  | some c =>
    cases hp : (c.handler xl).window with
    | none => exact protected_iff_of_none hc hp
    | some p => exact protected_iff_of_some hc hp

end

end RvCkpt.Priv
