import RvCkpt.Mmu.UserMemory
import RvCkpt.Isa.Alu

/-! # Atomic operations of the proxy MMU

`amo`, `load` and `store` of `mmu_proxy` in `src/src/emu/mmu-proxy.h`, with what they report to the
checkpoint manager, and when an atomic operation is a load and a store.
-/

namespace RvCkpt.Mmu.Proxy
set_option autoImplicit false
open ByteMem Isa

/-! ## Operations -/

/-- `amo_fn` -/
def amo_fn (op : AmoOp) {w : ℕ} (x y : BitVec w) : BitVec w :=
  match op with
  | .amoswap => y
  | .amoadd => x + y
  | .amoxor => x ^^^ y
  | .amoor => x ||| y
  | .amoand => x &&& y
  | .amomin => if y.slt x then y else x
  | .amomax => if x.slt y then y else x
  | .amominu => if y.ult x then y else x
  | .amomaxu => if x.ult y then y else x

section
variable {n w : ℕ} (h : n ≤ w) (x y : BitVec n)
include h

theorem setWidth_signExtend_self : (x.signExtend w).setWidth n = x := by
  apply BitVec.eq_of_getLsbD_eq
  intro i hi
  rw [BitVec.getLsbD_setWidth, BitVec.getLsbD_signExtend, if_pos hi, decide_eq_true hi,
    decide_eq_true (hi.trans_le h), Bool.true_and, Bool.true_and]

theorem slt_signExtend : (x.signExtend w).slt (y.signExtend w) = x.slt y := by
  rw [BitVec.slt_eq_decide, BitVec.slt_eq_decide, BitVec.toInt_signExtend_of_le h,
    BitVec.toInt_signExtend_of_le h]

/-- Sign extension keeps the unsigned order too. -/
theorem ult_signExtend : (x.signExtend w).ult (y.signExtend w) = x.ult y := by
  have hpow : 2 ^ n ≤ 2 ^ w := Nat.pow_le_pow_right (by decide) h
  have hx := x.isLt
  have hy := y.isLt
  rw [BitVec.ult_eq_decide, BitVec.ult_eq_decide, BitVec.toNat_signExtend, BitVec.toNat_signExtend,
    BitVec.toNat_setWidth_of_le h, BitVec.toNat_setWidth_of_le h, BitVec.msb_eq_decide,
    BitVec.msb_eq_decide]
  apply decide_eq_decide.mpr
  simp only [decide_eq_true_eq]
  split <;> split <;> omega

/-- The operation on values extended to a longer word is the one on the values. -/
theorem amo_fn_signExtend (op : AmoOp) :
    (amo_fn op (x.signExtend w) (y.signExtend w)).setWidth n = amo_fn op x y := by
  cases op with
  | amoswap => exact setWidth_signExtend_self h y
  | amoadd =>
    rw [amo_fn, BitVec.setWidth_add _ _ h, setWidth_signExtend_self h, setWidth_signExtend_self h, amo_fn]
  | amoxor =>
    rw [amo_fn, BitVec.setWidth_xor, setWidth_signExtend_self h, setWidth_signExtend_self h, amo_fn]
  | amoor =>
    rw [amo_fn, BitVec.setWidth_or, setWidth_signExtend_self h, setWidth_signExtend_self h, amo_fn]
  | amoand =>
    rw [amo_fn, BitVec.setWidth_and, setWidth_signExtend_self h, setWidth_signExtend_self h, amo_fn]
  | amomin =>
    rw [amo_fn, amo_fn, slt_signExtend h, apply_ite (BitVec.setWidth n), setWidth_signExtend_self h,
      setWidth_signExtend_self h]
  | amomax =>
    rw [amo_fn, amo_fn, slt_signExtend h, apply_ite (BitVec.setWidth n), setWidth_signExtend_self h,
      setWidth_signExtend_self h]
  | amominu =>
    rw [amo_fn, amo_fn, ult_signExtend h, apply_ite (BitVec.setWidth n), setWidth_signExtend_self h,
      setWidth_signExtend_self h]
  | amomaxu =>
    rw [amo_fn, amo_fn, ult_signExtend h, apply_ite (BitVec.setWidth n), setWidth_signExtend_self h,
      setWidth_signExtend_self h]

end

/-! ## Accesses -/

def memory_top : ℕ := 0x80000000

def enfore_memory_top : Bool := false

/-- A type of an atomic operation, `s32` or `s64`, that words of the machine hold. -/
structure AmoType (P : Param) where
  width : AmoWidth
  fits : 8 * width.bytes ≤ P.width

namespace AmoType
variable {P : Param} (T : AmoType P)

def bits : ℕ := 8 * T.width.bytes

theorem bits_le : T.bits ≤ P.width := T.fits

def read (m : Mem) (a : ℕ) : BitVec T.bits := (m.read a T.width.bytes).setWidth T.bits

def write (m : Mem) (a : ℕ) (x : BitVec T.bits) : Mem := m.write a T.width.bytes (x.setWidth 64)

/-- `UX(val)`, assigned to a `T`. -/
def throughUX (x : BitVec T.bits) : BitVec T.bits := (x.signExtend P.width).setWidth T.bits

/-- What the checkpoint manager is told. -/
inductive Note where
  | load (addr : ℕ) (data : BitVec T.bits)
  | store (addr : ℕ) (data : BitVec T.bits)
  deriving DecidableEq

end AmoType

/-- A value, the memory, and what the manager was told. -/
structure Done {P : Param} (T : AmoType P) where
  val : BitVec T.bits
  mem : Mem
  notes : List T.Note

section
variable {P : Param} (T : AmoType P) (m : Mem) (va : UX P)

/-- The host address of a load or a store. -/
def dataAddr : ℕ := if enfore_memory_top then va.toNat % memory_top else va.toNat

/-- The host address of an atomic operation. -/
def amoAddr : ℕ := va.toNat % memory_top

/-- `load` -/
def load : Done T :=
  let val := T.throughUX (T.read m (dataAddr va))
  ⟨val, m, [.load va.toNat val]⟩

/-- `store` -/
def store (val : BitVec T.bits) : Done T := ⟨val, T.write m (dataAddr va) val, [.store va.toNat val]⟩

/-- `amo` -/
def amo (a_op : AmoOp) (val2 : BitVec T.bits) : Done T :=
  let val1 := T.throughUX (T.read m (amoAddr va))
  let val2 := (amo_fn a_op (val1.signExtend P.width) (val2.signExtend P.width)).setWidth T.bits
  ⟨val1, T.write m (amoAddr va) val2, [.load va.toNat val1, .store va.toNat val2]⟩

/-- The operation returns what a load does, leaves what a store of the new value leaves, and
reports the addresses that it accesses, whatever is in memory. -/
def AmoRight (a_op : AmoOp) (val2 : BitVec T.bits) : Prop :=
  ∀ m, let old := (load T m va).val
    let new := amo_fn a_op old val2
    (amo T m va a_op val2).val = old ∧ (amo T m va a_op val2).mem = (store T m va new).mem ∧
      (amo T m va a_op val2).notes = [.load (amoAddr va) old, .store (amoAddr va) new]

end

theorem throughUX_eq {P : Param} (T : AmoType P) (x : BitVec T.bits) : T.throughUX x = x :=
  setWidth_signExtend_self T.bits_le x

theorem bytes_le (width : AmoWidth) : 0 < width.bytes ∧ width.bytes ≤ 8 := by
  cases width <;> decide

/-- A memory that tells two addresses apart. -/
theorem exists_byte_ne {P : Param} (T : AmoType P) {a b : ℕ} (hne : a ≠ b) :
    ∃ m, T.read m a ≠ T.read m b := by
  obtain ⟨hpos, hle⟩ := bytes_le T.width
  obtain ⟨m, hm⟩ := Mem.exists_read_bit_ne hne hpos hle
  refine ⟨m, ?_⟩
  intro heq
  have hlt : 0 < T.bits := Nat.mul_pos (by decide) hpos
  have hbit : (T.read m a).getLsbD 0 = (T.read m b).getLsbD 0 := by
    rw [heq]
  unfold AmoType.read at hbit
  rw [BitVec.getLsbD_setWidth, BitVec.getLsbD_setWidth, decide_eq_true hlt, Bool.true_and,
    Bool.true_and] at hbit
  exact hm hbit

/-- Above the top of memory the operation works on another address than a load. -/
theorem AmoRight.below {P : Param} {T : AmoType P} {va : UX P} {a_op : AmoOp} {val2 : BitVec T.bits}
    (h : AmoRight T va a_op val2) : va.toNat < memory_top := by
  by_contra hge
  have hlt : amoAddr va < memory_top := Nat.mod_lt _ (by decide)
  obtain ⟨m, hm⟩ := exists_byte_ne T (a := amoAddr va) (b := va.toNat) (by omega)
  have hval := (h m).1
  rw [amo, load, throughUX_eq, throughUX_eq] at hval
  exact hm hval

/-- **When an atomic operation is a load and a store**, for every address, operation, type and
operand. -/
theorem amo_right_iff {P : Param} (T : AmoType P) (va : UX P) (a_op : AmoOp) (val2 : BitVec T.bits) :
    AmoRight T va a_op val2 ↔ va.toNat < memory_top := by
  constructor
  · exact AmoRight.below
  · intro h m
    have hdata : dataAddr va = va.toNat := rfl
    have haddr : amoAddr va = va.toNat := Nat.mod_eq_of_lt h
    dsimp only [amo, load, store]
    rw [throughUX_eq, hdata, haddr, throughUX_eq, amo_fn_signExtend T.bits_le]
    exact ⟨rfl, rfl, rfl⟩

/-- `amoadd.w` on RV64 at the top of memory works on address 0. -/
theorem amoTop_not_right :
    (∀ m, (amo ⟨.w, by decide⟩ m (0x80000000 : UX param_rv64) .amoadd 1).mem =
        (store ⟨.w, by decide⟩ m (0 : UX param_rv64)
          (amo_fn .amoadd (load ⟨.w, by decide⟩ m (0 : UX param_rv64)).val 1)).mem) ∧
      ¬ AmoRight ⟨.w, by decide⟩ (0x80000000 : UX param_rv64) .amoadd 1 := by
  refine ⟨?_, ?_⟩
  · intro m
    dsimp only [amo, load, store]
    rw [throughUX_eq, throughUX_eq, amo_fn_signExtend (AmoType.bits_le _)]
    rfl
  · intro h
    exact absurd h.below (by decide)

end RvCkpt.Mmu.Proxy
