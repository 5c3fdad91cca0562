import RvCkpt.Priv.Timer

/-! # The inter-processor interrupts

`mipi_mmio_device` (`src/src/emu/device-mipi.h`) with `num_harts` registers of 32 bits, which the
interface names by the hart and the bus by their bytes. An access to anything behind the last
register has no result.
-/

namespace RvCkpt.Emu.Mipi
open ByteMem
open Priv (Width)
set_option autoImplicit false

def bits_per_word : ℕ := 32

def total_size (num_harts : ℕ) : ℕ := bits_per_word * num_harts

/-- The registers, as the bytes of the array. -/
structure Device where
  hart : Mem

namespace Device

/-- The constructor. -/
def init : Device := ⟨fun _ => 0⟩

section
variable (num_harts : ℕ)

/-- Reads `k` bytes of the array. -/
def get (s : Device) (a k : ℕ) : Option (BitVec 64) :=
  if a + k ≤ 4 * num_harts then some (s.hart.read a k) else none

/-- Writes `k` bytes of the array. -/
def set (s : Device) (a k : ℕ) (val : BitVec 64) : Option Device :=
  if a + k ≤ 4 * num_harts then some ⟨s.hart.write a k val⟩ else none

def signal_ipi (s : Device) (hart_id : ℕ) (_value : BitVec 32) : Option Device :=
  if num_harts ≤ hart_id then some s
  else do
    let word ← s.get num_harts (4 * num_harts) 4
    s.set num_harts (4 * num_harts) 4 (word ||| 1#64 <<< (hart_id &&& (bits_per_word - 1)))

def ipi_pending (s : Device) (hart_id : ℕ) : Bool :=
  if num_harts ≤ hart_id then false else decide (0 < s.hart.read (4 * hart_id) 4)

/-- Whether an access is carried out: elsewhere a load gives 0, and a store does nothing. -/
def InSize (w : Width) (va : ℕ) : Prop := va < total_size num_harts - (w.bytes - 1)

instance decidableInSize (w : Width) (va : ℕ) : Decidable (InSize num_harts w va) :=
  Nat.decLt _ _

/-- The first byte of the element of a width that an address is in. -/
def element (w : Width) (va : ℕ) : ℕ := va / w.bytes * w.bytes

def load (s : Device) (w : Width) (va : ℕ) : Option (BitVec 64) :=
  if InSize num_harts w va then s.get num_harts (element w va) w.bytes else some 0

def store (s : Device) (w : Width) (va : ℕ) (val : BitVec 64) : Option Device :=
  if InSize num_harts w va then s.set num_harts (element w va) w.bytes val else some s

def load_8 (s : Device) (va : ℕ) : Option (BitVec 64) := s.load num_harts .w8 va

def load_16 (s : Device) (va : ℕ) : Option (BitVec 64) := s.load num_harts .w16 va

def load_32 (s : Device) (va : ℕ) : Option (BitVec 64) := s.load num_harts .w32 va

def load_64 (s : Device) (va : ℕ) : Option (BitVec 64) := s.load num_harts .w64 va

def store_8 (s : Device) (va : ℕ) (val : BitVec 8) : Option Device :=
  s.store num_harts .w8 va (val.setWidth 64)

def store_16 (s : Device) (va : ℕ) (val : BitVec 16) : Option Device :=
  s.store num_harts .w16 va (val.setWidth 64)

def store_32 (s : Device) (va : ℕ) (val : BitVec 32) : Option Device :=
  s.store num_harts .w32 va (val.setWidth 64)

def store_64 (s : Device) (va : ℕ) (val : BitVec 64) : Option Device :=
  s.store num_harts .w64 va val

end

end Device

inductive Op
  | signal_ipi (hart_id : ℕ) (value : BitVec 32)
  | load_8 (va : ℕ)
  | load_16 (va : ℕ)
  | load_32 (va : ℕ)
  | load_64 (va : ℕ)
  | store_8 (va : ℕ) (val : BitVec 8)
  | store_16 (va : ℕ) (val : BitVec 16)
  | store_32 (va : ℕ) (val : BitVec 32)
  | store_64 (va : ℕ) (val : BitVec 64)

/-- The device after an operation. A load leaves it as it is. -/
def Device.step (num_harts : ℕ) (s : Device) : Op → Option Device
  | .signal_ipi hart_id value => s.signal_ipi num_harts hart_id value
  | .load_8 va => (s.load_8 num_harts va).map fun _ => s
  | .load_16 va => (s.load_16 num_harts va).map fun _ => s
  | .load_32 va => (s.load_32 num_harts va).map fun _ => s
  | .load_64 va => (s.load_64 num_harts va).map fun _ => s
  | .store_8 va val => s.store_8 num_harts va val
  | .store_16 va val => s.store_16 num_harts va val
  | .store_32 va val => s.store_32 num_harts va val
  | .store_64 va val => s.store_64 num_harts va val

/-! ## The property -/

/-- What an operation is for. -/
inductive Action
  | signal (h : ℕ)
  | load (w : Width) (va : ℕ)
  | store (w : Width) (va : ℕ) (val : BitVec 64)

def Op.action : Op → Action
  | .signal_ipi hart_id _ => .signal hart_id
  | .load_8 va => .load .w8 va
  | .load_16 va => .load .w16 va
  | .load_32 va => .load .w32 va
  | .load_64 va => .load .w64 va
  | .store_8 va val => .store .w8 va (val.setWidth 64)
  | .store_16 va val => .store .w16 va (val.setWidth 64)
  | .store_32 va val => .store .w32 va (val.setWidth 64)
  | .store_64 va val => .store .w64 va val

def Action.Signals (h : ℕ) : Action → Prop
  | .signal j => j = h
  | .load _ _ => False
  | .store _ _ _ => False

/-- The action stores to a byte of the register of hart `h`. -/
def Action.StoresTo (h : ℕ) : Action → Prop
  | .signal _ => False
  | .load _ _ => False
  | .store w va _ =>
    4 * h < Device.element w va + w.bytes ∧ Device.element w va < 4 * (h + 1)

/-- A hart that is signalled is pending. Otherwise a hart gets pending only where its register is
stored to, and a pending one stays so until its register is stored to and is 0. -/
structure StepRight (num_harts : ℕ) (s : Device) (a : Action) (s' : Device) : Prop where
  signalled : ∀ h < num_harts, a.Signals h → s'.ipi_pending num_harts h = true
  others : ∀ h, s'.ipi_pending num_harts h = true →
    s.ipi_pending num_harts h = true ∨ a.Signals h ∨ a.StoresTo h
  kept : ∀ h, s.ipi_pending num_harts h = true →
    s'.ipi_pending num_harts h = true ∨ a.StoresTo h ∧ s'.hart.read (4 * h) 4 = 0

/-- Every operation stays within the array, and is right. -/
def Right (num_harts : ℕ) (s : Device) : List Op → Prop
  | [] => True
  | op :: ops =>
    ∃ s', s.step num_harts op = some s' ∧ StepRight num_harts s op.action s' ∧
      Right num_harts s' ops

/-- There is no such hart to signal, and an access that is carried out is one of the array. -/
def Action.Meets (num_harts : ℕ) : Action → Prop
  | .signal h => num_harts ≤ h
  | .load w va | .store w va _ =>
    Device.InSize num_harts w va → Device.element w va + w.bytes ≤ 4 * num_harts

/-! ## One operation -/

/-- The device after an action. -/
def Device.act (num_harts : ℕ) (s : Device) : Action → Option Device
  | .signal h => s.signal_ipi num_harts h 0
  | .load w va => (s.load num_harts w va).map fun _ => s
  | .store w va val => s.store num_harts w va val

theorem step_eq (num_harts : ℕ) (s : Device) (op : Op) :
    s.step num_harts op = s.act num_harts op.action := by
  cases op <;> rfl

namespace Device
variable {num_harts : ℕ} {s s' : Device} {h : ℕ}

theorem ipi_pending_iff :
    s.ipi_pending num_harts h = true ↔ h < num_harts ∧ s.hart.read (4 * h) 4 ≠ 0 := by
  have hpos : 0 < s.hart.read (4 * h) 4 ↔ s.hart.read (4 * h) 4 ≠ 0 := by
    rw [BitVec.lt_def, show (0 : BitVec 64).toNat = 0 from rfl, Nat.pos_iff_ne_zero]
    exact not_congr ⟨fun h => BitVec.eq_of_toNat_eq h, fun h => congrArg BitVec.toNat h⟩
  rw [ipi_pending]
  split_ifs with hh
  · exact iff_of_false id fun hlt => absurd hlt.1 (Nat.not_lt.mpr hh)
  · rw [decide_eq_true_iff, hpos]
    exact (and_iff_right (Nat.lt_of_not_le hh)).symm

/-- The registers that an access to `k` bytes at `a` does not reach are as before. -/
theorem set_read {a k : ℕ} {val : BitVec 64} (hset : s.set num_harts a k val = some s')
    (hh : 4 * (h + 1) ≤ a ∨ a + k ≤ 4 * h) : s'.hart.read (4 * h) 4 = s.hart.read (4 * h) 4 := by
  rw [set] at hset
  split_ifs at hset
  cases hset
  exact Mem.read_write_of_disjoint (by omega)

/-- The register that a signal writes lies behind the array. -/
theorem signal_eq (value : BitVec 32) :
    s.signal_ipi num_harts h value = if num_harts ≤ h then some s else none := by
  have hget : s.get num_harts (4 * num_harts) 4 = none := if_neg (by omega)
  rw [signal_ipi, hget, Option.bind_eq_bind, Option.bind_none]

/-- An access that is carried out is one of the array. -/
theorem exists_some_iff {α : Type} {p q : Prop} [Decidable p] [Decidable q] (x y : α) :
    (∃ r, (if p then if q then some x else none else some y) = some r) ↔ (p → q) := by
  split_ifs with hp hq
  · exact iff_of_true ⟨x, rfl⟩ fun _ => hq
  · exact iff_of_false (fun ⟨_, hnone⟩ => hnone.elim) fun hall => hq (hall hp)
  · exact iff_of_true ⟨y, rfl⟩ fun h => absurd h hp

theorem load_defined (w : Width) (va : ℕ) :
    (∃ val, s.load num_harts w va = some val) ↔ Action.Meets num_harts (.load w va) :=
  exists_some_iff _ _

theorem store_defined (w : Width) (va : ℕ) (val : BitVec 64) :
    (∃ s', s.store num_harts w va val = some s') ↔
      Action.Meets num_harts (.store w va val) :=
  exists_some_iff _ _

/-- A store leaves the registers alone that it does not reach. -/
theorem store_read {w : Width} {va : ℕ} {val : BitVec 64}
    (hstore : s.store num_harts w va val = some s')
    (hh : ¬Action.StoresTo h (.store w va val)) :
    s'.hart.read (4 * h) 4 = s.hart.read (4 * h) 4 := by
  rw [Action.StoresTo] at hh
  rw [store] at hstore
  split_ifs at hstore
  · exact set_read hstore (by omega)
  · cases hstore
    rfl

end Device

section
variable {num_harts : ℕ} {s s' : Device} {a : Action}

/-- The device does not change. -/
theorem StepRight.unchanged (hsignals : ∀ h < num_harts, ¬a.Signals h) :
    StepRight num_harts s a s :=
  ⟨fun h hh hsignal => absurd hsignal (hsignals h hh), fun _ hpending => .inl hpending,
    fun _ hpending => .inl hpending⟩

theorem StepRight.store {w : Width} {va : ℕ} {val : BitVec 64}
    (hstore : s.store num_harts w va val = some s') :
    StepRight num_harts s (.store w va val) s' := by
  refine ⟨fun h _ hsignal => hsignal.elim, fun h hpending => ?_, fun h hpending => ?_⟩
  · by_cases hto : Action.StoresTo h (.store w va val)
    · exact .inr (.inr hto)
    · rw [Device.ipi_pending_iff, Device.store_read hstore hto] at hpending
      exact .inl (Device.ipi_pending_iff.mpr hpending)
  · obtain ⟨hh, hne⟩ := Device.ipi_pending_iff.mp hpending
    by_cases hto : Action.StoresTo h (.store w va val)
    · by_cases hzero : s'.hart.read (4 * h) 4 = 0
      · exact .inr ⟨hto, hzero⟩
      · exact .inl (Device.ipi_pending_iff.mpr ⟨hh, hzero⟩)
    · rw [← Device.store_read hstore hto] at hne
      exact .inl (Device.ipi_pending_iff.mpr ⟨hh, hne⟩)

/-- An action stays within the array exactly where it meets the condition. -/
theorem act_defined (a : Action) : (∃ s', s.act num_harts a = some s') ↔ a.Meets num_harts := by
  cases a with
  | signal h =>
    rw [Device.act, Device.signal_eq, Action.Meets]
    split_ifs with hh
    · exact iff_of_true ⟨s, rfl⟩ hh
    · exact iff_of_false (fun ⟨_, hnone⟩ => hnone.elim) hh
  | load w va =>
    rw [Device.act, ← Device.load_defined (s := s)]
    constructor
    · rintro ⟨s', hs'⟩
      obtain ⟨val, hval, _⟩ := Option.map_eq_some_iff.mp hs'
      exact ⟨val, hval⟩
    · rintro ⟨val, hval⟩
      exact ⟨s, by rw [hval, Option.map_some]⟩
  | store w va val => exact Device.store_defined w va val

/-- What stays within the array is right. -/
theorem act_right (hact : s.act num_harts a = some s') : StepRight num_harts s a s' := by
  cases a with
  | signal h =>
    rw [Device.act, Device.signal_eq] at hact
    split_ifs at hact with hh
    cases hact
    exact .unchanged fun j hj heq => by
      have hjh : h = j := heq
      omega
  | load w va =>
    obtain ⟨_, _, heq⟩ := Option.map_eq_some_iff.mp hact
    cases heq
    exact .unchanged fun _ _ => id
  | store w va val => exact .store hact

end

/-! ## Runs -/

theorem run_iff (num_harts : ℕ) (s : Device) (ops : List Op) :
    Right num_harts s ops ↔ ∀ op ∈ ops, op.action.Meets num_harts := by
  induction ops generalizing s with
  | nil => exact iff_of_true trivial fun _ hmem => absurd hmem List.not_mem_nil
  | cons op ops ih =>
    rw [List.forall_mem_cons, Right]
    constructor
    · rintro ⟨s', hstep, _, hrest⟩
      rw [step_eq] at hstep
      exact ⟨(act_defined _).mp ⟨s', hstep⟩, (ih s').mp hrest⟩
    · rintro ⟨hmeets, hrest⟩
      obtain ⟨s', hact⟩ := (act_defined (s := s) _).mpr hmeets
      exact ⟨s', (step_eq num_harts s op).trans hact, act_right hact, (ih s').mpr hrest⟩

/-- Any operations on the device as it is constructed. -/
theorem ipis_right_iff (num_harts : ℕ) (ops : List Op) :
    Right num_harts .init ops ↔ ∀ op ∈ ops, op.action.Meets num_harts :=
  run_iff num_harts .init ops

/-- Hart 0 of four is signalled. -/
theorem signal_not_right :
    ¬∀ (num_harts : ℕ) (ops : List Op), 0 < num_harts → Right num_harts .init ops := by
  intro hall
  obtain ⟨s', hstep, _⟩ := hall 4 [.signal_ipi 0 1] (by decide)
  have hnone : Device.init.signal_ipi 4 0 1 = none := Device.signal_eq 1
  rw [Device.step, hnone] at hstep
  cases hstep

end RvCkpt.Emu.Mipi
