import RvCkpt.Lib.DoubleWord

/-! # The host interface

`htif_mmio_device` (`src/src/emu/device-htif.h`). A store to any part of `tohost` hands the register
to `handle_output`. `raise` jumps back to the run loop, so that a poweroff ends the access.
-/

namespace RvCkpt.Emu.Htif
set_option autoImplicit false

/-- What the host sees. A command of device 1 is seen as the value that is taken for it. -/
inductive Effect
  | poweroff
  | command (tohost : BitVec 64)
  | write_char (c : BitVec 8)
  | debug (device : BitVec 8)
  deriving DecidableEq

/-- The registers, the characters that the console has, and what the host has seen. -/
structure Device where
  htif_tohost : BitVec 64
  htif_fromhost : BitVec 64
  input : List (BitVec 8)
  effects : List Effect
  deriving DecidableEq

def htif_device_command (device command : BitVec 8) : BitVec 64 :=
  device.setWidth 64 <<< 56 ||| command.setWidth 64 <<< 48

def htif_device (var : BitVec 64) : BitVec 8 := (var >>> 56).setWidth 8

def htif_command (var : BitVec 64) : BitVec 8 := (var >>> 48).setWidth 8 &&& 0xff

namespace Device

def see (s : Device) (e : Effect) : Device := { s with effects := s.effects ++ [e] }

/-- The registers once a command is done. -/
def respond (s : Device) (device command : BitVec 8) : Device :=
  { s with htif_tohost := 0, htif_fromhost := htif_device_command device command }

/-- An error is the device where the processor is powered off. -/
def handle_output (s : Device) : Except Device Device :=
  if s.htif_tohost = 1 then .error (s.see .poweroff)
  else
    let device := htif_device s.htif_tohost
    let command := htif_command s.htif_tohost
    if device = 1 then
      let s := s.see (.command s.htif_tohost)
      if command = 0 then .ok (s.respond device command)
      else if command = 1 then
        .ok ((s.see (.write_char ((s.htif_tohost &&& 0xff).setWidth 8))).respond device command)
      else .ok (s.see (.debug device))
    else .ok s

def handle_input (s : Device) : Device :=
  if s.htif_fromhost = 0 then
    match s.input with
    | [] => s
    | c :: cs =>
      { s with htif_fromhost := htif_device_command 1 0 ||| c.setWidth 64, input := cs }
  else s

/-- A load from an address of no register leaves `val` as it is. -/
def load_32 (s : Device) (va : ℕ) (val : BitVec 32) : Device × BitVec 32 :=
  if va = 0 then (s, s.htif_tohost.setWidth 32)
  else if va = 4 then (s, (s.htif_tohost >>> 32).setWidth 32)
  else if va = 8 then
    let s := s.handle_input
    (s, s.htif_fromhost.setWidth 32)
  else if va = 12 then (s, (s.htif_fromhost >>> 32).setWidth 32)
  else (s, val)

def load_64 (s : Device) (va : ℕ) (val : BitVec 64) : Device × BitVec 64 :=
  if va = 0 then (s, s.htif_tohost)
  else if va = 8 then
    let s := s.handle_input
    (s, s.htif_fromhost)
  else (s, val)

/-- A register with a new lower half. -/
def mergeLow (reg : BitVec 64) (val : BitVec 32) : BitVec 64 :=
  reg &&& BitVec.allOnes 64 <<< 32 ||| val.setWidth 64

/-- A register with a new upper half. -/
def mergeHigh (reg : BitVec 64) (val : BitVec 32) : BitVec 64 :=
  reg &&& BitVec.allOnes 64 >>> 32 ||| val.setWidth 64 <<< 32

def store_32 (s : Device) (va : ℕ) (val : BitVec 32) : Except Device Device :=
  if va = 0 then { s with htif_tohost := mergeLow s.htif_tohost val }.handle_output
  else if va = 4 then { s with htif_tohost := mergeHigh s.htif_tohost val }.handle_output
  else if va = 8 then .ok { s with htif_fromhost := mergeLow s.htif_fromhost val }
  else if va = 12 then .ok { s with htif_fromhost := mergeHigh s.htif_fromhost val }
  else .ok s

def store_64 (s : Device) (va : ℕ) (val : BitVec 64) : Except Device Device :=
  if va = 0 then { s with htif_tohost := val }.handle_output
  else if va = 8 then .ok { s with htif_fromhost := val }
  else .ok s

end Device

/-! ## The property -/

def low (x : BitVec 64) : BitVec 32 := x.setWidth 32

def high (x : BitVec 64) : BitVec 32 := (x >>> 32).setWidth 32

/-- Storing the halves of `val` to `tohost` in either order does what one store does, and loading
the halves of `fromhost` in either order gives those of what one load gives. -/
structure Right (s : Device) (val : BitVec 64) : Prop where
  lowFirst : (do (← s.store_32 0 (low val)).store_32 4 (high val)) = s.store_64 0 val
  highFirst : (do (← s.store_32 4 (high val)).store_32 0 (low val)) = s.store_64 0 val
  readLow : ∀ (vlow vhigh : BitVec 32) (vfull : BitVec 64),
    (s.load_32 8 vlow).2 = low (s.load_64 8 vfull).2 ∧
      ((s.load_32 8 vlow).1.load_32 12 vhigh).2 = high (s.load_64 8 vfull).2
  readHigh : ∀ (vlow vhigh : BitVec 32) (vfull : BitVec 64),
    (s.load_32 12 vhigh).2 = high (s.load_64 8 vfull).2 ∧
      ((s.load_32 12 vhigh).1.load_32 8 vlow).2 = low (s.load_64 8 vfull).2

/-- `handle_output` acts on the value. -/
def Taken (x : BitVec 64) : Prop := x = 1 ∨ htif_device x = 1

instance decidableTaken (x : BitVec 64) : Decidable (Taken x) :=
  inferInstanceAs (Decidable (_ ∨ _))

/-- The lower half of the value with the old upper half is not taken, or both it and the value are
the poweroff. -/
def MeetsLow (tohost val : BitVec 64) : Prop :=
  ¬Taken (high tohost ++ low val : BitVec 64) ∨ val = 1 ∧ high tohost = 0

/-- The upper half of the value with the old lower half is not taken, or it is the value, and that
is the poweroff or a known command with an empty lower half. -/
def MeetsHigh (tohost val : BitVec 64) : Prop :=
  ¬Taken (high val ++ low tohost : BitVec 64) ∨
    low tohost = low val ∧ (val = 1 ∨ low val = 0 ∧ (htif_command val).toNat ≤ 1)

/-- The upper half of `fromhost` cannot change under a load of the lower one. -/
structure Meets (s : Device) (val : BitVec 64) : Prop where
  low : MeetsLow s.htif_tohost val
  high : MeetsHigh s.htif_tohost val
  read : s.htif_fromhost ≠ 0 ∨ s.input = []

/-! ## Halves -/

@[simp] theorem low_append (hi lo : BitVec 32) : low (hi ++ lo : BitVec 64) = lo :=
  BitVec.setWidth_append_eq_right

@[simp] theorem high_append (hi lo : BitVec 32) : high (hi ++ lo : BitVec 64) = hi := by
  rw [high, BitVec.setWidth_ushiftRight_eq_extractLsb]
  exact BitVec.extractLsb'_append_eq_left

theorem high_append_low (x : BitVec 64) : (high x ++ low x : BitVec 64) = x := by
  apply BitVec.eq_of_getLsbD_eq
  intro i hi
  rw [BitVec.getLsbD_append]
  split_ifs with h
  · simp [low, h]
  · simp [high, show i - 32 < 32 by omega, show 32 + (i - 32) = i by omega]

theorem eq_append_iff (x : BitVec 64) (lo : BitVec 32) :
    x = (high x ++ lo : BitVec 64) ↔ lo = low x := by
  constructor
  · intro h
    rw [h, low_append]
  · intro h
    rw [h, high_append_low]

theorem mergeLow_eq (reg : BitVec 64) (val : BitVec 32) :
    Device.mergeLow reg val = (high reg ++ val : BitVec 64) := by
  apply BitVec.eq_of_getLsbD_eq
  intro i hi
  rw [BitVec.getLsbD_append, Device.mergeLow, BitVec.getLsbD_or, BitVec.getLsbD_and,
    BitVec.getLsbD_shiftLeft, BitVec.getLsbD_allOnes, BitVec.getLsbD_setWidth]
  by_cases h : i < 32
  · simp [h, hi]
  · simp [h, hi, high, show i - 32 < 32 by omega, show i - 32 < 64 by omega,
      show 32 + (i - 32) = i by omega, BitVec.getLsbD_of_ge val i (by omega)]

theorem mergeHigh_eq (reg : BitVec 64) (val : BitVec 32) :
    Device.mergeHigh reg val = (val ++ low reg : BitVec 64) := by
  apply BitVec.eq_of_getLsbD_eq
  intro i hi
  rw [BitVec.getLsbD_append, Device.mergeHigh, BitVec.getLsbD_or, BitVec.getLsbD_and,
    BitVec.getLsbD_ushiftRight, BitVec.getLsbD_allOnes, BitVec.getLsbD_shiftLeft,
    BitVec.getLsbD_setWidth]
  by_cases h : i < 32
  · simp [h, hi, low, show 32 + i < 64 by omega]
  · simp [h, hi, show ¬32 + i < 64 by omega, show i - 32 < 64 by omega]

theorem halves_of_one {hi lo : BitVec 32} (h : (hi ++ lo : BitVec 64) = 1) : hi = 0 ∧ lo = 1 :=
  DoubleWord.append_inj (show _ = (0#32 ++ 1#32 : BitVec 64) from h)

theorem halves_of_zero {hi lo : BitVec 32} (h : (hi ++ lo : BitVec 64) = 0) : hi = 0 ∧ lo = 0 :=
  DoubleWord.append_inj (show _ = (0#32 ++ 0#32 : BitVec 64) from h)

/-- The device is in the upper half. -/
theorem htif_device_append (hi lo lo' : BitVec 32) :
    htif_device (hi ++ lo : BitVec 64) = htif_device (hi ++ lo' : BitVec 64) := by
  apply BitVec.eq_of_getLsbD_eq
  intro i hlt
  rw [htif_device, htif_device, BitVec.getLsbD_setWidth, BitVec.getLsbD_setWidth,
    BitVec.getLsbD_ushiftRight, BitVec.getLsbD_ushiftRight, BitVec.getLsbD_append,
    BitVec.getLsbD_append, if_neg (by omega), if_neg (by omega)]

/-- The poweroff is no command of device 1. -/
theorem htif_device_zero_append (lo : BitVec 32) : htif_device (0#32 ++ lo : BitVec 64) ≠ 1 := by
  rw [htif_device_append 0#32 lo 0#32]
  decide

/-! ## One store -/

/-- A store to `tohost` that leaves it at `x`, before `handle_output`. -/
def Device.put (s : Device) (x : BitVec 64) : Except Device Device :=
  { s with htif_tohost := x }.handle_output

/-- The device after a store, also where the processor is powered off. -/
def reached : Except Device Device → Device
  | .ok s => s
  | .error s => s

/-- The values that `handle_output` acted on. -/
def taken : List Effect → List (BitVec 64)
  | [] => []
  | .poweroff :: es => 1 :: taken es
  | .command x :: es => x :: taken es
  | .write_char _ :: es => taken es
  | .debug _ :: es => taken es

theorem taken_append (es fs : List Effect) : taken (es ++ fs) = taken es ++ taken fs := by
  induction es with
  | nil => rfl
  | cons e es ih => cases e <;> simp [taken, ih]

namespace Device
variable {s : Device} {x y : BitVec 64}

theorem store_low (val : BitVec 32) :
    s.store_32 0 val = s.put (high s.htif_tohost ++ val : BitVec 64) := by
  rw [← mergeLow_eq]
  rfl

theorem store_high (val : BitVec 32) :
    s.store_32 4 val = s.put (val ++ low s.htif_tohost : BitVec 64) := by
  rw [← mergeHigh_eq]
  rfl

/-- Setting the register to what it is. -/
theorem set_tohost (h : s.htif_tohost = x) : { s with htif_tohost := x } = s := by
  rw [← h]

theorem put_quiet (h : ¬Taken x) : s.put x = .ok { s with htif_tohost := x } := by
  rw [Taken, not_or] at h
  rw [put, handle_output, if_neg h.1, if_neg h.2]

theorem put_one : s.put 1 = .error ({ s with htif_tohost := 1 }.see .poweroff) := rfl

theorem put_known (hdevice : htif_device x = 1) (hne : x ≠ 1)
    (hcommand : (htif_command x).toNat ≤ 1) : ∃ s', s.put x = .ok s' ∧ s'.htif_tohost = 0 := by
  rw [put, handle_output, if_neg hne]
  simp only [if_pos hdevice]
  split_ifs with hzero hone
  · exact ⟨_, rfl, rfl⟩
  · exact ⟨_, rfl, rfl⟩
  · have h : (htif_command x).toNat = 0 ∨ (htif_command x).toNat = 1 := by omega
    rcases h with h | h
    · exact absurd (BitVec.eq_of_toNat_eq h) hzero
    · exact absurd (BitVec.eq_of_toNat_eq h) hone

theorem put_unknown (hdevice : htif_device x = 1) (hne : x ≠ 1)
    (hcommand : ¬(htif_command x).toNat ≤ 1) : ∃ s', s.put x = .ok s' ∧ s'.htif_tohost = x := by
  rw [put, handle_output, if_neg hne]
  simp only [if_pos hdevice]
  split_ifs with hzero hone
  · exact absurd (by rw [hzero]; decide) hcommand
  · exact absurd (by rw [hone]; decide) hcommand
  · exact ⟨_, rfl, rfl⟩

/-- A value is acted on once. -/
theorem put_taken (s : Device) (x : BitVec 64) :
    taken (reached (s.put x)).effects = taken s.effects ++ if Taken x then [x] else [] := by
  by_cases hone : x = 1
  · rw [hone, put_one, if_pos (.inl rfl)]
    exact taken_append _ _
  by_cases hdevice : htif_device x = 1
  · rw [if_pos (.inr hdevice), put, handle_output, if_neg hone]
    simp only [if_pos hdevice]
    split_ifs <;> simp [reached, respond, see, taken, taken_append]
  · have hquiet : ¬Taken x := not_or.mpr ⟨hone, hdevice⟩
    rw [put_quiet hquiet, if_neg hquiet, List.append_nil]
    rfl

/-- Only the poweroff does not return. -/
theorem put_returns (hne : x ≠ 1) : ∃ s', s.put x = .ok s' := by
  by_cases hdevice : htif_device x = 1
  · by_cases hcommand : (htif_command x).toNat ≤ 1
    · exact (put_known hdevice hne hcommand).imp fun _ h => h.1
    · exact (put_unknown hdevice hne hcommand).imp fun _ h => h.1
  · exact ⟨_, put_quiet (not_or.mpr ⟨hne, hdevice⟩)⟩

theorem eq_one_of_put_error {s' : Device} (h : s.put x = .error s') : x = 1 := by
  by_contra hne
  obtain ⟨_, hok⟩ := put_returns (s := s) hne
  rw [hok] at h
  cases h

/-- Where the first of two stores is acted on and returns, what they do is what one store of that
value does, and the second store is not acted on. -/
theorem eq_of_second_put {s' : Device} {val : BitVec 64} (hfirst : s.put x = .ok s')
    (hx : Taken x) (heq : s'.put y = s.put val) : val = x ∧ ¬Taken y := by
  have hcount := congrArg (fun r => taken (reached r).effects) heq
  have hs' := put_taken s x
  rw [hfirst, if_pos hx] at hs'
  simp only [put_taken] at hcount
  rw [show taken s'.effects = taken s.effects ++ [x] from hs', List.append_assoc,
    List.append_cancel_left_eq, List.singleton_append] at hcount
  split_ifs at hcount with hy hval hval
  · cases hcount
  · obtain ⟨h, _⟩ := List.cons.inj hcount
    exact ⟨h.symm, hy⟩

/-- The lower half is stored after a command was done: the register keeps it. -/
theorem low_after_known {s' : Device} {val : BitVec 64} (hput : s.put x = .ok s')
    (hzero : s'.htif_tohost = 0) (hx : Taken x) :
    s'.store_32 0 (low val) = s.put val ↔ val = x ∧ low val = 0 := by
  have hsecond : s'.store_32 0 (low val) = s'.put (0#32 ++ low val : BitVec 64) := by
    rw [store_low, hzero]
    rfl
  rw [hsecond]
  constructor
  · intro heq
    obtain ⟨hval, hquiet⟩ := eq_of_second_put hput hx heq
    rw [put_quiet hquiet, show s.put val = .ok s' by rw [hval, hput]] at heq
    have hreg := congrArg (fun r => (reached r).htif_tohost) heq
    simp only [reached, hzero] at hreg
    exact ⟨hval, (halves_of_zero hreg).2⟩
  · rintro ⟨hval, hlow⟩
    have hquiet : ¬Taken (0#32 ++ 0#32 : BitVec 64) := by decide
    rw [hlow, show (0 : BitVec 32) = 0#32 from rfl, put_quiet hquiet, hval, hput]
    exact congrArg Except.ok (set_tohost hzero)

/-- The lower half is stored after a command that is not known: it is taken again. -/
theorem low_after_unknown {s' : Device} {val : BitVec 64} (hput : s.put x = .ok s')
    (hkept : s'.htif_tohost = x) (hx : Taken x) (hhigh : high x = high val) :
    s'.store_32 0 (low val) ≠ s.put val := by
  intro heq
  rw [store_low, hkept, hhigh, high_append_low] at heq
  obtain ⟨hval, hquiet⟩ := eq_of_second_put hput hx heq
  rw [← hval] at hx
  exact hquiet hx

end Device

/-! ## Both halves -/

section
variable (s : Device) (val : BitVec 64)

theorem store_full : s.store_64 0 val = s.put val := rfl

theorem lowFirst_iff :
    (do (← s.store_32 0 (low val)).store_32 4 (high val)) = s.store_64 0 val ↔
      MeetsLow s.htif_tohost val := by
  rw [store_full, Device.store_low, MeetsLow]
  by_cases hx : Taken (high s.htif_tohost ++ low val : BitVec 64)
  · rw [iff_false_intro (not_not.mpr hx), false_or]
    rcases hx with hone | hdevice
    · -- the second store is never reached
      rw [hone, Device.put_one]
      obtain ⟨hhigh, hlow⟩ := halves_of_one hone
      constructor
      · intro heq
        exact ⟨Device.eq_one_of_put_error heq.symm, hhigh⟩
      · rintro ⟨hval, _⟩
        rw [hval, Device.put_one]
        rfl
    · have hne : (high s.htif_tohost ++ low val : BitVec 64) ≠ 1 := by
        intro hone
        rw [hone] at hdevice
        exact absurd hdevice (by decide)
      obtain ⟨s', hput⟩ := Device.put_returns (s := s) hne
      refine iff_of_false (fun heq => ?_) (fun ⟨_, hhigh⟩ => ?_)
      · rw [hput] at heq
        have hsecond : s'.put (high val ++ low s'.htif_tohost : BitVec 64) = s.put val := by
          rw [← Device.store_high]
          exact heq
        -- the upper half stays that of a command
        obtain ⟨hval, hquiet⟩ := Device.eq_of_second_put hput (.inr hdevice) hsecond
        rw [hval, high_append] at hquiet
        rw [htif_device_append _ _ (low s'.htif_tohost)] at hdevice
        exact hquiet (.inr hdevice)
      · rw [hhigh] at hdevice
        exact htif_device_zero_append _ hdevice
  · rw [iff_true_intro hx, true_or, iff_true, Device.put_quiet hx]
    refine (Device.store_high _).trans ?_
    simp only [low_append, high_append_low]
    rfl

theorem highFirst_iff :
    (do (← s.store_32 4 (high val)).store_32 0 (low val)) = s.store_64 0 val ↔
      MeetsHigh s.htif_tohost val := by
  have hsame := eq_append_iff val (low s.htif_tohost)
  rw [store_full, Device.store_high, MeetsHigh]
  by_cases hx : Taken (high val ++ low s.htif_tohost : BitVec 64)
  · rw [iff_false_intro (not_not.mpr hx), false_or, ← hsame]
    by_cases hone : (high val ++ low s.htif_tohost : BitVec 64) = 1
    · rw [hone, Device.put_one]
      constructor
      · intro heq
        have hval := Device.eq_one_of_put_error heq.symm
        exact ⟨hval, .inl hval⟩
      · rintro ⟨hval, _⟩
        rw [hval, Device.put_one]
        rfl
    · have hdevice := hx.resolve_left hone
      by_cases hcommand : (htif_command (high val ++ low s.htif_tohost : BitVec 64)).toNat ≤ 1
      · obtain ⟨s', hput, hzero⟩ := Device.put_known (s := s) hdevice hone hcommand
        rw [hput]
        refine (Device.low_after_known hput hzero hx).trans (and_congr_right fun hval => ?_)
        rw [← hval] at hone hcommand
        exact ⟨fun hlow => .inr ⟨hlow, hcommand⟩, fun h => (h.resolve_left hone).1⟩
      · obtain ⟨s', hput, hkept⟩ := Device.put_unknown (s := s) hdevice hone hcommand
        rw [hput]
        refine iff_of_false (Device.low_after_unknown hput hkept hx (high_append _ _)) ?_
        rintro ⟨hval, hrest⟩
        rw [← hval] at hone hcommand
        exact hrest.elim hone fun h => hcommand h.2
  · rw [iff_true_intro hx, true_or, iff_true, Device.put_quiet hx]
    refine (Device.store_low _).trans ?_
    simp only [high_append, high_append_low]
    rfl

theorem handle_input_eq (h : s.htif_fromhost ≠ 0 ∨ s.input = []) : s.handle_input = s := by
  rw [Device.handle_input]
  split_ifs with hzero
  · rw [h.resolve_left (not_not.mpr hzero)]
  · rfl

/-- A character changes the upper half. -/
theorem high_handle_input_ne (hzero : s.htif_fromhost = 0) (hchar : s.input ≠ []) :
    high s.handle_input.htif_fromhost ≠ high s.htif_fromhost := by
  obtain ⟨c, cs, hinput⟩ := List.exists_cons_of_ne_nil hchar
  rw [Device.handle_input, if_pos hzero, hinput, hzero]
  intro heq
  have hbit := congrArg (fun x : BitVec 32 => x.getLsbD 24) heq
  simp only [high, BitVec.getLsbD_setWidth, BitVec.getLsbD_ushiftRight, BitVec.getLsbD_or,
    show (htif_device_command 1 0).getLsbD (32 + 24) = true by decide, Bool.true_or] at hbit
  exact absurd hbit (by decide)

theorem readHigh_iff :
    (∀ (vlow vhigh : BitVec 32) (vfull : BitVec 64),
      (s.load_32 12 vhigh).2 = high (s.load_64 8 vfull).2 ∧
        ((s.load_32 12 vhigh).1.load_32 8 vlow).2 = low (s.load_64 8 vfull).2) ↔
      s.htif_fromhost ≠ 0 ∨ s.input = [] := by
  constructor
  · intro hread
    by_contra hnot
    obtain ⟨hzero, hchar⟩ := not_or.mp hnot
    exact high_handle_input_ne s (not_not.mp hzero) hchar (hread 0 0 0).1.symm
  · intro h vlow vhigh vfull
    have hhigh : high s.handle_input.htif_fromhost = high s.htif_fromhost := by
      rw [handle_input_eq s h]
    exact ⟨hhigh.symm, rfl⟩

end

/-- Any device and any value. -/
theorem halves_right_iff (s : Device) (val : BitVec 64) : Right s val ↔ Meets s val := by
  constructor
  · intro h
    exact ⟨(lowFirst_iff s val).mp h.lowFirst, (highFirst_iff s val).mp h.highFirst,
      (readHigh_iff s).mp h.readHigh⟩
  · intro h
    exact ⟨(lowFirst_iff s val).mpr h.low, (highFirst_iff s val).mpr h.high,
      fun _ _ _ => ⟨rfl, rfl⟩, (readHigh_iff s).mpr h.read⟩

/-- The character is written before its half of the register is stored. -/
theorem writeChar_not_right : ¬∀ (s : Device) (val : BitVec 64), Right s val := by
  intro hall
  have hhigh := (hall ⟨0, 0, [], []⟩ 0x0101000000000063).highFirst
  exact absurd hhigh (by decide)

end RvCkpt.Emu.Htif
