import RvCkpt.Isa.Line

/-! # Saving and restoring registers

Runs of stores and loads that address their slots through one base register, and addresses that
are split into the operands of `%hi` and `%lo`.
-/

namespace RvCkpt.Isa
open ByteMem
set_option autoImplicit false

/-! ## Constants -/

/-- `%hi`, as the operand of `lui` -/
def hi (x : ℕ) : BitVec 32 := BitVec.ofNat 32 ((x + 0x800) / 0x1000 * 0x1000)

/-- `%lo` -/
def lo (x : ℕ) : BitVec 32 := BitVec.ofNat 32 x - hi x

/-- Addresses that `lui` and an offset reach. -/
def Reachable (x : ℕ) : Prop := x + 0x800 < 2 ^ 31

theorem hi_add_lo {x : ℕ} (h : Reachable x) : sx (hi x) + sx (lo x) = BitVec.ofNat 64 x := by
  unfold Reachable at h
  have hhi : (hi x).toInt = ((x + 0x800) / 0x1000 * 0x1000 : ℕ) := by
    rw [hi, BitVec.toInt_ofNat', Int.bmod_eq_of_le] <;> omega
  have hx : (BitVec.ofNat 32 x).toInt = x := by
    rw [BitVec.toInt_ofNat', Int.bmod_eq_of_le] <;> omega
  have hlo : (lo x).toInt = x - ((x + 0x800) / 0x1000 * 0x1000 : ℕ) := by
    rw [lo, BitVec.toInt_sub, hx, hhi, Int.bmod_eq_of_le] <;> omega
  apply BitVec.eq_of_toInt_eq
  rw [BitVec.toInt_add, sx, sx, BitVec.toInt_signExtend_of_le (by decide),
    BitVec.toInt_signExtend_of_le (by decide), hhi, hlo, BitVec.toInt_ofNat']
  congr 1
  omega

theorem sx_ofNat {n : ℕ} (h : n < 2 ^ 31) : sx (BitVec.ofNat 32 n) = BitVec.ofNat 64 n := by
  apply BitVec.eq_of_toInt_eq
  rw [sx, BitVec.toInt_signExtend_of_le (by decide), BitVec.toInt_ofNat', BitVec.toInt_ofNat',
    Int.bmod_eq_of_le (by omega) (by omega), Int.bmod_eq_of_le (by omega) (by omega)]

theorem sx_ofInt {x : ℤ} (hlo : -2 ^ 31 ≤ x) (hhi : x < 2 ^ 31) :
    sx (BitVec.ofInt 32 x) = BitVec.ofInt 64 x := by
  apply BitVec.eq_of_toInt_eq
  rw [sx, BitVec.toInt_signExtend_of_le (by decide), BitVec.toInt_ofInt, BitVec.toInt_ofInt,
    Int.bmod_eq_of_le (by omega) (by omega), Int.bmod_eq_of_le (by omega) (by omega)]

theorem ofNat_add_sx {b n : ℕ} (h : n < 2 ^ 31) :
    BitVec.ofNat 64 b + sx (BitVec.ofNat 32 n) = BitVec.ofNat 64 (b + n) := by
  rw [sx_ofNat h, ← BitVec.ofNat_add]

theorem toNat_ofNat_of_lt {a : ℕ} (h : a < 2 ^ 64) : (BitVec.ofNat 64 a).toNat = a := by
  rw [BitVec.toNat_ofNat, Nat.mod_eq_of_lt h]

theorem reach_toNat {x : ℕ} (h : Reachable x) : (sx (hi x) + sx (lo x)).toNat = x := by
  unfold Reachable at h
  rw [hi_add_lo h, toNat_ofNat_of_lt (by omega)]

/-! ## Registers -/

theorem setReg_self {d : Data} {rd : Reg} {v : BitVec 64} (h : rd ≠ rv_ireg_x0) :
    (d.setReg rd v).ireg rd = v := by
  rw [Data.setReg, if_neg h]
  exact Function.update_self _ _ _

theorem setReg_x0 (d : Data) (v : BitVec 64) : (d.setReg 0 v).ireg 0 = 0 := by
  rw [Data.setReg, if_pos (by rfl)]
  exact Function.update_self 0 0 d.ireg

theorem setReg_of_ne {d : Data} {rd r : Reg} {v : BitVec 64} (h : r ≠ rd) :
    (d.setReg rd v).ireg r = d.ireg r := by
  rw [Data.setReg]
  exact Function.update_of_ne h _ _

@[simp] theorem setReg_mem (d : Data) (rd : Reg) (v : BitVec 64) : (d.setReg rd v).mem = d.mem := rfl

@[simp] theorem setReg_setReg (d : Data) (rd : Reg) (v w : BitVec 64) :
    (d.setReg rd v).setReg rd w = d.setReg rd w := by
  simp only [Data.setReg, Function.update_idem]

@[simp] theorem store_ireg (d : Data) (a : ℕ) (v : BitVec 64) : (d.store a v).ireg = d.ireg := rfl

theorem store_of_not_mem {d : Data} {a x : ℕ} {v : BitVec 64} (h : ¬ (a ≤ x ∧ x < a + 8)) :
    (d.store a v).mem x = d.mem x :=
  Mem.write_of_not_mem (by omega)

theorem store_read_apart {d : Data} {a x : ℕ} {v : BitVec 64} (h : x + 8 ≤ a ∨ a + 8 ≤ x) :
    (d.store a v).mem.read x 8 = d.mem.read x 8 :=
  Mem.read_write_of_disjoint (by omega)

/-- The word at a constant address, loaded through the register itself. -/
theorem line_loadWord {d : Data} {rd : Reg} {x : ℕ} (hrd : rd ≠ rv_ireg_x0) (h : Reachable x) :
    line [.lui rd (hi x), .ld rd rd (lo x)] d = d.setReg rd (d.mem.read x 8) := by
  have haddr : Asm.addr (d.setReg rd (sx (hi x))) rd (lo x) = x := by
    rw [Asm.addr, setReg_self hrd, reach_toNat h]
  rw [line_cons, line_cons, line_nil, Asm.eval, Asm.eval, haddr, setReg_setReg, setReg_mem]

/-- A register stored at a constant address through another one. -/
theorem line_storeWord {d : Data} {rt rs : Reg} {x : ℕ} (hrt : rt ≠ rv_ireg_x0) (hne : rs ≠ rt)
    (h : Reachable x) :
    line [.lui rt (hi x), .sd rs rt (lo x)] d = (d.setReg rt (sx (hi x))).store x (d.ireg rs) := by
  have haddr : Asm.addr (d.setReg rt (sx (hi x))) rt (lo x) = x := by
    rw [Asm.addr, setReg_self hrt, reach_toNat h]
  rw [line_cons, line_cons, line_nil, Asm.eval, Asm.eval, haddr, setReg_of_ne hne]

/-! ## Slots -/

/-- Registers with their offsets from the base register. -/
abbrev Slots := List (Reg × ℕ)

def saveAll (base : Reg) (slots : Slots) : List Asm :=
  slots.map fun slot => .sd slot.1 base (BitVec.ofNat 32 slot.2)

def loadAll (base : Reg) (slots : Slots) : List Asm :=
  slots.map fun slot => .ld slot.1 base (BitVec.ofNat 32 slot.2)

def floadAll (base : Reg) (slots : Slots) : List Asm :=
  slots.map fun slot => .fld slot.1 base (BitVec.ofNat 32 slot.2)

def storeSlots (b : ℕ) (regs : Reg → BitVec 64) (slots : Slots) (m : Mem) : Mem :=
  slots.foldl (fun m slot => m.write (b + slot.2) 8 (regs slot.1)) m

/-- The slots lie within `n` bytes. -/
def Slots.Within (slots : Slots) (n : ℕ) : Prop := ∀ slot ∈ slots, slot.2 + 8 ≤ n

def Slots.Apart (slots : Slots) : Prop :=
  slots.Pairwise fun s t => s.2 + 8 ≤ t.2 ∨ t.2 + 8 ≤ s.2

instance (slots : Slots) (n : ℕ) : Decidable (slots.Within n) :=
  inferInstanceAs (Decidable (∀ slot ∈ slots, slot.2 + 8 ≤ n))

instance (slots : Slots) : Decidable slots.Apart :=
  inferInstanceAs (Decidable (List.Pairwise _ _))

theorem slot_addr {d : Data} {base : Reg} {b k n : ℕ} (hbase : d.ireg base = BitVec.ofNat 64 b)
    (hk : k + 8 ≤ n) (hn : n ≤ 2 ^ 31) (hfit : b + n ≤ 2 ^ 64) :
    Asm.addr d base (BitVec.ofNat 32 k) = b + k := by
  rw [Asm.addr, hbase, ofNat_add_sx (by omega), toNat_ofNat_of_lt (by omega)]

theorem storeSlots_outside {b : ℕ} {regs : Reg → BitVec 64} {slots : Slots} {m : Mem} {n a : ℕ}
    (h : slots.Within n) (ha : a < b ∨ b + n ≤ a) : storeSlots b regs slots m a = m a := by
  induction slots generalizing m with
  | nil => rfl
  | cons slot slots ih =>
    have hslot := h slot List.mem_cons_self
    rw [storeSlots, List.foldl_cons, ← storeSlots,
      ih fun s hs => h s (List.mem_cons_of_mem _ hs), Mem.write_of_not_mem (by omega)]

theorem storeSlots_read_apart {b : ℕ} {regs : Reg → BitVec 64} {slots : Slots} {m : Mem} {off : ℕ}
    (h : ∀ s ∈ slots, off + 8 ≤ s.2 ∨ s.2 + 8 ≤ off) :
    (storeSlots b regs slots m).read (b + off) 8 = m.read (b + off) 8 := by
  induction slots generalizing m with
  | nil => rfl
  | cons slot slots ih =>
    have hslot := h slot List.mem_cons_self
    rw [storeSlots, List.foldl_cons, ← storeSlots,
      ih fun s hs => h s (List.mem_cons_of_mem _ hs), Mem.read_write_of_disjoint (by omega)]

theorem storeSlots_read {b : ℕ} {regs : Reg → BitVec 64} {slots : Slots} {m : Mem}
    (h : slots.Apart) {slot : Reg × ℕ} (hslot : slot ∈ slots) :
    (storeSlots b regs slots m).read (b + slot.2) 8 = regs slot.1 := by
  induction slots generalizing m with
  | nil => cases hslot
  | cons s slots ih =>
    obtain ⟨hs, hrest⟩ := List.pairwise_cons.mp h
    rw [storeSlots, List.foldl_cons, ← storeSlots]
    rcases List.mem_cons.mp hslot with rfl | hslot
    · rw [storeSlots_read_apart fun t ht => hs t ht, Mem.read_write_word]
    · exact ih hrest hslot

theorem line_saveAll {d : Data} {base : Reg} {b n : ℕ} {slots : Slots}
    (hbase : d.ireg base = BitVec.ofNat 64 b) (hwithin : slots.Within n)
    (hn : n ≤ 2 ^ 31) (hfit : b + n ≤ 2 ^ 64) :
    line (saveAll base slots) d = { d with mem := storeSlots b d.ireg slots d.mem } := by
  induction slots generalizing d with
  | nil => rfl
  | cons slot slots ih =>
    have haddr := slot_addr hbase (hwithin slot List.mem_cons_self) hn hfit
    rw [saveAll, List.map_cons, line_cons, Asm.eval, haddr]
    exact ih hbase fun s hs => hwithin s (List.mem_cons_of_mem _ hs)

theorem spares_saveAll {K : ℕ → Prop} {d : Data} {base : Reg} {b n : ℕ} {slots : Slots}
    (hbase : d.ireg base = BitVec.ofNat 64 b) (hwithin : slots.Within n)
    (hn : n ≤ 2 ^ 31) (hfit : b + n ≤ 2 ^ 64)
    (hK : ∀ a, K a → a < b ∨ b + n ≤ a) : Spares K (saveAll base slots) d := by
  induction slots generalizing d with
  | nil => trivial
  | cons slot slots ih =>
    have hslot := hwithin slot List.mem_cons_self
    have haddr := slot_addr hbase hslot hn hfit
    refine ⟨?_, ih hbase fun s hs => hwithin s (List.mem_cons_of_mem _ hs)⟩
    intro a ha
    rw [Asm.eval, haddr]
    have := hK a ha
    exact Mem.write_of_not_mem (by omega)

/-- An instruction that does not store. -/
def Asm.Pure : Asm → Prop
  | .sd .. => False
  | _ => True

theorem spares_of_pure {K : ℕ → Prop} {is : List Asm} {d : Data} (h : ∀ i ∈ is, i.Pure) :
    Spares K is d := by
  induction is generalizing d with
  | nil => trivial
  | cons i is ih =>
    refine ⟨?_, ih fun j hj => h j (List.mem_cons_of_mem _ hj)⟩
    intro a _
    cases i with
    | sd rs2 rs1 imm => exact absurd (h _ List.mem_cons_self) id
    | lui rd imm => rfl
    | addi rd rs1 imm => rfl
    | ld rd rs1 imm => rfl
    | fld rd rs1 imm => rfl

theorem pure_loadAll (base : Reg) (slots : Slots) : ∀ i ∈ loadAll base slots, i.Pure := by
  intro i hi
  obtain ⟨slot, -, rfl⟩ := List.mem_map.mp hi
  trivial

theorem pure_floadAll (base : Reg) (slots : Slots) : ∀ i ∈ floadAll base slots, i.Pure := by
  intro i hi
  obtain ⟨slot, -, rfl⟩ := List.mem_map.mp hi
  trivial

/-- What a run of loads leaves in memory and in the registers it does not load. -/
theorem line_loadAll_keeps (d : Data) (base : Reg) (slots : Slots) :
    (line (loadAll base slots) d).mem = d.mem ∧
      ∀ r, r ∉ slots.map Prod.fst → (line (loadAll base slots) d).ireg r = d.ireg r := by
  induction slots generalizing d with
  | nil => exact ⟨rfl, fun _ _ => rfl⟩
  | cons slot slots ih =>
    rw [loadAll, List.map_cons, line_cons, ← loadAll]
    obtain ⟨hmem, hregs⟩ := ih ((Asm.ld slot.1 base (BitVec.ofNat 32 slot.2)).eval d)
    refine ⟨hmem, ?_⟩
    intro r hr
    rw [List.map_cons, List.mem_cons, not_or] at hr
    rw [hregs r hr.2, Asm.eval, setReg_of_ne hr.1]

theorem line_loadAll {d : Data} {base : Reg} {b n : ℕ} {slots : Slots}
    (hbase : d.ireg base = BitVec.ofNat 64 b) (hwithin : slots.Within n)
    (hn : n ≤ 2 ^ 31) (hfit : b + n ≤ 2 ^ 64) (hnodup : (slots.map Prod.fst).Nodup)
    (hnot : base ∉ slots.map Prod.fst) (hx0 : rv_ireg_x0 ∉ slots.map Prod.fst)
    {slot : Reg × ℕ} (hslot : slot ∈ slots) :
    (line (loadAll base slots) d).ireg slot.1 = d.mem.read (b + slot.2) 8 := by
  induction slots generalizing d with
  | nil => cases hslot
  | cons s slots ih =>
    rw [List.map_cons, List.mem_cons, not_or] at hnot hx0
    rw [List.map_cons, List.nodup_cons] at hnodup
    have haddr := slot_addr hbase (hwithin s List.mem_cons_self) hn hfit
    rw [loadAll, List.map_cons, line_cons, ← loadAll]
    rcases List.mem_cons.mp hslot with rfl | hslot
    · rw [(line_loadAll_keeps _ _ _).2 _ hnodup.1, Asm.eval, haddr, setReg_self (Ne.symm hx0.1)]
    · have hbase' : ((Asm.ld s.1 base (BitVec.ofNat 32 s.2)).eval d).ireg base =
          BitVec.ofNat 64 b := by
        rw [Asm.eval, setReg_of_ne hnot.1, hbase]
      exact ih hbase' (fun t ht => hwithin t (List.mem_cons_of_mem _ ht)) hnodup.2 hnot.2 hx0.2
        hslot

theorem line_floadAll (d : Data) (base : Reg) (slots : Slots) :
    (line (floadAll base slots) d).mem = d.mem ∧
      (line (floadAll base slots) d).ireg = d.ireg := by
  induction slots generalizing d with
  | nil => exact ⟨rfl, rfl⟩
  | cons slot slots ih =>
    rw [floadAll, List.map_cons, line_cons, ← floadAll]
    exact ih ((Asm.fld slot.1 base (BitVec.ofNat 32 slot.2)).eval d)

end RvCkpt.Isa
