import RvCkpt.Mmu.Access

/-! # What a walk finds

The path of page-table entries that belongs to a virtual address, in terms of page numbers, and
when `walk_page_table` follows it.
-/

namespace RvCkpt.Mmu
set_option autoImplicit false
open ByteMem Priv Isa

/-! ## The path of an address -/

/-- A paging mode of a machine whose words hold its virtual addresses. Its tables are pages. -/
structure Geometry where
  P : Param
  M : Paging
  fit : Fitting M P.width
  table : M.size * 2 ^ M.bits = 2 ^ pageShift
  hppn : M.ppnBits ≤ 44
  hsmall : M.size = 4 → M.ppnBits = 22

namespace Geometry

theorem fitting_modes : Fitting Mmu.sv32 32 ∧ Fitting Mmu.sv39 64 ∧ Fitting Mmu.sv48 64 := by
  unfold Fitting
  decide

def sv32 : Geometry := ⟨param_rv32, Mmu.sv32, fitting_modes.1, rfl, by decide, by decide⟩

def sv39 : Geometry := ⟨param_rv64, Mmu.sv39, fitting_modes.2.1, rfl, by decide, by decide⟩

def sv48 : Geometry := ⟨param_rv64, Mmu.sv48, fitting_modes.2.2, rfl, by decide, by decide⟩

end Geometry

namespace Paging
variable (M : Paging)

/-- The bits of a virtual address that are not translated by a leaf of the level. -/
def offsetBits (j : ℕ) : ℕ := M.bits * j + pageShift

/-- A virtual address that repeats its highest bit. -/
def Canonical {width : ℕ} (va : BitVec width) : Prop :=
  (va.setWidth (M.offsetBits M.levels)).signExtend width = va

instance instDecidableCanonical {width : ℕ} (va : BitVec width) : Decidable (M.Canonical va) :=
  inferInstanceAs (Decidable (_ = _))

/-- The entry for `va` in the table of level `j` at page `ppn`. -/
def entryAddr (va ppn j : ℕ) : ℕ :=
  ppn * 2 ^ pageShift + va / 2 ^ M.offsetBits j % 2 ^ M.bits * M.size

end Paging

/-- A leaf, with the pointers on the path to it. -/
structure Mapped where
  pointers : List ℕ
  addr : ℕ
  level : ℕ
  pte : Pte
  deriving DecidableEq, Repr

def Mapped.entries (m : Mapped) : List ℕ := m.pointers ++ [m.addr]

/-- The physical address of `va`. -/
def Mapped.physical (M : Paging) (m : Mapped) (va : ℕ) : ℕ :=
  (M.ppn m.pte).toNat * 2 ^ pageShift + va % 2 ^ M.offsetBits m.level

/-- An entry whose encoding means something. -/
def Pte.valid (pte : Pte) : Bool := pte.v && !(!pte.r && pte.w)

/-- The path of `va` through `n` levels of tables from page `ppn` on: pointers, then a leaf whose
page is aligned. -/
def mapped (M : Paging) (b : Bus) (va : ℕ) : ℕ → ℕ → Option Mapped
  | 0, _ => none
  | j + 1, ppn =>
    match b.load (M.entryAddr va ppn j) M.size with
    | none => none
    | some val =>
      let pte : Pte := ⟨val⟩
      if pte.valid then
        if pte.pointer then
          (mapped M b va j (M.ppn pte).toNat).map fun m =>
            { m with pointers := M.entryAddr va ppn j :: m.pointers }
        else if 2 ^ (M.bits * j) ∣ (M.ppn pte).toNat then some ⟨[], M.entryAddr va ppn j, j, pte⟩
        else none
      else none

/-- The accessed and dirty flags of the entry at `addr` are up to date or can be brought so. -/
def Settled (b : Bus) (op : MmuOp) (pte : Pte) (addr : ℕ) : Prop :=
  pte.flags &&& op.adFlags = op.adFlags ∨ b.writable addr = true

/-- The page of the root table. -/
def rootPage (P : Param) (sptbr : UX P) : ℕ := sptbr.toNat % 2 ^ P.ppnBits

/-- What a virtual address is mapped to. -/
def Geometry.translation (G : Geometry) (b : Bus) (sptbr va : UX G.P) : Option Mapped :=
  if G.M.Canonical va then mapped G.M b va.toNat G.M.levels (rootPage G.P sptbr) else none

/-- The addresses of the entries that a walk loads. -/
def loaded (so : ShiftOver) (M : Paging) {width : ℕ} (b : Bus) (va : BitVec width) (op : MmuOp) :
    ℕ → Walk width → List ℕ
  | fuel + 1, .at level table =>
    pteAddr so M va level table :: loaded so M b va op fuel (visit so M b va op (.at level table))
  | _, _ => []

/-- The end of a walk agrees with what the address is mapped to: a leaf has been reached along its
path and gives its physical address; or the access raises its fault, and there is no leaf or its
flags cannot be set. -/
def Walk.Agrees (so : ShiftOver) (G : Geometry) (b : Bus) (op : MmuOp) (va : UX G.P)
    (expected : Option Mapped) (entries : List ℕ) : Walk G.P.width → Prop
  | .at _ _ => False
  | .leaf _ pte level _ =>
    ∃ m, expected = some m ∧ entries = m.entries ∧
      (leafAddr so G.M pte va level).toNat = m.physical G.M va.toNat
  | .fault cause => cause = op.fault ∧ ∀ m, expected = some m → ¬ Settled b op m.pte m.addr

/-- The walk ends, and as the page table says. -/
def WalkRight (so : ShiftOver) (G : Geometry) (b : Bus) (sptbr va : UX G.P) (op : MmuOp) : Prop :=
  ∃ fuel w n, walk_page_table so G.P G.M b sptbr va op fuel = some (w, n) ∧
    w.Agrees so G b op va (G.translation b sptbr va)
      (loaded so G.M b va op fuel
        (.at (BitVec.ofNat G.P.width (G.M.levels - 1)) (rootTable G.P sptbr)))

/-! ## Page numbers and words -/

namespace Paging

/-- The page numbers that a pointer can hold without being cut off or taken for negative. -/
def pointerBits (M : Paging) (width : ℕ) : ℕ :=
  if M.size = 4 then (if width = 32 then 20 else 19) else width - pageShift

end Paging

theorem shiftLeft_page_toNat {width : ℕ} (hw : pageShift ≤ width) (x : BitVec width) :
    (x <<< pageShift).toNat = x.toNat * 2 ^ pageShift ↔ x.toNat < 2 ^ (width - pageShift) := by
  have hsplit : 2 ^ width = 2 ^ (width - pageShift) * 2 ^ pageShift := by
    rw [← Nat.pow_add, Nat.sub_add_cancel hw]
  rw [BitVec.toNat_shiftLeft, Nat.shiftLeft_eq]
  constructor
  · intro heq
    have hlt : x.toNat * 2 ^ pageShift < 2 ^ width := by
      rw [← heq]
      exact Nat.mod_lt _ (Nat.two_pow_pos _)
    rw [hsplit] at hlt
    exact Nat.lt_of_mul_lt_mul_right hlt
  · intro hlt
    refine Nat.mod_eq_of_lt ?_
    rw [hsplit]
    exact Nat.mul_lt_mul_of_pos_right hlt (Nat.two_pow_pos _)

namespace Geometry
variable (G : Geometry)

theorem pageShift_le : pageShift ≤ G.P.width := G.P.pageShift_le

theorem ppn_lt (pte : Pte) : (G.M.ppn pte).toNat < 2 ^ G.M.ppnBits := by
  unfold Paging.ppn
  rw [BitVec.toNat_setWidth]
  exact (Nat.mod_le _ _).trans_lt (BitVec.isLt _)

theorem ppn_small (pte : Pte) : (G.M.ppn pte).toNat < 2 ^ 44 :=
  (G.ppn_lt pte).trans_le (Nat.pow_le_pow_right (by decide) G.hppn)

/-- A pointer leads to the table that it names exactly if the page number fits. -/
theorem table_toNat_iff (pte : Pte) :
    (G.M.table G.P.width pte).toNat = (G.M.ppn pte).toNat * 2 ^ pageShift ↔
      (G.M.ppn pte).toNat < 2 ^ G.M.pointerBits G.P.width := by
  have hppn := G.ppn_small pte
  have hpage : 2 ^ pageShift = 4096 := rfl
  unfold Paging.table Paging.pointerBits
  by_cases hsize : G.M.size = 4
  · have hlt := G.ppn_lt pte
    rw [G.hsmall hsize] at hlt
    have hlow : (((G.M.ppn pte).truncate 32) <<< pageShift).toNat =
        (G.M.ppn pte).toNat * 4096 % 2 ^ 32 := by
      rw [BitVec.toNat_shiftLeft, BitVec.toNat_setWidth, Nat.shiftLeft_eq, hpage]
      omega
    rw [if_pos hsize, if_pos hsize, BitVec.toNat_signExtend, BitVec.toNat_setWidth, hlow,
      BitVec.msb_eq_decide, hlow, hpage]
    rcases G.P.hword with hw | hw
    · rw [hw, if_pos rfl]
      simp only [Nat.sub_self, ite_self]
      omega
    · have hne : ¬ (64 : ℕ) = 32 := by decide
      rw [hw, if_neg hne]
      split
      · rename_i hmsb
        have hge := of_decide_eq_true hmsb
        omega
      · rename_i hmsb
        have hge : ¬ 2 ^ (32 - 1) ≤ (G.M.ppn pte).toNat * 4096 % 2 ^ 32 :=
          fun h => hmsb (decide_eq_true h)
        omega
  · rw [if_neg hsize, if_neg hsize, BitVec.toNat_setWidth, BitVec.toNat_shiftLeft, Nat.shiftLeft_eq,
      hpage]
    have hshift : pageShift = 12 := rfl
    rcases G.P.hword with hw | hw
    · rw [hw, hshift]
      omega
    · rw [hw, hshift]
      omega

theorem offset_lt {j : ℕ} (hj : j < G.M.levels) : G.M.offsetBits j < G.P.width := by
  have hle : G.M.bits * j ≤ G.M.bits * (G.M.levels - 1) :=
    Nat.mul_le_mul_left _ (Nat.le_pred_of_lt hj)
  exact (Nat.add_le_add_right hle _).trans_lt G.fit

theorem offset_le {j : ℕ} (hj : j < G.M.levels) : G.M.bits * j ≤ 30 := by
  have hbits := G.M.hbits
  have hlevels := G.M.hlevels
  calc G.M.bits * j ≤ 10 * 3 := Nat.mul_le_mul hbits (by omega)
    _ = 30 := rfl

theorem width_le : G.P.width ≤ 64 := by
  rcases G.P.hword with h | h <;> omega

/-- The entry that the walker loads. -/
theorem pteAddr_eq (so : ShiftOver) (va : UX G.P) {j : ℕ} (hj : j < G.M.levels)
    {table : UX G.P} (h : PageAligned table) :
    pteAddr so G.M va (BitVec.ofNat G.P.width j) table =
      table.toNat + va.toNat / 2 ^ G.M.offsetBits j % 2 ^ G.M.bits * G.M.size := by
  have hfit := G.offset_lt hj
  have hbits : 2 ^ G.M.bits ≤ 2 ^ G.P.width := by
    refine Nat.pow_le_pow_right (by decide) ?_
    have hb := G.M.hbits
    rcases G.P.hword with hw | hw <;> omega
  have hsize : G.M.size < 2 ^ G.P.width := by
    have hpow : 2 ^ 12 ≤ 2 ^ G.P.width := Nat.pow_le_pow_right (by decide) G.pageShift_le
    rcases G.M.hsize with hs | hs <;> omega
  generalize hidx : va.toNat / 2 ^ G.M.offsetBits j % 2 ^ G.M.bits = idx
  have hlt : idx < 2 ^ G.M.bits := by
    rw [← hidx]
    exact Nat.mod_lt _ (Nat.two_pow_pos _)
  have hpage : idx * G.M.size < 2 ^ pageShift := by
    rw [← G.table, Nat.mul_comm]
    exact Nat.mul_lt_mul_of_pos_left hlt (by rcases G.M.hsize with hs | hs <;> omega)
  have hvpn : (shift so .right va (levelShift G.M (BitVec.ofNat G.P.width j)).toNat &&&
      BitVec.ofNat G.P.width (2 ^ G.M.bits - 1)).toNat = idx := by
    have hmask : (2 ^ G.M.bits - 1) % 2 ^ G.P.width = 2 ^ G.M.bits - 1 :=
      Nat.mod_eq_of_lt (by have := Nat.two_pow_pos G.M.bits; omega)
    have hlt' : G.M.bits * j + pageShift < G.P.width := hfit
    rw [levelShift_toNat G.fit hj, shift, if_pos hlt']
    rw [BitVec.toNat_and, BitVec.toNat_ushiftRight, BitVec.toNat_ofNat, hmask,
      Nat.and_two_pow_sub_one_eq_mod, Nat.shiftRight_eq_div_pow]
    exact hidx
  obtain ⟨q, hq⟩ := h
  have htable : table.toNat < 2 ^ G.P.width := table.isLt
  have hsplit : 2 ^ G.P.width = 2 ^ (G.P.width - pageShift) * 2 ^ pageShift := by
    rw [← Nat.pow_add, Nat.sub_add_cancel G.pageShift_le]
  have hsum : table.toNat + idx * G.M.size < 2 ^ G.P.width := by
    rw [hsplit, hq, Nat.mul_comm] at htable
    have hq' : q + 1 ≤ 2 ^ (G.P.width - pageShift) := Nat.lt_of_mul_lt_mul_right htable
    calc table.toNat + idx * G.M.size < 2 ^ pageShift * q + 2 ^ pageShift := by omega
      _ = (q + 1) * 2 ^ pageShift := by ring
      _ ≤ 2 ^ G.P.width := by
        rw [hsplit]
        exact Nat.mul_le_mul_right _ hq'
  unfold pteAddr
  dsimp only
  rw [BitVec.toNat_add, BitVec.toNat_mul, hvpn, BitVec.toNat_ofNat, Nat.mod_eq_of_lt hsize,
    Nat.add_mod_mod, Nat.mod_eq_of_lt hsum]

/-- The walker's check of a larger page. -/
theorem misaligned_iff (so : ShiftOver) {j : ℕ} (hj : j < G.M.levels) (pte : Pte) :
    misaligned so G.M (BitVec.ofNat G.P.width j) pte = true ↔
      ¬ 2 ^ (G.M.bits * j) ∣ (G.M.ppn pte).toNat := by
  have hle := G.offset_le hj
  have hfit := G.offset_lt hj
  have hshift : (levelShift G.M (BitVec.ofNat G.P.width j) - BitVec.ofNat G.P.width pageShift).toNat =
      G.M.bits * j := by
    have hlevel := levelShift_toNat G.fit hj
    have hpage : (BitVec.ofNat G.P.width pageShift).toNat = pageShift := by
      rw [BitVec.toNat_ofNat]
      exact Nat.mod_eq_of_lt (G.pageShift_le.trans_lt Nat.lt_two_pow_self)
    rw [BitVec.toNat_sub_of_le, hlevel, hpage, Nat.add_sub_cancel]
    rw [BitVec.le_def, hlevel, hpage]
    exact Nat.le_add_left _ _
  have hone : (1#32 <<< (G.M.bits * j) - 1#32).toNat = 2 ^ (G.M.bits * j) - 1 := by
    have hpow : 2 ^ (G.M.bits * j) ≤ 2 ^ 30 := Nat.pow_le_pow_right (by decide) hle
    have hpos := Nat.two_pow_pos (G.M.bits * j)
    rw [BitVec.toNat_sub, BitVec.toNat_shiftLeft, Nat.shiftLeft_eq]
    simp only [BitVec.toNat_ofNat]
    omega
  have hmask : ((1#32 <<< (G.M.bits * j) - 1#32).signExtend 64).toNat =
      2 ^ (G.M.bits * j) - 1 := by
    have hpow : 2 ^ (G.M.bits * j) ≤ 2 ^ 30 := Nat.pow_le_pow_right (by decide) hle
    have hmsb : (1#32 <<< (G.M.bits * j) - 1#32).msb = false := by
      rw [BitVec.msb_eq_decide, hone]
      exact decide_eq_false (by omega)
    rw [BitVec.toNat_signExtend, hmsb, BitVec.toNat_setWidth, hone]
    simp only [Bool.false_eq_true, if_false]
    omega
  unfold misaligned
  dsimp only
  rw [hshift, shift, if_pos (by omega)]
  change decide ((1#32 <<< (G.M.bits * j) - 1#32).signExtend 64 &&& G.M.ppn pte ≠ 0) = true ↔ _
  rw [decide_eq_true_eq, Ne, not_iff_not, ← BitVec.toNat_inj, BitVec.toNat_and, hmask, Nat.and_comm,
    Nat.and_two_pow_sub_one_eq_mod]
  exact (Nat.dvd_iff_mod_eq_zero).symm

/-- The physical address that a leaf gives is the one of its page exactly if the page number fits. -/
theorem leafAddr_toNat_iff (so : ShiftOver) (va : UX G.P) {j : ℕ} (hj : j < G.M.levels) (pte : Pte) :
    (leafAddr so G.M pte va (BitVec.ofNat G.P.width j)).toNat =
        (G.M.ppn pte).toNat * 2 ^ pageShift + va.toNat % 2 ^ G.M.offsetBits j ↔
      (G.M.ppn pte).toNat < 2 ^ (G.P.width - pageShift) := by
  have hle : G.M.offsetBits j ≤ 42 := Nat.add_le_add_right (G.offset_le hj) _
  have hlt := G.offset_lt hj
  have hppn := G.ppn_small pte
  have hva := va.isLt
  have hmask : (shift so .left (1 : BitVec 64) (levelShift G.M (BitVec.ofNat G.P.width j)).toNat -
      1).toNat = 2 ^ G.M.offsetBits j - 1 := by
    have hpow : 2 ^ G.M.offsetBits j ≤ 2 ^ 42 := Nat.pow_le_pow_right (by decide) hle
    have hpos := Nat.two_pow_pos (G.M.offsetBits j)
    have h64 : G.M.bits * j + pageShift < 64 := Nat.lt_of_le_of_lt hle (by decide)
    rw [levelShift_toNat G.fit hj, shift, if_pos h64]
    change (1#64 <<< G.M.offsetBits j - 1#64).toNat = _
    rw [BitVec.toNat_sub, BitVec.toNat_shiftLeft, Nat.shiftLeft_eq]
    simp only [BitVec.toNat_ofNat]
    omega
  have hmod : va.toNat % 2 ^ G.M.offsetBits j < 2 ^ 42 :=
    (Nat.mod_lt _ (Nat.two_pow_pos _)).trans_le (Nat.pow_le_pow_right (by decide) hle)
  have hmod' : va.toNat % 2 ^ G.M.offsetBits j < 2 ^ G.P.width := (Nat.mod_le _ _).trans_lt hva
  have hpage : 2 ^ pageShift = 4096 := rfl
  have hshift : pageShift = 12 := rfl
  unfold leafAddr page_translate_offset
  dsimp only
  rw [BitVec.toNat_add, BitVec.toNat_setWidth, BitVec.toNat_shiftLeft, BitVec.toNat_setWidth,
    BitVec.toNat_and, hmask, Nat.and_two_pow_sub_one_eq_mod, BitVec.toNat_setWidth, Nat.shiftLeft_eq,
    hpage, hshift]
  have hva64 : va.toNat % 2 ^ 64 = va.toNat :=
    Nat.mod_eq_of_lt (hva.trans_le (Nat.pow_le_pow_right (by decide) G.width_le))
  rw [hva64]
  generalize va.toNat % 2 ^ G.M.offsetBits j = off at *
  generalize (G.M.ppn pte).toNat = ppn at *
  rcases G.P.hword with hw | hw <;> rw [hw] at hmod' ⊢ <;> omega

theorem rootTable_toNat_iff (sptbr : UX G.P) :
    (rootTable G.P sptbr).toNat = rootPage G.P sptbr * 2 ^ pageShift ↔
      rootPage G.P sptbr < 2 ^ (G.P.width - pageShift) := by
  have hmask : (sptbr &&& BitVec.ofNat G.P.width (2 ^ G.P.ppnBits - 1)).toNat =
      rootPage G.P sptbr := by
    have hle : 2 ^ G.P.ppnBits ≤ 2 ^ G.P.width := by
      have hsum := G.P.hsum
      exact Nat.pow_le_pow_right (by decide) (by omega)
    have hpos := Nat.two_pow_pos G.P.ppnBits
    rw [BitVec.toNat_and, BitVec.toNat_ofNat, Nat.mod_eq_of_lt (by omega),
      Nat.and_two_pow_sub_one_eq_mod]
    rfl
  rw [rootTable, ← hmask]
  exact shiftLeft_page_toNat G.pageShift_le _

end Geometry

/-! ## Following the path -/

theorem Pte.valid_iff (pte : Pte) : pte.valid = true ↔ ¬(!pte.v || (!pte.r && pte.w)) = true := by
  unfold valid
  cases pte.v <;> cases pte.r <;> cases pte.w <;> decide

theorem ofNat_succ_sub_one (width j : ℕ) :
    BitVec.ofNat width (j + 1) - 1 = BitVec.ofNat width j := by
  rw [BitVec.ofNat_add]
  exact BitVec.add_sub_cancel _ _

section
variable {so : ShiftOver} {G : Geometry} {b : Bus} {va : UX G.P} {op : MmuOp}

/-- All entries of the path from page `ppn` on are there, its pointers are valid and lead to a
leaf, or to what faults, within `j` levels, and the page numbers fit. -/
def Clean (G : Geometry) (b : Bus) (va : ℕ) : ℕ → ℕ → Prop
  | 0, _ => False
  | j + 1, ppn =>
    ∃ val, b.load (G.M.entryAddr va ppn j) G.M.size = some val ∧
      if (Pte.mk val).pointer then
        (Pte.mk val).v = true ∧ (G.M.ppn ⟨val⟩).toNat < 2 ^ G.M.pointerBits G.P.width ∧
          Clean G b va j (G.M.ppn ⟨val⟩).toNat
      else (G.M.ppn ⟨val⟩).toNat < 2 ^ (G.P.width - pageShift)

/-- The leaf that a descent finds at the end of a path. -/
def Mapped.found (width : ℕ) (m : Mapped) : Found width := ⟨m.pte, BitVec.ofNat width m.level, m.addr⟩

/-- The first entry of a path. -/
theorem mapped_succ {M : Paging} {a j ppn : ℕ} {m : Mapped} (h : mapped M b a (j + 1) ppn = some m) :
    ∃ val, b.load (M.entryAddr a ppn j) M.size = some val ∧ (Pte.mk val).valid = true ∧
      (((Pte.mk val).pointer = true ∧ ∃ m', mapped M b a j (M.ppn ⟨val⟩).toNat = some m' ∧
          m = { m' with pointers := M.entryAddr a ppn j :: m'.pointers }) ∨
        ((Pte.mk val).pointer = false ∧ 2 ^ (M.bits * j) ∣ (M.ppn ⟨val⟩).toNat ∧
          m = ⟨[], M.entryAddr a ppn j, j, ⟨val⟩⟩)) := by
  rw [mapped] at h
  cases hload : b.load (M.entryAddr a ppn j) M.size with
  | none =>
    rw [hload] at h
    cases h
  | some val =>
    rw [hload] at h
    dsimp only at h
    split at h
    · rename_i hvalid
      refine ⟨val, rfl, hvalid, ?_⟩
      split at h
      · rename_i hptr
        obtain ⟨m', hm', rfl⟩ := Option.map_eq_some_iff.mp h
        exact .inl ⟨hptr, m', hm', rfl⟩
      · rename_i hptr
        split at h
        · rename_i hdvd
          exact .inr ⟨Bool.eq_false_iff.mpr hptr, hdvd, (Option.some.inj h).symm⟩
        · cases h
    · cases h

theorem mapped_level {M : Paging} {a n ppn : ℕ} {m : Mapped} (h : mapped M b a n ppn = some m) :
    m.level < n := by
  induction n generalizing ppn m with
  | zero => cases h
  | succ j ih =>
    obtain ⟨val, -, -, ⟨-, m', hm', rfl⟩ | ⟨-, -, rfl⟩⟩ := mapped_succ h
    · exact (ih hm').trans (Nat.lt_succ_self j)
    · exact Nat.lt_succ_self j

variable (so va) in
theorem pteAddr_eq_entryAddr {j ppn : ℕ} (hj : j < G.M.levels) {table : UX G.P}
    (h : PageAligned table) :
    pteAddr so G.M va (BitVec.ofNat G.P.width j) table = G.M.entryAddr va.toNat ppn j ↔
      table.toNat = ppn * 2 ^ pageShift := by
  rw [G.pteAddr_eq so va hj h, Paging.entryAddr]
  exact Nat.add_right_cancel_iff

variable (so) in
/-- On a path without a flaw the descent finds what the path leads to. -/
theorem leafFrom_clean {j ppn : ℕ} (hj : j ≤ G.M.levels) {table : UX G.P} (hal : PageAligned table)
    (htable : table.toNat = ppn * 2 ^ pageShift) (h : Clean G b va.toNat j ppn) :
    leafFrom so G.M b va j (BitVec.ofNat G.P.width (j - 1)) table =
      some ((mapped G.M b va.toNat j ppn).map (Mapped.found G.P.width)) := by
  induction j generalizing ppn table with
  | zero => exact absurd h id
  | succ j ih =>
    obtain ⟨val, hload, hrest⟩ := h
    rw [leafFrom, mapped, Nat.add_sub_cancel,
      (pteAddr_eq_entryAddr so va hj hal).mpr htable, hload]
    dsimp only
    cases hptr : (Pte.mk val).pointer with
    | true =>
      rw [hptr, if_pos rfl] at hrest
      obtain ⟨hv, hfits, hclean⟩ := hrest
      have hvalid : (Pte.mk val).valid = true := by
        have hw : (Pte.mk val).w = false := by
          rw [Pte.pointer, Bool.not_eq_true', Bool.or_eq_false_iff, Bool.or_eq_false_iff] at hptr
          exact hptr.1.2
        rw [Pte.valid, hv, hw, Bool.and_false]
        rfl
      rw [if_pos rfl, if_pos hvalid, if_pos rfl]
      cases j with
      | zero => exact absurd hclean id
      | succ j =>
        have hnext := ih (Nat.le_of_succ_le hj) (pageAligned_table G.P.hword G.M ⟨val⟩)
          ((G.table_toNat_iff ⟨val⟩).mpr hfits) hclean
        rw [Nat.add_sub_cancel] at hnext
        rw [ofNat_succ_sub_one, hnext, Option.map_map]
        rfl
    | false =>
      rw [if_neg Bool.false_ne_true, if_neg Bool.false_ne_true]
      by_cases hvalid : (Pte.mk val).valid = true
      · rw [if_neg ((Pte.valid_iff _).mp hvalid), if_pos hvalid]
        by_cases hal : 2 ^ (G.M.bits * j) ∣ (G.M.ppn ⟨val⟩).toNat
        · rw [if_neg (fun h => (G.misaligned_iff so hj _).mp h hal), if_pos hal]
          rfl
        · rw [if_pos ((G.misaligned_iff so hj _).mpr hal), if_neg hal]
          rfl
      · rw [if_pos (not_not.mp fun h => hvalid ((Pte.valid_iff _).mpr h)), if_neg hvalid]
        rfl

/-- A walk loads nothing after an entry that is not a pointer. -/
theorem loaded_visit_leaf {level table : UX G.P} {val : BitVec 64}
    (hload : b.load (pteAddr so G.M va level table) G.M.size = some val)
    (hptr : (Pte.mk val).pointer = false) (fuel : ℕ) :
    loaded so G.M b va op fuel (visit so G.M b va op (.at level table)) = [] := by
  have hend : (visit so G.M b va op (.at level table)).Ended G.M b op := by
    refine visit_ended so va op ?_
    intro val' hload'
    rw [hload] at hload'
    rwa [← Option.some.inj hload']
  cases hvisit : visit so G.M b va op (.at level table) with
  | «at» level table' =>
    rw [hvisit] at hend
    exact absurd hend id
  | leaf bus pte level addr => cases fuel <;> rfl
  | fault cause => cases fuel <;> rfl

variable (so op) in
/-- The entries loaded on a path without a flaw are those of the path. -/
theorem loaded_clean {j ppn : ℕ} (hj : j ≤ G.M.levels) {table : UX G.P} (hal : PageAligned table)
    (htable : table.toNat = ppn * 2 ^ pageShift) (h : Clean G b va.toNat j ppn) {m : Mapped}
    (hm : mapped G.M b va.toNat j ppn = some m) :
    loaded so G.M b va op j (.at (BitVec.ofNat G.P.width (j - 1)) table) = m.entries := by
  induction j generalizing ppn table m with
  | zero => cases hm
  | succ j ih =>
    obtain ⟨val, hload, hrest⟩ := h
    have haddr : pteAddr so G.M va (BitVec.ofNat G.P.width j) table = G.M.entryAddr va.toNat ppn j :=
      (pteAddr_eq_entryAddr so va hj hal).mpr htable
    have hload' := hload
    rw [← haddr] at hload'
    rw [loaded, Nat.add_sub_cancel, haddr]
    obtain ⟨val', hval', -, hcases⟩ := mapped_succ hm
    rw [hload] at hval'
    obtain rfl := Option.some.inj hval'
    rcases hcases with ⟨hptr, m', hm', rfl⟩ | ⟨hptr, -, rfl⟩
    · rw [hptr, if_pos rfl] at hrest
      rw [visit_pointer so va op hload' hptr]
      cases j with
      | zero => cases hm'
      | succ j =>
        have hnext := ih (Nat.le_of_succ_le hj) (pageAligned_table G.P.hword G.M ⟨val⟩)
          ((G.table_toNat_iff ⟨val⟩).mpr hrest.2.1) hrest.2.2 hm'
        rw [Nat.add_sub_cancel] at hnext
        rw [ofNat_succ_sub_one, hnext]
        rfl
    · rw [loaded_visit_leaf hload' hptr]
      rfl

/-- A walk that loads the entries of a path follows tables whose page numbers fit, to the leaf of
the path. -/
theorem clean_of_loaded {fuel j ppn : ℕ} (hj : j ≤ G.M.levels) {table : UX G.P}
    (hal : PageAligned table) {m : Mapped} (hm : mapped G.M b va.toNat j ppn = some m)
    (hload : loaded so G.M b va op fuel (.at (BitVec.ofNat G.P.width (j - 1)) table) = m.entries) :
    table.toNat = ppn * 2 ^ pageShift ∧
      leafFrom so G.M b va fuel (BitVec.ofNat G.P.width (j - 1)) table =
        some (some (m.found G.P.width)) ∧
      ((G.M.ppn m.pte).toNat < 2 ^ (G.P.width - pageShift) → Clean G b va.toNat j ppn) := by
  induction j generalizing fuel ppn table m with
  | zero => cases hm
  | succ j ih =>
    obtain ⟨val, hval, hvalid, hcases⟩ := mapped_succ hm
    cases fuel with
    | zero => rcases hcases with ⟨-, m', -, rfl⟩ | ⟨-, -, rfl⟩ <;> cases hload
    | succ fuel =>
      rw [loaded, Nat.add_sub_cancel] at hload
      rw [leafFrom, Nat.add_sub_cancel]
      rcases hcases with ⟨hptr, m', hm', rfl⟩ | ⟨hptr, hdvd, rfl⟩
      · obtain ⟨haddr, hrest⟩ := List.cons.inj hload
        have htable := (pteAddr_eq_entryAddr so va hj hal).mp haddr
        rw [visit_pointer so va op (by rw [haddr]; exact hval) hptr] at hrest
        rw [haddr, hval]
        dsimp only
        rw [if_pos hptr]
        cases j with
        | zero => cases hm'
        | succ j =>
          rw [ofNat_succ_sub_one, ← Nat.add_sub_cancel j 1] at hrest
          obtain ⟨hnext, hleaf, hclean⟩ := ih (Nat.le_of_succ_le hj)
            (pageAligned_table G.P.hword G.M ⟨val⟩) hm' hrest
          rw [Nat.add_sub_cancel] at hleaf
          rw [ofNat_succ_sub_one, hleaf]
          refine ⟨htable, rfl, ?_⟩
          intro hfits
          refine ⟨val, hval, ?_⟩
          rw [if_pos hptr]
          rw [Pte.valid, Bool.and_eq_true] at hvalid
          exact ⟨hvalid.1, (G.table_toNat_iff ⟨val⟩).mp hnext, hclean hfits⟩
      · obtain ⟨haddr, -⟩ := List.cons.inj hload
        have hptr' : ¬ (Pte.mk val).pointer = true := Bool.eq_false_iff.mp hptr
        rw [haddr, hval]
        dsimp only
        rw [if_neg hptr', if_neg ((Pte.valid_iff _).mp hvalid),
          if_neg (fun h => (G.misaligned_iff so hj _).mp h hdvd)]
        refine ⟨(pteAddr_eq_entryAddr so va hj hal).mp haddr, rfl, ?_⟩
        intro hfits
        refine ⟨val, hval, ?_⟩
        rwa [if_neg hptr']

/-- The page number of the leaf of a path without a flaw fits. -/
theorem clean_leaf {a j ppn : ℕ} (h : Clean G b a j ppn) {m : Mapped}
    (hm : mapped G.M b a j ppn = some m) : (G.M.ppn m.pte).toNat < 2 ^ (G.P.width - pageShift) := by
  induction j generalizing ppn m with
  | zero => cases hm
  | succ j ih =>
    obtain ⟨val, hload, hrest⟩ := h
    obtain ⟨val', hval', -, hcases⟩ := mapped_succ hm
    rw [hload] at hval'
    obtain rfl := Option.some.inj hval'
    rcases hcases with ⟨hptr, m', hm', rfl⟩ | ⟨hptr, -, rfl⟩
    · rw [hptr, if_pos rfl] at hrest
      have hrec := ih hrest.2.2 hm'
      exact hrec
    · rwa [hptr, if_neg Bool.false_ne_true] at hrest

/-! ## The end of a walk -/

theorem finish_settled {f : Found G.P.width} (h : Settled b op f.pte f.addr) :
    ∃ b' pte, finish G.M b op (some f) = .leaf b' pte f.level f.addr ∧ G.M.ppn pte = G.M.ppn f.pte := by
  rw [finish]
  by_cases hflags : f.pte.flags &&& op.adFlags = op.adFlags
  · rw [if_neg (not_not.mpr hflags)]
    exact ⟨b, f.pte, rfl, rfl⟩
  · have hwrite := h.resolve_left hflags
    rw [if_pos hflags, Bus.store, if_pos hwrite]
    exact ⟨_, _, rfl, (Pte.same_adFlags f.pte op).ppn G.M⟩

theorem finish_unsettled {f : Found G.P.width} (h : ¬ Settled b op f.pte f.addr) :
    finish G.M b op (some f) = .fault op.fault := by
  obtain ⟨hflags, hwrite⟩ := not_or.mp h
  rw [finish, if_pos hflags, Bus.store, if_neg hwrite]

variable (op) in
theorem walk_of_descend {sptbr : UX G.P} {n : ℕ} {f : Option (Found G.P.width)}
    (h : descend so G.P G.M b sptbr va n = some f) :
    ∃ k, walk_page_table so G.P G.M b sptbr va op n = some (finish G.M b op f, k) := by
  have heq := walkFrom_eq_finish so G.M b va op n (BitVec.ofNat G.P.width (G.M.levels - 1))
    (rootTable G.P sptbr)
  rw [descend] at h
  rw [h, Option.map_some, Option.map_eq_some_iff] at heq
  obtain ⟨⟨w, k⟩, hwalk, rfl⟩ := heq
  exact ⟨k, hwalk⟩

variable (so G b va op) in
/-- The page tables under which the walker does what they say: the entries that it follows from
table to table, whether valid or not and however many, come to an end; and where they or the path
of the address lead to a leaf that can be used, the address is canonical, the pointers are valid
and within the levels, and the page numbers fit the words of the machine. -/
structure WalkSafe (sptbr : UX G.P) : Prop where
  ends : ∃ n, descend so G.P G.M b sptbr va n ≠ none
  clean : (∃ n f, descend so G.P G.M b sptbr va n = some (some f) ∧ Settled b op f.pte f.addr) ∨
      (∃ m, G.translation b sptbr va = some m ∧ Settled b op m.pte m.addr) →
    G.M.Canonical va ∧ rootPage G.P sptbr < 2 ^ (G.P.width - pageShift) ∧
      Clean G b va.toNat G.M.levels (rootPage G.P sptbr)

variable {sptbr : UX G.P}

/-- What a path without a flaw makes of a walk. -/
theorem walkRight_of_clean (hcan : G.M.Canonical va)
    (hroot : rootPage G.P sptbr < 2 ^ (G.P.width - pageShift))
    (hclean : Clean G b va.toNat G.M.levels (rootPage G.P sptbr)) :
    WalkRight so G b sptbr va op := by
  have htable := (G.rootTable_toNat_iff sptbr).mpr hroot
  have hal := pageAligned_rootTable G.P sptbr
  have htrans : G.translation b sptbr va =
      mapped G.M b va.toNat G.M.levels (rootPage G.P sptbr) := if_pos hcan
  have hfound := leafFrom_clean so (Nat.le_refl _) hal htable hclean
  obtain ⟨k, hwalk⟩ := walk_of_descend op hfound
  refine ⟨G.M.levels, _, k, hwalk, ?_⟩
  rw [htrans]
  cases hm : mapped G.M b va.toNat G.M.levels (rootPage G.P sptbr) with
  | none => exact ⟨rfl, nofun⟩
  | some m =>
    rw [Option.map_some]
    by_cases hset : Settled b op m.pte m.addr
    · obtain ⟨b', pte, hfin, hppn⟩ := finish_settled (f := m.found G.P.width) hset
      have hload := loaded_clean so op (Nat.le_refl _) hal htable hclean hm
      have haddr := (G.leafAddr_toNat_iff so va (mapped_level hm) m.pte).mpr (clean_leaf hclean hm)
      change G.M.ppn pte = G.M.ppn m.pte at hppn
      rw [hfin, hload]
      refine ⟨m, rfl, rfl, ?_⟩
      rw [leafAddr, hppn]
      exact haddr
    · rw [finish_unsettled (f := m.found G.P.width) hset]
      refine ⟨rfl, ?_⟩
      intro m' hm'
      rwa [← Option.some.inj hm']

/-- Where the walker and the page table both find nothing to use, the walk raises its fault. -/
theorem walkRight_of_unused (hends : ∃ n, descend so G.P G.M b sptbr va n ≠ none)
    (hwalker : ∀ n f, descend so G.P G.M b sptbr va n = some (some f) → ¬ Settled b op f.pte f.addr)
    (hpath : ∀ m, G.translation b sptbr va = some m → ¬ Settled b op m.pte m.addr) :
    WalkRight so G b sptbr va op := by
  obtain ⟨n, hn⟩ := hends
  obtain ⟨f, hf⟩ := Option.ne_none_iff_exists'.mp hn
  obtain ⟨k, hwalk⟩ := walk_of_descend op hf
  have hfault : finish G.M b op f = .fault op.fault := by
    cases f with
    | none => rfl
    | some f => exact finish_unsettled (hwalker n f hf)
  rw [hfault] at hwalk
  exact ⟨n, _, k, hwalk, rfl, hpath⟩

/-- A walk that agrees with the page table on a leaf has followed a path without a flaw. -/
theorem clean_of_agrees {fuel k : ℕ} {bus : Bus} {pte : Pte} {level : UX G.P} {addr : ℕ}
    (hwalk : walk_page_table so G.P G.M b sptbr va op fuel = some (.leaf bus pte level addr, k))
    (h : (Walk.leaf bus pte level addr).Agrees so G b op va (G.translation b sptbr va)
      (loaded so G.M b va op fuel
        (.at (BitVec.ofNat G.P.width (G.M.levels - 1)) (rootTable G.P sptbr)))) :
    G.M.Canonical va ∧ rootPage G.P sptbr < 2 ^ (G.P.width - pageShift) ∧
      Clean G b va.toNat G.M.levels (rootPage G.P sptbr) := by
  obtain ⟨m, htrans, hload, hpa⟩ := h
  have hal := pageAligned_rootTable G.P sptbr
  unfold Geometry.translation at htrans
  split at htrans
  · rename_i hcan
    obtain ⟨hroot, hfound, hclean⟩ := clean_of_loaded (Nat.le_refl _) hal htrans hload
    obtain ⟨f, hf, -, -, hup⟩ := walk_leaf hwalk
    rw [descend, hfound] at hf
    obtain rfl := Option.some.inj (Option.some.inj hf)
    refine ⟨hcan, (G.rootTable_toNat_iff sptbr).mp hroot, hclean ?_⟩
    have hppn : G.M.ppn pte = G.M.ppn m.pte := hup.same.ppn G.M
    rw [leafAddr, hppn, hup.level] at hpa
    exact (G.leafAddr_toNat_iff so va (mapped_level htrans) m.pte).mp hpa
  · cases htrans

end

theorem WalkRight.safe {so : ShiftOver} {G : Geometry} {b : Bus} {sptbr va : UX G.P} {op : MmuOp}
    (h : WalkRight so G b sptbr va op) : WalkSafe so G b va op sptbr := by
  obtain ⟨fuel, w, k, hwalk, hagree⟩ := h
  obtain ⟨f, hdesc, hfin⟩ := walk_page_table_eq_finish hwalk
  refine ⟨⟨fuel, by rw [hdesc]; exact nofun⟩, ?_⟩
  cases w with
  | «at» level table => exact absurd hagree id
  | leaf bus pte level addr => exact fun _ => clean_of_agrees hwalk hagree
  | fault cause =>
    rintro (⟨n, g, hg, hset⟩ | ⟨m, hm, hset⟩)
    · have hfg : f = some g := leafFrom_unique hdesc hg
      obtain ⟨b', pte, hleaf, -⟩ := finish_settled (G := G) hset
      rw [hfg, hleaf] at hfin
      cases hfin
    · exact absurd hset (hagree.2 m hm)

/-- The leaf of a path without a flaw is used only for a canonical address. -/
theorem WalkSafe.canonical {so : ShiftOver} {G : Geometry} {b : Bus} {sptbr va : UX G.P} {op : MmuOp}
    (h : WalkSafe so G b va op sptbr) (hroot : rootPage G.P sptbr < 2 ^ (G.P.width - pageShift))
    (hclean : Clean G b va.toNat G.M.levels (rootPage G.P sptbr)) {m : Mapped}
    (hm : mapped G.M b va.toNat G.M.levels (rootPage G.P sptbr) = some m)
    (hset : Settled b op m.pte m.addr) : G.M.Canonical va := by
  have hleaf := leafFrom_clean so (Nat.le_refl _) (pageAligned_rootTable G.P sptbr)
    ((G.rootTable_toNat_iff sptbr).mpr hroot) hclean
  rw [hm] at hleaf
  exact (h.clean (.inl ⟨G.M.levels, _, hleaf, hset⟩)).1

/-- **When the walk does what the page table says**, for every memory, root, address, access and
paging mode. -/
theorem walkRight_iff (so : ShiftOver) (G : Geometry) (b : Bus) (sptbr va : UX G.P) (op : MmuOp) :
    WalkRight so G b sptbr va op ↔ WalkSafe so G b va op sptbr := by
  constructor
  · exact WalkRight.safe
  · intro h
    by_cases hused : (∃ n f, descend so G.P G.M b sptbr va n = some (some f) ∧
        Settled b op f.pte f.addr) ∨
        ∃ m, G.translation b sptbr va = some m ∧ Settled b op m.pte m.addr
    · obtain ⟨hcan, hroot, hclean⟩ := h.clean hused
      exact walkRight_of_clean hcan hroot hclean
    · obtain ⟨hwalker, hpath⟩ := not_or.mp hused
      refine walkRight_of_unused h.ends ?_ ?_
      · intro n f hf hset
        exact hwalker ⟨n, f, hf, hset⟩
      · intro m hm hset
        exact hpath ⟨m, hm, hset⟩

/-- A memory whose first entry maps the gigabyte at 1 GiB. -/
def gigaBus : Bus :=
  ⟨fun a => if a = 0 then 0x47 else if a = 3 then 0x10 else 0, fun _ => true, fun _ => true⟩

/-- An address that is not canonical is translated. -/
theorem walk_not_right :
    ¬ ∃ so, WalkRight so Geometry.sv39 gigaBus 0 0x8000000000 .load := by
  rintro ⟨so, h⟩
  have hclean : Clean Geometry.sv39 gigaBus (0x8000000000#64).toNat 3 0 := by
    refine ⟨0x10000047, rfl, ?_⟩
    rw [if_neg (by decide)]
    decide
  have hmapped : mapped Mmu.sv39 gigaBus (0x8000000000#64).toNat 3 0 =
      some ⟨[], 0, 2, ⟨0x10000047⟩⟩ := by decide
  have hset : Settled gigaBus .load ⟨0x10000047⟩ 0 := .inr rfl
  have hcan := h.safe.canonical (by decide) hclean hmapped hset
  revert hcan
  decide

end RvCkpt.Mmu
