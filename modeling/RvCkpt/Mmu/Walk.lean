import RvCkpt.Priv.Types
import RvCkpt.Isa.Alu
import RvCkpt.Lib.Bytes

/-! # The page-table walker

`walk_page_table` of `src/src/emu/mmu-soft.h` over the page-table formats of `src/src/emu/pte.h`,
and how many entries it loads. The words of the machine are `UX`; a shift by the width or more is
what the compiler makes of it.
-/

namespace RvCkpt.Mmu
set_option autoImplicit false
open ByteMem Priv Isa

/-! ## Parameters and formats -/

/-- `param_rv32` and `param_rv64` of `src/src/emu/pma.h`, with what `tagged_tlb_entry` asserts. -/
structure Param where
  width : ℕ
  asidBits : ℕ
  ppnBits : ℕ
  hword : width = 32 ∨ width = 64
  hsum : asidBits + ppnBits = width

def param_rv32 : Param := ⟨32, 10, 22, .inl rfl, rfl⟩

def param_rv64 : Param := ⟨64, 26, 38, .inr rfl, rfl⟩

abbrev UX (P : Param) := BitVec P.width

def pageShift : ℕ := 12

/-- A paging mode (`PTM`): the levels, the bits of an index, the bytes of an entry and the bits of
its page number. -/
structure Paging where
  levels : ℕ
  bits : ℕ
  size : ℕ
  ppnBits : ℕ
  hlevels : 0 < levels ∧ levels ≤ 4
  hbits : bits ≤ 10
  hsize : size = 4 ∨ size = 8

def sv32 : Paging := ⟨2, 10, 4, 22, by decide, by decide, .inl rfl⟩

def sv39 : Paging := ⟨3, 9, 8, 44, by decide, by decide, .inr rfl⟩

def sv48 : Paging := ⟨4, 9, 8, 44, by decide, by decide, .inr rfl⟩

/-- A page-table entry, extended to 64 bits. -/
structure Pte where
  val : BitVec 64
  deriving DecidableEq, Repr

def pte_flag_A : BitVec 64 := 1 <<< 6

def pte_flag_D : BitVec 64 := 1 <<< 7

namespace Pte

def v (pte : Pte) : Bool := pte.val.getLsbD 0

def r (pte : Pte) : Bool := pte.val.getLsbD 1

def w (pte : Pte) : Bool := pte.val.getLsbD 2

def x (pte : Pte) : Bool := pte.val.getLsbD 3

def flags (pte : Pte) : BitVec 64 := (pte.val.truncate 10).zeroExtend 64

/-- A pointer to the next table. -/
def pointer (pte : Pte) : Bool := !(pte.r || pte.w || pte.x)

/-- An entry that maps a page, as far as its flags go. -/
def mapsPage (pte : Pte) : Bool := pte.r || pte.x

end Pte

namespace Paging

def ppn (M : Paging) (pte : Pte) : BitVec 64 := (pte.val.extractLsb' 10 M.ppnBits).zeroExtend 64

/-- `pte.val.ppn << page_shift`: a field of 22 bits is promoted to a signed word of 32 bits. -/
def table (M : Paging) (width : ℕ) (pte : Pte) : BitVec width :=
  if M.size = 4 then (((M.ppn pte).truncate 32) <<< pageShift).signExtend width
  else ((M.ppn pte) <<< pageShift).setWidth width

end Paging

/-- `mmu_op` -/
inductive MmuOp where
  | fetch | load | store
  deriving DecidableEq, Repr

namespace MmuOp

/-- The flags that an access needs. -/
def adFlags : MmuOp → BitVec 64
  | store => pte_flag_A ||| pte_flag_D
  | _ => pte_flag_A

/-- What a walk that finds no leaf raises. -/
def fault : MmuOp → Cause
  | fetch => .fault_fetch
  | load => .fault_load
  | store => .fault_store

end MmuOp

/-! ## Memory -/

/-- Physical memory: which addresses a segment lets be loaded and stored. -/
structure Bus where
  mem : Mem
  present : ℕ → Bool
  writable : ℕ → Bool

namespace Bus

def load (b : Bus) (a n : ℕ) : Option (BitVec 64) :=
  if b.present a then some (b.mem.read a n) else none

def store (b : Bus) (a n : ℕ) (x : BitVec 64) : Option Bus :=
  if b.writable a then some { b with mem := b.mem.write a n x } else none

end Bus

/-! ## The walk -/

/-- Where a walk stands: in front of the load of an entry of `table`, at a leaf, whose entry at
`addr` now is `pte`, or at a fault. -/
inductive Walk (width : ℕ) where
  | at (level table : BitVec width)
  | leaf (bus : Bus) (pte : Pte) (level : BitVec width) (addr : ℕ)
  | fault (cause : Cause)

section
variable (so : ShiftOver) (M : Paging) {width : ℕ}

/-- The shift for a page table of the level. -/
def levelShift (level : BitVec width) : BitVec width :=
  BitVec.ofNat width M.bits * level + BitVec.ofNat width pageShift

/-- `page_translate_offset` -/
def page_translate_offset (ppn va level : BitVec width) : BitVec 64 :=
  let mask := shift so .left (1 : BitVec 64) (levelShift M level).toNat - 1
  (ppn <<< pageShift).setWidth 64 + (va.setWidth 64 &&& mask)

def pteAddr (va level table : BitVec width) : ℕ :=
  let vpn := shift so .right va (levelShift M level).toNat &&& BitVec.ofNat width (2 ^ M.bits - 1)
  (table + vpn * BitVec.ofNat width M.size).toNat

/-- A leaf of a larger page whose page number is not a multiple of the page. -/
def misaligned (level : BitVec width) (pte : Pte) : Bool :=
  let pages := shift so .left (1 : BitVec 32) (levelShift M level - BitVec.ofNat width pageShift).toNat
  (pages - 1).signExtend 64 &&& M.ppn pte ≠ 0

/-- The loop body of `walk_page_table`. -/
def visit (b : Bus) (va : BitVec width) (op : MmuOp) : Walk width → Walk width
  | .at level table =>
    let pte_mpa := pteAddr so M va level table
    match b.load pte_mpa M.size with
    | none => .fault op.fault
    | some val =>
      let pte : Pte := ⟨val⟩
      if pte.pointer then .at (level - 1) (M.table width pte)
      else if !pte.v || (!pte.r && pte.w) then .fault op.fault
      else if pte.mapsPage then
        if misaligned so M level pte then .fault op.fault
        -- the accessed and dirty flags are brought up to date
        else if pte.flags &&& op.adFlags ≠ op.adFlags then
          match b.store pte_mpa M.size (pte.val ||| op.adFlags) with
          | none => .fault op.fault
          | some b' => .leaf b' ⟨pte.val ||| op.adFlags⟩ level pte_mpa
        else .leaf b pte level pte_mpa
      else .at (level - 1) table
  | w => w

/-- The walk with the number of entries it loads, `none` if it has not ended when the fuel is
used up. -/
def walkFrom (b : Bus) (va : BitVec width) (op : MmuOp) :
    ℕ → Walk width → Option (Walk width × ℕ)
  | 0, .at _ _ => none
  | fuel + 1, .at level table =>
    (walkFrom b va op fuel (visit so M b va op (.at level table))).map fun r => (r.1, r.2 + 1)
  | _, w => some (w, 0)

end

def rootTable (P : Param) (sptbr : UX P) : UX P :=
  (sptbr &&& BitVec.ofNat P.width (2 ^ P.ppnBits - 1)) <<< pageShift

/-- `walk_page_table` -/
def walk_page_table (so : ShiftOver) (P : Param) (M : Paging) (b : Bus) (sptbr va : UX P)
    (op : MmuOp) (fuel : ℕ) : Option (Walk P.width × ℕ) :=
  walkFrom so M b va op fuel (.at (BitVec.ofNat P.width (M.levels - 1)) (rootTable P sptbr))

/-! ## How long a walk is -/

section
variable (so : ShiftOver) (M : Paging) {width : ℕ} (b : Bus) (va : BitVec width)

/-- The first `n` entries on the way of `va` from `table` on are pointers. -/
def Pointers : ℕ → BitVec width → BitVec width → Prop
  | 0, _, _ => True
  | n + 1, level, table =>
    ∃ val, b.load (pteAddr so M va level table) M.size = some val ∧ (Pte.mk val).pointer = true ∧
      Pointers n (level - 1) (M.table width ⟨val⟩)

/-- What a walk may end with: the access raises its fault, or an entry in memory maps the page. -/
def Walk.Ended (op : MmuOp) : Walk width → Prop
  | .at _ _ => False
  | .leaf _ _ _ addr => ∃ val, b.load addr M.size = some val ∧ (Pte.mk val).mapsPage = true
  | .fault cause => cause = op.fault

variable {M b}

theorem visit_pointer (op : MmuOp) {level table : BitVec width} {val : BitVec 64}
    (hload : b.load (pteAddr so M va level table) M.size = some val)
    (hptr : (Pte.mk val).pointer = true) :
    visit so M b va op (.at level table) = .at (level - 1) (M.table width ⟨val⟩) := by
  simp only [visit, hload, hptr, if_true]

theorem Pte.mapsPage_of_not_pointer {pte : Pte} (hptr : pte.pointer = false)
    (hvalid : ¬(!pte.v || (!pte.r && pte.w)) = true) : pte.mapsPage = true := by
  unfold pointer at hptr
  unfold mapsPage
  cases hr : pte.r with
  | true => rfl
  | false =>
    cases hx : pte.x with
    | true => rfl
    | false =>
      rw [hr, hx, Bool.false_or, Bool.or_false, Bool.not_eq_false'] at hptr
      rw [hr, hptr, Bool.not_false, Bool.and_self, Bool.or_true] at hvalid
      exact absurd rfl hvalid

/-- An entry that is not a pointer ends the walk. -/
theorem visit_ended (op : MmuOp) {level table : BitVec width}
    (h : ∀ val, b.load (pteAddr so M va level table) M.size = some val →
      (Pte.mk val).pointer = false) :
    (visit so M b va op (.at level table)).Ended M b op := by
  unfold visit
  dsimp only
  cases hload : b.load (pteAddr so M va level table) M.size with
  | none => exact rfl
  | some val =>
    have hptr := h val hload
    dsimp only
    rw [hptr, if_neg Bool.false_ne_true]
    split
    · exact rfl
    · rename_i hvalid
      have hmaps := Pte.mapsPage_of_not_pointer hptr hvalid
      rw [if_pos hmaps]
      split
      · exact rfl
      · split
        · split
          · exact rfl
          · exact ⟨val, hload, hmaps⟩
        · exact ⟨val, hload, hmaps⟩

variable (M b) in
/-- One entry: the walk follows a pointer or ends. -/
theorem visit_cases (op : MmuOp) (level table : BitVec width) :
    (∃ val, b.load (pteAddr so M va level table) M.size = some val ∧
      (Pte.mk val).pointer = true ∧
        visit so M b va op (.at level table) = .at (level - 1) (M.table width ⟨val⟩)) ∨
    (∀ val, b.load (pteAddr so M va level table) M.size = some val →
      (Pte.mk val).pointer = false) ∧ (visit so M b va op (.at level table)).Ended M b op := by
  by_cases hend : ∀ val, b.load (pteAddr so M va level table) M.size = some val →
      (Pte.mk val).pointer = false
  · exact .inr ⟨hend, visit_ended so va op hend⟩
  · push Not at hend
    obtain ⟨val, hload, hne⟩ := hend
    have hptr := Bool.eq_true_of_not_eq_false hne
    exact .inl ⟨val, hload, hptr, visit_pointer so va op hload hptr⟩

theorem walkFrom_ended (op : MmuOp) {w : Walk width} (hw : w.Ended M b op) (fuel : ℕ) :
    walkFrom so M b va op fuel w = some (w, 0) := by
  cases w with
  | «at» level table => exact absurd hw id
  | leaf bus pte level addr => cases fuel <;> rfl
  | fault cause => cases fuel <;> rfl

/-- A walk is still on its way after `n` entries exactly if all of them are pointers. -/
theorem walkFrom_eq_none_iff (op : MmuOp) (n : ℕ) (level table : BitVec width) :
    walkFrom so M b va op n (.at level table) = none ↔ Pointers so M b va n level table := by
  induction n generalizing level table with
  | zero => exact iff_of_true rfl trivial
  | succ n ih =>
    rw [walkFrom, Option.map_eq_none_iff]
    rcases visit_cases so M b va op level table with ⟨val, hload, hptr, hvisit⟩ | ⟨hptr, hended⟩
    · rw [hvisit, ih]
      constructor
      · intro hrest
        exact ⟨val, hload, hptr, hrest⟩
      · rintro ⟨val', hload', -, hrest⟩
        rw [hload] at hload'
        rwa [Option.some.inj hload']
    · rw [walkFrom_ended so va op hended]
      constructor
      · intro hnone
        cases hnone
      · rintro ⟨val, hload, hptr', -⟩
        rw [hptr val hload] at hptr'
        cases hptr'

/-- A walk that ends has loaded no more entries than it had fuel for. -/
theorem walkFrom_spec (op : MmuOp) {n : ℕ} {level table : BitVec width} {w : Walk width} {k : ℕ}
    (h : walkFrom so M b va op n (.at level table) = some (w, k)) : w.Ended M b op ∧ k ≤ n := by
  induction n generalizing level table k with
  | zero => cases h
  | succ n ih =>
    rw [walkFrom, Option.map_eq_some_iff] at h
    obtain ⟨⟨w', k'⟩, hrest, heq⟩ := h
    obtain ⟨rfl, rfl⟩ := Prod.mk.inj heq
    rcases visit_cases so M b va op level table with ⟨val, -, -, hvisit⟩ | ⟨-, hended⟩
    · rw [hvisit] at hrest
      obtain ⟨hended, hle⟩ := ih hrest
      exact ⟨hended, Nat.succ_le_succ hle⟩
    · rw [walkFrom_ended so va op hended] at hrest
      obtain ⟨rfl, rfl⟩ := Prod.mk.inj (Option.some.inj hrest)
      exact ⟨hended, Nat.le_add_left _ _⟩

/-- The loads that a walk counts are fuel enough for it. -/
theorem walkFrom_loads (op : MmuOp) {n : ℕ} {level table : BitVec width} {w : Walk width} {k : ℕ}
    (h : walkFrom so M b va op n (.at level table) = some (w, k)) {m : ℕ} (hm : k ≤ m) :
    walkFrom so M b va op m (.at level table) = some (w, k) := by
  induction n generalizing level table k m with
  | zero => cases h
  | succ n ih =>
    rw [walkFrom, Option.map_eq_some_iff] at h
    obtain ⟨⟨w', k'⟩, hrest, heq⟩ := h
    obtain ⟨rfl, rfl⟩ := Prod.mk.inj heq
    cases m with
    | zero => exact absurd hm (Nat.not_succ_le_zero _)
    | succ m =>
      rw [walkFrom]
      rcases visit_cases so M b va op level table with ⟨val, -, -, hvisit⟩ | ⟨-, hended⟩
      · rw [hvisit] at hrest ⊢
        rw [ih hrest (Nat.le_of_succ_le_succ hm)]
        rfl
      · rw [walkFrom_ended so va op hended] at hrest ⊢
        rw [hrest]
        rfl

end

/-- The walk ends after at most as many loads as there are levels, at an entry that maps the page
or with the fault of the access. -/
def Terminates (so : ShiftOver) (P : Param) (M : Paging) (b : Bus) (sptbr va : UX P)
    (op : MmuOp) : Prop :=
  ∃ fuel w loads, walk_page_table so P M b sptbr va op fuel = some (w, loads) ∧
    loads ≤ M.levels ∧ w.Ended M b op

/-- **When the walk is bounded**, for every memory, root, address and paging mode. -/
theorem terminates_iff (so : ShiftOver) (P : Param) (M : Paging) (b : Bus) (sptbr va : UX P)
    (op : MmuOp) :
    Terminates so P M b sptbr va op ↔
      ¬ Pointers so M b va M.levels (BitVec.ofNat P.width (M.levels - 1)) (rootTable P sptbr) := by
  constructor
  · rintro ⟨fuel, w, loads, hwalk, hle, -⟩ hptrs
    have hlevels := walkFrom_loads so va op hwalk hle
    rw [(walkFrom_eq_none_iff so va op M.levels _ _).mpr hptrs] at hlevels
    cases hlevels
  · intro hptrs
    cases hwalk : walk_page_table so P M b sptbr va op M.levels with
    | none => exact absurd ((walkFrom_eq_none_iff so va op M.levels _ _).mp hwalk) hptrs
    | some r =>
      obtain ⟨w, loads⟩ := r
      obtain ⟨hended, hle⟩ := walkFrom_spec so va op hwalk
      exact ⟨M.levels, w, loads, hwalk, hle, hended⟩

/-- A memory without anything in it. -/
def zeroBus : Bus := ⟨fun _ => 0, fun _ => true, fun _ => true⟩

theorem zeroBus_load (a n : ℕ) : zeroBus.load a n = some 0 := by
  have hzero : zeroBus.mem.read a n = 0 := by
    unfold Mem.read
    have hle : leNat (fun i => zeroBus.mem (a + i)) n = 0 := by
      induction n generalizing a with
      | zero => rfl
      | succ n ih =>
        have hrest : (fun i => zeroBus.mem (a + (i + 1))) = fun i => zeroBus.mem (a + 1 + i) := by
          funext i
          rfl
        rw [leNat, hrest, ih]
        rfl
    rw [hle]
    rfl
  rw [Bus.load, hzero]
  rfl

/-- The entries of an empty memory point to page 0 for ever. -/
theorem zeroBus_pointers (so : ShiftOver) (M : Paging) {width : ℕ} (va : BitVec width) (n : ℕ)
    (level table : BitVec width) : Pointers so M zeroBus va n level table := by
  induction n generalizing level table with
  | zero => trivial
  | succ n ih => exact ⟨0, zeroBus_load _ _, rfl, ih _ _⟩

/-- With the root at page 0 of a memory of zeros the walk does not end. -/
theorem zeroBus_not_terminates :
    (∀ so fuel, walk_page_table so param_rv64 sv39 zeroBus 0 0 .load fuel = none) ∧
      ¬ Terminates ⟨fun _ _ x _ => x⟩ param_rv64 sv39 zeroBus 0 0 .load := by
  refine ⟨?_, ?_⟩
  · intro so fuel
    exact (walkFrom_eq_none_iff so _ _ fuel _ _).mpr (zeroBus_pointers so sv39 _ fuel _ _)
  · rintro ⟨fuel, w, loads, hwalk, -⟩
    rw [walk_page_table, (walkFrom_eq_none_iff _ _ _ fuel _ _).mpr
      (zeroBus_pointers _ sv39 _ fuel _ _)] at hwalk
    cases hwalk

end RvCkpt.Mmu
