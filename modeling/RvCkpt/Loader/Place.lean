import RvCkpt.Loader.CfgRoundTrip
import RvCkpt.Loader.Segments

/-! # The loader's place and its table

`main` finds a place for the loader whenever there is one, and no mapping comes there. What it puts
into the table is what `map_pages` reads.
-/

namespace RvCkpt.Loader
open ByteMem Text Parse
set_option autoImplicit false

/-! ## A place that no mapping touches -/

/-- The mapping and the range share no address. -/
def Misses (start stop : ℕ) (e : MmapCfg) : Prop := e.addr + e.size ≤ start ∨ stop ≤ e.addr

theorem passBy_eq {total foundBase : ℕ} {e : MmapCfg} (hfound : foundBase + total < 2 ^ 64)
    (he : e.addr + e.size < 2 ^ 64) :
    passBy total foundBase e =
      if e.addr < foundBase + total ∧ foundBase < e.addr + e.size then e.addr + e.size
      else foundBase := by
  rw [passBy, u64, u64, Nat.mod_eq_of_lt hfound, Nat.mod_eq_of_lt he]

/-- What the search keeps: it has not gone past a place that it could have taken, and none of the
mappings that it has seen is in the way. -/
structure Searched (total : ℕ) (done : List MmapCfg) (foundBase : ℕ) : Prop where
  base_le : CL_BASE ≤ foundBase
  aligned : foundBase % PAGE_SIZE = 0
  room : foundBase + total < 2 ^ 64
  clear : ∀ e ∈ done, Misses foundBase (foundBase + total) e
  least : ∀ b, CL_BASE ≤ b → (∀ e ∈ done, Misses b (b + total) e) → foundBase ≤ b

theorem Searched.start {total : ℕ} (htotal : total < 2 ^ 63) : Searched total [] CL_BASE where
  base_le := le_rfl
  aligned := by decide
  room := by
    unfold CL_BASE
    omega
  clear := by simp
  least := fun b hb _ => hb

theorem Searched.step {total : ℕ} {done : List MmapCfg} {foundBase : ℕ}
    (h : Searched total done foundBase) {e : MmapCfg} (hend : e.addr + e.size + total < 2 ^ 64)
    (haligned : (e.addr + e.size) % PAGE_SIZE = 0)
    (hdone : ∀ e' ∈ done, e'.addr + e'.size ≤ e.addr) :
    Searched total (done ++ [e]) (passBy total foundBase e) := by
  rw [passBy_eq h.room (by omega)]
  by_cases hmeet : e.addr < foundBase + total ∧ foundBase < e.addr + e.size
  · rw [if_pos hmeet]
    refine ⟨h.base_le.trans hmeet.2.le, haligned, hend, fun e' he' => ?_, fun b hb hclear => ?_⟩
    · rcases List.mem_append.mp he' with he' | he'
      · exact .inl ((hdone e' he').trans (Nat.le_add_right _ _))
      · rw [List.mem_singleton.mp he']
        exact .inl le_rfl
    · have hle := h.least b hb fun e' he' => hclear e' (by simp [he'])
      -- a place from `foundBase` on that ends before the mapping would not meet it
      rcases hclear e (by simp) with hafter | hbefore
      · exact hafter
      · omega
  · rw [if_neg hmeet]
    refine ⟨h.base_le, h.aligned, h.room, fun e' he' => ?_, fun b hb hclear => ?_⟩
    · rcases List.mem_append.mp he' with he' | he'
      · exact h.clear e' he'
      · rw [List.mem_singleton.mp he']
        rw [not_and_or, Nat.not_lt, Nat.not_lt] at hmeet
        exact hmeet.symm
    · exact h.least b hb fun e' he' => hclear e' (by simp [he'])

theorem Searched.foldl {total : ℕ} {rest done : List MmapCfg} {foundBase : ℕ}
    (h : Searched total done foundBase) (hend : ∀ e ∈ rest, e.addr + e.size + total < 2 ^ 64)
    (haligned : ∀ e ∈ rest, (e.addr + e.size) % PAGE_SIZE = 0)
    (hsorted : (done ++ rest).Pairwise fun e e' => e.addr + e.size ≤ e'.addr) :
    Searched total (done ++ rest) (rest.foldl (passBy total) foundBase) := by
  induction rest generalizing done foundBase with
  | nil => rwa [List.append_nil]
  | cons e rest ih =>
    have hdone : ∀ e' ∈ done, e'.addr + e'.size ≤ e.addr := fun e' he' =>
      (List.pairwise_append.mp hsorted).2.2 e' he' e List.mem_cons_self
    have hstep := h.step (hend e (by simp)) (haligned e (by simp)) hdone
    rw [List.append_cons] at hsorted ⊢
    exact ih hstep (fun e' h' => hend e' (by simp [h'])) (fun e' h' => haligned e' (by simp [h']))
      hsorted

theorem sortByAddr_ascending {table : List MmapCfg} (hpos : ∀ e ∈ table, 0 < e.size)
    (hapart : table.Pairwise fun e e' => Misses e.addr (e.addr + e.size) e') :
    (sortByAddr table).Pairwise fun e e' => e.addr + e.size ≤ e'.addr := by
  have hperm : (sortByAddr table).Perm table := List.perm_insertionSort _ table
  have hsymm : ∀ {e e' : MmapCfg}, Misses e.addr (e.addr + e.size) e' →
      Misses e'.addr (e'.addr + e'.size) e := fun h => h.symm
  have hclear : (sortByAddr table).Pairwise fun e e' => Misses e.addr (e.addr + e.size) e' :=
    (hperm.pairwise_iff hsymm).mpr hapart
  have htotal : Std.Total fun a b : MmapCfg => a.addr ≤ b.addr := ⟨fun a b => Nat.le_total _ _⟩
  have htrans : IsTrans MmapCfg fun a b => a.addr ≤ b.addr := ⟨fun a b c => Nat.le_trans⟩
  have hsorted : (sortByAddr table).Pairwise fun a b => a.addr ≤ b.addr :=
    List.pairwise_insertionSort _ table
  refine (hsorted.and hclear).imp_of_mem ?_
  intro e e' he _ h
  have hposE := hpos e (hperm.mem_iff.mp he)
  have hposE' := hpos e' (hperm.mem_iff.mp ‹e' ∈ sortByAddr table›)
  obtain ⟨hle, hclear | hclear⟩ := h
  · omega
  · exact hclear

/-- The mappings of an image as `main` reads them. -/
structure Regions (table : List MmapCfg) : Prop where
  count : table.length < 2 ^ 31
  pos : ∀ e ∈ table, 0 < e.size
  aligned : ∀ e ∈ table, e.addr % PAGE_SIZE = 0 ∧ e.size % PAGE_SIZE = 0
  below : ∀ e ∈ table, e.addr + e.size ≤ 2 ^ 63
  apart : table.Pairwise fun e e' => Misses e.addr (e.addr + e.size) e'

namespace Regions

variable {table : List MmapCfg} (h : Regions table)
include h

theorem totalSize_lt {clSize : ℕ} (hcl : clSize < 2 ^ 62) :
    totalSize clSize table.length < 2 ^ 63 := by
  have hcount := h.count
  unfold totalSize tableSize alignPage ENTRY_SIZE CL_STACK_SIZE
  omega

theorem searched {clSize : ℕ} (hcl : clSize < 2 ^ 62) :
    Searched (totalSize clSize table.length) (sortByAddr table)
      ((sortByAddr table).foldl (passBy (totalSize clSize table.length)) CL_BASE) := by
  have htotal := h.totalSize_lt hcl
  have hmem : ∀ e, e ∈ sortByAddr table ↔ e ∈ table := fun e =>
    (List.perm_insertionSort _ table).mem_iff
  have hfold : Searched _ ([] ++ sortByAddr table) _ := (Searched.start htotal).foldl
    (fun e he => by have := h.below e ((hmem e).mp he); omega)
    (fun e he => by rw [Nat.add_mod, (h.aligned e ((hmem e).mp he)).1,
      (h.aligned e ((hmem e).mp he)).2, Nat.zero_add, Nat.zero_mod])
    (sortByAddr_ascending h.pos h.apart)
  rwa [List.nil_append] at hfold

end Regions

/-- A place where the loader's block touches no mapping. -/
structure Vacant (clSize : ℕ) (table : List MmapCfg) (b : ℕ) : Prop where
  base_le : CL_BASE ≤ b
  aligned : b % PAGE_SIZE = 0
  clear : ∀ e ∈ table, Misses b (b + totalSize clSize table.length) e

/-- Where the search ends is the first vacant place. -/
theorem foldl_passBy_least {clSize : ℕ} {table : List MmapCfg} (h : Regions table)
    (hcl : clSize < 2 ^ 62) :
    IsLeast {b | Vacant clSize table b}
      ((sortByAddr table).foldl (passBy (totalSize clSize table.length)) CL_BASE) := by
  have hfound := h.searched hcl
  have hmem : ∀ e, e ∈ sortByAddr table ↔ e ∈ table := fun e =>
    (List.perm_insertionSort _ table).mem_iff
  constructor
  · exact ⟨hfound.base_le, hfound.aligned, fun e he => hfound.clear e ((hmem e).mpr he)⟩
  · intro b hb
    exact hfound.least b hb.base_le fun e he => hb.clear e ((hmem e).mp he)

theorem findBase_eq {clSize : ℕ} {table : List MmapCfg} (h : Regions table)
    (hcl : clSize < 2 ^ 62) :
    findBase clSize table =
      let foundBase := (sortByAddr table).foldl (passBy (totalSize clSize table.length)) CL_BASE
      if CL_TOP < foundBase + totalSize clSize table.length then none else some foundBase := by
  rw [findBase, u64, Nat.mod_eq_of_lt (h.searched hcl).room]

/-- **The search for a place** ends at the first place where the loader's block touches no mapping,
and is refused only where the block would go beyond `CL_TOP` there. -/
theorem findBase_least {clSize : ℕ} {table : List MmapCfg} (h : Regions table)
    (hcl : clSize < 2 ^ 62) :
    ∃ base, IsLeast {b | Vacant clSize table b} base ∧
      findBase clSize table =
        if CL_TOP < base + totalSize clSize table.length then none else some base :=
  ⟨_, foldl_passBy_least h hcl, findBase_eq h hcl⟩

/-- A mapping that begins before `CL_BASE`, and a gap that is too small. -/
theorem shortGap_least :
    ∃ base, IsLeast {b | Vacant 1 [⟨0x60003000, 0x2000, 0x1000, 0x1000⟩,
        ⟨0x5ffff000, 0, 0x2000, 0x2000⟩] b} base ∧
      findBase 1 [⟨0x60003000, 0x2000, 0x1000, 0x1000⟩, ⟨0x5ffff000, 0, 0x2000, 0x2000⟩] =
        if CL_TOP < base + totalSize 1 2 then none else some base :=
  findBase_least
    ⟨by decide, by decide, by decide, by decide,
      List.pairwise_pair.mpr (.inl (by decide))⟩ (by decide)

/-- There is a place whenever there is room. -/
theorem findBase_clear {clSize : ℕ} {table : List MmapCfg} {b : ℕ} (h : Regions table)
    (hcl : clSize < 2 ^ 62) (hbase : CL_BASE ≤ b)
    (hb : b + totalSize clSize table.length ≤ CL_TOP)
    (hclear : ∀ e ∈ table, Misses b (b + totalSize clSize table.length) e) :
    ∃ base, findBase clSize table = some base ∧ CL_BASE ≤ base ∧
      base + totalSize clSize table.length ≤ CL_TOP ∧ base % PAGE_SIZE = 0 ∧
      ∀ e ∈ table, Misses base (base + totalSize clSize table.length) e := by
  have hmem : ∀ e, e ∈ sortByAddr table ↔ e ∈ table := fun e =>
    (List.perm_insertionSort _ table).mem_iff
  have hle := (h.searched hcl).least b hbase fun e he => hclear e ((hmem e).mp he)
  have hvacant := (foldl_passBy_least h hcl).1
  refine ⟨_, ?_, hvacant.base_le, by omega, hvacant.aligned, hvacant.clear⟩
  rw [findBase_eq h hcl]
  exact if_neg (by omega)

/-! ## The table in memory -/

theorem lowBytes_length (n x : ℕ) : (lowBytes n x).length = n := by
  rw [lowBytes, List.length_map, List.length_range]

theorem entryBytes_length (e : MmapCfg) : (entryBytes e).length = ENTRY_SIZE := by
  rw [entryBytes, List.length_append, List.length_append, List.length_append, lowBytes_length,
    lowBytes_length, lowBytes_length, lowBytes_length]
  rfl

theorem read_lowBytes {m : Mem} {a n x : ℕ} (hn : n ≤ 8) (hx : x < 256 ^ n)
    (h : m.Holds a (lowBytes n x)) : (m.read a n).toNat = x := by
  have hbytes : ∀ i < n, m (a + i) = byteAt (BitVec.ofNat 64 x) (0 + i) := by
    intro i hi
    rw [Mem.holds_iff.mp h i (by rw [lowBytes_length]; exact hi), lowBytes,
      List.getD_eq_getElem?_getD, List.getElem?_map, List.getElem?_range hi, Nat.zero_add]
    rfl
  have hbig : x < 2 ^ 64 := hx.trans_le <|
    calc 256 ^ n ≤ 256 ^ 8 := Nat.pow_le_pow_right (by decide) hn
      _ = 2 ^ 64 := by decide
  rw [Mem.read, leNat_congr hbytes, leNat_byteAt, BitVec.toNat_ofNat, BitVec.toNat_ofNat,
    Nat.mod_eq_of_lt hbig, Nat.pow_zero, Nat.div_one, Nat.mod_eq_of_lt hx, Nat.mod_eq_of_lt hbig]

theorem readTable_entry {m : Mem} {mcP i : ℕ} {e : MmapCfg} (he : Fits e)
    (h : m.Holds (mcP + i * ENTRY_SIZE) (entryBytes e)) : readTable m mcP i = e := by
  rw [entryBytes, Mem.holds_append, Mem.holds_append, Mem.holds_append, lowBytes_length,
    lowBytes_length, lowBytes_length] at h
  obtain ⟨haddr, hoffset, hsize, hlength⟩ := h
  have hsize' : (m.read (mcP + i * ENTRY_SIZE + 16) 4).toNat = e.size :=
    read_lowBytes (by decide) he.size hsize
  have hlength' : (m.read (mcP + i * ENTRY_SIZE + 20) 4).toNat = e.length :=
    read_lowBytes (by decide) he.length hlength
  unfold readTable
  dsimp only
  rw [read_lowBytes le_rfl he.addr haddr, read_lowBytes le_rfl he.offset hoffset, hsize', hlength']

theorem holds_table {m : Mem} {a : ℕ} {table : List MmapCfg}
    (h : m.Holds a (table.flatMap entryBytes)) {k : ℕ} {e : MmapCfg} (hk : table[k]? = some e) :
    m.Holds (a + k * ENTRY_SIZE) (entryBytes e) := by
  induction table generalizing a k with
  | nil => cases hk
  | cons e' table ih =>
    rw [List.flatMap_cons, Mem.holds_append, entryBytes_length] at h
    cases k with
    | zero =>
      obtain rfl := Option.some.inj hk
      rw [Nat.zero_mul, Nat.add_zero]
      exact h.1
    | succ k =>
      have hrest := ih h.2 hk
      rwa [Nat.add_assoc, Nat.add_comm ENTRY_SIZE, ← Nat.succ_mul] at hrest

theorem tableBytes_length (table : List MmapCfg) :
    (table.flatMap entryBytes).length = table.length * ENTRY_SIZE := by
  induction table with
  | nil => rw [List.length_nil, Nat.zero_mul]; rfl
  | cons e table ih =>
    rw [List.flatMap_cons, List.length_append, entryBytes_length, ih, List.length_cons,
      Nat.succ_mul, Nat.add_comm]

end RvCkpt.Loader
