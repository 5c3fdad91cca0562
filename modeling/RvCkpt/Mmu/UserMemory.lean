import RvCkpt.Mmu.Walk
import RvCkpt.Priv.Timer
import Mathlib.Data.List.Pairwise

/-! # Physical memory

`user_memory` of `src/src/emu/mmu-memory.h`: segments of physical memory, each with memory of the
host or a device behind it. A physical address is routed by its first byte; what that means for
accesses of every width.
-/

namespace RvCkpt.Mmu
set_option autoImplicit false
open ByteMem Priv

/-! ## Segments -/

/-- The memory of the emulator and the state of its devices. -/
structure HostState (δ : Type) where
  mem : Mem
  dev : δ

/-- The `load_*` and `store_*` of a device, at an offset; `none` is a bus error. -/
structure Device (P : Param) (δ : Type) where
  load : Width → δ → UX P → Option (BitVec 64 × δ)
  store : Width → δ → UX P → BitVec 64 → Option δ

/-- What is behind a segment: host memory from an address on, or a device, whose `uva` is 0. -/
inductive Backing (P : Param) (δ : Type) where
  | mmap (uva : BitVec 64)
  | device (d : Device P δ)

def Backing.uva {P : Param} {δ : Type} : Backing P δ → BitVec 64
  | mmap uva => uva
  | device _ => 0

/-- `memory_segment`: it is not empty and ends in the address space, at the top at the latest. -/
structure MemorySegment (P : Param) (δ : Type) where
  mpa : UX P
  size : ℕ
  backing : Backing P δ
  hsize : 0 < size
  hend : mpa.toNat + size ≤ 2 ^ P.width
  huva : backing.uva.toNat + size ≤ 2 ^ 64

variable {P : Param} {δ : Type}

namespace MemorySegment
variable (s : MemorySegment P δ)

/-- The test of `mpa_to_uva`; the end of the segment may wrap to 0. -/
def routes (mpa : UX P) : Bool :=
  let upper := s.mpa.setWidth 64 + BitVec.ofNat 64 s.size
  decide (s.mpa ≤ mpa) && (decide (mpa.setWidth 64 < upper) || decide (upper = 0))

/-- `load_8` and its siblings, for host memory those of `mmap_memory_segment`. -/
def load (w : Width) (h : HostState δ) (va : UX P) : Option (BitVec 64 × HostState δ) :=
  match s.backing with
  | .mmap _ => some (h.mem.read va.toNat w.bytes, h)
  | .device d => (d.load w h.dev va).map fun r => (r.1, { h with dev := r.2 })

/-- `store_8` and its siblings. -/
def store (w : Width) (h : HostState δ) (va : UX P) (val : BitVec 64) : Option (HostState δ) :=
  match s.backing with
  | .mmap _ => some { h with mem := h.mem.write va.toNat w.bytes val }
  | .device d => (d.store w h.dev va val).map fun dev => { h with dev := dev }

end MemorySegment

/-- The segments do not overlap. -/
def MemorySegment.Apart (s t : MemorySegment P δ) : Prop :=
  s.mpa.toNat + s.size ≤ t.mpa.toNat ∨ t.mpa.toNat + t.size ≤ s.mpa.toNat

instance instSymmApart :
    Std.Symm (MemorySegment.Apart : MemorySegment P δ → MemorySegment P δ → Prop) :=
  ⟨fun _ _ h => h.symm⟩

/-- The segments of `user_memory`. -/
structure UserMemory (P : Param) (δ : Type) where
  segments : List (MemorySegment P δ)
  disjoint : segments.Pairwise MemorySegment.Apart

namespace UserMemory
variable (M : UserMemory P δ)

/-- `mpa_to_uva`, with the segment. -/
def mpa_to_uva (mpa : UX P) : Option (MemorySegment P δ × BitVec 64) :=
  (M.segments.find? fun s => s.routes mpa).map fun s =>
    (s, s.backing.uva + (mpa - s.mpa).setWidth 64)

/-- `load_8` and its siblings: what `mpa_to_uva` returns is passed on as a `UX`. -/
def load (w : Width) (h : HostState δ) (va : UX P) : Option (BitVec 64 × HostState δ) :=
  match M.mpa_to_uva va with
  | none => none
  | some (s, uva) => s.load w h (uva.setWidth P.width)

/-- `store_8` and its siblings. -/
def store (w : Width) (h : HostState δ) (va : UX P) (val : BitVec 64) : Option (HostState δ) :=
  match M.mpa_to_uva va with
  | none => none
  | some (s, uva) => s.store w h (uva.setWidth P.width) val

end UserMemory

/-! ## What is to be accessed -/

namespace MemorySegment
variable (s : MemorySegment P δ) (mpa : UX P) (w : Width)

/-- The byte at the address is one of the segment. -/
def Contains : Prop := s.mpa.toNat ≤ mpa.toNat ∧ mpa.toNat < s.mpa.toNat + s.size

/-- All bytes of the access are. -/
def Inside : Prop := s.mpa.toNat ≤ mpa.toNat ∧ mpa.toNat + w.bytes ≤ s.mpa.toNat + s.size

def offset : ℕ := mpa.toNat - s.mpa.toNat

/-- The bytes of the segment from the address on, or what the device answers there. -/
def bytesAt (h : HostState δ) : Option (BitVec 64 × HostState δ) :=
  match s.backing with
  | .mmap uva => some (h.mem.read (uva.toNat + s.offset mpa) w.bytes, h)
  | .device d => (d.load w h.dev (mpa - s.mpa)).map fun r => (r.1, { h with dev := r.2 })

/-- The host after these bytes of the segment have been written. -/
def writeAt (h : HostState δ) (val : BitVec 64) : Option (HostState δ) :=
  match s.backing with
  | .mmap uva => some { h with mem := h.mem.write (uva.toNat + s.offset mpa) w.bytes val }
  | .device d => (d.store w h.dev (mpa - s.mpa) val).map fun dev => { h with dev := dev }

end MemorySegment

namespace UserMemory
variable (M : UserMemory P δ) (mpa : UX P) (w : Width)

/-- Loads and stores at the address succeed exactly if all their bytes are in one segment, and
then access these bytes; they return a bus error otherwise. -/
def Right : Prop :=
  ∀ (h : HostState δ) (val : BitVec 64),
    (∀ s ∈ M.segments, s.Inside mpa w →
      (∃ r, s.bytesAt mpa w h = some r ∧ M.load w h mpa = some r) ∧
        ∃ h', s.writeAt mpa w h val = some h' ∧ M.store w h mpa val = some h') ∧
    ((∀ s ∈ M.segments, ¬ s.Inside mpa w) →
      M.load w h mpa = none ∧ M.store w h mpa val = none)

/-- The segment of the first byte, if there is one, has all bytes of the access, and its host
address fits a word or its device answers; or it is a device that refuses what it does not have. -/
def Safe : Prop :=
  ∀ s ∈ M.segments, s.Contains mpa →
    match s.backing with
    | .mmap uva => s.Inside mpa w ∧ uva.toNat + s.offset mpa < 2 ^ P.width
    | .device d =>
      s.Inside mpa w ∧
          (∀ dev val, (d.load w dev (mpa - s.mpa)).isSome = true ∧
            (d.store w dev (mpa - s.mpa) val).isSome = true) ∨
        ¬ s.Inside mpa w ∧
          ∀ dev val, d.load w dev (mpa - s.mpa) = none ∧ d.store w dev (mpa - s.mpa) val = none

end UserMemory

/-! ## Routing -/

theorem Param.pow_width (P : Param) : 2 ^ P.width = 2 ^ 32 ∨ 2 ^ P.width = 2 ^ 64 := by
  rcases P.hword with h | h
  · exact .inl (by rw [h])
  · exact .inr (by rw [h])

theorem MemorySegment.routes_iff (s : MemorySegment P δ) (mpa : UX P) :
    s.routes mpa = true ↔ s.Contains mpa := by
  have hsize := s.hsize
  have hend := s.hend
  have hmpa := mpa.isLt
  have hzero : (0 : BitVec 64).toNat = 0 := rfl
  unfold MemorySegment.routes MemorySegment.Contains
  simp only [Bool.and_eq_true, Bool.or_eq_true, decide_eq_true_eq, BitVec.le_def, BitVec.lt_def,
    ← BitVec.toNat_inj, BitVec.toNat_add, BitVec.toNat_setWidth, BitVec.toNat_ofNat, hzero]
  rcases P.pow_width with hw | hw <;> rw [hw] at hend hmpa <;> omega

namespace MemorySegment
variable {s : MemorySegment P δ} {mpa : UX P} {w : Width}

theorem Inside.contains (h : s.Inside mpa w) : s.Contains mpa := by
  have hpos := w.bytes_pos
  unfold Inside at h
  unfold Contains
  omega

theorem sub_toNat (h : s.Contains mpa) : (mpa - s.mpa).toNat = s.offset mpa :=
  BitVec.toNat_sub_of_le h.1

/-- The host address of a byte of the segment. -/
theorem uva_toNat (h : s.Contains mpa) :
    (s.backing.uva + (mpa - s.mpa).setWidth 64).toNat = s.backing.uva.toNat + s.offset mpa := by
  have huva := s.huva
  have hoff : s.offset mpa < s.size := by
    unfold Contains at h
    unfold offset
    omega
  rw [BitVec.toNat_add, BitVec.toNat_setWidth, sub_toNat h]
  omega

/-- The address that a device gets is the offset in its segment. -/
theorem device_va {d : Device P δ} (hd : s.backing = .device d) (h : s.Contains mpa) :
    (s.backing.uva + (mpa - s.mpa).setWidth 64).setWidth P.width = mpa - s.mpa := by
  apply BitVec.eq_of_toNat_eq
  rw [BitVec.toNat_setWidth, uva_toNat h, hd]
  have hzero : (Backing.device d : Backing P δ).uva.toNat = 0 := rfl
  rw [hzero, Nat.zero_add, ← sub_toNat h]
  exact Nat.mod_eq_of_lt (mpa - s.mpa).isLt

end MemorySegment

namespace UserMemory
variable {M : UserMemory P δ} {mpa : UX P} {w : Width} {s : MemorySegment P δ}

/-- A byte is in one segment at most. -/
theorem contains_unique {t : MemorySegment P δ} (hs : s ∈ M.segments) (ht : t ∈ M.segments)
    (h : s.Contains mpa) (h' : t.Contains mpa) : s = t := by
  by_contra hne
  have hdisj := M.disjoint.forall hs ht hne
  unfold MemorySegment.Apart at hdisj
  unfold MemorySegment.Contains at h h'
  omega

theorem mpa_to_uva_of_contains (hs : s ∈ M.segments) (h : s.Contains mpa) :
    M.mpa_to_uva mpa = some (s, s.backing.uva + (mpa - s.mpa).setWidth 64) := by
  unfold mpa_to_uva
  cases hfind : M.segments.find? fun s => s.routes mpa with
  | none => exact absurd ((s.routes_iff mpa).mpr h) (List.find?_eq_none.mp hfind s hs)
  | some t =>
    have hroute := List.find?_some (p := fun s : MemorySegment P δ => s.routes mpa) hfind
    have ht := (t.routes_iff mpa).mp hroute
    obtain rfl := contains_unique hs (List.mem_of_find?_eq_some hfind) h ht
    rfl

theorem mpa_to_uva_eq_none (h : ∀ s ∈ M.segments, ¬ s.Contains mpa) : M.mpa_to_uva mpa = none := by
  unfold mpa_to_uva
  rw [Option.map_eq_none_iff, List.find?_eq_none]
  intro s hs hroute
  exact h s hs ((s.routes_iff mpa).mp hroute)

/-- What the segment of the first byte does with the access. -/
theorem load_of_contains (hs : s ∈ M.segments) (h : s.Contains mpa) (w : Width) (host : HostState δ) :
    M.load w host mpa =
      s.load w host ((s.backing.uva + (mpa - s.mpa).setWidth 64).setWidth P.width) := by
  rw [load, mpa_to_uva_of_contains hs h]

theorem store_of_contains (hs : s ∈ M.segments) (h : s.Contains mpa) (w : Width) (host : HostState δ)
    (val : BitVec 64) :
    M.store w host mpa val =
      s.store w host ((s.backing.uva + (mpa - s.mpa).setWidth 64).setWidth P.width) val := by
  rw [store, mpa_to_uva_of_contains hs h]

/-- A device gets the offset. -/
theorem access_device {d : Device P δ} (hs : s ∈ M.segments) (h : s.Contains mpa)
    (hd : s.backing = .device d) (w : Width) (host : HostState δ) (val : BitVec 64) :
    M.load w host mpa = s.bytesAt mpa w host ∧ M.store w host mpa val = s.writeAt mpa w host val := by
  rw [load_of_contains hs h, store_of_contains hs h, MemorySegment.device_va hd h]
  unfold MemorySegment.load MemorySegment.store MemorySegment.bytesAt MemorySegment.writeAt
  rw [hd]
  exact ⟨rfl, rfl⟩

/-- Host memory is accessed at the address cut off to a word. -/
theorem access_mmap {uva : BitVec 64} (hs : s ∈ M.segments) (h : s.Contains mpa)
    (hd : s.backing = .mmap uva) (w : Width) (host : HostState δ) (val : BitVec 64) :
    M.load w host mpa =
        some (host.mem.read ((uva.toNat + s.offset mpa) % 2 ^ P.width) w.bytes, host) ∧
      M.store w host mpa val =
        some { host with
          mem := host.mem.write ((uva.toNat + s.offset mpa) % 2 ^ P.width) w.bytes val } := by
  have huva : (s.backing.uva + (mpa - s.mpa).setWidth 64).toNat = uva.toNat + s.offset mpa := by
    rw [MemorySegment.uva_toNat h, hd, Backing.uva]
  rw [load_of_contains hs h, store_of_contains hs h]
  unfold MemorySegment.load MemorySegment.store
  rw [BitVec.toNat_setWidth, huva, hd]
  exact ⟨rfl, rfl⟩

/-- A host memory that tells two addresses apart. -/
theorem exists_read_ne {a b : ℕ} (hne : a ≠ b) (w : Width) :
    ∃ m : Mem, m.read a w.bytes ≠ m.read b w.bytes := by
  have hle : w.bytes ≤ 8 := Nat.le_of_dvd (by decide) w.bytes_dvd
  obtain ⟨m, hm⟩ := Mem.exists_read_bit_ne hne w.bytes_pos hle
  exact ⟨m, fun heq => hm (by rw [heq])⟩

theorem not_inside_of_contains (hs : s ∈ M.segments) (h : s.Contains mpa) (hout : ¬ s.Inside mpa w) :
    ∀ t ∈ M.segments, ¬ t.Inside mpa w := by
  intro t ht hin
  obtain rfl := contains_unique hs ht h hin.contains
  exact hout hin

/-- Where the first byte is in host memory, all of them are, and the host address is not cut off. -/
theorem Right.mmap [Inhabited δ] (h : M.Right mpa w) (hs : s ∈ M.segments) (hc : s.Contains mpa)
    {uva : BitVec 64} (hd : s.backing = .mmap uva) :
    s.Inside mpa w ∧ uva.toNat + s.offset mpa < 2 ^ P.width := by
  have hin : s.Inside mpa w := by
    by_contra hout
    obtain ⟨hload, -⟩ := (h ⟨fun _ => 0, default⟩ 0).2 (not_inside_of_contains hs hc hout)
    rw [(access_mmap hs hc hd w _ 0).1] at hload
    cases hload
  refine ⟨hin, ?_⟩
  by_contra hge
  have hlt := Nat.mod_lt (uva.toNat + s.offset mpa) (Nat.two_pow_pos P.width)
  have hne : uva.toNat + s.offset mpa ≠ (uva.toNat + s.offset mpa) % 2 ^ P.width := by omega
  obtain ⟨m, hm⟩ := exists_read_ne hne w
  obtain ⟨⟨r, hbytes, hload⟩, -⟩ := (h ⟨m, default⟩ 0).1 s hs hin
  rw [(access_mmap hs hc hd w _ 0).1, ← hbytes, MemorySegment.bytesAt, hd] at hload
  exact hm (congrArg Prod.fst (Option.some.inj hload)).symm

theorem Right.device (h : M.Right mpa w) (hs : s ∈ M.segments) (hc : s.Contains mpa)
    {d : Device P δ} (hd : s.backing = .device d) (dev : δ) (val : BitVec 64) :
    (s.Inside mpa w → (d.load w dev (mpa - s.mpa)).isSome = true ∧
        (d.store w dev (mpa - s.mpa) val).isSome = true) ∧
      (¬ s.Inside mpa w → d.load w dev (mpa - s.mpa) = none ∧
        d.store w dev (mpa - s.mpa) val = none) := by
  obtain ⟨hin, hout⟩ := h ⟨fun _ => 0, dev⟩ val
  constructor
  · intro hinside
    obtain ⟨⟨r, hbytes, -⟩, h', hwrite, -⟩ := hin s hs hinside
    rw [MemorySegment.bytesAt, hd] at hbytes
    rw [MemorySegment.writeAt, hd] at hwrite
    obtain ⟨r', hr, -⟩ := Option.map_eq_some_iff.mp hbytes
    obtain ⟨dev', hdev, -⟩ := Option.map_eq_some_iff.mp hwrite
    exact ⟨Option.isSome_of_eq_some hr, Option.isSome_of_eq_some hdev⟩
  · intro hnot
    obtain ⟨hload, hstore⟩ := hout (not_inside_of_contains hs hc hnot)
    obtain ⟨hl, hs'⟩ := access_device hs hc hd w ⟨fun _ => 0, dev⟩ val
    rw [hl, MemorySegment.bytesAt, hd] at hload
    rw [hs', MemorySegment.writeAt, hd] at hstore
    exact ⟨Option.map_eq_none_iff.mp hload, Option.map_eq_none_iff.mp hstore⟩

theorem Right.safe [Inhabited δ] (h : M.Right mpa w) : M.Safe mpa w := by
  intro s hs hc
  cases hd : s.backing with
  | mmap uva => exact h.mmap hs hc hd
  | device d =>
    by_cases hin : s.Inside mpa w
    · exact .inl ⟨hin, fun dev val => (h.device hs hc hd dev val).1 hin⟩
    · exact .inr ⟨hin, fun dev val => (h.device hs hc hd dev val).2 hin⟩

theorem Safe.inside (h : M.Safe mpa w) (hs : s ∈ M.segments) (hin : s.Inside mpa w)
    (host : HostState δ) (val : BitVec 64) :
    (∃ r, s.bytesAt mpa w host = some r ∧ M.load w host mpa = some r) ∧
      ∃ h', s.writeAt mpa w host val = some h' ∧ M.store w host mpa val = some h' := by
  have hc := hin.contains
  have hsafe := h s hs hc
  cases hd : s.backing with
  | mmap uva =>
    rw [hd] at hsafe
    obtain ⟨hload, hstore⟩ := access_mmap hs hc hd w host val
    rw [hload, hstore, Nat.mod_eq_of_lt hsafe.2, MemorySegment.bytesAt, MemorySegment.writeAt, hd]
    exact ⟨⟨_, rfl, rfl⟩, _, rfl, rfl⟩
  | device d =>
    rw [hd] at hsafe
    obtain ⟨hload, hstore⟩ := access_device hs hc hd w host val
    rw [hload, hstore]
    rcases hsafe with ⟨-, hsome⟩ | ⟨hout, -⟩
    · obtain ⟨hl, hst⟩ := hsome host.dev val
      obtain ⟨r, hr⟩ := Option.isSome_iff_exists.mp hl
      obtain ⟨dev, hdev⟩ := Option.isSome_iff_exists.mp hst
      rw [MemorySegment.bytesAt, MemorySegment.writeAt, hd]
      dsimp only
      rw [hr, hdev]
      exact ⟨⟨_, rfl, rfl⟩, _, rfl, rfl⟩
    · exact absurd hin hout

theorem Safe.outside (h : M.Safe mpa w) (hout : ∀ s ∈ M.segments, ¬ s.Inside mpa w)
    (host : HostState δ) (val : BitVec 64) :
    M.load w host mpa = none ∧ M.store w host mpa val = none := by
  by_cases hc : ∃ s ∈ M.segments, s.Contains mpa
  · obtain ⟨s, hs, hc⟩ := hc
    have hsafe := h s hs hc
    cases hd : s.backing with
    | mmap uva =>
      rw [hd] at hsafe
      exact absurd hsafe.1 (hout s hs)
    | device d =>
      rw [hd] at hsafe
      rcases hsafe with ⟨hin, -⟩ | ⟨-, hnone⟩
      · exact absurd hin (hout s hs)
      · obtain ⟨hload, hstore⟩ := access_device hs hc hd w host val
        obtain ⟨hl, hst⟩ := hnone host.dev val
        rw [hload, hstore, MemorySegment.bytesAt, MemorySegment.writeAt, hd]
        dsimp only
        rw [hl, hst]
        exact ⟨rfl, rfl⟩
  · have hnone := mpa_to_uva_eq_none (fun s hs hcs => hc ⟨s, hs, hcs⟩)
    rw [load, store, hnone]
    exact ⟨rfl, rfl⟩

end UserMemory

/-- One page of memory at 0x80000000. -/
def pageMemory : UserMemory param_rv64 Unit :=
  ⟨[⟨0x80000000, 0x1000, .mmap 0x10000000, by decide, by decide, by decide⟩],
    List.pairwise_singleton _ _⟩

end RvCkpt.Mmu
