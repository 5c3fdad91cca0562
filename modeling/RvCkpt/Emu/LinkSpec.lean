import RvCkpt.Emu.RelocateSpec

/-! # Linked pairs

Programs whose relocations are high parts at `auipc` instructions and low parts that refer to
these: which address a pair forms after `link`.
-/

namespace RvCkpt.Emu.Linking
open Asm ByteMem Isa Relocation
set_option autoImplicit false

/-! ## Programs -/

def IsHigh (r : Reloc) : Prop := r.rela_type = .R_RISCV_PCREL_HI20

def IsLow (r : Reloc) : Prop :=
  r.rela_type = .R_RISCV_PCREL_LO12_I ∨ r.rela_type = .R_RISCV_PCREL_LO12_S

/-- A high part of a symbol, at an `auipc`. -/
structure HighSite (a : Assembler) (r : Reloc) : Prop where
  kind : IsHigh r
  instruction : ∃ dec, decoded a r.offset = some (dec, 4) ∧ takes r.rela_type dec.op = true
  symbol : ∃ label, a.lookup_label r r.name = some label ∧ (a.symbol_offset label).isSome

/-- A low part, whose label marks a high part. -/
structure LowSite (a : Assembler) (r : Reloc) : Prop where
  kind : IsLow r
  instruction : ∃ dec, decoded a r.offset = some (dec, 4) ∧ takes r.rela_type dec.op = true
  label : ∃ label hi, a.lookup_label r r.name = some label ∧
    a.relocs_byoffset.get? label.offset = some hi ∧ IsHigh hi

/-- The relocations are sites that do not overlap. -/
structure Linkable (a : Assembler) : Prop where
  offset : ∀ {k r}, a.relocs_byoffset.get? k = some r → r.offset = k
  site : ∀ {k r}, a.relocs_byoffset.get? k = some r → HighSite a r ∨ LowSite a r
  apart : ∀ {k r k' r'}, a.relocs_byoffset.get? k = some r →
    a.relocs_byoffset.get? k' = some r' → k ≠ k' → Apart k 4 k' 4

structure Program where
  a : Assembler
  linkable : Linkable a

/-- A low part with the high part that it refers to. -/
structure Pair (a : Assembler) where
  hi : Reloc
  lo : Reloc
  mark : Label
  symbol : Label
  hi_mem : a.relocs_byoffset.get? mark.offset = some hi
  lo_mem : a.relocs_byoffset.get? lo.offset = some lo
  hi_kind : IsHigh hi
  lo_kind : IsLow lo
  mark_eq : a.lookup_label lo lo.name = some mark
  symbol_eq : a.lookup_label hi hi.name = some symbol

/-- The address that the pair forms in `a'` is the address of its symbol there. -/
def Formed {a : Assembler} (a' : Assembler) (pair : Pair a) : Prop :=
  ∃ pc target auipc low n m, a'.reloc_offset pair.hi = some pc ∧
    a'.symbol_offset pair.symbol = some target ∧
    decoded a' pair.hi.offset = some (auipc, n) ∧ auipc.op = .auipc ∧
    decoded a' pair.lo.offset = some (low, m) ∧ takes pair.lo.rela_type low.op = true ∧
      pc + sx auipc.imm + sx low.imm = target

/-- Linking gives all pairs the addresses of their symbols. -/
def Right (p : Program) : Prop := ∃ a', p.a.link = some a' ∧ ∀ pair : Pair p.a, Formed a' pair

/-! ## What the tables say before the loop -/

/-- The sections at their final addresses. -/
def placed (a : Assembler) : Assembler := { a with sections := Assembler.place 0 a.sections }

/-- The entry of a relocation after it was applied. -/
def resolved (b : Assembler) (r : Reloc) : Reloc :=
  { r with name := ((b.lookup_label r r.name).map Label.name).getD r.name }

/-- The entry that the relocation `r` finds: those up to itself have been applied. -/
def entryAt (b : Assembler) (r ri : Reloc) : Reloc :=
  if ri.offset ≤ r.offset then resolved b ri else ri

/-- `pcrel_distance` of the relocation in the loop. -/
def distance (b : Assembler) (r : Reloc) (label_off : BitVec 64) :
    Option (Option (BitVec 64)) :=
  match b.relocs_byoffset.get? (section_offset r.offset.sec label_off.toNat) with
  | none => some none
  | some ri => do
    let pc ← b.reloc_offset ri
    match b.lookup_name (entryAt b r ri).name with
    | none => some none
    | some symbol => do
      let off ← b.label_offset symbol
      some (some (off - pc))

/-- The immediate that a low part ends up with: its own, where no relocation is found. -/
def lowImm (b : Assembler) (r : Reloc) : Option (BitVec 32) := do
  let label ← b.lookup_label r r.name
  let off ← b.symbol_offset label
  match ← distance b r off with
  | some d => some (lower d)
  | none => (decoded b r.offset).map fun i => i.1.imm

/-- The distance from a high part to its symbol. -/
def highDistance (b : Assembler) (r : Reloc) : Option (BitVec 64) := do
  let label ← b.lookup_label r r.name
  let target ← b.symbol_offset label
  let pc ← b.reloc_offset r
  some (target - pc)

/-- When linking is right: the distance of each pair is in reach of its high part, and the low part
ends up with the low part of the same distance. -/
def Meets (p : Program) : Prop :=
  ∀ pair : Pair p.a, ∃ d, highDistance (placed p.a) pair.hi = some d ∧
    Signed 32 12 (hi20 d) ∧ lowImm (placed p.a) pair.lo = some (lower d)

/-! ## What a relocation leaves as it was -/

/-- A step that writes at most the four bytes at an offset. -/
structure Keeps (a a' : Assembler) (k : SectionOffset) : Prop where
  byname : a'.labels_byname = a.labels_byname
  byoffset : a'.labels_byoffset = a.labels_byoffset
  relocs : a'.relocs_byoffset = a.relocs_byoffset
  address : ∀ k', a'.address k' = a.address k'
  fetch : ∀ {k' inst n}, a.inst_fetch k' = some (inst, n) → Apart k 4 k' (max 4 n) →
    a'.inst_fetch k' = some (inst, n)

theorem Keeps.refl (a : Assembler) (k : SectionOffset) : Keeps a a k :=
  ⟨rfl, rfl, rfl, fun _ => rfl, fun h _ => h⟩

theorem keeps_store {a a' : Assembler} {k : SectionOffset} {n : ℕ} {x : BitVec 64} (hn : n ≤ 4)
    (h : a.store k n x = some a') : Keeps a a' k := by
  have hfetch : ∀ {k' inst m}, a.inst_fetch k' = some (inst, m) → Apart k 4 k' (max 4 m) →
      a'.inst_fetch k' = some (inst, m) := by
    intro k' inst m hfetch hapart
    refine inst_fetch_store h hfetch ?_
    rcases hapart with hsec | hbefore | hbehind
    · exact .inl hsec
    · exact .inr (.inl (by omega))
    · exact .inr (.inr hbehind)
  obtain ⟨s, hs, -, rfl⟩ := store_eq_some.mp h
  refine ⟨rfl, rfl, rfl, fun k' => ?_, hfetch⟩
  simp only [Assembler.address]
  by_cases hsec : k.sec = k'.sec
  · rw [← hsec, List.getElem?_set_self (List.getElem?_eq_some_iff.mp hs).1, hs]
    rfl
  · rw [List.getElem?_set_ne hsec]

theorem keeps_reencode {a a' : Assembler} {k : SectionOffset} {dec : Asm.Decode}
    (h : a.reencode_inst dec k = some a') : Keeps a a' k := by
  unfold Assembler.reencode_inst at h
  split at h
  · cases h
  · split at h
    · exact keeps_store (by decide) h
    · exact keeps_store le_rfl h
    · cases h
      exact Keeps.refl a k

theorem lookup_label_congr {a a' : Assembler} (hname : a'.labels_byname = a.labels_byname)
    (hoffset : a'.labels_byoffset = a.labels_byoffset) (r : Reloc) (name : List Char) :
    a'.lookup_label r name = a.lookup_label r name := by
  simp only [Assembler.lookup_label, Assembler.lookup_label_f, Assembler.lookup_label_b,
    Assembler.lookup_name, hname, hoffset]

theorem symbol_offset_congr {a a' : Assembler} (h : ∀ k, a'.address k = a.address k)
    (label : Label) : a'.symbol_offset label = a.symbol_offset label := by
  simp only [Assembler.symbol_offset, Assembler.label_offset, h]

/-! ## The loop -/

/-- The keys that the loop still goes over: all those behind the ones that it has seen. -/
structure Rest (b : Assembler) (ks : List SectionOffset) : Prop where
  sorted : ks.Pairwise (· < ·)
  known : ∀ k ∈ ks, (b.relocs_byoffset.get? k).isSome
  seen : ∀ {k r}, b.relocs_byoffset.get? k = some r → k ∉ ks → ∀ k' ∈ ks, k < k'

theorem Rest.tail {b : Assembler} {k : SectionOffset} {ks : List SectionOffset}
    (h : Rest b (k :: ks)) : Rest b ks := by
  obtain ⟨hfirst, hrest⟩ := List.pairwise_cons.mp h.sorted
  refine ⟨hrest, fun k' hk' => h.known k' (List.mem_cons_of_mem k hk'), ?_⟩
  intro K r hK hnot k' hk'
  by_cases heq : K = k
  · rw [heq]
    exact hfirst k' hk'
  · refine h.seen hK ?_ k' (List.mem_cons_of_mem k hk')
    simp [heq, hnot]

theorem Rest.all (b : Assembler) : Rest b (b.relocs_byoffset.entries.map Prod.fst) := by
  refine ⟨List.pairwise_map.mpr b.relocs_byoffset.sorted, fun k hk => ?_, fun {k r} hk hnot => ?_⟩
  · obtain ⟨e, he, rfl⟩ := List.mem_map.mp hk
    rw [(b.relocs_byoffset.get?_eq_some_iff).mpr he]
    rfl
  · have hmem := (b.relocs_byoffset.get?_eq_some_iff).mp hk
    exact absurd (List.mem_map_of_mem hmem) hnot

/-- What a relocation that was applied has left at its site. -/
structure Done (b c : Assembler) (r : Reloc) : Prop where
  high : IsHigh r → ∀ {dec d}, decoded b r.offset = some (dec, 4) → highDistance b r = some d →
    Signed 32 12 (hi20 d) → decoded c r.offset = some ({ dec with imm := upper d }, 4)
  low : IsLow r → ∀ {dec}, decoded b r.offset = some (dec, 4) →
    ∃ imm, lowImm b r = some imm ∧ decoded c r.offset = some ({ dec with imm := imm }, 4)

/-- The state of the loop while the keys `ks` are left. -/
structure Inv (b c : Assembler) (ks : List SectionOffset) : Prop where
  byname : c.labels_byname = b.labels_byname
  byoffset : c.labels_byoffset = b.labels_byoffset
  address : ∀ k, c.address k = b.address k
  relocs : ∀ k, c.relocs_byoffset.get? k =
    (b.relocs_byoffset.get? k).map fun r => if k ∈ ks then r else resolved b r
  waiting : ∀ k ∈ ks, c.inst_fetch k = b.inst_fetch k
  done : ∀ {k r}, b.relocs_byoffset.get? k = some r → k ∉ ks → Done b c r

section
variable {b c c' : Assembler} {k : SectionOffset} {ks : List SectionOffset} {r : Reloc}

theorem Inv.all (b : Assembler) : Inv b b (b.relocs_byoffset.entries.map Prod.fst) := by
  refine ⟨rfl, rfl, fun _ => rfl, fun k => ?_, fun _ _ => rfl, fun {k r} hk hnot => ?_⟩
  · cases hk : b.relocs_byoffset.get? k with
    | none => rfl
    | some r =>
      have hmem := (b.relocs_byoffset.get?_eq_some_iff).mp hk
      rw [Option.map_some, if_pos (List.mem_map_of_mem hmem)]
  · have hmem := (b.relocs_byoffset.get?_eq_some_iff).mp hk
    exact absurd (List.mem_map_of_mem hmem) hnot

/-- A site of four bytes as the loop finds it. -/
theorem decoded_fetch {dec : Isa.Decode} (h : decoded b k = some (dec, 4)) :
    ∃ inst, b.inst_fetch k = some (inst, 4) ∧ ofDecode (decode_inst_rv64 inst) = dec := by
  obtain ⟨⟨inst, n⟩, hfetch, heq⟩ := Option.map_eq_some_iff.mp h
  obtain ⟨hdec, rfl⟩ := Prod.mk.inj heq
  exact ⟨inst, hfetch, hdec⟩

theorem exists_address {dec : Isa.Decode} (h : decoded b k = some (dec, 4)) :
    ∃ pc, b.address k = some pc := by
  obtain ⟨inst, hfetch, -⟩ := decoded_fetch h
  obtain ⟨s, hs, -⟩ := inst_fetch_eq_some.mp hfetch
  exact ⟨_, congrArg (Option.map _) hs⟩

theorem Keeps.decoded (h : Keeps c c' k) {k' : SectionOffset} {dec : Isa.Decode}
    (hdec : decoded c k' = some (dec, 4)) (hapart : Apart k 4 k' 4) :
    Emu.decoded c' k' = some (dec, 4) := by
  obtain ⟨inst, hfetch, rfl⟩ := decoded_fetch hdec
  rw [Emu.decoded, h.fetch hfetch hapart]
  rfl

theorem Linkable.decoded (hb : Linkable b) (hr : b.relocs_byoffset.get? k = some r) :
    ∃ dec, Emu.decoded b r.offset = some (dec, 4) ∧ takes r.rela_type dec.op = true := by
  rcases hb.site hr with h | h
  · exact h.instruction
  · exact h.instruction

theorem resolved_eq {label : Label} (h : b.lookup_label r r.name = some label) :
    resolved b r = { r with name := label.name } := by
  rw [resolved, h]
  rfl

/-- The relocation at the front has renamed its entry and written its site. -/
theorem Inv.advance (hb : Linkable b) (hrest : Rest b (k :: ks)) (h : Inv b c (k :: ks))
    (hr : b.relocs_byoffset.get? k = some r) {label : Label}
    (hlabel : b.lookup_label r r.name = some label)
    (hkeeps : Keeps (c.rename r label.name) c' k) (hown : Done b c' r) : Inv b c' ks := by
  have hnot : k ∉ ks := fun hk =>
    lt_irrefl k ((List.pairwise_cons.mp hrest.sorted).1 k hk)
  refine ⟨hkeeps.byname.trans h.byname, hkeeps.byoffset.trans h.byoffset,
    fun k' => (hkeeps.address k').trans (h.address k'), fun k' => ?_, fun k' hk' => ?_,
    fun {k' r'} hr' hk' => ?_⟩
  · rw [hkeeps.relocs, Assembler.rename, ← resolved_eq hlabel, hb.offset hr,
      OrderedMap.get?_insert]
    by_cases heq : k' = k
    · rw [if_pos heq, heq, hr, Option.map_some, if_neg hnot]
    · rw [if_neg heq, h.relocs]
      simp [heq]
  · have hne : k ≠ k' := fun heq => hnot (heq ▸ hk')
    obtain ⟨r', hr'⟩ := Option.isSome_iff_exists.mp (hrest.known k' (List.mem_cons_of_mem k hk'))
    obtain ⟨dec, hdec, -⟩ := hb.decoded hr'
    rw [hb.offset hr'] at hdec
    obtain ⟨inst, hfetch, -⟩ := decoded_fetch hdec
    have hsame := h.waiting k' (List.mem_cons_of_mem k hk')
    rw [hfetch]
    exact hkeeps.fetch (hsame.trans hfetch) (hb.apart hr hr' hne)
  · by_cases heq : k' = k
    · rw [heq, hr] at hr'
      cases hr'
      exact hown
    · have hdone := h.done hr' (by simp [heq, hk'])
      have hapart : Apart k 4 r'.offset 4 := by
        rw [hb.offset hr']
        exact hb.apart hr hr' (Ne.symm heq)
      refine ⟨fun hhigh {dec d} hdec hd hfits => ?_, fun hlow {dec} hdec => ?_⟩
      · exact hkeeps.decoded (hdone.high hhigh hdec hd hfits) hapart
      · obtain ⟨imm, himm, hdec'⟩ := hdone.low hlow hdec
        exact ⟨imm, himm, hkeeps.decoded hdec' hapart⟩

/-! ## One relocation -/

theorem forms_asserts :
    (Op.all.all fun op => !forms (execCase op) || (rv_inst_codec op).asserts.isEmpty) = true := by
  decide +kernel

/-- Encoding never fails at a site, whether the immediate fits or not. -/
theorem exists_reencode {a : Assembler} {k : SectionOffset} {inst : BitVec 64} {n : ℕ}
    (hfetch : a.inst_fetch k = some (inst, n))
    (hforms : forms (execCase (decode_inst_rv64 inst).op) = true) (imm : BitVec 32) :
    ∃ a', a.reencode_inst { decode_inst_rv64 inst with imm := imm } k = some a' := by
  obtain ⟨s, hs, -, hle⟩ := inst_fetch_eq_some.mp hfetch
  have hstore : ∀ m ≤ 4, ∀ x, ∃ a', a.store k m x = some a' := fun m hm x =>
    ⟨_, store_eq_some.mpr ⟨s, hs, by omega, rfl⟩⟩
  have htable := List.all_eq_true.mp forms_asserts _ (decode_inst_rv64 inst).op.mem_all
  rw [hforms, Bool.not_true, Bool.false_or, List.isEmpty_iff] at htable
  have henc : encode_inst { decode_inst_rv64 inst with imm := imm } =
      some ((decode_inst_rv64 inst).op.word { decode_inst_rv64 inst with imm := imm }) := by
    unfold encode_inst
    simp only [htable, List.all_nil, if_true]
    rfl
  simp only [Assembler.reencode_inst, henc]
  split
  · exact hstore 2 (by decide) _
  · exact hstore 4 le_rfl _
  · exact ⟨a, rfl⟩

/-- The site as the loop finds it. -/
theorem Inv.exists_site (hb : Linkable b) (h : Inv b c (k :: ks))
    (hr : b.relocs_byoffset.get? k = some r) {label : Label} {target : BitVec 64}
    (hlabel : b.lookup_label r r.name = some label)
    (htarget : b.symbol_offset label = some target) {dec : Isa.Decode}
    (hdec : decoded b r.offset = some (dec, 4)) (htakes : takes r.rela_type dec.op = true) :
    ∃ site : Site c r, site.label = label ∧ site.target = target ∧ site.dec = dec ∧
      b.reloc_offset r = some site.pc := by
  obtain ⟨pc, hpc⟩ := exists_address hdec
  refine ⟨⟨label, target, pc, dec, 4, ?_, ?_, (h.address r.offset).trans hpc, ?_, htakes⟩, rfl, rfl,
    rfl, hpc⟩
  · rw [lookup_label_congr h.byname h.byoffset, hlabel]
  · rw [symbol_offset_congr h.address, htarget]
  · have hsame := h.waiting k List.mem_cons_self
    rw [← hb.offset hr] at hsame
    rw [Emu.decoded, hsame]
    exact hdec

/-- A site that gets a new immediate. -/
theorem Inv.step_site (hb : Linkable b) (hrest : Rest b (k :: ks)) (h : Inv b c (k :: ks))
    (hr : b.relocs_byoffset.get? k = some r) (site : Site c r)
    (hlabel : b.lookup_label r r.name = some site.label) (hcall : r.rela_type ≠ .R_RISCV_CALL)
    {imm : BitVec 32} (himm : site.newImm = some imm)
    (hown : ∀ c', (ImmFits site.dec.op (sx imm) →
      Emu.decoded c' r.offset = some ({ site.dec with imm := imm }, 4)) → Done b c' r) :
    ∃ c', c.relocate r = some (c', true) ∧ Inv b c' ks := by
  obtain ⟨inst, hfetch, hdec⟩ := site.exists_inst
  have hop : execCase (decode_inst_rv64 inst).op = site.dec.op := congrArg Isa.Decode.op hdec
  have hsame : (c.rename r site.label.name).inst_fetch r.offset = some (inst, site.length) := hfetch
  obtain ⟨c', hreencode⟩ := exists_reencode hsame (hop ▸ site.forms) imm
  have hkeeps := keeps_reencode hreencode
  rw [hb.offset hr] at hkeeps
  refine ⟨c', ?_, h.advance hb hrest hr hlabel hkeeps (hown c' fun hfits => ?_)⟩
  · rw [site.relocate_eq hfetch himm hcall, hreencode, Option.map_some]
  · obtain ⟨a', word, henc, -, hdecoded⟩ :=
      reencode_patched hsame (hop ▸ site.forms) imm (by rwa [hop])
    obtain rfl := Option.some.inj (hreencode.symm.trans henc)
    rw [hdecoded, hdec]

theorem Inv.step_high (hb : Linkable b) (hrest : Rest b (k :: ks)) (h : Inv b c (k :: ks))
    (hr : b.relocs_byoffset.get? k = some r) (hsite : HighSite b r) :
    ∃ c', c.relocate r = some (c', true) ∧ Inv b c' ks := by
  have hkind : r.rela_type = .R_RISCV_PCREL_HI20 := hsite.kind
  obtain ⟨dec, hdec, htakes⟩ := hsite.instruction
  obtain ⟨label, hlabel, hsome⟩ := hsite.symbol
  obtain ⟨target, htarget⟩ := Option.isSome_iff_exists.mp hsome
  obtain ⟨site, rfl, rfl, rfl, hpc⟩ := h.exists_site hb hr hlabel htarget hdec htakes
  have himm : site.newImm = some (upper (site.target - site.pc)) := by
    unfold Site.newImm
    rw [hkind]
  refine h.step_site hb hrest hr site hlabel (by rw [hkind]; decide) himm fun c' hown => ?_
  refine ⟨fun _ {dec d} hdec' hd hfits => ?_, fun hlow => ?_⟩
  · obtain ⟨rfl, -⟩ := Prod.mk.inj (Option.some.inj (hdec.symm.trans hdec'))
    rw [highDistance, hlabel, Option.bind_eq_bind, Option.bind_some, htarget,
      Option.bind_eq_bind, Option.bind_some, hpc] at hd
    obtain rfl := Option.some.inj hd
    rw [hkind] at htakes
    apply hown
    rw [takes_pcrel_hi20 htakes, (sx_upper _).mpr hfits]
    exact hfits
  · rcases hlow with hlow | hlow <;> cases hkind.symm.trans hlow

/-- The entries that a low part finds in the loop. -/
theorem Inv.entries (hb : Linkable b) (hrest : Rest b (k :: ks)) (h : Inv b c (k :: ks))
    (hr : b.relocs_byoffset.get? k = some r) {label : Label}
    (hlabel : b.lookup_label r r.name = some label) (K : SectionOffset) :
    (c.rename r label.name).relocs_byoffset.get? K =
      (b.relocs_byoffset.get? K).map (entryAt b r) := by
  rw [Assembler.rename, ← resolved_eq hlabel, hb.offset hr, OrderedMap.get?_insert]
  by_cases heq : K = k
  · rw [if_pos heq, heq, hr, Option.map_some, entryAt, if_pos le_rfl]
  · rw [if_neg heq, h.relocs]
    cases hK : b.relocs_byoffset.get? K with
    | none => rfl
    | some ri =>
      rw [Option.map_some, Option.map_some, entryAt, hb.offset hK, hb.offset hr]
      by_cases hmem : K ∈ k :: ks
      · have hlt : k < K := (List.pairwise_cons.mp hrest.sorted).1 K
          ((List.mem_cons.mp hmem).resolve_left heq)
        rw [if_pos hmem, if_neg (not_le.mpr hlt)]
      · have hlt : K < k := hrest.seen hK hmem k List.mem_cons_self
        rw [if_neg hmem, if_pos hlt.le]

theorem entryAt_offset (b : Assembler) (r ri : Reloc) : (entryAt b r ri).offset = ri.offset := by
  unfold entryAt
  split <;> rfl

theorem Inv.pcrel_distance (hb : Linkable b) (hrest : Rest b (k :: ks)) (h : Inv b c (k :: ks))
    (hr : b.relocs_byoffset.get? k = some r) {label : Label}
    (hlabel : b.lookup_label r r.name = some label) (off : BitVec 64) :
    (c.rename r label.name).pcrel_distance r off = distance b r off := by
  have haddress : ∀ K, (c.rename r label.name).address K = b.address K := h.address
  have hname : ∀ name, (c.rename r label.name).lookup_name name = b.lookup_name name :=
    fun name => congrArg (List.lookup name) h.byname
  simp only [Assembler.pcrel_distance, distance, h.entries hb hrest hr hlabel,
    Assembler.reloc_offset, Assembler.label_offset, haddress, hname]
  cases b.relocs_byoffset.get? (section_offset r.offset.sec off.toNat) with
  | none => rfl
  | some ri =>
    simp only [Option.map_some, entryAt_offset] <;> rfl

theorem lowImm_eq {label : Label} {off : BitVec 64} {dec : Isa.Decode}
    (hlabel : b.lookup_label r r.name = some label) (hoff : b.symbol_offset label = some off)
    (hdec : decoded b r.offset = some (dec, 4)) :
    lowImm b r = (distance b r off).map fun found => (found.map lower).getD dec.imm := by
  simp only [lowImm, hlabel, hoff, hdec, Option.bind_eq_bind, Option.bind_some, Option.map_some]
  rcases distance b r off with _ | _ | d <;> rfl

/-- A low part is applied, or rejected with its instruction left alone. -/
theorem Inv.step_low (hb : Linkable b) (hrest : Rest b (k :: ks)) (h : Inv b c (k :: ks))
    (hr : b.relocs_byoffset.get? k = some r) (hsite : LowSite b r) :
    ((lowImm b r).isSome → ∃ c' ok, c.relocate r = some (c', ok) ∧ Inv b c' ks) ∧
      (lowImm b r = none → c.relocate r = none) := by
  have hkind := hsite.kind
  have hnot : ¬ IsHigh r := by
    intro hhigh
    rcases hkind with hlow | hlow <;> cases hlow.symm.trans hhigh
  obtain ⟨dec, hdec, htakes⟩ := hsite.instruction
  obtain ⟨label, hi, hlabel, hmem, -⟩ := hsite.label
  obtain ⟨hidec, hdecoded, -⟩ := hb.decoded hmem
  rw [hb.offset hmem] at hdecoded
  have htarget : ∃ off, b.symbol_offset label = some off := by
    unfold Assembler.symbol_offset
    split
    · exact ⟨_, rfl⟩
    · exact exists_address hdecoded
  obtain ⟨off, hoff⟩ := htarget
  obtain ⟨site, rfl, rfl, rfl, hpc⟩ := h.exists_site hb hr hlabel hoff hdec htakes
  have hdistance := h.pcrel_distance hb hrest hr hlabel site.target
  rw [lowImm_eq hlabel hoff hdec]
  cases hfound : distance b r site.target with
  | none =>
    rw [hfound] at hdistance
    refine ⟨nofun, fun _ => ?_⟩
    obtain ⟨inst', hfetch', -⟩ := site.exists_inst
    rw [relocate_low hkind site.lookup site.symbol_offset hfetch', hdistance]
    rfl
  | some found =>
    rw [hfound] at hdistance
    refine ⟨fun _ => ?_, nofun⟩
    cases found with
    | none =>
      obtain ⟨inst', hfetch', -⟩ := site.exists_inst
      refine ⟨c.rename r site.label.name, false, ?_,
        h.advance hb hrest hr hlabel (Keeps.refl _ k) ⟨fun hhigh => ?_, fun _ {dec} hdec' => ?_⟩⟩
      · rw [relocate_low hkind site.lookup site.symbol_offset hfetch', hdistance]
        rfl
      · exact absurd hhigh hnot
      · obtain ⟨rfl, -⟩ := Prod.mk.inj (Option.some.inj (hdec.symm.trans hdec'))
        refine ⟨site.dec.imm, ?_, ?_⟩
        · rw [lowImm_eq hlabel hoff hdec, hfound]
          rfl
        · have hsame := h.waiting k List.mem_cons_self
          rw [← hb.offset hr] at hsame
          exact (congrArg (Option.map _) hsame).trans hdec
    | some d =>
      have hcall : r.rela_type ≠ .R_RISCV_CALL := by
        rcases hkind with h | h <;> rw [h] <;> decide
      have hfits := (site.low_points (isLow_of_pcrel hkind) 0 d rfl).1
      have hown : ∀ c', (ImmFits site.dec.op (sx (lower d)) →
          decoded c' r.offset = some ({ site.dec with imm := lower d }, 4)) → Done b c' r := by
        intro c' hdecoded'
        refine ⟨fun hhigh => absurd hhigh hnot, fun _ {dec} hdec' => ⟨lower d, ?_, ?_⟩⟩
        · rw [lowImm_eq hlabel hoff hdec, hfound]
          rfl
        · obtain ⟨rfl, -⟩ := Prod.mk.inj (Option.some.inj (hdec.symm.trans hdec'))
          exact hdecoded' hfits
      obtain ⟨c', hrel, hinv⟩ :=
        h.step_site hb hrest hr site hlabel hcall (site.newImm_low hkind hdistance) hown
      exact ⟨c', true, hrel, hinv⟩

/-! ## The run -/

theorem Inv.step (hb : Linkable b) (hrest : Rest b (k :: ks)) (h : Inv b c (k :: ks))
    (hr : b.relocs_byoffset.get? k = some r) :
    ((IsLow r → (lowImm b r).isSome) → ∃ c' ok, c.relocate r = some (c', ok) ∧ Inv b c' ks) ∧
      ((c.relocate r).isSome → IsLow r → (lowImm b r).isSome) := by
  rcases hb.site hr with hsite | hsite
  · obtain ⟨c', hrel, hinv⟩ := h.step_high hb hrest hr hsite
    have hhigh : r.rela_type = .R_RISCV_PCREL_HI20 := hsite.kind
    refine ⟨fun _ => ⟨c', true, hrel, hinv⟩, fun _ hlow => ?_⟩
    rcases hlow with hlow | hlow <;> cases hhigh.symm.trans hlow
  · obtain ⟨hsome, hnone⟩ := h.step_low hb hrest hr hsite
    refine ⟨fun hlow => hsome (hlow hsite.kind), fun hrel _ => ?_⟩
    by_contra hnot
    rw [hnone (Option.not_isSome_iff_eq_none.mp hnot)] at hrel
    cases hrel

theorem Inv.front (hrest : Rest b (k :: ks)) (h : Inv b c (k :: ks)) :
    ∃ r, b.relocs_byoffset.get? k = some r ∧ c.relocs_byoffset.get? k = some r := by
  obtain ⟨r, hr⟩ := Option.isSome_iff_exists.mp (hrest.known k List.mem_cons_self)
  refine ⟨r, hr, ?_⟩
  rw [h.relocs, hr, Option.map_some, if_pos List.mem_cons_self]

/-- The loop goes through if each low part either finds no relocation or one with an address. -/
theorem Inv.run (hb : Linkable b) (hrest : Rest b ks) (h : Inv b c ks)
    (hlow : ∀ k ∈ ks, ∀ r, b.relocs_byoffset.get? k = some r → IsLow r → (lowImm b r).isSome) :
    ∃ c', relocateAll c ks = some c' ∧ Inv b c' [] := by
  induction ks generalizing c with
  | nil => exact ⟨c, rfl, h⟩
  | cons k ks ih =>
    obtain ⟨r, hr, hc⟩ := h.front hrest
    obtain ⟨c₁, ok, hrel, hinv⟩ := (h.step hb hrest hr).1 (hlow k List.mem_cons_self r hr)
    obtain ⟨c', hrun, hdone⟩ := ih hrest.tail hinv fun k' hk' =>
      hlow k' (List.mem_cons_of_mem k hk')
    refine ⟨c', ?_, hdone⟩
    rw [relocateAll, hc]
    simp only [hrel, Option.bind_eq_bind, Option.bind_some, hrun]

theorem Inv.run_defined (hb : Linkable b) (hrest : Rest b ks) (h : Inv b c ks) {c' : Assembler}
    (hrun : relocateAll c ks = some c') :
    ∀ k ∈ ks, ∀ r, b.relocs_byoffset.get? k = some r → IsLow r → (lowImm b r).isSome := by
  induction ks generalizing c with
  | nil => exact fun k hk => absurd hk List.not_mem_nil
  | cons k ks ih =>
    obtain ⟨r, hr, hc⟩ := h.front hrest
    rw [relocateAll, hc] at hrun
    simp only [Option.bind_eq_bind, Option.bind_eq_some_iff] at hrun
    obtain ⟨⟨c₁, ok⟩, hrel, hrun⟩ := hrun
    obtain ⟨hstep, hdefined⟩ := h.step hb hrest hr
    have hlow := hdefined (by rw [hrel]; rfl)
    obtain ⟨c₂, ok', hrel', hinv⟩ := hstep hlow
    obtain ⟨rfl, -⟩ := Prod.mk.inj (Option.some.inj (hrel.symm.trans hrel'))
    intro k' hk' r' hr'
    rcases List.mem_cons.mp hk' with rfl | hk'
    · rw [hr] at hr'
      cases hr'
      exact hlow
    · exact ih hrest.tail hinv hrun k' hk' r' hr'

/-! ## What a pair forms -/

theorem Linkable.high (hb : Linkable b) (hr : b.relocs_byoffset.get? k = some r)
    (hkind : IsHigh r) : HighSite b r := by
  refine (hb.site hr).resolve_right fun hlow => ?_
  rcases hlow.kind with h | h <;> cases h.symm.trans hkind

theorem Linkable.low (hb : Linkable b) (hr : b.relocs_byoffset.get? k = some r)
    (hkind : IsLow r) : LowSite b r := by
  refine (hb.site hr).resolve_left fun hhigh => ?_
  rcases hkind with h | h <;> cases h.symm.trans hhigh.kind

/-- The two immediates that add up to a distance are its high and its low part. -/
theorem parts_of_add {high low : BitVec 32} {d : BitVec 64} (hhigh : Signed 32 12 (sx high))
    (hlow : Signed 12 0 (sx low)) (hsum : sx high + sx low = d) :
    sx high = hi20 d ∧ low = lower d := by
  have hhi : hi20 d = sx high := by
    rw [← hsum]
    exact hi20_add hhigh.2.2 hlow.1 hlow.2.1
  refine ⟨hhi.symm, signExtend_inj (by decide) ?_⟩
  show sx low = sx (lower d)
  rw [sx_lower, hhi]
  exact sub_eq_of_add_eq hsum

/-- A high part is at an address, and so is its symbol. -/
theorem HighSite.exists_distance (h : HighSite b r) {symbol : Label}
    (hsymbol : b.lookup_label r r.name = some symbol) :
    ∃ pc target, b.reloc_offset r = some pc ∧ b.symbol_offset symbol = some target ∧
      highDistance b r = some (target - pc) := by
  obtain ⟨label, hlabel, hsome⟩ := h.symbol
  obtain rfl := Option.some.inj (hsymbol.symm.trans hlabel)
  obtain ⟨target, htarget⟩ := Option.isSome_iff_exists.mp hsome
  obtain ⟨dec, hdec, -⟩ := h.instruction
  obtain ⟨pc, hpc⟩ : ∃ pc, b.reloc_offset r = some pc := exists_address hdec
  refine ⟨pc, target, hpc, htarget, ?_⟩
  simp only [highDistance, hlabel, htarget, hpc, Option.bind_eq_bind, Option.bind_some]

/-- After the loop a pair forms the address of its symbol if both instructions have the parts of
the same distance. -/
theorem Inv.formed_iff (hb : Linkable b) (h : Inv b c []) (pair : Pair b) :
    Formed c pair ↔ ∃ d, highDistance b pair.hi = some d ∧ Signed 32 12 (hi20 d) ∧
      lowImm b pair.lo = some (lower d) := by
  have hhigh := hb.high pair.hi_mem pair.hi_kind
  have hlow := hb.low pair.lo_mem pair.lo_kind
  obtain ⟨pc, target, hpc, htarget, hd⟩ := hhigh.exists_distance pair.symbol_eq
  obtain ⟨auipc, hauipc, htakes⟩ := hhigh.instruction
  rw [show pair.hi.rela_type = .R_RISCV_PCREL_HI20 from pair.hi_kind] at htakes
  have hop := takes_pcrel_hi20 htakes
  obtain ⟨low, hdec, hlowTakes⟩ := hlow.instruction
  obtain ⟨-, hfield⟩ := takes_low (isLow_of_pcrel pair.lo_kind) hlowTakes
  obtain ⟨imm, himm, hdone⟩ := (h.done pair.lo_mem List.not_mem_nil).low pair.lo_kind hdec
  have htarget' : c.symbol_offset pair.symbol = some target := by
    rw [symbol_offset_congr h.address, htarget]
  have hpc' : c.reloc_offset pair.hi = some pc := (h.address pair.hi.offset).trans hpc
  constructor
  · rintro ⟨pc', target', high, low', n, m, hpc₁, htarget₁, hhigh', hopHigh, hlow', -, hsum⟩
    obtain rfl := Option.some.inj (hpc'.symm.trans hpc₁)
    obtain rfl := Option.some.inj (htarget'.symm.trans htarget₁)
    obtain ⟨rfl, -⟩ := Prod.mk.inj (Option.some.inj (hdone.symm.trans hlow'))
    have hfitsHigh := immFits_of_decoded hhigh' (by rw [hopHigh]; rfl)
    rw [hopHigh] at hfitsHigh
    have hfitsLow := immFits_of_decoded hdone (forms_of_takes hlowTakes)
    rw [ImmFits, hfield] at hfitsLow
    rw [BitVec.add_assoc] at hsum
    obtain ⟨hpart, rfl⟩ := parts_of_add hfitsHigh hfitsLow (sub_eq_of_add_eq hsum)
    exact ⟨target - pc, hd, hpart ▸ hfitsHigh, himm⟩
  · rintro ⟨d, hd', hfits, himm'⟩
    obtain rfl := Option.some.inj (hd.symm.trans hd')
    obtain rfl := Option.some.inj (himm.symm.trans himm')
    have hdecoded := (h.done pair.hi_mem List.not_mem_nil).high pair.hi_kind hauipc hd hfits
    refine ⟨pc, target, _, _, 4, 4, hpc', htarget', hdecoded, hop, hdone, hlowTakes, ?_⟩
    show pc + sx (upper (target - pc)) + sx (lower (target - pc)) = target
    rw [BitVec.add_assoc, (sx_upper _).mpr hfits, hi20_add_lower, add_sub_self]

end

/-! ## Placing the sections -/

theorem place_getElem? (ss : List Section) (offset : BitVec 64) (i : ℕ) :
    ∃ offset', (Assembler.place offset ss)[i]? =
      ss[i]?.map fun s => { s with offset := offset' } := by
  induction ss generalizing offset i with
  | nil => exact ⟨0, rfl⟩
  | cons s ss ih =>
    cases i with
    | zero => exact ⟨offset, rfl⟩
    | succ i => exact ih (offset + BitVec.ofNat 64 s.size) i

section
variable (a : Assembler)

theorem inst_fetch_placed (k : SectionOffset) : (placed a).inst_fetch k = a.inst_fetch k := by
  obtain ⟨offset, hplace⟩ := place_getElem? a.sections 0 k.sec
  simp only [Assembler.inst_fetch, placed, hplace]
  cases a.sections[k.sec]? <;> rfl

theorem decoded_placed (k : SectionOffset) : decoded (placed a) k = decoded a k :=
  congrArg (Option.map _) (inst_fetch_placed a k)

theorem symbol_offset_placed {label : Label} (h : (a.symbol_offset label).isSome) :
    ((placed a).symbol_offset label).isSome := by
  unfold Assembler.symbol_offset at h ⊢
  split
  · rfl
  · rename_i hsec
    rw [if_neg hsec] at h
    obtain ⟨offset, hplace⟩ := place_getElem? a.sections 0 label.offset.sec
    have hsome : (a.sections[label.offset.sec]?).isSome := by
      rwa [Assembler.label_offset, Assembler.address, Option.isSome_map] at h
    rwa [Assembler.label_offset, Assembler.address, Option.isSome_map, placed, hplace,
      Option.isSome_map]

end

theorem Linkable.placed {a : Assembler} (h : Linkable a) : Linkable (placed a) := by
  refine ⟨h.offset, fun {k r} hr => ?_, h.apart⟩
  rcases h.site hr with hsite | hsite
  · obtain ⟨label, hlabel, hsome⟩ := hsite.symbol
    obtain ⟨dec, hdec⟩ := hsite.instruction
    refine .inl ⟨hsite.kind, ⟨dec, ?_⟩, label, hlabel, symbol_offset_placed a hsome⟩
    rwa [decoded_placed]
  · obtain ⟨dec, hdec⟩ := hsite.instruction
    refine .inr ⟨hsite.kind, ⟨dec, ?_⟩, hsite.label⟩
    rwa [decoded_placed]

/-- The sections' addresses are not part of a pair. -/
def Pair.placed {a : Assembler} (pair : Pair a) : Pair (placed a) :=
  ⟨pair.hi, pair.lo, pair.mark, pair.symbol, pair.hi_mem, pair.lo_mem, pair.hi_kind, pair.lo_kind,
    pair.mark_eq, pair.symbol_eq⟩

/-- Every low part is one of a pair. -/
theorem Linkable.exists_pair {a : Assembler} (h : Linkable a) {k : SectionOffset} {r : Reloc}
    (hr : a.relocs_byoffset.get? k = some r) (hlow : IsLow r) : ∃ pair : Pair a, pair.lo = r := by
  obtain ⟨mark, hi, hmark, hmem, hhigh⟩ := (h.low hr hlow).label
  obtain ⟨symbol, hsymbol, -⟩ := (h.high hmem hhigh).symbol
  have hr' : a.relocs_byoffset.get? r.offset = some r := by rw [h.offset hr, hr]
  exact ⟨⟨hi, r, mark, symbol, hmem, hr', hhigh, hlow, hmark, hsymbol⟩, rfl⟩

/-! ## When linking is right -/

/-- A run of `link` ends with what its relocations have left. -/
theorem inv_of_link (p : Program) {a' : Assembler} (h : p.a.link = some a') :
    Inv (placed p.a) a' [] := by
  have hb := p.linkable.placed
  have hrest := Rest.all (placed p.a)
  have hall := Inv.all (placed p.a)
  obtain ⟨c, hrun, hinv⟩ := hall.run hb hrest (hall.run_defined hb hrest h)
  obtain rfl := Option.some.inj (hrun.symm.trans h)
  exact hinv

theorem link_eq_some (p : Program)
    (hlow : ∀ pair : Pair p.a, (lowImm (placed p.a) pair.lo).isSome) :
    ∃ a', p.a.link = some a' ∧ Inv (placed p.a) a' [] := by
  refine (Inv.all (placed p.a)).run p.linkable.placed (Rest.all (placed p.a)) fun k _ r hr hkind => ?_
  obtain ⟨pair, rfl⟩ := p.linkable.exists_pair hr hkind
  exact hlow pair

theorem meets_of_right {p : Program} (h : Right p) : Meets p := by
  obtain ⟨a', hlink, hformed⟩ := h
  intro pair
  exact ((inv_of_link p hlink).formed_iff p.linkable.placed pair.placed).mp (hformed pair)

theorem right_of_meets {p : Program} (h : Meets p) : Right p := by
  obtain ⟨a', hlink, hinv⟩ := link_eq_some p fun pair => by
    obtain ⟨d, -, -, himm⟩ := h pair
    rw [himm]
    rfl
  exact ⟨a', hlink, fun pair => (hinv.formed_iff p.linkable.placed pair.placed).mpr (h pair)⟩

/-- **When linked pairs form the addresses of their symbols**: every layout, all high parts and all
low parts that refer to them. -/
theorem link_right_iff (p : Program) : Right p ↔ Meets p := ⟨meets_of_right, right_of_meets⟩
/-- What the interpreter does with such a pair: the `auipc` leaves an address, and a low part that
finds it in its register uses the symbol's. A jump would drop the lowest bit of its distance. -/
theorem Formed.uses {a a' : Assembler} {pair : Pair a} (h : Formed a' pair) :
    ∃ pc target auipc low n m mid, a'.reloc_offset pair.hi = some pc ∧
      a'.symbol_offset pair.symbol = some target ∧
      decoded a' pair.hi.offset = some (auipc, n) ∧ decoded a' pair.lo.offset = some (low, m) ∧
      (∀ (s : Machine) (host : Host) (length : BitVec 64), s.pc = pc →
        Uses host auipc s length mid) ∧
      ∀ (s : Machine) (host : Host) (length : BitVec 64), s.ireg low.rs1 = mid → low.op ≠ .jalr →
        Uses host low s length target := by
  obtain ⟨pc, target, auipc, low, n, m, hpc, htarget, hhigh, hop, hlow, htakes, hsum⟩ := h
  obtain ⟨horigin, -⟩ := takes_low (isLow_of_pcrel pair.lo_kind) htakes
  refine ⟨pc, target, auipc, low, n, m, pc + sx auipc.imm, hpc, htarget, hhigh, hlow, ?_, ?_⟩
  · intro s host length hs
    apply uses_of_address
    rw [address, hop, hs]
    rfl
  · intro s host length hs hjalr
    apply uses_of_address
    rw [address, horigin, Option.map_some, land, if_neg hjalr, hs, hsum]

/-! ## The section at the address 0 -/

/-- A pair in a section at the address 0, the low part behind the high part. -/
structure Pair.AtZero {b : Assembler} (pair : Pair b) : Prop where
  base : (b.sections[pair.mark.offset.sec]?).map Section.offset = some 0
  sec : pair.lo.offset.sec = pair.mark.offset.sec
  behind : pair.mark.offset ≤ pair.lo.offset
  lt : pair.mark.offset.offset < 2 ^ 64
  mark_sec : pair.mark.offset.sec ≠ SHN_ABS
  symbol_sec : pair.symbol.offset.sec ≠ SHN_ABS
  symbol_name : b.lookup_name pair.symbol.name = some pair.symbol

section
variable {b : Assembler} {pair : Pair b}

theorem Pair.AtZero.address (h : pair.AtZero) :
    b.address pair.mark.offset = some (BitVec.ofNat 64 pair.mark.offset.offset) := by
  obtain ⟨s, hs, hbase⟩ := Option.map_eq_some_iff.mp h.base
  rw [Assembler.address, hs, Option.map_some, hbase]
  exact congrArg some (BitVec.zero_add _)

theorem Pair.AtZero.reloc_offset (h : pair.AtZero) (hb : Linkable b) :
    b.reloc_offset pair.hi = some (BitVec.ofNat 64 pair.mark.offset.offset) := by
  rw [Assembler.reloc_offset, hb.offset pair.hi_mem, h.address]

/-- Offset and address are the same there, so that the low part finds its high part. -/
theorem Pair.AtZero.distance_eq (h : pair.AtZero) (hb : Linkable b) :
    distance b pair.lo (BitVec.ofNat 64 pair.mark.offset.offset) =
      (b.symbol_offset pair.symbol).map fun target =>
        some (target - BitVec.ofNat 64 pair.mark.offset.offset) := by
  have hkey : section_offset pair.lo.offset.sec
      (BitVec.ofNat 64 pair.mark.offset.offset).toNat = pair.mark.offset := by
    rw [BitVec.toNat_ofNat, Nat.mod_eq_of_lt h.lt, h.sec]
    rfl
  have hentry : (entryAt b pair.lo pair.hi).name = pair.symbol.name := by
    rw [entryAt, hb.offset pair.hi_mem, if_pos h.behind, resolved_eq pair.symbol_eq]
  rw [distance, hkey, pair.hi_mem]
  simp only [h.reloc_offset hb, hentry, h.symbol_name, Assembler.symbol_offset, if_neg h.symbol_sec,
    Option.bind_eq_bind, Option.bind_some]
  cases b.label_offset pair.symbol <;> rfl

theorem Pair.AtZero.lowImm_eq (h : pair.AtZero) (hb : Linkable b) :
    lowImm b pair.lo = (highDistance b pair.hi).map lower := by
  have hmark : b.symbol_offset pair.mark =
      some (BitVec.ofNat 64 pair.mark.offset.offset) := by
    rw [Assembler.symbol_offset, if_neg h.mark_sec, Assembler.label_offset, h.address]
  obtain ⟨dec, hdec, -⟩ := hb.decoded pair.lo_mem
  rw [Linking.lowImm_eq pair.mark_eq hmark hdec, h.distance_eq hb]
  simp only [highDistance, pair.symbol_eq, h.reloc_offset hb, Option.bind_eq_bind,
    Option.bind_some]
  cases b.symbol_offset pair.symbol <;> rfl

end

/-- Linking is right for the pairs at the address 0 that are in reach of their high parts. -/
theorem right_of_atZero {p : Program} (h : ∀ pair : Pair p.a, pair.placed.AtZero)
    (hreach : ∀ pair : Pair p.a, ∀ d ∈ highDistance (placed p.a) pair.hi, Signed 32 12 (hi20 d)) :
    Right p := by
  refine right_of_meets fun pair => ?_
  have hb := p.linkable.placed
  have hhigh := hb.high pair.placed.hi_mem pair.hi_kind
  obtain ⟨pc, target, -, -, hd⟩ := hhigh.exists_distance pair.placed.symbol_eq
  refine ⟨_, hd, hreach pair _ hd, ?_⟩
  have himm := (h pair).lowImm_eq hb
  rw [show highDistance (placed p.a) pair.placed.hi = some (target - pc) from hd] at himm
  exact himm

/-! ## A section behind another one -/

/-- `pc: auipc t0, %pcrel_hi(x); addi t0, t0, %pcrel_lo(pc); x:` behind eight bytes of `.text`. -/
def shifted : Assembler :=
  Assembler.init.run [.append 4 0x13, .append 4 0x13, .get_section ".data".toList,
    .add_label "pc".toList, .add_reloc "x".toList .R_RISCV_PCREL_HI20, .append 4 0x297,
    .add_reloc "pc".toList .R_RISCV_PCREL_LO12_I, .append 4 0x28293, .add_label "x".toList]

def shiftedHigh : Reloc := ⟨section_offset 2 0, "x".toList, .R_RISCV_PCREL_HI20⟩

def shiftedLow : Reloc := ⟨section_offset 2 4, "pc".toList, .R_RISCV_PCREL_LO12_I⟩

theorem shifted_relocs {k : SectionOffset} {r : Reloc}
    (h : shifted.relocs_byoffset.get? k = some r) :
    (k, r) = (section_offset 2 0, shiftedHigh) ∨ (k, r) = (section_offset 2 4, shiftedLow) := by
  have hentries : shifted.relocs_byoffset.entries =
      [(section_offset 2 0, shiftedHigh), (section_offset 2 4, shiftedLow)] := rfl
  have hmem := (shifted.relocs_byoffset.get?_eq_some_iff).mp h
  rw [hentries] at hmem
  simpa only [List.mem_cons, List.not_mem_nil, or_false] using hmem

theorem shifted_linkable : Linkable shifted := by
  refine ⟨fun {k r} hr => ?_, fun {k r} hr => ?_, fun {k r k' r'} hr hr' hne => ?_⟩
  · rcases shifted_relocs hr with h | h <;> cases h <;> rfl
  · rcases shifted_relocs hr with h | h <;> cases h
    · exact .inl ⟨rfl, ⟨_, rfl, rfl⟩, _, rfl, rfl⟩
    · exact .inr ⟨.inl rfl, ⟨_, rfl, rfl⟩, _, shiftedHigh, rfl, rfl, rfl⟩
  · rcases shifted_relocs hr with h | h <;> cases h <;>
      rcases shifted_relocs hr' with h' | h' <;> cases h'
    · exact absurd rfl hne
    · exact .inr (.inl (by decide))
    · exact .inr (.inr (by decide))
    · exact absurd rfl hne

def shiftedPair : Pair shifted where
  hi := shiftedHigh
  lo := shiftedLow
  mark := ⟨"pc".toList, section_offset 2 0, 0⟩
  symbol := ⟨"x".toList, section_offset 2 8, 0⟩
  hi_mem := rfl
  lo_mem := rfl
  hi_kind := rfl
  lo_kind := .inl rfl
  mark_eq := rfl
  symbol_eq := rfl

/-- The high part is looked for at the address 8 of `.data`, where there is none. -/
theorem shifted_not_right : ¬ Right ⟨shifted, shifted_linkable⟩ := by
  intro hright
  obtain ⟨d, hd, -, himm⟩ := meets_of_right hright shiftedPair
  have hdistance : highDistance (placed shifted) shiftedHigh = some 8 := rfl
  have hkept : lowImm (placed shifted) shiftedLow = some 0 := rfl
  obtain rfl := Option.some.inj (hdistance.symm.trans hd)
  exact absurd (Option.some.inj (hkept.symm.trans himm)) (by decide)

end RvCkpt.Emu.Linking
