import RvCkpt.Emu.Patch

/-! # What relocations patch

A relocation is right if the instruction that it patches refers to its label, and if it is rejected
where the label is out of reach. `relocate` never looks at the distance, so it is right where the
label is in reach.
-/

namespace RvCkpt.Emu.Relocation
open Asm ByteMem Isa
set_option autoImplicit false

/-! ## Sites -/

/-- The kinds of relocations that patch instructions. -/
def patches : Rela → Bool
  | .R_RISCV_32 | .R_RISCV_64 | .other => false
  | _ => true

/-- The instructions that a kind of relocation is for. -/
def takes : Rela → Isa.Op → Bool
  | .R_RISCV_JAL, .jal | .R_RISCV_BRANCH, .branch _ | .R_RISCV_HI20, .lui
  | .R_RISCV_PCREL_HI20, .auipc | .R_RISCV_CALL, .auipc
  | .R_RISCV_LO12_I, .jalr | .R_RISCV_LO12_I, .imm .addi | .R_RISCV_LO12_I, .load _
  | .R_RISCV_LO12_I, .fload _ | .R_RISCV_LO12_S, .store _ | .R_RISCV_LO12_S, .fstore _
  | .R_RISCV_PCREL_LO12_I, .jalr | .R_RISCV_PCREL_LO12_I, .imm .addi
  | .R_RISCV_PCREL_LO12_I, .load _ | .R_RISCV_PCREL_LO12_I, .fload _
  | .R_RISCV_PCREL_LO12_S, .store _ | .R_RISCV_PCREL_LO12_S, .fstore _ => true
  | _, _ => false

/-- A relocation whose label is known, at an instruction of its kind. -/
structure Site (a : Assembler) (r : Reloc) where
  label : Label
  target : BitVec 64
  pc : BitVec 64
  dec : Isa.Decode
  length : ℕ
  lookup : a.lookup_label r r.name = some label
  symbol_offset : a.symbol_offset label = some target
  reloc_offset : a.reloc_offset r = some pc
  decoded : decoded a r.offset = some (dec, length)
  takes : takes r.rela_type dec.op = true

/-- The `auipc` that a label marks, and the symbol that the relocation there refers to. -/
def partner (a : Assembler) (label : Label) : Option (BitVec 64 × BitVec 64) :=
  match a.relocs_byoffset.get? label.offset with
  | none => none
  | some hi =>
    if hi.rela_type ≠ .R_RISCV_PCREL_HI20 then none
    else do
      let symbol ← a.lookup_label hi hi.name
      let pc ← a.label_offset label
      let target ← a.symbol_offset symbol
      some (pc, target)

section
variable {a : Assembler} {r : Reloc}

/-- The offset behind an `auipc`. -/
def next (r : Reloc) : SectionOffset := section_offset r.offset.sec (r.offset.offset + 4)

/-- The jump behind the `auipc` of a call, which takes its base from there. -/
structure Site.Jump (site : Site a r) (jalr : Isa.Decode) : Prop where
  length : site.length = 4
  decoded : ∃ n, Emu.decoded a (next r) = some (jalr, n)
  op : jalr.op = .jalr
  rs1 : jalr.rs1 = site.dec.rd
  rd : site.dec.rd ≠ rv_ireg_x0

/-- The target is in the range of the fields that are patched. -/
def Site.InField (site : Site a r) : Prop :=
  match r.rela_type with
  | .R_RISCV_JAL => Signed 21 1 (site.target - site.pc)
  | .R_RISCV_BRANCH => Signed 13 1 (site.target - site.pc)
  | .R_RISCV_HI20 => Signed 32 12 (hi20 site.target)
  | .R_RISCV_LO12_I | .R_RISCV_LO12_S => land site.dec.op site.pc site.target = site.target
  | .R_RISCV_PCREL_HI20 => Signed 32 12 (hi20 (site.target - site.pc))
  | .R_RISCV_CALL =>
    Signed 32 12 (hi20 (site.target - site.pc)) ∧ 2 ∣ (site.target - site.pc).toNat
  | _ => True

/-- Wherever they are executed at `pc`, the two instructions lead to the target. -/
def Calls (pc : BitVec 64) (auipc jalr : Isa.Decode) (target : BitVec 64) : Prop :=
  ∀ (host : Host) (clock : BitVec 64) (s : Machine), s.pc = pc →
    ∃ s' s'', execute host clock auipc 4 s = some s' ∧ execute host clock jalr 4 s' = some s'' ∧
      s''.pc = target

/-- What the relocation has patched refers to its label: an instruction of itself, a high part so
that a low part completes it, and a low part with what its high part leaves. -/
def Refers (a a' : Assembler) (r : Reloc) : Prop :=
  ∃ (site : Site a r) (imm : BitVec 32),
    decoded a' r.offset = some ({ site.dec with imm := imm }, 4) ∧
    match r.rela_type with
    | .R_RISCV_JAL | .R_RISCV_BRANCH =>
      Points site.pc none { site.dec with imm := imm } site.target
    | .R_RISCV_HI20 => Points site.pc none { site.dec with imm := imm } (hi20 site.target)
    | .R_RISCV_LO12_I | .R_RISCV_LO12_S =>
      Points site.pc (some (hi20 site.target)) { site.dec with imm := imm } site.target
    | .R_RISCV_PCREL_HI20 =>
      Points site.pc none { site.dec with imm := imm }
        (site.pc + hi20 (site.target - site.pc))
    | .R_RISCV_PCREL_LO12_I | .R_RISCV_PCREL_LO12_S =>
      ∃ pc target, partner a site.label = some (pc, target) ∧
        Points site.pc (some (pc + hi20 (target - pc))) { site.dec with imm := imm } target
    | .R_RISCV_CALL =>
      ∃ jalr lo, site.Jump jalr ∧ decoded a' (next r) = some ({ jalr with imm := lo }, 4) ∧
        Calls site.pc { site.dec with imm := imm } { jalr with imm := lo } site.target
    | _ => False

/-- A relocation that `relocate` applies refers to its label, and one that is out of range is
rejected. -/
def Right (a : Assembler) (r : Reloc) : Prop :=
  patches r.rela_type = true → ∃ a' ok, a.relocate r = some (a', ok) ∧
    (ok = true → Refers a a' r) ∧
      ∀ site : Site a r, ¬ site.InField → ok = false ∧ a'.sections = a.sections

/-- The label of a low part marks no relocation that could be found, as far as `relocate` looks. -/
def Unmarked (a : Assembler) (r : Reloc) : Prop :=
  ∃ label label_off, a.lookup_label r r.name = some label ∧
    a.symbol_offset label = some label_off ∧ (decoded a r.offset).isSome ∧
      (a.rename r label.name).pcrel_distance r label_off = some none

/-- When `relocate` is right. -/
def Meets (a : Assembler) (r : Reloc) : Prop :=
  patches r.rela_type = true → a.lookup_label r r.name = none ∨
    match r.rela_type with
    | .R_RISCV_PCREL_LO12_I | .R_RISCV_PCREL_LO12_S =>
      Unmarked a r ∨ ∃ (site : Site a r) (distance pc target : BitVec 64),
        (a.rename r site.label.name).pcrel_distance r site.target = some (some distance) ∧
          partner a site.label = some (pc, target) ∧
            land site.dec.op site.pc (pc + hi20 (target - pc) + sx (lower distance)) = target
    | .R_RISCV_CALL => ∃ site : Site a r, site.InField ∧ ∃ jalr, site.Jump jalr
    | _ => ∃ site : Site a r, site.InField

/-! ## Sites and their instructions -/

theorem forms_of_takes {kind : Rela} {op : Isa.Op} (h : takes kind op = true) :
    forms op = true := by
  unfold takes at h
  split at h
  all_goals
    first
    | rfl
    | cases h

theorem Site.forms (site : Site a r) : forms site.dec.op = true := forms_of_takes site.takes

theorem Site.exists_inst (site : Site a r) :
    ∃ inst, a.inst_fetch r.offset = some (inst, site.length) ∧
      ofDecode (decode_inst_rv64 inst) = site.dec := by
  obtain ⟨⟨inst, length⟩, hfetch, heq⟩ := Option.map_eq_some_iff.mp site.decoded
  obtain ⟨hdec, rfl⟩ := Prod.mk.inj heq
  exact ⟨inst, hfetch, hdec⟩

theorem Site.eq (s t : Site a r) : s = t := by
  obtain ⟨label, target, pc, dec, length, hlabel, htarget, hpc, hdec, -⟩ := s
  obtain ⟨label', target', pc', dec', length', hlabel', htarget', hpc', hdec', -⟩ := t
  obtain rfl := Option.some.inj (hlabel.symm.trans hlabel')
  obtain rfl := Option.some.inj (htarget.symm.trans htarget')
  obtain rfl := Option.some.inj (hpc.symm.trans hpc')
  obtain ⟨rfl, rfl⟩ := Prod.mk.inj (Option.some.inj (hdec.symm.trans hdec'))
  rfl

theorem immFits_of_decoded {k : SectionOffset} {dec : Isa.Decode} {n : ℕ}
    (h : decoded a k = some (dec, n)) (hforms : Emu.forms dec.op = true) :
    ImmFits dec.op (sx dec.imm) := by
  obtain ⟨⟨inst, length⟩, -, heq⟩ := Option.map_eq_some_iff.mp h
  obtain ⟨rfl, -⟩ := Prod.mk.inj heq
  exact decoded_immFits hforms

/-! ## The cases of `relocate` -/

/-- The immediate that `relocate` puts in at a site. -/
def Site.newImm (site : Site a r) : Option (BitVec 32) :=
  match r.rela_type with
  | .R_RISCV_JAL | .R_RISCV_BRANCH => some ((site.target - site.pc).truncate 32)
  | .R_RISCV_HI20 => some (upper site.target)
  | .R_RISCV_LO12_I | .R_RISCV_LO12_S => some (lower site.target)
  | .R_RISCV_PCREL_HI20 | .R_RISCV_CALL => some (upper (site.target - site.pc))
  | .R_RISCV_PCREL_LO12_I | .R_RISCV_PCREL_LO12_S =>
    match (a.rename r site.label.name).pcrel_distance r site.target with
    | some (some distance) => some (lower distance)
    | _ => none
  | _ => none

theorem relocate_none (h : a.lookup_label r r.name = none) : a.relocate r = some (a, false) := by
  rw [Assembler.relocate, h]

theorem Site.relocate_eq (site : Site a r) {inst : BitVec 64}
    (hfetch : a.inst_fetch r.offset = some (inst, site.length)) {imm : BitVec 32}
    (himm : site.newImm = some imm) (hcall : r.rela_type ≠ .R_RISCV_CALL) :
    a.relocate r = ((a.rename r site.label.name).reencode_inst
      { decode_inst_rv64 inst with imm := imm } r.offset).map (·, true) := by
  have hoff : (a.rename r site.label.name).symbol_offset site.label = some site.target :=
    site.symbol_offset
  have hpc : (a.rename r site.label.name).reloc_offset r = some site.pc := site.reloc_offset
  have hsame : (a.rename r site.label.name).inst_fetch r.offset = some (inst, site.length) := hfetch
  simp only [Assembler.relocate, site.lookup, hoff, hpc, hsame, Option.bind_eq_bind,
    Option.bind_some]
  simp only [newImm] at himm
  cases hkind : r.rela_type with
  | R_RISCV_CALL => exact absurd hkind hcall
  | R_RISCV_PCREL_LO12_I | R_RISCV_PCREL_LO12_S =>
    rw [hkind] at himm
    simp only at himm
    split at himm
    · rename_i distance heq
      rw [heq, ← Option.some.inj himm]
      rfl
    · cases himm
  | _ =>
    rw [hkind] at himm
    cases himm <;> rfl

/-- A site with a new immediate that fits. -/
theorem Site.relocated (site : Site a r) {imm : BitVec 32} (himm : site.newImm = some imm)
    (hcall : r.rela_type ≠ .R_RISCV_CALL) (hfits : ImmFits site.dec.op (sx imm)) :
    ∃ a', a.relocate r = some (a', true) ∧
      Emu.decoded a' r.offset = some ({ site.dec with imm := imm }, 4) := by
  obtain ⟨inst, hfetch, hdec⟩ := site.exists_inst
  have hop : execCase (decode_inst_rv64 inst).op = site.dec.op := congrArg Isa.Decode.op hdec
  rw [← hop] at hfits
  obtain ⟨a', word, henc, -, hdecoded⟩ :=
    reencode_patched (a := a.rename r site.label.name) hfetch (hop ▸ site.forms) imm hfits
  refine ⟨a', ?_, ?_⟩
  · rw [site.relocate_eq hfetch himm hcall, henc, Option.map_some]
  · rw [hdecoded, hdec]

/-- `relocate` returns false for a label that it does not know, and for a low part whose label marks
nothing. -/
theorem relocate_false {a' : Assembler} (h : a.relocate r = some (a', false)) :
    a'.sections = a.sections ∧ (a.lookup_label r r.name = none ∨
      (r.rela_type = .R_RISCV_PCREL_LO12_I ∨ r.rela_type = .R_RISCV_PCREL_LO12_S) ∧
        Unmarked a r) := by
  have htrue : ∀ {x : Option Assembler}, x.map (·, true) ≠ some (a', false) := by
    intro x hx
    obtain ⟨_, -, heq⟩ := Option.map_eq_some_iff.mp hx
    cases heq
  unfold Assembler.relocate at h
  cases hlabel : a.lookup_label r r.name with
  | none =>
    rw [hlabel] at h
    cases h
    exact ⟨rfl, .inl rfl⟩
  | some label =>
    simp only [hlabel, Option.bind_eq_bind, Option.bind_eq_some_iff] at h
    obtain ⟨label_off, hoff, pc, hpc, ⟨inst, length⟩, hfetch, h⟩ := h
    have hdecoded : (decoded a r.offset).isSome := by
      rw [decoded, show a.inst_fetch r.offset = some (inst, length) from hfetch]
      rfl
    cases hkind : r.rela_type with
    | R_RISCV_PCREL_LO12_I | R_RISCV_PCREL_LO12_S =>
      rw [hkind] at h
      obtain ⟨distance, hdistance, h⟩ := Option.bind_eq_some_iff.mp h
      cases distance with
      | none =>
        cases h
        exact ⟨rfl, .inr ⟨by simp, label, label_off, hlabel, hoff, hdecoded, hdistance⟩⟩
      | some distance => exact absurd h htrue
    | R_RISCV_CALL =>
      rw [hkind] at h
      simp only [Option.bind_eq_some_iff] at h
      obtain ⟨_, -, _, -, h⟩ := h
      exact absurd h htrue
    | other =>
      rw [hkind] at h
      cases h
    | _ =>
      rw [hkind] at h
      exact absurd h htrue

theorem relocate_low (hkind : r.rela_type = .R_RISCV_PCREL_LO12_I ∨
    r.rela_type = .R_RISCV_PCREL_LO12_S) {label : Label} {label_off inst : BitVec 64} {length : ℕ}
    (hlabel : a.lookup_label r r.name = some label) (hoff : a.symbol_offset label = some label_off)
    (hfetch : a.inst_fetch r.offset = some (inst, length)) :
    a.relocate r = (a.rename r label.name).pcrel_distance r label_off >>= fun found =>
      match found with
      | none => some (a.rename r label.name, false)
      | some distance => ((a.rename r label.name).reencode_inst
          { decode_inst_rv64 inst with imm := lower distance } r.offset).map (·, true) := by
  obtain ⟨s, hs, -⟩ := inst_fetch_eq_some.mp hfetch
  have hoff' : (a.rename r label.name).symbol_offset label = some label_off := hoff
  have hpc : (a.rename r label.name).reloc_offset r =
      some (s.offset + BitVec.ofNat 64 r.offset.offset) := congrArg (Option.map _) hs
  have hfetch' : (a.rename r label.name).inst_fetch r.offset = some (inst, length) := hfetch
  simp only [Assembler.relocate, hlabel, hoff', hpc, hfetch', Option.bind_eq_bind, Option.bind_some]
  rcases hkind with hkind | hkind <;> rw [hkind] <;> rfl

theorem relocate_unmarked (hkind : r.rela_type = .R_RISCV_PCREL_LO12_I ∨
    r.rela_type = .R_RISCV_PCREL_LO12_S) (h : Unmarked a r) :
    ∃ a', a.relocate r = some (a', false) := by
  obtain ⟨label, label_off, hlabel, hoff, hdecoded, hdistance⟩ := h
  obtain ⟨⟨dec, length⟩, hdec⟩ := Option.isSome_iff_exists.mp hdecoded
  obtain ⟨⟨inst, n⟩, hfetch, -⟩ := Option.map_eq_some_iff.mp hdec
  refine ⟨a.rename r label.name, ?_⟩
  rw [relocate_low hkind hlabel hoff hfetch, hdistance]
  rfl

/-! ## The kinds -/

theorem sub_eq_of_add_eq {x y z : BitVec 64} (h : x + y = z) : y = z - x := by
  rw [← h, BitVec.add_comm, BitVec.add_sub_cancel]

theorem add_sub_self (x y : BitVec 64) : x + (y - x) = y := by
  rw [BitVec.add_comm, BitVec.sub_add_cancel]

section
variable {op : Isa.Op}

theorem takes_jal (h : takes .R_RISCV_JAL op = true) : op = .jal := by
  cases op <;> first | rfl | cases h

theorem takes_branch (h : takes .R_RISCV_BRANCH op = true) : ∃ b, op = .branch b := by
  cases op with
  | branch b => exact ⟨b, rfl⟩
  | _ => cases h

theorem takes_hi20 (h : takes .R_RISCV_HI20 op = true) : op = .lui := by
  cases op <;> first | rfl | cases h

theorem takes_pcrel_hi20 (h : takes .R_RISCV_PCREL_HI20 op = true) : op = .auipc := by
  cases op <;> first | rfl | cases h

theorem takes_call (h : takes .R_RISCV_CALL op = true) : op = .auipc := by
  cases op <;> first | rfl | cases h

/-- The kinds of low parts. -/
def isLow : Rela → Bool
  | .R_RISCV_LO12_I | .R_RISCV_LO12_S | .R_RISCV_PCREL_LO12_I | .R_RISCV_PCREL_LO12_S => true
  | _ => false

/-- The instructions with a low part add it to their base. -/
theorem takes_low {kind : Rela} (hkind : isLow kind = true) (h : takes kind op = true) :
    (∀ pc base, origin op pc base = some base) ∧ field op = (12, 0) := by
  unfold takes at h
  split at h
  all_goals
    first
    | cases hkind; done
    | cases h; done
    | exact ⟨fun _ _ => rfl, rfl⟩

end

/-- A low part completes the base to what it is the low part of. -/
theorem Site.low_points (site : Site a r) (hlow : isLow r.rela_type = true)
    (base distance : BitVec 64) {addr : BitVec 64}
    (hland : land site.dec.op site.pc (base + sx (lower distance)) = addr) :
    ImmFits site.dec.op (sx (lower distance)) ∧
      Points site.pc (some base) { site.dec with imm := lower distance } addr := by
  obtain ⟨horigin, hfield⟩ := takes_low hlow site.takes
  constructor
  · rw [ImmFits, hfield]
    exact lower_signed distance
  · rw [← hland]
    exact points_of_origin { site.dec with imm := lower distance } (fun h => by cases h)
      (horigin _ _)

theorem Site.low_land {site : Site a r} (hlow : isLow r.rela_type = true) {base addr : BitVec 64}
    {imm : BitVec 32} (h : Points site.pc (some base) { site.dec with imm := imm } addr) :
    land site.dec.op site.pc (base + sx imm) = addr := by
  obtain ⟨horigin, -⟩ := takes_low hlow site.takes
  obtain ⟨o, ho, hland⟩ := h.origin
  obtain rfl := Option.some.inj ((horigin _ _).symm.trans ho)
  exact hland

theorem hi20_add_lower (x : BitVec 64) : hi20 x + sx (lower x) = x := by
  rw [sx_lower, add_sub_self]

/-! ## Calls -/

theorem even_ne_neg_one (x : BitVec 64) : x &&& ~~~1#64 ≠ -1 := by
  intro h
  have hnat := congrArg BitVec.toNat h
  rw [and_not_one_toNat, show (-1 : BitVec 64).toNat = 2 ^ 64 - 1 from rfl] at hnat
  omega

theorem land_jalr_self (p x : BitVec 64) : land .jalr p x = x ↔ 2 ∣ (x - p).toNat := by
  rw [land, if_pos rfl]
  constructor
  · intro h
    rw [← sub_eq_of_add_eq h, and_not_one_toNat]
    exact Nat.dvd_mul_left _ _
  · intro h
    have heven : (x - p) &&& ~~~1#64 = x - p := by
      apply BitVec.eq_of_toNat_eq
      rw [and_not_one_toNat]
      omega
    rw [heven, add_sub_self]

theorem land_of_land {op : Isa.Op} {pc x y : BitVec 64} (h : land op pc x = y) :
    land op pc y = y := by
  by_cases hop : op = .jalr
  · rw [land, if_pos hop] at h
    rw [hop, land_jalr_self, ← sub_eq_of_add_eq h, and_not_one_toNat]
    exact Nat.dvd_mul_left _ _
  · exact if_neg hop

theorem calls_iff {pc target : BitVec 64} (auipc jalr : Isa.Decode) (hauipc : auipc.op = .auipc)
    (hjalr : jalr.op = .jalr) (hrs1 : jalr.rs1 = auipc.rd) (hrd : auipc.rd ≠ rv_ireg_x0) :
    Calls pc auipc jalr target ↔
      land .jalr (pc + 4) (pc + sx auipc.imm + sx jalr.imm) = target := by
  have hfirst : ∀ (host : Host) (clock : BitVec 64) (s : Machine), s.pc = pc →
      ∃ s', execute host clock auipc 4 s = some s' ∧ s'.pc = pc + 4 ∧
        s'.ireg auipc.rd = pc + sx auipc.imm := by
    intro host clock s hpc
    refine ⟨{ s.setReg auipc.rd (s.pc + sx auipc.imm) with
      pc := s.pc + 4, instret := s.instret + 1 }, ?_, by rw [hpc], ?_⟩
    · simp only [execute, execInst, hauipc]
      rfl
    · show Function.update s.ireg auipc.rd _ auipc.rd = _
      rw [Function.update_self, if_neg hrd, hpc]
  have hsecond : ∀ (host : Host) (clock : BitVec 64) (s : Machine), ∃ s'',
      execute host clock jalr 4 s = some s'' ∧
        s''.pc = land .jalr s.pc (s.ireg jalr.rs1 + sx jalr.imm) := by
    intro host clock s
    have hoffset := even_ne_neg_one (s.ireg jalr.rs1 + sx jalr.imm - s.pc)
    simp only [execute, execInst, hjalr, if_pos hoffset, retire]
    exact ⟨_, rfl, rfl⟩
  constructor
  · intro h
    obtain ⟨s', s'', hs', hs'', htarget⟩ := h atomicHost 0 { reset with pc := pc } rfl
    obtain ⟨t', ht', hpc, hbase⟩ := hfirst atomicHost 0 { reset with pc := pc } rfl
    obtain rfl := Option.some.inj (hs'.symm.trans ht')
    obtain ⟨t'', ht'', hland⟩ := hsecond atomicHost 0 s'
    obtain rfl := Option.some.inj (hs''.symm.trans ht'')
    rw [← htarget, hland, hpc, hrs1, hbase]
  · intro h host clock s hs
    obtain ⟨s', hs', hpc, hbase⟩ := hfirst host clock s hs
    obtain ⟨s'', hs'', hland⟩ := hsecond host clock s'
    refine ⟨s', s'', hs', hs'', ?_⟩
    rw [hland, hpc, hrs1, hbase, h]

/-- The distance of a call is its high part and the even part of its low part. -/
theorem call_reach {pc target high low : BitVec 64} (hhigh : Signed 32 12 high)
    (hlow : Signed 12 0 low) (h : land .jalr (pc + 4) (pc + high + low) = target) :
    hi20 (target - pc) = high ∧ 2 ∣ (target - pc).toNat := by
  obtain ⟨-, -, hdvd⟩ := hhigh
  obtain ⟨hlo, hhi, -⟩ := hlow
  rw [land, if_pos rfl] at h
  have h1 := pc.isLt
  have h2 := high.isLt
  have h3 := low.isLt
  have hfour : (4 : BitVec 64).toNat = 4 := rfl
  have hsum : (pc + high + low - (pc + 4)).toNat =
      (high.toNat + low.toNat + (2 ^ 64 - 4)) % 2 ^ 64 := by
    rw [BitVec.toNat_sub, BitVec.toNat_add, BitVec.toNat_add, BitVec.toNat_add, hfour]
    omega
  have heven := and_not_one_toNat (pc + high + low - (pc + 4))
  have hdistance : (target - pc).toNat =
      ((high.toNat + low.toNat + (2 ^ 64 - 4)) % 2 ^ 64 / 2 * 2 + 4) % 2 ^ 64 := by
    rw [← h, BitVec.toNat_sub, BitVec.toNat_add, BitVec.toNat_add, hfour, heven, hsum]
    omega
  have hrest : (target - pc - high).toNat = low.toNat / 2 * 2 := by
    rw [BitVec.toNat_sub, hdistance]
    omega
  have hcases := toInt_cases low
  have hcases' := toInt_cases (target - pc - high)
  refine ⟨?_, ?_⟩
  · rw [← add_sub_self high (target - pc)]
    exact hi20_add hdvd (by omega) (by omega)
  · rw [hdistance]
    omega

/-- A call whose high part fits: the jump is patched first, then the `auipc`. -/
theorem Site.call_relocated (site : Site a r) (hkind : r.rela_type = .R_RISCV_CALL)
    {jalr : Isa.Decode} (hjump : site.Jump jalr)
    (hhigh : Signed 32 12 (hi20 (site.target - site.pc))) :
    ∃ a', a.relocate r = some (a', true) ∧
      Emu.decoded a' r.offset =
        some ({ site.dec with imm := upper (site.target - site.pc) }, 4) ∧
      Emu.decoded a' (next r) = some ({ jalr with imm := lower (site.target - site.pc) }, 4) := by
  obtain ⟨inst, hfetch, hdec⟩ := site.exists_inst
  obtain ⟨n, hnext⟩ := hjump.decoded
  obtain ⟨⟨inst', n'⟩, hfetch', heq⟩ := Option.map_eq_some_iff.mp hnext
  obtain ⟨hdec', rfl⟩ := Prod.mk.inj heq
  have hop : execCase (decode_inst_rv64 inst).op = .auipc :=
    (congrArg Isa.Decode.op hdec).trans (takes_call (hkind ▸ site.takes))
  have hop' : execCase (decode_inst_rv64 inst').op = .jalr :=
    (congrArg Isa.Decode.op hdec').trans hjump.op
  rw [hjump.length] at hfetch
  -- the jump, behind the `auipc`
  obtain ⟨b, word, henc, hstore, hdecoded⟩ :=
    reencode_patched (a := a.rename r site.label.name) hfetch' (by rw [hop']; rfl)
      (lower (site.target - site.pc)) (by rw [hop']; exact lower_signed _)
  have hfetchb : b.inst_fetch r.offset = some (inst, 4) :=
    inst_fetch_store hstore hfetch (.inr (.inr le_rfl))
  -- the `auipc`, before the jump
  obtain ⟨c, word', henc', hstore', hdecoded'⟩ :=
    reencode_patched hfetchb (by rw [hop]; rfl) (upper (site.target - site.pc))
      (by rw [hop, (sx_upper _).mpr hhigh]; exact hhigh)
  obtain ⟨⟨inst'', n''⟩, hfetch'', heq'⟩ := Option.map_eq_some_iff.mp hdecoded
  obtain ⟨hdec'', rfl⟩ := Prod.mk.inj heq'
  refine ⟨c, ?_, ?_, ?_⟩
  · have hoff : (a.rename r site.label.name).symbol_offset site.label = some site.target :=
      site.symbol_offset
    have hpc : (a.rename r site.label.name).reloc_offset r = some site.pc := site.reloc_offset
    have hsame : (a.rename r site.label.name).inst_fetch r.offset = some (inst, 4) := hfetch
    have hsame' : (a.rename r site.label.name).inst_fetch
        (section_offset r.offset.sec (r.offset.offset + 4)) = some (inst', n') := hfetch'
    have henc1 : (a.rename r site.label.name).reencode_inst _
        (section_offset r.offset.sec (r.offset.offset + 4)) = some b := henc
    simp only [Assembler.relocate, site.lookup, hoff, hpc, hsame, Option.bind_eq_bind,
      Option.bind_some, hkind, hsame', henc1, henc', Option.map_some]
  · rw [hdecoded', hdec]
  · rw [Emu.decoded, inst_fetch_store hstore' hfetch'' (.inr (.inl le_rfl)), Option.map_some,
      hdec'', hdec']

/-! ## When `relocate` is right -/

/-- An immediate that is added to `o` is the distance from there. -/
theorem imm_of_points {pc o addr : BitVec 64} {dec : Isa.Decode} {imm : BitVec 32}
    (h : Points pc none { dec with imm := imm } addr) (hop : dec.op ≠ .jalr)
    (ho : origin dec.op pc 0 = some o) : sx imm = addr - o := by
  obtain ⟨o', ho', hland⟩ := h.origin
  obtain rfl := Option.some.inj (ho.symm.trans ho')
  rw [land, if_neg hop] at hland
  exact sub_eq_of_add_eq hland

/-- A label that a patched instruction refers to is in the range of its field. -/
theorem Refers.reached {a' : Assembler} (h : Refers a a' r) :
    ∃ site : Site a r, site.InField ∧
      (r.rela_type = .R_RISCV_CALL → ∃ jalr, site.Jump jalr) := by
  obtain ⟨site, imm, hdecoded, h⟩ := h
  have hfits := immFits_of_decoded hdecoded site.forms
  refine ⟨site, ?_, ?_⟩
  · unfold Site.InField
    have htakes := site.takes
    cases hkind : r.rela_type with
    | R_RISCV_JAL =>
      rw [hkind] at h htakes
      have hop := takes_jal htakes
      have himm := imm_of_points (o := site.pc) h (by rw [hop]; decide) (by rw [hop]; rfl)
      rw [← himm]
      exact hop ▸ hfits
    | R_RISCV_BRANCH =>
      rw [hkind] at h htakes
      obtain ⟨op, hop⟩ := takes_branch htakes
      have himm := imm_of_points (o := site.pc) h (by rw [hop]; nofun) (by rw [hop]; rfl)
      rw [← himm]
      exact hop ▸ hfits
    | R_RISCV_HI20 =>
      rw [hkind] at h htakes
      have hop := takes_hi20 htakes
      have himm := imm_of_points (o := 0) h (by rw [hop]; decide) (by rw [hop]; rfl)
      rw [show hi20 site.target - 0 = hi20 site.target from BitVec.sub_zero _] at himm
      rw [← himm]
      exact hop ▸ hfits
    | R_RISCV_PCREL_HI20 =>
      rw [hkind] at h htakes
      have hop := takes_pcrel_hi20 htakes
      have himm := imm_of_points (o := site.pc) h (by rw [hop]; decide) (by rw [hop]; rfl)
      rw [BitVec.add_comm, BitVec.add_sub_cancel] at himm
      rw [← himm]
      exact hop ▸ hfits
    | R_RISCV_LO12_I | R_RISCV_LO12_S =>
      rw [hkind] at h
      exact land_of_land (site.low_land (by rw [hkind]; rfl) h)
    | R_RISCV_CALL =>
      rw [hkind] at h htakes
      obtain ⟨jalr, low, hjump, hnext, hcalls⟩ := h
      have hop := takes_call htakes
      have hland := (calls_iff { site.dec with imm := imm } { jalr with imm := low } hop
        hjump.op hjump.rs1 hjump.rd).mp hcalls
      rw [hop] at hfits
      have hlow := immFits_of_decoded hnext (by rw [hjump.op]; rfl)
      rw [hjump.op] at hlow
      obtain ⟨hhigh, heven⟩ := call_reach hfits hlow hland
      exact ⟨hhigh ▸ hfits, heven⟩
    | _ => trivial
  · intro hkind
    rw [hkind] at h
    obtain ⟨jalr, low, hjump, -⟩ := h
    exact ⟨jalr, hjump⟩

theorem right_of_refers {a' : Assembler} (hrel : a.relocate r = some (a', true))
    (h : Refers a a' r) : Right a r := by
  intro _
  obtain ⟨site, hin, -⟩ := h.reached
  refine ⟨a', true, hrel, fun _ => h, fun site' hnot => ?_⟩
  rw [site'.eq site] at hnot
  exact absurd hin hnot

/-- The distance that `relocate` uses for a low part. -/
theorem Site.exists_distance (site : Site a r) {a' : Assembler}
    (hkind : r.rela_type = .R_RISCV_PCREL_LO12_I ∨ r.rela_type = .R_RISCV_PCREL_LO12_S)
    (hrel : a.relocate r = some (a', true)) :
    ∃ distance, (a.rename r site.label.name).pcrel_distance r site.target =
      some (some distance) := by
  obtain ⟨inst, hfetch, -⟩ := site.exists_inst
  rw [relocate_low hkind site.lookup site.symbol_offset hfetch] at hrel
  obtain ⟨found, hfound, hrel⟩ := Option.bind_eq_some_iff.mp hrel
  cases found with
  | none => cases hrel
  | some distance => exact ⟨distance, hfound⟩

theorem Site.newImm_low (site : Site a r)
    (hkind : r.rela_type = .R_RISCV_PCREL_LO12_I ∨ r.rela_type = .R_RISCV_PCREL_LO12_S)
    {distance : BitVec 64} (h : (a.rename r site.label.name).pcrel_distance r site.target =
      some (some distance)) : site.newImm = some (lower distance) := by
  unfold newImm
  rcases hkind with hkind | hkind <;> simp only [hkind, h]

theorem isLow_of_pcrel
    (h : r.rela_type = .R_RISCV_PCREL_LO12_I ∨ r.rela_type = .R_RISCV_PCREL_LO12_S) :
    isLow r.rela_type = true := by
  rcases h with h | h <;> rw [h] <;> rfl

theorem pcrel_meets {a' : Assembler}
    (hkind : r.rela_type = .R_RISCV_PCREL_LO12_I ∨ r.rela_type = .R_RISCV_PCREL_LO12_S)
    (hrel : a.relocate r = some (a', true)) {site : Site a r} {imm : BitVec 32}
    (hdecoded : Emu.decoded a' r.offset = some ({ site.dec with imm := imm }, 4))
    {pc target : BitVec 64}
    (hpoints : Points site.pc (some (pc + hi20 (target - pc))) { site.dec with imm := imm } target) :
    ∃ distance, (a.rename r site.label.name).pcrel_distance r site.target = some (some distance) ∧
      land site.dec.op site.pc (pc + hi20 (target - pc) + sx (lower distance)) = target := by
  have hlow := isLow_of_pcrel hkind
  obtain ⟨distance, hdistance⟩ := site.exists_distance hkind hrel
  obtain ⟨hfits, -⟩ := site.low_points hlow 0 distance rfl
  have hcall : r.rela_type ≠ .R_RISCV_CALL := by rcases hkind with h | h <;> rw [h] <;> decide
  obtain ⟨b, hrel', hdecoded'⟩ := site.relocated (site.newImm_low hkind hdistance) hcall hfits
  obtain ⟨rfl, -⟩ := Prod.mk.inj (Option.some.inj (hrel.symm.trans hrel'))
  obtain ⟨hdec, -⟩ := Prod.mk.inj (Option.some.inj (hdecoded.symm.trans hdecoded'))
  obtain rfl : imm = lower distance := congrArg Isa.Decode.imm hdec
  exact ⟨distance, hdistance, site.low_land hlow hpoints⟩

theorem meets_of_right (h : Right a r) : Meets a r := by
  intro hpatches
  obtain ⟨a', ok, hrel, hrefers, -⟩ := h hpatches
  cases ok with
  | false =>
    obtain ⟨-, hnone | ⟨hkind, hunmarked⟩⟩ := relocate_false hrel
    · exact .inl hnone
    · right
      rcases hkind with hkind | hkind <;> rw [hkind] <;> exact .inl hunmarked
  | true =>
    right
    have hrefers := hrefers rfl
    obtain ⟨site, hin, hjump⟩ := hrefers.reached
    cases hkind : r.rela_type with
    | R_RISCV_PCREL_LO12_I | R_RISCV_PCREL_LO12_S =>
      obtain ⟨site, imm, hdecoded, hrefers⟩ := hrefers
      rw [hkind] at hrefers
      obtain ⟨pc, target, hpartner, hpoints⟩ := hrefers
      obtain ⟨distance, hdistance, hland⟩ := pcrel_meets (by simp [hkind]) hrel hdecoded hpoints
      exact .inr ⟨site, distance, pc, target, hdistance, hpartner, hland⟩
    | R_RISCV_CALL => exact ⟨site, hin, hjump hkind⟩
    | _ => exact ⟨site, hin⟩

theorem right_of_rejected {a' : Assembler} (hrel : a.relocate r = some (a', false)) : Right a r := by
  intro _
  refine ⟨a', false, hrel, ?_, ?_⟩
  · intro h
    cases h
  · exact fun _ _ => ⟨rfl, (relocate_false hrel).1⟩

theorem Site.right_of_refers (site : Site a r) {imm : BitVec 32} (himm : site.newImm = some imm)
    (hcall : r.rela_type ≠ .R_RISCV_CALL) (hfits : ImmFits site.dec.op (sx imm))
    (h : ∀ a', Emu.decoded a' r.offset = some ({ site.dec with imm := imm }, 4) →
      Refers a a' r) : Right a r := by
  obtain ⟨a', hrel, hdecoded⟩ := site.relocated himm hcall hfits
  exact Relocation.right_of_refers hrel (h a' hdecoded)

/-- An immediate that is added to nothing but the program counter, or to nothing at all. -/
theorem Site.high_points {site : Site a r} {imm : BitVec 32} {o addr : BitVec 64}
    (hop : site.dec.op ≠ .jalr) (ho : ∀ base, origin site.dec.op site.pc base = some o)
    (hbase : Based site.dec.op none) (hsum : o + sx imm = addr) :
    Points site.pc none { site.dec with imm := imm } addr := by
  have hpoints : Points site.pc none { site.dec with imm := imm }
      (land site.dec.op site.pc (o + sx imm)) :=
    points_of_origin { site.dec with imm := imm } hbase (ho _)
  rwa [land, if_neg hop, hsum] at hpoints

theorem sx_truncate {width low : ℕ} {x : BitVec 64} (hwidth : width ≤ 32) (h : Signed width low x) :
    sx (x.truncate 32) = x := by
  obtain ⟨hlo, hhi, -⟩ := h
  have hpow : (2 : ℤ) ^ (width - 1) ≤ 2 ^ 31 := pow_le_pow_right₀ (by decide) (by omega)
  exact signExtend_truncate (by omega) (by omega)

/-- Jumps and branches. -/
theorem Site.right_of_jump (site : Site a r)
    (hkind : r.rela_type = .R_RISCV_JAL ∨ r.rela_type = .R_RISCV_BRANCH)
    (hop : site.dec.op = .jal ∨ ∃ b, site.dec.op = .branch b)
    (hin : ImmFits site.dec.op (site.target - site.pc)) : Right a r := by
  have himm : sx ((site.target - site.pc).truncate 32) = site.target - site.pc := by
    rcases hop with hop | ⟨b, hop⟩
    · rw [hop] at hin
      exact sx_truncate (show 21 ≤ 32 by decide) hin
    · rw [hop] at hin
      exact sx_truncate (show 13 ≤ 32 by decide) hin
  have hnew : site.newImm = some ((site.target - site.pc).truncate 32) := by
    unfold newImm
    rcases hkind with hkind | hkind <;> rw [hkind]
  have hcall : r.rela_type ≠ .R_RISCV_CALL := by rcases hkind with h | h <;> rw [h] <;> decide
  refine site.right_of_refers hnew hcall (by rwa [himm]) fun a' hdecoded =>
    ⟨site, _, hdecoded, ?_⟩
  have hpoints : Points site.pc none
      { site.dec with imm := (site.target - site.pc).truncate 32 } site.target := by
    rcases hop with hop | ⟨b, hop⟩
    · exact Site.high_points (by rw [hop]; decide) (fun _ => by rw [hop]; rfl)
        (fun _ _ _ _ => by rw [hop]; rfl) (by rw [himm, add_sub_self])
    · exact Site.high_points (by rw [hop]; exact fun h => by cases h) (fun _ => by rw [hop]; rfl)
        (fun _ _ _ _ => by rw [hop]; rfl) (by rw [himm, add_sub_self])
  rcases hkind with hkind | hkind <;> rw [hkind] <;> exact hpoints

/-- High parts, of what is added to `o`. -/
theorem Site.right_of_upper (site : Site a r) {x o : BitVec 64}
    (hnew : site.newImm = some (upper x)) (hcall : r.rela_type ≠ .R_RISCV_CALL)
    (hop : site.dec.op = .lui ∧ o = 0 ∨ site.dec.op = .auipc ∧ o = site.pc)
    (hin : Signed 32 12 (hi20 x))
    (h : ∀ a', Emu.decoded a' r.offset = some ({ site.dec with imm := upper x }, 4) →
      Points site.pc none { site.dec with imm := upper x } (o + hi20 x) → Refers a a' r) :
    Right a r := by
  have himm := (sx_upper x).mpr hin
  have hpoints : Points site.pc none { site.dec with imm := upper x } (o + hi20 x) := by
    rcases hop with ⟨hop, rfl⟩ | ⟨hop, rfl⟩
    · exact Site.high_points (by rw [hop]; decide) (fun _ => by rw [hop]; rfl)
        (fun _ _ _ _ => by rw [hop]; rfl) (by rw [himm])
    · exact Site.high_points (by rw [hop]; decide) (fun _ => by rw [hop]; rfl)
        (fun _ _ _ _ => by rw [hop]; rfl) (by rw [himm])
  have hfits : ImmFits site.dec.op (sx (upper x)) := by
    rw [himm]
    rcases hop with ⟨hop, -⟩ | ⟨hop, -⟩ <;> rw [hop] <;> exact hin
  exact site.right_of_refers hnew hcall hfits fun a' hdecoded => h a' hdecoded hpoints

theorem Site.right_of_hi20 (site : Site a r) (hkind : r.rela_type = .R_RISCV_HI20)
    (hin : Signed 32 12 (hi20 site.target)) : Right a r := by
  have hop := takes_hi20 (hkind ▸ site.takes)
  have hnew : site.newImm = some (upper site.target) := by
    unfold newImm
    rw [hkind]
  refine site.right_of_upper hnew (by rw [hkind]; decide) (.inl ⟨hop, rfl⟩) hin
    fun a' hdecoded hpoints => ⟨site, _, hdecoded, ?_⟩
  rw [show 0 + hi20 site.target = hi20 site.target from BitVec.zero_add _] at hpoints
  rw [hkind]
  exact hpoints

theorem Site.right_of_pcrel_hi20 (site : Site a r) (hkind : r.rela_type = .R_RISCV_PCREL_HI20)
    (hin : Signed 32 12 (hi20 (site.target - site.pc))) : Right a r := by
  have hop := takes_pcrel_hi20 (hkind ▸ site.takes)
  have hnew : site.newImm = some (upper (site.target - site.pc)) := by
    unfold newImm
    rw [hkind]
  refine site.right_of_upper hnew (by rw [hkind]; decide) (.inr ⟨hop, rfl⟩) hin
    fun a' hdecoded hpoints => ⟨site, _, hdecoded, ?_⟩
  rw [hkind]
  exact hpoints

theorem Site.right_of_lo12 (site : Site a r)
    (hkind : r.rela_type = .R_RISCV_LO12_I ∨ r.rela_type = .R_RISCV_LO12_S)
    (hin : land site.dec.op site.pc site.target = site.target) : Right a r := by
  have hlow : isLow r.rela_type = true := by rcases hkind with h | h <;> rw [h] <;> rfl
  have hcall : r.rela_type ≠ .R_RISCV_CALL := by rcases hkind with h | h <;> rw [h] <;> decide
  have hnew : site.newImm = some (lower site.target) := by
    unfold newImm
    rcases hkind with hkind | hkind <;> rw [hkind]
  obtain ⟨hfits, hpoints⟩ := site.low_points hlow (hi20 site.target) site.target
    (by rw [hi20_add_lower, hin])
  refine site.right_of_refers hnew hcall hfits fun a' hdecoded => ⟨site, _, hdecoded, ?_⟩
  rcases hkind with hkind | hkind <;> rw [hkind] <;> exact hpoints

theorem Site.right_of_pcrel_lo12 (site : Site a r)
    (hkind : r.rela_type = .R_RISCV_PCREL_LO12_I ∨ r.rela_type = .R_RISCV_PCREL_LO12_S)
    {distance pc target : BitVec 64}
    (hdistance : (a.rename r site.label.name).pcrel_distance r site.target = some (some distance))
    (hpartner : partner a site.label = some (pc, target))
    (hland : land site.dec.op site.pc (pc + hi20 (target - pc) + sx (lower distance)) = target) :
    Right a r := by
  have hcall : r.rela_type ≠ .R_RISCV_CALL := by rcases hkind with h | h <;> rw [h] <;> decide
  obtain ⟨hfits, hpoints⟩ := site.low_points (isLow_of_pcrel hkind) _ distance hland
  refine site.right_of_refers (site.newImm_low hkind hdistance) hcall hfits fun a' hdecoded =>
    ⟨site, _, hdecoded, ?_⟩
  rcases hkind with hkind | hkind <;> rw [hkind] <;> exact ⟨pc, target, hpartner, hpoints⟩

theorem Site.right_of_call (site : Site a r) (hkind : r.rela_type = .R_RISCV_CALL)
    (hhigh : Signed 32 12 (hi20 (site.target - site.pc)))
    (heven : 2 ∣ (site.target - site.pc).toNat) {jalr : Isa.Decode} (hjump : site.Jump jalr) :
    Right a r := by
  obtain ⟨a', hrel, hdecoded, hnext⟩ := site.call_relocated hkind hjump hhigh
  refine Relocation.right_of_refers hrel ⟨site, _, hdecoded, ?_⟩
  rw [hkind]
  have hop := takes_call (hkind ▸ site.takes)
  have hsum : site.pc + sx (upper (site.target - site.pc)) + sx (lower (site.target - site.pc)) =
      site.target := by
    rw [BitVec.add_assoc, (sx_upper _).mpr hhigh, hi20_add_lower, add_sub_self]
  have hland : land .jalr (site.pc + 4) site.target = site.target := by
    have hfour : (4 : BitVec 64).toNat = 4 := rfl
    rw [land_jalr_self]
    rw [BitVec.toNat_sub] at heven ⊢
    rw [BitVec.toNat_add, hfour]
    omega
  refine ⟨jalr, lower (site.target - site.pc), hjump, hnext, ?_⟩
  refine (calls_iff { site.dec with imm := upper (site.target - site.pc) }
    { jalr with imm := lower (site.target - site.pc) } hop hjump.op hjump.rs1 hjump.rd).mpr ?_
  show land .jalr (site.pc + 4) (site.pc + sx (upper (site.target - site.pc)) +
    sx (lower (site.target - site.pc))) = site.target
  rw [hsum, hland]

theorem right_of_meets (h : Meets a r) : Right a r := by
  intro hpatches
  rcases h hpatches with hnone | h
  · exact right_of_rejected (relocate_none hnone) hpatches
  · cases hkind : r.rela_type with
    | R_RISCV_JAL =>
      rw [hkind] at h
      obtain ⟨site, hin⟩ := h
      have hop := takes_jal (hkind ▸ site.takes)
      rw [Site.InField, hkind] at hin
      exact site.right_of_jump (.inl hkind) (.inl hop) (hop ▸ hin) hpatches
    | R_RISCV_BRANCH =>
      rw [hkind] at h
      obtain ⟨site, hin⟩ := h
      obtain ⟨b, hop⟩ := takes_branch (hkind ▸ site.takes)
      rw [Site.InField, hkind] at hin
      exact site.right_of_jump (.inr hkind) (.inr ⟨b, hop⟩) (hop ▸ hin) hpatches
    | R_RISCV_HI20 =>
      rw [hkind] at h
      obtain ⟨site, hin⟩ := h
      rw [Site.InField, hkind] at hin
      exact site.right_of_hi20 hkind hin hpatches
    | R_RISCV_LO12_I | R_RISCV_LO12_S =>
      rw [hkind] at h
      obtain ⟨site, hin⟩ := h
      rw [Site.InField, hkind] at hin
      exact site.right_of_lo12 (by simp [hkind]) hin hpatches
    | R_RISCV_PCREL_HI20 =>
      rw [hkind] at h
      obtain ⟨site, hin⟩ := h
      rw [Site.InField, hkind] at hin
      exact site.right_of_pcrel_hi20 hkind hin hpatches
    | R_RISCV_PCREL_LO12_I | R_RISCV_PCREL_LO12_S =>
      rw [hkind] at h
      rcases h with hunmarked | ⟨site, distance, pc, target, hdistance, hpartner, hland⟩
      · obtain ⟨a', hrel⟩ := relocate_unmarked (by simp [hkind]) hunmarked
        exact right_of_rejected hrel hpatches
      · exact site.right_of_pcrel_lo12 (by simp [hkind]) hdistance hpartner hland hpatches
    | R_RISCV_CALL =>
      rw [hkind] at h
      obtain ⟨site, hin, jalr, hjump⟩ := h
      rw [Site.InField, hkind] at hin
      exact site.right_of_call hkind hin.1 hin.2 hjump hpatches
    | R_RISCV_32 | R_RISCV_64 | other =>
      rw [hkind] at hpatches
      cases hpatches

end

/-- **When relocations are right**: every kind that patches instructions, every label, site and
section base. -/
theorem relocate_right_iff (a : Assembler) (r : Reloc) : Right a r ↔ Meets a r :=
  ⟨meets_of_right, right_of_meets⟩

/-- A branch at the start of `.text` to a label 4096 bytes further on. -/
def farBranch : Assembler :=
  Assembler.init.run [.add_reloc "far".toList .R_RISCV_BRANCH, .append 4 0x63,
    .add_label_at "far".toList (section_offset 1 4096)]

def farReloc : Reloc := ⟨section_offset 1 0, "far".toList, .R_RISCV_BRANCH⟩

theorem farBranch_not_right : ¬ Right farBranch farReloc := by
  intro hright
  have hlabel : farBranch.lookup_label farReloc farReloc.name =
      some ⟨"far".toList, section_offset 1 4096, 0⟩ := rfl
  rcases meets_of_right hright rfl with hnone | ⟨site, hin⟩
  · cases hlabel.symm.trans hnone
  · have hsite : some ⟨"far".toList, section_offset 1 4096, 0⟩ = some site.label :=
      hlabel.symm.trans site.lookup
    have htarget := site.symbol_offset
    rw [← Option.some.inj hsite] at htarget
    have hpc : some 0 = some site.pc := site.reloc_offset
    obtain ⟨-, hlt, -⟩ : Signed 13 1 (site.target - site.pc) := hin
    rw [← Option.some.inj hpc, ← Option.some.inj (show some 4096 = some site.target from htarget)]
      at hlt
    exact absurd hlt (by decide)

end RvCkpt.Emu.Relocation
