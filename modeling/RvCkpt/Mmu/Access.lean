import RvCkpt.Mmu.Translate

/-! # Translating accesses

`page_translate_addr` and `page_translate_addr_tlb_miss` of `src/src/emu/mmu-soft.h`, and a memory
management unit with its two TLBs. What these functions can do is said once, by
`page_translate_addr_cases`.
-/

namespace RvCkpt.Mmu
set_option autoImplicit false
open ByteMem Priv Isa

/-- An access to a virtual address, with what the processor says about it. -/
structure Access (P : Param) where
  pdid : UX P
  sptbr : UX P
  va : UX P
  op : MmuOp

/-- The address space of an access. -/
def Access.asid {P : Param} (x : Access P) : UX P := x.sptbr >>> P.ppnBits

/-- The first-level TLBs. -/
inductive L1 where
  | itlb | dtlb
  deriving DecidableEq, Repr

def MmuOp.l1 : MmuOp → L1
  | fetch => .itlb
  | _ => .dtlb

/-- What translating an access returns, with the TLB and the memory afterwards. -/
structure Translated (P : Param) (k : ℕ) where
  addr : Except Cause (BitVec 64)
  tlb : Tlb P k
  bus : Bus

section
variable (so : ShiftOver) {P : Param} (M : Paging) {k : ℕ}

/-- The physical address that a leaf gives. -/
def leafAddr (pte : Pte) (va level : UX P) : BitVec 64 :=
  page_translate_offset so M ((M.ppn pte).setWidth P.width) va level

/-- The physical address that a TLB entry gives. -/
def TlbEntry.addr (e : TlbEntry P) (va : UX P) : BitVec 64 :=
  page_translate_offset so M (e.ppn.setWidth P.width) va (e.ptel.setWidth P.width)

/-- `page_translate_addr_tlb_miss`; `none` if the walk has not ended when the fuel is used up. -/
def page_translate_addr_tlb_miss (tlb : Tlb P k) (bus : Bus) (x : Access P) (fuel : ℕ) :
    Option (Translated P k) :=
  match walk_page_table so P M bus x.sptbr x.va x.op fuel with
  | some (.leaf bus' pte level _, _) =>
    let pa := leafAddr so M pte x.va level
    if pa = 0 then some ⟨.ok 0, tlb, bus'⟩
    else
      some ⟨.ok pa, tlb.insert x.pdid x.asid x.va level (pte.flags.setWidth P.width)
        ((M.ppn pte).setWidth P.width), bus'⟩
  | some (.fault cause, _) => some ⟨.error cause, tlb, bus⟩
  | _ => none

/-- The flags that the access needs are not all in the entry. -/
def TlbEntry.outdated (e : TlbEntry P) (op : MmuOp) : Bool :=
  e.pteb.setWidth 64 &&& op.adFlags ≠ op.adFlags

/-- `page_translate_addr`: an entry that is up to date is walked for again, one that is not is
used. -/
def page_translate_addr (tlb : Tlb P k) (bus : Bus) (x : Access P) (fuel : ℕ) :
    Option (Translated P k) :=
  match tlb.lookup x.pdid x.asid x.va with
  | some e =>
    if e.outdated x.op then some ⟨.ok (e.addr so M x.va), tlb, bus⟩
    else page_translate_addr_tlb_miss so M tlb bus x fuel
  | none => page_translate_addr_tlb_miss so M tlb bus x fuel

/-- What walking the page table gives for an access. -/
def walked (bus : Bus) (x : Access P) (fuel : ℕ) : Option (Except Cause (BitVec 64)) :=
  match walk_page_table so P M bus x.sptbr x.va x.op fuel with
  | some (.leaf _ pte level _, _) => some (.ok (leafAddr so M pte x.va level))
  | some (.fault cause, _) => some (.error cause)
  | _ => none

/-- The entry of the page table that an access walks to. -/
def walkedEntry (bus : Bus) (x : Access P) (fuel : ℕ) : Option ℕ :=
  match walk_page_table so P M bus x.sptbr x.va x.op fuel with
  | some (.leaf _ _ _ addr, _) => some addr
  | _ => none

end

/-! ## The leaf of a walk -/

theorem pageAligned_rootTable (P : Param) (sptbr : UX P) : PageAligned (rootTable P sptbr) :=
  pageAligned_shiftLeft P.pageShift_le _

/-- The descent of a walk from the root. -/
def descend (so : ShiftOver) (P : Param) (M : Paging) (bus : Bus) (sptbr va : UX P) (n : ℕ) :
    Option (Option (Found P.width)) :=
  leafFrom so M bus va n (BitVec.ofNat P.width (M.levels - 1)) (rootTable P sptbr)

section
variable {so : ShiftOver} {P : Param} {M : Paging} {bus : Bus} {sptbr va : UX P} {op : MmuOp}
  {fuel : ℕ}

theorem walk_page_table_eq_finish {w : Walk P.width} {n : ℕ}
    (h : walk_page_table so P M bus sptbr va op fuel = some (w, n)) :
    ∃ f, descend so P M bus sptbr va fuel = some f ∧ finish M bus op f = w := by
  have heq := walkFrom_eq_finish so M bus va op fuel (BitVec.ofNat P.width (M.levels - 1))
    (rootTable P sptbr)
  rw [walk_page_table] at h
  rw [h] at heq
  exact Option.map_eq_some_iff.mp heq.symm

/-- What a leaf that a walk returns has to do with the leaf that it found. -/
structure Updated (M : Paging) (bus bus' : Bus) (op : MmuOp) {width : ℕ} (f : Found width)
    (pte : Pte) (level : BitVec width) (addr : ℕ) : Prop where
  addr : addr = f.addr
  level : level = f.level
  same : pte.Same f.pte
  flags : pte.flags &&& op.adFlags = op.adFlags
  memory : bus' = bus ∧ f.pte.flags &&& op.adFlags = op.adFlags ∨
    bus.store f.addr M.size (f.pte.val ||| op.adFlags) = some bus'

theorem flags_or (pte : Pte) (op : MmuOp) :
    (Pte.mk (pte.val ||| op.adFlags)).flags &&& op.adFlags = op.adFlags := by
  have hflags : (op.adFlags.truncate 10).zeroExtend 64 = op.adFlags := by
    cases op <;> decide
  unfold Pte.flags
  apply BitVec.eq_of_getLsbD_eq
  intro i hi
  have hbit := congrArg (fun x => x.getLsbD i) hflags
  simp only [BitVec.getLsbD_setWidth, BitVec.truncate_eq_setWidth, BitVec.getLsbD_and,
    BitVec.getLsbD_or] at hbit ⊢
  cases hop : op.adFlags.getLsbD i with
  | false => simp
  | true =>
    rw [hop] at hbit
    simp only [hi, decide_true, Bool.true_and, Bool.and_true, decide_eq_true_eq] at hbit ⊢
    simp [hbit]

theorem finish_updated {width : ℕ} {f : Option (Found width)} {bus' : Bus} {pte : Pte}
    {level : BitVec width} {addr : ℕ} (h : finish M bus op f = .leaf bus' pte level addr) :
    ∃ g, f = some g ∧ Updated M bus bus' op g pte level addr := by
  cases f with
  | none => cases h
  | some g =>
    refine ⟨g, rfl, ?_⟩
    rw [finish] at h
    split at h
    · cases hstore : bus.store g.addr M.size (g.pte.val ||| op.adFlags) with
      | none =>
        rw [hstore] at h
        cases h
      | some b =>
        rw [hstore] at h
        cases h
        exact ⟨rfl, rfl, Pte.same_adFlags _ _, flags_or _ _, .inr hstore⟩
    · rename_i hflags
      cases h
      have hok := Decidable.not_not.mp hflags
      exact ⟨rfl, rfl, rfl, hok, .inl ⟨rfl, hok⟩⟩

/-- A walk that finds a leaf is a descent to it and an update of its flags. -/
theorem walk_leaf {bus' : Bus} {pte : Pte} {level : UX P} {addr n : ℕ}
    (h : walk_page_table so P M bus sptbr va op fuel = some (.leaf bus' pte level addr, n)) :
    ∃ f, descend so P M bus sptbr va fuel = some (some f) ∧
      f.pte.val = bus.mem.read f.addr M.size ∧ M.size ∣ f.addr ∧
        Updated M bus bus' op f pte level addr := by
  obtain ⟨f, hdesc, hfin⟩ := walk_page_table_eq_finish h
  obtain ⟨g, rfl, hup⟩ := finish_updated hfin
  obtain ⟨hdvd, hval⟩ := leafFrom_found P.hword (pageAligned_rootTable P sptbr) hdesc
  exact ⟨g, hdesc, hval, hdvd, hup⟩

theorem Updated.sameTables {width : ℕ} {bus' : Bus} {f : Found width} {pte : Pte}
    {level : BitVec width} {addr : ℕ} (h : Updated M bus bus' op f pte level addr)
    (hval : f.pte.val = bus.mem.read f.addr M.size) (hdvd : M.size ∣ f.addr) :
    SameTables M bus bus' := by
  rcases h.memory with ⟨rfl, -⟩ | hstore
  · exact SameTables.refl M _
  · rw [hval] at hstore
    exact sameTables_store hdvd hstore

end

/-! ## What a translation does -/

section
variable (so : ShiftOver) {P : Param} (M : Paging) {k : ℕ} (tlb : Tlb P k) (bus : Bus)
  (x : Access P) (fuel : ℕ)

/-- A translation that walks: through which leaf, and what becomes of it. -/
inductive Walks : Translated P k → Prop
  | zero {bus' : Bus} {pte : Pte} {level : UX P} {addr n : ℕ} :
    walk_page_table so P M bus x.sptbr x.va x.op fuel = some (.leaf bus' pte level addr, n) →
      leafAddr so M pte x.va level = 0 → Walks ⟨.ok 0, tlb, bus'⟩
  | leaf {bus' : Bus} {pte : Pte} {level : UX P} {addr n : ℕ} :
    walk_page_table so P M bus x.sptbr x.va x.op fuel = some (.leaf bus' pte level addr, n) →
      leafAddr so M pte x.va level ≠ 0 →
        Walks ⟨.ok (leafAddr so M pte x.va level), tlb.insert x.pdid x.asid x.va level
          (pte.flags.setWidth P.width) ((M.ppn pte).setWidth P.width), bus'⟩
  | fault {cause : Cause} {n : ℕ} :
    walk_page_table so P M bus x.sptbr x.va x.op fuel = some (.fault cause, n) →
      Walks ⟨.error cause, tlb, bus⟩

variable {so M tlb bus x fuel}

theorem tlb_miss_walks {t : Translated P k}
    (h : page_translate_addr_tlb_miss so M tlb bus x fuel = some t) :
    Walks so M tlb bus x fuel t := by
  unfold page_translate_addr_tlb_miss at h
  split at h
  · rename_i hwalk
    dsimp only at h
    split at h
    · rename_i hzero
      obtain rfl := Option.some.inj h
      exact .zero hwalk hzero
    · rename_i hpa
      obtain rfl := Option.some.inj h
      exact .leaf hwalk hpa
  · rename_i hwalk
    obtain rfl := Option.some.inj h
    exact .fault hwalk
  · cases h

/-- A translation uses an outdated entry or walks. -/
theorem page_translate_addr_cases {t : Translated P k}
    (h : page_translate_addr so M tlb bus x fuel = some t) :
    (∃ e, tlb.lookup x.pdid x.asid x.va = some e ∧ e.outdated x.op = true ∧
      t = ⟨.ok (e.addr so M x.va), tlb, bus⟩) ∨
    (∀ e, tlb.lookup x.pdid x.asid x.va = some e → e.outdated x.op = false) ∧
      Walks so M tlb bus x fuel t := by
  unfold page_translate_addr at h
  cases hlook : tlb.lookup x.pdid x.asid x.va with
  | none =>
    rw [hlook] at h
    exact .inr ⟨nofun, tlb_miss_walks h⟩
  | some e =>
    rw [hlook] at h
    dsimp only at h
    by_cases hout : e.outdated x.op = true
    · rw [if_pos hout] at h
      exact .inl ⟨e, rfl, hout, (Option.some.inj h).symm⟩
    · rw [if_neg hout] at h
      refine .inr ⟨?_, tlb_miss_walks h⟩
      intro e' he'
      obtain rfl := Option.some.inj he'
      exact Bool.eq_false_iff.mpr hout

/-- A translation that walks returns what the walk gives. -/
theorem Walks.walked {t : Translated P k} (h : Walks so M tlb bus x fuel t) :
    walked so M bus x fuel = some t.addr := by
  cases h with
  | zero hwalk hzero =>
    unfold Mmu.walked
    rw [hwalk]
    dsimp only
    rw [hzero]
  | leaf hwalk hpa =>
    unfold Mmu.walked
    rw [hwalk]
  | fault hwalk =>
    unfold Mmu.walked
    rw [hwalk]

end

/-! ## The unit -/

/-- `mmu_soft`, with the memory it translates for. -/
structure MmuSoft (P : Param) (k : ℕ) where
  tlb : L1 → Tlb P k
  bus : Bus

variable {P : Param} {k : ℕ}

/-- A memory whose first entry maps 4 MiB, readable and writable. -/
def leafBus : Bus := ⟨Mem.write (fun _ => 0) 0 4 0x100007, fun _ => true, fun _ => true⟩

/-- The unit at reset. -/
def MmuSoft.start (P : Param) (k : ℕ) (bus : Bus) : MmuSoft P k := ⟨fun _ _ => .empty, bus⟩

/-- `translate_addr` in a mode that is translated. -/
def MmuSoft.translate (so : ShiftOver) (M : Paging) (u : MmuSoft P k) (x : Access P) (fuel : ℕ) :
    Option (Except Cause (BitVec 64) × MmuSoft P k) :=
  (page_translate_addr so M (u.tlb x.op.l1) u.bus x fuel).map fun t =>
    (t.addr, ⟨Function.update u.tlb x.op.l1 t.tlb, t.bus⟩)

def MmuSoft.flush (u : MmuSoft P k) (l : L1) (pdid : UX P) : MmuSoft P k :=
  { u with tlb := Function.update u.tlb l ((u.tlb l).flush pdid) }

def MmuSoft.flushAsid (u : MmuSoft P k) (l : L1) (pdid asid : UX P) : MmuSoft P k :=
  { u with tlb := Function.update u.tlb l ((u.tlb l).flushAsid pdid asid) }

end RvCkpt.Mmu
