import RvCkpt.Mmu.Outcome

/-! # Instructions on two pages

`inst_fetch` translates the address of the first half-word and loads the others behind it. When
that is where the other page's translation has them.
-/

namespace RvCkpt.Mmu
set_option autoImplicit false
open ByteMem Priv Isa

/-- A fetch that has loaded the first half-word and knows the length of the instruction. -/
structure Fetching (P : Param) (k : ℕ) where
  pc : UX P
  mpa : BitVec 64
  unit : MmuSoft P k
  length : ℕ

variable {P : Param} {k : ℕ}

section
variable (so : ShiftOver) (p : Proc P)

/-- How far a fetch comes by itself. -/
def begin_fetch (u : MmuSoft P k) (pc : UX P) (fuel : ℕ) : Option (Fetching P k) :=
  if misalignedAccess pc 2 then none
  else
    match translate_addr so p u pc .fetch fuel with
    | some (.value (mpa, ent), u') =>
      if mpa = 0 ∨ Proc.fetch_access_fault p.mode ent = true then none
      else
        match u'.bus.load (busAddr P mpa) 2 with
        | none => none
        | some half => (instLength half).map fun length => ⟨pc, mpa, u', length⟩
    | _ => none

namespace Fetching
variable (F : Fetching P k)

/-- The half-words of the instruction. -/
def halves : ℕ := F.length / 2

/-- The half-words that the first page holds from the address on. -/
def before : ℕ := (2 ^ pageShift - F.pc.toNat % 2 ^ pageShift) / 2

/-- The instruction goes on on another page. -/
def Crosses : Prop := F.before < F.halves

/-- The virtual address of the first half-word on the other page. -/
def nextPage : UX P := F.pc + BitVec.ofNat P.width (2 * F.before)

/-- The physical address of the other page, if it may be executed; the outer `none` if its walk has
not ended. -/
def otherPage (fuel : ℕ) : Option (Option (BitVec 64)) :=
  (translate_addr so p F.unit F.nextPage .fetch fuel).map fun t =>
    match t.1 with
    | .value (mpa, ent) => if Proc.fetch_access_fault p.mode ent then none else some mpa
    | _ => none

/-- Where the half-words are if the other page is at `mpa₂`. -/
def splitAddr (mpa₂ : BitVec 64) (i : ℕ) : ℕ :=
  if i < F.before then halfAddr P F.mpa i else halfAddr P mpa₂ (i - F.before)

/-- The fetch ends as the translations of both pages say. -/
def Ends (other : Option (BitVec 64)) : Result (BitVec 64 × ℕ) → Prop
  | .value (inst, length) =>
    ∃ mpa₂, other = some mpa₂ ∧ (∀ i < F.halves, halfAddr P F.mpa i = F.splitAddr mpa₂ i) ∧
      loadHalves F.unit.bus (F.splitAddr mpa₂) F.halves = some inst ∧ length = F.length
  | .raised cause =>
    cause = .fault_fetch ∧
      ∀ mpa₂, other = some mpa₂ → loadHalves F.unit.bus (F.splitAddr mpa₂) F.halves = none
  | _ => False

end Fetching

/-- Where an instruction is on two pages, each half-word comes from the translation of its own
page, or the fault is raised. -/
def FetchRight (u : MmuSoft P k) (pc : UX P) : Prop :=
  ∀ fuel F, begin_fetch so p u pc fuel = some F → F.Crosses →
    ∃ fuel' other r u', F.otherPage so p fuel' = some other ∧
      inst_fetch so p u pc fuel = some (r, u') ∧ F.Ends other r

/-- Where an instruction is on two pages, the other page can be executed and is the physically
next one, or neither the bytes that follow physically nor those on the other page can be had. -/
def FetchSafe (u : MmuSoft P k) (pc : UX P) : Prop :=
  ∀ fuel F, begin_fetch so p u pc fuel = some F → F.Crosses →
    ∃ fuel' other, F.otherPage so p fuel' = some other ∧
      ((∃ mpa₂, other = some mpa₂ ∧ busAddr P mpa₂ = halfAddr P F.mpa F.before) ∨
        loadHalves F.unit.bus (halfAddr P F.mpa) F.halves = none ∧
          ∀ mpa₂, other = some mpa₂ → loadHalves F.unit.bus (F.splitAddr mpa₂) F.halves = none)

end

/-! ## The half-words -/

theorem Param.width_le (P : Param) : P.width ≤ 64 := by
  rcases P.hword with h | h <;> omega

theorem busAddr_add_congr {x x' : BitVec 64} (h : busAddr P x = busAddr P x') (y : BitVec 64) :
    busAddr P (x + y) = busAddr P (x' + y) := by
  have hword : x.setWidth P.width = x'.setWidth P.width := BitVec.eq_of_toNat_eq h
  unfold busAddr
  rw [BitVec.setWidth_add _ _ P.width_le, BitVec.setWidth_add _ _ P.width_le, hword]

/-- Half-words that follow each other from one address follow each other from a later one. -/
theorem halfAddr_of_next {mpa mpa₂ : BitVec 64} {c : ℕ} (h : busAddr P mpa₂ = halfAddr P mpa c)
    {i : ℕ} (hi : c ≤ i) : halfAddr P mpa₂ (i - c) = halfAddr P mpa i := by
  unfold halfAddr at h ⊢
  rw [busAddr_add_congr h, BitVec.add_assoc, ← BitVec.ofNat_add, ← Nat.mul_add,
    Nat.add_sub_cancel' hi]

theorem loadHalves_congr (b : Bus) {addr addr' : ℕ → ℕ} {n : ℕ} (h : ∀ i < n, addr i = addr' i) :
    loadHalves b addr n = loadHalves b addr' n := by
  induction n with
  | zero => rfl
  | succ n ih =>
    rw [loadHalves, loadHalves, ih (fun i hi => h i (Nat.lt_succ_of_lt hi)), h n (Nat.lt_succ_self n)]

section
variable {so : ShiftOver} {p : Proc P} {u : MmuSoft P k} {pc : UX P} {F : Fetching P k} {fuel : ℕ}

/-- How a fetch ends that has come as far as the length of the instruction. -/
theorem inst_fetch_of_begin (h : begin_fetch so p u pc fuel = some F) :
    inst_fetch so p u pc fuel =
      some (match loadHalves F.unit.bus (halfAddr P F.mpa) F.halves with
        | none => (.raised .fault_fetch, F.unit)
        | some inst => (.value (inst, F.length), F.unit)) := by
  unfold begin_fetch at h
  unfold inst_fetch accessing
  by_cases hmis : misalignedAccess pc 2 = true
  · rw [if_pos hmis] at h
    cases h
  · rw [if_neg hmis] at h ⊢
    cases ht : translate_addr so p u pc .fetch fuel with
    | none =>
      rw [ht] at h
      cases h
    | some t =>
      rw [ht] at h
      obtain ⟨r, u'⟩ := t
      cases r with
      | raised cause => cases h
      | ignored => cases h
      | panic => cases h
      | value a =>
        obtain ⟨mpa, ent⟩ := a
        dsimp only at h
        rw [Option.map_some]
        by_cases hstop : mpa = 0 ∨ Proc.fetch_access_fault p.mode ent = true
        · rw [if_pos hstop] at h
          cases h
        · rw [if_neg hstop] at h
          obtain ⟨hzero, hfault⟩ := not_or.mp hstop
          dsimp only
          rw [if_neg hzero, if_neg hfault, loadInst]
          cases hload : u'.bus.load (busAddr P mpa) 2 with
          | none =>
            rw [hload] at h
            cases h
          | some half =>
            rw [hload] at h
            obtain ⟨length, hlen, rfl⟩ := Option.map_eq_some_iff.mp h
            dsimp only
            rw [hlen]
            dsimp only [Fetching.halves]
            cases loadHalves u'.bus (halfAddr P mpa) (length / 2) <;> rfl

/-- Where the other page is the physically next one, the two ways to the half-words are one. -/
theorem splitAddr_of_next {mpa₂ : BitVec 64} (h : busAddr P mpa₂ = halfAddr P F.mpa F.before) (i : ℕ) :
    halfAddr P F.mpa i = F.splitAddr mpa₂ i := by
  unfold Fetching.splitAddr
  split
  · rfl
  · rename_i hi
    exact (halfAddr_of_next h (Nat.le_of_not_lt hi)).symm

theorem next_of_splitAddr {mpa₂ : BitVec 64} (hc : F.Crosses)
    (h : ∀ i < F.halves, halfAddr P F.mpa i = F.splitAddr mpa₂ i) :
    busAddr P mpa₂ = halfAddr P F.mpa F.before := by
  have hfirst := h F.before hc
  rw [Fetching.splitAddr, if_neg (Nat.lt_irrefl _), Nat.sub_self] at hfirst
  rw [hfirst, halfAddr, Nat.mul_zero, BitVec.add_zero]

/-- One fetch: it ends as the translations say exactly if the pages follow each other physically
or nothing can be had on either way. -/
theorem ends_iff (hc : F.Crosses) (other : Option (BitVec 64)) :
    F.Ends other (match loadHalves F.unit.bus (halfAddr P F.mpa) F.halves with
      | none => .raised .fault_fetch
      | some inst => .value (inst, F.length)) ↔
    (∃ mpa₂, other = some mpa₂ ∧ busAddr P mpa₂ = halfAddr P F.mpa F.before) ∨
      loadHalves F.unit.bus (halfAddr P F.mpa) F.halves = none ∧
        ∀ mpa₂, other = some mpa₂ → loadHalves F.unit.bus (F.splitAddr mpa₂) F.halves = none := by
  cases hload : loadHalves F.unit.bus (halfAddr P F.mpa) F.halves with
  | none =>
    constructor
    · intro h
      exact .inr ⟨rfl, h.2⟩
    · rintro (⟨mpa₂, rfl, hnext⟩ | ⟨-, hnone⟩)
      · refine ⟨rfl, ?_⟩
        intro mpa₃ heq
        obtain rfl := Option.some.inj heq
        rw [← loadHalves_congr F.unit.bus fun i _ => splitAddr_of_next hnext i]
        exact hload
      · exact ⟨rfl, hnone⟩
  | some inst =>
    constructor
    · rintro ⟨mpa₂, hother, haddr, -, -⟩
      exact .inl ⟨mpa₂, hother, next_of_splitAddr hc haddr⟩
    · rintro (⟨mpa₂, rfl, hnext⟩ | ⟨hnone, -⟩)
      · refine ⟨mpa₂, rfl, fun i _ => splitAddr_of_next hnext i, ?_, rfl⟩
        rw [← loadHalves_congr F.unit.bus fun i _ => splitAddr_of_next hnext i]
        exact hload
      · cases hnone

end

theorem FetchRight.safe {so : ShiftOver} {p : Proc P} {u : MmuSoft P k} {pc : UX P}
    (h : FetchRight so p u pc) : FetchSafe so p u pc := by
  intro fuel F hF hc
  obtain ⟨fuel', other, r, u', hother, hrun, hends⟩ := h fuel F hF hc
  rw [inst_fetch_of_begin hF] at hrun
  refine ⟨fuel', other, hother, (ends_iff hc other).mp ?_⟩
  cases hload : loadHalves F.unit.bus (halfAddr P F.mpa) F.halves with
  | none =>
    rw [hload] at hrun
    obtain ⟨rfl, rfl⟩ := Prod.mk.inj (Option.some.inj hrun)
    exact hends
  | some inst =>
    rw [hload] at hrun
    obtain ⟨rfl, rfl⟩ := Prod.mk.inj (Option.some.inj hrun)
    exact hends

/-- **When a fetch across two pages follows both translations**, for every processor state, TLB,
memory and address. -/
theorem fetchRight_iff (so : ShiftOver) (p : Proc P) (u : MmuSoft P k) (pc : UX P) :
    FetchRight so p u pc ↔ FetchSafe so p u pc := by
  constructor
  · exact FetchRight.safe
  · intro h fuel F hF hc
    obtain ⟨fuel', other, hother, hsafe⟩ := h fuel F hF hc
    have hends := (ends_iff hc other).mpr hsafe
    refine ⟨fuel', other, _, F.unit, hother, ?_, hends⟩
    rw [inst_fetch_of_begin hF]
    cases loadHalves F.unit.bus (halfAddr P F.mpa) F.halves <;> rfl

/-! ## Fuel -/

section
variable {so : ShiftOver} {n m : ℕ}

theorem walk_page_table_mono {M : Paging} {b : Bus} {sptbr va : UX P} {op : MmuOp}
    {r : Walk P.width × ℕ} (h : walk_page_table so P M b sptbr va op n = some r) (hm : n ≤ m) :
    walk_page_table so P M b sptbr va op m = some r :=
  walkFrom_loads so va op h ((walkFrom_spec so va op h).2.trans hm)

theorem page_translate_addr_tlb_miss_mono {M : Paging} {tlb : Tlb P k} {b : Bus} {x : Access P}
    {t : Translated P k} (h : page_translate_addr_tlb_miss so M tlb b x n = some t) (hm : n ≤ m) :
    page_translate_addr_tlb_miss so M tlb b x m = some t := by
  unfold page_translate_addr_tlb_miss at h ⊢
  cases hwalk : walk_page_table so P M b x.sptbr x.va x.op n with
  | none =>
    rw [hwalk] at h
    cases h
  | some r =>
    rw [hwalk] at h
    rw [walk_page_table_mono hwalk hm]
    exact h

theorem page_translate_addr_mono {M : Paging} {tlb : Tlb P k} {b : Bus} {x : Access P}
    {t : Translated P k} (h : page_translate_addr so M tlb b x n = some t) (hm : n ≤ m) :
    page_translate_addr so M tlb b x m = some t := by
  unfold page_translate_addr at h ⊢
  cases hlook : tlb.lookup x.pdid x.asid x.va with
  | none =>
    rw [hlook] at h
    exact page_translate_addr_tlb_miss_mono h hm
  | some e =>
    rw [hlook] at h
    dsimp only at h ⊢
    by_cases hout : e.outdated x.op = true
    · rw [if_pos hout] at h ⊢
      exact h
    · rw [if_neg hout] at h ⊢
      exact page_translate_addr_tlb_miss_mono h hm

/-- More fuel gives no other translation. -/
theorem translate_addr_mono {p : Proc P} {u : MmuSoft P k} {va : UX P} {op : MmuOp}
    {t : Address P × MmuSoft P k} (h : translate_addr so p u va op n = some t) (hm : n ≤ m) :
    translate_addr so p u va op m = some t := by
  unfold translate_addr at h ⊢
  by_cases hmode : Mode.M.toNat ≤ (p.effective_mode op).toNat
  · rw [if_pos hmode] at h ⊢
    exact h
  · rw [if_neg hmode] at h ⊢
    cases hvm : vmMode p.vm with
    | none =>
      rw [hvm] at h
      exact h
    | some vm =>
      rw [hvm] at h
      cases vm with
      | none => exact h
      | some M =>
        dsimp only [MmuSoft.translate] at h ⊢
        rw [Option.map_map, Option.map_eq_some_iff] at h ⊢
        obtain ⟨t', ht', heq⟩ := h
        exact ⟨t', page_translate_addr_mono ht' hm, heq⟩

theorem otherPage_unique {p : Proc P} {F : Fetching P k} {o o' : Option (BitVec 64)}
    (h : F.otherPage so p n = some o) (h' : F.otherPage so p m = some o') : o = o' := by
  obtain ⟨t, ht, rfl⟩ := Option.map_eq_some_iff.mp h
  obtain ⟨t', ht', rfl⟩ := Option.map_eq_some_iff.mp h'
  have hn := translate_addr_mono ht (Nat.le_max_left n m)
  have hm := translate_addr_mono ht' (Nat.le_max_right n m)
  rw [Option.some.inj (hn.symm.trans hm)]

end

/-! ## Two gigabytes -/

/-- A memory whose first two entries map the gigabytes at 1 GiB and at 3 GiB, with the first half
of an instruction at the end of the former. -/
def splitBus : Bus :=
  ⟨fun a => if a = 0 then 0x49 else if a = 3 then 0x10 else if a = 8 then 0x49 else
    if a = 11 then 0x30 else if a = 0x7ffffffe then 3 else 0, fun _ => true, fun _ => true⟩

def splitProc : Proc param_rv64 := ⟨.S, false, .U, false, false, 9, 0, 0⟩

/-- The second half of the instruction is loaded behind the first gigabyte, not from the other. -/
theorem splitFetch_not_right :
    ¬ FetchRight ⟨fun _ _ x _ => x⟩ splitProc (MmuSoft.start param_rv64 7 splitBus) 0x3ffffffe := by
  intro h
  have hfetch : (begin_fetch ⟨fun _ _ x _ => x⟩ splitProc (MmuSoft.start param_rv64 7 splitBus)
      0x3ffffffe 1).map (fun F => (decide (F.before < F.halves), F.otherPage ⟨fun _ _ x _ => x⟩ splitProc 1,
        halfAddr param_rv64 F.mpa F.before, loadHalves F.unit.bus (halfAddr param_rv64 F.mpa) F.halves)) =
      some (true, some (some 0xc0000000), 0x80000000, some 3) := by decide
  obtain ⟨F, hF, hfacts⟩ := Option.map_eq_some_iff.mp hfetch
  simp only [Prod.mk.injEq, decide_eq_true_eq] at hfacts
  obtain ⟨hc, hother, hnext, hload⟩ := hfacts
  obtain ⟨fuel, other, hother', hsafe⟩ := h.safe 1 F hF hc
  obtain rfl := otherPage_unique hother hother'
  rcases hsafe with ⟨mpa₂, hmpa, haddr⟩ | ⟨hnone, -⟩
  · obtain rfl := Option.some.inj hmpa
    rw [hnext] at haddr
    exact absurd haddr (by decide)
  · rw [hload] at hnone
    cases hnone

end RvCkpt.Mmu
