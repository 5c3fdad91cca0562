import RvCkpt.Mmu.Walk

/-! # The tagged TLB

`tagged_tlb` of `src/src/emu/tlb-soft.h`: direct mapped, with entries in bit fields. What a lookup
finds is the newest entry that was inserted for its key and not flushed since, or nothing.
-/

namespace RvCkpt.Mmu
set_option autoImplicit false

/-- `tagged_tlb_entry` -/
structure TlbEntry (P : Param) where
  ppn : BitVec P.ppnBits
  asid : BitVec P.asidBits
  vpn : BitVec (P.width - pageShift)
  ptel : BitVec 2
  pteb : BitVec 10
  pdid : BitVec 32

variable {P : Param}

namespace TlbEntry

/-- The default constructor. -/
def empty : TlbEntry P := ⟨BitVec.allOnes _, BitVec.allOnes _, BitVec.allOnes _, 0, 0, 0⟩

def new (pdid asid vpn ptel pteb ppn : UX P) : TlbEntry P :=
  ⟨ppn.setWidth _, asid.setWidth _, vpn.setWidth _, ptel.setWidth _, pteb.setWidth _,
    pdid.setWidth _⟩

end TlbEntry

/-- A TLB with `2 ^ k` entries. -/
abbrev Tlb (P : Param) (k : ℕ) := BitVec k → TlbEntry P

def vpnOf (va : UX P) : UX P := va >>> pageShift

namespace Tlb

variable {k : ℕ}

/-- `flush(pdid)` -/
def flush (tlb : Tlb P k) (pdid : UX P) : Tlb P k :=
  fun i => if (tlb i).pdid.setWidth P.width ≠ pdid then tlb i else .empty

/-- `flush(pdid, asid)` -/
def flushAsid (tlb : Tlb P k) (pdid asid : UX P) : Tlb P k :=
  fun i =>
    if asid ≠ 0 ∧ (tlb i).pdid.setWidth P.width ≠ pdid ∧ (tlb i).asid.setWidth P.width ≠ asid then
      tlb i
    else .empty

def lookup (tlb : Tlb P k) (pdid asid va : UX P) : Option (TlbEntry P) :=
  let vpn := vpnOf va
  let e := tlb (vpn.setWidth k)
  if e.pdid.setWidth P.width = pdid ∧ e.asid.setWidth P.width = asid ∧
      e.vpn.setWidth P.width = vpn then
    some e
  else none

def insert (tlb : Tlb P k) (pdid asid va ptel pteb ppn : UX P) : Tlb P k :=
  let vpn := vpnOf va
  Function.update tlb (vpn.setWidth k) (.new pdid asid vpn ptel pteb ppn)

end Tlb

/-! ## What was inserted -/

inductive TlbEvent (P : Param) where
  | insert (pdid asid va ptel pteb ppn : UX P)
  | flush (pdid : UX P)
  | flushAsid (pdid asid : UX P)

/-- The TLB after the events, the newest of which comes first. -/
def tlbOf (k : ℕ) : List (TlbEvent P) → Tlb P k
  | [] => fun _ => .empty
  | .insert pdid asid va ptel pteb ppn :: log =>
    (tlbOf k log).insert pdid asid va ptel pteb ppn
  | .flush pdid :: log => (tlbOf k log).flush pdid
  | .flushAsid pdid asid :: log => (tlbOf k log).flushAsid pdid asid

/-- The level, the flags and the page number that were last inserted for a key and not flushed
since. -/
def latest (pdid asid vpn : UX P) : List (TlbEvent P) → Option (UX P × UX P × UX P)
  | [] => none
  | .insert pdid' asid' va ptel pteb ppn :: log =>
    if pdid' = pdid ∧ asid' = asid ∧ vpnOf va = vpn then some (ptel, pteb, ppn)
    else latest pdid asid vpn log
  | .flush pdid' :: log => if pdid' = pdid then none else latest pdid asid vpn log
  | .flushAsid pdid' asid' :: log =>
    if asid' = 0 ∨ pdid' = pdid ∨ asid' = asid then none else latest pdid asid vpn log

/-- The keys that entries are inserted for fit into the fields of an entry. -/
def TlbEvent.Fits : TlbEvent P → Prop
  | .insert pdid asid _ _ _ _ => pdid.toNat < 2 ^ 32 ∧ asid.toNat < 2 ^ P.asidBits
  | _ => True

/-- The key of an entry that was never filled. -/
def Sentinel (pdid asid vpn : UX P) : Prop :=
  pdid = 0 ∧ asid = (BitVec.allOnes P.asidBits).setWidth P.width ∧
    vpn = (BitVec.allOnes (P.width - pageShift)).setWidth P.width

section
variable {k : ℕ}

theorem setWidth_setWidth_of_lt {w v : ℕ} {x : BitVec w} (h : x.toNat < 2 ^ v) :
    (x.setWidth v).setWidth w = x := by
  apply BitVec.eq_of_toNat_eq
  rw [BitVec.toNat_setWidth, BitVec.toNat_setWidth, Nat.mod_eq_of_lt h,
    Nat.mod_eq_of_lt x.isLt]

theorem vpnOf_lt (va : UX P) : (vpnOf va).toNat < 2 ^ (P.width - pageShift) := by
  rw [vpnOf, BitVec.toNat_ushiftRight, Nat.shiftRight_eq_div_pow]
  have hle : pageShift ≤ P.width := by
    rcases P.hword with h | h <;> rw [h] <;> decide
  apply Nat.div_lt_of_lt_mul
  rw [← Nat.pow_add, Nat.add_sub_cancel' hle]
  exact va.isLt

/-- What a slot holds: nothing yet, or the newest entry of some key. -/
def Slot (log : List (TlbEvent P)) (i : BitVec k) (e : TlbEntry P) : Prop :=
  e = .empty ∨ ∃ pdid asid vpn ptel pteb ppn : UX P,
    pdid.toNat < 2 ^ 32 ∧ asid.toNat < 2 ^ P.asidBits ∧ vpn.toNat < 2 ^ (P.width - pageShift) ∧
      vpn.setWidth k = i ∧ latest pdid asid vpn log = some (ptel, pteb, ppn) ∧
        e = .new pdid asid vpn ptel pteb ppn

theorem slot_tlbOf {log : List (TlbEvent P)} (hfits : ∀ e ∈ log, e.Fits) (i : BitVec k) :
    Slot log i (tlbOf k log i) := by
  induction log with
  | nil => exact .inl rfl
  | cons e log ih =>
    have hrest := ih fun e' he' => hfits e' (List.mem_cons_of_mem _ he')
    cases e with
    | insert pdid asid va ptel pteb ppn =>
      obtain ⟨hpdid, hasid⟩ := hfits _ List.mem_cons_self
      by_cases hi : i = (vpnOf va).setWidth k
      · refine .inr ⟨pdid, asid, vpnOf va, ptel, pteb, ppn, hpdid, hasid, vpnOf_lt va, hi.symm, ?_, ?_⟩
        · exact if_pos ⟨rfl, rfl, rfl⟩
        · rw [hi]
          exact Function.update_self _ _ _
      · have hsame : tlbOf k (.insert pdid asid va ptel pteb ppn :: log) i = tlbOf k log i :=
          Function.update_of_ne hi _ _
        rw [hsame]
        rcases hrest with hempty | ⟨pdid', asid', vpn', ptel', pteb', ppn', h1, h2, h3, hslot, hlat, he⟩
        · exact .inl hempty
        · refine .inr ⟨pdid', asid', vpn', ptel', pteb', ppn', h1, h2, h3, hslot, ?_, he⟩
          rw [latest, if_neg]
          · exact hlat
          · rintro ⟨-, -, rfl⟩
            exact hi hslot.symm
    | flush pdid =>
      rcases hrest with hempty | ⟨pdid', asid', vpn', ptel', pteb', ppn', h1, h2, h3, hslot, hlat, he⟩
      · refine .inl ?_
        unfold tlbOf Tlb.flush
        split
        · exact hempty
        · rfl
      · unfold tlbOf Tlb.flush
        split
        · rename_i hne
          refine .inr ⟨pdid', asid', vpn', ptel', pteb', ppn', h1, h2, h3, hslot, ?_, he⟩
          rw [latest, if_neg]
          · exact hlat
          · rintro rfl
            apply hne
            rw [he]
            exact setWidth_setWidth_of_lt h1
        · exact .inl rfl
    | flushAsid pdid asid =>
      rcases hrest with hempty | ⟨pdid', asid', vpn', ptel', pteb', ppn', h1, h2, h3, hslot, hlat, he⟩
      · refine .inl ?_
        unfold tlbOf Tlb.flushAsid
        split
        · exact hempty
        · rfl
      · unfold tlbOf Tlb.flushAsid
        split
        · rename_i hne
          refine .inr ⟨pdid', asid', vpn', ptel', pteb', ppn', h1, h2, h3, hslot, ?_, he⟩
          rw [he] at hne
          obtain ⟨hzero, hpdid, hasid⟩ := hne
          rw [latest, if_neg]
          · exact hlat
          · rintro (h | rfl | rfl)
            · exact hzero h
            · exact hpdid (setWidth_setWidth_of_lt h1)
            · exact hasid (setWidth_setWidth_of_lt h2)
        · exact .inl rfl

/-- A lookup hits only on the newest entry of its key. -/
theorem lookup_latest {log : List (TlbEvent P)} (hfits : ∀ e ∈ log, e.Fits) {pdid asid va : UX P}
    (hsent : Sentinel pdid asid (vpnOf va) → tlbOf k log ((vpnOf va).setWidth k) ≠ .empty)
    {e : TlbEntry P}
    (h : (tlbOf k log).lookup pdid asid va = some e) :
    ∃ ptel pteb ppn, latest pdid asid (vpnOf va) log = some (ptel, pteb, ppn) ∧
      e = .new pdid asid (vpnOf va) ptel pteb ppn := by
  unfold Tlb.lookup at h
  dsimp only at h
  split at h
  · rename_i hkey
    obtain ⟨hpdid, hasid, hvpn⟩ := hkey
    obtain rfl := Option.some.inj h
    rcases slot_tlbOf hfits ((vpnOf va).setWidth k) with hempty | hfilled
    · rw [hempty] at hpdid hasid hvpn
      refine absurd hempty (hsent ⟨?_, hasid.symm, hvpn.symm⟩)
      rw [← hpdid]
      exact BitVec.setWidth_zero _ _
    · obtain ⟨pdid', asid', vpn', ptel, pteb, ppn, h1, h2, h3, -, hlat, he⟩ := hfilled
      rw [he] at hpdid hasid hvpn
      obtain rfl : pdid' = pdid := (setWidth_setWidth_of_lt h1).symm.trans hpdid
      obtain rfl : asid' = asid := (setWidth_setWidth_of_lt h2).symm.trans hasid
      obtain rfl : vpn' = vpnOf va := (setWidth_setWidth_of_lt h3).symm.trans hvpn
      exact ⟨ptel, pteb, ppn, hlat, he⟩
  · cases h

end

end RvCkpt.Mmu
