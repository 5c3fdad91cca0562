import RvCkpt.Mmu.Access

/-! # Memory accesses of the soft MMU

`inst_fetch`, `amo`, `load` and `store` of `src/src/emu/mmu-soft.h` over `translate_addr`, with the
checks that they make of the TLB entry.
-/

namespace RvCkpt.Mmu
set_option autoImplicit false
open ByteMem Priv Isa

/-! ## The processor and the entry -/

/-- What accesses read of the processor: its mode, the fields of mstatus, and the address space. -/
structure Proc (P : Param) where
  mode : Mode
  mprv : Bool
  mpp : Mode
  mxr : Bool
  pum : Bool
  vm : BitVec 4
  pdid : UX P
  sptbr : UX P

variable {P : Param} {k : ℕ}

namespace TlbEntry

def r (e : TlbEntry P) : Bool := e.pteb.getLsbD 1

def w (e : TlbEntry P) : Bool := e.pteb.getLsbD 2

def x (e : TlbEntry P) : Bool := e.pteb.getLsbD 3

def u (e : TlbEntry P) : Bool := e.pteb.getLsbD 4

end TlbEntry

namespace Proc
variable (p : Proc P)

/-- The test that the three checks share, with what U=1 pages fault for. -/
def modeFault (level : Mode) (e : TlbEntry P) (pum : Bool) : Bool :=
  if e.u then decide (Mode.U.toNat < level.toNat) && pum else decide (level.toNat < Mode.S.toNat)

def fetch_access_fault (level : Mode) : Option (TlbEntry P) → Bool
  | none => false
  | some e => !e.x || modeFault level e true

def load_access_fault (level : Mode) : Option (TlbEntry P) → Bool
  | none => false
  | some e => (!e.r && !(e.x && p.mxr)) || modeFault level e p.pum

def store_access_fault (level : Mode) : Option (TlbEntry P) → Bool
  | none => false
  | some e => !e.w || modeFault level e p.pum

def effective_mode (op : MmuOp) : Mode :=
  if Mode.M.toNat ≤ p.mode.toNat ∧ p.mprv = true ∧ op ≠ .fetch ∧ p.mpp.toNat ≤ Mode.S.toNat then
    p.mpp
  else p.mode

end Proc

/-! ## Translation -/

/-- `rv_vm`, as far as `translate_addr` knows it; `none` for the mode without translation. -/
def vmMode (vm : BitVec 4) : Option (Option Paging) :=
  match vm.toNat with
  | 0 => some none
  | 8 => some (some sv32)
  | 9 => some (some sv39)
  | 10 => some (some sv48)
  | _ => none

/-- How an access ends: with an exception, with a value, without either, or with the emulator. -/
inductive Result (α : Type) where
  | raised (cause : Cause)
  | value (a : α)
  | ignored
  | panic
  deriving DecidableEq, Repr

/-- What `translate_addr` returns, with `tlb_ent`. -/
abbrev Address (P : Param) := Result (BitVec 64 × Option (TlbEntry P))

/-- The entry that `lookup` and `insert` point to. -/
def MmuSoft.slot (u : MmuSoft P k) (op : MmuOp) (va : UX P) : TlbEntry P :=
  u.tlb op.l1 ((vpnOf va).setWidth k)

/-- `translate_addr`; `none` if the walk has not ended when the fuel is used up. -/
def translate_addr (so : ShiftOver) (p : Proc P) (u : MmuSoft P k) (va : UX P) (op : MmuOp)
    (fuel : ℕ) : Option (Address P × MmuSoft P k) :=
  if Mode.M.toNat ≤ (p.effective_mode op).toNat then some (.value (va.setWidth 64, none), u)
  else
    match vmMode p.vm with
    | none => some (.panic, u)
    | some none => some (.value (va.setWidth 64, none), u)
    | some (some M) =>
      (u.translate so M ⟨p.pdid, p.sptbr, va, op⟩ fuel).map fun t =>
        match t.1 with
        | .error cause => (.raised cause, t.2)
        | .ok mpa => (.value (mpa, some (t.2.slot op va)), t.2)

/-! ## Accesses -/

/-- An access that `misaligned` does not let through. -/
def misalignedAccess (va : UX P) (bytes : ℕ) : Bool := va &&& BitVec.ofNat P.width (bytes - 1) ≠ 0

/-- What the routines have in common: alignment, translation, and the test for address 0 that
stands for a translation that failed. -/
def accessing {α : Type} (so : ShiftOver) (p : Proc P) (u : MmuSoft P k) (va : UX P) (bytes : ℕ)
    (op : MmuOp) (cause : Cause) (fuel : ℕ)
    (body : BitVec 64 → Option (TlbEntry P) → MmuSoft P k → Result α × MmuSoft P k) :
    Option (Result α × MmuSoft P k) :=
  if misalignedAccess va bytes then some (.raised cause, u)
  else
    (translate_addr so p u va op fuel).map fun t =>
      match t.1 with
      | .raised cause => (.raised cause, t.2)
      | .panic => (.panic, t.2)
      | .ignored => (.ignored, t.2)
      | .value (mpa, ent) => if mpa = 0 then (.ignored, t.2) else body mpa ent t.2

/-- The address as the bus takes it. -/
def busAddr (P : Param) (mpa : BitVec 64) : ℕ := (mpa.setWidth P.width).toNat

/-- The bytes of an instruction that starts with the half-word; `none` for lengths beyond 8. -/
def instLength (half : BitVec 64) : Option ℕ :=
  if half &&& 0b11 ≠ 0b11 then some 2
  else if half &&& 0b11100 ≠ 0b11100 then some 4
  else if half &&& 0b111111 = 0b011111 then some 6
  else if half &&& 0b1111111 = 0b0111111 then some 8
  else none

/-- The first `n` half-words of an instruction, which are at `addr 0`, `addr 1` and so on. -/
def loadHalves (b : Bus) (addr : ℕ → ℕ) : ℕ → Option (BitVec 64)
  | 0 => some 0
  | n + 1 =>
    match loadHalves b addr n with
    | none => none
    | some low => (b.load (addr n) 2).map fun half : BitVec 64 => low ||| half <<< (16 * n)

/-- Where `inst_fetch` loads the half-words of the instruction at `mpa`. -/
def halfAddr (P : Param) (mpa : BitVec 64) (i : ℕ) : ℕ := busAddr P (mpa + BitVec.ofNat 64 (2 * i))

/-- The instruction at `mpa` and its length. -/
def loadInst (P : Param) (b : Bus) (mpa : BitVec 64) : Option (BitVec 64 × ℕ) :=
  match b.load (busAddr P mpa) 2 with
  | none => none
  | some half =>
    match instLength half with
    | none => none
    | some length => (loadHalves b (halfAddr P mpa) (length / 2)).map fun inst => (inst, length)

section
variable (so : ShiftOver) (p : Proc P) (u : MmuSoft P k) (va : UX P)

/-- `inst_fetch` -/
def inst_fetch (fuel : ℕ) : Option (Result (BitVec 64 × ℕ) × MmuSoft P k) :=
  accessing so p u va 2 .fetch .misaligned_fetch fuel fun mpa ent u' =>
    if Proc.fetch_access_fault p.mode ent then (.raised .fault_fetch, u')
    else
      match loadInst P u'.bus mpa with
      | none => (.raised .fault_fetch, u')
      | some inst => (.value inst, u')

/-- `amo` -/
def amo (op : AmoOp) (width : AmoWidth) (val2 : BitVec 64) (fuel : ℕ) :
    Option (Result (BitVec 64) × MmuSoft P k) :=
  accessing so p u va width.bytes .store .misaligned_store fuel fun mpa ent u' =>
    if p.load_access_fault p.mode ent then (.raised .fault_store, u')
    else
      match u'.bus.load (busAddr P mpa) width.bytes with
      | none => (.raised .fault_store, u')
      | some val1 =>
        let val := op.eval (width.extend val1) (width.extend val2)
        if p.store_access_fault p.mode ent then (.raised .fault_store, u')
        else
          match u'.bus.store (busAddr P mpa) width.bytes val with
          | none => (.raised .fault_store, u')
          | some b => (.value (width.extend val1), { u' with bus := b })

/-- `load` -/
def load (op : LoadOp) (fuel : ℕ) : Option (Result (BitVec 64) × MmuSoft P k) :=
  accessing so p u va op.bytes .load .misaligned_load fuel fun mpa ent u' =>
    if p.load_access_fault p.mode ent then (.raised .fault_load, u')
    else
      match u'.bus.load (busAddr P mpa) op.bytes with
      | none => (.raised .fault_load, u')
      | some val => (.value val, u')

/-- `store` -/
def store (op : StoreOp) (val : BitVec 64) (fuel : ℕ) : Option (Result Unit × MmuSoft P k) :=
  accessing so p u va op.bytes .store .misaligned_store fuel fun mpa ent u' =>
    if p.store_access_fault p.mode ent then (.raised .fault_store, u')
    else
      match u'.bus.store (busAddr P mpa) op.bytes val with
      | none => (.raised .fault_store, u')
      | some b => (.value (), { u' with bus := b })

end

end RvCkpt.Mmu
