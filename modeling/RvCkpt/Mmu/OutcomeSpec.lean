import RvCkpt.Mmu.Outcome

/-! # What becomes of an access

An access either raises its exception or is performed at the physical address of its virtual one,
as the bits of the entry and the effective privilege decide; and when the soft MMU does so.
-/

namespace RvCkpt.Mmu
set_option autoImplicit false
open ByteMem Priv Isa

/-! ## Requests -/

/-- An access of a processor to a virtual address. -/
inductive Request where
  | fetch
  | load (op : LoadOp)
  | store (op : StoreOp) (val : BitVec 64)
  | amo (op : AmoOp) (width : AmoWidth) (val : BitVec 64)

/-- What an access returns: an instruction with its length, a value, or nothing. -/
inductive Datum where
  | inst (inst : BitVec 64) (length : ℕ)
  | val (x : BitVec 64)
  | unit
  deriving DecidableEq, Repr

def Result.map {α β : Type} (f : α → β) : Result α → Result β
  | raised cause => .raised cause
  | value a => .value (f a)
  | ignored => .ignored
  | panic => .panic

namespace Request

def op : Request → MmuOp
  | fetch => .fetch
  | load _ => .load
  | _ => .store

/-- The bytes that the address has to be a multiple of. -/
def bytes : Request → ℕ
  | fetch => 2
  | load op => op.bytes
  | store op _ => op.bytes
  | amo _ width _ => width.bytes

def misaligned : Request → Cause
  | fetch => .misaligned_fetch
  | load _ => .misaligned_load
  | _ => .misaligned_store

variable {P : Param} {k : ℕ}

/-- The routine of the soft MMU. -/
def run (so : ShiftOver) (p : Proc P) (u : MmuSoft P k) (va : UX P) (fuel : ℕ) :
    Request → Option (Result Datum × MmuSoft P k)
  | fetch => (inst_fetch so p u va fuel).map fun t => (t.1.map fun i => .inst i.1 i.2, t.2)
  | load op => (Mmu.load so p u va op fuel).map fun t => (t.1.map .val, t.2)
  | store op val => (Mmu.store so p u va op val fuel).map fun t => (t.1.map fun _ => .unit, t.2)
  | amo op width val => (Mmu.amo so p u va op width val fuel).map fun t => (t.1.map .val, t.2)

/-- The access to physical memory. -/
def perform (P : Param) (b : Bus) (mpa : BitVec 64) : Request → Option (Datum × Bus)
  | fetch => (loadInst P b mpa).map fun i => (.inst i.1 i.2, b)
  | load op => (b.load (busAddr P mpa) op.bytes).map fun x => (.val x, b)
  | store op val => (b.store (busAddr P mpa) op.bytes val).map fun b' => (.unit, b')
  | amo op width val =>
    match b.load (busAddr P mpa) width.bytes with
    | none => none
    | some old =>
      (b.store (busAddr P mpa) width.bytes
        (op.eval (width.extend old) (width.extend val))).map fun b' => (.val (width.extend old), b')

/-! ## Permission -/

/-- The bits of the entry that say what a page is for. -/
def allows (e : TlbEntry P) (mxr : Bool) : Request → Bool
  | fetch => e.x
  | load _ => e.r || (e.x && mxr)
  | store _ _ => e.w
  | amo _ _ _ => (e.r || (e.x && mxr)) && e.w

/-- A page is for the privilege of the access: a user page for user mode, and for the higher modes'
data unless PUM is set; any other page for the higher modes. -/
def reaches (e : TlbEntry P) (level : Mode) (pum : Bool) (q : Request) : Bool :=
  if e.u then decide (level = .U) || (decide (q.op ≠ .fetch) && !pum) else decide (level ≠ .U)

/-- The access is permitted at the privilege; without translation every access is. -/
def permitted (p : Proc P) (level : Mode) (ent : Option (TlbEntry P)) (q : Request) : Bool :=
  ent.all fun e => q.allows e p.mxr && q.reaches e level p.pum

end Request

variable {P : Param} {k : ℕ}

/-- The effective privilege: that of MPP for data accesses when MPRV is set. -/
def Proc.privilege (p : Proc P) (op : MmuOp) : Mode :=
  if p.mprv = true ∧ op ≠ .fetch then p.mpp else p.mode

namespace Request
variable (so : ShiftOver) (p : Proc P) (u : MmuSoft P k) (va : UX P) (q : Request)

/-- What is to become of an access that has been translated. -/
def outcome (level : Mode) (mpa : BitVec 64) (ent : Option (TlbEntry P)) (u : MmuSoft P k) :
    Result Datum × MmuSoft P k :=
  if q.permitted p level ent then
    match q.perform P u.bus mpa with
    | none => (.raised q.op.fault, u)
    | some (d, b) => (.value d, { u with bus := b })
  else (.raised q.op.fault, u)

/-- An access as it is to be: it raises an exception, or it is performed at the physical address,
whichever that is. -/
def expected (fuel : ℕ) : Option (Result Datum × MmuSoft P k) :=
  if misalignedAccess va q.bytes then some (.raised q.misaligned, u)
  else
    (translate_addr so p u va q.op fuel).bind fun t =>
      match t.1 with
      | .raised cause => some (.raised cause, t.2)
      | .value (mpa, ent) => some (q.outcome p (p.privilege q.op) mpa ent t.2)
      | _ => none

/-- The access ends as it is to. -/
def Right : Prop := ∃ fuel r, q.run so p u va fuel = some r ∧ q.expected so p u va fuel = some r

/-! ## The routines -/

/-- What the three checks have to do with the permission. -/
theorem modeFault_eq (e : TlbEntry P) (level : Mode) (pum : Bool) (hop : q.op ≠ .fetch) :
    Proc.modeFault level e pum = !q.reaches e level pum := by
  unfold Proc.modeFault reaches
  cases e.u <;> cases level <;> cases pum <;> simp [hop, Mode.toNat]

theorem modeFault_fetch (e : TlbEntry P) (level : Mode) (pum : Bool) :
    Proc.modeFault level e true = !fetch.reaches e level pum := by
  unfold Proc.modeFault reaches
  cases e.u <;> cases level <;> simp [op, Mode.toNat]

theorem fetch_access_fault_eq (level : Mode) (ent : Option (TlbEntry P)) :
    Proc.fetch_access_fault level ent = !fetch.permitted p level ent := by
  cases ent with
  | none => rfl
  | some e =>
    rw [Proc.fetch_access_fault, permitted, Option.all_some, modeFault_fetch e level p.pum, allows,
      Bool.not_and]

theorem load_access_fault_eq (level : Mode) (ent : Option (TlbEntry P)) (op : LoadOp) :
    p.load_access_fault level ent = !(load op).permitted p level ent := by
  cases ent with
  | none => rfl
  | some e =>
    rw [Proc.load_access_fault, permitted, Option.all_some, modeFault_eq (load op) e level p.pum nofun,
      allows, ← Bool.not_or, ← Bool.not_and]

theorem store_access_fault_eq (level : Mode) (ent : Option (TlbEntry P)) (op : StoreOp)
    (val : BitVec 64) :
    p.store_access_fault level ent = !(store op val).permitted p level ent := by
  cases ent with
  | none => rfl
  | some e =>
    rw [Proc.store_access_fault, permitted, Option.all_some,
      modeFault_eq (store op val) e level p.pum nofun, allows, Bool.not_and]

/-- The two checks of an atomic operation. -/
theorem amo_access_fault_eq (level : Mode) (ent : Option (TlbEntry P)) (op : AmoOp)
    (width : AmoWidth) (val : BitVec 64) :
    (p.load_access_fault level ent || p.store_access_fault level ent) =
      !(amo op width val).permitted p level ent := by
  cases ent with
  | none => rfl
  | some e =>
    rw [Proc.load_access_fault, Proc.store_access_fault, permitted, Option.all_some,
      modeFault_eq (amo op width val) e level p.pum nofun, allows]
    cases e.r <;> cases e.x <;> cases p.mxr <;> cases e.w <;>
      cases reaches e level p.pum (amo op width val) <;> rfl

theorem accessing_map {α β : Type} (f : α → β) (bytes : ℕ) (op : MmuOp) (cause : Cause) (fuel : ℕ)
    (body : BitVec 64 → Option (TlbEntry P) → MmuSoft P k → Result α × MmuSoft P k) :
    (accessing so p u va bytes op cause fuel body).map (fun t => (t.1.map f, t.2)) =
      accessing so p u va bytes op cause fuel fun mpa ent u' =>
        ((body mpa ent u').1.map f, (body mpa ent u').2) := by
  unfold accessing
  split
  · rfl
  · rw [Option.map_map]
    refine congrArg (fun g => Option.map g _) (funext fun t => ?_)
    obtain ⟨r, u'⟩ := t
    cases r with
    | raised cause => rfl
    | ignored => rfl
    | panic => rfl
    | value a =>
      dsimp only [Function.comp]
      split <;> rfl

/-- Every routine translates and then does what the bits of the entry say for the current mode. -/
theorem run_eq (fuel : ℕ) :
    q.run so p u va fuel =
      accessing so p u va q.bytes q.op q.misaligned fuel (q.outcome p p.mode) := by
  cases q with
  | fetch =>
    rw [run, inst_fetch, accessing_map]
    refine congrArg (accessing so p u va 2 .fetch .misaligned_fetch fuel)
      (funext fun mpa => funext fun ent => funext fun u' => ?_)
    rw [outcome, fetch_access_fault_eq p]
    cases fetch.permitted p p.mode ent with
    | false => rfl
    | true =>
      dsimp only [Bool.not_true, Bool.false_eq_true, if_true, perform]
      cases loadInst P u'.bus mpa <;> rfl
  | load op =>
    rw [run, Mmu.load, accessing_map]
    refine congrArg (accessing so p u va op.bytes .load .misaligned_load fuel)
      (funext fun mpa => funext fun ent => funext fun u' => ?_)
    rw [outcome, load_access_fault_eq p p.mode ent op]
    cases (load op).permitted p p.mode ent with
    | false => rfl
    | true =>
      dsimp only [Bool.not_true, perform]
      cases u'.bus.load (busAddr P mpa) op.bytes <;> rfl
  | store op val =>
    rw [run, Mmu.store, accessing_map]
    refine congrArg (accessing so p u va op.bytes .store .misaligned_store fuel)
      (funext fun mpa => funext fun ent => funext fun u' => ?_)
    rw [outcome, store_access_fault_eq p p.mode ent op val]
    cases (store op val).permitted p p.mode ent with
    | false => rfl
    | true =>
      dsimp only [Bool.not_true, perform]
      cases u'.bus.store (busAddr P mpa) op.bytes val <;> rfl
  | amo op width val =>
    rw [run, Mmu.amo, accessing_map]
    refine congrArg (accessing so p u va width.bytes .store .misaligned_store fuel)
      (funext fun mpa => funext fun ent => funext fun u' => ?_)
    have hfault := amo_access_fault_eq p p.mode ent op width val
    rw [outcome, ← Bool.not_not ((amo op width val).permitted p p.mode ent), ← hfault]
    dsimp only [perform]
    cases p.load_access_fault p.mode ent with
    | true => rfl
    | false =>
      cases hload : u'.bus.load (busAddr P mpa) width.bytes with
      | none => cases p.store_access_fault p.mode ent <;> rfl
      | some old =>
        cases p.store_access_fault p.mode ent with
        | true => rfl
        | false =>
          dsimp only [Bool.or_self, Bool.not_false]
          cases u'.bus.store (busAddr P mpa) width.bytes
            (op.eval (width.extend old) (width.extend val)) <;> rfl

/-! ## When an access ends as it is to -/

/-- The entry would let user mode and the higher modes do different things, and the checks look at
the wrong one: MPRV is set, and one of the mode and MPP is user mode. -/
def Mistaken (ent : Option (TlbEntry P)) : Prop :=
  q.op ≠ .fetch ∧ p.mprv = true ∧ (p.mode = .U ↔ p.mpp ≠ .U) ∧
    ∃ e, ent = some e ∧ q.allows e p.mxr = true ∧ (e.u = true → p.pum = true)

/-- The accesses that the routines handle: a misaligned one; one whose translation ends with an
exception; one that is translated to a physical address other than 0, and there the bus refuses it
or the checks are not mistaken. -/
def Safe : Prop :=
  misalignedAccess va q.bytes = true ∨
    ∃ fuel t, translate_addr so p u va q.op fuel = some t ∧
      match t.1 with
      | .raised _ => True
      | .value (mpa, ent) => mpa ≠ 0 ∧ (q.perform P t.2.bus mpa = none ∨ ¬ q.Mistaken p ent)
      | _ => False

theorem reaches_ne_iff (e : TlbEntry P) (level level' : Mode) (hop : q.op ≠ .fetch) :
    q.reaches e level p.pum ≠ q.reaches e level' p.pum ↔
      (level = .U ↔ level' ≠ .U) ∧ (e.u = true → p.pum = true) := by
  unfold reaches
  cases e.u <;> cases p.pum <;> cases level <;> cases level' <;> simp [hop]

/-- The checks for the current mode and for the effective privilege differ exactly if they are
mistaken. -/
theorem permitted_ne_iff (ent : Option (TlbEntry P)) :
    q.permitted p p.mode ent ≠ q.permitted p (p.privilege q.op) ent ↔ q.Mistaken p ent := by
  unfold Proc.privilege Mistaken
  by_cases hop : q.op = .fetch
  · rw [if_neg (fun h => h.2 hop)]
    exact iff_of_false (fun h => h rfl) (fun h => h.1 hop)
  · by_cases hmprv : p.mprv = true
    · rw [if_pos ⟨hmprv, hop⟩]
      cases ent with
      | none => exact iff_of_false (fun h => h rfl) (by rintro ⟨-, -, -, e, he, -⟩; cases he)
      | some e =>
        rw [permitted, permitted, Option.all_some, Option.all_some]
        cases hallows : q.allows e p.mxr with
        | false =>
          refine iff_of_false (fun h => h rfl) ?_
          rintro ⟨-, -, -, e', he, hallows', -⟩
          obtain rfl := Option.some.inj he
          rw [hallows] at hallows'
          cases hallows'
        | true =>
          rw [Bool.true_and, Bool.true_and, q.reaches_ne_iff p e p.mode p.mpp hop]
          constructor
          · rintro ⟨hmodes, hpum⟩
            exact ⟨hop, hmprv, hmodes, e, rfl, hallows, hpum⟩
          · rintro ⟨-, -, hmodes, e', he, -, hpum⟩
            obtain rfl := Option.some.inj he
            exact ⟨hmodes, hpum⟩
    · rw [if_neg (fun h => hmprv h.1)]
      exact iff_of_false (fun h => h rfl) (fun h => hmprv h.2.1)

theorem outcome_ne_ignored (mpa : BitVec 64) (ent : Option (TlbEntry P)) (level : Mode) :
    (q.outcome p level mpa ent u).1 ≠ .ignored := by
  unfold outcome
  split
  · split <;> exact nofun
  · exact nofun

/-- An access that has been translated ends in the same way for both privileges exactly if the bus
refuses it or the checks are not mistaken. -/
theorem outcome_eq_iff (mpa : BitVec 64) (ent : Option (TlbEntry P)) :
    q.outcome p p.mode mpa ent u = q.outcome p (p.privilege q.op) mpa ent u ↔
      q.perform P u.bus mpa = none ∨ ¬ q.Mistaken p ent := by
  rw [← permitted_ne_iff, not_not]
  unfold outcome
  cases q.perform P u.bus mpa with
  | none =>
    dsimp only
    exact iff_of_true (by rw [ite_self, ite_self]) (.inl rfl)
  | some r =>
    obtain ⟨d, b⟩ := r
    dsimp only
    cases q.permitted p p.mode ent <;> cases q.permitted p (p.privilege q.op) ent <;> simp

end Request

/-- **When an access ends as it is to**, for every processor state, TLB, memory and access. -/
theorem access_right_iff (so : ShiftOver) {P : Param} {k : ℕ} (p : Proc P) (u : MmuSoft P k)
    (va : UX P) (q : Request) : q.Right so p u va ↔ q.Safe so p u va := by
  unfold Request.Right Request.Safe
  simp only [Request.run_eq]
  unfold accessing Request.expected
  by_cases hmis : misalignedAccess va q.bytes = true
  · simp only [if_pos hmis]
    exact iff_of_true ⟨0, _, rfl, rfl⟩ (.inl hmis)
  · simp only [if_neg hmis]
    constructor
    · rintro ⟨fuel, r, hrun, hexp⟩
      obtain ⟨t, ht, rfl⟩ := Option.map_eq_some_iff.mp hrun
      rw [ht, Option.bind_some] at hexp
      refine .inr ⟨fuel, t, ht, ?_⟩
      obtain ⟨r, u'⟩ := t
      cases r with
      | raised cause => trivial
      | ignored => cases hexp
      | panic => cases hexp
      | value a =>
        obtain ⟨mpa, ent⟩ := a
        dsimp only at hexp ⊢
        have heq := Option.some.inj hexp
        by_cases hzero : mpa = 0
        · rw [if_pos hzero] at heq
          exact absurd (congrArg Prod.fst heq) (q.outcome_ne_ignored p u' mpa ent _)
        · rw [if_neg hzero] at heq
          exact ⟨hzero, (q.outcome_eq_iff p u' mpa ent).mp heq.symm⟩
    · rintro (hmis' | ⟨fuel, t, ht, hok⟩)
      · exact absurd hmis' hmis
      · refine ⟨fuel, _, by rw [ht]; rfl, ?_⟩
        rw [ht, Option.bind_some]
        obtain ⟨r, u'⟩ := t
        cases r with
        | raised cause => rfl
        | ignored => exact absurd hok id
        | panic => exact absurd hok id
        | value a =>
          obtain ⟨mpa, ent⟩ := a
          dsimp only at hok ⊢
          rw [if_neg hok.1, (q.outcome_eq_iff p u' mpa ent).mpr hok.2]

/-- A hart in machine mode. -/
def machineProc : Proc param_rv64 := ⟨.M, false, .U, false, false, 0, 0, 0⟩

/-- In machine mode a load from address 0 neither loads nor raises an exception. -/
theorem loadZero_not_right :
    (∀ so fuel, Request.run so machineProc (MmuSoft.start param_rv64 7 zeroBus) 0 fuel (.load .lw) =
        some (.ignored, MmuSoft.start param_rv64 7 zeroBus)) ∧
      ∀ so, ¬ Request.Right so machineProc (MmuSoft.start param_rv64 7 zeroBus) 0 (.load .lw) := by
  have hrun : ∀ so fuel, Request.run so machineProc (MmuSoft.start param_rv64 7 zeroBus) 0 fuel
      (.load .lw) = some (.ignored, MmuSoft.start param_rv64 7 zeroBus) := by
    intro so fuel
    rfl
  refine ⟨hrun, ?_⟩
  rintro so ⟨fuel, r, hr, hexp⟩
  obtain rfl := Option.some.inj (hr.symm.trans (hrun so fuel))
  exact Request.outcome_ne_ignored machineProc _ (.load .lw) 0 none .M
    (congrArg Prod.fst (Option.some.inj hexp))

end RvCkpt.Mmu
