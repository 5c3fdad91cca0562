import RvCkpt.Priv.Discipline
import RvCkpt.Lib.Runs

/-! # Delivery of timer interrupts

The timer device as an array of one-shot comparators: a comparator is armed by a write to it and is
delivered once, by the first service of its hart that finds it expired with a timer interrupt
enabled. Runs of the device and the harts keep both next to each other.
-/

namespace RvCkpt.Priv
set_option autoImplicit false
open ByteMem Runs

/-! ## The service of the timer -/

section
variable {xl : Xlen} {n : ℕ}

/-- The external interrupt is not taken, so that the timer is looked at. -/
def TimerServed (s : Hart xl) (req : Requests) : Prop := level s external req.eip = none

instance decidableTimerServed (s : Hart xl) (req : Requests) : Decidable (TimerServed s req) :=
  instDecidableEqOfLawfulBEq _ _

/-- A timer interrupt is enabled, for one of the levels. -/
def TimerEnabled (s : Hart xl) : Prop := (taken s timer).isSome = true

instance decidableTimerEnabled (s : Hart xl) : Decidable (TimerEnabled s) :=
  instDecidableEqBool _ _

/-- The device has an expired comparator for the hart that was not claimed. -/
def Expired (t : Timer n) (hart_id : ℕ) (time : BitVec 64) : Prop :=
  hart_id < n ∧ t.claimed hart_id = 0 ∧ t.timecmp hart_id ≤ time

theorem timer_pending_of_expired {t : Timer n} {hart_id : ℕ} {time : BitVec 64}
    (h : Expired t hart_id time) :
    t.timer_pending hart_id time = (true, ⟨t.mem.write (Timer.claimedAddr n hart_id) 8 time⟩) := by
  obtain ⟨hid, hclaimed, hcmp⟩ := h
  unfold Timer.timer_pending
  rw [if_neg, if_pos hcmp]
  rintro (hge | hne)
  · exact absurd hid (Nat.not_lt.mpr hge)
  · exact hne hclaimed

theorem timer_pending_of_not_expired {t : Timer n} {hart_id : ℕ} {time : BitVec 64}
    (h : ¬ Expired t hart_id time) : t.timer_pending hart_id time = (false, t) := by
  unfold Timer.timer_pending
  split
  · rfl
  · rename_i hskip
    push Not at hskip
    rw [if_neg]
    exact fun hcmp => h ⟨hskip.1, hskip.2, hcmp⟩

/-- The device after a service. -/
theorem isr_timer (hart_id : ℕ) (req : Requests) (time : BitVec 64) (s : Hart xl) (t : Timer n) :
    (isr hart_id req time s t).2.1 =
      if TimerServed s req then (t.timer_pending hart_id time).2 else t := by
  unfold isr
  rcases service_cases (SameContext.refl s) external req.eip with
    ⟨hl, s₁, hs, hsame⟩ | ⟨e, s₁, hl, hs, -⟩
  · have hserved : TimerServed s req := hl
    rw [hs, if_pos hserved]
    dsimp only
    rcases service_cases hsame timer (t.timer_pending hart_id time).1 with
      ⟨-, s₂, hs, hsame⟩ | ⟨e, s₂, -, hs, -⟩
    · rw [hs]
      dsimp only
      rcases service_cases hsame software req.sip with ⟨-, s₃, hs, -⟩ | ⟨e, s₃, -, hs, -⟩
      · rw [hs]
      · rw [hs]
    · rw [hs]
  · have hserved : ¬ TimerServed s req := by
      unfold TimerServed
      rw [hl]
      exact nofun
    rw [hs, if_neg hserved]

/-- The interrupt that is taken comes from the timer. -/
def fromTimer : Option (Source × Entry) → Bool
  | some (src, _) => decide (src = timer)
  | none => false

theorem fromTimer_external (e : Entry) : fromTimer (some (external, e)) = false := by
  have hne : external ≠ timer := by decide
  exact decide_eq_false hne

theorem fromTimer_software (e : Option Entry) :
    fromTimer (e.map fun e => (software, e)) = false := by
  cases e with
  | none => rfl
  | some e =>
    have hne : software ≠ timer := by decide
    exact decide_eq_false hne

/-- Which services take a timer interrupt. -/
theorem fromTimer_isr (hart_id : ℕ) (req : Requests) (time : BitVec 64) (s : Hart xl)
    (t : Timer n) :
    fromTimer (isr hart_id req time s t).2.2 = true ↔
      TimerServed s req ∧ Expired t hart_id time ∧ TimerEnabled s := by
  rw [(isr_cases hart_id req time s t).1]
  unfold interrupt TimerServed
  cases hext : level s external req.eip with
  | some e =>
    dsimp only
    rw [fromTimer_external]
    exact iff_of_false nofun (fun h => nomatch h.1)
  | none =>
    dsimp only
    by_cases hexp : Expired t hart_id time
    · have hlevel : level s timer true = taken s timer := if_pos rfl
      rw [timer_pending_of_expired hexp]
      dsimp only
      rw [hlevel]
      unfold TimerEnabled
      cases htaken : taken s timer with
      | some e => exact iff_of_true rfl ⟨rfl, hexp, rfl⟩
      | none =>
        dsimp only
        rw [fromTimer_software]
        exact iff_of_false nofun (fun h => nomatch h.2.2)
    · have hlevel : level s timer false = none := if_neg Bool.false_ne_true
      rw [timer_pending_of_not_expired hexp]
      dsimp only
      rw [hlevel]
      dsimp only
      rw [fromTimer_software]
      exact iff_of_false nofun (fun h => hexp h.2.1)

end

/-! ## The bytes of the device -/

namespace Timer

variable {n : ℕ}

/-- The element of an access lies within the word of its address. -/
theorem element_bounds (w : Width) (va : ℕ) :
    8 * (va / 8) ≤ element w va ∧ element w va + w.bytes ≤ 8 * (va / 8) + 8 := by
  unfold element
  cases w <;> simp only [Width.bytes] <;> omega

/-- A comparator or a claim time that is not written keeps its value. -/
theorem read_store_of_ne {t : Timer n} {w : Width} {va : ℕ} {val : BitVec 64} {a : ℕ}
    (helem : a + 8 ≤ 8 * (va / 8) ∨ 8 * (va / 8) + 8 ≤ a)
    (hclaim : a + 8 ≤ claimedAddr n (va / 8) ∨ claimedAddr n (va / 8) + 8 ≤ a) :
    (t.store w va val).mem.read a 8 = t.mem.read a 8 := by
  have hb := element_bounds w va
  unfold store
  split
  · rw [Mem.read_write_of_disjoint hclaim, Mem.read_write_of_disjoint (by omega)]
  · rfl

/-- A write arms the hart of its comparator, and no other. -/
theorem claimed_store {t : Timer n} {w : Width} {va : ℕ} {val : BitVec 64} {h : ℕ}
    (hw : InWindow n w va) (hva : va < 8 * n) :
    (t.store w va val).claimed h = if h = va / 8 then 0 else t.claimed h := by
  by_cases heq : h = va / 8
  · rw [if_pos heq, claimed, store, if_pos hw, heq]
    exact Mem.read_write_word _ _ _
  · rw [if_neg heq, claimed, read_store_of_ne]
    · rfl
    · unfold claimedAddr
      omega
    · unfold claimedAddr
      omega

/-- The bytes of the comparators after a write. -/
theorem mem_store {t : Timer n} {w : Width} {va : ℕ} {val : BitVec 64} (hw : InWindow n w va)
    {i : ℕ} (hi : i < 8 * n) :
    (t.store w va val).mem i = t.mem.write (element w va) w.bytes val i := by
  rw [store, if_pos hw]
  exact Mem.write_of_not_mem (.inl (by unfold claimedAddr; omega))

theorem claimed_start {h : ℕ} (hh : h < n) : (start n).claimed h ≠ 0 := by
  intro hzero
  have hbyte := Mem.byteAt_read (start n).mem (claimedAddr n h) (n := 8) (i := 0) (by decide)
    (by decide)
  have hread : (start n).mem.read (claimedAddr n h) 8 = 0 := hzero
  rw [hread] at hbyte
  have hmem : (start n).mem (claimedAddr n h + 0) = BitVec.allOnes 8 :=
    if_pos (by unfold claimedAddr; omega)
  rw [hmem] at hbyte
  exact absurd hbyte (by decide)

end Timer

/-! ## Comparators -/

/-- The harts, the device, and next to it what it is for: the bytes of the comparators, which of
them are armed, and which interrupts are due; `taken` lists the timer interrupts that the harts have
taken, and `outside` says that an access has left the registers of the harts. -/
structure Clocked (xl : Xlen) (n : ℕ) where
  hart : ℕ → Hart xl
  timer : Timer n
  cmp : Mem
  armed : ℕ → Bool
  due : List ℕ
  taken : List ℕ
  outside : Bool

inductive ClockEvent (xl : Xlen) where
  | store (w : Width) (va : ℕ) (val : BitVec 64)
  | load (w : Width) (va : ℕ)
  /-- A hart does anything: it may change its interrupt enables. -/
  | run (hart_id : ℕ) (h : Hart xl)
  | isr (hart_id : ℕ) (req : Requests) (time : BitVec 64)

namespace Clocked

variable {xl : Xlen} {n : ℕ}

def start (n : ℕ) (hart : ℕ → Hart xl) : Clocked xl n :=
  ⟨hart, .start n, (Timer.start n).mem, fun _ => false, [], [], false⟩

/-- The comparator of a hart is armed and has expired. -/
def Waiting (s : Clocked xl n) (hart_id : ℕ) (time : BitVec 64) : Prop :=
  hart_id < n ∧ s.armed hart_id = true ∧ s.cmp.read (8 * hart_id) 8 ≤ time

instance decidableWaiting (s : Clocked xl n) (hart_id : ℕ) (time : BitVec 64) :
    Decidable (s.Waiting hart_id time) := instDecidableAnd

/-- A service that has to deliver the comparator of its hart. -/
def Delivers (s : Clocked xl n) (hart_id : ℕ) (req : Requests) (time : BitVec 64) : Prop :=
  TimerServed (s.hart hart_id) req ∧ s.Waiting hart_id time ∧ TimerEnabled (s.hart hart_id)

instance decidableDelivers (s : Clocked xl n) (hart_id : ℕ) (req : Requests) (time : BitVec 64) :
    Decidable (s.Delivers hart_id req time) := instDecidableAnd

def step (s : Clocked xl n) : ClockEvent xl → Option (Clocked xl n)
  | .store w va val =>
    let s' := { s with timer := s.timer.store w va val }
    if Timer.InWindow n w va then
      some { s' with
        cmp := s.cmp.write (Timer.element w va) w.bytes val
        armed := Function.update s.armed (va / 8) true
        outside := s.outside || decide (n ≤ va / 8) }
    else some s'
  | .load w va =>
    if Timer.InWindow n w va then
      some { s with outside := s.outside || decide (16 * n < Timer.element w va + w.bytes) }
    else some s
  | .run hart_id h => some { s with hart := Function.update s.hart hart_id h }
  | .isr hart_id req time =>
    let r := isr hart_id req time (s.hart hart_id) s.timer
    let s' := { s with
      hart := Function.update s.hart hart_id r.1
      timer := r.2.1
      taken := if fromTimer r.2.2 then hart_id :: s.taken else s.taken }
    if s.Delivers hart_id req time then
      some { s' with armed := Function.update s.armed hart_id false, due := hart_id :: s.due }
    else some s'

/-- All accesses were to registers of the harts; the device holds the comparators as they were
written, and those are unclaimed that are armed and not delivered; and the interrupts that were
taken are those that were due. -/
structure OneShot (s : Clocked xl n) : Prop where
  inside : s.outside = false
  cmp : ∀ i < 8 * n, s.timer.mem i = s.cmp i
  armed : ∀ h < n, s.armed h = true ↔ s.timer.claimed h = 0
  taken : s.taken = s.due

/-- What a step needs: a store is to a comparator, a load to a comparator or a claim time, and a
service that looks at an expired comparator can deliver it, at a time that is not 0. -/
def Kept (s : Clocked xl n) : ClockEvent xl → Prop
  | .store w va _ => Timer.InWindow n w va → va < 8 * n
  | .load w va => Timer.InWindow n w va → va < 16 * n
  | .run _ _ => True
  | .isr hart_id req time =>
    TimerServed (s.hart hart_id) req → Expired s.timer hart_id time →
      (TimerEnabled (s.hart hart_id) ↔ time ≠ 0)

theorem oneShot_start (n : ℕ) (hart : ℕ → Hart xl) : (start n hart).OneShot where
  inside := rfl
  cmp _ _ := rfl
  armed _ hh := iff_of_false nofun (Timer.claimed_start hh)
  taken := rfl

variable {s s' : Clocked xl n}

theorem oneShot_store_iff {w : Width} {va : ℕ} {val : BitVec 64}
    (h : s.step (.store w va val) = some s') (hs : s.OneShot) :
    s'.OneShot ↔ s.Kept (.store w va val) := by
  unfold step at h
  dsimp only at h
  split at h
  · rename_i hw
    obtain rfl := Option.some.inj h
    by_cases hva : va < 8 * n
    · refine iff_of_true ?_ (fun _ => hva)
      have hhart : ¬ n ≤ va / 8 := by omega
      refine ⟨?_, fun i hi => ?_, fun k hk => ?_, hs.taken⟩
      · dsimp only
        rw [hs.inside, decide_eq_false hhart]
        rfl
      · dsimp only
        rw [Timer.mem_store hw hi]
        unfold Mem.write
        rw [hs.cmp i hi]
      · dsimp only
        rw [Timer.claimed_store hw hva]
        by_cases hk' : k = va / 8
        · rw [hk', Function.update_self, if_pos rfl]
          exact iff_of_true rfl rfl
        · rw [Function.update_of_ne hk', if_neg hk']
          exact hs.armed k hk
    · have hhart : n ≤ va / 8 := by omega
      refine iff_of_false (fun h' => ?_) (fun h' => hva (h' hw))
      have hin := h'.inside
      dsimp only at hin
      rw [decide_eq_true hhart, Bool.or_true] at hin
      cases hin
  · rename_i hw
    obtain rfl := Option.some.inj h
    refine iff_of_true ?_ (fun h' => absurd h' hw)
    rw [Timer.store, if_neg hw]
    exact hs

theorem oneShot_load_iff {w : Width} {va : ℕ} (h : s.step (.load w va) = some s')
    (hs : s.OneShot) : s'.OneShot ↔ s.Kept (.load w va) := by
  have hb := Timer.element_bounds w va
  have hpos := w.bytes_pos
  unfold step at h
  dsimp only at h
  split at h
  · rename_i hw
    obtain rfl := Option.some.inj h
    by_cases hva : va < 16 * n
    · have hin : ¬ 16 * n < Timer.element w va + w.bytes := by omega
      refine iff_of_true ⟨?_, hs.cmp, hs.armed, hs.taken⟩ (fun _ => hva)
      dsimp only
      rw [hs.inside, decide_eq_false hin]
      rfl
    · have hout : 16 * n < Timer.element w va + w.bytes := by omega
      refine iff_of_false (fun h' => ?_) (fun h' => hva (h' hw))
      have hin := h'.inside
      dsimp only at hin
      rw [decide_eq_true hout, Bool.or_true] at hin
      cases hin
  · rename_i hw
    obtain rfl := Option.some.inj h
    exact iff_of_true hs (fun h' => absurd h' hw)

/-- The specification waits for what the device has expired. -/
theorem OneShot.waiting_iff (hs : s.OneShot) (hart_id : ℕ) (time : BitVec 64) :
    s.Waiting hart_id time ↔ Expired s.timer hart_id time := by
  unfold Waiting Expired
  refine and_congr_right fun hid => ?_
  have hcmp : s.cmp.read (8 * hart_id) 8 = s.timer.timecmp hart_id :=
    Mem.read_congr fun i hi => (hs.cmp _ (by omega)).symm
  rw [hs.armed hart_id hid, hcmp]

/-- A service that looks at an expired comparator claims it. -/
theorem oneShot_claim_iff (hs : s.OneShot) {hart_id : ℕ} (hid : hart_id < n) {time : BitVec 64}
    (harts : ℕ → Hart xl) (b : Bool) {due taken : List ℕ} (htaken : taken = due) :
    OneShot (n := n) { s with
      hart := harts
      timer := ⟨s.timer.mem.write (Timer.claimedAddr n hart_id) 8 time⟩
      armed := Function.update s.armed hart_id b
      due := due
      taken := taken } ↔ (b = true ↔ time = 0) := by
  have hclaimed : ∀ k, Timer.claimed (n := n)
      ⟨s.timer.mem.write (Timer.claimedAddr n hart_id) 8 time⟩ k =
        if k = hart_id then time else s.timer.claimed k := by
    intro k
    by_cases hk : k = hart_id
    · rw [if_pos hk, Timer.claimed, hk]
      exact Mem.read_write_word _ _ _
    · rw [if_neg hk, Timer.claimed]
      exact Mem.read_write_of_disjoint (by unfold Timer.claimedAddr; omega)
  constructor
  · intro h
    have harmed := h.armed hart_id hid
    dsimp only at harmed
    rwa [Function.update_self, hclaimed, if_pos rfl] at harmed
  · intro h
    refine ⟨hs.inside, fun i hi => ?_, fun k hk => ?_, htaken⟩
    · dsimp only
      rw [Mem.write_of_not_mem (.inl (by unfold Timer.claimedAddr; omega))]
      exact hs.cmp i hi
    · dsimp only
      rw [hclaimed]
      by_cases hk' : k = hart_id
      · rw [hk', Function.update_self, if_pos rfl]
        exact h
      · rw [Function.update_of_ne hk', if_neg hk']
        exact hs.armed k hk

theorem oneShot_isr_iff {hart_id : ℕ} {req : Requests} {time : BitVec 64}
    (h : s.step (.isr hart_id req time) = some s') (hs : s.OneShot) :
    s'.OneShot ↔ s.Kept (.isr hart_id req time) := by
  have htimer := isr_timer hart_id req time (s.hart hart_id) s.timer
  have hfrom := fromTimer_isr hart_id req time (s.hart hart_id) s.timer
  have hdel : s.Delivers hart_id req time ↔
      fromTimer (isr hart_id req time (s.hart hart_id) s.timer).2.2 = true := by
    rw [hfrom]
    unfold Delivers
    rw [hs.waiting_iff]
  unfold step at h
  dsimp only at h
  by_cases hlook : TimerServed (s.hart hart_id) req ∧ Expired s.timer hart_id time
  · obtain ⟨hserved, hexp⟩ := hlook
    rw [if_pos hserved, timer_pending_of_expired hexp] at htimer
    have hkept : s.Kept (.isr hart_id req time) ↔ (TimerEnabled (s.hart hart_id) ↔ time ≠ 0) :=
      ⟨fun hk => hk hserved hexp, fun hk _ _ => hk⟩
    rw [hkept]
    by_cases hen : TimerEnabled (s.hart hart_id)
    · have htrue := hfrom.mpr ⟨hserved, hexp, hen⟩
      rw [if_pos (hdel.mpr htrue), htimer, htrue] at h
      obtain rfl := Option.some.inj h
      rw [oneShot_claim_iff hs hexp.1 _ _ (by rw [if_pos rfl, hs.taken])]
      simp [hen]
    · have hfalse : ¬ fromTimer (isr hart_id req time (s.hart hart_id) s.timer).2.2 = true :=
        fun ht => hen (hfrom.mp ht).2.2
      rw [if_neg (fun hd => hfalse (hdel.mp hd)), htimer, if_neg hfalse] at h
      obtain rfl := Option.some.inj h
      have harmed : s.armed = Function.update s.armed hart_id true := by
        rw [← (hs.armed hart_id hexp.1).mpr hexp.2.1, Function.update_eq_self]
      rw [harmed, oneShot_claim_iff hs hexp.1 _ _ hs.taken]
      simp [hen]
  · have hfalse : ¬ fromTimer (isr hart_id req time (s.hart hart_id) s.timer).2.2 = true :=
      fun ht => hlook ⟨(hfrom.mp ht).1, (hfrom.mp ht).2.1⟩
    have hsame : (isr hart_id req time (s.hart hart_id) s.timer).2.1 = s.timer := by
      rw [htimer]
      split
      · rename_i hserved
        rw [timer_pending_of_not_expired fun hexp => hlook ⟨hserved, hexp⟩]
      · rfl
    rw [if_neg (fun hd => hfalse (hdel.mp hd)), hsame, if_neg hfalse] at h
    obtain rfl := Option.some.inj h
    exact iff_of_true ⟨hs.inside, hs.cmp, hs.armed, hs.taken⟩
      (fun hserved hexp => absurd ⟨hserved, hexp⟩ hlook)

theorem oneShot_step_iff {e : ClockEvent xl} (h : s.step e = some s') (hs : s.OneShot) :
    s'.OneShot ↔ s.Kept e := by
  cases e with
  | store w va val => exact oneShot_store_iff h hs
  | load w va => exact oneShot_load_iff h hs
  | run hart_id hart =>
    obtain rfl := Option.some.inj h
    exact iff_of_true ⟨hs.inside, hs.cmp, hs.armed, hs.taken⟩ trivial
  | isr hart_id req time => exact oneShot_isr_iff h hs

end Clocked

section
variable {xl : Xlen} {n : ℕ}

/-- **One shot.** In every state of a run the accesses have stayed within the registers of the
harts, exactly the comparators are unclaimed that are armed and not delivered, and every expired one
has been delivered once, exactly if all steps of the run are kept. -/
theorem oneShot_exact (hart : ℕ → Hart xl) (es : List (ClockEvent xl)) :
    Always Clocked.step Clocked.OneShot (Clocked.start n hart) es ↔
      Meets Clocked.step Clocked.Kept (Clocked.start n hart) es :=
  always_iff_meets (q := fun _ => True) (fun _ _ _ _ _ => trivial)
    (fun _ _ _ h _ hs => Clocked.oneShot_step_iff h hs) es trivial (Clocked.oneShot_start n hart)

/-- A hart with registers of 0, and the same with machine timer interrupts enabled. -/
def quietHart : Hart .rv64 := ⟨0x1000, fun _ => 0, .M, 0, fun _ => 0, 0, 0⟩

def waitingHart : Hart .rv64 := (quietHart.set .mstatus 8).set .mie 0x80

/-- The comparator of hart 0 expires while interrupts are disabled. -/
def expiresMasked : List (ClockEvent .rv64) :=
  [.store .w64 0 5, .isr 0 ⟨false, false⟩ 10, .run 0 waitingHart, .isr 0 ⟨false, false⟩ 11]

/-- The interrupt is due once they are enabled, and is not taken. -/
theorem expiresMasked_lost :
    ((run Clocked.step (Clocked.start 4 fun _ => quietHart) expiresMasked).map
        fun s => (s.due, s.taken)) = some ([0], []) ∧
      ¬ Always Clocked.step Clocked.OneShot (Clocked.start 4 fun _ => quietHart) expiresMasked := by
  have hrun : ((run Clocked.step (Clocked.start 4 fun _ => quietHart) expiresMasked).map
      fun s => (s.due, s.taken)) = some ([0], []) := rfl
  refine ⟨hrun, fun h => ?_⟩
  obtain ⟨s, hs, hval⟩ := Option.map_eq_some_iff.mp hrun
  obtain ⟨hdue, htaken⟩ := Prod.mk.inj hval
  have heq := (h.last hs).taken
  rw [hdue, htaken] at heq
  cases heq

end

end RvCkpt.Priv
