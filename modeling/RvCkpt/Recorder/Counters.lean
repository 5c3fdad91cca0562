import RvCkpt.Lib.Tally
import RvCkpt.Recorder.LogShape

/-! # Execution counters

What the counters of a trace hold at every moment of a run: each fetch adds one to the counter of
its address, nothing else touches one, and a new interval starts from zero. A counter is a 32-bit
word.
-/

namespace RvCkpt
open ByteMem Tally
set_option autoImplicit false

/-- The counter of an address in the records of a trace. -/
def counterOf (execs : List (Σ _ : ℕ, ExecRec)) (pc : ℕ) : BitVec 32 :=
  ((execs.dlookup (pc / PAGE_SIZE)).map fun exec => exec.get (pc % PAGE_SIZE)).getD 0

/-- Even addresses. -/
def Halfword (pc : ℕ) : Prop := pc % 2 = 0

namespace MemTrace

def counter (T : MemTrace) (pc : ℕ) : BitVec 32 := counterOf T.execs.entries pc

theorem counter_eq {T : MemTrace} {pc : ℕ} {exec : ExecRec}
    (h : T.execs.lookup (pc / PAGE_SIZE) = some exec) :
    T.counter pc = exec.get (pc % PAGE_SIZE) := by
  have hlookup : T.execs.entries.dlookup (pc / PAGE_SIZE) = some exec := h
  rw [counter, counterOf, hlookup]
  rfl

theorem counter_congr {T T' : MemTrace} (h : T'.execs = T.execs) : T'.counter = T.counter := by
  funext pc
  rw [counter, counter, h]

/-- The counters after a record has been put in the table. -/
theorem counter_insert (T : MemTrace) (pn pc : ℕ) (exec : ExecRec) :
    ({ T with execs := T.execs.insert pn exec } : MemTrace).counter pc =
      if pc / PAGE_SIZE = pn then exec.get (pc % PAGE_SIZE) else T.counter pc := by
  by_cases h : pc / PAGE_SIZE = pn
  · rw [if_pos h]
    exact counter_eq (by rw [h]; exact AList.lookup_insert _)
  · have hother : (T.execs.insert pn exec).entries.dlookup (pc / PAGE_SIZE) =
        T.execs.entries.dlookup (pc / PAGE_SIZE) := AList.lookup_insert_ne h
    rw [if_neg h, counter, counter, counterOf, counterOf, hother]

@[simp] theorem counter_new (pc : ℕ) : new.counter pc = 0 := rfl

/-! ## One counter -/

theorem new_get (offs : ℕ) : ExecRec.new.get offs = 0 := rfl

/-- Two addresses of a page share a counter only if they are the same. -/
theorem get_incr {exec : ExecRec} {pc addr : ℕ} (hpc : pc % 2 = 0) (haddr : addr % 2 = 0)
    (hpage : pc / PAGE_SIZE = addr / PAGE_SIZE) :
    (exec.incr (addr % PAGE_SIZE)).get (pc % PAGE_SIZE) =
      exec.get (pc % PAGE_SIZE) + if pc = addr then 1 else 0 := by
  rw [ExecRec.get, ExecRec.get, ExecRec.incr]
  dsimp only
  by_cases h : pc = addr
  · rw [if_pos h, h, Function.update_self]
  · have hslot : pc % PAGE_SIZE / 2 ≠ addr % PAGE_SIZE / 2 := by
      unfold PAGE_SIZE at *
      omega
    rw [if_neg h, Function.update_of_ne hslot]
    exact (BitVec.add_zero _).symm

theorem selectExec_counter (T : MemTrace) (addr : ℕ) :
    (T.selectExec addr).counter = T.counter := by
  funext pc
  unfold selectExec
  by_cases hpn : addr / PAGE_SIZE ≠ T.execCache.idx
  · rw [if_pos hpn]
    unfold getExec
    cases hexec : T.execs.lookup (addr / PAGE_SIZE) with
    | some exec => rfl
    | none =>
      refine (counter_insert T (addr / PAGE_SIZE) pc .new).trans ?_
      by_cases hpage : pc / PAGE_SIZE = addr / PAGE_SIZE
      · have hnone : T.execs.entries.dlookup (pc / PAGE_SIZE) = none := hpage ▸ hexec
        rw [if_pos hpage, counter, counterOf, hnone]
        rfl
      · rw [if_neg hpage]
  · rw [if_neg hpn]

/-- The cache that `get_exec_counter` reads through points to the page of the address. -/
theorem selectExec_ptr {T : MemTrace} (h : T.Wf) {addr pn : ℕ}
    (hptr : (T.selectExec addr).execCache.ptr = some pn) : pn = addr / PAGE_SIZE := by
  unfold selectExec at hptr
  by_cases hpn : addr / PAGE_SIZE ≠ T.execCache.idx
  · rw [if_pos hpn] at hptr
    exact (Option.some.inj hptr).symm
  · rw [if_neg hpn] at hptr
    have hidx := (h.exec.ptr (.inr (by rw [hptr]; rfl))).1
    rw [hptr] at hidx
    rw [not_not.mp hpn]
    exact Option.some.inj hidx

theorem incrExecCounter_bumps {T T' : MemTrace} {addr : ℕ} (h : T.Wf) (haddr : Halfword addr)
    (hincr : T.incrExecCounter addr = some T') : Bumps Halfword T.counter T'.counter addr := by
  obtain ⟨pn, hptr, hincr⟩ := Option.bind_eq_some_iff.mp hincr
  obtain ⟨exec, hexec, hincr⟩ := Option.bind_eq_some_iff.mp hincr
  obtain rfl := selectExec_ptr h hptr
  obtain rfl := Option.some.inj hincr
  intro pc hpc
  rw [← selectExec_counter T addr]
  rw [counter_insert]
  by_cases hpage : pc / PAGE_SIZE = addr / PAGE_SIZE
  · rw [if_pos hpage, get_incr hpc haddr hpage]
    congr 1
    exact (counter_eq (hpage ▸ hexec)).symm
  · have hne : pc ≠ addr := fun heq => hpage (by rw [heq])
    rw [if_neg hpage, if_neg hne]
    exact (BitVec.add_zero _).symm

theorem getExecCounter_counter {T : MemTrace} {addr : ℕ} {r : MemTrace × BitVec 32} (h : T.Wf)
    (hr : T.getExecCounter addr = some r) : r.1.counter = T.counter ∧ r.2 = T.counter addr := by
  obtain ⟨exec, hexec, hr⟩ := Option.bind_eq_some_iff.mp hr
  obtain ⟨pn, hptr, hexec⟩ := Option.bind_eq_some_iff.mp hexec
  obtain rfl := selectExec_ptr h hptr
  rw [← Option.some.inj hr]
  refine ⟨selectExec_counter T addr, ?_⟩
  rw [← selectExec_counter T addr]
  exact (counter_eq hexec).symm

/-! ## Operations of a trace -/

theorem Extends.counter {T T' : MemTrace} (h : Extends T T') : T'.counter = T.counter :=
  counter_congr h.execs

/-- A fetch is counted once, whatever its length and wherever it lies. -/
theorem fetch_bumps {T : MemTrace} {addr length : ℕ} {inst : BitVec 64} {r : MemTrace × Bool}
    (h : T.Wf) (haddr : Halfword addr) (hf : T.fetch addr inst length = some r) :
    Bumps Halfword T.counter r.1.counter addr := by
  obtain ⟨T₁, hincr, hext, -⟩ := fetch_steps hf
  rw [hext.counter, (selectFetch_extends T₁ _).counter]
  exact incrExecCounter_bumps h haddr hincr

theorem storeBytes_counter {T T' : MemTrace} {addr size : ℕ}
    (h : T.storeBytes addr size = some T') : T'.counter = T.counter := by
  induction size generalizing T addr with
  | zero => rw [← Option.some.inj h]
  | succ size ih =>
    obtain ⟨T₁, hfirst, hrest⟩ := Option.bind_eq_some_iff.mp h
    rw [ih hrest, (store_extends hfirst).counter]

end MemTrace

end RvCkpt
