import RvCkpt.Recorder.Manager
import Mathlib.Data.List.Chain

/-! # How the checkpoints cut up a run

The run loop of `src/src/emu/processor-runloop.h` as the manager sees it: every pass calls the
hook, performs the memory accesses and system calls of its instruction and counts it as retired.
The log of a run, each item with the number of the pass that printed it, is read back as a list of
intervals, and these tile the passes of the run.
-/

namespace RvCkpt
open ByteMem
set_option autoImplicit false

/-! ## The run loop -/

inductive Effect where
  | load (w : Width) (addr : ℕ) (data : BitVec 64)
  | store (w : Width) (addr : ℕ)
  | syscall (live : Mem) (retval : BitVec 64) (addr size : ℕ)

def Effect.perform (M : Manager) : Effect → Option Manager
  | load w addr data => M.load w addr data
  | store w addr => M.store w addr
  | syscall live retval addr size => M.syscall live retval addr size

/-- One pass through the loop: what the hook is called with, and what the instruction does. -/
structure Pass where
  ireg : ℕ → BitVec 64
  freg : ℕ → BitVec 64
  rd : ℤ
  addr : ℕ
  inst : BitVec 64
  length : ℕ
  live : Mem
  effects : List Effect

def Pass.fetched (p : Pass) (instret : BitVec 64) : Fetched :=
  ⟨instret, p.ireg, p.freg, p.rd, p.addr, p.inst, p.length⟩

def Pass.perform (p : Pass) (M : Manager) (instret : BitVec 64) : Option Manager := do
  let M ← M.fetch p.live (p.fetched instret)
  p.effects.foldlM Effect.perform M

/-- What pass number `i` has added to the log. -/
def newItems (i : ℕ) (M M' : Manager) : List (ℕ × LogItem) :=
  (M'.log.drop M.log.length).map fun item => (i, item)

def runLoop (M : Manager) (instret : BitVec 64) (i : ℕ) :
    List Pass → Option (Manager × List (ℕ × LogItem))
  | [] => some (M, [])
  | p :: ps => do
    let M' ← p.perform M instret
    let (M'', items) ← runLoop M' (instret + 1) (i + 1) ps
    some (M'', newItems i M M' ++ items)

/-- A run ends between two passes, in a pass whose instruction traps, or in the exit system
call. -/
inductive Ending where
  | between
  | trap (p : Pass)
  | exit (p : Pass) (rc : BitVec 32)

def Ending.perform (M : Manager) (instret : BitVec 64) : Ending → Option Manager
  | between => some M
  | trap p => p.perform M instret
  | exit p rc => do
    let M ← p.perform M instret
    some (M.exit p.live instret rc)

def runProgram (M : Manager) (instret : BitVec 64) (ps : List Pass) (ending : Ending) :
    Option (List (ℕ × LogItem)) := do
  let (M', items) ← runLoop M instret 0 ps
  let M'' ← ending.perform M' (instret + BitVec.ofNat 64 ps.length)
  some (items ++ newItems ps.length M' M'')

/-! ## Intervals -/

/-- A place in the run: the number of the pass, and its instruction's address in the log. -/
structure Mark where
  index : ℕ
  addr : ℕ
  deriving DecidableEq, Repr

/-- A checkpoint, from its first instruction up to its break instruction. The last one may have
none. -/
structure Interval where
  start : Mark
  stop : Option Mark
  deriving DecidableEq, Repr

namespace Interval

def Covers (iv : Interval) (i : ℕ) : Prop :=
  iv.start.index ≤ i ∧ ∀ s, iv.stop = some s → i < s.index

def BreaksAt (iv : Interval) (i : ℕ) : Prop := ∃ s, iv.stop = some s ∧ s.index = i

end Interval

structure Reading where
  done : List Interval
  cur : Option Mark

def Reading.close (st : Reading) (stop : Option Mark) : Reading :=
  match st.cur with
  | some start => ⟨st.done ++ [⟨start, stop⟩], none⟩
  | none => st

def readItem (st : Reading) : ℕ × LogItem → Reading
  | (i, .begin addr _ _) => { st with cur := some ⟨i, addr⟩ }
  | (i, .break addr _) => st.close (some ⟨i, addr⟩)
  | (_, .exit _) => st.close none
  | _ => st

/-- The intervals of a log. One that is still open at its end has no break instruction. -/
def intervals (items : List (ℕ × LogItem)) : List Interval :=
  let st := items.foldl readItem ⟨[], none⟩
  st.done ++ (st.cur.map fun start => ⟨start, none⟩).toList

/-! ## One pass -/

/-- An item that neither opens nor closes an interval. -/
def LogItem.Silent : LogItem → Prop
  | .begin .. => False
  | .break .. => False
  | .exit _ => False
  | _ => True

theorem foldl_silent (st : Reading) (i : ℕ) {items : List LogItem}
    (h : ∀ item ∈ items, item.Silent) :
    (items.map fun item => (i, item)).foldl readItem st = st := by
  induction items with
  | nil => rfl
  | cons item items ih =>
    have hitem : readItem st (i, item) = st := by
      have hs := h item (by simp)
      cases item with
      | begin addr ireg freg => cases hs
      | «break» addr kind => cases hs
      | file b e pages execs => rfl
      | store addr size data => rfl
      | syscall addr => rfl
      | result retval write => rfl
      | exit rc => cases hs
    rw [List.map_cons, List.foldl_cons, hitem]
    exact ih fun item' hi => h item' (List.mem_cons_of_mem _ hi)

theorem markItems_silent (x : Fetched) : ∀ item ∈ Manager.markItems x, item.Silent := by
  intro item hitem
  rw [Manager.markItems] at hitem
  by_cases he : x.inst = ECALL
  · rw [if_pos he, List.mem_singleton] at hitem
    rw [hitem]
    trivial
  · rw [if_neg he] at hitem
    cases hitem

/-- The lines that `break_here` prints. -/
theorem fileItems_silent (T : MemTrace) (live : Mem) (b e : BitVec 64)
    (pages : List (Σ _ : ℕ, PageRec)) (execs : List (Σ _ : ℕ, ExecRec)) :
    ∀ item ∈ LogItem.file b e pages execs :: Manager.storeItems T live, item.Silent := by
  intro item hitem
  obtain rfl | hitem := List.mem_cons.mp hitem
  · trivial
  · obtain ⟨i, -, hi⟩ := List.mem_filterMap.mp hitem
    by_cases ha : (T.stores i).addr ≠ 0
    · rw [if_pos ha] at hi
      rw [← Option.some.inj hi]
      trivial
    · rw [if_neg ha] at hi
      cases hi

/-- What a pass does after the hook leaves the interval as it is. -/
structure Keeps (M M' : Manager) : Prop where
  out : M'.out = M.out
  period : M'.period = M.period
  beginInstret : M'.beginInstret = M.beginInstret
  mem : M'.mem.isSome = M.mem.isSome
  log : ∃ items, M'.log = M.log ++ items ∧ ∀ item ∈ items, item.Silent

theorem Keeps.refl (M : Manager) : Keeps M M :=
  ⟨rfl, rfl, rfl, rfl, [], by simp, by simp⟩

theorem Keeps.trans {M M' M'' : Manager} (h : Keeps M M') (h' : Keeps M' M'') : Keeps M M'' := by
  obtain ⟨items, hlog, hs⟩ := h.log
  obtain ⟨items', hlog', hs'⟩ := h'.log
  refine ⟨h'.out.trans h.out, h'.period.trans h.period, h'.beginInstret.trans h.beginInstret,
    h'.mem.trans h.mem, items ++ items', by rw [hlog', hlog, List.append_assoc], ?_⟩
  intro item hitem
  exact (List.mem_append.mp hitem).elim (hs item) (hs' item)

theorem perform_keeps {M M' : Manager} {e : Effect} (h : e.perform M = some M') : Keeps M M' := by
  cases e with
  | load w addr data =>
    rw [Effect.perform, Manager.load] at h
    cases hmem : M.mem with
    | none =>
      rw [hmem] at h
      cases h
      exact .refl _
    | some T =>
      rw [hmem] at h
      obtain ⟨T', -, rfl⟩ := Option.map_eq_some_iff.mp h
      exact ⟨rfl, rfl, rfl, by rw [hmem]; rfl, [], by simp, by simp⟩
  | store w addr =>
    rw [Effect.perform, Manager.store] at h
    cases hmem : M.mem with
    | none =>
      rw [hmem] at h
      cases h
      exact .refl _
    | some T =>
      rw [hmem] at h
      obtain ⟨T', -, rfl⟩ := Option.map_eq_some_iff.mp h
      exact ⟨rfl, rfl, rfl, by rw [hmem]; rfl, [], by simp, by simp⟩
  | syscall live retval addr size =>
    rw [Effect.perform, Manager.syscall] at h
    cases hmem : M.mem with
    | none =>
      rw [hmem] at h
      cases h
      exact .refl _
    | some T =>
      rw [hmem] at h
      dsimp only at h
      by_cases ha : addr ≠ 0
      · rw [if_pos ha] at h
        obtain ⟨T', -, rfl⟩ := Option.map_eq_some_iff.mp h
        refine ⟨rfl, rfl, rfl, by rw [hmem]; rfl, [_], rfl, ?_⟩
        intro item hitem
        rw [List.mem_singleton.mp hitem]
        trivial
      · rw [if_neg ha] at h
        cases h
        refine ⟨rfl, rfl, rfl, rfl, [_], rfl, ?_⟩
        intro item hitem
        rw [List.mem_singleton.mp hitem]
        trivial

theorem effects_keep {M M' : Manager} {es : List Effect}
    (h : es.foldlM Effect.perform M = some M') : Keeps M M' := by
  induction es generalizing M with
  | nil =>
    cases h
    exact .refl _
  | cons e es ih =>
    obtain ⟨M₁, hM₁, hrest⟩ := Option.bind_eq_some_iff.mp h
    exact (perform_keeps hM₁).trans (ih hrest)

/-! ## Tilings -/

/-- Closed intervals that follow each other from pass `i` on; `j` is the first pass after them. -/
def Chain (addr : ℕ → ℕ) (period : ℕ) : ℕ → List Interval → ℕ → Prop
  | i, [], j => i = j
  | i, iv :: ivs, j => ∃ s : Mark, iv = ⟨⟨i, addr i⟩, some s⟩ ∧ s.addr = addr s.index ∧
    period < s.index - i ∧ Chain addr period (s.index + 1) ivs j

theorem chain_append {addr : ℕ → ℕ} {period i j k : ℕ} {ivs ivs' : List Interval}
    (h : Chain addr period i ivs j) (h' : Chain addr period j ivs' k) :
    Chain addr period i (ivs ++ ivs') k := by
  induction ivs generalizing i with
  | nil =>
    rw [show i = j from h]
    exact h'
  | cons iv ivs ih =>
    obtain ⟨s, rfl, ha, hp, hrest⟩ := h
    exact ⟨s, rfl, ha, hp, ih hrest⟩

theorem chain_le {addr : ℕ → ℕ} {period i j : ℕ} {ivs : List Interval}
    (h : Chain addr period i ivs j) : i ≤ j := by
  induction ivs generalizing i with
  | nil => exact Nat.le_of_eq h
  | cons iv ivs ih =>
    obtain ⟨s, -, -, hp, hrest⟩ := h
    have := ih hrest
    omega

theorem chain_isChain {addr : ℕ → ℕ} {period i j : ℕ} {ivs : List Interval}
    (h : Chain addr period i ivs j) :
    (∀ iv, ivs.head? = some iv → iv.start.index = i) ∧
    (∀ iv, ivs.getLast? = some iv → ∃ s, iv.stop = some s ∧ j = s.index + 1) ∧
    ivs.IsChain fun a b => ∃ s, a.stop = some s ∧ b.start.index = s.index + 1 := by
  induction ivs generalizing i with
  | nil => simp
  | cons iv ivs ih =>
    obtain ⟨s, rfl, -, -, hrest⟩ := h
    obtain ⟨hhead, hlast, hchain⟩ := ih hrest
    refine ⟨by simp, ?_, ?_⟩
    · intro last hl
      cases ivs with
      | nil =>
        simp only [List.getLast?_singleton, Option.some.injEq] at hl
        exact ⟨s, by rw [← hl], Eq.symm hrest⟩
      | cons iv' ivs =>
        rw [List.getLast?_cons_cons] at hl
        exact hlast last hl
    · rw [List.isChain_cons]
      refine ⟨?_, hchain⟩
      intro next hnext
      exact ⟨s, rfl, hhead next hnext⟩

theorem chain_mem {addr : ℕ → ℕ} {period i j : ℕ} {ivs : List Interval}
    (h : Chain addr period i ivs j) : ∀ iv ∈ ivs, i ≤ iv.start.index ∧
      iv.start.addr = addr iv.start.index ∧ ∃ s, iv.stop = some s ∧ s.addr = addr s.index ∧
        period < s.index - iv.start.index ∧ s.index < j := by
  induction ivs generalizing i with
  | nil =>
    intro iv hiv
    cases hiv
  | cons iv ivs ih =>
    obtain ⟨s, rfl, ha, hp, hrest⟩ := h
    intro iv' hiv'
    obtain rfl | hiv' := List.mem_cons.mp hiv'
    · exact ⟨le_rfl, rfl, s, rfl, ha, hp, chain_le hrest⟩
    · obtain ⟨hle, hrest'⟩ := ih hrest iv' hiv'
      exact ⟨by omega, hrest'⟩

theorem chain_exists {addr : ℕ → ℕ} {period i j x : ℕ} {ivs : List Interval}
    (h : Chain addr period i ivs j) (hi : i ≤ x) (hj : x < j) :
    ∃ iv ∈ ivs, iv.Covers x ∨ iv.BreaksAt x := by
  induction ivs generalizing i with
  | nil =>
    have hij : i = j := h
    omega
  | cons iv ivs ih =>
    obtain ⟨s, rfl, -, -, hrest⟩ := h
    obtain hlt | rfl | hgt := Nat.lt_trichotomy x s.index
    · refine ⟨_, List.mem_cons_self, .inl ⟨hi, ?_⟩⟩
      rintro s' ⟨⟩
      exact hlt
    · exact ⟨_, List.mem_cons_self, .inr ⟨s, rfl, rfl⟩⟩
    · obtain ⟨iv', hmem, hin⟩ := ih hrest hgt
      exact ⟨iv', List.mem_cons_of_mem _ hmem, hin⟩

theorem chain_pairwise {addr : ℕ → ℕ} {period i j : ℕ} {ivs : List Interval}
    (h : Chain addr period i ivs j) :
    ivs.Pairwise fun a b => ∃ s, a.stop = some s ∧ s.index < b.start.index := by
  induction ivs generalizing i with
  | nil => exact List.Pairwise.nil
  | cons iv ivs ih =>
    obtain ⟨s, rfl, -, -, hrest⟩ := h
    refine List.pairwise_cons.mpr ⟨?_, ih hrest⟩
    intro b hb
    exact ⟨s, rfl, (chain_mem hrest b hb).1⟩

/-- The intervals of a run of `n` passes: a chain from pass 0 on, and possibly an interval that
no break instruction has closed. -/
def Tiled (addr : ℕ → ℕ) (period n : ℕ) (ivs : List Interval) : Prop :=
  ∃ done k, Chain addr period 0 done k ∧
    ((ivs = done ∧ n ≤ k) ∨ (ivs = done ++ [⟨⟨k, addr k⟩, none⟩] ∧ k ≤ n))

/-! ## The run -/

/-- The log has been read up to pass `i`. An open interval counts the passes since its start. -/
structure SegInv (addr : ℕ → ℕ) (period i : ℕ) (instret : BitVec 64) (M : Manager)
    (st : Reading) : Prop where
  out : M.out = true
  samePeriod : M.period.toNat = period
  shape : (st.cur = none ∧ M.mem.isSome = false ∧ Chain addr period 0 st.done i) ∨
    ∃ k, st.cur = some ⟨k, addr k⟩ ∧ M.mem.isSome = true ∧ Chain addr period 0 st.done k ∧ k < i ∧
      instret = M.beginInstret + BitVec.ofNat 64 (i - k)

theorem newItems_eq {M M' : Manager} {items : List LogItem} (i : ℕ) (h : M'.log = M.log ++ items) :
    newItems i M M' = items.map fun item => (i, item) := by
  rw [newItems, h, List.drop_left]

/-- A counter that runs modulo `2 ^ 64` passes the period only after more passes than it. -/
theorem lt_of_counter {a b : BitVec 64} {p n : ℕ} (h : p < (a - b).toNat)
    (hn : a = b + BitVec.ofNat 64 n) : p < n := by
  have hsub : a - b = BitVec.ofNat 64 n := by
    rw [hn, BitVec.add_comm, BitVec.add_sub_cancel]
  rw [hsub, BitVec.toNat_ofNat] at h
  have := Nat.mod_le n (2 ^ 64)
  omega

theorem fetch_segInv {addr : ℕ → ℕ} {period i : ℕ} {instret : BitVec 64} {M M' : Manager}
    {st : Reading} {p : Pass} (h : SegInv addr period i instret M st) (ha : addr i = p.addr)
    (hM' : M.fetch p.live (p.fetched instret) = some M') :
    ∃ items, M'.log = M.log ++ items ∧ SegInv addr period (i + 1) (instret + 1) M'
      ((items.map fun item => (i, item)).foldl readItem st) := by
  obtain ⟨T', hnone, rfl⟩ | ⟨T, T', hT, rfl⟩ |
    ⟨T, T₁, T₂, firstVisit, kind, hT, -, hlt, -, rfl⟩ := Manager.fetch_cases h.out hM'
  · refine ⟨_, rfl, h.out, h.samePeriod, ?_⟩
    obtain ⟨hcur, -, hchain⟩ | ⟨k, -, hsome, -⟩ := h.shape
    · right
      rw [List.map_cons, List.foldl_cons, foldl_silent _ _ (markItems_silent _)]
      refine ⟨i, ?_, rfl, hchain, Nat.lt_succ_self i, ?_⟩
      · rw [ha]
        rfl
      · rw [Nat.add_sub_cancel_left]
        rfl
    · rw [hnone] at hsome
      cases hsome
  · refine ⟨_, rfl, h.out, h.samePeriod, ?_⟩
    rw [foldl_silent _ _ (markItems_silent _)]
    obtain ⟨-, hnone, -⟩ | ⟨k, hcur, -, hchain, hk, hcount⟩ := h.shape
    · rw [hT] at hnone
      cases hnone
    · right
      refine ⟨k, hcur, rfl, hchain, by omega, ?_⟩
      rw [hcount, Nat.sub_add_comm hk.le, BitVec.ofNat_add, BitVec.add_assoc]
      rfl
  · refine ⟨_, rfl, h.out, h.samePeriod, ?_⟩
    obtain ⟨-, hnone, -⟩ | ⟨k, hcur, -, hchain, hk, hcount⟩ := h.shape
    · rw [hT] at hnone
      cases hnone
    · left
      have hperiod : period < i - k := by
        rw [← h.samePeriod]
        exact lt_of_counter hlt hcount
      have hread : readItem st (i, .break p.addr kind) =
          ⟨st.done ++ [⟨⟨k, addr k⟩, some ⟨i, p.addr⟩⟩], none⟩ := by
        rw [readItem, Reading.close, hcur]
      rw [List.map_cons, List.foldl_cons, foldl_silent _ _ (fileItems_silent _ _ _ _ _ _),
        show (p.fetched instret).addr = p.addr from rfl, hread]
      exact ⟨rfl, rfl, chain_append hchain ⟨⟨i, p.addr⟩, rfl, ha.symm, hperiod, rfl⟩⟩

theorem keeps_segInv {addr : ℕ → ℕ} {period i : ℕ} {instret : BitVec 64} {M M' : Manager}
    {st : Reading} (h : SegInv addr period i instret M st) (hk : Keeps M M') :
    SegInv addr period i instret M' st := by
  refine ⟨hk.out.trans h.out, by rw [hk.period, h.samePeriod], ?_⟩
  rw [hk.mem, hk.beginInstret]
  exact h.shape

theorem perform_segInv {addr : ℕ → ℕ} {period i : ℕ} {instret : BitVec 64} {M M' : Manager}
    {st : Reading} {p : Pass} (h : SegInv addr period i instret M st) (ha : addr i = p.addr)
    (hM' : p.perform M instret = some M') :
    (∃ items, M'.log = M.log ++ items) ∧
      SegInv addr period (i + 1) (instret + 1) M' ((newItems i M M').foldl readItem st) := by
  obtain ⟨M₁, hM₁, heffects⟩ := Option.bind_eq_some_iff.mp hM'
  obtain ⟨items, hitems, hinv⟩ := fetch_segInv h ha hM₁
  have hkeep := effects_keep heffects
  obtain ⟨items', hitems', hsilent⟩ := hkeep.log
  have hlog : M'.log = M.log ++ (items ++ items') := by
    rw [hitems', hitems, List.append_assoc]
  refine ⟨⟨_, hlog⟩, ?_⟩
  rw [newItems_eq i hlog, List.map_append, List.foldl_append, foldl_silent _ _ hsilent]
  exact keeps_segInv hinv hkeep

theorem runLoop_segInv {addr : ℕ → ℕ} {period i : ℕ} {instret : BitVec 64} {M M' : Manager}
    {st : Reading} {ps : List Pass} {items : List (ℕ × LogItem)}
    (h : SegInv addr period i instret M st)
    (ha : ∀ k p, ps[k]? = some p → addr (i + k) = p.addr)
    (hrun : runLoop M instret i ps = some (M', items)) :
    SegInv addr period (i + ps.length) (instret + BitVec.ofNat 64 ps.length) M'
      (items.foldl readItem st) := by
  induction ps generalizing i instret M st items with
  | nil =>
    cases hrun
    simpa using h
  | cons p ps ih =>
    obtain ⟨M₁, hM₁, hrun⟩ := Option.bind_eq_some_iff.mp hrun
    obtain ⟨⟨M₂, rest⟩, hrest, hrun⟩ := Option.bind_eq_some_iff.mp hrun
    cases hrun
    have h₁ := (perform_segInv h (ha 0 p rfl) hM₁).2
    have hnext := ih h₁ (fun k q hq => by
      have := ha (k + 1) q (by simpa using hq)
      rwa [show i + 1 + k = i + (k + 1) by omega]) hrest
    rw [List.foldl_append, List.length_cons]
    rw [show i + (ps.length + 1) = i + 1 + ps.length by omega,
      Nat.add_comm ps.length 1, BitVec.ofNat_add, ← BitVec.add_assoc]
    exact hnext

theorem tiled_of_segInv {addr : ℕ → ℕ} {period i n : ℕ} {instret : BitVec 64} {M : Manager}
    {items : List (ℕ × LogItem)}
    (h : SegInv addr period i instret M (items.foldl readItem ⟨[], none⟩)) (hn : n ≤ i)
    (hi : i ≤ n + 1) : Tiled addr period n (intervals items) := by
  obtain ⟨hcur, -, hchain⟩ | ⟨k, hcur, -, hchain, hk, -⟩ := h.shape
  · refine ⟨_, i, hchain, .inl ⟨?_, hn⟩⟩
    simp [intervals, hcur]
  · refine ⟨_, k, hchain, .inr ⟨?_, by omega⟩⟩
    simp [intervals, hcur]

def Ending.pass : Ending → Option Pass
  | between => none
  | trap p => some p
  | exit p _ => some p

/-- The instruction address of a pass, the one that ends the run included. -/
def passAddr (ps : List Pass) (ending : Ending) (i : ℕ) : ℕ :=
  (((ps ++ ending.pass.toList)[i]?).map Pass.addr).getD 0

theorem runProgram_tiled {M : Manager} {instret : BitVec 64} {ps : List Pass} {ending : Ending}
    {items : List (ℕ × LogItem)} (hout : M.out = true) (hmem : M.mem = none)
    (hrun : runProgram M instret ps ending = some items) :
    Tiled (passAddr ps ending) M.period.toNat ps.length (intervals items) := by
  obtain ⟨⟨M₁, items₁⟩, hM₁, hrun⟩ := Option.bind_eq_some_iff.mp hrun
  obtain ⟨M₂, hM₂, hrun⟩ := Option.bind_eq_some_iff.mp hrun
  have hitems := (Option.some.inj hrun).symm
  have hinit : SegInv (passAddr ps ending) M.period.toNat 0 instret M ⟨[], none⟩ :=
    ⟨hout, rfl, .inl ⟨rfl, by rw [hmem]; rfl, rfl⟩⟩
  have hloop := runLoop_segInv hinit (fun k p hp => by
    rw [Nat.zero_add, passAddr, List.getElem?_append_left (List.getElem?_eq_some_iff.mp hp).1, hp]
    rfl) hM₁
  rw [Nat.zero_add] at hloop
  have hlast : ∀ p, ending.pass = some p → passAddr ps ending ps.length = p.addr := by
    intro p hp
    rw [passAddr, hp, List.getElem?_append_right le_rfl]
    simp
  cases ending with
  | between =>
    cases hM₂
    have hnil : newItems ps.length M₁ M₁ = [] := newItems_eq ps.length (List.append_nil _).symm
    rw [hitems, hnil, List.append_nil]
    exact tiled_of_segInv hloop le_rfl (Nat.le_succ _)
  | trap p =>
    obtain ⟨-, hinv⟩ := perform_segInv hloop (hlast p rfl) hM₂
    rw [← List.foldl_append, ← hitems] at hinv
    exact tiled_of_segInv hinv (Nat.le_succ _) le_rfl
  | exit p rc =>
    obtain ⟨M₃, hM₃, hexit⟩ := Option.bind_eq_some_iff.mp hM₂
    obtain ⟨⟨new, hnew⟩, hinv⟩ := perform_segInv hloop (hlast p rfl) hM₃
    have hM₂' := Option.some.inj hexit
    rw [newItems_eq _ hnew, ← List.foldl_append] at hinv
    obtain ⟨hcur, hnone, hchain⟩ | ⟨k, hcur, hsome, hchain, hk, -⟩ := hinv.shape
    · have hsame : M₂ = M₃ := by
        rw [← hM₂', Manager.exit, Option.isSome_eq_false_iff.mp hnone |> Option.isNone_iff_eq_none.mp]
      refine ⟨_, ps.length + 1, hchain, .inl ⟨?_, Nat.le_succ _⟩⟩
      rw [hitems, hsame, newItems_eq _ hnew, intervals, hcur]
      simp
    · obtain ⟨T, hT⟩ := Option.isSome_iff_exists.mp hsome
      have hlog : M₂.log = M₁.log ++ (new ++ .exit rc ::
          .file M₃.beginInstret (instret + BitVec.ofNat 64 ps.length) T.pages.entries
            T.execs.entries :: Manager.storeItems T p.live) := by
        rw [← hM₂', Manager.exit, hT]
        simp only [Manager.breakHere, Manager.emit, hT, hnew, List.append_assoc, List.cons_append,
          List.nil_append]
      refine ⟨_, k, hchain, .inr ⟨?_, by omega⟩⟩
      rw [hitems, newItems_eq _ hlog, intervals, List.map_append, ← List.append_assoc,
        List.foldl_append, List.map_cons, List.foldl_cons,
        foldl_silent _ _ (fileItems_silent T p.live _ _ _ _), readItem, Reading.close, hcur]
      simp

/-! ## What a tiling says -/

/-- How the intervals of a run of `n` retired passes cut it up. -/
structure Segmented (addr : ℕ → ℕ) (period n : ℕ) (ivs : List Interval) : Prop where
  first : ∀ iv, ivs.head? = some iv → iv.start.index = 0
  follows : ivs.IsChain fun a b => ∃ s, a.stop = some s ∧ b.start.index = s.index + 1
  addrs : ∀ iv ∈ ivs, iv.start.addr = addr iv.start.index ∧
    ∀ s, iv.stop = some s → s.addr = addr s.index
  long : ∀ iv ∈ ivs, (∃ s, iv.stop = some s ∧ period < s.index - iv.start.index) ∨
    ivs.getLast? = some iv
  unique : ∀ i < n, ∃! k : ℕ, ∃ iv : Interval, ivs[k]? = some iv ∧ (iv.Covers i ∨ iv.BreaksAt i)
  exclusive : ∀ iv ∈ ivs, ∀ i, ¬ (iv.Covers i ∧ iv.BreaksAt i)

theorem not_covers_and_breaksAt (iv : Interval) (i : ℕ) : ¬ (iv.Covers i ∧ iv.BreaksAt i) := by
  rintro ⟨⟨-, hlt⟩, s, hs, rfl⟩
  exact absurd (hlt s hs) (lt_irrefl _)

/-- A pass that is covered or broken at lies between the interval's start and its break. -/
theorem index_bounds {iv : Interval} {i : ℕ} (hmem : iv.Covers i ∨ iv.BreaksAt i)
    (hpos : ∀ s, iv.stop = some s → iv.start.index ≤ s.index) :
    iv.start.index ≤ i ∧ ∀ s, iv.stop = some s → i ≤ s.index := by
  obtain ⟨hlo, hhi⟩ | ⟨s, hs, rfl⟩ := hmem
  · exact ⟨hlo, fun s hs => (hhi s hs).le⟩
  · refine ⟨hpos s hs, ?_⟩
    intro s' hs'
    rw [hs] at hs'
    rw [← Option.some.inj hs']

theorem unique_of_pairwise {ivs : List Interval} {i : ℕ}
    (hpair : ivs.Pairwise fun a b => ∃ s, a.stop = some s ∧ s.index < b.start.index)
    (hpos : ∀ iv ∈ ivs, ∀ s, iv.stop = some s → iv.start.index ≤ s.index)
    (hex : ∃ iv ∈ ivs, iv.Covers i ∨ iv.BreaksAt i) :
    ∃! k : ℕ, ∃ iv : Interval, ivs[k]? = some iv ∧ (iv.Covers i ∨ iv.BreaksAt i) := by
  obtain ⟨iv, hiv, hin⟩ := hex
  obtain ⟨k, hk⟩ := List.mem_iff_getElem?.mp hiv
  have hapart : ∀ (k l : ℕ) (a b : Interval), k < l → ivs[k]? = some a → ivs[l]? = some b →
      (a.Covers i ∨ a.BreaksAt i) → (b.Covers i ∨ b.BreaksAt i) → False := by
    intro k l a b hkl ha hb hina hinb
    obtain ⟨hka, rfl⟩ := List.getElem?_eq_some_iff.mp ha
    obtain ⟨hlb, rfl⟩ := List.getElem?_eq_some_iff.mp hb
    obtain ⟨s, hs, hlt⟩ := List.pairwise_iff_getElem.mp hpair k l hka hlb hkl
    have hle := (index_bounds hina (hpos _ (List.getElem_mem hka))).2 s hs
    have hge := (index_bounds hinb (hpos _ (List.getElem_mem hlb))).1
    omega
  refine ⟨k, ⟨iv, hk, hin⟩, ?_⟩
  rintro l ⟨iv', hl, hin'⟩
  obtain hlt | heq | hgt := Nat.lt_trichotomy k l
  · exact (hapart k l iv iv' hlt hk hl hin hin').elim
  · exact heq.symm
  · exact (hapart l k iv' iv hgt hl hk hin' hin).elim

/-- The addresses of an interval of a chain. -/
theorem chain_addrs {addr : ℕ → ℕ} {period i j : ℕ} {ivs : List Interval}
    (h : Chain addr period i ivs j) {iv : Interval} (hiv : iv ∈ ivs) :
    iv.start.addr = addr iv.start.index ∧ ∀ s, iv.stop = some s → s.addr = addr s.index := by
  obtain ⟨-, ha, s, hs, hsa, -, -⟩ := chain_mem h iv hiv
  refine ⟨ha, ?_⟩
  intro s' hs'
  rw [hs] at hs'
  rw [← Option.some.inj hs', hsa]

/-- An interval of a chain ends more than a period after its start. -/
theorem chain_long {addr : ℕ → ℕ} {period i j : ℕ} {ivs : List Interval}
    (h : Chain addr period i ivs j) {iv : Interval} (hiv : iv ∈ ivs) :
    ∃ s, iv.stop = some s ∧ period < s.index - iv.start.index := by
  obtain ⟨-, -, s, hs, -, hp, -⟩ := chain_mem h iv hiv
  exact ⟨s, hs, hp⟩

theorem chain_ordered {addr : ℕ → ℕ} {period i j : ℕ} {ivs : List Interval}
    (h : Chain addr period i ivs j) {iv : Interval} (hiv : iv ∈ ivs) {s : Mark}
    (hs : iv.stop = some s) : iv.start.index ≤ s.index := by
  obtain ⟨s', hs', hp⟩ := chain_long h hiv
  rw [hs] at hs'
  rw [Option.some.inj hs']
  omega

theorem segmented_of_tiled {addr : ℕ → ℕ} {period n : ℕ} {ivs : List Interval}
    (h : Tiled addr period n ivs) : Segmented addr period n ivs := by
  obtain ⟨done, k, hchain, ⟨rfl, hn⟩ | ⟨rfl, hk⟩⟩ := h
  · obtain ⟨hfirst, -, hfollows⟩ := chain_isChain hchain
    refine ⟨hfirst, hfollows, fun iv hiv => chain_addrs hchain hiv,
      fun iv hiv => .inl (chain_long hchain hiv), ?_, fun iv _ i => not_covers_and_breaksAt iv i⟩
    intro i hi
    exact unique_of_pairwise (chain_pairwise hchain)
      (fun iv hiv s hs => chain_ordered hchain hiv hs)
      (chain_exists hchain (Nat.zero_le i) (by omega))
  · obtain ⟨hfirst, hlast, hfollows⟩ := chain_isChain hchain
    refine ⟨?_, ?_, ?_, ?_, ?_, fun iv _ i => not_covers_and_breaksAt iv i⟩
    · intro iv hiv
      cases done with
      | nil =>
        have hk0 : 0 = k := hchain
        rw [List.nil_append, List.head?_cons] at hiv
        rw [← Option.some.inj hiv]
        exact hk0.symm
      | cons iv' done => exact hfirst iv hiv
    · rw [List.isChain_append]
      refine ⟨hfollows, List.isChain_singleton _, ?_⟩
      intro a ha b hb
      rw [List.head?_cons, Option.mem_some_iff] at hb
      obtain ⟨s, hs, hks⟩ := hlast a ha
      exact ⟨s, hs, by rw [← hb, hks]⟩
    · intro iv hiv
      obtain hiv | hiv := List.mem_append.mp hiv
      · exact chain_addrs hchain hiv
      · rw [List.mem_singleton.mp hiv]
        refine ⟨rfl, ?_⟩
        rintro s ⟨⟩
    · intro iv hiv
      obtain hiv | hiv := List.mem_append.mp hiv
      · exact .inl (chain_long hchain hiv)
      · rw [List.mem_singleton.mp hiv]
        exact .inr (List.getLast?_append_of_ne_nil _ (List.cons_ne_nil _ _))
    · intro i hi
      apply unique_of_pairwise
      · refine List.pairwise_append.mpr
          ⟨chain_pairwise hchain, List.pairwise_singleton _ _, ?_⟩
        intro a ha b hb
        obtain ⟨-, -, s, hs, -, -, hlt⟩ := chain_mem hchain a ha
        rw [List.mem_singleton.mp hb]
        exact ⟨s, hs, hlt⟩
      · intro iv hiv s hs
        obtain hiv | hiv := List.mem_append.mp hiv
        · exact chain_ordered hchain hiv hs
        · rw [List.mem_singleton.mp hiv] at hs
          cases hs
      · by_cases hik : i < k
        · obtain ⟨iv, hiv, hin⟩ := chain_exists hchain (Nat.zero_le i) hik
          exact ⟨iv, List.mem_append_left _ hiv, hin⟩
        · refine ⟨_, List.mem_append_right _ List.mem_cons_self, .inl ⟨Nat.not_lt.mp hik, ?_⟩⟩
          rintro s ⟨⟩

/-- **Segmentation.** The checkpoints in the log of any run, for any period and any mixture of
breaks, tile the passes of the run. -/
theorem runProgram_segmented {M : Manager} {instret : BitVec 64} {ps : List Pass}
    {ending : Ending} {items : List (ℕ × LogItem)} (hout : M.out = true) (hmem : M.mem = none)
    (hrun : runProgram M instret ps ending = some items) :
    Segmented (passAddr ps ending) M.period.toNat ps.length (intervals items) :=
  segmented_of_tiled (runProgram_tiled hout hmem hrun)

def nopAt (addr : ℕ) : Pass := ⟨fun _ => 0, fun _ => 0, -1, addr, 0x13, 4, fun _ => 0, []⟩

def shortRun : List Pass := [nopAt 0x10000, nopAt 0x10004, nopAt 0x10008, nopAt 0x1000c]

def manager (period : BitVec 64) : Manager := ⟨true, period, 0, none, 0, []⟩

theorem shortRun_segmented : ∃ items, runProgram (manager 0) 5 shortRun .between = some items ∧
    Segmented (passAddr shortRun .between) (manager 0).period.toNat 4 (intervals items) := by
  have hsome : (runProgram (manager 0) 5 shortRun .between).isSome = true := by decide
  obtain ⟨items, hitems⟩ := Option.isSome_iff_exists.mp hsome
  exact ⟨items, hitems, runProgram_segmented rfl rfl hitems⟩

end RvCkpt
