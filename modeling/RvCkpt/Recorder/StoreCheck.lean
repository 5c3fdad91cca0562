import RvCkpt.Lib.Runs
import RvCkpt.Recorder.Manager
import RvCkpt.Recorder.Space

/-! # Reading the stores back

At a break `break_here` reads memory at the addresses of the store trace and prints what it finds;
the replayed program compares its own memory with the printed values at its end. The bytes of a
slot are fine as long as the guest keeps them mapped with the bytes of the replayed program, which
performs the stores and the recorded writes of the interval and none of its mappings.
-/

namespace RvCkpt
open ByteMem Runs
set_option autoImplicit false

/-! ## The store trace -/

namespace MemTrace

theorem getPage_stores (T : MemTrace) (pn : ℕ) : (T.getPage pn).stores = T.stores := by
  unfold getPage
  cases T.pages.lookup pn <;> rfl

theorem getExec_stores (T : MemTrace) (pn : ℕ) : (T.getExec pn).stores = T.stores := by
  unfold getExec
  cases T.execs.lookup pn <;> rfl

theorem selectLoad_stores (T : MemTrace) (pn : ℕ) : (T.selectLoad pn).stores = T.stores := by
  unfold selectLoad getPageCached
  by_cases h : pn ≠ T.loadCache.idx
  · rw [if_pos h]
    exact getPage_stores T pn
  · rw [if_neg h]

theorem selectFetch_stores (T : MemTrace) (pn : ℕ) : (T.selectFetch pn).stores = T.stores := by
  unfold selectFetch getPageCached
  by_cases h : pn ≠ T.fetchCache.idx
  · rw [if_pos h]
    exact getPage_stores T pn
  · rw [if_neg h]

theorem putPage_stores (T : MemTrace) (cache : PtrCache) (page : PageRec) :
    (T.putPage cache page).stores = T.stores := by
  unfold putPage
  cases cache.ptr <;> rfl

theorem incrExecCounter_stores {T T' : MemTrace} {addr : ℕ} (h : T.incrExecCounter addr = some T') :
    T'.stores = T.stores := by
  obtain ⟨pn, -, h⟩ := Option.bind_eq_some_iff.mp h
  obtain ⟨exec, -, h⟩ := Option.bind_eq_some_iff.mp h
  rw [← Option.some.inj h, selectExec]
  by_cases hpn : addr / PAGE_SIZE ≠ T.execCache.idx
  · rw [if_pos hpn]
    exact getExec_stores T _
  · rw [if_neg hpn]

theorem fetchAt_stores {w : Width} {T : MemTrace} {cache : PtrCache} {offset : ℕ}
    {inst : BitVec 64} {r : MemTrace × Bool} (h : fetchAt w T cache offset inst = some r) :
    r.1.stores = T.stores := by
  obtain ⟨page, -, h⟩ := Option.bind_eq_some_iff.mp h
  rw [← Option.some.inj h]
  exact putPage_stores T cache _

theorem fetch_stores {T : MemTrace} {addr length : ℕ} {inst : BitVec 64} {r : MemTrace × Bool}
    (h : T.fetch addr inst length = some r) : r.1.stores = T.stores := by
  obtain ⟨T₁, hincr, h⟩ := Option.bind_eq_some_iff.mp h
  have hT₁ : (T₁.selectFetch (addr / PAGE_SIZE)).stores = T.stores :=
    (selectFetch_stores _ _).trans (incrExecCounter_stores hincr)
  dsimp only at h
  by_cases h2 : length = 2
  · rw [if_pos h2] at h
    exact (fetchAt_stores h).trans hT₁
  rw [if_neg h2] at h
  by_cases h4 : addr % 4 = 0
  · rw [if_pos h4] at h
    exact (fetchAt_stores h).trans hT₁
  rw [if_neg h4] at h
  -- a split fetch
  obtain ⟨⟨T₂, first₁⟩, hfirst, h⟩ := Option.bind_eq_some_iff.mp h
  obtain ⟨⟨T₃, first₂⟩, hsecond, h⟩ := Option.bind_eq_some_iff.mp h
  rw [← Option.some.inj h]
  have hT₂ : T₂.stores = T.stores := (fetchAt_stores hfirst).trans hT₁
  refine (fetchAt_stores hsecond).trans ?_
  by_cases hcross : addr % PAGE_SIZE + 2 = PAGE_SIZE
  · rw [if_pos hcross, selectFetch_stores, hT₂]
  · rw [if_neg hcross, hT₂]

theorem loadLoop_stores {pn : ℕ} {data : BitVec 64} {k i pos : ℕ} {T T' : MemTrace}
    (h : loadLoop pn data k i pos T = some T') : T'.stores = T.stores := by
  induction k generalizing i pos T with
  | zero =>
    obtain rfl := Option.some.inj h
    rfl
  | succ k ih =>
    obtain ⟨page, -, h⟩ := Option.bind_eq_some_iff.mp h
    refine (ih h).trans ?_
    have hput : ∀ (T₁ : MemTrace) (p : Prop) [Decidable p] (page : PageRec),
        (if p then T₁.putPage T₁.loadCache page else T₁).stores = T₁.stores := by
      intro T₁ p _ page
      by_cases hp : p
      · rw [if_pos hp, putPage_stores]
      · rw [if_neg hp]
    refine (hput _ _ _).trans ?_
    by_cases hcross : pos = PAGE_SIZE
    · rw [if_pos hcross, selectLoad_stores]
    · rw [if_neg hcross]

theorem load_stores {w : Width} {T T' : MemTrace} {addr : ℕ} {data : BitVec 64}
    (h : T.load w addr data = some T') : T'.stores = T.stores := by
  obtain ⟨page, -, h⟩ := Option.bind_eq_some_iff.mp h
  have hselect := selectLoad_stores T (addr / PAGE_SIZE)
  split at h
  · rw [← Option.some.inj h]
    exact (putPage_stores _ _ _).trans hselect
  · split at h
    · rw [← Option.some.inj h]
      exact hselect
    · exact (loadLoop_stores h).trans hselect

theorem store_stores {w : Width} {T T' : MemTrace} {addr : ℕ} (h : T.store w addr = some T') :
    T'.stores = Function.update T.stores (storeHash addr) ⟨addr, w.bytes⟩ := by
  obtain ⟨T₁, hload, h⟩ := Option.bind_eq_some_iff.mp h
  rw [← Option.some.inj h, load_stores hload]

theorem storeHash_lt (addr : ℕ) : storeHash addr < STREC_SIZE := by
  have hfold : ∀ (l : List ℕ) (hash shift : ℕ), hash < STREC_SIZE →
      (l.foldl (fun (p : ℕ × ℕ) _ => (p.1 ^^^ p.2 % STREC_SIZE, p.2 / STREC_SIZE))
        (hash, shift)).1 < STREC_SIZE := by
    intro l
    induction l with
    | nil => exact fun hash shift h => h
    | cons x l ih =>
      intro hash shift h
      rw [List.foldl_cons]
      apply ih
      exact Nat.xor_lt_two_pow (n := 8) h (Nat.mod_lt _ (by decide))
  exact hfold (List.range 8) 0 addr (by decide)

end MemTrace

/-- The bytes of the slots in use. -/
def Covered (stores : ℕ → StoreRec) (b : ℕ) : Prop :=
  ∃ i < STREC_SIZE, (stores i).addr ≠ 0 ∧
    (stores i).addr ≤ b ∧ b < (stores i).addr + (stores i).size

def Sized (stores : ℕ → StoreRec) : Prop := ∀ i, (stores i).size ≤ 8

theorem covered_update {stores : ℕ → StoreRec} {i b : ℕ} {r : StoreRec}
    (h : Covered (Function.update stores i r) b) :
    Covered stores b ∨ (r.addr ≤ b ∧ b < r.addr + r.size) := by
  obtain ⟨j, hj, hused, hb⟩ := h
  by_cases hij : j = i
  · subst hij
    rw [Function.update_self] at hb
    exact .inr hb
  · rw [Function.update_of_ne hij] at hused hb
    exact .inl ⟨j, hj, hused, hb⟩

theorem sized_update {stores : ℕ → StoreRec} (i : ℕ) {r : StoreRec} (h : Sized stores)
    (hr : r.size ≤ 8) : Sized (Function.update stores i r) := by
  intro j
  by_cases hij : j = i
  · rw [hij, Function.update_self]
    exact hr
  · rw [Function.update_of_ne hij]
    exact h j

/-- A trace that has come to cover nothing but the bytes of a write. -/
structure Grows (T T' : MemTrace) (addr size : ℕ) : Prop where
  covered : ∀ b, Covered T'.stores b → Covered T.stores b ∨ (addr ≤ b ∧ b < addr + size)
  sized : Sized T.stores → Sized T'.stores

theorem Grows.of_eq {T T' : MemTrace} (addr size : ℕ) (h : T'.stores = T.stores) :
    Grows T T' addr size :=
  ⟨fun _ hb => .inl (h ▸ hb), fun hs => h ▸ hs⟩

theorem store_grows {w : Width} {T T' : MemTrace} {addr : ℕ} (h : T.store w addr = some T') :
    Grows T T' addr w.bytes := by
  constructor
  · intro b hb
    rw [MemTrace.store_stores h] at hb
    exact covered_update hb
  · intro hs
    rw [MemTrace.store_stores h]
    exact sized_update _ hs w.bytes_le

theorem storeBytes_grows {T T' : MemTrace} {addr size : ℕ}
    (h : T.storeBytes addr size = some T') : Grows T T' addr size := by
  induction size generalizing T addr with
  | zero => exact .of_eq _ _ (congrArg MemTrace.stores (Option.some.inj h).symm)
  | succ size ih =>
    obtain ⟨T₁, hstore, h⟩ := Option.bind_eq_some_iff.mp h
    have hfirst := store_grows hstore
    have hrest := ih h
    constructor
    · intro b hb
      rcases hrest.covered b hb with hb | hb
      · rcases hfirst.covered b hb with hb | hb
        · exact .inl hb
        · exact .inr ⟨hb.1, by simp only [Width.bytes] at hb; omega⟩
      · exact .inr (by omega)
    · exact fun hs => hrest.sized (hfirst.sized hs)

/-- The part of an event's cells that it writes. -/
def Event.wrote : Event → ℕ
  | .fetch .. => 0
  | .load .. => 0
  | .store w _ _ => w.bytes
  | .syscall _ data _ => data.length

theorem note_grows {m : Mem} {T T' : MemTrace} {e : Event} (h : e.note m T = some T') :
    Grows T T' e.addr e.wrote := by
  cases e with
  | fetch addr length ha hl =>
    obtain ⟨r, hfetch, hr⟩ := Option.map_eq_some_iff.mp h
    rw [← hr]
    exact .of_eq _ _ (MemTrace.fetch_stores hfetch)
  | load w addr => exact .of_eq _ _ (MemTrace.load_stores h)
  | store w addr data => exact store_grows h
  | syscall addr data ha => exact storeBytes_grows h

/-- An event leaves the same bytes in the cells that it writes, whatever memory it finds, and
nothing else changes. -/
theorem apply_wrote (m m' : Mem) (e : Event) {b : ℕ} (hb : e.addr ≤ b ∧ b < e.addr + e.wrote) :
    e.apply m b = e.apply m' b := by
  cases e with
  | fetch addr length ha hl => simp only [Event.wrote] at hb; omega
  | load w addr => simp only [Event.wrote] at hb; omega
  | store w addr data =>
    simp only [Event.addr, Event.wrote] at hb
    rw [Event.apply, Event.apply, Mem.write_of_mem hb, Mem.write_of_mem hb]
  | syscall addr data ha =>
    simp only [Event.addr, Event.wrote] at hb
    rw [Event.apply, Event.apply, Mem.writeBytes_of_mem hb, Mem.writeBytes_of_mem hb]

theorem apply_kept (m : Mem) (e : Event) {b : ℕ} (hb : ¬ (e.addr ≤ b ∧ b < e.addr + e.wrote)) :
    e.apply m b = m b := by
  cases e with
  | fetch addr length ha hl => rfl
  | load w addr => rfl
  | store w addr data =>
    simp only [Event.addr, Event.wrote] at hb
    rw [Event.apply, Mem.write_of_not_mem (by omega)]
  | syscall addr data ha =>
    simp only [Event.addr, Event.wrote] at hb
    rw [Event.apply, Mem.writeBytes_of_not_mem (by omega)]

theorem wrote_le (e : Event) : e.wrote ≤ e.size := by
  cases e with
  | fetch addr length ha hl => exact Nat.zero_le _
  | load w addr => exact Nat.zero_le _
  | store w addr data => exact le_rfl
  | syscall addr data ha => exact le_rfl

/-! ## An interval -/

structure Recording where
  space : Space
  /-- The memory of the replayed program at the same point. -/
  replay : Mem
  trace : MemTrace

def MEMORY_TOP : ℕ := 0x80000000

inductive GuestOp where
  | access (e : Event)
  /-- An atomic memory operation that leaves `data`. -/
  | amo (w : Width) (addr : ℕ) (data : BitVec 64)
  | mmap (c : Space.MmapCall)
  | munmap (addr len : ℕ) (ok : Bool)
  | brk (newBrk : ℕ) (ok : Bool)

namespace Recording

def start (space : Space) (replay : Mem) : Recording := ⟨space, replay, .new⟩

def Accessible (s : Recording) (addr size : ℕ) : Prop := ∀ k < size, s.space.mapped (addr + k) = true

instance (s : Recording) (addr size : ℕ) : Decidable (s.Accessible addr size) :=
  inferInstanceAs (Decidable (∀ k < size, s.space.mapped (addr + k) = true))

/-- One step of the guest, as it is recorded, and of its replay. `none` is a fault. -/
def step (s : Recording) : GuestOp → Option Recording
  | .access e =>
    if s.Accessible e.addr e.size then do
      let T ← e.note s.space.mem s.trace
      some ⟨{ s.space with mem := e.apply s.space.mem }, e.apply s.replay, T⟩
    else none
  | .amo w addr data =>
    -- `amo` works on `va & (memory_top - 1)` and records `va`
    if s.Accessible (addr % MEMORY_TOP) w.bytes then do
      let T ← s.trace.load w addr (s.space.mem.read (addr % MEMORY_TOP) w.bytes)
      let T ← T.store w addr
      some ⟨{ s.space with mem := s.space.mem.write (addr % MEMORY_TOP) w.bytes data },
        s.replay.write addr w.bytes data, T⟩
    else none
  | .mmap c => some { s with space := s.space.sysMmap c }
  | .munmap addr len ok => some { s with space := s.space.sysMunmap addr len ok }
  | .brk newBrk ok => some { s with space := s.space.sysBrk newBrk ok }

/-- What `break_here` needs at this point: the bytes of every slot in use can be read, and they
spell the value that the replayed program has there. -/
def Verified (s : Recording) : Prop :=
  ∀ i < STREC_SIZE, (s.trace.stores i).addr ≠ 0 →
    s.Accessible (s.trace.stores i).addr (s.trace.stores i).size ∧
    s.space.mem.read (s.trace.stores i).addr (s.trace.stores i).size =
      s.replay.read (s.trace.stores i).addr (s.trace.stores i).size

/-- The store lines of a verified break are those of the replayed program's memory. -/
theorem Verified.storeItems {s : Recording} (h : s.Verified) :
    Manager.storeItems s.trace s.space.mem = Manager.storeItems s.trace s.replay := by
  unfold Manager.storeItems
  apply List.filterMap_congr
  intro i hi
  by_cases hused : (s.trace.stores i).addr ≠ 0
  · rw [if_pos hused, if_pos hused, (h i (List.mem_range.mp hi) hused).2]
  · rw [if_neg hused, if_neg hused]

/-- A byte that reads back as the replayed program has it. -/
def Sound (s : Recording) (b : ℕ) : Prop := s.space.mapped b = true ∧ s.space.mem b = s.replay b

theorem verified_iff {s : Recording} (hs : Sized s.trace.stores) :
    s.Verified ↔ ∀ b, Covered s.trace.stores b → s.Sound b := by
  constructor
  · rintro h b ⟨i, hi, hused, hlo, hhi⟩
    obtain ⟨hmap, hread⟩ := h i hi hused
    obtain ⟨k, rfl⟩ := Nat.exists_eq_add_of_le hlo
    have hk : k < (s.trace.stores i).size := by omega
    refine ⟨hmap k hk, ?_⟩
    rw [← Mem.byteAt_read s.space.mem _ (hs i) hk, hread, Mem.byteAt_read s.replay _ (hs i) hk]
  · intro h i hi hused
    have hbyte : ∀ k < (s.trace.stores i).size, s.Sound ((s.trace.stores i).addr + k) :=
      fun k hk => h _ ⟨i, hi, hused, by omega, by omega⟩
    exact ⟨fun k hk => (hbyte k hk).1, Mem.read_congr fun k hk => (hbyte k hk).2⟩

/-! ## Harmless steps -/

/-- The bytes of the slots in use that a mapping replaces are accessible and get the values that
the replayed program has there. -/
def Restores (s : Recording) (r : Remap) : Prop :=
  ∀ b, Covered s.trace.stores b → r.covers b = true → r.access = true ∧ r.content b = s.replay b

/-- An atomic operation above `memory_top` stores to another place than it records: the place it
records must hold its value already, and the slots in use must have its value at the place it
stores to. -/
def WrapsHarmlessly (s : Recording) (w : Width) (addr : ℕ) (data : BitVec 64) : Prop :=
  (∀ k < w.bytes, s.space.mapped (addr + k) = true ∧ s.space.mem (addr + k) = byteAt data k) ∧
  ∀ b, Covered (Function.update s.trace.stores (MemTrace.storeHash addr) ⟨addr, w.bytes⟩) b →
    addr % MEMORY_TOP ≤ b → b < addr % MEMORY_TOP + w.bytes →
    byteAt data (b - addr % MEMORY_TOP) = s.replay b

def Harmless (s : Recording) : GuestOp → Prop
  | .access _ => True
  | .amo w addr data => addr < MEMORY_TOP ∨ s.WrapsHarmlessly w addr data
  | .mmap c => ∀ r, s.space.guestMmap c = some r → s.Restores r
  | .munmap addr len ok => ok = true → ∀ b, Covered s.trace.stores b →
      ¬ (addr ≤ b ∧ b < addr + roundUp len)
  | .brk newBrk ok => ∀ r, s.space.brkRemap newBrk ok = some r → s.Restores r

/-! ## What one step keeps -/

theorem step_access {s s' : Recording} {e : Event} (h : s.step (.access e) = some s') :
    ∃ T, s.Accessible e.addr e.size ∧ e.note s.space.mem s.trace = some T ∧
      s' = ⟨{ s.space with mem := e.apply s.space.mem }, e.apply s.replay, T⟩ := by
  simp only [step] at h
  by_cases hacc : s.Accessible e.addr e.size
  · rw [if_pos hacc] at h
    obtain ⟨T, hnote, h⟩ := Option.bind_eq_some_iff.mp h
    exact ⟨T, hacc, hnote, (Option.some.inj h).symm⟩
  · rw [if_neg hacc] at h
    cases h

theorem step_amo {s s' : Recording} {w : Width} {addr : ℕ} {data : BitVec 64}
    (h : s.step (.amo w addr data) = some s') :
    ∃ T, s.Accessible (addr % MEMORY_TOP) w.bytes ∧ Grows s.trace T addr w.bytes ∧
      T.stores = Function.update s.trace.stores (MemTrace.storeHash addr) ⟨addr, w.bytes⟩ ∧
      s' = ⟨{ s.space with mem := s.space.mem.write (addr % MEMORY_TOP) w.bytes data },
        s.replay.write addr w.bytes data, T⟩ := by
  simp only [step] at h
  by_cases hacc : s.Accessible (addr % MEMORY_TOP) w.bytes
  · rw [if_pos hacc] at h
    obtain ⟨T₁, hload, h⟩ := Option.bind_eq_some_iff.mp h
    obtain ⟨T, hstore, h⟩ := Option.bind_eq_some_iff.mp h
    have hstores := MemTrace.store_stores hstore
    have hgrows := store_grows hstore
    rw [MemTrace.load_stores hload] at hstores
    refine ⟨T, hacc, ⟨?_, ?_⟩, hstores, (Option.some.inj h).symm⟩
    · rw [← MemTrace.load_stores hload]
      exact hgrows.covered
    · rw [← MemTrace.load_stores hload]
      exact hgrows.sized
  · rw [if_neg hacc] at h
    cases h

theorem step_sized {s s' : Recording} {op : GuestOp} (h : s.step op = some s')
    (hs : Sized s.trace.stores) : Sized s'.trace.stores := by
  cases op with
  | access e =>
    obtain ⟨T, -, hnote, rfl⟩ := step_access h
    exact (note_grows hnote).sized hs
  | amo w addr data =>
    obtain ⟨T, -, hgrows, -, rfl⟩ := step_amo h
    exact hgrows.sized hs
  | mmap c => rwa [← Option.some.inj h]
  | munmap addr len ok => rwa [← Option.some.inj h]
  | brk newBrk ok => rwa [← Option.some.inj h]

theorem access_verified {s s' : Recording} {e : Event} (h : s.step (.access e) = some s')
    (hs : Sized s.trace.stores) (hv : s.Verified) : s'.Verified := by
  have hs' := step_sized h hs
  obtain ⟨T, hacc, hnote, rfl⟩ := step_access h
  rw [verified_iff hs] at hv
  rw [verified_iff hs']
  intro b hb
  by_cases hwrote : e.addr ≤ b ∧ b < e.addr + e.wrote
  · have hle := wrote_le e
    obtain ⟨k, rfl⟩ := Nat.exists_eq_add_of_le hwrote.1
    exact ⟨hacc k (by omega), apply_wrote _ _ e hwrote⟩
  · obtain ⟨hmap, hmem⟩ := hv b (((note_grows hnote).covered b hb).resolve_right hwrote)
    refine ⟨hmap, ?_⟩
    dsimp only
    rw [apply_kept _ e hwrote, apply_kept _ e hwrote]
    exact hmem

/-- A mapping keeps a verified state verified exactly if it restores the bytes it replaces. -/
theorem remapped_verified {s : Recording} {space : Space} {r : Option Remap}
    (hr : Space.Remapped s.space space r) (hs : Sized s.trace.stores) (hv : s.Verified) :
    Verified { s with space := space } ↔ ∀ r', r = some r' → s.Restores r' := by
  rw [verified_iff hs] at hv
  rw [verified_iff (s := { s with space := space }) hs]
  cases r with
  | none =>
    refine ⟨fun _ r' hr' => absurd hr' (by simp), fun _ b hb => ?_⟩
    obtain ⟨hmap, hmem⟩ := hv b hb
    exact ⟨(congrFun hr.mapped b).trans hmap, (congrFun hr.mem b).trans hmem⟩
  | some r =>
    have hmapped : space.mapped = fun b => if r.covers b then r.access else s.space.mapped b :=
      hr.mapped
    have hmem : space.mem = fun b => if r.covers b then r.content b else s.space.mem b := hr.mem
    constructor
    · intro h r' hr' b hb hc
      obtain rfl := Option.some.inj hr'
      obtain ⟨hm, hd⟩ := h b hb
      dsimp only at hm hd
      rw [hmapped] at hm
      rw [hmem] at hd
      dsimp only at hm hd
      rw [if_pos hc] at hm hd
      exact ⟨hm, hd⟩
    · intro h b hb
      refine ⟨?_, ?_⟩
      · dsimp only
        rw [hmapped]
        dsimp only
        by_cases hc : r.covers b = true
        · rw [if_pos hc]
          exact (h r rfl b hb hc).1
        · rw [if_neg hc]
          exact (hv b hb).1
      · dsimp only
        rw [hmem]
        dsimp only
        by_cases hc : r.covers b = true
        · rw [if_pos hc]
          exact (h r rfl b hb hc).2
        · rw [if_neg hc]
          exact (hv b hb).2

theorem amo_verified {s s' : Recording} {w : Width} {addr : ℕ} {data : BitVec 64}
    (h : s.step (.amo w addr data) = some s') (hs : Sized s.trace.stores) (hv : s.Verified) :
    s'.Verified ↔ addr < MEMORY_TOP ∨ s.WrapsHarmlessly w addr data := by
  have hs' := step_sized h hs
  obtain ⟨T, hacc, hgrows, hstores, rfl⟩ := step_amo h
  have hw := w.bytes_le
  rw [verified_iff hs] at hv
  rw [verified_iff hs']
  dsimp only at hs' ⊢
  by_cases hlow : addr < MEMORY_TOP
  · -- the recorded place is the one the operation works on
    rw [Nat.mod_eq_of_lt hlow] at hacc ⊢
    refine ⟨fun _ => .inl hlow, fun _ b hb => ?_⟩
    by_cases hwrote : addr ≤ b ∧ b < addr + w.bytes
    · obtain ⟨k, rfl⟩ := Nat.exists_eq_add_of_le hwrote.1
      refine ⟨hacc k (by omega), ?_⟩
      dsimp only
      rw [Mem.write_of_mem hwrote, Mem.write_of_mem hwrote]
    · obtain ⟨hmap, hmem⟩ := hv b ((hgrows.covered b hb).resolve_right hwrote)
      refine ⟨hmap, ?_⟩
      dsimp only
      rw [Mem.write_of_not_mem (by omega), Mem.write_of_not_mem (by omega)]
      exact hmem
  · -- the two places lie at least `memory_top` apart
    have hapart : addr % MEMORY_TOP + w.bytes ≤ addr := by
      have hdiv := Nat.div_add_mod addr MEMORY_TOP
      have hpos : 0 < addr / MEMORY_TOP := Nat.div_pos (by omega) (by decide)
      have hmul : MEMORY_TOP * 1 ≤ MEMORY_TOP * (addr / MEMORY_TOP) := Nat.mul_le_mul_left _ hpos
      have htop : 8 ≤ MEMORY_TOP := by decide
      omega
    have hne : addr ≠ 0 := by
      have htop : 0 < MEMORY_TOP := by decide
      omega
    have hslot : ∀ k < w.bytes, Covered T.stores (addr + k) := by
      intro k hk
      refine ⟨_, MemTrace.storeHash_lt addr, ?_⟩
      rw [hstores, Function.update_self]
      exact ⟨hne, by dsimp only; omega, by dsimp only; omega⟩
    constructor
    · intro hgood
      refine .inr ⟨fun k hk => ?_, fun b hb hlo hhi => ?_⟩
      · obtain ⟨hmap, hmem⟩ := hgood _ (hslot k hk)
        dsimp only at hmem
        rw [Mem.write_of_not_mem (by omega), Mem.write_of_mem (by omega),
          Nat.add_sub_cancel_left] at hmem
        exact ⟨hmap, hmem⟩
      · rw [← hstores] at hb
        obtain ⟨-, hmem⟩ := hgood b hb
        dsimp only at hmem
        rw [Mem.write_of_mem ⟨hlo, hhi⟩, Mem.write_of_not_mem (by omega)] at hmem
        exact hmem
    · rintro (hlow' | ⟨hhigh, hwrap⟩) b hb
      · exact absurd hlow' hlow
      by_cases hrec : addr ≤ b ∧ b < addr + w.bytes
      · obtain ⟨k, rfl⟩ := Nat.exists_eq_add_of_le hrec.1
        obtain ⟨hmap, hmem⟩ := hhigh k (by omega)
        refine ⟨hmap, ?_⟩
        dsimp only
        rw [Mem.write_of_not_mem (by omega), Mem.write_of_mem hrec, Nat.add_sub_cancel_left]
        exact hmem
      · obtain ⟨hmap, hmem⟩ := hv b ((hgrows.covered b hb).resolve_right hrec)
        refine ⟨hmap, ?_⟩
        dsimp only
        rw [Mem.write_of_not_mem (x := data) (a := addr) (by omega)]
        by_cases hplace : addr % MEMORY_TOP ≤ b ∧ b < addr % MEMORY_TOP + w.bytes
        · rw [Mem.write_of_mem hplace]
          exact hwrap b (hstores ▸ hb) hplace.1 hplace.2
        · rw [Mem.write_of_not_mem (by omega)]
          exact hmem

/-- A step keeps a verified state verified exactly if it is harmless. -/
theorem step_verified {s s' : Recording} {op : GuestOp} (h : s.step op = some s')
    (hs : Sized s.trace.stores) (hv : s.Verified) : s'.Verified ↔ s.Harmless op := by
  cases op with
  | access e => exact ⟨fun _ => trivial, fun _ => access_verified h hs hv⟩
  | amo w addr data => exact amo_verified h hs hv
  | mmap c =>
    obtain rfl := Option.some.inj h
    exact remapped_verified (s.space.sysMmap_remapped c) hs hv
  | munmap addr len ok =>
    obtain rfl := Option.some.inj h
    refine (remapped_verified (s.space.sysMunmap_remapped addr len ok) hs hv).trans ?_
    constructor
    · intro hr hok b hb hrange
      rw [if_pos hok] at hr
      have haccess := (hr _ rfl b hb (Remap.covers_iff.mpr hrange)).1
      cases haccess
    · intro hfree r hr b hb hc
      cases ok with
      | false => cases hr
      | true =>
        obtain rfl := Option.some.inj hr
        exact absurd (Remap.covers_iff.mp hc) (hfree rfl b hb)
  | brk newBrk ok =>
    obtain rfl := Option.some.inj h
    exact remapped_verified (s.space.sysBrk_remapped newBrk ok) hs hv

theorem start_sized (space : Space) (replay : Mem) : Sized (start space replay).trace.stores :=
  fun _ => Nat.zero_le _

theorem start_verified (space : Space) (replay : Mem) : (start space replay).Verified :=
  fun _ _ hused => absurd rfl hused

/-! ## Runs -/

/-- **Read-back.** At every point of an interval the stores read back as the replayed program has
them exactly if all steps of the interval are harmless. -/
theorem read_back_exact (space : Space) (replay : Mem) (ops : List GuestOp) :
    Always step Verified (start space replay) ops ↔
      Meets step Harmless (start space replay) ops :=
  always_iff_meets (fun _ _ _ h => step_sized h) (fun _ _ _ h => step_verified h) ops
    (start_sized space replay) (start_verified space replay)

/-- A store to a page, and the page is unmapped before the break. -/
def unmapped : List GuestOp :=
  [.access (.store .w8 0x20000 0x2a), .munmap 0x20000 0x1000 true]

/-- The page is mapped again after that. -/
def mappedAnew : List GuestOp :=
  unmapped ++ [.mmap ⟨0x20000, 0x1000, 3, 0x32, some (0x20000, fun _ => 0)⟩]

def onePage : Space := ⟨fun b => decide (0x20000 ≤ b ∧ b < 0x21000), fun _ => 0, fun _ => false, 0, 0⟩

/-- The break reads a byte that is not mapped, and in the second run it prints 0 where the
replayed program has 42. -/
theorem unmapped_not_read_back :
    (∃ s, run step (start onePage fun _ => 0) unmapped = some s ∧
      s.trace.stores 2 = ⟨0x20000, 8⟩ ∧ s.space.mapped 0x20000 = false ∧ ¬ s.Verified) ∧
    ∃ s, run step (start onePage fun _ => 0) mappedAnew = some s ∧
      s.trace.stores 2 = ⟨0x20000, 8⟩ ∧ s.space.mem.read 0x20000 8 = 0 ∧
      s.replay.read 0x20000 8 = 0x2a ∧ ¬ s.Verified := by
  constructor
  · refine ⟨_, rfl, rfl, rfl, fun h => ?_⟩
    have hmap := (h 2 (by decide) (by decide)).1 0 (by decide)
    exact absurd hmap (by decide)
  · refine ⟨_, rfl, rfl, by decide, by decide, fun h => ?_⟩
    have hread := (h 2 (by decide) (by decide)).2
    exact absurd hread (by decide)

end Recording

end RvCkpt
