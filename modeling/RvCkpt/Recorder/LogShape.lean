import RvCkpt.Recorder.TraceKeys

/-! # The shape of a log

The log of a run is the concatenation of what its checkpoints print, in order, and of the beginning
of one that is still open. Their traces are consistent, and they have different dump files.
-/

namespace RvCkpt
open ByteMem
set_option autoImplicit false

/-! ## Repeating instructions -/

namespace Manager

theorem repeatBreak_rd {T T' : MemTrace} {x : Fetched} {totalExec : BitVec 64}
    {count : BitVec 32} {rd : ℕ}
    (h : repeatBreak T x totalExec = some (T', some (.repeat count rd))) : rd ≠ 0 := by
  unfold repeatBreak at h
  by_cases hrd : x.length = 4 ∧ 0 < x.rd
  · rw [if_pos hrd] at h
    obtain ⟨⟨T₁, execCount⟩, -, h⟩ := Option.bind_eq_some_iff.mp h
    have hkind := (Prod.mk.inj (Option.some.inj h)).2
    split at hkind
    · obtain ⟨-, hrd'⟩ := BreakKind.repeat.inj (Option.some.inj hkind)
      omega
    · cases hkind
  · rw [if_neg hrd] at h
    cases h

theorem chooseBreak_repeat {T T' : MemTrace} {x : Fetched} {firstVisit : Bool}
    {totalExec : BitVec 64} {count : BitVec 32} {rd : ℕ}
    (h : chooseBreak T x firstVisit totalExec = some (T', some (.repeat count rd))) :
    ∃ T₁, repeatBreak T₁ x totalExec = some (T', some (.repeat count rd)) := by
  unfold chooseBreak at h
  split at h
  · cases h
  split at h
  · cases h
  obtain ⟨⟨T₁, rvc⟩, -, h⟩ := Option.bind_eq_some_iff.mp h
  cases rvc with
  | true => cases h
  | false => exact ⟨T₁, h⟩

end Manager

/-! ## Checkpoints in a log -/

/-- How an interval ends: at a breakpoint, or in the exit system call. -/
inductive Stop where
  | break (addr : ℕ) (kind : BreakKind)
  | exit (rc : BitVec 32)

def Stop.item : Stop → LogItem
  | .break addr kind => .break addr kind
  | .exit rc => .exit rc

/-- What is printed inside an interval: the start of a `syscall` line, and a record. -/
inductive CallItem where
  | started (addr : ℕ)
  | recorded (retval : BitVec 64) (write : Option (ℕ × List Byte))

def CallItem.item : CallItem → LogItem
  | .started addr => .syscall addr
  | .recorded retval write => .result retval write

/-- The beginning of an interval. -/
structure Opened where
  addr : ℕ
  ireg : ℕ → BitVec 64
  freg : ℕ → BitVec 64
  body : List CallItem

def Opened.items (o : Opened) : List LogItem :=
  .begin o.addr o.ireg o.freg :: o.body.map CallItem.item

/-- A whole interval, with the trace and the memory that are dumped at its end. -/
structure Recorded extends Opened where
  stop : Stop
  beginInstret : BitVec 64
  instret : BitVec 64
  trace : MemTrace
  live : Mem

def Recorded.items (r : Recorded) : List LogItem :=
  r.toOpened.items ++ (r.stop.item ::
    .file r.beginInstret r.instret r.trace.pages.entries r.trace.execs.entries ::
    Manager.storeItems r.trace r.live)

/-- The register of a break at a repeating instruction is not x0. -/
def Stop.Sound : Stop → Prop
  | .break _ (.repeat _ rd) => rd ≠ 0
  | _ => True

structure Recorded.Sound (r : Recorded) : Prop where
  stop : r.stop.Sound
  consistent : r.trace.Consistent

/-- The checkpoints began at different passes before pass `k`; `first` is the counter at pass 0. -/
def BegunBefore (first : BitVec 64) (recs : List Recorded) (k : ℕ) : Prop :=
  ∃ starts : List ℕ, recs.map (·.beginInstret) = starts.map (fun j => first + BitVec.ofNat 64 j) ∧
    starts.Pairwise (· < ·) ∧ ∀ j ∈ starts, j < k

theorem BegunBefore.mono {first : BitVec 64} {recs : List Recorded} {k k' : ℕ}
    (h : BegunBefore first recs k) (hk : k ≤ k') : BegunBefore first recs k' := by
  obtain ⟨starts, hmap, hpair, hlt⟩ := h
  exact ⟨starts, hmap, hpair, fun j hj => (hlt j hj).trans_le hk⟩

theorem BegunBefore.concat {first : BitVec 64} {recs : List Recorded} {k : ℕ} {r : Recorded}
    (h : BegunBefore first recs k) (hr : r.beginInstret = first + BitVec.ofNat 64 k) :
    BegunBefore first (recs ++ [r]) (k + 1) := by
  obtain ⟨starts, hmap, hpair, hlt⟩ := h
  refine ⟨starts ++ [k], ?_, ?_, ?_⟩
  · rw [List.map_append, List.map_append, hmap, List.map_singleton, List.map_singleton, hr]
  · rw [List.pairwise_append]
    refine ⟨hpair, List.pairwise_singleton _ _, fun j hj k' hk' => ?_⟩
    rw [List.mem_singleton.mp hk']
    exact hlt j hj
  · intro j hj
    rcases List.mem_append.mp hj with hj | hj
    · exact (hlt j hj).trans (Nat.lt_succ_self k)
    · rw [List.mem_singleton.mp hj]
      exact Nat.lt_succ_self k

/-- A run of fewer than `2 ^ 64` passes begins no two checkpoints at the same counter. -/
theorem BegunBefore.nodup {first : BitVec 64} {recs : List Recorded} {k : ℕ}
    (h : BegunBefore first recs k) (hk : k ≤ 2 ^ 64) : (recs.map (·.beginInstret)).Nodup := by
  obtain ⟨starts, hmap, hpair, hlt⟩ := h
  rw [hmap]
  refine List.Nodup.map_on ?_ (hpair.imp fun h => h.ne)
  intro i hi j hj hij
  have hofNat : BitVec.ofNat 64 i = BitVec.ofNat 64 j := by
    have hsub : first + BitVec.ofNat 64 i - first = first + BitVec.ofNat 64 j - first := by
      rw [hij]
    rwa [BitVec.add_comm first, BitVec.add_sub_cancel, BitVec.add_comm first,
      BitVec.add_sub_cancel] at hsub
  have htoNat := congrArg BitVec.toNat hofNat
  rw [BitVec.toNat_ofNat, BitVec.toNat_ofNat, Nat.mod_eq_of_lt ((hlt i hi).trans_le hk),
    Nat.mod_eq_of_lt ((hlt j hj).trans_le hk)] at htoNat
  exact htoNat

/-- Pass `i` is next. -/
structure Shape (base : List LogItem) (first : BitVec 64) (i : ℕ) (M : Manager)
    (recs : List Recorded) (cur : Option Opened) : Prop where
  out : M.out = true
  log : M.log = base ++ recs.flatMap Recorded.items ++ (cur.map Opened.items).getD []
  sound : ∀ r ∈ recs, r.Sound
  state : (cur = none ∧ M.mem = none ∧ BegunBefore first recs i) ∨
    ∃ o T k, cur = some o ∧ M.mem = some T ∧ T.Consistent ∧ k < i ∧
      M.beginInstret = first + BitVec.ofNat 64 k ∧ BegunBefore first recs k

section
variable {base : List LogItem} {first : BitVec 64} {i : ℕ} {M M' : Manager}
  {recs : List Recorded} {cur : Option Opened}

theorem Shape.consistent (h : Shape base first i M recs cur) {T : MemTrace}
    (hT : M.mem = some T) : T.Consistent := by
  obtain ⟨-, hnone, -⟩ | ⟨o, T', k, -, hsome, hc, -⟩ := h.state
  · rw [hnone] at hT
    cases hT
  · rw [hsome] at hT
    rwa [← Option.some.inj hT]

def markCalls (x : Fetched) : List CallItem := if x.inst = ECALL then [.started x.addr] else []

theorem markCalls_item (x : Fetched) : (markCalls x).map CallItem.item = Manager.markItems x := by
  unfold markCalls Manager.markItems
  split <;> rfl

theorem stop_sound {T T' : MemTrace} {x : Fetched} {firstVisit : Bool} {totalExec : BitVec 64}
    {kind : BreakKind}
    (h : Manager.chooseBreak T x firstVisit totalExec = some (T', some kind)) :
    (Stop.break x.addr kind).Sound := by
  cases kind with
  | «repeat» count rd =>
    obtain ⟨T₁, hrepeat⟩ := Manager.chooseBreak_repeat h
    exact Manager.repeatBreak_rd hrepeat
  | ecall => trivial
  | first => trivial
  | firstrvc => trivial

/-- An interval is closed by a break or an exit, and dumped. -/
theorem Shape.close (h : Shape base first i M recs cur) {T T' : MemTrace} {live : Mem}
    {instret : BitVec 64} (stop : Stop) (hstop : stop.Sound) (hT : M.mem = some T)
    (hT' : T'.Consistent) (hout : M'.out = true) (hmem : M'.mem = none)
    (hlog : M'.log = M.log ++ stop.item ::
      .file M.beginInstret instret T'.pages.entries T'.execs.entries ::
      Manager.storeItems T' live) :
    ∃ recs', Shape base first i M' recs' none := by
  obtain ⟨-, hnone, -⟩ | ⟨o, T₀, k, hcur, -, -, hk, hbegin, hbefore⟩ := h.state
  · rw [hnone] at hT
    cases hT
  refine ⟨recs ++ [⟨o, stop, M.beginInstret, instret, T', live⟩], hout, ?_, ?_,
    .inl ⟨rfl, hmem, (hbefore.concat hbegin).mono hk⟩⟩
  · rw [hlog, h.log, hcur, List.flatMap_append, List.flatMap_singleton, Recorded.items]
    simp only [Option.map_some, Option.getD_some, Option.map_none, Option.getD_none,
      List.append_nil, List.append_assoc]
  · intro r hr
    rcases List.mem_append.mp hr with hr | hr
    · exact h.sound r hr
    · rw [List.mem_singleton.mp hr]
      exact ⟨hstop, hT'⟩

theorem Shape.fetch (h : Shape base first i M recs cur) {live : Mem} {x : Fetched}
    (hx : x.instret = first + BitVec.ofNat 64 i) (hf : M.fetch live x = some M') :
    ∃ recs' cur', Shape base first (i + 1) M' recs' cur' := by
  have hcons : ∀ T', M'.mem = some T' → T'.Consistent :=
    fun T' => Manager.fetch_consistent h.out (fun T => h.consistent) hf
  obtain ⟨T', hnone, rfl⟩ | ⟨T, T', hT, rfl⟩ |
    ⟨T, T₁, T₂, firstVisit, kind, hT, hfetch, -, hchoose, hM'⟩ := Manager.fetch_cases h.out hf
  · obtain ⟨hcur, -, hbefore⟩ | ⟨o, T, k, -, hsome, -⟩ := h.state
    · refine ⟨recs, some ⟨x.addr, x.ireg, x.freg, markCalls x⟩, h.out, ?_, h.sound,
        .inr ⟨_, T', i, rfl, rfl, hcons T' rfl, Nat.lt_succ_self i, hx, hbefore⟩⟩
      rw [h.log, hcur, ← markCalls_item]
      simp only [Option.map_none, Option.getD_none, List.append_nil, Option.map_some,
        Option.getD_some, Opened.items]
    · rw [hnone] at hsome
      cases hsome
  · obtain ⟨-, hnone, -⟩ | ⟨o, T₀, k, hcur, -, -, hk, hbegin, hbefore⟩ := h.state
    · rw [hT] at hnone
      cases hnone
    · refine ⟨recs, some { o with body := o.body ++ markCalls x }, h.out, ?_, h.sound,
        .inr ⟨_, T', k, rfl, rfl, hcons T' rfl, hk.trans (Nat.lt_succ_self i), hbegin, hbefore⟩⟩
      rw [h.log, hcur, ← markCalls_item]
      simp only [Option.map_some, Option.getD_some, Opened.items, List.append_assoc,
        List.cons_append, List.map_append]
  · obtain ⟨h₁, hpn⟩ := MemTrace.fetch_keys (h.consistent hT) hfetch
    have h₂ := Manager.chooseBreak_consistent h₁ hpn hchoose
    have hclose : ∃ recs', Shape base first i M' recs' none :=
      h.close (Stop.break x.addr kind) (stop_sound hchoose) hT h₂ (by rw [hM']; exact h.out) (by rw [hM'])
        (by rw [hM']; rfl)
    obtain ⟨recs', hshape⟩ := hclose
    refine ⟨recs', none, hshape.out, hshape.log, hshape.sound, ?_⟩
    obtain ⟨-, hmem, hbefore⟩ | ⟨o, T₀, k, hcur, -⟩ := hshape.state
    · exact .inl ⟨rfl, hmem, hbefore.mono (Nat.le_succ i)⟩
    · cases hcur

theorem Shape.effect (h : Shape base first i M recs cur) {e : Effect}
    (he : e.perform M = some M') : ∃ cur', Shape base first i M' recs cur' := by
  cases hmem : M.mem with
  | none =>
    have hsame : M' = M := by
      cases e <;> simp only [Effect.perform, Manager.load, Manager.store, Manager.syscall, hmem]
        at he <;> exact (Option.some.inj he).symm
    exact ⟨cur, hsame ▸ h⟩
  | some T =>
    obtain ⟨-, hnone, -⟩ | ⟨o, T₀, k, hcur, hT₀, hc, hk, hbegin, hbefore⟩ := h.state
    · rw [hmem] at hnone
      cases hnone
    obtain rfl := Option.some.inj (hT₀.symm.trans hmem)
    -- every effect leaves a consistent trace and adds to the body
    have hshape : ∀ (T' : MemTrace) (items : List CallItem), T'.Consistent →
        Shape base first i
          { M with mem := some T', log := M.log ++ items.map CallItem.item } recs
          (some { o with body := o.body ++ items }) := by
      intro T' items hT'
      refine ⟨h.out, ?_, h.sound, .inr ⟨_, T', k, rfl, rfl, hT', hk, hbegin, hbefore⟩⟩
      dsimp only
      rw [h.log, hcur]
      simp only [Option.map_some, Option.getD_some, Opened.items, List.append_assoc,
        List.cons_append, List.map_append]
    cases e with
    | load w addr data =>
      simp only [Effect.perform, Manager.load, hmem] at he
      obtain ⟨T', hload, rfl⟩ := Option.map_eq_some_iff.mp he
      have := hshape T' [] (hc.load hload)
      rw [List.map_nil, List.append_nil] at this
      exact ⟨_, this⟩
    | store w addr =>
      simp only [Effect.perform, Manager.store, hmem] at he
      obtain ⟨T', hstore, rfl⟩ := Option.map_eq_some_iff.mp he
      have := hshape T' [] (hc.store hstore)
      rw [List.map_nil, List.append_nil] at this
      exact ⟨_, this⟩
    | syscall live retval addr size =>
      simp only [Effect.perform, Manager.syscall, hmem] at he
      by_cases ha : addr ≠ 0
      · rw [if_pos ha] at he
        obtain ⟨T', hstore, rfl⟩ := Option.map_eq_some_iff.mp he
        exact ⟨_, hshape T' [.recorded retval (some (addr, live.bytes addr size))]
          (hc.storeBytes hstore)⟩
      · rw [if_neg ha] at he
        rw [← Option.some.inj he]
        have := hshape T₀ [.recorded retval none] hc
        rw [← hmem] at this
        exact ⟨_, this⟩

theorem Shape.effects (h : Shape base first i M recs cur) {es : List Effect}
    (hes : es.foldlM Effect.perform M = some M') : ∃ cur', Shape base first i M' recs cur' := by
  induction es generalizing M cur with
  | nil =>
    obtain rfl := Option.some.inj hes
    exact ⟨cur, h⟩
  | cons e es ih =>
    obtain ⟨M₁, hM₁, hrest⟩ := Option.bind_eq_some_iff.mp hes
    obtain ⟨cur₁, h₁⟩ := h.effect hM₁
    exact ih h₁ hrest

theorem Shape.pass (h : Shape base first i M recs cur) {p : Pass} {instret : BitVec 64}
    (hi : instret = first + BitVec.ofNat 64 i) (hp : p.perform M instret = some M') :
    ∃ recs' cur', Shape base first (i + 1) M' recs' cur' := by
  obtain ⟨M₁, hM₁, heffects⟩ := Option.bind_eq_some_iff.mp hp
  obtain ⟨recs₁, cur₁, h₁⟩ := h.fetch (x := p.fetched instret) hi hM₁
  obtain ⟨cur₂, h₂⟩ := h₁.effects heffects
  exact ⟨recs₁, cur₂, h₂⟩

/-- The items of a pass are what it adds to the log. -/
theorem newItems_snd (i : ℕ) {items : List LogItem} (h : M'.log = M.log ++ items) :
    (newItems i M M').map Prod.snd = items := by
  rw [newItems_eq i h, List.map_map]
  exact List.map_id' items

theorem Shape.log_extends (h : Shape base first i M recs cur) {p : Pass} {instret : BitVec 64}
    (hp : p.perform M instret = some M') : ∃ items, M'.log = M.log ++ items := by
  obtain ⟨M₁, hM₁, heffects⟩ := Option.bind_eq_some_iff.mp hp
  obtain ⟨items', hitems', -⟩ := (effects_keep heffects).log
  have hfirst : ∃ items, M₁.log = M.log ++ items := by
    obtain ⟨T', -, rfl⟩ | ⟨T, T', -, rfl⟩ | ⟨T, T₁, T₂, firstVisit, kind, -, -, -, -, rfl⟩ :=
      Manager.fetch_cases h.out hM₁
    · exact ⟨_, rfl⟩
    · exact ⟨_, rfl⟩
    · exact ⟨_, rfl⟩
  obtain ⟨items, hitems⟩ := hfirst
  exact ⟨items ++ items', by rw [hitems', hitems, List.append_assoc]⟩

theorem Shape.loop (h : Shape base first i M recs cur) {ps : List Pass} {instret : BitVec 64}
    {items : List (ℕ × LogItem)} (hi : instret = first + BitVec.ofNat 64 i)
    (hrun : runLoop M instret i ps = some (M', items)) :
    M'.log = M.log ++ items.map Prod.snd ∧
      ∃ recs' cur', Shape base first (i + ps.length) M' recs' cur' := by
  induction ps generalizing i instret M recs cur items with
  | nil =>
    obtain ⟨rfl, rfl⟩ := Prod.mk.inj (Option.some.inj hrun)
    exact ⟨by rw [List.map_nil, List.append_nil], recs, cur, h⟩
  | cons p ps ih =>
    obtain ⟨M₁, hM₁, hrun⟩ := Option.bind_eq_some_iff.mp hrun
    obtain ⟨⟨M₂, rest⟩, hrest, hrun⟩ := Option.bind_eq_some_iff.mp hrun
    obtain ⟨rfl, rfl⟩ := Prod.mk.inj (Option.some.inj hrun)
    obtain ⟨recs₁, cur₁, h₁⟩ := h.pass hi hM₁
    obtain ⟨new, hnew⟩ := h.log_extends hM₁
    have hnext : instret + 1 = first + BitVec.ofNat 64 (i + 1) := by
      rw [hi, BitVec.ofNat_add, BitVec.add_assoc]
      rfl
    obtain ⟨hlog, recs', cur', h'⟩ := ih h₁ hnext hrest
    refine ⟨?_, recs', cur', ?_⟩
    · rw [hlog, hnew, List.map_append, newItems_snd i hnew, List.append_assoc]
    · rwa [List.length_cons, Nat.add_comm ps.length 1, ← Nat.add_assoc]

end

/-- What is printed after the last dump: nothing, or the beginning of an interval. -/
def openItems (cur : Option Opened) : List LogItem := (cur.map Opened.items).getD []

/-- **The shape of a log.** -/
theorem runProgram_shape {M : Manager} {instret : BitVec 64} {ps : List Pass} {ending : Ending}
    {items : List (ℕ × LogItem)} (hout : M.out = true) (hmem : M.mem = none)
    (hrun : runProgram M instret ps ending = some items) :
    ∃ (recs : List Recorded) (cur : Option Opened),
      items.map Prod.snd = recs.flatMap Recorded.items ++ openItems cur ∧
      (∀ r ∈ recs, r.Sound) ∧
      (ps.length < 2 ^ 64 → (recs.map (·.beginInstret)).Nodup) := by
  obtain ⟨⟨M₁, items₁⟩, hM₁, hrun⟩ := Option.bind_eq_some_iff.mp hrun
  obtain ⟨M₂, hM₂, hrun⟩ := Option.bind_eq_some_iff.mp hrun
  obtain rfl := Option.some.inj hrun
  have hstart : Shape M.log instret 0 M [] none :=
    ⟨hout, by simp, by simp, .inl ⟨rfl, hmem, [], rfl, List.Pairwise.nil, by simp⟩⟩
  obtain ⟨hlog₁, recs₁, cur₁, h₁⟩ := hstart.loop (by simp) hM₁
  rw [Nat.zero_add] at h₁
  -- what the ending adds
  have hend : ∃ new recs cur, M₂.log = M₁.log ++ new ∧
      Shape M.log instret (ps.length + 1) M₂ recs cur := by
    have hlater : Shape M.log instret (ps.length + 1) M₁ recs₁ cur₁ := by
      refine ⟨h₁.out, h₁.log, h₁.sound, ?_⟩
      obtain ⟨hcur, hnone, hb⟩ | ⟨o, T, k, hcur, hT, hc, hk, hbegin, hb⟩ := h₁.state
      · exact .inl ⟨hcur, hnone, hb.mono (Nat.le_succ _)⟩
      · exact .inr ⟨o, T, k, hcur, hT, hc, hk.trans (Nat.lt_succ_self _), hbegin, hb⟩
    cases ending with
    | between =>
      obtain rfl := Option.some.inj hM₂
      exact ⟨[], recs₁, cur₁, by rw [List.append_nil], hlater⟩
    | trap p =>
      obtain ⟨new, hnew⟩ := h₁.log_extends hM₂
      obtain ⟨recs, cur, h₂⟩ := h₁.pass rfl hM₂
      exact ⟨new, recs, cur, hnew, h₂⟩
    | exit p rc =>
      obtain ⟨M₃, hM₃, hM₂⟩ := Option.bind_eq_some_iff.mp hM₂
      obtain rfl := Option.some.inj hM₂
      obtain ⟨new, hnew⟩ := h₁.log_extends hM₃
      obtain ⟨recs, cur, h₃⟩ := h₁.pass rfl hM₃
      cases hmem₃ : M₃.mem with
      | none =>
        rw [Manager.exit, hmem₃]
        exact ⟨new, recs, cur, hnew, h₃⟩
      | some T =>
        have hexit : M₃.exit p.live (instret + BitVec.ofNat 64 ps.length) rc =
            { M₃ with
              mem := none
              log := M₃.log ++ (Stop.exit rc).item ::
                .file M₃.beginInstret (instret + BitVec.ofNat 64 ps.length) T.pages.entries
                  T.execs.entries :: Manager.storeItems T p.live } := by
          rw [Manager.exit, hmem₃]
          simp only [Manager.emit, Manager.breakHere, hmem₃, Stop.item, List.append_assoc,
            List.cons_append, List.nil_append]
        rw [hexit]
        have hclose : ∃ recs', Shape M.log instret (ps.length + 1) { M₃ with
              mem := none
              log := M₃.log ++ (Stop.exit rc).item ::
                .file M₃.beginInstret (instret + BitVec.ofNat 64 ps.length) T.pages.entries
                  T.execs.entries :: Manager.storeItems T p.live } recs' none :=
          h₃.close (Stop.exit rc) trivial hmem₃ (h₃.consistent hmem₃) h₃.out rfl rfl
        obtain ⟨recs', h'⟩ := hclose
        exact ⟨new ++ _, recs', none, by dsimp only; rw [hnew, List.append_assoc], h'⟩
  obtain ⟨new, recs, cur, hnew, h⟩ := hend
  refine ⟨recs, cur, ?_, h.sound, fun hlen => ?_⟩
  · have hlog := h.log
    rw [hnew, hlog₁, List.append_assoc, List.append_assoc] at hlog
    rw [List.map_append, newItems_snd _ hnew]
    exact List.append_cancel_left hlog
  · obtain ⟨-, -, hb⟩ | ⟨o, T, k, -, -, -, hk, -, hb⟩ := h.state
    · exact hb.nodup (by omega)
    · exact hb.nodup (by omega)

end RvCkpt
