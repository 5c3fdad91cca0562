import RvCkpt.Recorder.TouchSpec

/-! # Recording an interval and replaying it

The events the recorder sees inside one checkpoint interval, the run that performs them on the
guest memory while recording, and the replay of the same events on the image the interval ends
with. An event is an access in the sense of the first-touch library, and a clean run records its
events exactly as that library's recorder does.
-/

namespace RvCkpt
open ByteMem FirstTouch
set_option autoImplicit false

/-! ## Events -/

inductive Event where
  | fetch (addr length : ℕ) (aligned : addr % 2 = 0) (hlength : length = 2 ∨ length = 4)
  | load (w : Width) (addr : ℕ)
  | store (w : Width) (addr : ℕ) (data : BitVec 64)
  /-- The memory write of a recorded system call, `data` at `addr`. -/
  | syscall (addr : ℕ) (data : List Byte) (hnull : addr ≠ 0)
  deriving DecidableEq

theorem length_four : (4 : ℕ) = 2 ∨ (4 : ℕ) = 4 := .inr rfl

namespace Event

def addr : Event → ℕ
  | fetch addr _ _ _ => addr
  | load _ addr => addr
  | store _ addr _ => addr
  | syscall addr _ _ => addr

def size : Event → ℕ
  | fetch _ length _ _ => length
  | load w _ => w.bytes
  | store w _ _ => w.bytes
  | syscall _ data _ => data.length

def isFetch : Event → Bool
  | fetch .. => true
  | _ => false

def cells (e : Event) : ℕ → Bool := span e.addr e.size

def access : Event → Access ℕ Byte
  | fetch addr length _ _ => .read (span addr length)
  | load w addr => .read (span addr w.bytes)
  | store w addr data => .write (span addr w.bytes) (spell addr data)
  | syscall addr data _ => .write (span addr data.length) fun b => data.getD (b - addr) 0

def apply (m : Mem) : Event → Mem
  | fetch .. => m
  | load .. => m
  | store w addr data => m.write addr w.bytes data
  | syscall addr data _ => m.writeBytes addr data

/-- The bytes a fetch or a load gets to see. -/
def sees (m : Mem) : Event → Option (List Byte)
  | fetch addr length _ _ => some (m.bytes addr length)
  | load w addr => some (m.bytes addr w.bytes)
  | store .. => none
  | syscall .. => none

end Event

/-- What the recorder does on an event. `m` is the memory the event finds, so a store and a system
call are recorded for the memory they leave; the recorder never looks at it. -/
def Event.note (m : Mem) (T : MemTrace) : Event → Option MemTrace
  | fetch addr length _ _ => (T.fetch addr (m.read addr length) length).map Prod.fst
  | load w addr => T.load w addr (m.read addr w.bytes)
  | store w addr _ => T.store w addr
  | syscall addr data _ => T.storeBytes addr data.length

def recordRun (m : Mem) (T : MemTrace) : List Event → Option MemTrace
  | [] => some T
  | e :: es => do
    let T ← e.note m T
    recordRun (e.apply m) T es

/-- What the fetches and loads of a run see, in order. -/
def observe (m : Mem) : List Event → List (List Byte)
  | [] => []
  | e :: es => (e.sees m).toList ++ observe (e.apply m) es

/-- The recorder ends with an image on which the events see what they saw when they were
recorded. -/
def Reproduces (m : Mem) (es : List Event) : Prop :=
  ∃ T, recordRun m .new es = some T ∧ observe T.image es = observe m es

/-! ## Clean runs -/

/-- The units an event must find entirely touched or entirely untouched. -/
def Event.units : Event → List (ℕ × ℕ)
  | fetch addr length _ _ => MemTrace.fetchUnits addr length
  | _ => []

/-- After the events `pre`, the next one does not fetch from a unit of which only a part has been
touched, and is not the first fetch (the first load, store or system-call write) of the interval
if it starts in page 0. -/
structure Event.Clean (pre : List Event) (e : Event) : Prop where
  whole : ∀ u ∈ e.units, (∀ i < u.2, ∃ f ∈ pre, f.cells (u.1 + i) = true) ∨
    ∀ i < u.2, ∀ f ∈ pre, f.cells (u.1 + i) = false
  started : e.size ≠ 0 → e.addr < PAGE_SIZE → ∃ f ∈ pre, f.size ≠ 0 ∧ f.isFetch = e.isFetch

def CleanFrom : List Event → List Event → Prop
  | _, [] => True
  | pre, e :: es => e.Clean pre ∧ CleanFrom (pre ++ [e]) es

def CleanRun (es : List Event) : Prop := CleanFrom [] es

instance (pre : List Event) (e : Event) : Decidable (e.Clean pre) :=
  decidable_of_iff
    ((∀ u ∈ e.units, (∀ i < u.2, ∃ f ∈ pre, f.cells (u.1 + i) = true) ∨
      ∀ i < u.2, ∀ f ∈ pre, f.cells (u.1 + i) = false) ∧
      (e.size ≠ 0 → e.addr < PAGE_SIZE → ∃ f ∈ pre, f.size ≠ 0 ∧ f.isFetch = e.isFetch))
    ⟨fun h => ⟨h.1, h.2⟩, fun h => ⟨h.whole, h.started⟩⟩

def decideCleanFrom : (pre es : List Event) → Decidable (CleanFrom pre es)
  | _, [] => .isTrue trivial
  | pre, e :: es =>
    have := decideCleanFrom (pre ++ [e]) es
    inferInstanceAs (Decidable (e.Clean pre ∧ CleanFrom (pre ++ [e]) es))

instance (es : List Event) : Decidable (CleanRun es) := decideCleanFrom [] es

/-! ## One event -/

theorem access_cells (e : Event) : e.access.cells = e.cells := by
  cases e <;> rfl

theorem access_apply (m : Mem) (e : Event) : e.access.apply m = e.apply m := by
  cases e with
  | fetch addr length ha hl => rfl
  | load w addr => rfl
  | store w addr data =>
    funext b
    simp only [Event.access, Access.apply, Event.apply]
    by_cases hb : addr ≤ b ∧ b < addr + w.bytes
    · rw [if_pos (span_iff.mpr hb), Mem.write_of_mem hb, spell]
    · rw [if_neg (fun h => hb (span_iff.mp h)), Mem.write_of_not_mem (by omega)]
  | syscall addr data ha =>
    funext b
    simp only [Event.access, Access.apply, Event.apply, Mem.writeBytes]
    by_cases hb : addr ≤ b ∧ b < addr + data.length
    · rw [if_pos (span_iff.mpr hb), if_pos hb]
    · rw [if_neg (fun h => hb (span_iff.mp h)), if_neg hb]

theorem foldl_access_apply (m : Mem) (es : List Event) :
    (es.map Event.access).foldl Access.apply m = es.foldl Event.apply m := by
  induction es generalizing m with
  | nil => rfl
  | cons e es ih =>
    rw [List.map_cons, List.foldl_cons, List.foldl_cons, access_apply]
    exact ih _

/-- A word read from memory spells the bytes it was read from. -/
theorem touch_read (R : Record ℕ Byte) (m : Mem) (addr : ℕ) {n : ℕ} (hn : n ≤ 8) :
    touch R (span addr n) (spell addr (m.read addr n)) = touch R (span addr n) m := by
  apply touch_congr
  intro b _ hb
  obtain ⟨hlo, hhi⟩ := span_iff.mp hb
  rw [spell, Mem.byteAt_read m addr hn (by omega), Nat.add_sub_cancel' hlo]

theorem storeBytes_spec {T : MemTrace} (addr size : ℕ) (h : T.Wf)
    (hu : size ≠ 0 → addr / PAGE_SIZE ≠ 0 ∨ T.loadCache.ptr.isSome) :
    ∃ T', T.storeBytes addr size = some T' ∧ T'.Wf ∧
      T'.recorded = touch T.recorded (span addr size) (fun _ => 0) ∧
      T'.fetchCache = T.fetchCache ∧ T'.execCache = T.execCache ∧
      (T.loadCache.ptr.isSome ∨ size ≠ 0 → T'.loadCache.ptr.isSome) := by
  induction size generalizing addr T with
  | zero =>
    refine ⟨T, rfl, h, ?_, rfl, rfl, ?_⟩
    · rw [span_zero, touch_none]
    · rintro (hsome | hne)
      · exact hsome
      · exact absurd rfl hne
  | succ size ih =>
    obtain ⟨T₁, hT₁, hwf₁, hrec₁, hfc₁, hlc₁, hec₁⟩ := MemTrace.store_spec (w := .w1) h
      (hu (Nat.succ_ne_zero size))
    obtain ⟨T', hT', hwf', hrec', hfc', hec', hlc'⟩ := ih (addr + 1) hwf₁ fun _ => .inr hlc₁
    refine ⟨T', ?_, hwf', ?_, hfc'.trans hfc₁, hec'.trans hec₁, fun _ => hlc' (.inl hlc₁)⟩
    · rw [MemTrace.storeBytes, hT₁]
      exact hT'
    · rw [hrec', hrec₁, touch_touch, Width.bytes, span_append, Nat.add_comm 1 size]

/-- An event that finds its page and its units in order is recorded as the library records its
access. -/
theorem note_spec {T : MemTrace} (m : Mem) (e : Event) (h : T.Wf)
    (hwhole : ∀ u ∈ e.units, MemTrace.Whole T.recorded u.1 u.2)
    (hfetch : e.isFetch = true → e.addr / PAGE_SIZE ≠ 0 ∨
      (T.fetchCache.ptr.isSome ∧ T.execCache.ptr.isSome))
    (hload : e.isFetch = false → e.size ≠ 0 → e.addr / PAGE_SIZE ≠ 0 ∨ T.loadCache.ptr.isSome) :
    ∃ T', e.note m T = some T' ∧ T'.Wf ∧ T'.recorded = record 0 m T.recorded e.access ∧
      ((T.fetchCache.ptr.isSome ∧ T.execCache.ptr.isSome) ∨ (e.isFetch = true ∧ e.size ≠ 0) →
        T'.fetchCache.ptr.isSome ∧ T'.execCache.ptr.isSome) ∧
      (T.loadCache.ptr.isSome ∨ (e.isFetch = false ∧ e.size ≠ 0) →
        T'.loadCache.ptr.isSome) := by
  cases e with
  | fetch addr length ha hl =>
    obtain ⟨T', first, hT', hwf', hrec', -, hfc', hec', hlc'⟩ :=
      MemTrace.fetch_spec (m.read addr length) h ha hl (hfetch rfl) hwhole
    rw [touch_read _ _ _ (by omega)] at hrec'
    refine ⟨T', ?_, hwf', hrec', fun _ => ⟨hfc', hec'⟩, ?_⟩
    · rw [Event.note, hT']
      rfl
    · rintro (hsome | ⟨hf, -⟩)
      · rw [hlc']
        exact hsome
      · cases hf
  | load w addr =>
    obtain ⟨T', hT', hwf', hrec', hfc', hlc', hec'⟩ :=
      MemTrace.load_spec (w := w) (m.read addr w.bytes) h
        (hload rfl w.bytes_pos.ne')
    have htouch := touch_read T.recorded m addr w.bytes_le
    refine ⟨T', hT', hwf', hrec'.trans htouch, ?_, fun _ => hlc'⟩
    rw [hfc', hec']
    rintro (hsome | ⟨hf, -⟩)
    · exact hsome
    · cases hf
  | store w addr data =>
    obtain ⟨T', hT', hwf', hrec', hfc', hlc', hec'⟩ :=
      MemTrace.store_spec (w := w) h (hload rfl w.bytes_pos.ne')
    refine ⟨T', hT', hwf', hrec', ?_, fun _ => hlc'⟩
    rw [hfc', hec']
    rintro (hsome | ⟨hf, -⟩)
    · exact hsome
    · cases hf
  | syscall addr data ha =>
    obtain ⟨T', hT', hwf', hrec', hfc', hec', hlc'⟩ :=
      storeBytes_spec addr data.length h (hload rfl)
    refine ⟨T', hT', hwf', hrec', ?_, fun hs => hlc' (hs.imp_right And.right)⟩
    rw [hfc', hec']
    rintro (hsome | ⟨hf, -⟩)
    · exact hsome
    · cases hf

/-! ## The run -/

/-- What holds after the events `pre`: the trace records them as the library does, and the caches
they went through are in use. -/
structure RunInv (m₀ : Mem) (pre : List Event) (m : Mem) (T : MemTrace) : Prop where
  wf : T.Wf
  mem : m = pre.foldl Event.apply m₀
  recorded : T.recorded = recordAll 0 m₀ (fun _ => none) (pre.map Event.access)
  fetched : (∃ f ∈ pre, f.size ≠ 0 ∧ f.isFetch = true) →
    T.fetchCache.ptr.isSome ∧ T.execCache.ptr.isSome
  loaded : (∃ f ∈ pre, f.size ≠ 0 ∧ f.isFetch = false) → T.loadCache.ptr.isSome

theorem runInv_nil (m₀ : Mem) : RunInv m₀ [] m₀ .new := by
  refine ⟨MemTrace.wf_new, rfl, MemTrace.recorded_new, ?_, ?_⟩ <;>
  · rintro ⟨f, hf, -⟩
    cases hf

namespace RunInv

variable {m₀ m : Mem} {pre : List Event} {T : MemTrace}

theorem isSome_iff (h : RunInv m₀ pre m T) (b : ℕ) :
    (T.recorded b).isSome ↔ ∃ f ∈ pre, f.cells b = true := by
  rw [h.recorded, recordAll_isSome_iff]
  simp [access_cells]

theorem whole (h : RunInv m₀ pre m T) {e : Event} (hc : e.Clean pre) :
    ∀ u ∈ e.units, MemTrace.Whole T.recorded u.1 u.2 := by
  intro u hu
  obtain hall | hnone := hc.whole u hu
  · right
    intro b hb
    obtain ⟨hlo, hhi⟩ := span_iff.mp hb
    rw [h.isSome_iff]
    have hb' := hall (b - u.1) (by omega)
    rwa [Nat.add_sub_cancel' hlo] at hb'
  · left
    intro b hb
    obtain ⟨hlo, hhi⟩ := span_iff.mp hb
    rw [← Option.not_isSome_iff_eq_none, h.isSome_iff]
    rintro ⟨f, hf, hcell⟩
    have hb' := hnone (b - u.1) (by omega) f hf
    rw [Nat.add_sub_cancel' hlo, hcell] at hb'
    cases hb'

theorem step (h : RunInv m₀ pre m T) {e : Event} (hc : e.Clean pre) :
    ∃ T', e.note m T = some T' ∧ RunInv m₀ (pre ++ [e]) (e.apply m) T' := by
  have hpage : e.addr / PAGE_SIZE = 0 → e.addr < PAGE_SIZE := by
    unfold PAGE_SIZE
    omega
  have hfetch : e.isFetch = true → e.addr / PAGE_SIZE ≠ 0 ∨
      (T.fetchCache.ptr.isSome ∧ T.execCache.ptr.isSome) := by
    intro hf
    by_cases hp : e.addr / PAGE_SIZE = 0
    · have hsize : e.size ≠ 0 := by
        cases e with
        | fetch addr length ha hl => rw [Event.size]; omega
        | load w addr => cases hf
        | store w addr data => cases hf
        | syscall addr data ha => cases hf
      obtain ⟨f, hmem, hs, hk⟩ := hc.started hsize (hpage hp)
      exact .inr (h.fetched ⟨f, hmem, hs, hk.trans hf⟩)
    · exact .inl hp
  have hload : e.isFetch = false → e.size ≠ 0 →
      e.addr / PAGE_SIZE ≠ 0 ∨ T.loadCache.ptr.isSome := by
    intro hf hsize
    by_cases hp : e.addr / PAGE_SIZE = 0
    · obtain ⟨f, hmem, hs, hk⟩ := hc.started hsize (hpage hp)
      exact .inr (h.loaded ⟨f, hmem, hs, hk.trans hf⟩)
    · exact .inl hp
  obtain ⟨T', hT', hwf', hrec', hfc', hlc'⟩ := note_spec m e h.wf (h.whole hc) hfetch hload
  refine ⟨T', hT', hwf', ?_, ?_, ?_, ?_⟩
  · rw [List.foldl_append, ← h.mem]
    rfl
  · rw [hrec', List.map_append, recordAll_append, ← h.recorded, foldl_access_apply, ← h.mem]
    rfl
  · rintro ⟨f, hf, hs, hk⟩
    apply hfc'
    obtain hf | hf := List.mem_append.mp hf
    · exact .inl (h.fetched ⟨f, hf, hs, hk⟩)
    · rw [List.mem_singleton] at hf
      exact .inr (hf ▸ ⟨hk, hs⟩)
  · rintro ⟨f, hf, hs, hk⟩
    apply hlc'
    obtain hf | hf := List.mem_append.mp hf
    · exact .inl (h.loaded ⟨f, hf, hs, hk⟩)
    · rw [List.mem_singleton] at hf
      exact .inr (hf ▸ ⟨hk, hs⟩)

theorem run (h : RunInv m₀ pre m T) {es : List Event} (hc : CleanFrom pre es) :
    ∃ T', recordRun m T es = some T' ∧
      RunInv m₀ (pre ++ es) (es.foldl Event.apply m) T' := by
  induction es generalizing pre m T with
  | nil => exact ⟨T, rfl, by simpa using h⟩
  | cons e es ih =>
    obtain ⟨T₁, hT₁, h₁⟩ := h.step hc.1
    obtain ⟨T', hT', h'⟩ := ih h₁ hc.2
    refine ⟨T', ?_, ?_⟩
    · rw [recordRun, hT₁]
      exact hT'
    · rwa [List.append_assoc, List.singleton_append] at h'

end RunInv

/-- A clean run goes through, and the library's invariant holds at its end. -/
theorem recordRun_clean (m : Mem) {es : List Event} (hc : CleanRun es) :
    ∃ T, recordRun m .new es = some T ∧ RunInv m es (es.foldl Event.apply m) T :=
  (runInv_nil m).run hc

/-! ## The replay -/

theorem bytes_of_see {m m' : Mem} {addr n : ℕ}
    (h : (fun a => if span addr n a then some (m' a) else none) =
      fun a => if span addr n a then some (m a) else none) : m'.bytes addr n = m.bytes addr n := by
  apply List.map_congr_left
  intro i hi
  have hi' := congrFun h (addr + i)
  have hin : span addr n (addr + i) = true := by
    rw [span_iff]
    have := List.mem_range.mp hi
    omega
  rw [if_pos hin, if_pos hin] at hi'
  exact Option.some.inj hi'

/-- Two memories that the library's observer cannot tell apart look the same to the events. -/
theorem observe_congr {m m' : Mem} {es : List Event}
    (h : FirstTouch.observe m' (es.map Event.access) =
      FirstTouch.observe m (es.map Event.access)) : observe m' es = observe m es := by
  induction es generalizing m m' with
  | nil => rfl
  | cons e es ih =>
    cases e with
    | fetch addr length ha hl =>
      obtain ⟨hsee, hrest⟩ := List.cons.inj h
      simp only [observe, Event.sees, Event.apply, bytes_of_see hsee, ih hrest]
    | load w addr =>
      obtain ⟨hsee, hrest⟩ := List.cons.inj h
      simp only [observe, Event.sees, Event.apply, bytes_of_see hsee, ih hrest]
    | store w addr data =>
      simp only [observe, Event.sees, Option.toList_none, List.nil_append]
      apply ih
      rw [← access_apply, ← access_apply]
      exact h
    | syscall addr data ha =>
      simp only [observe, Event.sees, Option.toList_none, List.nil_append]
      apply ih
      rw [← access_apply, ← access_apply]
      exact h

theorem observe_image_of_inv {m₀ m : Mem} {es : List Event} {T : MemTrace}
    (h : RunInv m₀ es m T) : observe T.image es = observe m₀ es := by
  apply observe_congr
  rw [MemTrace.image, h.recorded]
  exact observe_image 0 m₀ _

/-- **Fidelity.** On the image of a clean run every fetch and every load sees the bytes it saw
when the run was recorded. -/
theorem reproduces_of_clean (m : Mem) (es : List Event) (hc : CleanRun es) : Reproduces m es := by
  obtain ⟨T, hT, hinv⟩ := recordRun_clean m hc
  exact ⟨T, hT, observe_image_of_inv hinv⟩

def overlappingEvents : List Event :=
  [.load .w8 0x2ffc, .fetch 0x1ffe 4 (by decide) length_four, .store .w2 0x2001 0x1234,
    .syscall 0x2003 [1, 2, 3] (by decide), .load .w4 0x2000]

theorem overlappingEvents_reproduce : Reproduces (fun a => BitVec.ofNat 8 a) overlappingEvents :=
  reproduces_of_clean _ overlappingEvents (by decide)

/-- The bytes 5 and 7 are fetched after a load has visited the second one. -/
def partlyVisited : List Event := [.load .w1 0x1001, .fetch 0x1000 2 (by decide) (by decide)]

/-- The image holds 7 in both places. -/
theorem partlyVisited_not_reproduced :
    ¬ ∀ (m : Mem) (es : List Event), Reproduces m es := by
  intro h
  obtain ⟨T, hT, hsee⟩ := h (fun a => if a = 0x1001 then 7 else 5) partlyVisited
  have hne : (recordRun (fun a => if a = 0x1001 then 7 else 5) .new partlyVisited).map
      (fun T => observe T.image partlyVisited) ≠
      some (observe (fun a => if a = 0x1001 then 7 else 5) partlyVisited) := by decide
  apply hne
  rw [hT, Option.map_some, hsee]

end RvCkpt
