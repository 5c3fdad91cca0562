import RvCkpt.Recorder.LogText

/-! # Dump files of a log

Every checkpoint finds its own dump file as long as their names differ. The tables of a trace are
hash tables: a log may be printed with them in any order.
-/

namespace RvCkpt
open ByteMem Text
set_option autoImplicit false

/-! ## Dump files by their names -/

theorem dumpFiles_cons (item : LogItem) (rest : List LogItem) (name : List Char) :
    dumpFiles (item :: rest) name = (dumpFiles rest name).or (dumpFiles [item] name) := by
  have hcons : dumpFiles (item :: rest) name =
      (dumpFiles rest name).orElse fun _ => dumpFiles [item] name := rfl
  rw [hcons]
  cases dumpFiles rest name <;> rfl

theorem dumpFiles_append (items items' : List LogItem) (name : List Char) :
    dumpFiles (items ++ items') name =
      (dumpFiles items' name).or (dumpFiles items name) := by
  induction items with
  | nil => rw [List.nil_append, dumpFiles, Option.or_none]
  | cons item items ih =>
    rw [List.cons_append, dumpFiles_cons, ih, Option.or_assoc, ← dumpFiles_cons]

/-- The name of the item's dump file, if it has one. -/
def itemFile : LogItem → Option (List Char)
  | .file beginInstret instret _ _ => some (fileName beginInstret instret)
  | _ => none

theorem dumpFiles_none {items : List LogItem} {name : List Char}
    (h : ∀ item ∈ items, itemFile item ≠ some name) : dumpFiles items name = none := by
  induction items with
  | nil => rfl
  | cons item items ih =>
    rw [dumpFiles_cons, ih fun item' h' => h item' (by simp [h']), Option.none_or]
    have hitem := h item (by simp)
    cases item with
    | file b e pages execs =>
      have hne : name ≠ fileName b e := fun heq => hitem (by rw [heq]; rfl)
      exact if_neg hne
    | _ => rfl

def dumpName (r : Recorded) : List Char := fileName r.beginInstret r.instret

theorem callItems_noFile (body : List CallItem) (name : List Char) :
    ∀ item ∈ body.map CallItem.item, itemFile item ≠ some name := by
  intro item hitem
  obtain ⟨call, -, rfl⟩ := List.mem_map.mp hitem
  cases call <;> exact Option.some_ne_none name |>.symm

theorem opened_noFile (o : Opened) (name : List Char) :
    ∀ item ∈ o.items, itemFile item ≠ some name := by
  intro item hitem
  rcases List.mem_cons.mp hitem with rfl | hitem
  · exact (Option.some_ne_none name).symm
  · exact callItems_noFile o.body name item hitem

theorem stop_noFile (stop : Stop) : itemFile stop.item = none := by cases stop <;> rfl

theorem stores_noFile (T : MemTrace) (live : Mem) (name : List Char) :
    ∀ item ∈ Manager.storeItems T live, itemFile item ≠ some name := by
  intro item hitem
  obtain ⟨i, -, hi⟩ := List.mem_filterMap.mp hitem
  by_cases haddr : (T.stores i).addr ≠ 0
  · rw [if_pos haddr] at hi
    rw [← Option.some.inj hi]
    exact (Option.some_ne_none name).symm
  · rw [if_neg haddr] at hi
    cases hi

theorem dumpFiles_record (r : Recorded) (name : List Char) :
    dumpFiles r.items name = if name = dumpName r then
      some (dumpBytes r.trace.pages.entries r.trace.execs.entries) else none := by
  have hsplit : r.items = (r.toOpened.items ++ [r.stop.item]) ++
      ([.file r.beginInstret r.instret r.trace.pages.entries r.trace.execs.entries] ++
        Manager.storeItems r.trace r.live) := by
    simp only [Recorded.items, List.append_assoc, List.singleton_append]
  have hstart : dumpFiles (r.toOpened.items ++ [r.stop.item]) name = none := by
    apply dumpFiles_none
    intro item hitem
    rcases List.mem_append.mp hitem with hitem | hitem
    · exact opened_noFile r.toOpened name item hitem
    · rw [List.mem_singleton.mp hitem, stop_noFile]
      exact (Option.some_ne_none name).symm
  rw [hsplit, dumpFiles_append, dumpFiles_append, hstart,
    dumpFiles_none (stores_noFile r.trace r.live name), Option.none_or, Option.or_none]
  rfl

theorem dumpFiles_other {recs : List Recorded} {name : List Char}
    (h : name ∉ recs.map dumpName) : dumpFiles (recs.flatMap Recorded.items) name = none := by
  induction recs with
  | nil => rfl
  | cons r recs ih =>
    rw [List.map_cons, List.mem_cons, not_or] at h
    rw [List.flatMap_cons, dumpFiles_append, ih h.2, dumpFiles_record, if_neg h.1]
    rfl

/-- Checkpoints whose dump files have different names find their own ones. -/
theorem dumpFiles_records {recs : List Recorded} (hnodup : (recs.map dumpName).Nodup)
    (cur : Option Opened) {r : Recorded} (hr : r ∈ recs) :
    dumpFiles (recs.flatMap Recorded.items ++ openItems cur) (dumpName r) =
      some (dumpBytes r.trace.pages.entries r.trace.execs.entries) := by
  have hopen : dumpFiles (openItems cur) (dumpName r) = none := by
    apply dumpFiles_none
    cases cur with
    | none => exact fun item hitem => absurd hitem List.not_mem_nil
    | some o => exact opened_noFile o _
  rw [dumpFiles_append, hopen, Option.none_or]
  induction recs with
  | nil => cases hr
  | cons r' recs ih =>
    obtain ⟨hnotin, hnodup⟩ := List.nodup_cons.mp hnodup
    rw [List.flatMap_cons, dumpFiles_append]
    rcases List.mem_cons.mp hr with rfl | hr
    · rw [dumpFiles_other hnotin, dumpFiles_record, if_pos rfl]
      rfl
    · rw [ih hnodup hr]
      rfl

/-! ## The order of the tables -/

/-- What is printed for an item, with the tables of a trace in whatever order they are walked. -/
inductive Printed : LogItem → LogItem → Prop where
  | file (beginInstret instret : BitVec 64) {pages pages' : List (Σ _ : ℕ, PageRec)}
      {execs execs' : List (Σ _ : ℕ, ExecRec)} (hpages : pages'.Perm pages)
      (hexecs : execs'.Perm execs) :
      Printed (.file beginInstret instret pages' execs') (.file beginInstret instret pages execs)
  | same (item : LogItem) : Printed item item

theorem Printed.same_item {item' item : LogItem} (h : Printed item' item)
    (hnone : ∀ name, itemFile item ≠ some name) : item' = item := by
  cases h with
  | same => rfl
  | file b e hpages hexecs => exact absurd rfl (hnone (fileName b e))

theorem printed_same {items' items : List LogItem} (h : List.Forall₂ Printed items' items)
    (hnone : ∀ name, ∀ item ∈ items, itemFile item ≠ some name) : items' = items := by
  induction h with
  | nil => rfl
  | cons hitem _ ih =>
    rw [hitem.same_item fun name => hnone name _ (by simp),
      ih fun name item h' => hnone name item (by simp [h'])]

theorem forall₂_split {α β : Type} {R : α → β → Prop} {l : List α} {l₁ l₂ : List β}
    (h : List.Forall₂ R l (l₁ ++ l₂)) :
    ∃ k₁ k₂, l = k₁ ++ k₂ ∧ List.Forall₂ R k₁ l₁ ∧ List.Forall₂ R k₂ l₂ :=
  ⟨_, _, (List.take_append_drop l₁.length l).symm, List.forall₂_take_append _ _ _ h,
    List.forall₂_drop_append _ _ _ h⟩

theorem MemTrace.Consistent.reorder {T : MemTrace} (h : T.Consistent)
    {pages : AList fun _ : ℕ => PageRec} {execs : AList fun _ : ℕ => ExecRec}
    (hpages : pages.entries.Perm T.pages.entries) (hexecs : execs.entries.Perm T.execs.entries) :
    { T with pages := pages, execs := execs }.Consistent := by
  have hmem : ∀ pn, pn ∈ T.pages → pn ∈ pages := fun pn => (hpages.map Sigma.fst).mem_iff.mpr
  have hmem' : ∀ pn, pn ∈ execs ↔ pn ∈ T.execs := fun pn => (hexecs.map Sigma.fst).mem_iff
  exact ⟨⟨h.wf.fetch.mono hmem, h.wf.load.mono hmem, h.wf.exec.mono fun pn => (hmem' pn).mpr⟩,
    fun pn hpn => hmem pn (h.counted pn ((hmem' pn).mp hpn)), h.sized⟩

/-- A checkpoint that is printed in another order is one whose tables are in that order. -/
theorem printed_record {r : Recorded} (hr : r.Sound) {items' : List LogItem}
    (h : List.Forall₂ Printed items' r.items) :
    ∃ r' : Recorded, items' = r'.items ∧ r'.Sound ∧ r'.beginInstret = r.beginInstret := by
  obtain ⟨start, rest, rfl, hstart, hrest⟩ := forall₂_split h
  obtain rfl := printed_same hstart (fun name => opened_noFile r.toOpened name)
  cases hrest with
  | cons hstop hrest =>
    obtain rfl := hstop.same_item fun name => by
      rw [stop_noFile]
      exact (Option.some_ne_none name).symm
    cases hrest with
    | cons hfile hstores =>
      obtain rfl := printed_same hstores (fun name => stores_noFile r.trace r.live name)
      cases hfile with
      | same => exact ⟨r, rfl, hr, rfl⟩
      | @file _ _ _ pages' _ execs' hpages hexecs =>
        have hkeys : pages'.NodupKeys :=
          (hpages.map Sigma.fst).nodup_iff.mpr r.trace.pages.nodupKeys
        have hkeys' : execs'.NodupKeys :=
          (hexecs.map Sigma.fst).nodup_iff.mpr r.trace.execs.nodupKeys
        exact ⟨{ r with trace := { r.trace with
            pages := ⟨pages', hkeys⟩, execs := ⟨execs', hkeys'⟩ } },
          rfl, ⟨hr.stop, hr.consistent.reorder hpages hexecs⟩, rfl⟩

theorem printed_records {recs : List Recorded} (hsound : ∀ r ∈ recs, r.Sound)
    {items' : List LogItem} (h : List.Forall₂ Printed items' (recs.flatMap Recorded.items)) :
    ∃ recs' : List Recorded, items' = recs'.flatMap Recorded.items ∧
      (∀ r ∈ recs', r.Sound) ∧ recs'.map (·.beginInstret) = recs.map (·.beginInstret) := by
  induction recs generalizing items' with
  | nil =>
    cases h
    exact ⟨[], rfl, by simp, rfl⟩
  | cons r recs ih =>
    rw [List.flatMap_cons] at h
    obtain ⟨start, rest, rfl, hstart, hrest⟩ := forall₂_split h
    obtain ⟨r', rfl, hr', hbegin⟩ := printed_record (hsound r (by simp)) hstart
    obtain ⟨recs', rfl, hsound', hbegins⟩ := ih (fun r h' => hsound r (by simp [h'])) hrest
    refine ⟨r' :: recs', by rw [List.flatMap_cons], ?_, ?_⟩
    · intro r'' hr''
      rcases List.mem_cons.mp hr'' with rfl | hr''
      · exact hr'
      · exact hsound' r'' hr''
    · rw [List.map_cons, List.map_cons, hbegin, hbegins]

theorem printed_open {cur : Option Opened} {items' : List LogItem}
    (h : List.Forall₂ Printed items' (openItems cur)) : items' = openItems cur := by
  apply printed_same h
  intro name
  cases cur with
  | none => exact fun item hitem => absurd hitem List.not_mem_nil
  | some o => exact opened_noFile o name

end RvCkpt
