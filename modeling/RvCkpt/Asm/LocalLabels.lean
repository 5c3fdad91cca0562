import RvCkpt.Asm.Sections
import RvCkpt.Lib.Nearest

/-! # Numeric labels

What a reference `Nb` or `Nf` to a numeric label means, and what the scans of
`src/src/asm/assembler.cc` find: one label for each offset, in all sections, by the number alone.
-/

namespace RvCkpt.Asm
set_option autoImplicit false

/-! ## References -/

/-- A reference to a numeric label from an offset of a section: digits, then `f` or `b`. -/
structure LocalRef where
  digits : List Char
  forward : Bool
  offset : SectionOffset
  ne_nil : digits ≠ []
  all_digits : digits.all (Text.isDigit 10) = true

namespace LocalRef
variable (r : LocalRef)

def number : ℕ := Text.value 10 r.digits

def name : List Char := r.digits ++ [if r.forward then 'f' else 'b']

def reloc (rela_type : Rela) : Reloc := ⟨r.offset, r.name, rela_type⟩

/-- The keys on the side of the reference that it looks to. -/
def Ahead (k : SectionOffset) : Prop := if r.forward then r.offset < k else k ≤ r.offset

instance (k : SectionOffset) : Decidable (r.Ahead k) := by
  unfold Ahead
  infer_instance

def Nearest (s : Set SectionOffset) (k : SectionOffset) : Prop :=
  if r.forward then IsLeast {k ∈ s | r.Ahead k} k else IsGreatest {k ∈ s | r.Ahead k} k

/-- The second key lies beyond the first, seen from the reference. -/
def Beyond (g k : SectionOffset) : Prop := if r.forward then g < k else k < g

/-- The definitions of the number in the section of the reference. -/
def definitions (defs : List Definition) : Set SectionOffset :=
  {k | k.sec = r.offset.sec ∧
    ∃ d ∈ defs, d.numeric = true ∧ d.label.offset = k ∧ d.label.num.toInt = r.number}

/-- The offsets at which the last label, of any kind and in any section, has the number that the
reference is scanned for. -/
def kept (defs : List Definition) : Set SectionOffset :=
  {k | ∃ l, ((defs.map Definition.label).filter fun l => l.offset = k).getLast? = some l ∧
    l.num = strtoull r.digits}

/-- The reference resolves to the nearest definition, and to none where there is none. -/
def Right (calls : List Call) (rela_type : Rela) : Prop :=
  ∀ k, ((Assembler.init.run calls).lookup_label (r.reloc rela_type) r.name).map Label.offset =
    some k ↔ r.Nearest (r.definitions (Assembler.init.defined calls)) k

/-- No later label hides the nearest definition, and whatever else has its number and lies ahead,
in another section or not defined as a number, is beyond it. -/
def Meets (defs : List Definition) : Prop :=
  (∀ k, r.Nearest (r.definitions defs) k → k ∈ r.kept defs) ∧
    ∀ k ∈ r.kept defs, r.Ahead k → k ∉ r.definitions defs →
      ∃ g, r.Nearest (r.definitions defs) g ∧ r.Beyond g k

/-! ## Names -/

theorem check_local_name : check_local r.name = true := by
  have hlength : ¬(r.name.length < 2) := by
    have hpos := List.length_pos_iff.mpr r.ne_nil
    rw [name, List.length_append, List.length_singleton]
    omega
  have hlast : r.name.getLast? = some (if r.forward then 'f' else 'b') := by
    rw [name, List.getLast?_concat]
  have hdigits : r.name.dropLast = r.digits := List.dropLast_concat
  rw [check_local, if_neg, hdigits]
  · exact r.all_digits
  · rw [hlast]
    cases r.forward <;> simp [hlength]

theorem lookup_label_name (a : Assembler) (rela_type : Rela) :
    a.lookup_label (r.reloc rela_type) r.name =
      if r.forward then a.lookup_label_f (r.reloc rela_type) (strtoull r.digits)
      else a.lookup_label_b (r.reloc rela_type) (strtoull r.digits) := by
  have hlast : r.name.getLast? = some (if r.forward then 'f' else 'b') := by
    rw [name, List.getLast?_concat]
  have hdigits : r.name.dropLast = r.digits := List.dropLast_concat
  rw [Assembler.lookup_label, if_pos r.check_local_name, hlast, hdigits]
  cases r.forward <;> rfl

end LocalRef

/-! ## Scans -/

namespace Assembler

/-- The first label behind the offset that has the number. -/
theorem scan_f_eq {offset : SectionOffset} {num : BitVec 64} {found : Bool}
    {entries : List (SectionOffset × Label)} (hsorted : entries.Pairwise fun a b => a.1 < b.1)
    (hfound : found = true → ∀ e ∈ entries, offset < e.1) :
    scan_f offset num found entries =
      (entries.find? fun e => decide (offset < e.1 ∧ e.2.num = num)).map Prod.snd := by
  induction entries generalizing found with
  | nil => rfl
  | cons e entries ih =>
    obtain ⟨hfirst, hrest⟩ := List.pairwise_cons.mp hsorted
    rw [scan_f, List.find?_cons]
    by_cases hafter : offset < e.1
    · have hlater : ∀ e' ∈ entries, offset < e'.1 := fun e' he' => hafter.trans (hfirst e' he')
      by_cases hnum : e.2.num = num
      · simp [hafter, hnum]
      · simp only [hafter, hnum, if_true, and_false, if_false, decide_false]
        exact ih hrest fun _ => hlater
    · have hnot : found = false := by
        by_contra h
        exact hafter (hfound (Bool.eq_true_of_not_eq_false h) e List.mem_cons_self)
      subst hnot
      simp only [hafter, if_false, false_and, Bool.false_eq_true, decide_false]
      exact ih hrest fun h => absurd h Bool.false_ne_true

/-- The last label up to the offset that has the number. -/
theorem scan_b_eq {offset : SectionOffset} {num : BitVec 64} {found : Option Label}
    {entries : List (SectionOffset × Label)} (hsorted : entries.Pairwise fun a b => a.1 < b.1) :
    scan_b offset num found entries =
      ((entries.filter fun e => decide (e.1 ≤ offset ∧ e.2.num = num)).getLast?.map Prod.snd).or
        found := by
  induction entries generalizing found with
  | nil => rfl
  | cons e entries ih =>
    obtain ⟨hfirst, hrest⟩ := List.pairwise_cons.mp hsorted
    rw [scan_b]
    by_cases hafter : offset < e.1
    · have hnone : (e :: entries).filter (fun e => decide (e.1 ≤ offset ∧ e.2.num = num)) = [] := by
        rw [List.filter_eq_nil_iff]
        intro e' he' hin
        have hle := (of_decide_eq_true hin).1
        rcases List.mem_cons.mp he' with rfl | hmem
        · exact absurd hle (not_le.mpr hafter)
        · exact absurd hle (not_le.mpr (hafter.trans (hfirst e' hmem)))
      rw [if_pos hafter, hnone]
      rfl
    · rw [if_neg hafter, ih hrest, List.filter_cons]
      by_cases hnum : e.2.num = num
      · have hin : decide (e.1 ≤ offset ∧ e.2.num = num) = true :=
          decide_eq_true ⟨not_lt.mp hafter, hnum⟩
        rw [if_pos hnum, if_pos hin, List.getLast?_cons]
        cases (entries.filter fun e => decide (e.1 ≤ offset ∧ e.2.num = num)).getLast? <;> rfl
      · have hout : ¬decide (e.1 ≤ offset ∧ e.2.num = num) = true := by
          simp [hnum]
        rw [if_neg hnum, if_neg hout]

/-- An entry's label is at its key: it is the last one that was defined there. -/
theorem mem_entries_run (calls : List Call) {k : SectionOffset} {l : Label} :
    (k, l) ∈ (init.run calls).labels_byoffset.entries ↔
      (((init.defined calls).map Definition.label).filter fun l => l.offset = k).getLast? =
        some l := by
  have hinit : init.labels_byoffset.get? k = none := rfl
  rw [← OrderedMap.get?_eq_some_iff, get?_run, hinit, Option.or_none]

theorem offset_of_last {defs : List Definition} {k : SectionOffset} {l : Label}
    (h : ((defs.map Definition.label).filter fun l => l.offset = k).getLast? = some l) :
    l ∈ defs.map Definition.label ∧ l.offset = k := by
  obtain ⟨hmem, hoffset⟩ := List.mem_filter.mp (List.mem_of_getLast? h)
  exact ⟨hmem, of_decide_eq_true hoffset⟩

theorem map_offset (calls : List Call) {found : Option (SectionOffset × Label)}
    (h : ∀ e, found = some e → e ∈ (init.run calls).labels_byoffset.entries) :
    (found.map Prod.snd).map Label.offset = found.map Prod.fst := by
  cases found with
  | none => rfl
  | some e => exact congrArg some (offset_of_last ((mem_entries_run calls).mp (h e rfl))).2

end Assembler

/-! ## What a reference resolves to -/

namespace LocalRef
variable (r : LocalRef)

theorem mem_kept_run (calls : List Call) {k : SectionOffset} :
    k ∈ r.kept (Assembler.init.defined calls) ↔
      ∃ l, (k, l) ∈ (Assembler.init.run calls).labels_byoffset.entries ∧
        l.num = strtoull r.digits := by
  simp only [Assembler.mem_entries_run]
  rfl

/-- The nearest offset that keeps a label of the number, whatever section it is in. -/
theorem lookup_label_iff (calls : List Call) (rela_type : Rela) (k : SectionOffset) :
    ((Assembler.init.run calls).lookup_label (r.reloc rela_type) r.name).map Label.offset =
      some k ↔ r.Nearest (r.kept (Assembler.init.defined calls)) k := by
  have hsorted := (Assembler.init.run calls).labels_byoffset.sorted
  rw [lookup_label_name, Nearest]
  cases hforward : r.forward with
  | true =>
    simp only [if_true]
    have hkeys : {k ∈ r.kept (Assembler.init.defined calls) | r.Ahead k} =
        (Assembler.init.run calls).labels_byoffset.keysOf
          fun e => decide (r.offset < e.1 ∧ e.2.num = strtoull r.digits) := by
      ext k
      simp only [Set.mem_ofPred_eq, mem_kept_run, Ahead, hforward, if_true, OrderedMap.keysOf,
        decide_eq_true_eq]
      exact ⟨fun ⟨⟨l, hmem, hnum⟩, hlt⟩ => ⟨l, hmem, hlt, hnum⟩,
        fun ⟨l, hmem, hlt, hnum⟩ => ⟨⟨l, hmem, hnum⟩, hlt⟩⟩
    rw [Assembler.lookup_label_f, Assembler.scan_f_eq hsorted fun h => absurd h Bool.false_ne_true,
      Assembler.map_offset calls fun e he => List.mem_of_find?_eq_some he, hkeys]
    exact OrderedMap.find?_key_eq_some_iff _ _
  | false =>
    simp only [Bool.false_eq_true, if_false]
    have hkeys : {k ∈ r.kept (Assembler.init.defined calls) | r.Ahead k} =
        (Assembler.init.run calls).labels_byoffset.keysOf
          fun e => decide (e.1 ≤ r.offset ∧ e.2.num = strtoull r.digits) := by
      ext k
      simp only [Set.mem_ofPred_eq, mem_kept_run, Ahead, hforward, Bool.false_eq_true, if_false,
        OrderedMap.keysOf, decide_eq_true_eq]
      exact ⟨fun ⟨⟨l, hmem, hnum⟩, hle⟩ => ⟨l, hmem, hle, hnum⟩,
        fun ⟨l, hmem, hle, hnum⟩ => ⟨⟨l, hmem, hnum⟩, hle⟩⟩
    rw [Assembler.lookup_label_b, Assembler.scan_b_eq hsorted, Option.or_none,
      Assembler.map_offset calls fun e he => (List.mem_filter.mp (List.mem_of_getLast? he)).1,
      hkeys]
    exact OrderedMap.getLast?_key_eq_some_iff _ _

theorem finite_definitions (defs : List Definition) :
    {k ∈ r.definitions defs | r.Ahead k}.Finite := by
  refine (List.finite_toSet (defs.map fun d => d.label.offset)).subset ?_
  rintro k ⟨⟨-, d, hmem, -, hoffset, -⟩, -⟩
  exact List.mem_map.mpr ⟨d, hmem, hoffset⟩

theorem finite_kept (defs : List Definition) : {k ∈ r.kept defs | r.Ahead k}.Finite := by
  refine (List.finite_toSet ((defs.map Definition.label).map Label.offset)).subset ?_
  rintro k ⟨⟨l, hlast, -⟩, -⟩
  obtain ⟨hmem, hoffset⟩ := Assembler.offset_of_last hlast
  exact List.mem_map.mpr ⟨l, hmem, hoffset⟩

theorem Nearest.ahead {s : Set SectionOffset} {k : SectionOffset} (h : r.Nearest s k) :
    k ∈ s ∧ r.Ahead k := by
  unfold LocalRef.Nearest at h
  split_ifs at h
  · exact h.1
  · exact h.1

/-- The same offset is the nearest one of both sets. -/
theorem same_nearest_iff (defs : List Definition) :
    (∀ k, r.Nearest (r.kept defs) k ↔ r.Nearest (r.definitions defs) k) ↔
      (∀ k, r.Nearest (r.definitions defs) k → k ∈ {k ∈ r.kept defs | r.Ahead k}) ∧
        ∀ k ∈ {k ∈ r.kept defs | r.Ahead k}, k ∉ {k ∈ r.definitions defs | r.Ahead k} →
          ∃ g, r.Nearest (r.definitions defs) g ∧ r.Beyond g k := by
  unfold LocalRef.Nearest Beyond
  cases r.forward with
  | true => exact Nearest.same_least_iff (r.finite_definitions defs) (r.finite_kept defs)
  | false => exact Nearest.same_greatest_iff (r.finite_definitions defs) (r.finite_kept defs)

/-- A reference resolves to the nearest definition of its number exactly where no other label takes
that definition's place or comes before it. -/
theorem local_label_right_iff (calls : List Call) (rela_type : Rela) :
    r.Right calls rela_type ↔ r.Meets (Assembler.init.defined calls) := by
  simp only [Right, lookup_label_iff]
  rw [same_nearest_iff, Meets]
  refine and_congr ⟨fun h k hk => (h k hk).1, fun h k hk => ⟨h k hk, (Nearest.ahead r hk).2⟩⟩ ?_
  constructor
  · exact fun h k hkept hahead hdef => h k ⟨hkept, hahead⟩ fun hin => hdef hin.1
  · exact fun h k hk hdef => h k hk.1 hk.2 fun hin => hdef ⟨hin, hk.2⟩

end LocalRef

/-! ## A label that is hidden -/

/-- `1: x: ` and an instruction. -/
def hiddenCalls : List Call := [.add_label_num 1, .add_label ['x'], .append 4 0]

/-- `1b` behind them. -/
def hiddenRef : LocalRef := ⟨['1'], false, section_offset 1 4, by decide, by decide⟩

theorem hidden_not_right :
    ¬∀ (r : LocalRef) (calls : List Call) (rela_type : Rela), r.Right calls rela_type := by
  intro hall
  have hdefined : Assembler.init.defined hiddenCalls =
      [⟨⟨".L11".toList, section_offset 1 0, 1⟩, true⟩,
        ⟨⟨['x'], section_offset 1 0, 0⟩, false⟩] := rfl
  have hnone : (Assembler.init.run hiddenCalls).lookup_label
      (hiddenRef.reloc .R_RISCV_BRANCH) hiddenRef.name = none := rfl
  have hnearest : hiddenRef.Nearest (hiddenRef.definitions (Assembler.init.defined hiddenCalls))
      (section_offset 1 0) := by
    rw [hdefined]
    refine ⟨⟨⟨rfl, _, List.mem_cons_self, rfl, rfl, rfl⟩, by decide⟩, ?_⟩
    rintro k ⟨⟨-, d, hmem, hnumeric, hoffset, -⟩, -⟩
    simp only [List.mem_cons, List.not_mem_nil, or_false] at hmem
    rcases hmem with rfl | rfl
    · exact hoffset.ge
    · cases hnumeric
  have hresolved := (hall hiddenRef hiddenCalls .R_RISCV_BRANCH _).mpr hnearest
  rw [hnone] at hresolved
  cases hresolved

end RvCkpt.Asm
