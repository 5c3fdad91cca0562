import RvCkpt.Elf.SymbolIndex

/-! # What the symbol index finds

After any loads, added symbols and moved addresses that meet the condition, the index is that of
the symbols, and a lookup of the nearest address is right exactly where its own condition holds.
-/

namespace RvCkpt.Elf
open ByteMem ElfFile
set_option autoImplicit false

/-! ## The latest symbol of a name -/

theorem latest_append (added : List (List Byte × ℕ)) (name : List Byte) (i : ℕ)
    (name' : List Byte) :
    latest (added ++ [(name, i)]) name' = if name' = name then some i else latest added name' := by
  rw [latest, List.filter_append]
  by_cases h : name' = name
  · simp [h]
  · have hne : ¬name = name' := Ne.symm h
    simp [h, hne, latest]

namespace ElfFile
variable {e : ElfFile} {added : List (List Byte × ℕ)}

theorem NameRight.index (h : e.NameRight added) (name : List Byte) (addr i : ℕ) :
    (e.index name addr i).NameRight (added ++ [(name, i)]) := by
  intro name'
  rw [latest_append]
  simp only [ElfFile.index, Function.update_apply, h name']

theorem AddrRight.insert (h : e.AddrRight) {i : ℕ} {sym : Sym} (hsym : e.symbols[i]? = some sym)
    {a j : ℕ} (hget : (e.addr_symbol_map.insert sym.st_value i).get? a = some j) :
    ∃ sym, e.symbols[j]? = some sym ∧ sym.st_value = a := by
  rw [OrderedMap.get?_insert] at hget
  split_ifs at hget with ha
  · cases hget
    exact ⟨sym, hsym, ha.symm⟩
  · exact h a j hget

theorem AddrRight.index (h : e.AddrRight) (name : List Byte) {i : ℕ} {sym : Sym}
    (hsym : e.symbols[i]? = some sym) : (e.index name sym.st_value i).AddrRight :=
  fun _ _ hget => h.insert hsym hget

/-! ## Loading -/

/-- Only the maps differ. -/
structure SameTables (e e' : ElfFile) : Prop where
  symtab : e'.symtab = e.symtab
  strtab : e'.strtab = e.strtab
  strtab_offset : e'.strtab_offset = e.strtab_offset
  sections : e'.sections = e.sections
  symbols : e'.symbols = e.symbols

theorem SameTables.refl (e : ElfFile) : SameTables e e := ⟨rfl, rfl, rfl, rfl, rfl⟩

theorem SameTables.trans {e₁ e₂ e₃ : ElfFile} (h : SameTables e₁ e₂) (h' : SameTables e₂ e₃) :
    SameTables e₁ e₃ :=
  ⟨h'.symtab.trans h.symtab, h'.strtab.trans h.strtab, h'.strtab_offset.trans h.strtab_offset,
    h'.sections.trans h.sections, h'.symbols.trans h.symbols⟩

theorem SameTables.sym_name {e e' : ElfFile} (h : SameTables e e') : e'.sym_name = e.sym_name := by
  funext i
  simp only [ElfFile.sym_name, ElfFile.offset, h.strtab, h.symbols, h.strtab_offset, h.sections]

theorem SameTables.entry {e e' : ElfFile} (h : SameTables e e') : e'.entry = e.entry := by
  funext i
  simp only [ElfFile.entry, h.symbols, h.sym_name]

/-- The loop leaves a symbol out, or it goes into the maps under its name. -/
theorem indexSymbol_cases {e' : ElfFile} {i : ℕ} (h : e.indexSymbol i = some e') :
    e.entry i = none ∧ e' = e ∨
      ∃ name sym, e.entry i = some (name, i) ∧ e.symbols[i]? = some sym ∧
        e' = e.index name sym.st_value i := by
  unfold indexSymbol at h
  unfold ElfFile.entry
  cases hsym : e.symbols[i]? with
  | none =>
    rw [hsym] at h
    cases h
    exact .inl ⟨rfl, rfl⟩
  | some sym =>
    rw [hsym] at h
    simp only at h ⊢
    by_cases hzero : sym.st_value = 0
    · rw [if_pos hzero] at h ⊢
      cases h
      exact .inl ⟨rfl, rfl⟩
    · rw [if_neg hzero, Option.bind_eq_bind, Option.bind_eq_some_iff] at h
      rw [if_neg hzero]
      obtain ⟨name, hname, hrest⟩ := h
      rw [hname, Option.bind_some]
      by_cases hempty : name = []
      · rw [if_pos hempty] at hrest ⊢
        cases hrest
        exact .inl ⟨rfl, rfl⟩
      · rw [if_neg hempty] at hrest ⊢
        cases hrest
        exact .inr ⟨name, sym, rfl, rfl, rfl⟩

theorem indexSymbols_right {is : List ℕ} {e' : ElfFile} (haddr : e.AddrRight)
    (hname : e.NameRight added) (h : is.foldlM indexSymbol e = some e') :
    e'.AddrRight ∧ e'.NameRight (added ++ is.filterMap e.entry) ∧ SameTables e e' := by
  induction is generalizing e added with
  | nil =>
    cases h
    rw [List.filterMap_nil, List.append_nil]
    exact ⟨haddr, hname, .refl _⟩
  | cons i is ih =>
    rw [List.foldlM_cons, Option.bind_eq_bind, Option.bind_eq_some_iff] at h
    obtain ⟨e₁, hfirst, hrest⟩ := h
    rcases indexSymbol_cases hfirst with ⟨hnone, heq⟩ | ⟨name, sym, hentry, hsym, rfl⟩
    · rw [List.filterMap_cons_none hnone]
      rw [heq] at hrest
      exact ih haddr hname hrest
    · have hsame : SameTables e (e.index name sym.st_value i) := ⟨rfl, rfl, rfl, rfl, rfl⟩
      obtain ⟨haddr', hname', hsame'⟩ :=
        ih (haddr.index name hsym) (hname.index name sym.st_value i) hrest
      rw [List.filterMap_cons_some hentry, List.append_cons]
      rw [hsame.entry] at hname'
      exact ⟨haddr', hname', hsame.trans hsame'⟩

theorem addrRight_of_empty (h : e.addr_symbol_map = .empty) : e.AddrRight := by
  intro a i hget
  rw [h, OrderedMap.get?_empty] at hget
  cases hget

theorem nameRight_of_empty (h : e.name_symbol_map = fun _ => none) : e.NameRight [] :=
  fun name => congrFun h name

theorem clear_right : clear.AddrRight ∧ clear.NameRight [] :=
  ⟨addrRight_of_empty rfl, nameRight_of_empty rfl⟩

/-- A loaded file's index is that of its symbols. -/
theorem load_right {l : Load} {e' : ElfFile} (h : load l = some e') :
    e'.AddrRight ∧ e'.NameRight e'.loaded := by
  cases l with
  | exec =>
    cases h
    exact clear_right
  | headers =>
    cases h
    exact clear_right
  | all t =>
    rw [load, copy_from_symbol_table_sections] at h
    simp only at h
    split_ifs at h with hsymtab hstrtab
    · cases h
      rw [loaded, if_pos (.inl hsymtab)]
      exact ⟨addrRight_of_empty rfl, nameRight_of_empty rfl⟩
    · cases h
      rw [loaded, if_pos (.inr hstrtab)]
      exact ⟨addrRight_of_empty rfl, nameRight_of_empty rfl⟩
    · obtain ⟨haddr, hname, hsame⟩ :=
        indexSymbols_right (addrRight_of_empty rfl) (nameRight_of_empty rfl) h
      refine ⟨haddr, ?_⟩
      rw [loaded, hsame.symtab, hsame.strtab, hsame.symbols, hsame.entry, if_neg]
      · exact hname
      · exact fun hzero => hzero.elim hsymtab hstrtab

/-! ## Adding a symbol -/

theorem cstr_stored {name : List Byte} (h : (0 : Byte) ∉ name) : cstr (name ++ [0]) = name := by
  rw [cstr, List.takeWhile_append_of_pos]
  · simp
  · intro b hb
    have hne : b ≠ 0 := fun hzero => h (hzero ▸ hb)
    simpa using hne

/-- The bytes of the new name are found where it was put. -/
theorem sym_name_added {name : List Byte} {names : Section} (st_value : ℕ) (hstrtab : e.strtab ≠ 0)
    (hnames : e.sections[e.strtab]? = some names) (hstored : e.NameStored name names) :
    (e.pushSymbol names name st_value).sym_name e.symbols.length = some name := by
  obtain ⟨hlt, -⟩ := List.getElem?_eq_some_iff.mp hnames
  have hfind : (e.sections.set e.strtab { names with buf := names.buf ++ name ++ [0] }).find?
      (fun s => decide (s.Has (e.strtab_offset + names.buf.length))) =
        some { names with buf := names.buf ++ name ++ [0] } := by
    rw [List.find?_eq_some_iff_getElem]
    refine ⟨?_, e.strtab, by rw [List.length_set]; exact hlt, by simp, fun j hj => ?_⟩
    · simp only [decide_eq_true_eq, Section.Has, hstored.offset, List.length_append,
        List.length_singleton]
      omega
    · have hne : e.strtab ≠ j := by omega
      rw [List.getElem_set_ne hne]
      simpa using hstored.first j hj _ (List.getElem?_eq_getElem (by omega))
  have hdrop : (names.buf ++ name ++ [0]).drop names.buf.length = name ++ [0] := by
    rw [List.append_assoc, List.drop_left]
  have hsub : e.strtab_offset + names.buf.length - names.offset = names.buf.length := by
    rw [hstored.offset, Nat.add_sub_cancel_left]
  have hoffset : (e.pushSymbol names name st_value).offset (e.strtab_offset + names.buf.length) =
      some (name ++ [0]) := by
    rw [ElfFile.offset, pushSymbol, hfind, Option.map_some, hsub, hdrop]
  have hsym : (e.pushSymbol names name st_value).symbols[e.symbols.length]? =
      some ⟨names.buf.length, st_value⟩ := by
    simp only [pushSymbol, List.getElem?_concat_length, Nat.mod_eq_of_lt hstored.size]
  have hname : (e.pushSymbol names name st_value).strtab ≠ 0 := hstrtab
  rw [ElfFile.sym_name, if_neg hname, hsym]
  simp only
  rw [show (e.pushSymbol names name st_value).strtab_offset = e.strtab_offset from rfl, hoffset,
    Option.map_some, cstr_stored hstored.chars]

theorem AddrRight.push (h : e.AddrRight) (names : Section) (name : List Byte) (st_value : ℕ) :
    (e.pushSymbol names name st_value).AddrRight := by
  intro a i hget
  obtain ⟨sym, hsym, hvalue⟩ := h a i hget
  refine ⟨sym, ?_, hvalue⟩
  rw [pushSymbol, List.getElem?_append_left (List.getElem?_eq_some_iff.mp hsym).1]
  exact hsym

theorem add_symbol_right (haddr : e.AddrRight) (hname : e.NameRight added) {name : List Byte}
    {st_value : ℕ} (hmeets : e.AddMeets name st_value) {r : ElfFile × ℕ}
    (h : e.add_symbol name st_value = some r) :
    r.1.AddrRight ∧ r.1.NameRight ((Op.add_symbol name st_value).added e r.1 added) := by
  unfold add_symbol at h
  by_cases hnone : e.symtab = 0 ∨ e.strtab = 0
  · rw [if_pos hnone] at h
    cases h
    rw [Op.added, if_pos hnone]
    exact ⟨haddr, hname⟩
  · rw [if_neg hnone, Option.bind_eq_bind, Option.bind_eq_some_iff] at h
    obtain ⟨names, hnames, hrest⟩ := h
    obtain ⟨hsymtab, hstrtab⟩ := not_or.mp hnone
    obtain ⟨hvalue, hstored⟩ := (hmeets.resolve_left hsymtab).resolve_left hstrtab
    simp only [sym_name_added st_value hstrtab hnames (hstored names hnames), Option.bind_eq_bind,
      Option.bind_some, Option.some.injEq] at hrest
    subst hrest
    constructor
    · intro a i hget
      simp only [OrderedMap.get?_insert] at hget
      split_ifs at hget with ha
      · -- the new entry leads from the number to the value
        cases hget
        have hmap : ((e.pushSymbol names name st_value).symbols.map Sym.st_value)[st_value]? =
            some a := by
          rw [ha, pushSymbol, List.map_append]
          exact hvalue
        rw [List.getElem?_map, Option.map_eq_some_iff] at hmap
        exact hmap
      · exact haddr.push names name st_value a i hget
    · rw [Op.added, if_neg hnone]
      intro name'
      rw [latest_append]
      simp only [Function.update_apply, pushSymbol, hname name']

/-! ## Moving an address -/

theorem update_sym_addr_right {erased : Erased} (haddr : e.AddrRight) {old_addr new_addr : ℕ}
    (hmeets : e.UpdateMeets erased old_addr new_addr) :
    (e.update_sym_addr erased old_addr new_addr).AddrRight := by
  unfold update_sym_addr
  by_cases heq : old_addr = new_addr
  · rw [if_pos heq]
    exact haddr
  · rw [if_neg heq]
    cases hold : e.addr_symbol_map.get? old_addr with
    | none => exact haddr
    | some i =>
      have hread := hmeets.resolve_left heq i hold
      simp only [hread]
      obtain ⟨sym, hsym, hvalue⟩ := haddr old_addr i hold
      intro a j hget
      simp only [OrderedMap.get?_insert, OrderedMap.get?_erase] at hget ⊢
      split_ifs at hget with hnew holda
      · cases hget
        exact ⟨{ sym with st_value := new_addr }, by simp [hsym], hnew.symm⟩
      · obtain ⟨sym', hsym', hvalue'⟩ := haddr a j hget
        have hne : i ≠ j := by
          intro hij
          rw [← hij, hsym, Option.some.injEq] at hsym'
          exact holda (by rw [← hvalue', ← hsym', hvalue])
        exact ⟨sym', by simp [hne, hsym'], hvalue'⟩

theorem update_sym_addr_names (erased : Erased) (e : ElfFile) (old_addr new_addr : ℕ) :
    (e.update_sym_addr erased old_addr new_addr).name_symbol_map = e.name_symbol_map := by
  unfold update_sym_addr
  split_ifs
  · rfl
  · split <;> rfl

/-! ## The nearest address -/

theorem get?_of_entry {a i : ℕ} (h : (a, i) ∈ e.addr_symbol_map.entries) :
    e.addr_symbol_map.get? a = some i :=
  (OrderedMap.get?_eq_some_iff _).mpr h

theorem entry_of_get? {a i : ℕ} (h : e.addr_symbol_map.get? a = some i) :
    (a, i) ∈ e.addr_symbol_map.entries :=
  (OrderedMap.get?_eq_some_iff _).mp h

/-- A number is only in the index under one address. -/
theorem AddrRight.addr_unique (h : e.AddrRight) {a a' i : ℕ}
    (ha : e.addr_symbol_map.get? a = some i) (ha' : e.addr_symbol_map.get? a' = some i) :
    a = a' := by
  obtain ⟨sym, hsym, hvalue⟩ := h a i ha
  obtain ⟨sym', hsym', hvalue'⟩ := h a' i ha'
  rw [hsym, Option.some.injEq] at hsym'
  rw [← hvalue, ← hvalue', hsym']

/-- Where no address from the requested one on is indexed, nothing is found. -/
theorem nearest_none_iff {addr : ℕ} (hbound : e.addr_symbol_map.lower_bound addr = none) :
    e.NearestRight addr ↔ e.addr_symbol_map.entries = [] := by
  have hresult : e.sym_by_nearest_addr addr = none := by rw [sym_by_nearest_addr, hbound]
  have hbelow := (OrderedMap.lower_bound_eq_none_iff _).mp hbound
  constructor
  · intro hright
    rw [List.eq_nil_iff_forall_not_mem]
    intro ent hent
    have hlt := hright.none.mp hresult ent.1 ent.2 (get?_of_entry hent)
    exact absurd (hbelow ent hent) (Nat.not_lt.mpr hlt.le)
  · intro hempty
    refine ⟨iff_of_true hresult fun a i hget => ?_, fun i hi => ?_⟩
    · have hent := entry_of_get? hget
      rw [hempty] at hent
      cases hent
    · rw [hresult] at hi
      cases hi

/-- What a lookup that returns a symbol has to return. -/
theorem nearest_some_iff {addr i : ℕ} (hresult : e.sym_by_nearest_addr addr = some i) :
    e.NearestRight addr ↔
      ∃ a, e.addr_symbol_map.get? a = some i ∧ a ≤ addr ∧
        ∀ a' i', e.addr_symbol_map.get? a' = some i' → a' ≤ addr → a' ≤ a := by
  constructor
  · exact fun hright => hright.some i hresult
  · rintro ⟨a, hget, hle, hgreatest⟩
    refine ⟨iff_of_false (by rw [hresult]; exact Option.some_ne_none i) fun hall => ?_,
      fun j hj => ?_⟩
    · exact absurd (hall a i hget) (Nat.not_lt.mpr hle)
    · rw [hresult, Option.some.injEq] at hj
      subst hj
      exact ⟨a, hget, hle, hgreatest⟩

/-- An indexed address is its own nearest one. -/
theorem nearest_self {addr i j : ℕ} (haddr : e.addr_symbol_map.get? addr = some i)
    (hresult : e.sym_by_nearest_addr addr = some j) : e.NearestRight addr ↔ j = i := by
  rw [nearest_some_iff hresult]
  constructor
  · rintro ⟨a, hget, hle, hgreatest⟩
    have heq : a = addr := le_antisymm hle (hgreatest addr i haddr le_rfl)
    rw [heq, haddr, Option.some.injEq] at hget
    exact hget.symm
  · rintro rfl
    exact ⟨addr, haddr, le_rfl, fun a' i' _ hle => hle⟩

/-- The lookup where there is an address from the given one on. -/
theorem sym_by_nearest_eq {addr : ℕ} {ai : ℕ × ℕ}
    (hbound : e.addr_symbol_map.lower_bound addr = some ai) :
    e.sym_by_nearest_addr addr =
      if ai.2 = addr then some ai.2
      else some ((e.addr_symbol_map.before ai.1).elim ai.2 Prod.snd) := by
  unfold sym_by_nearest_addr
  simp only [hbound]
  cases e.addr_symbol_map.before ai.1 <;> rfl

/-- The lookup of an indexed address goes to the one before it, if there is one. -/
theorem nearest_at_iff (h : e.AddrRight) {addr : ℕ} {ai : ℕ × ℕ}
    (hbound : e.addr_symbol_map.lower_bound addr = some ai) (haddr : ai.1 = addr) :
    e.NearestRight addr ↔ ai.2 = addr ∨ e.addr_symbol_map.before addr = none := by
  have hai : e.addr_symbol_map.get? ai.1 = some ai.2 :=
    get?_of_entry (OrderedMap.lower_bound_spec _ hbound).1
  have hresult := sym_by_nearest_eq hbound
  rw [haddr] at hai hresult
  by_cases hnum : ai.2 = addr
  · rw [if_pos hnum] at hresult
    exact iff_of_true ((nearest_self hai hresult).mpr rfl) (.inl hnum)
  · rw [if_neg hnum] at hresult
    cases hbefore : e.addr_symbol_map.before addr with
    | none =>
      rw [hbefore, Option.elim_none] at hresult
      exact iff_of_true ((nearest_self hai hresult).mpr rfl) (.inr rfl)
    | some before =>
      rw [hbefore, Option.elim_some] at hresult
      obtain ⟨hbmem, hblt, -⟩ := OrderedMap.before_spec _ hbefore
      rw [nearest_self hai hresult]
      constructor
      · intro heq
        have hbget := get?_of_entry hbmem
        rw [heq] at hbget
        exact absurd (h.addr_unique hbget hai) hblt.ne
      · rintro (hnum' | hnone)
        · exact absurd hnum' hnum
        · cases hnone

/-- The lookup of an address between two that are indexed. -/
theorem nearest_below_iff (h : e.AddrRight) {addr : ℕ} {ai : ℕ × ℕ}
    (hbound : e.addr_symbol_map.lower_bound addr = some ai) (haddr : ai.1 ≠ addr) :
    e.NearestRight addr ↔ ai.2 ≠ addr ∧ e.addr_symbol_map.before ai.1 ≠ none := by
  obtain ⟨hmem, hle, hfirst⟩ := OrderedMap.lower_bound_spec _ hbound
  have hai : e.addr_symbol_map.get? ai.1 = some ai.2 := get?_of_entry hmem
  have hresult := sym_by_nearest_eq hbound
  have hlt : addr < ai.1 := lt_of_le_of_ne hle (Ne.symm haddr)
  -- the next address' symbol is never right
  have hnext : ∀ {j}, e.sym_by_nearest_addr addr = some j → j = ai.2 →
      ¬e.NearestRight addr := by
    rintro j hj rfl hright
    obtain ⟨a, hget, hale, -⟩ := (nearest_some_iff hj).mp hright
    exact absurd (h.addr_unique hget hai) (hale.trans_lt hlt).ne
  by_cases hnum : ai.2 = addr
  · rw [if_pos hnum] at hresult
    exact iff_of_false (hnext hresult rfl) fun hmeets => hmeets.1 hnum
  · rw [if_neg hnum] at hresult
    cases hbefore : e.addr_symbol_map.before ai.1 with
    | none =>
      rw [hbefore, Option.elim_none] at hresult
      exact iff_of_false (hnext hresult rfl) fun hmeets => hmeets.2 rfl
    | some before =>
      rw [hbefore, Option.elim_some] at hresult
      obtain ⟨hbmem, hblt, hlast⟩ := OrderedMap.before_spec _ hbefore
      refine iff_of_true ((nearest_some_iff hresult).mpr ⟨before.1, get?_of_entry hbmem, ?_,
        fun a' i' hget hale => ?_⟩) ⟨hnum, Option.some_ne_none before⟩
      · by_contra hgt
        exact absurd (hfirst before hbmem (Nat.le_of_not_le hgt)) (Nat.not_le.mpr hblt)
      · exact hlast _ (entry_of_get? hget) (hale.trans_lt hlt)

/-- The lookup is right exactly where the condition holds. -/
theorem nearest_right_iff (h : e.AddrRight) (addr : ℕ) :
    e.NearestRight addr ↔ e.NearestMeets addr := by
  unfold NearestMeets
  cases hbound : e.addr_symbol_map.lower_bound addr with
  | none => exact nearest_none_iff hbound
  | some ai =>
    simp only
    by_cases haddr : ai.1 = addr
    · rw [if_pos haddr]
      exact nearest_at_iff h hbound haddr
    · rw [if_neg haddr]
      exact nearest_below_iff h hbound haddr

/-! ## Runs -/

theorem step_right {erased : Erased} (haddr : e.AddrRight) (hname : e.NameRight added) {op : Op}
    (hmeets : e.StepMeets erased op) {e' : ElfFile} (hstep : e.step erased op = some e') :
    e'.AddrRight ∧ e'.NameRight (op.added e e' added) := by
  cases op with
  | load l => exact load_right hstep
  | add_symbol name st_value =>
    obtain ⟨r, hr, rfl⟩ := Option.map_eq_some_iff.mp hstep
    exact add_symbol_right haddr hname hmeets hr
  | update_sym_addr old_addr new_addr =>
    cases hstep
    refine ⟨update_sym_addr_right haddr hmeets, fun name => ?_⟩
    rw [update_sym_addr_names]
    exact hname name
  | sym_by_nearest_addr addr =>
    cases hstep
    exact ⟨haddr, hname⟩

theorem run_right {erased : Erased} (haddr : e.AddrRight) (hname : e.NameRight added)
    {ops : List Op} (hmeets : e.Meets erased ops) : e.Right erased added ops := by
  induction ops generalizing e added with
  | nil => trivial
  | cons op ops ih =>
    obtain ⟨hop, hrest⟩ := hmeets
    refine ⟨fun addr hquery => ?_, fun e' hstep => ?_⟩
    · subst hquery
      exact (nearest_right_iff haddr addr).mpr hop
    · obtain ⟨haddr', hname'⟩ := step_right haddr hname hop hstep
      exact ⟨haddr', hname', ih haddr' hname' (hrest e' hstep)⟩

end ElfFile

/-- `foo` at 0x100 and `bar` at 0x200. -/
def twoSymbols : Tables where
  symtab := 1
  strtab := 2
  strtab_offset := 0x40
  sections := [⟨0, []⟩, ⟨0x50, []⟩, ⟨0x40, [0, 0x66, 0x6f, 0x6f, 0, 0x62, 0x61, 0x72, 0]⟩]
  symbols := [⟨0, 0⟩, ⟨1, 0x100⟩, ⟨5, 0x200⟩]

def twoLoaded : ElfFile := (load (.all twoSymbols)).getD clear

theorem twoSymbols_load : load (.all twoSymbols) = some twoLoaded := rfl

end RvCkpt.Elf
