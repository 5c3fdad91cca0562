import RvCkpt.Meta.Switch

/-! # When the opcode switch decodes

Which words the printed switch decodes by the masks and matches of its table: those that the
choices of bits neither lead away from their opcode nor to one whose bits were not all compared.
-/

namespace RvCkpt.Meta
open rv_opcode
set_option autoImplicit false

/-- The answer is an operation of the word, none only where there is none, and not one that
another operation of the word specialises. -/
structure Right (opcodes : rv_opcode_list) (inst : BitVec 64) (op : Option rv_opcode) : Prop where
  sound : ∀ o, op = some o → o ∈ opcodes ∧ o.Satisfies inst
  complete : op = none → ∀ o ∈ opcodes, ¬ o.Satisfies inst
  specific : ∀ o, op = some o → ∀ o' ∈ opcodes, o'.Satisfies inst → ¬ o'.Specialises o

/-- The word takes the default of the switch. -/
def TakesDefault (inst : BitVec 64) (done : List ℕ) (opcode_list : rv_opcode_list) : Prop :=
  ∀ o ∈ opcode_list, o.val (chosen done opcode_list) ≠
    literal ((chosen done opcode_list).map inst.getLsbD)

/-- What is left of a table for the word after some choices, with the bits that were chosen and
those among them where the word took the default. -/
inductive Left (opcodes : rv_opcode_list) (inst : BitVec 64) :
    List ℕ → List ℕ → rv_opcode_list → Prop where
  | start : Left opcodes inst [] [] opcodes
  | case {done skipped opcode_list} : Left opcodes inst done skipped opcode_list →
      chosen done opcode_list ≠ [] → ¬ TakesDefault inst done opcode_list →
      Left opcodes inst (done ++ chosen done opcode_list) skipped (next inst done opcode_list)
  | default {done skipped opcode_list} : Left opcodes inst done skipped opcode_list →
      chosen done opcode_list ≠ [] → TakesDefault inst done opcode_list →
      Left opcodes inst (done ++ chosen done opcode_list) (skipped ++ chosen done opcode_list)
        (next inst done opcode_list)

/-- The choices of bits separate the word from other opcodes than its own. -/
structure Separates (opcodes : rv_opcode_list) (inst : BitVec 64) : Prop where
  /-- Some bit is fixed. -/
  root : opcodes ≠ [] → chosen [] opcodes ≠ []
  /-- Where an operation of the word is left, one is left after the next choice. -/
  keeps : ∀ done skipped opcode_list, Left opcodes inst done skipped opcode_list →
    chosen done opcode_list ≠ [] → (∃ o ∈ opcode_list, o.Satisfies inst) →
    ∃ o ∈ next inst done opcode_list, o.Satisfies inst
  /-- In the end the first opcode also has the bits of the word where the default was taken. -/
  compares : ∀ done skipped o rest, Left opcodes inst done skipped (o :: rest) →
    chosen done (o :: rest) = [] → ∀ bit ∈ skipped, o.mask.getLsbD bit = true →
    inst.getLsbD bit = o.value.getLsbD bit
  /-- And none behind it is an operation of the word that specialises it. -/
  ranks : ∀ done skipped o rest, Left opcodes inst done skipped (o :: rest) →
    chosen done (o :: rest) = [] → ∀ o' ∈ rest, o'.Satisfies inst → ¬ o'.Specialises o

section
variable {opcodes opcode_list : rv_opcode_list} {inst : BitVec 64} {done skipped : List ℕ}

theorem Left.step (h : Left opcodes inst done skipped opcode_list)
    (hbits : chosen done opcode_list ≠ []) :
    ∃ skipped', Left opcodes inst (done ++ chosen done opcode_list) skipped'
      (next inst done opcode_list) := by
  by_cases hdef : TakesDefault inst done opcode_list
  · exact ⟨_, h.default hbits hdef⟩
  · exact ⟨_, h.case hbits hdef⟩

theorem Left.final_eq (h : Left opcodes inst done skipped opcode_list) :
    final inst [] opcodes = final inst done opcode_list := by
  induction h with
  | start => rfl
  | case _ hbits _ ih => rw [ih, final_of_chosen hbits]
  | default _ hbits _ ih => rw [ih, final_of_chosen hbits]

theorem Left.subset (h : Left opcodes inst done skipped opcode_list) : opcode_list ⊆ opcodes := by
  induction h with
  | start => exact List.Subset.refl _
  | case _ _ _ ih => exact List.Subset.trans next_subset ih
  | default _ _ _ ih => exact List.Subset.trans next_subset ih

theorem final_subset (inst : BitVec 64) (done : List ℕ) (opcode_list : rv_opcode_list) :
    final inst done opcode_list ⊆ opcode_list := by
  induction hn : (undone done).length using Nat.strongRecOn generalizing done opcode_list with
  | _ n ih =>
    by_cases hbits : chosen done opcode_list = []
    · rw [final_of_nil hbits]
      exact List.Subset.refl _
    · rw [final_of_chosen hbits]
      exact List.Subset.trans (ih _ (hn ▸ undone_lt hbits) _ _ rfl) next_subset

/-- Whatever is left, the choices go on to the end. -/
theorem Left.exists_end (h : Left opcodes inst done skipped opcode_list) :
    ∃ done' skipped', Left opcodes inst done' skipped' (final inst done opcode_list) ∧
      chosen done' (final inst done opcode_list) = [] := by
  induction hn : (undone done).length using Nat.strongRecOn
    generalizing done skipped opcode_list with
  | _ n ih =>
    by_cases hbits : chosen done opcode_list = []
    · rw [final_of_nil hbits]
      exact ⟨done, skipped, h, hbits⟩
    · obtain ⟨skipped', hstep⟩ := h.step hbits
      rw [final_of_chosen hbits]
      exact ih _ (hn ▸ undone_lt hbits) hstep rfl

/-! ## Single choices -/

/-- The operations of a word that fix all chosen bits are in its case. -/
theorem val_eq_of_satisfies {o : rv_opcode} (ho : o.Satisfies inst) {bits : List ℕ}
    (hfull : bits.all o.mask.getLsbD = true) : o.val bits = literal (bits.map inst.getLsbD) := by
  rw [rv_opcode.val, if_pos hfull, literal_map_inj]
  intro bit hbit
  exact (satisfies_iff.mp ho bit (List.all_eq_true.mp hfull bit hbit)).symm

/-- An opcode of the case fixes all chosen bits, as the word has them. -/
theorem bits_of_val_eq {o : rv_opcode}
    (h : o.val (chosen done opcode_list) = literal ((chosen done opcode_list).map inst.getLsbD)) :
    (chosen done opcode_list).all o.mask.getLsbD = true ∧
      ∀ bit ∈ chosen done opcode_list, inst.getLsbD bit = o.value.getLsbD bit := by
  by_cases hfull : (chosen done opcode_list).all o.mask.getLsbD = true
  · rw [rv_opcode.val, if_pos hfull, literal_map_inj] at h
    exact ⟨hfull, fun bit hbit => (h bit hbit).symm⟩
  · rw [rv_opcode.val, if_neg hfull] at h
    exact absurd h.symm (literal_ne_default _)

theorem mem_next_of_case (hdef : ¬ TakesDefault inst done opcode_list) {o : rv_opcode} :
    o ∈ next inst done opcode_list ↔ o ∈ opcode_list ∧
      o.val (chosen done opcode_list) = literal ((chosen done opcode_list).map inst.getLsbD) := by
  have hkept : (opcode_list.filter fun o => o.val (chosen done opcode_list) =
      literal ((chosen done opcode_list).map inst.getLsbD)) ≠ [] := by
    rw [ne_eq, List.filter_eq_nil_iff]
    simpa [TakesDefault] using hdef
  simp only [next, if_pos hkept, List.mem_filter, decide_eq_true_eq]

theorem mem_next_of_default (hdef : TakesDefault inst done opcode_list) {o : rv_opcode} :
    o ∈ next inst done opcode_list ↔
      o ∈ opcode_list ∧ o.val (chosen done opcode_list) = DEFAULT := by
  have hkept : ¬ (opcode_list.filter fun o => o.val (chosen done opcode_list) =
      literal ((chosen done opcode_list).map inst.getLsbD)) ≠ [] := by
    rw [ne_eq, not_not, List.filter_eq_nil_iff]
    simpa [TakesDefault] using hdef
  simp only [next, if_neg hkept, List.mem_filter, decide_eq_true_eq]

/-- The default keeps the operations of the word. -/
theorem mem_next_of_satisfies_default (hdef : TakesDefault inst done opcode_list) {o : rv_opcode}
    (ho : o ∈ opcode_list) (hsat : o.Satisfies inst) : o ∈ next inst done opcode_list := by
  refine (mem_next_of_default hdef).mpr ⟨ho, ?_⟩
  by_cases hfull : (chosen done opcode_list).all o.mask.getLsbD = true
  · exact absurd (val_eq_of_satisfies hsat hfull) (hdef o ho)
  · rw [rv_opcode.val, if_neg hfull]

/-- What specialises an opcode that is kept is kept. -/
theorem mem_next_of_specialises {o o' : rv_opcode} (ho : o ∈ next inst done opcode_list)
    (hspec : o'.Specialises o) (ho' : o' ∈ opcode_list) (hsat : o'.Satisfies inst) :
    o' ∈ next inst done opcode_list := by
  by_cases hdef : TakesDefault inst done opcode_list
  · exact mem_next_of_satisfies_default hdef ho' hsat
  · have hfull := (bits_of_val_eq ((mem_next_of_case hdef).mp ho).2).1
    refine (mem_next_of_case hdef).mpr ⟨ho', val_eq_of_satisfies hsat ?_⟩
    exact List.all_eq_true.mpr fun bit hbit => hspec.mask (List.all_eq_true.mp hfull bit hbit)

/-- The bits of a remaining opcode are compared, unless the default was taken. -/
theorem Left.compared (h : Left opcodes inst done skipped opcode_list) {o : rv_opcode}
    (ho : o ∈ opcode_list) : ∀ bit ∈ done, bit ∈ skipped ∨
      inst.getLsbD bit = o.value.getLsbD bit := by
  induction h generalizing o with
  | start => exact fun bit hbit => absurd hbit List.not_mem_nil
  | case hleft hbits hdef ih =>
    obtain ⟨hmem, hval⟩ := (mem_next_of_case hdef).mp ho
    intro bit hbit
    rw [List.mem_append] at hbit
    rcases hbit with hbit | hbit
    · exact ih hmem bit hbit
    · exact .inr ((bits_of_val_eq hval).2 bit hbit)
  | default hleft hbits hdef ih =>
    obtain ⟨hmem, -⟩ := (mem_next_of_default hdef).mp ho
    intro bit hbit
    rw [List.mem_append] at hbit
    rcases hbit with hbit | hbit
    · exact (ih hmem bit hbit).imp_left (List.mem_append_left _)
    · exact .inl (List.mem_append_right _ hbit)

/-- In the end it is the skipped bits that decide. -/
theorem Left.satisfies_iff (h : Left opcodes inst done skipped opcode_list)
    (hbits : chosen done opcode_list = []) {o : rv_opcode} (ho : o ∈ opcode_list) :
    o.Satisfies inst ↔ ∀ bit ∈ skipped, o.mask.getLsbD bit = true →
      inst.getLsbD bit = o.value.getLsbD bit := by
  rw [rv_opcode.satisfies_iff]
  constructor
  · exact fun hsat bit _ hmask => hsat bit hmask
  · intro hskip bit hmask
    have hdone := mem_done_of_chosen_nil hbits ho hmask
    exact (h.compared ho bit hdone).elim (fun hs => hskip bit hs hmask) id

/-! ## The whole switch -/

theorem Separates.exists_final (hsep : Separates opcodes inst)
    (h : Left opcodes inst done skipped opcode_list) (hex : ∃ o ∈ opcode_list, o.Satisfies inst) :
    ∃ o ∈ final inst done opcode_list, o.Satisfies inst := by
  induction hn : (undone done).length using Nat.strongRecOn
    generalizing done skipped opcode_list with
  | _ n ih =>
    by_cases hbits : chosen done opcode_list = []
    · rwa [final_of_nil hbits]
    · obtain ⟨skipped', hstep⟩ := h.step hbits
      rw [final_of_chosen hbits]
      exact ih _ (hn ▸ undone_lt hbits) hstep (hsep.keeps _ _ _ h hbits hex) rfl

theorem mem_final_of_specialises {o o' : rv_opcode} (ho : o ∈ final inst done opcode_list)
    (hspec : o'.Specialises o) (ho' : o' ∈ opcode_list) (hsat : o'.Satisfies inst) :
    o' ∈ final inst done opcode_list := by
  induction hn : (undone done).length using Nat.strongRecOn generalizing done opcode_list with
  | _ n ih =>
    by_cases hbits : chosen done opcode_list = []
    · rwa [final_of_nil hbits]
    · rw [final_of_chosen hbits] at ho ⊢
      exact ih _ (hn ▸ undone_lt hbits) ho
        (mem_next_of_specialises (final_subset _ _ _ ho) hspec ho' hsat) rfl

theorem right_of_separates (hsep : Separates opcodes inst) :
    Right opcodes inst (final inst [] opcodes).head? := by
  have hstart : Left opcodes inst [] [] opcodes := .start
  obtain ⟨done, skipped, hend, hnil⟩ := hstart.exists_end
  refine ⟨fun o ho => ?_, fun hnone o ho hsat => ?_, fun o ho o' ho' hsat hspec => ?_⟩
  · obtain ⟨rest, hrest⟩ := List.head?_eq_some_iff.mp ho
    rw [hrest] at hend hnil
    exact ⟨hend.subset List.mem_cons_self,
      (hend.satisfies_iff hnil List.mem_cons_self).mpr (hsep.compares _ _ _ _ hend hnil)⟩
  · obtain ⟨o', ho', -⟩ := hsep.exists_final .start ⟨o, ho, hsat⟩
    rw [List.head?_eq_none_iff.mp hnone] at ho'
    exact absurd ho' List.not_mem_nil
  · obtain ⟨rest, hrest⟩ := List.head?_eq_some_iff.mp ho
    have hmem : o' ∈ final inst [] opcodes := by
      refine mem_final_of_specialises ?_ hspec ho' hsat
      rw [hrest]
      exact List.mem_cons_self
    rw [hrest] at hend hnil hmem
    rcases List.mem_cons.mp hmem with heq | hrest'
    · rw [heq] at hspec
      exact hspec.2.1 rfl
    · exact hsep.ranks _ _ _ _ hend hnil o' hrest' hsat hspec

theorem separates_of_right (hroot : chosen [] opcodes ≠ [])
    (h : Right opcodes inst (final inst [] opcodes).head?) : Separates opcodes inst := by
  refine ⟨fun _ => hroot, ?_, ?_, ?_⟩
  · intro done skipped opcode_list hleft hbits hex
    obtain ⟨o, ho, hsat⟩ := hex
    rw [hleft.final_eq, final_of_chosen hbits] at h
    cases hhead : (final inst (done ++ chosen done opcode_list)
        (next inst done opcode_list)).head? with
    | none => exact absurd hsat (h.complete hhead o (hleft.subset ho))
    | some o' =>
      exact ⟨o', final_subset _ _ _ (List.mem_of_head? hhead), (h.sound o' hhead).2⟩
  · intro done skipped o rest hleft hbits bit _ hmask
    rw [hleft.final_eq, final_of_nil hbits] at h
    exact satisfies_iff.mp (h.sound o rfl).2 bit hmask
  · intro done skipped o rest hleft hbits o' ho' hsat
    rw [hleft.final_eq, final_of_nil hbits] at h
    exact h.specific o rfl o' (hleft.subset (List.mem_cons_of_mem _ ho')) hsat

end

/-- A table that fixes no bits gives a switch without cases. -/
theorem decode_inst_op_of_nil (t : Target) {all_opcodes : rv_opcode_list}
    (h : chosen [] (all_opcodes.filter fun o => !o.is_pseudo) = []) (inst : BitVec 64) :
    decode_inst_op t all_opcodes inst = none := by
  rw [decode_inst_op, generate_codec, generate_codec_node, dif_pos h, print_switch_decoder_node]
  simp [Stmt.exec]

/-- Operations that fix no bits are operations of every word. -/
theorem satisfies_of_chosen_nil {opcodes : rv_opcode_list} (h : chosen [] opcodes = [])
    {o : rv_opcode} (ho : o ∈ opcodes) (inst : BitVec 64) : o.Satisfies inst :=
  satisfies_iff.mpr fun _ hmask =>
    absurd (mem_done_of_chosen_nil h ho hmask) List.not_mem_nil

theorem right_iff_of_chosen_nil {opcodes : rv_opcode_list} (h : chosen [] opcodes = [])
    (inst : BitVec 64) : Right opcodes inst none ↔ Separates opcodes inst := by
  have hempty : opcodes = [] → Separates opcodes inst := by
    intro hnil
    have hnone : ∀ {done skipped L}, Left opcodes inst done skipped L → L = [] := fun hleft =>
      List.eq_nil_of_subset_nil (hnil ▸ hleft.subset)
    refine ⟨fun hne => absurd hnil hne, ?_, ?_, ?_⟩
    · intro done skipped L hleft hbits
      rw [hnone hleft, chosen_nil] at hbits
      exact absurd rfl hbits
    · intro done skipped o rest hleft
      exact absurd (hnone hleft) (List.cons_ne_nil o rest)
    · intro done skipped o rest hleft
      exact absurd (hnone hleft) (List.cons_ne_nil o rest)
  constructor
  · intro hright
    refine hempty (List.eq_nil_iff_forall_not_mem.mpr fun o ho => ?_)
    exact hright.complete rfl o ho (satisfies_of_chosen_nil h ho inst)
  · intro hsep
    have hnil : opcodes = [] := by
      by_contra hne
      exact hsep.root hne h
    exact ⟨fun o ho => absurd ho (by simp), fun _ o ho => absurd ho (by simp [hnil]),
      fun o ho => absurd ho (by simp)⟩

theorem switch_exact (t : Target) (all_opcodes : rv_opcode_list)
    (henables : t.Enables (all_opcodes.filter fun o => !o.is_pseudo)) (inst : BitVec 64) :
    Right (all_opcodes.filter fun o => !o.is_pseudo) inst (decode_inst_op t all_opcodes inst) ↔
      Separates (all_opcodes.filter fun o => !o.is_pseudo) inst := by
  by_cases hroot : chosen [] (all_opcodes.filter fun o => !o.is_pseudo) = []
  · rw [decode_inst_op_of_nil t hroot]
    exact right_iff_of_chosen_nil hroot inst
  · rw [decode_inst_op_eq henables hroot]
    exact ⟨separates_of_right hroot, right_of_separates⟩

/-! ## A word that is lost -/

def exampleOpcode (name : String) (msb lsb val : ℕ) (h : msb < kMaxInstructionWidth) : rv_opcode where
  name := name
  masks := [⟨msb, lsb, val⟩]
  extensions := [⟨32, "rvi"⟩]
  fits _ hm := by
    rw [List.mem_singleton.mp hm]
    exact h
  hasExtension := List.cons_ne_nil _ _

/-- Bit 1 is chosen first; where it is clear, the third opcode is forgotten. -/
def lostTable : rv_opcode_list :=
  [exampleOpcode "a" 1 0 0 (by decide), exampleOpcode "b" 1 1 1 (by decide),
    exampleOpcode "c" 2 2 1 (by decide)]

def everyTarget : Target := ⟨fun _ => true, fun _ => true⟩

theorem everyTarget_enables (opcode_list : rv_opcode_list) : everyTarget.Enables opcode_list :=
  fun _ _ => ⟨rfl, rfl⟩

theorem switch_exact_lostTable :
    Right (lostTable.filter fun o => !o.is_pseudo) 0b101
        (decode_inst_op everyTarget lostTable 0b101) ↔
      Separates (lostTable.filter fun o => !o.is_pseudo) 0b101 :=
  switch_exact everyTarget lostTable (everyTarget_enables _) 0b101

/-- The word 5 is a word of `c`, for which the switch returns illegal. -/
theorem lostTable_not_right :
    (lostTable.map fun o => (o.mask, o.value)).Nodup ∧
      ¬ Right (lostTable.filter fun o => !o.is_pseudo) 0b101
        (decode_inst_op everyTarget lostTable 0b101) := by
  have hroot : chosen [] (lostTable.filter fun o => !o.is_pseudo) ≠ [] := by decide +kernel
  have hlost : ¬ ∃ o ∈ next 0b101 [] (lostTable.filter fun o => !o.is_pseudo),
      o.Satisfies 0b101 := by decide +kernel
  refine ⟨by decide +kernel, fun h => hlost ?_⟩
  rw [decode_inst_op_eq (everyTarget_enables _) hroot] at h
  exact (separates_of_right hroot h).keeps _ _ _ .start hroot (by decide +kernel)

end RvCkpt.Meta
