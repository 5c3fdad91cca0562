import RvCkpt.Meta.Bitmask

/-! # The opcode switch

`print_switch_decoder_node` and `print_switch_h` of `src/src/gen/gen-switch.cc`: the statements
that are printed for a tree, what they do, and that they follow the lists of opcodes that are left
for a word.
-/

namespace RvCkpt.Meta
set_option autoImplicit false

/-! ## Statements -/

/-- The template arguments of `decode_inst_op`. -/
structure Target where
  ext : String → Bool
  width : ℕ → Bool

/-- `if (rvX && rvN)`, where the width may be missing. -/
structure Guard where
  shortname : String
  isa_width : Option ℕ

def Guard.holds (t : Target) (g : Guard) : Bool :=
  t.ext g.shortname && g.isa_width.all t.width

inductive Stmt where
  /-- `break` -/
  | skip
  /-- `if (..) op = ..; else if (..) op = ..;` -/
  | assign (alternatives : List (Guard × rv_opcode))
  | switch (expr : List Term) (labels : List ℕ) (body : ℕ → Stmt)

/-- The value of `op` after the statement, `none` for `rv_op_illegal`. -/
def Stmt.exec (t : Target) (inst : BitVec 64) : Stmt → Option rv_opcode → Option rv_opcode
  | .skip, op => op
  | .assign alternatives, op =>
    match alternatives.find? fun a => a.1.holds t with
    | some a => some a.2
    | none => op
  | .switch expr labels body, op =>
    let val := exprValue inst.toNat expr
    if val ∈ labels ∧ val ≠ DEFAULT then (body val).exec t inst op
    else if DEFAULT ∈ labels then (body DEFAULT).exec t inst op
    else op

/-! ## Printing -/

/-- `opcode->extensions.front()` -/
def rv_opcode.front (o : rv_opcode) : rv_extension := o.extensions.head o.hasExtension

/-- The distinct widths of the opcodes of a list. -/
def opcode_widths (opcode_list : rv_opcode_list) : List ℕ :=
  (opcode_list.flatMap fun o => o.extensions.map rv_extension.isa_width).dedup

/-- The case of a list that no more bits tell apart. -/
def print_leaf (opcode_list : rv_opcode_list) : Stmt :=
  let widths := opcode_widths opcode_list
  if 1 < opcode_list.length ∧ opcode_list.length = widths.length then
    .assign (opcode_list.map fun o => (⟨o.front.shortname, some o.front.isa_width⟩, o))
  else
    match opcode_list with
    | [] => .skip
    | o :: _ =>
      .assign [(⟨o.front.shortname, if widths.length = 1 then some o.front.isa_width else none⟩, o)]

/-- `print_switch_decoder_node`. Nothing is printed for a value whose opcodes are none; of a tree
without bits a switch without labels. -/
def print_switch_decoder_node : rv_codec_node → Stmt
  | .empty => .switch [] [] fun _ => .skip
  | .mk bits vals val_opcodes val_decodes =>
    .switch (format_bitmask bits) vals fun val =>
      if (val_decodes val).bits.length = 0 ∧ 1 ≤ (val_opcodes val).length then
        print_leaf (val_opcodes val)
      else if 0 < (val_decodes val).bits.length then print_switch_decoder_node (val_decodes val)
      else .skip

/-- The function `decode_inst_op` that is printed for a table. -/
def decode_inst_op (t : Target) (all_opcodes : rv_opcode_list) (inst : BitVec 64) :
    Option rv_opcode :=
  (print_switch_decoder_node (generate_codec all_opcodes)).exec t inst none

/-! ## What is left for a word -/

/-- The opcodes whose case the word takes, those of the default where there are none. -/
def next (inst : BitVec 64) (done : List ℕ) (opcode_list : rv_opcode_list) : rv_opcode_list :=
  let bits := chosen done opcode_list
  let kept := opcode_list.filter fun o => o.val bits = literal (bits.map inst.getLsbD)
  if kept ≠ [] then kept else opcode_list.filter fun o => o.val bits = DEFAULT

/-- The opcodes that are left when no more bits are chosen. -/
def final (inst : BitVec 64) (done : List ℕ) (opcode_list : rv_opcode_list) : rv_opcode_list :=
  if _h : chosen done opcode_list = [] then opcode_list
  else final inst (done ++ chosen done opcode_list) (next inst done opcode_list)
termination_by (undone done).length
decreasing_by exact undone_lt _h

/-- The template arguments enable the operations of the list. -/
def Target.Enables (t : Target) (opcode_list : rv_opcode_list) : Prop :=
  ∀ o ∈ opcode_list, t.ext o.front.shortname = true ∧ t.width o.front.isa_width = true

section
variable {t : Target} {inst : BitVec 64} {done : List ℕ} {opcode_list : rv_opcode_list}

theorem chosen_desc : (chosen done opcode_list).Pairwise (· > ·) := by
  have hcolumns : columns.Pairwise (· > ·) := by decide
  simp only [chosen]
  split
  · exact List.Pairwise.nil
  · exact hcolumns.filter _

theorem chosen_length : (chosen done opcode_list).length ≤ kMaxInstructionWidth := by
  simp only [chosen]
  split
  · exact Nat.zero_le _
  · exact (List.length_filter_le _ _).trans (by decide)

/-- A value of chosen bits is not the default's. -/
theorem literal_ne_default (f : ℕ → Bool) :
    literal ((chosen done opcode_list).map f) ≠ DEFAULT := by
  have hlt := literal_lt ((chosen done opcode_list).map f)
  rw [List.length_map] at hlt
  have hpow : 2 ^ (chosen done opcode_list).length ≤ 2 ^ kMaxInstructionWidth :=
    Nat.pow_le_pow_right (by decide) chosen_length
  have hdefault : 2 ^ kMaxInstructionWidth ≤ DEFAULT := by decide
  omega

theorem exprValue_chosen :
    exprValue inst.toNat (format_bitmask (chosen done opcode_list)) =
      literal ((chosen done opcode_list).map inst.getLsbD) :=
  format_bitmask_value inst.toNat chosen_desc

theorem next_subset : next inst done opcode_list ⊆ opcode_list := by
  intro o ho
  simp only [next] at ho
  split at ho
  · exact List.mem_of_mem_filter ho
  · exact List.mem_of_mem_filter ho

theorem chosen_nil (done : List ℕ) : chosen done [] = [] := by
  have hmax : max_rows done [] = 0 := by
    by_contra hne
    obtain ⟨bit, -, hcov⟩ := exists_max_rows hne
    exact hne hcov.symm
  simp only [chosen, if_pos hmax]

theorem Target.Enables.mono (h : t.Enables opcode_list) {sub : rv_opcode_list}
    (hsub : sub ⊆ opcode_list) : t.Enables sub :=
  fun o ho => h o (hsub ho)

/-- Enabled operations are told apart by nothing else: the first one is returned. -/
theorem exec_print_leaf (h : t.Enables opcode_list) (op : Option rv_opcode) :
    (print_leaf opcode_list).exec t inst op = opcode_list.head?.or op := by
  simp only [print_leaf]
  split
  · cases opcode_list with
    | nil => rfl
    | cons o os =>
      have ho := h o List.mem_cons_self
      simp [Stmt.exec, Guard.holds, ho.1, ho.2]
  · cases opcode_list with
    | nil => rfl
    | cons o os =>
      have ho := h o List.mem_cons_self
      simp only [Stmt.exec, Guard.holds]
      split_ifs <;> simp [ho.1, ho.2]

theorem bits_generate_codec_node :
    (generate_codec_node done opcode_list).bits = chosen done opcode_list := by
  rw [generate_codec_node]
  split
  · rename_i h
    exact h.symm
  · rfl

theorem final_of_nil (h : chosen done opcode_list = []) :
    final inst done opcode_list = opcode_list := by
  rw [final, dif_pos h]

theorem final_of_chosen (h : chosen done opcode_list ≠ []) :
    final inst done opcode_list =
      final inst (done ++ chosen done opcode_list) (next inst done opcode_list) := by
  rw [final, dif_neg h]

theorem mem_vals {bits : List ℕ} {val : ℕ} :
    val ∈ (opcode_list.map (rv_opcode.val · bits)).dedup.mergeSort ↔
      (opcode_list.filter fun o => o.val bits = val) ≠ [] := by
  rw [List.mem_mergeSort, List.mem_dedup, List.mem_map, ne_eq, List.filter_eq_nil_iff]
  simp

/-- A printed case, or the default, returns the first opcode that is left, where the statements
of the next tree do. -/
theorem exec_body (h : t.Enables opcode_list) (hne : opcode_list ≠ [])
    (ih : chosen done opcode_list ≠ [] →
      (print_switch_decoder_node (generate_codec_node done opcode_list)).exec t inst none =
        (final inst done opcode_list).head?) :
    (if (generate_codec_node done opcode_list).bits.length = 0 ∧ 1 ≤ opcode_list.length then
        print_leaf opcode_list
      else if 0 < (generate_codec_node done opcode_list).bits.length then
        print_switch_decoder_node (generate_codec_node done opcode_list)
      else Stmt.skip).exec t inst none = (final inst done opcode_list).head? := by
  have hlen : 1 ≤ opcode_list.length := List.length_pos_iff.mpr hne
  rw [bits_generate_codec_node]
  by_cases hbits : chosen done opcode_list = []
  · rw [if_pos ⟨List.length_eq_zero_iff.mpr hbits, hlen⟩, exec_print_leaf h, final_of_nil hbits,
      Option.or_none]
  · have hpos : 0 < (chosen done opcode_list).length := List.length_pos_iff.mpr hbits
    rw [if_neg fun hzero => hpos.ne' hzero.1, if_pos hpos]
    exact ih hbits

theorem exec_node (h : t.Enables opcode_list) (hbits : chosen done opcode_list ≠ []) :
    (print_switch_decoder_node (generate_codec_node done opcode_list)).exec t inst none =
      (final inst done opcode_list).head? := by
  induction hn : (undone done).length using Nat.strongRecOn generalizing done opcode_list with
  | _ n ih =>
    have hlt : (undone (done ++ chosen done opcode_list)).length < n := hn ▸ undone_lt hbits
    have hchild : ∀ sub ⊆ opcode_list, sub ≠ [] → _ := fun sub hsub hne =>
      @exec_body t inst (done ++ chosen done opcode_list) sub (h.mono hsub) hne
        fun hb => ih _ hlt (h.mono hsub) hb rfl
    have hsub : ∀ val, (opcode_list.filter fun o => o.val (chosen done opcode_list) = val) ⊆
        opcode_list := fun val => List.filter_subset_self _
    rw [final_of_chosen hbits, generate_codec_node, dif_neg hbits, print_switch_decoder_node,
      Stmt.exec]
    simp only [exprValue_chosen, mem_vals, next]
    by_cases hkept : (opcode_list.filter fun o => o.val (chosen done opcode_list) =
        literal ((chosen done opcode_list).map inst.getLsbD)) ≠ []
    · rw [if_pos ⟨hkept, literal_ne_default _⟩, if_pos hkept]
      exact hchild _ (hsub _) hkept
    · rw [if_neg fun hv => hkept hv.1, if_neg hkept]
      by_cases hdef : (opcode_list.filter fun o =>
          o.val (chosen done opcode_list) = DEFAULT) ≠ []
      · rw [if_pos hdef]
        exact hchild _ (hsub _) hdef
      · rw [if_neg hdef, not_not.mp hdef, final_of_nil (chosen_nil _)]
        rfl

/-- The printed function returns the first opcode that is left for the word. -/
theorem decode_inst_op_eq {all_opcodes : rv_opcode_list}
    (h : t.Enables (all_opcodes.filter fun o => !o.is_pseudo))
    (hbits : chosen [] (all_opcodes.filter fun o => !o.is_pseudo) ≠ []) :
    decode_inst_op t all_opcodes inst =
      (final inst [] (all_opcodes.filter fun o => !o.is_pseudo)).head? :=
  exec_node h hbits

end

end RvCkpt.Meta
