import RvCkpt.Asm.Compress

/-! # Pseudoinstructions

`decode_pseudo_inst` and `encode_pseudo` of `src/src/asm/codec.h` with their tables of
`src/src/asm/meta.cc`, and what the encoder makes of the words that are rewritten.
-/

namespace RvCkpt.Asm
set_option autoImplicit false
open BitPattern

/-! ## Tables -/

def rvcc_jal : List Constraint := [.rd_eq_ra]

def rvcc_jalr : List Constraint := [.rd_eq_ra, .imm_eq_zero]

def rvcc_nop : List Constraint := [.rd_eq_x0, .rs1_eq_x0, .imm_eq_zero]

def rvcc_mv : List Constraint := [.imm_eq_zero]

def rvcc_not : List Constraint := [.imm_eq_n1]

def rvcc_neg : List Constraint := [.rs1_eq_x0]

def rvcc_negw : List Constraint := [.rs1_eq_x0]

def rvcc_sext_w : List Constraint := [.imm_eq_zero]

def rvcc_seqz : List Constraint := [.imm_eq_p1]

def rvcc_snez : List Constraint := [.rs1_eq_x0]

def rvcc_sltz : List Constraint := [.rs2_eq_x0]

def rvcc_sgtz : List Constraint := [.rs1_eq_x0]

def rvcc_fmv_s : List Constraint := [.rs2_eq_rs1]

def rvcc_fabs_s : List Constraint := [.rs2_eq_rs1]

def rvcc_fneg_s : List Constraint := [.rs2_eq_rs1]

def rvcc_fmv_d : List Constraint := [.rs2_eq_rs1]

def rvcc_fabs_d : List Constraint := [.rs2_eq_rs1]

def rvcc_fneg_d : List Constraint := [.rs2_eq_rs1]

def rvcc_fmv_q : List Constraint := [.rs2_eq_rs1]

def rvcc_fabs_q : List Constraint := [.rs2_eq_rs1]

def rvcc_fneg_q : List Constraint := [.rs2_eq_rs1]

def rvcc_beqz : List Constraint := [.rs2_eq_x0]

def rvcc_bnez : List Constraint := [.rs2_eq_x0]

def rvcc_blez : List Constraint := [.rs1_eq_x0]

def rvcc_bgez : List Constraint := [.rs2_eq_x0]

def rvcc_bltz : List Constraint := [.rs2_eq_x0]

def rvcc_bgtz : List Constraint := [.rs1_eq_x0]

def rvcc_ble : List Constraint := []

def rvcc_bleu : List Constraint := []

def rvcc_bgt : List Constraint := []

def rvcc_bgtu : List Constraint := []

def rvcc_j : List Constraint := [.rd_eq_x0]

def rvcc_ret : List Constraint := [.rd_eq_x0, .rs1_eq_ra]

def rvcc_jr : List Constraint := [.rd_eq_x0, .imm_eq_zero]

def rvcc_rdcycle : List Constraint := [.rs1_eq_x0, .csr_eq_0xc00]

def rvcc_rdtime : List Constraint := [.rs1_eq_x0, .csr_eq_0xc01]

def rvcc_rdinstret : List Constraint := [.rs1_eq_x0, .csr_eq_0xc02]

def rvcc_rdcycleh : List Constraint := [.rs1_eq_x0, .csr_eq_0xc80]

def rvcc_rdtimeh : List Constraint := [.rs1_eq_x0, .csr_eq_0xc81]

def rvcc_rdinstreth : List Constraint := [.rs1_eq_x0, .csr_eq_0xc82]

def rvcc_frcsr : List Constraint := [.rs1_eq_x0, .csr_eq_0x003]

def rvcc_frrm : List Constraint := [.rs1_eq_x0, .csr_eq_0x002]

def rvcc_frflags : List Constraint := [.rs1_eq_x0, .csr_eq_0x001]

def rvcc_fscsr : List Constraint := [.csr_eq_0x003]

def rvcc_fsrm : List Constraint := [.csr_eq_0x002]

def rvcc_fsflags : List Constraint := [.csr_eq_0x001]

def rvcc_fsrmi : List Constraint := [.csr_eq_0x002]

def rvcc_fsflagsi : List Constraint := [.csr_eq_0x001]

/-- The pseudoinstructions of an operation, in the order in which they are tried. -/
def rv_inst_pseudo : Op → List (Op × List Constraint)
  | .jal => [(.j, rvcc_j), (.jal, rvcc_jal)]
  | .jalr => [(.ret, rvcc_ret), (.jr, rvcc_jr), (.jalr, rvcc_jalr)]
  | .beq => [(.beqz, rvcc_beqz)]
  | .bne => [(.bnez, rvcc_bnez)]
  | .blt => [(.bltz, rvcc_bltz), (.bgtz, rvcc_bgtz), (.bgt, rvcc_bgt)]
  | .bge => [(.blez, rvcc_blez), (.bgez, rvcc_bgez), (.ble, rvcc_ble)]
  | .bltu => [(.bgtu, rvcc_bgtu)]
  | .bgeu => [(.bleu, rvcc_bleu)]
  | .addi => [(.nop, rvcc_nop), (.mv, rvcc_mv)]
  | .sltiu => [(.seqz, rvcc_seqz)]
  | .xori => [(.not, rvcc_not)]
  | .sub => [(.neg, rvcc_neg)]
  | .slt => [(.sltz, rvcc_sltz), (.sgtz, rvcc_sgtz)]
  | .sltu => [(.snez, rvcc_snez)]
  | .addiw => [(.sext_w, rvcc_sext_w)]
  | .subw => [(.negw, rvcc_negw)]
  | .csrrw => [(.fscsr, rvcc_fscsr), (.fsrm, rvcc_fsrm), (.fsflags, rvcc_fsflags)]
  | .csrrs =>
    [(.rdcycle, rvcc_rdcycle), (.rdtime, rvcc_rdtime), (.rdinstret, rvcc_rdinstret),
    (.rdcycleh, rvcc_rdcycleh), (.rdtimeh, rvcc_rdtimeh), (.rdinstreth, rvcc_rdinstreth),
    (.frcsr, rvcc_frcsr), (.frrm, rvcc_frrm), (.frflags, rvcc_frflags)]
  | .csrrwi => [(.fsrmi, rvcc_fsrmi), (.fsflagsi, rvcc_fsflagsi)]
  | .fsgnj_s => [(.fmv_s, rvcc_fmv_s)]
  | .fsgnjn_s => [(.fneg_s, rvcc_fneg_s)]
  | .fsgnjx_s => [(.fabs_s, rvcc_fabs_s)]
  | .fsgnj_d => [(.fmv_d, rvcc_fmv_d)]
  | .fsgnjn_d => [(.fneg_d, rvcc_fneg_d)]
  | .fsgnjx_d => [(.fabs_d, rvcc_fabs_d)]
  | .fsgnj_q => [(.fmv_q, rvcc_fmv_q)]
  | .fsgnjn_q => [(.fneg_q, rvcc_fneg_q)]
  | .fsgnjx_q => [(.fabs_q, rvcc_fabs_q)]
  | _ => []

/-- What a pseudoinstruction stands for, `none` without constraints. -/
def rv_inst_depseudo : Op → Option (Op × List Constraint)
  | .jal => some (.jal, rvcc_jal)
  | .jalr => some (.jalr, rvcc_jalr)
  | .nop => some (.addi, rvcc_nop)
  | .mv => some (.addi, rvcc_mv)
  | .not => some (.xori, rvcc_not)
  | .neg => some (.sub, rvcc_neg)
  | .negw => some (.subw, rvcc_negw)
  | .sext_w => some (.addiw, rvcc_sext_w)
  | .seqz => some (.sltiu, rvcc_seqz)
  | .snez => some (.sltu, rvcc_snez)
  | .sltz => some (.slt, rvcc_sltz)
  | .sgtz => some (.slt, rvcc_sgtz)
  | .fmv_s => some (.fsgnj_s, rvcc_fmv_s)
  | .fabs_s => some (.fsgnjx_s, rvcc_fabs_s)
  | .fneg_s => some (.fsgnjn_s, rvcc_fneg_s)
  | .fmv_d => some (.fsgnj_d, rvcc_fmv_d)
  | .fabs_d => some (.fsgnjx_d, rvcc_fabs_d)
  | .fneg_d => some (.fsgnjn_d, rvcc_fneg_d)
  | .fmv_q => some (.fsgnj_q, rvcc_fmv_q)
  | .fabs_q => some (.fsgnjx_q, rvcc_fabs_q)
  | .fneg_q => some (.fsgnjn_q, rvcc_fneg_q)
  | .beqz => some (.beq, rvcc_beqz)
  | .bnez => some (.bne, rvcc_bnez)
  | .blez => some (.bge, rvcc_blez)
  | .bgez => some (.bge, rvcc_bgez)
  | .bltz => some (.blt, rvcc_bltz)
  | .bgtz => some (.blt, rvcc_bgtz)
  | .ble => some (.bge, rvcc_ble)
  | .bleu => some (.bgeu, rvcc_bleu)
  | .bgt => some (.blt, rvcc_bgt)
  | .bgtu => some (.bltu, rvcc_bgtu)
  | .j => some (.jal, rvcc_j)
  | .ret => some (.jalr, rvcc_ret)
  | .jr => some (.jalr, rvcc_jr)
  | .rdcycle => some (.csrrs, rvcc_rdcycle)
  | .rdtime => some (.csrrs, rvcc_rdtime)
  | .rdinstret => some (.csrrs, rvcc_rdinstret)
  | .rdcycleh => some (.csrrs, rvcc_rdcycleh)
  | .rdtimeh => some (.csrrs, rvcc_rdtimeh)
  | .rdinstreth => some (.csrrs, rvcc_rdinstreth)
  | .frcsr => some (.csrrs, rvcc_frcsr)
  | .frrm => some (.csrrs, rvcc_frrm)
  | .frflags => some (.csrrs, rvcc_frflags)
  | .fscsr => some (.csrrw, rvcc_fscsr)
  | .fsrm => some (.csrrw, rvcc_fsrm)
  | .fsflags => some (.csrrw, rvcc_fsflags)
  | .fsrmi => some (.csrrwi, rvcc_fsrmi)
  | .fsflagsi => some (.csrrwi, rvcc_fsflagsi)
  | _ => none

/-! ## Rewriting -/

/-- `decode_pseudo_inst`, `none` where it returns false. -/
def decode_pseudo_inst (dec : Decode) : Option Decode :=
  match (rv_inst_pseudo dec.op).find? fun c => constraint_check dec c.2 with
  | some c => some { dec with op := c.1, codec := rv_inst_codec c.1 }
  | none => none

def Constraint.set (dec : Decode) : Constraint → Decode
  | .rd_eq_rs1 => { dec with rd := dec.rs1 }
  | .rd_eq_ra => { dec with rd := 1 }
  | .rd_eq_sp => { dec with rd := 2 }
  | .rd_eq_x0 => { dec with rd := 0 }
  | .rs1_eq_sp => { dec with rs1 := 2 }
  | .rs1_eq_x0 => { dec with rs1 := 0 }
  | .rs2_eq_x0 => { dec with rs2 := 0 }
  | .rs2_eq_rs1 => { dec with rs2 := dec.rs1 }
  | .rs1_eq_ra => { dec with rs1 := 1 }
  | .imm_eq_zero => { dec with imm := 0 }
  | .imm_eq_n1 => { dec with imm := -1 }
  | .imm_eq_p1 => { dec with imm := 1 }
  | .csr_eq_0x001 => { dec with imm := 0x001 }
  | .csr_eq_0x002 => { dec with imm := 0x002 }
  | .csr_eq_0x003 => { dec with imm := 0x003 }
  | .csr_eq_0xc00 => { dec with imm := 0xc00 }
  | .csr_eq_0xc01 => { dec with imm := 0xc01 }
  | .csr_eq_0xc02 => { dec with imm := 0xc02 }
  | .csr_eq_0xc80 => { dec with imm := 0xc80 }
  | .csr_eq_0xc81 => { dec with imm := 0xc81 }
  | .csr_eq_0xc82 => { dec with imm := 0xc82 }
  | _ => dec

/-- `constraint_set` -/
def constraint_set (dec : Decode) (cs : List Constraint) : Decode := cs.foldl Constraint.set dec

/-- `encode_pseudo`, `none` where it returns false. -/
def encode_pseudo (dec : Decode) : Option Decode :=
  match rv_inst_depseudo dec.op with
  | some c => some (constraint_set { dec with op := c.1, codec := rv_inst_codec c.1 } c.2)
  | none => none

/-! ## Operands -/

/-- What has been checked need not be set. -/
theorem Constraint.set_of_check {dec : Decode} {c : Constraint} (h : c.check dec = true) :
    c.set dec = dec := by
  obtain ⟨imm, rd, rs1, rs2, rs3, op, codec, rm, aq, rl, pred, succ⟩ := dec
  cases c <;> simp_all [Constraint.check, Constraint.set]

theorem constraint_set_of_check {dec : Decode} {cs : List Constraint}
    (h : constraint_check dec cs = true) : constraint_set dec cs = dec := by
  induction cs with
  | nil => rfl
  | cons c cs ih =>
    rw [constraint_check, List.all_cons, Bool.and_eq_true] at h
    rw [constraint_set, List.foldl_cons, Constraint.set_of_check h.1]
    exact ih h.2

/-- The two tables agree: a pseudoinstruction stands for the operation that is rewritten to it, with
the constraints that were checked. -/
theorem pseudo_depseudo : (Op.all.all fun op => (rv_inst_pseudo op).all fun c =>
    decide (rv_inst_depseudo c.1 = some (op, c.2))) = true := by
  decide +kernel

theorem depseudo_of_mem {op : Op} {c : Op × List Constraint} (h : c ∈ rv_inst_pseudo op) :
    rv_inst_depseudo c.1 = some (op, c.2) := by
  have hop := List.all_eq_true.mp pseudo_depseudo op op.mem_all
  exact of_decide_eq_true (List.all_eq_true.mp hop c h)

theorem decode_pseudo_inst_eq_some {dec p : Decode} (h : decode_pseudo_inst dec = some p) :
    ∃ c ∈ rv_inst_pseudo dec.op, constraint_check dec c.2 = true ∧
      p = { dec with op := c.1, codec := rv_inst_codec c.1 } := by
  unfold decode_pseudo_inst at h
  cases hfind : (rv_inst_pseudo dec.op).find? fun c => constraint_check dec c.2 with
  | none =>
    rw [hfind] at h
    cases h
  | some c =>
    rw [hfind] at h
    obtain ⟨hcheck, -⟩ := List.find?_eq_some_iff_append.mp hfind
    exact ⟨c, List.mem_of_find?_eq_some hfind, hcheck, (Option.some.inj h).symm⟩

theorem decode_inst_codec (isa : Isa) (inst : BitVec 64) :
    (decode_inst isa inst).codec = rv_inst_codec (decode_inst isa inst).op := by
  rw [(decode_inst_op_codec isa inst).2, (decode_inst_op_codec isa inst).1]

theorem decompress_inst_codec (isa : Isa) (inst : BitVec 64) :
    (decompress_inst isa (decode_inst isa inst)).codec =
      rv_inst_codec (decompress_inst isa (decode_inst isa inst)).op := by
  unfold decompress_inst
  by_cases hdecomp : rv_inst_decomp isa (decode_inst isa inst).op ≠ .illegal
  · rw [if_pos hdecomp]
  · rw [if_neg hdecomp]
    exact decode_inst_codec isa inst

/-- A rewritten instruction is restored. -/
theorem encode_pseudo_decode {dec p : Decode} (hcodec : dec.codec = rv_inst_codec dec.op)
    (h : decode_pseudo_inst dec = some p) : encode_pseudo p = some dec := by
  obtain ⟨c, hmem, hcheck, rfl⟩ := decode_pseudo_inst_eq_some h
  have hback : { dec with op := dec.op, codec := rv_inst_codec dec.op } = dec := by rw [← hcodec]
  unfold encode_pseudo
  rw [show rv_inst_depseudo c.1 = some (dec.op, c.2) from depseudo_of_mem hmem]
  show some (constraint_set { dec with op := dec.op, codec := rv_inst_codec dec.op } c.2) = _
  rw [hback, constraint_set_of_check hcheck]

/-! ## Words -/

/-- The bit `i` of the words that a test lets through, where one part alone decides it. -/
def Disc.pins (d : Disc) (n i : ℕ) : Option Bool :=
  d.findSome? fun c =>
    if c.1 ≤ i ∧ d.filter (·.2.testBit (i - c.1)) = [c] then some (n.testBit (i - c.1)) else none

theorem Disc.getLsbD_value (inst : BitVec 64) (d : Disc) {j : ℕ} (hj : j < 64) :
    (d.value inst).getLsbD j = d.any fun c => inst.getLsbD (c.1 + j) && c.2.testBit j := by
  induction d with
  | nil => exact BitVec.getLsbD_zero
  | cons c d ih =>
    rw [Disc.value, BitVec.getLsbD_or, ih, BitVec.getLsbD_and, BitVec.getLsbD_ushiftRight,
      BitVec.getLsbD_ofNat, decide_eq_true hj, Bool.true_and, List.any_cons]

theorem Disc.getLsbD_of_pins {inst : BitVec 64} {d : Disc} {n i : ℕ} {b : Bool} (hi : i < 64)
    (hvalue : d.value inst = BitVec.ofNat 64 n) (hpins : d.pins n i = some b) :
    inst.getLsbD i = b := by
  obtain ⟨c, -, hc⟩ := List.exists_of_findSome?_eq_some hpins
  split at hc
  · rename_i hcond
    obtain ⟨hle, honly⟩ := hcond
    obtain rfl := Option.some.inj hc
    have hj : i - c.1 < 64 := by omega
    have hany := Disc.getLsbD_value inst d hj
    rw [hvalue, BitVec.getLsbD_ofNat, decide_eq_true hj, Bool.true_and] at hany
    have hfilter : (d.any fun e => inst.getLsbD (e.1 + (i - c.1)) && e.2.testBit (i - c.1)) =
        (d.filter (·.2.testBit (i - c.1))).any fun e => inst.getLsbD (e.1 + (i - c.1)) := by
      rw [List.any_filter]
      simp only [Bool.and_comm]
    rw [hany, hfilter, honly]
    simp [Nat.add_sub_cancel' hle]
  · cases hc

/-- The tests that are passed on the ways to an operation. -/
def Switch.paths (op : Op) : Switch → List (List (Disc × ℕ))
  | .isa rv32 rv64 rv128 => if op ∈ [rv32, rv64, rv128] then [[]] else []
  | .test d n yes no => (yes.paths op).map ((d, n) :: ·) ++ no.paths op

theorem Switch.exists_path (isa : Isa) (inst : BitVec 64) (sw : Switch) :
    ∃ path ∈ sw.paths (sw.eval isa inst), ∀ t ∈ path, t.1.value inst = BitVec.ofNat 64 t.2 := by
  induction sw with
  | isa rv32 rv64 rv128 =>
    refine ⟨[], ?_, fun t ht => absurd ht List.not_mem_nil⟩
    rw [paths, if_pos (by cases isa <;> simp [eval])]
    exact List.mem_singleton_self _
  | test d n yes no ihyes ihno =>
    rw [eval]
    by_cases hpass : d.value inst = BitVec.ofNat 64 n
    · rw [if_pos hpass]
      obtain ⟨path, hmem, hpath⟩ := ihyes
      refine ⟨(d, n) :: path, List.mem_append_left _ (List.mem_map_of_mem hmem), ?_⟩
      intro t ht
      rcases List.mem_cons.mp ht with rfl | ht
      · exact hpass
      · exact hpath t ht
    · rw [if_neg hpass]
      obtain ⟨path, hmem, hpath⟩ := ihno
      exact ⟨path, List.mem_append_right _ hmem, hpath⟩

/-- The words of 32 bits that pass the tests; the other bits are variables. -/
def wordOf (path : List (Disc × ℕ)) : Pattern Var :=
  (List.range 32).map fun i =>
    match path.findSome? fun t => t.1.pins t.2 i with
    | some b => .const b
    | none => .var (.imm, i)

def wordBit (word : BitVec 32) (v : Var) : Bool := word.getLsbD v.2

theorem models_wordOf {word : BitVec 32} {path : List (Disc × ℕ)}
    (hpath : ∀ t ∈ path, t.1.value (word.zeroExtend 64) = BitVec.ofNat 64 t.2) :
    Pattern.Models (wordBit word) (wordOf path) (word.zeroExtend 64) := by
  intro i hi
  have hbit : (word.zeroExtend 64).getLsbD i = word.getLsbD i := by simp [hi]
  rw [wordOf, get_map_range]
  by_cases hlt : i < 32
  · rw [if_pos hlt]
    cases hfind : path.findSome? fun t => t.1.pins t.2 i with
    | none => exact hbit
    | some b =>
      obtain ⟨t, ht, hpins⟩ := List.exists_of_findSome?_eq_some hfind
      exact Disc.getLsbD_of_pins hi (hpath t ht) hpins
  · rw [if_neg hlt, hbit]
    exact BitVec.getLsbD_of_ge word i (Nat.le_of_not_lt hlt)

/-- The encoder restores the words of the tests. -/
def Op.restoresWord (op : Op) (path : List (Disc × ℕ)) : Bool :=
  let s := (rv_inst_codec op).decodePat (wordOf path)
  (rv_inst_codec op).asserts.all (Assertion.holds s) && Pattern.agree 64 (op.wordPat s) (wordOf path)

theorem pseudo_words_restored : (Op.all.all fun op => (rv_inst_pseudo op).isEmpty ||
    (decode_inst_op.paths op).all op.restoresWord) = true := by
  decide +kernel

theorem encode_decode_of_pseudo {isa : Isa} {word : BitVec 32}
    (hpseudo : rv_inst_pseudo (decode_inst isa (word.zeroExtend 64)).op ≠ []) :
    encode_inst (decode_inst isa (word.zeroExtend 64)) = some (word.zeroExtend 64) := by
  obtain ⟨path, hmem, hpath⟩ :=
    Switch.exists_path isa (word.zeroExtend 64) decode_inst_op
  rw [← (decode_inst_op_codec isa _).1] at hmem
  have hword := models_wordOf hpath
  have hfields := models_decode_inst isa hword
  have htable := List.all_eq_true.mp pseudo_words_restored _
    (decode_inst isa (word.zeroExtend 64)).op.mem_all
  rw [Bool.or_eq_true, List.isEmpty_iff] at htable
  have hrest := List.all_eq_true.mp (htable.resolve_left hpseudo) path hmem
  obtain ⟨hasserts, hagree⟩ := Bool.and_eq_true_iff.mp hrest
  rw [encode_inst_of_holds hfields hasserts]
  exact congrArg some (Pattern.eq_of_agree (Op.models_word hfields _) hword hagree)

/-! ## Round trips -/

theorem rv_inst_pseudo_ne_nil {dec p : Decode} (h : decode_pseudo_inst dec = some p) :
    rv_inst_pseudo dec.op ≠ [] := by
  obtain ⟨c, hmem, -⟩ := decode_pseudo_inst_eq_some h
  exact List.ne_nil_of_mem hmem

/-- **Pseudoinstructions are restored**, with the operands and with the word. -/
theorem pseudo_round_trip (isa : Isa) :
    (∀ (inst : BitVec 64) (p : Decode),
      (decode_pseudo_inst (decode_inst isa inst) = some p →
        encode_pseudo p = some (decode_inst isa inst)) ∧
      (decode_pseudo_inst (decompress_inst isa (decode_inst isa inst)) = some p →
        encode_pseudo p = some (decompress_inst isa (decode_inst isa inst)))) ∧
    ∀ (word : BitVec 32) (p : Decode),
      decode_pseudo_inst (decode_inst isa (word.zeroExtend 64)) = some p →
        (encode_pseudo p).bind encode_inst = some (word.zeroExtend 64) := by
  refine ⟨fun inst p => ⟨?_, ?_⟩, ?_⟩
  · exact encode_pseudo_decode (decode_inst_codec isa inst)
  · exact encode_pseudo_decode (decompress_inst_codec isa inst)
  · intro word p h
    rw [encode_pseudo_decode (decode_inst_codec isa _) h]
    exact encode_decode_of_pseudo (rv_inst_pseudo_ne_nil h)

/-- `jalr zero, 0(ra)` is `ret`, and again `jalr zero, 0(ra)`. -/
theorem ret_restored : ∃ p : Decode, p.op = .ret ∧
    encode_pseudo p = some (decode_inst .rv64 0x8067) ∧
    (encode_pseudo p).bind encode_inst = some 0x8067 := by
  have hret : decode_pseudo_inst (decode_inst .rv64 ((0x8067 : BitVec 32).zeroExtend 64)) =
      some { decode_inst .rv64 0x8067 with op := .ret, codec := rv_inst_codec .ret } := by
    decide +kernel
  obtain ⟨hrecords, hwords⟩ := pseudo_round_trip .rv64
  exact ⟨_, rfl, (hrecords _ _).1 hret, hwords _ _ hret⟩

end RvCkpt.Asm
