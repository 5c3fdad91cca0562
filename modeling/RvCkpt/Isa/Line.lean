import RvCkpt.Isa.Exec

/-! # Straight lines of code

Code whose instructions read no program counter and jump only at the end. What a line does to
registers and memory is a fold of what its instructions do (`line`); a line that lies in memory and
does not overwrite itself runs as the fold says.
-/

namespace RvCkpt.Isa
open ByteMem
set_option autoImplicit false

/-! ## Instructions of a line -/

/-- What a line works on. -/
structure Data where
  ireg : Reg → BitVec 64
  freg : Reg → BitVec 64
  mem : Mem

def Data.setReg (d : Data) (rd : Reg) (v : BitVec 64) : Data :=
  { d with ireg := Function.update d.ireg rd (if rd = rv_ireg_x0 then 0 else v) }

def Data.store (d : Data) (a : ℕ) (v : BitVec 64) : Data := { d with mem := d.mem.write a 8 v }

def Machine.data (s : Machine) : Data := ⟨s.ireg, s.freg, s.mem⟩

inductive Asm where
  | lui (rd : Reg) (imm : BitVec 32)
  | addi (rd rs1 : Reg) (imm : BitVec 32)
  | ld (rd rs1 : Reg) (imm : BitVec 32)
  | sd (rs2 rs1 : Reg) (imm : BitVec 32)
  | fld (rd rs1 : Reg) (imm : BitVec 32)
  deriving DecidableEq, Repr

namespace Asm

/-- The decoded form of the instruction, in the fields it uses. -/
def Is (i : Asm) (dec : Decode) : Prop :=
  match i with
  | lui rd imm => dec.op = .lui ∧ dec.rd = rd ∧ dec.imm = imm
  | addi rd rs1 imm => dec.op = .imm .addi ∧ dec.rd = rd ∧ dec.rs1 = rs1 ∧ dec.imm = imm
  | ld rd rs1 imm => dec.op = .load .ld ∧ dec.rd = rd ∧ dec.rs1 = rs1 ∧ dec.imm = imm
  | sd rs2 rs1 imm => dec.op = .store .sd ∧ dec.rs2 = rs2 ∧ dec.rs1 = rs1 ∧ dec.imm = imm
  | fld rd rs1 imm => dec.op = .fload .d ∧ dec.rd = rd ∧ dec.rs1 = rs1 ∧ dec.imm = imm

instance (i : Asm) (dec : Decode) : Decidable (i.Is dec) := by
  cases i <;> unfold Is <;> infer_instance

def addr (d : Data) (rs1 : Reg) (imm : BitVec 32) : ℕ := (d.ireg rs1 + sx imm).toNat

def eval (i : Asm) (d : Data) : Data :=
  match i with
  | lui rd imm => d.setReg rd (sx imm)
  | addi rd rs1 imm => d.setReg rd (d.ireg rs1 + sx imm)
  | ld rd rs1 imm => d.setReg rd (d.mem.read (addr d rs1 imm) 8)
  | sd rs2 rs1 imm => d.store (addr d rs1 imm) (d.ireg rs2)
  | fld rd rs1 imm =>
    { d with freg := Function.update d.freg rd (d.mem.read (addr d rs1 imm) 8) }

end Asm

def line (is : List Asm) (d : Data) : Data := is.foldl (fun d i => i.eval d) d

@[simp] theorem line_nil (d : Data) : line [] d = d := rfl

@[simp] theorem line_cons (i : Asm) (is : List Asm) (d : Data) :
    line (i :: is) d = line is (i.eval d) := rfl

theorem line_append (is js : List Asm) (d : Data) : line (is ++ js) d = line js (line is d) := by
  rw [line, line, line, List.foldl_append]

/-- The line leaves the addresses in `K` alone at every instruction. -/
def Spares (K : ℕ → Prop) : List Asm → Data → Prop
  | [], _ => True
  | i :: is, d => (∀ a, K a → (i.eval d).mem a = d.mem a) ∧ Spares K is (i.eval d)

theorem spares_append {K : ℕ → Prop} {is js : List Asm} {d : Data} :
    Spares K (is ++ js) d ↔ Spares K is d ∧ Spares K js (line is d) := by
  induction is generalizing d with
  | nil => simp only [List.nil_append, Spares, line_nil, true_and]
  | cons i is ih => simp only [List.cons_append, Spares, line_cons, ih, and_assoc]

theorem line_spares {K : ℕ → Prop} {is : List Asm} {d : Data} (h : Spares K is d) {a : ℕ}
    (ha : K a) : (line is d).mem a = d.mem a := by
  induction is generalizing d with
  | nil => rfl
  | cons i is ih => rw [line_cons, ih h.2, h.1 a ha]

/-! ## Code in memory -/

/-- The last instruction of a block. -/
inductive Jump where
  | jal (rd : Reg) (imm : BitVec 32)
  | jalr (rd rs1 : Reg) (imm : BitVec 32)
  deriving DecidableEq, Repr

def Jump.Is (j : Jump) (dec : Decode) : Prop :=
  match j with
  | .jal rd imm => dec.op = .jal ∧ dec.rd = rd ∧ dec.imm = imm
  | .jalr rd rs1 imm => dec.op = .jalr ∧ dec.rd = rd ∧ dec.rs1 = rs1 ∧ dec.imm = imm

instance (j : Jump) (dec : Decode) : Decidable (j.Is dec) := by
  cases j <;> unfold Jump.Is <;> infer_instance

def instAt (host : Host) (m : Mem) (a : ℕ) : Decode := host.decode (instFetch m a).1

def lenAt (m : Mem) (a : ℕ) : ℕ := (instFetch m a).2

/-- The line `is` lies in memory from `a` to `e`. -/
def LineAt (host : Host) (m : Mem) : ℕ → List Asm → ℕ → Prop
  | a, [], e => a = e
  | a, i :: is, e => lenAt m a ≠ 0 ∧ i.Is (instAt host m a) ∧ LineAt host m (a + lenAt m a) is e

/-- A line and a jump lie in memory from `a` to `e`, the jump from `j` on. -/
structure BlockAt (host : Host) (m : Mem) (a : ℕ) (is : List Asm) (j : ℕ) (jump : Jump)
    (e : ℕ) : Prop where
  line : LineAt host m a is j
  jump : lenAt m j ≠ 0 ∧ jump.Is (instAt host m j) ∧ j + lenAt m j = e

instance (host : Host) (m : Mem) (a : ℕ) (is : List Asm) (e : ℕ) :
    Decidable (LineAt host m a is e) := by
  induction is generalizing a with
  | nil => exact inferInstanceAs (Decidable (a = e))
  | cons i is ih =>
    have := ih (a + lenAt m a)
    exact inferInstanceAs (Decidable (_ ∧ _ ∧ _))

/-! ## Running a line -/

/-- Whatever the clock shows, the machine gets from one state to the other. -/
def Reaches (host : Host) (s t : Machine) : Prop :=
  ∃ n, ∀ clock, run host clock n s = some t

theorem Reaches.refl (host : Host) (s : Machine) : Reaches host s s := ⟨0, fun _ => rfl⟩

theorem run_add (host : Host) (clock : ℕ → BitVec 64) (n k : ℕ) (s : Machine) :
    run host clock (n + k) s = run host clock n s >>= run host (fun i => clock (n + i)) k := by
  induction n generalizing clock s with
  | zero => simp only [Nat.zero_add, run, Option.bind_eq_bind, Option.bind_some]
  | succ n ih =>
    simp only [Nat.add_right_comm, run, Option.bind_eq_bind, Option.bind_assoc]
    congr 1
    funext s₁
    rw [ih]
    simp only [Option.bind_eq_bind]

theorem Reaches.trans {host : Host} {s t u : Machine} (h : Reaches host s t)
    (h' : Reaches host t u) : Reaches host s u := by
  obtain ⟨n, hn⟩ := h
  obtain ⟨k, hk⟩ := h'
  refine ⟨n + k, fun clock => ?_⟩
  rw [run_add, hn, Option.bind_eq_bind, Option.bind_some, hk]

theorem Reaches.single {host : Host} {s t : Machine} (h : ∀ clock, step host clock s = some t) :
    Reaches host s t := by
  refine ⟨1, fun clock => ?_⟩
  rw [run, h, Option.bind_eq_bind, Option.bind_some]
  rfl

/-! ## Steps -/

/-- The machine with the data of a line, on its way to `pc`. -/
def Machine.put (s : Machine) (d : Data) (pc : BitVec 64) : Machine :=
  { s with ireg := d.ireg, freg := d.freg, mem := d.mem, pc := pc, instret := s.instret + 1 }

@[simp] theorem put_data (s : Machine) (d : Data) (pc : BitVec 64) : (s.put d pc).data = d := rfl

@[simp] theorem put_pc (s : Machine) (d : Data) (pc : BitVec 64) : (s.put d pc).pc = pc := rfl

theorem lenAt_le (m : Mem) (a : ℕ) : lenAt m a ≤ 8 := by
  simp only [lenAt, instFetch]
  split_ifs
  · exact (by decide : 2 ≤ 8)
  · exact (by decide : 4 ≤ 8)
  · exact (by decide : 6 ≤ 8)
  · exact le_rfl
  · exact Nat.zero_le 8

theorem ofNat_ne_neg_one {n : ℕ} (h : n ≤ 8) : BitVec.ofNat 64 n ≠ -1 := by
  intro heq
  have := congrArg BitVec.toNat heq
  rw [BitVec.toNat_ofNat, show (-1 : BitVec 64).toNat = 2 ^ 64 - 1 from rfl] at this
  omega

theorem execInst_asm {host : Host} {dec : Decode} {i : Asm} (h : i.Is dec) (s : Machine)
    (off : BitVec 64) :
    execInst host dec s off =
      ({ s with
          ireg := (i.eval s.data).ireg
          freg := (i.eval s.data).freg
          mem := (i.eval s.data).mem }, off) := by
  cases i with
  | lui rd imm =>
    obtain ⟨hop, rfl, rfl⟩ := h
    simp only [execInst, hop]
    rfl
  | addi rd rs1 imm =>
    obtain ⟨hop, rfl, rfl, rfl⟩ := h
    simp only [execInst, hop]
    rfl
  | ld rd rs1 imm =>
    obtain ⟨hop, rfl, rfl, rfl⟩ := h
    simp only [execInst, hop]
    rfl
  | sd rs2 rs1 imm =>
    obtain ⟨hop, rfl, rfl, rfl⟩ := h
    simp only [execInst, hop]
    rfl
  | fld rd rs1 imm =>
    obtain ⟨hop, rfl, rfl, rfl⟩ := h
    simp only [execInst, hop]
    rfl

theorem step_eq {host : Host} {s : Machine} {a : ℕ} (ha : a < 2 ^ 64)
    (hpc : s.pc = BitVec.ofNat 64 a) (clock : BitVec 64) :
    step host clock s = execute host clock (instAt host s.mem a) (lenAt s.mem a) s := by
  rw [step, hpc, BitVec.toNat_ofNat, Nat.mod_eq_of_lt ha]
  rfl

theorem step_asm {host : Host} {s : Machine} {a : ℕ} {i : Asm} (ha : a < 2 ^ 64)
    (hpc : s.pc = BitVec.ofNat 64 a) (hi : i.Is (instAt host s.mem a)) (clock : BitVec 64) :
    step host clock s =
      some (s.put (i.eval s.data) (BitVec.ofNat 64 (a + lenAt s.mem a))) := by
  have hoff : BitVec.ofNat 64 (lenAt s.mem a) ≠ -1 := ofNat_ne_neg_one (lenAt_le _ _)
  rw [step_eq ha hpc, execute, execInst_asm hi]
  simp only [retire, hoff, ne_eq, not_false_eq_true, if_true, hpc, BitVec.ofNat_add]
  rfl

/-- The one instruction outside a line: it reads the program counter. -/
def IsAuipc (dec : Decode) (rd : Reg) (imm : BitVec 32) : Prop :=
  dec.op = .auipc ∧ dec.rd = rd ∧ dec.imm = imm

instance (dec : Decode) (rd : Reg) (imm : BitVec 32) : Decidable (IsAuipc dec rd imm) :=
  inferInstanceAs (Decidable (_ ∧ _ ∧ _))

theorem step_auipc {host : Host} {s : Machine} {a : ℕ} {rd : Reg} {imm : BitVec 32}
    (ha : a < 2 ^ 64) (hpc : s.pc = BitVec.ofNat 64 a) (hi : IsAuipc (instAt host s.mem a) rd imm)
    (clock : BitVec 64) :
    step host clock s = some (s.put (s.data.setReg rd (BitVec.ofNat 64 a + sx imm))
      (BitVec.ofNat 64 (a + lenAt s.mem a))) := by
  obtain ⟨hop, rfl, rfl⟩ := hi
  have hoff : BitVec.ofNat 64 (lenAt s.mem a) ≠ -1 := ofNat_ne_neg_one (lenAt_le _ _)
  rw [step_eq ha hpc, execute]
  simp only [execInst, hop, retire, hoff, ne_eq, not_false_eq_true, if_true, BitVec.ofNat_add]
  simp only [Machine.put, Machine.setReg, Data.setReg, Machine.data, hpc]

/-! ## Lines that spare their code -/

theorem lineAt_le {host : Host} {m : Mem} {a e : ℕ} {is : List Asm} (h : LineAt host m a is e) :
    a ≤ e := by
  induction is generalizing a with
  | nil => exact le_of_eq h
  | cons i is ih => exact (Nat.le_add_right _ _).trans (ih h.2.2)

theorem fetch_congr {m m' : Mem} {a e : ℕ} (hlen : lenAt m a ≠ 0) (hle : a + lenAt m a ≤ e)
    (hm : ∀ x, a ≤ x → x < e → m' x = m x) : instFetch m' a = instFetch m a :=
  instFetch_congr hlen fun x hlo hhi => hm x hlo (Nat.lt_of_lt_of_le hhi hle)

theorem lineAt_congr {host : Host} {m m' : Mem} {a e : ℕ} {is : List Asm}
    (hm : ∀ x, a ≤ x → x < e → m' x = m x) (h : LineAt host m a is e) :
    LineAt host m' a is e := by
  induction is generalizing a with
  | nil => exact h
  | cons i is ih =>
    obtain ⟨hlen, hi, hrest⟩ := h
    have hfetch : instFetch m' a = instFetch m a := fetch_congr hlen (lineAt_le hrest) hm
    simp only [LineAt, lenAt, instAt, hfetch]
    exact ⟨hlen, hi, ih (fun x hlo hhi => hm x ((Nat.le_add_right _ _).trans hlo) hhi) hrest⟩

theorem blockAt_congr {host : Host} {m m' : Mem} {a j e : ℕ} {is : List Asm} {jump : Jump}
    (hm : ∀ x, a ≤ x → x < e → m' x = m x) (h : BlockAt host m a is j jump e) :
    BlockAt host m' a is j jump e := by
  obtain ⟨hline, hlen, hjump, hend⟩ := h
  have hfetch : instFetch m' j = instFetch m j :=
    fetch_congr hlen hend.le fun x hlo hhi => hm x ((lineAt_le hline).trans hlo) hhi
  refine ⟨lineAt_congr (fun x hlo hhi => hm x hlo (hhi.trans_le ?_)) hline, ?_⟩
  · exact (Nat.le_add_right _ _).trans hend.le
  · simp only [lenAt, instAt, hfetch]
    exact ⟨hlen, hjump, hend⟩

theorem spares_mono {K L : ℕ → Prop} (hKL : ∀ a, L a → K a) {is : List Asm} {d : Data}
    (h : Spares K is d) : Spares L is d := by
  induction is generalizing d with
  | nil => trivial
  | cons i is ih => exact ⟨fun a ha => h.1 a (hKL a ha), ih h.2⟩

/-- A line in memory that spares its own code runs to its end. -/
theorem line_reaches {host : Host} {is : List Asm} {s : Machine} {a e : ℕ}
    (hline : LineAt host s.mem a is e) (he : e < 2 ^ 64) (hpc : s.pc = BitVec.ofNat 64 a)
    (hspare : Spares (fun x => a ≤ x ∧ x < e) is s.data) :
    ∃ t, Reaches host s t ∧ t.pc = BitVec.ofNat 64 e ∧ t.data = line is s.data := by
  induction is generalizing s a with
  | nil =>
    obtain rfl := hline
    exact ⟨s, Reaches.refl host s, hpc, rfl⟩
  | cons i is ih =>
    obtain ⟨hlen, hi, hrest⟩ := hline
    have hle := lineAt_le hrest
    have hstep := step_asm (by omega) hpc hi
    have hrest' : LineAt host (i.eval s.data).mem (a + lenAt s.mem a) is e := by
      apply lineAt_congr _ hrest
      intro x hlo hhi
      exact hspare.1 x ⟨by omega, hhi⟩
    obtain ⟨t, hreach, htpc, hdata⟩ := ih (s := s.put (i.eval s.data) _) hrest' rfl
      (spares_mono (fun x hx => ⟨by omega, hx.2⟩) hspare.2)
    exact ⟨t, (Reaches.single hstep).trans hreach, htpc, hdata⟩

/-! ## Jumps -/

/-- The link register after a jump whose next instruction is at `e`. -/
def Jump.link (jump : Jump) (e : ℕ) (d : Data) : Data :=
  match jump with
  | .jal rd _ => d.setReg rd (BitVec.ofNat 64 e)
  | .jalr rd _ _ => d.setReg rd (BitVec.ofNat 64 e)

/-- Where a jump at `j` goes. -/
def Jump.target (jump : Jump) (j : ℕ) (d : Data) : BitVec 64 :=
  match jump with
  | .jal _ imm => BitVec.ofNat 64 j + sx imm
  | .jalr _ rs1 imm => (d.ireg rs1 + sx imm) &&& ~~~1#64

/-- The offset of a `jal` is not the one that stands for an illegal instruction. -/
def Jump.Legal : Jump → Prop
  | .jal _ imm => sx imm ≠ -1
  | .jalr .. => True

theorem step_jump {host : Host} {s : Machine} {j e : ℕ} {jump : Jump} (hj : j < 2 ^ 64)
    (hpc : s.pc = BitVec.ofNat 64 j) (hjump : jump.Is (instAt host s.mem j))
    (hend : j + lenAt s.mem j = e) (heven : j % 2 = 0) (hlegal : jump.Legal)
    (clock : BitVec 64) :
    step host clock s = some (s.put (jump.link e s.data) (jump.target j s.data)) := by
  have hnext : s.pc + BitVec.ofNat 64 (lenAt s.mem j) = BitVec.ofNat 64 e := by
    rw [hpc, ← hend, BitVec.ofNat_add]
  rw [step_eq hj hpc, execute]
  cases jump with
  | jal rd imm =>
    obtain ⟨hop, rfl, rfl⟩ := hjump
    have hne : sx (instAt host s.mem j).imm ≠ -1 := hlegal
    simp only [execInst, hop, hnext, retire]
    rw [if_pos hne, if_pos hne]
    simp only [Machine.put, Jump.link, Jump.target, Machine.setReg, Data.setReg, Machine.data, hpc]
  | jalr rd rs1 imm =>
    obtain ⟨hop, rfl, rfl, rfl⟩ := hjump
    have hpar : s.pc.toNat % 2 = 0 := by
      rw [hpc, BitVec.toNat_ofNat, Nat.mod_eq_of_lt hj]
      exact heven
    obtain ⟨htarget, hne⟩ := jalr_offset (by decide) (x := s.ireg (instAt host s.mem j).rs1 +
      sx (instAt host s.mem j).imm) hpar
    simp only [execInst, hop, hnext, retire]
    rw [if_pos hne, if_pos hne]
    simp only [Machine.put, Jump.link, Jump.target, Machine.setReg, Data.setReg, Machine.data]
    rw [htarget]

/-- A block runs its line and jumps. -/
theorem block_reaches {host : Host} {is : List Asm} {jump : Jump} {s : Machine} {a j e : ℕ}
    (hblock : BlockAt host s.mem a is j jump e) (he : e < 2 ^ 64)
    (hpc : s.pc = BitVec.ofNat 64 a) (heven : j % 2 = 0) (hlegal : jump.Legal)
    (hspare : Spares (fun x => a ≤ x ∧ x < e) is s.data) :
    ∃ t, Reaches host s t ∧ t.pc = jump.target j (line is s.data) ∧
      t.data = jump.link e (line is s.data) := by
  have hje : j ≤ e := (Nat.le_add_right _ _).trans hblock.jump.2.2.le
  obtain ⟨t, hreach, htpc, hdata⟩ := line_reaches hblock.line (hje.trans_lt he) hpc
    (spares_mono (fun x hx => ⟨hx.1, hx.2.trans_le hje⟩) hspare)
  have hmem : ∀ x, a ≤ x → x < e → t.mem x = s.mem x := by
    intro x hlo hhi
    have := line_spares hspare (a := x) ⟨hlo, hhi⟩
    rw [← hdata] at this
    exact this
  obtain ⟨-, hlen, hjump, hend⟩ := blockAt_congr hmem hblock
  have hstep := step_jump (hje.trans_lt he) htpc hjump hend heven hlegal
  rw [hdata] at hstep
  exact ⟨_, hreach.trans (Reaches.single hstep), rfl, rfl⟩

end RvCkpt.Isa
