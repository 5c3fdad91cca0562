import RvCkpt.Jit.Tracer

/-! # Fusion

`jit_fusion` of `src/src/jit/jit-fusion.h`, which looks for sequences of instructions before it
passes them on. Next to the matcher stand the sequences it is meant to find.
-/

namespace RvCkpt.Jit
open Asm
set_option autoImplicit false

inductive MatchState where
  | none | auipc | zextw | addiw | addiwz | rotw_slliw | rotw_srliw | rotw_or
  | rotd_slli | rotd_srli | rotd_or
  deriving DecidableEq, Repr

/-- The fields of `jit_fusion`. -/
structure Matcher where
  imm : BitVec 64
  rd : BitVec 8
  rs1 : BitVec 8
  rs2 : BitVec 8
  rs3 : BitVec 8
  sz : ℕ
  pseudo_pc : BitVec 64
  state : MatchState
  queue : List JitDecode
  deriving DecidableEq

/-- What the matcher makes of an instruction. -/
inductive Next where
  /-- It waits for the rest of a sequence. -/
  | queued (m : Matcher)
  /-- The sequence is complete. -/
  | fused (m : Matcher) (dec : JitDecode)
  /-- What was queued is passed on, and a sequence begins. -/
  | requeued (m : Matcher)
  /-- What was queued is passed on, and the instruction behind it. -/
  | passed

namespace Matcher

/-- The constructor of `jit_fusion`. -/
def init : Matcher := ⟨0, 0, 0, 0, 0, 0, 0, .none, []⟩

def clear_queue (m : Matcher) : Matcher := { m with state := .none, queue := [] }

def push (m : Matcher) (state : MatchState) (dec : JitDecode) : Matcher :=
  { m with state := state, queue := m.queue ++ [dec] }

/-- A sequence begins. -/
def start (m : Matcher) (dec : JitDecode) (state : MatchState) : Matcher :=
  { m with pseudo_pc := dec.pc, sz := inst_length dec.inst }.push state dec

/-- A sequence goes on. -/
def grow (m : Matcher) (dec : JitDecode) (state : MatchState) : Matcher :=
  { m with sz := m.sz + inst_length dec.inst }.push state dec

/-- A sequence is complete. -/
def fuse (m : Matcher) (dec : JitDecode) (op : JitOp) (rd rs1 rs2 : BitVec 8) (imm : BitVec 64) :
    Next :=
  .fused m.clear_queue (pseudo m.pseudo_pc dec.inst op rd rs1 rs2 imm (m.sz + inst_length dec.inst))

/-- The cases of `match_state_none`. -/
def first (m : Matcher) (dec : JitDecode) : Next :=
  match dec.op with
  | .rv .auipc =>
    .queued ({ m with rd := dec.rd, imm := dec.imm.signExtend 64 }.start dec .auipc)
  | .rv .addiw =>
    if dec.rd = dec.rs1 then
      .queued ({ m with rd := dec.rd, imm := dec.imm.signExtend 64 }.start dec .addiw)
    else .passed
  | .rv .slliw =>
    if dec.rd ≠ 0 ∧ dec.rd ≠ dec.rs1 then
      .queued ({ m with rs2 := dec.rd, rs1 := dec.rs1, imm := 32 - dec.imm.signExtend 64 }.start
        dec .rotw_srliw)
    else .passed
  | .rv .srliw =>
    if dec.rd ≠ 0 ∧ dec.rd ≠ dec.rs1 then
      .queued ({ m with rs3 := dec.rd, rs1 := dec.rs1, imm := dec.imm.signExtend 64 }.start
        dec .rotw_slliw)
    else .passed
  | .rv .slli =>
    if dec.imm = 32 then .queued ({ m with rd := dec.rd, rs1 := dec.rs1 }.start dec .zextw)
    else if dec.rd ≠ 0 ∧ dec.rd ≠ dec.rs1 then
      .queued ({ m with rs2 := dec.rd, rs1 := dec.rs1, imm := 64 - dec.imm.signExtend 64 }.start
        dec .rotd_srli)
    else .passed
  | .rv .srli =>
    if dec.rd ≠ 0 ∧ dec.rd ≠ dec.rs1 then
      .queued ({ m with rs3 := dec.rd, rs1 := dec.rs1, imm := dec.imm.signExtend 64 }.start
        dec .rotd_slli)
    else .passed
  | _ => .passed

/-- The last instruction of a rotation: `or` of the shifted halves. -/
def rotate (m : Matcher) (dec : JitDecode) (rr lr : JitOp) : Next :=
  if dec.op = .rv .or ∧ (dec.rd = m.rs2 ∨ dec.rd = m.rs3) ∧
      (dec.rs1 = m.rs2 ∧ dec.rs2 = m.rs3 ∨ dec.rs1 = m.rs3 ∧ dec.rs2 = m.rs2) then
    if dec.rd = m.rs2 then m.fuse dec rr m.rs2 m.rs1 m.rs3 m.imm
    else m.fuse dec lr m.rs3 m.rs1 m.rs2 m.imm
  else .passed

/-- The left shift of a rotation after the right one. -/
def left (m : Matcher) (dec : JitDecode) (op : JitOp) (width : BitVec 64) (state : MatchState) :
    Next :=
  if dec.op = op ∧ dec.rd ≠ 0 ∧ dec.rd ≠ m.rs3 ∧ m.rs1 = dec.rs1 ∧
      dec.imm.signExtend 64 = width - m.imm then
    .queued ({ m with rs2 := dec.rd }.grow dec state)
  else .passed

/-- The right shift of a rotation after the left one. -/
def right (m : Matcher) (dec : JitDecode) (op : JitOp) (state : MatchState) : Next :=
  if dec.op = op ∧ dec.rd ≠ 0 ∧ dec.rd ≠ m.rs2 ∧ m.rs1 = dec.rs1 ∧
      dec.imm.signExtend 64 = m.imm then
    .queued ({ m with rs3 := dec.rd }.grow dec state)
  else .passed

/-- `rd` is shifted by 32 in place. -/
def shifts32 (m : Matcher) (dec : JitDecode) (op : Asm.Op) : Bool :=
  dec.op = .rv op ∧ m.rd = dec.rd ∧ m.rd = dec.rs1 ∧ dec.imm = 32

/-- The switch of `emit`. -/
def next (m : Matcher) (dec : JitDecode) : Next :=
  match m.state with
  | .none => m.first dec
  | .addiw =>
    if m.shifts32 dec .slli then .queued (m.grow dec .addiwz)
    else if dec.op = .rv .slli ∧ dec.imm = 32 then
      .requeued ({ m.clear_queue with rd := dec.rd, rs1 := dec.rs1 }.start dec .zextw)
    else .passed
  | .addiwz => if m.shifts32 dec .srli then m.fuse dec .addiwz m.rd 0 0 m.imm else .passed
  | .auipc =>
    let imm := m.imm + dec.imm.signExtend 64
    if dec.op = .rv .addi ∧ m.rd = dec.rd ∧ m.rd = dec.rs1 then
      { m with imm := imm }.fuse dec .la dec.rs1 0 0 imm
    else if dec.op = .rv .jalr ∧ m.rd = dec.rs1 ∧ dec.rd = rv_ireg_ra then
      { m with imm := imm }.fuse dec .call dec.rs1 0 0 imm
    else if dec.op = .rv .lw ∧ m.rd = dec.rd ∧ m.rd = dec.rs1 then
      { m with imm := imm }.fuse dec .auipc_lw m.rd 0 0 imm
    else if dec.op = .rv .ld ∧ m.rd = dec.rd ∧ m.rd = dec.rs1 then
      { m with imm := imm }.fuse dec .auipc_ld m.rd 0 0 imm
    else .passed
  | .zextw => if m.shifts32 dec .srli then m.fuse dec .zextw m.rd m.rs1 0 0 else .passed
  | .rotw_slliw => m.left dec (.rv .slliw) 32 .rotw_or
  | .rotw_srliw => m.right dec (.rv .srliw) .rotw_or
  | .rotd_slli => m.left dec (.rv .slli) 64 .rotd_or
  | .rotd_srli => m.right dec (.rv .srli) .rotd_or
  | .rotw_or => m.rotate dec .rorwi_rr .rorwi_lr
  | .rotd_or => m.rotate dec .rordi_rr .rordi_lr

end Matcher

/-! ## Passing on -/

section
variable {ε : Type} (E : ε → JitDecode → ε × Bool)

/-- The matcher before an emitter. -/
structure Fusion (ε : Type) where
  m : Matcher
  e : ε

namespace Fusion

/-- `emit_queue`, which does not look at what the emitter returns. -/
def emit_queue (f : Fusion ε) : Fusion ε :=
  ⟨f.m.clear_queue, f.m.queue.foldl (fun e dec => (E e dec).1) f.e⟩

/-- `jit_fusion::emit`; the fused operation is passed on without a look at the result either. -/
def emit (f : Fusion ε) (dec : JitDecode) : Fusion ε × Bool :=
  match f.m.next dec with
  | .queued m => (⟨m, f.e⟩, true)
  | .fused m pseudo => (⟨m, (E f.e pseudo).1⟩, true)
  | .requeued m => (⟨m, (f.emit_queue E).e⟩, true)
  | .passed =>
    let f := if f.m.state = .none then f else f.emit_queue E
    let r := E f.e dec
    (⟨f.m, r.1⟩, r.2)

end Fusion

end

/-! ## Sequences -/

/-- The instruction changes a register in place. -/
structure InPlace (reg : BitVec 8) (dec : JitDecode) (op : Asm.Op) : Prop where
  op : dec.op = .rv op
  rd : dec.rd = reg
  rs1 : dec.rs1 = reg

/-- A shift to the left and one to the right of the same register, by amounts that add up to the
width. -/
structure Shifts (l r : JitDecode) : Prop where
  ops : l.op = .rv .slliw ∧ r.op = .rv .srliw ∧ l.imm.signExtend 64 + r.imm.signExtend 64 = 32 ∨
    l.op = .rv .slli ∧ r.op = .rv .srli ∧ l.imm.signExtend 64 + r.imm.signExtend 64 = 64
  rs1 : l.rs1 = r.rs1
  left : l.rd ≠ 0
  right : r.rd ≠ 0
  rd : l.rd ≠ r.rd

/-- `or` of two registers into one of them. -/
structure Joins (a b : BitVec 8) (dec : JitDecode) : Prop where
  op : dec.op = .rv .or
  rd : dec.rd = a ∨ dec.rd = b
  operands : dec.rs1 = a ∧ dec.rs2 = b ∨ dec.rs1 = b ∧ dec.rs2 = a

/-- The sequences that are fused. One that begins with `addiw` may only be fused from its second
instruction on. -/
inductive Fuses : List JitDecode → Prop
  | la {a b : JitDecode} (ha : a.op = .rv .auipc) (hb : InPlace a.rd b .addi) : Fuses [a, b]
  | call {a b : JitDecode} (ha : a.op = .rv .auipc) (hb : b.op = .rv .jalr) (hrs1 : b.rs1 = a.rd)
    (hrd : b.rd = rv_ireg_ra) : Fuses [a, b]
  | load {a b : JitDecode} (ha : a.op = .rv .auipc)
    (hb : InPlace a.rd b .lw ∨ InPlace a.rd b .ld) : Fuses [a, b]
  | zextw {a b : JitDecode} (ha : a.op = .rv .slli) (hashift : a.imm = 32)
    (hb : InPlace a.rd b .srli) (hbshift : b.imm = 32) : Fuses [a, b]
  | addiw {a b c : JitDecode} (ha : InPlace a.rd a .addiw) (hb : b.op = .rv .slli)
    (hrest : Fuses [b, c]) : Fuses [a, b, c]
  | leftRight {l r c : JitDecode} (hshifts : Shifts l r) (hsrc : l.rd ≠ l.rs1)
    (hword : l.op = .rv .slli → l.imm ≠ 32) (hjoins : Joins l.rd r.rd c) : Fuses [l, r, c]
  | rightLeft {l r c : JitDecode} (hshifts : Shifts l r) (hsrc : r.rd ≠ r.rs1)
    (hjoins : Joins l.rd r.rd c) : Fuses [r, l, c]

/-! ## What the matcher keeps to itself -/

def Next.matcher : Next → Option Matcher
  | queued m => some m
  | fused m _ => some m
  | requeued m => some m
  | passed => none

namespace Matcher

/-- The matcher after instructions none of which it passes on. -/
def absorb (m : Matcher) : List JitDecode → Option Matcher
  | [] => some m
  | dec :: decs => (m.next dec).matcher.bind fun m' => m'.absorb decs

theorem absorb_append (m : Matcher) (l l' : List JitDecode) :
    m.absorb (l ++ l') = (m.absorb l).bind fun m' => m'.absorb l' := by
  induction l generalizing m with
  | nil => rfl
  | cons dec l ih =>
    rw [List.cons_append, absorb, absorb, Option.bind_assoc]
    exact congrArg _ (funext fun m' => ih m')

/-- How many instructions a sequence lacks at most. -/
def rank (m : Matcher) : ℕ :=
  match m.state with
  | .none => 0
  | .auipc | .zextw | .addiwz | .rotw_or | .rotd_or => 1
  | .addiw | .rotw_slliw | .rotw_srliw | .rotd_slli | .rotd_srli => 2

theorem rank_zero {m : Matcher} (h : m.rank = 0) : m.state = .none := by
  unfold rank at h
  split at h <;> first | assumption | cases h

@[simp] theorem start_state (m : Matcher) (dec : JitDecode) (state : MatchState) :
    (m.start dec state).state = state := rfl

@[simp] theorem grow_state (m : Matcher) (dec : JitDecode) (state : MatchState) :
    (m.grow dec state).state = state := rfl

@[simp] theorem fuse_matcher (m : Matcher) (dec : JitDecode) (op : JitOp) (rd rs1 rs2 : BitVec 8)
    (imm : BitVec 64) : (m.fuse dec op rd rs1 rs2 imm).matcher = some m.clear_queue := rfl

theorem shifts32_iff {m : Matcher} {dec : JitDecode} {op : Asm.Op} :
    m.shifts32 dec op = true ↔ InPlace m.rd dec op ∧ dec.imm = 32 := by
  simp only [shifts32, decide_eq_true_eq]
  constructor
  · rintro ⟨hop, hrd, hrs1, himm⟩
    exact ⟨⟨hop, hrd.symm, hrs1.symm⟩, himm⟩
  · rintro ⟨h, himm⟩
    exact ⟨h.op, h.rd.symm, h.rs1.symm, himm⟩

/-- The matcher has seen the beginning of a sequence. -/
inductive Waits (m : Matcher) : List JitDecode → Prop
  | auipc {a : JitDecode} (hs : m.state = .auipc) (ha : a.op = .rv .auipc) (hrd : m.rd = a.rd) :
    Waits m [a]
  | addiw {a : JitDecode} (hs : m.state = .addiw) (ha : InPlace a.rd a .addiw)
    (hrd : m.rd = a.rd) : Waits m [a]
  | slli {a : JitDecode} (hs : m.state = .zextw) (ha : a.op = .rv .slli) (himm : a.imm = 32)
    (hrd : m.rd = a.rd) : Waits m [a]
  | addiwSlli {a b : JitDecode} (hs : m.state = .addiwz ∨ m.state = .zextw)
    (ha : InPlace a.rd a .addiw) (hb : b.op = .rv .slli) (himm : b.imm = 32)
    (hrd : m.rd = b.rd) : Waits m [a, b]
  | left {l : JitDecode}
    (hs : m.state = .rotw_srliw ∧ l.op = .rv .slliw ∧ m.imm = 32 - l.imm.signExtend 64 ∨
      m.state = .rotd_srli ∧ l.op = .rv .slli ∧ m.imm = 64 - l.imm.signExtend 64 ∧ l.imm ≠ 32)
    (hzero : l.rd ≠ 0) (hsrc : l.rd ≠ l.rs1) (hrs2 : m.rs2 = l.rd) (hrs1 : m.rs1 = l.rs1) :
    Waits m [l]
  | right {r : JitDecode}
    (hs : m.state = .rotw_slliw ∧ r.op = .rv .srliw ∨ m.state = .rotd_slli ∧ r.op = .rv .srli)
    (himm : m.imm = r.imm.signExtend 64) (hzero : r.rd ≠ 0) (hsrc : r.rd ≠ r.rs1)
    (hrs3 : m.rs3 = r.rd) (hrs1 : m.rs1 = r.rs1) : Waits m [r]
  | leftRight {l r : JitDecode} (hs : m.state = .rotw_or ∨ m.state = .rotd_or)
    (hshifts : Shifts l r) (hsrc : l.rd ≠ l.rs1) (hword : l.op = .rv .slli → l.imm ≠ 32)
    (hrs2 : m.rs2 = l.rd) (hrs3 : m.rs3 = r.rd) : Waits m [l, r]
  | rightLeft {l r : JitDecode} (hs : m.state = .rotw_or ∨ m.state = .rotd_or)
    (hshifts : Shifts l r) (hsrc : r.rd ≠ r.rs1) (hrs2 : m.rs2 = l.rd) (hrs3 : m.rs3 = r.rd) :
    Waits m [r, l]

/-- What is not passed on by an idle matcher begins a sequence. -/
theorem waits_of_first {m m' : Matcher} {dec : JitDecode} (hs : m.state = .none)
    (h : (m.next dec).matcher = some m') : Waits m' [dec] := by
  rw [next, hs] at h
  simp only [first] at h
  split at h
  · obtain rfl := Option.some.inj h
    exact .auipc rfl ‹_› rfl
  · split at h
    · obtain rfl := Option.some.inj h
      exact .addiw rfl ⟨‹_›, rfl, Eq.symm ‹_›⟩ rfl
    · cases h
  · split at h
    · rename_i hcond
      obtain rfl := Option.some.inj h
      exact .left (.inl ⟨rfl, ‹_›, rfl⟩) hcond.1 hcond.2 rfl rfl
    · cases h
  · split at h
    · rename_i hcond
      obtain rfl := Option.some.inj h
      exact .right (.inl ⟨rfl, ‹_›⟩) rfl hcond.1 hcond.2 rfl rfl
    · cases h
  · split at h
    · obtain rfl := Option.some.inj h
      exact .slli rfl ‹_› ‹_› rfl
    · split at h
      · rename_i hword hcond
        obtain rfl := Option.some.inj h
        exact .left (.inr ⟨rfl, ‹_›, rfl, hword⟩) hcond.1 hcond.2 rfl rfl
      · cases h
  · split at h
    · rename_i hcond
      obtain rfl := Option.some.inj h
      exact .right (.inr ⟨rfl, ‹_›⟩) rfl hcond.1 hcond.2 rfl rfl
    · cases h
  · cases h

theorem rotate_matcher {m m' : Matcher} {dec : JitDecode} {rr lr : JitOp}
    (h : (m.rotate dec rr lr).matcher = some m') :
    Joins m.rs2 m.rs3 dec ∧ m'.state = .none := by
  unfold rotate at h
  split at h
  · rename_i hcond
    refine ⟨⟨hcond.1, hcond.2.1, hcond.2.2⟩, ?_⟩
    split at h
    · obtain rfl := Option.some.inj h
      rfl
    · obtain rfl := Option.some.inj h
      rfl
  · cases h

theorem left_matcher {m m' : Matcher} {dec : JitDecode} {op : JitOp} {width : BitVec 64}
    {state : MatchState} (h : (m.left dec op width state).matcher = some m') :
    (dec.op = op ∧ dec.rd ≠ 0 ∧ dec.rd ≠ m.rs3 ∧ m.rs1 = dec.rs1 ∧
      dec.imm.signExtend 64 + m.imm = width) ∧
    m' = { m with rs2 := dec.rd }.grow dec state := by
  unfold left at h
  split at h
  · rename_i hcond
    obtain ⟨hop, hzero, hrd, hrs1, himm⟩ := hcond
    refine ⟨⟨hop, hzero, hrd, hrs1, ?_⟩, (Option.some.inj h).symm⟩
    rw [himm, BitVec.sub_add_cancel]
  · cases h

theorem right_matcher {m m' : Matcher} {dec : JitDecode} {op : JitOp} {state : MatchState}
    (h : (m.right dec op state).matcher = some m') :
    (dec.op = op ∧ dec.rd ≠ 0 ∧ dec.rd ≠ m.rs2 ∧ m.rs1 = dec.rs1 ∧
      dec.imm.signExtend 64 = m.imm) ∧
    m' = { m with rs3 := dec.rd }.grow dec state := by
  unfold right at h
  split at h
  · exact ⟨‹_›, (Option.some.inj h).symm⟩
  · cases h

/-- The register that was shifted left by 32 is shifted back. -/
theorem slli_step {m m' : Matcher} {b dec : JitDecode} (hs : m.state = .addiwz ∨ m.state = .zextw)
    (hb : b.op = .rv .slli) (himm : b.imm = 32) (hrd : m.rd = b.rd)
    (h : (m.next dec).matcher = some m') : Fuses [b, dec] ∧ m'.state = .none := by
  have hcases : m.shifts32 dec .srli = true ∧ m'.state = .none := by
    rcases hs with hs | hs
    · simp only [next, hs] at h
      split at h
      · obtain rfl := Option.some.inj h
        exact ⟨‹_›, rfl⟩
      · cases h
    · simp only [next, hs] at h
      split at h
      · obtain rfl := Option.some.inj h
        exact ⟨‹_›, rfl⟩
      · cases h
  obtain ⟨hplace, hshift⟩ := shifts32_iff.mp hcases.1
  exact ⟨.zextw hb himm (hrd ▸ hplace) hshift, hcases.2⟩

/-- What is not passed on goes on with the sequence or completes it. -/
theorem Waits.step {m m' : Matcher} {l : List JitDecode} {dec : JitDecode} (hw : m.Waits l)
    (h : (m.next dec).matcher = some m') :
    m'.Waits (l ++ [dec]) ∨ Fuses (l ++ [dec]) ∧ m'.state = .none := by
  cases hw with
  | auipc hs ha hrd =>
    simp only [next, hs] at h
    split at h
    · rename_i hcond
      obtain rfl := Option.some.inj h
      exact .inr ⟨.la ha ⟨hcond.1, hcond.2.1.symm.trans hrd, hcond.2.2.symm.trans hrd⟩, rfl⟩
    split at h
    · rename_i hcond
      obtain rfl := Option.some.inj h
      exact .inr ⟨.call ha hcond.1 (hcond.2.1.symm.trans hrd) hcond.2.2, rfl⟩
    split at h
    · rename_i hcond
      obtain rfl := Option.some.inj h
      exact .inr ⟨.load ha (.inl ⟨hcond.1, hcond.2.1.symm.trans hrd, hcond.2.2.symm.trans hrd⟩), rfl⟩
    split at h
    · rename_i hcond
      obtain rfl := Option.some.inj h
      exact .inr ⟨.load ha (.inr ⟨hcond.1, hcond.2.1.symm.trans hrd, hcond.2.2.symm.trans hrd⟩), rfl⟩
    · cases h
  | addiw hs ha hrd =>
    simp only [next, hs] at h
    split at h
    · rename_i hcond
      obtain ⟨hplace, himm⟩ := shifts32_iff.mp hcond
      obtain rfl := Option.some.inj h
      exact .inl (.addiwSlli (.inl rfl) ha hplace.op himm hplace.rd.symm)
    · split at h
      · rename_i hcond
        obtain rfl := Option.some.inj h
        exact .inl (.addiwSlli (.inr rfl) ha hcond.1 hcond.2 rfl)
      · cases h
  | slli hs ha himm hrd => exact .inr (slli_step (.inr hs) ha himm hrd h)
  | addiwSlli hs ha hb himm hrd =>
    obtain ⟨hrest, hnone⟩ := slli_step hs hb himm hrd h
    exact .inr ⟨.addiw ha hb hrest, hnone⟩
  | @left l hs hzero hsrc hrs2 hrs1 =>
    rcases hs with ⟨hs, hop, himm⟩ | ⟨hs, hop, himm, hword⟩
    · simp only [next, hs] at h
      obtain ⟨⟨hrop, hrzero, hrd, hsame, hrimm⟩, rfl⟩ := right_matcher h
      refine .inl (.leftRight (.inl rfl) ⟨.inl ⟨hop, hrop, ?_⟩, ?_, hzero, hrzero, ?_⟩ hsrc ?_ hrs2 rfl)
      · rw [hrimm, himm, BitVec.add_comm, BitVec.sub_add_cancel]
      · exact hrs1.symm.trans hsame
      · exact fun heq => hrd (heq.symm.trans hrs2.symm)
      · exact fun hslli => by rw [hop] at hslli; cases hslli
    · simp only [next, hs] at h
      obtain ⟨⟨hrop, hrzero, hrd, hsame, hrimm⟩, rfl⟩ := right_matcher h
      refine .inl (.leftRight (.inr rfl) ⟨.inr ⟨hop, hrop, ?_⟩, ?_, hzero, hrzero, ?_⟩ hsrc ?_ hrs2 rfl)
      · rw [hrimm, himm, BitVec.add_comm, BitVec.sub_add_cancel]
      · exact hrs1.symm.trans hsame
      · exact fun heq => hrd (heq.symm.trans hrs2.symm)
      · exact fun _ => hword
  | @right r hs himm hzero hsrc hrs3 hrs1 =>
    rcases hs with ⟨hs, hop⟩ | ⟨hs, hop⟩
    · simp only [next, hs] at h
      obtain ⟨⟨hlop, hlzero, hrd, hsame, hlimm⟩, rfl⟩ := left_matcher h
      rw [himm] at hlimm
      refine .inl (.rightLeft (.inl rfl) ⟨.inl ⟨hlop, hop, hlimm⟩, ?_, hlzero, hzero, ?_⟩ hsrc rfl hrs3)
      · exact hsame.symm.trans hrs1
      · exact fun heq => hrd (heq.trans hrs3.symm)
    · simp only [next, hs] at h
      obtain ⟨⟨hlop, hlzero, hrd, hsame, hlimm⟩, rfl⟩ := left_matcher h
      rw [himm] at hlimm
      refine .inl (.rightLeft (.inr rfl) ⟨.inr ⟨hlop, hop, hlimm⟩, ?_, hlzero, hzero, ?_⟩ hsrc rfl hrs3)
      · exact hsame.symm.trans hrs1
      · exact fun heq => hrd (heq.trans hrs3.symm)
  | leftRight hs hshifts hsrc hword hrs2 hrs3 =>
    have hrot : Joins m.rs2 m.rs3 dec ∧ m'.state = .none := by
      rcases hs with hs | hs
      all_goals
        simp only [next, hs] at h
        exact rotate_matcher h
    exact .inr ⟨.leftRight hshifts hsrc hword (hrs2 ▸ hrs3 ▸ hrot.1), hrot.2⟩
  | rightLeft hs hshifts hsrc hrs2 hrs3 =>
    have hrot : Joins m.rs2 m.rs3 dec ∧ m'.state = .none := by
      rcases hs with hs | hs
      all_goals
        simp only [next, hs] at h
        exact rotate_matcher h
    exact .inr ⟨.rightLeft hshifts hsrc (hrs2 ▸ hrs3 ▸ hrot.1), hrot.2⟩

/-- Of three instructions that an idle matcher keeps to itself, two or three are a sequence. -/
theorem fuses_of_absorb {m m' : Matcher} {a b c : JitDecode} (hs : m.state = .none)
    (h : m.absorb [a, b, c] = some m') :
    ∃ l ∈ [[a, b], [a, b, c]], Fuses l ∧ ∃ m₁, m.absorb l = some m₁ ∧ m₁.state = .none := by
  obtain ⟨m₁, h₁, hrest⟩ := Option.bind_eq_some_iff.mp h
  obtain ⟨m₂, h₂, hlast⟩ := Option.bind_eq_some_iff.mp hrest
  obtain ⟨m₃, h₃, hend⟩ := Option.bind_eq_some_iff.mp hlast
  have htwo : m.absorb [a, b] = some m₂ := by
    rw [absorb, h₁]
    show m₁.absorb [b] = _
    rw [absorb, h₂]
    rfl
  rcases (waits_of_first hs h₁).step h₂ with hw₂ | ⟨hfuses, hnone⟩
  · rcases hw₂.step h₃ with hw₃ | ⟨hfuses, hnone⟩
    · cases hw₃
    · obtain rfl := Option.some.inj hend
      exact ⟨_, List.mem_cons_of_mem _ List.mem_cons_self, hfuses, m₃, h, hnone⟩
  · exact ⟨_, List.mem_cons_self, hfuses, m₂, htwo, hnone⟩

theorem next_rank {m m' : Matcher} {dec : JitDecode} (hs : m.state ≠ .none)
    (h : (m.next dec).matcher = some m') : m'.rank < m.rank := by
  unfold next at h
  cases hstate : m.state with
  | none => exact absurd hstate hs
  | addiw =>
    simp only [hstate] at h
    split at h
    · obtain rfl := Option.some.inj h
      simp [rank, hstate]
    · split at h
      · obtain rfl := Option.some.inj h
        simp [rank, hstate]
      · cases h
  | addiwz | zextw =>
    simp only [hstate] at h
    split at h
    · obtain rfl := Option.some.inj h
      simp [rank, hstate, clear_queue]
    · cases h
  | auipc =>
    simp only [hstate] at h
    repeat' split at h
    all_goals
      first
      | cases h; done
      | obtain rfl := Option.some.inj h
        simp [rank, hstate, clear_queue]
  | rotw_slliw | rotd_slli =>
    simp only [hstate] at h
    obtain ⟨-, rfl⟩ := left_matcher h
    simp [rank, hstate]
  | rotw_srliw | rotd_srli =>
    simp only [hstate] at h
    obtain ⟨-, rfl⟩ := right_matcher h
    simp [rank, hstate]
  | rotw_or | rotd_or =>
    simp only [hstate] at h
    have hnone := (rotate_matcher h).2
    simp [rank, hstate, hnone]

end Matcher

theorem Matcher.rotate_absorbs {m : Matcher} {dec : JitDecode} (h : Joins m.rs2 m.rs3 dec)
    (rr lr : JitOp) : (m.rotate dec rr lr).matcher = some m.clear_queue := by
  rw [rotate, if_pos ⟨h.op, h.rd, h.operands⟩]
  split <;> rfl

theorem Matcher.absorb_three {m m₁ m₂ m₃ : Matcher} {a b c : JitDecode}
    (h₁ : (m.next a).matcher = some m₁) (h₂ : (m₁.next b).matcher = some m₂)
    (h₃ : (m₂.next c).matcher = some m₃) : m.absorb [a, b, c] = some m₃ := by
  simp [absorb, h₁, h₂, h₃]

/-- A rotation that begins with the left shift. -/
theorem Matcher.absorbs_leftRight {m : Matcher} {l r c : JitDecode} (hs : m.state = .none)
    (hshifts : Shifts l r) (hsrc : l.rd ≠ l.rs1) (hword : l.op = .rv .slli → l.imm ≠ 32)
    (hjoins : Joins l.rd r.rd c) : ∃ m', m.absorb [l, r, c] = some m' ∧ m'.state = .none := by
  obtain ⟨hops, hrs1, hlzero, hrzero, hrd⟩ := hshifts
  have hright {width : BitVec 64} (himm : l.imm.signExtend 64 + r.imm.signExtend 64 = width) :
      r.imm.signExtend 64 = width - l.imm.signExtend 64 := by
    rw [← himm, BitVec.add_comm, BitVec.add_sub_cancel]
  rcases hops with ⟨hl, hr, himm⟩ | ⟨hl, hr, himm⟩
  · let m₁ := { m with rs2 := l.rd, rs1 := l.rs1, imm := 32 - l.imm.signExtend 64 }.start l .rotw_srliw
    have hfirst : (m.next l).matcher = some m₁ := by
      simp only [next, hs, first, hl]
      rw [if_pos ⟨hlzero, hsrc⟩]
      rfl
    have hsecond : (m₁.next r).matcher = some ({ m₁ with rs3 := r.rd }.grow r .rotw_or) :=
      congrArg Next.matcher (if_pos ⟨hr, hrzero, hrd.symm, hrs1, hright himm⟩)
    exact ⟨_, absorb_three hfirst hsecond (rotate_absorbs hjoins _ _), rfl⟩
  · let m₁ := { m with rs2 := l.rd, rs1 := l.rs1, imm := 64 - l.imm.signExtend 64 }.start l .rotd_srli
    have hfirst : (m.next l).matcher = some m₁ := by
      simp only [next, hs, first, hl]
      rw [if_neg (hword hl), if_pos ⟨hlzero, hsrc⟩]
      rfl
    have hsecond : (m₁.next r).matcher = some ({ m₁ with rs3 := r.rd }.grow r .rotd_or) :=
      congrArg Next.matcher (if_pos ⟨hr, hrzero, hrd.symm, hrs1, hright himm⟩)
    exact ⟨_, absorb_three hfirst hsecond (rotate_absorbs hjoins _ _), rfl⟩

/-- A rotation that begins with the right shift. -/
theorem Matcher.absorbs_rightLeft {m : Matcher} {l r c : JitDecode} (hs : m.state = .none)
    (hshifts : Shifts l r) (hsrc : r.rd ≠ r.rs1) (hjoins : Joins l.rd r.rd c) :
    ∃ m', m.absorb [r, l, c] = some m' ∧ m'.state = .none := by
  obtain ⟨hops, hrs1, hlzero, hrzero, hrd⟩ := hshifts
  have hleft {width : BitVec 64} (himm : l.imm.signExtend 64 + r.imm.signExtend 64 = width) :
      l.imm.signExtend 64 = width - r.imm.signExtend 64 := by
    rw [← himm, BitVec.add_sub_cancel]
  rcases hops with ⟨hl, hr, himm⟩ | ⟨hl, hr, himm⟩
  · let m₁ := { m with rs3 := r.rd, rs1 := r.rs1, imm := r.imm.signExtend 64 }.start r .rotw_slliw
    have hfirst : (m.next r).matcher = some m₁ := by
      simp only [next, hs, first, hr]
      rw [if_pos ⟨hrzero, hsrc⟩]
      rfl
    have hsecond : (m₁.next l).matcher = some ({ m₁ with rs2 := l.rd }.grow l .rotw_or) :=
      congrArg Next.matcher (if_pos ⟨hl, hlzero, hrd, hrs1.symm, hleft himm⟩)
    exact ⟨_, absorb_three hfirst hsecond (rotate_absorbs hjoins _ _), rfl⟩
  · let m₁ := { m with rs3 := r.rd, rs1 := r.rs1, imm := r.imm.signExtend 64 }.start r .rotd_slli
    have hfirst : (m.next r).matcher = some m₁ := by
      simp only [next, hs, first, hr]
      rw [if_pos ⟨hrzero, hsrc⟩]
      rfl
    have hsecond : (m₁.next l).matcher = some ({ m₁ with rs2 := l.rd }.grow l .rotd_or) :=
      congrArg Next.matcher (if_pos ⟨hl, hlzero, hrd, hrs1.symm, hleft himm⟩)
    exact ⟨_, absorb_three hfirst hsecond (rotate_absorbs hjoins _ _), rfl⟩

/-- An idle matcher keeps a sequence to itself. -/
theorem Fuses.absorbed {l : List JitDecode} (hl : Fuses l) {m : Matcher} (hs : m.state = .none) :
    ∃ m', m.absorb l = some m' ∧ m'.state = .none := by
  cases hl with
  | la ha hb =>
    simp [Matcher.absorb, Matcher.next, hs, Matcher.first, ha, hb.op, hb.rd, hb.rs1, Next.matcher,
      Matcher.start, Matcher.push, Matcher.fuse, Matcher.clear_queue]
  | call ha hb hrs1 hrd =>
    simp [Matcher.absorb, Matcher.next, hs, Matcher.first, ha, hb, hrs1, hrd, Next.matcher,
      Matcher.start, Matcher.push, Matcher.fuse, Matcher.clear_queue]
  | load ha hb =>
    rcases hb with hb | hb
    all_goals
      simp [Matcher.absorb, Matcher.next, hs, Matcher.first, ha, hb.op, hb.rd, hb.rs1, Next.matcher,
        Matcher.start, Matcher.push, Matcher.fuse, Matcher.clear_queue]
  | zextw ha hashift hb hbshift =>
    simp [Matcher.absorb, Matcher.next, hs, Matcher.first, ha, hashift, hb.op, hb.rd, hb.rs1, hbshift,
      Next.matcher, Matcher.start, Matcher.push, Matcher.fuse, Matcher.clear_queue, Matcher.shifts32]
  | @addiw a b c ha hb hrest =>
    cases hrest with
    | la ha' _ => rw [hb] at ha'; cases ha'
    | call ha' _ _ _ => rw [hb] at ha'; cases ha'
    | load ha' _ => rw [hb] at ha'; cases ha'
    | zextw _ hbshift hc hcshift =>
      by_cases hplace : b.rd = a.rd ∧ b.rs1 = a.rd
      · simp [Matcher.absorb, Matcher.next, hs, Matcher.first, ha.op, ha.rs1, hb, hbshift, hplace.1,
          hplace.2, hc.op, hc.rd, hc.rs1, hcshift, Next.matcher, Matcher.start, Matcher.grow,
          Matcher.push, Matcher.fuse, Matcher.clear_queue, Matcher.shifts32]
      · have hnot : ¬ (a.rd = b.rd ∧ a.rd = b.rs1) := fun h => hplace ⟨h.1.symm, h.2.symm⟩
        simp [Matcher.absorb, Matcher.next, hs, Matcher.first, ha.op, ha.rs1, hb, hbshift, hnot,
          hc.op, hc.rd, hc.rs1, hcshift, Next.matcher, Matcher.start, Matcher.grow,
          Matcher.push, Matcher.fuse, Matcher.clear_queue, Matcher.shifts32]
  | leftRight hshifts hsrc hword hjoins => exact m.absorbs_leftRight hs hshifts hsrc hword hjoins
  | rightLeft hshifts hsrc hjoins => exact m.absorbs_rightLeft hs hshifts hsrc hjoins

end RvCkpt.Jit
