import RvCkpt.Jit.Recording
import Mathlib.Data.List.Forall2

/-! # What fusion passes on

The operations that `jit_fusion` passes on stand for the instructions that it has been given, in their
order: each for one of them, or for a sequence that it was made from.
-/

namespace RvCkpt.Jit
open Asm
set_option autoImplicit false

/-! ## Fused operations -/

/-- The bytes that instructions take. -/
def bytesOf (l : List JitDecode) : ℕ := (l.map fun dec => inst_length dec.inst).sum

theorem bytesOf_append (l l' : List JitDecode) : bytesOf (l ++ l') = bytesOf l + bytesOf l' := by
  rw [bytesOf, List.map_append, List.sum_append, bytesOf, bytesOf]

theorem bytesOf_singleton (dec : JitDecode) : bytesOf [dec] = inst_length dec.inst := by
  simp [bytesOf]

/-- What is made of an `auipc` and the instruction behind it. -/
inductive PcOp : JitDecode → JitDecode → JitOp → Prop
  | la {a b : JitDecode} (hb : InPlace a.rd b .addi) : PcOp a b .la
  | call {a b : JitDecode} (hop : b.op = .rv .jalr) (hrs1 : b.rs1 = a.rd) (hrd : b.rd = rv_ireg_ra) :
    PcOp a b .call
  | auipc_lw {a b : JitDecode} (hb : InPlace a.rd b .lw) : PcOp a b .auipc_lw
  | auipc_ld {a b : JitDecode} (hb : InPlace a.rd b .ld) : PcOp a b .auipc_ld

/-- The rotation that `l`, `r` and `c` make. -/
def rotation (l c : JitDecode) : JitOp :=
  if l.op = .rv .slliw then if c.rd = l.rd then .rorwi_rr else .rorwi_lr
  else if c.rd = l.rd then .rordi_rr else .rordi_lr

/-- A sequence of instructions and the operation that is made of it. -/
inductive FusesTo : List JitDecode → JitDecode → Prop
  | pc {a b : JitDecode} {op : JitOp} (ha : a.op = .rv .auipc) (hb : PcOp a b op) :
    FusesTo [a, b]
      (pseudo a.pc b.inst op a.rd 0 0 (a.imm.signExtend 64 + b.imm.signExtend 64) (bytesOf [a, b]))
  | zextw {a b : JitDecode} (ha : a.op = .rv .slli) (hashift : a.imm = 32)
    (hb : InPlace a.rd b .srli) (hbshift : b.imm = 32) :
    FusesTo [a, b] (pseudo a.pc b.inst .zextw a.rd a.rs1 0 0 (bytesOf [a, b]))
  | addiwz {a b c : JitDecode} (ha : InPlace a.rd a .addiw) (hb : InPlace a.rd b .slli)
    (hbshift : b.imm = 32) (hc : InPlace a.rd c .srli) (hcshift : c.imm = 32) :
    FusesTo [a, b, c]
      (pseudo a.pc c.inst .addiwz a.rd 0 0 (a.imm.signExtend 64) (bytesOf [a, b, c]))
  | rotate {l r c first second : JitDecode} (hshifts : Shifts l r) (hjoins : Joins l.rd r.rd c)
    (horder : first = l ∧ second = r ∨ first = r ∧ second = l) (hsrc : first.rd ≠ first.rs1) :
    FusesTo [first, second, c]
      (pseudo first.pc c.inst (rotation l c) c.rd l.rs1 (if c.rd = l.rd then r.rd else l.rd)
        (r.imm.signExtend 64) (bytesOf [first, second, c]))

/-! ## The matcher's notes -/

namespace Matcher

/-- The matcher has queued `l`, which begins at `first`. -/
structure Began (m : Matcher) (state : MatchState) (first : JitDecode) (l : List JitDecode) : Prop where
  state : m.state = state
  queue : m.queue = l
  pc : m.pseudo_pc = first.pc
  sz : m.sz = bytesOf l

/-- The states of the rotations: of a word or of a register. -/
inductive Rotating (l r : JitDecode) : Bool → Prop
  | word (hl : l.op = .rv .slliw) (hr : r.op = .rv .srliw)
    (himm : l.imm.signExtend 64 + r.imm.signExtend 64 = 32) : Rotating l r true
  | whole (hl : l.op = .rv .slli) (hr : r.op = .rv .srli)
    (himm : l.imm.signExtend 64 + r.imm.signExtend 64 = 64) : Rotating l r false

def rotateState (word : Bool) : MatchState := if word then .rotw_or else .rotd_or

/-- What the matcher knows of its queue. -/
inductive Held (m : Matcher) : List JitDecode → Prop
  | idle (hs : m.state = .none) (hqueue : m.queue = []) : Held m []
  | auipc {a : JitDecode} (h : m.Began .auipc a [a]) (ha : a.op = .rv .auipc) (hrd : m.rd = a.rd)
    (himm : m.imm = a.imm.signExtend 64) : Held m [a]
  | addiw {a : JitDecode} (h : m.Began .addiw a [a]) (ha : InPlace a.rd a .addiw) (hrd : m.rd = a.rd)
    (himm : m.imm = a.imm.signExtend 64) : Held m [a]
  | zextw {a : JitDecode} (h : m.Began .zextw a [a]) (ha : a.op = .rv .slli) (hshift : a.imm = 32)
    (hrd : m.rd = a.rd) (hrs1 : m.rs1 = a.rs1) : Held m [a]
  | addiwz {a b : JitDecode} (h : m.Began .addiwz a [a, b]) (ha : InPlace a.rd a .addiw)
    (hb : InPlace a.rd b .slli) (hbshift : b.imm = 32) (hrd : m.rd = a.rd)
    (himm : m.imm = a.imm.signExtend 64) : Held m [a, b]
  | left {l : JitDecode} {state : MatchState} (h : m.Began state l [l])
    (hs : state = .rotw_srliw ∧ l.op = .rv .slliw ∧ m.imm = 32 - l.imm.signExtend 64 ∨
      state = .rotd_srli ∧ l.op = .rv .slli ∧ m.imm = 64 - l.imm.signExtend 64)
    (hzero : l.rd ≠ 0) (hsrc : l.rd ≠ l.rs1) (hrs2 : m.rs2 = l.rd) (hrs1 : m.rs1 = l.rs1) : Held m [l]
  | right {r : JitDecode} {state : MatchState} (h : m.Began state r [r])
    (hs : state = .rotw_slliw ∧ r.op = .rv .srliw ∨ state = .rotd_slli ∧ r.op = .rv .srli)
    (himm : m.imm = r.imm.signExtend 64) (hzero : r.rd ≠ 0) (hsrc : r.rd ≠ r.rs1)
    (hrs3 : m.rs3 = r.rd) (hrs1 : m.rs1 = r.rs1) : Held m [r]
  | rotate {l r first second : JitDecode} {word : Bool}
    (h : m.Began (rotateState word) first [first, second]) (hword : Rotating l r word)
    (hshifts : Shifts l r) (horder : first = l ∧ second = r ∨ first = r ∧ second = l)
    (hsrc : first.rd ≠ first.rs1) (himm : m.imm = r.imm.signExtend 64) (hrs1 : m.rs1 = l.rs1)
    (hrs2 : m.rs2 = l.rd) (hrs3 : m.rs3 = r.rd) : Held m [first, second]

variable {m m₁ : Matcher} {a b dec first : JitDecode} {l : List JitDecode} {state : MatchState}

theorem Held.queue (h : m.Held l) : m.queue = l := by
  cases h with
  | idle _ hqueue => exact hqueue
  | auipc h | addiw h | zextw h | addiwz h | left h | right h | rotate h => exact h.queue

theorem Held.clear_queue (m : Matcher) : m.clear_queue.Held [] := .idle rfl rfl

theorem Held.of_state_none (h : m.Held l) (hs : m.state = .none) : l = [] := by
  cases h with
  | idle => rfl
  | auipc h | addiw h | zextw h | addiwz h => exact absurd (h.state.symm.trans hs) (by decide)
  | left h hcase =>
    rcases hcase with ⟨rfl, -⟩ | ⟨rfl, -⟩ <;> exact absurd (h.state.symm.trans hs) (by decide)
  | right h hcase =>
    rcases hcase with ⟨rfl, -⟩ | ⟨rfl, -⟩ <;> exact absurd (h.state.symm.trans hs) (by decide)
  | @rotate _ _ _ _ word h => cases word <;> exact absurd (h.state.symm.trans hs) (by decide)

theorem began_start (hqueue : m.queue = []) (dec : JitDecode) (state : MatchState) :
    (m.start dec state).Began state dec [dec] :=
  ⟨rfl, by rw [start, push]; exact congrArg (· ++ [dec]) hqueue, rfl, (bytesOf_singleton dec).symm⟩

theorem Began.grow (h : m.Began state first l) (dec : JitDecode) (state' : MatchState)
    (hqueue : m₁.queue = m.queue) (hpc : m₁.pseudo_pc = m.pseudo_pc) (hsz : m₁.sz = m.sz) :
    (m₁.grow dec state').Began state' first (l ++ [dec]) := by
  refine ⟨rfl, ?_, hpc.trans h.pc, ?_⟩
  · rw [Matcher.grow, push]
    exact congrArg (· ++ [dec]) (hqueue.trans h.queue)
  · rw [bytesOf_append, bytesOf_singleton, ← h.sz, ← hsz]
    rfl

/-- The matcher after an instruction, with the operation that it passes on, if it passes on one. -/
def Keeps (l : List JitDecode) (dec : JitDecode) : Next → Prop
  | .queued m => m.Held (l ++ [dec])
  | .fused m pseudo => m.Held [] ∧ FusesTo (l ++ [dec]) pseudo
  | .requeued m => m.Held [dec]
  | .passed => True

/-- An operation is fused as the notes say. -/
theorem Began.fuse (h : m.Began state first l) (hqueue : m₁.pseudo_pc = m.pseudo_pc)
    (hsz : m₁.sz = m.sz) {op : JitOp} {rd rs1 rs2 : BitVec 8} {imm : BitVec 64}
    (hfuses : FusesTo (l ++ [dec])
      (pseudo first.pc dec.inst op rd rs1 rs2 imm (bytesOf (l ++ [dec])))) :
    Keeps l dec (m₁.fuse dec op rd rs1 rs2 imm) := by
  refine ⟨.clear_queue m₁, ?_⟩
  rw [bytesOf_append, bytesOf_singleton, ← h.sz, ← h.pc, ← hqueue, ← hsz] at hfuses
  exact hfuses

theorem keeps_first (hqueue : m.queue = []) (dec : JitDecode) : Keeps [] dec (m.first dec) := by
  have hbegan : ∀ {m₁ : Matcher} {state : MatchState}, m₁.queue = m.queue →
      (m₁.start dec state).Began state dec [dec] := fun h => began_start (h.trans hqueue) dec _
  unfold first
  split
  · exact .auipc (hbegan rfl) ‹_› rfl rfl
  · split
    · exact .addiw (hbegan rfl) ⟨‹_›, rfl, Eq.symm ‹_›⟩ rfl rfl
    · trivial
  · split
    · exact .left (hbegan rfl) (.inl ⟨rfl, ‹_›, rfl⟩) (And.left ‹_›) (And.right ‹_›) rfl rfl
    · trivial
  · split
    · exact .right (hbegan rfl) (.inl ⟨rfl, ‹_›⟩) rfl (And.left ‹_›) (And.right ‹_›) rfl rfl
    · trivial
  · split
    · exact .zextw (hbegan rfl) ‹_› ‹_› rfl rfl
    · split
      · exact .left (hbegan rfl) (.inr ⟨rfl, ‹_›, rfl⟩) (And.left ‹_›) (And.right ‹_›) rfl rfl
      · trivial
  · split
    · exact .right (hbegan rfl) (.inr ⟨rfl, ‹_›⟩) rfl (And.left ‹_›) (And.right ‹_›) rfl rfl
    · trivial
  · trivial

/-- The right shift behind the left one. -/
theorem keeps_right {op : JitOp} (word : Bool) (h : m.Began state a [a]) (hzero : a.rd ≠ 0)
    (hsrc : a.rd ≠ a.rs1) (hrs2 : m.rs2 = a.rd) (hrs1 : m.rs1 = a.rs1)
    (hword : dec.op = op → dec.imm.signExtend 64 = m.imm → Rotating a dec word) :
    Keeps [a] dec (m.right dec op (rotateState word)) := by
  unfold right
  split
  · obtain ⟨hop, hdec, hrd, hsame, himm⟩ := ‹_ ∧ _›
    have hrot := hword hop himm
    refine .rotate (h.grow dec _ rfl rfl rfl) hrot ⟨?_, hrs1.symm.trans hsame, hzero, hdec, ?_⟩
      (.inl ⟨rfl, rfl⟩) hsrc himm.symm hrs1 hrs2 rfl
    · cases hrot with
      | word hl hr himm => exact .inl ⟨hl, hr, himm⟩
      | whole hl hr himm => exact .inr ⟨hl, hr, himm⟩
    · exact fun heq => hrd (heq.symm.trans hrs2.symm)
  · trivial

/-- The left shift behind the right one. -/
theorem keeps_left {op : JitOp} {width : BitVec 64} (word : Bool) (h : m.Began state a [a])
    (himm : m.imm = a.imm.signExtend 64) (hzero : a.rd ≠ 0) (hsrc : a.rd ≠ a.rs1)
    (hrs3 : m.rs3 = a.rd) (hrs1 : m.rs1 = a.rs1)
    (hword : dec.op = op → dec.imm.signExtend 64 = width - m.imm → Rotating dec a word) :
    Keeps [a] dec (m.left dec op width (rotateState word)) := by
  unfold left
  split
  · obtain ⟨hop, hdec, hrd, hsame, hshift⟩ := ‹_ ∧ _›
    have hrot := hword hop hshift
    refine .rotate (h.grow dec _ rfl rfl rfl) hrot ⟨?_, hsame.symm.trans hrs1, hdec, hzero, ?_⟩
      (.inr ⟨rfl, rfl⟩) hsrc himm hsame rfl hrs3
    · cases hrot with
      | word hl hr himm => exact .inl ⟨hl, hr, himm⟩
      | whole hl hr himm => exact .inr ⟨hl, hr, himm⟩
    · exact fun heq => hrd (heq.trans hrs3.symm)
  · trivial

/-- The `or` behind the shifts. -/
theorem keeps_rotate {l r first second : JitDecode} {rr lr : JitOp}
    (h : m.Began state first [first, second]) (hshifts : Shifts l r)
    (horder : first = l ∧ second = r ∨ first = r ∧ second = l) (hsrc : first.rd ≠ first.rs1)
    (himm : m.imm = r.imm.signExtend 64) (hrs1 : m.rs1 = l.rs1) (hrs2 : m.rs2 = l.rd)
    (hrs3 : m.rs3 = r.rd) (hop : rotation l dec = if dec.rd = l.rd then rr else lr) :
    Keeps [first, second] dec (m.rotate dec rr lr) := by
  unfold rotate
  split
  · obtain ⟨hor, hrd, hoperands⟩ := ‹_ ∧ _›
    rw [hrs2, hrs3] at hrd hoperands
    have hfuses := FusesTo.rotate hshifts (c := dec) ⟨hor, hrd, hoperands⟩ horder hsrc
    rw [hop, ← himm, ← hrs1, ← hrs2, ← hrs3] at hfuses
    split
    · have hleft : dec.rd = m.rs2 := ‹_›
      rw [if_pos hleft, if_pos hleft, hleft] at hfuses
      exact h.fuse rfl rfl hfuses
    · have hnot : ¬ dec.rd = m.rs2 := ‹_›
      have hright : dec.rd = m.rs3 := (hrd.resolve_left (hrs2 ▸ hnot)).trans hrs3.symm
      rw [if_neg hnot, if_neg hnot, hright] at hfuses
      exact h.fuse rfl rfl hfuses
  · trivial

theorem rotation_word {l c : JitDecode} (hl : l.op = .rv .slliw) :
    rotation l c = if c.rd = l.rd then .rorwi_rr else .rorwi_lr := if_pos hl

theorem rotation_whole {l c : JitDecode} (hl : l.op = .rv .slli) :
    rotation l c = if c.rd = l.rd then .rordi_rr else .rordi_lr :=
  if_neg fun h => by rw [hl] at h; cases h

/-- The matcher's notes stay right, and what it makes of the queue is what they say. -/
theorem Held.next (h : m.Held l) (dec : JitDecode) : Keeps l dec (m.next dec) := by
  unfold Matcher.next
  cases h with
  | idle hs hqueue =>
    rw [hs]
    exact keeps_first hqueue dec
  | @auipc a h ha hrd himm =>
    rw [h.state, himm, hrd]
    dsimp only
    have hfuse : ∀ {m₁ : Matcher} {op : JitOp}, PcOp a dec op → m₁.pseudo_pc = m.pseudo_pc →
        m₁.sz = m.sz → Keeps [a] dec (m₁.fuse dec op a.rd 0 0
          (a.imm.signExtend 64 + dec.imm.signExtend 64)) :=
      fun hop hpc hsz => h.fuse hpc hsz (.pc ha hop)
    split
    · obtain ⟨hop, hsame, hrs1⟩ := ‹_ ∧ _›
      rw [← hrs1]
      refine hfuse (.la ⟨hop, hsame.symm, hrs1.symm⟩) ?_ ?_ <;> rfl
    split
    · obtain ⟨hop, hrs1, hra⟩ := ‹_ ∧ _›
      rw [← hrs1]
      refine hfuse (.call hop hrs1.symm hra) ?_ ?_ <;> rfl
    split
    · obtain ⟨hop, hsame, hrs1⟩ := ‹_ ∧ _›
      refine hfuse (.auipc_lw ⟨hop, hsame.symm, hrs1.symm⟩) ?_ ?_ <;> rfl
    split
    · obtain ⟨hop, hsame, hrs1⟩ := ‹_ ∧ _›
      refine hfuse (.auipc_ld ⟨hop, hsame.symm, hrs1.symm⟩) ?_ ?_ <;> rfl
    · trivial
  | @addiw a h ha hrd himm =>
    rw [h.state]
    dsimp only
    split
    · obtain ⟨hplace, hshift⟩ := shifts32_iff.mp ‹_›
      exact .addiwz (h.grow dec _ rfl rfl rfl) ha (hrd ▸ hplace) hshift hrd himm
    split
    · obtain ⟨hop, hshift⟩ := ‹_ ∧ _›
      exact .zextw (began_start rfl dec _) hop hshift rfl rfl
    · trivial
  | @zextw a h ha hshift hrd hrs1 =>
    rw [h.state]
    dsimp only
    split
    · obtain ⟨hplace, hdec⟩ := shifts32_iff.mp ‹_›
      rw [hrd, hrs1]
      exact h.fuse rfl rfl (.zextw ha hshift (hrd ▸ hplace) hdec)
    · trivial
  | @addiwz a b h ha hb hbshift hrd himm =>
    rw [h.state]
    dsimp only
    split
    · obtain ⟨hplace, hdec⟩ := shifts32_iff.mp ‹_›
      rw [hrd, himm]
      exact h.fuse rfl rfl (.addiwz ha hb hbshift (hrd ▸ hplace) hdec)
    · trivial
  | @left a state h hs hzero hsrc hrs2 hrs1 =>
    rcases hs with ⟨rfl, hop, himm⟩ | ⟨rfl, hop, himm⟩
    · rw [h.state]
      refine keeps_right true h hzero hsrc hrs2 hrs1 fun hdec hshift => .word hop hdec ?_
      rw [hshift, himm, BitVec.add_comm, BitVec.sub_add_cancel]
    · rw [h.state]
      refine keeps_right false h hzero hsrc hrs2 hrs1 fun hdec hshift => .whole hop hdec ?_
      rw [hshift, himm, BitVec.add_comm, BitVec.sub_add_cancel]
  | @right a state h hs himm hzero hsrc hrs3 hrs1 =>
    rcases hs with ⟨rfl, hop⟩ | ⟨rfl, hop⟩
    · rw [h.state]
      refine keeps_left true h himm hzero hsrc hrs3 hrs1 fun hdec hshift => .word hdec hop ?_
      rw [hshift, himm, BitVec.sub_add_cancel]
    · rw [h.state]
      refine keeps_left false h himm hzero hsrc hrs3 hrs1
        fun hdec hshift => .whole hdec hop ?_
      rw [hshift, himm, BitVec.sub_add_cancel]
  | @rotate l r first second word h hword hshifts horder hsrc himm hrs1 hrs2 hrs3 =>
    rw [h.state]
    cases hword with
    | word hl =>
      exact keeps_rotate h hshifts horder hsrc himm hrs1 hrs2 hrs3 (rotation_word hl)
    | whole hl =>
      exact keeps_rotate h hshifts horder hsrc himm hrs1 hrs2 hrs3 (rotation_whole hl)

end Matcher

/-! ## Streams -/

/-- The instructions that an operation stands for. -/
def StandsFor (dec : JitDecode) (insts : List JitDecode) : Prop := insts = [dec] ∨ FusesTo insts dec

section
variable {ι ε : Type} {E : ι → ε → JitDecode → ε × Bool}

/-- What the emitter has been given, beginning from `e`: operations that stand for `insts`. What else
it reads changes from one to the next. -/
def PassedOn (E : ι → ε → JitDecode → ε × Bool) (e e' : ε) (insts : List JitDecode) : Prop :=
  ∃ (out : List (ι × JitDecode)) (seqs : List (List JitDecode)),
    e' = out.foldl (fun e p => (E p.1 e p.2).1) e ∧
      List.Forall₂ (fun p insts => StandsFor p.2 insts) out seqs ∧ seqs.flatten = insts

theorem PassedOn.refl (e : ε) : PassedOn E e e [] := ⟨[], [], rfl, .nil, rfl⟩

theorem PassedOn.trans {e e' e'' : ε} {l l' : List JitDecode} (h : PassedOn E e e' l)
    (h' : PassedOn E e' e'' l') : PassedOn E e e'' (l ++ l') := by
  obtain ⟨out, seqs, rfl, hstands, rfl⟩ := h
  obtain ⟨out', seqs', rfl, hstands', rfl⟩ := h'
  exact ⟨out ++ out', seqs ++ seqs', List.foldl_append.symm, List.rel_append hstands hstands',
    List.flatten_append⟩

theorem PassedOn.one (i : ι) (e : ε) {dec : JitDecode} {insts : List JitDecode}
    (h : StandsFor dec insts) : PassedOn E e (E i e dec).1 insts :=
  ⟨[(i, dec)], [insts], rfl, .cons h .nil, by simp⟩

/-- Instructions that are passed on as they are. -/
theorem PassedOn.all (i : ι) (e : ε) (l : List JitDecode) :
    PassedOn E e (l.foldl (fun e dec => (E i e dec).1) e) l := by
  induction l generalizing e with
  | nil => exact .refl e
  | cons dec l ih => exact (PassedOn.one i e (.inl rfl)).trans (ih _)

/-- What the emitter has been given and what is still queued is what came in. -/
structure Fusion.Faithful (E : ι → ε → JitDecode → ε × Bool) (e : ε) (f : Fusion ε)
    (l : List JitDecode) : Prop where
  held : f.m.Held f.m.queue
  passed : ∃ done, PassedOn E e f.e done ∧ done ++ f.m.queue = l

namespace Fusion
variable {e : ε} {f : Fusion ε} {l : List JitDecode}

theorem Faithful.init (E : ι → ε → JitDecode → ε × Bool) (e : ε) :
    (⟨Matcher.init, e⟩ : Fusion ε).Faithful E e [] := ⟨.idle rfl rfl, [], .refl e, rfl⟩

theorem Faithful.emit_queue (h : f.Faithful E e l) (i : ι) :
    (f.emit_queue (E i)).Faithful E e l := by
  obtain ⟨-, done, hdone, rfl⟩ := h
  exact ⟨.clear_queue f.m, done ++ f.m.queue, hdone.trans (.all i f.e f.m.queue), List.append_nil _⟩

/-- One instruction. -/
theorem Faithful.emit (h : f.Faithful E e l) (i : ι) (dec : JitDecode) :
    (f.emit (E i) dec).1.Faithful E e (l ++ [dec]) := by
  have hkeeps := h.held.next dec
  unfold Fusion.emit
  cases hnext : f.m.next dec with
  | queued m =>
    rw [hnext] at hkeeps
    obtain ⟨done, hdone, hl⟩ := h.passed
    exact ⟨hkeeps.queue.symm ▸ hkeeps, done, hdone, by rw [hkeeps.queue, ← hl, List.append_assoc]⟩
  | fused m pseudo =>
    rw [hnext] at hkeeps
    obtain ⟨hheld, hfuses⟩ := hkeeps
    obtain ⟨done, hdone, hl⟩ := h.passed
    refine ⟨hheld.queue.symm ▸ hheld, done ++ (f.m.queue ++ [dec]),
      hdone.trans (.one i f.e (.inr hfuses)), ?_⟩
    rw [hheld.queue, List.append_nil, ← hl, List.append_assoc]
  | requeued m =>
    rw [hnext] at hkeeps
    obtain ⟨-, done, hdone, hl⟩ := h.emit_queue i
    refine ⟨hkeeps.queue.symm ▸ hkeeps, done, hdone, ?_⟩
    rw [hkeeps.queue, ← hl]
    exact congrArg (· ++ [dec]) (List.append_nil done).symm
  | passed =>
    have hflushed : (if f.m.state = .none then f else f.emit_queue (E i)).Faithful E e l ∧
        (if f.m.state = .none then f else f.emit_queue (E i)).m.queue = [] := by
      split
      · exact ⟨h, h.held.of_state_none ‹_›⟩
      · exact ⟨h.emit_queue i, rfl⟩
    dsimp only
    generalize (if f.m.state = .none then f else f.emit_queue (E i)) = f₁ at hflushed
    obtain ⟨⟨hheld, done, hdone, hl⟩, hqueue⟩ := hflushed
    rw [hqueue, List.append_nil] at hl
    refine ⟨hheld, done ++ [dec], hdone.trans (.one i f₁.e (.inl rfl)), ?_⟩
    rw [hqueue, List.append_nil, hl]

/-- The instructions of a list, one after the other. -/
def feed (E : ι → ε → JitDecode → ε × Bool) (f : Fusion ε) (l : List (ι × JitDecode)) : Fusion ε :=
  l.foldl (fun f p => (f.emit (E p.1) p.2).1) f

theorem Faithful.feed (h : f.Faithful E e l) (l' : List (ι × JitDecode)) :
    (f.feed E l').Faithful E e (l ++ l'.map Prod.snd) := by
  induction l' generalizing f l with
  | nil => rwa [List.map_nil, List.append_nil]
  | cons p l' ih =>
    rw [List.map_cons, List.append_cons]
    exact ih (h.emit p.1 p.2)

end Fusion

/-- Whatever instructions come in, and wherever a sequence is given up, the emitter is given
operations that stand for them, each once and in order. -/
theorem fusion_preserves_stream (E : ι → ε → JitDecode → ε × Bool) (e : ε)
    (l : List (ι × JitDecode)) (i : ι) :
    ∃ (out : List (ι × JitDecode)) (seqs : List (List JitDecode)),
      (((⟨Matcher.init, e⟩ : Fusion ε).feed E l).emit_queue (E i)).e =
          out.foldl (fun e p => (E p.1 e p.2).1) e ∧
        List.Forall₂ (fun p insts => StandsFor p.2 insts) out seqs ∧ seqs.flatten = l.map Prod.snd := by
  obtain ⟨-, done, hdone, hl⟩ := ((Fusion.Faithful.init E e).feed l).emit_queue i
  rw [show done = l.map Prod.snd from (List.append_nil done).symm.trans hl] at hdone
  exact hdone

end

end RvCkpt.Jit
