import RvCkpt.Jit.Paths
import Mathlib.Logic.Relation

/-! # When compiled code counts right

The paths through compiled traces, from an entry to the return to the run loop. What has been added
to `instret` on a path is the number of guest instructions retired, if and only if the path does not
leave a trace for `term` where another number is due than at the trace's end.
-/

namespace RvCkpt.Jit
open Asm Priv
set_option autoImplicit false

/-! ## What is due -/

/-- How many more guest instructions are retired than counted by a piece. -/
def Piece.due : Piece → ℤ
  | add n => -n
  | body e | access e | guard e | cmp e | lookup e => e.insts.length
  | jcc _ | jmp _ | bind _ | term | ret => 0

/-- The guest instructions in the code that are not counted yet at its end. -/
def owing (code : List Piece) : ℤ := (code.map Piece.due).sum

@[simp] theorem owing_nil : owing [] = 0 := rfl

theorem owing_append (code code' : List Piece) :
    owing (code ++ code') = owing code + owing code' := by
  rw [owing, owing, owing, List.map_append, List.sum_append]

theorem owing_snoc (code : List Piece) (p : Piece) : owing (code ++ [p]) = owing code + p.due := by
  rw [owing_append]
  congr 1
  simp [owing]

/-- How much a code counts and retires. -/
def volume (code : List Piece) : ℕ := (code.map fun p => p.due.natAbs).sum

theorem volume_snoc (code : List Piece) (p : Piece) :
    volume (code ++ [p]) = volume code + p.due.natAbs := by
  simp [volume]

theorem volume_take (code : List Piece) (pos : ℕ) : volume (code.take pos) ≤ volume code := by
  conv_rhs => rw [← List.take_append_drop pos code]
  rw [volume, volume, List.map_append, List.sum_append]
  exact Nat.le_add_right _ _

theorem natAbs_owing (code : List Piece) : (owing code).natAbs ≤ volume code := by
  induction code with
  | nil => exact le_rfl
  | cons p code ih =>
    have howing : owing (p :: code) = p.due + owing code := by simp [owing]
    have hvolume : volume (p :: code) = p.due.natAbs + volume code := by simp [volume]
    rw [howing, hvolume]
    exact (Int.natAbs_add_le _ _).trans (Nat.add_le_add_left ih _)

/-- Nothing is due where control goes somewhere else, or may come from there. -/
def Piece.Settled : Piece → ℤ → Prop
  | bind _, z | jcc _, z | jmp _, z | ret, z => z = 0
  | lookup e, z => z + e.insts.length = 0
  | _, _ => True

def Settled (code : List Piece) : Prop :=
  ∀ (pos : ℕ) (p : Piece), code[pos]? = some p → p.Settled (owing (code.take pos))

theorem Settled.nil : Settled [] := by
  intro pos p h
  simp at h

theorem Settled.snoc {code : List Piece} {p : Piece} (h : Settled code)
    (hp : p.Settled (owing code)) : Settled (code ++ [p]) := by
  intro pos q hq
  rcases Nat.lt_trichotomy pos code.length with hlt | heq | hgt
  · rw [List.getElem?_append_left hlt] at hq
    rw [List.take_append_of_le_length hlt.le]
    exact h pos q hq
  · rw [heq, List.getElem?_concat_length] at hq
    obtain rfl := Option.some.inj hq
    rw [heq, List.take_left]
    exact hp
  · rw [List.getElem?_eq_none (by simp; omega)] at hq
    cases hq

/-! ## The emitter -/

namespace Emission

/-- The emitter's count is ahead of its code by `k`, after operations that stand for `m` guest
instructions. -/
structure Ahead (s : Emission) (k : ℤ) (m : ℕ) : Prop where
  settled : Settled s.code
  due : owing s.code + k = s.instret
  volume : volume s.code + s.instret + k ≤ 2 * m

variable {s : Emission} {k : ℤ} {m : ℕ}

theorem Ahead.init : Ahead init 0 0 := ⟨Settled.nil, rfl, le_rfl⟩

theorem Ahead.put {p : Piece} (h : s.Ahead k m) (hdue : 0 ≤ p.due)
    (hp : p.Settled (owing s.code)) : (s.put p).Ahead (k - p.due) m := by
  have howing : owing (s.put p).code = owing s.code + p.due := owing_snoc s.code p
  have hvolume : RvCkpt.Jit.volume (s.put p).code = RvCkpt.Jit.volume s.code + p.due.natAbs :=
    volume_snoc s.code p
  have hinstret : (s.put p).instret = s.instret := rfl
  have hahead := h.due
  have hbound := h.volume
  refine ⟨h.settled.snoc hp, ?_, ?_⟩
  · rw [howing, hinstret]
    omega
  · rw [hvolume, hinstret]
    omega

theorem commit_instret_zero (s : Emission) : s.commit_instret.instret = 0 := by
  unfold commit_instret
  by_cases h : 0 < s.instret
  · rw [if_pos h]
  · rw [if_neg h]
    omega

theorem Ahead.commit_instret (h : s.Ahead k m) : s.commit_instret.Ahead k m := by
  unfold Emission.commit_instret
  by_cases hpos : 0 < s.instret
  · rw [if_pos hpos]
    have howing : owing (s.put (.add s.instret)).code = owing s.code + Piece.due (.add s.instret) :=
      owing_snoc s.code _
    have hvolume : RvCkpt.Jit.volume (s.put (.add s.instret)).code =
        RvCkpt.Jit.volume s.code + (Piece.due (.add s.instret)).natAbs := volume_snoc s.code _
    have hahead := h.due
    have hbound := h.volume
    rw [Piece.due] at howing hvolume
    refine ⟨h.settled.snoc trivial, ?_, ?_⟩
    · dsimp only
      rw [howing]
      omega
    · dsimp only
      rw [hvolume]
      omega
  · rwa [if_neg hpos]

/-- After a commit nothing is due but what the count is ahead by. -/
theorem Ahead.owing_of_zero (h : s.Ahead k m) (hzero : s.instret = 0) : owing s.code = -k := by
  have hdue := h.due
  rw [hzero] at hdue
  omega

/-- Behind a commit control may go anywhere. -/
theorem Ahead.jump {p : Piece} (h : s.Ahead 0 m) (hzero : s.instret = 0) (hdue : p.due = 0)
    (hp : p.Settled 0) : (s.put p).Ahead 0 m ∧ (s.put p).instret = 0 := by
  have hput : (s.put p).Ahead (0 - p.due) m :=
    h.put hdue.ge (by rw [h.owing_of_zero hzero]; exact hp)
  rw [hdue] at hput
  exact ⟨hput, hzero⟩

variable {e : Entry} (E : EmitterRv64) (lookup_trace_slow : BitVec 64 → Bool)

/-- The code of an operation that has been counted. -/
theorem Ahead.retire {p : Piece} (h : s.Ahead e.insts.length m) (hdue : p.due = e.insts.length)
    (hp : p.Settled (owing s.code)) : (s.put p).Ahead 0 m := by
  have hput := h.put (by omega) hp
  rwa [hdue, Int.sub_self] at hput

theorem Ahead.emit_branch (h : s.Ahead e.insts.length m) :
    (s.emit_branch lookup_trace_slow e).Ahead 0 m := by
  have hcmp : (s.commit_instret.put (.cmp e)).Ahead 0 m := h.commit_instret.retire rfl trivial
  have hzero : (s.commit_instret.put (.cmp e)).instret = 0 := s.commit_instret_zero
  unfold Emission.emit_branch
  dsimp only
  generalize s.commit_instret.put (.cmp e) = s' at hcmp hzero
  have hone : ∀ target, (s'.put (.jcc target)).Ahead 0 m :=
    fun target => (hcmp.jump (p := .jcc target) hzero rfl rfl).1
  have htwo : ∀ target target', ((s'.put (.jcc target)).put (.jmp target')).Ahead 0 m :=
    fun target target' => ((hone target).jump (p := .jmp target') hzero rfl rfl).1
  split
  · exact htwo _ _
  split
  · exact htwo _ _
  split
  · exact htwo _ _
  split
  · exact hone _
  · exact hone _

theorem Ahead.emit_jal (h : s.Ahead e.insts.length m) : (s.emit_jal e).Ahead 0 m := by
  unfold Emission.emit_jal
  dsimp only
  split
  · exact Ahead.retire ⟨h.settled, h.due, h.volume⟩ rfl trivial
  · exact h.retire rfl trivial

theorem Ahead.emit_call (h : s.Ahead e.insts.length m) : (s.emit_call e).Ahead 0 m :=
  Ahead.retire ⟨h.settled, h.due, h.volume⟩ rfl trivial

/-- An assumed return is counted like any operation, any other indirect jump is committed before
the trace is left. -/
theorem Ahead.emit_jalr (h : s.Ahead e.insts.length m) : (s.emit_jalr e).1.Ahead 0 m := by
  unfold Emission.emit_jalr
  split
  · exact Ahead.retire ⟨h.settled, h.due, h.volume⟩ rfl trivial
  · have hcommit := h.commit_instret
    have howing : owing s.commit_instret.code + e.insts.length = 0 := by
      rw [hcommit.owing_of_zero s.commit_instret_zero]
      omega
    dsimp only
    split
    · exact Ahead.retire ⟨hcommit.settled, hcommit.due, hcommit.volume⟩ rfl howing
    · exact hcommit.retire rfl howing

/-- The label of a branch target. -/
theorem Ahead.label (h : s.Ahead 0 m) (pc : BitVec 64) (labels : List (BitVec 64)) :
    ({ s.commit_instret with labels := labels }.put (.bind pc)).Ahead 0 m :=
  (Ahead.jump (s := { s.commit_instret with labels := labels }) (p := .bind pc)
    ⟨h.commit_instret.settled, h.commit_instret.due, h.commit_instret.volume⟩ s.commit_instret_zero rfl rfl).1

/-- Every operation is counted as it is emitted. -/
theorem Ahead.emit (h : s.Ahead 0 m) (e : Entry) :
    (s.emit E lookup_trace_slow e).1.Ahead 0 (m + e.insts.length) := by
  have hcount := e.covers.instretOf
  unfold Emission.emit
  split
  · have hbound := h.volume
    refine ⟨h.settled, h.due, ?_⟩
    dsimp only
    omega
  have hlabel : (if e.dec.brt then
      { s.commit_instret with labels := e.dec.pc :: s.labels }.put (.bind e.dec.pc) else s).Ahead 0
        m := by
    split
    · exact h.label _ _
    · exact h
  dsimp only
  generalize (if e.dec.brt then
      { s.commit_instret with labels := e.dec.pc :: s.labels }.put (.bind e.dec.pc) else s) = s₁
    at hlabel
  rw [hcount]
  have hcounted : ({ s₁ with instret := s₁.instret + e.insts.length } : Emission).Ahead
      e.insts.length (m + e.insts.length) := by
    have hdue := hlabel.due
    have hbound := hlabel.volume
    refine ⟨hlabel.settled, ?_, ?_⟩
    · push_cast
      omega
    · push_cast
      omega
  dsimp only
  split
  any_goals exact hcounted.emit_branch lookup_trace_slow
  · exact hcounted.emit_jal
  · exact hcounted.emit_jalr
  · exact hcounted.emit_call
  · split
    · exact hcounted.retire rfl trivial
    · exact hcounted.retire rfl trivial

theorem ahead_foldl (trace : List Entry) (h : s.Ahead 0 m) :
    (trace.foldl (fun s e => (s.emit E lookup_trace_slow e).1) s).Ahead 0 (m + traceSize trace) := by
  induction trace generalizing s m with
  | nil => exact h
  | cons e trace ih =>
    have hsize : m + traceSize (e :: trace) = m + e.insts.length + traceSize trace := by
      simp [traceSize, Nat.add_assoc]
    rw [hsize]
    exact ih (h.emit E lookup_trace_slow e)

/-- Over a whole trace the emitter's count is what its code owes. -/
theorem ahead_emitAll (trace : List Entry) :
    (emitAll E lookup_trace_slow trace).Ahead 0 (traceSize trace) := by
  have h := ahead_foldl E lookup_trace_slow trace Ahead.init
  rwa [Nat.zero_add] at h

/-- With the epilog nothing is due. -/
theorem Ahead.emit_epilog (h : s.Ahead 0 m) : s.emit_epilog.Ahead 0 m := by
  have hterm : (s.put .term).Ahead 0 m := by
    have hput := h.put (p := .term) le_rfl trivial
    rwa [Piece.due, Int.sub_zero] at hput
  exact (hterm.commit_instret.jump (p := .ret) (s.put .term).commit_instret_zero rfl rfl).1

end Emission

/-! ## The code of a trace -/

/-- The pieces from `term` on. -/
def Piece.InEpilog : Piece → Prop
  | term | add _ | ret => True
  | _ => False

namespace CompiledTrace
variable (t : CompiledTrace)

theorem ahead : t.emission.Ahead 0 (traceSize t.trace) :=
  Emission.ahead_emitAll t.emitter t.lookup_trace_slow t.trace

theorem code_ahead : t.emission.emit_epilog.Ahead 0 (traceSize t.trace) := t.ahead.emit_epilog

theorem code_eq : ∃ tail, t.code = t.emission.code ++ tail ∧ ∀ p ∈ tail, p.InEpilog := by
  unfold code Emission.emit_epilog Emission.commit_instret
  split
  · refine ⟨[.term, .add t.emission.instret, .ret], by simp [Emission.put], fun p hp => ?_⟩
    obtain rfl | rfl | rfl : p = .term ∨ p = .add t.emission.instret ∨ p = .ret := by simpa using hp
    all_goals trivial
  · refine ⟨[.term, .ret], by simp [Emission.put], fun p hp => ?_⟩
    obtain rfl | rfl : p = .term ∨ p = .ret := by simpa using hp
    all_goals trivial

theorem take_term : t.code.take t.term = t.emission.code := by
  obtain ⟨tail, hcode, -⟩ := t.code_eq
  rw [hcode, term, List.take_left]

theorem inEpilog {pos : ℕ} {p : Piece} (hpos : t.term ≤ pos) (hp : t.code[pos]? = some p) :
    p.InEpilog := by
  obtain ⟨tail, hcode, htail⟩ := t.code_eq
  rw [hcode, List.getElem?_append_right hpos] at hp
  exact htail p (List.mem_of_getElem? hp)

/-- What is due at the end of a trace is what the epilog adds. -/
theorem owing_term : owing (t.code.take t.term) = t.emission.instret := by
  have hdue := t.ahead.due
  rw [take_term]
  omega

/-- What is due anywhere in a trace is less than what its `int` holds. -/
theorem natAbs_owing_lt (pos : ℕ) : (owing (t.code.take pos)).natAbs < 2 ^ 32 := by
  have hbound := t.code_ahead.volume
  have hvolume : volume t.code ≤ 2 * traceSize t.trace := by
    have hcode : volume t.code = volume t.emission.emit_epilog.code := rfl
    omega
  have hshort := t.short
  have htake := (natAbs_owing (t.code.take pos)).trans (volume_take t.code pos)
  omega

end CompiledTrace

/-! ## Paths -/

theorem owing_take_succ {code : List Piece} {pos : ℕ} {p : Piece} (h : code[pos]? = some p) :
    owing (code.take (pos + 1)) = owing (code.take pos) + p.due := by
  rw [List.take_add_one, h]
  exact owing_snoc _ p

namespace Exec

/-- The guest instructions that are retired and not counted yet. -/
def due (s : Exec) : ℤ := if s.returned then 0 else owing (s.trace.code.take s.pos)

/-- What a path that has gone to `term` is not counted right by. -/
def lost (s : Exec) : ℤ :=
  match s.failed with
  | none => 0
  | some pos => owing (s.trace.code.take pos) - s.trace.emission.instret

/-- The count of a path that began at `i`. -/
structure Counted (i : BitVec 64) (s : Exec) : Prop where
  count : s.instret = i + BitVec.ofInt 64 (s.retired - s.due - s.lost)
  behind : ∀ pos, s.failed = some pos → s.returned = false → s.trace.term ≤ s.pos

variable {i : BitVec 64} {s s' : Exec} {p : Piece}

theorem Counted.start (t : CompiledTrace) : Counted i (start t i) := by
  refine ⟨?_, fun pos h => by cases h⟩
  simp [Exec.start, due, lost]

theorem due_running (h : s.returned = false) : s.due = owing (s.trace.code.take s.pos) := by
  rw [due, h, if_neg (by decide)]

theorem due_at (h : s.At p) : s.due = owing (s.trace.code.take s.pos) := due_running h.1

/-- Only the epilog is behind a failure. -/
theorem Counted.failed_eq_none (h : Counted i s) (hat : s.At p) (hp : ¬ p.InEpilog) :
    s.failed = none := by
  cases hfailed : s.failed with
  | none => rfl
  | some pos => exact absurd (s.trace.inEpilog (h.behind pos hfailed hat.1) hat.2) hp

theorem lost_of_none (h : s.failed = none) : s.lost = 0 := by
  rw [lost, h]

theorem settled_at (h : s.At p) : p.Settled s.due := by
  rw [due_at h]
  exact s.trace.code_ahead.settled _ p h.2

/-- A piece that goes on to the next one. -/
theorem Counted.advance (h : Counted i s) (hat : s.At p) {n r : ℕ} {x : BitVec 64}
    (hx : x = s.instret + BitVec.ofNat 64 n) (hdue : p.due = r - n) :
    Counted i { s with pos := s.pos + 1, instret := x, retired := s.retired + r } := by
  refine ⟨?_, fun pos hpos hrun => (h.behind pos hpos hat.1).trans (Nat.le_succ _)⟩
  have hnext : ({ s with pos := s.pos + 1, instret := x, retired := s.retired + r } : Exec).due =
      s.due + p.due := by
    rw [due_at hat, ← owing_take_succ hat.2]
    exact due_running hat.1
  have hlost : ({ s with pos := s.pos + 1, instret := x, retired := s.retired + r } : Exec).lost =
      s.lost := rfl
  rw [hnext, hlost]
  dsimp only
  have hsum : ((s.retired + r : ℕ) : ℤ) - (s.due + p.due) - s.lost =
      (s.retired - s.due - s.lost) + n := by
    rw [hdue]
    push_cast
    omega
  rw [hx, h.count, hsum, BitVec.ofInt_add, BitVec.ofInt_natCast, BitVec.add_assoc]

theorem Counted.retire (h : Counted i s) {e : Entry} (hat : s.At p) (hdue : p.due = e.insts.length) :
    Counted i (s.retire e).next :=
  h.advance hat (n := 0) (by simp [Exec.retire]) (by rw [hdue]; simp)

theorem Counted.next (h : Counted i s) (hat : s.At p) (hdue : p.due = 0) : Counted i s.next :=
  h.advance hat (n := 0) (r := 0) (by simp) (by rw [hdue]; simp)

/-- An operation that fails leaves for `term`. -/
theorem Counted.fail (h : Counted i s) (hat : s.At p) (hp : ¬ p.InEpilog) : Counted i s.fail := by
  have hnone := lost_of_none (h.failed_eq_none hat hp)
  refine ⟨?_, fun pos hpos hrun => le_rfl⟩
  have hdue : s.fail.due = s.trace.emission.instret := by
    rw [← s.trace.owing_term]
    exact due_running hat.1
  have hlost : s.fail.lost = s.due - s.trace.emission.instret := by
    rw [due_at hat]
    rfl
  have hcount : s.fail.instret = s.instret := rfl
  have hretired : s.fail.retired = s.retired := rfl
  rw [hcount, hretired, hdue, hlost, h.count, hnone]
  congr 2
  omega

/-- Control that goes somewhere else finds and leaves nothing due. -/
theorem Counted.move (h : Counted i s) (hat : s.At p) (hp : ¬ p.InEpilog) (hinstret : s'.instret = s.instret)
    (hfailed : s'.failed = s.failed) (hdue : s'.due = 0)
    (hretired : (s'.retired : ℤ) = s.retired - s.due) : Counted i s' := by
  have hnone := h.failed_eq_none hat hp
  refine ⟨?_, fun pos hpos => ?_⟩
  · rw [hinstret, h.count, hdue, hretired, lost_of_none hnone, lost_of_none (hfailed.trans hnone)]
    congr 2
    omega
  · rw [hfailed, hnone] at hpos
    cases hpos

theorem due_leave (s : Exec) : s.leave.due = 0 := if_pos rfl

theorem due_enter (h : s.returned = false) (t : CompiledTrace) : (s.enter t).due = 0 :=
  due_running h

/-- A jump is made where nothing is due. -/
theorem settled_jump {target : Target} (h : s.At (.jcc target) ∨ s.At (.jmp target)) :
    s.due = 0 ∧ ∃ p, s.At p ∧ ¬ p.InEpilog := by
  obtain h | h := h
  · exact ⟨settled_at h, _, h, fun hp => hp⟩
  · exact ⟨settled_at h, _, h, fun hp => hp⟩

end Exec

open Exec

/-- A step keeps the count. -/
theorem Step.counted {cache : Set CompiledTrace} {i : BitVec 64} {s s' : Exec}
    (hstep : Step cache s s') (h : Counted i s) : Counted i s' := by
  cases hstep with
  | @add n hat => exact h.advance hat (n := n) (r := 0) rfl (by simp [Piece.due])
  | body hat | access hat | guard hat | cmp hat => exact h.retire hat rfl
  | fault hat | astray hat => exact h.fail hat fun hp => hp
  | bind hat | notTaken hat | term hat => exact h.next hat rfl
  | @loop pc pos hat hpos =>
    obtain ⟨hdue, p, hp, hnot⟩ := settled_jump hat
    refine h.move hp hnot rfl rfl ?_ (by rw [hdue]; simp)
    have hbind : owing (s.trace.code.take pos) = 0 := s.trace.code_ahead.settled pos _ hpos
    exact (due_running (s := { s with pos := pos }) hp.1).trans hbind
  | @chain target t hat ht hfinds =>
    obtain ⟨hdue, p, hp, hnot⟩ := settled_jump hat
    exact h.move hp hnot rfl rfl (due_enter hp.1 t) (by rw [hdue]; simp [Exec.enter])
  | miss hat =>
    obtain ⟨hdue, p, hp, hnot⟩ := settled_jump hat
    exact h.move hp hnot rfl rfl (due_leave s) (by rw [hdue]; simp [Exec.leave])
  | @jump e t hat ht =>
    have hdue : s.due + e.insts.length = 0 := settled_at hat
    refine h.move hat (fun hp => hp) rfl rfl (due_enter hat.1 t) ?_
    simp only [Exec.enter, Exec.retire]
    push_cast
    omega
  | @jumpMiss e hat =>
    have hdue : s.due + e.insts.length = 0 := settled_at hat
    refine h.move hat (fun hp => hp) rfl rfl (due_leave _) ?_
    simp only [Exec.leave, Exec.retire]
    push_cast
    omega
  | ret hat =>
    have hdue : s.due = 0 := settled_at hat
    refine ⟨?_, fun pos hpos hrun => by cases hrun⟩
    have hcount := h.count
    rw [hdue] at hcount
    rw [due_leave]
    exact hcount

/-- Whatever path is taken, and through however many traces. -/
theorem counted_of_path {cache : Set CompiledTrace} {i : BitVec 64} {t : CompiledTrace} {s : Exec}
    (hpath : Relation.ReflTransGen (Step cache) (Exec.start t i) s) : Counted i s := by
  induction hpath with
  | refl => exact .start t
  | tail _ hstep ih => exact hstep.counted ih

/-- The path has gone to `term` from nowhere, or from where as much was due as at the end. -/
def Exec.Meets (s : Exec) : Prop :=
  ∀ pos, s.failed = some pos → owing (s.trace.code.take pos) = s.trace.emission.instret

theorem Exec.lost_eq_zero_iff (s : Exec) : s.lost = 0 ↔ s.Meets := by
  rw [lost, Meets]
  cases s.failed with
  | none => exact iff_of_true rfl fun pos h => by cases h
  | some pos =>
    refine sub_eq_zero.trans ⟨fun h q hq => ?_, fun h => h pos rfl⟩
    cases hq
    exact h

theorem Exec.natAbs_lost_lt (s : Exec) : s.lost.natAbs < 2 ^ 33 := by
  rw [lost]
  cases s.failed with
  | none => exact Nat.pow_pos (by decide)
  | some pos =>
    have hleft := s.trace.natAbs_owing_lt pos
    have hend := s.trace.natAbs_owing_lt s.trace.term
    rw [s.trace.owing_term] at hend
    dsimp only
    omega

/-- The count is too small by an integer of 64 bits at most. -/
theorem ofInt_eq_zero_iff {z : ℤ} (hz : z.natAbs < 2 ^ 33) : BitVec.ofInt 64 z = 0 ↔ z = 0 := by
  refine ⟨fun h => ?_, fun h => by rw [h]; rfl⟩
  have hint := congrArg BitVec.toInt h
  rw [BitVec.toInt_ofInt, Int.bmod_eq_of_le (by omega) (by omega)] at hint
  exact hint

/-- After the return to the run loop the guest instructions that were retired have been counted,
exactly when the path meets the condition. -/
theorem instret_exact_iff {cache : Set CompiledTrace} {i : BitVec 64} {t : CompiledTrace} {s : Exec}
    (hpath : Relation.ReflTransGen (Step cache) (Exec.start t i) s) (hreturned : s.returned = true) :
    s.instret = i + BitVec.ofNat 64 s.retired ↔ s.Meets := by
  have hcount := (counted_of_path hpath).count
  have hdue : s.due = 0 := by rw [due, hreturned]; rfl
  rw [hdue, Int.sub_zero, Int.sub_eq_add_neg, BitVec.ofInt_add, BitVec.ofInt_natCast] at hcount
  have hneg : (-s.lost).natAbs < 2 ^ 33 := by
    rw [Int.natAbs_neg]
    exact s.natAbs_lost_lt
  rw [← s.lost_eq_zero_iff, ← neg_eq_zero, ← ofInt_eq_zero_iff hneg, hcount, ← BitVec.add_assoc]
  exact BitVec.add_right_eq_self

/-! ## A return -/

/-- `jal ra, 8` at `0x10000`. -/
def callEntry : Entry :=
  .single ⟨0x10000, 0x008000ef, 8, .rv .jal, 1, 0, 0, false, false, 0⟩ .jal rfl (by decide)

/-- `add ra, ra, a0` at `0x10008`. -/
def addEntry : Entry :=
  .single ⟨0x10008, 0x00a080b3, 0, .rv .add, 1, 1, 10, false, false, 0⟩ .add rfl (by decide)

/-- `jalr x0, 0(ra)` at `0x1000c`. -/
def returnEntry : Entry :=
  .single ⟨0x1000c, 0x00008067, 0, .rv .jalr, 0, 1, 0, false, false, 0⟩ .jalr rfl (by decide)

/-- `addi a1, a1, 1` at `0x10004`. -/
def addiEntry : Entry :=
  .single ⟨0x10004, 0x00158593, 1, .rv .addi, 11, 11, 0, false, false, 0⟩ .addi rfl (by decide)

/-- A call, and the code behind it that was recorded when `a0` was zero. -/
def callTrace : CompiledTrace where
  pc := 0x10000
  emitter := ⟨false, false⟩
  lookup_trace_slow := fun _ => false
  trace := [callEntry, addEntry, returnEntry, addiEntry]
  short := by decide

theorem callTrace_code : callTrace.code =
    [.body callEntry, .body addEntry, .guard returnEntry, .body addiEntry, .term, .add 4, .ret] := rfl

/-- The code up to the return, with its two instructions retired. -/
theorem callTrace_called : Relation.ReflTransGen (Step {callTrace}) (Exec.start callTrace 0)
    ⟨callTrace, 2, 0, 2, none, false⟩ := by
  have hcall : (Exec.start callTrace 0).At (.body callEntry) := ⟨rfl, by rw [Exec.start, callTrace_code]; rfl⟩
  have hadd : (⟨callTrace, 1, 0, 1, none, false⟩ : Exec).At (.body addEntry) :=
    ⟨rfl, by rw [callTrace_code]; rfl⟩
  exact (Relation.ReflTransGen.single (.body hcall)).tail (.body hadd)

/-- From `term` on. -/
theorem callTrace_ends (n : ℕ) (failed : Option ℕ) :
    Relation.ReflTransGen (Step {callTrace}) ⟨callTrace, 4, 0, n, failed, false⟩
      ⟨callTrace, 6, 4, n, failed, true⟩ := by
  have hterm : (⟨callTrace, 4, 0, n, failed, false⟩ : Exec).At .term :=
    ⟨rfl, by rw [callTrace_code]; rfl⟩
  have hcount : (⟨callTrace, 5, 0, n, failed, false⟩ : Exec).At (.add 4) :=
    ⟨rfl, by rw [callTrace_code]; rfl⟩
  have hret : (⟨callTrace, 6, 4, n, failed, false⟩ : Exec).At .ret :=
    ⟨rfl, by rw [callTrace_code]; rfl⟩
  exact ((Relation.ReflTransGen.single (.term hterm)).tail (.add hcount)).tail (.ret hret)

/-- When the return goes where it went, four instructions are retired and counted. -/
theorem assumed_return_counted : ∃ s,
    Relation.ReflTransGen (Step {callTrace}) (Exec.start callTrace 0) s ∧ s.returned = true ∧
      s.retired = 4 ∧ s.instret = 0 + BitVec.ofNat 64 s.retired := by
  have hguard : (⟨callTrace, 2, 0, 2, none, false⟩ : Exec).At (.guard returnEntry) :=
    ⟨rfl, by rw [callTrace_code]; rfl⟩
  have haddi : (⟨callTrace, 3, 0, 3, none, false⟩ : Exec).At (.body addiEntry) :=
    ⟨rfl, by rw [callTrace_code]; rfl⟩
  have hpath := ((callTrace_called.tail (.guard hguard)).tail (.body haddi)).trans
    (callTrace_ends 4 none)
  exact ⟨_, hpath, rfl, rfl, (instret_exact_iff hpath rfl).mpr fun pos h => by cases h⟩

/-- When it goes somewhere else, two are retired and four are counted. -/
theorem failed_return_miscounted : ∃ s,
    Relation.ReflTransGen (Step {callTrace}) (Exec.start callTrace 0) s ∧ s.returned = true ∧
      s.retired = 2 ∧ s.instret = 4 ∧ s.instret ≠ 0 + BitVec.ofNat 64 s.retired := by
  have hguard : (⟨callTrace, 2, 0, 2, none, false⟩ : Exec).At (.guard returnEntry) :=
    ⟨rfl, by rw [callTrace_code]; rfl⟩
  have hpath := (callTrace_called.tail (.astray hguard)).trans (callTrace_ends 2 (some 2))
  exact ⟨_, hpath, rfl, rfl, rfl, by decide⟩

end RvCkpt.Jit
