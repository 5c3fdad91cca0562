import RvCkpt.Jit.Fusion
import Mathlib.Data.Finset.Card
import Mathlib.Data.Finset.Range
import Mathlib.Order.Monotone.Basic
import Mathlib.Tactic.Push

/-! # Recording a trace

The loop of `jit_trace` (`src/src/jit/jit-runloop.h`), with the tracer alone and behind the matcher
of `jit_fusion`. The guest is a parameter.
-/

namespace RvCkpt.Jit
open Asm Priv
set_option autoImplicit false

/-! ## The loop -/

/-- What `jit_trace` executes. -/
structure Guest (xl : Xlen) (σ : Type) where
  pc : σ → xl.UX
  ireg : σ → Ireg xl
  /-- `none` where the fetch raises. -/
  inst_fetch : σ → Option (BitVec 64)
  /-- `inst_exec` and the increments after it; `none` where it does not execute the operation or
  raises. -/
  inst_exec : σ → JitDecode → Option σ

def Guest.fetched {xl : Xlen} {σ : Type} (g : Guest xl σ) (s : σ) : Option JitDecode :=
  (g.inst_fetch s).map (jitDecode xl (g.pc s))

/-- `emit` of a tracer, which reads the registers. -/
abbrev Emitter (xl : Xlen) (ε : Type) := Ireg xl → ε → JitDecode → ε × Bool

def fusing {xl : Xlen} {ε : Type} (E : Emitter xl ε) : Emitter xl (Fusion ε) :=
  fun ireg f dec => f.emit (E ireg) dec

section
variable {xl : Xlen} {σ ε : Type} (E : Emitter xl ε) (g : Guest xl σ)

/-- The loop of `jit_trace`, for so many rounds. -/
def record : ℕ → σ → ε → Option (σ × ε)
  | 0, _, _ => none
  | n + 1, s, e =>
    match g.fetched s with
    | none => some (s, e)
    | some dec =>
      match E (g.ireg s) e dec with
      | (e', false) => some (s, e')
      | (e', true) =>
        match g.inst_exec s dec with
        | none => some (s, e')
        | some s' => record n s' e'

/-- The recording ends. -/
def Ends (s : σ) (e : ε) : Prop := ∃ n r, record E g n s e = some r

/-- One round that does not end the loop. -/
def turn (c : σ × ε) : Option (σ × ε) :=
  (g.fetched c.1).bind fun dec =>
    if (E (g.ireg c.1) c.2 dec).2 then
      (g.inst_exec c.1 dec).map fun s' => (s', (E (g.ireg c.1) c.2 dec).1)
    else none

/-- The state after so many rounds, if the loop has not ended. -/
def after (c : σ × ε) : ℕ → Option (σ × ε)
  | 0 => some c
  | n + 1 => (after c n).bind (turn E g)

end

section
variable {xl : Xlen} {σ ε : Type} {E : Emitter xl ε} {g : Guest xl σ} {s s' : σ} {e : ε}
  {c c' : σ × ε} {n : ℕ}

theorem turn_eq_some (h : turn E g c = some c') :
    ∃ dec, g.fetched c.1 = some dec ∧ E (g.ireg c.1) c.2 dec = (c'.2, true) ∧
      g.inst_exec c.1 dec = some c'.1 := by
  obtain ⟨dec, hfetch, hrest⟩ := Option.bind_eq_some_iff.mp h
  split at hrest
  · rename_i htrue
    obtain ⟨s', hexec, rfl⟩ := Option.map_eq_some_iff.mp hrest
    exact ⟨dec, hfetch, Prod.ext rfl htrue, hexec⟩
  · cases hrest

theorem turn_of {dec : JitDecode} (hfetch : g.fetched c.1 = some dec)
    (hemit : E (g.ireg c.1) c.2 dec = (c'.2, true)) (hexec : g.inst_exec c.1 dec = some c'.1) :
    turn E g c = some c' := by
  rw [turn, hfetch, Option.bind_some, hemit, hexec]
  rfl

theorem after_add (c : σ × ε) (m n : ℕ) :
    after E g c (m + n) = (after E g c m).bind fun c' => after E g c' n := by
  induction n with
  | zero => cases after E g c m <;> rfl
  | succ n ih =>
    rw [← Nat.add_assoc, after, ih, Option.bind_assoc]
    rfl

theorem record_eq_none_iff (n : ℕ) (s : σ) (e : ε) :
    record E g n s e = none ↔ ∃ c, after E g (s, e) n = some c := by
  induction n generalizing s e with
  | zero => exact ⟨fun _ => ⟨_, rfl⟩, fun _ => rfl⟩
  | succ n ih =>
    have hsplit : after E g (s, e) (n + 1) = (turn E g (s, e)).bind fun c => after E g c n := by
      rw [Nat.add_comm, after_add]
      rfl
    rw [hsplit, record]
    cases hfetch : g.fetched s with
    | none => simp [turn, hfetch]
    | some dec =>
      rcases hemit : E (g.ireg s) e dec with ⟨e', b⟩
      cases b with
      | false => simp [turn, hfetch, hemit]
      | true =>
        cases hexec : g.inst_exec s dec with
        | none => simp [turn, hfetch, hemit, hexec]
        | some s' =>
          have hturn : turn E g (s, e) = some (s', e') := turn_of hfetch hemit hexec
          rw [hturn, Option.bind_some]
          simp only [hemit, hexec]
          exact ih s' e'

/-- A recording that never ends has a state after each number of rounds. -/
theorem not_ends_iff : ¬ Ends E g s e ↔ ∀ n, ∃ c, after E g (s, e) n = some c := by
  constructor
  · intro h n
    rw [← record_eq_none_iff]
    cases hrecord : record E g n s e with
    | none => rfl
    | some r => exact absurd ⟨n, r, hrecord⟩ h
  · rintro h ⟨n, r, hrecord⟩
    rw [(record_eq_none_iff n s e).mpr (h n)] at hrecord
    cases hrecord

end

/-! ## Labels -/

namespace Tracer
variable {xl : Xlen}

/-- The program counters in the trace. -/
def labelled (t : Tracer) : Finset ℕ := (t.labels.map fun l => l.1.toNat).toFinset

theorem card_labelled_le (t : Tracer) : t.labelled.card ≤ 2 ^ 64 := by
  have hsub : t.labelled ⊆ Finset.range (2 ^ 64) := by
    intro n hn
    obtain ⟨l, -, rfl⟩ := List.mem_map.mp (List.mem_toFinset.mp hn)
    exact Finset.mem_range.mpr l.1.isLt
  exact (Finset.card_le_card hsub).trans_eq (Finset.card_range _)

theorem labelled_emit_subset (ireg : Ireg xl) (t : Tracer) (dec : JitDecode) :
    t.labelled ⊆ (t.emit ireg dec).1.labelled := by
  rcases t.emit_labels ireg dec with ⟨-, hlabels⟩ | hsame
  · rw [labelled, labelled, hlabels, List.map_cons, List.toFinset_cons]
    exact Finset.subset_insert _ _
  · rw [hsame]

/-- A round that does not end adds a program counter. -/
theorem card_labelled_lt {ireg : Ireg xl} {t t' : Tracer} {dec : JitDecode}
    (h : t.emit ireg dec = (t', true)) : t.labelled.card < t'.labelled.card := by
  rcases t.emit_labels ireg dec with ⟨hnew, hlabels⟩ | hsame
  · rw [h] at hlabels
    rw [labelled, labelled, hlabels, List.map_cons, List.toFinset_cons, Finset.card_insert_of_notMem]
    · exact Nat.lt_succ_self _
    · intro hmem
      obtain ⟨l, hl, heq⟩ := List.mem_map.mp (List.mem_toFinset.mp hmem)
      have hpc : l.1 = dec.pc := BitVec.eq_of_toNat_eq heq
      rw [List.lookup_eq_none_iff] at hnew
      exact absurd (hnew l hl) (by simp [hpc])
  · rw [hsame] at h
    cases (Prod.mk.inj h).2

end Tracer

theorem exists_stable {f : ℕ → ℕ} {b : ℕ} (hmono : ∀ n, f n ≤ f (n + 1)) (hb : ∀ n, f n ≤ b) :
    ∃ N, ∀ n, N ≤ n → f (n + 1) = f n := by
  by_contra hnever
  push Not at hnever
  have hgrows : ∀ k, ∃ n, k ≤ f n := by
    intro k
    induction k with
    | zero => exact ⟨0, Nat.zero_le _⟩
    | succ k ih =>
      obtain ⟨n, hn⟩ := ih
      obtain ⟨n', hle, hne⟩ := hnever n
      have hstep := hmono n'
      have htrans : f n ≤ f n' := monotone_nat_of_le_succ hmono hle
      exact ⟨n' + 1, by omega⟩
  obtain ⟨n, hn⟩ := hgrows (b + 1)
  have := hb n
  omega

/-! ## The tracer alone -/

section
variable {xl : Xlen} {σ : Type} {g : Guest xl σ}

theorem tracer_ends (g : Guest xl σ) (s : σ) : Ends Tracer.emit g s Tracer.init := by
  by_contra hends
  choose c hc using not_ends_iff.mp hends
  have hturn (n : ℕ) : turn Tracer.emit g (c n) = some (c (n + 1)) := by
    have hnext := hc (n + 1)
    rwa [after, hc n, Option.bind_some] at hnext
  have hgrows (n : ℕ) : (c n).2.labelled.card < (c (n + 1)).2.labelled.card := by
    obtain ⟨dec, -, hemit, -⟩ := turn_eq_some (hturn n)
    exact Tracer.card_labelled_lt hemit
  obtain ⟨N, hstable⟩ :=
    exists_stable (fun n => (hgrows n).le) fun n => (c n).2.card_labelled_le
  exact absurd (hstable N le_rfl) (hgrows N).ne'

/-! ## The tracer behind the matcher -/

theorem labelled_foldl_subset (ireg : Ireg xl) (queue : List JitDecode) (t : Tracer) :
    t.labelled ⊆ (queue.foldl (fun t dec => (Tracer.emit ireg t dec).1) t).labelled := by
  induction queue generalizing t with
  | nil => exact Finset.Subset.refl _
  | cons dec queue ih => exact (t.labelled_emit_subset ireg dec).trans (ih _)

/-- A round keeps the instruction to the matcher, or the tracer does not refuse it. -/
theorem fusing_emit {ireg : Ireg xl} {f f' : Fusion Tracer} {dec : JitDecode}
    (h : fusing Tracer.emit ireg f dec = (f', true)) :
    f.e.labelled ⊆ f'.e.labelled ∧
      ((f.m.next dec).matcher = some f'.m ∨ f.e.labelled.card < f'.e.labelled.card) := by
  unfold fusing Fusion.emit at h
  cases hnext : f.m.next dec with
  | queued m =>
    simp only [hnext] at h
    obtain ⟨rfl, -⟩ := Prod.mk.inj h
    exact ⟨Finset.Subset.refl _, .inl rfl⟩
  | fused m pseudo =>
    simp only [hnext] at h
    obtain ⟨rfl, -⟩ := Prod.mk.inj h
    exact ⟨f.e.labelled_emit_subset ireg pseudo, .inl rfl⟩
  | requeued m =>
    simp only [hnext] at h
    obtain ⟨rfl, -⟩ := Prod.mk.inj h
    exact ⟨labelled_foldl_subset ireg _ _, .inl rfl⟩
  | passed =>
    simp only [hnext] at h
    obtain ⟨rfl, hkept⟩ := Prod.mk.inj h
    have hqueue : f.e.labelled ⊆
        (if f.m.state = .none then f else f.emit_queue (Tracer.emit ireg)).e.labelled := by
      split
      · exact Finset.Subset.refl _
      · exact labelled_foldl_subset ireg _ _
    have hlt := Tracer.card_labelled_lt (Prod.ext rfl hkept)
    exact ⟨hqueue.trans (Tracer.labelled_emit_subset ireg _ dec),
      .inr ((Finset.card_le_card hqueue).trans_lt hlt)⟩

/-- What the matcher keeps to itself does not end the recording. -/
theorem fusing_of_matcher {ε : Type} {E : Emitter xl ε} {ireg : Ireg xl} {f : Fusion ε}
    {dec : JitDecode} {m : Matcher} (h : (f.m.next dec).matcher = some m) :
    ∃ e, fusing E ireg f dec = (⟨m, e⟩, true) := by
  unfold fusing Fusion.emit
  cases hnext : f.m.next dec with
  | queued m' =>
    rw [hnext] at h
    obtain rfl := Option.some.inj h
    exact ⟨_, rfl⟩
  | fused m' pseudo =>
    rw [hnext] at h
    obtain rfl := Option.some.inj h
    exact ⟨_, rfl⟩
  | requeued m' =>
    rw [hnext] at h
    obtain rfl := Option.some.inj h
    exact ⟨_, rfl⟩
  | passed =>
    rw [hnext] at h
    cases h

end

/-! ## Guests that execute nothing but sequences -/

/-- The guest executes these instructions one after the other. -/
def Guest.Executes {xl : Xlen} {σ : Type} (g : Guest xl σ) : σ → List JitDecode → σ → Prop
  | s, [], s' => s' = s
  | s, dec :: decs, s' =>
    g.fetched s = some dec ∧ ∃ s₁, g.inst_exec s dec = some s₁ ∧ g.Executes s₁ decs s'

/-- From here on the guest never stops, and it executes fused sequences only. -/
def Guest.OnlyFuses {xl : Xlen} {σ : Type} (g : Guest xl σ) (s : σ) : Prop :=
  ∀ n, ∃ (seqs : List (List JitDecode)) (s' : σ), (∀ l ∈ seqs, Fuses l) ∧
    n ≤ seqs.flatten.length ∧ g.Executes s seqs.flatten s'

section
variable {xl : Xlen} {σ : Type} {g : Guest xl σ} {s s' : σ}

theorem Guest.Executes.append {s₁ : σ} {l l' : List JitDecode} (h : g.Executes s l s₁)
    (h' : g.Executes s₁ l' s') : g.Executes s (l ++ l') s' := by
  induction l generalizing s with
  | nil =>
    obtain rfl : s₁ = s := h
    exact h'
  | cons dec l ih =>
    obtain ⟨hfetch, s₂, hexec, hrest⟩ := h
    exact ⟨hfetch, s₂, hexec, ih hrest⟩

theorem absorb_flatten {m : Matcher} (hs : m.state = .none) {seqs : List (List JitDecode)}
    (hseqs : ∀ l ∈ seqs, Fuses l) : ∃ m', m.absorb seqs.flatten = some m' := by
  induction seqs generalizing m with
  | nil => exact ⟨m, rfl⟩
  | cons l seqs ih =>
    obtain ⟨m₁, hm₁, hs₁⟩ := (hseqs l List.mem_cons_self).absorbed hs
    obtain ⟨m', hm'⟩ := ih hs₁ fun l' hl' => hseqs l' (List.mem_cons_of_mem _ hl')
    refine ⟨m', ?_⟩
    rw [List.flatten_cons, Matcher.absorb_append, hm₁]
    exact hm'

/-- The recording goes on as long as the matcher keeps the instructions to itself. -/
theorem after_executes {ε : Type} {E : Emitter xl ε} {decs : List JitDecode} {f : Fusion ε}
    {m : Matcher} (hexec : g.Executes s decs s') (hm : f.m.absorb decs = some m) :
    ∃ c, after (fusing E) g (s, f) decs.length = some c := by
  induction decs generalizing s f with
  | nil => exact ⟨_, rfl⟩
  | cons dec decs ih =>
    obtain ⟨hfetch, s₁, hstep, hrest⟩ := hexec
    obtain ⟨m₁, hm₁, hmrest⟩ := Option.bind_eq_some_iff.mp hm
    obtain ⟨e, hemit⟩ : ∃ e, fusing E (g.ireg s) f dec = (⟨m₁, e⟩, true) := fusing_of_matcher hm₁
    have hturn : turn (fusing E) g (s, f) = some (s₁, ⟨m₁, e⟩) := turn_of hfetch hemit hstep
    obtain ⟨c, hc⟩ : ∃ c, after (fusing E) g (s₁, ⟨m₁, e⟩) decs.length = some c := ih hrest hmrest
    refine ⟨c, ?_⟩
    rw [List.length_cons, Nat.add_comm, after_add]
    show (turn (fusing E) g (s, f)).bind _ = some c
    rw [hturn]
    exact hc

theorem not_ends_of_onlyFuses {ε : Type} {E : Emitter xl ε} {e : Fusion ε} {k : ℕ} {f : Fusion ε}
    (hk : after (fusing E) g (s, e) k = some (s', f)) (hidle : f.m.state = .none)
    (hfuses : g.OnlyFuses s') : ¬ Ends (fusing E) g s e := by
  rw [not_ends_iff]
  intro n
  obtain ⟨seqs, s₁, hseqs, hlen, hexec⟩ := hfuses n
  obtain ⟨m, hm⟩ := absorb_flatten hidle hseqs
  obtain ⟨c, hc⟩ := after_executes (E := E) hexec hm
  have hlong : after (fusing E) g (s, e) (k + seqs.flatten.length) = some c := by
    rw [after_add, hk]
    exact hc
  obtain ⟨d, hd⟩ : ∃ d, k + seqs.flatten.length = n + d :=
    ⟨k + seqs.flatten.length - n, by omega⟩
  rw [hd, after_add] at hlong
  obtain ⟨c', hc', -⟩ := Option.bind_eq_some_iff.mp hlong
  exact ⟨c', hc'⟩

/-- From some round on the matcher keeps every instruction to itself. -/
def Silent {ε : Type} (g : Guest xl σ) (c : ℕ → σ × Fusion ε) (N : ℕ) : Prop :=
  ∀ n, N ≤ n → ∃ dec, g.fetched (c n).1 = some dec ∧ g.inst_exec (c n).1 dec = some (c (n + 1)).1 ∧
    ((c n).2.m.next dec).matcher = some (c (n + 1)).2.m

theorem Silent.exists_idle {ε : Type} {c : ℕ → σ × Fusion ε} {N : ℕ} (h : Silent g c N) :
    ∃ k, N ≤ k ∧ (c k).2.m.state = .none := by
  suffices hrank : ∀ r n, N ≤ n → (c n).2.m.rank ≤ r → ∃ k, N ≤ k ∧ (c k).2.m.state = .none from
    hrank _ N le_rfl le_rfl
  intro r
  induction r with
  | zero => exact fun n hn hr => ⟨n, hn, Matcher.rank_zero (Nat.le_zero.mp hr)⟩
  | succ r ih =>
    intro n hn hr
    by_cases hidle : (c n).2.m.state = .none
    · exact ⟨n, hn, hidle⟩
    · obtain ⟨dec, -, -, hnext⟩ := h n hn
      have hlt := Matcher.next_rank hidle hnext
      exact ih (n + 1) (by omega) (by omega)

/-- From an idle matcher on, the next sequence. -/
theorem Silent.sequence {ε : Type} {c : ℕ → σ × Fusion ε} {N k : ℕ} (h : Silent g c N)
    (hk : N ≤ k) (hidle : (c k).2.m.state = .none) :
    ∃ l j, k < j ∧ (c j).2.m.state = .none ∧ Fuses l ∧ l ≠ [] ∧
      g.Executes (c k).1 l (c j).1 := by
  obtain ⟨d₀, hf₀, he₀, hm₀⟩ := h k hk
  obtain ⟨d₁, hf₁, he₁, hm₁⟩ := h (k + 1) (by omega)
  obtain ⟨d₂, hf₂, he₂, hm₂⟩ := h (k + 2) (by omega)
  have hthree := Matcher.absorb_three hm₀ hm₁ hm₂
  obtain ⟨l, hl, hfuses, m, hm, hm_idle⟩ := Matcher.fuses_of_absorb hidle hthree
  simp only [List.mem_cons, List.not_mem_nil, or_false] at hl
  rcases hl with rfl | rfl
  · have htwo : (c (k + 2)).2.m = m := by
      rw [Matcher.absorb, hm₀, Option.bind_some, Matcher.absorb, hm₁] at hm
      exact Option.some.inj hm
    exact ⟨_, k + 2, by omega, htwo ▸ hm_idle, hfuses, List.cons_ne_nil _ _,
      hf₀, _, he₀, hf₁, _, he₁, rfl⟩
  · rw [hthree] at hm
    exact ⟨_, k + 3, by omega, Option.some.inj hm ▸ hm_idle, hfuses, List.cons_ne_nil _ _,
      hf₀, _, he₀, hf₁, _, he₁, hf₂, _, he₂, rfl⟩

theorem Silent.onlyFuses {ε : Type} {c : ℕ → σ × Fusion ε} {N k : ℕ} (h : Silent g c N)
    (hk : N ≤ k) (hidle : (c k).2.m.state = .none) : g.OnlyFuses (c k).1 := by
  intro n
  suffices hsome : ∃ (seqs : List (List JitDecode)) (j : ℕ), N ≤ j ∧ (c j).2.m.state = .none ∧
      (∀ l ∈ seqs, Fuses l) ∧ n ≤ seqs.flatten.length ∧
      g.Executes (c k).1 seqs.flatten (c j).1 by
    obtain ⟨seqs, j, -, -, hseqs, hlen, hexec⟩ := hsome
    exact ⟨seqs, _, hseqs, hlen, hexec⟩
  induction n with
  | zero => exact ⟨[], k, hk, hidle, fun l hl => absurd hl List.not_mem_nil, Nat.zero_le _, rfl⟩
  | succ n ih =>
    obtain ⟨seqs, j, hj, hjidle, hseqs, hlen, hexec⟩ := ih
    obtain ⟨l, j', hlt, hidle', hfuses, hne, hnext⟩ := h.sequence hj hjidle
    refine ⟨seqs ++ [l], j', by omega, hidle', ?_, ?_, ?_⟩
    · intro l' hl'
      rcases List.mem_append.mp hl' with hl' | hl'
      · exact hseqs l' hl'
      · exact List.mem_singleton.mp hl' ▸ hfuses
    · have hpos := List.length_pos_of_ne_nil hne
      simp only [List.flatten_append, List.length_append, List.flatten_singleton]
      omega
    · rw [List.flatten_append, List.flatten_singleton]
      exact hexec.append hnext

/-- A recording that does not end gets to a point from which the guest only executes sequences. -/
theorem exists_onlyFuses {f : Fusion Tracer} (h : ¬ Ends (fusing Tracer.emit) g s f) :
    ∃ n s' f', after (fusing Tracer.emit) g (s, f) n = some (s', f') ∧ f'.m.state = .none ∧
      g.OnlyFuses s' := by
  choose c hc using not_ends_iff.mp h
  have hturn (n : ℕ) : turn (fusing Tracer.emit) g (c n) = some (c (n + 1)) := by
    have hnext := hc (n + 1)
    rwa [after, hc n, Option.bind_some] at hnext
  have hmono (n : ℕ) : (c n).2.e.labelled.card ≤ (c (n + 1)).2.e.labelled.card := by
    obtain ⟨dec, -, hemit, -⟩ := turn_eq_some (hturn n)
    exact Finset.card_le_card (fusing_emit hemit).1
  obtain ⟨N, hstable⟩ := exists_stable hmono fun n => (c n).2.e.card_labelled_le
  have hsilent : Silent g c N := by
    intro n hn
    obtain ⟨dec, hfetch, hemit, hexec⟩ := turn_eq_some (hturn n)
    refine ⟨dec, hfetch, hexec, (fusing_emit hemit).2.resolve_right ?_⟩
    rw [hstable n hn]
    exact Nat.lt_irrefl _
  obtain ⟨k, hk, hidle⟩ := hsilent.exists_idle
  exact ⟨k, (c k).1, (c k).2, hc k, hidle, hsilent.onlyFuses hk hidle⟩

end

/-! ## When recording ends -/

def Fusion.init : Fusion Tracer := ⟨Matcher.init, Tracer.init⟩

/-- **When a recording ends.** The tracer alone always ends it; behind the matcher it does unless
the guest comes, with no sequence begun, to execute nothing but fused sequences. -/
theorem recording_ends {xl : Xlen} {σ : Type} (g : Guest xl σ) (s : σ) :
    Ends Tracer.emit g s Tracer.init ∧
    (Ends (fusing Tracer.emit) g s Fusion.init ↔
      ¬ ∃ n s' f, after (fusing Tracer.emit) g (s, Fusion.init) n = some (s', f) ∧
        f.m.state = .none ∧ g.OnlyFuses s') := by
  refine ⟨tracer_ends g s, fun hends => ?_, fun hnot => ?_⟩
  · rintro ⟨n, s', f, hafter, hidle, hfuses⟩
    exact not_ends_of_onlyFuses hafter hidle hfuses hends
  · by_contra hends
    exact hnot (exists_onlyFuses hends)

/-- `auipc ra, 0` and `jalr ra, 0(ra)` at 0x1000, which calls itself; the state is the pc. -/
def selfCall : Guest .rv64 (BitVec 64) where
  pc s := s
  ireg _ r := if r = 1 then 0x1000 else 0
  inst_fetch s := some (if s = 0x1000 then 0x97 else 0x80e7)
  inst_exec s _ := some (if s = 0x1000 then 0x1004 else 0x1000)

theorem selfCall_executes : ∃ a b, Fuses [a, b] ∧ selfCall.Executes 0x1000 [a, b] 0x1000 := by
  refine ⟨jitDecode .rv64 0x1000 0x97, jitDecode .rv64 0x1004 0x80e7, ?_, ?_⟩
  · exact .call (by decide +kernel) (by decide +kernel) (by decide +kernel) (by decide +kernel)
  · exact ⟨rfl, 0x1004, rfl, rfl, 0x1000, rfl, rfl⟩

theorem selfCall_onlyFuses : selfCall.OnlyFuses 0x1000 := by
  obtain ⟨a, b, hfuses, hexec⟩ := selfCall_executes
  intro n
  refine ⟨List.replicate n [a, b], 0x1000, ?_, ?_, ?_⟩
  · intro l hl
    exact (List.mem_replicate.mp hl).2 ▸ hfuses
  · have hlen : (List.replicate n [a, b]).flatten.length = n * 2 := by simp
    omega
  · induction n with
    | zero => rfl
    | succ n ih =>
      rw [List.replicate_succ, List.flatten_cons]
      exact hexec.append ih

/-- The recording of a call that calls itself never ends. -/
theorem selfCall_not_ends : ¬ Ends (fusing Tracer.emit) selfCall 0x1000 Fusion.init :=
  not_ends_of_onlyFuses (k := 0) rfl rfl selfCall_onlyFuses

end RvCkpt.Jit
