import RvCkpt.Asm.Model
import Mathlib.Logic.Function.Basic
import Mathlib.Data.List.Induction

/-! # The cache of decoded instructions

The part of `step` in `src/src/emu/processor-runloop.h` that decodes an instruction word through
`inst_cache`, for any processor and any sequence of words.
-/

namespace RvCkpt.Emu
open Asm
set_option autoImplicit false

/-! ## Processors -/

/-- The parameter `P` of `processor_runloop`, as far as it executes instructions. -/
structure Processor where
  model : Model
  State : Type
  /-- `inst_exec`, then `inst_priv` where it returns -1; `none` where both do. -/
  exec : Decode → BitVec 64 → State → Option State
  exec_agree : ∀ {a b : Decode}, a.Agree b → ∀ pc_offset s, exec a pc_offset s = exec b pc_offset s
  exec_rejects : ∀ dec : Decode, dec.op = .illegal ∨ dec.op.ext = .c →
    ∀ pc_offset s, exec dec pc_offset s = none
  exec_addi : ∀ dec : Decode, dec.op = .addi → ∃ pc_offset s, exec dec pc_offset s ≠ none

/-- The processor does the same for both. -/
def Processor.ExecutesAs (P : Processor) (a b : Decode) : Prop :=
  ∀ pc_offset s, P.exec a pc_offset s = P.exec b pc_offset s

/-! ## The loop -/

structure rv_inst_cache_ent where
  inst : BitVec 64
  dec : Decode

def inst_cache_size : ℕ := 8191

abbrev Key := Fin inst_cache_size

def inst_cache_key (inst : BitVec 64) : Key :=
  ⟨inst.toNat % inst_cache_size, Nat.mod_lt _ (by decide)⟩

/-- The slot of the word 0. -/
def key0 : Key := ⟨0, by decide⟩

/-- The cache and the local variable `dec` of `step`. -/
structure Runloop where
  inst_cache : Key → rv_inst_cache_ent
  dec : Decode

/-- A slot of the cache when the processor is constructed. -/
def rv_inst_cache_ent.init : rv_inst_cache_ent := ⟨0, Decode.init⟩

inductive Event where
  /-- `step` is called and constructs `dec`. -/
  | enter
  /-- A trap comes back to `setjmp`, after which `dec` may be anything. -/
  | trap (dec : Decode)
  | fetch (inst : BitVec 64)

namespace Runloop

def init : Runloop := ⟨fun _ => .init, Decode.init⟩

/-- The instruction word is decoded. -/
def fetch (m : Model) (st : Runloop) (inst : BitVec 64) : Runloop :=
  let key := inst_cache_key inst
  if (st.inst_cache key).inst = inst then { st with dec := (st.inst_cache key).dec }
  else
    let dec := m.inst_decode st.dec inst
    { inst_cache := Function.update st.inst_cache key ⟨inst, dec⟩, dec := dec }

def next (m : Model) (st : Runloop) : Event → Runloop
  | .enter => { st with dec := Decode.init }
  | .trap dec => { st with dec := dec }
  | .fetch inst => st.fetch m inst

def run (m : Model) (st : Runloop) (es : List Event) : Runloop := es.foldl (next m) st

theorem run_concat (m : Model) (st : Runloop) (es : List Event) (e : Event) :
    st.run m (es ++ [e]) = (st.run m es).next m e := by
  rw [run, List.foldl_append]
  rfl

end Runloop

/-! ## What the slots hold -/

/-- The word displaces what slot 0 holds at the beginning. -/
def Fills (inst : BitVec 64) : Prop := inst ≠ 0 ∧ inst_cache_key inst = key0

/-- Slot 0 has been filled. -/
def Primed (pre : List Event) : Prop := ∃ w, .fetch w ∈ pre ∧ Fills w

theorem inst_cache_key_zero : inst_cache_key 0 = key0 := rfl

theorem Primed.mono {pre : List Event} (h : Primed pre) (e : Event) : Primed (pre ++ [e]) := by
  obtain ⟨w, hw, hfills⟩ := h
  exact ⟨w, List.mem_append_left _ hw, hfills⟩

theorem Primed.of_concat {pre : List Event} {e : Event} (h : Primed (pre ++ [e]))
    (he : ∀ w, e = .fetch w → ¬ Fills w) : Primed pre := by
  obtain ⟨w, hw, hfills⟩ := h
  rw [List.mem_append, List.mem_singleton] at hw
  rcases hw with hw | hw
  · exact ⟨w, hw, hfills⟩
  · exact absurd hfills (he w hw.symm)

/-- The slot holds what its word is decoded to. -/
structure rv_inst_cache_ent.Filled (m : Model) (key : Key) (ent : rv_inst_cache_ent) : Prop where
  key : inst_cache_key ent.inst = key
  dec : ent.dec.Agree (m.inst_decode Decode.init ent.inst)

/-- The slots after the events `pre`. -/
structure Runloop.Inv (m : Model) (pre : List Event) (st : Runloop) : Prop where
  slots : ∀ key, st.inst_cache key = .init ∨ (st.inst_cache key).Filled m key
  primed : Primed pre → (st.inst_cache key0).Filled m key0
  unprimed : ¬ Primed pre → st.inst_cache key0 = .init

namespace Runloop
variable {m : Model} {pre : List Event} {st : Runloop}

theorem inv_init : Inv m [] init := by
  have hnot : ¬ Primed [] := by
    intro h
    obtain ⟨w, hw, -⟩ := h
    exact absurd hw List.not_mem_nil
  exact ⟨fun _ => .inl rfl, fun h => absurd h hnot, fun _ => rfl⟩

/-- What does not fetch leaves the slots as they are. -/
theorem Inv.idle (h : Inv m pre st) {e : Event} (he : ∀ w, e ≠ .fetch w) (dec : Decode) :
    Inv m (pre ++ [e]) { st with dec := dec } := by
  have hiff : Primed (pre ++ [e]) ↔ Primed pre :=
    ⟨fun hp => hp.of_concat fun w hw => absurd hw (he w), fun hp => hp.mono e⟩
  exact ⟨h.slots, fun hp => h.primed (hiff.mp hp), fun hp => h.unprimed (hp ∘ hiff.mpr)⟩

/-- A hit on a word that fills slot 0 finds it filled. -/
theorem Inv.primed_of_hit (h : Inv m pre st) {inst : BitVec 64}
    (hhit : (st.inst_cache (inst_cache_key inst)).inst = inst) (hfills : Fills inst) :
    Primed pre := by
  by_contra hnot
  rw [hfills.2, h.unprimed hnot] at hhit
  exact hfills.1 hhit.symm

/-- A miss in slot 0 leaves it filled with a word that fills it, or was not the first. -/
theorem Inv.primed_of_miss (h : Inv m pre st) {inst : BitVec 64}
    (hmiss : (st.inst_cache (inst_cache_key inst)).inst ≠ inst)
    (hkey : inst_cache_key inst = key0) : Primed (pre ++ [.fetch inst]) := by
  by_cases hinst : inst = 0
  · subst hinst
    refine Primed.mono ?_ _
    by_contra hnot
    rw [hkey, h.unprimed hnot] at hmiss
    exact hmiss rfl
  · exact ⟨inst, List.mem_append_right _ List.mem_cons_self, hinst, hkey⟩

theorem Inv.fetch (h : Inv m pre st) (inst : BitVec 64) :
    Inv m (pre ++ [.fetch inst]) (st.fetch m inst) := by
  simp only [Runloop.fetch]
  by_cases hhit : (st.inst_cache (inst_cache_key inst)).inst = inst
  · rw [if_pos hhit]
    have hiff : Primed (pre ++ [.fetch inst]) ↔ Primed pre := by
      refine ⟨fun hp => ?_, fun hp => hp.mono _⟩
      by_contra hnot
      refine hnot (hp.of_concat fun w hw hfills => ?_)
      cases hw
      exact hnot (h.primed_of_hit hhit hfills)
    exact ⟨h.slots, fun hp => h.primed (hiff.mp hp), fun hp => h.unprimed (hp ∘ hiff.mpr)⟩
  · rw [if_neg hhit]
    have hfilled : rv_inst_cache_ent.Filled m (inst_cache_key inst)
        ⟨inst, m.inst_decode st.dec inst⟩ := ⟨rfl, m.inst_decode_agree _ _ _⟩
    refine ⟨fun key => ?_, fun hp => ?_, fun hp => ?_⟩
    · by_cases hkey : key = inst_cache_key inst
      · subst hkey
        simpa only [Function.update_self] using .inr hfilled
      · simpa only [Function.update_of_ne hkey] using h.slots key
    · by_cases hkey : key0 = inst_cache_key inst
      · simpa only [hkey, Function.update_self] using hfilled
      · have hpre : Primed pre := hp.of_concat fun w hw hfills => by
          cases hw
          exact hkey hfills.2.symm
        simpa only [Function.update_of_ne hkey] using h.primed hpre
    · have hkey : key0 ≠ inst_cache_key inst := fun hkey =>
        hp (h.primed_of_miss hhit hkey.symm)
      simpa only [Function.update_of_ne hkey] using h.unprimed fun hpre => hp (hpre.mono _)

theorem Inv.next (h : Inv m pre st) (e : Event) : Inv m (pre ++ [e]) (st.next m e) := by
  cases e with
  | enter => exact h.idle (by simp) _
  | trap dec => exact h.idle (by simp) dec
  | fetch inst => exact h.fetch inst

theorem inv_run (m : Model) (es : List Event) : Inv m es (init.run m es) := by
  induction es using List.reverseRecOn with
  | nil => exact inv_init
  | append_singleton es e ih =>
    rw [run_concat]
    exact ih.next e

/-! ## What a fetch decodes to -/

theorem Inv.fetch_agree (h : Inv m pre st) {inst : BitVec 64} (hp : inst = 0 → Primed pre) :
    (st.fetch m inst).dec.Agree (m.inst_decode Decode.init inst) := by
  simp only [Runloop.fetch]
  by_cases hhit : (st.inst_cache (inst_cache_key inst)).inst = inst
  · rw [if_pos hhit]
    have hfilled : (st.inst_cache (inst_cache_key inst)).Filled m (inst_cache_key inst) := by
      rcases h.slots (inst_cache_key inst) with hinit | hfilled
      · rw [hinit] at hhit
        have hzero : inst = 0 := hhit.symm
        rw [hzero]
        exact h.primed (hp hzero)
      · exact hfilled
    have hdec := hfilled.dec
    rwa [hhit] at hdec
  · rw [if_neg hhit]
    exact m.inst_decode_agree _ _ _

/-- The slot that was never filled is a hit for the word 0. -/
theorem Inv.fetch_zero (h : Inv m pre st) (hp : ¬ Primed pre) :
    (st.fetch m 0).dec = Decode.init := by
  simp only [Runloop.fetch, inst_cache_key_zero, h.unprimed hp]
  rfl

end Runloop

/-! ## Transparency -/

/-- Each word is executed as a fresh decode of it. -/
def Transparent (P : Processor) (es : List Event) : Prop :=
  ∀ pre inst post, es = pre ++ .fetch inst :: post →
    P.ExecutesAs (Runloop.init.run P.model (pre ++ [.fetch inst])).dec
      (P.model.inst_decode Decode.init inst)

/-- The word 0 is fetched only after a word that displaces what slot 0 holds at the beginning. -/
def ZeroPrimed (es : List Event) : Prop :=
  ∀ pre post, es = pre ++ .fetch 0 :: post → Primed pre

theorem executesAs_of_primed (P : Processor) {pre : List Event} {inst : BitVec 64}
    (hp : inst = 0 → Primed pre) :
    P.ExecutesAs (Runloop.init.run P.model (pre ++ [.fetch inst])).dec
      (P.model.inst_decode Decode.init inst) := by
  rw [Runloop.run_concat]
  exact P.exec_agree ((Runloop.inv_run P.model pre).fetch_agree hp)

/-- Before slot 0 is filled, the word 0 is rejected. -/
theorem executesAs_zero_iff (P : Processor) {pre : List Event} (hp : ¬ Primed pre) :
    P.ExecutesAs (Runloop.init.run P.model (pre ++ [.fetch 0])).dec
      (P.model.inst_decode Decode.init 0) ↔ ¬ P.model.expandsZero := by
  rw [Runloop.run_concat, Runloop.next, (Runloop.inv_run P.model pre).fetch_zero hp]
  refine ⟨fun h hexp => ?_, fun hexp pc_offset s => ?_⟩
  · obtain ⟨pc_offset, s, hsome⟩ := P.exec_addi _ (P.model.inst_decode_zero_op Decode.init hexp)
    rw [← h pc_offset s, P.exec_rejects _ (.inl rfl)] at hsome
    exact hsome rfl
  · rw [P.exec_rejects _ (.inl rfl), P.exec_rejects]
    refine (P.model.inst_decode_zero_op_of_not Decode.init hexp).imp_right fun hop => ?_
    rw [hop]
    rfl

theorem transparent_exact (P : Processor) (es : List Event) :
    Transparent P es ↔ (P.model.expandsZero → ZeroPrimed es) := by
  constructor
  · intro h hexp pre post hes
    by_contra hp
    exact (executesAs_zero_iff P hp).mp (h pre 0 post hes) hexp
  · intro h pre inst post hes
    by_cases hp : inst = 0 → Primed pre
    · exact executesAs_of_primed P hp
    · obtain ⟨hzero, hunprimed⟩ := Classical.not_imp.mp hp
      subst hzero
      exact (executesAs_zero_iff P hunprimed).mpr fun hexp => hunprimed (h hexp pre post hes)

end RvCkpt.Emu
