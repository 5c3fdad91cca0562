import RvCkpt.Jit.Cache

/-! # Lifetime of compiled code

Which addresses of compiled code stay valid over compilations, executions and `fence.i`.
-/

namespace RvCkpt.Jit
set_option autoImplicit false

open Cache

/-! ## What is to hold -/

/-- The jumps that are to be patched when there is a trace for a pc. -/
def Cache.fixups (s : Cache) (pc : Addr) : List Addr := (s.jmp_fixup_addrs.lookup pc).getD []

/-- Every address of code that can be reached is in a trace that has not been released and that
was compiled for the pc it is reached with. -/
structure Sound (s : Cache) : Prop where
  prolog : ∀ pc fn, s.trace_cache_prolog.lookup pc = some fn →
    ∃ t ∈ s.traces, t.pc = pc ∧ t.prolog = fn
  entry : ∀ pc fn, s.trace_cache_entry.lookup pc = some fn →
    ∃ t ∈ s.traces, t.pc = pc ∧ t.entry = fn
  l1 : ∀ i, s.trace_fn i ≠ 0 → ∃ t ∈ s.traces, t.pc = s.trace_pc i ∧ t.entry = s.trace_fn i
  jump : ∀ t ∈ s.traces, ∀ j ∈ t.jumps, ∀ fn, j.target = some fn →
    ∃ u ∈ s.traces, u.pc = j.pc ∧ u.entry = fn
  fixup : ∀ pc, ∀ a ∈ s.fixups pc, ∃ t ∈ s.traces, ∃ j ∈ t.jumps, j.addr = a ∧ j.pc = pc
  control : ∀ loc, s.control = some loc → ∃ t ∈ s.traces, t.runs loc

/-- The entry that is looked up for pc 0 is not one that was never filled. -/
def Ready (s : Cache) (pc : Addr) : Prop := pc ≠ 0 ∨ s.trace_pc 0 ≠ 0 ∨ s.trace_fn 0 ≠ 0

/-- What has to be so before a step. -/
def Safe (s : Cache) : Event → Prop
  | .compile pc code fn =>
    ∀ a ∈ s.fixups pc,
      displacement (fn + BitVec.ofNat 64 code.start - a) = fn + BitVec.ofNat 64 code.start - a
  | .fence_i => (∀ i, s.trace_fn i = 0) ∧ ∀ pc, s.fixups pc = []
  | .jump j => j.target = none → Ready s j.pc
  | .indirect pc => Ready s pc
  | .exec _ => True
  | .leave => True

/-! ## Invariants of the memory -/

/-- The labels of a trace are in its block. -/
structure Trace.Placed (t : Trace) : Prop where
  ne_zero : t.prolog ≠ 0
  fits : t.prolog.toNat + t.size < 2 ^ 64
  entry : t.prolog.toNat ≤ t.entry.toNat ∧ t.entry.toNat < t.prolog.toNat + t.size
  jump : ∀ j ∈ t.jumps,
    t.prolog.toNat < j.addr.toNat ∧ j.addr.toNat ≤ t.prolog.toNat + t.size
  nodup : (t.jumps.map Jump.addr).Nodup

def Trace.Distinct (t u : Trace) : Prop :=
  t.pc ≠ u.pc ∧ Apart t.prolog t.size u.prolog u.size

instance : Std.Symm Trace.Distinct := ⟨fun _ _ h => ⟨h.1.symm, Or.symm h.2⟩⟩

structure Wf (s : Cache) : Prop where
  distinct : s.traces.Pairwise Trace.Distinct
  placed : ∀ t ∈ s.traces, t.Placed
  cached : ∀ t ∈ s.traces, s.trace_cache_prolog.lookup t.pc = some t.prolog
  entry_ne : ∀ pc fn, s.trace_cache_entry.lookup pc = some fn → fn ≠ 0
  l1_empty : ∀ i, s.trace_fn i = 0 → s.trace_pc i = 0

namespace Wf

variable {s : Cache}

/-- A label behind a jump is of one jump only. -/
theorem eq_of_addr (h : Wf s) {t u : Trace} (ht : t ∈ s.traces) (hu : u ∈ s.traces)
    {j k : Jump} (hj : j ∈ t.jumps) (hk : k ∈ u.jumps) (haddr : j.addr = k.addr) : j = k := by
  have htu : t = u := by
    by_contra hne
    have hjt := (h.placed t ht).jump j hj
    have hku := (h.placed u hu).jump k hk
    rw [haddr] at hjt
    rcases (h.distinct.forall ht hu hne).2 with hlt | hlt
    · omega
    · omega
  subst htu
  exact List.inj_on_of_nodup_map (h.placed t ht).nodup hj hk haddr

end Wf

theorem Wf.init : Wf Cache.init :=
  ⟨List.Pairwise.nil, fun _ h => absurd h List.not_mem_nil, fun _ h => absurd h List.not_mem_nil,
    fun _ _ h => by simp [Cache.init] at h, fun _ _ => rfl⟩

theorem Sound.init : Sound Cache.init where
  prolog := fun _ _ h => by simp [Cache.init] at h
  entry := fun _ _ h => by simp [Cache.init] at h
  l1 := fun _ h => absurd rfl h
  jump := fun _ h => absurd h List.not_mem_nil
  fixup := fun _ _ h => by simp [Cache.fixups, Cache.init] at h
  control := fun _ h => by cases h

/-! ## Lookups -/

section
variable {s : Cache} {pc : Addr}

theorem l1_zero : l1 0 = 0 := by decide

/-- What a lookup can do. -/
theorem lookup_trace_fast_cases (s : Cache) (pc : Addr) :
    (s.trace_pc (l1 pc) = pc ∧
      s.lookup_trace_fast pc = { s with control := some (s.trace_fn (l1 pc), pc) }) ∨
    s.trace_pc (l1 pc) ≠ pc ∧
      ((∃ fn, s.trace_cache_entry.lookup pc = some fn ∧
        s.lookup_trace_fast pc =
          { s with
            trace_fn := Function.update s.trace_fn (l1 pc) fn
            trace_pc := Function.update s.trace_pc (l1 pc) pc
            control := some (fn, pc) }) ∨
      s.lookup_trace_fast pc = { s with control := none }) := by
  unfold lookup_trace_fast
  by_cases hhit : s.trace_pc (l1 pc) = pc
  · exact .inl ⟨hhit, if_pos hhit⟩
  · rw [if_neg hhit]
    cases hfind : s.lookup_trace pc with
    | some fn => exact .inr ⟨hhit, .inl ⟨fn, hfind, rfl⟩⟩
    | none => exact .inr ⟨hhit, .inr rfl⟩

theorem Wf.lookup_trace_fast (h : Wf s) (pc : Addr) : Wf (s.lookup_trace_fast pc) := by
  rcases lookup_trace_fast_cases s pc with ⟨-, heq⟩ | ⟨-, ⟨fn, hfind, heq⟩ | heq⟩
  · rw [heq]
    exact ⟨h.distinct, h.placed, h.cached, h.entry_ne, h.l1_empty⟩
  · rw [heq]
    refine ⟨h.distinct, h.placed, h.cached, h.entry_ne, fun i hi => ?_⟩
    by_cases hpc : i = l1 pc
    · simp only [hpc, Function.update_self] at hi
      exact absurd hi (h.entry_ne pc fn hfind)
    · simp only [Function.update_of_ne hpc] at hi ⊢
      exact h.l1_empty i hi
  · rw [heq]
    exact ⟨h.distinct, h.placed, h.cached, h.entry_ne, h.l1_empty⟩

/-- Control that has gone elsewhere. -/
theorem Sound.withControl (h : Sound s) {c : Option (Addr × Addr)}
    (hc : ∀ loc, c = some loc → ∃ t ∈ s.traces, t.runs loc) : Sound { s with control := c } :=
  ⟨h.prolog, h.entry, h.l1, h.jump, h.fixup, hc⟩

theorem not_runs_zero (h : Wf s) (pc : Addr) : ¬ ∃ t ∈ s.traces, t.runs (0, pc) := by
  rintro ⟨t, ht, -, hzero | hzero⟩
  · exact (h.placed t ht).ne_zero hzero.symm
  · have hlt := (h.placed t ht).entry.1
    have hpos : 0 < t.prolog.toNat :=
      Nat.pos_of_ne_zero fun h0 => (h.placed t ht).ne_zero (BitVec.eq_of_toNat_eq h0)
    have hentry : t.entry.toNat = 0 := by rw [← hzero]; rfl
    omega

theorem ready_of_miss (h : s.trace_pc (l1 pc) ≠ pc) : Ready s pc := by
  by_cases hpc : pc = 0
  · rw [hpc, l1_zero] at h
    exact .inr (.inl h)
  · exact .inl hpc

/-- A lookup goes astray only through an entry that was never filled, which pc 0 hits. -/
theorem sound_lookup_iff (hwf : Wf s) (h : Sound s) (pc : Addr) :
    Sound (s.lookup_trace_fast pc) ↔ Ready s pc := by
  rcases lookup_trace_fast_cases s pc with ⟨hhit, heq⟩ | ⟨hmiss, ⟨fn, hfind, heq⟩ | heq⟩
  · rw [heq]
    by_cases hfn : s.trace_fn (l1 pc) = 0
    · have hpc : pc = 0 := by rw [← hhit, hwf.l1_empty _ hfn]
      subst hpc
      rw [l1_zero] at hhit hfn ⊢
      constructor
      · intro hsound
        have hruns := hsound.control _ rfl
        rw [hfn] at hruns
        exact absurd hruns (not_runs_zero hwf 0)
      · rintro (hne | hne | hne)
        · exact absurd rfl hne
        · exact absurd hhit hne
        · exact absurd hfn hne
    · refine iff_of_true (h.withControl ?_) ?_
      · intro loc hloc
        obtain rfl := Option.some.inj hloc
        obtain ⟨t, ht, hpc, hentry⟩ := h.l1 _ hfn
        exact ⟨t, ht, hpc.trans hhit, .inr hentry.symm⟩
      · by_cases hpc : pc = 0
        · rw [hpc, l1_zero] at hfn
          exact .inr (.inr hfn)
        · exact .inl hpc
  · rw [heq]
    obtain ⟨t, ht, hpc, hentry⟩ := h.entry pc fn hfind
    refine iff_of_true ⟨h.prolog, h.entry, ?_, h.jump, h.fixup, ?_⟩ ?_
    · intro i hi
      by_cases hi1 : i = l1 pc
      · simp only [hi1, Function.update_self]
        exact ⟨t, ht, hpc, hentry⟩
      · simp only [Function.update_of_ne hi1] at hi ⊢
        exact h.l1 i hi
    · intro loc hloc
      obtain rfl := Option.some.inj hloc
      exact ⟨t, ht, hpc, .inr hentry.symm⟩
    · exact ready_of_miss hmiss
  · rw [heq]
    exact iff_of_true (h.withControl fun loc hloc => by cases hloc) (ready_of_miss hmiss)

end

/-! ## fence.i -/

section
variable {s : Cache}

theorem Wf.clear_traces (h : Wf s) : s.clear_trace_cache.traces = [] := by
  simp only [clear_trace_cache, List.filter_eq_nil_iff]
  intro t ht hkeep
  have hent : (⟨t.pc, t.prolog⟩ : Sigma fun _ : Addr => Addr) ∈ s.trace_cache_prolog.entries :=
    AList.mem_lookup_iff.mp (h.cached t ht)
  have hany : (s.trace_cache_prolog.entries.any fun ent => ent.2 = t.prolog) = true :=
    List.any_eq_true.mpr ⟨_, hent, decide_eq_true rfl⟩
  rw [hany] at hkeep
  cases hkeep

theorem Wf.clear (h : Wf s) : Wf s.clear_trace_cache := by
  have hnil := h.clear_traces
  refine ⟨?_, ?_, ?_, ?_, h.l1_empty⟩
  · rw [hnil]
    exact List.Pairwise.nil
  · rw [hnil]
    exact fun _ ht => absurd ht List.not_mem_nil
  · rw [hnil]
    exact fun _ ht => absurd ht List.not_mem_nil
  · intro pc fn hfind
    simp [clear_trace_cache] at hfind

/-- All traces are released, so nothing may lead to one. -/
theorem sound_clear_iff (hwf : Wf s) (hcontrol : s.control = none) :
    Sound s.clear_trace_cache ↔ Safe s .fence_i := by
  have hnil := hwf.clear_traces
  have hnone {P : Trace → Prop} : ¬ ∃ t ∈ s.clear_trace_cache.traces, P t := by
    rw [hnil]
    rintro ⟨t, ht, -⟩
    exact absurd ht List.not_mem_nil
  constructor
  · intro h
    refine ⟨fun i => ?_, fun pc => ?_⟩
    · by_contra hne
      exact hnone (h.l1 i hne)
    · apply List.eq_nil_iff_forall_not_mem.mpr
      intro a ha
      exact hnone (h.fixup pc a ha)
  · rintro ⟨hl1, hfix⟩
    refine ⟨?_, ?_, ?_, ?_, ?_, ?_⟩
    · intro pc fn hfind
      simp [clear_trace_cache] at hfind
    · intro pc fn hfind
      simp [clear_trace_cache] at hfind
    · exact fun i hi => absurd (hl1 i) hi
    · rw [hnil]
      exact fun _ ht => absurd ht List.not_mem_nil
    · intro pc a ha
      have hnot : a ∉ s.fixups pc := by
        rw [hfix pc]
        exact List.not_mem_nil
      exact absurd ha hnot
    · intro loc hloc
      have hnone' : s.control = some loc := hloc
      rw [hcontrol] at hnone'
      cases hnone'

end

/-! ## Compilation -/

def Jump.fixed (entry_addr : Addr) (fixups : List Addr) (j : Jump) : Jump :=
  if j.addr ∈ fixups then
    { j with target := some (j.addr + displacement (entry_addr - j.addr)) }
  else j

def Trace.fixed (entry_addr : Addr) (fixups : List Addr) (t : Trace) : Trace :=
  { t with jumps := t.jumps.map (Jump.fixed entry_addr fixups) }

@[simp] theorem Jump.fixed_addr (entry_addr : Addr) (fixups : List Addr) (j : Jump) :
    (j.fixed entry_addr fixups).addr = j.addr := by
  unfold Jump.fixed
  split <;> rfl

@[simp] theorem Jump.fixed_pc (entry_addr : Addr) (fixups : List Addr) (j : Jump) :
    (j.fixed entry_addr fixups).pc = j.pc := by
  unfold Jump.fixed
  split <;> rfl

theorem Jump.fixed_patch (entry_addr a : Addr) (fixups : List Addr) (j : Jump) :
    (j.patch entry_addr a).fixed entry_addr fixups = j.fixed entry_addr (a :: fixups) := by
  unfold Jump.patch Jump.fixed
  by_cases ha : j.addr = a
  · subst ha
    simp only [if_true, List.mem_cons_self]
    split <;> rfl
  · have hmem : j.addr ∈ a :: fixups ↔ j.addr ∈ fixups := by
      rw [List.mem_cons, or_iff_right ha]
    rw [if_neg ha]
    by_cases hin : j.addr ∈ fixups
    · rw [if_pos hin, if_pos (hmem.mpr hin)]
    · rw [if_neg hin, if_neg (fun h => hin (hmem.mp h))]

theorem foldl_patch (entry_addr : Addr) (fixups : List Addr) (ts : List Trace) :
    fixups.foldl (fun ts a => ts.map (Trace.patch entry_addr a)) ts =
      ts.map (Trace.fixed entry_addr fixups) := by
  induction fixups generalizing ts with
  | nil =>
    have hid : Trace.fixed entry_addr [] = id := by
      funext t
      have hjump : Jump.fixed entry_addr [] = id := by
        funext j
        exact if_neg List.not_mem_nil
      rw [Trace.fixed, hjump, List.map_id]
      rfl
    rw [List.foldl_nil, hid, List.map_id]
  | cons a fixups ih =>
    rw [List.foldl_cons, ih, List.map_map]
    congr 1
    funext t
    simp only [Function.comp_apply, Trace.fixed, Trace.patch, List.map_map]
    congr 2
    funext j
    exact j.fixed_patch entry_addr a fixups

theorem mem_stash (m : AList fun _ : Addr => List Addr) (j : Jump) (pc a : Addr) :
    a ∈ ((stash m j).lookup pc).getD [] ↔
      a ∈ (m.lookup pc).getD [] ∨ j.pc = pc ∧ j.addr = a := by
  unfold stash
  by_cases hpc : pc = j.pc
  · rw [hpc, AList.lookup_insert, Option.getD_some, List.mem_append, List.mem_singleton]
    constructor
    · exact Or.imp_right fun h => ⟨rfl, h.symm⟩
    · exact Or.imp_right fun h => h.2.symm
  · rw [AList.lookup_insert_ne hpc]
    exact ⟨.inl, fun h => h.resolve_right fun h => hpc h.1.symm⟩

theorem mem_foldl_stash (jumps : List Jump) (m : AList fun _ : Addr => List Addr) (pc a : Addr) :
    a ∈ ((jumps.foldl stash m).lookup pc).getD [] ↔
      a ∈ (m.lookup pc).getD [] ∨ ∃ j ∈ jumps, j.pc = pc ∧ j.addr = a := by
  induction jumps generalizing m with
  | nil =>
    refine ⟨.inl, fun h => h.resolve_right ?_⟩
    rintro ⟨j, hj, -⟩
    exact absurd hj List.not_mem_nil
  | cons j jumps ih =>
    rw [List.foldl_cons, ih, mem_stash, List.exists_mem_cons_iff, or_assoc]

section
variable {s : Cache} {pc fn : Addr} {code : Code}

/-- The trace as it is added. -/
def Cache.added (s : Cache) (pc : Addr) (code : Code) (fn : Addr) : Trace :=
  ⟨pc, fn, fn + BitVec.ofNat 64 code.start, code.size, s.emit fn code⟩

theorem jit_cache_traces (s : Cache) (pc : Addr) (code : Code) (fn : Addr) :
    (s.jit_cache pc code fn).traces =
      (s.added pc code fn :: s.traces).map
        (Trace.fixed (fn + BitVec.ofNat 64 code.start) (s.fixups pc)) := by
  unfold jit_cache jit_stash_fixups jit_apply_fixups Cache.fixups
  simp only
  cases hfind : s.jmp_fixup_addrs.lookup pc with
  | none =>
    have hnil := foldl_patch (fn + BitVec.ofNat 64 code.start) [] (s.added pc code fn :: s.traces)
    exact hnil
  | some fixups => exact foldl_patch _ fixups _

theorem mem_jit_cache_fixups (s : Cache) (pc : Addr) (code : Code) (fn pc' a : Addr) :
    a ∈ (s.jit_cache pc code fn).fixups pc' ↔
      pc' ≠ pc ∧ a ∈ s.fixups pc' ∨
        ∃ j ∈ s.emit fn code, j.target = none ∧ j.pc = pc' ∧ j.addr = a := by
  have hstash (m : AList fun _ : Addr => List Addr) :
      a ∈ ((((s.emit fn code).filter fun j => j.target.isNone).foldl stash m).lookup pc').getD [] ↔
        a ∈ (m.lookup pc').getD [] ∨
          ∃ j ∈ s.emit fn code, j.target = none ∧ j.pc = pc' ∧ j.addr = a := by
    rw [mem_foldl_stash]
    simp only [List.mem_filter, Option.isNone_iff_eq_none, and_assoc]
  unfold jit_cache jit_stash_fixups jit_apply_fixups Cache.fixups
  simp only
  cases hfind : s.jmp_fixup_addrs.lookup pc with
  | none =>
    rw [hstash]
    refine or_congr_left ⟨fun ha => ⟨?_, ha⟩, And.right⟩
    rintro rfl
    rw [hfind] at ha
    exact absurd ha List.not_mem_nil
  | some fixups =>
    rw [hstash]
    refine or_congr_left ?_
    by_cases hpc : pc' = pc
    · rw [hpc, AList.lookup_erase]
      exact ⟨fun ha => absurd ha List.not_mem_nil, fun ha => absurd rfl ha.1⟩
    · rw [AList.lookup_erase_ne hpc]
      exact ⟨fun ha => ⟨hpc, ha⟩, And.right⟩

theorem jit_cache_rest (s : Cache) (pc : Addr) (code : Code) (fn : Addr) :
    (s.jit_cache pc code fn).trace_cache_prolog = s.trace_cache_prolog.insert pc fn ∧
    (s.jit_cache pc code fn).trace_cache_entry =
      s.trace_cache_entry.insert pc (fn + BitVec.ofNat 64 code.start) ∧
    (s.jit_cache pc code fn).trace_pc = s.trace_pc ∧
    (s.jit_cache pc code fn).trace_fn = s.trace_fn ∧
    (s.jit_cache pc code fn).control = s.control := by
  unfold jit_cache jit_stash_fixups jit_apply_fixups
  simp only
  split
  · exact ⟨rfl, rfl, rfl, rfl, rfl⟩
  · exact ⟨rfl, rfl, rfl, rfl, rfl⟩

/-- Patching leaves the labels where they are. -/
theorem Trace.Placed.fixed {t : Trace} (h : t.Placed) (entry_addr : Addr) (fixups : List Addr) :
    (t.fixed entry_addr fixups).Placed := by
  refine ⟨h.ne_zero, h.fits, h.entry, ?_, ?_⟩
  · intro j hj
    obtain ⟨k, hk, rfl⟩ := List.mem_map.mp hj
    rw [Jump.fixed_addr]
    exact h.jump k hk
  · have haddr : (t.fixed entry_addr fixups).jumps.map Jump.addr = t.jumps.map Jump.addr := by
      simp only [Trace.fixed, List.map_map]
      congr 1
      funext j
      exact j.fixed_addr entry_addr fixups
    rw [haddr]
    exact h.nodup

theorem toNat_add_ofNat {a : Addr} {n size : ℕ} (h : a.toNat + size < 2 ^ 64) (hn : n ≤ size) :
    (a + BitVec.ofNat 64 n).toNat = a.toNat + n := by
  rw [BitVec.toNat_add, BitVec.toNat_ofNat, Nat.add_mod_mod, Nat.mod_eq_of_lt (by omega)]

theorem placed_added (hfresh : s.Fresh code fn) (pc : Addr) : (s.added pc code fn).Placed := by
  obtain ⟨hne, hfits, -⟩ := hfresh
  refine ⟨hne, hfits, ?_, ?_, ?_⟩
  · have hentry := toNat_add_ofNat hfits (Nat.le_of_lt code.start_lt)
    have hlt := code.start_lt
    simp only [Cache.added]
    omega
  · intro j hj
    obtain ⟨k, hk, rfl⟩ := List.mem_map.mp hj
    obtain ⟨hpos, hle⟩ := code.label_le k hk
    have haddr := toNat_add_ofNat hfits hle
    simp only [Cache.added]
    omega
  · have hmap : (s.added pc code fn).jumps.map Jump.addr =
        (code.jumps.map Prod.fst).map fun n => fn + BitVec.ofNat 64 n := by
      simp only [Cache.added, emit, List.map_map]
      rfl
    rw [hmap]
    refine List.Nodup.map_on ?_ code.nodup
    intro m hm n hn heq
    obtain ⟨j, hj, rfl⟩ := List.mem_map.mp hm
    obtain ⟨k, hk, rfl⟩ := List.mem_map.mp hn
    have hnat := congrArg BitVec.toNat heq
    rw [toNat_add_ofNat hfits (code.label_le j hj).2,
      toNat_add_ofNat hfits (code.label_le k hk).2] at hnat
    exact Nat.add_left_cancel hnat

theorem Wf.jit_cache (h : Wf s) (hpc : s.trace_cache_prolog.lookup pc = none)
    (hfresh : s.Fresh code fn) : Wf (s.jit_cache pc code fn) := by
  obtain ⟨hprolog, hentry, htpc, htfn, -⟩ := jit_cache_rest s pc code fn
  have hadded := placed_added hfresh pc
  refine ⟨?_, ?_, ?_, ?_, ?_⟩
  · rw [jit_cache_traces, List.pairwise_map, List.pairwise_cons]
    refine ⟨?_, h.distinct⟩
    intro t ht
    refine ⟨?_, hfresh.2.2 t ht⟩
    intro heq
    have hcached := h.cached t ht
    have heq' : pc = t.pc := heq
    rw [← heq', hpc] at hcached
    cases hcached
  · rw [jit_cache_traces]
    intro t ht
    obtain ⟨u, hu, rfl⟩ := List.mem_map.mp ht
    rcases List.mem_cons.mp hu with rfl | hu
    · exact hadded.fixed _ _
    · exact (h.placed u hu).fixed _ _
  · rw [jit_cache_traces, hprolog]
    intro t ht
    obtain ⟨u, hu, rfl⟩ := List.mem_map.mp ht
    rcases List.mem_cons.mp hu with rfl | hu
    · exact AList.lookup_insert _
    · have hne : u.pc ≠ pc := by
        rintro heq
        have hcached := h.cached u hu
        rw [heq, hpc] at hcached
        cases hcached
      exact (AList.lookup_insert_ne hne).trans (h.cached u hu)
  · rw [hentry]
    intro pc' fn' hfind
    by_cases heq : pc' = pc
    · rw [heq, AList.lookup_insert] at hfind
      obtain rfl := Option.some.inj hfind
      intro hzero
      have hlt := hadded.entry.1
      have hpos : 0 < fn.toNat := Nat.pos_of_ne_zero fun h0 => hfresh.1 (BitVec.eq_of_toNat_eq h0)
      have hnat : (s.added pc code fn).entry.toNat = 0 := congrArg BitVec.toNat hzero
      have hle : fn.toNat ≤ (s.added pc code fn).entry.toNat := hlt
      omega
    · rw [AList.lookup_insert_ne heq] at hfind
      exact h.entry_ne pc' fn' hfind
  · rw [htpc, htfn]
    exact h.l1_empty

theorem mem_jit_cache_traces {t : Trace} (ht : t ∈ s.added pc code fn :: s.traces) :
    t.fixed (fn + BitVec.ofNat 64 code.start) (s.fixups pc) ∈ (s.jit_cache pc code fn).traces := by
  rw [jit_cache_traces]
  exact List.mem_map_of_mem ht

/-- What leads to a trace leads to it after a compilation. -/
theorem exists_jit_cache {pc' fn' : Addr} (h : ∃ t ∈ s.traces, t.pc = pc' ∧ t.entry = fn') :
    ∃ t ∈ (s.jit_cache pc code fn).traces, t.pc = pc' ∧ t.entry = fn' := by
  obtain ⟨t, ht, hpc, hentry⟩ := h
  exact ⟨_, mem_jit_cache_traces (List.mem_cons_of_mem _ ht), hpc, hentry⟩

theorem Wf.pc_ne (h : Wf s) (hpc : s.trace_cache_prolog.lookup pc = none) {t : Trace}
    (ht : t ∈ s.traces) : t.pc ≠ pc := by
  intro heq
  have hcached := h.cached t ht
  rw [heq, hpc] at hcached
  cases hcached

theorem safe_of_sound_jit_cache (hwf : Wf s) (h : Sound s)
    (hpc : s.trace_cache_prolog.lookup pc = none)
    (hsound : Sound (s.jit_cache pc code fn)) : Safe s (.compile pc code fn) := by
  intro a ha
  obtain ⟨t, ht, j, hj, rfl, rfl⟩ := h.fixup pc a ha
  have hmem : t.fixed (fn + BitVec.ofNat 64 code.start) (s.fixups j.pc) ∈
      (s.jit_cache j.pc code fn).traces :=
    mem_jit_cache_traces (List.mem_cons_of_mem _ ht)
  obtain ⟨u, hu, hupc, huentry⟩ := hsound.jump _ hmem _ (List.mem_map_of_mem hj) _ (by
    rw [Jump.fixed, if_pos ha])
  rw [Jump.fixed_pc] at hupc
  rw [jit_cache_traces] at hu
  obtain ⟨v, hv, rfl⟩ := List.mem_map.mp hu
  rcases List.mem_cons.mp hv with rfl | hv
  · have hentry : fn + BitVec.ofNat 64 code.start =
        j.addr + displacement (fn + BitVec.ofNat 64 code.start - j.addr) := huentry
    apply BitVec.eq_sub_iff_add_eq.mpr
    rw [BitVec.add_comm]
    exact hentry.symm
  · have hne : v.pc ≠ j.pc := hwf.pc_ne hpc hv
    exact absurd hupc hne

theorem add_sub_self (a b : Addr) : a + (b - a) = b := by
  rw [BitVec.add_comm, BitVec.sub_add_cancel]

/-- New code has no label of a jump that is to be patched. -/
theorem not_mem_fixups_of_added (hwf : Wf s) (h : Sound s) (hfresh : s.Fresh code fn) {j : Jump}
    (hj : j ∈ s.emit fn code) : j.addr ∉ s.fixups pc := by
  intro hmem
  obtain ⟨t, ht, k, hk, haddr, -⟩ := h.fixup pc j.addr hmem
  have hnew := (placed_added hfresh pc).jump j hj
  have hold := (hwf.placed t ht).jump k hk
  rw [haddr] at hold
  simp only [Cache.added] at hnew
  rcases hfresh.2.2 t ht with hlt | hlt
  · omega
  · omega

theorem sound_jit_cache (hwf : Wf s) (h : Sound s) (hcontrol : s.control = none)
    (hfresh : s.Fresh code fn)
    (hsafe : Safe s (.compile pc code fn)) : Sound (s.jit_cache pc code fn) := by
  obtain ⟨hprolog, hentry, htpc, htfn, hctl⟩ := jit_cache_rest s pc code fn
  have hadded := mem_jit_cache_traces (List.mem_cons_self (a := s.added pc code fn) (l := s.traces))
  refine ⟨?_, ?_, ?_, ?_, ?_, ?_⟩
  · rw [hprolog]
    intro pc' fn' hfind
    by_cases heq : pc' = pc
    · rw [heq, AList.lookup_insert] at hfind
      exact ⟨_, hadded, heq.symm, Option.some.inj hfind⟩
    · rw [AList.lookup_insert_ne heq] at hfind
      obtain ⟨t, ht, htp, hfn⟩ := h.prolog pc' fn' hfind
      exact ⟨_, mem_jit_cache_traces (List.mem_cons_of_mem _ ht), htp, hfn⟩
  · rw [hentry]
    intro pc' fn' hfind
    by_cases heq : pc' = pc
    · rw [heq, AList.lookup_insert] at hfind
      exact ⟨_, hadded, heq.symm, Option.some.inj hfind⟩
    · rw [AList.lookup_insert_ne heq] at hfind
      exact exists_jit_cache (h.entry pc' fn' hfind)
  · rw [htpc, htfn]
    exact fun i hi => exists_jit_cache (h.l1 i hi)
  · rw [jit_cache_traces]
    intro t' ht' j' hj' fn' htarget
    rw [← jit_cache_traces]
    obtain ⟨t, ht, rfl⟩ := List.mem_map.mp ht'
    obtain ⟨j, hj, rfl⟩ := List.mem_map.mp hj'
    rw [Jump.fixed_pc]
    rcases List.mem_cons.mp ht with rfl | ht
    · rw [Jump.fixed, if_neg (not_mem_fixups_of_added hwf h hfresh hj)] at htarget
      obtain ⟨k, hk, rfl⟩ := List.mem_map.mp hj
      exact exists_jit_cache (h.entry k.2 fn' htarget)
    · by_cases hfix : j.addr ∈ s.fixups pc
      · obtain ⟨u, hu, k, hk, haddr, hkpc⟩ := h.fixup pc j.addr hfix
        obtain rfl := hwf.eq_of_addr hu ht hk hj haddr
        rw [Jump.fixed, if_pos hfix, hsafe _ hfix] at htarget
        refine ⟨_, hadded, hkpc.symm, ?_⟩
        have hfn' := Option.some.inj htarget
        rw [add_sub_self] at hfn'
        exact hfn'
      · rw [Jump.fixed, if_neg hfix] at htarget
        exact exists_jit_cache (h.jump t ht j hj fn' htarget)
  · intro pc' a ha
    rcases (mem_jit_cache_fixups s pc code fn pc' a).mp ha with ⟨-, hold⟩ | ⟨j, hj, -, hjpc, haddr⟩
    · obtain ⟨t, ht, j, hj, haddr, hjpc⟩ := h.fixup pc' a hold
      refine ⟨_, mem_jit_cache_traces (List.mem_cons_of_mem _ ht), _, List.mem_map_of_mem hj, ?_, ?_⟩
      · rw [Jump.fixed_addr, haddr]
      · rw [Jump.fixed_pc, hjpc]
    · refine ⟨_, hadded, _, List.mem_map_of_mem hj, ?_, ?_⟩
      · rw [Jump.fixed_addr, haddr]
      · rw [Jump.fixed_pc, hjpc]
  · rw [hctl, hcontrol]
    exact fun _ hloc => by cases hloc

end

/-! ## Steps and runs -/

theorem Wf.step {s s' : Cache} {e : Event} (hstep : step s e = some s') (h : Wf s) : Wf s' := by
  have hcontrol {c : Option (Addr × Addr)} : Wf { s with control := c } :=
    ⟨h.distinct, h.placed, h.cached, h.entry_ne, h.l1_empty⟩
  cases e with
  | compile pc code fn =>
    simp only [Cache.step] at hstep
    split at hstep
    · rename_i hguard
      obtain rfl := Option.some.inj hstep
      exact h.jit_cache hguard.2.1 hguard.2.2
    · cases hstep
  | fence_i =>
    simp only [Cache.step] at hstep
    split at hstep
    · obtain rfl := Option.some.inj hstep
      exact h.clear
    · cases hstep
  | exec pc =>
    simp only [Cache.step] at hstep
    split at hstep
    · obtain rfl := Option.some.inj hstep
      exact hcontrol
    · cases hstep
  | jump j =>
    simp only [Cache.step] at hstep
    split at hstep
    · split at hstep
      · split at hstep
        · obtain rfl := Option.some.inj hstep
          exact hcontrol
        · obtain rfl := Option.some.inj hstep
          exact h.lookup_trace_fast j.pc
      · cases hstep
    · cases hstep
  | indirect pc =>
    simp only [Cache.step] at hstep
    split at hstep
    · obtain rfl := Option.some.inj hstep
      exact h.lookup_trace_fast pc
    · cases hstep
  | leave =>
    simp only [Cache.step] at hstep
    split at hstep
    · obtain rfl := Option.some.inj hstep
      exact hcontrol
    · cases hstep

theorem sound_step_iff {s s' : Cache} {e : Event} (hstep : step s e = some s') (hwf : Wf s)
    (h : Sound s) : Sound s' ↔ Safe s e := by
  cases e with
  | compile pc code fn =>
    simp only [Cache.step] at hstep
    split at hstep
    · rename_i hguard
      obtain ⟨hcontrol, hpc, hfresh⟩ := hguard
      obtain rfl := Option.some.inj hstep
      exact ⟨safe_of_sound_jit_cache hwf h hpc, sound_jit_cache hwf h hcontrol hfresh⟩
    · cases hstep
  | fence_i =>
    simp only [Cache.step] at hstep
    split at hstep
    · rename_i hcontrol
      obtain rfl := Option.some.inj hstep
      exact sound_clear_iff hwf hcontrol
    · cases hstep
  | exec pc =>
    simp only [Cache.step] at hstep
    split at hstep
    · rename_i fn hcontrol hfind
      obtain rfl := Option.some.inj hstep
      refine iff_of_true (h.withControl fun loc hloc => ?_) trivial
      obtain rfl := Option.some.inj hloc
      obtain ⟨t, ht, hpc, hfn⟩ := h.prolog pc fn hfind
      exact ⟨t, ht, hpc, .inl hfn.symm⟩
    · cases hstep
  | jump j =>
    simp only [Cache.step] at hstep
    split at hstep
    · split at hstep
      · rename_i hguard
        obtain ⟨t, ht, -, hj⟩ := hguard
        split at hstep
        · rename_i fn htarget
          obtain rfl := Option.some.inj hstep
          refine iff_of_true (h.withControl fun loc hloc => ?_) ?_
          · obtain rfl := Option.some.inj hloc
            obtain ⟨u, hu, hpc, hfn⟩ := h.jump t ht j hj fn htarget
            exact ⟨u, hu, hpc, .inr hfn.symm⟩
          · intro hnone
            rw [htarget] at hnone
            cases hnone
        · rename_i htarget
          obtain rfl := Option.some.inj hstep
          rw [sound_lookup_iff hwf h]
          exact ⟨fun hready _ => hready, fun hsafe => hsafe htarget⟩
      · cases hstep
    · cases hstep
  | indirect pc =>
    simp only [Cache.step] at hstep
    split at hstep
    · obtain rfl := Option.some.inj hstep
      exact sound_lookup_iff hwf h pc
    · cases hstep
  | leave =>
    simp only [Cache.step] at hstep
    split at hstep
    · obtain rfl := Option.some.inj hstep
      exact iff_of_true (h.withControl fun loc hloc => by cases hloc) trivial
    · cases hstep

/-- **When compiled code outlives its addresses**, over every run of the cache. -/
theorem lifetime_exact (es : List Event) :
    Runs.Always step Sound Cache.init es ↔ Runs.Meets step Safe Cache.init es := by
  have hwf : ∀ s e s', step s e = some s' → Wf s → Wf s' := fun _ _ _ hstep h => h.step hstep
  have hsound : ∀ s e s', step s e = some s' → Wf s → Sound s → (Sound s' ↔ Safe s e) :=
    fun _ _ _ hstep h hs => sound_step_iff hstep h hs
  exact Runs.always_iff_meets hwf hsound es Wf.init Sound.init

/-- A trace that ends with a branch to another pc. -/
def oneJump (pc : Addr) : Code where
  size := 64
  start := 16
  jumps := [(40, pc)]
  start_lt := by decide
  label_le := by simp
  nodup := List.nodup_singleton _

/-- After `fence.i` a jump of a released trace is still to be patched. -/
theorem fence_i_leaves_fixup :
    ∃ s, Runs.run step Cache.init [.compile 0x10000 (oneJump 0x10040) 0x7f0000000000, .fence_i] =
      some s ∧ s.traces = [] ∧ ¬ Sound s := by
  refine ⟨_, rfl, by decide, ?_⟩
  intro h
  obtain ⟨t, ht, -⟩ := h.fixup 0x10040 0x7f0000000028 (by decide)
  exact absurd ht List.not_mem_nil

end RvCkpt.Jit
