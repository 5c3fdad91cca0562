import RvCkpt.Mmu.Access
import RvCkpt.Lib.Runs

/-! # Accessed and dirty flags

Which entries of the page tables carry the flags of the accesses that went through them, over runs
of translations, flushes and writes to memory. An entry that somebody writes over is no longer
watched; an access through it watches it again.
-/

namespace RvCkpt.Mmu
set_option autoImplicit false
open ByteMem Priv Isa Runs

/-! ## Flags in memory -/

/-- The entry at `a` has the flags that the access needs. -/
def Marked (m : Mem) (a : ℕ) (op : MmuOp) : Prop :=
  (m a).getLsbD 6 = true ∧ (op = .store → (m a).getLsbD 7 = true)

/-- A walk writes the flags and nothing else. -/
theorem store_flags {b b' : Bus} {M : Paging} {op : MmuOp} {a : ℕ}
    (h : b.store a M.size (b.mem.read a M.size ||| op.adFlags) = some b') (i : ℕ) :
    b'.mem i = if i = a then b.mem a ||| byteAt op.adFlags 0 else b.mem i := by
  have hsize : 0 < M.size ∧ M.size ≤ 8 := by
    rcases M.hsize with h | h <;> omega
  unfold Bus.store at h
  split at h
  · obtain rfl := Option.some.inj h
    dsimp only
    by_cases hi : a ≤ i ∧ i < a + M.size
    · have hlt : i - a < M.size := by omega
      have hor : byteAt (b.mem.read a M.size ||| op.adFlags) (i - a) =
          b.mem i ||| byteAt op.adFlags (i - a) := by
        have hread := Mem.byteAt_read b.mem a hsize.2 hlt
        rw [Nat.add_sub_cancel' hi.1] at hread
        rw [← hread]
        exact BitVec.extractLsb'_or
      rw [Mem.write_of_mem hi, hor]
      by_cases heq : i = a
      · rw [heq, Nat.sub_self, if_pos rfl]
      · have hzero : byteAt op.adFlags (i - a) = 0 := by
          have hle : i - a < 8 := hlt.trans_le hsize.2
          have hpos : i - a ≠ 0 := by omega
          have hall : ∀ j < 8, j ≠ 0 → byteAt op.adFlags j = 0 := by
            cases op <;> decide
          exact hall (i - a) hle hpos
        rw [hzero, if_neg heq]
        exact BitVec.or_zero
    · have hne : i ≠ a := by omega
      rw [Mem.write_of_not_mem (by omega), if_neg hne]
  · cases h

theorem Marked.store {b b' : Bus} {M : Paging} {op : MmuOp} {a : ℕ}
    (h : b.store a M.size (b.mem.read a M.size ||| op.adFlags) = some b') {i : ℕ} {op' : MmuOp}
    (hm : Marked b.mem i op') : Marked b'.mem i op' := by
  unfold Marked at hm ⊢
  rw [store_flags h i]
  split
  · rename_i heq
    rw [heq] at hm
    refine ⟨?_, fun hop => ?_⟩
    · rw [BitVec.getLsbD_or, hm.1, Bool.true_or]
    · rw [BitVec.getLsbD_or, hm.2 hop, Bool.true_or]
  · exact hm

theorem marked_store {b b' : Bus} {M : Paging} {op : MmuOp} {a : ℕ}
    (h : b.store a M.size (b.mem.read a M.size ||| op.adFlags) = some b') :
    Marked b'.mem a op := by
  unfold Marked
  rw [store_flags h a, if_pos rfl, BitVec.getLsbD_or, BitVec.getLsbD_or]
  cases op with
  | fetch => exact ⟨Bool.or_true _, nofun⟩
  | load => exact ⟨Bool.or_true _, nofun⟩
  | store => exact ⟨Bool.or_true _, fun _ => Bool.or_true _⟩

/-- Flags that an entry has when it is loaded. -/
theorem marked_of_flags {m : Mem} {M : Paging} {op : MmuOp} {a : ℕ} {pte : Pte}
    (hval : pte.val = m.read a M.size) (h : pte.flags &&& op.adFlags = op.adFlags) :
    Marked m a op := by
  have hsize : 0 < M.size ∧ M.size ≤ 8 := by
    rcases M.hsize with h | h <;> omega
  have hbit : ∀ j < 8, op.adFlags.getLsbD j = true → (m a).getLsbD j = true := by
    intro j hj hop
    have hflag := congrArg (fun x => x.getLsbD j) h
    simp only [BitVec.getLsbD_and, hop, Bool.and_true] at hflag
    unfold Pte.flags at hflag
    simp only [BitVec.getLsbD_setWidth, BitVec.truncate_eq_setWidth, Bool.and_eq_true] at hflag
    rw [hval, Mem.getLsbD_read m a hsize.2 (by omega)] at hflag
    have hdiv : j / 8 = 0 := by omega
    have hmod : j % 8 = j := by omega
    rw [hdiv, hmod] at hflag
    exact hflag.2.2
  refine ⟨hbit 6 (by decide) (by cases op <;> decide), fun hop => ?_⟩
  subst hop
  exact hbit 7 (by decide) (by decide)

section
variable {so : ShiftOver} {P : Param} {M : Paging} {k : ℕ} {bus : Bus} {x : Access P} {fuel : ℕ}

/-- A walk leaves the flags of its access, and takes none away. -/
theorem walk_marked {bus' : Bus} {pte : Pte} {level : UX P} {addr n : ℕ}
    (h : walk_page_table so P M bus x.sptbr x.va x.op fuel = some (.leaf bus' pte level addr, n)) :
    Marked bus'.mem addr x.op ∧
      ∀ i op, Marked bus.mem i op → Marked bus'.mem i op := by
  obtain ⟨f, -, hval, -, hup⟩ := walk_leaf h
  rw [hup.addr]
  rcases hup.memory with ⟨rfl, hok⟩ | hstore
  · exact ⟨marked_of_flags hval hok, fun _ _ hm => hm⟩
  · rw [hval] at hstore
    exact ⟨marked_store hstore, fun _ _ hm => hm.store hstore⟩

end

/-! ## Runs -/

/-- The unit, the page-table entry that each slot of a TLB was filled from, and the entries that
accesses went through, as long as nobody has written over them. -/
structure Watched (P : Param) (k : ℕ) where
  mmu : MmuSoft P k
  origin : L1 → BitVec k → Option ℕ
  due : List (ℕ × MmuOp)

inductive MmuEvent (P : Param) where
  | translate (M : Paging) (x : Access P) (fuel : ℕ)
  | flush (l : L1) (pdid : UX P)
  | flushAsid (l : L1) (pdid asid : UX P)
  | write (a n : ℕ) (val : BitVec 64)

section
variable (so : ShiftOver) {P : Param} {k : ℕ}

def slotOf (k : ℕ) (va : UX P) : BitVec k := (vpnOf va).setWidth k

namespace Watched

def start (P : Param) (k : ℕ) (bus : Bus) : Watched P k := ⟨.start P k bus, fun _ _ => none, []⟩

/-- The page-table entry that an access goes through. -/
def through (M : Paging) (s : Watched P k) (x : Access P) (fuel : ℕ) : Option ℕ :=
  match (s.mmu.tlb x.op.l1).lookup x.pdid x.asid x.va with
  | some e =>
    if e.outdated x.op then s.origin x.op.l1 (slotOf k x.va)
    else walkedEntry so M s.mmu.bus x fuel
  | none => walkedEntry so M s.mmu.bus x fuel

/-- The slots that a flush has emptied were filled from nowhere. -/
def emptied (s : Watched P k) (l : L1) (kept : BitVec k → Prop) [DecidablePred kept] :
    L1 → BitVec k → Option ℕ :=
  fun l' i => if l' = l ∧ ¬ kept i then none else s.origin l' i

def step (s : Watched P k) : MmuEvent P → Option (Watched P k)
  | .translate M x fuel =>
    (s.mmu.translate so M x fuel).map fun r =>
      match r.1 with
      | .error _ => { s with mmu := r.2 }
      | .ok pa =>
        { mmu := r.2
          origin :=
            if pa = 0 then s.origin
            else Function.update s.origin x.op.l1
              (Function.update (s.origin x.op.l1) (slotOf k x.va) (s.through so M x fuel))
          due := ((s.through so M x fuel).map fun a => (a, x.op)).toList ++ s.due }
  | .flush l pdid =>
    some { s with
      mmu := s.mmu.flush l pdid
      origin := s.emptied l fun i => (s.mmu.tlb l i).pdid.setWidth P.width ≠ pdid }
  | .flushAsid l pdid asid =>
    some { s with
      mmu := s.mmu.flushAsid l pdid asid
      origin := s.emptied l fun i => asid ≠ 0 ∧ (s.mmu.tlb l i).pdid.setWidth P.width ≠ pdid ∧
        (s.mmu.tlb l i).asid.setWidth P.width ≠ asid }
  | .write a n val =>
    some { s with
      mmu := { s.mmu with bus := { s.mmu.bus with mem := s.mmu.bus.mem.write a n val } }
      due := s.due.filter fun d => d.1 < a ∨ a + n ≤ d.1 }

/-- Every entry that an access went through has the flags of the access. -/
def AllMarked (s : Watched P k) : Prop := ∀ d ∈ s.due, Marked s.mmu.bus.mem d.1 d.2

/-- A translation that uses an outdated TLB entry finds the flags in the page-table entry that the
TLB entry was filled from. -/
def Current (s : Watched P k) : MmuEvent P → Prop
  | .translate _ x _ =>
    ∀ e, (s.mmu.tlb x.op.l1).lookup x.pdid x.asid x.va = some e → e.outdated x.op = true →
      ∀ a, s.origin x.op.l1 (slotOf k x.va) = some a → Marked s.mmu.bus.mem a x.op
  | _ => True

variable {so} {s : Watched P k} {M : Paging} {x : Access P} {fuel : ℕ}

theorem through_stale {e : TlbEntry P}
    (hlook : (s.mmu.tlb x.op.l1).lookup x.pdid x.asid x.va = some e)
    (hout : e.outdated x.op = true) :
    s.through so M x fuel = s.origin x.op.l1 (slotOf k x.va) := by
  rw [through, hlook]
  exact if_pos hout

theorem through_walk
    (h : ∀ e, (s.mmu.tlb x.op.l1).lookup x.pdid x.asid x.va = some e → e.outdated x.op = false) :
    s.through so M x fuel = walkedEntry so M s.mmu.bus x fuel := by
  rw [through]
  split
  · rename_i e hlook
    rw [h e hlook, if_neg Bool.false_ne_true]
  · rfl

/-- The entries to check after a translation that went through. -/
theorem forall_due {a : Option ℕ} {op : MmuOp} {due : List (ℕ × MmuOp)} {m : Mem} :
    (∀ d ∈ (a.map fun a => (a, op)).toList ++ due, Marked m d.1 d.2) ↔
      (∀ b, a = some b → Marked m b op) ∧ ∀ d ∈ due, Marked m d.1 d.2 := by
  cases a with
  | none => simp
  | some a => simp

/-- A translation that walks keeps the property. -/
theorem AllMarked.walk {t : Translated P k} (hs : s.AllMarked)
    (hwalk : Walks so M (s.mmu.tlb x.op.l1) s.mmu.bus x fuel t) :
    (∀ b, walkedEntry so M s.mmu.bus x fuel = some b → Marked t.bus.mem b x.op) ∧
      ∀ d ∈ s.due, Marked t.bus.mem d.1 d.2 := by
  have hleaf : ∀ {bus' : Bus} {pte : Pte} {level : UX P} {addr n : ℕ},
      walk_page_table so P M s.mmu.bus x.sptbr x.va x.op fuel =
        some (.leaf bus' pte level addr, n) →
      (∀ b, walkedEntry so M s.mmu.bus x fuel = some b → Marked bus'.mem b x.op) ∧
        ∀ d ∈ s.due, Marked bus'.mem d.1 d.2 := by
    intro bus' pte level addr n h
    obtain ⟨hmark, hkept⟩ := walk_marked h
    refine ⟨fun b hb => ?_, fun d hd => hkept _ _ (hs d hd)⟩
    rw [walkedEntry, h] at hb
    obtain rfl := Option.some.inj hb
    exact hmark
  cases hwalk with
  | zero h _ => exact hleaf h
  | leaf h _ => exact hleaf h
  | fault h =>
    refine ⟨fun b hb => ?_, hs⟩
    rw [walkedEntry, h] at hb
    cases hb

theorem allMarked_translate_iff {s' : Watched P k}
    (h : s.step so (.translate M x fuel) = some s') (hs : s.AllMarked) :
    s'.AllMarked ↔ s.Current (.translate M x fuel) := by
  obtain ⟨r, htr, rfl⟩ := Option.map_eq_some_iff.mp h
  obtain ⟨t, hpage, rfl⟩ := Option.map_eq_some_iff.mp htr
  rcases page_translate_addr_cases hpage with ⟨e, hlook, hout, rfl⟩ | ⟨hcur, hwalk⟩
  · -- the outdated entry is used: nothing changes but what is watched
    dsimp only
    unfold AllMarked
    dsimp only
    rw [forall_due, through_stale hlook hout]
    constructor
    · intro hall e' he' _ a ha
      exact hall.1 a ha
    · intro hcur
      exact ⟨fun a ha => hcur e hlook hout a ha, hs⟩
  · refine iff_of_true ?_ ?_
    · obtain ⟨hmark, hkept⟩ := hs.walk hwalk
      dsimp only
      split
      · exact hkept
      · unfold AllMarked
        dsimp only
        rw [forall_due, through_walk hcur]
        exact ⟨hmark, hkept⟩
    · intro e he hout
      rw [hcur e he] at hout
      cases hout

theorem allMarked_step_iff {e : MmuEvent P} {s' : Watched P k} (h : s.step so e = some s')
    (hs : s.AllMarked) : s'.AllMarked ↔ s.Current e := by
  cases e with
  | translate M x fuel => exact allMarked_translate_iff h hs
  | flush l pdid =>
    obtain rfl := Option.some.inj h
    exact iff_of_true hs trivial
  | flushAsid l pdid asid =>
    obtain rfl := Option.some.inj h
    exact iff_of_true hs trivial
  | write a n val =>
    obtain rfl := Option.some.inj h
    refine iff_of_true ?_ trivial
    intro d hd
    obtain ⟨hmem, hout⟩ := List.mem_filter.mp hd
    have hsame : s.mmu.bus.mem.write a n val d.1 = s.mmu.bus.mem d.1 :=
      Mem.write_of_not_mem (of_decide_eq_true hout)
    unfold Marked
    dsimp only
    rw [hsame]
    exact hs d hmem

end Watched

/-- **Accessed and dirty flags.** After every part of a run the entries that were accessed carry
their flags, exactly if no translation of the run uses an outdated TLB entry whose page-table entry
lacks the flags too. -/
theorem marked_exact (bus : Bus) (es : List (MmuEvent P)) :
    Always (Watched.step so) Watched.AllMarked (Watched.start P k bus) es ↔
      Meets (Watched.step so) Watched.Current (Watched.start P k bus) es :=
  always_iff_meets (q := fun _ => True) (fun _ _ _ _ h => h) (fun _ _ _ h _ hs => Watched.allMarked_step_iff h hs) es
    trivial (fun _ h => absurd h List.not_mem_nil)

/-- A load and then a store, both to address 0. -/
def loadThenStore : List (MmuEvent param_rv32) :=
  [.translate sv32 ⟨0, 0, 0, .load⟩ 2, .translate sv32 ⟨0, 0, 0, .store⟩ 2]

/-- The store uses the entry that the load left in the TLB, and the page stays clean. -/
theorem loadThenStore_not_marked :
    (run (Watched.step ⟨fun _ _ x _ => x⟩) (Watched.start param_rv32 7 leafBus) loadThenStore).map
        (fun s => (s.due, s.mmu.bus.mem 0)) = some ([(0, .store), (0, .load)], 0x47) ∧
      ¬ Always (Watched.step ⟨fun _ _ x _ => x⟩) Watched.AllMarked
        (Watched.start param_rv32 7 leafBus) loadThenStore := by
  have hrun : (run (Watched.step ⟨fun _ _ x _ => x⟩) (Watched.start param_rv32 7 leafBus)
      loadThenStore).map (fun s => (s.due, s.mmu.bus.mem 0)) =
        some ([(0, .store), (0, .load)], 0x47) := rfl
  refine ⟨hrun, fun h => ?_⟩
  obtain ⟨s, hs, hval⟩ := Option.map_eq_some_iff.mp hrun
  obtain ⟨hdue, hmem⟩ := Prod.mk.inj hval
  have hmark := h.last hs (0, .store) (by rw [hdue]; exact List.mem_cons_self)
  have hbit := hmark.2 rfl
  dsimp only at hbit
  rw [hmem] at hbit
  cases hbit

end

end RvCkpt.Mmu
