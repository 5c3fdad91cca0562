import RvCkpt.Mmu.Tlb

/-! # Translation

`page_translate_addr` of `src/src/emu/mmu-soft.h`, and a walk as a descent to a leaf followed by
the update of its flags.
-/

namespace RvCkpt.Mmu
set_option autoImplicit false
open ByteMem Priv Isa

/-! ## The descent -/

/-- A leaf, as it is before its flags are brought up to date. -/
structure Found (width : ℕ) where
  pte : Pte
  level : BitVec width
  addr : ℕ

section
variable (so : ShiftOver) (M : Paging) {width : ℕ} (b : Bus)

/-- The leaf for `va`, if there is one among the next `n` entries; `none` if all are pointers. -/
def leafFrom (va : BitVec width) :
    ℕ → BitVec width → BitVec width → Option (Option (Found width))
  | 0, _, _ => none
  | n + 1, level, table =>
    match b.load (pteAddr so M va level table) M.size with
    | none => some none
    | some val =>
      let pte : Pte := ⟨val⟩
      if pte.pointer then leafFrom va n (level - 1) (M.table width pte)
      else if !pte.v || (!pte.r && pte.w) then some none
      else if misaligned so M level pte then some none
      else some (some ⟨pte, level, pteAddr so M va level table⟩)

/-- What a walk does at the end of its descent. -/
def finish (op : MmuOp) : Option (Found width) → Walk width
  | none => .fault op.fault
  | some f =>
    if f.pte.flags &&& op.adFlags ≠ op.adFlags then
      match b.store f.addr M.size (f.pte.val ||| op.adFlags) with
      | none => .fault op.fault
      | some b' => .leaf b' ⟨f.pte.val ||| op.adFlags⟩ f.level f.addr
    else .leaf b f.pte f.level f.addr

theorem finish_ne_at (op : MmuOp) (f : Option (Found width)) (level table : BitVec width) :
    finish M b op f ≠ .at level table := by
  cases f with
  | none => exact nofun
  | some f =>
    rw [finish]
    split
    · split <;> exact nofun
    · exact nofun

theorem walkFrom_finish (va : BitVec width) (op : MmuOp) (f : Option (Found width)) (fuel : ℕ) :
    walkFrom so M b va op fuel (finish M b op f) = some (finish M b op f, 0) := by
  cases hw : finish M b op f with
  | «at» level table => exact absurd hw (finish_ne_at M b op f level table)
  | leaf bus pte level addr => cases fuel <;> rfl
  | fault cause => cases fuel <;> rfl

/-- A walk is a descent with the update of the leaf's flags. -/
theorem walkFrom_eq_finish (va : BitVec width) (op : MmuOp) (n : ℕ) (level table : BitVec width) :
    (walkFrom so M b va op n (.at level table)).map Prod.fst =
      (leafFrom so M b va n level table).map (finish M b op) := by
  induction n generalizing level table with
  | zero => rfl
  | succ n ih =>
    have hstop : ∀ f, visit so M b va op (.at level table) = finish M b op f →
        (walkFrom so M b va op (n + 1) (.at level table)).map Prod.fst =
          some (finish M b op f) := by
      intro f hvisit
      rw [walkFrom, hvisit, walkFrom_finish]
      rfl
    rw [leafFrom]
    cases hload : b.load (pteAddr so M va level table) M.size with
    | none =>
      refine hstop none ?_
      simp only [visit, hload]
      rfl
    | some val =>
      dsimp only
      by_cases hptr : (Pte.mk val).pointer = true
      · rw [if_pos hptr, ← ih, walkFrom, visit_pointer so va op hload hptr, Option.map_map]
        rfl
      · rw [if_neg hptr]
        by_cases hvalid : (!(Pte.mk val).v || (!(Pte.mk val).r && (Pte.mk val).w)) = true
        · rw [if_pos hvalid]
          refine hstop none ?_
          simp only [visit, hload]
          rw [if_neg hptr, if_pos hvalid]
          rfl
        · have hmaps := Pte.mapsPage_of_not_pointer (Bool.eq_false_iff.mpr hptr) hvalid
          rw [if_neg hvalid]
          by_cases hmis : misaligned so M level ⟨val⟩ = true
          · rw [if_pos hmis]
            refine hstop none ?_
            simp only [visit, hload]
            rw [if_neg hptr, if_neg hvalid, if_pos hmaps, if_pos hmis]
            rfl
          · rw [if_neg hmis]
            refine hstop (some _) ?_
            simp only [visit, hload]
            rw [if_neg hptr, if_neg hvalid, if_pos hmaps, if_neg hmis]
            rfl

end

/-! ## Tables that differ in accessed and dirty flags -/

def adMask : BitVec 64 := pte_flag_A ||| pte_flag_D

theorem adMask_getLsbD {i : ℕ} (h6 : i ≠ 6) (h7 : i ≠ 7) : adMask.getLsbD i = false := by
  by_cases hi : i < 64
  · have hbits : ∀ i < 64, i ≠ 6 → i ≠ 7 → adMask.getLsbD i = false := by decide
    exact hbits i hi h6 h7
  · exact BitVec.getLsbD_of_ge _ _ (Nat.le_of_not_lt hi)

theorem MmuOp.adFlags_or (op : MmuOp) : op.adFlags ||| adMask = adMask := by
  cases op <;> rfl

namespace Pte

/-- The same entry but for its accessed and dirty flags. -/
def Same (p q : Pte) : Prop := p.val ||| adMask = q.val ||| adMask

variable {p q : Pte}

theorem Same.getLsbD (h : Same p q) {i : ℕ} (h6 : i ≠ 6) (h7 : i ≠ 7) :
    p.val.getLsbD i = q.val.getLsbD i := by
  have hbit := congrArg (fun x => x.getLsbD i) h
  rwa [BitVec.getLsbD_or, BitVec.getLsbD_or, adMask_getLsbD h6 h7, Bool.or_false,
    Bool.or_false] at hbit

theorem Same.pointer (h : Same p q) : p.pointer = q.pointer := by
  unfold Pte.pointer r w x
  rw [h.getLsbD (by decide) (by decide), h.getLsbD (by decide) (by decide),
    h.getLsbD (by decide) (by decide)]

theorem Same.valid (h : Same p q) : (!p.v || (!p.r && p.w)) = (!q.v || (!q.r && q.w)) := by
  unfold v r w
  rw [h.getLsbD (by decide) (by decide), h.getLsbD (by decide) (by decide),
    h.getLsbD (by decide) (by decide)]

theorem Same.ppn (h : Same p q) (M : Paging) : M.ppn p = M.ppn q := by
  unfold Paging.ppn
  have hfield : p.val.extractLsb' 10 M.ppnBits = q.val.extractLsb' 10 M.ppnBits := by
    apply BitVec.eq_of_getLsbD_eq
    intro i _
    rw [BitVec.getLsbD_extractLsb', BitVec.getLsbD_extractLsb', h.getLsbD (by omega) (by omega)]
  rw [hfield]

theorem Same.table (h : Same p q) (M : Paging) (width : ℕ) : M.table width p = M.table width q := by
  unfold Paging.table
  rw [h.ppn M]

theorem same_adFlags (p : Pte) (op : MmuOp) : Same ⟨p.val ||| op.adFlags⟩ p := by
  unfold Same
  rw [BitVec.or_assoc, op.adFlags_or]

end Pte

/-- The two memories hold the same page tables but for accessed and dirty flags. -/
structure SameTables (M : Paging) (b b' : Bus) : Prop where
  present : b'.present = b.present
  entries : ∀ a, M.size ∣ a → Pte.Same ⟨b'.mem.read a M.size⟩ ⟨b.mem.read a M.size⟩

theorem SameTables.refl (M : Paging) (b : Bus) : SameTables M b b := ⟨rfl, fun _ _ => rfl⟩

theorem SameTables.trans {M : Paging} {b₁ b₂ b₃ : Bus} (h : SameTables M b₁ b₂)
    (h' : SameTables M b₂ b₃) : SameTables M b₁ b₃ :=
  ⟨h'.present.trans h.present, fun a ha => (h'.entries a ha).trans (h.entries a ha)⟩

theorem read_lt (m : Mem) (a : ℕ) {n : ℕ} (hn : n ≤ 8) : (m.read a n).toNat < 256 ^ n := by
  have hlt := leNat_lt (fun i => m (a + i)) n
  have hle : 256 ^ n ≤ 2 ^ 64 := Nat.pow_le_pow_right (by decide) hn
  rwa [Mem.read, BitVec.toNat_ofNat, Nat.mod_eq_of_lt (hlt.trans_le hle)]

/-- Setting flags of the entry at `a` changes nothing else. -/
theorem sameTables_store {M : Paging} {b b' : Bus} {op : MmuOp} {a : ℕ} (ha : M.size ∣ a)
    (h : b.store a M.size (b.mem.read a M.size ||| op.adFlags) = some b') : SameTables M b b' := by
  unfold Bus.store at h
  split at h
  · obtain rfl := Option.some.inj h
    have hsize : 0 < M.size ∧ M.size ≤ 8 := by
      rcases M.hsize with h | h <;> omega
    refine ⟨rfl, fun a' ha' => ?_⟩
    dsimp only
    by_cases heq : a' = a
    · subst heq
      have hflags : op.adFlags.toNat < 256 := by
        cases op <;> decide
      have hlt : (b.mem.read a' M.size ||| op.adFlags).toNat < 256 ^ M.size := by
        have hpow : 256 ^ M.size = 2 ^ (8 * M.size) := by
          rw [Nat.pow_mul]
        have hread := read_lt b.mem a' hsize.2
        have hbyte : 256 ≤ 256 ^ M.size := Nat.le_self_pow (Nat.pos_iff_ne_zero.mp hsize.1) 256
        rw [BitVec.toNat_or]
        rw [hpow] at hread hbyte ⊢
        exact Nat.or_lt_two_pow hread (hflags.trans_le hbyte)
      rw [Mem.read_write_same, Nat.mod_eq_of_lt hlt, BitVec.ofNat_toNat, BitVec.setWidth_eq]
      exact Pte.same_adFlags ⟨b.mem.read a' M.size⟩ op
    · obtain ⟨i, rfl⟩ := ha
      obtain ⟨j, rfl⟩ := ha'
      have hne : j ≠ i := fun h => heq (by rw [h])
      have hdisj : M.size * j + M.size ≤ M.size * i ∨ M.size * i + M.size ≤ M.size * j := by
        rcases Nat.lt_or_gt_of_ne hne with hlt | hlt
        · exact .inl (Nat.mul_le_mul_left M.size hlt)
        · exact .inr (Nat.mul_le_mul_left M.size hlt)
      rw [Mem.read_write_of_disjoint hdisj]
      rfl
  · cases h

/-! ## Tables are pages -/

/-- A table starts a page. -/
def PageAligned {width : ℕ} (table : BitVec width) : Prop := 2 ^ pageShift ∣ table.toNat

theorem pageAligned_shiftLeft {width : ℕ} (hw : pageShift ≤ width) (x : BitVec width) :
    PageAligned (x <<< pageShift) := by
  unfold PageAligned
  rw [BitVec.toNat_shiftLeft, Nat.shiftLeft_eq, Nat.dvd_mod_iff (Nat.pow_dvd_pow 2 hw)]
  exact Nat.dvd_mul_left _ _

theorem Param.pageShift_le (P : Param) : pageShift ≤ P.width := by
  rcases P.hword with h | h <;> rw [h] <;> decide

theorem pageAligned_table {width : ℕ} (hw : width = 32 ∨ width = 64) (M : Paging) (pte : Pte) :
    PageAligned (M.table width pte) := by
  unfold Paging.table
  split
  · have hlow := pageAligned_shiftLeft (by decide) ((M.ppn pte).truncate 32)
    unfold PageAligned at hlow ⊢
    rw [BitVec.toNat_signExtend, BitVec.toNat_setWidth]
    have hword : 2 ^ pageShift ∣ 2 ^ width := Nat.pow_dvd_pow 2 (by
      rcases hw with h | h <;> rw [h] <;> decide)
    refine Nat.dvd_add ((Nat.dvd_mod_iff hword).mpr hlow) ?_
    split
    · exact Nat.dvd_sub hword (by decide)
    · exact Nat.dvd_zero _
  · have hlow := pageAligned_shiftLeft (by decide) (M.ppn pte)
    unfold PageAligned at hlow ⊢
    rw [BitVec.toNat_setWidth]
    exact (Nat.dvd_mod_iff (Nat.pow_dvd_pow 2 (by
      rcases hw with h | h <;> rw [h] <;> decide))).mpr hlow

section
variable (so : ShiftOver) (M : Paging) {width : ℕ}

theorem size_dvd_pteAddr (hw : pageShift ≤ width) (va level : BitVec width) {table : BitVec width}
    (h : PageAligned table) : M.size ∣ pteAddr so M va level table := by
  have hpage : M.size ∣ 2 ^ pageShift := by
    rcases M.hsize with h | h <;> rw [h] <;> decide
  have hword : M.size ∣ 2 ^ width := hpage.trans (Nat.pow_dvd_pow 2 hw)
  unfold pteAddr
  dsimp only
  rw [BitVec.toNat_add, BitVec.toNat_mul, BitVec.toNat_ofNat, Nat.dvd_mod_iff hword]
  refine Nat.dvd_add (hpage.trans h) ((Nat.dvd_mod_iff hword).mpr ?_)
  exact Dvd.dvd.mul_left ((Nat.dvd_mod_iff hword).mpr (Nat.dvd_refl _)) _

/-- What a leaf says about the page. -/
def Found.mapping (f : Found width) : BitVec 64 × BitVec width := (M.ppn f.pte, f.level)

variable {so M}

/-- Where the leaf is. -/
theorem leafFrom_found (hw : width = 32 ∨ width = 64) {b : Bus} {va : BitVec width} {n : ℕ}
    {level table : BitVec width} {f : Found width} (h : PageAligned table)
    (hf : leafFrom so M b va n level table = some (some f)) :
    M.size ∣ f.addr ∧ f.pte.val = b.mem.read f.addr M.size := by
  have hle : pageShift ≤ width := by
    rcases hw with h | h <;> rw [h] <;> decide
  induction n generalizing level table with
  | zero => cases hf
  | succ n ih =>
    rw [leafFrom] at hf
    unfold Bus.load at hf
    split at hf
    · cases hf
    · rename_i val hload
      split at hload
      · obtain rfl := Option.some.inj hload
        dsimp only at hf
        split at hf
        · exact ih (pageAligned_table hw M _) hf
        · split at hf
          · cases hf
          · split at hf
            · cases hf
            · obtain rfl := Option.some.inj (Option.some.inj hf)
              exact ⟨size_dvd_pteAddr so M hle va level h, rfl⟩
      · cases hload

/-- Accessed and dirty flags do not matter to the descent. -/
theorem leafFrom_same (hw : width = 32 ∨ width = 64) {b b' : Bus} (hb : SameTables M b b')
    (va : BitVec width) (n : ℕ) (level : BitVec width) {table : BitVec width}
    (h : PageAligned table) :
    (leafFrom so M b' va n level table).map (Option.map (Found.mapping M)) =
      (leafFrom so M b va n level table).map (Option.map (Found.mapping M)) := by
  have hle : pageShift ≤ width := by
    rcases hw with h | h <;> rw [h] <;> decide
  induction n generalizing level table with
  | zero => rfl
  | succ n ih =>
    have hsame := hb.entries _ (size_dvd_pteAddr so M hle va level h)
    rw [leafFrom, leafFrom, Bus.load, Bus.load, hb.present]
    by_cases hpres : b.present (pteAddr so M va level table) = true
    · rw [if_pos hpres, if_pos hpres]
      dsimp only
      rw [hsame.pointer, hsame.valid, hsame.table M width]
      split
      · exact ih _ (pageAligned_table hw M _)
      · split
        · rfl
        · unfold misaligned
          dsimp only
          rw [hsame.ppn M]
          split
          · rfl
          · simp only [Option.map_some, Found.mapping]
            rw [hsame.ppn M]
    · rw [if_neg hpres, if_neg hpres]

/-- More fuel finds no other leaf. -/
theorem leafFrom_mono {b : Bus} {va : BitVec width} {n m : ℕ} {level table : BitVec width}
    {r : Option (Found width)} (h : leafFrom so M b va n level table = some r) (hm : n ≤ m) :
    leafFrom so M b va m level table = some r := by
  induction n generalizing m level table with
  | zero => cases h
  | succ n ih =>
    cases m with
    | zero => exact absurd hm (Nat.not_succ_le_zero n)
    | succ m =>
      have hle := Nat.le_of_succ_le_succ hm
      rw [leafFrom] at h ⊢
      split at h
      · exact h
      · dsimp only at h ⊢
        split at h
        · rename_i hptr
          rw [if_pos hptr]
          exact ih h hle
        · rename_i hptr
          rw [if_neg hptr]
          exact h

theorem leafFrom_unique {b : Bus} {va : BitVec width} {n m : ℕ} {level table : BitVec width}
    {r r' : Option (Found width)} (h : leafFrom so M b va n level table = some r)
    (h' : leafFrom so M b va m level table = some r') : r = r' := by
  have hn := leafFrom_mono h (Nat.le_max_left n m)
  have hm := leafFrom_mono h' (Nat.le_max_right n m)
  exact Option.some.inj (hn.symm.trans hm)

/-! ## Pages -/

variable (M width) in
/-- The shifts of all levels stay below the width of a word. -/
def Fitting : Prop := M.bits * (M.levels - 1) + pageShift < width

theorem levelShift_toNat (hfit : Fitting M width) {j : ℕ} (hj : j < M.levels) :
    (levelShift M (BitVec.ofNat width j)).toNat = M.bits * j + pageShift := by
  have hle : M.bits * j ≤ M.bits * (M.levels - 1) := Nat.mul_le_mul_left _ (Nat.le_pred_of_lt hj)
  have hlt : M.bits * j + pageShift < 2 ^ width :=
    ((Nat.add_le_add_right hle _).trans_lt hfit).trans Nat.lt_two_pow_self
  unfold levelShift
  rw [← BitVec.ofNat_mul, ← BitVec.ofNat_add, BitVec.toNat_ofNat, Nat.mod_eq_of_lt hlt]

/-- Which entry of a table an address selects depends on its page only. -/
theorem pteAddr_page (hfit : Fitting M width) {va va' : BitVec width}
    (hpage : va >>> pageShift = va' >>> pageShift) {j : ℕ} (hj : j < M.levels)
    (table : BitVec width) :
    pteAddr so M va (BitVec.ofNat width j) table = pteAddr so M va' (BitVec.ofNat width j) table := by
  have hle : M.bits * j ≤ M.bits * (M.levels - 1) := Nat.mul_le_mul_left _ (Nat.le_pred_of_lt hj)
  have hlt : M.bits * j + pageShift < width := (Nat.add_le_add_right hle _).trans_lt hfit
  have hshift : ∀ x : BitVec width, shift so .right x (M.bits * j + pageShift) =
      x >>> pageShift >>> (M.bits * j) := by
    intro x
    rw [shift, if_pos hlt, Nat.add_comm, BitVec.shiftRight_add]
  unfold pteAddr
  dsimp only
  rw [levelShift_toNat hfit hj, hshift, hshift, hpage]

theorem leafFrom_page (hfit : Fitting M width) (b : Bus) {va va' : BitVec width}
    (hpage : va >>> pageShift = va' >>> pageShift) {n : ℕ} (hn : n ≤ M.levels)
    (table : BitVec width) :
    leafFrom so M b va n (BitVec.ofNat width (n - 1)) table =
      leafFrom so M b va' n (BitVec.ofNat width (n - 1)) table := by
  induction n generalizing table with
  | zero => rfl
  | succ n ih =>
    rw [leafFrom, leafFrom, Nat.add_sub_cancel, pteAddr_page hfit hpage hn]
    cases n with
    | zero => rfl
    | succ n =>
      have hdown : BitVec.ofNat width (n + 1) - 1 = BitVec.ofNat width n := by
        rw [BitVec.ofNat_add]
        exact BitVec.add_sub_cancel _ _
      rw [hdown]
      have hrest := fun table => ih (Nat.le_of_succ_le hn) table
      simp only [Nat.add_sub_cancel] at hrest
      simp only [hrest]

theorem leafFrom_level {b : Bus} {va : BitVec width} {n : ℕ} {table : BitVec width}
    {f : Found width}
    (h : leafFrom so M b va n (BitVec.ofNat width (n - 1)) table = some (some f)) :
    ∃ j < n, f.level = BitVec.ofNat width j := by
  induction n generalizing table with
  | zero => cases h
  | succ n ih =>
    rw [leafFrom, Nat.add_sub_cancel] at h
    split at h
    · cases h
    · dsimp only at h
      split at h
      · cases n with
        | zero => cases h
        | succ n =>
          have hdown : BitVec.ofNat width (n + 1) - 1 = BitVec.ofNat width n := by
            rw [BitVec.ofNat_add]
            exact BitVec.add_sub_cancel _ _
          rw [hdown] at h
          obtain ⟨j, hj, hlevel⟩ := ih h
          exact ⟨j, Nat.lt_succ_of_lt hj, hlevel⟩
      · split at h
        · cases h
        · split at h
          · cases h
          · obtain rfl := Option.some.inj (Option.some.inj h)
            exact ⟨n, Nat.lt_succ_self n, rfl⟩

end

end RvCkpt.Mmu
