import RvCkpt.Stub.Far

/-! # The near call

What the three variants of `near.S` do around the far call: the stack pointer, or a0 if the result
goes to sp, is kept in `near_buf`, and a0 in the result register if that is neither.
-/

namespace RvCkpt.Stub
open ByteMem Isa Parse
set_option autoImplicit false

/-- The register that gets the recorded value. -/
def Alter.result : Alter → Reg
  | .none => 10
  | .sp => 2
  | .reg rd => Fin.ofNat 32 rd

/-- The result register of the general variant is neither x0 nor one of the two that it goes
through. -/
def Alter.Plain : Alter → Prop
  | .reg rd => Fin.ofNat 32 rd ≠ 0 ∧ Fin.ofNat 32 rd ≠ 2 ∧ Fin.ofNat 32 rd ≠ 10
  | _ => True

/-- The register in `near_buf`. -/
def Alter.kept : Alter → Reg
  | .sp => 10
  | _ => 2

theorem kept_ne_zero (alter : Alter) : Alter.kept alter ≠ 0 := by
  cases alter with
  | none => exact (by decide : (2 : Reg) ≠ 0)
  | sp => exact (by decide : (10 : Reg) ≠ 0)
  | reg rd => exact (by decide : (2 : Reg) ≠ 0)

/-- The line before the far call, run from `d`, has left `d'`. -/
structure NearHeld (alter : Alter) (nearBuf farCall : ℕ) (d d' : Data) : Prop where
  mem : d'.mem = d.mem.write nearBuf 8 (d.ireg (Alter.kept alter))
  scratch : ∀ rd, alter = .reg rd → d'.ireg (Fin.ofNat 32 rd) = d.ireg 10
  call : d'.ireg 10 = sx (hi farCall)
  regs : ∀ r, r ≠ 2 → r ≠ 10 → r ≠ Alter.result alter → d'.ireg r = d.ireg r

theorem line_nearStore {d : Data} {nearBuf farCall : ℕ} {rt rs : Reg} (hrt : rt ≠ 0)
    (hne : rs ≠ rt) (h : Reachable nearBuf) :
    line [.lui rt (hi nearBuf), .sd rs rt (lo nearBuf), .lui 10 (hi farCall)] d =
      ((d.setReg rt (sx (hi nearBuf))).store nearBuf (d.ireg rs)).setReg 10 (sx (hi farCall)) := by
  have hsplit : [Asm.lui rt (hi nearBuf), .sd rs rt (lo nearBuf), .lui 10 (hi farCall)] =
      [.lui rt (hi nearBuf), .sd rs rt (lo nearBuf)] ++ [.lui 10 (hi farCall)] := rfl
  rw [hsplit, line_append, line_storeWord hrt hne h]
  rfl

theorem line_nearCall {d : Data} {nearBuf farCall : ℕ} {alter : Alter} (hplain : Alter.Plain alter)
    (h : Reachable nearBuf) :
    NearHeld alter nearBuf farCall d (line (nearCallLine nearBuf farCall alter) d) := by
  cases alter with
  | none =>
    rw [nearCallLine, line_nearStore (by decide) (by decide) h]
    refine ⟨rfl, ?_, setReg_self (by decide), ?_⟩
    · intro rd heq
      cases heq
    · intro r _ ha0 _
      rw [setReg_of_ne ha0, store_ireg, setReg_of_ne ha0]
  | sp =>
    rw [nearCallLine, line_nearStore (by decide) (by decide) h]
    refine ⟨rfl, ?_, setReg_self (by decide), ?_⟩
    · intro rd heq
      cases heq
    · intro r hsp ha0 _
      rw [setReg_of_ne ha0, store_ireg, setReg_of_ne hsp]
  | reg rd =>
    obtain ⟨hx0, hsp, ha0⟩ := hplain
    have hmove : (Asm.addi (Fin.ofNat 32 rd) 10 0).eval d =
        d.setReg (Fin.ofNat 32 rd) (d.ireg 10) := by
      rw [Asm.eval, show sx 0 = 0#64 from rfl, BitVec.add_zero]
    rw [nearCallLine, line_cons, hmove, line_nearStore (by decide) (by decide) h]
    refine ⟨?_, ?_, setReg_self (by decide), ?_⟩
    · rw [setReg_mem, Data.store, setReg_of_ne (Ne.symm hsp)]
      rfl
    · intro rd' heq
      cases heq
      rw [setReg_of_ne ha0, store_ireg, setReg_of_ne ha0, setReg_self hx0]
    · intro r _ hr (hrd : r ≠ Fin.ofNat 32 rd)
      rw [setReg_of_ne hr, store_ireg, setReg_of_ne hr, setReg_of_ne hrd]

/-- The line stores to `near_buf` only. -/
theorem spares_nearCall {d : Data} {nearBuf farCall : ℕ} {alter : Alter} {K : ℕ → Prop}
    (h : Reachable nearBuf) (hK : ∀ a, K a → ¬ (nearBuf ≤ a ∧ a < nearBuf + 8)) :
    Spares K (nearCallLine nearBuf farCall alter) d := by
  have hstore (rt rs : Reg) (d : Data) (hrt : rt ≠ 0) :
      Spares K [.lui rt (hi nearBuf), .sd rs rt (lo nearBuf), .lui 10 (hi farCall)] d := by
    have haddr : Asm.addr (d.setReg rt (sx (hi nearBuf))) rt (lo nearBuf) = nearBuf := by
      rw [Asm.addr, setReg_self hrt, reach_toNat h]
    refine ⟨fun _ _ => rfl, fun a ha => ?_, fun _ _ => rfl, trivial⟩
    rw [Asm.eval, Asm.eval, haddr]
    have := hK a ha
    exact Mem.write_of_not_mem (by omega)
  cases alter with
  | none => exact hstore 10 2 d (by decide)
  | sp => exact hstore 2 10 d (by decide)
  | reg rd => exact ⟨fun _ _ => rfl, hstore 10 2 _ (by decide)⟩

/-! ## The return -/

/-- The line after the far call, run from `d`, has left `d'`. -/
structure NearRestored (alter : Alter) (nearBuf : ℕ) (d d' : Data) : Prop where
  result : d'.ireg (Alter.result alter) = d.ireg 10
  kept : d'.ireg (Alter.kept alter) = d.mem.read nearBuf 8
  scratch : ∀ rd, alter = .reg rd → d'.ireg 10 = d.ireg (Fin.ofNat 32 rd)
  regs : ∀ r, r ≠ 2 → r ≠ 10 → r ≠ Alter.result alter → d'.ireg r = d.ireg r
  mem : d'.mem = d.mem

theorem line_nearReturn {d : Data} {nearBuf : ℕ} {alter : Alter} (hplain : Alter.Plain alter)
    (h : Reachable nearBuf) :
    NearRestored alter nearBuf d (line (nearReturnLine nearBuf alter) d) := by
  have hmove (d : Data) (rd rs : Reg) : (Asm.addi rd rs 0).eval d = d.setReg rd (d.ireg rs) := by
    rw [Asm.eval, show sx 0 = 0#64 from rfl, BitVec.add_zero]
  cases alter with
  | none =>
    rw [nearReturnLine, restoreSp, line_loadWord (by decide) h]
    refine ⟨setReg_of_ne (by decide), setReg_self (by decide), ?_, ?_, rfl⟩
    · intro rd heq
      cases heq
    · intro r hsp _ _
      exact setReg_of_ne hsp
  | sp =>
    rw [nearReturnLine, line_cons, hmove, line_loadWord (by decide) h]
    refine ⟨?_, setReg_self (by decide), ?_, ?_, rfl⟩
    · exact (setReg_of_ne (by decide)).trans (setReg_self (by decide))
    · intro rd heq
      cases heq
    · intro r hsp ha0 _
      rw [setReg_of_ne ha0, setReg_of_ne hsp]
  | reg rd =>
    obtain ⟨hx0, hsp, ha0⟩ := hplain
    have hline : line (nearReturnLine nearBuf (.reg rd)) d =
        ((((d.setReg 2 (d.ireg 10)).setReg 10 (d.ireg (Fin.ofNat 32 rd))).setReg
          (Fin.ofNat 32 rd) (d.ireg 10)).setReg 2 (d.mem.read nearBuf 8)) := by
      rw [nearReturnLine, line_append, line_cons, line_cons, line_cons, line_nil, hmove, hmove,
        hmove, restoreSp, line_loadWord (by decide) h, setReg_mem, setReg_mem, setReg_mem,
        setReg_of_ne hsp]
      rw [show ((d.setReg 2 (d.ireg 10)).setReg 10 (d.ireg (Fin.ofNat 32 rd))).ireg 2 = d.ireg 10
        from (setReg_of_ne (by decide)).trans (setReg_self (by decide))]
    rw [hline]
    refine ⟨?_, setReg_self (by decide), ?_, ?_, rfl⟩
    · exact (setReg_of_ne hsp).trans (setReg_self hx0)
    · intro rd' heq
      cases heq
      rw [setReg_of_ne (by decide), setReg_of_ne (Ne.symm ha0), setReg_self (by decide)]
    · intro r hr2 hr10 (hrd : r ≠ Fin.ofNat 32 rd)
      rw [setReg_of_ne hr2, setReg_of_ne hrd, setReg_of_ne hr10, setReg_of_ne hr2]

/-! ## Around the far call -/

theorem near_cases (alter : Alter) (r : Reg) :
    r = Alter.result alter ∨ r = Alter.kept alter ∨ (r = 10 ∧ ∃ rd, alter = .reg rd) ∨
      (r ≠ 2 ∧ r ≠ 10 ∧ r ≠ Alter.result alter) := by
  by_cases hsp : r = 2
  · cases alter with
    | none => exact Or.inr (Or.inl hsp)
    | sp => exact Or.inl hsp
    | reg rd => exact Or.inr (Or.inl hsp)
  · by_cases ha0 : r = 10
    · cases alter with
      | none => exact Or.inl ha0
      | sp => exact Or.inr (Or.inl ha0)
      | reg rd => exact Or.inr (Or.inr (Or.inl ⟨ha0, rd, rfl⟩))
    · by_cases hr : r = Alter.result alter
      · exact Or.inl hr
      · exact Or.inr (Or.inr (Or.inr ⟨hsp, ha0, hr⟩))

/-- A far call that returns a value in a0 and keeps every register but sp, between the two lines. -/
theorem near_regs {alter : Alter} {nearBuf farCall : ℕ} {d d₁ d₂ d₃ : Data} {v : BitVec 64}
    (hplain : Alter.Plain alter) (hheld : NearHeld alter nearBuf farCall d d₁)
    (hvalue : d₂.ireg 10 = v) (hslot : d₂.mem.read nearBuf 8 = d.ireg (Alter.kept alter))
    (hregs : ∀ r, r ≠ 0 → r ≠ 2 → r ≠ 10 → d₂.ireg r = d₁.ireg r)
    (hrestored : NearRestored alter nearBuf d₂ d₃) {r : Reg} (hr : r ≠ 0) :
    d₃.ireg r = if r = Alter.result alter then v else d.ireg r := by
  rcases near_cases alter r with rfl | hcase
  · rw [if_pos rfl, hrestored.result, hvalue]
  · by_cases hresult : r = Alter.result alter
    · rw [if_pos hresult, hresult, hrestored.result, hvalue]
    · rw [if_neg hresult]
      rcases hcase with rfl | ⟨rfl, rd, rfl⟩ | ⟨hsp, ha0, hne⟩
      · rw [hrestored.kept, hslot]
      · rw [hrestored.scratch rd rfl, hregs _ hplain.1 hplain.2.1 hplain.2.2, hheld.scratch rd rfl]
      · rw [hrestored.regs r hsp ha0 hne, hregs r hr hsp ha0, hheld.regs r hsp ha0 hne]

end RvCkpt.Stub
