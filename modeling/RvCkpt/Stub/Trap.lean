import RvCkpt.Stub.Near

/-! # The trap

The jump in place of a replaced instruction, the near call it leads to, the far call and the way
back to the next instruction.
-/

namespace RvCkpt.Stub
open ByteMem Isa Parse
set_option autoImplicit false

/-! ## Jumps -/

theorem relJump_offset {source target : ℕ} (h : InReach source target) :
    sx (BitVec.ofInt 32 ((target : ℤ) - source)) = BitVec.ofInt 64 ((target : ℤ) - source) := by
  obtain ⟨hhi, hlo⟩ := h
  rw [show J_MAX_OFFS = 1048576 by decide] at hhi hlo
  exact sx_ofInt (by omega) (by omega)

theorem relJump_target {source target : ℕ} (h : InReach source target) (d : Data) :
    (relJump source target).target source d = BitVec.ofNat 64 target := by
  rw [relJump, Jump.target, relJump_offset h, ← BitVec.ofInt_natCast, ← BitVec.ofInt_add,
    ← BitVec.ofInt_natCast]
  congr 1
  omega

/-- A jump between even addresses has an even offset. -/
theorem relJump_legal {source target : ℕ} (h : InReach source target) (hs : source % 2 = 0)
    (ht : target % 2 = 0) : (relJump source target).Legal := by
  rw [relJump, Jump.Legal, relJump_offset h]
  obtain ⟨hhi, hlo⟩ := h
  rw [show J_MAX_OFFS = 1048576 by decide] at hhi hlo
  intro heq
  have := congrArg BitVec.toInt heq
  rw [BitVec.toInt_ofInt, Int.bmod_eq_of_le (by omega) (by omega),
    show (-1 : BitVec 64).toInt = -1 by decide] at this
  omega

/-- A block that ends in a jump links to x0 only. -/
theorem relJump_link (source target e : ℕ) (d : Data) :
    (relJump source target).link e d = d.setReg 0 (BitVec.ofNat 64 e) := rfl

/-! ## Near calls in memory -/

/-- `near.S` with `FAR_CALL`, and the jump that `MakeHelper.near` puts after it. -/
def NearAt (host : Host) (m : Mem) (nearBuf farAddr : ℕ) (alter : Alter) (retPc nearAddr : ℕ)
    (nearEnd : ℕ) : Prop :=
  ∃ j₁ mid j₂, BlockAt host m nearAddr (nearCallLine nearBuf farAddr alter) j₁
      (nearCallJump farAddr) mid ∧
    BlockAt host m mid (nearReturnLine nearBuf alter) j₂ (relJump j₂ retPc) nearEnd ∧
    InReach j₂ retPc

/-- A replaced instruction with its near call; `alterRd` is the result register unless that is the
one of a system call. -/
structure Trap where
  addr : ℕ
  alterRd : Option ℕ
  nearAddr : ℕ
  nearEnd : ℕ
  nearBuf : ℕ

namespace Trap

def rd (trap : Trap) : ℕ := trap.alterRd.getD 10

def InNear (trap : Trap) (a : ℕ) : Prop := trap.nearAddr ≤ a ∧ a < trap.nearEnd

def InBuf (trap : Trap) (a : ℕ) : Prop := trap.nearBuf ≤ a ∧ a < trap.nearBuf + 8

/-- The regions lie within reach of one another and apart, as they are injected. -/
structure Ready (trap : Trap) (env : FarEnv) (host : Host) (m : Mem) : Prop where
  rd : 0 < trap.rd ∧ trap.rd < 32
  jump : BlockAt host m trap.addr [] trap.addr (relJump trap.addr trap.nearAddr) (trap.addr + 4)
  reach : InReach trap.addr trap.nearAddr
  near : NearAt host m trap.nearBuf env.farAddr (alterFlag trap.alterRd) (trap.addr + 4)
    trap.nearAddr trap.nearEnd
  far : env.Ready host m
  bufReach : Reachable trap.nearBuf
  farReach : Reachable env.farAddr
  even : trap.addr % 2 = 0 ∧ trap.nearAddr % 2 = 0
  fits : trap.addr + 4 < 2 ^ 64 ∧ trap.nearEnd < 2 ^ 64
  bufNear : trap.nearBuf + 8 ≤ trap.nearAddr ∨ trap.nearEnd ≤ trap.nearBuf
  bufFar : trap.nearBuf + 8 ≤ env.farAddr ∨ env.farEnd ≤ trap.nearBuf
  bufFrame : trap.nearBuf + 8 ≤ env.frame ∨ env.frame + 136 ≤ trap.nearBuf
  bufSp : trap.nearBuf + 8 ≤ env.replaySp ∨ env.replaySp + 8 ≤ trap.nearBuf
  bufPc : trap.nearBuf + 8 ≤ env.replayPc ∨ env.replayPc + 8 ≤ trap.nearBuf
  nearFrame : trap.nearEnd ≤ env.frame ∨ env.frame + 136 ≤ trap.nearAddr

/-- What the replay function must leave alone. -/
structure Keeps (trap : Trap) (env : FarEnv) (K : ℕ → Prop) : Prop where
  near : ∀ a, trap.InNear a → K a
  far : ∀ a, env.InFar a → K a
  frame : ∀ a, env.InFrame a → K a
  buf : ∀ a, trap.InBuf a → K a

/-- The replay function answers with `v`, whatever `near_buf` holds. -/
def Replays (trap : Trap) (env : FarEnv) (host : Host) (K : ℕ → Prop) (m : Mem)
    (v : BitVec 64) : Prop :=
  ∀ w, env.ReplayCall host K (m.write trap.nearBuf 8 w) v

/-- The trap, taken in `s`, has returned in `t`. -/
structure Done (trap : Trap) (env : FarEnv) (K : ℕ → Prop) (v : BitVec 64) (s t : Machine) :
    Prop where
  pc : t.pc = BitVec.ofNat 64 (trap.addr + 4)
  regs : ∀ r, r ≠ rv_ireg_x0 → t.ireg r = if r.val = trap.rd then v else s.ireg r
  x0 : t.ireg rv_ireg_x0 = 0
  mem : ∀ a, K a → ¬ trap.InBuf a → ¬ (env.frame ≤ a ∧ a < env.frame + 136) →
    t.mem a = s.mem a

end Trap

theorem alterFlag_result {alterRd : Option ℕ} (h : alterRd.getD 10 < 32) :
    (Alter.result (alterFlag alterRd)).val = alterRd.getD 10 := by
  unfold alterFlag
  split
  · rfl
  · rfl
  · exact Nat.mod_eq_of_lt h
  · rfl

theorem alterFlag_plain {alterRd : Option ℕ} (hpos : 0 < alterRd.getD 10)
    (h : alterRd.getD 10 < 32) : Alter.Plain (alterFlag alterRd) := by
  have hresult := alterFlag_result h
  unfold alterFlag at hresult ⊢
  split
  · trivial
  · trivial
  · rename_i rd ha0 hsp
    simp only [Option.getD_some] at hpos h
    have hval : (Fin.ofNat 32 rd).val = rd := Nat.mod_eq_of_lt h
    have hne (k : Reg) (hk : rd ≠ k.val) : Fin.ofNat 32 rd ≠ k := by
      intro heq
      exact hk (hval.symm.trans (congrArg Fin.val heq))
    exact ⟨hne 0 (by change rd ≠ 0; omega), hne 2 (fun heq => hsp heq), hne 10 fun heq => ha0 heq⟩
  · trivial

/-! ## The run -/

variable {host : Host} {env : FarEnv} {trap : Trap}

/-- A jump alone in its block. -/
theorem relJump_reaches {s : Machine} {source target e : ℕ}
    (hblock : BlockAt host s.mem source [] source (relJump source target) e) (he : e < 2 ^ 64)
    (hpc : s.pc = BitVec.ofNat 64 source) (hreach : InReach source target)
    (hsource : source % 2 = 0) (htarget : target % 2 = 0) :
    ∃ t, Reaches host s t ∧ t.pc = BitVec.ofNat 64 target ∧
      t.data = s.data.setReg 0 (BitVec.ofNat 64 e) := by
  obtain ⟨t, ht, htpc, hdata⟩ := block_reaches hblock he hpc hsource
    (relJump_legal hreach hsource htarget) trivial
  rw [line_nil, relJump_target hreach] at htpc
  exact ⟨t, ht, htpc, hdata⟩

theorem nearCall_reaches {s : Machine} {nearBuf farAddr nearAddr j mid : ℕ} {alter : Alter}
    (hblock : BlockAt host s.mem nearAddr (nearCallLine nearBuf farAddr alter) j
      (nearCallJump farAddr) mid)
    (hmid : mid < 2 ^ 64) (hpc : s.pc = BitVec.ofNat 64 nearAddr) (heven : nearAddr % 2 = 0)
    (hplain : Alter.Plain alter) (hbuf : Reachable nearBuf) (hfar : Reachable farAddr)
    (hfarEven : farAddr % 2 = 0) (hapart : nearBuf + 8 ≤ nearAddr ∨ mid ≤ nearBuf) :
    ∃ t d, Reaches host s t ∧ t.pc = BitVec.ofNat 64 farAddr ∧
      NearHeld alter nearBuf farAddr s.data d ∧ t.data = d.setReg 10 (BitVec.ofNat 64 mid) := by
  have hspare : Spares (fun a => nearAddr ≤ a ∧ a < mid) (nearCallLine nearBuf farAddr alter)
      s.data := by
    apply spares_nearCall hbuf
    intro a ha
    omega
  obtain ⟨t, ht, htpc, hdata⟩ := block_reaches hblock hmid hpc (blockAt_even hblock heven).1
    trivial hspare
  have hheld : NearHeld alter nearBuf farAddr s.data (line (nearCallLine nearBuf farAddr alter)
    s.data) := line_nearCall hplain hbuf
  refine ⟨t, _, ht, ?_, hheld, hdata⟩
  unfold Reachable at hfar
  rw [htpc, nearCallJump, Jump.target, hheld.call, hi_add_lo hfar,
    ofNat_and_not_one hfarEven (by omega)]

theorem nearReturn_reaches {s : Machine} {nearBuf retPc mid j nearEnd : ℕ} {alter : Alter}
    (hblock : BlockAt host s.mem mid (nearReturnLine nearBuf alter) j (relJump j retPc) nearEnd)
    (hend : nearEnd < 2 ^ 64) (hpc : s.pc = BitVec.ofNat 64 mid) (heven : mid % 2 = 0)
    (hplain : Alter.Plain alter) (hbuf : Reachable nearBuf) (hreach : InReach j retPc)
    (hret : retPc % 2 = 0) :
    ∃ t d, Reaches host s t ∧ t.pc = BitVec.ofNat 64 retPc ∧
      NearRestored alter nearBuf s.data d ∧ t.data = d.setReg 0 (BitVec.ofNat 64 nearEnd) := by
  have hj := (blockAt_even hblock heven).1
  have hspare : Spares (fun a => mid ≤ a ∧ a < nearEnd) (nearReturnLine nearBuf alter) s.data := by
    apply spares_of_pure
    cases alter with
    | none => simp [nearReturnLine, restoreSp, Asm.Pure]
    | sp => simp [nearReturnLine, Asm.Pure]
    | reg rd => simp [nearReturnLine, restoreSp, Asm.Pure]
  obtain ⟨t, ht, htpc, hdata⟩ := block_reaches hblock hend hpc hj (relJump_legal hreach hj hret)
    hspare
  rw [relJump_target hreach] at htpc
  exact ⟨t, _, ht, htpc, line_nearReturn hplain hbuf, hdata⟩

/-- Writing `near_buf` leaves the far call in place. -/
theorem Trap.Ready.far_write {m : Mem} (h : trap.Ready env host m) (w : BitVec 64) :
    env.Ready host (m.write trap.nearBuf 8 w) := by
  have hbufFar := h.bufFar
  have hbufSp := h.bufSp
  have hbufPc := h.bufPc
  apply h.far.congr
  · rintro x ⟨hlo, hhi⟩
    exact Mem.write_of_not_mem (by omega)
  · exact Mem.read_write_of_disjoint (by omega)
  · exact Mem.read_write_of_disjoint (by omega)

theorem trap_run {K : ℕ → Prop} {s : Machine} {v : BitVec 64} (hready : trap.Ready env host s.mem)
    (hkeeps : trap.Keeps env K) (hreplays : trap.Replays env host K s.mem v)
    (hpc : s.pc = BitVec.ofNat 64 trap.addr) :
    ∃ t, Reaches host s t ∧ trap.Done env K v s t := by
  obtain ⟨hpos, hlt⟩ := hready.rd
  have hplain : Alter.Plain (alterFlag trap.alterRd) := alterFlag_plain hpos hlt
  have hkept := kept_ne_zero (alterFlag trap.alterRd)
  obtain ⟨haddr, hnearAddr⟩ := hready.even
  obtain ⟨haddrFits, hendFits⟩ := hready.fits
  obtain ⟨j₁, mid, j₂, hcall, hreturn, hback⟩ := hready.near
  have hcallLe := blockAt_le hcall
  have hreturnLe := blockAt_le hreturn
  have hmidEven := (blockAt_even hcall hnearAddr).2
  have hbufNear := hready.bufNear
  have hnearFrame := hready.nearFrame
  -- the jump to the near call
  obtain ⟨a, ha, hapc, hadata⟩ := relJump_reaches hready.jump haddrFits hpc hready.reach haddr
    hnearAddr
  have hamem : a.mem = s.mem := congrArg Data.mem hadata
  -- the near call
  rw [← hamem] at hcall
  obtain ⟨c, d, hc, hcpc, hheld, hcdata⟩ := nearCall_reaches hcall (hreturnLe.trans_lt hendFits)
    hapc hnearAddr hplain hready.bufReach hready.farReach hready.far.farEven (by omega)
  have hcmem : c.mem = s.mem.write trap.nearBuf 8 (s.ireg (Alter.kept (alterFlag trap.alterRd))) := by
    rw [show c.mem = c.data.mem from rfl, hcdata, setReg_mem, hheld.mem, hadata, setReg_mem,
      setReg_of_ne hkept]
    rfl
  have hout : ∀ x, ¬ trap.InBuf x → c.mem x = s.mem x := by
    intro x hx
    simp only [Trap.InBuf, not_and, not_lt] at hx
    rw [hcmem]
    exact Mem.write_of_not_mem (by omega)
  -- the far call
  have hfar : env.Ready host c.mem := by
    rw [hcmem]
    exact hready.far_write _
  have hreplay : env.ReplayCall host K c.mem v := by
    rw [hcmem]
    exact hreplays _
  obtain ⟨u, hu, hfarReturned⟩ := far_run hfar hreplay hkeeps.far hkeeps.frame hcpc
  have hupc : u.pc = BitVec.ofNat 64 mid := by
    rw [hfarReturned.pc, show c.ireg rv_ireg_a0 = c.data.ireg 10 from rfl, hcdata,
      setReg_self (by decide), ofNat_and_not_one hmidEven (hreturnLe.trans_lt hendFits)]
  -- the way back
  have hreturn' : BlockAt host u.mem mid (nearReturnLine trap.nearBuf (alterFlag trap.alterRd)) j₂
      (relJump j₂ (trap.addr + 4)) trap.nearEnd := by
    apply blockAt_congr _ hreturn
    intro x hlo hhi
    rw [hfarReturned.mem x (hkeeps.near x ⟨hcallLe.trans hlo, hhi⟩) (by omega)]
    apply hout
    rw [Trap.InBuf]
    omega
  obtain ⟨t, d', ht, htpc, hrestored, htdata⟩ := nearReturn_reaches hreturn' hendFits hupc hmidEven
    hplain hready.bufReach hback (by omega)
  have hslot : u.data.mem.read trap.nearBuf 8 =
      a.data.ireg (Alter.kept (alterFlag trap.alterRd)) := by
    have hread : u.mem.read trap.nearBuf 8 = c.mem.read trap.nearBuf 8 := by
      apply Mem.read_congr
      intro i hi
      have := hready.bufFrame
      exact hfarReturned.mem _ (hkeeps.buf _ ⟨by omega, by omega⟩) (by omega)
    rw [show u.data.mem = u.mem from rfl, hread, hcmem, Mem.read_write_word, hadata,
      setReg_of_ne hkept]
    rfl
  refine ⟨t, ((ha.trans hc).trans hu).trans ht, htpc, ?_, ?_, ?_⟩
  · intro r (hr : r ≠ 0)
    have hregs : ∀ r, r ≠ 0 → r ≠ 2 → r ≠ 10 → u.data.ireg r = d.ireg r := by
      intro r hx0 hsp ha0
      refine (hfarReturned.regs r hx0 hsp ha0).trans ?_
      rw [show c.ireg = c.data.ireg from rfl, hcdata, setReg_of_ne ha0]
    have hfinal := near_regs hplain hheld hfarReturned.value hslot hregs hrestored hr
    rw [show t.ireg = t.data.ireg from rfl, htdata, setReg_of_ne hr, hfinal, hadata,
      setReg_of_ne hr]
    have hiff : r = Alter.result (alterFlag trap.alterRd) ↔ r.val = trap.rd := by
      rw [Fin.ext_iff, alterFlag_result hlt, Trap.rd]
    simp only [hiff]
    rfl
  · rw [show t.ireg = t.data.ireg from rfl, htdata]
    exact setReg_x0 d' _
  · intro x hx hbuf hframe
    rw [show t.mem = t.data.mem from rfl, htdata, setReg_mem, hrestored.mem]
    exact (hfarReturned.mem x hx hframe).trans (hout x hbuf)

end RvCkpt.Stub
