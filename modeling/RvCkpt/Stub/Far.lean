import RvCkpt.Stub.Code

/-! # The far call

`far.S` calls the replay function with every register saved that the function may change. What it
returns is left in a0, and the address it was called from in sp.
-/

namespace RvCkpt.Stub
open ByteMem Isa
set_option autoImplicit false

/-- The code of `far.S` from `farAddr` to `farEnd`. -/
def FarAt (host : Host) (m : Mem) (replaySp replayPc farAddr farEnd : ℕ) : Prop :=
  ∃ j₁ mid j₂, BlockAt host m farAddr (farCallLine replaySp replayPc) j₁ farCallJump mid ∧
    BlockAt host m mid farReturnLine j₂ farReturnJump farEnd

/-- Where the far call finds its stack and the replay function. `frame` is its stack pointer, and
the table pointer lies above the 128 bytes of the frame. -/
structure FarEnv where
  replaySp : ℕ
  replayPc : ℕ
  frame : ℕ
  replayEntry : ℕ
  farAddr : ℕ
  farEnd : ℕ

namespace FarEnv

def InFrame (env : FarEnv) (a : ℕ) : Prop := env.frame ≤ a ∧ a < env.frame + 128

def InFar (env : FarEnv) (a : ℕ) : Prop := env.farAddr ≤ a ∧ a < env.farEnd

/-- The replay stack and the code are in place, and the frame meets neither. -/
structure Ready (env : FarEnv) (host : Host) (m : Mem) : Prop where
  code : FarAt host m env.replaySp env.replayPc env.farAddr env.farEnd
  spSlot : m.read env.replaySp 8 = BitVec.ofNat 64 (env.frame + 128)
  pcSlot : m.read env.replayPc 8 = BitVec.ofNat 64 env.replayEntry
  spReach : Reachable env.replaySp
  pcReach : Reachable env.replayPc
  farEven : env.farAddr % 2 = 0
  entryEven : env.replayEntry % 2 = 0
  farFits : env.farEnd < 2 ^ 64
  entryFits : env.replayEntry < 2 ^ 64
  frameFits : env.frame + 144 ≤ 2 ^ 64
  farApart : env.frame + 136 ≤ env.farAddr ∨ env.farEnd ≤ env.frame
  pcApart : env.frame + 128 ≤ env.replayPc ∨ env.replayPc + 8 ≤ env.frame

/-- The replay function, called from a memory that differs from `m` in the frame only, keeps to the
calling convention, leaves what is in `K` alone and returns a pointer past the item whose second
word is `v`. -/
def ReplayCall (env : FarEnv) (host : Host) (K : ℕ → Prop) (m : Mem) (v : BitVec 64) : Prop :=
  ∀ c : Machine, c.pc = BitVec.ofNat 64 env.replayEntry →
    c.ireg rv_ireg_sp = BitVec.ofNat 64 env.frame →
    c.ireg rv_ireg_a0 = m.read (env.frame + 128) 8 →
    c.ireg 11 = BitVec.ofNat 64 (env.frame + 136) →
    (∀ a, ¬ env.InFrame a → c.mem a = m a) →
    ∃ t p, Reaches host c t ∧ Convention c t ∧ (∀ a, K a → t.mem a = c.mem a) ∧
      t.ireg rv_ireg_a0 = BitVec.ofNat 64 (p + 8) ∧ p < 2 ^ 64 ∧ t.mem.read p 8 = v ∧
      (p + 8 ≤ env.frame + 128 ∨ env.frame + 136 ≤ p)

end FarEnv

theorem lenAt_even (m : Mem) (a : ℕ) : lenAt m a % 2 = 0 := by
  simp only [lenAt, instFetch]
  split_ifs
  · exact (by decide : 2 % 2 = 0)
  · exact (by decide : 4 % 2 = 0)
  · exact (by decide : 6 % 2 = 0)
  · exact (by decide : 8 % 2 = 0)
  · exact Nat.zero_mod 2

theorem lineAt_even {host : Host} {m : Mem} {a e : ℕ} {is : List Asm} (h : LineAt host m a is e)
    (ha : a % 2 = 0) : e % 2 = 0 := by
  induction is generalizing a with
  | nil =>
    obtain rfl := h
    exact ha
  | cons i is ih =>
    have := lenAt_even m a
    exact ih h.2.2 (by omega)

theorem blockAt_even {host : Host} {m : Mem} {a j e : ℕ} {is : List Asm} {jump : Jump}
    (h : BlockAt host m a is j jump e) (ha : a % 2 = 0) : j % 2 = 0 ∧ e % 2 = 0 := by
  have hj := lineAt_even h.line ha
  have := lenAt_even m j
  have := h.jump.2.2
  exact ⟨hj, by omega⟩

theorem blockAt_le {host : Host} {m : Mem} {a j e : ℕ} {is : List Asm} {jump : Jump}
    (h : BlockAt host m a is j jump e) : a ≤ e :=
  (lineAt_le h.line).trans ((Nat.le_add_right _ _).trans h.jump.2.2.le)

theorem farAt_le {host : Host} {m : Mem} {replaySp replayPc farAddr farEnd : ℕ}
    (h : FarAt host m replaySp replayPc farAddr farEnd) : farAddr ≤ farEnd := by
  obtain ⟨j₁, mid, j₂, hcall, hreturn⟩ := h
  exact (blockAt_le hcall).trans (blockAt_le hreturn)

/-- Clearing the low bit of an even address changes nothing. -/
theorem ofNat_and_not_one {a : ℕ} (h : a % 2 = 0) (ha : a < 2 ^ 64) :
    BitVec.ofNat 64 a &&& ~~~1#64 = BitVec.ofNat 64 a := by
  apply BitVec.eq_of_toNat_eq
  rw [and_not_one_toNat, toNat_ofNat_of_lt ha]
  omega

variable {env : FarEnv} {host : Host}

theorem FarEnv.Ready.congr {m m' : Mem} (h : env.Ready host m)
    (hcode : ∀ a, env.InFar a → m' a = m a)
    (hsp : m'.read env.replaySp 8 = m.read env.replaySp 8)
    (hpc : m'.read env.replayPc 8 = m.read env.replayPc 8) : env.Ready host m' := by
  obtain ⟨j₁, mid, j₂, hcall, hreturn⟩ := h.code
  have hmid := blockAt_le hcall
  have hend := blockAt_le hreturn
  refine { h with code := ⟨j₁, mid, j₂, ?_, ?_⟩, spSlot := hsp.trans h.spSlot, pcSlot := ?_ }
  · exact blockAt_congr (fun a hlo hhi => hcode a ⟨hlo, hhi.trans_le hend⟩) hcall
  · exact blockAt_congr (fun a hlo hhi => hcode a ⟨hmid.trans hlo, hhi⟩) hreturn
  · exact hpc.trans h.pcSlot

/-! ## Setting up the call -/

theorem line_farFrame {d : Data} (hreach : Reachable env.replaySp)
    (hslot : d.mem.read env.replaySp 8 = BitVec.ofNat 64 (env.frame + 128)) :
    line (farFrameLine env.replaySp) d = d.setReg 2 (BitVec.ofNat 64 env.frame) := by
  have hframe : BitVec.ofNat 64 (env.frame + 128) + sx (-128) = BitVec.ofNat 64 env.frame := by
    rw [show sx (-128) = -(128#64) by decide, BitVec.ofNat_add, ← BitVec.sub_eq_add_neg,
      BitVec.add_sub_cancel]
  have hsplit : farFrameLine env.replaySp =
      [.lui 2 (hi env.replaySp), .ld 2 2 (lo env.replaySp)] ++ [.addi 2 2 (-128)] := rfl
  rw [hsplit, line_append, line_loadWord (by decide) hreach, hslot, line_cons, line_nil, Asm.eval,
    setReg_self (by decide), hframe, setReg_setReg]

/-- The registers saved in the frame. -/
def framed (env : FarEnv) (d : Data) : Data :=
  { d with mem := storeSlots env.frame d.ireg savedRegs d.mem }

@[simp] theorem framed_ireg (d : Data) : (framed env d).ireg = d.ireg := rfl

theorem framed_outside {d : Data} {a : ℕ} (h : ¬ env.InFrame a) :
    (framed env d).mem a = d.mem a := by
  apply storeSlots_outside (n := 128) (by decide)
  simp only [FarEnv.InFrame, not_and, not_lt] at h
  omega

theorem framed_read_outside {d : Data} {a : ℕ}
    (h : env.frame + 128 ≤ a ∨ a + 8 ≤ env.frame) :
    (framed env d).mem.read a 8 = d.mem.read a 8 := by
  apply Mem.read_congr
  intro i hi
  apply framed_outside
  simp only [FarEnv.InFrame, not_and, not_lt]
  omega

theorem line_saveFrame {d : Data} (hsp : d.ireg 2 = BitVec.ofNat 64 env.frame)
    (hfits : env.frame + 144 ≤ 2 ^ 64) : line (saveAll 2 savedRegs) d = framed env d :=
  line_saveAll (n := 128) hsp (by decide) (by decide) (by omega)

/-- The arguments of the replay function, and its address. -/
def argsSet (env : FarEnv) (d : Data) : Data :=
  ((d.setReg 10 (d.mem.read (env.frame + 128) 8)).setReg 11
    (BitVec.ofNat 64 (env.frame + 136))).setReg 1 (BitVec.ofNat 64 env.replayEntry)

theorem line_farArgs {d : Data} (hsp : d.ireg 2 = BitVec.ofNat 64 env.frame)
    (hfits : env.frame + 144 ≤ 2 ^ 64) (hreach : Reachable env.replayPc)
    (hslot : d.mem.read env.replayPc 8 = BitVec.ofNat 64 env.replayEntry) :
    line (farArgsLine env.replayPc) d = argsSet env d := by
  have haddr : Asm.addr d 2 128 = env.frame + 128 :=
    slot_addr (n := 144) hsp (by decide) (by decide) hfits
  have hsplit : farArgsLine env.replayPc = [.ld 10 2 128, .addi 11 2 136] ++
      [.lui 1 (hi env.replayPc), .ld 1 1 (lo env.replayPc)] := rfl
  have hcsr : BitVec.ofNat 64 env.frame + sx 136 = BitVec.ofNat 64 (env.frame + 136) :=
    ofNat_add_sx (n := 136) (by decide)
  rw [hsplit, line_append, line_loadWord (by decide) hreach, line_cons, line_cons, line_nil,
    Asm.eval, Asm.eval, haddr, setReg_of_ne (by decide), hsp, hcsr, setReg_mem, setReg_mem, hslot,
    argsSet]

theorem line_farCall {d : Data} (hready : env.Ready host d.mem) :
    line (farCallLine env.replaySp env.replayPc) d =
      argsSet env (framed env (d.setReg 2 (BitVec.ofNat 64 env.frame))) := by
  have hbase : (d.setReg 2 (BitVec.ofNat 64 env.frame)).ireg 2 = BitVec.ofNat 64 env.frame :=
    setReg_self (by decide)
  have hentry : (framed env (d.setReg 2 (BitVec.ofNat 64 env.frame))).mem.read env.replayPc 8 =
      BitVec.ofNat 64 env.replayEntry := by
    rw [framed_read_outside hready.pcApart, setReg_mem, hready.pcSlot]
  rw [farCallLine, line_append, line_append, line_farFrame hready.spReach hready.spSlot,
    line_saveFrame hbase hready.frameFits, line_farArgs _ hready.frameFits hready.pcReach hentry]
  rw [framed, hbase]

theorem spares_farCall {d : Data} (hready : env.Ready host d.mem) :
    Spares env.InFar (farCallLine env.replaySp env.replayPc) d := by
  have hbase : (d.setReg 2 (BitVec.ofNat 64 env.frame)).ireg 2 = BitVec.ofNat 64 env.frame :=
    setReg_self (by decide)
  have hfits := hready.frameFits
  have hapart := hready.farApart
  rw [farCallLine, spares_append, spares_append, line_farFrame hready.spReach hready.spSlot]
  refine ⟨spares_of_pure ?_, spares_saveAll (n := 128) hbase (by decide) (by decide) (by omega)
    ?_, spares_of_pure ?_⟩
  · simp [farFrameLine, Asm.Pure]
  · intro a ha
    have := ha.1
    have := ha.2
    omega
  · simp [farArgsLine, Asm.Pure]

/-! ## The way back -/

/-- The table pointer is put back and the return value is loaded. -/
def valueLoaded (env : FarEnv) (v : BitVec 64) (d : Data) : Data :=
  (d.store (env.frame + 128) (d.ireg 10)).setReg 10 v

theorem line_farValue {d : Data} {p : ℕ} {v : BitVec 64}
    (hsp : d.ireg 2 = BitVec.ofNat 64 env.frame) (hfits : env.frame + 144 ≤ 2 ^ 64)
    (hptr : d.ireg 10 = BitVec.ofNat 64 (p + 8)) (hp : p < 2 ^ 64) (hread : d.mem.read p 8 = v)
    (hapart : p + 8 ≤ env.frame + 128 ∨ env.frame + 136 ≤ p) :
    line [.sd 10 2 128, .ld 10 10 (-8)] d = valueLoaded env v d := by
  have htable : Asm.addr d 2 128 = env.frame + 128 :=
    slot_addr (n := 144) hsp (by decide) (by decide) hfits
  have hslot : BitVec.ofNat 64 (p + 8) + sx (-8) = BitVec.ofNat 64 p := by
    rw [show sx (-8) = -(8#64) by decide, BitVec.ofNat_add, ← BitVec.sub_eq_add_neg,
      BitVec.add_sub_cancel]
  have hvalue : Asm.addr (d.store (env.frame + 128) (d.ireg 10)) 10 (-8) = p := by
    rw [Asm.addr, store_ireg, hptr, hslot, toNat_ofNat_of_lt hp]
  rw [line_cons, line_cons, line_nil, Asm.eval, Asm.eval, htable, hvalue,
    store_read_apart hapart, hread, valueLoaded]

/-- What the way back leaves, in terms of what the replay function left. -/
structure Returned (env : FarEnv) (v : BitVec 64) (d d' : Data) : Prop where
  value : d'.ireg 10 = v
  target : d'.ireg 2 = d.mem.read (env.frame + 32) 8
  restored : ∀ slot ∈ restoredRegs, d'.ireg slot.1 = d.mem.read (env.frame + slot.2) 8
  kept : ∀ r, r ≠ 0 → r ≠ 2 → r ≠ 10 → r ∉ restoredRegs.map Prod.fst → d'.ireg r = d.ireg r
  mem : ∀ a, ¬ (env.frame + 128 ≤ a ∧ a < env.frame + 136) → d'.mem a = d.mem a

theorem line_farReturn {d : Data} {p : ℕ} {v : BitVec 64}
    (hsp : d.ireg 2 = BitVec.ofNat 64 env.frame) (hfits : env.frame + 144 ≤ 2 ^ 64)
    (hptr : d.ireg 10 = BitVec.ofNat 64 (p + 8)) (hp : p < 2 ^ 64) (hread : d.mem.read p 8 = v)
    (hapart : p + 8 ≤ env.frame + 128 ∨ env.frame + 136 ≤ p) :
    Returned env v d (line farReturnLine d) := by
  have hbase : (valueLoaded env v d).ireg 2 = BitVec.ofNat 64 env.frame := by
    rw [valueLoaded, setReg_of_ne (by decide)]
    exact hsp
  -- the saved registers lie below the table pointer
  have hslots : ∀ off, off + 8 ≤ 128 → (valueLoaded env v d).mem.read (env.frame + off) 8 =
      d.mem.read (env.frame + off) 8 := by
    intro off hoff
    exact Mem.read_write_of_disjoint (by omega)
  obtain ⟨hmem, hregs⟩ := line_loadAll_keeps (valueLoaded env v d) 2 restoredRegs
  have hbase' : (line (loadAll 2 restoredRegs) (valueLoaded env v d)).ireg 2 =
      BitVec.ofNat 64 env.frame := (hregs 2 (by decide)).trans hbase
  have hreturn : Asm.addr (line (loadAll 2 restoredRegs) (valueLoaded env v d)) 2 32 =
      env.frame + 32 :=
    slot_addr (n := 128) hbase' (by decide) (by decide) (by omega)
  have hline : line farReturnLine d = (line (loadAll 2 restoredRegs) (valueLoaded env v d)).setReg
      2 (d.mem.read (env.frame + 32) 8) := by
    rw [farReturnLine, line_append, line_append, line_farValue hsp hfits hptr hp hread hapart,
      line_cons, line_nil, Asm.eval, hreturn, hmem, hslots 32 (by decide)]
  rw [hline]
  constructor
  · rw [setReg_of_ne (by decide), hregs 10 (by decide), valueLoaded, setReg_self (by decide)]
  · rw [setReg_self (by decide)]
  · intro slot hslot
    have hne : ∀ s ∈ restoredRegs, s.1 ≠ 2 := by decide
    have hwithin : Slots.Within restoredRegs 128 := by decide
    rw [setReg_of_ne (hne slot hslot), line_loadAll (n := 128) hbase hwithin (by decide)
      (by omega) (by decide) (by decide) (by decide) hslot, hslots slot.2 (hwithin slot hslot)]
  · intro r _ hsp' ha0 hr
    rw [setReg_of_ne hsp', hregs r hr, valueLoaded, setReg_of_ne ha0, store_ireg]
  · intro a ha
    rw [setReg_mem, hmem, valueLoaded, setReg_mem]
    exact Mem.write_of_not_mem (by omega)

/-- The jump back links to x0. -/
theorem Returned.link {d d' : Data} {v w : BitVec 64} (h : Returned env v d d') :
    Returned env v d (d'.setReg 0 w) := by
  have hslots : ∀ slot ∈ restoredRegs, slot.1 ≠ 0 := by decide
  constructor
  · rw [setReg_of_ne (by decide), h.value]
  · rw [setReg_of_ne (by decide), h.target]
  · intro slot hslot
    rw [setReg_of_ne (hslots slot hslot), h.restored slot hslot]
  · intro r hx0 hsp ha0 hr
    rw [setReg_of_ne hx0, h.kept r hx0 hsp ha0 hr]
  · intro a ha
    rw [setReg_mem, h.mem a ha]

/-! ## The call and the way back -/

/-- The far call, called in `s` with the return address in a0, has returned in `t`. -/
structure FarReturned (env : FarEnv) (K : ℕ → Prop) (v : BitVec 64) (s t : Machine) : Prop where
  pc : t.pc = s.ireg rv_ireg_a0 &&& ~~~1#64
  value : t.ireg rv_ireg_a0 = v
  regs : ∀ r, r ≠ rv_ireg_x0 → r ≠ rv_ireg_sp → r ≠ rv_ireg_a0 → t.ireg r = s.ireg r
  mem : ∀ a, K a → ¬ (env.frame ≤ a ∧ a < env.frame + 136) → t.mem a = s.mem a

/-- The replay function is called in `c`, with the return address `mid`. -/
structure Called (env : FarEnv) (s c : Machine) (mid : ℕ) : Prop where
  pc : c.pc = BitVec.ofNat 64 env.replayEntry
  ra : c.ireg rv_ireg_ra = BitVec.ofNat 64 mid
  sp : c.ireg rv_ireg_sp = BitVec.ofNat 64 env.frame
  a0 : c.ireg rv_ireg_a0 = s.mem.read (env.frame + 128) 8
  a1 : c.ireg 11 = BitVec.ofNat 64 (env.frame + 136)
  kept : ∀ r, r ∉ [1, 2, 10, 11] → c.ireg r = s.ireg r
  saved : ∀ slot ∈ savedRegs, c.mem.read (env.frame + slot.2) 8 = s.ireg slot.1
  outside : ∀ a, ¬ env.InFrame a → c.mem a = s.mem a

theorem called_of_data {s c : Machine} {mid : ℕ} (hpc : c.pc = BitVec.ofNat 64 env.replayEntry)
    (hdata : c.data = (argsSet env (framed env
      (s.data.setReg 2 (BitVec.ofNat 64 env.frame)))).setReg 1 (BitVec.ofNat 64 mid)) :
    Called env s c mid := by
  have hregs : c.ireg = c.data.ireg := rfl
  have hmem : c.mem = (framed env (s.data.setReg 2 (BitVec.ofNat 64 env.frame))).mem := by
    rw [show c.mem = c.data.mem from rfl, hdata]
    rfl
  have hsaved : ∀ slot ∈ savedRegs, slot.1 ≠ 2 := by decide
  rw [argsSet] at hdata
  refine ⟨hpc, ?_, ?_, ?_, ?_, ?_, ?_, ?_⟩
  · rw [hregs, hdata]
    exact setReg_self (show (1 : Reg) ≠ rv_ireg_x0 by decide)
  · rw [hregs, hdata, setReg_of_ne (by decide), setReg_of_ne (by decide),
      setReg_of_ne (by decide), setReg_of_ne (by decide), framed_ireg]
    exact setReg_self (by decide)
  · rw [hregs, hdata, setReg_of_ne (by decide), setReg_of_ne (by decide),
      setReg_of_ne (by decide), framed_read_outside (Or.inl le_rfl)]
    exact setReg_self (show (10 : Reg) ≠ rv_ireg_x0 by decide)
  · rw [hregs, hdata, setReg_of_ne (by decide), setReg_of_ne (by decide)]
    exact setReg_self (by decide)
  · intro r hr
    simp only [List.mem_cons, List.not_mem_nil, or_false, not_or] at hr
    rw [hregs, hdata, setReg_of_ne hr.1, setReg_of_ne hr.1, setReg_of_ne hr.2.2.2,
      setReg_of_ne hr.2.2.1]
    exact setReg_of_ne hr.2.1
  · intro slot hslot
    rw [hmem, framed, storeSlots_read (by decide) hslot]
    exact setReg_of_ne (hsaved slot hslot)
  · intro a ha
    rw [hmem, framed_outside ha]
    rfl

theorem farCall_reaches {s : Machine} (hready : env.Ready host s.mem)
    (hpc : s.pc = BitVec.ofNat 64 env.farAddr) :
    ∃ mid j c, BlockAt host s.mem mid farReturnLine j farReturnJump env.farEnd ∧
      env.farAddr ≤ mid ∧ mid % 2 = 0 ∧ Reaches host s c ∧ Called env s c mid := by
  obtain ⟨j₁, mid, j₂, hcall, hreturn⟩ := hready.code
  obtain ⟨heven, hmid⟩ := blockAt_even hcall hready.farEven
  have hle := blockAt_le hreturn
  obtain ⟨c, hreach, hcpc, hdata⟩ := block_reaches hcall (hle.trans_lt hready.farFits) hpc heven
    trivial (spares_mono (fun a ha => ⟨ha.1, ha.2.trans_le hle⟩) (spares_farCall hready))
  have hline : line (farCallLine env.replaySp env.replayPc) s.data = _ := line_farCall hready
  rw [hline] at hcpc hdata
  refine ⟨mid, j₂, c, hreturn, blockAt_le hcall, hmid, hreach, called_of_data ?_ hdata⟩
  rw [hcpc, farCallJump, Jump.target, argsSet, setReg_self (by decide), show sx 0 = 0#64 from rfl,
    BitVec.add_zero, ofNat_and_not_one hready.entryEven hready.entryFits]

theorem farReturn_reaches {u : Machine} {mid j p : ℕ} {v : BitVec 64}
    (hcode : BlockAt host u.mem mid farReturnLine j farReturnJump env.farEnd)
    (hfar : env.farEnd < 2 ^ 64) (heven : mid % 2 = 0) (hpc : u.pc = BitVec.ofNat 64 mid)
    (hsp : u.ireg rv_ireg_sp = BitVec.ofNat 64 env.frame) (hfits : env.frame + 144 ≤ 2 ^ 64)
    (hapart : env.frame + 136 ≤ mid ∨ env.farEnd ≤ env.frame)
    (hptr : u.ireg rv_ireg_a0 = BitVec.ofNat 64 (p + 8)) (hp : p < 2 ^ 64)
    (hread : u.mem.read p 8 = v)
    (hitem : p + 8 ≤ env.frame + 128 ∨ env.frame + 136 ≤ p) :
    ∃ t, Reaches host u t ∧ t.pc = t.ireg rv_ireg_sp &&& ~~~1#64 ∧
      Returned env v u.data t.data := by
  have htable : Asm.addr u.data 2 128 = env.frame + 128 :=
    slot_addr (n := 144) hsp (by decide) (by decide) hfits
  have hspare : Spares (fun a => mid ≤ a ∧ a < env.farEnd) farReturnLine u.data := by
    rw [farReturnLine, List.cons_append, Spares]
    refine ⟨?_, spares_of_pure ?_⟩
    · intro a ha
      rw [Asm.eval, htable]
      exact Mem.write_of_not_mem (by omega)
    · intro i hi
      rcases List.mem_append.mp hi with hi | hi
      · rw [List.mem_singleton.mp hi]
        trivial
      · rcases List.mem_append.mp hi with hi | hi
        · exact pure_loadAll 2 restoredRegs i hi
        · rw [List.mem_singleton.mp hi]
          trivial
  have hline : Returned env v u.data (line farReturnLine u.data) :=
    line_farReturn hsp hfits hptr hp hread hitem
  obtain ⟨t, hreach, htpc, hdata⟩ := block_reaches hcode hfar hpc (blockAt_even hcode heven).1
    trivial hspare
  have hlink : farReturnJump.link env.farEnd (line farReturnLine u.data) =
      (line farReturnLine u.data).setReg 0 (BitVec.ofNat 64 env.farEnd) := rfl
  have hret : Returned env v u.data t.data := by
    rw [hdata, hlink]
    exact hline.link
  have htarget : (line farReturnLine u.data).ireg 2 = t.ireg rv_ireg_sp :=
    hline.target.trans hret.target.symm
  refine ⟨t, hreach, ?_, hret⟩
  rw [htpc, farReturnJump, Jump.target, htarget, show sx 0 = 0#64 from rfl, BitVec.add_zero]

theorem far_run {K : ℕ → Prop} {s : Machine} {v : BitVec 64} (hready : env.Ready host s.mem)
    (hreplay : env.ReplayCall host K s.mem v) (hcode : ∀ a, env.InFar a → K a)
    (hframe : ∀ a, env.InFrame a → K a) (hpc : s.pc = BitVec.ofNat 64 env.farAddr) :
    ∃ t, Reaches host s t ∧ FarReturned env K v s t := by
  have hfits := hready.frameFits
  have hapart := hready.farApart
  obtain ⟨mid, j, c, hreturn, hmid, heven, hc, hcalled⟩ := farCall_reaches hready hpc
  obtain ⟨u, p, hu, hconv, hkept, hptr, hp, hread, hitem⟩ :=
    hreplay c hcalled.pc hcalled.sp hcalled.a0 hcalled.a1 hcalled.outside
  have hle := blockAt_le hreturn
  -- the code is still there, and so is the frame
  have hreturn' : BlockAt host u.mem mid farReturnLine j farReturnJump env.farEnd := by
    apply blockAt_congr _ hreturn
    intro a hlo hhi
    rw [hkept a (hcode a ⟨hmid.trans hlo, hhi⟩)]
    apply hcalled.outside a
    rw [FarEnv.InFrame]
    omega
  have hslots : ∀ slot ∈ savedRegs, u.mem.read (env.frame + slot.2) 8 = s.ireg slot.1 := by
    have hwithin : Slots.Within savedRegs 128 := by decide
    intro slot hslot
    have := hwithin slot hslot
    rw [← hcalled.saved slot hslot]
    apply Mem.read_congr
    intro i hi
    apply hkept _ (hframe _ _)
    rw [FarEnv.InFrame]
    omega
  have hupc : u.pc = BitVec.ofNat 64 mid := by
    rw [hconv.returns, hcalled.ra, ofNat_and_not_one heven (hle.trans_lt hready.farFits)]
  have husp : u.ireg rv_ireg_sp = BitVec.ofNat 64 env.frame := by
    rw [hconv.saved _ (by decide), hcalled.sp]
  obtain ⟨t, ht, htpc, hback⟩ := farReturn_reaches hreturn' hready.farFits heven hupc husp hfits
    (by omega) hptr hp hread hitem
  refine ⟨t, (hc.trans hu).trans ht, ?_, hback.value, ?_, ?_⟩
  · rw [htpc, show t.ireg rv_ireg_sp = t.data.ireg 2 from rfl, hback.target]
    have ha0 : u.mem.read (env.frame + 32) 8 = s.ireg rv_ireg_a0 := hslots (10, 32) (by decide)
    exact congrArg (fun x => x &&& ~~~1#64) ha0
  · intro r hx0 hsp ha0
    rcases saved_cases r hx0 hsp ha0 with hr | ⟨hsaved, hr⟩
    · obtain ⟨slot, hslot, rfl⟩ := List.mem_map.mp hr
      have hsub : ∀ slot ∈ restoredRegs, slot ∈ savedRegs := by decide
      exact (hback.restored slot hslot).trans (hslots slot (hsub slot hslot))
    · have hfree : ∀ r ∈ calleeSaved, r ∉ restoredRegs.map Prod.fst → r ≠ 2 →
          r ∉ [1, 2, 10, 11] := by decide
      refine (hback.kept r hx0 hsp ha0 hr).trans ?_
      rw [← hcalled.kept r (hfree r hsaved hr hsp)]
      exact hconv.saved r hsaved
  · intro a ha hout
    refine (hback.mem a (by omega)).trans ?_
    rw [show u.data.mem a = u.mem a from rfl, hkept a ha]
    apply hcalled.outside a
    rw [FarEnv.InFrame]
    omega

end RvCkpt.Stub
