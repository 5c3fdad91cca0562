import RvCkpt.Stub.Trap

/-! # Entering the guest

`cl_entry` of `entry.S` maps the image, sets the replay stack up and loads the registers. The first
two words of the register file that it does not load for the guest take it through the far call to
the entry call, which loads the stack pointer.
-/

namespace RvCkpt.Stub
open ByteMem Isa Parse
set_option autoImplicit false

/-- Where the loader and the image lie. `frame` is the stack pointer of the far call; the loader
is entered with a stack pointer 152 bytes above it. -/
structure EntryEnv where
  clEntry : ℕ
  clEnd : ℕ
  mapPages : ℕ
  replayEntry : ℕ
  frame : ℕ
  regsAddr : ℕ
  nearBuf : ℕ
  farAddr : ℕ
  farEnd : ℕ
  entryAddr : ℕ
  entryEnd : ℕ
  entryPc : ℕ

namespace EntryEnv

/-- The fields behind the register file are the slots of the far call. -/
def far (cl : EntryEnv) : FarEnv where
  replaySp := cl.regsAddr + 512
  replayPc := cl.regsAddr + 520
  frame := cl.frame
  replayEntry := cl.replayEntry
  farAddr := cl.farAddr
  farEnd := cl.farEnd

def InCl (cl : EntryEnv) (a : ℕ) : Prop := cl.clEntry ≤ a ∧ a < cl.clEnd

/-- `cl_entry` in memory. -/
def CodeAt (cl : EntryEnv) (host : Host) (m : Mem) : Prop :=
  ∃ j mid x jal hiImm loImm k,
    BlockAt host m cl.clEntry entryCallLine j (.jal 1 jal) mid ∧
    sx jal ≠ -1 ∧ BitVec.ofNat 64 j + sx jal = BitVec.ofNat 64 cl.mapPages ∧
    LineAt host m mid entryReplayLine x ∧
    lenAt m x ≠ 0 ∧ IsAuipc (instAt host m x) 12 hiImm ∧
    BitVec.ofNat 64 x + sx hiImm + sx loImm = BitVec.ofNat 64 cl.replayEntry ∧
    BlockAt host m (x + lenAt m x) (entryRestoreLine loImm) k entryJump cl.clEnd

/-- The stack and the slots are set up. -/
def prepared (cl : EntryEnv) (m : Mem) : Mem :=
  ((m.write (cl.regsAddr + 512) 8 (BitVec.ofNat 64 (cl.frame + 128))).write (cl.regsAddr + 520) 8
    (BitVec.ofNat 64 cl.replayEntry)).write (cl.frame + 128) 8 (BitVec.ofNat 64 (cl.regsAddr + 528))

/-- `map_pages` has loaded an image with the registers `regs`, and the replay function answers its
first call with the recorded a0. -/
structure Loaded (cl : EntryEnv) (host : Host) (K : ℕ → Prop) (regs : List (BitVec 64)) (m : Mem) :
    Prop where
  regfile : m.Holds cl.regsAddr ((Checkpoint.patchedRegs regs cl.farAddr cl.entryAddr).flatMap word)
  nearBuf : m.Holds cl.nearBuf (word (regs.getD 2 0))
  far : FarAt host m (cl.regsAddr + 512) (cl.regsAddr + 520) cl.farAddr cl.farEnd
  entry : ∃ j, BlockAt host m cl.entryAddr (restoreSp cl.nearBuf) j (relJump j cl.entryPc)
    cl.entryEnd ∧ InReach j cl.entryPc
  replay : cl.far.ReplayCall host K (cl.prepared m) (regs.getD 10 0)

/-- `map_pages`, called from `m` with the pointer to the register file saved. -/
def MapCall (cl : EntryEnv) (host : Host) (K : ℕ → Prop) (regs : List (BitVec 64)) (m : Mem) : Prop :=
  ∀ c : Machine, c.pc = BitVec.ofNat 64 cl.mapPages →
    c.ireg rv_ireg_sp = BitVec.ofNat 64 (cl.frame + 128) →
    c.mem = m.write (cl.frame + 128) 8 (BitVec.ofNat 64 cl.regsAddr) →
    ∃ t, Reaches host c t ∧ Convention c t ∧ (∀ a, cl.InCl a → t.mem a = c.mem a) ∧
      t.mem.read (cl.frame + 128) 8 = BitVec.ofNat 64 cl.regsAddr ∧ cl.Loaded host K regs t.mem

/-- The regions lie apart. -/
structure Ready (cl : EntryEnv) (host : Host) (m : Mem) : Prop where
  code : cl.CodeAt host m
  even : cl.clEntry % 2 = 0 ∧ cl.mapPages % 2 = 0 ∧ cl.replayEntry % 2 = 0 ∧ cl.farAddr % 2 = 0 ∧
    cl.entryAddr % 2 = 0 ∧ cl.entryPc % 2 = 0
  fits : cl.clEnd < 2 ^ 64 ∧ cl.replayEntry < 2 ^ 64 ∧ cl.farEnd < 2 ^ 64 ∧ cl.entryEnd < 2 ^ 64 ∧
    cl.frame + 152 ≤ 2 ^ 64
  reach : Reachable (cl.regsAddr + 520) ∧ Reachable cl.nearBuf
  stackCl : cl.frame + 136 ≤ cl.clEntry ∨ cl.clEnd ≤ cl.frame
  stackRegs : cl.frame + 136 ≤ cl.regsAddr ∨ cl.regsAddr + 528 ≤ cl.frame
  stackFar : cl.frame + 136 ≤ cl.farAddr ∨ cl.farEnd ≤ cl.frame
  stackEntry : cl.frame + 136 ≤ cl.entryAddr ∨ cl.entryEnd ≤ cl.frame
  stackBuf : cl.frame + 136 ≤ cl.nearBuf ∨ cl.nearBuf + 8 ≤ cl.frame
  regsCl : cl.regsAddr + 528 ≤ cl.clEntry ∨ cl.clEnd ≤ cl.regsAddr
  regsFar : cl.regsAddr + 528 ≤ cl.farAddr ∨ cl.farEnd ≤ cl.regsAddr
  regsEntry : cl.regsAddr + 528 ≤ cl.entryAddr ∨ cl.entryEnd ≤ cl.regsAddr
  regsBuf : cl.regsAddr + 528 ≤ cl.nearBuf ∨ cl.nearBuf + 8 ≤ cl.regsAddr

/-- What the replay function must leave alone. -/
structure Keeps (cl : EntryEnv) (K : ℕ → Prop) : Prop where
  far : ∀ a, cl.far.InFar a → K a
  frame : ∀ a, cl.far.InFrame a → K a
  entry : ∀ a, cl.entryAddr ≤ a → a < cl.entryEnd → K a
  buf : ∀ a, cl.nearBuf ≤ a → a < cl.nearBuf + 8 → K a

end EntryEnv

variable {host : Host} {cl : EntryEnv}

/-! ## The lines of `cl_entry` -/

theorem eval_entryFrame {d : Data} (hsp : d.ireg 2 = BitVec.ofNat 64 (cl.frame + 152)) :
    (Asm.addi 2 2 (BitVec.ofInt 32 (-(8 + NUM_CSR * 8)))).eval d =
      d.setReg 2 (BitVec.ofNat 64 (cl.frame + 128)) := by
  have hframe : BitVec.ofNat 64 (cl.frame + 152) + sx (BitVec.ofInt 32 (-(8 + NUM_CSR * 8))) =
      BitVec.ofNat 64 (cl.frame + 128) := by
    rw [show sx (BitVec.ofInt 32 (-(8 + NUM_CSR * 8))) = -(24#64) by decide,
      show cl.frame + 152 = cl.frame + 128 + 24 from rfl, BitVec.ofNat_add _ 24,
      ← BitVec.sub_eq_add_neg, BitVec.add_sub_cancel]
  rw [Asm.eval, hsp, hframe]

theorem entryFrame_addr {d : Data} (hfits : cl.frame + 152 ≤ 2 ^ 64) :
    Asm.addr (d.setReg 2 (BitVec.ofNat 64 (cl.frame + 128))) 2 0 = cl.frame + 128 :=
  slot_addr (n := 8) (setReg_self (by decide)) (by decide) (by decide) (by omega)

theorem line_entryCall {d : Data} (hsp : d.ireg 2 = BitVec.ofNat 64 (cl.frame + 152))
    (hfits : cl.frame + 152 ≤ 2 ^ 64) :
    line entryCallLine d =
      (d.setReg 2 (BitVec.ofNat 64 (cl.frame + 128))).store (cl.frame + 128) (d.ireg 13) := by
  rw [entryCallLine, line_cons, line_cons, line_nil, eval_entryFrame hsp, Asm.eval,
    entryFrame_addr hfits, setReg_of_ne (by decide)]

/-- The register file and the slot of the replay stack pointer. -/
def regfileLoaded (cl : EntryEnv) (d : Data) : Data :=
  (d.setReg 10 (BitVec.ofNat 64 cl.regsAddr)).setReg 11 (BitVec.ofNat 64 (cl.regsAddr + 512))

theorem line_regfile {d : Data} (hsp : d.ireg 2 = BitVec.ofNat 64 (cl.frame + 128))
    (hfits : cl.frame + 152 ≤ 2 ^ 64)
    (hslot : d.mem.read (cl.frame + 128) 8 = BitVec.ofNat 64 cl.regsAddr) :
    line [.ld 10 2 0, .addi 11 10 512] d = regfileLoaded cl d := by
  have hload : Asm.addr d 2 0 = cl.frame + 128 :=
    slot_addr (n := 8) hsp (by decide) (by decide) (by omega)
  have hadd : BitVec.ofNat 64 cl.regsAddr + sx 512 = BitVec.ofNat 64 (cl.regsAddr + 512) :=
    ofNat_add_sx (n := 512) (by decide)
  rw [line_cons, line_cons, line_nil, Asm.eval, Asm.eval, hload, hslot, setReg_self (by decide),
    hadd, regfileLoaded]

theorem regfileLoaded_addr {d : Data} (hreach : Reachable (cl.regsAddr + 520)) :
    Asm.addr (regfileLoaded cl d) 11 0 = cl.regsAddr + 512 := by
  unfold Reachable at hreach
  exact slot_addr (n := 8) (setReg_self (by decide)) (by decide) (by decide) (by omega)

theorem line_entryReplay {d : Data} (hsp : d.ireg 2 = BitVec.ofNat 64 (cl.frame + 128))
    (hfits : cl.frame + 152 ≤ 2 ^ 64)
    (hslot : d.mem.read (cl.frame + 128) 8 = BitVec.ofNat 64 cl.regsAddr)
    (hreach : Reachable (cl.regsAddr + 520)) :
    line entryReplayLine d =
      (regfileLoaded cl d).store (cl.regsAddr + 512) (BitVec.ofNat 64 (cl.frame + 128)) := by
  have hsplit : entryReplayLine = [.ld 10 2 0, .addi 11 10 512] ++ [.sd 2 11 0] := rfl
  have hsp' : (regfileLoaded cl d).ireg 2 = BitVec.ofNat 64 (cl.frame + 128) := by
    rw [regfileLoaded, setReg_of_ne (by decide), setReg_of_ne (by decide), hsp]
  rw [hsplit, line_append, line_regfile hsp hfits hslot, line_cons, line_nil, Asm.eval,
    regfileLoaded_addr hreach, hsp']

theorem spares_sd {K : ℕ → Prop} {d : Data} {rs base : Reg} {imm : BitVec 32} {x : ℕ}
    {is : List Asm} (haddr : Asm.addr d base imm = x) (hK : ∀ a, K a → ¬ (x ≤ a ∧ a < x + 8))
    (h : Spares K is (d.store x (d.ireg rs))) : Spares K (.sd rs base imm :: is) d := by
  rw [Spares, Asm.eval, haddr]
  exact ⟨fun a ha => store_of_not_mem (hK a ha), h⟩

theorem spares_entryReplay {d : Data} {K : ℕ → Prop}
    (hsp : d.ireg 2 = BitVec.ofNat 64 (cl.frame + 128)) (hfits : cl.frame + 152 ≤ 2 ^ 64)
    (hslot : d.mem.read (cl.frame + 128) 8 = BitVec.ofNat 64 cl.regsAddr)
    (hreach : Reachable (cl.regsAddr + 520))
    (hK : ∀ a, K a → ¬ (cl.regsAddr + 512 ≤ a ∧ a < cl.regsAddr + 512 + 8)) :
    Spares K entryReplayLine d := by
  have hsplit : entryReplayLine = [.ld 10 2 0, .addi 11 10 512] ++ [.sd 2 11 0] := rfl
  rw [hsplit, spares_append, line_regfile hsp hfits hslot]
  exact ⟨spares_of_pure (by simp [Asm.Pure]), spares_sd (regfileLoaded_addr hreach) hK trivial⟩

/-- Behind `lla`, up to the base register of the register file. -/
def readyToLoad (cl : EntryEnv) (d : Data) : Data :=
  ((((d.setReg 12 (BitVec.ofNat 64 cl.replayEntry)).store (cl.regsAddr + 520)
    (BitVec.ofNat 64 cl.replayEntry)).setReg 11 (BitVec.ofNat 64 (cl.regsAddr + 528))).store
    (cl.frame + 128) (BitVec.ofNat 64 (cl.regsAddr + 528))).setReg 2 (BitVec.ofNat 64 cl.regsAddr)

def prepareLine (replayLo : BitVec 32) : List Asm :=
  [.addi 12 12 replayLo, .sd 12 11 8, .addi 11 11 16, .sd 11 2 0, .addi 2 10 0]

theorem line_entryPrepare {d : Data} {loImm : BitVec 32}
    (hsp : d.ireg 2 = BitVec.ofNat 64 (cl.frame + 128)) (hfits : cl.frame + 152 ≤ 2 ^ 64)
    (ha0 : d.ireg 10 = BitVec.ofNat 64 cl.regsAddr)
    (ha1 : d.ireg 11 = BitVec.ofNat 64 (cl.regsAddr + 512))
    (ha2 : d.ireg 12 + sx loImm = BitVec.ofNat 64 cl.replayEntry)
    (hreach : Reachable (cl.regsAddr + 520)) :
    line (prepareLine loImm) d = readyToLoad cl d := by
  unfold Reachable at hreach
  have hpc (d' : Data) (h : d'.ireg 11 = BitVec.ofNat 64 (cl.regsAddr + 512)) :
      Asm.addr d' 11 8 = cl.regsAddr + 520 :=
    slot_addr (k := 8) (n := 16) h (by decide) (by decide) (by omega)
  have hnext : BitVec.ofNat 64 (cl.regsAddr + 512) + sx 16 = BitVec.ofNat 64 (cl.regsAddr + 528) :=
    ofNat_add_sx (n := 16) (by decide)
  have hslot (d' : Data) (h : d'.ireg 2 = BitVec.ofNat 64 (cl.frame + 128)) :
      Asm.addr d' 2 0 = cl.frame + 128 :=
    slot_addr (n := 8) h (by decide) (by decide) (by omega)
  have hmove (x : BitVec 64) : x + sx 0 = x := BitVec.add_zero x
  rw [prepareLine, line_cons, line_cons, line_cons, line_cons, line_cons, line_nil, Asm.eval,
    Asm.eval, Asm.eval, Asm.eval, Asm.eval, ha2,
    hpc _ ((setReg_of_ne (by decide)).trans ha1), setReg_self (by decide), store_ireg,
    setReg_of_ne (by decide), ha1, hnext, setReg_self (by decide), hslot, store_ireg,
    setReg_of_ne (by decide), store_ireg, setReg_of_ne (by decide), ha0, hmove, readyToLoad]
  rw [setReg_of_ne (by decide), store_ireg, setReg_of_ne (by decide), hsp]

def loadLine : List Asm := loadAll 2 guestRegs ++ (floadAll 2 guestFregs ++ [.ld 2 2 0])

/-- The registers that the loads leave, from the register file at `regsAddr`. -/
structure RegsLoaded (cl : EntryEnv) (d d' : Data) : Prop where
  mem : d'.mem = d.mem
  sp : d'.ireg 2 = d.mem.read cl.regsAddr 8
  regs : ∀ slot ∈ guestRegs, d'.ireg slot.1 = d.mem.read (cl.regsAddr + slot.2) 8

theorem line_entryLoad {d : Data} (hbase : d.ireg 2 = BitVec.ofNat 64 cl.regsAddr)
    (hfits : cl.regsAddr + 512 ≤ 2 ^ 64) : RegsLoaded cl d (line loadLine d) := by
  obtain ⟨hmem, hkeep⟩ := line_loadAll_keeps d 2 guestRegs
  have hfloat := line_floadAll (line (loadAll 2 guestRegs) d) 2 guestFregs
  obtain ⟨hfmem, hfregs⟩ := hfloat
  have hbase' : (line (floadAll 2 guestFregs) (line (loadAll 2 guestRegs) d)).ireg 2 =
      BitVec.ofNat 64 cl.regsAddr := by
    rw [hfregs, hkeep 2 (by decide), hbase]
  have haddr : Asm.addr (line (floadAll 2 guestFregs) (line (loadAll 2 guestRegs) d)) 2 0 =
      cl.regsAddr :=
    slot_addr (b := cl.regsAddr) (k := 0) (n := 8) hbase' (by decide) (by decide) (by omega)
  have hline : line loadLine d = (line (floadAll 2 guestFregs)
      (line (loadAll 2 guestRegs) d)).setReg 2 (d.mem.read cl.regsAddr 8) := by
    rw [loadLine, line_append, line_append, line_cons, line_nil, Asm.eval, haddr, hfmem, hmem]
  rw [hline]
  refine ⟨?_, setReg_self (by decide), ?_⟩
  · rw [setReg_mem, hfmem, hmem]
  · intro slot hslot
    have hne : ∀ s ∈ guestRegs, s.1 ≠ 2 := by decide
    rw [setReg_of_ne (hne slot hslot), hfregs]
    exact line_loadAll (n := 512) hbase (by decide) (by decide) hfits (by decide) (by decide)
      (by decide) hslot

theorem pure_loadLine : ∀ i ∈ loadLine, i.Pure := by
  intro i hi
  rcases List.mem_append.mp hi with hi | hi
  · exact pure_loadAll 2 guestRegs i hi
  · rcases List.mem_append.mp hi with hi | hi
    · exact pure_floadAll 2 guestFregs i hi
    · rw [List.mem_singleton.mp hi]
      trivial

/-! ## The register file -/

theorem read_words {m : Mem} {a : ℕ} {xs : List (BitVec 64)} (h : m.Holds a (xs.flatMap word)) {i : ℕ}
    (hi : i < xs.length) : m.read (a + 8 * i) 8 = xs.getD i 0 := by
  induction xs generalizing a i with
  | nil => cases hi
  | cons x xs ih =>
    rw [List.flatMap_cons] at h
    obtain ⟨hx, hxs⟩ := Mem.holds_append.mp h
    rw [word_length] at hxs
    cases i with
    | zero => exact Mem.read_of_holds_word_full hx
    | succ i =>
      have hrest := ih hxs (Nat.lt_of_succ_lt_succ hi)
      rw [List.getD_cons_succ, ← hrest]
      congr 1
      omega

theorem patchedRegs_getD {regs : List (BitVec 64)} (farAddr entryAddr : ℕ) {i : ℕ}
    (hlen : regs.length = 64) :
    (Checkpoint.patchedRegs regs farAddr entryAddr).getD i 0 =
      if i = 10 then BitVec.ofNat 64 entryAddr
      else if i = 0 then BitVec.ofNat 64 farAddr else regs.getD i 0 := by
  simp only [Checkpoint.patchedRegs, List.getD_eq_getElem?_getD, List.getElem?_set,
    List.length_set, hlen]
  by_cases h10 : i = 10
  · rw [if_pos h10, if_pos h10.symm, if_pos (by decide)]
    rfl
  · by_cases h0 : i = 0
    · rw [if_neg h10, if_pos h0, if_neg (Ne.symm h10), if_pos h0.symm, if_pos (by decide)]
      rfl
    · rw [if_neg h10, if_neg h0, if_neg (Ne.symm h10), if_neg (Ne.symm h0)]

/-! ## The run of the loader -/

/-- `map_pages` is called. -/
theorem mapCall_reaches {s : Machine} {j mid : ℕ} {jal : BitVec 32}
    (hblock : BlockAt host s.mem cl.clEntry entryCallLine j (.jal 1 jal) mid) (hlegal : sx jal ≠ -1)
    (htarget : BitVec.ofNat 64 j + sx jal = BitVec.ofNat 64 cl.mapPages)
    (heven : cl.clEntry % 2 = 0) (hmid : mid < 2 ^ 64) (hpc : s.pc = BitVec.ofNat 64 cl.clEntry)
    (hsp : s.ireg rv_ireg_sp = BitVec.ofNat 64 (cl.frame + 152))
    (ha3 : s.ireg 13 = BitVec.ofNat 64 cl.regsAddr) (hfits : cl.frame + 152 ≤ 2 ^ 64)
    (hapart : cl.frame + 136 ≤ cl.clEntry ∨ mid ≤ cl.frame) :
    ∃ c, Reaches host s c ∧ c.pc = BitVec.ofNat 64 cl.mapPages ∧
      c.ireg rv_ireg_ra = BitVec.ofNat 64 mid ∧
      c.ireg rv_ireg_sp = BitVec.ofNat 64 (cl.frame + 128) ∧
      c.mem = s.mem.write (cl.frame + 128) 8 (BitVec.ofNat 64 cl.regsAddr) := by
  have hline : line entryCallLine s.data = _ := line_entryCall hsp hfits
  have hspare : Spares (fun a => cl.clEntry ≤ a ∧ a < mid) entryCallLine s.data := by
    refine ⟨fun _ _ => rfl, spares_sd (x := cl.frame + 128) ?_ ?_ trivial⟩
    · rw [eval_entryFrame hsp, entryFrame_addr hfits]
    · intro a ha
      omega
  obtain ⟨c, hc, hcpc, hdata⟩ := block_reaches hblock hmid hpc (blockAt_even hblock heven).1
    hlegal hspare
  rw [hline] at hdata
  refine ⟨c, hc, hcpc.trans htarget, ?_, ?_, ?_⟩
  · rw [show c.ireg = c.data.ireg from rfl, hdata]
    exact setReg_self (show (1 : Reg) ≠ rv_ireg_x0 by decide)
  · rw [show c.ireg = c.data.ireg from rfl, hdata, Jump.link, setReg_of_ne (by decide), store_ireg]
    exact setReg_self (by decide)
  · rw [show c.mem = c.data.mem from rfl, hdata, Jump.link, setReg_mem, Data.store, setReg_mem,
      show s.data.ireg 13 = s.ireg 13 from rfl, ha3]
    rfl

/-- The slots that are written while the stack is set up. -/
def InSlots (cl : EntryEnv) (a : ℕ) : Prop :=
  (cl.regsAddr + 512 ≤ a ∧ a < cl.regsAddr + 528) ∨ (cl.frame + 128 ≤ a ∧ a < cl.frame + 136)

theorem prepared_of_not_slots {m : Mem} {a : ℕ} (h : ¬ InSlots cl a) : cl.prepared m a = m a := by
  rw [InSlots] at h
  rw [EntryEnv.prepared, Mem.write_of_not_mem (by omega), Mem.write_of_not_mem (by omega),
    Mem.write_of_not_mem (by omega)]

theorem prepared_read {m : Mem} {a : ℕ} (h : ∀ i < 8, ¬ InSlots cl (a + i)) :
    (cl.prepared m).read a 8 = m.read a 8 :=
  Mem.read_congr fun i hi => prepared_of_not_slots (h i hi)

section Restore

variable {u : Machine} {mid x k : ℕ} {hiImm loImm : BitVec 32}

/-- Up to the second half of `lla`. -/
theorem replaySlot_reaches (hline : LineAt host u.mem mid entryReplayLine x) (hx : x < 2 ^ 64)
    (hlen : lenAt u.mem x ≠ 0) (hauipc : IsAuipc (instAt host u.mem x) 12 hiImm)
    (hpc : u.pc = BitVec.ofNat 64 mid)
    (hsp : u.ireg rv_ireg_sp = BitVec.ofNat 64 (cl.frame + 128))
    (hslot : u.mem.read (cl.frame + 128) 8 = BitVec.ofNat 64 cl.regsAddr)
    (hfits : cl.frame + 152 ≤ 2 ^ 64) (hreach : Reachable (cl.regsAddr + 520))
    (hapart : cl.regsAddr + 528 ≤ mid ∨ x + lenAt u.mem x ≤ cl.regsAddr) :
    ∃ b, Reaches host u b ∧ b.pc = BitVec.ofNat 64 (x + lenAt u.mem x) ∧
      b.data = ((regfileLoaded cl u.data).store (cl.regsAddr + 512)
        (BitVec.ofNat 64 (cl.frame + 128))).setReg 12 (BitVec.ofNat 64 x + sx hiImm) := by
  have hdone : line entryReplayLine u.data = _ := line_entryReplay hsp hfits hslot hreach
  have hspare : Spares (fun a => mid ≤ a ∧ a < x) entryReplayLine u.data := by
    refine spares_entryReplay (d := u.data) hsp hfits hslot hreach ?_
    intro a ha
    omega
  obtain ⟨a, ha, hapc, hadata⟩ := line_reaches hline hx hpc hspare
  rw [hdone] at hadata
  have hsame : ∀ y, x ≤ y → y < x + lenAt u.mem x → a.mem y = u.mem y := by
    intro y hlo hhi
    have hle := lineAt_le hline
    rw [show a.mem = a.data.mem from rfl, hadata]
    exact store_of_not_mem (by omega)
  have hfetch : instFetch a.mem x = instFetch u.mem x := instFetch_congr hlen hsame
  have hauipc' : IsAuipc (instAt host a.mem x) 12 hiImm := by
    rw [instAt, hfetch]
    exact hauipc
  have hlen' : lenAt a.mem x = lenAt u.mem x := by rw [lenAt, hfetch, lenAt]
  refine ⟨_, ha.trans (Reaches.single (step_auipc hx hapc hauipc')), ?_, ?_⟩
  · rw [put_pc, hlen']
  · rw [put_data, hadata]

theorem spares_prepare {d : Data} {K : ℕ → Prop}
    (hsp : d.ireg 2 = BitVec.ofNat 64 (cl.frame + 128)) (hfits : cl.frame + 152 ≤ 2 ^ 64)
    (ha1 : d.ireg 11 = BitVec.ofNat 64 (cl.regsAddr + 512))
    (hreach : Reachable (cl.regsAddr + 520)) (hK : ∀ a, K a → ¬ InSlots cl a) :
    Spares K (prepareLine loImm) d := by
  unfold Reachable at hreach
  simp only [InSlots, not_or] at hK
  refine ⟨fun _ _ => rfl, spares_sd (x := cl.regsAddr + 520) ?_ ?_ ⟨fun _ _ => rfl,
    spares_sd (x := cl.frame + 128) ?_ ?_ ⟨fun _ _ => rfl, trivial⟩⟩⟩
  · exact slot_addr (k := 8) (n := 16) ((setReg_of_ne (by decide)).trans ha1) (by decide)
      (by decide) (by omega)
  · intro a ha
    have := hK a ha
    omega
  · refine slot_addr (k := 0) (n := 8) ?_ (by decide) (by decide) (by omega)
    rw [Asm.eval, setReg_of_ne (by decide), store_ireg, Asm.eval, setReg_of_ne (by decide), hsp]
  · intro a ha
    have := hK a ha
    omega

theorem entryRestoreLine_eq : entryRestoreLine loImm = prepareLine loImm ++ loadLine := rfl

/-- The guest's registers are loaded, and sp and a0 with what leads to the entry call. -/
structure Restored (cl : EntryEnv) (u f : Machine) : Prop where
  mem : f.mem = cl.prepared u.mem
  pc : f.pc = (cl.prepared u.mem).read cl.regsAddr 8 &&& ~~~1#64
  regs : ∀ slot ∈ guestRegs, f.ireg slot.1 = (cl.prepared u.mem).read (cl.regsAddr + slot.2) 8

theorem restore_reaches (hline : LineAt host u.mem mid entryReplayLine x)
    (hlen : lenAt u.mem x ≠ 0) (hauipc : IsAuipc (instAt host u.mem x) 12 hiImm)
    (hlla : BitVec.ofNat 64 x + sx hiImm + sx loImm = BitVec.ofNat 64 cl.replayEntry)
    (hblock : BlockAt host u.mem (x + lenAt u.mem x) (entryRestoreLine loImm) k entryJump cl.clEnd)
    (hend : cl.clEnd < 2 ^ 64) (hmid : mid % 2 = 0)
    (hpc : u.pc = BitVec.ofNat 64 mid)
    (hsp : u.ireg rv_ireg_sp = BitVec.ofNat 64 (cl.frame + 128))
    (hslot : u.mem.read (cl.frame + 128) 8 = BitVec.ofNat 64 cl.regsAddr)
    (hfits : cl.frame + 152 ≤ 2 ^ 64) (hreach : Reachable (cl.regsAddr + 520))
    (hregs : cl.regsAddr + 528 ≤ mid ∨ cl.clEnd ≤ cl.regsAddr)
    (hstack : cl.frame + 136 ≤ mid ∨ cl.clEnd ≤ cl.frame) :
    ∃ f, Reaches host u f ∧ Restored cl u f := by
  have hmidx := lineAt_le hline
  have hxend := blockAt_le hblock
  obtain ⟨b, hb, hbpc, hbdata⟩ := replaySlot_reaches hline (by omega) hlen hauipc hpc hsp hslot
    hfits hreach (by omega)
  have hbsp : b.data.ireg 2 = BitVec.ofNat 64 (cl.frame + 128) := by
    rw [hbdata, regfileLoaded, setReg_of_ne (by decide), store_ireg, setReg_of_ne (by decide),
      setReg_of_ne (by decide)]
    exact hsp
  have hba0 : b.data.ireg 10 = BitVec.ofNat 64 cl.regsAddr := by
    rw [hbdata, regfileLoaded, setReg_of_ne (by decide), store_ireg, setReg_of_ne (by decide),
      setReg_self (by decide)]
  have hba1 : b.data.ireg 11 = BitVec.ofNat 64 (cl.regsAddr + 512) := by
    rw [hbdata, regfileLoaded, setReg_of_ne (by decide), store_ireg, setReg_self (by decide)]
  have hba2 : b.data.ireg 12 + sx loImm = BitVec.ofNat 64 cl.replayEntry := by
    rw [hbdata, setReg_self (by decide), hlla]
  have hbmem : ∀ a, ¬ InSlots cl a → b.mem a = u.mem a := by
    intro a ha
    rw [InSlots] at ha
    rw [show b.mem = b.data.mem from rfl, hbdata, setReg_mem, store_of_not_mem (by omega)]
    rfl
  have hblock' : BlockAt host b.mem (x + lenAt u.mem x) (entryRestoreLine loImm) k entryJump
      cl.clEnd := by
    apply blockAt_congr _ hblock
    intro a hlo hhi
    apply hbmem
    rw [InSlots]
    omega
  have hprepare : line (prepareLine loImm) b.data = readyToLoad cl b.data :=
    line_entryPrepare hbsp hfits hba0 hba1 hba2 hreach
  have hspare : Spares (fun a => x + lenAt u.mem x ≤ a ∧ a < cl.clEnd) (entryRestoreLine loImm)
      b.data := by
    rw [entryRestoreLine_eq, spares_append]
    refine ⟨spares_prepare hbsp hfits hba1 hreach ?_, spares_of_pure pure_loadLine⟩
    intro a ha
    rw [InSlots]
    omega
  have heven := lineAt_even hline hmid
  have hlenEven := lenAt_even u.mem x
  obtain ⟨f, hf, hfpc, hfdata⟩ := block_reaches hblock' hend hbpc
    (blockAt_even hblock (by omega)).1 trivial hspare
  rw [entryRestoreLine_eq, line_append, hprepare] at hfpc hfdata
  have hmem : (readyToLoad cl b.data).mem = cl.prepared u.mem := by
    rw [readyToLoad, setReg_mem, Data.store, setReg_mem, Data.store, setReg_mem, hbdata]
    rfl
  have hfits' : cl.regsAddr + 512 ≤ 2 ^ 64 := by
    unfold Reachable at hreach
    omega
  have hloaded : RegsLoaded cl (readyToLoad cl b.data) (line loadLine (readyToLoad cl b.data)) :=
    line_entryLoad (setReg_self (by decide)) hfits'
  refine ⟨f, hb.trans hf, ?_, ?_, ?_⟩
  · rw [show f.mem = f.data.mem from rfl, hfdata, ← hmem]
    exact hloaded.mem
  · rw [hfpc, entryJump, Jump.target, hloaded.sp, hmem]
    exact congrArg (fun y => y &&& ~~~1#64) (BitVec.add_zero _)
  · intro slot hslot'
    have hne : ∀ s ∈ guestRegs, s.1 ≠ 0 := by decide
    rw [show f.ireg = f.data.ireg from rfl, hfdata, ← hmem, ← hloaded.regs slot hslot']
    exact setReg_of_ne (hne slot hslot')

end Restore

/-! ## The whole entry -/

/-- The far call is ready when the stack is set up. -/
theorem far_ready {m₀ m : Mem} (hready : cl.Ready host m₀)
    (hfar : FarAt host m (cl.regsAddr + 512) (cl.regsAddr + 520) cl.farAddr cl.farEnd) :
    cl.far.Ready host (cl.prepared m) := by
  obtain ⟨_, _, hreplayEven, hfarEven, _, _⟩ := hready.even
  obtain ⟨_, hreplayFits, hfarFits, _, hfits⟩ := hready.fits
  have hreach := hready.reach.1
  have hstackFar := hready.stackFar
  have hregsFar := hready.regsFar
  have hstackRegs := hready.stackRegs
  have hcode : ∀ a, cl.far.InFar a → cl.prepared m a = m a := by
    rintro a ⟨hlo, hhi⟩
    simp only [EntryEnv.far] at hlo hhi
    apply prepared_of_not_slots
    rw [InSlots]
    omega
  obtain ⟨j₁, mid, j₂, hcall, hreturn⟩ := hfar
  have hmid := blockAt_le hcall
  have hend := blockAt_le hreturn
  refine ⟨⟨j₁, mid, j₂, ?_, ?_⟩, ?_, ?_, ?_, hreach, hfarEven, hreplayEven, hfarFits, hreplayFits,
    ?_, hstackFar, ?_⟩
  · exact blockAt_congr (fun a hlo hhi => hcode a ⟨hlo, hhi.trans_le hend⟩) hcall
  · exact blockAt_congr (fun a hlo hhi => hcode a ⟨hmid.trans hlo, hhi⟩) hreturn
  · simp only [EntryEnv.far, EntryEnv.prepared]
    rw [Mem.read_write_of_disjoint (by omega), Mem.read_write_of_disjoint (by omega),
      Mem.read_write_word]
  · simp only [EntryEnv.far, EntryEnv.prepared]
    rw [Mem.read_write_of_disjoint (by omega), Mem.read_write_word]
  · simp only [EntryEnv.far, Reachable] at hreach ⊢
    omega
  · simp only [EntryEnv.far]
    omega
  · simp only [EntryEnv.far]
    omega

/-- The slots are not in the register file. -/
theorem regfile_read {m₀ m : Mem} {K : ℕ → Prop} {regs : List (BitVec 64)}
    (hready : cl.Ready host m₀) (hloaded : cl.Loaded host K regs m) (hlen : regs.length = 64) {i : ℕ}
    (hi : i < 64) : (cl.prepared m).read (cl.regsAddr + 8 * i) 8 =
      if i = 10 then BitVec.ofNat 64 cl.entryAddr
      else if i = 0 then BitVec.ofNat 64 cl.farAddr else regs.getD i 0 := by
  have hstackRegs := hready.stackRegs
  rw [prepared_read, read_words hloaded.regfile, patchedRegs_getD _ _ hlen]
  · rw [Checkpoint.patchedRegs, List.length_set, List.length_set, hlen]
    exact hi
  · intro n hn
    rw [InSlots]
    omega

theorem guestRegs_slot (r : Reg) (hx0 : r ≠ 0) (hsp : r ≠ 2) : (r, 8 * r.val) ∈ guestRegs := by
  revert r
  decide

theorem entryCall_reaches {g : Machine} {j : ℕ}
    (hblock : BlockAt host g.mem cl.entryAddr (restoreSp cl.nearBuf) j (relJump j cl.entryPc)
      cl.entryEnd)
    (hreach : InReach j cl.entryPc) (heven : cl.entryAddr % 2 = 0) (hpcEven : cl.entryPc % 2 = 0)
    (hend : cl.entryEnd < 2 ^ 64) (hbuf : Reachable cl.nearBuf)
    (hpc : g.pc = BitVec.ofNat 64 cl.entryAddr) :
    ∃ t, Reaches host g t ∧ t.pc = BitVec.ofNat 64 cl.entryPc ∧
      t.ireg 2 = g.mem.read cl.nearBuf 8 ∧ ∀ r, r ≠ 0 → r ≠ 2 → t.ireg r = g.ireg r := by
  have hj := (blockAt_even hblock heven).1
  obtain ⟨t, ht, htpc, hdata⟩ := block_reaches hblock hend hpc hj (relJump_legal hreach hj hpcEven)
    (spares_of_pure (by simp [restoreSp, Asm.Pure]))
  rw [relJump_target hreach] at htpc
  rw [relJump_link, restoreSp, line_loadWord (by decide) hbuf] at hdata
  refine ⟨t, ht, htpc, ?_, ?_⟩
  · rw [show t.ireg = t.data.ireg from rfl, hdata, setReg_of_ne (by decide)]
    exact setReg_self (by decide)
  · intro r hx0 hsp
    rw [show t.ireg = t.data.ireg from rfl, hdata, setReg_of_ne hx0]
    exact setReg_of_ne hsp

theorem entry_run {K : ℕ → Prop} {regs : List (BitVec 64)} {s : Machine}
    (hready : cl.Ready host s.mem) (hkeeps : cl.Keeps K) (hlen : regs.length = 64)
    (hmap : cl.MapCall host K regs s.mem) (hpc : s.pc = BitVec.ofNat 64 cl.clEntry)
    (hsp : s.ireg rv_ireg_sp = BitVec.ofNat 64 (cl.frame + 152))
    (ha3 : s.ireg 13 = BitVec.ofNat 64 cl.regsAddr) :
    ∃ t, Reaches host s t ∧ t.pc = BitVec.ofNat 64 cl.entryPc ∧
      ∀ r, r ≠ rv_ireg_x0 → t.ireg r = regs.getD r.val 0 := by
  obtain ⟨hclEven, _, _, hfarEven, hentryEven, hpcEven⟩ := hready.even
  obtain ⟨hclFits, _, hfarFits, hentryFits, hfits⟩ := hready.fits
  have hstackCl := hready.stackCl
  have hregsCl := hready.regsCl
  obtain ⟨j, mid, x, jal, hiImm, loImm, k, hcall, hlegal, htarget, hline, hxlen, hauipc, hlla,
    hrestore⟩ := hready.code
  have hmidLe := blockAt_le hcall
  have hxLe := lineAt_le hline
  have hendLe := blockAt_le hrestore
  -- map_pages
  obtain ⟨c, hc, hcpc, hcra, hcsp, hcmem⟩ := mapCall_reaches hcall hlegal htarget hclEven (by omega)
    hpc hsp ha3 hfits (by omega)
  obtain ⟨u, hu, hconv, hkept, hslot, hloaded⟩ := hmap c hcpc hcsp hcmem
  have hmidEven := (blockAt_even hcall hclEven).2
  have hupc : u.pc = BitVec.ofNat 64 mid := by
    rw [hconv.returns, hcra, ofNat_and_not_one hmidEven (by omega)]
  have husp : u.ireg rv_ireg_sp = BitVec.ofNat 64 (cl.frame + 128) := by
    rw [hconv.saved _ (by decide), hcsp]
  have hcode : ∀ a, cl.clEntry ≤ a → a < cl.clEnd → u.mem a = s.mem a := by
    intro a hlo hhi
    rw [hkept a ⟨hlo, hhi⟩, hcmem]
    exact Mem.write_of_not_mem (by omega)
  -- the register file
  have hline' : LineAt host u.mem mid entryReplayLine x :=
    lineAt_congr (fun a hlo hhi => hcode a (by omega) (by omega)) hline
  have hfetch : instFetch u.mem x = instFetch s.mem x :=
    fetch_congr hxlen hendLe fun a hlo hhi => hcode a (by omega) hhi
  have hlenEq : lenAt u.mem x = lenAt s.mem x := congrArg Prod.snd hfetch
  have hinst : instAt host u.mem x = instAt host s.mem x :=
    congrArg host.decode (congrArg Prod.fst hfetch)
  have hrestore' : BlockAt host u.mem (x + lenAt u.mem x) (entryRestoreLine loImm) k entryJump
      cl.clEnd := by
    rw [hlenEq]
    exact blockAt_congr (fun a hlo hhi => hcode a (by omega) hhi) hrestore
  obtain ⟨f, hf, hfmem, hfpc, hfregs⟩ := restore_reaches hline' (by rwa [hlenEq])
    (by rwa [hinst]) hlla hrestore' hclFits hmidEven hupc husp hslot hfits hready.reach.1
    (by omega) (by omega)
  have hregfile : ∀ r : Reg, (cl.prepared u.mem).read (cl.regsAddr + 8 * r.val) 8 = _ :=
    fun r => regfile_read hready hloaded hlen (r.isLt.trans (by decide))
  have hfregs' : ∀ r : Reg, r ≠ 0 → r ≠ 2 → f.ireg r =
      if r.val = 10 then BitVec.ofNat 64 cl.entryAddr
      else if r.val = 0 then BitVec.ofNat 64 cl.farAddr else regs.getD r.val 0 := by
    intro r hx0 hsp'
    rw [hfregs _ (guestRegs_slot r hx0 hsp'), hregfile r]
  have hfarPc : f.pc = BitVec.ofNat 64 cl.far.farAddr := by
    have hword : (cl.prepared u.mem).read cl.regsAddr 8 = BitVec.ofNat 64 cl.farAddr := hregfile 0
    have hle := farAt_le hloaded.far
    rw [hfpc, hword]
    exact ofNat_and_not_one hfarEven (by omega)
  -- the far call
  have hfar : cl.far.Ready host f.mem := by
    rw [hfmem]
    exact far_ready hready hloaded.far
  have hreplay : cl.far.ReplayCall host K f.mem (regs.getD 10 0) := by
    rw [hfmem]
    exact hloaded.replay
  obtain ⟨g, hg, hreturned⟩ := far_run hfar hreplay hkeeps.far hkeeps.frame hfarPc
  have hgpc : g.pc = BitVec.ofNat 64 cl.entryAddr := by
    obtain ⟨i, hblock, -⟩ := hloaded.entry
    have hle := blockAt_le hblock
    have ha0 : f.ireg rv_ireg_a0 = BitVec.ofNat 64 cl.entryAddr :=
      hfregs' 10 (by decide) (by decide)
    rw [hreturned.pc, ha0]
    exact ofNat_and_not_one hentryEven (by omega)
  have hgmem : ∀ a, K a → ¬ InSlots cl a → ¬ cl.far.InFrame a → g.mem a = u.mem a := by
    intro a ha hslots hframe
    simp only [FarEnv.InFrame, EntryEnv.far] at hframe
    rw [hreturned.mem a ha, hfmem, prepared_of_not_slots hslots]
    rw [InSlots] at hslots
    simp only [EntryEnv.far]
    omega
  -- the entry call
  obtain ⟨i, hblock, hreach⟩ := hloaded.entry
  have hblock' : BlockAt host g.mem cl.entryAddr (restoreSp cl.nearBuf) i (relJump i cl.entryPc)
      cl.entryEnd := by
    have hstack := hready.stackEntry
    have hregs := hready.regsEntry
    apply blockAt_congr _ hblock
    intro a hlo hhi
    apply hgmem a (hkeeps.entry a hlo hhi)
    · rw [InSlots]
      omega
    · simp only [FarEnv.InFrame, EntryEnv.far]
      omega
  obtain ⟨t, ht, htpc, htsp, htregs⟩ := entryCall_reaches hblock' hreach hentryEven hpcEven
    hentryFits hready.reach.2 hgpc
  refine ⟨t, ((((hc.trans hu).trans hf).trans hg).trans ht), htpc, ?_⟩
  intro r hx0
  by_cases hrsp : r = 2
  · have hbuf : g.mem.read cl.nearBuf 8 = u.mem.read cl.nearBuf 8 := by
      have hstack := hready.stackBuf
      have hregs := hready.regsBuf
      apply Mem.read_congr
      intro n hn
      apply hgmem _ (hkeeps.buf _ (by omega) (by omega))
      · rw [InSlots]
        omega
      · simp only [FarEnv.InFrame, EntryEnv.far]
        omega
    rw [hrsp, htsp, hbuf]
    exact Mem.read_of_holds_word_full hloaded.nearBuf
  · rw [htregs r hx0 hrsp]
    by_cases hra0 : r = 10
    · rw [hra0]
      exact hreturned.value
    · have hval : r.val ≠ 10 ∧ r.val ≠ 0 :=
        ⟨fun heq => hra0 (Fin.ext heq), fun heq => hx0 (Fin.ext heq)⟩
      rw [hreturned.regs r hx0 hrsp hra0, hfregs' r hx0 hrsp, if_neg hval.1, if_neg hval.2]

end RvCkpt.Stub
