import RvCkpt.Stub.Entry
import RvCkpt.Isa.Hidden

/-! # The trap protocol

A trap, taken in any state, is worth its result register, and the entry code starts the guest from
the recorded registers. Both are run on encoded code at the end.
-/

namespace RvCkpt.Stub
open ByteMem Isa Parse
set_option autoImplicit false

/-! ## Every register -/

/-- The formats of the instructions of the replay code. -/
def decodeWord (inst : BitVec 64) : Decode :=
  let rd : Reg := (inst.extractLsb' 7 5).toFin
  let rs1 : Reg := (inst.extractLsb' 15 5).toFin
  let rs2 : Reg := (inst.extractLsb' 20 5).toFin
  let immI := (inst.extractLsb' 20 12).signExtend 32
  let immS := (inst.extractLsb' 25 7 ++ inst.extractLsb' 7 5).signExtend 32
  let immU := (inst.setWidth 32) &&& 0xfffff000
  let immJ := (inst.extractLsb' 31 1 ++ inst.extractLsb' 12 8 ++ inst.extractLsb' 20 1 ++
    inst.extractLsb' 21 10 ++ 0#1).signExtend 32
  match (inst.extractLsb' 0 7).toNat, (inst.extractLsb' 12 3).toNat with
  | 0x37, _ => ⟨.lui, rd, 0, 0, 0, immU, 0⟩
  | 0x17, _ => ⟨.auipc, rd, 0, 0, 0, immU, 0⟩
  | 0x6f, _ => ⟨.jal, rd, 0, 0, 0, immJ, 0⟩
  | 0x67, 0 => ⟨.jalr, rd, rs1, 0, 0, immI, 0⟩
  | 0x13, 0 => ⟨.imm .addi, rd, rs1, 0, 0, immI, 0⟩
  | 0x03, 3 => ⟨.load .ld, rd, rs1, 0, 0, immI, 0⟩
  | 0x23, 3 => ⟨.store .sd, 0, rs1, rs2, 0, immS, 0⟩
  | 0x07, 3 => ⟨.fload .d, rd, rs1, 0, 0, immI, 0⟩
  | _, _ => ⟨.illegal, 0, 0, 0, 0, 0, 0⟩

def exampleHost : Host := { atomicHost with decode := decodeWord }

def trapCode : List (BitVec 32) :=
  [0x1000006f]

def nearCode : List (BitVec 32) :=
  [0x00050293, 0x00011537, 0x22253823, 0x00010537, 0x20050567, 0x00050113, 0x00028513,
    0x00010293, 0x00011137, 0x23013103, 0xeddff06f]

def farCode : List (BitVec 32) :=
  [0x00011137, 0x20013103, 0xf8010113, 0x00113023, 0x00513423, 0x00613823, 0x00713c23,
    0x02a13023, 0x02b13423, 0x02c13823, 0x02d13c23, 0x04e13023, 0x04f13423, 0x05013823,
    0x05113c23, 0x07c13023, 0x07d13423, 0x07e13823, 0x07f13c23, 0x08013503, 0x08810593,
    0x000110b7, 0x2080b083, 0x000080e7, 0x08a13023, 0xff853503, 0x00013083, 0x00813283,
    0x01013303, 0x01813383, 0x02813583, 0x03013603, 0x03813683, 0x04013703, 0x04813783,
    0x05013803, 0x05813883, 0x06013e03, 0x06813e83, 0x07013f03, 0x07813f83, 0x02013103,
    0x00010067]

def entryCode : List (BitVec 32) :=
  [0x00011137, 0x23013103, 0xbf9ff06f]

def clCode : List (BitVec 32) :=
  [0xfe810113, 0x00d13023, 0x3f8000ef, 0x00013503, 0x20050593, 0x0025b023, 0x00000617,
    0x4e860613, 0x00c5b423, 0x01058593, 0x00b13023, 0x00050113, 0x00813083, 0x01813183,
    0x02013203, 0x02813283, 0x03013303, 0x03813383, 0x04013403, 0x04813483, 0x05013503,
    0x05813583, 0x06013603, 0x06813683, 0x07013703, 0x07813783, 0x08013803, 0x08813883,
    0x09013903, 0x09813983, 0x0a013a03, 0x0a813a83, 0x0b013b03, 0x0b813b83, 0x0c013c03,
    0x0c813c83, 0x0d013d03, 0x0d813d83, 0x0e013e03, 0x0e813e83, 0x0f013f03, 0x0f813f83,
    0x10013007, 0x10813087, 0x11013107, 0x11813187, 0x12013207, 0x12813287, 0x13013307,
    0x13813387, 0x14013407, 0x14813487, 0x15013507, 0x15813587, 0x16013607, 0x16813687,
    0x17013707, 0x17813787, 0x18013807, 0x18813887, 0x19013907, 0x19813987, 0x1a013a07,
    0x1a813a87, 0x1b013b07, 0x1b813b87, 0x1c013c07, 0x1c813c87, 0x1d013d07, 0x1d813d87,
    0x1e013e07, 0x1e813e87, 0x1f013f07, 0x1f813f87, 0x00013103, 0x00010067]

def mapPagesCode : List (BitVec 32) :=
  [0x00008067]

def replayCode : List (BitVec 32) :=
  [0x01050513, 0x00008067]

def codeBytes (words : List (BitVec 32)) : List Byte :=
  words.flatMap fun w => [w.extractLsb' 0 8, w.extractLsb' 8 8, w.extractLsb' 16 8,
    w.extractLsb' 24 8]

/-- The recorded registers, a0 and sp among them. -/
def exampleRegs : List (BitVec 64) := (List.range 64).map fun i => BitVec.ofNat 64 (0x1000 + i)

def exampleRegfile : List Byte :=
  (Checkpoint.patchedRegs exampleRegs 0x10200 0x10400).flatMap word

/-- A table of one call, and what else the replay stack holds. -/
def exampleStack : List Byte :=
  [0x21080, 0x20500, 2, 0x100a, 0, 77, 0x1002].flatMap word

/-- Code and data, each behind its address. -/
def exampleImage : List (ℕ × List Byte) :=
  [(0x10000, codeBytes trapCode), (0x10100, codeBytes nearCode), (0x10200, codeBytes farCode),
    (0x10400, codeBytes entryCode), (0x20000, codeBytes clCode), (0x20400, codeBytes mapPagesCode),
    (0x20500, codeBytes replayCode), (0x11200, exampleStack), (0x11000, exampleRegfile)]

def exampleMem : Mem := exampleImage.foldl (fun m part => m.writeBytes part.1 part.2) fun _ => 0

/-! ## A trap and an entry -/

def exampleTrap : Trap where
  addr := 0x10000
  alterRd := some 5
  nearAddr := 0x10100
  nearEnd := 0x1012c
  nearBuf := 0x11230

def exampleEntry : EntryEnv where
  clEntry := 0x20000
  clEnd := 0x20130
  mapPages := 0x20400
  replayEntry := 0x20500
  frame := 0x21000
  regsAddr := 0x11000
  nearBuf := 0x11230
  farAddr := 0x10200
  farEnd := 0x102ac
  entryAddr := 0x10400
  entryEnd := 0x1040c
  entryPc := 0x10000

/-- The table pointer stands at the call behind the item of the entry. -/
def exampleMachine (pc sp : BitVec 64) (table : BitVec 64) : Machine where
  pc := pc
  ireg := fun r => if r = 0 then 0 else if r = 2 then sp else if r = 13 then 0x11000 else 7
  freg := fun _ => 0
  lr := 0
  fcsr := 0
  time := 0
  instret := 0
  mem := exampleMem.write 0x21080 8 table
  results := []

theorem exampleFar {m : Mem} (h : ∀ a, 0x10200 ≤ a → a < 0x102ac → m a = exampleMem a) :
    FarAt exampleHost m 0x11200 0x11208 0x10200 0x102ac := by
  refine ⟨0x1025c, 0x10260, 0x102a8, blockAt_congr (m := exampleMem) ?_ ⟨?_, ?_⟩,
    blockAt_congr (m := exampleMem) ?_ ⟨?_, ?_⟩⟩
  · intro a hlo hhi
    exact h a hlo (by omega)
  · decide +kernel
  · decide +kernel
  · intro a hlo hhi
    exact h a (by omega) hhi
  · decide +kernel
  · decide +kernel

/-- The routine steps over an item; what it returns is the second word of it. -/
theorem exampleReplay {m : Mem} {k : ℕ} {v : BitVec 64}
    (hcode : ∀ a, 0x20500 ≤ a → a < 0x20508 → m a = exampleMem a)
    (htable : m.read 0x21080 8 = BitVec.ofNat 64 k) (hfits : k + 16 < 0x21000)
    (hv : m.read (k + 8) 8 = v) :
    exampleEntry.far.ReplayCall exampleHost (fun _ => True) m v := by
  intro c hpc hsp ha0 ha1 hmem
  have hout : ∀ a, (a < 0x21000 ∨ 0x21080 ≤ a) → c.mem a = m a := by
    intro a ha
    apply hmem
    simp only [FarEnv.InFrame, EntryEnv.far, exampleEntry]
    omega
  have hblock : BlockAt exampleHost c.mem 0x20500 [.addi 10 10 16] 0x20504 (.jalr 0 1 0)
      0x20508 := by
    refine blockAt_congr (m := exampleMem) ?_ ⟨by decide +kernel, by decide +kernel⟩
    intro a hlo hhi
    rw [hout a (by omega), hcode a hlo hhi]
  obtain ⟨t, ht, htpc, hdata⟩ := block_reaches hblock (by decide) hpc (by decide) trivial
    (spares_of_pure (by simp [Asm.Pure]))
  have hnext : BitVec.ofNat 64 k + sx 16 = BitVec.ofNat 64 (k + 16) :=
    ofNat_add_sx (n := 16) (by decide)
  have hline : line [.addi 10 10 16] c.data =
      c.data.setReg 10 (BitVec.ofNat 64 (k + 16)) := by
    rw [line_cons, line_nil, Asm.eval, show c.data.ireg 10 = c.ireg rv_ireg_a0 from rfl, ha0,
      show exampleEntry.far.frame + 128 = 0x21080 from rfl, htable, hnext]
  rw [hline] at htpc hdata
  have hkeep : ∀ r, r ≠ 0 → r ≠ 10 → t.ireg r = c.ireg r := by
    intro r hx0 hne
    rw [show t.ireg = t.data.ireg from rfl, hdata]
    exact (setReg_of_ne hx0).trans (setReg_of_ne hne)
  have htmem : t.mem = c.mem := congrArg Data.mem hdata
  refine ⟨t, k + 8, ht, ⟨?_, ?_⟩, fun a _ => by rw [htmem], ?_, by omega, ?_, ?_⟩
  · rw [htpc, Jump.target, setReg_of_ne (by decide), show sx 0 = 0#64 from rfl, BitVec.add_zero]
    rfl
  · intro r hr
    have hne : ∀ r ∈ calleeSaved, r ≠ 0 ∧ r ≠ 10 := by decide
    exact hkeep r (hne r hr).1 (hne r hr).2
  · rw [show t.ireg = t.data.ireg from rfl, hdata]
    exact (setReg_of_ne (by decide)).trans (setReg_self (by decide))
  · rw [htmem, ← hv]
    apply Mem.read_congr
    intro i hi
    exact hout _ (by omega)
  · left
    change k + 8 + 8 ≤ 0x21000 + 128
    omega

theorem exampleTrap_ready {m : Mem} (h : ∀ a, (a < 0x21080 ∨ 0x21088 ≤ a) → m a = exampleMem a) :
    exampleTrap.Ready exampleEntry.far exampleHost m := by
  have hfar : FarAt exampleHost m 0x11200 0x11208 0x10200 0x102ac :=
    exampleFar fun a _ hhi => h a (by omega)
  have hjump : BlockAt exampleHost m 0x10000 [] 0x10000 (relJump 0x10000 0x10100) 0x10004 :=
    blockAt_congr (m := exampleMem) (fun a _ hhi => h a (by omega)) ⟨rfl, by decide +kernel⟩
  have hnear : NearAt exampleHost m 0x11230 0x10200 (.reg 5) 0x10004 0x10100 0x1012c :=
    ⟨0x10110, 0x10114, 0x10128,
      blockAt_congr (m := exampleMem) (fun a _ hhi => h a (by omega))
        ⟨by decide +kernel, by decide +kernel⟩,
      blockAt_congr (m := exampleMem) (fun a _ hhi => h a (by omega))
        ⟨by decide +kernel, by decide +kernel⟩, by decide⟩
  have hsp : m.read 0x11200 8 = exampleMem.read 0x11200 8 :=
    Mem.read_congr fun i hi => h _ (by omega)
  have hpc : m.read 0x11208 8 = exampleMem.read 0x11208 8 :=
    Mem.read_congr fun i hi => h _ (by omega)
  have hready : exampleEntry.far.Ready exampleHost m := by
    refine ⟨hfar, hsp.trans (by decide +kernel), hpc.trans (by decide +kernel), ?_, ?_, ?_, ?_, ?_,
      ?_, ?_, ?_, ?_⟩ <;> simp only [EntryEnv.far, exampleEntry, Reachable] <;> decide
  refine ⟨?_, hjump, ?_, hnear, hready, ?_, ?_, ?_, ?_, ?_, ?_, ?_, ?_, ?_, ?_⟩ <;>
    simp only [exampleTrap, Trap.rd, EntryEnv.far, exampleEntry, Reachable, InReach, J_MAX_OFFS] <;>
    decide

theorem exampleEntry_ready {m : Mem} (h : ∀ a, (a < 0x21080 ∨ 0x21088 ≤ a) → m a = exampleMem a) :
    exampleEntry.Ready exampleHost m := by
  have hcode : ∀ x, exampleEntry.clEntry ≤ x → x < exampleEntry.clEnd → m x = exampleMem x := by
    intro x _ hhi
    exact h x (.inl (hhi.trans (by decide)))
  refine ⟨?_, ?_, ?_, ?_, ?_, ?_, ?_, ?_, ?_, ?_, ?_, ?_, ?_⟩
  · have hcall : BlockAt exampleHost m 0x20000 entryCallLine 0x20008 (.jal 1 0x3f8) 0x2000c :=
      blockAt_congr (m := exampleMem) (fun a hlo hhi => hcode a hlo (hhi.trans (by decide)))
        ⟨by decide +kernel, by decide +kernel⟩
    have hline : LineAt exampleHost m 0x2000c entryReplayLine 0x20018 :=
      lineAt_congr (m := exampleMem) (fun a hlo hhi =>
        hcode a (Nat.le_trans (by decide) hlo) (hhi.trans (by decide))) (by decide +kernel)
    have hfetch : instFetch m 0x20018 = instFetch exampleMem 0x20018 :=
      instFetch_congr (by decide +kernel) fun a hlo hhi =>
        hcode a (Nat.le_trans (by decide) hlo) (hhi.trans (by decide +kernel))
    have hlen : lenAt m 0x20018 = 4 := by
      rw [lenAt, hfetch]
      decide +kernel
    have hauipc : IsAuipc (instAt exampleHost m 0x20018) 12 0 := by
      rw [instAt, hfetch]
      decide +kernel
    refine ⟨0x20008, 0x2000c, 0x20018, 0x3f8, 0, 1256, 0x2012c, hcall, by decide, by decide, hline,
      ?_, hauipc, by decide, ?_⟩
    · rw [hlen]
      decide
    · rw [hlen]
      exact blockAt_congr (m := exampleMem) (fun a hlo hhi =>
        hcode a (Nat.le_trans (by decide) hlo) hhi) ⟨by decide +kernel, by decide +kernel⟩
  all_goals simp only [exampleEntry, Reachable]; decide

theorem exampleMachine_mem {pc sp table : BitVec 64} {w : BitVec 64} {a : ℕ}
    (h : a < 0x11230 ∨ 0x11238 ≤ a) (h' : a < 0x21080 ∨ 0x21088 ≤ a) :
    Mem.write (exampleMachine pc sp table).mem 0x11230 8 w a = exampleMem a := by
  rw [Mem.write_of_not_mem (by omega)]
  exact Mem.write_of_not_mem (by omega)

/-- The pages are there already. -/
theorem exampleMap {m : Mem} (h : ∀ a, (a < 0x21080 ∨ 0x21088 ≤ a) → m a = exampleMem a) :
    exampleEntry.MapCall exampleHost (fun _ => True) exampleRegs m := by
  intro c hpc hsp hcmem
  have hout : ∀ a, (a < 0x21080 ∨ 0x21088 ≤ a) → c.mem a = exampleMem a := by
    intro a ha
    rw [hcmem, show exampleEntry.frame + 128 = 0x21080 from rfl, Mem.write_of_not_mem (by omega)]
    exact h a ha
  have hblock : BlockAt exampleHost c.mem 0x20400 [] 0x20400 (.jalr 0 1 0) 0x20404 :=
    blockAt_congr (m := exampleMem) (fun a _ hhi => hout a (by omega)) ⟨rfl, by decide +kernel⟩
  obtain ⟨t, ht, htpc, hdata⟩ := block_reaches hblock (by decide) hpc (by decide) trivial trivial
  have htmem : t.mem = c.mem := congrArg Data.mem hdata
  have hkeep : ∀ r, r ≠ 0 → t.ireg r = c.ireg r := by
    intro r hx0
    rw [show t.ireg = t.data.ireg from rfl, hdata]
    exact setReg_of_ne hx0
  have hreturn : t.pc = c.ireg rv_ireg_ra &&& ~~~1#64 := by
    rw [htpc, Jump.target, show sx 0 = 0#64 from rfl, BitVec.add_zero]
    rfl
  have hsaved : ∀ r ∈ calleeSaved, t.ireg r = c.ireg r := by
    have hne : ∀ r ∈ calleeSaved, r ≠ 0 := by decide
    intro r hr
    exact hkeep r (hne r hr)
  refine ⟨t, ht, ⟨hreturn, hsaved⟩, fun a _ => by rw [htmem], ?_, ?_⟩
  · rw [htmem, hcmem]
    exact Mem.read_write_word _ _ _
  · rw [htmem]
    have hprepared : ∀ a, a < 0x11200 ∨ (0x11210 ≤ a ∧ a < 0x21080) →
        exampleEntry.prepared c.mem a = exampleMem a := by
      intro a ha
      rw [prepared_of_not_slots, hout a (by omega)]
      simp only [InSlots, exampleEntry]
      omega
    refine ⟨?_, ?_, exampleFar fun a _ hhi => hout a (by omega), ⟨0x10408, ?_, by decide⟩, ?_⟩
    · refine Mem.holds_congr (m := exampleMem) ?_ (Mem.holds_writeBytes _ _ _)
      intro a hlo hhi
      have hlen : ((Checkpoint.patchedRegs exampleRegs exampleEntry.farAddr
        exampleEntry.entryAddr).flatMap word).length = 512 := by decide +kernel
      rw [hlen] at hhi
      exact hout a (.inl (hhi.trans (by decide)))
    · refine Mem.holds_congr (m := exampleMem) ?_ ?_
      · intro a hlo hhi
        rw [word_length] at hhi
        exact hout a (.inl (hhi.trans (by decide)))
      · rw [Mem.holds_iff]
        decide +kernel
    · exact blockAt_congr (m := exampleMem) (fun a _ hhi => hout a (.inl (hhi.trans (by decide))))
        ⟨by decide +kernel, by decide +kernel⟩
    · refine exampleReplay (k := 0x11210) ?_ ?_ (by decide) ?_
      · intro a hlo hhi
        exact hprepared a (by omega)
      · exact Mem.read_write_word _ _ _
      · have hread : (exampleEntry.prepared c.mem).read (0x11210 + 8) 8 =
            exampleMem.read (0x11210 + 8) 8 := Mem.read_congr fun i hi => hprepared _ (by omega)
        rw [hread]
        decide +kernel

theorem exampleTrap_replays :
    exampleTrap.Replays exampleEntry.far exampleHost (fun _ => True)
      (exampleMachine 0x10000 0x1002 0x11220).mem 77 := by
  intro w
  refine exampleReplay (k := 0x11220) ?_ ?_ (by decide) ?_
  · intro a hlo hhi
    exact exampleMachine_mem (by omega) (by omega)
  · rw [show exampleTrap.nearBuf = 0x11230 from rfl, Mem.read_write_of_disjoint (by decide)]
    exact Mem.read_write_word _ _ _
  · rw [show exampleTrap.nearBuf = 0x11230 from rfl, Mem.read_write_of_disjoint (by decide)]
    refine (Mem.read_write_of_disjoint (by decide)).trans ?_
    decide +kernel

end RvCkpt.Stub
