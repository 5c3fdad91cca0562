import RvCkpt.Isa.Frame
import RvCkpt.Parse.Inject

/-! # The replay code in the guest

`near.S`, `far.S`, `jump.S` and `entry.S` of `src/ckpt`, as lines and jumps. The lengths of the
instructions are left to the assembler. `mv` is `addi` with 0, `jr` and `j` link to x0.
-/

namespace RvCkpt.Stub
open ByteMem Isa Parse
set_option autoImplicit false

/-! ## `near.S` -/

def nearCallLine (nearBuf farCall : ℕ) : Alter → List Asm
  | .none => [.lui 10 (hi nearBuf), .sd 2 10 (lo nearBuf), .lui 10 (hi farCall)]
  | .sp => [.lui 2 (hi nearBuf), .sd 10 2 (lo nearBuf), .lui 10 (hi farCall)]
  | .reg rd =>
    [.addi (Fin.ofNat 32 rd) 10 0, .lui 10 (hi nearBuf), .sd 2 10 (lo nearBuf),
      .lui 10 (hi farCall)]

def nearCallJump (farCall : ℕ) : Jump := .jalr 10 10 (lo farCall)

/-- `near.S` without `FAR_CALL`, and the end of it in a plain near call. -/
def restoreSp (nearBuf : ℕ) : List Asm := [.lui 2 (hi nearBuf), .ld 2 2 (lo nearBuf)]

def nearReturnLine (nearBuf : ℕ) : Alter → List Asm
  | .none => restoreSp nearBuf
  | .sp => [.addi 2 10 0, .lui 10 (hi nearBuf), .ld 10 10 (lo nearBuf)]
  | .reg rd =>
    [.addi 2 10 0, .addi 10 (Fin.ofNat 32 rd) 0, .addi (Fin.ofNat 32 rd) 2 0] ++ restoreSp nearBuf

/-! ## `jump.S` -/

def relJump (source target : ℕ) : Jump := .jal 0 (BitVec.ofInt 32 ((target : ℤ) - source))

/-- The assertion of `MakeHelper.jump`. -/
def InReach (source target : ℕ) : Prop :=
  (target : ℤ) - source < J_MAX_OFFS ∧ -J_MAX_OFFS ≤ (target : ℤ) - source

instance (source target : ℕ) : Decidable (InReach source target) :=
  inferInstanceAs (Decidable (_ ∧ _))

/-! ## `far.S` -/

/-- Everything that a call may change; a0 is the return address. -/
def savedRegs : Slots :=
  [(1, 0), (5, 8), (6, 16), (7, 24), (10, 32), (11, 40), (12, 48), (13, 56), (14, 64), (15, 72),
    (16, 80), (17, 88), (28, 96), (29, 104), (30, 112), (31, 120)]

def restoredRegs : Slots :=
  [(1, 0), (5, 8), (6, 16), (7, 24), (11, 40), (12, 48), (13, 56), (14, 64), (15, 72), (16, 80),
    (17, 88), (28, 96), (29, 104), (30, 112), (31, 120)]

def farFrameLine (replaySp : ℕ) : List Asm :=
  [.lui 2 (hi replaySp), .ld 2 2 (lo replaySp), .addi 2 2 (-128)]

def farArgsLine (replayPc : ℕ) : List Asm :=
  [.ld 10 2 128, .addi 11 2 136, .lui 1 (hi replayPc), .ld 1 1 (lo replayPc)]

def farCallLine (replaySp replayPc : ℕ) : List Asm :=
  farFrameLine replaySp ++ (saveAll 2 savedRegs ++ farArgsLine replayPc)

def farCallJump : Jump := .jalr 1 1 0

def farReturnLine : List Asm :=
  [.sd 10 2 128, .ld 10 10 (-8)] ++ (loadAll 2 restoredRegs ++ [.ld 2 2 32])

def farReturnJump : Jump := .jalr 0 2 0

/-! ## `entry.S` -/

def NUM_CSR : ℕ := 2

/-- All integer registers but x0 and sp. -/
def guestRegs : Slots :=
  [(1, 8), (3, 24), (4, 32), (5, 40), (6, 48), (7, 56), (8, 64), (9, 72), (10, 80), (11, 88),
    (12, 96), (13, 104), (14, 112), (15, 120), (16, 128), (17, 136), (18, 144), (19, 152),
    (20, 160), (21, 168), (22, 176), (23, 184), (24, 192), (25, 200), (26, 208), (27, 216),
    (28, 224), (29, 232), (30, 240), (31, 248)]

def guestFregs : Slots := (List.finRange 32).map fun r => (r, 256 + 8 * r.val)

def entryCallLine : List Asm :=
  [.addi 2 2 (BitVec.ofInt 32 (-(8 + NUM_CSR * 8))), .sd 13 2 0]

/-- From the return of `map_pages` to `lla a2, replay`. -/
def entryReplayLine : List Asm := [.ld 10 2 0, .addi 11 10 512, .sd 2 11 0]

/-- From the second half of `lla` on; `replayLo` is its offset. -/
def entryRestoreLine (replayLo : BitVec 32) : List Asm :=
  [.addi 12 12 replayLo, .sd 12 11 8, .addi 11 11 16, .sd 11 2 0, .addi 2 10 0] ++
    (loadAll 2 guestRegs ++ (floadAll 2 guestFregs ++ [.ld 2 2 0]))

def entryJump : Jump := .jalr 0 2 0

/-! ## Calls -/

/-- The registers that a function preserves. -/
def calleeSaved : List Reg := [2, 3, 4, 8, 9, 18, 19, 20, 21, 22, 23, 24, 25, 26, 27]

/-- A function called in `s` has returned in `t`. -/
structure Convention (s t : Machine) : Prop where
  returns : t.pc = s.ireg rv_ireg_ra &&& ~~~1#64
  saved : ∀ r ∈ calleeSaved, t.ireg r = s.ireg r

/-- Every register but x0, sp and a0 is saved by the far call or by the function it calls. -/
theorem saved_cases (r : Reg) (hx0 : r ≠ rv_ireg_x0) (hsp : r ≠ rv_ireg_sp)
    (ha0 : r ≠ rv_ireg_a0) :
    r ∈ restoredRegs.map Prod.fst ∨ (r ∈ calleeSaved ∧ r ∉ restoredRegs.map Prod.fst) := by
  revert r
  decide

end RvCkpt.Stub
