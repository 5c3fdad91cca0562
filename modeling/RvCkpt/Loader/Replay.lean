import RvCkpt.Parse.ReplayTable

/-! # The replay function

`replay` and `check_stores` of `src/ckpt/replay.c`, on one memory that holds the guest and the
table. What the loops do is counted by fuel; `none` is a loop that has not come to its end. The
two counters that `replay` reads are inputs of an invocation, and what it prints is its result.
-/

namespace RvCkpt.Loader
open ByteMem
set_option autoImplicit false

def REPLAY_RET : BitVec 64 := 0

def REPLAY_EXIT : BitVec 64 := 1

def REPLAY_ENTRY : BitVec 64 := 2

def REPLAY_RET_VERBOSE : BitVec 64 := 3

/-! ## Items in memory -/

/-- `sizeof(replay_cfg)` -/
def CFG_SIZE : ℕ := 16

def headAddr (m : Mem) (head : ℕ) : BitVec 64 := m.read head 8

def headSize (m : Mem) (head : ℕ) : BitVec 64 := m.read (head + 8) 8

/-- The widths that `check_stores` compares. Another size falls through its switch. -/
def compareWidth (m : Mem) (head : ℕ) (w : ℕ) : Bool :=
  m.read (headAddr m head).toNat w == m.read (head + CFG_SIZE) w

def compares (m : Mem) (head : ℕ) : Bool :=
  match (headSize m head).toNat with
  | 1 => compareWidth m head 1
  | 2 => compareWidth m head 2
  | 4 => compareWidth m head 4
  | 8 => compareWidth m head 8
  | _ => true

/-- The inner option is the returned pointer, `none` for the null pointer. -/
def checkStores (m : Mem) : ℕ → ℕ → Option (Option ℕ)
  | 0, _ => none
  | fuel + 1, head =>
    if headAddr m head ≠ REPLAY_RET then
      if compares m head then checkStores m fuel (head + CFG_SIZE + 8) else some none
    else some (some head)

/-- `count` rounds of the copying loop. -/
def copyBytes (m : Mem) (dest src : ℕ) : ℕ → Mem
  | 0 => m
  | count + 1 => copyBytes (m.writeBytes dest [m src]) (dest + 1) (src + 1) count

/-- The loop tests its counter at the end, so that a count of 0 goes all the way round. -/
def fastMemcpy (m : Mem) (dest src : ℕ) (n : BitVec 64) : Mem :=
  copyBytes m dest src (if n = 0 then 2 ^ 64 else n.toNat)

structure Counters where
  cycle : BitVec 64
  instret : BitVec 64

inductive Outcome where
  /-- The next table pointer, and the value printed in verbose mode. -/
  | returned (m : Mem) (head : ℕ) (printed : Option (BitVec 64))
  /-- The interval is finished; the counters it took are printed. -/
  | finished (m : Mem) (head : ℕ) (cycle instret : BitVec 64)
  | storeAssertionFailed

/-- The case `REPLAY_EXIT` of `replay`. -/
def replayExit (m : Mem) (head csrv : ℕ) (now : Counters) (fuel : ℕ) : Option Outcome := do
  let checked ← checkStores m fuel (head + CFG_SIZE)
  match checked with
  | some head =>
    some (.finished m head (now.cycle - m.read csrv 8) (now.instret - m.read (csrv + 8) 8))
  | none => some .storeAssertionFailed

def replay (m : Mem) (head csrv : ℕ) (now : Counters) : ℕ → Option Outcome
  | 0 => none
  | fuel + 1 =>
    if headAddr m head = REPLAY_RET then some (.returned m (head + CFG_SIZE) none)
    else if headAddr m head = REPLAY_RET_VERBOSE then
      some (.returned m (head + CFG_SIZE) (some (headSize m head)))
    else if headAddr m head = REPLAY_EXIT then replayExit m head csrv now (fuel + 1)
    else if headAddr m head = REPLAY_ENTRY then
      some (.returned ((m.write csrv 8 now.cycle).write (csrv + 8) 8 now.instret)
        (head + CFG_SIZE) none)
    else
      let m' := fastMemcpy m (headAddr m head).toNat (head + CFG_SIZE) (headSize m head)
      replay m' (head + CFG_SIZE + ((headSize m' head + 7#64) &&& ~~~7#64).toNat) csrv now fuel

end RvCkpt.Loader
