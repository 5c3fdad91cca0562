import RvCkpt.Loader.Replay
import Mathlib.Data.List.Induction

/-! # Replaying a table

The table that `makeReplayTable` encodes and `replay` decodes. Each invocation is proved to
consume one item, from what the item's bytes say; the run over the whole table is an induction
over the recorded calls.
-/

namespace RvCkpt.Loader
open ByteMem Parse
set_option autoImplicit false

/-! ## Copying -/

theorem copyBytes_eq {m : Mem} {dest src : ℕ} {bs : List Byte} (h : m.Holds src bs)
    (hd : dest + bs.length ≤ src ∨ src + bs.length ≤ dest) :
    copyBytes m dest src bs.length = m.writeBytes dest bs := by
  induction bs generalizing m dest src with
  | nil => rw [Mem.writeBytes_nil]; rfl
  | cons b bs ih =>
    rw [List.length_cons] at hd
    have hrest : Mem.Holds (m.writeBytes dest [b]) (src + 1) bs := by
      apply Mem.holds_congr _ h.2
      intro c hlo hhi
      exact Mem.writeBytes_of_not_mem (by rw [List.length_singleton]; omega)
    rw [List.length_cons, copyBytes, h.1, ih hrest (by omega), ← Mem.writeBytes_cons]

theorem fastMemcpy_eq {m : Mem} {dest src : ℕ} {bs : List Byte} (h : m.Holds src bs)
    (hd : dest + bs.length ≤ src ∨ src + bs.length ≤ dest) (hne : bs ≠ [])
    (hlt : bs.length < 2 ^ 64) :
    fastMemcpy m dest src (BitVec.ofNat 64 bs.length) = m.writeBytes dest bs := by
  have hpos : 0 < bs.length := List.length_pos_iff.mpr hne
  have hn : (BitVec.ofNat 64 bs.length).toNat = bs.length := by
    rw [BitVec.toNat_ofNat, Nat.mod_eq_of_lt hlt]
  have h0 : BitVec.ofNat 64 bs.length ≠ 0 := by
    intro h0
    rw [h0] at hn
    exact absurd hn.symm hpos.ne'
  rw [fastMemcpy, if_neg h0, hn, copyBytes_eq h hd]

/-- The decoder rounds a size up to whole words as the encoder pads its data. -/
theorem align_toNat {n : ℕ} (h : n + 7 < 2 ^ 64) :
    ((BitVec.ofNat 64 n + 7#64) &&& ~~~7#64).toNat = (n + 7) / 8 * 8 := by
  have hsum : (BitVec.ofNat 64 n + 7#64).toNat = n + 7 := by
    rw [BitVec.toNat_add, BitVec.toNat_ofNat, BitVec.toNat_ofNat]
    norm_num at *
    omega
  rw [and_not_low (by decide : ∀ j < 64, (~~~7#64).getLsbD j = !decide (j < 3)),
    BitVec.toNat_shiftLeft, BitVec.toNat_ushiftRight, hsum, Nat.shiftLeft_eq,
    Nat.shiftRight_eq_div_pow]
  norm_num at *
  omega

/-! ## One call -/

/-- A recorded call: not the breakpoint, and its write, if any, is not empty and goes to an
address that is no tag. -/
structure Recorded (call : SysCall) : Prop where
  notBreak : call.isBreak = false
  write : ∀ waddr wdata, call.write = some (waddr, wdata) → wdata ≠ [] ∧ 3 < waddr.toNat

/-- The write stays clear of the addresses from `lo` up to `hi`. -/
def Clear (call : SysCall) (lo hi : ℕ) : Prop :=
  ∀ waddr wdata, call.write = some (waddr, wdata) →
    waddr.toNat + wdata.length ≤ lo ∨ hi ≤ waddr.toNat

def applyWrite (m : Mem) (call : SysCall) : Mem :=
  match call.write with
  | some (waddr, wdata) => m.writeBytes waddr.toNat wdata
  | none => m

theorem applyWrite_of_clear {m : Mem} {call : SysCall} {lo hi b : ℕ} (h : Clear call lo hi)
    (hlo : lo ≤ b) (hhi : b < hi) : applyWrite m call b = m b := by
  unfold applyWrite
  cases hw : call.write with
  | none => rfl
  | some w =>
    obtain ⟨waddr, wdata⟩ := w
    have := h waddr wdata hw
    exact Mem.writeBytes_of_not_mem (by omega)

theorem headAddr_eq {m : Mem} {head : ℕ} {x : BitVec 64} {rest : List Byte}
    (h : m.Holds head (word x ++ rest)) : headAddr m head = x :=
  Mem.read_of_holds_word_full (Mem.holds_append.mp h).1

theorem headSize_eq {m : Mem} {head : ℕ} {x y : BitVec 64} {rest : List Byte}
    (h : m.Holds head (word x ++ (word y ++ rest))) : headSize m head = y := by
  have h' := (Mem.holds_append.mp h).2
  rw [word_length] at h'
  exact Mem.read_of_holds_word_full (Mem.holds_append.mp h').1

def retTag (verbose : Bool) : BitVec 64 := if verbose then RET_VERBOSE else RET

def printed (verbose : Bool) (retval : BitVec 64) : Option (BitVec 64) :=
  if verbose then some retval else none

/-- The item that ends a call. The far stub loads the return value below the new pointer. -/
theorem replay_ret {m : Mem} {head : ℕ} (csrv : ℕ) (now : Counters) (fuel : ℕ) {verbose : Bool}
    {retval : BitVec 64} (h : m.Holds head (word (retTag verbose) ++ word retval)) :
    replay m head csrv now (fuel + 1) =
      some (.returned m (head + CFG_SIZE) (printed verbose retval)) ∧
    m.read (head + CFG_SIZE - 8) 8 = retval := by
  have haddr := headAddr_eq h
  have hsize : headSize m head = retval := by
    rw [← List.append_nil (word retval)] at h
    exact headSize_eq h
  refine ⟨?_, ?_⟩
  · cases verbose with
    | true =>
      rw [replay, haddr, hsize, if_neg (by decide), if_pos (by rfl)]
      rfl
    | false =>
      rw [replay, haddr, if_pos (by rfl)]
      rfl
  · rw [CFG_SIZE, show head + 16 - 8 = head + 8 by omega]
    exact hsize

theorem makeEntry_length (verbose : Bool) (call : SysCall) :
    (call.makeEntry verbose).length = 16 +
      match call.write with
      | some (_, wdata) => 16 + (wdata.length + 7) / 8 * 8
      | none => 0 := by
  unfold SysCall.makeEntry
  cases call.write with
  | none => cases call.isBreak <;> simp
  | some w =>
    obtain ⟨waddr, wdata⟩ := w
    have hle : wdata.length ≤ (wdata.length + 7) / 8 * 8 := by omega
    cases call.isBreak <;>
      simp [SysCall.writeItem, SysCall.padding] <;> omega

theorem replay_call {m : Mem} {head : ℕ} (csrv : ℕ) (now : Counters) (fuel : ℕ) {verbose : Bool}
    {call : SysCall} (h : m.Holds head (call.makeEntry verbose)) (hrec : Recorded call)
    (hclear : Clear call head (head + (call.makeEntry verbose).length))
    (hend : head + (call.makeEntry verbose).length ≤ 2 ^ 64) :
    replay m head csrv now (fuel + 2) =
      some (.returned (applyWrite m call) (head + (call.makeEntry verbose).length)
        (printed verbose call.retval)) ∧
    (applyWrite m call).read (head + (call.makeEntry verbose).length - 8) 8 = call.retval := by
  have hlen := makeEntry_length verbose call
  have htag : (if verbose then RET_VERBOSE else RET) = retTag verbose := rfl
  cases hw : call.write with
  | none =>
    rw [hw] at hlen
    have happly : applyWrite m call = m := by rw [applyWrite, hw]
    have hitem : m.Holds head (word (retTag verbose) ++ word call.retval) := by
      rw [SysCall.makeEntry, hw, hrec.notBreak, List.nil_append, if_neg Bool.false_ne_true,
        htag] at h
      exact h
    rw [happly, hlen]
    exact replay_ret csrv now (fuel + 1) hitem
  | some w =>
    obtain ⟨waddr, wdata⟩ := w
    rw [hw] at hlen
    simp only at hlen
    obtain ⟨hne, hthree⟩ := hrec.write waddr wdata hw
    have hle : wdata.length ≤ (wdata.length + 7) / 8 * 8 := by omega
    have happly : applyWrite m call = m.writeBytes waddr.toNat wdata := by rw [applyWrite, hw]
    have hclear' := hclear waddr wdata hw
    have hkeep : ∀ b, head ≤ b → b < head + (call.makeEntry verbose).length →
        m.writeBytes waddr.toNat wdata b = m b := by
      intro b hlo hhi
      exact Mem.writeBytes_of_not_mem (by omega)
    rw [SysCall.makeEntry, hw, hrec.notBreak, if_neg Bool.false_ne_true, htag] at h
    simp only [SysCall.writeItem, List.append_assoc] at h
    have haddr := headAddr_eq h
    have hsize := headSize_eq h
    -- the data, and the item that ends the call
    have hdata : m.Holds (head + CFG_SIZE)
        (wdata ++ (SysCall.padding wdata ++ (word (retTag verbose) ++ word call.retval))) := by
      have h2 := (Mem.holds_append.mp (Mem.holds_append.mp h).2).2
      rw [word_length, word_length] at h2
      exact h2
    have hret : m.Holds (head + CFG_SIZE + (wdata.length + 7) / 8 * 8)
        (word (retTag verbose) ++ word call.retval) := by
      have h3 := (Mem.holds_append.mp (Mem.holds_append.mp hdata).2).2
      rw [SysCall.padding, List.length_replicate,
        show head + CFG_SIZE + wdata.length + ((wdata.length + 7) / 8 * 8 - wdata.length) =
          head + CFG_SIZE + (wdata.length + 7) / 8 * 8 by omega] at h3
      exact h3
    have hret' : Mem.Holds (m.writeBytes waddr.toNat wdata)
        (head + CFG_SIZE + (wdata.length + 7) / 8 * 8)
        (word (retTag verbose) ++ word call.retval) := by
      apply Mem.holds_congr _ hret
      intro b hlo hhi
      rw [List.length_append, word_length, word_length] at hhi
      apply hkeep b (by omega)
      rw [hlen]
      simp only [CFG_SIZE] at hhi
      omega
    have hcopy : fastMemcpy m waddr.toNat (head + CFG_SIZE) (BitVec.ofNat 64 wdata.length) =
        m.writeBytes waddr.toNat wdata := by
      apply fastMemcpy_eq (Mem.holds_append.mp hdata).1 _ hne (by omega)
      simp only [CFG_SIZE]
      omega
    have hsize' : headSize (m.writeBytes waddr.toNat wdata) head =
        BitVec.ofNat 64 wdata.length := by
      rw [← hsize]
      apply Mem.read_congr
      intro i hi
      exact hkeep (head + 8 + i) (by omega) (by omega)
    obtain ⟨hreplay, hread⟩ := replay_ret csrv now fuel hret'
    have hnext : head + CFG_SIZE + (wdata.length + 7) / 8 * 8 + CFG_SIZE =
        head + (call.makeEntry verbose).length := by
      rw [hlen, CFG_SIZE]
      omega
    rw [happly, ← hnext]
    refine ⟨?_, hread⟩
    have hne0 : waddr ≠ REPLAY_RET := by rintro rfl; exact absurd hthree (by decide)
    have hne1 : waddr ≠ REPLAY_EXIT := by rintro rfl; exact absurd hthree (by decide)
    have hne2 : waddr ≠ REPLAY_ENTRY := by rintro rfl; exact absurd hthree (by decide)
    have hne3 : waddr ≠ REPLAY_RET_VERBOSE := by rintro rfl; exact absurd hthree (by decide)
    rw [replay, haddr, if_neg hne0, if_neg hne3, if_neg hne1, if_neg hne2, hsize]
    simp only [hcopy, hsize']
    rw [align_toNat (by omega)]
    exact hreplay

/-! ## The store assertions -/

def StoresHold (m : Mem) (stores : List StoreRecord) : Prop :=
  ∀ s ∈ stores, m.read s.addr.toNat s.size.bytes = s.data

instance (m : Mem) (stores : List StoreRecord) : Decidable (StoresHold m stores) :=
  inferInstanceAs (Decidable (∀ s ∈ stores, m.read s.addr.toNat s.size.bytes = s.data))

theorem StoreRecord.entry_length (s : StoreRecord) : s.entry.length = 24 := by
  simp [StoreRecord.entry]

theorem compares_eq {m : Mem} {head : ℕ} {s : StoreRecord} (h : m.Holds head s.entry) :
    compares m head = decide (m.read s.addr.toNat s.size.bytes = s.data) := by
  rw [StoreRecord.entry, List.append_assoc] at h
  have haddr := headAddr_eq h
  have hsize := headSize_eq h
  have hdata : m.Holds (head + CFG_SIZE) (word s.data) := by
    have h2 := (Mem.holds_append.mp (Mem.holds_append.mp h).2).2
    rwa [word_length, word_length] at h2
  have hvalue : m.read (head + CFG_SIZE) s.size.bytes = s.data := by
    rw [Mem.read_of_holds_word s.size.bytes_le hdata, Nat.mod_eq_of_lt s.fits, BitVec.ofNat_toNat,
      BitVec.setWidth_eq]
  have hn : (headSize m head).toNat = s.size.bytes := by
    have := s.size.bytes_le
    rw [hsize, BitVec.toNat_ofNat, Nat.mod_eq_of_lt (by omega)]
  have hwidth : compareWidth m head s.size.bytes =
      decide (m.read s.addr.toNat s.size.bytes = s.data) := by
    rw [compareWidth, haddr, hvalue, Bool.beq_eq_decide_eq]
  rw [compares, hn]
  cases hs : s.size <;> (rw [hs] at hwidth; exact hwidth)

theorem checkStores_eq {m : Mem} {head : ℕ} (fuel : ℕ) {stores : List StoreRecord}
    (h : m.Holds head (stores.flatMap StoreRecord.entry ++ (word 0 ++ word 0)))
    (hfuel : stores.length < fuel) :
    checkStores m fuel head =
      some (if StoresHold m stores then some (head + 24 * stores.length) else none) := by
  induction stores generalizing head fuel with
  | nil =>
    obtain ⟨fuel, rfl⟩ : ∃ n, fuel = n + 1 := ⟨fuel - 1, by simp at hfuel; omega⟩
    have haddr : headAddr m head = REPLAY_RET := headAddr_eq h
    rw [checkStores, if_neg (by rw [haddr]; simp),
      if_pos (by intro s hs; cases hs)]
    rfl
  | cons s stores ih =>
    rw [List.length_cons] at hfuel
    obtain ⟨fuel, rfl⟩ : ∃ n, fuel = n + 1 := ⟨fuel - 1, by omega⟩
    rw [List.flatMap_cons, List.append_assoc] at h
    obtain ⟨hentry, hrest⟩ := Mem.holds_append.mp h
    rw [StoreRecord.entry_length] at hrest
    have haddr : headAddr m head = s.addr := by
      rw [StoreRecord.entry, List.append_assoc] at hentry
      exact headAddr_eq hentry
    have hne : headAddr m head ≠ REPLAY_RET := by
      rw [haddr]
      exact s.used
    rw [checkStores, if_pos hne, compares_eq hentry]
    have hcons : StoresHold m (s :: stores) ↔
        m.read s.addr.toNat s.size.bytes = s.data ∧ StoresHold m stores := by
      simp [StoresHold]
    by_cases hs : m.read s.addr.toNat s.size.bytes = s.data
    · rw [if_pos (decide_eq_true hs), show head + CFG_SIZE + 8 = head + 24 by simp [CFG_SIZE],
        ih fuel hrest (by omega)]
      by_cases hall : StoresHold m stores
      · rw [if_pos hall, if_pos (hcons.mpr ⟨hs, hall⟩), List.length_cons]
        congr 2
        omega
      · rw [if_neg hall, if_neg (fun hc => hall (hcons.mp hc).2)]
    · rw [if_neg (by simpa using hs), if_neg (fun hc => hs (hcons.mp hc).1)]

theorem sortedStores_perm (stores : List StoreRecord) : (sortedStores stores).Perm stores :=
  List.perm_insertionSort _ _

theorem storesHold_sorted (m : Mem) (stores : List StoreRecord) :
    StoresHold m (sortedStores stores) ↔ StoresHold m stores := by
  simp only [StoresHold, (sortedStores_perm stores).mem_iff]

theorem storeTable_length (stores : List StoreRecord) :
    (storeTable stores).length = 24 * stores.length + 16 := by
  have hflat : ∀ l : List StoreRecord, (l.flatMap StoreRecord.entry).length = 24 * l.length := by
    intro l
    induction l with
    | nil => rfl
    | cons s l ih =>
      rw [List.flatMap_cons, List.length_append, ih, StoreRecord.entry_length, List.length_cons]
      omega
  rw [storeTable, List.length_append, hflat, (sortedStores_perm stores).length_eq]
  simp

/-! ## The table -/

/-- Memory after the invocation that answers the entry code. -/
def afterEntry (m : Mem) (csrv : ℕ) (now : Counters) : Mem :=
  (m.write csrv 8 now.cycle).write (csrv + 8) 8 now.instret

def afterCalls (m : Mem) (calls : List SysCall) : Mem := calls.foldl applyWrite m

/-- The invocations of `replay` from the head of the table on, as long as they return. -/
def runReplay (m : Mem) (base csrv : ℕ) (now : ℕ → Counters) (fuel : ℕ) : ℕ → Option (Mem × ℕ)
  | 0 => some (m, base)
  | n + 1 => do
    let (m, head) ← runReplay m base csrv now fuel n
    match replay m head csrv (now n) fuel with
    | some (.returned m head _) => some (m, head)
    | _ => none

/-- The table and the counters lie where `reserve_page` and the loader put them: away from the
bytes the recorded calls write. -/
structure Placed (base len csrv : ℕ) (calls : List SysCall) : Prop where
  space : base + len ≤ 2 ^ 64
  writes : ∀ c ∈ calls, Clear c base (base + len)
  counters : csrv + 16 ≤ base ∨ base + len ≤ csrv

/-- What the invocations make of a table: one for the entry code, then one for each call, then the
exit with the store assertions. -/
structure Agrees (verbose : Bool) (a0 : BitVec 64) (calls : List SysCall)
    (stores : List StoreRecord) (m : Mem) (base len csrv : ℕ) (now : ℕ → Counters)
    (fuel : ℕ) : Prop where
  entry : runReplay m base csrv now fuel 1 =
      some (afterEntry m csrv (now 0), base + CFG_SIZE) ∧
    (afterEntry m csrv (now 0)).read (base + CFG_SIZE - 8) 8 = a0
  call : ∀ pre c post, calls = pre ++ c :: post → ∃ head head',
    runReplay m base csrv now fuel (pre.length + 1) =
      some (afterCalls (afterEntry m csrv (now 0)) pre, head) ∧
    replay (afterCalls (afterEntry m csrv (now 0)) pre) head csrv (now (pre.length + 1)) fuel =
      some (.returned (applyWrite (afterCalls (afterEntry m csrv (now 0)) pre) c) head'
        (printed verbose c.retval)) ∧
    (applyWrite (afterCalls (afterEntry m csrv (now 0)) pre) c).read (head' - 8) 8 = c.retval
  exit : ∃ head, runReplay m base csrv now fuel (calls.length + 1) =
      some (afterCalls (afterEntry m csrv (now 0)) calls, head) ∧
    replay (afterCalls (afterEntry m csrv (now 0)) calls) head csrv (now (calls.length + 1))
      fuel = some
        (if StoresHold (afterCalls (afterEntry m csrv (now 0)) calls) stores then
          .finished (afterCalls (afterEntry m csrv (now 0)) calls) (base + len - CFG_SIZE)
            ((now (calls.length + 1)).cycle -
              (afterCalls (afterEntry m csrv (now 0)) calls).read csrv 8)
            ((now (calls.length + 1)).instret -
              (afterCalls (afterEntry m csrv (now 0)) calls).read (csrv + 8) 8)
        else .storeAssertionFailed)

theorem holds_afterCalls {m : Mem} {base : ℕ} {table : List Byte} {calls : List SysCall}
    (h : m.Holds base table) (hclear : ∀ c ∈ calls, Clear c base (base + table.length)) :
    (afterCalls m calls).Holds base table := by
  induction calls generalizing m with
  | nil => exact h
  | cons c calls ih =>
    refine ih (Mem.holds_congr ?_ h) fun c' hc' => hclear c' (List.mem_cons_of_mem _ hc')
    intro b hlo hhi
    exact applyWrite_of_clear (hclear c List.mem_cons_self) hlo hhi

theorem holds_afterEntry {m : Mem} {base csrv : ℕ} {table : List Byte} (now : Counters)
    (h : m.Holds base table) (hc : csrv + 16 ≤ base ∨ base + table.length ≤ csrv) :
    (afterEntry m csrv now).Holds base table := by
  apply Mem.holds_congr _ h
  intro b hlo hhi
  rw [afterEntry, Mem.write_of_not_mem (by omega), Mem.write_of_not_mem (by omega)]

/-- The pointer after the calls `pre`. -/
def pointer (verbose : Bool) (base : ℕ) (pre : List SysCall) : ℕ :=
  base + CFG_SIZE + (pre.flatMap (SysCall.makeEntry verbose)).length

theorem pointer_concat (verbose : Bool) (base : ℕ) (pre : List SysCall) (c : SysCall) :
    pointer verbose base (pre ++ [c]) = pointer verbose base pre + (c.makeEntry verbose).length := by
  simp [pointer, Nat.add_assoc]

/-- Where the table holds the item of a call, and what follows the calls. -/
theorem holds_items {m : Mem} {base : ℕ} {verbose : Bool} {a0 : BitVec 64}
    {pre post : List SysCall} {stores : List StoreRecord}
    (h : m.Holds base (makeReplayTable verbose a0 (pre ++ post) stores)) :
    m.Holds (pointer verbose base pre)
      (post.flatMap (SysCall.makeEntry verbose) ++ storeTable stores) := by
  rw [makeReplayTable, List.flatMap_append, List.append_assoc, List.append_assoc] at h
  have h2 := (Mem.holds_append.mp (Mem.holds_append.mp h).2).2
  rw [word_length, word_length, List.append_assoc] at h2
  exact (Mem.holds_append.mp h2).2

theorem table_length (verbose : Bool) (a0 : BitVec 64) (pre post : List SysCall)
    (stores : List StoreRecord) :
    (makeReplayTable verbose a0 (pre ++ post) stores).length =
      16 + (pre.flatMap (SysCall.makeEntry verbose)).length +
        (post.flatMap (SysCall.makeEntry verbose)).length + (24 * stores.length + 16) := by
  rw [makeReplayTable, List.length_append, List.length_append, storeTable_length,
    List.flatMap_append, List.length_append, List.length_append, word_length, word_length]
  omega

section Table

variable {verbose : Bool} {a0 : BitVec 64} {calls : List SysCall} {brk : SysCall}
  {stores : List StoreRecord} {m : Mem} {base csrv : ℕ} (now : ℕ → Counters) (fuel : ℕ)

theorem replay_entry
    (h : m.Holds base (makeReplayTable verbose a0 (calls ++ [brk]) stores))
    (hplaced : Placed base (makeReplayTable verbose a0 (calls ++ [brk]) stores).length csrv calls)
    (hfuel : 0 < fuel) :
    replay m base csrv (now 0) fuel =
      some (.returned (afterEntry m csrv (now 0)) (base + CFG_SIZE) none) ∧
    (afterEntry m csrv (now 0)).read (base + CFG_SIZE - 8) 8 = a0 := by
  obtain ⟨fuel, rfl⟩ : ∃ n, fuel = n + 1 := ⟨fuel - 1, by omega⟩
  have h' := holds_afterEntry (now 0) h hplaced.counters
  rw [makeReplayTable, List.append_assoc, List.append_assoc] at h h'
  have haddr := headAddr_eq h
  constructor
  · rw [replay, haddr, if_neg (by decide), if_neg (by decide), if_neg (by decide),
      if_pos (by rfl)]
    rfl
  · rw [CFG_SIZE, show base + 16 - 8 = base + 8 by omega]
    exact headSize_eq h'

theorem replay_next {pre post : List SysCall} {c : SysCall}
    (h : m.Holds base (makeReplayTable verbose a0 (calls ++ [brk]) stores))
    (hplaced : Placed base (makeReplayTable verbose a0 (calls ++ [brk]) stores).length csrv calls)
    (hrec : ∀ c ∈ calls, Recorded c) (hfuel : 2 ≤ fuel) (hsplit : calls = pre ++ c :: post) :
    replay (afterCalls (afterEntry m csrv (now 0)) pre) (pointer verbose base pre) csrv
        (now (pre.length + 1)) fuel =
      some (.returned (applyWrite (afterCalls (afterEntry m csrv (now 0)) pre) c)
        (pointer verbose base (pre ++ [c])) (printed verbose c.retval)) ∧
    (applyWrite (afterCalls (afterEntry m csrv (now 0)) pre) c).read
      (pointer verbose base (pre ++ [c]) - 8) 8 = c.retval := by
  have hmem : c ∈ calls := by rw [hsplit]; simp
  have hholds : (afterCalls (afterEntry m csrv (now 0)) pre).Holds base
      (makeReplayTable verbose a0 (calls ++ [brk]) stores) := by
    apply holds_afterCalls (holds_afterEntry (now 0) h hplaced.counters)
    intro c' hc'
    exact hplaced.writes c' (by rw [hsplit]; exact List.mem_append_left _ hc')
  have hlen := table_length verbose a0 pre (c :: post ++ [brk]) stores
  rw [← List.append_assoc, ← hsplit, List.cons_append, List.flatMap_cons,
    List.length_append] at hlen
  rw [hsplit, List.append_assoc] at hholds
  have hitem := (Mem.holds_append.mp (holds_items hholds)).1
  rw [List.cons_append, List.flatMap_cons] at hitem
  have hclear : Clear c (pointer verbose base pre)
      (pointer verbose base pre + (c.makeEntry verbose).length) := by
    intro waddr wdata hw
    have := hplaced.writes c hmem waddr wdata hw
    rw [pointer, CFG_SIZE]
    omega
  have hspace : pointer verbose base pre + (c.makeEntry verbose).length ≤ 2 ^ 64 := by
    have := hplaced.space
    rw [pointer, CFG_SIZE]
    omega
  obtain ⟨fuel, rfl⟩ : ∃ n, fuel = n + 2 := ⟨fuel - 2, by omega⟩
  rw [pointer_concat]
  exact replay_call csrv (now (pre.length + 1)) fuel (Mem.holds_append.mp hitem).1 (hrec c hmem)
    hclear hspace

/-- The state after the entry code and the calls `pre`. -/
theorem runReplay_prefix
    (h : m.Holds base (makeReplayTable verbose a0 (calls ++ [brk]) stores))
    (hplaced : Placed base (makeReplayTable verbose a0 (calls ++ [brk]) stores).length csrv calls)
    (hrec : ∀ c ∈ calls, Recorded c) (hfuel : 2 ≤ fuel) (pre post : List SysCall)
    (hsplit : calls = pre ++ post) :
    runReplay m base csrv now fuel (pre.length + 1) =
      some (afterCalls (afterEntry m csrv (now 0)) pre, pointer verbose base pre) := by
  induction pre using List.reverseRecOn generalizing post with
  | nil =>
    obtain ⟨hentry, -⟩ := replay_entry now fuel h hplaced (by omega)
    rw [List.length_nil, runReplay, runReplay, Option.bind_eq_bind, Option.bind_some]
    simp only [hentry]
    rfl
  | append_singleton pre c ih =>
    have hsplit' : calls = pre ++ c :: post := by rw [hsplit, List.append_assoc]; rfl
    obtain ⟨hnext, -⟩ := replay_next now fuel h hplaced hrec hfuel hsplit'
    rw [List.length_append, List.length_singleton, runReplay, ih (c :: post) hsplit',
      Option.bind_eq_bind, Option.bind_some]
    simp only [hnext]
    rw [afterCalls, afterCalls, List.foldl_append]
    rfl

theorem replay_exit
    (h : m.Holds base (makeReplayTable verbose a0 (calls ++ [brk]) stores))
    (hplaced : Placed base (makeReplayTable verbose a0 (calls ++ [brk]) stores).length csrv calls)
    (hbrk : brk.isBreak = true) (hwrite : brk.write = none) (hfuel : stores.length + 2 ≤ fuel)
    (last : Counters) :
    replay (afterCalls (afterEntry m csrv (now 0)) calls) (pointer verbose base calls) csrv last
        fuel = some
      (if StoresHold (afterCalls (afterEntry m csrv (now 0)) calls) stores then
        .finished (afterCalls (afterEntry m csrv (now 0)) calls)
          (base + (makeReplayTable verbose a0 (calls ++ [brk]) stores).length - CFG_SIZE)
          (last.cycle - (afterCalls (afterEntry m csrv (now 0)) calls).read csrv 8)
          (last.instret - (afterCalls (afterEntry m csrv (now 0)) calls).read (csrv + 8) 8)
      else .storeAssertionFailed) := by
  have hholds := holds_afterCalls (holds_afterEntry (now 0) h hplaced.counters) hplaced.writes
  have hitems := holds_items hholds
  have hlen := table_length verbose a0 calls [brk] stores
  have hbreak : [brk].flatMap (SysCall.makeEntry verbose) = word EXIT ++ word 0 := by
    simp [SysCall.makeEntry, hbrk, hwrite]
  rw [hbreak] at hitems hlen
  rw [List.append_assoc] at hitems
  have haddr := headAddr_eq hitems
  have hstores := (Mem.holds_append.mp (Mem.holds_append.mp hitems).2).2
  rw [word_length, word_length, storeTable, Nat.add_assoc] at hstores
  have hcheck : checkStores _ fuel (pointer verbose base calls + CFG_SIZE) = _ :=
    checkStores_eq fuel hstores (by rw [(sortedStores_perm stores).length_eq]; omega)
  have hterm : pointer verbose base calls + CFG_SIZE + 24 * (sortedStores stores).length =
      base + (makeReplayTable verbose a0 (calls ++ [brk]) stores).length - CFG_SIZE := by
    rw [hlen, (sortedStores_perm stores).length_eq, pointer, CFG_SIZE, List.length_append,
      word_length, word_length]
    omega
  rw [hterm] at hcheck
  obtain ⟨fuel, rfl⟩ : ∃ n, fuel = n + 1 := ⟨fuel - 1, by omega⟩
  rw [replay, haddr, if_neg (by decide), if_neg (by decide), if_pos (by rfl), replayExit,
    Option.bind_eq_bind, hcheck, Option.bind_some]
  simp only [storesHold_sorted]
  by_cases hall : StoresHold (afterCalls (afterEntry m csrv (now 0)) calls) stores
  · rw [if_pos hall, if_pos hall]
  · rw [if_neg hall, if_neg hall]

/-- **Encoder and decoder agree**, for any recorded calls that a break call ends and any store
trace. -/
theorem replay_agrees
    (h : m.Holds base (makeReplayTable verbose a0 (calls ++ [brk]) stores))
    (hplaced : Placed base (makeReplayTable verbose a0 (calls ++ [brk]) stores).length csrv calls)
    (hrec : ∀ c ∈ calls, Recorded c) (hbrk : brk.isBreak = true) (hwrite : brk.write = none)
    (hfuel : stores.length + 2 ≤ fuel) :
    Agrees verbose a0 calls stores m base
      (makeReplayTable verbose a0 (calls ++ [brk]) stores).length csrv now fuel := by
  have hpast := fun pre post => runReplay_prefix now fuel h hplaced hrec
    (by omega) pre post
  refine ⟨⟨hpast [] calls rfl, (replay_entry now fuel h hplaced (by omega)).2⟩, ?_, ?_⟩
  · intro pre c post hsplit
    exact ⟨_, _, hpast pre (c :: post) hsplit,
      replay_next now fuel h hplaced hrec (by omega) hsplit⟩
  · exact ⟨_, hpast calls [] (List.append_nil _).symm,
      replay_exit now fuel h hplaced hbrk hwrite hfuel (now (calls.length + 1))⟩

end Table

def exampleCalls : List SysCall :=
  [⟨0x10000, 3, none, false, some (0x15000, [1, 2, 3])⟩, ⟨0x10010, 0, none, false, none⟩]

def exampleBreak : SysCall := ⟨0x10020, 0, none, true, none⟩

def exampleStores : List StoreRecord := [⟨0x15000, .w2, 0x0201, by decide, by decide⟩]

def exampleTable : List Byte := makeReplayTable true 7 (exampleCalls ++ [exampleBreak]) exampleStores

theorem exampleTable_agrees : Agrees true 7 exampleCalls exampleStores
    (Mem.writeBytes (fun _ => 0) 0x20000 exampleTable) 0x20000 exampleTable.length 0x60000000
    (fun i => ⟨BitVec.ofNat 64 (10 * i), BitVec.ofNat 64 i⟩) 3 := by
  have hplaced : Placed 0x20000 exampleTable.length 0x60000000 exampleCalls := by
    have hlen : exampleTable.length = 128 := by
      rw [exampleTable, table_length]
      rfl
    rw [hlen]
    refine ⟨by decide, ?_, by decide⟩
    simp [exampleCalls, Clear]
  have hrec : ∀ c ∈ exampleCalls, Recorded c := by
    have hwrites : ∀ c ∈ exampleCalls, c.isBreak = false ∧
        ∀ w ∈ c.write, w.2 ≠ [] ∧ 3 < w.1.toNat := by decide
    intro c hc
    exact ⟨(hwrites c hc).1, fun waddr wdata hw => (hwrites c hc).2 (waddr, wdata) hw⟩
  exact replay_agrees _ 3 (Mem.holds_writeBytes _ _ _) hplaced hrec rfl rfl (by decide)

end RvCkpt.Loader
