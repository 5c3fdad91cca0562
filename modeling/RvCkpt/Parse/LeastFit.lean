import RvCkpt.Parse.InjectSpec
import Mathlib.Order.Bounds.Basic

/-! # The replay stack's pages

`reserve_page` finds the first run of pages that is long enough, and what `process_once` puts there
lies one behind the other within the run.
-/

namespace RvCkpt.Parse
open ByteMem FreeSpace
set_option autoImplicit false

/-! ## The first run -/

namespace PageMap

/-- A run of pages from `pn` on that the map does not have, long enough for `size` bytes. -/
structure Vacant (m : PageMap) (size pn : ℕ) : Prop where
  first_le : FIRST_PN ≤ pn
  run : ∃ n, size ≤ n * PAGE_SIZE ∧ ∀ k < n, pn + k ∉ m

/-- The scan does not go past a run that keeps clear of the pages that it sees. -/
theorem reserveScan_le {needed b cur : ℕ} {pns : List ℕ} (hcur : cur ≤ b)
    (hclear : ∀ pn ∈ pns, pn < b ∨ b + needed ≤ pn) : reserveScan needed pns cur ≤ b := by
  induction pns generalizing cur with
  | nil => exact hcur
  | cons pn rest ih =>
    rw [reserveScan]
    by_cases hgap : (pn : ℤ) - cur < needed
    · rw [if_pos hgap]
      refine ih ?_ fun q hq => hclear q (List.mem_cons_of_mem pn hq)
      -- the gap before `pn` is too small for a run that begins in it
      rcases hclear pn List.mem_cons_self with hbelow | habove
      · exact hbelow
      · omega
    · rw [if_neg hgap]
      exact hcur

theorem reservePage_least {m : PageMap} (h : ∀ pn ∈ m, FIRST_PN ≤ pn) (size : ℕ) :
    IsLeast {pn | m.Vacant size pn} (m.reservePage size) := by
  have hshift : (size + PAGE_SIZE - 1) >>> PAGE_OFFS = (size + PAGE_SIZE - 1) / PAGE_SIZE :=
    Nat.shiftRight_eq_div_pow _ 12
  have hsorted := List.pairwise_insertionSort (· ≤ ·) m.keys
  have hmem : ∀ pn, pn ∈ m.keys.insertionSort (· ≤ ·) ↔ pn ∈ m := fun pn =>
    (List.perm_insertionSort _ _).mem_iff
  constructor
  · refine ⟨?_, (size + PAGE_SIZE - 1) / PAGE_SIZE, by unfold PAGE_SIZE; omega, fun k hk hin => ?_⟩
    · have hlow : FIRST_PN - 1 < m.reservePage size :=
        (reserveScan_spec FIRST_PN hsorted).1 (FIRST_PN - 1) (by decide) fun pn hpn =>
          (Nat.sub_le _ _).trans (h pn ((hmem pn).mp hpn))
      exact Nat.le_of_pred_lt hlow
    · rcases reservePage_spec m size hin with hbelow | habove <;> omega
  · rintro b ⟨hfirst, n, hsize, hrun⟩
    rw [reservePage, hshift]
    refine reserveScan_le hfirst fun pn hpn => ?_
    by_contra hin
    have hneeded : (size + PAGE_SIZE - 1) / PAGE_SIZE ≤ n := by
      unfold PAGE_SIZE at *
      omega
    apply hrun (pn - b) (by omega)
    rw [Nat.add_sub_cancel' (by omega)]
    exact (hmem pn).mp hpn

end PageMap

/-! ## The replay stack -/

/-- `struct replay_stack` with a replay table of `n` bytes, by the sizes of its fields. -/
def replaySizes (n : ℕ) : List ℕ := [64 * 8, 8, 8, n, 8]

theorem replaySizes_sum (n : ℕ) : (replaySizes n).sum = 64 * 8 + 8 + 8 + n + 8 := by
  simp only [replaySizes, List.sum_cons, List.sum_nil]
  omega

structure ReplayStack where
  regfile : Block
  replaySp : Block
  replayPc : Block
  replayTable : Block
  nearBuf : Block

namespace ReplayStack

/-- The struct at an address. -/
def layout (base n : ℕ) : ReplayStack where
  regfile := ⟨base, 64 * 8⟩
  replaySp := ⟨base + 64 * 8, 8⟩
  replayPc := ⟨base + 64 * 8 + 8, 8⟩
  replayTable := ⟨base + 64 * 8 + 8 + 8, n⟩
  nearBuf := ⟨base + 64 * 8 + 8 + 8 + n, 8⟩

def blocks (s : ReplayStack) : List Block :=
  [s.regfile, s.replaySp, s.replayPc, s.replayTable, s.nearBuf]

theorem layout_blocks (base n : ℕ) :
    (layout base n).blocks = Block.row base (replaySizes n) := rfl

theorem layout_apart (base n : ℕ) : (layout base n).blocks.Pairwise Block.Apart := by
  rw [layout_blocks]
  exact Block.row_apart base _

theorem layout_within {base n : ℕ} {b : Block} (h : b ∈ (layout base n).blocks) :
    base ≤ b.start ∧ b.start + b.size ≤ base + (replaySizes n).sum := by
  rw [layout_blocks] at h
  exact Block.row_bounds h

end ReplayStack

namespace Checkpoint

/-- What `process_once` does with the replay stack: it takes pages for the whole struct from the
map `found`, gives the near, the entry and the far calls the addresses of its fields, and puts the
registers, the replay table and the stack pointer into their fields. -/
structure Laid (asm : Assembler) (cp : Checkpoint) (i : Injection) (found : PageMap)
    (table : List Byte) (stack : ReplayStack) : Prop where
  layout : stack = .layout i.regsAddr table.length
  size : i.replayStackSize = (replaySizes table.length).sum
  base : i.regsAddr = found.reservePage i.replayStackSize * PAGE_SIZE
  calls : ∃ nearMap pages sp, writeNear asm stack.nearBuf.start i.farAddr found nearMap cp.syscalls =
      some (pages, i.sites) ∧ cp.regs[2]? = some sp ∧
    i.pages = ((((pages.put i.entryAddr i.entryCall).put i.farAddr i.farCall).put
      stack.regfile.start ((patchedRegs cp.regs i.farAddr i.entryAddr).flatMap word)).put
        stack.replayTable.start table).put stack.nearBuf.start (word sp)
  entry : MakeHelper.near asm cp.entryPc i.entryAddr stack.nearBuf.start none none = some i.entryCall
  far : i.farCall = MakeHelper.far asm stack.replaySp.start stack.replayPc.start

variable {asm : Assembler} {cp : Checkpoint} {verbose : Bool} {i : Injection}

theorem place_laid {pages : PageMap} {freeList : List (ℕ × ℕ)}
    (h : place asm cp verbose pages freeList = some i) :
    ∃ found a0, cp.regs[10]? = some a0 ∧
      ∃ stack, Laid asm cp i found (makeReplayTable verbose a0 cp.syscalls cp.stores) stack := by
  obtain ⟨⟨m₁, free₁, nearMap⟩, -, h⟩ := Option.bind_eq_some_iff.mp h
  obtain ⟨entrySize, -, h⟩ := Option.bind_eq_some_iff.mp h
  obtain ⟨⟨m₂, free₂, entryAddr⟩, -, h⟩ := Option.bind_eq_some_iff.mp h
  obtain ⟨⟨m₃, free₃, farAddr⟩, -, h⟩ := Option.bind_eq_some_iff.mp h
  obtain ⟨a0, ha0, h⟩ := Option.bind_eq_some_iff.mp h
  obtain ⟨sp, hsp, h⟩ := Option.bind_eq_some_iff.mp h
  obtain ⟨⟨m₄, sites⟩, hsites, h⟩ := Option.bind_eq_some_iff.mp h
  obtain ⟨entryCall, hentryCall, h⟩ := Option.bind_eq_some_iff.mp h
  obtain rfl := Option.some.inj h
  exact ⟨m₃, a0, ha0, _, rfl, (replaySizes_sum _).symm, rfl,
    ⟨nearMap, m₄, sp, hsites, hsp, rfl⟩, hentryCall, rfl⟩

/-- The fields of the replay stack do not meet, lie in the run of pages that was found, and of 64
registers each of them is filled by what is put there. -/
structure Fits (cp : Checkpoint) (i : Injection) (found : PageMap) (table : List Byte)
    (stack : ReplayStack) : Prop where
  apart : stack.blocks.Pairwise Block.Apart
  within : ∀ b ∈ stack.blocks, ∀ a, b.Has a → i.stackBlock.Has a
  unmapped : ∀ a, i.stackBlock.Has a → a / PAGE_SIZE ∉ found
  filled : cp.regs.length = 64 → stack.regfile.size =
      ((patchedRegs cp.regs i.farAddr i.entryAddr).flatMap word).length ∧
    stack.replayTable.size = table.length ∧ ∀ sp, stack.nearBuf.size = (word sp).length

theorem flatMap_word_length (regs : List (BitVec 64)) :
    (regs.flatMap word).length = 8 * regs.length := by
  induction regs with
  | nil => rfl
  | cons r regs ih =>
    rw [List.flatMap_cons, List.length_append, ih, word_length, List.length_cons]
    omega

theorem Laid.fits {found : PageMap} {table : List Byte} {stack : ReplayStack}
    (h : Laid asm cp i found table stack) : Fits cp i found table stack := by
  obtain ⟨rfl, hsize, hbase, -⟩ := h
  refine ⟨ReplayStack.layout_apart _ _, fun b hb a ha => ?_, fun a ha hin => ?_,
    fun hregs => ⟨?_, rfl, fun sp => (word_length sp).symm⟩⟩
  · have hb' := ReplayStack.layout_within hb
    rw [← hsize] at hb'
    obtain ⟨hlo, hhi⟩ := ha
    refine ⟨hb'.1.trans hlo, ?_⟩
    show a < i.regsAddr + (i.replayStackSize + PAGE_SIZE - 1) / PAGE_SIZE * PAGE_SIZE
    unfold PAGE_SIZE
    omega
  · obtain ⟨hlo, hhi⟩ := ha
    have hspec := PageMap.reservePage_spec found i.replayStackSize hin
    rw [Injection.stackBlock, hbase] at hlo hhi
    simp only at hlo hhi
    unfold PAGE_SIZE at *
    omega
  · rw [flatMap_word_length, patchedRegs, List.length_set, List.length_set, hregs]
    rfl

/-- **The replay stack**: `reserve_page` returns the first page of the first run of pages that is
long enough, and the fields of the struct that `process_once` lays out there lie apart in it. -/
theorem replayStack_least_fit :
    (∀ (m : PageMap) (size : ℕ), (∀ pn ∈ m, FIRST_PN ≤ pn) →
      IsLeast {pn | m.Vacant size pn} (m.reservePage size)) ∧
    ∀ (asm : Assembler) (cp : Checkpoint) (verbose : Bool) (i : Injection),
      processOnce asm cp verbose = some i →
        ∃ found a0, cp.regs[10]? = some a0 ∧
          ∃ stack, Laid asm cp i found (makeReplayTable verbose a0 cp.syscalls cp.stores) stack ∧
            Fits cp i found (makeReplayTable verbose a0 cp.syscalls cp.stores) stack := by
  refine ⟨fun m size h => PageMap.reservePage_least h size, fun asm cp verbose i h => ?_⟩
  obtain ⟨found, a0, ha0, stack, hlaid⟩ := place_laid h
  exact ⟨found, a0, ha0, stack, hlaid, hlaid.fits⟩

section Example

def examplePageHoles : PageMap := AList.insert 16 .empty (AList.insert 18 .empty ∅)

/-- Page 16 and page 18 are there, and two pages are needed; a system call and a break. -/
theorem example_least_fit :
    IsLeast {pn | examplePageHoles.Vacant 0x1001 pn} (examplePageHoles.reservePage 0x1001) ∧
      ∃ i, processOnce wordAssembler (exampleCheckpoint 0x10800 0x10804) false = some i ∧
        ∃ found table stack, Laid wordAssembler (exampleCheckpoint 0x10800 0x10804) i found table
          stack ∧ Fits (exampleCheckpoint 0x10800 0x10804) i found table stack := by
  obtain ⟨hleast, hlaid⟩ := replayStack_least_fit
  obtain ⟨i, hi⟩ := Option.isSome_iff_exists.mp exampleCheckpoint_isSome
  obtain ⟨found, a0, -, stack, h⟩ := hlaid _ _ _ i hi
  have hpages : ∀ pn ∈ examplePageHoles, FIRST_PN ≤ pn := by
    intro pn hpn
    have hkeys : pn ∈ examplePageHoles.keys := hpn
    rw [show examplePageHoles.keys = [16, 18] from rfl] at hkeys
    simp only [List.mem_cons, List.not_mem_nil, or_false] at hkeys
    rcases hkeys with rfl | rfl <;> decide
  exact ⟨hleast _ 0x1001 hpages, i, hi, found, _, stack, h⟩

end Example

end Checkpoint

end RvCkpt.Parse
