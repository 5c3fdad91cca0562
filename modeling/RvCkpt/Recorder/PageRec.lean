import RvCkpt.Lib.Bytes

/-! # Page records

`PageRec` of `src/src/util/fmt.h`: 4096 recorded bytes and a bitmap with one bit per byte. The
accessors `check<T>` and `set<T>` read and write `sizeof(T)` bits of one bitmap byte, so they mean
what their names say only for an access that stays within 8 aligned bytes (`Fits`).
-/

namespace RvCkpt
open ByteMem
set_option autoImplicit false

/-- The access types of the recorder, by `sizeof(T)`. -/
inductive Width where
  | w1 | w2 | w4 | w8
  deriving DecidableEq, Repr

namespace Width

def bytes : Width → ℕ
  | w1 => 1
  | w2 => 2
  | w4 => 4
  | w8 => 8

def mask : Width → Byte
  | w1 => 0x01
  | w2 => 0x03
  | w4 => 0x0f
  | w8 => 0xff

theorem bytes_pos (w : Width) : 0 < w.bytes := by cases w <;> decide

theorem bytes_le (w : Width) : w.bytes ≤ 8 := by cases w <;> decide

theorem mask_getLsbD (w : Width) (i : ℕ) : w.mask.getLsbD i = decide (i < w.bytes) := by
  by_cases hi : i < 8
  · cases w <;> decide +revert
  · have hb := w.bytes_le
    rw [BitVec.getLsbD_of_ge _ _ (by omega)]
    simp; omega

end Width

def PAGE_SIZE : ℕ := 4096

structure PageRec where
  visited : ℕ → Byte
  content : ℕ → Byte

namespace PageRec

def new : PageRec := ⟨fun _ => 0, fun _ => 0⟩

def check (w : Width) (p : PageRec) (offset : ℕ) : Byte :=
  (p.visited (offset / 8) >>> (offset % 8)) &&& w.mask

def set (w : Width) (p : PageRec) (offset : ℕ) : PageRec :=
  { p with
    visited := Function.update p.visited (offset / 8)
      (p.visited (offset / 8) ||| w.mask <<< (offset % 8)) }

def put (w : Width) (p : PageRec) (offset : ℕ) (data : BitVec 64) : PageRec :=
  { p.set w offset with content := Mem.write p.content offset w.bytes data }

def seen (p : PageRec) (offset : ℕ) : Bool := (p.visited (offset / 8)).getLsbD (offset % 8)

def Fits (w : Width) (offset : ℕ) : Prop := offset % 8 + w.bytes ≤ 8

theorem fits_of_aligned {w : Width} {offset : ℕ} (h : offset % w.bytes = 0) : Fits w offset := by
  unfold Fits
  cases w <;> simp only [Width.bytes] at * <;> omega

theorem new_seen (offset : ℕ) : new.seen offset = false := by simp [new, seen]

/-! ## What the bit masks say -/

theorem check_getLsbD (w : Width) (p : PageRec) {offset : ℕ} (h : Fits w offset) {i : ℕ}
    (hi : i < w.bytes) : (p.check w offset).getLsbD i = p.seen (offset + i) := by
  unfold Fits at h
  have hdiv : (offset + i) / 8 = offset / 8 := by omega
  have hmod : (offset + i) % 8 = offset % 8 + i := by omega
  rw [check, BitVec.getLsbD_and, BitVec.getLsbD_ushiftRight, w.mask_getLsbD, seen, hdiv, hmod]
  simp [hi]

theorem check_getLsbD_of_ge (w : Width) (p : PageRec) (offset : ℕ) {i : ℕ} (hi : w.bytes ≤ i) :
    (p.check w offset).getLsbD i = false := by
  rw [check, BitVec.getLsbD_and, w.mask_getLsbD]
  simp; omega

theorem check_eq_zero_iff {w : Width} {p : PageRec} {offset : ℕ} (h : Fits w offset) :
    p.check w offset = 0 ↔ ∀ i < w.bytes, p.seen (offset + i) = false := by
  constructor
  · intro h0 i hi
    rw [← check_getLsbD w p h hi, h0, BitVec.ofNat_eq_ofNat, BitVec.getLsbD_zero]
  · intro hs
    apply BitVec.eq_of_getLsbD_eq
    intro i _
    rw [BitVec.ofNat_eq_ofNat, BitVec.getLsbD_zero]
    by_cases hi : i < w.bytes
    · rw [check_getLsbD w p h hi, hs i hi]
    · exact check_getLsbD_of_ge w p offset (by omega)

theorem check_eq_mask_iff {w : Width} {p : PageRec} {offset : ℕ} (h : Fits w offset) :
    p.check w offset = w.mask ↔ ∀ i < w.bytes, p.seen (offset + i) = true := by
  constructor
  · intro h0 i hi
    rw [← check_getLsbD w p h hi, h0, w.mask_getLsbD, decide_eq_true hi]
  · intro hs
    apply BitVec.eq_of_getLsbD_eq
    intro i _
    rw [w.mask_getLsbD]
    by_cases hi : i < w.bytes
    · rw [check_getLsbD w p h hi, hs i hi, decide_eq_true hi]
    · rw [check_getLsbD_of_ge w p offset (by omega), decide_eq_false hi]

theorem set_seen (w : Width) (p : PageRec) {offset : ℕ} (h : Fits w offset) (x : ℕ) :
    (p.set w offset).seen x = (p.seen x || decide (offset ≤ x ∧ x < offset + w.bytes)) := by
  unfold Fits at h
  have hw := w.bytes_pos
  simp only [seen, set]
  by_cases hx : x / 8 = offset / 8
  · rw [hx, Function.update_self, BitVec.getLsbD_or, BitVec.getLsbD_shiftLeft, w.mask_getLsbD]
    congr 1
    by_cases hlo : x % 8 < offset % 8
    · have : ¬ (offset ≤ x ∧ x < offset + w.bytes) := by omega
      simp [hlo, this]
    · have : x % 8 - offset % 8 < w.bytes ↔ offset ≤ x ∧ x < offset + w.bytes := by omega
      simp [hlo, this, show x % 8 < 8 by omega]
  · rw [Function.update_of_ne hx]
    have : ¬ (offset ≤ x ∧ x < offset + w.bytes) := by omega
    simp [this]

@[simp] theorem set_content (w : Width) (p : PageRec) (offset : ℕ) :
    (p.set w offset).content = p.content := rfl

theorem put_seen (w : Width) (p : PageRec) {offset : ℕ} (h : Fits w offset) (data : BitVec 64)
    (x : ℕ) :
    (p.put w offset data).seen x = (p.seen x || decide (offset ≤ x ∧ x < offset + w.bytes)) :=
  set_seen w p h x

@[simp] theorem put_content (w : Width) (p : PageRec) (offset : ℕ) (data : BitVec 64) :
    (p.put w offset data).content = Mem.write p.content offset w.bytes data := rfl

/-- What a page holds for a byte: nothing, or its recorded content. -/
def get (p : PageRec) (x : ℕ) : Option Byte := if p.seen x then some (p.content x) else none

theorem get_isSome (p : PageRec) (x : ℕ) : (p.get x).isSome = p.seen x := by
  unfold get
  cases p.seen x <;> rfl

theorem new_get (x : ℕ) : new.get x = none := by rw [get, new_seen]; rfl

theorem put_get (w : Width) (p : PageRec) {offset : ℕ} (h : Fits w offset) (data : BitVec 64)
    (x : ℕ) :
    (p.put w offset data).get x =
      if offset ≤ x ∧ x < offset + w.bytes then some (byteAt data (x - offset)) else p.get x := by
  unfold get
  rw [put_seen w p h, put_content]
  by_cases hx : offset ≤ x ∧ x < offset + w.bytes
  · rw [if_pos hx, Mem.write_of_mem hx, decide_eq_true hx, Bool.or_true, if_pos rfl]
  · rw [if_neg hx, Mem.write_of_not_mem (by omega), decide_eq_false hx, Bool.or_false]

end PageRec

end RvCkpt
