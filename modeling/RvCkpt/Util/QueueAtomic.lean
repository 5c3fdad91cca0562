import Mathlib.Data.Nat.Bitwise
import Mathlib.Data.Nat.ModEq
import Mathlib.Tactic.Common

/-! # The queue

`queue_atomic` (`src/src/util/queue.h`) as one thread uses it. Offsets count on past the size limit
and are masked to `offset_bits`; differences of offsets are taken in the wider atomic type.
-/

namespace RvCkpt.Util
set_option autoImplicit false

/-- The template's parameters and the size limit, a power of two that is at most `size_max`. Atomic
types below 32 bits, that are promoted, are left out. -/
structure Layout where
  atomic_bits : ℕ
  atomic : atomic_bits = 32 ∨ atomic_bits = 64
  offset_bits : ℕ
  version_bits : ℕ
  limit_bits : ℕ
  fits : version_bits + offset_bits ≤ atomic_bits
  version_pos : 0 < version_bits
  limit_lt : limit_bits < offset_bits

namespace Layout
variable (L : Layout)

def size_limit : ℕ := 2 ^ L.limit_bits

def version_shift : ℕ := L.offset_bits

def offset_limit : ℕ := 2 ^ L.offset_bits

def offset_mask : ℕ := 2 ^ L.offset_bits - 1

def version_mask : ℕ := 2 ^ L.version_bits - 1

/-- A difference in the atomic type. -/
def sub (a b : ℕ) : ℕ := (a + 2 ^ L.atomic_bits - b) % 2 ^ L.atomic_bits

/-- A version number and an offset in an atomic integer. -/
def pack_offset (version offset : ℕ) : ℕ := version <<< L.version_shift ||| offset

/-- The offset, where the version is that of the counter. -/
def unpack_offsets (counter pack : ℕ) : Option ℕ :=
  if (pack >>> L.version_shift) &&& L.version_mask = counter &&& L.version_mask then
    some (pack &&& L.offset_mask)
  else none

end Layout

theorem atomic_64 : 64 = 32 ∨ 64 = 64 := .inr rfl

/-- The default parameters: 48 bits of an offset and 16 of a version. -/
def defaultLayout (limit_bits : ℕ) (h : limit_bits < 48) : Layout :=
  ⟨64, atomic_64, 48, 16, limit_bits, by decide, by decide, h⟩

def spin_limit : ℕ := 1 <<< 24

structure QueueAtomic (α : Type) where
  counter_back : ℕ
  version_back : ℕ
  counter_front : ℕ
  version_front : ℕ
  vec : ℕ → α

namespace QueueAtomic
variable {α : Type} (L : Layout)

def init [Zero α] : QueueAtomic α :=
  ⟨0, L.pack_offset 0 0, 0, L.pack_offset 0 L.size_limit, fun _ => 0⟩

def back (q : QueueAtomic α) : ℕ := q.version_back &&& L.offset_mask

def front (q : QueueAtomic α) : ℕ := q.version_front &&& L.offset_mask

def empty (q : QueueAtomic α) : Bool := decide (L.sub (q.front L) (q.back L) = L.size_limit)

def full (q : QueueAtomic α) : Bool := decide (q.front L = q.back L)

def size (q : QueueAtomic α) : ℕ :=
  if q.front L < q.back L then q.back L - q.front L
  else (L.sub L.size_limit (q.front L) + q.back L) % 2 ^ L.atomic_bits

/-- The element is stored at the back, with the new version. -/
def pushed (q : QueueAtomic α) (elem : α) (back : ℕ) : QueueAtomic α :=
  let new_back_version := (q.counter_back + 1) &&& L.version_mask
  let offset := back &&& (L.size_limit - 1)
  { q with
    counter_back := new_back_version
    vec := Function.update q.vec offset elem
    version_back := L.pack_offset new_back_version ((back + 1) &&& (L.offset_limit - 1)) }

/-- The loop of `push_back`, with the iterations that are left and the exchanges that are still to
fail without a reason. -/
def pushLoop (q : QueueAtomic α) (elem : α) (front : ℕ) : ℕ → ℕ → QueueAtomic α × Bool
  | 0, _ => (q, false)
  | n + 1, fails =>
    match L.unpack_offsets q.counter_back q.version_back with
    | none => pushLoop q elem front n fails
    | some back =>
      if front = back then (q, false)
      else if fails = 0 then (q.pushed L elem back, true)
      else pushLoop q elem front n (fails - 1)

def push_back (q : QueueAtomic α) (elem : α) (fails : ℕ) : QueueAtomic α × Bool :=
  q.pushLoop L elem (q.front L) spin_limit fails

/-- The element at the front is taken, with the new version. -/
def popped (q : QueueAtomic α) (front : ℕ) : QueueAtomic α × α :=
  let new_front_version := (q.counter_front + 1) &&& L.version_mask
  let offset := front &&& (L.size_limit - 1)
  ({ q with
      counter_front := new_front_version
      version_front := L.pack_offset new_front_version ((front + 1) &&& (L.offset_limit - 1)) },
    q.vec offset)

/-- The loop of `pop_front`. -/
def popLoop [Zero α] (q : QueueAtomic α) (back : ℕ) : ℕ → ℕ → QueueAtomic α × α
  | 0, _ => (q, 0)
  | n + 1, fails =>
    match L.unpack_offsets q.counter_front q.version_front with
    | none => popLoop q back n fails
    | some front =>
      if L.sub front back = L.size_limit then (q, 0)
      else if fails = 0 then q.popped L front
      else popLoop q back n (fails - 1)

def pop_front [Zero α] (q : QueueAtomic α) (fails : ℕ) : QueueAtomic α × α :=
  q.popLoop L (q.back L) spin_limit fails

end QueueAtomic

/-! ## The bounded queue -/

section
variable {α : Type}

/-- A call, with the number of exchanges that fail in it. -/
inductive Op (α : Type)
  | push_back (elem : α) (fails : ℕ)
  | pop_front (fails : ℕ)

def Op.fails : Op α → ℕ
  | .push_back _ fails => fails
  | .pop_front fails => fails

def QueueAtomic.step [Zero α] (L : Layout) (q : QueueAtomic α) : Op α → QueueAtomic α × (Bool ⊕ α)
  | .push_back elem fails => (q.push_back L elem fails).map id .inl
  | .pop_front fails => (q.pop_front L fails).map id .inr

/-- A queue of at most `limit` elements, the first one at the front. -/
def Op.fifo [Zero α] (limit : ℕ) : List α → Op α → List α × (Bool ⊕ α)
  | l, .push_back elem _ => if l.length < limit then (l ++ [elem], .inl true) else (l, .inl false)
  | [], .pop_front _ => ([], .inr 0)
  | x :: l, .pop_front _ => (l, .inr x)

/-- The operation takes or puts nothing. -/
def Op.Refused (limit : ℕ) (l : List α) : Op α → Prop
  | .push_back _ _ => limit ≤ l.length
  | .pop_front _ => l = []

structure Agrees (L : Layout) (q : QueueAtomic α) (l : List α) : Prop where
  size : q.size L = l.length
  empty : q.empty L = true ↔ l = []
  full : q.full L = true ↔ l.length = L.size_limit

/-- Each call returns what the bounded queue does, and changes nothing where it is refused. The
sizes agree before every call and after the last one. -/
def Right [Zero α] (L : Layout) (q : QueueAtomic α) (l : List α) : List (Op α) → Prop
  | [] => Agrees L q l
  | op :: ops =>
    Agrees L q l ∧ (q.step L op).2 = (op.fifo L.size_limit l).2 ∧
      (op.Refused L.size_limit l → (q.step L op).1 = q) ∧
        Right L (q.step L op).1 (op.fifo L.size_limit l).1 ops

/-- Not all exchanges of a call fail that is not refused, and the elements taken so far, with the
size limit, are fewer than there are offsets. -/
def Meets [Zero α] (L : Layout) (l : List α) (taken : ℕ) : List (Op α) → Prop
  | [] => True
  | .push_back elem fails :: ops =>
    (l.length < L.size_limit → fails < spin_limit) ∧
      Meets L ((Op.push_back elem fails).fifo L.size_limit l).1 taken ops
  | .pop_front fails :: ops =>
    match l with
    | [] => Meets L [] taken ops
    | _ :: l =>
      fails < spin_limit ∧ L.size_limit + (taken + 1) < L.offset_limit ∧ Meets L l (taken + 1) ops

end

/-! ## Packed words -/

namespace Layout
variable (L : Layout)

theorem pack_offset_eq {offset : ℕ} (h : offset < 2 ^ L.offset_bits) (version : ℕ) :
    L.pack_offset version offset = version * 2 ^ L.offset_bits + offset := by
  rw [pack_offset, version_shift, ← Nat.shiftLeft_add_eq_or_of_lt h, Nat.shiftLeft_eq]

theorem offset_of_pack {offset : ℕ} (h : offset < 2 ^ L.offset_bits) (version : ℕ) :
    L.pack_offset version offset &&& L.offset_mask = offset := by
  rw [L.pack_offset_eq h, offset_mask, Nat.and_two_pow_sub_one_eq_mod, Nat.add_comm,
    Nat.add_mul_mod_self_right, Nat.mod_eq_of_lt h]

theorem unpack_pack {offset : ℕ} (hoffset : offset < 2 ^ L.offset_bits) (version : ℕ) :
    L.unpack_offsets version (L.pack_offset version offset) = some offset := by
  have hshift : L.pack_offset version offset >>> L.version_shift = version := by
    rw [L.pack_offset_eq hoffset, version_shift, Nat.shiftRight_eq_div_pow, Nat.add_comm,
      Nat.add_mul_div_right _ _ (Nat.two_pow_pos _), Nat.div_eq_of_lt hoffset, Nat.zero_add]
  rw [unpack_offsets, hshift, if_pos rfl, L.offset_of_pack hoffset]

theorem offset_bits_lt : L.offset_bits < L.atomic_bits := by
  have hfits := L.fits
  have hpos := L.version_pos
  omega

theorem offset_limit_lt : 2 ^ L.offset_bits < 2 ^ L.atomic_bits :=
  Nat.pow_lt_pow_right (by omega) L.offset_bits_lt

theorem size_limit_pos : 0 < L.size_limit := Nat.two_pow_pos _

theorem size_limit_lt : L.size_limit < 2 ^ L.offset_bits :=
  Nat.pow_lt_pow_right (by omega) L.limit_lt

theorem sub_of_le {a b : ℕ} (hba : b ≤ a) (ha : a < 2 ^ L.atomic_bits) : L.sub a b = a - b := by
  rw [sub, show a + 2 ^ L.atomic_bits - b = a - b + 2 ^ L.atomic_bits by omega,
    Nat.add_mod_right, Nat.mod_eq_of_lt (by omega)]

/-- A counter that is masked to a width. -/
theorem mask_eq (n bits : ℕ) : n &&& (2 ^ bits - 1) = n % 2 ^ bits :=
  Nat.and_two_pow_sub_one_eq_mod n bits

end Layout

/-! ## The offsets of a queue -/

section
variable {α : Type} {L : Layout} {q : QueueAtomic α}

/-- The front's and the back's words hold offsets, with the versions of their counters. -/
structure Holds (L : Layout) (q : QueueAtomic α) (back front : ℕ) : Prop where
  back_lt : back < 2 ^ L.offset_bits
  front_lt : front < 2 ^ L.offset_bits
  version_back : q.version_back = L.pack_offset q.counter_back back
  version_front : q.version_front = L.pack_offset q.counter_front front

namespace Holds
variable {back front : ℕ}

theorem init [Zero α] (L : Layout) : Holds L (QueueAtomic.init L : QueueAtomic α) 0 L.size_limit :=
  ⟨Nat.two_pow_pos _, L.size_limit_lt, rfl, rfl⟩

theorem back_eq (h : Holds L q back front) : q.back L = back := by
  rw [QueueAtomic.back, h.version_back, L.offset_of_pack h.back_lt]

theorem front_eq (h : Holds L q back front) : q.front L = front := by
  rw [QueueAtomic.front, h.version_front, L.offset_of_pack h.front_lt]

theorem unpack_back (h : Holds L q back front) :
    L.unpack_offsets q.counter_back q.version_back = some back := by
  rw [h.version_back, L.unpack_pack h.back_lt]

theorem unpack_front (h : Holds L q back front) :
    L.unpack_offsets q.counter_front q.version_front = some front := by
  rw [h.version_front, L.unpack_pack h.front_lt]

theorem pushed (h : Holds L q back front) (elem : α) :
    Holds L (q.pushed L elem back) ((back + 1) % 2 ^ L.offset_bits) front := by
  have hnext : (back + 1) &&& (L.offset_limit - 1) = (back + 1) % 2 ^ L.offset_bits :=
    Layout.mask_eq _ _
  refine ⟨Nat.mod_lt _ (Nat.two_pow_pos _), h.front_lt, ?_, h.version_front⟩
  simp only [QueueAtomic.pushed, hnext]

theorem popped (h : Holds L q back front) :
    Holds L (q.popped L front).1 back ((front + 1) % 2 ^ L.offset_bits) := by
  have hnext : (front + 1) &&& (L.offset_limit - 1) = (front + 1) % 2 ^ L.offset_bits :=
    Layout.mask_eq _ _
  refine ⟨h.back_lt, Nat.mod_lt _ (Nat.two_pow_pos _), h.version_back, ?_⟩
  simp only [QueueAtomic.popped, hnext]

end Holds

/-- The loop of a push ends at once where the queue is full, else where an exchange succeeds. -/
theorem pushLoop_eq {elem : α} {back front : ℕ}
    (h : L.unpack_offsets q.counter_back q.version_back = some back) (n fails : ℕ) :
    q.pushLoop L elem front n fails =
      if front ≠ back ∧ fails < n then (q.pushed L elem back, true) else (q, false) := by
  induction n generalizing fails with
  | zero =>
    rw [if_neg fun hand => absurd hand.2 (Nat.not_lt_zero _)]
    rfl
  | succ n ih =>
    simp only [QueueAtomic.pushLoop, h]
    by_cases hfull : front = back
    · rw [if_pos hfull, if_neg fun hand => hand.1 hfull]
    · rw [if_neg hfull]
      by_cases hzero : fails = 0
      · rw [if_pos hzero, if_pos ⟨hfull, by omega⟩]
      · have hiff : fails - 1 < n ↔ fails < n + 1 := by omega
        rw [if_neg hzero, ih]
        simp only [hiff]

theorem popLoop_eq [Zero α] {back front : ℕ}
    (h : L.unpack_offsets q.counter_front q.version_front = some front) (n fails : ℕ) :
    q.popLoop L back n fails =
      if L.sub front back ≠ L.size_limit ∧ fails < n then q.popped L front else (q, 0) := by
  induction n generalizing fails with
  | zero =>
    rw [if_neg fun hand => absurd hand.2 (Nat.not_lt_zero _)]
    rfl
  | succ n ih =>
    simp only [QueueAtomic.popLoop, h]
    by_cases hempty : L.sub front back = L.size_limit
    · rw [if_pos hempty, if_neg fun hand => hand.1 hempty]
    · rw [if_neg hempty]
      by_cases hzero : fails = 0
      · rw [if_pos hzero, if_pos ⟨hempty, by omega⟩]
      · have hiff : fails - 1 < n ↔ fails < n + 1 := by omega
        rw [if_neg hzero, ih]
        simp only [hiff]

/-! ## The queue and the list -/

/-- The queue holds the elements of the list, after `taken` others, and its offsets have not come
round. -/
structure Rel (L : Layout) (q : QueueAtomic α) (l : List α) (taken : ℕ) : Prop where
  offsets : Holds L q (taken + l.length) (L.size_limit + taken)
  length : l.length ≤ L.size_limit
  items : ∀ i x, l[i]? = some x → q.vec ((taken + i) % L.size_limit) = x

namespace Rel
variable {l : List α} {taken : ℕ}

theorem init [Zero α] (L : Layout) : Rel L (QueueAtomic.init L : QueueAtomic α) [] 0 :=
  ⟨.init L, Nat.zero_le _, fun _ _ h => (nomatch h)⟩

theorem sub_eq (h : Rel L q l taken) :
    L.sub (L.size_limit + taken) (taken + l.length) = L.size_limit - l.length := by
  have hlt := h.offsets.front_lt.trans L.offset_limit_lt
  have hle := h.length
  rw [L.sub_of_le (by omega) hlt]
  omega

theorem agrees (h : Rel L q l taken) : Agrees L q l := by
  have hle := h.length
  have hpos := L.size_limit_pos
  have hlimit := L.size_limit_lt.trans L.offset_limit_lt
  have hfront := h.offsets.front_lt.trans L.offset_limit_lt
  refine ⟨?_, ?_, ?_⟩
  · rw [QueueAtomic.size, h.offsets.front_eq, h.offsets.back_eq, if_neg (by omega), Layout.sub,
      Nat.mod_add_mod]
    have hsum : L.size_limit + 2 ^ L.atomic_bits - (L.size_limit + taken) + (taken + l.length) =
        l.length + 2 ^ L.atomic_bits := by omega
    rw [hsum, Nat.add_mod_right, Nat.mod_eq_of_lt (by omega)]
  · rw [QueueAtomic.empty, decide_eq_true_iff, h.offsets.front_eq, h.offsets.back_eq, h.sub_eq,
      ← List.length_eq_zero_iff]
    omega
  · rw [QueueAtomic.full, decide_eq_true_iff, h.offsets.front_eq, h.offsets.back_eq]
    omega

theorem push_back_eq (h : Rel L q l taken) (elem : α) (fails : ℕ) :
    q.push_back L elem fails =
      if l.length < L.size_limit ∧ fails < spin_limit then
        (q.pushed L elem (taken + l.length), true)
      else (q, false) := by
  have hle := h.length
  have hiff : L.size_limit + taken ≠ taken + l.length ↔ l.length < L.size_limit := by omega
  rw [QueueAtomic.push_back, h.offsets.front_eq, pushLoop_eq h.offsets.unpack_back]
  simp only [hiff]

theorem pop_front_eq [Zero α] (h : Rel L q l taken) (fails : ℕ) :
    q.pop_front L fails =
      if l ≠ [] ∧ fails < spin_limit then q.popped L (L.size_limit + taken) else (q, 0) := by
  have hle := h.length
  have hpos := L.size_limit_pos
  have hiff : L.size_limit - l.length ≠ L.size_limit ↔ l ≠ [] := by
    rw [Ne, Ne, ← List.length_eq_zero_iff]
    omega
  rw [QueueAtomic.pop_front, h.offsets.back_eq, popLoop_eq h.offsets.unpack_front, h.sub_eq]
  simp only [hiff]

/-- Two of as many numbers in a row as the modulus have different remainders. -/
theorem mod_ne {a i n m : ℕ} (hi : i < n) (hn : n < m) : (a + i) % m ≠ (a + n) % m := by
  intro h
  have hmod : i ≡ n [MOD m] := Nat.ModEq.add_left_cancel' a h
  rw [Nat.ModEq, Nat.mod_eq_of_lt (hi.trans hn), Nat.mod_eq_of_lt hn] at hmod
  exact hi.ne hmod

theorem pushed (h : Rel L q l taken) (elem : α) (hroom : l.length < L.size_limit) :
    Rel L (q.pushed L elem (taken + l.length)) (l ++ [elem]) taken := by
  have hoffsets := h.offsets.pushed elem
  have hlt := h.offsets.front_lt
  rw [Nat.mod_eq_of_lt (by omega)] at hoffsets
  have hlength : (l ++ [elem]).length = l.length + 1 := List.length_append
  refine ⟨?_, ?_, fun i x hx => ?_⟩
  · rw [hlength, ← Nat.add_assoc]
    exact hoffsets
  · rw [hlength]
    exact hroom
  · have hpos : (taken + l.length) &&& (L.size_limit - 1) = (taken + l.length) % L.size_limit :=
      Layout.mask_eq _ _
    simp only [QueueAtomic.pushed, hpos, Function.update_apply]
    rcases Nat.lt_or_ge i l.length with hi | hi
    · rw [List.getElem?_append_left hi] at hx
      rw [if_neg (mod_ne hi hroom)]
      exact h.items i x hx
    · rw [List.getElem?_append_right hi, List.getElem?_singleton] at hx
      split_ifs at hx with hzero
      have heq : i = l.length := by omega
      rw [if_pos (by rw [heq])]
      exact Option.some.inj hx

theorem popped_value {x : α} (h : Rel L q (x :: l) taken) :
    (q.popped L (L.size_limit + taken)).2 = x := by
  have hpos : (L.size_limit + taken) &&& (L.size_limit - 1) = (taken + 0) % L.size_limit := by
    rw [Nat.add_zero, ← Nat.add_mod_left]
    exact Layout.mask_eq _ _
  simp only [QueueAtomic.popped, hpos]
  exact h.items 0 x rfl

theorem popped {x : α} (h : Rel L q (x :: l) taken)
    (hroom : L.size_limit + (taken + 1) < L.offset_limit) :
    Rel L (q.popped L (L.size_limit + taken)).1 l (taken + 1) := by
  have hoffsets := h.offsets.popped
  have hlt : L.size_limit + (taken + 1) < 2 ^ L.offset_bits := hroom
  rw [Nat.add_assoc, Nat.mod_eq_of_lt hlt] at hoffsets
  have hback : taken + (x :: l).length = taken + 1 + l.length := by
    rw [List.length_cons]
    omega
  rw [hback] at hoffsets
  refine ⟨hoffsets, Nat.le_of_succ_le h.length, fun i y hy => ?_⟩
  have hitem := h.items (i + 1) y hy
  rwa [← Nat.add_assoc, Nat.add_right_comm] at hitem

/-- The front's offset comes round before the back's: the size is that of all elements so far. -/
theorem not_agrees_popped {x : α} (h : Rel L q (x :: l) taken)
    (hround : ¬L.size_limit + (taken + 1) < L.offset_limit) :
    ¬Agrees L (q.popped L (L.size_limit + taken)).1 l := by
  intro hagrees
  have hoffsets := h.offsets.popped
  have hlt := h.offsets.front_lt
  have hlimit : L.offset_limit = 2 ^ L.offset_bits := rfl
  have hfull : L.size_limit + taken + 1 = 2 ^ L.offset_bits := by omega
  rw [hfull, Nat.mod_self] at hoffsets
  have hsize := hagrees.size
  have hsmall := L.size_limit_lt
  rw [QueueAtomic.size, hoffsets.front_eq, hoffsets.back_eq, List.length_cons,
    if_pos (by omega)] at hsize
  have hpow : L.size_limit * 2 ≤ 2 ^ L.offset_bits := by
    rw [Layout.size_limit, ← Nat.pow_succ]
    exact Nat.pow_le_pow_right (by omega) L.limit_lt
  have hpos := L.size_limit_pos
  omega

end Rel

/-! ## Runs -/

theorem Right.agrees [Zero α] {l : List α} {ops : List (Op α)} (h : Right L q l ops) :
    Agrees L q l := by
  cases ops with
  | nil => exact h
  | cons op ops => exact h.1

namespace Rel
variable [Zero α] {l : List α} {taken : ℕ} {elem : α} {fails : ℕ} {ops : List (Op α)}

theorem right_push_room (h : Rel L q l taken) (hroom : l.length < L.size_limit) :
    Right L q l (.push_back elem fails :: ops) ↔
      fails < spin_limit ∧ Right L (q.pushed L elem (taken + l.length)) (l ++ [elem]) ops := by
  have hfifo : (Op.push_back elem fails).fifo L.size_limit l = (l ++ [elem], .inl true) :=
    if_pos hroom
  have hallowed : ¬(Op.push_back elem fails).Refused L.size_limit l := Nat.not_le_of_lt hroom
  simp only [Right, QueueAtomic.step, h.push_back_eq, hfifo]
  by_cases hfails : fails < spin_limit
  · rw [if_pos ⟨hroom, hfails⟩]
    exact ⟨fun hright => ⟨hfails, hright.2.2.2⟩,
      fun hright => ⟨h.agrees, rfl, fun hrefused => absurd hrefused hallowed, hright.2⟩⟩
  · rw [if_neg fun hand => hfails hand.2]
    exact ⟨fun hright => absurd hright.2.1 (by simp), fun hright => absurd hright.1 hfails⟩

theorem right_push_full (h : Rel L q l taken) (hfull : ¬l.length < L.size_limit) :
    Right L q l (.push_back elem fails :: ops) ↔ Right L q l ops := by
  have hfifo : (Op.push_back elem fails).fifo L.size_limit l = (l, .inl false) := if_neg hfull
  simp only [Right, QueueAtomic.step, h.push_back_eq, hfifo]
  rw [if_neg fun hand => hfull hand.1]
  exact ⟨fun hright => hright.2.2.2, fun hright => ⟨h.agrees, rfl, fun _ => rfl, hright⟩⟩

theorem right_pop_empty (h : Rel L q [] taken) :
    Right L q [] (.pop_front fails :: ops) ↔ Right L q [] ops := by
  simp only [Right, QueueAtomic.step, h.pop_front_eq]
  rw [if_neg fun hand => hand.1 rfl]
  exact ⟨fun hright => hright.2.2.2, fun hright => ⟨h.agrees, rfl, fun _ => rfl, hright⟩⟩

theorem right_pop_cons {x : α} (h : Rel L q (x :: l) taken) :
    Right L q (x :: l) (.pop_front fails :: ops) ↔
      fails < spin_limit ∧ Right L (q.popped L (L.size_limit + taken)).1 l ops := by
  simp only [Right, QueueAtomic.step, h.pop_front_eq]
  by_cases hfails : fails < spin_limit
  · rw [if_pos ⟨List.cons_ne_nil x l, hfails⟩]
    refine ⟨fun hright => ⟨hfails, hright.2.2.2⟩, fun hright => ⟨h.agrees, ?_, ?_, hright.2⟩⟩
    · exact congrArg Sum.inr h.popped_value
    · exact fun hrefused => absurd hrefused (List.cons_ne_nil x l)
  · rw [if_neg fun hand => hfails hand.2]
    refine ⟨fun hright => ?_, fun hright => absurd hright.1 hfails⟩
    -- the call has left the queue as it was, one longer than the list
    have hlater : q.size L = l.length := hright.2.2.2.agrees.size
    rw [h.agrees.size, List.length_cons] at hlater
    omega

/-- By induction over the calls, from any point at which the offsets have not come round. -/
theorem right_iff (h : Rel L q l taken) : Right L q l ops ↔ Meets L l taken ops := by
  induction ops generalizing q l taken with
  | nil => exact ⟨fun _ => trivial, fun _ => h.agrees⟩
  | cons op ops ih =>
    match op with
    | .push_back elem fails =>
      by_cases hroom : l.length < L.size_limit
      · rw [h.right_push_room hroom, ih (h.pushed elem hroom), Meets, Op.fifo, if_pos hroom]
        simp only [hroom, true_imp_iff]
      · rw [h.right_push_full hroom, ih h, Meets, Op.fifo, if_neg hroom]
        simp only [hroom, false_imp_iff, true_and]
    | .pop_front fails =>
      match l, h with
      | [], h => rw [h.right_pop_empty, ih h, Meets]
      | x :: l, h =>
        rw [h.right_pop_cons, Meets]
        by_cases hround : L.size_limit + (taken + 1) < L.offset_limit
        · rw [ih (h.popped hround)]
          simp only [hround, true_and]
        · refine ⟨fun hright => ?_, fun hmeets => absurd hmeets.2.1 hround⟩
          exact absurd hright.2.agrees (h.not_agrees_popped hround)

end Rel

/-- A new queue is the bounded queue over a run of calls exactly where its offsets do not come
round and no call gives up. -/
theorem queue_right_iff [Zero α] (L : Layout) (ops : List (Op α)) :
    Right L (QueueAtomic.init L) [] ops ↔ Meets L [] 0 ops :=
  (Rel.init L).right_iff

end

/-! ## A run that comes round -/

/-- An element goes in and out. -/
def cycles : ℕ → List (Op ℕ)
  | 0 => []
  | n + 1 => .push_back 1 0 :: .pop_front 0 :: cycles n

theorem cycles_taken {L : Layout} {n taken : ℕ} (hmeets : Meets L [] taken (cycles (n + 1))) :
    L.size_limit + taken + (n + 1) < L.offset_limit := by
  induction n generalizing taken with
  | zero =>
    have hroom : ([] : List ℕ).length < L.size_limit := L.size_limit_pos
    rw [cycles, Meets, Op.fifo, if_pos hroom] at hmeets
    have hlast := hmeets.2.2.1
    omega
  | succ n ih =>
    have hroom : ([] : List ℕ).length < L.size_limit := L.size_limit_pos
    rw [cycles, Meets, Op.fifo, if_pos hroom] at hmeets
    have hrest := ih hmeets.2.2.2
    omega

/-- With the default 48 bits, and room for one element, the last of `2 ^ 48 - 1` rounds fails. -/
theorem cycles_not_right :
    ¬∀ (L : Layout) (ops : List (Op ℕ)), Right L (QueueAtomic.init L) [] ops := by
  intro hall
  have hright := hall (defaultLayout 0 (by decide)) (cycles (2 ^ 48 - 2 + 1))
  have hlast := cycles_taken ((Rel.init _).right_iff.mp hright)
  have hlimit : (defaultLayout 0 (by decide)).size_limit = 1 := rfl
  have hoffsets : (defaultLayout 0 (by decide)).offset_limit = 2 ^ 48 := rfl
  omega

end RvCkpt.Util
