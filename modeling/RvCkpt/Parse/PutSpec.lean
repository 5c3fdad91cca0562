import RvCkpt.Parse.Reserve

/-! # What `put` changes

The bytes and the marks of the range, and the pages that the range meets. An empty range within a
page is the one that a page is made for all the same.
-/

namespace RvCkpt.Parse
open ByteMem
set_option autoImplicit false

namespace PageMap

/-! ## Exact puts -/

/-- The byte at an address; a page that is missing would be made of zeros. -/
def byteAt (m : PageMap) (a : ℕ) : Byte := (m.getItem (a / PAGE_SIZE)).data (a % PAGE_SIZE)

/-- The addresses of the data. -/
def InRange (addr : ℕ) (data : List Byte) (a : ℕ) : Prop := addr ≤ a ∧ a < addr + data.length

/-- `put` changes the range to the data, marks it, makes the pages that it meets and leaves the rest
alone; nothing is written behind the end of a page. -/
structure PutRight (m : PageMap) (addr : ℕ) (data : List Byte) : Prop where
  given : ∀ i b, data[i]? = some b → (m.put addr data).byteAt (addr + i) = b
  kept : ∀ a, ¬ InRange addr data a → (m.put addr data).byteAt a = m.byteAt a
  marked : ∀ a, (m.put addr data).Used a ↔ m.Used a ∨ InRange addr data a
  pages : ∀ k, k ∈ m.put addr data ↔ k ∈ m ∨ ∃ a, InRange addr data a ∧ a / PAGE_SIZE = k
  inside : ∀ k i, PAGE_SIZE ≤ i →
    ((m.put addr data).getItem k).data i = (m.getItem k).data i ∧
      ((m.put addr data).getItem k).isFree i = (m.getItem k).isFree i

/-- When a put is exact. -/
def PutMeets (m : PageMap) (addr : ℕ) (data : List Byte) : Prop :=
  data ≠ [] ∨ addr % PAGE_SIZE = 0 ∨ addr / PAGE_SIZE ∈ m

/-! ## The parts of the data -/

/-- The pages that the loop goes over. -/
def Visits (addr : ℕ) (data : List Byte) (k : ℕ) : Prop :=
  addr / PAGE_SIZE ≤ k ∧ k < (addr + data.length + PAGE_SIZE - 1) / PAGE_SIZE

instance (addr : ℕ) (data : List Byte) (k : ℕ) : Decidable (Visits addr data k) :=
  inferInstanceAs (Decidable (_ ∧ _))

variable {m : PageMap} {addr : ℕ} {data : List Byte}

theorem lookup_put (k : ℕ) :
    (m.put addr data).lookup k =
      if Visits addr data k then
        some ((m.getItem k).put (partOf addr data k).1 (partOf addr data k).2)
      else m.lookup k :=
  put_lookup m addr data k

theorem getItem_put (k : ℕ) :
    (m.put addr data).getItem k =
      if Visits addr data k then (m.getItem k).put (partOf addr data k).1 (partOf addr data k).2
      else m.getItem k := by
  rw [getItem, lookup_put]
  by_cases hk : Visits addr data k
  · rw [if_pos hk, if_pos hk, Option.getD_some]
  · rw [if_neg hk, if_neg hk, getItem]

/-- The assertion of `Page.put` holds. -/
theorem partOf_fits (addr : ℕ) (data : List Byte) (k : ℕ) :
    (partOf addr data k).1 + (partOf addr data k).2.length ≤ PAGE_SIZE := by
  simp only [partOf, List.length_drop, List.length_take]
  unfold PAGE_SIZE
  omega

theorem getD_drop_take {α : Type} (l : List α) {b e j : ℕ} (h : b + j < e) (d : α) :
    ((l.take e).drop b).getD j d = l.getD (b + j) d := by
  rw [List.getD_eq_getElem?_getD, List.getD_eq_getElem?_getD, List.getElem?_drop,
    List.getElem?_take_of_lt h]

theorem partOf_getD {a : ℕ} (ha : InRange addr data a) :
    (partOf addr data (a / PAGE_SIZE)).2.getD
        (a % PAGE_SIZE - (partOf addr data (a / PAGE_SIZE)).1) 0 = data.getD (a - addr) 0 := by
  have hsum : max addr (a / PAGE_SIZE * PAGE_SIZE) - addr +
      (a % PAGE_SIZE - max addr (a / PAGE_SIZE * PAGE_SIZE) % PAGE_SIZE) = a - addr := by
    unfold InRange PAGE_SIZE at *
    omega
  have hlt : a - addr < min (addr + data.length) ((a / PAGE_SIZE + 1) * PAGE_SIZE) - addr := by
    unfold InRange PAGE_SIZE at *
    omega
  rw [← hsum] at hlt
  simp only [partOf]
  rw [getD_drop_take data hlt, hsum]

/-! ## Bytes and marks -/

theorem visits_of_inRange {a : ℕ} (ha : InRange addr data a) :
    Visits addr data (a / PAGE_SIZE) := by
  unfold InRange Visits PAGE_SIZE at *
  omega

theorem byteAt_put_of_inRange {a : ℕ} (ha : InRange addr data a) :
    (m.put addr data).byteAt a = data.getD (a - addr) 0 := by
  have hk := visits_of_inRange ha
  have hin := (partOf_bounds rfl hk.1).mpr ha
  rw [byteAt, getItem_put, if_pos hk]
  exact (Mem.writeBytes_of_mem hin).trans (partOf_getD ha)

theorem byteAt_put_of_not_inRange {a : ℕ} (ha : ¬ InRange addr data a) :
    (m.put addr data).byteAt a = m.byteAt a := by
  rw [byteAt, byteAt, getItem_put]
  by_cases hk : Visits addr data (a / PAGE_SIZE)
  · have hout := mt (partOf_bounds rfl hk.1).mp ha
    rw [if_pos hk, Page.put]
    exact Mem.writeBytes_of_not_mem (by omega)
  · rw [if_neg hk]

theorem put_inside {k i : ℕ} (hi : PAGE_SIZE ≤ i) :
    ((m.put addr data).getItem k).data i = (m.getItem k).data i ∧
      ((m.put addr data).getItem k).isFree i = (m.getItem k).isFree i := by
  rw [getItem_put]
  by_cases hk : Visits addr data k
  · have hfits := partOf_fits addr data k
    have hout : ¬ ((partOf addr data k).1 ≤ i ∧
        i < (partOf addr data k).1 + (partOf addr data k).2.length) := by omega
    rw [if_pos hk]
    refine ⟨Mem.writeBytes_of_not_mem (by omega), ?_⟩
    rw [put_isFree, decide_eq_false hout, Bool.not_false, Bool.and_true]
  · rw [if_neg hk]
    exact ⟨rfl, rfl⟩

/-! ## Pages -/

theorem mem_put_iff (k : ℕ) : k ∈ m.put addr data ↔ k ∈ m ∨ Visits addr data k := by
  rw [← AList.lookup_isSome, ← AList.lookup_isSome, lookup_put]
  by_cases hk : Visits addr data k
  · rw [if_pos hk]
    exact iff_of_true rfl (.inr hk)
  · rw [if_neg hk, or_iff_left hk]

/-- The loop goes over the pages that the range meets, and for an empty range over the page that it
is in. -/
theorem visits_iff (k : ℕ) :
    Visits addr data k ↔ (∃ a, InRange addr data a ∧ a / PAGE_SIZE = k) ∨
      data = [] ∧ addr % PAGE_SIZE ≠ 0 ∧ addr / PAGE_SIZE = k := by
  constructor
  · intro hk
    by_cases hdata : data = []
    · refine .inr ⟨hdata, ?_⟩
      rw [Visits, hdata, List.length_nil] at hk
      unfold PAGE_SIZE at *
      omega
    · have hpos := List.length_pos_of_ne_nil hdata
      refine .inl ⟨max addr (k * PAGE_SIZE), ?_, ?_⟩
      · unfold Visits InRange PAGE_SIZE at *
        omega
      · unfold Visits PAGE_SIZE at *
        omega
  · rintro (⟨a, ha, rfl⟩ | ⟨rfl, hoff, rfl⟩)
    · exact visits_of_inRange ha
    · rw [Visits, List.length_nil]
      unfold PAGE_SIZE at *
      omega

theorem pages_right_iff :
    (∀ k, k ∈ m.put addr data ↔ k ∈ m ∨ ∃ a, InRange addr data a ∧ a / PAGE_SIZE = k) ↔
      PutMeets m addr data := by
  simp only [mem_put_iff, visits_iff]
  constructor
  · intro h
    by_contra hnot
    simp only [PutMeets, not_or, ne_eq, not_not] at hnot
    obtain ⟨hdata, hoff, hmem⟩ := hnot
    rcases (h (addr / PAGE_SIZE)).mp (.inr (.inr ⟨hdata, hoff, rfl⟩)) with hin | ⟨a, ha, -⟩
    · exact hmem hin
    · rw [InRange, hdata, List.length_nil] at ha
      omega
  · intro h k
    refine or_congr_right' fun hk => or_iff_left ?_
    rintro ⟨hdata, hoff, rfl⟩
    rcases h with h | h | h
    · exact h hdata
    · exact hoff h
    · exact hk h

/-- **When a put is exact**: every page map, address and string of bytes. -/
theorem put_right_iff (m : PageMap) (addr : ℕ) (data : List Byte) :
    PutRight m addr data ↔ PutMeets m addr data := by
  refine ⟨fun h => pages_right_iff.mp h.pages, fun h => ⟨fun i b hi => ?_, fun a ha => ?_,
    fun a => put_used m addr data a, pages_right_iff.mpr h, fun k i hi => put_inside hi⟩⟩
  · obtain ⟨hlt, -⟩ := List.getElem?_eq_some_iff.mp hi
    rw [byteAt_put_of_inRange ⟨Nat.le_add_right _ _, by omega⟩, Nat.add_sub_cancel_left,
      List.getD_eq_getElem?_getD, hi, Option.getD_some]
  · exact byteAt_put_of_not_inRange ha

/-- No byte is put at address 1, and page 0 is made. -/
theorem emptyPut_not_right : ¬ PutRight ∅ 1 [] := by
  intro h
  rcases pages_right_iff.mp h.pages with hdata | hoff | hmem
  · exact hdata rfl
  · exact absurd hoff (by decide)
  · exact AList.notMem_empty _ hmem

end PageMap

end RvCkpt.Parse
