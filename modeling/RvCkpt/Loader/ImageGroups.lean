import RvCkpt.Loader.LoadSpec
import RvCkpt.Parse.FreeList

/-! # What the writers group

Both writers of an image go through the pages in order and put each into the group before it, or
start a group with it. A group is a segment of the image.
-/

namespace RvCkpt.Loader
open ByteMem Text Parse Image
set_option autoImplicit false

/-! ## Groups of pages -/

/-- Pages with their addresses. -/
def addressed : ℕ → List (List Byte) → List (ℕ × List Byte)
  | _, [] => []
  | addr, page :: pages => (addr, page) :: addressed (addr + 4096) pages

def elems (g : Group) : List (ℕ × List Byte) := addressed g.1 g.2

theorem addressed_concat (addr : ℕ) (pages : List (List Byte)) (page : List Byte) :
    addressed addr (pages ++ [page]) =
      addressed addr pages ++ [(addr + pages.length * 4096, page)] := by
  induction pages generalizing addr with
  | nil => rfl
  | cons first pages ih =>
    rw [List.cons_append, addressed, ih, addressed, List.cons_append, List.length_cons,
      Nat.succ_mul, Nat.add_assoc, Nat.add_comm 4096]

theorem addressed_numbered (pn : ℕ) (pages : List (List Byte)) :
    addressed (pn * PAGE_SIZE) pages =
      (numbered pn pages).map fun page => (page.1 * PAGE_SIZE, page.2) := by
  induction pages generalizing pn with
  | nil => rfl
  | cons first pages ih =>
    rw [addressed, numbered, List.map_cons, ← ih, Nat.succ_mul]
    rfl

/-- A page as the writers have it: at a page boundary, and of its size. -/
structure Proper (page : ℕ × List Byte) : Prop where
  aligned : page.1 % PAGE_SIZE = 0
  sized : page.2.length = PAGE_SIZE

/-- The pages that may come after `page`. -/
def Before (page page' : ℕ × List Byte) : Prop := page.1 + PAGE_SIZE ≤ page'.1 ∧ Proper page'

structure WholeGroup (g : Group) : Prop where
  some_page : g.2 ≠ []
  aligned : g.1 % PAGE_SIZE = 0
  sized : ∀ page ∈ g.2, page.length = PAGE_SIZE

theorem wholeGroup_start {page : ℕ × List Byte} (h : Proper page) : WholeGroup (startGroup page) :=
  ⟨List.cons_ne_nil _ _, h.aligned, fun page' h' => by rw [List.mem_singleton.mp h', h.sized]⟩

/-- What comes after all pages of a group comes after its end. -/
theorem end_le {g : Group} (hg : g.2 ≠ []) {page : ℕ × List Byte}
    (h : ∀ page' ∈ elems g, Before page' page) :
    g.1 + g.2.length * 4096 ≤ page.1 ∧ Proper page := by
  obtain ⟨init, last, hlast⟩ := List.eq_nil_or_concat' g.2 |>.resolve_left hg
  have hmem : (g.1 + init.length * 4096, last) ∈ elems g := by
    rw [elems, hlast, addressed_concat]
    simp
  obtain ⟨hle, hproper⟩ := h _ hmem
  refine ⟨?_, hproper⟩
  rw [hlast, List.length_append, List.length_singleton, Nat.succ_mul, ← Nat.add_assoc]
  exact hle

theorem push_follows {g : Group} (hg : WholeGroup g) {page : ℕ × List Byte}
    (h : ∀ page' ∈ elems g, Before page' page) (hfollows : follows g page = true) :
    elems (pushPage g page) = elems g ++ [page] ∧ WholeGroup (pushPage g page) := by
  obtain ⟨hend, hproper⟩ := end_le hg.some_page h
  have heq : g.1 + g.2.length * 4096 = page.1 := by
    rw [follows, Bool.not_eq_true', decide_eq_false_iff_not] at hfollows
    omega
  refine ⟨?_, ?_⟩
  · rw [elems, pushPage, addressed_concat, heq]
    rfl
  · refine ⟨by simp [pushPage], hg.aligned, fun page' h' => ?_⟩
    rcases List.mem_append.mp h' with h' | h'
    · exact hg.sized page' h'
    · rw [List.mem_singleton.mp h', hproper.sized]

/-- Groups that only ever take the page behind them. -/
theorem collect_pages {joins : Group → ℕ × List Byte → Bool}
    (hjoins : ∀ g page, joins g page = true → follows g page = true) {P : Group → Prop}
    (hpush : ∀ g page, joins g page = true → P (pushPage g page))
    {pages : List (ℕ × List Byte)} (hproper : ∀ page ∈ pages, Proper page)
    (hstart : ∀ page ∈ pages, P (startGroup page)) (hsorted : pages.Pairwise Before) :
    (Groups.collect startGroup pushPage joins pages).flatMap elems = pages ∧
      ∀ g ∈ Groups.collect startGroup pushPage joins pages, WholeGroup g ∧ P g := by
  refine Groups.collect_spec (P := fun g => WholeGroup g ∧ P g) (R := Before) (fun page => rfl)
    ?_ (fun page h => ⟨wholeGroup_start (hproper page h), hstart page h⟩) hsorted
  intro g page hg h hj
  obtain ⟨helems, hwhole⟩ := push_follows hg.1 h (hjoins g page hj)
  exact ⟨helems, hwhole, hpush g page hj⟩

/-! ## Segments of groups -/

def segOf (stored : Group → List Byte) (g : Group) : Segment := ⟨g.1 / PAGE_SIZE, g.2, stored g⟩

section
variable {stored : Group → List Byte} {g : Group} (hg : WholeGroup g)

include hg

theorem segOf_addr : (segOf stored g).addr = g.1 :=
  Nat.div_mul_cancel (Nat.dvd_of_mod_eq_zero hg.aligned)

theorem segOf_whole : (segOf stored g).Whole := ⟨hg.some_page, hg.sized⟩

theorem elems_contents :
    elems g = (segOf stored g).contents.map fun page => (page.1 * PAGE_SIZE, page.2) := by
  have haddr : g.1 / PAGE_SIZE * PAGE_SIZE = g.1 :=
    Nat.div_mul_cancel (Nat.dvd_of_mod_eq_zero hg.aligned)
  have hcontents : (segOf stored g).contents = numbered (g.1 / PAGE_SIZE) g.2 := rfl
  rw [hcontents, ← addressed_numbered, haddr, elems]

end

theorem fileOf_segOf (stored : Group → List Byte) (gs : List Group) :
    fileOf (gs.map (segOf stored)) = gs.flatMap stored := by
  rw [fileOf, List.flatMap_map]
  rfl

theorem groupTable_segOf {stored : Group → List Byte} {length : Group → ℕ} {gs : List Group}
    (hwhole : ∀ g ∈ gs, WholeGroup g) (hlength : ∀ g ∈ gs, length g = (stored g).length)
    (offset : ℕ) : groupTable length offset gs = tableOf offset (gs.map (segOf stored)) := by
  induction gs generalizing offset with
  | nil => rfl
  | cons g gs ih =>
    have haddr : (segOf stored g).addr = g.1 := segOf_addr (hwhole g (by simp))
    rw [groupTable, List.map_cons, tableOf, haddr, hlength g (by simp),
      ih (fun g' h' => hwhole g' (by simp [h'])) (fun g' h' => hlength g' (by simp [h']))]
    rfl

/-- The numbers of the pages come back from their addresses. -/
theorem contents_of_elems {stored : Group → List Byte} {gs : List Group}
    (hwhole : ∀ g ∈ gs, WholeGroup g) :
    (gs.map (segOf stored)).flatMap Segment.contents =
      (gs.flatMap elems).map fun page => (page.1 / PAGE_SIZE, page.2) := by
  induction gs with
  | nil => rfl
  | cons g gs ih =>
    have hself : (segOf stored g).contents.map ((fun page => (page.1 / PAGE_SIZE, page.2)) ∘
        fun page => (page.1 * PAGE_SIZE, page.2)) = (segOf stored g).contents := by
      refine (List.map_congr_left fun page _ => ?_).trans (List.map_id _)
      rw [Function.comp_apply, Nat.mul_div_cancel _ (by decide)]
      rfl
    have helems : elems g = (segOf stored g).contents.map fun page =>
        (page.1 * PAGE_SIZE, page.2) := elems_contents (hwhole g (by simp))
    rw [List.map_cons, List.flatMap_cons, List.flatMap_cons, List.map_append,
      ih fun g' h' => hwhole g' (by simp [h']), helems, List.map_map, hself]

/-- The data of a group as it is. -/
def rawOf (g : Group) : List Byte := g.2.flatten

theorem segOf_raw (g : Group) : (segOf rawOf g).Raw := rfl

theorem rawOf_length {g : Group} (hg : WholeGroup g) :
    (rawOf g).length = g.2.length * PAGE_SIZE :=
  (show (segOf rawOf g).Whole from segOf_whole hg).flatten_length

/-! ## The runs of a page map -/

/-- The run of a group, with the number of its first page. -/
def runOf (g : Group) : ℕ × ℕ := (g.1 / PAGE_SIZE, g.2.length)

/-- What `dump` remembers of its runs. -/
def Remembers (gs : List Group) (lastPn : Option ℕ) (rest : List (ℕ × List Byte)) : Prop :=
  (gs = [] ∧ lastPn = none) ∨ ∃ init g, gs = init ++ [g] ∧ WholeGroup g ∧
    lastPn = some (g.1 / PAGE_SIZE + g.2.length - 1) ∧
    ∀ page ∈ rest, g.1 + g.2.length * 4096 ≤ page.1

theorem mergeStep_add {gs : List Group} {lastPn : Option ℕ} {page : ℕ × List Byte}
    {rest : List (ℕ × List Byte)} (h : Remembers gs lastPn (page :: rest)) (hpage : Proper page)
    (hrest : ∀ page' ∈ rest, Before page page') :
    ∃ lastPn', PageMap.mergeStep (gs.map runOf, lastPn) (page.1 / PAGE_SIZE) =
        ((Groups.add startGroup pushPage follows gs page).map runOf, lastPn') ∧
      Remembers (Groups.add startGroup pushPage follows gs page) lastPn' rest := by
  have haligned := hpage.aligned
  have hnew : ∀ init : List Group,
      Remembers (init ++ [startGroup page]) (some (page.1 / PAGE_SIZE)) rest := by
    intro init
    refine .inr ⟨init, _, rfl, wholeGroup_start hpage, rfl, fun page' h' => ?_⟩
    have hbefore := (hrest page' h').1
    rw [startGroup, List.length_singleton, Nat.one_mul]
    exact hbefore
  obtain ⟨rfl, rfl⟩ | ⟨init, g, rfl, hg, rfl, hend⟩ := h
  · exact ⟨some (page.1 / PAGE_SIZE), rfl, hnew []⟩
  · have hgaligned := hg.aligned
    have hlen := List.length_pos_of_ne_nil hg.some_page
    have hle := hend page (by simp)
    have hadd : Groups.add startGroup pushPage follows (init ++ [g]) page =
        if follows g page then init ++ [pushPage g page] else init ++ [g] ++ [startGroup page] := by
      rw [Groups.add, List.getLast?_concat]
      dsimp only
      rw [List.dropLast_concat]
    have hstep : PageMap.mergeStep ((init ++ [g]).map runOf,
        some (g.1 / PAGE_SIZE + g.2.length - 1)) (page.1 / PAGE_SIZE) =
        if g.1 / PAGE_SIZE + g.2.length - 1 + 1 < page.1 / PAGE_SIZE then
          ((init ++ [g]).map runOf ++ [(page.1 / PAGE_SIZE, 1)], some (page.1 / PAGE_SIZE))
        else (((init ++ [g]).map runOf).modifyLast fun run => (run.1, run.2 + 1),
          some (page.1 / PAGE_SIZE)) := rfl
    rw [hadd, hstep]
    unfold PAGE_SIZE at haligned hgaligned
    by_cases hgap : g.1 + g.2.length * 4096 < page.1
    · have hfollows : follows g page = false := by
        rw [follows, decide_eq_true hgap]
        rfl
      have hlt : g.1 / PAGE_SIZE + g.2.length - 1 + 1 < page.1 / PAGE_SIZE := by
        unfold PAGE_SIZE
        omega
      rw [hfollows, if_neg Bool.false_ne_true, if_pos hlt]
      refine ⟨_, ?_, hnew (init ++ [g])⟩
      simp only [List.map_append]
      rfl
    · have hfollows : follows g page = true := by
        rw [follows, decide_eq_false hgap]
        rfl
      have hlt : ¬ g.1 / PAGE_SIZE + g.2.length - 1 + 1 < page.1 / PAGE_SIZE := by
        unfold PAGE_SIZE
        omega
      have hpn : page.1 / PAGE_SIZE = g.1 / PAGE_SIZE + (g.2.length + 1) - 1 := by
        unfold PAGE_SIZE
        omega
      have hpushlen : (pushPage g page).2.length = g.2.length + 1 := by
        rw [pushPage, List.length_append, List.length_singleton]
      rw [hfollows, if_pos rfl, if_neg hlt, List.map_append, List.map_singleton,
        List.modifyLast_concat]
      refine ⟨some (page.1 / PAGE_SIZE), ?_, .inr ⟨init, pushPage g page, rfl,
        ⟨by simp [pushPage], hg.aligned, fun page' h' => ?_⟩, ?_, fun page' h' => ?_⟩⟩
      · rw [List.map_append, List.map_singleton, runOf, runOf, hpushlen]
        rfl
      · rcases List.mem_append.mp h' with h' | h'
        · exact hg.sized page' h'
        · rw [List.mem_singleton.mp h', hpage.sized]
      · rw [hpushlen, hpn]
        rfl
      · have hbefore := (hrest page' h').1
        rw [hpushlen]
        unfold PAGE_SIZE at hbefore
        have hfirst : (pushPage g page).1 = g.1 := rfl
        omega

theorem mergeRuns_collect {pages : List (ℕ × List Byte)} (hproper : ∀ page ∈ pages, Proper page)
    (hsorted : pages.Pairwise Before) :
    PageMap.mergeRuns (pages.map fun page => page.1 / PAGE_SIZE) =
      (Groups.collect startGroup pushPage follows pages).map runOf := by
  have hfold : ∀ (pages : List (ℕ × List Byte)) (gs : List Group) (lastPn : Option ℕ),
      Remembers gs lastPn pages → (∀ page ∈ pages, Proper page) → pages.Pairwise Before →
      ((pages.map fun page => page.1 / PAGE_SIZE).foldl PageMap.mergeStep
        (gs.map runOf, lastPn)).1 =
        (pages.foldl (Groups.add startGroup pushPage follows) gs).map runOf := by
    intro pages
    induction pages with
    | nil => exact fun gs lastPn _ _ _ => rfl
    | cons page pages ih =>
      intro gs lastPn hremembers hproper hsorted
      obtain ⟨hbefore, hsorted⟩ := List.pairwise_cons.mp hsorted
      obtain ⟨lastPn', hstep, hremembers'⟩ :=
        mergeStep_add hremembers (hproper page (by simp)) hbefore
      rw [List.map_cons, List.foldl_cons, hstep, List.foldl_cons]
      exact ih _ _ hremembers' (fun page' h' => hproper page' (by simp [h'])) hsorted
  exact hfold pages [] none (.inl ⟨rfl, rfl⟩) hproper hsorted

end RvCkpt.Loader
