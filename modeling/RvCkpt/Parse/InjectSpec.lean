import RvCkpt.Lib.FreeSpace
import RvCkpt.Parse.Inject
import RvCkpt.Parse.Reserve

/-! # Injected regions are disjoint

Everything that `processOnce` adds to a checkpoint lies in the blocks that were reserved, in the run
of pages found for the replay stack or in the four bytes of a call, and these do not meet.
-/

namespace RvCkpt.Parse
open ByteMem FreeSpace
set_option autoImplicit false

/-! ## Reserved blocks -/

namespace PageMap

theorem makeFreeList_alloc (m : PageMap) : Alloc m.Used m.makeFreeList [] := by
  obtain ⟨hfree, -, hasc⟩ := makeFreeList_ranges m
  exact Alloc.start hfree hasc

/-- A block whose addresses a page map marks in use. -/
def Marked (m : PageMap) (b : Block) : Prop := ∀ a, b.Has a → m.Used a

theorem reserve_alloc {U : ℕ → Prop} {m m' : PageMap} {freeList freeList' : List (ℕ × ℕ)}
    {given : List Block} {baseAddr size nearAddr : ℕ} (h : Alloc U freeList given)
    (hr : m.reserve freeList baseAddr size = some (m', freeList', nearAddr)) :
    Alloc U freeList' (given ++ [⟨nearAddr, size⟩]) ∧ m'.Marked ⟨nearAddr, size⟩ ∧
      ∀ a, m.Used a → m'.Used a := by
  obtain ⟨use, first, last, first', last', hrange, hfree, hlo, -, hhi, hstart, hend, hside, hm⟩ :=
    reserve_spec hr
  subst hfree hm
  refine ⟨h.cut hrange hlo hhi hstart hend hside, ?_, ?_⟩
  · intro a ha
    rw [put_used, List.length_replicate]
    exact .inr ha
  · intro a ha
    rw [put_used]
    exact .inl ha

/-- The pages found by `reservePage` hold no address in use. -/
theorem reservePage_apart (m : PageMap) (size : ℕ) {a : ℕ} (h : m.Used a) :
    ¬ (⟨m.reservePage size * PAGE_SIZE,
      (size + PAGE_SIZE - 1) / PAGE_SIZE * PAGE_SIZE⟩ : Block).Has a := by
  intro ha
  have hlo : m.reservePage size * PAGE_SIZE ≤ a := ha.1
  have hhi : a < m.reservePage size * PAGE_SIZE +
      (size + PAGE_SIZE - 1) / PAGE_SIZE * PAGE_SIZE := ha.2
  rw [← Nat.add_mul] at hhi
  have hbelow := Nat.div_lt_of_lt_mul (hhi.trans_eq (Nat.mul_comm _ _))
  have habove := (Nat.le_div_iff_mul_le (by decide : 0 < PAGE_SIZE)).mpr hlo
  have hspec := reservePage_spec m size (mem_of_used h)
  omega

end PageMap

open PageMap

namespace Checkpoint

/-! ## One near call for each address -/

/-- The calls that come first at their addresses, `seen` aside. -/
def firstCalls : List ℕ → List SysCall → List SysCall
  | _, [] => []
  | seen, call :: rest =>
    if call.addr ∈ seen then firstCalls seen rest
    else call :: firstCalls (seen ++ [call.addr]) rest

theorem firstCalls_unseen {seen : List ℕ} {calls : List SysCall} {call : SysCall}
    (h : call ∈ firstCalls seen calls) : call.addr ∉ seen := by
  induction calls generalizing seen with
  | nil => cases h
  | cons c rest ih =>
    rw [firstCalls] at h
    by_cases hc : c.addr ∈ seen
    · rw [if_pos hc] at h
      exact ih h
    · rw [if_neg hc] at h
      obtain rfl | h := List.mem_cons.mp h
      · exact hc
      · intro hseen
        exact ih h (List.mem_append_left _ hseen)

theorem firstCalls_nodup (seen : List ℕ) (calls : List SysCall) :
    ((firstCalls seen calls).map SysCall.addr).Nodup := by
  induction calls generalizing seen with
  | nil => exact List.nodup_nil
  | cons c rest ih =>
    rw [firstCalls]
    by_cases hc : c.addr ∈ seen
    · rw [if_pos hc]
      exact ih seen
    · rw [if_neg hc, List.map_cons, List.nodup_cons]
      refine ⟨?_, ih _⟩
      intro hmem
      obtain ⟨c', hc', heq⟩ := List.mem_map.mp hmem
      apply firstCalls_unseen hc'
      rw [heq]
      exact List.mem_append_right _ (List.mem_singleton_self _)

theorem firstCalls_addr (seen : List ℕ) (calls : List SysCall) (a : ℕ) :
    a ∈ (firstCalls seen calls).map SysCall.addr ↔
      a ∈ calls.map SysCall.addr ∧ a ∉ seen := by
  induction calls generalizing seen with
  | nil => simp [firstCalls]
  | cons c rest ih =>
    rw [firstCalls]
    by_cases hc : c.addr ∈ seen
    · rw [if_pos hc, ih, List.map_cons, List.mem_cons]
      constructor
      · intro h
        exact ⟨.inr h.1, h.2⟩
      · intro h
        refine ⟨h.1.resolve_left ?_, h.2⟩
        intro heq
        exact h.2 (heq ▸ hc)
    · rw [if_neg hc, List.map_cons, List.mem_cons, ih, List.map_cons, List.mem_cons,
        List.mem_append, List.mem_singleton]
      by_cases heq : a = c.addr
      · subst heq
        simp [hc]
      · simp [heq]

variable (asm : Assembler)

/-- The bytes a near call takes with its jump back. -/
def nearSize (call : SysCall) : ℕ :=
  (asm.nearBin 0 (some 0) (alterFlag call.alterRd)).length + 4

def nearBlock (entry : SysCall × ℕ) : Block := ⟨entry.2, nearSize asm entry.1⟩

def nearEntry (entry : SysCall × ℕ) : ℕ × ℕ := (entry.1.addr, entry.2)

variable {asm}

theorem jump_length (hsize : asm.FixedSize) {offset : ℤ} {code : List Byte}
    (h : MakeHelper.jump asm offset = some code) : code.length = 4 := by
  rw [MakeHelper.jump] at h
  split at h
  · rw [← Option.some.inj h]
    exact hsize.jump offset
  · cases h

theorem near_length (hsize : asm.FixedSize) {retPc nearPc nearBuf : ℕ}
    {farPc alterRd : Option ℕ} {code : List Byte}
    (h : MakeHelper.near asm retPc nearPc nearBuf farPc alterRd = some code) :
    code.length = (asm.nearBin nearBuf farPc (alterFlag alterRd)).length + 4 := by
  obtain ⟨ret, hret, h⟩ := Option.bind_eq_some_iff.mp h
  rw [← Option.some.inj h, List.length_append, jump_length hsize hret]

theorem lookup_isSome_iff (nearMap : NearMap) (a : ℕ) :
    (nearMap.lookup a).isSome ↔ a ∈ nearMap.map Prod.fst := by
  induction nearMap with
  | nil => simp
  | cons entry rest ih =>
    obtain ⟨key, value⟩ := entry
    rw [List.lookup_cons, List.map_cons, List.mem_cons]
    by_cases hkey : a = key
    · subst hkey
      simp
    · rw [show (a == key) = false from beq_false_of_ne hkey]
      simp only [ih, hkey, false_or]

/-- What `reserveNear` has reserved: a block for each first call, all of them marked. -/
theorem reserveNear_spec (hsize : asm.FixedSize) {U : ℕ → Prop} {calls : List SysCall}
    {m m' : PageMap} {freeList freeList' : List (ℕ × ℕ)} {nearMap nearMap' : NearMap}
    {given : List Block} (h : Alloc U freeList given)
    (hr : reserveNear asm m freeList nearMap calls = some (m', freeList', nearMap')) :
    ∃ entries : List (SysCall × ℕ), entries.map Prod.fst = firstCalls (nearMap.map Prod.fst) calls ∧
      nearMap' = nearMap ++ entries.map nearEntry ∧
      Alloc U freeList' (given ++ entries.map (nearBlock asm)) ∧
      (∀ e ∈ entries, m'.Marked (nearBlock asm e)) ∧ ∀ a, m.Used a → m'.Used a := by
  induction calls generalizing m freeList nearMap given with
  | nil =>
    simp only [reserveNear, Option.some.injEq, Prod.mk.injEq] at hr
    obtain ⟨rfl, rfl, rfl⟩ := hr
    refine ⟨[], rfl, (List.append_nil _).symm, ?_, ?_, fun a ha => ha⟩
    · rw [List.map_nil, List.append_nil]
      exact h
    · intro e he
      cases he
  | cons call rest ih =>
    rw [reserveNear] at hr
    by_cases hseen : call.addr ∈ nearMap.map Prod.fst
    · rw [if_pos ((lookup_isSome_iff _ _).mpr hseen)] at hr
      rw [firstCalls, if_pos hseen]
      exact ih h hr
    · rw [if_neg (fun hs => hseen ((lookup_isSome_iff _ _).mp hs))] at hr
      obtain ⟨size, hcode, hr⟩ := Option.bind_eq_some_iff.mp hr
      obtain ⟨code, hnear, rfl⟩ := Option.map_eq_some_iff.mp hcode
      obtain ⟨⟨m₁, freeList₁, nearAddr⟩, hreserve, hr⟩ := Option.bind_eq_some_iff.mp hr
      have hlen : code.length = nearSize asm call := near_length hsize hnear
      rw [hlen] at hreserve
      obtain ⟨halloc, hnew, hkeep₁⟩ := reserve_alloc h hreserve
      obtain ⟨entries, hfirst, hmap, halloc', hmarked, hkeep⟩ := ih halloc hr
      refine ⟨(call, nearAddr) :: entries, ?_, ?_, ?_, ?_, ?_⟩
      · rw [firstCalls, if_neg hseen, List.map_cons, hfirst, List.map_append]
        rfl
      · rw [hmap, List.append_assoc]
        rfl
      · rw [List.append_assoc] at halloc'
        exact halloc'
      · intro e he
        obtain rfl | he := List.mem_cons.mp he
        · intro a ha
          exact hkeep a (hnew a ha)
        · exact hmarked e he
      · intro a ha
        exact hkeep a (hkeep₁ a ha)

theorem lookup_nearEntry {entries : List (SysCall × ℕ)} {call : SysCall} {nearAddr a : ℕ} :
    (List.map nearEntry ((call, nearAddr) :: entries)).lookup a =
      if a = call.addr then some nearAddr else (entries.map nearEntry).lookup a := by
  rw [List.map_cons, nearEntry, List.lookup_cons]
  by_cases ha : a = call.addr
  · rw [if_pos ha, show (a == call.addr) = true from beq_iff_eq.mpr ha]
  · rw [if_neg ha, show (a == call.addr) = false from beq_false_of_ne ha]

/-- The site that `writeNear` makes for an entry of the near map. -/
def SiteOf (asm : Assembler) (entry : SysCall × ℕ) (site : Site) : Prop :=
  site.addr = entry.1.addr ∧ site.trap.length = 4 ∧ site.nearAddr = entry.2 ∧
    site.nearCall.length = nearSize asm entry.1

theorem writeNear_spec (hsize : asm.FixedSize) {nearBuf farAddr : ℕ} {calls : List SysCall}
    {seen : List ℕ} {entries : List (SysCall × ℕ)} {m m' : PageMap} {sites : List Site}
    (hfirst : entries.map Prod.fst = firstCalls seen calls)
    (hw : writeNear asm nearBuf farAddr m (entries.map nearEntry) calls = some (m', sites)) :
    List.Forall₂ (SiteOf asm) entries sites := by
  induction calls generalizing m m' seen entries sites with
  | nil =>
    obtain rfl := List.map_eq_nil_iff.mp hfirst
    simp only [writeNear, Option.some.injEq, Prod.mk.injEq] at hw
    rw [← hw.2]
    exact List.Forall₂.nil
  | cons call rest ih =>
    rw [firstCalls] at hfirst
    have hunseen : ∀ e ∈ entries, e.1 ∈ entries.map Prod.fst := fun e he =>
      List.mem_map_of_mem he
    by_cases hseen : call.addr ∈ seen
    · rw [if_pos hseen] at hfirst
      have hnone : (entries.map nearEntry).lookup call.addr = none := by
        rw [← Option.not_isSome_iff_eq_none, lookup_isSome_iff, List.map_map]
        intro hmem
        obtain ⟨e, he, heq⟩ := List.mem_map.mp hmem
        have hin := hunseen e he
        rw [hfirst] at hin
        apply firstCalls_unseen hin
        rw [show e.1.addr = call.addr from heq]
        exact hseen
      rw [writeNear, hnone] at hw
      exact ih hfirst hw
    · rw [if_neg hseen] at hfirst
      obtain ⟨⟨c, nearAddr⟩, entries', rfl, hc, hrest⟩ := List.map_eq_cons_iff.mp hfirst
      obtain rfl : c = call := hc
      rw [writeNear, lookup_nearEntry, if_pos rfl] at hw
      obtain ⟨trap, htrap, hw⟩ := Option.bind_eq_some_iff.mp hw
      obtain ⟨nearCall, hnear, hw⟩ := Option.bind_eq_some_iff.mp hw
      obtain ⟨⟨m₁, sites'⟩, hsites, hw⟩ := Option.bind_eq_some_iff.mp hw
      simp only [Option.some.injEq, Prod.mk.injEq] at hw
      -- the address is popped, and no later entry has it
      have hpop : (List.map nearEntry ((c, nearAddr) :: entries')).filter
          (fun entry => entry.1 ≠ c.addr) = entries'.map nearEntry := by
        rw [List.map_cons, List.filter_cons_of_neg (by simp [nearEntry]), List.filter_eq_self]
        intro entry hentry
        obtain ⟨e, he, rfl⟩ := List.mem_map.mp hentry
        have hin : e.1 ∈ entries'.map Prod.fst := List.mem_map_of_mem he
        rw [hrest] at hin
        have := firstCalls_unseen hin
        rw [decide_eq_true_eq]
        intro heq
        exact this (List.mem_append_right _ (List.mem_singleton.mpr heq))
      rw [hpop] at hsites
      rw [← hw.2]
      refine List.Forall₂.cons ⟨rfl, jump_length hsize htrap, rfl, ?_⟩ (ih hrest hsites)
      rw [near_length hsize hnear, nearSize,
        hsize.near nearBuf 0 (some farAddr) (some 0) (alterFlag c.alterRd) rfl]

theorem markSites_used (pages : PageMap) (calls : List SysCall) (a : ℕ) :
    (markSites pages calls).Used a ↔
      pages.Used a ∨ ∃ call ∈ calls, (⟨call.addr, 4⟩ : Block).Has a := by
  rw [markSites]
  induction calls generalizing pages with
  | nil => simp
  | cons call rest ih =>
    rw [List.foldl_cons, ih, put_used, List.length_replicate, List.exists_mem_cons_iff, or_assoc]
    rfl

end Checkpoint

/-! ## The regions -/

namespace Injection

def trapBlocks (i : Injection) : List Block := i.sites.map fun s => ⟨s.addr, s.trap.length⟩

def nearBlocks (i : Injection) : List Block :=
  i.sites.map fun s => ⟨s.nearAddr, s.nearCall.length⟩

/-- The run of pages of the replay stack, the replay table included. -/
def stackBlock (i : Injection) : Block :=
  ⟨i.regsAddr, (i.replayStackSize + PAGE_SIZE - 1) / PAGE_SIZE * PAGE_SIZE⟩

/-- The regions apart from the words at the traps. -/
def freshBlocks (i : Injection) : List Block :=
  i.nearBlocks ++ [⟨i.entryAddr, i.entryCall.length⟩, ⟨i.farAddr, i.farCall.length⟩] ++
    [i.stackBlock]

end Injection

/-- Two calls are at one address or four bytes apart. -/
def SitesApart (calls : List SysCall) : Prop :=
  ∀ c ∈ calls, ∀ c' ∈ calls,
    c.addr = c'.addr ∨ c.addr + 4 ≤ c'.addr ∨ c'.addr + 4 ≤ c.addr

/-- There is one site for each address, nothing injected meets anything else that is injected,
words at traps too close to each other apart, and only these words touch visited bytes. -/
structure Separated (cp : Checkpoint) (i : Injection) : Prop where
  addrs : ∀ a, a ∈ i.sites.map Site.addr ↔ a ∈ cp.syscalls.map SysCall.addr
  once : (i.sites.map Site.addr).Nodup
  fresh : i.freshBlocks.Pairwise Block.Apart
  traps : ∀ b ∈ i.freshBlocks, ∀ t ∈ i.trapBlocks, b.Apart t
  unvisited : ∀ b ∈ i.freshBlocks, ∀ a, b.Has a → ¬ cp.pages.Used a
  all : (i.trapBlocks ++ i.freshBlocks).Pairwise Block.Apart ↔ SitesApart cp.syscalls

namespace Checkpoint

variable {asm : Assembler}

/-- What `place` has put where, in terms of the blocks that were reserved. -/
structure Placement (asm : Assembler) (cp : Checkpoint) (U : ℕ → Prop) (i : Injection) where
  entries : List (SysCall × ℕ)
  first : entries.map Prod.fst = firstCalls [] cp.syscalls
  sites : List.Forall₂ (SiteOf asm) entries i.sites
  pages : PageMap
  blocks : ∃ freeList, Alloc U freeList (entries.map (nearBlock asm) ++
    [⟨i.entryAddr, i.entryCall.length⟩, ⟨i.farAddr, i.farCall.length⟩])
  keeps : ∀ a, U a → pages.Used a
  marked : ∀ b ∈ entries.map (nearBlock asm) ++
    [⟨i.entryAddr, i.entryCall.length⟩, ⟨i.farAddr, i.farCall.length⟩], pages.Marked b
  stack : i.regsAddr = pages.reservePage i.replayStackSize * PAGE_SIZE

theorem place_spec (hsize : asm.FixedSize) {cp : Checkpoint} {verbose : Bool} {pages : PageMap}
    {freeList : List (ℕ × ℕ)} {i : Injection} (halloc : Alloc pages.Used freeList [])
    (h : place asm cp verbose pages freeList = some i) :
    Nonempty (Placement asm cp pages.Used i) := by
  obtain ⟨⟨m₁, free₁, nearMap⟩, hnear, h⟩ := Option.bind_eq_some_iff.mp h
  obtain ⟨entrySize, hentrySize, h⟩ := Option.bind_eq_some_iff.mp h
  obtain ⟨⟨m₂, free₂, entryAddr⟩, hentry, h⟩ := Option.bind_eq_some_iff.mp h
  obtain ⟨⟨m₃, free₃, farAddr⟩, hfar, h⟩ := Option.bind_eq_some_iff.mp h
  obtain ⟨a0, -, h⟩ := Option.bind_eq_some_iff.mp h
  obtain ⟨sp, -, h⟩ := Option.bind_eq_some_iff.mp h
  obtain ⟨⟨m₄, sites⟩, hsites, h⟩ := Option.bind_eq_some_iff.mp h
  obtain ⟨entryCall, hentryCall, h⟩ := Option.bind_eq_some_iff.mp h
  obtain ⟨entries, hfirst, hmap, halloc₁, hmarked, hkeep⟩ := reserveNear_spec hsize halloc hnear
  obtain ⟨halloc₂, hmarked₂, hkeep₂⟩ := reserve_alloc halloc₁ hentry
  obtain ⟨halloc₃, hmarked₃, hkeep₃⟩ := reserve_alloc halloc₂ hfar
  obtain rfl := Option.some.inj h
  -- the sizes that were reserved are those of the code that is written
  obtain ⟨entryCode, hentryCode, rfl⟩ := Option.map_eq_some_iff.mp hentrySize
  have hentryLen : entryCall.length = entryCode.length := by
    rw [near_length hsize hentryCall, near_length hsize hentryCode, hsize.near _ 0 none none _ rfl]
  rw [← hentryLen] at halloc₃ hmarked₂
  rw [MakeHelper.far, hsize.far 0 _ 0 _] at halloc₃ hmarked₃
  rw [List.nil_append] at hmap
  rw [hmap] at hsites
  refine ⟨⟨entries, hfirst, writeNear_spec hsize hfirst hsites, m₃, ⟨free₃, ?_⟩, ?_, ?_, rfl⟩⟩
  · rw [List.nil_append, List.append_assoc] at halloc₃
    exact halloc₃
  · intro a ha
    exact hkeep₃ a (hkeep₂ a (hkeep a ha))
  · intro b hb a ha
    rcases List.mem_append.mp hb with hb | hb
    · obtain ⟨e, he, rfl⟩ := List.mem_map.mp hb
      exact hkeep₃ a (hkeep₂ a (hmarked e he a ha))
    · rcases List.mem_cons.mp hb with rfl | hb
      · exact hkeep₃ a (hmarked₂ a ha)
      · obtain rfl := List.mem_singleton.mp hb
        exact hmarked₃ a ha

theorem map_eq_of_forall₂ {α β γ : Type*} {R : α → β → Prop} {f : α → γ} {g : β → γ}
    {as : List α} {bs : List β} (h : List.Forall₂ R as bs) (hR : ∀ a b, R a b → g b = f a) :
    bs.map g = as.map f := by
  induction h with
  | nil => rfl
  | cons hab _ ih => rw [List.map_cons, List.map_cons, hR _ _ hab, ih]

variable {cp : Checkpoint} {U : ℕ → Prop} {i : Injection}

theorem Placement.addrs (p : Placement asm cp U i) :
    i.sites.map Site.addr = (firstCalls [] cp.syscalls).map SysCall.addr := by
  rw [← p.first, List.map_map]
  exact map_eq_of_forall₂ p.sites fun _ _ h => h.1

theorem Placement.trapBlocks (p : Placement asm cp U i) :
    i.trapBlocks = (i.sites.map Site.addr).map fun a => ⟨a, 4⟩ := by
  rw [Injection.trapBlocks, p.addrs, ← p.first, List.map_map, List.map_map]
  apply map_eq_of_forall₂ p.sites
  rintro e s ⟨haddr, htrap, -⟩
  rw [haddr, htrap]
  rfl

theorem Placement.nearBlocks (p : Placement asm cp U i) :
    i.nearBlocks = p.entries.map (nearBlock asm) := by
  apply map_eq_of_forall₂ p.sites
  rintro e s ⟨-, -, hnear, hlen⟩
  rw [hnear, hlen]
  rfl

theorem Placement.stack_apart (p : Placement asm cp U i) {a : ℕ} (h : p.pages.Used a) :
    ¬ i.stackBlock.Has a := by
  rw [Injection.stackBlock, p.stack]
  exact reservePage_apart _ _ h

theorem Placement.fresh (p : Placement asm cp U i) : i.freshBlocks.Pairwise Block.Apart := by
  obtain ⟨freeList, halloc⟩ := p.blocks
  rw [Injection.freshBlocks, p.nearBlocks, List.pairwise_append]
  refine ⟨halloc.apart, List.pairwise_singleton _ _, ?_⟩
  intro b hb c hc a hba
  rw [List.mem_singleton.mp hc]
  exact p.stack_apart (p.marked b hb a hba)

theorem Placement.fresh_unused (p : Placement asm cp U i) :
    ∀ b ∈ i.freshBlocks, ∀ a, b.Has a → ¬ U a := by
  obtain ⟨freeList, halloc⟩ := p.blocks
  intro b hb a ha hU
  rw [Injection.freshBlocks, p.nearBlocks] at hb
  rcases List.mem_append.mp hb with hb | hb
  · exact halloc.fresh b hb a ha hU
  · rw [List.mem_singleton.mp hb] at ha
    exact p.stack_apart (p.keeps a hU) ha

/-- The words at distinct addresses are apart just when these are four bytes apart. -/
theorem traps_apart_iff {addrs : List ℕ} {calls : List SysCall} (hnodup : addrs.Nodup)
    (hmem : ∀ a, a ∈ addrs ↔ a ∈ calls.map SysCall.addr) :
    (addrs.map fun a => (⟨a, 4⟩ : Block)).Pairwise Block.Apart ↔ SitesApart calls := by
  have hwords : ∀ a b, (⟨a, 4⟩ : Block).Apart ⟨b, 4⟩ ↔ a + 4 ≤ b ∨ b + 4 ≤ a := fun a b =>
    Block.apart_iff rfl rfl (by decide)
  simp only [List.pairwise_map, hwords]
  constructor
  · intro hapart c hc c' hc'
    have hsymm : Std.Symm fun a b : ℕ => a + 4 ≤ b ∨ b + 4 ≤ a := ⟨fun _ _ => Or.symm⟩
    by_cases heq : c.addr = c'.addr
    · exact .inl heq
    · exact .inr (hapart.forall ((hmem _).mpr (List.mem_map_of_mem hc))
        ((hmem _).mpr (List.mem_map_of_mem hc')) heq)
  · intro hsites
    apply hnodup.pairwise_of_forall_ne
    intro a ha b hb hne
    obtain ⟨c, hc, rfl⟩ := List.mem_map.mp ((hmem _).mp ha)
    obtain ⟨c', hc', rfl⟩ := List.mem_map.mp ((hmem _).mp hb)
    exact (hsites c hc c' hc').resolve_left hne

theorem processOnce_separated {asm : Assembler} (hsize : asm.FixedSize) {cp : Checkpoint}
    {verbose : Bool} {i : Injection} (h : processOnce asm cp verbose = some i) :
    Separated cp i := by
  obtain ⟨p⟩ := place_spec hsize (makeFreeList_alloc _) h
  have haddrs : ∀ a, a ∈ i.sites.map Site.addr ↔ a ∈ cp.syscalls.map SysCall.addr := by
    intro a
    rw [p.addrs, firstCalls_addr]
    exact and_iff_left List.not_mem_nil
  have honce : (i.sites.map Site.addr).Nodup := by
    rw [p.addrs]
    exact firstCalls_nodup _ _
  have htraps : ∀ b ∈ i.freshBlocks, ∀ t ∈ i.trapBlocks, b.Apart t := by
    intro b hb t ht a hba hta
    apply p.fresh_unused b hb a hba
    rw [p.trapBlocks] at ht
    obtain ⟨addr, haddr, rfl⟩ := List.mem_map.mp ht
    obtain ⟨call, hcall, rfl⟩ := List.mem_map.mp ((haddrs addr).mp haddr)
    exact (markSites_used _ _ a).mpr (.inr ⟨call, hcall, hta⟩)
  refine ⟨haddrs, honce, p.fresh, htraps, ?_, ?_⟩
  · intro b hb a hba hvisited
    exact p.fresh_unused b hb a hba ((markSites_used _ _ a).mpr (.inl hvisited))
  · rw [List.pairwise_append, ← traps_apart_iff honce haddrs, p.trapBlocks]
    constructor
    · intro hall
      exact hall.1
    · intro hapart
      refine ⟨hapart, p.fresh, ?_⟩
      intro t ht b hb
      rw [← p.trapBlocks] at ht
      exact (htraps b hb t ht).symm

/-! ## An injection -/

section Example

def luiWord (rd x : ℕ) : ℕ := (x + 0x800) / 0x1000 % 2 ^ 20 * 2 ^ 12 + rd * 2 ^ 7 + 0x37

/-- A word with an immediate of twelve bits behind its two registers. -/
def immWord (opcode funct3 rd rs1 imm : ℕ) : ℕ :=
  imm % 2 ^ 12 * 2 ^ 20 + rs1 * 2 ^ 15 + funct3 * 2 ^ 12 + rd * 2 ^ 7 + opcode

def addiWord (rd rs1 imm : ℕ) : ℕ := immWord 0x13 0 rd rs1 imm

def ldWord (rd rs1 imm : ℕ) : ℕ := immWord 0x03 3 rd rs1 imm

def jalrWord (rd rs1 imm : ℕ) : ℕ := immWord 0x67 0 rd rs1 imm

def sdWord (rs2 rs1 imm : ℕ) : ℕ :=
  imm % 2 ^ 12 / 2 ^ 5 * 2 ^ 25 + rs2 * 2 ^ 20 + rs1 * 2 ^ 15 + 3 * 2 ^ 12 + imm % 2 ^ 5 * 2 ^ 7 +
    0x23

def jWord (offset : ℤ) : ℕ :=
  let offs := (offset % 2 ^ 21).toNat
  offs / 2 ^ 20 * 2 ^ 31 + offs / 2 % 2 ^ 10 * 2 ^ 21 + offs / 2 ^ 11 % 2 * 2 ^ 20 +
    offs / 2 ^ 12 % 2 ^ 8 * 2 ^ 12 + 0x6f

def wordBytes (words : List ℕ) : List Byte :=
  words.flatMap fun w => (List.range 4).map fun i => BitVec.ofNat 8 (w / 256 ^ i)

def nearWords (nearBuf : ℕ) (farCall : Option ℕ) (alter : Alter) : List ℕ :=
  let call := match farCall, alter with
    | none, _ => []
    | some far, .none =>
      [luiWord 10 nearBuf, sdWord 2 10 nearBuf, luiWord 10 far, jalrWord 10 10 far]
    | some far, .sp =>
      [luiWord 2 nearBuf, sdWord 10 2 nearBuf, luiWord 10 far, jalrWord 10 10 far]
    | some far, .reg rd =>
      [addiWord rd 10 0, luiWord 10 nearBuf, sdWord 2 10 nearBuf, luiWord 10 far,
        jalrWord 10 10 far]
  let move := match alter with
    | .reg rd => [addiWord 2 10 0, addiWord 10 rd 0, addiWord rd 2 0]
    | _ => []
  let restore := match alter with
    | .sp => [addiWord 2 10 0, luiWord 10 nearBuf, ldWord 10 10 nearBuf]
    | _ => [luiWord 2 nearBuf, ldWord 2 2 nearBuf]
  call ++ move ++ restore

def farWords (replaySp replayPc : ℕ) : List ℕ :=
  let slots := [(1, 0), (5, 8), (6, 16), (7, 24), (11, 40), (12, 48), (13, 56), (14, 64), (15, 72),
    (16, 80), (17, 88), (28, 96), (29, 104), (30, 112), (31, 120)]
  [luiWord 2 replaySp, ldWord 2 2 replaySp, addiWord 2 2 (2 ^ 12 - 128), sdWord 10 2 32] ++
    slots.map (fun slot => sdWord slot.1 2 slot.2) ++
    [ldWord 10 2 128, addiWord 11 2 136, luiWord 1 replayPc, ldWord 1 1 replayPc, jalrWord 1 1 0,
      sdWord 10 2 128, ldWord 10 10 (2 ^ 12 - 8)] ++
    slots.map (fun slot => ldWord slot.1 2 slot.2) ++ [ldWord 2 2 32, jalrWord 0 2 0]

/-- An assembler that compresses nothing. -/
def wordAssembler : Assembler where
  nearBin := fun nearBuf farCall alter => wordBytes (nearWords nearBuf farCall alter)
  farBin := fun replaySp replayPc => wordBytes (farWords replaySp replayPc)
  jumpBin := fun offset => wordBytes [jWord offset]

theorem wordBytes_length (words : List ℕ) : (wordBytes words).length = 4 * words.length := by
  induction words with
  | nil => rfl
  | cons w words ih =>
    rw [wordBytes, List.flatMap_cons, ← wordBytes, List.length_append, ih, List.length_cons]
    simp only [List.length_map, List.length_range]
    omega

theorem wordAssembler_fixedSize : wordAssembler.FixedSize := by
  refine ⟨?_, ?_, ?_⟩
  · intro nearBuf nearBuf' farCall farCall' alter hsome
    simp only [wordAssembler, wordBytes_length, nearWords]
    cases farCall with
    | none =>
      cases farCall' with
      | none => cases alter <;> simp only [List.length_append, List.length_cons, List.length_nil]
      | some far' => cases hsome
    | some far =>
      cases farCall' with
      | none => cases hsome
      | some far' => cases alter <;> simp only [List.length_append, List.length_cons]
  · intro sp sp' pc pc'
    simp only [wordAssembler, wordBytes_length, farWords, List.length_append, List.length_cons,
      List.length_map]
  · intro offset
    simp only [wordAssembler, wordBytes_length, List.length_cons, List.length_nil]

/-- A page whose first visited bytes are at 0x10800. -/
def examplePages : PageMap := PageMap.put ∅ 0x10800 (List.replicate 16 0)

/-- A system call and a break. -/
def exampleCheckpoint (callAddr breakAddr : ℕ) : Checkpoint where
  entryPc := 0x10808
  regs := List.replicate 64 0
  syscalls := [⟨callAddr, 3, none, false, none⟩, ⟨breakAddr, 0, none, true, none⟩]
  pages := examplePages
  stores := []

/-- One page, in use from 0x10800 to 0x10810. -/
theorem exampleFreeList {m : PageMap} (hitems : m.items = [⟨16, m.getItem 16⟩])
    (hbitmap : (m.getItem 16).bitmap = ((1 <<< 16) - 1) <<< 0x800) :
    m.makeFreeList = [(0x10000, 0x10800)] := by
  have hfree : ∀ i < PAGE_SIZE, (m.getItem 16).isFree i = !decide (0x800 ≤ i ∧ i < 0x810) := by
    intro i _
    rw [isFree_iff, hbitmap, Nat.testBit_shiftLeft, Nat.one_shiftLeft, Nat.testBit_two_pow_sub_one]
    congr 1
    rw [Bool.eq_iff_iff]
    simp only [Bool.and_eq_true, decide_eq_true_eq]
    omega
  rw [PageMap.makeFreeList, hitems, List.foldl_cons, List.foldl_nil,
    PageMap.scanPage_block hfree (by decide) (by decide)]
  rfl

theorem example_processOnce (callAddr breakAddr : ℕ) {m : PageMap}
    (hm : markSites examplePages (exampleCheckpoint callAddr breakAddr).syscalls = m)
    (hitems : m.items = [⟨16, m.getItem 16⟩])
    (hbitmap : (m.getItem 16).bitmap = ((1 <<< 16) - 1) <<< 0x800) :
    processOnce wordAssembler (exampleCheckpoint callAddr breakAddr) false =
      place wordAssembler (exampleCheckpoint callAddr breakAddr) false m [(0x10000, 0x10800)] := by
  rw [processOnce, show (exampleCheckpoint callAddr breakAddr).pages = examplePages from rfl, hm,
    exampleFreeList hitems hbitmap]

theorem exampleCheckpoint_isSome :
    (processOnce wordAssembler (exampleCheckpoint 0x10800 0x10804) false).isSome := by
  rw [example_processOnce 0x10800 0x10804 rfl rfl (by decide +kernel)]
  decide +kernel

theorem exampleCheckpoint_separated :
    ∃ i, processOnce wordAssembler (exampleCheckpoint 0x10800 0x10804) false = some i ∧
      Separated (exampleCheckpoint 0x10800 0x10804) i := by
  obtain ⟨i, hi⟩ := Option.isSome_iff_exists.mp exampleCheckpoint_isSome
  exact ⟨i, hi, processOnce_separated wordAssembler_fixedSize hi⟩

/-- Two sites two bytes apart: their jumps overlap. -/
theorem closeSites_overlap :
    ∃ i, processOnce wordAssembler (exampleCheckpoint 0x10800 0x10802) false = some i ∧
      ¬ (i.trapBlocks ++ i.freshBlocks).Pairwise Block.Apart := by
  have hplace := example_processOnce 0x10800 0x10802 rfl rfl
    (by decide +kernel)
  have htraps : (place wordAssembler (exampleCheckpoint 0x10800 0x10802) false
      (markSites examplePages (exampleCheckpoint 0x10800 0x10802).syscalls)
      [(0x10000, 0x10800)]).map (fun i => i.trapBlocks.map fun b => (b.start, b.size)) =
      some [(0x10800, 4), (0x10802, 4)] := by
    decide +kernel
  rw [← hplace] at htraps
  obtain ⟨i, hi, hblocks⟩ := Option.map_eq_some_iff.mp htraps
  refine ⟨i, hi, ?_⟩
  intro hapart
  have htrapsApart := (List.pairwise_append.mp hapart).1
  obtain ⟨b, rest, heq, hb, hrest⟩ := List.map_eq_cons_iff.mp hblocks
  obtain ⟨c, rest', rfl, hc, -⟩ := List.map_eq_cons_iff.mp hrest
  rw [heq] at htrapsApart
  have happly := (List.pairwise_cons.mp htrapsApart).1 c List.mem_cons_self
  simp only [Prod.mk.injEq] at hb hc
  exact happly 0x10802 ⟨by omega, by omega⟩ ⟨by omega, by omega⟩

end Example

end Checkpoint

end RvCkpt.Parse
