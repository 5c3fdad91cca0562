import RvCkpt.Stub.Entry
import RvCkpt.Parse.InjectSpec

/-! # What `process_once` writes is the replay code

With an assembler that encodes the sources, the bytes of an injection are the near calls, the entry
call and the far call, wherever they were placed.
-/

namespace RvCkpt.Stub
open ByteMem Isa Parse Parse.Checkpoint
set_option autoImplicit false

/-- The binaries are the encoded sources, at any address. -/
structure Encodes (asm : Assembler) (host : Host) : Prop where
  near : ∀ m a nearBuf farCall alter, Mem.Holds m a (asm.nearBin nearBuf (some farCall) alter) →
    ∃ j mid, BlockAt host m a (nearCallLine nearBuf farCall alter) j (nearCallJump farCall) mid ∧
      LineAt host m mid (nearReturnLine nearBuf alter)
        (a + (asm.nearBin nearBuf (some farCall) alter).length)
  entry : ∀ m a nearBuf, Mem.Holds m a (asm.nearBin nearBuf none .none) →
    LineAt host m a (restoreSp nearBuf) (a + (asm.nearBin nearBuf none .none).length)
  far : ∀ m a replaySp replayPc, Mem.Holds m a (asm.farBin replaySp replayPc) →
    FarAt host m replaySp replayPc a (a + (asm.farBin replaySp replayPc).length)
  jump : ∀ m (a b : ℕ), InReach a b → Mem.Holds m a (asm.jumpBin ((b : ℤ) - a)) →
    BlockAt host m a [] a (relJump a b) (a + (asm.jumpBin ((b : ℤ) - a)).length)

variable {asm : Assembler} {host : Host} {m : Mem}

theorem jump_placed (h : Encodes asm host) {source target : ℕ} {bs : List Byte}
    (hjump : MakeHelper.jump asm ((target : ℤ) - source) = some bs) (hm : m.Holds source bs) :
    BlockAt host m source [] source (relJump source target) (source + bs.length) ∧
      InReach source target := by
  unfold MakeHelper.jump at hjump
  by_cases hreach : (target : ℤ) - source < J_MAX_OFFS ∧ -J_MAX_OFFS ≤ (target : ℤ) - source
  · rw [if_pos hreach] at hjump
    obtain rfl := Option.some.inj hjump
    exact ⟨h.jump m source target hreach hm, hreach⟩
  · rw [if_neg hreach] at hjump
    cases hjump

/-- The code of `MakeHelper.near` ends in the jump to `retPc`. -/
theorem near_jump {retPc nearPc nearBuf : ℕ} {farPc alterRd : Option ℕ} {bs : List Byte}
    (hnear : MakeHelper.near asm retPc nearPc nearBuf farPc alterRd = some bs) :
    ∃ ret, bs = asm.nearBin nearBuf farPc (alterFlag alterRd) ++ ret ∧
      MakeHelper.jump asm ((retPc : ℤ) - ((nearPc +
        (asm.nearBin nearBuf farPc (alterFlag alterRd)).length : ℕ) : ℤ)) = some ret := by
  obtain ⟨ret, hret, hbs⟩ := Option.bind_eq_some_iff.mp hnear
  refine ⟨ret, (Option.some.inj hbs).symm, ?_⟩
  rw [Nat.cast_add, ← Int.sub_sub]
  exact hret

theorem near_placed (h : Encodes asm host) {retPc nearPc nearBuf farPc : ℕ} {alterRd : Option ℕ}
    {bs : List Byte}
    (hnear : MakeHelper.near asm retPc nearPc nearBuf (some farPc) alterRd = some bs)
    (hm : m.Holds nearPc bs) :
    NearAt host m nearBuf farPc (alterFlag alterRd) retPc nearPc (nearPc + bs.length) := by
  obtain ⟨ret, rfl, hret⟩ := near_jump hnear
  obtain ⟨hcode, hend⟩ := Mem.holds_append.mp hm
  obtain ⟨j, mid, hcall, hreturn⟩ := h.near m nearPc nearBuf farPc _ hcode
  obtain ⟨hjump, hreach⟩ := jump_placed h hret hend
  refine ⟨j, mid, _, hcall, ⟨hreturn, ?_⟩, hreach⟩
  rw [List.length_append, ← Nat.add_assoc]
  exact hjump.jump

theorem entry_placed (h : Encodes asm host) {entryPc entryAddr nearBuf : ℕ} {bs : List Byte}
    (hnear : MakeHelper.near asm entryPc entryAddr nearBuf none none = some bs)
    (hm : m.Holds entryAddr bs) :
    ∃ j, BlockAt host m entryAddr (restoreSp nearBuf) j (relJump j entryPc)
      (entryAddr + bs.length) ∧ InReach j entryPc := by
  obtain ⟨ret, rfl, hret⟩ := near_jump hnear
  obtain ⟨hcode, hend⟩ := Mem.holds_append.mp hm
  obtain ⟨hjump, hreach⟩ := jump_placed h hret hend
  refine ⟨_, ⟨h.entry m entryAddr nearBuf hcode, ?_⟩, hreach⟩
  rw [List.length_append, ← Nat.add_assoc]
  exact hjump.jump

/-! ## The injection -/

/-- What is written at a site is the trap of one of the calls there. -/
theorem writeNear_code {nearBuf farAddr : ℕ} {calls : List SysCall} {pages pages' : PageMap}
    {nearMap : NearMap} {sites : List Site}
    (h : writeNear asm nearBuf farAddr pages nearMap calls = some (pages', sites)) :
    ∀ site ∈ sites, ∃ call ∈ calls, site.addr = call.addr ∧
      MakeHelper.jump asm ((site.nearAddr : ℤ) - site.addr) = some site.trap ∧
      MakeHelper.near asm (site.addr + 4) site.nearAddr nearBuf (some farAddr) call.alterRd =
        some site.nearCall := by
  induction calls generalizing pages nearMap sites with
  | nil =>
    simp only [writeNear, Option.some.injEq, Prod.mk.injEq] at h
    rw [← h.2]
    intro site hsite
    cases hsite
  | cons call rest ih =>
    rw [writeNear] at h
    cases hlookup : nearMap.lookup call.addr with
    | none =>
      rw [hlookup] at h
      intro site hsite
      obtain ⟨c, hc, hcode⟩ := ih h site hsite
      exact ⟨c, List.mem_cons_of_mem _ hc, hcode⟩
    | some nearAddr =>
      rw [hlookup] at h
      obtain ⟨trap, htrap, h⟩ := Option.bind_eq_some_iff.mp h
      obtain ⟨nearCall, hnear, h⟩ := Option.bind_eq_some_iff.mp h
      obtain ⟨⟨pages₁, sites'⟩, hsites, h⟩ := Option.bind_eq_some_iff.mp h
      simp only [Option.some.injEq, Prod.mk.injEq] at h
      obtain ⟨rfl, rfl⟩ := h
      intro site hsite
      rcases List.mem_cons.mp hsite with rfl | hsite
      · exact ⟨call, List.mem_cons_self, rfl, htrap, hnear⟩
      · obtain ⟨c, hc, hcode⟩ := ih hsites site hsite
        exact ⟨c, List.mem_cons_of_mem _ hc, hcode⟩

/-- The last word of the replay stack. -/
def nearBuf (i : Injection) : ℕ := i.regsAddr + i.replayStackSize - 8

/-- The three kinds of code, in terms of the places in the injection. -/
structure CodeOf (asm : Assembler) (cp : Checkpoint) (i : Injection) : Prop where
  sites : ∀ site ∈ i.sites, ∃ call ∈ cp.syscalls, site.addr = call.addr ∧
    MakeHelper.jump asm ((site.nearAddr : ℤ) - site.addr) = some site.trap ∧
    MakeHelper.near asm (site.addr + 4) site.nearAddr (nearBuf i) (some i.farAddr) call.alterRd =
      some site.nearCall
  entry : MakeHelper.near asm cp.entryPc i.entryAddr (nearBuf i) none none = some i.entryCall
  far : i.farCall = asm.farBin (i.regsAddr + 512) (i.regsAddr + 520)

theorem processOnce_code {cp : Checkpoint} {verbose : Bool} {i : Injection}
    (h : processOnce asm cp verbose = some i) : CodeOf asm cp i := by
  rw [processOnce] at h
  obtain ⟨⟨m₁, free₁, nearMap⟩, -, h⟩ := Option.bind_eq_some_iff.mp h
  obtain ⟨entrySize, -, h⟩ := Option.bind_eq_some_iff.mp h
  obtain ⟨⟨m₂, free₂, entryAddr⟩, -, h⟩ := Option.bind_eq_some_iff.mp h
  obtain ⟨⟨m₃, free₃, farAddr⟩, -, h⟩ := Option.bind_eq_some_iff.mp h
  obtain ⟨a0, -, h⟩ := Option.bind_eq_some_iff.mp h
  obtain ⟨sp, -, h⟩ := Option.bind_eq_some_iff.mp h
  obtain ⟨⟨m₄, sites⟩, hsites, h⟩ := Option.bind_eq_some_iff.mp h
  obtain ⟨entryCall, hentry, h⟩ := Option.bind_eq_some_iff.mp h
  obtain rfl := Option.some.inj h
  have hbuf : ∀ r t : ℕ, r + (64 * 8 + 8 + 8 + t + 8) - 8 = r + 64 * 8 + 8 + 8 + t := by omega
  rw [← hbuf] at hsites hentry
  exact ⟨writeNear_code hsites, hentry, rfl⟩

/-- The code that leads from a replaced instruction back to the next one. -/
theorem site_placed (henc : Encodes asm host) {cp : Checkpoint} {i : Injection}
    (hcode : CodeOf asm cp i) {site : Site} (hsite : site ∈ i.sites)
    (htrap : m.Holds site.addr site.trap) (hnear : m.Holds site.nearAddr site.nearCall) :
    ∃ call ∈ cp.syscalls, site.addr = call.addr ∧
      BlockAt host m site.addr [] site.addr (relJump site.addr site.nearAddr)
        (site.addr + site.trap.length) ∧
      InReach site.addr site.nearAddr ∧
      NearAt host m (nearBuf i) i.farAddr (alterFlag call.alterRd) (site.addr + 4) site.nearAddr
        (site.nearAddr + site.nearCall.length) := by
  obtain ⟨call, hcall, haddr, hjump, hbin⟩ := hcode.sites site hsite
  obtain ⟨hblock, hreach⟩ := jump_placed henc hjump htrap
  exact ⟨call, hcall, haddr, hblock, hreach, near_placed henc hbin hnear⟩

theorem far_placed (henc : Encodes asm host) {cp : Checkpoint} {i : Injection}
    (hcode : CodeOf asm cp i) (hfar : m.Holds i.farAddr i.farCall) :
    FarAt host m (i.regsAddr + 512) (i.regsAddr + 520) i.farAddr
      (i.farAddr + i.farCall.length) := by
  rw [hcode.far] at hfar ⊢
  exact henc.far m i.farAddr _ _ hfar

end RvCkpt.Stub
