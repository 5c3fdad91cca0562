import RvCkpt.Mmu.Access
import RvCkpt.Lib.Runs

/-! # Transparency of the TLBs

A run of translations and flushes, in which the page tables may be changed at any time. Next to the
unit a run keeps what was inserted into each TLB, and for which address spaces the page tables have
been changed since the TLB was last flushed for them.
-/

namespace RvCkpt.Mmu
set_option autoImplicit false
open ByteMem Priv Isa Runs

/-! ## What a translation inserts -/

section
variable (so : ShiftOver) {P : Param} (M : Paging) {k : ℕ}

def missEvents (bus : Bus) (x : Access P) (fuel : ℕ) : List (TlbEvent P) :=
  match walk_page_table so P M bus x.sptbr x.va x.op fuel with
  | some (.leaf _ pte level _, _) =>
    if leafAddr so M pte x.va level = 0 then []
    else [.insert x.pdid x.asid x.va level (pte.flags.setWidth P.width)
      ((M.ppn pte).setWidth P.width)]
  | _ => []

def accessEvents (tlb : Tlb P k) (bus : Bus) (x : Access P) (fuel : ℕ) : List (TlbEvent P) :=
  match tlb.lookup x.pdid x.asid x.va with
  | some e => if e.outdated x.op then [] else missEvents so M bus x fuel
  | none => missEvents so M bus x fuel

variable {so M} {tlb : Tlb P k} {bus : Bus} {x : Access P} {fuel : ℕ}

theorem accessEvents_stale {e : TlbEntry P} (hlook : tlb.lookup x.pdid x.asid x.va = some e)
    (hout : e.outdated x.op = true) : accessEvents so M tlb bus x fuel = [] := by
  rw [accessEvents, hlook]
  exact if_pos hout

theorem accessEvents_walk
    (h : ∀ e, tlb.lookup x.pdid x.asid x.va = some e → e.outdated x.op = false) :
    accessEvents so M tlb bus x fuel = missEvents so M bus x fuel := by
  rw [accessEvents]
  split
  · rename_i e hlook
    rw [h e hlook, if_neg Bool.false_ne_true]
  · rfl

/-- A walk inserts its leaf or nothing. -/
theorem Walks.events {t : Translated P k} (h : Walks so M tlb bus x fuel t) :
    missEvents so M bus x fuel = [] ∧ t.tlb = tlb ∨
    ∃ bus' pte level addr n,
      walk_page_table so P M bus x.sptbr x.va x.op fuel = some (.leaf bus' pte level addr, n) ∧
      missEvents so M bus x fuel = [.insert x.pdid x.asid x.va level (pte.flags.setWidth P.width)
        ((M.ppn pte).setWidth P.width)] ∧
      t.tlb = tlb.insert x.pdid x.asid x.va level (pte.flags.setWidth P.width)
        ((M.ppn pte).setWidth P.width) := by
  cases h with
  | zero hwalk hzero =>
    refine .inl ⟨?_, rfl⟩
    rw [missEvents, hwalk]
    exact if_pos hzero
  | leaf hwalk hpa =>
    refine .inr ⟨_, _, _, _, _, hwalk, ?_, rfl⟩
    rw [missEvents, hwalk]
    exact if_neg hpa
  | fault hwalk =>
    refine .inl ⟨?_, rfl⟩
    rw [missEvents, hwalk]

/-- A walk changes the tables by accessed and dirty flags only. -/
theorem Walks.sameTables {t : Translated P k} (h : Walks so M tlb bus x fuel t) :
    SameTables M bus t.bus := by
  cases h with
  | zero hwalk _ =>
    obtain ⟨f, -, hval, hdvd, hup⟩ := walk_leaf hwalk
    exact hup.sameTables hval hdvd
  | leaf hwalk _ =>
    obtain ⟨f, -, hval, hdvd, hup⟩ := walk_leaf hwalk
    exact hup.sameTables hval hdvd
  | fault _ => exact SameTables.refl M bus

/-- What a walk gives that finds a leaf whose flags are set or can be set. -/
theorem walked_of_descend {f : Found P.width}
    (hdesc : descend so P M bus x.sptbr x.va fuel = some (some f))
    (hflags : f.pte.flags &&& x.op.adFlags = x.op.adFlags ∨ bus.writable f.addr = true) :
    walked so M bus x fuel = some (.ok (leafAddr so M f.pte x.va f.level)) := by
  have heq := walkFrom_eq_finish so M bus x.va x.op fuel (BitVec.ofNat P.width (M.levels - 1))
    (rootTable P x.sptbr)
  rw [descend] at hdesc
  rw [hdesc, Option.map_some] at heq
  obtain ⟨⟨w, n⟩, hwalk, hfin⟩ := Option.map_eq_some_iff.mp heq
  obtain rfl : w = finish M bus x.op (some f) := hfin
  unfold walked
  rw [walk_page_table, hwalk, finish]
  by_cases hset : f.pte.flags &&& x.op.adFlags = x.op.adFlags
  · rw [if_neg (fun h => h hset)]
  · have hwrite := hflags.resolve_left hset
    rw [if_pos hset, Bus.store, if_pos hwrite]
    dsimp only
    rw [leafAddr, (Pte.same_adFlags f.pte x.op).ppn M]
    rfl

/-- A walk gives one result, however much fuel it has. -/
theorem walked_unique {n m : ℕ} {r r' : Except Cause (BitVec 64)}
    (h : walked so M bus x n = some r) (h' : walked so M bus x m = some r') : r = r' := by
  have hfin : ∀ {n : ℕ} {r : Except Cause (BitVec 64)}, walked so M bus x n = some r →
      ∃ f, descend so P M bus x.sptbr x.va n = some f ∧
        (match finish M bus x.op f with
          | .leaf _ pte level _ => some (.ok (leafAddr so M pte x.va level))
          | .fault cause => some (.error cause)
          | .at _ _ => none) = some r := by
    intro n r hn
    unfold walked at hn
    split at hn
    · rename_i hwalk
      obtain ⟨f, hdesc, hf⟩ := walk_page_table_eq_finish hwalk
      exact ⟨f, hdesc, by rw [hf]; exact hn⟩
    · rename_i hwalk
      obtain ⟨f, hdesc, hf⟩ := walk_page_table_eq_finish hwalk
      exact ⟨f, hdesc, by rw [hf]; exact hn⟩
    · cases hn
  obtain ⟨f, hdesc, hr⟩ := hfin h
  obtain ⟨f', hdesc', hr'⟩ := hfin h'
  obtain rfl := leafFrom_unique hdesc hdesc'
  exact Option.some.inj (hr.symm.trans hr')

end

/-! ## Runs -/

inductive VmEvent (P : Param) where
  | translate (x : Access P) (fuel : ℕ)
  | flush (l : L1) (pdid : UX P)
  | flushAsid (l : L1) (pdid asid : UX P)
  /-- The paging mode, the memory or the roots become others. -/
  | change (vm : Paging) (bus : Bus) (sptbr : UX P → UX P → UX P)

/-- The unit, the value of sptbr for each domain and address space, what was inserted into each TLB
(the newest first), and where the page tables have changed since the TLB was flushed. -/
structure Traced (P : Param) (k : ℕ) where
  mmu : MmuSoft P k
  vm : Paging
  sptbr : UX P → UX P → UX P
  log : L1 → List (TlbEvent P)
  changed : L1 → UX P → UX P → Prop

namespace Traced

section
variable (so : ShiftOver) {P : Param} {k : ℕ}

def start (P : Param) (k : ℕ) (vm : Paging) (bus : Bus) (sptbr : UX P → UX P → UX P) :
    Traced P k :=
  ⟨.start P k bus, vm, sptbr, fun _ => [], fun _ _ _ => False⟩

/-- The page tables of a domain and an address space. -/
def tables (s : Traced P k) (pdid asid va : UX P) : Option (Option (Found P.width)) :=
  descend so P s.vm s.mmu.bus (s.sptbr pdid asid) va s.vm.levels

/-- What the page tables map an address to, at which level. -/
def mapping (s : Traced P k) (pdid asid va : UX P) :
    Option (Option (BitVec 64 × UX P)) :=
  (s.tables so pdid asid va).map (Option.map (Found.mapping s.vm))

def step (s : Traced P k) : VmEvent P → Option (Traced P k)
  | .translate x fuel =>
    if s.sptbr x.pdid x.asid = x.sptbr then
      (s.mmu.translate so s.vm x fuel).map fun r =>
        { s with
          mmu := r.2
          log := Function.update s.log x.op.l1
            (accessEvents so s.vm (s.mmu.tlb x.op.l1) s.mmu.bus x fuel ++ s.log x.op.l1) }
    else none
  | .flush l pdid =>
    some { s with
      mmu := s.mmu.flush l pdid
      log := Function.update s.log l (.flush pdid :: s.log l)
      changed := fun l' p a => s.changed l' p a ∧ ¬(l' = l ∧ pdid = p) }
  | .flushAsid l pdid asid =>
    some { s with
      mmu := s.mmu.flushAsid l pdid asid
      log := Function.update s.log l (.flushAsid pdid asid :: s.log l)
      changed := fun l' p a => s.changed l' p a ∧ ¬(l' = l ∧ (asid = 0 ∨ pdid = p ∨ asid = a)) }
  | .change vm bus sptbr =>
    let s' : Traced P k := { s with mmu := { s.mmu with bus := bus }, vm := vm, sptbr := sptbr }
    some { s' with
      changed := fun l p a => s.changed l p a ∨ ∃ va, s'.mapping so p a va ≠ s.mapping so p a va }

/-- A translation returns what the walk returns, if the page tables are as they were when the TLB
was flushed; and it hits an entry only that was inserted for its key and not flushed since. -/
def Transparent (s : Traced P k) : VmEvent P → Prop
  | .translate x fuel =>
    (∀ r u, s.mmu.translate so s.vm x fuel = some (r, u) →
      ¬ s.changed x.op.l1 x.pdid x.asid → ∃ n, walked so s.vm s.mmu.bus x n = some r) ∧
    ∀ e, (s.mmu.tlb x.op.l1).lookup x.pdid x.asid x.va = some e →
      latest x.pdid x.asid (vpnOf x.va) (s.log x.op.l1) ≠ none
  | _ => True

/-- What a translation needs: a paging mode for the machine's words, a domain that an entry can
hold, a slot that was filled if its key is that of an empty one, and, where an outdated entry is
used, a bounded walk to a page number that an entry can hold whose flags can be set. -/
structure Safe (s : Traced P k) (x : Access P) : Prop where
  fitting : Fitting s.vm P.width
  domain : x.pdid.toNat < 2 ^ 32
  filled : Sentinel x.pdid x.asid (vpnOf x.va) →
    s.mmu.tlb x.op.l1 ((vpnOf x.va).setWidth k) ≠ .empty
  stale : ∀ e, (s.mmu.tlb x.op.l1).lookup x.pdid x.asid x.va = some e → e.outdated x.op = true →
    ¬ s.changed x.op.l1 x.pdid x.asid → ∃ r, s.tables so x.pdid x.asid x.va = some r ∧
      ∀ f, r = some f → (s.vm.ppn f.pte).toNat < 2 ^ P.ppnBits ∧
        (f.pte.flags &&& x.op.adFlags = x.op.adFlags ∨ s.mmu.bus.writable f.addr = true)

def SafeStep (s : Traced P k) : VmEvent P → Prop
  | .translate x _ => s.Safe so x
  | _ => True

/-! ### The invariant -/

/-- What was last inserted for a page is what the page tables say. -/
def Cached (s : Traced P k) : Prop :=
  ∀ l p a vpn ptel pteb ppn, ¬ s.changed l p a →
    latest p a vpn (s.log l) = some (ptel, pteb, ppn) → ∀ va, vpnOf va = vpn →
      ∀ m, s.mapping so p a va = some m → ∃ n, m = some (n, ptel) ∧ ppn = n.setWidth P.width

structure Sound (s : Traced P k) : Prop where
  tlb : ∀ l, s.mmu.tlb l = tlbOf k (s.log l)
  fits : ∀ l, ∀ e ∈ s.log l, e.Fits
  cached : s.Cached so

variable {so} {s : Traced P k} {x : Access P} {fuel : ℕ}

theorem sound_start (vm : Paging) (bus : Bus) (sptbr : UX P → UX P → UX P) :
    (start P k vm bus sptbr).Sound so where
  tlb _ := rfl
  fits _ _ he := absurd he List.not_mem_nil
  cached _ _ _ _ _ _ _ _ hlat := nomatch hlat

/-- A hit is on the newest entry that was inserted for its key. -/
theorem Sound.lookup (hs : s.Sound so) (hx : s.Safe so x) {e : TlbEntry P}
    (h : (s.mmu.tlb x.op.l1).lookup x.pdid x.asid x.va = some e) :
    ∃ ptel pteb ppn,
      latest x.pdid x.asid (vpnOf x.va) (s.log x.op.l1) = some (ptel, pteb, ppn) ∧
        e = .new x.pdid x.asid (vpnOf x.va) ptel pteb ppn := by
  have hfilled := hx.filled
  rw [hs.tlb] at h hfilled
  exact lookup_latest (hs.fits x.op.l1) hfilled h

theorem setWidth_of_small {w n m : ℕ} {p : BitVec n} (h : p.toNat < 2 ^ m) :
    ((p.setWidth w).setWidth m).setWidth w = p.setWidth w := by
  apply setWidth_setWidth_of_lt
  rw [BitVec.toNat_setWidth]
  exact (Nat.mod_le _ _).trans_lt h

/-- The address that an outdated entry gives is that of its leaf. -/
theorem Sound.stale (hs : s.Sound so) (hx : s.Safe so x) (hroot : s.sptbr x.pdid x.asid = x.sptbr)
    {e : TlbEntry P} (hlook : (s.mmu.tlb x.op.l1).lookup x.pdid x.asid x.va = some e)
    (hout : e.outdated x.op = true) (hch : ¬ s.changed x.op.l1 x.pdid x.asid) :
    walked so s.vm s.mmu.bus x s.vm.levels = some (.ok (e.addr so s.vm x.va)) := by
  obtain ⟨ptel, pteb, ppn, hlat, rfl⟩ := hs.lookup hx hlook
  obtain ⟨r, htab, hr⟩ := hx.stale _ hlook hout hch
  have hmap : s.mapping so x.pdid x.asid x.va = some (r.map (Found.mapping s.vm)) := by
    rw [mapping, htab]
    rfl
  obtain ⟨n, hfound, hppn⟩ := hs.cached _ _ _ _ _ _ _ hch hlat x.va rfl _ hmap
  obtain ⟨f, rfl, hf⟩ := Option.map_eq_some_iff.mp hfound
  obtain ⟨hn, hlevel⟩ := Prod.mk.inj hf
  obtain ⟨hsmall, hflags⟩ := hr f rfl
  rw [tables, hroot] at htab
  rw [walked_of_descend htab hflags]
  have hptel : (ptel.setWidth 2).setWidth P.width = ptel := by
    obtain ⟨j, hj, hjl⟩ := leafFrom_level htab
    apply setWidth_setWidth_of_lt
    rw [← hlevel, hjl, BitVec.toNat_ofNat]
    exact (Nat.mod_le _ _).trans_lt (hj.trans_le s.vm.hlevels.2)
  unfold TlbEntry.addr leafAddr TlbEntry.new
  dsimp only
  rw [hptel, hppn, ← hn, setWidth_of_small hsmall, hlevel]

theorem Sound.transparent (hs : s.Sound so) (hx : s.Safe so x)
    (hroot : s.sptbr x.pdid x.asid = x.sptbr) : s.Transparent so (.translate x fuel) := by
  refine ⟨fun r u htr hch => ?_, fun e hlook => ?_⟩
  · obtain ⟨t, hpage, heq⟩ := Option.map_eq_some_iff.mp htr
    obtain ⟨rfl, -⟩ := Prod.mk.inj heq
    rcases page_translate_addr_cases hpage with ⟨e, hlook, hout, rfl⟩ | ⟨-, hwalk⟩
    · exact ⟨s.vm.levels, hs.stale hx hroot hlook hout hch⟩
    · exact ⟨fuel, hwalk.walked⟩
  · obtain ⟨ptel, pteb, ppn, hlat, -⟩ := hs.lookup hx hlook
    rw [hlat]
    exact nofun

/-! ### What a step keeps -/

theorem mapping_of_sameTables {s s' : Traced P k} (hvm : s'.vm = s.vm) (hsptbr : s'.sptbr = s.sptbr)
    (hbus : SameTables s.vm s.mmu.bus s'.mmu.bus) (p a va : UX P) :
    s'.mapping so p a va = s.mapping so p a va := by
  unfold mapping tables descend
  rw [hvm, hsptbr]
  exact leafFrom_same P.hword hbus va _ _ (pageAligned_rootTable P _)

theorem asid_lt (x : Access P) : x.asid.toNat < 2 ^ P.asidBits := by
  rw [Access.asid, BitVec.toNat_ushiftRight, Nat.shiftRight_eq_div_pow]
  apply Nat.div_lt_of_lt_mul
  rw [← Nat.pow_add, Nat.add_comm, P.hsum]
  exact x.sptbr.isLt

/-- The leaf that a walk inserts is the mapping of all addresses of the page. -/
theorem mapping_of_walk (hfit : Fitting s.vm P.width) (hroot : s.sptbr x.pdid x.asid = x.sptbr)
    {bus' : Bus} {pte : Pte} {level : UX P} {addr n : ℕ}
    (hwalk : walk_page_table so P s.vm s.mmu.bus x.sptbr x.va x.op fuel =
      some (.leaf bus' pte level addr, n)) {va : UX P} (hva : vpnOf va = vpnOf x.va)
    {m : Option (BitVec 64 × UX P)} (hm : s.mapping so x.pdid x.asid va = some m) :
    m = some (s.vm.ppn pte, level) := by
  obtain ⟨f, hdesc, -, -, hup⟩ := walk_leaf hwalk
  obtain ⟨r, htab, rfl⟩ := Option.map_eq_some_iff.mp hm
  rw [tables, hroot, descend, leafFrom_page hfit _ hva (Nat.le_refl _)] at htab
  obtain rfl := leafFrom_unique htab hdesc
  rw [Option.map_some, Found.mapping, hup.same.ppn s.vm, hup.level]

theorem Sound.walk (hs : s.Sound so) (hx : s.Safe so x) (hroot : s.sptbr x.pdid x.asid = x.sptbr)
    {t : Translated P k} (hwalk : Walks so s.vm (s.mmu.tlb x.op.l1) s.mmu.bus x fuel t) :
    Sound so { s with
      mmu := ⟨Function.update s.mmu.tlb x.op.l1 t.tlb, t.bus⟩
      log := Function.update s.log x.op.l1
        (missEvents so s.vm s.mmu.bus x fuel ++ s.log x.op.l1) } := by
  have hmapping : ∀ p a va, Traced.mapping so { s with
      mmu := ⟨Function.update s.mmu.tlb x.op.l1 t.tlb, t.bus⟩
      log := Function.update s.log x.op.l1
        (missEvents so s.vm s.mmu.bus x fuel ++ s.log x.op.l1) } p a va = s.mapping so p a va :=
    mapping_of_sameTables rfl rfl hwalk.sameTables
  rcases hwalk.events with ⟨hnil, htlb⟩ | ⟨bus', pte, level, addr, n, hleaf, hins, htlb⟩
  · rw [hnil, htlb, List.nil_append, Function.update_eq_self, Function.update_eq_self] at hmapping ⊢
    refine ⟨hs.tlb, hs.fits, ?_⟩
    intro l p a vpn ptel pteb ppn hch hlat va hva m hm
    rw [hmapping] at hm
    exact hs.cached l p a vpn ptel pteb ppn hch hlat va hva m hm
  · rw [hins, htlb, List.singleton_append] at hmapping ⊢
    refine ⟨fun l => ?_, fun l => ?_, ?_⟩
    · by_cases hl : l = x.op.l1
      · subst hl
        dsimp only
        rw [Function.update_self, Function.update_self, hs.tlb]
        rfl
      · dsimp only
        rw [Function.update_of_ne hl, Function.update_of_ne hl]
        exact hs.tlb l
    · by_cases hl : l = x.op.l1
      · subst hl
        dsimp only
        rw [Function.update_self]
        intro e he
        rcases List.mem_cons.mp he with rfl | he
        · exact ⟨hx.domain, asid_lt x⟩
        · exact hs.fits _ e he
      · dsimp only
        rw [Function.update_of_ne hl]
        exact hs.fits l
    · intro l p a vpn ptel pteb ppn hch hlat va hva m hm
      rw [hmapping] at hm
      by_cases hl : l = x.op.l1
      · subst hl
        dsimp only at hlat
        rw [Function.update_self, latest] at hlat
        split at hlat
        · rename_i hkey
          obtain ⟨rfl, rfl, rfl⟩ := hkey
          obtain ⟨rfl, rfl⟩ : level = ptel ∧ (s.vm.ppn pte).setWidth P.width = ppn := by
            have hval := Option.some.inj hlat
            exact ⟨congrArg Prod.fst hval, congrArg (fun v => v.2.2) hval⟩
          exact ⟨_, mapping_of_walk hx.fitting hroot hleaf hva hm, rfl⟩
        · exact hs.cached _ p a vpn ptel pteb ppn hch hlat va hva m hm
      · dsimp only at hlat
        rw [Function.update_of_ne hl] at hlat
        exact hs.cached l p a vpn ptel pteb ppn hch hlat va hva m hm

/-- A flush of one TLB: what it forgets is no longer changed. -/
theorem Sound.flushed (hs : s.Sound so) {l : L1} {e : TlbEvent P} {tlb : Tlb P k}
    (covers : UX P → UX P → Prop) (htlb : tlbOf k (e :: s.log l) = tlb) (hfits : e.Fits)
    (hcovers : ∀ p a vpn, covers p a → latest p a vpn (e :: s.log l) = none)
    (hothers : ∀ p a vpn, ¬ covers p a →
      latest p a vpn (e :: s.log l) = latest p a vpn (s.log l)) :
    Sound so { s with
      mmu := { s.mmu with tlb := Function.update s.mmu.tlb l tlb }
      log := Function.update s.log l (e :: s.log l)
      changed := fun l' p a => s.changed l' p a ∧ ¬(l' = l ∧ covers p a) } := by
  refine ⟨fun l' => ?_, fun l' => ?_, ?_⟩
  · by_cases hl : l' = l
    · subst hl
      dsimp only
      rw [Function.update_self, Function.update_self, htlb]
    · dsimp only
      rw [Function.update_of_ne hl, Function.update_of_ne hl]
      exact hs.tlb l'
  · by_cases hl : l' = l
    · subst hl
      dsimp only
      rw [Function.update_self]
      intro e' he'
      rcases List.mem_cons.mp he' with rfl | he'
      · exact hfits
      · exact hs.fits _ e' he'
    · dsimp only
      rw [Function.update_of_ne hl]
      exact hs.fits l'
  · intro l' p a vpn ptel pteb ppn hch hlat va hva m hm
    by_cases hl : l' = l
    · subst hl
      dsimp only at hlat hch
      rw [Function.update_self] at hlat
      by_cases hcov : covers p a
      · rw [hcovers p a vpn hcov] at hlat
        cases hlat
      · rw [hothers p a vpn hcov] at hlat
        exact hs.cached l' p a vpn ptel pteb ppn (fun h => hch ⟨h, fun hc => hcov hc.2⟩) hlat va hva
          m hm
    · dsimp only at hlat hch
      rw [Function.update_of_ne hl] at hlat
      exact hs.cached l' p a vpn ptel pteb ppn (fun h => hch ⟨h, fun hc => hl hc.1⟩) hlat va hva m hm

theorem Sound.step (hs : s.Sound so) {e : VmEvent P} {s' : Traced P k}
    (h : s.step so e = some s') (hsafe : s.SafeStep so e) : s'.Sound so := by
  cases e with
  | translate x fuel =>
    rw [Traced.step] at h
    split at h
    · rename_i hroot
      obtain ⟨r, htr, rfl⟩ := Option.map_eq_some_iff.mp h
      obtain ⟨t, hpage, rfl⟩ := Option.map_eq_some_iff.mp htr
      rcases page_translate_addr_cases hpage with ⟨e, hlook, hout, rfl⟩ | ⟨hcur, hwalk⟩
      · dsimp only
        rw [accessEvents_stale hlook hout, List.nil_append, Function.update_eq_self,
          Function.update_eq_self]
        exact hs
      · rw [accessEvents_walk hcur]
        exact hs.walk hsafe hroot hwalk
    · cases h
  | flush l pdid =>
    obtain rfl := Option.some.inj h
    refine hs.flushed (fun p _ => pdid = p) ?_ trivial (fun p a vpn hc => if_pos hc)
      (fun p a vpn hc => if_neg hc)
    rw [tlbOf, hs.tlb]
  | flushAsid l pdid asid =>
    obtain rfl := Option.some.inj h
    refine hs.flushed (fun p a => asid = 0 ∨ pdid = p ∨ asid = a) ?_ trivial
      (fun p a vpn hc => if_pos hc) (fun p a vpn hc => if_neg hc)
    rw [tlbOf, hs.tlb]
  | change vm bus sptbr =>
    obtain rfl := Option.some.inj h
    refine ⟨hs.tlb, hs.fits, ?_⟩
    intro l p a vpn ptel pteb ppn hch hlat va hva m hm
    dsimp only at hch
    push Not at hch
    obtain ⟨hch, hsame⟩ := hch
    exact hs.cached l p a vpn ptel pteb ppn hch hlat va hva m ((hsame va).symm.trans hm)

theorem Sound.transparentStep (hs : s.Sound so) {e : VmEvent P} {s' : Traced P k}
    (h : s.step so e = some s') (hsafe : s.SafeStep so e) : s.Transparent so e := by
  cases e with
  | translate x fuel =>
    rw [Traced.step] at h
    split at h
    · rename_i hroot
      exact hs.transparent hsafe hroot
    · cases h
  | flush l pdid => trivial
  | flushAsid l pdid asid => trivial
  | change vm bus sptbr => trivial

end

end Traced

/-- **Transparency.** In a run whose translations are all safe, translating gives what walking the
page tables gives, and hits are on what was inserted and not flushed. -/
theorem transparent_of_safe (so : ShiftOver) {P : Param} {k : ℕ} (vm : Paging) (bus : Bus)
    (sptbr : UX P → UX P → UX P) (es : List (VmEvent P)) :
    Meets (Traced.step so) (Traced.SafeStep so) (Traced.start P k vm bus sptbr) es →
      Meets (Traced.step so) (Traced.Transparent so) (Traced.start P k vm bus sptbr) es :=
  Meets.imp (q := Traced.Sound so) (fun _ _ _ h hs hc => hs.step h hc)
    (fun _ _ _ h hs hc => hs.transparentStep h hc) (Traced.sound_start vm bus sptbr)

/-- Shifts by the width of the word or more, which the walks below do not make. -/
def anyShift : ShiftOver := ⟨fun _ _ x _ => x⟩

/-- A load and then a store, both to address 0. -/
def loadThenStore32 : List (VmEvent param_rv32) :=
  [.translate ⟨0, 0, 0, .load⟩ 2, .translate ⟨0, 0, 0, .store⟩ 2]

theorem fitting_sv32 : Fitting sv32 param_rv32.width := by
  unfold Fitting
  decide

theorem loadThenStore32_transparent :
    Meets (Traced.step anyShift) (Traced.Transparent anyShift)
      (Traced.start param_rv32 7 sv32 leafBus fun _ _ => 0) loadThenStore32 := by
  refine transparent_of_safe anyShift sv32 leafBus (fun _ _ => 0) loadThenStore32 fun s hs => ?_
  refine ⟨⟨fitting_sv32, by decide, fun h => absurd h.2.1 (by decide), nofun⟩, ?_⟩
  obtain rfl := Option.some.inj hs
  refine fun _ _ => ⟨⟨fitting_sv32, by decide, fun h => absurd h.2.1 (by decide), ?_⟩, trivial⟩
  intro e _ _ _
  refine ⟨_, rfl, fun f hf => ?_⟩
  obtain rfl := Option.some.inj hf
  exact ⟨of_decide_eq_true rfl, .inr rfl⟩

/-- A memory whose first entry maps 1 GiB at a page number of 39 bits. -/
def farBus : Bus :=
  ⟨Mem.write (fun _ => 0) 0 8 ((2 ^ 38 + 2 ^ 18) <<< 10 ||| 7), fun _ => true, fun _ => true⟩

/-- A load and then a store, both to address 0 of address space 0. -/
def loadThenStore64 : List (VmEvent param_rv64) :=
  [.translate ⟨0, 0, 0, .load⟩ 3, .translate ⟨0, 0, 0, .store⟩ 3]

/-- The store uses the entry that the load left, which lacks the highest bit of the page number. -/
theorem loadThenStore64_not_transparent :
    ¬ Meets (Traced.step anyShift) (Traced.Transparent anyShift)
      (Traced.start param_rv64 7 sv39 farBus fun _ _ => 0) loadThenStore64 := by
  intro h
  obtain ⟨n, hn⟩ := (((h _ rfl).2 _ rfl).1).1 _ _ rfl id
  have heq := walked_unique hn (rfl : walked _ _ _ _ 3 = some (.ok 0x4000040000000))
  have hstore := Except.ok.inj heq
  have hne : (0x40000000 : BitVec 64) ≠ 0x4000040000000 := by decide
  exact hne hstore

end RvCkpt.Mmu
