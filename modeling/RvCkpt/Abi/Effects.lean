import RvCkpt.Abi.Calls

/-! # What the handlers do to memory

The bytes that a handler changes, and those of them that it reports.
-/

namespace RvCkpt.Abi
open ByteMem
set_option autoImplicit false

/-! ## Recorded effects -/

namespace Report

def Covers (r : Report) (b : ℕ) : Prop := r.addr ≠ 0 ∧ r.addr ≤ b ∧ b < r.addr + r.size

/-- The record is replayed on a memory. -/
def replay (m : Mem) (r : Report) : Mem :=
  match r.write with
  | some (addr, data) => m.writeBytes addr data
  | none => m

end Report

/-- Each byte that has changed is recorded with its new value, and replaying the record on an image
of memory before the call gives memory after it. -/
structure Done.Right (p : Proc) (d : Done) : Prop where
  covered : ∀ b, d.space.mem b ≠ p.space.mem b →
    ∃ r ∈ d.calls, r.Covers b ∧ r.live b = d.space.mem b
  replayed : ∀ (image : Mem) (b : ℕ), image b = p.space.mem b →
    d.calls.foldl Report.replay image b = d.space.mem b

/-- Memory after the writes of a call that it does not record. -/
def AbiSyscall.unrecorded (p : Proc) (h : Host) : AbiSyscall → Mem
  | fcntl =>
    if p.a1 = F_GETLK ∧ 0 ≤ h.ret.toInt then stored p.space.mem p.a2.toNat [(0, h.flock)]
    else p.space.mem
  | ioctl =>
    if p.a1 = TIOCGWINSZ ∧ h.ret = 0 then stored p.space.mem p.a2.toNat (winsizePieces h.winsize)
    else p.space.mem
  | readv =>
    stored p.space.mem 0
      (scatter (iovecs p.space.mem p.a1.toNat p.iovcnt) h.ret.toInt.toNat h.data)
  | fstatat =>
    if h.ret = 0 then p.space.mem else stored p.space.mem p.a2.toNat (cvt_abi_stat h.stat)
  | fstat =>
    if h.ret = 0 then p.space.mem else stored p.space.mem p.a1.toNat (cvt_abi_stat h.stat)
  | uname =>
    if h.ret = 0 then p.space.mem else stored p.space.mem p.a0.toNat (utsnamePieces h.utsname)
  | gettimeofday =>
    let m := if p.a0 ≠ 0 then stored p.space.mem p.a0.toNat (timevalPieces h.timeval)
      else p.space.mem
    if p.a1 ≠ 0 then stored m p.a1.toNat (timezonePieces h.timezone) else m
  | wait4 =>
    let m := if 0 < h.ret.toInt ∧ p.a1 ≠ 0 then
        stored p.space.mem p.a1.toNat [(0, (List.range 4).map h.data)]
      else p.space.mem
    if p.a3 ≠ 0 then stored m p.a3.toNat (cvt_abi_rusage h.rusage) else m
  | brk => (p.space.sysBrk p.a0.toNat h.heap).mem
  | mmap => (p.space.sysMmap (mmapCall p h)).mem
  | _ => p.space.mem

/-! ## Storing a structure -/

theorem stored_of_outside {m : Mem} {a size b : ℕ} {pieces : List Piece}
    (hsize : ∀ x ∈ pieces, x.1 + x.2.length ≤ size) (hb : b < a ∨ a + size ≤ b) :
    stored m a pieces b = m b := by
  induction pieces generalizing m with
  | nil => rfl
  | cons x pieces ih =>
    obtain ⟨hx, hpieces⟩ := List.forall_mem_cons.mp hsize
    rw [stored, List.foldl_cons, ← stored, ih hpieces, Mem.writeBytes_of_not_mem]
    omega

theorem put_mem {s s' : Space} {a : ℕ} {pieces : List Piece} (h : s.put a pieces = some s') :
    s'.mem = stored s.mem a pieces := by
  unfold Space.put at h
  split at h
  · rw [← Option.some.inj h]
  · cases h

theorem putIf_mem {c : Bool} {s s' : Space} {a : BitVec 64} {pieces : List Piece}
    (h : putIf c s a pieces = some s') :
    s'.mem = if c then stored s.mem a.toNat pieces else s.mem := by
  unfold putIf at h
  split at h
  · rename_i hc
    rw [if_pos hc]
    exact put_mem h
  · rename_i hc
    rw [if_neg hc, Option.some.inj h]

/-- A structure at the null page is not accessible. -/
theorem put_null {s s' : Space} {a : ℕ} {pieces : List Piece} {bs : List Byte}
    (hnull : s.mapped 0 = false) (hfirst : (0, bs) ∈ pieces) (hbs : bs ≠ [])
    (h : s.put a pieces = some s') : a ≠ 0 := by
  rintro rfl
  unfold Space.put at h
  split at h
  · rename_i hall
    have hread := List.all_eq_true.mp hall _ hfirst
    have hpos : 0 ∈ List.range bs.length := List.mem_range.mpr (List.length_pos_iff.mpr hbs)
    have hzero : s.mapped 0 = true := List.all_eq_true.mp hread 0 hpos
    rw [hnull] at hzero
    cases hzero
  · cases h

theorem le_length {w : ℕ} (n : ℕ) (x : BitVec w) : (le n x).length = n := by
  rw [le, List.length_map, List.length_range]

theorem strncpy_length (src : List Byte) : (strncpy src).length = abi_NEW_UTS_LEN := by
  have hle := List.length_take_le abi_NEW_UTS_LEN (src.takeWhile (· ≠ 0))
  rw [strncpy, List.length_append, List.length_replicate]
  omega

/-- A structure begins at its address and is not longer than `size`. -/
structure Fits (pieces : List Piece) (size : ℕ) : Prop where
  first : ∃ bs, bs ≠ [] ∧ (0, bs) ∈ pieces
  bound : ∀ x ∈ pieces, x.1 + x.2.length ≤ size

theorem fits_stat (s : HostStat) : Fits (cvt_abi_stat s) sizeof_stat := by
  refine ⟨⟨le 8 s.st_dev, List.cons_ne_nil _ _, List.mem_cons_self⟩, ?_⟩
  simp [cvt_abi_stat, le_length, sizeof_stat]

theorem fits_rusage (r : HostRusage) : Fits (cvt_abi_rusage r) sizeof_rusage := by
  refine ⟨⟨le 8 r.ru_utime.1, List.cons_ne_nil _ _, List.mem_cons_self⟩, ?_⟩
  simp [cvt_abi_rusage, le_length, sizeof_rusage]

theorem fits_timespec (t : BitVec 64) : Fits (timespecPieces t) sizeof_timespec := by
  refine ⟨⟨le 8 (t / 1000000000), List.cons_ne_nil _ _, List.mem_cons_self⟩, ?_⟩
  simp [timespecPieces, le_length, sizeof_timespec]

theorem fits_tms (t : HostTms) : Fits (tmsPieces t) sizeof_tms := by
  refine ⟨⟨le 8 t.tms_utime, List.cons_ne_nil _ _, List.mem_cons_self⟩, ?_⟩
  simp [tmsPieces, le_length, sizeof_tms]

theorem fits_utsname (u : HostUtsname) : Fits (utsnamePieces u) sizeof_utsname := by
  refine ⟨⟨strncpy u.sysname, ?_, List.mem_cons_self⟩, ?_⟩
  · intro hnil
    have hlen := strncpy_length u.sysname
    rw [hnil] at hlen
    cases hlen
  · simp [utsnamePieces, strncpy_length, sizeof_utsname, abi_NEW_UTS_LEN]

theorem fits_sysinfo : Fits [(0, List.replicate sizeof_sysinfo 0)] sizeof_sysinfo := by
  refine ⟨⟨_, List.cons_ne_nil _ _, List.mem_singleton_self _⟩, ?_⟩
  simp

theorem fits_bytes {n : ℕ} (hn : n ≠ 0) (data : ℕ → Byte) :
    Fits [(0, (List.range n).map data)] n := by
  refine ⟨⟨_, ?_, List.mem_singleton_self _⟩, ?_⟩
  · rwa [Ne, List.map_eq_nil_iff, List.range_eq_nil]
  · simp

/-! ## The handlers -/

variable {p : Proc} {h : Host}

theorem plain_right (s : Space) (a0 : BitVec 64) :
    Leaves (plain s a0) fun d => d.Right p ↔ s.mem = p.space.mem := by
  refine Leaves.returned ⟨fun hright => ?_, fun hsame => ?_⟩
  · by_contra hne
    obtain ⟨b, hb⟩ := Function.ne_iff.mp hne
    obtain ⟨r, hr, ⟨haddr, -⟩, -⟩ := hright.covered b hb
    rw [List.mem_singleton.mp hr] at haddr
    exact haddr rfl
  · refine ⟨fun b hb => absurd (congrFun hsame b) hb, fun image b hb => ?_⟩
    exact hb.trans (congrFun hsame b).symm

theorem silent_right (s : Space) (a0 : BitVec 64) :
    Leaves (silent s a0) fun d => d.Right p ↔ s.mem = p.space.mem := by
  refine Leaves.returned ⟨fun hright => ?_, fun hsame => ?_⟩
  · by_contra hne
    obtain ⟨b, hb⟩ := Function.ne_iff.mp hne
    obtain ⟨r, hr, -⟩ := hright.covered b hb
    cases hr
  · refine ⟨fun b hb => absurd (congrFun hsame b) hb, fun image b hb => ?_⟩
    exact hb.trans (congrFun hsame b).symm

/-- A record that covers all that has changed. -/
theorem covered_right {s : Space} {retval a0 addr : BitVec 64} {size : ℕ}
    (hcover : ∀ b, s.mem b ≠ p.space.mem b →
      addr.toNat ≠ 0 ∧ addr.toNat ≤ b ∧ b < addr.toNat + size) :
    Leaves (written s retval a0 addr size) fun d => d.Right p := by
  refine Leaves.returned ⟨fun b hb => ?_, fun image b hb => ?_⟩
  · exact ⟨_, List.mem_singleton_self _, hcover b hb, rfl⟩
  · have hsame : ¬ (addr.toNat ≠ 0 ∧ addr.toNat ≤ b ∧ b < addr.toNat + size) →
        s.mem b = p.space.mem b := fun hout => not_not.mp fun hne => hout (hcover b hne)
    rw [List.foldl_cons, List.foldl_nil, Report.replay, Report.write]
    by_cases hnull : addr.toNat ≠ 0
    · rw [if_pos hnull]
      dsimp only
      by_cases hin : addr.toNat ≤ b ∧ b < addr.toNat + size
      · have hlen : (s.mem.bytes addr.toNat size).length = size := by
          rw [Mem.bytes, List.length_map, List.length_range]
        have hlt : b - addr.toNat < size := by omega
        rw [Mem.writeBytes_of_mem (by rw [hlen]; exact hin), Mem.bytes,
          List.getD_eq_getElem?_getD, List.getElem?_map, List.getElem?_range hlt,
          Option.map_some, Option.getD_some, Nat.add_sub_cancel' hin.1]
      · have hlen : (s.mem.bytes addr.toNat size).length = size := by
          rw [Mem.bytes, List.length_map, List.length_range]
        rw [Mem.writeBytes_of_not_mem (by rw [hlen]; omega), hb]
        exact (hsame fun hall => hin hall.2).symm
    · rw [if_neg hnull]
      exact hb.trans (hsame fun hall => hnull hall.1).symm

/-- A structure that is stored and recorded. -/
theorem written_right {s : Space} {retval a0 addr : BitVec 64} {pieces : List Piece} {size : ℕ}
    (hfits : Fits pieces size) (hput : p.space.put addr.toNat pieces = some s) :
    Leaves (written s retval a0 addr size) fun d => d.Right p := by
  obtain ⟨bs, hbs, hfirst⟩ := hfits.first
  refine covered_right fun b hb => ⟨put_null p.null hfirst hbs hput, ?_⟩
  by_contra hout
  refine hb ?_
  rw [put_mem hput]
  exact stored_of_outside hfits.bound (by omega)

theorem filled_right (p : Proc) (h : Host) (buf : BitVec 64) :
    Leaves (filled p h buf) fun d => d.Right p := by
  refine Leaves.ite (fun hpos => Leaves.bind fun s hput => ?_) fun _ => ?_
  · refine written_right (fits_bytes ?_ h.data) hput
    intro hzero
    have hret : h.ret = 0#32 := BitVec.eq_of_toNat_eq hzero
    rw [hret] at hpos
    cases hpos
  · exact (plain_right p.space h.result).imp fun d hd => hd.mpr rfl

theorem converted_right (p : Proc) (h : Host) {buf : BitVec 64} {pieces : List Piece} {size : ℕ}
    (hfits : Fits pieces size) :
    Leaves (converted p h buf pieces size) fun d => d.Right p ↔
      (if h.ret = 0 then p.space.mem else stored p.space.mem buf.toNat pieces) = p.space.mem := by
  refine Leaves.bind fun s hput => Leaves.ite (fun hret => ?_) fun hret => ?_
  · refine (written_right hfits hput).imp fun d hd => iff_of_true hd ?_
    rw [if_pos hret]
  · rw [if_neg hret, ← put_mem hput]
    exact plain_right s h.result

theorem getcwd_right (p : Proc) (h : Host) :
    Leaves (abi_sys_getcwd p h) fun d => d.Right p := by
  unfold abi_sys_getcwd
  cases hcwd : h.getcwd p.a0 p.a1 with
  | none => exact covered_right fun b hb => absurd rfl hb
  | some path =>
    refine Leaves.bind fun s hput => ?_
    by_cases hnull : p.a0 = 0
    · have hmem := putIf_mem hput
      rw [if_neg (by simp [hnull])] at hmem
      exact covered_right fun b hb => absurd (congrFun hmem b) hb
    · rw [putIf, if_pos (decide_eq_true hnull)] at hput
      refine written_right ⟨⟨_, List.append_ne_nil_of_right_ne_nil _ (List.cons_ne_nil _ _),
        List.mem_singleton_self _⟩, ?_⟩ hput
      intro x hx
      rw [List.mem_singleton.mp hx, List.length_append, List.length_singleton]
      obtain ⟨-, hlen⟩ := Option.filter_eq_some_iff.mp hcwd
      have hlen : path.length < p.a1.toNat ∨ (p.a0 = 0 ∧ p.a1 = 0) := of_decide_eq_true hlen
      have hlt := hlen.resolve_right fun hzero => hnull hzero.1
      simp only
      omega

/-- What each handler gets right. -/
theorem handler_right (c : AbiSyscall) (p : Proc) (h : Host) :
    Leaves (c.handler p h) fun d => d.Right p ↔ c.unrecorded p h = p.space.mem := by
  have hall : ∀ {o : Option Outcome}, c.unrecorded p h = p.space.mem →
      Leaves o (fun d => d.Right p) →
      Leaves o fun d => d.Right p ↔ c.unrecorded p h = p.space.mem := by
    intro o hsame ho
    exact ho.imp fun d hd => iff_of_true hd hsame
  have hplain : ∀ {a0 : BitVec 64}, c.unrecorded p h = p.space.mem →
      Leaves (plain p.space a0) fun d => d.Right p ↔ c.unrecorded p h = p.space.mem := by
    intro a0 hsame
    exact hall hsame ((plain_right p.space a0).imp fun d hd => hd.mpr rfl)
  have hsilent : ∀ {a0 : BitVec 64}, c.unrecorded p h = p.space.mem →
      Leaves (silent p.space a0) fun d => d.Right p ↔ c.unrecorded p h = p.space.mem := by
    intro a0 hsame
    exact hall hsame ((silent_right p.space a0).imp fun d hd => hd.mpr rfl)
  cases c with
  | getcwd => exact hall rfl (getcwd_right p h)
  | fcntl =>
    refine Leaves.ite (fun _ => Leaves.bind fun s hput => ?_) fun hcmd => hplain ?_
    · have hmem := putIf_mem hput
      simp only [decide_eq_true_eq] at hmem
      rw [AbiSyscall.unrecorded, ← hmem]
      exact plain_right s h.result
    · refine if_neg ?_
      rintro ⟨heq, -⟩
      rw [heq] at hcmd
      exact hcmd (by decide)
  | ioctl =>
    refine Leaves.ite (fun hcmd => Leaves.bind fun s hput => ?_) fun hcmd => hplain ?_
    · have hmem := putIf_mem hput
      simp only [decide_eq_true_eq] at hmem
      rw [AbiSyscall.unrecorded]
      simp only [hcmd, true_and]
      rw [← hmem]
      exact plain_right s h.result
    · exact if_neg fun hboth => hcmd hboth.1
  | unlinkat => exact hplain rfl
  | ftruncate => exact hplain rfl
  | faccessat => exact hplain rfl
  | openat => exact hplain rfl
  | close => exact hplain rfl
  | lseek => exact hplain rfl
  | read => exact hall rfl (filled_right p h p.a1)
  | write => exact hplain rfl
  | readv =>
    refine Leaves.ite (fun _ => Leaves.bind fun s hput => ?_) fun _ => Leaves.none
    rw [AbiSyscall.unrecorded, ← put_mem hput]
    exact silent_right s h.result
  | writev => exact Leaves.ite (fun _ => hsilent rfl) fun _ => Leaves.none
  | pread => exact hall rfl (filled_right p h p.a1)
  | pwrite => exact hplain rfl
  | readlinkat => exact hall rfl (filled_right p h p.a2)
  | fstatat => exact converted_right p h (fits_stat h.stat)
  | fstat => exact converted_right p h (fits_stat h.stat)
  | exit => exact Leaves.exited _
  | exit_group => exact Leaves.exited _
  | set_tid_address => exact Leaves.ite (fun _ => hsilent rfl) fun _ => Leaves.none
  | clock_gettime =>
    refine Leaves.ite (fun _ => Leaves.bind fun s hput => hall rfl ?_) fun _ => hplain rfl
    exact written_right (fits_timespec h.time_ns) hput
  | rt_sigaction => exact hplain rfl
  | rt_sigprocmask => exact hplain rfl
  | times =>
    refine Leaves.bind fun s hput => hall rfl ?_
    exact written_right (fits_tms h.tms) hput
  | uname => exact converted_right p h (fits_utsname h.utsname)
  | getrusage =>
    refine Leaves.ite (fun _ => Leaves.bind fun s hput => hall rfl ?_) fun _ => hplain rfl
    exact written_right (fits_rusage h.rusage) hput
  | gettimeofday =>
    refine Leaves.bind fun s hput => Leaves.bind fun s' hput' => ?_
    have hmem := putIf_mem hput
    have hmem' := putIf_mem hput'
    simp only [decide_eq_true_eq] at hmem hmem'
    rw [AbiSyscall.unrecorded, ← hmem, ← hmem']
    exact silent_right s' h.result
  | gettid => exact hsilent rfl
  | sysinfo =>
    refine Leaves.bind fun s hput => hall rfl ?_
    exact written_right fits_sysinfo hput
  | brk =>
    refine Leaves.ite (fun _ => plain_right _ _) fun _ => ?_
    refine Leaves.ite (fun _ => plain_right _ _) fun _ => ?_
    exact Leaves.ite (fun _ => plain_right _ _) fun _ => plain_right _ _
  | munmap =>
    have hmem : (p.space.sysMunmap p.a0.toNat p.a1.toNat (h.ret = 0)).mem = p.space.mem := by
      rw [(Space.sysMunmap_remapped p.space p.a0.toNat p.a1.toNat (h.ret = 0)).mem]
      split
      · funext b
        simp [Space.remap, Space.unmapping]
      · rfl
    exact (plain_right _ _).imp fun d hd => hd.trans (iff_of_true hmem rfl)
  | mremap => exact hplain rfl
  | clone => exact Leaves.ite (fun _ => hsilent rfl) fun _ => hsilent rfl
  | execve => exact hsilent rfl
  | mmap => exact plain_right _ _
  | mprotect =>
    have hmem : (if h.ret = 0 then
        protect p.space p.a0.toNat p.a1.toNat (p.a2.setWidth 32 &&& 7#32 ≠ 0)
      else p.space).mem = p.space.mem := by
      split <;> rfl
    exact (plain_right _ _).imp fun d hd => hd.trans (iff_of_true hmem rfl)
  | madvise => exact hsilent rfl
  | wait4 =>
    refine Leaves.bind fun s hput => Leaves.bind fun s' hput' => ?_
    have hmem := putIf_mem hput
    have hmem' := putIf_mem hput'
    simp only [decide_eq_true_eq] at hmem hmem'
    rw [AbiSyscall.unrecorded, ← hmem, ← hmem']
    exact silent_right s' _
  | prlimit64 => exact hsilent rfl
  | «open» => exact hplain rfl
  | unlink => exact hplain rfl
  | stat =>
    refine Leaves.bind fun s hput => hall rfl ?_
    exact written_right (fits_stat h.stat) hput
  | chown => exact hplain rfl

/-- A system call whose handler returns. -/
structure ReturnedCall where
  proc : Proc
  host : Host
  call : AbiSyscall
  number : AbiSyscall.ofNumber proc.a7.toNat = some call
  done : Done
  returned : proxy_syscall proc host = some (.returned done)

/-- **When the effects of a call are recorded**: exactly if its writes that are not recorded leave
memory as it is. -/
theorem ReturnedCall.effects_right_iff (c : ReturnedCall) :
    c.done.Right c.proc ↔ c.call.unrecorded c.proc c.host = c.proc.space.mem := by
  refine handler_right c.call c.proc c.host c.done ?_
  have hreturned := c.returned
  rwa [proxy_syscall, c.number] at hreturned

/-! ## A window of 24 rows -/

def winsizeSpace : Space :=
  { blankSpace with mapped := fun b => decide (0x1000 ≤ b ∧ b < 0x1008) }

def winsizeMem : Mem := stored (fun _ => 0) 0x1000 (winsizePieces ⟨24, 80, 0, 0⟩)

/-- `ioctl(1, TIOCGWINSZ, 0x1000)` -/
def winsizeCall : ReturnedCall where
  proc := ⟨1, TIOCGWINSZ, 0x1000, 0, 29, winsizeSpace, rfl⟩
  host := { blankHost with winsize := ⟨24, 80, 0, 0⟩ }
  call := .ioctl
  number := rfl
  done := ⟨0, { winsizeSpace with mem := winsizeMem }, [⟨winsizeMem, 0, 0, 0⟩]⟩
  returned := rfl

theorem winsizeCall_not_right : ¬ ∀ c : ReturnedCall, c.done.Right c.proc := by
  intro h
  have hrow : winsizeMem 0x1000 ≠ 0 := by decide
  obtain ⟨r, hr, ⟨haddr, -⟩, -⟩ := (h winsizeCall).covered 0x1000 hrow
  rw [List.mem_singleton.mp hr] at haddr
  exact haddr rfl

end RvCkpt.Abi
