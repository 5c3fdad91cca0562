import RvCkpt.Abi.Handlers

/-! # What the handlers report

How often a handler calls the checkpoint manager, and with what.
-/

namespace RvCkpt.Abi
open ByteMem
set_option autoImplicit false

/-- Whenever the handler returns, what it leaves is as stated. -/
def Leaves (o : Option Outcome) (P : Done → Prop) : Prop := ∀ d, o = some (.returned d) → P d

namespace Leaves

variable {P : Done → Prop}

theorem imp {Q : Done → Prop} {o : Option Outcome} (h : Leaves o P) (hPQ : ∀ d, P d → Q d) :
    Leaves o Q := fun d hd => hPQ d (h d hd)

theorem none : Leaves none P := by
  intro d hd
  cases hd

theorem exited (rc : BitVec 32) : Leaves (some (.exited rc)) P := by
  intro d hd
  cases hd

theorem returned {d : Done} (h : P d) : Leaves (some (.returned d)) P := by
  intro d' hd'
  obtain rfl := Outcome.returned.inj (Option.some.inj hd')
  exact h

theorem bind {α : Type} {o : Option α} {f : α → Option Outcome}
    (h : ∀ x, o = some x → Leaves (f x) P) : Leaves (o >>= f) P := by
  intro d hd
  obtain ⟨x, hx, hf⟩ := Option.bind_eq_some_iff.mp hd
  exact h x hx d hf

theorem ite {c : Prop} [Decidable c] {o o' : Option Outcome} (h : c → Leaves o P)
    (h' : ¬ c → Leaves o' P) : Leaves (if c then o else o') P := by
  by_cases hc : c
  · rw [if_pos hc]
    exact h hc
  · rw [if_neg hc]
    exact h' hc

end Leaves

/-! ## Reported calls -/

/-- One call, with the value that the register holds afterwards, and with data if with an address. -/
def Done.Reported (d : Done) : Prop :=
  ∃ r, d.calls = [r] ∧ r.retval = d.a0 ∧ (r.addr ≠ 0 → r.size ≠ 0)

/-- The handlers of these call the checkpoint manager. -/
def AbiSyscall.reports : AbiSyscall → Bool
  | readv | writev | set_tid_address | gettimeofday | gettid | clone | execve | madvise | wait4
  | prlimit64 => false
  | _ => true

/-- The handler reports the call, and not a buffer of size 0. -/
def AbiSyscall.Reports (c : AbiSyscall) (p : Proc) : Prop :=
  c.reports = true ∧ (c = getcwd → p.a0 ≠ 0 → p.a1 ≠ 0)

variable {p : Proc} {h : Host}

theorem leaves_plain {P : Done → Prop} {s : Space} {a0 : BitVec 64}
    (hP : P ⟨a0, s, [⟨s.mem, a0, 0, 0⟩]⟩) : Leaves (plain s a0) P := Leaves.returned hP

theorem plain_reported (s : Space) (a0 : BitVec 64) :
    Leaves (plain s a0) fun d => d.Reported :=
  leaves_plain ⟨_, rfl, rfl, fun hne => absurd rfl hne⟩

theorem written_reported (s : Space) {retval a0 addr : BitVec 64} {size : ℕ} (hret : retval = a0)
    (hsize : addr ≠ 0 → size ≠ 0) : Leaves (written s retval a0 addr size) fun d => d.Reported := by
  subst hret
  refine Leaves.returned ⟨_, rfl, rfl, ?_⟩
  intro hne
  refine hsize ?_
  rintro rfl
  exact hne rfl

theorem silent_not_reported (s : Space) (a0 : BitVec 64) :
    Leaves (silent s a0) fun d => ¬ d.Reported := by
  refine Leaves.returned ?_
  rintro ⟨r, hcalls, -⟩
  cases hcalls

theorem result_of_nonneg (hret : 0 ≤ h.ret.toInt) : h.result = h.ret.signExtend 64 := by
  rw [Host.result, Host.cvt_error, if_pos hret]

theorem proxied_reported (p : Proc) (h : Host) : Leaves (proxied p h) fun d => d.Reported :=
  plain_reported _ _

theorem filled_reported (p : Proc) (h : Host) (buf : BitVec 64) :
    Leaves (filled p h buf) fun d => d.Reported := by
  refine Leaves.ite (fun hpos => Leaves.bind fun s _ => ?_) fun _ => plain_reported _ _
  refine written_reported s (result_of_nonneg hpos.le).symm fun _ hzero => ?_
  have hret : h.ret = 0#32 := BitVec.eq_of_toNat_eq hzero
  rw [hret] at hpos
  cases hpos

theorem converted_reported (p : Proc) (h : Host) (buf : BitVec 64) (pieces : List Piece) {size : ℕ}
    (hsize : size ≠ 0) : Leaves (converted p h buf pieces size) fun d => d.Reported := by
  refine Leaves.bind fun s _ => Leaves.ite (fun hret => ?_) fun _ => plain_reported _ _
  refine written_reported s ?_ fun _ => hsize
  rw [result_of_nonneg (by rw [hret]; decide), hret]
  rfl

theorem getcwd_reported (p : Proc) (h : Host) :
    Leaves (abi_sys_getcwd p h) fun d => d.Reported ↔ (p.a0 ≠ 0 → p.a1 ≠ 0) := by
  have hwritten : ∀ (s : Space) (retval : BitVec 64),
      Leaves (written s retval retval p.a0 p.a1.toNat) fun d =>
        d.Reported ↔ (p.a0 ≠ 0 → p.a1 ≠ 0) := by
    intro s retval
    refine Leaves.returned ⟨?_, ?_⟩
    · rintro ⟨r, hcalls, -, hsize⟩ hbuf hzero
      obtain rfl := (List.cons.inj hcalls).1
      refine hsize ?_ ?_
      · exact fun hnat => hbuf (BitVec.eq_of_toNat_eq hnat)
      · rw [hzero]
        rfl
    · intro hsize
      refine ⟨_, rfl, rfl, ?_⟩
      intro hbuf hzero
      refine hsize ?_ (BitVec.eq_of_toNat_eq hzero)
      intro hnull
      rw [hnull] at hbuf
      exact hbuf rfl
  unfold abi_sys_getcwd
  cases h.getcwd p.a0 p.a1 with
  | some path => exact Leaves.bind fun s _ => hwritten s _
  | none => exact hwritten p.space _

/-- What each handler reports. -/
theorem handler_reported (c : AbiSyscall) (p : Proc) (h : Host) :
    Leaves (c.handler p h) fun d => d.Reported ↔ c.Reports p := by
  have hyes : ∀ {o : Option Outcome}, c.reports = true → c ≠ .getcwd →
      Leaves o (fun d => d.Reported) → Leaves o fun d => d.Reported ↔ c.Reports p := by
    intro o hreports hc ho
    exact ho.imp fun d hd => iff_of_true hd ⟨hreports, fun hget => absurd hget hc⟩
  have hno : ∀ {o : Option Outcome}, c.reports = false → Leaves o (fun d => ¬ d.Reported) →
      Leaves o fun d => d.Reported ↔ c.Reports p := by
    intro o hreports ho
    refine ho.imp fun d hd => iff_of_false hd ?_
    rintro ⟨htrue, -⟩
    rw [hreports] at htrue
    cases htrue
  cases c with
  | getcwd =>
    refine (getcwd_reported p h).imp fun d hd => hd.trans ⟨?_, ?_⟩
    · exact fun hsize => ⟨rfl, fun _ => hsize⟩
    · exact fun hreports => hreports.2 rfl
  | fcntl =>
    refine hyes rfl nofun (Leaves.ite (fun _ => Leaves.bind fun s _ => ?_) fun _ => ?_)
    · exact plain_reported _ _
    · exact plain_reported _ _
  | ioctl =>
    refine hyes rfl nofun (Leaves.ite (fun _ => Leaves.bind fun s _ => ?_) fun _ => ?_)
    · exact plain_reported _ _
    · exact plain_reported _ _
  | unlinkat => exact hyes rfl nofun (proxied_reported p h)
  | ftruncate => exact hyes rfl nofun (proxied_reported p h)
  | faccessat => exact hyes rfl nofun (proxied_reported p h)
  | openat => exact hyes rfl nofun (proxied_reported p h)
  | close => exact hyes rfl nofun (proxied_reported p h)
  | lseek => exact hyes rfl nofun (proxied_reported p h)
  | read => exact hyes rfl nofun (filled_reported p h p.a1)
  | write => exact hyes rfl nofun (proxied_reported p h)
  | readv =>
    refine hno rfl (Leaves.ite (fun _ => Leaves.bind fun s _ => ?_) fun _ => Leaves.none)
    exact silent_not_reported _ _
  | writev => exact hno rfl (Leaves.ite (fun _ => silent_not_reported _ _) fun _ => Leaves.none)
  | pread => exact hyes rfl nofun (filled_reported p h p.a1)
  | pwrite => exact hyes rfl nofun (proxied_reported p h)
  | readlinkat => exact hyes rfl nofun (filled_reported p h p.a2)
  | fstatat => exact hyes rfl nofun (converted_reported p h _ _ (Nat.succ_ne_zero _))
  | fstat => exact hyes rfl nofun (converted_reported p h _ _ (Nat.succ_ne_zero _))
  | exit => exact Leaves.exited _
  | exit_group => exact Leaves.exited _
  | set_tid_address =>
    exact hno rfl (Leaves.ite (fun _ => silent_not_reported _ _) fun _ => Leaves.none)
  | clock_gettime =>
    refine hyes rfl nofun (Leaves.ite (fun _ => Leaves.bind fun s _ => ?_) fun _ => ?_)
    · exact written_reported _ rfl fun _ => Nat.succ_ne_zero _
    · exact plain_reported _ _
  | rt_sigaction => exact hyes rfl nofun (plain_reported _ _)
  | rt_sigprocmask => exact hyes rfl nofun (plain_reported _ _)
  | times =>
    refine hyes rfl nofun (Leaves.bind fun s _ => ?_)
    exact written_reported _ rfl fun _ => Nat.succ_ne_zero _
  | uname => exact hyes rfl nofun (converted_reported p h _ _ (Nat.succ_ne_zero _))
  | getrusage =>
    refine hyes rfl nofun (Leaves.ite (fun _ => Leaves.bind fun s _ => ?_) fun _ => ?_)
    · exact written_reported _ rfl fun _ => Nat.succ_ne_zero _
    · exact plain_reported _ _
  | gettimeofday =>
    refine hno rfl (Leaves.bind fun s _ => Leaves.bind fun s' _ => ?_)
    exact silent_not_reported _ _
  | gettid => exact hno rfl (silent_not_reported _ _)
  | sysinfo =>
    refine hyes rfl nofun (Leaves.bind fun s _ => ?_)
    exact written_reported _ rfl fun _ => Nat.succ_ne_zero _
  | brk =>
    refine hyes rfl nofun (Leaves.ite (fun _ => plain_reported _ _) fun _ => ?_)
    refine Leaves.ite (fun _ => plain_reported _ _) fun _ => ?_
    exact Leaves.ite (fun _ => plain_reported _ _) fun _ => plain_reported _ _
  | munmap => exact hyes rfl nofun (plain_reported _ _)
  | mremap => exact hyes rfl nofun (plain_reported _ _)
  | clone =>
    exact hno rfl (Leaves.ite (fun _ => silent_not_reported _ _) fun _ => silent_not_reported _ _)
  | execve => exact hno rfl (silent_not_reported _ _)
  | mmap => exact hyes rfl nofun (plain_reported _ _)
  | mprotect => exact hyes rfl nofun (plain_reported _ _)
  | madvise => exact hno rfl (silent_not_reported _ _)
  | wait4 =>
    refine hno rfl (Leaves.bind fun s _ => Leaves.bind fun s' _ => ?_)
    exact silent_not_reported _ _
  | prlimit64 => exact hno rfl (silent_not_reported _ _)
  | «open» => exact hyes rfl nofun (proxied_reported p h)
  | unlink => exact hyes rfl nofun (proxied_reported p h)
  | stat =>
    refine hyes rfl nofun (Leaves.bind fun s _ => ?_)
    exact written_reported _ rfl fun _ => Nat.succ_ne_zero _
  | chown => exact hyes rfl nofun (proxied_reported p h)

end RvCkpt.Abi
