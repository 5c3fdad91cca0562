import RvCkpt.Abi.Types

/-! # The handlers of the system calls

`proxy_syscall` and the handlers of `src/src/abi/unknown-abi.h`. `none`: the emulator ends in the
handler, because the number is unknown or because it or the host works on a byte that is not
accessible. What the handlers print for the user is left out.
-/

namespace RvCkpt.Abi
open ByteMem
set_option autoImplicit false

/-! ## Ways to end -/

/-- `checkpoint.syscall(a0)` -/
def plain (s : Space) (a0 : BitVec 64) : Option Outcome :=
  some (.returned ⟨a0, s, [⟨s.mem, a0, 0, 0⟩]⟩)

/-- `checkpoint.syscall(retval, addr, size)` -/
def written (s : Space) (retval a0 addr : BitVec 64) (size : ℕ) : Option Outcome :=
  some (.returned ⟨a0, s, [⟨s.mem, retval, addr.toNat, size⟩]⟩)

/-- The checkpoint manager is not called. -/
def silent (s : Space) (a0 : BitVec 64) : Option Outcome := some (.returned ⟨a0, s, []⟩)

/-- A call of the host that leaves the guest's memory alone. -/
def proxied (p : Proc) (h : Host) : Option Outcome := plain p.space h.result

/-- A call of the host that fills a buffer. -/
def filled (p : Proc) (h : Host) (buf : BitVec 64) : Option Outcome :=
  if 0 < h.ret.toInt then do
    let s ← p.space.put buf.toNat [(0, (List.range h.ret.toNat).map h.data)]
    written s (h.ret.signExtend 64) h.result buf h.ret.toNat
  else plain p.space h.result

/-- Pieces that are stored in one case only. -/
def putIf (c : Bool) (s : Space) (a : BitVec 64) (pieces : List Piece) : Option Space :=
  if c then s.put a.toNat pieces else some s

/-- A structure that is converted after the call of the host, and recorded if that has succeeded. -/
def converted (p : Proc) (h : Host) (buf : BitVec 64) (pieces : List Piece) (size : ℕ) :
    Option Outcome := do
  let s ← p.space.put buf.toNat pieces
  if h.ret = 0 then written s 0 h.result buf size else plain s h.result

/-! ## Files -/

/-- A null pointer makes the host allocate a buffer of its own, of any size that is needed if none
is given. -/
def Host.getcwd (h : Host) (buf size : BitVec 64) : Option (List Byte) :=
  h.cwd.filter fun path => path.length < size.toNat ∨ (buf = 0 ∧ size = 0)

def abi_sys_getcwd (p : Proc) (h : Host) : Option Outcome :=
  match h.getcwd p.a0 p.a1 with
  | some path => do
    let s ← putIf (p.a0 ≠ 0) p.space p.a0 [(0, path ++ [0])]
    let retval := (BitVec.ofNat 32 (path.length + 1)).signExtend 64
    written s retval retval p.a0 p.a1.toNat
  | none =>
    let retval := (h.cvt_error (-1)).signExtend 64
    written p.space retval retval p.a0 p.a1.toNat

def F_GETLK : BitVec 64 := 5

/-- The commands that the host is asked for, under the same numbers. -/
def fcntlCommands : List (BitVec 64) := [0, 1, 2, 3, 4, 8, 9, F_GETLK, 6, 7, 1030]

instance decidableFcntlCommand (cmd : BitVec 64) : Decidable (cmd ∈ fcntlCommands) :=
  decidable_of_iff (fcntlCommands.contains cmd = true) List.contains_iff_mem

def abi_sys_fcntl (p : Proc) (h : Host) : Option Outcome :=
  if p.a1 ∈ fcntlCommands then do
    let s ← putIf (p.a1 = F_GETLK ∧ 0 ≤ h.ret.toInt) p.space p.a2 [(0, h.flock)]
    plain s h.result
  else plain p.space ((-EINVAL).signExtend 64)

def TIOCGWINSZ : BitVec 64 := 0x5413

def abi_sys_ioctl (p : Proc) (h : Host) : Option Outcome :=
  if p.a1 = TIOCGWINSZ then do
    let s ← putIf (h.ret = 0) p.space p.a2 (winsizePieces h.winsize)
    plain s h.result
  else plain p.space ((-EINVAL).signExtend 64)

def abi_sys_unlinkat (p : Proc) (h : Host) : Option Outcome := proxied p h

def abi_sys_ftruncate (p : Proc) (h : Host) : Option Outcome := proxied p h

def abi_sys_faccessat (p : Proc) (h : Host) : Option Outcome := proxied p h

def abi_sys_openat (p : Proc) (h : Host) : Option Outcome := proxied p h

def abi_sys_close (p : Proc) (h : Host) : Option Outcome := proxied p h

def abi_sys_lseek (p : Proc) (h : Host) : Option Outcome := proxied p h

def abi_sys_read (p : Proc) (h : Host) : Option Outcome := filled p h p.a1

def abi_sys_write (p : Proc) (h : Host) : Option Outcome := proxied p h

/-- The buffers of an `iovec` array: their addresses and lengths. -/
def iovecs (m : Mem) (iov n : ℕ) : List (ℕ × ℕ) :=
  (List.range n).map fun i =>
    ((m.read (iov + 16 * i) 8).toNat, (m.read (iov + 16 * i + 8) 8).toNat)

/-- `n` bytes are spread over the buffers. -/
def scatter : List (ℕ × ℕ) → ℕ → (ℕ → Byte) → List Piece
  | [], _, _ => []
  | (base, len) :: iovs, n, data =>
    (base, (List.range (min len n)).map data) ::
      scatter iovs (n - len) fun i => data (i + min len n)

/-- `int iovcnt` -/
def Proc.iovcnt (p : Proc) : ℕ := (p.a2.setWidth 32).toInt.toNat

def abi_sys_readv (p : Proc) (h : Host) : Option Outcome :=
  if p.space.readable p.a1.toNat (16 * p.iovcnt) then do
    let s ← p.space.put 0 (scatter (iovecs p.space.mem p.a1.toNat p.iovcnt) h.ret.toInt.toNat h.data)
    silent s h.result
  else none

def abi_sys_writev (p : Proc) (h : Host) : Option Outcome :=
  if p.space.readable p.a1.toNat (16 * p.iovcnt) then silent p.space h.result else none

def abi_sys_pread (p : Proc) (h : Host) : Option Outcome := filled p h p.a1

def abi_sys_pwrite (p : Proc) (h : Host) : Option Outcome := proxied p h

def abi_sys_readlinkat (p : Proc) (h : Host) : Option Outcome := filled p h p.a2

def abi_sys_fstatat (p : Proc) (h : Host) : Option Outcome :=
  converted p h p.a2 (cvt_abi_stat h.stat) sizeof_stat

def abi_sys_fstat (p : Proc) (h : Host) : Option Outcome :=
  converted p h p.a1 (cvt_abi_stat h.stat) sizeof_stat

def abi_sys_open (p : Proc) (h : Host) : Option Outcome := proxied p h

def abi_sys_unlink (p : Proc) (h : Host) : Option Outcome := proxied p h

/-- Here the structure is recorded also if the call has failed. -/
def abi_sys_stat (p : Proc) (h : Host) : Option Outcome := do
  let s ← p.space.put p.a1.toNat (cvt_abi_stat h.stat)
  written s h.result h.result p.a1 sizeof_stat

def abi_sys_chown (p : Proc) (h : Host) : Option Outcome := proxied p h

/-! ## The process and its time -/

def abi_sys_exit (p : Proc) : Option Outcome := some (.exited (p.a0.setWidth 32))

def abi_sys_set_tid_address (p : Proc) : Option Outcome :=
  if p.space.readable p.a0.toNat 4 then silent p.space 1 else none

def abi_sys_clock_gettime (p : Proc) (h : Host) : Option Outcome :=
  if p.a1 ≠ 0 then do
    let s ← p.space.put p.a1.toNat (timespecPieces h.time_ns)
    written s 0 0 p.a1 sizeof_timespec
  else plain p.space ((-EFAULT).signExtend 64)

def abi_sys_rt_sigaction (p : Proc) : Option Outcome := plain p.space 0

def abi_sys_rt_sigprocmask (p : Proc) : Option Outcome := plain p.space 0

def abi_sys_times (p : Proc) (h : Host) : Option Outcome := do
  let s ← p.space.put p.a0.toNat (tmsPieces h.tms)
  written s h.clock h.clock p.a0 sizeof_tms

def abi_sys_uname (p : Proc) (h : Host) : Option Outcome :=
  converted p h p.a0 (utsnamePieces h.utsname) sizeof_utsname

def abi_sys_getrusage (p : Proc) (h : Host) : Option Outcome :=
  if p.a1 ≠ 0 then do
    let s ← p.space.put p.a1.toNat (cvt_abi_rusage h.rusage)
    written s h.result h.result p.a1 sizeof_rusage
  else plain p.space h.result

def abi_sys_gettimeofday (p : Proc) (h : Host) : Option Outcome := do
  let s ← putIf (p.a0 ≠ 0) p.space p.a0 (timevalPieces h.timeval)
  let s ← putIf (p.a1 ≠ 0) s p.a1 (timezonePieces h.timezone)
  silent s h.result

def abi_sys_gettid (p : Proc) (h : Host) : Option Outcome := silent p.space (h.ret.signExtend 64)

def abi_sys_sysinfo (p : Proc) : Option Outcome := do
  let s ← p.space.put p.a0.toNat [(0, List.replicate sizeof_sysinfo 0)]
  written s 0 0 p.a0 sizeof_sysinfo

def SIGCHLD : BitVec 32 := 17

def abi_sys_clone (p : Proc) (h : Host) : Option Outcome :=
  if p.a0.setWidth 32 = SIGCHLD then silent p.space h.result
  else silent p.space ((-EINVAL).signExtend 64)

def abi_sys_execve (p : Proc) : Option Outcome := silent p.space ((-ENOSYS).signExtend 64)

/-- The exit status of the child that has been waited for, as the handler converts it. -/
def waitStatus (ret : BitVec 32) : BitVec 32 :=
  if 0 < ret.toInt then
    -- the shift binds tighter than the mask
    ((ret &&& 0xff00) >>> 8 &&& 0xff <<< 8) ||| (ret &&& 0x7f &&& 0x7f)
  else 0

def abi_sys_wait4 (p : Proc) (h : Host) : Option Outcome := do
  let s ← putIf (0 < h.ret.toInt ∧ p.a1 ≠ 0) p.space p.a1 [(0, (List.range 4).map h.data)]
  let s ← putIf (p.a3 ≠ 0) s p.a3 (cvt_abi_rusage h.rusage)
  silent s ((h.cvt_error (waitStatus h.ret)).signExtend 64)

/-- Every case of the `switch` falls through to the default. -/
def abi_sys_prlimit64 (p : Proc) : Option Outcome := silent p.space (EINVAL.signExtend 64)

/-! ## Memory -/

def abi_sys_brk (p : Proc) (h : Host) : Option Outcome :=
  let s := p.space.sysBrk p.a0.toNat h.heap
  -- return current brk
  if p.a0 = 0 then plain s (BitVec.ofNat 64 s.brk)
  -- shrink brk
  else if p.a0.toNat ≤ p.space.heapEnd then plain s p.a0
  -- map a new heap segment
  else if h.heap then plain s p.a0
  else plain s ((-ENOMEM).signExtend 64)

def abi_sys_munmap (p : Proc) (h : Host) : Option Outcome :=
  plain (p.space.sysMunmap p.a0.toNat p.a1.toNat (h.ret = 0)) h.result

def abi_sys_mremap (p : Proc) : Option Outcome := plain p.space ((-ENOSYS).signExtend 64)

def MAP_FAILED : BitVec 64 := -1

/-- `PROT_READ`, `PROT_WRITE` and `PROT_EXEC`, and the flags `MAP_SHARED`, `MAP_PRIVATE`,
`MAP_FIXED` and `MAP_ANON` have the same values on the host. -/
def mmapCall (p : Proc) (h : Host) : Space.MmapCall :=
  ⟨p.a0.toNat, p.a1.toNat, p.a2.setWidth 32 &&& 7, p.a3.setWidth 32 &&& 0x33, h.mapping⟩

/-- What `guest_mmap` returns: null if no free range is found. -/
def mmapResult (s : Space) (c : Space.MmapCall) : BitVec 64 :=
  match s.guestMmap c with
  | some r => BitVec.ofNat 64 r.start
  | none =>
    if (c.addr + c.len) % 2 ^ 64 ≤ HOST_MMAP_BASE ∧ s.mmapRequest c = none then 0 else MAP_FAILED

def abi_sys_mmap (p : Proc) (h : Host) : Option Outcome :=
  plain (p.space.sysMmap (mmapCall p h)) (mmapResult p.space (mmapCall p h))

/-- The accesses that are allowed to a range change. -/
def protect (s : Space) (a len : ℕ) (access : Bool) : Space :=
  { s with mapped := fun b => if a ≤ b ∧ b < a + roundUp len then access else s.mapped b }

def abi_sys_mprotect (p : Proc) (h : Host) : Option Outcome :=
  plain (if h.ret = 0 then protect p.space p.a0.toNat p.a1.toNat (p.a2.setWidth 32 &&& 7#32 ≠ 0)
    else p.space) h.result

def abi_sys_madvise (p : Proc) : Option Outcome := silent p.space 0

/-! ## The table -/

def AbiSyscall.handler (p : Proc) (h : Host) : AbiSyscall → Option Outcome
  | getcwd => abi_sys_getcwd p h
  | fcntl => abi_sys_fcntl p h
  | ioctl => abi_sys_ioctl p h
  | unlinkat => abi_sys_unlinkat p h
  | ftruncate => abi_sys_ftruncate p h
  | faccessat => abi_sys_faccessat p h
  | openat => abi_sys_openat p h
  | close => abi_sys_close p h
  | lseek => abi_sys_lseek p h
  | read => abi_sys_read p h
  | write => abi_sys_write p h
  | readv => abi_sys_readv p h
  | writev => abi_sys_writev p h
  | pread => abi_sys_pread p h
  | pwrite => abi_sys_pwrite p h
  | readlinkat => abi_sys_readlinkat p h
  | fstatat => abi_sys_fstatat p h
  | fstat => abi_sys_fstat p h
  | exit => abi_sys_exit p
  | exit_group => abi_sys_exit p
  | set_tid_address => abi_sys_set_tid_address p
  | clock_gettime => abi_sys_clock_gettime p h
  | rt_sigaction => abi_sys_rt_sigaction p
  | rt_sigprocmask => abi_sys_rt_sigprocmask p
  | times => abi_sys_times p h
  | uname => abi_sys_uname p h
  | getrusage => abi_sys_getrusage p h
  | gettimeofday => abi_sys_gettimeofday p h
  | gettid => abi_sys_gettid p h
  | sysinfo => abi_sys_sysinfo p
  | brk => abi_sys_brk p h
  | munmap => abi_sys_munmap p h
  | mremap => abi_sys_mremap p
  | clone => abi_sys_clone p h
  | execve => abi_sys_execve p
  | mmap => abi_sys_mmap p h
  | mprotect => abi_sys_mprotect p h
  | madvise => abi_sys_madvise p
  | wait4 => abi_sys_wait4 p h
  | prlimit64 => abi_sys_prlimit64 p
  | .open => abi_sys_open p h
  | unlink => abi_sys_unlink p h
  | stat => abi_sys_stat p h
  | chown => abi_sys_chown p h

def proxy_syscall (p : Proc) (h : Host) : Option Outcome :=
  (AbiSyscall.ofNumber p.a7.toNat).bind (AbiSyscall.handler p h)

end RvCkpt.Abi
