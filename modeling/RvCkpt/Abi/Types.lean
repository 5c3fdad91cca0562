import RvCkpt.Recorder.Segmentation
import RvCkpt.Recorder.Space

/-! # System calls and their structures

The numbers, the error codes and the structures of `src/src/abi/unknown-abi.h` for the 64-bit guest
on a Linux host, and what a handler reads and leaves. Guest addresses are host addresses. What the
host answers is a parameter of a call.
-/

namespace RvCkpt.Abi
open ByteMem
set_option autoImplicit false

inductive AbiSyscall where
  | getcwd | fcntl | ioctl | unlinkat | ftruncate | faccessat | openat | close | lseek
  | read | write | readv | writev | pread | pwrite | readlinkat | fstatat | fstat
  | exit | exit_group | set_tid_address | clock_gettime | rt_sigaction | rt_sigprocmask
  | times | uname | getrusage | gettimeofday | gettid | sysinfo
  | brk | munmap | mremap | clone | execve | mmap | mprotect | madvise | wait4 | prlimit64
  | open | unlink | stat | chown
deriving DecidableEq

namespace AbiSyscall

def all : List AbiSyscall :=
  [getcwd, fcntl, ioctl, unlinkat, ftruncate, faccessat, openat, close, lseek, read, write, readv,
    writev, pread, pwrite, readlinkat, fstatat, fstat, exit, exit_group, set_tid_address,
    clock_gettime, rt_sigaction, rt_sigprocmask, times, uname, getrusage, gettimeofday, gettid,
    sysinfo, brk, munmap, mremap, clone, execve, mmap, mprotect, madvise, wait4, prlimit64, .open,
    unlink, stat, chown]

def number : AbiSyscall → ℕ
  | getcwd => 17
  | fcntl => 25
  | ioctl => 29
  | unlinkat => 35
  | ftruncate => 46
  | faccessat => 48
  | openat => 56
  | close => 57
  | lseek => 62
  | read => 63
  | write => 64
  | readv => 65
  | writev => 66
  | pread => 67
  | pwrite => 68
  | readlinkat => 78
  | fstatat => 79
  | fstat => 80
  | exit => 93
  | exit_group => 94
  | set_tid_address => 96
  | clock_gettime => 113
  | rt_sigaction => 134
  | rt_sigprocmask => 135
  | times => 153
  | uname => 160
  | getrusage => 165
  | gettimeofday => 169
  | gettid => 178
  | sysinfo => 179
  | brk => 214
  | munmap => 215
  | mremap => 216
  | clone => 220
  | execve => 221
  | mmap => 222
  | mprotect => 226
  | madvise => 233
  | wait4 => 260
  | prlimit64 => 261
  | .open => 1024
  | unlink => 1026
  | stat => 1038
  | chown => 1039

/-- The `switch` of `proxy_syscall`. -/
def ofNumber (n : ℕ) : Option AbiSyscall := all.find? fun c => c.number = n

end AbiSyscall

/-! ## Error codes -/

def ENOMEM : BitVec 32 := 12

def EFAULT : BitVec 32 := 14

def EINVAL : BitVec 32 := 22

def ENOSYS : BitVec 32 := 38

/-- The codes of the host that the guest knows too, under the same numbers: `EPERM` to `ENOSYS`. -/
def abi_errno (errno : BitVec 32) : BitVec 32 :=
  if 1 ≤ errno.toNat ∧ errno.toNat ≤ ENOSYS.toNat then errno else EINVAL

/-! ## Structures of the host -/

structure HostStat where
  st_dev : BitVec 64
  st_ino : BitVec 64
  st_mode : BitVec 32
  st_nlink : BitVec 64
  st_uid : BitVec 32
  st_gid : BitVec 32
  st_rdev : BitVec 64
  st_size : BitVec 64
  st_blocks : BitVec 64
  st_blksize : BitVec 64
  st_atim : BitVec 64 × BitVec 64
  st_mtim : BitVec 64 × BitVec 64
  st_ctim : BitVec 64 × BitVec 64

structure HostWinsize where
  ws_row : BitVec 16
  ws_col : BitVec 16
  ws_xpixel : BitVec 16
  ws_ypixel : BitVec 16

structure HostUtsname where
  sysname : List Byte
  nodename : List Byte
  release : List Byte
  version : List Byte
  machine : List Byte

structure HostRusage where
  ru_utime : BitVec 64 × BitVec 64
  ru_stime : BitVec 64 × BitVec 64
  ru_maxrss : BitVec 64
  ru_ixrss : BitVec 64
  ru_idrss : BitVec 64
  ru_isrss : BitVec 64
  ru_minflt : BitVec 64
  ru_majflt : BitVec 64
  ru_nswap : BitVec 64
  ru_inblock : BitVec 64
  ru_oublock : BitVec 64
  ru_msgsnd : BitVec 64
  ru_msgrcv : BitVec 64
  ru_nsignals : BitVec 64
  ru_nvcsw : BitVec 64
  ru_nivcsw : BitVec 64

structure HostTms where
  tms_utime : BitVec 64
  tms_stime : BitVec 64
  tms_cutime : BitVec 64
  tms_cstime : BitVec 64

/-- What the host answers. A handler makes at most one call that can answer in more than one way, and
uses the parts that this call returns. A structure is what the handler's own variable holds after the
call, whether or not the call has succeeded. -/
structure Host where
  /-- The result, as an `int`. -/
  ret : BitVec 32
  errno : BitVec 32
  /-- What the call writes to a buffer of the guest. -/
  data : ℕ → Byte
  /-- The path of the working directory. -/
  cwd : Option (List Byte)
  flock : List Byte
  winsize : HostWinsize
  stat : HostStat
  utsname : HostUtsname
  rusage : HostRusage
  tms : HostTms
  /-- The result of `times`. -/
  clock : BitVec 64
  time_ns : BitVec 64
  timeval : BitVec 64 × BitVec 64
  timezone : BitVec 32 × BitVec 32
  /-- Whether a mapping for the heap succeeds. -/
  heap : Bool
  /-- The answer to an mmap. -/
  mapping : Option (ℕ × Mem)

def Host.cvt_error (h : Host) (ret : BitVec 32) : BitVec 32 :=
  if 0 ≤ ret.toInt then ret else -abi_errno h.errno

/-- `cvt_error(ret)` as a register holds it. -/
def Host.result (h : Host) : BitVec 64 := (h.cvt_error h.ret).signExtend 64

/-! ## Structures of the guest -/

/-- Bytes at an offset of a structure. -/
abbrev Piece := ℕ × List Byte

/-- The pieces of a structure at `a` are stored, one after the other. -/
def stored (m : Mem) (a : ℕ) (pieces : List Piece) : Mem :=
  pieces.foldl (fun m x => m.writeBytes (a + x.1) x.2) m

/-- The `n` low bytes of a number. -/
def le {w : ℕ} (n : ℕ) (x : BitVec w) : List Byte := (List.range n).map (byteAt (x.setWidth 64))

def sizeof_stat : ℕ := 128

/-- The fields `__pad1`, `__pad2` and the two at the end stay as they are. -/
def cvt_abi_stat (s : HostStat) : List Piece :=
  [(0, le 8 s.st_dev), (8, le 8 s.st_ino), (16, le 4 s.st_mode), (20, le 4 s.st_nlink),
    (24, le 4 s.st_uid), (28, le 4 s.st_gid), (32, le 8 s.st_rdev), (48, le 8 s.st_size),
    (64, le 8 s.st_blocks), (56, le 4 s.st_blksize), (72, le 8 s.st_atim.1),
    (80, le 8 s.st_atim.2), (88, le 8 s.st_mtim.1), (96, le 8 s.st_mtim.2),
    (104, le 8 s.st_ctim.1), (112, le 8 s.st_ctim.2)]

def sizeof_rusage : ℕ := 272

def cvt_abi_rusage (r : HostRusage) : List Piece :=
  [(0, le 8 r.ru_utime.1), (8, le 8 r.ru_utime.2), (16, le 8 r.ru_stime.1),
    (24, le 8 r.ru_stime.2), (32, le 8 r.ru_maxrss), (40, le 8 r.ru_ixrss), (48, le 8 r.ru_idrss),
    (56, le 8 r.ru_isrss), (64, le 8 r.ru_minflt), (72, le 8 r.ru_majflt), (80, le 8 r.ru_nswap),
    (88, le 8 r.ru_inblock), (96, le 8 r.ru_oublock), (104, le 8 r.ru_msgsnd),
    (112, le 8 r.ru_msgrcv), (120, le 8 r.ru_nsignals), (128, le 8 r.ru_nvcsw),
    (136, le 8 r.ru_nivcsw)]

def winsizePieces (w : HostWinsize) : List Piece :=
  [(0, le 2 w.ws_row), (2, le 2 w.ws_col), (4, le 2 w.ws_xpixel), (6, le 2 w.ws_ypixel)]

def sizeof_timespec : ℕ := 16

def timespecPieces (t : BitVec 64) : List Piece :=
  [(0, le 8 (t / 1000000000)), (8, le 8 (t % 1000000000))]

def sizeof_tms : ℕ := 32

def tmsPieces (t : HostTms) : List Piece :=
  [(0, le 8 t.tms_utime), (8, le 8 t.tms_stime), (16, le 8 t.tms_cutime), (24, le 8 t.tms_cstime)]

def abi_NEW_UTS_LEN : ℕ := 64

/-- `strncpy` of `abi_NEW_UTS_LEN` bytes. -/
def strncpy (src : List Byte) : List Byte :=
  let text := (src.takeWhile (· ≠ 0)).take abi_NEW_UTS_LEN
  text ++ List.replicate (abi_NEW_UTS_LEN - text.length) 0

def sizeof_utsname : ℕ := 6 * (abi_NEW_UTS_LEN + 1)

/-- The last byte of each name and the whole of `domainname` stay as they are. -/
def utsnamePieces (u : HostUtsname) : List Piece :=
  [(0, strncpy u.sysname), (65, strncpy u.nodename), (130, strncpy u.release),
    (195, strncpy u.version), (260, strncpy u.machine)]

def sizeof_sysinfo : ℕ := 368

def timevalPieces (t : BitVec 64 × BitVec 64) : List Piece := [(0, le 8 t.1), (8, le 8 t.2)]

def timezonePieces (t : BitVec 32 × BitVec 32) : List Piece := [(0, le 4 t.1), (4, le 4 t.2)]

/-! ## What a handler reads and leaves -/

/-- The registers and the memory at an ecall. The null page is never mapped. -/
structure Proc where
  a0 : BitVec 64
  a1 : BitVec 64
  a2 : BitVec 64
  a3 : BitVec 64
  a7 : BitVec 64
  space : Space
  null : space.mapped 0 = false

/-- A call of `checkpoint.syscall`, with the memory at that time. -/
structure Report where
  live : Mem
  retval : BitVec 64
  addr : ℕ
  size : ℕ

namespace Report

def effect (r : Report) : Effect := .syscall r.live r.retval r.addr r.size

def write (r : Report) : Option (ℕ × List Byte) :=
  if r.addr ≠ 0 then some (r.addr, r.live.bytes r.addr r.size) else none

def item (r : Report) : LogItem := .result r.retval r.write

end Report

/-- What is left when a handler returns, and its calls of the checkpoint manager. -/
structure Done where
  a0 : BitVec 64
  space : Space
  calls : List Report

inductive Outcome where
  | returned (d : Done)
  | exited (rc : BitVec 32)

/-! ## Nothing mapped, and an answer of zeros -/

def blankSpace : Space := ⟨fun _ => false, fun _ => 0, fun _ => false, 0, 0⟩

def blankHost : Host where
  ret := 0
  errno := 0
  data := fun _ => 0
  cwd := none
  flock := []
  winsize := ⟨0, 0, 0, 0⟩
  stat := ⟨0, 0, 0, 0, 0, 0, 0, 0, 0, 0, (0, 0), (0, 0), (0, 0)⟩
  utsname := ⟨[], [], [], [], []⟩
  rusage := ⟨(0, 0), (0, 0), 0, 0, 0, 0, 0, 0, 0, 0, 0, 0, 0, 0, 0, 0⟩
  tms := ⟨0, 0, 0, 0⟩
  clock := 0
  time_ns := 0
  timeval := (0, 0)
  timezone := (0, 0)
  heap := false
  mapping := none

end RvCkpt.Abi

namespace RvCkpt.Space
open ByteMem
set_option autoImplicit false

def readable (s : Space) (a n : ℕ) : Bool := (List.range n).all fun i => s.mapped (a + i)

def put (s : Space) (a : ℕ) (pieces : List Abi.Piece) : Option Space :=
  if pieces.all fun x => s.readable (a + x.1) x.2.length then
    some { s with mem := Abi.stored s.mem a pieces }
  else none

end RvCkpt.Space
