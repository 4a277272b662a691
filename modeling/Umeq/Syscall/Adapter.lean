import Umeq.Lib.Copies
import Umeq.Syscall.Getdents

/-! # Calls of a 32-bit guest that are answered through a structure of the host

    The adapter from 32-bit guests to 64-bit hosts. A call of this kind has a structure on
    the stack, which the host fills, and copies the fields of it to the structure of the
    guest, which are shorter. What the stack held before is arbitrary.

    Most of the calls copy whatever the host has answered. So a call that failed copies what
    was on the stack, and so does a call that succeeded for the fields that the host leaves
    alone. `Umeq.Syscall.Clean` says when this does not happen.

    The structures of one call lie one after another from 0 on.
-/

namespace Umeq.Syscall

open Bytes

/-! ## Calls -/

def EFAULT : Int := 14

/-- The answer of the host: its result and what it has written to the structures. -/
structure Answer where
  res : Int
  written : List (Nat × List UInt8)
  deriving DecidableEq

/-- What a call does for given arguments. -/
inductive Call where
  /-- It answers without the host. -/
  | answer (res : Int)
  /-- It stops the emulator. -/
  | abort
  /-- It fills parts of the structures, calls the host and makes these assignments. -/
  | convert (ins : List (Nat × List UInt8)) (outs : Int → List Copy) (ret : Int → Int)
  /-- It walks through what the host has left. -/
  | walk (ins : List (Nat × List UInt8)) (back : Mem → Int → Mem → Option (Mem × Int))

/-- The memory of the guest after a call and the result of it. -/
def Call.run (stack : Mem) (a : Answer) (mem : Mem) : Call → Option (Mem × Int)
  | .answer res => some (mem, res)
  | .abort => none
  | .convert ins outs ret =>
    some (copyAll (stack.writes (ins ++ a.written)) mem (outs a.res), ret a.res)
  | .walk ins back => back (stack.writes (ins ++ a.written)) a.res mem

/-- A number of `n` bytes as one of `k` bytes. -/
def extend (signed : Bool) (n k v : Nat) : Nat :=
  if signed ∧ 2 ^ (8 * n - 1) ≤ v then v + 2 ^ (8 * k) - 2 ^ (8 * n) else v

/-- A field that a structure of the host and the one of the guest have: where it is and how
    many bytes it has. The one of the guest may be `signed`. -/
structure Field where
  host : Nat
  host_size : Nat
  guest : Nat
  size : Nat
  signed : Bool
  fits : size ≤ host_size := by decide

/-- `guest->f = buf.f`. -/
def Field.out (buf p : Nat) (f : Field) : Copy where
  dst := p + f.guest
  size := f.size
  value := .field (buf + f.host) f.host_size
  fits := by
    rintro _ _ ⟨⟩
    exact f.fits

/-- `buf.f = guest->f`. -/
def Field.fetch (mem : Mem) (buf p : Nat) (f : Field) : Nat × List UInt8 :=
  (buf + f.host, le f.host_size (extend f.signed f.size f.host_size (mem.load (p + f.guest) f.size)))

/-- All fields of a structure. -/
def out_all (fs : List Field) (buf p : Nat) : List Copy := fs.map (Field.out buf p)

def fetch_all (fs : List Field) (mem : Mem) (buf p : Nat) : List (Nat × List UInt8) :=
  fs.map (Field.fetch mem buf p)

/-- A structure of words: `long` for the host and 32 bits for the guest. -/
def words (n : Nat) (signed : Bool) : List Field :=
  (List.range n).map fun i => { host := 8 * i, host_size := 8, guest := 4 * i, size := 4, signed := signed }

/-- A pointer that the calls refuse. -/
def refused (p : Nat) : Prop := p = 0 ∨ p = 0xffffffff

instance (p : Nat) : Decidable (refused p) := inferInstanceAs (Decidable (_ ∨ _))

/-- A call that only gives structures to the host. -/
def passes (ins : List (Nat × List UInt8)) : Call := .convert ins (fun _ => []) id

/-- A call that copies whatever the host answers. -/
def copies (ins : List (Nat × List UInt8)) (outs : List Copy) : Call := .convert ins (fun _ => outs) id

/-! ## Structures -/

/-- `rlim_cur`, `rlim_max`. -/
def rlimit : List Field := words 2 false

/-- `tv_sec` and `tv_nsec` or `tv_usec`. -/
def timespec : List Field := words 2 true

/-- `it_interval`, `it_value`. -/
def itimerspec : List Field := words 4 true

/-- `ru_utime`, `ru_stime`, which have two words each, and `ru_maxrss` to `ru_nivcsw`. -/
def rusage : List Field := words 18 true

/-- `tms_utime`, `tms_stime`, `tms_cutime`, `tms_cstime`. -/
def tms : List Field := words 4 true

/-- `mq_flags`, `mq_maxmsg`, `mq_msgsize`, `mq_curmsgs`. -/
def mq_attr : List Field := words 4 true

/-- `shmmax`, `shmmin`, `shmmni`, `shmseg`, `shmall`. -/
def shminfo64 : List Field := words 5 false

/-- What a `struct neutral_statfs64_32` has of the host: all but `f_fsid`. -/
def statfs64 : List Field :=
  [⟨0, 8, 0, 4, false, by decide⟩, ⟨8, 8, 4, 4, false, by decide⟩, ⟨16, 8, 8, 8, false, by decide⟩,
    ⟨24, 8, 16, 8, false, by decide⟩, ⟨32, 8, 24, 8, false, by decide⟩,
    ⟨40, 8, 32, 8, false, by decide⟩, ⟨48, 8, 40, 8, false, by decide⟩,
    ⟨64, 8, 56, 4, false, by decide⟩, ⟨72, 8, 60, 4, false, by decide⟩,
    ⟨80, 8, 64, 4, false, by decide⟩]

/-- What a `struct neutral_statfs_32` has of the host: all but `f_fsid` and `f_flags`. -/
def statfs : List Field :=
  words 7 false ++ [⟨64, 8, 36, 4, false, by decide⟩, ⟨72, 8, 40, 4, false, by decide⟩]

def sysinfo : List Field :=
  -- uptime, loads, totalram, freeram, sharedram, bufferram, totalswap, freeswap; the sign of
  -- the first does not matter for an assignment to the guest
  words 10 false ++
  -- procs, totalhigh, freehigh, mem_unit
  [⟨80, 2, 40, 2, false, by decide⟩, ⟨88, 8, 44, 4, false, by decide⟩,
    ⟨96, 8, 48, 4, false, by decide⟩, ⟨104, 4, 52, 4, false, by decide⟩]

/-- `l_type`, `l_whence`, `l_start`, `l_len`, `l_pid` of a `struct neutral_flock_32`. -/
def flock : List Field :=
  [⟨0, 2, 0, 2, true, by decide⟩, ⟨2, 2, 2, 2, true, by decide⟩, ⟨8, 8, 4, 4, true, by decide⟩,
    ⟨16, 8, 8, 4, true, by decide⟩, ⟨24, 4, 12, 4, true, by decide⟩]

/-- The same of a `struct neutral_flock64_32`. -/
def flock64 : List Field :=
  [⟨0, 2, 0, 2, true, by decide⟩, ⟨2, 2, 2, 2, true, by decide⟩, ⟨8, 8, 8, 8, true, by decide⟩,
    ⟨16, 8, 16, 8, true, by decide⟩, ⟨24, 4, 24, 4, true, by decide⟩]

/-- `si_pid`, `si_uid`, `si_status` of `_sigchld`. -/
def sigchld : List Field :=
  [⟨16, 4, 12, 4, true, by decide⟩, ⟨20, 4, 16, 4, false, by decide⟩, ⟨24, 4, 20, 4, true, by decide⟩]

/-- `si_signo`, `si_errno`, `si_code` and `sigchld`. -/
def siginfo : List Field :=
  [⟨0, 4, 0, 4, true, by decide⟩, ⟨4, 4, 4, 4, true, by decide⟩, ⟨8, 4, 8, 4, true, by decide⟩] ++ sigchld

/-- `si_signo`, `si_code` and `sigchld`: `rt_sigtimedwait` does not copy `si_errno`. -/
def siginfo_t : List Field :=
  [⟨0, 4, 0, 4, true, by decide⟩, ⟨8, 4, 8, 4, true, by decide⟩] ++ sigchld

/-- `key`, `uid`, `gid`, `cuid`, `cgid`, `mode`, `seq`. -/
def ipc64_perm : List Field :=
  [⟨0, 4, 0, 4, true, by decide⟩, ⟨4, 4, 4, 4, false, by decide⟩, ⟨8, 4, 8, 4, false, by decide⟩,
    ⟨12, 4, 12, 4, false, by decide⟩, ⟨16, 4, 16, 4, false, by decide⟩,
    ⟨20, 4, 20, 4, false, by decide⟩, ⟨24, 2, 24, 2, false, by decide⟩]

/-- `shm_segsz`, `shm_atime`, `shm_dtime`, `shm_ctime`, `shm_cpid`, `shm_lpid`. -/
def shmid64_ds : List Field :=
  ipc64_perm ++ [⟨48, 8, 36, 4, false, by decide⟩, ⟨56, 8, 40, 4, true, by decide⟩,
    ⟨64, 8, 48, 4, true, by decide⟩, ⟨72, 8, 56, 4, true, by decide⟩,
    ⟨80, 4, 64, 4, true, by decide⟩, ⟨84, 4, 68, 4, true, by decide⟩]

def shm_nattch : Field := ⟨88, 8, 72, 4, false, by decide⟩

/-- `used_ids`, `shm_tot`, `shm_rss`, `shm_swp`, `swap_attempts`, `swap_successes`. -/
def shm_info : List Field :=
  [⟨0, 4, 0, 4, true, by decide⟩, ⟨8, 8, 4, 4, false, by decide⟩, ⟨16, 8, 8, 4, false, by decide⟩,
    ⟨24, 8, 12, 4, false, by decide⟩, ⟨32, 8, 16, 4, false, by decide⟩,
    ⟨40, 8, 20, 4, false, by decide⟩]

/-- `sem_otime`, `sem_ctime`, `sem_nsems`. -/
def semid64_ds : List Field :=
  ipc64_perm ++ [⟨48, 8, 36, 4, true, by decide⟩, ⟨56, 8, 44, 4, true, by decide⟩,
    ⟨64, 8, 52, 4, false, by decide⟩]

/-- `msg_stime`, `msg_rtime`, `msg_ctime`, `__msg_cbytes`, `msg_qnum`, `msg_qbytes`, `msg_lspid`,
    `msg_lrpid`. -/
def msqid64_ds : List Field :=
  ipc64_perm ++ [⟨48, 8, 36, 4, true, by decide⟩, ⟨56, 8, 44, 4, true, by decide⟩,
    ⟨64, 8, 52, 4, true, by decide⟩, ⟨72, 8, 60, 4, false, by decide⟩,
    ⟨80, 8, 64, 4, false, by decide⟩, ⟨88, 8, 68, 4, false, by decide⟩,
    ⟨96, 4, 72, 4, true, by decide⟩, ⟨100, 4, 76, 4, true, by decide⟩]

/-- A number of groups, of 32 bits for the host and 16 for the guest. -/
def gids (n : Nat) : List Field :=
  (List.range n).map fun i => ⟨4 * i, 4, 2 * i, 2, false, by decide⟩

/-- `msg_len` of each message. -/
def msg_lens (n : Nat) : List Field :=
  (List.range n).map fun i => ⟨64 * i + 56, 4, 32 * i + 28, 4, false, by decide⟩

/-- `off_t`. -/
def off_t : List Field := [⟨0, 8, 0, 4, true, by decide⟩]

/-! ## The calls -/

section calls

variable (mem : Mem)

/-- All entries of the list are copied, not only those that the host has found. -/
def getgroups_neutral (size_p : BitVec 32) (list_p : Nat) : Call :=
  copies [] (out_all (gids size_p.toInt.toNat) 0 list_p)

/-- `msg_len` of each message. The headers, which the host only reads, are left out. -/
def sendmmsg_neutral (msgvec_p vlen : Nat) : Call :=
  copies (fetch_all (msg_lens vlen) mem 0 msgvec_p) (out_all (msg_lens vlen) 0 msgvec_p)

def IPC_64 : Nat := 0x100

def CMSGHDR_GUEST_SIZE : Nat := 12

def CMSGHDR_HOST_SIZE : Nat := 16

def CMSGHDR_HOST_GUEST_SIZE_DIFF : Nat := CMSGHDR_HOST_SIZE - CMSGHDR_GUEST_SIZE

def recvmsg_compute_msg_controllen (msg_controllen_guest : Nat) : Nat :=
  msg_controllen_guest + msg_controllen_guest / CMSGHDR_GUEST_SIZE * CMSGHDR_HOST_GUEST_SIZE_DIFF

/-- The loop over the control messages: the memory and the place behind the last message that
    was copied. It ends with `none` when the length of a payload is negative, which `memcpy`
    takes for a huge one. -/
def recvmsg_copy_msg_control (frame : Mem) : Nat → Nat → Nat → Nat → Nat → Mem → Option (Mem × Nat)
  | 0, _, _, _, _, _ => none
  | fuel + 1, msg_control_guest, msg_control_host, msg_controllen_host, msg_controllen_guest, mem =>
    if msg_controllen_host ≥ CMSGHDR_HOST_SIZE then
      let cmsg_len := frame.load msg_control_host 8
      -- be sure not to overflow guest buffer
      if msg_controllen_guest < (cmsg_len + 2 ^ 64 - CMSGHDR_HOST_GUEST_SIZE_DIFF) % 2 ^ 64 then
        some (mem, msg_control_guest)
      else if cmsg_len < CMSGHDR_HOST_SIZE then none
      else
        let payload := cmsg_len - CMSGHDR_HOST_SIZE
        let mem := mem.store msg_control_guest 4 (cmsg_len - CMSGHDR_HOST_GUEST_SIZE_DIFF)
        let mem := mem.store (msg_control_guest + 4) 4 (frame.load (msg_control_host + 8) 4)
        let mem := mem.store (msg_control_guest + 8) 4 (frame.load (msg_control_host + 12) 4)
        let mem := mem.write (msg_control_guest + CMSGHDR_GUEST_SIZE)
          (frame.read (msg_control_host + CMSGHDR_HOST_SIZE) payload)
        recvmsg_copy_msg_control frame fuel (msg_control_guest + CMSGHDR_GUEST_SIZE + payload)
          (msg_control_host + CMSGHDR_HOST_SIZE + payload)
          ((msg_controllen_host + 2 ^ 64 - cmsg_len) % 2 ^ 64)
          ((msg_controllen_guest + 2 ^ 32 - mem.load msg_control_guest 4) % 2 ^ 32) mem
    else some (mem, msg_control_guest)

/-- The place of the control data, behind the `struct neutral_msghdr_64`. -/
def CONTROL : Nat := 56

/-- The fields of the message that come back: `msg_namelen` and `msg_controllen`. Those that
    the host only reads are left out. -/
def recvmsg_ins (msg_p : Nat) : List (Nat × List UInt8) :=
  [(8, le 4 (mem.load (msg_p + 4) 4)),
    (40, le 8 (recvmsg_compute_msg_controllen (mem.load (msg_p + 20) 4)))]

def recvmsg_back (msg_p : Nat) (frame : Mem) (res : Int) (mem : Mem) : Option (Mem × Int) :=
  if res ≥ 0 then
    let mem := mem.store (msg_p + 4) 4 (frame.load 8 4)
    let msg_control := mem.load (msg_p + 16) 4
    let msg_controllen := mem.load (msg_p + 20) 4
    (recvmsg_copy_msg_control frame (msg_controllen + 1) msg_control CONTROL (frame.load 40 8)
      msg_controllen mem).map fun r => (r.1.store (msg_p + 20) 4 (r.2 - msg_control), res)
  else some (mem, res)

def recvmsg_neutral (msg_p : Nat) : Call :=
  if mem.load (msg_p + 12) 4 ≤ 16 then .walk (recvmsg_ins mem msg_p) (recvmsg_back msg_p) else .abort

end calls

/-! ## The adapter -/

/-- The calls that are answered through a structure. -/
inductive Sysnum where
  | PR__newselect | PR__llseek | PR_clock_getres | PR_clock_gettime | PR_clock_nanosleep
  | PR_fcntl64 | PR_fstatfs | PR_fstatfs64 | PR_getdents | PR_getitimer | PR_getgroups
  | PR_getrlimit | PR_gettimeofday | PR_getrusage | PR_mq_getsetattr | PR_msgctl | PR_msgrcv
  | PR_nanosleep | PR_pselect6 | PR_recvmsg | PR_rt_sigtimedwait | PR_sched_rr_get_interval
  | PR_semctl | PR_sendfile | PR_sendmmsg | PR_setitimer | PR_shmctl | PR_statfs | PR_statfs64
  | PR_sysinfo | PR_timer_gettime | PR_timer_settime | PR_timerfd_gettime | PR_timerfd_settime
  | PR_times | PR_waitid
  deriving DecidableEq

/-- The arguments of a call. -/
structure Args where
  p0 : BitVec 32
  p1 : BitVec 32
  p2 : BitVec 32
  p3 : BitVec 32
  p4 : BitVec 32
  p5 : BitVec 32
  deriving DecidableEq

end Umeq.Syscall
