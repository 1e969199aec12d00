import ProxyKernel.Backtrace
import ProxyKernel.Print

namespace ProxyKernel.Syscall
open ByteMem Print Backtrace

def SYS_user_base : Word := 64
def SYS_user_print : Word := SYS_user_base + 0
def SYS_user_exit : Word := SYS_user_base + 1
def SYS_user_backtrace : Word := SYS_user_base + 2

inductive Outcome where
  | returns (ret : Word)
  | shutdown (code : BitVec 32)
  deriving DecidableEq

/-- The writes that the host is asked for, and the end. -/
structure Run where
  writes : List HostWrite
  outcome : Outcome

def shutdownFmt : List Byte := ascii "System is shutting down with exit code %d.\n".toList
def exitFmt : List Byte := ascii "User exit with code:%d.\n".toList
def unknownFmt : List Byte := ascii "Unknown syscall %ld \n".toList
def assertFmt : List Byte := ascii "assertion failed @ %p: %s\n".toList

def shutdown (m : Mem) (k : KernelContext) (code : BitVec 32) : Run :=
  ⟨[sprint k shutdownFmt [.ofMem m (code.signExtend 64)]], .shutdown code⟩

/-- `do_panic(s, args...)`.  The arguments are not unpacked: `va_start` makes a
`va_list` of them, which is passed on to `sprint` as its only argument. -/
def doPanic (m : Mem) (k : KernelContext) (s : List Byte) (_args : List VaArg) : Run :=
  let r := shutdown m k (-1)
  { r with writes := sprint k s [k.vl] :: r.writes }

/-- `panic(s, args...)`. -/
def panic (m : Mem) (k : KernelContext) (s : List Byte) (args : List VaArg) : Run :=
  doPanic m k (s ++ [chr '\n']) args

/-- `kassert_fail(s)`, with its return address. -/
def kassertFail (m : Mem) (k : KernelContext) (ra s : Word) : Run :=
  doPanic m k assertFmt [.ofMem m ra, .ofMem m s]

/-- The length `n` is not used. -/
def sysUserPrint (m : Mem) (k : KernelContext) (buf _n : Word) : Run :=
  ⟨[sprint k (strAt m buf) []], .returns 0⟩

def sysUserExit (m : Mem) (k : KernelContext) (code : Word) : Run :=
  let r := shutdown m k (code.setWidth 32)
  { r with writes := sprint k exitFmt [.ofMem m code] :: r.writes }

/-- `sys_user_backtrace` with its output; the walk always ends. -/
def userBacktrace (m : Mem) (k : KernelContext) (current maxDepth : Word) : Option Run :=
  (sysUserBacktrace m current maxDepth).map fun w =>
    ⟨w.prints.map fun c => sprint k c.fmt [.ofMem m c.arg], .returns w.count⟩

/-- `do_syscall(a0, .., a7)`. -/
def doSyscall (m : Mem) (k : KernelContext) (current : Word) (a : Fin 8 → Word) : Option Run :=
  if a 0 = SYS_user_print then some (sysUserPrint m k (a 1) (a 2))
  else if a 0 = SYS_user_exit then some (sysUserExit m k (a 1))
  else if a 0 = SYS_user_backtrace then userBacktrace m k current (a 1)
  else some (panic m k unknownFmt [.ofMem m (a 0)])

theorem doSyscall_print {m : Mem} {k : KernelContext} {current : Word} {a : Fin 8 → Word}
    (h : a 0 = SYS_user_print) :
    doSyscall m k current a = some (sysUserPrint m k (a 1) (a 2)) := by
  rw [doSyscall, if_pos h]

theorem doSyscall_total (m : Mem) (k : KernelContext) (current : Word) (a : Fin 8 → Word) :
    ∃ r, doSyscall m k current a = some r := by
  unfold doSyscall
  split_ifs
  · exact ⟨_, rfl⟩
  · exact ⟨_, rfl⟩
  · obtain ⟨w, hw⟩ := sysUserBacktrace_total m current (a 1)
    exact ⟨_, by rw [userBacktrace, hw, Option.map_some]⟩
  · exact ⟨_, rfl⟩

theorem doSyscall_returns (m : Mem) (k : KernelContext) (current : Word) {a : Fin 8 → Word}
    (h : a 0 = SYS_user_print ∨ a 0 = SYS_user_backtrace) :
    ∃ w ret, doSyscall m k current a = some ⟨w, .returns ret⟩ := by
  rcases h with h | h
  · exact ⟨_, _, doSyscall_print h⟩
  · have h1 : ¬ a 0 = SYS_user_print := by
      rw [h]
      decide
    have h2 : ¬ a 0 = SYS_user_exit := by
      rw [h]
      decide
    obtain ⟨w, hw⟩ := sysUserBacktrace_total m current (a 1)
    rw [doSyscall, if_neg h1, if_neg h2, if_pos h, userBacktrace, hw]
    exact ⟨_, _, rfl⟩

/-- `do_user_call`, as far as the kernel's work is concerned. -/
def doUserCall (m : Mem) (k : KernelContext) (current : Word)
    (sysnum a1 a2 a3 a4 a5 a6 a7 : Word) : Option Run :=
  doSyscall m k current ![sysnum, a1, a2, a3, a4, a5, a6, a7]

/-- The 256 bytes of the array `out` at `buf`. -/
def outBytes (out : ℕ → Byte) : List Byte := (List.range 256).map out

/-- `printu(s, ...)` with its array `out` at `buf` in the user's memory. -/
def printu (m : Mem) (k : KernelContext) (current buf : Word) (s : List Byte) (va : VaList) :
    Option Run :=
  let r := vsnprintf (fun i => m (buf + BitVec.ofNat 64 i)) 256 s va
  doUserCall (write m buf (outBytes r.out)) k current SYS_user_print buf (BitVec.ofNat 64 r.size)
    0 0 0 0 0

end ProxyKernel.Syscall
