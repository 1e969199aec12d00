import ProxyKernel.MachineTimer

namespace ProxyKernel.Trap
open ByteMem Riscv

def MSTATUS_MPP_MASK : Word := 3 <<< 11
def MSTATUS_MPP_S : Word := 1 <<< 11
def MSTATUS_MIE : Word := BitVec.twoPow 64 MIE
def MIE_MTIE : Word := BitVec.twoPow 64 7
def SIE_SEIE : Word := BitVec.twoPow 64 9
def SIE_STIE : Word := BitVec.twoPow 64 5
def SIE_SSIE : Word := BitVec.twoPow 64 1

/-- Registers that only `m_start` writes, and `mtimecmp` of the hart. -/
structure MachineRegs where
  misa : Word
  mstatus : Word
  mideleg : Word
  medeleg : Word
  mie : Word
  mtvec : Word
  mepc : Word
  mscratch : Word
  mtimecmp : Word

/-- The bits of the delegation registers that the hart implements; the others stay 0. -/
structure Delegable where
  interrupts : Word
  exceptions : Word

def supportsExtension (r : MachineRegs) (ext : Char) : Bool :=
  r.misa &&& BitVec.twoPow 64 (ext.toNat - 'A'.toNat) ≠ 0

/-- `MIP_SSIP | MIP_STIP | MIP_SEIP` -/
def delegatedInterrupts : Word := BitVec.twoPow 64 1 ||| BitVec.twoPow 64 5 ||| BitVec.twoPow 64 9

/-- Misaligned fetch, fetch page fault, breakpoint, load and store page fault, and
the system call of the user. -/
def delegatedExceptions : Word :=
  BitVec.twoPow 64 0x0 ||| BitVec.twoPow 64 0xc ||| BitVec.twoPow 64 0x3 ||| BitVec.twoPow 64 0xd |||
    BitVec.twoPow 64 0xf ||| BitVec.twoPow 64 0x8

def delegateTraps (hw : Delegable) (r : MachineRegs) : Except String MachineRegs :=
  if ¬ supportsExtension r 'S' then .ok r
  else
    let r := { r with
      mideleg := delegatedInterrupts &&& hw.interrupts
      medeleg := delegatedExceptions &&& hw.exceptions }
    if r.mideleg ≠ delegatedInterrupts then .error "read_csr(mideleg) == interrupts"
    else if r.medeleg ≠ delegatedExceptions then .error "read_csr(medeleg) == exceptions"
    else .ok r

/-- `sie` shows the delegated bits of `mie`, and a write changes these. -/
def MachineRegs.sie (r : MachineRegs) : Word := r.mie &&& r.mideleg
def MachineRegs.writeSie (r : MachineRegs) (v : Word) : MachineRegs :=
  { r with mie := r.mie &&& ~~~ r.mideleg ||| v &&& r.mideleg }

def timerinit (mtime : Word) (r : MachineRegs) : MachineRegs :=
  { r with mtimecmp := mtime + TIMER_INTERVAL, mie := r.mie ||| MIE_MTIE }

structure StartAddrs where
  itrframe : Word
  sStart : Word
  mtrapvec : Word

def mStart (hw : Delegable) (A : StartAddrs) (mtime : Word) (r : MachineRegs) :
    Except String MachineRegs := do
  let r := { r with mscratch := A.itrframe }
  let r := { r with mstatus := r.mstatus &&& ~~~ MSTATUS_MPP_MASK ||| MSTATUS_MPP_S }
  let r := { r with mepc := A.sStart }
  let r := { r with mtvec := A.mtrapvec }
  let r := { r with mstatus := r.mstatus ||| MSTATUS_MIE }
  let r ← delegateTraps hw r
  let r := r.writeSie (r.sie ||| SIE_SEIE ||| SIE_STIE ||| SIE_SSIE)
  pure (timerinit mtime r)

variable {hw : Delegable} {A : StartAddrs} {mtime : Word} {r r' : MachineRegs}

/-- The registers at the `mret`. -/
structure Booted (A : StartAddrs) (r : MachineRegs) : Prop where
  medeleg : r.medeleg = delegatedExceptions
  mideleg : r.mideleg = delegatedInterrupts
  mscratch : r.mscratch = A.itrframe
  mepc : r.mepc = A.sStart
  mtvec : r.mtvec = A.mtrapvec
  mpp : Priv.ofBits (r.mstatus.getLsbD MPP, r.mstatus.getLsbD (MPP + 1)) = .supervisor
  enabled : ∀ k ∈ [1, 5, 7, 9], r.mie.getLsbD k = true

theorem delegateTraps_ok (hS : supportsExtension r 'S') (h : delegateTraps hw r = .ok r') :
    r' = { r with mideleg := delegatedInterrupts, medeleg := delegatedExceptions } := by
  unfold delegateTraps at h
  rw [if_neg (not_not.mpr hS)] at h
  dsimp only at h
  split_ifs at h with hint hexc
  rw [not_not] at hint hexc
  rw [hint, hexc] at h
  exact (Except.ok.inj h).symm

theorem mStart_booted (hS : supportsExtension r 'S') (h : mStart hw A mtime r = .ok r') : Booted A r' := by
  unfold mStart at h
  dsimp only at h
  generalize hd : delegateTraps hw _ = d at h
  cases d with
  | error e => cases h
  | ok r₁ =>
    obtain rfl := delegateTraps_ok (by exact hS) hd
    obtain rfl := Except.ok.inj h
    refine ⟨rfl, rfl, rfl, rfl, rfl, ?_, ?_⟩
    · simp [timerinit, MachineRegs.writeSie, MSTATUS_MPP_MASK, MSTATUS_MPP_S, MSTATUS_MIE, MPP, MIE,
        Priv.ofBits]
    · simp [timerinit, MachineRegs.writeSie, MachineRegs.sie, delegatedInterrupts, SIE_SEIE, SIE_STIE,
        SIE_SSIE, MIE_MTIE]

theorem delegatedExceptions_iff (e : ℕ) :
    delegatedExceptions.getLsbD e = true ↔ e ∈ [0, 3, 8, 12, 13, 15] := by
  by_cases hlt : e < 16
  · interval_cases e <;> decide
  · have hsmall : delegatedExceptions.toNat < 2 ^ e :=
      lt_of_lt_of_le (by decide) (Nat.pow_le_pow_right (by decide) (not_lt.mp hlt))
    have hno : delegatedExceptions.getLsbD e = false := Nat.testBit_lt_two_pow hsmall
    rw [hno]
    simp only [Bool.false_eq_true, List.mem_cons, List.not_mem_nil, or_false, false_iff]
    omega

def MachineRegs.delegates (r : MachineRegs) (exception : ℕ) : Bool := r.medeleg.getLsbD exception

theorem Booted.delegates_iff (h : Booted A r) (e : ℕ) :
    r.delegates e = true ↔ e ∈ [0, 3, 8, 12, 13, 15] := by
  rw [MachineRegs.delegates, h.medeleg, delegatedExceptions_iff]

end ProxyKernel.Trap
